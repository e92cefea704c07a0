import MultiPattern.Automaton.Compile
import MultiPattern.Proofs.Insertion

/-!
# Breadth-first order of a prefix tree

The branches of a prefix tree, level by level, come to every string but the
empty one exactly once, and never to a shorter string after a longer one. That
is all that the writing of failure links asks of their order: when the link of
a string is written, those of all shorter strings have been.

A level is the set of all strings of one length. The step from one level to the
next is the induction; a string has only one parent, so nothing is met twice.
-/

namespace MultiPattern

/-- The branch goes down from the state of `u` to that of the string one byte
longer. -/
structure Branch.From (e : Branch) (foldCase : Bool) (ss : Strings) (u : Bytes) : Prop where
  parent_mem : u ∈ ss
  child_mem : u ++ [Byte.canonical foldCase e.byte] ∈ ss
  parent : e.parent = ss.id u
  child : e.child = ss.id (u ++ [Byte.canonical foldCase e.byte])

theorem Branch.From.unique {e : Branch} {foldCase : Bool} {ss : Strings} {u v : Bytes}
    (hu : e.From foldCase ss u) (hv : e.From foldCase ss v) : u = v :=
  (Strings.id_inj hu.parent_mem).1 (hu.parent.symm.trans hv.parent)

theorem Branch.From.parent_eq_start_iff {e : Branch} {foldCase : Bool} {ss : Strings} {u : Bytes}
    (h : e.From foldCase ss u) : e.parent = .start ↔ u = [] := by
  rw [h.parent, Strings.id_eq_start_iff]

theorem Branch.From.child_ne_start {e : Branch} {foldCase : Bool} {ss : Strings} {u : Bytes}
    (h : e.From foldCase ss u) : e.child ≠ .start := by
  rw [h.child, Ne, Strings.id_eq_start_iff]
  exact List.append_ne_nil_of_right_ne_nil u (List.cons_ne_nil _ _)

namespace Arena

variable {a : Arena} {foldCase : Bool} {ss : Strings} {outs : Bytes → List PatternId}
  {u w : Bytes} {b : UInt8} {k : Nat} {level : List StateId} {e : Branch}

section

variable (h : a.Spells foldCase ss outs)

include h

theorem from_of_mem_branches (hu : u ∈ ss) (he : e ∈ a.branches (ss.id u)) :
    e.From foldCase ss u := by
  have hmem := Branch.mem_of_mem_firstToEach he
  rw [List.mem_map] at hmem
  obtain ⟨⟨b, child⟩, hedge, rfl⟩ := hmem
  have hnext : a.next (ss.id u) b = some child := State.mem_edges.1 hedge
  rw [h.next u hu, Strings.id?_eq_some_iff] at hnext
  exact ⟨hu, hnext.1, rfl, hnext.2.symm⟩

/-- Every child is reached by a branch, since a representative represents
itself. -/
theorem exists_mem_branches (hb : Byte.canonical foldCase b = b) (hw : u ++ [b] ∈ ss) :
    ∃ e ∈ a.branches (ss.id u), e.child = ss.id (u ++ [b]) := by
  have hu : u ∈ ss := Strings.mem_of_append hw
  have hnext : a.next (ss.id u) b = some (ss.id (u ++ [b])) := by
    rw [h.next u hu, hb, Strings.id?_of_mem hw]
  obtain ⟨e, he, hchild⟩ := Branch.exists_mem_firstToEach
    (List.mem_map_of_mem (f := fun x => (⟨ss.id u, x.1, x.2⟩ : Branch)) (State.mem_edges.2 hnext))
  exact ⟨e, he, hchild⟩

end

/-- The states of all strings of length `k`, each once. -/
structure IsLevel (ss : Strings) (k : Nat) (level : List StateId) : Prop where
  mem_iff : ∀ s, s ∈ level ↔ ∃ w ∈ ss, w.length = k ∧ ss.id w = s
  nodup : level.Nodup

theorem isLevel_start (ss : Strings) : IsLevel ss 0 [.start] := by
  refine ⟨fun s => ⟨fun hs => ?_, fun hs => ?_⟩, List.nodup_singleton _⟩
  · rw [List.mem_singleton] at hs
    exact ⟨[], Strings.nil_mem ss, rfl, hs.symm⟩
  · obtain ⟨w, -, hw, rfl⟩ := hs
    rw [List.length_eq_zero_iff.1 hw, Strings.id_nil]
    exact List.mem_singleton_self _

/-- The branches come to every string longer than `k` and not longer than `k +
height` once, and never to a shorter one after a longer one. -/
structure IsBreadthFirst (foldCase : Bool) (ss : Strings) (k height : Nat) (es : List Branch) :
    Prop where
  steps : ∀ e ∈ es, ∃ u, e.From foldCase ss u ∧ k ≤ u.length
  complete : ∀ w ∈ ss, k < w.length → w.length ≤ k + height → ∃ e ∈ es, e.child = ss.id w
  nodup : (es.map (·.child)).Nodup
  sorted : es.Pairwise fun e e' =>
    ∀ u u', e.From foldCase ss u → e'.From foldCase ss u' → u.length ≤ u'.length

/-- The strings that have been visited when these branches have been taken. -/
def Visited (ss : Strings) (taken : List Branch) (w : Bytes) : Prop :=
  w = [] ∨ ss.id w ∈ taken.map (·.child)

namespace IsBreadthFirst

variable {es taken todo : List Branch} {height : Nat} (hes : IsBreadthFirst foldCase ss 0 height es)
  (hheight : ∀ w ∈ ss, w.length ≤ height)

include hes hheight

theorem exists_child (hw : w ∈ ss) (hne : w ≠ []) : ∃ e ∈ es, e.child = ss.id w :=
  hes.complete w hw (List.length_pos_iff.2 hne) ((Nat.zero_add height).symm ▸ hheight w hw)

theorem visited (hw : w ∈ ss) : Visited ss es w := by
  refine or_iff_not_imp_left.2 fun hne => ?_
  obtain ⟨e, he, hchild⟩ := hes.exists_child hheight hw hne
  exact List.mem_map.2 ⟨e, he, hchild⟩

variable (hsplit : taken ++ e :: todo = es) (he : e.From foldCase ss u)

include hsplit he

/-- Before a child is visited all strings no longer than that of its parent have
been. -/
theorem visited_of_length_le (hw : w ∈ ss) (hle : w.length ≤ u.length) : Visited ss taken w := by
  refine or_iff_not_imp_left.2 fun hne => ?_
  obtain ⟨e', he', hchild⟩ := hes.exists_child hheight hw hne
  obtain ⟨u', hu', -⟩ := hes.steps e' he'
  have hsorted := hes.sorted
  rw [← hsplit, List.pairwise_append, List.pairwise_cons] at hsorted
  rw [hu'.child, Strings.id_inj hu'.child_mem] at hchild
  have hlen : w.length = u'.length + 1 := by
    rw [← hchild, List.length_append, List.length_singleton]
  rw [← hsplit, List.mem_append, List.mem_cons] at he'
  rcases he' with he' | rfl | he'
  · rw [← hchild, ← hu'.child]
    exact List.mem_map_of_mem he'
  · rw [hu'.unique he] at hlen
    omega
  · have := hsorted.2.1.1 e' he' u u' he hu'
    omega

omit hheight

/-- No child is visited twice. -/
theorem not_visited_child : ¬ Visited ss taken (u ++ [Byte.canonical foldCase e.byte]) := by
  intro hvisited
  have hmem := hvisited.resolve_left (by simp)
  have hnodup := hes.nodup
  rw [← hsplit, List.map_append, List.map_cons, List.nodup_append] at hnodup
  rw [← he.child] at hmem
  exact hnodup.2.2 _ hmem _ List.mem_cons_self rfl

end IsBreadthFirst

/-- The words of the tree are made of representatives. -/
def Canonical (foldCase : Bool) (ss : Strings) : Prop :=
  ∀ w b, w ++ [b] ∈ ss → Byte.canonical foldCase b = b

section

variable (h : a.Spells foldCase ss outs) (hcanon : Canonical foldCase ss)

include h hcanon

theorem isLevel_below (hl : IsLevel ss k level) :
    IsLevel ss (k + 1) ((level.flatMap a.branches).map (·.child)) := by
  refine ⟨fun s => ⟨fun hs => ?_, fun hs => ?_⟩, ?_⟩
  · obtain ⟨e, he, rfl⟩ := List.mem_map.1 hs
    obtain ⟨t, ht, he⟩ := List.mem_flatMap.1 he
    obtain ⟨u, hu, hlen, rfl⟩ := (hl.mem_iff t).1 ht
    have hfrom := from_of_mem_branches h hu he
    exact ⟨_, hfrom.child_mem, by rw [List.length_append, hlen]; rfl, hfrom.child.symm⟩
  · obtain ⟨w, hw, hlen, rfl⟩ := hs
    have hne : w ≠ [] := List.ne_nil_of_length_eq_add_one hlen
    obtain ⟨u, b, rfl⟩ := (List.eq_nil_or_concat' w).resolve_left hne
    have hu : u.length = k := by simpa using hlen
    obtain ⟨e, he, hchild⟩ := exists_mem_branches h (hcanon u b hw) hw
    refine List.mem_map.2 ⟨e, List.mem_flatMap.2 ⟨ss.id u, ?_, he⟩, hchild⟩
    exact (hl.mem_iff _).2 ⟨u, Strings.mem_of_append hw, hu, rfl⟩
  · rw [List.map_flatMap, List.nodup_flatMap]
    refine ⟨fun s _ => Branch.nodup_map_child_firstToEach _, ?_⟩
    refine hl.nodup.imp_of_mem fun {s t} hs ht hne x hxs hxt => hne ?_
    obtain ⟨u, hu, -, rfl⟩ := (hl.mem_iff s).1 hs
    obtain ⟨v, hv, -, rfl⟩ := (hl.mem_iff t).1 ht
    obtain ⟨e, he, rfl⟩ := List.mem_map.1 hxs
    obtain ⟨e', he', heq⟩ := List.mem_map.1 hxt
    have hfrom := from_of_mem_branches h hu he
    have hfrom' := from_of_mem_branches h hv he'
    rw [hfrom.child, hfrom'.child, Strings.id_inj hfrom'.child_mem] at heq
    rw [(List.append_inj' heq rfl).1]

/-- The branches of the next levels, in an order in which links can be
written. -/
theorem isBreadthFirst_levels (height : Nat) (hl : IsLevel ss k level) :
    IsBreadthFirst foldCase ss k height (a.levels height level) := by
  induction height generalizing k level with
  | zero =>
      rw [levels]
      refine ⟨fun e he => ?_, fun w _ hlt hle => ?_, List.nodup_nil, List.Pairwise.nil⟩
      · exact absurd he List.not_mem_nil
      · exact absurd hlt (Nat.not_lt.2 hle)
  | succ height ih =>
      have hbelow : ∀ e ∈ level.flatMap a.branches, ∃ u, e.From foldCase ss u ∧ u.length = k := by
        intro e he
        obtain ⟨t, ht, he⟩ := List.mem_flatMap.1 he
        obtain ⟨u, hu, hlen, rfl⟩ := (hl.mem_iff t).1 ht
        exact ⟨u, from_of_mem_branches h hu he, hlen⟩
      have hlevel := isLevel_below h hcanon hl
      have hrest := ih hlevel
      rw [levels]
      refine ⟨fun e he => ?_, fun w hw hlt hle => ?_, ?_, ?_⟩
      · rcases List.mem_append.1 he with he | he
        · obtain ⟨u, hu, hlen⟩ := hbelow e he
          exact ⟨u, hu, Nat.le_of_eq hlen.symm⟩
        · obtain ⟨u, hu, hlen⟩ := hrest.steps e he
          exact ⟨u, hu, Nat.le_of_succ_le hlen⟩
      · by_cases hlen : w.length = k + 1
        · have hmem := (hlevel.mem_iff _).2 ⟨w, hw, hlen, rfl⟩
          obtain ⟨e, he, hchild⟩ := List.mem_map.1 hmem
          exact ⟨e, List.mem_append_left _ he, hchild⟩
        · obtain ⟨e, he, hchild⟩ := hrest.complete w hw (by omega) (by omega)
          exact ⟨e, List.mem_append_right _ he, hchild⟩
      · rw [List.map_append, List.nodup_append]
        refine ⟨hlevel.nodup, hrest.nodup, fun s hs t ht heq => ?_⟩
        obtain ⟨w, hw, hlen, rfl⟩ := (hlevel.mem_iff s).1 hs
        obtain ⟨e, he, rfl⟩ := List.mem_map.1 ht
        obtain ⟨u, hu, hle⟩ := hrest.steps e he
        rw [hu.child, Strings.id_inj hw] at heq
        rw [heq, List.length_append, List.length_singleton] at hlen
        omega
      · rw [List.pairwise_append]
        have hlen : ∀ e ∈ level.flatMap a.branches, ∀ u, e.From foldCase ss u → u.length = k := by
          intro e he u hu
          obtain ⟨v, hv, hlen⟩ := hbelow e he
          rw [hu.unique hv, hlen]
        refine ⟨?_, hrest.sorted, fun e he e' he' u u' hu hu' => ?_⟩
        · refine List.pairwise_of_forall_mem_list fun e he e' he' u u' hu hu' => ?_
          rw [hlen e he u hu, hlen e' he' u' hu']
        · obtain ⟨v, hv, hle⟩ := hrest.steps e' he'
          rw [hlen e he u hu, hu'.unique hv]
          exact Nat.le_of_succ_le hle

end

/-- The bare tree of some strings, no higher than `height`. -/
structure Tree (a : Arena) (foldCase : Bool) (ss : Strings) (outs : Bytes → List PatternId)
    (height : Nat) : Prop where
  spells : a.Spells foldCase ss outs
  canonical : Canonical foldCase ss
  length_le : ∀ w ∈ ss, w.length ≤ height

namespace Tree

variable {height : Nat} (ht : a.Tree foldCase ss outs height)

include ht

theorem isBreadthFirst : IsBreadthFirst foldCase ss 0 height (a.breadthFirst height) :=
  isBreadthFirst_levels ht.spells ht.canonical height (isLevel_start ss)

/-- The branches come to all states but the start and the dead state. -/
theorem mem_children {s : StateId} :
    s ∈ (a.breadthFirst height).map (·.child) ↔ s ≠ .start ∧ s ≠ .dead ∧ s.index < a.size := by
  rw [ht.spells.size]
  refine ⟨fun hs => ?_, fun hs => ?_⟩
  · obtain ⟨e, he, rfl⟩ := List.mem_map.1 hs
    obtain ⟨u, hu, -⟩ := ht.isBreadthFirst.steps e he
    refine ⟨hu.child_ne_start, ?_⟩
    rw [hu.child]
    exact ⟨Strings.id_ne_dead _ _, Strings.id_index_lt hu.child_mem⟩
  · obtain ⟨hstart, hdead, hlt⟩ := hs
    obtain ⟨w, hw, rfl⟩ := ss.exists_id hlt hdead
    rw [Ne, Strings.id_eq_start_iff] at hstart
    obtain ⟨e, he, hchild⟩ := ht.isBreadthFirst.exists_child ht.length_le hw hstart
    exact List.mem_map.2 ⟨e, he, hchild⟩

end Tree

end Arena

namespace Trie

theorem canonical_ofWords (st : Settings) (patterns : List Bytes) :
    Arena.Canonical st.foldCase (.ofWords st.kind (patterns.map st.canon)) := by
  intro w b hw
  obtain ⟨p, u, hp, hu⟩ := (Strings.mem_ofWords.1 hw).resolve_left (by simp)
  obtain ⟨pattern, -, rfl⟩ := List.mem_map.1 (List.mem_of_getElem? hp.1)
  have hb : b ∈ st.canon pattern := hu.subset (by simp)
  obtain ⟨c, -, rfl⟩ := List.mem_map.1 hb
  exact Byte.canonical_canonical st.foldCase c

/-- No string of the tree is longer than the longest pattern. -/
theorem length_le_of_mem_ofWords {st : Settings} {patterns : List Bytes} {w : Bytes}
    (hw : w ∈ Strings.ofWords st.kind (patterns.map st.canon)) :
    w.length ≤ (ofPatterns st patterns).maxLength := by
  rcases Strings.mem_ofWords.1 hw with rfl | ⟨p, u, hp, hu⟩
  · exact Nat.zero_le _
  · obtain ⟨pattern, hmem, rfl⟩ := List.mem_map.1 (List.mem_of_getElem? hp.1)
    refine hu.length_le.trans ?_
    rw [Settings.length_canon, maxLength_ofPatterns]
    exact List.le_max?_getD_of_mem (List.mem_map_of_mem hmem)

theorem tree_ofPatterns (st : Settings) (patterns : List Bytes) :
    (ofPatterns st patterns).arena.Tree st.foldCase (.ofWords st.kind (patterns.map st.canon))
      (registeredAs st.kind (patterns.map st.canon)) (ofPatterns st patterns).maxLength where
  spells := (holds_ofPatterns st patterns).spells
  canonical := canonical_ofWords st patterns
  length_le _ hw := length_le_of_mem_ofWords hw

end Trie

end MultiPattern
