import MultiPattern.Proofs.Paths

/-!
# The arena is the prefix tree

What is compiled has a start state, a dead state and one state more for every
string that a kept pattern begins with. These strings are met one after the other
when the patterns are inserted, and `firstMet` lists them so; a state is named
by the place of its string in this list, behind the two that are always there.

Insertion adds a string at the end of the list exactly if it is not in it yet,
which is what erasing repetitions from the list of all beginnings comes to. What
is done after insertion writes loops and failure links: it makes no difference to
transitions that lead into the tree (`Arena.SameEdges`), pass by pass.
-/

namespace MultiPattern

/-- The strings that the words begin with, but for the empty one, in the order
in which they are met when one word is read after the other. -/
def firstMet (words : List Bytes) : List Bytes :=
  (words.flatMap fun w => w.inits.tail).eraseDups

/-- The state of a string, if states are named by the places of their strings in
a list, behind the start and the dead state. -/
def stateOf? (strings : List Bytes) (w : Bytes) : Option StateId :=
  (strings.idxOf? w).map fun i => ⟨i + 2⟩

namespace Strings

variable {ss : Strings} {xs words : List Bytes} {w rest : Bytes} {b : UInt8} {i : Nat}

/-! ## The order of the strings -/

theorem list_add_eq (hw : w ∈ ss) (h : ss.list = xs.eraseDups) :
    (ss.add w b).list = (xs ++ [w ++ [b]]).eraseDups := by
  have hmem : w ++ [b] ∈ ss ↔ w ++ [b] ∈ xs := by
    rw [mem_def, or_iff_right (by simp), h, List.mem_eraseDups]
  rw [eraseDups_concat, ← h]
  split
  · next hx => rw [add_of_mem (hmem.2 hx)]
  · next hx => rw [list_add hw fun hb => hx (hmem.1 hb)]

theorem list_extend (hw : w ∈ ss) (h : ss.list = xs.eraseDups) :
    (ss.extend w rest).list = (xs ++ rest.inits.tail.map (w ++ ·)).eraseDups := by
  induction rest generalizing ss w xs with
  | nil =>
      rw [extend, h]
      simp
  | cons b rest ih =>
      have hadd : w ++ [b] ∈ ss.add w b := (mem_add hw).2 (Or.inr rfl)
      have hbelow : (b :: rest).inits.tail.map (w ++ ·) =
          [w ++ [b]] ++ rest.inits.tail.map (w ++ [b] ++ ·) := by
        cases rest <;> simp
      rw [extend, ih hadd (list_add_eq hw h), hbelow, List.append_assoc]

theorem list_foldl_extend (h : ss.list = xs.eraseDups) :
    (words.foldl (fun ss w => ss.extend [] w) ss).list =
      (xs ++ words.flatMap fun w => w.inits.tail).eraseDups := by
  induction words generalizing ss xs with
  | nil => simpa using h
  | cons w words ih =>
      rw [List.foldl_cons, ih (list_extend (nil_mem ss) h), List.flatMap_cons, List.append_assoc]
      simp

/-- The strings of a tree are those that its words begin with, as they are
met. -/
theorem list_ofWords (kind : MatchKind) (words : List Bytes) :
    (ofWords kind words).list = firstMet (kept kind words) := by
  have hempty : empty.list = ([] : List Bytes).eraseDups := rfl
  exact list_foldl_extend hempty

/-! ## Names by places -/

theorem mem_list_iff : w ∈ ss.list ↔ w ≠ [] ∧ w ∈ ss :=
  ⟨fun h => ⟨fun hnil => ss.nil_notMem (hnil ▸ h), Or.inr h⟩, fun h => mem_list_of_ne_nil h.2 h.1⟩

theorem stateOf?_list (hne : w ≠ []) : stateOf? ss.list w = ss.id? w := by
  rw [stateOf?]
  cases h : ss.list.idxOf? w with
  | none =>
      have hnot : w ∉ ss := fun hmem =>
        List.idxOf?_eq_none_iff.1 h (mem_list_of_ne_nil hmem hne)
      rw [id?_of_not_mem hnot, Option.map_none]
  | some i =>
      obtain ⟨hi, hw, -⟩ := List.idxOf?_eq_some_iff.1 h
      have hmem : w ∈ ss := Or.inr (List.mem_of_getElem hw)
      rw [id?_of_mem hmem, id_of_ne_nil hne, List.idxOf_eq_getD_idxOf?, h]
      rfl

theorem id_of_getElem? (h : ss.list[i]? = some w) : w ≠ [] ∧ w ∈ ss ∧ ss.id w = ⟨i + 2⟩ := by
  obtain ⟨hi, rfl⟩ := List.getElem?_eq_some_iff.1 h
  obtain ⟨hne, hmem⟩ := mem_list_iff.1 (List.getElem_mem hi)
  refine ⟨hne, hmem, ?_⟩
  rw [id_of_ne_nil hne, ss.nodup.idxOf_getElem i hi]

end Strings

/-! ## What is done after insertion -/

namespace Arena

/-- The transitions that lead into the tree are the same in both, and there are
no more states. -/
structure SameEdges (a a' : Arena) : Prop where
  size : a'.size = a.size
  next_iff : ∀ s b t, t ≠ .start → t ≠ .dead → (a'.next s b = some t ↔ a.next s b = some t)

variable {a : Arena} {s t : StateId} {b : UInt8} {f : State → State}

theorem next_modify_of_next (hf : ∀ x, (f x).next = x.next) :
    (a.modify s f).next t b = a.next t b := by
  simp only [next, state, state?, modify, Array.getElem?_modify]
  split
  · cases a.cells[t.index]? with
    | none => rfl
    | some x =>
        show (f x).next.get b = x.next.get b
        rw [hf]
  · rfl

theorem next_modify (hs : s.index < a.size) :
    (a.modify s f).next t b = if s = t then (f (a.state t)).next.get b else a.next t b := by
  rw [next, state_modify _ _ _ _ hs]
  split
  · rfl
  · rfl

theorem next_acceptAll (x : State) (ps : List PatternId) : (x.acceptAll ps).next = x.next := by
  rw [State.acceptAll_eq]

/-- A failure link is written beside the transitions. -/
theorem next_link (kind : MatchKind) (a : Arena) (e : Branch) (s : StateId) (b : UInt8) :
    (link kind a e).next s b = a.next s b := by
  rw [link]
  split
  · exact next_modify_of_next fun _ => rfl
  · split
    · split
      · rfl
      · exact next_modify_of_next fun x => next_acceptAll x _
    · exact next_modify_of_next fun x => next_acceptAll _ _

theorem sameEdges_linkAll (kind : MatchKind) (a : Arena) (es : List Branch) :
    a.SameEdges (a.linkAll kind es) := by
  induction es generalizing a with
  | nil => exact ⟨rfl, fun _ _ _ _ _ => Iff.rfl⟩
  | cons e es ih =>
      have hrest := ih (link kind a e)
      refine ⟨hrest.size.trans (Linked.size_link kind a e), fun s b t hstart hdead => ?_⟩
      rw [← next_link kind a e s b]
      exact hrest.next_iff s b t hstart hdead

theorem sameEdges_closeStart (hs : StateId.start.index < a.size) : a.SameEdges a.closeStart := by
  refine ⟨size_modify .., fun s b t hstart _ => ?_⟩
  rw [closeStart, next_modify hs]
  split
  · next heq =>
      subst heq
      rw [ByteTable.get_map, next]
      cases (a.state .start).next.get b with
      | none => simpa using hstart.symm
      | some u => rfl
  · rfl

theorem sameEdges_closeDead (hs : StateId.dead.index < a.size) (hbare : ∀ b, a.next .dead b = none) :
    a.SameEdges a.closeDead := by
  refine ⟨size_modify .., fun s b t _ hdead => ?_⟩
  rw [closeDead, next_modify hs]
  split
  · next heq =>
      subst heq
      rw [hbare]
      simpa using hdead.symm
  · rfl

theorem sameEdges_shutStart (kind : MatchKind) (hs : StateId.start.index < a.size) :
    a.SameEdges (a.shutStart kind) := by
  rw [shutStart]
  split
  · refine ⟨size_modify .., fun s b t hstart hdead => ?_⟩
    rw [next_modify hs]
    split
    · next heq =>
        subst heq
        rw [ByteTable.get_map, next]
        by_cases hloop : (a.state .start).next.get b = some .start
        · rw [if_pos hloop, hloop]
          exact iff_of_false (fun h => hdead (Option.some.inj h).symm)
            fun h => hstart (Option.some.inj h).symm
        · rw [if_neg hloop]
    · rfl
  · exact ⟨rfl, fun _ _ _ _ _ => Iff.rfl⟩

end Arena

theorem Trie.size_looped (t : Trie) : t.looped.size = t.arena.size :=
  (Arena.size_modify ..).trans (Arena.size_modify ..)

/-- No pass after insertion changes what leads into the tree. -/
theorem Trie.sameEdges_passes (st : Settings) (patterns : List Bytes) :
    let t := ofPatterns st patterns
    t.arena.SameEdges t.arena.closeStart ∧ t.arena.closeStart.SameEdges t.looped ∧
      (∀ es, t.looped.SameEdges (t.looped.linkAll st.kind es)) ∧
      (t.looped.linkAll st.kind t.branches).SameEdges (t.linked st.kind) := by
  intro t
  have hspells := (holds_ofPatterns st patterns).spells
  have hsize : 1 < t.arena.size := by
    rw [hspells.size]
    exact Nat.lt_add_left _ Nat.one_lt_two
  have hstart : StateId.start.index < t.arena.size := Nat.zero_lt_of_lt hsize
  refine ⟨Arena.sameEdges_closeStart hstart, Arena.sameEdges_closeDead ?_ fun b => ?_,
    Arena.sameEdges_linkAll st.kind _, Arena.sameEdges_shutStart st.kind ?_⟩
  · rw [Arena.closeStart, Arena.size_modify]
    exact hsize
  · rw [Arena.closeStart, Arena.next_modify hstart, if_neg (by decide), Arena.next, hspells.dead]
    exact State.fresh_next_get 0 b
  · rw [(Arena.sameEdges_linkAll st.kind _ _).size, size_looped]
    exact hstart

namespace Automaton

variable {st : Settings} {patterns : List Bytes} {w : Bytes} {b : UInt8} {i : Nat}

theorem mem_firstMet_kept {kind : MatchKind} {words : List Bytes} :
    w ∈ firstMet (kept kind words) ↔ w ≠ [] ∧ ∃ p u, Registered kind words p u ∧ w <+: u := by
  rw [← Strings.list_ofWords, Strings.mem_list_iff, Strings.mem_ofWords, InTree]
  exact and_congr_right fun hne => or_iff_right hne

theorem shut_iff :
    (Lexicon.ofWords st.kind (patterns.map st.canon)).Shut ↔
      st.kind.isLeftmost = true ∧ [] ∈ patterns := by
  refine ⟨fun hs => ⟨hs.1, ?_⟩, fun h => ?_⟩
  · simpa using (Lexicon.shut_ofWords_iff hs.1).1 hs
  · exact (Lexicon.shut_ofWords_iff h.1).2 (by simpa using h.2)

/-- The states of a finished automaton behind the start and the dead state are
the strings that kept patterns begin with, in the order in which insertion meets
them. A byte leads to the string that is longer by it, if that is one. Where it is
not, only the start state has a transition: back to itself, or to the dead state
when an empty pattern is committed to. All this is so when the last pattern has
been inserted, and no later pass changes it. -/
theorem arena_eq_prefix_tree (st : Settings) (patterns : List Bytes) :
    let t := Trie.ofPatterns st patterns
    let a := (compile st patterns).arena
    let words := patterns.map st.canon
    let strings := firstMet (kept st.kind words)
    (strings.Nodup ∧ ∀ w, w ∈ strings ↔ w ≠ [] ∧ ∃ p u, Registered st.kind words p u ∧ w <+: u) ∧
      a.size = strings.length + 2 ∧
      (∀ i w, strings[i]? = some w →
        a.Path w ⟨i + 2⟩ ∧ (a.state ⟨i + 2⟩).depth = w.length ∧
          ∀ b, a.next ⟨i + 2⟩ b = stateOf? strings (w ++ [Byte.canonical st.foldCase b])) ∧
      (∀ b, a.next .start b =
        some ((stateOf? strings [Byte.canonical st.foldCase b]).getD
          (if st.kind.isLeftmost = true ∧ [] ∈ patterns then .dead else .start))) ∧
      (∀ b, a.next .dead b = some .dead) ∧
      t.arena.SameEdges t.arena.closeStart ∧ t.arena.closeStart.SameEdges t.looped ∧
      (∀ es, t.looped.SameEdges (t.looped.linkAll st.kind es)) ∧
      (t.looped.linkAll st.kind t.branches).SameEdges a := by
  intro t a words strings
  have hcompiled : a.Compiled st.foldCase (.ofWords st.kind words) :=
    Trie.compiled_ofPatterns st patterns
  have hlist : (Strings.ofWords st.kind words).list = strings := Strings.list_ofWords _ _
  have hstate : ∀ {w}, w ≠ [] →
      (Lexicon.ofWords st.kind words).strings.id? w = stateOf? strings w := by
    intro w hne
    rw [← hlist, Strings.stateOf?_list hne]
    rfl
  refine ⟨⟨?_, fun w => mem_firstMet_kept⟩, ?_, fun i w hi => ?_, fun b => ?_,
    hcompiled.next_dead, Trie.sameEdges_passes st patterns⟩
  · rw [← hlist]
    exact Strings.nodup _
  · rw [← hlist]
    exact hcompiled.size
  · rw [← hlist] at hi
    obtain ⟨hne, hw, hid⟩ := Strings.id_of_getElem? hi
    rw [← hid]
    refine ⟨path_iff.2 ?_, hcompiled.depth w hw, fun b => ?_⟩
    · rw [canon_of_mem hw]
      exact ⟨hw, rfl⟩
    · rw [← hstate (by simp)]
      exact hcompiled.next w hw hne b
  · rw [← hstate (by simp), ← if_congr shut_iff rfl rfl]
    exact hcompiled.next_start b

/-- Under folding Ab is two states; aBc is given up and adds none, though it is
read to its last byte but one. -/
theorem arena_eq_prefix_tree_folded :
    let a := (compile { kind := .leftmostFirst, foldCase := true }
      [[0x41, 0x62], [0x61, 0x42, 0x63], []]).arena
    a.size = 4 ∧ a.Path [0x61, 0x62] ⟨3⟩ ∧ a.next ⟨2⟩ 0x42 = some ⟨3⟩ ∧
      a.next .start 0x63 = some .dead := by
  intro a
  obtain ⟨-, hsize, hstates, hstart, -⟩ := arena_eq_prefix_tree
    { kind := .leftmostFirst, foldCase := true } [[0x41, 0x62], [0x61, 0x42, 0x63], []]
  obtain ⟨-, -, hnext⟩ := hstates 0 [0x61] (by decide)
  obtain ⟨hpath, -, -⟩ := hstates 1 [0x61, 0x62] (by decide)
  exact ⟨hsize.trans (by decide), hpath, (hnext 0x42).trans (by decide),
    (hstart 0x63).trans (by decide)⟩

end Automaton

end MultiPattern
