import Mathlib.Data.List.Shortlex
import MultiPattern.Proofs.Levels

/-!
# The order in which strings are visited

Levels come one after the other, and within a level parents before parents and
then bytes before bytes. On the strings this is the order by length and then by
bytes, where a letter counts as the first of its cases: its state is visited for
the least byte that leads there, and under folding that is the capital.

`Branch.eq_or_rel_of_mem_firstToEach` is what makes it the least. The rest is the
step from one level to the next (`pairwise_below`): strings of one length stay in
order when a byte is added to each.
-/

namespace MultiPattern

namespace Byte

/-- The least of the bytes that count as `b`. -/
def foremost (foldCase : Bool) (b : UInt8) : UInt8 :=
  if foldCase then upper b else b

theorem upper_le : ∀ b : UInt8, upper b ≤ b :=
  forall_of_fin (by decide +kernel)

theorem lower_upper : ∀ b : UInt8, lower (upper b) = lower b :=
  forall_of_fin (by decide +kernel)

theorem upper_lower : ∀ b : UInt8, upper (lower b) = upper b :=
  forall_of_fin (by decide +kernel)

variable (foldCase : Bool) (b : UInt8)

theorem foremost_le : foremost foldCase b ≤ b := by
  cases foldCase
  · exact UInt8.le_refl b
  · exact upper_le b

theorem canonical_foremost : canonical foldCase (foremost foldCase b) = canonical foldCase b := by
  cases foldCase
  · rfl
  · exact lower_upper b

theorem foremost_canonical : foremost foldCase (canonical foldCase b) = foremost foldCase b := by
  cases foldCase
  · rfl
  · exact upper_lower b

end Byte

/-- `u` is visited before `v`: it is shorter, or else it comes first in the order
of bytes, where a letter counts as the first of its cases. -/
def VisitedBefore (foldCase : Bool) (u v : Bytes) : Prop :=
  List.Shortlex (· < ·) (u.map (Byte.foremost foldCase)) (v.map (Byte.foremost foldCase))

section

variable {foldCase : Bool} {u v : Bytes} {b c : UInt8}

theorem VisitedBefore.of_length_lt (h : u.length < v.length) : VisitedBefore foldCase u v :=
  List.Shortlex.of_length_lt (by simpa using h)

theorem VisitedBefore.append_left (h : Byte.foremost foldCase b < Byte.foremost foldCase c)
    (u : Bytes) : VisitedBefore foldCase (u ++ [b]) (u ++ [c]) := by
  rw [VisitedBefore, List.map_append, List.map_append]
  exact List.Shortlex.append_left ((List.shortlex_singleton_iff _ _).2 h) _

theorem lex_append_of_length_eq {xs ys : Bytes} (h : List.Lex (· < ·) xs ys)
    (hlen : xs.length = ys.length) (xs' ys' : Bytes) :
    List.Lex (· < ·) (xs ++ xs') (ys ++ ys') := by
  induction h with
  | nil => cases hlen
  | rel hlt => exact .rel hlt
  | cons _ ih => exact .cons (ih (Nat.succ.inj hlen))

theorem VisitedBefore.append (h : VisitedBefore foldCase u v) (hlen : u.length = v.length)
    (b c : UInt8) : VisitedBefore foldCase (u ++ [b]) (v ++ [c]) := by
  have hkeys :
      (u.map (Byte.foremost foldCase)).length = (v.map (Byte.foremost foldCase)).length := by
    simpa using hlen
  refine List.Shortlex.of_lex (by simpa using hlen) ?_
  rw [List.map_append, List.map_append]
  exact lex_append_of_length_eq ((List.shortlex_iff_lex hkeys).1 h) hkeys _ _

end

namespace Branch

variable {es : List Branch} {e e' : Branch} {r : Branch → Branch → Prop}

theorem firstToEach_sublist (es : List Branch) : (firstToEach es).Sublist es := by
  induction es with
  | nil => exact List.Sublist.refl _
  | cons x rest ih =>
      rw [firstToEach]
      exact (List.filter_sublist.trans ih).cons_cons x

/-- Of the branches to one child the one that is kept comes before the others. -/
theorem eq_or_rel_of_mem_firstToEach (hes : es.Pairwise r) (he : e ∈ firstToEach es) (he' : e' ∈ es)
    (hchild : e'.child = e.child) : e' = e ∨ r e e' := by
  induction es with
  | nil => cases he'
  | cons x rest ih =>
      obtain ⟨hx, hrest⟩ := List.pairwise_cons.1 hes
      rw [firstToEach, List.mem_cons] at he
      rcases he with rfl | he
      · exact (List.mem_cons.1 he').imp_right fun he' => hx e' he'
      · obtain ⟨he, hne⟩ := List.mem_filter.1 he
        rcases List.mem_cons.1 he' with rfl | he'
        · simp [hchild] at hne
        · exact ih hrest he he'

end Branch

theorem State.pairwise_edges (s : State) : s.edges.Pairwise fun x y => x.1 < y.1 := by
  rw [edges, ByteTable.entries_eq_map, List.filterMap_map]
  refine Byte.pairwise_all.filterMap _ fun b c hlt x hx y hy => ?_
  simp only [Function.comp_apply, Option.map_eq_some_iff] at hx hy
  obtain ⟨_, -, rfl⟩ := hx
  obtain ⟨_, -, rfl⟩ := hy
  exact UInt8.lt_iff_toNat_lt.2 hlt

namespace Arena

variable {a : Arena} {foldCase : Bool} {ss : Strings} {outs : Bytes → List PatternId}
  {u w : Bytes} {e : Branch} {k : Nat} {ws : List Bytes}

theorem pairwise_edges (a : Arena) (s : StateId) :
    ((a.state s).edges.map fun x => (⟨s, x.1, x.2⟩ : Branch)).Pairwise fun e e' =>
      e.byte < e'.byte :=
  List.pairwise_map.2 (State.pairwise_edges (a.state s))

theorem pairwise_branches (a : Arena) (s : StateId) :
    (a.branches s).Pairwise fun e e' => e.byte < e'.byte :=
  (pairwise_edges a s).sublist (Branch.firstToEach_sublist _)

/-- The strings of the children of the states of `ws`. -/
def below (a : Arena) (foldCase : Bool) (ss : Strings) (ws : List Bytes) : List Bytes :=
  ws.flatMap fun u => (a.branches (ss.id u)).map fun e => u ++ [Byte.canonical foldCase e.byte]

section

variable (h : a.Spells foldCase ss outs)

include h

/-- A state is visited for the least byte that leads to it. -/
theorem foremost_byte (hu : u ∈ ss) (he : e ∈ a.branches (ss.id u)) :
    Byte.foremost foldCase e.byte = e.byte := by
  have hfrom := from_of_mem_branches h hu he
  have hnext : a.next (ss.id u) (Byte.foremost foldCase e.byte) = some e.child := by
    rw [h.next u hu, Byte.canonical_foremost, Strings.id?_of_mem hfrom.child_mem, hfrom.child]
  have hmem := List.mem_map_of_mem (f := fun x => (⟨ss.id u, x.1, x.2⟩ : Branch))
    (State.mem_edges.2 hnext)
  rcases Branch.eq_or_rel_of_mem_firstToEach (pairwise_edges a _) he hmem rfl with heq | hlt
  · exact congrArg Branch.byte heq
  · exact absurd hlt (UInt8.not_lt.2 (Byte.foremost_le foldCase e.byte))

theorem map_child_flatMap_branches (hws : ∀ u ∈ ws, u ∈ ss) :
    ((ws.map ss.id).flatMap a.branches).map (·.child) = (a.below foldCase ss ws).map ss.id := by
  rw [below, List.flatMap_map, List.map_flatMap, List.map_flatMap]
  refine List.flatMap_congr fun u hu => ?_
  rw [List.map_map]
  exact List.map_congr_left fun e he => (from_of_mem_branches h (hws u hu) he).child

theorem mem_below (hws : ∀ u ∈ ws, u ∈ ss ∧ u.length = k) (hw : w ∈ a.below foldCase ss ws) :
    w ∈ ss ∧ w.length = k + 1 := by
  obtain ⟨u, hu, hw⟩ := List.mem_flatMap.1 hw
  obtain ⟨e, he, rfl⟩ := List.mem_map.1 hw
  refine ⟨(from_of_mem_branches h (hws u hu).1 he).child_mem, ?_⟩
  rw [List.length_append, (hws u hu).2]
  rfl

theorem pairwise_below (hws : ∀ u ∈ ws, u ∈ ss ∧ u.length = k)
    (hsorted : ws.Pairwise (VisitedBefore foldCase)) :
    (a.below foldCase ss ws).Pairwise (VisitedBefore foldCase) := by
  refine List.pairwise_flatMap.2 ⟨fun u hu => List.pairwise_map.2 ?_, ?_⟩
  · refine (pairwise_branches a (ss.id u)).imp_of_mem fun {e e'} he he' hlt => ?_
    refine VisitedBefore.append_left ?_ u
    rw [Byte.foremost_canonical, Byte.foremost_canonical, foremost_byte h (hws u hu).1 he,
      foremost_byte h (hws u hu).1 he']
    exact hlt
  · refine hsorted.imp_of_mem fun {u v} hu hv hbefore x hx y hy => ?_
    obtain ⟨e, -, rfl⟩ := List.mem_map.1 hx
    obtain ⟨e', -, rfl⟩ := List.mem_map.1 hy
    exact hbefore.append ((hws u hu).2.trans (hws v hv).2.symm) _ _

/-- The children of the next levels, in the order of their strings. -/
theorem exists_visited_levels (height : Nat) (hws : ∀ u ∈ ws, u ∈ ss ∧ u.length = k)
    (hsorted : ws.Pairwise (VisitedBefore foldCase)) :
    ∃ visited : List Bytes,
      (a.levels height (ws.map ss.id)).map (·.child) = visited.map ss.id ∧
        visited.Pairwise (VisitedBefore foldCase) ∧ ∀ w ∈ visited, k < w.length := by
  induction height generalizing k ws with
  | zero => exact ⟨[], rfl, List.Pairwise.nil, fun w hw => absurd hw List.not_mem_nil⟩
  | succ height ih =>
      have hbelow := fun w => mem_below h (w := w) hws
      have hchildren := map_child_flatMap_branches h fun u hu => (hws u hu).1
      obtain ⟨visited, hmap, hpairwise, hlong⟩ := ih hbelow (pairwise_below h hws hsorted)
      refine ⟨a.below foldCase ss ws ++ visited, ?_, ?_, fun w hw => ?_⟩
      · rw [levels, List.map_append, List.map_append, hchildren, hmap]
      · refine List.pairwise_append.2 ⟨pairwise_below h hws hsorted, hpairwise, fun u hu v hv => ?_⟩
        exact .of_length_lt ((hbelow u hu).2 ▸ hlong v hv)
      · rcases List.mem_append.1 hw with hw | hw
        · exact (hbelow w hw).2 ▸ Nat.lt_succ_self k
        · exact Nat.lt_of_succ_lt (hlong w hw)

end

end Arena

/-- The strings of a prefix tree in the order in which they are visited. -/
theorem Trie.exists_visited (st : Settings) (patterns : List Bytes) :
    ∃ visited : List Bytes,
      (ofPatterns st patterns).branches.map (·.child) =
          visited.map (Strings.ofWords st.kind (patterns.map st.canon)).id ∧
        visited.Pairwise (VisitedBefore st.foldCase) ∧
          ∀ w, w ∈ visited ↔ w ≠ [] ∧ w ∈ Strings.ofWords st.kind (patterns.map st.canon) := by
  have hstart : ∀ u ∈ [([] : Bytes)],
      u ∈ Strings.ofWords st.kind (patterns.map st.canon) ∧ u.length = 0 := by
    intro u hu
    rw [List.mem_singleton.1 hu]
    exact ⟨Strings.nil_mem _, rfl⟩
  obtain ⟨visited, hmap, hpairwise, hlong⟩ := Arena.exists_visited_levels
    (holds_ofPatterns st patterns).spells (ofPatterns st patterns).maxLength hstart
    (List.pairwise_singleton _ _)
  have ht := tree_ofPatterns st patterns
  refine ⟨visited, hmap, hpairwise, fun w => ⟨fun hw => ⟨?_, ?_⟩, fun hw => ?_⟩⟩
  · exact List.length_pos_iff.1 (hlong w hw)
  · have hid := List.mem_map_of_mem (f := (Strings.ofWords st.kind (patterns.map st.canon)).id) hw
    rw [← hmap, List.mem_map] at hid
    obtain ⟨e, he, hid⟩ := hid
    obtain ⟨u, hu, -⟩ := ht.isBreadthFirst.steps e he
    rw [hu.child, Strings.id_inj hu.child_mem] at hid
    exact hid ▸ hu.child_mem
  · obtain ⟨e, he, hid⟩ := ht.isBreadthFirst.exists_child ht.length_le hw.2 hw.1
    have hmem := List.mem_map_of_mem (f := Branch.child) he
    rw [hid] at hmem
    obtain ⟨v, hv, heq⟩ := List.mem_map.1 (hmap ▸ hmem)
    rw [← (Strings.id_inj hw.2).1 heq.symm] at hv
    exact hv

end MultiPattern
