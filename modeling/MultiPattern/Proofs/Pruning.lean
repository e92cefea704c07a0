import Mathlib.Order.MinMax
import MultiPattern.Proofs.Insertion

/-!
# Patterns that are given up

Insertion gives a pattern up in the middle of its walk, at the first state that
reports something, and notes the depth of that state. The law that says which
patterns are given up asks about all earlier patterns, where the walk only meets
those that were kept; but the first report it meets is of the shortest of all
that are a proper prefix, since every pattern begins with one that is kept.

Of a pattern that is given up nothing else is left, so besides its arena a list of
patterns comes to these two: the alphabet is that of the patterns that are kept,
one behind the other, and the patterns noted are those that an earlier one is a
proper prefix of, each with the length of the shortest such.
-/

namespace MultiPattern

/-- A pattern that is given up. -/
structure Pruning where
  pattern : PatternId
  /-- The depth of the state that already reported a pattern. -/
  depth : Nat
deriving DecidableEq

/-- What is noted of it. -/
def Pruning.event (e : Pruning) : Event :=
  .pruned e.pattern e.depth

/-- The pattern of which it is noted that it was given up. -/
def Event.prunedPattern? : Event → Option PatternId
  | .pruned p _ => some p
  | .cut _ => none
  | .compiled _ => none

/-- The patterns that were given up, going by what was noted. -/
def Trie.pruned (t : Trie) : List PatternId :=
  t.events.filterMap Event.prunedPattern?

/-- Under a leftmost rule, the length of the shortest of the patterns `words`
that is a proper prefix of `w`. -/
def givenUpAt? (kind : MatchKind) (words : List Bytes) (w : Bytes) : Option Nat :=
  if kind.isLeftmost then
    ((words.filter fun u => u <+: w ∧ u ≠ w).map List.length).min?
  else none

/-- The patterns that are given up, in order. -/
def prunings (kind : MatchKind) (words : List Bytes) : List Pruning :=
  words.zipIdx.filterMap fun e =>
    (givenUpAt? kind (words.take e.2) e.1).map (Pruning.mk ⟨e.2⟩)

variable {kind : MatchKind} {words : List Bytes} {w v : Bytes} {p : PatternId}

theorem givenUpAt?_eq_none_iff : givenUpAt? kind words w = none ↔ ¬ GivenUp kind words w := by
  rw [givenUpAt?, GivenUp]
  split
  · next hk => simp [hk, List.filter_eq_nil_iff]
  · next hk => simp [hk]

theorem prunings_concat :
    prunings kind (words ++ [v]) =
      prunings kind words ++ ((givenUpAt? kind words v).map (Pruning.mk ⟨words.length⟩)).toList := by
  have hold : ∀ e ∈ words.zipIdx,
      (givenUpAt? kind ((words ++ [v]).take e.2) e.1).map (Pruning.mk ⟨e.2⟩) =
        (givenUpAt? kind (words.take e.2) e.1).map (Pruning.mk ⟨e.2⟩) := by
    intro e he
    have hlt : e.2 < words.length :=
      (List.getElem?_eq_some_iff.1 (List.mem_zipIdx_iff_getElem?.1 he)).1
    rw [List.take_append_of_le_length (Nat.le_of_lt hlt)]
  rw [prunings, List.zipIdx_append, List.filterMap_append, List.filterMap_congr hold, ← prunings]
  congr 1
  simp only [List.zipIdx_singleton, List.filterMap_cons, List.filterMap_nil, Nat.zero_add,
    List.take_left]
  cases givenUpAt? kind words v with
  | none => rfl
  | some n => rfl

theorem mem_map_prunings :
    p ∈ (prunings kind words).map (·.pattern) ↔
      ∃ w, words[p.index]? = some w ∧ GivenUp kind (words.take p.index) w := by
  simp only [prunings, List.mem_map, List.mem_filterMap, Option.map_eq_some_iff]
  refine ⟨fun h => ?_, fun h => ?_⟩
  · obtain ⟨_, ⟨⟨w, i⟩, he, n, hn, rfl⟩, rfl⟩ := h
    refine ⟨w, List.mem_zipIdx_iff_getElem?.1 he, Classical.byContradiction fun hnot => ?_⟩
    rw [givenUpAt?_eq_none_iff.2 hnot] at hn
    cases hn
  · obtain ⟨w, hw, hup⟩ := h
    obtain ⟨n, hn⟩ : ∃ n, givenUpAt? kind (words.take p.index) w = some n :=
      Option.ne_none_iff_exists'.1 fun hnone => givenUpAt?_eq_none_iff.1 hnone hup
    exact ⟨_, ⟨(w, p.index), List.mem_zipIdx_iff_getElem?.2 hw, n, hn, rfl⟩, rfl⟩

/-- Every pattern begins with one that is registered. -/
theorem exists_registered_prefix (kind : MatchKind) (hw : w ∈ words) :
    ∃ p u, Registered kind words p u ∧ u <+: w := by
  by_cases hup : GivenUp kind words w
  · obtain ⟨-, p, u, hu, hbegins, -⟩ := givenUp_iff_registered.1 hup
    exact ⟨p, u, hu, hbegins⟩
  · obtain ⟨i, hi⟩ := List.getElem?_of_mem hw
    refine ⟨⟨i⟩, w, ⟨hi, fun hgiven => hup ?_⟩, List.prefix_rfl⟩
    exact ⟨hgiven.1, hgiven.2.imp fun u hu => ⟨List.mem_of_mem_take hu.1, hu.2⟩⟩

namespace Trie

/-- On a walk from the start state the first report is of the shortest pattern
that is a proper prefix. -/
theorem Meets.givenUpAt?_eq {u : Bytes} (hk : kind.isLeftmost = true)
    (h : Meets (registeredAs kind words) [] w u) : givenUpAt? kind words w = some u.length := by
  have honWay := h.onWay
  have hne := h.ne
  rw [List.nil_append] at honWay hne
  obtain ⟨p, hp⟩ := List.exists_mem_of_ne_nil _ h.reports
  have hu : u ∈ words := List.mem_of_getElem? (mem_registeredAs.1 hp).1
  rw [givenUpAt?, if_pos hk, List.min?_eq_some_iff]
  refine ⟨List.mem_map_of_mem (List.mem_filter.2 ⟨hu, by simpa using ⟨honWay, hne⟩⟩), ?_⟩
  intro n hn
  obtain ⟨v, hv, rfl⟩ := List.mem_map.1 hn
  obtain ⟨hv, hprop⟩ := List.mem_filter.1 hv
  obtain ⟨hvw, -⟩ : v <+: w ∧ v ≠ w := by simpa using hprop
  obtain ⟨q, x, hx, hxv⟩ := exists_registered_prefix kind hv
  refine Nat.le_of_not_lt fun hlt => ?_
  have hxu : x <+: u :=
    List.prefix_of_prefix_length_le (hxv.trans hvw) honWay (by have := hxv.length_le; omega)
  have heq := h.first x List.nil_prefix hxu (List.ne_nil_of_mem (mem_registeredAs.2 hx))
  have := hxv.length_le
  rw [heq] at this
  omega

/-! ## The tree of a list of patterns -/

variable (st : Settings) (patterns : List Bytes)

/-- The alphabet is that of the patterns that are kept. -/
theorem alphabet_ofPatterns :
    (ofPatterns st patterns).alphabet =
      .ofBytes st.foldCase (kept st.kind (patterns.map st.canon)).flatten := by
  induction patterns using List.reverseRecOn with
  | nil => rfl
  | append_singleton patterns pattern ih =>
      have hholds := holds_ofPatterns st patterns
      have hlength := length_lengths_ofPatterns st patterns
      rw [ofPatterns_concat, List.map_append, List.map_singleton, kept_concat]
      split
      · next hup =>
          obtain ⟨u, -, heq⟩ := hholds.insert_of_givenUp hlength hup
          rw [heq, List.append_nil]
          exact ih
      · next hup =>
          have hcanonical : st.canon pattern =
              pattern.map (ofPatterns st patterns).alphabet.canonical := by
            rw [Settings.canon, ← hholds.foldCase]
            rfl
          rw [(hholds.insert_of_not_givenUp hlength hup).2.1, List.flatten_append,
            List.flatten_singleton, Alphabet.ofBytes_append, ← ih, hcanonical,
            Alphabet.addAll_map_canonical]

/-- What is noted, and counted, is what the law gives up. -/
theorem events_ofPatterns :
    (ofPatterns st patterns).events =
        (prunings st.kind (patterns.map st.canon)).map Pruning.event ∧
      (ofPatterns st patterns).prunedCount =
        (prunings st.kind (patterns.map st.canon)).length := by
  induction patterns using List.reverseRecOn with
  | nil => exact ⟨rfl, rfl⟩
  | append_singleton patterns pattern ih =>
      have hholds := holds_ofPatterns st patterns
      have hlength := length_lengths_ofPatterns st patterns
      rw [ofPatterns_concat, List.map_append, List.map_singleton, prunings_concat,
        List.map_append, List.length_append, ← ih.1, ← ih.2]
      by_cases hup : GivenUp st.kind (patterns.map st.canon) (st.canon pattern)
      · obtain ⟨u, hu, heq⟩ := hholds.insert_of_givenUp hlength hup
        rw [heq, hu.givenUpAt?_eq hup.1]
        exact ⟨rfl, rfl⟩
      · obtain ⟨-, -, hevents, hcount⟩ := hholds.insert_of_not_givenUp hlength hup
        rw [hevents, hcount, givenUpAt?_eq_none_iff.2 hup]
        exact ⟨(List.append_nil _).symm, rfl⟩

theorem pruned_ofPatterns :
    (ofPatterns st patterns).pruned =
      (prunings st.kind (patterns.map st.canon)).map (·.pattern) := by
  rw [pruned, (events_ofPatterns st patterns).1, List.filterMap_map]
  exact congrFun List.filterMap_eq_map _

end Trie

end MultiPattern
