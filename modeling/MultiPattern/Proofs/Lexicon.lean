import Mathlib.Order.Bounds.Defs
import MultiPattern.Proofs.Strings

/-!
# What a search remembers of what it has read

An automaton is made from nothing but the strings of its tree and the patterns
that each of them is: a `Lexicon`. This file says in these terms what the
finished automaton does, without states, links or an order of construction.

A search that has read `w` keeps a suffix of it, `settle w`: the longest one in
the tree, because nothing longer can still become a pattern. Under a leftmost
rule it may keep nothing at all. A string that a pattern occurs in has committed
the search to that pattern or a better one, so before any byte at which a
pattern began may be dropped the search is over. `settle` drops bytes from the
front until what is left is in the tree, and gives up when it would drop the
first byte of a pattern. `fallback` is the same for a string of the tree that
cannot go on, whose first byte has to go: it is where a failure link leads.

The law behind the construction is `settle_concat`. Reading one byte more after
settling is settling after one byte more, so a search may forget what it does
not keep, a link may be found from the link of the parent, and a missing
transition may be replaced by the one of the failure state. `heard w` is what is
reported when `w` has been read; it agrees on `w` and on what is kept of `w`.
-/

namespace MultiPattern

namespace PatternId

/-- Two ascending lists as one. -/
def merge (ps qs : List PatternId) : List PatternId :=
  qs.foldl (fun merged q => q.insertInto merged) ps

variable {ps qs : List PatternId} {p : PatternId}

theorem mem_merge : p ∈ merge ps qs ↔ p ∈ ps ∨ p ∈ qs := by
  induction qs generalizing ps with
  | nil => simp [merge]
  | cons q qs ih =>
      rw [merge, List.foldl_cons, ← merge, ih, mem_insertInto, List.mem_cons,
        or_comm (a := p = q), or_assoc]

theorem pairwise_merge (h : ps.Pairwise (·.index < ·.index)) :
    (merge ps qs).Pairwise (·.index < ·.index) := by
  induction qs generalizing ps with
  | nil => exact h
  | cons q qs ih =>
      rw [merge, List.foldl_cons, ← merge]
      exact ih (pairwise_insertInto h)

theorem merge_nil_left (h : qs.Pairwise (·.index < ·.index)) : merge [] qs = qs :=
  eq_of_mem_iff (pairwise_merge List.Pairwise.nil) h fun p => by simp [mem_merge]

end PatternId

/-- The strings of a prefix tree with the patterns that each of them is, and
the rule that says what to do with them. -/
structure Lexicon where
  kind : MatchKind
  strings : Strings
  outputs : Bytes → List PatternId
  mem_of_outputs : ∀ w, outputs w ≠ [] → w ∈ strings
  ascending : ∀ w, (outputs w).Pairwise (·.index < ·.index)

namespace Lexicon

/-- The lexicon of a list of patterns. -/
def ofWords (kind : MatchKind) (words : List Bytes) : Lexicon where
  kind
  strings := .ofWords kind words
  outputs := registeredAs kind words
  mem_of_outputs w h := by
    obtain ⟨p, hp⟩ := List.exists_mem_of_ne_nil _ h
    exact Strings.mem_ofWords.2 (Or.inr ⟨p, w, mem_registeredAs.1 hp, List.prefix_rfl⟩)
  ascending := pairwise_registeredAs kind words

variable (L : Lexicon)

/-- A search that has just read `w` is committed: a pattern begins with the
first byte of `w` and ends with the last. -/
def Commits (w : Bytes) : Prop :=
  L.kind.isLeftmost = true ∧ w ≠ [] ∧ L.outputs w ≠ []

instance (w : Bytes) : Decidable (L.Commits w) :=
  inferInstanceAs (Decidable (_ ∧ _ ∧ _))

/-- A search that began with `w` has been committed on the way. -/
def Committed (w : Bytes) : Prop :=
  ∃ u ∈ w.inits, L.Commits u

instance (w : Bytes) : Decidable (L.Committed w) :=
  inferInstanceAs (Decidable (∃ u ∈ w.inits, _))

/-- What a search keeps of what it has read, unless it is over. -/
def settle : Bytes → Option Bytes
  | [] => some []
  | b :: w =>
      if b :: w ∈ L.strings then some (b :: w)
      else if L.Committed (b :: w) then none
      else settle w

/-- What a search keeps of a string when it has to drop the first byte, unless
it is over. -/
def fallback : Bytes → Option Bytes
  | [] => some []
  | b :: w => if L.Committed (b :: w) then none else L.settle w

/-- The patterns found at the end of what has been read. Under a leftmost rule
a string of one byte in the tree hides the empty pattern. -/
def heard : Bytes → List PatternId
  | [] => L.outputs []
  | b :: w =>
      if L.Committed (b :: w) then L.outputs (b :: w)
      else if L.kind.isLeftmost = true ∧ w = [] ∧ [b] ∈ L.strings then []
      else PatternId.merge (L.outputs (b :: w)) (heard w)

variable {L} {u v w x : Bytes} {b c : UInt8}

theorem committed_iff : L.Committed w ↔ ∃ u, u <+: w ∧ L.Commits u := by
  simp only [Committed, List.mem_inits]

theorem Commits.mem (h : L.Commits w) : w ∈ L.strings :=
  L.mem_of_outputs w h.2.2

theorem Commits.committed (h : L.Commits w) : L.Committed w :=
  committed_iff.2 ⟨w, List.prefix_rfl, h⟩

theorem not_committed_nil : ¬ L.Committed [] := by
  intro h
  obtain ⟨u, hu, hc⟩ := committed_iff.1 h
  exact hc.2.1 (List.prefix_nil.1 hu)

theorem not_committed_of_not_leftmost (h : L.kind.isLeftmost = false) : ¬ L.Committed w := by
  intro hw
  obtain ⟨u, -, hc⟩ := committed_iff.1 hw
  rw [hc.1] at h
  cases h

theorem committed_concat : L.Committed (w ++ [b]) ↔ L.Committed w ∨ L.Commits (w ++ [b]) := by
  simp only [committed_iff, List.prefix_concat_iff, or_and_right, exists_or, exists_eq_left,
    or_comm]

/-- A byte that leads nowhere commits to nothing. -/
theorem committed_concat_of_notMem (h : w ++ [b] ∉ L.strings) :
    L.Committed (w ++ [b]) ↔ L.Committed w :=
  committed_concat.trans (or_iff_left fun hc => h hc.mem)

/-! ## Settling byte by byte -/

theorem settle_of_mem (h : w ∈ L.strings) : L.settle w = some w := by
  cases w with
  | nil => rfl
  | cons b w => rw [settle, if_pos h]

theorem settle_cons_of_notMem (h : b :: w ∉ L.strings) : L.settle (b :: w) = L.fallback (b :: w) := by
  rw [settle, if_neg h, fallback]

/-- A search may forget what it does not keep. -/
theorem settle_concat (v : Bytes) (b : UInt8) :
    L.settle (v ++ [b]) = (L.settle v).bind fun u => L.settle (u ++ [b]) := by
  induction v with
  | nil => rfl
  | cons c v ih =>
      by_cases hv : c :: v ∈ L.strings
      · rw [settle_of_mem hv, Option.bind_some]
      · have hvb : c :: v ++ [b] ∉ L.strings := fun h => hv (Strings.mem_of_append h)
        have hcom : L.Committed (c :: (v ++ [b])) ↔ L.Committed (c :: v) :=
          committed_concat_of_notMem hvb
        rw [List.cons_append] at hvb ⊢
        rw [settle_cons_of_notMem hv, settle_cons_of_notMem hvb, fallback, fallback]
        simp only [hcom]
        split
        · rfl
        · exact ih

/-- Where no transition leads on, the failure state does instead. -/
theorem settle_concat_of_notMem (hw : w ≠ []) (h : w ++ [b] ∉ L.strings) :
    L.settle (w ++ [b]) = (L.fallback w).bind fun u => L.settle (u ++ [b]) := by
  cases w with
  | nil => exact absurd rfl hw
  | cons c w =>
      have hcom : L.Committed (c :: (w ++ [b])) ↔ L.Committed (c :: w) :=
        committed_concat_of_notMem h
      rw [List.cons_append] at h ⊢
      rw [settle_cons_of_notMem h, fallback, fallback]
      simp only [hcom]
      split
      · rfl
      · exact settle_concat w b

/-- The failure state of a child is found from that of its parent. -/
theorem fallback_concat (hw : w ≠ []) (h : ¬ L.Commits (w ++ [b])) :
    L.fallback (w ++ [b]) = (L.fallback w).bind fun u => L.settle (u ++ [b]) := by
  cases w with
  | nil => exact absurd rfl hw
  | cons c w =>
      have hcom : L.Committed (c :: (w ++ [b])) ↔ L.Committed (c :: w) :=
        committed_concat.trans (or_iff_left h)
      rw [List.cons_append, fallback, fallback]
      simp only [hcom]
      split
      · rfl
      · exact settle_concat w b

theorem settle_eq_some (h : L.settle w = some u) : u <:+ w ∧ u ∈ L.strings := by
  induction w with
  | nil =>
      cases h
      exact ⟨List.suffix_rfl, Strings.nil_mem _⟩
  | cons b w ih =>
      rw [settle] at h
      split at h
      · next hmem =>
          cases h
          exact ⟨List.suffix_rfl, hmem⟩
      · split at h
        · cases h
        · exact ⟨(ih h).1.trans (List.suffix_cons b w), (ih h).2⟩

theorem fallback_eq_some (hw : w ≠ []) (h : L.fallback w = some u) :
    u.length < w.length ∧ u ∈ L.strings := by
  cases w with
  | nil => exact absurd rfl hw
  | cons b w =>
      rw [fallback] at h
      split at h
      · cases h
      · obtain ⟨hsuffix, hmem⟩ := settle_eq_some h
        exact ⟨Nat.lt_succ_of_le hsuffix.length_le, hmem⟩

theorem fallback_mem (h : L.fallback w = some u) : u ∈ L.strings := by
  by_cases hw : w = []
  · subst hw
    cases h
    exact Strings.nil_mem _
  · exact (fallback_eq_some hw h).2

/-- A child falls back to a string no longer than that of its parent. -/
theorem fallback_concat_eq_some (h : L.fallback (w ++ [b]) = some v) :
    v.length ≤ w.length ∧ v ∈ L.strings := by
  obtain ⟨hlt, hmem⟩ := fallback_eq_some (by simp) h
  rw [List.length_append, List.length_singleton] at hlt
  exact ⟨Nat.le_of_lt_succ hlt, hmem⟩

/-- What a parent falls back to, with one byte more, settles on a string no longer
than that of the parent. -/
theorem bind_settle_eq_some (hw : w ≠ [])
    (h : ((L.fallback w).bind fun x => L.settle (x ++ [b])) = some v) :
    v.length ≤ w.length ∧ v ∈ L.strings := by
  obtain ⟨x, hfall, hsettle⟩ := Option.bind_eq_some_iff.1 h
  obtain ⟨hsuffix, hv⟩ := settle_eq_some hsettle
  have hlt := (fallback_eq_some hw hfall).1
  have hle := hsuffix.length_le
  rw [List.length_append, List.length_singleton] at hle
  exact ⟨by omega, hv⟩

/-! ## Settling at once

Seen from the whole string, a search keeps what begins at the first place that
a string of the tree begins at and goes on to the end, and it is over if a
pattern occurs that begins before. -/

theorem exists_isLeast (L : Lexicon) (w : Bytes) : ∃ s, IsLeast {i | w.drop i ∈ L.strings} s := by
  have hex : ∃ i, w.drop i ∈ L.strings := ⟨w.length, by simp⟩
  exact ⟨Nat.find hex, Nat.find_spec hex, fun i hi => Nat.find_min' hex hi⟩

theorem exists_isLeast_tail (L : Lexicon) (hw : w ≠ []) :
    ∃ s, IsLeast {i | 0 < i ∧ w.drop i ∈ L.strings} s := by
  have hex : ∃ i, 0 < i ∧ w.drop i ∈ L.strings := ⟨w.length, List.length_pos_iff.2 hw, by simp⟩
  exact ⟨Nat.find hex, Nat.find_spec hex, fun i hi => Nat.find_min' hex hi⟩

theorem fallback_cons_eq {s : Nat}
    (h : ((∃ i < s, L.Committed (w.drop i)) → L.settle w = none) ∧
      ((∀ i < s, ¬ L.Committed (w.drop i)) → L.settle w = some (w.drop s))) :
    ((∃ i < s + 1, L.Committed ((b :: w).drop i)) → L.fallback (b :: w) = none) ∧
      ((∀ i < s + 1, ¬ L.Committed ((b :: w).drop i)) →
        L.fallback (b :: w) = some ((b :: w).drop (s + 1))) := by
  rw [fallback]
  refine ⟨fun hex => ?_, fun hnone => ?_⟩
  · split
    · rfl
    · next hcom =>
        obtain ⟨i, hi, hc⟩ := hex
        cases i with
        | zero => exact absurd hc hcom
        | succ i => exact h.1 ⟨i, Nat.lt_of_succ_lt_succ hi, hc⟩
  · have hcom : ¬ L.Committed (b :: w) := hnone 0 (Nat.succ_pos s)
    rw [if_neg hcom]
    exact h.2 fun i hi => hnone (i + 1) (Nat.succ_lt_succ hi)

theorem settle_eq_of_isLeast {s : Nat} (hs : IsLeast {i | w.drop i ∈ L.strings} s) :
    ((∃ i < s, L.Committed (w.drop i)) → L.settle w = none) ∧
      ((∀ i < s, ¬ L.Committed (w.drop i)) → L.settle w = some (w.drop s)) := by
  induction w generalizing s with
  | nil =>
      obtain rfl : s = 0 := Nat.le_zero.1 (hs.2 (Strings.nil_mem _))
      exact ⟨fun ⟨i, hi, _⟩ => absurd hi (Nat.not_lt_zero i), fun _ => rfl⟩
  | cons b w ih =>
      by_cases hmem : b :: w ∈ L.strings
      · obtain rfl : s = 0 := Nat.le_zero.1 (hs.2 hmem)
        exact ⟨fun ⟨i, hi, _⟩ => absurd hi (Nat.not_lt_zero i), fun _ => settle_of_mem hmem⟩
      · cases s with
        | zero => exact absurd hs.1 hmem
        | succ s =>
            have hleast : IsLeast {i | w.drop i ∈ L.strings} s :=
              ⟨hs.1, fun i hi => Nat.le_of_succ_le_succ (hs.2 (show i + 1 ∈ _ from hi))⟩
            rw [settle_cons_of_notMem hmem]
            exact fallback_cons_eq (ih hleast)

/-- The same behind the first byte. -/
theorem fallback_eq_of_isLeast {s : Nat} (hw : w ≠ [])
    (hs : IsLeast {i | 0 < i ∧ w.drop i ∈ L.strings} s) :
    ((∃ i < s, L.Committed (w.drop i)) → L.fallback w = none) ∧
      ((∀ i < s, ¬ L.Committed (w.drop i)) → L.fallback w = some (w.drop s)) := by
  cases w with
  | nil => exact absurd rfl hw
  | cons b w =>
      cases s with
      | zero => exact absurd hs.1.1 (Nat.lt_irrefl 0)
      | succ s =>
          have hleast : IsLeast {i | w.drop i ∈ L.strings} s :=
            ⟨hs.1.2, fun i hi => Nat.le_of_succ_le_succ (hs.2 ⟨Nat.succ_pos i, hi⟩)⟩
          exact fallback_cons_eq (settle_eq_of_isLeast hleast)

/-! ## What is reported -/

theorem outputs_eq_nil_of_notMem (h : w ∉ L.strings) : L.outputs w = [] :=
  Classical.byContradiction fun hne => h (L.mem_of_outputs w hne)

theorem outputs_eq_nil_of_not_commits (hk : L.kind.isLeftmost = true) (hw : w ≠ [])
    (h : ¬ L.Commits w) : L.outputs w = [] :=
  Classical.byContradiction fun hne => h ⟨hk, hw, hne⟩

theorem pairwise_heard (L : Lexicon) (w : Bytes) : (L.heard w).Pairwise (·.index < ·.index) := by
  cases w with
  | nil => exact L.ascending []
  | cons b w =>
      rw [heard]
      split
      · exact L.ascending _
      · split
        · exact List.Pairwise.nil
        · exact PatternId.pairwise_merge (L.ascending _)

/-- A string that is no pattern adds nothing to what its longest proper suffix
has to report. -/
theorem heard_cons (hout : L.outputs (b :: w) = []) (hw : w ≠ [] ∨ [b] ∉ L.strings) :
    L.heard (b :: w) = if L.Committed (b :: w) then [] else L.heard w := by
  have hnot : ¬ (L.kind.isLeftmost = true ∧ w = [] ∧ [b] ∈ L.strings) :=
    fun h => hw.elim (fun hne => hne h.2.1) fun hb => hb h.2.2
  rw [heard, hout, if_neg hnot, PatternId.merge_nil_left (pairwise_heard L w)]

theorem heard_cons_of_notMem (h : b :: w ∉ L.strings) :
    L.heard (b :: w) = if L.Committed (b :: w) then [] else L.heard w := by
  refine heard_cons (outputs_eq_nil_of_notMem h) ?_
  by_cases hw : w = []
  · subst hw
    exact Or.inr h
  · exact Or.inl hw

theorem heard_of_settle_eq_none (h : L.settle w = none) : L.heard w = [] := by
  induction w with
  | nil => cases h
  | cons b w ih =>
      by_cases hmem : b :: w ∈ L.strings
      · rw [settle_of_mem hmem] at h
        cases h
      · rw [settle_cons_of_notMem hmem, fallback] at h
        rw [heard_cons_of_notMem hmem]
        split
        · rfl
        · next hcom =>
            rw [if_neg hcom] at h
            exact ih h

theorem heard_of_settle_eq_some (h : L.settle w = some u) : L.heard w = L.heard u := by
  induction w with
  | nil =>
      cases h
      rfl
  | cons b w ih =>
      by_cases hmem : b :: w ∈ L.strings
      · rw [settle_of_mem hmem] at h
        cases h
        rfl
      · rw [settle_cons_of_notMem hmem, fallback] at h
        split at h
        · cases h
        · next hcom =>
            rw [heard_cons_of_notMem hmem, if_neg hcom]
            exact ih h

/-- A state below others takes over what its failure state reports. -/
theorem heard_eq_merge_fallback (hw : w ≠ []) :
    L.heard (b :: w) =
      PatternId.merge (L.outputs (b :: w)) ((L.fallback (b :: w)).elim [] L.heard) := by
  rw [heard, fallback]
  split
  · rfl
  · rw [if_neg fun h => hw h.2.1]
    cases hsettle : L.settle w with
    | none => rw [heard_of_settle_eq_none hsettle, Option.elim_none]
    | some u => rw [heard_of_settle_eq_some hsettle, Option.elim_some]

/-- Under the standard rule every pattern that is a suffix is reported. -/
theorem mem_heard_of_standard {p : PatternId} (hk : L.kind.isLeftmost = false) :
    p ∈ L.heard w ↔ ∃ u, u <:+ w ∧ p ∈ L.outputs u := by
  induction w with
  | nil => simp [heard]
  | cons b w ih =>
      rw [heard, if_neg (not_committed_of_not_leftmost hk), if_neg (by simp [hk]),
        PatternId.mem_merge, ih]
      simp only [List.suffix_cons_iff, or_and_right, exists_or, exists_eq_left]

/-- Under the standard rule the empty pattern is reported wherever a search goes
on. -/
theorem mem_heard_fallback {p : PatternId} (hk : L.kind.isLeftmost = false)
    (hp : p ∈ L.outputs []) : p ∈ (L.fallback w).elim [] L.heard := by
  cases w with
  | nil => exact hp
  | cons b w =>
      have hheard : p ∈ L.heard w := (mem_heard_of_standard hk).2 ⟨[], List.nil_suffix, hp⟩
      rw [fallback, if_neg (not_committed_of_not_leftmost hk)]
      cases hsettle : L.settle w with
      | none =>
          rw [heard_of_settle_eq_none hsettle] at hheard
          exact hheard
      | some u =>
          rw [heard_of_settle_eq_some hsettle] at hheard
          exact hheard

/-- Under a leftmost rule the longest suffix that is a pattern is reported,
unless the search was committed to something that began before it. -/
theorem heard_of_isLeast {s : Nat} (hk : L.kind.isLeftmost = true)
    (hs : IsLeast {i | L.Commits (w.drop i)} s) :
    ((∃ i < s, L.Committed (w.drop i)) → L.heard w = []) ∧
      ((∀ i < s, ¬ L.Committed (w.drop i)) → L.heard w = L.outputs (w.drop s)) := by
  induction w generalizing s with
  | nil => exact absurd List.drop_nil hs.1.2.1
  | cons b w ih =>
      by_cases hc : L.Commits (b :: w)
      · obtain rfl : s = 0 := Nat.le_zero.1 (hs.2 hc)
        refine ⟨fun ⟨i, hi, _⟩ => absurd hi (Nat.not_lt_zero i), fun _ => ?_⟩
        rw [heard, if_pos hc.committed, List.drop_zero]
      · cases s with
        | zero => exact absurd hs.1 hc
        | succ s =>
            have hleast : IsLeast {i | L.Commits (w.drop i)} s :=
              ⟨hs.1, fun i hi => Nat.le_of_succ_le_succ (hs.2 (show i + 1 ∈ _ from hi))⟩
            have hw : w ≠ [] := by
              intro hnil
              subst hnil
              exact absurd List.drop_nil hleast.1.2.1
            rw [heard_cons (outputs_eq_nil_of_not_commits hk (List.cons_ne_nil b w) hc)
              (Or.inl hw)]
            refine ⟨fun h => ?_, fun h => ?_⟩
            · split
              · rfl
              · next hcom =>
                  obtain ⟨i, hi, hi'⟩ := h
                  cases i with
                  | zero => exact absurd hi' hcom
                  | succ i => exact (ih hleast).1 ⟨i, Nat.lt_of_succ_lt_succ hi, hi'⟩
            · have hcom : ¬ L.Committed (b :: w) := h 0 (Nat.succ_pos s)
              rw [if_neg hcom]
              exact (ih hleast).2 fun i hi => h (i + 1) (Nat.succ_lt_succ hi)

/-- Where no suffix is a pattern the empty one is reported, unless the search
is committed or the last byte is a string of the tree. -/
theorem heard_of_not_commits (hk : L.kind.isLeftmost = true)
    (h : ∀ i, ¬ L.Commits ((w ++ [b]).drop i)) :
    ((∃ i, L.Committed ((w ++ [b]).drop i)) ∨ [b] ∈ L.strings → L.heard (w ++ [b]) = []) ∧
      ((∀ i, ¬ L.Committed ((w ++ [b]).drop i)) → [b] ∉ L.strings →
        L.heard (w ++ [b]) = L.outputs []) := by
  -- Only the string of the last byte alone can hide the empty pattern; a longer
  -- one hands on what its tail has to say, or is committed.
  induction w with
  | nil =>
      have hout : L.outputs [b] = [] :=
        outputs_eq_nil_of_not_commits hk (List.cons_ne_nil b []) (h 0)
      have hcom : ¬ L.Committed [b] := fun hcom =>
        (committed_concat.1 hcom).elim not_committed_nil (h 0)
      rw [List.nil_append]
      refine ⟨fun hor => ?_, fun _ hb => ?_⟩
      · have hb : [b] ∈ L.strings := by
          refine hor.resolve_left fun hex => ?_
          obtain ⟨i, hi⟩ := hex
          cases i with
          | zero => exact hcom hi
          | succ i =>
              rw [List.drop_succ_cons, List.drop_nil] at hi
              exact not_committed_nil hi
        rw [heard, if_neg hcom, if_pos ⟨hk, rfl, hb⟩]
      · rw [heard_cons hout (Or.inr hb), if_neg hcom, heard]
  | cons c w ih =>
      have hout := outputs_eq_nil_of_not_commits hk (List.cons_ne_nil c (w ++ [b])) (h 0)
      have hrest := ih fun i => h (i + 1)
      rw [List.cons_append, heard_cons hout (Or.inl (by simp))]
      refine ⟨fun hor => ?_, fun hnone hb => ?_⟩
      · split
        · rfl
        · next hcom =>
            refine hrest.1 (hor.imp_left fun hex => ?_)
            obtain ⟨i, hi⟩ := hex
            cases i with
            | zero => exact absurd hi hcom
            | succ i => exact ⟨i, hi⟩
      · have hcom : ¬ L.Committed (c :: (w ++ [b])) := hnone 0
        rw [if_neg hcom]
        exact hrest.2 (fun i => hnone (i + 1)) hb

end Lexicon

end MultiPattern
