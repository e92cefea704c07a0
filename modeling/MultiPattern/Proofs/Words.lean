import Mathlib.Data.List.Infix
import Mathlib.Data.List.Nodup
import Mathlib.Data.Nat.Find
import MultiPattern.Byte
import MultiPattern.PatternId
import MultiPattern.Settings

/-!
# Patterns as they are compared

A search tells two bytes apart only as far as its settings do, so what it does
is said of *words*: the patterns, and the text, with every byte replaced by its
representative. `Settings.canon` makes the words and everything after it is
about lists of words alone.

Not every pattern takes part. Under a leftmost rule a pattern is given up when
an earlier one is a proper prefix of it, whether or not that one was given up
itself. `Registered` is this law; it asks about all earlier patterns, where the
insertion into the tree only ever meets the registered ones, and
`givenUp_iff_registered` is why the two come to the same: the first pattern
that is a proper prefix of a word has no such prefix before it.

The rest of the file says what one more pattern at the end of the list changes,
which is all that an induction over the list needs.
-/

namespace MultiPattern

/-- A byte string with every byte replaced by its representative. -/
def Settings.canon (st : Settings) (w : Bytes) : Bytes :=
  w.map (Byte.canonical st.foldCase)

/-- Under a leftmost rule `w` is given up after the patterns `words`: one of
them is a proper prefix of it. -/
def GivenUp (kind : MatchKind) (words : List Bytes) (w : Bytes) : Prop :=
  kind.isLeftmost = true ∧ ∃ u ∈ words, u <+: w ∧ u ≠ w

instance (kind : MatchKind) (words : List Bytes) (w : Bytes) :
    Decidable (GivenUp kind words w) :=
  inferInstanceAs (Decidable (_ ∧ _))

/-- Pattern `p` is the word `w`, and it is not given up after those before. -/
def Registered (kind : MatchKind) (words : List Bytes) (p : PatternId) (w : Bytes) : Prop :=
  words[p.index]? = some w ∧ ¬ GivenUp kind (words.take p.index) w

instance (kind : MatchKind) (words : List Bytes) (p : PatternId) (w : Bytes) :
    Decidable (Registered kind words p w) :=
  inferInstanceAs (Decidable (_ ∧ _))

/-- A registered pattern begins with `w`, or `w` is empty. -/
def InTree (kind : MatchKind) (words : List Bytes) (w : Bytes) : Prop :=
  w = [] ∨ ∃ p u, Registered kind words p u ∧ w <+: u

/-- A registered pattern that is not empty occurs in `text` and begins before
`start`. -/
def OccursBefore (kind : MatchKind) (words : List Bytes) (text : Bytes) (start : Nat) : Prop :=
  ∃ i < start, ∃ p u, Registered kind words p u ∧ u ≠ [] ∧ u <+: text.drop i

/-- The names of `n` patterns. -/
def PatternId.upTo (n : Nat) : List PatternId :=
  (List.range n).map PatternId.mk

/-- The registered patterns that are the word `w`, in order. -/
def registeredAs (kind : MatchKind) (words : List Bytes) (w : Bytes) : List PatternId :=
  (PatternId.upTo words.length).filter fun p => Registered kind words p w

/-- The words of the registered patterns, in order. -/
def kept (kind : MatchKind) (words : List Bytes) : List Bytes :=
  (words.zipIdx.filter fun e => Registered kind words ⟨e.2⟩ e.1).map (·.1)

/-- Erasing repetitions keeps the first of equal members, so one more at the end
is kept if it is new. -/
theorem eraseDups_concat {α : Type} [BEq α] [LawfulBEq α] (xs : List α) (x : α) :
    (xs ++ [x]).eraseDups = if x ∈ xs then xs.eraseDups else xs.eraseDups ++ [x] := by
  rw [List.eraseDups_append]
  split
  · next hx => simp [List.removeAll, hx]
  · next hx =>
      have hnew : [x].removeAll xs = [x] := by simp [List.removeAll, hx]
      rw [hnew]
      rfl

namespace Settings

variable (st : Settings) (v w : Bytes)

@[simp] theorem canon_nil : st.canon [] = [] := rfl

@[simp] theorem length_canon : (st.canon w).length = w.length :=
  List.length_map _

@[simp] theorem canon_eq_nil_iff : st.canon w = [] ↔ w = [] :=
  List.map_eq_nil_iff

theorem canon_take (n : Nat) : st.canon (w.take n) = (st.canon w).take n :=
  List.map_take

theorem canon_drop (n : Nat) : st.canon (w.drop n) = (st.canon w).drop n :=
  List.map_drop

theorem canon_concat (b : UInt8) :
    st.canon (w ++ [b]) = st.canon w ++ [Byte.canonical st.foldCase b] :=
  List.map_append

end Settings

namespace PatternId

theorem mem_upTo {n : Nat} {p : PatternId} : p ∈ upTo n ↔ p.index < n := by
  rw [upTo, List.mem_map]
  refine ⟨?_, ?_⟩
  · intro h
    obtain ⟨i, hi, rfl⟩ := h
    exact List.mem_range.1 hi
  · intro h
    exact ⟨p.index, List.mem_range.2 h, rfl⟩

theorem pairwise_upTo (n : Nat) : (upTo n).Pairwise (·.index < ·.index) :=
  List.pairwise_map.2 List.pairwise_lt_range

theorem nodup_of_pairwise {ps : List PatternId} (h : ps.Pairwise (·.index < ·.index)) :
    ps.Nodup :=
  h.imp fun hlt heq => absurd hlt (by rw [heq]; exact Nat.lt_irrefl _)

/-- Ascending lists with the same members are the same. -/
theorem eq_of_mem_iff {ps qs : List PatternId} (hp : ps.Pairwise (·.index < ·.index))
    (hq : qs.Pairwise (·.index < ·.index)) (h : ∀ p, p ∈ ps ↔ p ∈ qs) : ps = qs := by
  have hperm : ps.Perm qs :=
    (List.perm_ext_iff_of_nodup (nodup_of_pairwise hp) (nodup_of_pairwise hq)).2 h
  refine List.Perm.eq_of_pairwise (fun p q _ _ hpq hqp => ?_) hp hq hperm
  exact absurd hpq (Nat.lt_asymm hqp)

end PatternId

variable {kind : MatchKind} {words : List Bytes} {p : PatternId} {v w : Bytes}

theorem Registered.lt_length (h : Registered kind words p w) : p.index < words.length :=
  (List.getElem?_eq_some_iff.1 h.1).1

/-- Only registered patterns need to be asked. Of the patterns that are a
proper prefix of `w` the first is registered: what would have it given up is a
proper prefix of `w` too, and comes before it. -/
theorem givenUp_iff_registered :
    GivenUp kind words w ↔
      kind.isLeftmost = true ∧ ∃ p u, Registered kind words p u ∧ u <+: w ∧ u ≠ w := by
  refine and_congr_right fun _ => ⟨?_, ?_⟩
  · intro hgiven
    obtain ⟨u, hu, hprefix, hne⟩ := hgiven
    have hex : ∃ i : Nat, ∃ u, words[i]? = some u ∧ u <+: w ∧ u ≠ w := by
      obtain ⟨i, hi⟩ := List.getElem?_of_mem hu
      exact ⟨i, u, hi, hprefix, hne⟩
    classical
    obtain ⟨u, hu, hprefix, hne⟩ := Nat.find_spec hex
    refine ⟨⟨Nat.find hex⟩, u, ⟨hu, ?_⟩, hprefix, hne⟩
    -- A proper prefix of the first one would come before it.
    intro hgiven
    obtain ⟨-, v, hv, hvu, hvne⟩ := hgiven
    obtain ⟨j, hj⟩ := List.getElem?_of_mem hv
    rw [List.getElem?_take] at hj
    split at hj
    · next hlt =>
        refine Nat.find_min hex hlt ⟨v, hj, hvu.trans hprefix, ?_⟩
        intro heq
        subst heq
        exact hvne (hvu.eq_of_length_le hprefix.length_le)
    · cases hj
  · intro h
    obtain ⟨p, u, hp, hprefix, hne⟩ := h
    exact ⟨u, List.mem_of_getElem? hp.1, hprefix, hne⟩

/-! ## One more pattern

A pattern at the end of the list leaves those before it as they were. -/

theorem registered_concat :
    Registered kind (words ++ [v]) p w ↔
      Registered kind words p w ∨
        (p.index = words.length ∧ w = v ∧ ¬ GivenUp kind words v) := by
  rcases Nat.lt_trichotomy p.index words.length with hlt | heq | hgt
  · rw [Registered, List.getElem?_append_left hlt, List.take_append_of_le_length (Nat.le_of_lt hlt)]
    refine ⟨Or.inl, ?_⟩
    intro h
    rcases h with h | ⟨h, -⟩
    · exact h
    · omega
  · have hnot : ¬ Registered kind words p w := fun h => absurd h.lt_length (by omega)
    rw [Registered, heq, List.getElem?_concat_length, List.take_left, Option.some_inj]
    refine ⟨?_, ?_⟩
    · intro h
      exact Or.inr ⟨rfl, h.1.symm, h.1 ▸ h.2⟩
    · intro h
      rcases h with h | ⟨-, rfl, h⟩
      · exact absurd h hnot
      · exact ⟨rfl, h⟩
  · have hlong : (words ++ [v]).length ≤ p.index := by
      rw [List.length_append, List.length_singleton]
      omega
    refine ⟨?_, ?_⟩
    · intro h
      exact absurd h.lt_length (by omega)
    · intro h
      rcases h with h | ⟨h, -⟩
      · exact absurd h.lt_length (by omega)
      · omega

theorem mem_registeredAs : p ∈ registeredAs kind words w ↔ Registered kind words p w := by
  rw [registeredAs, List.mem_filter, decide_eq_true_iff, PatternId.mem_upTo]
  exact ⟨And.right, fun h => ⟨h.lt_length, h⟩⟩

theorem pairwise_registeredAs (kind : MatchKind) (words : List Bytes) (w : Bytes) :
    (registeredAs kind words w).Pairwise (·.index < ·.index) :=
  (PatternId.pairwise_upTo _).filter _

theorem registeredAs_concat :
    registeredAs kind (words ++ [v]) w =
      if w = v ∧ ¬ GivenUp kind words v then
        PatternId.insertInto ⟨words.length⟩ (registeredAs kind words w)
      else registeredAs kind words w := by
  refine PatternId.eq_of_mem_iff (pairwise_registeredAs ..) ?_ fun p => ?_
  · split
    · exact PatternId.pairwise_insertInto (pairwise_registeredAs ..)
    · exact pairwise_registeredAs ..
  · rw [mem_registeredAs, registered_concat]
    split
    · next h => simp [PatternId.mem_insertInto, mem_registeredAs, PatternId.ext_iff, h, or_comm]
    · next h =>
        rw [mem_registeredAs, or_iff_left]
        intro hnew
        exact h hnew.2

theorem mem_kept : w ∈ kept kind words ↔ ∃ p, Registered kind words p w := by
  rw [kept, List.mem_map]
  refine ⟨?_, ?_⟩
  · intro h
    obtain ⟨⟨u, i⟩, he, rfl⟩ := h
    exact ⟨⟨i⟩, by simpa using (List.mem_filter.1 he).2⟩
  · intro h
    obtain ⟨p, h⟩ := h
    refine ⟨(w, p.index), List.mem_filter.2 ⟨?_, by simpa using h⟩, rfl⟩
    exact List.mem_zipIdx_iff_getElem?.2 h.1

theorem kept_concat :
    kept kind (words ++ [v]) =
      kept kind words ++ if GivenUp kind words v then [] else [v] := by
  have hold : ∀ e ∈ words.zipIdx,
      decide (Registered kind (words ++ [v]) ⟨e.2⟩ e.1) = decide (Registered kind words ⟨e.2⟩ e.1) := by
    intro e he
    have hlt : e.2 < words.length :=
      (List.getElem?_eq_some_iff.1 (List.mem_zipIdx_iff_getElem?.1 he)).1
    simp only [registered_concat, decide_eq_decide]
    exact or_iff_left fun h => by omega
  have hnew : Registered kind (words ++ [v]) ⟨words.length⟩ v ↔ ¬ GivenUp kind words v := by
    rw [registered_concat]
    exact ⟨fun h => h.elim (fun h => absurd h.lt_length (Nat.lt_irrefl _)) (·.2.2),
      fun h => Or.inr ⟨rfl, rfl, h⟩⟩
  rw [kept, List.zipIdx_append, List.filter_append, List.map_append, List.filter_congr hold, ← kept]
  by_cases h : GivenUp kind words v
  · simp [hnew, h]
  · simp [hnew, h]

end MultiPattern
