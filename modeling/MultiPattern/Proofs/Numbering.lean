import Mathlib.Data.List.Nodup
import MultiPattern.Alphabet

/-!
# The numbering of an alphabet

An alphabet keeps its numbering twice, as a list of bytes and as a table of code
points, and every byte that is added is written into both. `Alphabet.Sound` says
that they agree: the list has representatives only, none twice, and the code
point of a byte is the place of its representative in the list, counted from 1.
There are 256 bytes, so no place is too large for a code point, and 0 is the code
point of the bytes outside.

What adding does to the list is all there is to say then. A byte whose
representative is listed changes nothing, any other puts its representative at
the end. Neither depends on the case in which a byte was given.
-/

namespace MultiPattern

namespace Byte

theorem canonical_eq_canonical_iff {foldCase : Bool} {b c : UInt8} :
    canonical foldCase b = canonical foldCase c ↔
      b = c ∨ (foldCase = true ∧ swapCase b = c) := by
  cases foldCase
  · simp [canonical]
  · simpa [canonical] using lower_eq_lower_iff

theorem length_le_of_nodup {bs : Bytes} (h : bs.Nodup) : bs.length ≤ 256 := by
  have hle := h.length_le_of_subset fun b _ => mem_all b
  rwa [all, List.length_map, List.length_range] at hle

end Byte

namespace Alphabet

/-- The representative of a byte in this alphabet. -/
def canonical (a : Alphabet) (b : UInt8) : UInt8 :=
  Byte.canonical a.foldCase b

/-- The table of code points and the list of bytes are one numbering. -/
structure Sound (a : Alphabet) : Prop where
  nodup : a.bytes.Nodup
  canonical : ∀ b ∈ a.bytes, a.canonical b = b
  codePoint : ∀ b, a.codePoint b =
    if a.canonical b ∈ a.bytes then (a.bytes.idxOf (a.canonical b) + 1).toUInt16 else 0

variable {a : Alphabet} {b c : UInt8} {bs : Bytes}

theorem canonical_canonical (a : Alphabet) (b : UInt8) :
    a.canonical (a.canonical b) = a.canonical b :=
  Byte.canonical_canonical a.foldCase b

theorem foldCase_add (a : Alphabet) (b : UInt8) : (a.add b).foldCase = a.foldCase := by
  rw [add, assign]
  dsimp only
  split <;> rfl

theorem canonical_add (a : Alphabet) (b : UInt8) : (a.add b).canonical = a.canonical := by
  funext c
  rw [canonical, canonical, foldCase_add]

theorem addAll_cons (a : Alphabet) (b : UInt8) (bs : Bytes) :
    a.addAll (b :: bs) = (a.add b).addAll bs :=
  rfl

theorem add_canonical (a : Alphabet) (b : UInt8) : a.add (a.canonical b) = a.add b := by
  rw [add, add, assign, assign, canonical, Byte.canonical_canonical]

theorem addAll_map_canonical (a : Alphabet) (bs : Bytes) :
    a.addAll (bs.map a.canonical) = a.addAll bs := by
  induction bs generalizing a with
  | nil => rfl
  | cons b bs ih =>
      have hrest := ih (a.add b)
      rw [canonical_add] at hrest
      rw [List.map_cons, addAll_cons, addAll_cons, add_canonical, hrest]

/-- Under folding the two cells of a letter are written, and these are the bytes
that it stands for. -/
theorem get_codesWith (a : Alphabet) (b c : UInt8) (code : CodePoint) :
    (a.codesWith b code).get c = if a.canonical b = a.canonical c then code else a.codes.get c := by
  rw [codesWith]
  simp only [canonical, Byte.canonical_eq_canonical_iff]
  by_cases hfold : a.foldCase = true
  · simp only [hfold, if_true, ByteTable.get_set, true_and]
    by_cases hb : b = c <;> by_cases hswap : Byte.swapCase b = c <;> simp [hb, hswap]
  · simp [hfold, ByteTable.get_set]

theorem sound_empty (foldCase : Bool) : (empty foldCase).Sound := by
  refine ⟨List.nodup_nil, fun b hb => absurd hb List.not_mem_nil, fun b => ?_⟩
  have hnot : (empty foldCase).canonical b ∉ (empty foldCase).bytes := List.not_mem_nil
  rw [if_neg hnot]
  exact ByteTable.get_replicate 0 b

namespace Sound

theorem codePoint_of_mem (h : a.Sound) (hb : a.canonical b ∈ a.bytes) :
    a.codePoint b = (a.bytes.idxOf (a.canonical b) + 1).toUInt16 := by
  rw [h.codePoint, if_pos hb]

theorem toNat_codePoint (h : a.Sound) (hb : a.canonical b ∈ a.bytes) :
    (a.codePoint b).toNat = a.bytes.idxOf (a.canonical b) + 1 := by
  have hlt := List.idxOf_lt_length_of_mem hb
  have hle := Byte.length_le_of_nodup h.nodup
  rw [h.codePoint_of_mem hb, Nat.toUInt16, UInt16.toNat_ofNat']
  omega

theorem codePoint_ne_zero_iff (h : a.Sound) : a.codePoint b ≠ 0 ↔ a.canonical b ∈ a.bytes := by
  by_cases hb : a.canonical b ∈ a.bytes
  · have hcode := h.toNat_codePoint hb
    refine iff_of_true (fun hzero => ?_) hb
    rw [hzero] at hcode
    exact absurd hcode (Nat.succ_ne_zero _).symm
  · rw [h.codePoint, if_neg hb]
    exact iff_of_false (fun hne => hne rfl) hb

/-- Bytes share a code point if they share a representative, or if neither was
added. -/
theorem codePoint_eq_iff (h : a.Sound) :
    a.codePoint b = a.codePoint c ↔
      a.canonical b = a.canonical c ∨ (a.canonical b ∉ a.bytes ∧ a.canonical c ∉ a.bytes) := by
  by_cases hb : a.canonical b ∈ a.bytes <;> by_cases hc : a.canonical c ∈ a.bytes
  · simp only [hb, hc, not_true_eq_false, and_false, or_false]
    refine ⟨fun heq => ?_, fun heq => ?_⟩
    · have hindex := h.toNat_codePoint hb
      rw [heq, h.toNat_codePoint hc, Nat.add_right_cancel_iff] at hindex
      exact ((List.idxOf_inj hc).1 hindex).symm
    · rw [h.codePoint, h.codePoint, heq]
  · have hcode := h.codePoint_ne_zero_iff.2 hb
    simp only [h.codePoint c, hb, hc, if_false, not_true_eq_false, false_and, or_false]
    exact iff_of_false hcode fun heq => hc (heq ▸ hb)
  · have hcode := h.codePoint_ne_zero_iff.2 hc
    simp only [h.codePoint b, hb, hc, if_false, not_true_eq_false, and_false, or_false]
    exact iff_of_false hcode.symm fun heq => hb (heq ▸ hc)
  · simp [h.codePoint, hb, hc]

/-- A byte that is there changes nothing. -/
theorem add_of_mem (h : a.Sound) (hb : a.canonical b ∈ a.bytes) : a.add b = a := by
  have hcode : a.codes.get (Byte.canonical a.foldCase b) ≠ 0 :=
    h.codePoint_ne_zero_iff.2 ((canonical_canonical a b).symm ▸ hb)
  rw [Alphabet.add, assign, if_pos (bne_iff_ne.2 hcode)]

/-- A byte that is not there gets the next code point. -/
theorem add_of_notMem (h : a.Sound) (hb : a.canonical b ∉ a.bytes) :
    a.add b =
      { a with
        codes := a.codesWith (a.canonical b) (a.bytes.length + 1).toUInt16
        bytes := a.bytes ++ [a.canonical b] } := by
  have hcode : ¬ a.codes.get (Byte.canonical a.foldCase b) ≠ 0 := fun hne =>
    hb (canonical_canonical a b ▸ h.codePoint_ne_zero_iff.1 hne)
  rw [Alphabet.add, assign, if_neg fun hne => hcode (bne_iff_ne.1 hne)]
  rfl

theorem bytes_add (h : a.Sound) (b : UInt8) :
    (a.add b).bytes =
      if a.canonical b ∈ a.bytes then a.bytes else a.bytes ++ [a.canonical b] := by
  split
  · next hb => rw [h.add_of_mem hb]
  · next hb => rw [h.add_of_notMem hb]

theorem add (h : a.Sound) (b : UInt8) : (a.add b).Sound := by
  by_cases hb : a.canonical b ∈ a.bytes
  · rwa [h.add_of_mem hb]
  have hcanonical := canonical_add a b
  have hadd := h.add_of_notMem hb
  rw [hadd] at hcanonical
  rw [hadd]
  refine ⟨?_, ?_, fun c => ?_⟩
  · exact List.nodup_append.2 ⟨h.nodup, List.nodup_singleton _, fun x hx y hy heq =>
      hb (List.mem_singleton.1 hy ▸ heq ▸ hx)⟩
  · intro c hc
    rw [hcanonical]
    rcases List.mem_append.1 hc with hc | hc
    · exact h.canonical c hc
    · rw [List.mem_singleton.1 hc, canonical_canonical]
  · rw [hcanonical]
    show (a.codesWith (a.canonical b) (a.bytes.length + 1).toUInt16).get c = _
    rw [get_codesWith, canonical_canonical]
    by_cases heq : a.canonical b = a.canonical c
    · have hnot : a.canonical c ∉ a.bytes := heq ▸ hb
      rw [if_pos heq, heq, if_pos (List.mem_append_right _ (List.mem_singleton_self _)),
        List.idxOf_append_of_notMem hnot, List.idxOf_cons_self, Nat.add_zero]
    · have hiff : a.canonical c ∈ a.bytes ++ [a.canonical b] ↔ a.canonical c ∈ a.bytes := by
        rw [List.mem_append, List.mem_singleton, or_iff_left (Ne.symm heq)]
      rw [if_neg heq]
      simp only [hiff]
      by_cases hc : a.canonical c ∈ a.bytes
      · rw [if_pos hc, List.idxOf_append_of_mem hc]
        exact h.codePoint_of_mem hc
      · rw [if_neg hc]
        exact Classical.byContradiction fun hne => hc (h.codePoint_ne_zero_iff.1 hne)

theorem addAll (h : a.Sound) (bs : Bytes) : (a.addAll bs).Sound := by
  induction bs generalizing a with
  | nil => exact h
  | cons b bs ih => exact ih (h.add b)

theorem mem_bytes_add (h : a.Sound) : c ∈ (a.add b).bytes ↔ c ∈ a.bytes ∨ a.canonical b = c := by
  rw [h.bytes_add]
  split
  · next hb => exact (or_iff_left_of_imp fun heq => heq ▸ hb).symm
  · rw [List.mem_append, List.mem_singleton, eq_comm]

theorem mem_bytes_addAll (h : a.Sound) :
    c ∈ (a.addAll bs).bytes ↔ c ∈ a.bytes ∨ ∃ b ∈ bs, a.canonical b = c := by
  induction bs generalizing a with
  | nil => simp [Alphabet.addAll]
  | cons b bs ih =>
      rw [addAll_cons, ih (h.add b), h.mem_bytes_add, or_assoc]
      simp only [canonical_add, List.mem_cons, exists_eq_or_imp]

end Sound

theorem ofBytes_append (foldCase : Bool) (bs cs : Bytes) :
    ofBytes foldCase (bs ++ cs) = (ofBytes foldCase bs).addAll cs :=
  List.foldl_append

theorem sound_ofBytes (foldCase : Bool) (bs : Bytes) : (ofBytes foldCase bs).Sound :=
  (sound_empty foldCase).addAll bs

theorem mem_bytes_ofBytes {foldCase : Bool} :
    c ∈ (ofBytes foldCase bs).bytes ↔ ∃ b ∈ bs, Byte.canonical foldCase b = c :=
  (sound_empty foldCase).mem_bytes_addAll.trans (or_iff_right List.not_mem_nil)

end Alphabet

end MultiPattern
