/-!
# Bytes and the case of ASCII letters

Patterns and texts are byte strings. The only relation between different bytes
that a search knows is letter case: under case folding the two cases of an
ASCII letter count as one, and every other byte stands for itself alone, bytes
above 127 included.

`Byte.canonical` picks the representative of a byte, so that two bytes count as
equal exactly when their representatives are the same byte. `Byte.all` lists
the bytes once each in ascending order, which is the order every table of
bytes is read in.
-/

namespace MultiPattern

/-- A byte string: a pattern, or a text to search in. -/
abbrev Bytes := List UInt8

namespace Byte

/-- Every byte once, in ascending order. -/
def all : Bytes :=
  (List.range 256).map UInt8.ofNat

/-- An ASCII capital letter. -/
def isUpper (b : UInt8) : Bool :=
  0x41 ≤ b && b ≤ 0x5a

/-- An ASCII small letter. -/
def isLower (b : UInt8) : Bool :=
  0x61 ≤ b && b ≤ 0x7a

/-- The small letter of a capital, any other byte itself. -/
def lower (b : UInt8) : UInt8 :=
  if isUpper b then b + 0x20 else b

/-- The capital of a small letter, any other byte itself. -/
def upper (b : UInt8) : UInt8 :=
  if isLower b then b - 0x20 else b

/-- The letter of the opposite case; a byte that is no letter is its own
opposite. -/
def swapCase (b : UInt8) : UInt8 :=
  if isUpper b then lower b else upper b

/-- The representative of a byte: bytes count as equal when theirs agree. -/
def canonical (foldCase : Bool) (b : UInt8) : UInt8 :=
  if foldCase then lower b else b

theorem mem_all (b : UInt8) : b ∈ all := by
  rw [all, List.mem_map]
  exact ⟨b.toNat, List.mem_range.2 b.toNat_lt, UInt8.ofNat_toNat⟩

/-- The list of bytes is in ascending order, so no byte is in it twice. -/
theorem pairwise_all : all.Pairwise (·.toNat < ·.toNat) := by
  rw [all, List.pairwise_map]
  refine List.Pairwise.imp_of_mem ?_ List.pairwise_lt_range
  intro i j hi hj h
  have := List.mem_range.1 hi
  have := List.mem_range.1 hj
  rw [UInt8.toNat_ofNat', UInt8.toNat_ofNat']
  omega

/-- What holds of the 256 numbers of the bytes holds of the bytes. It turns a
question about one byte into one that can be computed. -/
theorem forall_of_fin {p : UInt8 → Prop} (h : ∀ i : Fin 256, p (UInt8.ofFin i)) (b : UInt8) :
    p b := by
  have := h b.toFin
  rwa [UInt8.ofFin_toFin] at this

theorem lower_lower : ∀ b : UInt8, lower (lower b) = lower b :=
  forall_of_fin (by decide +kernel)

theorem lower_swapCase : ∀ b : UInt8, lower (swapCase b) = lower b :=
  forall_of_fin (by decide +kernel)

theorem swapCase_swapCase : ∀ b : UInt8, swapCase (swapCase b) = b :=
  forall_of_fin (by decide +kernel)

/-- A byte is the small letter of its own letter, or else that one's opposite. -/
theorem lower_eq_or_swapCase_lower_eq :
    ∀ b : UInt8, lower b = b ∨ swapCase (lower b) = b :=
  forall_of_fin (by decide +kernel)

/-- Two bytes are the same letter when they are equal or of opposite case. -/
theorem lower_eq_lower_iff {b c : UInt8} : lower b = lower c ↔ b = c ∨ swapCase b = c := by
  refine ⟨?_, ?_⟩
  · intro h
    rcases lower_eq_or_swapCase_lower_eq b with hb | hb <;>
      rcases lower_eq_or_swapCase_lower_eq c with hc | hc
    · exact Or.inl (by rw [← hb, h, hc])
    · exact Or.inr (by rw [← hb, h, hc])
    · refine Or.inr ?_
      rw [← hb, swapCase_swapCase, h, hc]
    · exact Or.inl (by rw [← hb, h, hc])
  · intro h
    rcases h with rfl | rfl
    · rfl
    · rw [lower_swapCase]

theorem canonical_canonical (foldCase : Bool) (b : UInt8) :
    canonical foldCase (canonical foldCase b) = canonical foldCase b := by
  cases foldCase
  · rfl
  · exact lower_lower b

end Byte

end MultiPattern
