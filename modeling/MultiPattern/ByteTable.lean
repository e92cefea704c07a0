import MultiPattern.Byte

/-!
# Tables with one cell for every byte

A `ByteTable` is a total map from bytes, held as 256 cells. Reading never fails
because a byte is always in range, so a table needs no default and no bound is
left for its user to prove. `get_set` and its neighbours say what each operation
does to the map; `ext_get` says that the map is all there is.
-/

namespace MultiPattern

/-- A value for every byte. -/
structure ByteTable (α : Type) where
  cells : Vector α 256
deriving DecidableEq

namespace ByteTable

variable {α β : Type}

/-- The table that holds the same value for every byte. -/
def replicate (a : α) : ByteTable α :=
  ⟨Vector.replicate 256 a⟩

/-- The value for `b`. -/
def get (t : ByteTable α) (b : UInt8) : α :=
  t.cells[b.toFin]

/-- The table with the value for `b` replaced. -/
def set (t : ByteTable α) (b : UInt8) (a : α) : ByteTable α :=
  ⟨t.cells.set b.toNat a b.toNat_lt⟩

/-- Apply `f` to the value for every byte. -/
def map (f : α → β) (t : ByteTable α) : ByteTable β :=
  ⟨t.cells.map f⟩

/-- Every byte with its value, in ascending order. The cells are read once from
the first to the last. -/
def entries (t : ByteTable α) : List (UInt8 × α) :=
  Byte.all.zip t.cells.toList

@[simp] theorem get_replicate (a : α) (b : UInt8) : (replicate a).get b = a := by
  simp [get, replicate]

@[simp] theorem get_map (f : α → β) (t : ByteTable α) (b : UInt8) :
    (t.map f).get b = f (t.get b) := by
  simp [get, map]

theorem get_set (t : ByteTable α) (b c : UInt8) (a : α) :
    (t.set b a).get c = if b = c then a else t.get c := by
  simp [get, set, Vector.getElem_set, UInt8.toNat_inj]

theorem entries_eq_map (t : ByteTable α) : t.entries = Byte.all.map fun b => (b, t.get b) := by
  apply List.ext_getElem
  · simp [entries, Byte.all]
  · intro i hi _
    have hlt : i < 256 := by simpa [entries, Byte.all] using hi
    have hcell : t.get (UInt8.ofNat i) = t.cells[i] := by
      simp [get, Nat.mod_eq_of_lt hlt]
    simp [entries, Byte.all, hcell]

theorem mem_entries {t : ByteTable α} {b : UInt8} {a : α} : (b, a) ∈ t.entries ↔ t.get b = a := by
  rw [entries_eq_map, List.mem_map]
  refine ⟨?_, ?_⟩
  · intro h
    obtain ⟨c, -, hc⟩ := h
    cases hc
    rfl
  · intro h
    subst h
    exact ⟨b, Byte.mem_all b, rfl⟩

/-- Tables that agree on every byte are equal. -/
@[ext] theorem ext_get {s t : ByteTable α} (h : ∀ b, s.get b = t.get b) : s = t := by
  cases s with
  | mk s =>
      cases t with
      | mk t =>
          congr 1
          ext i hi
          have := h (UInt8.ofFin ⟨i, hi⟩)
          simpa [get] using this

end ByteTable

end MultiPattern
