import MultiPattern.ByteTable
import MultiPattern.Byte.Escaped
import MultiPattern.Outline
import MultiPattern.Text.Quoted

/-!
# The alphabet of a set of patterns

Few of the 256 bytes occur in the patterns of a search. An alphabet numbers
those that do: its bytes get the code points 1, 2, 3 and so on in the order
they are first added, and 0 is left for bytes that were never added. Under case
folding the two cases of a letter share one code point, and the small letter
stands for both.

Both directions are kept: `codes` finds the code point of a byte in one step,
`bytes` is the inverse. Adding a byte writes the two together, and under
folding it writes the cell of the opposite case too, so that a byte finds its
code point without being folded first.
-/

namespace MultiPattern

/-- The number of a byte in an alphabet, 0 for a byte outside it. -/
abbrev CodePoint := UInt16

/-- A numbering of the bytes that occur. -/
structure Alphabet where
  /-- Whether the two cases of a letter count as one. -/
  foldCase : Bool
  /-- The code point of every byte. -/
  codes : ByteTable CodePoint
  /-- The byte of every code point from 1 on. -/
  bytes : Bytes
deriving DecidableEq

namespace Alphabet

/-- The alphabet without bytes. -/
def empty (foldCase : Bool) : Alphabet :=
  ⟨foldCase, ByteTable.replicate 0, []⟩

/-- The alphabet that is used where none is asked for tells the cases apart. -/
def default : Alphabet :=
  empty false

/-- The code point of a byte, 0 if it was never added. -/
def codePoint (a : Alphabet) (b : UInt8) : CodePoint :=
  a.codes.get b

/-- The byte was added, under folding in either case. -/
def contains (a : Alphabet) (b : UInt8) : Bool :=
  a.codePoint b != 0

/-- The byte that a code point stands for. -/
def byte? (a : Alphabet) (c : CodePoint) : Option UInt8 :=
  if c = 0 then none else a.bytes[c.toNat - 1]?

/-- How many code points are in use. -/
def size (a : Alphabet) : Nat :=
  a.bytes.length

/-- No byte was added. -/
def isEmpty (a : Alphabet) : Bool :=
  a.bytes.isEmpty

/-- The code points with `code` given to the representative `b`, and under
folding to its opposite case. -/
def codesWith (a : Alphabet) (b : UInt8) (code : CodePoint) : ByteTable CodePoint :=
  let codes := a.codes.set b code
  if a.foldCase then codes.set (Byte.swapCase b) code else codes

/-- Add a byte and answer its code point. A byte that is there already, in
either case under folding, keeps the one it has. -/
def assign (a : Alphabet) (b : UInt8) : CodePoint × Alphabet :=
  let b := Byte.canonical a.foldCase b
  let code := a.codes.get b
  if code != 0 then (code, a)
  else
    let code := (a.bytes.length + 1).toUInt16
    (code, { a with codes := a.codesWith b code, bytes := a.bytes ++ [b] })

/-- Add a byte. -/
def add (a : Alphabet) (b : UInt8) : Alphabet :=
  (a.assign b).2

/-- Add bytes from the left. -/
def addAll (a : Alphabet) (bs : Bytes) : Alphabet :=
  bs.foldl add a

/-- Add bytes from the left and answer the code point of each. -/
def assignAll (a : Alphabet) : Bytes → List CodePoint × Alphabet
  | [] => ([], a)
  | b :: rest =>
      let (code, a) := a.assign b
      let (codes, a) := a.assignAll rest
      (code :: codes, a)

theorem assignAll_snd (a : Alphabet) (bs : Bytes) : (a.assignAll bs).2 = a.addAll bs := by
  induction bs generalizing a with
  | nil => rfl
  | cons b rest ih =>
      rw [addAll, List.foldl_cons, ← addAll]
      exact ih (a.assign b).2

/-- The alphabet of the bytes of a text. -/
def ofBytes (foldCase : Bool) (bs : Bytes) : Alphabet :=
  (empty foldCase).addAll bs

/-- The bytes in the order of their code points, each as a quotation of its
visible form. -/
def outline (a : Alphabet) : String :=
  Outline.list (a.bytes.map fun b => Text.quoted (String.ofList (Byte.escaped b)))

end Alphabet

end MultiPattern
