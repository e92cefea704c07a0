import MultiPattern.Byte

/-!
# Reading bytes as UTF-8

Bytes that are valid UTF-8 are read as the text they encode. Where they are
not, each maximal part that could have been the beginning of a character
becomes one replacement character, and reading goes on with the byte that
broke it; a byte that begins no character is such a part by itself. Reading
therefore never fails and never skips a byte that could start a character.

The reader is a machine with one state, the character it is in the middle of.
What the next byte may be is part of that state, because the second byte of a
character is restricted further than the later ones: that is what rules out
overlong forms, surrogates and numbers past the last code point.
-/

namespace MultiPattern.Text

/-- A character of which only the first bytes were read. -/
structure Started where
  /-- The bits read so far. -/
  bits : Nat
  /-- How many bytes are missing, less one. -/
  moreAfterNext : Nat
  /-- The least byte that may come next. -/
  low : UInt8
  /-- The greatest byte that may come next. -/
  high : UInt8

/-- The sign for bytes that are not UTF-8. -/
def replacement : Char :=
  Char.ofNat 0xfffd

/-- Read a byte that does not continue anything: what it yields, and the
character it starts. -/
def readFirst (b : UInt8) : List Char × Option Started :=
  if b < 0x80 then ([Char.ofNat b.toNat], none)
  else if b < 0xc2 then ([replacement], none)
  else if b < 0xe0 then ([], some ⟨b.toNat - 0xc0, 0, 0x80, 0xbf⟩)
  else if b = 0xe0 then ([], some ⟨0, 1, 0xa0, 0xbf⟩)
  else if b = 0xed then ([], some ⟨0x0d, 1, 0x80, 0x9f⟩)
  else if b < 0xf0 then ([], some ⟨b.toNat - 0xe0, 1, 0x80, 0xbf⟩)
  else if b = 0xf0 then ([], some ⟨0, 2, 0x90, 0xbf⟩)
  else if b < 0xf4 then ([], some ⟨b.toNat - 0xf0, 2, 0x80, 0xbf⟩)
  else if b = 0xf4 then ([], some ⟨4, 2, 0x80, 0x8f⟩)
  else ([replacement], none)

/-- Read a byte in the middle of `s`. -/
def Started.read (s : Started) (b : UInt8) : List Char × Option Started :=
  if s.low ≤ b && b ≤ s.high then
    let bits := s.bits * 64 + (b.toNat - 0x80)
    match s.moreAfterNext with
    | 0 => ([Char.ofNat bits], none)
    | n + 1 => ([], some ⟨bits, n, 0x80, 0xbf⟩)
  else
    let (text, started) := readFirst b
    (replacement :: text, started)

/-- Read the rest of the bytes, from the middle of a character or between two. -/
def readFrom : Option Started → Bytes → List Char
  | none, [] => []
  | some _, [] => [replacement]
  | none, b :: rest =>
      let (text, started) := readFirst b
      text ++ readFrom started rest
  | some s, b :: rest =>
      let (text, started) := s.read b
      text ++ readFrom started rest

/-- Read bytes as UTF-8, with a replacement character for each invalid part. -/
def ofUtf8 (bytes : Bytes) : String :=
  String.ofList (readFrom none bytes)

end MultiPattern.Text
