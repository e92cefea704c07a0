import MultiPattern.Byte

/-!
# Bytes in visible form

A byte is written in ASCII: a printable one as itself, three of the blanks as
an escape of one letter, the two quotation marks and the backslash behind a
backslash, and every other byte as two hexadecimal digits. No byte is written
as a blank except the space itself, so a list of escaped bytes can be set apart
by spaces.
-/

namespace MultiPattern

/-- The two hexadecimal digits of a byte, in small letters. -/
def Byte.hexDigits (b : UInt8) : List Char :=
  [Nat.digitChar (b.toNat / 16), Nat.digitChar (b.toNat % 16)]

/-- A byte as visible ASCII. -/
def Byte.escaped (b : UInt8) : List Char :=
  if b = 0x09 then ['\\', 't']
  else if b = 0x0a then ['\\', 'n']
  else if b = 0x0d then ['\\', 'r']
  else if b = 0x22 then ['\\', '"']
  else if b = 0x27 then ['\\', '\'']
  else if b = 0x5c then ['\\', '\\']
  else if 0x20 ≤ b && b ≤ 0x7e then [Char.ofNat b.toNat]
  else '\\' :: 'x' :: Byte.hexDigits b

end MultiPattern
