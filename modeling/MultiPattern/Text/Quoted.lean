import MultiPattern.Text.Combining

/-!
# Quoted text

A text between quotation marks, written so that what it holds can be read off
the page: the quotation mark and the backslash behind a backslash, the null
character and the three common blanks as an escape of one letter, and by its
number any character that has no visible form or attaches to the one before.
Text of any script that shows as itself stays as it is.
-/

namespace MultiPattern.Text

/-- A character by its number: hexadecimal in small letters, without leading
zeros, between braces. -/
def byNumber (c : Char) : List Char :=
  ['\\', 'u', '\x7b'] ++ Nat.toDigits 16 c.toNat ++ ['\x7d']

/-- A character as it stands between quotation marks. -/
def quotedChar (c : Char) : List Char :=
  if c = '\x00' then ['\\', '0']
  else if c = '\t' then ['\\', 't']
  else if c = '\n' then ['\\', 'n']
  else if c = '\r' then ['\\', 'r']
  else if c = '"' then ['\\', '"']
  else if c = '\\' then ['\\', '\\']
  else if isCombining c || !isPrintable c then byNumber c
  else [c]

/-- A text between quotation marks. -/
def quoted (s : String) : String :=
  String.ofList ('"' :: s.toList.flatMap quotedChar ++ ['"'])

end MultiPattern.Text
