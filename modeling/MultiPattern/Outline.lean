/-!
# Values written out

The written form of a value shows how it is built: a number as its digits, a
list between brackets, a labelled value as its label and the value in
parentheses, a record as its name and its fields in order. Each function here
takes the written parts and joins them, so the form of a type is one
expression over the forms of its parts.
-/

namespace MultiPattern.Outline

/-- Parts between two marks, a comma and a blank apart. -/
def enclosed (left right : String) (parts : List String) : String :=
  left ++ String.intercalate ", " parts ++ right

/-- A list: its items between brackets. -/
def list (items : List String) : String :=
  enclosed "[" "]" items

/-- A tuple, behind its label if it has one. -/
def tuple (label : String) (parts : List String) : String :=
  label ++ enclosed "(" ")" parts

/-- A record: its name, then every field with its value. -/
def record (name : String) (fields : List (String × String)) : String :=
  name ++ enclosed " \x7b " " \x7d" (fields.map fun (field, value) => field ++ ": " ++ value)

/-- A truth value in words. -/
def bool (b : Bool) : String :=
  if b then "true" else "false"

/-- A list of numbers. -/
def bytes (bs : List UInt8) : String :=
  list (bs.map fun b => toString b.toNat)

end MultiPattern.Outline
