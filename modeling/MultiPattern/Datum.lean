/-!
# Data without a schema

What a settings file or a message holds before anything is known of its
meaning. The types of this library that can be written down have a function
`ofDatum?` that reads one, or refuses it, beside the function `toDatum` that
writes it.

Numbers are of two kinds only. The one kind that some type here accepts is a
number written as digits alone; whatever is written with a sign, a fraction or
an exponent is `otherNumber`, whatever its value.
-/

namespace MultiPattern

/-- A piece of data as it is written. -/
inductive Datum where
  | null
  | bool (b : Bool)
  | natural (n : Nat)
  | otherNumber
  | text (s : String)
  | list (items : List Datum)
  | fields (entries : List (String × Datum))
deriving Inhabited

/-- The value under a name, if the name is there. -/
def Datum.field? (entries : List (String × Datum)) (name : String) : Option Datum :=
  (entries.find? fun entry => entry.1 == name).map (·.2)

end MultiPattern
