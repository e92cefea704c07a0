import MultiPattern.Datum
import MultiPattern.Text.Quoted

/-!
# Which matches are reported

Patterns overlap, and a search has to say which occurrences count. Under the
standard rule all of them do. Under the leftmost rules a search closes in on
one: of patterns that are not empty, the last report is the leftmost
occurrence, and of those that begin there the one whose pattern was given
first. The two leftmost rules have names of their own and the same meaning: no
comparison of lengths is made.

A name typed by a person is read leniently: case does not matter and an
underscore is as good as a hyphen. A name in written data is taken as it
stands.
-/

namespace MultiPattern

/-- The rule for overlapping matches. -/
inductive MatchKind where
  /-- Every occurrence of every pattern. -/
  | standard
  /-- The search closes in on the leftmost occurrence, of the pattern given
  first. -/
  | leftmostFirst
  /-- Another name for the same rule. -/
  | leftmostLongest
deriving DecidableEq

/-- A name that is not the name of a rule. -/
structure UnknownMatchKind where
  /-- The name as it was typed. -/
  text : String
deriving DecidableEq

namespace MatchKind

/-- The rule where none is asked for. -/
def default : MatchKind :=
  .standard

/-- Not every occurrence is reported. -/
def isLeftmost : MatchKind → Bool
  | .standard => false
  | .leftmostFirst => true
  | .leftmostLongest => true

/-- The name of the rule. -/
def name : MatchKind → String
  | .standard => "standard"
  | .leftmostFirst => "leftmost-first"
  | .leftmostLongest => "leftmost-longest"

/-- The rule as it stands in a value written out. -/
def outline : MatchKind → String
  | .standard => "Standard"
  | .leftmostFirst => "LeftmostFirst"
  | .leftmostLongest => "LeftmostLongest"

/-- The rules, in the order they are presented. -/
def all : List MatchKind :=
  [.standard, .leftmostFirst, .leftmostLongest]

/-- The rule with exactly this name. -/
def ofName? (s : String) : Option MatchKind :=
  all.find? fun kind => kind.name == s

/-- A typed name in the spelling of the names above. -/
def spelling (s : String) : String :=
  String.ofList (s.toList.map fun c => if c = '_' then '-' else c.toLower)

/-- Read a typed name. -/
def parse (s : String) : Except UnknownMatchKind MatchKind :=
  match ofName? (spelling s) with
  | some kind => .ok kind
  | none => .error ⟨s⟩

/-- The names of all rules, for whoever typed a wrong one. -/
def names : String :=
  String.intercalate ", " (all.map name)

/-- Read a rule from data: its name, or one field of that name without a
value. -/
def ofDatum? : Datum → Option MatchKind
  | .text s => ofName? s
  | .fields [(s, .null)] => ofName? s
  | _ => none

/-- Write a rule as data. -/
def toDatum (kind : MatchKind) : Datum :=
  .text kind.name

end MatchKind

/-- What is wrong with the name, and which would have done. -/
def UnknownMatchKind.message (e : UnknownMatchKind) : String :=
  "unknown match kind " ++ Text.quoted e.text ++ ", expected one of: " ++ MatchKind.names

end MultiPattern
