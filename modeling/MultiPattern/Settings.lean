import MultiPattern.MatchKind
import MultiPattern.Outline

/-!
# Settings of a search

Two things are chosen when patterns are compiled: which matches are reported,
and whether letter case matters. Written settings may leave either out, and
then the default stands; a setting that is there must be valid, and a field of
another name is passed over. Settings may also be written as a list, in the
order of the fields.
-/

namespace MultiPattern

/-- What is chosen when patterns are compiled. -/
structure Settings where
  kind : MatchKind := .standard
  /-- The two cases of an ASCII letter count as one. -/
  foldCase : Bool := false
deriving DecidableEq

namespace Settings

/-- Every occurrence is reported, and letter case is told apart. -/
def default : Settings :=
  {}

/-- The name of the field for the rule of matching. -/
def kindField : String :=
  "match_kind"

/-- The name of the field for letter case. -/
def foldCaseField : String :=
  "ascii_case_insensitive"

/-- A setting that may be missing. -/
def orDefault? {α : Type} (read : Datum → Option α) (ifMissing : α) : Option Datum → Option α
  | none => some ifMissing
  | some datum => read datum

/-- Read a truth value. -/
def bool? : Datum → Option Bool
  | .bool b => some b
  | _ => none

/-- Settings from the two parts that were found. -/
def ofParts? (kind foldCase : Option Datum) : Option Settings := do
  let kind ← orDefault? MatchKind.ofDatum? default.kind kind
  let foldCase ← orDefault? bool? default.foldCase foldCase
  return { kind, foldCase }

/-- Read settings from data: by field name, or by place in a list that is not
too long. -/
def ofDatum? : Datum → Option Settings
  | .fields entries => ofParts? (Datum.field? entries kindField) (Datum.field? entries foldCaseField)
  | .list [] => ofParts? none none
  | .list [kind] => ofParts? (some kind) none
  | .list [kind, foldCase] => ofParts? (some kind) (some foldCase)
  | _ => none

/-- Write settings as data, with every field. -/
def toDatum (s : Settings) : Datum :=
  .fields [(kindField, s.kind.toDatum), (foldCaseField, .bool s.foldCase)]

/-- The settings written out. -/
def outline (s : Settings) : String :=
  Outline.record "AhoCorasickBuilder"
    [(kindField, s.kind.outline), (foldCaseField, Outline.bool s.foldCase)]

end Settings

end MultiPattern
