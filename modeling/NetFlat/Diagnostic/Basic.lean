import NetFlat.Source.Span
import NetFlat.Text.Basic

/-!
# Diagnostics

A diagnostic is a finding about a source text: severity, code, message and place, with labels,
notes and help.
-/

namespace NetFlat

/-- How grave a finding is. -/
inductive Severity where
  | note | warning | error
deriving DecidableEq, Repr

def Severity.word : Severity → String
  | .note => "note"
  | .warning => "warning"
  | .error => "error"

/-- The family of a code. -/
inductive Category where
  | error | warning | info
deriving DecidableEq, Repr

/-- The letter that stands for the category. -/
def Category.letter : Category → String
  | .error => "E"
  | .warning => "W"
  | .info => "I"

/-- What names a kind of finding: a category and a number in it. -/
structure Code where
  category : Category
  number : Nat
deriving DecidableEq, Repr

/-- The letter of the category and at least three digits. -/
def Code.display (c : Code) : String :=
  let digits := toString c.number
  c.category.letter ++ String.ofList (List.replicate (3 - digits.length) '0') ++ digits

/-- Whether a label marks the finding itself or something beside it. -/
inductive LabelStyle where
  | primary | secondary
deriving DecidableEq, Repr

/-- A remark on a place. -/
structure Label where
  span : Span
  message : String
  style : LabelStyle
deriving DecidableEq, Repr

/-- A finding about a source text. -/
structure Diagnostic where
  severity : Severity
  code : Code
  message : String
  span : Span
  labels : List Label := []
  notes : List String := []
  help : List String := []
deriving DecidableEq, Repr

namespace Diagnostic

def withPrimary (d : Diagnostic) (span : Span) (message : String) : Diagnostic :=
  { d with labels := d.labels ++ [⟨span, message, .primary⟩] }

def withNote (d : Diagnostic) (note : String) : Diagnostic := { d with notes := d.notes ++ [note] }

def withHelp (d : Diagnostic) (help : String) : Diagnostic := { d with help := d.help ++ [help] }

end Diagnostic

/-- The findings of a run in the order of their arrival, and how many errors ever arrived. -/
structure Sink where
  held : List Diagnostic := []
  errors : Nat := 0

namespace Sink

def emit (s : Sink) (d : Diagnostic) : Sink :=
  ⟨s.held ++ [d], s.errors + if d.severity = .error then 1 else 0⟩

def emitAll (s : Sink) (ds : List Diagnostic) : Sink := ds.foldl emit s

/-- Hands the findings out; the count of errors stays. -/
def drain (s : Sink) : List Diagnostic × Sink := (s.held, ⟨[], s.errors⟩)

def hasErrors (s : Sink) : Bool := s.errors != 0

end Sink

end NetFlat
