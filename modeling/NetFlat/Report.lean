import NetFlat.Diagnostic.Basic
import NetFlat.Stats

/-!
# Reports

A report lists files with their findings and statistics as a JSON text: members in the order of
their names, two blanks for each level, characters beyond ASCII as they are.
-/

namespace NetFlat.Report

/-- A JSON value. -/
inductive Json where
  | null
  | bool (b : Bool)
  | number (n : Nat)
  | string (s : String)
  | array (items : List Json)
  | object (members : List (String × Json))

namespace Json

/-- The last two hexadecimal digits of a code. -/
def hexPair (n : Nat) : String :=
  String.ofList [Nat.digitChar (n / 16 % 16), Nat.digitChar (n % 16)]

def escape (c : Char) : String :=
  match c with
  | '"' => "\\\""
  | '\\' => "\\\\"
  | '\x08' => "\\b"
  | '\t' => "\\t"
  | '\n' => "\\n"
  | '\x0c' => "\\f"
  | '\r' => "\\r"
  | c => if c.toNat < 0x20 then "\\u00" ++ hexPair c.toNat else String.singleton c

def quote (s : String) : String := "\"" ++ String.join (s.toList.map escape) ++ "\""

/-- The line end in front of what stands at a level. -/
def indent (level : Nat) : String := "\n" ++ String.ofList (List.replicate (2 * level) ' ')

mutual

/-- The text of a value that stands at a level. -/
def pretty (level : Nat) : Json → String
  | null => "null"
  | bool b => if b then "true" else "false"
  | number n => toString n
  | string s => quote s
  | array [] => "[]"
  | array items => "[" ++ prettyItems (level + 1) items ++ indent level ++ "]"
  | object [] => "\x7b\x7d"
  | object members => "\x7b" ++ prettyMembers (level + 1) members ++ indent level ++ "\x7d"

/-- The items of an array, each on lines of its own. -/
def prettyItems (level : Nat) : List Json → String
  | [] => ""
  | [j] => indent level ++ pretty level j
  | j :: js => indent level ++ pretty level j ++ "," ++ prettyItems level js

/-- The members of an object, each on lines of its own. -/
def prettyMembers (level : Nat) : List (String × Json) → String
  | [] => ""
  | [(k, j)] => indent level ++ quote k ++ ": " ++ pretty level j
  | (k, j) :: ms =>
    indent level ++ quote k ++ ": " ++ pretty level j ++ "," ++ prettyMembers level ms

end

end Json

/-! ## The values of a report -/

def span (s : Span) : Json :=
  .object [("end", .number s.stop), ("file", .number s.file), ("start", .number s.start)]

def code (c : Code) : Json :=
  let category := match c.category with
    | .error => "Error"
    | .warning => "Warning"
    | .info => "Info"
  .object [("category", .string category), ("number", .number c.number)]

def label (l : Label) : Json :=
  let style := match l.style with
    | .primary => "Primary"
    | .secondary => "Secondary"
  .object [("message", .string l.message), ("span", span l.span), ("style", .string style)]

def severity (s : Severity) : Json :=
  .string <| match s with
    | .note => "Note"
    | .warning => "Warning"
    | .error => "Error"

def diagnostic (d : Diagnostic) : Json :=
  .object [("code", code d.code), ("help", .array (d.help.map .string)),
    ("labels", .array (d.labels.map label)), ("message", .string d.message),
    ("notes", .array (d.notes.map .string)), ("primary_span", span d.span),
    ("severity", severity d.severity)]

def tally (t : Tally) : Json := .object (t.map fun p => (String.ofList p.1, .number p.2))

def stats (s : Stats) : Json :=
  .object [("assignments", .number s.assignments), ("auxiliary_wires", .number s.auxiliaryWires),
    ("skipped_cells", tally s.skippedCells), ("skipped_lines", .number s.skippedLines),
    ("translated", tally s.translated), ("wires", .number s.wires)]

/-- A file: its findings and, if flattening succeeded, the statistics. -/
def file (path : Text) (findings : List Diagnostic) (result : Option Stats) : Json :=
  .object [("diagnostics", .array (findings.map diagnostic)),
    ("file", .string (String.ofList path)), ("ok", .bool result.isSome),
    ("stats", (result.map stats).getD .null)]

end NetFlat.Report
