import NetFlat.Text.Basic

/-!
# TOML values

The values of a TOML document. A table knows how it came to be, because that decides which later
lines may add to it.
-/

namespace NetFlat.Toml

/-- How a table came to be: written inline, by its own header, on the way to the table of a
header, or on the way to a dotted key. -/
inductive TableForm where
  | inline | header | implied | dotted
deriving DecidableEq, Repr

/-- A value. Of numbers with a fraction and of dates only the text is kept. -/
inductive Value where
  | string (t : Text)
  | integer (n : Int)
  | boolean (b : Bool)
  | float (t : Text)
  | moment (t : Text)
  | array (ofTables : Bool) (items : List Value)
  | table (form : TableForm) (entries : List (Text × Value))

/-- The keys of a table with their values, each key once. -/
abbrev Entries := List (Text × Value)

namespace Entries

def put (key : Text) (v : Value) : Entries → Entries
  | [] => [(key, v)]
  | (k, w) :: es => if k = key then (key, v) :: es else (k, w) :: put key v es

def add? (key : Text) (v : Value) (es : Entries) : Option Entries :=
  if (es.lookup key).isSome then none else some (es ++ [(key, v)])

/-- The table that a key leads to, and how to put a changed one back. A missing table is made, of
the form `missing`. Through arrays of tables the last table counts. -/
def enter? (missing : TableForm) (key : Text) (es : Entries) :
    Option (TableForm × Entries × (Entries → Entries)) :=
  match es.lookup key with
  | none => some (missing, [], fun sub => put key (.table missing sub) es)
  | some (.table form sub) => some (form, sub, fun sub => put key (.table form sub) es)
  | some (.array true items) =>
    match items.getLast? with
    | some (.table form sub) =>
      some (form, sub, fun sub => put key (.array true (items.dropLast ++ [.table form sub])) es)
    | _ => none
  | some _ => none

/-- Changes the table that the keys of a header lead to. -/
def changeAt? (f : Entries → Option Entries) : List Text → Entries → Option Entries
  | [], es => f es
  | k :: ks, es => do
    let (form, sub, back) ← enter? .implied k es
    if form = .inline then none
    else return back (← changeAt? f ks sub)

/-- Adds a value under a dotted key. The tables on the way must have come from dotted keys. -/
def addDotted? (v : Value) : List Text → Entries → Option Entries
  | [], _ => none
  | [k], es => add? k v es
  | k :: ks, es => do
    let (form, sub, back) ← enter? .dotted k es
    if form = .dotted then return back (← addDotted? v ks sub) else none

/-- Opens the table of a header. Only a table that other headers passed through may exist. -/
def openTable? (key : Text) (es : Entries) : Option Entries :=
  match es.lookup key with
  | none => some (es ++ [(key, .table .header [])])
  | some (.table .implied sub) => some (put key (.table .header sub) es)
  | some _ => none

/-- Opens a further table of an array of tables. -/
def openItem? (key : Text) (es : Entries) : Option Entries :=
  match es.lookup key with
  | none => some (es ++ [(key, .array true [.table .header []])])
  | some (.array true items) => some (put key (.array true (items ++ [.table .header []])) es)
  | some _ => none

end Entries

end NetFlat.Toml
