import NetFlat.Expr.Reading
import NetFlat.FlatModule.Basic
import NetFlat.Source.File

/-!
# Reading flat modules

The text of a flat module is read back line by line into the names that it declares and the
assignments as texts. The assignments are evaluated in their order over values of the names.
-/

namespace NetFlat

namespace FlatModule

/-- What the lines of a flat module say: the declared names, and the assignments as pairs of
texts. -/
structure Outline where
  inputs : List Text := []
  outputs : List Text := []
  wires : List Text := []
  assigns : List (Text × Text) := []
deriving DecidableEq, Repr

namespace Outline

/-- The lines of a text. A carriage return before a line feed does not count. -/
def lines (t : Text) : List Text :=
  let ts := t.splitOn '\n'
  ts.dropLast.map SourceFile.dropReturn ++ (ts.getLast?.toList.filter (· ≠ []))

def names (t : Text) : List Text := (t.splitOn ',').map Text.trim

/-- The names on a line that declares them with the keyword. -/
def declared? (keyword : String) (line : Text) : Option (List Text) :=
  ((Text.after? (keyword.toList ++ [' ']) line).bind (Text.beforeLast? ';')).map names

/-- The target and the expression of an assignment, given without its keyword. -/
def assignment? (t : Text) : Option (Text × Text) :=
  ((Text.beforeLast? ';' t).bind (Text.cutAt? " = ".toList)).map fun p => (Text.trim p.1, p.2)

/-- Takes a line in; `none` for a malformed assignment. Other lines are passed over. -/
def addLine? (o : Outline) (line : Text) : Option Outline :=
  match declared? "input" line with
  | some names => some { o with inputs := names }
  | none =>
    match declared? "output" line with
    | some names => some { o with outputs := names }
    | none =>
      match declared? "wire" line with
      | some names => some { o with wires := names }
      | none =>
        match Text.after? "assign ".toList line with
        | some rest => (assignment? rest).map fun a => { o with assigns := o.assigns ++ [a] }
        | none => some o

def read? (t : Text) : Option Outline := (lines t).foldlM addLine? {}

def assign? (v : Values) (a : Text × Text) : Option Values := do
  let value ← Formula.value? v a.2
  return v.set a.1 value

/-- The values after all assignments; `none` if one is malformed or reads a name without value. -/
def evaluate? (o : Outline) (v : Values) : Option Values := o.assigns.foldlM assign? v

end Outline

end FlatModule

end NetFlat
