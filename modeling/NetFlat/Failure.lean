import NetFlat.Diagnostic.Basic
import NetFlat.Source.File

/-!
# Failures

A failure ends the flattening of a file. It carries the line at which it arose, the span of which
may reach over the lines of a whole statement, and turns into a diagnostic.
-/

namespace NetFlat

/-- Why flattening stopped. -/
inductive Cause where
  | malformedStatement (reason : String)
  | unresolvedReference (reference : Text) (reason : String)
  | nameCollision (name : Text) (existing : String)
  | unexpectedEnd (expected : String)
deriving DecidableEq

/-- The line at which flattening stopped, and why. -/
structure Failure where
  line : Line
  cause : Cause
deriving DecidableEq

namespace Failure

/-- The number of the failure among the error codes. -/
def codeNumber (f : Failure) : Nat :=
  match f.cause with
  | .malformedStatement _ => 101
  | .unresolvedReference .. => 102
  | .nameCollision .. => 103
  | .unexpectedEnd _ => 104

def code (f : Failure) : Code := ⟨.error, f.codeNumber⟩

def message (f : Failure) : String :=
  match f.cause with
  | .malformedStatement reason => s!"line {f.line.number}: malformed statement: {reason}"
  | .unresolvedReference reference reason =>
    s!"line {f.line.number}: unresolved reference {Text.quoted reference}: {reason}"
  | .nameCollision name existing =>
    s!"line {f.line.number}: {Text.quoted name} clashes with an existing {existing}"
  | .unexpectedEnd expected => s!"unexpected end of input: {expected}"

def headline (f : Failure) : String :=
  match f.cause with
  | .malformedStatement _ => "malformed gate instance"
  | .unresolvedReference reference _ => s!"unresolved reference {Text.quoted reference}"
  | .nameCollision name _ => s!"name collision on {Text.quoted name}"
  | .unexpectedEnd _ => "unexpected end of input"

def remark (f : Failure) : String :=
  match f.cause with
  | .malformedStatement reason => reason
  | .unresolvedReference _ reason => reason
  | .nameCollision _ existing => s!"already in use as {existing}"
  | .unexpectedEnd expected => expected

/-- The diagnostic of the failure: the remark as a label, or as a note if there is no place for
one, and the text of the line as a note if there is a line. -/
def diagnostic (f : Failure) : Diagnostic :=
  let base : Diagnostic :=
    { severity := .error, code := f.code, message := f.headline, span := f.line.span }
  let marked :=
    if f.line.span.isNowhere then base.withNote f.remark else base.withPrimary f.line.span f.remark
  if f.line.number = 0 then marked
  else marked.withNote s!"line {f.line.number}: {String.ofList (Text.trim f.line.text)}"

end Failure

end NetFlat
