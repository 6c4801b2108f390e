import NetFlat.Diagnostic.Basic
import NetFlat.Source.Collection

/-!
# Rendering diagnostics

A diagnostic is shown as a header, the place, the first line that it covers with a run of carets
below, and its notes and help. There is no rendering when a place lies in no known file or the
start of the span is no boundary of a character.
-/

namespace NetFlat.Diagnostic

/-- Severity and code, in the colour of the severity if colours are wanted. -/
def tag (color : Bool) (d : Diagnostic) : String :=
  let plain := s!"{d.severity.word}[{d.code.display}]"
  let paint := match d.severity with
    | .error => "\x1b[1;31m"
    | .warning => "\x1b[1;33m"
    | .note => "\x1b[1;36m"
  if color then paint ++ plain ++ "\x1b[0m" else plain

/-- The line around an offset, without the carriage returns that end it. -/
def lineAround? (content : Text) (offset : Nat) : Option Text := do
  let before ← Text.takeBytes? offset content
  let after ← Text.dropBytes? offset content
  let line := (before.reverse.takeWhile (· ≠ '\n')).reverse ++ after.takeWhile (· ≠ '\n')
  return (line.reverse.dropWhile (· = '\r')).reverse

def row (n : Nat) (c : Char) : String := String.ofList (List.replicate n c)

/-- The message of the first primary label, with a blank before it. -/
def primaryMessage (d : Diagnostic) : String :=
  match d.labels.find? (·.style = .primary) with
  | some l => " " ++ l.message
  | none => ""

/-- The lines that show where a finding stands. -/
def renderPlace? (sources : Sources) (d : Diagnostic) : Option String := do
  let place ← sources.resolve? d.span
  let file ← sources.file? d.span.file
  let (line, column) := file.position d.span.start
  let shown ← lineAround? file.content d.span.start
  let number := toString line
  let margin := row number.length ' '
  let indent := row (column - 1) ' '
  let carets := row (max 1 (min d.span.length (Text.byteSize shown - (column - 1)))) '^'
  let others := d.labels.filter fun l => l.style = .secondary && !l.span.isNowhere
  let remarks ← others.mapM fun l =>
    (sources.resolve? l.span).map fun spot => s!"{margin} = {l.message}: {spot.display}\n"
  return s!"  --> {place.display}\n{margin} |\n{number} | {String.ofList shown}\n" ++
    s!"{margin} | {indent}{carets}{d.primaryMessage}\n" ++
    String.join remarks

def render? (sources : Sources) (color : Bool) (d : Diagnostic) : Option String := do
  let place ← if d.span.isNowhere then some "" else d.renderPlace? sources
  return s!"{d.tag color}: {d.message}\n" ++ place ++
    String.join (d.notes.map fun n => s!"   = note: {n}\n") ++
    String.join (d.help.map fun h => s!"   = help: {h}\n")

end NetFlat.Diagnostic
