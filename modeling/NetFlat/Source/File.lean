import NetFlat.Source.Span
import NetFlat.Text.Basic

/-!
# Source files

A source file is a text with a number and a path. Its lines are the pieces between line feeds,
each without the carriage return that may end it; a line feed at the end of the file opens no
further line. Offsets and columns count bytes, lines and columns start at 1.
-/

namespace NetFlat

/-- A line of a source file: its number, its text without the line end, and where it stands. -/
structure Line where
  number : Nat
  text : Text
  span : Span
deriving DecidableEq

/-- The line that stands for a place in a file without lines. -/
def Line.none : Line := ⟨0, [], .nowhere⟩

/-- The line, with a span that covers another line too. -/
def Line.reach (l m : Line) : Line := { l with span := l.span.reach m.span }

/-- A numbered text with the path that it came from. -/
structure SourceFile where
  id : Nat
  path : String
  content : Text

namespace SourceFile

/-- The text without the carriage return that may end it. -/
def dropReturn (t : Text) : Text := (Text.beforeLast? '\r' t).getD t

/-- The texts between line feeds; no last one if the text is empty or ends with a line feed. -/
def pieces (t : Text) : List Text :=
  let ts := t.splitOn '\n'
  if ts.getLast? = some [] then ts.dropLast else ts

/-- The lines made of `ts`, the first of them with the given number and offset. -/
def number (file : Nat) : Nat → Nat → List Text → List Line
  | _, _, [] => []
  | n, start, t :: ts =>
    ⟨n, dropReturn t, ⟨file, start, start + Text.byteSize (dropReturn t)⟩⟩ ::
      number file (n + 1) (start + Text.byteSize t + 1) ts

def lines (f : SourceFile) : List Line := number f.id 1 0 (pieces f.content)

def lineCount (f : SourceFile) : Nat := (pieces f.content).length

def line? (f : SourceFile) (n : Nat) : Option Line := if n = 0 then none else f.lines[n - 1]?

/-- The offsets at which the pieces `ts` start, the first of them at `start`. -/
def offsets : Nat → List Text → List Nat
  | _, [] => []
  | start, t :: ts => start :: offsets (start + Text.byteSize t + 1) ts

/-- The offsets at which a line starts or could start, zero the first of them. -/
def lineStarts (f : SourceFile) : List Nat := offsets 0 (f.content.splitOn '\n')

def position (f : SourceFile) (offset : Nat) : Nat × Nat :=
  let starts := f.lineStarts.filter (· ≤ offset)
  (starts.length, offset - starts.getLast?.getD 0 + 1)

def snippet? (f : SourceFile) (start stop : Nat) : Option Text := Text.slice? start stop f.content

end SourceFile

end NetFlat
