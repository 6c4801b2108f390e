import NetFlat.Cell
import NetFlat.Failure
import NetFlat.Log
import NetFlat.Naming.Bus
import NetFlat.Scope
import NetFlat.Stats

/-!
# The state of a scan

A scan walks over the lines of a file. It looks for the header of its module, waits for the
semicolon that ends the header, reads the statements of the body and ends at `endmodule` or with a
failure. Its state is the phase of this walk together with what was gathered on the way: the names
in use, the placed gates, counts, findings and log entries.
-/

namespace NetFlat

/-- What a declaration declares. -/
inductive DeclarationKind where
  | port (role : BusRole)
  | wire
deriving DecidableEq, Repr

/-- A declaration whose semicolon has not come yet: the text after its keyword, and its first line
with a span over all its lines. -/
structure OpenDeclaration where
  kind : DeclarationKind
  text : Text
  line : Line
deriving DecidableEq

def OpenDeclaration.extend (d : OpenDeclaration) (code : Text) (line : Line) : OpenDeclaration :=
  { d with text := d.text ++ ' ' :: code, line := d.line.reach line }

/-- An instance whose end has not come yet: keyword, name, its first line, and the code of all its
lines with the lines. -/
structure OpenGate where
  keyword : Text
  name : Text
  first : Line
  lines : List (Text × Line)
deriving DecidableEq

namespace OpenGate

def extend (g : OpenGate) (code : Text) (line : Line) : OpenGate :=
  { g with lines := g.lines ++ [(code, line)] }

/-- The first line, with a span up to the last one. -/
def location (g : OpenGate) : Line :=
  g.first.reach ((g.lines.getLast?.map (·.2)).getD g.first)

end OpenGate

/-- How far a scan has come. -/
inductive Phase where
  | seeking
  | header
  | body
  | declaration (d : OpenDeclaration)
  | gate (g : OpenGate)
  | closed
  | failed (f : Failure)
deriving DecidableEq

/-- The state of a scan. -/
structure Scan where
  phase : Phase
  scope : Scope
  placed : List Placed := []
  stats : Stats := {}
  findings : List Diagnostic := []
  log : List LogEntry := []

namespace Scan

def start (config : Config) : Scan :=
  { phase := .seeking, scope := { ports := config.portSignals } }

def goto (s : Scan) (phase : Phase) : Scan := { s with phase }

def fail (s : Scan) (f : Failure) : Scan := s.goto (.failed f)

def report (s : Scan) (d : Diagnostic) : Scan := { s with findings := s.findings ++ [d] }

def note (s : Scan) (level : LogLevel) (message : String) : Scan :=
  { s with log := s.log ++ [⟨level, "gateflat_netlist::scanner", message⟩] }

/-- The assignments of the gates placed so far. -/
def assignments (s : Scan) : List Assignment := s.placed.flatMap Placed.assignments

end Scan

end NetFlat
