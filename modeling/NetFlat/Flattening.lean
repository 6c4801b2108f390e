import NetFlat.FlatModule.Basic
import NetFlat.Scan.Step

/-!
# Flattening

Flattening a source file scans it for the configured module and renders the flat module made of
the wires and assignments found. Findings and log entries are kept also when it fails.
-/

namespace NetFlat

/-- What flattening yields when it succeeds: the flat module, its text, and the statistics. -/
structure Flattened where
  flat : FlatModule
  stats : Stats

def Flattened.text (f : Flattened) : Text := f.flat.render

/-- The whole outcome of flattening a file. -/
structure Flattening where
  result : Except Failure Flattened
  findings : List Diagnostic
  log : List LogEntry

/-- The findings, that of the failure last if flattening failed. -/
def Flattening.allFindings (f : Flattening) : List Diagnostic :=
  match f.result with
  | .ok _ => f.findings
  | .error failure => f.findings ++ [failure.diagnostic]

namespace Scan

/-- The flat module and the statistics of a scan that reached the end of its module. -/
def flattened (config : Config) (s : Scan) : Flattened :=
  let wires := s.scope.wires
  let assignments := s.assignments
  ⟨.ofConfig config wires assignments,
    { s.stats with
      auxiliaryWires := s.scope.auxiliaries.length
      assignments := assignments.length
      wires := wires.length }⟩

/-- The log entry of a scan that reached the end of its module. -/
def resultEntry (config : Config) (f : Flattened) : LogEntry :=
  ⟨.debug, "gateflat_netlist",
    s!"module {Text.quoted config.moduleName}: {f.stats.wires} wire(s), " ++
      s!"{f.stats.assignments} assignment(s)"⟩

end Scan

/-- Flattens the lines of a source file. -/
def flattenLines (config : Config) (lines : List Line) : Flattening :=
  let s := Scan.run config lines
  match s.failure? config (lines.getLast?.getD .none) with
  | some failure => ⟨.error failure, s.findings, s.log⟩
  | none =>
    let f := s.flattened config
    ⟨.ok f, s.findings, s.log ++ [Scan.resultEntry config f]⟩

def flatten (config : Config) (file : SourceFile) : Flattening := flattenLines config file.lines

end NetFlat
