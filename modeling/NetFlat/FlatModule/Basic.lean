import NetFlat.Expr.Basic
import NetFlat.Naming.Bus

/-!
# Flat modules

A flat module has scalar ports, scalar wires and assignments. Its text has one line for the
header, the inputs, the outputs, the wires if there are any, and each assignment.
-/

namespace NetFlat

/-- A module of scalar signals and assignments. -/
structure FlatModule where
  name : Text
  inputs : List Signal
  outputs : List Signal
  wires : List Signal
  assignments : List Assignment
deriving DecidableEq, Repr

namespace FlatModule

/-- The flat module with the configured name and ports. -/
def ofConfig (config : Config) (wires : List Signal) (assignments : List Assignment) : FlatModule :=
  ⟨config.moduleName, config.busMembers .input, config.busMembers .output, wires, assignments⟩

def listing (signals : List Signal) : Text := Text.join [',', ' '] (signals.map Signal.display)

def declaration (keyword : String) (signals : List Signal) : Text :=
  keyword.toList ++ ' ' :: listing signals ++ [';']

def lines (m : FlatModule) : List Text :=
  ("module ".toList ++ m.name ++ '(' :: listing (m.inputs ++ m.outputs) ++ ");".toList) ::
    declaration "input" m.inputs :: declaration "output" m.outputs ::
    ((if m.wires = [] then [] else [declaration "wire" m.wires]) ++
      m.assignments.map Assignment.display ++ ["endmodule".toList])

def render (m : FlatModule) : Text := m.lines.flatMap (· ++ ['\n'])

end FlatModule

end NetFlat
