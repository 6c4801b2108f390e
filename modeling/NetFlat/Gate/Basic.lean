import NetFlat.Cell
import NetFlat.Failure

/-!
# Gates

A gate is a named instance of a catalog cell whose connections name each pin of the cell once, in
any order.
-/

namespace NetFlat

/-- A pin, the reference that it is connected to, and the line of the connection. -/
structure Connection where
  pin : Text
  reference : Text
  line : Line
deriving DecidableEq

/-- An instance of a cell. -/
structure Gate where
  cell : Cell
  name : Text
  connections : List Connection
  line : Line
deriving DecidableEq

/-- What is wrong with the connections of an instance. -/
inductive PinFault where
  | unknown (keyword pin : Text)
  | repeated (name pin : Text)
  | missing (keyword name pin : Text)
  | unclosed (pin : Text)
deriving DecidableEq

def PinFault.message : PinFault → String
  | .unknown keyword pin => s!"cell {Text.quoted keyword} has no pin {Text.quoted pin}"
  | .repeated name pin => s!"pin {Text.quoted pin} of {Text.quoted name} is connected twice"
  | .missing keyword name pin =>
    s!"{Text.quoted keyword} instance {Text.quoted name} does not connect pin {Text.quoted pin}"
  | .unclosed pin => s!"connection of pin {Text.quoted pin} is never closed"

def PinFault.toFailure (fault : PinFault) (line : Line) : Failure :=
  ⟨line, .malformedStatement fault.message⟩

namespace Gate

/-- The first connection to a pin that the cell lacks or that one of `seen` or an earlier
connection names already. -/
def misconnected? (cell : Cell) (name : Text) (seen : List Text) : List Connection → Option Failure
  | [] => none
  | c :: cs =>
    if c.pin ∉ cell.pins then some ((PinFault.unknown cell.keyword c.pin).toFailure c.line)
    else if c.pin ∈ seen then some ((PinFault.repeated name c.pin).toFailure c.line)
    else misconnected? cell name (c.pin :: seen) cs

/-- The gate with the given connections, which must name each pin of the cell once. -/
def ofConnections (cell : Cell) (name : Text) (connections : List Connection) (line : Line) :
    Except Failure Gate :=
  match misconnected? cell name [] connections with
  | some failure => .error failure
  | none =>
    match cell.pins.find? fun pin => connections.all (·.pin ≠ pin) with
    | some pin => .error ((PinFault.missing cell.keyword name pin).toFailure line)
    | none => .ok ⟨cell, name, connections, line⟩

def connection? (g : Gate) (pin : Text) : Option Connection := g.connections.find? (·.pin = pin)

/-- The connection of a pin, without which the gate is at fault. -/
def connection (g : Gate) (pin : Text) : Except Failure Connection :=
  match g.connection? pin with
  | some c => .ok c
  | none => .error ((PinFault.missing g.cell.keyword g.name pin).toFailure g.line)

end Gate

end NetFlat
