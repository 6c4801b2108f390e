import NetFlat.Gate.Basic
import NetFlat.Naming.Reference
import NetFlat.Scope

/-!
# Placing gates

Placing a gate resolves its connections in the order of the catalog, inputs first, takes the names
into the scope, and registers the auxiliary wire of a negated cell.
-/

namespace NetFlat

def Clash.toFailure (clash : Clash) (line : Line) : Failure :=
  ⟨line, .nameCollision clash.signal.name clash.existing.words⟩

namespace Connection

/-- The failure that a fault in the reference is. -/
def unresolved (c : Connection) (fault : ReferenceFault) : Failure :=
  ⟨c.line, .unresolvedReference c.reference fault.message⟩

/-- Takes a signal that the connection refers to into the scope. -/
def enter (c : Connection) (a : Signal) (scope : Scope) : Except Failure Scope :=
  match scope.reference a with
  | .ok scope => .ok scope
  | .error clash => .error (clash.toFailure c.line)

def operand (config : Config) (c : Connection) (scope : Scope) : Except Failure (Expr × Scope) :=
  match config.operand c.reference with
  | .error fault => .error (c.unresolved fault)
  | .ok (.signal a) => (c.enter a scope).map fun scope => (.signal a, scope)
  | .ok e => .ok (e, scope)

def driven (config : Config) (c : Connection) (scope : Scope) : Except Failure (Signal × Scope) :=
  match config.resolve c.reference with
  | .error fault => .error (c.unresolved fault)
  | .ok a => (c.enter a scope).map fun scope => (a, scope)

end Connection

namespace Gate

def operands (config : Config) (g : Gate) :
    List Text → Scope → Except Failure (List Expr × Scope)
  | [], scope => .ok ([], scope)
  | pin :: pins, scope => do
    let c ← g.connection pin
    let (e, scope) ← c.operand config scope
    let (es, scope) ← operands config g pins scope
    return (e :: es, scope)

/-- The gate with its connections resolved, and the scope with its names. -/
def place (config : Config) (g : Gate) (scope : Scope) : Except Failure (Placed × Scope) := do
  let (operands, scope) ← g.operands config g.cell.inputs scope
  let c ← g.connection g.cell.output
  let (output, scope) ← c.driven config scope
  let placed : Placed := ⟨g.cell.kind, operands, output⟩
  match placed.auxiliary? with
  | none => return (placed, scope)
  | some aux =>
    match scope.register aux with
    | .ok scope => return (placed, scope)
    | .error clash => throw (clash.toFailure g.line)

end Gate

end NetFlat
