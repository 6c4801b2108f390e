import NetFlat.Expr.Basic

/-!
# Cells

The catalog of supported cells: the pins of a cell, its truth function, and the assignments that
take the place of a gate. A cell whose function ends in a negation of a binary operator goes
through an auxiliary wire.
-/

namespace NetFlat

/-- The function of a cell. -/
inductive CellKind where
  | inv | and | or | xor | xnor | nor
deriving DecidableEq, Repr

namespace CellKind

/-- The binary operator; none for an inverter. -/
def operator? : CellKind → Option BinaryOp
  | .inv => none
  | .and => some .and
  | .or | .nor => some .or
  | .xor | .xnor => some .xor

def isNegated : CellKind → Bool
  | .xnor | .nor => true
  | _ => false

/-- The written operator; the negation for an inverter. -/
def symbol (k : CellKind) : Char := (k.operator?.map BinaryOp.symbol).getD '~'

def arity (k : CellKind) : Nat := if k.operator?.isSome then 2 else 1

/-- The truth function. Inputs beyond the arity are ignored; the second input of a conjunction or
disjunction may be missing where the first one decides. -/
def reference? : CellKind → List Bool → Option Bool
  | .inv, a :: _ => some !a
  | .and, a :: rest => if a then rest.head? else some false
  | .or, a :: rest => if a then some true else rest.head?
  | .nor, a :: rest => if a then some false else rest.head?.map (!·)
  | .xor, a :: b :: _ => some (a != b)
  | .xnor, a :: b :: _ => some (a == b)
  | _, _ => none

end CellKind

/-- A row of the catalog: keyword, function, input pins and output pin. -/
structure Cell where
  keyword : Text
  kind : CellKind
  inputs : List Text
  output : Text
deriving DecidableEq, Repr

namespace Cell

/-- A row with the usual pins: `A` and, for two inputs, `B` to the output `Z`. -/
def standard (keyword : String) (kind : CellKind) : Cell :=
  ⟨keyword.toList, kind, if kind.arity = 1 then [['A']] else [['A'], ['B']], ['Z']⟩

def catalog : List Cell :=
  [standard "IV" .inv, standard "INV" .inv, standard "AND" .and, standard "OR" .or,
    standard "XOR" .xor, standard "XNOR" .xnor, standard "NOR" .nor]

def find? (keyword : Text) : Option Cell := catalog.find? (·.keyword = keyword)

def pins (c : Cell) : List Text := c.inputs ++ [c.output]

theorem length_inputs_of_find? {keyword : Text} {c : Cell} (h : find? keyword = some c) :
    c.inputs.length = c.kind.arity := by
  have : ∀ d ∈ catalog, d.inputs.length = d.kind.arity := by decide
  exact this c (List.mem_of_find?_eq_some h)

end Cell

/-- A cell function applied to operands, driving a signal. -/
structure Placed where
  kind : CellKind
  operands : List Expr
  output : Signal
deriving DecidableEq, Repr

namespace Placed

/-- The wire before the final negation, where there is one. -/
def auxiliary? (g : Placed) : Option Signal :=
  if g.kind.isNegated then some g.output.auxiliary else none

/-- The operator applied to the operands, before a final negation; none for a wrong number. -/
def core? (g : Placed) : Option Expr :=
  match g.kind.operator?, g.operands with
  | none, [a] => some (.not a)
  | some op, [a, b] => some (.binary op a b)
  | _, _ => none

/-- The assignments in place of the gate, that of the auxiliary wire first; none for a wrong
number of operands. -/
def expand? (g : Placed) : Option (List Assignment) :=
  g.core?.map fun e =>
    match g.auxiliary? with
    | none => [⟨g.output, e⟩]
    | some aux => [⟨aux, e⟩, ⟨g.output, .not (.signal aux)⟩]

/-- The assignments in place of the gate, none of them if the number of operands is wrong. -/
def assignments (g : Placed) : List Assignment := g.expand?.getD []

/-- The valuation gives the output the value of the truth function. -/
def Holds (v : Signal → Bool) (g : Placed) : Prop :=
  g.kind.reference? (g.operands.map (Expr.eval v)) = some (v g.output)

theorem expand?_isSome_iff {g : Placed} :
    g.expand?.isSome ↔ g.operands.length = g.kind.arity := by
  obtain ⟨kind, operands, output⟩ := g
  rcases operands with _ | ⟨a, _ | ⟨b, _ | ⟨c, l⟩⟩⟩ <;> cases kind <;>
    simp [expand?, core?, CellKind.operator?, CellKind.arity]

end Placed

end NetFlat
