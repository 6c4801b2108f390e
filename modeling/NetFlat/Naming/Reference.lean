import NetFlat.Expr.Basic
import NetFlat.Naming.Bus
import NetFlat.Naming.Literal

/-!
# References

What stands in the brackets of a pin connection refers to a signal or, on an input pin, may be a
one-bit literal. A bracketed index is allowed on the two port buses only and becomes the scalar
name of the bit; every other reference is a flat name already.
-/

namespace NetFlat

/-- Why a reference names no signal. -/
inductive ReferenceFault where
  | empty
  | unknownBus (base : Text)
  | outOfRange (base : Text) (index width : Nat)
  | malformed (raw : Text)
  | constant (raw : Text)
  | unsupportedConstant (raw : Text)
deriving DecidableEq, Repr

def ReferenceFault.message : ReferenceFault → String
  | .empty => "empty reference"
  | .unknownBus base => s!"{Text.quoted base} is not a configured bus"
  | .outOfRange base index width =>
    s!"index {index} is outside {String.ofList base}[0..{width}]"
  | .malformed raw => s!"{Text.quoted raw} is not a single-bit bus reference"
  | .constant raw => s!"constant {Text.quoted raw} cannot be driven"
  | .unsupportedConstant raw => s!"{Text.quoted raw} is not a one-bit 0 or 1 constant"

namespace Config

/-- The bit of a bus that the index text `index` selects; `raw` is the whole reference. -/
def bit (c : Config) (raw base index : Text) : Except ReferenceFault Signal :=
  if (c.busRole? base).isNone then .error (.unknownBus base)
  else match Text.numeral? Text.bound64 index with
    | none => .error (.malformed raw)
    | some i =>
      if i < c.width then .ok ⟨scalarName base i⟩ else .error (.outOfRange base i c.width)

/-- The signal that a trimmed reference with a bracket names. -/
def indexed (c : Config) (t : Text) : Except ReferenceFault Signal :=
  match Text.cut? '[' t with
  | none => .error (.malformed t)
  | some (base, rest) =>
    match Text.beforeLast? ']' rest with
    | none => .error (.malformed t)
    | some index => c.bit t (Text.trimEnd base) (Text.trim index)

def resolve (c : Config) (raw : Text) : Except ReferenceFault Signal :=
  let t := Text.trim raw
  if t = [] then .error .empty
  else if (Literal.read? t).isSome then .error (.constant t)
  else if t.head? = some '\\' ∨ '[' ∉ t then .ok ⟨t⟩
  else c.indexed t

/-- The operand that a reference on an input pin stands for: a literal or a signal. -/
def operand (c : Config) (raw : Text) : Except ReferenceFault Expr :=
  match Literal.read? raw with
  | some (.bit value) => .ok (.const value)
  | some .unsupported => .error (.unsupportedConstant (Text.trim raw))
  | none => (c.resolve raw).map .signal

end Config

end NetFlat
