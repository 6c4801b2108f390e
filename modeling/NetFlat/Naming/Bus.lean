import NetFlat.Config.Basic
import NetFlat.Signal
import NetFlat.Text.Numeral

/-!
# Buses and their scalar names

A run knows two port buses. Bit `i` of a bus is the scalar signal whose name is the bus name, an
underscore and the decimal numeral of `i`.
-/

namespace NetFlat

/-- Which of the two port buses. -/
inductive BusRole where
  | input | output
deriving DecidableEq, Repr

def scalarName (base : Text) (index : Nat) : Text := base ++ '_' :: Text.decimal index

/-- The bus name and the index that make up a scalar name. -/
def splitScalar? (name : Text) : Option (Text × Nat) :=
  match Text.cutLast? '_' name with
  | some (base, digits) =>
    if base.isEmpty then none else (Text.numeral? Text.bound32 digits).map fun i => (base, i)
  | none => none

namespace Config

def busName (c : Config) : BusRole → Text
  | .input => c.inputBus
  | .output => c.outputBus

def busRole? (c : Config) (name : Text) : Option BusRole :=
  if name = c.inputBus then some .input
  else if name = c.outputBus then some .output
  else none

def busMembers (c : Config) (role : BusRole) : List Signal :=
  (List.range c.width).map fun i => ⟨scalarName (c.busName role) i⟩

/-- The bits of the input bus, then those of the output bus. -/
def portSignals (c : Config) : List (Signal × SignalClass) :=
  (c.busMembers .input).map (·, .inputPort) ++ (c.busMembers .output).map (·, .outputPort)

theorem busRole?_eq_some_iff {c : Config} {name : Text} {role : BusRole} :
    c.busRole? name = some role ↔ name = c.busName role := by
  have h := c.valid.buses_ne
  cases role <;> simp only [busRole?, busName] <;> split <;> simp_all

end Config

theorem cutLast?_scalarName (base : Text) (i : Nat) :
    Text.cutLast? '_' (scalarName base i) = some (base, Text.decimal i) := by
  have hd : '_' ∉ Text.decimal i := fun h => by
    have := Nat.isDigit_of_mem_toDigits (by decide) (by decide) h
    simp at this
  have : Text.cut? '_' (scalarName base i).reverse =
      some ((Text.decimal i).reverse, base.reverse) := by
    rw [Text.cut?_eq_some_iff]
    simp [scalarName, hd]
  simp [Text.cutLast?, this]

theorem splitScalar?_scalarName {base : Text} {i : Nat} (hb : base ≠ []) (hi : i < Text.bound32) :
    splitScalar? (scalarName base i) = some (base, i) := by
  simp [splitScalar?, cutLast?_scalarName, hb, Text.numeral?_decimal hi]

end NetFlat
