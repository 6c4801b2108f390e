import NetFlat.Signal

/-!
# Names in use

A scope keeps the names that a module uses: its ports, the wires that it declares, the signals
that its gates refer to and the auxiliary wires. An auxiliary wire must be new when it is
registered, and no name may later be used that an auxiliary wire has taken.
-/

namespace NetFlat

/-- A name is taken already, as a name of the class `existing`. -/
structure Clash where
  signal : Signal
  existing : SignalClass
deriving DecidableEq, Repr

/-- The names in use. -/
structure Scope where
  ports : List (Signal × SignalClass)
  declared : List Signal := []
  referenced : List Signal := []
  auxiliaries : List Signal := []
deriving DecidableEq, Repr

namespace Scope

/-- The class of a port; of a port listed twice the last class counts. -/
def portClass? (s : Scope) (a : Signal) : Option SignalClass := s.ports.reverse.lookup a

def classify? (s : Scope) (a : Signal) : Option SignalClass :=
  match s.portClass? a with
  | some c => some c
  | none =>
    if a ∈ s.auxiliaries then some .auxiliaryWire
    else if a ∈ s.declared ∨ a ∈ s.referenced then some .wire
    else none

def declare (s : Scope) (a : Signal) : Except Clash Scope :=
  if a ∈ s.auxiliaries then .error ⟨a, .auxiliaryWire⟩
  else .ok { s with declared := s.declared.insert a }

/-- Takes in a signal that a gate refers to. -/
def reference (s : Scope) (a : Signal) : Except Clash Scope :=
  if a ∈ s.auxiliaries then .error ⟨a, .auxiliaryWire⟩
  else .ok { s with referenced := s.referenced.insert a }

/-- Takes in an auxiliary wire, which must be new. It counts as referred to as well. -/
def register (s : Scope) (a : Signal) : Except Clash Scope :=
  match s.classify? a with
  | some c => .error ⟨a, c⟩
  | none => .ok { s with
      referenced := s.referenced.insert a
      auxiliaries := s.auxiliaries.insert a }

/-- The wires of the module: all names in use that are no ports, in ascending order. -/
def wires (s : Scope) : List Signal :=
  Signal.ordered <| (s.declared ++ s.referenced ++ s.auxiliaries).filter fun a =>
    (s.portClass? a).isNone

end Scope

end NetFlat
