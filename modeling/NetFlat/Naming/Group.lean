import NetFlat.Naming.Bus

/-!
# Grouping scalar names by bus

Scalar names are gathered into buses: a group for each bus name in the order of first appearance,
in it the first signal of each index, by ascending index. Names that are no scalar names are
passed over.
-/

namespace NetFlat

/-- The bits of a bus that were found, by ascending index. -/
structure BusGroup where
  base : Text
  members : List (Nat × Signal)
deriving DecidableEq, Repr

namespace BusGroup

/-- Puts a signal into its place, unless its index is there. -/
def insertMember (index : Nat) (a : Signal) : List (Nat × Signal) → List (Nat × Signal)
  | [] => [(index, a)]
  | m :: l =>
    if index < m.1 then (index, a) :: m :: l
    else if index = m.1 then m :: l
    else m :: insertMember index a l

/-- Puts a signal into the group of its bus, a new last one if there is none. -/
def insert (base : Text) (index : Nat) (a : Signal) : List BusGroup → List BusGroup
  | [] => [⟨base, [(index, a)]⟩]
  | g :: gs =>
    if g.base = base then { g with members := insertMember index a g.members } :: gs
    else g :: insert base index a gs

def add (gs : List BusGroup) (a : Signal) : List BusGroup :=
  match splitScalar? a.name with
  | some (base, index) => insert base index a gs
  | none => gs

def ofSignals (l : List Signal) : List BusGroup := l.foldl add []

def signals (g : BusGroup) : List Signal := g.members.map (·.2)

end BusGroup

end NetFlat
