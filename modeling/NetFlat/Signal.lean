import NetFlat.Text.Basic

/-!
# Signals

A signal is a net with a flat name. A name that begins with a backslash is escaped and is written
with a blank behind it, which ends it.
-/

namespace NetFlat

/-- A net with a flat name. -/
structure Signal where
  name : Text
deriving DecidableEq, Repr

namespace Signal

/-- Signals are ordered by their names, names character by character. -/
instance : LT Signal := ⟨fun a b => a.name < b.name⟩

instance (a b : Signal) : Decidable (a < b) := inferInstanceAs (Decidable (a.name < b.name))

def isEscaped (s : Signal) : Bool := s.name.head? == some '\\'

/-- The wire that carries the value before a final negation. -/
def auxiliary (s : Signal) : Signal := ⟨s.name ++ "_neg".toList⟩

def display (s : Signal) : Text := if s.isEscaped then s.name ++ [' '] else s.name

/-! ## Ordered lists -/

theorem lt_irrefl (a : Signal) : ¬a < a := List.lt_irrefl a.name

theorem lt_trans {a b c : Signal} (h : a < b) (h' : b < c) : a < c := List.lt_trans h h'

theorem eq_of_not_lt {a b : Signal} (h : ¬a < b) (h' : ¬b < a) : a = b := by
  cases a; cases b
  exact congrArg _ (List.le_antisymm h' h)

/-- The signals in ascending order, each as often as it is there. -/
def sorted (l : List Signal) : List Signal := l.mergeSort fun a b => !decide (b < a)

/-- Puts a signal into its place in an ascending list, unless it is there. -/
def insertOrdered (a : Signal) : List Signal → List Signal
  | [] => [a]
  | b :: l => if a < b then a :: b :: l else if a = b then b :: l else b :: insertOrdered a l

/-- The signals in ascending order, each once. -/
def ordered (l : List Signal) : List Signal := l.foldr insertOrdered []

theorem mem_insertOrdered {a b : Signal} {l : List Signal} :
    b ∈ insertOrdered a l ↔ b = a ∨ b ∈ l := by
  induction l with
  | nil => simp [insertOrdered]
  | cons c l ih =>
    simp only [insertOrdered]
    split
    · simp
    · split
      · next h => subst h; simp
      · simp only [List.mem_cons, ih, or_left_comm]

theorem mem_ordered {a : Signal} {l : List Signal} : a ∈ ordered l ↔ a ∈ l := by
  induction l with
  | nil => simp [ordered]
  | cons b l ih =>
    have : ordered (b :: l) = insertOrdered b (ordered l) := rfl
    rw [this, mem_insertOrdered, ih, List.mem_cons]

theorem pairwise_insertOrdered {a : Signal} {l : List Signal} (h : l.Pairwise (· < ·)) :
    (insertOrdered a l).Pairwise (· < ·) := by
  induction l with
  | nil => simp [insertOrdered]
  | cons b l ih =>
    obtain ⟨hb, hl⟩ := List.pairwise_cons.1 h
    simp only [insertOrdered]
    split
    · next hab =>
      refine List.pairwise_cons.2 ⟨fun c hc => ?_, h⟩
      rcases List.mem_cons.1 hc with rfl | hc
      · exact hab
      · exact lt_trans hab (hb c hc)
    · next hab =>
      split
      · exact h
      · next hne =>
        refine List.pairwise_cons.2 ⟨fun c hc => ?_, ih hl⟩
        rcases mem_insertOrdered.1 hc with rfl | hc
        · exact Decidable.byContradiction fun hba => hne (eq_of_not_lt hab hba)
        · exact hb c hc

theorem pairwise_ordered (l : List Signal) : (ordered l).Pairwise (· < ·) := by
  induction l with
  | nil => simp [ordered]
  | cons a l ih => exact pairwise_insertOrdered ih

end Signal

/-- What a name stands for in a flat module. -/
inductive SignalClass where
  | inputPort | outputPort | wire | auxiliaryWire
deriving DecidableEq, Repr

def SignalClass.words : SignalClass → String
  | .inputPort => "input port"
  | .outputPort => "output port"
  | .wire => "wire"
  | .auxiliaryWire => "auxiliary wire"

end NetFlat
