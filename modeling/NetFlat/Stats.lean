import NetFlat.Text.Numeral

/-!
# Statistics

Counts of the gates that a run took over and of what it skipped.
-/

namespace NetFlat

/-- Counts by keyword, each keyword once, in ascending order. -/
abbrev Tally := List (Text × Nat)

namespace Tally

def bump (keyword : Text) : Tally → Tally
  | [] => [(keyword, 1)]
  | (k, n) :: l =>
    if keyword < k then (keyword, 1) :: (k, n) :: l
    else if keyword = k then (k, n + 1) :: l
    else (k, n) :: bump keyword l

def count (t : Tally) (keyword : Text) : Nat := (t.lookup keyword).getD 0

def total (t : Tally) : Nat := t.foldr (fun p n => p.2 + n) 0

@[simp]
theorem total_nil : total [] = 0 := rfl

@[simp]
theorem total_cons (k : Text) (n : Nat) (t : Tally) : total ((k, n) :: t) = n + total t := rfl

@[simp]
theorem total_bump (keyword : Text) (t : Tally) : (bump keyword t).total = t.total + 1 := by
  induction t with
  | nil => simp [bump]
  | cons p t ih =>
    obtain ⟨k, n⟩ := p
    simp only [bump]
    split
    · simp only [total_cons]; omega
    · split <;> simp only [total_cons, ih] <;> omega

end Tally

/-- What a run did. -/
structure Stats where
  translated : Tally := []
  skippedCells : Tally := []
  skippedLines : Nat := 0
  auxiliaryWires : Nat := 0
  assignments : Nat := 0
  wires : Nat := 0
deriving DecidableEq, Repr

namespace Stats

def gates (s : Stats) : Nat := s.translated.total

def skipped (s : Stats) : Nat := s.skippedCells.total

def summary (s : Stats) : String :=
  s!"{s.gates} gate(s) -> {s.assignments} assignment(s), {s.wires} wire(s) " ++
    s!"({s.auxiliaryWires} auxiliary), {s.skipped} cell(s) skipped"

end Stats

end NetFlat
