import NetFlat.Gate.Basic

/-!
# Reading connections

The text of an instance holds, after its first bracket, connections of the form `.pin(reference)`.
Each character of the text is kept with the line that it stands on, so a connection knows the line
of its dot. A reference reaches to the bracket that closes the one before it; dots that start no
connection are passed over.
-/

namespace NetFlat

/-- A character and the line on which it stands. -/
structure Placement where
  char : Char
  line : Line
deriving DecidableEq

namespace Connection

/-- The characters of the lines of a statement, a line feed behind each line. -/
def placements (lines : List (Text × Line)) : List Placement :=
  lines.flatMap fun p => (p.1 ++ ['\n']).map fun c => ⟨c, p.2⟩

/-- A character of a pin name: a letter, a digit or an underscore. -/
def isPinChar (c : Char) : Bool := c.isAlphanum || c == '_'

/-- The characters up to the bracket that closes an open one, and what follows that bracket.
`depth` counts the brackets that were opened since. -/
def closing? : Nat → List Placement → Option (Text × List Placement)
  | _, [] => none
  | depth, p :: ps =>
    if p.char = '(' then (closing? (depth + 1) ps).map fun r => (p.char :: r.1, r.2)
    else if p.char = ')' then
      match depth with
      | 0 => some ([], ps)
      | depth + 1 => (closing? depth ps).map fun r => (p.char :: r.1, r.2)
    else (closing? depth ps).map fun r => (p.char :: r.1, r.2)

theorem length_of_closing? {depth : Nat} {ps rest : List Placement} {t : Text}
    (h : closing? depth ps = some (t, rest)) : rest.length < ps.length := by
  induction ps generalizing depth t with
  | nil => simp [closing?] at h
  | cons p ps ih =>
    simp only [closing?] at h
    split at h
    · obtain ⟨r, hr, e⟩ := Option.map_eq_some_iff.1 h
      obtain ⟨-, rfl⟩ := Prod.mk.injEq .. ▸ e
      exact Nat.lt_succ_of_lt (ih hr)
    · split at h
      · split at h
        · obtain ⟨-, rfl⟩ := Prod.mk.injEq .. ▸ Option.some.inj h
          simp
        · obtain ⟨r, hr, e⟩ := Option.map_eq_some_iff.1 h
          obtain ⟨-, rfl⟩ := Prod.mk.injEq .. ▸ e
          exact Nat.lt_succ_of_lt (ih hr)
      · obtain ⟨r, hr, e⟩ := Option.map_eq_some_iff.1 h
        obtain ⟨-, rfl⟩ := Prod.mk.injEq .. ▸ e
        exact Nat.lt_succ_of_lt (ih hr)

/-- What follows a dot. -/
inductive AfterDot where
  | connection (pin reference : Text) (rest : List Placement)
  | unclosed (pin : Text)
  | other

/-- Reads what follows a dot: a pin name, white space and a bracket make a connection. -/
def afterDot (ps : List Placement) : AfterDot :=
  let pin := (ps.takeWhile (isPinChar ·.char)).map (·.char)
  let rest := (ps.dropWhile (isPinChar ·.char)).dropWhile (Text.isAsciiBlank ·.char)
  match rest with
  | [] => .other
  | p :: inside =>
    if pin ≠ [] ∧ p.char = '(' then
      match closing? 0 inside with
      | some (reference, rest) => .connection pin (Text.trim reference) rest
      | none => .unclosed pin
    else .other

theorem length_of_afterDot {ps rest : List Placement} {pin reference : Text}
    (h : afterDot ps = .connection pin reference rest) : rest.length < ps.length := by
  simp only [afterDot] at h
  split at h
  · simp at h
  · next p inside hp =>
    split at h
    · split at h
      · next t r hc =>
        obtain ⟨-, -, rfl⟩ := AfterDot.connection.inj h
        have h₁ := length_of_closing? hc
        have h₂ : (p :: inside).length ≤ ps.length := by
          rw [← hp]
          exact ((List.dropWhile_sublist _).trans (List.dropWhile_sublist _)).length_le
        simp only [List.length_cons] at h₂
        omega
      · simp at h
    · simp at h

def readAll (ps : List Placement) : Except Failure (List Connection) :=
  match ps with
  | [] => .ok []
  | p :: ps =>
    if p.char = '.' then
      match h : afterDot ps with
      | .connection pin reference rest =>
        have : rest.length < ps.length := length_of_afterDot h
        (readAll rest).map (⟨pin, reference, p.line⟩ :: ·)
      | .unclosed pin => .error ((PinFault.unclosed pin).toFailure p.line)
      | .other => readAll ps
    else readAll ps
termination_by ps.length

/-- The connections of an instance, from its lines without comments. -/
def read (lines : List (Text × Line)) : Except Failure (List Connection) :=
  readAll ((placements lines).dropWhile (·.char ≠ '(')).tail

end Connection

end NetFlat
