import NetFlat.Scan.Step

/-!
# The items of a module body

A scan does two things at a time: it cuts the lines of a file into items, and it works each item
off as soon as its last line has come.  This module holds the first of the two: `Phase.read` gives
the items that lines complete and the phase that they end in.  Names in use play no part in it.
-/

namespace NetFlat

/-- A piece of a module body that has an effect: a complete statement, or a line that is none. -/
inductive Item where
  | declaration (d : OpenDeclaration)
  | gate (g : OpenGate)
  | other (line : Line)
deriving DecidableEq

def Line.code (l : Line) : Text := Dialect.code l.text

def Line.coded (l : Line) : Text × Line := (Dialect.code l.text, l)

/-! ### Reading -/

namespace Phase

/-- A declaration after a line of it with the given code. -/
def ofDeclaration (code : Text) (d : OpenDeclaration) : Phase × Option Item :=
  if ';' ∈ code then (.body, some (.declaration d)) else (.declaration d, none)

/-- An instance after a line of it with the given code. -/
def ofGate (code : Text) (g : OpenGate) : Phase × Option Item :=
  if Dialect.endsStatement code then (.body, some (.gate g)) else (.gate g, none)

def ofBody (code : Text) (line : Line) : Phase × Option Item :=
  if code = [] ∨ Dialect.isAttribute code then (.body, none)
  else
    let word := Dialect.firstWord code
    let declared (kind : DeclarationKind) := ofDeclaration code ⟨kind, code.drop word.length, line⟩
    if word = "endmodule".toList then (.closed, none)
    else if word = "input".toList then declared (.port .input)
    else if word = "output".toList then declared (.port .output)
    else if word = "wire".toList then declared .wire
    else match Dialect.gateHeader? code with
      | some (keyword, name) => ofGate code ⟨keyword, name, line, [(code, line)]⟩
      | none => (.body, some (.other line))

/-- The phase after a line with the given code, and the item that the line completes. -/
def advance (config : Config) (code : Text) (line : Line) : Phase → Phase × Option Item
  | .seeking =>
    (if Dialect.moduleName? code = some config.moduleName then Scan.headerPhase code else .seeking,
      none)
  | .header => (Scan.headerPhase code, none)
  | .body => ofBody code line
  | .declaration d =>
    if Dialect.firstWord code = "endmodule".toList then
      (.failed ⟨d.line, .malformedStatement "declaration is not terminated before `endmodule`"⟩,
        none)
    else ofDeclaration code (d.extend code line)
  | .gate g =>
    if Dialect.firstWord code = "endmodule".toList then
      (.failed ⟨g.location,
        .malformedStatement s!"{Scan.gateWords g} is not terminated before `endmodule`"⟩, none)
    else ofGate code (g.extend code line)
  | .closed => (.closed, none)
  | .failed f => (.failed f, none)

/-- The phase after lines, each with its code, and the items that they complete. -/
def read (config : Config) : Phase → List (Text × Line) → Phase × List Item
  | p, [] => (p, [])
  | p, (code, line) :: lines =>
    let r := p.advance config code line
    let rest := read config r.1 lines
    (rest.1, r.2.toList ++ rest.2)

variable {config : Config}

theorem read_append (p : Phase) (ls ms : List (Text × Line)) :
    p.read config (ls ++ ms) = (((p.read config ls).1.read config ms).1,
      (p.read config ls).2 ++ ((p.read config ls).1.read config ms).2) := by
  induction ls generalizing p with
  | nil => rfl
  | cons l ls ih => simp [read, ih]

theorem read_failed (f : Failure) (ls : List (Text × Line)) :
    (Phase.failed f).read config ls = (.failed f, []) := by
  induction ls with
  | nil => rfl
  | cons l ls ih => simp [read, advance, ih]

theorem advance_eq_some {code : Text} {line : Line} {p q : Phase} {i : Item}
    (h : p.advance config code line = (q, some i)) : q = .body := by
  have hd : ∀ code d, ofDeclaration code d = (q, some i) → q = .body := by
    intro code d h
    unfold ofDeclaration at h
    split at h <;> simp_all
  have hg : ∀ code g, ofGate code g = (q, some i) → q = .body := by
    intro code g h
    unfold ofGate at h
    split at h <;> simp_all
  cases p with
  | seeking | header | closed | failed f => simp [advance] at h
  | body =>
    simp only [advance, ofBody] at h
    split at h
    · simp at h
    split at h
    · simp at h
    split at h
    · exact hd _ _ h
    split at h
    · exact hd _ _ h
    split at h
    · exact hd _ _ h
    split at h
    · exact hg _ _ h
    · simp_all
  | declaration d =>
    simp only [advance] at h
    split at h
    · simp at h
    · exact hd _ _ h
  | gate g =>
    simp only [advance] at h
    split at h
    · simp at h
    · exact hg _ _ h

end Phase

end NetFlat
