import NetFlat.Proofs.Dialect.Lines
import NetFlat.Proofs.Scan.Places

/-!
# Lines reduced to their code

A scan of lines that are reduced to number and code goes through the same states as a scan of the
lines themselves, up to places: no decision, name or message depends on the comments, the white
space at the ends or the offsets of the lines.

* `Scan.reduce_step`: one line;
* `Scan.reduce_run`: a row of lines;
* `Scan.failure?_reduce`: the failure that the end of the lines is.
-/

namespace NetFlat

/-- The line reduced to its number and its code, at no place. -/
def Line.reduce (l : Line) : Line := ⟨l.number, l.code, .nowhere⟩

theorem Line.code_reduce (l : Line) : l.reduce.code = l.code := Dialect.code_code l.text

def Relocation.reduce : Relocation := ⟨Line.reduce, fun _ _ => rfl⟩

namespace Scan

variable {config : Config}

/-- The scan as far as it does not depend on places and on what is around the code of the lines. -/
def reduce (s : Scan) : Scan :=
  { s with
    phase := s.phase.relocate .reduce
    findings := s.findings.map Diagnostic.unplaced }

variable (s : Scan)

theorem reduce_goto (p : Phase) : (s.goto p).reduce = s.reduce.goto (p.relocate .reduce) := rfl

theorem reduce_fail (f : Failure) : (s.fail f).reduce = s.reduce.fail (f.relocate .reduce) := rfl

theorem reduce_report (d : Diagnostic) : (s.report d).reduce = s.reduce.report d.unplaced := by
  simp [report, reduce]

theorem reduce_skip (line : Line) : (s.skip line).reduce = s.reduce.skip line.reduce := by
  rw [skip, reduce_report]
  rfl

/-! ### Declarations -/

theorem mismatches_reduce (role : BusRole) (decl : Declaration) (line : Line) :
    mismatches config role decl line.reduce =
      (mismatches config role decl line).map Diagnostic.unplaced := by
  unfold mismatches
  split
  · rfl
  · rw [List.map_map]
    rfl

theorem reduce_declarePorts (role : BusRole) (decl : Declaration) (line : Line) :
    (s.declarePorts config role decl line).reduce =
      s.reduce.declarePorts config role decl line.reduce := by
  have hm : ({ s with findings := s.findings ++ mismatches config role decl line } : Scan).reduce =
      { s.reduce with
        findings := s.reduce.findings ++ mismatches config role decl line.reduce } := by
    simp [reduce, mismatches_reduce]
  rw [declarePorts_eq, declarePorts_eq]
  split
  · exact hm
  · rw [reduce_skip, hm]

theorem reduce_declareBusWire (line : Line) (name : Text) :
    (s.declareBusWire config line name).reduce =
      s.reduce.declareBusWire config line.reduce name := by
  unfold declareBusWire
  split
  · rfl
  · rw [reduce_report]
    rfl

theorem reduce_foldl_declareBusWire (line : Line) (names : List Text) :
    (names.foldl (declareBusWire config line) s).reduce =
      names.foldl (declareBusWire config line.reduce) s.reduce := by
  induction names generalizing s with
  | nil => rfl
  | cons name names ih => rw [List.foldl_cons, ih, reduce_declareBusWire, List.foldl_cons]

theorem reduce_declareWires (line : Line) (names : List Text) :
    (s.declareWires line names).reduce = s.reduce.declareWires line.reduce names := by
  induction names generalizing s with
  | nil => rfl
  | cons name names ih =>
    simp only [declareWires]
    rw [show s.reduce.scope = s.scope from rfl]
    cases s.scope.declare ⟨name⟩ with
    | ok scope => exact ih { s with scope }
    | error clash => rfl

theorem reduce_finishDeclaration (d : OpenDeclaration) :
    (s.finishDeclaration config d).reduce =
      s.reduce.finishDeclaration config (d.relocate .reduce) := by
  obtain ⟨kind, text, line⟩ := d
  simp only [finishDeclaration, OpenDeclaration.relocate]
  cases Declaration.read? text with
  | none => exact reduce_skip (s.goto .body) line
  | some decl =>
    cases kind with
    | port role => exact reduce_declarePorts (s.goto .body) role decl line
    | wire =>
      dsimp only
      split
      · exact reduce_foldl_declareBusWire (s.goto .body) line decl.names
      · exact reduce_declareWires (s.goto .body) line decl.names

/-! ### Instances -/

theorem reduce_skipGate (g : OpenGate) :
    (s.skipGate g).reduce = s.reduce.skipGate (g.relocate .reduce) := by
  simp only [skipGate, reduce_report, g.location_relocate]
  rfl

theorem reduce_finishGate (g : OpenGate) :
    (s.finishGate config g).reduce = s.reduce.finishGate config (g.relocate .reduce) := by
  simp only [finishGate]
  rw [show (g.relocate .reduce).keyword = g.keyword from rfl]
  cases Cell.find? g.keyword with
  | none => exact reduce_skipGate (s.goto .body) g
  | some cell =>
    dsimp only
    rw [placeGate_relocate, show (s.reduce.goto .body).scope = (s.goto .body).scope from rfl]
    cases placeGate config cell g (s.goto .body).scope <;> rfl

/-! ### Lines -/

theorem reduce_openDeclaration (kind : DeclarationKind) (keyword code : Text) (line : Line) :
    (s.openDeclaration config kind keyword code line).reduce =
      s.reduce.openDeclaration config kind keyword code line.reduce := by
  unfold openDeclaration
  split
  · exact reduce_finishDeclaration s _
  · rfl

theorem reduce_openGate (keyword name code : Text) (line : Line) :
    (s.openGate config keyword name code line).reduce =
      s.reduce.openGate config keyword name code line.reduce := by
  unfold openGate
  split
  · exact reduce_finishGate s _
  · rfl

theorem reduce_bodyLine (code : Text) (line : Line) :
    (s.bodyLine config code line).reduce = s.reduce.bodyLine config code line.reduce := by
  unfold bodyLine
  split
  · rfl
  dsimp only
  split
  · rfl
  split
  · exact s.reduce_openDeclaration ..
  split
  · exact s.reduce_openDeclaration ..
  split
  · exact s.reduce_openDeclaration ..
  rcases Dialect.gateHeader? code with _ | ⟨keyword, name⟩
  · exact s.reduce_skip line
  · exact s.reduce_openGate ..

/-- **One line.** A reduced line does to a reduced scan what the line does to the scan. -/
theorem reduce_step (line : Line) :
    (s.step config line).reduce = s.reduce.step config line.reduce := by
  simp only [step, show Dialect.code line.reduce.text = Dialect.code line.text from line.code_reduce]
  rw [show s.reduce.phase = s.phase.relocate .reduce from rfl]
  cases s.phase with
  | seeking =>
    simp only [Phase.relocate]
    split
    · rw [reduce_goto, Phase.headerPhase_relocate]
      rfl
    · rfl
  | header =>
    simp only [Phase.relocate]
    rw [reduce_goto, Phase.headerPhase_relocate]
  | body => exact s.reduce_bodyLine _ line
  | declaration d =>
    simp only [Phase.relocate]
    split
    · rfl
    split
    · rw [reduce_finishDeclaration, ← d.extend_relocate]
      rfl
    · rw [reduce_goto, Phase.relocate, ← d.extend_relocate]
      rfl
  | gate g =>
    simp only [Phase.relocate]
    split
    · rw [cutOff, reduce_fail, cutOff, g.location_relocate]
      rfl
    split
    · rw [reduce_finishGate, ← g.extend_relocate]
      rfl
    · rw [reduce_goto, Phase.relocate, ← g.extend_relocate]
      rfl
  | closed => rfl
  | failed f => rfl

/-- **A row of lines.** -/
theorem reduce_run (config : Config) (lines : List Line) :
    (run config lines).reduce = run config (lines.map Line.reduce) := by
  have h : ∀ s : Scan, (lines.foldl (step config) s).reduce =
      (lines.map Line.reduce).foldl (step config) s.reduce := by
    intro s
    induction lines generalizing s with
    | nil => rfl
    | cons line lines ih => rw [List.foldl_cons, ih, reduce_step, List.map_cons, List.foldl_cons]
  exact h (start config)

theorem failure?_reduce (last : Line) :
    s.reduce.failure? config last.reduce =
      (s.failure? config last).map (Failure.relocate .reduce) := by
  unfold failure?
  rw [show s.reduce.phase = s.phase.relocate .reduce from rfl]
  cases s.phase with
  | gate g =>
    simp only [Phase.relocate, g.location_relocate]
    rfl
  | seeking | header | body | declaration d | closed | failed f => rfl

end Scan

end NetFlat
