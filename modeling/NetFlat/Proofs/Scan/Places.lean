import NetFlat.Proofs.Gate.Places
import NetFlat.Proofs.Scan.Effect

/-!
# Places play no part in an item

Reading attributes statements to the lines that they stand on.  With the lines moved to other places
the same statements are read, and they have the same effect; only findings and failures, which are
left out here, tell the places.

* `Phase.read_relocate`: reading lines that stand elsewhere;
* `Item.uses_relocate`, `Item.placed_relocate`, `Item.sound_relocate_iff`, `Item.count_relocate`: the
  effect of an item that stands elsewhere;
* `Item.unplaced_findings_relocate`: the findings about it, their places apart.
-/

namespace NetFlat

variable (r : Relocation)

def OpenDeclaration.relocate (d : OpenDeclaration) : OpenDeclaration :=
  { d with line := r.line d.line }

def OpenGate.relocate (g : OpenGate) : OpenGate :=
  { g with first := r.line g.first, lines := g.lines.map fun p => (p.1, r.line p.2) }

/-- The phase, with what is open on other lines. -/
def Phase.relocate : Phase → Phase
  | .declaration d => .declaration (d.relocate r)
  | .gate g => .gate (g.relocate r)
  | .failed f => .failed (f.relocate r)
  | p => p

def Item.relocate : Item → Item
  | .declaration d => .declaration (d.relocate r)
  | .gate g => .gate (g.relocate r)
  | .other line => .other (r.line line)

theorem OpenDeclaration.extend_relocate (d : OpenDeclaration) (code : Text) (line : Line) :
    (d.relocate r).extend code (r.line line) = (d.extend code line).relocate r := by
  simp only [extend, relocate, r.line_reach]

namespace OpenGate

variable (g : OpenGate)

theorem extend_relocate (code : Text) (line : Line) :
    (g.relocate r).extend code (r.line line) = (g.extend code line).relocate r := by
  simp [extend, relocate]

theorem location_relocate : (g.relocate r).location = r.line g.location := by
  have hlast : ((g.lines.map fun p => (p.1, r.line p.2)).getLast?.map (·.2)).getD (r.line g.first) =
      r.line ((g.lines.getLast?.map (·.2)).getD g.first) := by
    rw [List.getLast?_map]
    cases g.lines.getLast? <;> rfl
  simp only [location, relocate, hlast, r.line_reach]

theorem placed?_relocate (config : Config) : (g.relocate r).placed? config = g.placed? config := by
  unfold placed?
  rw [location_relocate]
  simp only [relocate, Connection.read_relocate]
  cases Cell.find? g.keyword with
  | none => rfl
  | some cell =>
    cases Connection.read g.lines with
    | error f => rfl
    | ok cs =>
      change ((Gate.ofConnections cell g.name (cs.map (Connection.relocate r))
          (r.line g.location)).toOption.bind (Gate.resolve? config)) =
        (Gate.ofConnections cell g.name cs g.location).toOption.bind (Gate.resolve? config)
      rw [Gate.ofConnections_relocate]
      cases Gate.ofConnections cell g.name cs g.location with
      | error f => rfl
      | ok gate => exact gate.resolve?_relocate r

end OpenGate

theorem Scan.placeGate_relocate {config : Config} (cell : Cell) (g : OpenGate) (scope : Scope) :
    placeGate config cell (g.relocate r) scope =
      (placeGate config cell g scope).mapError (Failure.relocate r) := by
  unfold placeGate
  rw [OpenGate.location_relocate]
  simp only [OpenGate.relocate, Connection.read_relocate]
  cases Connection.read g.lines with
  | error f => rfl
  | ok cs =>
    change (Gate.ofConnections cell g.name (cs.map (Connection.relocate r)) (r.line g.location) >>= _)
      = ((Gate.ofConnections cell g.name cs g.location >>= _).mapError _)
    rw [Gate.ofConnections_relocate]
    cases Gate.ofConnections cell g.name cs g.location with
    | error f => rfl
    | ok gate => exact gate.place_relocate r scope
/-! ### Reading -/

namespace Phase

variable {r}

def relocateBoth (r : Relocation) (x : Phase × Option Item) : Phase × Option Item :=
  (x.1.relocate r, x.2.map (Item.relocate r))

theorem ofDeclaration_relocate (code : Text) (d : OpenDeclaration) :
    ofDeclaration code (d.relocate r) = relocateBoth r (ofDeclaration code d) := by
  unfold ofDeclaration
  split <;> rfl

theorem ofGate_relocate (code : Text) (g : OpenGate) :
    ofGate code (g.relocate r) = relocateBoth r (ofGate code g) := by
  unfold ofGate
  split <;> rfl

theorem ofBody_relocate (code : Text) (line : Line) :
    ofBody code (r.line line) = relocateBoth r (ofBody code line) := by
  simp only [ofBody]
  split
  · rfl
  split
  · rfl
  have hd (kind : DeclarationKind) (t : Text) :
      ofDeclaration code ⟨kind, t, r.line line⟩ = relocateBoth r (ofDeclaration code ⟨kind, t, line⟩) :=
    ofDeclaration_relocate code ⟨kind, t, line⟩
  split
  · exact hd _ _
  split
  · exact hd _ _
  split
  · exact hd _ _
  rcases Dialect.gateHeader? code with _ | ⟨keyword, name⟩
  · rfl
  · exact ofGate_relocate code ⟨keyword, name, line, [(code, line)]⟩

theorem headerPhase_relocate (code : Text) :
    (Scan.headerPhase code).relocate r = Scan.headerPhase code := by
  unfold Scan.headerPhase
  split <;> rfl

theorem advance_relocate (config : Config) (code : Text) (line : Line) (p : Phase) :
    (p.relocate r).advance config code (r.line line) =
      relocateBoth r (p.advance config code line) := by
  cases p with
  | seeking =>
    change ((if _ then _ else _), none) = ((if _ then _ else _ : Phase).relocate r, none)
    split
    · rw [headerPhase_relocate]
    · rfl
  | header =>
    change (Scan.headerPhase code, none) = ((Scan.headerPhase code).relocate r, none)
    rw [headerPhase_relocate]
  | body => exact ofBody_relocate code line
  | declaration d =>
    simp only [relocate, advance]
    split
    · rfl
    · rw [d.extend_relocate, ofDeclaration_relocate]
  | gate g =>
    simp only [relocate, advance]
    split
    · simp only [relocateBoth, relocate, Failure.relocate, g.location_relocate, Option.map_none]
      rfl
    · rw [g.extend_relocate, ofGate_relocate]
  | closed => rfl
  | failed f => rfl

/-- **Reading elsewhere.** Lines that stand elsewhere make the same items, elsewhere. -/
theorem read_relocate (config : Config) (p : Phase) (ls : List (Text × Line)) :
    (p.relocate r).read config (ls.map fun l => (l.1, r.line l.2)) =
      ((p.read config ls).1.relocate r, (p.read config ls).2.map (Item.relocate r)) := by
  induction ls generalizing p with
  | nil => rfl
  | cons l ls ih =>
    simp only [List.map_cons, read, advance_relocate, relocateBoth, ih, List.map_append]
    cases (p.advance config l.1 l.2).2 <;> rfl

end Phase

/-! ### Effects -/

def Diagnostic.unplaced (d : Diagnostic) : Diagnostic :=
  { d with span := .nowhere, labels := d.labels.map fun l => { l with span := .nowhere } }

namespace Item

variable {r} (config : Config) (i : Item)

theorem wires_relocate : (i.relocate r).wires = i.wires := by cases i <;> rfl

theorem placed_relocate : (i.relocate r).placed config = i.placed config := by
  cases i with
  | gate g => simp only [relocate, placed, g.placed?_relocate]
  | declaration d | other line => rfl

theorem uses_relocate : (i.relocate r).uses config = i.uses config := by
  rw [uses, uses, wires_relocate, placed_relocate]

theorem sound_relocate_iff : (i.relocate r).Sound config ↔ i.Sound config := by
  cases i with
  | gate g =>
    simp only [relocate, Sound, g.placed?_relocate]
    rfl
  | declaration d | other line => rfl

theorem count_relocate (stats : Stats) : (i.relocate r).count config stats = i.count config stats := by
  cases i <;> rfl

theorem unplaced_declarationFindings_relocate (d : OpenDeclaration) :
    (declarationFindings config (d.relocate r)).map Diagnostic.unplaced =
      (declarationFindings config d).map Diagnostic.unplaced := by
  have hbus (l m : Line) (name : Text) :
      (Scan.busWireFinding? config l name).map Diagnostic.unplaced =
        (Scan.busWireFinding? config m name).map Diagnostic.unplaced := by
    unfold Scan.busWireFinding?
    split <;> rfl
  obtain ⟨kind, text, line⟩ := d
  simp only [declarationFindings, OpenDeclaration.relocate]
  cases Declaration.read? text with
  | none => rfl
  | some decl =>
    rcases kind with role | _
    · dsimp only
      unfold Scan.mismatches
      split
      · rfl
      · rw [List.map_map, List.map_map]
        rfl
    · dsimp only
      split
      · simp only [List.map_filterMap, hbus _ line]
      · rfl

/-- The findings about an item do not depend on its lines, places apart. -/
theorem unplaced_findings_relocate :
    ((i.relocate r).findings config).map Diagnostic.unplaced =
      (i.findings config).map Diagnostic.unplaced := by
  cases i with
  | gate g =>
    rw [relocate, findings, findings, show (g.relocate r).keyword = g.keyword from rfl]
    split <;> rfl
  | other line => rfl
  | declaration d =>
    have hskip : isSkipped config (.declaration (d.relocate r)) =
        isSkipped config (.declaration d) := rfl
    rw [relocate, findings, findings, List.map_append, List.map_append,
      unplaced_declarationFindings_relocate, hskip]
    split <;> rfl

end Item

end NetFlat
