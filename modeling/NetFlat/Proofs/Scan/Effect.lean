import NetFlat.Proofs.Gate.Resolution
import NetFlat.Proofs.Scan.Items

/-!
# What an item does

The effect of an item on a scan, item by item and part by part: the names that it uses, the gate
that it places, the counts and the findings.  All of it but the clashes of names can be said of the
item alone.

* `quiet_perform_of_ok`: what a sound item does whose names are taken into the scope;
* `phase_perform_of_error`, `phase_perform_of_not_sound`: any other item fails, a sound one by a
  clash of names.
-/

namespace NetFlat

open Scope (Use)

namespace OpenGate

/-- The gate that the instance is lowered to, whatever names are in use; none for a cell that is
not in the catalog. -/
def placed? (config : Config) (g : OpenGate) : Option Placed := do
  let cell ← Cell.find? g.keyword
  let connections ← (Connection.read g.lines).toOption
  let gate ← (Gate.ofConnections cell g.name connections g.location).toOption
  gate.resolve? config

end OpenGate

namespace Scan

def skipNote (line : Line) : Diagnostic :=
  { severity := .note, code := ⟨.info, 302⟩, span := line.span,
    message := "line is not part of the supported netlist dialect and was skipped" }

/-- The finding that an instance is passed over. -/
def skippedGateNote (g : OpenGate) : Diagnostic :=
  let what := s!"unsupported {Text.quoted g.keyword} instance {Text.quoted g.name}"
  { severity := .note, code := ⟨.info, 301⟩, span := g.location.span, message := s!"skipped {what}" }

/-- The findings that a port declaration is not as wide as its bus. -/
def mismatches (config : Config) (role : BusRole) (decl : Declaration) (line : Line) :
    List Diagnostic :=
  if decl.width? = some config.width then []
  else
    (decl.names.filter fun name => config.busRole? name = some role).map
      (widthMismatch config decl line)

/-- The finding that a wire with a range is passed over, unless it names a port bus. -/
def busWireFinding? (config : Config) (line : Line) (name : Text) : Option Diagnostic :=
  if (config.busRole? name).isSome then none
  else some
    { severity := .warning, code := ⟨.warning, 202⟩, span := line.span,
      message := s!"bus wire {Text.quoted name} is not a port bus and is not flattened" }

end Scan

namespace Item

/-- The scalar wires that the item declares. -/
def wires : Item → List Signal
  | .declaration d =>
    match d.kind, Declaration.read? d.text with
    | .wire, some ⟨none, names⟩ => names.map Signal.mk
    | _, _ => []
  | _ => []

/-- The gate that the item places, if it does so. -/
def placed (config : Config) : Item → List Placed
  | .gate g => (g.placed? config).toList
  | _ => []

/-- The assignments that the item contributes. -/
def assignments (config : Config) (i : Item) : List Assignment :=
  (i.placed config).flatMap Placed.assignments

theorem flatMap_assignments (config : Config) (is : List Item) :
    (is.flatMap (placed config)).flatMap Placed.assignments = is.flatMap (assignments config) :=
  List.flatMap_assoc

def uses (config : Config) (i : Item) : List Use :=
  i.wires.map Use.declare ++ (i.placed config).flatMap Placed.uses

theorem declaredBy_uses (config : Config) (is : List Item) :
    Scope.declaredBy (is.flatMap (uses config)) = is.flatMap wires := by
  have hp (gs : List Placed) : Scope.declaredBy (gs.flatMap Placed.uses) = [] := by
    induction gs with
    | nil => rfl
    | cons g gs ih => rw [List.flatMap_cons, Scope.declaredBy_append, g.declaredBy_uses, ih]; rfl
  induction is with
  | nil => rfl
  | cons i is ih =>
    rw [List.flatMap_cons, List.flatMap_cons, Scope.declaredBy_append, ih, uses,
      Scope.declaredBy_append, hp]
    simp [Scope.declaredBy, Use.declared?, Function.comp_def]

theorem referencedBy_uses (config : Config) (is : List Item) :
    Scope.referencedBy (is.flatMap (uses config)) =
      (is.flatMap (placed config)).flatMap Placed.signals := by
  have hp (gs : List Placed) :
      Scope.referencedBy (gs.flatMap Placed.uses) = gs.flatMap Placed.signals := by
    induction gs with
    | nil => rfl
    | cons g gs ih =>
      rw [List.flatMap_cons, List.flatMap_cons, Scope.referencedBy_append, g.referencedBy_uses, ih]
  induction is with
  | nil => rfl
  | cons i is ih =>
    rw [List.flatMap_cons, List.flatMap_cons, List.flatMap_append, Scope.referencedBy_append, ih,
      uses, Scope.referencedBy_append, hp]
    simp [Scope.referencedBy, Use.referenced?, Function.comp_def]

theorem registeredBy_uses (config : Config) (is : List Item) :
    Scope.registeredBy (is.flatMap (uses config)) =
      (is.flatMap (placed config)).filterMap Placed.auxiliary? := by
  have hp (gs : List Placed) :
      Scope.registeredBy (gs.flatMap Placed.uses) = gs.filterMap Placed.auxiliary? := by
    induction gs with
    | nil => rfl
    | cons g gs ih =>
      rw [List.flatMap_cons, Scope.registeredBy_append, g.registeredBy_uses, ih]
      cases h : g.auxiliary? <;> simp [h]
  induction is with
  | nil => rfl
  | cons i is ih =>
    rw [List.flatMap_cons, List.flatMap_cons, List.filterMap_append, Scope.registeredBy_append, ih,
      uses, Scope.registeredBy_append, hp]
    simp [Scope.registeredBy, Use.registered?, Function.comp_def]

def isSkipped (config : Config) : Item → Bool
  | .declaration d =>
    match d.kind, Declaration.read? d.text with
    | _, none => true
    | .port role, some decl => !decl.names.all fun name => config.busRole? name = some role
    | .wire, some _ => false
  | .gate _ => false
  | .other _ => true

def count (config : Config) (stats : Stats) : Item → Stats
  | .gate g =>
    if (Cell.find? g.keyword).isSome then
      { stats with translated := Tally.bump g.keyword stats.translated }
    else { stats with skippedCells := Tally.bump g.keyword stats.skippedCells }
  | i =>
    if i.isSkipped config then { stats with skippedLines := stats.skippedLines + 1 } else stats

/-- What is found about a declaration that was read. -/
def declarationFindings (config : Config) (d : OpenDeclaration) : List Diagnostic :=
  match d.kind, Declaration.read? d.text with
  | _, none => []
  | .port role, some decl => Scan.mismatches config role decl d.line
  | .wire, some decl =>
    if decl.range.isSome then decl.names.filterMap (Scan.busWireFinding? config d.line) else []

def findings (config : Config) : Item → List Diagnostic
  | .declaration d =>
    declarationFindings config d ++
      if isSkipped config (.declaration d) then [Scan.skipNote d.line] else []
  | .gate g => if (Cell.find? g.keyword).isSome then [] else [Scan.skippedGateNote g]
  | .other line => [Scan.skipNote line]

/-- What is found about a declaration that was read is a warning. -/
theorem category_of_mem_declarationFindings {config : Config} {d : OpenDeclaration}
    {finding : Diagnostic} (h : finding ∈ declarationFindings config d) :
    finding.code.category = .warning := by
  unfold declarationFindings at h
  split at h
  · simp at h
  · simp only [Scan.mismatches] at h
    split at h
    · simp at h
    · obtain ⟨name, -, rfl⟩ := List.mem_map.mp h
      rfl
  · split at h
    · obtain ⟨name, -, hname⟩ := List.mem_filterMap.mp h
      simp only [Scan.busWireFinding?, Option.ite_none_left_eq_some, Option.some.injEq] at hname
      rw [← hname.2]
    · simp at h

/-- The item is fit to be worked off, clashes of names apart: if its cell is in the catalog, its
connections are those of the cell and its references resolve. -/
def Sound (config : Config) : Item → Prop
  | .gate g => (Cell.find? g.keyword).isSome → (g.placed? config).isSome
  | _ => True

instance (config : Config) : (i : Item) → Decidable (i.Sound config)
  | .gate g => inferInstanceAs (Decidable (_ → (g.placed? config).isSome))
  | .declaration _ => .isTrue trivial
  | .other _ => .isTrue trivial

end Item

/-! ### Instances -/

theorem OpenGate.placed?_eq_some_iff {config : Config} {g : OpenGate} {cell : Cell} {p : Placed}
    (hc : Cell.find? g.keyword = some cell) : g.placed? config = some p ↔
      ∃ connections gate, Connection.read g.lines = .ok connections ∧
        Gate.ofConnections cell g.name connections g.location = .ok gate ∧
        gate.resolve? config = some p := by
  simp only [OpenGate.placed?, hc, Option.bind_eq_bind, Option.bind_some,
    Option.bind_eq_some_iff, toOption_eq_some_iff]
  constructor
  · rintro ⟨cs, hcs, gate, hg, hp⟩
    exact ⟨cs, gate, hcs, hg, hp⟩
  · rintro ⟨cs, gate, hcs, hg, hp⟩
    exact ⟨cs, hcs, gate, hg, hp⟩

namespace Scan

variable {config : Config} {g : OpenGate} {cell : Cell}

theorem placeGate_eq_ok_iff {p : Placed} {s t : Scope} (hc : Cell.find? g.keyword = some cell) :
    placeGate config cell g s = .ok (p, t) ↔
      g.placed? config = some p ∧ s.useAll p.uses = .ok t := by
  rw [OpenGate.placed?_eq_some_iff hc]
  simp only [placeGate, bind_eq_ok_iff, Gate.place_eq_ok_iff]
  constructor
  · rintro ⟨cs, hcs, gate, hg, hp, ht⟩
    exact ⟨⟨cs, gate, hcs, hg, hp⟩, ht⟩
  · rintro ⟨⟨cs, gate, hcs, hg, hp⟩, ht⟩
    exact ⟨cs, hcs, gate, hg, hp, ht⟩

theorem clash_of_placeGate_eq_error {p : Placed} {s : Scope} {f : Failure}
    (hc : Cell.find? g.keyword = some cell) (hp : g.placed? config = some p)
    (h : placeGate config cell g s = .error f) :
    ∃ (clash : Clash) (line : Line), f = clash.toFailure line := by
  obtain ⟨cs, gate, hcs, hg, hp⟩ := (OpenGate.placed?_eq_some_iff hc).mp hp
  simp only [placeGate, bind_eq_error_iff] at h
  rcases h with h | ⟨cs', hcs', h | ⟨gate', hg', h⟩⟩
  · simp [hcs] at h
  · obtain rfl := Except.ok.inj (hcs.symm.trans hcs')
    simp [hg] at h
  · obtain rfl := Except.ok.inj (hcs.symm.trans hcs')
    obtain rfl := Except.ok.inj (hg.symm.trans hg')
    exact Gate.clash_of_place_eq_error hp h

end Scan

/-! ### Working off -/

namespace Scan

def Running (s : Scan) : Prop := ∀ f, s.phase ≠ .failed f

/-- Works an item off, unless the scan has failed. -/
def perform (config : Config) (s : Scan) (i : Item) : Scan :=
  match s.phase, i with
  | .failed _, _ => s
  | _, .declaration d => s.finishDeclaration config d
  | _, .gate g => s.finishGate config g
  | _, .other line => (s.goto .body).skip line

def quiet (s : Scan) : Scan := { s with log := [] }

variable {config : Config} {s t : Scan}

theorem phase_eq_of_quiet_eq (h : s.quiet = t.quiet) : s.phase = t.phase := by
  show s.quiet.phase = t.quiet.phase
  rw [h]

theorem perform_of_failed {f : Failure} {i : Item} (h : s.phase = .failed f) :
    s.perform config i = s := by
  simp [perform, h]

theorem perform_of_running {i : Item} (h : s.Running) : s.perform config i =
    match i with
    | .declaration d => s.finishDeclaration config d
    | .gate g => s.finishGate config g
    | .other line => (s.goto .body).skip line := by
  unfold perform
  split
  · next f i hf => exact absurd hf (h _)
  · rfl
  · rfl
  · rfl

/-! ### Declarations -/

theorem foldl_report (ds : List Diagnostic) (s : Scan) :
    ds.foldl report s = { s with findings := s.findings ++ ds } := by
  induction ds generalizing s with
  | nil => simp
  | cons d ds ih => simp [ih, report]

theorem declarePorts_eq (role : BusRole) (decl : Declaration) (line : Line) (s : Scan) :
    s.declarePorts config role decl line =
      if decl.names.all fun name => config.busRole? name = some role then
        { s with findings := s.findings ++ mismatches config role decl line }
      else ({ s with findings := s.findings ++ mismatches config role decl line } : Scan).skip
        line := by
  rw [← foldl_report]
  unfold declarePorts mismatches
  split <;> simp [List.foldl_map]

theorem quiet_foldl_declareBusWire (line : Line) (names : List Text) (s : Scan) :
    (names.foldl (declareBusWire config line) s).quiet =
      { s.quiet with findings := s.findings ++ names.filterMap (busWireFinding? config line) } := by
  induction names generalizing s with
  | nil => simp [quiet]
  | cons name names ih =>
    rw [List.foldl_cons, ih]
    unfold declareBusWire
    split
    · next h => simp [busWireFinding?, h, note, quiet]
    · next h => simp [busWireFinding?, h, report, quiet]

theorem declareWires_of_ok {line : Line} {names : List Text} {scope : Scope}
    (h : s.scope.useAll (names.map fun name => .declare ⟨name⟩) = .ok scope) :
    s.declareWires line names = { s with scope } := by
  induction names generalizing s with
  | nil =>
    obtain rfl : s.scope = scope := Except.ok.inj h
    rfl
  | cons name names ih =>
    obtain ⟨scope', hd, h⟩ := bind_eq_ok_iff.mp h
    simp only [declareWires]
    rw [show s.scope.declare ⟨name⟩ = .ok scope' from hd]
    exact ih (s := { s with scope := scope' }) h

theorem declareWires_of_error (line : Line) {names : List Text} {clash : Clash}
    (h : s.scope.useAll (names.map fun name => .declare ⟨name⟩) = .error clash) :
    ∃ scope, s.declareWires line names =
      ({ s with scope } : Scan).fail (clash.toFailure line) := by
  induction names generalizing s with
  | nil => simp [Scope.useAll_nil] at h
  | cons name names ih =>
    simp only [declareWires]
    rcases bind_eq_error_iff.mp h with hd | ⟨scope', hd, h⟩
    · rw [show s.scope.declare ⟨name⟩ = .error clash from hd]
      exact ⟨s.scope, rfl⟩
    · rw [show s.scope.declare ⟨name⟩ = .ok scope' from hd]
      exact ih (s := { s with scope := scope' }) h

/-- The scan after an item that fails in no way, `scope` being the scope with its names. -/
def effect (config : Config) (i : Item) (scope : Scope) (s : Scan) : Scan :=
  { s with
    phase := .body, scope
    placed := s.placed ++ i.placed config
    stats := i.count config s.stats
    findings := s.findings ++ i.findings config }

theorem finishDeclaration_of_ok {d : OpenDeclaration} {scope : Scope}
    (h : s.scope.useAll ((Item.declaration d).uses config) = .ok scope) :
    (s.finishDeclaration config d).quiet =
      (s.effect config (.declaration d) scope).quiet := by
  obtain ⟨kind, text, line⟩ := d
  simp only [finishDeclaration]
  cases hr : Declaration.read? text with
  | none =>
    obtain rfl : s.scope = scope := by
      cases kind <;> simpa [Item.uses, Item.wires, Item.placed, hr, Scope.useAll_nil] using h
    cases kind <;> simp [effect, goto, skip, report, quiet, Item.placed, Item.count,
      Item.isSkipped, Item.findings, Item.declarationFindings, skipNote, hr]
  | some decl =>
    cases kind with
    | port role =>
      obtain rfl : s.scope = scope := by
        simpa [Item.uses, Item.wires, Item.placed, Scope.useAll_nil] using h
      simp only [declarePorts_eq]
      by_cases ho : (decl.names.all fun name => config.busRole? name = some role) = true
      · rw [if_pos ho]
        simp [effect, goto, quiet, Item.placed, Item.count, Item.isSkipped, Item.findings,
          Item.declarationFindings, hr, ho]
      · rw [if_neg ho]
        simp [effect, goto, skip, report, quiet, Item.placed, Item.count, Item.isSkipped,
          Item.findings, Item.declarationFindings, skipNote, hr, ho]
    | wire =>
      obtain ⟨range, names⟩ := decl
      cases range with
      | none =>
        have hw : s.scope.useAll (names.map fun name => .declare ⟨name⟩) = .ok scope := by
          simpa [Item.uses, Item.wires, Item.placed, hr, Function.comp_def] using h
        simp only [Option.isSome_none, Bool.false_eq_true, if_false]
        rw [declareWires_of_ok (s := s.goto .body) hw]
        simp [effect, goto, quiet, Item.placed, Item.count, Item.isSkipped, Item.findings,
          Item.declarationFindings, hr]
      | some range =>
        obtain rfl : s.scope = scope := by
          simpa [Item.uses, Item.wires, Item.placed, hr, Scope.useAll_nil] using h
        simp only [Option.isSome_some, if_true]
        rw [quiet_foldl_declareBusWire]
        simp [effect, goto, quiet, Item.placed, Item.count, Item.isSkipped, Item.findings,
          Item.declarationFindings, hr]

theorem finishDeclaration_of_error {d : OpenDeclaration} {clash : Clash}
    (h : s.scope.useAll ((Item.declaration d).uses config) = .error clash) :
    ∃ scope, s.finishDeclaration config d =
      ({ s with scope } : Scan).fail (clash.toFailure d.line) := by
  obtain ⟨kind, text, line⟩ := d
  simp only [finishDeclaration]
  have hu : ¬(Scope.useAll s.scope [] = .error clash) := by simp [Scope.useAll_nil]
  rcases hr : Declaration.read? text with _ | ⟨_ | range, names⟩
  · refine absurd ?_ hu
    cases kind <;> simpa [Item.uses, Item.wires, Item.placed, hr] using h
  · cases kind with
    | port role => exact absurd (by simpa [Item.uses, Item.wires, Item.placed] using h) hu
    | wire =>
      have hw : s.scope.useAll (names.map fun name => .declare ⟨name⟩) = .error clash := by
        simpa [Item.uses, Item.wires, Item.placed, hr, Function.comp_def] using h
      simp only [Option.isSome_none, Bool.false_eq_true, if_false]
      exact declareWires_of_error (s := s.goto .body) line hw
  · refine absurd ?_ hu
    cases kind <;> simpa [Item.uses, Item.wires, Item.placed, hr] using h

/-! ### Instances -/

theorem finishGate_of_none (hc : Cell.find? g.keyword = none) :
    s.finishGate config g = (s.goto .body).skipGate g := by
  simp [finishGate, hc]

theorem finishGate_of_error {f : Failure} (hc : Cell.find? g.keyword = some cell)
    (h : placeGate config cell g s.scope = .error f) : s.finishGate config g = s.fail f := by
  simp only [finishGate, hc]
  rw [show (s.goto .body).scope = s.scope from rfl, h]
  rfl

theorem finishGate_of_ok {p : Placed} {scope : Scope} (hc : Cell.find? g.keyword = some cell)
    (h : placeGate config cell g s.scope = .ok (p, scope)) :
    s.finishGate config g =
      { s with
        phase := .body, scope, placed := s.placed ++ [p]
        stats := { s.stats with translated := Tally.bump g.keyword s.stats.translated } } := by
  simp only [finishGate, hc]
  rw [show (s.goto .body).scope = s.scope from rfl, h]
  rfl

theorem quiet_finishGate_of_ok {scope : Scope} (hs : (Item.gate g).Sound config)
    (h : s.scope.useAll ((Item.gate g).uses config) = .ok scope) :
    (s.finishGate config g).quiet = (s.effect config (.gate g) scope).quiet := by
  cases hc : Cell.find? g.keyword with
  | none =>
    have hp : g.placed? config = none := by simp [OpenGate.placed?, hc]
    obtain rfl : s.scope = scope := by
      simpa [Item.uses, Item.wires, Item.placed, hp, Scope.useAll_nil] using h
    rw [finishGate_of_none hc]
    simp [effect, skipGate, goto, note, report, quiet, skippedGateNote, Item.placed, hp,
      Item.count, Item.findings, hc]
  | some cell =>
    obtain ⟨p, hp⟩ := Option.isSome_iff_exists.mp (hs (by simp [hc]))
    have hu : s.scope.useAll p.uses = .ok scope := by
      simpa [Item.uses, Item.wires, Item.placed, hp] using h
    rw [finishGate_of_ok hc ((placeGate_eq_ok_iff hc).mpr ⟨hp, hu⟩)]
    simp [effect, quiet, Item.placed, hp, Item.count, Item.findings, hc]

/-! ### Items -/

/-- **The effect of an item**, if it is sound and its names are taken into the scope. -/
theorem quiet_perform_of_ok {i : Item} {scope : Scope} (hr : s.Running) (hs : i.Sound config)
    (h : s.scope.useAll (i.uses config) = .ok scope) :
    (s.perform config i).quiet = (s.effect config i scope).quiet := by
  rw [perform_of_running hr]
  cases i with
  | declaration d => exact finishDeclaration_of_ok h
  | gate g => exact quiet_finishGate_of_ok hs h
  | other line =>
    obtain rfl : s.scope = scope := by
      simpa [Item.uses, Item.wires, Item.placed, Scope.useAll_nil] using h
    simp [effect, goto, skip, report, quiet, Item.placed, Item.count, Item.isSkipped,
      Item.findings, skipNote]

/-- **A sound item whose names clash** fails for that. -/
theorem phase_perform_of_error {i : Item} {clash : Clash} (hr : s.Running) (hs : i.Sound config)
    (h : s.scope.useAll (i.uses config) = .error clash) :
    ∃ (clash : Clash) (line : Line),
      (s.perform config i).phase = .failed (clash.toFailure line) := by
  rw [perform_of_running hr]
  cases i with
  | declaration d =>
    obtain ⟨scope, hd⟩ := finishDeclaration_of_error h
    exact ⟨clash, d.line, congrArg Scan.phase hd⟩
  | gate g =>
    cases hc : Cell.find? g.keyword with
    | none =>
      have hp : g.placed? config = none := by simp [OpenGate.placed?, hc]
      simp [Item.uses, Item.wires, Item.placed, hp, Scope.useAll_nil] at h
    | some cell =>
      obtain ⟨p, hp⟩ := Option.isSome_iff_exists.mp (hs (by simp [hc]))
      cases hg : placeGate config cell g s.scope with
      | ok r =>
        obtain ⟨p', scope⟩ := r
        obtain ⟨hp', hu⟩ := (placeGate_eq_ok_iff hc).mp hg
        obtain rfl := Option.some.inj (hp.symm.trans hp')
        simp [Item.uses, Item.wires, Item.placed, hp, hu] at h
      | error f =>
        obtain ⟨clash, line, rfl⟩ := clash_of_placeGate_eq_error hc hp hg
        refine ⟨clash, line, ?_⟩
        show (s.finishGate config g).phase = _
        rw [finishGate_of_error hc hg]
        rfl
  | other line => simp [Item.uses, Item.wires, Item.placed, Scope.useAll_nil] at h

theorem phase_perform_of_not_sound {i : Item} (hr : s.Running) (hs : ¬i.Sound config) :
    ∃ f, (s.perform config i).phase = .failed f := by
  rw [perform_of_running hr]
  cases i with
  | declaration d => exact absurd trivial hs
  | other line => exact absurd trivial hs
  | gate g =>
    simp only [Item.Sound, not_forall, Bool.not_eq_true, Option.isSome_eq_false_iff,
      Option.isNone_iff_eq_none, exists_prop] at hs
    obtain ⟨hc, hp⟩ := hs
    obtain ⟨cell, hc⟩ := Option.isSome_iff_exists.mp hc
    cases hg : placeGate config cell g s.scope with
    | ok r => simp [((placeGate_eq_ok_iff (p := r.1) (t := r.2) hc).mp hg).1] at hp
    | error f =>
      refine ⟨f, ?_⟩
      show (s.finishGate config g).phase = _
      rw [finishGate_of_error hc hg]
      rfl

end Scan

end NetFlat
