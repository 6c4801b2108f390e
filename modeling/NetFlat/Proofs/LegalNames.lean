import NetFlat.Proofs.Declarations
import NetFlat.Proofs.Gate.Wiring

/-!
# Legal names

The names in a flat module are as legal as those in the source.  References in brackets are checked,
and so is how a declared name begins; all else is taken over as it stands, also where it is no
name at all.

* `forall_isLegal_iff`: when all names in a flat module are legal;
* `ofNames_of_flatten_eq_error`: the failures of a module whose instances have their pins connected;
* `legal_names`: both, and what references are accepted.
-/

namespace NetFlat

variable {config : Config} {file : SourceFile} {f : Flattened}

/-! ### The gates of items -/

/-- The gate that the instance describes; none for a cell that is not in the catalog or for
connections that are not those of the cell. -/
def OpenGate.gate? (g : OpenGate) : Option Gate := do
  let cell ← Cell.find? g.keyword
  let connections ← (Connection.read g.lines).toOption
  (Gate.ofConnections cell g.name connections g.location).toOption

theorem OpenGate.placed?_eq (config : Config) (g : OpenGate) :
    g.placed? config = g.gate?.bind (Gate.resolve? config) := by
  simp only [placed?, gate?, Option.bind_eq_bind, Option.bind_assoc]

theorem OpenGate.wired_of_gate? {g : OpenGate} {gate : Gate} (h : g.gate? = some gate) :
    gate.Wired := by
  simp only [gate?, Option.bind_eq_bind, Option.bind_eq_some_iff, toOption_eq_some_iff] at h
  obtain ⟨cell, -, cs, -, hg⟩ := h
  exact Gate.wired_of_ofConnections hg

namespace Item

/-- The references at the pins of an instance. -/
def references : Item → List Text
  | .gate g => (g.gate?.toList.flatMap Gate.connections).map (·.reference)
  | _ => []

/-- If the item is an instance of a cell in the catalog, its connections are those of the cell. -/
def Connected : Item → Prop
  | .gate g => (Cell.find? g.keyword).isSome → g.gate?.isSome
  | _ => True

instance : (i : Item) → Decidable i.Connected
  | .gate g => inferInstanceAs (Decidable (_ → g.gate?.isSome))
  | .declaration _ => .isTrue trivial
  | .other _ => .isTrue trivial

theorem exists_placed_of_gate? {g : OpenGate} {gate : Gate} (hs : Sound config (.gate g))
    (hg : g.gate? = some gate) :
    ∃ p, gate.resolve? config = some p ∧ placed config (.gate g) = [p] := by
  have hc : (Cell.find? g.keyword).isSome := by
    cases hc : Cell.find? g.keyword with
    | none => simp [OpenGate.gate?, hc] at hg
    | some cell => rfl
  obtain ⟨p, hp⟩ := Option.isSome_iff_exists.mp (hs hc)
  refine ⟨p, ?_, by simp [placed, hp]⟩
  rwa [OpenGate.placed?_eq, hg, Option.bind_some] at hp

/-- The gates of a sound item have legal signals exactly if its references are legal. -/
theorem forall_isLegal_iff {i : Item} (hs : i.Sound config) :
    (∀ p ∈ i.placed config, ∀ a ∈ p.signals, a.IsLegal) ↔
      ∀ r ∈ i.references, (∃ b, Literal.read? r = some (.bit b)) ∨ config.NamesNet r := by
  cases i with
  | declaration d | other line => simp [placed, references]
  | gate g =>
    cases hg : g.gate? with
    | none => simp [placed, references, OpenGate.placed?_eq, hg]
    | some gate =>
      obtain ⟨p, hr, hp⟩ := exists_placed_of_gate? hs hg
      rw [hp]
      simpa [references, hg] using (OpenGate.wired_of_gate? hg).forall_isLegal_iff hr

theorem accepts_of_mem_references {i : Item} (hs : i.Sound config) {r : Text}
    (hr : r ∈ i.references) : config.Accepts r := by
  cases i with
  | declaration d | other line => simp [references] at hr
  | gate g =>
    cases hg : g.gate? with
    | none => simp [references, hg] at hr
    | some gate =>
      obtain ⟨p, hp, -⟩ := exists_placed_of_gate? hs hg
      obtain ⟨c, hc, rfl⟩ : ∃ c ∈ gate.connections, c.reference = r := by
        simpa [references, hg] using hr
      rw [Config.accepts_iff]
      exact ((OpenGate.wired_of_gate? hg).literal_or_signal hp hc).imp_right
        fun ⟨a, _, ha⟩ => ⟨a, ha⟩

end Item

/-- The references at the pins of the instances. -/
def SourceFile.references (config : Config) (file : SourceFile) : List Text :=
  (file.items config).flatMap Item.references

/-! ### Names of a flat module -/

/-- The name is that of a wire, or it stands in an assignment. -/
def FlatModule.Mentions (m : FlatModule) (a : Signal) : Prop :=
  a ∈ m.wires ∨ ∃ s ∈ m.assignments, a ∈ s.signals

theorem mentions_iff (h : (flatten config file).result = .ok f) {a : Signal} :
    f.flat.Mentions a ↔ (a ∈ file.wires config ∧ a ∉ config.ports) ∨
      (∃ g ∈ file.gates config, a ∈ g.signals) ∨ a ∈ file.auxiliaries config := by
  rw [FlatModule.Mentions, wires_of_flatten_eq_ok h, assignments_of_flatten_eq_ok h,
    mem_wires_addAll, mem_signals_assignments (fresh_gates_of_flatten_eq_ok h).lowered]
  constructor
  · rintro (⟨hd | hg, hp⟩ | hg)
    · exact .inl ⟨hd, hp⟩
    · exact .inr hg
    · exact .inr hg
  · rintro (⟨hd, hp⟩ | hg)
    · exact .inl ⟨.inl hd, hp⟩
    · exact .inr hg

/-- **When all names are legal**: the declared wires have to be, and the references have to be names,
bits of a bus or literals. -/
theorem forall_isLegal_iff (h : (flatten config file).result = .ok f) :
    (∀ a, f.flat.Mentions a → a.IsLegal) ↔ (∀ a ∈ file.wires config, a.IsLegal) ∧
      ∀ r ∈ file.references config,
        (∃ b, Literal.read? r = some (.bit b)) ∨ config.NamesNet r := by
  have hs := (flatten_eq_ok_iff.mp h).2.1
  have hrefs : (∀ g ∈ file.gates config, ∀ a ∈ g.signals, a.IsLegal) ↔
      ∀ r ∈ file.references config,
        (∃ b, Literal.read? r = some (.bit b)) ∨ config.NamesNet r := by
    simp only [SourceFile.gates, SourceFile.references, List.forall_mem_flatMap]
    exact forall₂_congr fun i hi => Item.forall_isLegal_iff (hs i hi)
  rw [← hrefs]
  constructor
  · intro hl
    refine ⟨fun a ha => ?_, fun g hg a ha => hl a ((mentions_iff h).mpr (.inr (.inl ⟨g, hg, ha⟩)))⟩
    by_cases hp : a ∈ config.ports
    · exact Config.isLegal_of_mem_ports hp
    · exact hl a ((mentions_iff h).mpr (.inl ⟨ha, hp⟩))
  · rintro ⟨hw, hg⟩ a ha
    rcases (mentions_iff h).mp ha with ⟨ha, -⟩ | ⟨g, hgm, ha⟩ | ha
    · exact hw a ha
    · exact hg g hgm a ha
    · obtain ⟨g, hgm, hx⟩ := List.mem_filterMap.mp ha
      obtain ⟨-, rfl⟩ := Placed.auxiliary?_eq_some_iff.mp hx
      exact (hg g hgm g.output (by simp [Placed.signals])).auxiliary

/-! ### Failures of a module with its pins connected -/

namespace Scan

variable {s : Scan} {e : Failure}

theorem ofNames_of_placeGate_eq_error {cell : Cell} {g : OpenGate} {scope : Scope}
    (hc : Cell.find? g.keyword = some cell) (hg : g.gate?.isSome)
    (h : placeGate config cell g scope = .error e) : e.OfNames := by
  obtain ⟨gate, hg⟩ := Option.isSome_iff_exists.mp hg
  have hw := OpenGate.wired_of_gate? hg
  simp only [OpenGate.gate?, hc, Option.bind_eq_bind, Option.bind_some, Option.bind_eq_some_iff,
    toOption_eq_some_iff] at hg
  obtain ⟨cs, hcs, hg⟩ := hg
  have hp : placeGate config cell g scope = gate.place config scope := by
    rw [placeGate, hcs]
    change (Gate.ofConnections cell g.name cs g.location >>= _) = _
    rw [hg]
    rfl
  exact hw.ofNames_of_place_eq_error (hp.symm.trans h)

/-- An item with its pins connected fails by a name, if it does. -/
theorem ofNames_of_phase_perform {i : Item} (hr : s.Running) (hc : i.Connected)
    (h : (s.perform config i).phase = .failed e) : e.OfNames := by
  by_cases hs : i.Sound config
  · cases hu : s.scope.useAll (i.uses config) with
    | ok scope =>
      have hb : (s.perform config i).phase = .body := congrArg phase (quiet_perform_of_ok hr hs hu)
      simp [hb] at h
    | error clash =>
      obtain ⟨clash, line, hf⟩ := phase_perform_of_error hr hs hu
      obtain rfl := Phase.failed.inj (hf.symm.trans h)
      exact clash.ofNames_toFailure line
  · cases i with
    | declaration d | other line => exact absurd trivial hs
    | gate g =>
      rw [perform_of_running hr] at h
      cases hk : Cell.find? g.keyword with
      | none => simp [Item.Sound, hk] at hs
      | some cell =>
        cases hp : placeGate config cell g s.scope with
        | ok r =>
          exact absurd (fun _ => by simp [((placeGate_eq_ok_iff hk).mp hp).1]) hs
        | error f =>
          simp only [finishGate_of_error hk hp] at h
          obtain rfl := Phase.failed.inj h
          exact ofNames_of_placeGate_eq_error hk (hc (by simp [hk])) hp

theorem ofNames_of_foldl_perform {is : List Item} (hr : s.Running) (hc : ∀ i ∈ is, i.Connected)
    (h : (is.foldl (perform config) s).phase = .failed e) : e.OfNames := by
  induction is generalizing s with
  | nil => exact absurd h (hr e)
  | cons i is ih =>
    rw [List.foldl_cons] at h
    rcases phase_perform config hr i with hb | ⟨f, hf⟩
    · exact ih (fun f => by simp [hb]) (fun j hj => hc j (by simp [hj])) h
    · rw [foldl_perform_of_failed hf] at h
      exact ofNames_of_phase_perform hr (hc i (by simp)) h

end Scan

/-- **The failures of a closed module** whose instances have their pins connected. -/
theorem ofNames_of_flatten_eq_error {e : Failure} (hcl : file.Closes config)
    (hc : ∀ i ∈ file.items config, i.Connected)
    (h : (flatten config file).result = .error e) : e.OfNames := by
  have hp := Scan.phase_eq_of_quiet_eq (Scan.quiet_run config file)
  rw [show (Phase.seeking.read config file.coded).1 = .closed from hcl] at hp
  by_cases hf : ∃ d, ((file.items config).foldl (Scan.perform config) (Scan.start config)).phase =
      .failed d
  -- an item that fails comes before the end of the module, so its failure is that of the file
  · obtain ⟨d, hd⟩ := hf
    rw [Scan.settle_of_failed hd, hd] at hp
    simp only [flatten, flattenLines, Scan.failure?_of_failed hp] at h
    obtain rfl := Except.error.inj h
    exact Scan.ofNames_of_foldl_perform (Scan.running_start config) hc hd
  · rw [Scan.settle_of_running fun d hd => hf ⟨d, hd⟩] at hp
    simp [flatten, flattenLines, Scan.failure?_eq_none_iff.mpr hp] at h

/-! ### Accepted references -/

theorem accepts_of_flatten_eq_ok (h : (flatten config file).result = .ok f) :
    ∀ r ∈ file.references config, config.Accepts r := by
  have hs := (flatten_eq_ok_iff.mp h).2.1
  intro r hr
  obtain ⟨i, hi, hr⟩ := List.mem_flatMap.mp hr
  exact Item.accepts_of_mem_references (hs i hi) hr

/-- **Legal names.** The references of a flattened file are accepted, and all names in its flat
module are legal exactly if the declared wires are and the references are literals, names or bits of
a bus.  A closed module with its pins connected is not flattened if it has a reference that is not
accepted, and then it fails by a reference or by a clash of names. -/
theorem legal_names (config : Config) (file : SourceFile) :
    (∀ f, (flatten config file).result = .ok f →
      (∀ r ∈ file.references config, config.Accepts r) ∧
      ((∀ a, f.flat.Mentions a → a.IsLegal) ↔ (∀ a ∈ file.wires config, a.IsLegal) ∧
        ∀ r ∈ file.references config,
          (∃ b, Literal.read? r = some (.bit b)) ∨ config.NamesNet r)) ∧
    (file.Closes config → (∀ i ∈ file.items config, i.Connected) →
      (∃ r ∈ file.references config, ¬config.Accepts r) →
      ∃ e, (flatten config file).result = .error e ∧ e.OfNames) := by
  refine ⟨fun f hf => ⟨accepts_of_flatten_eq_ok hf, forall_isLegal_iff hf⟩, ?_⟩
  rintro hcl hc ⟨r, hr, hra⟩
  cases h : (flatten config file).result with
  | ok f => exact absurd (accepts_of_flatten_eq_ok h r hr) hra
  | error e => exact ⟨e, rfl, ofNames_of_flatten_eq_error hcl hc h⟩

/-- A module with an operator in a reference. -/
def operatorFile : SourceFile :=
  sampleModule [["  IV g0 (.A(n & m), .Z(out_array[0]));"]]

theorem flatten_operatorFile : ∃ f, (flatten sampleConfig operatorFile).result = .ok f ∧
    f.flat.wires = [⟨"n & m".toList⟩] ∧
    f.flat.assignments = [⟨⟨"out_array_0".toList⟩, .not (.signal ⟨"n & m".toList⟩)⟩] := by
  decide +kernel

/-- A module with an operator in a reference with a bracket. -/
def bracketFile : SourceFile :=
  sampleModule [["  IV g0 (.A(in_array[0] & m), .Z(out_array[0]));"]]

/-- The operator is accepted, and it leaves an illegal name; with a bracket it is not accepted. -/
theorem legal_names_operatorFile :
    (∃ f, (flatten sampleConfig operatorFile).result = .ok f ∧
      sampleConfig.Accepts "n & m".toList ∧ ∃ a, f.flat.Mentions a ∧ ¬a.IsLegal) ∧
    ∃ e, (flatten sampleConfig bracketFile).result = .error e ∧ e.OfNames := by
  constructor
  · obtain ⟨f, hf, -⟩ := flatten_operatorFile
    have hr : "n & m".toList ∈ operatorFile.references sampleConfig := by decide +kernel
    obtain ⟨haccepts, hlegal⟩ := (legal_names sampleConfig operatorFile).1 f hf
    refine ⟨f, hf, haccepts _ hr, ?_⟩
    by_contra hl
    push Not at hl
    have hread : Literal.read? "n & m".toList = none := by decide +kernel
    rcases (hlegal.mp hl).2 _ hr with ⟨b, hb⟩ | hname | ⟨a, ha⟩
    · exact absurd (hread.symm.trans hb) (by simp)
    · exact absurd hname (by decide +kernel)
    · exact absurd ha.head.1 (by decide +kernel)
  · have hcl : bracketFile.Closes sampleConfig := by
      unfold SourceFile.Closes
      decide +kernel
    exact (legal_names sampleConfig bracketFile).2 hcl (by decide +kernel)
      ⟨"in_array[0] & m".toList, by decide +kernel, by decide +kernel⟩

/-- So what is no name can be one in the flat module. -/
theorem not_forall_mentions_isLegal :
    ¬∀ (config : Config) (file : SourceFile) (f : Flattened),
      (flatten config file).result = .ok f → ∀ a, f.flat.Mentions a → a.IsLegal := by
  intro h
  obtain ⟨f, hf, hw, -⟩ := flatten_operatorFile
  exact absurd (h _ _ f hf ⟨"n & m".toList⟩ (.inl (by simp [hw]))) (by decide)

end NetFlat
