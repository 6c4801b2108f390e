import NetFlat.Proofs.Scan.Factoring

/-!
# When flattening succeeds

The outcome of flattening a file in terms of its items.

* `flatten_eq_ok_iff`: flattening succeeds exactly if the module is closed, its items are sound and
  the names that they use do not clash; the flat module and the statistics are then the effects of
  the items;
* `findings_of_flatten_eq_ok`: the findings of a successful run are those about the items;
* `flatten_eq_error_of_clash`: a closed module with sound items can fail by a clash only.
-/

namespace NetFlat

variable {config : Config} {file : SourceFile}

namespace SourceFile

def coded (file : SourceFile) : List (Text × Line) := file.lines.map Line.coded

def items (config : Config) (file : SourceFile) : List Item :=
  (Phase.seeking.read config file.coded).2

/-- The reader gets to the end of the configured module. -/
def Closes (config : Config) (file : SourceFile) : Prop :=
  (Phase.seeking.read config file.coded).1 = .closed

/-- The names that the items use, in the order of the file. -/
def uses (config : Config) (file : SourceFile) : List Scope.Use :=
  (file.items config).flatMap (Item.uses config)

/-- The gates that the instances of catalog cells are lowered to, in the order of the file. -/
def gates (config : Config) (file : SourceFile) : List Placed :=
  (file.items config).flatMap (Item.placed config)

def auxiliaries (config : Config) (file : SourceFile) : List Signal :=
  (file.gates config).filterMap Placed.auxiliary?

/-- The scalar wires that the module declares. -/
def wires (config : Config) (file : SourceFile) : List Signal :=
  (file.items config).flatMap Item.wires

end SourceFile

namespace Scan

/-- The scan that all items have had their effect on. -/
def finished (config : Config) (is : List Item) : Scan :=
  ((start config).effects config is).goto .closed

theorem running_start (config : Config) : (start config).Running := by
  intro f
  simp [start]

theorem failure?_eq_none_iff {last : Line} {s : Scan} :
    s.failure? config last = none ↔ s.phase = .closed := by
  unfold failure?
  cases s.phase <;> simp

theorem failure?_of_failed {last : Line} {s : Scan} {f : Failure} (h : s.phase = .failed f) :
    s.failure? config last = some f := by
  simp [failure?, h]

/-- The reader's phase of a file, and what its items make of a fresh scan. -/
theorem quiet_run (config : Config) (file : SourceFile) :
    (run config file.lines).quiet =
      (((file.items config).foldl (perform config) (start config)).settle
        (Phase.seeking.read config file.coded).1).quiet :=
  foldl_step (running_start config) file.lines

/-- The scan of a file comes to the end exactly if the module is closed and its items work off. -/
theorem phase_run_eq_closed_iff : (run config file.lines).phase = .closed ↔
    file.Closes config ∧ (∀ i ∈ file.items config, i.Sound config) ∧
      (start config).scope.ClashFree (file.uses config) := by
  rw [phase_eq_of_quiet_eq (quiet_run config file)]
  by_cases hs : ∀ i ∈ file.items config, i.Sound config
  · by_cases hc : (start config).scope.ClashFree (file.uses config)
    · rw [phase_eq_of_quiet_eq (quiet_settle_foldl_perform (running_start config) hs hc _)]
      exact ⟨fun h => ⟨h, hs, hc⟩, fun h => h.1⟩
    · obtain ⟨clash, line, hf⟩ := phase_foldl_perform_of_clash (running_start config) hs hc
      rw [settle_of_failed hf, hf]
      simp [hc]
  · have hns : ∃ i ∈ file.items config, ¬i.Sound config := by simpa using hs
    obtain ⟨f, hf⟩ := phase_foldl_perform_of_not_sound (running_start config) hns
    rw [settle_of_failed hf, hf]
    simp [hs]

/-- A scan that comes to the end has gathered the effects of the items. -/
theorem quiet_run_of_closed (h : (run config file.lines).phase = .closed) :
    (run config file.lines).quiet = (finished config (file.items config)).quiet := by
  obtain ⟨hcl, hs, hc⟩ := phase_run_eq_closed_iff.mp h
  rw [quiet_run, quiet_settle_foldl_perform (running_start config) hs hc, finished]
  rw [show (Phase.seeking.read config file.coded).1 = .closed from hcl]

end Scan

/-- **When flattening succeeds**, and with what. -/
theorem flatten_eq_ok_iff {f : Flattened} : (flatten config file).result = .ok f ↔
    file.Closes config ∧ (∀ i ∈ file.items config, i.Sound config) ∧
      (Scan.start config).scope.ClashFree (file.uses config) ∧
      f = (Scan.finished config (file.items config)).flattened config := by
  rw [← and_assoc (b := ∀ i ∈ _, _), ← and_assoc, and_assoc (b := ∀ i ∈ _, _),
    ← Scan.phase_run_eq_closed_iff]
  have hflat : (Scan.run config file.lines).phase = .closed →
      (Scan.run config file.lines).flattened config =
        (Scan.finished config (file.items config)).flattened config := by
    intro h
    show (Scan.run config file.lines).quiet.flattened config = _
    rw [Scan.quiet_run_of_closed h]
    rfl
  simp only [flatten, flattenLines]
  cases hf : (Scan.run config file.lines).failure? config (file.lines.getLast?.getD .none) with
  | none =>
    have hcl := Scan.failure?_eq_none_iff.mp hf
    rw [← hflat hcl]
    simp [hcl, eq_comm]
  | some failure =>
    have hcl : ¬(Scan.run config file.lines).phase = .closed := fun h => by
      rw [Scan.failure?_eq_none_iff.mpr h] at hf
      simp at hf
    simp [hcl]

/-- The findings of a run that succeeds are those about the items. -/
theorem findings_of_flatten_eq_ok {f : Flattened} (h : (flatten config file).result = .ok f) :
    (flatten config file).findings = (file.items config).flatMap (Item.findings config) := by
  obtain ⟨hcl, hs, hc, -⟩ := flatten_eq_ok_iff.mp h
  have hrun := Scan.phase_run_eq_closed_iff.mpr ⟨hcl, hs, hc⟩
  have hq : (Scan.run config file.lines).quiet.findings = _ :=
    congrArg Scan.findings (Scan.quiet_run_of_closed hrun)
  have hfind : (flatten config file).findings = (Scan.run config file.lines).findings := by
    simp only [flatten, flattenLines]
    split <;> rfl
  rw [hfind]
  exact hq.trans (List.nil_append _)

/-- A closed module with sound items fails by a clash of names only. -/
theorem flatten_eq_error_of_clash (hs : ∀ i ∈ file.items config, i.Sound config)
    (hc : ¬(Scan.start config).scope.ClashFree (file.uses config)) :
    ∃ (clash : Clash) (line : Line),
      (flatten config file).result = .error (clash.toFailure line) := by
  obtain ⟨clash, line, hf⟩ := Scan.phase_foldl_perform_of_clash (Scan.running_start config) hs hc
  have hp : (Scan.run config file.lines).phase = .failed (clash.toFailure line) := by
    rw [Scan.phase_eq_of_quiet_eq (Scan.quiet_run config file),
      Scan.settle_of_failed hf, hf]
  refine ⟨clash, line, ?_⟩
  simp only [flatten, flattenLines, Scan.failure?_of_failed hp]

/-! ### Names of a clash-free module -/

/-- No clash of names: the auxiliary wires are distinct, and no one of them is a port, a declared
wire, or a signal that a gate refers to. -/
theorem clashFree_uses_iff : (Scan.start config).scope.ClashFree (file.uses config) ↔
    (file.auxiliaries config).Nodup ∧ ∀ a ∈ file.auxiliaries config,
      (∀ p ∈ config.portSignals, p.1 ≠ a) ∧ a ∉ file.wires config ∧
        ∀ g ∈ file.gates config, a ∉ g.signals := by
  rw [Scope.clashFree_iff, SourceFile.uses, Item.declaredBy_uses, Item.referencedBy_uses,
    Item.registeredBy_uses]
  change (file.auxiliaries config).Nodup ∧ (∀ a ∈ file.auxiliaries config,
    _ ∧ a ∉ file.wires config ∧ a ∉ (file.gates config).flatMap Placed.signals) ∧ _ ↔ _
  simp only [Scope.classify?_eq_none_iff, Scan.start, List.not_mem_nil, not_false_eq_true,
    and_true, implies_true, List.mem_flatMap, not_exists, not_and]

/-! ### The parts of the outcome -/

namespace Scan

variable (is : List Item)

theorem flattened_finished : (finished config is).flattened config =
    ⟨.ofConfig config ((start config).scope.addAll (is.flatMap (Item.uses config))).wires
        ((is.flatMap (Item.placed config)).flatMap Placed.assignments),
      { is.foldl (Item.count config) {} with
        auxiliaryWires :=
          ((start config).scope.addAll (is.flatMap (Item.uses config))).auxiliaries.length
        assignments := ((is.flatMap (Item.placed config)).flatMap Placed.assignments).length
        wires := ((start config).scope.addAll (is.flatMap (Item.uses config))).wires.length }⟩ :=
  rfl

end Scan

section Parts

variable {f : Flattened}

theorem wires_of_flatten_eq_ok (h : (flatten config file).result = .ok f) :
    f.flat.wires = ((Scan.start config).scope.addAll (file.uses config)).wires := by
  obtain ⟨-, -, -, rfl⟩ := flatten_eq_ok_iff.mp h
  rfl

theorem assignments_of_flatten_eq_ok (h : (flatten config file).result = .ok f) :
    f.flat.assignments = (file.gates config).flatMap Placed.assignments := by
  obtain ⟨-, -, -, rfl⟩ := flatten_eq_ok_iff.mp h
  rfl

end Parts

/-! ### A sample -/

/-- A configuration with two bits on each side. -/
def sampleConfig : Config where
  toSettings := ⟨"top".toList, "in_array".toList, "out_array".toList, 2⟩
  valid := Settings.fault?_eq_none_iff.mp (by decide)

/-- A module with the given statements, each given by its lines. -/
def sampleModule (statements : List (List String)) : SourceFile :=
  ⟨0, "top.v", (["module top(in_array, out_array);"] ++ statements.flatten ++ ["endmodule"]).flatMap
    (·.toList ++ ['\n'])⟩

/-- A declared wire between two gates, each of which has an auxiliary wire. -/
def sampleStatements : List (List String) :=
  [["  wire n;"], ["  XNOR g0 (.A(in_array[0]),", "    .B(in_array[1]), .Z(n));"],
    ["  NOR g1 (.A(n), .B(1'b0), .Z(out_array[0]));"]]

/-- The module with these statements. -/
def sampleFile : SourceFile := sampleModule sampleStatements

theorem flatten_sampleFile : ∃ f, (flatten sampleConfig sampleFile).result = .ok f ∧
    f.flat.wires = ["n", "n_neg", "out_array_0_neg"].map (⟨String.toList ·⟩) ∧
    f.flat.assignments.length = 4 := by
  decide +kernel

end NetFlat
