import NetFlat.Proofs.Locality
import NetFlat.Proofs.Reordering
import NetFlat.Proofs.Scan.Coverage

/-!
# Nothing is lost behind the header

In a flattened file the lines between the header and the end of the module are accounted for: the
items tile them, and each item has left a trace in the flat module or among the findings.  The line
that ends the header is not: what follows the semicolon on it is passed over, whatever it is.

* `Item.Accounted`: the trace of an item;
* `accounted_of_flatten_eq_ok`: every item of a flattened file has left one;
* `accounting`: the body, and the line that ends the header.
-/

namespace NetFlat

variable {config : Config} {file : SourceFile} {f : Flattened} {findings : List Diagnostic}

namespace Item

/-- The trace of a name that a declaration declares: a port is the bus of its role, or the line is
reported; a wire with a range is a bus, or it is reported; any other wire is a wire or a port of the
flat module. -/
def NameAccounted (config : Config) (f : Flattened) (findings : List Diagnostic)
    (d : OpenDeclaration) (range : Option (Nat × Nat)) (name : Text) : Prop :=
  match d.kind, range with
  | .port role, _ => config.busRole? name = some role ∨ Scan.skipNote d.line ∈ findings
  | .wire, some _ => (config.busRole? name).isSome = true ∨
      ∃ finding ∈ findings, Scan.busWireFinding? config d.line name = some finding
  | .wire, none => (⟨name⟩ : Signal) ∈ f.flat.inputs ++ f.flat.outputs ++ f.flat.wires

/-- The trace of an item: an instance is lowered to assignments of the flat module or reported, a
declaration is reported unless it is read and its names have left a trace, and any other line is
reported. -/
def Accounted (config : Config) (f : Flattened) (findings : List Diagnostic) : Item → Prop
  | .other line => Scan.skipNote line ∈ findings
  | .gate g =>
    if (Cell.find? g.keyword).isSome then
      ∃ p, g.placed? config = some p ∧ p.assignments ≠ [] ∧
        ∀ s ∈ p.assignments, s ∈ f.flat.assignments
    else Scan.skippedGateNote g ∈ findings
  | .declaration d =>
    match Declaration.read? d.text with
    | none => Scan.skipNote d.line ∈ findings
    | some decl => ∀ name ∈ decl.names, NameAccounted config f findings d decl.range name

theorem accounted_gate {g : OpenGate} (hs : Sound config (.gate g))
    (hf : ∀ d ∈ Item.findings config (.gate g), d ∈ findings)
    (hp : ∀ s ∈ assignments config (.gate g), s ∈ f.flat.assignments) :
    Accounted config f findings (.gate g) := by
  rw [Accounted]
  split
  · next hc =>
    obtain ⟨p, hg⟩ := Option.isSome_iff_exists.mp (hs hc)
    have hmem : p ∈ placed config (.gate g) := by simp [placed, hg]
    refine ⟨p, hg, fun he => ?_, fun s hs => hp s (List.mem_flatMap.mpr ⟨p, hmem, hs⟩)⟩
    have := length_assignments hmem
    rw [he] at this
    split at this <;> simp at this
  · next hc => exact hf _ (by simp [Item.findings, hc])

theorem accounted_declaration {d : OpenDeclaration}
    (hf : ∀ e ∈ Item.findings config (.declaration d), e ∈ findings)
    (hw : ∀ a ∈ wires (.declaration d), a ∈ f.flat.inputs ++ f.flat.outputs ++ f.flat.wires) :
    Accounted config f findings (.declaration d) := by
  obtain ⟨kind, text, line⟩ := d
  rw [Accounted]
  dsimp only
  rcases hr : Declaration.read? text with _ | ⟨range, names⟩
  · exact hf _ (by cases kind <;> simp [Item.findings, isSkipped, hr])
  intro name hn
  rcases kind with role | _
  · by_cases hall : (names.all fun name => config.busRole? name = some role) = true
    · exact .inl (of_decide_eq_true (List.all_eq_true.mp hall name hn))
    · exact .inr (hf _ (by simp [Item.findings, isSkipped, hr, hall]))
  · rcases range with _ | range
    · exact hw _ (by simp [wires, hr, hn])
    · by_cases hb : (config.busRole? name).isSome = true
      · exact .inl hb
      · obtain ⟨finding, hfound⟩ : ∃ finding, Scan.busWireFinding? config line name =
            some finding := by simp [Scan.busWireFinding?, hb]
        refine .inr ⟨finding, hf _ ?_, hfound⟩
        simp only [Item.findings, declarationFindings, hr, List.mem_append]
        exact .inl (List.mem_filterMap.mpr ⟨name, hn, hfound⟩)

end Item

/-- **Every item has left a trace.** -/
theorem accounted_of_flatten_eq_ok (h : (flatten config file).result = .ok f) :
    ∀ i ∈ file.items config, i.Accounted config f (flatten config file).findings := by
  intro i hi
  have hf : ∀ d ∈ i.findings config, d ∈ (flatten config file).findings := by
    intro d hd
    rw [findings_of_flatten_eq_ok h]
    exact List.mem_flatMap.mpr ⟨i, hi, hd⟩
  have hs := (flatten_eq_ok_iff.mp h).2.1
  cases i with
  | other line => exact hf _ (by simp [Item.findings])
  | gate g =>
    refine Item.accounted_gate (hs _ hi) hf fun s hsm => ?_
    rw [assignments_of_flatten_eq_ok h, SourceFile.gates, Item.flatMap_assignments]
    exact List.mem_flatMap.mpr ⟨_, hi, hsm⟩
  | declaration d =>
    refine Item.accounted_declaration hf fun a ha => ?_
    rw [ports_of_flatten_eq_ok h, wires_of_flatten_eq_ok h, List.mem_append, mem_wires_addAll]
    by_cases hp : a ∈ config.ports
    · exact .inl hp
    · exact .inr ⟨.inl (List.mem_flatMap.mpr ⟨_, hi, ha⟩), hp⟩

/-- **Accounting for a module.** A flattened file has a layout; its items tile the body, and each has
left a trace.  But the code of the line that ends the header may be any other code with a semicolon
that heads the module if it has to: the file is flattened to the same, with the same findings. -/
theorem accounting (h : (flatten config file).result = .ok f) :
    (∃ L : Layout, L.Fits config ∧ file.coded = L.lines) ∧
    ∀ L : Layout, L.Fits config → file.coded = L.lines →
      Tiles L.body (file.items config) ∧
      (∀ i ∈ file.items config, i.Accounted config f (flatten config file).findings) ∧
      ∀ entry, ';' ∈ entry → (L.opening = [] → Dialect.Heads config entry) →
        ∀ file', file'.lineCodes = L.before.map Prod.fst ++ (L.opening.map Prod.fst ++ [entry] ++
          L.body.map Prod.fst ++ [L.closing.1]) ++ L.after.map Prod.fst →
        (flatten config file').result = .ok f ∧
          (flatten config file').findings.map Diagnostic.unplaced =
            (flatten config file).findings.map Diagnostic.unplaced := by
  have hcl := (flatten_eq_ok_iff.mp h).1
  refine ⟨SourceFile.exists_layout hcl, fun L hL hl => ⟨hL.tiles hl hcl,
    accounted_of_flatten_eq_ok h, fun entry he hhead file' hl' => ?_⟩⟩
  have hheads : ∀ c ∈ (L.opening.map Prod.fst ++ [entry]).head?, Dialect.Heads config c := by
    have := hL.heads
    cases ho : L.opening with
    | nil => simpa using hhead ho
    | cons l ls => simpa [Layout.header, ho] using this
  exact flatten_eq_of_body h hL hl (hL.ofCodes (List.forall_mem_map.mpr hL.before) hheads
    (List.forall_mem_map.mpr hL.opening) he _) hl'

/-- A module with an instance on the line of its header. -/
def headerGateFile : SourceFile :=
  ⟨0, "top.v", ("module top(in_array, out_array); IV g0 (.A(in_array[0]), .Z(out_array[0]));\n" ++
    "endmodule\n").toList⟩

theorem flatten_headerGateFile : ∃ f, (flatten sampleConfig headerGateFile).result = .ok f ∧
    f.flat.assignments = [] := by
  decide +kernel

/-- The instance could as well not be there. -/
theorem accounting_headerGateFile : ∃ f, (flatten sampleConfig headerGateFile).result = .ok f ∧
    (flatten sampleConfig (sampleModule [])).result = .ok f := by
  obtain ⟨f, hf, -⟩ := flatten_headerGateFile
  let L : Layout := ⟨[], [], headerGateFile.coded.headD ([], .none), [],
    headerGateFile.coded.getLastD ([], .none), []⟩
  have hL : L.Fits sampleConfig :=
    ⟨by decide +kernel, by decide +kernel, by decide +kernel, by decide +kernel,
      by decide +kernel, by decide +kernel⟩
  obtain ⟨-, -, hentry⟩ := (accounting hf).2 L hL (by decide +kernel)
  refine ⟨f, hf, (hentry "module top(in_array, out_array);".toList (by decide +kernel)
    (fun _ => by decide +kernel) (sampleModule []) (by decide +kernel)).1⟩

/-- On a line of its own the instance is lowered to an assignment; behind the header it is lost, and
nothing is found. -/
theorem lost_of_headerGateFile :
    (blockAssignments sampleConfig
      ["IV g0 (.A(in_array[0]), .Z(out_array[0]));".toList]).length = 1 ∧
    (∃ f, (flatten sampleConfig headerGateFile).result = .ok f ∧ f.flat.assignments = []) ∧
    (flatten sampleConfig headerGateFile).findings = [] :=
  ⟨by decide +kernel, flatten_headerGateFile, by decide +kernel⟩

end NetFlat
