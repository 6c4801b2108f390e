import NetFlat.Proofs.Equations
import NetFlat.Proofs.Naming.Names

/-!
# Declared names

A flat module declares each name that it uses, as a port or as a wire, and it declares it once.

* `Scope.mem_wires`: the wires of a scope are the names in use that are no ports;
* `mem_signals_assignments`: the assignments of a file are about the signals and the auxiliary wires
  of its gates;
* `declarations_of_flatten_eq_ok`: what this makes of the declarations of a flattened file.
-/

namespace NetFlat

/-! ### Wires of a scope -/

namespace Scope

variable {s : Scope} {a : Signal}

theorem mem_wires : a ∈ s.wires ↔
    (a ∈ s.declared ∨ a ∈ s.referenced ∨ a ∈ s.auxiliaries) ∧ ∀ p ∈ s.ports, p.1 ≠ a := by
  rw [wires, Signal.mem_ordered, List.mem_filter, ← portClass?_eq_none_iff,
    Option.isNone_iff_eq_none]
  simp only [List.mem_append, or_assoc]

theorem pairwise_wires (s : Scope) : s.wires.Pairwise (· < ·) := Signal.pairwise_ordered _

theorem nodup_wires (s : Scope) : s.wires.Nodup := by
  refine s.pairwise_wires.imp fun {a b} h => ?_
  rintro rfl
  exact Signal.lt_irrefl a h

end Scope

variable {config : Config} {file : SourceFile} {f : Flattened}

/-! ### Names of a file -/

theorem mem_wires_addAll {a : Signal} :
    a ∈ ((Scan.start config).scope.addAll (file.uses config)).wires ↔
      (a ∈ file.wires config ∨ (∃ g ∈ file.gates config, a ∈ g.signals) ∨
        a ∈ file.auxiliaries config) ∧ a ∉ config.ports := by
  rw [Scope.mem_wires, Scope.mem_declared_addAll, Scope.mem_referenced_addAll,
    Scope.mem_auxiliaries_addAll, Scope.ports_addAll, SourceFile.uses, Item.declaredBy_uses,
    Item.referencedBy_uses, Item.registeredBy_uses, Config.not_mem_ports_iff]
  show ((a ∈ [] ∨ a ∈ file.wires config) ∨
    (a ∈ [] ∨ a ∈ (file.gates config).flatMap _ ∨ a ∈ file.auxiliaries config) ∨
      a ∈ [] ∨ a ∈ file.auxiliaries config) ∧ (∀ p ∈ config.portSignals, p.1 ≠ a) ↔ _
  simp only [List.not_mem_nil, false_or, List.mem_flatMap, or_assoc, or_self]

/-- The signals of the assignments are those of the gates, and the auxiliary wires. -/
theorem mem_signals_assignments (hl : ∀ g ∈ file.gates config, ∃ e, g.core? = some e)
    {a : Signal} :
    (∃ s ∈ (file.gates config).flatMap Placed.assignments, a ∈ s.signals) ↔
      (∃ g ∈ file.gates config, a ∈ g.signals) ∨ a ∈ file.auxiliaries config := by
  have hg : ∀ g ∈ file.gates config,
      (∃ s ∈ g.assignments, a ∈ s.signals) ↔ a ∈ g.signals ∨ g.auxiliary? = some a := by
    intro g hg
    obtain ⟨e, hc⟩ := hl g hg
    rw [← Placed.mem_signals_assignments hc, List.mem_flatMap]
  constructor
  · rintro ⟨s, hs, ha⟩
    obtain ⟨g, hgm, hs⟩ := List.mem_flatMap.mp hs
    rcases (hg g hgm).mp ⟨s, hs, ha⟩ with h | h
    · exact .inl ⟨g, hgm, h⟩
    · exact .inr (List.mem_filterMap.mpr ⟨g, hgm, h⟩)
  · intro h
    have : ∃ g ∈ file.gates config, a ∈ g.signals ∨ g.auxiliary? = some a := by
      rcases h with ⟨g, hgm, h⟩ | h
      · exact ⟨g, hgm, .inl h⟩
      · obtain ⟨g, hgm, h⟩ := List.mem_filterMap.mp h
        exact ⟨g, hgm, .inr h⟩
    obtain ⟨g, hgm, h⟩ := this
    obtain ⟨s, hs, ha⟩ := (hg g hgm).mpr h
    exact ⟨s, List.mem_flatMap.mpr ⟨g, hgm, hs⟩, ha⟩

theorem isNamed_of_mem_uses {a : Signal} (h : a ∈ file.wires config ∨
    (∃ g ∈ file.gates config, a ∈ g.signals) ∨ a ∈ file.auxiliaries config) : a.IsNamed := by
  have hg : ∀ g ∈ file.gates config, ∀ b ∈ g.signals, b.IsNamed := by
    intro g hg b hb
    obtain ⟨i, -, hi⟩ := List.mem_flatMap.mp hg
    exact Item.isNamed_of_mem_signals hi hb
  rcases h with h | ⟨g, hgm, h⟩ | h
  · obtain ⟨i, -, hi⟩ := List.mem_flatMap.mp h
    exact Item.isNamed_of_mem_wires hi
  · exact hg g hgm a h
  · obtain ⟨g, hgm, hx⟩ := List.mem_filterMap.mp h
    obtain ⟨-, rfl⟩ := Placed.auxiliary?_eq_some_iff.mp hx
    exact (hg g hgm g.output (by simp [Placed.signals])).auxiliary

/-! ### Flattened files -/

theorem ports_of_flatten_eq_ok (h : (flatten config file).result = .ok f) :
    f.flat.inputs ++ f.flat.outputs = config.ports := by
  obtain ⟨-, -, -, rfl⟩ := flatten_eq_ok_iff.mp h
  rfl

/-- **Exact declarations.** The ports are the bits of the buses.  The wires are in strictly ascending
order; they are the declared wires, the auxiliary wires and the signals of the assignments, the ports
left out.  So each signal of an assignment is declared once, and no literal is declared. -/
theorem declarations_of_flatten_eq_ok (h : (flatten config file).result = .ok f) :
    f.flat.inputs ++ f.flat.outputs = config.ports ∧
      f.flat.wires.Pairwise (· < ·) ∧
      (∀ a, a ∈ f.flat.wires ↔
        (a ∈ file.wires config ∨ a ∈ file.auxiliaries config ∨
          ∃ s ∈ f.flat.assignments, a = s.target ∨ a ∈ s.expr.reads) ∧ a ∉ config.ports) ∧
      (∀ s ∈ f.flat.assignments, ∀ a, a = s.target ∨ a ∈ s.expr.reads →
        (f.flat.inputs ++ f.flat.outputs ++ f.flat.wires).count a = 1) ∧
      ∀ a ∈ f.flat.inputs ++ f.flat.outputs ++ f.flat.wires, Literal.read? a.name = none := by
  have hfresh := fresh_gates_of_flatten_eq_ok h
  obtain ⟨-, -, -, rfl⟩ := flatten_eq_ok_iff.mp h
  have hports : ((Scan.finished config (file.items config)).flattened config).flat.inputs ++
      ((Scan.finished config (file.items config)).flattened config).flat.outputs =
        config.ports := rfl
  have hassign : ((Scan.finished config (file.items config)).flattened config).flat.assignments =
      (file.gates config).flatMap Placed.assignments := rfl
  have hwires : ((Scan.finished config (file.items config)).flattened config).flat.wires =
      ((Scan.start config).scope.addAll (file.uses config)).wires := rfl
  have hsig (a : Signal) : (∃ s ∈ (file.gates config).flatMap Placed.assignments,
      a = s.target ∨ a ∈ s.expr.reads) ↔
        (∃ g ∈ file.gates config, a ∈ g.signals) ∨ a ∈ file.auxiliaries config := by
    rw [← mem_signals_assignments hfresh.lowered]
    simp only [Assignment.signals, List.mem_cons]
  rw [hports, hassign, hwires]
  have hdisj : ∀ a ∈ config.ports,
      a ∉ ((Scan.start config).scope.addAll (file.uses config)).wires := fun a ha hw =>
    (mem_wires_addAll.mp hw).2 ha
  refine ⟨rfl, Scope.pairwise_wires _, fun a => ?_, fun s hs a ha => ?_, fun a ha => ?_⟩
  · have haux (hx : a ∈ file.auxiliaries config) := (hsig a).mpr (.inr hx)
    rw [mem_wires_addAll, ← hsig, or_iff_right_of_imp haux]
  · have hn : (config.ports ++
        ((Scan.start config).scope.addAll (file.uses config)).wires).Nodup :=
      List.nodup_append'.mpr ⟨config.nodup_ports, Scope.nodup_wires _, hdisj⟩
    refine List.count_eq_one_of_mem hn ?_
    rw [List.mem_append, mem_wires_addAll]
    by_cases hp : a ∈ config.ports
    · exact .inl hp
    · exact .inr ⟨.inr ((hsig a).mp ⟨s, hs, ha⟩), hp⟩
  · refine Signal.IsNamed.read?_eq_none ?_
    rcases List.mem_append.mp ha with ha | ha
    · exact Config.isNamed_of_mem_ports ha
    · exact isNamed_of_mem_uses (mem_wires_addAll.mp ha).1

/-- A module with a declared wire that is not connected. -/
def spareFile : SourceFile :=
  sampleModule [["  wire spare, n;"], ["  XNOR g0 (.A(in_array[0]), .B(in_array[1]), .Z(n));"],
    ["  NOR g1 (.A(n), .B(1'b0), .Z(m));"], ["  IV g2 (.A(m), .Z(out_array[0]));"]]

theorem flatten_spareFile : ∃ f, (flatten sampleConfig spareFile).result = .ok f ∧
    f.flat.wires = ["m", "m_neg", "n", "n_neg", "spare"].map (⟨String.toList ·⟩) ∧
    ∀ s ∈ f.flat.assignments, ⟨"spare".toList⟩ ∉ s.target :: s.expr.reads := by
  decide +kernel

theorem declarations_of_spareFile : ∃ f, (flatten sampleConfig spareFile).result = .ok f ∧
    f.flat.wires = ["m", "m_neg", "n", "n_neg", "spare"].map (⟨String.toList ·⟩) ∧
    (∀ s ∈ f.flat.assignments, ⟨"spare".toList⟩ ∉ s.target :: s.expr.reads) ∧
    f.flat.inputs ++ f.flat.outputs = sampleConfig.ports ∧
      f.flat.wires.Pairwise (· < ·) ∧
      (∀ a, a ∈ f.flat.wires ↔
        (a ∈ spareFile.wires sampleConfig ∨ a ∈ spareFile.auxiliaries sampleConfig ∨
          ∃ s ∈ f.flat.assignments, a = s.target ∨ a ∈ s.expr.reads) ∧ a ∉ sampleConfig.ports) ∧
      (∀ s ∈ f.flat.assignments, ∀ a, a = s.target ∨ a ∈ s.expr.reads →
        (f.flat.inputs ++ f.flat.outputs ++ f.flat.wires).count a = 1) ∧
      ∀ a ∈ f.flat.inputs ++ f.flat.outputs ++ f.flat.wires, Literal.read? a.name = none := by
  obtain ⟨f, hf, hw, hspare⟩ := flatten_spareFile
  exact ⟨f, hf, hw, hspare, declarations_of_flatten_eq_ok hf⟩

end NetFlat
