import NetFlat.Proofs.Circuit.Netlist
import NetFlat.Proofs.Declarations
import NetFlat.Proofs.Expr.Reading
import NetFlat.Proofs.FlatModule.Emission

/-!
# Flattened circuits

The netlist of a well-formed circuit is flattened without findings, and the flat module is read back
from its text.

* `WellFormed.flatten_eq_ok`: the netlist is flattened, to the assignments of its gates;
* `WellFormed.read?_text`: the outline of its text.
-/

namespace NetFlat

/-! ### Identifiers in a text -/

theorem Expr.wellNamed_of_isIdentifier {a : Signal} (h : isIdentifier a.name = true) :
    WellNamed a := by
  have hw := isWord_of_isIdentifier h
  refine ⟨ne_nil_of_isIdentifier h, fun c hc => ?_, ?_, ?_⟩
  · have := hw c hc
    simp only [isWordChar, Bool.or_eq_true, beq_iff_eq] at this
    rcases this with (hc | rfl) | rfl
    · exact .inl hc
    · exact .inr (by decide)
    · exact .inr (by decide)
  · intro e
    rw [e] at h
    exact absurd h (by decide)
  · intro e
    rw [e] at h
    exact absurd h (by decide)

namespace CircuitGate

variable {g : CircuitGate} {p : Placed} {a : Signal}

theorem mem_signals (h : g.placed? = some p) :
    a ∈ p.signals ↔ ∃ n ∈ g.output :: g.inputs, a = ⟨flatName n⟩ := by
  obtain ⟨cell, -, rfl⟩ := placed?_eq_some_iff.mp h
  simp only [Placed.signals, List.mem_append, List.mem_flatMap, List.mem_map, List.mem_cons,
    List.not_mem_nil, or_false]
  constructor
  · rintro (⟨e, ⟨n, hn, rfl⟩, ha⟩ | rfl)
    · exact ⟨n, .inr hn, List.mem_singleton.mp ha⟩
    · exact ⟨g.output, .inl rfl, rfl⟩
  · rintro ⟨n, rfl | hn, rfl⟩
    · exact .inr rfl
    · exact .inl ⟨_, ⟨n, hn, rfl⟩, List.mem_singleton.mpr rfl⟩

end CircuitGate

namespace Circuit

variable {config : Config} {c : Circuit} {file : SourceFile} {f : Flattened} {a : Signal}

theorem mem_auxiliaries {t : Text} (h : t ∈ c.auxiliaries) :
    ∃ g ∈ c.gates, t = (Signal.auxiliary ⟨flatName g.output⟩).name := by
  obtain ⟨g, hg, hx⟩ := List.mem_filterMap.mp h
  unfold CircuitGate.auxiliary? at hx
  split at hx
  · exact ⟨g, hg, (Option.some.inj hx).symm⟩
  · simp at hx

namespace WellFormed

/-! ### The items of the netlist -/

theorem erasedItems_eq (h : c.WellFormed) (hc : config.toSettings = c.settings)
    (hf : file.content = c.netlist) :
    file.Closes config ∧ file.erasedItems config = blockItems config c.bodyLines := by
  have hcut := h.cut hc hf
  have htail : Phase.body.read config (codes ["endmodule".toList]) = (.closed, []) := rfl
  refine ⟨hcut.closes_iff.mpr (congrArg Prod.fst htail), ?_⟩
  rw [hcut.erasedItems_eq, read_headLines h hc, htail]
  simp

theorem wires_eq (h : c.WellFormed) (hc : config.toSettings = c.settings)
    (hf : file.content = c.netlist) : file.wires config = c.internalNets := by
  rw [← flatMap_wires_erasedItems, (h.erasedItems_eq hc hf).2]
  exact (contributes_bodyLines h hc).wires_eq

theorem gates_eq (h : c.WellFormed) (hc : config.toSettings = c.settings)
    (hf : file.content = c.netlist) :
    file.gates config = c.gates.filterMap CircuitGate.placed? := by
  rw [← flatMap_placed_erasedItems, (h.erasedItems_eq hc hf).2]
  exact (contributes_bodyLines h hc).gates_eq

theorem auxiliaries_eq (h : c.WellFormed) (hc : config.toSettings = c.settings)
    (hf : file.content = c.netlist) :
    file.auxiliaries config = c.auxiliaries.map Signal.mk := by
  rw [SourceFile.auxiliaries, h.gates_eq hc hf, List.filterMap_filterMap, auxiliaries,
    List.map_filterMap]
  refine List.filterMap_congr fun g hg => ?_
  obtain ⟨p, hp⟩ := h.exists_placed hg
  rw [hp, Option.bind_some, CircuitGate.auxiliary?_of_placed? hp]

/-! ### Names -/

theorem isIdentifier_flatName (h : c.WellFormed) (hc : config.toSettings = c.settings)
    {g : CircuitGate} (hg : g ∈ c.gates) {n : Text} (hn : n ∈ g.output :: g.inputs) :
    isIdentifier (flatName n) = true := by
  rcases List.mem_cons.mp hn with rfl | hn
  · exact (h.isNet_output hc hg).isIdentifier_flatName
  · exact (h.isNet_input hc hg hn).isIdentifier_flatName

theorem clashFree (h : c.WellFormed) (hc : config.toSettings = c.settings)
    (hf : file.content = c.netlist) :
    (Scan.start config).scope.ClashFree (file.uses config) := by
  rw [clashFree_uses_iff, h.auxiliaries_eq hc hf, h.wires_eq hc hf, h.gates_eq hc hf]
  refine ⟨h.auxiliaries_nodup.map fun s t => Signal.mk.inj, fun a ha => ⟨?_, ?_, ?_⟩⟩
  · obtain ⟨t, ht, rfl⟩ := List.mem_map.mp ha
    obtain ⟨g, -, rfl⟩ := mem_auxiliaries ht
    exact Config.not_mem_ports_iff.mp (config.auxiliary_not_mem_ports _)
  · intro hw
    obtain ⟨t, ht, rfl⟩ := List.mem_map.mp ha
    have hid := isIdentifier_of_mem_internalNets h hw
    rw [internalNets, Signal.mem_ordered] at hw
    obtain ⟨n, hn, hnt⟩ := List.mem_map.mp hw
    obtain rfl : n = t := Signal.mk.inj hnt
    obtain ⟨g, hg, rfl⟩ := List.mem_map.mp (List.mem_filter.mp hn).1
    have := h.auxiliaries_new g hg g.output (by simp)
    rw [flatName_of_isWord (isWord_of_isIdentifier hid)] at this
    exact this ht
  · intro p hp hs
    obtain ⟨t, ht, rfl⟩ := List.mem_map.mp ha
    obtain ⟨g, hg, hgp⟩ := List.mem_filterMap.mp hp
    obtain ⟨n, hn, hnt⟩ := (CircuitGate.mem_signals hgp).mp hs
    obtain rfl : t = flatName n := Signal.mk.inj hnt
    exact h.auxiliaries_new g hg n hn ht

theorem isIdentifier_of_mem_uses (h : c.WellFormed) (hc : config.toSettings = c.settings)
    (hf : file.content = c.netlist) (ha : a ∈ file.wires config ∨
      (∃ p ∈ file.gates config, a ∈ p.signals) ∨ a ∈ file.auxiliaries config) :
    isIdentifier a.name = true := by
  rw [h.wires_eq hc hf, h.gates_eq hc hf, h.auxiliaries_eq hc hf] at ha
  rcases ha with ha | ⟨p, hp, ha⟩ | ha
  · exact isIdentifier_of_mem_internalNets h ha
  · obtain ⟨g, hg, hgp⟩ := List.mem_filterMap.mp hp
    obtain ⟨n, hn, rfl⟩ := (CircuitGate.mem_signals hgp).mp ha
    exact h.isIdentifier_flatName hc hg hn
  · obtain ⟨t, ht, rfl⟩ := List.mem_map.mp ha
    obtain ⟨g, hg, rfl⟩ := mem_auxiliaries ht
    exact isIdentifier_auxiliary (h.isIdentifier_flatName hc hg (by simp))

/-! ### Flattening -/

/-- **The netlist is flattened**, without findings, to the assignments of the gates. -/
theorem flatten_eq_ok (h : c.WellFormed) (hc : config.toSettings = c.settings)
    (hf : file.content = c.netlist) : ∃ f, (flatten config file).result = .ok f ∧
      (flatten config file).findings = [] ∧
      f.flat.assignments =
        (c.gates.filterMap CircuitGate.placed?).flatMap Placed.assignments := by
  obtain ⟨hcl, hi⟩ := h.erasedItems_eq hc hf
  have hbody := contributes_bodyLines h hc
  have hs : ∀ i ∈ file.items config, i.Sound config := by
    rw [← forall_sound_erasedItems, hi]
    exact hbody.sound
  have hok := flatten_eq_ok_iff.mpr ⟨hcl, hs, h.clashFree hc hf, rfl⟩
  refine ⟨_, hok, findings_eq_nil_of_erasedItems hok ?_, ?_⟩
  · rw [hi]
    exact hbody.findings
  · rw [← h.gates_eq hc hf]
    rfl

theorem isIdentifier_of_flatten_eq_ok (h : c.WellFormed) (hc : config.toSettings = c.settings)
    (hf : file.content = c.netlist) (hok : (flatten config file).result = .ok f) :
    (∀ a ∈ f.flat.inputs ++ f.flat.outputs ++ f.flat.wires, isIdentifier a.name = true) ∧
      ∀ s ∈ f.flat.assignments, ∀ a, a = s.target ∨ a ∈ s.expr.reads →
        isIdentifier a.name = true := by
  have hlowered := (fresh_gates_of_flatten_eq_ok hok).lowered
  obtain ⟨-, -, -, rfl⟩ := flatten_eq_ok_iff.mp hok
  refine ⟨fun a ha => ?_, fun s hs a ha => ?_⟩
  · rcases List.mem_append.mp ha with ha | ha
    · exact Config.isIdentifier_of_mem_ports (c := config) ha
    · exact h.isIdentifier_of_mem_uses hc hf (mem_wires_addAll.mp ha).1
  · have hsig := (mem_signals_assignments hlowered).mp ⟨s, hs, List.mem_cons.mpr ha⟩
    exact h.isIdentifier_of_mem_uses hc hf (.inr hsig)

/-- **The text of the flat module is read back.** -/
theorem read?_text (h : c.WellFormed) (hc : config.toSettings = c.settings)
    (hf : file.content = c.netlist) (hok : (flatten config file).result = .ok f) :
    ∃ o, FlatModule.Outline.read? f.text = some o ∧
      o.assigns = f.flat.assignments.map fun s => (s.target.name, s.expr.display) := by
  obtain ⟨hdecl, hassign⟩ := h.isIdentifier_of_flatten_eq_ok hc hf hok
  have hl : f.flat.Listable := by
    obtain ⟨-, -, -, rfl⟩ := flatten_eq_ok_iff.mp hok
    exact ⟨config.isLine_moduleName, config.busMembers_ne_nil .input, config.busMembers_ne_nil .output,
      fun a ha => Signal.listable_of_isIdentifier (hdecl a ha),
      fun s hs a ha => Signal.listable_of_isIdentifier (hassign s hs a ha)⟩
  exact ⟨_, FlatModule.Outline.read?_render hl, rfl⟩

end WellFormed

end Circuit

end NetFlat
