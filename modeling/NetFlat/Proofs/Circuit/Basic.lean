import NetFlat.Circuit
import NetFlat.Proofs.Gate.Meaning
import NetFlat.Proofs.Naming.Nets

/-!
# Well-formed circuits

A circuit is well-formed if its gates are those of the catalog, read bits of the input bus and outputs
of earlier gates, and drive bits of the output bus and identifiers, and if no auxiliary wire takes a
name that is in use.

* `Circuit.WellFormed`;
* `WellFormed.isNet_output`, `WellFormed.isNet_input`: all of its nets are nets of the configuration.
-/

namespace NetFlat

namespace CircuitGate

def placed? (g : CircuitGate) : Option Placed :=
  (Cell.find? g.cell).map fun cell =>
    ⟨cell.kind, g.inputs.map fun n => .signal ⟨flatName n⟩, ⟨flatName g.output⟩⟩

/-- The name of the wire before the negation of an `XNOR` or a `NOR`. -/
def auxiliary? (g : CircuitGate) : Option Text :=
  if g.cell = "XNOR".toList ∨ g.cell = "NOR".toList then some (flatName g.output ++ "_neg".toList)
  else none

variable {g : CircuitGate} {p : Placed}

theorem placed?_eq_some_iff : g.placed? = some p ↔
    ∃ cell, Cell.find? g.cell = some cell ∧
      p = ⟨cell.kind, g.inputs.map fun n => .signal ⟨flatName n⟩, ⟨flatName g.output⟩⟩ := by
  rw [placed?, Option.map_eq_some_iff]
  constructor
  · rintro ⟨cell, hc, rfl⟩
    exact ⟨cell, hc, rfl⟩
  · rintro ⟨cell, hc, rfl⟩
    exact ⟨cell, hc, rfl⟩

theorem auxiliary?_of_placed? (h : g.placed? = some p) :
    p.auxiliary? = g.auxiliary?.map Signal.mk := by
  obtain ⟨cell, hc, rfl⟩ := placed?_eq_some_iff.mp h
  have hneg : ∀ cell ∈ Cell.catalog, cell.kind.isNegated = true ↔
      cell.keyword = "XNOR".toList ∨ cell.keyword = "NOR".toList := by decide
  have hkey : cell.keyword = g.cell := by simpa using List.find?_some hc
  have := hneg cell (List.mem_of_find?_eq_some hc)
  rw [hkey] at this
  rw [Placed.auxiliary?, auxiliary?]
  by_cases hn : g.cell = "XNOR".toList ∨ g.cell = "NOR".toList
  · rw [if_pos hn, if_pos (this.mpr hn)]
    rfl
  · rw [if_neg hn, if_neg (mt this.mp hn)]
    rfl

end CircuitGate

namespace Circuit

def outputNet (i : Nat) : Text := "out_array[".toList ++ Text.decimal i ++ [']']

/-- The settings under which the circuit is flattened, with the standard names of the buses. -/
def settings (c : Circuit) : Settings := { Settings.standard c.moduleName with width := c.width }

def auxiliaries (c : Circuit) : List Text := c.gates.filterMap CircuitGate.auxiliary?

/-- What makes a circuit fit for being written as a netlist. -/
structure WellFormed (c : Circuit) : Prop where
  name : isIdentifier c.moduleName = true
  width_pos : 0 < c.width
  width_le : c.width ≤ maxWidth
  cells : ∀ g ∈ c.gates, ∃ cell ∈ Cell.catalog,
    cell.keyword = g.cell ∧ g.inputs.length = cell.kind.arity
  inputs : ∀ (k : Nat) (h : k < c.gates.length), ∀ n ∈ (c.gates.get ⟨k, h⟩).inputs,
    (∃ i < c.width, n = inputNet i) ∨ n ∈ (c.gates.take k).map CircuitGate.output
  outputs : ∀ g ∈ c.gates, (∃ i < c.width, g.output = outputNet i) ∨
    isIdentifier g.output = true ∧ ∀ i < c.width,
      g.output ≠ scalarName "in_array".toList i ∧ g.output ≠ scalarName "out_array".toList i
  auxiliaries_nodup : c.auxiliaries.Nodup
  auxiliaries_new : ∀ g ∈ c.gates, ∀ n ∈ g.output :: g.inputs, flatName n ∉ c.auxiliaries

namespace WellFormed

variable {c : Circuit} {config : Config} {g : CircuitGate} {n : Text}

theorem exists_cell (h : c.WellFormed) (hg : g ∈ c.gates) :
    ∃ cell, Cell.find? g.cell = some cell ∧ g.inputs.length = cell.kind.arity := by
  have hfind : ∀ cell ∈ Cell.catalog, Cell.find? cell.keyword = some cell := by decide
  obtain ⟨cell, hm, hk, hlen⟩ := h.cells g hg
  exact ⟨cell, hk ▸ hfind cell hm, hlen⟩

theorem inputs_of_append (h : c.WellFormed) {before after : List CircuitGate}
    (hs : c.gates = before ++ g :: after) :
    ∀ n ∈ g.inputs, (∃ i < c.width, n = inputNet i) ∨ n ∈ before.map CircuitGate.output := by
  have hk : before.length < c.gates.length := by
    rw [hs]
    simp
  have hg : c.gates.get ⟨before.length, hk⟩ = g := by
    simp [hs]
  have ht : c.gates.take before.length = before := by
    rw [hs, List.take_left]
  have := h.inputs before.length hk
  rwa [hg, ht] at this

theorem ofSettings_eq_ok (h : c.WellFormed) :
    ∃ config, Config.ofSettings c.settings = .ok config := by
  have hin : isIdentifier "in_array".toList = true := by decide
  have hout : isIdentifier "out_array".toList = true := by decide
  have hne : "in_array".toList ≠ "out_array".toList := by decide
  have hv : c.settings.Valid := ⟨h.name, hin, hout, hne, h.width_pos, h.width_le⟩
  exact ⟨⟨c.settings, hv⟩, Config.ofSettings_eq_ok_iff.mpr rfl⟩

theorem busName_input (hc : config.toSettings = c.settings) :
    config.busName .input = "in_array".toList :=
  congrArg Settings.inputBus hc

theorem busName_output (hc : config.toSettings = c.settings) :
    config.busName .output = "out_array".toList :=
  congrArg Settings.outputBus hc

theorem inputNet_eq (hc : config.toSettings = c.settings) (i : Nat) :
    inputNet i = bitNet (config.busName .input) i := by
  rw [busName_input hc]
  rfl

theorem outputNet_eq (hc : config.toSettings = c.settings) (i : Nat) :
    outputNet i = bitNet (config.busName .output) i := by
  rw [busName_output hc]
  rfl

theorem width_eq (hc : config.toSettings = c.settings) : config.width = c.width :=
  congrArg Settings.width hc

theorem isNet_inputNet (hc : config.toSettings = c.settings) {i : Nat} (hi : i < c.width) :
    config.IsNet (inputNet i) :=
  .inl ⟨.input, i, width_eq hc ▸ hi, inputNet_eq hc i⟩

theorem isNet_output (h : c.WellFormed) (hc : config.toSettings = c.settings) (hg : g ∈ c.gates) :
    config.IsNet g.output := by
  rcases h.outputs g hg with ⟨i, hi, ho⟩ | ⟨hid, hne⟩
  · exact .inl ⟨.output, i, width_eq hc ▸ hi, ho.trans (outputNet_eq hc i)⟩
  · refine .inr ⟨hid, fun hp => ?_⟩
    obtain ⟨role, i, hi, he⟩ := Config.mem_ports.mp hp
    have hi' := hne i (width_eq hc ▸ hi)
    have hname : g.output = scalarName (config.busName role) i := congrArg Signal.name he
    cases role with
    | input => exact hi'.1 (busName_input hc ▸ hname)
    | output => exact hi'.2 (busName_output hc ▸ hname)

theorem isNet_input (h : c.WellFormed) (hc : config.toSettings = c.settings) (hg : g ∈ c.gates)
    (hn : n ∈ g.inputs) : config.IsNet n := by
  obtain ⟨before, after, hs⟩ := List.append_of_mem hg
  rcases h.inputs_of_append hs n hn with ⟨i, hi, rfl⟩ | hm
  · exact isNet_inputNet hc hi
  · obtain ⟨g', hg', rfl⟩ := List.mem_map.mp hm
    exact h.isNet_output hc (hs ▸ List.mem_append_left _ hg')

theorem exists_placed (h : c.WellFormed) (hg : g ∈ c.gates) : ∃ p, g.placed? = some p := by
  obtain ⟨cell, hc, -⟩ := h.exists_cell hg
  exact ⟨_, CircuitGate.placed?_eq_some_iff.mpr ⟨cell, hc, rfl⟩⟩

end WellFormed

end Circuit

end NetFlat
