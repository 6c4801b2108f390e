import NetFlat.Proofs.Circuit.Flattening
import NetFlat.Proofs.FlatModule.Evaluation

/-!
# Flattened circuits compute the same

The text of a flattened circuit is evaluated over the scalar names like the circuit is over its nets:
each net has the same value in both, under its flat name.

* `Agree`: the values of some nets are there in both, and are the same;
* `lookup_kinds`: the functions by which gates are evaluated are those of the catalog;
* `WellFormed.agree_gate`, `WellFormed.agree_gates`: what a gate and a row of gates make of it;
* `evaluation_of_netlist`: the netlist is flattened, and its text computes what the circuit computes.
-/

namespace NetFlat.Circuit

variable {config : Config} {c : Circuit} {g : CircuitGate} {v w : Values} {ns : List Text}
  {bits : List Bool}

/-- The nets have values, and their flat names have the same. -/
def Agree (ns : List Text) (v w : Values) : Prop :=
  ∀ n ∈ ns, ∃ b, v.lookup n = some b ∧ w.lookup (flatName n) = some b

def inputNets (c : Circuit) : List Text := (List.range c.width).map inputNet

/-! ### Input bits -/

theorem lookup_zipIdx (key : Nat → Text) (hk : ∀ i j, key i = key j → i = j) (bits : List Bool)
    (start i : Nat) : ((bits.zipIdx start).map fun p => (key p.2, p.1)).lookup (key (start + i)) = bits[i]? := by
  induction bits generalizing start i with
  | nil => rfl
  | cons b bits ih =>
    rw [List.zipIdx_cons, List.map_cons, List.lookup_cons]
    cases i with
    | zero => simp
    | succ i =>
      have hne : (key (start + (i + 1)) == key start) = false := by
        rw [beq_eq_false_iff_ne]
        intro e
        have := hk _ _ e
        omega
      rw [hne, show start + (i + 1) = start + 1 + i by omega]
      exact (ih (start + 1) i).trans rfl

theorem inputNet_injective {i j : Nat} (h : inputNet i = inputNet j) : i = j := by
  unfold inputNet at h
  generalize "in_array[".toList = p at h
  exact Text.decimal_injective (List.append_cancel_left (List.append_cancel_right h))

theorem flatName_inputNet (i : Nat) : flatName (inputNet i) = scalarName "in_array".toList i :=
  flatName_bitNet (show Text.IsWord "in_array".toList by decide)

theorem agree_inputNets (hb : bits.length = c.width) :
    Agree c.inputNets (netValues bits) (scalarValues bits) := by
  intro n hn
  obtain ⟨i, hi, rfl⟩ := List.mem_map.mp hn
  have hi' : i < bits.length := by
    have := List.mem_range.mp hi
    omega
  have hnet := lookup_zipIdx inputNet (fun _ _ => inputNet_injective) bits 0 i
  have hscalar := lookup_zipIdx (scalarName "in_array".toList)
    (fun _ _ h => (scalarName_injective h).2) bits 0 i
  rw [Nat.zero_add, List.getElem?_eq_getElem hi'] at hnet hscalar
  rw [flatName_inputNet]
  exact ⟨bits[i], hnet, hscalar⟩

/-! ### Gates -/

/-- The functions by which gates are evaluated are those of the catalog. -/
theorem lookup_kinds (keyword : Text) :
    kinds.lookup keyword = (Cell.find? keyword).map Cell.kind := by
  have hrows : kinds = Cell.catalog.map fun c => (c.keyword, c.kind) := by decide
  rw [hrows, Cell.find?]
  generalize Cell.catalog = rows
  induction rows with
  | nil => rfl
  | cons c rows ih =>
    rw [List.map_cons, List.lookup_cons, List.find?_cons]
    by_cases hk : keyword = c.keyword
    · simp [hk]
    · rw [beq_false_of_ne hk, decide_eq_false (Ne.symm hk)]
      exact ih

namespace WellFormed

theorem isNet_of_mem (h : c.WellFormed) (hc : config.toSettings = c.settings) {n : Text}
    (hn : n ∈ c.inputNets ++ c.gates.map CircuitGate.output) :
    config.IsNet n ∧ flatName n ∉ c.auxiliaries := by
  rcases List.mem_append.mp hn with hn | hn
  · obtain ⟨i, hi, rfl⟩ := List.mem_map.mp hn
    have hnet := isNet_inputNet hc (List.mem_range.mp hi)
    refine ⟨hnet, fun hx => ?_⟩
    obtain ⟨g, -, hg⟩ := mem_auxiliaries hx
    refine config.auxiliary_not_mem_ports ⟨flatName g.output⟩ (Config.mem_ports.mpr
      ⟨.input, i, width_eq hc ▸ List.mem_range.mp hi, ?_⟩)
    rw [busName_input hc, ← flatName_inputNet, hg]
  · obtain ⟨g, hg, rfl⟩ := List.mem_map.mp hn
    exact ⟨h.isNet_output hc hg, h.auxiliaries_new g hg _ (by simp)⟩

theorem flatName_not_assigned (h : c.WellFormed) (hc : config.toSettings = c.settings)
    (hg : g ∈ c.gates) {p : Placed} (hp : g.placed? = some p) {n : Text}
    (hn : n ∈ c.inputNets ++ c.gates.map CircuitGate.output) (hno : n ≠ g.output) :
    flatName n ≠ flatName g.output ∧ ∀ aux, p.auxiliary? = some aux → flatName n ≠ aux.name := by
  obtain ⟨hnet, hnx⟩ := h.isNet_of_mem hc hn
  refine ⟨fun e => hno (hnet.flatName_injective (h.isNet_output hc hg) e), fun aux hx e => ?_⟩
  rw [CircuitGate.auxiliary?_of_placed? hp] at hx
  obtain ⟨t, ht, rfl⟩ := Option.map_eq_some_iff.mp hx
  exact hnx (List.mem_filterMap.mpr ⟨g, hg, ht.trans (congrArg some e.symm)⟩)

/-- A gate whose inputs have values gives its output the same value in both. -/
theorem agree_gate (h : c.WellFormed) (hc : config.toSettings = c.settings) (hg : g ∈ c.gates)
    (hns : ∀ n ∈ ns, n ∈ c.inputNets ++ c.gates.map CircuitGate.output)
    (hin : ∀ n ∈ g.inputs, n ∈ ns) (ha : Agree ns v w) :
    ∃ p v' w', g.placed? = some p ∧ evaluateGate? v g = some v' ∧
      p.assignments.foldlM Values.assign? w = some w' ∧ Agree (ns ++ [g.output]) v' w' := by
  obtain ⟨cell, hcell, hlen⟩ := h.exists_cell hg
  have hp : g.placed? = some ⟨cell.kind, g.inputs.map fun n => .signal ⟨flatName n⟩,
      ⟨flatName g.output⟩⟩ := CircuitGate.placed?_eq_some_iff.mpr ⟨cell, hcell, rfl⟩
  obtain ⟨p, hpe⟩ : ∃ p : Placed, p = ⟨cell.kind, g.inputs.map fun n => .signal ⟨flatName n⟩,
      ⟨flatName g.output⟩⟩ := ⟨_, rfl⟩
  rw [← hpe] at hp
  have hout : p.output = ⟨flatName g.output⟩ := by rw [hpe]
  have hops : p.operands = g.inputs.map fun n => .signal ⟨flatName n⟩ := by rw [hpe]
  have hkind : p.kind = cell.kind := by rw [hpe]
  obtain ⟨e, he⟩ : ∃ e, p.core? = some e := by
    refine Option.isSome_iff_exists.mp (Placed.core?_isSome_iff.mpr ?_)
    rw [hops, hkind, List.length_map, hlen]
  have hr : ∀ a ∈ e.reads, ∃ b, w.lookup a.name = some b := by
    intro a hmem
    rw [Placed.reads_core he, hops, List.flatMap_map] at hmem
    obtain ⟨n, hn, hmem⟩ := List.mem_flatMap.mp hmem
    obtain rfl := List.mem_singleton.mp hmem
    obtain ⟨b, -, hb⟩ := ha n (hin n hn)
    exact ⟨b, hb⟩
  -- the cell is applied to the same values on both sides
  have hvalues : (g.inputs.map fun n => (v.lookup n).getD false) =
      p.operands.map (Expr.eval w.valuation) := by
    rw [hops, List.map_map]
    refine List.map_congr_left fun n hn => ?_
    obtain ⟨b, hv, hw⟩ := ha n (hin n hn)
    show (v.lookup n).getD false = (w.lookup (flatName n)).getD false
    rw [hv, hw]
  have heval : evaluateGate? v g = some (v.set g.output (p.finish (e.eval w.valuation))) := by
    have href := Placed.reference?_operands (v := w.valuation) he
    rw [hkind] at href
    rw [evaluateGate?, lookup_kinds, hcell, hvalues, Option.map_some, Option.bind_eq_bind,
      Option.bind_some, href]
    rfl
  obtain ⟨w', hrun, hset, hkeep⟩ := Placed.exists_foldlM_assign? he hr
  rw [hout] at hset hkeep
  refine ⟨p, _, w', hp, heval, hrun, fun n hn => ?_⟩
  by_cases hno : n = g.output
  · subst hno
    exact ⟨_, by rw [Values.lookup_set, if_pos rfl], hset⟩
  · have hn' : n ∈ ns := by
      rcases List.mem_append.mp hn with hn | hn
      · exact hn
      · exact absurd (List.mem_singleton.mp hn) hno
    obtain ⟨b, hv, hw⟩ := ha n hn'
    obtain ⟨hflat, haux⟩ := h.flatName_not_assigned hc hg hp (hns n hn') hno
    exact ⟨b, by rw [Values.lookup_set, if_neg hno, hv], by rw [hkeep _ hflat haux, hw]⟩

theorem agree_gates (h : c.WellFormed) (hc : config.toSettings = c.settings)
    (before after : List CircuitGate) (hs : c.gates = before ++ after)
    (ha : Agree (c.inputNets ++ before.map CircuitGate.output) v w) :
    ∃ v' w', after.foldlM evaluateGate? v = some v' ∧
      ((after.filterMap CircuitGate.placed?).flatMap Placed.assignments).foldlM
        Values.assign? w = some w' ∧
      Agree (c.inputNets ++ c.gates.map CircuitGate.output) v' w' := by
  induction after generalizing before v w with
  | nil =>
    rw [List.append_nil] at hs
    exact ⟨v, w, rfl, rfl, hs ▸ ha⟩
  | cons g after ih =>
    have hg : g ∈ c.gates := by
      rw [hs]
      exact List.mem_append_right _ (List.mem_cons_self)
    have hns : ∀ n ∈ c.inputNets ++ before.map CircuitGate.output,
        n ∈ c.inputNets ++ c.gates.map CircuitGate.output := by
      intro n hn
      rw [hs, List.map_append, ← List.append_assoc]
      exact List.mem_append_left _ hn
    have hin : ∀ n ∈ g.inputs, n ∈ c.inputNets ++ before.map CircuitGate.output := by
      intro n hn
      rcases h.inputs_of_append hs n hn with ⟨i, hi, rfl⟩ | hm
      · exact List.mem_append_left _ (List.mem_map_of_mem (List.mem_range.mpr hi))
      · exact List.mem_append_right _ hm
    obtain ⟨p, v₁, w₁, hp, hv, hw, hagree⟩ := h.agree_gate hc hg hns hin ha
    have hs' : c.gates = (before ++ [g]) ++ after := by rw [hs, List.append_assoc]; rfl
    have hagree' : Agree (c.inputNets ++ (before ++ [g]).map CircuitGate.output) v₁ w₁ := by
      rw [List.map_append, ← List.append_assoc]
      exact hagree
    obtain ⟨v', w', hv', hw', ha'⟩ := ih _ hs' hagree'
    refine ⟨v', w', ?_, ?_, ha'⟩
    · rw [List.foldlM_cons, hv]
      exact hv'
    · rw [List.filterMap_cons, hp, List.flatMap_cons, List.foldlM_append, hw]
      exact hw'

end WellFormed

/-! ### The whole circuit -/

/-- **Flattened circuits compute the same.** The netlist of a well-formed circuit is flattened under the
standard names without findings, and its text is read back. For all values of the input bits both
the circuit and the text are evaluated, and each driven net has the same value, under its flat name in
the text. -/
theorem evaluation_of_netlist (c : Circuit) (h : c.WellFormed) :
    ∃ config, Config.ofSettings c.settings = .ok config ∧
      ∀ file : SourceFile, file.content = c.netlist →
        ∃ f, (flatten config file).result = .ok f ∧ (flatten config file).findings = [] ∧
          ∃ o, FlatModule.Outline.read? f.text = some o ∧
            ∀ bits : List Bool, bits.length = c.width →
              ∃ v w, c.evaluate? (netValues bits) = some v ∧
                o.evaluate? (scalarValues bits) = some w ∧
                ∀ g ∈ c.gates, config.resolve g.output = .ok ⟨flatName g.output⟩ ∧
                  ∃ b, v.lookup g.output = some b ∧ w.lookup (flatName g.output) = some b := by
  obtain ⟨config, hok⟩ := h.ofSettings_eq_ok
  have hc := Config.ofSettings_eq_ok_iff.mp hok
  refine ⟨config, hok, fun file hf => ?_⟩
  obtain ⟨f, hflat, hfind, hassign⟩ := h.flatten_eq_ok hc hf
  obtain ⟨o, ho, hoa⟩ := h.read?_text hc hf hflat
  obtain ⟨-, hnames⟩ := h.isIdentifier_of_flatten_eq_ok hc hf hflat
  refine ⟨f, hflat, hfind, o, ho, fun bits hb => ?_⟩
  have hstart : Agree (c.inputNets ++ ([] : List CircuitGate).map CircuitGate.output)
      (netValues bits) (scalarValues bits) := by
    rw [List.map_nil, List.append_nil]
    exact agree_inputNets hb
  obtain ⟨v, w, hv, hw, ha⟩ := h.agree_gates hc [] c.gates rfl hstart
  have heval : o.evaluate? (scalarValues bits) = some w := by
    rw [FlatModule.Outline.evaluate?_eq hoa fun s hs a hr =>
      Expr.wellNamed_of_isIdentifier (hnames s hs a (.inr hr)), hassign]
    exact hw
  refine ⟨v, w, hv, heval, fun g hg => ⟨(h.isNet_output hc hg).resolve_eq, ?_⟩⟩
  exact ha g.output (List.mem_append_right _ (List.mem_map_of_mem hg))

/-- Two gates with an auxiliary wire each, and an inverter behind them. -/
def sample : Circuit :=
  ⟨"top".toList, 2,
    [⟨"XNOR".toList, [inputNet 0, inputNet 1], "n".toList⟩,
      ⟨"NOR".toList, ["n".toList, inputNet 0], outputNet 0⟩,
      ⟨"INV".toList, [outputNet 0], outputNet 1⟩]⟩

theorem evaluation_of_sample : ∃ config, Config.ofSettings sample.settings = .ok config ∧
    ∃ f, (flatten config ⟨0, "top.v", sample.netlist⟩).result = .ok f ∧
      ∃ o w, FlatModule.Outline.read? f.text = some o ∧
        o.evaluate? (scalarValues [false, true]) = some w ∧
        w.lookup "n".toList = some false ∧ w.lookup "out_array_0".toList = some true ∧
        w.lookup "out_array_1".toList = some false := by
  have hwf : sample.WellFormed :=
    ⟨by decide, by decide, by decide, by decide +kernel, by decide +kernel, by decide +kernel,
      by decide +kernel, by decide +kernel⟩
  obtain ⟨config, hok, hall⟩ := evaluation_of_netlist sample hwf
  obtain ⟨f, hf, -, o, ho, hbits⟩ := hall ⟨0, "top.v", sample.netlist⟩ rfl
  obtain ⟨v, w, hv, hw, hnets⟩ := hbits [false, true] rfl
  have hvalues : sample.evaluate? (netValues [false, true]) = some
      [(inputNet 0, false), (inputNet 1, true), ("n".toList, false), (outputNet 0, true),
        (outputNet 1, false)] := by
    decide +kernel
  obtain rfl := Option.some.inj (hv.symm.trans hvalues)
  have hnet (g : CircuitGate) (hg : g ∈ sample.gates) (b : Bool) (t : Text)
      (hb : List.lookup g.output [(inputNet 0, false), (inputNet 1, true), ("n".toList, false),
        (outputNet 0, true), (outputNet 1, false)] = some b)
      (ht : flatName g.output = t) : w.lookup t = some b := by
    obtain ⟨-, b', hb', hwb⟩ := hnets g hg
    obtain rfl := Option.some.inj (hb'.symm.trans hb)
    exact ht ▸ hwb
  refine ⟨config, hok, f, hf, o, w, ho, hw, ?_, ?_, ?_⟩
  · exact hnet _ (List.mem_cons_self) _ _ (by decide +kernel) (by decide +kernel)
  · exact hnet _ (List.mem_cons_of_mem _ List.mem_cons_self) _ _ (by decide +kernel)
      (by decide +kernel)
  · exact hnet _ (List.mem_cons_of_mem _ (List.mem_cons_of_mem _ List.mem_cons_self)) _ _
      (by decide +kernel) (by decide +kernel)

end NetFlat.Circuit
