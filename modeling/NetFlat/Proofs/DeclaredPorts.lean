import NetFlat.Proofs.Naming.Nets
import NetFlat.Proofs.Locality
import NetFlat.Proofs.Scan.Order

/-!
# Declared names of ports

A wire may be declared under the scalar name of a port bit.  Signals are the same exactly if their
names are, so the declaration is one of the port, which stays a port; any other declared wire is a
net of its own.

* `flattened_finished_congr`: items that differ in declarations of ports;
* `flatten_eq_ok_iff_of_contributes`: a block that declares other ports in its place;
* `declared_ports`: what a declared wire is, and that the names of ports in a declaration do nothing.
-/

namespace NetFlat

variable {config : Config} {file file' : SourceFile} {f : Flattened}

/-! ### Items without effect -/

/-- A sound item that places no gate and about which nothing is found is not counted. -/
theorem Item.count_eq_self {i : Item} (hs : i.Sound config) (hp : i.placed config = [])
    (hf : i.findings config = []) (stats : Stats) : i.count config stats = stats := by
  cases i with
  | other line => simp [findings] at hf
  | gate g =>
    by_cases hc : (Cell.find? g.keyword).isSome = true
    · obtain ⟨p, hg⟩ := Option.isSome_iff_exists.mp (hs hc)
      simp [placed, hg] at hp
    · simp [findings, hc] at hf
  | declaration d =>
    have hskip : isSkipped config (.declaration d) = false := by
      by_contra h
      simp [findings, h] at hf
    simp [count, hskip]

/-- Whole statements that declare wires only are not counted. -/
theorem Contributes.count_eq_self {b : List Text} {ws : List Signal}
    (h : Contributes config b ws []) (stats : Stats) :
    (blockItems config b).foldl (Item.count config) stats = stats := by
  have hc : ∀ i ∈ blockItems config b, ∀ stats : Stats, i.count config stats = stats :=
    fun i hi => Item.count_eq_self (h.sound i hi) (List.flatMap_eq_nil_iff.mp h.gates_eq i hi)
      (h.findings i hi)
  generalize blockItems config b = is at hc
  induction is generalizing stats with
  | nil => rfl
  | cons i is ih =>
    rw [List.foldl_cons, hc i (by simp)]
    exact ih stats fun j hj => hc j (by simp [hj])

/-! ### Rows of items -/

/-- Freedom from clashes does not depend on the declarations of ports. -/
theorem clashFree_uses_congr (hg : file'.gates config = file.gates config)
    (hw : ∀ a ∉ config.ports, a ∈ file'.wires config ↔ a ∈ file.wires config) :
    (Scan.start config).scope.ClashFree (file'.uses config) ↔
      (Scan.start config).scope.ClashFree (file.uses config) := by
  have hx : file'.auxiliaries config = file.auxiliaries config := by
    simp only [SourceFile.auxiliaries, hg]
  rw [clashFree_uses_iff, clashFree_uses_iff, hx, hg]
  refine and_congr_right fun _ => forall₂_congr fun a _ => ?_
  rw [← Config.not_mem_ports_iff]
  exact and_congr_right fun hp => and_congr_left fun _ => not_congr (hw a hp)

theorem flattened_finished_congr (hg : file'.gates config = file.gates config)
    (hw : ∀ a ∉ config.ports, a ∈ file'.wires config ↔ a ∈ file.wires config)
    (hc : (file'.items config).foldl (Item.count config) {} =
      (file.items config).foldl (Item.count config) {}) :
    (Scan.finished config (file'.items config)).flattened config =
      (Scan.finished config (file.items config)).flattened config := by
  have hx : file'.auxiliaries config = file.auxiliaries config := by
    simp only [SourceFile.auxiliaries, hg]
  have hwires : ((Scan.start config).scope.addAll (file'.uses config)).wires =
      ((Scan.start config).scope.addAll (file.uses config)).wires := by
    refine Scope.wires_eq fun a => ?_
    rw [mem_wires_addAll, mem_wires_addAll, hx, hg]
    exact and_congr_left fun hp => or_congr_left (hw a hp)
  have hlength : ((Scan.start config).scope.addAll (file'.uses config)).auxiliaries.length =
      ((Scan.start config).scope.addAll (file.uses config)).auxiliaries.length := by
    refine Scope.length_auxiliaries_addAll_eq List.nodup_nil fun a => ?_
    rw [SourceFile.uses, SourceFile.uses, Item.registeredBy_uses, Item.registeredBy_uses]
    exact iff_of_eq (congrArg (a ∈ ·) hx)
  simp only [SourceFile.gates] at hg
  simp only [SourceFile.uses] at hwires hlength
  rw [Scan.flattened_finished, Scan.flattened_finished, hwires, hlength, hc, hg]

/-! ### A block in another's place -/

section Replacing

variable {head tail b b' : List Text} {before after : List (List Text)} {ws ws' : List Signal}

theorem SourceFile.Cut.erasedItems_block (h : file.Cut config head (before ++ b :: after) tail) :
    file.erasedItems config =
      ((Phase.seeking.read config (codes head)).2 ++ before.flatMap (blockItems config)) ++
        (blockItems config b ++
          (after.flatMap (blockItems config) ++ (Phase.body.read config (codes tail)).2)) := by
  rw [h.erasedItems_eq, List.flatMap_append, List.flatMap_cons]
  simp only [List.append_assoc]

/-- **A block that declares other ports** in its place leads to the same. -/
theorem flatten_eq_ok_iff_of_contributes (h : file.Cut config head (before ++ b :: after) tail)
    (h' : file'.Cut config head (before ++ b' :: after) tail) (hb : Contributes config b ws [])
    (hb' : Contributes config b' ws' []) (hw : ∀ a ∉ config.ports, a ∈ ws' ↔ a ∈ ws) :
    (flatten config file').result = .ok f ↔ (flatten config file).result = .ok f := by
  have hi := h.erasedItems_block
  have hi' := h'.erasedItems_block
  have hsound : (∀ i ∈ file'.erasedItems config, i.Sound config) ↔
      ∀ i ∈ file.erasedItems config, i.Sound config := by
    rw [hi, hi']
    simp only [List.forall_mem_append, iff_true_intro hb.sound, iff_true_intro hb'.sound]
  have hgates : file'.gates config = file.gates config := by
    rw [← flatMap_placed_erasedItems, ← flatMap_placed_erasedItems, hi, hi']
    simp only [List.flatMap_append, hb.gates_eq, hb'.gates_eq]
  have hwires : ∀ a ∉ config.ports, a ∈ file'.wires config ↔ a ∈ file.wires config := by
    intro a ha
    rw [← flatMap_wires_erasedItems, ← flatMap_wires_erasedItems, hi, hi']
    simp only [List.flatMap_append, hb.wires_eq, hb'.wires_eq, List.mem_append, hw a ha]
  have hcount : (file'.items config).foldl (Item.count config) {} =
      (file.items config).foldl (Item.count config) {} := by
    rw [← foldl_count_erasedItems, ← foldl_count_erasedItems, hi, hi']
    simp only [List.foldl_append, hb.count_eq_self, hb'.count_eq_self]
  have hcl : file'.Closes config ↔ file.Closes config := h'.closes_iff.trans h.closes_iff.symm
  rw [flatten_eq_ok_iff, flatten_eq_ok_iff, hcl, ← forall_sound_erasedItems,
    ← forall_sound_erasedItems, hsound, clashFree_uses_congr hgates hwires,
    flattened_finished_congr hgates hwires hcount]

theorem unplaced_findings_eq_of_contributes
    (h : file.Cut config head (before ++ b :: after) tail)
    (h' : file'.Cut config head (before ++ b' :: after) tail) (hb : Contributes config b ws [])
    (hb' : Contributes config b' ws' []) (hf : (flatten config file).result = .ok f)
    (hf' : (flatten config file').result = .ok f) :
    (flatten config file').findings.map Diagnostic.unplaced =
      (flatten config file).findings.map Diagnostic.unplaced := by
  rw [unplaced_findings_of_flatten_eq_ok hf, unplaced_findings_of_flatten_eq_ok hf',
    h.erasedItems_block, h'.erasedItems_block]
  simp only [List.flatMap_append, List.flatMap_eq_nil_iff.mpr hb.findings,
    List.flatMap_eq_nil_iff.mpr hb'.findings]

end Replacing

/-! ### Wire declarations -/

/-- The block is a declaration of the given names as wires without a range. -/
def DeclaresWires (config : Config) (block : List Text) (names : List Text) : Prop :=
  ∃ d : OpenDeclaration, Phase.body.read config (codes block) = (.body, [.declaration d]) ∧
    d.kind = .wire ∧ Declaration.read? d.text = some ⟨none, names⟩

theorem DeclaresWires.contributes {b : List Text} {names : List Text}
    (h : DeclaresWires config b names) : Contributes config b (names.map Signal.mk) [] := by
  obtain ⟨⟨kind, text, line⟩, hread, rfl, hnames⟩ := h
  have := Contributes.of_item hread trivial (by
    simp [Item.findings, Item.declarationFindings, Item.isSkipped, hnames])
  simpa [Item.wires, Item.placed, hnames] using this

/-- The names of a declaration, those of ports left out: by a declaration of the others, or by no
statement if there are no others. -/
def OmitsPorts (config : Config) (names : List Text) (block : List Text) : Prop :=
  DeclaresWires config block (names.filter fun n => (⟨n⟩ : Signal) ∉ config.ports) ∨
    block = [] ∧ ∀ n ∈ names, (⟨n⟩ : Signal) ∈ config.ports

theorem OmitsPorts.contributes {b : List Text} {names : List Text}
    (h : OmitsPorts config names b) : ∃ ws, Contributes config b ws [] ∧
      ∀ a ∉ config.ports, a ∈ ws ↔ a ∈ names.map Signal.mk := by
  rcases h with h | ⟨rfl, h⟩
  · refine ⟨_, h.contributes, fun a ha => ?_⟩
    simp only [List.mem_map, List.mem_filter, decide_eq_true_eq]
    constructor
    · rintro ⟨n, ⟨hn, -⟩, rfl⟩
      exact ⟨n, hn, rfl⟩
    · rintro ⟨n, hn, rfl⟩
      exact ⟨n, ⟨hn, ha⟩, rfl⟩
  · refine ⟨[], contributes_nil config, fun a ha => ?_⟩
    simp only [List.not_mem_nil, List.mem_map, false_iff]
    rintro ⟨n, hn, rfl⟩
    exact ha (h n hn)

theorem Config.resolve_bitNet (config : Config) {role : BusRole} {i : Nat} (hi : i < config.width) :
    config.resolve (bitNet (config.busName role) i) =
      .ok ⟨scalarName (config.busName role) i⟩ := by
  rw [IsNet.resolve_eq (.inl ⟨role, i, hi, rfl⟩), flatName_bitNet (config.isWord_busName role)]

/-- **Declared wires and ports.** In a flattened file a declared wire whose name is none of a port is
a wire of the flat module, and no bit of a bus refers to it.  One with the name of a port is that
port: a bit of a bus refers to it, and it is no wire.  The names of ports may be left out of a
declaration: the file is flattened to the same, with the same findings, or it fails as well. -/
theorem declared_ports (config : Config) (file : SourceFile) :
    (∀ f, (flatten config file).result = .ok f → ∀ a ∈ file.wires config,
      (a ∈ f.flat.wires ∧
        ∀ role, ∀ i < config.width, config.resolve (bitNet (config.busName role) i) ≠ .ok a) ∨
      (a ∉ f.flat.wires ∧ a ∈ f.flat.inputs ++ f.flat.outputs ∧
        ∃ role, ∃ i < config.width, a = ⟨scalarName (config.busName role) i⟩ ∧
          config.resolve (bitNet (config.busName role) i) = .ok a)) ∧
    (∀ head before b after tail names, file.Cut config head (before ++ b :: after) tail →
      DeclaresWires config b names → ∀ file' b', OmitsPorts config names b' →
        file'.lines.map Line.text = head ++ (before ++ b' :: after).flatten ++ tail →
      ∀ f, ((flatten config file').result = .ok f ↔ (flatten config file).result = .ok f) ∧
        ((flatten config file).result = .ok f →
          (flatten config file').findings.map Diagnostic.unplaced =
            (flatten config file).findings.map Diagnostic.unplaced)) := by
  constructor
  · intro f hf a ha
    have hwires : a ∈ f.flat.wires ↔ a ∉ config.ports := by
      rw [wires_of_flatten_eq_ok hf, mem_wires_addAll]
      exact and_iff_right (.inl ha)
    rw [hwires, ports_of_flatten_eq_ok hf]
    by_cases hp : a ∈ config.ports
    · obtain ⟨role, i, hi, rfl⟩ := Config.mem_ports.mp hp
      exact .inr ⟨not_not_intro hp, hp, role, i, hi, rfl, config.resolve_bitNet hi⟩
    · refine .inl ⟨hp, fun role i hi hr => hp ?_⟩
      rw [config.resolve_bitNet hi] at hr
      exact Config.mem_ports.mpr ⟨role, i, hi, (Except.ok.inj hr).symm⟩
  · intro head before b after tail names hcut hnames file' b' homits hl f
    obtain ⟨ws, hb', hws⟩ := homits.contributes
    have hcut' : file'.Cut config head (before ++ b' :: after) tail := by
      refine ⟨hl, hcut.enters, fun c hc => ?_⟩
      rcases List.mem_append.mp hc with hc | hc
      · exact hcut.whole c (List.mem_append_left _ hc)
      · rcases List.mem_cons.mp hc with rfl | hc
        · exact hb'.whole
        · exact hcut.whole c (List.mem_append_right _ (List.mem_cons_of_mem _ hc))
    have hiff := flatten_eq_ok_iff_of_contributes (f := f) hcut hcut' hnames.contributes hb' hws
    exact ⟨hiff, fun hf => unplaced_findings_eq_of_contributes hcut hcut' hnames.contributes hb' hf
      (hiff.mpr hf)⟩

/-- A module that declares a port among its wires, and the same without. -/
def portWireFile : SourceFile :=
  sampleModule [["  wire in_array_0, n;"], ["  IV g0 (.A(in_array[0]), .Z(n));"],
    ["  IV g1 (.A(n), .Z(out_array[0]));"]]

theorem flatten_portWireFile : ∃ f, (flatten sampleConfig portWireFile).result = .ok f ∧
    f.flat.wires = [⟨"n".toList⟩] := by
  decide +kernel

theorem declared_ports_portWireFile :
    ∃ f, (flatten sampleConfig portWireFile).result = .ok f ∧
      (⟨"in_array_0".toList⟩ : Signal) ∉ f.flat.wires ∧
      (flatten sampleConfig (sampleModule [["  wire n;"], ["  IV g0 (.A(in_array[0]), .Z(n));"],
        ["  IV g1 (.A(n), .Z(out_array[0]));"]])).result = .ok f := by
  obtain ⟨hnames, homits⟩ := declared_ports sampleConfig portWireFile
  obtain ⟨f, hf, -⟩ := flatten_portWireFile
  refine ⟨f, hf, ?_, ?_⟩
  · have hp : sampleConfig.resolve (bitNet (sampleConfig.busName .input) 0) =
        .ok ⟨"in_array_0".toList⟩ := sampleConfig.resolve_bitNet (by decide)
    rcases hnames f hf ⟨"in_array_0".toList⟩ (by decide +kernel) with ⟨-, h⟩ | ⟨h, -⟩
    · exact absurd hp (h .input 0 (by decide))
    · exact h
  · have hcut : portWireFile.Cut sampleConfig ["module top(in_array, out_array);".toList]
        ([] ++ ["  wire in_array_0, n;".toList] ::
          [["  IV g0 (.A(in_array[0]), .Z(n));".toList],
            ["  IV g1 (.A(n), .Z(out_array[0]));".toList]]) ["endmodule".toList] :=
      ⟨by decide +kernel, by decide +kernel, by decide +kernel⟩
    have hdecl : DeclaresWires sampleConfig ["  wire in_array_0, n;".toList]
        ["in_array_0".toList, "n".toList] :=
      ⟨⟨.wire, " in_array_0, n;".toList, .none⟩, by decide +kernel, rfl, by decide +kernel⟩
    have homit : OmitsPorts sampleConfig ["in_array_0".toList, "n".toList]
        ["  wire n;".toList] :=
      .inl ⟨⟨.wire, " n;".toList, .none⟩, by decide +kernel, rfl, by decide +kernel⟩
    exact ((homits _ _ _ _ _ _ hcut hdecl _ _ homit (by decide +kernel)) f).1.mpr hf

/-- So a module is not rejected for a declared wire that has the name of a port bit, and declared
wires are not always nets of their own. -/
theorem not_forall_declared_not_port :
    (⟨"in_array_0".toList⟩ : Signal) ∈ portWireFile.wires sampleConfig ∧
    sampleConfig.resolve "in_array[0]".toList = .ok ⟨"in_array_0".toList⟩ ∧
    ¬(∃ line name existing, (flatten sampleConfig portWireFile).result =
      .error ⟨line, .nameCollision name existing⟩) ∧
    ¬∀ (config : Config) (file : SourceFile) (f : Flattened),
      (flatten config file).result = .ok f → ∀ a ∈ file.wires config, a ∉ config.ports := by
  have hw : (⟨"in_array_0".toList⟩ : Signal) ∈ portWireFile.wires sampleConfig := by
    decide +kernel
  obtain ⟨f, hf, -⟩ := flatten_portWireFile
  refine ⟨hw, by decide +kernel, ?_, fun h => ?_⟩
  · rintro ⟨line, name, existing, he⟩
    simp [hf] at he
  · exact h _ _ f hf _ hw (by decide +kernel)

end NetFlat
