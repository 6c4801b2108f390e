import NetFlat.Proofs.Scan.Order
import NetFlat.Proofs.Scan.Pieces

/-!
# Leaving out what is passed over

Some statements leave no trace in the flat module: those that are reported as skipped, instances of
cells that are not in the catalog, declarations of ports, and declarations of wires with a range.

* `Item.Inert`: items of this kind; no names are used by them and no gates are placed;
* `Omits`: whole statements, some of this kind and some silent lines left out;
* `omission`: flattening a file without them.
-/

namespace NetFlat

variable {config : Config} {file : SourceFile} {f : Flattened}

namespace Item

/-- The item is an instance of a cell that is not in the catalog, a declaration of ports, a declaration
of wires with a range, or it is reported as skipped. -/
inductive Inert (config : Config) : Item → Prop
  | gate {g : OpenGate} (h : Cell.find? g.keyword = none) : Inert config (.gate g)
  | ports {role : BusRole} {text : Text} {line : Line} :
      Inert config (.declaration ⟨.port role, text, line⟩)
  | ranged {text : Text} {line : Line} {range : Nat × Nat} {names : List Text}
      (h : Declaration.read? text = some ⟨some range, names⟩) :
      Inert config (.declaration ⟨.wire, text, line⟩)
  | skipped {i : Item} {d : Diagnostic} (hd : d ∈ i.findings config) (hc : d.code = ⟨.info, 302⟩) :
      Inert config i

/-- Reported as skipped are the items that count as a skipped line. -/
theorem isSkipped_of_mem_findings {i : Item} {d : Diagnostic} (hd : d ∈ i.findings config)
    (hc : d.code = ⟨.info, 302⟩) : i.isSkipped config = true := by
  cases i with
  | gate g =>
    have hcode : ∀ d ∈ (gate g).findings config, d.code = ⟨.info, 301⟩ := by
      intro d hd
      simp only [findings] at hd
      split at hd
      · simp at hd
      · rw [List.mem_singleton.mp hd]
        rfl
    exact absurd (hc.symm.trans (hcode d hd)) (by decide)
  | other line => rfl
  | declaration o =>
    rcases List.mem_append.mp hd with hd | hd
    · have := category_of_mem_declarationFindings hd
      simp [hc] at this
    · split at hd
      · assumption
      · simp at hd

namespace Inert

variable {i : Item}

theorem wires_eq_nil (h : i.Inert config) : i.wires = [] := by
  cases h with
  | gate h => rfl
  | ports => rfl
  | ranged h => simp [wires, h]
  | skipped hd hc =>
    have hs := isSkipped_of_mem_findings hd hc
    cases i with
    | gate g => rfl
    | other line => rfl
    | declaration d =>
      obtain ⟨kind, text, line⟩ := d
      cases kind with
      | port role => rfl
      | wire =>
        cases hr : Declaration.read? text with
        | none => simp [wires, hr]
        | some decl => simp [isSkipped, hr] at hs

theorem lowered?_eq_none (h : i.Inert config) : i.lowered? = none := by
  cases h with
  | gate h => simp [lowered?, h]
  | ports | ranged => rfl
  | skipped hd hc =>
    have hs := isSkipped_of_mem_findings hd hc
    cases i with
    | gate g => simp [isSkipped] at hs
    | other line | declaration d => rfl

theorem placed_eq_nil (h : i.Inert config) : i.placed config = [] := by
  cases i with
  | other line | declaration d => rfl
  | gate g =>
    have hc : Cell.find? g.keyword = none := by
      have := h.lowered?_eq_none
      simpa [lowered?] using this
    simp [placed, OpenGate.placed?, hc]

theorem uses_eq_nil (h : i.Inert config) : i.uses config = [] := by
  simp [uses, h.wires_eq_nil, h.placed_eq_nil]

end Inert

end Item

/-! ### Whole statements left out -/

/-- Lines that may be left out: a line that is blank or an attribute, or the lines of an inert item. -/
inductive Omittable (config : Config) : List Text → Prop
  | silent {t : Text} (h : Dialect.Silent (Dialect.code t)) : Omittable config [t]
  | item {b : List Text} {i : Item} (h : Phase.body.read config (codes b) = (.body, [i]))
      (inert : i.Inert config) : Omittable config b

/-- The second row is the first one with some blocks left out that may be. -/
inductive Omits (config : Config) : List (List Text) → List (List Text) → Prop
  | nil : Omits config [] []
  | keep (b : List Text) {bs cs : List (List Text)} (rest : Omits config bs cs) :
      Omits config (b :: bs) (b :: cs)
  | drop {b : List Text} {bs cs : List (List Text)} (h : Omittable config b)
      (rest : Omits config bs cs) : Omits config (b :: bs) cs

theorem Omittable.inert {b : List Text} (h : Omittable config b) :
    ∀ i ∈ blockItems config b, i.Inert config := by
  intro i hi
  cases h with
  | silent h => simp [blockItems, read_silent h] at hi
  | item h inert =>
    rw [blockItems, h] at hi
    rwa [List.mem_singleton.mp hi]

namespace Omits

variable {bs cs : List (List Text)}

theorem subset (h : Omits config bs cs) : cs ⊆ bs := by
  induction h with
  | nil => exact List.Subset.refl _
  | keep b _ ih => exact List.cons_subset_cons b ih
  | drop _ _ ih => exact List.subset_cons_of_subset _ ih

/-- What inert items have no part in is the same without them. -/
theorem flatMap_eq {α : Type} {part : Item → List α}
    (hpart : ∀ i : Item, i.Inert config → part i = []) (h : Omits config bs cs) :
    (cs.flatMap (blockItems config)).flatMap part = (bs.flatMap (blockItems config)).flatMap part := by
  induction h with
  | nil => rfl
  | keep b _ ih => simp only [List.flatMap_cons, List.flatMap_append, ih]
  | drop h _ ih =>
    have hnil : ∀ i ∈ blockItems config _, part i = [] := fun i hi => hpart i (h.inert i hi)
    rw [List.flatMap_cons, List.flatMap_append, List.flatMap_eq_nil_iff.mpr hnil, ih,
      List.nil_append]

end Omits

/-! ### Files -/

namespace SourceFile.Cut

variable {file' : SourceFile} {head tail : List Text} {bs cs : List (List Text)}

theorem omits (h : file.Cut config head bs tail) (ho : Omits config bs cs)
    (hl : file'.lines.map Line.text = head ++ cs.flatten ++ tail) : file'.Cut config head cs tail :=
  ⟨hl, h.enters, fun b hb => h.whole b (ho.subset hb)⟩

theorem erasedItems_subset (h : file.Cut config head bs tail) (h' : file'.Cut config head cs tail)
    (ho : Omits config bs cs) : file'.erasedItems config ⊆ file.erasedItems config := by
  intro i hi
  rw [h'.erasedItems_eq, List.mem_append, List.mem_append, List.mem_flatMap] at hi
  rw [h.erasedItems_eq, List.mem_append, List.mem_append, List.mem_flatMap]
  exact hi.imp_left (Or.imp_right fun ⟨b, hb, hib⟩ => ⟨b, ho.subset hb, hib⟩)

theorem flatMap_erasedItems_eq {α : Type} {part : Item → List α}
    (hpart : ∀ i : Item, i.Inert config → part i = []) (h : file.Cut config head bs tail)
    (h' : file'.Cut config head cs tail) (ho : Omits config bs cs) :
    (file'.erasedItems config).flatMap part = (file.erasedItems config).flatMap part := by
  rw [h.erasedItems_eq, h'.erasedItems_eq]
  simp only [List.flatMap_append, ho.flatMap_eq hpart]

end SourceFile.Cut

/-- **Skipped content is inert.**  The body of a flattened file falls into pieces.  However the file
is cut into whole statements, it can be flattened also without blocks of it that are silent lines or
items of no effect, to the same flat module and the same statistics but for what is skipped.  With
offsets of 32 bits this is for files of less than 2^32 bytes (`Bytes.eq_of_flatten_eq_ok`). -/
theorem omission (h : (flatten config file).result = .ok f) :
    (∃ (head : List Text) (pieces : List (List Text)) (closing : Text) (after : List Text),
      file.Cut config head pieces (closing :: after) ∧
        (Phase.seeking.read config (codes head)).2 = [] ∧ (∀ b ∈ pieces, Piece config b) ∧
          Dialect.Closes (Dialect.code closing)) ∧
    ∀ head blocks tail, file.Cut config head blocks tail → ∀ kept, Omits config blocks kept →
      ∀ file' : SourceFile, file'.lines.map Line.text = head ++ kept.flatten ++ tail →
        ∃ f', (flatten config file').result = .ok f' ∧ f'.text = f.text ∧ f'.flat = f.flat ∧
          f'.stats.translated = f.stats.translated ∧
          f'.stats.auxiliaryWires = f.stats.auxiliaryWires ∧
          f'.stats.assignments = f.stats.assignments ∧ f'.stats.wires = f.stats.wires := by
  obtain ⟨hcl, hsound, hfree, rfl⟩ := flatten_eq_ok_iff_erasedItems.mp h
  refine ⟨SourceFile.exists_pieces hcl, fun head blocks tail hcut kept ho file' hl => ?_⟩
  have hcut' := hcut.omits ho hl
  have huses : (file'.erasedItems config).flatMap (Item.uses config) =
      (file.erasedItems config).flatMap (Item.uses config) :=
    hcut.flatMap_erasedItems_eq (fun i hi => hi.uses_eq_nil) hcut' ho
  have hplaced : (file'.erasedItems config).flatMap (Item.placed config) =
      (file.erasedItems config).flatMap (Item.placed config) :=
    hcut.flatMap_erasedItems_eq (fun i hi => hi.placed_eq_nil) hcut' ho
  have hlowered : (file'.erasedItems config).flatMap (·.lowered?.toList) =
      (file.erasedItems config).flatMap (·.lowered?.toList) :=
    hcut.flatMap_erasedItems_eq (fun i hi => by rw [hi.lowered?_eq_none]; rfl) hcut' ho
  have htranslated : ((file'.erasedItems config).foldl (Item.count config) {}).translated =
      ((file.erasedItems config).foldl (Item.count config) {}).translated := by
    simp only [Item.foldl_count, List.filterMap_eq_flatMap_toList, hlowered]
  refine ⟨_, flatten_eq_ok_iff_erasedItems.mpr ⟨?_, fun i hi => ?_, ?_, rfl⟩, ?_⟩
  · exact hcut'.closes_iff.mpr (hcut.closes_iff.mp hcl)
  · exact hsound i (hcut.erasedItems_subset hcut' ho hi)
  · rwa [huses]
  · rw [Scan.flattened_finished, Scan.flattened_finished, huses, hplaced]
    exact ⟨rfl, rfl, htranslated, rfl, rfl, rfl⟩

/-- A module with a statement of each kind that may be left out. -/
def clutteredFile : SourceFile :=
  sampleModule [["  input [1:0] in_array;"], ["  (* keep *)"], ["  wire [3:0] t;"], ["  wire n;"],
    ["  DFF r0 (.D(n),", "    .Q(q));"], ["  assign x = n;"], ["  IV g0 (.A(in_array[0]), .Z(n));"],
    [""], ["  IV g1 (.A(n), .Z(out_array[0]));"]]

/-- The same module without them, but for the attribute. -/
def tidyFile : SourceFile :=
  sampleModule [["  (* keep *)"], ["  wire n;"], ["  IV g0 (.A(in_array[0]), .Z(n));"],
    ["  IV g1 (.A(n), .Z(out_array[0]));"]]

theorem flatten_clutteredFile : ∃ f, (flatten sampleConfig clutteredFile).result = .ok f ∧
    f.flat.wires = [⟨"n".toList⟩] ∧ f.stats.skippedCells = [("DFF".toList, 1)] ∧
      f.stats.skippedLines = 1 := by
  decide +kernel

theorem omission_clutteredFile :
    ∃ f f', (flatten sampleConfig clutteredFile).result = .ok f ∧
      (flatten sampleConfig tidyFile).result = .ok f' ∧ f'.text = f.text ∧
        f'.stats.translated = f.stats.translated ∧ f.stats.skippedLines = 1 := by
  obtain ⟨f, hf, -, -, hskipped⟩ := flatten_clutteredFile
  have hcut : clutteredFile.Cut sampleConfig ["module top(in_array, out_array);".toList]
      [["  input [1:0] in_array;".toList], ["  (* keep *)".toList], ["  wire [3:0] t;".toList],
        ["  wire n;".toList], ["  DFF r0 (.D(n),".toList, "    .Q(q));".toList],
        ["  assign x = n;".toList], ["  IV g0 (.A(in_array[0]), .Z(n));".toList], [[]],
        ["  IV g1 (.A(n), .Z(out_array[0]));".toList]] ["endmodule".toList] :=
    ⟨by decide +kernel, by decide +kernel, by decide +kernel⟩
  have hports : Omittable sampleConfig ["  input [1:0] in_array;".toList] :=
    .item (i := .declaration ⟨.port .input, " [1:0] in_array;".toList, .none⟩) (by decide +kernel)
      .ports
  have hread : Declaration.read? " [3:0] t;".toList = some ⟨some (3, 0), ["t".toList]⟩ := by
    decide +kernel
  have hranged : Omittable sampleConfig ["  wire [3:0] t;".toList] :=
    .item (i := .declaration ⟨.wire, " [3:0] t;".toList, .none⟩) (by decide +kernel) (.ranged hread)
  have hcell : Omittable sampleConfig ["  DFF r0 (.D(n),".toList, "    .Q(q));".toList] :=
    .item (i := .gate ⟨"DFF".toList, "r0".toList, .none,
      [("DFF r0 (.D(n),".toList, .none), (".Q(q));".toList, .none)]⟩) (by decide +kernel)
      (.gate (by decide +kernel))
  have hother : Omittable sampleConfig ["  assign x = n;".toList] :=
    .item (i := .other .none) (by decide +kernel)
      (.skipped (d := Scan.skipNote .none) (List.mem_singleton_self _) rfl)
  have hblank : Omittable sampleConfig [[]] := .silent (.inl rfl)
  obtain ⟨f', hf', htext, -, htranslated, -⟩ := (omission hf).2 _ _ _ hcut _
    (.drop hports <| .keep _ <| .drop hranged <| .keep _ <| .drop hcell <| .drop hother <|
      .keep _ <| .drop hblank <| .keep _ .nil) tidyFile (by decide +kernel)
  exact ⟨f, f', hf, hf', htext, htranslated, hskipped⟩

end NetFlat
