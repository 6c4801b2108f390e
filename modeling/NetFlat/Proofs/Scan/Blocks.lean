import NetFlat.Proofs.Flattening
import NetFlat.Proofs.Scan.Places

/-!
# Blocks of whole statements

The lines of a file, cut into a head, blocks of whole statements and a tail.  Where the lines stand
does not matter to what flattening makes of them, so the items of the blocks are read at no place.

* `SourceFile.Cut`: a file that is cut;
* `Cut.erasedItems_eq`: its items are those of the blocks, apart from those of head and tail;
* `flatten_eq_ok_iff_erasedItems`: when flattening succeeds, and with what, by the items at no place.
-/

namespace NetFlat

variable {config : Config} {file : SourceFile} {f : Flattened}

/-! ### Whole statements -/

def codes (ts : List Text) : List (Text × Line) := ts.map fun t => (Dialect.code t, .none)

/-- The items of whole statements, given by their lines. -/
def blockItems (config : Config) (block : List Text) : List Item :=
  (Phase.body.read config (codes block)).2

/-- The assignments that whole statements contribute. -/
def blockAssignments (config : Config) (block : List Text) : List Assignment :=
  (blockItems config block).flatMap (Item.assignments config)

/-- The lines of the file are a head that leads into the body of the module, blocks of whole
statements, and a tail. -/
structure SourceFile.Cut (config : Config) (file : SourceFile) (head : List Text)
    (blocks : List (List Text)) (tail : List Text) : Prop where
  texts : file.lines.map Line.text = head ++ blocks.flatten ++ tail
  enters : (Phase.seeking.read config (codes head)).1 = .body
  whole : ∀ b ∈ blocks, (Phase.body.read config (codes b)).1 = .body

theorem codes_append (ts us : List Text) : codes (ts ++ us) = codes ts ++ codes us :=
  List.map_append

theorem read_flatten {blocks : List (List Text)}
    (h : ∀ b ∈ blocks, (Phase.body.read config (codes b)).1 = .body) :
    Phase.body.read config (codes blocks.flatten) = (.body, blocks.flatMap (blockItems config)) := by
  induction blocks with
  | nil => rfl
  | cons b blocks ih =>
    have hb : Phase.body.read config (codes b) = (.body, blockItems config b) :=
      Prod.ext (h b (by simp)) rfl
    rw [List.flatten_cons, codes_append, Phase.read_append, hb, ih fun c hc => h c (by simp [hc])]
    rfl

/-! ### Items at no place -/

def SourceFile.erasedItems (config : Config) (file : SourceFile) : List Item :=
  (file.items config).map (Item.relocate .erase)

theorem read_codes_map_text (config : Config) (p : Phase) (ls : List Line) :
    (p.relocate .erase).read config (codes (ls.map Line.text)) =
      ((p.read config (ls.map Line.coded)).1.relocate .erase,
        (p.read config (ls.map Line.coded)).2.map (Item.relocate .erase)) := by
  have hc : codes (ls.map Line.text) =
      (ls.map Line.coded).map fun l => (l.1, Relocation.erase.line l.2) := by
    simp only [codes, List.map_map]
    rfl
  rw [hc]
  exact Phase.read_relocate (r := .erase) config p (ls.map Line.coded)

theorem read_codes (config : Config) (file : SourceFile) :
    Phase.seeking.read config (codes (file.lines.map Line.text)) =
      ((Phase.seeking.read config file.coded).1.relocate .erase, file.erasedItems config) :=
  read_codes_map_text config .seeking file.lines

theorem relocate_eq_closed_iff {r : Relocation} {p : Phase} : p.relocate r = .closed ↔ p = .closed := by
  cases p <;> simp [Phase.relocate]

theorem relocate_eq_body_iff {r : Relocation} {p : Phase} : p.relocate r = .body ↔ p = .body := by
  cases p <;> simp [Phase.relocate]

theorem flatMap_uses_erasedItems (config : Config) (file : SourceFile) :
    (file.erasedItems config).flatMap (Item.uses config) = file.uses config := by
  simp only [SourceFile.erasedItems, List.flatMap_map, Item.uses_relocate]
  rfl

theorem flatMap_wires_erasedItems (config : Config) (file : SourceFile) :
    (file.erasedItems config).flatMap Item.wires = file.wires config := by
  simp only [SourceFile.erasedItems, List.flatMap_map, Item.wires_relocate]
  rfl

theorem flatMap_placed_erasedItems (config : Config) (file : SourceFile) :
    (file.erasedItems config).flatMap (Item.placed config) = file.gates config := by
  simp only [SourceFile.erasedItems, List.flatMap_map, Item.placed_relocate]
  rfl

theorem forall_sound_erasedItems :
    (∀ i ∈ file.erasedItems config, i.Sound config) ↔ ∀ i ∈ file.items config, i.Sound config := by
  simp only [SourceFile.erasedItems, List.forall_mem_map, Item.sound_relocate_iff]

theorem foldl_count_erasedItems (config : Config) (file : SourceFile) (stats : Stats) :
    (file.erasedItems config).foldl (Item.count config) stats =
      (file.items config).foldl (Item.count config) stats := by
  simp only [SourceFile.erasedItems, List.foldl_map, Item.count_relocate]

theorem flattened_erasedItems (config : Config) (file : SourceFile) :
    (Scan.finished config (file.erasedItems config)).flattened config =
      (Scan.finished config (file.items config)).flattened config := by
  rw [Scan.flattened_finished, Scan.flattened_finished, flatMap_uses_erasedItems,
    flatMap_placed_erasedItems, foldl_count_erasedItems]
  rfl

/-- When flattening succeeds, and with what, by the items at no place. -/
theorem flatten_eq_ok_iff_erasedItems : (flatten config file).result = .ok f ↔
    file.Closes config ∧ (∀ i ∈ file.erasedItems config, i.Sound config) ∧
      (Scan.start config).scope.ClashFree ((file.erasedItems config).flatMap (Item.uses config)) ∧
      f = (Scan.finished config (file.erasedItems config)).flattened config := by
  rw [flatten_eq_ok_iff, forall_sound_erasedItems, flatMap_uses_erasedItems, flattened_erasedItems]

/-- Nothing is found about a file if nothing is found about its items at no place. -/
theorem findings_eq_nil_of_erasedItems (h : (flatten config file).result = .ok f)
    (hi : ∀ i ∈ file.erasedItems config, i.findings config = []) :
    (flatten config file).findings = [] := by
  rw [findings_of_flatten_eq_ok h, List.flatMap_eq_nil_iff]
  intro i hmem
  have := Item.unplaced_findings_relocate config (r := .erase) i
  rw [hi _ (List.mem_map_of_mem hmem)] at this
  exact List.map_eq_nil_iff.mp this.symm

/-! ### Items of a cut file -/

/-- The whole statements are sound and nothing is found about them; they declare the wires and place
the gates. -/
structure Contributes (config : Config) (block : List Text) (wires : List Signal)
    (gates : List Placed) : Prop where
  whole : (Phase.body.read config (codes block)).1 = .body
  sound : ∀ i ∈ blockItems config block, i.Sound config
  findings : ∀ i ∈ blockItems config block, i.findings config = []
  wires_eq : (blockItems config block).flatMap Item.wires = wires
  gates_eq : (blockItems config block).flatMap (Item.placed config) = gates

theorem Contributes.of_item {block : List Text} {i : Item}
    (h : Phase.body.read config (codes block) = (.body, [i])) (hs : i.Sound config)
    (hf : i.findings config = []) :
    Contributes config block i.wires (i.placed config) := by
  have hi : blockItems config block = [i] := congrArg Prod.snd h
  refine ⟨congrArg Prod.fst h, ?_, ?_, ?_, ?_⟩ <;> simp [hi, hs, hf]

theorem Contributes.append {b c : List Text} {ws vs : List Signal} {gs hs : List Placed}
    (hb : Contributes config b ws gs) (hc : Contributes config c vs hs) :
    Contributes config (b ++ c) (ws ++ vs) (gs ++ hs) := by
  have hr : Phase.body.read config (codes (b ++ c)) =
      ((Phase.body.read config (codes c)).1, blockItems config b ++ blockItems config c) := by
    rw [codes_append, Phase.read_append, hb.whole]
    rfl
  have hi : blockItems config (b ++ c) = blockItems config b ++ blockItems config c :=
    congrArg Prod.snd hr
  refine ⟨by rw [hr, hc.whole], fun i hmem => ?_, fun i hmem => ?_, ?_, ?_⟩
  · rw [hi] at hmem
    exact (List.mem_append.mp hmem).elim (hb.sound i) (hc.sound i)
  · rw [hi] at hmem
    exact (List.mem_append.mp hmem).elim (hb.findings i) (hc.findings i)
  · rw [hi, List.flatMap_append, hb.wires_eq, hc.wires_eq]
  · rw [hi, List.flatMap_append, hb.gates_eq, hc.gates_eq]

theorem contributes_nil (config : Config) : Contributes config [] [] [] :=
  ⟨rfl, by simp [blockItems, codes, Phase.read], by simp [blockItems, codes, Phase.read], rfl, rfl⟩

theorem contributes_flatMap (config : Config) {α : Type} (l : List α) (b : α → List Text)
    (ws : α → List Signal) (gs : α → List Placed) (h : ∀ x ∈ l, Contributes config (b x) (ws x) (gs x)) :
    Contributes config (l.flatMap b) (l.flatMap ws) (l.flatMap gs) := by
  induction l with
  | nil => exact contributes_nil config
  | cons x l ih =>
    simp only [List.flatMap_cons]
    exact (h x (by simp)).append (ih fun y hy => h y (by simp [hy]))

namespace SourceFile.Cut

variable {head tail : List Text} {blocks : List (List Text)}

theorem read_eq (h : file.Cut config head blocks tail) :
    Phase.seeking.read config (codes (file.lines.map Line.text)) =
      ((Phase.body.read config (codes tail)).1, (Phase.seeking.read config (codes head)).2 ++
        blocks.flatMap (blockItems config) ++ (Phase.body.read config (codes tail)).2) := by
  have hc : codes (head ++ blocks.flatten ++ tail) =
      codes head ++ (codes blocks.flatten ++ codes tail) := by
    simp [codes]
  rw [h.texts, hc, Phase.read_append, h.enters, Phase.read_append, read_flatten h.whole,
    List.append_assoc]

theorem closes_iff (h : file.Cut config head blocks tail) :
    file.Closes config ↔ (Phase.body.read config (codes tail)).1 = .closed := by
  have := h.read_eq
  rw [read_codes] at this
  rw [← congrArg Prod.fst this]
  exact relocate_eq_closed_iff.symm

theorem erasedItems_eq (h : file.Cut config head blocks tail) :
    file.erasedItems config = (Phase.seeking.read config (codes head)).2 ++
      blocks.flatMap (blockItems config) ++ (Phase.body.read config (codes tail)).2 := by
  have := h.read_eq
  rw [read_codes] at this
  exact congrArg Prod.snd this

end SourceFile.Cut

end NetFlat
