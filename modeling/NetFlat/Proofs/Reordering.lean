import NetFlat.Proofs.Scan.Blocks
import NetFlat.Proofs.Scan.Order

/-!
# Statements in another order

The whole statements of a module body may be put into another order.  Clashes of names do not depend
on the order, so they are what keeps a module with sound statements from being flattened, wherever
its statements stand.

* `exists_flatten_of_perm`: the statements in another order;
* `flatten_eq_error_iff`: when a closed module with sound items fails;
* `statement_order`: both.
-/

namespace NetFlat

variable {config : Config} {file file' : SourceFile} {f : Flattened}

/-! ### Another order -/

/-- **Statements in another order** are flattened to the same wires and the same counts, with their
assignments in that order. -/
theorem exists_flatten_of_perm {head tail : List Text} {blocks blocks' : List (List Text)}
    (hcut : file.Cut config head blocks tail) (hperm : blocks'.Perm blocks)
    (ht : file'.lines.map Line.text = head ++ blocks'.flatten ++ tail)
    (h : (flatten config file).result = .ok f) :
    ∃ f', (flatten config file').result = .ok f' ∧ f'.stats = f.stats ∧ ∃ before after,
      f.flat.assignments = before ++ blocks.flatMap (blockAssignments config) ++ after ∧
      f'.flat = { f.flat with
        assignments := before ++ blocks'.flatMap (blockAssignments config) ++ after } := by
  obtain ⟨hcl, hs, hc, rfl⟩ := flatten_eq_ok_iff_erasedItems.mp h
  have hw' : ∀ b ∈ blocks', (Phase.body.read config (codes b)).1 = .body := fun b hb =>
    hcut.whole b (hperm.mem_iff.mp hb)
  have hcut' : file'.Cut config head blocks' tail := ⟨ht, hcut.enters, hw'⟩
  have hi := hcut.erasedItems_eq
  have hi' := hcut'.erasedItems_eq
  have hitems : (file.erasedItems config).Perm (file'.erasedItems config) := by
    rw [hi, hi']
    exact ((hperm.symm.flatMap_right _).append_left _).append_right _
  obtain ⟨hstats, hflat⟩ := Scan.flattened_finished_perm config hitems
  refine ⟨_, flatten_eq_ok_iff_erasedItems.mpr ⟨hcut'.closes_iff.mpr (hcut.closes_iff.mp hcl), fun i hmem => ?_,
    hc.perm (hitems.flatMap_right _), rfl⟩, hstats,
    (Phase.seeking.read config (codes head)).2.flatMap (Item.assignments config),
    (Phase.body.read config (codes tail)).2.flatMap (Item.assignments config), ?_, ?_⟩
  · exact hs i (hitems.mem_iff.mpr hmem)
  · show ((file.erasedItems config).flatMap (Item.placed config)).flatMap Placed.assignments = _
    rw [Item.flatMap_assignments, hi, List.flatMap_append, List.flatMap_append, List.flatMap_assoc]
    rfl
  · rw [hflat, hi', List.flatMap_append, List.flatMap_append, List.flatMap_assoc]
    rfl

/-! ### Clashes -/

theorem nodup_filterMap_iff {α β : Type} {f : α → Option β} {l : List α} :
    (l.filterMap f).Nodup ↔ ∀ (j k : Nat) x y b, l[j]? = some x → l[k]? = some y → f x = some b →
      f y = some b → j = k := by
  rw [List.Nodup, List.pairwise_filterMap, List.pairwise_iff_getElem]
  constructor
  · intro h j k x y b hx hy hxb hyb
    obtain ⟨hj, rfl⟩ := List.getElem?_eq_some_iff.mp hx
    obtain ⟨hk, rfl⟩ := List.getElem?_eq_some_iff.mp hy
    rcases Nat.lt_trichotomy j k with hlt | heq | hlt
    · exact absurd rfl (h j k hj hk hlt b hxb b hyb)
    · exact heq
    · exact absurd rfl (h k j hk hj hlt b hyb b hxb)
  · intro h j k hj hk hlt b hb c hc e
    subst e
    have := h j k l[j] l[k] b (List.getElem?_eq_getElem hj) (List.getElem?_eq_getElem hk) hb hc
    omega

/-- The auxiliary wire of a gate is a port, a declared wire, a signal that a gate refers to, or the
auxiliary wire of another gate. -/
def SourceFile.Collides (config : Config) (file : SourceFile) : Prop :=
  ∃ (k : Nat) (g : Placed) (a : Signal),
    (file.gates config)[k]? = some g ∧ g.auxiliary? = some a ∧
      (a ∈ config.ports ∨ a ∈ file.wires config ∨ (∃ h ∈ file.gates config, a ∈ h.signals) ∨
        ∃ (j : Nat) (h : Placed), j ≠ k ∧ (file.gates config)[j]? = some h ∧
          h.auxiliary? = some a)

theorem not_clashFree_uses_iff :
    ¬(Scan.start config).scope.ClashFree (file.uses config) ↔ file.Collides config := by
  rw [clashFree_uses_iff, SourceFile.auxiliaries, nodup_filterMap_iff]
  constructor
  · intro hn
    by_contra hno
    refine hn ⟨fun j k x y b hx hy hxb hyb => ?_, fun a ha => ?_⟩
    · by_contra hne
      exact hno ⟨k, y, b, hy, hyb, .inr (.inr (.inr ⟨j, x, hne, hx, hxb⟩))⟩
    · obtain ⟨g, hg, hga⟩ := List.mem_filterMap.mp ha
      obtain ⟨k, hk⟩ := List.mem_iff_getElem?.mp hg
      refine ⟨Config.not_mem_ports_iff.mp fun hp => ?_, fun hw => ?_, fun h hh hs => ?_⟩
      · exact hno ⟨k, g, a, hk, hga, .inl hp⟩
      · exact hno ⟨k, g, a, hk, hga, .inr (.inl hw)⟩
      · exact hno ⟨k, g, a, hk, hga, .inr (.inr (.inl ⟨h, hh, hs⟩))⟩
  · rintro ⟨k, g, a, hk, hga, hclash⟩ ⟨hn, hx⟩
    obtain ⟨hp, hw, hs⟩ := hx a (List.mem_filterMap.mpr ⟨g, List.mem_of_getElem? hk, hga⟩)
    rcases hclash with h | h | ⟨h, hh, ha⟩ | ⟨j, h, hjk, hj, hha⟩
    · exact Config.not_mem_ports_iff.mpr hp h
    · exact hw h
    · exact hs h hh ha
    · exact hjk (hn j k h g a hj hk hha hga)

/-- **When a module with sound items fails**: for a clash of names, and for nothing else. -/
theorem flatten_eq_error_iff (hcl : file.Closes config)
    (hs : ∀ i ∈ file.items config, i.Sound config) :
    ((∃ e, (flatten config file).result = .error e) ↔
      ¬(Scan.start config).scope.ClashFree (file.uses config)) ∧
    ((∃ e, (flatten config file).result = .error e) ↔ ∃ line name existing,
      (flatten config file).result = .error ⟨line, .nameCollision name existing⟩) := by
  have hfails : ¬(Scan.start config).scope.ClashFree (file.uses config) → ∃ line name existing,
      (flatten config file).result = .error ⟨line, .nameCollision name existing⟩ := by
    intro hc
    obtain ⟨clash, line, he⟩ := flatten_eq_error_of_clash hs hc
    exact ⟨line, clash.signal.name, clash.existing.words, he⟩
  have hclash : (∃ e, (flatten config file).result = .error e) →
      ¬(Scan.start config).scope.ClashFree (file.uses config) := by
    rintro ⟨e, he⟩ hc
    have hok := flatten_eq_ok_iff.mpr ⟨hcl, hs, hc, rfl⟩
    simp [hok] at he
  refine ⟨⟨hclash, fun hc => ?_⟩, fun h => hfails (hclash h), ?_⟩
  · obtain ⟨line, name, existing, he⟩ := hfails hc
    exact ⟨_, he⟩
  · rintro ⟨line, name, existing, he⟩
    exact ⟨_, he⟩

/-- A gate has an assignment, or two if its function is negated. -/
theorem Item.length_assignments {i : Item} {g : Placed} (h : g ∈ i.placed config) :
    g.assignments.length = if g.kind.isNegated then 2 else 1 := by
  obtain ⟨e, hc⟩ := Item.exists_core h
  cases hx : g.auxiliary? with
  | none =>
    have hn : g.kind.isNegated = false := by simpa [Placed.auxiliary?] using hx
    simp [Placed.assignments_of_none hc hx, hn]
  | some aux =>
    obtain ⟨hn, -⟩ := Placed.auxiliary?_eq_some_iff.mp hx
    simp [Placed.assignments_of_some hc hx, hn]

/-- **The order of statements does not matter.** A file that is flattened is flattened with its
statements in any other order, to the same module but for the order of the assignments: each block
contributes those of its gates, one or two for each.  And a closed module with sound items fails
exactly if it fails by a clash of names, which is if names collide anywhere in it.  With offsets of
32 bits this is for files of less than 2^32 bytes (`Bytes.eq_of_flatten_eq_ok`). -/
theorem statement_order (config : Config) (file : SourceFile) :
    (∀ head blocks tail, file.Cut config head blocks tail →
      ∀ f, (flatten config file).result = .ok f →
      ∀ (file' : SourceFile) (blocks' : List (List Text)), blocks'.Perm blocks →
        file'.lines.map Line.text = head ++ blocks'.flatten ++ tail →
      ∃ f', (flatten config file').result = .ok f' ∧ f'.stats = f.stats ∧
        (∃ before after,
          f.flat.assignments = before ++ blocks.flatMap (blockAssignments config) ++ after ∧
          f'.flat = { f.flat with
            assignments := before ++ blocks'.flatMap (blockAssignments config) ++ after }) ∧
        ∀ b ∈ blocks, ∀ i ∈ blockItems config b, ∀ g ∈ i.placed config,
          g.assignments.length = 1 ∨ g.assignments.length = 2) ∧
    (file.Closes config → (∀ i ∈ file.items config, i.Sound config) →
      ((∃ e, (flatten config file).result = .error e) ↔ ∃ line name existing,
        (flatten config file).result = .error ⟨line, .nameCollision name existing⟩) ∧
      ((∃ e, (flatten config file).result = .error e) ↔ file.Collides config)) := by
  refine ⟨fun head blocks tail hcut f h file' blocks' hperm ht => ?_, fun hcl hs => ?_⟩
  · obtain ⟨f', hf', hstats, hflat⟩ := exists_flatten_of_perm hcut hperm ht h
    refine ⟨f', hf', hstats, hflat, fun b _ i _ g hg => ?_⟩
    rw [Item.length_assignments hg]
    split
    · exact .inr rfl
    · exact .inl rfl
  · obtain ⟨hclash, hname⟩ := flatten_eq_error_iff hcl hs
    exact ⟨hname, hclash.trans not_clashFree_uses_iff⟩

/-- The sample with its statements in reverse order comes to the same, and with a wire declared at
its end that has the name of an auxiliary wire it fails. -/
theorem statement_order_sampleFile :
    (∃ f f', (flatten sampleConfig sampleFile).result = .ok f ∧
      (flatten sampleConfig (sampleModule sampleStatements.reverse)).result = .ok f' ∧
      f'.stats = f.stats ∧ f'.flat.wires = f.flat.wires) ∧
    ∃ line name existing,
      (flatten sampleConfig (sampleModule (sampleStatements ++ [["  wire n_neg;"]]))).result =
        .error ⟨line, .nameCollision name existing⟩ := by
  constructor
  · obtain ⟨f, hf, -⟩ := flatten_sampleFile
    have hcut : sampleFile.Cut sampleConfig ["module top(in_array, out_array);".toList]
        (sampleStatements.map (List.map String.toList)) ["endmodule".toList] :=
      ⟨by decide +kernel, by decide +kernel, by decide +kernel⟩
    obtain ⟨f', hf', hstats, ⟨_, _, -, hflat⟩, -⟩ := (statement_order sampleConfig sampleFile).1
      _ _ _ hcut f hf (sampleModule sampleStatements.reverse)
      (sampleStatements.reverse.map (List.map String.toList))
      ((List.reverse_perm sampleStatements).map _) (by decide +kernel)
    exact ⟨f, f', hf, hf', hstats, by rw [hflat]⟩
  · have hcl : (sampleModule (sampleStatements ++ [["  wire n_neg;"]])).Closes sampleConfig := by
      unfold SourceFile.Closes
      decide +kernel
    obtain ⟨hname, hcollides⟩ := (statement_order sampleConfig
      (sampleModule (sampleStatements ++ [["  wire n_neg;"]]))).2 hcl (by decide +kernel)
    refine hname.mp (hcollides.mpr ⟨0, ⟨.xnor, ?_, ⟨"n".toList⟩⟩, ⟨"n_neg".toList⟩, ?_, rfl,
      .inr (.inl ?_)⟩)
    · exact [.signal ⟨"in_array_0".toList⟩, .signal ⟨"in_array_1".toList⟩]
    · decide +kernel
    · decide +kernel

end NetFlat
