import NetFlat.Proofs.Reordering

/-!
# The statistics of a run

Flattening counts while it scans, and two of its counts are sizes that are taken at the end.  The
counts come out as what they are counts of: assignments, auxiliary wires and wires of the flat module,
and findings about what was skipped.

* `Tally.count_foldl_bump`: a tally of keywords counts each of them;
* `Item.length_placed`, `Item.length_auxiliaries`: what one sound item adds;
* `Item.length_filter_findings_skipped`, `Item.filter_findings_skippedCell`: findings about one item;
* `statistics_of_flatten_eq_ok`: the counts of a run that succeeds.
-/

namespace NetFlat

/-! ### Tallies -/

namespace Tally

/-- The keywords are in strictly ascending order. -/
def Ascending (t : Tally) : Prop := t.Pairwise fun p q => p.1 < q.1

theorem count_cons (k : Text) (n : Nat) (t : Tally) (l : Text) :
    count ((k, n) :: t) l = if l = k then n else count t l := by
  unfold count
  rw [List.lookup_cons]
  by_cases h : l = k
  · simp [h]
  · have : (l == k) = false := by simpa using h
    simp [h, this]

theorem count_eq_zero {t : Tally} {k : Text} (h : ∀ p ∈ t, k < p.1) : count t k = 0 := by
  induction t with
  | nil => rfl
  | cons p t ih =>
    obtain ⟨l, n⟩ := p
    have hl : k < l := h (l, n) (by simp)
    have hne : ¬k = l := fun e => List.lt_irrefl l (e ▸ hl)
    rw [count_cons, if_neg hne, ih fun q hq => h q (by simp [hq])]

theorem mem_bump {t : Tally} {k : Text} {p : Text × Nat} (h : p ∈ bump k t) :
    p.1 = k ∨ ∃ q ∈ t, q.1 = p.1 := by
  induction t with
  | nil =>
    rw [bump, List.mem_singleton] at h
    exact .inl (by rw [h])
  | cons q t ih =>
    obtain ⟨l, n⟩ := q
    simp only [bump] at h
    split at h
    · rcases List.mem_cons.mp h with rfl | h
      · exact .inl rfl
      · exact .inr ⟨p, h, rfl⟩
    · split at h
      · rcases List.mem_cons.mp h with rfl | h
        · exact .inr ⟨(l, n), by simp, rfl⟩
        · exact .inr ⟨p, by simp [h], rfl⟩
      · rcases List.mem_cons.mp h with rfl | h
        · exact .inr ⟨(l, n), by simp, rfl⟩
        · rcases ih h with h | ⟨q, hq, hp⟩
          · exact .inl h
          · exact .inr ⟨q, by simp [hq], hp⟩

theorem Ascending.bump {t : Tally} (h : t.Ascending) (k : Text) : (t.bump k).Ascending := by
  induction t with
  | nil => exact List.pairwise_singleton _ _
  | cons p t ih =>
    obtain ⟨l, n⟩ := p
    obtain ⟨hl, ht⟩ := List.pairwise_cons.mp h
    simp only [Tally.bump]
    split
    · next hk =>
      refine List.pairwise_cons.mpr ⟨fun q hq => ?_, h⟩
      rcases List.mem_cons.mp hq with rfl | hq
      · exact hk
      · exact List.lt_trans hk (hl q hq)
    · next hk =>
      split
      · exact List.pairwise_cons.mpr ⟨hl, ht⟩
      · next hne =>
        refine List.pairwise_cons.mpr ⟨fun q hq => ?_, ih ht⟩
        rcases mem_bump hq with rfl | ⟨q', hq', hqq⟩
        · by_contra hlk
          exact hne (Text.eq_of_not_lt hk hlk)
        · rw [← hqq]
          exact hl q' hq'

/-- Counting a keyword adds one to its count and leaves the others as they are. -/
theorem Ascending.count_bump {t : Tally} (h : t.Ascending) (k l : Text) :
    (t.bump k).count l = t.count l + if k = l then 1 else 0 := by
  induction t with
  | nil =>
    rw [Tally.bump, count_cons]
    by_cases hl : l = k
    · simp [hl, count]
    · simp [hl, Ne.symm hl]
  | cons p t ih =>
    obtain ⟨m, n⟩ := p
    obtain ⟨hm, ht⟩ := List.pairwise_cons.mp h
    simp only [Tally.bump]
    split
    · next hk =>
      -- the keyword stands in front of all others, so it was not counted before
      have hzero : count ((m, n) :: t) k = 0 := count_eq_zero fun q hq => by
        rcases List.mem_cons.mp hq with rfl | hq
        · exact hk
        · exact List.lt_trans hk (hm q hq)
      rw [count_cons]
      by_cases hl : l = k
      · subst hl
        simp [hzero]
      · simp [hl, Ne.symm hl]
    · split
      · next hk =>
        subst hk
        simp only [count_cons]
        by_cases hl : l = k
        · simp [hl]
        · simp [hl, Ne.symm hl]
      · next hk =>
        simp only [count_cons, ih ht]
        by_cases hl : l = m
        · subst hl
          simp [hk]
        · simp [hl]

theorem foldl_bump {t : Tally} (h : t.Ascending) (ks : List Text) :
    (ks.foldl (fun t k => bump k t) t).total = t.total + ks.length ∧
      ∀ l, (ks.foldl (fun t k => bump k t) t).count l = t.count l + ks.count l := by
  induction ks generalizing t with
  | nil => exact ⟨rfl, fun _ => rfl⟩
  | cons k ks ih =>
    obtain ⟨htotal, hcount⟩ := ih (h.bump k)
    refine ⟨?_, fun l => ?_⟩
    · rw [List.foldl_cons, htotal, total_bump, List.length_cons]
      omega
    · rw [List.foldl_cons, hcount, h.count_bump, List.count_cons, Nat.add_right_comm,
        Nat.add_assoc]
      simp only [beq_iff_eq]

/-- **A tally of keywords**: its total is their number, and each count is how often the keyword is
there. -/
theorem count_foldl_bump (ks : List Text) :
    (ks.foldl (fun t k => bump k t) []).total = ks.length ∧
      ∀ l, (ks.foldl (fun t k => bump k t) []).count l = ks.count l := by
  obtain ⟨htotal, hcount⟩ := foldl_bump (t := []) List.Pairwise.nil ks
  exact ⟨by simpa using htotal, fun l => by simpa [count] using hcount l⟩

end Tally

/-! ### What an item adds -/

namespace Cell

theorem isNegated_of_find? {k : Text} {cell : Cell} (h : find? k = some cell) :
    cell.kind.isNegated = (k == "XNOR".toList || k == "NOR".toList) := by
  have hall : ∀ cell ∈ catalog, cell.kind.isNegated =
      (cell.keyword == "XNOR".toList || cell.keyword == "NOR".toList) := by decide
  have hkey : cell.keyword = k := by simpa using List.find?_some h
  exact hkey ▸ hall cell (List.mem_of_find?_eq_some h)

end Cell

/-- Each gate has one assignment, and one more for its auxiliary wire. -/
theorem Placed.length_flatMap_assignments {gs : List Placed}
    (hcore : ∀ g ∈ gs, ∃ e, g.core? = some e) :
    (gs.flatMap assignments).length = gs.length + (gs.filterMap auxiliary?).length := by
  induction gs with
  | nil => rfl
  | cons g gs ih =>
    obtain ⟨e, he⟩ := hcore g (by simp)
    have hgs := ih fun h hh => hcore h (by simp [hh])
    rw [List.flatMap_cons, List.length_append, hgs]
    cases hx : g.auxiliary? with
    | none =>
      rw [assignments_of_none he hx, List.filterMap_cons_none hx]
      simp only [List.length_cons, List.length_nil]
      omega
    | some aux =>
      rw [assignments_of_some he hx, List.filterMap_cons_some hx]
      simp only [List.length_cons, List.length_nil]
      omega

theorem OpenGate.kind_of_placed? {config : Config} {g : OpenGate} {cell : Cell} {p : Placed}
    (hc : Cell.find? g.keyword = some cell) (h : g.placed? config = some p) :
    p.kind = cell.kind := by
  obtain ⟨connections, gate, -, hg, hp⟩ := (placed?_eq_some_iff hc).mp h
  rw [(Gate.resolve?_eq_some_iff.mp hp).2.2, Gate.cell_of_ofConnections hg]

namespace Item

variable {config : Config} {i : Item}

/-- The instance that the item is, if its cell is not in the catalog. -/
def passedGate? : Item → Option OpenGate
  | .gate g => if (Cell.find? g.keyword).isSome then none else some g
  | _ => none

theorem passed?_eq_map (i : Item) : i.passed? = i.passedGate?.map OpenGate.keyword := by
  cases i with
  | gate g =>
    simp only [passed?, passedGate?]
    split <;> rfl
  | declaration d => rfl
  | other line => rfl

/-- A sound item places a gate for an instance of a cell in the catalog, and none otherwise. -/
theorem length_placed (hs : i.Sound config) :
    (i.placed config).length = i.lowered?.toList.length := by
  cases i with
  | declaration d => rfl
  | other line => rfl
  | gate g =>
    cases hc : Cell.find? g.keyword with
    | none => simp [placed, lowered?, OpenGate.placed?, hc]
    | some cell =>
      obtain ⟨p, hp⟩ := Option.isSome_iff_exists.mp (hs (by simp [hc]))
      simp [placed, lowered?, hp, hc]

theorem length_auxiliaries (hs : i.Sound config) :
    ((i.placed config).filterMap Placed.auxiliary?).length =
      i.lowered?.toList.count "XNOR".toList + i.lowered?.toList.count "NOR".toList := by
  cases i with
  | declaration d => rfl
  | other line => rfl
  | gate g =>
    cases hc : Cell.find? g.keyword with
    | none => simp [placed, lowered?, OpenGate.placed?, hc]
    | some cell =>
      obtain ⟨p, hp⟩ := Option.isSome_iff_exists.mp (hs (by simp [hc]))
      have hkind := OpenGate.kind_of_placed? hc hp
      have hneg := Cell.isNegated_of_find? hc
      have hplaced : placed config (.gate g) = [p] := by simp [placed, hp]
      have hlowered : lowered? (.gate g) = some g.keyword := by simp [lowered?, hc]
      rw [hplaced, hlowered, Option.toList_some, List.count_singleton, List.count_singleton]
      by_cases hx : g.keyword = "XNOR".toList
      · have haux : p.auxiliary? = some p.output.auxiliary := by
          simp [Placed.auxiliary?, hkind, hneg, hx]
        simp [haux, hx]
      · by_cases hn : g.keyword = "NOR".toList
        · have haux : p.auxiliary? = some p.output.auxiliary := by
            simp [Placed.auxiliary?, hkind, hneg, hn]
          simp [haux, hn]
        · have haux : p.auxiliary? = none := by
            rw [beq_eq_false_iff_ne.mpr hx, beq_eq_false_iff_ne.mpr hn] at hneg
            simp [Placed.auxiliary?, hkind, hneg]
          rw [if_neg (by simpa using hx), if_neg (by simpa using hn)]
          simp [haux]

/-- The findings that an instance is passed over: one for an instance of a cell that is not in the
catalog. -/
theorem filter_findings_skippedCell (config : Config) (i : Item) :
    (i.findings config).filter (·.code = ⟨.info, 301⟩) =
      i.passedGate?.toList.map Scan.skippedGateNote := by
  cases i with
  | gate g =>
    simp only [findings, passedGate?]
    split
    · rfl
    · simp [Scan.skippedGateNote]
  | other line => simp [findings, Scan.skipNote, passedGate?]
  | declaration d =>
    have hd : (declarationFindings config d).filter (·.code = ⟨.info, 301⟩) = [] := by
      rw [List.filter_eq_nil_iff]
      intro finding hf hc
      have := category_of_mem_declarationFindings hf
      simp [of_decide_eq_true hc] at this
    simp only [findings, List.filter_append, hd, List.nil_append]
    split <;> simp [Scan.skipNote, passedGate?]

/-- The findings that a line is skipped: one for an item that counts as a skipped line. -/
theorem length_filter_findings_skipped (config : Config) (i : Item) :
    ((i.findings config).filter (·.code = ⟨.info, 302⟩)).length =
      if i.isSkipped config then 1 else 0 := by
  cases i with
  | gate g =>
    simp only [findings, isSkipped]
    split
    · rfl
    · simp [Scan.skippedGateNote]
  | other line => simp [findings, Scan.skipNote, isSkipped]
  | declaration d =>
    have hd : (declarationFindings config d).filter (·.code = ⟨.info, 302⟩) = [] := by
      rw [List.filter_eq_nil_iff]
      intro finding hf hc
      have := category_of_mem_declarationFindings hf
      simp [of_decide_eq_true hc] at this
    simp only [findings, List.filter_append, hd, List.nil_append]
    split <;> simp [Scan.skipNote]

end Item

/-! ### What a row of items adds -/

namespace Item

variable {config : Config} {is : List Item}

theorem length_flatMap_placed (hs : ∀ i ∈ is, i.Sound config) :
    (is.flatMap (placed config)).length = (is.filterMap lowered?).length := by
  rw [List.filterMap_eq_flatMap_toList, List.length_flatMap, List.length_flatMap]
  exact congrArg List.sum (List.map_congr_left fun i hi => length_placed (hs i hi))

/-- The auxiliary wires are as many as there are instances of negated cells. -/
theorem length_filterMap_auxiliary? (hs : ∀ i ∈ is, i.Sound config) :
    ((is.flatMap (placed config)).filterMap Placed.auxiliary?).length =
      (is.filterMap lowered?).count "XNOR".toList + (is.filterMap lowered?).count "NOR".toList := by
  induction is with
  | nil => rfl
  | cons i is ih =>
    have hi := length_auxiliaries (hs i (by simp))
    have his := ih fun j hj => hs j (by simp [hj])
    have hcons : (i :: is).filterMap lowered? = i.lowered?.toList ++ is.filterMap lowered? := by
      simp only [List.filterMap_eq_flatMap_toList, List.flatMap_cons]
    rw [hcons, List.flatMap_cons, List.filterMap_append, List.length_append, hi, his,
      List.count_append, List.count_append]
    omega

theorem filter_flatMap_findings_skippedCell (config : Config) (is : List Item) :
    (is.flatMap (findings config)).filter (·.code = ⟨.info, 301⟩) =
      (is.filterMap passedGate?).map Scan.skippedGateNote := by
  rw [List.filter_flatMap, List.filterMap_eq_flatMap_toList, List.map_flatMap]
  simp only [filter_findings_skippedCell]

theorem length_filter_flatMap_findings_skipped (config : Config) (is : List Item) :
    ((is.flatMap (findings config)).filter (·.code = ⟨.info, 302⟩)).length =
      is.countP (isSkipped config) := by
  induction is with
  | nil => rfl
  | cons i is ih =>
    rw [List.flatMap_cons, List.filter_append, List.length_append,
      length_filter_findings_skipped, ih, List.countP_cons]
    omega

end Item

/-! ### Flattened files -/

/-- The instances of cells that are not in the catalog, in the order of the file. -/
def SourceFile.passedGates (config : Config) (file : SourceFile) : List OpenGate :=
  (file.items config).filterMap Item.passedGate?

variable {config : Config} {file : SourceFile} {f : Flattened}

/-- The scope of a file whose names do not clash holds each auxiliary wire once. -/
theorem length_auxiliaries_of_clashFree
    (h : (Scan.start config).scope.ClashFree (file.uses config)) :
    ((Scan.start config).scope.addAll (file.uses config)).auxiliaries.length =
      (file.auxiliaries config).length := by
  refine List.Perm.length_eq ?_
  rw [List.perm_ext_iff_of_nodup (Scope.nodup_auxiliaries_addAll List.nodup_nil)
    (clashFree_uses_iff.mp h).1]
  intro a
  rw [Scope.mem_auxiliaries_addAll, SourceFile.uses, Item.registeredBy_uses]
  exact ⟨fun h => h.resolve_left (by simp [Scan.start]), .inr⟩

/-- **The statistics account for the run.** The assignments are those of the flat module, one for
each gate and one for each auxiliary wire; the auxiliary wires are distinct, one for each instance of
`XNOR` or `NOR`; the wires are those of the flat module.  The skipped instances and lines are those
that were found, and the count of a keyword is the number of skipped instances with it. -/
theorem statistics_of_flatten_eq_ok (h : (flatten config file).result = .ok f) :
    f.stats.assignments = f.flat.assignments.length ∧
    f.stats.assignments = f.stats.gates + f.stats.auxiliaryWires ∧
    f.stats.auxiliaryWires =
      f.stats.translated.count "XNOR".toList + f.stats.translated.count "NOR".toList ∧
    (file.auxiliaries config).Nodup ∧
    f.stats.auxiliaryWires = (file.auxiliaries config).length ∧
    f.stats.wires = f.flat.wires.length ∧
    f.stats.skipped =
      ((flatten config file).findings.filter (·.code = ⟨.info, 301⟩)).length ∧
    f.stats.skippedLines =
      ((flatten config file).findings.filter (·.code = ⟨.info, 302⟩)).length ∧
    (flatten config file).findings.filter (·.code = ⟨.info, 301⟩) =
      (file.passedGates config).map Scan.skippedGateNote ∧
    ∀ k, f.stats.skippedCells.count k =
      ((file.passedGates config).filter (·.keyword = k)).length := by
  have hlowered := (fresh_gates_of_flatten_eq_ok h).lowered
  rw [findings_of_flatten_eq_ok h]
  obtain ⟨-, hs, hc, rfl⟩ := flatten_eq_ok_iff.mp h
  have haux : ((Scan.finished config (file.items config)).flattened config).stats.auxiliaryWires =
      (file.auxiliaries config).length := length_auxiliaries_of_clashFree hc
  have hpassed : (file.items config).filterMap Item.passed? =
      (file.passedGates config).map OpenGate.keyword := by
    rw [SourceFile.passedGates, List.map_filterMap]
    exact List.filterMap_congr fun i _ => i.passed?_eq_map
  -- each count of the run is a fold over the items
  have htally : ((Scan.finished config (file.items config)).flattened config).stats.translated =
      ((file.items config).filterMap Item.lowered?).foldl (fun t k => Tally.bump k t) [] := by
    show ((file.items config).foldl (Item.count config) {}).translated = _
    rw [Item.foldl_count]
  have hcells : ((Scan.finished config (file.items config)).flattened config).stats.skippedCells =
      ((file.passedGates config).map OpenGate.keyword).foldl (fun t k => Tally.bump k t) [] := by
    show ((file.items config).foldl (Item.count config) {}).skippedCells = _
    rw [Item.foldl_count, hpassed]
  have hlines : ((Scan.finished config (file.items config)).flattened config).stats.skippedLines =
      (file.items config).countP (Item.isSkipped config) := by
    show ((file.items config).foldl (Item.count config) {}).skippedLines = _
    rw [Item.foldl_count]
    exact Nat.zero_add _
  refine ⟨rfl, ?_, ?_, (clashFree_uses_iff.mp hc).1, haux, rfl, ?_, ?_,
    Item.filter_flatMap_findings_skippedCell config _, fun k => ?_⟩
  · rw [Stats.gates, htally, haux, (Tally.count_foldl_bump _).1, ← Item.length_flatMap_placed hs]
    exact Placed.length_flatMap_assignments hlowered
  · rw [haux, htally, (Tally.count_foldl_bump _).2, (Tally.count_foldl_bump _).2]
    exact Item.length_filterMap_auxiliary? hs
  · rw [Stats.skipped, hcells, (Tally.count_foldl_bump _).1,
      Item.filter_flatMap_findings_skippedCell, List.length_map, List.length_map]
    rfl
  · rw [hlines, Item.length_filter_flatMap_findings_skipped]
  · rw [hcells, (Tally.count_foldl_bump _).2, List.count, List.countP_map,
      ← List.countP_eq_length_filter]
    exact List.countP_congr fun g _ => by simp

/-- A module with two negated gates and a plain one, two skipped instances of one cell and a skipped
line. -/
def countedFile : SourceFile :=
  sampleModule [["  wire n;"], ["  XNOR g0 (.A(in_array[0]),", "    .B(in_array[1]), .Z(n));"],
    ["  DFF r0 (.D(n),", "    .Q(q));"], ["  NOR g1 (.A(n), .B(1'b0), .Z(out_array[0]));"],
    ["  assign x = n;"], ["  DFF r1 (.D(n), .Q(r));"], ["  IV g2 (.A(n), .Z(out_array[1]));"]]

theorem flatten_countedFile : ∃ f, (flatten sampleConfig countedFile).result = .ok f ∧
    f.flat.assignments.length = 5 ∧ f.flat.wires.length = 3 ∧ f.stats.gates = 3 := by
  decide +kernel

theorem statistics_of_countedFile : ∃ f, (flatten sampleConfig countedFile).result = .ok f ∧
    f.stats.assignments = 5 ∧ f.stats.gates + f.stats.auxiliaryWires = 5 ∧ f.stats.wires = 3 ∧
    f.stats.translated.count "XNOR".toList + f.stats.translated.count "NOR".toList = 2 ∧
    (countedFile.auxiliaries sampleConfig).Nodup ∧
    f.stats.skipped = 2 ∧ f.stats.skippedLines = 1 ∧ f.stats.skippedCells.count "DFF".toList = 2 := by
  obtain ⟨f, hf, ha, hw, hg⟩ := flatten_countedFile
  obtain ⟨hassign, hsum, haux, hnodup, -, hwires, hskipped, hlines, hgates, hcells⟩ :=
    statistics_of_flatten_eq_ok hf
  have hpassed : (countedFile.passedGates sampleConfig).map OpenGate.keyword =
      ["DFF".toList, "DFF".toList] := by decide +kernel
  have hnotes : ((flatten sampleConfig countedFile).findings.filter
      (·.code = ⟨.info, 302⟩)).length = 1 := by decide +kernel
  refine ⟨f, hf, hassign.trans ha, ?_, hwires.trans hw, ?_, hnodup, ?_, hlines.trans hnotes, ?_⟩
  · rw [← hsum, hassign, ha]
  · rw [← haux]
    omega
  · rw [hskipped, hgates, List.length_map, ← List.length_map (f := OpenGate.keyword), hpassed]
    rfl
  · rw [hcells, ← List.countP_eq_length_filter]
    have hmap := List.countP_map (p := (· = "DFF".toList)) (f := OpenGate.keyword)
      (l := countedFile.passedGates sampleConfig)
    exact hmap.symm.trans (by rw [hpassed]; decide)

end NetFlat
