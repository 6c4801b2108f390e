import Mathlib.Data.List.Induction
import NetFlat.Proofs.Gate.Lines
import NetFlat.Proofs.Scan.Coverage
import NetFlat.Proofs.Source.Lines

/-!
# The places of findings and failures

Each finding of a scan is about a statement, and its place reaches from the first line of the
statement to the last one.  A failure stands at such a place, or on one line of the statement that
it is about.  While a scan goes on, the lines that it has seen are those of the statements that are
done and those of the statement that is open: findings stand on the former, a failure on the latter.

* `Line.Over`, `Line.On`: the place of a row of consecutive lines;
* `Item.MadeOf.over`, `Item.at_of_mem_findings`: the place of an item and of what is found there;
* `Scan.Located`: the places that a scan holds on to;
* `Scan.Located.step`, `Scan.located_run`: one line, and all lines of a file;
* `Scan.Located.failure`: the failure at the end.
-/

namespace NetFlat

/-! ### Places -/

/-- The line is the first one of a row, with a span up to the end of a line of the row. -/
def Line.Over (l : Line) (row : List Line) : Prop :=
  ∃ first last, row.head? = some first ∧ last ∈ row ∧
    l = { first with span := ⟨first.span.file, first.span.start, last.span.stop⟩ }

/-- The line is the place of some consecutive lines of a row. -/
def Line.On (l : Line) (ls : List Line) : Prop := ∃ row, row <:+: ls ∧ l.Over row

namespace Line

variable {l m : Line} {row ls ms : List Line}

theorem over_singleton (l : Line) : l.Over [l] := ⟨l, l, rfl, List.mem_singleton_self l, rfl⟩

theorem on_of_mem (h : l ∈ ls) : l.On ls := by
  obtain ⟨a, b, rfl⟩ := List.append_of_mem h
  exact ⟨[l], ⟨a, b, by simp⟩, over_singleton l⟩

theorem Over.on (h : l.Over row) : l.On row := ⟨row, List.infix_rfl, h⟩

theorem On.of_infix (h : l.On ls) (hi : ls <:+: ms) : l.On ms := by
  obtain ⟨row, hrow, ho⟩ := h
  exact ⟨row, hrow.trans hi, ho⟩

theorem On.start (h : l.On ls) : ∃ first ∈ ls, l.span.start = first.span.start := by
  obtain ⟨row, hrow, first, last, hf, -, rfl⟩ := h
  exact ⟨first, hrow.subset (List.mem_of_head? hf), rfl⟩

theorem On.start_lt (hl : l.On ls) (hm : m.On ms) (h : InOrder (ls ++ ms)) :
    l.span.start < m.span.start := by
  obtain ⟨a, ha, hla⟩ := hl.start
  obtain ⟨b, hb, hmb⟩ := hm.start
  rw [hla, hmb]
  exact h.start_lt ha hb

theorem On.start_le_last {last : Line} (hl : l.On ls) (h : InOrder ls)
    (hlast : ls.getLast? = some last) : l.span.start ≤ last.span.start := by
  obtain ⟨first, hfirst, hstart⟩ := hl.start
  obtain ⟨init, rfl⟩ := List.getLast?_eq_some_iff.mp hlast
  rw [hstart]
  rcases List.mem_append.mp hfirst with hm | hm
  · exact (h.start_lt hm (List.mem_singleton_self last)).le
  · rw [List.mem_singleton.mp hm]

theorem Over.append (h : l.Over row) (ms : List Line) : l.Over (row ++ ms) := by
  obtain ⟨first, last, hf, hl, rfl⟩ := h
  exact ⟨first, last, by simp [hf], List.mem_append_left _ hl, rfl⟩

/-- The place of a row, with a line of the row covered as well. -/
theorem Over.reach (h : l.Over row) (ho : InOrder row) (hm : m ∈ row) : (l.reach m).Over row := by
  obtain ⟨first, last, hf, hl, rfl⟩ := h
  have hstart : first.span.start ≤ m.span.start := by
    obtain ⟨rest, rfl⟩ := List.head?_eq_some_iff.mp hf
    rcases List.mem_cons.mp hm with rfl | hm
    · exact Nat.le_refl _
    · have ho' : InOrder ([first] ++ rest) := ho
      exact (ho'.start_lt (List.mem_singleton_self first) hm).le
  unfold Line.reach Span.reach
  split
  · exact ⟨first, last, hf, hl, rfl⟩
  · simp only [Span.cover, Nat.min_eq_left hstart]
    rcases Nat.le_total last.span.stop m.span.stop with hle | hle
    · exact ⟨first, m, hf, hm, by rw [Nat.max_eq_right hle]⟩
    · exact ⟨first, last, hf, hl, by rw [Nat.max_eq_left hle]⟩

end Line

/-- The finding is at a line, with no remark or with one on that place. -/
structure Diagnostic.At (d : Diagnostic) (l : Line) : Prop where
  span : d.span = l.span
  labels : d.labels = [] ∨ ∃ remark, d.labels = [⟨l.span, remark, .primary⟩]

/-! ### Statements -/

theorem map_snd_coded (ls : List Line) : (ls.map Line.coded).map Prod.snd = ls := by
  simp [Function.comp_def, Line.coded]

theorem OpenDeclaration.over_line_ofLines {kind : DeclarationKind} {first : Text × Line}
    {rest : List (Text × Line)} (ho : Line.InOrder ((first :: rest).map Prod.snd)) :
    (ofLines kind first rest).line.Over ((first :: rest).map Prod.snd) := by
  induction rest using List.reverseRecOn with
  | nil => exact Line.over_singleton first.2
  | append_singleton rest l ih =>
    have hrow : (first :: (rest ++ [l])).map Prod.snd =
        (first :: rest).map Prod.snd ++ [l.2] := by simp
    rw [hrow] at ho ⊢
    rw [ofLines, List.foldl_append]
    have hrow := (ih (ho.sublist (List.sublist_append_left _ _))).append [l.2]
    exact hrow.reach ho (by simp)

theorem OpenGate.ofLines_eq (keyword name : Text) (first : Text × Line)
    (rest : List (Text × Line)) :
    ofLines keyword name first rest = ⟨keyword, name, first.2, first :: rest⟩ := by
  induction rest using List.reverseRecOn with
  | nil => rfl
  | append_singleton rest l ih =>
    rw [ofLines] at ih ⊢
    rw [List.foldl_append, ih]
    rfl

theorem OpenGate.over_location_ofLines {keyword name : Text} {first : Text × Line}
    {rest : List (Text × Line)} (ho : Line.InOrder ((first :: rest).map Prod.snd)) :
    (ofLines keyword name first rest).location.Over ((first :: rest).map Prod.snd) := by
  obtain ⟨last, hlast⟩ : ∃ last, (first :: rest).getLast? = some last :=
    Option.isSome_iff_exists.mp (by simp)
  have hrow : first.2.Over ((first :: rest).map Prod.snd) :=
    (Line.over_singleton first.2).append (rest.map Prod.snd)
  simp only [ofLines_eq, location, hlast, Option.map_some, Option.getD_some]
  exact hrow.reach ho (List.mem_map_of_mem (List.mem_of_getLast? hlast))

namespace Item

/-- The place of the item: its first line, with a span over all of its lines. -/
def location : Item → Line
  | .declaration d => d.line
  | .gate g => g.location
  | .other line => line

/-- The lines at which parts of the item can be at fault. -/
def lines : Item → List Line
  | .gate g => g.lines.map Prod.snd
  | _ => []

variable {i : Item} {block : List (Text × Line)}

/-- **The place of an item** is that of the lines that it is made of. -/
theorem MadeOf.over (h : i.MadeOf block) (ho : Line.InOrder (block.map Prod.snd)) :
    i.location.Over (block.map Prod.snd) := by
  cases h with
  | declaration => exact OpenDeclaration.over_line_ofLines ho
  | gate => exact OpenGate.over_location_ofLines ho
  | other => exact Line.over_singleton _

theorem MadeOf.lines_subset (h : i.MadeOf block) : i.lines ⊆ block.map Prod.snd := by
  cases h with
  | declaration | other => exact List.nil_subset _
  | gate =>
    simp only [lines, OpenGate.ofLines_eq]
    exact List.Subset.refl _

/-- **What is found about an item** is found at its place, with no remark on any other place. -/
theorem at_of_mem_findings {config : Config} {d : Diagnostic} (h : d ∈ i.findings config) :
    d.At i.location := by
  cases i with
  | other line =>
    obtain rfl := List.mem_singleton.mp h
    exact ⟨rfl, .inl rfl⟩
  | gate g =>
    simp only [findings] at h
    split at h
    · simp at h
    · obtain rfl := List.mem_singleton.mp h
      exact ⟨rfl, .inl rfl⟩
  | declaration o =>
    rcases List.mem_append.mp h with h | h
    · unfold declarationFindings at h
      split at h
      · simp at h
      · simp only [Scan.mismatches] at h
        split at h
        · simp at h
        · obtain ⟨name, -, rfl⟩ := List.mem_map.mp h
          exact ⟨rfl, .inr ⟨_, rfl⟩⟩
      · split at h
        · obtain ⟨name, -, hname⟩ := List.mem_filterMap.mp h
          simp only [Scan.busWireFinding?, Option.ite_none_left_eq_some, Option.some.injEq] at hname
          rw [← hname.2]
          exact ⟨rfl, .inl rfl⟩
        · simp at h
    · split at h
      · obtain rfl := List.mem_singleton.mp h
        exact ⟨rfl, .inl rfl⟩
      · simp at h

end Item

/-! ### Scans -/

/-- The lines of the statement that a phase holds on to, or has failed in. -/
inductive Phase.Holds : Phase → List Line → Prop
  | outside {p : Phase} (h : p = .seeking ∨ p = .header ∨ p = .closed) : Holds p []
  | pending {p : Phase} {block : List Line} (h : p.Pending (block.map Line.coded)) : Holds p block
  | failed {f : Failure} {block : List Line} (h : f.line.On block) : Holds (.failed f) block

namespace Scan

variable {config : Config} {s t : Scan} {done block : List Line} {line : Line}

/-- An item is worked off, and what is found about it is kept; or it fails at its place or at one
of its lines. -/
theorem perform_cases (config : Config) (h : s.Running) (i : Item) :
    ((s.perform config i).phase = .body ∧
        (s.perform config i).findings = s.findings ++ i.findings config) ∨
      ∃ f, (s.perform config i).phase = .failed f ∧ (s.perform config i).findings = s.findings ∧
        (f.line = i.location ∨ f.line ∈ i.lines) := by
  rw [perform_of_running h]
  cases i with
  | other line => exact .inl ⟨rfl, rfl⟩
  | declaration d =>
    dsimp only
    cases hu : s.scope.useAll ((Item.declaration d).uses config) with
    | ok scope =>
      have hq := finishDeclaration_of_ok hu
      exact .inl ⟨congrArg Scan.phase hq, congrArg Scan.findings hq⟩
    | error clash =>
      obtain ⟨scope, hd⟩ := finishDeclaration_of_error hu
      rw [hd]
      exact .inr ⟨clash.toFailure d.line, rfl, rfl, .inl rfl⟩
  | gate g =>
    dsimp only
    cases hc : Cell.find? g.keyword with
    | none =>
      rw [finishGate_of_none hc]
      simp only [Item.findings, hc]
      exact .inl ⟨rfl, rfl⟩
    | some cell =>
      cases hp : placeGate config cell g s.scope with
      | ok r =>
        rw [finishGate_of_ok hc hp]
        exact .inl ⟨rfl, by simp [Item.findings, hc]⟩
      | error f =>
        rw [finishGate_of_error hc hp]
        exact .inr ⟨f, rfl, rfl, line_of_placeGate_eq_error hp⟩

theorem running_of_pending {lines : List (Text × Line)} (hp : s.phase.Pending lines) :
    s.Running := by
  intro f hf
  rw [hf] at hp
  cases hp

/-- The lines seen so far are those of the statements that are done, on which the findings stand in
order, and those that the phase holds on to. -/
structure Located (s : Scan) (done block : List Line) : Prop where
  holds : s.phase.Holds block
  findings : ∀ d ∈ s.findings, ∃ l : Line, l.On done ∧ d.span = l.span
  sorted : (s.findings.map (·.span.start)).Pairwise (· ≤ ·)

namespace Located

theorem of_quiet (h : t.Located done block) (hq : s.quiet = t.quiet) : s.Located done block := by
  have hf : s.quiet.findings = t.quiet.findings := congrArg Scan.findings hq
  change s.findings = t.findings at hf
  refine ⟨?_, ?_, ?_⟩
  · rw [phase_eq_of_quiet_eq hq]
    exact h.holds
  · rw [hf]
    exact h.findings
  · rw [hf]
    exact h.sorted

theorem goto (h : s.Located done block) {p : Phase} {block' : List Line} (hp : p.Holds block')
    (more : List Line) : (s.goto p).Located (done ++ more) block' := by
  refine ⟨hp, fun d hd => ?_, h.sorted⟩
  obtain ⟨l, hl, hspan⟩ := h.findings d hd
  exact ⟨l, hl.of_infix (List.prefix_append _ _).isInfix, hspan⟩

/-- **An item made of the next lines**: they are done, or the scan has failed on them. -/
theorem perform (h : s.Located done block) (config : Config) (hr : s.Running) {i : Item}
    {row : List Line} (hi : i.MadeOf (row.map Line.coded)) (ho : Line.InOrder (done ++ row)) :
    (s.perform config i).Located (done ++ row) [] ∨ (s.perform config i).Located done row := by
  have hplace : i.location.Over row := by
    have := hi.over (by
      rw [map_snd_coded]
      exact ho.sublist (List.sublist_append_right _ _))
    rwa [map_snd_coded] at this
  have hlines : i.lines ⊆ row := map_snd_coded row ▸ hi.lines_subset
  rcases perform_cases config hr i with ⟨hp, hf⟩ | ⟨f, hp, hf, hline⟩
  · refine .inl ⟨?_, ?_, ?_⟩
    · rw [hp]
      exact .pending .body
    · rw [hf]
      intro d hd
      rcases List.mem_append.mp hd with hd | hd
      · obtain ⟨l, hl, hspan⟩ := h.findings d hd
        exact ⟨l, hl.of_infix (List.prefix_append _ _).isInfix, hspan⟩
      · exact ⟨i.location, hplace.on.of_infix (List.suffix_append _ _).isInfix,
          (Item.at_of_mem_findings hd).span⟩
    · rw [hf, List.map_append, List.pairwise_append]
      refine ⟨h.sorted, ?_, ?_⟩
      · -- what is found about one item is all found at one place
        refine (List.pairwise_map.mpr (List.pairwise_of_forall_mem_list fun d hd e he => ?_))
        rw [(Item.at_of_mem_findings hd).span, (Item.at_of_mem_findings he).span]
      · simp only [List.mem_map]
        rintro _ ⟨d, hd, rfl⟩ _ ⟨e, he, rfl⟩
        obtain ⟨l, hl, hspan⟩ := h.findings d hd
        rw [hspan, (Item.at_of_mem_findings he).span]
        exact (hl.start_lt hplace.on ho).le
  · refine .inr ⟨?_, ?_, ?_⟩
    · rw [hp]
      refine .failed ?_
      rcases hline with hline | hline
      · rw [hline]
        exact hplace.on
      · exact Line.on_of_mem (hlines hline)
    · rw [hf]
      exact h.findings
    · rw [hf]
      exact h.sorted

section pending

variable (h : s.Located done block) (hp : s.phase.Pending (block.map Line.coded))
  (ho : Line.InOrder (done ++ (block ++ [line])))

include h hp ho

/-- A line that closes the module is done, or it cuts the open statement off. -/
theorem step_closing (config : Config) (hc : Dialect.Closes (Dialect.code line.text)) :
    ∃ done' block', done' ++ block' = done ++ (block ++ [line]) ∧
      (s.step config line).Located done' block' := by
  have hw : Dialect.firstWord (Dialect.code line.text) = "endmodule".toList := hc
  have hq := quiet_step config (running_of_pending hp) line
  have hblock : Line.InOrder ((block.map Line.coded).map Prod.snd) := by
    rw [map_snd_coded]
    exact ho.sublist ((List.sublist_append_left _ _).trans (List.sublist_append_right _ _))
  -- an open statement is cut off: the failure is placed on its lines
  have hcut {f : Failure} (hf : s.phase.advance config (Dialect.code line.text) line =
      (.failed f, none)) (hon : f.line.Over ((block.map Line.coded).map Prod.snd)) :
      (s.step config line).Located done (block ++ [line]) := by
    rw [hf] at hq
    rw [map_snd_coded] at hon
    have := h.goto (.failed (hon.on.of_infix (List.prefix_append _ [line]).isInfix)) []
    rw [List.append_nil] at this
    exact this.of_quiet hq
  cases hphase : s.phase with
  | seeking | header | closed | failed f =>
    rw [hphase] at hp
    cases hp
  | body =>
    rw [hphase, Phase.advance_body_closing hc] at hq
    exact ⟨done ++ (block ++ [line]), [], by simp,
      (h.goto (.outside (.inr (.inr rfl))) _).of_quiet hq⟩
  | declaration d =>
    rw [hphase] at hp
    refine ⟨done, block ++ [line], rfl, hcut (by rw [hphase, Phase.advance, if_pos hw]) ?_⟩
    generalize block.map Line.coded = coded at hp hblock
    cases hp with
    | declaration => exact OpenDeclaration.over_line_ofLines hblock
  | gate g =>
    rw [hphase] at hp
    refine ⟨done, block ++ [line], rfl, hcut (by rw [hphase, Phase.advance, if_pos hw]) ?_⟩
    generalize block.map Line.coded = coded at hp hblock
    cases hp with
    | gate => exact OpenGate.over_location_ofLines hblock

/-- Any other line is blank, or it goes to the open statement, which it may complete. -/
theorem step_continuing (config : Config) (hc : ¬Dialect.Closes (Dialect.code line.text)) :
    ∃ done' block', done' ++ block' = done ++ (block ++ [line]) ∧
      (s.step config line).Located done' block' := by
  have hq := quiet_step config (running_of_pending hp) line
  have hcoded : block.map Line.coded ++ [line.coded] = (block ++ [line]).map Line.coded := by simp
  rcases hp.advance config line.coded hc with ⟨ha, hb, -⟩ | ⟨q, ha, hleads⟩ | ⟨i, ha, hmade⟩
  · have ha' : s.phase.advance config (Dialect.code line.text) line = (.body, none) := ha
    rw [ha'] at hq
    exact ⟨done ++ (block ++ [line]), [], by simp, (h.goto (.pending .body) _).of_quiet hq⟩
  · have ha' : s.phase.advance config (Dialect.code line.text) line = (q, none) := ha
    rw [ha'] at hq
    rw [hcoded] at hleads
    have := h.goto (.pending hleads) []
    rw [List.append_nil] at this
    exact ⟨done, block ++ [line], rfl, this.of_quiet hq⟩
  · have ha' : s.phase.advance config (Dialect.code line.text) line = (.body, some i) := ha
    rw [ha'] at hq
    rw [hcoded] at hmade
    rcases h.perform config (running_of_pending hp) hmade ho with hl | hl
    · exact ⟨done ++ (block ++ [line]), [], by simp, hl.of_quiet hq⟩
    · exact ⟨done, block ++ [line], rfl, hl.of_quiet hq⟩

theorem step_pending (config : Config) :
    ∃ done' block', done' ++ block' = done ++ (block ++ [line]) ∧
      (s.step config line).Located done' block' := by
  by_cases hc : Dialect.Closes (Dialect.code line.text)
  · exact step_closing h hp ho config hc
  · exact step_continuing h hp ho config hc

end pending

theorem holds_headerPhase (code : Text) : (headerPhase code).Holds [] := by
  unfold headerPhase
  split
  · exact .pending .body
  · exact .outside (.inr (.inl rfl))

/-- A line outside of the body leads to a phase that holds on to nothing. -/
theorem step_outside (h : s.Located done block)
    (hp : s.phase = .seeking ∨ s.phase = .header ∨ s.phase = .closed) (config : Config)
    (line : Line) : (s.step config line).Located (done ++ [line]) [] := by
  have hr : s.Running := by
    intro f hf
    rcases hp with hp | hp | hp <;> simp [hf] at hp
  have hadvance : ∃ q, s.phase.advance config (Dialect.code line.text) line = (q, none) ∧
      q.Holds [] := by
    rcases hp with hp | hp | hp
    · rw [hp, Phase.advance]
      split
      · exact ⟨_, rfl, holds_headerPhase _⟩
      · exact ⟨_, rfl, .outside (.inl rfl)⟩
    · rw [hp, Phase.advance]
      exact ⟨_, rfl, holds_headerPhase _⟩
    · rw [hp, Phase.advance]
      exact ⟨_, rfl, .outside (.inr (.inr rfl))⟩
  obtain ⟨q, ha, hq⟩ := hadvance
  have hstep := quiet_step config hr line
  rw [ha] at hstep
  exact (h.goto hq [line]).of_quiet hstep

/-- **One line** is done, or it goes to the lines that the phase holds on to. -/
theorem step (h : s.Located done block) (config : Config)
    (ho : Line.InOrder (done ++ (block ++ [line]))) :
    ∃ done' block', done' ++ block' = done ++ (block ++ [line]) ∧
      (s.step config line).Located done' block' := by
  have hholds := h.holds
  generalize hphase : s.phase = p at hholds
  cases hholds with
  | outside hp => exact ⟨done ++ [line], [], by simp, h.step_outside (hphase ▸ hp) config line⟩
  | pending hp => exact h.step_pending (hphase ▸ hp) ho config
  | failed hf =>
    rw [step_of_failed hphase]
    refine ⟨done, block ++ [line], rfl, ?_, h.findings, h.sorted⟩
    rw [hphase]
    exact .failed (hf.of_infix (List.prefix_append _ _).isInfix)

theorem foldl_step (h : s.Located done block) (config : Config) {ls : List Line}
    (ho : Line.InOrder (done ++ block ++ ls)) :
    ∃ done' block', done' ++ block' = done ++ block ++ ls ∧
      (ls.foldl (Scan.step config) s).Located done' block' := by
  induction ls generalizing s done block with
  | nil => exact ⟨done, block, by simp, h⟩
  | cons line ls ih =>
    have hrow : done ++ block ++ line :: ls = done ++ (block ++ [line]) ++ ls := by simp
    rw [hrow] at ho ⊢
    obtain ⟨done', block', he, hs⟩ := h.step config (ho.sublist (List.sublist_append_left _ _))
    rw [← he] at ho ⊢
    exact ih hs ho

/-- **The failure at the end** stands on the lines of the file, and no finding starts behind it. -/
theorem failure (h : s.Located done block) (ho : Line.InOrder (done ++ block)) {last : Line}
    (hlast : (done ++ block).getLast? = some last) {f : Failure}
    (hf : s.failure? config last = some f) :
    f.line.On (done ++ block) ∧ ∀ d ∈ s.findings, d.span.start ≤ f.line.span.start := by
  -- the findings are about lines in front of the open statement, or up to the last line
  have hopen (hon : f.line.On block) :
      f.line.On (done ++ block) ∧ ∀ d ∈ s.findings, d.span.start ≤ f.line.span.start := by
    refine ⟨hon.of_infix (List.suffix_append _ _).isInfix, fun d hd => ?_⟩
    obtain ⟨l, hl, hspan⟩ := h.findings d hd
    rw [hspan]
    exact (hl.start_lt hon ho).le
  have hend (hblock : block = []) (hline : f.line = last) :
      f.line.On (done ++ block) ∧ ∀ d ∈ s.findings, d.span.start ≤ f.line.span.start := by
    subst hblock
    rw [List.append_nil] at hlast ho ⊢
    rw [hline]
    refine ⟨Line.on_of_mem (List.mem_of_getLast? hlast), fun d hd => ?_⟩
    obtain ⟨l, hl, hspan⟩ := h.findings d hd
    rw [hspan]
    exact hl.start_le_last ho hlast
  have hholds := h.holds
  generalize hphase : s.phase = p at hholds
  have hblock : Line.InOrder ((block.map Line.coded).map Prod.snd) := by
    rw [map_snd_coded]
    exact ho.sublist (List.sublist_append_right _ _)
  simp only [failure?, hphase] at hf
  cases hholds with
  | outside hp =>
    refine hend rfl ?_
    rcases hp with rfl | rfl | rfl
    · rw [← Option.some.inj hf]
    · rw [← Option.some.inj hf]
    · simp at hf
  | failed hon =>
    rw [← Option.some.inj hf] at hopen ⊢
    exact hopen hon
  | pending hp =>
    generalize hcoded : block.map Line.coded = coded at hp hblock
    have hsnd : coded.map Prod.snd = block := by rw [← hcoded, map_snd_coded]
    cases hp with
    | body => exact hend (List.map_eq_nil_iff.mp hcoded) (by rw [← Option.some.inj hf])
    | declaration =>
      refine hopen ?_
      rw [← Option.some.inj hf, ← hsnd]
      exact (OpenDeclaration.over_line_ofLines hblock).on
    | gate =>
      refine hopen ?_
      rw [← Option.some.inj hf, ← hsnd]
      exact (OpenGate.over_location_ofLines hblock).on

end Located

/-- **All lines of a file.** -/
theorem located_run (config : Config) {lines : List Line} (ho : Line.InOrder lines) :
    ∃ done block, done ++ block = lines ∧ (run config lines).Located done block := by
  have hstart : (start config).Located [] [] :=
    ⟨.outside (.inl rfl), fun d hd => by simp [start] at hd, List.Pairwise.nil⟩
  exact hstart.foldl_step config ho

end Scan

end NetFlat
