import NetFlat.Flattening
import NetFlat.Proofs.Scan.Effect

/-!
# Reading first, working off then

A scan of lines comes to the same as reading the lines into items and working the items off in
order.  Only the log, which a scan keeps by the way, is left out of the comparison.

* `quiet_step`: one line;
* `foldl_step`: a row of lines.
-/

namespace NetFlat.Scan

variable {config : Config} {s t : Scan}

/-- The scan goes over to a phase, unless it has failed. -/
def settle (p : Phase) (s : Scan) : Scan :=
  match s.phase with
  | .failed _ => s
  | _ => s.goto p

theorem settle_of_running {p : Phase} (h : s.Running) : s.settle p = s.goto p := by
  unfold settle
  split
  · next f hf => exact absurd hf (h f)
  · rfl

theorem settle_of_failed {p : Phase} {f : Failure} (h : s.phase = .failed f) : s.settle p = s := by
  simp [settle, h]

theorem foldl_perform_of_failed {f : Failure} (h : s.phase = .failed f) (is : List Item) :
    is.foldl (perform config) s = s := by
  induction is with
  | nil => rfl
  | cons i is ih => rw [List.foldl_cons, perform_of_failed h, ih]

theorem step_of_failed {f : Failure} {line : Line} (h : s.phase = .failed f) :
    s.step config line = s := by
  simp [step, h]

theorem foldl_step_of_failed {f : Failure} (h : s.phase = .failed f) (ls : List Line) :
    ls.foldl (step config) s = s := by
  induction ls with
  | nil => rfl
  | cons l ls ih => rw [List.foldl_cons, step_of_failed h, ih]

/-! ### What items see of a scan -/

theorem quiet_declareWires (line : Line) (names : List Text) (s : Scan) :
    (s.declareWires line names).quiet = (s.quiet.declareWires line names).quiet := by
  induction names generalizing s with
  | nil => rfl
  | cons name names ih =>
    simp only [declareWires]
    rw [show s.quiet.scope = s.scope from rfl]
    cases s.scope.declare ⟨name⟩ with
    | ok scope => exact (ih { s with scope }).trans (ih { s.quiet with scope }).symm
    | error clash => rfl

theorem quiet_declarePorts (role : BusRole) (decl : Declaration) (line : Line) (s : Scan) :
    (s.declarePorts config role decl line).quiet = s.quiet.declarePorts config role decl line := by
  rw [declarePorts_eq, declarePorts_eq]
  split <;> rfl

theorem quiet_finishDeclaration (d : OpenDeclaration) (s : Scan) :
    (s.finishDeclaration config d).quiet = (s.quiet.finishDeclaration config d).quiet := by
  unfold finishDeclaration
  split
  · rfl
  · next decl _ =>
    split
    · next role _ =>
      exact (quiet_declarePorts role decl d.line (s.goto .body)).trans
        (quiet_declarePorts role decl d.line (s.quiet.goto .body)).symm
    · split
      · exact (quiet_foldl_declareBusWire d.line decl.names (s.goto .body)).trans
          (quiet_foldl_declareBusWire d.line decl.names (s.quiet.goto .body)).symm
      · exact quiet_declareWires d.line decl.names (s.goto .body)

theorem quiet_finishGate (g : OpenGate) (s : Scan) :
    (s.finishGate config g).quiet = (s.quiet.finishGate config g).quiet := by
  cases hc : Cell.find? g.keyword with
  | none =>
    rw [finishGate_of_none hc, finishGate_of_none hc]
    rfl
  | some cell =>
    cases h : placeGate config cell g s.scope with
    | error f =>
      rw [finishGate_of_error hc h, finishGate_of_error (s := s.quiet) hc h]
      rfl
    | ok r =>
      rw [finishGate_of_ok hc h, finishGate_of_ok (s := s.quiet) hc h]
      rfl

/-- The data of two scans are the same: they differ at most in their phases and logs. -/
def SameData (s t : Scan) : Prop := (s.goto .body).quiet = (t.goto .body).quiet

theorem SameData.of_quiet (h : s.quiet = t.quiet) : s.SameData t := by
  unfold SameData
  exact congrArg (goto · .body) h

theorem SameData.quiet_perform (config : Config) (h : s.SameData t) (hs : s.Running) (ht : t.Running) (i : Item) :
    (s.perform config i).quiet = (t.perform config i).quiet := by
  rw [perform_of_running hs, perform_of_running ht]
  cases i with
  | declaration d =>
    show ((s.goto .body).finishDeclaration config d).quiet =
      ((t.goto .body).finishDeclaration config d).quiet
    rw [quiet_finishDeclaration, h, ← quiet_finishDeclaration]
  | gate g =>
    show ((s.goto .body).finishGate config g).quiet = ((t.goto .body).finishGate config g).quiet
    rw [quiet_finishGate, h, ← quiet_finishGate]
  | other line => exact congrArg (skip · line) h

theorem SameData.quiet_settle_foldl (h : s.SameData t) (hs : s.Running) (ht : t.Running)
    (p : Phase) (is : List Item) :
    ((is.foldl (perform config) s).settle p).quiet =
      ((is.foldl (perform config) t).settle p).quiet := by
  induction is generalizing s t with
  | nil =>
    rw [List.foldl_nil, List.foldl_nil, settle_of_running hs, settle_of_running ht]
    exact congrArg (goto · p) h
  | cons i is ih =>
    have hp := h.quiet_perform config hs ht i
    have hph : (s.perform config i).phase = (t.perform config i).phase := congrArg (·.phase) hp
    rw [List.foldl_cons, List.foldl_cons]
    by_cases hf : ∃ f, (s.perform config i).phase = .failed f
    · obtain ⟨f, hf⟩ := hf
      have hf' := hph ▸ hf
      rw [foldl_perform_of_failed hf, foldl_perform_of_failed hf', settle_of_failed hf,
        settle_of_failed hf']
      exact hp
    · have hr : (s.perform config i).Running := fun f e => hf ⟨f, e⟩
      exact ih (.of_quiet hp) hr fun f e => hf ⟨f, hph.trans e⟩

/-! ### Reading first -/

/-- What a line has done when it was read as the phase and the item `r`. -/
def follow (config : Config) (s : Scan) (r : Phase × Option Item) : Scan :=
  match r with
  | (p, none) => s.goto p
  | (_, some i) => s.perform config i

theorem openDeclaration_eq_follow {kind : DeclarationKind} {word code : Text} {line : Line}
    (h : s.Running) : (s.openDeclaration config kind word code line).quiet =
      (s.follow config (Phase.ofDeclaration code ⟨kind, code.drop word.length, line⟩)).quiet := by
  unfold openDeclaration Phase.ofDeclaration
  split
  · exact congrArg quiet (perform_of_running (i := .declaration _) h).symm
  · rfl

theorem openGate_eq_follow {keyword name code : Text} {line : Line} (h : s.Running) :
    (s.openGate config keyword name code line).quiet =
      (s.follow config (Phase.ofGate code ⟨keyword, name, line, [(code, line)]⟩)).quiet := by
  unfold openGate Phase.ofGate
  split
  · exact congrArg quiet (perform_of_running (i := .gate _) h).symm
  · rfl

theorem bodyLine_eq_follow {code : Text} {line : Line} (h : s.phase = .body) :
    (s.bodyLine config code line).quiet = (s.follow config (Phase.ofBody code line)).quiet := by
  have hr : s.Running := fun f => by simp [h]
  have hs : s.goto .body = s := by
    cases s
    exact congrArg (Scan.mk · _ _ _ _ _) h.symm
  unfold bodyLine Phase.ofBody
  split
  · exact congrArg quiet hs.symm
  · simp only
    split
    · rfl
    split
    · exact openDeclaration_eq_follow hr
    split
    · exact openDeclaration_eq_follow hr
    split
    · exact openDeclaration_eq_follow hr
    cases Dialect.gateHeader? code with
    | some r => exact openGate_eq_follow hr
    | none =>
      show _ = (s.perform config (.other line)).quiet
      rw [perform_of_running hr, hs]

/-- **A line is read first.** If it completes an item, the item is worked off then. -/
theorem quiet_step (config : Config) (h : s.Running) (line : Line) :
    (s.step config line).quiet =
      (s.follow config (s.phase.advance config (Dialect.code line.text) line)).quiet := by
  have hs : s.goto s.phase = s := rfl
  cases hp : s.phase with
  | seeking =>
    simp only [step, hp, Phase.advance]
    split
    · rfl
    · rw [← hs, hp]
      rfl
  | header =>
    simp only [step, hp]
    rfl
  | body =>
    simp only [step, hp]
    exact bodyLine_eq_follow hp
  | declaration d =>
    simp only [step, hp, Phase.advance]
    split
    · rfl
    unfold Phase.ofDeclaration
    split
    · exact congrArg quiet (perform_of_running (i := .declaration _) h).symm
    · rfl
  | gate g =>
    simp only [step, hp, Phase.advance]
    split
    · rfl
    unfold Phase.ofGate
    split
    · exact congrArg quiet (perform_of_running (i := .gate _) h).symm
    · rfl
  | closed =>
    simp only [step, hp]
    rw [← hs, hp]
    rfl
  | failed f => exact absurd hp (h f)

theorem phase_perform (config : Config) (h : s.Running) (i : Item) :
    (s.perform config i).phase = .body ∨ ∃ f, (s.perform config i).phase = .failed f := by
  by_cases hs : i.Sound config
  · cases hu : s.scope.useAll (i.uses config) with
    | ok scope =>
      have := quiet_perform_of_ok h hs hu
      exact .inl (congrArg phase this)
    | error clash =>
      obtain ⟨clash, line, hf⟩ := phase_perform_of_error h hs hu
      exact .inr ⟨_, hf⟩
  · exact .inr (phase_perform_of_not_sound h hs)

/-- **Reading first, working off then.** A scan of lines reads them without regard to names and
works the items off in order; what phase it ends in is that of the reading, unless an item
failed. -/
theorem foldl_step (h : s.Running) (lines : List Line) :
    (lines.foldl (step config) s).quiet =
      let r := s.phase.read config (lines.map Line.coded)
      ((r.2.foldl (perform config) s).settle r.1).quiet := by
  induction lines generalizing s with
  | nil => exact congrArg quiet (settle_of_running (p := s.phase) h).symm
  | cons line lines ih =>
    have hq := quiet_step config h line
    have hph : (s.step config line).phase =
        (s.follow config (s.phase.advance config (Dialect.code line.text) line)).phase :=
      congrArg (·.phase) hq
    rw [List.foldl_cons, List.map_cons, Line.coded, Phase.read]
    rcases hr : s.phase.advance config (Dialect.code line.text) line with ⟨p, _ | i⟩
    · rw [hr] at hq hph
      simp only [Option.toList_none, List.nil_append]
      by_cases hf : ∃ f, p = .failed f
      · obtain ⟨f, rfl⟩ := hf
        rw [foldl_step_of_failed hph, Phase.read_failed, List.foldl_nil, settle_of_running h]
        exact hq
      · have hrun : (s.step config line).Running := fun f e => hf ⟨f, hph.symm.trans e⟩
        have hd : (s.step config line).SameData s := .of_quiet (t := s.goto p) hq
        rw [ih hrun, show (s.step config line).phase = p from hph]
        exact hd.quiet_settle_foldl hrun h _ _
    · obtain rfl := Phase.advance_eq_some hr
      rw [hr] at hq hph
      simp only [Option.toList_some, List.singleton_append, List.foldl_cons]
      rcases phase_perform config h i with hb | ⟨f, hf⟩
      · have hrun : (s.perform config i).Running := fun f => by simp [hb]
        have hrun' : (s.step config line).Running := fun f e => hrun f (hph.symm.trans e)
        rw [ih hrun', show (s.step config line).phase = .body from hph.trans hb]
        exact (SameData.of_quiet hq).quiet_settle_foldl hrun' hrun _ _
      · have hf' : (s.step config line).phase = .failed f := hph.trans hf
        rw [foldl_step_of_failed hf', foldl_perform_of_failed hf, settle_of_failed hf]
        exact hq

/-! ### Rows of items -/

/-- The scan after a row of items that fails in no way. -/
def effects (config : Config) (is : List Item) (s : Scan) : Scan :=
  { s with
    scope := s.scope.addAll (is.flatMap (Item.uses config))
    placed := s.placed ++ is.flatMap (Item.placed config)
    stats := is.foldl (Item.count config) s.stats
    findings := s.findings ++ is.flatMap (Item.findings config) }

/-- **Items without fault.** Sound items whose names do not clash have their effects, one after the
other. -/
theorem quiet_settle_foldl_perform {is : List Item} (hr : s.Running)
    (hs : ∀ i ∈ is, i.Sound config) (hc : s.scope.ClashFree (is.flatMap (Item.uses config)))
    (p : Phase) :
    ((is.foldl (perform config) s).settle p).quiet = ((s.effects config is).goto p).quiet := by
  induction is generalizing s with
  | nil =>
    rw [List.foldl_nil, settle_of_running hr]
    simp [effects, goto, quiet, Scope.addAll]
  | cons i is ih =>
    have hu := Scope.useAll_eq_ok_iff.mpr ⟨hc, rfl⟩
    rw [List.flatMap_cons, Scope.useAll_append] at hu
    obtain ⟨scope, hi, his⟩ := bind_eq_ok_iff.mp hu
    have hq := quiet_perform_of_ok hr (hs i (by simp)) hi
    have hrun : (s.effect config i scope).Running := fun f => by simp [effect]
    have hrun' : (s.perform config i).Running := by
      intro f e
      exact hrun f ((congrArg phase hq).symm.trans e)
    obtain ⟨-, rfl⟩ := Scope.useAll_eq_ok_iff.mp hi
    have hc' := (Scope.useAll_eq_ok_iff.mp his).1
    rw [List.foldl_cons, (SameData.of_quiet hq).quiet_settle_foldl hrun' hrun,
      ih hrun (fun j hj => hs j (by simp [hj])) hc']
    simp [effects, effect, goto, quiet, Scope.addAll_append]

theorem phase_foldl_perform_of_clash {is : List Item} (hr : s.Running)
    (hs : ∀ i ∈ is, i.Sound config) (hc : ¬s.scope.ClashFree (is.flatMap (Item.uses config))) :
    ∃ (clash : Clash) (line : Line),
      (is.foldl (perform config) s).phase = .failed (clash.toFailure line) := by
  induction is generalizing s with
  | nil => exact absurd ⟨by simp, List.Pairwise.nil⟩ hc
  | cons i is ih =>
    rw [List.foldl_cons]
    cases hi : s.scope.useAll (i.uses config) with
    | ok scope =>
      have hq := quiet_perform_of_ok hr (hs i (by simp)) hi
      have hrun : (s.perform config i).Running := by
        intro f e
        have : Phase.body = .failed f := (congrArg phase hq).symm.trans e
        simp at this
      refine ih hrun (fun j hj => hs j (by simp [hj])) fun hc' => hc ?_
      have hscope : (s.perform config i).scope = scope := congrArg (·.scope) hq
      rw [hscope] at hc'
      have hu := Scope.useAll_eq_ok_iff.mpr ⟨hc', rfl⟩
      refine (Scope.useAll_eq_ok_iff (t := scope.addAll (is.flatMap (Item.uses config)))).mp ?_ |>.1
      rw [List.flatMap_cons, Scope.useAll_append, hi]
      exact hu
    | error clash =>
      obtain ⟨clash, line, hf⟩ := phase_perform_of_error hr (hs i (by simp)) hi
      exact ⟨clash, line, by rw [foldl_perform_of_failed hf, hf]⟩

theorem phase_foldl_perform_of_not_sound {is : List Item} (hr : s.Running)
    (hs : ∃ i ∈ is, ¬i.Sound config) : ∃ f, (is.foldl (perform config) s).phase = .failed f := by
  induction is generalizing s with
  | nil => simp at hs
  | cons i is ih =>
    rw [List.foldl_cons]
    rcases phase_perform config hr i with hb | ⟨f, hf⟩
    · have hrun : (s.perform config i).Running := fun f => by simp [hb]
      obtain ⟨j, hj, hns⟩ := hs
      rcases List.mem_cons.mp hj with rfl | hj
      · obtain ⟨f, hf⟩ := phase_perform_of_not_sound hr hns
        simp [hb] at hf
      · exact ih hrun ⟨j, hj, hns⟩
    · exact ⟨f, by rw [foldl_perform_of_failed hf, hf]⟩

end NetFlat.Scan
