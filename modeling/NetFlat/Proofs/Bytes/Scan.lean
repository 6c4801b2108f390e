import NetFlat.Proofs.Bytes.Dialect
import NetFlat.Proofs.Bytes.Gates
import NetFlat.Proofs.Scan.Factoring

/-!
# Scans by bytes

A scan over bytes takes the same steps as a scan over characters, and it can stop in each of them.
Two things keep it from that.  The statement that a scan holds on to has lines, all of them in one
file; that is so from the first line on and is carried along.  And no bus of the configuration is
declared with 2^32 bits: the number of bits of a range is a number of 32 bits.

* `Phase.InFile`, `Phase.inFile_advance`, `Scan.inFile_step`: what a scan holds on to;
* `Item.DeclaresWideBus`: a declaration whose number of bits does not fit;
* `Bytes.step_eq`, `Bytes.foldlM_step_eq`: one line, and a row of lines;
* `Bytes.failure?_eq`: the failure at the end.
-/

namespace NetFlat

/-! ### What a scan holds on to -/

/-- The statement that the phase holds on to is in a file. -/
def Phase.InFile (id : Nat) : Phase → Prop
  | .declaration d => d.line.span.file = id
  | .gate g => g.InFile id
  | _ => True

section

variable {config : Config} {id : Nat} {code : Text} {line : Line}

theorem OpenGate.InFile.extend {g : OpenGate} (h : g.InFile id) (hl : line.span.file = id) :
    (g.extend code line).InFile id := by
  obtain ⟨l, hfirst, hsnd⟩ := Option.map_eq_some_iff.mp h.first
  refine ⟨?_, fun m hm => ?_⟩
  · simp only [OpenGate.extend, List.head?_append, hfirst, Option.some_or, Option.map_some, hsnd]
  · rcases List.mem_append.mp hm with hm | hm
    · exact h.file m hm
    · rw [List.mem_singleton.mp hm]
      exact hl

theorem Phase.inFile_ofDeclaration {d : OpenDeclaration} (h : d.line.span.file = id) :
    (ofDeclaration code d).1.InFile id := by
  unfold ofDeclaration
  split
  · trivial
  · exact h

theorem Phase.inFile_ofGate {g : OpenGate} (h : g.InFile id) : (ofGate code g).1.InFile id := by
  unfold ofGate
  split
  · trivial
  · exact h

theorem Phase.inFile_ofBody (hl : line.span.file = id) : (ofBody code line).1.InFile id := by
  unfold ofBody
  split
  · trivial
  dsimp only
  split
  · trivial
  split
  · exact inFile_ofDeclaration hl
  split
  · exact inFile_ofDeclaration hl
  split
  · exact inFile_ofDeclaration hl
  split
  · refine inFile_ofGate ⟨rfl, fun l h => ?_⟩
    rw [List.mem_singleton.mp h]
    exact hl
  · trivial

theorem Phase.inFile_headerPhase : (Scan.headerPhase code).InFile id := by
  unfold Scan.headerPhase
  split <;> trivial

theorem Phase.inFile_advance {p : Phase} (h : p.InFile id) (hl : line.span.file = id) :
    (p.advance config code line).1.InFile id := by
  cases p with
  | seeking =>
    rw [advance]
    dsimp only
    split
    · exact inFile_headerPhase
    · trivial
  | header => exact inFile_headerPhase
  | body => exact inFile_ofBody hl
  | declaration d =>
    rw [advance]
    split
    · trivial
    · exact inFile_ofDeclaration ((Line.file_reach d.line line).trans h)
  | gate g =>
    rw [advance]
    split
    · trivial
    · exact inFile_ofGate (h.extend hl)
  | closed | failed f => trivial

namespace Scan

/-- The phase after a line is that of the reader, unless the scan has failed. -/
theorem phase_step (config : Config) (s : Scan) (line : Line) :
    (s.step config line).phase = (s.phase.advance config (Dialect.code line.text) line).1 ∨
      ∃ f, (s.step config line).phase = .failed f := by
  by_cases hf : ∃ f, s.phase = .failed f
  · obtain ⟨f, hf⟩ := hf
    exact .inr ⟨f, by rw [step_of_failed hf, hf]⟩
  have hr : s.Running := fun f e => hf ⟨f, e⟩
  have hphase := phase_eq_of_quiet_eq (quiet_step config hr line)
  rcases hadvance : s.phase.advance config (Dialect.code line.text) line with ⟨p, _ | i⟩
  · rw [hadvance] at hphase
    exact .inl hphase
  · rw [hadvance] at hphase
    obtain rfl := Phase.advance_eq_some hadvance
    rcases phase_perform config hr i with hb | ⟨f, hb⟩
    · exact .inl (hphase.trans hb)
    · exact .inr ⟨f, hphase.trans hb⟩

theorem inFile_step {s : Scan} (h : s.phase.InFile id) (hl : line.span.file = id) :
    (s.step config line).phase.InFile id := by
  rcases phase_step config s line with hp | ⟨f, hp⟩
  · rw [hp]
    exact Phase.inFile_advance h hl
  · rw [hp]
    trivial

theorem inFile_foldl_step {s : Scan} (h : s.phase.InFile id) {ls : List Line}
    (hl : ∀ l ∈ ls, l.span.file = id) : (ls.foldl (step config) s).phase.InFile id := by
  induction ls generalizing s with
  | nil => exact h
  | cons l ls ih =>
    simp only [List.mem_cons, forall_eq_or_imp] at hl
    exact ih (inFile_step h hl.1) hl.2

/-- The items of the lines behind a line are among those from the line on. -/
theorem read_step_subset (s : Scan) (line : Line) (ls : List (Text × Line)) :
    ((s.step config line).phase.read config ls).2 ⊆
      (s.phase.read config (line.coded :: ls)).2 := by
  rcases phase_step config s line with hp | ⟨f, hp⟩
  · rw [hp]
    exact List.subset_append_right _ _
  · rw [hp, Phase.read_failed]
    exact List.nil_subset _

end Scan

end

/-! ### Declarations -/

/-- The item declares a bus of the configuration, in its role, with 2^32 bits. -/
def Item.DeclaresWideBus (config : Config) : Item → Prop
  | .declaration ⟨.port role, text, _⟩ =>
    ∃ d ∈ Declaration.read? text, d.IsWide ∧
      ∃ name ∈ d.names, config.busRole? name = some role
  | _ => False

instance (config : Config) : DecidablePred (Item.DeclaresWideBus config)
  | .declaration ⟨.port role, text, _⟩ => inferInstanceAs (Decidable
      (∃ d ∈ Declaration.read? text, d.IsWide ∧
        ∃ name ∈ d.names, config.busRole? name = some role))
  | .declaration ⟨.wire, _, _⟩ => inferInstanceAs (Decidable False)
  | .gate _ => inferInstanceAs (Decidable False)
  | .other _ => inferInstanceAs (Decidable False)

namespace Bytes

open Text (byteSize behind)

section

variable (o : Overflow) (config : Config)

/-- Checks a name of a port declaration against the configured bus. -/
def declareName (role : BusRole) (d : Declaration) (line : Line) (s : Scan) (name : Text) :
    Except Stop Scan :=
  if config.busRole? name = some role then
    return if (← width? o d) = some config.width then s
      else s.report (Scan.widthMismatch config d line name)
  else return s

/-- A port declaration is checked against the configured bus, name by name. -/
def declarePorts (role : BusRole) (d : Declaration) (line : Line) (s : Scan) :
    Except Stop Scan := do
  let s ← d.names.foldlM (declareName o config role d line) s
  return if d.names.all fun name => config.busRole? name = some role then s else s.skip line

def finishDeclaration (d : OpenDeclaration) (s : Scan) : Except Stop Scan := do
  let s := s.goto .body
  match ← read? d.text with
  | none => return s.skip d.line
  | some decl =>
    match d.kind with
    | .port role => declarePorts o config role decl d.line s
    | .wire =>
      return if decl.range.isSome then decl.names.foldl (Scan.declareBusWire config d.line) s
        else s.declareWires d.line decl.names

/-- An instance of a cell that is not in the catalog is passed over, with a note at its place. -/
def skipGate (g : OpenGate) (s : Scan) : Except Stop Scan := do
  let what := s!"unsupported {Text.quoted g.keyword} instance {Text.quoted g.name}"
  let s := s.note .info s!"skipping {what}"
  let line ← location g
  let skippedCells := Tally.bump g.keyword s.stats.skippedCells
  return { s with stats := { s.stats with skippedCells } }.report
    { severity := .note, code := ⟨.info, 301⟩, span := line.span, message := s!"skipped {what}" }

def finishGate (g : OpenGate) (s : Scan) : Except Stop Scan :=
  let s := s.goto .body
  match Cell.find? g.keyword with
  | none => skipGate g s
  | some cell =>
    match placeGate config cell g s.scope with
    | .error (.stopped e) => .error e
    | .error (.failed f) => return s.fail f
    | .ok (placed, scope) =>
      let translated := Tally.bump g.keyword s.stats.translated
      return { s with scope, placed := s.placed ++ [placed], stats := { s.stats with translated } }

/-- A declaration opens; it is complete if its semicolon is on the line. -/
def openDeclaration (kind : DeclarationKind) (code : Text) (line : Line) (s : Scan) :
    Except Stop Scan := do
  let keyword ← firstWord code
  let d : OpenDeclaration := ⟨kind, ← behind (byteSize keyword) code, line⟩
  if ';' ∈ code then finishDeclaration o config d s
  else
    return (s.note .debug
      s!"line {line.number}: {Text.quoted keyword} declaration continues").goto (.declaration d)

/-- An instance opens; it is complete if its end is on the line. -/
def openGate (keyword name code : Text) (line : Line) (s : Scan) : Except Stop Scan :=
  let g : OpenGate := ⟨keyword, name, line, [(code, line)]⟩
  if Dialect.endsStatement code then finishGate config g s
  else
    return (s.note .debug
      s!"line {line.number}: opening {Text.quoted keyword} block").goto (.gate g)

/-- A line of the body that continues no statement. -/
def bodyLine (code : Text) (line : Line) (s : Scan) : Except Stop Scan := do
  if code = [] ∨ Dialect.isAttribute code then return s
  let word ← firstWord code
  if word = "endmodule".toList then
    return (s.note .debug
      s!"line {line.number}: end of module {Text.quoted config.moduleName}").goto .closed
  else if word = "input".toList then openDeclaration o config (.port .input) code line s
  else if word = "output".toList then openDeclaration o config (.port .output) code line s
  else if word = "wire".toList then openDeclaration o config .wire code line s
  else
    match ← gateHeader? code with
    | some (keyword, name) => openGate config keyword name code line s
    | none => return s.skip line

/-- A line in an open declaration. -/
def declarationLine (d : OpenDeclaration) (code : Text) (line : Line) (s : Scan) :
    Except Stop Scan := do
  if (← firstWord code) = "endmodule".toList then
    return s.cutOff d.line "declaration is not terminated before `endmodule`"
  let d ← extend d code line
  if ';' ∈ code then finishDeclaration o config d s else return s.goto (.declaration d)

/-- A line in an open instance. -/
def gateLine (g : OpenGate) (code : Text) (line : Line) (s : Scan) : Except Stop Scan := do
  if (← firstWord code) = "endmodule".toList then
    return s.cutOff (← location g) s!"{Scan.gateWords g} is not terminated before `endmodule`"
  let g := g.extend code line
  if Dialect.endsStatement code then finishGate config g s else return s.goto (.gate g)

def step (s : Scan) (line : Line) : Except Stop Scan := do
  let code ← code line.text
  match s.phase with
  | .seeking =>
    return if (← moduleName? code) = some config.moduleName then
      (s.note .debug
        s!"line {line.number}: entering module {Text.quoted config.moduleName}").goto
          (Scan.headerPhase code)
    else s
  | .header => return s.goto (Scan.headerPhase code)
  | .body => bodyLine o config code line s
  | .declaration d => declarationLine o config d code line s
  | .gate g => gateLine config g code line s
  | .closed => return s
  | .failed _ => return s

/-- The failure that the end of the lines is. -/
def failure? (last : Line) (s : Scan) : Except Stop (Option Failure) :=
  match s.phase with
  | .gate g => do
    let line ← location g
    return some ⟨line, .malformedStatement s!"{Scan.gateWords g} is never terminated with `);`"⟩
  | _ => return s.failure? config last

end

/-! ### Runs that stop at overflow -/

section

open Overflow (Refines)

variable (config : Config)

theorem width?_refines (d : Declaration) : Refines (width? .stops d) (width? .wraps d) := by
  unfold width?
  split
  · exact .refl _
  · exact (Overflow.add_refines _ _).bind fun _ => .refl _

theorem finishDeclaration_refines (d : OpenDeclaration) (s : Scan) :
    Refines (finishDeclaration .stops config d s) (finishDeclaration .wraps config d s) := by
  refine Refines.bind (.refl _) fun decl? => ?_
  cases decl? with
  | none => exact .refl _
  | some decl =>
    cases d.kind with
    | wire => exact .refl _
    | port role =>
      refine (Refines.foldlM (fun s name => ?_) decl.names _).bind fun _ => .refl _
      unfold declareName
      split
      · exact (width?_refines decl).bind fun _ => .refl _
      · exact .refl _

theorem openDeclaration_refines (kind : DeclarationKind) (code : Text) (line : Line) (s : Scan) :
    Refines (openDeclaration .stops config kind code line s)
      (openDeclaration .wraps config kind code line s) := by
  refine Refines.bind (.refl _) fun keyword => Refines.bind (.refl _) fun text => ?_
  dsimp only
  split
  · exact finishDeclaration_refines config _ s
  · exact .refl _

theorem bodyLine_refines (code : Text) (line : Line) (s : Scan) :
    Refines (bodyLine .stops config code line s) (bodyLine .wraps config code line s) := by
  unfold bodyLine
  split
  · exact .refl _
  refine Refines.bind (.refl _) fun word => ?_
  split
  · exact .refl _
  split
  · exact openDeclaration_refines config _ code line s
  split
  · exact openDeclaration_refines config _ code line s
  split
  · exact openDeclaration_refines config _ code line s
  · exact .refl _

theorem declarationLine_refines (d : OpenDeclaration) (code : Text) (line : Line) (s : Scan) :
    Refines (declarationLine .stops config d code line s)
      (declarationLine .wraps config d code line s) := by
  refine Refines.bind (.refl _) fun word => ?_
  split
  · exact .refl _
  refine Refines.bind (.refl _) fun d => ?_
  split
  · exact finishDeclaration_refines config d s
  · exact .refl _

/-- **One line**: where numbers do not wrap around, a scan stops at it or comes to the same. -/
theorem step_refines (s : Scan) (line : Line) :
    Refines (step .stops config s line) (step .wraps config s line) := by
  refine Refines.bind (.refl _) fun code => ?_
  cases s.phase with
  | body => exact bodyLine_refines config code line s
  | declaration d => exact declarationLine_refines config d code line s
  | seeking | header | gate g | closed | failed f => exact .refl _

end

section

variable {o : Overflow} {config : Config}

theorem foldlM_declareName_eq {role : BusRole} {d : Declaration} {line : Line} {names : List Text}
    (h : ∀ name ∈ names, config.busRole? name = some role → width? o d = .ok d.width?) (s : Scan) :
    names.foldlM (declareName o config role d line) s =
      .ok (if d.width? = some config.width then s else
        (names.filter fun name => config.busRole? name = some role).foldl
          (fun s name => s.report (Scan.widthMismatch config d line name)) s) := by
  induction names generalizing s with
  | nil => exact congrArg Except.ok (ite_self s).symm
  | cons name names ih =>
    simp only [List.mem_cons, forall_eq_or_imp] at h
    rw [List.foldlM_cons, declareName]
    by_cases hrole : config.busRole? name = some role
    · rw [if_pos hrole, h.1 hrole, ok_bind]
      change names.foldlM _ _ = _
      rw [ih h.2, List.filter_cons_of_pos (by simpa using hrole), List.foldl_cons]
      by_cases hw : d.width? = some config.width
      · rw [if_pos hw, if_pos hw, if_pos hw]
      · rw [if_neg hw, if_neg hw, if_neg hw]
    · rw [if_neg hrole, List.filter_cons_of_neg (by simpa using hrole)]
      exact ih h.2 s

/-- **A complete declaration** that declares no bus with 2^32 bits. -/
theorem finishDeclaration_eq {d : OpenDeclaration}
    (h : o = .stops → ¬(Item.declaration d).DeclaresWideBus config) (s : Scan) :
    finishDeclaration o config d s = .ok (s.finishDeclaration config d) := by
  obtain ⟨kind, text, line⟩ := d
  unfold finishDeclaration Scan.finishDeclaration
  dsimp only
  rw [read?_eq, ok_bind]
  cases hread : Declaration.read? text with
  | none => rfl
  | some decl =>
    cases kind with
    | wire => rfl
    | port role =>
      have hwidth : ∀ name ∈ decl.names, config.busRole? name = some role →
          width? o decl = .ok decl.width? := by
        intro name hname hrole
        exact width?_eq hread fun ho hwide => h ho ⟨decl, hread, hwide, name, hname, hrole⟩
      dsimp only
      rw [declarePorts, foldlM_declareName_eq hwidth, ok_bind]
      rfl

theorem openDeclaration_eq {kind : DeclarationKind} {code : Text} {line : Line}
    (h : o = .stops → ∀ i, (Phase.ofDeclaration code
      ⟨kind, code.drop (Dialect.firstWord code).length, line⟩).2 = some i →
        ¬i.DeclaresWideBus config) (s : Scan) :
    openDeclaration o config kind code line s =
      .ok (s.openDeclaration config kind (Dialect.firstWord code) code line) := by
  unfold openDeclaration Scan.openDeclaration
  rw [firstWord_eq, ok_bind, behind_piece (prefix_firstWord code), ok_bind]
  dsimp only
  by_cases hc : ';' ∈ code
  · rw [if_pos hc, if_pos hc]
    refine finishDeclaration_eq (fun ho => h ho _ ?_) s
    rw [Phase.ofDeclaration, if_pos hc]
  · rw [if_neg hc, if_neg hc]
    rfl

section

variable {id : Nat}

/-- **A complete instance** in a file. -/
theorem finishGate_eq {g : OpenGate} (h : g.InFile id) (s : Scan) :
    finishGate config g s = .ok (s.finishGate config g) := by
  unfold finishGate Scan.finishGate
  dsimp only
  cases hc : Cell.find? g.keyword with
  | none =>
    dsimp only
    rw [skipGate, location_eq h, ok_bind]
    rfl
  | some cell =>
    dsimp only
    rw [placeGate_eq h hc]
    cases Scan.placeGate config cell g (s.goto .body).scope with
    | error f => rfl
    | ok r => rfl

theorem openGate_eq {keyword name code : Text} {line : Line} (s : Scan) :
    openGate config keyword name code line s = .ok (s.openGate config keyword name code line) := by
  unfold openGate Scan.openGate
  dsimp only
  split
  · refine @finishGate_eq _ line.span.file _ ⟨rfl, fun l h => ?_⟩ s
    rw [List.mem_singleton.mp h]
  · rfl

theorem bodyLine_eq {code : Text} {line : Line}
    (h : o = .stops → ∀ i, (Phase.ofBody code line).2 = some i → ¬i.DeclaresWideBus config)
    (s : Scan) :
    bodyLine o config code line s = .ok (s.bodyLine config code line) := by
  unfold Phase.ofBody at h
  unfold bodyLine Scan.bodyLine
  rw [firstWord_eq]
  -- both look at the first word in the same order
  by_cases hsilent : code = [] ∨ Dialect.isAttribute code = true
  · rw [if_pos hsilent, if_pos hsilent]
    rfl
  rw [if_neg hsilent] at h ⊢
  rw [if_neg hsilent, ok_bind]
  dsimp only at h ⊢
  by_cases hend : Dialect.firstWord code = "endmodule".toList
  · rw [if_pos hend, if_pos hend]
    rfl
  rw [if_neg hend] at h ⊢
  rw [if_neg hend]
  by_cases hin : Dialect.firstWord code = "input".toList
  · rw [if_pos hin] at h ⊢
    rw [if_pos hin]
    exact openDeclaration_eq h s
  rw [if_neg hin] at h ⊢
  rw [if_neg hin]
  by_cases hout : Dialect.firstWord code = "output".toList
  · rw [if_pos hout] at h ⊢
    rw [if_pos hout]
    exact openDeclaration_eq h s
  rw [if_neg hout] at h ⊢
  rw [if_neg hout]
  by_cases hwire : Dialect.firstWord code = "wire".toList
  · rw [if_pos hwire] at h ⊢
    rw [if_pos hwire]
    exact openDeclaration_eq h s
  rw [if_neg hwire, if_neg hwire, gateHeader?_eq, ok_bind]
  cases Dialect.gateHeader? code with
  | none => rfl
  | some r => exact openGate_eq s

theorem declarationLine_eq {d : OpenDeclaration} {code : Text} {line : Line}
    (hd : d.line.span.file = id) (hl : line.span.file = id)
    (h : o = .stops → Dialect.firstWord code ≠ "endmodule".toList → ∀ i,
      (Phase.ofDeclaration code (d.extend code line)).2 = some i → ¬i.DeclaresWideBus config)
    (s : Scan) : declarationLine o config d code line s =
      .ok (if Dialect.firstWord code = "endmodule".toList then
          s.cutOff d.line "declaration is not terminated before `endmodule`"
        else if ';' ∈ code then s.finishDeclaration config (d.extend code line)
        else s.goto (.declaration (d.extend code line))) := by
  unfold declarationLine
  rw [firstWord_eq, ok_bind]
  by_cases hend : Dialect.firstWord code = "endmodule".toList
  · rw [if_pos hend, if_pos hend]
    rfl
  rw [if_neg hend, if_neg hend, extend_eq hd hl, ok_bind]
  by_cases hc : ';' ∈ code
  · rw [if_pos hc, if_pos hc]
    refine finishDeclaration_eq (fun ho => h ho hend _ ?_) s
    rw [Phase.ofDeclaration, if_pos hc]
  · rw [if_neg hc, if_neg hc]
    rfl

theorem gateLine_eq {g : OpenGate} {code : Text} {line : Line} (hg : g.InFile id)
    (hl : line.span.file = id) (s : Scan) : gateLine config g code line s =
      .ok (if Dialect.firstWord code = "endmodule".toList then
          s.cutOff g.location s!"{Scan.gateWords g} is not terminated before `endmodule`"
        else if Dialect.endsStatement code then s.finishGate config (g.extend code line)
        else s.goto (.gate (g.extend code line))) := by
  unfold gateLine
  rw [firstWord_eq, ok_bind, location_eq hg]
  dsimp only
  split
  · rfl
  split
  · exact finishGate_eq (hg.extend hl) s
  · rfl

/-- **One line** of a file, which completes no declaration of a bus with 2^32 bits. -/
theorem step_eq {s : Scan} {line : Line} (hs : s.phase.InFile id) (hl : line.span.file = id)
    (h : o = .stops → ∀ i, (s.phase.advance config (Dialect.code line.text) line).2 = some i →
      ¬i.DeclaresWideBus config) :
    step o config s line = .ok (s.step config line) := by
  unfold step Scan.step
  rw [code_eq, ok_bind]
  dsimp only
  cases hp : s.phase with
  | seeking =>
    dsimp only
    rw [moduleName?_eq, ok_bind]
    rfl
  | header => rfl
  | body =>
    rw [hp] at h
    exact bodyLine_eq h s
  | declaration d =>
    rw [hp] at h hs
    refine declarationLine_eq hs hl (fun ho hend i hi => h ho i ?_) s
    rw [Phase.advance, if_neg hend]
    exact hi
  | gate g =>
    rw [hp] at hs
    exact gateLine_eq hs hl s
  | closed | failed f => rfl

/-- **A row of lines** of a file, which declare no bus with 2^32 bits. -/
theorem foldlM_step_eq {ls : List Line} (hl : ∀ l ∈ ls, l.span.file = id) {s : Scan}
    (hs : s.phase.InFile id)
    (h : o = .stops →
      ∀ i ∈ (s.phase.read config (ls.map Line.coded)).2, ¬i.DeclaresWideBus config) :
    ls.foldlM (step o config) s = .ok (ls.foldl (Scan.step config) s) := by
  induction ls generalizing s with
  | nil => rfl
  | cons l ls ih =>
    simp only [List.mem_cons, forall_eq_or_imp] at hl
    have hfirst : o = .stops → ∀ i, (s.phase.advance config (Dialect.code l.text) l).2 = some i →
        ¬i.DeclaresWideBus config := by
      intro ho i hi
      refine h ho i (List.mem_append_left _ ?_)
      rw [hi]
      exact List.mem_singleton_self i
    rw [List.foldlM_cons, step_eq hs hl.1 hfirst, ok_bind]
    exact ih hl.2 (Scan.inFile_step hs hl.1)
      fun ho i hi => h ho i (Scan.read_step_subset s l _ hi)

theorem failure?_eq {s : Scan} (hs : s.phase.InFile id) (last : Line) :
    failure? config last s = .ok (s.failure? config last) := by
  unfold failure?
  cases hp : s.phase with
  | gate g =>
    rw [hp] at hs
    dsimp only
    rw [location_eq hs, ok_bind, Scan.failure?, hp]
    rfl
  | seeking | header | body | declaration d | closed | failed f => rfl

end

end

end Bytes

end NetFlat
