import NetFlat.Proofs.Dialect.Declarations
import NetFlat.Proofs.Renderings

/-!
# What declaration statements do

A scan that has come to the body of a module reads a declaration as it is written, on however many
lines it is laid out, and does to its scope, its counts and its findings what the declaration says.

* `Phase.read_ofDeclaration`, `DeclarationStatement.exists_read`: the lines are one declaration;
* `Scan.declareWires_append`, `Scan.mismatches_eq`, `Scan.filterMap_busWireFinding?`: wires, ports
  and wires with a range;
* `DeclarationStatement.Outcome`, `DeclarationStatement.outcome_of_laidOut`: what it all comes to.
-/

namespace NetFlat

open Dialect (Token Spells SpellsLine LaidOut)

/-! ### Rows -/

section Rows

variable {α : Type} {row vs us : List α} {rows : List (List α)} {w : α}

theorem last_ne_nil_of_cons (h : ∀ r ∈ (row :: rows).getLast?, r ≠ []) :
    ∀ r ∈ rows.getLast?, r ≠ [] := by
  intro r hr
  cases rows with
  | nil => simp at hr
  | cons r' rows => exact h r (by rwa [List.getLast?_cons_cons])

theorem flatten_ne_nil (hne : rows ≠ []) (h : ∀ r ∈ rows.getLast?, r ≠ []) : rows.flatten ≠ [] := by
  intro hnil
  have hlast := List.getLast?_eq_some_getLast hne
  exact h _ hlast (List.flatten_eq_nil_iff.mp hnil _ (List.mem_of_getLast? hlast))

theorem exists_append_of_append_eq (h : row ++ us = vs ++ [w]) (hne : us ≠ []) :
    ∃ vs', vs = row ++ vs' ∧ us = vs' ++ [w] := by
  rcases List.eq_nil_or_concat us with rfl | ⟨vs', x, rfl⟩
  · exact absurd rfl hne
  · rw [List.concat_eq_append, ← List.append_assoc] at h
    obtain ⟨hrow, hend⟩ := List.append_inj' h rfl
    exact ⟨vs', hrow.symm, by rw [List.concat_eq_append, hend]⟩

end Rows

/-! ### Reading -/

/-- The place of a statement that goes on from its first line over further ones: the first line, with
a span over all of them. -/
def Line.through (first : Line) (rest : List Line) : Line :=
  rest.foldl Line.reach first

namespace Phase

open DeclarationStatement (legal_of_mem_append_semicolon)

variable {us row vs : List Token} {rows : List (List Token)} {code : Text} {d : OpenDeclaration}
  {ls : List Line}

/-- A declaration goes on from a line of it up to the one with the last of its tokens, if that is the
only semicolon. -/
theorem read_ofDeclaration (config : Config) (hlegal : ∀ w ∈ vs, w.Legal ∧ ';' ∉ w.text)
    (hcode : Spells row code) (hd : Spells us d.text)
    (hsplit : row ++ rows.flatten = vs ++ [.mark ';']) (hlast : ∀ r ∈ rows.getLast?, r ≠ [])
    (h : List.Forall₂ (fun row l => SpellsLine row l.text) rows ls) :
    ∃ text, Spells (us ++ rows.flatten) text ∧
      (((ofDeclaration code d).1.read config (ls.map Line.coded)).1,
        (ofDeclaration code d).2.toList ++
          ((ofDeclaration code d).1.read config (ls.map Line.coded)).2) =
        (.body, [.declaration { d with text, line := d.line.through ls }]) := by
  induction h generalizing us row vs code d with
  | nil =>
    have hrow : row = vs ++ [.mark ';'] := by simpa using hsplit
    have hsemi : ';' ∈ code :=
      (hcode.mem_iff (by decide)).mpr ⟨.mark ';', by simp [hrow], by decide⟩
    refine ⟨d.text, by simpa using hd, ?_⟩
    rw [ofDeclaration, if_pos hsemi]
    rfl
  | @cons row' l rows ls hl _ ih =>
    -- the semicolon stands on a further line, so this one leaves the declaration open
    obtain ⟨vs, rfl, hrest⟩ :=
      exists_append_of_append_eq hsplit (flatten_ne_nil (List.cons_ne_nil _ _) hlast)
    obtain ⟨hbefore, hlegal⟩ := List.forall_mem_append.mp hlegal
    have hsemi : ';' ∉ code := by
      intro hm
      obtain ⟨w, hw, hmem⟩ := (hcode.mem_iff (by decide)).mp hm
      exact (hbefore w hw).2 hmem
    have hopen : ofDeclaration code d = (.declaration d, none) := if_neg hsemi
    -- the next line goes on with it
    have hrow : ∀ w ∈ row', w.Legal := by
      intro w hw
      apply legal_of_mem_append_semicolon hlegal
      rw [← hrest, List.flatten_cons]
      exact List.mem_append_left _ hw
    have hadvance : (Phase.declaration d).advance config (Dialect.code l.text) l =
        ofDeclaration (Dialect.code l.text) (d.extend (Dialect.code l.text) l) :=
      if_neg (hl.firstWord_ne hrow)
    have hextend : Spells (us ++ row') (d.extend (Dialect.code l.text) l).text :=
      hd.append (hl.code hrow)
    obtain ⟨text, htext, hread⟩ :=
      ih hlegal (hl.code hrow) hextend hrest (last_ne_nil_of_cons hlast)
    refine ⟨text, by simpa using htext, ?_⟩
    rw [hopen, List.map_cons, Line.coded, read_cons, hadvance, hread]
    rfl

end Phase

namespace DeclarationStatement

variable {g : DeclarationStatement} {first : Line} {rest : List Line}

/-- **One declaration.**  The lines that a statement is laid out on are read as one declaration of its
kind, with its range and its names, which stands at the first of the lines. -/
theorem exists_read (config : Config)
    (h : LaidOut g.tokens ((first :: rest).map Line.text)) :
    ∃ d, Phase.body.read config ((first :: rest).map Line.coded) = (.body, [.declaration d]) ∧
      d.kind = g.kind ∧ Declaration.read? d.text = some g.declaration ∧
      d.line = first.through rest := by
  obtain ⟨rows, hflat, hhead, hlast, hlines⟩ := h
  rw [List.map_cons] at hlines
  cases hlines with
  | @cons row _ rows _ hfirst hrest =>
    obtain ⟨w, row, rfl⟩ := List.exists_cons_of_ne_nil (hhead row rfl)
    have htokens : w :: (row ++ rows.flatten) =
        .keyword (Phase.declarationWord g.kind) :: (g.content ++ [.mark ';']) := hflat
    obtain ⟨rfl, hcontent⟩ := List.cons.inj htokens
    have hlegal : ∀ v ∈ .keyword (Phase.declarationWord g.kind) :: row, v.Legal := by
      intro v hv
      refine legal_of_mem_tokens (g := g) ?_
      rw [← hflat, List.flatten_cons]
      exact List.mem_append_left _ hv
    have hcode := hfirst.code hlegal
    obtain ⟨t, ht, hnext, hrow⟩ := hcode.exists_head (Text.trimmed_trim _).head
    have hbody : Phase.body.advance config (Dialect.code first.text) first =
        Phase.ofDeclaration (Dialect.code first.text) ⟨g.kind, t, first⟩ := by
      rw [ht]
      exact Phase.ofBody_declarationWord g.kind first fun c hc =>
        Token.isWordChar_of_precedes_keyword (hnext c hc)
    obtain ⟨text, htext, hread⟩ := Phase.read_ofDeclaration config
      (fun v hv => legal_of_mem_opening hv) hcode (d := ⟨g.kind, t, first⟩) hrow hflat
      (last_ne_nil_of_cons hlast) (List.forall₂_map_right_iff.mp hrest)
    rw [hcontent] at htext
    refine ⟨⟨g.kind, text, first.through rest⟩, ?_, rfl, read?_of_spells htext, rfl⟩
    rw [List.map_cons, Line.coded, Phase.read_cons, hbody, hread]

end DeclarationStatement

/-! ### Working off -/

namespace Scan

variable {config : Config} {s : Scan} {line : Line} {names after : List Text} {n : Text}

/-- The scan with the names declared, one after the other. -/
def declaring (names : List Text) (s : Scan) : Scan :=
  { s with
    scope := { s.scope with
      declared := names.foldl (fun declared name => declared.insert ⟨name⟩) s.scope.declared } }

theorem mem_declared_declaring {a : Signal} : a ∈ (s.declaring names).scope.declared ↔
    a ∈ s.scope.declared ∨ a.name ∈ names := by
  show a ∈ names.foldl _ s.scope.declared ↔ _
  generalize s.scope.declared = declared
  induction names generalizing declared with
  | nil => simp
  | cons n names ih =>
    have hn : a = ⟨n⟩ ↔ a.name = n := by
      cases a
      simp
    rw [List.foldl_cons, ih, List.mem_insert_iff, List.mem_cons, hn]
    tauto

theorem declareWires_append (h : ∀ n ∈ names, ⟨n⟩ ∉ s.scope.auxiliaries) (after : List Text) :
    s.declareWires line (names ++ after) = (s.declaring names).declareWires line after := by
  induction names generalizing s with
  | nil => rfl
  | cons n names ih =>
    obtain ⟨hn, hnames⟩ := List.forall_mem_cons.mp h
    have hdeclare : s.scope.declare ⟨n⟩ =
        .ok { s.scope with declared := s.scope.declared.insert ⟨n⟩ } := if_neg hn
    rw [List.cons_append, declareWires, hdeclare]
    exact ih hnames

theorem declareWires_cons_of_mem (h : ⟨n⟩ ∈ s.scope.auxiliaries) (after : List Text) :
    s.declareWires line (n :: after) = s.fail ⟨line, .nameCollision n "auxiliary wire"⟩ := by
  have hdeclare : s.scope.declare ⟨n⟩ = .error ⟨⟨n⟩, .auxiliaryWire⟩ := if_pos h
  rw [declareWires, hdeclare]
  rfl

/-- The finding that a wire with a range is passed over. -/
def busWireWarning (line : Line) (name : Text) : Diagnostic :=
  { severity := .warning, code := ⟨.warning, 202⟩, span := line.span,
    message := s!"bus wire {Text.quoted name} is not a port bus and is not flattened" }

/-- Each wire with a range is reported that is not named for a port bus. -/
theorem filterMap_busWireFinding? (config : Config) (line : Line) (names : List Text) :
    names.filterMap (busWireFinding? config line) =
      (names.filter (· ∉ [config.inputBus, config.outputBus])).map (busWireWarning line) := by
  have hrole (name : Text) : (config.busRole? name).isSome ↔
      name ∈ [config.inputBus, config.outputBus] := by
    unfold Config.busRole?
    split
    · next hi => simp [hi]
    · next hi =>
      split
      · next ho => simp [ho]
      · next ho => simp [hi, ho]
  induction names with
  | nil => rfl
  | cons name names ih =>
    by_cases h : name ∈ [config.inputBus, config.outputBus]
    · have hnone : busWireFinding? config line name = none := if_pos ((hrole name).mpr h)
      rw [List.filterMap_cons_none hnone, ih, List.filter_cons, decide_eq_false (not_not_intro h)]
      rfl
    · have hsome : busWireFinding? config line name = some (busWireWarning line name) :=
        if_neg fun hr => h ((hrole name).mp hr)
      rw [List.filterMap_cons_some hsome, ih, List.filter_cons, decide_eq_true h]
      rfl

/-- A port bus that is declared with another width is reported as often as it is declared. -/
theorem mismatches_eq (config : Config) (role : BusRole) (decl : Declaration) (line : Line) :
    mismatches config role decl line =
      if decl.width? = some config.width then []
      else List.replicate (decl.names.count (config.busName role))
        (widthMismatch config decl line (config.busName role)) := by
  have hown : (decl.names.filter fun name => config.busRole? name = some role) =
      List.replicate (decl.names.count (config.busName role)) (config.busName role) := by
    simp only [Config.busRole?_eq_some_iff]
    exact List.filter_eq _
  rw [mismatches, hown, List.map_replicate]

theorem settle_eq_self (h : s.phase = .body) : s.settle .body = s := by
  rw [settle_of_running fun f => by simp [h], ← h]
  rfl

end Scan

namespace DeclarationStatement

variable {config : Config} {g : DeclarationStatement} {line : Line} {s t : Scan}

/-- A name of the statement is not that of the port bus. -/
def IsForeign (config : Config) (role : BusRole) (g : DeclarationStatement) : Prop :=
  ∃ n ∈ g.names, n ≠ config.busName role

instance (config : Config) (role : BusRole) (g : DeclarationStatement) :
    Decidable (g.IsForeign config role) :=
  inferInstanceAs (Decidable (∃ n ∈ g.names, n ≠ config.busName role))

/-- The number of bits from the one bound of the range to the other, both counted; a statement without
a range has none. -/
def bits? (g : DeclarationStatement) : Option Nat :=
  g.range.map fun r =>
    max r.msb.digitsValue r.lsb.digitsValue - min r.msb.digitsValue r.lsb.digitsValue + 1

/-- The warning that the port bus is declared with other bits than it is configured with. -/
def busWarning (config : Config) (role : BusRole) (g : DeclarationStatement) (line : Line) :
    Diagnostic where
  severity := .warning
  code := ⟨.warning, 201⟩
  message :=
    let declared := (g.bits?.map fun bits => s!"{bits}-bit").getD "scalar"
    s!"port bus {Text.quoted (config.busName role)} is declared {declared}"
  span := line.span
  labels := [⟨line.span, s!"configured width is {config.width}", .primary⟩]
  notes := ["ports are emitted with the configured width"]

/-- The findings about a declaration of ports: the bus has other bits, as often as it is declared, and
there is a name that is not that of the bus. -/
def portFindings (config : Config) (role : BusRole) (g : DeclarationStatement) (line : Line) :
    List Diagnostic :=
  (if g.bits? = some config.width then []
    else List.replicate (g.names.count (config.busName role)) (g.busWarning config role line)) ++
  if g.IsForeign config role then [Scan.skipNote line] else []

theorem width?_declaration (g : DeclarationStatement) : g.declaration.width? = g.bits? := by
  rw [Declaration.width?, declaration, bits?, Option.map_map]
  refine congrArg (Option.map · g.range) (funext fun r => ?_)
  exact Nat.mod_eq_of_lt r.width_lt

theorem widthMismatch_declaration (config : Config) (role : BusRole) (g : DeclarationStatement)
    (line : Line) : Scan.widthMismatch config g.declaration line (config.busName role) =
      g.busWarning config role line := by
  have hwords : Scan.widthWords g.declaration =
      (g.bits?.map fun bits => s!"{bits}-bit").getD "scalar" := by
    rw [Scan.widthWords, width?_declaration]
    cases g.bits? <;> rfl
  rw [Scan.widthMismatch, hwords]
  rfl

/-- What the statement leads to from a scan in a body, if it stands at the line: wires are declared up
to the first one that has the name of an auxiliary wire, wires with a range are reported unless they
are named for a port bus, and ports are checked.  All else is as it was. -/
inductive Outcome (config : Config) (g : DeclarationStatement) (line : Line) (s t : Scan) : Prop
  | declared (hk : g.kind = .wire) (hr : g.range = none)
      (hfree : ∀ n ∈ g.names, ⟨n⟩ ∉ s.scope.auxiliaries)
      (hmem : ∀ a, a ∈ t.scope.declared ↔ a ∈ s.scope.declared ∨ a.name ∈ g.names)
      (h : t.quiet = (s.declaring g.names).quiet)
  | taken {before after : List Text} {n : Text} (hk : g.kind = .wire) (hr : g.range = none)
      (hnames : g.names = before ++ n :: after)
      (hfree : ∀ m ∈ before, ⟨m⟩ ∉ s.scope.auxiliaries) (htaken : ⟨n⟩ ∈ s.scope.auxiliaries)
      (h : t.quiet =
        ((s.declaring before).fail ⟨line, .nameCollision n "auxiliary wire"⟩).quiet)
  | buses (hk : g.kind = .wire) (hr : g.range.isSome)
      (h : t.quiet = Scan.quiet
        { s with
          findings := s.findings ++ (g.names.filter (· ∉ [config.inputBus, config.outputBus])).map
            (Scan.busWireWarning line) })
  | ports {role : BusRole} (hk : g.kind = .port role)
      (h : t.quiet = Scan.quiet
        { s with
          stats := { s.stats with
            skippedLines := s.stats.skippedLines + if g.IsForeign config role then 1 else 0 }
          findings := s.findings ++ g.portFindings config role line })

theorem declarePorts_declaration (config : Config) (role : BusRole) (g : DeclarationStatement)
    (line : Line) (s : Scan) : s.declarePorts config role g.declaration line =
      { s with
        stats := { s.stats with
          skippedLines := s.stats.skippedLines + if g.IsForeign config role then 1 else 0 }
        findings := s.findings ++ g.portFindings config role line } := by
  have hall : (g.declaration.names.all fun n => config.busRole? n = some role) = true ↔
      ¬g.IsForeign config role := by
    simp [IsForeign, declaration, Config.busRole?_eq_some_iff]
  rw [Scan.declarePorts_eq, Scan.mismatches_eq, width?_declaration, widthMismatch_declaration]
  by_cases hforeign : g.IsForeign config role
  · rw [if_neg (by simpa [hall] using hforeign)]
    simp [portFindings, hforeign, Scan.skip, Scan.report, Scan.skipNote, declaration]
  · rw [if_pos (hall.mpr hforeign)]
    simp [portFindings, hforeign, declaration]

/-- A complete declaration is worked off as its statement says. -/
theorem outcome_of_read {d : OpenDeclaration} (config : Config) (hs : s.phase = .body)
    (hk : d.kind = g.kind) (hread : Declaration.read? d.text = some g.declaration)
    (ht : t.quiet = ((s.finishDeclaration config d).settle .body).quiet) :
    g.Outcome config d.line s t := by
  have hgoto : s.goto .body = s := by
    rw [← hs]
    rfl
  simp only [Scan.finishDeclaration, hgoto, hread, hk] at ht
  cases hkind : g.kind with
  | port role =>
    simp only [hkind, declarePorts_declaration] at ht
    exact .ports hkind (ht.trans (congrArg Scan.quiet (Scan.settle_eq_self hs)))
  | wire =>
    simp only [hkind] at ht
    cases hrange : g.range with
    | some r =>
      have hsome : g.declaration.range.isSome = true := by simp [declaration, hrange]
      have hfold : (g.names.foldl (Scan.declareBusWire config d.line) s).quiet =
          { s.quiet with
            findings := s.findings ++ g.names.filterMap (Scan.busWireFinding? config d.line) } :=
        Scan.quiet_foldl_declareBusWire d.line g.names s
      have hphase : (g.names.foldl (Scan.declareBusWire config d.line) s).phase = .body :=
        (congrArg Scan.phase hfold).trans hs
      rw [if_pos hsome, declaration, Scan.settle_eq_self hphase, hfold,
        Scan.filterMap_busWireFinding?] at ht
      exact .buses hkind (by simp [hrange]) ht
    | none =>
      have hnone : ¬g.declaration.range.isSome = true := by simp [declaration, hrange]
      rw [if_neg hnone, declaration] at ht
      -- the names in front of the first one that is taken are declared all the same
      by_cases htaken : ∃ n ∈ g.names, (⟨n⟩ : Signal) ∈ s.scope.auxiliaries
      · obtain ⟨before, n, after, hcut, hfree, hn⟩ := exists_first htaken
        rw [hcut, Scan.declareWires_append hfree,
          Scan.declareWires_cons_of_mem (s := s.declaring before) hn,
          Scan.settle_of_failed rfl] at ht
        exact .taken hkind hrange hcut hfree hn ht
      · have hfree : ∀ n ∈ g.names, (⟨n⟩ : Signal) ∉ s.scope.auxiliaries := fun n hn h =>
          htaken ⟨n, hn, h⟩
        have hall : s.declareWires d.line (g.names ++ []) = s.declaring g.names :=
          Scan.declareWires_append hfree []
        rw [List.append_nil] at hall
        rw [hall, Scan.settle_eq_self (s := s.declaring g.names) hs] at ht
        refine .declared hkind hrange hfree (fun a => ?_) ht
        show a ∈ t.quiet.scope.declared ↔ _
        rw [ht]
        exact Scan.mem_declared_declaring

/-- The statement fails exactly if it declares a wire with the name of an auxiliary wire. -/
theorem Outcome.failed_iff (h : g.Outcome config line s t) (hs : s.phase = .body) :
    (∃ f, t.phase = .failed f) ↔
      g.kind = .wire ∧ g.range = none ∧ ∃ n ∈ g.names, ⟨n⟩ ∈ s.scope.auxiliaries := by
  cases h with
  | declared hk hr hfree hmem h =>
    have hphase : t.phase = .body := (congrArg Scan.phase h).trans hs
    simp only [hphase, reduceCtorEq, exists_false, false_iff]
    rintro ⟨-, -, n, hn, htaken⟩
    exact hfree n hn htaken
  | taken hk hr hnames hfree htaken h =>
    refine ⟨fun _ => ⟨hk, hr, _, by simp [hnames], htaken⟩, fun _ => ?_⟩
    exact ⟨_, congrArg Scan.phase h⟩
  | buses hk hr h =>
    have hphase : t.phase = .body := (congrArg Scan.phase h).trans hs
    have hne : g.range ≠ none := by
      intro hnone
      simp [hnone] at hr
    simp [hphase, hne]
  | ports hk h =>
    have hphase : t.phase = .body := (congrArg Scan.phase h).trans hs
    simp [hphase, hk]

variable {first : Line} {rest : List Line}

/-- **Declarations are read exactly.**  A statement that is laid out on lines, as one likes, is read as
one declaration of its kind, with its range and its names in order.  From a scan in the body of a
module the lines lead to its outcome, at the place of the lines, and they fail exactly if it declares
a wire with the name of an auxiliary wire. -/
theorem outcome_of_laidOut (config : Config) (hs : s.phase = .body)
    (h : LaidOut g.tokens ((first :: rest).map Line.text)) :
    (∃ d, Phase.body.read config ((first :: rest).map Line.coded) = (.body, [.declaration d]) ∧
      d.kind = g.kind ∧ Declaration.read? d.text = some g.declaration ∧
      d.line = first.through rest) ∧
    g.Outcome config (first.through rest) s ((first :: rest).foldl (Scan.step config) s) ∧
    ((∃ f, ((first :: rest).foldl (Scan.step config) s).phase = .failed f) ↔
      g.kind = .wire ∧ g.range = none ∧ ∃ n ∈ g.names, ⟨n⟩ ∈ s.scope.auxiliaries) := by
  obtain ⟨d, hphase, hk, hread, hline⟩ := exists_read config h
  have hr : s.Running := fun f => by simp [hs]
  have hstep : ((first :: rest).foldl (Scan.step config) s).quiet = _ :=
    Scan.foldl_step hr (first :: rest)
  rw [hs, hphase] at hstep
  simp only [List.foldl_cons, List.foldl_nil, Scan.perform_of_running hr] at hstep
  have ho := outcome_of_read config hs hk hread hstep
  rw [hline] at ho
  exact ⟨⟨d, hphase, hk, hread, hline⟩, ho, ho.failed_iff hs⟩

end DeclarationStatement

/-! ### A sample -/

/-- A declaration of the input port, twice, and of two names that are no ports. -/
def inputStatement : DeclarationStatement where
  kind := .port .input
  kindWord := some "wire".toList
  range := some ⟨"03".toList, "0".toList, by decide, by decide, by decide, by decide, by decide⟩
  names := ["in_array".toList, "wire_1".toList, "\\n/1".toList, "in_array".toList]
  kindWord_mem := by decide
  names_ne_nil := by decide
  declarable := by
    have hbus : IsDeclarable "in_array".toList := .plain (by decide) ⟨'i', rfl, by decide⟩ (by decide)
    refine List.forall_mem_cons.mpr ⟨hbus, List.forall_mem_cons.mpr ⟨?_, ?_⟩⟩
    · exact .plain (by decide) ⟨'w', rfl, by decide⟩ (by decide)
    · refine List.forall_mem_cons.mpr ⟨?_, List.forall_mem_singleton.mpr hbus⟩
      exact .escaped (by decide) (by decide) (by decide) (by decide)

/-- The first line of it. -/
def inputLine : Line := bareLine "  input wire// the data;"

def inputRest : List Line :=
  linesOf ["", "\t[ 03 :0]in_array , // twice, see below;", "  wire_1,\\n/1 ,in_array", " // ;",
    " ; // end"]

/-- A declaration of the output port with as many bits as it is configured with. -/
def outputStatement : DeclarationStatement where
  kind := .port .output
  kindWord := none
  range := some ⟨"0".toList, "1".toList, by decide, by decide, by decide, by decide, by decide⟩
  names := ["out_array".toList]
  kindWord_mem := by simp
  names_ne_nil := by decide
  declarable := List.forall_mem_singleton.mpr (.plain (by decide) ⟨'o', rfl, by decide⟩ (by decide))

/-- The first line of it. -/
def outputLine : Line := bareLine "output[0:1]"

def outputRest : List Line := linesOf ["out_array;"]

theorem laidOut_inputStatement :
    LaidOut inputStatement.tokens ((inputLine :: inputRest).map Line.text) := by
  have hplain {ws : List Token} {t : Text} (h : Dialect.spells ws t = true) : SpellsLine ws t :=
    .plain (Dialect.spells_sound h)
  have hremark {ws : List Token} {t : Text} (h : Dialect.spells ws t = true)
      (hlast : t.getLast? ≠ some '/') (remark : Text) : SpellsLine ws (t ++ '/' :: '/' :: remark) :=
    .comment (Dialect.spells_sound h) hlast remark
  have hlines : List.Forall₂ SpellsLine
      [[.keyword "input".toList, .keyword "wire".toList], [],
        [.mark '[', .word "03".toList, .mark ':', .word "0".toList, .mark ']',
          .word "in_array".toList, .mark ','],
        [.word "wire_1".toList, .mark ',', .escaped "\\n/1".toList, .mark ',',
          .word "in_array".toList], [], [.mark ';']] ((inputLine :: inputRest).map Line.text) :=
    .cons (hremark (t := "  input wire".toList) (by decide +kernel) (by decide)
        " the data;".toList) <|
      .cons (hplain (by decide)) <|
      .cons (hremark (t := "\t[ 03 :0]in_array , ".toList) (by decide +kernel) (by decide)
        " twice, see below;".toList) <|
      .cons (hplain (by decide +kernel)) <|
      .cons (hremark (t := " ".toList) (by decide) (by decide) " ;".toList) <|
      .cons (hremark (t := " ; ".toList) (by decide) (by decide) " end".toList) .nil
  exact ⟨_, by decide +kernel, by simp, by simp, hlines⟩

theorem laidOut_outputStatement :
    LaidOut outputStatement.tokens ((outputLine :: outputRest).map Line.text) := by
  have hlines : List.Forall₂ SpellsLine
      [[.keyword "output".toList, .mark '[', .word "0".toList, .mark ':', .word "1".toList, .mark ']'],
        [.word "out_array".toList, .mark ';']] ((outputLine :: outputRest).map Line.text) :=
    .cons (.plain (Dialect.spells_sound (by decide +kernel))) <|
      .cons (.plain (Dialect.spells_sound (by decide +kernel))) .nil
  exact ⟨_, by decide +kernel, by simp, by simp, hlines⟩

/-- The input port is declared with four bits, twice, and the output port with the two bits that it is
configured with. -/
theorem outcome_of_laidOut_inputStatement :
    sampleBody.phase = .body ∧ sampleConfig.width = 2 ∧
    LaidOut inputStatement.tokens ((inputLine :: inputRest).map Line.text) ∧
    inputStatement.Outcome sampleConfig (inputLine.through inputRest) sampleBody
      ((inputLine :: inputRest).foldl (Scan.step sampleConfig) sampleBody) ∧
    ((inputLine :: inputRest).foldl (Scan.step sampleConfig) sampleBody).findings.map
      (fun d => (d.code, d.message)) =
        [(⟨.warning, 201⟩, "port bus `in_array` is declared 4-bit"),
          (⟨.warning, 201⟩, "port bus `in_array` is declared 4-bit"),
          (⟨.info, 302⟩, "line is not part of the supported netlist dialect and was skipped")] ∧
    LaidOut outputStatement.tokens ((outputLine :: outputRest).map Line.text) ∧
    outputStatement.Outcome sampleConfig (outputLine.through outputRest) sampleBody
      ((outputLine :: outputRest).foldl (Scan.step sampleConfig) sampleBody) ∧
    ((outputLine :: outputRest).foldl (Scan.step sampleConfig) sampleBody).findings = [] := by
  have hbody : sampleBody.phase = .body := by decide +kernel
  obtain ⟨-, hin, -⟩ :=
    DeclarationStatement.outcome_of_laidOut sampleConfig hbody laidOut_inputStatement
  obtain ⟨-, hout, -⟩ :=
    DeclarationStatement.outcome_of_laidOut sampleConfig hbody laidOut_outputStatement
  exact ⟨hbody, rfl, laidOut_inputStatement, hin, by decide +kernel, laidOut_outputStatement, hout,
    by decide +kernel⟩

end NetFlat
