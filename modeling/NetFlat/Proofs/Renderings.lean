import NetFlat.Proofs.Gate.Statement

/-!
# The layout of gate statements

A scan that has come to the body of a module goes on alike from all renderings of one gate statement,
unless a reference would close the module where it stands at the start of a line.

* `Scan.Alike`: two scans with the same outcome;
* `GateStatement.Outcome`, `GateStatement.outcome_of_rendering`: what a rendering leads to;
* `GateStatement.alike_of_renderings`: any two lead to the same;
* `not_alike_of_closing_reference`: a reference that closes the module at the start of a line.
-/

namespace NetFlat

/-- Two scans with the same outcome: both are in the body, with the same gates, names in use, counts
and findings, or both have failed for the same cause. -/
inductive Scan.Alike (s t : Scan) : Prop
  | body (hs : s.phase = .body) (h : s.quiet = t.quiet)
  | failed {f f' : Failure} (hs : s.phase = .failed f) (ht : t.phase = .failed f')
      (h : f.cause = f'.cause)

namespace GateStatement

variable {config : Config} {s : Scan} {g : GateStatement} {ls ls' : List Line}

/-- The gate of the statement, at no place, in a scope. -/
def place (config : Config) (g : GateStatement) (cell : Cell) (scope : Scope) :
    Except Failure (Placed × Scope) := do
  let gate ← Gate.ofConnections cell g.name (g.connections.map PinConnection.connection) .none
  gate.place config scope

/-- What the statement leads to from a scan in a body: its gate is placed and counted, or the scan
fails for the cause that the gate cannot be placed, and is as it was otherwise. -/
inductive Outcome (config : Config) (g : GateStatement) (s t : Scan) : Prop
  | placed {cell : Cell} {p : Placed} {scope : Scope} (hc : Cell.find? g.keyword = some cell)
      (hp : g.place config cell s.scope = .ok (p, scope))
      (h : t.quiet = Scan.quiet
        { s with
          phase := .body, scope, placed := s.placed ++ [p]
          stats := { s.stats with translated := Tally.bump g.keyword s.stats.translated } })
  | failed {cell : Cell} {f f' : Failure} (hc : Cell.find? g.keyword = some cell)
      (hp : g.place config cell s.scope = .error f) (h : t.quiet = (s.fail f').quiet)
      (hcause : f'.cause = f.cause)

/-- The instance that is read from a rendering is placed as the statement is, but for the lines of
failures. -/
theorem exists_read_lines (config : Config) (hg : g.Unclosing) (h : g.Rendering (ls.map Line.text)) :
    ∃ o : OpenGate, Phase.body.read config (ls.map Line.coded) = (.body, [.gate o]) ∧
      o.keyword = g.keyword ∧ ∀ cell scope,
        (Scan.placeGate config cell o scope).mapError (Failure.relocate .erase) =
          g.place config cell scope := by
  obtain ⟨cs, hread, hconnections⟩ := exists_read config hg h
  have herased := read_codes_map_text config .body ls
  rw [show Phase.body.relocate .erase = .body from rfl, hread] at herased
  obtain ⟨hphase, hitems⟩ := Prod.mk.inj herased
  obtain ⟨i, hi, hgate⟩ := List.map_eq_singleton_iff.mp hitems.symm
  cases i with
  | declaration d => simp [Item.relocate] at hgate
  | other line => simp [Item.relocate] at hgate
  | gate o =>
    have ho : o.relocate .erase = ⟨g.keyword, g.name, .none, cs.map (·, .none)⟩ :=
      Item.gate.inj hgate
    have hlocation : (o.relocate .erase).location = .none := o.location_relocate .erase
    refine ⟨o, Prod.ext (relocate_eq_body_iff.mp hphase.symm) hi, congrArg OpenGate.keyword ho,
      fun cell scope => ?_⟩
    rw [← Scan.placeGate_relocate, Scan.placeGate, hlocation, ho]
    dsimp only
    rw [hconnections]
    rfl

theorem exists_quiet_foldl_step (config : Config) (hs : s.phase = .body) (hg : g.Unclosing)
    (h : g.Rendering (ls.map Line.text)) : ∃ o : OpenGate, o.keyword = g.keyword ∧
      (∀ cell scope, (Scan.placeGate config cell o scope).mapError (Failure.relocate .erase) =
        g.place config cell scope) ∧
      (ls.foldl (Scan.step config) s).quiet = ((s.finishGate config o).settle .body).quiet := by
  obtain ⟨o, hread, hkey, hplace⟩ := exists_read_lines config hg h
  have hr : s.Running := fun f => by simp [hs]
  refine ⟨o, hkey, hplace, ?_⟩
  rw [Scan.foldl_step hr, hs, hread]
  simp only [List.foldl_cons, List.foldl_nil, Scan.perform_of_running hr]

/-- **What a rendering leads to** is what the statement leads to. -/
theorem outcome_of_rendering (config : Config) (hs : s.phase = .body) (hg : g.Unclosing)
    (h : g.Rendering (ls.map Line.text)) : g.Outcome config s (ls.foldl (Scan.step config) s) := by
  obtain ⟨o, hkey, hplace, hq⟩ := exists_quiet_foldl_step config hs hg h
  obtain ⟨cell, hc⟩ := Option.isSome_iff_exists.mp g.isSome_find?
  have hfind : Cell.find? o.keyword = some cell := by rw [hkey, hc]
  cases hp : g.place config cell s.scope with
  | ok x =>
    have hok := mapError_eq_ok_iff.mp ((hplace cell s.scope).trans hp)
    refine .placed hc hp ?_
    rw [hq, Scan.finishGate_of_ok hfind hok, hkey, Scan.settle_of_running fun f => by simp]
    rfl
  | error f =>
    obtain ⟨f', herror, hf'⟩ := mapError_eq_error_iff.mp ((hplace cell s.scope).trans hp)
    refine .failed hc hp ?_ (show f'.cause = f.cause by rw [← hf']; rfl)
    rw [hq, Scan.finishGate_of_error hfind herror, Scan.settle_of_failed (f := f') rfl]

theorem Outcome.alike {t u : Scan} (ht : g.Outcome config s t) (hu : g.Outcome config s u) :
    t.Alike u := by
  cases ht with
  | placed hc hp h =>
    cases hu with
    | placed hc' hp' h' =>
      obtain rfl := Option.some.inj (hc.symm.trans hc')
      obtain ⟨rfl, rfl⟩ := Prod.mk.inj (Except.ok.inj (hp.symm.trans hp'))
      exact .body (congrArg Scan.phase h) (h.trans h'.symm)
    | failed hc' hp' =>
      obtain rfl := Option.some.inj (hc.symm.trans hc')
      cases hp.symm.trans hp'
  | failed hc hp h hcause =>
    cases hu with
    | placed hc' hp' =>
      obtain rfl := Option.some.inj (hc.symm.trans hc')
      cases hp.symm.trans hp'
    | failed hc' hp' h' hcause' =>
      obtain rfl := Option.some.inj (hc.symm.trans hc')
      obtain rfl := Except.error.inj (hp.symm.trans hp')
      exact .failed (congrArg Scan.phase h) (congrArg Scan.phase h') (hcause.trans hcause'.symm)

/-- **Layout does not matter.**  From a scan in the body of a module, any two renderings of a gate
statement lead to the same outcome, which the statement alone determines, if no reference of it
closes the module at the start of a line. -/
theorem alike_of_renderings (hs : s.phase = .body) (hg : g.Unclosing)
    (h : g.Rendering (ls.map Line.text)) (h' : g.Rendering (ls'.map Line.text)) :
    (ls.foldl (Scan.step config) s).Alike (ls'.foldl (Scan.step config) s) ∧
      g.Outcome config s (ls.foldl (Scan.step config) s) := by
  have ho := outcome_of_rendering config hs hg h
  have ho' := outcome_of_rendering config hs hg h'
  exact ⟨ho.alike ho', ho⟩

end GateStatement

/-! ### Samples -/

/-- Lines with the given texts, at no place. -/
def linesOf (texts : List String) : List Line := texts.map fun t => { Line.none with text := t.toList }

/-- An inverter from the reference to the first bit of the output port. -/
def inverterOf (r : Text) (h : IsReference r) : GateStatement where
  keyword := "IV".toList
  name := "g0".toList
  connections :=
    [⟨"A".toList, r, by decide, List.all_eq_true.mp (by decide), h⟩,
      ⟨"Z".toList, "out_array[0]".toList, by decide, List.all_eq_true.mp (by decide),
        .bit "out_array".toList "0".toList (by decide) (by decide)⟩]
  isSome_find? := by decide
  isIdentifier_name := by decide

/-- An inverter between the first bits of the port buses. -/
def inverterStatement : GateStatement :=
  inverterOf "in_array[0]".toList (.bit "in_array".toList "0".toList (by decide) (by decide))

def sampleBody : Scan := Scan.run sampleConfig (linesOf ["module top(in_array, out_array);"])

/-- The inverter on one line. -/
def inverterLine : List Line := linesOf ["IV g0 (.A(in_array[0]), .Z(out_array[0]));"]

/-- The inverter on many lines. -/
def inverterLines : List Line :=
  linesOf ["  IV\tg0 // inverts", "", "  (.A", "    ( in_array[0]", "    ), // of (the input);",
    "\t.Z(out_array[0])", "  ) ; "]

theorem lineOf_of_spreads {ws : List Text} {t : Text}
    (h : Text.spreads Dialect.isSpace ws t = true) : Dialect.LineOf ws t :=
  .plain (Text.spread_of_spreads h)

theorem alike_of_renderings_inverterStatement :
    sampleBody.phase = .body ∧ inverterStatement.Rendering (inverterLine.map Line.text) ∧
      inverterStatement.Rendering (inverterLines.map Line.text) ∧
        ((inverterLines.foldl (Scan.step sampleConfig) sampleBody).Alike
          (inverterLine.foldl (Scan.step sampleConfig) sampleBody) ∧
            inverterStatement.Outcome sampleConfig sampleBody
              (inverterLines.foldl (Scan.step sampleConfig) sampleBody)) ∧
          (inverterLines.foldl (Scan.step sampleConfig) sampleBody).assignments =
            [⟨⟨"out_array_0".toList⟩, .not (.signal ⟨"in_array_0".toList⟩)⟩] := by
  have hbody : sampleBody.phase = .body := by decide +kernel
  have hone : inverterStatement.Rendering (inverterLine.map Line.text) :=
    ⟨[' '], [], by decide, by decide, by decide,
      .last (by decide) (lineOf_of_spreads (by decide +kernel))⟩
  have hremark {ws : List Text} {t : Text} (h : Text.spreads Dialect.isSpace ws t = true)
      (remark : Text) : Dialect.LineOf ws (t ++ '/' :: '/' :: remark) :=
    .comment (Text.spread_of_spreads h) remark
  have hrows : List.Forall₂ Dialect.LineOf [["IV\tg0".toList], [], [['('], ".A".toList],
      [['('], "in_array[0]".toList], [[')'], [',']],
      [".Z".toList, ['('], "out_array[0]".toList, [')']], [") ;".toList]]
      (inverterLines.map Line.text) :=
    .cons (hremark (t := "  IV\tg0 ".toList) (by decide +kernel) " inverts".toList) <|
      .cons (lineOf_of_spreads (by decide +kernel)) <|
      .cons (lineOf_of_spreads (by decide +kernel)) <|
      .cons (lineOf_of_spreads (by decide +kernel)) <|
      .cons (hremark (t := "    ), ".toList) (by decide +kernel) " of (the input);".toList) <|
      .cons (lineOf_of_spreads (by decide +kernel)) <|
      .cons (lineOf_of_spreads (by decide +kernel)) .nil
  have hmany : inverterStatement.Rendering (inverterLines.map Line.text) :=
    ⟨['\t'], [' '], by decide, by decide, by decide,
      Dialect.laysOut_flatten hrows ⟨_, rfl, by simp⟩⟩
  exact ⟨hbody, hone, hmany, GateStatement.alike_of_renderings hbody (by decide) hmany hone,
    by decide +kernel⟩

/-- A configuration whose input bus has the name of the word that closes a module. -/
def closingConfig : Config where
  toSettings := ⟨"top".toList, "endmodule".toList, "out_array".toList, 2⟩
  valid := Settings.fault?_eq_none_iff.mp (by decide)

/-- An inverter of the first bit of that bus. -/
def closingStatement : GateStatement :=
  inverterOf "endmodule[0]".toList (.bit "endmodule".toList "0".toList (by decide) (by decide))

def closingBody : Scan := Scan.run closingConfig (linesOf ["module top(endmodule, out_array);"])

/-- The inverter on one line. -/
def closingLine : List Line := linesOf ["  IV g0 (.A(endmodule[0]), .Z(out_array[0]));"]

/-- The inverter with its input at the start of a line, which is taken for the end of the module. -/
def closingLines : List Line := linesOf ["  IV g0 (.A(", "endmodule[0]), .Z(out_array[0]));"]

/-- A bit of a bus with the name of the closing word cannot start a line. -/
theorem not_alike_of_closing_reference :
    closingBody.phase = .body ∧
      (∀ c ∈ closingStatement.connections, c.reference ≠ "endmodule".toList) ∧
      closingStatement.Rendering (closingLine.map Line.text) ∧
      closingStatement.Rendering (closingLines.map Line.text) ∧
      ¬(closingLine.foldl (Scan.step closingConfig) closingBody).Alike
        (closingLines.foldl (Scan.step closingConfig) closingBody) := by
  have hrows : List.Forall₂ Dialect.LineOf [["IV g0".toList, ['('], ".A".toList, ['(']],
      ["endmodule[0]".toList, [')'], [','], ".Z".toList, ['('], "out_array[0]".toList, [')'],
        ");".toList]] (closingLines.map Line.text) :=
    .cons (lineOf_of_spreads (by decide +kernel)) <|
      .cons (lineOf_of_spreads (by decide +kernel)) .nil
  refine ⟨by decide +kernel, by decide, ⟨[' '], [], by decide, by decide, by decide,
    .last (by decide) (lineOf_of_spreads (by decide +kernel))⟩,
    ⟨[' '], [], by decide, by decide, by decide,
      Dialect.laysOut_flatten hrows ⟨_, rfl, by simp⟩⟩, ?_⟩
  have hone : (closingLine.foldl (Scan.step closingConfig) closingBody).phase = .body := by
    decide +kernel
  have hmany : (closingLines.foldl (Scan.step closingConfig) closingBody).phase ≠ .body := by
    decide +kernel
  rintro (⟨hphase, h⟩ | ⟨hphase, -, -⟩)
  · exact hmany (hone ▸ (Scan.phase_eq_of_quiet_eq h).symm)
  · simp [hone] at hphase

end NetFlat
