import NetFlat.Gate.Placing
import NetFlat.Proofs.Inversion
import NetFlat.Proofs.Scope.Uses

/-!
# Placing a gate in two parts

What a gate becomes does not depend on the names in use: its references resolve by themselves
(`Gate.resolve?`), and the names of the result (`Placed.uses`) are then taken into the scope.

* `place_eq_ok_iff`: a gate is placed exactly if its references resolve and the names are taken in;
* `clash_of_place_eq_error`: a gate whose references resolve can only fail by a clash of names.
-/

namespace NetFlat

open Scope (Use)

/-! ### The names of a placed gate -/

namespace Placed

/-- The signals that the gate reads, then the one that it drives. -/
def signals (g : Placed) : List Signal := g.operands.flatMap Expr.reads ++ [g.output]

/-- The names that the gate uses, in the order in which it takes them. -/
def uses (g : Placed) : List Use :=
  g.signals.map Use.reference ++ g.auxiliary?.toList.map Use.register

theorem declaredBy_uses (g : Placed) : Scope.declaredBy g.uses = [] := by
  unfold uses
  rw [Scope.declaredBy_append]
  simp [Scope.declaredBy, Use.declared?, Function.comp_def]

theorem referencedBy_uses (g : Placed) : Scope.referencedBy g.uses = g.signals := by
  unfold uses
  rw [Scope.referencedBy_append]
  simp [Scope.referencedBy, Use.referenced?, Function.comp_def]

theorem registeredBy_uses (g : Placed) : Scope.registeredBy g.uses = g.auxiliary?.toList := by
  unfold uses
  rw [Scope.registeredBy_append]
  simp [Scope.registeredBy, Use.registered?, Function.comp_def]

/-- Registers the auxiliary wire of a gate placed at a line. -/
def enterAuxiliary (line : Line) (g : Placed) (s : Scope) : Except Failure (Placed × Scope) :=
  match g.auxiliary? with
  | none => .ok (g, s)
  | some aux =>
    match s.register aux with
    | .ok s => .ok (g, s)
    | .error clash => .error (clash.toFailure line)

theorem enterAuxiliary_eq_ok_iff {line : Line} {g p : Placed} {s t : Scope} :
    g.enterAuxiliary line s = .ok (p, t) ↔
      g = p ∧ s.useAll (p.auxiliary?.toList.map .register) = .ok t := by
  unfold enterAuxiliary
  cases hx : g.auxiliary? with
  | none =>
    simp only [Except.ok.injEq, Prod.mk.injEq]
    constructor
    · rintro ⟨rfl, rfl⟩
      exact ⟨rfl, by rw [hx]; rfl⟩
    · rintro ⟨rfl, h⟩
      rw [hx] at h
      exact ⟨rfl, Except.ok.inj h⟩
  | some aux =>
    have hu : s.useAll ((some aux).toList.map .register) = s.register aux := by
      rw [Option.toList_some, List.map_singleton, Scope.useAll_cons]
      show (s.register aux).bind _ = _
      cases s.register aux <;> rfl
    cases hs : s.register aux with
    | ok s' =>
      simp only [hs, Except.ok.injEq, Prod.mk.injEq]
      constructor
      · rintro ⟨rfl, rfl⟩
        exact ⟨rfl, by rw [hx, hu, hs]⟩
      · rintro ⟨rfl, h⟩
        rw [hx, hu, hs] at h
        exact ⟨rfl, Except.ok.inj h⟩
    | error clash =>
      simp only [hs, reduceCtorEq, false_iff, not_and]
      rintro rfl h
      rw [hx, hu, hs] at h
      simp at h

theorem clash_of_enterAuxiliary_eq_error {line : Line} {g : Placed} {s : Scope} {f : Failure}
    (h : g.enterAuxiliary line s = .error f) :
    ∃ (clash : Clash) (line : Line), f = clash.toFailure line := by
  unfold enterAuxiliary at h
  split at h
  · simp at h
  · split at h
    · simp at h
    · exact ⟨_, line, (Except.error.inj h).symm⟩

theorem useAll_uses {g : Placed} {s t : Scope} : s.useAll g.uses = .ok t ↔
    ∃ s₁, s.useAll ((g.operands.flatMap Expr.reads).map .reference) = .ok s₁ ∧
      ∃ s₂, s₁.use (.reference g.output) = .ok s₂ ∧
        s₂.useAll (g.auxiliary?.toList.map .register) = .ok t := by
  rw [uses, signals, List.map_append, List.append_assoc, Scope.useAll_append]
  refine bind_eq_ok_iff.trans (exists_congr fun s₁ => and_congr_right fun _ => ?_)
  rw [List.map_singleton, List.singleton_append, Scope.useAll_cons]
  exact bind_eq_ok_iff

end Placed

/-! ### Resolving references -/

namespace Gate

theorem cell_of_ofConnections {cell : Cell} {name : Text} {cs : List Connection} {line : Line}
    {g : Gate} (h : ofConnections cell name cs line = .ok g) : g.cell = cell := by
  unfold ofConnections at h
  split at h
  · simp at h
  · split at h
    · simp at h
    · rw [← Except.ok.inj h]

def operand? (config : Config) (g : Gate) (pin : Text) : Option Expr :=
  (g.connection? pin).bind fun c => (config.operand c.reference).toOption

def output? (config : Config) (g : Gate) : Option Signal :=
  (g.connection? g.cell.output).bind fun c => (config.resolve c.reference).toOption

/-- The gate with its references resolved, whatever names are in use. -/
def resolve? (config : Config) (g : Gate) : Option Placed := do
  let operands ← g.cell.inputs.mapM (g.operand? config)
  let output ← g.output? config
  return ⟨g.cell.kind, operands, output⟩

end Gate

theorem Config.operand_eq_ok {config : Config} {raw : Text} {e : Expr}
    (h : config.operand raw = .ok e) :
    (∃ a, e = .signal a ∧ config.resolve raw = .ok a) ∨ ∃ b, e = .const b := by
  unfold Config.operand at h
  split at h
  · exact .inr ⟨_, (Except.ok.inj h).symm⟩
  · simp at h
  · cases hr : config.resolve raw with
    | ok a => exact .inl ⟨a, by simpa [hr, Except.map, eq_comm] using h, rfl⟩
    | error fault => simp [hr, Except.map] at h

/-! ### Taking the names in -/

namespace Connection

variable {config : Config} {c : Connection}

theorem enter_eq_ok_iff {a : Signal} {s t : Scope} :
    c.enter a s = .ok t ↔ s.use (.reference a) = .ok t := by
  unfold enter
  rw [show s.use (.reference a) = s.reference a from rfl]
  cases s.reference a <;> simp

theorem enter_eq_error {a : Signal} {s : Scope} {f : Failure} (h : c.enter a s = .error f) :
    ∃ clash : Clash, f = clash.toFailure c.line := by
  unfold enter at h
  split at h
  · simp at h
  · exact ⟨_, (Except.error.inj h).symm⟩

theorem operand_eq_ok_iff {e : Expr} {s t : Scope} :
    c.operand config s = .ok (e, t) ↔
      config.operand c.reference = .ok e ∧ s.useAll (e.reads.map .reference) = .ok t := by
  unfold operand
  cases h : config.operand c.reference with
  | error fault => simp
  | ok e' =>
    rw [Except.ok.injEq]
    rcases Config.operand_eq_ok h with ⟨a, rfl, -⟩ | ⟨b, rfl⟩
    · have hu : s.useAll ((Expr.signal a).reads.map .reference) = s.use (.reference a) := by
        rw [Expr.reads, List.map_singleton, Scope.useAll_cons]
        cases s.use (.reference a) <;> rfl
      simp only [map_eq_ok_iff, Prod.mk.injEq, enter_eq_ok_iff]
      constructor
      · rintro ⟨s', hs, rfl, rfl⟩
        exact ⟨rfl, hu.trans hs⟩
      · rintro ⟨rfl, ht⟩
        exact ⟨t, hu.symm.trans ht, rfl, rfl⟩
    · simp only [Except.ok.injEq, Prod.mk.injEq]
      constructor
      · rintro ⟨rfl, rfl⟩
        exact ⟨rfl, rfl⟩
      · rintro ⟨rfl, ht⟩
        exact ⟨rfl, Except.ok.inj ht⟩

theorem driven_eq_ok_iff {a : Signal} {s t : Scope} :
    c.driven config s = .ok (a, t) ↔
      config.resolve c.reference = .ok a ∧ s.use (.reference a) = .ok t := by
  unfold driven
  cases h : config.resolve c.reference with
  | error fault => simp
  | ok b =>
    simp only [map_eq_ok_iff, Prod.mk.injEq, enter_eq_ok_iff, Except.ok.injEq]
    constructor
    · rintro ⟨s', hs, rfl, rfl⟩
      exact ⟨rfl, hs⟩
    · rintro ⟨rfl, ht⟩
      exact ⟨t, ht, rfl, rfl⟩

theorem clash_of_operand_eq_error {e : Expr} {s : Scope} {f : Failure}
    (he : config.operand c.reference = .ok e) (h : c.operand config s = .error f) :
    ∃ (clash : Clash) (line : Line), f = clash.toFailure line := by
  unfold operand at h
  rw [he] at h
  rcases Config.operand_eq_ok he with ⟨a, rfl, -⟩ | ⟨b, rfl⟩
  · obtain ⟨clash, hf⟩ := enter_eq_error (map_eq_error_iff.mp h)
    exact ⟨clash, c.line, hf⟩
  · simp at h

theorem clash_of_driven_eq_error {a : Signal} {s : Scope} {f : Failure}
    (ha : config.resolve c.reference = .ok a) (h : c.driven config s = .error f) :
    ∃ (clash : Clash) (line : Line), f = clash.toFailure line := by
  unfold driven at h
  rw [ha] at h
  obtain ⟨clash, hf⟩ := enter_eq_error (map_eq_error_iff.mp h)
  exact ⟨clash, c.line, hf⟩

end Connection

namespace Gate

variable {config : Config} {g : Gate}

theorem connection_eq_ok_iff {pin : Text} {c : Connection} :
    g.connection pin = .ok c ↔ g.connection? pin = some c := by
  unfold connection
  cases g.connection? pin <;> simp

theorem operands_eq_ok_iff {pins : List Text} {es : List Expr} {s t : Scope} :
    g.operands config pins s = .ok (es, t) ↔
      pins.mapM (g.operand? config) = some es ∧
        s.useAll ((es.flatMap Expr.reads).map .reference) = .ok t := by
  induction pins generalizing s es with
  | nil =>
    constructor
    · intro h
      obtain ⟨rfl, rfl⟩ : [] = es ∧ s = t := by simpa [operands] using h
      exact ⟨rfl, rfl⟩
    · rintro ⟨h, ht⟩
      obtain rfl : [] = es := by simpa using h
      obtain rfl : s = t := by simpa [Scope.useAll_nil] using ht
      rfl
  | cons pin pins ih =>
    simp only [operands, bind_eq_ok_iff, List.mapM_cons, Option.bind_eq_bind,
      Option.bind_eq_some_iff, operand?, connection_eq_ok_iff, toOption_eq_some_iff]
    constructor
    · rintro ⟨c, hc, ⟨e, s₁⟩, he, ⟨es', t'⟩, hes, hr⟩
      obtain ⟨rfl, rfl⟩ : e :: es' = es ∧ t' = t := by simpa [pure, Except.pure] using hr
      obtain ⟨he, hs⟩ := Connection.operand_eq_ok_iff.mp he
      obtain ⟨hes, ht⟩ := ih.mp hes
      refine ⟨⟨e, ⟨c, hc, he⟩, es', hes, rfl⟩, ?_⟩
      rw [List.flatMap_cons, List.map_append, Scope.useAll_append, hs]
      exact ht
    · rintro ⟨⟨e, ⟨c, hc, he⟩, es', hes, hr⟩, ht⟩
      obtain rfl : e :: es' = es := by simpa [pure] using hr
      rw [List.flatMap_cons, List.map_append, Scope.useAll_append] at ht
      obtain ⟨s₁, hs, ht⟩ := bind_eq_ok_iff.mp ht
      exact ⟨c, hc, (e, s₁), Connection.operand_eq_ok_iff.mpr ⟨he, hs⟩, (es', t),
        ih.mpr ⟨hes, ht⟩, rfl⟩

theorem resolve?_eq_some_iff {p : Placed} :
    g.resolve? config = some p ↔ g.cell.inputs.mapM (g.operand? config) = some p.operands ∧
      g.output? config = some p.output ∧ p.kind = g.cell.kind := by
  obtain ⟨kind, operands, output⟩ := p
  simp only [resolve?, Option.bind_eq_bind, Option.bind_eq_some_iff, Option.pure_def,
    Option.some.injEq, Placed.mk.injEq]
  constructor
  · rintro ⟨es, hes, a, ha, rfl, rfl, rfl⟩
    exact ⟨hes, ha, rfl⟩
  · rintro ⟨hes, ha, rfl⟩
    exact ⟨_, hes, _, ha, rfl, rfl, rfl⟩

theorem place_eq {s : Scope} : g.place config s = (do
    let (operands, s) ← g.operands config g.cell.inputs s
    let c ← g.connection g.cell.output
    let (output, s) ← c.driven config s
    Placed.enterAuxiliary g.line ⟨g.cell.kind, operands, output⟩ s) := rfl

/-- **Placing in two parts.** A gate is placed exactly if its references resolve and the names of
the result are taken into the scope. -/
theorem place_eq_ok_iff {p : Placed} {s t : Scope} :
    g.place config s = .ok (p, t) ↔ g.resolve? config = some p ∧ s.useAll p.uses = .ok t := by
  rw [Placed.useAll_uses, resolve?_eq_some_iff, place_eq]
  simp only [bind_eq_ok_iff, connection_eq_ok_iff]
  constructor
  · rintro ⟨⟨es, s₁⟩, hes, c, hc, ⟨a, s₂⟩, ha, h⟩
    obtain ⟨hes, hs₁⟩ := operands_eq_ok_iff.mp hes
    obtain ⟨ha, hs₂⟩ := Connection.driven_eq_ok_iff.mp ha
    obtain ⟨rfl, ht⟩ := Placed.enterAuxiliary_eq_ok_iff.mp h
    have hout : g.output? config = some a := by
      simp [output?, hc, toOption_eq_some_iff.mpr ha]
    exact ⟨⟨hes, hout, rfl⟩, s₁, hs₁, s₂, hs₂, ht⟩
  · obtain ⟨kind, es, a⟩ := p
    rintro ⟨⟨hes, hout, rfl⟩, s₁, hs₁, s₂, hs₂, ht⟩
    obtain ⟨c, hc, ha⟩ := Option.bind_eq_some_iff.mp hout
    exact ⟨(es, s₁), operands_eq_ok_iff.mpr ⟨hes, hs₁⟩, c, hc, (a, s₂),
      Connection.driven_eq_ok_iff.mpr ⟨toOption_eq_some_iff.mp ha, hs₂⟩,
      Placed.enterAuxiliary_eq_ok_iff.mpr ⟨rfl, ht⟩⟩

/-! ### Failing to place -/

theorem clash_of_operands_eq_error {pins : List Text} {es : List Expr} {s : Scope} {f : Failure}
    (hr : pins.mapM (g.operand? config) = some es) (h : g.operands config pins s = .error f) :
    ∃ (clash : Clash) (line : Line), f = clash.toFailure line := by
  induction pins generalizing s es with
  | nil => simp [operands] at h
  | cons pin pins ih =>
    simp only [List.mapM_cons, Option.bind_eq_bind, Option.bind_eq_some_iff, operand?,
      toOption_eq_some_iff] at hr
    obtain ⟨e, ⟨c, hc, he⟩, es', hes, -⟩ := hr
    simp only [operands, bind_eq_error_iff] at h
    rcases h with h | ⟨c', hc', h | ⟨⟨e', s₁⟩, -, h | ⟨r, -, h⟩⟩⟩
    · rw [connection_eq_ok_iff.mpr hc] at h
      simp at h
    · obtain rfl : c = c' := by simpa [connection_eq_ok_iff.mp hc'] using hc.symm
      exact Connection.clash_of_operand_eq_error he h
    · exact ih hes h
    · simp [pure, Except.pure] at h

/-- A gate whose references resolve can only fail by a clash of names. -/
theorem clash_of_place_eq_error {p : Placed} {s : Scope} {f : Failure}
    (hr : g.resolve? config = some p) (h : g.place config s = .error f) :
    ∃ (clash : Clash) (line : Line), f = clash.toFailure line := by
  obtain ⟨hes, hout, -⟩ := resolve?_eq_some_iff.mp hr
  obtain ⟨c, hc, ha⟩ := Option.bind_eq_some_iff.mp hout
  rw [place_eq] at h
  simp only [bind_eq_error_iff] at h
  rcases h with h | ⟨⟨es, s₁⟩, -, h | ⟨c', hc', h | ⟨⟨a, s₂⟩, -, h⟩⟩⟩
  · exact clash_of_operands_eq_error hes h
  · rw [connection_eq_ok_iff.mpr hc] at h
    simp at h
  · obtain rfl : c = c' := by simpa [connection_eq_ok_iff.mp hc'] using hc.symm
    exact Connection.clash_of_driven_eq_error (toOption_eq_some_iff.mp ha) h
  · exact Placed.clash_of_enterAuxiliary_eq_error h

end Gate

end NetFlat
