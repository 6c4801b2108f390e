import NetFlat.Proofs.Gate.Pins
import NetFlat.Proofs.Naming.Acceptance

/-!
# The wiring of a gate

A gate has one connection for each pin of its cell, so its signals are what its connections refer
to, but for literals.  Nothing but a reference or a clash of names can keep it from being placed.

* `Gate.Wired`, `wired_of_ofConnections`: one connection for each pin;
* `Wired.forall_isLegal_iff`: the signals have legal names if the references are legal;
* `ofNames_of_place_eq_error`: the failures of a gate with its pins connected.
-/

namespace NetFlat

/-! ### Connections -/

namespace Gate

variable {cell : Cell} {name : Text} {cs : List Connection} {line : Line} {gate : Gate}

/-- The connections of a gate name each pin of its cell, once. -/
structure Wired (g : Gate) : Prop where
  pins : ∀ c ∈ g.connections, c.pin ∈ g.cell.pins
  nodup : (g.connections.map (·.pin)).Nodup
  connected : ∀ pin ∈ g.cell.pins, ∃ c ∈ g.connections, c.pin = pin

theorem wired_of_ofConnections (h : ofConnections cell name cs line = .ok gate) : gate.Wired := by
  obtain ⟨⟨hcs, hall⟩, rfl⟩ := ofConnections_eq_ok_iff.mp h
  exact ⟨hcs.pins, hcs.nodup, fun pin hp => List.mem_map.mp (hall pin hp)⟩

theorem Wired.connection?_eq_some_iff (h : gate.Wired) {pin : Text} {c : Connection} :
    gate.connection? pin = some c ↔ c ∈ gate.connections ∧ c.pin = pin := by
  constructor
  · intro hc
    exact ⟨List.mem_of_find?_eq_some hc, by simpa using List.find?_some hc⟩
  · rintro ⟨hc, rfl⟩
    obtain ⟨d, hd⟩ : ∃ d, gate.connection? c.pin = some d :=
      Option.isSome_iff_exists.mp (List.find?_isSome.mpr ⟨c, hc, by simp⟩)
    have hpin : d.pin = c.pin := by simpa using List.find?_some hd
    rw [hd, List.inj_on_of_nodup_map h.nodup (List.mem_of_find?_eq_some hd) hc hpin]

variable {config : Config} {p : Placed}

/-- A signal of a gate is what one of its connections refers to. -/
theorem exists_of_mem_signals (hr : gate.resolve? config = some p)
    {a : Signal} (ha : a ∈ p.signals) :
    ∃ c ∈ gate.connections, config.resolve c.reference = .ok a := by
  obtain ⟨hes, hout, -⟩ := resolve?_eq_some_iff.mp hr
  rcases List.mem_append.mp ha with ha | ha
  · obtain ⟨e, he, ha⟩ := List.mem_flatMap.mp ha
    obtain ⟨pin, -, hp⟩ := exists_of_mem_mapM hes he
    obtain ⟨c, hc, hop⟩ := Option.bind_eq_some_iff.mp hp
    refine ⟨c, List.mem_of_find?_eq_some hc, ?_⟩
    rcases Config.operand_eq_ok (toOption_eq_some_iff.mp hop) with ⟨b, rfl, hb⟩ | ⟨b, rfl⟩
    · obtain rfl : a = b := by simpa [Expr.reads] using ha
      exact hb
    · simp [Expr.reads] at ha
  · obtain rfl : a = p.output := by simpa using ha
    obtain ⟨c, hc, hres⟩ := Option.bind_eq_some_iff.mp hout
    exact ⟨c, List.mem_of_find?_eq_some hc, toOption_eq_some_iff.mp hres⟩

/-- A connection of a gate is to a literal, or it refers to a signal of the gate. -/
theorem Wired.literal_or_signal (h : gate.Wired) (hr : gate.resolve? config = some p)
    {c : Connection} (hc : c ∈ gate.connections) :
    (∃ b, Literal.read? c.reference = some (.bit b)) ∨
      ∃ a ∈ p.signals, config.resolve c.reference = .ok a := by
  obtain ⟨hes, hout, -⟩ := resolve?_eq_some_iff.mp hr
  have hconn := h.connection?_eq_some_iff.mpr ⟨hc, rfl⟩
  rcases List.mem_append.mp (h.pins c hc) with hin | hin
  · obtain ⟨e, he, hop⟩ := exists_mem_of_mapM hes hin
    rw [operand?, hconn] at hop
    have hop : config.operand c.reference = .ok e := toOption_eq_some_iff.mp hop
    rcases Config.exists_operand_eq_ok_iff.mp ⟨e, hop⟩ with hb | ⟨a, ha⟩
    · exact .inl hb
    · obtain rfl := Except.ok.inj (hop.symm.trans (Config.operand_of_resolve ha))
      exact .inr ⟨a, List.mem_append_left _ (List.mem_flatMap.mpr ⟨_, he, by simp [Expr.reads]⟩), ha⟩
  · have hpin : c.pin = gate.cell.output := by simpa using hin
    rw [output?, ← hpin, hconn] at hout
    exact .inr ⟨p.output, by simp [Placed.signals], toOption_eq_some_iff.mp hout⟩

/-- **Legal signals.** The signals of a gate have legal names exactly if its connections are to
literals and nets. -/
theorem Wired.forall_isLegal_iff (h : gate.Wired) (hr : gate.resolve? config = some p) :
    (∀ a ∈ p.signals, a.IsLegal) ↔ ∀ c ∈ gate.connections,
      (∃ b, Literal.read? c.reference = some (.bit b)) ∨ config.NamesNet c.reference := by
  constructor
  · intro hl c hc
    rcases h.literal_or_signal hr hc with hb | ⟨a, ha, hres⟩
    · exact .inl hb
    · exact .inr ((Config.isLegal_resolve_iff hres).mp (hl a ha))
  · intro hl a ha
    obtain ⟨c, hc, hres⟩ := exists_of_mem_signals hr ha
    rcases hl c hc with ⟨b, hb⟩ | hn
    · simp [Config.read?_eq_none_of_resolve hres] at hb
    · exact (Config.isLegal_resolve_iff hres).mpr hn

end Gate

/-! ### Failures -/

/-- The failure is an unresolved reference or a clash of names. -/
def Failure.OfNames (f : Failure) : Prop :=
  (∃ reference reason, f.cause = .unresolvedReference reference reason) ∨
    ∃ name existing, f.cause = .nameCollision name existing

theorem Clash.ofNames_toFailure (clash : Clash) (line : Line) : (clash.toFailure line).OfNames :=
  .inr ⟨_, _, rfl⟩

namespace Connection

variable {config : Config} {c : Connection} {s : Scope} {f : Failure}

theorem ofNames_of_enter_eq_error {a : Signal} (h : c.enter a s = .error f) : f.OfNames := by
  obtain ⟨clash, rfl⟩ := enter_eq_error h
  exact clash.ofNames_toFailure _

theorem ofNames_of_operand_eq_error (h : c.operand config s = .error f) : f.OfNames := by
  unfold operand at h
  split at h
  · obtain rfl := Except.error.inj h
    exact .inl ⟨_, _, rfl⟩
  · exact ofNames_of_enter_eq_error (map_eq_error_iff.mp h)
  · simp at h

theorem ofNames_of_driven_eq_error (h : c.driven config s = .error f) : f.OfNames := by
  unfold driven at h
  split at h
  · obtain rfl := Except.error.inj h
    exact .inl ⟨_, _, rfl⟩
  · exact ofNames_of_enter_eq_error (map_eq_error_iff.mp h)

end Connection

namespace Gate.Wired

variable {config : Config} {gate : Gate} {s : Scope} {f : Failure}

theorem connection_ne_error (h : gate.Wired) {pin : Text} (hp : pin ∈ gate.cell.pins) :
    gate.connection pin ≠ .error f := by
  obtain ⟨c, hc, hpin⟩ := h.connected pin hp
  rw [connection_eq_ok_iff.mpr (h.connection?_eq_some_iff.mpr ⟨hc, hpin⟩)]
  simp

theorem ofNames_of_operands_eq_error (h : gate.Wired) {pins : List Text}
    (hp : ∀ pin ∈ pins, pin ∈ gate.cell.pins) (he : gate.operands config pins s = .error f) :
    f.OfNames := by
  induction pins generalizing s with
  | nil => simp [operands] at he
  | cons pin pins ih =>
    simp only [operands, bind_eq_error_iff] at he
    rcases he with he | ⟨c, -, he | ⟨⟨e, s₁⟩, -, he | ⟨r, -, he⟩⟩⟩
    · exact absurd he (h.connection_ne_error (hp pin (by simp)))
    · exact Connection.ofNames_of_operand_eq_error he
    · exact ih (fun q hq => hp q (by simp [hq])) he
    · simp [pure, Except.pure] at he

/-- **Failing to place** a gate with its pins connected. -/
theorem ofNames_of_place_eq_error (h : gate.Wired) (he : gate.place config s = .error f) :
    f.OfNames := by
  rw [place_eq] at he
  simp only [bind_eq_error_iff] at he
  rcases he with he | ⟨⟨es, s₁⟩, -, he | ⟨c, -, he | ⟨⟨a, s₂⟩, -, he⟩⟩⟩
  · exact h.ofNames_of_operands_eq_error (fun pin hp => List.mem_append_left _ hp) he
  · exact absurd he (h.connection_ne_error (by simp [Cell.pins]))
  · exact Connection.ofNames_of_driven_eq_error he
  · obtain ⟨clash, line, rfl⟩ := Placed.clash_of_enterAuxiliary_eq_error he
    exact clash.ofNames_toFailure line

end Gate.Wired

end NetFlat
