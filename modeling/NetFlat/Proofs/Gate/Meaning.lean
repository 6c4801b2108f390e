import NetFlat.Proofs.Gate.Resolution

/-!
# The meaning of a placed gate

A gate constrains the values of its operands and its output; so do the assignments in its place,
and for a negated cell they also fix the value of the auxiliary wire.

* `holds_iff`: the gate says that its output has the value of its core, negated or not;
* `forall_assignments_holds_iff`: the assignments say so too, and that the auxiliary wire, if there
  is one, has the value of the core.
-/

namespace NetFlat

/-- The signals of an assignment: the one that it drives, and those that it reads. -/
def Assignment.signals (a : Assignment) : List Signal := a.target :: a.expr.reads

namespace Placed

variable {g : Placed} {e : Expr} {v : Signal → Bool}

/-- The value that the gate asks of its output, from the value of its core. -/
def finish (g : Placed) (b : Bool) : Bool := if g.kind.isNegated then !b else b

theorem core?_isSome_iff : g.core?.isSome ↔ g.operands.length = g.kind.arity := by
  rw [← expand?_isSome_iff, expand?, Option.isSome_map]

theorem reads_core (hc : g.core? = some e) : e.reads = g.operands.flatMap Expr.reads := by
  obtain ⟨kind, operands, output⟩ := g
  unfold core? at hc
  split at hc
  · next x _ ho =>
    obtain rfl := Option.some.inj hc
    simp only at ho
    subst ho
    simp [Expr.reads]
  · next op x y _ ho =>
    obtain rfl := Option.some.inj hc
    simp only at ho
    subst ho
    simp [Expr.reads]
  · simp at hc

/-- The truth function of a cell with two inputs is its operator, negated or not. -/
theorem reference?_of_operator? {kind : CellKind} {op : BinaryOp} (h : kind.operator? = some op)
    (a b : Bool) : kind.reference? [a, b] =
      some (if kind.isNegated then !op.apply a b else op.apply a b) := by
  cases kind <;> cases h <;> cases a <;> cases b <;> rfl

/-- The truth function of a gate is its core, negated or not. -/
theorem reference?_operands (hc : g.core? = some e) :
    g.kind.reference? (g.operands.map (Expr.eval v)) = some (g.finish (e.eval v)) := by
  obtain ⟨kind, operands, output⟩ := g
  unfold core? at hc
  split at hc
  · next x hk ho =>
    obtain rfl := Option.some.inj hc
    simp only at hk ho
    subst ho
    obtain rfl : kind = .inv := by cases kind <;> simp [CellKind.operator?] at hk ⊢
    rfl
  · next op x y hk ho =>
    obtain rfl := Option.some.inj hc
    simp only at hk ho
    subst ho
    rw [List.map_cons, List.map_cons, List.map_nil, reference?_of_operator? hk]
    rfl
  · simp at hc

/-- **The meaning of a gate.** -/
theorem holds_iff (hc : g.core? = some e) : g.Holds v ↔ v g.output = g.finish (e.eval v) := by
  rw [Holds, reference?_operands hc, Option.some.injEq, eq_comm]

theorem assignments_of_none (hc : g.core? = some e) (hx : g.auxiliary? = none) :
    g.assignments = [⟨g.output, e⟩] := by
  simp [assignments, expand?, hc, hx]

theorem assignments_of_some {aux : Signal} (hc : g.core? = some e) (hx : g.auxiliary? = some aux) :
    g.assignments = [⟨aux, e⟩, ⟨g.output, .not (.signal aux)⟩] := by
  simp [assignments, expand?, hc, hx]

theorem auxiliary?_eq_some_iff {aux : Signal} :
    g.auxiliary? = some aux ↔ g.kind.isNegated = true ∧ aux = g.output.auxiliary := by
  unfold auxiliary?
  split
  · next h => simp [h, eq_comm]
  · next h => simp [h]

/-- **The meaning of the assignments in place of a gate.** -/
theorem forall_assignments_holds_iff (hc : g.core? = some e) :
    (∀ a ∈ g.assignments, a.Holds v) ↔
      g.Holds v ∧ ∀ aux, g.auxiliary? = some aux → v aux = e.eval v := by
  rw [holds_iff hc]
  cases hx : g.auxiliary? with
  | none =>
    have hn : g.kind.isNegated = false := by
      simpa [auxiliary?] using hx
    rw [assignments_of_none hc hx]
    simp [Assignment.Holds, finish, hn]
  | some aux =>
    obtain ⟨hn, -⟩ := auxiliary?_eq_some_iff.mp hx
    rw [assignments_of_some hc hx]
    simp only [List.mem_cons, List.not_mem_nil, or_false, forall_eq_or_imp, forall_eq,
      Assignment.Holds, Expr.eval, finish, hn, if_true, Option.some.injEq]
    constructor
    · rintro ⟨h, h'⟩
      exact ⟨by rw [h', h], fun b hb => hb ▸ h⟩
    · rintro ⟨h', h⟩
      exact ⟨h aux rfl, by rw [h', h aux rfl]⟩

/-- The assignments in place of a gate are about its signals and its auxiliary wire. -/
theorem mem_signals_assignments (hc : g.core? = some e) {a : Signal} :
    a ∈ g.assignments.flatMap Assignment.signals ↔ a ∈ g.signals ∨ g.auxiliary? = some a := by
  have hs : a ∈ g.signals ↔ a ∈ e.reads ∨ a = g.output := by
    rw [signals, List.mem_append, List.mem_singleton, reads_core hc]
  rw [hs]
  cases hx : g.auxiliary? with
  | none =>
    rw [assignments_of_none hc hx]
    simp [Assignment.signals, or_comm]
  | some aux =>
    rw [assignments_of_some hc hx]
    simp only [List.flatMap_cons, List.flatMap_nil, List.append_nil, Assignment.signals, Expr.reads,
      List.mem_append, List.mem_cons, List.not_mem_nil, or_false, Option.some.injEq]
    constructor
    · rintro ((rfl | h) | rfl | rfl)
      · exact .inr rfl
      · exact .inl (.inl h)
      · exact .inl (.inr rfl)
      · exact .inr rfl
    · rintro ((h | rfl) | rfl)
      · exact .inl (.inr h)
      · exact .inr (.inl rfl)
      · exact .inl (.inl rfl)

/-- A gate whose references were resolved has as many operands as its cell takes. -/
theorem exists_core {config : Config} {gate : Gate} {keyword : Text}
    (hk : Cell.find? keyword = some gate.cell) (h : gate.resolve? config = some g) :
    ∃ e, g.core? = some e := by
  obtain ⟨hes, -, hkind⟩ := Gate.resolve?_eq_some_iff.mp h
  refine Option.isSome_iff_exists.mp (core?_isSome_iff.mpr ?_)
  rw [hkind, ← Cell.length_inputs_of_find? hk]
  exact length_of_mapM_eq_some hes

end Placed

end NetFlat
