import NetFlat.FlatModule.Reading
import NetFlat.Proofs.Expr.Reading
import NetFlat.Proofs.Gate.Meaning

/-!
# Evaluating what is read from a flat module

The assignments that are read from a text are evaluated like the assignments that were written, and
those of a gate give its output the value of the cell.

* `Outline.evaluate?_eq`: texts of assignments, and assignments;
* `Placed.exists_foldlM_assign?`: the assignments of a gate.
-/

namespace NetFlat

namespace Values

/-- The values as a valuation; a signal without value counts as false. -/
def valuation (w : Values) (a : Signal) : Bool := (w.lookup a.name).getD false

def assign? (w : Values) (s : Assignment) : Option Values :=
  (w.value? s.expr).map (w.set s.target.name)

variable {w : Values} {e : Expr}

theorem value?_eq (h : ∀ a ∈ e.reads, ∃ b, w.lookup a.name = some b) :
    w.value? e = some (e.eval w.valuation) := by
  induction e with
  | signal a =>
    obtain ⟨b, hb⟩ := h a (by simp [Expr.reads])
    simp [value?, Expr.eval, valuation, hb]
  | const b => rfl
  | not e ih =>
    rw [value?, ih h]
    rfl
  | binary op a b iha ihb =>
    simp only [Expr.reads, List.mem_append] at h
    rw [value?, iha fun x hx => h x (.inl hx), ihb fun x hx => h x (.inr hx)]
    rfl

end Values

namespace FlatModule.Outline

variable {o : Outline} {ss : List Assignment} {w : Values}

theorem assign?_eq {s : Assignment} (h : ∀ a ∈ s.expr.reads, Expr.WellNamed a) :
    assign? w (s.target.name, s.expr.display) = w.assign? s := by
  rw [assign?, Expr.value?_display w h, Values.assign?]
  cases w.value? s.expr <;> rfl

/-- Assignments that were read are evaluated like those that were written. -/
theorem evaluate?_eq (ho : o.assigns = ss.map fun s => (s.target.name, s.expr.display))
    (h : ∀ s ∈ ss, ∀ a ∈ s.expr.reads, Expr.WellNamed a) :
    o.evaluate? w = ss.foldlM Values.assign? w := by
  rw [evaluate?, ho]
  induction ss generalizing o w with
  | nil => rfl
  | cons s ss ih =>
    rw [List.map_cons, List.foldlM_cons, List.foldlM_cons, assign?_eq (h s (by simp))]
    cases w.assign? s with
    | none => rfl
    | some w' => exact ih (o := { o with assigns := _ }) rfl fun t ht => h t (by simp [ht])

end FlatModule.Outline

namespace Placed

variable {p : Placed} {e : Expr} {w : Values}

/-- **The assignments of a gate** give its output the value of the cell, and change no other name but
that of its auxiliary wire. -/
theorem exists_foldlM_assign? (hc : p.core? = some e)
    (hr : ∀ a ∈ e.reads, ∃ b, w.lookup a.name = some b) :
    ∃ w', p.assignments.foldlM Values.assign? w = some w' ∧
      w'.lookup p.output.name = some (p.finish (e.eval w.valuation)) ∧
      ∀ t, t ≠ p.output.name → (∀ aux, p.auxiliary? = some aux → t ≠ aux.name) →
        w'.lookup t = w.lookup t := by
  have hfirst (a : Signal) : w.assign? ⟨a, e⟩ = some (w.set a.name (e.eval w.valuation)) := by
    rw [Values.assign?, Values.value?_eq hr]
    rfl
  cases hx : p.auxiliary? with
  | none =>
    have hneg : p.kind.isNegated = false := by simpa [auxiliary?] using hx
    have hrun : p.assignments.foldlM Values.assign? w =
        some (w.set p.output.name (e.eval w.valuation)) := by
      rw [assignments_of_none hc hx, List.foldlM_cons, hfirst]
      rfl
    refine ⟨_, hrun, ?_, fun t ht _ => ?_⟩
    · simp [Values.lookup_set, finish, hneg]
    · rw [Values.lookup_set, if_neg ht]
  | some aux =>
    obtain ⟨hneg, -⟩ := auxiliary?_eq_some_iff.mp hx
    have hlast : (w.set aux.name (e.eval w.valuation)).assign? ⟨p.output, .not (.signal aux)⟩ =
        some ((w.set aux.name (e.eval w.valuation)).set p.output.name (!e.eval w.valuation)) := by
      simp [Values.assign?, Values.value?, Values.lookup_set]
    have hrun : p.assignments.foldlM Values.assign? w =
        some ((w.set aux.name (e.eval w.valuation)).set p.output.name (!e.eval w.valuation)) := by
      rw [assignments_of_some hc hx, List.foldlM_cons, hfirst, Option.bind_eq_bind, Option.bind_some,
        List.foldlM_cons, hlast]
      rfl
    refine ⟨_, hrun, ?_, fun t ht haux => ?_⟩
    · simp [Values.lookup_set, finish, hneg]
    · rw [Values.lookup_set, if_neg ht, Values.lookup_set, if_neg (haux aux rfl)]

end Placed

end NetFlat
