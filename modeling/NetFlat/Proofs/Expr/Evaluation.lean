import NetFlat.Proofs.FlatModule.Evaluation

/-!
# Evaluating what is read from an expression

The text of an expression is read to its end, and its value is that of the tree, whatever the trees
and the values of the signals are.  It has none only where a signal has none.

* `Values.value?_eq_none_iff`: when there is no value;
* `Expr.value?_of_display`: the value of a text is that of the tree.
-/

namespace NetFlat

theorem Values.value?_eq_none_iff {v : Values} {e : Expr} :
    v.value? e = none ↔ ∃ a ∈ e.reads, v.lookup a.name = none := by
  induction e with
  | signal a => simp [value?, Expr.reads]
  | const b => simp [value?, Expr.reads]
  | not e ih =>
    rw [value?, Option.map_eq_none_iff, ih]
    rfl
  | binary op a b iha ihb =>
    simp only [Expr.reads, List.mem_append, or_and_right, exists_or, ← iha, ← ihb, value?]
    cases v.value? a with
    | none => simp
    | some x => simp

namespace Expr

variable {e : Expr} {a : Signal}

/-- The five characters and the letters and digits, as a test. -/
instance : Decidable (WellNamed a) :=
  decidable_of_iff (a.name ≠ [] ∧
      a.name.all (fun c => c.isAlphanum || ['_', '$', '.', '\'', '\\'].contains c) = true ∧
      a.name ≠ "1'b0".toList ∧ a.name ≠ "1'b1".toList)
    ⟨fun ⟨h₁, h₂, h₃, h₄⟩ => ⟨h₁, by simpa using h₂, h₃, h₄⟩,
      fun h => ⟨h.ne_nil, by simpa using h.chars, h.ne_zero, h.ne_one⟩⟩

/-- **The value of a text.** Let the signals of an expression be well named.  Then its text is read
to the end, without a stop, and comes to the value that the expression has, whatever values the
signals have; there is none exactly if one of the signals has none. -/
theorem value?_of_display (hn : ∀ a ∈ e.reads, WellNamed a) :
    (∀ (v : Values) (w : Signal → Bool), (∀ a ∈ e.reads, v.lookup a.name = some (w a)) →
      Formula.value? v e.display = some (e.eval w)) ∧
    ∀ v : Values, Formula.value? v e.display = none ↔ ∃ a ∈ e.reads, v.lookup a.name = none := by
  refine ⟨fun v w hv => ?_, fun v => ?_⟩
  · rw [value?_display v hn, Values.value?_eq fun a ha => ⟨w a, hv a ha⟩]
    refine congrArg some (eval_congr fun a ha => ?_)
    rw [Values.valuation, hv a ha, Option.getD_some]
  · rw [value?_display v hn, Values.value?_eq_none_iff]

/-- A tree with an escaped name, an apostrophe and a literal below negations. -/
def escapedExpr : Expr :=
  .not (.binary .and (.binary .xor (.signal ⟨"\\a.b".toList⟩) (.const true))
    (.not (.binary .or (.signal ⟨"c'".toList⟩) (.signal ⟨"$d".toList⟩))))

theorem value?_of_display_escapedExpr :
    escapedExpr.display = "~((\\a.b  ^ 1'b1) & ~(c' | $d))".toList ∧
      (∀ a ∈ escapedExpr.reads, WellNamed a) ∧
      Formula.value? [("\\a.b".toList, false), ("c'".toList, false), ("$d".toList, true)]
        escapedExpr.display = some true ∧
      Formula.value? [("\\a.b".toList, false), ("c'".toList, false)] escapedExpr.display = none := by
  have hn : ∀ a ∈ escapedExpr.reads, WellNamed a := by decide
  obtain ⟨hvalue, hnone⟩ := value?_of_display hn
  refine ⟨by decide, hn, ?_, (hnone _).mpr ?_⟩
  · exact hvalue _ (fun a => decide (a.name = "$d".toList)) (by decide)
  · exact ⟨⟨"$d".toList⟩, by decide, by decide⟩

end Expr

end NetFlat
