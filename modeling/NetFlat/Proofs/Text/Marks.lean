import NetFlat.Proofs.Text.Trim

/-!
# Marks of two characters

Two characters in a row stand in a text that is put together if they stand in one of its parts, or
where two parts meet.  So it is with comment marks.

* `Text.pair_infix_append_iff`: two characters in a row, in two parts;
* `Text.Uncommented`: no comment mark stands in a text.
-/

namespace NetFlat.Text

variable {a b : Char} {s t : Text}

theorem pair_infix_append_iff : [a, b] <:+: s ++ t ↔
    [a, b] <:+: s ∨ [a, b] <:+: t ∨ s.getLast? = some a ∧ t.head? = some b := by
  constructor
  · rintro ⟨u, v, h⟩
    have h' : u ++ a :: b :: v = s ++ t := by simpa using h
    rcases List.append_eq_append_iff.mp h' with ⟨r, rfl, hv⟩ | ⟨r, rfl, ht⟩
    · -- the characters begin in the first part
      rcases r with _ | ⟨c, _ | ⟨d, r⟩⟩
      · exact .inr (.inl ⟨[], v, by simpa using hv⟩)
      · simp only [List.cons_append, List.nil_append, List.cons.injEq] at hv
        obtain ⟨rfl, rfl⟩ := hv
        exact .inr (.inr ⟨by simp, rfl⟩)
      · simp only [List.cons_append, List.cons.injEq] at hv
        obtain ⟨rfl, rfl, -⟩ := hv
        exact .inl ⟨u, r, by simp⟩
    · exact .inr (.inl ⟨r, v, by simp [ht]⟩)
  · rintro (h | h | ⟨hs, ht⟩)
    · exact h.trans (List.prefix_append s t).isInfix
    · exact h.trans (List.suffix_append s t).isInfix
    · obtain ⟨u, rfl⟩ := List.getLast?_eq_some_iff.mp hs
      obtain ⟨v, rfl⟩ := List.head?_eq_some_iff.mp ht
      exact ⟨u, v, by simp⟩

/-! ### Comment marks -/

def Uncommented (t : Text) : Prop := ¬['/', '/'] <:+: t

instance : Decidable t.Uncommented := inferInstanceAs (Decidable (¬_))

theorem uncommented_of_not_mem (h : '/' ∉ t) : t.Uncommented := by
  rintro ⟨u, v, rfl⟩
  exact h (by simp)

theorem Uncommented.mono (ht : t.Uncommented) (h : s <:+: t) : s.Uncommented :=
  fun hs => ht (hs.trans h)

/-- Texts are put together without a comment mark if one of them has no slash where they meet. -/
theorem Uncommented.append (hs : s.Uncommented) (ht : t.Uncommented)
    (h : s.getLast? ≠ some '/' ∨ t.head? ≠ some '/') : Uncommented (s ++ t) := by
  intro hst
  rcases pair_infix_append_iff.mp hst with hst | hst | ⟨hlast, hhead⟩
  · exact hs hst
  · exact ht hst
  · rcases h with h | h
    · exact h hlast
    · exact h hhead

theorem Uncommented.append_left (ht : t.Uncommented) (hs : '/' ∉ s) : Uncommented (s ++ t) :=
  (uncommented_of_not_mem hs).append ht (.inl fun h => hs (List.mem_of_getLast? h))

end NetFlat.Text
