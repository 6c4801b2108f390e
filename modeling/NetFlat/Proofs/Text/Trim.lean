import Mathlib.Data.List.Basic
import Mathlib.Data.List.TakeWhile
import NetFlat.Text.Basic

/-!
# Trimmed texts

A text is trimmed if white space stands at neither end of it.

* `trimmed_trim`, `Trimmed.trim_eq_self`: trimming leaves a trimmed text, and leaves it alone;
* `trim_blanks`: it takes the white space off around a trimmed text.
-/

namespace NetFlat.Text

variable {c : Char} {s t u : Text}

/-- White space stands at neither end of the text. -/
structure Trimmed (t : Text) : Prop where
  head : ∀ c ∈ t.head?, isBlank c = false
  last : ∀ c ∈ t.getLast?, isBlank c = false

def Blanks (t : Text) : Prop := ∀ c ∈ t, isBlank c = true

instance (t : Text) : Decidable t.Blanks := List.decidableBAll (isBlank · = true) t

theorem trimmed_of_ends {d : Char} (hh : t.head? = some c) (hl : t.getLast? = some d)
    (hc : isBlank c = false) (hd : isBlank d = false) : Trimmed t := by
  refine ⟨fun e he => ?_, fun e he => ?_⟩
  · obtain rfl : c = e := Option.some.inj (hh.symm.trans he)
    exact hc
  · obtain rfl : d = e := Option.some.inj (hl.symm.trans he)
    exact hd

/-! ### One end -/

theorem trimStart_eq_self (h : ∀ c ∈ t.head?, isBlank c = false) : trimStart t = t := by
  cases t with
  | nil => rfl
  | cons c t => simp [trimStart, h c (by simp)]

theorem trimStart_append (h : Blanks s) : trimStart (s ++ t) = trimStart t :=
  List.dropWhile_append_of_pos h

theorem trimStart_eq_nil (h : Blanks s) : trimStart s = [] := by
  simpa using trimStart_append (t := []) h

theorem trimEnd_eq_self (h : ∀ c ∈ t.getLast?, isBlank c = false) : trimEnd t = t := by
  have hr : ∀ c ∈ t.reverse.head?, isBlank c = false := by simpa using h
  have := trimStart_eq_self hr
  unfold trimStart at this
  rw [trimEnd, this, List.reverse_reverse]

theorem trimEnd_append (h : Blanks u) : trimEnd (t ++ u) = trimEnd t := by
  have hr : Blanks u.reverse := fun c hc => h c (by simpa using hc)
  have := trimStart_append (t := t.reverse) hr
  unfold trimStart at this
  rw [trimEnd, List.reverse_append, this, trimEnd]

theorem trimEnd_eq_nil (h : Blanks u) : trimEnd u = [] := by
  simpa using trimEnd_append (t := []) h

theorem head_trimStart : ∀ c ∈ (trimStart t).head?, isBlank c = false := by
  intro c hc
  have h := List.head?_dropWhile_not isBlank t
  rwa [show (t.dropWhile isBlank).head? = some c from hc] at h

theorem last_trimEnd : ∀ c ∈ (trimEnd t).getLast?, isBlank c = false := by
  intro c hc
  rw [trimEnd, List.getLast?_reverse] at hc
  exact head_trimStart (t := t.reverse) c hc

theorem exists_trimEnd_append (t : Text) : ∃ s, Blanks s ∧ trimEnd t ++ s = t := by
  refine ⟨(t.reverse.takeWhile isBlank).reverse, fun c hc => ?_, ?_⟩
  · exact List.all_eq_true.mp List.all_takeWhile c (List.mem_reverse.mp hc)
  · rw [trimEnd, ← List.reverse_append, List.takeWhile_append_dropWhile, List.reverse_reverse]

theorem head?_trimEnd (h : trimEnd t ≠ []) : (trimEnd t).head? = t.head? := by
  obtain ⟨s, -, hs⟩ := exists_trimEnd_append t
  have ha : (trimEnd t ++ s).head? = (trimEnd t).head? := List.head?_append_of_ne_nil _ h
  rw [← ha, hs]

/-! ### Both ends -/

theorem exists_trim_append (t : Text) : ∃ s u, Blanks s ∧ Blanks u ∧ t = s ++ trim t ++ u := by
  obtain ⟨u, hu, ht⟩ := exists_trimEnd_append (trimStart t)
  refine ⟨t.takeWhile isBlank, u, fun c hc => List.all_eq_true.mp List.all_takeWhile c hc, hu, ?_⟩
  rw [List.append_assoc, trim, ht]
  exact List.takeWhile_append_dropWhile.symm

theorem infix_trim (t : Text) : trim t <:+: t := by
  obtain ⟨s, -, hs⟩ := exists_trimEnd_append (trimStart t)
  exact (List.IsPrefix.isInfix ⟨s, hs⟩).trans (List.dropWhile_suffix _).isInfix

theorem Trimmed.trim_eq_self (h : Trimmed t) : trim t = t := by
  rw [trim, trimStart_eq_self h.head, trimEnd_eq_self h.last]

theorem trimmed_trim (t : Text) : Trimmed (trim t) := by
  refine ⟨fun c hc => ?_, last_trimEnd⟩
  have hne : trimEnd (trimStart t) ≠ [] := by
    intro h
    rw [trim, h] at hc
    simp at hc
  rw [trim, head?_trimEnd hne] at hc
  exact head_trimStart c hc

theorem trim_blanks (hs : Blanks s) (h : Trimmed t) (hu : Blanks u) : trim (s ++ t ++ u) = t := by
  rw [List.append_assoc, trim, trimStart_append hs]
  cases t with
  | nil =>
    rw [List.nil_append, trimStart_eq_nil hu]
    rfl
  | cons c t =>
    rw [trimStart_eq_self (by simpa using h.head), trimEnd_append hu, trimEnd_eq_self h.last]

/-- A text that begins without white space begins so when trimmed. -/
theorem exists_trim_cons (hc : isBlank c = false) (t : Text) : ∃ u, trim (c :: t) = c :: u := by
  rw [trim, trimStart_eq_self (by simpa using hc)]
  have hne : trimEnd (c :: t) ≠ [] := by
    simp [trimEnd, List.dropWhile_eq_nil_iff, hc]
  have hh := head?_trimEnd hne
  cases hu : trimEnd (c :: t) with
  | nil => exact absurd hu hne
  | cons d u =>
    rw [hu] at hh
    obtain rfl : d = c := by simpa using hh
    exact ⟨u, rfl⟩

end NetFlat.Text
