import NetFlat.Proofs.Text.Trim

/-!
# Words spread over a text

A text may be made of given words in order, with white space before, between and behind them as one
likes.

* `Spread p ws t`: the words `ws` make up `t`, with characters of the class `p` around them;
* `Spread.append`, `Spread.trim`: rows of words, and texts whose ends are trimmed;
* `Spread.exists_head`, `Spread.exists_last`: the words at the ends of a trimmed text;
* `spreads`: a search for the words.
-/

namespace NetFlat.Text

/-- The words stand in the text in this order, and all else are characters of the class. -/
inductive Spread (p : Char → Bool) : List Text → Text → Prop
  | nil {s : Text} (hs : ∀ c ∈ s, p c = true) : Spread p [] s
  | cons {s w t : Text} {ws : List Text} (hs : ∀ c ∈ s, p c = true) (rest : Spread p ws t) :
      Spread p (w :: ws) (s ++ (w ++ t))

/-- The word has characters, and none of those at its ends is white space. -/
structure Solid (w : Text) : Prop where
  ne_nil : w ≠ []
  trimmed : w.Trimmed

variable {p q : Char → Bool} {ws vs : List Text} {s t w : Text} {c : Char}

theorem trimEnd_append_of_last (ht : ∀ c ∈ t.getLast?, isBlank c = false) (u : Text) :
    trimEnd (t ++ u) = t ++ trimEnd u := by
  obtain ⟨b, hb, hu⟩ := exists_trimEnd_append u
  have hlast : ∀ c ∈ (t ++ trimEnd u).getLast?, isBlank c = false := by
    intro c hc
    cases hn : trimEnd u with
    | nil => exact ht c (by simpa [hn] using hc)
    | cons d v =>
      rw [List.getLast?_append_of_ne_nil _ (by simp [hn])] at hc
      exact last_trimEnd c hc
  conv_lhs => rw [← hu, ← List.append_assoc, trimEnd_append hb, trimEnd_eq_self hlast]

theorem getLast?_ne (h : c ∉ t) : t.getLast? ≠ some c := fun e => h (List.mem_of_getLast? e)

namespace Spread

theorem mono (h : Spread p ws t) (hpq : ∀ c, p c = true → q c = true) : Spread q ws t := by
  induction h with
  | nil hs => exact .nil fun c hc => hpq c (hs c hc)
  | cons hs _ ih => exact .cons (fun c hc => hpq c (hs c hc)) ih

theorem exists_cons (h : Spread p (w :: ws) t) :
    ∃ s u, (∀ c ∈ s, p c = true) ∧ t = s ++ (w ++ u) ∧ Spread p ws u := by
  cases h with
  | @cons s _ u _ hs rest => exact ⟨s, u, hs, rfl, rest⟩

theorem append_left (hs : ∀ c ∈ s, p c = true) (h : Spread p ws t) : Spread p ws (s ++ t) := by
  cases h with
  | nil ht => exact .nil (List.forall_mem_append.mpr ⟨hs, ht⟩)
  | cons ht rest =>
    rw [← List.append_assoc]
    exact .cons (List.forall_mem_append.mpr ⟨hs, ht⟩) rest

theorem append (h : Spread p ws s) (h' : Spread p vs t) : Spread p (ws ++ vs) (s ++ t) := by
  induction h with
  | nil hs => exact h'.append_left hs
  | cons hs _ ih =>
    rw [List.append_assoc, List.append_assoc]
    exact .cons hs ih

theorem not_mem (h : Spread p ws t) (hw : ∀ w ∈ ws, c ∉ w) (hc : p c = false) : c ∉ t := by
  induction h with
  | nil hs =>
    intro hm
    simp [hs c hm] at hc
  | @cons s w t ws hs _ ih =>
    have hs' : c ∉ s := fun hm => by simp [hs c hm] at hc
    exact List.not_mem_append hs' (List.not_mem_append (hw _ (by simp))
      (ih fun w hm => hw w (by simp [hm])))

theorem trim (h : Spread p ws t) (hp : ∀ c, p c = true → isBlank c = true)
    (hw : ∀ w ∈ ws, Solid w) : Spread p ws (trim t) := by
  have hend : ∀ {ws t}, Spread p ws t → (∀ w ∈ ws, Solid w) → Spread p ws (trimEnd t) := by
    intro ws t h hw
    induction h with
    | nil hs =>
      rw [trimEnd_eq_nil fun c hc => hp c (hs c hc)]
      exact .nil (by simp)
    | @cons s w t ws hs _ ih =>
      have hsolid := hw w (by simp)
      have hlast : ∀ c ∈ (s ++ w).getLast?, isBlank c = false := by
        rw [List.getLast?_append_of_ne_nil _ hsolid.ne_nil]
        exact hsolid.trimmed.last
      rw [← List.append_assoc, trimEnd_append_of_last hlast, List.append_assoc]
      exact .cons hs (ih fun v hv => hw v (by simp [hv]))
  refine hend ?_ hw
  cases h with
  | nil hs =>
    rw [trimStart_eq_nil fun c hc => hp c (hs c hc)]
    exact .nil (by simp)
  | @cons s w t ws hs rest =>
    have hsolid := hw w (by simp)
    have hhead : ∀ c ∈ (w ++ t).head?, isBlank c = false := by
      rw [List.head?_append_of_ne_nil _ hsolid.ne_nil]
      exact hsolid.trimmed.head
    rw [trimStart_append fun c hc => hp c (hs c hc), trimStart_eq_self hhead]
    exact .cons (s := []) (by simp) rest

theorem eq_nil_of_trimmed (h : Spread p [] t) (hp : ∀ c, p c = true → isBlank c = true)
    (ht : t.Trimmed) : t = [] := by
  cases h with
  | nil hs =>
    cases t with
    | nil => rfl
    | cons c t =>
      have := ht.head c (by simp)
      simp [hp c (hs c (by simp))] at this

theorem exists_head (h : Spread p (w :: ws) t) (hp : ∀ c, p c = true → isBlank c = true)
    (ht : t.Trimmed) : ∃ u, t = w ++ u ∧ Spread p ws u := by
  cases h with
  | @cons s _ u _ hs rest =>
    cases s with
    | nil => exact ⟨u, rfl, rest⟩
    | cons c s =>
      have := ht.head c (by simp)
      simp [hp c (hs c (by simp))] at this

/-- Without the white space in front, a text begins as its first word does. -/
theorem head_trimStart (h : Spread p ws t) (hp : ∀ c, p c = true → isBlank c = true)
    (hw : ∀ w ∈ ws, Solid w) : ∀ c ∈ (trimStart t).head?, ∃ w ∈ ws.head?, c ∈ w.head? := by
  intro c hc
  cases h with
  | nil hs => simp [trimStart_eq_nil fun c hc => hp c (hs c hc)] at hc
  | @cons s w t ws hs rest =>
    have hsolid := hw w (by simp)
    have hhead : (w ++ t).head? = w.head? := List.head?_append_of_ne_nil _ hsolid.ne_nil
    have hself : trimStart (w ++ t) = w ++ t := by
      refine trimStart_eq_self ?_
      rw [hhead]
      exact hsolid.trimmed.head
    rw [trimStart_append fun c hc => hp c (hs c hc), hself, hhead] at hc
    exact ⟨w, rfl, hc⟩

theorem ne_nil_of_mem (h : Spread p ws t) (hm : w ∈ ws) (hne : w ≠ []) : t ≠ [] := by
  induction h with
  | nil hs => simp at hm
  | cons hs _ ih =>
    rcases List.mem_cons.mp hm with rfl | hm
    · simp [hne]
    · simp [ih hm]

theorem exists_last (h : Spread p (ws ++ [w]) t) (hp : ∀ c, p c = true → isBlank c = true)
    (hne : w ≠ []) (ht : ∀ c ∈ t.getLast?, isBlank c = false) : ∃ u, t = u ++ w := by
  induction ws generalizing t with
  | nil =>
    cases h with
    | @cons s _ u _ hs rest =>
      cases rest with
      | nil hu =>
        cases hl : u.getLast? with
        | none =>
          obtain rfl := List.getLast?_eq_none_iff.mp hl
          exact ⟨s, by simp⟩
        | some c =>
          have hune : u ≠ [] := by
            rintro rfl
            simp at hl
          have hlast : (s ++ (w ++ u)).getLast? = some c := by
            rw [List.getLast?_append_of_ne_nil _ (by simp [hune]),
              List.getLast?_append_of_ne_nil _ hune, hl]
          have := ht c hlast
          simp [hp c (hu c (List.mem_of_getLast? hl))] at this
  | cons v ws ih =>
    cases h with
    | @cons s _ u _ hs rest =>
      have hune : u ≠ [] := rest.ne_nil_of_mem (List.mem_append_right _ (by simp)) hne
      have hlast : ∀ c ∈ u.getLast?, isBlank c = false := by
        rwa [List.getLast?_append_of_ne_nil _ (by simp [hune]),
          List.getLast?_append_of_ne_nil _ hune] at ht
      obtain ⟨u', rfl⟩ := ih rest hlast
      exact ⟨s ++ (v ++ u'), by simp⟩

/-- What follows a word begins with a character of the class or with the next word. -/
theorem head_of_forall (h : Spread p ws t) (hw : ∀ w ∈ ws.head?, w ≠ [] ∧ ∀ c ∈ w.head?, q c = true)
    (hpq : ∀ c, p c = true → q c = true) : ∀ c ∈ t.head?, q c = true := by
  intro c hc
  cases h with
  | nil hs => exact hpq c (hs c (List.mem_of_head? hc))
  | @cons s w u _ hs rest =>
    obtain ⟨hne, hhead⟩ := hw w (by simp)
    cases s with
    | nil =>
      rw [List.nil_append, List.head?_append_of_ne_nil _ hne] at hc
      exact hhead c hc
    | cons d s =>
      obtain rfl : d = c := Option.some.inj hc
      exact hpq d (hs d (by simp))

end Spread

/-! ### Checking -/

/-- Finds the words in the text one after the other, each at the first character that is not of the
class. -/
def spreads (p : Char → Bool) : List Text → Text → Bool
  | [], t => t.all p
  | w :: ws, t =>
    match after? w (t.dropWhile p) with
    | some rest => spreads p ws rest
    | none => false

theorem spread_of_spreads (h : spreads p ws t = true) : Spread p ws t := by
  induction ws generalizing t with
  | nil => exact .nil (List.all_eq_true.mp h)
  | cons w ws ih =>
    simp only [spreads] at h
    split at h
    · next rest hrest =>
      have ht : t.takeWhile p ++ (w ++ rest) = t := by
        rw [List.append_eq_of_isPrefixOf?_eq_some hrest, List.takeWhile_append_dropWhile]
      rw [← ht]
      exact .cons (List.all_eq_true.mp List.all_takeWhile) (ih h)
    · simp at h

end NetFlat.Text
