import NetFlat.Proofs.Gate.Lines

/-!
# Counting brackets

The reader of connections follows the depth of brackets.  A text is read up to a depth of zero
exactly if it closes as many brackets as are open, and before that never more than are open; at no
depth these are the texts with balanced brackets.

* `Closes`: how many brackets a text opens and closes, all in all and on the way;
* `closing?_eq_some_iff`, `reference_of_readAll`: what the reader takes for a reference;
* `balanced_iff`: balanced texts by their counts.
-/

namespace NetFlat.Connection

/-- The text closes the brackets that it opens and those that are open in front of it, as many as
the depth says, and none else on the way. -/
structure Closes (depth : Nat) (t : Text) : Prop where
  below : ∀ u, u <+: t → u.count ')' ≤ depth + u.count '('
  total : t.count ')' = depth + t.count '('

variable {depth : Nat} {c : Char} {s t : Text} {ps rest : List Placement}

/-! ### The counts, character by character -/

theorem closes_nil : Closes depth [] ↔ depth = 0 := by
  constructor
  · intro h
    simpa using h.total.symm
  · rintro rfl
    exact ⟨fun u hu => by simp [List.prefix_nil.mp hu], rfl⟩

/-- What holds of the prefixes of a text, holds of the empty one and of those behind its first
character. -/
theorem forall_prefix_cons {p : Text → Prop} :
    (∀ u, u <+: c :: t → p u) ↔ p [] ∧ ∀ u, u <+: t → p (c :: u) := by
  constructor
  · intro h
    exact ⟨h [] List.nil_prefix, fun u hu => h _ (List.cons_prefix_cons.mpr ⟨rfl, hu⟩)⟩
  · rintro ⟨hnil, hcons⟩ u hu
    rcases List.prefix_cons_iff.mp hu with rfl | ⟨v, rfl, hv⟩
    · exact hnil
    · exact hcons v hv

theorem closes_iff : Closes depth t ↔ (∀ u, u <+: t → u.count ')' ≤ depth + u.count '(') ∧
    t.count ')' = depth + t.count '(' :=
  ⟨fun h => ⟨h.below, h.total⟩, fun h => ⟨h.1, h.2⟩⟩

theorem closes_open : Closes depth ('(' :: t) ↔ Closes (depth + 1) t := by
  simp [closes_iff, forall_prefix_cons, Nat.add_assoc, Nat.add_comm 1]

theorem closes_close : Closes (depth + 1) (')' :: t) ↔ Closes depth t := by
  simp [closes_iff, forall_prefix_cons, Nat.add_right_comm _ 1]

theorem not_closes_close : ¬Closes 0 (')' :: t) := by
  intro h
  have hcount := h.below [')'] (by simp)
  simp at hcount

theorem closes_other (ho : c ≠ '(') (hc : c ≠ ')') : Closes depth (c :: t) ↔ Closes depth t := by
  simp [closes_iff, forall_prefix_cons, ho, hc]

theorem closes_append_right (hs : ∀ c ∈ s, c ≠ '(' ∧ c ≠ ')') :
    Closes depth (s ++ t) ↔ Closes depth t := by
  induction s with
  | nil => rfl
  | cons c s ih =>
    have hc := hs c (by simp)
    rw [List.cons_append, closes_other hc.1 hc.2, ih fun d hd => hs d (by simp [hd])]

theorem closes_append_left (ht : ∀ c ∈ t, c ≠ '(' ∧ c ≠ ')') :
    Closes depth (s ++ t) ↔ Closes depth s := by
  induction s generalizing depth with
  | nil =>
    have hcount : Closes depth (t ++ []) ↔ Closes depth [] := closes_append_right ht
    rwa [List.append_nil] at hcount
  | cons c s ih =>
    by_cases ho : c = '('
    · subst ho
      rw [List.cons_append, closes_open, closes_open, ih]
    by_cases hc : c = ')'
    · subst hc
      cases depth with
      | zero => exact iff_of_false not_closes_close not_closes_close
      | succ depth => rw [List.cons_append, closes_close, closes_close, ih]
    · rw [List.cons_append, closes_other ho hc, closes_other ho hc, ih]

theorem ne_bracket_of_isBlank (h : Text.isBlank c = true) : c ≠ '(' ∧ c ≠ ')' := by
  constructor
  · rintro rfl
    exact absurd h (by decide)
  · rintro rfl
    exact absurd h (by decide)

theorem closes_trim : Closes depth (Text.trim t) ↔ Closes depth t := by
  obtain ⟨s, u, hs, hu, ht⟩ := Text.exists_trim_append t
  generalize Text.trim t = v at ht
  rw [ht, closes_append_left fun c hc => ne_bracket_of_isBlank (hu c hc),
    closes_append_right fun c hc => ne_bracket_of_isBlank (hs c hc)]

/-! ### References -/

/-- **What the reader takes for a reference**: the text in front of a closing bracket that closes
the brackets that are open. -/
theorem closing?_eq_some_iff : closing? depth ps = some (t, rest) ↔
    ∃ qs p, ps = qs ++ p :: rest ∧ p.char = ')' ∧ qs.map Placement.char = t ∧ Closes depth t := by
  induction ps generalizing depth t with
  | nil => simp [closing?]
  | cons p ps ih =>
    -- the reader goes on at another depth, and the count does
    have hstep {d : Nat} (hread : closing? depth (p :: ps) =
          (closing? d ps).map fun r => (p.char :: r.1, r.2))
        (hcount : ∀ u, Closes depth (p.char :: u) ↔ Closes d u)
        (hgo : p.char = ')' → depth ≠ 0) : closing? depth (p :: ps) = some (t, rest) ↔
        ∃ qs q, p :: ps = qs ++ q :: rest ∧ q.char = ')' ∧ qs.map Placement.char = t ∧
          Closes depth t := by
      rw [hread, Option.map_eq_some_iff]
      constructor
      · rintro ⟨⟨u, rest'⟩, hu, he⟩
        obtain ⟨rfl, rfl⟩ := Prod.mk.inj he
        obtain ⟨qs, q, rfl, hq, hqs, hclose⟩ := ih.mp hu
        exact ⟨p :: qs, q, rfl, hq, by rw [List.map_cons, hqs], (hcount u).mpr hclose⟩
      · rintro ⟨qs, q, he, hq, rfl, hclose⟩
        cases qs with
        | nil =>
          obtain ⟨rfl, rfl⟩ := List.cons.inj he
          exact (hgo hq (closes_nil.mp hclose)).elim
        | cons p' qs =>
          obtain ⟨rfl, rfl⟩ := List.cons.inj he
          exact ⟨(qs.map Placement.char, rest), ih.mpr ⟨qs, q, rfl, hq, rfl, (hcount _).mp hclose⟩,
            rfl⟩
    by_cases ho : p.char = '('
    · refine hstep (closing?_open ho depth) (fun u => ?_) fun hc => ?_
      · rw [ho]
        exact closes_open
      · rw [ho] at hc
        exact absurd hc (by decide)
    by_cases hc : p.char = ')'
    · cases depth with
      | zero =>
        rw [closing?_close hc]
        constructor
        · intro h
          obtain ⟨rfl, rfl⟩ := Prod.mk.inj (Option.some.inj h)
          exact ⟨[], p, rfl, hc, rfl, closes_nil.mpr rfl⟩
        · rintro ⟨qs, q, he, -, rfl, hclose⟩
          cases qs with
          | nil =>
            obtain ⟨rfl, rfl⟩ := List.cons.inj he
            rfl
          | cons p' qs =>
            obtain ⟨rfl, rfl⟩ := List.cons.inj he
            rw [List.map_cons, hc] at hclose
            exact (not_closes_close hclose).elim
      | succ depth =>
        refine hstep (closing?_close hc (depth + 1)) (fun u => ?_) fun _ => Nat.succ_ne_zero depth
        rw [hc]
        exact closes_close
    · exact hstep (closing?_other ho hc depth) (fun u => closes_other ho hc) fun h => (hc h).elim

/-- The reader gets to the end of the text, if a closing bracket is put there. -/
theorem closes_iff_closing? :
    closing? depth (placeless t ++ [⟨')', .none⟩]) = some (t, []) ↔ Closes depth t := by
  rw [closing?_eq_some_iff]
  constructor
  · rintro ⟨qs, p, -, -, -, h⟩
    exact h
  · intro h
    exact ⟨placeless t, ⟨')', .none⟩, rfl, rfl, map_char_placeless t, h⟩

instance : Decidable (Closes depth t) := decidable_of_iff _ closes_iff_closing?

theorem reference_of_afterDot {pin reference : Text}
    (h : afterDot ps = .connection pin reference rest) :
    Closes 0 reference ∧ reference <:+: ps.map Placement.char := by
  simp only [afterDot] at h
  split at h
  · simp at h
  · next p inside hp =>
    split at h
    · split at h
      · next t r hc =>
        obtain ⟨-, rfl, -⟩ := AfterDot.connection.inj h
        obtain ⟨qs, q, rfl, -, rfl, hclose⟩ := closing?_eq_some_iff.mp hc
        have hinside : p :: (qs ++ q :: r) <:+ ps :=
          hp ▸ (List.dropWhile_suffix _).trans (List.dropWhile_suffix _)
        have hqs : qs <:+: ps :=
          List.IsInfix.trans ⟨[p], q :: r, by simp⟩ hinside.isInfix
        exact ⟨closes_trim.mpr hclose, (Text.infix_trim _).trans (hqs.map _)⟩
      · simp at h
    · simp at h

/-- **References that are read** have balanced brackets and stand in the text. -/
theorem reference_of_readAll (ps : List Placement) {cs : List Connection}
    (h : readAll ps = .ok cs) :
    ∀ c ∈ cs, Closes 0 c.reference ∧ c.reference <:+: ps.map Placement.char := by
  induction ps using readAll.induct generalizing cs with
  | case1 =>
    rw [readAll_nil] at h
    simp [← Except.ok.inj h]
  | case2 p ps hp pin reference rest hd _ ih =>
    rw [readAll_cons, if_pos hp, hd] at h
    obtain ⟨cs', hcs, rfl⟩ := map_eq_ok_iff.mp h
    have hsub : rest.map Placement.char <:+: (p :: ps).map Placement.char :=
      ((suffix_of_afterDot hd).isInfix.trans (List.suffix_cons p ps).isInfix).map _
    intro c hc
    rcases List.mem_cons.mp hc with rfl | hc
    · obtain ⟨hclose, hstands⟩ := reference_of_afterDot hd
      exact ⟨hclose, hstands.trans ((List.suffix_cons p ps).isInfix.map _)⟩
    · obtain ⟨hclose, hstands⟩ := ih hcs c hc
      exact ⟨hclose, hstands.trans hsub⟩
  | case3 p ps hp pin hd =>
    rw [readAll_cons, if_pos hp, hd] at h
    simp at h
  | case4 p ps hp hd ih =>
    rw [readAll_cons, if_pos hp, hd] at h
    intro c hc
    obtain ⟨hclose, hstands⟩ := ih h c hc
    exact ⟨hclose, hstands.trans ((List.suffix_cons p ps).isInfix.map _)⟩
  | case5 p ps hp ih =>
    rw [readAll_cons, if_neg hp] at h
    intro c hc
    obtain ⟨hclose, hstands⟩ := ih h c hc
    exact ⟨hclose, hstands.trans ((List.suffix_cons p ps).isInfix.map _)⟩

/-! ### Balanced texts -/

/-- The text is made of balanced texts, one more than the depth says, with closing brackets between
them. -/
def Unwinds : Nat → Text → Prop
  | 0, t => Balanced t
  | depth + 1, t => ∃ a b, t = a ++ ')' :: b ∧ Balanced a ∧ Unwinds depth b

theorem Unwinds.nest (hs : Balanced s) (ht : Unwinds depth t) :
    Unwinds depth ('(' :: (s ++ ')' :: t)) := by
  cases depth with
  | zero => exact .nest hs ht
  | succ depth =>
    obtain ⟨a, b, rfl, ha, hb⟩ := ht
    exact ⟨'(' :: (s ++ ')' :: a), b, by simp, .nest hs ha, hb⟩

theorem Unwinds.char (ho : c ≠ '(') (hc : c ≠ ')') (ht : Unwinds depth t) :
    Unwinds depth (c :: t) := by
  cases depth with
  | zero => exact .char ho hc ht
  | succ depth =>
    obtain ⟨a, b, rfl, ha, hb⟩ := ht
    exact ⟨c :: a, b, rfl, .char ho hc ha, hb⟩

theorem unwinds_of_closes (h : Closes depth t) : Unwinds depth t := by
  induction t generalizing depth with
  | nil =>
    obtain rfl := closes_nil.mp h
    exact Balanced.nil
  | cons c t ih =>
    by_cases ho : c = '('
    · subst ho
      obtain ⟨a, b, rfl, ha, hb⟩ := ih (closes_open.mp h)
      exact hb.nest ha
    by_cases hc : c = ')'
    · subst hc
      cases depth with
      | zero => exact (not_closes_close h).elim
      | succ depth => exact ⟨[], t, rfl, .nil, ih (closes_close.mp h)⟩
    · exact (ih ((closes_other ho hc).mp h)).char ho hc

/-- **Balanced texts** are those that close the brackets that they open, and none else on the
way. -/
theorem balanced_iff : Balanced t ↔ Closes 0 t := by
  constructor
  · intro h
    refine closes_iff_closing?.mp ?_
    rw [closing?_append h 0 (map_char_placeless t), closing?_close rfl]
    simp
  · exact unwinds_of_closes

end NetFlat.Connection
