import NetFlat.Gate.Connections
import NetFlat.Proofs.Text.Lines

/-!
# Reading connections

What the reader of connections makes of the pieces of a text.

* `closing?_append`: a text with balanced brackets is passed over on the way to a closing bracket;
* `readAll_skip`: so is a text without dots on the way to a connection;
* `readAll_connection`: a connection is read;
* `readAll_placeless_skip`, `readAll_placeless_connection`, `read_placeless`: the same for texts at no
  place.
-/

namespace NetFlat.Connection

variable {ps qs : List Placement}

theorem readAll_nil : readAll [] = .ok [] := by rw [readAll]

theorem readAll_cons (p : Placement) (ps : List Placement) : readAll (p :: ps) =
    if p.char = '.' then
      match afterDot ps with
      | .connection pin reference rest => (readAll rest).map (⟨pin, reference, p.line⟩ :: ·)
      | .unclosed pin => .error ((PinFault.unclosed pin).toFailure p.line)
      | .other => readAll ps
    else readAll ps := by
  rw [readAll]
  split
  · split
    · next h => simp [h]
    · next h => simp [h]
    · next h => simp [h]
  · rfl

theorem closing?_open {p : Placement} (hp : p.char = '(') (depth : Nat) :
    closing? depth (p :: ps) = (closing? (depth + 1) ps).map fun r => (p.char :: r.1, r.2) := by
  rw [closing?.eq_def]
  exact if_pos hp

theorem closing?_close {p : Placement} (hp : p.char = ')') (depth : Nat) :
    closing? depth (p :: ps) = match depth with
      | 0 => some ([], ps)
      | depth + 1 => (closing? depth ps).map fun r => (p.char :: r.1, r.2) := by
  rw [closing?.eq_def]
  exact (if_neg (by simp [hp])).trans (if_pos hp)

theorem closing?_other {p : Placement} (ho : p.char ≠ '(') (hc : p.char ≠ ')') (depth : Nat) :
    closing? depth (p :: ps) = (closing? depth ps).map fun r => (p.char :: r.1, r.2) := by
  rw [closing?.eq_def]
  exact (if_neg ho).trans (if_neg hc)

/-- Each bracket that is opened in the text is closed in it, and none else is. -/
inductive Balanced : Text → Prop
  | nil : Balanced []
  | char {c : Char} {t : Text} : c ≠ '(' → c ≠ ')' → Balanced t → Balanced (c :: t)
  | nest {t u : Text} : Balanced t → Balanced u → Balanced ('(' :: (t ++ ')' :: u))

theorem balanced_of_forall {t : Text} (h : ∀ c ∈ t, c ≠ '(' ∧ c ≠ ')') : Balanced t := by
  induction t with
  | nil => exact .nil
  | cons c t ih =>
    have hc := h c (by simp)
    exact .char hc.1 hc.2 (ih fun d hd => h d (by simp [hd]))

theorem closing?_append {t : Text} (h : Balanced t) (depth : Nat) (hq : qs.map Placement.char = t) :
    closing? depth (qs ++ ps) = (closing? depth ps).map fun r => (t ++ r.1, r.2) := by
  induction h generalizing depth qs ps with
  | nil =>
    obtain rfl : qs = [] := by simpa using hq
    simp
  | @char c t ho hc _ ih =>
    obtain ⟨q, qs, rfl, rfl, hqs⟩ := List.map_eq_cons_iff.mp hq
    rw [List.cons_append, closing?_other ho hc, ih depth hqs, Option.map_map]
    rfl
  | @nest t u _ _ iht ihu =>
    obtain ⟨q, qs, rfl, hopen, hqs⟩ := List.map_eq_cons_iff.mp hq
    obtain ⟨qt, qu, rfl, ht, hu⟩ := List.map_eq_append_iff.mp hqs
    obtain ⟨r, qu, rfl, hclose, hu⟩ := List.map_eq_cons_iff.mp hu
    rw [List.cons_append, List.append_assoc, closing?_open hopen, iht (depth + 1) ht,
      List.cons_append, closing?_close hclose]
    simp only [ihu depth hu]
    simp only [Option.map_map, hopen, hclose]
    congr 1
    funext x
    simp

theorem readAll_skip (h : ∀ q ∈ qs, q.char ≠ '.') : readAll (qs ++ ps) = readAll ps := by
  induction qs with
  | nil => rfl
  | cons q qs ih =>
    rw [List.cons_append, readAll_cons, if_neg (h q (by simp)), ih fun p hp => h p (by simp [hp])]

/-- **A connection is read**, from a dot up to the bracket that closes its reference. -/
theorem readAll_connection {dot opening closing : Placement} {pin blank reference : List Placement}
    (hdot : dot.char = '.') (hne : pin ≠ []) (hpin : ∀ p ∈ pin, isPinChar p.char = true)
    (hblank : ∀ p ∈ blank, Text.isAsciiBlank p.char = true) (hopen : opening.char = '(')
    (hbal : Balanced (reference.map Placement.char)) (hclose : closing.char = ')') :
    readAll (dot :: (pin ++ (blank ++ opening :: (reference ++ closing :: ps)))) =
      (readAll ps).map (⟨pin.map Placement.char, Text.trim (reference.map Placement.char),
        dot.line⟩ :: ·) := by
  have hopen₁ : isPinChar opening.char = false := by
    rw [hopen]
    decide
  have hopen₂ : Text.isAsciiBlank opening.char = false := by
    rw [hopen]
    decide
  have hstop : ((blank ++ opening :: (reference ++ closing :: ps)).takeWhile
      (isPinChar ·.char)) = [] := by
    cases blank with
    | nil => simp [hopen₁]
    | cons b blank =>
      have hb : isPinChar b.char = false := by
        have := hblank b (by simp)
        simp only [Text.isAsciiBlank, Bool.or_eq_true, beq_iff_eq] at this
        rcases this with (((h | h) | h) | h) | h <;> rw [h] <;> decide
      simp [hb]
  have htake : (pin ++ (blank ++ opening :: (reference ++ closing :: ps))).takeWhile
      (isPinChar ·.char) = pin := by
    rw [List.takeWhile_append_of_pos hpin, hstop, List.append_nil]
  have hdrop : (pin ++ (blank ++ opening :: (reference ++ closing :: ps))).dropWhile
      (isPinChar ·.char) = blank ++ opening :: (reference ++ closing :: ps) := by
    have := List.takeWhile_append_dropWhile (p := (isPinChar ·.char))
      (l := blank ++ opening :: (reference ++ closing :: ps))
    rw [hstop, List.nil_append] at this
    rw [List.dropWhile_append_of_pos hpin, this]
  have hdrop' : (blank ++ opening :: (reference ++ closing :: ps)).dropWhile
      (Text.isAsciiBlank ·.char) = opening :: (reference ++ closing :: ps) := by
    rw [List.dropWhile_append_of_pos hblank]
    simp [hopen₂]
  have hcl : closing? 0 (reference ++ closing :: ps) =
      some (reference.map Placement.char, ps) := by
    rw [closing?_append hbal 0 rfl, closing?_close hclose]
    simp
  have hafter : afterDot (pin ++ (blank ++ opening :: (reference ++ closing :: ps))) =
      .connection (pin.map Placement.char) (Text.trim (reference.map Placement.char)) ps := by
    simp only [afterDot, htake, hdrop, hdrop', hcl]
    rw [if_pos ⟨by simpa using hne, hopen⟩]
  rw [readAll_cons, if_pos hdot, hafter]

/-! ### Texts at no place -/

def placeless (t : Text) : List Placement := t.map fun c => ⟨c, .none⟩

theorem placeless_append (s t : Text) : placeless (s ++ t) = placeless s ++ placeless t :=
  List.map_append

theorem map_char_placeless (t : Text) : (placeless t).map Placement.char = t := by
  simp [placeless, Function.comp_def]

theorem readAll_placeless_skip (s t : Text) (h : '.' ∉ s) :
    readAll (placeless (s ++ t)) = readAll (placeless t) := by
  rw [placeless_append]
  refine readAll_skip fun q hq hdot => ?_
  obtain ⟨c, hc, rfl⟩ := List.mem_map.mp hq
  exact h (hdot ▸ hc)

theorem readAll_placeless_connection {pin blank reference t : Text} (hne : pin ≠ [])
    (hpin : ∀ c ∈ pin, isPinChar c = true) (hblank : ∀ c ∈ blank, Text.isAsciiBlank c = true)
    (hbal : Balanced reference) :
    readAll (placeless ('.' :: (pin ++ (blank ++ '(' :: (reference ++ ')' :: t))))) =
      (readAll (placeless t)).map (⟨pin, Text.trim reference, .none⟩ :: ·) := by
  have htext : placeless ('.' :: (pin ++ (blank ++ '(' :: (reference ++ ')' :: t)))) =
      (⟨'.', .none⟩ : Placement) :: (placeless pin ++ (placeless blank ++
        ⟨'(', .none⟩ :: (placeless reference ++ ⟨')', .none⟩ :: placeless t))) := by
    simp [placeless]
  have hforall {p : Char → Bool} {u : Text} (hu : ∀ c ∈ u, p c = true) :
      ∀ q ∈ placeless u, p q.char = true := List.forall_mem_map.mpr hu
  have hread : readAll ((⟨'.', .none⟩ : Placement) :: (placeless pin ++ (placeless blank ++
      ⟨'(', .none⟩ :: (placeless reference ++ ⟨')', .none⟩ :: placeless t)))) =
        (readAll (placeless t)).map (⟨(placeless pin).map Placement.char,
          Text.trim ((placeless reference).map Placement.char), .none⟩ :: ·) :=
    readAll_connection rfl (by simpa [placeless] using hne) (hforall hpin) (hforall hblank) rfl
      (by rwa [map_char_placeless]) rfl
  rw [htext, hread, map_char_placeless, map_char_placeless]

/-- Nothing is read in front of the first bracket of an instance. -/
theorem read_placeless {ls : List Text} {s t : Text} (hl : Text.ofLines ls = s ++ '(' :: t)
    (hs : '(' ∉ s) : read (ls.map (·, .none)) = readAll (placeless t) := by
  have hp : placements (ls.map (·, .none)) = placeless s ++ placeless ('(' :: t) := by
    rw [← placeless_append, ← hl]
    simp [placements, placeless, Text.ofLines, List.flatMap_map, List.map_flatMap]
  have hdrop : (placeless s ++ placeless ('(' :: t)).dropWhile (·.char ≠ '(') =
      placeless ('(' :: t) := by
    rw [List.dropWhile_append_of_pos]
    · simp [placeless]
    · intro q hq
      obtain ⟨c, hc, rfl⟩ := List.mem_map.mp hq
      have : c ≠ '(' := fun e => hs (e ▸ hc)
      simpa using this
  rw [read, hp, hdrop]
  rfl

end NetFlat.Connection
