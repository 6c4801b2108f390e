import NetFlat.Config.Basic
import NetFlat.Proofs.Text.Trim
import NetFlat.Text.Numeral

/-!
# Words

Words are texts of letters, digits, underscores and dollar signs; identifiers are words that do not
start with a digit or a dollar sign.

* `trimmed_of_isWord`: words are trimmed;
* `head_of_isIdentifier`, `isWord_of_isIdentifier`: identifiers are words;
* `Text.isWord_of_isDigits`, `Text.numeral?_eq_some_iff`: so are rows of digits, which have a value.
-/

namespace NetFlat

def Text.IsWord (t : Text) : Prop := ∀ c ∈ t, isWordChar c = true

instance (t : Text) : Decidable t.IsWord := List.decidableBAll (isWordChar · = true) t

theorem isAlpha_iff {c : Char} :
    c.isAlpha = true ↔ 65 ≤ c.toNat ∧ c.toNat ≤ 90 ∨ 97 ≤ c.toNat ∧ c.toNat ≤ 122 := by
  change (decide (c.val ≥ 'A'.val ∧ c.val ≤ 'Z'.val) ||
    (decide (c.val ≥ 'a'.val) && decide (c.val ≤ 'z'.val))) = true ↔ _
  rw [Bool.or_eq_true, Bool.and_eq_true, decide_eq_true_iff, decide_eq_true_iff, decide_eq_true_iff]
  simp only [ge_iff_le, UInt32.le_iff_toNat_le]
  exact Iff.rfl

theorem isDigit_iff {c : Char} : c.isDigit = true ↔ 48 ≤ c.toNat ∧ c.toNat ≤ 57 := by
  change (decide (c.val ≥ '0'.val) && decide (c.val ≤ '9'.val)) = true ↔ _
  rw [Bool.and_eq_true, decide_eq_true_iff, decide_eq_true_iff]
  simp only [ge_iff_le, UInt32.le_iff_toNat_le]
  exact Iff.rfl

theorem toNat_of_isWordChar {c : Char} (h : isWordChar c = true) :
    36 ≤ c.toNat ∧ c.toNat ≤ 122 := by
  change ((c.isAlpha || c.isDigit) || c == '_' || c == '$') = true at h
  rw [Bool.or_eq_true, Bool.or_eq_true, Bool.or_eq_true, isAlpha_iff, isDigit_iff, beq_iff_eq,
    beq_iff_eq] at h
  rcases h with (h | rfl) | rfl
  · omega
  · decide
  · decide

theorem isBlank_of_isWordChar {c : Char} (h : isWordChar c = true) : Text.isBlank c = false := by
  obtain ⟨h₁, h₂⟩ := toNat_of_isWordChar h
  have : ¬Text.isBlank c = true := by
    simp only [Text.isBlank, Bool.or_eq_true, Bool.and_eq_true, decide_eq_true_eq, beq_iff_eq]
    omega
  simpa using this

theorem isWordChar_of_isBlank {c : Char} (h : Text.isBlank c = true) : isWordChar c = false := by
  by_contra hw
  rw [isBlank_of_isWordChar (by simpa using hw)] at h
  simp at h

theorem head_of_isIdentifier {t : Text} (h : isIdentifier t = true) :
    ∃ c u, t = c :: u ∧ isWordChar c = true ∧ c.isDigit = false := by
  cases t with
  | nil => simp [isIdentifier] at h
  | cons c u =>
    refine ⟨c, u, rfl, ?_⟩
    simp only [isIdentifier, Bool.and_eq_true, Bool.or_eq_true, beq_iff_eq] at h
    rcases h.1 with ha | rfl
    · refine ⟨?_, ?_⟩
      · show ((c.isAlpha || c.isDigit) || c == '_' || c == '$') = true
        simp [ha]
      · have hrange := isAlpha_iff.mp ha
        rw [Bool.eq_false_iff, ne_eq, isDigit_iff]
        omega
    · decide

theorem isWord_of_isIdentifier {t : Text} (h : isIdentifier t = true) : t.IsWord := by
  cases t with
  | nil => simp [isIdentifier] at h
  | cons c u =>
    obtain ⟨d, v, hd, hw, -⟩ := head_of_isIdentifier h
    obtain ⟨rfl, rfl⟩ := List.cons.inj hd
    simp only [isIdentifier, Bool.and_eq_true, List.all_eq_true] at h
    intro e he
    rcases List.mem_cons.mp he with rfl | he
    · exact hw
    · exact h.2 e he

theorem ne_nil_of_isIdentifier {t : Text} (h : isIdentifier t = true) : t ≠ [] := by
  rintro rfl
  simp [isIdentifier] at h

namespace Text

variable {c : Char} {t : Text}

theorem IsWord.not_mem (h : t.IsWord) (hc : isWordChar c = false) : c ∉ t := by
  intro hm
  simp [h c hm] at hc

theorem trimmed_of_isWord (h : t.IsWord) : Trimmed t :=
  ⟨fun c hc => isBlank_of_isWordChar (h c (List.mem_of_head? hc)),
    fun c hc => isBlank_of_isWordChar (h c (List.mem_of_getLast? hc))⟩

theorem IsWord.append {s : Text} (hs : s.IsWord) (ht : t.IsWord) : IsWord (s ++ t) := by
  intro c hc
  rcases List.mem_append.mp hc with hc | hc
  · exact hs c hc
  · exact ht c hc

theorem isWord_of_isDigits (h : isDigits t = true) : IsWord t := by
  intro c hc
  have hd := List.all_eq_true.mp (Bool.and_eq_true_iff.mp h).2 c hc
  show ((c.isAlpha || c.isDigit) || c == '_' || c == '$') = true
  simp [hd]

theorem isWord_decimal (n : Nat) : IsWord (decimal n) := isWord_of_isDigits (isDigits_decimal n)

theorem trim_digits {u v : Text} (ht : isDigits t = true) (hu : u.Blanks) (hv : v.Blanks) :
    trim (u ++ t ++ v) = t :=
  trim_blanks hu (trimmed_of_isWord (isWord_of_isDigits ht)) hv

theorem ne_nil_of_isDigits (h : isDigits t = true) : t ≠ [] := by
  rintro rfl
  simp [isDigits] at h

/-- The number that a row of digits stands for. -/
def digitsValue (t : Text) : Nat := Nat.ofDigitChars 10 t 0

theorem numeral?_eq_some_iff {bound n : Nat} :
    numeral? bound t = some n ↔ isDigits t = true ∧ digitsValue t = n ∧ n < bound := by
  simp only [numeral?, digitsValue, Option.ite_none_right_eq_some, Bool.and_eq_true, decide_eq_true_eq,
    Option.some.injEq]
  constructor
  · rintro ⟨⟨hd, hlt⟩, rfl⟩
    exact ⟨hd, rfl, hlt⟩
  · rintro ⟨hd, rfl, hlt⟩
    exact ⟨⟨hd, hlt⟩, rfl⟩

end Text

end NetFlat
