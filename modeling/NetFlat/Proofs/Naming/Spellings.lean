import NetFlat.Naming.Literal
import NetFlat.Proofs.Text.Spread
import NetFlat.Proofs.Text.Words

/-!
# The values of number literals

A number literal is a body of digits, or an optional size, an apostrophe, an optional sign letter, a
letter that names the radix, and a body.  It stands for the number that its body denotes in its
radix, provided that all digits are zeros and ones and that the number is a single bit.  Reading it
takes no number: the zeros in front are dropped, and a one or nothing must be left.

* `Literal.Spells`: the literals, with radix and body;
* `Literal.Denotes`, `Literal.ofDigits_eq_bit_iff`: the number that a body denotes;
* `Literal.Spells.body?_eq`, `Literal.exists_spells_of_body?`: the body that is found;
* `Literal.read?_eq_bit_iff`, `Literal.read?_eq_unsupported`: the bit, or that there is none.
-/

namespace NetFlat

namespace Literal

open Text (Blanks Trimmed)

variable {t raw body : Text} {radix n : Nat} {v : Bool} {c : Char}

/-! ### Bodies -/

/-- The body consists of digits and underscores. -/
def IsBody (t : Text) : Prop := ∀ c ∈ t, c.isDigit = true ∨ c = '_'

instance (t : Text) : Decidable (IsBody t) :=
  List.decidableBAll (fun c : Char => c.isDigit = true ∨ c = '_') t

/-- The digits of a body: underscores do not count. -/
def digitsOf (body : Text) : Text := body.filter (· ≠ '_')

/-- The body is a row of zeros and ones that stands for a number when read in a radix. -/
structure Denotes (radix : Nat) (body : Text) (n : Nat) : Prop where
  ne_nil : digitsOf body ≠ []
  binary : ∀ c ∈ digitsOf body, c = '0' ∨ c = '1'
  value : Nat.ofDigitChars radix (digitsOf body) 0 = n

theorem isWord_of_isBody (h : IsBody body) : body.IsWord := by
  intro c hc
  rcases h c hc with hd | rfl
  · show ((c.isAlpha || c.isDigit) || c == '_' || c == '$') = true
    simp [hd]
  · decide

theorem Denotes.isBody (h : Denotes radix body n) : IsBody body := by
  intro c hc
  by_cases hu : c = '_'
  · exact .inr hu
  · have hmem : c ∈ digitsOf body := List.mem_filter.mpr ⟨hc, by simpa using hu⟩
    rcases h.binary c hmem with rfl | rfl
    · exact .inl (by decide)
    · exact .inl (by decide)

theorem ofDigitChars_dropWhile_zero (radix : Nat) (ds : Text) :
    Nat.ofDigitChars radix (ds.dropWhile (· = '0')) 0 = Nat.ofDigitChars radix ds 0 := by
  induction ds with
  | nil => rfl
  | cons d ds ih =>
    by_cases hd : d = '0'
    · subst hd
      have hzero : radix * 0 + ('0'.toNat - '0'.toNat) = 0 := by simp
      rw [List.dropWhile_cons_of_pos (by simp), ih, Nat.ofDigitChars_cons, hzero]
    · rw [List.dropWhile_cons_of_neg (by simpa using hd)]

theorem le_ofDigitChars (hr : 0 < radix) (ds : Text) (n : Nat) :
    n ≤ Nat.ofDigitChars radix ds n := by
  induction ds generalizing n with
  | nil => exact Nat.le_refl n
  | cons d ds ih =>
    rw [Nat.ofDigitChars_cons]
    calc n ≤ radix * n := Nat.le_mul_of_pos_left n hr
      _ ≤ radix * n + (d.toNat - '0'.toNat) := Nat.le_add_right _ _
      _ ≤ Nat.ofDigitChars radix ds _ := ih _

/-- Behind a one there is a single bit only if there is nothing. -/
theorem ofDigitChars_one_cons (hr : 2 ≤ radix) (ds : Text) :
    Nat.ofDigitChars radix ('1' :: ds) 0 = 1 ∧ ds = [] ∨
      2 ≤ Nat.ofDigitChars radix ('1' :: ds) 0 := by
  have hone : radix * 0 + ('1'.toNat - '0'.toNat) = 1 := by simp
  rw [Nat.ofDigitChars_cons, hone]
  cases ds with
  | nil => exact .inl ⟨rfl, rfl⟩
  | cons d ds =>
    refine .inr ?_
    rw [Nat.ofDigitChars_cons]
    calc 2 ≤ radix * 1 + (d.toNat - '0'.toNat) := by omega
      _ ≤ Nat.ofDigitChars radix ds _ := le_ofDigitChars (by omega) ds _

/-- What is left behind the zeros in front begins with a one. -/
theorem dropWhile_zero_cases {ds : Text} (h : ∀ c ∈ ds, c = '0' ∨ c = '1') :
    ds.dropWhile (· = '0') = [] ∨ ∃ es, ds.dropWhile (· = '0') = '1' :: es := by
  cases hd : ds.dropWhile (· = '0') with
  | nil => exact .inl rfl
  | cons d es =>
    have hmem : d ∈ ds := (List.dropWhile_sublist _).subset (by rw [hd]; exact List.mem_cons_self)
    have hne : d ≠ '0' := by
      have := List.head?_dropWhile_not (fun c => decide (c = '0')) ds
      rw [hd] at this
      simpa using this
    rcases h d hmem with rfl | rfl
    · exact absurd rfl hne
    · exact .inr ⟨es, rfl⟩

/-- **The value of a body** is the number that its digits denote, in whatever radix. -/
theorem ofDigits_eq_bit_iff (hr : 2 ≤ radix) :
    ofDigits body = .bit v ↔ Denotes radix body v.toNat := by
  have hall : (digitsOf body ≠ [] ∧
      (digitsOf body).all (fun c => c == '0' || c == '1') = true) ↔
      digitsOf body ≠ [] ∧ ∀ c ∈ digitsOf body, c = '0' ∨ c = '1' := by
    simp [List.all_eq_true]
  have hdigits : body.filter (· ≠ '_') = digitsOf body := rfl
  unfold ofDigits
  dsimp only
  rw [hdigits]
  by_cases hb : digitsOf body ≠ [] ∧ ∀ c ∈ digitsOf body, c = '0' ∨ c = '1'
  · rw [if_pos (hall.mpr hb)]
    have hvalue : Denotes radix body v.toNat ↔
        Nat.ofDigitChars radix ((digitsOf body).dropWhile (· = '0')) 0 = v.toNat := by
      rw [ofDigitChars_dropWhile_zero]
      exact ⟨Denotes.value, fun h => ⟨hb.1, hb.2, h⟩⟩
    rw [hvalue]
    rcases dropWhile_zero_cases hb.2 with hnil | ⟨es, hes⟩
    · rw [hnil]
      cases v <;> simp
    · rw [hes]
      rcases ofDigitChars_one_cons hr es with ⟨hone, rfl⟩ | htwo
      · rw [hone]
        cases v <;> simp
      · have hne : es ≠ [] := by
          rintro rfl
          simp [Nat.ofDigitChars_cons] at htwo
        obtain ⟨d, ds, rfl⟩ := List.exists_cons_of_ne_nil hne
        have hlt : v.toNat < 2 := by cases v <;> decide
        simp only [reduceCtorEq, false_iff]
        omega
  · rw [if_neg (fun h => hb (hall.mp h))]
    simp only [reduceCtorEq, false_iff]
    exact fun h => hb ⟨h.ne_nil, h.binary⟩

/-! ### Spellings -/

def radix? : Char → Option Nat
  | 'b' | 'B' => some 2
  | 'o' | 'O' => some 8
  | 'd' | 'D' => some 10
  | 'h' | 'H' => some 16
  | _ => none

theorem two_le_of_radix? (h : radix? c = some radix) : 2 ≤ radix := by
  unfold radix? at h
  split at h <;> simp at h <;> omega

theorem isSome_radix?_iff : (radix? c).isSome = true ↔ isBaseLetter c = true := by
  constructor
  · intro h
    unfold radix? at h
    split at h
    case h_9 => simp at h
    all_goals decide
  · intro h
    have hall : ("bBoOdDhH".toList.all fun d => (radix? d).isSome) = true := by decide
    exact List.all_eq_true.mp hall c (List.contains_iff_mem.mp h)

/-- The text is a number literal with a radix and a body: a body that begins with a digit, which is
decimal; or a size, which may be left out, an apostrophe, a sign letter, which may be left out, a
letter for the radix, and a body.  White space may stand around the size, behind the apostrophe and
around the body. -/
inductive Spells : Text → Nat → Text → Prop
  | plain {c : Char} {t : Text} (hc : c.isDigit = true) (h : IsBody (c :: t)) :
      Spells (c :: t) 10 (c :: t)
  | based {a size b d sign e body f : Text} {letter : Char} {radix : Nat}
      (hsize : ∀ c ∈ size, c.isDigit = true) (ha : a.Blanks) (hb : b.Blanks) (hd : d.Blanks)
      (hsign : sign = [] ∨ sign = ['s'] ∨ sign = ['S']) (hletter : radix? letter = some radix)
      (he : e.Blanks) (hf : f.Blanks) (hbody : IsBody body) :
      Spells (a ++ size ++ b ++ '\'' :: (d ++ sign ++ letter :: (e ++ body ++ f))) radix body

theorem Spells.two_le (h : Spells t radix body) : 2 ≤ radix := by
  cases h with
  | plain => decide
  | based _ _ _ _ _ hletter => exact two_le_of_radix? hletter

/-- The text begins as a number literal does: with a digit or an apostrophe. -/
def Begins (t : Text) : Prop := ∃ c u, t = c :: u ∧ (c.isDigit = true ∨ c = '\'')

theorem begins_cons_iff : Begins (c :: t) ↔ c.isDigit = true ∨ c = '\'' := by
  constructor
  · rintro ⟨d, u, h, hd⟩
    rwa [(List.cons.inj h).1]
  · exact fun h => ⟨c, t, rfl, h⟩

instance : (t : Text) → Decidable (Begins t)
  | [] => .isFalse fun ⟨_, _, h, _⟩ => nomatch h
  | _ :: _ => decidable_of_iff _ begins_cons_iff.symm

/-- A trimmed literal begins with its size or, without one, with the apostrophe. -/
theorem Spells.begins (h : Spells t radix body) (ht : t.Trimmed) : Begins t := by
  cases h with
  | plain hc => exact begins_cons_iff.mpr (.inl hc)
  | @based a size b d sign e body f letter radix hsize ha hb =>
    have hfront : ∀ c ∈ a ++ size ++ b, Text.isBlank c = false → c.isDigit = true := by
      intro c hc hblank
      simp only [List.mem_append] at hc
      rcases hc with (hc | hc) | hc
      · simp [ha c hc] at hblank
      · exact hsize c hc
      · simp [hb c hc] at hblank
    generalize a ++ size ++ b = front at hfront ht
    cases front with
    | nil => exact begins_cons_iff.mpr (.inr rfl)
    | cons c u =>
      refine begins_cons_iff.mpr (.inl (hfront c List.mem_cons_self ?_))
      exact ht.head c (by simp)

/-! ### Reading -/

theorem trimmed_of_isBody (h : IsBody body) : body.Trimmed :=
  Text.trimmed_of_isWord (isWord_of_isBody h)

theorem isWord_of_forall_isDigit {size : Text} (h : ∀ c ∈ size, c.isDigit = true) : size.IsWord :=
  isWord_of_isBody fun c hc => .inl (h c hc)

/-- The letter of a radix is neither white space nor a sign letter. -/
theorem not_isBlank_of_radix? (h : radix? c = some radix) :
    Text.isBlank c = false ∧ c ≠ 's' ∧ c ≠ 'S' := by
  unfold radix? at h
  split at h
  case h_9 => simp at h
  all_goals decide

/-- What follows the sign letter, if there is one. -/
def dropSign : Text → Text
  | 's' :: t => t
  | 'S' :: t => t
  | t => t

/-- What follows the letter of the radix, without white space around. -/
def afterBase? : Text → Option Text
  | c :: t => if isBaseLetter c then some (Text.trim t) else none
  | [] => none

theorem body?_eq (t : Text) : body? t =
    match Text.cut? '\'' t with
    | none => some t
    | some (size, rest) =>
      if (Text.trim size).all Char.isDigit then afterBase? (dropSign (Text.trimStart rest))
      else none := rfl

theorem afterBase?_eq_some_iff : afterBase? t = some body ↔
    ∃ letter radix rest, t = letter :: rest ∧ radix? letter = some radix ∧
      Text.trim rest = body := by
  cases t with
  | nil => simp [afterBase?]
  | cons c t =>
    rw [afterBase?, Option.ite_none_right_eq_some, ← isSome_radix?_iff, Option.isSome_iff_exists]
    constructor
    · rintro ⟨⟨radix, hr⟩, ht⟩
      exact ⟨c, radix, t, rfl, hr, Option.some.inj ht⟩
    · rintro ⟨letter, radix, rest, hc, hr, rfl⟩
      obtain ⟨rfl, rfl⟩ := List.cons.inj hc
      exact ⟨⟨radix, hr⟩, rfl⟩

theorem dropSign_append {sign : Text} (hsign : sign = [] ∨ sign = ['s'] ∨ sign = ['S'])
    (hletter : radix? c = some radix) : dropSign (sign ++ c :: t) = c :: t := by
  obtain ⟨-, hs, hS⟩ := not_isBlank_of_radix? hletter
  rcases hsign with rfl | rfl | rfl
  · unfold dropSign
    split
    · next h => exact absurd (List.cons.inj h).1 hs
    · next h => exact absurd (List.cons.inj h).1 hS
    · rfl
  · rfl
  · rfl

theorem exists_sign (t : Text) :
    ∃ sign, (sign = [] ∨ sign = ['s'] ∨ sign = ['S']) ∧ t = sign ++ dropSign t := by
  unfold dropSign
  split
  · exact ⟨['s'], .inr (.inl rfl), rfl⟩
  · exact ⟨['S'], .inr (.inr rfl), rfl⟩
  · exact ⟨[], .inl rfl, rfl⟩

theorem Spells.body?_eq (h : Spells t radix body) : body? t = some body := by
  rw [Literal.body?_eq]
  cases h with
  | @plain c t _ h =>
    rw [Text.cut?_eq_none_iff.mpr ((isWord_of_isBody h).not_mem (by decide))]
  | @based a size b d sign e body f letter radix hsize ha hb hd hsign hletter he hf hbody =>
    have hword := isWord_of_forall_isDigit hsize
    have hquote : '\'' ∉ a ++ size ++ b := by
      simp only [List.mem_append, not_or]
      exact ⟨⟨fun h => absurd (ha _ h) (by decide), hword.not_mem (by decide)⟩,
        fun h => absurd (hb _ h) (by decide)⟩
    have hsizes : (Text.trim (a ++ size ++ b)).all Char.isDigit = true := by
      rw [Text.trim_blanks ha (Text.trimmed_of_isWord hword) hb]
      exact List.all_eq_true.mpr hsize
    have hstart : Text.trimStart (d ++ sign ++ letter :: (e ++ body ++ f)) =
        sign ++ letter :: (e ++ body ++ f) := by
      rw [List.append_assoc, Text.trimStart_append hd]
      refine Text.trimStart_eq_self fun c hc => ?_
      rcases hsign with rfl | rfl | rfl
      · obtain rfl : letter = c := by simpa using hc
        exact (not_isBlank_of_radix? hletter).1
      · obtain rfl : 's' = c := by simpa using hc
        decide
      · obtain rfl : 'S' = c := by simpa using hc
        decide
    rw [Text.cut?_eq_some_iff.mpr ⟨rfl, hquote⟩]
    dsimp only
    rw [if_pos hsizes, hstart, dropSign_append hsign hletter]
    exact afterBase?_eq_some_iff.mpr
      ⟨letter, radix, _, rfl, hletter, Text.trim_blanks he (trimmed_of_isBody hbody) hf⟩

/-- What is found as the body of a text that begins as a literal is the body of a literal. -/
theorem exists_spells_of_body? (h : body? t = some body) (hb : IsBody body) (ht : Begins t) :
    ∃ radix, Spells t radix body := by
  rw [body?_eq] at h
  split at h
  · next hcut =>
    obtain rfl := Option.some.inj h
    obtain ⟨c, u, rfl, hc⟩ := ht
    refine ⟨10, .plain (hc.resolve_right ?_) hb⟩
    rintro rfl
    exact Text.cut?_eq_none_iff.mp hcut List.mem_cons_self
  · next size rest hcut =>
    obtain ⟨rfl, -⟩ := Text.cut?_eq_some_iff.mp hcut
    rw [Option.ite_none_right_eq_some] at h
    obtain ⟨hsize, h⟩ := h
    obtain ⟨letter, radix, digits, hsign, hletter, rfl⟩ := afterBase?_eq_some_iff.mp h
    obtain ⟨a, b, ha, hb', hab⟩ := Text.exists_trim_append size
    obtain ⟨e, f, he, hf, hef⟩ := Text.exists_trim_append digits
    obtain ⟨sign, hs, hrest⟩ := exists_sign (Text.trimStart rest)
    have hd : Blanks (rest.takeWhile Text.isBlank) :=
      fun c hc => List.all_eq_true.mp List.all_takeWhile c hc
    have hsplit : rest = rest.takeWhile Text.isBlank ++ sign ++
        letter :: (e ++ Text.trim digits ++ f) := by
      conv_lhs => rw [← List.takeWhile_append_dropWhile (p := Text.isBlank) (l := rest)]
      change _ ++ Text.trimStart rest = _
      rw [hrest, hsign, ← hef, List.append_assoc]
    refine ⟨radix, ?_⟩
    rw [hab, hsplit]
    exact .based (List.all_eq_true.mp hsize) ha hb' hd hs hletter he hf hb

/-- The text is a literal that denotes a bit. -/
def Says (t : Text) (v : Bool) : Prop :=
  ∃ radix body, Spells t radix body ∧ Denotes radix body v.toNat

theorem read?_eq (raw : Text) : read? raw =
    if Begins (Text.trim raw) then some (((body? (Text.trim raw)).map ofDigits).getD unsupported)
    else none := by
  unfold read?
  cases ht : Text.trim raw with
  | nil => rfl
  | cons c t =>
    dsimp only
    simp only [begins_cons_iff, Bool.or_eq_true, beq_iff_eq]

/-- **Literals that are read** are those that denote a bit. -/
theorem read?_eq_bit_iff : read? raw = some (.bit v) ↔ Says (Text.trim raw) v := by
  rw [read?_eq]
  constructor
  · intro h
    split at h
    · next hbegins =>
      obtain ⟨body, hbody, hdigits⟩ : ∃ body, body? (Text.trim raw) = some body ∧
          ofDigits body = .bit v := by
        cases hb : body? (Text.trim raw) with
        | none => simp [hb] at h
        | some body => exact ⟨body, rfl, by simpa [hb] using h⟩
      have hb := ((ofDigits_eq_bit_iff (Nat.le_refl 2)).mp hdigits).isBody
      obtain ⟨radix, hspells⟩ := exists_spells_of_body? hbody hb hbegins
      exact ⟨radix, body, hspells, (ofDigits_eq_bit_iff hspells.two_le).mp hdigits⟩
    · simp at h
  · rintro ⟨radix, body, hspells, hdenotes⟩
    rw [if_pos (hspells.begins (Text.trimmed_trim raw)), hspells.body?_eq, Option.map_some,
      Option.getD_some, (ofDigits_eq_bit_iff hspells.two_le).mpr hdenotes]

theorem read?_eq_unsupported (h : Begins (Text.trim raw)) (hv : ∀ v, ¬Says (Text.trim raw) v) :
    read? raw = some .unsupported := by
  cases hr : read? raw with
  | none => rw [read?_eq, if_pos h] at hr; simp at hr
  | some l =>
    cases l with
    | bit v => exact absurd (read?_eq_bit_iff.mp hr) (hv v)
    | unsupported => rfl

theorem read?_eq_none_iff : read? raw = none ↔ ¬Begins (Text.trim raw) := by
  rw [read?_eq]
  split
  · next h => simp [h]
  · next h => simp [h]

end Literal

end NetFlat
