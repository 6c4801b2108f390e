import NetFlat.Text.Basic

/-!
# Numerals

Decimal numerals: the canonical one of a number, and reading one with a bound on its value.
-/

namespace NetFlat.Text

def decimal (n : Nat) : Text := Nat.toDigits 10 n

def isDigits (t : Text) : Bool := !t.isEmpty && t.all Char.isDigit

/-- The value of a decimal numeral below `bound`; leading zeros are allowed. -/
def numeral? (bound : Nat) (t : Text) : Option Nat :=
  let n := Nat.ofDigitChars 10 t 0
  if isDigits t && n < bound then some n else none

/-- As `numeral?`, with an optional plus sign in front. -/
def signedNumeral? (bound : Nat) (t : Text) : Option Nat :=
  numeral? bound ((after? ['+'] t).getD t)

/-- One more than the largest number of 32 bits. -/
def bound32 : Nat := 0x100000000

/-- One more than the largest number of 64 bits. -/
def bound64 : Nat := 0x10000000000000000

theorem isDigits_decimal (n : Nat) : isDigits (decimal n) = true := by
  simp only [isDigits, decimal, Bool.and_eq_true, Bool.not_eq_true', List.isEmpty_eq_false_iff,
    List.all_eq_true]
  exact ⟨Nat.toDigits_ne_nil, fun c h => Nat.isDigit_of_mem_toDigits (by decide) (by decide) h⟩

theorem ofDigitChars_decimal (n : Nat) : Nat.ofDigitChars 10 (decimal n) 0 = n :=
  Nat.ofDigitChars_toDigits (by decide) (by decide)

theorem numeral?_decimal {bound n : Nat} (h : n < bound) : numeral? bound (decimal n) = some n := by
  simp [numeral?, isDigits_decimal, ofDigitChars_decimal, h]

theorem decimal_injective {m n : Nat} (h : decimal m = decimal n) : m = n := by
  rw [← ofDigitChars_decimal m, h, ofDigitChars_decimal]

end NetFlat.Text
