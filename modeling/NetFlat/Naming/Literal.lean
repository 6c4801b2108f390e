import NetFlat.Text.Basic

/-!
# Number literals

A text that starts with a digit or an apostrophe is a number literal: digits alone, or an optional
size, an apostrophe, an optional sign letter, a base letter and digits. Only the values zero and
one, written with the digits 0 and 1, are supported.
-/

namespace NetFlat

/-- What a number literal says. -/
inductive Literal where
  | bit (value : Bool)
  | unsupported
deriving DecidableEq, Repr

namespace Literal

/-- A letter that names a base: binary, octal, decimal or hexadecimal. -/
def isBaseLetter (c : Char) : Bool := "bBoOdDhH".toList.contains c

/-- The digits of a literal: those after size, sign and base, or the whole text. -/
def body? (t : Text) : Option Text :=
  match Text.cut? '\'' t with
  | none => some t
  | some (size, rest) =>
    if (Text.trim size).all Char.isDigit then
      let rest := Text.trimStart rest
      let rest := match rest with
        | 's' :: r => r
        | 'S' :: r => r
        | r => r
      match rest with
      | c :: digits => if isBaseLetter c then some (Text.trim digits) else none
      | [] => none
    else none

/-- The value of a row of digits, which must be zero or one; underscores do not count. -/
def ofDigits (t : Text) : Literal :=
  let digits := t.filter (· ≠ '_')
  if digits ≠ [] ∧ digits.all (fun c => c == '0' || c == '1') then
    match digits.dropWhile (· = '0') with
    | [] => bit false
    | ['1'] => bit true
    | _ => unsupported
  else unsupported

/-- The literal that a text is; `none` if it is no number literal at all. -/
def read? (raw : Text) : Option Literal :=
  let t := Text.trim raw
  match t with
  | [] => none
  | c :: _ =>
    if c.isDigit || c == '\'' then some (((body? t).map ofDigits).getD unsupported) else none

end Literal

end NetFlat
