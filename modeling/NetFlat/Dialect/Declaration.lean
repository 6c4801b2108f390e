import NetFlat.Dialect.Words
import NetFlat.Text.Numeral

/-!
# Declarations

A declaration, after its keyword, holds an optional kind word, an optional range and a list of
names between commas.
-/

namespace NetFlat

/-- A declaration: its range, if it has one, and its names. -/
structure Declaration where
  range : Option (Nat × Nat)
  names : List Text
deriving DecidableEq, Repr

namespace Declaration

/-- Drops a kind word that white space or a bracket follows. -/
def dropKind (kind t : Text) : Text :=
  match Text.after? kind t with
  | some rest =>
    if rest.head?.any (fun c => Text.isBlank c || c == '[') then Text.trimStart rest else t
  | none => t

/-- The bounds between the brackets of a range. -/
def bounds? (t : Text) : Option (Nat × Nat) := do
  let (msb, lsb) ← Text.cut? ':' t
  let m ← Text.signedNumeral? Text.bound32 (Text.trim msb)
  let l ← Text.signedNumeral? Text.bound32 (Text.trim lsb)
  return (m, l)

/-- The range at the start, if there is one, and what follows it; `none` if it is malformed. -/
def splitRange? (t : Text) : Option (Option (Nat × Nat) × Text) :=
  match t with
  | '[' :: rest =>
    match Text.cut? ']' rest with
    | some (inside, after) => (bounds? inside).map fun b => (some b, Text.trimStart after)
    | none => none
  | _ => some (none, t)

/-- The text may stand in a list of names: escaped, or a word that starts with no digit. -/
def isName (t : Text) : Bool :=
  match t with
  | [] => false
  | c :: _ => c == '\\' || (t.all isWordChar && !c.isDigit)

/-- The pieces between commas that hold more than white space. -/
def listed (t : Text) : List Text := ((t.splitOn ',').map Text.trim).filter (· ≠ [])

/-- The declaration without the semicolon that may end it, and without white space around. -/
def body (t : Text) : Text :=
  let t := Text.trim t
  Text.trim ((Text.beforeLast? ';' t).getD t)

/-- Reads what follows the keyword of a declaration. -/
def read? (t : Text) : Option Declaration := do
  let rest := dropKind "reg".toList (dropKind "wire".toList (body t))
  let (range, rest) ← splitRange? rest
  let names := listed rest
  if names ≠ [] ∧ names.all isName then return ⟨range, names⟩ else none

/-- The number of bits of the range, as a number of 32 bits. -/
def width? (d : Declaration) : Option Nat :=
  d.range.map fun (msb, lsb) => (max msb lsb - min msb lsb + 1) % Text.bound32

end Declaration

end NetFlat
