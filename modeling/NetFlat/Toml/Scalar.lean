import NetFlat.Text.Decimal
import NetFlat.Toml.Value

/-!
# TOML scalars

Strings in their four forms, integers in their four bases, numbers with a fraction, dates and
truth values. Readers yield what they read and the text behind it.
-/

namespace NetFlat.Toml

def isSpace (c : Char) : Bool := c == ' ' || c == '\t'

/-- A character that may stand in comments and strings. -/
def isPlain (c : Char) : Bool := c == '\t' || (' ' ≤ c && c != '\x7f')

/-! ## Strings -/

def hexDigit? (c : Char) : Option Nat :=
  if c.isDigit then some (c.toNat - '0'.toNat)
  else if 'a' ≤ c && c ≤ 'f' then some (c.toNat - 'a'.toNat + 10)
  else if 'A' ≤ c && c ≤ 'F' then some (c.toNat - 'A'.toNat + 10)
  else none

/-- The character with the hexadecimal code. -/
def charOfHex? (digits : Text) : Option Char := do
  let n ← digits.foldlM (fun n c => (hexDigit? c).map (16 * n + ·)) 0
  if n.isValidChar then some (Char.ofNat n) else none

/-- The character that stands behind a backslash for another one. -/
def shortEscape? (c : Char) : Option Char :=
  [('b', '\x08'), ('t', '\t'), ('n', '\n'), ('f', '\x0c'), ('r', '\r'), ('"', '"'),
    ('\\', '\\')].lookup c

def basic? : Text → Option (Text × Text)
  | [] => none
  | '"' :: t => some ([], t)
  | '\\' :: 'u' :: a :: b :: c :: d :: t => do
    let e ← charOfHex? [a, b, c, d]
    let (s, r) ← basic? t
    return (e :: s, r)
  | '\\' :: 'U' :: a :: b :: c :: d :: e :: f :: g :: h :: t => do
    let e ← charOfHex? [a, b, c, d, e, f, g, h]
    let (s, r) ← basic? t
    return (e :: s, r)
  | '\\' :: c :: t => do
    let e ← shortEscape? c
    let (s, r) ← basic? t
    return (e :: s, r)
  | c :: t => if isPlain c && c != '\\' then (basic? t).map fun p => (c :: p.1, p.2) else none

def literal? : Text → Option (Text × Text)
  | [] => none
  | '\'' :: t => some ([], t)
  | c :: t => if isPlain c then (literal? t).map fun p => (c :: p.1, p.2) else none

/-- The end of a string of several lines, behind the first of its closing quotes: two more quotes
close it, and up to two quotes before those belong to it. -/
def closing? (quote : Char) (t : Text) : Option (Text × Text) :=
  match t with
  | a :: b :: r =>
    if a = quote ∧ b = quote then
      match r with
      | c :: d :: s =>
        if c = quote ∧ d = quote then some ([quote, quote], s)
        else if c = quote then some ([quote], d :: s)
        else some ([], r)
      | [c] => if c = quote then some ([quote], []) else some ([], r)
      | [] => some ([], [])
    else none
  | _ => none

/-- White space up to the end of the line stands here. -/
def endsLine (t : Text) : Bool :=
  match t.dropWhile isSpace with
  | '\n' :: _ => true
  | '\r' :: '\n' :: _ => true
  | _ => false

def startsGap (t : Text) : Bool :=
  match t with
  | '\r' :: '\n' :: _ => true
  | c :: _ => isSpace c || c == '\n'
  | [] => false

/-- The rest of a basic string of several lines; `joined` while the white space behind a backslash
at a line end is dropped. Line ends become line feeds. -/
def longBasic? (joined : Bool) : Text → Option (Text × Text)
  | [] => none
  | c :: t =>
    if joined && startsGap (c :: t) then longBasic? true t
    else if c = '"' then
      match closing? '"' t with
      | some r => some r
      | none => (longBasic? false t).map fun p => (c :: p.1, p.2)
    else if c = '\\' then
      if endsLine t then longBasic? true t
      else
        match t with
        | 'u' :: a :: b :: c :: d :: t => do
          let e ← charOfHex? [a, b, c, d]
          let (s, r) ← longBasic? false t
          return (e :: s, r)
        | 'U' :: a :: b :: c :: d :: e :: f :: g :: h :: t => do
          let e ← charOfHex? [a, b, c, d, e, f, g, h]
          let (s, r) ← longBasic? false t
          return (e :: s, r)
        | c :: t => do
          let e ← shortEscape? c
          let (s, r) ← longBasic? false t
          return (e :: s, r)
        | [] => none
    else if c = '\r' then if t.head? = some '\n' then longBasic? false t else none
    else if isPlain c || c == '\n' then (longBasic? false t).map fun p => (c :: p.1, p.2)
    else none

/-- The rest of a literal string of several lines. Line ends become line feeds. -/
def longLiteral? : Text → Option (Text × Text)
  | [] => none
  | c :: t =>
    match if c = '\'' then closing? '\'' t else none with
    | some r => some r
    | none =>
      if c = '\r' then if t.head? = some '\n' then longLiteral? t else none
      else if isPlain c || c == '\n' then (longLiteral? t).map fun p => (c :: p.1, p.2)
      else none

def dropLineEnd (t : Text) : Text :=
  match t with
  | '\n' :: r => r
  | '\r' :: '\n' :: r => r
  | _ => t

def string? (t : Text) : Option (Text × Text) :=
  match t with
  | '"' :: '"' :: '"' :: r => longBasic? false (dropLineEnd r)
  | '"' :: r => basic? r
  | '\'' :: '\'' :: '\'' :: r => longLiteral? (dropLineEnd r)
  | '\'' :: r => literal? r
  | _ => none

/-! ## Numbers and dates -/

/-- Digits with single underscores between them, without the underscores. -/
def digits? (ok : Char → Bool) (t : Text) : Option Text :=
  let parts := t.splitOn '_'
  if parts.all fun p => p ≠ [] && p.all ok then some parts.flatten else none

def decimalDigits? (t : Text) : Option Text := do
  let ds ← digits? Char.isDigit t
  if ds.length > 1 && ds.head? = some '0' then none else some ds

/-- The text behind an optional sign, and whether the sign is a minus. -/
def splitSign (t : Text) : Bool × Text :=
  match t with
  | '+' :: r => (false, r)
  | '-' :: r => (true, r)
  | _ => (false, t)

/-- A number in the base that a digit after a zero names. -/
def based? (t : Text) : Option Nat :=
  let read := fun (base : Nat) (r : Text) => do
    let ds ← digits? (fun c => (hexDigit? c).any (· < base)) r
    ds.foldlM (fun n c => (hexDigit? c).map (base * n + ·)) 0
  match t with
  | '0' :: 'x' :: r => read 16 r
  | '0' :: 'o' :: r => read 8 r
  | '0' :: 'b' :: r => read 2 r
  | _ => none

def integer? (t : Text) : Option Int := do
  let n : Int ← match based? t with
    | some n => some n
    | none =>
      let (minus, r) := splitSign t
      (decimalDigits? r).map fun ds =>
        let n : Int := Nat.ofDigitChars 10 ds 0
        if minus then -n else n
  if -0x8000000000000000 ≤ n && n < 0x8000000000000000 then some n else none

/-- The exponent behind a letter; zero without one. -/
def exponent? (t : Text) : Option Int :=
  match t with
  | [] => some 0
  | _ :: t =>
    let (minus, r) := splitSign t
    (digits? Char.isDigit r).map fun ds =>
      let n : Int := Nat.ofDigitChars 10 ds 0
      if minus then -n else n

/-- A number with a fraction or an exponent, without its sign. -/
def decimal? (t : Text) : Option Decimal := do
  let mantissa := t.takeWhile fun c => c != 'e' && c != 'E'
  let scale := t.drop mantissa.length
  let exponent ← exponent? scale
  match Text.cut? '.' mantissa with
  | some (whole, fraction) =>
    let whole ← decimalDigits? whole
    let fraction ← digits? Char.isDigit fraction
    return ⟨Nat.ofDigitChars 10 (whole ++ fraction) 0, exponent - fraction.length⟩
  | none =>
    let whole ← decimalDigits? mantissa
    if scale = [] then none else return ⟨Nat.ofDigitChars 10 whole 0, exponent⟩

/-- A number with a fraction or an exponent, or one of the words for no such number. A positive one
must not be too large. -/
def isFloat (t : Text) : Bool :=
  let (minus, t) := splitSign t
  if t = "inf".toList ∨ t = "nan".toList then true
  else (decimal? t).any fun d => minus || !d.roundsToInfinity

/-- Digits of the given number with a value between two bounds. -/
def isField (length low high : Nat) (t : Text) : Bool :=
  t.length == length && t.all Char.isDigit &&
    low ≤ Nat.ofDigitChars 10 t 0 && Nat.ofDigitChars 10 t 0 ≤ high

def daysOf (year month : Nat) : Nat :=
  if month = 2 then
    if year % 4 = 0 && (year % 100 ≠ 0 || year % 400 = 0) then 29 else 28
  else if month ∈ [4, 6, 9, 11] then 30
  else 31

def isDate (t : Text) : Bool :=
  match t.splitOn '-' with
  | [y, m, d] =>
    isField 4 0 9999 y && isField 2 1 12 m &&
      isField 2 1 (daysOf (Nat.ofDigitChars 10 y 0) (Nat.ofDigitChars 10 m 0)) d
  | _ => false

/-- A time of day: hour, minute, second, and a fraction of a second. -/
def isTime (t : Text) : Bool :=
  match t.splitOn ':' with
  | [h, m, s] =>
    let (whole, fractionOk) := match Text.cut? '.' s with
      | some (whole, fraction) => (whole, Text.isDigits fraction)
      | none => (s, true)
    isField 2 0 23 h && isField 2 0 59 m && isField 2 0 60 whole && fractionOk
  | _ => false

/-- A time of day with the distance from universal time that may follow it. -/
def isZonedTime (t : Text) : Bool :=
  let clock := t.takeWhile fun c => c.isDigit || c == ':' || c == '.'
  let zoneOk := match t.drop clock.length with
    | [] => true
    | ['Z'] => true
    | ['z'] => true
    | c :: r =>
      (c == '+' || c == '-') &&
        match r.splitOn ':' with
        | [h, m] => isField 2 0 23 h && isField 2 0 59 m
        | _ => false
  isTime clock && zoneOk

/-- A date, a time of day, or both with a letter or a blank between them. -/
def isMoment (t : Text) : Bool :=
  isDate t || isTime t ||
    (isDate (t.take 10) &&
      match t.drop 10 with
      | c :: r => (c == 'T' || c == 't' || c == ' ') && isZonedTime r
      | [] => false)

/-- A character of a number, a date or a truth value. -/
def isTokenChar (c : Char) : Bool :=
  c.isAlphanum || c == '_' || c == '+' || c == '-' || c == '.' || c == ':'

/-- The token at the start; a date takes the time behind a blank along. -/
def token (t : Text) : Text :=
  let first := t.takeWhile isTokenChar
  match t.drop first.length with
  | ' ' :: c :: r =>
    if isDate first && c.isDigit then first ++ ' ' :: (c :: r).takeWhile isTokenChar else first
  | _ => first

def plain? (t : Text) : Option (Value × Text) :=
  let w := token t
  let v := if w = "true".toList then some (.boolean true)
    else if w = "false".toList then some (.boolean false)
    else match integer? w with
      | some n => some (.integer n)
      | none =>
        if isFloat w then some (.float w) else if isMoment w then some (.moment w) else none
  v.map fun v => (v, t.drop w.length)

end NetFlat.Toml
