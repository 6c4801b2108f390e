import NetFlat.Toml.Scalar

/-!
# TOML documents

A document is a row of statements, each on lines of its own: key and value, the header of a table,
or the header of a further table of an array. Keys have a bounded number of parts, and arrays and
inline tables are nested to a bounded depth. Recursion into values is bounded by a number that the
length of the text provides.
-/

namespace NetFlat.Toml

/-! ## Gaps -/

def dropSpace (t : Text) : Text := t.dropWhile isSpace

/-- Drops white space, line ends and comments. -/
def dropGap? (comment : Bool) : Text → Option Text
  | [] => some []
  | c :: t =>
    if c = '\n' then dropGap? false t
    else if c = '\r' then if t.head? = some '\n' then dropGap? comment t else none
    else if comment then if isPlain c then dropGap? true t else none
    else if isSpace c then dropGap? false t
    else if c = '#' then dropGap? true t
    else some (c :: t)

/-- Drops white space and a comment up to the end of the line, and the line end. -/
def dropLine? (t : Text) : Option Text :=
  let t := dropSpace t
  let t := match t with
    | '#' :: r => r.dropWhile isPlain
    | _ => t
  match t with
  | [] => some []
  | '\n' :: r => some r
  | '\r' :: '\n' :: r => some r
  | _ => none

/-! ## Keys -/

def isBareChar (c : Char) : Bool := c.isAlphanum || c == '_' || c == '-'

/-- A key without dots: a string on one line, or a bare key. -/
def simpleKey? (t : Text) : Option (Text × Text) :=
  match t with
  | '"' :: r => basic? r
  | '\'' :: r => literal? r
  | _ =>
    let key := t.takeWhile isBareChar
    if key = [] then none else some (key, t.drop key.length)

/-- The largest number of parts of a dotted key. -/
def maxParts : Nat := 79

/-- The keys between dots, at most `n` of them, and the text behind them without white space. -/
def keys? : Nat → Text → Option (List Text × Text)
  | 0, _ => none
  | n + 1, t => do
    let (key, r) ← simpleKey? (dropSpace t)
    match dropSpace r with
    | '.' :: r => (keys? n r).map fun p => (key :: p.1, p.2)
    | r => some ([key], r)

/-! ## Values -/

/-- The largest depth to which arrays and inline tables are nested. -/
def maxDepth : Nat := 79

mutual

/-- A value in which arrays and inline tables are nested to the given depth at most. -/
def value? : Nat → Nat → Text → Option (Value × Text)
  | 0, _, _ => none
  | n + 1, depth, t =>
    match t, depth with
    | '"' :: _, _ => (string? t).map fun p => (.string p.1, p.2)
    | '\'' :: _, _ => (string? t).map fun p => (.string p.1, p.2)
    | '[' :: _, 0 => none
    | '[' :: r, depth + 1 => (items? n depth r).map fun p => (.array false p.1, p.2)
    | '{' :: _, 0 => none
    | '{' :: r, depth + 1 =>
      match dropSpace r with
      | '}' :: r => some (.table .inline [], r)
      | r => (pairs? n depth [] r).map fun p => (.table .inline p.1, p.2)
    | _, _ => plain? t

/-- The items of an array up to its closing bracket. -/
def items? : Nat → Nat → Text → Option (List Value × Text)
  | 0, _, _ => none
  | n + 1, depth, t => do
    match ← dropGap? false t with
    | ']' :: r => some ([], r)
    | t =>
      let (v, r) ← value? n depth t
      match ← dropGap? false r with
      | ',' :: r => (items? n depth r).map fun p => (v :: p.1, p.2)
      | ']' :: r => some ([v], r)
      | _ => none

/-- The entries of an inline table up to its closing brace, added to `es`. -/
def pairs? : Nat → Nat → Entries → Text → Option (Entries × Text)
  | 0, _, _, _ => none
  | n + 1, depth, es, t => do
    let (keys, r) ← keys? maxParts t
    match r with
    | '=' :: r =>
      let (v, r) ← value? n depth (dropSpace r)
      let es ← es.addDotted? v keys
      match dropSpace r with
      | ',' :: r => pairs? n depth es r
      | '}' :: r => some (es, r)
      | _ => none
    | _ => none

end

/-! ## Statements -/

/-- A document as far as it was read: the root table, and the keys of the header that later pairs
stand under. -/
structure Document where
  root : Entries := []
  header : List Text := []

/-- A header between brackets; it opens a table with `open?`. -/
def header? (open? : Text → Entries → Option Entries) (close : Text) (d : Document) (t : Text) :
    Option (Document × Text) := do
  let (keys, r) ← keys? maxParts t
  let last ← keys.getLast?
  let root ← d.root.changeAt? (open? last) keys.dropLast
  let r ← Text.after? close r
  return (⟨root, keys⟩, ← dropLine? r)

def pair? (d : Document) (t : Text) : Option (Document × Text) := do
  let (keys, r) ← keys? maxParts t
  let r ← Text.after? ['='] r
  let (v, r) ← value? (2 * t.length) maxDepth (dropSpace r)
  let root ← d.root.changeAt? (Entries.addDotted? v keys) d.header
  return (⟨root, d.header⟩, ← dropLine? r)

def statement? (d : Document) (t : Text) : Option (Document × Text) :=
  match t with
  | '[' :: '[' :: r => header? Entries.openItem? [']', ']'] d r
  | '[' :: r => header? Entries.openTable? [']'] d r
  | _ => pair? d t

/-- At most `n` statements up to the end of the text. -/
def statements? : Nat → Document → Text → Option Document
  | n, d, t => do
    match ← dropGap? false t with
    | [] => some d
    | t =>
      match n with
      | 0 => none
      | n + 1 =>
        let (d, t) ← statement? d t
        statements? n d t

/-- Reads a document; a byte order mark in front does not count. -/
def read? (t : Text) : Option Entries :=
  let t := (Text.after? ['\ufeff'] t).getD t
  (statements? t.length {} t).map (·.root)

end NetFlat.Toml
