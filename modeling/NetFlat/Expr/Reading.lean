import NetFlat.Text.Basic

/-!
# Reading formulas

A formula is an expression as it is written. It is cut into tokens and evaluated from left to right
over values of names: operators join equally and to the left, a negation takes the operand behind
it, brackets group. What waits for an operand is kept on a stack. A token that is neither sign nor
literal is a name.
-/

namespace NetFlat

abbrev Values := List (Text × Bool)

namespace Values

def set (name : Text) (value : Bool) : Values → Values
  | [] => [(name, value)]
  | (n, v) :: l => if n = name then (name, value) :: l else (n, v) :: set name value l

theorem lookup_set (v : Values) (name other : Text) (value : Bool) :
    (v.set name value).lookup other = if other = name then some value else v.lookup other := by
  induction v with
  | nil => simp only [set, List.lookup_cons, List.lookup_nil]; split <;> simp_all
  | cons p v ih =>
    obtain ⟨n, b⟩ := p
    simp only [set]
    split
    · next h => subst h; simp only [List.lookup_cons]; split <;> simp_all
    · next h =>
      simp only [List.lookup_cons, ih]
      split
      · next e => simp_all
      · rfl

end Values

namespace Formula

/-! ## Tokens -/

def isNameChar (c : Char) : Bool :=
  c.isAlphanum || c == '_' || c == '$' || c == '\\' || c == '.' || c == '\''

/-- The tokens of a text: the longest runs of name characters, and each other character that is no
white space by itself. -/
def tokens : Text → List Text
  | [] => []
  | c :: t =>
    if isNameChar c then
      match t.head?.any isNameChar, tokens t with
      | true, name :: rest => (c :: name) :: rest
      | _, rest => [c] :: rest
    else if Text.isBlank c then tokens t
    else [c] :: tokens t

/-! ## Evaluation -/

/-- What waits for an operand. -/
inductive Pending where
  | negation
  | bracket
  | operand (op : Bool → Bool → Bool) (left : Bool)

def operator? (token : Text) : Option (Bool → Bool → Bool) :=
  if token = ['&'] then some fun a b => a && b
  else if token = ['|'] then some fun a b => a || b
  else if token = ['^'] then some fun a b => a != b
  else none

/-- The value of an operand that is one token; none for a name without value. -/
def atom? (v : Values) (token : Text) : Option Bool :=
  if token = "1'b0".toList then some false
  else if token = "1'b1".toList then some true
  else v.lookup token

/-- Hands an operand to the negations and the operator that wait for it. -/
def settle (b : Bool) : List Pending → Bool × List Pending
  | .negation :: s => settle (!b) s
  | .operand op a :: s => (op a b, s)
  | s => (b, s)

/-- Evaluates on with the stack of what waits; `b?` is the value so far, if an operand has just
ended. -/
def run (v : Values) : Option Bool → List Pending → List Text → Option Bool
  | some b, [], [] => some b
  | _, _, [] => none
  | none, s, t :: ts =>
    if t = ['~'] then run v none (.negation :: s) ts
    else if t = ['('] then run v none (.bracket :: s) ts
    else
      match atom? v t with
      | none => none
      | some b =>
        let r := settle b s
        run v (some r.1) r.2 ts
  | some b, s, t :: ts =>
    match operator? t with
    | some op => run v none (.operand op b :: s) ts
    | none =>
      match s with
      | .bracket :: s =>
        if t = [')'] then
          let r := settle b s
          run v (some r.1) r.2 ts
        else none
      | _ => none

/-- The value of a formula, read to its end; none if it is malformed or reads a name without
value. -/
def value? (v : Values) (t : Text) : Option Bool := run v none [] (tokens t)

end Formula

end NetFlat
