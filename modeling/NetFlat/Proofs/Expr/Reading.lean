import NetFlat.Expr.Basic
import NetFlat.Expr.Reading
import NetFlat.Proofs.Text.Trim

/-!
# Written expressions are read as formulas

The tokens of a written expression are those of its tree, and reading them comes to the value of the
tree: each operator that is written is read as the operator that it is, each literal as its bit, and
each name as the value of the signal.

* `Expr.tokens_display`: the tokens of a written expression;
* `Formula.operator?_symbol`, `Formula.atom?_literal`, `Formula.atom?_name`: what one token is;
* `Expr.value?_display`: the value that is read from a written expression.
-/

namespace NetFlat

/-- The value of an expression; `none` if a signal that it reads has none. -/
def Values.value? (v : Values) : Expr → Option Bool
  | .signal a => v.lookup a.name
  | .const b => some b
  | .not e => (value? v e).map (!·)
  | .binary op a b => (value? v a).bind fun x => (value? v b).map fun y => op.apply x y

namespace Expr

open Formula

/-- The name of a signal can be told from other tokens: it is made of letters, digits and five other
characters, and it is no literal. -/
structure WellNamed (a : Signal) : Prop where
  ne_nil : a.name ≠ []
  chars : ∀ c ∈ a.name, c.isAlphanum = true ∨ c ∈ ['_', '$', '.', '\'', '\\']
  ne_zero : a.name ≠ "1'b0".toList
  ne_one : a.name ≠ "1'b1".toList

variable {e : Expr} {a : Signal} {t u : Text} {ts : List Text} {s : List Pending} {v : Values}

theorem WellNamed.isNameChar (h : WellNamed a) : ∀ c ∈ a.name, isNameChar c = true := by
  intro c hc
  rcases h.chars c hc with halnum | hmark
  · simp [Formula.isNameChar, halnum]
  · have hmarks : ['_', '$', '.', '\'', '\\'].all Formula.isNameChar = true := by decide
    exact List.all_eq_true.mp hmarks c hmark

/-- The text does not start with a name character. -/
def Stops (t : Text) : Prop := ∀ c ∈ t.head?, isNameChar c = false

/-! ### Tokens -/

theorem tokens_sign {c : Char} (hn : isNameChar c = false) (hb : Text.isBlank c = false) :
    tokens (c :: t) = [c] :: tokens t := by
  simp [tokens, hn, hb]

theorem tokens_blank : tokens (' ' :: t) = tokens t := by
  simp [tokens, Formula.isNameChar, Text.isBlank]

theorem tokens_name (hne : u ≠ []) (hu : ∀ c ∈ u, isNameChar c = true) (ht : Stops t) :
    tokens (u ++ t) = u :: tokens t := by
  induction u with
  | nil => exact absurd rfl hne
  | cons c u ih =>
    have hc := hu c (by simp)
    rw [List.cons_append, tokens, if_pos hc]
    cases u with
    | nil =>
      cases t with
      | nil => rfl
      | cons d t =>
        have hd : isNameChar d = false := ht d (by simp)
        simp [hd]
    | cons d u =>
      have hd := hu d (by simp)
      rw [ih (by simp) fun d hd => hu d (by simp [hd])]
      simp [hd]

/-- Puts tokens into brackets if `e` is a binary expression. -/
def wrap (e : Expr) (ts : List Text) : List Text :=
  if e.isBinary then ['('] :: (ts ++ [[')']]) else ts

def written : Expr → List Text
  | signal a => [a.name]
  | const b => [literal b]
  | not e => ['~'] :: wrap e e.written
  | binary op a b => wrap a a.written ++ [op.symbol] :: wrap b b.written

theorem tokens_literal (b : Bool) (ht : Stops t) :
    tokens (literal b ++ t) = literal b :: tokens t := by
  refine tokens_name ?_ ?_ ht
  · cases b <;> decide
  · exact List.all_eq_true.mp (by cases b <;> decide)

theorem tokens_bracket (h : ∀ t, Stops t → tokens (e.display ++ t) = e.written ++ tokens t)
    (ht : Stops t) : tokens (e.bracket e.display ++ t) = e.wrap e.written ++ tokens t := by
  unfold bracket wrap
  split
  · have hs : Stops (')' :: t) := by
      intro c hc
      obtain rfl : ')' = c := by simpa using hc
      decide
    rw [List.append_assoc, List.cons_append, tokens_sign (by decide) (by decide),
      List.singleton_append, h _ hs, tokens_sign (by decide) (by decide)]
    simp
  · exact h t ht

theorem tokens_display (h : ∀ a ∈ e.reads, WellNamed a) (ht : Stops t) :
    tokens (e.display ++ t) = e.written ++ tokens t := by
  induction e generalizing t with
  | signal a =>
    have ha := h a (by simp [reads])
    simp only [display, written, Signal.display]
    split
    · have hs : Stops (' ' :: t) := by
        intro c hc
        obtain rfl : ' ' = c := by simpa using hc
        decide
      rw [List.append_assoc, List.singleton_append, tokens_name ha.ne_nil ha.isNameChar hs, tokens_blank]
      rfl
    · rw [tokens_name ha.ne_nil ha.isNameChar ht]
      rfl
  | const b => exact tokens_literal b ht
  | not e ih =>
    rw [display, List.cons_append, tokens_sign (by decide) (by decide),
      tokens_bracket (fun t ht => ih h ht) ht]
    rfl
  | binary op a b iha ihb =>
    simp only [reads, List.mem_append] at h
    have hs : Stops (' ' :: op.symbol :: ' ' :: (b.bracket b.display ++ t)) := by
      intro c hc
      obtain rfl : ' ' = c := by simpa using hc
      decide
    have hop : isNameChar op.symbol = false ∧ Text.isBlank op.symbol = false := by
      cases op <;> decide
    rw [display, List.append_assoc, List.cons_append, List.cons_append, List.cons_append,
      tokens_bracket (fun t ht => iha (fun x hx => h x (.inl hx)) ht) hs, tokens_blank,
      tokens_sign hop.1 hop.2, tokens_blank,
      tokens_bracket (fun t ht => ihb (fun x hx => h x (.inr hx)) ht) ht]
    simp [written]

end Expr

/-! ### Evaluation -/

namespace Formula

variable {s : List Pending} {ts : List Text} {v : Values} {b : Bool} {a : Signal}

def Closed : List Pending → Prop
  | [] => True
  | .bracket :: _ => True
  | _ => False

theorem settle_of_closed (h : Closed s) : settle b s = (b, s) := by
  match s, h with
  | [], _ => rfl
  | .bracket :: s, _ => rfl

/-- Evaluation goes on with an operand ended. -/
def runSettled (v : Values) (b : Bool) (s : List Pending) (ts : List Text) : Option Bool :=
  run v (some (settle b s).1) (settle b s).2 ts

theorem runSettled_of_closed (h : Closed s) : runSettled v b s ts = run v (some b) s ts := by
  rw [runSettled, settle_of_closed h]

theorem operator?_symbol (op : BinaryOp) : operator? [op.symbol] = some op.apply := by
  cases op <;> refine congrArg some (funext fun a => funext fun b => ?_) <;> cases a <;> rfl

theorem atom?_literal (v : Values) (b : Bool) : atom? v (Expr.literal b) = some b := by
  cases b <;> rfl

theorem atom?_name (h : Expr.WellNamed a) : atom? v a.name = v.lookup a.name := by
  rw [atom?, if_neg h.ne_zero, if_neg h.ne_one]

theorem run_atom {token : Text} (h₁ : token ≠ ['~']) (h₂ : token ≠ ['(']) :
    run v none s (token :: ts) = (atom? v token).bind fun b => runSettled v b s ts := by
  rw [run, if_neg h₁, if_neg h₂]
  cases atom? v token <;> rfl

theorem run_negation : run v none s (['~'] :: ts) = run v none (.negation :: s) ts := by
  simp [run]

theorem run_open : run v none s (['('] :: ts) = run v none (.bracket :: s) ts := by
  simp [run]

theorem run_close : run v (some b) (.bracket :: s) ([')'] :: ts) = runSettled v b s ts := by
  simp [run, runSettled, operator?]

theorem run_operator (op : BinaryOp) : run v (some b) s ([op.symbol] :: ts) =
    run v none (.operand op.apply b :: s) ts := by
  cases s <;> simp [run, operator?_symbol]

end Formula

namespace Expr

open Formula

/-- A name is neither of the signs that may start an operand. -/
theorem WellNamed.ne_sign (h : WellNamed a) {c : Char} (hc : Formula.isNameChar c = false) :
    a.name ≠ [c] := by
  intro e
  have := h.isNameChar c (by simp [e])
  simp [hc] at this

theorem run_wrap
    (hc : ∀ s ts, Closed s →
      run v none s (e.written ++ ts) = (v.value? e).bind fun b => run v (some b) s ts)
    (ho : ¬e.isBinary → ∀ s ts,
      run v none s (e.written ++ ts) = (v.value? e).bind fun b => runSettled v b s ts)
    (s : List Pending) (ts : List Text) :
    run v none s (e.wrap e.written ++ ts) = (v.value? e).bind fun b => runSettled v b s ts := by
  unfold wrap
  split
  · rw [List.cons_append, run_open, List.append_assoc, hc (.bracket :: s) _ trivial]
    simp only [List.singleton_append, run_close]
  · next hb => exact ho hb s ts

/-- Reading the tokens of a tree comes to its value: those of any tree where nothing waits for an
operand, and those of an operand anywhere. -/
theorem run_written (v : Values) (h : ∀ a ∈ e.reads, WellNamed a) :
    (∀ s ts, Closed s →
      run v none s (e.written ++ ts) = (v.value? e).bind fun b => run v (some b) s ts) ∧
    (¬e.isBinary → ∀ s ts,
      run v none s (e.written ++ ts) = (v.value? e).bind fun b => runSettled v b s ts) := by
  -- an operand that ends settles nothing where a bracket waits, so the first part follows
  have hclosed {e : Expr} (ho : ∀ s ts,
      run v none s (e.written ++ ts) = (v.value? e).bind fun b => runSettled v b s ts) :
      ∀ s ts, Closed s →
        run v none s (e.written ++ ts) = (v.value? e).bind fun b => run v (some b) s ts := by
    intro s ts hs
    simp only [ho, runSettled_of_closed hs]
  induction e with
  | signal a =>
    have ha := h a (by simp [reads])
    have ho (s : List Pending) (ts : List Text) : run v none s ((signal a).written ++ ts) =
        (v.lookup a.name).bind fun b => runSettled v b s ts := by
      rw [written, List.singleton_append, run_atom (ha.ne_sign (by decide))
        (ha.ne_sign (by decide)), atom?_name ha]
    exact ⟨hclosed ho, fun _ => ho⟩
  | const b =>
    have ho (s : List Pending) (ts : List Text) :
        run v none s ((const b).written ++ ts) = runSettled v b s ts := by
      rw [written, List.singleton_append, run_atom (by cases b <;> decide)
        (by cases b <;> decide), atom?_literal, Option.bind_some]
    exact ⟨hclosed ho, fun _ => ho⟩
  | not e ih =>
    obtain ⟨hc, ho⟩ := ih h
    have ho (s : List Pending) (ts : List Text) : run v none s ((not e).written ++ ts) =
        ((v.value? e).map (!·)).bind fun b => runSettled v b s ts := by
      rw [written, List.cons_append, run_negation, run_wrap hc ho, Option.bind_map]
      rfl
    exact ⟨hclosed ho, fun _ => ho⟩
  | binary op a b iha ihb =>
    simp only [reads, List.mem_append] at h
    obtain ⟨hca, hoa⟩ := iha fun x hx => h x (.inl hx)
    obtain ⟨hcb, hob⟩ := ihb fun x hx => h x (.inr hx)
    refine ⟨fun s ts hs => ?_, fun hb => absurd rfl hb⟩
    rw [written, List.append_assoc, run_wrap hca hoa, Values.value?]
    cases v.value? a with
    | none => rfl
    | some x =>
      rw [Option.bind_some, runSettled_of_closed hs, List.cons_append, run_operator,
        run_wrap hcb hob, Option.bind_some, Option.bind_map]
      rfl

/-- **The value of a written expression** is read from its text. -/
theorem value?_display (v : Values) (h : ∀ a ∈ e.reads, WellNamed a) :
    Formula.value? v e.display = v.value? e := by
  have ht := tokens_display (t := []) h (by simp [Stops])
  have hrun := (run_written v h).1 [] [] trivial
  rw [List.append_nil] at ht hrun
  rw [Formula.value?, ht, show tokens [] = [] from rfl, List.append_nil, hrun]
  cases v.value? e <;> rfl

end Expr

end NetFlat
