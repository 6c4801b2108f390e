import NetFlat.Signal

/-!
# Expressions

Expressions over signals with negation and three binary operators, their value under a valuation
of the signals, and their written form: operands that are binary expressions stand in brackets.
-/

namespace NetFlat

/-- A binary operator. -/
inductive BinaryOp where
  | and | or | xor
deriving DecidableEq, Repr

namespace BinaryOp

def symbol : BinaryOp → Char
  | .and => '&'
  | .or => '|'
  | .xor => '^'

def apply : BinaryOp → Bool → Bool → Bool
  | .and, a, b => a && b
  | .or, a, b => a || b
  | .xor, a, b => a ^^ b

end BinaryOp

/-- An expression over signals. -/
inductive Expr where
  | signal (s : Signal)
  | const (value : Bool)
  | not (e : Expr)
  | binary (op : BinaryOp) (a b : Expr)
deriving DecidableEq, Repr

namespace Expr

def eval (v : Signal → Bool) : Expr → Bool
  | signal s => v s
  | const value => value
  | not e => !e.eval v
  | binary op a b => op.apply (a.eval v) (b.eval v)

/-- The signals read, from left to right, each as often as it is read. -/
def reads : Expr → List Signal
  | signal s => [s]
  | const _ => []
  | not e => e.reads
  | binary _ a b => a.reads ++ b.reads

def literal (value : Bool) : Text := if value then "1'b1".toList else "1'b0".toList

def isBinary : Expr → Bool
  | binary .. => true
  | _ => false

/-- Puts `t` into brackets if `e` is a binary expression. -/
def bracket (e : Expr) (t : Text) : Text := if e.isBinary then '(' :: t ++ [')'] else t

def display : Expr → Text
  | signal s => s.display
  | const value => literal value
  | not e => '~' :: bracket e e.display
  | binary op a b => bracket a a.display ++ ' ' :: op.symbol :: ' ' :: bracket b b.display

theorem eval_congr {v w : Signal → Bool} {e : Expr} (h : ∀ s ∈ e.reads, v s = w s) :
    e.eval v = e.eval w := by
  induction e with
  | signal s => exact h s (by simp [reads])
  | const value => rfl
  | not e ih => simp only [eval, ih h]
  | binary op a b iha ihb =>
    simp only [reads, List.mem_append] at h
    simp only [eval, iha fun s hs => h s (.inl hs), ihb fun s hs => h s (.inr hs)]

end Expr

/-- A signal driven by an expression. -/
structure Assignment where
  target : Signal
  expr : Expr
deriving DecidableEq, Repr

namespace Assignment

def display (a : Assignment) : Text :=
  "assign ".toList ++ a.target.display ++ " = ".toList ++ a.expr.display ++ [';']

/-- The valuation gives the target the value of the expression. -/
def Holds (v : Signal → Bool) (a : Assignment) : Prop := v a.target = a.expr.eval v

instance (v : Signal → Bool) (a : Assignment) : Decidable (a.Holds v) :=
  inferInstanceAs (Decidable (_ = _))

end Assignment

end NetFlat
