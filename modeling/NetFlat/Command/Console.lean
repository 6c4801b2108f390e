import NetFlat.Log
import NetFlat.Text.Basic

/-!
# The console

What a run writes to standard output and standard error, and how it ends.
-/

namespace NetFlat.Command

/-- The texts written so far. -/
structure Console where
  out : String := ""
  err : String := ""
deriving DecidableEq, Repr

namespace Console

def print (c : Console) (s : String) : Console := { c with out := c.out ++ s }

def tell (c : Console) (s : String) : Console := { c with err := c.err ++ s }

def say (c : Console) (s : String) : Console := c.tell (s ++ "\n")

/-- Writes a line to standard error if a condition holds. -/
def sayIf (c : Console) (b : Bool) (s : String) : Console := if b then c.say s else c

/-- Writes log entries as a logger has them. -/
def log (c : Console) (logger : LogEntry → String) (entries : List LogEntry) : Console :=
  entries.foldl (fun c e => c.tell (logger e)) c

end Console

end NetFlat.Command
