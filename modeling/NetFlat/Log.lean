import NetFlat.Text.Printable

/-!
# Log entries

What a run tells of its progress: a level, the part of the program that speaks, and a message. An
entry is written on a line of its own, further lines of the message are indented, and only what is
printable of it is written.
-/

namespace NetFlat

/-- How important an entry is, the most important first. -/
inductive LogLevel where
  | error | warn | info | debug
deriving DecidableEq, Repr

def LogLevel.rank : LogLevel → Nat
  | .error => 0
  | .warn => 1
  | .info => 2
  | .debug => 3

/-- The name of the level, filled up to five characters. -/
def LogLevel.padded : LogLevel → String
  | .error => "ERROR"
  | .warn => "WARN "
  | .info => "INFO "
  | .debug => "DEBUG"

/-- An entry of the log. -/
structure LogEntry where
  level : LogLevel
  target : String
  message : String
deriving DecidableEq, Repr

/-- The message with its further lines indented. -/
def LogEntry.indented (e : LogEntry) : Text :=
  e.message.toList.flatMap fun c => if c = '\n' then "\n    ".toList else [c]

/-- The entry as it is written, the end of its line included. -/
def LogEntry.written (e : LogEntry) : String :=
  String.ofList <| Text.printable <|
    s!"[{e.level.padded} {e.target}] ".toList ++ e.indented ++ ['\n']

end NetFlat
