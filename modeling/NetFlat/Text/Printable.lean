import NetFlat.Text.Basic

/-!
# What is printable of a text

A text that goes to a place without colours is freed of what steers a terminal: control characters
other than white space, and control sequences, which an escape character opens. How far a sequence
reaches is decided byte by byte on the UTF-8 form, as terminals do.
-/

namespace NetFlat.Text

/-- Where a text stands: outside of control sequences, behind an escape character, behind it and
an intermediate byte, in a sequence with parameters, in the parts of a device command, in a string
that a string terminator ends, or in a title, which a bell ends. -/
inductive Control where
  | plain | escape | intermediate | parameters | deviceStart | deviceParameters
  | deviceIntermediate | string | title
deriving DecidableEq, Repr

namespace Control

/-- The byte lies between two others or is one of them. -/
def within (low high byte : Nat) : Bool := low ≤ byte && byte ≤ high

/-- What the byte behind an escape character leads to. -/
def opened (byte : Nat) : Control :=
  if within 0x20 0x2F byte then intermediate
  else if byte = 0x50 then deviceStart
  else if byte = 0x58 ∨ byte = 0x5E ∨ byte = 0x5F then string
  else if byte = 0x5B then parameters
  else if byte = 0x5D then title
  else if within 0x30 0x7E byte then plain
  else escape

/-- What a byte in front of the string of a device command leads to; `s` is where it stands. -/
def device (s : Control) (byte : Nat) : Control :=
  if within 0x40 0x7E byte then string
  else if within 0x20 0x2F byte then deviceIntermediate
  else if within 0x30 0x3B byte then deviceParameters
  else if within 0x3C 0x3F byte then if s = deviceStart then deviceParameters else string
  else s

/-- Where the text stands behind a byte. Two bytes cancel a sequence, and an escape character opens
a new one. -/
def next (s : Control) (byte : Nat) : Control :=
  if byte = 0x18 ∨ byte = 0x1A then plain
  else if byte = 0x1B then escape
  else match s with
    | plain => plain
    | escape => opened byte
    | intermediate => if within 0x30 0x7E byte then plain else intermediate
    | parameters => if within 0x40 0x7E byte then plain else parameters
    | deviceStart => deviceStart.device byte
    | deviceParameters => deviceParameters.device byte
    | deviceIntermediate => if within 0x30 0x7E byte then string else deviceIntermediate
    | string => if byte = 0x9C then plain else string
    | title => if byte = 0x07 then plain else title

/-- Where the text stands behind a character. -/
def after (s : Control) (c : Char) : Control :=
  (String.utf8EncodeChar c).foldl (fun s byte => s.next byte.toNat) s

def breaks (c : Char) : Bool := isAsciiBlank c && c != ' '

def shows (s : Control) (c : Char) : Bool :=
  match s with
  | plain => breaks c || (' ' ≤ c && c != '\x7f')
  | escape | intermediate | parameters => breaks c
  | _ => false

end Control

/-- The printable part of a text behind what led to `s`. After white space broke a sequence off,
`broken`, text is printed up to the next control character, which takes the sequence up again; a
character outside of ASCII ends it. -/
def printableFrom (s : Control) (broken : Bool) : Text → Text
  | [] => []
  | c :: t =>
    if (if broken then .plain else s).shows c then
      c :: printableFrom (if c.toNat < 128 then s else .plain) true t
    else printableFrom (s.after c) false t

def printable (t : Text) : Text := printableFrom .plain false t

end NetFlat.Text
