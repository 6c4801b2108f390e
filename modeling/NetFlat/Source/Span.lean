/-!
# Spans

A span is a range of bytes of a numbered file. One file number is kept for spans that lie in no
file.
-/

namespace NetFlat

/-- The bytes from `start` to `stop` of the file numbered `file`. -/
structure Span where
  file : Nat
  start : Nat
  stop : Nat
deriving DecidableEq, Repr

namespace Span

/-- The number that stands for no file. -/
def noFile : Nat := 0xFFFFFFFF

/-- The span of what has no place in a file. -/
def nowhere : Span := ⟨noFile, 0, 0⟩

def isNowhere (s : Span) : Bool := s.file == noFile

def length (s : Span) : Nat := s.stop - s.start

def isEmpty (s : Span) : Bool := s.start == s.stop

/-- The least span of the first one's file around both. -/
def cover (s t : Span) : Span := ⟨s.file, min s.start t.start, max s.stop t.stop⟩

/-- The first span, so as to cover the second one too; it is left alone where one of them lies in no
file. -/
def reach (s t : Span) : Span := if s.isNowhere || t.isNowhere then s else s.cover t

/-- The least span around both, which must lie in one file. -/
def merge? (s t : Span) : Option Span := if s.file = t.file then some (s.cover t) else none

end Span

end NetFlat
