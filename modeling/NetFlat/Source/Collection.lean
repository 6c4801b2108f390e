import NetFlat.Source.File

/-!
# Collections of source files

Files are numbered in the order in which they were added. A span resolves to the path of its file
and the positions of its first and its last byte.
-/

namespace NetFlat

/-- The files of a run, each at the place of its number. -/
structure Sources where
  files : List SourceFile := []

/-- A span as a path and two positions. -/
structure Place where
  path : String
  first : Nat × Nat
  last : Nat × Nat

/-- The path and the first position, as messages show a place. -/
def Place.display (p : Place) : String := s!"{p.path}:{p.first.1}:{p.first.2}"

namespace Sources

def add (s : Sources) (path : String) (content : Text) : Sources :=
  ⟨s.files ++ [⟨s.files.length, path, content⟩]⟩

/-- The collection of one file, which gets the number zero. -/
def single (path : String) (content : Text) : Sources := ⟨[⟨0, path, content⟩]⟩

def file? (s : Sources) (id : Nat) : Option SourceFile := s.files[id]?

/-- The place of a span; `none` if its file is not in the collection. -/
def resolve? (s : Sources) (span : Span) : Option Place :=
  (s.file? span.file).map fun f =>
    ⟨f.path, f.position span.start, f.position (max (span.stop - 1) span.start)⟩

def snippet? (s : Sources) (span : Span) : Option Text :=
  (s.file? span.file).bind (·.snippet? span.start span.stop)

end Sources

end NetFlat
