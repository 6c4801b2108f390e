import NetFlat.Source.File

/-!
# The lines of a file in order

The lines of a file are numbered from one on without a gap, and each of them starts behind the end
of the line before it.

* `Line.InOrder`, `SourceFile.inOrder_lines`: the order of the lines;
* `SourceFile.line?_eq_some_iff`: finding a line by its number.
-/

namespace NetFlat

/-! ### Rows of lines -/

/-- A row of lines in the order in which they stand in a file. -/
structure Line.InOrder (ls : List Line) : Prop where
  numbers : ls.Pairwise fun l m => l.number < m.number
  apart : ls.Pairwise fun l m => l.span.stop < m.span.start
  start_le_stop : ∀ l ∈ ls, l.span.start ≤ l.span.stop

theorem Line.InOrder.sublist {ls ms : List Line} (h : InOrder ls) (hs : ms.Sublist ls) :
    InOrder ms :=
  ⟨h.numbers.sublist hs, h.apart.sublist hs, fun l hl => h.start_le_stop l (hs.subset hl)⟩

/-- A line starts in front of the end of each line that stands behind it. -/
theorem Line.InOrder.start_lt {ls ms : List Line} (h : InOrder (ls ++ ms)) {l m : Line}
    (hl : l ∈ ls) (hm : m ∈ ms) : l.span.start < m.span.start :=
  Nat.lt_of_le_of_lt (h.start_le_stop l (List.mem_append_left _ hl))
    ((List.pairwise_append.mp h.apart).2.2 l hl m hm)

namespace SourceFile

/-! ### Numbered lines -/

theorem byteSize_dropReturn_le (t : Text) : Text.byteSize (dropReturn t) ≤ Text.byteSize t := by
  unfold dropReturn
  cases h : Text.beforeLast? '\r' t with
  | none => exact Nat.le_refl _
  | some s =>
    rw [Text.beforeLast?_eq_some_iff.mp h, Text.byteSize_append]
    exact Nat.le_add_right _ _

section number

variable {id n start : Nat} {ts : List Text} {l : Line}

theorem length_number : (number id n start ts).length = ts.length := by
  induction ts generalizing n start with
  | nil => rfl
  | cons t ts ih => simp [number, ih]

theorem number_of_getElem? {i : Nat} (h : (number id n start ts)[i]? = some l) :
    l.number = n + i := by
  induction ts generalizing n start i with
  | nil => simp [number] at h
  | cons t ts ih =>
    cases i with
    | zero =>
      obtain rfl := Option.some.inj h
      rfl
    | succ i =>
      rw [ih h]
      omega

theorem span_of_mem_number (h : l ∈ number id n start ts) :
    l.span.file = id ∧ start ≤ l.span.start ∧ l.span.start ≤ l.span.stop := by
  induction ts generalizing n start with
  | nil => simp [number] at h
  | cons t ts ih =>
    rcases List.mem_cons.mp h with rfl | h
    · exact ⟨rfl, Nat.le_refl _, Nat.le_add_right _ _⟩
    · obtain ⟨hid, hstart, hstop⟩ := ih h
      exact ⟨hid, by omega, hstop⟩

theorem inOrder_number (id n start : Nat) (ts : List Text) :
    Line.InOrder (number id n start ts) := by
  refine ⟨?_, ?_, fun l hl => (span_of_mem_number hl).2.2⟩
  · refine List.pairwise_iff_getElem.mpr fun i j hi hj hij => ?_
    rw [number_of_getElem? (List.getElem?_eq_getElem hi),
      number_of_getElem? (List.getElem?_eq_getElem hj)]
    omega
  · induction ts generalizing n start with
    | nil => exact .nil
    | cons t ts ih =>
      refine List.pairwise_cons.mpr ⟨fun m hm => ?_, ih (n + 1) _⟩
      have hstart := (span_of_mem_number hm).2.1
      have hsize := byteSize_dropReturn_le t
      show start + Text.byteSize (dropReturn t) < m.span.start
      omega

end number

/-! ### The lines of a file -/

variable {file : SourceFile} {l : Line} {n : Nat}

theorem length_lines (file : SourceFile) : file.lines.length = file.lineCount := length_number

theorem inOrder_lines (file : SourceFile) : Line.InOrder file.lines := inOrder_number _ _ _ _

theorem file_of_mem_lines (h : l ∈ file.lines) : l.span.file = file.id := (span_of_mem_number h).1

theorem line?_eq_some_iff : file.line? n = some l ↔ l ∈ file.lines ∧ l.number = n := by
  unfold line?
  constructor
  · intro h
    split at h
    · simp at h
    · refine ⟨List.mem_of_getElem? h, ?_⟩
      rw [number_of_getElem? h]
      omega
  · rintro ⟨hl, rfl⟩
    obtain ⟨i, hi⟩ := List.mem_iff_getElem?.mp hl
    rw [number_of_getElem? hi, if_neg (by omega), Nat.add_sub_cancel_left]
    exact hi

theorem number_of_mem_lines (h : l ∈ file.lines) : 1 ≤ l.number ∧ l.number ≤ file.lineCount := by
  obtain ⟨i, hi⟩ := List.mem_iff_getElem?.mp h
  have hlen := (List.getElem?_eq_some_iff.mp hi).1
  rw [length_lines] at hlen
  rw [number_of_getElem? hi]
  omega

end SourceFile

end NetFlat
