import NetFlat.Proofs.Bytes.Positions
import NetFlat.Proofs.Source.Tiling
import NetFlat.Source.Collection

/-!
# The line table of a file

The lines of a file make it up: with the ends behind them they are the file again, and line and
column of each offset are those that its line and the distance to the start of the line give.  A
table of the offsets at which lines start, kept in numbers of 32 bits, comes to the same lines and
the same positions.

* `SourceFile.Bears`, `SourceFile.bears_of_mem`: one line of a file;
* `SourceFile.column_of_line`: the line that an offset is on;
* `line_table`: all lines and all offsets;
* `unplaced_lettersFile`: where numbers of 32 bits do not do.
-/

namespace NetFlat

open Text (byteSize bytes byteOf bound32)

namespace SourceFile

variable {file : SourceFile} {l : Line} {n o : Nat}

/-! ### Numbers -/

theorem map_number_number (id n start : Nat) (ts : List Text) :
    (number id n start ts).map Line.number = List.range' n ts.length := by
  induction ts generalizing n start with
  | nil => rfl
  | cons t ts ih => rw [number, List.map_cons, ih, List.length_cons, List.range'_succ]

/-! ### One line -/

/-- What a file says of one of its lines. -/
structure Bears (f : SourceFile) (l : Line) : Prop where
  line : f.line? l.number = some l
  free : '\n' ∉ l.text
  snippet : f.snippet? l.span.start l.span.stop = some l.text
  collected : ∀ sources : Sources, sources.file? f.id = some f →
    sources.snippet? l.span = some l.text
  terminator : f.terminator l = ['\n'] ∨ f.terminator l = ['\r', '\n'] ∨
    l.number = f.lineCount ∧ (f.terminator l = [] ∨ f.terminator l = ['\r'])
  position : ∀ k ≤ byteSize l.text, f.position (l.span.start + k) = (l.number, k + 1)

theorem Stands.terminator_cases {s e u : Text} (h : file.Stands l s e u) :
    e = ['\n'] ∨ e = ['\r', '\n'] ∨ l.number = file.lineCount ∧ (e = [] ∨ e = ['\r']) := by
  cases hend : h.lineEnd with
  | feed => exact .inl rfl
  | returnFeed => exact .inr (.inl rfl)
  | stop => exact .inr (.inr ⟨h.number_eq_lineCount (by simp), .inl rfl⟩)
  | returnStop => exact .inr (.inr ⟨h.number_eq_lineCount (by simp), .inr rfl⟩)

theorem bears_of_mem (h : l ∈ file.lines) : file.Bears l := by
  obtain ⟨s, e, u, hl⟩ := exists_stands h
  refine ⟨line?_eq_some_iff.mpr ⟨h, rfl⟩, hl.free, hl.snippet?_eq, fun sources hfile => ?_, ?_,
    fun k hk => hl.position_eq hk⟩
  · rw [Sources.snippet?, file_of_mem_lines h, hfile]
    exact hl.snippet?_eq
  · rw [hl.terminator_eq]
    exact hl.terminator_cases

/-! ### The line of an offset -/

/-- In front of the start of a line there are fewer line feeds. -/
theorem count_take_lt {s : Text} (h : s.EndsLine) (ho : o < (bytes s).length) :
    ((bytes s).take o).count (byteOf '\n') < (bytes s).count (byteOf '\n') := by
  rcases h with rfl | hfeed
  · simp at ho
  · obtain ⟨init, rfl⟩ := List.getLast?_eq_some_iff.mp hfeed
    have hlast : bytes (init ++ ['\n']) = bytes init ++ [byteOf '\n'] := Text.bytes_append _ _
    rw [hlast, List.length_append, List.length_singleton] at ho
    rw [hlast, List.take_append_of_le_length (by omega), List.count_append,
      List.count_singleton_self]
    exact Nat.lt_succ_of_le ((List.take_prefix o (bytes init)).sublist.count_le (byteOf '\n'))

/-- An offset with as many line feeds in front of it as the start of a line stands behind that
start, with no line feed between. -/
theorem take_of_count_eq {s : Text} {bs : List UInt8} (hs : s.EndsLine)
    (h : ((bytes s ++ bs).take o).count (byteOf '\n') = (bytes s).count (byteOf '\n')) :
    (bytes s).length ≤ o ∧ (bytes s ++ bs).take o = bytes s ++ bs.take (o - (bytes s).length) ∧
      byteOf '\n' ∉ bs.take (o - (bytes s).length) := by
  have hle : (bytes s).length ≤ o := by
    by_contra hlt
    have hfewer := count_take_lt hs (Nat.lt_of_not_le hlt)
    rw [List.take_append_of_le_length (by omega)] at h
    omega
  have htake : (bytes s ++ bs).take o = bytes s ++ bs.take (o - (bytes s).length) := by
    rw [List.take_append, List.take_of_length_le hle]
  rw [htake, List.count_append] at h
  exact ⟨hle, htake, List.count_eq_zero.mp (by omega)⟩

/-- No line starts behind an offset that is on it, and the column counts from its start. -/
theorem column_of_line (ho : o ≤ byteSize file.content)
    (hl : file.line? (file.position o).1 = some l) :
    l.span.start ≤ o ∧ (file.position o).2 = 1 + (o - l.span.start) := by
  obtain ⟨hmem, hnumber⟩ := line?_eq_some_iff.mp hl
  obtain ⟨s, e, u, hs⟩ := exists_stands hmem
  have hstart : l.span.start = (bytes s).length := by
    rw [hs.span, Text.length_bytes]
  have hbytes : bytes file.content = bytes s ++ bytes (l.text ++ (e ++ u)) := by
    rw [hs.content, Text.bytes_append]
  rw [position_eq ho, hs.number, ← Text.count_feed_bytes, hbytes] at hnumber
  obtain ⟨hle, htake, hfree⟩ := take_of_count_eq hs.front (Nat.add_left_cancel hnumber).symm
  have hlen : ((bytes (l.text ++ (e ++ u))).take (o - (bytes s).length)).length =
      o - (bytes s).length := by
    rw [← Text.length_bytes, hbytes, List.length_append] at ho
    rw [List.length_take]
    omega
  rw [hstart]
  refine ⟨hle, ?_⟩
  rw [position_eq ho, hbytes, htake, Text.sinceFeed_append _ hfree, hs.front.sinceFeed_bytes,
    List.nil_append, hlen]

end SourceFile

/-! ### The table -/

/-- **The line table.** Take any file of less than 2^32 bytes.

The lines are numbered from one on without a gap; they are as many as the line feeds, and one more
if the file holds something behind the last one.  Each line is found by its number, has no line feed
in its text, and has its text at its span; behind the text stands a line feed, with or without a
carriage return in front of it, and behind that of the last line possibly nothing or one carriage
return.  Put together, each text with what stands behind it, the lines are the file.

The line of an offset is one more than the line feeds in front of it, and its column one more than
the bytes since the last of these, which is the distance to the start of the line of that number.
So later offsets have later positions, and the offset that is `k` bytes behind the start of a line
has its number and the column `k + 1`, up to the end of the text.

A program that keeps the offsets at which lines start in a table, and line and column as numbers of
32 bits, comes to the same lines and does not stop, but for one file if its numbers do not wrap
around: that of 2^32 - 1 line feeds, whose lines it does not count.  It comes to the same position of
each offset but 2^32 - 1, the position of which can be too large; if its numbers wrap around, it comes
to the rest of that. -/
theorem line_table (file : SourceFile) (h : byteSize file.content < bound32) :
    (file.lines.map Line.number = List.range' 1 file.lineCount ∧
      (file.lineCount = file.content.count '\n' +
        if file.content ≠ [] ∧ file.content.getLast? ≠ some '\n' then 1 else 0) ∧
      (∀ l ∈ file.lines, file.Bears l) ∧
      file.lines.flatMap (fun l => l.text ++ file.terminator l) = file.content) ∧
    ((∀ o ≤ byteSize file.content, file.position o =
        (1 + ((bytes file.content).take o).count (byteOf '\n'),
          1 + (Text.sinceFeed ((bytes file.content).take o)).length) ∧
        ∀ l, file.line? (file.position o).1 = some l →
          l.span.start ≤ o ∧ (file.position o).2 = 1 + (o - l.span.start)) ∧
      ∀ o p, o ≤ p → p ≤ byteSize file.content →
        (file.position o).1 < (file.position p).1 ∨
          (file.position o).1 = (file.position p).1 ∧ (file.position o).2 ≤ (file.position p).2) ∧
    (∀ overflow : Overflow,
      ((overflow = .stops → file.content ≠ List.replicate (bound32 - 1) '\n') →
        Bytes.lineCount overflow file.content = .ok file.lineCount ∧
          Bytes.lines overflow file = .ok file.lines ∧
          ∀ n, Bytes.line overflow file n = .ok (file.line? n)) ∧
      ∀ o ≤ byteSize file.content, o + 1 < bound32 →
        Bytes.position overflow file.content o = .ok (file.position o)) ∧
    ∀ o, Bytes.position .wraps file.content o =
      .ok ((file.position o).1 % bound32, (file.position o).2 % bound32) := by
  refine ⟨⟨SourceFile.map_number_number _ _ _ _, ?_, fun l => SourceFile.bears_of_mem,
    file.tiles_lines.append_flatMap⟩, ⟨fun o ho => ⟨SourceFile.position_eq ho, fun l hl =>
      SourceFile.column_of_line ho hl⟩, fun o p hop hp => SourceFile.position_mono hop hp⟩,
    fun overflow => ⟨fun hfeeds => ⟨Bytes.lineCount_eq h hfeeds, Bytes.lines_eq h hfeeds,
      Bytes.line_eq h hfeeds⟩, fun o ho hlt => Bytes.position_eq_of_lt h ho hlt⟩,
    fun o => Bytes.position_wraps h o⟩
  rw [SourceFile.lineCount_eq_count]
  by_cases hends : file.content.EndsLine
  · rw [if_pos hends, if_neg fun ⟨hne, hlast⟩ => hends.elim hne hlast]
  · rw [if_neg hends, if_pos (not_or.mp hends)]

/-! ### A sample -/

/-- A file with a blank line in front, both kinds of line ends, an accented letter, a carriage
return inside of a line and one at its end. -/
def unevenFile : SourceFile := ⟨0, "top.v", "\nà\rb\r\n\nc\r".toList⟩

theorem line_table_unevenFile :
    byteSize unevenFile.content < bound32 ∧
    unevenFile.lines.map Line.text = ["", "à\rb", "", "c"].map String.toList ∧
    unevenFile.lines.map unevenFile.terminator = ["\n", "\r\n", "\n", "\r"].map String.toList ∧
    unevenFile.lines.flatMap (fun l => l.text ++ unevenFile.terminator l) = unevenFile.content ∧
    (List.range 11).map unevenFile.position = [(1, 1), (2, 1), (2, 2), (2, 3), (2, 4), (2, 5),
      (2, 6), (3, 1), (4, 1), (4, 2), (4, 3)] ∧
    Bytes.lines .stops unevenFile = .ok unevenFile.lines := by
  have hsize : byteSize unevenFile.content < bound32 := by decide +kernel
  have hne : unevenFile.content ≠ List.replicate (bound32 - 1) '\n' := by
    intro h
    have hlen := congrArg List.length h
    rw [List.length_replicate] at hlen
    revert hlen
    decide +kernel
  obtain ⟨⟨-, -, -, hcontent⟩, -, htable, -⟩ := line_table unevenFile hsize
  exact ⟨hsize, by decide +kernel, by decide +kernel, hcontent, by decide +kernel,
    ((htable .stops).1 fun _ => hne).2.1⟩

/-! ### The two files -/

/-- The file of 2^32 - 1 letters. -/
def lettersFile : SourceFile := ⟨0, "top.v", List.replicate (bound32 - 1) 'a'⟩

/-- The end of the letters is in column 2^32, which is no number of 32 bits; and neither is the number
of entries that the table has for as many line feeds. -/
theorem unplaced_lettersFile :
    byteSize lettersFile.content = bound32 - 1 ∧
    lettersFile.position (bound32 - 1) = (1, bound32) ∧
    Bytes.position .wraps lettersFile.content (bound32 - 1) = .ok (1, 0) ∧
    Bytes.position .stops lettersFile.content (bound32 - 1) = .error .overflow ∧
    Bytes.lineCount .stops (List.replicate (bound32 - 1) '\n') = .error .overflow := by
  have hbytes : byteSize lettersFile.content = bound32 - 1 := Text.byteSize_replicate (by decide) _
  have hsize : byteSize lettersFile.content < bound32 := by
    rw [hbytes]
    decide
  have hfree : '\n' ∉ lettersFile.content := by simp [lettersFile]
  have hcontent : lettersFile.content = [] ++ (lettersFile.content ++ []) := by simp
  have hposition := SourceFile.position_add hcontent hfree rfl (Nat.le_refl _)
  rw [hbytes] at hposition
  have hend : lettersFile.position (bound32 - 1) = (1, bound32) := hposition
  refine ⟨hbytes, hend, ?_, ?_, Bytes.lineCount_stops_of_feeds (n := bound32 - 1) rfl⟩
  · rw [Bytes.position_wraps hsize, hend]
    decide
  · exact Bytes.position_stops hsize _ (.inr (by rw [hend]))

end NetFlat
