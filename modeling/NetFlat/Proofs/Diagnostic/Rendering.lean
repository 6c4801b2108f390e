import NetFlat.Diagnostic.Rendering
import NetFlat.Proofs.Locations
import NetFlat.Proofs.Scan.Findings
import NetFlat.Proofs.Source.Tiling

/-!
# Lines in messages

A finding is shown with the line on which its span starts.  A rendering looks for that line around
an offset, in the text of the file, and not among the lines of the file.  For a span that runs from
the start of a line to the end of that line or of a later one, it finds the text of the line and
puts a caret below each of its bytes.

* `Line.shown`, `Diagnostic.shownAt`: what is shown of a line, and of a finding on it;
* `Diagnostic.lineAround?_eq`: the line around the offset at which it starts;
* `SourceFile.RunsFrom.render?_eq`: a finding at consecutive lines of a file.
-/

namespace NetFlat

open Text (byteSize)

/-! ### What is shown -/

/-- The text of the line without the carriage returns that end it. -/
def Line.shown (l : Line) : Text := (l.text.reverse.dropWhile (· = '\r')).reverse

theorem Line.byteSize_shown_le (l : Line) : byteSize l.shown ≤ byteSize l.text := by
  have hprefix : l.shown <+: l.text := by
    simpa [shown] using List.reverse_prefix.mpr
      (List.dropWhile_suffix (l := l.text.reverse) fun c => decide (c = '\r'))
  obtain ⟨rest, hrest⟩ := hprefix
  rw [← hrest, Text.byteSize_append]
  exact Nat.le_add_right _ _

namespace Diagnostic

/-- How a finding is shown on a line: the path with the number of the line and the column 1, the
line behind its number, and below it carets from its first to its last byte, but at least one. -/
def placeAt (path : String) (l : Line) (d : Diagnostic) : String :=
  let number := toString l.number
  let margin := row number.length ' '
  let carets := row (max 1 (byteSize l.shown)) '^'
  let place := s!"{path}:{number}:1"
  s!"  --> {place}\n{margin} |\n{number} | {String.ofList l.shown}\n" ++
    s!"{margin} | {carets}{d.primaryMessage}\n"

/-- The whole text for a finding that is shown on a line. -/
def shownAt (color : Bool) (path : String) (l : Line) (d : Diagnostic) : String :=
  s!"{d.tag color}: {d.message}\n" ++ d.placeAt path l ++
    String.join (d.notes.map fun n => s!"   = note: {n}\n") ++
    String.join (d.help.map fun h => s!"   = help: {h}\n")

theorem display_of_first_column (path : String) (n : Nat) (last : Nat × Nat) :
    Place.display ⟨path, (n, 1), last⟩ = s!"{path}:{n}:1" := by
  have hone : ":" ++ toString 1 = ":1" := rfl
  show _ ++ ":" ++ toString 1 = _
  rw [String.append_assoc, hone]
  rfl

/-- What is put together for a finding that starts in the first column, without remarks on places
beside it. -/
theorem placeAt_eq (path : String) (l : Line) (d : Diagnostic) (last : Nat × Nat) :
    let number := toString l.number
    let margin := row number.length ' '
    let carets := row (max 1 (byteSize l.shown)) '^'
    let place := Place.display ⟨path, (l.number, 1), last⟩
    let indent := row 0 ' '
    s!"  --> {place}\n{margin} |\n{number} | {String.ofList l.shown}\n" ++
      s!"{margin} | {indent}{carets}{d.primaryMessage}\n" ++ String.join [] =
        d.placeAt path l := by
  have hrow : row 0 ' ' = "" := rfl
  have hjoin : String.join [] = "" := rfl
  have hempty : toString "" = "" := rfl
  dsimp only
  rw [display_of_first_column, hrow, hjoin, hempty, String.append_empty, String.append_empty]
  rfl

end Diagnostic

/-! ### The line around an offset -/

theorem Text.EndsLine.takeWhile_reverse {s : Text} (h : s.EndsLine) :
    s.reverse.takeWhile (· ≠ '\n') = [] := by
  rcases h with rfl | h
  · rfl
  · obtain ⟨init, rfl⟩ := List.getLast?_eq_some_iff.mp h
    simp

/-- What stands in front of the next line feed is the text of the line, and possibly a carriage
return. -/
theorem LineEnd.takeWhile_append {t e u : Text} (h : LineEnd t e u) (ht : '\n' ∉ t) :
    (t ++ (e ++ u)).takeWhile (· ≠ '\n') = t ∨
      (t ++ (e ++ u)).takeWhile (· ≠ '\n') = t ++ ['\r'] := by
  have hall : ∀ c ∈ t, decide (c ≠ '\n') = true := fun c hc => by
    rw [decide_eq_true_eq]
    rintro rfl
    exact ht hc
  rw [List.takeWhile_append_of_pos hall]
  cases h with
  | feed => exact .inl (by simp)
  | returnFeed => exact .inr (by simp)
  | stop => exact .inl (by simp)
  | returnStop => exact .inr (by simp)

theorem Diagnostic.lineAround?_eq {f : SourceFile} {l : Line} {s e u : Text} (h : f.Stands l s e u) :
    lineAround? f.content l.span.start = some l.shown := by
  have htake : Text.takeBytes? l.span.start f.content = some s := by
    rw [h.span, h.content]
    exact Text.takeBytes?_byteSize s _
  have hdrop : Text.dropBytes? l.span.start f.content = some (l.text ++ (e ++ u)) := by
    rw [h.span, h.content]
    exact Text.dropBytes?_byteSize s _
  simp only [lineAround?, htake, hdrop, Option.bind_eq_bind, Option.bind_some,
    h.front.takeWhile_reverse, List.reverse_nil, List.nil_append]
  rcases h.lineEnd.takeWhile_append h.free with ht | ht
  · rw [ht]
    rfl
  · rw [ht]
    simp [Line.shown]

/-! ### Findings at consecutive lines -/

namespace SourceFile

variable {file : SourceFile} {n m : Nat} {span : Span}

theorem stop_le_of_line? {first last : Line} (h : n ≤ m) (hf : file.line? n = some first)
    (hl : file.line? m = some last) : first.span.stop ≤ last.span.stop := by
  obtain ⟨hfirst, rfl⟩ := line?_eq_some_iff.mp hf
  obtain ⟨hlast, rfl⟩ := line?_eq_some_iff.mp hl
  obtain ⟨i, hi, rfl⟩ := List.getElem_of_mem hfirst
  obtain ⟨j, hj, rfl⟩ := List.getElem_of_mem hlast
  have ho := file.inOrder_lines
  rcases Nat.lt_trichotomy i j with hij | rfl | hij
  · have hapart := List.pairwise_iff_getElem.mp ho.apart i j hi hj hij
    have hle := ho.start_le_stop _ hlast
    omega
  · exact Nat.le_refl _
  · have hnumber := List.pairwise_iff_getElem.mp ho.numbers j i hj hi hij
    omega

namespace RunsFrom

variable (h : file.RunsFrom n span)
include h

theorem file_eq : span.file = file.id := by
  obtain ⟨m, first, last, -, -, -, rfl⟩ := h
  rfl

/-- The span is at least as long as the text of its first line. -/
theorem exists_stands : ∃ l s e u, file.line? n = some l ∧ file.Stands l s e u ∧
    span.start = l.span.start ∧ byteSize l.text ≤ span.length := by
  obtain ⟨m, first, last, hnm, hf, hl, rfl⟩ := h
  obtain ⟨s, e, u, hs⟩ := SourceFile.exists_stands (line?_eq_some_iff.mp hf).1
  have hstop := stop_le_of_line? hnm hf hl
  rw [hs.span] at hstop
  refine ⟨first, s, e, u, hf, hs, rfl, ?_⟩
  rw [hs.span, Span.length]
  dsimp only at hstop ⊢
  omega

theorem bounds : span.start < byteSize file.content ∧ span.start ≤ span.stop ∧
    span.stop ≤ byteSize file.content := by
  obtain ⟨m, first, last, hnm, hf, hl, rfl⟩ := h
  obtain ⟨s, e, u, hs⟩ := SourceFile.exists_stands (line?_eq_some_iff.mp hf).1
  obtain ⟨t, e', v, ht⟩ := SourceFile.exists_stands (line?_eq_some_iff.mp hl).1
  have hle := file.inOrder_lines.start_le_stop first (line?_eq_some_iff.mp hf).1
  exact ⟨hs.bounds.2, hle.trans (stop_le_of_line? hnm hf hl), ht.bounds.1⟩

theorem position_start : file.position span.start = (n, 1) := by
  obtain ⟨l, s, e, u, hl, hs, hstart, -⟩ := h.exists_stands
  rw [hstart, ← (line?_eq_some_iff.mp hl).2]
  exact hs.position_eq (k := 0) (Nat.zero_le _)

end RunsFrom

theorem secondary_eq_nil {d : Diagnostic} (hm : d.MarksItself) :
    d.labels.filter (fun l => l.style = .secondary && !l.span.isNowhere) = [] := by
  refine List.filter_eq_nil_iff.mpr fun l hl => ?_
  simp [hm l hl]

/-- **A finding at consecutive lines** is shown on the first of them. -/
theorem RunsFrom.renderPlace?_eq {d : Diagnostic} {sources : Sources} (h : file.RunsFrom n d.span)
    (hfile : sources.file? file.id = some file) (hm : d.MarksItself) :
    ∃ l, file.line? n = some l ∧ d.renderPlace? sources = some (d.placeAt file.path l) := by
  obtain ⟨l, s, e, u, hl, hs, hstart, hlength⟩ := h.exists_stands
  have hposition := h.position_start
  have hshown := Diagnostic.lineAround?_eq hs
  have hsize := l.byteSize_shown_le
  have hmin : min d.span.length (byteSize l.shown) = byteSize l.shown := by omega
  obtain ⟨-, rfl⟩ := line?_eq_some_iff.mp hl
  refine ⟨l, hl, ?_⟩
  rw [← hstart] at hshown
  simp only [Diagnostic.renderPlace?, Sources.resolve?, h.file_eq, hfile, Option.map_some,
    Option.bind_eq_bind, Option.bind_some, hposition, hshown, secondary_eq_nil hm]
  simp only [Nat.sub_self, Nat.sub_zero, hmin, List.mapM_nil, Option.pure_def, Option.bind_some]
  exact congrArg some (Diagnostic.placeAt_eq file.path l d _)

theorem RunsFrom.render?_eq {d : Diagnostic} {sources : Sources} (h : file.RunsFrom n d.span)
    (hfile : sources.file? file.id = some file) (hm : d.MarksItself)
    (hplace : d.span.isNowhere = false) (color : Bool) :
    ∃ l, file.line? n = some l ∧ d.render? sources color = some (d.shownAt color file.path l) := by
  obtain ⟨l, hl, hshown⟩ := h.renderPlace?_eq hfile hm
  refine ⟨l, hl, ?_⟩
  simp only [Diagnostic.render?, hplace, hshown, Bool.false_eq_true, if_false,
    Option.bind_eq_bind, Option.bind_some]
  rfl

end SourceFile

end NetFlat
