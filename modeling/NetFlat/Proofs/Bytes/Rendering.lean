import NetFlat.Proofs.Bytes.Positions
import NetFlat.Proofs.Diagnostic.Rendering

/-!
# Rendering by bytes

Rendering a finding by offsets of bytes: its file is asked for by number, positions are found in the
table of line starts, the line is sliced out of the text from behind the last line feed in front of
an offset to the next one behind it, and the length of the span is a difference of numbers of 32
bits.

* `Bytes.lineAround_eq`: the line around an offset at which a character starts;
* `Bytes.resolve_eq`: the place of a span;
* `Bytes.render_eq`: a finding at consecutive lines of a file.
-/

namespace NetFlat

open Text (byteSize bound32)

/-! ### The line around an offset -/

theorem Text.cutLast?_eq_some_iff {c : Char} {t a b : Text} :
    cutLast? c t = some (a, b) ↔ t = a ++ c :: b ∧ c ∉ b := by
  have hreverse : t.reverse = b.reverse ++ c :: a.reverse ↔ t = a ++ c :: b := by
    rw [← List.reverse_inj]
    simp
  have hcut : cut? c t.reverse = some (b.reverse, a.reverse) ↔ t = a ++ c :: b ∧ c ∉ b := by
    rw [cut?_eq_some_iff, hreverse, List.mem_reverse]
  rw [← hcut, cutLast?, Option.map_eq_some_iff]
  constructor
  · rintro ⟨⟨x, y⟩, hxy, hab⟩
    obtain ⟨rfl, rfl⟩ := Prod.mk.inj hab
    simpa using hxy
  · intro h
    exact ⟨_, h, by simp⟩

theorem Text.getD_find? (p : Char → Bool) (t : Text) :
    (find? p t).getD (byteSize t) = byteSize (t.takeWhile (!p ·)) := by
  induction t with
  | nil => rfl
  | cons c t ih =>
    rw [find?, List.takeWhile_cons]
    cases hc : p c with
    | true => rfl
    | false =>
      cases hfind : find? p t with
      | none => simp [hfind] at ih ⊢; exact ih
      | some n => simp [hfind] at ih ⊢; exact ih

namespace Bytes

/-- The line around an offset, without the carriage returns that end it. -/
def lineAround (content : Text) (offset : Nat) : Except Stop Text := do
  let before ← Text.before offset content
  let start := ((Text.cutLast? '\n' before).map fun p => byteSize p.1 + 1).getD 0
  let behind ← Text.behind offset content
  let stop := ((Text.find? (· = '\n') behind).map (offset + ·)).getD (byteSize content)
  let line ← Text.between start stop content
  return (line.reverse.dropWhile (· = '\r')).reverse

/-- The offset behind the last line feed is that of what follows the last line feed. -/
theorem exists_behind_feed (s : Text) : ∃ a, s = a ++ (s.reverse.takeWhile (· ≠ '\n')).reverse ∧
    ((Text.cutLast? '\n' s).map fun p => byteSize p.1 + 1).getD 0 = byteSize a := by
  have hall {t : Text} (ht : '\n' ∉ t) : ∀ c ∈ t.reverse, decide (c ≠ '\n') = true := fun c hc => by
    rw [decide_eq_true_eq]
    rintro rfl
    exact ht (List.mem_reverse.mp hc)
  cases hcut : Text.cutLast? '\n' s with
  | none =>
    have hs : '\n' ∉ s := by
      have := Text.cut?_eq_none_iff.mp (Option.map_eq_none_iff.mp hcut)
      rwa [List.mem_reverse] at this
    refine ⟨[], ?_, rfl⟩
    rw [List.takeWhile_eq_self_iff.mpr (hall hs), List.reverse_reverse, List.nil_append]
  | some p =>
    obtain ⟨x, y⟩ := p
    obtain ⟨rfl, hy⟩ := Text.cutLast?_eq_some_iff.mp hcut
    refine ⟨x ++ ['\n'], ?_, ?_⟩
    · rw [List.reverse_append, List.reverse_cons, List.append_assoc y.reverse,
        List.takeWhile_append_of_pos (hall hy)]
      simp
    · rw [Text.byteSize_append]
      rfl

/-- **The line around an offset** at which a character starts. -/
theorem lineAround_eq (s t : Text) : lineAround (s ++ t) (byteSize s) =
    orStop .slice (Diagnostic.lineAround? (s ++ t) (byteSize s)) := by
  obtain ⟨a, hs, hstart⟩ := exists_behind_feed s
  have hstop : ((Text.find? (· = '\n') t).map (byteSize s + ·)).getD (byteSize (s ++ t)) =
      byteSize s + byteSize (t.takeWhile (· ≠ '\n')) := by
    have hfind := Text.getD_find? (· = '\n') t
    simp only [← decide_not] at hfind
    rw [← hfind, Text.byteSize_append]
    cases Text.find? (· = '\n') t <;> rfl
  have hslice := Text.between_byteSize a ((s.reverse.takeWhile (· ≠ '\n')).reverse ++
    t.takeWhile (· ≠ '\n')) (t.dropWhile (· ≠ '\n'))
  rw [List.append_assoc, List.takeWhile_append_dropWhile, ← List.append_assoc a, ← hs,
    Text.byteSize_append, ← Nat.add_assoc, ← Text.byteSize_append a, ← hs] at hslice
  rw [lineAround, Text.before_byteSize, ok_bind, Text.behind_byteSize, ok_bind]
  simp only [hstart, hstop, hslice, ok_bind, Diagnostic.lineAround?, Text.takeBytes?_byteSize,
    Text.dropBytes?_byteSize, Option.bind_eq_bind, Option.bind_some]
  rfl

/-! ### The place of a span -/

def resolve (o : Overflow) (sources : Sources) (span : Span) : Except Stop Place := do
  let file ← orStop .index (sources.file? span.file)
  let first ← position o file.content span.start
  let last ← position o file.content (max (span.stop - 1) span.start)
  return ⟨file.path, first, last⟩

/-- The number of bytes from a column on; the column zero, which a position that has wrapped around
can be in, is behind the text. -/
def restFrom (o : Overflow) (column : Nat) (t : Text) : Except Stop Nat :=
  if column = 0 then
    match o with
    | .wraps => .ok 0
    | .stops => .error .overflow
  else .ok (byteSize t - (column - 1))

theorem restFrom_one (o : Overflow) (t : Text) : restFrom o 1 t = .ok (byteSize t) := rfl

/-- The lines that show where a finding stands. -/
def renderPlace (o : Overflow) (sources : Sources) (d : Diagnostic) : Except Stop String := do
  let place ← resolve o sources d.span
  let file ← orStop .index (sources.file? d.span.file)
  let (line, column) ← position o file.content d.span.start
  let shown ← lineAround file.content d.span.start
  let number := toString line
  let margin := Diagnostic.row number.length ' '
  let rest ← restFrom o column shown
  let length ← o.sub d.span.stop d.span.start
  let indent := Diagnostic.row (column - 1) ' '
  let carets := Diagnostic.row (max 1 (min length rest)) '^'
  let others := d.labels.filter fun l => l.style = .secondary && !l.span.isNowhere
  let remarks ← others.mapM fun l => do
    let spot ← resolve o sources l.span
    return s!"{margin} = {l.message}: {spot.display}\n"
  return s!"  --> {place.display}\n{margin} |\n{number} | {String.ofList shown}\n" ++
    s!"{margin} | {indent}{carets}{d.primaryMessage}\n" ++
    String.join remarks

def render (o : Overflow) (sources : Sources) (color : Bool) (d : Diagnostic) :
    Except Stop String := do
  let place ← if d.span.isNowhere then .ok "" else renderPlace o sources d
  return s!"{d.tag color}: {d.message}\n" ++ place ++
    String.join (d.notes.map fun n => s!"   = note: {n}\n") ++
    String.join (d.help.map fun h => s!"   = help: {h}\n")

/-! ### Findings at consecutive lines -/

section

variable {file : SourceFile} {n : Nat} {sources : Sources} (hsize : byteSize file.content < bound32)
  (hfile : sources.file? file.id = some file) (o : Overflow)
include hsize

theorem position_start {span : Span} (h : file.RunsFrom n span) :
    position o file.content span.start = .ok (n, 1) := by
  obtain ⟨hlt, -, -⟩ := h.bounds
  rw [position_eq_of_lt hsize hlt.le (by omega), h.position_start]

include hfile

theorem resolve_eq {span : Span} (h : file.RunsFrom n span) :
    ∃ last, resolve o sources span = .ok ⟨file.path, (n, 1), last⟩ := by
  obtain ⟨hstart, hle, hstop⟩ := h.bounds
  have hwithin : max (span.stop - 1) span.start < byteSize file.content := by omega
  have hlast := position_eq_of_lt (o := o) hsize hwithin.le (by omega)
  refine ⟨file.position (max (span.stop - 1) span.start), ?_⟩
  rw [resolve, h.file_eq, hfile, orStop_some, ok_bind, position_start hsize o h, ok_bind, hlast,
    ok_bind]
  rfl

/-- **A finding at consecutive lines** is shown on the first of them. -/
theorem renderPlace_eq {d : Diagnostic} (h : file.RunsFrom n d.span) (hm : d.MarksItself) :
    ∃ l, file.line? n = some l ∧ renderPlace o sources d = .ok (d.placeAt file.path l) := by
  obtain ⟨l, s, e, u, hl, hs, hstart, hlength⟩ := h.exists_stands
  obtain ⟨last, hresolve⟩ := resolve_eq hsize hfile o h
  obtain ⟨-, hle, -⟩ := h.bounds
  have hposition := position_start hsize o h
  have hshown : lineAround file.content d.span.start = .ok l.shown := by
    have haround := Diagnostic.lineAround?_eq hs
    have hoffset : l.span.start = byteSize s := by rw [hs.span]
    rw [hoffset, hs.content] at haround
    rw [hstart, hoffset, hs.content, lineAround_eq, haround, orStop_some]
  have hshort := l.byteSize_shown_le
  have hmin : min (d.span.stop - d.span.start) (byteSize l.shown) = byteSize l.shown := by
    rw [Span.length] at hlength
    omega
  obtain ⟨-, rfl⟩ := SourceFile.line?_eq_some_iff.mp hl
  refine ⟨l, hl, ?_⟩
  rw [renderPlace, hresolve, ok_bind, h.file_eq, hfile, orStop_some, ok_bind, hposition, ok_bind]
  dsimp only
  rw [hshown, ok_bind, restFrom_one, ok_bind, Overflow.sub_of_le hle, ok_bind,
    SourceFile.secondary_eq_nil hm, List.mapM_nil, Nat.sub_self, hmin]
  exact congrArg Except.ok (Diagnostic.placeAt_eq file.path l d last)

theorem render_eq {d : Diagnostic} (h : file.RunsFrom n d.span) (hm : d.MarksItself)
    (hplace : d.span.isNowhere = false) (color : Bool) :
    ∃ l, file.line? n = some l ∧
      render o sources color d = .ok (d.shownAt color file.path l) := by
  obtain ⟨l, hl, hshown⟩ := renderPlace_eq hsize hfile o h hm
  refine ⟨l, hl, ?_⟩
  rw [render, hplace, if_neg Bool.false_ne_true, hshown, ok_bind]
  rfl

end

theorem exists_render_of_isNowhere {d : Diagnostic} (h : d.span.isNowhere = true)
    (sources : Sources) (color : Bool) : ∃ text, d.render? sources color = some text ∧
      ∀ o, render o sources color d = .ok text := by
  refine ⟨_, by rw [Diagnostic.render?, if_pos h]; rfl, fun o => ?_⟩
  rw [render, if_pos h, ok_bind]
  rfl

end Bytes

end NetFlat
