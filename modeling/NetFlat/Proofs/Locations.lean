import NetFlat.Proofs.Bytes.Flattening
import NetFlat.Proofs.Scan.Locations

/-!
# Places in messages

Whatever is said about a file is said of a place in it: a failure names a line of the file, and its
span, as that of each finding, reaches from the start of a line to the end of that line or of a
later one.  Findings come in the order of their places, and a failure behind all of them.

That holds for files of less than 2^32 bytes.  Offsets are numbers of 32 bits, and in a longer file
those of a late line can be those of an earlier one.

* `SourceFile.RunsFrom`, `SourceFile.locates_of_on`: the places of consecutive lines of a file;
* `runsFrom_of_mem_findings`, `locates_of_result_eq_error`: findings and failures;
* `locations`: the places in the outcome of flattening;
* `lines_overlongFile`, `unsorted_overlongFile`: a file whose offsets wrap around.
-/

namespace NetFlat

open Text (byteSize bytes byteOf bound32)

namespace SourceFile

/-- The span runs from the start of the line numbered `n` to the end of it or of a later line. -/
def RunsFrom (file : SourceFile) (n : Nat) (span : Span) : Prop :=
  ∃ m first last, n ≤ m ∧ file.line? n = some first ∧ file.line? m = some last ∧
    span = ⟨file.id, first.span.start, last.span.stop⟩

/-- The line bears number and text of a line of the file, and its span runs from there. -/
structure Locates (file : SourceFile) (l : Line) : Prop where
  one_le_number : 1 ≤ l.number
  number_le : l.number ≤ file.lineCount
  text : (file.line? l.number).map Line.text = some l.text
  span : file.RunsFrom l.number l.span

variable {file : SourceFile} {l : Line}

/-- **The place of consecutive lines.** -/
theorem locates_of_on (h : l.On file.lines) : file.Locates l := by
  obtain ⟨row, hrow, first, last, hf, hl, rfl⟩ := h
  have hfirst : first ∈ file.lines := hrow.subset (List.mem_of_head? hf)
  have hlast : last ∈ file.lines := hrow.subset hl
  have hline : file.line? first.number = some first := line?_eq_some_iff.mpr ⟨hfirst, rfl⟩
  have hle : first.number ≤ last.number := by
    obtain ⟨rest, rfl⟩ := List.head?_eq_some_iff.mp hf
    rcases List.mem_cons.mp hl with rfl | hm
    · exact Nat.le_refl _
    · have hsorted := (file.inOrder_lines.sublist hrow.sublist).numbers
      exact ((List.pairwise_cons.mp hsorted).1 last hm).le
  refine ⟨(number_of_mem_lines hfirst).1, (number_of_mem_lines hfirst).2, ?_, ?_⟩
  · show (file.line? first.number).map Line.text = some first.text
    rw [hline]
    rfl
  · refine ⟨last.number, first, last, hle, hline, line?_eq_some_iff.mpr ⟨hlast, rfl⟩, ?_⟩
    rw [file_of_mem_lines hfirst]

end SourceFile

section flatten

variable {config : Config} {file : SourceFile}

theorem findings_flatten :
    (flatten config file).findings = (Scan.run config file.lines).findings := by
  simp only [flatten, flattenLines]
  split <;> rfl

theorem failure?_eq_some_iff {f : Failure} :
    (Scan.run config file.lines).failure? config (file.lines.getLast?.getD .none) = some f ↔
      (flatten config file).result = .error f := by
  simp only [flatten, flattenLines]
  split
  · next f' hf => rw [hf, Except.error.injEq, Option.some.injEq]
  · next hf => simp [hf]

theorem runsFrom_of_mem_findings {d : Diagnostic} (hd : d ∈ (flatten config file).findings) :
    ∃ n, file.RunsFrom n d.span := by
  obtain ⟨done, block, hlines, hs⟩ := Scan.located_run config file.inOrder_lines
  rw [findings_flatten] at hd
  obtain ⟨l, hl, hspan⟩ := hs.findings d hd
  have hon : l.On file.lines := hlines ▸ hl.of_infix (List.prefix_append done block).isInfix
  exact ⟨l.number, hspan ▸ (SourceFile.locates_of_on hon).span⟩

theorem sorted_findings :
    ((flatten config file).findings.map (·.span.start)).Pairwise (· ≤ ·) := by
  obtain ⟨done, block, -, hs⟩ := Scan.located_run config file.inOrder_lines
  rw [findings_flatten]
  exact hs.sorted

/-- A failure is at consecutive lines of the file, in front of no finding. -/
theorem locates_of_result_eq_error {f : Failure} (h : file.lines ≠ [])
    (hf : (flatten config file).result = .error f) : file.Locates f.line ∧
      ∀ d ∈ (flatten config file).findings, d.span.start ≤ f.line.span.start := by
  obtain ⟨done, block, hlines, hs⟩ := Scan.located_run config file.inOrder_lines
  have hlast : (done ++ block).getLast? = some (file.lines.getLast?.getD .none) := by
    rw [hlines]
    cases hl : file.lines.getLast? with
    | none => exact absurd (List.getLast?_eq_none_iff.mp hl) h
    | some last => rfl
  obtain ⟨hon, hfront⟩ :=
    hs.failure (hlines ▸ file.inOrder_lines) hlast (failure?_eq_some_iff.mpr hf)
  rw [findings_flatten]
  exact ⟨SourceFile.locates_of_on (hlines ▸ hon), hfront⟩

end flatten

/-- **Places.** Take any configuration and any file with a line that holds less than 2^32 bytes.
Flattening it by its bytes comes to an outcome if numbers of 32 bits wrap around.

Of any outcome of it, also where they do not: the table of the file gives the lines of the file; a
failure is at a line of the file, and its span runs from the start of that line to the end of it or of
a later line; so does the span of each finding from a line of its own; the findings are in the order
of their starts, and the failure starts in front of none of them. -/
theorem locations (config : Config) {file : SourceFile} (hsize : byteSize file.content < bound32)
    (hlines : file.lines ≠ []) :
    (∃ r, Bytes.flatten .wraps config file = .ok r) ∧
    ∀ o r, Bytes.flatten o config file = .ok r →
      (Bytes.lineCount o file.content = .ok file.lineCount ∧
        ∀ n, Bytes.line o file n = .ok (file.line? n)) ∧
      (∀ f, r.result = .error f → file.Locates f.line) ∧
      (∀ d ∈ r.findings, ∃ n, file.RunsFrom n d.span) ∧
      (r.findings.map (·.span.start)).Pairwise (· ≤ ·) ∧
      ∀ f, r.result = .error f → ∀ d ∈ r.findings, d.span.start ≤ f.line.span.start := by
  refine ⟨⟨_, Bytes.flatten_eq hsize (by simp) (by simp)⟩, fun o r hr => ?_⟩
  have hfeeds := Bytes.feeds_ne_of_flatten_eq_ok hr
  obtain rfl := Bytes.eq_of_flatten_eq_ok hsize hr
  exact ⟨⟨Bytes.lineCount_eq hsize hfeeds, Bytes.line_eq hsize hfeeds⟩,
    fun f hf => (locates_of_result_eq_error hlines hf).1, fun d => runsFrom_of_mem_findings,
    sorted_findings, fun f hf => (locates_of_result_eq_error hlines hf).2⟩

/-! ### A sample -/

/-- A file with two statements that are passed over, and with a gate the last connection of which
refers to no bit of the output. -/
def misplacedFile : SourceFile :=
  sampleModule [["  FA u0 (.A(in_array[0]),", "    .CO(n));"], ["  assign n = 1'b0;"],
    ["  IV g0 (.A(in_array[0]),", "    .Z(out_array[7]));"]]

/-- The failure is at the line of the connection, behind the findings on the lines 2 and 4. -/
theorem locations_misplacedFile :
    ∃ r, Bytes.flatten .wraps sampleConfig misplacedFile = .ok r ∧
      (∃ f, r.result = .error f ∧ f.line.number = 6 ∧ misplacedFile.Locates f.line) ∧
      r.findings.map (·.span) = [⟨0, 33, 71⟩, ⟨0, 72, 90⟩] ∧
      ∀ d ∈ r.findings, ∃ n, misplacedFile.RunsFrom n d.span := by
  have hsize : byteSize misplacedFile.content < bound32 := by decide +kernel
  obtain ⟨⟨r, hr⟩, hall⟩ := locations sampleConfig hsize (by decide +kernel)
  obtain ⟨-, hf, hd, -, -⟩ := hall .wraps r hr
  obtain rfl := Bytes.eq_of_flatten_eq_ok hsize hr
  obtain ⟨f, hresult, hn⟩ : ∃ f, (flatten sampleConfig misplacedFile).result = .error f ∧
      f.line.number = 6 := by decide +kernel
  exact ⟨_, hr, ⟨f, hresult, hn, hf f hresult⟩, by decide +kernel, hd⟩

/-! ### A file whose offsets wrap around -/

/-- A module line and a line that is no statement. -/
def overlongFront : Text := "module top(in_array, out_array);\nxyz\n".toList

/-- A comment that reaches up to the offset 2^32 - 2 if it stands behind the front. -/
def overlongComment : Text := "//".toList ++ List.replicate (bound32 - 40) 'a'

/-- A file with a line behind the offset 2^32 - 1. -/
def overlongFile : SourceFile :=
  ⟨0, "top.v", overlongFront ++ overlongComment ++ '\n' :: "xyz\n".toList⟩

/-- The lines that the table gives: the last one is at the offsets of the first one. -/
def overlongLines : List Line :=
  [⟨1, "module top(in_array, out_array);".toList, ⟨0, 0, 32⟩⟩, ⟨2, "xyz".toList, ⟨0, 33, 36⟩⟩,
    ⟨3, overlongComment, ⟨0, 37, bound32 - 1⟩⟩, ⟨4, "mod".toList, ⟨0, 0, 3⟩⟩]

theorem byteSize_overlongComment : byteSize overlongComment = bound32 - 38 := by
  rw [overlongComment, Text.byteSize_append, Text.byteSize_replicate (by decide)]
  rfl

theorem bound32_le_byteSize_overlongFile : bound32 ≤ byteSize overlongFile.content := by
  rw [overlongFile, Text.byteSize_append, Text.byteSize_append, byteSize_overlongComment]
  decide +kernel

theorem lineStarts_overlongFile : Bytes.lineStarts overlongFile.content = [0, 33, 37, 0, 4] := by
  have hfeed : byteOf '\n' ∉ bytes overlongComment := by
    rw [Text.feed_mem_bytes_iff, overlongComment]
    simp
  have hsize : byteSize (overlongFront ++ overlongComment) + 1 = bound32 := by
    rw [Text.byteSize_append, byteSize_overlongComment]
    rfl
  have hfront : Bytes.lineStarts (overlongFront ++ overlongComment) = [0, 33, 37] := by
    rw [Bytes.lineStarts, Text.bytes_append, Bytes.startsFrom_append, Bytes.startsFrom_eq_nil hfeed]
    decide +kernel
  rw [overlongFile, Bytes.lineStarts_append_feed hsize, hfront]
  decide +kernel

theorem dropReturn_overlongComment : SourceFile.dropReturn overlongComment = overlongComment := by
  have hlast : overlongComment = "//".toList ++ List.replicate (bound32 - 41) 'a' ++ ['a'] := by
    rw [List.append_assoc, ← List.replicate_succ', overlongComment]
    rfl
  rw [hlast, Bytes.dropReturn_concat, if_neg (by decide)]

theorem lineCount_overlongFile : Bytes.lineCount .wraps overlongFile.content = .ok 4 := by
  have hlast : overlongFile.content.getLast? = some '\n' := by
    rw [overlongFile, List.getLast?_append_cons]
    rfl
  rw [Bytes.lineCount, lineStarts_overlongFile, if_pos (.inl hlast)]
  rfl

theorem line_overlongFile {i : Nat} {l : Line} (h : overlongLines[i]? = some l) :
    Bytes.line .wraps overlongFile (i + 1) = .ok (some l) := by
  have hstarts := lineStarts_overlongFile
  have hline {i next : Nat} {s t u : Text} (hi : i < 4)
      (hcontent : overlongFile.content = s ++ (t ++ u))
      (hstart : [0, 33, 37, 0, 4][i]? = some (byteSize s))
      (hnext : [0, 33, 37, 0, 4][i + 1]? = some next)
      (hstop : Overflow.wraps.sub next 1 = .ok (byteSize s + byteSize t)) :
      Bytes.line .wraps overlongFile (i + 1) = .ok (some ⟨i + 1, SourceFile.dropReturn t,
        ⟨0, byteSize s, byteSize s + byteSize (SourceFile.dropReturn t)⟩⟩) := by
    refine Bytes.line_of_starts lineCount_overlongFile hi hcontent (hstarts ▸ hstart) ?_
    rw [Bytes.lineFeed, hstarts, hnext]
    exact hstop
  have hfront : overlongFront = "module top(in_array, out_array);".toList ++ "\nxyz\n".toList := by
    decide +kernel
  have h₁ := hline (i := 0) (s := []) (t := "module top(in_array, out_array);".toList) (by decide)
    (by rw [overlongFile, hfront, List.append_assoc, List.append_assoc]; rfl) rfl rfl
    (by decide +kernel)
  have h₂ := hline (i := 1) (s := "module top(in_array, out_array);\n".toList) (t := "xyz".toList)
    (u := '\n' :: (overlongComment ++ '\n' :: "xyz\n".toList)) (by decide) (by rfl)
    (by decide +kernel) rfl (by decide +kernel)
  have h₃ := hline (i := 2) (s := overlongFront) (t := overlongComment) (by decide)
    (by rw [overlongFile, List.append_assoc]) (by decide +kernel) rfl
    (by rw [byteSize_overlongComment]; decide +kernel)
  -- the last line starts where the table has wrapped around to
  have h₄ := hline (i := 3) (s := []) (t := "mod".toList) (by decide) (by rfl) rfl rfl
    (by decide +kernel)
  rw [dropReturn_overlongComment, byteSize_overlongComment] at h₃
  rcases i with _ | _ | _ | _ | i
  · obtain rfl := Option.some.inj h
    exact h₁
  · obtain rfl := Option.some.inj h
    exact h₂
  · obtain rfl := Option.some.inj h
    exact h₃
  · obtain rfl := Option.some.inj h
    exact h₄
  · cases h

theorem lines_overlongFile : Bytes.lines .wraps overlongFile = .ok overlongLines := by
  rw [Bytes.lines, lineCount_overlongFile, ok_bind, Bytes.linesFrom, line_overlongFile rfl, ok_bind,
    Bytes.linesFrom, line_overlongFile rfl, ok_bind, Bytes.linesFrom, line_overlongFile rfl, ok_bind,
    Bytes.linesFrom, line_overlongFile rfl, ok_bind, overlongLines]
  -- the comment is too long to be looked at
  generalize overlongComment = comment
  rfl

/-- A line without code in the body of the module changes nothing. -/
theorem flattenLines_of_blank {config : Config} {ls ms : List Line} {l m : Line}
    (hl : Dialect.code l.text = []) (hbody : (Scan.run config ls).phase = .body) :
    flattenLines config (ls ++ l :: m :: ms) = flattenLines config (ls ++ m :: ms) := by
  have hstep : (Scan.run config ls).step config l = Scan.run config ls := by
    simp [Scan.step, hbody, Scan.bodyLine, hl]
  have hrun : Scan.run config (ls ++ l :: m :: ms) = Scan.run config (ls ++ m :: ms) := by
    rw [Scan.run, Scan.run, List.foldl_append, List.foldl_append, List.foldl_cons]
    exact congrArg (List.foldl (Scan.step config) · (m :: ms)) hstep
  rw [flattenLines, flattenLines, hrun]
  simp only [List.getLast?_append_cons, List.getLast?_cons_cons]

theorem flatten_overlongFile : Bytes.flatten .wraps sampleConfig overlongFile =
    .ok (flattenLines sampleConfig (overlongLines.eraseIdx 2)) := by
  have hcode : Dialect.code overlongComment = [] := rfl
  have hfile : ∀ l ∈ overlongLines, l.span.file = overlongFile.id := by
    simp [overlongLines, overlongFile]
  rw [Bytes.flatten_of_lines lines_overlongFile hfile (by simp)]
  refine congrArg Except.ok (@flattenLines_of_blank _ (overlongLines.take 2) _
    ⟨3, overlongComment, ⟨0, 37, bound32 - 1⟩⟩ _ hcode ?_)
  decide +kernel

/-- In a file of 2^32 bytes or more a finding can start behind one that is made later, and behind
the failure. -/
theorem unsorted_overlongFile :
    bound32 ≤ byteSize overlongFile.content ∧
    ∃ r, Bytes.flatten .wraps sampleConfig overlongFile = .ok r ∧
      r.findings.map (·.span.start) = [33, 0] ∧
      ¬(r.findings.map (·.span.start)).Pairwise (· ≤ ·) ∧
      ∃ f, r.result = .error f ∧ f.line.span.start = 0 := by
  exact ⟨bound32_le_byteSize_overlongFile, _, flatten_overlongFile, by decide +kernel,
    by decide +kernel, by decide +kernel⟩

end NetFlat
