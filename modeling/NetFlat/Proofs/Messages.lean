import NetFlat.Proofs.Bytes.Rendering

/-!
# Messages about a file

Each finding about a file, and the failure if flattening fails, can be shown, and the message shows
the line on which it starts as the file has it: the number and the text of the line, and carets
below all of the text.  The span of the finding comes from the lines of the file, while the message
is made from the text around an offset; the two agree for every file.

* `span_cases_of_mem_allFindings`: where findings and failures are;
* `shown_findings`: how they are shown.
-/

namespace NetFlat

open Text (byteSize bound32)

section

variable {config : Config} {file : SourceFile} {d : Diagnostic} {f : Failure}

theorem mem_allFindings_iff {r : Flattening} :
    d ∈ r.allFindings ↔ d ∈ r.findings ∨ ∃ f, r.result = .error f ∧ d = f.diagnostic := by
  unfold Flattening.allFindings
  cases r.result with
  | ok m => simp
  | error f => simp

theorem marksItself_of_mem_allFindings (hd : d ∈ (flatten config file).allFindings) :
    d.MarksItself := by
  rcases mem_allFindings_iff.mp hd with hd | ⟨f, -, rfl⟩
  · obtain ⟨is, his⟩ := Scan.findings_run config file.lines
    rw [findings_flatten, his] at hd
    obtain ⟨i, -, hi⟩ := List.mem_flatMap.mp hd
    exact (Item.at_of_mem_findings hi).marksItself
  · exact f.at_diagnostic.marksItself

/-- A file without lines has no module, and no place for that failure. -/
theorem line_of_result_eq_error (h : file.lines = [])
    (hf : (flatten config file).result = .error f) : f.line = .none := by
  have hfailure := failure?_eq_some_iff.mpr hf
  rw [h] at hfailure
  rw [← Option.some.inj hfailure]
  rfl

/-- **Findings and failures** are at consecutive lines of the file, if it has lines. -/
theorem span_cases_of_mem_allFindings (hd : d ∈ (flatten config file).allFindings) :
    file.lines = [] ∧ d.span = .nowhere ∨ file.lines ≠ [] ∧ ∃ n, file.RunsFrom n d.span := by
  rcases mem_allFindings_iff.mp hd with hd | ⟨f, hf, rfl⟩
  · obtain ⟨n, hn⟩ := runsFrom_of_mem_findings hd
    obtain ⟨-, first, -, -, hfirst, -, -⟩ := id hn
    exact .inr ⟨List.ne_nil_of_mem (SourceFile.line?_eq_some_iff.mp hfirst).1, n, hn⟩
  · rw [f.at_diagnostic.span]
    by_cases hlines : file.lines = []
    · exact .inl ⟨hlines, by rw [line_of_result_eq_error hlines hf]; rfl⟩
    · exact .inr ⟨hlines, _, (locates_of_result_eq_error hlines hf).1.span⟩

end

/-- **Messages.** Take any file of a collection that holds less than 2^32 bytes, and any configuration.
Flattening the file by its bytes comes to an outcome if numbers of 32 bits wrap around.

Of any outcome, also where they do not, take one of the findings or the diagnostic of the failure.
There is a message for it, with or without colours, and putting the message together by offsets of
bytes and by numbers of 32 bits does not stop on the way to it.

The finding has a place unless the file has no line, or bears the number that stands for no file.
If it has one, its span starts in the first column of a line of the file, whether it covers that
line or several.  The message shows the path with the number of the line and the column 1, the
number and the text of that line without the carriage returns that end it, and from below the first
column on as many carets as the text shown has bytes, or one if there is no text. -/
theorem shown_findings (config : Config) (color : Bool) {file : SourceFile} {sources : Sources}
    (hsize : byteSize file.content < bound32) (hfile : sources.file? file.id = some file) :
    (∃ r, Bytes.flatten .wraps config file = .ok r) ∧
    ∀ o r, Bytes.flatten o config file = .ok r → ∀ d ∈ r.allFindings,
      (∃ text, Bytes.render o sources color d = .ok text ∧ d.render? sources color = some text) ∧
      (d.span.isNowhere = true ↔ file.lines = [] ∨ file.id = Span.noFile) ∧
      (d.span.isNowhere = false →
        ∃ l, Bytes.position o file.content d.span.start = .ok (l.number, 1) ∧
          Bytes.line o file l.number = .ok (some l) ∧
          Bytes.render o sources color d = .ok (d.shownAt color file.path l)) := by
  refine ⟨⟨_, Bytes.flatten_eq hsize (by simp) (by simp)⟩, fun o r hr d hd => ?_⟩
  have hfeeds := Bytes.feeds_ne_of_flatten_eq_ok hr
  obtain rfl := Bytes.eq_of_flatten_eq_ok hsize hr
  have hm := marksItself_of_mem_allFindings hd
  have hcases := span_cases_of_mem_allFindings hd
  have hnowhere : d.span.isNowhere = true ↔ file.lines = [] ∨ file.id = Span.noFile := by
    rcases hcases with ⟨hlines, hspan⟩ | ⟨hlines, n, hn⟩
    · rw [hspan]
      exact iff_of_true rfl (.inl hlines)
    · rw [Span.isNowhere, hn.file_eq, beq_iff_eq, or_iff_right hlines]
  by_cases hplace : d.span.isNowhere = true
  · obtain ⟨text, htext, hbytes⟩ := Bytes.exists_render_of_isNowhere hplace sources color
    exact ⟨⟨text, hbytes o, htext⟩, hnowhere, fun h => absurd hplace (by simp [h])⟩
  · rw [Bool.not_eq_true] at hplace
    obtain ⟨n, hn⟩ : ∃ n, file.RunsFrom n d.span := by
      rcases hcases with ⟨-, hspan⟩ | ⟨-, hn⟩
      · rw [hspan] at hplace
        exact absurd hplace (by decide)
      · exact hn
    obtain ⟨l, hl, hshown⟩ := Bytes.render_eq hsize hfile o hn hm hplace color
    obtain ⟨l', hl', htext⟩ := hn.render?_eq hfile hm hplace color
    obtain rfl := Option.some.inj (hl.symm.trans hl')
    have hposition := Bytes.position_start hsize o hn
    have hline := Bytes.line_eq hsize hfeeds n
    rw [hl] at hline
    obtain ⟨-, rfl⟩ := SourceFile.line?_eq_some_iff.mp hl
    exact ⟨⟨_, hshown, htext⟩, hnowhere, fun _ => ⟨l, hposition, hline, hshown⟩⟩

/-! ### A sample -/

/-- A file with a blank line in front and one at the end, where its module is still open; with line
ends of both kinds, some of them behind more carriage returns; and with an accented letter in a
statement of two lines. -/
def unevenModule : SourceFile := ⟨0, "top.v",
  "\r\nmodule top(in_array, out_array);\r\n  FA u0 (.A(é),\r\r\n    .CO(n));\n\r".toList⟩

theorem shown_findings_unevenModule :
    let sources := Sources.single "top.v" unevenModule.content
    ∃ r, Bytes.flatten .wraps sampleConfig unevenModule = .ok r ∧
      r.allFindings.map (·.render? sources false) = [
        some ("note[I301]: skipped unsupported `FA` instance `u0`\n  --> top.v:3:1\n  |\n" ++
          "3 |   FA u0 (.A(é),\n  | ^^^^^^^^^^^^^^^^\n"),
        some ("error[E104]: unexpected end of input\n  --> top.v:5:1\n  |\n" ++
          "5 | \n  | ^ module `top` is missing `endmodule`\n   = note: line 5: \n")] ∧
      ∀ d ∈ r.allFindings, ∃ l, Bytes.line .wraps unevenModule l.number = .ok (some l) ∧
        Bytes.position .wraps unevenModule.content d.span.start = .ok (l.number, 1) ∧
        Bytes.render .wraps sources false d = .ok (d.shownAt false "top.v" l) := by
  intro sources
  have hsize : byteSize unevenModule.content < bound32 := by decide +kernel
  have hfile : sources.file? unevenModule.id = some unevenModule := rfl
  obtain ⟨⟨r, hr⟩, hall⟩ := shown_findings sampleConfig false hsize hfile
  have hshown := hall .wraps r hr
  obtain rfl := Bytes.eq_of_flatten_eq_ok hsize hr
  have hspan : ∀ d ∈ (flatten sampleConfig unevenModule).allFindings, d.span.isNowhere = false := by
    decide +kernel
  refine ⟨_, hr, by decide +kernel, fun d hd => ?_⟩
  obtain ⟨l, hposition, hl, hrender⟩ := (hshown d hd).2.2 (hspan d hd)
  exact ⟨l, hl, hposition, hrender⟩

/-! ### A file whose offsets wrap around -/

theorem lineAround_overlongFile : Bytes.lineAround overlongFile.content 0 =
    .ok "module top(in_array, out_array);".toList := by
  have haround := Bytes.lineAround_eq [] overlongFile.content
  rw [List.nil_append] at haround
  refine haround.trans ?_
  rfl

/-- The offsets of the first line are those of the last one too, and count as its own. -/
theorem position_overlongFile {offset : Nat} (h : offset < 33) :
    Bytes.position .wraps overlongFile.content offset = .ok (1, offset + 1) := by
  have hplace : Bytes.placeOf (Bytes.search [0, 33, 37, 0, 4] offset) = .ok 0 := by
    have hfar : offset < 37 := by omega
    have hfirst : Bytes.narrow [0, 33, 37, 0, 4] offset 0 5 = 0 := by
      simp [Bytes.narrow, h, hfar]
    rcases Nat.eq_zero_or_pos offset with rfl | hpos
    · simp [Bytes.search, hfirst, Bytes.placeOf]
    · simp [Bytes.search, hfirst, Bytes.placeOf, hpos, hpos.ne]
  have hcolumn : offset - 0 + 1 < bound32 := Nat.lt_trans (Nat.succ_lt_succ h) (by decide)
  rw [Bytes.position, lineStarts_overlongFile, hplace, ok_bind]
  change (do return (1, ← Overflow.wraps.add (offset - 0) 1) : Except Stop (Nat × Nat)) = _
  rw [Overflow.add_of_lt hcolumn]
  rfl

def overlongFinding : Diagnostic where
  severity := .note
  code := ⟨.info, 302⟩
  message := "line is not part of the supported netlist dialect and was skipped"
  span := ⟨0, 0, 3⟩

/-- In a file of 2^32 bytes or more a finding about a late line can be shown on an early one, with
fewer carets than the line has bytes. -/
theorem mismarked_overlongFile :
    bound32 ≤ byteSize overlongFile.content ∧
    (∃ r, Bytes.flatten .wraps sampleConfig overlongFile = .ok r ∧ overlongFinding ∈ r.findings) ∧
    Bytes.position .wraps overlongFile.content overlongFinding.span.start = .ok (1, 1) ∧
    (∃ l, Bytes.line .wraps overlongFile 1 = .ok (some l) ∧ byteSize l.shown = 32) ∧
    Bytes.render .wraps (.single "top.v" overlongFile.content) false overlongFinding =
      .ok ("note[I302]: line is not part of the supported netlist dialect and was skipped\n" ++
        "  --> top.v:1:1\n  |\n1 | module top(in_array, out_array);\n  | ^^^\n") := by
  have hfile : (Sources.single "top.v" overlongFile.content).file? 0 = some overlongFile := rfl
  have hfirst := position_overlongFile (show 0 < 33 by decide)
  have hlast := position_overlongFile (show 2 < 33 by decide)
  have hresolve : Bytes.resolve .wraps (.single "top.v" overlongFile.content) ⟨0, 0, 3⟩ =
      .ok ⟨"top.v", (1, 1), (1, 3)⟩ := by
    rw [Bytes.resolve, hfile, orStop_some, ok_bind, hfirst, ok_bind]
    change (Bytes.position .wraps overlongFile.content 2 >>= _) = _
    rw [hlast]
    rfl
  have hplace : Bytes.renderPlace .wraps (.single "top.v" overlongFile.content) overlongFinding =
      .ok "  --> top.v:1:1\n  |\n1 | module top(in_array, out_array);\n  | ^^^\n" := by
    rw [Bytes.renderPlace]
    change (Bytes.resolve .wraps (.single "top.v" overlongFile.content) ⟨0, 0, 3⟩ >>= _) = _
    rw [hresolve, ok_bind]
    change (orStop .index ((Sources.single "top.v" overlongFile.content).file? 0) >>= _) = _
    rw [hfile, orStop_some, ok_bind]
    change (Bytes.position .wraps overlongFile.content 0 >>= _) = _
    rw [hfirst, ok_bind]
    change (Bytes.lineAround overlongFile.content 0 >>= _) = _
    rw [lineAround_overlongFile, ok_bind]
    decide +kernel
  refine ⟨bound32_le_byteSize_overlongFile, ⟨_, flatten_overlongFile, by decide +kernel⟩, hfirst,
    ⟨_, line_overlongFile (i := 0) rfl, by decide +kernel⟩, ?_⟩
  rw [Bytes.render]
  change (Bytes.renderPlace .wraps (.single "top.v" overlongFile.content) overlongFinding >>= _) = _
  rw [hplace, ok_bind]
  decide +kernel

end NetFlat
