import NetFlat.Proofs.Bytes.Scan
import NetFlat.Proofs.Flattening
import NetFlat.Proofs.Scan.Layout
import NetFlat.Proofs.Source.Tiling

/-!
# Flattening by bytes

Flattening a file by its bytes: lines by a table of offsets, words and connections by slices,
places by merging spans, numbers of 32 bits.  For a file of less than 2^32 bytes, no step of it stops
if numbers of 32 bits wrap around, and what it comes to is what flattening by characters comes to.
If they do not, it comes to the same unless it stops at one of two numbers: the number of lines of
one file, and the number of bits of a configured bus that is declared with 2^32 of them.

* `Bytes.flatten_eq`, `Bytes.eq_of_flatten_eq_ok`: flattening by bytes is flattening by characters;
* `Bytes.flatten_never_stops`: it does not stop for any file of less than 2^32 bytes.
-/

namespace NetFlat

namespace Bytes

def flatten (o : Overflow) (config : Config) (file : SourceFile) : Except Stop Flattening := do
  let lines ← lines o file
  let s ← lines.foldlM (step o config) (Scan.start config)
  match ← failure? config (lines.getLast?.getD .none) s with
  | some failure => return ⟨.error failure, s.findings, s.log⟩
  | none =>
    let f := s.flattened config
    return ⟨.ok f, s.findings, s.log ++ [Scan.resultEntry config f]⟩

section

variable {o : Overflow} {config : Config} {file : SourceFile}

theorem flatten_of_lines {ls : List Line} (hlines : lines o file = .ok ls)
    (hfile : ∀ l ∈ ls, l.span.file = file.id)
    (hwidth : o = .stops →
      ∀ i ∈ (Phase.seeking.read config (ls.map Line.coded)).2, ¬i.DeclaresWideBus config) :
    flatten o config file = .ok (flattenLines config ls) := by
  have hstart : (Scan.start config).phase.InFile file.id := trivial
  have hrun := foldlM_step_eq (o := o) hfile hstart hwidth
  have hend : (Scan.run config ls).phase.InFile file.id := Scan.inFile_foldl_step hstart hfile
  unfold flatten flattenLines
  rw [hlines, ok_bind, hrun, ok_bind]
  change (failure? config _ (Scan.run config ls) >>= _) = _
  rw [failure?_eq hend, ok_bind]
  dsimp only
  cases (Scan.run config ls).failure? config (ls.getLast?.getD .none) <;> rfl

theorem feeds_ne_of_flatten_eq_ok {r : Flattening} (h : flatten o config file = .ok r) :
    o = .stops → file.content ≠ List.replicate (Text.bound32 - 1) '\n' := by
  rintro rfl hfeeds
  rw [flatten, lines, hfeeds, lineCount_stops_of_feeds (n := Text.bound32 - 1) rfl] at h
  cases h

variable (hsize : Text.byteSize file.content < Text.bound32)
include hsize

theorem flatten_eq
    (hfeeds : o = .stops → file.content ≠ List.replicate (Text.bound32 - 1) '\n')
    (hwidth : o = .stops → ∀ i ∈ file.items config, ¬i.DeclaresWideBus config) :
    flatten o config file = .ok (NetFlat.flatten config file) :=
  flatten_of_lines (lines_eq hsize hfeeds) (fun _ => SourceFile.file_of_mem_lines) hwidth

theorem flatten_refines :
    Overflow.Refines (flatten .stops config file) (flatten .wraps config file) :=
  (lines_refines hsize).bind fun ls =>
    (Overflow.Refines.foldlM (step_refines config) ls _).bind fun _ => .refl _

/-- **What flattening by bytes comes to**, flattening by characters comes to. -/
theorem eq_of_flatten_eq_ok {r : Flattening} (h : flatten o config file = .ok r) :
    r = NetFlat.flatten config file := by
  have hwraps : flatten .wraps config file = .ok r := by
    cases o with
    | wraps => exact h
    | stops => exact (flatten_refines hsize).eq_ok h
  exact Except.ok.inj (hwraps.symm.trans (flatten_eq hsize (by simp) (by simp)))

end

/-- **Flattening never stops.** Take any file that holds less than 2^32 bytes, and any configuration.
Whatever the bytes of the file are, flattening it by bytes does not stop: no slice ends inside of a
character or behind its text, no depth is taken below zero, each offset has its line, each statement
its first line, each pin its connection, each cell its operands, and spans are merged within the file
only.  It comes to the flat module or the failure that flattening by characters comes to.

Where numbers of 32 bits do not wrap around, the file may declare no configured bus with 2^32 bits,
and one file is left out: that of 2^32 - 1 line feeds. -/
theorem flatten_never_stops (config : Config) {file : SourceFile}
    (hsize : Text.byteSize file.content < Text.bound32) :
    flatten .wraps config file = .ok (NetFlat.flatten config file) ∧
      ((∀ i ∈ file.items config, ¬i.DeclaresWideBus config) →
        file.content ≠ List.replicate (Text.bound32 - 1) '\n' →
        flatten .stops config file = .ok (NetFlat.flatten config file)) :=
  ⟨flatten_eq hsize (by simp) (by simp),
    fun hwidth hfeeds => flatten_eq hsize (fun _ => hfeeds) fun _ => hwidth⟩

/-! ### A sample -/

/-- A file with characters of several bytes in comments, in names and where pins are looked for. -/
def accentedFile : SourceFile :=
  sampleModule [["  input [3:0] in_array; // größer"],
    ["  XNOR \\é.µ (.A(in_array[0]),\r", "    .B( in_array[1] ), .é(x), .Z(out_array[0]));"],
    ["  NOR g1 (.A(\\ü ), .B(1'b0), .Z(out_array[1]));"]]

theorem flatten_accentedFile :
    flatten .wraps sampleConfig accentedFile = .ok (NetFlat.flatten sampleConfig accentedFile) ∧
    flatten .stops sampleConfig accentedFile = .ok (NetFlat.flatten sampleConfig accentedFile) ∧
    (NetFlat.flatten sampleConfig accentedFile).findings.map (·.span) = [⟨0, 33, 68⟩] ∧
    ∃ f, (NetFlat.flatten sampleConfig accentedFile).result = .ok f ∧
      f.flat.wires = ["\\ü", "out_array_0_neg", "out_array_1_neg"].map (⟨String.toList ·⟩) := by
  have hne : accentedFile.content ≠ List.replicate (Text.bound32 - 1) '\n' := by
    intro h
    have hlen := congrArg List.length h
    rw [List.length_replicate] at hlen
    revert hlen
    decide +kernel
  obtain ⟨hwraps, hstops⟩ := flatten_never_stops sampleConfig
    (show Text.byteSize accentedFile.content < Text.bound32 by decide +kernel)
  exact ⟨hwraps, hstops (by decide +kernel) hne, by decide +kernel, by decide +kernel⟩

/-! ### The file that is left out -/

/-- The file of 2^32 - 1 line feeds. -/
def feedsFile : SourceFile := ⟨0, "top.v", List.replicate (Text.bound32 - 1) '\n'⟩

/-- A file of less than 2^32 bytes that declares no bus, on which flattening stops if numbers of 32
bits do not wrap around. -/
theorem flatten_feedsFile :
    Text.byteSize feedsFile.content < Text.bound32 ∧
    (∀ i ∈ feedsFile.items sampleConfig, ¬i.DeclaresWideBus sampleConfig) ∧
    flatten .stops sampleConfig feedsFile = .error .overflow := by
  have hsize : Text.byteSize feedsFile.content < Text.bound32 := by
    rw [feedsFile, Text.byteSize_replicate (by decide)]
    decide
  have hblank : ∀ l ∈ feedsFile.lines, l.text = [] := by
    intro l hl
    obtain ⟨s, e, u, hs⟩ := SourceFile.exists_stands hl
    refine List.eq_nil_iff_forall_not_mem.mpr fun c hc => hs.free ?_
    have hmem : c ∈ feedsFile.content := by
      rw [hs.content]
      simp [hc]
    rwa [List.eq_of_mem_replicate hmem] at hc
  have hheads : ∀ l ∈ feedsFile.coded, ¬Dialect.Heads sampleConfig l.1 := by
    intro l hl
    obtain ⟨line, hline, rfl⟩ := List.mem_map.mp hl
    rw [Line.coded, hblank line hline]
    exact show ¬Dialect.Heads sampleConfig [] by decide
  refine ⟨hsize, ?_, ?_⟩
  · rw [SourceFile.items, Phase.read_seeking hheads]
    simp
  · rw [flatten, lines, feedsFile, lineCount_stops_of_feeds (n := Text.bound32 - 1) rfl]
    rfl

end Bytes

end NetFlat
