import NetFlat.Proofs.Scan.Layout
import NetFlat.Proofs.Scan.Reduction

/-!
# The code of the module alone

What flattening yields is a function of the code of the configured module.  Comments, white space
around the code and line ends do not matter anywhere in the file, and when flattening succeeds
neither do the lines before and after the module.

* `observed_eq_of_codes`: files whose lines have the same code;
* `flatten_eq_of_body`: files whose modules have the same body;
* `flatten_eq_of_layout`: files with the same module among other lines;
* `observed_eq_of_module`: both.
-/

namespace NetFlat

variable {config : Config} {file file' : SourceFile}

/-- What is seen of a flattening, places and the texts of lines apart: text and statistics, or code,
line number and message of the failure, and the findings. -/
structure Observation where
  result : Except (Code × Nat × String) (Text × Stats)
  findings : List Diagnostic

def Flattening.observed (f : Flattening) : Observation where
  result := (f.result.map fun flattened => (flattened.text, flattened.stats)).mapError fun failure =>
    (failure.code, failure.line.number, failure.message)
  findings := f.findings.map Diagnostic.unplaced

def SourceFile.lineCodes (file : SourceFile) : List Text := file.lines.map Line.code

/-! ### Lines with the same code -/

theorem SourceFile.map_reduce_number {m n k s t : Nat} {ts us : List Text}
    (h : (number m n s ts).map Line.code = (number k n t us).map Line.code) :
    (number m n s ts).map Line.reduce = (number k n t us).map Line.reduce := by
  induction ts generalizing n s t us with
  | nil =>
    cases us with
    | nil => rfl
    | cons u us => simp [number] at h
  | cons u ts ih =>
    cases us with
    | nil => simp [number] at h
    | cons v us =>
      simp only [number, List.map_cons, List.cons.injEq] at h ⊢
      refine ⟨?_, ih h.2⟩
      rw [Line.reduce, Line.reduce, h.1]

theorem SourceFile.map_reduce_lines (h : file'.lineCodes = file.lineCodes) :
    file'.lines.map Line.reduce = file.lines.map Line.reduce :=
  map_reduce_number h

theorem Scan.flattened_reduce (s : Scan) : s.reduce.flattened config = s.flattened config := rfl

theorem observed_flatten (config : Config) (file : SourceFile) : (flatten config file).observed =
    let s := Scan.run config (file.lines.map Line.reduce)
    ⟨match s.failure? config ((file.lines.map Line.reduce).getLast?.getD .none) with
      | some f => .error (f.code, f.line.number, f.message)
      | none => .ok ((s.flattened config).text, (s.flattened config).stats), s.findings⟩ := by
  have hlast : (file.lines.map Line.reduce).getLast?.getD .none =
      (file.lines.getLast?.getD .none).reduce := by
    rw [List.getLast?_map]
    cases file.lines.getLast? <;> rfl
  rw [hlast, ← Scan.reduce_run]
  simp only [Scan.failure?_reduce, Scan.flattened_reduce, flatten, flattenLines]
  cases (Scan.run config file.lines).failure? config (file.lines.getLast?.getD .none) with
  | none => rfl
  | some f =>
    obtain ⟨line, cause⟩ := f
    cases cause <;> rfl

/-- **Lines with the same code** are flattened alike. -/
theorem observed_eq_of_codes (h : file'.lineCodes = file.lineCodes) :
    (flatten config file').observed = (flatten config file).observed := by
  rw [observed_flatten, observed_flatten, SourceFile.map_reduce_lines h]

/-! ### Other lines around the module -/

/-- The findings of a successful run are those about the items at no place, places apart. -/
theorem unplaced_findings_of_flatten_eq_ok {f : Flattened}
    (h : (flatten config file).result = .ok f) :
    (flatten config file).findings.map Diagnostic.unplaced =
      ((file.erasedItems config).flatMap (Item.findings config)).map Diagnostic.unplaced := by
  rw [findings_of_flatten_eq_ok h, SourceFile.erasedItems, List.flatMap_map, List.map_flatMap,
    List.map_flatMap]
  simp only [Item.unplaced_findings_relocate]

section Body

variable {f : Flattened} {L : Layout} {before opening after : List Text} {entry closing : Text}

theorem Layout.Fits.read_ofCodes (hL : L.Fits config) (hl : file.coded = L.lines)
    (hL' : (Layout.ofCodes before opening entry (L.body.map Prod.fst) closing after).Fits config)
    (hl' : file'.lineCodes =
      before ++ (opening ++ [entry] ++ L.body.map Prod.fst ++ [closing]) ++ after) :
    (file'.Closes config ↔ file.Closes config) ∧
      file'.erasedItems config = file.erasedItems config := by
  have hread : Phase.seeking.read config
      (Layout.ofCodes before opening entry (L.body.map Prod.fst) closing after).lines =
        ((Phase.seeking.read config file'.coded).1.relocate .erase, file'.erasedItems config) := by
    rw [← read_codes, Layout.lines_ofCodes, ← hl', codes, SourceFile.lineCodes, placeless, List.map_map,
      List.map_map]
    rfl
  have hbody : Phase.body.read config (placeless (L.body.map Prod.fst)) =
      ((Phase.body.read config L.body).1.relocate .erase,
        (Phase.body.read config L.body).2.map (Item.relocate .erase)) := by
    rw [placeless, List.map_map]
    exact Phase.read_relocate (r := .erase) config .body L.body
  obtain ⟨hphase, hfound⟩ := hL'.read_lines
  rw [hread] at hphase hfound
  rw [Layout.ofCodes, hbody] at hphase hfound
  constructor
  · rw [hL.closes_iff hl]
    exact relocate_eq_closed_iff.symm.trans (hphase.trans relocate_eq_body_iff)
  · rw [← hL.items_eq hl] at hfound
    exact hfound

/-- **The body decides**: nothing else of the file has a part in the result. -/
theorem flatten_eq_of_body (h : (flatten config file).result = .ok f)
    (hL : L.Fits config) (hl : file.coded = L.lines)
    (hL' : (Layout.ofCodes before opening entry (L.body.map Prod.fst) closing after).Fits config)
    (hl' : file'.lineCodes =
      before ++ (opening ++ [entry] ++ L.body.map Prod.fst ++ [closing]) ++ after) :
    (flatten config file').result = .ok f ∧
      (flatten config file').findings.map Diagnostic.unplaced =
        (flatten config file).findings.map Diagnostic.unplaced := by
  obtain ⟨hcl, hitems⟩ := hL.read_ofCodes hl hL' hl'
  have h' : (flatten config file').result = .ok f := by
    rw [flatten_eq_ok_iff_erasedItems] at h ⊢
    rwa [hcl, hitems]
  rw [unplaced_findings_of_flatten_eq_ok h, unplaced_findings_of_flatten_eq_ok h', hitems]
  exact ⟨h', rfl⟩

/-- **Other lines around the module** change nothing. -/
theorem flatten_eq_of_layout (h : (flatten config file).result = .ok f)
    (hL : L.Fits config) (hl : file.coded = L.lines) (hb : ∀ c ∈ before, ¬Dialect.Heads config c)
    (hl' : file'.lineCodes = before ++ L.moduleLines.map Prod.fst ++ after) :
    (flatten config file').result = .ok f ∧
      (flatten config file').findings.map Diagnostic.unplaced =
        (flatten config file).findings.map Diagnostic.unplaced := by
  have hheads : ∀ c ∈ (L.opening.map Prod.fst ++ [L.entry.1]).head?, Dialect.Heads config c := by
    have := hL.heads
    cases ho : L.opening <;> simpa [Layout.header, ho] using this
  rw [L.map_fst_moduleLines] at hl'
  exact flatten_eq_of_body h hL hl
    (hL.ofCodes hb hheads (List.forall_mem_map.mpr hL.opening) hL.entry after) hl'

end Body

/-! ### Both -/

/-- **The result is a function of the code of the module.** Files whose lines have the same code are
flattened alike.  A file that is flattened has a layout; and a file with the code of its module
between other lines, of which those before head no such module, is flattened to the same.  The files
are cut into lines with offsets of any size; offsets of 32 bits do the same for files of less than
2^32 bytes (`Bytes.eq_of_flatten_eq_ok`). -/
theorem observed_eq_of_module (config : Config) (file : SourceFile) :
    (∀ file', file'.lineCodes = file.lineCodes →
      (flatten config file').observed = (flatten config file).observed) ∧
    (∀ f, (flatten config file).result = .ok f →
      (∃ L : Layout, L.Fits config ∧ file.coded = L.lines) ∧
      ∀ L : Layout, L.Fits config → file.coded = L.lines → ∀ file' before after,
        (∀ c ∈ before, ¬Dialect.Heads config c) →
        file'.lineCodes = before ++ L.moduleLines.map Prod.fst ++ after →
        (flatten config file').result = .ok f ∧
          (flatten config file').findings.map Diagnostic.unplaced =
            (flatten config file).findings.map Diagnostic.unplaced) := by
  refine ⟨fun file' h => observed_eq_of_codes h, fun f h => ⟨?_, ?_⟩⟩
  · exact SourceFile.exists_layout (flatten_eq_ok_iff.mp h).1
  · intro L hL hl file' before after hb hl'
    exact flatten_eq_of_layout h hL hl hb hl'

/-- The lines of the sample, with carriage returns and comments. -/
def annotatedFile : SourceFile :=
  ⟨0, "top.v", (["module top(in_array, out_array); // ports\r", "wire n;\r",
    "\tXNOR g0 (.A(in_array[0]),\r", ".B(in_array[1]), .Z(n)); // first\r",
    "  NOR g1 (.A(n), .B(1'b0), .Z(out_array[0]));\t\r", "endmodule //\r"]).flatMap
      (·.toList ++ ['\n'])⟩

/-- The lines of the sample between others. -/
def surroundedFile : SourceFile :=
  ⟨0, "top.v", "module other(a);\n  wire n\nendmodule\n".toList ++ sampleFile.content ++
    "module top(b);\n".toList⟩

/-- The sample, with comments or between other lines, comes to the same. -/
theorem observed_annotatedFile :
    (flatten sampleConfig annotatedFile).observed = (flatten sampleConfig sampleFile).observed ∧
    ∃ f, (flatten sampleConfig sampleFile).result = .ok f ∧
      (flatten sampleConfig surroundedFile).result = .ok f := by
  obtain ⟨hcodes, hmodule⟩ := observed_eq_of_module sampleConfig sampleFile
  refine ⟨hcodes annotatedFile (by decide +kernel), ?_⟩
  obtain ⟨f, hf, -⟩ := flatten_sampleFile
  let L : Layout := ⟨[], [], sampleFile.coded.headD ([], .none),
    (sampleFile.coded.drop 1).dropLast, sampleFile.coded.getLastD ([], .none), []⟩
  have hL : L.Fits sampleConfig :=
    ⟨by decide +kernel, by decide +kernel, by decide +kernel, by decide +kernel,
      by decide +kernel, by decide +kernel⟩
  refine ⟨f, hf, ((hmodule f hf).2 L hL (by decide +kernel) surroundedFile
    ["module other(a);".toList, "wire n".toList, "endmodule".toList]
    ["module top(b);".toList] (by decide +kernel) (by decide +kernel)).1⟩

end NetFlat
