import NetFlat.Proofs.Command.Output

/-!
# Flattening one file is all or nothing

A run that flattens one file ends in one of three ways.  If its configuration does not resolve, or
its input cannot be read or does not flatten, then nothing is written and no flat module is printed.
If the input flattens, the text of the flat module is handed out as a whole.  In between there is
the output file that cannot be written.  What else such a run prints is the report on its file, if
that was asked for as JSON, and nothing otherwise.  This is so for all libraries that a run may call.

* `Request.resolved`, `Request.Flattens`, `Request.Refused`: what becomes of a request, apart from
  its reports;
* `Request.printed`: what its run prints besides a flat module;
* `Outcome.Barren`: a run that failed and left nothing behind;
* `barren_clean_of_refused`, `clean_of_flattens`: the ways in which a run ends;
* `run_clean`: a run is all or nothing.

What flattens is said with `flatten`; for an input of less than 2^32 bytes, `Bytes.eq_of_flatten_eq_ok`
has the same for flattening by bytes, with offsets of 32 bits.
-/

namespace NetFlat.Command

variable {l : Libraries} {m : Manner} {r : Request} {config : Config} {input content : Text}
  {output : Option Text} {c : Console} {tree : FileTree} {f : Flattened}

/-! ### Requests -/

/-- The project file of a request, if there is one. -/
def Request.project (r : Request) (l : Libraries) (tree : FileTree) :
    Except String (Option ProjectFile) := do
  match ← locateProject tree r.common.config with
  | none => return none
  | some path => return some (← readProject l tree path)

/-- The configuration of a request: that of the project file, with the settings of the command
line. -/
def Request.resolved (r : Request) (l : Libraries) (tree : FileTree) : Except String Config := do
  (Config.resolved (← r.project l tree) r.overrides).mapError ConfigError.message

/-- The input holds a text that flattens under the configuration of the request. -/
def Request.Flattens (r : Request) (l : Libraries) (input : Text) (tree : FileTree)
    (f : Flattened) : Prop :=
  ∃ config content, r.resolved l tree = .ok config ∧ tree.readText input = .ok content ∧
    (flatten config ⟨0, String.ofList input, content⟩).result = .ok f

/-- The configuration of the request does not resolve, the input cannot be read, or its text does
not flatten. -/
inductive Request.Refused (r : Request) (l : Libraries) (input : Text) (tree : FileTree) : Prop
  | config {message : String} (h : r.resolved l tree = .error message)
  | input {fault : FileFault} (h : tree.readText input = .error fault)
  | netlist {config : Config} {content : Text} {failure : Failure}
      (hc : r.resolved l tree = .ok config) (hr : tree.readText input = .ok content)
      (h : (flatten config ⟨0, String.ofList input, content⟩).result = .error failure)

theorem Request.refused_or_flattens (r : Request) (l : Libraries) (input : Text)
    (tree : FileTree) : r.Refused l input tree ∨ ∃ f, r.Flattens l input tree f := by
  cases hc : r.resolved l tree with
  | error message => exact .inl (.config hc)
  | ok config =>
    cases hr : tree.readText input with
    | error fault => exact .inl (.input hr)
    | ok content =>
      cases hf : (flatten config ⟨0, String.ofList input, content⟩).result with
      | error failure => exact .inl (.netlist hc hr hf)
      | ok f => exact .inr ⟨f, config, content, hc, hr, hf⟩

theorem Request.Flattens.unique {g : Flattened} (hf : r.Flattens l input tree f)
    (hg : r.Flattens l input tree g) : f = g := by
  obtain ⟨config, content, hc, hr, hf⟩ := hf
  obtain ⟨config', content', hc', hr', hg⟩ := hg
  obtain rfl := Except.ok.inj (hc.symm.trans hc')
  obtain rfl := Except.ok.inj (hr.symm.trans hr')
  exact Except.ok.inj (hf.symm.trans hg)

theorem Request.Refused.not_flattens (h : r.Refused l input tree) : ¬r.Flattens l input tree f := by
  rintro ⟨config, content, hc, hr, hf⟩
  cases h with
  | config h => exact nomatch h.symm.trans hc
  | input h => exact nomatch h.symm.trans hr
  | netlist hc' hr' h =>
    obtain rfl := Except.ok.inj (hc'.symm.trans hc)
    obtain rfl := Except.ok.inj (hr'.symm.trans hr)
    exact nomatch h.symm.trans hf

theorem configure_fst (l : Libraries) (m : Manner) (r : Request) (tree : FileTree) (c : Console) :
    (configure l m r tree c).1 = r.resolved l tree := by
  unfold configure Request.resolved Request.project
  cases locateProject tree r.common.config with
  | error e => rfl
  | ok path =>
    cases path with
    | none =>
      simp only [pure, Except.pure, bind, Except.bind]
      cases Config.resolved none r.overrides <;> rfl
    | some p =>
      simp only [pure, Except.pure, bind, Except.bind]
      cases readProject l tree p with
      | error e => rfl
      | ok file =>
        simp only [Except.map]
        cases Config.resolved (some file) r.overrides <;> rfl

theorem out_configure (l : Libraries) (m : Manner) (r : Request) (tree : FileTree) (c : Console) :
    (configure l m r tree c).2.out = c.out := by
  unfold configure
  split
  · rfl
  · simp only
    split
    · exact Console.out_log ..
    · split <;> exact Console.out_log ..

/-! ### Standard output -/

/-- What the run of a request prints besides a flat module: the report on the input, if there is an
output file, the report was asked for as JSON, and there was an input to report on. -/
def Request.printed (r : Request) (l : Libraries) (input : Text) (output : Option Text)
    (tree : FileTree) : String :=
  if r.format = .json ∧ output ≠ none then
    match r.resolved l tree, tree.readText input with
    | .ok config, .ok content => reportText l [FileRun.ofContent config input content]
    | _, _ => ""
  else ""

namespace Request

theorem printed_of_text (hr : r.format = .text) : r.printed l input output tree = "" := by
  simp [printed, hr]

theorem printed_none (r : Request) (l : Libraries) (input : Text) (tree : FileTree) :
    r.printed l input none tree = "" := by
  simp [printed]

theorem printed_of_unresolved {message : String} (hc : r.resolved l tree = .error message) :
    r.printed l input output tree = "" := by
  simp [printed, hc]

theorem printed_of_unread {fault : FileFault} (hr : tree.readText input = .error fault) :
    r.printed l input output tree = "" := by
  unfold printed
  rw [hr]
  split
  · cases r.resolved l tree <;> rfl
  · rfl

theorem printed_of_json {path : Text} (hr : r.format = .json)
    (hc : r.resolved l tree = .ok config) (hread : tree.readText input = .ok content) :
    r.printed l input (some path) tree =
      reportText l [FileRun.ofContent config input content] := by
  simp [printed, hr, hc, hread]

end Request

/-- The report on an input is all that a run has printed when it stands. -/
theorem out_report_eq_printed (hm : m.format = r.format) (hj : r.format = .json → output ≠ none)
    (hc : r.resolved l tree = .ok config) (hr : tree.readText input = .ok content)
    (hout : c.out = "") : (report l m [FileRun.ofContent config input content] c).out =
      r.printed l input output tree := by
  rw [out_report, hout, hm]
  cases hf : r.format with
  | text => rw [Request.printed_of_text hf]
  | json =>
    obtain ⟨path, rfl⟩ := Option.ne_none_iff_exists'.mp (hj hf)
    rw [Request.printed_of_json hf hc hr, String.empty_append]

/-! ### Outcomes -/

/-- The run failed, left the tree as it was, and printed just the text. -/
structure Outcome.Barren (o : Outcome) (tree : FileTree) (printed : String) : Prop where
  code : o.code = 1
  tree : o.tree = tree
  out : o.console.out = printed

theorem Outcome.Barren.code_ne_zero {o : Outcome} {s : String} (h : o.Barren tree s) :
    o.code ≠ 0 := by
  rw [h.code]
  decide

theorem barren_failed (message : String) (tree : FileTree) (hc : c.out = "") :
    (failed message c tree).Barren tree "" :=
  ⟨rfl, rfl, by rw [failed, Console.out_say, hc]⟩

theorem flattened_ofContent (config : Config) (path content : Text) :
    (FileRun.ofContent config path content).flattened =
      (flatten config ⟨0, String.ofList path, content⟩).result.toOption := by
  unfold FileRun.ofContent
  simp only
  split
  · next f hf => rw [hf]; rfl
  · next failure hf => rw [hf]; rfl

theorem barren_clean_of_json (l : Libraries) (r : Request) (input : Text) (tree : FileTree)
    (hm : m.format = .json) : (clean l m r input none tree).Barren tree "" := by
  unfold clean
  rw [if_pos ⟨hm, rfl⟩]
  exact barren_failed _ tree rfl

/-- **Refusal.** A run that cannot flatten its input leaves nothing behind, and prints the report at
most. -/
theorem barren_clean_of_refused (output : Option Text) (hm : m.format = r.format)
    (h : r.Refused l input tree) :
    (clean l m r input output tree).Barren tree (r.printed l input output tree) := by
  -- without an output file a run with a report does not look at its input
  by_cases hj : m.format = .json ∧ output = none
  · obtain ⟨hj, rfl⟩ := hj
    rw [Request.printed_none]
    exact barren_clean_of_json l r input tree hj
  unfold clean
  rw [if_neg hj]
  have hfst := configure_fst l m r tree {}
  have hout := out_configure l m r tree {}
  split
  · next e c he =>
    rw [he] at hfst hout
    rw [Request.printed_of_unresolved hfst.symm]
    exact barren_failed e tree hout
  · next config c he =>
    rw [he] at hfst hout
    have hc : c.out = "" := hout
    unfold cleanWith
    cases hr : tree.readText input with
    | error fault =>
      rw [Request.printed_of_unread hr]
      exact barren_failed _ tree (by rw [Console.out_sayIf, hc])
    | ok content =>
      have hnone : (FileRun.ofContent config input content).flattened = none := by
        rw [flattened_ofContent]
        cases hf : (flatten config ⟨0, String.ofList input, content⟩).result with
        | error failure => rfl
        | ok f => exact (h.not_flattens ⟨config, content, hfst.symm, hr, hf⟩).elim
      simp only [hnone]
      refine ⟨rfl, rfl, out_report_eq_printed hm (fun hf hnone => hj ⟨hm.trans hf, hnone⟩)
        hfst.symm hr ?_⟩
      rw [Console.out_log, Console.out_sayIf, hc]

/-- **Delivery.** A run that can flatten its input hands the flat module out, with nothing but the
report in front of it, which needs an output file if it goes to standard output. -/
theorem clean_of_flattens (h : r.Flattens l input tree f) (hm : m.format = r.format)
    (hj : r.format = .json → output ≠ none) :
    ∃ c : Console, clean l m r input output tree = deliver m output f c tree ∧
      c.out = r.printed l input output tree := by
  obtain ⟨config, content, hresolved, hread, hflat⟩ := h
  have hfst := configure_fst l m r tree {}
  have hout : (configure l m r tree {}).2.out = "" := out_configure l m r tree {}
  have hconfigure : configure l m r tree {} = (.ok config, (configure l m r tree {}).2) :=
    Prod.ext (hfst.trans hresolved) rfl
  generalize (configure l m r tree {}).2 = c at hout hconfigure
  have hmodule : (FileRun.ofContent config input content).flattened = some f := by
    rw [flattened_ofContent, hflat]
    rfl
  refine ⟨report l m [FileRun.ofContent config input content] ((c.sayIf m.tells
    s!"   Flattening {String.ofList input} (module {Text.quoted config.moduleName})").log
      (l.log m.logLevel) (FileRun.ofContent config input content).log), ?_, ?_⟩
  · unfold clean
    rw [if_neg (fun h => hj (hm.symm.trans h.1) h.2), hconfigure]
    simp only [cleanWith, hread, hmodule]
  · refine out_report_eq_printed hm hj hresolved hread ?_
    rw [Console.out_log, Console.out_sayIf, hout]

theorem code_deliver (m : Manner) (output : Option Text) (f : Flattened) (c : Console)
    (tree : FileTree) : (deliver m output f c tree).code = 0 ↔
      ∀ path ∈ output, (writeOutput path f.text tree).1 = .ok () := by
  unfold deliver
  cases output with
  | none => simp
  | some path =>
    simp only [Option.mem_def, Option.some.injEq, forall_eq']
    split
    · next fault tree h => simp [failed, h]
    · next tree h => simp [h]

/-- The flat module was handed out: it was printed, with nothing else, and nothing was written; or
it was written to the output file, and just the other text was printed. -/
def Outcome.Delivered (o : Outcome) (output : Option Text) (f : Flattened) (tree : FileTree)
    (printed : String) : Prop :=
  match output with
  | none => o.console.out = String.ofList f.text ∧ o.tree = tree
  | some path => Written path f.text tree o.tree ∧ o.console.out = printed

theorem delivered_deliver (hout : output = none → c.out = "")
    (h : (deliver m output f c tree).code = 0) :
    (deliver m output f c tree).Delivered output f tree c.out := by
  cases output with
  | none =>
    refine ⟨?_, rfl⟩
    change ((c.print (String.ofList f.text)).sayIf _ _).out = _
    rw [Console.out_sayIf, Console.out_print, hout rfl, String.empty_append]
  | some path =>
    have hwrite := (code_deliver m (some path) f c tree).mp h path rfl
    obtain ⟨after, hwritten⟩ : ∃ after, writeOutput path f.text tree = (.ok (), after) :=
      ⟨_, Prod.ext hwrite rfl⟩
    have hdeliver : deliver m (some path) f c tree = ⟨0, c.sayIf m.tells
        s!"     Wrote {String.ofList path}: {f.stats.summary}", after⟩ := by
      simp only [deliver, hwritten]
    rw [hdeliver]
    exact ⟨written_of_writeOutput hwritten, Console.out_sayIf ..⟩

theorem deliver_of_code_ne_zero (h : (deliver m output f c tree).code ≠ 0) :
    (deliver m output f c tree).code = 1 ∧ (deliver m output f c tree).console.out = c.out ∧
      ∃ path fault, output = some path ∧
        writeOutput path f.text tree = (.error fault, (deliver m output f c tree).tree) := by
  cases output with
  | none => exact (h rfl).elim
  | some path =>
    cases hwrite : writeOutput path f.text tree with
    | mk result after =>
      cases result with
      | ok u => exact (h ((code_deliver ..).mpr (by simp [hwrite]))).elim
      | error fault =>
        have hdeliver : deliver m (some path) f c tree = failed
            s!"cannot write {String.ofList path}: {fault.message}" c after := by
          simp only [deliver, hwrite]
        rw [hdeliver]
        exact ⟨rfl, Console.out_say .., path, fault, rfl, hwrite⟩

/-- **All or nothing.** Let a run be asked to flatten one file.  If the request is refused, the run
fails, leaves the tree as it was, and prints the report on the file at most.  If it ends without a
failure, the input, as it was at the start, flattens, and the flat module was handed out.  So it is
exactly if the input flattens, a report on standard output has that to itself, and the output file
can be written.  A run that ends otherwise has printed that report at most and has left the tree as
it was, unless it was the output file that could not be written. -/
theorem run_clean (l : Libraries) {args : List Text} (term : Option Text) (tree : FileTree)
    (hr : l.arguments args = .ok r) (ht : r.task = .clean input output) :
    let o := runWith l args term tree
    let printed := r.printed l input output tree
    (r.Refused l input tree → o.Barren tree printed) ∧
    (o.code = 0 → ∃ f, r.Flattens l input tree f ∧ o.Delivered output f tree printed) ∧
    (o.code = 0 ↔ ∃ f, r.Flattens l input tree f ∧ (r.format = .json → output ≠ none) ∧
      ∀ path ∈ output, (writeOutput path f.text tree).1 = .ok ()) ∧
    (o.code ≠ 0 → o.code = 1 ∧ o.console.out = printed ∧ (o.tree = tree ∨
      ∃ path fault f, output = some path ∧ r.Flattens l input tree f ∧
        writeOutput path f.text tree = (.error fault, o.tree))) := by
  have hrun : runWith l args term tree = clean l (Manner.of r term) r input output tree := by
    simp only [runWith, hr, ht]
  simp only [hrun]
  by_cases hgood : (∃ f, r.Flattens l input tree f) ∧ (r.format = .json → output ≠ none)
  · obtain ⟨⟨f, hf⟩, hjson⟩ := hgood
    obtain ⟨c, hclean, hc⟩ := clean_of_flattens (m := Manner.of r term) hf rfl hjson
    rw [hclean, ← hc]
    refine ⟨fun h => (h.not_flattens hf).elim, fun h => ⟨f, hf, delivered_deliver ?_ h⟩,
      (code_deliver ..).trans ⟨fun h => ⟨f, hf, hjson, h⟩, ?_⟩, fun h => ?_⟩
    · rintro rfl
      rw [hc, Request.printed_none]
    · rintro ⟨g, hg, -, h⟩
      rwa [hf.unique hg]
    · obtain ⟨hcode, hout, path, fault, hpath, hwrite⟩ := deliver_of_code_ne_zero h
      exact ⟨hcode, hout, .inr ⟨path, fault, f, hpath, hf, hwrite⟩⟩
  · have hbarren : (clean l (Manner.of r term) r input output tree).Barren tree
        (r.printed l input output tree) := by
      rcases r.refused_or_flattens l input tree with hrefused | hf
      · exact barren_clean_of_refused output rfl hrefused
      · obtain ⟨hjson, rfl⟩ : r.format = .json ∧ output = none := by
          simpa [hf] using hgood
        rw [Request.printed_none]
        exact barren_clean_of_json l r input tree hjson
    refine ⟨fun _ => hbarren, fun h => (hbarren.code_ne_zero h).elim,
      ⟨fun h => (hbarren.code_ne_zero h).elim, ?_⟩,
      fun _ => ⟨hbarren.code, hbarren.out, .inl hbarren.tree⟩⟩
    rintro ⟨f, hf, hjson, -⟩
    exact (hgood ⟨⟨f, hf⟩, hjson⟩).elim

/-- An input that flattens, one that does not, and an older output. -/
def cleanTree : FileTree :=
  treeOfTexts [(["in.v"], bareText), (["bad.v"], "module".toList), (["out.v"], "old".toList)]

/-- The arguments that ask to flatten a file into the place of the older output. -/
def cleanArguments (input : String) : List Text :=
  ["clean", input, "-o", "out.v", "--module", "top", "--width", "2"].map String.toList

/-- The request that they are read as. -/
def cleanRequest (input : String) : Request :=
  ⟨{}, .text, ⟨some "top".toList, none, none, some 2⟩,
    .clean input.toList (some "out.v".toList)⟩

theorem run_clean_cleanTree :
    (∃ f : Flattened, (cleanRequest "in.v").Flattens .standard "in.v".toList cleanTree f ∧
      (run (cleanArguments "in.v") none cleanTree).Delivered (some "out.v".toList) f cleanTree "") ∧
    (cleanRequest "bad.v").Refused .standard "bad.v".toList cleanTree ∧
      (run (cleanArguments "bad.v") none cleanTree).Barren cleanTree "" := by
  have hread (input : String) (h : input ∈ ["in.v", "bad.v"]) :
      Libraries.standard.arguments (cleanArguments input) = .ok (cleanRequest input) := by
    obtain ⟨r, hr, rfl⟩ : ∃ r, read (cleanArguments input) = .ok r ∧ r = cleanRequest input := by
      revert h
      revert input
      decide +kernel
    exact congrArg (Except.mapError exitOf) hr
  have hprinted (input : String) :
      (cleanRequest input).printed .standard input.toList (some "out.v".toList) cleanTree = "" :=
    Request.printed_of_text rfl
  have hcode : (run (cleanArguments "in.v") none cleanTree).code = 0 := by decide +kernel
  obtain ⟨config, hc, content, hr, failure, hfail, -⟩ : ∃ config,
      (cleanRequest "bad.v").resolved .standard cleanTree = .ok config ∧ ∃ content,
        cleanTree.readText "bad.v".toList = .ok content ∧ ∃ failure,
          (flatten config ⟨0, String.ofList "bad.v".toList, content⟩).result = .error failure ∧
            True := by
    decide +kernel
  have hrefused : (cleanRequest "bad.v").Refused .standard "bad.v".toList cleanTree :=
    .netlist hc hr hfail
  have hgood := run_clean .standard none cleanTree (hread "in.v" (by simp)) rfl
  have hbad := run_clean .standard none cleanTree (hread "bad.v" (by simp)) rfl
  simp only [hprinted] at hgood hbad
  exact ⟨hgood.2.1 hcode, hrefused, hbad.1 hrefused⟩

end NetFlat.Command
