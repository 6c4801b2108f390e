import NetFlat.Proofs.Flattening
import NetFlat.Proofs.Jobs.Batch
import NetFlat.Proofs.Jobs.Steps

/-!
# Jobs do not get in each other's way

Jobs whose outputs differ are worked off independently of each other, whatever the order of their
steps, as long as no output bears the name of the temporary file of another one: each output holds
what its input flattens to, and an input that does not flatten leaves its output as it was.

* `Job.Holds`, `Workers.Sound`: what stands at the places of a job, stage by stage;
* `Job.Advanced`, `Workers.Sound.advance`, `Workers.Sound.step`: one step;
* `Workers.Sound.run`: a row of steps;
* `Workers.Sound.find_step`: a step leaves inputs and outputs of other jobs alone;
* `independence`: the outcome, whatever the order;
* `not_served_of_crossed_names`: an output that bears the name of a temporary file can get lost.
-/

namespace NetFlat.Command

open FileTree (inDirectory names)
open Job (Batch outPath)

variable {config : Config} {dir : Text} {start tree : FileTree} {p : Path} {job other : Job}
  {jobs : List Job} {w : Workers}

/-! ### Stages -/

/-- What stands at the places of a job at a stage, if nothing but the job itself was there. -/
def Job.Holds (config : Config) (start : FileTree) (p : Path) (job : Job) (tree : FileTree) :
    Job.Stage → Prop
  | .waiting => tree.get? (job.place p) = start.get? (job.place p)
  | .flattened text =>
    job.text? config start = some text ∧ tree.get? (job.place p) = start.get? (job.place p)
  | .written => ∃ text, job.text? config start = some text ∧
    tree.get? (job.aside p) = some (Job.holding text) ∧
      tree.get? (job.place p) = start.get? (job.place p)
  | .finished => ∃ text, job.text? config start = some text ∧
    tree.get? (job.place p) = some (Job.holding text)
  | .refused =>
    job.text? config start = none ∧ tree.get? (job.place p) = start.get? (job.place p)
  | .stopped => False

theorem Job.Holds.congr {stage : Job.Stage} {tree' : FileTree}
    (h : job.Holds config start p tree stage)
    (hp : tree'.get? (job.place p) = tree.get? (job.place p))
    (ha : tree'.get? (job.aside p) = tree.get? (job.aside p)) :
    job.Holds config start p tree' stage := by
  cases stage with
  | waiting => exact hp.trans h
  | flattened text => exact ⟨h.1, hp.trans h.2⟩
  | written =>
    obtain ⟨text, htext, haside, h⟩ := h
    exact ⟨text, htext, ha.trans haside, hp.trans h⟩
  | finished =>
    obtain ⟨text, htext, h⟩ := h
    exact ⟨text, htext, hp.trans h⟩
  | refused => exact ⟨h.1, hp.trans h.2⟩
  | stopped => exact h

/-- What a step of a job comes to on a tree: directories are as at the start, and all places but
those of the job as before.  A job without a text leaves all as it was. -/
structure Job.Advanced (config : Config) (start : FileTree) (p : Path) (job : Job)
    (tree : FileTree) (r : Job.Stage × FileTree) : Prop where
  same : start.SameDirectories r.2
  frame : ∀ q, q ≠ job.place p → q ≠ job.aside p → r.2.get? q = tree.get? q
  idle : job.text? config start = none → r.2 = tree
  holds : job.Holds config start p r.2 r.1

/-- Workers that have done nothing but what their jobs are for. -/
structure Workers.Sound (config : Config) (start : FileTree) (p : Path) (jobs : List Job)
    (w : Workers) : Prop where
  same : start.SameDirectories w.tree
  clean : ∀ q, (∀ job ∈ jobs, q ≠ job.place p ∧ q ≠ job.aside p) →
    w.tree.get? q = start.get? q
  idle : (∀ job ∈ jobs, job.text? config start = none) → w.tree = start
  stage : ∀ job ∈ jobs, job.Holds config start p w.tree (w.stage job)

namespace Workers

theorem sound_start (config : Config) (start : FileTree) (p : Path) (jobs : List Job) :
    (Workers.start start).Sound config start p jobs :=
  ⟨.refl start, fun _ _ => rfl, fun _ => rfl, fun _ _ => rfl⟩

namespace Sound

/-! ### One step -/

section step

variable (hb : Batch config dir start jobs) (hw : w.Sound config start (outPath start dir) jobs)
  (hj : job ∈ jobs)

include hb hw hj

theorem readText_input (hs : w.stage job = .waiting) :
    w.tree.readText job.input = start.readText job.input := by
  obtain ⟨q, content, hq, -⟩ := (hb.able job hj).input
  have hq' : w.tree.parent job.input = start.parent job.input :=
    (FileTree.parent_of_sameDirectories hw.same hq).trans hq.symm
  refine FileTree.readText_congr (FileTree.find_congr hq' fun q' name h => ?_)
  obtain ⟨rfl, hname⟩ := Prod.mk.inj (Except.ok.inj (hq.symm.trans h))
  obtain rfl := Option.some.inj hname
  rw [FileTree.child_of_isDots (hb.named job hj).plain.2]
  by_cases hown : q ++ [job.name] = job.place (outPath start dir)
  · have := hw.stage job hj
    rw [hs] at this
    rw [hown]
    exact this
  · refine hw.clean _ fun other ho => ⟨?_, hb.place_ne_aside hj ho _ _⟩
    by_cases he : job = other
    · exact he ▸ hown
    · exact hb.place_ne_place hj ho he _ _

/-- A job that waits reads its input, which leaves all as it was. -/
theorem advance_waiting (hs : w.stage job = .waiting) :
    job.Advanced config start (outPath start dir) w.tree
      (job.advance config w.tree .waiting) := by
  obtain ⟨-, content, -, hread⟩ := (hb.able job hj).input
  have hread' := (readText_input hb hw hj hs).trans hread
  have htext : job.text? config start =
      (FileRun.ofContent config job.input content).flattened.map Flattened.text := by
    simp [Job.text?, hread, Except.toOption]
  have hplace : job.Holds config start (outPath start dir) w.tree .waiting := hs ▸ hw.stage job hj
  cases hf : (FileRun.ofContent config job.input content).flattened with
  | none =>
    have hadvance : job.advance config w.tree .waiting = (.refused, w.tree) := by
      simp only [Job.advance, hread', hf]
    rw [hadvance]
    exact ⟨hw.same, fun _ _ _ => rfl, fun _ => rfl, by rw [htext, hf]; rfl, hplace⟩
  | some f =>
    have hadvance : job.advance config w.tree .waiting = (.flattened f.text, w.tree) := by
      simp only [Job.advance, hread', hf]
    rw [hadvance]
    exact ⟨hw.same, fun _ _ _ => rfl, fun _ => rfl, by rw [htext, hf]; rfl, hplace⟩

theorem advance_flattened {text : Text} (hs : w.stage job = .flattened text) :
    job.Advanced config start (outPath start dir) w.tree
      (job.advance config w.tree (.flattened text)) := by
  have hnamed := hb.named job hj
  obtain ⟨-, hdots⟩ := Job.plain_temporary hnamed.plain.1.2
  obtain ⟨htext, hplace⟩ :
      job.Holds config start (outPath start dir) w.tree (.flattened text) := hs ▸ hw.stage job hj
  obtain ⟨-, haside, -, hdir⟩ := (hb.able job hj).output (by simp [htext])
  have hdir' : w.tree.get? (job.aside (outPath start dir)) ≠ some .directory :=
    fun he => hdir ((hw.same.directory _).mpr he)
  have hwrite : w.tree.writeText (temporary job.output) text =
      .ok (w.tree.put (job.aside (outPath start dir)) (Job.holding text)) := by
    refine FileTree.writeText_eq_ok_iff.mpr ⟨_, _,
      FileTree.parent_of_sameDirectories hw.same haside, hdots, hnamed.endsWithSlash_temporary, ?_⟩
    rw [FileTree.child_of_isDots hdots]
    exact ⟨hdir', rfl⟩
  have hne : job.place (outPath start dir) ≠ job.aside (outPath start dir) :=
    hb.place_ne_aside hj hj _ _
  have hput (q : Path) :
      (w.tree.put (job.aside (outPath start dir)) (Job.holding text)).get? q =
        if q = job.aside (outPath start dir) then some (Job.holding text) else w.tree.get? q :=
    FileTree.get?_put (Job.aside_ne_nil _ _)
  simp only [Job.advance, hwrite]
  refine ⟨hw.same.trans (FileTree.sameDirectories_put (Job.aside_ne_nil _ _) hdir'),
    fun q _ hq => by rw [hput, if_neg hq], fun hn => by simp [htext] at hn, text, htext, ?_, ?_⟩
  · rw [hput, if_pos rfl]
  · rw [hput, if_neg hne, hplace]

theorem advance_written (hs : w.stage job = .written) :
    job.Advanced config start (outPath start dir) w.tree
      (job.advance config w.tree .written) := by
  have hnamed := hb.named job hj
  have hdots := hnamed.plain.2
  obtain ⟨-, hdots'⟩ := Job.plain_temporary hnamed.plain.1.2
  obtain ⟨text, htext, haside, -⟩ :
      job.Holds config start (outPath start dir) w.tree .written := hs ▸ hw.stage job hj
  obtain ⟨hp, ha, hdir, -⟩ := (hb.able job hj).output (by simp [htext])
  have hdir' : w.tree.get? (job.place (outPath start dir)) ≠ some .directory :=
    fun he => hdir ((hw.same.directory _).mpr he)
  have hrename : w.tree.renameFile (temporary job.output) job.output =
      .ok ((w.tree.erase (job.aside (outPath start dir))).put (job.place (outPath start dir))
        (Job.holding text)) := by
    refine FileTree.renameFile_eq_ok_iff.mpr ⟨_, _, _, _, Job.holding text,
      FileTree.parent_of_sameDirectories hw.same ha,
      FileTree.parent_of_sameDirectories hw.same hp, hdots', hdots, ?_,
      hnamed.endsWithSlash_temporary, hnamed.endsWithSlash_output, ?_⟩
    · rw [FileTree.child_of_isDots hdots']
      exact haside
    · rw [FileTree.child_of_isDots hdots, FileTree.child_of_isDots hdots']
      exact ⟨hdir', rfl⟩
  have hput (q : Path) := FileTree.get?_renamed (t := w.tree)
    (Job.aside_ne_nil (outPath start dir) job) (Job.place_ne_nil (outPath start dir) job)
    (Job.holding text) q
  simp only [Job.advance, hrename]
  exact ⟨hw.same.trans (FileTree.sameDirectories_renamed (Job.aside_ne_nil _ _)
      (Job.place_ne_nil _ _) (by simp [haside, Job.holding]) hdir'),
    fun q hq hq' => by rw [hput, if_neg hq, if_neg hq'], fun hn => by simp [htext] at hn, text,
    htext, by rw [hput, if_pos rfl]⟩

/-- **The next step of a job**, stage by stage. -/
theorem advance : job.Advanced config start (outPath start dir) w.tree
    (job.advance config w.tree (w.stage job)) := by
  have hholds := hw.stage job hj
  cases hs : w.stage job with
  | waiting => exact advance_waiting hb hw hj hs
  | flattened text => exact advance_flattened hb hw hj hs
  | written => exact advance_written hb hw hj hs
  | finished | refused =>
    rw [hs] at hholds
    exact ⟨hw.same, fun _ _ _ => rfl, fun _ => rfl, hholds⟩
  | stopped =>
    rw [hs] at hholds
    exact hholds.elim

/-- **One step** of a worker. -/
theorem step : (w.step config job).Sound config start (outPath start dir) jobs := by
  obtain ⟨hsame, hframe, hidle, hholds⟩ := advance hb hw hj
  refine ⟨hsame, fun q hq => ?_, fun hn => ?_, fun other ho => ?_⟩
  · exact (hframe q (hq job hj).1 (hq job hj).2).trans (hw.clean q hq)
  · exact (hidle (hn job hj)).trans (hw.idle hn)
  · by_cases he : other = job
    · rw [he, stage_step_self]
      exact hholds
    · rw [stage_step_of_ne he]
      exact (hw.stage other ho).congr
        (hframe _ (hb.place_ne_place ho hj he _ _) (hb.place_ne_aside ho hj _ _))
        (hframe _ (hb.place_ne_aside hj ho _ _).symm (hb.aside_ne_aside ho hj he _))

/-- **A step leaves other jobs alone**: their inputs, and what stands at their outputs. -/
theorem find_step (ho : other ∈ jobs) (hne : other ≠ job) :
    (w.step config job).tree.find other.input = w.tree.find other.input ∧
      (w.step config job).tree.find other.output = w.tree.find other.output := by
  obtain ⟨hsame, hframe, hidle, -⟩ := advance hb hw hj
  have hnamed := hb.named other ho
  have hget (q : Path) : (w.step config job).tree.get? (q ++ [other.name]) =
      w.tree.get? (q ++ [other.name]) :=
    hframe _ (hb.place_ne_place ho hj hne _ _) (hb.place_ne_aside ho hj _ _)
  constructor
  · obtain ⟨q, -, hq, -⟩ := (hb.able other ho).input
    have hq' := FileTree.parent_of_sameDirectories hw.same hq
    refine FileTree.find_congr ((FileTree.parent_of_sameDirectories hsame hq).trans hq'.symm)
      fun q' name h => ?_
    obtain ⟨rfl, hname⟩ := Prod.mk.inj (Except.ok.inj (hq'.symm.trans h))
    obtain rfl := Option.some.inj hname
    rw [FileTree.child_of_isDots hnamed.plain.2]
    exact hget q
  · cases htext : job.text? config start with
    | none => exact congrArg (FileTree.find · other.output) (hidle htext)
    | some text => exact hb.find_output ho (by simp [htext]) hj hw.same hsame (hget _)

end step

/-! ### Rows of steps -/

/-- **A row of steps.** -/
theorem run (hb : Batch config dir start jobs)
    (hw : w.Sound config start (outPath start dir) jobs) {schedule : List Job}
    (hs : ∀ job ∈ schedule, job ∈ jobs) :
    (w.run config schedule).Sound config start (outPath start dir) jobs := by
  induction schedule generalizing w with
  | nil => exact hw
  | cons job schedule ih =>
    exact ih (step hb hw (hs job (by simp))) fun other ho => hs other (by simp [ho])

/-- The result of a job that was not begun is the same as that of the job alone. -/
theorem process_fst (hb : Batch config dir start jobs)
    (hw : w.Sound config start (outPath start dir) jobs) (hj : job ∈ jobs)
    (hs : w.stage job = .waiting) :
    (job.process config w.tree).1 = (job.process config start).1 := by
  have hok {v : Workers} (hv : v.Sound config start (outPath start dir) jobs)
      (hs : v.stage job = .waiting) : (job.process config v.tree).1.run.isOk := by
    obtain ⟨-, -, hok, -⟩ := run_three config hs
    have hmem : ∀ other ∈ [job, job, job], other ∈ jobs := by simpa using hj
    have hstage := (run hb hv hmem).stage job hj
    refine hok.mpr fun he => ?_
    rw [he] at hstage
    exact hstage
  have halone := hok (sound_start config start (outPath start dir) jobs) rfl
  exact Job.process_fst_eq (readText_input hb hw hj hs) (hok hw hs) halone

theorem processAll_fst (hb : Batch config dir start jobs)
    (hw : w.Sound config start (outPath start dir) jobs) {order : List Job} (hn : order.Nodup)
    (ho : ∀ job ∈ order, job ∈ jobs) (hs : ∀ job ∈ order, w.stage job = .waiting) :
    (Job.processAll config order w.tree).1 =
      order.map fun job => (job.process config start).1 := by
  induction order generalizing w with
  | nil => rfl
  | cons job order ih =>
    obtain ⟨hjob, hn⟩ := List.nodup_cons.mp hn
    have hj := ho job (by simp)
    obtain ⟨htree, -, -, hothers⟩ := run_three config (hs job (by simp))
    have hmem : ∀ other ∈ [job, job, job], other ∈ jobs := by simpa using hj
    have hrest := ih (run hb hw hmem) hn (fun other h => ho other (by simp [h])) fun other h => by
        rw [hothers other fun e => hjob (e ▸ h)]
        exact hs other (by simp [h])
    rw [htree] at hrest
    rw [Job.processAll_cons, List.map_cons, process_fst hb hw hj (hs job (by simp)), hrest]

end Sound

end Workers

/-! ### The outcome -/

/-- What a job is for: if its input flattens, its output holds the text; if not, there is at its
output what was there. -/
def Job.Served (config : Config) (start tree : FileTree) (job : Job) : Prop :=
  ∃ content, start.readText job.input = .ok content ∧
    match (flatten config ⟨0, String.ofList job.input, content⟩).result with
    | .ok f => tree.readText job.output = .ok f.text
    | .error _ => tree.find job.output = start.find job.output

theorem Job.text?_eq {content : Text} (h : start.readText job.input = .ok content) :
    job.text? config start =
      (flatten config ⟨0, String.ofList job.input, content⟩).result.toOption.map
        Flattened.text := by
  simp only [Job.text?, h, Except.toOption, Option.bind_some, FileRun.ofContent]
  cases (flatten config ⟨0, String.ofList job.input, content⟩).result <;> rfl

theorem Job.readText_of_find {x text : Text} {place : Path}
    (h : tree.find x = .ok (place, Job.holding text)) : tree.readText x = .ok text := by
  have hutf : String.fromUTF8? (String.ofList text).toUTF8 = some (String.ofList text) :=
    dif_pos (String.ofList text).isValidUTF8
  refine bind_eq_ok_iff.mpr ⟨_, h, ?_⟩
  simp only [Job.holding, hutf, String.toList_ofList]
  rfl

theorem Workers.Sound.served (hb : Batch config dir start jobs)
    (hw : w.Sound config start (outPath start dir) jobs) (hj : job ∈ jobs)
    (hd : (w.stage job).Done) : job.Served config start w.tree := by
  obtain ⟨-, content, -, hread⟩ := (hb.able job hj).input
  have hdots := (hb.named job hj).plain.2
  refine ⟨content, hread, ?_⟩
  have htext : job.text? config start = _ := Job.text?_eq hread
  have hholds := hw.stage job hj
  cases hs : w.stage job with
  | waiting | flattened text | written =>
    rw [hs] at hd
    exact hd.elim
  | stopped =>
    rw [hs] at hholds
    exact hholds.elim
  | finished =>
    rw [hs] at hholds
    obtain ⟨text, ht, hget⟩ := hholds
    rw [ht] at htext
    split
    · next f hf =>
      obtain rfl : text = f.text := by simpa [hf, Except.toOption] using htext
      obtain ⟨hp, -⟩ := (hb.able job hj).output (by simp [ht])
      have hslash := (hb.named job hj).endsWithSlash_output
      have hfind := FileTree.find_of_parent (FileTree.parent_of_sameDirectories hw.same hp)
      rw [FileTree.child_of_isDots hdots] at hfind
      rw [Job.place] at hget
      simp only [hget, Job.holding, hslash, Bool.false_eq_true, if_false] at hfind
      exact Job.readText_of_find hfind
    · next e he => simp [he, Except.toOption] at htext
  | refused =>
    rw [hs] at hholds
    obtain ⟨ht, hget⟩ := hholds
    rw [ht] at htext
    split
    · next f hf => simp [hf, Except.toOption] at htext
    · -- its file is that of the start; without a job that writes so is the whole tree
      by_cases hidle : ∀ other ∈ jobs, other.text? config start = none
      · rw [hw.idle hidle]
      · obtain ⟨other, ho, hne⟩ : ∃ other ∈ jobs, other.text? config start ≠ none := by
          simpa using hidle
        exact hb.find_output hj (Option.isSome_iff_ne_none.mpr hne) ho (.refl start) hw.same hget

/-- **Independence.** Let the jobs of some inputs be such that each can be worked off alone, once the
output directory is there, and that no output is the temporary file of another one.  Making the
directory leaves files alone.  Then, whatever the order in which the jobs take their steps, no step
touches what is found at the input or the output of another job, and when all jobs are done, each is
served.  So it is with jobs one after the other in any order, and each has the result that it has
alone. -/
theorem independence {inputs : List Text} {before : FileTree}
    (hjobs : Job.ofInputs dir inputs [] = .ok jobs)
    (hdir : before.makeDirectories dir = (.ok (), start))
    (hable : ∀ job ∈ jobs, (job.process config start).1.run.isOk)
    (hapart : ∀ j ∈ jobs, ∀ k ∈ jobs, j.output ≠ temporary k.output) :
    before.SameFiles start ∧
    (∀ schedule : List Job, (∀ job ∈ schedule, job ∈ jobs) →
      let w := (Workers.start start).run config schedule
      (∀ j ∈ jobs, ∀ k ∈ jobs, k ≠ j →
        (w.step config j).tree.find k.input = w.tree.find k.input ∧
          (w.step config j).tree.find k.output = w.tree.find k.output) ∧
      ((∀ job ∈ jobs, (w.stage job).Done) → ∀ job ∈ jobs, job.Served config start w.tree)) ∧
    ∀ order : List Job, order.Perm jobs →
      (∀ job ∈ jobs, job.Served config start (Job.processAll config order start).2) ∧
        (Job.processAll config order start).1 =
          order.map fun job => (job.process config start).1 := by
  have hb := Job.batch_ofInputs hjobs hable hapart
  have hnodup : jobs.Nodup := (Job.named_ofInputs hjobs (by simp) (by simp)).2.of_map
  have hstart := Workers.sound_start config start (outPath start dir) jobs
  refine ⟨?_, fun schedule hs => ?_, fun order hp => ?_⟩
  · have := FileTree.sameFiles_makeDirectories before dir
    rwa [hdir] at this
  · have hw := hstart.run hb hs
    exact ⟨fun j hj k hk hne => hw.find_step hb hj hk hne,
      fun hdone job hj => hw.served hb hj (hdone job hj)⟩
  · have hn : order.Nodup := hp.nodup_iff.mpr hnodup
    have hmem : ∀ job ∈ order, job ∈ jobs := fun job hj => hp.mem_iff.mp hj
    obtain ⟨htree, hdone⟩ := Workers.run_jobs config hn
      (w := Workers.start start) fun job _ => rfl
    have hturn : ∀ job ∈ Workers.inTurn order, job ∈ jobs := by
      intro job hj
      obtain ⟨k, hk, hjk⟩ := List.mem_flatMap.mp hj
      obtain rfl : job = k := by simpa using hjk
      exact hmem job hk
    have hw := hstart.run hb hturn
    refine ⟨fun job hj => ?_, hstart.processAll_fst hb hn hmem fun _ _ => rfl⟩
    have := hw.served hb hj (hdone job (.inr (hp.mem_iff.mpr hj)))
    rwa [htree] at this

/-! ### Samples -/

/-- A module without gates. -/
def bareText : Text := "module top;\nendmodule\n".toList

/-- A tree with the given files in its working directory. -/
def treeOfTexts (files : List (List String × Text)) : FileTree :=
  FileTree.ofFiles ["work".toList] (files.map fun f =>
    (f.1.map String.toList, some (String.ofList f.2).toUTF8))

/-- Two inputs that flatten, one of them in the output directory, and one that does not, with an
older output. -/
def mixedTree : FileTree :=
  treeOfTexts [(["in", "a.v"], bareText), (["in", "b.v"], "module".toList),
    (["out", "c.v"], bareText), (["out", "b.v"], "old".toList)]

/-- The jobs of the inputs. -/
def mixedJobs : List Job :=
  [⟨"in/a.v".toList, "out/a.v".toList⟩, ⟨"in/b.v".toList, "out/b.v".toList⟩,
    ⟨"out/c.v".toList, "out/c.v".toList⟩]

/-- The tree once the output directory is there. -/
def mixedStart : FileTree := (mixedTree.makeDirectories "out".toList).2

/-- Steps of the jobs `a`, `b` and `c` in turn until each is done. -/
def mixedSchedule : List Job := mixedJobs ++ mixedJobs ++ mixedJobs

theorem independence_mixedJobs :
    Job.ofInputs "out".toList (mixedJobs.map Job.input) [] = .ok mixedJobs ∧
      (∀ job ∈ mixedJobs,
        ((((Workers.start mixedStart).run sampleConfig mixedSchedule).stage job).Done)) ∧
      ∀ job ∈ mixedJobs, job.Served sampleConfig mixedStart
        ((Workers.start mixedStart).run sampleConfig mixedSchedule).tree := by
  have hjobs : Job.ofInputs "out".toList (mixedJobs.map Job.input) [] = .ok mixedJobs := by
    obtain ⟨jobs, hjobs, rfl⟩ : ∃ jobs,
        Job.ofInputs "out".toList (mixedJobs.map Job.input) [] = .ok jobs ∧ jobs = mixedJobs := by
      decide +kernel
    exact hjobs
  have hdir : mixedTree.makeDirectories "out".toList = (.ok (), mixedStart) := by
    obtain ⟨u, hu, -⟩ : ∃ u, (mixedTree.makeDirectories "out".toList).1 = .ok u ∧ u = () := by
      decide +kernel
    exact Prod.ext hu rfl
  have hable : ∀ job ∈ mixedJobs, (job.process sampleConfig mixedStart).1.run.isOk := by
    decide +kernel
  have hapart : ∀ j ∈ mixedJobs, ∀ k ∈ mixedJobs, j.output ≠ temporary k.output := by
    decide +kernel
  have hdone : ∀ job ∈ mixedJobs,
      (((Workers.start mixedStart).run sampleConfig mixedSchedule).stage job).Done := by
    decide +kernel
  obtain ⟨-, hrun, -⟩ := independence hjobs hdir hable hapart
  exact ⟨hjobs, hdone, (hrun mixedSchedule (by decide +kernel)).2 hdone⟩

/-- Two inputs the first of which bears the name of the temporary file of the output of the
second. -/
def crossedTree : FileTree :=
  treeOfTexts [(["in", "a.v.tmp"], bareText), (["in", "a.v"], bareText)]

/-- Their jobs. -/
def crossedJobs : List Job :=
  [⟨"in/a.v.tmp".toList, "out/a.v.tmp".toList⟩, ⟨"in/a.v".toList, "out/a.v".toList⟩]

/-- The tree once the output directory is there. -/
def crossedStart : FileTree := (crossedTree.makeDirectories "out".toList).2

/-- The inputs are flattened into one directory. -/
def crossedArguments : List Text :=
  ["-q", "batch", "in/a.v.tmp", "in/a.v", "--out-dir", "out", "--module", "top", "--width",
    "2"].map String.toList

/-- **Crossed names.** The jobs are accepted, each can be worked off alone, and the run ends without
a complaint; but the first output is gone, since the second job wrote its temporary file in its place
and renamed it. -/
theorem not_served_of_crossed_names :
    ((run crossedArguments none crossedTree).code = 0 ∧
      (run crossedArguments none crossedTree).tree.isFile "out/a.v.tmp".toList = false) ∧
    ¬∀ (config : Config) (dir : Text) (inputs : List Text) (jobs : List Job)
      (before start : FileTree), Job.ofInputs dir inputs [] = .ok jobs →
        before.makeDirectories dir = (.ok (), start) →
        (∀ job ∈ jobs, (job.process config start).1.run.isOk) →
        ∀ job ∈ jobs, job.Served config start (Job.processAll config jobs start).2 := by
  refine ⟨by decide +kernel, fun h => ?_⟩
  have hjobs : Job.ofInputs "out".toList (crossedJobs.map Job.input) [] = .ok crossedJobs := by
    obtain ⟨jobs, hjobs, rfl⟩ : ∃ jobs,
        Job.ofInputs "out".toList (crossedJobs.map Job.input) [] = .ok jobs ∧
          jobs = crossedJobs := by
      decide +kernel
    exact hjobs
  have hdir : crossedTree.makeDirectories "out".toList = (.ok (), crossedStart) := by
    obtain ⟨u, hu, -⟩ : ∃ u, (crossedTree.makeDirectories "out".toList).1 = .ok u ∧ u = () := by
      decide +kernel
    exact Prod.ext hu rfl
  have hable : ∀ job ∈ crossedJobs, (job.process sampleConfig crossedStart).1.run.isOk := by
    decide +kernel
  obtain ⟨content, hread, hserved⟩ := h sampleConfig _ _ _ _ _ hjobs hdir hable
    ⟨"in/a.v.tmp".toList, "out/a.v.tmp".toList⟩ (List.mem_cons_self ..)
  obtain ⟨content', hread', rfl⟩ : ∃ t,
      crossedStart.readText "in/a.v.tmp".toList = .ok t ∧ t = bareText := by
    decide +kernel
  obtain rfl := Except.ok.inj (hread.symm.trans hread')
  obtain ⟨f, hflat, -⟩ : ∃ f,
      (flatten sampleConfig ⟨0, String.ofList "in/a.v.tmp".toList, bareText⟩).result = .ok f ∧
        True := by
    decide +kernel
  -- the other job writes under this name first, and then renames that file
  have hlost : ((Job.processAll sampleConfig crossedJobs crossedStart).2.readText
      "out/a.v.tmp".toList).isOk = false := by
    decide +kernel
  simp only [hflat] at hserved
  rw [hserved] at hlost
  exact absurd hlost (by simp [Except.isOk, Except.toBool])

end NetFlat.Command
