import Mathlib.Logic.Function.Basic
import NetFlat.Command.Run

/-!
# Jobs step by step

A job is worked off in three steps: its input is read and flattened, the text is written to the
temporary file, and the temporary file is renamed.  Workers that are at different jobs at the same
time may take these steps in any order, each job its own ones one after the other.  Jobs that are
worked off as a whole are a special case.

* `Job.advance`, `Workers.step`, `Workers.run`: one step, and a row of steps;
* `Job.advance_three`: three steps of a job are `Job.process`;
* `Workers.run_jobs`: jobs one after the other are `Job.processAll`.
-/

namespace NetFlat.Command

namespace Job

/-- How far a job has come. -/
inductive Stage where
  | waiting
  | flattened (text : Text)
  | written
  | finished
  | refused
  | stopped
deriving DecidableEq

/-- No step is left: the output was written, flattening failed, or a file operation did. -/
def Stage.Done : Stage → Prop
  | .finished | .refused | .stopped => True
  | _ => False

instance : (s : Stage) → Decidable s.Done
  | .finished | .refused | .stopped => .isTrue trivial
  | .waiting | .flattened _ | .written => .isFalse id

def advance (config : Config) (job : Job) (tree : FileTree) : Stage → Stage × FileTree
  | .waiting =>
    match tree.readText job.input with
    | .error _ => (.stopped, tree)
    | .ok content =>
      match (FileRun.ofContent config job.input content).flattened with
      | none => (.refused, tree)
      | some f => (.flattened f.text, tree)
  | .flattened text =>
    match tree.writeText (temporary job.output) text with
    | .error _ => (.stopped, tree)
    | .ok tree => (.written, tree)
  | .written =>
    match tree.renameFile (temporary job.output) job.output with
    | .error _ => (.stopped, tree)
    | .ok tree => (.finished, tree)
  | stage => (stage, tree)

/-- One more step after some that led to a stage and a tree. -/
def again (config : Config) (job : Job) (r : Stage × FileTree) : Stage × FileTree :=
  job.advance config r.2 r.1

/-- **Three steps** work off a job; no file operation fails exactly if none of them stops it. -/
theorem advance_three (config : Config) (job : Job) (tree : FileTree) :
    (job.again config (job.again config (job.advance config tree .waiting))).2 =
        (job.process config tree).2 ∧
      (job.again config (job.again config (job.advance config tree .waiting))).1.Done ∧
      ((job.process config tree).1.run.isOk ↔
        (job.again config (job.again config (job.advance config tree .waiting))).1 ≠ .stopped) := by
  cases hread : tree.readText job.input with
  | error fault => simp [process, advance, again, hread, Stage.Done, Except.isOk, Except.toBool]
  | ok content =>
    cases hflat : (FileRun.ofContent config job.input content).flattened with
    | none => simp [process, advance, again, hread, hflat, Stage.Done, Except.isOk, Except.toBool]
    | some f =>
      cases hwrite : tree.writeText (temporary job.output) f.text with
      | error fault =>
        simp [process, advance, again, writeOutput, hread, hflat, hwrite, Stage.Done, Except.isOk,
          Except.toBool]
      | ok written =>
        cases hrename : written.renameFile (temporary job.output) job.output with
        | error fault =>
          simp [process, advance, again, writeOutput, hread, hflat, hwrite, hrename, Stage.Done,
            Except.isOk, Except.toBool]
        | ok renamed =>
          simp [process, advance, again, writeOutput, hread, hflat, hwrite, hrename, Stage.Done,
            Except.isOk, Except.toBool]

/-- If no file operation fails, the result of a job depends on its input only. -/
theorem process_fst_eq {config : Config} {job : Job} {t u : FileTree}
    (h : t.readText job.input = u.readText job.input) (ht : (job.process config t).1.run.isOk)
    (hu : (job.process config u).1.run.isOk) :
    (job.process config t).1 = (job.process config u).1 := by
  simp only [process, h] at ht ⊢
  simp only [process] at hu ⊢
  cases hread : u.readText job.input with
  | error fault => rfl
  | ok content =>
    simp only [hread] at ht hu ⊢
    cases hflat : (FileRun.ofContent config job.input content).flattened with
    | none => rfl
    | some f =>
      simp only [hflat] at ht hu ⊢
      rcases htw : writeOutput job.output f.text t with ⟨_ | _, t'⟩
      · simp [htw, Except.isOk, Except.toBool] at ht
      · rcases huw : writeOutput job.output f.text u with ⟨_ | _, u'⟩
        · simp [huw, Except.isOk, Except.toBool] at hu
        · rfl

theorem processAll_cons (config : Config) (job : Job) (jobs : List Job) (tree : FileTree) :
    processAll config (job :: jobs) tree =
      ((job.process config tree).1 ::
          (processAll config jobs (job.process config tree).2).1,
        (processAll config jobs (job.process config tree).2).2) := by
  rw [processAll]

end Job

/-- Workers at their jobs, on one file tree. -/
structure Workers where
  stage : Job → Job.Stage
  tree : FileTree

namespace Workers

def start (tree : FileTree) : Workers := ⟨fun _ => .waiting, tree⟩

def step (config : Config) (w : Workers) (job : Job) : Workers :=
  ⟨Function.update w.stage job (job.advance config w.tree (w.stage job)).1,
    (job.advance config w.tree (w.stage job)).2⟩

/-- The workers take steps, in the order of the jobs that the steps are for. -/
def run (config : Config) (w : Workers) (schedule : List Job) : Workers :=
  schedule.foldl (step config) w

/-- The steps of jobs that are worked off as a whole, one after the other. -/
def inTurn (jobs : List Job) : List Job := jobs.flatMap fun job => [job, job, job]

variable {config : Config} {w : Workers} {job : Job}

theorem stage_step_self (config : Config) (w : Workers) (job : Job) :
    (w.step config job).stage job = (job.advance config w.tree (w.stage job)).1 :=
  Function.update_self ..

theorem stage_step_of_ne {other : Job} (h : other ≠ job) :
    (w.step config job).stage other = w.stage other :=
  Function.update_of_ne h ..

theorem run_three (config : Config) (h : w.stage job = .waiting) :
    (w.run config [job, job, job]).tree = (job.process config w.tree).2 ∧
      ((w.run config [job, job, job]).stage job).Done ∧
      ((job.process config w.tree).1.run.isOk ↔
        (w.run config [job, job, job]).stage job ≠ .stopped) ∧
      ∀ other, other ≠ job → (w.run config [job, job, job]).stage other = w.stage other := by
  have hself : (w.run config [job, job, job]).stage job =
      (job.again config (job.again config (job.advance config w.tree .waiting))).1 := by
    simp [run, step, h, Job.again]
  have htree : (w.run config [job, job, job]).tree =
      (job.again config (job.again config (job.advance config w.tree .waiting))).2 := by
    simp [run, step, h, Job.again]
  rw [hself, htree]
  obtain ⟨hprocess, hdone, hok⟩ := Job.advance_three config job w.tree
  refine ⟨hprocess, hdone, hok, fun other hne => ?_⟩
  simp only [run, List.foldl_cons, List.foldl_nil, stage_step_of_ne hne]

theorem run_append (config : Config) (w : Workers) (s t : List Job) :
    w.run config (s ++ t) = (w.run config s).run config t := List.foldl_append

/-- **Jobs one after the other.** -/
theorem run_jobs (config : Config) {jobs : List Job} (hn : jobs.Nodup)
    (h : ∀ job ∈ jobs, w.stage job = .waiting) :
    (w.run config (inTurn jobs)).tree = (Job.processAll config jobs w.tree).2 ∧
      ∀ job, ((w.stage job).Done ∨ job ∈ jobs) →
        ((w.run config (inTurn jobs)).stage job).Done := by
  induction jobs generalizing w with
  | nil => exact ⟨rfl, fun job hj => by simpa [inTurn, run] using hj⟩
  | cons job jobs ih =>
    obtain ⟨hjob, hn⟩ := List.nodup_cons.mp hn
    obtain ⟨htree, hdone, -, hothers⟩ := run_three config (h job (by simp))
    have hwait : ∀ other ∈ jobs, (w.run config [job, job, job]).stage other = .waiting := by
      intro other ho
      rw [hothers other fun e => hjob (e ▸ ho)]
      exact h other (by simp [ho])
    obtain ⟨hall, hdones⟩ := ih hn hwait
    have hturn : inTurn (job :: jobs) = [job, job, job] ++ inTurn jobs := rfl
    rw [hturn, run_append]
    refine ⟨hall.trans (by rw [htree]; rfl), fun other ho => hdones other ?_⟩
    by_cases he : other = job
    · exact .inl (he ▸ hdone)
    · rcases ho with ho | ho
      · exact .inl (by rwa [hothers other he])
      · exact .inr (by simpa [he] using ho)

end Workers

end NetFlat.Command
