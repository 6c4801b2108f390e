import Mathlib.Data.List.Nodup
import NetFlat.Command.Run
import NetFlat.Proofs.Files.Paths

/-!
# Jobs with names of their own

Jobs of inputs are written to one directory, each under the file name of its input.  A job touches two
places there, that of its output and that of its temporary file.

* `Job.named_ofInputs`: the outputs of jobs;
* `Job.Able`, `Job.Named.able`: jobs that can be worked off alone;
* `Job.Batch`, `Job.batch_ofInputs`: jobs with names that keep their places apart.
-/

namespace NetFlat

/-! ### Writing and renaming files -/

namespace FileTree

variable {t : FileTree} {a b : Path} {content : ByteArray}

theorem sameDirectories_put (hne : a ≠ []) (h : t.get? a ≠ some .directory) :
    t.SameDirectories (t.put a (.file content)) := by
  refine ⟨rfl, fun q => ?_⟩
  rw [get?_put hne]
  split
  · next hq => simp [hq, h]
  · rfl

theorem get?_renamed (ha : a ≠ []) (hb : b ≠ []) (e : Entry) (q : Path) :
    ((t.erase a).put b e).get? q = if q = b then some e else if q = a then none else t.get? q := by
  rw [get?_put hb, get?_erase ha]

theorem sameDirectories_renamed (ha : a ≠ []) (hb : b ≠ []) (h : t.get? a ≠ some .directory)
    (h' : t.get? b ≠ some .directory) :
    t.SameDirectories ((t.erase a).put b (.file content)) := by
  refine ⟨rfl, fun q => ?_⟩
  rw [get?_renamed ha hb]
  split
  · next hq => simp [hq, h']
  · split
    · next hq => simp [hq, h]
    · rfl

theorem readText_congr {u : FileTree} {x : Text} (h : u.find x = t.find x) :
    u.readText x = t.readText x := by
  rw [readText, readText, h]

end FileTree

namespace Command

open FileTree (fileName? inDirectory names isDots endsWithSlash)

namespace Job

variable {config : Config} {dir : Text} {start tree : FileTree} {p : Path} {job other : Job}
  {jobs : List Job}

/-! ### The names of outputs -/

/-- The name under which the output is written. -/
def name (job : Job) : Text := (fileName? job.input).getD []

/-- The output is in the directory, under the name of the input. -/
structure Named (dir : Text) (job : Job) : Prop where
  fileName : fileName? job.input = some job.name
  output : job.output = inDirectory dir job.name

theorem named_ofInputs {inputs : List Text} {acc : List Job}
    (h : ofInputs dir inputs acc = .ok jobs) (hacc : ∀ job ∈ acc, job.Named dir)
    (hn : (acc.map Job.output).Nodup) :
    (∀ job ∈ jobs, job.Named dir) ∧ (jobs.map Job.output).Nodup := by
  induction inputs generalizing acc with
  | nil =>
    obtain rfl := Except.ok.inj h
    exact ⟨hacc, hn⟩
  | cons input rest ih =>
    simp only [ofInputs] at h
    split at h
    · simp at h
    · next name hname =>
      split at h
      · simp at h
      · next hfresh =>
        refine ih h ?_ ?_
        · intro job hj
          rcases List.mem_append.mp hj with hj | hj
          · exact hacc job hj
          · obtain rfl := List.mem_singleton.mp hj
            exact ⟨by simp [Job.name, hname], by simp [Job.name, hname]⟩
        · rw [List.map_append, List.nodup_append]
          refine ⟨hn, by simp, ?_⟩
          simp only [List.mem_map, List.map_cons, List.map_nil, List.mem_singleton]
          rintro _ ⟨job, hj, rfl⟩ _ rfl he
          simpa [he] using List.find?_eq_none.mp hfresh job hj

theorem temporary_inDirectory (dir name : Text) :
    temporary (inDirectory dir name) = inDirectory dir (temporary name) := by
  simp only [temporary, inDirectory]
  split
  · rfl
  · split
    · rw [List.append_assoc]
    · rw [List.append_assoc, List.cons_append]

theorem plain_temporary {name : Text} (h : '/' ∉ name) :
    (temporary name ≠ [] ∧ '/' ∉ temporary name) ∧ isDots (temporary name) = false := by
  refine ⟨⟨by simp [temporary], by simp [temporary, h]⟩, ?_⟩
  rw [FileTree.isDots_eq_false_iff]
  constructor <;>
  · intro he
    have := congrArg List.length he
    simp [temporary] at this

theorem Named.plain (h : job.Named dir) :
    (job.name ≠ [] ∧ '/' ∉ job.name) ∧ isDots job.name = false :=
  ⟨FileTree.of_mem_names (FileTree.mem_names_of_fileName? h.fileName),
    (FileTree.fileName?_eq_some h.fileName).2⟩

theorem Named.temporary_output (h : job.Named dir) :
    temporary job.output = inDirectory dir (temporary job.name) := by
  rw [h.output, temporary_inDirectory]

theorem Named.endsWithSlash_output (h : job.Named dir) : endsWithSlash job.output = false := by
  rw [h.output]
  exact FileTree.endsWithSlash_inDirectory h.plain.1.1 h.plain.1.2

theorem Named.endsWithSlash_temporary (h : job.Named dir) :
    endsWithSlash (temporary job.output) = false := by
  obtain ⟨hname, -⟩ := plain_temporary h.plain.1.2
  rw [h.temporary_output]
  exact FileTree.endsWithSlash_inDirectory hname.1 hname.2

/-! ### Jobs that can be worked off -/

/-- The path of the output, in the directory with the path `p`. -/
def place (p : Path) (job : Job) : Path := p ++ [job.name]

def aside (p : Path) (job : Job) : Path := p ++ [temporary job.name]

theorem place_ne_nil (p : Path) (job : Job) : job.place p ≠ [] := by simp [place]

theorem aside_ne_nil (p : Path) (job : Job) : job.aside p ≠ [] := by simp [aside]

/-- The text that the input flattens to, if it does. -/
def text? (config : Config) (tree : FileTree) (job : Job) : Option Text :=
  (tree.readText job.input).toOption.bind fun content =>
    (FileRun.ofContent config job.input content).flattened.map Flattened.text

def holding (text : Text) : Entry := .file (String.ofList text).toUTF8

def outPath (start : FileTree) (dir : Text) : Path :=
  (start.descend (start.origin dir) (names dir)).toOption.getD []

theorem outPath_eq (h : start.descend (start.origin dir) (names dir) = .ok p) :
    outPath start dir = p := by
  rw [outPath, h]
  rfl

/-- The job can be worked off on the tree: its input is a file with a text, and if the text
flattens, then its output and its temporary file can be written. -/
structure Able (config : Config) (start : FileTree) (p : Path) (job : Job) : Prop where
  input : ∃ q content, start.parent job.input = .ok (q, some job.name) ∧
    start.readText job.input = .ok content
  output : (job.text? config start).isSome →
    start.parent job.output = .ok (p, some job.name) ∧
      start.parent (temporary job.output) = .ok (p, some (temporary job.name)) ∧
      start.get? (job.place p) ≠ some .directory ∧ start.get? (job.aside p) ≠ some .directory

theorem exists_of_readText {t : FileTree} {x content : Text} (h : t.readText x = .ok content) :
    ∃ place bytes, t.find x = .ok (place, .file bytes) := by
  obtain ⟨⟨place, e⟩, hfind, h⟩ := bind_eq_ok_iff.mp h
  cases e with
  | directory => exact absurd h nofun
  | file bytes => exact ⟨place, bytes, hfind⟩

/-- **A job that can be worked off alone.** -/
theorem Named.able (h : job.Named dir)
    (hrun : (job.process config start).1.run.isOk) :
    job.Able config start (outPath start dir) := by
  obtain ⟨hplain, hdots⟩ := h.plain
  obtain ⟨hplain', hdots'⟩ := plain_temporary hplain.2
  cases hread : start.readText job.input with
  | error fault => simp [process, hread, Except.isOk, Except.toBool] at hrun
  | ok content =>
    refine ⟨?_, fun htext => ?_⟩
    · obtain ⟨place, bytes, hfind⟩ := exists_of_readText hread
      obtain ⟨q, hq, -, -⟩ := FileTree.parent_of_find_eq_file h.fileName hfind
      exact ⟨q, content, hq, hread⟩
    · obtain ⟨text, htext⟩ := Option.isSome_iff_exists.mp htext
      obtain ⟨f, hf, rfl⟩ : ∃ f, (FileRun.ofContent config job.input content).flattened = some f ∧
          f.text = text := by
        simpa [text?, hread, Except.toOption] using htext
      simp only [process, hread, hf, writeOutput] at hrun
      cases hw : start.writeText (temporary job.output) f.text with
      | error fault => simp [hw, Except.isOk, Except.toBool] at hrun
      | ok written =>
        simp only [hw] at hrun
        cases hr : written.renameFile (temporary job.output) job.output with
        | error fault => simp [hr, Except.isOk, Except.toBool] at hrun
        | ok renamed =>
          obtain ⟨p, n, hp, -, -, hdir, rfl⟩ := FileTree.writeText_eq_ok_iff.mp hw
          obtain ⟨-, -, q, n', e, -, hq, -, -, -, -, -, hdir', -⟩ :=
            FileTree.renameFile_eq_ok_iff.mp hr
          -- both files are made in the output directory, as it is found at the start
          have hp' := hp
          rw [h.temporary_output, FileTree.parent_inDirectory_iff hplain'.1 hplain'.2] at hp'
          obtain ⟨-, -, hdescend, hn⟩ := hp'
          obtain rfl := Option.some.inj hn
          rw [FileTree.child_of_isDots hdots'] at hdir hq hdir'
          have hsame : start.SameDirectories (start.put (p ++ [temporary job.name])
              (.file (String.ofList f.text).toUTF8)) :=
            FileTree.sameDirectories_put (by simp) hdir
          have hq := FileTree.parent_of_sameDirectories hsame.symm hq
          have hq' := hq
          rw [h.output, FileTree.parent_inDirectory_iff hplain.1 hplain.2] at hq'
          obtain ⟨-, -, hdescend', hn'⟩ := hq'
          obtain rfl := Option.some.inj hn'
          obtain rfl := Except.ok.inj (hdescend.symm.trans hdescend')
          rw [FileTree.child_of_isDots hdots] at hdir'
          rw [outPath_eq hdescend]
          exact ⟨hq, hp, fun hd => hdir' ((hsame.directory _).mp hd), hdir⟩

/-- Jobs that can be worked off one by one, with names that keep them apart: no two of them are the
same, and none is that of the temporary file of another output. -/
structure Batch (config : Config) (dir : Text) (start : FileTree) (jobs : List Job) : Prop where
  named : ∀ job ∈ jobs, job.Named dir
  able : ∀ job ∈ jobs, job.Able config start (outPath start dir)
  distinct : ∀ j ∈ jobs, ∀ k ∈ jobs, j.name = k.name → j = k
  apart : ∀ j ∈ jobs, ∀ k ∈ jobs, j.name ≠ temporary k.name

/-- Jobs of inputs are such jobs if each can be worked off alone. -/
theorem batch_ofInputs {inputs : List Text} (hjobs : ofInputs dir inputs [] = .ok jobs)
    (hable : ∀ job ∈ jobs, (job.process config start).1.run.isOk)
    (hapart : ∀ j ∈ jobs, ∀ k ∈ jobs, j.output ≠ temporary k.output) :
    Batch config dir start jobs := by
  obtain ⟨hnamed, hnodup⟩ := named_ofInputs hjobs (by simp) (by simp)
  refine ⟨hnamed, fun job hj => (hnamed job hj).able (hable job hj), fun j hj k hk he => ?_,
    fun j hj k hk he => hapart j hj k hk ?_⟩
  · refine List.inj_on_of_nodup_map hnodup hj hk ?_
    rw [(hnamed j hj).output, (hnamed k hk).output, he]
  · rw [(hnamed j hj).output, (hnamed k hk).temporary_output, he]

theorem Batch.perm {order : List Job} (h : Batch config dir start jobs) (hp : order.Perm jobs) :
    Batch config dir start order :=
  ⟨fun j hj => h.named j (hp.mem_iff.mp hj), fun j hj => h.able j (hp.mem_iff.mp hj),
    fun j hj k hk => h.distinct j (hp.mem_iff.mp hj) k (hp.mem_iff.mp hk),
    fun j hj k hk => h.apart j (hp.mem_iff.mp hj) k (hp.mem_iff.mp hk)⟩

namespace Batch

variable (h : Batch config dir start jobs) {j k : Job} (hj : j ∈ jobs) (hk : k ∈ jobs)

include h hj hk

theorem place_ne_place (hne : j ≠ k) (p q : Path) : q ++ [j.name] ≠ k.place p := by
  intro he
  exact hne (h.distinct j hj k hk (List.cons.inj (List.append_inj' he rfl).2).1)

theorem place_ne_aside (p q : Path) : q ++ [j.name] ≠ k.aside p := by
  intro he
  exact h.apart j hj k hk (List.cons.inj (List.append_inj' he rfl).2).1

theorem aside_ne_aside (hne : j ≠ k) (p : Path) : j.aside p ≠ k.aside p := by
  intro he
  refine hne (h.distinct j hj k hk ?_)
  have : temporary j.name = temporary k.name := (List.cons.inj (List.append_inj' he rfl).2).1
  exact List.append_cancel_right this

omit hk in
/-- Trees with the directories of the first one have the same at an output if they have the same at
its place, once some output can be written. -/
theorem find_output (htext : (job.text? config start).isSome) (hjob : job ∈ jobs) {t u : FileTree}
    (ht : start.SameDirectories t) (hu : start.SameDirectories u)
    (hget : u.get? (j.place (outPath start dir)) = t.get? (j.place (outPath start dir))) :
    u.find j.output = t.find j.output := by
  have hp := ((h.able job hjob).output htext).1
  obtain ⟨hjplain, -⟩ := (h.named job hjob).plain
  obtain ⟨hplain, hdots⟩ := (h.named j hj).plain
  rw [(h.named job hjob).output, FileTree.parent_inDirectory_iff hjplain.1 hjplain.2] at hp
  have hdescend {v : FileTree} (hv : start.SameDirectories v) :
      v.descend (v.origin dir) (names dir) = .ok (outPath start dir) := by
    rw [hv.origin_eq]
    exact FileTree.descend_of_sameDirectories hv hp.2.2.1
  rw [(h.named j hj).output]
  refine FileTree.find_congr (FileTree.parent_inDirectory_eq hplain.1 hplain.2
    (hdescend ht) (hdescend hu)) fun q name hq => ?_
  rw [FileTree.parent_inDirectory_iff hplain.1 hplain.2] at hq
  obtain ⟨-, -, hq, hname⟩ := hq
  obtain rfl := Option.some.inj hname
  obtain rfl := Except.ok.inj ((hdescend ht).symm.trans hq)
  rw [FileTree.child_of_isDots hdots]
  exact hget

end Batch

end Job

end Command

end NetFlat
