import NetFlat.Proofs.Jobs.Independence

/-!
# What a run writes

Findings and log entries go to standard error, so that standard output holds a report at most until
a flat module is handed out; and an output file that was written holds the text, the whole of it.

* `out_report`: standard output behind a report;
* `FileTree.Written`, `written_of_writeOutput`: a tree in which an output file was written.
-/

namespace NetFlat

open FileTree (child)

/-! ### The console -/

namespace Command.Console

variable {c : Console}

@[simp]
theorem out_say (c : Console) (s : String) : (c.say s).out = c.out := rfl

@[simp]
theorem out_sayIf (c : Console) (b : Bool) (s : String) : (c.sayIf b s).out = c.out := by
  cases b <;> rfl

@[simp]
theorem out_print (c : Console) (s : String) : (c.print s).out = c.out ++ s := rfl

@[simp]
theorem out_log (c : Console) (logger : LogEntry → String) (entries : List LogEntry) :
    (c.log logger entries).out = c.out := by
  induction entries generalizing c with
  | nil => rfl
  | cons e entries ih => exact ih (c.tell (logger e))

end Command.Console

namespace Command

@[simp]
theorem FileRun.out_display (m : Manner) (c : Console) (f : FileRun) :
    (f.display m c).out = c.out := by
  unfold display
  generalize f.shown m = ds
  induction ds generalizing c with
  | nil => rfl
  | cons d ds ih => exact ih (c.say ((d.render? f.sources m.color).getD ""))

theorem out_report (l : Libraries) (m : Manner) (runs : List FileRun) (c : Console) :
    (report l m runs c).out = match m.format with
      | .text => c.out
      | .json => c.out ++ reportText l runs := by
  unfold report
  cases m.format with
  | text =>
    induction runs generalizing c with
    | nil => rfl
    | cons f runs ih =>
      have := ih (f.display m c)
      rwa [FileRun.out_display] at this
  | json => rfl

/-! ### Output files -/

/-- The second tree has the text at the path, and is like the first one at all places but that of
the path and that of its temporary file. -/
structure Written (path text : Text) (tree after : FileTree) : Prop where
  content : after.readText path = .ok text
  elsewhere : ∀ q, (∀ p name, tree.parent path = .ok (p, some name) → q ≠ child p name) →
    (∀ p name, tree.parent (temporary path) = .ok (p, some name) → q ≠ child p name) →
      after.get? q = tree.get? q

theorem writeOutput_eq_ok_iff {path text : Text} {tree after : FileTree} :
    writeOutput path text tree = (.ok (), after) ↔
      ∃ written, tree.writeText (temporary path) text = .ok written ∧
        written.renameFile (temporary path) path = .ok after := by
  unfold writeOutput
  cases tree.writeText (temporary path) text with
  | error fault => simp
  | ok written =>
    cases h : written.renameFile (temporary path) path with
    | error fault => simp [h]
    | ok renamed => simp [h]

/-- **An output file that was written** holds the text. -/
theorem written_of_writeOutput {path text : Text} {tree after : FileTree}
    (h : writeOutput path text tree = (.ok (), after)) : Written path text tree after := by
  obtain ⟨written, hwrite, hrename⟩ := writeOutput_eq_ok_iff.mp h
  obtain ⟨p, name, hp, hdots, -, hdir, rfl⟩ := FileTree.writeText_eq_ok_iff.mp hwrite
  have haside : child p name ≠ [] := by simp [FileTree.child_of_isDots hdots]
  have hput : tree.SameDirectories (tree.put (child p name) (Job.holding text)) :=
    FileTree.sameDirectories_put haside hdir
  have hget (x : Path) : (tree.put (child p name) (Job.holding text)).get? x =
      if x = child p name then some (Job.holding text) else tree.get? x := FileTree.get?_put haside
  -- the file that is renamed is the one that was written
  obtain ⟨p', name', q, last, e, hp', hq, -, hlast, he, -, hslash, hdir', hafter⟩ :=
    FileTree.renameFile_eq_ok_iff.mp hrename
  obtain ⟨rfl, hname⟩ := Prod.mk.inj
    (Except.ok.inj ((FileTree.parent_of_sameDirectories hput hp).symm.trans hp'))
  obtain rfl := Option.some.inj hname
  change (tree.put (child p name) (Job.holding text)).get? (child p name) = some e at he
  rw [hget, if_pos rfl] at he
  obtain rfl := Option.some.inj he
  have hplace : child q last ≠ [] := by simp [FileTree.child_of_isDots hlast]
  have hrenamed (x : Path) : after.get? x = if x = child q last then some (Job.holding text)
      else if x = child p name then none else tree.get? x := by
    rw [hafter, FileTree.get?_renamed haside hplace]
    change (if _ then _ else if _ then _ else
      (tree.put (child p name) (Job.holding text)).get? x) = _
    rw [hget]
    split
    · rfl
    · split <;> rfl
  have hsame : tree.SameDirectories after := by
    rw [hafter]
    refine hput.trans (FileTree.sameDirectories_renamed haside hplace ?_ hdir')
    rw [hget, if_pos rfl]
    exact nofun
  have hfind : after.find path = .ok (child q last, Job.holding text) := by
    have hparent := FileTree.parent_of_sameDirectories (hput.symm.trans hsame) hq
    rw [FileTree.find_of_parent hparent, hrenamed, if_pos rfl]
    simp [Job.holding, hslash]
  refine ⟨Job.readText_of_find hfind, fun x hx hx' => ?_⟩
  have hq' := FileTree.parent_of_sameDirectories hput.symm hq
  rw [hrenamed, if_neg (hx q last hq'), if_neg (hx' p name hp)]

end Command

end NetFlat
