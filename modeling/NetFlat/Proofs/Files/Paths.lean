import NetFlat.Files.Tree
import NetFlat.Proofs.Inversion

/-!
# Where path texts lead

A path text leads along directories, so it leads to the same place in each tree that has its
directories in the same places; what stands at the place is the only other thing that counts.

* `FileTree.SameDirectories`, `FileTree.parent_of_sameDirectories`: trees with the same directories;
* `FileTree.parent_eq_ok_iff`, `FileTree.parent_inDirectory_iff`: where a text leads;
* `FileTree.find_of_parent`, `FileTree.writeText_eq_ok_iff`, `FileTree.renameFile_eq_ok_iff`: what is
  found, written and renamed there;
* `FileTree.parent_of_find_eq_file`: the last name of the path of a file;
* `FileTree.sameFiles_makeDirectories`: making directories leaves files alone.
-/

namespace NetFlat.FileTree

variable {t u : FileTree}

/-! ### Trees with the same directories -/

/-- The trees have the same working directory, and directories in the same places. -/
structure SameDirectories (t u : FileTree) : Prop where
  workDir : t.workDir = u.workDir
  directory : ∀ p, t.get? p = some .directory ↔ u.get? p = some .directory

theorem SameDirectories.refl (t : FileTree) : t.SameDirectories t := ⟨rfl, fun _ => Iff.rfl⟩

theorem SameDirectories.symm (h : t.SameDirectories u) : u.SameDirectories t :=
  ⟨h.workDir.symm, fun p => (h.directory p).symm⟩

theorem SameDirectories.trans {v : FileTree} (h : t.SameDirectories u) (h' : u.SameDirectories v) :
    t.SameDirectories v :=
  ⟨h.workDir.trans h'.workDir, fun p => (h.directory p).trans (h'.directory p)⟩

theorem SameDirectories.origin_eq (h : t.SameDirectories u) (x : Text) : u.origin x = t.origin x := by
  rw [origin, origin, h.workDir]

theorem descend_cons_eq_ok_iff {p q : Path} {name : Text} {ns : List Text} :
    t.descend p (name :: ns) = .ok q ↔ Text.byteSize name ≤ maxName ∧
      t.get? (child p name) = some .directory ∧ t.descend (child p name) ns = .ok q := by
  rw [descend]
  by_cases hsize : Text.byteSize name > maxName
  · rw [if_pos hsize]
    exact ⟨nofun, fun h => absurd h.1 (Nat.not_le.mpr hsize)⟩
  · rw [if_neg hsize]
    have hle := Nat.not_lt.mp hsize
    rcases t.get? (child p name) with _ | (_ | _) <;> simp [hle]

theorem descend_of_sameDirectories (h : t.SameDirectories u) {p q : Path} {ns : List Text}
    (hd : t.descend p ns = .ok q) : u.descend p ns = .ok q := by
  induction ns generalizing p with
  | nil => exact hd
  | cons name ns ih =>
    obtain ⟨hsize, hdir, hrest⟩ := descend_cons_eq_ok_iff.mp hd
    exact descend_cons_eq_ok_iff.mpr ⟨hsize, (h.directory _).mp hdir, ih hrest⟩

theorem get?_of_descend {p q : Path} {ns : List Text} (hne : ns ≠ [])
    (h : t.descend p ns = .ok q) : t.get? q = some .directory := by
  induction ns generalizing p with
  | nil => exact absurd rfl hne
  | cons name ns ih =>
    obtain ⟨-, hdir, hrest⟩ := descend_cons_eq_ok_iff.mp h
    by_cases hns : ns = []
    · subst hns
      obtain rfl : child p name = q := Except.ok.inj hrest
      exact hdir
    · exact ih hns hrest

/-! ### Where a text leads -/

theorem parent_eq_ok_iff {x : Text} {p : Path} {name : Option Text} :
    t.parent x = .ok (p, name) ↔ (x ≠ [] ∧ Text.byteSize x ≤ maxPath) ∧
      t.descend (t.origin x) (names x).dropLast = .ok p ∧ (names x).getLast? = name ∧
        ∀ n ∈ name, Text.byteSize n ≤ maxName := by
  by_cases hx : x = []
  · simp [parent, hx, throw, throwThe, MonadExceptOf.throw, bind, Except.bind]
  by_cases hsize : Text.byteSize x > maxPath
  · have hle : ¬Text.byteSize x ≤ maxPath := Nat.not_le.mpr hsize
    simp [parent, hx, hsize, hle, throw, throwThe, MonadExceptOf.throw, bind, Except.bind]
  have hle := Nat.not_lt.mp hsize
  simp only [parent, hx, hsize, hle, if_false, bind_eq_ok_iff, ne_eq, not_false_eq_true,
    and_self, true_and]
  constructor
  · rintro ⟨q, hq, h⟩
    split at h
    · next hlast =>
      obtain ⟨rfl, rfl⟩ := Prod.mk.inj (Except.ok.inj h)
      exact ⟨hq, hlast, by simp⟩
    · next n hlast =>
      split at h
      · exact absurd h nofun
      · next hn =>
        obtain ⟨rfl, rfl⟩ := Prod.mk.inj (Except.ok.inj h)
        exact ⟨hq, hlast, by simpa using hn⟩
  · rintro ⟨hq, hlast, hn⟩
    refine ⟨p, hq, ?_⟩
    rw [hlast]
    cases name with
    | none => rfl
    | some n =>
      have := hn n rfl
      simp only [if_neg (Nat.not_lt.mpr this)]
      rfl

/-- A text leads to the same place in each tree with the same directories. -/
theorem parent_of_sameDirectories (h : t.SameDirectories u) {x : Text} {r : Path × Option Text}
    (hp : t.parent x = .ok r) : u.parent x = .ok r := by
  obtain ⟨hx, hd, hrest⟩ := parent_eq_ok_iff.mp hp
  refine parent_eq_ok_iff.mpr ⟨hx, ?_, hrest⟩
  rw [h.origin_eq]
  exact descend_of_sameDirectories h hd

/-! ### What stands at a place -/

theorem find_of_parent {x name : Text} {p : Path} (h : t.parent x = .ok (p, some name)) :
    t.find x = match t.get? (child p name) with
      | none => .error .notFound
      | some (.file content) =>
        if endsWithSlash x then .error .notDirectory else .ok (child p name, .file content)
      | some .directory => .ok (child p name, .directory) := by
  simp only [find, h]
  rfl

/-- What is found at a text depends on the place that it leads to only. -/
theorem find_congr {x : Text} (hp : u.parent x = t.parent x)
    (hg : ∀ p name, t.parent x = .ok (p, some name) →
      u.get? (child p name) = t.get? (child p name)) : u.find x = t.find x := by
  cases h : t.parent x with
  | error fault => simp only [find, hp, h]; rfl
  | ok r =>
    obtain ⟨p, _ | name⟩ := r
    · simp only [find, hp, h]
      rfl
    · rw [find_of_parent h, find_of_parent (hp.trans h), hg p name h]

theorem writeText_eq_ok_iff {x content : Text} : t.writeText x content = .ok u ↔
    ∃ p name, t.parent x = .ok (p, some name) ∧ isDots name = false ∧ endsWithSlash x = false ∧
      t.get? (child p name) ≠ some .directory ∧
        u = t.put (child p name) (.file (String.ofList content).toUTF8) := by
  simp only [writeText, bind_eq_ok_iff, Prod.exists]
  constructor
  · rintro ⟨p, name, hp, h⟩
    cases name with
    | none => exact absurd h nofun
    | some name =>
      by_cases hd : (isDots name || endsWithSlash x) = true
      · simp [hd, throw, throwThe, MonadExceptOf.throw, bind, Except.bind] at h
      · simp only [hd, if_false, Bool.false_eq_true] at h
        obtain ⟨hdots, hslash⟩ := Bool.or_eq_false_iff.mp (Bool.not_eq_true _ ▸ hd)
        refine ⟨p, name, hp, hdots, hslash, ?_⟩
        split at h
        · exact absurd h nofun
        · next hdir => exact ⟨fun he => hdir he, (Except.ok.inj h).symm⟩
  · rintro ⟨p, name, hp, hdots, hslash, hdir, rfl⟩
    refine ⟨p, some name, hp, ?_⟩
    simp only [hdots, hslash, Bool.or_self, Bool.false_eq_true, if_false]
    rfl

theorem renameFile_eq_ok_iff {x y : Text} : t.renameFile x y = .ok u ↔
    ∃ p name q name' e, t.parent x = .ok (p, some name) ∧ t.parent y = .ok (q, some name') ∧
      isDots name = false ∧ isDots name' = false ∧ t.get? (child p name) = some e ∧
      endsWithSlash x = false ∧ endsWithSlash y = false ∧
      t.get? (child q name') ≠ some .directory ∧
        u = (t.erase (child p name)).put (child q name') e := by
  simp only [renameFile, bind_eq_ok_iff, Prod.exists]
  constructor
  · rintro ⟨p, name, hp, q, name', hq, h⟩
    rcases name with _ | name
    · exact absurd h nofun
    rcases name' with _ | name'
    · exact absurd h nofun
    by_cases hd : (isDots name || isDots name') = true
    · simp [hd, throw, throwThe, MonadExceptOf.throw, bind, Except.bind] at h
    simp only [hd, if_false, Bool.false_eq_true] at h
    obtain ⟨hdots, hdots'⟩ := Bool.or_eq_false_iff.mp (Bool.not_eq_true _ ▸ hd)
    cases he : t.get? (child p name) with
    | none =>
      simp only [he] at h
      exact absurd h nofun
    | some e =>
      simp only [he] at h
      by_cases hs : (endsWithSlash x || endsWithSlash y) = true
      · simp [hs, throw, throwThe, MonadExceptOf.throw, bind, Except.bind] at h
      simp only [hs, if_false, Bool.false_eq_true] at h
      obtain ⟨hslash, hslash'⟩ := Bool.or_eq_false_iff.mp (Bool.not_eq_true _ ▸ hs)
      by_cases hdir : t.get? (child q name') = some .directory
      · simp [hdir, throw, throwThe, MonadExceptOf.throw, bind, Except.bind] at h
      simp only [hdir, if_false] at h
      exact ⟨p, name, q, name', e, hp, hq, hdots, hdots', he, hslash, hslash', hdir,
        (Except.ok.inj h).symm⟩
  · rintro ⟨p, name, q, name', e, hp, hq, hdots, hdots', he, hslash, hslash', hdir, rfl⟩
    refine ⟨p, some name, hp, q, some name', hq, ?_⟩
    simp only [hdots, hdots', hslash, hslash', he, hdir, Bool.or_self, Bool.false_eq_true, if_false]
    rfl

/-! ### Names in a directory -/

theorem names_append_slash (x y : Text) : names (x ++ '/' :: y) = names x ++ names y := by
  simp [names, List.splitOn_append_cons_self]

theorem of_mem_names {x name : Text} (h : name ∈ names x) : name ≠ [] ∧ '/' ∉ name := by
  obtain ⟨hmem, hne⟩ := List.mem_filter.mp h
  refine ⟨by simpa using hne, ?_⟩
  clear h hne
  induction x generalizing name with
  | nil =>
    obtain rfl : name = [] := by simpa using hmem
    simp
  | cons c x ih =>
    rw [List.splitOn_cons_eq_if_modifyHead] at hmem
    split at hmem
    · rcases List.mem_cons.mp hmem with rfl | hmem
      · simp
      · exact ih hmem
    · next hc =>
      cases hs : x.splitOn '/' with
      | nil => exact absurd hs (List.splitOn_ne_nil _ _)
      | cons a as =>
        rw [hs, List.modifyHead_cons] at hmem
        rcases List.mem_cons.mp hmem with rfl | hmem
        · have ha : '/' ∉ a := ih (hs ▸ List.mem_cons_self ..)
          have hne : '/' ≠ c := fun he => hc (by simp [← he])
          simp [hne, ha]
        · exact ih (by rw [hs]; exact List.mem_cons_of_mem _ hmem)

section inDirectory

variable {dir name : Text}

theorem names_of_not_mem (hne : name ≠ []) (hs : '/' ∉ name) : names name = [name] := by
  rw [names, List.splitOn_eq_singleton hs, List.filter_cons_of_pos (by simpa using hne)]
  rfl

theorem names_inDirectory (hne : name ≠ []) (hs : '/' ∉ name) :
    names (inDirectory dir name) = names dir ++ [name] := by
  unfold inDirectory
  split
  · next hdir =>
    subst hdir
    rw [names_of_not_mem hne hs]
    rfl
  · split
    · next hslash =>
      obtain ⟨d, rfl⟩ := List.getLast?_eq_some_iff.mp (beq_iff_eq.mp hslash)
      have hnil : names [] = [] := rfl
      rw [List.append_assoc, List.singleton_append, names_append_slash, names_append_slash,
        names_of_not_mem hne hs, hnil, List.append_nil]
    · rw [names_append_slash, names_of_not_mem hne hs]

theorem origin_inDirectory (t : FileTree) (hs : '/' ∉ name) :
    t.origin (inDirectory dir name) = t.origin dir := by
  have hhead : (inDirectory dir name).head? = some '/' ↔ dir.head? = some '/' := by
    unfold inDirectory
    cases dir with
    | nil =>
      simp only [if_true, List.head?_nil, reduceCtorEq, iff_false]
      exact fun h => hs (List.mem_of_head? h)
    | cons c d =>
      rw [if_neg (List.cons_ne_nil c d)]
      split <;> rfl
  simp only [origin, hhead]

theorem parent_inDirectory_iff (hne : name ≠ []) (hs : '/' ∉ name) {p : Path} {n : Option Text} :
    t.parent (inDirectory dir name) = .ok (p, n) ↔
      Text.byteSize (inDirectory dir name) ≤ maxPath ∧ Text.byteSize name ≤ maxName ∧
        t.descend (t.origin dir) (names dir) = .ok p ∧ n = some name := by
  have hx : inDirectory dir name ≠ [] := by
    intro he
    have hnames : names (inDirectory dir name) = names dir ++ [name] := names_inDirectory hne hs
    rw [he] at hnames
    simp [names] at hnames
  rw [parent_eq_ok_iff, names_inDirectory hne hs, origin_inDirectory t hs, List.dropLast_concat,
    List.getLast?_concat]
  constructor
  · rintro ⟨⟨-, hsize⟩, hd, rfl, hn⟩
    exact ⟨hsize, hn name rfl, hd, rfl⟩
  · rintro ⟨hsize, hn, hd, rfl⟩
    exact ⟨⟨hx, hsize⟩, hd, rfl, fun n he => by rwa [← Option.some.inj he]⟩

/-- The way to the directory decides whether the text leads anywhere. -/
theorem parent_inDirectory_eq {p : Path} (hne : name ≠ []) (hs : '/' ∉ name)
    (ht : t.descend (t.origin dir) (names dir) = .ok p)
    (hu : u.descend (u.origin dir) (names dir) = .ok p) :
    u.parent (inDirectory dir name) = t.parent (inDirectory dir name) := by
  simp only [parent, names_inDirectory hne hs, origin_inDirectory _ hs, List.dropLast_concat, ht, hu]

theorem endsWithSlash_inDirectory (hne : name ≠ []) (hs : '/' ∉ name) :
    endsWithSlash (inDirectory dir name) = false := by
  have hlast : (inDirectory dir name).getLast? = name.getLast? := by
    unfold inDirectory
    split
    · rfl
    · split
      · simp [List.getLast?_append, List.getLast?_eq_some_getLast hne]
      · simp [List.getLast?_append, List.getLast?_cons, List.getLast?_eq_some_getLast hne]
  rw [endsWithSlash, hlast]
  exact beq_eq_false_iff_ne.mpr fun h => hs (List.mem_of_getLast? h)

end inDirectory

/-! ### The file name of a text -/

theorem isDots_eq_false_iff {name : Text} :
    isDots name = false ↔ name ≠ ['.'] ∧ name ≠ ['.', '.'] := by
  simp [isDots]

theorem child_of_isDots {name : Text} (h : isDots name = false) (p : Path) :
    child p name = p ++ [name] := by
  obtain ⟨h₁, h₂⟩ := isDots_eq_false_iff.mp h
  rw [child, if_neg h₁, if_neg h₂]

theorem fileName?_eq_some {x name : Text} (h : fileName? x = some name) :
    (steps x).getLast? = some name ∧ isDots name = false := by
  obtain ⟨hl, hd⟩ := Option.filter_eq_some_iff.mp h
  exact ⟨hl, by simpa using hd⟩

theorem mem_names_of_fileName? {x name : Text} (h : fileName? x = some name) : name ∈ names x := by
  have hmem := List.mem_of_getLast? (fileName?_eq_some h).1
  unfold steps at hmem
  split at hmem
  · simp at hmem
  · next n ns hns =>
    rw [hns]
    rcases List.mem_append.mp hmem with hmem | hmem
    · split at hmem
      · simp at hmem
      · obtain rfl := List.mem_singleton.mp hmem
        exact List.mem_cons_self ..
    · exact List.mem_cons_of_mem _ (List.mem_filter.mp hmem).1

/-- **The path of a file** ends with the file name of a text that leads to it. -/
theorem parent_of_find_eq_file {x name : Text} {place : Path} {content : ByteArray}
    (hname : fileName? x = some name) (h : t.find x = .ok (place, .file content)) :
    ∃ p, t.parent x = .ok (p, some name) ∧ place = p ++ [name] ∧
      t.get? place = some (.file content) := by
  obtain ⟨hlast, hdots⟩ := fileName?_eq_some hname
  obtain ⟨⟨p, last⟩, hp, hfind⟩ := bind_eq_ok_iff.mp h
  cases last with
  | none => simp [pure, Except.pure] at hfind
  | some last =>
    obtain ⟨-, hd, hl, -⟩ := parent_eq_ok_iff.mp hp
    have hget : t.get? (child p last) = some (.file content) ∧ child p last = place := by
      rw [find_of_parent hp] at h
      split at h
      · simp at h
      · next hc =>
        split at h
        · simp at h
        · obtain ⟨hplace, hcontent⟩ := Prod.mk.inj (Except.ok.inj h)
          rw [hc, Entry.file.inj hcontent]
          exact ⟨rfl, hplace⟩
      · simp at h
    obtain ⟨init, hinit⟩ := List.getLast?_eq_some_iff.mp hl
    -- a dot at the end stands for the directory that the names before it lead to
    have hdot : last ≠ ['.'] := by
      rintro rfl
      rw [hinit, List.dropLast_concat] at hd
      have hne : init ≠ [] := by
        rintro rfl
        rw [List.nil_append] at hinit
        simp only [steps, hinit, List.filter_nil, List.append_nil] at hlast
        split at hlast
        · simp at hlast
        · simp [← Option.some.inj hlast, isDots] at hdots
      have := get?_of_descend hne hd
      simp [child, this] at hget
    have hsame : last = name := by
      unfold steps at hlast
      cases init with
      | nil =>
        rw [List.nil_append] at hinit
        simpa [hinit, hdot] using hlast
      | cons n ns =>
        simp only [hinit, List.cons_append] at hlast
        rw [List.filter_append, List.filter_cons_of_pos (by simpa using hdot), List.filter_nil,
          ← List.append_assoc, List.getLast?_concat] at hlast
        exact Option.some.inj hlast
    subst hsame
    rw [child_of_isDots hdots] at hget
    exact ⟨p, hp, hget.2.symm, hget.2 ▸ hget.1⟩

/-! ### Making directories -/

/-- The second tree has the files of the first one, and no others. -/
def SameFiles (t u : FileTree) : Prop :=
  ∀ p content, u.get? p = some (.file content) ↔ t.get? p = some (.file content)

theorem SameFiles.refl (t : FileTree) : t.SameFiles t := fun _ _ => Iff.rfl

theorem SameFiles.trans {v : FileTree} (h : t.SameFiles u) (h' : u.SameFiles v) : t.SameFiles v :=
  fun p content => (h' p content).trans (h p content)

theorem sameFiles_makeDirectory {x : Text} (h : t.makeDirectory x = .ok u) : t.SameFiles u := by
  obtain ⟨⟨p, name⟩, -, h⟩ := bind_eq_ok_iff.mp h
  cases name with
  | none => exact absurd h nofun
  | some name =>
    by_cases hd : isDots name = true
    · simp [hd, throw, throwThe, MonadExceptOf.throw, bind, Except.bind] at h
    simp only [hd, if_false, Bool.false_eq_true] at h
    have hne : child p name ≠ [] := by
      rw [child_of_isDots (by simpa using hd)]
      simp
    split at h
    · exact absurd h nofun
    · next hnone =>
      obtain rfl := Except.ok.inj h
      intro q content
      rw [get?_put hne]
      split
      · next hq => simp [hq, hnone]
      · rfl

theorem sameFiles_settled {x : Text} {r : Except FileFault FileTree}
    (h : ∀ v, r = .ok v → t.SameFiles v) : t.SameFiles (settled x t r).2 := by
  cases r with
  | ok v => exact h v rfl
  | error fault => exact .refl t

theorem sameFiles_makeOne {x : Text} {above : FileTree → Except FileFault Unit × FileTree}
    (h : ∀ t : FileTree, t.SameFiles (above t).2) (t : FileTree) : t.SameFiles (makeOne x above t).2 := by
  unfold makeOne
  split
  · have habove := h t
    split
    · next hr => rwa [hr] at habove
    · next t' hr =>
      rw [hr] at habove
      exact habove.trans (sameFiles_settled fun v hv => sameFiles_makeDirectory hv)
  · exact sameFiles_settled fun v hv => sameFiles_makeDirectory hv

/-- **Making directories leaves files alone.** -/
theorem sameFiles_makeDirectories (t : FileTree) (x : Text) :
    t.SameFiles (t.makeDirectories x).2 := by
  have hsteps (absolute : Bool) (ns : List Text) (t : FileTree) :
      t.SameFiles (makeSteps absolute ns t).2 := by
    induction ns generalizing t with
    | nil => exact .refl t
    | cons n ns ih => exact sameFiles_makeOne ih t
  unfold makeDirectories
  split
  · exact .refl t
  · exact sameFiles_makeOne (hsteps _ _) t

end NetFlat.FileTree
