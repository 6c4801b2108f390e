import NetFlat.Text.Basic

/-!
# File trees

A file tree holds files and directories under paths from its root, and a working directory that
relative paths start at. Operations follow the rules of the operating system: every name on the way
to a file must be a directory, a path may end with a slash only where a directory is meant, and
renaming replaces a file in one step.
-/

namespace NetFlat

/-- Why a file operation failed. -/
inductive FileFault where
  | notFound | exists | notDirectory | isDirectory | busy | nameTooLong | notUtf8
deriving DecidableEq, Repr

def FileFault.message : FileFault → String
  | .notFound => "No such file or directory (os error 2)"
  | .exists => "File exists (os error 17)"
  | .notDirectory => "Not a directory (os error 20)"
  | .isDirectory => "Is a directory (os error 21)"
  | .busy => "Device or resource busy (os error 16)"
  | .nameTooLong => "File name too long (os error 36)"
  | .notUtf8 => "stream did not contain valid UTF-8"

/-- What stands under a path. -/
inductive Entry where
  | file (content : ByteArray)
  | directory

instance : DecidableEq Entry
  | .file a, .file b => decidable_of_iff (a.data = b.data) ⟨fun h => by
      rw [ByteArray.ext h], fun h => by rw [Entry.file.inj h]⟩
  | .file _, .directory => isFalse Entry.noConfusion
  | .directory, .file _ => isFalse Entry.noConfusion
  | .directory, .directory => isTrue rfl

/-- The names from the root down to a file or directory. -/
abbrev Path := List Text

/-- Files and directories under their paths, and the working directory. The root is always there. -/
structure FileTree where
  entries : List (Path × Entry)
  workDir : Path

namespace FileTree

/-! ## Entries -/

def get? (tree : FileTree) (p : Path) : Option Entry :=
  if p = [] then some .directory else tree.entries.lookup p

def put (tree : FileTree) (p : Path) (e : Entry) : FileTree :=
  { tree with entries := (p, e) :: tree.entries.filter (·.1 ≠ p) }

def erase (tree : FileTree) (p : Path) : FileTree :=
  { tree with entries := tree.entries.filter (·.1 ≠ p) }

theorem lookup_filter_ne {es : List (Path × Entry)} {p q : Path} :
    (es.filter (·.1 ≠ p)).lookup q = if q = p then none else es.lookup q := by
  induction es with
  | nil => simp
  | cons e es ih =>
    obtain ⟨k, v⟩ := e
    by_cases hk : k = p
    · subst hk
      have : ((k, v) :: es).filter (·.1 ≠ k) = es.filter (·.1 ≠ k) := by simp
      rw [this, ih, List.lookup_cons]
      by_cases hq : q = k
      · simp [hq]
      · have : (q == k) = false := by simpa using hq
        simp [hq, this]
    · have : ((k, v) :: es).filter (·.1 ≠ p) = (k, v) :: es.filter (·.1 ≠ p) := by simp [hk]
      rw [this, List.lookup_cons, List.lookup_cons, ih]
      by_cases hq : q = k
      · subst hq; simp [hk]
      · have : (q == k) = false := by simpa using hq
        simp [this]

theorem get?_put {tree : FileTree} {p q : Path} {e : Entry} (hp : p ≠ []) :
    (tree.put p e).get? q = if q = p then some e else tree.get? q := by
  simp only [get?, put, List.lookup_cons, lookup_filter_ne]
  by_cases h : q = p
  · subst h; simp [hp]
  · have : (q == p) = false := by simpa using h
    simp [h, this]

theorem get?_erase {tree : FileTree} {p q : Path} (hp : p ≠ []) :
    (tree.erase p).get? q = if q = p then none else tree.get? q := by
  simp only [get?, erase, lookup_filter_ne]
  by_cases h : q = p
  · subst h; simp [hp]
  · simp [h]

/-! ## Making and comparing trees -/

/-- Puts directories under a path and those above it where nothing stands; the path is given last
name first. -/
def putDirectories : List Text → FileTree → FileTree
  | [], tree => tree
  | n :: ns, tree =>
    let tree := putDirectories ns tree
    if (tree.get? (n :: ns).reverse).isSome then tree else tree.put (n :: ns).reverse .directory

/-- Puts an entry under a path, with directories above it. -/
def place (tree : FileTree) (p : Path) (e : Entry) : FileTree :=
  (putDirectories p.reverse.tail tree).put p e

/-- A tree with the given files, and directories where no content is given, in its working
directory. -/
def ofFiles (workDir : Path) (files : List (Path × Option ByteArray)) : FileTree :=
  files.foldl
    (fun tree f => tree.place (workDir ++ f.1) (match f.2 with
      | some content => .file content
      | none => .directory))
    (putDirectories workDir.reverse ⟨[], workDir⟩)

/-- The entries that another tree does not have like this, those put last at the end. -/
def changes (tree before : FileTree) : List (Path × Entry) :=
  tree.entries.reverse.filter fun (p, e) => before.get? p ≠ some e

/-- The changed entries below the working directory, under their paths from there. -/
def changesFrom (tree before : FileTree) : List (Path × Entry) :=
  (tree.changes before).filterMap fun (p, e) =>
    (tree.workDir.isPrefixOf? p).map fun rest => (rest, e)

/-- The paths under which another tree has an entry and this one has none. -/
def removals (tree before : FileTree) : List Path :=
  (before.entries.map (·.1)).filter fun p => (tree.get? p).isNone

/-! ## Finding -/

/-- The names of a path text; empty ones between slashes do not count. -/
def names (t : Text) : List Text := (t.splitOn '/').filter (· ≠ [])

def origin (tree : FileTree) (t : Text) : Path := if t.head? = some '/' then [] else tree.workDir

def endsWithSlash (t : Text) : Bool := t.getLast? == some '/'

def maxName : Nat := 255

/-- The largest size of a path text in bytes. -/
def maxPath : Nat := 4095

/-- The path of a name in a directory; a dot is the directory, two dots the one above. -/
def child (p : Path) (name : Text) : Path :=
  if name = ['.'] then p else if name = ['.', '.'] then p.dropLast else p ++ [name]

/-- The paths on the way along names from a path. -/
def passed : Path → List Text → List Path
  | _, [] => []
  | p, name :: ns => child p name :: passed (child p name) ns

/-- The paths on the way along a path text, the place that it names last. -/
def route (tree : FileTree) (t : Text) : List Path := passed (tree.origin t) (names t)

/-- The directory that names lead to from another one. -/
def descend (tree : FileTree) : Path → List Text → Except FileFault Path
  | p, [] => .ok p
  | p, name :: ns =>
    if Text.byteSize name > maxName then .error .nameTooLong
    else
      match tree.get? (child p name) with
      | none => .error .notFound
      | some (.file _) => .error .notDirectory
      | some .directory => descend tree (child p name) ns

/-- Where a path text leads: the directory of its last name, and that name unless the text is made
of slashes alone. -/
def parent (tree : FileTree) (t : Text) : Except FileFault (Path × Option Text) := do
  if t = [] then throw .notFound
  if Text.byteSize t > maxPath then throw .nameTooLong
  let ns := names t
  let p ← tree.descend (tree.origin t) ns.dropLast
  match ns.getLast? with
  | none => return (p, none)
  | some name => if Text.byteSize name > maxName then throw .nameTooLong else return (p, some name)

/-- The name stands for a directory by itself. -/
def isDots (name : Text) : Bool := name == ['.'] || name == ['.', '.']

/-- The path that a text leads to, and what stands there. -/
def find (tree : FileTree) (t : Text) : Except FileFault (Path × Entry) := do
  let (p, name) ← tree.parent t
  match name with
  | none => return (p, .directory)
  | some name =>
    match tree.get? (child p name) with
    | none => throw .notFound
    | some (.file content) =>
      if endsWithSlash t then throw .notDirectory else return (child p name, .file content)
    | some .directory => return (child p name, .directory)

/-- The text leads to a file. -/
def isFile (tree : FileTree) (t : Text) : Bool :=
  match tree.find t with
  | .ok (_, .file _) => true
  | _ => false

def isDirectory (tree : FileTree) (t : Text) : Bool :=
  match tree.find t with
  | .ok (_, .directory) => true
  | _ => false

/-! ## Operations -/

/-- The text in a file. -/
def readText (tree : FileTree) (t : Text) : Except FileFault Text := do
  match ← tree.find t with
  | (_, .directory) => throw .isDirectory
  | (_, .file content) =>
    match String.fromUTF8? content with
    | some s => return s.toList
    | none => throw .notUtf8

/-- Writes a file, a new one or in place of one. -/
def writeText (tree : FileTree) (t content : Text) : Except FileFault FileTree := do
  let (p, name) ← tree.parent t
  match name with
  | none => throw .isDirectory
  | some name =>
    if isDots name || endsWithSlash t then throw .isDirectory
    match tree.get? (child p name) with
    | some .directory => throw .isDirectory
    | _ => return tree.put (child p name) (.file (String.ofList content).toUTF8)

/-- Gives a file another path, in place of a file that stands there. -/
def renameFile (tree : FileTree) (old new : Text) : Except FileFault FileTree := do
  let (p, oldName) ← tree.parent old
  let (q, newName) ← tree.parent new
  match oldName, newName with
  | some oldName, some newName =>
    if isDots oldName || isDots newName then throw .busy
    match tree.get? (child p oldName) with
    | none => throw .notFound
    | some e =>
      if endsWithSlash old || endsWithSlash new then throw .notDirectory
      if tree.get? (child q newName) = some .directory then throw .isDirectory
      return (tree.erase (child p oldName)).put (child q newName) e
  | _, _ => throw .busy

def makeDirectory (tree : FileTree) (t : Text) : Except FileFault FileTree := do
  let (p, name) ← tree.parent t
  match name with
  | none => throw .exists
  | some name =>
    if isDots name then throw .exists
    match tree.get? (child p name) with
    | some _ => throw .exists
    | none => return tree.put (child p name) .directory

/-! ## Directories with those above them -/

/-- The names of a path text without the dots that stand for no step. A dot in front is kept. -/
def steps (t : Text) : List Text :=
  match names t with
  | [] => []
  | n :: ns => (if n = ['.'] && t.head? = some '/' then [] else [n]) ++ ns.filter (· ≠ ['.'])

/-- The text of a path made of steps. -/
def pathText (absolute : Bool) (ns : List Text) : Text :=
  (if absolute then ['/'] else []) ++ Text.join ['/'] ns

/-- The tree with a directory made, or the tree as it is: no fault if the directory is there. -/
def settled (t : Text) (tree : FileTree) :
    Except FileFault FileTree → Except FileFault Unit × FileTree
  | .ok tree => (.ok (), tree)
  | .error fault => (if tree.isDirectory t then .ok () else .error fault, tree)

/-- Makes the directory of a path text, once `above` has made those above it if need be. What was
made stays if there is a fault later. -/
def makeOne (t : Text) (above : FileTree → Except FileFault Unit × FileTree) (tree : FileTree) :
    Except FileFault Unit × FileTree :=
  match tree.makeDirectory t with
  | .error .notFound =>
    match above tree with
    | (.error fault, tree) => (.error fault, tree)
    | (.ok (), tree) => settled t tree (tree.makeDirectory t)
  | result => settled t tree result

/-- Makes the directory of the steps, given last first, and those above it. -/
def makeSteps (absolute : Bool) : List Text → FileTree → Except FileFault Unit × FileTree
  | [], tree => (.ok (), tree)
  | n :: ns, tree =>
    makeOne (pathText absolute (n :: ns).reverse) (makeSteps absolute ns) tree

/-- Makes a directory and those above it; directories that are there stay. -/
def makeDirectories (tree : FileTree) (t : Text) : Except FileFault Unit × FileTree :=
  if t = [] then (.ok (), tree)
  else makeOne t (makeSteps (t.head? == some '/') (steps t).reverse.tail) tree

/-- The last step of a path text, unless it leads upwards or nowhere. -/
def fileName? (t : Text) : Option Text :=
  (steps t).getLast?.filter (!isDots ·)

def inDirectory (dir name : Text) : Text :=
  if dir = [] then name else if endsWithSlash dir then dir ++ name else dir ++ '/' :: name

end FileTree

end NetFlat
