import NetFlat.Command.Run

/-!
# The program

The outer layer: what stands on the disk under the paths of a run becomes a file tree, the command
is run on it, and the tree after it is written back.
-/

namespace NetFlat

def Entry.onDisk? (p : Path) : IO (Option Entry) := do
  match ← (IO.FS.readBinFile (String.ofList (FileTree.pathText true p))).toBaseIO with
  | .ok content => return some (.file content)
  | .error (.inappropriateType ..) => return some .directory
  | .error _ => return none

/-- Puts what stands on the disk under paths into a tree. A path counts once the one above it is
known to be a directory. -/
def FileTree.withDisk (tree : FileTree) : List Path → IO FileTree
  | [] => return tree
  | p :: ps => do
    if (tree.get? p).isSome || tree.get? p.dropLast ≠ some .directory then tree.withDisk ps
    else match ← Entry.onDisk? p with
      | some e => (tree.put p e).withDisk ps
      | none => tree.withDisk ps

/-- Brings an entry to the disk, a file in one step. -/
def Entry.toDisk (e : Entry) (p : Path) : IO Unit := do
  let path := FileTree.pathText true p
  match e with
  | .directory => IO.FS.createDirAll (String.ofList path)
  | .file content =>
    IO.FS.writeBinFile (String.ofList (Command.temporary path)) content
    IO.FS.rename (String.ofList (Command.temporary path)) (String.ofList path)

def FileTree.toDisk (tree before : FileTree) : IO Unit := do
  for p in tree.removals before do
    IO.FS.removeFile (String.ofList (pathText true p))
  for (p, e) in tree.changes before do
    e.toDisk p

end NetFlat

open NetFlat in
def main (args : List String) : IO UInt32 := do
  let args := args.map String.toList
  let workDir := FileTree.names (← IO.currentDir).toString.toList
  let empty := FileTree.ofFiles workDir []
  let tree ← empty.withDisk ((Command.paths args).flatMap empty.route)
  let outcome := Command.run args ((← IO.getEnv "TERM").map String.toList) tree
  try
    outcome.tree.toDisk tree
  catch e =>
    IO.eprintln s!"error: {e}"
    return 1
  IO.print outcome.console.out
  IO.eprint outcome.console.err
  return outcome.code.toUInt32
