import NetFlat.Command.Console
import NetFlat.Command.Line
import NetFlat.Diagnostic.Rendering
import NetFlat.Files.Tree
import NetFlat.Flattening
import NetFlat.Report

/-!
# Running commands

A command is a function on file trees: it yields the exit code, what it wrote to the console, and
the tree after it. Output files are written beside their place first and then renamed, so a file
is replaced as a whole or not at all. The libraries that read arguments and project files and write
log entries and JSON texts are a parameter of a command; the program runs with those defined here.
-/

namespace NetFlat.Command

/-- What a run leaves behind. -/
structure Outcome where
  code : Nat
  console : Console
  tree : FileTree

/-! ## Libraries -/

/-- The end of a run whose arguments ask for no command. -/
structure Exit where
  code : Nat
  console : Console

/-- The libraries that a run calls. -/
structure Libraries where
  /-- Reads the arguments, or ends the run. -/
  arguments : List Text → Except Exit Request
  /-- Reads the text of a project file, or tells what is wrong with it. -/
  projectFile : Text → Except String ProjectFile
  /-- What is written of a log entry where a level was asked for. -/
  log : LogLevel → LogEntry → String
  /-- Writes a JSON value on lines of its own. -/
  json : Report.Json → Option String

def usage : String :=
  "Usage: gateflat [OPTIONS] clean <INPUT> [--output <OUTPUT>]\n" ++
    "       gateflat [OPTIONS] batch <INPUTS>... --out-dir <OUT_DIR>\n"

/-- How a run ends that stops at its arguments. -/
def exitOf : Stop → Exit
  | .help => ⟨0, { out := usage }⟩
  | .version => ⟨0, { out := "gateflat 0.1.0\n" }⟩
  | .usage => ⟨2, { err := usage }⟩

/-- The libraries of the program. A log entry is written if it is no less important than the
level. -/
def Libraries.standard : Libraries where
  arguments args := (read args).mapError exitOf
  projectFile t := ((ProjectFile.read? t).map Except.ok).getD (.error "it is no project file")
  log level e := if e.level.rank ≤ level.rank then e.written else ""
  json j := some (j.pretty 0)

/-! ## What both commands do -/

/-- How a run speaks. -/
structure Manner where
  quiet : Bool
  color : Bool
  logLevel : LogLevel
  format : Format

/-- The manner that was asked for; `term` names the terminal. -/
def Manner.of (r : Request) (term : Option Text) : Manner :=
  { quiet := r.common.quiet
    color := match r.common.color.getD .auto with
      | .auto => term.any (· ≠ "dumb".toList)
      | .always => true
      | .never => false
    logLevel := if r.common.verbose then .debug else if r.common.quiet then .error else .warn
    format := r.format }

def Manner.tells (m : Manner) : Bool := !m.quiet && m.format = .text

/-- The name of the project file in the working directory. -/
def projectFileName : Text := "gateflat.toml".toList

/-- The project file to use: the one asked for, which must be a file, or the one in the working
directory, if there is one. -/
def locateProject (tree : FileTree) (asked : Option Text) : Except String (Option Text) :=
  match asked with
  | some path =>
    if tree.isFile path then .ok (some path)
    else .error s!"config file {String.ofList path} does not exist"
  | none => .ok (if tree.isFile projectFileName then some projectFileName else none)

def readProject (l : Libraries) (tree : FileTree) (path : Text) : Except String ProjectFile :=
  match tree.readText path with
  | .error fault => .error s!"failed to read configuration: {fault.message}"
  | .ok text => (l.projectFile text).mapError fun e => s!"failed to parse configuration: {e}"

/-- The part of the program that reads, flattens and writes files, as log entries name it. -/
def pipelineTarget : String := "gateflat::pipeline"

/-- The configuration of a run, and the console after it was looked for. -/
def configure (l : Libraries) (m : Manner) (r : Request) (tree : FileTree) (console : Console) :
    Except String Config × Console :=
  match locateProject tree r.common.config with
  | .error e => (.error e, console)
  | .ok path =>
    let loading := path.toList.map fun p =>
      (⟨.debug, pipelineTarget, s!"loading {String.ofList p}"⟩ : LogEntry)
    let console := console.log (l.log m.logLevel) loading
    let file : Except String (Option ProjectFile) := match path with
      | none => .ok none
      | some p => (readProject l tree p).map some
    match file with
    | .error e => (.error e, console)
    | .ok file =>
      match Config.resolved file r.overrides with
      | .error e => (.error e.message, console)
      | .ok config => (.ok config, console)

/-- What came of one input file: its path, the findings, that of a failure last, and the flat
module if flattening succeeded. -/
structure FileRun where
  path : Text
  sources : Sources
  findings : List Diagnostic
  flattened : Option Flattened
  log : List LogEntry

namespace FileRun

def ofContent (config : Config) (path content : Text) : FileRun :=
  let file : SourceFile := ⟨0, String.ofList path, content⟩
  let sources : Sources := ⟨[file]⟩
  let r := flatten config file
  match r.result with
  | .ok f => ⟨path, sources, r.findings, some f, r.log⟩
  | .error f =>
    let finding := f.diagnostic.withHelp "no output was written; fix the netlist and rerun"
    let entry : LogEntry := ⟨.debug, pipelineTarget, s!"{String.ofList path}: {f.message}"⟩
    ⟨path, sources, r.findings ++ [finding], none, r.log ++ [entry]⟩

/-- The findings that are shown: all of them, or the errors alone for a quiet run. -/
def shown (m : Manner) (f : FileRun) : List Diagnostic :=
  f.findings.filter fun d => !m.quiet || d.severity = .error

def display (m : Manner) (console : Console) (f : FileRun) : Console :=
  (f.shown m).foldl (fun c d => c.say ((d.render? f.sources m.color).getD "")) console

def toJson (f : FileRun) : Report.Json := Report.file f.path f.findings (f.flattened.map (·.stats))

end FileRun

/-- The text of a report on input files. -/
def reportText (l : Libraries) (runs : List FileRun) : String :=
  (l.json (.array (runs.map FileRun.toJson))).getD "[]" ++ "\n"

def report (l : Libraries) (m : Manner) (runs : List FileRun) (console : Console) : Console :=
  match m.format with
  | .text => runs.foldl (FileRun.display m) console
  | .json => console.print (reportText l runs)

/-- The path at which an output file is written first. -/
def temporary (path : Text) : Text := path ++ ".tmp".toList

/-- Writes an output file. What was written first stays if the renaming fails. -/
def writeOutput (path text : Text) (tree : FileTree) : Except FileFault Unit × FileTree :=
  match tree.writeText (temporary path) text with
  | .error fault => (.error fault, tree)
  | .ok written =>
    match written.renameFile (temporary path) path with
    | .error fault => (.error fault, written)
    | .ok renamed => (.ok (), renamed)

def failed (message : String) (console : Console) (tree : FileTree) : Outcome :=
  ⟨1, console.say s!"error: {message}", tree⟩

/-! ## One file -/

/-- Hands out the flat module of a file: to the output file, or to standard output. -/
def deliver (m : Manner) (output : Option Text) (f : Flattened) (console : Console)
    (tree : FileTree) : Outcome :=
  match output with
  | none =>
    let console := console.print (String.ofList f.text)
    ⟨0, console.sayIf (!m.quiet) s!"   Result: {f.stats.summary}", tree⟩
  | some path =>
    match writeOutput path f.text tree with
    | (.error fault, tree) =>
      failed s!"cannot write {String.ofList path}: {fault.message}" console tree
    | (.ok (), tree) =>
      ⟨0, console.sayIf m.tells s!"     Wrote {String.ofList path}: {f.stats.summary}", tree⟩

/-- Flattens one file under a configuration. -/
def cleanWith (l : Libraries) (m : Manner) (config : Config) (input : Text)
    (output : Option Text) (console : Console) (tree : FileTree) : Outcome :=
  let name := String.ofList input
  let console := console.sayIf m.tells
    s!"   Flattening {name} (module {Text.quoted config.moduleName})"
  match tree.readText input with
  | .error fault => failed s!"cannot read {name}: {fault.message}" console tree
  | .ok content =>
    let f := FileRun.ofContent config input content
    let console := report l m [f] (console.log (l.log m.logLevel) f.log)
    match f.flattened with
    | none => ⟨1, console, tree⟩
    | some flattened => deliver m output flattened console tree

def clean (l : Libraries) (m : Manner) (r : Request) (input : Text) (output : Option Text)
    (tree : FileTree) : Outcome :=
  if m.format = .json ∧ output = none then
    failed "--format json needs --output; stdout carries the report" {} tree
  else
    match configure l m r tree {} with
    | (.error e, console) => failed e console tree
    | (.ok config, console) => cleanWith l m config input output console tree

/-! ## Many files -/

/-- An input file and its output file. -/
structure Job where
  input : Text
  output : Text
deriving DecidableEq, Repr

namespace Job

/-- The jobs of inputs: each is written to the directory under its own file name, no two of them to
the same file. -/
def ofInputs (dir : Text) : List Text → List Job → Except String (List Job)
  | [], jobs => .ok jobs
  | input :: rest, jobs =>
    match FileTree.fileName? input with
    | none => .error s!"{String.ofList input} does not name a file"
    | some name =>
      let output := FileTree.inDirectory dir name
      match jobs.find? (·.output = output) with
      | some other =>
        .error <| s!"{String.ofList other.input} and {String.ofList input} " ++
          s!"would both be written to {String.ofList output}"
      | none => ofInputs dir rest (jobs ++ [⟨input, output⟩])

/-- What came of a job: a flattened or refused file, or a message on a file operation that failed;
and log entries. -/
structure Result where
  run : Except String FileRun
  log : List LogEntry

/-- The part of the program that works off jobs, as log entries name it. -/
def target : String := "gateflat::batch"

/-- Works off a job: reads, flattens and, if that succeeds, writes. -/
def process (config : Config) (job : Job) (tree : FileTree) : Result × FileTree :=
  let input := String.ofList job.input
  match tree.readText job.input with
  | .error fault =>
    (⟨.error s!"cannot read {input}: {fault.message}",
      [⟨.error, target, s!"skipping {input}: failed to read: {fault.message}"⟩]⟩, tree)
  | .ok content =>
    let f := FileRun.ofContent config job.input content
    match f.flattened with
    | none => (⟨.ok f, f.log⟩, tree)
    | some flattened =>
      match writeOutput job.output flattened.text tree with
      | (.error fault, tree) =>
        (⟨.error s!"cannot write {String.ofList job.output}: {fault.message}", f.log⟩, tree)
      | (.ok (), tree) =>
        (⟨.ok f, f.log ++ [⟨.info, target, s!"{input}: {flattened.stats.summary}"⟩]⟩, tree)

def processAll (config : Config) : List Job → FileTree → List Result × FileTree
  | [], tree => ([], tree)
  | job :: jobs, tree =>
    let (result, tree) := process config job tree
    let (results, tree) := processAll config jobs tree
    (result :: results, tree)

def Result.runs (results : List Result) : List FileRun :=
  results.filterMap fun r => r.run.toOption

def Result.messages (results : List Result) : List String :=
  results.filterMap fun r => match r.run with
    | .ok _ => none
    | .error e => some e

end Job

def batchWith (l : Libraries) (m : Manner) (config : Config) (jobs : List Job)
    (console : Console) (tree : FileTree) : Outcome :=
  let console := console.sayIf m.tells
    s!"   Flattening {jobs.length} file(s) (module {Text.quoted config.moduleName})"
  let (results, tree) := Job.processAll config jobs tree
  let runs := Job.Result.runs results
  let messages := Job.Result.messages results
  let console := results.foldl (fun c r => c.log (l.log m.logLevel) r.log) console
  let console := messages.foldl (fun c e => c.say s!"error: {e}") console
  let console := report l m runs console
  let bad := messages.length + (runs.filter (·.flattened.isNone)).length
  let console := console.sayIf m.tells s!"   Result: {jobs.length - bad} flattened, {bad} failed"
  ⟨if bad = 0 then 0 else 1, console, tree⟩

def batch (l : Libraries) (m : Manner) (r : Request) (inputs : List Text) (outDir : Text)
    (tree : FileTree) : Outcome :=
  match configure l m r tree {} with
  | (.error e, console) => failed e console tree
  | (.ok config, console) =>
    match Job.ofInputs outDir inputs [] with
    | .error e => failed e console tree
    | .ok jobs =>
      match tree.makeDirectories outDir with
      | (.error fault, tree) => failed fault.message console tree
      | (.ok (), tree) => batchWith l m config jobs console tree

/-! ## The program -/

/-- The path texts under which a run looks into the tree or changes it. -/
def Request.paths (r : Request) : List Text :=
  let written := fun path => [temporary path, path]
  r.common.config.getD projectFileName :: match r.task with
    | .clean input output => input :: output.toList.flatMap written
    | .batch inputs outDir =>
      outDir :: inputs.flatMap fun input =>
        input :: (FileTree.fileName? input).toList.flatMap fun name =>
          written (FileTree.inDirectory outDir name)

/-- The path texts that matter to a run on the given arguments. -/
def paths (args : List Text) : List Text :=
  match read args with
  | .error _ => []
  | .ok r => r.paths

/-- Runs a program with the given libraries on its arguments; `term` names the terminal. -/
def runWith (l : Libraries) (args : List Text) (term : Option Text) (tree : FileTree) : Outcome :=
  match l.arguments args with
  | .error e => ⟨e.code, e.console, tree⟩
  | .ok r =>
    let m := Manner.of r term
    match r.task with
    | .clean input output => clean l m r input output tree
    | .batch inputs outDir => batch l m r inputs outDir tree

def run (args : List Text) (term : Option Text) (tree : FileTree) : Outcome :=
  runWith .standard args term tree

end NetFlat.Command
