import NetFlat.Config.ProjectFile

/-!
# The command line

The arguments of the program: options that hold for every command, the command, and its own
options. Options have a long name and may have a letter; letters may stand together behind one
dash, and a value may be part of the argument or be the next one. An option is given once at most
at each level; after two dashes alone no argument is an option.
-/

namespace NetFlat.Command

/-- When to use colours. -/
inductive ColorChoice where
  | auto | always | never
deriving DecidableEq, Repr

/-- How findings are reported. -/
inductive Format where
  | text | json
deriving DecidableEq, Repr

/-- The options of every command. -/
structure Common where
  quiet : Bool := false
  verbose : Bool := false
  color : Option ColorChoice := none
  config : Option Text := none
deriving DecidableEq, Repr

/-- The options that may be given. -/
inductive Opt where
  | quiet | verbose | color | config | help | version | output | format | moduleName | inputBus
  | outputBus | width | outDir
deriving DecidableEq, Repr

namespace Opt

def long : Opt → String
  | .quiet => "quiet"
  | .verbose => "verbose"
  | .color => "color"
  | .config => "config"
  | .help => "help"
  | .version => "version"
  | .output => "output"
  | .format => "format"
  | .moduleName => "module"
  | .inputBus => "input-bus"
  | .outputBus => "output-bus"
  | .width => "width"
  | .outDir => "out-dir"

def short? : Opt → Option Char
  | .quiet => some 'q'
  | .verbose => some 'v'
  | .help => some 'h'
  | .version => some 'V'
  | .output => some 'o'
  | .format => some 'f'
  | .moduleName => some 'm'
  | .width => some 'w'
  | _ => none

def isFlag : Opt → Bool
  | .quiet | .verbose | .help | .version => true
  | _ => false

end Opt

/-- Where options stand: before the command or behind it. -/
inductive Level where
  | top | clean | batch
deriving DecidableEq, Repr

def Level.options : Level → List Opt
  | .top => [.quiet, .verbose, .color, .config, .help, .version]
  | .clean =>
    [.quiet, .verbose, .color, .config, .help, .output, .format, .moduleName, .inputBus,
      .outputBus, .width]
  | .batch =>
    [.quiet, .verbose, .color, .config, .help, .outDir, .format, .moduleName, .inputBus,
      .outputBus, .width]

/-- What was given at a level: the options with their values, the last first, and the other
arguments. -/
structure Given where
  options : List (Opt × Text) := []
  operands : List Text := []
deriving DecidableEq, Repr

/-- Why the arguments are not followed by a run. -/
inductive Stop where
  | help | version | usage
deriving DecidableEq, Repr

namespace Given

def value? (g : Given) (o : Opt) : Option Text := g.options.lookup o

def has (g : Given) (o : Opt) : Bool := (g.value? o).isSome

/-- Takes an option with its value; no option is given twice. -/
def add (g : Given) (o : Opt) (value : Text) : Except Stop Given :=
  match o with
  | .help => .error .help
  | .version => .error .version
  | o => if g.has o then .error .usage else .ok { g with options := (o, value) :: g.options }

end Given

/-! ## Values -/

def ColorChoice.ofText? (t : Text) : Option ColorChoice :=
  [("auto".toList, ColorChoice.auto), ("always".toList, .always), ("never".toList, .never)].lookup t

def Format.ofText? (t : Text) : Option Format :=
  [("text".toList, Format.text), ("json".toList, .json)].lookup t

/-- A width: a number of 32 bits, with a sign in front if it is zero or the sign is a plus. -/
def width? (t : Text) : Option Nat :=
  match t with
  | '-' :: r => (Text.numeral? Text.bound32 r).filter (· = 0)
  | _ => Text.signedNumeral? Text.bound32 t

def accepts (o : Opt) (value : Text) : Bool :=
  match o with
  | .color => (ColorChoice.ofText? value).isSome
  | .format => (Format.ofText? value).isSome
  | .width => (width? value).isSome
  | _ => true

/-- Takes an option with a value that it must accept. -/
def Given.addValue (g : Given) (o : Opt) (value : Text) : Except Stop Given := do
  let g ← g.add o value
  if accepts o value then return g else throw .usage

/-! ## Arguments -/

/-- What an argument asks for when it was read: nothing more, or a value for an option. -/
inductive Wants where
  | nothing
  | value (o : Opt)

def letters (level : Level) (g : Given) : Text → Except Stop (Given × Wants)
  | [] => .ok (g, .nothing)
  | c :: t =>
    match level.options.find? (·.short? = some c) with
    | none => .error .usage
    | some o =>
      if o.isFlag then do letters level (← g.add o []) t
      else
        match t with
        | [] => .ok (g, .value o)
        | '=' :: v => (g.addValue o v).map (·, .nothing)
        | v => (g.addValue o v).map (·, .nothing)

def longOption (level : Level) (g : Given) (t : Text) : Except Stop (Given × Wants) :=
  let (name, value) := match Text.cut? '=' t with
    | some (name, value) => (name, some value)
    | none => (t, none)
  match level.options.find? (·.long.toList = name), value with
  | none, _ => .error .usage
  | some o, none =>
    if o.isFlag then (g.add o []).map (·, .nothing) else .ok (g, .value o)
  | some o, some v => if o.isFlag then .error .usage else (g.addValue o v).map (·, .nothing)

/-- The argument is an option or a group of letters. -/
def isOption (t : Text) : Bool := t.head? == some '-' && t.length > 1

def option (level : Level) (g : Given) (t : Text) : Except Stop (Given × Wants) :=
  match t with
  | '-' :: '-' :: t => longOption level g t
  | t => letters level g t.tail

def given (level : Level) (g : Given) : List Text → Except Stop Given
  | [] => .ok g
  | a :: rest =>
    if a = ['-', '-'] then .ok { g with operands := g.operands ++ rest }
    else if isOption a then
      match option level g a with
      | .error stop => .error stop
      | .ok (g, .nothing) => given level g rest
      | .ok (g, .value o) =>
        match rest with
        | [] => .error .usage
        | v :: rest =>
          if isOption v then .error .usage
          else
            match g.addValue o v with
            | .error stop => .error stop
            | .ok g => given level g rest
    else if level = .clean ∧ g.operands ≠ [] then .error .usage
    else given level { g with operands := g.operands ++ [a] } rest

/-! ## Commands -/

/-- What the command line asks for. -/
inductive Task where
  | clean (input : Text) (output : Option Text)
  | batch (inputs : List Text) (outDir : Text)
deriving DecidableEq, Repr

/-- A run of the program. -/
structure Request where
  common : Common
  format : Format
  overrides : Overrides
  task : Task
deriving DecidableEq, Repr

/-- The options of every command, those behind the command before those in front. -/
def Given.common (top g : Given) : Common :=
  let value := fun o => (g.value? o).or (top.value? o)
  { quiet := top.has .quiet || g.has .quiet
    verbose := top.has .verbose || g.has .verbose
    color := (value .color).bind ColorChoice.ofText?
    config := value .config }

def Given.overrides (g : Given) : Overrides :=
  ⟨g.value? .moduleName, g.value? .inputBus, g.value? .outputBus, (g.value? .width).bind width?⟩

def Given.task? (g : Given) (level : Level) : Option Task :=
  match level, g.operands with
  | .clean, [input] => some (.clean input (g.value? .output))
  | .batch, inputs =>
    if inputs = [] then none else (g.value? .outDir).map fun dir => .batch inputs dir
  | _, _ => none

def request (level : Level) (top : Given) (args : List Text) : Except Stop Request := do
  let g ← given level {} args
  match g.task? level with
  | some task =>
    let format := ((g.value? .format).bind Format.ofText?).getD .text
    return ⟨top.common g, format, g.overrides, task⟩
  | none => throw .usage

def Level.ofText? (t : Text) : Option Level :=
  [("clean".toList, Level.clean), ("batch".toList, .batch)].lookup t

/-- The word that asks for help on a command. -/
def helpWord : Text := "help".toList

/-- What follows the word that asks for help: no more than one command. -/
def helpFor (args : List Text) : Stop :=
  match args with
  | [] => .help
  | [a] => if (Level.ofText? a).isSome ∨ a = helpWord then .help else .usage
  | _ => .usage

/-- Reads the arguments up to the command, and what stands behind it. A value that was the argument
in front of the command is looked at when the command was read. -/
def readFrom (top : Given) : List Text → Except Stop Request
  | [] => .error .usage
  | a :: rest =>
    if a = ['-', '-'] then .error .usage
    else if isOption a then
      match option .top top a with
      | .error stop => .error stop
      | .ok (top, .nothing) => readFrom top rest
      | .ok (top, .value o) =>
        match rest with
        | [] => .error .usage
        | v :: rest =>
          if isOption v then .error .usage
          else
            match top.addValue o v with
            | .ok top => readFrom top rest
            | .error stop =>
              match rest with
              | [] => .error stop
              | b :: rest =>
                match Level.ofText? b with
                | some level =>
                  match request level top rest with
                  | .error .help => .error .help
                  | _ => .error stop
                | none => if b = helpWord then .error (helpFor rest) else .error stop
    else
      match Level.ofText? a with
      | some level => request level top rest
      | none => if a = helpWord then .error (helpFor rest) else .error .usage

def read (args : List Text) : Except Stop Request := readFrom {} args

end NetFlat.Command
