import NetFlat.Dialect.Declaration
import NetFlat.Gate.Connections
import NetFlat.Gate.Placing
import NetFlat.Scan.State

/-!
# Steps of a scan

What a line does to the state of a scan, by the phase that the scan is in. Statements are worked
off when their last line comes: declarations feed the scope, instances of catalog cells become
placed gates, all else is reported as skipped.
-/

namespace NetFlat.Scan

def skip (s : Scan) (line : Line) : Scan :=
  { s with stats := { s.stats with skippedLines := s.stats.skippedLines + 1 } }.report
    { severity := .note, code := ⟨.info, 302⟩, span := line.span,
      message := "line is not part of the supported netlist dialect and was skipped" }

/-! ## Declarations -/

def widthWords (d : Declaration) : String :=
  match d.width? with
  | some w => s!"{w}-bit"
  | none => "scalar"

/-- The finding that a port bus is declared with another width than configured. -/
def widthMismatch (config : Config) (d : Declaration) (line : Line) (name : Text) : Diagnostic :=
  Diagnostic.withNote
    (Diagnostic.withPrimary
      { severity := .warning, code := ⟨.warning, 201⟩, span := line.span,
        message := s!"port bus {Text.quoted name} is declared {widthWords d}" }
      line.span s!"configured width is {config.width}")
    "ports are emitted with the configured width"

/-- A port declaration is checked against the configured bus; names other than that bus make the
line a skipped one. -/
def declarePorts (config : Config) (role : BusRole) (d : Declaration) (line : Line) (s : Scan) :
    Scan :=
  let own := d.names.filter fun name => config.busRole? name = some role
  let s := if d.width? = some config.width then s else
    own.foldl (fun s name => s.report (widthMismatch config d line name)) s
  if d.names.all fun name => config.busRole? name = some role then s else s.skip line

/-- A wire with a range is reported, unless it names a port bus. -/
def declareBusWire (config : Config) (line : Line) (s : Scan) (name : Text) : Scan :=
  if (config.busRole? name).isSome then
    s.note .debug s!"line {line.number}: dropping bus wire {Text.quoted name}"
  else
    s.report { severity := .warning, code := ⟨.warning, 202⟩, span := line.span,
               message := s!"bus wire {Text.quoted name} is not a port bus and is not flattened" }

/-- Wires without a range enter the scope one by one. -/
def declareWires (line : Line) (s : Scan) : List Text → Scan
  | [] => s
  | name :: names =>
    match s.scope.declare ⟨name⟩ with
    | .ok scope => declareWires line { s with scope } names
    | .error clash => s.fail (clash.toFailure line)

def finishDeclaration (config : Config) (d : OpenDeclaration) (s : Scan) : Scan :=
  let s := s.goto .body
  match Declaration.read? d.text with
  | none => s.skip d.line
  | some decl =>
    match d.kind with
    | .port role => s.declarePorts config role decl d.line
    | .wire =>
      if decl.range.isSome then decl.names.foldl (declareBusWire config d.line) s
      else s.declareWires d.line decl.names

/-! ## Instances -/

/-- An instance of a cell that is not in the catalog is passed over, with a note. -/
def skipGate (g : OpenGate) (s : Scan) : Scan :=
  let what := s!"unsupported {Text.quoted g.keyword} instance {Text.quoted g.name}"
  let s := s.note .info s!"skipping {what}"
  let skippedCells := Tally.bump g.keyword s.stats.skippedCells
  { s with stats := { s.stats with skippedCells } }.report
    { severity := .note, code := ⟨.info, 301⟩, span := g.location.span,
      message := s!"skipped {what}" }

/-- Reads the connections of an instance and places its gate. -/
def placeGate (config : Config) (cell : Cell) (g : OpenGate) (scope : Scope) :
    Except Failure (Placed × Scope) := do
  let connections ← Connection.read g.lines
  let gate ← Gate.ofConnections cell g.name connections g.location
  gate.place config scope

def finishGate (config : Config) (g : OpenGate) (s : Scan) : Scan :=
  let s := s.goto .body
  match Cell.find? g.keyword with
  | none => s.skipGate g
  | some cell =>
    match placeGate config cell g s.scope with
    | .error f => s.fail f
    | .ok (placed, scope) =>
      let translated := Tally.bump g.keyword s.stats.translated
      { s with scope, placed := s.placed ++ [placed], stats := { s.stats with translated } }

/-! ## Lines -/

/-- The statement of the phase is cut off at `endmodule`. -/
def cutOff (s : Scan) (line : Line) (reason : String) : Scan :=
  s.fail ⟨line, .malformedStatement reason⟩

def gateWords (g : OpenGate) : String :=
  s!"{Text.quoted g.keyword} instance {Text.quoted g.name}"

def headerPhase (code : Text) : Phase := if ';' ∈ code then .body else .header

/-- A declaration opens; it is complete if its semicolon is on the line. -/
def openDeclaration (config : Config) (kind : DeclarationKind) (keyword code : Text) (line : Line)
    (s : Scan) : Scan :=
  let d : OpenDeclaration := ⟨kind, code.drop keyword.length, line⟩
  if ';' ∈ code then s.finishDeclaration config d
  else
    (s.note .debug s!"line {line.number}: {Text.quoted keyword} declaration continues").goto
      (.declaration d)

/-- An instance opens; it is complete if its end is on the line. -/
def openGate (config : Config) (keyword name code : Text) (line : Line) (s : Scan) : Scan :=
  let g : OpenGate := ⟨keyword, name, line, [(code, line)]⟩
  if Dialect.endsStatement code then s.finishGate config g
  else
    (s.note .debug s!"line {line.number}: opening {Text.quoted keyword} block").goto (.gate g)

/-- A line of the body that continues no statement. -/
def bodyLine (config : Config) (code : Text) (line : Line) (s : Scan) : Scan :=
  if code = [] ∨ Dialect.isAttribute code then s
  else
    let word := Dialect.firstWord code
    if word = "endmodule".toList then
      (s.note .debug
        s!"line {line.number}: end of module {Text.quoted config.moduleName}").goto .closed
    else if word = "input".toList then s.openDeclaration config (.port .input) word code line
    else if word = "output".toList then s.openDeclaration config (.port .output) word code line
    else if word = "wire".toList then s.openDeclaration config .wire word code line
    else match Dialect.gateHeader? code with
      | some (keyword, name) => s.openGate config keyword name code line
      | none => s.skip line

def step (config : Config) (s : Scan) (line : Line) : Scan :=
  let code := Dialect.code line.text
  let ends := Dialect.firstWord code = "endmodule".toList
  match s.phase with
  | .seeking =>
    if Dialect.moduleName? code = some config.moduleName then
      (s.note .debug
        s!"line {line.number}: entering module {Text.quoted config.moduleName}").goto
          (headerPhase code)
    else s
  | .header => s.goto (headerPhase code)
  | .body => s.bodyLine config code line
  | .declaration d =>
    if ends then s.cutOff d.line "declaration is not terminated before `endmodule`"
    else if ';' ∈ code then s.finishDeclaration config (d.extend code line)
    else s.goto (.declaration (d.extend code line))
  | .gate g =>
    if ends then
      s.cutOff g.location
        s!"{gateWords g} is not terminated before `endmodule`"
    else if Dialect.endsStatement code then s.finishGate config (g.extend code line)
    else s.goto (.gate (g.extend code line))
  | .closed => s
  | .failed _ => s

def run (config : Config) (lines : List Line) : Scan := lines.foldl (step config) (start config)

/-- The failure that the end of the lines is, `last` the last of them; `none` for a scan that came
to the end of its module. -/
def failure? (config : Config) (last : Line) (s : Scan) : Option Failure :=
  match s.phase with
  | .closed => none
  | .failed f => some f
  | .gate g =>
    some ⟨g.location, .malformedStatement s!"{gateWords g} is never terminated with `);`"⟩
  | .declaration d =>
    some ⟨d.line, .malformedStatement "declaration is never terminated with `;`"⟩
  | .seeking =>
    some ⟨last, .unexpectedEnd s!"module {Text.quoted config.moduleName} was not found"⟩
  | .header | .body =>
    some ⟨last, .unexpectedEnd
      s!"module {Text.quoted config.moduleName} is missing `endmodule`"⟩

end NetFlat.Scan
