import NetFlat.Config.ProjectFile
import NetFlat.Flattening
import NetFlat.FlatModule.Reading

/-!
# Circuits

A circuit is a list of gates over nets; bits of the port buses are nets written with an index. It
is written as a netlist with its project file, and it is evaluated gate by gate. `file` is that
netlist as it is flattened.
-/

namespace NetFlat

/-- A gate of a circuit: the keyword of its cell, its input nets and its output net. -/
structure CircuitGate where
  cell : Text
  inputs : List Text
  output : Text
deriving DecidableEq, Repr

/-- A module of gates between two buses of one width. -/
structure Circuit where
  moduleName : Text
  width : Nat
  gates : List CircuitGate
deriving DecidableEq, Repr

namespace Circuit

/-- The nets driven by gates that are no bits of a bus, in ascending order. -/
def internalNets (c : Circuit) : List Signal :=
  Signal.ordered (((c.gates.map (·.output)).filter ('[' ∉ ·)).map Signal.mk)

/-- The lines that declare a bus. -/
def busLines (c : Circuit) (keyword bus : String) : List Text :=
  let range := " [".toList ++ Text.decimal (c.width - 1) ++ ":0] ".toList ++ bus.toList ++ [';']
  [' ' :: ' ' :: keyword.toList ++ range, "  wire".toList ++ range]

/-- The lines of the gate with the given number. -/
def gateLines (i : Nat) (g : CircuitGate) : List Text :=
  let place := Text.decimal (i + 1)
  let inputs := List.zipWith (fun pin net => "    .".toList ++ pin :: '(' :: net ++ "),".toList)
    ['A', 'B'] g.inputs
  ("  (* src = \"gen.v:".toList ++ place ++ ".5-".toList ++ place ++ ".20\" *)".toList) ::
    ("  ".toList ++ g.cell ++ " _".toList ++ Text.decimal i ++ "_ (".toList) ::
    (inputs ++ ["    .Z(".toList ++ g.output ++ [')'], "  );".toList])

/-- The lines of the netlist. -/
def netlistLines (c : Circuit) : List Text :=
  "/* Generated by Yosys */".toList :: [] ::
    ("module ".toList ++ c.moduleName ++ "(in_array, out_array);".toList) ::
    (c.internalNets.map (fun s => "  wire ".toList ++ s.name ++ [';']) ++
      c.busLines "input" "in_array" ++ c.busLines "output" "out_array" ++
      (c.gates.zipIdx.map fun p => gateLines p.2 p.1).flatten ++ ["endmodule".toList])

def netlist (c : Circuit) : Text := c.netlistLines.flatMap (· ++ ['\n'])

/-- The project file of the circuit. -/
def projectText (c : Circuit) : Text :=
  "\n[module]\nname = \"".toList ++ c.moduleName ++ "\"\n\n[bus]\nwidth = ".toList ++
    Text.decimal c.width ++ ['\n']

/-- The configuration that the project file of the circuit gives. -/
def config? (c : Circuit) : Option Config :=
  (ProjectFile.read? c.projectText).bind fun f => (Config.resolved (some f) {}).toOption

/-- The netlist as a source file, which is named after the configured module. -/
def file (c : Circuit) (config : Config) : SourceFile :=
  ⟨0, String.ofList (config.moduleName ++ ".v".toList), c.netlist⟩

/-! ## Evaluation -/

def inputNet (i : Nat) : Text := "in_array[".toList ++ Text.decimal i ++ [']']

/-- Values of the input bits, bit 0 first, as values of nets. -/
def netValues (bits : List Bool) : Values := bits.zipIdx.map fun (b, i) => (inputNet i, b)

/-- Values of the input bits, bit 0 first, as values of scalar names. -/
def scalarValues (bits : List Bool) : Values :=
  bits.zipIdx.map fun (b, i) => (scalarName "in_array".toList i, b)

/-- The functions of cells by their keywords. -/
def kinds : List (Text × CellKind) :=
  [("IV".toList, .inv), ("INV".toList, .inv), ("AND".toList, .and), ("OR".toList, .or),
    ("XOR".toList, .xor), ("XNOR".toList, .xnor), ("NOR".toList, .nor)]

/-- Evaluates one gate; an input net without value counts as false. -/
def evaluateGate? (v : Values) (g : CircuitGate) : Option Values := do
  let kind ← kinds.lookup g.cell
  let value ← kind.reference? (g.inputs.map fun n => (v.lookup n).getD false)
  return v.set g.output value

/-- The values of all nets after the gates were evaluated in order; `none` if a gate has an unknown
cell or too few inputs. -/
def evaluate? (c : Circuit) (v : Values) : Option Values := c.gates.foldlM evaluateGate? v

end Circuit

/-- All values of `n` bits, bit 0 first and changing fastest. -/
def bitPatterns : Nat → List (List Bool)
  | 0 => [[]]
  | n + 1 => (bitPatterns n).map (· ++ [false]) ++ (bitPatterns n).map (· ++ [true])

end NetFlat
