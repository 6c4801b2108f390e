import NetFlat.Config.Basic
import NetFlat.Text.Numeral
import NetFlat.Toml.Document

/-!
# Project files

A project file is a TOML document with the tables `module` and `bus`. A table may also be written
as an array of its values in their order. Command-line overrides take precedence over the file,
and the file over the standard names and width; only the module name has no standard.
-/

namespace NetFlat

/-- The settings that a project file holds. -/
structure ProjectFile where
  moduleName : Option Text := none
  inputBus : Text := (Settings.standard []).inputBus
  outputBus : Text := (Settings.standard []).outputBus
  width : Nat := (Settings.standard []).width
deriving DecidableEq, Repr

namespace ProjectFile

open Toml (Value Entries)

def text? : Value → Option Text
  | .string t => some t
  | _ => none

def number? : Value → Option Nat
  | .integer n => if 0 ≤ n && n < Text.bound32 then some n.toNat else none
  | _ => none

/-- Takes the value of a key of the table `module`. -/
def setModule? (f : ProjectFile) (key : Text) (v : Value) : Option ProjectFile :=
  if key = "name".toList then (text? v).map fun t => { f with moduleName := some t } else none

/-- Takes the value of a key of the table `bus`. -/
def setBus? (f : ProjectFile) (key : Text) (v : Value) : Option ProjectFile :=
  if key = "input".toList then (text? v).map fun t => { f with inputBus := t }
  else if key = "output".toList then (text? v).map fun t => { f with outputBus := t }
  else if key = "width".toList then (number? v).map fun n => { f with width := n }
  else none

/-- The values of a table under the names of its keys: its entries, or the items of an array, the
first of them for the first of `keys`; items beyond the keys do not count. -/
def fields? (keys : List String) : Value → Option Entries
  | .table _ es => some es
  | .array _ items => some ((keys.map String.toList).zip items)
  | _ => none

/-- Takes the fields of a section one by one. -/
def setAll? (set? : ProjectFile → Text → Value → Option ProjectFile) (f : ProjectFile)
    (es : Entries) : Option ProjectFile :=
  es.foldlM (fun f p => set? f p.1 p.2) f

/-- Takes a section. An array for `module` must hold the name. -/
def setSection? (f : ProjectFile) (key : Text) (v : Value) : Option ProjectFile :=
  if key = "module".toList then
    match v with
    | .array _ [] => none
    | v => (fields? ["name"] v).bind (setAll? setModule? f)
  else if key = "bus".toList then
    (fields? ["input", "output", "width"] v).bind (setAll? setBus? f)
  else none

def ofEntries? (es : Entries) : Option ProjectFile := setAll? setSection? {} es

def read? (t : Text) : Option ProjectFile := (Toml.read? t).bind ofEntries?

end ProjectFile

/-- Settings given on the command line. -/
structure Overrides where
  moduleName : Option Text := none
  inputBus : Option Text := none
  outputBus : Option Text := none
  width : Option Nat := none
deriving DecidableEq, Repr

/-- Why no configuration can be made. -/
inductive ConfigError where
  | missingModule
  | invalid (fault : SettingsFault)
deriving DecidableEq

def ConfigError.message : ConfigError → String
  | .missingModule => "missing required field: module.name"
  | .invalid fault => s!"validation error: {fault.message}"

/-- The configuration made of a project file, if there is one, and overrides. -/
def Config.resolved (file : Option ProjectFile) (o : Overrides) : Except ConfigError Config :=
  let f := file.getD {}
  match o.moduleName.or f.moduleName with
  | none => .error .missingModule
  | some name =>
    let settings : Settings :=
      ⟨name, o.inputBus.getD f.inputBus, o.outputBus.getD f.outputBus, o.width.getD f.width⟩
    match Config.ofSettings settings with
    | .ok c => .ok c
    | .error fault => .error (.invalid fault)

end NetFlat
