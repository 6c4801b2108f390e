import NetFlat.Config.Basic
import NetFlat.Text.Basic

/-!
# Lines of the dialect

The netlist dialect is read line by line. This module tells what a line is from its code, which
is the line without its comment and without white space around it: its first word, whether it
heads a module or an instance, whether it is an attribute or ends a statement.
-/

namespace NetFlat.Dialect

def dropComment : Text → Text
  | [] => []
  | '/' :: '/' :: _ => []
  | c :: t => c :: dropComment t

def code (t : Text) : Text := Text.trim (dropComment t)

/-- The leading word, empty if the text does not start with one. -/
def firstWord (t : Text) : Text := t.takeWhile isWordChar

/-- The leading identifier: a word, or a backslash and what follows it up to white space. -/
def identifier (t : Text) : Text :=
  match t with
  | '\\' :: rest =>
    let name := rest.takeWhile (!Text.isBlank ·)
    if name = [] then [] else '\\' :: name
  | _ => firstWord t

def startsBlank (t : Text) : Bool := t.head?.any Text.isBlank

def isAttribute (t : Text) : Bool := "(*".toList.isPrefixOf t && "*)".toList.isSuffixOf t

/-- The code ends with a closing bracket and a semicolon, between which white space may stand. -/
def endsStatement (t : Text) : Bool :=
  match Text.beforeLast? ';' t with
  | some head => (Text.trimEnd head).getLast? == some ')'
  | none => false

/-- The name of the module that the code heads. -/
def moduleName? (t : Text) : Option Text :=
  match Text.after? "module".toList t with
  | none => none
  | some rest =>
    if startsBlank rest then
      let rest := Text.trimStart rest
      let name := firstWord rest
      let after := Text.trimStart (rest.drop name.length)
      if name ≠ [] ∧ after.head?.all (fun c => c == '(' || c == ';' || c == '#') then some name
      else none
    else none

/-- Words that head a line and never name a cell. -/
def reserved : List Text :=
  ["always", "assign", "endmodule", "function", "generate", "genvar", "initial", "inout", "input",
    "integer", "localparam", "module", "output", "parameter", "reg", "specify", "supply0",
    "supply1", "task", "tri", "wire"].map String.toList

/-- The character may start the keyword of a cell. -/
def startsKeyword (c : Char) : Bool := c.isAlpha || c == '_' || c == '$' || c == '\\'

/-- The keyword and the instance name that the code heads. -/
def gateHeader? (t : Text) : Option (Text × Text) :=
  let keyword := identifier t
  if keyword.head?.any startsKeyword ∧ keyword ∉ reserved then
    let rest := t.drop keyword.length
    if startsBlank rest then
      let rest := Text.trimStart rest
      let name := identifier rest
      let after := Text.trimStart (rest.drop name.length)
      if name ≠ [] ∧ after.head?.all (· == '(') then some (keyword, name) else none
    else none
  else none

end NetFlat.Dialect
