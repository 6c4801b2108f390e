import NetFlat.Proofs.FlatModule.Reading
import NetFlat.Proofs.Naming.Nets

/-!
# Emitted modules are read back

The flat module of a configuration has the bits of the buses for its ports.  Whatever wires and
assignments it is given, its text says what they are, if their names can stand in lists.

* `Signal.listable_of_isIdentifier`: identifiers can, and so can the names of the ports;
* `FlatModule.listable_ofConfig`: all names of the module can if those of its wires and assignments
  can;
* `FlatModule.read?_render_ofConfig`: what is read from the text.
-/

namespace NetFlat

theorem Signal.listable_of_isIdentifier {a : Signal} (h : isIdentifier a.name = true) :
    a.Listable := by
  have hw := isWord_of_isIdentifier h
  refine ⟨ne_nil_of_isIdentifier h, fun c hc => ⟨isBlank_of_isWordChar (hw c hc), ?_⟩⟩
  rintro rfl
  exact hw.not_mem (by decide) hc

/-! ### Ports -/

namespace Config

theorem busMembers_ne_nil (config : Config) (role : BusRole) : config.busMembers role ≠ [] := by
  have := config.valid.width_pos
  simp only [busMembers, ne_eq, List.map_eq_nil_iff, List.range_eq_nil]
  omega

theorem isLine_moduleName (config : Config) : config.moduleName.IsLine :=
  (isWord_of_isIdentifier config.valid.moduleName_plain).isLine

end Config

namespace FlatModule

variable {config : Config} {wires : List Signal} {assignments : List Assignment}

theorem listable_ofConfig (hw : ∀ a ∈ wires, a.Listable)
    (ha : ∀ s ∈ assignments, ∀ a, a = s.target ∨ a ∈ s.expr.reads → a.Listable) :
    (ofConfig config wires assignments).Listable where
  name := config.isLine_moduleName
  inputs_ne := config.busMembers_ne_nil .input
  outputs_ne := config.busMembers_ne_nil .output
  declared a h := by
    rcases List.mem_append.mp h with h | h
    · exact Signal.listable_of_isIdentifier (Config.isIdentifier_of_mem_ports (c := config) h)
    · exact hw a h
  assigned := ha

/-! ### Reading back -/

/-- **The reader inverts the writer.**  The names may be escaped ones, and the expressions arbitrary
trees.  Another name of the module changes nothing, as long as it does not break the line. -/
theorem read?_render_ofConfig (hw : ∀ a ∈ wires, a.Listable)
    (ha : ∀ s ∈ assignments, ∀ a, a = s.target ∨ a ∈ s.expr.reads → a.Listable) :
    Outline.read? (ofConfig config wires assignments).render = some
        { inputs := (config.busMembers .input).map Signal.name
          outputs := (config.busMembers .output).map Signal.name
          wires := wires.map Signal.name
          assigns := assignments.map fun s => (s.target.name, s.expr.display) } ∧
      ∀ name : Text, name.IsLine →
        Outline.read?
            (mk name (config.busMembers .input) (config.busMembers .output) wires assignments).render =
          Outline.read? (ofConfig config wires assignments).render := by
  have hl : (ofConfig config wires assignments).Listable := listable_ofConfig hw ha
  have hread := Outline.read?_render hl
  refine ⟨hread, fun name hname => ?_⟩
  have hl' : (mk name (config.busMembers .input) (config.busMembers .output) wires
      assignments).Listable := ⟨hname, hl.inputs_ne, hl.outputs_ne, hl.declared, hl.assigned⟩
  exact (Outline.read?_render hl').trans hread.symm

/-- A configuration with one bit on each side. -/
def narrowConfig : Config where
  toSettings := ⟨"top".toList, "a".toList, "b".toList, 1⟩
  valid := Settings.fault?_eq_none_iff.mp (by decide)

/-- A name that is written with a blank behind it, and has an equals sign in it. -/
def escapedName : Signal := ⟨"\\x[0]=".toList⟩

/-- Drives the escaped name by itself, negated, or the constant in conjunction with the input. -/
def escapedAssignment : Assignment :=
  ⟨escapedName, .binary .or (.not (.signal escapedName))
    (.binary .and (.const true) (.signal ⟨"a_0".toList⟩))⟩

theorem read?_render_escapedName :
    (ofConfig narrowConfig [escapedName] [escapedAssignment]).lines = [
        "module top(a_0, b_0);", "input a_0;", "output b_0;", "wire \\x[0]= ;",
        "assign \\x[0]=  = ~\\x[0]=  | (1'b1 & a_0);", "endmodule"].map String.toList ∧
      Outline.read? (ofConfig narrowConfig [escapedName] [escapedAssignment]).render = some
        { inputs := ["a_0".toList]
          outputs := ["b_0".toList]
          wires := ["\\x[0]=".toList]
          assigns := [("\\x[0]=".toList, "~\\x[0]=  | (1'b1 & a_0)".toList)] } := by
  have hx : escapedName.Listable := ⟨by decide, by simp [escapedName, Text.isBlank]⟩
  have ha : (⟨"a_0".toList⟩ : Signal).Listable := ⟨by decide, by simp [Text.isBlank]⟩
  refine ⟨by decide, ?_⟩
  have hwires : ∀ a ∈ [escapedName], a.Listable := List.forall_mem_singleton.mpr hx
  refine (read?_render_ofConfig hwires ?_).1
  · intro s hs a h
    obtain rfl := List.mem_singleton.mp hs
    have hmem : a = escapedName ∨ a ∈ [escapedName, ⟨"a_0".toList⟩] := h
    rcases hmem with rfl | hmem
    · exact hx
    · rcases List.mem_pair.mp hmem with rfl | rfl
      · exact hx
      · exact ha

end FlatModule

end NetFlat
