import NetFlat.Proofs.Flattening
import NetFlat.Proofs.Naming.Acceptance
import NetFlat.Proofs.Naming.Spellings

/-!
# Number literals on pins

A number literal that denotes a bit is a constant on an input pin.  Any other text that begins as a
literal is refused, and so are all of them on an output pin.

* `Config.operand_eq_const_iff`, `Config.resolve_eq_constant`: literals as references;
* `literal_operands`: literals as operands, and nowhere else.
-/

namespace NetFlat

/-! ### Literals as references -/

namespace Config

variable {config : Config} {raw : Text} {a : Signal} {v : Bool}

theorem operand_eq_const_iff :
    config.operand raw = .ok (.const v) ↔ Literal.read? raw = some (.bit v) := by
  unfold operand
  split
  · next b hb => simp [hb]
  · next hb => simp [hb]
  · next hb =>
    rw [hb]
    simp only [reduceCtorEq, iff_false]
    intro h
    obtain ⟨a, -, ha⟩ := map_eq_ok_iff.mp h
    simp at ha

theorem resolve_eq_constant (h : Literal.Begins (Text.trim raw)) :
    config.resolve raw = .error (.constant (Text.trim raw)) := by
  have hne : Text.trim raw ≠ [] := by
    obtain ⟨c, u, hu, -⟩ := h
    rw [hu]
    exact List.cons_ne_nil c u
  have hread : (Literal.read? (Text.trim raw)).isSome = true := by
    rw [Literal.read?_trim, Option.isSome_iff_ne_none, ne_eq, Literal.read?_eq_none_iff]
    exact not_not.mpr h
  simp only [resolve]
  rw [if_neg hne, if_pos hread]

theorem not_begins_of_resolve (h : config.resolve raw = .ok a) : ¬Literal.Begins a.name := by
  rcases resolve_eq_ok_iff.mp h with hbit | ⟨⟨-, hread, -⟩, rfl⟩
  · obtain ⟨role, i, -, -, -, -, -, -, rfl⟩ := hbit
    obtain ⟨c, u, hu, hw, hd⟩ :=
      head_of_isIdentifier (isIdentifier_scalarName (config.isIdentifier_busName role) i)
    dsimp only
    rw [hu, Literal.begins_cons_iff, hd]
    rintro (hc | rfl)
    · simp at hc
    · exact absurd hw (by decide)
  · rw [Literal.read?_trim] at hread
    exact Literal.read?_eq_none_iff.mp hread

end Config

/-- **Literals on pins.** A reference stands for a constant on an input pin exactly if it is a
number literal whose body, read in the radix of the literal, denotes that bit.  Any other text that
begins as a literal is refused there, and on an output pin all of them are: nothing that begins so
becomes the name of a signal. -/
theorem literal_operands (config : Config) (raw : Text) :
    (∀ v, config.operand raw = .ok (.const v) ↔ ∃ radix body,
      Literal.Spells (Text.trim raw) radix body ∧ Literal.Denotes radix body v.toNat) ∧
    (Literal.Begins (Text.trim raw) →
      (∀ v : Bool, ¬∃ radix body, Literal.Spells (Text.trim raw) radix body ∧
        Literal.Denotes radix body v.toNat) →
      config.operand raw = .error (.unsupportedConstant (Text.trim raw))) ∧
    (Literal.Begins (Text.trim raw) →
      config.resolve raw = .error (.constant (Text.trim raw))) ∧
    ∀ a, config.operand raw = .ok (.signal a) ∨ config.resolve raw = .ok a →
      ¬Literal.Begins a.name := by
  refine ⟨fun v => ?_, fun hb hv => ?_, Config.resolve_eq_constant, fun a ha => ?_⟩
  · rw [Config.operand_eq_const_iff, Literal.read?_eq_bit_iff]
    exact Iff.rfl
  · rw [Config.operand, Literal.read?_eq_unsupported hb hv]
  · rcases ha with ha | ha
    · rcases Config.operand_eq_ok ha with ⟨b, hb, hres⟩ | ⟨v, hv⟩
      · obtain rfl := Expr.signal.inj hb
        exact Config.not_begins_of_resolve hres
      · simp at hv
    · exact Config.not_begins_of_resolve ha

/-- A hexadecimal one with a size, a sign, a zero and an underscore. -/
def spacedLiteral : Text := " 16 ' Sh 0_1\t".toList

/-- It is a one on an input pin, and nothing on an output pin; a two is nothing on either. -/
theorem literal_operands_spacedLiteral :
    sampleConfig.operand spacedLiteral = .ok (.const true) ∧
      sampleConfig.resolve spacedLiteral = .error (.constant (Text.trim spacedLiteral)) ∧
      Literal.Begins (Text.trim "2'b10".toList) ∧
      sampleConfig.operand "2'b10".toList =
        .error (.unsupportedConstant (Text.trim "2'b10".toList)) := by
  obtain ⟨hconst, -, hresolve, -⟩ := literal_operands sampleConfig spacedLiteral
  obtain ⟨hother, hrefused, -, -⟩ := literal_operands sampleConfig "2'b10".toList
  have hspells : Literal.Spells (Text.trim spacedLiteral) 16 ['0', '_', '1'] := by
    have htrim : Text.trim spacedLiteral = [] ++ ['1', '6'] ++ [' '] ++
        '\'' :: ([' '] ++ ['S'] ++ 'h' :: ([' '] ++ ['0', '_', '1'] ++ [])) := by decide +kernel
    rw [htrim]
    exact .based (List.all_eq_true.mp (by decide)) (by decide) (by decide) (by decide)
      (.inr (.inr rfl)) rfl (by decide) (by decide) (by decide)
  have htwo : Literal.Begins (Text.trim "2'b10".toList) := by decide +kernel
  refine ⟨(hconst true).mpr ⟨16, _, hspells, by decide, by simp [Literal.digitsOf], by decide⟩,
    hresolve (by decide +kernel), htwo, hrefused htwo fun v hv => ?_⟩
  exact absurd ((hother v).mpr hv) (by cases v <;> decide +kernel)

end NetFlat
