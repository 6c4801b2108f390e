import NetFlat.Proofs.Naming.Nets

/-!
# Accepted references

Which references resolve, and to what.  A reference in brackets has to be a bit of a port bus.  Any
other text is taken for a flat name unless it is empty or a number literal, whether it is spelled as
a name or not.

* `isLegalName`: plain and escaped identifiers;
* `Config.resolve_eq_ok_iff`: the references that resolve;
* `Config.Accepts`: the references that operands may be;
* `Config.isLegal_resolve_iff`: those that resolve to a legal name.
-/

namespace NetFlat

/-- A plain identifier, or an escaped one: a backslash and characters other than white space. -/
def isLegalName : Text → Bool
  | '\\' :: t => !t.isEmpty && t.all (!Text.isBlank ·)
  | t => isIdentifier t

variable {t u : Text} {a b : Signal}

theorem isLegalName_of_isIdentifier (h : isIdentifier t = true) : isLegalName t = true := by
  unfold isLegalName
  split
  · next u => simp [isIdentifier] at h
  · exact h

theorem isLegalName_append (h : isLegalName t = true) (hu : u.IsWord) :
    isLegalName (t ++ u) = true := by
  unfold isLegalName at h
  split at h
  · next s =>
    simp only [Bool.and_eq_true, Bool.not_eq_true', List.isEmpty_eq_false_iff,
      List.all_eq_true] at h
    simp only [List.cons_append, isLegalName, Bool.and_eq_true, Bool.not_eq_true',
      List.isEmpty_eq_false_iff, List.all_eq_true]
    refine ⟨List.append_ne_nil_of_left_ne_nil h.1 u, fun c hc => ?_⟩
    rcases List.mem_append.mp hc with hc | hc
    · exact h.2 c hc
    · exact isBlank_of_isWordChar (hu c hc)
  · exact isLegalName_of_isIdentifier (isIdentifier_append h hu)

def Signal.IsLegal (a : Signal) : Prop := isLegalName a.name = true

instance (a : Signal) : Decidable a.IsLegal := inferInstanceAs (Decidable (_ = true))

theorem Signal.IsLegal.auxiliary (h : a.IsLegal) : a.auxiliary.IsLegal :=
  isLegalName_append h (by decide)

theorem Literal.read?_trim (t : Text) : Literal.read? (Text.trim t) = Literal.read? t := by
  unfold Literal.read?
  rw [(Text.trimmed_trim t).trim_eq_self]

namespace Config

variable {config : Config}

theorem isLegal_of_mem_ports (h : a ∈ config.ports) : a.IsLegal :=
  isLegalName_of_isIdentifier (config.isIdentifier_of_mem_ports h)

/-! ### Bits of a bus -/

/-- The text is the name of a bus and, in brackets, the numeral of a bit; white space may stand
before the bracket and around the numeral. -/
def SpellsBit (config : Config) (t : Text) (a : Signal) : Prop :=
  ∃ (role : BusRole) (i : Nat) (base index : Text), t = base ++ '[' :: (index ++ [']']) ∧
    Text.trimEnd base = config.busName role ∧
    Text.numeral? Text.bound64 (Text.trim index) = some i ∧ i < config.width ∧
    a = ⟨scalarName (config.busName role) i⟩

theorem SpellsBit.isLegal (h : config.SpellsBit t a) : a.IsLegal := by
  obtain ⟨role, i, base, index, -, -, -, -, rfl⟩ := h
  exact isLegalName_of_isIdentifier (isIdentifier_scalarName (config.isIdentifier_busName role) i)

/-- A bit is spelled with a bracket, and it begins as the name of a bus. -/
theorem SpellsBit.head (h : config.SpellsBit t a) :
    '[' ∈ t ∧ ∃ c u, t = c :: u ∧ isWordChar c = true ∧ c.isDigit = false := by
  obtain ⟨role, i, base, index, rfl, hb, -, -, -⟩ := h
  obtain ⟨c, u, hu, hc⟩ := head_of_isIdentifier (config.isIdentifier_busName role)
  obtain ⟨v, -, hv⟩ := Text.exists_trimEnd_append base
  refine ⟨by simp, c, u ++ v ++ '[' :: (index ++ [']']), ?_, hc⟩
  rw [← hv, hb, hu]
  rfl

theorem bit_eq_ok_iff {raw base index : Text} : config.bit raw base index = .ok a ↔
    ∃ role i, base = config.busName role ∧ Text.numeral? Text.bound64 index = some i ∧
      i < config.width ∧ a = ⟨scalarName (config.busName role) i⟩ := by
  unfold bit
  cases hr : config.busRole? base with
  | none =>
    simp only [Option.isNone_none, if_true, reduceCtorEq, false_iff]
    rintro ⟨role, i, hb, -⟩
    simp [busRole?_eq_some_iff.mpr hb] at hr
  | some role =>
    obtain rfl := busRole?_eq_some_iff.mp hr
    simp only [Option.isNone_some, Bool.false_eq_true, if_false]
    constructor
    · intro h
      split at h
      · simp at h
      · next i hi =>
        split at h
        · next hlt => exact ⟨role, i, rfl, hi, hlt, (Except.ok.inj h).symm⟩
        · simp at h
    · rintro ⟨role', i, hb, hi, hlt, rfl⟩
      rw [hi, hb]
      exact if_pos hlt

theorem indexed_eq_ok_iff : config.indexed t = .ok a ↔ config.SpellsBit t a := by
  unfold indexed
  constructor
  · intro h
    split at h
    · simp at h
    · next base rest hcut =>
      split at h
      · simp at h
      · next index hlast =>
        obtain ⟨role, i, hb, hi, hlt, rfl⟩ := bit_eq_ok_iff.mp h
        obtain ⟨rfl, -⟩ := Text.cut?_eq_some_iff.mp hcut
        obtain rfl := Text.beforeLast?_eq_some_iff.mp hlast
        exact ⟨role, i, base, index, rfl, hb, hi, hlt, rfl⟩
  · rintro ⟨role, i, base, index, rfl, hb, hi, hlt, rfl⟩
    -- the first bracket is that of the index: before it are the name of a bus and white space
    have hbase : '[' ∉ base := by
      obtain ⟨s, hs, hbs⟩ := Text.exists_trimEnd_append base
      rw [← hbs, hb, List.mem_append, not_or]
      exact ⟨(config.isWord_busName role).not_mem (by decide), fun h => absurd (hs _ h) (by decide)⟩
    have hcut : Text.cut? '[' (base ++ '[' :: (index ++ [']'])) = some (base, index ++ [']']) :=
      Text.cut?_eq_some_iff.mpr ⟨rfl, hbase⟩
    have hlast : Text.beforeLast? ']' (index ++ [']']) = some index :=
      Text.beforeLast?_eq_some_iff.mpr rfl
    simp only [hcut, hlast]
    exact bit_eq_ok_iff.mpr ⟨role, i, hb, hi, hlt, rfl⟩

/-! ### References -/

/-- The text is taken for a flat name: it is not empty, it is no literal, and no bracket is in it
unless it begins with a backslash. -/
def TakenFlat (t : Text) : Prop :=
  t ≠ [] ∧ Literal.read? t = none ∧ (t.head? = some '\\' ∨ '[' ∉ t)

/-- **The references that resolve**: bits of a bus, and what is taken for a flat name. -/
theorem resolve_eq_ok_iff {raw : Text} : config.resolve raw = .ok a ↔
    config.SpellsBit (Text.trim raw) a ∨ TakenFlat (Text.trim raw) ∧ a = ⟨Text.trim raw⟩ := by
  simp only [resolve]
  generalize Text.trim raw = t
  constructor
  · intro h
    split at h
    · simp at h
    · next hne =>
      split at h
      · simp at h
      · next hl =>
        split at h
        · next hflat => exact .inr ⟨⟨hne, by simpa using hl, hflat⟩, (Except.ok.inj h).symm⟩
        · exact .inl (indexed_eq_ok_iff.mp h)
  · rintro (h | ⟨⟨hne, hl, hflat⟩, rfl⟩)
    · obtain ⟨hmem, c, u, rfl, hw, hd⟩ := h.head
      have hl := (Signal.isNamed_of_isWordChar (a := ⟨c :: u⟩) rfl hw hd).read?_eq_none
      have hc : c ≠ '\\' := by
        rintro rfl
        exact absurd hw (by decide)
      have hflat : ¬((c :: u).head? = some '\\' ∨ '[' ∉ c :: u) := by
        rintro (e | e)
        · exact hc (Option.some.inj e)
        · exact e hmem
      rw [if_neg (by simp), if_neg (by simp [hl]), if_neg hflat]
      exact indexed_eq_ok_iff.mpr h
    · rw [if_neg hne, if_neg (by simp [hl]), if_pos hflat]

theorem read?_eq_none_of_resolve {raw : Text} (h : config.resolve raw = .ok a) :
    Literal.read? raw = none := by
  rw [← Literal.read?_trim]
  rcases resolve_eq_ok_iff.mp h with h | ⟨⟨-, hl, -⟩, -⟩
  · obtain ⟨-, c, u, hu, hw, hd⟩ := h.head
    rw [hu]
    exact (Signal.isNamed_of_isWordChar (a := ⟨c :: u⟩) rfl hw hd).read?_eq_none
  · exact hl

theorem operand_of_resolve {raw : Text} (h : config.resolve raw = .ok a) :
    config.operand raw = .ok (.signal a) := by
  simp [operand, read?_eq_none_of_resolve h, h, Except.map]

/-- **The references that operands may be**: besides those that resolve, literals of one bit. -/
theorem exists_operand_eq_ok_iff {raw : Text} : (∃ e, config.operand raw = .ok e) ↔
    (∃ b, Literal.read? raw = some (.bit b)) ∨ ∃ a, config.resolve raw = .ok a := by
  constructor
  · rintro ⟨e, h⟩
    unfold operand at h
    split at h
    · next b hb => exact .inl ⟨b, hb⟩
    · simp at h
    · obtain ⟨a, ha, -⟩ := map_eq_ok_iff.mp h
      exact .inr ⟨a, ha⟩
  · rintro (⟨b, hb⟩ | ⟨a, ha⟩)
    · exact ⟨.const b, by simp [operand, hb]⟩
    · exact ⟨.signal a, operand_of_resolve ha⟩

/-- The reference may be an operand: it is a literal of one bit or a bit of a bus, or it is taken for
a flat name. -/
def Accepts (config : Config) (raw : Text) : Prop :=
  (∃ b, Literal.read? raw = some (.bit b)) ∨ (∃ a, config.SpellsBit (Text.trim raw) a) ∨
    TakenFlat (Text.trim raw)

theorem accepts_iff {raw : Text} : config.Accepts raw ↔
    (∃ b, Literal.read? raw = some (.bit b)) ∨ ∃ a, config.resolve raw = .ok a := by
  simp only [Accepts, resolve_eq_ok_iff, exists_or, exists_and_left, exists_eq, and_true]

theorem accepts_iff_isSome_operand {raw : Text} :
    config.Accepts raw ↔ (config.operand raw).toOption.isSome = true := by
  rw [accepts_iff, ← exists_operand_eq_ok_iff, Option.isSome_iff_exists]
  simp only [toOption_eq_some_iff]

instance (config : Config) (raw : Text) : Decidable (config.Accepts raw) :=
  decidable_of_iff _ accepts_iff_isSome_operand.symm

/-! ### Legal references -/

/-- The reference is a legal name or a bit of a bus. -/
def NamesNet (config : Config) (raw : Text) : Prop :=
  isLegalName (Text.trim raw) = true ∨ ∃ a, config.SpellsBit (Text.trim raw) a

/-- What a reference resolves to has a legal name exactly if the reference is spelled as one, or as
a bit of a bus. -/
theorem isLegal_resolve_iff {raw : Text} (h : config.resolve raw = .ok a) :
    a.IsLegal ↔ config.NamesNet raw := by
  constructor
  · intro ha
    rcases resolve_eq_ok_iff.mp h with hbit | ⟨-, rfl⟩
    · exact .inr ⟨a, hbit⟩
    · exact .inl ha
  · rintro (hl | ⟨b, hb⟩)
    · rcases resolve_eq_ok_iff.mp h with hbit | ⟨-, rfl⟩
      · exact hbit.isLegal
      · exact hl
    · obtain rfl : b = a := Except.ok.inj ((resolve_eq_ok_iff.mpr (.inl hb)).symm.trans h)
      exact hb.isLegal

end Config

end NetFlat
