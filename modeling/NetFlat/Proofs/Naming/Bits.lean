import NetFlat.Proofs.Flattening
import NetFlat.Proofs.Naming.Acceptance

/-!
# Bits of the port buses

A reference to a bit of a port bus is the name of the bus with the numeral of the bit in brackets.
The bit has a scalar name of its own, which is taken for the bit wherever it is read.

* `SpellsIndex`, `SpellsIndex.unique`: references in brackets, which spell one bit only;
* `Config.spellsBit_iff`: the bit that such a reference spells;
* `bit_references`: which references in brackets resolve, and to what;
* `sound_ports`: the names of all bits.
-/

namespace NetFlat

open Text (Blanks)

variable {bus bus' d d' t raw : Text} {a b : Signal}

/-! ### Digits in brackets -/

/-- The text is the name of a bus and a row of digits in brackets; white space may stand in front of
the bracket and around the digits. -/
def SpellsIndex (bus d t : Text) : Prop :=
  Text.isDigits d = true ∧ ∃ s u v : Text, s.Blanks ∧ u.Blanks ∧ v.Blanks ∧
    t = bus ++ (s ++ '[' :: (u ++ (d ++ (v ++ [']']))))

/-- The text has a bracket, and no backslash begins it. -/
structure InBrackets (t : Text) : Prop where
  plain : t.head? ≠ some '\\'
  bracket : '[' ∈ t

instance (t : Text) : Decidable (InBrackets t) :=
  decidable_of_iff (t.head? ≠ some '\\' ∧ '[' ∈ t)
    ⟨fun ⟨h₁, h₂⟩ => ⟨h₁, h₂⟩, fun h => ⟨h.plain, h.bracket⟩⟩

theorem trimEnd_bus (hb : bus.IsWord) {s : Text} (hs : s.Blanks) : Text.trimEnd (bus ++ s) = bus := by
  rw [Text.trimEnd_append hs, Text.trimEnd_eq_self (Text.trimmed_of_isWord hb).last]

theorem SpellsIndex.exists_cut? (h : SpellsIndex bus d t) (hb : bus.IsWord) :
    ∃ base index, Text.cut? '[' t = some (base, index ++ [']']) ∧ Text.trimEnd base = bus ∧
      Text.trim index = d := by
  obtain ⟨hd, s, u, v, hs, hu, hv, rfl⟩ := h
  have hbase : '[' ∉ bus ++ s := by
    refine List.not_mem_append (hb.not_mem (by decide)) ?_
    intro hm
    exact absurd (hs _ hm) (by decide)
  refine ⟨bus ++ s, u ++ d ++ v, ?_, trimEnd_bus hb hs, Text.trim_digits hd hu hv⟩
  exact Text.cut?_eq_some_iff.mpr ⟨by simp, hbase⟩

/-- **One spelling.** A text spells one index of one bus only. -/
theorem SpellsIndex.unique (h : SpellsIndex bus d t) (h' : SpellsIndex bus' d' t)
    (hb : bus.IsWord) (hb' : bus'.IsWord) : bus = bus' ∧ d = d' := by
  obtain ⟨base, index, hcut, hbase, hindex⟩ := h.exists_cut? hb
  obtain ⟨base', index', hcut', hbase', hindex'⟩ := h'.exists_cut? hb'
  rw [hcut] at hcut'
  obtain ⟨rfl, hrest⟩ := Prod.mk.inj (Option.some.inj hcut')
  obtain rfl := List.append_cancel_right hrest
  exact ⟨hbase.symm.trans hbase', hindex.symm.trans hindex'⟩

namespace Config

variable {config : Config} {role : BusRole} {i : Nat}

theorem getElem?_busMembers : (config.busMembers role)[i]? = some a ↔
    i < config.width ∧ a = ⟨scalarName (config.busName role) i⟩ := by
  simp only [busMembers, List.getElem?_map, Option.map_eq_some_iff, List.getElem?_eq_some_iff,
    List.length_range, List.getElem_range]
  constructor
  · rintro ⟨j, ⟨hi, rfl⟩, rfl⟩
    exact ⟨hi, rfl⟩
  · rintro ⟨hi, rfl⟩
    exact ⟨i, ⟨hi, rfl⟩, rfl⟩

/-- **The bit that is spelled** is the one that the digits count. -/
theorem spellsBit_iff : config.SpellsBit t a ↔ ∃ role d, SpellsIndex (config.busName role) d t ∧
    d.digitsValue < config.width ∧ (config.busMembers role)[d.digitsValue]? = some a := by
  constructor
  · rintro ⟨role, i, base, index, rfl, hbase, hindex, hi, rfl⟩
    obtain ⟨hd, rfl, -⟩ := Text.numeral?_eq_some_iff.mp hindex
    obtain ⟨s, hs, hbs⟩ := Text.exists_trimEnd_append base
    obtain ⟨u, v, hu, hv, huv⟩ := Text.exists_trim_append index
    have ht : base ++ '[' :: (index ++ [']']) = config.busName role ++
        (s ++ '[' :: (u ++ (Text.trim index ++ (v ++ [']'])))) := by
      conv_lhs => rw [← hbs, hbase, huv]
      simp
    exact ⟨role, Text.trim index, ⟨hd, s, u, v, hs, hu, hv, ht⟩, hi, getElem?_busMembers.mpr ⟨hi, rfl⟩⟩
  · rintro ⟨role, d, ⟨hd, s, u, v, hs, hu, hv, rfl⟩, hi, ha⟩
    obtain ⟨-, rfl⟩ := getElem?_busMembers.mp ha
    have hbound : d.digitsValue < Text.bound64 := by
      have hwidth := config.valid.width_le
      simp only [maxWidth] at hwidth
      simp only [Text.bound64]
      omega
    refine ⟨role, d.digitsValue, config.busName role ++ s, u ++ d ++ v, by simp,
      trimEnd_bus (config.isWord_busName role) hs, ?_, hi, rfl⟩
    rw [Text.trim_digits hd hu hv]
    exact Text.numeral?_eq_some_iff.mpr ⟨hd, rfl, hbound⟩

theorem resolve_eq_ok_iff_of_inBrackets (h : InBrackets (Text.trim raw)) :
    config.resolve raw = .ok a ↔ config.SpellsBit (Text.trim raw) a := by
  rw [resolve_eq_ok_iff]
  constructor
  · rintro (hbit | ⟨⟨-, -, hflat⟩, -⟩)
    · exact hbit
    · rcases hflat with hhead | hmem
      · exact absurd hhead h.plain
      · exact absurd h.bracket hmem
  · exact .inl

theorem SpellsBit.mem_ports (h : config.SpellsBit t a) : a ∈ config.ports := by
  obtain ⟨role, i, -, -, -, -, -, hi, rfl⟩ := h
  exact Config.mem_ports.mpr ⟨role, i, hi, rfl⟩

theorem SpellsBit.eq_of_spellsIndex (h : config.SpellsBit t a)
    (ht : SpellsIndex (config.busName role) d t) :
    a = ⟨scalarName (config.busName role) (d.digitsValue)⟩ := by
  obtain ⟨role', d', ht', -, ha⟩ := spellsBit_iff.mp h
  obtain ⟨hbus, rfl⟩ := ht'.unique ht (config.isWord_busName role') (config.isWord_busName role)
  obtain ⟨-, rfl⟩ := getElem?_busMembers.mp ha
  rw [hbus]

theorem resolve_identifier (config : Config) (h : isIdentifier t = true) :
    config.resolve t = .ok ⟨t⟩ := by
  have hw := isWord_of_isIdentifier h
  have htrim : Text.trim t = t := (Text.trimmed_of_isWord hw).trim_eq_self
  obtain ⟨c, u, hcu, hc, hd⟩ := head_of_isIdentifier h
  have hnamed : Signal.IsNamed ⟨t⟩ := Signal.isNamed_of_isWordChar hcu hc hd
  refine resolve_eq_ok_iff.mpr (.inr ?_)
  rw [htrim]
  exact ⟨⟨ne_nil_of_isIdentifier h, hnamed.read?_eq_none, .inr (hw.not_mem (by decide))⟩, rfl⟩

/-- **Names are kept.** What a reference resolves to is read as itself. -/
theorem resolve_name (h : config.resolve raw = .ok a) : config.resolve a.name = .ok a := by
  rcases resolve_eq_ok_iff.mp h with hbit | ⟨hflat, rfl⟩
  · exact config.resolve_identifier (config.isIdentifier_of_mem_ports hbit.mem_ports)
  · refine resolve_eq_ok_iff.mpr (.inr ?_)
    show TakenFlat (Text.trim (Text.trim raw)) ∧ _
    rw [(Text.trimmed_trim raw).trim_eq_self]
    exact ⟨hflat, rfl⟩

end Config

/-- **References to bits.** A reference in brackets resolves exactly if it is the name of a bus with
digits in brackets that stand for a number below the width, and then to the bit with that number.
So it resolves to ports only, and two of them to the same one exactly if bus and number are the same.
Whatever a reference resolves to is a name that resolves to itself. -/
theorem bit_references (config : Config) :
    (∀ raw a, InBrackets (Text.trim raw) → (config.resolve raw = .ok a ↔
      ∃ role d, SpellsIndex (config.busName role) d (Text.trim raw) ∧
        d.digitsValue < config.width ∧ (config.busMembers role)[d.digitsValue]? = some a)) ∧
    (∀ raw a, InBrackets (Text.trim raw) → config.resolve raw = .ok a → a ∈ config.ports) ∧
    (∀ raw raw' a a' role role' d d', InBrackets (Text.trim raw) → InBrackets (Text.trim raw') →
      config.resolve raw = .ok a → config.resolve raw' = .ok a' →
      SpellsIndex (config.busName role) d (Text.trim raw) →
      SpellsIndex (config.busName role') d' (Text.trim raw') →
      (a = a' ↔ config.busName role = config.busName role' ∧ d.digitsValue = d'.digitsValue)) ∧
    ∀ raw a, config.resolve raw = .ok a → config.resolve a.name = .ok a := by
  refine ⟨?_, ?_, ?_, fun _ _ => Config.resolve_name⟩
  · intro raw a hin
    rw [Config.resolve_eq_ok_iff_of_inBrackets hin, Config.spellsBit_iff]
  · intro raw a hin h
    exact ((Config.resolve_eq_ok_iff_of_inBrackets hin).mp h).mem_ports
  · intro raw raw' a a' role role' d d' hin hin' h h' hspell hspell'
    rw [((Config.resolve_eq_ok_iff_of_inBrackets hin).mp h).eq_of_spellsIndex hspell,
      ((Config.resolve_eq_ok_iff_of_inBrackets hin').mp h').eq_of_spellsIndex hspell']
    constructor
    · intro e
      exact scalarName_injective (Signal.mk.inj e)
    · rintro ⟨hbus, hvalue⟩
      rw [hbus, hvalue]

/-- A reference with white space and with a zero in front of the numeral. -/
def spacedReference : Text := " in_array [ 01\t] ".toList

theorem bit_references_spacedReference :
    InBrackets (Text.trim spacedReference) ∧
      sampleConfig.resolve spacedReference = .ok ⟨"in_array_1".toList⟩ ∧
      (⟨"in_array_1".toList⟩ : Signal) ∈ sampleConfig.ports ∧
      sampleConfig.resolve "in_array_1".toList = .ok ⟨"in_array_1".toList⟩ ∧
      ∃ a, sampleConfig.resolve "out_array[1]".toList = .ok a ∧ ⟨"in_array_1".toList⟩ ≠ a := by
  obtain ⟨hiff, hports, hsame, hname⟩ := bit_references sampleConfig
  have hin : InBrackets (Text.trim spacedReference) := by decide +kernel
  have hspell : SpellsIndex (sampleConfig.busName .input) "01".toList
      (Text.trim spacedReference) :=
    ⟨by decide, [' '], [' '], ['\t'], by decide, by decide, by decide, by decide +kernel⟩
  have hresolve : sampleConfig.resolve spacedReference = .ok ⟨"in_array_1".toList⟩ :=
    (hiff _ _ hin).mpr ⟨.input, _, hspell, by decide +kernel, by decide +kernel⟩
  have hspell' : SpellsIndex (sampleConfig.busName .output) "1".toList
      (Text.trim "out_array[1]".toList) :=
    ⟨by decide, [], [], [], by decide, by decide, by decide, by decide +kernel⟩
  have hresolve' : sampleConfig.resolve "out_array[1]".toList = .ok ⟨"out_array_1".toList⟩ := by
    decide +kernel
  refine ⟨hin, hresolve, hports _ _ hin hresolve, hname _ _ hresolve, _, hresolve', ?_⟩
  intro e
  have hbus := (hsame _ _ _ _ .input .output _ _ hin (by decide +kernel) hresolve hresolve' hspell
    hspell').mp e
  exact absurd hbus.1 (by decide)

/-! ### All bits -/

/-- **The port list.** Settings that are accepted give two ports for each index, all with different
names, which are identifiers, no literals, and resolve to themselves; no auxiliary wire has the name
of one, so none clashes with a port.  A scalar name splits into its bus and its index. -/
theorem sound_ports (s : Settings) (config : Config) (h : Config.ofSettings s = .ok config) :
    config.portSignals.length = 2 * s.width ∧
      (config.portSignals.map fun p => p.1.name).Nodup ∧
      (∀ p ∈ config.portSignals, isIdentifier p.1.name = true ∧ Literal.read? p.1.name = none ∧
        config.resolve p.1.name = .ok p.1 ∧ ∀ a : Signal, p.1 ≠ a.auxiliary) ∧
      (∀ scope : Scope, scope.ports = config.portSignals → ∀ a : Signal,
        scope.portClass? a.auxiliary = none) ∧
      ∀ base i, base ≠ [] → i < Text.bound32 → splitScalar? (scalarName base i) = some (base, i) := by
  obtain rfl := Config.ofSettings_eq_ok_iff.mp h
  have hfresh : ∀ p ∈ config.portSignals, ∀ a : Signal, p.1 ≠ a.auxiliary := by
    intro p hp a e
    refine config.auxiliary_not_mem_ports a ?_
    rw [← e, ← config.map_fst_portSignals]
    exact List.mem_map_of_mem hp
  refine ⟨?_, ?_, ?_, ?_, fun base i => splitScalar?_scalarName⟩
  · simp [Config.portSignals, Config.busMembers]
    omega
  · have hnames : config.portSignals.map (fun p => p.1.name) = config.ports.map Signal.name := by
      rw [← config.map_fst_portSignals, List.map_map]
      rfl
    rw [hnames]
    refine config.nodup_ports.map ?_
    intro a b hab
    exact congrArg Signal.mk hab
  · intro p hp
    have hports : p.1 ∈ config.ports := by
      rw [← config.map_fst_portSignals]
      exact List.mem_map_of_mem hp
    have hid := config.isIdentifier_of_mem_ports hports
    exact ⟨hid, (Config.isNamed_of_mem_ports hports).read?_eq_none, config.resolve_identifier hid,
      hfresh p hp⟩
  · intro scope hscope a
    refine Scope.portClass?_eq_none_iff.mpr fun p hp => ?_
    rw [hscope] at hp
    exact hfresh p hp a

/-- Buses one of which has the name of a bit of the other. -/
def nestedSettings : Settings := ⟨"top".toList, "a".toList, "a_1".toList, 12⟩

theorem sound_ports_nestedSettings : ∃ config, Config.ofSettings nestedSettings = .ok config ∧
    (⟨"a_10".toList⟩, .inputPort) ∈ config.portSignals ∧
    (⟨"a_1_0".toList⟩, .outputPort) ∈ config.portSignals ∧
    config.portSignals.length = 24 ∧ (config.portSignals.map fun p => p.1.name).Nodup := by
  let config : Config := ⟨nestedSettings, Settings.fault?_eq_none_iff.mp (by decide)⟩
  have hconfig : Config.ofSettings nestedSettings = .ok config :=
    Config.ofSettings_eq_ok_iff.mpr rfl
  obtain ⟨hlength, hnodup, -⟩ := sound_ports nestedSettings config hconfig
  exact ⟨config, hconfig, by decide +kernel, by decide +kernel, hlength, hnodup⟩

end NetFlat
