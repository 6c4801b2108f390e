import NetFlat.Proofs.Gate.Resolution
import NetFlat.Proofs.Naming.Ports
import NetFlat.Proofs.Scan.Effect
import NetFlat.Proofs.Text.Words

/-!
# Names and literals

No name in a flat module can be taken for a number literal: names come from the port buses, from
references that are no literals and from declarations, and none of these starts like a literal.

* `Signal.IsNamed`: what all names have in common;
* `isNamed_of_mem_ports`, `isNamed_of_resolve`, `Item.isNamed_of_mem_wires`: each source of
  names yields such names only;
* `Signal.IsNamed.read?_eq_none`: they are no literals.
-/

namespace NetFlat

/-! ### Names -/

namespace Signal

/-- The name starts with a character that is no white space and starts no literal. -/
def IsNamed (a : Signal) : Prop :=
  ∃ c t, a.name = c :: t ∧ Text.isBlank c = false ∧ c.isDigit = false ∧ c ≠ '\''

theorem IsNamed.read?_eq_none {a : Signal} (h : a.IsNamed) : Literal.read? a.name = none := by
  obtain ⟨c, t, hn, hb, hd, hq⟩ := h
  obtain ⟨u, hu⟩ := Text.exists_trim_cons hb t
  simp [Literal.read?, hn, hu, hd, hq]

theorem IsNamed.auxiliary {a : Signal} (h : a.IsNamed) : a.auxiliary.IsNamed := by
  obtain ⟨c, t, hn, hc⟩ := h
  exact ⟨c, t ++ "_neg".toList, by simp [Signal.auxiliary, hn], hc⟩

theorem isNamed_of_isWordChar {a : Signal} {c : Char} {t : Text} (hn : a.name = c :: t)
    (hw : isWordChar c = true) (hd : c.isDigit = false) : a.IsNamed := by
  refine ⟨c, t, hn, isBlank_of_isWordChar hw, hd, ?_⟩
  rintro rfl
  exact absurd hw (by decide)

end Signal

/-! ### Sources of names -/

theorem Declaration.isNamed_of_read? {t name : Text} {d : Declaration} (h : read? t = some d)
    (hn : name ∈ d.names) : Signal.IsNamed ⟨name⟩ := by
  simp only [read?, Option.bind_eq_bind, Option.bind_eq_some_iff] at h
  obtain ⟨⟨range, rest⟩, -, h⟩ := h
  split at h
  · next hl =>
    obtain rfl := Option.some.inj h
    have hc : isName name = true := List.all_eq_true.mp hl.2 name hn
    unfold isName at hc
    split at hc
    · simp at hc
    · next c u =>
      simp only [Bool.or_eq_true, beq_iff_eq, Bool.and_eq_true, List.all_cons,
        Bool.not_eq_true'] at hc
      rcases hc with rfl | ⟨⟨hw, -⟩, hd⟩
      · exact ⟨'\\', u, rfl, by decide, by decide, by decide⟩
      · exact Signal.isNamed_of_isWordChar rfl hw hd
  · simp at h

namespace Config

variable {config : Config} {a : Signal}

theorem isNamed_scalarName (config : Config) (role : BusRole) (i : Nat) :
    Signal.IsNamed ⟨scalarName (config.busName role) i⟩ := by
  have hid : isIdentifier (config.busName role) = true := by
    cases role
    · exact config.valid.inputBus_plain
    · exact config.valid.outputBus_plain
  obtain ⟨c, u, hu, hw, hd⟩ := head_of_isIdentifier hid
  exact Signal.isNamed_of_isWordChar (t := u ++ '_' :: Text.decimal i) (by simp [scalarName, hu])
    hw hd

theorem isNamed_of_mem_ports (h : a ∈ config.ports) : a.IsNamed := by
  obtain ⟨role, i, -, rfl⟩ := mem_ports.mp h
  exact config.isNamed_scalarName role i

theorem isNamed_of_bit {raw base index : Text} (h : config.bit raw base index = .ok a) :
    a.IsNamed := by
  unfold bit at h
  split at h
  · simp at h
  · next hb =>
    obtain ⟨role, hr⟩ := Option.ne_none_iff_exists'.mp (mt Option.isNone_iff_eq_none.mpr hb)
    obtain rfl := busRole?_eq_some_iff.mp hr
    split at h
    · simp at h
    · next i _ =>
      split at h
      · rw [← Except.ok.inj h]
        exact config.isNamed_scalarName role i
      · simp at h

theorem isNamed_of_resolve {raw : Text} (h : config.resolve raw = .ok a) : a.IsNamed := by
  simp only [resolve] at h
  split at h
  · simp at h
  · next hne =>
    split at h
    · simp at h
    · next hl =>
      split at h
      · obtain rfl := Except.ok.inj h
        obtain ⟨c, t, ht⟩ := List.exists_cons_of_ne_nil hne
        have hb := (Text.trimmed_trim raw).head c (by simp [ht])
        have hl' : Literal.read? (Text.trim raw) = none := by simpa using hl
        rw [ht] at hl'
        obtain ⟨u, hu⟩ := Text.exists_trim_cons hb t
        refine ⟨c, t, ht, hb, ?_⟩
        simpa [Literal.read?, hu] using hl'
      · unfold indexed at h
        split at h
        · simp at h
        · split at h
          · simp at h
          · exact isNamed_of_bit h

theorem isNamed_of_operand {raw : Text} {e : Expr} (h : config.operand raw = .ok e) :
    ∀ a ∈ e.reads, a.IsNamed := by
  intro a ha
  rcases operand_eq_ok h with ⟨b, rfl, hb⟩ | ⟨b, rfl⟩
  · obtain rfl : a = b := by simpa [Expr.reads] using ha
    exact isNamed_of_resolve hb
  · simp [Expr.reads] at ha

end Config

theorem Gate.isNamed_of_mem_signals {config : Config} {gate : Gate} {g : Placed} {a : Signal}
    (h : gate.resolve? config = some g) (ha : a ∈ g.signals) : a.IsNamed := by
  obtain ⟨hes, hout, -⟩ := resolve?_eq_some_iff.mp h
  rcases List.mem_append.mp ha with ha | ha
  · obtain ⟨e, he, ha⟩ := List.mem_flatMap.mp ha
    obtain ⟨pin, -, hp⟩ := exists_of_mem_mapM hes he
    obtain ⟨c, -, hc⟩ := Option.bind_eq_some_iff.mp hp
    exact Config.isNamed_of_operand (toOption_eq_some_iff.mp hc) a ha
  · obtain rfl : a = g.output := by simpa using ha
    obtain ⟨c, -, hc⟩ := Option.bind_eq_some_iff.mp hout
    exact Config.isNamed_of_resolve (toOption_eq_some_iff.mp hc)

namespace Item

variable {config : Config} {i : Item} {a : Signal}

theorem isNamed_of_mem_wires (h : a ∈ i.wires) : a.IsNamed := by
  cases i with
  | gate g | other line => simp [wires] at h
  | declaration d =>
    simp only [wires] at h
    split at h
    · next names _ hr =>
      obtain ⟨name, hn, rfl⟩ := List.mem_map.mp h
      exact Declaration.isNamed_of_read? hr hn
    · simp at h

theorem isNamed_of_mem_signals {g : Placed} (hg : g ∈ i.placed config) (ha : a ∈ g.signals) :
    a.IsNamed := by
  cases i with
  | declaration d | other line => simp [placed] at hg
  | gate o =>
    have hg' : o.placed? config = some g := by simpa [placed] using hg
    cases hk : Cell.find? o.keyword with
    | none => simp [OpenGate.placed?, hk] at hg'
    | some cell =>
      obtain ⟨-, gate, -, -, hp⟩ := (OpenGate.placed?_eq_some_iff hk).mp hg'
      exact Gate.isNamed_of_mem_signals hp ha

end Item

end NetFlat
