import NetFlat.Proofs.Naming.Names

/-!
# Nets and their flat names

The nets of a circuit are bits of the port buses, written with an index, and plain identifiers. In a
flat module a bit has its scalar name, and any other net keeps its own.

* `Config.IsNet`: the nets under a configuration;
* `Config.IsNet.resolve_eq`: a net resolves to its flat name;
* `Config.IsNet.flatName_injective`: distinct nets have distinct flat names.
-/

namespace NetFlat

def bitNet (bus : Text) (i : Nat) : Text := bus ++ '[' :: (Text.decimal i ++ [']'])

def flatName (net : Text) : Text :=
  match Text.cut? '[' net with
  | some (bus, rest) => bus ++ '_' :: rest.dropLast
  | none => net

def isNetChar (c : Char) : Bool := isWordChar c || c == '[' || c == ']'

theorem isBlank_of_isNetChar {c : Char} (h : isNetChar c = true) : Text.isBlank c = false := by
  simp only [isNetChar, Bool.or_eq_true, beq_iff_eq] at h
  rcases h with (h | rfl) | rfl
  · exact isBlank_of_isWordChar h
  · decide
  · decide

variable {bus n m : Text} {i : Nat}

theorem cut?_bitNet (hb : bus.IsWord) :
    Text.cut? '[' (bitNet bus i) = some (bus, Text.decimal i ++ [']']) :=
  Text.cut?_eq_some_iff.mpr ⟨rfl, hb.not_mem (by decide)⟩

theorem flatName_bitNet (hb : bus.IsWord) : flatName (bitNet bus i) = scalarName bus i := by
  simp only [flatName, cut?_bitNet hb, List.dropLast_concat, scalarName]

theorem flatName_of_isWord (h : n.IsWord) : flatName n = n := by
  rw [flatName, Text.cut?_eq_none_iff.mpr (h.not_mem (by decide))]

theorem isIdentifier_append {t : Text} (h : isIdentifier n = true) (ht : t.IsWord) :
    isIdentifier (n ++ t) = true := by
  cases n with
  | nil => simp [isIdentifier] at h
  | cons c n =>
    simp only [isIdentifier, Bool.and_eq_true, List.all_eq_true] at h
    simp only [List.cons_append, isIdentifier, h.1, Bool.true_and, List.all_eq_true]
    intro d hd
    rcases List.mem_append.mp hd with hd | hd
    · exact h.2 d hd
    · exact ht d hd

theorem isIdentifier_scalarName (h : isIdentifier bus = true) (i : Nat) :
    isIdentifier (scalarName bus i) = true := by
  refine isIdentifier_append h fun c hc => ?_
  rcases List.mem_cons.mp hc with rfl | hc
  · decide
  · exact Text.isWord_decimal i c hc

theorem isIdentifier_auxiliary (h : isIdentifier n = true) :
    isIdentifier (Signal.auxiliary ⟨n⟩).name = true :=
  isIdentifier_append h (by decide)

namespace Config

variable {c : Config} {role : BusRole}

theorem isIdentifier_busName (c : Config) (role : BusRole) :
    isIdentifier (c.busName role) = true := by
  cases role
  · exact c.valid.inputBus_plain
  · exact c.valid.outputBus_plain

theorem isWord_busName (c : Config) (role : BusRole) : (c.busName role).IsWord :=
  isWord_of_isIdentifier (c.isIdentifier_busName role)

theorem isIdentifier_of_mem_ports {a : Signal} (h : a ∈ c.ports) : isIdentifier a.name = true := by
  obtain ⟨role, i, -, rfl⟩ := mem_ports.mp h
  exact isIdentifier_scalarName (c.isIdentifier_busName role) i

theorem auxiliary_not_mem_ports (c : Config) (a : Signal) : a.auxiliary ∉ c.ports := by
  intro h
  obtain ⟨role, i, -, h⟩ := mem_ports.mp h
  have hname : a.name ++ "_neg".toList = scalarName (c.busName role) i := congrArg Signal.name h
  have hg : (a.name ++ "_neg".toList).getLast? = some 'g' := by simp
  have hd : (scalarName (c.busName role) i).getLast? = (Text.decimal i).getLast? := by
    have hne : Text.decimal i ≠ [] := Nat.toDigits_ne_nil
    rw [scalarName, List.getLast?_append_of_ne_nil _ (by simp), ← List.singleton_append,
      List.getLast?_append_of_ne_nil _ hne]
  have hdigit := List.mem_of_getLast? (hd ▸ hname ▸ hg)
  have := Nat.isDigit_of_mem_toDigits (by decide) (by decide) hdigit
  simp at this

/-- The nets of circuits: the bits of the port buses, and the identifiers that are no scalar names
of such bits. -/
def IsNet (c : Config) (n : Text) : Prop :=
  (∃ role, ∃ i < c.width, n = bitNet (c.busName role) i) ∨
    isIdentifier n = true ∧ (⟨n⟩ : Signal) ∉ c.ports

namespace IsNet

theorem isNetChar (h : c.IsNet n) : ∀ d ∈ n, isNetChar d = true := by
  have hword {t : Text} (ht : t.IsWord) : ∀ d ∈ t, NetFlat.isNetChar d = true := by
    intro d hd
    simp [NetFlat.isNetChar, ht d hd]
  rcases h with ⟨role, i, -, rfl⟩ | ⟨hid, -⟩
  · intro d hd
    rcases List.mem_append.mp hd with hd | hd
    · exact hword (c.isWord_busName role) d hd
    · rcases List.mem_cons.mp hd with rfl | hd
      · decide
      · rcases List.mem_append.mp hd with hd | hd
        · exact hword (Text.isWord_decimal i) d hd
        · obtain rfl := List.mem_singleton.mp hd
          decide
  · exact hword (isWord_of_isIdentifier hid)

theorem not_mem {d : Char} (h : c.IsNet n) (hd : NetFlat.isNetChar d = false) : d ∉ n := by
  intro hm
  simp [h.isNetChar d hm] at hd

theorem trimmed (h : c.IsNet n) : n.Trimmed :=
  ⟨fun d hd => isBlank_of_isNetChar (h.isNetChar d (List.mem_of_head? hd)),
    fun d hd => isBlank_of_isNetChar (h.isNetChar d (List.mem_of_getLast? hd))⟩

theorem isIdentifier_flatName (h : c.IsNet n) : isIdentifier (flatName n) = true := by
  rcases h with ⟨role, i, -, rfl⟩ | ⟨hid, -⟩
  · rw [flatName_bitNet (c.isWord_busName role)]
    exact isIdentifier_scalarName (c.isIdentifier_busName role) i
  · rwa [flatName_of_isWord (isWord_of_isIdentifier hid)]

theorem flatName_injective (hn : c.IsNet n) (hm : c.IsNet m) (h : flatName n = flatName m) :
    n = m := by
  -- a bit and an identifier: the identifier would be the name of a port
  have hmixed {role : BusRole} {i : Nat} {t : Text} (hi : i < c.width) (ht : isIdentifier t = true)
      (hp : (⟨t⟩ : Signal) ∉ c.ports) (he : flatName (bitNet (c.busName role) i) = flatName t) :
      False := by
    rw [flatName_bitNet (c.isWord_busName role), flatName_of_isWord (isWord_of_isIdentifier ht)] at he
    exact hp (mem_ports.mpr ⟨role, i, hi, by rw [he]⟩)
  rcases hn with ⟨role, i, hi, rfl⟩ | ⟨hn, hnp⟩ <;> rcases hm with ⟨role', j, hj, rfl⟩ | ⟨hm, hmp⟩
  · rw [flatName_bitNet (c.isWord_busName role), flatName_bitNet (c.isWord_busName role')] at h
    obtain ⟨hb, rfl⟩ := scalarName_injective h
    rw [hb]
  · exact (hmixed hi hm hmp h).elim
  · exact (hmixed hj hn hnp h.symm).elim
  · rwa [flatName_of_isWord (isWord_of_isIdentifier hn),
      flatName_of_isWord (isWord_of_isIdentifier hm)] at h

theorem read?_eq_none (h : c.IsNet n) : Literal.read? n = none := by
  have hhead : ∃ d t, n = d :: t ∧ isWordChar d = true ∧ d.isDigit = false := by
    rcases h with ⟨role, i, -, rfl⟩ | ⟨hid, -⟩
    · obtain ⟨d, u, hu, hd⟩ := head_of_isIdentifier (c.isIdentifier_busName role)
      exact ⟨d, u ++ '[' :: (Text.decimal i ++ [']']), by rw [bitNet, hu]; rfl, hd⟩
    · exact head_of_isIdentifier hid
  obtain ⟨d, t, rfl, hw, hd⟩ := hhead
  exact (Signal.isNamed_of_isWordChar (a := ⟨d :: t⟩) rfl hw hd).read?_eq_none

theorem resolve_eq (h : c.IsNet n) : c.resolve n = .ok ⟨flatName n⟩ := by
  have hne : n ≠ [] := by
    rintro rfl
    have := h.isIdentifier_flatName
    simp [flatName, Text.cut?, isIdentifier] at this
  have hlit : ¬(Literal.read? n).isSome = true := by simp [h.read?_eq_none]
  have hesc : n.head? ≠ some '\\' := fun e => h.not_mem (by decide) (List.mem_of_head? e)
  simp only [resolve, h.trimmed.trim_eq_self, if_neg hne, if_neg hlit]
  -- a bit of a bus has its index in brackets, an inner net has no bracket
  rcases h with ⟨role, i, hi, rfl⟩ | ⟨hid, -⟩
  · have hw := c.isWord_busName role
    have hmem : ¬(List.head? (bitNet (c.busName role) i) = some '\\' ∨
        '[' ∉ bitNet (c.busName role) i) := by
      rintro (e | e)
      · exact hesc e
      · exact e (by simp [bitNet])
    have hlast : Text.beforeLast? ']' (Text.decimal i ++ [']']) = some (Text.decimal i) := by
      simp [Text.beforeLast?]
    have hbound : i < Text.bound64 := by
      have := c.valid.width_le
      simp only [maxWidth] at this
      simp only [Text.bound64]
      omega
    have hrole : ¬(c.busRole? (c.busName role)).isNone = true := by
      simp [busRole?_eq_some_iff.mpr rfl]
    rw [if_neg hmem, flatName_bitNet hw]
    simp only [indexed, cut?_bitNet hw, hlast,
      Text.trimEnd_eq_self (Text.trimmed_of_isWord hw).last,
      (Text.trimmed_of_isWord (Text.isWord_decimal i)).trim_eq_self, bit, if_neg hrole,
      Text.numeral?_decimal hbound, if_pos hi]
  · have hw := isWord_of_isIdentifier hid
    rw [if_pos (.inr (hw.not_mem (by decide))), flatName_of_isWord hw]

theorem operand_eq (h : c.IsNet n) : c.operand n = .ok (.signal ⟨flatName n⟩) := by
  simp only [operand, h.read?_eq_none, h.resolve_eq]
  rfl

end IsNet

end Config

end NetFlat
