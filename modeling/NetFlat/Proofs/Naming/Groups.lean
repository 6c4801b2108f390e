import Mathlib.Data.List.Induction
import Mathlib.Tactic.Tauto
import NetFlat.Naming.Group
import NetFlat.Proofs.Flattening
import NetFlat.Proofs.Naming.Ports
import NetFlat.Proofs.Text.Words

/-!
# Groups of scalar names

Grouping takes the signals of a list one by one: a signal whose name splits into a bus and an index
goes into the group of its bus, unless a signal with this bus and this index came before it.

* `BusGroup.Grouped`: what the groups of a list are;
* `BusGroup.Grouped.add`, `BusGroup.grouped_ofSignals`: one signal, and a list of them;
* `Grouped.members_eq`: the group of a port bus whose bits are all there;
* `grouping`: the groups of any list, and those of a list of all ports.
-/

namespace NetFlat

namespace BusGroup

variable {l : List Signal} {gs : List BusGroup} {g : BusGroup} {ms : List (Nat × Signal)}
  {base : Text} {i j : Nat} {a b : Signal}

/-- The bus in the name of a signal, if it is a scalar name. -/
def bus? (a : Signal) : Option Text := (splitScalar? a.name).map Prod.fst

/-- The first signal of the list whose name splits into the bus and the index. -/
def firstBit? (l : List Signal) (base : Text) (index : Nat) : Option Signal :=
  l.find? fun a => splitScalar? a.name = some (base, index)

/-- The groups of a list: one for each bus in the order of first appearance, in it the first signal
of each index and nothing else, by ascending index. -/
structure Grouped (l : List Signal) (gs : List BusGroup) : Prop where
  bases : gs.map BusGroup.base = (l.filterMap bus?).eraseDups
  ascending : ∀ g ∈ gs, g.members.Pairwise fun m n => m.1 < n.1
  mem_members_iff : ∀ g ∈ gs, ∀ i a, (i, a) ∈ g.members ↔ firstBit? l g.base i = some a

/-! ### Members -/

theorem mem_insertMember (h : ms.Pairwise fun m n => m.1 < n.1) :
    (j, b) ∈ insertMember i a ms ↔ (j, b) ∈ ms ∨ j = i ∧ b = a ∧ ∀ m ∈ ms, m.1 ≠ i := by
  induction ms with
  | nil => simp [insertMember]
  | cons m ms ih =>
    obtain ⟨hm, hms⟩ := List.pairwise_cons.mp h
    simp only [insertMember]
    split
    · next hlt =>
      -- all indices are greater than the new one
      have hnew : ∀ n ∈ m :: ms, n.1 ≠ i := by
        intro n hn
        rcases List.mem_cons.mp hn with rfl | hn
        · omega
        · have := hm n hn
          omega
      simp only [List.mem_cons (a := (j, b)) (b := (i, a)), Prod.mk.injEq]
      tauto
    · next hge =>
      split
      · next heq =>
        have hold : ¬∀ n ∈ m :: ms, n.1 ≠ i := fun hn => hn m (by simp) heq.symm
        tauto
      · next hne =>
        have hnot : m.1 ≠ i := fun e => hne e.symm
        rw [List.mem_cons, ih hms, List.mem_cons, List.forall_mem_cons]
        tauto

theorem pairwise_insertMember (h : ms.Pairwise fun m n => m.1 < n.1) :
    (insertMember i a ms).Pairwise fun m n => m.1 < n.1 := by
  induction ms with
  | nil => simp [insertMember]
  | cons m ms ih =>
    obtain ⟨hm, hms⟩ := List.pairwise_cons.mp h
    simp only [insertMember]
    split
    · next hlt =>
      refine List.pairwise_cons.mpr ⟨?_, h⟩
      intro n hn
      rcases List.mem_cons.mp hn with rfl | hn
      · exact hlt
      · exact Nat.lt_trans hlt (hm n hn)
    · next hge =>
      split
      · exact h
      · next hne =>
        refine List.pairwise_cons.mpr ⟨?_, ih hms⟩
        rintro ⟨j, b⟩ hn
        rcases (mem_insertMember hms).mp hn with hn | ⟨rfl, -, -⟩
        · exact hm _ hn
        · show m.1 < j
          omega

/-! ### Groups -/

theorem map_base_insert (base : Text) (i : Nat) (a : Signal) (gs : List BusGroup) :
    (insert base i a gs).map BusGroup.base =
      if base ∈ gs.map BusGroup.base then gs.map BusGroup.base
      else gs.map BusGroup.base ++ [base] := by
  induction gs with
  | nil => rfl
  | cons g gs ih =>
    by_cases hg : g.base = base
    · simp [insert, hg]
    · simp only [insert, if_neg hg, List.map_cons, ih, List.mem_cons]
      have hne : base ≠ g.base := fun e => hg e.symm
      by_cases hmem : base ∈ gs.map BusGroup.base
      · rw [if_pos hmem, if_pos (.inr hmem)]
      · rw [if_neg hmem, if_neg (by simp [hne, hmem])]
        rfl

/-- The groups after a signal was put in: those of other buses, and that of its bus. -/
theorem mem_insert (hn : (gs.map BusGroup.base).Nodup) (h : g ∈ insert base i a gs) :
    (g ∈ gs ∧ g.base ≠ base) ∨
      (∃ o ∈ gs, o.base = base ∧ g = { o with members := insertMember i a o.members }) ∨
      (base ∉ gs.map BusGroup.base ∧ g = ⟨base, [(i, a)]⟩) := by
  induction gs with
  | nil =>
    obtain rfl := List.mem_singleton.mp h
    exact .inr (.inr ⟨by simp, rfl⟩)
  | cons o gs ih =>
    rw [List.map_cons, List.nodup_cons] at hn
    simp only [insert] at h
    split at h
    · next ho =>
      rcases List.mem_cons.mp h with rfl | h
      · exact .inr (.inl ⟨o, by simp, ho, rfl⟩)
      · refine .inl ⟨by simp [h], ?_⟩
        intro hg
        exact hn.1 (ho ▸ hg ▸ List.mem_map_of_mem h)
    · next ho =>
      rcases List.mem_cons.mp h with rfl | h
      · exact .inl ⟨by simp, ho⟩
      · rcases ih hn.2 h with ⟨hg, hne⟩ | ⟨o', ho', hb, rfl⟩ | ⟨hnot, rfl⟩
        · exact .inl ⟨by simp [hg], hne⟩
        · exact .inr (.inl ⟨o', by simp [ho'], hb, rfl⟩)
        · refine .inr (.inr ⟨?_, rfl⟩)
          rw [List.map_cons, List.mem_cons, not_or]
          exact ⟨fun e => ho e.symm, hnot⟩

/-! ### First appearances -/

theorem eraseDups_concat {α : Type} [BEq α] [LawfulBEq α] [DecidableEq α] (l : List α) (x : α) :
    (l ++ [x]).eraseDups = if x ∈ l then l.eraseDups else l.eraseDups ++ [x] := by
  rw [List.eraseDups_append]
  by_cases h : x ∈ l
  · simp [List.removeAll, h]
  · simp [List.removeAll, h, List.eraseDups_cons]

theorem nodup_eraseDups {α : Type} [BEq α] [LawfulBEq α] (l : List α) : l.eraseDups.Nodup := by
  classical
  induction l using List.reverseRecOn with
  | nil => simp
  | append_singleton l x ih =>
    rw [eraseDups_concat]
    split
    · exact ih
    · next h =>
      refine List.nodup_append'.mpr ⟨ih, by simp, ?_⟩
      simpa using h

theorem firstBit?_concat (l : List Signal) (a : Signal) (base : Text) (i : Nat) :
    firstBit? (l ++ [a]) base i =
      (firstBit? l base i).or (if splitScalar? a.name = some (base, i) then some a else none) := by
  rw [firstBit?, List.find?_append]
  by_cases h : splitScalar? a.name = some (base, i)
  · simp [firstBit?, h]
  · simp [firstBit?, h]

/-- A bus of which no signal is in the list has no bit in it. -/
theorem firstBit?_eq_none (h : base ∉ l.filterMap bus?) (i : Nat) : firstBit? l base i = none := by
  refine List.find?_eq_none.mpr ?_
  intro a ha hs
  refine h (List.mem_filterMap.mpr ⟨a, ha, ?_⟩)
  simp [bus?, of_decide_eq_true hs]

namespace Grouped

theorem nodup (h : Grouped l gs) : (gs.map BusGroup.base).Nodup := by
  rw [h.bases]
  exact nodup_eraseDups _

theorem base_mem_iff (h : Grouped l gs) : base ∈ gs.map BusGroup.base ↔ base ∈ l.filterMap bus? := by
  rw [h.bases, List.mem_eraseDups]

theorem mem_insertMember_iff (h : Grouped l gs) (hg : g ∈ gs)
    (ha : splitScalar? a.name = some (g.base, i)) :
    (j, b) ∈ insertMember i a g.members ↔ firstBit? (l ++ [a]) g.base j = some b := by
  have hfirst (k : Nat) : firstBit? l g.base k = none ↔ ∀ m ∈ g.members, m.1 ≠ k := by
    constructor
    · rintro hnone ⟨k', c⟩ hm rfl
      have := (h.mem_members_iff g hg k' c).mp hm
      simp [hnone] at this
    · intro hnot
      cases hc : firstBit? l g.base k with
      | none => rfl
      | some c => exact absurd rfl (hnot (k, c) ((h.mem_members_iff g hg k c).mpr hc))
  rw [mem_insertMember (h.ascending g hg), h.mem_members_iff g hg, firstBit?_concat, ← hfirst i]
  by_cases hj : j = i
  · subst hj
    cases firstBit? l g.base j with
    | none => simp [ha, eq_comm]
    | some c => simp
  · have hne : splitScalar? a.name ≠ some (g.base, j) := by
      rw [ha]
      intro e
      exact hj (Prod.mk.inj (Option.some.inj e)).2.symm
    simp [hj, hne]

/-- **One signal.** -/
theorem add (h : Grouped l gs) (a : Signal) : Grouped (l ++ [a]) (BusGroup.add gs a) := by
  unfold BusGroup.add
  cases hs : splitScalar? a.name with
  | none =>
    refine ⟨?_, h.ascending, ?_⟩
    · rw [h.bases, List.filterMap_append]
      simp [bus?, hs]
    · intro g hg i b
      rw [h.mem_members_iff g hg, firstBit?_concat, hs]
      simp
  | some p =>
    obtain ⟨base, i⟩ := p
    refine ⟨?_, ?_, ?_⟩
    · have hbus : [a].filterMap bus? = [base] := by simp [bus?, hs]
      show (insert base i a gs).map BusGroup.base = _
      rw [map_base_insert, List.filterMap_append, hbus, eraseDups_concat, ← h.bases]
      simp only [h.base_mem_iff]
    · intro g hg
      rcases mem_insert h.nodup hg with ⟨hg, -⟩ | ⟨o, ho, -, rfl⟩ | ⟨-, rfl⟩
      · exact h.ascending g hg
      · exact pairwise_insertMember (h.ascending o ho)
      · simp
    · intro g hg j b
      -- the group of another bus, the one of the bus of the signal, or a new one
      rcases mem_insert h.nodup hg with ⟨hg, hne⟩ | ⟨o, ho, rfl, rfl⟩ | ⟨hnot, rfl⟩
      · have hother : splitScalar? a.name ≠ some (g.base, j) := by
          rw [hs]
          intro e
          exact hne (Prod.mk.inj (Option.some.inj e)).1.symm
        rw [h.mem_members_iff g hg, firstBit?_concat, if_neg hother, Option.or_none]
      · exact h.mem_insertMember_iff ho hs
      · rw [h.base_mem_iff] at hnot
        show (j, b) ∈ [(i, a)] ↔ firstBit? (l ++ [a]) base j = some b
        rw [firstBit?_concat, firstBit?_eq_none hnot, Option.none_or, hs]
        by_cases hj : i = j
        · simp [hj, eq_comm]
        · simp [hj, Ne.symm hj]

end Grouped

/-- **The groups of a list.** -/
theorem grouped_ofSignals (l : List Signal) : Grouped l (ofSignals l) := by
  induction l using List.reverseRecOn with
  | nil => exact ⟨rfl, by simp [ofSignals], by simp [ofSignals]⟩
  | append_singleton l a ih =>
    rw [ofSignals, List.foldl_concat]
    exact ih.add a

end BusGroup

/-! ### The groups of the port buses -/

namespace Config

variable {config : Config} {l : List Signal} {role : BusRole} {a : Signal} {i : Nat}

/-- The list has all ports, and besides them only signals whose names do not split. -/
structure Covers (config : Config) (l : List Signal) : Prop where
  all : ∀ a ∈ config.ports, a ∈ l
  only : ∀ a ∈ l, a ∈ config.ports ∨ splitScalar? a.name = none

instance (config : Config) (l : List Signal) : Decidable (config.Covers l) :=
  decidable_of_iff ((∀ a ∈ config.ports, a ∈ l) ∧
    ∀ a ∈ l, a ∈ config.ports ∨ splitScalar? a.name = none)
    ⟨fun h => ⟨h.1, h.2⟩, fun h => ⟨h.all, h.only⟩⟩

def busGroup (config : Config) (role : BusRole) : BusGroup :=
  ⟨config.busName role,
    (List.range config.width).map fun i => (i, ⟨scalarName (config.busName role) i⟩)⟩

theorem signals_busGroup (config : Config) (role : BusRole) :
    (config.busGroup role).signals = config.busMembers role := by
  simp [BusGroup.signals, busGroup, busMembers]

theorem splitScalar?_bit (config : Config) (role : BusRole) (hi : i < config.width) :
    splitScalar? (scalarName (config.busName role) i) = some (config.busName role, i) := by
  have hne : config.busName role ≠ [] := by
    cases role
    · exact ne_nil_of_isIdentifier config.valid.inputBus_plain
    · exact ne_nil_of_isIdentifier config.valid.outputBus_plain
  have hwidth := config.valid.width_le
  refine splitScalar?_scalarName hne ?_
  simp only [maxWidth] at hwidth
  simp only [Text.bound32]
  omega

namespace Covers

/-- A signal of the list whose name splits is the bit that it is split into. -/
theorem eq_of_splitScalar? (h : config.Covers l) (ha : a ∈ l) {base : Text}
    (hs : splitScalar? a.name = some (base, i)) :
    ∃ role, base = config.busName role ∧ i < config.width ∧
      a = ⟨scalarName (config.busName role) i⟩ := by
  rcases h.only a ha with hp | hnone
  · obtain ⟨role, j, hj, rfl⟩ := mem_ports.mp hp
    rw [config.splitScalar?_bit role hj] at hs
    obtain ⟨rfl, rfl⟩ := Prod.mk.inj (Option.some.inj hs)
    exact ⟨role, rfl, hj, rfl⟩
  · simp [hnone] at hs

theorem firstBit?_eq_some_iff (h : config.Covers l) :
    BusGroup.firstBit? l (config.busName role) i = some a ↔
      i < config.width ∧ a = ⟨scalarName (config.busName role) i⟩ := by
  have honly {b : Signal} (hb : BusGroup.firstBit? l (config.busName role) i = some b) :
      i < config.width ∧ b = ⟨scalarName (config.busName role) i⟩ := by
    have hs : splitScalar? b.name = some (config.busName role, i) := by
      simpa using List.find?_some hb
    obtain ⟨role', hbase, hi, rfl⟩ := h.eq_of_splitScalar? (List.mem_of_find?_eq_some hb) hs
    rw [← hbase]
    exact ⟨hi, rfl⟩
  constructor
  · exact honly
  · rintro ⟨hi, rfl⟩
    have hmem := h.all _ (mem_ports.mpr ⟨role, i, hi, rfl⟩)
    cases hb : BusGroup.firstBit? l (config.busName role) i with
    | none =>
      have := List.find?_eq_none.mp hb _ hmem
      simp [config.splitScalar?_bit role hi] at this
    | some b => rw [(honly hb).2]

theorem mem_buses_iff (h : config.Covers l) {base : Text} :
    base ∈ l.filterMap BusGroup.bus? ↔ ∃ role, base = config.busName role := by
  simp only [List.mem_filterMap, BusGroup.bus?, Option.map_eq_some_iff, Prod.exists]
  constructor
  · rintro ⟨a, ha, base', i, hs, rfl⟩
    obtain ⟨role, hbase, -⟩ := h.eq_of_splitScalar? ha hs
    exact ⟨role, hbase⟩
  · rintro ⟨role, rfl⟩
    have hpos := config.valid.width_pos
    exact ⟨_, h.all _ (mem_ports.mpr ⟨role, 0, hpos, rfl⟩), _, 0, config.splitScalar?_bit role hpos,
      rfl⟩

theorem members_eq (h : config.Covers l) {gs : List BusGroup} (hgs : BusGroup.Grouped l gs)
    {g : BusGroup} (hg : g ∈ gs) (hb : g.base = config.busName role) :
    g = config.busGroup role := by
  have hmem : ∀ m, m ∈ g.members ↔ m ∈ (config.busGroup role).members := by
    rintro ⟨i, a⟩
    rw [hgs.mem_members_iff g hg, hb, h.firstBit?_eq_some_iff]
    simp [busGroup, eq_comm]
  have hsorted : (config.busGroup role).members.Pairwise fun m n => m.1 < n.1 :=
    List.pairwise_map.mpr List.pairwise_lt_range
  have hnodup {ms : List (Nat × Signal)} (hms : ms.Pairwise fun m n => m.1 < n.1) : ms.Nodup := by
    refine hms.imp ?_
    rintro m n hlt rfl
    exact Nat.lt_irrefl _ hlt
  have hmembers : g.members = (config.busGroup role).members := by
    refine List.Perm.eq_of_pairwise ?_ (hgs.ascending g hg) hsorted
      ((List.perm_ext_iff_of_nodup (hnodup (hgs.ascending g hg)) (hnodup hsorted)).mpr hmem)
    intro m n _ _ hlt hgt
    exact absurd (Nat.lt_trans hlt hgt) (Nat.lt_irrefl _)
  obtain ⟨base, members⟩ := g
  obtain rfl : base = config.busName role := hb
  exact congrArg (BusGroup.mk _) hmembers

/-- **All ports** make the groups of the two buses. -/
theorem perm_ofSignals (h : config.Covers l) :
    (BusGroup.ofSignals l).Perm [config.busGroup .input, config.busGroup .output] := by
  have hgs := BusGroup.grouped_ofSignals l
  have hnodup : [config.busGroup .input, config.busGroup .output].Nodup := by
    have hne : config.busGroup .input ≠ config.busGroup .output :=
      fun e => config.valid.buses_ne (congrArg BusGroup.base e)
    simpa using hne
  refine (List.perm_ext_iff_of_nodup hgs.nodup.of_map hnodup).mpr ?_
  intro g
  constructor
  · intro hg
    obtain ⟨role, hb⟩ := h.mem_buses_iff.mp (hgs.base_mem_iff.mp (List.mem_map_of_mem hg))
    rw [h.members_eq hgs hg hb]
    cases role <;> simp
  · intro hg
    obtain ⟨role, rfl⟩ : ∃ role, g = config.busGroup role := by
      rcases List.mem_cons.mp hg with rfl | hg
      · exact ⟨.input, rfl⟩
      · exact ⟨.output, List.mem_singleton.mp hg⟩
    obtain ⟨o, ho, hb⟩ := List.mem_map.mp (hgs.base_mem_iff.mpr (h.mem_buses_iff.mpr ⟨role, rfl⟩))
    rwa [← h.members_eq hgs ho hb]

end Covers

end Config

/-- **Grouping.** The groups of a list are one for each bus that a name of it splits into, in the
order of first appearance, in each group the first signal of each index by ascending index.  A list
of all ports in any order, with names between them that do not split, makes two groups: the buses
with their bits. -/
theorem grouping (l : List Signal) :
    BusGroup.Grouped l (BusGroup.ofSignals l) ∧
      ∀ config : Config, config.Covers l →
        ((BusGroup.ofSignals l).map fun g => (g.base, g.signals)).Perm
          [(config.inputBus, config.busMembers .input),
            (config.outputBus, config.busMembers .output)] := by
  refine ⟨BusGroup.grouped_ofSignals l, ?_⟩
  intro config h
  have hperm := h.perm_ofSignals.map fun g => (g.base, g.signals)
  rwa [List.map_cons, List.map_singleton, Config.signals_busGroup, Config.signals_busGroup] at hperm

/-- The bits of the sample buses out of order, one of them twice, and two names that do not split. -/
def scatteredBits : List Signal :=
  ["out_array_1", "n", "in_array_1", "out_array_1", "in_array_", "in_array_0", "out_array_0"].map
    fun t => ⟨t.toList⟩

theorem grouping_scatteredBits :
    sampleConfig.Covers scatteredBits ∧
      (BusGroup.ofSignals scatteredBits).map BusGroup.base =
        ["out_array".toList, "in_array".toList] ∧
      ((BusGroup.ofSignals scatteredBits).map fun g => (g.base, g.signals)).Perm
        [("in_array".toList, sampleConfig.busMembers .input),
          ("out_array".toList, sampleConfig.busMembers .output)] := by
  have hcovers : sampleConfig.Covers scatteredBits := by decide +kernel
  obtain ⟨-, hgroups⟩ := grouping scatteredBits
  exact ⟨hcovers, by decide +kernel, hgroups sampleConfig hcovers⟩

end NetFlat
