import Mathlib.Data.List.Nodup
import NetFlat.Proofs.Declarations

/-!
# Items in another order

What a row of items comes to does not depend on their order, but for the order of the assignments.

* `Tally.bump_comm`, `Item.count_comm`, `Item.foldl_count`: counting;
* `Scope.wires_addAll_perm`, `Scope.length_auxiliaries_addAll_perm`: names in use;
* `Scan.flattened_finished_perm`: the outcome as a whole.
-/

namespace NetFlat

/-! ### Counting -/

theorem Text.eq_of_not_lt {s t : Text} (h : ¬s < t) (h' : ¬t < s) : s = t := List.le_antisymm h' h

namespace Tally

theorem bump_comm_of_lt {k l : Text} (h : k < l) (t : Tally) :
    bump k (bump l t) = bump l (bump k t) := by
  have hne : ¬k = l := fun e => List.lt_irrefl l (e ▸ h)
  have hnlt : ¬l < k := fun h' => List.lt_irrefl l (List.lt_trans h' h)
  induction t with
  | nil => simp [bump, h, hnlt, Ne.symm hne]
  | cons p t ih =>
    obtain ⟨m, n⟩ := p
    by_cases hl : l < m
    · have hk : k < m := List.lt_trans h hl
      simp [bump, hl, hk, h, hnlt, Ne.symm hne]
    · by_cases hlm : l = m
      · subst hlm
        simp only [bump, h, hnlt, hl, Ne.symm hne, if_true, if_false]
      · have hml : m < l := by
          by_contra hml
          exact hlm (Text.eq_of_not_lt hl hml)
        by_cases hk : k < m
        · simp [bump, hl, hlm, hk, hnlt, Ne.symm hne]
        · by_cases hkm : k = m
          · subst hkm
            simp only [bump, hl, hlm, hk, if_true, if_false]
          · simp [bump, hl, hlm, hk, hkm, ih]

theorem bump_comm (k l : Text) (t : Tally) : bump k (bump l t) = bump l (bump k t) := by
  by_cases h : k < l
  · exact bump_comm_of_lt h t
  · by_cases h' : l < k
    · exact (bump_comm_of_lt h' t).symm
    · rw [Text.eq_of_not_lt h h']

def bump? (keyword : Option Text) (t : Tally) : Tally := keyword.elim t (bump · t)

theorem bump?_comm (k l : Option Text) (t : Tally) :
    bump? k (bump? l t) = bump? l (bump? k t) := by
  cases k with
  | none => rfl
  | some k =>
    cases l with
    | none => rfl
    | some l => exact bump_comm k l t

end Tally

namespace Item

/-- The keyword of an instance of a cell in the catalog. -/
def lowered? : Item → Option Text
  | .gate g => if (Cell.find? g.keyword).isSome then some g.keyword else none
  | _ => none

/-- The keyword of an instance of any other cell. -/
def passed? : Item → Option Text
  | .gate g => if (Cell.find? g.keyword).isSome then none else some g.keyword
  | _ => none

theorem count_eq (config : Config) (i : Item) (stats : Stats) : i.count config stats =
    { stats with
      translated := Tally.bump? i.lowered? stats.translated
      skippedCells := Tally.bump? i.passed? stats.skippedCells
      skippedLines := stats.skippedLines + (i.isSkipped config).toNat } := by
  cases i with
  | gate g =>
    simp only [count, lowered?, passed?, isSkipped]
    split <;> rfl
  | declaration d =>
    simp only [count, lowered?, passed?]
    split
    · next h => simp [h, Tally.bump?]
    · next h => simp [h, Tally.bump?]
  | other line => rfl

/-- The counts of a row of items: the keywords of the instances that were lowered, those of the
instances that were passed over, and the number of skipped lines. -/
theorem foldl_count (config : Config) (is : List Item) (stats : Stats) :
    is.foldl (count config) stats =
      { stats with
        translated := (is.filterMap lowered?).foldl (fun t k => Tally.bump k t) stats.translated
        skippedCells := (is.filterMap passed?).foldl (fun t k => Tally.bump k t) stats.skippedCells
        skippedLines := stats.skippedLines + is.countP (isSkipped config) } := by
  induction is generalizing stats with
  | nil => rfl
  | cons i is ih =>
    have hlines : stats.skippedLines + (i.isSkipped config).toNat + is.countP (isSkipped config) =
        stats.skippedLines + (i :: is).countP (isSkipped config) := by
      rw [List.countP_cons]
      cases i.isSkipped config with
      | false => simp
      | true =>
        simp only [Bool.toNat_true, if_true]
        omega
    rw [List.foldl_cons, ih, count_eq, hlines]
    cases hl : i.lowered? <;> cases hp : i.passed? <;>
      simp [hl, hp, Tally.bump?]

theorem count_comm (config : Config) (i j : Item) (stats : Stats) :
    j.count config (i.count config stats) = i.count config (j.count config stats) := by
  simp only [count_eq]
  rw [Tally.bump?_comm j.lowered?, Tally.bump?_comm j.passed?, Nat.add_right_comm]

end Item

/-! ### Names in use -/

namespace Scope

variable {s : Scope} {us vs : List Use}

theorem wires_eq {t : Scope} (h : ∀ a, a ∈ s.wires ↔ a ∈ t.wires) : s.wires = t.wires :=
  List.Perm.eq_of_pairwise
    (fun _ _ _ _ hab hba => absurd (Signal.lt_trans hab hba) (Signal.lt_irrefl _))
    s.pairwise_wires t.pairwise_wires
    ((List.perm_ext_iff_of_nodup s.nodup_wires t.nodup_wires).mpr h)

theorem wires_addAll_perm (h : us.Perm vs) : (s.addAll us).wires = (s.addAll vs).wires := by
  refine wires_eq fun a => ?_
  have hd : (declaredBy us).Perm (declaredBy vs) := h.filterMap _
  have hr : (referencedBy us).Perm (referencedBy vs) := h.filterMap _
  have hx : (registeredBy us).Perm (registeredBy vs) := h.filterMap _
  simp only [mem_wires, mem_declared_addAll, mem_referenced_addAll, mem_auxiliaries_addAll,
    ports_addAll, hd.mem_iff, hr.mem_iff, hx.mem_iff]

theorem nodup_auxiliaries_addAll (h : s.auxiliaries.Nodup) :
    (s.addAll us).auxiliaries.Nodup := by
  induction us generalizing s with
  | nil => exact h
  | cons u us ih =>
    refine ih (s := s.add u) ?_
    cases u with
    | register a => exact h.insert
    | declare a | reference a => exact h

/-- The number of auxiliary wires depends on what names are registered only. -/
theorem length_auxiliaries_addAll_eq (hs : s.auxiliaries.Nodup)
    (h : ∀ a, a ∈ registeredBy us ↔ a ∈ registeredBy vs) :
    (s.addAll us).auxiliaries.length = (s.addAll vs).auxiliaries.length := by
  refine List.Perm.length_eq ?_
  rw [List.perm_ext_iff_of_nodup (nodup_auxiliaries_addAll hs) (nodup_auxiliaries_addAll hs)]
  simp only [mem_auxiliaries_addAll, h, implies_true]

theorem length_auxiliaries_addAll_perm (hs : s.auxiliaries.Nodup) (h : us.Perm vs) :
    (s.addAll us).auxiliaries.length = (s.addAll vs).auxiliaries.length :=
  length_auxiliaries_addAll_eq hs fun _ => (h.filterMap Use.registered?).mem_iff

end Scope

/-! ### The outcome -/

/-- **Items in another order** come to the same, with their assignments in that order. -/
theorem Scan.flattened_finished_perm (config : Config) {is js : List Item} (h : is.Perm js) :
    ((finished config js).flattened config).stats = ((finished config is).flattened config).stats ∧
      ((finished config js).flattened config).flat =
        { ((finished config is).flattened config).flat with
          assignments := js.flatMap (Item.assignments config) } := by
  have hu : (is.flatMap (Item.uses config)).Perm (js.flatMap (Item.uses config)) :=
    h.flatMap_right _
  have ha : ((is.flatMap (Item.placed config)).flatMap Placed.assignments).length =
      ((js.flatMap (Item.placed config)).flatMap Placed.assignments).length :=
    ((h.flatMap_right _).flatMap_right _).length_eq
  have hcount : is.foldl (Item.count config) {} = js.foldl (Item.count config) {} :=
    h.foldl_eq' (fun i _ j _ stats => Item.count_comm config i j stats) {}
  have hstart : (start config).scope.auxiliaries.Nodup := List.nodup_nil
  rw [flattened_finished, flattened_finished, Scope.wires_addAll_perm hu,
    Scope.length_auxiliaries_addAll_perm hstart hu, ha, hcount, ← Item.flatMap_assignments]
  exact ⟨rfl, rfl⟩

end NetFlat
