import Mathlib.Logic.ExistsUnique
import NetFlat.Proofs.Flattening
import NetFlat.Proofs.Gate.Meaning

/-!
# Gates as equations

The gates of a module constrain the values of its signals, and so do the assignments that take
their place.  No order of the gates is assumed, and a signal may have any number of drivers.

* `Placed.forall_holds_of_assignments`: what satisfies the assignments satisfies the gates;
* `Placed.existsUnique_complete`: what satisfies the gates satisfies the assignments as well after
  exactly one change of the auxiliary wires, if these are new;
* `equations_of_flatten_eq_ok`: both for the assignments of a flattened file.
-/

namespace NetFlat

namespace Placed

variable {gs : List Placed} {g : Placed} {v w : Signal → Bool} {aux : Signal} {e : Expr}

/-- Each gate has its operands, the auxiliary wires are distinct, and no gate reads or drives one of
them. -/
structure Fresh (gs : List Placed) : Prop where
  lowered : ∀ g ∈ gs, ∃ e, g.core? = some e
  distinct : (gs.filterMap auxiliary?).Nodup
  unused : ∀ g ∈ gs, ∀ a ∈ g.signals, a ∉ gs.filterMap auxiliary?

/-- The valuation with each auxiliary wire changed to the value of the core before it. -/
def complete (gs : List Placed) (v : Signal → Bool) (a : Signal) : Bool :=
  match gs.find? (·.auxiliary? = some a) with
  | some g => (g.core?.map (Expr.eval v)).getD (v a)
  | none => v a

/-! ### Auxiliary wires -/

theorem eq_of_auxiliary? (hn : (gs.filterMap auxiliary?).Nodup) {h : Placed} (hg : g ∈ gs)
    (hh : h ∈ gs) (hga : g.auxiliary? = some aux) (hha : h.auxiliary? = some aux) : g = h := by
  induction gs with
  | nil => simp at hg
  | cons k gs ih =>
    have hmem {p : Placed} (hp : p ∈ gs) (hpa : p.auxiliary? = some aux) :
        aux ∈ gs.filterMap auxiliary? := List.mem_filterMap.mpr ⟨p, hp, hpa⟩
    have hk (hka : k.auxiliary? = some aux) : aux ∉ gs.filterMap auxiliary? := by
      rw [List.filterMap_cons_some hka] at hn
      exact (List.nodup_cons.mp hn).1
    have htail : (gs.filterMap auxiliary?).Nodup :=
      hn.sublist ((List.sublist_cons_self k gs).filterMap _)
    rcases List.mem_cons.mp hg with rfl | hg'
    · rcases List.mem_cons.mp hh with rfl | hh'
      · rfl
      · exact absurd (hmem hh' hha) (hk hga)
    · rcases List.mem_cons.mp hh with rfl | hh'
      · exact absurd (hmem hg' hga) (hk hha)
      · exact ih htail hg' hh'

theorem complete_of_not_mem {a : Signal} (ha : a ∉ gs.filterMap auxiliary?) :
    complete gs v a = v a := by
  have hf : gs.find? (·.auxiliary? = some a) = none := by
    rw [List.find?_eq_none]
    intro g hg hga
    exact ha (List.mem_filterMap.mpr ⟨g, hg, by simpa using hga⟩)
  simp [complete, hf]

theorem complete_auxiliary (hn : (gs.filterMap auxiliary?).Nodup) (hg : g ∈ gs)
    (hc : g.core? = some e) (hx : g.auxiliary? = some aux) :
    complete gs v aux = e.eval v := by
  have hf : gs.find? (·.auxiliary? = some aux) = some g := by
    have hsome : (gs.find? (·.auxiliary? = some aux)).isSome := by
      rw [List.find?_isSome]
      exact ⟨g, hg, by simp [hx]⟩
    obtain ⟨h, hh⟩ := Option.isSome_iff_exists.mp hsome
    have hha : h.auxiliary? = some aux := by simpa using List.find?_some hh
    rw [hh, eq_of_auxiliary? hn (List.mem_of_find?_eq_some hh) hg hha hx]
  simp [complete, hf, hc]

/-- A core has one value under valuations that differ on the auxiliary wires only. -/
theorem Fresh.eval_core_congr (hf : Fresh gs) (hg : g ∈ gs) (hc : g.core? = some e)
    (hw : ∀ a ∉ gs.filterMap auxiliary?, w a = v a) : e.eval w = e.eval v := by
  refine Expr.eval_congr fun a ha => hw a ?_
  rw [reads_core hc] at ha
  exact hf.unused g hg a (List.mem_append_left _ ha)

/-! ### Gates and assignments -/

theorem forall_holds_of_assignments (hl : ∀ g ∈ gs, ∃ e, g.core? = some e)
    (h : ∀ a ∈ gs.flatMap assignments, a.Holds v) : ∀ g ∈ gs, g.Holds v := by
  intro g hg
  obtain ⟨e, hc⟩ := hl g hg
  have hg' : ∀ a ∈ g.assignments, a.Holds v := fun a ha =>
    h a (List.mem_flatMap.mpr ⟨g, hg, ha⟩)
  exact ((forall_assignments_holds_iff hc).mp hg').1

theorem Fresh.assignments_hold_complete (hf : Fresh gs) (h : ∀ g ∈ gs, g.Holds v) :
    ∀ a ∈ gs.flatMap assignments, a.Holds (complete gs v) := by
  intro a ha
  obtain ⟨g, hg, ha⟩ := List.mem_flatMap.mp ha
  obtain ⟨e, hc⟩ := hf.lowered g hg
  have he : e.eval (complete gs v) = e.eval v :=
    hf.eval_core_congr hg hc fun b hb => complete_of_not_mem hb
  refine (forall_assignments_holds_iff hc).mpr ⟨?_, fun aux hx => ?_⟩ a ha
  · have hout : g.output ∉ gs.filterMap auxiliary? := hf.unused g hg _ (by simp [signals])
    rw [holds_iff hc, he, complete_of_not_mem hout]
    exact (holds_iff hc).mp (h g hg)
  · rw [complete_auxiliary hf.distinct hg hc hx, he]

/-- **Gates as assignments.** What satisfies the gates can be changed on the auxiliary wires in
exactly one way so that it satisfies the assignments. -/
theorem Fresh.existsUnique_complete (hf : Fresh gs) (h : ∀ g ∈ gs, g.Holds v) :
    ∃! w : Signal → Bool, (∀ a ∉ gs.filterMap auxiliary?, w a = v a) ∧
      ∀ a ∈ gs.flatMap assignments, a.Holds w := by
  refine ⟨complete gs v, ⟨fun a ha => complete_of_not_mem ha, hf.assignments_hold_complete h⟩, ?_⟩
  rintro w ⟨hw, hwa⟩
  funext a
  by_cases ha : a ∈ gs.filterMap auxiliary?
  · obtain ⟨g, hg, hx⟩ := List.mem_filterMap.mp ha
    obtain ⟨e, hc⟩ := hf.lowered g hg
    have hg' : ∀ b ∈ g.assignments, b.Holds w := fun b hb =>
      hwa b (List.mem_flatMap.mpr ⟨g, hg, hb⟩)
    rw [((forall_assignments_holds_iff hc).mp hg').2 a hx, hf.eval_core_congr hg hc hw,
      complete_auxiliary hf.distinct hg hc hx]
  · rw [hw a ha, complete_of_not_mem ha]

end Placed

/-! ### Flattened files -/

theorem OpenGate.exists_core {config : Config} {o : OpenGate} {g : Placed}
    (h : o.placed? config = some g) : ∃ e, g.core? = some e := by
  cases hk : Cell.find? o.keyword with
  | none => simp [OpenGate.placed?, hk] at h
  | some cell =>
    obtain ⟨connections, gate, -, hg, hp⟩ := (OpenGate.placed?_eq_some_iff hk).mp h
    exact Placed.exists_core (hk.trans (congrArg some (Gate.cell_of_ofConnections hg).symm)) hp

theorem Item.exists_core {config : Config} {i : Item} {g : Placed} (h : g ∈ i.placed config) :
    ∃ e, g.core? = some e := by
  cases i with
  | gate o => exact o.exists_core (Option.mem_toList.mp h)
  | declaration d | other line => simp [Item.placed] at h

variable {config : Config} {file : SourceFile} {f : Flattened}

/-- The gates of an accepted file have their operands, and their auxiliary wires are new. -/
theorem fresh_gates_of_flatten_eq_ok (h : (flatten config file).result = .ok f) :
    Placed.Fresh (file.gates config) := by
  obtain ⟨-, -, hc, -⟩ := flatten_eq_ok_iff.mp h
  obtain ⟨hn, hx⟩ := clashFree_uses_iff.mp hc
  refine ⟨fun g hg => ?_, hn, fun g hg a ha haux => (hx a haux).2.2 g hg ha⟩
  obtain ⟨i, -, hi⟩ := List.mem_flatMap.mp hg
  exact Item.exists_core hi

/-- **Flattening preserves the equations.** The scan of an accepted file has placed the gates of its
instances. What satisfies the assignments of the flat module satisfies these gates, and what
satisfies the gates can be changed on their auxiliary wires in exactly one way so that it satisfies
the assignments. -/
theorem equations_of_flatten_eq_ok (h : (flatten config file).result = .ok f) :
    (Scan.run config file.lines).placed = file.gates config ∧
      ∀ v : Signal → Bool,
        ((∀ a ∈ f.flat.assignments, a.Holds v) → ∀ g ∈ file.gates config, g.Holds v) ∧
        ((∀ g ∈ file.gates config, g.Holds v) →
          ∃! w : Signal → Bool, (∀ a ∉ file.auxiliaries config, w a = v a) ∧
            ∀ a ∈ f.flat.assignments, a.Holds w) := by
  have hfresh := fresh_gates_of_flatten_eq_ok h
  obtain ⟨hcl, hs, hc, rfl⟩ := flatten_eq_ok_iff.mp h
  have hclosed := Scan.phase_run_eq_closed_iff.mpr ⟨hcl, hs, hc⟩
  have hplaced := congrArg Scan.placed (Scan.quiet_run_of_closed hclosed)
  have hassign : ((Scan.finished config (file.items config)).flattened config).flat.assignments =
      (file.gates config).flatMap Placed.assignments := rfl
  refine ⟨hplaced.trans (List.nil_append _), fun v => ⟨fun ha => ?_, fun hg => ?_⟩⟩
  · rw [hassign] at ha
    exact Placed.forall_holds_of_assignments hfresh.lowered ha
  · rw [hassign]
    exact hfresh.existsUnique_complete hg

theorem equations_of_sampleFile : ∃ f, (flatten sampleConfig sampleFile).result = .ok f ∧
    f.flat.assignments.length = 4 ∧
    (Scan.run sampleConfig sampleFile.lines).placed = sampleFile.gates sampleConfig ∧
      ∀ v : Signal → Bool,
        ((∀ a ∈ f.flat.assignments, a.Holds v) →
          ∀ g ∈ sampleFile.gates sampleConfig, g.Holds v) ∧
        ((∀ g ∈ sampleFile.gates sampleConfig, g.Holds v) →
          ∃! w : Signal → Bool, (∀ a ∉ sampleFile.auxiliaries sampleConfig, w a = v a) ∧
            ∀ a ∈ f.flat.assignments, a.Holds w) := by
  obtain ⟨f, hf, -, hn⟩ := flatten_sampleFile
  exact ⟨f, hf, hn, equations_of_flatten_eq_ok hf⟩

end NetFlat
