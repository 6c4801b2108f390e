import Mathlib.Tactic.Tauto
import NetFlat.Scope

/-!
# Rows of name uses

Declaring a wire, referring to a signal and registering an auxiliary wire are the three uses of a
name.  A scope takes a row of uses in one after the other and stops at the first clash.

* `ClashFree s us`: each use of the row `us` is admitted by the scope `s`, and any two of them are
  compatible, which says nothing about their order;
* `useAll_eq_ok_iff`: a row is taken in exactly if it is clash free, and `Scope.addAll` is the
  scope that comes out;
* `clashFree_iff`: the same in terms of names: the registered ones are distinct, new to the scope
  and used in no other way by the row, and the row uses no auxiliary wire of the scope.
-/

namespace NetFlat.Scope

/-- A use of a name. -/
inductive Use where
  | declare (a : Signal)
  | reference (a : Signal)
  | register (a : Signal)
deriving DecidableEq

namespace Use

def declared? : Use → Option Signal
  | declare a => some a
  | _ => none

def referenced? : Use → Option Signal
  | reference a => some a
  | _ => none

/-- The name registered for an auxiliary wire. -/
def registered? : Use → Option Signal
  | register a => some a
  | _ => none

def name : Use → Signal
  | declare a | reference a | register a => a

/-- Two uses of one row go together: if they use one name, neither of them registers it. -/
def Compatible (u v : Use) : Prop := u.name = v.name → u.registered? = none ∧ v.registered? = none

theorem Compatible.symm {u v : Use} (h : u.Compatible v) : v.Compatible u :=
  fun e => (h e.symm).symm

end Use

def declaredBy (us : List Use) : List Signal := us.filterMap Use.declared?

def referencedBy (us : List Use) : List Signal := us.filterMap Use.referenced?

def registeredBy (us : List Use) : List Signal := us.filterMap Use.registered?

theorem declaredBy_append (us vs : List Use) :
    declaredBy (us ++ vs) = declaredBy us ++ declaredBy vs := List.filterMap_append

theorem referencedBy_append (us vs : List Use) :
    referencedBy (us ++ vs) = referencedBy us ++ referencedBy vs := List.filterMap_append

theorem registeredBy_append (us vs : List Use) :
    registeredBy (us ++ vs) = registeredBy us ++ registeredBy vs := List.filterMap_append

def use (s : Scope) : Use → Except Clash Scope
  | .declare a => s.declare a
  | .reference a => s.reference a
  | .register a => s.register a

/-- Takes a row of uses in, up to the first clash. -/
def useAll (s : Scope) (us : List Use) : Except Clash Scope := us.foldlM use s

/-- The scope with one more use in it, clash or not. -/
def add (s : Scope) : Use → Scope
  | .declare a => { s with declared := s.declared.insert a }
  | .reference a => { s with referenced := s.referenced.insert a }
  | .register a => { s with
      referenced := s.referenced.insert a
      auxiliaries := s.auxiliaries.insert a }

def addAll (s : Scope) (us : List Use) : Scope := us.foldl add s

/-- The use clashes with nothing in the scope. -/
def Admits (s : Scope) : Use → Prop
  | .declare a => a ∉ s.auxiliaries
  | .reference a => a ∉ s.auxiliaries
  | .register a => s.classify? a = none

/-! ### Single uses -/

theorem portClass?_eq_none_iff {s : Scope} {a : Signal} :
    s.portClass? a = none ↔ ∀ p ∈ s.ports, p.1 ≠ a := by
  unfold portClass?
  rw [List.lookup_eq_none_iff]
  constructor
  · intro h p hp hpa
    have := h p (List.mem_reverse.mpr hp)
    simp [hpa] at this
  · intro h p hp
    have := h p (List.mem_reverse.mp hp)
    simpa using fun e => this e.symm

/-- A name without class is no port, and none of the three lists has it. -/
theorem classify?_eq_none_iff {s : Scope} {a : Signal} :
    s.classify? a = none ↔
      (∀ p ∈ s.ports, p.1 ≠ a) ∧ a ∉ s.declared ∧ a ∉ s.referenced ∧ a ∉ s.auxiliaries := by
  rw [← portClass?_eq_none_iff]
  unfold classify?
  cases hp : s.portClass? a with
  | some c => simp
  | none =>
    by_cases h : a ∈ s.auxiliaries
    · simp [h]
    · simp [h]

theorem use_eq_ok_iff {s t : Scope} {u : Use} :
    s.use u = .ok t ↔ s.Admits u ∧ t = s.add u := by
  cases u with
  | declare a | reference a =>
    simp only [use, declare, reference, Admits, add]
    split
    · next h => simp [h]
    · next h => simp [h, eq_comm]
  | register a =>
    simp only [use, register, Admits, add]
    cases h : s.classify? a with
    | some c => simp
    | none => simp [eq_comm]

theorem useAll_nil (s : Scope) : s.useAll [] = .ok s := rfl

theorem useAll_cons (s : Scope) (u : Use) (us : List Use) :
    s.useAll (u :: us) = (s.use u).bind (·.useAll us) := rfl

theorem useAll_append (s : Scope) (us vs : List Use) :
    s.useAll (us ++ vs) = (s.useAll us).bind (·.useAll vs) := by
  simp only [useAll, List.foldlM_append]
  rfl

theorem addAll_append (s : Scope) (us vs : List Use) :
    s.addAll (us ++ vs) = (s.addAll us).addAll vs := List.foldl_append

/-! ### What a row adds -/

@[simp]
theorem ports_add (s : Scope) (u : Use) : (s.add u).ports = s.ports := by cases u <;> rfl

@[simp]
theorem ports_addAll (s : Scope) (us : List Use) : (s.addAll us).ports = s.ports := by
  induction us generalizing s with
  | nil => rfl
  | cons u us ih => exact (ih (s.add u)).trans (ports_add s u)

theorem mem_declared_addAll {s : Scope} {us : List Use} {a : Signal} :
    a ∈ (s.addAll us).declared ↔ a ∈ s.declared ∨ a ∈ declaredBy us := by
  induction us generalizing s with
  | nil => simp [addAll, declaredBy]
  | cons u us ih =>
    rw [addAll, List.foldl_cons, ← addAll, ih]
    cases u with
    | declare b =>
      simp only [add, declaredBy, List.mem_insert_iff, List.filterMap_cons, Use.declared?,
        List.mem_cons]
      tauto
    | reference b | register b => simp [add, declaredBy, Use.declared?]

theorem mem_referenced_addAll {s : Scope} {us : List Use} {a : Signal} :
    a ∈ (s.addAll us).referenced ↔
      a ∈ s.referenced ∨ a ∈ referencedBy us ∨ a ∈ registeredBy us := by
  induction us generalizing s with
  | nil => simp [addAll, referencedBy, registeredBy]
  | cons u us ih =>
    rw [addAll, List.foldl_cons, ← addAll, ih]
    cases u with
    | declare b => simp [add, referencedBy, registeredBy, Use.referenced?, Use.registered?]
    | reference b | register b =>
      simp only [add, referencedBy, registeredBy, List.mem_insert_iff, List.filterMap_cons,
        Use.referenced?, Use.registered?, List.mem_cons]
      tauto

theorem mem_auxiliaries_addAll {s : Scope} {us : List Use} {a : Signal} :
    a ∈ (s.addAll us).auxiliaries ↔ a ∈ s.auxiliaries ∨ a ∈ registeredBy us := by
  induction us generalizing s with
  | nil => simp [addAll, registeredBy]
  | cons u us ih =>
    rw [addAll, List.foldl_cons, ← addAll, ih]
    cases u with
    | register b =>
      simp only [add, registeredBy, List.mem_insert_iff, List.filterMap_cons, Use.registered?,
        List.mem_cons]
      tauto
    | declare b | reference b => simp [add, registeredBy, Use.registered?]

/-! ### Rows without a clash -/

/-- Each use of the row is admitted, and any two of them go together. -/
structure ClashFree (s : Scope) (us : List Use) : Prop where
  admitted : ∀ u ∈ us, s.Admits u
  compatible : us.Pairwise Use.Compatible

/-- What a use adds to a scope matters only to uses that do not go together with it. -/
theorem admits_add_iff {s : Scope} {u v : Use} :
    (s.add u).Admits v ↔ s.Admits v ∧ u.Compatible v := by
  cases v with
  | declare b | reference b =>
    cases u with
    | declare a | reference a => simp [Admits, add, Use.Compatible, Use.registered?]
    | register a =>
      simp only [Admits, add, List.mem_insert_iff, not_or, Use.Compatible, Use.name,
        Use.registered?, reduceCtorEq, false_and, imp_false]
      exact ⟨fun h => ⟨h.2, fun e => h.1 e.symm⟩, fun h => ⟨fun e => h.2 e.symm, h.1⟩⟩
  | register b =>
    simp only [Admits, classify?_eq_none_iff]
    cases u <;>
      simp only [add, List.mem_insert_iff, not_or, Use.Compatible, Use.name, Use.registered?,
        reduceCtorEq, and_false, imp_false, eq_comm] <;> tauto

theorem clashFree_cons_iff {s : Scope} {u : Use} {us : List Use} :
    s.ClashFree (u :: us) ↔ s.Admits u ∧ (s.add u).ClashFree us := by
  constructor
  · rintro ⟨ha, hc⟩
    obtain ⟨hu, hus⟩ := List.pairwise_cons.mp hc
    exact ⟨ha u (by simp), fun v hv => admits_add_iff.mpr ⟨ha v (by simp [hv]), hu v hv⟩, hus⟩
  · rintro ⟨hu, ha, hc⟩
    refine ⟨fun v hv => ?_, List.pairwise_cons.mpr ⟨fun v hv => (admits_add_iff.mp (ha v hv)).2, hc⟩⟩
    rcases List.mem_cons.mp hv with rfl | hv
    · exact hu
    · exact (admits_add_iff.mp (ha v hv)).1

/-- **Taking in a row.** It succeeds exactly for the rows without a clash. -/
theorem useAll_eq_ok_iff {s t : Scope} {us : List Use} :
    s.useAll us = .ok t ↔ s.ClashFree us ∧ t = s.addAll us := by
  induction us generalizing s with
  | nil =>
    rw [useAll_nil, Except.ok.injEq, eq_comm]
    exact ⟨fun h => ⟨⟨by simp, List.Pairwise.nil⟩, h⟩, fun h => h.2⟩
  | cons u us ih =>
    rw [useAll_cons, clashFree_cons_iff, and_assoc]
    cases h : s.use u with
    | ok s' =>
      obtain ⟨ha, rfl⟩ := use_eq_ok_iff.mp h
      exact ih.trans ⟨fun h => ⟨ha, h⟩, fun h => h.2⟩
    | error c =>
      refine ⟨fun h => by simp [Except.bind] at h, fun h' => ?_⟩
      rw [use_eq_ok_iff.mpr ⟨h'.1, rfl⟩] at h
      simp at h

/-- The order of a row does not matter for its freedom from clashes. -/
theorem ClashFree.perm {s : Scope} {us vs : List Use} (h : s.ClashFree us) (hp : us.Perm vs) :
    s.ClashFree vs :=
  ⟨fun u hu => h.admitted u (hp.mem_iff.mpr hu),
    (hp.pairwise_iff fun {_ _} => Use.Compatible.symm).mp h.compatible⟩

/-! ### Rows without a clash, by their names -/

theorem mem_declaredBy {us : List Use} {a : Signal} : a ∈ declaredBy us ↔ .declare a ∈ us := by
  simp only [declaredBy, List.mem_filterMap]
  constructor
  · rintro ⟨u, hu, h⟩
    cases u <;> simp_all [Use.declared?]
  · exact fun h => ⟨_, h, rfl⟩

theorem mem_referencedBy {us : List Use} {a : Signal} :
    a ∈ referencedBy us ↔ .reference a ∈ us := by
  simp only [referencedBy, List.mem_filterMap]
  constructor
  · rintro ⟨u, hu, h⟩
    cases u <;> simp_all [Use.referenced?]
  · exact fun h => ⟨_, h, rfl⟩

theorem mem_registeredBy {us : List Use} {a : Signal} :
    a ∈ registeredBy us ↔ .register a ∈ us := by
  simp only [registeredBy, List.mem_filterMap]
  constructor
  · rintro ⟨u, hu, h⟩
    cases u <;> simp_all [Use.registered?]
  · exact fun h => ⟨_, h, rfl⟩

/-- Uses go together in pairs if the registered names are distinct and have no other use. -/
theorem pairwise_compatible_iff {us : List Use} :
    us.Pairwise Use.Compatible ↔ (registeredBy us).Nodup ∧
      ∀ a ∈ registeredBy us, a ∉ declaredBy us ∧ a ∉ referencedBy us := by
  induction us with
  | nil => simp [registeredBy]
  | cons u us ih =>
    rw [List.pairwise_cons, ih]
    -- a name is kept from other uses only by being registered
    cases u with
    | declare a | reference a =>
      have hu : (∀ v ∈ us, Use.Compatible (.declare a) v) ↔ a ∉ registeredBy us := by
        rw [mem_registeredBy]
        refine ⟨fun h hm => by simpa [Use.registered?] using h _ hm rfl, fun h v hv e => ?_⟩
        cases v <;> simp_all [Use.name, Use.registered?]
      have hu' : (∀ v ∈ us, Use.Compatible (.reference a) v) ↔ a ∉ registeredBy us := by
        rw [← hu]
        rfl
      simp only [hu, hu']
      simp only [registeredBy, declaredBy, referencedBy, List.filterMap_cons, Use.registered?,
        Use.declared?, Use.referenced?, List.mem_cons, not_or]
      constructor
      · rintro ⟨ha, hn, hd⟩
        refine ⟨hn, fun b hb => ?_⟩
        have hne : b ≠ a := fun e => ha (e ▸ hb)
        have := hd b hb
        tauto
      · rintro ⟨hn, hd⟩
        exact ⟨fun ha => by have := hd a ha; tauto, hn, fun b hb => by have := hd b hb; tauto⟩
    | register a =>
      have hu : (∀ v ∈ us, Use.Compatible (.register a) v) ↔
          a ∉ registeredBy us ∧ a ∉ declaredBy us ∧ a ∉ referencedBy us := by
        rw [mem_registeredBy, mem_declaredBy, mem_referencedBy]
        constructor
        · intro h
          refine ⟨fun hm => ?_, fun hm => ?_, fun hm => ?_⟩ <;>
            simpa [Use.registered?] using h _ hm rfl
        · intro h v hv e
          cases v <;> simp_all [Use.name]
      rw [hu]
      simp only [registeredBy, declaredBy, referencedBy, List.filterMap_cons, Use.registered?,
        Use.declared?, Use.referenced?, List.mem_cons, List.nodup_cons, forall_eq_or_imp]
      tauto

/-- **Freedom from clashes by names.** -/
theorem clashFree_iff {s : Scope} {us : List Use} :
    s.ClashFree us ↔ (registeredBy us).Nodup ∧
      (∀ a ∈ registeredBy us, s.classify? a = none ∧ a ∉ declaredBy us ∧ a ∉ referencedBy us) ∧
      ∀ a, a ∈ declaredBy us ∨ a ∈ referencedBy us → a ∉ s.auxiliaries := by
  have hadm : (∀ u ∈ us, s.Admits u) ↔ (∀ a ∈ registeredBy us, s.classify? a = none) ∧
      ∀ a, a ∈ declaredBy us ∨ a ∈ referencedBy us → a ∉ s.auxiliaries := by
    simp only [mem_registeredBy, mem_declaredBy, mem_referencedBy]
    constructor
    · intro h
      refine ⟨fun a ha => h _ ha, fun a ha => ?_⟩
      rcases ha with ha | ha <;> exact h _ ha
    · rintro ⟨h₁, h₂⟩ u hu
      cases u with
      | declare a => exact h₂ a (.inl hu)
      | reference a => exact h₂ a (.inr hu)
      | register a => exact h₁ a hu
  constructor
  · rintro ⟨ha, hc⟩
    obtain ⟨hn, hd⟩ := pairwise_compatible_iff.mp hc
    obtain ⟨h₁, h₂⟩ := hadm.mp ha
    exact ⟨hn, fun a ha => ⟨h₁ a ha, hd a ha⟩, h₂⟩
  · rintro ⟨hn, h₁, h₂⟩
    exact ⟨hadm.mpr ⟨fun a ha => (h₁ a ha).1, h₂⟩,
      pairwise_compatible_iff.mpr ⟨hn, fun a ha => (h₁ a ha).2⟩⟩

end NetFlat.Scope
