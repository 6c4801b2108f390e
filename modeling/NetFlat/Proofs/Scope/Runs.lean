import NetFlat.Proofs.Scan.Order

/-!
# Runs of name uses

A scope that is changed in place takes in one use after the other, whether the ones before clashed
or not.

* `Use.perform`: a use as a program on the scope, first the check and then what is written;
  `attempt_eq` says that it answers what `Scope.use` does, and what it leaves;
* `run`: a row of uses, with the accepted ones and the clashes; `useAll_accepted_run` says that the
  accepted ones alone come to the same scope, without a clash;
* `classify?_run`: a name keeps its class along a run;
* `state_machine`: what follows for the auxiliary wires, the wires and the order of the uses.
-/

namespace NetFlat.Scope

def ofPorts (ports : List (Signal × SignalClass)) : Scope := { ports }

/-! ### Steps in place -/

def checkNotAuxiliary (a : Signal) : EStateM Clash Scope Unit := do
  if a ∈ (← get).auxiliaries then throw ⟨a, .auxiliaryWire⟩

/-- A use as a program on the scope.  What it has written before it stops remains. -/
def Use.perform : Use → EStateM Clash Scope Unit
  | declare a => do
    checkNotAuxiliary a
    modify fun s => { s with declared := s.declared.insert a }
  | reference a => do
    checkNotAuxiliary a
    modify fun s => { s with referenced := s.referenced.insert a }
  | register a => do
    if let some c := (← get).classify? a then throw ⟨a, c⟩
    modify fun s => { s with referenced := s.referenced.insert a }
    modify fun s => { s with auxiliaries := s.auxiliaries.insert a }

/-- What a step answers, and the scope that it leaves. -/
def attempt (s : Scope) (u : Use) : EStateM.Result Clash Scope Unit := u.perform.run s

theorem run_checkNotAuxiliary (s : Scope) (a : Signal) : (checkNotAuxiliary a).run s =
    if a ∈ s.auxiliaries then .error ⟨a, .auxiliaryWire⟩ s else .ok () s := by
  by_cases h : a ∈ s.auxiliaries
  · simp [checkNotAuxiliary, h]
  · simp [checkNotAuxiliary, h]

/-- A step in place does what taking the use in does, and a clash leaves the scope as it was. -/
theorem attempt_eq (s : Scope) (u : Use) : s.attempt u =
    match s.use u with
    | .ok t => .ok () t
    | .error c => .error c s := by
  cases u with
  | declare a | reference a =>
    by_cases h : a ∈ s.auxiliaries
    · simp [attempt, Use.perform, use, declare, reference, run_checkNotAuxiliary, h]
    · simp [attempt, Use.perform, use, declare, reference, run_checkNotAuxiliary, h]
  | register a =>
    cases h : s.classify? a with
    | some c => simp [attempt, Use.perform, use, register, h]
    | none => simp [attempt, Use.perform, use, register, h]

/-! ### Runs -/

/-- What a run has come to. -/
structure Run where
  scope : Scope
  accepted : List Use
  clashes : List Clash

def run (s : Scope) : List Use → Run
  | [] => ⟨s, [], []⟩
  | u :: us =>
    match s.attempt u with
    | .ok _ t => { t.run us with accepted := u :: (t.run us).accepted }
    | .error c t => { t.run us with clashes := c :: (t.run us).clashes }

variable {s t : Scope} {u : Use} {us : List Use} {a : Signal} {c : SignalClass} {k : Clash}

theorem scope_of_attempt_eq_error (h : s.attempt u = .error k t) : t = s := by
  rw [attempt_eq] at h
  cases hu : s.use u with
  | ok t' => simp [hu] at h
  | error k' =>
    simp only [hu, EStateM.Result.error.injEq] at h
    exact h.2.symm

theorem run_cons_of_ok (h : s.use u = .ok t) (us : List Use) :
    s.run (u :: us) = { t.run us with accepted := u :: (t.run us).accepted } := by
  rw [run, attempt_eq, h]

theorem run_cons_of_error (h : s.use u = .error k) (us : List Use) :
    s.run (u :: us) = { s.run us with clashes := k :: (s.run us).clashes } := by
  rw [run, attempt_eq, h]

theorem scope_run_append (s : Scope) (us vs : List Use) :
    (s.run (us ++ vs)).scope = ((s.run us).scope.run vs).scope := by
  induction us generalizing s with
  | nil => rfl
  | cons u us ih =>
    rw [List.cons_append]
    cases h : s.use u with
    | ok t => rw [run_cons_of_ok h, run_cons_of_ok h, ih]
    | error k => rw [run_cons_of_error h, run_cons_of_error h, ih]

/-- The accepted uses come to the scope of the run without a clash. -/
theorem useAll_accepted_run (s : Scope) (us : List Use) :
    s.useAll (s.run us).accepted = .ok (s.run us).scope := by
  induction us generalizing s with
  | nil => rfl
  | cons u us ih =>
    cases h : s.use u with
    | ok t =>
      rw [run_cons_of_ok h, useAll_cons, h]
      exact ih t
    | error k =>
      rw [run_cons_of_error h]
      exact ih s

theorem accepted_run_subset (s : Scope) (us : List Use) : (s.run us).accepted ⊆ us := by
  induction us generalizing s with
  | nil => exact List.Subset.refl _
  | cons u us ih =>
    cases h : s.use u with
    | ok t =>
      rw [run_cons_of_ok h]
      exact List.cons_subset_cons u (ih t)
    | error k =>
      rw [run_cons_of_error h]
      exact List.subset_cons_of_subset u (ih s)

theorem clashes_run_eq_nil_iff : (s.run us).clashes = [] ↔ s.ClashFree us := by
  induction us generalizing s with
  | nil => exact ⟨fun _ => ⟨by simp, List.Pairwise.nil⟩, fun _ => rfl⟩
  | cons u us ih =>
    rw [clashFree_cons_iff]
    cases h : s.use u with
    | ok t =>
      obtain ⟨ha, rfl⟩ := use_eq_ok_iff.mp h
      rw [run_cons_of_ok h]
      exact ih.trans ⟨fun hf => ⟨ha, hf⟩, fun hf => hf.2⟩
    | error k =>
      rw [run_cons_of_error h]
      refine ⟨fun hk => absurd hk (List.cons_ne_nil _ _), fun ⟨ha, _⟩ => ?_⟩
      rw [use_eq_ok_iff.mpr ⟨ha, rfl⟩] at h
      cases h

/-! ### Classes -/

/-- A use that is admitted leaves the class of each name that has one. -/
theorem classify?_add (hu : s.Admits u) (h : s.classify? a = some c) :
    (s.add u).classify? a = some c := by
  have hp : (s.add u).portClass? a = s.portClass? a := by rw [portClass?, ports_add, portClass?]
  unfold classify? at h ⊢
  rw [hp]
  cases hpa : s.portClass? a with
  | some d => simpa only [hpa] using h
  | none =>
    simp only [hpa] at h ⊢
    cases u with
    | declare b | reference b =>
      by_cases hx : a ∈ s.auxiliaries
      · simpa [add, hx] using h
      · simp only [hx, if_false, Option.ite_none_right_eq_some] at h
        obtain ⟨hm, hc⟩ := h
        simp only [add, hx, if_false, List.mem_insert_iff]
        rw [if_pos (by tauto), hc]
    | register b =>
      have hab : a ≠ b := by
        rintro rfl
        obtain ⟨-, hd, hr, hx⟩ := classify?_eq_none_iff.mp hu
        simp [hd, hr, hx] at h
      simpa [add, List.mem_insert_iff, hab] using h

/-- **A name keeps its class** along a run. -/
theorem classify?_run (h : s.classify? a = some c) : (s.run us).scope.classify? a = some c := by
  induction us generalizing s with
  | nil => exact h
  | cons u us ih =>
    cases hu : s.use u with
    | ok t =>
      obtain ⟨hadm, rfl⟩ := use_eq_ok_iff.mp hu
      rw [run_cons_of_ok hu]
      exact ih (classify?_add hadm h)
    | error k =>
      rw [run_cons_of_error hu]
      exact ih h

/-- A clash is about the name of the use, which has a class already. -/
theorem classify?_of_use_eq_error (h : s.use u = .error k) : s.classify? u.name ≠ none := by
  intro hc
  have hadm : s.Admits u := by
    cases u with
    | declare b | reference b => exact (classify?_eq_none_iff.mp hc).2.2.2
    | register b => exact hc
  rw [use_eq_ok_iff.mpr ⟨hadm, rfl⟩] at h
  cases h

theorem classify?_add_name (s : Scope) (u : Use) : (s.add u).classify? u.name ≠ none := by
  rw [Ne, classify?_eq_none_iff]
  cases u <;> simp [add, Use.name]

/-- Each name of a run has a class at its end, also if all of its uses clashed. -/
theorem classify?_run_of_mem (hu : u ∈ us) : (s.run us).scope.classify? u.name ≠ none := by
  obtain ⟨before, after, rfl⟩ := List.append_of_mem hu
  rw [scope_run_append]
  generalize (s.run before).scope = t
  obtain ⟨d, hd⟩ : ∃ d, (t.run [u]).scope.classify? u.name = some d := by
    refine Option.ne_none_iff_exists'.mp ?_
    cases h : t.use u with
    | ok t' =>
      obtain ⟨-, rfl⟩ := use_eq_ok_iff.mp h
      rw [run_cons_of_ok h]
      exact classify?_add_name t u
    | error k =>
      rw [run_cons_of_error h]
      exact classify?_of_use_eq_error h
  have hc : ((t.run [u]).scope.run after).scope.classify? u.name = some d := classify?_run hd
  rw [← scope_run_append, List.singleton_append] at hc
  simp [hc]

/-! ### Names -/

theorem exists_name_iff : (∃ u ∈ us, u.name = a) ↔
    a ∈ declaredBy us ∨ a ∈ referencedBy us ∨ a ∈ registeredBy us := by
  rw [mem_declaredBy, mem_referencedBy, mem_registeredBy]
  constructor
  · rintro ⟨u, hu, rfl⟩
    cases u with
    | declare b => exact .inl hu
    | reference b => exact .inr (.inl hu)
    | register b => exact .inr (.inr hu)
  · rintro (h | h | h) <;> exact ⟨_, h, rfl⟩

variable (ports : List (Signal × SignalClass))

theorem classify?_ofPorts_eq_none_iff :
    (ofPorts ports).classify? a = none ↔ ∀ p ∈ ports, p.1 ≠ a := by
  simp [classify?_eq_none_iff, ofPorts]

/-- From the ports on, a row is clash free by the names that it registers alone. -/
theorem clashFree_ofPorts_iff : (ofPorts ports).ClashFree us ↔ (registeredBy us).Nodup ∧
    ∀ a ∈ registeredBy us, (∀ p ∈ ports, p.1 ≠ a) ∧ .declare a ∉ us ∧ .reference a ∉ us := by
  simp only [clashFree_iff, classify?_ofPorts_eq_none_iff, mem_declaredBy, mem_referencedBy]
  simp [ofPorts]

/-- An auxiliary wire of a run is no port, and nothing else of its name was accepted. -/
theorem disjoint_of_mem_auxiliaries_run (h : a ∈ ((ofPorts ports).run us).scope.auxiliaries) :
    (∀ p ∈ ports, p.1 ≠ a) ∧ .declare a ∉ ((ofPorts ports).run us).accepted ∧
      .reference a ∉ ((ofPorts ports).run us).accepted := by
  obtain ⟨hfree, hs⟩ := useAll_eq_ok_iff.mp (useAll_accepted_run (ofPorts ports) us)
  rw [hs, mem_auxiliaries_addAll] at h
  have hreg : a ∈ registeredBy ((ofPorts ports).run us).accepted := by simpa [ofPorts] using h
  exact ((clashFree_ofPorts_iff ports).mp hfree).2 a hreg

/-- The wires that a run from the ports comes to, by the accepted uses. -/
theorem mem_wires_run_iff : a ∈ ((ofPorts ports).run us).scope.wires ↔
    (∃ u ∈ ((ofPorts ports).run us).accepted, u.name = a) ∧ ∀ p ∈ ports, p.1 ≠ a := by
  obtain ⟨-, hs⟩ := useAll_eq_ok_iff.mp (useAll_accepted_run (ofPorts ports) us)
  rw [hs, mem_wires, mem_declared_addAll, mem_referenced_addAll, mem_auxiliaries_addAll,
    ports_addAll, exists_name_iff]
  simp only [ofPorts, List.not_mem_nil, false_or, or_assoc, or_self]

/-- The wires are the names of all uses, since a use that clashes is of a name in use. -/
theorem mem_wires_run_iff_exists : a ∈ ((ofPorts ports).run us).scope.wires ↔
    (∃ u ∈ us, u.name = a) ∧ ∀ p ∈ ports, p.1 ≠ a := by
  constructor
  · intro h
    obtain ⟨⟨u, hu, rfl⟩, hp⟩ := (mem_wires_run_iff ports).mp h
    exact ⟨⟨u, accepted_run_subset _ us hu, rfl⟩, hp⟩
  · rintro ⟨⟨u, hu, rfl⟩, hp⟩
    have hports : ((ofPorts ports).run us).scope.ports = ports := by
      obtain ⟨-, hs⟩ := useAll_eq_ok_iff.mp (useAll_accepted_run (ofPorts ports) us)
      rw [hs, ports_addAll, ofPorts]
    have hc := classify?_run_of_mem (s := ofPorts ports) hu
    rw [Ne, classify?_eq_none_iff, hports] at hc
    rw [mem_wires, hports]
    tauto

/-! ### The state machine -/

/-- **The state machine of names.** A step that clashes leaves the scope as it was.  After any run
from the ports, no auxiliary wire is a port or the name of an accepted declaration or reference,
names keep their classes in whatever follows, and the wires are the names of the accepted uses
without the ports, in strictly ascending order.  There is no clash exactly if the names registered
anywhere in the row are distinct, no ports and used in no other way by the row; so the order of the
row matters neither for that nor for the wires. -/
theorem state_machine :
    (∀ (s t : Scope) (u : Use) (k : Clash), s.attempt u = .error k t → t = s) ∧
      (∀ a ∈ ((ofPorts ports).run us).scope.auxiliaries, (∀ p ∈ ports, p.1 ≠ a) ∧
        .declare a ∉ ((ofPorts ports).run us).accepted ∧
          .reference a ∉ ((ofPorts ports).run us).accepted) ∧
      (∀ vs a c, ((ofPorts ports).run us).scope.classify? a = some c →
        ((ofPorts ports).run (us ++ vs)).scope.classify? a = some c) ∧
      ((ofPorts ports).run us).scope.wires.Pairwise (· < ·) ∧
      (∀ a, a ∈ ((ofPorts ports).run us).scope.wires ↔
        (∃ u ∈ ((ofPorts ports).run us).accepted, u.name = a) ∧ ∀ p ∈ ports, p.1 ≠ a) ∧
      (((ofPorts ports).run us).clashes = [] ↔ (registeredBy us).Nodup ∧
        ∀ a ∈ registeredBy us, (∀ p ∈ ports, p.1 ≠ a) ∧ .declare a ∉ us ∧ .reference a ∉ us) ∧
      ∀ vs, us.Perm vs →
        (((ofPorts ports).run us).clashes = [] ↔ ((ofPorts ports).run vs).clashes = []) ∧
          ((ofPorts ports).run us).scope.wires = ((ofPorts ports).run vs).scope.wires := by
  refine ⟨fun s t u k h => ?_, fun a ha => disjoint_of_mem_auxiliaries_run ports ha,
    fun vs a c h => ?_, pairwise_wires _, fun a => mem_wires_run_iff ports,
    clashes_run_eq_nil_iff.trans (clashFree_ofPorts_iff ports), fun vs hp => ⟨?_, ?_⟩⟩
  · exact scope_of_attempt_eq_error h
  · rw [scope_run_append]
    exact classify?_run h
  · rw [clashes_run_eq_nil_iff, clashes_run_eq_nil_iff]
    exact ⟨fun h => h.perm hp, fun h => h.perm hp.symm⟩
  · refine wires_eq fun a => ?_
    rw [mem_wires_run_iff_exists, mem_wires_run_iff_exists]
    simp only [hp.mem_iff]

/-- A row that declares `n`, registers `n_neg`, registers `n` and refers to `n_neg`, of which the last
two clash, and refers to a port. -/
def sampleRow : List Use :=
  [.declare ⟨"n".toList⟩, .register ⟨"n_neg".toList⟩, .register ⟨"n".toList⟩,
    .reference ⟨"n_neg".toList⟩, .reference ⟨"a".toList⟩]

def samplePorts : List (Signal × SignalClass) := [(⟨"a".toList⟩, .inputPort)]

theorem state_machine_sampleRow :
    ((ofPorts samplePorts).run sampleRow).clashes =
        [⟨⟨"n".toList⟩, .wire⟩, ⟨⟨"n_neg".toList⟩, .auxiliaryWire⟩] ∧
      ((ofPorts samplePorts).run sampleRow).scope.auxiliaries = [⟨"n_neg".toList⟩] ∧
      .declare ⟨"n_neg".toList⟩ ∉ ((ofPorts samplePorts).run sampleRow).accepted ∧
      (∀ vs, ((ofPorts samplePorts).run (sampleRow ++ vs)).scope.classify? ⟨"a".toList⟩ =
        some .inputPort) ∧
      ∀ vs, sampleRow.Perm vs → ((ofPorts samplePorts).run vs).clashes ≠ [] ∧
        ((ofPorts samplePorts).run vs).scope.wires = [⟨"n".toList⟩, ⟨"n_neg".toList⟩] := by
  obtain ⟨-, hdisj, hclass, -, -, -, hperm⟩ := @state_machine sampleRow samplePorts
  have hclashes : ((ofPorts samplePorts).run sampleRow).clashes =
      [⟨⟨"n".toList⟩, .wire⟩, ⟨⟨"n_neg".toList⟩, .auxiliaryWire⟩] := by decide
  have haux : ((ofPorts samplePorts).run sampleRow).scope.auxiliaries = [⟨"n_neg".toList⟩] := by
    decide
  refine ⟨hclashes, haux, (hdisj _ (by simp [haux])).2.1, fun vs => hclass vs _ _ (by decide),
    fun vs hp => ⟨fun h => ?_, ?_⟩⟩
  · exact List.cons_ne_nil _ _ (hclashes.symm.trans ((hperm vs hp).1.mpr h))
  · rw [← (hperm vs hp).2]
    decide

end NetFlat.Scope
