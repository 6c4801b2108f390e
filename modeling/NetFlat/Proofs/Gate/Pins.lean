import Mathlib.Data.List.Induction
import NetFlat.Proofs.Gate.Places

/-!
# The pins of a gate

A gate is made of connections that name each pin of its cell once.  Other connections are refused at
the first of them that names no pin of the cell, or a pin named in front of it already, and at the
gate itself if there is no such connection but a pin is left out.

* `Cell.Admits`, `Gate.admits_or_misfit`: connections that name pins once, and others;
* `Gate.Misfit`, `Gate.ofConnections_eq_error_iff`: what is refused, where and in which words;
* `Gate.ofConnections_eq_ok_iff`, `Gate.perm_pins_iff`: what is accepted.
-/

namespace NetFlat

variable {cell : Cell} {name : Text} {cs before after : List Connection} {c : Connection}
  {line : Line} {f : Failure} {g : Gate}

/-! ### Pins named once -/

/-- The connections name pins of the cell, none of them twice. -/
structure Cell.Admits (cell : Cell) (cs : List Connection) : Prop where
  pins : ∀ c ∈ cs, c.pin ∈ cell.pins
  nodup : (cs.map (·.pin)).Nodup

namespace Cell

theorem admits_nil (cell : Cell) : cell.Admits [] := ⟨by simp, List.nodup_nil⟩

theorem admits_concat_iff : cell.Admits (before ++ [c]) ↔
    cell.Admits before ∧ c.pin ∈ cell.pins ∧ c.pin ∉ before.map (·.pin) := by
  have hpins : (∀ d ∈ before ++ [c], d.pin ∈ cell.pins) ↔
      (∀ d ∈ before, d.pin ∈ cell.pins) ∧ c.pin ∈ cell.pins := by
    rw [List.forall_mem_append, List.forall_mem_singleton]
  have hnodup : ((before ++ [c]).map (·.pin)).Nodup ↔
      (before.map (·.pin)).Nodup ∧ c.pin ∉ before.map (·.pin) := by
    rw [List.map_append, List.map_singleton, List.nodup_append]
    refine and_congr_right fun _ => ⟨fun h hc => h.2 _ hc _ (List.mem_singleton_self _) rfl, ?_⟩
    rintro hc
    refine ⟨by simp, fun p hp q hq => ?_⟩
    rw [List.mem_singleton.mp hq]
    exact fun e => hc (e ▸ hp)
  constructor
  · rintro ⟨hp, hn⟩
    exact ⟨⟨(hpins.mp hp).1, (hnodup.mp hn).1⟩, (hpins.mp hp).2, (hnodup.mp hn).2⟩
  · rintro ⟨⟨hp, hn⟩, hc, hnew⟩
    exact ⟨hpins.mpr ⟨hp, hc⟩, hnodup.mpr ⟨hn, hnew⟩⟩

theorem Admits.of_append (h : cell.Admits (before ++ after)) : cell.Admits before := by
  refine ⟨fun c hc => h.pins c (List.mem_append_left _ hc), ?_⟩
  have hn := h.nodup
  rw [List.map_append] at hn
  exact (List.nodup_append.mp hn).1

/-- Of connections that do not name pins once, there is a first one at fault. -/
theorem admits_or_fault (cell : Cell) (cs : List Connection) : cell.Admits cs ∨
    ∃ before c after, cs = before ++ c :: after ∧ cell.Admits before ∧
      (c.pin ∉ cell.pins ∨ c.pin ∈ cell.pins ∧ c.pin ∈ before.map (·.pin)) := by
  induction cs using List.reverseRecOn with
  | nil => exact .inl (admits_nil cell)
  | append_singleton cs c ih =>
    rcases ih with hcs | ⟨before, d, after, rfl, hbefore, hd⟩
    · by_cases hpin : c.pin ∈ cell.pins
      · by_cases hnew : c.pin ∈ cs.map (·.pin)
        · exact .inr ⟨cs, c, [], rfl, hcs, .inr ⟨hpin, hnew⟩⟩
        · exact .inl (admits_concat_iff.mpr ⟨hcs, hpin, hnew⟩)
      · exact .inr ⟨cs, c, [], rfl, hcs, .inl hpin⟩
    · exact .inr ⟨before, d, after ++ [c], by simp, hbefore, hd⟩

theorem connected_or_missing (cell : Cell) (cs : List Connection) :
    (∀ pin ∈ cell.pins, pin ∈ cs.map (·.pin)) ∨
    ∃ before pin after, cell.pins = before ++ pin :: after ∧
      (∀ p ∈ before, p ∈ cs.map (·.pin)) ∧ pin ∉ cs.map (·.pin) := by
  cases h : cell.pins.find? (· ∉ cs.map (·.pin)) with
  | none => exact .inl fun pin hp => by simpa using List.find?_eq_none.mp h pin hp
  | some pin =>
    obtain ⟨hpin, before, after, hsplit, hbefore⟩ := List.find?_eq_some_iff_append.mp h
    exact .inr ⟨before, pin, after, hsplit, fun p hp => by simpa using hbefore p hp,
      by simpa using hpin⟩

end Cell

namespace Gate

/-! ### The first fault -/

theorem misconnected?_append (cell : Cell) (name : Text) (rest : List Connection)
    (h : cell.Admits (before ++ after)) :
    misconnected? cell name (before.map (·.pin)).reverse (after ++ rest) =
      misconnected? cell name ((before ++ after).map (·.pin)).reverse rest := by
  induction after generalizing before with
  | nil => simp
  | cons c after ih =>
    have hsplit : before ++ c :: after = before ++ [c] ++ after := by simp
    rw [hsplit] at h ⊢
    obtain ⟨-, hpin, hnew⟩ := Cell.admits_concat_iff.mp h.of_append
    have hseen : c.pin :: (before.map (·.pin)).reverse =
        ((before ++ [c]).map (·.pin)).reverse := by simp
    rw [List.cons_append, misconnected?_cons, if_neg (not_not.mpr hpin),
      if_neg (by simpa using hnew), hseen, ih h]

theorem misconnected?_of_admits (name : Text) (h : cell.Admits cs) :
    misconnected? cell name [] cs = none := by
  have happend := @misconnected?_append [] cs cell name [] h
  rwa [List.append_nil] at happend

theorem misconnected?_of_fault (name : Text) (after : List Connection)
    (h : cell.Admits before) :
    misconnected? cell name [] (before ++ c :: after) =
      misconnected? cell name (before.map (·.pin)).reverse (c :: after) :=
  @misconnected?_append [] before cell name (c :: after) h

/-! ### Connections that are refused -/

/-- What connections are refused for: the first of them that names no pin of the cell or a pin named
in front of it, or, where there is none, the first pin of the cell that is left out. -/
inductive Misfit (cell : Cell) (name : Text) (line : Line) : List Connection → Failure → Prop
  | unknown {before after : List Connection} {c : Connection} (hbefore : cell.Admits before)
      (hc : c.pin ∉ cell.pins) :
      Misfit cell name line (before ++ c :: after)
        ((PinFault.unknown cell.keyword c.pin).toFailure c.line)
  | repeated {before after : List Connection} {c : Connection} (hbefore : cell.Admits before)
      (hc : c.pin ∈ before.map (·.pin)) :
      Misfit cell name line (before ++ c :: after)
        ((PinFault.repeated name c.pin).toFailure c.line)
  | missing {before after : List Text} {pin : Text} {cs : List Connection} (hcs : cell.Admits cs)
      (hpins : cell.pins = before ++ pin :: after) (hbefore : ∀ p ∈ before, p ∈ cs.map (·.pin))
      (hpin : pin ∉ cs.map (·.pin)) :
      Misfit cell name line cs ((PinFault.missing cell.keyword name pin).toFailure line)

theorem all_pin_ne_iff {pin : Text} :
    cs.all (·.pin ≠ pin) = true ↔ pin ∉ cs.map (·.pin) := by
  simp only [List.all_eq_true, decide_eq_true_eq, List.mem_map, not_exists, not_and, ne_eq]

theorem ofConnections_of_misfit (h : Misfit cell name line cs f) :
    ofConnections cell name cs line = .error f := by
  unfold ofConnections
  cases h with
  | unknown hbefore hc =>
    rw [misconnected?_of_fault name _ hbefore, misconnected?_cons, if_pos hc]
  | @repeated before after c hbefore hc =>
    have hpin : c.pin ∈ cell.pins := by
      obtain ⟨d, hd, hdc⟩ := List.mem_map.mp hc
      exact hdc ▸ hbefore.pins d hd
    rw [misconnected?_of_fault name _ hbefore, misconnected?_cons, if_neg (not_not.mpr hpin),
      if_pos (by simpa using hc)]
  | @missing before after pin _ hcs hpins hbefore hpin =>
    have hfind : (cell.pins.find? fun pin => cs.all (·.pin ≠ pin)) = some pin := by
      refine List.find?_eq_some_iff_append.mpr ⟨all_pin_ne_iff.mpr hpin, before, after, hpins, ?_⟩
      intro p hp
      rw [Bool.not_eq_true', Bool.eq_false_iff, ne_eq, all_pin_ne_iff, not_not]
      exact hbefore p hp
    rw [misconnected?_of_admits name hcs]
    dsimp only
    rw [hfind]

theorem ofConnections_of_admits (h : cell.Admits cs)
    (hall : ∀ pin ∈ cell.pins, pin ∈ cs.map (·.pin)) :
    ofConnections cell name cs line = .ok ⟨cell, name, cs, line⟩ := by
  have hfind : (cell.pins.find? fun pin => cs.all (·.pin ≠ pin)) = none := by
    refine List.find?_eq_none.mpr fun pin hp => ?_
    rw [all_pin_ne_iff, not_not]
    exact hall pin hp
  unfold ofConnections
  rw [misconnected?_of_admits name h]
  dsimp only
  rw [hfind]

theorem admits_or_misfit (cell : Cell) (name : Text) (line : Line) (cs : List Connection) :
    (cell.Admits cs ∧ ∀ pin ∈ cell.pins, pin ∈ cs.map (·.pin)) ∨
      ∃ f, Misfit cell name line cs f := by
  rcases cell.admits_or_fault cs with hcs | ⟨before, c, after, rfl, hbefore, hc | ⟨-, hc⟩⟩
  · rcases cell.connected_or_missing cs with hall | ⟨before, pin, after, hpins, hbefore, hpin⟩
    · exact .inl ⟨hcs, hall⟩
    · exact .inr ⟨_, .missing hcs hpins hbefore hpin⟩
  · exact .inr ⟨_, .unknown hbefore hc⟩
  · exact .inr ⟨_, .repeated hbefore hc⟩

/-- **Refused connections.** -/
theorem ofConnections_eq_error_iff :
    ofConnections cell name cs line = .error f ↔ Misfit cell name line cs f := by
  refine ⟨fun h => ?_, ofConnections_of_misfit⟩
  rcases admits_or_misfit cell name line cs with ⟨hcs, hall⟩ | ⟨f', hf'⟩
  · simp [ofConnections_of_admits hcs hall] at h
  · obtain rfl := Except.error.inj ((ofConnections_of_misfit hf').symm.trans h)
    exact hf'

/-- **Accepted connections** name each pin, and none twice. -/
theorem ofConnections_eq_ok_iff : ofConnections cell name cs line = .ok g ↔
    (cell.Admits cs ∧ ∀ pin ∈ cell.pins, pin ∈ cs.map (·.pin)) ∧ g = ⟨cell, name, cs, line⟩ := by
  constructor
  · intro h
    rcases admits_or_misfit cell name line cs with ⟨hcs, hall⟩ | ⟨f, hf⟩
    · exact ⟨⟨hcs, hall⟩,
        Except.ok.inj (h.symm.trans (ofConnections_of_admits hcs hall))⟩
    · simp [ofConnections_of_misfit hf] at h
  · rintro ⟨⟨hcs, hall⟩, rfl⟩
    exact ofConnections_of_admits hcs hall

/-- For a cell whose pins have names of their own, they are a permutation of the pins. -/
theorem perm_pins_iff (hn : cell.pins.Nodup) : (cs.map (·.pin)).Perm cell.pins ↔
    cell.Admits cs ∧ ∀ pin ∈ cell.pins, pin ∈ cs.map (·.pin) := by
  constructor
  · intro h
    refine ⟨⟨fun c hc => h.subset (List.mem_map_of_mem hc), h.nodup_iff.mpr hn⟩, ?_⟩
    exact fun pin hp => h.symm.subset hp
  · rintro ⟨⟨hpins, hcs⟩, hall⟩
    refine (List.perm_ext_iff_of_nodup hcs hn).mpr fun pin => ⟨fun hp => ?_, hall pin⟩
    obtain ⟨c, hc, rfl⟩ := List.mem_map.mp hp
    exact hpins c hc

end Gate

end NetFlat
