import NetFlat.Proofs.Gate.Places
import NetFlat.Scan.Step

/-!
# The lines of a gate

A connection stands on a line of its statement, and a statement that fails does so at one of its
lines or at its place as a whole.

* `Connection.suffix_of_closing?`, `Connection.suffix_of_afterDot`: what a reader leaves;
* `Connection.line_of_read_eq_ok`, `Connection.line_of_read_eq_error`: the lines of connections;
* `Scan.line_of_placeGate_eq_error`: the line of the failure of a statement.
-/

namespace NetFlat

namespace Connection

/-! ### What readers leave -/

theorem suffix_of_closing? {depth : Nat} {ps rest : List Placement} {t : Text}
    (h : closing? depth ps = some (t, rest)) : rest <:+ ps := by
  induction ps generalizing depth t with
  | nil => simp [closing?] at h
  | cons p ps ih =>
    -- but for the bracket that is looked for, the character goes to the text
    have hmap {d : Nat} (hd : (closing? d ps).map (fun r => (p.char :: r.1, r.2)) = some (t, rest)) :
        rest <:+ p :: ps := by
      obtain ⟨⟨u, rest'⟩, hr, he⟩ := Option.map_eq_some_iff.mp hd
      obtain ⟨-, rfl⟩ := Prod.mk.inj he
      exact (ih hr).trans (List.suffix_cons p ps)
    by_cases ho : p.char = '('
    · rw [closing?_open ho] at h
      exact hmap h
    by_cases hc : p.char = ')'
    · rw [closing?_close hc] at h
      cases depth with
      | zero =>
        obtain ⟨-, rfl⟩ := Prod.mk.inj (Option.some.inj h)
        exact List.suffix_cons p ps
      | succ depth => exact hmap h
    · rw [closing?_other ho hc] at h
      exact hmap h

theorem suffix_of_afterDot {ps rest : List Placement} {pin reference : Text}
    (h : afterDot ps = .connection pin reference rest) : rest <:+ ps := by
  simp only [afterDot] at h
  split at h
  · simp at h
  · next p inside hp =>
    split at h
    · split at h
      · next t r hc =>
        obtain ⟨-, -, rfl⟩ := AfterDot.connection.inj h
        have hinside : p :: inside <:+ ps :=
          hp ▸ (List.dropWhile_suffix _).trans (List.dropWhile_suffix _)
        exact (suffix_of_closing? hc).trans ((List.suffix_cons p inside).trans hinside)
      · simp at h
    · simp at h

/-! ### The lines of connections -/

theorem line_of_readAll (ps : List Placement) :
    (∀ cs, readAll ps = .ok cs → ∀ c ∈ cs, c.line ∈ ps.map (·.line)) ∧
      ∀ f, readAll ps = .error f → f.line ∈ ps.map (·.line) := by
  induction ps using readAll.induct with
  | case1 =>
    rw [readAll_nil]
    exact ⟨fun cs h c hc => by simp [← Except.ok.inj h] at hc, fun f h => by simp at h⟩
  | case2 p ps hp pin reference rest hd _ ih =>
    have hsub {l : Line} (hl : l ∈ rest.map (·.line)) : l ∈ (p :: ps).map (·.line) :=
      List.mem_cons_of_mem _ (((suffix_of_afterDot hd).map _).subset hl)
    rw [readAll_cons, if_pos hp, hd]
    constructor
    · intro cs h c hc
      obtain ⟨cs', hcs, rfl⟩ := map_eq_ok_iff.mp h
      rcases List.mem_cons.mp hc with rfl | hc
      · exact List.mem_cons_self ..
      · exact hsub (ih.1 cs' hcs c hc)
    · exact fun f h => hsub (ih.2 f (map_eq_error_iff.mp h))
  | case3 p ps hp pin hd =>
    rw [readAll_cons, if_pos hp, hd]
    refine ⟨fun cs h => by simp at h, fun f h => ?_⟩
    obtain rfl := Except.error.inj h
    exact List.mem_cons_self ..
  | case4 p ps hp hd ih =>
    rw [readAll_cons, if_pos hp, hd]
    exact ⟨fun cs h c hc => List.mem_cons_of_mem _ (ih.1 cs h c hc),
      fun f h => List.mem_cons_of_mem _ (ih.2 f h)⟩
  | case5 p ps hp ih =>
    rw [readAll_cons, if_neg hp]
    exact ⟨fun cs h c hc => List.mem_cons_of_mem _ (ih.1 cs h c hc),
      fun f h => List.mem_cons_of_mem _ (ih.2 f h)⟩

variable {lines : List (Text × Line)} {cs : List Connection} {f : Failure}

/-- The characters that connections are read from stand on the lines of the statement. -/
theorem mem_of_mem_placements {l : Line}
    (h : l ∈ (((placements lines).dropWhile (·.char ≠ '(')).tail.map (·.line))) :
    l ∈ lines.map Prod.snd := by
  obtain ⟨p, hp, rfl⟩ := List.mem_map.mp h
  have hp' : p ∈ placements lines :=
    ((List.tail_suffix _).trans (List.dropWhile_suffix _)).subset hp
  obtain ⟨l, hl, hpl⟩ := List.mem_flatMap.mp hp'
  obtain ⟨c, -, rfl⟩ := List.mem_map.mp hpl
  exact List.mem_map.mpr ⟨l, hl, rfl⟩

theorem line_of_read_eq_ok (h : read lines = .ok cs) {c : Connection} (hc : c ∈ cs) :
    c.line ∈ lines.map Prod.snd :=
  mem_of_mem_placements ((line_of_readAll _).1 cs h c hc)

theorem line_of_read_eq_error (h : read lines = .error f) : f.line ∈ lines.map Prod.snd :=
  mem_of_mem_placements ((line_of_readAll _).2 f h)

/-! ### The lines of failures -/

variable {config : Config} {c : Connection} {s : Scope}

theorem line_of_enter_eq_error {a : Signal} (h : c.enter a s = .error f) : f.line = c.line := by
  obtain ⟨clash, rfl⟩ := enter_eq_error h
  rfl

theorem line_of_operand_eq_error (h : c.operand config s = .error f) : f.line = c.line := by
  unfold operand at h
  split at h
  · obtain rfl := Except.error.inj h
    rfl
  · exact line_of_enter_eq_error (map_eq_error_iff.mp h)
  · simp at h

theorem line_of_driven_eq_error (h : c.driven config s = .error f) : f.line = c.line := by
  unfold driven at h
  split at h
  · obtain rfl := Except.error.inj h
    rfl
  · exact line_of_enter_eq_error (map_eq_error_iff.mp h)

end Connection

namespace Gate

variable {cell : Cell} {name : Text} {cs : List Connection} {line : Line} {f : Failure}

theorem line_of_misconnected? {seen : List Text} (h : misconnected? cell name seen cs = some f) :
    f.line ∈ cs.map (·.line) := by
  induction cs generalizing seen with
  | nil =>
    change none = some f at h
    simp at h
  | cons c cs ih =>
    rw [misconnected?_cons] at h
    split at h
    · obtain rfl := Option.some.inj h
      exact List.mem_cons_self ..
    · split at h
      · obtain rfl := Option.some.inj h
        exact List.mem_cons_self ..
      · exact List.mem_cons_of_mem _ (ih h)

theorem line_of_ofConnections_eq_error (h : ofConnections cell name cs line = .error f) :
    f.line = line ∨ f.line ∈ cs.map (·.line) := by
  unfold ofConnections at h
  split at h
  · next hm =>
    obtain rfl := Except.error.inj h
    exact .inr (line_of_misconnected? hm)
  · split at h
    · obtain rfl := Except.error.inj h
      exact .inl rfl
    · simp at h

theorem lines_of_ofConnections {gate : Gate} (h : ofConnections cell name cs line = .ok gate) :
    gate.line = line ∧ gate.connections = cs := by
  unfold ofConnections at h
  split at h
  · simp at h
  · split at h
    · simp at h
    · obtain rfl := Except.ok.inj h
      exact ⟨rfl, rfl⟩

variable {config : Config} {gate : Gate} {s : Scope}

theorem line_of_connection {pin : Text} {c : Connection} (h : gate.connection pin = .ok c) :
    c.line ∈ gate.connections.map (·.line) :=
  List.mem_map.mpr ⟨c, List.mem_of_find?_eq_some (connection_eq_ok_iff.mp h), rfl⟩

theorem line_of_connection_eq_error {pin : Text} (h : gate.connection pin = .error f) :
    f.line = gate.line := by
  unfold connection at h
  split at h
  · simp at h
  · obtain rfl := Except.error.inj h
    rfl

theorem line_of_operands_eq_error {pins : List Text}
    (h : gate.operands config pins s = .error f) :
    f.line = gate.line ∨ f.line ∈ gate.connections.map (·.line) := by
  induction pins generalizing s with
  | nil => simp [operands] at h
  | cons pin pins ih =>
    simp only [operands, bind_eq_error_iff] at h
    rcases h with h | ⟨c, hc, h | ⟨⟨e, s₁⟩, -, h | ⟨r, -, h⟩⟩⟩
    · exact .inl (line_of_connection_eq_error h)
    · exact .inr (Connection.line_of_operand_eq_error h ▸ line_of_connection hc)
    · exact ih h
    · simp [pure, Except.pure] at h

theorem line_of_place_eq_error (h : gate.place config s = .error f) :
    f.line = gate.line ∨ f.line ∈ gate.connections.map (·.line) := by
  rw [place_eq] at h
  simp only [bind_eq_error_iff] at h
  rcases h with h | ⟨⟨es, s₁⟩, -, h | ⟨c, hc, h | ⟨⟨a, s₂⟩, -, h⟩⟩⟩
  · exact line_of_operands_eq_error h
  · exact .inl (line_of_connection_eq_error h)
  · exact .inr (Connection.line_of_driven_eq_error h ▸ line_of_connection hc)
  · unfold Placed.enterAuxiliary at h
    split at h
    · simp at h
    · split at h
      · simp at h
      · obtain rfl := Except.error.inj h
        exact .inl rfl

end Gate

/-- **Where a statement fails**: at its place as a whole, or at one of its lines. -/
theorem Scan.line_of_placeGate_eq_error {config : Config} {cell : Cell} {g : OpenGate} {s : Scope}
    {f : Failure} (h : placeGate config cell g s = .error f) :
    f.line = g.location ∨ f.line ∈ g.lines.map Prod.snd := by
  simp only [placeGate, bind_eq_error_iff] at h
  rcases h with h | ⟨cs, hcs, h | ⟨gate, hg, h⟩⟩
  · exact .inr (Connection.line_of_read_eq_error h)
  all_goals
    have hmem {l : Line} (hl : l ∈ cs.map (·.line)) : l ∈ g.lines.map Prod.snd := by
      obtain ⟨c, hc, rfl⟩ := List.mem_map.mp hl
      exact Connection.line_of_read_eq_ok hcs hc
  · exact (Gate.line_of_ofConnections_eq_error h).imp id hmem
  · obtain ⟨hline, rfl⟩ := Gate.lines_of_ofConnections hg
    exact (hline ▸ Gate.line_of_place_eq_error h).imp id hmem

end NetFlat
