import NetFlat.Proofs.Flattening
import NetFlat.Proofs.Gate.Wiring

/-!
# The order of the connections of a gate

The connections of a gate may be written in any order: placing the gate takes its pins in the order
of the catalog, so it takes the same names into the scope in the same order, and it fails for the
same cause if it does.  On the lines of the connections only the place of a failure depends.

* `Gate.Wired.place_eq_of_perm`: connections in another order;
* `Gate.Wired.outcome_eq_of_perm`: connections in another order, on any lines;
* `pins_of_gate`: which connections make a gate, and that their order plays no part.
-/

namespace NetFlat

/-- The pin and the reference of a connection, on whatever line it stands. -/
def Connection.wiring (c : Connection) : Text × Text := (c.pin, c.reference)

namespace Gate

variable {config : Config} {g h : Gate} {s : Scope}

/-! ### Connections in another order -/

theorem Wired.connection_eq_of_perm (hg : g.Wired) (hh : h.Wired)
    (hp : g.connections.Perm h.connections) {pin : Text} (hpin : pin ∈ g.cell.pins) :
    g.connection pin = h.connection pin := by
  obtain ⟨c, hc, hcp⟩ := hg.connected pin hpin
  have hgc : g.connection? pin = some c := hg.connection?_eq_some_iff.mpr ⟨hc, hcp⟩
  have hhc : h.connection? pin = some c :=
    hh.connection?_eq_some_iff.mpr ⟨hp.subset hc, hcp⟩
  rw [connection_eq_ok_iff.mpr hgc, connection_eq_ok_iff.mpr hhc]

theorem operands_congr {pins : List Text}
    (hc : ∀ pin ∈ pins, g.connection pin = h.connection pin) :
    g.operands config pins s = h.operands config pins s := by
  induction pins generalizing s with
  | nil => rfl
  | cons pin pins ih =>
    have hrest (t : Scope) : g.operands config pins t = h.operands config pins t :=
      ih fun p hp => hc p (List.mem_cons_of_mem _ hp)
    simp only [operands, hc pin List.mem_cons_self, hrest]

/-- **The order of connections** plays no part in placing a gate. -/
theorem Wired.place_eq_of_perm (hg : g.Wired) (hh : h.Wired) (hcell : g.cell = h.cell)
    (hline : g.line = h.line) (hp : g.connections.Perm h.connections) :
    g.place config s = h.place config s := by
  have hconn : ∀ pin ∈ g.cell.pins, g.connection pin = h.connection pin :=
    fun pin => hg.connection_eq_of_perm hh hp
  have hout := hconn g.cell.output (by simp [Cell.pins])
  have hin : g.operands config g.cell.inputs s = h.operands config g.cell.inputs s :=
    operands_congr fun pin hpin => hconn pin (List.mem_append_left _ hpin)
  rw [place_eq, place_eq, hin, hout, hcell, hline]

/-! ### Connections on other lines -/

theorem Wired.relocate (hg : g.Wired) (r : Relocation) : (g.relocate r).Wired := by
  have hpins : (g.relocate r).connections.map (·.pin) = g.connections.map (·.pin) :=
    List.map_map
  refine ⟨fun c hc => ?_, ?_, fun pin hpin => ?_⟩
  · obtain ⟨d, hd, rfl⟩ := List.mem_map.mp hc
    exact hg.pins d hd
  · rw [hpins]
    exact hg.nodup
  · obtain ⟨c, hc, hcp⟩ := hg.connected pin hpin
    exact ⟨c.relocate r, List.mem_map_of_mem hc, hcp⟩

/-- What placing a gate comes to, lines apart: its assignments and the names in use, or the cause of
the failure. -/
def outcome (config : Config) (g : Gate) (s : Scope) : Except Cause (List Assignment × Scope) :=
  ((g.place config s).map fun x => (x.1.assignments, x.2)).mapError Failure.cause

theorem outcome_relocate (r : Relocation) (g : Gate) :
    (g.relocate r).outcome config s = g.outcome config s := by
  unfold outcome
  rw [place_relocate]
  cases g.place config s <;> rfl

/-- Without their lines, connections that agree in pins and references are the same. -/
theorem map_relocate_erase (cs : List Connection) :
    cs.map (Connection.relocate .erase) =
      (cs.map Connection.wiring).map fun p => ⟨p.1, p.2, .none⟩ := by
  rw [List.map_map]
  rfl

/-- **Order and lines of connections** play no part in what a gate comes to. -/
theorem Wired.outcome_eq_of_perm (hg : g.Wired) (hh : h.Wired) (hcell : g.cell = h.cell)
    (hp : (g.connections.map Connection.wiring).Perm (h.connections.map Connection.wiring)) :
    g.outcome config s = h.outcome config s := by
  have hperm : (g.relocate .erase).connections.Perm (h.relocate .erase).connections := by
    unfold Gate.relocate
    dsimp only
    rw [map_relocate_erase, map_relocate_erase]
    exact hp.map _
  have hplace : (g.relocate .erase).place config s = (h.relocate .erase).place config s :=
    (hg.relocate .erase).place_eq_of_perm (hh.relocate .erase) hcell rfl hperm
  rw [← outcome_relocate .erase g, ← outcome_relocate .erase h, outcome, outcome, hplace]

end Gate

theorem Cell.nodup_pins {cell : Cell} (h : cell ∈ Cell.catalog) : cell.pins.Nodup := by
  have hall : ∀ c ∈ Cell.catalog, c.pins.Nodup := by decide
  exact hall cell h

/-- **The pins of a gate.** Connections make a gate of a cell exactly if their pins are a
permutation of the pins of the cell.  All others are refused at the first connection that names no
pin of the cell or one named before, or at the gate if there is none and a pin is left out.  Two
gates of a cell whose connections are the same but for their order, and whatever their lines, come
to the same assignments and names in use, or fail for the same cause, with any names in use before;
on the same lines they fail at the same one. -/
theorem pins_of_gate {cell : Cell} (hcell : cell ∈ Cell.catalog) (name : Text)
    (cs : List Connection) (line : Line) :
    (∀ g, Gate.ofConnections cell name cs line = .ok g ↔
      (cs.map (·.pin)).Perm cell.pins ∧ g = ⟨cell, name, cs, line⟩) ∧
    (∀ f, Gate.ofConnections cell name cs line = .error f ↔ Gate.Misfit cell name line cs f) ∧
    ∀ name' cs' line' g h, Gate.ofConnections cell name cs line = .ok g →
      Gate.ofConnections cell name' cs' line' = .ok h → ∀ config scope,
      ((cs.map Connection.wiring).Perm (cs'.map Connection.wiring) →
        g.outcome config scope = h.outcome config scope) ∧
      (cs.Perm cs' → line = line' → g.place config scope = h.place config scope) := by
  refine ⟨fun g => ?_, fun f => Gate.ofConnections_eq_error_iff, ?_⟩
  · rw [Gate.perm_pins_iff (Cell.nodup_pins hcell)]
    exact Gate.ofConnections_eq_ok_iff
  · intro name' cs' line' g h hg hh config scope
    have hgw := Gate.wired_of_ofConnections hg
    have hhw := Gate.wired_of_ofConnections hh
    obtain ⟨-, rfl⟩ := Gate.ofConnections_eq_ok_iff.mp hg
    obtain ⟨-, rfl⟩ := Gate.ofConnections_eq_ok_iff.mp hh
    exact ⟨fun hp => hgw.outcome_eq_of_perm hhw rfl hp,
      fun hp hline => hgw.place_eq_of_perm hhw rfl hline hp⟩

/-! ### A sample -/

/-- Connections from their pins, references and the numbers of their lines. -/
def sampleConnections (row : List (Char × String × Nat)) : List Connection :=
  row.map fun p => ⟨[p.1], p.2.1.toList, ⟨p.2.2, [], ⟨0, 10 * p.2.2, 10 * p.2.2 + 5⟩⟩⟩

/-- An exclusive or comes to the same in either order.  With a pin connected twice it is refused at
the second of the two connections, and not for the pin that is left out. -/
theorem pins_of_gate_exclusiveOr :
    let xor := Cell.standard "XOR" .xor
    let line : Line := ⟨1, [], ⟨0, 0, 5⟩⟩
    let scope := (Scan.start sampleConfig).scope
    let written := sampleConnections [('Z', "y", 2), ('B', "in_array[1]", 3), ('A', "a", 4)]
    let sorted := sampleConnections [('A', "a", 2), ('B', "in_array[1]", 2), ('Z', "y", 2)]
    let twice := sampleConnections [('B', "b", 2), ('Z', "y", 3), ('B', "b", 4)]
    xor ∈ Cell.catalog ∧
      (Gate.mk xor ['g'] written line).outcome sampleConfig scope =
        (Gate.mk xor ['h'] sorted line).outcome sampleConfig scope ∧
      ((Gate.mk xor ['g'] written line).outcome sampleConfig scope).toOption.map Prod.fst =
        some [⟨⟨['y']⟩, .binary .xor (.signal ⟨['a']⟩) (.signal ⟨"in_array_1".toList⟩)⟩] ∧
      Gate.ofConnections xor ['g'] twice line =
        .error ((PinFault.repeated ['g'] ['B']).toFailure ⟨4, [], ⟨0, 40, 45⟩⟩) := by
  intro xor line scope written sorted twice
  have hxor : xor ∈ Cell.catalog := by decide +kernel
  obtain ⟨hok, -, horder⟩ := pins_of_gate hxor ['g'] written line
  obtain ⟨-, herror, -⟩ := pins_of_gate hxor ['g'] twice line
  obtain ⟨hok', -, -⟩ := pins_of_gate hxor ['h'] sorted line
  have hg := (hok ⟨xor, ['g'], written, line⟩).mpr ⟨by decide +kernel, rfl⟩
  have hh := (hok' ⟨xor, ['h'], sorted, line⟩).mpr ⟨by decide +kernel, rfl⟩
  refine ⟨hxor, (horder _ _ _ _ _ hg hh sampleConfig scope).1 (by decide +kernel),
    by decide +kernel, (herror _).mpr ?_⟩
  have hbefore : xor.Admits (sampleConnections [('B', "b", 2), ('Z', "y", 3)]) :=
    ⟨by decide +kernel, by decide +kernel⟩
  exact .repeated hbefore (by decide +kernel)

end NetFlat
