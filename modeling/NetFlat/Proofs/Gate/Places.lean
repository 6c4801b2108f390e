import NetFlat.Proofs.Gate.Connections
import NetFlat.Proofs.Gate.Resolution

/-!
# Places play no part in a gate

The lines that characters and connections stand on are kept for messages only: moving them to
other lines moves the lines in the outcome, and nothing else.

* `Connection.read_relocate`, `Gate.ofConnections_relocate`: connections and gates;
* `Gate.resolve?_relocate`: the gate that an instance is lowered to is the same;
* `Gate.place_relocate`: so is the scope with its names, or the failure, on other lines.
-/

namespace NetFlat

/-- A change of lines which goes together with the covering of further lines. -/
structure Relocation where
  line : Line → Line
  line_reach (l m : Line) : line (l.reach m) = (line l).reach (line m)

def Relocation.erase : Relocation := ⟨fun _ => .none, fun _ _ => rfl⟩

variable (r : Relocation)

def Failure.relocate (f : Failure) : Failure := { f with line := r.line f.line }

def Placement.relocate (p : Placement) : Placement := { p with line := r.line p.line }

theorem Placement.char_relocate (p : Placement) : (p.relocate r).char = p.char := rfl

namespace Connection

def relocate (c : Connection) : Connection := { c with line := r.line c.line }

theorem closing?_relocate (depth : Nat) (ps : List Placement) :
    closing? depth (ps.map (Placement.relocate r)) =
      (closing? depth ps).map fun x => (x.1, x.2.map (Placement.relocate r)) := by
  induction ps generalizing depth with
  | nil => rfl
  | cons p ps ih =>
    simp only [List.map_cons, closing?]
    have hc := p.char_relocate r
    by_cases hopen : p.char = '('
    · rw [if_pos hopen, if_pos (hc.trans hopen), ih, Option.map_map, Option.map_map]
      rfl
    · rw [if_neg hopen, if_neg (hc ▸ hopen)]
      by_cases hclose : p.char = ')'
      · rw [if_pos hclose, if_pos (hc.trans hclose)]
        cases depth with
        | zero => rfl
        | succ depth =>
          simp only [ih, Option.map_map]
          rfl
      · rw [if_neg hclose, if_neg (hc ▸ hclose), ih, Option.map_map, Option.map_map]
        rfl

/-- What follows the dot, with the rest on other lines. -/
def AfterDot.relocate : AfterDot → AfterDot
  | .connection pin reference rest => .connection pin reference (rest.map (Placement.relocate r))
  | .unclosed pin => .unclosed pin
  | .other => .other

theorem afterDot_relocate (ps : List Placement) :
    afterDot (ps.map (Placement.relocate r)) = (afterDot ps).relocate r := by
  have hchar : (Placement.char ∘ Placement.relocate r) = Placement.char := rfl
  simp only [afterDot, List.takeWhile_map, List.dropWhile_map, List.map_map, hchar]
  -- as it stands after the blanks
  have hblank : (fun p => Text.isAsciiBlank p.char) ∘ Placement.relocate r =
      fun p => Text.isAsciiBlank p.char := rfl
  have hpin : (fun p => isPinChar p.char) ∘ Placement.relocate r = fun p => isPinChar p.char := rfl
  rw [hblank, hpin]
  cases (ps.dropWhile (isPinChar ·.char)).dropWhile (Text.isAsciiBlank ·.char) with
  | nil => rfl
  | cons p inside =>
    simp only [List.map_cons, closing?_relocate]
    change (if ((ps.takeWhile (isPinChar ·.char)).map Placement.char) ≠ [] ∧ p.char = '(' then _
      else _) = _
    split
    · cases closing? 0 inside <;> rfl
    · rfl

theorem readAll_relocate (ps : List Placement) :
    readAll (ps.map (Placement.relocate r)) =
      ((readAll ps).map (List.map (relocate r))).mapError (Failure.relocate r) := by
  induction ps using readAll.induct with
  | case1 =>
    rw [List.map_nil, readAll_nil]
    rfl
  | case2 p ps hp pin reference rest hd _ ih =>
    rw [List.map_cons, readAll_cons, readAll_cons, p.char_relocate, if_pos hp, if_pos hp, afterDot_relocate, hd]
    simp only [AfterDot.relocate, ih]
    cases readAll rest <;> rfl
  | case3 p ps hp pin hd =>
    rw [List.map_cons, readAll_cons, readAll_cons, p.char_relocate, if_pos hp, if_pos hp, afterDot_relocate, hd]
    rfl
  | case4 p ps hp hd ih =>
    rw [List.map_cons, readAll_cons, readAll_cons, p.char_relocate, if_pos hp, if_pos hp, afterDot_relocate, hd]
    exact ih
  | case5 p ps hp ih =>
    rw [List.map_cons, readAll_cons, readAll_cons, p.char_relocate, if_neg hp, if_neg hp, ih]

theorem read_relocate (lines : List (Text × Line)) :
    read (lines.map fun p => (p.1, r.line p.2)) =
      ((read lines).map (List.map (relocate r))).mapError (Failure.relocate r) := by
  have hp : placements (lines.map fun p => (p.1, r.line p.2)) =
      (placements lines).map (Placement.relocate r) := by
    induction lines with
    | nil => rfl
    | cons p lines ih =>
      simp only [placements, List.map_cons, List.flatMap_cons, List.map_append, List.map_map] at ih ⊢
      rw [ih]
      rfl
  rw [read, hp, List.dropWhile_map, ← List.map_tail, readAll_relocate]
  rfl

/-! ### Placing -/

variable {config : Config} (c : Connection) (scope : Scope)

theorem enter_relocate (a : Signal) :
    (c.relocate r).enter a scope = (c.enter a scope).mapError (Failure.relocate r) := by
  unfold enter
  cases scope.reference a <;> rfl

theorem operand_relocate : (c.relocate r).operand config scope =
    (c.operand config scope).mapError (Failure.relocate r) := by
  unfold operand
  rw [show (c.relocate r).reference = c.reference from rfl]
  cases config.operand c.reference with
  | error fault => rfl
  | ok e =>
    cases e with
    | signal a =>
      simp only [enter_relocate]
      cases c.enter a scope <;> rfl
    | const b | not e | binary op a b => rfl

theorem driven_relocate : (c.relocate r).driven config scope =
    (c.driven config scope).mapError (Failure.relocate r) := by
  unfold driven
  rw [show (c.relocate r).reference = c.reference from rfl]
  cases config.resolve c.reference with
  | error fault => rfl
  | ok a =>
    simp only [enter_relocate]
    cases c.enter a scope <;> rfl

end Connection

namespace Gate

def relocate (g : Gate) : Gate :=
  { g with connections := g.connections.map (Connection.relocate r), line := r.line g.line }

theorem misconnected?_cons (cell : Cell) (name : Text) (seen : List Text) (c : Connection)
    (cs : List Connection) : misconnected? cell name seen (c :: cs) =
      if c.pin ∉ cell.pins then some ((PinFault.unknown cell.keyword c.pin).toFailure c.line)
      else if c.pin ∈ seen then some ((PinFault.repeated name c.pin).toFailure c.line)
      else misconnected? cell name (c.pin :: seen) cs := rfl

theorem misconnected?_relocate (cell : Cell) (name : Text) (seen : List Text)
    (cs : List Connection) : misconnected? cell name seen (cs.map (Connection.relocate r)) =
      (misconnected? cell name seen cs).map (Failure.relocate r) := by
  induction cs generalizing seen with
  | nil => rfl
  | cons c cs ih =>
    rw [List.map_cons, misconnected?_cons, misconnected?_cons]
    have hc : (c.relocate r).pin = c.pin := rfl
    by_cases hpin : c.pin ∉ cell.pins
    · rw [if_pos hpin, if_pos (hc ▸ hpin)]
      rfl
    · rw [if_neg hpin, if_neg (hc ▸ hpin)]
      by_cases hseen : c.pin ∈ seen
      · rw [if_pos hseen, if_pos (hc ▸ hseen)]
        rfl
      · rw [if_neg hseen, if_neg (hc ▸ hseen), ih, hc]

theorem ofConnections_relocate (cell : Cell) (name : Text) (cs : List Connection) (line : Line) :
    ofConnections cell name (cs.map (Connection.relocate r)) (r.line line) =
      ((ofConnections cell name cs line).map (relocate r)).mapError (Failure.relocate r) := by
  have hall (pin : Text) : (cs.map (Connection.relocate r)).all (·.pin ≠ pin) =
      cs.all (·.pin ≠ pin) := List.all_map
  simp only [ofConnections, misconnected?_relocate, hall]
  cases misconnected? cell name [] cs with
  | some f => rfl
  | none => cases cell.pins.find? fun pin => cs.all (·.pin ≠ pin) <;> rfl

variable {config : Config} (g : Gate)

theorem connection?_relocate (pin : Text) :
    (g.relocate r).connection? pin = (g.connection? pin).map (Connection.relocate r) := by
  simp only [connection?, relocate, List.find?_map]
  rfl

theorem resolve?_relocate : (g.relocate r).resolve? config = g.resolve? config := by
  have hop : (g.relocate r).operand? config = g.operand? config := by
    funext pin
    simp only [operand?, connection?_relocate]
    cases g.connection? pin <;> rfl
  have hout : (g.relocate r).output? config = g.output? config := by
    simp only [output?, connection?_relocate, show (g.relocate r).cell = g.cell from rfl]
    cases g.connection? g.cell.output <;> rfl
  simp only [resolve?, hop, hout]
  rfl

variable (scope : Scope)

theorem connection_relocate (pin : Text) : (g.relocate r).connection pin =
    ((g.connection pin).map (Connection.relocate r)).mapError (Failure.relocate r) := by
  unfold connection
  rw [connection?_relocate]
  cases g.connection? pin <;> rfl

theorem operands_relocate (pins : List Text) : (g.relocate r).operands config pins scope =
    (g.operands config pins scope).mapError (Failure.relocate r) := by
  induction pins generalizing scope with
  | nil => rfl
  | cons pin pins ih =>
    simp only [operands, connection_relocate]
    cases g.connection pin with
    | error f => rfl
    | ok c =>
      change ((c.relocate r).operand config scope >>= _) = ((c.operand config scope >>= _).mapError _)
      rw [Connection.operand_relocate]
      cases c.operand config scope with
      | error f => rfl
      | ok x =>
        change ((g.relocate r).operands config pins x.2 >>= _) =
          ((g.operands config pins x.2 >>= _).mapError _)
        rw [ih]
        cases g.operands config pins x.2 <;> rfl

theorem enterAuxiliary_relocate (line : Line) (p : Placed) :
    p.enterAuxiliary (r.line line) scope =
      (p.enterAuxiliary line scope).mapError (Failure.relocate r) := by
  unfold Placed.enterAuxiliary
  cases p.auxiliary? with
  | none => rfl
  | some aux => dsimp only; cases scope.register aux <;> rfl

/-- A gate on other lines is placed alike, or fails alike on them. -/
theorem place_relocate : (g.relocate r).place config scope =
    (g.place config scope).mapError (Failure.relocate r) := by
  rw [place_eq, place_eq, show (g.relocate r).cell = g.cell from rfl, operands_relocate]
  cases g.operands config g.cell.inputs scope with
  | error f => rfl
  | ok x =>
    change ((g.relocate r).connection g.cell.output >>= _) =
      ((g.connection g.cell.output >>= _).mapError _)
    rw [connection_relocate]
    cases g.connection g.cell.output with
    | error f => rfl
    | ok c =>
      change ((c.relocate r).driven config x.2 >>= _) = ((c.driven config x.2 >>= _).mapError _)
      rw [Connection.driven_relocate]
      cases c.driven config x.2 with
      | error f => rfl
      | ok y => exact enterAuxiliary_relocate r y.2 g.line ⟨g.cell.kind, x.1, y.1⟩

end Gate

end NetFlat
