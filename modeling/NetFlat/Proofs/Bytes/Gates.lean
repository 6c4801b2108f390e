import NetFlat.Proofs.Bytes.Connections
import NetFlat.Proofs.Gate.Meaning
import NetFlat.Proofs.Gate.Wiring

/-!
# Gates that are looked into

A statement is asked for its first line, spans are merged, a gate is asked for the connections of
its pins, and a cell is given operands.  All of these can stop a run.  They do not for a statement
that has lines, all of them in one file, and for a gate with one connection for each pin.

* `Bytes.reach_eq`, `Bytes.location_eq`: the place of a statement;
* `Bytes.binding_eq`, `Bytes.operands_eq`: the connections of a gate;
* `Bytes.exists_translate`, `Bytes.place_eq`: operands of a cell;
* `Bytes.placeGate_eq`: a whole statement.
-/

namespace NetFlat

/-! ### Places -/

/-- The statement has lines, its first line the first of them, and all of them are in a file. -/
structure OpenGate.InFile (id : Nat) (g : OpenGate) : Prop where
  first : g.lines.head?.map Prod.snd = some g.first
  file : ∀ l ∈ g.lines, l.2.span.file = id

theorem Line.file_reach (l m : Line) : (l.reach m).span.file = l.span.file := by
  unfold Line.reach Span.reach
  split <;> rfl

namespace Bytes

/-- A line, with a span up to the end of another one; spans that lie in no file are left alone. -/
def reach (l m : Line) : Except Stop Line :=
  if l.span.isNowhere ∨ m.span.isNowhere then return l
  else return { l with span := ← orStop .otherFile (l.span.merge? m.span) }

def location (g : OpenGate) : Except Stop Line := do
  let first ← orStop .index (g.lines.head?.map Prod.snd)
  match g.lines.getLast? with
  | some last => reach first last.2
  | none => return first

def extend (d : OpenDeclaration) (code : Text) (line : Line) : Except Stop OpenDeclaration :=
  return { d with text := d.text ++ ' ' :: code, line := ← reach d.line line }

section

variable {id : Nat}

theorem reach_eq {l m : Line} (hl : l.span.file = id) (hm : m.span.file = id) :
    reach l m = .ok (l.reach m) := by
  rw [reach, Line.reach, Span.reach]
  by_cases h : l.span.isNowhere ∨ m.span.isNowhere
  · rw [if_pos h, if_pos (by simpa using h)]
    rfl
  · rw [if_neg h, if_neg (by simpa using h), Span.merge?, if_pos (hl.trans hm.symm), orStop_some,
      ok_bind]
    rfl

theorem location_eq {g : OpenGate} (h : g.InFile id) : location g = .ok g.location := by
  obtain ⟨first, hfirst, hsnd⟩ := Option.map_eq_some_iff.mp h.first
  obtain ⟨rest, hlines⟩ := List.head?_eq_some_iff.mp hfirst
  obtain ⟨last, hlast⟩ : ∃ last, g.lines.getLast? = some last :=
    Option.isSome_iff_exists.mp (by rw [hlines]; simp)
  have hfile : g.first.span.file = id := hsnd ▸ h.file first (List.mem_of_head? hfirst)
  have hend : last.2.span.file = id := h.file last (List.mem_of_getLast? hlast)
  rw [location, h.first, orStop_some, ok_bind, hlast]
  dsimp only
  rw [reach_eq hfile hend, OpenGate.location, hlast]
  rfl

theorem extend_eq {d : OpenDeclaration} {code : Text} {line : Line} (hd : d.line.span.file = id)
    (hl : line.span.file = id) : extend d code line = .ok (d.extend code line) := by
  rw [extend, reach_eq hd hl, ok_bind]
  rfl

end

/-! ### Pins -/

variable {α β : Type}

theorem bind_mapError {x : Except Failure α} {f : α → Except Failure β} {g : α → Except Halt β}
    (h : ∀ a, x = .ok a → g a = (f a).mapError .failed) :
    (x.mapError .failed >>= g) = (x >>= f).mapError .failed := by
  cases x with
  | error e => rfl
  | ok a => exact h a rfl

def binding (g : Gate) (pin : Text) : Except Halt Connection :=
  (orStop .unbound (g.connection? pin)).mapError .stopped

def operands (config : Config) (g : Gate) : List Text → Scope → Except Halt (List Expr × Scope)
  | [], scope => .ok ([], scope)
  | pin :: pins, scope => do
    let c ← binding g pin
    let (e, scope) ← (c.operand config scope).mapError .failed
    let (es, scope) ← operands config g pins scope
    return (e :: es, scope)

/-- The assignments in place of a gate.  It must have as many operands as the cell has inputs, and
an operand wherever the operator of the cell takes one. -/
def translate (cell : Cell) (g : Placed) : Except Stop (List Assignment) :=
  if g.operands.length = cell.inputs.length then orStop .index g.expand? else .error .operands

/-- The gate with its connections resolved, and the scope with its names. -/
def place (config : Config) (g : Gate) (scope : Scope) : Except Halt (Placed × Scope) := do
  let (operands, scope) ← operands config g g.cell.inputs scope
  let c ← binding g g.cell.output
  let (output, scope) ← (c.driven config scope).mapError .failed
  let placed : Placed := ⟨g.cell.kind, operands, output⟩
  let _ ← (translate g.cell placed).mapError .stopped
  (placed.enterAuxiliary g.line scope).mapError .failed

/-- Reads the connections of an instance and places its gate. -/
def placeGate (config : Config) (cell : Cell) (g : OpenGate) (scope : Scope) :
    Except Halt (Placed × Scope) := do
  let connections ← readConnections g.lines
  let line ← (location g).mapError .stopped
  let gate ← (Gate.ofConnections cell g.name connections line).mapError .failed
  place config gate scope

/-- Operands that were read at the input pins of a cell are as many as the cell takes. -/
theorem exists_translate {config : Config} {g : Gate} {scope t : Scope} {keyword : Text}
    (hk : Cell.find? keyword = some g.cell) {es : List Expr}
    (hes : g.operands config g.cell.inputs scope = .ok (es, t)) (output : Signal) :
    ∃ assignments, translate g.cell ⟨g.cell.kind, es, output⟩ = .ok assignments := by
  have hlen : es.length = g.cell.inputs.length :=
    length_of_mapM_eq_some (Gate.operands_eq_ok_iff.mp hes).1
  obtain ⟨assignments, ha⟩ := Option.isSome_iff_exists.mp
    ((Placed.expand?_isSome_iff (g := ⟨g.cell.kind, es, output⟩)).mpr
      (hlen.trans (Cell.length_inputs_of_find? hk)))
  exact ⟨assignments, by rw [translate, if_pos hlen, ha, orStop_some]⟩

section

variable {config : Config} {g : Gate} {scope : Scope} (h : g.Wired)
include h

theorem binding_eq {pin : Text} (hp : pin ∈ g.cell.pins) :
    binding g pin = (g.connection pin).mapError .failed := by
  obtain ⟨c, hc, hpin⟩ := h.connected pin hp
  have hsome := h.connection?_eq_some_iff.mpr ⟨hc, hpin⟩
  rw [binding, hsome, Gate.connection_eq_ok_iff.mpr hsome]
  rfl

theorem operands_eq {pins : List Text} (hp : ∀ pin ∈ pins, pin ∈ g.cell.pins) :
    operands config g pins scope = (g.operands config pins scope).mapError .failed := by
  induction pins generalizing scope with
  | nil => rfl
  | cons pin pins ih =>
    simp only [List.mem_cons, forall_eq_or_imp] at hp
    have hcons : g.operands config (pin :: pins) scope = (do
      let c ← g.connection pin
      let (e, scope) ← c.operand config scope
      let (es, scope) ← g.operands config pins scope
      return (e :: es, scope)) := rfl
    rw [operands, binding_eq h hp.1, hcons]
    refine bind_mapError fun c _ => bind_mapError fun r _ => ?_
    dsimp only
    rw [ih hp.2]
    exact bind_mapError fun r _ => rfl

/-- **Placing a gate** with one connection for each pin does not stop. -/
theorem place_eq {keyword : Text} (hk : Cell.find? keyword = some g.cell) :
    place config g scope = (g.place config scope).mapError .failed := by
  rw [place, operands_eq h fun pin hp => List.mem_append_left _ hp,
    binding_eq h (List.mem_append_right _ (List.mem_singleton_self _)), Gate.place_eq]
  refine bind_mapError fun r hr => bind_mapError fun c _ => bind_mapError fun a _ => ?_
  obtain ⟨es, t⟩ := r
  obtain ⟨assignments, ha⟩ := exists_translate hk hr a.1
  dsimp only
  rw [ha]
  rfl

end

/-- **A statement** in one file is read, and its gate is placed, without a stop. -/
theorem placeGate_eq {config : Config} {cell : Cell} {g : OpenGate} {scope : Scope} {id : Nat}
    (h : g.InFile id) (hk : Cell.find? g.keyword = some cell) :
    placeGate config cell g scope = (Scan.placeGate config cell g scope).mapError .failed := by
  rw [placeGate, readConnections_eq, location_eq h, Scan.placeGate]
  refine bind_mapError fun cs _ => ?_
  change ((Gate.ofConnections cell g.name cs g.location).mapError Halt.failed >>=
    fun gate => place config gate scope) = _
  refine bind_mapError fun gate hgate => ?_
  rw [← Gate.cell_of_ofConnections hgate] at hk
  exact place_eq (Gate.wired_of_ofConnections hgate) hk

end Bytes

end NetFlat
