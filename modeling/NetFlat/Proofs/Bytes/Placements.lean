import NetFlat.Gate.Connections
import NetFlat.Proofs.Bytes.Source

/-!
# The lines of a statement by bytes

The lines of a statement are joined to one text.  The line of an offset of that text is found by a
search in the table of the offsets at which lines start.

* `Bytes.chars_placements`: the text, as the placed characters of the statement;
* `Bytes.narrow_eq`, `Bytes.search_eq`: the search;
* `Bytes.lineAt_eq`: the line of an offset.
-/

namespace NetFlat.Bytes

open Text (byteSize)

/-! ### Joined lines -/

/-- The text of a statement: its lines, a line feed behind each of them. -/
def joined (lines : List (Text × Line)) : Text := lines.flatMap fun l => l.1 ++ ['\n']

/-- Halves the part of a list that starts at `base`, until one element is left: the rest goes on with
the front half if the other one starts above `n`. -/
def narrow (ns : List Nat) (n base size : Nat) : Nat :=
  if 1 < size then
    if (ns[base + size / 2]?).any (n < ·) then narrow ns n base (size - size / 2)
    else narrow ns n (base + size / 2) (size - size / 2)
  else base
termination_by size
decreasing_by all_goals omega

/-- The place of a number in an ascending list, or the place at which it is missing. -/
def search (ns : List Nat) (n : Nat) : Except Nat Nat :=
  let i := narrow ns n 0 ns.length
  match ns[i]? with
  | some k => if k = n then .ok i else .error (if k < n then i + 1 else i)
  | none => .error 0

/-- The place that was found, or the one in front of it. -/
def placeOf : Except Nat Nat → Except Stop Nat
  | .ok i => .ok i
  | .error 0 => .error .belowZero
  | .error (i + 1) => .ok i

def lineAt (lines : List (Text × Line)) (offset : Nat) : Except Stop Line := do
  let i ← placeOf (search (SourceFile.offsets 0 (lines.map Prod.fst)) offset)
  orStop .index (lines[i]?.map Prod.snd)

def chars (ps : List Placement) : Text := ps.map Placement.char

@[simp]
theorem chars_nil : chars [] = [] := rfl

@[simp]
theorem chars_cons (p : Placement) (ps : List Placement) :
    chars (p :: ps) = p.char :: chars ps := rfl

@[simp]
theorem chars_append (ps qs : List Placement) : chars (ps ++ qs) = chars ps ++ chars qs :=
  List.map_append

theorem byteSize_chars_concat {p : Placement} (h : p.char.toNat < 128) (ps : List Placement) :
    byteSize (chars (ps ++ [p])) = byteSize (chars ps) + 1 := by
  simp [Text.utf8Size_of_lt h]

theorem placements_cons (l : Text × Line) (lines : List (Text × Line)) :
    Connection.placements (l :: lines) =
      (l.1 ++ ['\n']).map (fun c => ⟨c, l.2⟩) ++ Connection.placements lines := rfl

theorem chars_placements (lines : List (Text × Line)) :
    chars (Connection.placements lines) = joined lines := by
  induction lines with
  | nil => rfl
  | cons l lines ih =>
    rw [placements_cons, chars_append, ih, chars, List.map_map]
    simp [joined, Function.comp_def]

/-- Halving a part keeps to the last element that is not above `n`, if those above it are the ones
behind it. -/
theorem narrow_eq {ns : List Nat} {n m base size : Nat}
    (h : ∀ i < ns.length, (ns[i]?).any (n < ·) = true ↔ m < i) (hfirst : base ≤ m)
    (hlast : m < base + size) (hsize : base + size ≤ ns.length) : narrow ns n base size = m := by
  fun_induction narrow ns n base size with
  | case1 base size hmore habove ih =>
    have hm := (h _ (by omega)).mp habove
    exact ih hfirst (by omega) (by omega)
  | case2 base size hmore habove ih =>
    have hm := mt (h _ (by omega)).mpr habove
    exact ih (by omega) (by omega) (by omega)
  | case3 base size hone => omega

theorem search_eq {as bs : List Nat} {k n : Nat} (ha : ∀ a ∈ as, a < n) (hk : k ≤ n)
    (hb : ∀ b ∈ bs, n < b) :
    search (as ++ k :: bs) n = if k = n then .ok as.length else .error (as.length + 1) := by
  have habove (i : Nat) (hi : i < (as ++ k :: bs).length) :
      ((as ++ k :: bs)[i]?).any (n < ·) = true ↔ as.length < i := by
    rcases Nat.lt_trichotomy i as.length with hlt | rfl | hgt
    · have := ha _ (List.getElem_mem hlt)
      rw [List.getElem?_append_left hlt, List.getElem?_eq_getElem hlt]
      simp only [Option.any_some, decide_eq_true_eq]
      omega
    · rw [List.getElem?_append_right (Nat.le_refl _), Nat.sub_self, List.getElem?_cons_zero]
      simp only [Option.any_some, decide_eq_true_eq]
      omega
    · obtain ⟨j, rfl⟩ : ∃ j, i = as.length + (j + 1) := ⟨i - as.length - 1, by omega⟩
      have hj : j < bs.length := by
        rw [List.length_append, List.length_cons] at hi
        omega
      have := hb _ (List.getElem_mem hj)
      rw [List.getElem?_append_right (by omega), Nat.add_sub_cancel_left, List.getElem?_cons_succ,
        List.getElem?_eq_getElem hj]
      simp only [Option.any_some, decide_eq_true_eq]
      omega
  have hplace : narrow (as ++ k :: bs) n 0 (as ++ k :: bs).length = as.length :=
    narrow_eq habove (Nat.zero_le _) (by simp) (by simp)
  have hget : (as ++ k :: bs)[as.length]? = some k := by simp
  simp only [search, hplace, hget]
  by_cases h : k = n
  · rw [if_pos h, if_pos h]
  · rw [if_neg h, if_neg h, if_pos (by omega)]

theorem placement_cases {lines : List (Text × Line)} {code : Text} {line : Line}
    {qs ps : List Placement} {p : Placement}
    (h : Connection.placements ((code, line) :: lines) = qs ++ p :: ps) :
    (∃ cs, qs = (code ++ ['\n']).map (fun c => ⟨c, line⟩) ++ cs ∧
      Connection.placements lines = cs ++ p :: ps) ∨
    ∃ cs, (code ++ ['\n']).map (fun c => (⟨c, line⟩ : Placement)) = qs ++ p :: cs := by
  rw [placements_cons] at h
  rcases List.append_eq_append_iff.mp h with ⟨cs, hq, hp⟩ | ⟨cs, hq, hp⟩
  · exact .inl ⟨cs, hq, hp⟩
  · cases cs with
    | nil => exact .inl ⟨[], by simpa using hq.symm, by simpa using hp.symm⟩
    | cons c cs =>
      obtain ⟨rfl, -⟩ := List.cons.inj hp
      exact .inr ⟨cs, hq⟩

/-- The line of a placement in the table of line starts: of the starts up to the placement, it is
the last one. -/
theorem exists_line {lines : List (Text × Line)} {qs ps : List Placement} {p : Placement}
    (h : Connection.placements lines = qs ++ p :: ps) (start : Nat) :
    ∃ as k bs, SourceFile.offsets start (lines.map Prod.fst) = as ++ k :: bs ∧
      (lines[as.length]?).map Prod.snd = some p.line ∧
      (∀ a ∈ as, a < start + byteSize (chars qs)) ∧ k ≤ start + byteSize (chars qs) ∧
      ∀ b ∈ bs, start + byteSize (chars qs) < b := by
  induction lines generalizing qs start with
  | nil => simp [Connection.placements] at h
  | cons l lines ih =>
    obtain ⟨code, line⟩ := l
    have hchars : chars ((code ++ ['\n']).map (fun c => ⟨c, line⟩)) = code ++ ['\n'] := by
      simp [chars, Function.comp_def]
    have hfeed : byteSize (code ++ ['\n']) = byteSize code + 1 := Text.byteSize_append code ['\n']
    have hoffsets : SourceFile.offsets start (((code, line) :: lines).map Prod.fst) =
      start :: SourceFile.offsets (start + byteSize code + 1) (lines.map Prod.fst) := rfl
    rw [hoffsets]
    rcases placement_cases h with ⟨cs, rfl, hrest⟩ | ⟨cs, hthis⟩
    · obtain ⟨as, k, bs, hsplit, hline, ha, hk, hb⟩ := ih hrest (start + byteSize code + 1)
      have hsize : start + byteSize (chars ((code ++ ['\n']).map (fun c => ⟨c, line⟩) ++ cs)) =
          start + byteSize code + 1 + byteSize (chars cs) := by
        rw [chars_append, hchars, Text.byteSize_append, hfeed]
        omega
      rw [hsize, hsplit]
      refine ⟨start :: as, k, bs, rfl, hline, fun a h => ?_, hk, hb⟩
      rcases List.mem_cons.mp h with rfl | h
      · omega
      · exact ha a h
    · have hmem : p ∈ (code ++ ['\n']).map (fun c => (⟨c, line⟩ : Placement)) := by simp [hthis]
      obtain ⟨c, -, rfl⟩ := List.mem_map.mp hmem
      have hsize : byteSize (chars qs) < byteSize code + 1 := by
        have hpos := c.utf8Size_pos
        have := congrArg (fun ps => byteSize (chars ps)) hthis
        simp only [hchars, hfeed, chars_append, chars_cons, Text.byteSize_append,
          Text.byteSize_cons] at this
        omega
      refine ⟨[], start, _, rfl, rfl, by simp, Nat.le_add_right _ _, fun b h => ?_⟩
      have := SourceFile.le_of_mem_offsets h
      omega

/-- **The line of an offset** at which a character starts is the line of the character. -/
theorem lineAt_eq {lines : List (Text × Line)} {qs ps : List Placement} {p : Placement}
    (h : Connection.placements lines = qs ++ p :: ps) :
    lineAt lines (byteSize (chars qs)) = .ok p.line := by
  obtain ⟨as, k, bs, hsplit, hline, ha, hk, hb⟩ := exists_line h 0
  rw [Nat.zero_add] at ha hk hb
  have hplace : placeOf (search (as ++ k :: bs) (byteSize (chars qs))) = .ok as.length := by
    rw [search_eq ha hk hb]
    split <;> rfl
  rw [lineAt, hsplit, hplace, ok_bind, hline, orStop_some]

end NetFlat.Bytes
