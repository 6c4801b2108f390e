import NetFlat.Proofs.Bytes.Placements

/-!
# Positions by a table of offsets

The line of an offset is found by a search in the table of the offsets at which lines start, and its
column is the distance from there.  Line and column are numbers of 32 bits.  In a file of less than
2^32 bytes both fit, but for the end of a file of 2^32 - 1 bytes, which can be in column 2^32 or on
line 2^32.

* `Bytes.exists_start`: the last number of an ascending list up to a bound;
* `Bytes.position_eq`, `Bytes.position_wraps`, `Bytes.position_stops`: the position of an offset;
* `Bytes.position_eq_of_lt`: the positions that fit.
-/

namespace NetFlat.Bytes

open Text (byteSize bytes byteOf bound32)

def position (o : Overflow) (content : Text) (offset : Nat) : Except Stop (Nat × Nat) := do
  let i ← placeOf (search (lineStarts content) offset)
  let line ← o.add (i % bound32) 1
  let start ← orStop .index (lineStarts content)[i]?
  let column ← o.add (← o.sub offset start) 1
  return (line, column)

/-- In an ascending list with a number up to a bound there is a last one. -/
theorem exists_start {ns : List Nat} (h : ns.Pairwise (· < ·)) {n : Nat} (hle : ∃ m ∈ ns, m ≤ n) :
    ∃ as k bs, ns = as ++ k :: bs ∧ (∀ a ∈ as, a < n) ∧ k ≤ n ∧ (∀ b ∈ bs, n < b) ∧
      ns.filter (· ≤ n) = as ++ [k] := by
  induction ns with
  | nil => simp at hle
  | cons k ns ih =>
    obtain ⟨hk, hns⟩ := List.pairwise_cons.mp h
    by_cases hrest : ∃ p ∈ ns, p ≤ n
    · obtain ⟨p, hp, hpn⟩ := hrest
      have hkn : k < n := Nat.lt_of_lt_of_le (hk p hp) hpn
      obtain ⟨as, l, bs, rfl, ha, hl, hb, hfilter⟩ := ih hns ⟨p, hp, hpn⟩
      refine ⟨k :: as, l, bs, rfl, ?_, hl, hb, ?_⟩
      · exact List.forall_mem_cons.mpr ⟨hkn, ha⟩
      · rw [List.filter_cons_of_pos (by simpa using hkn.le), hfilter, List.cons_append]
    · push Not at hrest
      have hkn : k ≤ n := by
        obtain ⟨m, hm, hmn⟩ := hle
        rcases List.mem_cons.mp hm with rfl | hm
        · exact hmn
        · exact absurd hmn (Nat.not_le_of_lt (hrest m hm))
      have hnone : ns.filter (· ≤ n) = [] :=
        List.filter_eq_nil_iff.mpr fun p hp => by simpa using hrest p hp
      refine ⟨[], k, ns, rfl, by simp, hkn, hrest, ?_⟩
      rw [List.filter_cons_of_pos (by simpa using hkn), hnone]
      rfl

section

variable {o : Overflow} {file : SourceFile} (h : byteSize file.content < bound32) (offset : Nat)
include h

/-- What is found in the table, before one is added to both numbers. -/
theorem position_eq_add : ∃ i k, i < bound32 ∧ file.position offset = (i + 1, k + 1) ∧
    position o file.content offset = do return (← o.add i 1, ← o.add k 1) := by
  have hsorted : file.lineStarts.Pairwise (· < ·) := SourceFile.pairwise_offsets 0 _
  have hzero : 0 ∈ file.lineStarts := by
    rw [SourceFile.lineStarts_eq_cons]
    exact List.mem_cons_self
  obtain ⟨as, start, bs, hsplit, ha, hstart, hb, hfilter⟩ :=
    exists_start hsorted ⟨0, hzero, Nat.zero_le offset⟩
  have htable : lineStarts file.content = as ++ start :: bs := (lineStarts_eq h).trans hsplit
  have hlt : as.length < bound32 := by
    have hlen := length_lineStarts h
    have hcount := List.count_le_length (a := '\n') (l := file.content)
    have hsize := length_le_byteSize file.content
    rw [htable, List.length_append, List.length_cons] at hlen
    omega
  have hplace : placeOf (search (as ++ start :: bs) offset) = .ok as.length := by
    rw [search_eq ha hstart hb]
    split <;> rfl
  refine ⟨as.length, offset - start, hlt, ?_, ?_⟩
  · simp only [SourceFile.position, hfilter]
    simp
  · have hget : (as ++ start :: bs)[as.length]? = some start := by simp
    rw [position, htable, hplace, ok_bind, Nat.mod_eq_of_lt hlt]
    simp only [hget, orStop_some, ok_bind, Overflow.sub_of_le hstart]

/-- **The position of an offset** is found by the table if its numbers fit in 32 bits. -/
theorem position_eq (hline : (file.position offset).1 < bound32)
    (hcolumn : (file.position offset).2 < bound32) :
    position o file.content offset = .ok (file.position offset) := by
  obtain ⟨i, k, -, hposition, hbytes⟩ := position_eq_add (o := o) h offset
  rw [hposition] at hline hcolumn ⊢
  rw [hbytes, Overflow.add_of_lt hline, ok_bind, Overflow.add_of_lt hcolumn]
  rfl

/-- Where numbers wrap around, each position comes to the rest of its numbers. -/
theorem position_wraps : position .wraps file.content offset =
    .ok ((file.position offset).1 % bound32, (file.position offset).2 % bound32) := by
  obtain ⟨i, k, -, hposition, hbytes⟩ := position_eq_add (o := .wraps) h offset
  rw [hposition, hbytes, Overflow.add_wraps, ok_bind, Overflow.add_wraps, ok_bind]
  rfl

/-- A position that does not fit cannot be found without wrapping around. -/
theorem position_stops
    (hwide : bound32 ≤ (file.position offset).1 ∨ bound32 ≤ (file.position offset).2) :
    position .stops file.content offset = .error .overflow := by
  obtain ⟨i, k, -, hposition, hbytes⟩ := position_eq_add (o := .stops) h offset
  have hstop (n : Nat) (hn : bound32 ≤ n + 1) : Overflow.stops.add n 1 = .error .overflow :=
    if_neg (Nat.not_lt_of_le hn)
  rw [hposition] at hwide
  rw [hbytes]
  by_cases hline : i + 1 < bound32
  · rw [Overflow.add_of_lt hline, ok_bind, hstop k (by dsimp only at hwide; omega)]
    rfl
  · rw [hstop i (by omega)]
    rfl

end

/-- Of the offsets up to the end of a file, each fits but the number 2^32 - 1. -/
theorem position_eq_of_lt {o : Overflow} {file : SourceFile} {offset : Nat}
    (h : byteSize file.content < bound32) (hle : offset ≤ byteSize file.content)
    (hlt : offset + 1 < bound32) :
    position o file.content offset = .ok (file.position offset) := by
  have hposition := SourceFile.position_eq hle
  have hcount := List.count_le_length (a := byteOf '\n') (l := (bytes file.content).take offset)
  have hsince := Text.length_sinceFeed_le ((bytes file.content).take offset)
  have hlen := List.length_take_le offset (bytes file.content)
  refine position_eq h offset ?_ ?_
  · rw [hposition]
    dsimp only
    omega
  · rw [hposition]
    dsimp only
    omega

end NetFlat.Bytes
