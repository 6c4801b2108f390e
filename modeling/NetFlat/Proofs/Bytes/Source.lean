import NetFlat.Proofs.Source.Positions

/-!
# Lines by a table of offsets

A source file can be cut into lines by a table of the offsets at which its lines start, found by
looking for line feeds among its bytes.  Offsets and numbers of lines are numbers of 32 bits.  In a
file of less than 2^32 bytes, the lines found by the table are the lines of the file.

The number of lines is counted down from the number of table entries.  Of all files of less than
2^32 bytes, the one that holds 2^32 - 1 line feeds is the only one whose table has 2^32 entries:
there the count falls back on how numbers of 32 bits wrap around.

* `Bytes.lineStarts_eq`: the table;
* `Bytes.lineCount_eq`, `Bytes.lineCount_stops_of_feeds`: the number of lines;
* `Bytes.line_eq`, `Bytes.lines_eq`: the lines.
-/

namespace NetFlat.Bytes

open Text (byteSize bytes byteOf bound32)

/-! ### The table -/

/-- The offsets behind the line feeds among bytes, the first of which has an offset. -/
def startsFrom : Nat → List UInt8 → List Nat
  | _, [] => []
  | i, b :: bs =>
    if b = byteOf '\n' then (i + 1) % bound32 :: startsFrom (i + 1) bs else startsFrom (i + 1) bs

def lineStarts (content : Text) : List Nat := 0 :: startsFrom 0 (bytes content)

theorem startsFrom_append (i : Nat) (bs cs : List UInt8) :
    startsFrom i (bs ++ cs) = startsFrom i bs ++ startsFrom (i + bs.length) cs := by
  induction bs generalizing i with
  | nil => rfl
  | cons b bs ih =>
    rw [List.cons_append, startsFrom, startsFrom, ih, List.length_cons, Nat.add_right_comm i 1,
      Nat.add_assoc i]
    split <;> rfl

theorem startsFrom_eq_nil {i : Nat} {bs : List UInt8} (h : byteOf '\n' ∉ bs) :
    startsFrom i bs = [] := by
  induction bs generalizing i with
  | nil => rfl
  | cons b bs ih =>
    simp only [List.mem_cons, not_or] at h
    rw [startsFrom, if_neg (Ne.symm h.1), ih h.2]

theorem startsFrom_bytes {i : Nat} {t : Text} (h : i + byteSize t < bound32) :
    startsFrom i (bytes t) = (SourceFile.offsets i (t.splitOn '\n')).tail := by
  induction t generalizing i with
  | nil => rfl
  | cons c t ih =>
    rw [Text.byteSize_cons] at h
    have hrest := ih (i := i + c.utf8Size) (by omega)
    rw [Text.bytes_cons, SourceFile.tail_offsets_cons]
    by_cases hc : c = '\n'
    · subst hc
      have hpos := '\n'.utf8Size_pos
      have hfirst : (i + 1) % bound32 = i + 1 := Nat.mod_eq_of_lt (by omega)
      rw [Text.encode_of_lt (by decide), List.singleton_append, startsFrom, if_pos rfl, hfirst,
        if_pos rfl]
      exact congrArg _ hrest
    · have hnot : byteOf '\n' ∉ String.utf8EncodeChar c :=
        fun hm => hc ((Text.mem_encode_iff (by decide)).mp hm)
      rw [startsFrom_append, startsFrom_eq_nil hnot, List.nil_append, String.length_utf8EncodeChar,
        hrest, if_neg hc]

theorem lineStarts_eq {content : Text} (h : byteSize content < bound32) :
    lineStarts content = SourceFile.offsets 0 (content.splitOn '\n') := by
  rw [lineStarts, startsFrom_bytes (by simpa using h)]
  exact (SourceFile.offsets_splitOn 0 content).symm

theorem startsFrom_add_bound32 (i : Nat) (bs : List UInt8) :
    startsFrom (i + bound32) bs = startsFrom i bs := by
  induction bs generalizing i with
  | nil => rfl
  | cons b bs ih =>
    rw [startsFrom, startsFrom, Nat.add_right_comm i bound32 1, ih, Nat.add_mod_right]

/-- Behind a line feed at the offset 2^32 - 1 the table starts again from zero. -/
theorem lineStarts_append_feed {s : Text} (h : byteSize s + 1 = bound32) (t : Text) :
    lineStarts (s ++ '\n' :: t) = lineStarts s ++ lineStarts t := by
  have hagain := startsFrom_add_bound32 0 (bytes t)
  rw [lineStarts, Text.bytes_append, startsFrom_append, Text.length_bytes, Nat.zero_add,
    Text.bytes_cons, Text.encode_of_lt (by decide), List.singleton_append, startsFrom, if_pos rfl, h,
    Nat.mod_self, ← Nat.zero_add bound32, hagain]
  rfl

/-! ### The number of lines -/

def lineCount (o : Overflow) (content : Text) : Except Stop Nat :=
  let n := (lineStarts content).length % bound32
  if content.getLast? = some '\n' ∨ content = [] then o.sub n 1 else .ok n

theorem length_offsets (start : Nat) (ts : List Text) :
    (SourceFile.offsets start ts).length = ts.length := by
  induction ts generalizing start with
  | nil => rfl
  | cons t ts ih => simp [SourceFile.offsets, ih]

theorem length_splitOn (t : Text) : (t.splitOn '\n').length = t.count '\n' + 1 := by
  induction t with
  | nil => rfl
  | cons c t ih =>
    rw [List.splitOn_cons_eq_if_modifyHead, List.count_cons]
    split
    · simp [ih]
    · simp [ih]

/-- The last piece is empty exactly if nothing follows the last line feed. -/
theorem getLast?_splitOn (t : Text) :
    (t.splitOn '\n').getLast? = some [] ↔ t.getLast? = some '\n' ∨ t = [] := by
  induction t with
  | nil => simp
  | cons c t ih =>
    obtain ⟨u, us, hu⟩ := List.exists_cons_of_ne_nil (List.splitOn_ne_nil '\n' t)
    have hnil : t = [] → u = [] ∧ us = [] := by
      rintro rfl
      simpa [eq_comm] using hu
    rw [hu] at ih
    rw [List.splitOn_cons_eq_if_modifyHead, hu]
    by_cases hc : c = '\n'
    · subst hc
      cases t with
      | nil => obtain ⟨rfl, rfl⟩ := hnil rfl; simp
      | cons d t => simpa [List.getLast?_cons_cons] using ih
    · cases t with
      | nil => obtain ⟨rfl, rfl⟩ := hnil rfl; simp [hc]
      | cons d t =>
        cases us with
        | nil =>
          -- without a line feed the piece is the text itself
          have hlen := length_splitOn (d :: t)
          rw [hu] at hlen
          have hcount : (d :: t).count '\n' = 0 := by simpa using hlen.symm
          have hnot : '\n' ∉ d :: t := List.count_eq_zero.mp hcount
          have hlast : (d :: t).getLast? ≠ some '\n' := fun h => hnot (List.mem_of_getLast? h)
          simp [hc, hlast]
        | cons v us => simpa [hc, List.getLast?_cons_cons] using ih

theorem length_le_byteSize (t : Text) : t.length ≤ byteSize t := by
  induction t with
  | nil => exact Nat.le_refl _
  | cons c t ih =>
    have := c.utf8Size_pos
    rw [List.length_cons, Text.byteSize_cons]
    omega

theorem length_lineStarts {content : Text} (h : byteSize content < bound32) :
    (lineStarts content).length = content.count '\n' + 1 := by
  rw [lineStarts_eq h, length_offsets, length_splitOn]

theorem lineCount_eq {o : Overflow} {file : SourceFile} (h : byteSize file.content < bound32)
    (ho : o = .stops → file.content ≠ List.replicate (bound32 - 1) '\n') :
    lineCount o file.content = .ok file.lineCount := by
  have hcount := List.count_le_length (a := '\n') (l := file.content)
  have hsize := length_le_byteSize file.content
  unfold lineCount SourceFile.lineCount SourceFile.pieces
  dsimp only
  rw [length_lineStarts h]
  by_cases hlast : (file.content.splitOn '\n').getLast? = some []
  · rw [if_pos ((getLast?_splitOn _).mp hlast), if_pos hlast, List.length_dropLast, length_splitOn]
    by_cases hfull : file.content.count '\n' + 1 < bound32
    · rw [Nat.mod_eq_of_lt hfull, Overflow.sub_of_le (by omega)]
    · -- as many line feeds as there can be bytes
      have hfeeds : file.content.count '\n' + 1 = bound32 := by omega
      have hall : file.content = List.replicate (bound32 - 1) '\n' := by
        refine List.eq_replicate_iff.mpr ⟨by omega, fun c hc => ?_⟩
        exact (List.count_eq_length.mp (by omega) c hc).symm
      rw [hfeeds, Nat.mod_self]
      cases o with
      | stops => exact absurd hall (ho rfl)
      | wraps => rfl
  · have hne : file.content.count '\n' ≠ file.content.length := by
      intro hall
      refine hlast ((getLast?_splitOn _).mpr ?_)
      rcases List.eq_nil_or_concat' file.content with hnil | ⟨init, c, hinit⟩
      · exact .inr hnil
      · have hc : '\n' = c := List.count_eq_length.mp hall c (by simp [hinit])
        exact .inl (by simp [hinit, ← hc])
    rw [if_neg (fun hc => hlast ((getLast?_splitOn _).mpr hc)), if_neg hlast, length_splitOn,
      Nat.mod_eq_of_lt (by omega)]

/-- The lines of the file that is left out cannot be counted without wrapping around. -/
theorem lineCount_stops_of_feeds {n : Nat} (h : n + 1 = bound32) :
    lineCount .stops (List.replicate n '\n') = .error .overflow := by
  have hsize : byteSize (List.replicate n '\n') < bound32 := by
    rw [Text.byteSize_replicate (by decide)]
    omega
  have hpos : 0 < n := by
    rw [Text.bound32] at h
    omega
  have hlast : (List.replicate n '\n').getLast? = some '\n' := by
    rw [List.getLast?_replicate, if_neg (Nat.ne_of_gt hpos)]
  unfold lineCount
  dsimp only
  rw [length_lineStarts hsize, List.count_replicate_self, h, Nat.mod_self, if_pos (.inl hlast)]
  rfl

/-! ### The lines -/

/-- The offset of the line feed behind the line at a place of the table. -/
def lineFeed (o : Overflow) (content : Text) (i : Nat) : Except Stop Nat :=
  match (lineStarts content)[i + 1]? with
  | some next => o.sub next 1
  | none => return byteSize content % bound32

/-- The end of a line, before the carriage return that may stand there. -/
def lineEnd (o : Overflow) (content : Text) (start stop : Nat) : Except Stop Nat := do
  if start < stop then
    let last ← orStop .index (bytes content)[← o.sub stop 1]?
    if last = byteOf '\r' then o.sub stop 1 else return stop
  else return stop

/-- The line with a number, if there is one. -/
def line (o : Overflow) (file : SourceFile) (number : Nat) : Except Stop (Option Line) := do
  if number = 0 then return none
  if (← lineCount o file.content) < number then return none
  let i ← o.sub number 1
  let start ← orStop .index (lineStarts file.content)[i]?
  let stop ← lineEnd o file.content start (← lineFeed o file.content i)
  return some ⟨number, ← Text.between start stop file.content, ⟨file.id, start, stop⟩⟩

def linesFrom (o : Overflow) (file : SourceFile) : Nat → Nat → Except Stop (List Line)
  | _, 0 => return []
  | number, k + 1 => do
    let first ← line o file number
    return first.toList ++ (← linesFrom o file (number + 1) k)

def lines (o : Overflow) (file : SourceFile) : Except Stop (List Line) := do
  linesFrom o file 1 (← lineCount o file.content)

/-- A piece of a text that is put together with line feeds, and where it stands. -/
theorem exists_piece {ts : List Text} {i : Nat} {t : Text} (h : ts[i]? = some t) (start : Nat) :
    ∃ s u, Text.join ['\n'] ts = s ++ (t ++ u) ∧
      (SourceFile.offsets start ts)[i]? = some (start + byteSize s) ∧
      ((SourceFile.offsets start ts)[i + 1]? = none ∧ u = [] ∨
        (SourceFile.offsets start ts)[i + 1]? = some (start + byteSize s + byteSize t + 1)) := by
  induction ts generalizing start i with
  | nil => simp at h
  | cons v ts ih =>
    cases i with
    | zero =>
      obtain rfl := Option.some.inj h
      cases ts with
      | nil => exact ⟨[], [], by simp [Text.join], by simp [SourceFile.offsets],
          .inl ⟨by simp [SourceFile.offsets], rfl⟩⟩
      | cons w ts => exact ⟨[], '\n' :: Text.join ['\n'] (w :: ts),
          by simp [Text.join, List.intercalate_cons_cons], by simp [SourceFile.offsets],
          .inr (by simp [SourceFile.offsets])⟩
    | succ i =>
      cases ts with
      | nil => simp at h
      | cons w ts =>
        obtain ⟨s, u, hjoin, hstart, hnext⟩ := ih (i := i) h (start + byteSize v + 1)
        have hs : start + byteSize (v ++ '\n' :: s) = start + byteSize v + 1 + byteSize s := by
          rw [Text.byteSize_append, Text.byteSize_cons]
          have : '\n'.utf8Size = 1 := rfl
          omega
        refine ⟨v ++ '\n' :: s, u, ?_, ?_, ?_⟩
        · rw [Text.join, List.intercalate_cons_cons, ← Text.join, hjoin]
          simp
        · rw [hs]
          exact hstart
        · rw [hs]
          exact hnext

theorem dropReturn_concat (t : Text) (c : Char) :
    SourceFile.dropReturn (t ++ [c]) = if c = '\r' then t else t ++ [c] := by
  unfold SourceFile.dropReturn
  split
  · next hc =>
    rw [hc, Text.beforeLast?_eq_some_iff.mpr rfl]
    rfl
  · next hc =>
    have hnone : Text.beforeLast? '\r' (t ++ [c]) = none := by
      refine Option.eq_none_iff_forall_not_mem.mpr fun s hs => hc ?_
      have := Text.beforeLast?_eq_some_iff.mp hs
      exact (List.cons.inj (List.append_inj' this rfl).2).1
    rw [hnone]
    rfl

theorem lineEnd_eq (o : Overflow) (s t u : Text) :
    lineEnd o (s ++ (t ++ u)) (byteSize s) (byteSize s + byteSize t) =
      .ok (byteSize s + byteSize (SourceFile.dropReturn t)) := by
  rcases List.eq_nil_or_concat' t with rfl | ⟨init, c, rfl⟩
  · exact if_neg (Nat.lt_irrefl _)
  · have hpos := c.utf8Size_pos
    have hcontent : s ++ (init ++ [c] ++ u) = s ++ init ++ c :: u := by simp
    have hstop : byteSize s + byteSize (init ++ [c]) = byteSize (s ++ init) + c.utf8Size := by
      simp [Nat.add_assoc]
    have hlt : byteSize (s ++ init) + c.utf8Size - 1 < (bytes (s ++ init ++ c :: u)).length := by
      rw [Text.length_bytes, Text.byteSize_append _ (c :: u), Text.byteSize_cons]
      omega
    have hlast := Text.getElem?_bytes_last (d := '\r') (by decide) (s ++ init) u c
    rw [hcontent, hstop, lineEnd, if_pos (by rw [Text.byteSize_append]; omega),
      Overflow.sub_of_le (by omega), ok_bind]
    rw [List.getElem?_eq_getElem hlt, Option.some.injEq] at hlast
    rw [List.getElem?_eq_getElem hlt, orStop_some, ok_bind, dropReturn_concat]
    by_cases hc : c = '\r'
    · rw [if_pos (hlast.mpr hc), if_pos hc, hc, Text.byteSize_append]
      rfl
    · rw [if_neg fun h => hc (hlast.mp h), if_neg hc, ← hstop]
      rfl

theorem getElem?_number {id n start i k : Nat} {ts us : List Text} {t : Text} (h : ts[i]? = some t)
    (hk : (SourceFile.offsets start (ts ++ us))[i]? = some k) :
    (SourceFile.number id n start ts)[i]? = some ⟨n + i, SourceFile.dropReturn t,
      ⟨id, k, k + byteSize (SourceFile.dropReturn t)⟩⟩ := by
  induction ts generalizing n start i with
  | nil => simp at h
  | cons v ts ih =>
    cases i with
    | zero =>
      obtain rfl := Option.some.inj h
      obtain rfl := Option.some.inj hk
      rfl
    | succ i =>
      have hn : n + (i + 1) = n + 1 + i := by omega
      rw [hn]
      exact ih h hk

theorem prefix_dropReturn (t : Text) : SourceFile.dropReturn t <+: t := by
  rcases List.eq_nil_or_concat' t with rfl | ⟨init, c, rfl⟩
  · exact List.prefix_rfl
  · rw [dropReturn_concat]
    split
    · exact List.prefix_append _ _
    · exact List.prefix_rfl

/-- The line with a number, from where the table has it start and end. -/
theorem line_of_starts {o : Overflow} {file : SourceFile} {i count : Nat} {s t u : Text}
    (hcount : lineCount o file.content = .ok count) (hi : i < count)
    (hcontent : file.content = s ++ (t ++ u))
    (hstart : (lineStarts file.content)[i]? = some (byteSize s))
    (hfeed : lineFeed o file.content i = .ok (byteSize s + byteSize t)) :
    line o file (i + 1) = .ok (some ⟨i + 1, SourceFile.dropReturn t,
      ⟨file.id, byteSize s, byteSize s + byteSize (SourceFile.dropReturn t)⟩⟩) := by
  obtain ⟨r, hr⟩ := prefix_dropReturn t
  have hslice := Text.between_byteSize s (SourceFile.dropReturn t) (r ++ u)
  rw [← List.append_assoc (SourceFile.dropReturn t), hr, ← hcontent] at hslice
  have hend := lineEnd_eq o s t u
  rw [← hcontent] at hend
  rw [line, if_neg (Nat.succ_ne_zero i), hcount, ok_bind, if_neg (Nat.not_lt_of_le hi),
    Overflow.sub_of_le (Nat.le_add_left 1 i), ok_bind, Nat.add_sub_cancel, hstart, orStop_some,
    ok_bind, hfeed, ok_bind, hend, ok_bind, hslice, ok_bind]
  rfl

section

variable {o : Overflow} {file : SourceFile} (h : byteSize file.content < bound32)
  (ho : o = .stops → file.content ≠ List.replicate (bound32 - 1) '\n')
include h ho

/-- **The line with a number** is found by the table. -/
theorem line_eq (number : Nat) : line o file number = .ok (file.line? number) := by
  unfold SourceFile.line?
  by_cases hzero : number = 0
  · rw [line, if_pos hzero, if_pos hzero]
    rfl
  rw [if_neg hzero]
  by_cases hcount : file.lineCount < number
  · have hnone : file.lines[number - 1]? = none :=
      List.getElem?_eq_none (by rw [SourceFile.length_lines]; omega)
    rw [line, if_neg hzero, lineCount_eq h ho, ok_bind, if_pos hcount, hnone]
    rfl
  obtain ⟨i, rfl⟩ : ∃ i, number = i + 1 := ⟨number - 1, by omega⟩
  have hi : i < (SourceFile.pieces file.content).length := by
    change ¬(SourceFile.pieces file.content).length < i + 1 at hcount
    omega
  obtain ⟨t, ht⟩ : ∃ t, (SourceFile.pieces file.content)[i]? = some t :=
    ⟨_, List.getElem?_eq_getElem hi⟩
  have hpieces : SourceFile.pieces file.content <+: file.content.splitOn '\n' := by
    unfold SourceFile.pieces
    dsimp only
    split
    · exact List.dropLast_prefix _
    · exact List.prefix_rfl
  obtain ⟨more, hmore⟩ := hpieces
  have hsplit : (file.content.splitOn '\n')[i]? = some t := by
    rw [← hmore, List.getElem?_append_left hi, ht]
  -- the line ends at the next start, or with the file if it is the last one
  obtain ⟨s, u, hjoin, hstart, hnext⟩ := exists_piece hsplit 0
  rw [Text.join, List.intercalate_splitOn] at hjoin
  rw [Nat.zero_add] at hstart hnext
  have hfeed : lineFeed o file.content i = .ok (byteSize s + byteSize t) := by
    unfold lineFeed
    rw [lineStarts_eq h]
    rcases hnext with ⟨hnone, rfl⟩ | hsome
    · rw [hnone, Nat.mod_eq_of_lt h, hjoin, List.append_nil, Text.byteSize_append]
      rfl
    · rw [hsome]
      exact Overflow.sub_of_le (Nat.le_add_left _ _)
  have hline : (SourceFile.number file.id 1 0 (SourceFile.pieces file.content))[i]? = _ :=
    getElem?_number ht (hmore ▸ hstart)
  rw [line_of_starts (lineCount_eq h ho) hi hjoin ((lineStarts_eq h).symm ▸ hstart) hfeed,
    SourceFile.lines, Nat.add_sub_cancel, hline, Nat.add_comm 1 i]

theorem linesFrom_eq (number k : Nat) :
    linesFrom o file (number + 1) k = .ok ((file.lines.drop number).take k) := by
  induction k generalizing number with
  | zero => rfl
  | succ k ih =>
    have hline : file.line? (number + 1) = file.lines[number]? := rfl
    rw [linesFrom, line_eq h ho, ok_bind, ih, hline]
    have hdrop : file.lines.drop number =
        file.lines[number]?.toList ++ file.lines.drop (number + 1) :=
      List.drop_eq_getElem?_toList_append
    cases hget : file.lines[number]? with
    | none =>
      have hlen := List.getElem?_eq_none_iff.mp hget
      rw [List.drop_eq_nil_of_le hlen, List.drop_eq_nil_of_le (by omega), List.take_nil,
        List.take_nil]
      rfl
    | some l =>
      rw [hdrop, hget]
      rfl

/-- **The lines of a file** are found by the table. -/
theorem lines_eq : lines o file = .ok file.lines := by
  rw [lines, lineCount_eq h ho, ok_bind, linesFrom_eq h ho, ← SourceFile.length_lines]
  simp

end

theorem lines_refines {file : SourceFile} (h : byteSize file.content < bound32) :
    Overflow.Refines (lines .stops file) (lines .wraps file) := by
  by_cases hfeeds : file.content = List.replicate (bound32 - 1) '\n'
  · refine .inl ?_
    rw [lines, hfeeds, lineCount_stops_of_feeds (n := bound32 - 1) rfl]
    rfl
  · exact .inr ((lines_eq h fun _ => hfeeds).trans (lines_eq h (by simp)).symm)

end NetFlat.Bytes
