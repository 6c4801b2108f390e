import NetFlat.Proofs.Bytes.Placements
import NetFlat.Proofs.Gate.Connections
import NetFlat.Proofs.Inversion

/-!
# Connections by their bytes

How connections are read off the bytes of a statement: dots and brackets are looked for among the
bytes, and pins and references are sliced out.

Pins, blanks and brackets are told by single bytes.  They are ASCII characters all of them, and no
byte of another character is one of ASCII, so every offset that is sliced at is one at which a
character starts.

* `Bytes.closing_eq`: the bracket that closes a reference, on the way to which the depth is never
  taken below zero;
* `Bytes.exists_dotAt`: what a dot leads to;
* `Bytes.connectionsFrom_eq`, `Bytes.readConnections_eq`: all connections.
-/

namespace NetFlat

/-- Why a run that reads a statement comes to an end: it stops, or the statement has failed. -/
inductive Halt where
  | stopped (reason : Stop)
  | failed (f : Failure)

namespace Bytes

open Text (byteSize bytes byteOf)

/-! ### Pins and brackets -/

/-- A byte of a pin name: a letter, a digit or an underscore. -/
def isPinByte (b : UInt8) : Bool :=
  let n := b.toNat
  (65 ≤ n && n ≤ 90) || (97 ≤ n && n ≤ 122) || (48 ≤ n && n ≤ 57) || n == 0x5F

/-- A byte of the white space of ASCII text. -/
def isBlankByte (b : UInt8) : Bool :=
  let n := b.toNat
  n == 0x20 || n == 9 || n == 10 || n == 12 || n == 13

/-- The offset behind the bytes of a kind that stand at an offset. -/
def passOver (q : UInt8 → Bool) (bs : List UInt8) (offset : Nat) : Nat :=
  offset + ((bs.drop offset).takeWhile q).length

/-- The offset of the bracket that closes the open ones, of which there are `depth`; the first of
the bytes has the offset `i`. -/
def closing : Nat → Nat → List UInt8 → Except Stop (Option Nat)
  | _, _, [] => return none
  | i, depth, b :: bs =>
    if b = byteOf '(' then closing (i + 1) (depth + 1) bs
    else if b = byteOf ')' then
      if depth = 0 then .error .belowZero
      else if depth - 1 = 0 then return some i
      else closing (i + 1) (depth - 1) bs
    else closing (i + 1) depth bs

theorem toNat_beq (c d : Char) : (c == d) = (c.toNat == d.toNat) := by
  rw [Bool.eq_iff_iff, beq_iff_eq, beq_iff_eq]
  constructor
  · rintro rfl
    rfl
  · intro h
    rw [← Char.ofNat_toNat c, ← Char.ofNat_toNat d, h]

theorem matches_isPinByte : Text.Matches isPinByte Connection.isPinChar := by
  have hchar (c : Char) : Connection.isPinChar c = true ↔ 65 ≤ c.toNat ∧ c.toNat ≤ 90 ∨
      97 ≤ c.toNat ∧ c.toNat ≤ 122 ∨ 48 ≤ c.toNat ∧ c.toNat ≤ 57 ∨ c.toNat = 0x5F := by
    rw [Connection.isPinChar, Char.isAlphanum, toNat_beq, Bool.or_eq_true, Bool.or_eq_true,
      isAlpha_iff, isDigit_iff, beq_iff_eq, or_assoc, or_assoc]
    rfl
  have hbyte (b : UInt8) : isPinByte b = true ↔ 65 ≤ b.toNat ∧ b.toNat ≤ 90 ∨
      97 ≤ b.toNat ∧ b.toNat ≤ 122 ∨ 48 ≤ b.toNat ∧ b.toNat ≤ 57 ∨ b.toNat = 0x5F := by
    simp only [isPinByte, Bool.or_eq_true, Bool.and_eq_true, decide_eq_true_eq, beq_iff_eq,
      or_assoc]
  refine ⟨fun c hc => ?_, fun c hc => ?_, fun b hb => ?_⟩
  · rw [Bool.eq_iff_iff, hchar, hbyte, Text.toNat_byteOf hc]
  · rw [← Bool.not_eq_true, hchar]
    omega
  · rw [← Bool.not_eq_true, hbyte]
    omega

theorem matches_isBlankByte : Text.Matches isBlankByte Text.isAsciiBlank := by
  have hchar (c : Char) : Text.isAsciiBlank c =
      (c.toNat == 0x20 || c.toNat == 9 || c.toNat == 10 || c.toNat == 12 || c.toNat == 13) := by
    simp only [Text.isAsciiBlank, toNat_beq]
    rfl
  refine ⟨fun c hc => ?_, fun c hc => ?_, fun b hb => ?_⟩
  · simp only [isBlankByte, hchar, Text.toNat_byteOf hc]
  · rw [← Bool.not_eq_true, hchar]
    simp only [Bool.or_eq_true, beq_iff_eq]
    omega
  · rw [← Bool.not_eq_true, isBlankByte]
    simp only [Bool.or_eq_true, beq_iff_eq]
    omega

theorem passOver_eq {q : UInt8 → Bool} {p : Char → Bool} (h : Text.Matches q p) (s t : Text) :
    passOver q (bytes (s ++ t)) (byteSize s) = byteSize (s ++ t.takeWhile p) := by
  rw [passOver, Text.drop_bytes, Text.takeWhile_bytes h, Text.length_bytes, Text.byteSize_append]

theorem closing_append {i depth : Nat} {bs cs : List UInt8} (ho : byteOf '(' ∉ bs)
    (hc : byteOf ')' ∉ bs) :
    closing i depth (bs ++ cs) = closing (i + bs.length) depth cs := by
  induction bs generalizing i with
  | nil => rfl
  | cons b bs ih =>
    simp only [List.mem_cons, not_or] at ho hc
    rw [List.cons_append, closing, if_neg (Ne.symm ho.1), if_neg (Ne.symm hc.1), ih ho.2 hc.2,
      List.length_cons]
    congr 1
    omega

theorem closing_open (i depth : Nat) (t : Text) :
    closing i depth (bytes ('(' :: t)) = closing (i + 1) (depth + 1) (bytes t) := by
  rw [Text.bytes_cons, Text.encode_of_lt (by decide), List.singleton_append, closing, if_pos rfl]

/-- **The closing bracket** is found, and on the way to it the depth is never taken below zero. -/
theorem closing_eq (i depth : Nat) (ps : List Placement) :
    closing i (depth + 1) (bytes (chars ps)) =
      .ok ((Connection.closing? depth ps).map fun r => i + byteSize r.1) := by
  induction ps generalizing i depth with
  | nil => rfl
  | cons p ps ih =>
    have hmap (i : Nat) (c : Char) (x : Option (Text × List Placement)) :
        (x.map fun r => (c :: r.1, r.2)).map (fun r => i + byteSize r.1) =
          x.map fun r => i + c.utf8Size + byteSize r.1 := by
      cases x with
      | none => rfl
      | some r => simp [Nat.add_assoc]
    rw [chars_cons]
    by_cases ho : p.char = '('
    · rw [Connection.closing?_open ho, hmap, ho, closing_open, ih]
      rfl
    by_cases hc : p.char = ')'
    · rw [Connection.closing?_close hc, hc, Text.bytes_cons, Text.encode_of_lt (by decide),
        List.singleton_append, closing, if_neg (by decide), if_pos rfl, if_neg (Nat.succ_ne_zero _),
        Nat.add_sub_cancel]
      cases depth with
      | zero => rfl
      | succ depth =>
        dsimp only
        rw [if_neg (Nat.succ_ne_zero _), ih, hmap]
        rfl
    · have hopen : byteOf '(' ∉ String.utf8EncodeChar p.char :=
        fun h => ho ((Text.mem_encode_iff (by decide)).mp h)
      have hclose : byteOf ')' ∉ String.utf8EncodeChar p.char :=
        fun h => hc ((Text.mem_encode_iff (by decide)).mp h)
      rw [Connection.closing?_other ho hc, hmap, Text.bytes_cons, closing_append hopen hclose,
        String.length_utf8EncodeChar, ih]

theorem le_of_closing {i depth n : Nat} {bs : List UInt8} (h : closing i depth bs = .ok (some n)) :
    i ≤ n := by
  induction bs generalizing i depth with
  | nil => cases h
  | cons b bs ih =>
    rw [closing] at h
    split at h
    · exact Nat.le_of_succ_le (ih h)
    split at h
    · split at h
      · cases h
      split at h
      · cases h
        exact Nat.le_refl _
      · exact Nat.le_of_succ_le (ih h)
    · exact Nat.le_of_succ_le (ih h)

/-- What a closing bracket closes stands in front of it, and what is left over behind it. -/
theorem exists_of_closing? {depth : Nat} {ps rest : List Placement} {t : Text}
    (h : Connection.closing? depth ps = some (t, rest)) :
    ∃ us q, ps = us ++ q :: rest ∧ chars us = t ∧ q.char = ')' := by
  induction ps generalizing depth t with
  | nil => simp [Connection.closing?] at h
  | cons p ps ih =>
    have hmap {d : Nat} (hd : (Connection.closing? d ps).map (fun r => (p.char :: r.1, r.2)) =
        some (t, rest)) : ∃ us q, p :: ps = us ++ q :: rest ∧ chars us = t ∧ q.char = ')' := by
      obtain ⟨⟨u, rest'⟩, hr, he⟩ := Option.map_eq_some_iff.mp hd
      obtain ⟨rfl, rfl⟩ := Prod.mk.inj he
      obtain ⟨us, q, rfl, rfl, hq⟩ := ih hr
      exact ⟨p :: us, q, rfl, rfl, hq⟩
    by_cases ho : p.char = '('
    · rw [Connection.closing?_open ho] at h
      exact hmap h
    by_cases hc : p.char = ')'
    · rw [Connection.closing?_close hc] at h
      cases depth with
      | zero =>
        obtain ⟨rfl, rfl⟩ := Prod.mk.inj (Option.some.inj h)
        exact ⟨[], p, rfl, rfl, hc⟩
      | succ depth => exact hmap h
    · rw [Connection.closing?_other ho hc] at h
      exact hmap h

/-! ### Dots -/

/-- The offset of the first dot from an offset on. -/
def nextDot (lines : List (Text × Line)) (pos : Nat) : Except Stop (Option Nat) :=
  return (Text.find? (· == '.') (← Text.behind pos (joined lines))).map (pos + ·)

/-- What a dot leads to. -/
inductive Dot where
  /-- No connection starts at the dot. -/
  | other
  /-- A connection starts whose bracket is not closed. -/
  | unclosed (pin : Text) (line : Line)
  /-- A connection, and the offset behind it. -/
  | connection (c : Connection) (next : Nat)

/-- Reads on from the bracket at an offset, which a dot and a pin stand in front of. -/
def bracketAt (lines : List (Text × Line)) (dot : Nat) (pin : Text) (bracket : Nat) :
    Except Stop Dot := do
  let text := joined lines
  match ← closing bracket 0 ((bytes text).drop bracket) with
  | none => return .unclosed pin (← lineAt lines dot)
  | some close =>
    let reference ← Text.between (bracket + 1) close text
    return .connection ⟨pin, Text.trim reference, ← lineAt lines dot⟩ (close + 1)

def dotAt (lines : List (Text × Line)) (dot : Nat) : Except Stop Dot := do
  let text := joined lines
  let pinEnd := passOver isPinByte (bytes text) (dot + 1)
  let pin ← Text.between (dot + 1) pinEnd text
  let cursor := passOver isBlankByte (bytes text) pinEnd
  if pin = [] ∨ (bytes text)[cursor]? ≠ some (byteOf '(') then return .other
  else bracketAt lines dot pin cursor

theorem lt_of_nextDot {lines : List (Text × Line)} {pos dot : Nat}
    (h : nextDot lines pos = .ok (some dot)) : pos ≤ dot ∧ dot < byteSize (joined lines) := by
  obtain ⟨t, ht, hdot⟩ := bind_eq_ok_iff.mp h
  obtain ⟨s, hs, rfl⟩ := Text.behind_eq_ok_iff.mp ht
  obtain ⟨n, hn, rfl⟩ := Option.map_eq_some_iff.mp (Except.ok.inj hdot)
  have := Text.lt_of_find? hn
  rw [hs, Text.byteSize_append]
  omega

theorem lt_of_dotAt {lines : List (Text × Line)} {dot next : Nat} {c : Connection}
    (h : dotAt lines dot = .ok (.connection c next)) : dot < next := by
  obtain ⟨pin, -, h⟩ := bind_eq_ok_iff.mp h
  dsimp only at h
  split at h
  · cases h
  obtain ⟨r, hr, h⟩ := bind_eq_ok_iff.mp h
  cases r with
  | none =>
    obtain ⟨l, -, h⟩ := bind_eq_ok_iff.mp h
    cases h
  | some close =>
    obtain ⟨reference, -, h⟩ := bind_eq_ok_iff.mp h
    obtain ⟨l, -, h⟩ := bind_eq_ok_iff.mp h
    cases h
    have hclose := le_of_closing hr
    simp only [passOver] at hclose
    omega

def connectionsFrom (lines : List (Text × Line)) (pos : Nat) : Except Halt (List Connection) :=
  match hnext : nextDot lines pos with
  | .error e => .error (.stopped e)
  | .ok none => .ok []
  | .ok (some dot) =>
    have := lt_of_nextDot hnext
    match hafter : dotAt lines dot with
    | .error e => .error (.stopped e)
    | .ok .other => connectionsFrom lines (dot + 1)
    | .ok (.unclosed pin line) => .error (.failed ((PinFault.unclosed pin).toFailure line))
    | .ok (.connection c next) =>
      have := lt_of_dotAt hafter
      (connectionsFrom lines next).map (c :: ·)
termination_by byteSize (joined lines) - pos
decreasing_by all_goals omega

def readConnections (lines : List (Text × Line)) : Except Halt (List Connection) :=
  match Text.find? (· == '(') (joined lines) with
  | none => .ok []
  | some p => connectionsFrom lines (p + 1)

section

variable {lines : List (Text × Line)} {qs ps : List Placement} {p : Placement}

theorem nextDot_nil (h : Connection.placements lines = qs) :
    nextDot lines (byteSize (chars qs)) = .ok none := by
  have hslice := Text.behind_byteSize (chars qs) []
  rw [List.append_nil, ← h, chars_placements] at hslice
  rw [nextDot, ← h, chars_placements, hslice]
  rfl

theorem nextDot_cons (h : Connection.placements lines = qs ++ p :: ps) :
    nextDot lines (byteSize (chars qs)) = if p.char = '.' then .ok (some (byteSize (chars qs)))
      else nextDot lines (byteSize (chars (qs ++ [p]))) := by
  have htext : joined lines = chars qs ++ p.char :: chars ps := by
    rw [← chars_placements, h, chars_append, chars_cons]
  have htext' : joined lines = chars (qs ++ [p]) ++ chars ps := by
    rw [← chars_placements, h, ← chars_append]
    simp
  have hslice := Text.behind_byteSize (chars qs) (p.char :: chars ps)
  have hslice' := Text.behind_byteSize (chars (qs ++ [p])) (chars ps)
  rw [← htext] at hslice
  rw [← htext'] at hslice'
  rw [nextDot, nextDot, hslice, hslice', ok_bind, ok_bind, Text.find?]
  split
  · next hp =>
    rw [if_pos (beq_iff_eq.mp hp)]
    rfl
  · next hp =>
    have hsize : byteSize (chars (qs ++ [p])) = byteSize (chars qs) + p.char.utf8Size := by
      simp [Nat.add_comm]
    rw [if_neg (by simpa using hp), hsize, Option.map_map]
    congr 2
    funext n
    simp [Nat.add_assoc]

theorem dotAt_eq {s pin blank t : Text} (h : joined lines = s ++ '.' :: (pin ++ (blank ++ t)))
    (hpin : (pin ++ (blank ++ t)).takeWhile Connection.isPinChar = pin)
    (hblank : (blank ++ t).takeWhile Text.isAsciiBlank = blank) :
    dotAt lines (byteSize s) = if pin = [] ∨ t.head? ≠ some '(' then .ok .other
      else bracketAt lines (byteSize s) pin (byteSize (s ++ '.' :: (pin ++ blank))) := by
  have hdot : byteSize s + 1 = byteSize (s ++ ['.']) := (Text.byteSize_append s ['.']).symm
  have hpinEnd : passOver isPinByte (bytes (joined lines)) (byteSize s + 1) =
      byteSize (s ++ ['.']) + byteSize pin := by
    rw [hdot, h, List.append_cons, passOver_eq matches_isPinByte, hpin, Text.byteSize_append]
  have hslice : Text.between (byteSize s + 1) (byteSize (s ++ ['.']) + byteSize pin)
      (joined lines) = .ok pin := by
    have hbetween := Text.between_byteSize (s ++ ['.']) pin (blank ++ t)
    rw [List.append_assoc, List.singleton_append, ← h] at hbetween
    rw [hdot]
    exact hbetween
  have hcursor : passOver isBlankByte (bytes (joined lines))
      (byteSize (s ++ ['.']) + byteSize pin) = byteSize (s ++ '.' :: (pin ++ blank)) := by
    have hsplit : s ++ '.' :: (pin ++ (blank ++ t)) = s ++ ['.'] ++ pin ++ (blank ++ t) := by simp
    rw [← Text.byteSize_append, h, hsplit, passOver_eq matches_isBlankByte, hblank]
    simp
  have hbracket : (bytes (joined lines))[byteSize (s ++ '.' :: (pin ++ blank))]? =
      some (byteOf '(') ↔ t.head? = some '(' := by
    have hsplit : s ++ '.' :: (pin ++ (blank ++ t)) = s ++ '.' :: (pin ++ blank) ++ t := by simp
    rw [h, hsplit]
    exact Text.getElem?_bytes (by decide) _ _
  rw [dotAt, hpinEnd, hslice, ok_bind, hcursor]
  exact if_congr (or_congr Iff.rfl (not_congr hbracket)) rfl rfl

theorem bracketAt_of_none {ds inside : List Placement} {q d : Placement} {pin : Text}
    (h : Connection.placements lines = ds ++ d :: ps)
    (hq : Connection.placements lines = qs ++ q :: inside) (hopen : q.char = '(')
    (hc : Connection.closing? 0 inside = none) :
    bracketAt lines (byteSize (chars ds)) pin (byteSize (chars qs)) =
      .ok (.unclosed pin d.line) := by
  have htext : joined lines = chars qs ++ '(' :: chars inside := by
    rw [← chars_placements, hq, chars_append, chars_cons, hopen]
  rw [bracketAt, htext, Text.drop_bytes, closing_open, closing_eq, hc, Option.map_none, ok_bind]
  dsimp only
  rw [lineAt_eq h]
  rfl

theorem bracketAt_of_some {ds us rest : List Placement} {q r d : Placement} {pin : Text}
    (h : Connection.placements lines = ds ++ d :: ps)
    (hq : Connection.placements lines = qs ++ q :: (us ++ r :: rest)) (hopen : q.char = '(')
    (hclose : r.char = ')')
    (hc : Connection.closing? 0 (us ++ r :: rest) = some (chars us, rest)) :
    bracketAt lines (byteSize (chars ds)) pin (byteSize (chars qs)) =
      .ok (.connection ⟨pin, Text.trim (chars us), d.line⟩
        (byteSize (chars (qs ++ q :: (us ++ [r]))))) := by
  have htext : joined lines = chars qs ++ '(' :: chars (us ++ r :: rest) := by
    rw [← chars_placements, hq, chars_append, chars_cons, hopen]
  have hnext : byteSize (chars qs) + 1 + byteSize (chars us) + 1 =
      byteSize (chars (qs ++ q :: (us ++ [r]))) := by
    have hsize : '('.utf8Size = 1 ∧ ')'.utf8Size = 1 := ⟨rfl, rfl⟩
    simp only [chars_append, chars_cons, chars_nil, hopen, hclose, Text.byteSize_append,
      Text.byteSize_cons, Text.byteSize_nil, hsize]
    omega
  have hslice : Text.between (byteSize (chars qs) + 1)
      (byteSize (chars qs) + 1 + byteSize (chars us)) (joined lines) = .ok (chars us) := by
    have hbracket : byteSize (chars qs) + 1 = byteSize (chars qs ++ ['(']) :=
      (Text.byteSize_append _ ['(']).symm
    have hbetween := Text.between_byteSize (chars qs ++ ['(']) (chars us) (chars (r :: rest))
    rw [List.append_assoc, List.singleton_append, ← chars_append, ← htext] at hbetween
    rw [hbracket]
    exact hbetween
  have hclosing : closing (byteSize (chars qs)) 0
      ((bytes (joined lines)).drop (byteSize (chars qs))) =
        .ok (some (byteSize (chars qs) + 1 + byteSize (chars us))) := by
    rw [htext, Text.drop_bytes, closing_open, closing_eq, hc]
    rfl
  rw [bracketAt, hclosing, ok_bind]
  dsimp only
  rw [hslice, ok_bind, lineAt_eq h, ok_bind, hnext]
  rfl

theorem takeWhile_chars (f : Char → Bool) (ps : List Placement) :
    (chars ps).takeWhile f = chars (ps.takeWhile (f ·.char)) := List.takeWhile_map

/-- What the bytes behind a dot are read as, beside what the placements are. -/
inductive Dot.Reads (qs : List Placement) (p : Placement) (ps : List Placement) :
    Connection.AfterDot → Dot → Prop
  | other : Reads qs p ps .other .other
  | unclosed (pin : Text) : Reads qs p ps (.unclosed pin) (.unclosed pin p.line)
  | connection {us rest : List Placement} (hps : ps = us ++ rest) (pin reference : Text) :
      Reads qs p ps (.connection pin reference rest)
        (.connection ⟨pin, reference, p.line⟩ (byteSize (chars (qs ++ p :: us))))

/-- **What a dot leads to**, by bytes and by placements. -/
theorem exists_dotAt (h : Connection.placements lines = qs ++ p :: ps) (hp : p.char = '.') :
    ∃ d, dotAt lines (byteSize (chars qs)) = .ok d ∧
      Dot.Reads qs p ps (Connection.afterDot ps) d := by
  unfold Connection.afterDot
  dsimp only
  -- the pin, the blanks behind it, and what follows
  obtain ⟨us, hus⟩ : ∃ us, ps.takeWhile (Connection.isPinChar ·.char) = us := ⟨_, rfl⟩
  obtain ⟨xs, hxs⟩ : ∃ xs, ps.dropWhile (Connection.isPinChar ·.char) = xs := ⟨_, rfl⟩
  obtain ⟨vs, hvs⟩ : ∃ vs, xs.takeWhile (Text.isAsciiBlank ·.char) = vs := ⟨_, rfl⟩
  obtain ⟨ws, hws⟩ : ∃ ws, xs.dropWhile (Text.isAsciiBlank ·.char) = ws := ⟨_, rfl⟩
  have hrest : xs = vs ++ ws := by rw [← hvs, ← hws, List.takeWhile_append_dropWhile]
  have hps : ps = us ++ (vs ++ ws) := by
    rw [← hrest, ← hus, ← hxs, List.takeWhile_append_dropWhile]
  have htext : joined lines = chars qs ++ '.' :: (chars us ++ (chars vs ++ chars ws)) := by
    rw [← chars_placements, h, chars_append, chars_cons, hp, hps, chars_append, chars_append]
  have hpin : (chars us ++ (chars vs ++ chars ws)).takeWhile Connection.isPinChar = chars us := by
    rw [← chars_append, ← chars_append, ← hps, takeWhile_chars, hus]
  have hblank : (chars vs ++ chars ws).takeWhile Text.isAsciiBlank = chars vs := by
    rw [← chars_append, ← hrest, takeWhile_chars, hvs]
  have hcursor : chars qs ++ '.' :: (chars us ++ chars vs) = chars (qs ++ p :: (us ++ vs)) := by
    simp [hp]
  have hchars : us.map Placement.char = chars us := rfl
  rw [dotAt_eq htext hpin hblank, hxs, hws, hus, hchars, hcursor]
  cases hwhole : ws with
  | nil => exact ⟨.other, if_pos (.inr (by simp)), .other⟩
  | cons w inside =>
    dsimp only
    by_cases hc : chars us ≠ [] ∧ w.char = '('
    · have hplace : Connection.placements lines = qs ++ p :: (us ++ vs) ++ w :: inside := by
        rw [h, hps, hwhole]
        simp
      rw [if_pos hc, if_neg (by simp [hc.1, hc.2])]
      cases hclosing : Connection.closing? 0 inside with
      | none => exact ⟨_, bracketAt_of_none h hplace hc.2 hclosing, .unclosed _⟩
      | some r =>
        obtain ⟨reference, rest⟩ := r
        obtain ⟨ts, q, rfl, rfl, hq⟩ := exists_of_closing? hclosing
        have hnext : qs ++ p :: (us ++ vs) ++ w :: (ts ++ [q]) =
            qs ++ p :: (us ++ vs ++ w :: (ts ++ [q])) := by simp
        refine ⟨_, bracketAt_of_some h hplace hc.2 hq hclosing, ?_⟩
        rw [hnext]
        refine .connection ?_ _ _
        rw [hps, hwhole]
        simp
    · rw [if_neg hc, if_pos]
      · exact ⟨.other, rfl, .other⟩
      · simp only [chars_cons, List.head?_cons, ne_eq, Option.some.injEq]
        tauto

/-! ### All connections -/

theorem connectionsFrom_of_error {pos : Nat} {e : Stop} (h : nextDot lines pos = .error e) :
    connectionsFrom lines pos = .error (.stopped e) := by
  rw [connectionsFrom]
  split
  · next he =>
    cases h.symm.trans he
    rfl
  · next he => cases h.symm.trans he
  · next he => cases h.symm.trans he

theorem connectionsFrom_of_none {pos : Nat} (h : nextDot lines pos = .ok none) :
    connectionsFrom lines pos = .ok [] := by
  rw [connectionsFrom]
  split
  · next he => cases h.symm.trans he
  · rfl
  · next he => cases h.symm.trans he

theorem connectionsFrom_of_some {pos dot : Nat} (h : nextDot lines pos = .ok (some dot)) :
    connectionsFrom lines pos =
      match dotAt lines dot with
      | .error e => .error (.stopped e)
      | .ok .other => connectionsFrom lines (dot + 1)
      | .ok (.unclosed pin line) => .error (.failed ((PinFault.unclosed pin).toFailure line))
      | .ok (.connection c next) => (connectionsFrom lines next).map (c :: ·) := by
  rw [connectionsFrom]
  split
  · next he => cases h.symm.trans he
  · next he => cases h.symm.trans he
  · next he =>
    cases h.symm.trans he
    split <;> simp_all

theorem connectionsFrom_congr {m n : Nat} (h : nextDot lines m = nextDot lines n) :
    connectionsFrom lines m = connectionsFrom lines n := by
  cases hn : nextDot lines n with
  | error e => rw [connectionsFrom_of_error (h.trans hn), connectionsFrom_of_error hn]
  | ok d =>
    cases d with
    | none => rw [connectionsFrom_of_none (h.trans hn), connectionsFrom_of_none hn]
    | some dot => rw [connectionsFrom_of_some (h.trans hn), connectionsFrom_of_some hn]

/-- **The connections** from a place on, by bytes and by placements. -/
theorem connectionsFrom_eq (h : Connection.placements lines = qs ++ ps) :
    connectionsFrom lines (byteSize (chars qs)) = (Connection.readAll ps).mapError .failed := by
  -- a connection takes several characters, so the induction is on how many are left
  induction hn : ps.length using Nat.strongRecOn generalizing qs ps with
  | _ n ih =>
    cases ps with
    | nil =>
      rw [List.append_nil] at h
      rw [connectionsFrom_of_none (nextDot_nil h), Connection.readAll_nil]
      rfl
    | cons p ps =>
      have hlen : (p :: ps).length = ps.length + 1 := rfl
      have hstep : Connection.placements lines = qs ++ [p] ++ ps := by simp [h]
      have hnext := nextDot_cons h
      rw [Connection.readAll_cons]
      by_cases hp : p.char = '.'
      · rw [if_pos hp] at hnext
        obtain ⟨d, hd, hreads⟩ := exists_dotAt h hp
        rw [connectionsFrom_of_some hnext, hd, if_pos hp]
        generalize Connection.afterDot ps = r at hreads
        cases hreads with
        | other =>
          have hdot : p.char.toNat < 128 := by rw [hp]; decide
          dsimp only
          rw [← byteSize_chars_concat hdot]
          exact ih ps.length (by omega) hstep rfl
        | unclosed pin => rfl
        | @connection us rest hps pin reference =>
          have hplace : Connection.placements lines = qs ++ p :: us ++ rest := by rw [h, hps]; simp
          have hrest : rest.length < n := by
            rw [← hn, hlen, hps, List.length_append]
            omega
          dsimp only
          rw [ih rest.length hrest hplace rfl]
          cases Connection.readAll rest <;> rfl
      · rw [if_neg hp] at hnext
        rw [connectionsFrom_congr hnext, if_neg hp]
        exact ih ps.length (by omega) hstep rfl

/-- **All connections** of a statement: reading its bytes never stops. -/
theorem readConnections_eq (lines : List (Text × Line)) :
    readConnections lines = (Connection.read lines).mapError .failed := by
  obtain ⟨all, hall⟩ : ∃ all, Connection.placements lines = all := ⟨_, rfl⟩
  obtain ⟨qs, hqs⟩ : ∃ qs, all.takeWhile (·.char ≠ '(') = qs := ⟨_, rfl⟩
  have hsplit := List.takeWhile_append_dropWhile (p := (·.char ≠ '(')) (l := all)
  have hnone : ∀ c ∈ chars qs, (c == '(') = false := by
    intro c hc
    obtain ⟨q, hq, rfl⟩ := List.mem_map.mp hc
    rw [← hqs] at hq
    have hne := List.mem_takeWhile_imp hq
    simpa using hne
  rw [hqs] at hsplit
  rw [readConnections, Connection.read, ← chars_placements, hall]
  cases hd : all.dropWhile (·.char ≠ '(') with
  | nil =>
    rw [hd, List.append_nil] at hsplit
    rw [← hsplit, Text.find?_eq_none hnone, List.tail_nil, Connection.readAll_nil]
    rfl
  | cons p ps =>
    have hp : p.char = '(' := by
      have hhead := List.head?_dropWhile_not (·.char ≠ '(') all
      rw [hd] at hhead
      simpa using hhead
    rw [hd] at hsplit
    have hplace : Connection.placements lines = qs ++ [p] ++ ps := by rw [hall, ← hsplit]; simp
    have hbracket : p.char.toNat < 128 := by rw [hp]; decide
    rw [← hsplit, chars_append, chars_cons, hp, Text.find?_append hnone rfl]
    dsimp only
    rw [← byteSize_chars_concat hbracket, connectionsFrom_eq hplace, List.tail_cons]

end

end Bytes

end NetFlat
