import NetFlat.Proofs.Text.Words

/-!
# Texts as bytes

A program that keeps texts in UTF-8 finds its way by offsets of bytes: it looks at single bytes, and
it slices texts at offsets.  Not each offset is one at which a text can be sliced, so such a program
can stop without an outcome.  This module holds the operations that can, each with its reason to
stop, and what comes of them at the offsets at which characters start.

* `Stop`, `orStop`: the reasons to stop;
* `Overflow`, `Overflow.add`, `Overflow.sub`: numbers of 32 bits;
* `Text.bytes`, `Text.takeWhile_bytes`, `Text.getElem?_bytes`: the bytes of a text;
* `Text.before_byteSize`, `Text.behind_byteSize`, `Text.between_byteSize`: slices;
* `Text.find?_append`, `Text.before_find?`: the offset of a character.
-/

namespace NetFlat

/-! ### Reasons to stop -/

/-- Why a run stops without an outcome. -/
inductive Stop where
  /-- A slice ends inside of a character or behind the end of the text. -/
  | slice
  /-- A list is asked for an element behind its end. -/
  | index
  /-- One is taken from zero. -/
  | belowZero
  /-- A number does not fit in 32 bits. -/
  | overflow
  /-- Spans of two files are merged. -/
  | otherFile
  /-- A gate is asked for the connection of a pin that it does not connect. -/
  | unbound
  /-- A cell is given another number of operands than it has inputs. -/
  | operands
deriving DecidableEq, Repr

/-- What there is, and a stop where there is nothing. -/
def orStop {α : Type} (reason : Stop) : Option α → Except Stop α
  | some a => .ok a
  | none => .error reason

@[simp]
theorem orStop_some {α : Type} (reason : Stop) (a : α) : orStop reason (some a) = .ok a := rfl

@[simp]
theorem ok_bind {ε α β : Type} (a : α) (f : α → Except ε β) : (Except.ok a >>= f) = f a := rfl

/-! ### Numbers of 32 bits -/

/-- What comes of a number that does not fit in 32 bits: its lower bits, or a stop. -/
inductive Overflow where
  | wraps
  | stops
deriving DecidableEq, Repr

namespace Overflow

def add (o : Overflow) (m n : Nat) : Except Stop Nat :=
  if m + n < Text.bound32 then .ok (m + n)
  else match o with
    | .wraps => .ok ((m + n) % Text.bound32)
    | .stops => .error .overflow

def sub (o : Overflow) (m n : Nat) : Except Stop Nat :=
  if n ≤ m then .ok (m - n)
  else match o with
    | .wraps => .ok (m + Text.bound32 - n)
    | .stops => .error .overflow

variable {o : Overflow} {m n : Nat}

theorem add_of_lt (h : m + n < Text.bound32) : o.add m n = .ok (m + n) := if_pos h

theorem sub_of_le (h : n ≤ m) : o.sub m n = .ok (m - n) := if_pos h

/-- The run stops at a number that does not fit in 32 bits, or it comes to the same as another. -/
def Refines {α : Type} (x y : Except Stop α) : Prop := x = .error .overflow ∨ x = y

namespace Refines

variable {α β : Type} {x y : Except Stop α} {f g : α → Except Stop β}

theorem refl (x : Except Stop α) : Refines x x := .inr rfl

theorem bind (h : Refines x y) (hf : ∀ a, Refines (f a) (g a)) : Refines (x >>= f) (y >>= g) := by
  rcases h with rfl | rfl
  · exact .inl rfl
  · cases x with
    | error e => exact .inr rfl
    | ok a => exact hf a

theorem foldlM {f g : β → α → Except Stop β} (h : ∀ b a, Refines (f b a) (g b a)) (as : List α)
    (b : β) : Refines (as.foldlM f b) (as.foldlM g b) := by
  induction as generalizing b with
  | nil => exact refl _
  | cons a as ih => exact (h b a).bind ih

/-- What a run comes to if it does not stop, the other one comes to. -/
theorem eq_ok {a : α} (h : Refines x y) (hx : x = .ok a) : y = .ok a := by
  rcases h with rfl | rfl
  · cases hx
  · exact hx

end Refines

theorem add_refines (m n : Nat) : Refines (stops.add m n) (wraps.add m n) := by
  unfold add
  split
  · exact .refl _
  · exact .inl rfl

theorem add_wraps (m n : Nat) : wraps.add m n = .ok ((m + n) % Text.bound32) := by
  unfold add
  split
  · next h => rw [Nat.mod_eq_of_lt h]
  · rfl

end Overflow

namespace Text

variable {s t u : Text} {c d : Char}

/-! ### Bytes -/

def bytes (t : Text) : List UInt8 := t.flatMap String.utf8EncodeChar

def byteOf (c : Char) : UInt8 := UInt8.ofNat c.toNat

@[simp]
theorem bytes_nil : bytes [] = [] := rfl

@[simp]
theorem bytes_cons (c : Char) (t : Text) :
    bytes (c :: t) = String.utf8EncodeChar c ++ bytes t := rfl

@[simp]
theorem bytes_append (s t : Text) : bytes (s ++ t) = bytes s ++ bytes t := List.flatMap_append

@[simp]
theorem length_bytes (t : Text) : (bytes t).length = byteSize t := by
  induction t with
  | nil => rfl
  | cons c t ih => simp [ih, String.length_utf8EncodeChar]

theorem drop_bytes (s t : Text) : (bytes (s ++ t)).drop (byteSize s) = bytes t := by
  rw [bytes_append, ← length_bytes, List.drop_left]

theorem encode_of_lt (h : c.toNat < 128) : String.utf8EncodeChar c = [byteOf c] := by
  have hc : c.val.toNat ≤ 127 := Nat.le_of_lt_succ h
  simp only [String.utf8EncodeChar, if_pos hc]
  rfl

theorem utf8Size_of_lt (h : c.toNat < 128) : c.utf8Size = 1 := by
  rw [← String.length_utf8EncodeChar, encode_of_lt h, List.length_singleton]

theorem byteSize_replicate (h : c.toNat < 128) (n : Nat) : byteSize (List.replicate n c) = n := by
  induction n with
  | zero => rfl
  | succ n ih => rw [List.replicate_succ, byteSize_cons, ih, utf8Size_of_lt h, Nat.add_comm]

theorem le_of_mem_encode (h : 128 ≤ c.toNat) {b : UInt8} (hb : b ∈ String.utf8EncodeChar c) :
    128 ≤ b.toNat := by
  have hc : ¬c.val.toNat ≤ 127 := by
    change ¬c.toNat ≤ 127
    omega
  simp only [String.utf8EncodeChar, if_neg hc] at hb
  split at hb
  · simp only [List.mem_cons, List.not_mem_nil, or_false] at hb
    rcases hb with rfl | rfl <;> simp only [UInt8.toNat_ofNat'] <;> omega
  split at hb
  · simp only [List.mem_cons, List.not_mem_nil, or_false] at hb
    rcases hb with rfl | rfl | rfl <;> simp only [UInt8.toNat_ofNat'] <;> omega
  · simp only [List.mem_cons, List.not_mem_nil, or_false] at hb
    rcases hb with rfl | rfl | rfl | rfl <;> simp only [UInt8.toNat_ofNat'] <;> omega

theorem toNat_byteOf (h : c.toNat < 128) : (byteOf c).toNat = c.toNat := by
  rw [byteOf, UInt8.toNat_ofNat']
  omega

theorem byteOf_inj (hc : c.toNat < 128) (hd : d.toNat < 128) : byteOf c = byteOf d ↔ c = d := by
  constructor
  · intro h
    have hn : c.toNat = d.toNat := by rw [← toNat_byteOf hc, ← toNat_byteOf hd, h]
    rw [← Char.ofNat_toNat c, ← Char.ofNat_toNat d, hn]
  · rintro rfl
    rfl

/-- An ASCII character is told from all others by any one of its bytes. -/
theorem mem_encode_iff (hd : d.toNat < 128) : byteOf d ∈ String.utf8EncodeChar c ↔ c = d := by
  by_cases hc : c.toNat < 128
  · rw [encode_of_lt hc, List.mem_singleton, byteOf_inj hd hc, eq_comm]
  · constructor
    · intro h
      have := le_of_mem_encode (Nat.le_of_not_lt hc) h
      rw [toNat_byteOf hd] at this
      omega
    · rintro rfl
      exact absurd hd hc

theorem encode_ne_nil (c : Char) : String.utf8EncodeChar c ≠ [] := by
  intro h
  have := String.length_utf8EncodeChar c
  rw [h] at this
  exact absurd this.symm (Nat.ne_of_gt c.utf8Size_pos)

/-- Looking at the byte at which a character starts tells an ASCII character. -/
theorem getElem?_bytes (hd : d.toNat < 128) (s t : Text) :
    (bytes (s ++ t))[byteSize s]? = some (byteOf d) ↔ t.head? = some d := by
  rw [bytes_append, List.getElem?_append_right (by simp), length_bytes, Nat.sub_self]
  cases t with
  | nil => simp
  | cons c t =>
    obtain ⟨b, bs, hb⟩ := List.exists_cons_of_ne_nil (encode_ne_nil c)
    rw [bytes_cons, hb]
    simp only [List.cons_append, List.getElem?_cons_zero, Option.some.injEq, List.head?_cons]
    constructor
    · rintro rfl
      exact (mem_encode_iff hd).mp (by simp [hb])
    · rintro rfl
      rw [encode_of_lt hd] at hb
      exact (List.cons.inj hb).1.symm

theorem getElem?_bytes_last (hd : d.toNat < 128) (s t : Text) (c : Char) :
    (bytes (s ++ c :: t))[byteSize s + c.utf8Size - 1]? = some (byteOf d) ↔ c = d := by
  have hlen := String.length_utf8EncodeChar c
  have hpos := c.utf8Size_pos
  obtain ⟨init, b, hb⟩ := List.eq_nil_or_concat' (String.utf8EncodeChar c) |>.resolve_left
    (encode_ne_nil c)
  rw [hb, List.length_append, List.length_singleton] at hlen
  rw [bytes_append, List.getElem?_append_right (by rw [length_bytes]; omega), length_bytes,
    bytes_cons, hb, List.append_assoc, List.getElem?_append_right (by omega)]
  have hzero : byteSize s + c.utf8Size - 1 - byteSize s - init.length = 0 := by omega
  rw [hzero, List.singleton_append, List.getElem?_cons_zero, Option.some.injEq]
  constructor
  · rintro rfl
    exact (mem_encode_iff hd).mp (by simp [hb])
  · rintro rfl
    rw [encode_of_lt hd] at hb
    obtain ⟨-, hlast⟩ : [] = init ∧ [byteOf c] = [b] := List.append_inj' hb rfl
    exact (List.cons.inj hlast).1.symm

/-- The bytes of a kind are those of the ASCII characters of a kind. -/
structure Matches (q : UInt8 → Bool) (p : Char → Bool) : Prop where
  ascii : ∀ c, c.toNat < 128 → q (byteOf c) = p c
  char : ∀ c, 128 ≤ c.toNat → p c = false
  byte : ∀ b, 128 ≤ b.toNat → q b = false

theorem takeWhile_bytes {q : UInt8 → Bool} {p : Char → Bool} (h : Matches q p) (t : Text) :
    (bytes t).takeWhile q = bytes (t.takeWhile p) := by
  induction t with
  | nil => rfl
  | cons c t ih =>
    by_cases hc : c.toNat < 128
    · rw [bytes_cons, encode_of_lt hc, List.singleton_append, List.takeWhile_cons,
        List.takeWhile_cons, h.ascii c hc, ih]
      split
      · rw [bytes_cons, encode_of_lt hc, List.singleton_append]
      · rfl
    · obtain ⟨b, bs, hb⟩ := List.exists_cons_of_ne_nil (encode_ne_nil c)
      have hq : q b = false := h.byte b (le_of_mem_encode (Nat.le_of_not_lt hc) (by simp [hb]))
      have hp : p c = false := h.char c (Nat.le_of_not_lt hc)
      rw [bytes_cons, hb, List.cons_append, List.takeWhile_cons, hq, List.takeWhile_cons, hp]
      rfl

/-! ### Slices -/

def before (n : Nat) (t : Text) : Except Stop Text := orStop .slice (takeBytes? n t)

def behind (n : Nat) (t : Text) : Except Stop Text := orStop .slice (dropBytes? n t)

def between (m n : Nat) (t : Text) : Except Stop Text := orStop .slice (slice? m n t)

@[simp]
theorem before_byteSize (s t : Text) : before (byteSize s) (s ++ t) = .ok s := by
  rw [before, takeBytes?_byteSize, orStop_some]

@[simp]
theorem behind_byteSize (s t : Text) : behind (byteSize s) (s ++ t) = .ok t := by
  rw [behind, dropBytes?_byteSize, orStop_some]

theorem between_byteSize (s t u : Text) :
    between (byteSize s) (byteSize s + byteSize t) (s ++ (t ++ u)) = .ok t := by
  rw [between, slice?_append, orStop_some]

/-- A slice that does not stop starts where a character starts. -/
theorem behind_eq_ok_iff {n : Nat} : behind n t = .ok u ↔ ∃ s, t = s ++ u ∧ byteSize s = n := by
  constructor
  · intro h
    induction t generalizing n with
    | nil =>
      cases n with
      | zero => exact ⟨[], by simpa [behind, dropBytes?] using h, rfl⟩
      | succ n => simp [behind, dropBytes?, orStop] at h
    | cons c t ih =>
      cases n with
      | zero => exact ⟨[], by simpa [behind, dropBytes?] using h, rfl⟩
      | succ n =>
        rw [behind, dropBytes?] at h
        split at h
        · next hle =>
          obtain ⟨s, rfl, hs⟩ := ih h
          exact ⟨c :: s, rfl, by rw [byteSize_cons, hs]; omega⟩
        · simp [orStop] at h
  · rintro ⟨s, rfl, rfl⟩
    exact behind_byteSize s u

/-! ### Offsets of characters -/

/-- The offset of the first character of a kind. -/
def find? (p : Char → Bool) : Text → Option Nat
  | [] => none
  | c :: t => if p c then some 0 else (find? p t).map (c.utf8Size + ·)

variable {p : Char → Bool}

theorem find?_eq_none (h : ∀ c ∈ t, p c = false) : find? p t = none := by
  induction t with
  | nil => rfl
  | cons c t ih =>
    simp only [List.mem_cons, forall_eq_or_imp] at h
    rw [find?, if_neg (by simp [h.1]), ih h.2]
    rfl

theorem find?_append (h : ∀ c ∈ s, p c = false) (hd : p d = true) :
    find? p (s ++ d :: t) = some (byteSize s) := by
  induction s with
  | nil => exact if_pos hd
  | cons c s ih =>
    simp only [List.mem_cons, forall_eq_or_imp] at h
    rw [List.cons_append, find?, if_neg (by simp [h.1]), ih h.2]
    rfl

theorem lt_of_find? {n : Nat} (h : find? p t = some n) : n < byteSize t := by
  induction t generalizing n with
  | nil => simp [find?] at h
  | cons c t ih =>
    have hpos := c.utf8Size_pos
    rw [find?] at h
    split at h
    · obtain rfl := Option.some.inj h
      rw [byteSize_cons]
      omega
    · obtain ⟨m, hm, rfl⟩ := Option.map_eq_some_iff.mp h
      have := ih hm
      rw [byteSize_cons]
      omega

/-- The text up to the first character of a kind, all of it if there is none. -/
theorem before_find? (p : Char → Bool) (t : Text) :
    before ((find? p t).getD (byteSize t)) t = .ok (t.takeWhile (!p ·)) := by
  have hsplit : t.takeWhile (!p ·) ++ t.dropWhile (!p ·) = t := List.takeWhile_append_dropWhile
  have hnone : ∀ c ∈ t.takeWhile (!p ·), p c = false := fun c hc => by
    simpa using List.mem_takeWhile_imp hc
  cases hd : t.dropWhile (!p ·) with
  | nil =>
    rw [hd, List.append_nil] at hsplit
    rw [hsplit] at hnone ⊢
    rw [find?_eq_none hnone, Option.getD_none]
    simpa using before_byteSize t []
  | cons d u =>
    rw [hd] at hsplit
    have hp : p d = true := by
      have := List.head?_dropWhile_not (!p ·) t
      rw [hd] at this
      simpa using this
    have hfind := find?_append (t := u) hnone hp
    have hslice := before_byteSize (t.takeWhile (!p ·)) (d :: u)
    rw [hsplit] at hfind hslice
    rw [hfind, Option.getD_some]
    exact hslice

end Text

end NetFlat
