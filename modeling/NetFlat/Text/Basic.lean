/-!
# Text

Text is handled as the list of its characters. This module holds white space and trimming,
cutting a text at a character, and sizes in bytes of the UTF-8 form.
-/

namespace NetFlat

/-- A text, as the list of its characters. -/
abbrev Text := List Char

namespace Text

/-! ## White space -/

/-- White space: the characters with the Unicode property `White_Space`. -/
def isBlank (c : Char) : Bool :=
  let n := c.toNat
  (9 ≤ n && n ≤ 13) || n == 0x20 || n == 0x85 || n == 0xA0 || n == 0x1680 ||
    (0x2000 ≤ n && n ≤ 0x200A) || n == 0x2028 || n == 0x2029 || n == 0x202F || n == 0x205F ||
    n == 0x3000

/-- The white space of ASCII text: space, tab, line feed, form feed, carriage return. -/
def isAsciiBlank (c : Char) : Bool :=
  c == ' ' || c == '\t' || c == '\n' || c == '\x0c' || c == '\r'

/-- Drops leading white space. -/
def trimStart (t : Text) : Text := t.dropWhile isBlank

def trimEnd (t : Text) : Text := (t.reverse.dropWhile isBlank).reverse

def trim (t : Text) : Text := trimEnd (trimStart t)

theorem isBlank_of_isAsciiBlank {c : Char} (h : isAsciiBlank c = true) : isBlank c = true := by
  simp only [isAsciiBlank, Bool.or_eq_true, beq_iff_eq] at h
  rcases h with (((rfl | rfl) | rfl) | rfl) | rfl <;> decide

@[simp]
theorem trimStart_nil : trimStart [] = [] := rfl

@[simp]
theorem trimEnd_nil : trimEnd [] = [] := rfl

@[simp]
theorem trim_nil : trim [] = [] := rfl

/-! ## Cutting -/

/-- The parts before and after the first `sep`. -/
def cut? (sep : Char) : Text → Option (Text × Text)
  | [] => none
  | c :: t => if c = sep then some ([], t) else (cut? sep t).map fun p => (c :: p.1, p.2)

/-- The parts before and after the last `sep`. -/
def cutLast? (sep : Char) (t : Text) : Option (Text × Text) :=
  (cut? sep t.reverse).map fun p => (p.2.reverse, p.1.reverse)

/-- The parts before and after the first occurrence of the text `sep`. -/
def cutAt? (sep : Text) : Text → Option (Text × Text)
  | [] => if sep = [] then some ([], []) else none
  | c :: t =>
    match sep.isPrefixOf? (c :: t) with
    | some rest => some ([], rest)
    | none => (cutAt? sep t).map fun p => (c :: p.1, p.2)

/-- What follows `start` in a text that begins with it. -/
def after? (start t : Text) : Option Text := start.isPrefixOf? t

/-- What precedes the character `c` in a text that ends with it. -/
def beforeLast? (c : Char) (t : Text) : Option Text :=
  if t.getLast? = some c then some t.dropLast else none

theorem cut?_eq_some_iff {sep : Char} {t a b : Text} :
    cut? sep t = some (a, b) ↔ t = a ++ sep :: b ∧ sep ∉ a := by
  induction t generalizing a with
  | nil => simp [cut?]
  | cons c t ih =>
    by_cases h : c = sep
    · subst h
      cases a with
      | nil => simp [cut?]
      | cons d a => simp [cut?]; rintro rfl; simp
    · cases a with
      | nil => simp [cut?, h]
      | cons d a =>
        simp only [cut?, h, if_false, Option.map_eq_some_iff, Prod.mk.injEq, List.cons.injEq,
          List.cons_append, List.mem_cons, not_or, Prod.exists]
        constructor
        · rintro ⟨a', b', hab, ⟨rfl, rfl⟩, rfl⟩
          exact ⟨⟨rfl, (ih.1 hab).1⟩, fun e => h e.symm, (ih.1 hab).2⟩
        · rintro ⟨⟨rfl, ht⟩, -, hn⟩
          exact ⟨a, b, ih.2 ⟨ht, hn⟩, ⟨rfl, rfl⟩, rfl⟩

theorem cut?_eq_none_iff {sep : Char} {t : Text} : cut? sep t = none ↔ sep ∉ t := by
  induction t with
  | nil => simp [cut?]
  | cons c t ih =>
    by_cases h : c = sep
    · simp [cut?, h]
    · simp [cut?, h, ih, Ne.symm h]

theorem beforeLast?_eq_some_iff {c : Char} {t s : Text} :
    beforeLast? c t = some s ↔ t = s ++ [c] := by
  unfold beforeLast?
  constructor
  · intro h
    split at h
    · next hc =>
      obtain ⟨u, rfl⟩ := List.getLast?_eq_some_iff.mp hc
      rw [List.dropLast_concat] at h
      rw [Option.some.inj h]
    · simp at h
  · rintro rfl
    simp

/-! ## Joining -/

/-- The texts in a row, with `sep` between each two of them. -/
def join (sep : Text) (ts : List Text) : Text := sep.intercalate ts

/-! ## Bytes -/

def byteSize (t : Text) : Nat := t.foldr (fun c n => c.utf8Size + n) 0

/-- What is left after the first `n` bytes; `none` if they end inside a character or past the
end. -/
def dropBytes? : Nat → Text → Option Text
  | 0, t => some t
  | _ + 1, [] => none
  | n + 1, c :: t => if c.utf8Size ≤ n + 1 then dropBytes? (n + 1 - c.utf8Size) t else none

/-- The first `n` bytes; `none` if they end inside a character or past the end. -/
def takeBytes? : Nat → Text → Option Text
  | 0, _ => some []
  | _ + 1, [] => none
  | n + 1, c :: t =>
    if c.utf8Size ≤ n + 1 then (takeBytes? (n + 1 - c.utf8Size) t).map (c :: ·) else none

/-- The text from byte `start` to byte `stop`. -/
def slice? (start stop : Nat) (t : Text) : Option Text :=
  if start ≤ stop then (dropBytes? start t).bind (takeBytes? (stop - start)) else none

@[simp]
theorem byteSize_nil : byteSize [] = 0 := rfl

@[simp]
theorem byteSize_cons (c : Char) (t : Text) : byteSize (c :: t) = c.utf8Size + byteSize t := rfl

@[simp]
theorem byteSize_append (s t : Text) : byteSize (s ++ t) = byteSize s + byteSize t := by
  induction s with
  | nil => simp
  | cons c s ih => rw [List.cons_append, byteSize_cons, byteSize_cons, ih, Nat.add_assoc]

theorem dropBytes?_byteSize (s t : Text) : dropBytes? (byteSize s) (s ++ t) = some t := by
  induction s with
  | nil => simp [dropBytes?]
  | cons c s ih =>
    obtain ⟨k, hk⟩ : ∃ k, c.utf8Size + byteSize s = k + 1 :=
      ⟨c.utf8Size + byteSize s - 1, by have := c.utf8Size_pos; omega⟩
    rw [byteSize_cons, hk, List.cons_append, dropBytes?, if_pos (by omega), ← hk]
    simpa using ih

theorem takeBytes?_byteSize (s t : Text) : takeBytes? (byteSize s) (s ++ t) = some s := by
  induction s with
  | nil => simp [takeBytes?]
  | cons c s ih =>
    obtain ⟨k, hk⟩ : ∃ k, c.utf8Size + byteSize s = k + 1 :=
      ⟨c.utf8Size + byteSize s - 1, by have := c.utf8Size_pos; omega⟩
    rw [byteSize_cons, hk, List.cons_append, takeBytes?, if_pos (by omega), ← hk]
    simpa using ih

/-- A slice whose ends are the sizes of what stands before its ends is what stands between. -/
theorem slice?_append (s t u : Text) :
    slice? (byteSize s) (byteSize s + byteSize t) (s ++ (t ++ u)) = some t := by
  simp [slice?, dropBytes?_byteSize, takeBytes?_byteSize]

/-! ## Writing text into messages -/

/-- The text between backquotes, as messages quote names. -/
def quoted (t : Text) : String := "`" ++ String.ofList t ++ "`"

end Text

end NetFlat
