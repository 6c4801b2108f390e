import NetFlat.Dialect.Declaration
import NetFlat.Proofs.Bytes.Text

/-!
# Lines by their bytes

How a line is taken apart by offsets of bytes: comments, words, headers and declarations.  Each
slice is made at an offset that was found, or behind a piece that was read, so none of them stops.

* `Bytes.dropComment_eq`, `Bytes.code_eq`: comments;
* `Bytes.firstWord_eq`, `Bytes.identifier_eq`: words;
* `Bytes.moduleName?_eq`, `Bytes.gateHeader?_eq`: headers;
* `Bytes.read?_eq`: declarations;
* `Bytes.width?_eq`: the width of a declaration.
-/

namespace NetFlat

def Declaration.IsWide (d : Declaration) : Prop :=
  ∃ r ∈ d.range, max r.1 r.2 - min r.1 r.2 + 1 = Text.bound32

instance (d : Declaration) : Decidable d.IsWide :=
  inferInstanceAs (Decidable (∃ r ∈ d.range, max r.1 r.2 - min r.1 r.2 + 1 = Text.bound32))

namespace Bytes

open Text (before behind byteSize)

/-! ### Comments -/

def findComment? : Text → Option Nat
  | [] => none
  | c :: t =>
    if "//".toList.isPrefixOf (c :: t) then some 0 else (findComment? t).map (c.utf8Size + ·)

def dropComment (t : Text) : Except Stop Text :=
  match findComment? t with
  | some n => before n t
  | none => .ok t

def code (t : Text) : Except Stop Text := return Text.trim (← dropComment t)

theorem findComment?_eq (t : Text) :
    (findComment? t = none ∧ Dialect.dropComment t = t) ∨
      ∃ u, t = Dialect.dropComment t ++ u ∧
        findComment? t = some (byteSize (Dialect.dropComment t)) := by
  induction t with
  | nil => exact .inl ⟨rfl, rfl⟩
  | cons c t ih =>
    by_cases h : "//".toList.isPrefixOf (c :: t) = true
    · refine .inr ⟨c :: t, ?_⟩
      obtain ⟨u, hu⟩ := List.isPrefixOf_iff_prefix.mp h
      obtain ⟨rfl, ht⟩ := List.cons.inj hu
      subst ht
      exact ⟨rfl, rfl⟩
    · have hdrop : Dialect.dropComment (c :: t) = c :: Dialect.dropComment t := by
        refine Dialect.dropComment.eq_3 c t ?_
        rintro u rfl rfl
        exact h rfl
      rw [findComment?, if_neg h, hdrop]
      rcases ih with ⟨hf, hd⟩ | ⟨u, hu, hf⟩
      · exact .inl ⟨by rw [hf]; rfl, by rw [hd]⟩
      · refine .inr ⟨u, by rw [List.cons_append, ← hu], by rw [hf]; rfl⟩

theorem dropComment_eq (t : Text) : dropComment t = .ok (Dialect.dropComment t) := by
  unfold dropComment
  rcases findComment?_eq t with ⟨hf, hd⟩ | ⟨u, hu, hf⟩
  · rw [hf, hd]
  · rw [hf]
    have hslice := Text.before_byteSize (Dialect.dropComment t) u
    rw [← hu] at hslice
    exact hslice

theorem code_eq (t : Text) : code t = .ok (Dialect.code t) := by
  rw [code, dropComment_eq]
  rfl

/-! ### Words -/

def firstWord (t : Text) : Except Stop Text :=
  before ((Text.find? (!isWordChar ·) t).getD (byteSize t)) t

def identifier (t : Text) : Except Stop Text :=
  if t.head? = some '\\' then
    let escaped := t.takeWhile (!Text.isBlank ·)
    .ok (if 1 < byteSize escaped then escaped else [])
  else firstWord t

theorem firstWord_eq (t : Text) : firstWord t = .ok (Dialect.firstWord t) := by
  rw [firstWord, Text.before_find?]
  simp only [Bool.not_not]
  rfl

theorem identifier_eq (t : Text) : identifier t = .ok (Dialect.identifier t) := by
  unfold identifier Dialect.identifier
  split
  · next h =>
    obtain ⟨rest, rfl⟩ := List.head?_eq_some_iff.mp h
    have hescaped : ('\\' :: rest).takeWhile (!Text.isBlank ·) =
        '\\' :: rest.takeWhile (!Text.isBlank ·) := List.takeWhile_cons_of_pos (by decide)
    simp only [hescaped]
    cases hname : rest.takeWhile (!Text.isBlank ·) with
    | nil => rfl
    | cons c name =>
      have hlen : 1 < byteSize ('\\' :: c :: name) := by
        have h₁ := Char.utf8Size_pos '\\'
        have h₂ := c.utf8Size_pos
        simp only [Text.byteSize_cons]
        omega
      rw [if_pos hlen, if_neg (List.cons_ne_nil _ _)]
  · next h =>
    split
    · exact absurd rfl h
    · exact firstWord_eq t

theorem prefix_firstWord (t : Text) : Dialect.firstWord t <+: t := List.takeWhile_prefix _

theorem prefix_identifier (t : Text) : Dialect.identifier t <+: t := by
  unfold Dialect.identifier
  split
  · next rest =>
    dsimp only
    split
    · exact List.nil_prefix
    · exact List.cons_prefix_cons.mpr ⟨rfl, List.takeWhile_prefix _⟩
  · exact prefix_firstWord _

theorem behind_piece {s t : Text} (h : s <+: t) :
    behind (byteSize s) t = .ok (t.drop s.length) := by
  obtain ⟨u, rfl⟩ := h
  rw [Text.behind_byteSize, List.drop_left]

/-! ### Headers -/

/-- The name of the module that the code heads. -/
def moduleName? (t : Text) : Except Stop (Option Text) :=
  match Text.after? "module".toList t with
  | none => return none
  | some rest =>
    if Dialect.startsBlank rest then do
      let rest := Text.trimStart rest
      let name ← firstWord rest
      let after := Text.trimStart (← behind (byteSize name) rest)
      return if name ≠ [] ∧ after.head?.all (fun c => c == '(' || c == ';' || c == '#') then
        some name else none
    else return none

/-- The keyword and the instance name that the code heads. -/
def gateHeader? (t : Text) : Except Stop (Option (Text × Text)) := do
  let keyword ← identifier t
  if keyword.head?.any Dialect.startsKeyword && !Dialect.reserved.contains keyword then
    let rest ← behind (byteSize keyword) t
    if Dialect.startsBlank rest then
      let rest := Text.trimStart rest
      let name ← identifier rest
      if name.isEmpty then return none
      let after := Text.trimStart (← behind (byteSize name) rest)
      return if after.head?.all (· == '(') then some (keyword, name) else none
    else return none
  else return none

theorem moduleName?_eq (t : Text) : moduleName? t = .ok (Dialect.moduleName? t) := by
  unfold moduleName? Dialect.moduleName?
  cases Text.after? "module".toList t with
  | none => rfl
  | some rest =>
    dsimp only
    split
    · rw [firstWord_eq, ok_bind, behind_piece (prefix_firstWord _), ok_bind]
      rfl
    · rfl

theorem gateHeader?_eq (t : Text) : gateHeader? t = .ok (Dialect.gateHeader? t) := by
  unfold gateHeader? Dialect.gateHeader?
  rw [identifier_eq, ok_bind]
  dsimp only
  simp only [Bool.and_eq_true, Bool.not_eq_true', List.contains_eq_mem, decide_eq_false_iff_not]
  split
  · rw [behind_piece (prefix_identifier _), ok_bind]
    split
    · rw [identifier_eq, ok_bind]
      cases hname : Dialect.identifier (Text.trimStart (t.drop (Dialect.identifier t).length)) with
      | nil => rfl
      | cons c name =>
        rw [← hname, behind_piece (prefix_identifier _), ok_bind, hname]
        simp only [ne_eq, reduceCtorEq, not_false_eq_true, true_and]
        rfl
    · rfl
  · rfl

/-! ### Declarations -/

/-- The range at the start, if there is one, and what follows it. -/
def splitRange? (t : Text) : Except Stop (Option (Option (Nat × Nat) × Text)) :=
  match t with
  | '[' :: rest =>
    match Text.find? (· == ']') rest with
    | none => return none
    | some close => do
      let inside ← before close rest
      match Declaration.bounds? inside with
      | none => return none
      | some bounds => return some (some bounds, Text.trimStart (← behind (close + 1) rest))
  | _ => return some (none, t)

def isName (t : Text) : Except Stop Bool :=
  if t.head? = some '\\' then return true
  else return (← firstWord t) == t && !(t.head?.any Char.isDigit)

/-- All texts may stand in a list of names; those behind one that may not are not looked at. -/
def areNames : List Text → Except Stop Bool
  | [] => return true
  | t :: ts => do if ← isName t then areNames ts else return false

/-- Reads what follows the keyword of a declaration. -/
def read? (t : Text) : Except Stop (Option Declaration) := do
  let rest := Declaration.dropKind "reg".toList
    (Declaration.dropKind "wire".toList (Declaration.body t))
  match ← splitRange? rest with
  | none => return none
  | some (range, rest) =>
    let names := Declaration.listed rest
    if names = [] then return none
    return if ← areNames names then some ⟨range, names⟩ else none

def width? (o : Overflow) (d : Declaration) : Except Stop (Option Nat) :=
  match d.range with
  | none => return none
  | some (msb, lsb) => return some (← o.add (max msb lsb - min msb lsb) 1)

/-- The text up to a character and the text behind it, by the offset of the character. -/
theorem cut?_eq (t : Text) : (Text.find? (· == ']') t = none ∧ Text.cut? ']' t = none) ∨
    ∃ n s u, Text.find? (· == ']') t = some n ∧ before n t = .ok s ∧ behind (n + 1) t = .ok u ∧
      Text.cut? ']' t = some (s, u) := by
  cases hcut : Text.cut? ']' t with
  | none =>
    have hnone : ∀ c ∈ t, (c == ']') = false := fun c hc => by
      simpa using fun h : c = ']' => Text.cut?_eq_none_iff.mp hcut (h ▸ hc)
    exact .inl ⟨Text.find?_eq_none hnone, rfl⟩
  | some p =>
    obtain ⟨s, u⟩ := p
    obtain ⟨rfl, hnot⟩ := Text.cut?_eq_some_iff.mp hcut
    have hnone : ∀ c ∈ s, (c == ']') = false := fun c hc => by
      simpa using fun h : c = ']' => hnot (h ▸ hc)
    have hbehind := Text.behind_byteSize (s ++ [']']) u
    rw [Text.byteSize_append, List.append_assoc] at hbehind
    exact .inr ⟨_, s, u, Text.find?_append hnone rfl, Text.before_byteSize s _, hbehind, rfl⟩

theorem splitRange?_cons (t : Text) : Declaration.splitRange? ('[' :: t) =
    (Text.cut? ']' t).bind fun p =>
      (Declaration.bounds? p.1).map fun b => (some b, Text.trimStart p.2) := by
  unfold Declaration.splitRange?
  split
  · next rest h =>
    obtain rfl := (List.cons.inj h).2
    cases Text.cut? ']' t <;> rfl
  · next h => exact absurd rfl (h t)

theorem splitRange?_eq (t : Text) : splitRange? t = .ok (Declaration.splitRange? t) := by
  unfold splitRange?
  split
  · next rest =>
    rw [splitRange?_cons]
    rcases cut?_eq rest with ⟨hfind, hcut⟩ | ⟨n, s, u, hfind, hbefore, hbehind, hcut⟩
    · rw [hfind, hcut]
      rfl
    · rw [hfind, hcut]
      dsimp only
      rw [hbefore, ok_bind]
      cases hbounds : Declaration.bounds? s with
      | none =>
        rw [Option.bind_some, hbounds]
        rfl
      | some bounds =>
        dsimp only
        rw [hbehind, Option.bind_some, hbounds]
        rfl
  · next h =>
    unfold Declaration.splitRange?
    split
    · next rest => exact absurd rfl (h rest)
    · rfl

theorem isName_eq {t : Text} (h : t ≠ []) : isName t = .ok (Declaration.isName t) := by
  obtain ⟨c, t, rfl⟩ := List.exists_cons_of_ne_nil h
  have hname : Declaration.isName (c :: t) =
    (c == '\\' || ((c :: t).all isWordChar && !c.isDigit)) := rfl
  have hword : (Dialect.firstWord (c :: t) == c :: t) = (c :: t).all isWordChar := by
    rw [Bool.eq_iff_iff, beq_iff_eq, Dialect.firstWord, List.takeWhile_eq_self_iff,
      List.all_eq_true]
  rw [isName, hname, firstWord_eq, ok_bind, hword, List.head?_cons]
  by_cases hc : c = '\\'
  · rw [if_pos (congrArg some hc), hc]
    rfl
  · rw [if_neg (by simpa using hc), beq_false_of_ne hc]
    rfl

theorem areNames_eq {ts : List Text} (h : ∀ t ∈ ts, t ≠ []) :
    areNames ts = .ok (ts.all Declaration.isName) := by
  induction ts with
  | nil => rfl
  | cons t ts ih =>
    simp only [List.mem_cons, forall_eq_or_imp] at h
    rw [areNames, isName_eq h.1, ok_bind, ih h.2, List.all_cons]
    cases Declaration.isName t <;> rfl

theorem ne_nil_of_mem_listed {t u : Text} (h : u ∈ Declaration.listed t) : u ≠ [] := by
  simpa using (List.mem_filter.mp h).2

theorem read?_eq (t : Text) : read? t = .ok (Declaration.read? t) := by
  unfold read? Declaration.read?
  dsimp only
  rw [splitRange?_eq, ok_bind]
  cases Declaration.splitRange? (Declaration.dropKind "reg".toList
    (Declaration.dropKind "wire".toList (Declaration.body t))) with
  | none => rfl
  | some p =>
    obtain ⟨range, rest⟩ := p
    dsimp only
    by_cases hnil : Declaration.listed rest = []
    · simp [hnil]
      rfl
    · rw [if_neg hnil, areNames_eq fun u => ne_nil_of_mem_listed, ok_bind]
      simp [hnil]
      rfl

theorem lt_of_signedNumeral? {bound n : Nat} {t : Text} (h : Text.signedNumeral? bound t = some n) :
    n < bound := by
  simp only [Text.signedNumeral?, Text.numeral?, Option.ite_none_right_eq_some, Option.some.injEq,
    Bool.and_eq_true, decide_eq_true_eq] at h
  omega

theorem lt_of_bounds? {t : Text} {b : Nat × Nat} (h : Declaration.bounds? t = some b) :
    b.1 < Text.bound32 ∧ b.2 < Text.bound32 := by
  simp only [Declaration.bounds?, Option.bind_eq_bind, Option.bind_eq_some_iff] at h
  obtain ⟨⟨msb, lsb⟩, -, m, hm, l, hl, hb⟩ := h
  obtain rfl : (m, l) = b := by simpa using hb
  exact ⟨lt_of_signedNumeral? hm, lt_of_signedNumeral? hl⟩

theorem lt_of_splitRange? {t rest : Text} {b : Nat × Nat}
    (h : Declaration.splitRange? t = some (some b, rest)) :
    b.1 < Text.bound32 ∧ b.2 < Text.bound32 := by
  unfold Declaration.splitRange? at h
  split at h
  · split at h
    · obtain ⟨c, hc, he⟩ := Option.map_eq_some_iff.mp h
      obtain ⟨hcb, -⟩ := Prod.mk.inj he
      obtain rfl := Option.some.inj hcb
      exact lt_of_bounds? hc
    · cases h
  · cases h

theorem le_of_read? {t : Text} {d : Declaration} {msb lsb : Nat} (h : Declaration.read? t = some d)
    (hr : d.range = some (msb, lsb)) : max msb lsb - min msb lsb + 1 ≤ Text.bound32 := by
  simp only [Declaration.read?, Option.bind_eq_bind, Option.bind_eq_some_iff] at h
  obtain ⟨⟨range, rest⟩, hrange, h⟩ := h
  dsimp only at h
  split at h
  · obtain rfl := Option.some.inj h
    obtain rfl : range = some (msb, lsb) := hr
    have hb := lt_of_splitRange? hrange
    dsimp only at hb
    omega
  · cases h

/-- **The width** of a declaration, if the range that was read has less than 2^32 bits or numbers of
32 bits wrap around. -/
theorem width?_eq {o : Overflow} {t : Text} {d : Declaration} (h : Declaration.read? t = some d)
    (ho : o = .stops → ¬d.IsWide) : width? o d = .ok d.width? := by
  unfold width? Declaration.width?
  cases hr : d.range with
  | none => rfl
  | some r =>
    obtain ⟨msb, lsb⟩ := r
    have hle := le_of_read? h hr
    dsimp only
    cases o with
    | wraps => rw [Overflow.add_wraps, ok_bind]; rfl
    | stops =>
      have hlt := Nat.lt_of_le_of_ne hle fun he => ho rfl ⟨(msb, lsb), hr, he⟩
      rw [Overflow.add_of_lt hlt, ok_bind, Option.map_some, Nat.mod_eq_of_lt hlt]
      rfl

end Bytes

end NetFlat
