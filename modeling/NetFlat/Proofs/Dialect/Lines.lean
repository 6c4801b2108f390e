import NetFlat.Proofs.Scan.Items
import NetFlat.Proofs.Text.Marks
import NetFlat.Proofs.Text.Words

/-!
# Lines of a netlist

What single lines are read as: the code of an indented line, declarations, the heads of instances
and the lines that follow them.

* `uncommented_code`, `code_code`, `code_of_uncommented`: code, and an indented line without comment;
* `ofBody_declarationWord`, `ofBody_attribute`, `ofBody_gate`, `read_gate`: lines of a module body;
* `body_append_semicolon`, `dropKind_eq_self`, `dropKind_append`, `splitRange?_append`,
  `bounds?_append`: the parts of a declaration;
* `read?_word`, `read?_range`: what declarations declare.
-/

namespace NetFlat

open Text (IsWord)

namespace Dialect

variable {s t w : Text}

/-- What is left in front of a comment begins as the text does. -/
theorem exists_cons_of_dropComment {c : Char} {t : Text} (h : (dropComment t).head? = some c) :
    ∃ u, t = c :: u := by
  unfold dropComment at h
  split at h
  · simp at h
  · simp at h
  · next d u _ =>
    obtain rfl : d = c := Option.some.inj h
    exact ⟨u, rfl⟩

/-- What is left in front of a comment has no comment mark in it. -/
theorem uncommented_dropComment (t : Text) : (dropComment t).Uncommented := by
  induction t using dropComment.induct with
  | case1 => decide
  | case2 t => simp [dropComment, Text.Uncommented]
  | case3 c t hne ih =>
    rw [dropComment]
    · intro h
      rcases List.infix_cons_iff.mp h with h | h
      · -- a slash in front of what is left would have made a comment mark
        obtain ⟨rfl, u, hu⟩ := List.cons_prefix_cons.mp h
        obtain ⟨v, rfl⟩ := exists_cons_of_dropComment (t := t) (by rw [← hu]; rfl)
        exact hne v rfl rfl
      · exact ih h
    · exact hne

theorem dropComment_of_uncommented {t : Text} (h : t.Uncommented) : dropComment t = t := by
  induction t using dropComment.induct with
  | case1 => rfl
  | case2 t => exact absurd ⟨[], t, rfl⟩ h
  | case3 c t hne ih =>
    rw [dropComment]
    · rw [ih (h.mono (List.infix_cons List.infix_rfl))]
    · exact hne

/-- A comment is dropped, with nothing of what stands in front of it. -/
theorem dropComment_append_mark (h : t.Uncommented) (hlast : t.getLast? ≠ some '/')
    (remark : Text) : dropComment (t ++ '/' :: '/' :: remark) = t := by
  induction t with
  | nil => rfl
  | cons c t ih =>
    have hrest : t.getLast? ≠ some '/' := by
      intro he
      cases t with
      | nil => simp at he
      | cons d t => exact hlast (by simpa using he)
    rw [List.cons_append, dropComment.eq_3, ih (h.mono (List.infix_cons List.infix_rfl)) hrest]
    -- the mark does not begin at this character
    rintro u rfl hu
    cases t with
    | nil => exact hlast rfl
    | cons d t =>
      obtain rfl : d = '/' := (List.cons.inj hu).1
      exact h ⟨[], t, rfl⟩

theorem uncommented_code (t : Text) : (code t).Uncommented :=
  (uncommented_dropComment t).mono (Text.infix_trim _)

theorem code_code (t : Text) : code (code t) = code t := by
  have htrim : Text.trim (code t) = code t := (Text.trimmed_trim _).trim_eq_self
  conv_lhs => rw [code, dropComment_of_uncommented (uncommented_code t), htrim]

theorem code_of_uncommented (hs : s.Blanks) (ht : t.Trimmed) (h : t.Uncommented) :
    code (s ++ t) = t := by
  have hindent : '/' ∉ s := fun hm => absurd (hs _ hm) (by decide)
  have huncommented : Text.Uncommented (s ++ t) := h.append_left hindent
  have htrim := Text.trim_blanks hs ht (u := []) (by simp [Text.Blanks])
  rw [code, dropComment_of_uncommented huncommented]
  simpa using htrim

theorem code_indented (hs : s.Blanks) (ht : t.Trimmed) (hc : '/' ∉ t) : code (s ++ t) = t :=
  code_of_uncommented hs ht (Text.uncommented_of_not_mem hc)

theorem firstWord_append (hw : w.IsWord) (ht : ∀ c ∈ t.head?, isWordChar c = false) :
    firstWord (w ++ t) = w := by
  unfold firstWord
  rw [List.takeWhile_append_of_pos hw]
  cases t with
  | nil => simp
  | cons c t => simp [ht c (by simp)]

theorem identifier_append (hne : w ≠ []) (hw : w.IsWord)
    (ht : ∀ c ∈ t.head?, isWordChar c = false) : identifier (w ++ t) = w := by
  cases w with
  | nil => exact absurd rfl hne
  | cons c w =>
    have hc : c ≠ '\\' := by
      rintro rfl
      exact absurd (hw '\\' (by simp)) (by decide)
    unfold identifier
    split
    · next h => exact absurd (List.cons.inj h).1 hc
    · exact firstWord_append hw ht

/-- What stands behind a name up to the bracket does not go on with it. -/
theorem isWordChar_eq_false_of_trimStart (h : ∀ c ∈ (Text.trimStart t).head?, c = '(') :
    ∀ c ∈ t.head?, isWordChar c = false := by
  intro c hc
  by_cases hb : Text.isBlank c = true
  · exact isWordChar_of_isBlank hb
  · have hself : Text.trimStart t = t := by
      refine Text.trimStart_eq_self fun d hd => ?_
      obtain rfl : c = d := Option.some.inj (hc.symm.trans hd)
      simpa using hb
    rw [h c (by rwa [hself])]
    decide

/-- The head of an instance: keyword, white space and name, and a bracket if anything follows. -/
theorem gateHeader?_append {k n : Text} (hk : k.IsWord) (hkey : k.head?.any startsKeyword = true)
    (hres : k ∉ reserved) (hs : s.Blanks) (hsne : s ≠ []) (hne : n ≠ []) (hn : n.IsWord)
    (ht : ∀ c ∈ (Text.trimStart t).head?, c = '(') :
    gateHeader? (k ++ (s ++ (n ++ t))) = some (k, n) := by
  have hkne : k ≠ [] := by
    rintro rfl
    simp at hkey
  obtain ⟨b, s', rfl⟩ := List.exists_cons_of_ne_nil hsne
  have hblank : Text.isBlank b = true := hs b (by simp)
  have hb : isWordChar b = false := isWordChar_of_isBlank hblank
  have hid : identifier (k ++ (b :: s' ++ (n ++ t))) = k :=
    identifier_append hkne hk (by simpa using hb)
  have hdrop : (k ++ (b :: s' ++ (n ++ t))).drop k.length = b :: s' ++ (n ++ t) := List.drop_left
  have htrim : Text.trimStart (b :: s' ++ (n ++ t)) = n ++ t := by
    obtain ⟨c, n, rfl⟩ := List.exists_cons_of_ne_nil hne
    have hc : Text.isBlank c = false := isBlank_of_isWordChar (hn c (by simp))
    rw [Text.trimStart_append hs, Text.trimStart_eq_self (by simpa using hc)]
  have hname : identifier (n ++ t) = n :=
    identifier_append hne hn (isWordChar_eq_false_of_trimStart ht)
  have hafter : (Text.trimStart ((n ++ t).drop n.length)).head?.all (· == '(') = true := by
    rw [List.drop_left]
    cases h : (Text.trimStart t).head? with
    | none => rfl
    | some c => simp [ht c h]
  have hstart : startsBlank (b :: s' ++ (n ++ t)) = true := hblank
  simp only [gateHeader?, hid, hdrop, htrim, hname]
  rw [if_pos ⟨hkey, hres⟩, if_pos hstart, if_pos ⟨hne, hafter⟩]

theorem moduleName?_append (hne : w ≠ []) (hw : w.IsWord) (ht : t.head? = some '(') :
    moduleName? ("module ".toList ++ (w ++ t)) = some w := by
  obtain ⟨c, u, rfl⟩ := List.exists_cons_of_ne_nil hne
  have hb : Text.isBlank c = false := isBlank_of_isWordChar (hw c (by simp))
  have hafter : Text.after? "module".toList ("module ".toList ++ (c :: u ++ t)) =
      some (' ' :: (c :: u ++ t)) := rfl
  have hblank : startsBlank (' ' :: (c :: u ++ t)) = true := rfl
  have htrim : Text.trimStart (' ' :: (c :: u ++ t)) = c :: u ++ t := by
    have hs : Text.Blanks [' '] := by simp [Text.Blanks]; decide
    have := Text.trimStart_append (t := c :: u ++ t) hs
    rw [List.singleton_append] at this
    rw [this, Text.trimStart_eq_self (by simpa using hb)]
  have hfirst : firstWord (c :: u ++ t) = c :: u := by
    refine firstWord_append hw fun d hd => ?_
    obtain rfl : '(' = d := Option.some.inj (ht.symm.trans hd)
    decide
  have hrest : Text.trimStart ((c :: u ++ t).drop (c :: u).length) = t := by
    rw [List.drop_left, Text.trimStart_eq_self]
    intro d hd
    obtain rfl : '(' = d := Option.some.inj (ht.symm.trans hd)
    decide
  simp only [moduleName?, hafter, hblank, if_true, htrim, hfirst, hrest, ht]
  rw [if_pos ⟨hne, rfl⟩]

theorem isAttribute_eq_false (h : t.head? ≠ some '(') : isAttribute t = false := by
  cases t with
  | nil => rfl
  | cons c t =>
    have hc : c ≠ '(' := fun e => h (by rw [e]; rfl)
    have : "(*".toList.isPrefixOf (c :: t) = false := by
      show ('(' == c && _) = false
      simp [Ne.symm hc]
    rw [isAttribute, this, Bool.false_and]

theorem endsStatement_eq_false (h : t.getLast? ≠ some ';') : endsStatement t = false := by
  simp [endsStatement, Text.beforeLast?, h]

theorem firstWord_eq_nil (h : ∀ c ∈ t.head?, isWordChar c = false) : firstWord t = [] := by
  have := firstWord_append (w := []) (by simp [Text.IsWord]) h
  rwa [List.nil_append] at this

end Dialect

/-! ### Lines of a module body -/

theorem Cell.keyword_of_find? {k : Text} {cell : Cell} (h : Cell.find? k = some cell) :
    k.IsWord ∧ k.head?.any Dialect.startsKeyword = true ∧ k ∉ Dialect.reserved := by
  have hall : ∀ cell ∈ Cell.catalog, cell.keyword.IsWord ∧
      cell.keyword.head?.any Dialect.startsKeyword = true ∧ cell.keyword ∉ Dialect.reserved := by
    decide
  have hkey : cell.keyword = k := by simpa using List.find?_some h
  exact hkey ▸ hall cell (List.mem_of_find?_eq_some h)

namespace Phase

variable {config : Config} {code : Text} {line : Line}

def declarationWord : DeclarationKind → Text
  | .port .input => "input".toList
  | .port .output => "output".toList
  | .wire => "wire".toList

theorem ofBody_declarationWord (kind : DeclarationKind) (line : Line) {t : Text}
    (ht : ∀ c ∈ t.head?, isWordChar c = false) : ofBody (declarationWord kind ++ t) line =
      ofDeclaration (declarationWord kind ++ t) ⟨kind, t, line⟩ := by
  have hword : (declarationWord kind).IsWord := by
    rcases kind with (_ | _) | _ <;> decide
  have hfirst : Dialect.firstWord (declarationWord kind ++ t) = declarationWord kind :=
    Dialect.firstWord_append hword ht
  have hdrop : (declarationWord kind ++ t).drop (declarationWord kind).length = t := List.drop_left
  have hattr : Dialect.isAttribute (declarationWord kind ++ t) = false := by
    refine Dialect.isAttribute_eq_false ?_
    rcases kind with (_ | _) | _ <;> exact fun e => absurd (Option.some.inj e) (by decide)
  have hne : ¬(declarationWord kind ++ t = [] ∨
      Dialect.isAttribute (declarationWord kind ++ t) = true) := by
    have hword : declarationWord kind ≠ [] := by
      rcases kind with (_ | _) | _ <;> decide
    simp [hattr, hword]
  simp only [ofBody, if_neg hne, hfirst, hdrop]
  rcases kind with (_ | _) | _
  · rw [if_neg (by decide), if_pos (by decide)]
  · rw [if_neg (by decide), if_neg (by decide), if_pos (by decide)]
  · rw [if_neg (by decide), if_neg (by decide), if_neg (by decide), if_pos (by decide)]

theorem ofBody_declaration {kind : DeclarationKind} {t : Text} (ht : ';' ∈ t) :
    ofBody (declarationWord kind ++ ' ' :: t) line =
      (.body, some (.declaration ⟨kind, ' ' :: t, line⟩)) := by
  have hsemi : ';' ∈ declarationWord kind ++ ' ' :: t := by simp [ht]
  rw [ofBody_declarationWord kind line (by simp; decide), ofDeclaration, if_pos hsemi]

theorem ofBody_attribute (h : Dialect.isAttribute code = true) : ofBody code line = (.body, none) :=
  if_pos (.inr h)

theorem ofBody_gate (line : Line) {k s n t : Text} (hk : k.IsWord)
    (hkey : k.head?.any Dialect.startsKeyword = true) (hres : k ∉ Dialect.reserved) (hs : s.Blanks)
    (hsne : s ≠ []) (hne : n ≠ []) (hn : n.IsWord) (ht : ∀ c ∈ (Text.trimStart t).head?, c = '(') :
    ofBody (k ++ (s ++ (n ++ t))) line =
      ofGate (k ++ (s ++ (n ++ t))) ⟨k, n, line, [(k ++ (s ++ (n ++ t)), line)]⟩ := by
  have hheader := Dialect.gateHeader?_append hk hkey hres hs hsne hne hn ht
  have hfirst : Dialect.firstWord (k ++ (s ++ (n ++ t))) = k := by
    refine Dialect.firstWord_append hk fun c hc => ?_
    rw [List.head?_append_of_ne_nil _ hsne] at hc
    exact isWordChar_of_isBlank (hs c (List.mem_of_head? hc))
  have hattr : Dialect.isAttribute (k ++ (s ++ (n ++ t))) = false := by
    refine Dialect.isAttribute_eq_false fun e => ?_
    cases k with
    | nil => simp at hkey
    | cons c k =>
      obtain rfl : c = '(' := Option.some.inj e
      exact absurd (hk '(' (by simp)) (by decide)
  have hcode : ¬(k ++ (s ++ (n ++ t)) = [] ∨
      Dialect.isAttribute (k ++ (s ++ (n ++ t))) = true) := by
    simp [hattr, hsne]
  have hword {u : Text} (hu : u ∈ Dialect.reserved) : k ≠ u := fun e => hres (e ▸ hu)
  simp only [ofBody, if_neg hcode, hfirst]
  rw [if_neg (hword (by decide)), if_neg (hword (by decide)), if_neg (hword (by decide)),
    if_neg (hword (by decide)), hheader]

theorem advance_gate {g : OpenGate} (h : Dialect.firstWord code ≠ "endmodule".toList) :
    advance config code line (.gate g) = ofGate code (g.extend code line) := if_neg h

/-- The further lines of an instance, the last of which ends it. -/
theorem read_gate {g : OpenGate} {ls : List (Text × Line)} {last : Text × Line}
    (hw : ∀ l ∈ ls ++ [last], Dialect.firstWord l.1 ≠ "endmodule".toList)
    (hs : ∀ l ∈ ls, Dialect.endsStatement l.1 = false)
    (he : Dialect.endsStatement last.1 = true) :
    (Phase.gate g).read config (ls ++ [last]) =
      (.body, [.gate { g with lines := g.lines ++ (ls ++ [last]) }]) := by
  induction ls generalizing g with
  | nil =>
    rw [List.nil_append, read, advance_gate (hw last (by simp)), ofGate, if_pos he]
    rfl
  | cons l ls ih =>
    have hl : ¬Dialect.endsStatement l.1 = true := by simp [hs l (by simp)]
    rw [List.cons_append, read, advance_gate (hw l (by simp)), ofGate, if_neg hl,
      ih (fun m hm => hw m (List.mem_cons_of_mem _ hm)) fun m hm => hs m (by simp [hm])]
    simp [OpenGate.extend]

end Phase

/-! ### Declarations -/

theorem Text.after?_cons_of_ne {c d : Char} (h : c ≠ d) (s t : Text) :
    after? (c :: s) (d :: t) = none := by
  show (if (c == d) = true then _ else none) = none
  rw [if_neg (by simp [h])]

theorem Text.signedNumeral?_of_numeral? {bound n : Nat} {t : Text} (h : numeral? bound t = some n) :
    signedNumeral? bound t = some n := by
  have hdigits := (numeral?_eq_some_iff.mp h).1
  have hsign : after? ['+'] t = none := by
    cases t with
    | nil => rfl
    | cons c u =>
      refine after?_cons_of_ne ?_ _ _
      rintro rfl
      exact absurd (isWord_of_isDigits hdigits '+' (by simp)) (by decide)
  rw [signedNumeral?, hsign, Option.getD_none, h]

namespace Declaration

variable {t w : Text}

/-- The semicolon is taken off the end, and then white space off both ends. -/
theorem body_append_semicolon (t : Text) {b : Text} (hb : b.Blanks) :
    body (t ++ ';' :: b) = Text.trim t := by
  obtain ⟨a, ha, hat⟩ : ∃ a : Text, a.Blanks ∧ a ++ Text.trimStart t = t :=
    ⟨t.takeWhile Text.isBlank, List.all_eq_true.mp List.all_takeWhile,
      List.takeWhile_append_dropWhile⟩
  have hsemi : Text.Trimmed (Text.trimStart t ++ [';']) := by
    refine ⟨fun c hc => ?_, fun c hc => ?_⟩
    · cases hs : Text.trimStart t with
      | nil =>
        rw [hs] at hc
        obtain rfl : ';' = c := Option.some.inj hc
        decide
      | cons d u =>
        rw [hs] at hc
        exact Text.head_trimStart (t := t) c (by rwa [hs])
    · obtain rfl : ';' = c := by simpa using hc
      decide
  have htrim : Text.trim (t ++ ';' :: b) = Text.trimStart t ++ [';'] := by
    have := Text.trim_blanks ha hsemi hb
    rwa [← List.append_assoc, hat, List.append_assoc, List.singleton_append] at this
  have hcut : Text.beforeLast? ';' (Text.trimStart t ++ [';']) = some (Text.trimStart t) :=
    Text.beforeLast?_eq_some_iff.mpr rfl
  simp only [body, htrim, hcut, Option.getD_some]
  rw [Text.trim, Text.trim, Text.trimStart_eq_self Text.head_trimStart]

/-- A declaration, with white space in front, behind which its semicolon stands. -/
theorem body_cons_concat (t : Text) : body (' ' :: (t ++ [';'])) = Text.trim t := by
  have hs : Text.Blanks [' '] := by decide
  have htrim : Text.trimStart (' ' :: t) = Text.trimStart t := Text.trimStart_append hs
  rw [← List.cons_append, body_append_semicolon _ (by simp [Text.Blanks]), Text.trim, htrim,
    Text.trim]

/-- A text begins with a kind word only if that is its first word, and white space or a bracket
stands behind it. -/
theorem dropKind_eq_self {kind r : Text} (hk : kind.IsWord) (hw : w.IsWord)
    (hr : ∀ c ∈ r.head?, isWordChar c = false)
    (h : w ≠ kind ∨ ∀ c ∈ r.head?, Text.isBlank c = false ∧ c ≠ '[') :
    dropKind kind (w ++ r) = w ++ r := by
  unfold dropKind
  split
  · next rest hrest =>
    have htext : kind ++ rest = w ++ r := List.append_eq_of_isPrefixOf?_eq_some hrest
    split
    · next hstart =>
      obtain ⟨c, hc, hnext⟩ := Option.any_eq_true _ _ |>.mp hstart
      simp only [Bool.or_eq_true, beq_iff_eq] at hnext
      have hword : isWordChar c = false := by
        rcases hnext with hblank | rfl
        · exact isWordChar_of_isBlank hblank
        · decide
      have hkind : Dialect.firstWord (kind ++ rest) = kind :=
        Dialect.firstWord_append hk fun d hd => by
          obtain rfl : c = d := Option.some.inj (hc.symm.trans hd)
          exact hword
      rw [htext, Dialect.firstWord_append hw hr] at hkind
      subst hkind
      obtain rfl : rest = r := List.append_cancel_left htext
      rcases h with h | h
      · exact absurd rfl h
      · obtain ⟨hblank, hbracket⟩ := h c hc
        simp [hblank, hbracket] at hnext
    · rfl
  · rfl

/-- A text that begins with another word begins with no kind word. -/
theorem dropKind_of_firstWord_ne {kind : Text} (hk : kind.IsWord)
    (h : Dialect.firstWord t ≠ kind) : dropKind kind t = t := by
  have hrest : ∀ c ∈ (t.dropWhile isWordChar).head?, isWordChar c = false := by
    intro c hc
    have hhead := List.head?_dropWhile_not isWordChar t
    rwa [Option.mem_def.mp hc] at hhead
  have hself : Dialect.firstWord t ++ t.dropWhile isWordChar = t :=
    List.takeWhile_append_dropWhile
  have hword : (Dialect.firstWord t).IsWord := List.all_eq_true.mp List.all_takeWhile
  have := dropKind_eq_self hk hword hrest (.inl h)
  rwa [hself] at this

theorem dropKind_of_isWord {kind : Text} (hk : kind.IsWord) (h : w.IsWord) :
    dropKind kind w = w := by
  have := dropKind_eq_self (r := []) hk h (by simp) (.inr (by simp))
  rwa [List.append_nil] at this

theorem dropKind_append {kind : Text}
    (ht : t.head?.any (fun c => Text.isBlank c || c == '[') = true) :
    dropKind kind (kind ++ t) = Text.trimStart t := by
  have hafter : Text.after? kind (kind ++ t) = some t :=
    List.isPrefixOf?_eq_some_iff_append_eq.mpr rfl
  simp only [dropKind, hafter, if_pos ht]

theorem listed_of_isWord (h : w.IsWord) (hne : w ≠ []) : listed w = [w] := by
  have hcomma : ',' ∉ w := h.not_mem (by decide)
  rw [listed, List.splitOn_eq_singleton hcomma]
  simp [(Text.trimmed_of_isWord h).trim_eq_self, hne]

theorem isName_of_isIdentifier (h : isIdentifier w = true) : isName w = true := by
  obtain ⟨c, u, rfl, -, hd⟩ := head_of_isIdentifier h
  have hall : (c :: u).all isWordChar = true := List.all_eq_true.mpr (isWord_of_isIdentifier h)
  simp only [isName, hall, hd, Bool.not_false, Bool.and_self, Bool.or_true]

theorem splitRange?_eq_self (h : t.head? ≠ some '[') : splitRange? t = some (none, t) := by
  unfold splitRange?
  split
  · exact absurd rfl h
  · rfl

/-- The bounds are read up to the bracket that closes the range. -/
theorem splitRange?_append {inside : Text} {b : Nat × Nat} (h : ']' ∉ inside)
    (hb : bounds? inside = some b) (after : Text) :
    splitRange? ('[' :: (inside ++ ']' :: after)) = some (some b, Text.trimStart after) := by
  have hcut : Text.cut? ']' (inside ++ ']' :: after) = some (inside, after) :=
    Text.cut?_eq_some_iff.mpr ⟨rfl, h⟩
  simp only [splitRange?, hcut, hb, Option.map_some]

theorem bounds?_append {a b : Text} {m l : Nat} (hc : ':' ∉ a)
    (ha : Text.numeral? Text.bound32 (Text.trim a) = some m)
    (hb : Text.numeral? Text.bound32 (Text.trim b) = some l) :
    bounds? (a ++ ':' :: b) = some (m, l) := by
  have hcut : Text.cut? ':' (a ++ ':' :: b) = some (a, b) := Text.cut?_eq_some_iff.mpr ⟨rfl, hc⟩
  simp [bounds?, hcut, Text.signedNumeral?_of_numeral? ha, Text.signedNumeral?_of_numeral? hb]

theorem read?_word (h : isIdentifier w = true) :
    read? (' ' :: (w ++ [';'])) = some ⟨none, [w]⟩ := by
  have hw := isWord_of_isIdentifier h
  have hne := ne_nil_of_isIdentifier h
  have htrim : Text.trim w = w := (Text.trimmed_of_isWord hw).trim_eq_self
  have hkind {kind : Text} (hk : kind.IsWord) : dropKind kind w = w := dropKind_of_isWord hk hw
  have hsplit : splitRange? w = some (none, w) := by
    refine splitRange?_eq_self fun hbracket => ?_
    exact absurd (hw _ (List.mem_of_head? hbracket)) (by decide)
  simp only [read?]
  rw [body_cons_concat, htrim, hkind (by decide), hkind (by decide), hsplit]
  simp [listed_of_isWord hw hne, isName_of_isIdentifier h]

theorem read?_range {m : Nat} (hm : m < Text.bound32) (h : isIdentifier w = true) :
    read? (' ' :: ('[' :: (Text.decimal m ++ [':', '0']) ++ ']' :: ' ' :: w ++ [';'])) =
      some ⟨some (m, 0), [w]⟩ := by
  have hw := isWord_of_isIdentifier h
  have hne := ne_nil_of_isIdentifier h
  have hdigits := Text.isWord_decimal m
  have htrim : Text.Trimmed ('[' :: (Text.decimal m ++ [':', '0']) ++ ']' :: ' ' :: w) := by
    refine ⟨by simp; decide, ?_⟩
    rw [List.getLast?_append_of_ne_nil _ (by simp), ← List.singleton_append,
      List.getLast?_append_of_ne_nil _ (by simp), ← List.singleton_append,
      List.getLast?_append_of_ne_nil _ hne]
    exact (Text.trimmed_of_isWord hw).last
  have hkind {kind : Text} (hk : kind.IsWord) (hne : [] ≠ kind) (u : Text) :
      dropKind kind ('[' :: u) = '[' :: u :=
    dropKind_eq_self (w := []) hk (by decide) (by simp; decide) (.inl hne)
  have hbounds : bounds? (Text.decimal m ++ [':', '0']) = some (m, 0) := by
    refine bounds?_append (hdigits.not_mem (by decide)) ?_ (by decide)
    rw [(Text.trimmed_of_isWord hdigits).trim_eq_self, Text.numeral?_decimal hm]
  have hbracket : ']' ∉ Text.decimal m ++ [':', '0'] := by
    simp [hdigits.not_mem (c := ']') (by decide)]
  have hstart : Text.trimStart (' ' :: w) = w := by
    have hs : Text.Blanks [' '] := by simp [Text.Blanks]; decide
    have := Text.trimStart_append (t := w) hs
    rwa [List.singleton_append, Text.trimStart_eq_self (Text.trimmed_of_isWord hw).head] at this
  simp only [read?]
  rw [body_cons_concat, htrim.trim_eq_self, List.cons_append, hkind (by decide) (by decide),
    hkind (by decide) (by decide), splitRange?_append hbracket hbounds, hstart]
  simp [listed_of_isWord hw hne, isName_of_isIdentifier h]

end Declaration

end NetFlat
