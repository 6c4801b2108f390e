import NetFlat.Proofs.Dialect.Tokens

/-!
# Declaration statements

A declaration is written as a keyword, perhaps a kind word, perhaps a range, and names between
commas, with a semicolon at the end.  However its tokens are spaced, it is read as it is written.

* `WrittenRange`, `IsDeclarable`: ranges and names as they may be written;
* `DeclarationStatement`, `DeclarationStatement.tokens`: statements and their tokens;
* `DeclarationStatement.read?_of_spells`: what is read of the tokens behind the keyword.
-/

namespace NetFlat

open Dialect (Token Spells)

/-! ### Statements -/

/-- A range as it is written, with two rows of digits.  Their values are numbers of 32 bits, and so is
the number of bits between them, both counted. -/
structure WrittenRange where
  msb : Text
  lsb : Text
  isDigits_msb : msb.isDigits = true
  isDigits_lsb : lsb.isDigits = true
  msb_lt : msb.digitsValue < Text.bound32
  lsb_lt : lsb.digitsValue < Text.bound32
  width_lt : max msb.digitsValue lsb.digitsValue - min msb.digitsValue lsb.digitsValue + 1 <
    Text.bound32

def WrittenRange.bounds (r : WrittenRange) : Nat × Nat := (r.msb.digitsValue, r.lsb.digitsValue)

/-- The name may be declared: it is a word that begins with no digit and is none of three words that
would not be taken for a name, or it is escaped and has no comma, semicolon or comment mark in it. -/
inductive IsDeclarable (n : Text) : Prop
  | plain (hw : n.IsWord) (hhead : ∃ c ∈ n.head?, c.isDigit = false)
      (hne : n ∉ ["wire", "reg", "endmodule"].map String.toList)
  | escaped (he : IsEscaped n) (hcomma : ',' ∉ n) (hsemicolon : ';' ∉ n) (hu : n.Uncommented)

/-- A declaration as it is written: its keyword, a kind word and a range if they are there, and at
least one name. -/
structure DeclarationStatement where
  kind : DeclarationKind
  kindWord : Option Text
  range : Option WrittenRange
  names : List Text
  kindWord_mem : ∀ w ∈ kindWord, w ∈ ["wire", "reg"].map String.toList
  names_ne_nil : names ≠ []
  declarable : ∀ n ∈ names, IsDeclarable n

namespace DeclarationStatement

def nameToken (n : Text) : Token := if n.head? = some '\\' then .escaped n else .word n

/-- The tokens of names, with commas between them. -/
def nameTokens (ns : List Text) : List Token := (ns.map nameToken).intersperse (.mark ',')

def rangeTokens (r : WrittenRange) : List Token :=
  [.mark '[', .word r.msb, .mark ':', .word r.lsb, .mark ']']

/-- The tokens between the keyword and the semicolon. -/
def content (g : DeclarationStatement) : List Token :=
  g.kindWord.toList.map .keyword ++ (g.range.toList.flatMap rangeTokens ++ nameTokens g.names)

def opening (g : DeclarationStatement) : List Token :=
  .keyword (Phase.declarationWord g.kind) :: g.content

def tokens (g : DeclarationStatement) : List Token := g.opening ++ [.mark ';']

def declaration (g : DeclarationStatement) : Declaration := ⟨g.range.map WrittenRange.bounds, g.names⟩

end DeclarationStatement

/-! ### Names -/

namespace IsDeclarable

open DeclarationStatement (nameToken)

variable {n : Text}

theorem nameToken_of_isWord (hw : n.IsWord) : nameToken n = .word n := by
  refine if_neg fun hhead => ?_
  exact absurd (hw _ (List.mem_of_head? hhead)) (by decide)

theorem nameToken_of_isEscaped (he : IsEscaped n) : nameToken n = .escaped n := if_pos he.head

@[simp]
theorem text_nameToken (n : Text) : (nameToken n).text = n := by
  unfold nameToken
  split <;> rfl

theorem ne_nil (h : IsDeclarable n) : n ≠ [] := by
  rintro rfl
  cases h with
  | plain _ hhead _ => simp at hhead
  | escaped he _ _ _ => exact he.ne_nil rfl

theorem legal (h : IsDeclarable n) : (nameToken n).Legal := by
  have hne := h.ne_nil
  cases h with
  | plain hw _ hword =>
    rw [nameToken_of_isWord hw]
    refine ⟨hne, hw, ?_⟩
    rintro rfl
    exact absurd hword (by decide)
  | escaped he _ _ hu =>
    rw [nameToken_of_isEscaped he]
    exact ⟨he, hu⟩

theorem trim_eq_self (h : IsDeclarable n) : Text.trim n = n := by
  have := h.legal.solid.trimmed.trim_eq_self
  rwa [text_nameToken] at this

theorem leadingWord_notMem (h : IsDeclarable n) :
    (nameToken n).leadingWord ∉ ["wire", "reg"].map String.toList := by
  cases h with
  | plain hw _ hword =>
    rw [nameToken_of_isWord hw]
    intro hm
    exact hword (List.map_subset _ (by decide) hm)
  | escaped he _ _ _ =>
    rw [nameToken_of_isEscaped he]
    show ([] : Text) ∉ _
    decide

theorem isName (h : IsDeclarable n) : Declaration.isName n = true := by
  cases h with
  | plain hw hhead _ =>
    obtain ⟨c, hc, hdigit⟩ := hhead
    obtain ⟨u, rfl⟩ := List.head?_eq_some_iff.mp hc
    have hall : (c :: u).all isWordChar = true := List.all_eq_true.mpr hw
    simp [Declaration.isName, hall, hdigit]
  | escaped he _ _ _ =>
    obtain ⟨u, rfl⟩ := he.exists_cons
    rfl

theorem not_mem (h : IsDeclarable n) : ',' ∉ n ∧ ';' ∉ n ∧ n.head? ≠ some '[' := by
  cases h with
  | plain hw _ _ =>
    refine ⟨hw.not_mem (by decide), hw.not_mem (by decide), fun hhead => ?_⟩
    exact absurd (hw _ (List.mem_of_head? hhead)) (by decide)
  | escaped he hcomma hsemicolon _ =>
    refine ⟨hcomma, hsemicolon, ?_⟩
    rw [he.head]
    decide

end IsDeclarable

namespace DeclarationStatement

variable {g : DeclarationStatement} {ns : List Text} {w : Token} {ws : List Token} {t : Text}

theorem nameTokens_cons_cons (n m : Text) (ns : List Text) :
    nameTokens (n :: m :: ns) = nameToken n :: .mark ',' :: nameTokens (m :: ns) := rfl

theorem exists_nameTokens_cons (hne : ns ≠ []) :
    ∃ n ∈ ns, ∃ ws, nameTokens ns = nameToken n :: ws := by
  cases ns with
  | nil => exact absurd rfl hne
  | cons n ns =>
    refine ⟨n, by simp, ?_⟩
    cases ns with
    | nil => exact ⟨[], rfl⟩
    | cons m ns => exact ⟨_, nameTokens_cons_cons n m ns⟩

theorem mem_nameTokens (h : w ∈ nameTokens ns) : w = .mark ',' ∨ ∃ n ∈ ns, w = nameToken n := by
  induction ns with
  | nil => simp [nameTokens] at h
  | cons n ns ih =>
    cases ns with
    | nil =>
      obtain rfl : w = nameToken n := by simpa [nameTokens] using h
      exact .inr ⟨n, by simp, rfl⟩
    | cons m ns =>
      rw [nameTokens_cons_cons] at h
      rcases List.mem_cons.mp h with rfl | h
      · exact .inr ⟨n, by simp, rfl⟩
      · rcases List.mem_cons.mp h with rfl | h
        · exact .inl rfl
        · exact (ih h).imp_right fun ⟨k, hk, hw⟩ => ⟨k, List.mem_cons_of_mem _ hk, hw⟩

theorem map_trim_splitOn_of_spells (hne : ns ≠ []) (hns : ∀ n ∈ ns, IsDeclarable n)
    (h : Spells (nameTokens ns) t) : (t.splitOn ',').map Text.trim = ns := by
  have hgap {s : Text} (hs : s.Blanks) : ',' ∉ s := fun hm => absurd (hs _ hm) (by decide)
  induction ns generalizing t with
  | nil => exact absurd rfl hne
  | cons n ns ih =>
    obtain ⟨hn, hns⟩ := List.forall_mem_cons.mp hns
    have hpiece {s b : Text} (hs : s.Blanks) (hb : b.Blanks) :
        ',' ∉ s ++ n ++ b ∧ Text.trim (s ++ n ++ b) = n := by
      refine ⟨by simp [hgap hs, hgap hb, hn.not_mem.1], Text.trim_blanks hs ?_ hb⟩
      simpa using hn.legal.solid.trimmed
    cases ns with
    | nil =>
      obtain ⟨s, b, hs, rfl, -, hrest⟩ := h.exists_cons
      cases hrest with
      | nil hb =>
        obtain ⟨hcomma, htrim⟩ := hpiece hs hb
        rw [IsDeclarable.text_nameToken, ← List.append_assoc, List.splitOn_eq_singleton hcomma,
          List.map_singleton, htrim]
    | cons m ns =>
      obtain ⟨s, u, hs, rfl, -, hrest⟩ := h.exists_cons
      obtain ⟨b, u, hb, rfl, -, hrest⟩ := hrest.exists_cons
      obtain ⟨hcomma, htrim⟩ := hpiece hs hb
      have htext : s ++ ((nameToken n).text ++ (b ++ ((Token.mark ',').text ++ u))) =
          s ++ n ++ b ++ ',' :: u := by
        simp
      rw [htext, List.splitOn_append_cons_self_of_not_mem hcomma, List.map_cons, htrim,
        ih (by simp) hns hrest]

theorem listed_of_spells (hne : ns ≠ []) (hns : ∀ n ∈ ns, IsDeclarable n)
    (h : Spells (nameTokens ns) t) : Declaration.listed t = ns := by
  rw [Declaration.listed, map_trim_splitOn_of_spells hne hns h]
  exact List.filter_eq_self.mpr fun n hn => by simpa using (hns n hn).ne_nil

/-! ### The tokens of a statement -/

theorem legal_of_mem_content (h : w ∈ g.content) : w.Legal ∧ ';' ∉ w.text := by
  have hword {n : Text} (hne : n ≠ []) (hn : n.IsWord) (hend : n ≠ "endmodule".toList) :
      (Token.word n).Legal ∧ ';' ∉ n := ⟨⟨hne, hn, hend⟩, hn.not_mem (by decide)⟩
  have hdigits {n : Text} (hn : n.isDigits = true) : (Token.word n).Legal ∧ ';' ∉ n := by
    refine hword (Text.ne_nil_of_isDigits hn) (Text.isWord_of_isDigits hn) ?_
    rintro rfl
    exact absurd hn (by decide)
  have hmark {c : Char} (hc : c = '[' ∨ c = ':' ∨ c = ']' ∨ c = ',') :
      (Token.mark c).Legal ∧ ';' ∉ (Token.mark c).text := by
    rcases hc with rfl | rfl | rfl | rfl <;> exact ⟨⟨by decide, by decide, by decide⟩, by decide⟩
  simp only [content, List.mem_append, List.mem_map, Option.mem_toList, List.mem_flatMap] at h
  rcases h with ⟨k, hk, rfl⟩ | ⟨r, -, hr⟩ | h
  · have hkinds := g.kindWord_mem k hk
    simp only [List.map_cons, List.map_nil, List.mem_cons, List.not_mem_nil, or_false] at hkinds
    rcases hkinds with rfl | rfl <;> exact ⟨⟨by decide, by decide, by decide⟩, by decide⟩
  · simp only [rangeTokens, List.mem_cons, List.not_mem_nil, or_false] at hr
    rcases hr with rfl | rfl | rfl | rfl | rfl
    · exact hmark (.inl rfl)
    · exact hdigits r.isDigits_msb
    · exact hmark (.inr (.inl rfl))
    · exact hdigits r.isDigits_lsb
    · exact hmark (.inr (.inr (.inl rfl)))
  · rcases mem_nameTokens h with rfl | ⟨n, hn, rfl⟩
    · exact hmark (.inr (.inr (.inr rfl)))
    · refine ⟨(g.declarable n hn).legal, ?_⟩
      rw [IsDeclarable.text_nameToken]
      exact (g.declarable n hn).not_mem.2.1

theorem legal_of_mem_opening (h : w ∈ g.opening) : w.Legal ∧ ';' ∉ w.text := by
  rcases List.mem_cons.mp h with rfl | h
  · rcases g.kind with (_ | _) | _ <;> exact ⟨⟨by decide, by decide, by decide⟩, by decide⟩
  · exact legal_of_mem_content h

theorem legal_of_mem_append_semicolon (hws : ∀ w ∈ ws, w.Legal ∧ ';' ∉ w.text)
    (h : w ∈ ws ++ [.mark ';']) : w.Legal := by
  rcases List.mem_append.mp h with h | h
  · exact (hws w h).1
  · obtain rfl := List.mem_singleton.mp h
    exact ⟨by decide, by decide, by decide⟩

theorem legal_of_mem_tokens (h : w ∈ g.tokens) : w.Legal :=
  legal_of_mem_append_semicolon (fun _ hw => legal_of_mem_opening hw) h

/-! ### Reading -/

theorem dropKind_of_spells {k : Text} (hk : k.IsWord) (hw : w.Legal) (hne : w.leadingWord ≠ k)
    (ht : ∀ c ∈ t.head?, Text.isBlank c = false) (h : Spells (w :: ws) t) :
    Declaration.dropKind k t = t := by
  obtain ⟨u, rfl, hnext, -⟩ := h.exists_head ht
  apply Declaration.dropKind_of_firstWord_ne hk
  rwa [hw.firstWord_append hnext]

/-- A kind word is dropped where it stands, as a token stands behind it. -/
theorem exists_dropKind_of_keyword {k : Text} (hws : ∀ v ∈ w :: ws, v.Legal)
    (ht : ∀ c ∈ t.head?, Text.isBlank c = false) (h : Spells (.keyword k :: w :: ws) t) :
    ∃ u, Declaration.dropKind k t = u ∧ Spells (w :: ws) u ∧
      ∀ c ∈ u.head?, Text.isBlank c = false := by
  obtain ⟨u, rfl, hnext, hu⟩ := h.exists_head ht
  have hstart : u.head?.any (fun c => Text.isBlank c || c == '[') = true := by
    obtain ⟨c, r, rfl⟩ := List.exists_cons_of_ne_nil (hu.ne_nil (hws w (by simp)))
    exact hnext c rfl
  exact ⟨Text.trimStart u, Declaration.dropKind_append hstart, hu.trimStart hws,
    Text.head_trimStart⟩

theorem exists_dropKind (hword : w.leadingWord ∉ ["wire", "reg"].map String.toList)
    (hws : ∀ v ∈ w :: ws, v.Legal) (ht : ∀ c ∈ t.head?, Text.isBlank c = false)
    (h : Spells (g.kindWord.toList.map .keyword ++ w :: ws) t) :
    ∃ u, Declaration.dropKind "reg".toList (Declaration.dropKind "wire".toList t) = u ∧
      Spells (w :: ws) u ∧ ∀ c ∈ u.head?, Text.isBlank c = false := by
  have hkept {k u : Text} (hk : k ∈ ["wire", "reg"].map String.toList) (hkw : k.IsWord)
      (hhead : ∀ c ∈ u.head?, Text.isBlank c = false) (hu : Spells (w :: ws) u) :
      Declaration.dropKind k u = u := by
    apply dropKind_of_spells hkw (hws w (by simp)) ?_ hhead hu
    rintro rfl
    exact hword hk
  cases hg : g.kindWord with
  | none =>
    rw [hg] at h
    refine ⟨t, ?_, h, ht⟩
    rw [hkept (by decide) (by decide) ht h, hkept (by decide) (by decide) ht h]
  | some k =>
    rw [hg] at h
    have hk := g.kindWord_mem k hg
    obtain ⟨u, hdrop, hu, hhead⟩ := exists_dropKind_of_keyword hws ht h
    refine ⟨u, ?_, hu, hhead⟩
    simp only [List.map_cons, List.map_nil, List.mem_cons, List.not_mem_nil, or_false] at hk
    rcases hk with rfl | rfl
    · rw [hdrop, hkept (by decide) (by decide) hhead hu]
    · have hreg : (Token.keyword "reg".toList).Legal := ⟨by decide, by decide, by decide⟩
      have hother : Declaration.dropKind "wire".toList t = t :=
        dropKind_of_spells (by decide) hreg (by decide) ht h
      rw [hother, hdrop]

/-- A row of digits has its value, whatever white space stands around it. -/
theorem numeral?_spaced {d a b : Text} (hd : d.isDigits = true) (hlt : d.digitsValue < Text.bound32)
    (ha : a.Blanks) (hb : b.Blanks) :
    Text.numeral? Text.bound32 (Text.trim (a ++ d ++ b)) = some d.digitsValue := by
  rw [Text.trim_digits hd ha hb]
  exact Text.numeral?_eq_some_iff.mpr ⟨hd, rfl, hlt⟩

theorem notMem_spaced {d a b : Text} {c : Char} (hd : d.isDigits = true) (ha : a.Blanks)
    (hb : b.Blanks) (hw : isWordChar c = false) (hc : Text.isBlank c = false) :
    c ∉ a ++ d ++ b := by
  have hgap {s : Text} (hs : s.Blanks) : c ∉ s := fun hm => by simp [hs c hm] at hc
  simp [hgap ha, hgap hb, (Text.isWord_of_isDigits hd).not_mem hw]

theorem exists_splitRange?_of_range (r : WrittenRange) (hws : ∀ w ∈ ws, w.Legal)
    (ht : ∀ c ∈ t.head?, Text.isBlank c = false) (h : Spells (rangeTokens r ++ ws) t) :
    ∃ u, Declaration.splitRange? t = some (some r.bounds, u) ∧ Spells ws u := by
  obtain ⟨t, rfl, -, h⟩ := Spells.exists_head h ht
  obtain ⟨a, t, ha, rfl, -, h⟩ := h.exists_cons
  obtain ⟨b, t, hb, rfl, -, h⟩ := h.exists_cons
  obtain ⟨a', t, ha', rfl, -, h⟩ := h.exists_cons
  obtain ⟨b', t, hb', rfl, -, h⟩ := h.exists_cons
  have hbounds : Declaration.bounds? (a ++ r.msb ++ b ++ ':' :: (a' ++ r.lsb ++ b')) =
      some r.bounds :=
    Declaration.bounds?_append
      (notMem_spaced r.isDigits_msb ha hb (by decide) (by decide))
      (numeral?_spaced r.isDigits_msb r.msb_lt ha hb)
      (numeral?_spaced r.isDigits_lsb r.lsb_lt ha' hb')
  have hbracket : ']' ∉ a ++ r.msb ++ b ++ ':' :: (a' ++ r.lsb ++ b') := by
    refine List.not_mem_append ?_ (List.not_mem_cons_of_ne_of_not_mem (by decide) ?_)
    · exact notMem_spaced r.isDigits_msb ha hb (by decide) (by decide)
    · exact notMem_spaced r.isDigits_lsb ha' hb' (by decide) (by decide)
  have hsplit := Declaration.splitRange?_append hbracket hbounds t
  refine ⟨Text.trimStart t, ?_, h.trimStart hws⟩
  simpa using hsplit

theorem exists_splitRange? (ht : ∀ c ∈ t.head?, Text.isBlank c = false)
    (h : Spells (g.range.toList.flatMap rangeTokens ++ nameTokens g.names) t) :
    ∃ u, Declaration.splitRange? t = some (g.range.map WrittenRange.bounds, u) ∧
      Spells (nameTokens g.names) u := by
  cases hg : g.range with
  | none =>
    rw [hg] at h
    obtain ⟨n, hn, ws, hnames⟩ := exists_nameTokens_cons g.names_ne_nil
    have hspells : Spells (nameToken n :: ws) t := hnames ▸ h
    obtain ⟨u, hu, -, -⟩ := hspells.exists_head ht
    refine ⟨t, Declaration.splitRange?_eq_self ?_, h⟩
    have hdecl := g.declarable n hn
    rw [hu, IsDeclarable.text_nameToken, List.head?_append_of_ne_nil _ hdecl.ne_nil]
    exact hdecl.not_mem.2.2
  | some r =>
    rw [hg] at h
    refine exists_splitRange?_of_range r (fun w hw => ?_) ht h
    exact (legal_of_mem_content (g := g) (by simp [content, hw])).1

/-- **A declaration is read as it is written**, however its tokens are spaced. -/
theorem read?_of_spells (h : Spells (g.content ++ [.mark ';']) t) :
    Declaration.read? t = some g.declaration := by
  obtain ⟨t, b, rfl, ht, hb⟩ := h.exists_concat
  have hbody : Declaration.body (t ++ ((Token.mark ';').text ++ b)) = Text.trim t :=
    Declaration.body_append_semicolon t hb
  have hcontent : Spells g.content (Text.trim t) := ht.trim fun w hw => (legal_of_mem_content hw).1
  -- what stands behind the kind word begins with a bracket or a name
  obtain ⟨w, ws, hrest, hword⟩ : ∃ w ws, g.range.toList.flatMap rangeTokens ++
      nameTokens g.names = w :: ws ∧ w.leadingWord ∉ ["wire", "reg"].map String.toList := by
    cases g.range with
    | none =>
      obtain ⟨n, hn, ws, hnames⟩ := exists_nameTokens_cons g.names_ne_nil
      exact ⟨nameToken n, ws, hnames, (g.declarable n hn).leadingWord_notMem⟩
    | some r => exact ⟨.mark '[', _, rfl, by decide⟩
  have hws : ∀ v ∈ w :: ws, v.Legal := by
    intro v hv
    rw [← hrest] at hv
    exact (legal_of_mem_content (g := g) (List.mem_append_right _ hv)).1
  rw [content, hrest] at hcontent
  obtain ⟨u, hdrop, hu, hhead⟩ :=
    exists_dropKind hword hws (Text.trimmed_trim t).head hcontent
  rw [← hrest] at hu
  obtain ⟨v, hsplit, hv⟩ := exists_splitRange? hhead hu
  have hlisted := listed_of_spells g.names_ne_nil g.declarable hv
  have hnamed : g.names.all Declaration.isName = true :=
    List.all_eq_true.mpr fun n hn => (g.declarable n hn).isName
  simp only [Declaration.read?, hbody, hdrop, hsplit, Option.bind_eq_bind, Option.bind_some,
    hlisted]
  exact if_pos ⟨g.names_ne_nil, hnamed⟩

end DeclarationStatement

end NetFlat
