import NetFlat.Proofs.EscapedNames
import NetFlat.Proofs.Text.Spread

/-!
# Tokens on lines

A statement is a row of tokens.  White space may stand around each of them, and it must stand where
two of them would run together.  They may be laid out on lines: any number of tokens on a line, lines
without a token, and a comment behind the tokens of any line.

* `Token`, `Token.precedes`: tokens, and what may stand directly behind one;
* `Spells`: tokens make up a text; `Spells.append` and `Spells.trim` put texts together and trim
  them, `Spells.exists_cons` and `Spells.exists_concat` take tokens off the ends;
* `SpellsLine.code`, `SpellsLine.firstWord_ne`: the code of a line has the tokens of the line, and
  does not close the module;
* `LaidOut`: tokens are laid out on lines;
* `spells`: a search for tokens.
-/

namespace NetFlat.Dialect

open Text (Solid Uncommented Blanks)

/-- A token: a keyword, a word of another kind, an escaped name, or a mark of one character. -/
inductive Token where
  | keyword (w : Text)
  | word (w : Text)
  | escaped (e : Text)
  | mark (c : Char)
deriving DecidableEq

namespace Token

def text : Token → Text
  | keyword w | word w | escaped w => w
  | mark c => [c]

/-- The character may stand directly behind the token.  A keyword needs white space or a bracket, an
escaped name goes on up to white space, and another word up to a character that is in no word. -/
def precedes : Token → Char → Bool
  | keyword _, c => Text.isBlank c || c == '['
  | word _, c => !isWordChar c
  | escaped _, c => Text.isBlank c
  | mark _, _ => true

/-- The token is of its kind; it neither closes the module nor makes a comment. -/
def Legal : Token → Prop
  | keyword w | word w => w ≠ [] ∧ w.IsWord ∧ w ≠ "endmodule".toList
  | escaped e => IsEscaped e ∧ e.Uncommented
  | mark c => Text.isBlank c = false ∧ isWordChar c = false ∧ c ≠ '/'

@[simp]
theorem text_keyword (w : Text) : (keyword w).text = w := rfl

@[simp]
theorem text_word (w : Text) : (word w).text = w := rfl

@[simp]
theorem text_mark (c : Char) : (mark c).text = [c] := rfl

def leadingWord : Token → Text
  | keyword w | word w => w
  | escaped _ | mark _ => []

variable {w : Token} {c : Char} {t : Text}

theorem precedes_of_isBlank (w : Token) (h : Text.isBlank c = true) : w.precedes c = true := by
  cases w with
  | keyword w => simp [precedes, h]
  | word w => simp [precedes, isWordChar_of_isBlank h]
  | escaped e => exact h
  | mark d => rfl

theorem isWordChar_of_precedes_keyword {w : Text} (h : (keyword w).precedes c = true) :
    isWordChar c = false := by
  simp only [precedes, Bool.or_eq_true, beq_iff_eq] at h
  rcases h with hblank | rfl
  · exact isWordChar_of_isBlank hblank
  · decide

namespace Legal

theorem solid (h : w.Legal) : Solid w.text := by
  cases w with
  | keyword w => exact ⟨h.1, Text.trimmed_of_isWord h.2.1⟩
  | word w => exact ⟨h.1, Text.trimmed_of_isWord h.2.1⟩
  | escaped e => exact ⟨h.1.ne_nil, h.1.trimmed⟩
  | mark c => exact ⟨by simp [text], Text.trimmed_of_ends rfl rfl h.1 h.1⟩

theorem uncommented (h : w.Legal) : w.text.Uncommented := by
  cases w with
  | keyword w => exact Text.uncommented_of_not_mem (h.2.1.not_mem (by decide))
  | word w => exact Text.uncommented_of_not_mem (h.2.1.not_mem (by decide))
  | escaped e => exact h.2
  | mark c => exact Text.uncommented_of_not_mem (by simpa [text] using h.2.2.symm)

/-- No slash stands where a token with a slash at its end meets what follows. -/
theorem last_ne_slash (h : w.Legal) : w.text.getLast? ≠ some '/' ∨ w.precedes '/' = false := by
  cases w with
  | keyword w => exact .inl (Text.getLast?_ne (h.2.1.not_mem (by decide)))
  | word w => exact .inl (Text.getLast?_ne (h.2.1.not_mem (by decide)))
  | escaped e => exact .inr (show Text.isBlank '/' = false by decide)
  | mark c => exact .inl (by simpa [text] using h.2.2)

theorem leadingWord_ne (h : w.Legal) : w.leadingWord ≠ "endmodule".toList := by
  have hnil : ([] : Text) ≠ "endmodule".toList := by decide
  cases w with
  | keyword w => exact h.2.2
  | word w => exact h.2.2
  | escaped e => exact hnil
  | mark c => exact hnil

theorem firstWord_append (h : w.Legal) (ht : ∀ c ∈ t.head?, w.precedes c = true) :
    firstWord (w.text ++ t) = w.leadingWord := by
  cases w with
  | keyword w =>
    exact Dialect.firstWord_append h.2.1 fun c hc => isWordChar_of_precedes_keyword (ht c hc)
  | word w => exact Dialect.firstWord_append h.2.1 fun c hc => by simpa [precedes] using ht c hc
  | escaped e =>
    obtain ⟨u, rfl⟩ := h.1.exists_cons
    refine firstWord_eq_nil fun c hc => ?_
    obtain rfl : '\\' = c := Option.some.inj hc
    decide
  | mark d =>
    refine firstWord_eq_nil fun c hc => ?_
    obtain rfl : d = c := Option.some.inj hc
    exact h.2.1

end Legal

end Token

/-! ### Tokens in a text -/

/-- The tokens stand in the text in this order, with white space around them, and what stands
directly behind each of them may do so. -/
inductive Spells : List Token → Text → Prop
  | nil {s : Text} (hs : s.Blanks) : Spells [] s
  | cons {s t : Text} {w : Token} {ws : List Token} (hs : s.Blanks)
      (hw : ∀ c ∈ t.head?, w.precedes c = true) (rest : Spells ws t) :
      Spells (w :: ws) (s ++ (w.text ++ t))

variable {w : Token} {ws vs : List Token} {s t l : Text} {c : Char}

namespace Spells

theorem exists_cons (h : Spells (w :: ws) t) :
    ∃ s u, s.Blanks ∧ t = s ++ (w.text ++ u) ∧ (∀ c ∈ u.head?, w.precedes c = true) ∧
      Spells ws u := by
  cases h with
  | @cons s u _ _ hs hw rest => exact ⟨s, u, hs, rfl, hw, rest⟩

theorem spread (h : Spells ws t) : Text.Spread Text.isBlank (ws.map Token.text) t := by
  induction h with
  | nil hs => exact .nil hs
  | cons hs _ _ ih => exact .cons hs ih

theorem ne_nil (h : Spells (w :: ws) t) (hw : w.Legal) : t ≠ [] :=
  h.spread.ne_nil_of_mem (List.mem_map_of_mem (by simp)) hw.solid.ne_nil

theorem eq_nil_of_trimmed (h : Spells [] t) (ht : t.Trimmed) : t = [] :=
  h.spread.eq_nil_of_trimmed (fun _ hc => hc) ht

theorem append_left (hs : s.Blanks) (h : Spells ws t) : Spells ws (s ++ t) := by
  cases h with
  | nil ht => exact .nil (List.forall_mem_append.mpr ⟨hs, ht⟩)
  | cons ht hw rest =>
    rw [← List.append_assoc]
    exact .cons (List.forall_mem_append.mpr ⟨hs, ht⟩) hw rest

theorem append (h : Spells ws s) (h' : Spells vs t) : Spells (ws ++ vs) (s ++ ' ' :: t) := by
  have hgap : Blanks [' '] := by decide
  induction h with
  | nil hs => exact (h'.append_left hgap).append_left hs
  | @cons s u w ws hs hw _ ih =>
    rw [List.append_assoc, List.append_assoc]
    refine .cons hs (fun c hc => ?_) ih
    cases u with
    | nil =>
      obtain rfl : ' ' = c := Option.some.inj hc
      exact w.precedes_of_isBlank (by decide)
    | cons d u => exact hw c hc

theorem trimStart (h : Spells ws t) (hws : ∀ w ∈ ws, w.Legal) : Spells ws (Text.trimStart t) := by
  cases h with
  | nil hs =>
    rw [Text.trimStart_eq_nil hs]
    exact .nil (by simp [Blanks])
  | @cons s u w ws hs hw rest =>
    have hsolid := (hws w (by simp)).solid
    have hhead : ∀ c ∈ (w.text ++ u).head?, Text.isBlank c = false := by
      rw [List.head?_append_of_ne_nil _ hsolid.ne_nil]
      exact hsolid.trimmed.head
    rw [Text.trimStart_append hs, Text.trimStart_eq_self hhead]
    exact .cons (s := []) (by simp [Blanks]) hw rest

theorem trimEnd (h : Spells ws t) (hws : ∀ w ∈ ws, w.Legal) : Spells ws (Text.trimEnd t) := by
  induction h with
  | nil hs =>
    rw [Text.trimEnd_eq_nil hs]
    exact .nil (by simp [Blanks])
  | @cons s u w ws hs hw _ ih =>
    obtain ⟨hlegal, hws⟩ := List.forall_mem_cons.mp hws
    have hlast : ∀ c ∈ (s ++ w.text).getLast?, Text.isBlank c = false := by
      rw [List.getLast?_append_of_ne_nil _ hlegal.solid.ne_nil]
      exact hlegal.solid.trimmed.last
    rw [← List.append_assoc, Text.trimEnd_append_of_last hlast, List.append_assoc]
    refine .cons hs (fun c hc => hw c ?_) (ih hws)
    have hne : Text.trimEnd u ≠ [] := by
      intro hnil
      simp [hnil] at hc
    rwa [Text.head?_trimEnd hne] at hc

theorem trim (h : Spells ws t) (hws : ∀ w ∈ ws, w.Legal) : Spells ws (Text.trim t) :=
  (h.trimStart hws).trimEnd hws

/-- A text without white space in front begins with its first token. -/
theorem exists_head (h : Spells (w :: ws) t) (ht : ∀ c ∈ t.head?, Text.isBlank c = false) :
    ∃ u, t = w.text ++ u ∧ (∀ c ∈ u.head?, w.precedes c = true) ∧ Spells ws u := by
  obtain ⟨s, u, hs, rfl, hw, rest⟩ := h.exists_cons
  cases s with
  | nil => exact ⟨u, rfl, hw, rest⟩
  | cons c s =>
    have := ht c rfl
    simp [hs c (by simp)] at this

theorem exists_concat (h : Spells (ws ++ [w]) t) :
    ∃ u b, t = u ++ (w.text ++ b) ∧ Spells ws u ∧ b.Blanks := by
  induction ws generalizing t with
  | nil =>
    obtain ⟨s, b, hs, rfl, -, rest⟩ := h.exists_cons
    cases rest with
    | nil hb => exact ⟨s, b, rfl, .nil hs, hb⟩
  | cons v ws ih =>
    obtain ⟨s, t, hs, rfl, hv, rest⟩ := h.exists_cons
    obtain ⟨u, b, rfl, hu, hb⟩ := ih rest
    refine ⟨s ++ (v.text ++ u), b, by simp, .cons hs (fun c hc => hv c ?_) hu, hb⟩
    cases u with
    | nil => simp at hc
    | cons d u => exact hc

/-- The characters that are no white space are those of the tokens. -/
theorem mem_iff (h : Spells ws t) (hc : Text.isBlank c = false) :
    c ∈ t ↔ ∃ w ∈ ws, c ∈ w.text := by
  have hblank {s : Text} (hs : s.Blanks) : c ∉ s := fun hm => by simp [hs c hm] at hc
  induction h with
  | nil hs => simp [hblank hs]
  | cons hs _ _ ih => simp [hblank hs, ih]

theorem uncommented (h : Spells ws t) (hws : ∀ w ∈ ws, w.Legal) : t.Uncommented := by
  have hslash {s : Text} (hs : s.Blanks) : '/' ∉ s := fun hm => absurd (hs _ hm) (by decide)
  induction h with
  | nil hs => exact Text.uncommented_of_not_mem (hslash hs)
  | @cons s u w ws hs hw _ ih =>
    obtain ⟨hlegal, hws⟩ := List.forall_mem_cons.mp hws
    refine (hlegal.uncommented.append (ih hws) ?_).append_left (hslash hs)
    rcases hlegal.last_ne_slash with hlast | hnext
    · exact .inl hlast
    · exact .inr fun hhead => by simp [hw _ hhead] at hnext

end Spells

/-! ### Lines -/

/-- The tokens stand on the line.  A comment may stand behind them, unless a slash would run together
with its mark. -/
inductive SpellsLine (ws : List Token) : Text → Prop
  | plain {t : Text} (h : Spells ws t) : SpellsLine ws t
  | comment {t : Text} (h : Spells ws t) (hlast : t.getLast? ≠ some '/') (remark : Text) :
      SpellsLine ws (t ++ '/' :: '/' :: remark)

namespace SpellsLine

theorem code (h : SpellsLine ws l) (hws : ∀ w ∈ ws, w.Legal) : Spells ws (code l) := by
  cases h with
  | plain h =>
    rw [Dialect.code, dropComment_of_uncommented (h.uncommented hws)]
    exact h.trim hws
  | comment h hlast remark =>
    rw [Dialect.code, dropComment_append_mark (h.uncommented hws) hlast]
    exact h.trim hws

theorem firstWord_ne (h : SpellsLine ws l) (hws : ∀ w ∈ ws, w.Legal) :
    firstWord (Dialect.code l) ≠ "endmodule".toList := by
  have htrimmed : (Dialect.code l).Trimmed := Text.trimmed_trim _
  cases ws with
  | nil =>
    rw [(h.code hws).eq_nil_of_trimmed htrimmed]
    decide
  | cons w ws =>
    obtain ⟨u, hu, hw, -⟩ := (h.code hws).exists_head htrimmed.head
    have hlegal := hws w (by simp)
    rw [hu, hlegal.firstWord_append hw]
    exact hlegal.leadingWord_ne

end SpellsLine

/-- The tokens are laid out on the lines: they fall into rows, one for each line, of which the first
and the last have tokens in them. -/
def LaidOut (ws : List Token) (ls : List Text) : Prop :=
  ∃ rows : List (List Token), rows.flatten = ws ∧ (∀ row ∈ rows.head?, row ≠ []) ∧
    (∀ row ∈ rows.getLast?, row ≠ []) ∧ List.Forall₂ SpellsLine rows ls

/-! ### Checking -/

/-- Finds the tokens in the text one after the other, each at the first character that is no white
space. -/
def spells : List Token → Text → Bool
  | [], t => t.all Text.isBlank
  | w :: ws, t =>
    match Text.after? w.text (Text.trimStart t) with
    | some rest => rest.head?.all w.precedes && spells ws rest
    | none => false

theorem spells_sound (h : spells ws t = true) : Spells ws t := by
  induction ws generalizing t with
  | nil => exact .nil (List.all_eq_true.mp h)
  | cons w ws ih =>
    simp only [spells] at h
    split at h
    · next rest hrest =>
      obtain ⟨hnext, hspells⟩ := Bool.and_eq_true_iff.mp h
      have ht : t.takeWhile Text.isBlank ++ (w.text ++ rest) = t := by
        rw [List.append_eq_of_isPrefixOf?_eq_some hrest]
        exact List.takeWhile_append_dropWhile
      rw [← ht]
      refine .cons (List.all_eq_true.mp List.all_takeWhile) (fun c hc => ?_) (ih hspells)
      rw [Option.mem_def.mp hc] at hnext
      exact hnext
    · simp at h

end NetFlat.Dialect
