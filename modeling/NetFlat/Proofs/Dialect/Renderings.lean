import NetFlat.Proofs.Dialect.Lines
import NetFlat.Proofs.Text.Lines
import NetFlat.Proofs.Text.Spread

/-!
# Words laid out on lines

A statement is a row of words.  They may be laid out on lines as one likes: any number of words on a
line, spaces and tabs around them, lines without a word, and a comment behind the words of any line.

* `LaysOut`: lines that lay out words;
* `LineOf.spread_code`, `LaysOut.spread_codes`: the code of a line, and of all lines, has the words;
* `Finishing`: words that lead to the end of a statement, whose lines go on with it up to the last
  one that ends it.
-/

namespace NetFlat.Dialect

open Text (Spread Solid)

def isSpace (c : Char) : Bool := c == ' ' || c == '\t'

def Spaces (t : Text) : Prop := ∀ c ∈ t, isSpace c = true

instance (t : Text) : Decidable (Spaces t) := List.decidableBAll (isSpace · = true) t

/-- A line with the words on it, spaces around them, and perhaps a comment behind them. -/
inductive LineOf (ws : List Text) : Text → Prop
  | plain {t : Text} (h : Spread isSpace ws t) : LineOf ws t
  | comment {t : Text} (h : Spread isSpace ws t) (remark : Text) : LineOf ws (t ++ '/' :: '/' :: remark)

/-- The lines have the words on them in this order, and the last line has at least one. -/
inductive LaysOut : List Text → List Text → Prop
  | last {ws : List Text} {l : Text} (hne : ws ≠ []) (h : LineOf ws l) : LaysOut ws [l]
  | line {ws vs : List Text} {l : Text} {ls : List Text} (h : LineOf ws l) (rest : LaysOut vs ls) :
      LaysOut (ws ++ vs) (l :: ls)

/-- A word of code: it is no white space at its ends and no comment. -/
structure Plain (w : Text) : Prop extends Solid w where
  noSlash : '/' ∉ w

variable {ws vs ls : List Text} {l s t w : Text}

theorem isBlank_of_isSpace {c : Char} (h : isSpace c = true) : Text.isBlank c = true := by
  simp only [isSpace, Bool.or_eq_true, beq_iff_eq] at h
  rcases h with rfl | rfl <;> decide

theorem isAsciiBlank_of_isSpace {c : Char} (h : isSpace c = true) :
    Text.isAsciiBlank c = true := by
  simp only [isSpace, Bool.or_eq_true, beq_iff_eq] at h
  rcases h with rfl | rfl <;> decide

/-! ### The code of lines -/

theorem LineOf.spread_code (h : LineOf ws l) (hw : ∀ w ∈ ws, Plain w) :
    Spread isSpace ws (code l) := by
  have hslash {t : Text} (h : Spread isSpace ws t) : '/' ∉ t :=
    h.not_mem (fun w hm => (hw w hm).noSlash) (by decide)
  have htrim {t : Text} (h : Spread isSpace ws t) : Spread isSpace ws (Text.trim t) :=
    h.trim (fun _ => isBlank_of_isSpace) fun w hm => (hw w hm).toSolid
  cases h with
  | plain h =>
    rw [code, dropComment_of_uncommented (Text.uncommented_of_not_mem (hslash h))]
    exact htrim h
  | comment h remark =>
    rw [code, dropComment_append_mark (Text.uncommented_of_not_mem (hslash h))
      (Text.getLast?_ne (hslash h))]
    exact htrim h

theorem trimmed_code (l : Text) : (code l).Trimmed := Text.trimmed_trim _

theorem LaysOut.ne_nil (h : LaysOut ws ls) : ws ≠ [] := by
  induction h with
  | last hne _ => exact hne
  | line _ _ ih => simp [ih]

theorem laysOut_flatten {rows : List (List Text)} (h : List.Forall₂ LineOf rows ls)
    (hlast : ∃ ws ∈ rows.getLast?, ws ≠ []) : LaysOut rows.flatten ls := by
  induction h with
  | nil => simp at hlast
  | @cons ws l rows ls hl hrest ih =>
    cases hrest with
    | nil =>
      obtain ⟨vs, hvs, hne⟩ := hlast
      obtain rfl : ws = vs := Option.some.inj hvs
      simpa using LaysOut.last hne hl
    | cons hm hrest =>
      rw [List.getLast?_cons_cons] at hlast
      exact .line hl (ih hlast)

/-- The code of all lines has the words, with line feeds for white space too. -/
theorem LaysOut.spread_codes (h : LaysOut ws ls) (hw : ∀ w ∈ ws, Plain w) :
    Spread Text.isAsciiBlank ws (Text.ofLines (ls.map code)) := by
  have hfeed : Spread Text.isAsciiBlank [] ['\n'] :=
    .nil (List.forall_mem_singleton.mpr (by decide))
  induction h with
  | @last ws l _ h =>
    have := ((h.spread_code hw).mono fun _ => isAsciiBlank_of_isSpace).append hfeed
    simpa [Text.ofLines] using this
  | @line ws vs l ls h _ ih =>
    have hl := (h.spread_code fun w hm => hw w (by simp [hm])).mono
      fun _ => isAsciiBlank_of_isSpace
    have := (hl.append hfeed).append (ih fun w hm => hw w (by simp [hm]))
    simpa [Text.ofLines] using this

/-! ### Up to the end of a statement -/

def NoWord (t : Text) : Prop := ∀ c ∈ t.head?, isWordChar c = false

theorem noWord_cons {c : Char} (h : isWordChar c = false) : NoWord (c :: t) := by
  intro d hd
  obtain rfl : c = d := Option.some.inj hd
  exact h

/-- Words that lead to the end of a statement, which is a bracket and a semicolon.  No other word ends
with a semicolon, and none is taken for the end of the module where it begins a line. -/
inductive Finishing : List Text → Prop
  | last {s : Text} (hs : Spaces s) : Finishing [')' :: (s ++ [';'])]
  | cons {w : Text} {ws : List Text} (hw : Plain w) (hlast : w.getLast? ≠ some ';')
      (hhead : NoWord w ∨ firstWord w ≠ "endmodule".toList ∧ ∀ v ∈ ws.head?, NoWord v)
      (rest : Finishing ws) : Finishing (w :: ws)

theorem plain_end (hs : Spaces s) : Plain (')' :: (s ++ [';'])) := by
  have hslash : '/' ∉ s := fun h => absurd (hs _ h) (by decide)
  refine ⟨⟨by simp, ?_⟩, by simp [hslash]⟩
  rw [← List.cons_append]
  exact Text.trimmed_of_ends (c := ')') rfl List.getLast?_concat (by decide) (by decide)

namespace Finishing

theorem plain (h : Finishing ws) : ∀ w ∈ ws, Plain w := by
  induction h with
  | last hs => exact List.forall_mem_singleton.mpr (plain_end hs)
  | cons hw _ _ _ ih => exact List.forall_mem_cons.mpr ⟨hw, ih⟩

theorem of_append (h : Finishing (ws ++ vs)) (hne : vs ≠ []) : Finishing vs := by
  induction ws with
  | nil => exact h
  | cons w ws ih =>
    rw [List.cons_append] at h
    generalize hus : ws ++ vs = us at h
    cases h with
    | last hs => exact absurd (List.append_eq_nil_iff.mp hus).2 hne
    | cons _ _ _ rest => exact ih (hus ▸ rest)

theorem getLast?_ne (h : Finishing (ws ++ vs)) (hne : vs ≠ []) :
    ∀ w ∈ ws, w.getLast? ≠ some ';' := by
  induction ws with
  | nil => simp
  | cons w ws ih =>
    rw [List.cons_append] at h
    generalize hus : ws ++ vs = us at h
    cases h with
    | last hs => exact absurd (List.append_eq_nil_iff.mp hus).2 hne
    | cons _ hlast _ rest => exact List.forall_mem_cons.mpr ⟨hlast, ih (hus ▸ rest)⟩

theorem exists_end (h : Finishing ws) :
    ∃ vs s, ws = vs ++ [')' :: (s ++ [';'])] ∧ Spaces s := by
  induction h with
  | last hs => exact ⟨[], _, rfl, hs⟩
  | @cons w ws _ _ _ _ ih =>
    obtain ⟨vs, s, rfl, hs⟩ := ih
    exact ⟨w :: vs, s, rfl, hs⟩

end Finishing

theorem firstWord_append_of_noWord (h : NoWord t) (w : Text) : firstWord (w ++ t) = firstWord w := by
  have ht : firstWord t = [] := firstWord_eq_nil h
  unfold firstWord at ht ⊢
  rw [List.takeWhile_append, ht]
  split
  · next hlen =>
    rw [List.append_nil]
    exact ((List.takeWhile_prefix _).eq_of_length hlen).symm
  · rfl

theorem LineOf.firstWord_ne (h : LineOf ws l) (hf : Finishing (ws ++ vs)) :
    firstWord (code l) ≠ "endmodule".toList := by
  have hspread := h.spread_code fun w hw => hf.plain w (List.mem_append_left _ hw)
  have hnil {t : Text} (h : NoWord t) : firstWord t ≠ "endmodule".toList := by
    rw [firstWord_eq_nil h]
    decide
  cases ws with
  | nil =>
    rw [hspread.eq_nil_of_trimmed (fun _ => isBlank_of_isSpace) (trimmed_code l)]
    decide
  | cons w ws =>
    obtain ⟨u, hu, hrest⟩ := hspread.exists_head (fun _ => isBlank_of_isSpace) (trimmed_code l)
    have hplain := hf.plain w (by simp)
    have hword (hw : NoWord w) : firstWord (code l) ≠ "endmodule".toList := by
      refine hnil fun c hc => ?_
      rw [hu, List.head?_append_of_ne_nil _ hplain.ne_nil] at hc
      exact hw c hc
    rw [List.cons_append] at hf
    generalize hws : ws ++ vs = us at hf
    cases hf with
    | last hs => exact hword (noWord_cons (by decide))
    | cons _ _ hhead rest =>
      rcases hhead with hw | ⟨hne, hnext⟩
      · exact hword hw
      · -- behind the word stands a space, or the next word
        have hspace : ∀ c, isSpace c = true → (!isWordChar c) = true := by
          intro c hc
          simp [isWordChar_of_isBlank (isBlank_of_isSpace hc)]
        have hnoword : NoWord u := by
          intro c hc
          have := hrest.head_of_forall (q := fun c => !isWordChar c) (fun v hv => ?_) hspace c hc
          · simpa using this
          · have hv' : v ∈ us.head? := by
              rw [← hws, List.head?_append]
              simp [Option.mem_def.mp hv]
            exact ⟨(rest.plain v (List.mem_of_head? hv')).ne_nil, fun d hd => by
              simp [hnext v hv' d hd]⟩
        rwa [hu, firstWord_append_of_noWord hnoword]

theorem LineOf.endsStatement_eq_false (h : LineOf ws l) (hf : Finishing (ws ++ vs)) (hne : vs ≠ []) :
    endsStatement (code l) = false := by
  have hplain : ∀ w ∈ ws, Plain w := fun w hw => hf.plain w (List.mem_append_left _ hw)
  have hspread := h.spread_code hplain
  rcases List.eq_nil_or_concat ws with rfl | ⟨us, w, rfl⟩
  · rw [hspread.eq_nil_of_trimmed (fun _ => isBlank_of_isSpace) (trimmed_code l)]
    rfl
  · rw [List.concat_eq_append] at hspread hplain hf
    obtain ⟨u, hu⟩ := hspread.exists_last (fun _ => isBlank_of_isSpace)
      (hplain w (by simp)).ne_nil (trimmed_code l).last
    refine Dialect.endsStatement_eq_false ?_
    rw [hu, List.getLast?_append_of_ne_nil _ (hplain w (by simp)).ne_nil]
    exact hf.getLast?_ne hne w (by simp)

theorem LineOf.endsStatement (h : LineOf ws l) (hf : Finishing ws) : endsStatement (code l) = true := by
  obtain ⟨vs, s, rfl, hs⟩ := hf.exists_end
  obtain ⟨u, hu⟩ := (h.spread_code hf.plain).exists_last (fun _ => isBlank_of_isSpace) (by simp)
    (trimmed_code l).last
  have hcode : code l = u ++ ')' :: s ++ [';'] := by simp [hu]
  have hblank : Text.Blanks s := fun c hc => isBlank_of_isSpace (hs c hc)
  have htrim : Text.trimEnd (u ++ ')' :: s) = u ++ [')'] := by
    have hsplit : u ++ ')' :: s = u ++ [')'] ++ s := by simp
    have hlast : ∀ c ∈ (u ++ [')']).getLast?, Text.isBlank c = false := by
      rw [List.getLast?_concat]
      simp
      decide
    rw [hsplit, Text.trimEnd_append hblank, Text.trimEnd_eq_self hlast]
  have hbefore : Text.beforeLast? ';' (u ++ ')' :: s ++ [';']) = some (u ++ ')' :: s) :=
    Text.beforeLast?_eq_some_iff.mpr rfl
  simp only [Dialect.endsStatement, hcode, hbefore, htrim, List.getLast?_concat, beq_self_eq_true]

/-- **Lines up to the end of a statement.**  None of the lines closes the module, and the last line
alone ends the statement. -/
theorem LaysOut.exists_last (h : LaysOut ws ls) (hf : Finishing ws) :
    ∃ ms l, ls = ms ++ [l] ∧ (∀ m ∈ ms ++ [l], firstWord (code m) ≠ "endmodule".toList) ∧
      (∀ m ∈ ms, Dialect.endsStatement (code m) = false) ∧ Dialect.endsStatement (code l) = true := by
  induction h with
  | @last ws l _ h =>
    have hf' : Finishing (ws ++ []) := by rwa [List.append_nil]
    exact ⟨[], l, rfl, List.forall_mem_singleton.mpr (h.firstWord_ne hf'), by simp, h.endsStatement hf⟩
  | @line ws vs k ls h rest ih =>
    obtain ⟨ms, l, rfl, hwords, hgo, hend⟩ := ih (hf.of_append rest.ne_nil)
    exact ⟨k :: ms, l, rfl, List.forall_mem_cons.mpr ⟨h.firstWord_ne hf, hwords⟩,
      List.forall_mem_cons.mpr ⟨h.endsStatement_eq_false hf rest.ne_nil, hgo⟩, hend⟩

end NetFlat.Dialect
