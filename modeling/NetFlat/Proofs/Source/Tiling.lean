import NetFlat.Proofs.Bytes.Source

/-!
# Lines tile a file

Each byte of a file belongs to the text of one line or to what ends that line: a line feed or the
end of the file, with or without a carriage return in front of it.  So the lines, each with its end,
stand one behind the other from the start of the file to its end.

* `LineEnd`, `SourceFile.terminator`: what ends a line;
* `SourceFile.Stands`: where a line stands;
* `SourceFile.tiles_lines`: the lines of a file tile it;
* `SourceFile.lineCount_eq_count`: how many lines there are.
-/

namespace NetFlat

open Text (byteSize bytes byteOf)

/-! ### Ends of lines -/

/-- What can end a line with the text `t` in front of the rest of a file.  A carriage return in
front of a line feed or of the end of the file is no part of the text. -/
inductive LineEnd (t : Text) : Text → Text → Prop
  | feed (u : Text) (h : t.getLast? ≠ some '\r') : LineEnd t ['\n'] u
  | returnFeed (u : Text) : LineEnd t ['\r', '\n'] u
  | stop (h : t.getLast? ≠ some '\r') (hne : t ≠ []) : LineEnd t [] []
  | returnStop : LineEnd t ['\r'] []

/-- A line starts behind the text: it is empty, or a line feed ends it. -/
def Text.EndsLine (s : Text) : Prop := s = [] ∨ s.getLast? = some '\n'

instance (s : Text) : Decidable s.EndsLine :=
  inferInstanceAs (Decidable (s = [] ∨ s.getLast? = some '\n'))

theorem Text.EndsLine.sinceFeed_bytes {s : Text} (h : s.EndsLine) : sinceFeed (bytes s) = [] := by
  rcases h with rfl | h
  · rfl
  · obtain ⟨init, rfl⟩ := List.getLast?_eq_some_iff.mp h
    rw [bytes_append]
    exact sinceFeed_concat_feed (bytes init)

namespace SourceFile

/-- A piece is a text with or without a carriage return behind it. -/
theorem dropReturn_cases (t : Text) :
    dropReturn t = t ∧ t.getLast? ≠ some '\r' ∨ t = dropReturn t ++ ['\r'] := by
  rcases List.eq_nil_or_concat' t with rfl | ⟨init, c, rfl⟩
  · exact .inl ⟨rfl, by simp⟩
  · rw [Bytes.dropReturn_concat]
    by_cases hc : c = '\r'
    · rw [if_pos hc, hc]
      exact .inr rfl
    · rw [if_neg hc]
      exact .inl ⟨rfl, by simpa using hc⟩

theorem exists_lineEnd_feed (t u : Text) :
    ∃ e, t ++ ['\n'] = dropReturn t ++ e ∧ LineEnd (dropReturn t) e u := by
  rcases dropReturn_cases t with ⟨heq, hlast⟩ | heq
  · rw [heq]
    exact ⟨['\n'], rfl, .feed u hlast⟩
  · refine ⟨['\r', '\n'], ?_, .returnFeed u⟩
    conv_lhs => rw [heq, List.append_assoc, List.singleton_append]

theorem exists_lineEnd_stop {t : Text} (hne : t ≠ []) :
    ∃ e, t = dropReturn t ++ e ∧ LineEnd (dropReturn t) e [] := by
  rcases dropReturn_cases t with ⟨heq, hlast⟩ | heq
  · rw [heq]
    exact ⟨[], (List.append_nil t).symm, .stop hlast hne⟩
  · exact ⟨['\r'], heq, .returnStop⟩

/-- What stands behind the text of a line, up to the next line or the end of the file. -/
def terminator (f : SourceFile) (l : Line) : Text :=
  let rest := (Text.dropBytes? l.span.stop f.content).getD []
  rest.takeWhile (· ≠ '\n') ++ (rest.dropWhile (· ≠ '\n')).take 1

/-! ### Where a line stands -/

/-- In the file the line stands behind `s`, `e` ends it, and `u` follows. -/
structure Stands (f : SourceFile) (l : Line) (s e u : Text) : Prop where
  content : f.content = s ++ (l.text ++ (e ++ u))
  front : s.EndsLine
  free : '\n' ∉ l.text
  lineEnd : LineEnd l.text e u
  number : l.number = 1 + s.count '\n'
  span : l.span = ⟨f.id, byteSize s, byteSize s + byteSize l.text⟩

namespace Stands

variable {f : SourceFile} {l : Line} {s e u : Text} (h : f.Stands l s e u)
include h

theorem snippet?_eq : f.snippet? l.span.start l.span.stop = some l.text := by
  rw [h.span, snippet?, h.content]
  exact Text.slice?_append s l.text (e ++ u)

theorem terminator_eq : f.terminator l = e := by
  have hdrop := Text.dropBytes?_byteSize (s ++ l.text) (e ++ u)
  rw [List.append_assoc, ← h.content, Text.byteSize_append] at hdrop
  rw [terminator, h.span, hdrop, Option.getD_some]
  cases h.lineEnd <;> simp

/-- The text ends inside of the file, and something of the file stands behind the start. -/
theorem bounds : l.span.stop ≤ byteSize f.content ∧ l.span.start < byteSize f.content := by
  have hsize : byteSize f.content = byteSize s + (byteSize l.text + (byteSize e + byteSize u)) := by
    rw [h.content, Text.byteSize_append, Text.byteSize_append, Text.byteSize_append]
  have hpos : 0 < byteSize l.text + byteSize e := by
    have htext := Bytes.length_le_byteSize l.text
    have hend := Bytes.length_le_byteSize e
    cases h.lineEnd with
    | feed | returnFeed | returnStop =>
      exact Nat.add_pos_right _ (Nat.lt_of_lt_of_le (by simp) hend)
    | stop _ hne =>
      have := List.length_pos_iff.mpr hne
      omega
  rw [h.span]
  dsimp only
  omega

theorem position_eq {k : Nat} (hk : k ≤ byteSize l.text) :
    f.position (l.span.start + k) = (l.number, k + 1) := by
  rw [h.span, h.number]
  exact position_add h.content h.free h.front.sinceFeed_bytes hk

end Stands

/-! ### All lines -/

/-- The lines, each with its end, make up what the file holds behind its part `s`. -/
inductive Tiles (f : SourceFile) : Text → List Line → Prop
  | nil : Tiles f f.content []
  | cons {s e u : Text} {l : Line} {ls : List Line} (h : f.Stands l s e u)
      (rest : Tiles f (s ++ (l.text ++ e)) ls) : Tiles f s (l :: ls)

namespace Tiles

variable {f : SourceFile} {s : Text} {l : Line} {ls : List Line}

theorem exists_stands (h : f.Tiles s ls) (hl : l ∈ ls) : ∃ s e u, f.Stands l s e u := by
  induction h with
  | nil => simp at hl
  | cons hfirst _ ih =>
    rcases List.mem_cons.mp hl with rfl | hl
    · exact ⟨_, _, _, hfirst⟩
    · exact ih hl

theorem append_flatMap (h : f.Tiles s ls) :
    s ++ ls.flatMap (fun l => l.text ++ f.terminator l) = f.content := by
  induction h with
  | nil => exact List.append_nil f.content
  | cons hfirst _ ih =>
    rw [List.flatMap_cons, hfirst.terminator_eq, ← List.append_assoc]
    exact ih

end Tiles

theorem pieces_of_not_mem {t : Text} (h : '\n' ∉ t) (hne : t ≠ []) : pieces t = [t] := by
  simp [pieces, List.splitOn_eq_singleton h, hne]

theorem pieces_append {t : Text} (h : '\n' ∉ t) (u : Text) :
    pieces (t ++ '\n' :: u) = t :: pieces u := by
  obtain ⟨v, vs, hu⟩ := List.exists_cons_of_ne_nil (List.splitOn_ne_nil '\n' u)
  unfold pieces
  dsimp only
  rw [List.splitOn_append_cons_self_of_not_mem h, hu, List.getLast?_cons_cons,
    List.dropLast_cons_cons]
  split <;> rfl

/-- The lines made of what the file holds behind the end of a line. -/
theorem tiles_number {f : SourceFile} {s t : Text} (hs : s.EndsLine) (hc : f.content = s ++ t) :
    f.Tiles s (number f.id (1 + s.count '\n') (byteSize s) (pieces t)) := by
  cases hcut : Text.cut? '\n' t with
  | none =>
    have ht := Text.cut?_eq_none_iff.mp hcut
    by_cases hne : t = []
    · subst hne
      rw [List.append_nil] at hc
      rw [← hc]
      exact .nil
    · obtain ⟨e, heq, hend⟩ := exists_lineEnd_stop hne
      have hfree : '\n' ∉ dropReturn t := fun hm => ht ((Bytes.prefix_dropReturn t).subset hm)
      rw [pieces_of_not_mem ht hne]
      refine .cons (u := []) (e := e) ⟨?_, hs, hfree, hend, rfl, rfl⟩ ?_
      · rw [hc, List.append_nil]
        exact congrArg (s ++ ·) heq
      · rw [← heq, ← hc]
        exact .nil
  | some p =>
    obtain ⟨a, b⟩ := p
    obtain ⟨rfl, ha⟩ := Text.cut?_eq_some_iff.mp hcut
    obtain ⟨e, heq, hend⟩ := exists_lineEnd_feed a b
    have hfree : '\n' ∉ dropReturn a := fun hm => ha ((Bytes.prefix_dropReturn a).subset hm)
    have hc' : f.content = s ++ (a ++ ['\n']) ++ b := by
      rw [hc]
      simp
    have hcount : (s ++ (a ++ ['\n'])).count '\n' = s.count '\n' + 1 := by
      simp [List.count_eq_zero.mpr ha]
    have hsize : byteSize (s ++ (a ++ ['\n'])) = byteSize s + byteSize a + 1 := by
      rw [Text.byteSize_append, Text.byteSize_append, Nat.add_assoc]
      rfl
    -- the line feed belongs to what the next line stands behind
    have hrest := tiles_number (s := s ++ (a ++ ['\n'])) (.inr (by simp)) hc'
    rw [hcount, hsize, ← Nat.add_assoc, heq] at hrest
    rw [pieces_append ha]
    refine .cons (u := b) (e := e) ⟨?_, hs, hfree, hend, rfl, rfl⟩ hrest
    rw [hc', heq, List.append_assoc, List.append_assoc]
termination_by t.length

variable {f : SourceFile} {l : Line}

/-- **The lines tile the file.** -/
theorem tiles_lines (f : SourceFile) : f.Tiles [] f.lines := tiles_number (.inl rfl) rfl

theorem exists_stands (h : l ∈ f.lines) : ∃ s e u, f.Stands l s e u :=
  f.tiles_lines.exists_stands h

/-- The lines are as many as the line feeds, and one more if something follows the last one. -/
theorem lineCount_eq_count (f : SourceFile) : f.lineCount =
    f.content.count '\n' + if f.content.EndsLine then 0 else 1 := by
  have hlast : (f.content.splitOn '\n').getLast? = some [] ↔ f.content.EndsLine :=
    (Bytes.getLast?_splitOn f.content).trans or_comm
  have hlen := Bytes.length_splitOn f.content
  unfold lineCount pieces
  dsimp only
  by_cases h : (f.content.splitOn '\n').getLast? = some []
  · rw [if_pos h, if_pos (hlast.mp h), List.length_dropLast, hlen, Nat.add_sub_cancel, Nat.add_zero]
  · rw [if_neg h, if_neg fun hends => h (hlast.mpr hends), hlen]

theorem Stands.number_eq_lineCount {s e : Text} (h : f.Stands l s e []) (he : '\n' ∉ e) :
    l.number = f.lineCount := by
  have hc := h.content
  have hfree : '\n' ∉ l.text ++ e := by simpa using ⟨h.free, he⟩
  have hne : l.text ++ e ≠ [] := by
    intro hnil
    obtain ⟨ht, rfl⟩ := List.append_eq_nil_iff.mp hnil
    cases h.lineEnd with
    | stop _ hne => exact hne ht
  rw [List.append_nil] at hc
  have hcount : f.content.count '\n' = s.count '\n' := by
    rw [hc, List.count_append, List.count_eq_zero.mpr hfree, Nat.add_zero]
  have hends : ¬f.content.EndsLine := by
    rintro (hnil | hlast)
    · rw [hc] at hnil
      exact hne (List.append_eq_nil_iff.mp hnil).2
    · rw [hc, List.getLast?_append_of_ne_nil _ hne] at hlast
      exact hfree (List.mem_of_getLast? hlast)
  rw [lineCount_eq_count, h.number, hcount, if_neg hends, Nat.add_comm]

end SourceFile

end NetFlat
