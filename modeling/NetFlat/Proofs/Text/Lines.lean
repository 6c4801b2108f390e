import NetFlat.FlatModule.Reading
import NetFlat.Proofs.Text.Words

/-!
# Lines and lists in a text

A text made of lines is cut into these lines again, and a text made of names between commas into
these names.

* `SourceFile.map_text_lines`, `FlatModule.Outline.lines_ofLines`: lines;
* `Text.map_trim_splitOn_join`: names.
-/

namespace NetFlat

/-- The text has neither a line feed nor a carriage return in it. -/
def Text.IsLine (t : Text) : Prop := ∀ c ∈ t, c ≠ '\n' ∧ c ≠ '\r'

instance (t : Text) : Decidable t.IsLine := List.decidableBAll (fun c => c ≠ '\n' ∧ c ≠ '\r') t

namespace Text

variable {s t : Text} {ls : List Text}

theorem isLine_append : IsLine (s ++ t) ↔ IsLine s ∧ IsLine t := by
  simp only [IsLine, List.mem_append, or_imp, forall_and]
  constructor
  · rintro ⟨h₁, h₂⟩
    exact ⟨⟨h₁.1, h₂.1⟩, h₁.2, h₂.2⟩
  · rintro ⟨h₁, h₂⟩
    exact ⟨⟨h₁.1, h₂.1⟩, h₁.2, h₂.2⟩

theorem IsLine.append (hs : IsLine s) (ht : IsLine t) : IsLine (s ++ t) :=
  isLine_append.mpr ⟨hs, ht⟩

theorem isLine_cons {c : Char} : IsLine (c :: t) ↔ (c ≠ '\n' ∧ c ≠ '\r') ∧ IsLine t :=
  List.forall_mem_cons

theorem IsLine.cons {c : Char} (hc : c ≠ '\n' ∧ c ≠ '\r') (ht : IsLine t) : IsLine (c :: t) :=
  isLine_cons.mpr ⟨hc, ht⟩

theorem isLine_nil : IsLine [] := by
  intro c hc
  simp at hc

theorem IsWord.isLine (h : IsWord t) : IsLine t := by
  intro c hc
  constructor
  · rintro rfl
    exact h.not_mem (by decide) hc
  · rintro rfl
    exact h.not_mem (by decide) hc

/-- The text of lines, a line feed behind each. -/
def ofLines (ls : List Text) : Text := ls.flatMap (· ++ ['\n'])

theorem splitOn_ofLines (h : ∀ l ∈ ls, IsLine l) : (ofLines ls).splitOn '\n' = ls ++ [[]] := by
  induction ls with
  | nil => rfl
  | cons l ls ih =>
    have hl : '\n' ∉ l := fun hm => (h l (by simp) _ hm).1 rfl
    have hcons : ofLines (l :: ls) = l ++ '\n' :: ofLines ls := by simp [ofLines]
    rw [hcons, List.splitOn_append_cons_self_of_not_mem hl, ih fun k hk => h k (by simp [hk])]
    rfl

theorem dropReturn_eq_self (h : IsLine t) : SourceFile.dropReturn t = t := by
  have hlast : t.getLast? ≠ some '\r' := fun hr => (h _ (List.mem_of_getLast? hr)).2 rfl
  simp [SourceFile.dropReturn, beforeLast?, hlast]

theorem map_dropReturn (h : ∀ l ∈ ls, IsLine l) : ls.map SourceFile.dropReturn = ls := by
  rw [List.map_congr_left fun l hl => dropReturn_eq_self (h l hl), List.map_id']

/-! ### Names between commas -/

theorem trim_cons_blank {c : Char} (hc : isBlank c = true) : trim (c :: t) = trim t := by
  have hs : Blanks [c] := by
    intro d hd
    obtain rfl := List.mem_singleton.mp hd
    exact hc
  have := trimStart_append (t := t) hs
  rw [trim, trim, ← this, List.singleton_append]

theorem map_trim_splitOn_cons_blank (t : Text) :
    ((' ' :: t).splitOn ',').map trim = (t.splitOn ',').map trim := by
  rw [List.splitOn_cons_eq_if_modifyHead, if_neg (by decide)]
  cases h : t.splitOn ',' with
  | nil => exact absurd h (List.splitOn_ne_nil ',' t)
  | cons a l =>
    rw [List.modifyHead_cons, List.map_cons, List.map_cons, trim_cons_blank (by decide)]

theorem join_cons (sep t : Text) (ts : List Text) :
    join sep (t :: ts) = t ++ ts.flatMap (sep ++ ·) := by
  induction ts generalizing t with
  | nil => simp [join]
  | cons u ts ih =>
    have hcons : join sep (t :: u :: ts) = t ++ (sep ++ join sep (u :: ts)) := by
      simp [join, List.intercalate]
    rw [hcons, ih, List.flatMap_cons, List.append_assoc]

theorem join_concat (sep t u : Text) (ts : List Text) :
    join sep (ts ++ [t ++ u]) = join sep (ts ++ [t]) ++ u := by
  cases ts with
  | nil => simp [join]
  | cons s ts => simp [join_cons]

theorem map_trim_splitOn_join (hne : ls ≠ []) (h : ∀ l ∈ ls, ',' ∉ l) :
    ((join [',', ' '] ls).splitOn ',').map trim = ls.map trim := by
  induction ls with
  | nil => exact absurd rfl hne
  | cons l ls ih =>
    have hl : ',' ∉ l := h l (by simp)
    cases ls with
    | nil =>
      rw [join, List.intercalate_singleton, List.splitOn_eq_singleton hl]
    | cons k ls =>
      have hcons : join [',', ' '] (l :: k :: ls) = l ++ ',' :: ' ' :: join [',', ' '] (k :: ls) := by
        simp [join, List.intercalate]
      rw [hcons, List.splitOn_append_cons_self_of_not_mem hl, List.map_cons,
        map_trim_splitOn_cons_blank, ih (by simp) fun m hm => h m (by simp [hm])]
      rfl

end Text

/-! ### Lines of a file -/

namespace SourceFile

theorem pieces_ofLines {ls : List Text} (h : ∀ l ∈ ls, l.IsLine) :
    pieces (Text.ofLines ls) = ls := by
  simp [pieces, Text.splitOn_ofLines h]

theorem map_text_number (id n start : Nat) (ts : List Text) :
    (number id n start ts).map Line.text = ts.map dropReturn := by
  induction ts generalizing n start with
  | nil => rfl
  | cons t ts ih => rw [number, List.map_cons, ih, List.map_cons]

theorem map_text_lines {file : SourceFile} {ls : List Text} (hc : file.content = Text.ofLines ls)
    (h : ∀ l ∈ ls, l.IsLine) : file.lines.map Line.text = ls := by
  rw [lines, hc, pieces_ofLines h, map_text_number, Text.map_dropReturn h]

end SourceFile

theorem FlatModule.Outline.lines_ofLines {ls : List Text} (h : ∀ l ∈ ls, l.IsLine) :
    lines (Text.ofLines ls) = ls := by
  simp [lines, Text.splitOn_ofLines h, Text.map_dropReturn h]

end NetFlat
