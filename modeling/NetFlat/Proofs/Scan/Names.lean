import NetFlat.Proofs.Flattening
import NetFlat.Proofs.Gate.Fragments
import NetFlat.Proofs.Scan.Layout
import NetFlat.Proofs.Text.Marks

/-!
# What names can be read

Comments are cut off before anything else is read, declarations are cut at commas, and references
end where their brackets do.  So the names that are read from a file have no comment mark; those
that are declared have no comma, and those at pins have balanced brackets.

* `Declaration.of_mem_names`: the names of a declaration;
* `Phase.Clear.advance`, `Phase.Clear.read`: no comment mark gets into a statement, line by line;
* `Item.Clear.of_connects`, `Item.Clear.of_mem_wires`: the names that are read from an item;
* `SourceFile.clear_of_mem_items`: all items are such.
-/

namespace NetFlat

open Text (Uncommented)

/-! ### Names that are declared -/

/-- A text is cut into pieces without the character that it is cut at, the first of them where the
text begins. -/
theorem Text.of_splitOn (c : Char) (t : Text) : (∀ u ∈ (t.splitOn c).head?, u <+: t) ∧
    ∀ u ∈ t.splitOn c, c ∉ u ∧ u <:+: t := by
  induction t with
  | nil => simp
  | cons d t ih =>
    rw [List.splitOn_cons_eq_if_modifyHead]
    cases hpieces : t.splitOn c with
    | nil => exact absurd hpieces (List.splitOn_ne_nil c t)
    | cons first pieces =>
      rw [hpieces] at ih
      obtain ⟨hfirst, hall⟩ := ih
      have hrest : ∀ u ∈ pieces, c ∉ u ∧ u <:+: d :: t := fun u hu =>
        ⟨(hall u (by simp [hu])).1, List.infix_cons (hall u (by simp [hu])).2⟩
      have hprefix : d :: first <+: d :: t :=
        List.cons_prefix_cons.mpr ⟨rfl, hfirst first rfl⟩
      split
      · refine ⟨by simp, List.forall_mem_cons.mpr ⟨⟨by simp, List.nil_infix⟩, ?_⟩⟩
        intro u hu
        exact ⟨(hall u hu).1, List.infix_cons (hall u hu).2⟩
      · next hd =>
        have hne : d ≠ c := by simpa using hd
        refine ⟨by simpa using hprefix, List.forall_mem_cons.mpr ⟨⟨?_, hprefix.isInfix⟩, hrest⟩⟩
        simp [hne.symm, (hall first (by simp)).1]

namespace Declaration

variable {t u name : Text} {d : Declaration}

theorem infix_body (t : Text) : body t <:+: t := by
  have hlast : (Text.beforeLast? ';' (Text.trim t)).getD (Text.trim t) <:+: Text.trim t := by
    cases h : Text.beforeLast? ';' (Text.trim t) with
    | none => exact List.infix_rfl
    | some s =>
      rw [Option.getD_some, Text.beforeLast?_eq_some_iff.mp h]
      exact (List.prefix_append s [';']).isInfix
  exact (Text.infix_trim _).trans (hlast.trans (Text.infix_trim t))

theorem suffix_dropKind (kind t : Text) : dropKind kind t <:+ t := by
  unfold dropKind
  split
  · next rest h =>
    obtain rfl : kind ++ rest = t := List.append_eq_of_isPrefixOf?_eq_some h
    split
    · exact (List.dropWhile_suffix _).trans (List.suffix_append kind rest)
    · exact List.suffix_rfl
  · exact List.suffix_rfl

theorem suffix_of_splitRange? {range : Option (Nat × Nat)} (h : splitRange? t = some (range, u)) :
    u <:+ t := by
  unfold splitRange? at h
  split at h
  · next rest =>
    split at h
    · next inside after hcut =>
      obtain ⟨b, -, hb⟩ := Option.map_eq_some_iff.mp h
      obtain ⟨-, rfl⟩ := Prod.mk.inj hb
      obtain ⟨rfl, -⟩ := Text.cut?_eq_some_iff.mp hcut
      exact (List.dropWhile_suffix _).trans ⟨'[' :: (inside ++ [']']), by simp⟩
    · simp at h
  · obtain ⟨-, rfl⟩ := Prod.mk.inj (Option.some.inj h)
    exact List.suffix_rfl

/-- Pieces between commas have no comma and stand in the text. -/
theorem of_mem_listed (h : name ∈ listed t) : ',' ∉ name ∧ name <:+: t := by
  obtain ⟨hmem, -⟩ := List.mem_filter.mp h
  obtain ⟨piece, hpiece, rfl⟩ := List.mem_map.mp hmem
  obtain ⟨hcomma, hstands⟩ := (Text.of_splitOn ',' t).2 piece hpiece
  exact ⟨fun h => hcomma ((Text.infix_trim piece).subset h), (Text.infix_trim piece).trans hstands⟩

/-- **Names that are declared** have no comma and stand in the text. -/
theorem of_mem_names (h : read? t = some d) (hn : name ∈ d.names) : ',' ∉ name ∧ name <:+: t := by
  simp only [read?, Option.bind_eq_bind, Option.bind_eq_some_iff] at h
  obtain ⟨⟨range, rest⟩, hsplit, h⟩ := h
  split at h
  · obtain rfl := Option.some.inj h
    obtain ⟨hcomma, hstands⟩ := of_mem_listed hn
    refine ⟨hcomma, hstands.trans ((suffix_of_splitRange? hsplit).isInfix.trans ?_)⟩
    exact ((suffix_dropKind _ _).isInfix.trans (suffix_dropKind _ _).isInfix).trans (infix_body t)
  · simp at h

end Declaration

/-! ### What the reader takes in -/

/-- No comment mark stands in the statement. -/
def Item.Clear : Item → Prop
  | .declaration d => d.text.Uncommented
  | .gate g => ∀ l ∈ g.lines, l.1.Uncommented
  | .other _ => True

namespace Phase

/-- No comment mark stands in the statement that is open. -/
def Clear : Phase → Prop
  | .declaration d => d.text.Uncommented
  | .gate g => ∀ l ∈ g.lines, l.1.Uncommented
  | _ => True

def LeadsClear (r : Phase × Option Item) : Prop := r.1.Clear ∧ ∀ i ∈ r.2, i.Clear

variable {config : Config} {code : Text} {line : Line} {p : Phase}

theorem Clear.leadsClear (hp : p.Clear) : LeadsClear (p, none) := ⟨hp, nofun⟩

theorem leadsClear_item {i : Item} (h : i.Clear) : LeadsClear (.body, some i) := by
  refine ⟨trivial, fun j hj => ?_⟩
  obtain rfl := Option.some.inj hj
  exact h

theorem leadsClear_ofDeclaration {d : OpenDeclaration} (h : d.text.Uncommented) :
    LeadsClear (ofDeclaration code d) := by
  unfold ofDeclaration
  split
  · exact leadsClear_item h
  · exact Clear.leadsClear h

theorem leadsClear_ofGate {g : OpenGate} (h : ∀ l ∈ g.lines, l.1.Uncommented) :
    LeadsClear (ofGate code g) := by
  unfold ofGate
  split
  · exact leadsClear_item h
  · exact Clear.leadsClear h

theorem leadsClear_ofBody (h : code.Uncommented) : LeadsClear (ofBody code line) := by
  have hdrop (n : Nat) : Uncommented (code.drop n) := h.mono (List.drop_suffix n code).isInfix
  unfold ofBody
  split
  · exact Clear.leadsClear trivial
  simp only
  split
  · exact Clear.leadsClear trivial
  split
  · exact leadsClear_ofDeclaration (hdrop _)
  split
  · exact leadsClear_ofDeclaration (hdrop _)
  split
  · exact leadsClear_ofDeclaration (hdrop _)
  split
  · exact leadsClear_ofGate (List.forall_mem_singleton.mpr h)
  · exact leadsClear_item trivial

/-- **One line** without a comment. -/
theorem Clear.advance (hp : p.Clear) (h : code.Uncommented) (config : Config) (line : Line) :
    LeadsClear (p.advance config code line) := by
  have hheader (code : Text) : (Scan.headerPhase code).Clear := by
    unfold Scan.headerPhase
    split <;> trivial
  cases p with
  | seeking =>
    unfold Phase.advance
    refine Clear.leadsClear ?_
    split
    · exact hheader code
    · trivial
  | header => exact (hheader code).leadsClear
  | body => exact leadsClear_ofBody h
  | declaration d =>
    unfold Phase.advance
    simp only
    split
    · exact Clear.leadsClear trivial
    · exact leadsClear_ofDeclaration (Uncommented.append hp
        (h.append_left (s := [' ']) (by decide)) (.inr (by simp)))
  | gate g =>
    unfold Phase.advance
    simp only
    split
    · exact Clear.leadsClear trivial
    · exact leadsClear_ofGate (List.forall_mem_append.mpr ⟨hp, List.forall_mem_singleton.mpr h⟩)
  | closed | failed f => exact Clear.leadsClear trivial

/-- **Rows of lines** without comments. -/
theorem Clear.read (hp : p.Clear) {ls : List (Text × Line)} (h : ∀ l ∈ ls, l.1.Uncommented)
    (config : Config) : ∀ i ∈ (p.read config ls).2, i.Clear := by
  induction ls generalizing p with
  | nil => simp [Phase.read]
  | cons l ls ih =>
    obtain ⟨hphase, hitem⟩ := hp.advance (h l (by simp)) config l.2
    rw [read_cons]
    intro i hi
    rcases List.mem_append.mp hi with hi | hi
    · exact hitem i (Option.mem_toList.mp hi)
    · exact ih hphase (fun m hm => h m (by simp [hm])) i hi

end Phase

/-! ### Names that are read -/

namespace Item

variable {i : Item} {pin t : Text} {a : Signal}

/-- The item is an instance with a connection of the pin to the reference. -/
def Connects (pin reference : Text) : Item → Prop
  | .gate g => ∃ cs, Connection.read g.lines = .ok cs ∧
      ∃ c ∈ cs, c.pin = pin ∧ c.reference = reference
  | _ => False

theorem uncommented_ofLines {ls : List Text} (h : ∀ l ∈ ls, l.Uncommented) :
    (Text.ofLines ls).Uncommented := by
  induction ls with
  | nil => exact Text.uncommented_of_not_mem (by simp [Text.ofLines])
  | cons l ls ih =>
    have hrest : Uncommented ('\n' :: Text.ofLines ls) :=
      (ih fun k hk => h k (by simp [hk])).append_left (s := ['\n']) (by decide)
    have hcons : Text.ofLines (l :: ls) = l ++ '\n' :: Text.ofLines ls := by simp [Text.ofLines]
    rw [hcons]
    exact (h l (by simp)).append hrest (.inr (by simp))

/-- **References** in clear items have balanced brackets and no comment mark. -/
theorem Clear.of_connects (h : i.Clear) (hc : i.Connects pin t) :
    Connection.Closes 0 t ∧ t.Uncommented := by
  cases i with
  | declaration d | other line => exact hc.elim
  | gate g =>
    obtain ⟨cs, hread, c, hmem, -, rfl⟩ := hc
    obtain ⟨hclose, hstands⟩ := Connection.reference_of_readAll _ hread c hmem
    have htext : Uncommented ((Connection.placements g.lines).map Placement.char) := by
      rw [Connection.map_char_placements]
      exact uncommented_ofLines (List.forall_mem_map.mpr h)
    have htail : ((Connection.placements g.lines).dropWhile (·.char ≠ '(')).tail <:+
        Connection.placements g.lines := (List.tail_suffix _).trans (List.dropWhile_suffix _)
    exact ⟨hclose, htext.mono (hstands.trans (htail.isInfix.map _))⟩

/-- **Names** that clear items declare have no comma and no comment mark. -/
theorem Clear.of_mem_wires (h : i.Clear) (ha : a ∈ i.wires) :
    ',' ∉ a.name ∧ a.name.Uncommented := by
  cases i with
  | gate g | other line => simp [wires] at ha
  | declaration d =>
    simp only [wires] at ha
    split at ha
    · next names _ hread =>
      obtain ⟨name, hname, rfl⟩ := List.mem_map.mp ha
      obtain ⟨hcomma, hstands⟩ := Declaration.of_mem_names hread hname
      exact ⟨hcomma, Uncommented.mono h hstands⟩
    · simp at ha

end Item

theorem SourceFile.clear_of_mem_items {config : Config} {file : SourceFile} {i : Item}
    (hi : i ∈ file.items config) : i.Clear := by
  refine Phase.Clear.read (p := .seeking) trivial (fun l hl => ?_) config i hi
  obtain ⟨line, -, rfl⟩ := List.mem_map.mp hl
  exact Dialect.uncommented_code line.text

end NetFlat
