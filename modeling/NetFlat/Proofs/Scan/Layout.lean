import NetFlat.Proofs.Dialect.Lines
import NetFlat.Proofs.Scan.Blocks

/-!
# The layout of a file

A file that the reader gets through falls into the lines before its module, the header, the body,
the line that closes the module, and what comes after it.

* `Layout.Fits`: a layout, told from the code of the lines alone;
* `SourceFile.exists_layout`: a file whose module is closed has one;
* `Layout.Fits.items_eq`, `Layout.Fits.closes_iff`: the reader sees nothing but the body.
-/

namespace NetFlat

def Dialect.Heads (config : Config) (code : Text) : Prop :=
  moduleName? code = some config.moduleName

def Dialect.Closes (code : Text) : Prop := firstWord code = "endmodule".toList

instance (config : Config) (code : Text) : Decidable (Dialect.Heads config code) :=
  inferInstanceAs (Decidable (_ = _))

instance (code : Text) : Decidable (Dialect.Closes code) := inferInstanceAs (Decidable (_ = _))

/-- The lines of a file, each with its code: those before the module, those of the header up to the
one with its semicolon, that line, those of the body, the one that closes it, and those after. -/
structure Layout where
  before : List (Text × Line)
  opening : List (Text × Line)
  entry : Text × Line
  body : List (Text × Line)
  closing : Text × Line
  after : List (Text × Line)

namespace Layout

def header (L : Layout) : List (Text × Line) := L.opening ++ [L.entry]

/-- The lines of the module. -/
def moduleLines (L : Layout) : List (Text × Line) := L.header ++ L.body ++ [L.closing]

def lines (L : Layout) : List (Text × Line) := L.before ++ L.moduleLines ++ L.after

/-- The header is the first of the module, it reaches to the first semicolon, and the body reaches
to the first line that closes a module. -/
structure Fits (config : Config) (L : Layout) : Prop where
  before : ∀ l ∈ L.before, ¬Dialect.Heads config l.1
  heads : ∀ l ∈ L.header.head?, Dialect.Heads config l.1
  opening : ∀ l ∈ L.opening, ';' ∉ l.1
  entry : ';' ∈ L.entry.1
  body : ∀ l ∈ L.body, ¬Dialect.Closes l.1
  closing : Dialect.Closes L.closing.1

end Layout

/-! ### Reading up to the body -/

namespace Phase

variable {config : Config} {ls : List (Text × Line)}

theorem read_cons (p : Phase) (l : Text × Line) (ls : List (Text × Line)) :
    p.read config (l :: ls) = (((p.advance config l.1 l.2).1.read config ls).1,
      (p.advance config l.1 l.2).2.toList ++ ((p.advance config l.1 l.2).1.read config ls).2) := rfl

theorem read_seeking (h : ∀ l ∈ ls, ¬Dialect.Heads config l.1) :
    Phase.seeking.read config ls = (.seeking, []) := by
  induction ls with
  | nil => rfl
  | cons l ls ih =>
    have hl : ¬Dialect.moduleName? l.1 = some config.moduleName := h l (by simp)
    rw [read_cons, advance, if_neg hl, ih fun m hm => h m (by simp [hm])]
    rfl

theorem read_opening (h : ∀ l ∈ ls, ';' ∉ l.1) :
    Phase.header.read config ls = (.header, []) := by
  induction ls with
  | nil => rfl
  | cons l ls ih =>
    rw [read_cons, advance, Scan.headerPhase, if_neg (h l (by simp)),
      ih fun m hm => h m (by simp [hm])]
    rfl

theorem read_header {opening : List (Text × Line)} {entry : Text × Line}
    (hh : ∀ l ∈ (opening ++ [entry]).head?, Dialect.Heads config l.1)
    (ho : ∀ l ∈ opening, ';' ∉ l.1) (he : ';' ∈ entry.1) :
    Phase.seeking.read config (opening ++ [entry]) = (.body, []) := by
  have hentry : Scan.headerPhase entry.1 = .body := if_pos he
  cases opening with
  | nil =>
    have hl : Dialect.moduleName? entry.1 = some config.moduleName := hh _ (by simp)
    rw [List.nil_append, read_cons, advance, if_pos hl, hentry]
    rfl
  | cons l ls =>
    have hl : Dialect.moduleName? l.1 = some config.moduleName := hh _ (by simp)
    have hheader : Scan.headerPhase l.1 = .header := if_neg (ho l (by simp))
    rw [List.cons_append, read_cons, advance, if_pos hl, hheader, read_append,
      read_opening fun m hm => ho m (by simp [hm]), read_cons, advance, hentry]
    rfl

theorem read_closed (ls : List (Text × Line)) : Phase.closed.read config ls = (.closed, []) := by
  induction ls with
  | nil => rfl
  | cons l ls ih => rw [read_cons, advance, ih]; rfl

/-! ### Reading the body -/

/-- The phase is one of those that the reader is in between the header and the end. -/
def InBody : Phase → Prop
  | .body | .declaration _ | .gate _ => True
  | _ => False

theorem inBody_ofDeclaration (code : Text) (d : OpenDeclaration) :
    (ofDeclaration code d).1.InBody := by
  unfold ofDeclaration
  split <;> trivial

theorem inBody_ofGate (code : Text) (g : OpenGate) : (ofGate code g).1.InBody := by
  unfold ofGate
  split <;> trivial

/-- A line that closes no module leads from the body into the body. -/
theorem InBody.advance {p : Phase} {code : Text} {line : Line} (hp : p.InBody)
    (hc : ¬Dialect.Closes code) : (p.advance config code line).1.InBody := by
  have hw : ¬Dialect.firstWord code = "endmodule".toList := hc
  cases p with
  | seeking | header | closed | failed f => exact hp.elim
  | body =>
    simp only [Phase.advance, ofBody]
    split
    · trivial
    split
    · exact inBody_ofDeclaration ..
    split
    · exact inBody_ofDeclaration ..
    split
    · exact inBody_ofDeclaration ..
    split
    · exact inBody_ofGate ..
    · trivial
  | declaration d =>
    rw [Phase.advance, if_neg hw]
    exact inBody_ofDeclaration ..
  | gate g =>
    rw [Phase.advance, if_neg hw]
    exact inBody_ofGate ..

theorem InBody.read {p : Phase} (hp : p.InBody) (h : ∀ l ∈ ls, ¬Dialect.Closes l.1) :
    (p.read config ls).1.InBody := by
  induction ls generalizing p with
  | nil => exact hp
  | cons l ls ih => exact ih (hp.advance (h l (by simp))) fun m hm => h m (by simp [hm])

theorem advance_body_closing {code : Text} {line : Line} (hc : Dialect.Closes code) :
    Phase.body.advance config code line = (.closed, none) := by
  have hw : Dialect.firstWord code = "endmodule".toList := hc
  have hhead : code.head? = some 'e' := by
    obtain ⟨t, ht⟩ := List.takeWhile_prefix (p := isWordChar) (l := code)
    rw [← ht, show code.takeWhile isWordChar = "endmodule".toList from hc]
    rfl
  have hne : ¬(code = [] ∨ Dialect.isAttribute code = true) := by
    have hattr : Dialect.isAttribute code = false :=
      Dialect.isAttribute_eq_false (by simp [hhead])
    rintro (rfl | h)
    · simp at hhead
    · simp [hattr] at h
  simp only [Phase.advance, ofBody]
  rw [if_neg hne, if_pos hw]

theorem InBody.advance_closing {p : Phase} {code : Text} (hp : p.InBody) (hne : p ≠ .body)
    (hc : Dialect.Closes code) (config : Config) (line : Line) :
    ∃ f, p.advance config code line = (.failed f, none) := by
  have hw : Dialect.firstWord code = "endmodule".toList := hc
  cases p with
  | seeking | header | closed | failed f => exact hp.elim
  | body => exact absurd rfl hne
  | declaration d =>
    rw [Phase.advance, if_pos hw]
    exact ⟨_, rfl⟩
  | gate g =>
    rw [Phase.advance, if_pos hw]
    exact ⟨_, rfl⟩

end Phase

/-! ### Layouts -/

namespace Layout.Fits

variable {config : Config} {L : Layout}

/-- **The reader sees the body only**, and comes to the end if no statement is open there. -/
theorem read_lines (h : L.Fits config) :
    ((Phase.seeking.read config L.lines).1 = .closed ↔ (Phase.body.read config L.body).1 = .body) ∧
      (Phase.seeking.read config L.lines).2 = (Phase.body.read config L.body).2 := by
  have hb : (Phase.body.read config L.body).1.InBody := Phase.InBody.read trivial h.body
  have hl : Phase.seeking.read config L.lines =
      ((((Phase.body.read config L.body).1.read config (L.closing :: L.after)).1),
        (Phase.body.read config L.body).2 ++
          ((Phase.body.read config L.body).1.read config (L.closing :: L.after)).2) := by
    have hlines : L.lines = L.before ++ (L.header ++ (L.body ++ L.closing :: L.after)) := by
      simp [lines, moduleLines]
    rw [hlines, Phase.read_append, Phase.read_seeking h.before, Phase.read_append, header,
      Phase.read_header h.heads h.opening h.entry, Phase.read_append]
    rfl
  rw [hl, Phase.read_cons]
  by_cases hp : (Phase.body.read config L.body).1 = .body
  · rw [hp, Phase.advance_body_closing h.closing, Phase.read_closed]
    simp
  · obtain ⟨f, hf⟩ := hb.advance_closing hp h.closing config L.closing.2
    rw [hf, Phase.read_failed]
    simp [hp]

theorem items_eq {file : SourceFile} (h : L.Fits config) (hl : file.coded = L.lines) :
    file.items config = (Phase.body.read config L.body).2 := by
  rw [SourceFile.items, hl, h.read_lines.2]

theorem closes_iff {file : SourceFile} (h : L.Fits config) (hl : file.coded = L.lines) :
    file.Closes config ↔ (Phase.body.read config L.body).1 = .body := by
  rw [SourceFile.Closes, hl, h.read_lines.1]

end Layout.Fits

/-- A list with a member of a kind is cut at the first one of them. -/
theorem exists_first {α : Type} {p : α → Prop} [DecidablePred p] {l : List α}
    (h : ∃ a ∈ l, p a) : ∃ as b bs, l = as ++ b :: bs ∧ (∀ a ∈ as, ¬p a) ∧ p b := by
  obtain ⟨b, hb⟩ : ∃ b, l.find? (fun a => decide (p a)) = some b := by
    obtain ⟨a, ha, hp⟩ := h
    exact Option.isSome_iff_exists.mp (List.find?_isSome.mpr ⟨a, ha, decide_eq_true hp⟩)
  obtain ⟨hpb, as, bs, rfl, has⟩ := List.find?_eq_some_iff_append.mp hb
  exact ⟨as, b, bs, rfl, fun a ha => by simpa using has a ha, of_decide_eq_true hpb⟩

/-- **The layout of a closed module.** -/
theorem SourceFile.exists_layout {config : Config} {file : SourceFile} (h : file.Closes config) :
    ∃ L : Layout, L.Fits config ∧ file.coded = L.lines := by
  have hheads : ∃ l ∈ file.coded, Dialect.Heads config l.1 := by
    by_contra hno
    rw [SourceFile.Closes, Phase.read_seeking fun l hl hh => hno ⟨l, hl, hh⟩] at h
    simp at h
  obtain ⟨before, head, rest, hl, hbefore, hhead⟩ := exists_first hheads
  -- the header may end on the line that it begins on
  have hsemi : ∃ l ∈ head :: rest, ';' ∈ l.1 := by
    by_contra hno
    have hheader : Scan.headerPhase head.1 = .header := if_neg fun hs => hno ⟨head, by simp, hs⟩
    have hm : Dialect.moduleName? head.1 = some config.moduleName := hhead
    rw [SourceFile.Closes, hl, Phase.read_append, Phase.read_seeking hbefore, Phase.read_cons,
      Phase.advance, if_pos hm, hheader,
      Phase.read_opening fun l hl hs => hno ⟨l, List.mem_cons_of_mem _ hl, hs⟩] at h
    simp at h
  obtain ⟨opening, entry, rest', hl', hopening, hentry⟩ := exists_first hsemi
  have hheader : ∀ l ∈ (opening ++ [entry]).head?, Dialect.Heads config l.1 := by
    intro l hm
    have hfirst : (opening ++ entry :: rest').head? = some l := by
      cases opening <;> simpa using hm
    rw [← hl'] at hfirst
    obtain rfl : head = l := Option.some.inj hfirst
    exact hhead
  have hcut : file.coded = before ++ (opening ++ [entry] ++ rest') := by
    rw [hl, hl']
    simp
  have hread : (Phase.body.read config rest').1 = .closed := by
    rw [SourceFile.Closes, hcut, Phase.read_append, Phase.read_seeking hbefore, Phase.read_append,
      Phase.read_header hheader hopening hentry] at h
    exact h
  have hclosing : ∃ l ∈ rest', Dialect.Closes l.1 := by
    by_contra hno
    have hb : (Phase.body.read config rest').1.InBody :=
      Phase.InBody.read trivial fun l hl hc => hno ⟨l, hl, hc⟩
    rw [hread] at hb
    exact hb
  obtain ⟨body, closing, after, rfl, hbody, hclosing⟩ := exists_first hclosing
  refine ⟨⟨before, opening, entry, body, closing, after⟩,
    ⟨hbefore, hheader, hopening, hentry, hbody, hclosing⟩, ?_⟩
  rw [hcut]
  simp [Layout.lines, Layout.moduleLines, Layout.header]

/-! ### Layouts at no place -/

def placeless (cs : List Text) : List (Text × Line) := cs.map (·, .none)

theorem forall_mem_placeless {cs : List Text} {p : Text × Line → Prop} :
    (∀ l ∈ placeless cs, p l) ↔ ∀ c ∈ cs, p (c, .none) := List.forall_mem_map

namespace Layout

variable {config : Config} {L : Layout}

def ofCodes (before opening : List Text) (entry : Text) (body : List Text) (closing : Text)
    (after : List Text) : Layout where
  before := placeless before
  opening := placeless opening
  entry := (entry, .none)
  body := placeless body
  closing := (closing, .none)
  after := placeless after

theorem lines_ofCodes (before opening : List Text) (entry : Text) (body : List Text)
    (closing : Text) (after : List Text) :
    (ofCodes before opening entry body closing after).lines =
      placeless (before ++ (opening ++ [entry] ++ body ++ [closing]) ++ after) := by
  simp [lines, moduleLines, header, ofCodes, placeless]

theorem map_fst_moduleLines (L : Layout) : L.moduleLines.map Prod.fst =
    L.opening.map Prod.fst ++ [L.entry.1] ++ L.body.map Prod.fst ++ [L.closing.1] := by
  simp [moduleLines, header]

/-- The body of a layout fits into any header, before any lines, and behind lines that head no such
module. -/
theorem Fits.ofCodes (h : L.Fits config) {before opening : List Text} {entry : Text}
    (hb : ∀ c ∈ before, ¬Dialect.Heads config c)
    (hh : ∀ c ∈ (opening ++ [entry]).head?, Dialect.Heads config c)
    (ho : ∀ c ∈ opening, ';' ∉ c) (he : ';' ∈ entry) (after : List Text) :
    (Layout.ofCodes before opening entry (L.body.map Prod.fst) L.closing.1 after).Fits config where
  before := forall_mem_placeless.mpr hb
  heads := by cases opening <;> simpa [Layout.ofCodes, header, placeless] using hh
  opening := forall_mem_placeless.mpr ho
  entry := he
  body := forall_mem_placeless.mpr (List.forall_mem_map.mpr h.body)
  closing := h.closing

end Layout

end NetFlat
