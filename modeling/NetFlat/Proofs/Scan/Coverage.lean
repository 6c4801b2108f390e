import NetFlat.Proofs.Scan.Layout

/-!
# Items tile the body

The lines of a module body fall into blocks, one for each item that the reader makes of them, and
single lines between the blocks that are blank or an attribute as a whole.

* `Item.MadeOf`: the block of lines that an item is made of;
* `Phase.Pending`: the lines that the reader has taken in and made no item of yet;
* `Phase.Pending.advance`: one line;
* `Phase.Pending.tiles`: a row of lines.
-/

namespace NetFlat

def Dialect.Silent (code : Text) : Prop := code = [] ∨ isAttribute code = true

/-- The declaration that lines make up: the first one behind its keyword, and the others. -/
def OpenDeclaration.ofLines (kind : DeclarationKind) (first : Text × Line)
    (rest : List (Text × Line)) : OpenDeclaration :=
  rest.foldl (fun d l => d.extend l.1 l.2)
    ⟨kind, first.1.drop (Phase.declarationWord kind).length, first.2⟩

/-- The instance that lines make up. -/
def OpenGate.ofLines (keyword name : Text) (first : Text × Line) (rest : List (Text × Line)) :
    OpenGate :=
  rest.foldl (fun g l => g.extend l.1 l.2) ⟨keyword, name, first.2, [first]⟩

/-- The lines that an item is made of.  A declaration begins with its keyword and ends with the
first line that has a semicolon; an instance begins with its keyword and name and ends with the
first line that ends a statement; any other item is a single line. -/
inductive Item.MadeOf : Item → List (Text × Line) → Prop
  | declaration {kind : DeclarationKind} {first last : Text × Line}
      {rest init : List (Text × Line)} (lines : first :: rest = init ++ [last])
      (keyword : Dialect.firstWord first.1 = Phase.declarationWord kind)
      (goes_on : ∀ l ∈ init, ';' ∉ l.1) (ends : ';' ∈ last.1) :
      MadeOf (.declaration (.ofLines kind first rest)) (first :: rest)
  | gate {keyword name : Text} {first last : Text × Line} {rest init : List (Text × Line)}
      (lines : first :: rest = init ++ [last])
      (header : Dialect.gateHeader? first.1 = some (keyword, name))
      (goes_on : ∀ l ∈ init, Dialect.endsStatement l.1 = false)
      (ends : Dialect.endsStatement last.1 = true) :
      MadeOf (.gate (.ofLines keyword name first rest)) (first :: rest)
  | other {code : Text} {line : Line} (loud : ¬Dialect.Silent code) :
      MadeOf (.other line) [(code, line)]

/-- The items are made of the lines, in order; what is left are single lines that are blank or an
attribute. -/
inductive Tiles : List (Text × Line) → List Item → Prop
  | nil : Tiles [] []
  | silent {l : Text × Line} {ls : List (Text × Line)} {is : List Item}
      (h : Dialect.Silent l.1) (rest : Tiles ls is) : Tiles (l :: ls) is
  | item {i : Item} {block ls : List (Text × Line)} {is : List Item} (h : i.MadeOf block)
      (rest : Tiles ls is) : Tiles (block ++ ls) (i :: is)

namespace Phase

variable {config : Config}

/-- The lines of the statement that is open in a phase of the body. -/
inductive Pending : Phase → List (Text × Line) → Prop
  | body : Pending .body []
  | declaration {kind : DeclarationKind} {first : Text × Line} {rest : List (Text × Line)}
      (keyword : Dialect.firstWord first.1 = declarationWord kind)
      (goes_on : ∀ l ∈ first :: rest, ';' ∉ l.1) :
      Pending (.declaration (.ofLines kind first rest)) (first :: rest)
  | gate {keyword name : Text} {first : Text × Line} {rest : List (Text × Line)}
      (header : Dialect.gateHeader? first.1 = some (keyword, name))
      (goes_on : ∀ l ∈ first :: rest, Dialect.endsStatement l.1 = false) :
      Pending (.gate (.ofLines keyword name first rest)) (first :: rest)

/-- What a line leads to: the lines so far are pending, or an item is made of them. -/
def Leads (r : Phase × Option Item) (block : List (Text × Line)) : Prop :=
  (∃ q, r = (q, none) ∧ q.Pending block) ∨ ∃ i, r = (.body, some i) ∧ i.MadeOf block

theorem leads_ofDeclaration {kind : DeclarationKind} {first last : Text × Line}
    {rest init : List (Text × Line)} (hl : first :: rest = init ++ [last])
    (hk : Dialect.firstWord first.1 = declarationWord kind) (hs : ∀ l ∈ init, ';' ∉ l.1) :
    Leads (ofDeclaration last.1 (.ofLines kind first rest)) (first :: rest) := by
  unfold ofDeclaration
  split
  · next he => exact .inr ⟨_, rfl, .declaration hl hk hs he⟩
  · next he =>
    refine .inl ⟨_, rfl, .declaration hk ?_⟩
    rw [hl]
    exact List.forall_mem_append.mpr ⟨hs, List.forall_mem_singleton.mpr he⟩

theorem leads_ofGate {keyword name : Text} {first last : Text × Line}
    {rest init : List (Text × Line)} (hl : first :: rest = init ++ [last])
    (hh : Dialect.gateHeader? first.1 = some (keyword, name))
    (hs : ∀ l ∈ init, Dialect.endsStatement l.1 = false) :
    Leads (ofGate last.1 (.ofLines keyword name first rest)) (first :: rest) := by
  unfold ofGate
  split
  · next he => exact .inr ⟨_, rfl, .gate hl hh hs he⟩
  · next he =>
    refine .inl ⟨_, rfl, .gate hh ?_⟩
    rw [hl]
    exact List.forall_mem_append.mpr ⟨hs, List.forall_mem_singleton.mpr (by simpa using he)⟩

/-- A line of the body that is no silent one opens a statement, or is an item of its own. -/
theorem leads_ofBody (l : Text × Line) (hs : ¬Dialect.Silent l.1) (hc : ¬Dialect.Closes l.1) :
    Leads (ofBody l.1 l.2) [l] := by
  have hw : ¬Dialect.firstWord l.1 = "endmodule".toList := hc
  have hl : [l] = [] ++ [l] := rfl
  have hd (kind : DeclarationKind) (hk : Dialect.firstWord l.1 = declarationWord kind) :
      Leads (ofDeclaration l.1 ⟨kind, l.1.drop (Dialect.firstWord l.1).length, l.2⟩) [l] := by
    rw [hk]
    exact leads_ofDeclaration hl hk (by simp)
  have hsilent : ¬(l.1 = [] ∨ Dialect.isAttribute l.1 = true) := hs
  simp only [ofBody, if_neg hsilent, if_neg hw]
  split
  · next h => exact hd (.port .input) h
  split
  · next h => exact hd (.port .output) h
  split
  · next h => exact hd .wire h
  split
  · next keyword name h => exact leads_ofGate hl h (by simp)
  · exact .inr ⟨_, rfl, .other hs⟩

/-- **One line** that does not close the module: it is silent, or it adds to what is pending, or an
item is made of what was pending and it. -/
theorem Pending.advance {p : Phase} {block : List (Text × Line)} (hp : p.Pending block)
    (config : Config) (l : Text × Line) (hc : ¬Dialect.Closes l.1) :
    (p.advance config l.1 l.2 = (.body, none) ∧ block = [] ∧ Dialect.Silent l.1) ∨
      Leads (p.advance config l.1 l.2) (block ++ [l]) := by
  have hw : ¬Dialect.firstWord l.1 = "endmodule".toList := hc
  cases hp with
  | body =>
    by_cases hs : Dialect.Silent l.1
    · exact .inl ⟨if_pos hs, rfl, hs⟩
    · exact .inr (leads_ofBody l hs hc)
  | @declaration kind first rest hk hs =>
    right
    rw [Phase.advance, if_neg hw]
    have hl : first :: (rest ++ [l]) = first :: rest ++ [l] := rfl
    have := leads_ofDeclaration hl hk hs
    rwa [OpenDeclaration.ofLines, List.foldl_append] at this
  | @gate keyword name first rest hh hs =>
    right
    rw [Phase.advance, if_neg hw]
    have hl : first :: (rest ++ [l]) = first :: rest ++ [l] := rfl
    have := leads_ofGate hl hh hs
    rwa [OpenGate.ofLines, List.foldl_append] at this

/-- **A row of lines** that ends in the body, none of which closes the module. -/
theorem Pending.tiles {p : Phase} {block ls : List (Text × Line)} (hp : p.Pending block)
    (hc : ∀ l ∈ ls, ¬Dialect.Closes l.1) (he : (p.read config ls).1 = .body) :
    Tiles (block ++ ls) (p.read config ls).2 := by
  -- the block grows until its statement ends, and it is empty again behind it
  induction ls generalizing p block with
  | nil =>
    obtain rfl : p = .body := he
    cases hp
    exact .nil
  | cons l ls ih =>
    have hls : ∀ m ∈ ls, ¬Dialect.Closes m.1 := fun m hm => hc m (by simp [hm])
    rw [read_cons] at he ⊢
    rcases hp.advance config l (hc l (by simp)) with
      ⟨ha, rfl, hs⟩ | ⟨q, ha, hq⟩ | ⟨i, ha, hi⟩
    · rw [ha] at he ⊢
      exact .silent hs (ih .body hls he)
    · rw [ha] at he ⊢
      have := ih hq hls he
      rwa [List.append_assoc] at this
    · rw [ha] at he ⊢
      have := Tiles.item hi (ih .body hls he)
      rwa [List.nil_append, List.append_assoc] at this

end Phase

/-- **The items of a body tile it.** -/
theorem Layout.Fits.tiles {config : Config} {file : SourceFile} {L : Layout} (h : L.Fits config)
    (hl : file.coded = L.lines) (hcl : file.Closes config) : Tiles L.body (file.items config) := by
  rw [h.items_eq hl]
  exact Phase.Pending.body.tiles h.body ((h.closes_iff hl).mp hcl)

end NetFlat
