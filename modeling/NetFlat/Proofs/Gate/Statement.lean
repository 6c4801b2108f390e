import NetFlat.Proofs.Dialect.Renderings
import NetFlat.Proofs.Gate.Connections
import NetFlat.Proofs.Naming.References
import NetFlat.Proofs.Scan.Blocks

/-!
# Gate statements

A gate statement is a row of words, which may be laid out on lines in many ways.  Whatever lines it is
laid out on, one instance is read from them, and the instance has the connections of the statement.

* `GateStatement`, `GateStatement.Rendering`: a statement, and the lines that render it;
* `Dialect.LaysOut.exists_read`: the lines that lay the words out are read as one instance;
* `readAll_listWords`: the connections of that instance;
* `GateStatement.exists_read`: both together.
-/

namespace NetFlat

open Text (Spread Solid)
open Dialect (isSpace LineOf LaysOut Finishing Plain NoWord)

/-- A pin, and what is connected to it. -/
structure PinConnection where
  pin : Text
  reference : Text
  pin_ne_nil : pin ≠ []
  isPinChar_of_mem : ∀ c ∈ pin, Connection.isPinChar c = true
  isReference : IsReference reference

namespace PinConnection

def words (c : PinConnection) : List Text := ['.' :: c.pin, ['('], c.reference, [')']]

/-- The connection as it is read, at no place. -/
def connection (c : PinConnection) : Connection := ⟨c.pin, c.reference, .none⟩

end PinConnection

/-- The words of connections, with commas between them. -/
def listWords : List PinConnection → List Text
  | [] => []
  | [c] => c.words
  | c :: d :: cs => c.words ++ [','] :: listWords (d :: cs)

/-- A statement that makes an instance of a cell of the catalog. -/
structure GateStatement where
  keyword : Text
  name : Text
  connections : List PinConnection
  isSome_find? : (Cell.find? keyword).isSome
  isIdentifier_name : isIdentifier name = true

namespace GateStatement

/-- The words of the statement behind its head, with white space inside its end. -/
def body (g : GateStatement) (s : Text) : List Text :=
  ['('] :: (listWords g.connections ++ [')' :: (s ++ [';'])])

/-- The lines render the statement: its head, keyword and name, is on one line, and so is its end,
the closing bracket and the semicolon; all else is laid out as one likes. -/
def Rendering (g : GateStatement) (lines : List Text) : Prop :=
  ∃ s s', s ≠ [] ∧ Dialect.Spaces s ∧ Dialect.Spaces s' ∧
    LaysOut ((g.keyword ++ (s ++ g.name)) :: g.body s') lines

/-- No reference would close the module if it stood at the start of a line. -/
def Unclosing (g : GateStatement) : Prop :=
  ∀ c ∈ g.connections, Dialect.firstWord c.reference ≠ "endmodule".toList

instance (g : GateStatement) : Decidable g.Unclosing := List.decidableBAll _ g.connections

end GateStatement

/-! ### Words up to the end of a statement -/

section Words

variable {ws : List Text}

theorem finishing_mark {c : Char} (hc : c = '(' ∨ c = ')' ∨ c = ',') (h : Finishing ws) :
    Finishing ([c] :: ws) := by
  have hfacts : Text.isBlank c = false ∧ isWordChar c = false ∧ '/' ≠ c ∧ c ≠ ';' := by
    rcases hc with rfl | rfl | rfl <;> decide
  obtain ⟨hblank, hword, hslash, hsemi⟩ := hfacts
  exact .cons ⟨⟨by simp, Text.trimmed_of_ends rfl rfl hblank hblank⟩, by simpa using hslash⟩
    (by simpa using hsemi) (.inl (Dialect.noWord_cons hword)) h

namespace PinConnection

variable {c : PinConnection}

theorem isWord_pin (c : PinConnection) : c.pin.IsWord := by
  intro d hd
  have h := c.isPinChar_of_mem d hd
  simp only [Connection.isPinChar, Bool.or_eq_true] at h
  simp only [isWordChar, Bool.or_eq_true]
  exact .inl h

theorem finishing_words (hc : Dialect.firstWord c.reference ≠ "endmodule".toList)
    (h : Finishing ws) : Finishing (c.words ++ ws) := by
  have hpin := c.isWord_pin
  have hlast : ('.' :: c.pin).getLast? = c.pin.getLast? := by
    rw [← List.singleton_append, List.getLast?_append_of_ne_nil _ c.pin_ne_nil]
  have hplain : Plain ('.' :: c.pin) := by
    refine ⟨⟨by simp, ⟨?_, ?_⟩⟩, by simp [hpin.not_mem (c := '/') (by decide)]⟩
    · simp
      decide
    · rw [hlast]
      exact (Text.trimmed_of_isWord hpin).last
  have hsemi : ('.' :: c.pin).getLast? ≠ some ';' := by
    rw [hlast]
    exact Text.getLast?_ne (hpin.not_mem (by decide))
  have href : c.reference.getLast? ≠ some ';' :=
    Text.getLast?_ne (c.isReference.not_mem (by decide))
  have hclosing : ∀ v ∈ ([')'] :: ws).head?, NoWord v := by
    intro v hv
    obtain rfl : [')'] = v := Option.some.inj hv
    exact Dialect.noWord_cons (by decide)
  exact .cons hplain hsemi (.inl (Dialect.noWord_cons (by decide))) <| finishing_mark (.inl rfl) <|
    .cons ⟨c.isReference.solid, c.isReference.not_mem (by decide)⟩ href (.inr ⟨hc, hclosing⟩) <|
    finishing_mark (.inr (.inl rfl)) h

end PinConnection

theorem finishing_listWords {cs : List PinConnection}
    (hcs : ∀ c ∈ cs, Dialect.firstWord c.reference ≠ "endmodule".toList) (h : Finishing ws) :
    Finishing (listWords cs ++ ws) := by
  induction cs using listWords.induct with
  | case1 => exact h
  | case2 c => exact PinConnection.finishing_words (hcs c (by simp)) h
  | case3 c d cs ih =>
    rw [listWords, List.append_assoc]
    exact PinConnection.finishing_words (hcs c (by simp)) <|
      finishing_mark (.inr (.inr rfl)) (ih fun e he => hcs e (List.mem_cons_of_mem _ he))

namespace GateStatement

variable {g : GateStatement} {s s' : Text}

theorem getLast?_head (g : GateStatement) (s : Text) :
    (g.keyword ++ (s ++ g.name)).getLast? = g.name.getLast? := by
  have hname := ne_nil_of_isIdentifier g.isIdentifier_name
  rw [List.getLast?_append_of_ne_nil _ (by simp [hname]), List.getLast?_append_of_ne_nil _ hname]

theorem keyword_spec (g : GateStatement) :
    g.keyword ≠ [] ∧ g.keyword.IsWord ∧ g.keyword ∉ Dialect.reserved := by
  obtain ⟨cell, hcell⟩ := Option.isSome_iff_exists.mp g.isSome_find?
  obtain ⟨hword, hstart, hres⟩ := Cell.keyword_of_find? hcell
  refine ⟨?_, hword, hres⟩
  intro e
  simp [e] at hstart

theorem plain_head (hs : Dialect.Spaces s) : Plain (g.keyword ++ (s ++ g.name)) := by
  obtain ⟨hne, hkey, -⟩ := g.keyword_spec
  have hname := isWord_of_isIdentifier g.isIdentifier_name
  refine ⟨⟨by simp [hne], ⟨?_, ?_⟩⟩, ?_⟩
  · rw [List.head?_append_of_ne_nil _ hne]
    exact (Text.trimmed_of_isWord hkey).head
  · rw [g.getLast?_head]
    exact (Text.trimmed_of_isWord hname).last
  · exact List.not_mem_append (hkey.not_mem (by decide)) (List.not_mem_append
      (fun hm => absurd (hs _ hm) (by decide)) (hname.not_mem (by decide)))

theorem firstWord_head (hs : Dialect.Spaces s) (hne : s ≠ []) :
    Dialect.firstWord (g.keyword ++ (s ++ g.name)) = g.keyword := by
  refine Dialect.firstWord_append g.keyword_spec.2.1 fun c hc => ?_
  rw [List.head?_append_of_ne_nil _ hne] at hc
  exact isWordChar_of_isBlank (Dialect.isBlank_of_isSpace (hs c (List.mem_of_head? hc)))

theorem finishing (hg : g.Unclosing) (hs : Dialect.Spaces s) (hne : s ≠ [])
    (hs' : Dialect.Spaces s') : Finishing ((g.keyword ++ (s ++ g.name)) :: g.body s') := by
  have hname := isWord_of_isIdentifier g.isIdentifier_name
  have hsemi : (g.keyword ++ (s ++ g.name)).getLast? ≠ some ';' := by
    rw [g.getLast?_head]
    exact Text.getLast?_ne (hname.not_mem (by decide))
  have hword : Dialect.firstWord (g.keyword ++ (s ++ g.name)) ≠ "endmodule".toList := by
    rw [firstWord_head hs hne]
    exact fun e => g.keyword_spec.2.2 (e ▸ by decide)
  have hopen : ∀ v ∈ (g.body s').head?, NoWord v := by
    intro v hv
    obtain rfl : ['('] = v := Option.some.inj hv
    exact Dialect.noWord_cons (by decide)
  exact .cons (plain_head hs) hsemi (.inr ⟨hword, hopen⟩) <|
    finishing_mark (.inl rfl) (finishing_listWords hg (.last hs'))

end GateStatement

end Words

/-! ### The instance -/

namespace Dialect

variable {config : Config} {cell : Cell} {k n s l : Text} {ws ls : List Text}

theorem LineOf.ofBody_head (line : Line) (hk : Cell.find? k = some cell)
    (hn : isIdentifier n = true) (hs : Spaces s) (hne : s ≠ [])
    (hplain : ∀ w ∈ (k ++ (s ++ n)) :: ws, Plain w) (hws : ∀ w ∈ ws.head?, w = ['('])
    (h : LineOf ((k ++ (s ++ n)) :: ws) l) :
    Phase.ofBody (code l) line = Phase.ofGate (code l) ⟨k, n, line, [(code l, line)]⟩ := by
  obtain ⟨hkey, hstart, hres⟩ := Cell.keyword_of_find? hk
  obtain ⟨t, ht, hrest⟩ :=
    (h.spread_code hplain).exists_head (fun _ => isBlank_of_isSpace) (trimmed_code l)
  have hopen : ∀ c ∈ (Text.trimStart t).head?, c = '(' := by
    intro c hc
    obtain ⟨w, hw, hcw⟩ := hrest.head_trimStart (fun _ => isBlank_of_isSpace)
      (fun w hw => (hplain w (List.mem_cons_of_mem _ hw)).toSolid) c hc
    rw [hws w hw] at hcw
    exact (Option.some.inj hcw).symm
  have hcode : code l = k ++ (s ++ (n ++ t)) := by simp [ht]
  rw [hcode]
  exact Phase.ofBody_gate line hkey hstart hres (fun c hc => isBlank_of_isSpace (hs c hc)) hne
    (ne_nil_of_isIdentifier hn) (isWord_of_isIdentifier hn) hopen

theorem LaysOut.read_gate (h : LaysOut ws ls) (hf : Finishing ws) (g : OpenGate) :
    (Phase.gate g).read config (codes ls) =
      (.body, [.gate { g with lines := g.lines ++ codes ls }]) := by
  obtain ⟨ms, m, rfl, hfirst, hms, hm⟩ := h.exists_last hf
  have hcodes : codes (ms ++ [m]) = codes ms ++ [(code m, .none)] := codes_append ms [m]
  have hfirst' : ∀ p ∈ codes ms ++ [(code m, Line.none)],
      firstWord p.1 ≠ "endmodule".toList := by
    rw [← hcodes]
    exact List.forall_mem_map.mpr hfirst
  rw [hcodes]
  exact Phase.read_gate hfirst' (List.forall_mem_map.mpr hms) hm

/-- **One instance.**  Lines that lay out the words of a statement are read as one instance with the
keyword and the name at its head; the lines of the instance have all the words. -/
theorem LaysOut.exists_read (config : Config) (hk : Cell.find? k = some cell) (hn : isIdentifier n = true)
    (hs : Spaces s) (hne : s ≠ []) (hws : ws.head? = some ['('])
    (hf : Finishing ((k ++ (s ++ n)) :: ws)) (h : LaysOut ((k ++ (s ++ n)) :: ws) ls) :
    ∃ cs : List Text,
      Phase.body.read config (codes ls) = (.body, [.gate ⟨k, n, .none, cs.map (·, .none)⟩]) ∧
      Spread Text.isAsciiBlank ((k ++ (s ++ n)) :: ws) (Text.ofLines cs) := by
  generalize hwords : (k ++ (s ++ n)) :: ws = words at h hf ⊢
  induction h with
  | @last words l _ hl =>
    subst hwords
    refine ⟨[code l], ?_, (LaysOut.last (by simp) hl).spread_codes hf.plain⟩
    have hhead := hl.ofBody_head .none hk hn hs hne hf.plain (by simp [hws])
    show ((Phase.ofBody (code l) .none).1, (Phase.ofBody (code l) .none).2.toList ++ []) = _
    rw [hhead, Phase.ofGate, if_pos (hl.endsStatement hf)]
    rfl
  | @line us vs l ls hl rest ih =>
    have hread : Phase.body.read config (codes (l :: ls)) =
        let r := Phase.ofBody (code l) .none
        ((r.1.read config (codes ls)).1, r.2.toList ++ (r.1.read config (codes ls)).2) := rfl
    cases us with
    | nil =>
      -- a line without a word
      have hcode : code l = [] :=
        (hl.spread_code (by simp)).eq_nil_of_trimmed (fun _ => isBlank_of_isSpace) (trimmed_code l)
      obtain ⟨cs, hcs, hspread⟩ := ih hwords hf
      refine ⟨cs, ?_, hspread⟩
      rw [hread, hcode, Phase.ofBody, if_pos (.inl rfl)]
      dsimp only
      rw [hcs]
      rfl
    | cons w us =>
      -- the line with the head
      rw [List.cons_append] at hwords
      obtain ⟨rfl, rfl⟩ := List.cons.inj hwords
      have hplain : ∀ w ∈ (k ++ (s ++ n)) :: us, Plain w :=
        fun w hw => hf.plain w (List.mem_append_left vs hw)
      have hus : ∀ w ∈ us.head?, w = ['('] := by
        intro w hw
        rw [List.head?_append, Option.mem_def.mp hw] at hws
        exact Option.some.inj hws
      have hgo := hl.endsStatement_eq_false hf rest.ne_nil
      have hopen := hl.ofBody_head .none hk hn hs hne hplain hus
      rw [Phase.ofGate, if_neg (by simp [hgo])] at hopen
      refine ⟨(l :: ls).map code, ?_, (LaysOut.line hl rest).spread_codes hf.plain⟩
      rw [hread, hopen]
      dsimp only
      rw [rest.read_gate (hf.of_append rest.ne_nil)]
      simp [codes]

end Dialect

/-! ### Its connections -/

section Connections

variable {p : Char → Bool} {ws : List Text} {t w : Text}

open Connection (readAll placeless)

theorem PinConnection.exists_readAll (c : PinConnection)
    (h : Spread Text.isAsciiBlank (c.words ++ ws) t) :
    ∃ u, Spread Text.isAsciiBlank ws u ∧
      readAll (placeless t) = (readAll (placeless u)).map (c.connection :: ·) := by
  obtain ⟨s₁, t₁, hs₁, rfl, h₁⟩ := h.exists_cons
  obtain ⟨s₂, t₂, hs₂, rfl, h₂⟩ := h₁.exists_cons
  obtain ⟨s₃, t₃, hs₃, rfl, h₃⟩ := h₂.exists_cons
  obtain ⟨s₄, u, hs₄, rfl, h₄⟩ := h₃.exists_cons
  refine ⟨u, h₄, ?_⟩
  have hblanks {s : Text} (hs : ∀ c ∈ s, Text.isAsciiBlank c = true) : s.Blanks :=
    fun c hc => Text.isBlank_of_isAsciiBlank (hs c hc)
  have hinert : ∀ d ∈ s₃ ++ c.reference ++ s₄, isInert d = true :=
    List.forall_mem_append.mpr ⟨List.forall_mem_append.mpr
      ⟨fun d hd => isInert_of_isBlank (hblanks hs₃ d hd), c.isReference.isInert⟩,
      fun d hd => isInert_of_isBlank (hblanks hs₄ d hd)⟩
  have hbalanced : Connection.Balanced (s₃ ++ c.reference ++ s₄) := by
    refine Connection.balanced_of_forall fun d hd => ⟨?_, ?_⟩
    · rintro rfl
      exact absurd (hinert _ hd) (by decide)
    · rintro rfl
      exact absurd (hinert _ hd) (by decide)
  have hdot : '.' ∉ s₁ := fun hm => absurd (hs₁ _ hm) (by decide)
  have hread := Connection.readAll_placeless_connection (t := u) c.pin_ne_nil c.isPinChar_of_mem
    hs₂ hbalanced
  rw [Text.trim_blanks (hblanks hs₃) c.isReference.solid.trimmed (hblanks hs₄)] at hread
  show _ = (readAll (placeless u)).map (⟨c.pin, c.reference, .none⟩ :: ·)
  rw [Connection.readAll_placeless_skip _ _ hdot, ← hread]
  simp

/-- **The connections are read.** -/
theorem readAll_listWords {cs : List PinConnection} (hw : '.' ∉ w)
    (h : Spread Text.isAsciiBlank (listWords cs ++ [w]) t) :
    readAll (placeless t) = .ok (cs.map PinConnection.connection) := by
  have hend {u : Text} (h : Spread Text.isAsciiBlank [w] u) : readAll (placeless u) = .ok [] := by
    have hdot : '.' ∉ u := h.not_mem (by simpa using hw) (by decide)
    have := Connection.readAll_placeless_skip u [] hdot
    rwa [List.append_nil, show placeless [] = [] from rfl, Connection.readAll_nil] at this
  induction cs using listWords.induct generalizing t with
  | case1 => exact hend h
  | case2 c =>
    obtain ⟨u, hu, hread⟩ := c.exists_readAll h
    rw [hread, hend hu]
    rfl
  | case3 c d cs ih =>
    rw [listWords, List.append_assoc] at h
    obtain ⟨u, hu, hread⟩ := c.exists_readAll h
    obtain ⟨s, v, hs, rfl, hv⟩ := hu.exists_cons
    have hdot : '.' ∉ s ++ [','] := by
      refine List.not_mem_append (fun hm => absurd (hs _ hm) (by decide)) (by decide)
    rw [hread, ← List.append_assoc, Connection.readAll_placeless_skip _ _ hdot, ih hv]
    rfl

end Connections

namespace GateStatement

/-- **What is read from a statement**, however it is laid out: one instance with its connections. -/
theorem exists_read (config : Config) {g : GateStatement} (hg : g.Unclosing) {lines : List Text}
    (h : g.Rendering lines) : ∃ cs : List Text,
      Phase.body.read config (codes lines) =
        (.body, [.gate ⟨g.keyword, g.name, .none, cs.map (·, .none)⟩]) ∧
      Connection.read (cs.map (·, .none)) = .ok (g.connections.map PinConnection.connection) := by
  obtain ⟨s, s', hne, hs, hs', hlines⟩ := h
  obtain ⟨cell, hcell⟩ := Option.isSome_iff_exists.mp g.isSome_find?
  obtain ⟨cs, hread, hspread⟩ := hlines.exists_read config hcell g.isIdentifier_name hs hne
    rfl (finishing hg hs hne hs')
  refine ⟨cs, hread, ?_⟩
  obtain ⟨s₁, t, hs₁, htext, h₁⟩ := hspread.exists_cons
  obtain ⟨s₂, u, hs₂, rfl, h₂⟩ := h₁.exists_cons
  have hkey := (Cell.keyword_of_find? hcell).1
  have hname := isWord_of_isIdentifier g.isIdentifier_name
  have hopen : '(' ∉ s₁ ++ (g.keyword ++ (s ++ g.name)) ++ s₂ := by
    have hblank {s : Text} (hs : ∀ c ∈ s, Text.isAsciiBlank c = true) : '(' ∉ s :=
      fun hm => absurd (hs _ hm) (by decide)
    exact List.not_mem_append (List.not_mem_append (hblank hs₁) (List.not_mem_append
      (hkey.not_mem (by decide)) (List.not_mem_append (fun hm => absurd (hs _ hm) (by decide))
        (hname.not_mem (by decide))))) (hblank hs₂)
  rw [Connection.read_placeless (t := u) (by rw [htext]; simp) hopen]
  exact readAll_listWords (w := ')' :: (s' ++ [';']))
    (by simpa using fun hm => absurd (hs' _ hm) (by decide)) h₂

end GateStatement

end NetFlat
