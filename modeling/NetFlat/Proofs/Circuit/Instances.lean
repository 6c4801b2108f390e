import NetFlat.Proofs.Circuit.Basic
import NetFlat.Proofs.Dialect.Lines
import NetFlat.Proofs.Gate.Connections
import NetFlat.Proofs.Scan.Blocks
import NetFlat.Proofs.Text.Lines

/-!
# Instances in a netlist

The lines of a gate in the netlist of a circuit are one instance, and it is placed as the gate on flat
names.

* `read_gateTexts`: the connections of the instance are those of the gate;
* `placed?_instanceOf`: the instance is placed as the gate;
* `contributes_gateLines`: that is what the lines contribute.
-/

namespace NetFlat.Circuit

open Text (IsWord)

variable {config : Config} {g : CircuitGate} {net t : Text} {pin : Char}

/-- A connection as it is written. -/
def pinText (pin : Char) (net : Text) : Text := '.' :: pin :: '(' :: (net ++ [')'])

/-! ### Connections -/

theorem readAll_pinText (hp : Connection.isPinChar pin = true) (hn : config.IsNet net) :
    Connection.readAll (Connection.placeless (pinText pin net ++ t)) =
      (Connection.readAll (Connection.placeless t)).map (⟨[pin], net, .none⟩ :: ·) := by
  have hbal : Connection.Balanced net := by
    refine Connection.balanced_of_forall fun c hc => ⟨?_, ?_⟩
    · rintro rfl
      exact hn.not_mem (by decide) hc
    · rintro rfl
      exact hn.not_mem (by decide) hc
  have htext : pinText pin net ++ t = '.' :: ([pin] ++ ([] ++ '(' :: (net ++ ')' :: t))) := by
    simp [pinText]
  rw [htext, Connection.readAll_placeless_connection (by simp) (by simpa using hp) (by simp) hbal,
    hn.trimmed.trim_eq_self]

def pinTexts (pins : List Char) (nets : List Text) : List Text :=
  List.zipWith (fun pin net => pinText pin net ++ [',']) pins nets

theorem mem_pinTexts {pins : List Char} {nets : List Text} (h : t ∈ pinTexts pins nets) :
    ∃ p ∈ pins, ∃ n ∈ nets, t = pinText p n ++ [','] := by
  rw [pinTexts, ← List.map_uncurry_zip_eq_zipWith] at h
  obtain ⟨⟨p, n⟩, hm, rfl⟩ := List.mem_map.mp h
  obtain ⟨hp, hn⟩ := List.of_mem_zip hm
  exact ⟨p, hp, n, hn, rfl⟩

theorem readAll_pinTexts {pins : List Char} {nets : List Text}
    (hp : ∀ p ∈ pins, Connection.isPinChar p = true) (hn : ∀ n ∈ nets, config.IsNet n) :
    Connection.readAll (Connection.placeless (Text.ofLines (pinTexts pins nets) ++ t)) =
      (Connection.readAll (Connection.placeless t)).map
        (List.zipWith (fun pin net => ⟨[pin], net, .none⟩) pins nets ++ ·) := by
  have hid (x : Except Failure (List Connection)) : x.map ([] ++ ·) = x := by
    cases x <;> rfl
  induction pins generalizing nets with
  | nil => exact (hid _).symm
  | cons p pins ih =>
    cases nets with
    | nil => exact (hid _).symm
    | cons n nets =>
      have hcons : Text.ofLines (pinTexts (p :: pins) (n :: nets)) ++ t =
          pinText p n ++ ([',', '\n'] ++ (Text.ofLines (pinTexts pins nets) ++ t)) := by
        simp [pinTexts, Text.ofLines]
      rw [hcons, readAll_pinText (hp p (by simp)) (hn n (by simp)),
        Connection.readAll_placeless_skip _ _ (by decide), ih (fun q hq => hp q (by simp [hq])) fun m hm => hn m (by simp [hm])]
      cases Connection.readAll (Connection.placeless t) <;> rfl

/-! ### The instance of a gate -/

def instanceName (i : Nat) : Text := '_' :: (Text.decimal i ++ ['_'])

/-- The code of the lines of an instance, its attribute apart. -/
def gateTexts (i : Nat) (g : CircuitGate) : List Text :=
  (g.cell ++ ' ' :: (instanceName i ++ [' ', '('])) ::
    (pinTexts ['A', 'B'] g.inputs ++ [pinText 'Z' g.output, [')', ';']])

def instanceOf (i : Nat) (g : CircuitGate) : OpenGate :=
  ⟨g.cell, instanceName i, .none, (gateTexts i g).map (·, Line.none)⟩

theorem isWord_instanceName (i : Nat) : (instanceName i).IsWord := by
  intro c hc
  rcases List.mem_cons.mp hc with rfl | hc
  · decide
  · rcases List.mem_append.mp hc with hc | hc
    · exact Text.isWord_decimal i c hc
    · obtain rfl := List.mem_singleton.mp hc
      decide

theorem read_gateTexts {i : Nat} (hk : g.cell.IsWord) (hin : ∀ n ∈ g.inputs, config.IsNet n)
    (hout : config.IsNet g.output) :
    Connection.read ((gateTexts i g).map (·, Line.none)) =
      .ok (List.zipWith (fun pin net => ⟨[pin], net, .none⟩) ['A', 'B'] g.inputs ++
        [⟨['Z'], g.output, .none⟩]) := by
  have hhead : Text.ofLines (gateTexts i g) = g.cell ++ ' ' :: (instanceName i ++ [' ']) ++
      '(' :: (['\n'] ++ Text.ofLines (pinTexts ['A', 'B'] g.inputs ++
        [pinText 'Z' g.output, [')', ';']])) := by
    simp [gateTexts, Text.ofLines]
  have hbracket : '(' ∉ g.cell ++ ' ' :: (instanceName i ++ [' ']) := by
    have h₁ := hk.not_mem (c := '(') (by decide)
    have h₂ := (isWord_instanceName i).not_mem (c := '(') (by decide)
    simp [h₁, h₂]
  have hlast : Text.ofLines (pinTexts ['A', 'B'] g.inputs ++ [pinText 'Z' g.output, [')', ';']]) =
      Text.ofLines (pinTexts ['A', 'B'] g.inputs) ++
        (pinText 'Z' g.output ++ (['\n', ')', ';', '\n'] ++ [])) := by
    simp [Text.ofLines]
  have hpins : ∀ p ∈ ['A', 'B'], Connection.isPinChar p = true := List.all_eq_true.mp (by decide)
  rw [Connection.read_placeless hhead hbracket, Connection.readAll_placeless_skip _ _ (by decide),
    hlast, readAll_pinTexts hpins hin, readAll_pinText (by decide) hout,
    Connection.readAll_placeless_skip _ _ (by decide)]
  show Except.map _ (Except.map _ (Connection.readAll [])) = _
  rw [Connection.readAll_nil]
  rfl

/-- **The instance is placed as the gate.** -/
theorem placed?_instanceOf {i : Nat} {cell : Cell} (hc : Cell.find? g.cell = some cell)
    (hlen : g.inputs.length = cell.kind.arity) (hin : ∀ n ∈ g.inputs, config.IsNet n)
    (hout : config.IsNet g.output) : (instanceOf i g).placed? config = g.placed? := by
  have hpins : ∀ cell ∈ Cell.catalog, cell.output = ['Z'] ∧
      (cell.kind.arity = 1 ∧ cell.inputs = [['A']] ∨
        cell.kind.arity = 2 ∧ cell.inputs = [['A'], ['B']]) := by
    decide
  have hread := read_gateTexts (i := i) (Cell.keyword_of_find? hc).1 hin hout
  have hplaced : g.placed? = some ⟨cell.kind, g.inputs.map fun n => .signal ⟨flatName n⟩,
      ⟨flatName g.output⟩⟩ := CircuitGate.placed?_eq_some_iff.mpr ⟨cell, hc, rfl⟩
  obtain ⟨hz, hshape⟩ := hpins cell (List.mem_of_find?_eq_some hc)
  obtain ⟨keyword, kind, ins, out⟩ := cell
  obtain rfl : out = ['Z'] := hz
  rw [hplaced, OpenGate.placed?_eq_some_iff hc]
  obtain ⟨k, inputs, output⟩ := g
  rcases hshape with ⟨ha, h⟩ | ⟨ha, h⟩
  · obtain rfl : ins = [['A']] := h
    obtain ⟨a, rfl⟩ := List.length_eq_one_iff.mp (hlen.trans ha)
    refine ⟨_, _, hread, rfl, Gate.resolve?_eq_some_iff.mpr ⟨?_, ?_, rfl⟩⟩
    · have hop := (hin a (by simp)).operand_eq
      simp [Gate.operand?, Gate.connection?, hop, Except.toOption]
    · simp [Gate.output?, Gate.connection?, hout.resolve_eq, Except.toOption]
  · obtain rfl : ins = [['A'], ['B']] := h
    obtain ⟨a, b, rfl⟩ := List.length_eq_two.mp (hlen.trans ha)
    refine ⟨_, _, hread, rfl, Gate.resolve?_eq_some_iff.mpr ⟨?_, ?_, rfl⟩⟩
    · have hop := (hin a (by simp)).operand_eq
      have hop' := (hin b (by simp)).operand_eq
      simp [Gate.operand?, Gate.connection?, hop, hop', Except.toOption]
    · simp [Gate.output?, Gate.connection?, hout.resolve_eq, Except.toOption]

/-! ### The lines of a gate -/

/-- The attribute of an instance. -/
def attributeText (i : Nat) : Text :=
  "(* src = \"gen.v:".toList ++ Text.decimal (i + 1) ++ ".5-".toList ++ Text.decimal (i + 1) ++
    ".20\" *)".toList

theorem isAttribute_attributeText (i : Nat) : Dialect.isAttribute (attributeText i) = true := by
  have hstart : "(*".toList.isPrefixOf (attributeText i) = true := rfl
  have hend : "*)".toList.isSuffixOf (attributeText i) = true := by
    rw [List.isSuffixOf_iff_suffix]
    have h : "*)".toList <:+ ".20\" *)".toList := by decide
    exact h.trans (List.suffix_append _ _)
  rw [Dialect.isAttribute, hstart, hend]
  rfl

theorem code_attribute (i : Nat) : Dialect.code ("  ".toList ++ attributeText i) = attributeText i := by
  have hd := (Text.isWord_decimal (i + 1)).not_mem (c := '/') (by decide)
  have h₁ : '/' ∉ "(* src = \"gen.v:".toList := by decide
  have h₂ : '/' ∉ ".5-".toList := by decide
  have h₃ : '/' ∉ ".20\" *)".toList := by decide
  have hne : ".20\" *)".toList ≠ [] := by decide
  have hlast : (attributeText i).getLast? = some ')' :=
    (List.getLast?_append_of_ne_nil _ hne).trans (by decide)
  exact Dialect.code_indented (by decide)
    (Text.trimmed_of_ends (c := '(') rfl hlast (by decide) (by decide))
    (List.not_mem_append (List.not_mem_append (List.not_mem_append (List.not_mem_append h₁ hd) h₂)
      hd) h₃)

theorem code_pin (pin : Char) {u : Text} (hp : pin ≠ '/') (hn : config.IsNet net) (hu : u = [] ∨ u = [',']) :
    Dialect.code ("    .".toList ++ pin :: '(' :: net ++ (')' :: u)) = pinText pin net ++ u := by
  have hline : "    .".toList ++ pin :: '(' :: net ++ (')' :: u) =
      "    ".toList ++ (pinText pin net ++ u) := by
    have h : "    .".toList = "    ".toList ++ ['.'] := rfl
    rw [h]
    simp [pinText]
  have hslash : '/' ∉ u := by
    rcases hu with rfl | rfl <;> simp
  have htrim : (pinText pin net ++ u).Trimmed := by
    have hnet : pinText pin net = '.' :: pin :: '(' :: net ++ [')'] := rfl
    rcases hu with rfl | rfl
    · rw [List.append_nil, hnet]
      exact Text.trimmed_of_ends (c := '.') rfl List.getLast?_concat (by decide) (by decide)
    · exact Text.trimmed_of_ends (c := '.') rfl List.getLast?_concat (by decide) (by decide)
  rw [hline]
  refine Dialect.code_indented (by decide) htrim ?_
  simp [pinText, hp.symm, hn.not_mem (d := '/') (by decide), hslash]

theorem codes_pins (pins : List Char) (nets : List Text) (hp : ∀ p ∈ pins, p ≠ '/')
    (hn : ∀ n ∈ nets, config.IsNet n) :
    codes (List.zipWith (fun pin net => "    .".toList ++ pin :: '(' :: net ++ "),".toList) pins
      nets) = (pinTexts pins nets).map (·, Line.none) := by
  induction pins generalizing nets with
  | nil => rfl
  | cons p pins ih =>
    cases nets with
    | nil => rfl
    | cons n nets =>
      have hc := code_pin p (hp p (by simp)) (hn n (by simp)) (.inr rfl)
      have hrest := ih nets (fun q hq => hp q (by simp [hq])) fun m hm => hn m (by simp [hm])
      show (Dialect.code _, Line.none) :: codes _ = _
      rw [hrest]
      exact congrArg (fun t => (t, Line.none) :: _) hc

theorem code_header {i : Nat} (hne : g.cell ≠ []) (hk : g.cell.IsWord) :
    Dialect.code ("  ".toList ++ g.cell ++ " _".toList ++ Text.decimal i ++ "_ (".toList) =
      g.cell ++ ' ' :: (instanceName i ++ [' ', '(']) := by
  have hline : "  ".toList ++ g.cell ++ " _".toList ++ Text.decimal i ++ "_ (".toList =
      "  ".toList ++ (g.cell ++ ' ' :: (instanceName i ++ [' ', '('])) := by
    have h₁ : " _".toList = [' ', '_'] := rfl
    have h₂ : "_ (".toList = ['_', ' ', '('] := rfl
    rw [h₁, h₂]
    generalize "  ".toList = s
    simp [instanceName]
  have hlast : (g.cell ++ ' ' :: (instanceName i ++ [' ', '('])).getLast? = some '(' := by
    have : g.cell ++ ' ' :: (instanceName i ++ [' ', '(']) =
        g.cell ++ ' ' :: (instanceName i ++ [' ']) ++ ['('] := by simp
    rw [this, List.getLast?_concat]
  rw [hline]
  have h₁ := hk.not_mem (c := '/') (by decide)
  have h₂ := (isWord_instanceName i).not_mem (c := '/') (by decide)
  refine Dialect.code_indented (by decide) ⟨?_, ?_⟩ (by simp [h₁, h₂])
  · rw [List.head?_append_of_ne_nil _ hne]
    exact (Text.trimmed_of_isWord hk).head
  · intro c hc
    obtain rfl : '(' = c := Option.some.inj (hlast.symm.trans hc)
    decide

theorem codes_gateLines {i : Nat} (hne : g.cell ≠ []) (hk : g.cell.IsWord)
    (hin : ∀ n ∈ g.inputs, config.IsNet n) (hout : config.IsNet g.output) :
    codes (gateLines i g) =
      (attributeText i, Line.none) :: (gateTexts i g).map (·, Line.none) := by
  have hpins := codes_pins ['A', 'B'] g.inputs (by simp) hin
  have hz : Dialect.code ("    .Z(".toList ++ g.output ++ [')']) = pinText 'Z' g.output := by
    have := code_pin 'Z' (by decide) hout (.inl rfl)
    rwa [List.append_nil] at this
  have hlast : Dialect.code "  );".toList = [')', ';'] := by decide
  have happ (s t : List Text) : codes (s ++ t) = codes s ++ codes t := List.map_append
  show (Dialect.code ("  ".toList ++ attributeText i), Line.none) :: (Dialect.code _, Line.none) ::
    codes (_ ++ _) = _
  rw [code_attribute, code_header hne hk, happ, hpins, gateTexts, List.map_cons, List.map_append]
  show _ :: _ :: (_ ++ [(Dialect.code _, Line.none), (Dialect.code _, Line.none)]) = _
  rw [hz, hlast]
  rfl

/-- The texts of the connections of a gate, one for each line. -/
def connectionTexts (g : CircuitGate) : List Text :=
  pinTexts ['A', 'B'] g.inputs ++ [pinText 'Z' g.output]

theorem map_gateTexts (i : Nat) (g : CircuitGate) : (gateTexts i g).map (·, Line.none) =
    (g.cell ++ ' ' :: (instanceName i ++ [' ', '(']), Line.none) ::
      ((connectionTexts g).map (·, Line.none) ++ [([')', ';'], Line.none)]) := by
  simp [gateTexts, connectionTexts]

theorem eq_of_mem_connectionTexts (h : t ∈ connectionTexts g) :
    ∃ pin net, t = pinText pin net ∨ t = pinText pin net ++ [','] := by
  rcases List.mem_append.mp h with ht | ht
  · obtain ⟨pin, -, net, -, rfl⟩ := mem_pinTexts ht
    exact ⟨pin, net, .inr rfl⟩
  · exact ⟨'Z', g.output, .inl (List.mem_singleton.mp ht)⟩

theorem firstWord_connectionText (h : t ∈ connectionTexts g) : Dialect.firstWord t = [] := by
  refine Dialect.firstWord_eq_nil fun c hc => ?_
  obtain ⟨pin, net, rfl | rfl⟩ := eq_of_mem_connectionTexts h
  · obtain rfl : '.' = c := Option.some.inj hc
    decide
  · obtain rfl : '.' = c := Option.some.inj hc
    decide

theorem endsStatement_connectionText (h : t ∈ connectionTexts g) :
    Dialect.endsStatement t = false := by
  refine Dialect.endsStatement_eq_false ?_
  obtain ⟨pin, net, rfl | rfl⟩ := eq_of_mem_connectionTexts h
  · have hlast : pinText pin net = '.' :: pin :: '(' :: net ++ [')'] := rfl
    rw [hlast, List.getLast?_concat]
    decide
  · rw [List.getLast?_concat]
    decide

theorem advance_header (i : Nat) {cell : Cell} (hc : Cell.find? g.cell = some cell) :
    Phase.body.advance config (g.cell ++ ' ' :: (instanceName i ++ [' ', '('])) .none =
      (.gate ⟨g.cell, instanceName i, .none,
        [(g.cell ++ ' ' :: (instanceName i ++ [' ', '(']), .none)]⟩, none) := by
  obtain ⟨hk, hkey, hres⟩ := Cell.keyword_of_find? hc
  have hopens : Dialect.endsStatement (g.cell ++ ' ' :: (instanceName i ++ [' ', '('])) = false := by
    have hlast : g.cell ++ ' ' :: (instanceName i ++ [' ', '(']) =
        g.cell ++ ' ' :: (instanceName i ++ [' ']) ++ ['('] := by simp
    refine Dialect.endsStatement_eq_false ?_
    rw [hlast, List.getLast?_concat]
    decide
  have hbracket : ∀ c ∈ (Text.trimStart [' ', '(']).head?, c = '(' :=
    fun c hc => (Option.some.inj hc).symm
  have hstep := Phase.ofBody_gate .none (s := [' ']) hk hkey hres (by decide) (by simp)
    (by simp [instanceName]) (isWord_instanceName i) hbracket
  rw [Phase.ofGate] at hstep
  exact hstep.trans (if_neg (by simpa using hopens))

theorem read_gateLines {i : Nat} {cell : Cell} (hc : Cell.find? g.cell = some cell)
    (hin : ∀ n ∈ g.inputs, config.IsNet n) (hout : config.IsNet g.output) :
    Phase.body.read config (codes (gateLines i g)) = (.body, [.gate (instanceOf i g)]) := by
  obtain ⟨hk, hkey, -⟩ := Cell.keyword_of_find? hc
  have hne : g.cell ≠ [] := by
    intro e
    rw [e] at hkey
    simp at hkey
  have hword : ∀ l ∈ (connectionTexts g).map (·, Line.none) ++ [([')', ';'], Line.none)],
      Dialect.firstWord l.1 ≠ "endmodule".toList := by
    intro l hl
    rcases List.mem_append.mp hl with hl | hl
    · obtain ⟨t, ht, rfl⟩ := List.mem_map.mp hl
      rw [firstWord_connectionText ht]
      decide
    · obtain rfl := List.mem_singleton.mp hl
      decide
  have hopen : ∀ l ∈ (connectionTexts g).map (·, Line.none), Dialect.endsStatement l.1 = false := by
    intro l hl
    obtain ⟨t, ht, rfl⟩ := List.mem_map.mp hl
    exact endsStatement_connectionText ht
  have hattr : Phase.body.advance config (attributeText i) .none = (.body, none) :=
    Phase.ofBody_attribute (isAttribute_attributeText i)
  rw [codes_gateLines hne hk hin hout, Phase.read, hattr, map_gateTexts, Phase.read,
    advance_header i hc, Phase.read_gate hword hopen (by decide), instanceOf, map_gateTexts]
  rfl

/-- **What the lines of a gate contribute.** -/
theorem contributes_gateLines {i : Nat} {cell : Cell} (hc : Cell.find? g.cell = some cell)
    (hlen : g.inputs.length = cell.kind.arity) (hin : ∀ n ∈ g.inputs, config.IsNet n)
    (hout : config.IsNet g.output) :
    Contributes config (gateLines i g) [] g.placed?.toList := by
  have hplaced := placed?_instanceOf (i := i) hc hlen hin hout
  have hsome : g.placed?.isSome = true := by rw [CircuitGate.placed?, hc]; rfl
  have hfound : (Cell.find? (instanceOf i g).keyword).isSome = true := by
    rw [show (instanceOf i g).keyword = g.cell from rfl, hc]
    rfl
  have hitem := Contributes.of_item (read_gateLines (i := i) hc hin hout)
    (fun _ => by rw [hplaced]; exact hsome) (if_pos hfound)
  rwa [Item.placed, hplaced] at hitem

end NetFlat.Circuit
