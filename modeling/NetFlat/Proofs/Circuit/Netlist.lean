import NetFlat.Proofs.Circuit.Instances

/-!
# Netlists of circuits

The netlist of a well-formed circuit is cut into its header, the whole statements of its body, and its
last line, and the body contributes the internal nets as wires and the gates on flat names.

* `contributes_bodyLines`: what the body contributes;
* `WellFormed.cut`: how the netlist is cut.
-/

namespace NetFlat.Circuit

variable {config : Config} {c : Circuit} {n : Text}

/-! ### Declarations -/

theorem read_declarationLine (config : Config) (kind : DeclarationKind) {t : Text} (ht : '/' ∉ t) :
    Phase.body.read config
        (codes ["  ".toList ++ (Phase.declarationWord kind ++ ' ' :: (t ++ [';']))]) =
      (.body, [.declaration ⟨kind, ' ' :: (t ++ [';']), .none⟩]) := by
  have hslash : '/' ∉ Phase.declarationWord kind ++ ' ' :: (t ++ [';']) := by
    have hkeyword : '/' ∉ Phase.declarationWord kind := by
      rcases kind with (_ | _) | _ <;> decide
    exact List.not_mem_append hkeyword (by simp [ht])
  have htrim : (Phase.declarationWord kind ++ ' ' :: (t ++ [';'])).Trimmed := by
    obtain ⟨d, u, hd, hb⟩ : ∃ d u, Phase.declarationWord kind = d :: u ∧ Text.isBlank d = false := by
      rcases kind with (_ | _) | _
      · exact ⟨'i', _, rfl, by decide⟩
      · exact ⟨'o', _, rfl, by decide⟩
      · exact ⟨'w', _, rfl, by decide⟩
    have hline : Phase.declarationWord kind ++ ' ' :: (t ++ [';']) =
        d :: (u ++ ' ' :: t) ++ [';'] := by
      rw [hd]
      simp
    rw [hline]
    exact Text.trimmed_of_ends (c := d) rfl List.getLast?_concat hb (by decide)
  have hadv : Phase.body.advance config (Phase.declarationWord kind ++ ' ' :: (t ++ [';'])) .none =
      (.body, some (.declaration ⟨kind, ' ' :: (t ++ [';']), .none⟩)) :=
    Phase.ofBody_declaration (by simp)
  show Phase.body.read config [(Dialect.code _, Line.none)] = _
  rw [Dialect.code_indented (by decide) htrim hslash, Phase.read, hadv]
  rfl

theorem contributes_wireLine (h : isIdentifier n = true) :
    Contributes config ["  wire ".toList ++ n ++ [';']] [⟨n⟩] [] := by
  have hline : "  wire ".toList ++ n ++ [';'] =
      "  ".toList ++ (Phase.declarationWord .wire ++ ' ' :: (n ++ [';'])) := rfl
  have hdecl := Declaration.read?_word h
  have hwires : (Item.declaration ⟨.wire, ' ' :: (n ++ [';']), .none⟩).wires = [⟨n⟩] := by
    simp [Item.wires, hdecl]
  have hitem := Contributes.of_item
    (read_declarationLine config .wire ((isWord_of_isIdentifier h).not_mem (by decide))) trivial
    (by simp [Item.findings, Item.declarationFindings, Item.isSkipped, hdecl])
  rw [hwires] at hitem
  rw [hline]
  exact hitem

/-- A bus after the keyword of its declaration. -/
def busText (m : Nat) (bus : Text) : Text :=
  '[' :: (Text.decimal m ++ [':', '0']) ++ ']' :: ' ' :: bus

theorem contributes_busLine {kind : DeclarationKind} {m : Nat} {role : BusRole}
    (hw : config.width = m + 1) (hk : kind = .port role ∨ kind = .wire) :
    Contributes config ["  ".toList ++ (Phase.declarationWord kind ++
      ' ' :: (busText m (config.busName role) ++ [';']))] [] [] := by
  have hfits : m + 1 < Text.bound32 := by
    have hle := config.valid.width_le
    rw [hw] at hle
    exact Nat.lt_of_le_of_lt hle (by decide)
  have hslash : '/' ∉ busText m (config.busName role) := by
    have h₁ := (Text.isWord_decimal m).not_mem (c := '/') (by decide)
    have h₂ := (config.isWord_busName role).not_mem (c := '/') (by decide)
    simp [busText, h₁, h₂]
  have hrole : config.busRole? (config.busName role) = some role :=
    Config.busRole?_eq_some_iff.mpr rfl
  have hwidth : (⟨some (m, 0), [config.busName role]⟩ : Declaration).width? =
      some config.width := by
    simp [Declaration.width?, hw, Nat.mod_eq_of_lt hfits]
  have hdecl : Declaration.read? (' ' :: (busText m (config.busName role) ++ [';'])) = _ :=
    Declaration.read?_range (Nat.lt_of_succ_lt hfits) (config.isIdentifier_busName role)
  have hitem := Contributes.of_item (read_declarationLine config kind hslash) trivial
  rcases hk with rfl | rfl
  · refine hitem ?_
    simp [Item.findings, Item.declarationFindings, Item.isSkipped, hdecl, Scan.mismatches, hwidth,
      hrole]
  · have hwires : (Item.declaration ⟨.wire, ' ' :: (busText m (config.busName role) ++ [';']),
        .none⟩).wires = [] := by
      simp [Item.wires, hdecl]
    rw [hwires] at hitem
    refine hitem ?_
    simp [Item.findings, Item.declarationFindings, Item.isSkipped, hdecl, Scan.busWireFinding?,
      hrole]

/-! ### The body -/

theorem isIdentifier_of_mem_internalNets (h : c.WellFormed) {s : Signal}
    (hs : s ∈ c.internalNets) : isIdentifier s.name = true := by
  rw [internalNets, Signal.mem_ordered] at hs
  obtain ⟨n, hn, rfl⟩ := List.mem_map.mp hs
  obtain ⟨hn, hb⟩ := List.mem_filter.mp hn
  obtain ⟨g, hg, rfl⟩ := List.mem_map.mp hn
  rcases h.outputs g hg with ⟨i, -, ho⟩ | ⟨hid, -⟩
  · have hbracket : '[' ∈ g.output := by
      rw [ho]
      exact List.mem_append_left _ (List.mem_append_left _ (by decide))
    simp [hbracket] at hb
  · exact hid

/-- The lines of the body. -/
def bodyLines (c : Circuit) : List Text :=
  c.internalNets.map (fun s => "  wire ".toList ++ s.name ++ [';']) ++
    c.busLines "input" "in_array" ++ c.busLines "output" "out_array" ++
    (c.gates.zipIdx.map fun p => gateLines p.2 p.1).flatten

theorem contributes_wireLines (h : c.WellFormed) :
    Contributes config (c.internalNets.map fun s => "  wire ".toList ++ s.name ++ [';'])
      c.internalNets [] := by
  have hrow := contributes_flatMap config c.internalNets
    (fun s => ["  wire ".toList ++ s.name ++ [';']]) (fun s => [⟨s.name⟩]) (fun _ => [])
    fun s hs => contributes_wireLine (isIdentifier_of_mem_internalNets h hs)
  have hnets : c.internalNets.flatMap (fun s => [(⟨s.name⟩ : Signal)]) = c.internalNets :=
    List.flatMap_singleton' _
  have hnone : c.internalNets.flatMap (fun _ => ([] : List Placed)) = [] := by simp
  rw [hnets, hnone] at hrow
  rw [List.map_eq_flatMap]
  exact hrow

theorem contributes_busLines (h : c.WellFormed) (hc : config.toSettings = c.settings)
    {role : BusRole} (keyword bus : String)
    (hk : keyword.toList = Phase.declarationWord (.port role))
    (hb : bus.toList = config.busName role) :
    Contributes config (c.busLines keyword bus) [] [] := by
  have hw : config.width = c.width - 1 + 1 := by
    have := h.width_pos
    have := WellFormed.width_eq hc
    omega
  have hrange : " [".toList ++ Text.decimal (c.width - 1) ++ ":0] ".toList ++ bus.toList ++ [';'] =
      ' ' :: (busText (c.width - 1) (config.busName role) ++ [';']) := by
    have h₁ : " [".toList = [' ', '['] := rfl
    have h₂ : ":0] ".toList = [':', '0', ']', ' '] := rfl
    rw [h₁, h₂, hb]
    simp [busText]
  have hlines : c.busLines keyword bus =
      ["  ".toList ++ (Phase.declarationWord (.port role) ++
          ' ' :: (busText (c.width - 1) (config.busName role) ++ [';']))] ++
        ["  ".toList ++ (Phase.declarationWord .wire ++
          ' ' :: (busText (c.width - 1) (config.busName role) ++ [';']))] := by
    simp only [busLines]
    rw [hrange, hk]
    rfl
  rw [hlines]
  exact (contributes_busLine hw (.inl rfl)).append (contributes_busLine hw (.inr rfl))

theorem contributes_gates (h : c.WellFormed) (hc : config.toSettings = c.settings) :
    Contributes config (c.gates.zipIdx.map fun p => gateLines p.2 p.1).flatten []
      (c.gates.filterMap CircuitGate.placed?) := by
  have hgate : ∀ p ∈ c.gates.zipIdx,
      Contributes config (gateLines p.2 p.1) [] p.1.placed?.toList := by
    intro p hp
    have hg := List.fst_mem_of_mem_zipIdx hp
    obtain ⟨cell, hcell, hlen⟩ := h.exists_cell hg
    exact contributes_gateLines hcell hlen (fun n hn => h.isNet_input hc hg hn)
      (h.isNet_output hc hg)
  have hrow := contributes_flatMap config c.gates.zipIdx _ _ _ hgate
  have hgates : c.gates.zipIdx.flatMap (fun p => p.1.placed?.toList) =
      c.gates.filterMap CircuitGate.placed? := by
    have := List.flatMap_map Prod.fst (fun g : CircuitGate => g.placed?.toList) c.gates.zipIdx
    rw [← this, List.zipIdx_map_fst, List.filterMap_eq_flatMap_toList]
  have hnone : c.gates.zipIdx.flatMap (fun _ => ([] : List Signal)) = [] := by simp
  rw [hgates, hnone] at hrow
  exact hrow

/-- **What the body contributes**: the internal nets as wires, and the gates on flat names. -/
theorem contributes_bodyLines (h : c.WellFormed) (hc : config.toSettings = c.settings) :
    Contributes config c.bodyLines c.internalNets (c.gates.filterMap CircuitGate.placed?) := by
  have hin := contributes_busLines h hc "input" "in_array" rfl
    (WellFormed.busName_input hc).symm
  have hout := contributes_busLines h hc "output" "out_array" rfl
    (WellFormed.busName_output hc).symm
  have := (((contributes_wireLines h).append hin).append hout).append (contributes_gates h hc)
  simp only [List.append_nil, List.nil_append] at this
  exact this

/-! ### The netlist -/

/-- The lines in front of the body. -/
def headLines (c : Circuit) : List Text :=
  ["/* Generated by Yosys */".toList, [],
    "module ".toList ++ c.moduleName ++ "(in_array, out_array);".toList]

theorem netlistLines_eq (c : Circuit) :
    c.netlistLines = c.headLines ++ [c.bodyLines].flatten ++ ["endmodule".toList] := by
  rw [List.flatten_singleton]
  rfl

theorem isLine_of_isNet (h : config.IsNet n) : n.IsLine := by
  intro d hd
  constructor
  · rintro rfl
    exact h.not_mem (by decide) hd
  · rintro rfl
    exact h.not_mem (by decide) hd

theorem isLine_busLines (c : Circuit) {keyword bus : String} (hk : Text.IsLine keyword.toList)
    (hb : Text.IsLine bus.toList) : ∀ l ∈ c.busLines keyword bus, l.IsLine := by
  have hend : Text.IsLine [';'] := by decide
  have hopen : Text.IsLine " [".toList := by decide
  have hclose : Text.IsLine ":0] ".toList := by decide
  have hwire : Text.IsLine "  wire".toList := by decide
  have hrange := (((hopen.append ((Text.isWord_decimal (c.width - 1)).isLine)).append
    hclose).append hb).append hend
  intro l hl
  rcases List.mem_cons.mp hl with rfl | hl
  · exact (Text.IsLine.cons (by decide) (.cons (by decide) hk)).append hrange
  · obtain rfl := List.mem_singleton.mp hl
    exact hwire.append hrange

theorem isLine_gateLines {g : CircuitGate} (i : Nat) (hk : g.cell.IsWord)
    (hin : ∀ n ∈ g.inputs, config.IsNet n) (hout : config.IsNet g.output) :
    ∀ l ∈ gateLines i g, l.IsLine := by
  have hplace := (Text.isWord_decimal (i + 1)).isLine
  have hnumber := (Text.isWord_decimal i).isLine
  have hpin : Text.IsLine "    .".toList := by decide
  have hcomma : Text.IsLine "),".toList := by decide
  have hind : Text.IsLine "  ".toList := by decide
  have hz : Text.IsLine "    .Z(".toList := by decide
  have h₁ : Text.IsLine "  (* src = \"gen.v:".toList := by decide
  have h₂ : Text.IsLine ".5-".toList := by decide
  have h₃ : Text.IsLine ".20\" *)".toList := by decide
  have h₄ : Text.IsLine " _".toList := by decide
  have h₅ : Text.IsLine "_ (".toList := by decide
  intro l hl
  simp only [gateLines, List.mem_cons, List.mem_append, List.not_mem_nil, or_false] at hl
  rcases hl with rfl | rfl | hl | rfl | rfl
  · exact (((h₁.append hplace).append h₂).append hplace).append h₃
  · exact (((hind.append (hk.isLine)).append h₄).append hnumber).append h₅
  · rw [← List.map_uncurry_zip_eq_zipWith] at hl
    obtain ⟨⟨p, n⟩, hm, rfl⟩ := List.mem_map.mp hl
    obtain ⟨hp, hn⟩ := List.of_mem_zip hm
    have hp' : p ≠ '\n' ∧ p ≠ '\r' := by
      have hab : ∀ p ∈ ['A', 'B'], p ≠ '\n' ∧ p ≠ '\r' := by simp
      exact hab p hp
    exact (hpin.append (.cons hp' (.cons (by decide) (isLine_of_isNet (hin n hn))))).append hcomma
  · exact (hz.append (isLine_of_isNet hout)).append (by decide)
  · decide

theorem isLine_netlistLines (h : c.WellFormed) (hc : config.toSettings = c.settings) :
    ∀ l ∈ c.netlistLines, l.IsLine := by
  have hname := (isWord_of_isIdentifier h.name).isLine
  have hmodule : Text.IsLine "module ".toList := by decide
  have hports : Text.IsLine "(in_array, out_array);".toList := by decide
  have hwire : Text.IsLine "  wire ".toList := by decide
  have hend : Text.IsLine [';'] := by decide
  intro l hl
  rw [netlistLines_eq, List.flatten_singleton] at hl
  rcases List.mem_append.mp hl with hl | hl
  · rcases List.mem_append.mp hl with hl | hl
    · simp only [headLines, List.mem_cons, List.not_mem_nil, or_false] at hl
      rcases hl with rfl | rfl | rfl
      · decide
      · exact Text.isLine_nil
      · exact (hmodule.append hname).append hports
    · simp only [bodyLines, List.mem_append] at hl
      rcases hl with ((hl | hl) | hl) | hl
      · obtain ⟨s, hs, rfl⟩ := List.mem_map.mp hl
        have hid := isIdentifier_of_mem_internalNets h hs
        exact (hwire.append ((isWord_of_isIdentifier hid).isLine)).append hend
      · exact c.isLine_busLines (by decide) (by decide) l hl
      · exact c.isLine_busLines (by decide) (by decide) l hl
      · obtain ⟨ls, hls, hl⟩ := List.mem_flatten.mp hl
        obtain ⟨p, hp, rfl⟩ := List.mem_map.mp hls
        have hg := List.fst_mem_of_mem_zipIdx hp
        obtain ⟨cell, hcell, -⟩ := h.exists_cell hg
        exact isLine_gateLines p.2 (Cell.keyword_of_find? hcell).1
          (fun n hn => h.isNet_input hc hg hn) (h.isNet_output hc hg) l hl
  · obtain rfl := List.mem_singleton.mp hl
    decide

theorem read_headLines (h : c.WellFormed) (hc : config.toSettings = c.settings) :
    Phase.seeking.read config (codes c.headLines) = (.body, []) := by
  have hw := isWord_of_isIdentifier h.name
  have hne := ne_nil_of_isIdentifier h.name
  have hname : config.moduleName = c.moduleName := congrArg Settings.moduleName hc
  have hports : '/' ∉ "(in_array, out_array);".toList := by decide
  have hmodule : '/' ∉ "module ".toList := by decide
  have hpne : "(in_array, out_array);".toList ≠ [] := by decide
  have hcode : Dialect.code ("module ".toList ++ c.moduleName ++ "(in_array, out_array);".toList) =
      "module ".toList ++ c.moduleName ++ "(in_array, out_array);".toList := by
    have hlast : ("module ".toList ++ c.moduleName ++
        "(in_array, out_array);".toList).getLast? = some ';' :=
      (List.getLast?_append_of_ne_nil _ hpne).trans (by decide)
    exact Dialect.code_indented (s := []) (by decide)
      (Text.trimmed_of_ends (c := 'm') rfl hlast (by decide) (by decide))
      (List.not_mem_append (List.not_mem_append hmodule (hw.not_mem (by decide))) hports)
  have hmod : Dialect.moduleName?
      ("module ".toList ++ c.moduleName ++ "(in_array, out_array);".toList) =
        some config.moduleName := by
    rw [List.append_assoc, hname]
    exact Dialect.moduleName?_append hne hw (by decide)
  have hphase : Scan.headerPhase
      ("module ".toList ++ c.moduleName ++ "(in_array, out_array);".toList) = .body := by
    have hsemi : ';' ∈ "(in_array, out_array);".toList := by decide
    exact if_pos (List.mem_append_right _ hsemi)
  have hgen : Dialect.moduleName? (Dialect.code "/* Generated by Yosys */".toList) = none := by
    decide
  have hblank : Dialect.moduleName? (Dialect.code []) = none := by decide
  have hskip {t : Text} (ht : Dialect.moduleName? t = none) :
      Phase.seeking.advance config t .none = (.seeking, none) := by
    simp [Phase.advance, ht]
  have henter : Phase.seeking.advance config
      ("module ".toList ++ c.moduleName ++ "(in_array, out_array);".toList) .none =
        (.body, none) := by
    simp only [Phase.advance]
    rw [if_pos hmod, hphase]
  show Phase.seeking.read config [(Dialect.code _, Line.none), (Dialect.code _, Line.none),
    (Dialect.code _, Line.none)] = _
  rw [Phase.read, hskip hgen, Phase.read, hskip hblank, hcode, Phase.read, henter]
  rfl

/-- **How the netlist is cut.** -/
theorem WellFormed.cut (h : c.WellFormed) (hc : config.toSettings = c.settings)
    {file : SourceFile} (hf : file.content = c.netlist) :
    file.Cut config c.headLines [c.bodyLines] ["endmodule".toList] := by
  refine ⟨?_, congrArg Prod.fst (read_headLines h hc), fun b hb => ?_⟩
  · have hlines : file.content = Text.ofLines c.netlistLines := hf
    rw [SourceFile.map_text_lines hlines (isLine_netlistLines h hc), netlistLines_eq]
  · obtain rfl := List.mem_singleton.mp hb
    exact (contributes_bodyLines h hc).whole

end NetFlat.Circuit
