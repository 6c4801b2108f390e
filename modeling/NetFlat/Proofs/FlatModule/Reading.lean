import NetFlat.Proofs.Text.Lines

/-!
# Rendered flat modules are read back

The outline that is read from the text of a flat module lists the names and the assignments of the
module, if no name has white space or a comma in it.

* `FlatModule.Outline.read?_render`.
-/

namespace NetFlat

/-- The name can stand in a list of names: it is not empty, and has no white space and no comma. -/
structure Signal.Listable (a : Signal) : Prop where
  ne_nil : a.name ≠ []
  chars : ∀ c ∈ a.name, Text.isBlank c = false ∧ c ≠ ','

namespace Signal.Listable

variable {a : Signal}

theorem trimmed (h : a.Listable) : a.name.Trimmed :=
  ⟨fun c hc => (h.chars c (List.mem_of_head? hc)).1,
    fun c hc => (h.chars c (List.mem_of_getLast? hc)).1⟩

theorem trim_display (h : a.Listable) : Text.trim a.display = a.name := by
  unfold Signal.display
  split
  · have := Text.trim_blanks (s := []) (u := [' ']) (by simp [Text.Blanks]) h.trimmed
      (by simp [Text.Blanks]; decide)
    simpa using this
  · exact h.trimmed.trim_eq_self

theorem mem_display {c : Char} (h : a.Listable) (hc : c ∈ a.display) :
    c = ' ' ∨ Text.isBlank c = false ∧ c ≠ ',' := by
  unfold Signal.display at hc
  split at hc
  · rcases List.mem_append.mp hc with hc | hc
    · exact .inr (h.chars c hc)
    · exact .inl (List.mem_singleton.mp hc)
  · exact .inr (h.chars c hc)

theorem isLine_display (h : a.Listable) : Text.IsLine a.display := by
  intro c hc
  rcases h.mem_display hc with rfl | ⟨hb, -⟩
  · decide
  · constructor <;> rintro rfl <;> exact absurd hb (by decide)

end Signal.Listable

/-! ### Lines of a module -/

theorem Expr.isLine_display {e : Expr} (h : ∀ a ∈ e.reads, a.Listable) :
    Text.IsLine e.display := by
  have hbracket {e : Expr} (h : Text.IsLine e.display) : Text.IsLine (e.bracket e.display) := by
    unfold bracket
    split
    · exact (Text.IsLine.cons (by decide) h).append (.cons (by decide) Text.isLine_nil)
    · exact h
  induction e with
  | signal a => exact (h a (by simp [reads])).isLine_display
  | const b =>
    show Text.IsLine (literal b)
    cases b <;> decide
  | not e ih =>
    exact .cons (by decide) (hbracket (ih h))
  | binary op a b iha ihb =>
    simp only [reads, List.mem_append] at h
    have hop : op.symbol ≠ '\n' ∧ op.symbol ≠ '\r' := by cases op <;> decide
    exact (hbracket (iha fun x hx => h x (.inl hx))).append
      (.cons (by decide) (.cons hop (.cons (by decide) (hbracket (ihb fun x hx => h x (.inr hx))))))

namespace FlatModule

/-- The ports are there, and all names can stand in lists. -/
structure Listable (m : FlatModule) : Prop where
  name : m.name.IsLine
  inputs_ne : m.inputs ≠ []
  outputs_ne : m.outputs ≠ []
  declared : ∀ a ∈ m.inputs ++ m.outputs ++ m.wires, a.Listable
  assigned : ∀ s ∈ m.assignments, ∀ a, a = s.target ∨ a ∈ s.expr.reads → a.Listable

variable {as : List Signal} {m : FlatModule}

theorem isLine_listing (h : ∀ a ∈ as, a.Listable) : (listing as).IsLine := by
  unfold listing Text.join
  induction as with
  | nil => exact Text.isLine_nil
  | cons a as ih =>
    have ha := (h a (by simp)).isLine_display
    cases as with
    | nil => simpa using ha
    | cons b as =>
      have hsep : Text.IsLine [',', ' '] := by decide
      rw [List.map_cons, List.map_cons, List.intercalate_cons_cons, Text.isLine_append,
        Text.isLine_append]
      exact ⟨⟨ha, hsep⟩, ih fun c hc => h c (by simp [hc])⟩

theorem names_listing (hne : as ≠ []) (h : ∀ a ∈ as, a.Listable) :
    Outline.names (listing as) = as.map Signal.name := by
  have hcomma : ∀ d ∈ as.map Signal.display, ',' ∉ d := by
    intro d hd hc
    obtain ⟨a, ha, rfl⟩ := List.mem_map.mp hd
    rcases (h a ha).mem_display hc with hb | ⟨-, hb⟩
    · exact absurd hb (by decide)
    · exact hb rfl
  rw [Outline.names, listing, Text.map_trim_splitOn_join (by simpa using hne) hcomma, List.map_map]
  exact List.map_congr_left fun a ha => (h a ha).trim_display

theorem beforeLast?_concat (c : Char) (t : Text) : Text.beforeLast? c (t ++ [c]) = some t := by
  simp [Text.beforeLast?]

theorem Listable.isLine_lines (h : m.Listable) : ∀ l ∈ m.lines, l.IsLine := by
  have hin : ∀ a ∈ m.inputs, a.Listable := fun a ha => h.declared a (by simp [ha])
  have hout : ∀ a ∈ m.outputs, a.Listable := fun a ha => h.declared a (by simp [ha])
  have hwire : ∀ a ∈ m.wires, a.Listable := fun a ha => h.declared a (by simp [ha])
  have hkeyword (keyword : String) (hk : Text.IsLine keyword.toList) {as : List Signal}
      (has : ∀ a ∈ as, a.Listable) : (declaration keyword as).IsLine := by
    have hend : Text.IsLine [';'] := by decide
    exact (hk.append (.cons (by decide) (isLine_listing has))).append hend
  intro l hl
  simp only [lines, List.mem_cons, List.mem_append, List.mem_map, List.not_mem_nil, or_false] at hl
  rcases hl with rfl | rfl | rfl | (hl | ⟨s, hs, rfl⟩) | rfl
  · have hmodule : Text.IsLine "module ".toList := by decide
    have hend : Text.IsLine ");".toList := by decide
    have hports : (listing (m.inputs ++ m.outputs)).IsLine :=
      isLine_listing fun a ha => h.declared a (List.mem_append_left _ ha)
    exact ((hmodule.append h.name).append (.cons (by decide) hports)).append hend
  · exact hkeyword "input" (by decide) hin
  · exact hkeyword "output" (by decide) hout
  · split at hl
    · simp at hl
    · obtain rfl := List.mem_singleton.mp hl
      exact hkeyword "wire" (by decide) hwire
  · have hs' := h.assigned s hs
    have ht := (hs' s.target (.inl rfl)).isLine_display
    have he := Expr.isLine_display (e := s.expr) fun a ha => hs' a (.inr ha)
    have hassign : Text.IsLine "assign ".toList := by decide
    have heq : Text.IsLine " = ".toList := by decide
    have hend : Text.IsLine [';'] := by decide
    exact (((hassign.append ht).append heq).append he).append hend
  · decide

/-! ### Reading line by line -/

namespace Outline

variable {o : Outline}

theorem addLine?_inputs (hne : as ≠ []) (h : ∀ a ∈ as, a.Listable) :
    o.addLine? (declaration "input" as) = some { o with inputs := as.map Signal.name } := by
  have hd : declared? "input" (declaration "input" as) = some (as.map Signal.name) := by
    show (Text.beforeLast? ';' (listing as ++ [';'])).map names = _
    rw [beforeLast?_concat, Option.map_some, names_listing hne h]
  simp only [addLine?, hd]

theorem addLine?_outputs (hne : as ≠ []) (h : ∀ a ∈ as, a.Listable) :
    o.addLine? (declaration "output" as) = some { o with outputs := as.map Signal.name } := by
  have hd : declared? "output" (declaration "output" as) = some (as.map Signal.name) := by
    show (Text.beforeLast? ';' (listing as ++ [';'])).map names = _
    rw [beforeLast?_concat, Option.map_some, names_listing hne h]
  have h₁ : declared? "input" (declaration "output" as) = none := rfl
  simp only [addLine?, hd, h₁]

theorem addLine?_wires (hne : as ≠ []) (h : ∀ a ∈ as, a.Listable) :
    o.addLine? (declaration "wire" as) = some { o with wires := as.map Signal.name } := by
  have hd : declared? "wire" (declaration "wire" as) = some (as.map Signal.name) := by
    show (Text.beforeLast? ';' (listing as ++ [';'])).map names = _
    rw [beforeLast?_concat, Option.map_some, names_listing hne h]
  have h₁ : declared? "input" (declaration "wire" as) = none := rfl
  have h₂ : declared? "output" (declaration "wire" as) = none := rfl
  simp only [addLine?, hd, h₁, h₂]

theorem cutAt?_display {a : Signal} (h : a.Listable) (t : Text) :
    Text.cutAt? " = ".toList (a.display ++ (" = ".toList ++ t)) = some (a.display, t) := by
  have hskip : ∀ n : Text, (∀ c ∈ n, Text.isBlank c = false ∧ c ≠ ',') → ∀ u v w : Text,
      Text.cutAt? " = ".toList u = some (v, w) →
        Text.cutAt? " = ".toList (n ++ u) = some (n ++ v, w) := by
    intro n hn u v w hu
    induction n with
    | nil => exact hu
    | cons c n ih =>
      have hc : ' ' ≠ c := by
        rintro rfl
        exact absurd (hn ' ' (by simp)).1 (by decide)
      have hp : " = ".toList.isPrefixOf? (c :: (n ++ u)) = none := by
        show (if (' ' == c) = true then _ else none) = none
        simp [hc]
      rw [List.cons_append, Text.cutAt?, hp]
      simp only [ih fun d hd => hn d (by simp [hd]), Option.map_some, List.cons_append]
  unfold Signal.display
  split
  · rw [List.append_assoc]
    exact hskip a.name h.chars _ _ _ rfl
  · simpa using hskip a.name h.chars _ _ _ (show Text.cutAt? " = ".toList _ = some ([], t) from rfl)

theorem addLine?_assignment {s : Assignment} (h : s.target.Listable) :
    o.addLine? s.display =
      some { o with assigns := o.assigns ++ [(s.target.name, s.expr.display)] } := by
  have hs : s.display = "assign ".toList ++
      (s.target.display ++ (" = ".toList ++ s.expr.display) ++ [';']) := by
    -- unifying with the literals is slow
    unfold Assignment.display
    generalize "assign ".toList = p
    generalize " = ".toList = q
    simp only [List.append_assoc]
  have hother (keyword : String) (t : Text) (hk : keyword.toList.head?.any (· ≠ 'a')) :
      declared? keyword ("assign ".toList ++ t) = none := by
    unfold declared? Text.after?
    cases hw : keyword.toList with
    | nil => simp [hw] at hk
    | cons c w =>
      have hc : (c == 'a') = false := by simpa [hw] using hk
      show (Option.bind (if (c == 'a') = true then _ else none) _).map names = none
      rw [hc]
      rfl
  have hafter (t : Text) : Text.after? "assign ".toList ("assign ".toList ++ t) = some t := rfl
  have hread : assignment? (s.target.display ++ (" = ".toList ++ s.expr.display) ++ [';']) =
      some (s.target.name, s.expr.display) := by
    rw [assignment?, beforeLast?_concat, Option.bind_some, cutAt?_display h, Option.map_some,
      h.trim_display]
  rw [hs, addLine?, hother "input" _ (by decide), hother "output" _ (by decide),
    hother "wire" _ (by decide), hafter]
  exact congrArg (Option.map _) hread

theorem foldlM_assignments {ss : List Assignment} (h : ∀ s ∈ ss, s.target.Listable) :
    (ss.map Assignment.display).foldlM addLine? o =
      some { o with
        assigns := o.assigns ++ ss.map fun s => (s.target.name, s.expr.display) } := by
  induction ss generalizing o with
  | nil => simp
  | cons s ss ih =>
    rw [List.map_cons, List.foldlM_cons, addLine?_assignment (h s (by simp))]
    show (ss.map Assignment.display).foldlM addLine? _ = _
    rw [ih fun t ht => h t (by simp [ht])]
    simp

theorem foldlM_wires (ho : o.wires = []) (h : ∀ a ∈ as, a.Listable) :
    (if as = [] then [] else [declaration "wire" as]).foldlM addLine? o =
      some { o with wires := as.map Signal.name } := by
  split
  · next hnil =>
    subst hnil
    cases o
    exact congrArg (fun w => some (Outline.mk _ _ w _)) ho
  · next hne =>
    rw [List.foldlM_cons, addLine?_wires hne h]
    rfl

/-- **Rendered modules are read back.** -/
theorem read?_render (h : m.Listable) : read? m.render = some
    { inputs := m.inputs.map Signal.name
      outputs := m.outputs.map Signal.name
      wires := m.wires.map Signal.name
      assigns := m.assignments.map fun s => (s.target.name, s.expr.display) } := by
  have hin : ∀ a ∈ m.inputs, a.Listable := fun a ha => h.declared a (by simp [ha])
  have hout : ∀ a ∈ m.outputs, a.Listable := fun a ha => h.declared a (by simp [ha])
  have hwire : ∀ a ∈ m.wires, a.Listable := fun a ha => h.declared a (by simp [ha])
  have hlines := h.isLine_lines
  have hskip (t u v : Text) (o : Outline) :
      o.addLine? ("module ".toList ++ t ++ u ++ v) = some o := rfl
  have hend (o : Outline) : o.addLine? "endmodule".toList = some o := rfl
  have hrender : m.render = Text.ofLines m.lines := rfl
  rw [read?, hrender, lines_ofLines hlines, FlatModule.lines, List.foldlM_cons, hskip,
    Option.bind_eq_bind, Option.bind_some, List.foldlM_cons, addLine?_inputs h.inputs_ne hin,
    Option.bind_eq_bind, Option.bind_some, List.foldlM_cons, addLine?_outputs h.outputs_ne hout,
    Option.bind_eq_bind, Option.bind_some, List.foldlM_append, List.foldlM_append,
    foldlM_wires rfl hwire, Option.bind_eq_bind, Option.bind_some,
    foldlM_assignments fun s hs => h.assigned s hs _ (.inl rfl), Option.bind_some,
    List.foldlM_cons, hend]
  rfl

end Outline

end FlatModule

end NetFlat
