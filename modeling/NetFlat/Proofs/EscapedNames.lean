import NetFlat.Proofs.Naming.Acceptance
import NetFlat.Proofs.Scan.Names

/-!
# Escaped names

Comments, brackets and commas are looked for in the text of a line, whether an escaped name stands
there or not.  So an escaped name is read as it is written exactly if none of them gets in the way.

* `GateLine.exists_read`, `WireLine.exists_read`: gates and declarations on one line;
* `escaped_names`: which escaped names are read, and from where;
* `not_forall_escaped_read`: some are not.
-/

namespace NetFlat

open Text (Uncommented)

/-- A backslash and one or more characters behind it, none of them white space. -/
structure IsEscaped (e : Text) : Prop where
  head : e.head? = some '\\'
  more : 1 < e.length
  solid : ∀ c ∈ e, Text.isBlank c = false

namespace IsEscaped

variable {e : Text}

instance : Decidable (IsEscaped e) :=
  decidable_of_iff (e.head? = some '\\' ∧ 1 < e.length ∧ e.all (!Text.isBlank ·) = true)
    ⟨fun ⟨h₁, h₂, h₃⟩ => ⟨h₁, h₂, by simpa using h₃⟩,
      fun h => ⟨h.head, h.more, by simpa using h.solid⟩⟩

theorem exists_cons (h : IsEscaped e) : ∃ t, e = '\\' :: t :=
  List.head?_eq_some_iff.mp h.head

theorem ne_nil (h : IsEscaped e) : e ≠ [] := by
  obtain ⟨t, rfl⟩ := h.exists_cons
  exact List.cons_ne_nil _ t

theorem trimmed (h : IsEscaped e) : e.Trimmed :=
  ⟨fun c hc => h.solid c (List.mem_of_head? hc), fun c hc => h.solid c (List.mem_of_getLast? hc)⟩

theorem trim_concat (h : IsEscaped e) : Text.trim (e ++ [' ']) = e := by
  have hblank : Text.Blanks [' '] := by decide
  simpa using Text.trim_blanks (s := []) (by decide) h.trimmed hblank

end IsEscaped

/-! ### Lines with escaped names -/

variable {e k n pin row indent : Text} {others : List Connection.Fragment} {xs ys : List Text}
  {line : Line}

/-- The text of a connection to a name with a blank behind it. -/
def connectionTo (pin e : Text) : Text := '.' :: (pin ++ '(' :: (e ++ [' ', ')']))

/-- The text of an instance with the text of its connections. -/
def gateText (k n row : Text) : Text := k ++ ([' '] ++ (n ++ (" (".toList ++ (row ++ ");".toList))))

/-- The line holds an instance of a cell in the catalog, the first connection of which is to the
name with a blank behind it. -/
structure GateLine (k n pin e : Text) (others : List Connection.Fragment) (line : Line) : Prop where
  keyword : (Cell.find? k).isSome
  name : isIdentifier n = true
  pin_ne_nil : pin ≠ []
  pin_chars : ∀ c ∈ pin, Connection.isPinChar c = true
  uncommented : ∀ f ∈ others, f.text.Uncommented
  text : ∃ indent : Text, indent.Blanks ∧ line.text = indent ++ gateText k n
    (Text.join [',', ' '] (connectionTo pin e :: others.map Connection.Fragment.text))

/-- The line holds a declaration of wires, one of them the name with a blank behind it. -/
structure WireLine (xs : List Text) (e : Text) (ys : List Text) (line : Line) : Prop where
  names : ∀ x ∈ xs ++ ys, isIdentifier x = true
  text : ∃ indent : Text, indent.Blanks ∧ line.text = indent ++ ("wire ".toList ++
    (Text.join [',', ' '] (xs ++ (e ++ [' ']) :: ys) ++ [';']))

theorem Dialect.endsStatement_append (t : Text) : endsStatement (t ++ ");".toList) = true := by
  have hcut : Text.beforeLast? ';' (t ++ ");".toList) = some (t ++ [')']) :=
    Text.beforeLast?_eq_some_iff.mpr (by simp)
  have htrim : Text.trimEnd (t ++ [')']) = t ++ [')'] := by
    refine Text.trimEnd_eq_self fun c hc => ?_
    obtain rfl : ')' = c := by simpa using hc
    decide
  simp only [endsStatement, hcut, htrim]
  simp

theorem uncommented_join {ts : List Text} (h : ∀ t ∈ ts, t.Uncommented) :
    (Text.join [',', ' '] ts).Uncommented := by
  have hrest (ts : List Text) (h : ∀ t ∈ ts, t.Uncommented) :
      Uncommented (ts.flatMap ([',', ' '] ++ ·)) := by
    induction ts with
    | nil => decide
    | cons t ts ih =>
      refine Uncommented.append ?_ (ih fun u hu => h u (by simp [hu])) (.inr ?_)
      · exact (h t (by simp)).append_left (by decide)
      · cases ts <;> simp
  cases ts with
  | nil => decide
  | cons t ts =>
    rw [Text.join_cons]
    refine (h t (by simp)).append (hrest ts fun u hu => h u (by simp [hu])) (.inr ?_)
    cases ts <;> simp

/-! ### Gates -/

theorem trimmed_gateText (hk : k.IsWord) (hne : k ≠ []) : (gateText k n row).Trimmed := by
  obtain ⟨c, t, rfl⟩ := List.exists_cons_of_ne_nil hne
  have hlast : gateText (c :: t) n row =
      c :: t ++ ([' '] ++ (n ++ (" (".toList ++ (row ++ [')'])))) ++ [';'] := by
    simp [gateText]
  refine Text.trimmed_of_ends (c := c) (d := ';') rfl ?_ ?_ (by decide)
  · rw [hlast, List.getLast?_concat]
  · exact isBlank_of_isWordChar (hk c (by simp))

theorem uncommented_gateText (hk : k.IsWord) (hn : n.IsWord) (hrow : row.Uncommented) :
    (gateText k n row).Uncommented := by
  have hhead : '/' ∉ k ++ ([' '] ++ (n ++ " (".toList)) := by
    have hslash {w : Text} (hw : w.IsWord) : '/' ∉ w := hw.not_mem (by decide)
    simp [hslash hk, hslash hn]
  have hall := (hrow.append (t := ");".toList) (by decide) (.inr (by decide))).append_left hhead
  simpa [gateText] using hall

/-- An instance of a cell in the catalog on one line is an item. -/
theorem Phase.read_gateText {cell : Cell} (hcell : Cell.find? k = some cell)
    (hn : isIdentifier n = true) (hindent : indent.Blanks)
    (htext : line.text = indent ++ gateText k n row) (hrow : row.Uncommented) (config : Config) :
    Phase.body.read config [line.coded] =
      (.body, [.gate ⟨k, n, line, [(gateText k n row, line)]⟩]) := by
  obtain ⟨hk, hkey, hres⟩ := Cell.keyword_of_find? hcell
  have hkne : k ≠ [] := by
    rintro rfl
    simp at hkey
  have hnword := isWord_of_isIdentifier hn
  have hspace : Text.Blanks [' '] := by decide
  have hcoded : line.coded = (gateText k n row, line) := by
    rw [Line.coded, htext, Dialect.code_of_uncommented hindent (trimmed_gateText hk hkne)
      (uncommented_gateText hk hnword hrow)]
  have hends : Dialect.endsStatement (gateText k n row) = true := by
    have h := Dialect.endsStatement_append (k ++ ([' '] ++ (n ++ (" (".toList ++ row))))
    simpa [gateText] using h
  have hstart : ∀ c ∈ (Text.trimStart (" (".toList ++ (row ++ ");".toList))).head?, c = '(' := by
    intro c hc
    have hopen : Text.trimStart (" (".toList ++ (row ++ ");".toList)) =
        '(' :: (row ++ ");".toList) := Text.trimStart_append hspace
    rw [hopen] at hc
    exact (Option.some.inj hc).symm
  have hbody := Phase.ofBody_gate line hk hkey hres hspace (by simp) (ne_nil_of_isIdentifier hn)
    hnword hstart
  change Phase.ofBody (gateText k n row) line = Phase.ofGate (gateText k n row) _ at hbody
  rw [Phase.ofGate, if_pos hends] at hbody
  have hadvance : Phase.body.advance config (gateText k n row) line = _ := hbody
  rw [hcoded, Phase.read_cons, hadvance]
  rfl

/-- **A gate** on one line is read as it is written, if the brackets of the name are balanced and no
comment mark stands in it. -/
theorem GateLine.exists_read (h : GateLine k n pin e others line) (he : IsEscaped e)
    (hclose : Connection.Closes 0 e) (hu : e.Uncommented) (config : Config) :
    ∃ g, Phase.body.read config [line.coded] = (.body, [.gate g]) ∧ g.keyword = k ∧ g.name = n ∧
      Connection.read g.lines = .ok (⟨pin, e, line⟩ :: others.map fun f =>
        ⟨f.pin, Text.trim f.reference, line⟩) := by
  obtain ⟨hk, hn, hne, hpin, hothers, indent, hindent, htext⟩ := h
  obtain ⟨cell, hcell⟩ := Option.isSome_iff_exists.mp hk
  -- the connection to the name is one like the others
  let f : Connection.Fragment := ⟨pin, [], e ++ [' '], hne, hpin, by simp,
    (Connection.closes_append_left (by simp)).mpr hclose⟩
  have hf : connectionTo pin e = f.text := by simp [connectionTo, Connection.Fragment.text, f]
  have hfirst : Uncommented f.text := by
    have hslash : '/' ∉ '.' :: (pin ++ ['(']) := by
      have hpinslash : '/' ∉ pin := fun hm => absurd (hpin _ hm) (by decide)
      simp [hpinslash]
    have hbehind : Uncommented (e ++ [' ', ')']) := hu.append (by decide) (.inr (by decide))
    simpa [← hf, connectionTo] using hbehind.append_left hslash
  rw [hf, ← List.map_cons] at htext
  have hrow : (Text.join [',', ' '] ((f :: others).map Connection.Fragment.text)).Uncommented :=
    uncommented_join (by simpa [hfirst] using hothers)
  refine ⟨_, Phase.read_gateText hcell hn hindent htext hrow config, rfl, rfl, ?_⟩
  have hopen : '(' ∉ k ++ ' ' :: (n ++ [' ']) := by
    have hbracket {w : Text} (hw : w.IsWord) : '(' ∉ w := hw.not_mem (by decide)
    simp [hbracket (Cell.keyword_of_find? hcell).1, hbracket (isWord_of_isIdentifier hn)]
  have hdot : '.' ∉ ");".toList := by decide
  have hread := Connection.read_line line hopen f others hdot
  have hgate (row : Text) : k ++ ' ' :: (n ++ [' ']) ++ '(' :: (row ++ ");".toList) =
      gateText k n row := by
    simp [gateText]
  have htrim : Text.trim f.reference = e := he.trim_concat
  rw [hgate] at hread
  refine hread.trans ?_
  rw [List.map_cons, htrim]

/-! ### Declarations -/

/-- Names that are declared begin with a word, which a comma or a backslash follows. -/
theorem exists_join_eq (ys : List Text) (hxs : ∀ x ∈ xs, isIdentifier x = true) {f : Text}
    (hf : f.head? = some '\\') : ∃ (w : Text) (c : Char) (r : Text),
      Text.join [',', ' '] (xs ++ f :: ys) = w ++ c :: r ∧ w.IsWord ∧ (c = '\\' ∨ c = ',') := by
  cases xs with
  | nil =>
    obtain ⟨t, rfl⟩ := List.head?_eq_some_iff.mp hf
    exact ⟨[], '\\', _, by rw [List.nil_append, Text.join_cons]; rfl, by decide, .inl rfl⟩
  | cons x xs =>
    obtain ⟨r, hr⟩ : ∃ r, (xs ++ f :: ys).flatMap ([',', ' '] ++ ·) = ',' :: r := by
      cases xs <;> exact ⟨_, rfl⟩
    exact ⟨x, ',', r, by rw [List.cons_append, Text.join_cons, hr],
      isWord_of_isIdentifier (hxs x (by simp)), .inr rfl⟩

theorem head_join (ys : List Text) (hxs : ∀ x ∈ xs, isIdentifier x = true) {f : Text}
    (hf : f.head? = some '\\') :
    Text.join [',', ' '] (xs ++ f :: ys) ≠ [] ∧
      ∀ d ∈ (Text.join [',', ' '] (xs ++ f :: ys)).head?, Text.isBlank d = false ∧ d ≠ '[' := by
  obtain ⟨w, c, r, htext, hw, hc⟩ := exists_join_eq ys hxs hf
  rw [htext]
  refine ⟨by simp, fun d hd => ?_⟩
  cases w with
  | nil =>
    obtain rfl : c = d := Option.some.inj hd
    rcases hc with rfl | rfl <;> decide
  | cons b w =>
    obtain rfl : b = d := Option.some.inj hd
    have hb := hw b (by simp)
    refine ⟨isBlank_of_isWordChar hb, ?_⟩
    rintro rfl
    exact absurd hb (by decide)

/-- The text of the names, without the blank that ends an escaped name at the end. -/
theorem exists_trim_join (hxs : ∀ x ∈ xs, isIdentifier x = true)
    (hys : ∀ y ∈ ys, isIdentifier y = true) (he : IsEscaped e) : ∃ f, (f = e ∨ f = e ++ [' ']) ∧
      Text.trim (Text.join [',', ' '] (xs ++ (e ++ [' ']) :: ys)) =
        Text.join [',', ' '] (xs ++ f :: ys) := by
  have hhead {f : Text} (hf : f.head? = some '\\') :
      ∀ c ∈ (Text.join [',', ' '] (xs ++ f :: ys)).head?, Text.isBlank c = false :=
    fun c hc => ((head_join ys hxs hf).2 c hc).1
  have hlast {ls : List Text} {l : Text} (hl : l ≠ []) (h : l.Trimmed) :
      ∀ c ∈ (Text.join [',', ' '] (ls ++ [l])).getLast?, Text.isBlank c = false := by
    have hjoin := Text.join_concat [',', ' '] [] l ls
    rw [List.nil_append] at hjoin
    rw [hjoin, List.getLast?_append_of_ne_nil _ hl]
    exact h.last
  rcases List.eq_nil_or_concat ys with rfl | ⟨init, y, rfl⟩
  · refine ⟨e, .inl rfl, ?_⟩
    have htrimmed : Text.Trimmed (Text.join [',', ' '] (xs ++ [e])) :=
      ⟨hhead he.head, hlast he.ne_nil he.trimmed⟩
    rw [Text.join_concat]
    simpa using Text.trim_blanks (s := []) (u := [' ']) (by decide) htrimmed (by decide)
  · refine ⟨e ++ [' '], .inr rfl, Text.Trimmed.trim_eq_self ⟨hhead ?_, ?_⟩⟩
    · rw [List.head?_append_of_ne_nil _ he.ne_nil]
      exact he.head
    · have hy := hys y (by simp)
      have hsplit : xs ++ (e ++ [' ']) :: (init ++ [y]) = xs ++ (e ++ [' ']) :: init ++ [y] := by
        simp
      rw [List.concat_eq_append, hsplit]
      exact hlast (ne_nil_of_isIdentifier hy) (Text.trimmed_of_isWord (isWord_of_isIdentifier hy))

theorem listed_join (hxs : ∀ x ∈ xs, isIdentifier x = true) (hys : ∀ y ∈ ys, isIdentifier y = true)
    (he : IsEscaped e) (hcomma : ',' ∉ e) {f : Text} (hf : f = e ∨ f = e ++ [' ']) :
    Declaration.listed (Text.join [',', ' '] (xs ++ f :: ys)) = xs ++ e :: ys := by
  have hword {x : Text} (hx : isIdentifier x = true) : ',' ∉ x ∧ Text.trim x = x ∧ x ≠ [] :=
    have hw := isWord_of_isIdentifier hx
    ⟨hw.not_mem (by decide), (Text.trimmed_of_isWord hw).trim_eq_self, ne_nil_of_isIdentifier hx⟩
  have hcommas : ∀ l ∈ xs ++ f :: ys, ',' ∉ l := by
    refine List.forall_mem_append.mpr ⟨fun x hx => (hword (hxs x hx)).1, ?_⟩
    refine List.forall_mem_cons.mpr ⟨?_, fun y hy => (hword (hys y hy)).1⟩
    rcases hf with rfl | rfl
    · exact hcomma
    · simpa using hcomma
  have htrim {zs : List Text} (hzs : ∀ z ∈ zs, isIdentifier z = true) : zs.map Text.trim = zs :=
    (List.map_congr_left fun z hz => (hword (hzs z hz)).2.1).trans (List.map_id zs)
  have hname : Text.trim f = e := by
    rcases hf with rfl | rfl
    · exact he.trimmed.trim_eq_self
    · exact he.trim_concat
  have hkept : ∀ l ∈ xs ++ e :: ys, l ≠ [] := by
    refine List.forall_mem_append.mpr ⟨fun x hx => (hword (hxs x hx)).2.2, ?_⟩
    exact List.forall_mem_cons.mpr ⟨he.ne_nil, fun y hy => (hword (hys y hy)).2.2⟩
  rw [Declaration.listed, Text.map_trim_splitOn_join (by simp) hcommas, List.map_append,
    List.map_cons, htrim hxs, htrim hys, hname]
  exact List.filter_eq_self.mpr fun l hl => by simpa using hkept l hl

theorem read?_join (hxs : ∀ x ∈ xs, isIdentifier x = true) (hys : ∀ y ∈ ys, isIdentifier y = true)
    (he : IsEscaped e) (hcomma : ',' ∉ e) :
    Declaration.read? (' ' :: (Text.join [',', ' '] (xs ++ (e ++ [' ']) :: ys) ++ [';'])) =
      some ⟨none, xs ++ e :: ys⟩ := by
  have hconcat : (e ++ [' ']).head? = some '\\' := by
    rw [List.head?_append_of_ne_nil _ he.ne_nil]
    exact he.head
  obtain ⟨f, hfe, htrim⟩ := exists_trim_join hxs hys he
  have hf : f.head? = some '\\' := by
    rcases hfe with rfl | rfl
    · exact he.head
    · exact hconcat
  obtain ⟨w, c, r, hjoin, hw, hc⟩ := exists_join_eq ys hxs hf
  have hkind {kind : Text} (hk : kind.IsWord) :
      Declaration.dropKind kind (w ++ c :: r) = w ++ c :: r := by
    refine Declaration.dropKind_eq_self hk hw ?_ (.inr ?_)
    · rcases hc with rfl | rfl <;> simp <;> decide
    · rcases hc with rfl | rfl <;> simp <;> decide
  have hrange : Declaration.splitRange? (Text.join [',', ' '] (xs ++ f :: ys)) =
      some (none, Text.join [',', ' '] (xs ++ f :: ys)) :=
    Declaration.splitRange?_eq_self fun hb => ((head_join ys hxs hf).2 _ hb).2 rfl
  have hnamed : (xs ++ e :: ys).all Declaration.isName = true := by
    obtain ⟨t, rfl⟩ := he.exists_cons
    refine List.all_eq_true.mpr (List.forall_mem_append.mpr ⟨fun x hx => ?_, ?_⟩)
    · exact Declaration.isName_of_isIdentifier (hxs x hx)
    · exact List.forall_mem_cons.mpr ⟨rfl, fun y hy =>
        Declaration.isName_of_isIdentifier (hys y hy)⟩
  simp only [Declaration.read?]
  rw [Declaration.body_cons_concat, htrim, hjoin, hkind (by decide), hkind (by decide), ← hjoin,
    hrange]
  simp only [Option.bind_eq_bind, Option.bind_some, listed_join hxs hys he hcomma hfe]
  exact if_pos ⟨by simp, hnamed⟩

/-- **A declaration** on one line is read as it is written, if neither a comma nor a comment mark
stands in the name. -/
theorem WireLine.exists_read (h : WireLine xs e ys line) (he : IsEscaped e) (hcomma : ',' ∉ e)
    (hu : e.Uncommented) (config : Config) :
    ∃ d, Phase.body.read config [line.coded] = (.body, [.declaration d]) ∧ d.kind = .wire ∧
      Declaration.read? d.text = some ⟨none, xs ++ e :: ys⟩ := by
  obtain ⟨hnames, indent, hindent, htext⟩ := h
  have hxs : ∀ x ∈ xs, isIdentifier x = true := fun x hx => hnames x (by simp [hx])
  have hys : ∀ y ∈ ys, isIdentifier y = true := fun y hy => hnames y (by simp [hy])
  have huncommented : Uncommented (Text.join [',', ' '] (xs ++ (e ++ [' ']) :: ys)) := by
    have hword {x : Text} (hx : isIdentifier x = true) : x.Uncommented :=
      Text.uncommented_of_not_mem ((isWord_of_isIdentifier hx).not_mem (by decide))
    refine uncommented_join (List.forall_mem_append.mpr ⟨fun x hx => hword (hxs x hx), ?_⟩)
    exact List.forall_mem_cons.mpr ⟨hu.append (by decide) (.inr (by decide)),
      fun y hy => hword (hys y hy)⟩
  have hread := read?_join hxs hys he hcomma
  generalize Text.join [',', ' '] (xs ++ (e ++ [' ']) :: ys) = row at *
  have hcoded : line.coded = (Phase.declarationWord .wire ++ ' ' :: (row ++ [';']), line) := by
    rw [Line.coded, htext, Dialect.code_of_uncommented hindent]
    · rfl
    · refine Text.trimmed_of_ends (c := 'w') (d := ';') rfl ?_ (by decide) (by decide)
      rw [← List.append_assoc, List.getLast?_concat]
    · have hbehind := huncommented.append (t := [';']) (by decide) (.inr (by decide))
      exact hbehind.append_left (by decide)
  have hadvance : Phase.body.advance config (Phase.declarationWord .wire ++ ' ' :: (row ++ [';']))
      line = _ := Phase.ofBody_declaration (by simp)
  refine ⟨⟨.wire, ' ' :: (row ++ [';']), line⟩, ?_, rfl, hread⟩
  rw [hcoded, Phase.read_cons, hadvance]
  rfl

/-! ### What is read -/

theorem IsEscaped.resolve (he : IsEscaped e) (config : Config) : config.resolve e = .ok ⟨e⟩ := by
  refine Config.resolve_eq_ok_iff.mpr (.inr ?_)
  rw [he.trimmed.trim_eq_self]
  obtain ⟨t, ht⟩ := he.exists_cons
  have hnamed : Signal.IsNamed ⟨e⟩ := ⟨'\\', t, ht, by decide, by decide, by decide⟩
  exact ⟨⟨he.ne_nil, hnamed.read?_eq_none, .inl he.head⟩, rfl⟩

/-- **Escaped names.** An escaped name with balanced brackets and without comment marks is read as
it is written from the connection of a gate on one line, together with the other connections, and it
is the name of a signal.  One without commas and comment marks is read as it is written from a
declaration on one line, together with the other names and with nothing else.  No other escaped name
is read from any file, be it from a connection or from a declaration. -/
theorem escaped_names (he : IsEscaped e) (config : Config) :
    config.resolve e = .ok ⟨e⟩ ∧
    (Connection.Closes 0 e → e.Uncommented → ∀ k n pin others line,
      GateLine k n pin e others line →
        ∃ g, Phase.body.read config [line.coded] = (.body, [.gate g]) ∧ g.keyword = k ∧
          g.name = n ∧ Connection.read g.lines = .ok (⟨pin, e, line⟩ :: others.map fun f =>
            ⟨f.pin, Text.trim f.reference, line⟩)) ∧
    (',' ∉ e → e.Uncommented → ∀ xs ys line, WireLine xs e ys line →
      ∃ d, Phase.body.read config [line.coded] = (.body, [.declaration d]) ∧ d.kind = .wire ∧
        Declaration.read? d.text = some ⟨none, xs ++ e :: ys⟩) ∧
    ∀ file : SourceFile, ∀ i ∈ file.items config,
      (∀ pin, i.Connects pin e → Connection.Closes 0 e ∧ e.Uncommented) ∧
        (⟨e⟩ ∈ i.wires → ',' ∉ e ∧ e.Uncommented) := by
  refine ⟨he.resolve config, fun hclose hu k n pin others line h => ?_,
    fun hcomma hu xs ys line h => ?_, fun file i hi => ?_⟩
  · exact h.exists_read he hclose hu config
  · exact h.exists_read he hcomma hu config
  · have hclear := SourceFile.clear_of_mem_items hi
    exact ⟨fun pin hc => hclear.of_connects hc, fun ha => hclear.of_mem_wires ha⟩

/-- The connection of the output of a module. -/
def outputFragment : Connection.Fragment :=
  .ofTexts "Z".toList [] "out_array[0]".toList (by decide)

/-- A line at no place. -/
def bareLine (t : String) : Line := { Line.none with text := t.toList }

/-- A gate with an escaped name that has brackets and a semicolon. -/
def bracketGate : Line := bareLine "  IV g0 (.A(\\a[0](b);c ), .Z(out_array[0]));"

def bracketWire : Line := bareLine "wire x, \\a[0](b);c , y;"

theorem escaped_names_bracketGate :
    (∃ g, Phase.body.read sampleConfig [bracketGate.coded] = (.body, [.gate g]) ∧
      ∃ cs, Connection.read g.lines = .ok cs ∧ cs.map (fun c => (c.pin, c.reference)) =
        [("A".toList, "\\a[0](b);c".toList), ("Z".toList, "out_array[0]".toList)]) ∧
    ∃ d, Phase.body.read sampleConfig [bracketWire.coded] = (.body, [.declaration d]) ∧
      Declaration.read? d.text =
        some ⟨none, ["x".toList, "\\a[0](b);c".toList, "y".toList]⟩ := by
  have he : IsEscaped "\\a[0](b);c".toList := by decide
  have hg : GateLine "IV".toList "g0".toList "A".toList "\\a[0](b);c".toList [outputFragment]
      bracketGate :=
    ⟨by decide +kernel, by decide, by decide, List.all_eq_true.mp (by decide), by decide +kernel,
      [' ', ' '], by decide, by decide +kernel⟩
  have hw : WireLine ["x".toList] "\\a[0](b);c".toList ["y".toList] bracketWire :=
    ⟨by decide, [], by decide, by decide +kernel⟩
  obtain ⟨-, hgate, hwire, -⟩ := escaped_names he sampleConfig
  obtain ⟨g, hread, -, -, hcs⟩ := hgate (by decide) (by decide +kernel) _ _ _ _ _ hg
  obtain ⟨d, hd, -, hnames⟩ := hwire (by decide) (by decide +kernel) _ _ _ hw
  exact ⟨⟨g, hread, _, hcs, by decide +kernel⟩, d, hd, hnames⟩

/-- A gate with an escaped name that has a closing bracket. -/
def closingGate : Line := bareLine "  IV g0 (.A(\\n)1 ), .Z(out_array[0]));"

/-- A module with that gate. -/
def closingFile : SourceFile := sampleModule [[String.ofList closingGate.text]]

/-- **Misread names.** The bracket in a name ends the connection, and the comma in a name the name;
so not all escaped names are read as they are written. -/
theorem not_forall_escaped_read :
    ((∃ f, (flatten sampleConfig closingFile).result = .ok f ∧ f.flat.wires = [⟨"\\n".toList⟩] ∧
        f.flat.assignments = [⟨⟨"out_array_0".toList⟩, .not (.signal ⟨"\\n".toList⟩)⟩]) ∧
      ∃ f, (flatten sampleConfig (sampleModule [["  wire \\a,b ;"]])).result = .ok f ∧
        f.flat.wires = [⟨"\\a".toList⟩, ⟨"b".toList⟩]) ∧
    ¬∀ (config : Config) (e : Text), IsEscaped e →
      (∀ k n pin others line, GateLine k n pin e others line →
        ∃ g, Phase.body.read config [line.coded] = (.body, [.gate g]) ∧
          (Item.gate g).Connects pin e) ∧
      ∀ xs ys line, WireLine xs e ys line →
        ∃ d, Phase.body.read config [line.coded] = (.body, [.declaration d]) ∧
          Declaration.read? d.text = some ⟨none, xs ++ e :: ys⟩ := by
  refine ⟨by decide +kernel, fun h => ?_⟩
  have he : IsEscaped "\\n)1".toList := by decide
  have hline : GateLine "IV".toList "g0".toList "A".toList "\\n)1".toList [outputFragment]
      closingGate :=
    ⟨by decide +kernel, by decide, by decide, List.all_eq_true.mp (by decide), by decide +kernel,
      [' ', ' '], by decide, by decide +kernel⟩
  obtain ⟨g, hread, hconnects⟩ := (h sampleConfig _ he).1 _ _ _ _ _ hline
  have hclear : ∀ i ∈ (Phase.body.read sampleConfig [closingGate.coded]).2, i.Clear :=
    Phase.Clear.read (p := .body) trivial
      (List.forall_mem_singleton.mpr (Dialect.uncommented_code closingGate.text)) sampleConfig
  rw [hread] at hclear
  obtain ⟨hclose, -⟩ := (hclear _ (List.mem_singleton_self _)).of_connects hconnects
  exact absurd hclose (by decide +kernel)

end NetFlat
