import NetFlat.Proofs.Gate.Brackets

/-!
# Written connections are read back

The lines of an instance in which connections stand, each with a text without dots behind it, are
read as exactly these connections, in their order, each at the line of its dot.

* `Fragment`: a written connection;
* `lineAt?`: the line of an offset of joined lines;
* `exists_readAll_fragments`: what the reader makes of a row of connections;
* `read_fragments`: what it makes of the lines of an instance;
* `read_line`: the same for connections between commas on one line.
-/

namespace NetFlat.Connection

/-- A written connection: a pin, white space, and a reference with balanced brackets. -/
structure Fragment where
  pin : Text
  gap : Text
  reference : Text
  pin_ne_nil : pin ≠ []
  pin_chars : ∀ c ∈ pin, isPinChar c = true
  gap_blank : ∀ c ∈ gap, Text.isAsciiBlank c = true
  closes : Closes 0 reference

def Fragment.ofTexts (pin gap reference : Text) (h : pin ≠ [] ∧ pin.all isPinChar = true ∧
    gap.all Text.isAsciiBlank = true ∧ Closes 0 reference) : Fragment :=
  ⟨pin, gap, reference, h.1, List.all_eq_true.mp h.2.1, List.all_eq_true.mp h.2.2.1, h.2.2.2⟩

def Fragment.text (f : Fragment) : Text :=
  '.' :: (f.pin ++ (f.gap ++ '(' :: (f.reference ++ [')'])))

/-- The text of connections with what stands behind each of them. -/
def fragmentsText (fs : List (Fragment × Text)) : Text := fs.flatMap fun p => p.1.text ++ p.2

/-- The connections with the offsets of their dots; the first one is given. -/
def located : Nat → List (Fragment × Text) → List (Fragment × Nat)
  | _, [] => []
  | n, (f, s) :: fs => (f, n) :: located (n + (f.text ++ s).length) fs

/-- The line of an offset of the lines joined by line feeds, each of which is on the line that it
ends. -/
def lineAt? : List (Text × Line) → Nat → Option Line
  | [], _ => none
  | (t, l) :: lines, n => if n ≤ t.length then some l else lineAt? lines (n - (t.length + 1))

variable {lines : List (Text × Line)} {ps : List Placement} {fs : List (Fragment × Text)}
  {head lead last : Text}

/-! ### Offsets -/

theorem located_add (m n : Nat) (fs : List (Fragment × Text)) :
    located (m + n) fs = (located n fs).map fun p => (p.1, m + p.2) := by
  induction fs generalizing n with
  | nil => rfl
  | cons p fs ih =>
    rw [located, located, List.map_cons, Nat.add_assoc, ih]

theorem map_fst_located (n : Nat) (fs : List (Fragment × Text)) :
    (located n fs).map Prod.fst = fs.map Prod.fst := by
  induction fs generalizing n with
  | nil => rfl
  | cons p fs ih => rw [located, List.map_cons, List.map_cons, ih]

theorem ofLines_eq_join {ls : List Text} (hne : ls ≠ []) :
    Text.ofLines ls = Text.join ['\n'] ls ++ ['\n'] := by
  induction ls with
  | nil => exact absurd rfl hne
  | cons l ls ih =>
    cases ls with
    | nil => simp [Text.ofLines, Text.join]
    | cons k ls =>
      have hjoin : Text.join ['\n'] (l :: k :: ls) = l ++ ['\n'] ++ Text.join ['\n'] (k :: ls) := by
        simp [Text.join, List.intercalate]
      rw [hjoin, List.append_assoc, ← ih (by simp)]
      rfl

theorem map_char_placements (lines : List (Text × Line)) :
    (placements lines).map Placement.char = Text.ofLines (lines.map Prod.fst) := by
  simp [placements, Text.ofLines, List.map_flatMap, List.flatMap_map, Function.comp_def]

theorem map_line_placements (lines : List (Text × Line)) (n : Nat) :
    (placements lines)[n]?.map Placement.line = lineAt? lines n := by
  induction lines generalizing n with
  | nil => simp [placements, lineAt?]
  | cons p lines ih =>
    obtain ⟨t, l⟩ := p
    have hcons : placements ((t, l) :: lines) =
        (t ++ ['\n']).map (fun c => ⟨c, l⟩) ++ placements lines := rfl
    rw [hcons, lineAt?]
    split
    · next hn =>
      have hlt : n < (t ++ ['\n']).length := by
        rw [List.length_append, List.length_singleton]
        omega
      rw [List.getElem?_append_left (by rwa [List.length_map]), List.getElem?_map,
        List.getElem?_eq_getElem hlt]
      rfl
    · next hn =>
      rw [List.getElem?_append_right (by simp; omega), ih]
      simp

/-! ### Reading -/

/-- **One connection** is read, with the line of its first character. -/
theorem Fragment.exists_readAll (f : Fragment) {us : List Placement}
    (hus : us.map Placement.char = f.text) (ps : List Placement) :
    ∃ dot us', us = dot :: us' ∧ readAll (us ++ ps) =
      (readAll ps).map (⟨f.pin, Text.trim f.reference, dot.line⟩ :: ·) := by
  obtain ⟨dot, us, rfl, hdot, hus⟩ := List.map_eq_cons_iff.mp hus
  obtain ⟨pin, us, rfl, hpin, hus⟩ := List.map_eq_append_iff.mp hus
  obtain ⟨gap, us, rfl, hgap, hus⟩ := List.map_eq_append_iff.mp hus
  obtain ⟨opening, us, rfl, hopen, hus⟩ := List.map_eq_cons_iff.mp hus
  obtain ⟨reference, us, rfl, href, hus⟩ := List.map_eq_append_iff.mp hus
  obtain ⟨closing, us, rfl, hclose, hus⟩ := List.map_eq_cons_iff.mp hus
  obtain rfl := List.map_eq_nil_iff.mp hus
  refine ⟨dot, _, rfl, ?_⟩
  have hall {p : Char → Bool} {qs : List Placement} {u : Text} (hqs : qs.map Placement.char = u)
      (hu : ∀ c ∈ u, p c = true) : ∀ q ∈ qs, p q.char = true := by
    intro q hq
    exact hu _ (hqs ▸ List.mem_map_of_mem hq)
  have hne : pin ≠ [] := by
    rintro rfl
    exact f.pin_ne_nil hpin.symm
  have hbalanced : Balanced (reference.map Placement.char) := by
    rw [href]
    exact balanced_iff.mpr f.closes
  have hread : readAll (dot :: (pin ++ (gap ++ opening :: (reference ++ closing :: ps)))) = _ :=
    readAll_connection hdot hne (hall hpin f.pin_chars) (hall hgap f.gap_blank) hopen hbalanced
      hclose
  rw [hpin, href] at hread
  rw [← hread]
  simp

/-- **A row of connections** is read, each with the line of its first character. -/
theorem exists_readAll_fragments (hlead : '.' ∉ lead) (hfs : ∀ p ∈ fs, '.' ∉ p.2)
    (hlast : '.' ∉ last) (hps : ps.map Placement.char = lead ++ fragmentsText fs ++ last) :
    ∃ cs, readAll ps = .ok cs ∧ cs.map (fun c => (c.pin, c.reference, some c.line)) =
      (located lead.length fs).map fun p =>
        (p.1.pin, Text.trim p.1.reference, ps[p.2]?.map Placement.line) := by
  induction fs generalizing lead ps with
  | nil =>
    have hskip : readAll (ps ++ []) = readAll [] := by
      refine readAll_skip fun q hq hdot => ?_
      have hmem : '.' ∈ lead ++ last := by
        rw [← hdot]
        simpa [fragmentsText, hps] using List.mem_map_of_mem (f := Placement.char) hq
      rcases List.mem_append.mp hmem with h | h
      · exact hlead h
      · exact hlast h
    rw [List.append_nil, readAll_nil] at hskip
    exact ⟨[], hskip, rfl⟩
  | cons p fs ih =>
    obtain ⟨f, s⟩ := p
    have hps' : ps.map Placement.char = lead ++ (f.text ++ (s ++ fragmentsText fs ++ last)) := by
      rw [hps]
      simp [fragmentsText]
    obtain ⟨qs, r, rfl, hqs, hr⟩ := List.map_eq_append_iff.mp hps'
    obtain ⟨us, r, rfl, hus, hr⟩ := List.map_eq_append_iff.mp hr
    obtain ⟨cs, hread, hcs⟩ := ih (hfs (f, s) (by simp)) (fun p hp => hfs p (by simp [hp])) hr
    have hskip : readAll (qs ++ (us ++ r)) = readAll (us ++ r) := by
      refine readAll_skip fun q hq h => hlead ?_
      rw [← hqs, ← h]
      exact List.mem_map_of_mem hq
    obtain ⟨dot, us', he, hconnection⟩ := f.exists_readAll hus r
    refine ⟨⟨f.pin, Text.trim f.reference, dot.line⟩ :: cs, ?_, ?_⟩
    · rw [hskip, hconnection, hread]
      rfl
    · have hlen : qs.length = lead.length := by rw [← hqs, List.length_map]
      have htext : us.length = f.text.length := by rw [← hus, List.length_map]
      have hfirst : (qs ++ (us ++ r))[lead.length]? = some dot := by
        rw [List.getElem?_append_right (by omega), hlen, Nat.sub_self, he]
        rfl
      -- the other dots stand further on, by what this connection takes
      have hrest (n : Nat) : (qs ++ (us ++ r))[lead.length + f.text.length + n]? = r[n]? := by
        rw [List.getElem?_append_right (by omega), List.getElem?_append_right (by omega)]
        congr 1
        omega
      have hlocated : located (lead.length + (f.text ++ s).length) fs =
          (located s.length fs).map fun p => (p.1, lead.length + f.text.length + p.2) := by
        rw [List.length_append, ← Nat.add_assoc, located_add]
      rw [located, hlocated, List.map_cons, List.map_cons, hcs, hfirst, List.map_map]
      simp [Function.comp_def, hrest]

/-- **The lines of an instance** are read from the first opening bracket on. -/
theorem exists_read_fragments (hhead : '(' ∉ head) (hlead : '.' ∉ lead)
    (hfs : ∀ p ∈ fs, '.' ∉ p.2) (hlast : '.' ∉ last)
    (h : (placements lines).map Placement.char =
      head ++ '(' :: (lead ++ fragmentsText fs ++ last)) :
    ∃ cs, read lines = .ok cs ∧ cs.map (fun c => (c.pin, c.reference, some c.line)) =
      (located (head.length + 1 + lead.length) fs).map fun p =>
        (p.1.pin, Text.trim p.1.reference, lineAt? lines p.2) := by
  obtain ⟨qs, r, hps, hqs, hr⟩ := List.map_eq_append_iff.mp h
  obtain ⟨opening, ps, rfl, hopen, hr⟩ := List.map_eq_cons_iff.mp hr
  have hdrop : (placements lines).dropWhile (·.char ≠ '(') = opening :: ps := by
    rw [hps, List.dropWhile_append_of_pos]
    · simp [hopen]
    · intro q hq
      have hne : q.char ≠ '(' := by
        intro he
        refine hhead ?_
        rw [← hqs, ← he]
        exact List.mem_map_of_mem hq
      simpa using hne
  obtain ⟨cs, hread, hcs⟩ := exists_readAll_fragments hlead hfs hlast hr
  refine ⟨cs, by rw [read, hdrop]; exact hread, ?_⟩
  rw [hcs, located_add, List.map_map]
  refine List.map_congr_left fun p _ => ?_
  have hline : ps[p.2]?.map Placement.line = lineAt? lines (head.length + 1 + p.2) := by
    rw [← map_line_placements, hps, List.getElem?_append_right (by simp [← hqs, Nat.add_assoc])]
    have hoffset : head.length + 1 + p.2 - qs.length = p.2 + 1 := by
      rw [← hqs, List.length_map]
      omega
    rw [hoffset, List.getElem?_cons_succ]
  simp only [Function.comp_apply, hline]

/-- **Written connections are read back.** Let the lines of an instance, joined by line feeds, be a
text without opening brackets, an opening bracket, and connections with texts without dots in front
of them, between them and behind them.  Then exactly these connections are read, in their order,
their references without the white space around them, each at the line of its dot. -/
theorem read_fragments (hhead : '(' ∉ head) (hlead : '.' ∉ lead) (hfs : ∀ p ∈ fs, '.' ∉ p.2)
    (h : Text.join ['\n'] (lines.map Prod.fst) = head ++ '(' :: (lead ++ fragmentsText fs)) :
    ∃ cs, read lines = .ok cs ∧ cs.map (fun c => (c.pin, c.reference, some c.line)) =
      (located (head.length + 1 + lead.length) fs).map fun p =>
        (p.1.pin, Text.trim p.1.reference, lineAt? lines p.2) := by
  have hne : lines.map Prod.fst ≠ [] := by
    intro hnil
    rw [hnil] at h
    simp [Text.join] at h
  have hfeed : '.' ∉ ['\n'] := by decide
  refine exists_read_fragments hhead hlead hfs hfeed ?_
  rw [map_char_placements, ofLines_eq_join hne, h]
  simp

/-- A connection over two lines to an expression with brackets and a dot, and another one with a
blank behind its pin. -/
def sampleFragments : List (Fragment × Text) :=
  [(.ofTexts "A".toList [] "\n f(a.b) ".toList (by decide), "), ".toList),
    (.ofTexts "Z_1".toList [' '] "y".toList (by decide), ");".toList)]

/-- The lines of an instance with these connections. -/
def sampleLines : List (Text × Line) :=
  [("AND \\u.g (.A(".toList, { Line.none with number := 10 }),
    (" f(a.b) )), .Z_1 (y));".toList, { Line.none with number := 11 })]

theorem read_fragments_sampleFragments : ∃ cs, read sampleLines = .ok cs ∧
    cs.map (fun c => (c.pin, c.reference, c.line.number)) =
      [("A".toList, "f(a.b)".toList, 10), ("Z_1".toList, "y".toList, 11)] := by
  have hjoin : Text.join ['\n'] (sampleLines.map Prod.fst) =
      "AND \\u.g ".toList ++ '(' :: ([] ++ fragmentsText sampleFragments) := by
    decide
  obtain ⟨cs, hread, hcs⟩ := read_fragments (by decide) (by decide) (by decide) hjoin
  refine ⟨cs, hread, ?_⟩
  have hnumbers := congrArg (List.map fun p => (p.1, p.2.1, (p.2.2.map Line.number).getD 0)) hcs
  rw [List.map_map] at hnumbers
  refine hnumbers.trans ?_
  decide

/-! ### Connections on one line -/

/-- Connections between commas are connections with a text without dots behind each of them. -/
theorem exists_fragmentsText (f : Fragment) (fs : List Fragment) :
    ∃ ps, Text.join [',', ' '] ((f :: fs).map Fragment.text) = fragmentsText ps ∧
      ps.map Prod.fst = f :: fs ∧ ∀ p ∈ ps, '.' ∉ p.2 := by
  induction fs generalizing f with
  | nil => exact ⟨[(f, [])], by simp [fragmentsText, Text.join], rfl, by simp⟩
  | cons g fs ih =>
    obtain ⟨ps, htext, hfs, hps⟩ := ih g
    refine ⟨(f, [',', ' ']) :: ps, ?_, by rw [List.map_cons, hfs], ?_⟩
    · rw [List.map_cons, Text.join_cons, List.map_cons, List.flatMap_cons] at *
      rw [fragmentsText, List.flatMap_cons, ← fragmentsText, ← htext]
      simp
    · exact List.forall_mem_cons.mpr ⟨by simp, hps⟩

theorem read_line (line : Line) (hhead : '(' ∉ head) (f : Fragment) (fs : List Fragment)
    (hlast : '.' ∉ last) :
    read [(head ++ '(' :: (Text.join [',', ' '] ((f :: fs).map Fragment.text) ++ last), line)] =
      .ok ((f :: fs).map fun f => ⟨f.pin, Text.trim f.reference, line⟩) := by
  obtain ⟨ps, htext, hfs, hps⟩ := exists_fragmentsText f fs
  rw [htext]
  have hchars : (placements [(head ++ '(' :: (fragmentsText ps ++ last), line)]).map
      Placement.char = head ++ '(' :: ([] ++ fragmentsText ps ++ (last ++ ['\n'])) := by
    rw [map_char_placements]
    simp [Text.ofLines]
  obtain ⟨cs, hread, hcs⟩ := exists_read_fragments hhead (by simp) hps (by simpa using hlast) hchars
  rw [hread]
  have hpairs : cs.map (fun c => (c.pin, c.reference)) =
      (f :: fs).map fun f => (f.pin, Text.trim f.reference) := by
    have := congrArg (List.map fun p : Text × Text × Option Line => (p.1, p.2.1)) hcs
    rw [List.map_map, List.map_map] at this
    rw [← hfs, ← map_fst_located, List.map_map]
    exact this
  have hline : ∀ c ∈ cs, c.line = line := by
    intro c hc
    simpa using line_of_read_eq_ok hread hc
  have hmake : (cs.map fun c => (c.pin, c.reference)).map (fun p => ⟨p.1, p.2, line⟩) = cs := by
    rw [List.map_map]
    refine (List.map_congr_left fun c hc => ?_).trans (List.map_id cs)
    rw [Function.comp_apply, ← hline c hc]
    rfl
  rw [← hmake, hpairs, List.map_map]
  rfl

end NetFlat.Connection
