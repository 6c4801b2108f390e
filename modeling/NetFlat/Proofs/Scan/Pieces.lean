import NetFlat.Proofs.Scan.Coverage

/-!
# The pieces of a body

A file whose module is closed is cut into the lines up to its header, the pieces of the body, each of
them a silent line or the lines of one item, and the lines from the one that closes the module on.

* `Piece`: a piece of a body, given by the texts of its lines;
* `Phase.Pending.exists_pieces`: a row of lines that ends in the body;
* `SourceFile.exists_pieces`: a file.
-/

namespace NetFlat

variable {config : Config} {file : SourceFile}

/-- A piece of a body: a line that is blank or an attribute, or all lines of one item. -/
inductive Piece (config : Config) : List Text → Prop
  | silent {t : Text} (h : Dialect.Silent (Dialect.code t)) : Piece config [t]
  | item {b : List Text} {i : Item} (h : Phase.body.read config (codes b) = (.body, [i]))
      (made : i.MadeOf (codes b)) : Piece config b

theorem read_silent {t : Text} (h : Dialect.Silent (Dialect.code t)) :
    Phase.body.read config (codes [t]) = (.body, []) := by
  have ha : Phase.body.advance config (Dialect.code t) .none = (.body, none) := if_pos h
  rw [codes, List.map_singleton, Phase.read_cons, ha]
  rfl

theorem Piece.whole {b : List Text} (h : Piece config b) :
    (Phase.body.read config (codes b)).1 = .body := by
  cases h with
  | silent h => rw [read_silent h]
  | item h made => rw [h]

/-- **Pieces of a row of lines** that ends in the body. -/
theorem Phase.Pending.exists_pieces {p : Phase} {block ls : List Text}
    (hp : p.Pending (codes block)) (hb : Phase.body.read config (codes block) = (p, []))
    (hc : ∀ t ∈ ls, ¬Dialect.Closes (Dialect.code t))
    (he : (p.read config (codes ls)).1 = .body) :
    ∃ bs : List (List Text), block ++ ls = bs.flatten ∧ ∀ b ∈ bs, Piece config b := by
  -- the block grows until its statement ends, and it is empty again behind it
  induction ls generalizing p block with
  | nil =>
    obtain rfl : p = .body := he
    have hnil : codes block = [] := by
      generalize codes block = ms at hp
      cases hp
      rfl
    exact ⟨[], by simpa [codes] using hnil, by simp⟩
  | cons t ls ih =>
    have hls : ∀ u ∈ ls, ¬Dialect.Closes (Dialect.code u) := fun u hu => hc u (by simp [hu])
    have hblock : codes (block ++ [t]) = codes block ++ [(Dialect.code t, .none)] :=
      codes_append block [t]
    have hread : Phase.body.read config (codes (block ++ [t])) =
        p.read config [(Dialect.code t, .none)] := by
      rw [hblock, read_append, hb]
      rfl
    have hstart : Phase.body.read config (codes []) = (.body, []) := rfl
    have hempty : Phase.body.Pending (codes []) := .body
    have hcut : block ++ t :: ls = block ++ [t] ++ ls := by simp
    change (p.read config ((Dialect.code t, .none) :: codes ls)).1 = .body at he
    rw [read_cons] at he hread
    rw [hcut]
    rcases hp.advance config (Dialect.code t, .none) (hc t (by simp)) with
      ⟨ha, hnil, hs⟩ | ⟨q, ha, hq⟩ | ⟨i, ha, hi⟩
    · rw [ha] at he
      obtain ⟨bs, hbs, hpieces⟩ := ih hempty hstart hls he
      obtain rfl : block = [] := by simpa [codes] using hnil
      refine ⟨[t] :: bs, by simpa using hbs, List.forall_mem_cons.mpr ⟨.silent hs, hpieces⟩⟩
    · rw [ha] at he hread
      rw [← hblock] at hq
      exact ih hq hread hls he
    · rw [ha] at he hread
      rw [← hblock] at hi
      obtain ⟨bs, hbs, hpieces⟩ := ih hempty hstart hls he
      refine ⟨(block ++ [t]) :: bs, ?_, List.forall_mem_cons.mpr ⟨.item hread hi, hpieces⟩⟩
      rw [List.flatten_cons, ← hbs, List.nil_append]

/-- **The pieces of a file** whose module is closed. -/
theorem SourceFile.exists_pieces (h : file.Closes config) :
    ∃ (head : List Text) (pieces : List (List Text)) (closing : Text) (after : List Text),
      file.Cut config head pieces (closing :: after) ∧
        (Phase.seeking.read config (codes head)).2 = [] ∧ (∀ b ∈ pieces, Piece config b) ∧
          Dialect.Closes (Dialect.code closing) := by
  obtain ⟨L, hL, hl⟩ := exists_layout h
  have hbody : (Phase.body.read config L.body).1 = .body := (hL.closes_iff hl).mp h
  have hhead : Phase.seeking.read config (L.before ++ L.header) = (.body, []) := by
    rw [Phase.read_append, Phase.read_seeking hL.before, Layout.header,
      Phase.read_header hL.heads hL.opening hL.entry]
    rfl
  have hlines : file.lines.map Line.coded =
      (L.before ++ L.header) ++ (L.body ++ (L.closing :: L.after)) := by
    rw [← SourceFile.coded, hl]
    simp [Layout.lines, Layout.moduleLines]
  -- the lines of the file are cut where their code is
  obtain ⟨head, rest, hcut, hcodedHead, hrest⟩ := List.map_eq_append_iff.mp hlines
  obtain ⟨body, rest, rfl, hcodedBody, hrest⟩ := List.map_eq_append_iff.mp hrest
  obtain ⟨closing, after, rfl, hcodedClosing, -⟩ := List.map_eq_cons_iff.mp hrest
  have hreadHead := read_codes_map_text config .seeking head
  have hreadBody := read_codes_map_text config .body body
  rw [hcodedHead, hhead] at hreadHead
  rw [hcodedBody, hbody] at hreadBody
  have hopen : ∀ t ∈ body.map Line.text, ¬Dialect.Closes (Dialect.code t) := by
    intro t ht
    obtain ⟨l, hl, rfl⟩ := List.mem_map.mp ht
    exact hL.body l.coded (hcodedBody ▸ List.mem_map_of_mem hl)
  have hempty : Phase.body.Pending (codes []) := .body
  have hstart : Phase.body.read config (codes []) = (.body, []) := rfl
  obtain ⟨pieces, hpieces, hp⟩ := hempty.exists_pieces hstart hopen (congrArg Prod.fst hreadBody)
  refine ⟨head.map Line.text, pieces, closing.text, after.map Line.text,
    ⟨?_, congrArg Prod.fst hreadHead, fun b hb => (hp b hb).whole⟩, congrArg Prod.snd hreadHead,
    hp, ?_⟩
  · rw [← hpieces, hcut]
    simp
  · show Dialect.Closes closing.coded.1
    rw [hcodedClosing]
    exact hL.closing

end NetFlat
