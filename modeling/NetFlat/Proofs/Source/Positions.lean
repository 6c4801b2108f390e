import NetFlat.Proofs.Bytes.Text
import NetFlat.Proofs.Source.Lines

/-!
# Positions of offsets

The position of an offset is found among the offsets at which lines start.  From one offset to the
next it goes on by a column or, behind a line feed, to the next line.  So it counts the line feeds
in front of the offset, and the bytes since the last of them.

* `SourceFile.succ_mem_lineStarts_iff`: where lines start;
* `SourceFile.position_succ`: from one offset to the next;
* `SourceFile.position_eq`, `SourceFile.position_mono`: all offsets of a file.
-/

namespace NetFlat

open Text (byteSize bytes byteOf)

/-! ### Bytes since a line feed -/

def Text.sinceFeed (bs : List UInt8) : List UInt8 :=
  (bs.reverse.takeWhile (· ≠ byteOf '\n')).reverse

namespace Text

variable {t u : Text} {b : UInt8} {bs cs : List UInt8}

theorem sinceFeed_concat_feed (bs : List UInt8) : sinceFeed (bs ++ [byteOf '\n']) = [] := by
  simp [sinceFeed]

theorem sinceFeed_append (bs : List UInt8) (h : byteOf '\n' ∉ cs) :
    sinceFeed (bs ++ cs) = sinceFeed bs ++ cs := by
  have hall : ∀ b ∈ cs.reverse, decide (b ≠ byteOf '\n') = true := by
    intro b hb
    rw [decide_eq_true_eq]
    rintro rfl
    exact h (List.mem_reverse.mp hb)
  rw [sinceFeed, List.reverse_append, List.takeWhile_append_of_pos hall, List.reverse_append,
    List.reverse_reverse, sinceFeed]

theorem length_sinceFeed_le (bs : List UInt8) : (sinceFeed bs).length ≤ bs.length := by
  have hle := (List.takeWhile_prefix (l := bs.reverse) fun b => b ≠ byteOf '\n').length_le
  rw [List.length_reverse] at hle
  rwa [sinceFeed, List.length_reverse]

theorem feed_mem_bytes_iff : byteOf '\n' ∈ bytes t ↔ '\n' ∈ t := by
  have hfeed (c : Char) : byteOf '\n' ∈ String.utf8EncodeChar c ↔ c = '\n' :=
    mem_encode_iff (by decide)
  simp [bytes, hfeed]

theorem count_feed_bytes (t : Text) : (bytes t).count (byteOf '\n') = t.count '\n' := by
  induction t with
  | nil => rfl
  | cons c t ih =>
    rw [bytes_cons, List.count_append, ih, List.count_cons, Nat.add_comm]
    by_cases hc : c = '\n'
    · subst hc
      rfl
    · have hnot : byteOf '\n' ∉ String.utf8EncodeChar c :=
        fun hm => hc ((mem_encode_iff (by decide)).mp hm)
      rw [List.count_eq_zero.mpr hnot, if_neg (by simpa using hc)]

theorem getElem?_bytes_cons_feed {c : Char} {i : Nat} :
    (bytes (c :: t))[i]? = some (byteOf '\n') ↔
      c = '\n' ∧ i = 0 ∨ ∃ j, i = c.utf8Size + j ∧ (bytes t)[j]? = some (byteOf '\n') := by
  have hlen := String.length_utf8EncodeChar c
  rw [bytes_cons]
  by_cases hi : i < c.utf8Size
  · rw [List.getElem?_append_left (by omega)]
    constructor
    · intro h
      obtain rfl : c = '\n' := (mem_encode_iff (by decide)).mp (List.mem_of_getElem? h)
      rw [utf8Size_of_lt (by decide)] at hi
      exact .inl ⟨rfl, by omega⟩
    · rintro (⟨rfl, rfl⟩ | ⟨j, rfl, -⟩)
      · rfl
      · omega
  · obtain ⟨j, rfl⟩ := Nat.exists_eq_add_of_le (Nat.le_of_not_lt hi)
    rw [List.getElem?_append_right (by omega), hlen, Nat.add_sub_cancel_left]
    have hpos := c.utf8Size_pos
    constructor
    · exact fun h => .inr ⟨j, rfl, h⟩
    · rintro (⟨-, hj⟩ | ⟨k, hk, h⟩)
      · omega
      · rwa [Nat.add_left_cancel hk]

end Text

namespace SourceFile

variable {file : SourceFile} {i k n o : Nat} {t : Text} {b : UInt8}

/-! ### Where lines start -/

theorem le_of_mem_offsets {ts : List Text} (h : n ∈ offsets k ts) : k ≤ n := by
  induction ts generalizing k with
  | nil => simp [offsets] at h
  | cons t ts ih =>
    rcases List.mem_cons.mp h with rfl | h
    · exact Nat.le_refl _
    · have := ih h
      omega

theorem pairwise_offsets (k : Nat) (ts : List Text) : (offsets k ts).Pairwise (· < ·) := by
  induction ts generalizing k with
  | nil => exact .nil
  | cons t ts ih =>
    refine List.pairwise_cons.mpr ⟨fun n hn => ?_, ih _⟩
    have := le_of_mem_offsets hn
    omega

/-- The offsets behind the first one, by the first character of the text. -/
theorem tail_offsets_cons (k : Nat) (c : Char) (t : Text) :
    (offsets k ((c :: t).splitOn '\n')).tail =
      if c = '\n' then (k + 1) :: (offsets (k + 1) (t.splitOn '\n')).tail
      else (offsets (k + c.utf8Size) (t.splitOn '\n')).tail := by
  obtain ⟨u, us, hu⟩ := List.exists_cons_of_ne_nil (List.splitOn_ne_nil '\n' t)
  rw [List.splitOn_cons_eq_if_modifyHead, hu]
  by_cases hc : c = '\n'
  · rw [if_pos (by simpa using hc), if_pos hc]
    rfl
  · rw [if_neg (by simpa using hc), if_neg hc, List.modifyHead_cons]
    simp only [offsets, List.tail_cons, Text.byteSize_cons, ← Nat.add_assoc]

/-- Besides the first, the pieces of a text start behind the bytes that are line feeds. -/
theorem mem_tail_offsets_iff : n ∈ (offsets k (t.splitOn '\n')).tail ↔
    ∃ i, n = k + i + 1 ∧ (bytes t)[i]? = some (byteOf '\n') := by
  induction t generalizing k with
  | nil => simp [offsets]
  | cons c t ih =>
    simp only [Text.getElem?_bytes_cons_feed]
    rw [tail_offsets_cons]
    split
    · next hc =>
      rw [List.mem_cons, ih, hc, Text.utf8Size_of_lt (by decide)]
      constructor
      · rintro (rfl | ⟨i, rfl, hi⟩)
        · exact ⟨0, rfl, .inl ⟨rfl, rfl⟩⟩
        · exact ⟨1 + i, by omega, .inr ⟨i, rfl, hi⟩⟩
      · rintro ⟨i, rfl, ⟨-, rfl⟩ | ⟨j, rfl, hj⟩⟩
        · exact .inl rfl
        · exact .inr ⟨j, by omega, hj⟩
    · next hc =>
      rw [ih]
      constructor
      · rintro ⟨i, rfl, hi⟩
        exact ⟨c.utf8Size + i, by omega, .inr ⟨i, rfl, hi⟩⟩
      · rintro ⟨i, rfl, ⟨rfl, -⟩ | ⟨j, rfl, hj⟩⟩
        · exact absurd rfl hc
        · exact ⟨j, by omega, hj⟩

theorem offsets_splitOn (k : Nat) (t : Text) :
    offsets k (t.splitOn '\n') = k :: (offsets k (t.splitOn '\n')).tail := by
  obtain ⟨u, us, hu⟩ := List.exists_cons_of_ne_nil (List.splitOn_ne_nil '\n' t)
  rw [hu]
  rfl

theorem lineStarts_eq_cons (file : SourceFile) :
    file.lineStarts = 0 :: (offsets 0 (file.content.splitOn '\n')).tail := offsets_splitOn 0 _

/-- **Where lines start**: in front, and behind each line feed. -/
theorem succ_mem_lineStarts_iff :
    o + 1 ∈ file.lineStarts ↔ (bytes file.content)[o]? = some (byteOf '\n') := by
  rw [lineStarts_eq_cons, List.mem_cons, mem_tail_offsets_iff]
  constructor
  · rintro (h | ⟨i, hi, hb⟩)
    · omega
    · obtain rfl : o = i := by omega
      exact hb
  · exact fun hb => .inr ⟨o, by omega, hb⟩

/-! ### From one offset to the next -/

/-- In an ascending list there is one more number up to the next bound, or none. -/
theorem filter_le_succ {ns : List Nat} (h : ns.Pairwise (· < ·)) (o : Nat) :
    ns.filter (· ≤ o + 1) = ns.filter (· ≤ o) ++ if o + 1 ∈ ns then [o + 1] else [] := by
  induction ns with
  | nil => rfl
  | cons n ns ih =>
    obtain ⟨hn, hns⟩ := List.pairwise_cons.mp h
    have hlater (m : Nat) (hm : m ≤ n) : ns.filter (· ≤ m) = [] := by
      refine List.filter_eq_nil_iff.mpr fun p hp => ?_
      have := hn p hp
      simp only [decide_eq_true_eq]
      omega
    rcases Nat.lt_trichotomy n (o + 1) with hlt | rfl | hgt
    · have hmem : o + 1 ∈ n :: ns ↔ o + 1 ∈ ns := by
        rw [List.mem_cons, or_iff_right (by omega)]
      have hle : n ≤ o := Nat.le_of_lt_succ hlt
      rw [List.filter_cons_of_pos (by simpa using hlt.le), List.filter_cons_of_pos (by simpa using hle),
        ih hns, List.cons_append]
      simp only [hmem]
    · rw [List.filter_cons_of_pos (by simp), List.filter_cons_of_neg (by simp),
        hlater _ (Nat.le_refl _), hlater o (by omega), if_pos List.mem_cons_self]
      rfl
    · have hnot : o + 1 ∉ n :: ns := by
        rintro hm
        rcases List.mem_cons.mp hm with rfl | hm
        · omega
        · have := hn _ hm
          omega
      rw [List.filter_cons_of_neg (by simpa using hgt), List.filter_cons_of_neg (by simp; omega),
        hlater _ hgt.le, hlater o (by omega), if_neg hnot]
      rfl

theorem position_zero (file : SourceFile) : file.position 0 = (1, 1) := by
  have hrest : ((offsets 0 (file.content.splitOn '\n')).tail).filter (· ≤ 0) = [] := by
    refine List.filter_eq_nil_iff.mpr fun n hn => ?_
    obtain ⟨i, rfl, -⟩ := mem_tail_offsets_iff.mp hn
    simp
  simp only [position]
  rw [lineStarts_eq_cons, List.filter_cons_of_pos (by simp), hrest]
  rfl

/-- **One byte** is a column, or it ends the line. -/
theorem position_succ (hb : (bytes file.content)[o]? = some b) :
    file.position (o + 1) = if b = byteOf '\n' then ((file.position o).1 + 1, 1)
      else ((file.position o).1, (file.position o).2 + 1) := by
  have hstart : o + 1 ∈ file.lineStarts ↔ b = byteOf '\n' := by
    rw [succ_mem_lineStarts_iff, hb, Option.some.injEq]
  have hle : (file.lineStarts.filter (· ≤ o)).getLast?.getD 0 ≤ o := by
    cases hl : (file.lineStarts.filter (· ≤ o)).getLast? with
    | none => exact Nat.zero_le o
    | some n =>
      have := (List.mem_filter.mp (List.mem_of_getLast? hl)).2
      exact of_decide_eq_true this
  have hsorted : file.lineStarts.Pairwise (· < ·) := pairwise_offsets 0 _
  simp only [position]
  rw [filter_le_succ hsorted]
  by_cases hfeed : b = byteOf '\n'
  · rw [if_pos (hstart.mpr hfeed), if_pos hfeed, List.getLast?_concat, List.length_append]
    simp
  · rw [if_neg (fun h => hfeed (hstart.mp h)), if_neg hfeed, List.append_nil]
    simp only [Prod.mk.injEq, true_and]
    omega

/-! ### All offsets -/

/-- **The position of an offset** counts the line feeds in front of it, and the bytes since the last
of them. -/
theorem position_eq (h : o ≤ byteSize file.content) : file.position o =
    (1 + ((bytes file.content).take o).count (byteOf '\n'),
      1 + (Text.sinceFeed ((bytes file.content).take o)).length) := by
  induction o with
  | zero => exact position_zero file
  | succ o ih =>
    have hlt : o < (bytes file.content).length := by
      rw [Text.length_bytes]
      omega
    have hb := List.getElem?_eq_getElem hlt
    rw [position_succ hb, ih (by omega), List.take_succ_eq_append_getElem hlt, List.count_append]
    by_cases hfeed : (bytes file.content)[o] = byteOf '\n'
    · rw [if_pos hfeed, hfeed, Text.sinceFeed_concat_feed]
      simp [Nat.add_assoc]
    · have hnot : byteOf '\n' ∉ [(bytes file.content)[o]] := by
        simpa using Ne.symm hfeed
      rw [if_neg hfeed, Text.sinceFeed_append _ hnot, List.length_append,
        List.count_eq_zero.mpr hnot]
      simp [Nat.add_assoc]

theorem position_mono {p : Nat} (h : o ≤ p) (hp : p ≤ byteSize file.content) :
    (file.position o).1 < (file.position p).1 ∨
      (file.position o).1 = (file.position p).1 ∧ (file.position o).2 ≤ (file.position p).2 := by
  induction p, h using Nat.le_induction with
  | base => exact .inr ⟨rfl, Nat.le_refl _⟩
  | succ p _ ih =>
    have hlt : p < (bytes file.content).length := by
      rw [Text.length_bytes]
      omega
    have hrest := ih (by omega)
    rw [position_succ (List.getElem?_eq_getElem hlt)]
    split
    · dsimp only
      omega
    · dsimp only
      omega

/-- The position of an offset in a text without a line feed, behind one or in front. -/
theorem position_add {s u : Text} (hc : file.content = s ++ (t ++ u)) (ht : '\n' ∉ t)
    (hs : Text.sinceFeed (bytes s) = []) (hk : k ≤ byteSize t) :
    file.position (byteSize s + k) = (1 + s.count '\n', k + 1) := by
  have hsize : byteSize s + k ≤ byteSize file.content := by
    rw [hc, Text.byteSize_append, Text.byteSize_append]
    omega
  have htake : (bytes file.content).take (byteSize s + k) = bytes s ++ (bytes t).take k := by
    rw [hc, Text.bytes_append, ← Text.length_bytes, List.take_length_add_append, Text.bytes_append,
      List.take_append_of_le_length (by rw [Text.length_bytes]; exact hk)]
  have hfree : byteOf '\n' ∉ (bytes t).take k :=
    fun hm => ht (Text.feed_mem_bytes_iff.mp (List.mem_of_mem_take hm))
  have hlen : ((bytes t).take k).length = k := by
    rw [List.length_take, Text.length_bytes, Nat.min_eq_left hk]
  rw [position_eq hsize, htake, List.count_append, Text.count_feed_bytes,
    List.count_eq_zero.mpr hfree, Text.sinceFeed_append _ hfree, hs, List.nil_append, hlen,
    Nat.add_zero, Nat.add_comm 1 k]

end SourceFile

end NetFlat
