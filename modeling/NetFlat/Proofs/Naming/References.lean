import NetFlat.Proofs.Naming.Spellings

/-!
# References

What the connections of an instance refer to: identifiers, bits of buses and one-bit literals.

* `isInert`: characters that play no part in the syntax of a statement;
* `IsReference.isInert`, `IsReference.solid`: references are made of these, and are trimmed.
-/

namespace NetFlat

open Text (Solid)

/-- An identifier, a bit of a bus, or a literal of one bit. -/
inductive IsReference : Text → Prop
  | identifier {r : Text} (h : isIdentifier r = true) : IsReference r
  | bit (base index : Text) (hb : isIdentifier base = true) (hi : index.IsWord) :
      IsReference (base ++ '[' :: (index ++ [']']))
  | literal {r : Text} {value : Bool} (h : Literal.read? r = some (.bit value)) (ht : r.Trimmed) :
      IsReference r

/-- A character that plays no part in the syntax of a statement. -/
def isInert (c : Char) : Bool := !"().;/".toList.contains c

/-- A class that the characters of the syntax are not of is inert. -/
theorem isInert_of_class {p : Char → Bool} (hp : "().;/".toList.all (!p ·) = true) {c : Char}
    (h : p c = true) : isInert c = true := by
  by_contra hc
  simp only [isInert, Bool.not_eq_true', Bool.not_eq_false, List.contains_iff_mem] at hc
  have := List.all_eq_true.mp hp c hc
  simp [h] at this

theorem isInert_of_isWordChar {c : Char} (h : isWordChar c = true) : isInert c = true :=
  isInert_of_class (by decide) h

theorem isInert_of_isBlank {c : Char} (h : Text.isBlank c = true) : isInert c = true :=
  isInert_of_class (by decide) h

namespace Literal

variable {r t body : Text} {radix : Nat} {value : Bool}

theorem isInert_of_isBody (h : IsBody t) : ∀ c ∈ t, isInert c = true :=
  fun c hc => isInert_of_isWordChar (isWord_of_isBody h c hc)

theorem isInert_of_radix? {c : Char} (h : radix? c = some radix) : isInert c = true := by
  have hall : "bBoOdDhH".toList.all isInert = true := by decide
  have hbase := isSome_radix?_iff.mp (Option.isSome_iff_exists.mpr ⟨radix, h⟩)
  exact List.all_eq_true.mp hall c (List.contains_iff_mem.mp hbase)

theorem Spells.isInert (h : Spells t radix body) : ∀ c ∈ t, NetFlat.isInert c = true := by
  have hblanks {u : Text} (hu : u.Blanks) : ∀ c ∈ u, NetFlat.isInert c = true :=
    fun c hc => isInert_of_isBlank (hu c hc)
  cases h with
  | plain _ h => exact isInert_of_isBody h
  | based hsize ha hb hd hsign hletter he hf hbody =>
    have hsize' := isInert_of_isBody fun c hc => .inl (hsize c hc)
    simp only [List.forall_mem_append, List.forall_mem_cons]
    refine ⟨⟨⟨hblanks ha, hsize'⟩, hblanks hb⟩, by decide, ⟨hblanks hd, ?_⟩,
      isInert_of_radix? hletter, ⟨hblanks he, isInert_of_isBody hbody⟩, hblanks hf⟩
    rcases hsign with rfl | rfl | rfl
    · exact List.forall_mem_nil _
    · exact List.forall_mem_singleton.mpr (by decide)
    · exact List.forall_mem_singleton.mpr (by decide)

theorem isInert_of_read? (h : read? r = some (.bit value)) (ht : r.Trimmed) :
    ∀ c ∈ r, isInert c = true := by
  obtain ⟨radix, body, hspells, -⟩ := read?_eq_bit_iff.mp h
  rw [ht.trim_eq_self] at hspells
  exact hspells.isInert

end Literal

namespace IsReference

variable {r : Text}

theorem isInert (h : IsReference r) : ∀ c ∈ r, isInert c = true := by
  cases h with
  | identifier h => exact fun c hc => isInert_of_isWordChar (isWord_of_isIdentifier h c hc)
  | bit base index hb hi =>
    have hbase : ∀ c ∈ base, NetFlat.isInert c = true :=
      fun c hc => isInert_of_isWordChar (isWord_of_isIdentifier hb c hc)
    have hindex : ∀ c ∈ index, NetFlat.isInert c = true := fun c hc => isInert_of_isWordChar (hi c hc)
    exact List.forall_mem_append.mpr ⟨hbase, List.forall_mem_cons.mpr ⟨by decide,
      List.forall_mem_append.mpr ⟨hindex, List.forall_mem_singleton.mpr (by decide)⟩⟩⟩
  | literal h ht => exact Literal.isInert_of_read? h ht

theorem not_mem (h : IsReference r) {c : Char} (hc : NetFlat.isInert c = false) : c ∉ r := by
  intro hm
  rw [h.isInert c hm] at hc
  simp at hc

theorem solid (h : IsReference r) : Solid r := by
  cases h with
  | identifier h =>
    exact ⟨ne_nil_of_isIdentifier h, Text.trimmed_of_isWord (isWord_of_isIdentifier h)⟩
  | bit base index hb hi =>
    obtain ⟨c, u, rfl, hc, -⟩ := head_of_isIdentifier hb
    have hlast : (c :: u ++ '[' :: (index ++ [']'])).getLast? = some ']' := by
      rw [← List.cons_append, ← List.append_assoc, List.getLast?_concat]
    exact ⟨by simp, Text.trimmed_of_ends rfl hlast (isBlank_of_isWordChar hc) (by decide)⟩
  | literal h ht =>
    refine ⟨?_, ht⟩
    rintro rfl
    simp [Literal.read?] at h

end IsReference

end NetFlat
