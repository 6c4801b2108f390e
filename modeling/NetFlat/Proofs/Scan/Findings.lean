import NetFlat.Proofs.Scan.Locations

/-!
# Where findings come from

All that is found in a scan is found about the items that the scan works off, one after the other,
also if one of them fails.  The only remarks on findings and failures are those on their own places.

* `Diagnostic.MarksItself`, `Failure.at_diagnostic`: the remarks;
* `Scan.findings_step`, `Scan.findings_run`: the findings of a line, and of all lines of a file.
-/

namespace NetFlat

variable {config : Config}

/-! ### Remarks -/

/-- All remarks on the finding are on the finding itself, none on something beside it. -/
def Diagnostic.MarksItself (d : Diagnostic) : Prop := ∀ l ∈ d.labels, l.style = .primary

theorem Diagnostic.At.marksItself {d : Diagnostic} {line : Line} (h : d.At line) :
    d.MarksItself := by
  intro l hl
  rcases h.labels with hnone | ⟨remark, hone⟩
  · simp [hnone] at hl
  · rw [hone, List.mem_singleton] at hl
    rw [hl]

theorem Failure.at_diagnostic (f : Failure) : f.diagnostic.At f.line := by
  unfold diagnostic
  dsimp only
  split <;> split
  · exact ⟨rfl, .inl rfl⟩
  · exact ⟨rfl, .inr ⟨_, rfl⟩⟩
  · exact ⟨rfl, .inl rfl⟩
  · exact ⟨rfl, .inr ⟨_, rfl⟩⟩

/-! ### Findings of a scan -/

namespace Scan

/-- A line adds nothing to the findings, or those about one item. -/
theorem findings_step (config : Config) (s : Scan) (line : Line) :
    (s.step config line).findings = s.findings ∨
      ∃ i : Item, (s.step config line).findings = s.findings ++ i.findings config := by
  by_cases hr : s.Running
  · have hq : (s.step config line).findings =
        (s.follow config (s.phase.advance config (Dialect.code line.text) line)).findings :=
      congrArg (·.findings) (quiet_step config hr line)
    rw [hq]
    rcases s.phase.advance config (Dialect.code line.text) line with ⟨p, _ | i⟩
    · exact .inl rfl
    · rcases perform_cases config hr i with ⟨-, hi⟩ | ⟨f, -, hi, -⟩
      · exact .inr ⟨i, hi⟩
      · exact .inl hi
  · simp only [Running, not_forall, not_not] at hr
    obtain ⟨f, hf⟩ := hr
    exact .inl (by rw [step_of_failed hf])

theorem findings_foldl_step (config : Config) (ls : List Line) (s : Scan) :
    ∃ is : List Item, (ls.foldl (step config) s).findings =
      s.findings ++ is.flatMap (Item.findings config) := by
  induction ls generalizing s with
  | nil => exact ⟨[], by simp⟩
  | cons line ls ih =>
    obtain ⟨is, his⟩ := ih (s.step config line)
    rw [List.foldl_cons, his]
    rcases findings_step config s line with hs | ⟨i, hi⟩
    · exact ⟨is, by rw [hs]⟩
    · exact ⟨i :: is, by rw [hi, List.flatMap_cons, List.append_assoc]⟩

/-- **The findings of a scan** are those about some items. -/
theorem findings_run (config : Config) (ls : List Line) :
    ∃ is : List Item, (run config ls).findings = is.flatMap (Item.findings config) :=
  findings_foldl_step config ls (start config)

end Scan

end NetFlat
