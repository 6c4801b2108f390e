import NetFlat.Text.Basic

/-!
# Configuration

A run is configured by the name of a module, the names of its two port buses and their common
width. Settings become a configuration when the names are plain identifiers, the buses differ and
the width is in range; a configuration carries the proof.
-/

namespace NetFlat

/-- A letter of an identifier after the first. -/
def isWordChar (c : Char) : Bool := c.isAlphanum || c == '_' || c == '$'

/-- A plain identifier: a letter or underscore, then letters, digits, underscores, dollar signs. -/
def isIdentifier : Text → Bool
  | [] => false
  | c :: t => (c.isAlpha || c == '_') && t.all isWordChar

def maxWidth : Nat := 65536

/-- The four parameters of a run. -/
structure Settings where
  moduleName : Text
  inputBus : Text
  outputBus : Text
  width : Nat
deriving DecidableEq

/-- What is wrong with settings. -/
inductive SettingsFault where
  | notIdentifier (setting : String) (value : Text)
  | sameBus (name : Text)
  | widthOutOfRange (width : Nat)
deriving DecidableEq

def SettingsFault.message : SettingsFault → String
  | .notIdentifier setting value => s!"{setting} {Text.quoted value} is not a plain identifier"
  | .sameBus name => s!"input and output buses are both named {Text.quoted name}"
  | .widthOutOfRange width => s!"bus width {width} is outside 1..={maxWidth}"

namespace Settings

/-- The first fault: names in the order module, input, output, then equal buses, then the width. -/
def fault? (s : Settings) : Option SettingsFault :=
  if !isIdentifier s.moduleName then some (.notIdentifier "module.name" s.moduleName)
  else if !isIdentifier s.inputBus then some (.notIdentifier "bus.input" s.inputBus)
  else if !isIdentifier s.outputBus then some (.notIdentifier "bus.output" s.outputBus)
  else if s.inputBus = s.outputBus then some (.sameBus s.inputBus)
  else if s.width = 0 || s.width > maxWidth then some (.widthOutOfRange s.width)
  else none

/-- What makes settings fit for a run. -/
structure Valid (s : Settings) : Prop where
  moduleName_plain : isIdentifier s.moduleName = true
  inputBus_plain : isIdentifier s.inputBus = true
  outputBus_plain : isIdentifier s.outputBus = true
  buses_ne : s.inputBus ≠ s.outputBus
  width_pos : 0 < s.width
  width_le : s.width ≤ maxWidth

theorem fault?_eq_none_iff {s : Settings} : s.fault? = none ↔ s.Valid := by
  constructor
  · intro h
    simp only [fault?] at h
    split at h
    · simp at h
    split at h
    · simp at h
    split at h
    · simp at h
    split at h
    · simp at h
    split at h
    · simp at h
    simp_all only [Bool.not_eq_true', Bool.not_eq_false, Bool.or_eq_true, decide_eq_true_eq,
      not_or, gt_iff_lt, Nat.not_lt]
    exact ⟨‹_›, ‹_›, ‹_›, ‹_›, by omega, by omega⟩
  · rintro ⟨h₁, h₂, h₃, h₄, h₅, h₆⟩
    have : ¬s.width = 0 := by omega
    simp [fault?, *]

end Settings

/-- Valid settings. -/
structure Config extends Settings where
  valid : toSettings.Valid

namespace Config

def ofSettings (s : Settings) : Except SettingsFault Config :=
  match h : s.fault? with
  | none => .ok ⟨s, Settings.fault?_eq_none_iff.1 h⟩
  | some fault => .error fault

/-- Accepted are exactly the valid settings, and they stay as they are. -/
theorem ofSettings_eq_ok_iff {s : Settings} {c : Config} :
    ofSettings s = .ok c ↔ c.toSettings = s := by
  unfold ofSettings
  split
  · simp only [Except.ok.injEq]
    constructor
    · rintro rfl; rfl
    · rintro rfl; rfl
  · next fault h =>
    simp only [reduceCtorEq, false_iff]
    rintro rfl
    simp [Settings.fault?_eq_none_iff.2 c.valid] at h

end Config

/-- The names and the width that hold where nothing is configured. -/
def Settings.standard (moduleName : Text) : Settings :=
  ⟨moduleName, "in_array".toList, "out_array".toList, 16⟩

end NetFlat
