import Mathlib.Data.List.Nodup
import NetFlat.Naming.Bus

/-!
# Ports

The scalar names of a bus belong to one index each, and the two buses share none of them.

* `Config.nodup_ports`: the bits of the two buses are distinct.
-/

namespace NetFlat

theorem scalarName_injective {b b' : Text} {i j : Nat} (h : scalarName b i = scalarName b' j) :
    b = b' ∧ i = j := by
  have hc := cutLast?_scalarName b i
  rw [h, cutLast?_scalarName] at hc
  obtain ⟨hb, hd⟩ := Prod.mk.inj (Option.some.inj hc)
  exact ⟨hb.symm, Text.decimal_injective hd.symm⟩

namespace Config

variable {c : Config} {a : Signal}

/-- The bits of the input bus, then those of the output bus. -/
def ports (c : Config) : List Signal := c.busMembers .input ++ c.busMembers .output

theorem mem_busMembers {role : BusRole} :
    a ∈ c.busMembers role ↔ ∃ i < c.width, a = ⟨scalarName (c.busName role) i⟩ := by
  simp [busMembers, eq_comm]

theorem mem_ports : a ∈ c.ports ↔
    ∃ role, ∃ i < c.width, a = ⟨scalarName (c.busName role) i⟩ := by
  rw [ports, List.mem_append, mem_busMembers, mem_busMembers]
  constructor
  · rintro (h | h)
    · exact ⟨.input, h⟩
    · exact ⟨.output, h⟩
  · rintro ⟨_ | _, h⟩
    · exact .inl h
    · exact .inr h

theorem map_fst_portSignals (c : Config) : c.portSignals.map Prod.fst = c.ports := by
  simp [portSignals, ports, Function.comp_def]

theorem not_mem_ports_iff : a ∉ c.ports ↔ ∀ p ∈ c.portSignals, p.1 ≠ a := by
  rw [← map_fst_portSignals]
  simp only [List.mem_map, not_exists, not_and]

theorem nodup_busMembers (c : Config) (role : BusRole) : (c.busMembers role).Nodup := by
  refine (List.nodup_range).map fun i j h => ?_
  exact (scalarName_injective (Signal.mk.inj h)).2

/-- **Distinct ports.** -/
theorem nodup_ports (c : Config) : c.ports.Nodup := by
  refine List.nodup_append'.mpr ⟨c.nodup_busMembers .input, c.nodup_busMembers .output, ?_⟩
  intro a ha hb
  obtain ⟨i, -, rfl⟩ := mem_busMembers.mp ha
  obtain ⟨j, -, h⟩ := mem_busMembers.mp hb
  exact c.valid.buses_ne (scalarName_injective (Signal.mk.inj h)).1

end Config

end NetFlat
