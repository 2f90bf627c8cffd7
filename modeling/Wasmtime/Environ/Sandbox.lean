import Wasmtime.Environ.Memory

/-!
# Confined accesses

What both compilers have to achieve for an access to a linear memory, and what they may assume.
`Layout` is the address space around a memory: its bytes can be accessed, the first page cannot, and
when the memory relies on virtual memory neither can the rest of its reservation and its guard.
`Sandboxed`: an access at `index + offset` reaches exactly its bytes when they are in the memory,
and otherwise traps, or faults without touching anything else.

Out of bounds there is an explicit trap, an access at address zero (`Sandboxed.null`), or an access
that the guard catches (`Sandboxed.guarded`).
-/

namespace Wasmtime.Environ

open Base

/-- Where compiled code for an access ends: it traps, accesses an address, or runs on
without either. -/
inductive Reached where
  | trap
  | access (addr : Nat)
  | neither

/-- The bytes around a memory; `faults` are those that cannot be accessed. -/
structure Layout (tunables : Tunables) (virtualMemory : Bool) (faults : Nat → Prop)
    (base len capacity : Nat) : Prop where
  null : ∀ a < 4096, faults a
  fits : base + len ≤ u64Size
  accessible : ∀ a, base ≤ a → a < base + len → ¬ faults a
  len_le : len ≤ capacity
  region_fits : virtualMemory = true →
    base + max capacity tunables.memoryReservation + tunables.memoryGuardSize ≤ u64Size
  region : virtualMemory = true → ∀ a, base + len ≤ a →
    a < base + max capacity tunables.memoryReservation + tunables.memoryGuardSize → faults a

/-- An access of `size` bytes at `addr` faults, and touches no byte outside the memory. -/
def Confined (faults : Nat → Prop) (base len addr size : Nat) : Prop :=
  (∃ k < size, faults ((addr + k) % u64Size)) ∧ ∀ k < size, faults ((addr + k) % u64Size) ∨
      base ≤ (addr + k) % u64Size ∧ (addr + k) % u64Size < base + len

def Sandboxed (faults : Nat → Prop) (base len index offset size : Nat) (r : Reached) : Prop :=
  if index + offset + size ≤ len then
    r = .access (base + index + offset)
  else
    r = .trap ∨ ∃ addr, r = .access addr ∧ Confined faults base len addr size

namespace Sandboxed

variable {tunables : Tunables} {virtualMemory : Bool} {faults : Nat → Prop}
  {base len capacity index offset size : Nat}

theorem inBounds (h : index + offset + size ≤ len) :
    Sandboxed faults base len index offset size (.access (base + index + offset)) := by
  simp [Sandboxed, h]

theorem trap (h : len < index + offset + size) :
    Sandboxed faults base len index offset size .trap := by
  rw [Sandboxed, if_neg (by omega)]
  exact Or.inl rfl

theorem fold {r : Reached} (h : Sandboxed faults base len (index + offset) 0 size r) :
    Sandboxed faults base len index offset size r := by
  simpa only [Sandboxed, Nat.add_zero, ← Nat.add_assoc] using h

theorem null (hl : Layout tunables virtualMemory faults base len capacity)
    (hsize : 0 < size ∧ size ≤ 4096) (h : len < index + offset + size) :
    Sandboxed faults base len index offset size (.access 0) := by
  have hf : ∀ k < size, faults ((0 + k) % u64Size) := fun k hk => by
    rw [Nat.zero_add, Nat.mod_eq_of_lt (by simp only [u64Size]; omega)]
    exact hl.null k (by omega)
  rw [Sandboxed, if_neg (by omega)]
  exact Or.inr ⟨0, rfl, ⟨0, hsize.1, hf 0 hsize.1⟩, fun k hk => Or.inl (hf k hk)⟩

theorem guarded (hl : Layout tunables virtualMemory faults base len capacity)
    (hv : virtualMemory = true) (hsize : 0 < size)
    (h : index + offset + size ≤ max capacity tunables.memoryReservation +
      tunables.memoryGuardSize) :
    Sandboxed faults base len index offset size (.access (base + index + offset)) := by
  by_cases hin : index + offset + size ≤ len
  · exact inBounds hin
  have hfits := hl.region_fits hv
  have hmod : ∀ k < size, (base + index + offset + k) % u64Size = base + index + offset + k :=
    fun k hk => Nat.mod_eq_of_lt (by omega)
  have hfault : ∀ k < size, len ≤ index + offset + k → faults (base + index + offset + k) :=
    fun k hk hle => hl.region hv _ (by omega) (by omega)
  rw [Sandboxed, if_neg hin]
  refine Or.inr ⟨_, rfl, ⟨size - 1, by omega, ?_⟩, fun k hk => ?_⟩
  · rw [hmod _ (by omega)]
    exact hfault _ (by omega) (by omega)
  · rw [hmod k hk]
    by_cases hle : len ≤ index + offset + k
    · exact Or.inl (hfault k hk hle)
    · exact Or.inr (by omega)

end Sandboxed

end Wasmtime.Environ
