import Wasmtime.Cranelift.BoundsChecks
import Wasmtime.Vm.MemoryLayout

/-!
# The compiler and the runtime agree on the layout

The compiler decides how to check an access from the type of the memory in the module it compiles,
which may only import the memory; the runtime lays the memory out by the type it is defined with,
rounded to host pages. `Ok.layout`: the runtime provides what the proofs about the compilers assume.

`layout_agrees`: the base of a memory that cannot move stays, its guard and its reservation are
there, and where the compiler takes the reservation for the length, the memory is not longer. The
last needs that a memory whose minimum exceeds the reservation is not imported as one whose minimum
does not, and that rounding the reservation up to host pages does not make room for another page of
the memory.
-/

namespace Wasmtime.Vm

open Base Environ Option

variable {p : Nat}

namespace LocalMemory

variable {m m' m0 : LocalMemory p} {tunables : Tunables}

/-- Addresses that are known to fault: the first page, and what the mapping does not expose. -/
def Faults (m : LocalMemory p) (addr : Nat) : Prop :=
  addr < 4096 ∨ m.alloc.mmap.start ≤ addr ∧ addr < m.alloc.mmap.start + m.alloc.mmap.len.byteCount ∧
    m.alloc.mmap.isAccessible (addr - m.alloc.mmap.start) = false

theorem Ok.faults (h : m.Ok tunables) {a : Nat} (hlo : m.alloc.base + alignUp p m.alloc.len ≤ a)
    (hhi : a < m.alloc.base + m.alloc.capacity + tunables.memoryGuardSize) : m.Faults a := by
  have hlen := h.alloc.mmap_len
  have hguard := h.guard_le
  simp only [MmapMemory.base] at hlo hhi
  refine Or.inr ⟨by omega, by omega, Bool.eq_false_iff.2 fun hacc => ?_⟩
  have := (h.alloc.accessible _).1 hacc
  omega

structure GrowOp where
  os : Os
  deltaPages : Nat
  store : Option Limiter

def Step (m : LocalMemory p) (op : GrowOp) (m' : LocalMemory p) : Prop :=
  (grow op.os op.deltaPages op.store m).2 = m'

theorem Step.grows {op : GrowOp} (h : m.Ok tunables) (hs : Step m op m') :
    m'.Ok tunables ∧ Grows op.os m m' := by
  rw [← hs]
  exact Prog.wp_state (P := fun m' => m'.Ok tunables ∧ Grows op.os m m') (grow_wp h)

/-- No size of the memory needs another mapping. -/
def Fixed (m : LocalMemory p) : Prop :=
  m.memoryMayMove = false ∨ u64Size - m.ty.pageSize ≤ m.alloc.capacity

theorem Grows.fixed {os : Os} (hg : Grows os m m') (h' : m'.Ok tunables) (hf : m.Fixed) :
    m'.alloc.base = m.alloc.base ∧ m'.alloc.capacity = m.alloc.capacity ∧ m'.Fixed := by
  rcases hg.mapping with ⟨h1, -, h2⟩ | ⟨h1, h2, -⟩
  · refine ⟨by simp only [MmapMemory.base, h1, hg.preGuardSize], h2, ?_⟩
    unfold Fixed at hf ⊢
    rwa [hg.memoryMayMove, hg.ty, h2]
  · rcases hf with hf | hf
    · rw [h1] at hf
      cases hf
    · have := le_absoluteMax h'.page h'.allows.lt
      rw [hg.ty] at this
      omega

theorem run_ok (h0 : m0.Ok tunables) {tr : List GrowOp} (hrun : Trace Step m0 tr m) :
    m.Ok tunables ∧ m.ty = m0.ty ∧
      (m0.Fixed → m.alloc.base = m0.alloc.base ∧ m.alloc.capacity = m0.alloc.capacity ∧
        m.Fixed) := by
  refine hrun.invariant (I := fun m => m.Ok tunables ∧ m.ty = m0.ty ∧ (m0.Fixed →
      m.alloc.base = m0.alloc.base ∧ m.alloc.capacity = m0.alloc.capacity ∧ m.Fixed))
    ⟨h0, rfl, fun hf => ⟨rfl, rfl, hf⟩⟩ (fun s op s' hs hstep => ?_)
  obtain ⟨hok, hty, hfix⟩ := hs
  obtain ⟨hok', hg⟩ := Step.grows hok hstep
  refine ⟨hok', hg.ty.trans hty, fun hf => ?_⟩
  obtain ⟨h1, h2, h3⟩ := hfix hf
  obtain ⟨h1', h2', h3'⟩ := hg.fixed hok' h3
  exact ⟨h1'.trans h1, h2'.trans h2, h3'⟩

end LocalMemory

/-! ### Two types of one memory -/

/-- A memory of type `d` is accepted as an import of type `i`. -/
structure Linkable (d i : Memory) : Prop where
  idxType : d.idxType = i.idxType
  pageSizeLog2 : d.pageSizeLog2 = i.pageSizeLog2
  shared : d.shared = i.shared
  min : i.limits.min ≤ d.limits.min
  max : ∀ im, i.limits.max = some im → ∃ dm, d.limits.max = some dm ∧ dm ≤ im

variable {d i t : Memory} {tunables : Tunables}

theorem Linkable.pageSize (h : Linkable d i) : d.pageSize = i.pageSize := by
  simp only [Memory.pageSize, h.pageSizeLog2]

theorem memoryMayMove_of_maximum_le
    (h : d.maximumByteSize.getD u64Max ≤ tunables.memoryReservation) :
    d.memoryMayMove tunables = false := by
  unfold Memory.memoryMayMove
  split_ifs
  · rfl
  · rfl
  · rfl
  · simpa using h

theorem maximum_le_u64Max (d : Memory) : d.maximumByteSize.getD u64Max ≤ u64Max := by
  rcases hm : d.maximumByteSize with _ | max
  · exact le_rfl
  · simp only [getD_some]
    have hlt : max < u64Size := by
      unfold Memory.maximumByteSize at hm
      rcases hl : d.limits.max with _ | pages
      · rw [hl] at hm
        obtain ⟨min, hmin, rfl⟩ := map_eq_some_iff.1 hm
        refine max_lt (Memory.minimumByteSize_eq.1 hmin).2 ?_
        unfold Memory.maxSizeBasedOnIndexType wasm32MaxSize
        cases d.idxType <;> simp only [u64Size] at *
        · omega
        · exact Nat.mod_lt _ (by norm_num)
      · rw [hl] at hm
        exact (checkedMul_eq.1 hm).2
    simp only [u64Max, u64Size] at *
    omega

theorem Linkable.maximum_le (h : Linkable d i) {max : Nat} (hm : i.maximumByteSize = some max) :
    d.maximumByteSize.getD u64Max ≤ max ∨ u64Size - d.pageSize ≤ max := by
  unfold Memory.maximumByteSize at hm
  rcases hl : i.limits.max with _ | im
  · rw [hl] at hm
    obtain ⟨min, hmin, rfl⟩ := map_eq_some_iff.1 hm
    rcases hidx : i.idxType
    · obtain ⟨dmax, hd, hle⟩ := Memory.maximumByteSize_i32 (h.idxType.trans hidx)
      refine Or.inl ?_
      rw [hd, getD_some]
      exact le_trans hle (le_trans (by simp [Memory.maxSizeBasedOnIndexType, hidx, wasm32MaxSize])
        (le_max_right _ _))
    · refine Or.inr (le_trans (le_of_eq ?_) (le_max_right _ _))
      have hpos := d.pageSize_pos
      simp only [Memory.maxSizeBasedOnIndexType, hidx, ← h.pageSize]
      exact (Nat.mod_eq_of_lt (by simp only [u64Size]; omega)).symm
  · rw [hl] at hm
    obtain ⟨dm, hdm, hle⟩ := h.max im hl
    obtain ⟨rfl, hlt⟩ := checkedMul_eq.1 hm
    have hmul : dm * d.pageSize ≤ im * i.pageSize := by
      rw [h.pageSize]
      exact Nat.mul_le_mul_right _ hle
    have hd : d.maximumByteSize = some (dm * d.pageSize) := by
      unfold Memory.maximumByteSize
      rw [hdm]
      exact checkedMul_eq.2 ⟨rfl, lt_of_le_of_lt hmul hlt⟩
    rw [hd, getD_some]
    exact Or.inl hmul

/-- If the importing module may rely on the base, then the memory is never moved: it may not,
or its reservation is the whole address space. -/
theorem Linkable.fixed (h : Linkable d i) (hi : i.memoryMayMove tunables = false) :
    d.memoryMayMove tunables = false ∨
      u64Size - d.pageSize ≤ tunables.memoryReservation := by
  have hu := maximum_le_u64Max d
  unfold Memory.memoryMayMove at hi
  split_ifs at hi with h1 h2 h3
  · exact Or.inl (by rw [Memory.memoryMayMove, h.shared, if_pos h1])
  · exact Or.inl (by rw [Memory.memoryMayMove]; split_ifs <;> simp_all)
  · -- the import allows a single size, which the definition then has
    refine Or.inl ?_
    obtain ⟨im, him, heq⟩ := (any_eq_true _ _).1 h3
    obtain ⟨dm, hdm, hle⟩ := h.max im him
    have hmin := h.min
    have hmax := (d.max_ok dm hdm).1
    simp only [decide_eq_true_eq] at heq
    unfold Memory.memoryMayMove
    have : d.limits.max.any (fun max => decide (d.limits.min = max)) = true := by
      rw [hdm]
      simp only [any_some, decide_eq_true_eq]
      omega
    split_ifs <;> rfl
  · have hi : i.maximumByteSize.getD u64Max ≤ tunables.memoryReservation := by simpa using hi
    rcases hm : i.maximumByteSize with _ | max
    · rw [hm] at hi
      exact Or.inl (memoryMayMove_of_maximum_le (le_trans hu hi))
    · rw [hm, getD_some] at hi
      rcases h.maximum_le hm with hle | hle
      · exact Or.inl (memoryMayMove_of_maximum_le (le_trans hle hi))
      · exact Or.inr (le_trans hle hi)

/-- When the layout that code compiled against `t` assumes is that of a memory of type `d`. -/
structure Suits (env : Cranelift.Env) (p : Nat) (d t : Memory) : Prop where
  rounding : alignUp p env.tunables.memoryReservation / t.pageSize =
    env.tunables.memoryReservation / t.pageSize
  minimum : env.usesReservation t = true →
    d.limits.min * d.pageSize ≤ env.tunables.memoryReservation

theorem Suits.len_le {env : Cranelift.Env} (h : Suits env p d t) {len : Nat}
    (hpage : t.pageSize ∣ len) (hle : len ≤ alignUp p env.tunables.memoryReservation) :
    len ≤ env.tunables.memoryReservation := by
  obtain ⟨k, rfl⟩ := hpage
  have hpos := t.pageSize_pos
  have hk : k ≤ env.tunables.memoryReservation / t.pageSize := by
    rw [← h.rounding, Nat.le_div_iff_mul_le hpos, Nat.mul_comm]
    exact hle
  rw [Nat.le_div_iff_mul_le hpos, Nat.mul_comm] at hk
  exact hk

/-- **The layouts agree.** A memory of type `d` is created and grown in any way; code that uses it
is compiled against `t`, which is `d` or the type of an import. If the types suit each other,
the code may take the reservation for a bound on the length. In any case the base stays where
it is if `t` may not move, and there is as much reserved and as much guarded as the tunables say.
An access can be compiled unless it is checked against the reservation and exceeds it. -/
theorem layout_agrees (env : Cranelift.Env) {d i t : Memory} (hlink : Linkable d i)
    (ht : t = d ∨ t = i) {os : Os} {store : Option Limiter} {image : Option (MemoryImage p)}
    {m0 m : LocalMemory p} {tr : List LocalMemory.GrowOp}
    (hnew : LocalMemory.newDynamic os d env.tunables store image () = (.ok m0, ()))
    (hrun : Trace LocalMemory.Step m0 tr m) :
    (Suits env p d t → env.usesReservation t = true →
      m.alloc.len ≤ env.tunables.memoryReservation) ∧
    (t.memoryMayMove env.tunables = false → m.alloc.base = m0.alloc.base) ∧
    (env.tunables.memoryReservation ≤ m.alloc.capacity ∧ ∀ a, m.alloc.base + m.alloc.capacity ≤ a →
        a < m.alloc.base + m.alloc.capacity + env.tunables.memoryGuardSize → m.Faults a) ∧
    ∀ pcc index offset size code,
      (Cranelift.boundsCheckAndComputeAddr env ⟨t, pcc⟩ index (.staticOffset offset size)
        code).1.isPanic = true ↔ env.Exceeds t (offset + size) := by
  have hcreated := LocalMemory.newDynamic_ok hnew
  obtain ⟨hok, hty, hfix⟩ := LocalMemory.run_ok hcreated.ok hrun
  have hpage : t.pageSize = d.pageSize := by
    rcases ht with rfl | rfl
    · rfl
    · exact hlink.pageSize.symm
  have hfixed : t.memoryMayMove env.tunables = false → m0.Fixed := by
    intro hmove
    have h : d.memoryMayMove env.tunables = false ∨
        u64Size - d.pageSize ≤ env.tunables.memoryReservation := by
      rcases ht with rfl | rfl
      · exact Or.inl hmove
      · exact hlink.fixed hmove
    unfold LocalMemory.Fixed
    rw [hcreated.ok.memoryMayMove, hcreated.ty]
    exact h.imp_right fun h => le_trans h hcreated.ok.reserved
  refine ⟨fun hs hu => ?_, fun hmove => (hfix (hfixed hmove)).1, ⟨hok.reserved, fun a h1 h2 => ?_⟩,
    fun pcc index offset size code => ?_⟩
  · have hmove : t.memoryMayMove env.tunables = false := by
      simp only [Cranelift.Env.usesReservation, Bool.and_eq_true, Bool.not_eq_true'] at hu
      exact hu.2
    have hcap := hcreated.capacity (hcreated.len ▸ hs.minimum hu)
    refine hs.len_le ?_ ?_
    · rw [hpage, ← hcreated.ty, ← hty]
      exact hok.page
    · rw [← hcap, ← (hfix (hfixed hmove)).2.1]
      exact hok.alloc.len_le
  · have := hok.alloc.alignUp_le
    exact hok.faults (by omega) h2
  · have h1 := hok.alloc.mmap_len
    have h2 := hok.alloc.fits
    have h3 := hok.guard_le
    have h4 := hok.reserved
    exact Cranelift.boundsCheck_panics_iff code (by omega)

def smallReservation : Tunables where
  memoryReservation := 2 ^ 20
  memoryGuardSize := 2 ^ 16
  memoryReservationForGrowth := 2 ^ 20
  memoryMayMove := false
  guardBeforeLinearMemory := true
  signalsBasedTraps := true
  reservation_lt := by decide
  guard_lt := by decide
  growth_lt := by decide

def smallEnv : Cranelift.Env := { Cranelift.defaultEnv with tunables := smallReservation }

def plainOs : Os where
  reserve len := if 2 ^ 40 + len < u64Size then some (2 ^ 40) else none
  protect := true
  mapImage := true
  reserve_ok := by
    intro len a h
    split_ifs at h with hlt
    cases h
    exact ⟨by norm_num, hlt⟩

theorem layout_agrees_onePage :
    ∃ m0 m : LocalMemory 12, LocalMemory.newDynamic plainOs (Memory.wasm32 1 (by decide))
        smallEnv.tunables none none () = (.ok m0, ()) ∧
      Trace LocalMemory.Step m0 [⟨plainOs, 1, none⟩] m ∧
      m.alloc.len ≤ smallEnv.tunables.memoryReservation := by
  obtain ⟨m0, hm⟩ := Prog.exists_of_isOk (m := LocalMemory.newDynamic (p := 12) plainOs
    (Memory.wasm32 1 (by decide)) smallEnv.tunables none none) (by decide +kernel)
  have hrun : Trace LocalMemory.Step m0 [⟨plainOs, 1, none⟩]
      (LocalMemory.grow plainOs 1 none m0).2 := Trace.single rfl
  refine ⟨m0, _, hm, hrun, (layout_agrees smallEnv (i := Memory.wasm32 1 (by decide))
    ⟨rfl, rfl, rfl, le_rfl, fun _ h => nomatch h⟩ (Or.inl rfl) hm hrun).1
    ⟨by decide +kernel, fun _ => by decide⟩ (by decide +kernel)⟩

/-- A memory of 32 pages is imported as one of at least one page. The code of the importing module
takes it to have at most 1MiB, but it has 2MiB; and an access at the offset of 1MiB cannot be
compiled. -/
theorem import_of_larger_memory :
    Linkable (Memory.wasm32 32 (by decide)) (Memory.wasm32 1 (by decide)) ∧
    (∃ m0 : LocalMemory 12, LocalMemory.newDynamic plainOs (Memory.wasm32 32 (by decide))
        smallEnv.tunables none none () = (.ok m0, ()) ∧
      smallEnv.usesReservation (Memory.wasm32 1 (by decide)) = true ∧
      smallEnv.tunables.memoryReservation < m0.alloc.len) ∧
    (Cranelift.boundsCheckAndComputeAddr smallEnv ⟨Memory.wasm32 1 (by decide), false⟩ .operand
      (.staticOffset (2 ^ 20) 1) []).1.isPanic = true := by
  refine ⟨⟨rfl, rfl, rfl, by decide, fun im h => ?_⟩, ?_, by decide +kernel⟩
  · cases h
  · obtain ⟨m0, hm⟩ := Prog.exists_of_isOk (m := LocalMemory.newDynamic (p := 12) plainOs
      (Memory.wasm32 32 (by decide)) smallEnv.tunables none none) (by decide +kernel)
    refine ⟨m0, hm, by decide +kernel, ?_⟩
    rw [(LocalMemory.newDynamic_ok hm).len]
    decide

end Wasmtime.Vm
