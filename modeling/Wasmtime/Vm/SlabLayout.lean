import Wasmtime.Vm.MemoryLayout
import Mathlib.Order.CompletePartialOrder

/-!
# The slab of the memory pool

`pooling/memory_pool.rs` lays the linear memories of all instances out in one mapping: a guard, the
slots one after the other, and a guard. Compiled code relies on a *faulting region* behind the base
of its memory. With protection keys slot `i` is in stripe `i % numStripes`; the slots of other
stripes look like guard pages, so that only the slots of one stripe have to be a faulting region
apart.

`calculate_isolates`: `calculate` returns only layouts that are `SlabLayout.Isolates`. The size of a
slot is a quotient that is rounded down and then up to pages, by which nothing is lost as long as
there are no more stripes than bytes in a page (`le_alignUp_div_mul`).
-/

namespace Wasmtime.Vm

open Base Prog Environ HostAlignedByteCount Nat
open HostAlignedByteCount (newRoundedUp)

variable {p : Nat} {σ : Type}

namespace HostAlignedByteCount

def max (a b : HostAlignedByteCount p) : HostAlignedByteCount p :=
  if a.byteCount ≤ b.byteCount then b else a

def saturatingSub (a b : HostAlignedByteCount p) : HostAlignedByteCount p :=
  ⟨a.byteCount - b.byteCount, dvd_difference a b, difference_lt a b⟩

def checkedMul (a : HostAlignedByteCount p) (scalar : Nat) : Option (HostAlignedByteCount p) :=
  if h : a.byteCount * scalar < u64Size then
    some ⟨a.byteCount * scalar, Dvd.dvd.mul_right a.aligned scalar, h⟩
  else none

def checkedDiv (a divisor : HostAlignedByteCount p) : Option Nat :=
  if divisor.byteCount = 0 then none else some (a.byteCount / divisor.byteCount)

def checkedRem (a divisor : HostAlignedByteCount p) : Option (HostAlignedByteCount p) :=
  if divisor.byteCount = 0 then none
  else
    some ⟨a.byteCount % divisor.byteCount, (dvd_mod_iff divisor.aligned).2 a.aligned,
      lt_of_le_of_lt (mod_le _ _) a.lt⟩

theorem max_byteCount (a b : HostAlignedByteCount p) :
    (max a b).byteCount = Max.max a.byteCount b.byteCount := by
  unfold max
  split_ifs with h
  · exact (max_eq_right h).symm
  · exact (max_eq_left (by omega)).symm

theorem checkedMul_some {a c : HostAlignedByteCount p} {n : Nat} (h : a.checkedMul n = some c) :
    c.byteCount = a.byteCount * n := by
  unfold checkedMul at h
  split_ifs at h
  cases h
  rfl

theorem checkedMul_run {a : HostAlignedByteCount p} {n : Nat}
    (h : a.byteCount * n < u64Size) :
    ∃ c, a.checkedMul n = some c ∧ c.byteCount = a.byteCount * n := by
  unfold checkedMul
  rw [dif_pos h]
  exact ⟨_, rfl, rfl⟩

end HostAlignedByteCount

/-! ### The layout, as the source computes it -/

/-- What `MemoryPool::new` reads of the `InstanceLimits`. -/
structure InstanceLimits where
  totalMemories : Nat
  maxMemorySize : Nat

structure SlabConstraints (p : Nat) where
  expectedSlotBytes : HostAlignedByteCount p
  maxMemoryBytes : HostAlignedByteCount p
  numSlots : Nat
  numPkeysAvailable : Nat
  guardBytes : HostAlignedByteCount p
  guardBeforeSlots : Bool

def SlabConstraints.new (limits : InstanceLimits) (tunables : Tunables)
    (numPkeysAvailable : Nat) : Prog σ String (SlabConstraints p) := do
  let expectedSlotBytes ← orErr (newRoundedUp tunables.memoryReservation)
    "memory reservation is too large"
  let maxMemoryBytes ← orErr (newRoundedUp limits.maxMemorySize)
    "maximum size of memory is too large"
  let guardBytes ← orErr (newRoundedUp tunables.memoryGuardSize)
    "guard region is too large"
  pure
    { expectedSlotBytes
      maxMemoryBytes
      numSlots := limits.totalMemories
      numPkeysAvailable
      guardBytes
      guardBeforeSlots := tunables.guardBeforeLinearMemory }

structure SlabLayout (p : Nat) where
  numSlots : Nat
  slotBytes : HostAlignedByteCount p
  maxMemoryBytes : HostAlignedByteCount p
  preSlabGuardBytes : HostAlignedByteCount p
  postSlabGuardBytes : HostAlignedByteCount p
  numStripes : Nat
deriving DecidableEq

namespace SlabLayout

def totalSlabBytes (layout : SlabLayout p) : Prog σ String (HostAlignedByteCount p) :=
  orErr
    ((layout.slotBytes.checkedMul layout.numSlots).bind fun c =>
      (c.checkedAdd layout.preSlabGuardBytes).bind fun c =>
        c.checkedAdd layout.postSlabGuardBytes)
    "total size of memory reservation exceeds addressable memory"

def bytesToNextStripeSlot (layout : SlabLayout p) : Prog σ String (HostAlignedByteCount p) :=
  unwrap (layout.slotBytes.checkedMul layout.numStripes)
    (.unwrap "constructor checks that self.slot_bytes * self.num_stripes is in bounds")

/-- `MemoryPool::get_base`: the offset of a slot in the mapping. -/
def getBase (layout : SlabLayout p) (mapping : Mmap p) (index : Nat) :
    Prog σ String (HostAlignedByteCount p) := do
  assert (decide (index < layout.numSlots))
    (.assert "allocation_index.index() < self.layout.num_slots")
  let offset ← unwrap
    ((layout.slotBytes.checkedMul index).bind fun c => c.checkedAdd layout.preSlabGuardBytes)
    (.unwrap "slot_bytes * index + pre_slab_guard_bytes overflows")
  assert (decide (offset.byteCount ≤ mapping.len.byteCount)) (.unwrap "offset is in bounds")
  pure offset

/-- The assertion of `MemoryPool::allocate`: what compiled code expects behind the base of a
memory fits before the next slot of the same stripe. -/
def assertReservation (overflowChecks : Bool) (layout : SlabLayout p) (tunables : Tunables) :
    Prog σ String Unit := do
  let needed ← addU64 overflowChecks tunables.memoryReservation tunables.memoryGuardSize
  let next ← layout.bytesToNextStripeSlot
  assert (decide (needed ≤ next.byteCount))
    (.assert "tunables.memory_reservation + tunables.memory_guard_size")

end SlabLayout

/-- The number of stripes and the size of a slot before it is rounded, in `calculate`. -/
def stripesAndSlot (overflowChecks : Bool) (constraints : SlabConstraints p)
    (faultingRegionBytes : HostAlignedByteCount p) : Prog σ String (Nat × Nat) :=
  if constraints.guardBytes.byteCount = 0 ∨ constraints.maxMemoryBytes.byteCount = 0 ∨
      constraints.numSlots = 0 then
    pure (1, faultingRegionBytes.byteCount)
  else if constraints.numPkeysAvailable < 2 then
    pure (1, faultingRegionBytes.byteCount)
  else do
    let quotient ← unwrap (faultingRegionBytes.checkedDiv constraints.maxMemoryBytes)
      (.unwrap "if condition above implies max_memory_bytes is non-zero")
    let remainder ← unwrap (faultingRegionBytes.checkedRem constraints.maxMemoryBytes)
      (.unwrap "if condition above implies max_memory_bytes is non-zero")
    let neededNumStripes ← addU64 overflowChecks quotient
      (if remainder.byteCount = 0 then 0 else 1)
    assert (decide (0 < neededNumStripes)) (.assert "needed_num_stripes > 0")
    let numStripes := min (min constraints.numPkeysAvailable neededNumStripes)
      constraints.numSlots
    let neededSlotBytes := max
      (if numStripes = 0 then faultingRegionBytes.byteCount
        else faultingRegionBytes.byteCount / numStripes)
      constraints.maxMemoryBytes.byteCount
    assert (decide (constraints.maxMemoryBytes.byteCount ≤ neededSlotBytes))
      (.assert "needed_slot_bytes >= max_memory_bytes.byte_count()")
    pure (numStripes, neededSlotBytes)

def calculate (overflowChecks : Bool) (constraints : SlabConstraints p) :
    Prog σ String (SlabLayout p) := do
  let preSlabGuardBytes :=
    if constraints.guardBeforeSlots then constraints.guardBytes else .zero
  let faultingRegionBytes ← orErr
    ((constraints.expectedSlotBytes.max constraints.maxMemoryBytes).checkedAdd
      constraints.guardBytes)
    "faulting region is too large"
  let (numStripes, slotBytes) ← stripesAndSlot overflowChecks constraints faultingRegionBytes
  let slotBytes ← orErr (newRoundedUp slotBytes) "slot size is too large"
  let postSlabGuardBytes := faultingRegionBytes.saturatingSub slotBytes
  let layout : SlabLayout p :=
    { numSlots := constraints.numSlots
      slotBytes
      maxMemoryBytes := constraints.maxMemoryBytes
      preSlabGuardBytes
      postSlabGuardBytes
      numStripes }
  let _ ← layout.totalSlabBytes
  pure layout

/-! ### What a layout is for -/

/-- The bytes from the base of a memory on in which compiled code may access memory. -/
def SlabConstraints.faultingRegion (c : SlabConstraints p) : Nat :=
  max c.expectedSlotBytes.byteCount c.maxMemoryBytes.byteCount + c.guardBytes.byteCount

def SlabLayout.base (layout : SlabLayout p) (i : Nat) : Nat :=
  layout.preSlabGuardBytes.byteCount + i * layout.slotBytes.byteCount

def SlabLayout.total (layout : SlabLayout p) : Nat :=
  layout.base layout.numSlots + layout.postSlabGuardBytes.byteCount

/-- **What the pool relies on.** Every slot has room for a memory, the slots of a stripe are
a faulting region apart, and the faulting region of a slot stays within the slab and away
from the memories of the other slots of its stripe. -/
structure SlabLayout.Isolates (c : SlabConstraints p) (layout : SlabLayout p) : Prop where
  numSlots : layout.numSlots = c.numSlots
  maxMemory : layout.maxMemoryBytes = c.maxMemoryBytes
  aligned : 2 ^ p ∣ layout.slotBytes.byteCount ∧ 2 ^ p ∣ layout.maxMemoryBytes.byteCount ∧
    2 ^ p ∣ layout.preSlabGuardBytes.byteCount ∧ 2 ^ p ∣ layout.postSlabGuardBytes.byteCount ∧
    2 ^ p ∣ layout.total ∧ ∀ i, 2 ^ p ∣ layout.base i
  fits : c.maxMemoryBytes.byteCount ≤ layout.slotBytes.byteCount
  covers : c.faultingRegion ≤ layout.slotBytes.byteCount * layout.numStripes
  total_lt : layout.total < u64Size
  inside : ∀ i < layout.numSlots, layout.base i + c.faultingRegion ≤ layout.total
  apart : ∀ i < layout.numSlots, ∀ j < layout.numSlots, j ≠ i →
    j % layout.numStripes = i % layout.numStripes →
    Disjoint (Set.Ico (layout.base i) (layout.base i + c.faultingRegion))
      (Set.Ico (layout.base j) (layout.base j + c.maxMemoryBytes.byteCount))

/-! ### Arithmetic of stripes -/

/-- **Nothing is lost by rounding**: `n` slots of an `n`-th of the region, rounded down and
then up to pages, hold the whole region when it consists of pages and `n` is at most the
size of one. -/
theorem le_alignUp_div_mul {n size : Nat} (hsize : 2 ^ p ∣ size) (hn : 0 < n)
    (hle : n ≤ 2 ^ p) : size ≤ alignUp p (size / n) * n := by
  have hlt : size < (size / n + 1) * n := by
    have := lt_mul_div_succ size hn
    rwa [Nat.mul_comm] at this
  rcases Nat.lt_or_ge (size / n) (alignUp p (size / n)) with hup | hup
  · calc size ≤ (size / n + 1) * n := hlt.le
      _ ≤ alignUp p (size / n) * n := Nat.mul_le_mul_right n hup
  -- The quotient is itself a number of pages, and what the division drops is less than one.
  · have heq : alignUp p (size / n) = size / n := le_antisymm hup (le_alignUp p _)
    obtain ⟨k, hk⟩ := hsize
    obtain ⟨c, hc⟩ := heq ▸ dvd_alignUp p (size / n)
    rw [heq, hc]
    have hkc : 2 ^ p * k < 2 ^ p * (c * n + 1) := by
      calc 2 ^ p * k = size := hk.symm
        _ < (2 ^ p * c + 1) * n := hc ▸ hlt
        _ = 2 ^ p * (c * n) + n := by ring
        _ ≤ 2 ^ p * (c * n + 1) := by rw [mul_succ]; omega
    have hk' : k ≤ c * n := Nat.lt_succ_iff.1 (Nat.lt_of_mul_lt_mul_left hkc)
    calc size = 2 ^ p * k := hk
      _ ≤ 2 ^ p * (c * n) := Nat.mul_le_mul_left _ hk'
      _ = 2 ^ p * c * n := by ring

namespace SlabLayout

variable {layout : SlabLayout p} {c : SlabConstraints p} {i j : Nat}

theorem base_mono (h : i ≤ j) : layout.base i ≤ layout.base j :=
  Nat.add_le_add_left (Nat.mul_le_mul_right _ h) _

theorem base_add (i n : Nat) :
    layout.base (i + n) = layout.base i + layout.slotBytes.byteCount * n := by
  unfold base
  ring

theorem base_succ (i : Nat) : layout.base (i + 1) = layout.base i + layout.slotBytes.byteCount := by
  rw [base_add, Nat.mul_one]

theorem region_le_base (hcov : c.faultingRegion ≤ layout.slotBytes.byteCount * layout.numStripes)
    (hij : i < j) (h : j % layout.numStripes = i % layout.numStripes) :
    layout.base i + c.faultingRegion ≤ layout.base j :=
  calc layout.base i + c.faultingRegion
      ≤ layout.base i + layout.slotBytes.byteCount * layout.numStripes :=
        Nat.add_le_add_left hcov _
    _ = layout.base (i + layout.numStripes) := (base_add _ _).symm
    _ ≤ layout.base j := base_mono (ModEq.add_le_of_lt h.symm hij)

theorem memory_le_base (hfit : c.maxMemoryBytes.byteCount ≤ layout.slotBytes.byteCount)
    (hij : i < j) : layout.base i + c.maxMemoryBytes.byteCount ≤ layout.base j :=
  calc layout.base i + c.maxMemoryBytes.byteCount
      ≤ layout.base i + layout.slotBytes.byteCount := Nat.add_le_add_left hfit _
    _ = layout.base (i + 1) := (base_succ i).symm
    _ ≤ layout.base j := base_mono hij

theorem regions_apart (hfit : c.maxMemoryBytes.byteCount ≤ layout.slotBytes.byteCount)
    (hcov : c.faultingRegion ≤ layout.slotBytes.byteCount * layout.numStripes)
    (hne : j ≠ i) (h : j % layout.numStripes = i % layout.numStripes) :
    Disjoint (Set.Ico (layout.base i) (layout.base i + c.faultingRegion))
      (Set.Ico (layout.base j) (layout.base j + c.maxMemoryBytes.byteCount)) := by
  rw [Set.disjoint_left]
  intro a ha hb
  rw [Set.mem_Ico] at ha hb
  rcases Nat.lt_or_gt_of_ne hne with hlt | hgt
  · have := memory_le_base hfit hlt
    omega
  · have := region_le_base hcov hgt h
    omega

theorem dvd_base (layout : SlabLayout p) (i : Nat) : 2 ^ p ∣ layout.base i :=
  Nat.dvd_add layout.preSlabGuardBytes.aligned (Dvd.dvd.mul_left layout.slotBytes.aligned i)

theorem totalSlabBytes_ok {total : HostAlignedByteCount p} {s s' : σ}
    (h : (layout.totalSlabBytes : Prog σ String _) s = (.ok total, s')) :
    total.byteCount = layout.total ∧ s' = s := by
  obtain ⟨heq, rfl⟩ := orErr_ok.1 h
  refine ⟨?_, rfl⟩
  obtain ⟨a, ha, hb⟩ := Option.bind_eq_some_iff.1 heq
  obtain ⟨b, hb, hc⟩ := Option.bind_eq_some_iff.1 hb
  rw [checkedAdd_some hc, checkedAdd_some hb,
    checkedMul_some ha]
  simp only [SlabLayout.total, base]
  ring

end SlabLayout

/-- What `calculate` needs of the number of stripes and the size of a slot: no more stripes
than slots and keys unless there is only one, and a share of the faulting region each. -/
structure Shares (c : SlabConstraints p) (numStripes slotBytes : Nat) : Prop where
  pos : 0 < numStripes
  few : numStripes = 1 ∨ numStripes ≤ c.numPkeysAvailable ∧ numStripes ≤ c.numSlots
  fits : c.maxMemoryBytes.byteCount ≤ slotBytes
  share : c.faultingRegion / numStripes ≤ slotBytes

theorem Shares.one (c : SlabConstraints p) : Shares c 1 c.faultingRegion where
  pos := Nat.one_pos
  few := .inl rfl
  fits := le_trans (le_max_right _ _) (Nat.le_add_right _ _)
  share := (Nat.div_one _).le

variable {checks : Bool} {c : SlabConstraints p} {layout : SlabLayout p} {s s' : σ}

theorem needed_lt {a m : Nat} (ha : a < u64Size) (hm : 0 < m) :
    a / m + (if a % m = 0 then 0 else 1) < u64Size := by
  have hle := Nat.div_le_self a m
  split_ifs with h
  · omega
  · have hm1 : m ≠ 1 := by
      rintro rfl
      exact h (mod_one a)
    have hpos : 0 < a := Nat.pos_of_ne_zero fun h0 => h (by rw [h0, zero_mod])
    have := Nat.div_lt_self hpos (by omega : 1 < m)
    omega

theorem needed_pos {a m : Nat} (ha : 0 < a) (hm : 0 < m) :
    0 < a / m + (if a % m = 0 then 0 else 1) := by
  split_ifs with h
  · have := Nat.div_pos (le_of_dvd ha (dvd_of_mod_eq_zero h)) hm
    omega
  · exact succ_pos _

theorem stripesAndSlot_wp {region : HostAlignedByteCount p}
    (hregion : region.byteCount = c.faultingRegion) :
    wp (stripesAndSlot checks c region : Prog σ String _)
      (fun r _ => Shares c r.1 r.2) (fun _ _ => True) s := by
  unfold stripesAndSlot
  split_ifs with hempty hkeys
  · exact (hregion ▸ Shares.one c : Shares c 1 region.byteCount)
  · exact (hregion ▸ Shares.one c : Shares c 1 region.byteCount)
  · simp only [not_or] at hempty
    have hm : 0 < c.maxMemoryBytes.byteCount := Nat.pos_of_ne_zero hempty.2.1
    have hpos : 0 < region.byteCount := by
      rw [hregion]
      exact lt_of_lt_of_le hm (Shares.one c).fits
    have hlt := needed_lt region.lt hm
    have hneeded := needed_pos hpos hm
    simp only [HostAlignedByteCount.checkedDiv, HostAlignedByteCount.checkedRem,
      if_neg hempty.2.1, wp_bind, wp_unwrap, Option.some.injEq, exists_eq_left']
    rw [wp, addU64_run hlt]
    simp only [wp_bind, wp_assert, wp_pure, decide_eq_true_eq]
    have hn : 0 < min (min c.numPkeysAvailable (region.byteCount / c.maxMemoryBytes.byteCount +
        if region.byteCount % c.maxMemoryBytes.byteCount = 0 then 0 else 1)) c.numSlots := by
      omega
    refine ⟨hneeded, le_max_right _ _, hn, .inr ⟨?_, min_le_right _ _⟩, le_max_right _ _, ?_⟩
    · exact le_trans (min_le_left _ _) (min_le_left _ _)
    · rw [if_neg hn.ne', hregion]
      exact le_max_left _ _

theorem calculate_wp :
    wp (calculate checks c : Prog σ String _)
      (fun l _ => ∃ slot, Shares c l.numStripes slot ∧
        l.slotBytes.byteCount = alignUp p slot ∧ l.numSlots = c.numSlots ∧
        l.maxMemoryBytes = c.maxMemoryBytes ∧
        l.postSlabGuardBytes.byteCount = c.faultingRegion - l.slotBytes.byteCount ∧
        l.total < u64Size)
      (fun _ _ => True) s := by
  unfold calculate
  simp only [wp_bind, wp_orErr]
  refine ⟨fun region hregion => ?_, fun _ => trivial⟩
  have hr : region.byteCount = c.faultingRegion := by
    rw [checkedAdd_some hregion, max_byteCount]
    rfl
  refine wp_mono (stripesAndSlot_wp hr) (fun r s hshares => ?_) (fun _ _ _ => trivial)
  simp only [wp_bind, wp_orErr]
  refine ⟨fun slot hslot => ?_, fun _ => trivial⟩
  unfold SlabLayout.totalSlabBytes
  rw [wp_orErr]
  refine ⟨fun total htotal => ?_, fun _ => trivial⟩
  refine ⟨r.2, hshares, newRoundedUp_some hslot, rfl, rfl, ?_, ?_⟩
  · rw [← hr]
    rfl
  · have hok := SlabLayout.totalSlabBytes_ok (s := s) (orErr_ok.2 ⟨htotal, rfl⟩)
    exact hok.1 ▸ total.lt

namespace SlabLayout

theorem Isolates.of_shares {slot : Nat} (hkeys : c.numPkeysAvailable ≤ 2 ^ p)
    (hshares : Shares c layout.numStripes slot)
    (hslot : layout.slotBytes.byteCount = alignUp p slot) (hnum : layout.numSlots = c.numSlots)
    (hmax : layout.maxMemoryBytes = c.maxMemoryBytes)
    (hpost : layout.postSlabGuardBytes.byteCount = c.faultingRegion - layout.slotBytes.byteCount)
    (htotal : layout.total < u64Size) : layout.Isolates c := by
  have hfits : c.maxMemoryBytes.byteCount ≤ layout.slotBytes.byteCount := by
    rw [hslot]
    exact le_trans hshares.fits (le_alignUp p slot)
  have hpages : 2 ^ p ∣ c.faultingRegion := by
    refine Nat.dvd_add ?_ c.guardBytes.aligned
    rcases max_choice c.expectedSlotBytes.byteCount c.maxMemoryBytes.byteCount with h | h
    · rw [h]
      exact c.expectedSlotBytes.aligned
    · rw [h]
      exact c.maxMemoryBytes.aligned
  have hle : layout.numStripes ≤ 2 ^ p := by
    rcases hshares.few with h | h
    · rw [h]
      exact Nat.two_pow_pos p
    · exact le_trans h.1 hkeys
  have hcovers : c.faultingRegion ≤ layout.slotBytes.byteCount * layout.numStripes := by
    calc c.faultingRegion
        ≤ alignUp p (c.faultingRegion / layout.numStripes) * layout.numStripes :=
          le_alignUp_div_mul hpages hshares.pos hle
      _ ≤ alignUp p slot * layout.numStripes :=
          Nat.mul_le_mul_right _ (alignUp_mono hshares.share)
      _ = layout.slotBytes.byteCount * layout.numStripes := by rw [hslot]
  refine ⟨hnum, hmax, ⟨layout.slotBytes.aligned, layout.maxMemoryBytes.aligned,
    layout.preSlabGuardBytes.aligned, layout.postSlabGuardBytes.aligned,
    Nat.dvd_add (dvd_base _ _) layout.postSlabGuardBytes.aligned, dvd_base layout⟩, hfits,
    hcovers, htotal, fun i hi => ?_, fun i _ j _ hne h => regions_apart hfits hcovers hne h⟩
  have hnext : layout.base i + layout.slotBytes.byteCount ≤ layout.base layout.numSlots :=
    le_of_eq_of_le (base_succ i).symm (base_mono hi)
  unfold total
  omega

theorem bytesToNextStripeSlot_run {slot : Nat} (hshares : Shares c layout.numStripes slot)
    (hnum : layout.numSlots = c.numSlots) (htotal : layout.total < u64Size) :
    ∃ next : HostAlignedByteCount p,
      (layout.bytesToNextStripeSlot : Prog σ String _) s = (.ok next, s) ∧
      next.byteCount = layout.slotBytes.byteCount * layout.numStripes := by
  have hlt : layout.slotBytes.byteCount * layout.numStripes < u64Size := by
    rcases hshares.few with h | h
    · rw [h, Nat.mul_one]
      exact layout.slotBytes.lt
    · have := Nat.mul_le_mul_left layout.slotBytes.byteCount h.2
      have hbase : layout.slotBytes.byteCount * layout.numSlots ≤ layout.base layout.numSlots := by
        rw [Nat.mul_comm]
        exact Nat.le_add_left _ _
      unfold total at htotal
      rw [hnum] at hbase htotal
      omega
  obtain ⟨next, hnext, hbytes⟩ := checkedMul_run hlt
  exact ⟨next, unwrap_ok.2 ⟨hnext, rfl⟩, hbytes⟩

theorem getBase_run {mapping : Mmap p} {i : Nat} (hlen : mapping.len.byteCount = layout.total)
    (hi : i < layout.numSlots) :
    ∃ offset : HostAlignedByteCount p,
      layout.getBase mapping i s = ((.ok offset, s) : Outcome String _ × σ) ∧
      offset.byteCount = layout.base i := by
  have hle : layout.base i ≤ mapping.len.byteCount := by
    rw [hlen]
    exact le_trans (base_mono hi.le) (Nat.le_add_right _ _)
  have hlt := lt_of_le_of_lt hle mapping.len.lt
  unfold base at hle hlt
  rw [Nat.mul_comm] at hle hlt
  obtain ⟨a, ha, hab⟩ := checkedMul_run (a := layout.slotBytes) (n := i)
    (lt_of_le_of_lt (Nat.le_add_left _ _) hlt)
  obtain ⟨b, hb, hbb⟩ := checkedAdd_run (a := a)
    (b := layout.preSlabGuardBytes) (by rw [hab]; omega)
  refine ⟨b, ?_, by rw [hbb, hab, base, Nat.mul_comm, Nat.add_comm]⟩
  have hin : b.byteCount ≤ mapping.len.byteCount := by
    rw [hbb, hab]
    omega
  refine bind_ok.2 ⟨(), s, assert_ok.2 ⟨decide_eq_true hi, rfl⟩, ?_⟩
  refine bind_ok.2 ⟨b, s, unwrap_ok.2 ⟨?_, rfl⟩, ?_⟩
  · rw [ha, Option.bind_some, hb]
  · exact bind_ok.2 ⟨(), s, assert_ok.2 ⟨decide_eq_true hin, rfl⟩, rfl⟩

end SlabLayout

theorem SlabConstraints.new_ok {limits : InstanceLimits} {tunables : Tunables} {keys : Nat}
    (h : (SlabConstraints.new limits tunables keys : Prog σ String _) s = (.ok c, s')) :
    tunables.memoryReservation + tunables.memoryGuardSize ≤ c.faultingRegion := by
  obtain ⟨expected, s1, hexpected, h1⟩ := bind_ok.1 h
  obtain ⟨memory, s2, -, h2⟩ := bind_ok.1 h1
  obtain ⟨guard, s3, hguard, h3⟩ := bind_ok.1 h2
  obtain ⟨rfl, -⟩ := pure_ok.1 h3
  have he := le_alignUp p tunables.memoryReservation
  have hg := le_alignUp p tunables.memoryGuardSize
  rw [← newRoundedUp_some (orErr_ok.1 hexpected).1] at he
  rw [← newRoundedUp_some (orErr_ok.1 hguard).1] at hg
  exact Nat.add_le_add (le_trans he (le_max_left _ _)) hg

/-- **The layout of the pool isolates its memories.** Whenever `calculate` returns a layout,
with no more protection keys than bytes in a page, the layout isolates, the base of each of
its slots is where it should be, and in a pool that was made with some tunables the assertion
of `allocate` holds for them. -/
theorem calculate_isolates (hkeys : c.numPkeysAvailable ≤ 2 ^ p)
    (h : (calculate checks c : Prog σ String _) s = (.ok layout, s')) :
    layout.Isolates c ∧
      (∀ (mapping : Mmap p) (i : Nat) (t : σ), mapping.len.byteCount = layout.total →
        i < layout.numSlots → ∃ offset : HostAlignedByteCount p,
          layout.getBase mapping i t = ((.ok offset, t) : Outcome String _ × σ) ∧
          offset.byteCount = layout.base i) ∧
      ∀ (limits : InstanceLimits) (tunables : Tunables) (t : σ),
        (SlabConstraints.new limits tunables c.numPkeysAvailable : Prog σ String _) t =
          (.ok c, t) →
        layout.assertReservation checks tunables t = (.ok (), t) := by
  obtain ⟨slot, hshares, hslot, hnum, hmax, hpost, htotal⟩ := wp_ok calculate_wp h
  have hiso := SlabLayout.Isolates.of_shares hkeys hshares hslot hnum hmax hpost htotal
  refine ⟨hiso, fun mapping i t hlen hi => SlabLayout.getBase_run hlen hi,
    fun limits tunables t hnew => ?_⟩
  have hle := le_trans (SlabConstraints.new_ok hnew) hiso.covers
  obtain ⟨next, hnext, hbytes⟩ :=
    SlabLayout.bytesToNextStripeSlot_run (s := t) hshares hnum htotal
  have hsum : tunables.memoryReservation + tunables.memoryGuardSize < u64Size :=
    lt_of_le_of_lt (hbytes ▸ hle) next.lt
  unfold SlabLayout.assertReservation
  rw [run_bind_ok (addU64_run hsum), run_bind_ok hnext, hbytes, decide_eq_true hle]
  rfl

/-- Four keys for ten memories of two pages: a slot takes five pages instead of eighteen. -/
theorem calculate_isolates_four_keys :
    let pages (n : Nat) (h : n * 4096 < u64Size) : HostAlignedByteCount 12 :=
      ⟨n * 4096, Nat.dvd_mul_left _ _, h⟩
    let c : SlabConstraints 12 :=
      ⟨pages 16 (by decide), pages 2 (by decide), 10, 4, pages 2 (by decide), true⟩
    let layout : SlabLayout 12 :=
      ⟨10, pages 5 (by decide), pages 2 (by decide), pages 2 (by decide), pages 13 (by decide), 4⟩
    (calculate true c : Prog Unit String _) () = (.ok layout, ()) ∧ layout.Isolates c := by
  intro pages c layout
  have hrun : (calculate true c : Prog Unit String _) () = (.ok layout, ()) := by decide +kernel
  exact ⟨hrun, (calculate_isolates (by decide) hrun).1⟩

end Wasmtime.Vm
