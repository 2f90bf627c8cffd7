import Wasmtime.Base.Word

/-!
# Types of linear memories

`Memory` of `environ/src/types.rs`, and what the compilers and the runtime conclude from it and from
the `Tunables` about layout and checks. A `Memory` here is one that validation accepts: its page
size is 1 or 64KiB, and its limits are in order and within what its index type can address.
-/

namespace Wasmtime.Environ

open Base

inductive IndexType where
  | i32
  | i64
deriving DecidableEq

def IndexType.size : IndexType → Nat
  | i32 => 2 ^ 32
  | i64 => 2 ^ 64

structure Limits where
  min : Nat
  max : Option Nat
deriving DecidableEq

structure Tunables where
  memoryReservation : Nat
  memoryGuardSize : Nat
  memoryReservationForGrowth : Nat
  memoryMayMove : Bool
  guardBeforeLinearMemory : Bool
  signalsBasedTraps : Bool
  reservation_lt : memoryReservation < u64Size
  guard_lt : memoryGuardSize < u64Size
  growth_lt : memoryReservationForGrowth < u64Size

def Tunables.defaultU64 : Tunables where
  memoryReservation := 2 ^ 32
  memoryGuardSize := 2 ^ 25
  memoryReservationForGrowth := 2 ^ 31
  memoryMayMove := true
  guardBeforeLinearMemory := true
  signalsBasedTraps := true
  reservation_lt := by decide
  guard_lt := by decide
  growth_lt := by decide

structure Memory where
  idxType : IndexType
  limits : Limits
  shared : Bool
  pageSizeLog2 : Nat
  page_ok : pageSizeLog2 = 0 ∨ pageSizeLog2 = 16
  min_lt : limits.min < u64Size
  max_lt : ∀ m ∈ limits.max, m < u64Size
  min_ok : limits.min * 2 ^ pageSizeLog2 ≤ idxType.size
  max_ok : ∀ m ∈ limits.max, limits.min ≤ m ∧ m * 2 ^ pageSizeLog2 ≤ idxType.size
deriving DecidableEq

def wasm32MaxSize : Nat := 2 ^ 32

namespace Memory

def pageSize (m : Memory) : Nat := 2 ^ m.pageSizeLog2

def minimumByteSize (m : Memory) : Option Nat := checkedMul m.limits.min m.pageSize

/-- `0_u64.wrapping_sub(page_size)` for 64-bit memories. -/
def maxSizeBasedOnIndexType (m : Memory) : Nat :=
  match m.idxType with
  | .i64 => (u64Size - m.pageSize) % u64Size
  | .i32 => wasm32MaxSize

def maximumByteSize (m : Memory) : Option Nat :=
  match m.limits.max with
  | some max => checkedMul max m.pageSize
  | none => m.minimumByteSize.map (fun min => max min m.maxSizeBasedOnIndexType)

def canUseVirtualMemory (m : Memory) (tunables : Tunables) (hostPageSizeLog2 : Nat) : Bool :=
  tunables.signalsBasedTraps && decide (hostPageSizeLog2 ≤ m.pageSizeLog2)

def canElideBoundsCheck (m : Memory) (tunables : Tunables) (hostPageSizeLog2 : Nat) : Bool :=
  m.canUseVirtualMemory tunables hostPageSizeLog2 && decide (m.idxType = .i32) &&
    decide (2 ^ 32 ≤ tunables.memoryReservation)

def staticHeapSize (m : Memory) : Option Nat :=
  match m.minimumByteSize, m.maximumByteSize with
  | some min, some max => if min = max then some min else none
  | _, _ => none

def memoryMayMove (m : Memory) (tunables : Tunables) : Bool :=
  if m.shared then
    false
  else if !tunables.memoryMayMove then
    false
  else if m.limits.max.any (fun max => decide (m.limits.min = max)) then
    false
  else
    decide (tunables.memoryReservation < m.maximumByteSize.getD u64Max)

/-- The lengths a memory of this type may have: from its minimum to its maximum, both as
integers, and never as much as the whole address space. -/
structure Allows (m : Memory) (len : Nat) : Prop where
  min_le : m.limits.min * m.pageSize ≤ len
  le_max : ∀ max, m.maximumByteSize = some max → len ≤ max
  lt : len < u64Size

variable {m : Memory}

theorem pageSize_pos (m : Memory) : 0 < m.pageSize := Nat.two_pow_pos _

theorem minimumByteSize_eq {n : Nat} :
    m.minimumByteSize = some n ↔ n = m.limits.min * m.pageSize ∧ n < u64Size := checkedMul_eq

theorem Allows.minimum {len : Nat} (h : m.Allows len) :
    m.minimumByteSize = some (m.limits.min * m.pageSize) :=
  minimumByteSize_eq.2 ⟨rfl, lt_of_le_of_lt h.min_le h.lt⟩

theorem minimum_le_maximum {max : Nat} (h : m.maximumByteSize = some max) :
    m.limits.min * m.pageSize ≤ max := by
  unfold maximumByteSize at h
  rcases hmax : m.limits.max with _ | pages
  · rw [hmax] at h
    obtain ⟨min, hmin, rfl⟩ := Option.map_eq_some_iff.1 h
    rw [← (minimumByteSize_eq.1 hmin).1]
    exact le_max_left _ _
  · rw [hmax] at h
    rw [(checkedMul_eq.1 h).1]
    exact Nat.mul_le_mul_right _ (m.max_ok pages hmax).1

theorem Allows.le_maximum {len : Nat} (h : m.Allows len) :
    len ≤ m.maximumByteSize.getD u64Max := by
  rcases hm : m.maximumByteSize with _ | max
  · have := h.lt
    simp only [Option.getD_none, u64Max, u64Size] at this ⊢
    omega
  · exact h.le_max max hm

theorem maximumByteSize_i32 (h : m.idxType = .i32) :
    ∃ max, m.maximumByteSize = some max ∧ max ≤ 2 ^ 32 := by
  have hsize : m.idxType.size = 2 ^ 32 := by rw [h]; rfl
  unfold maximumByteSize
  rcases hmax : m.limits.max with _ | max
  · have hmin := m.min_ok
    rw [hsize] at hmin
    have hbytes : m.minimumByteSize = some (m.limits.min * m.pageSize) :=
      minimumByteSize_eq.2 ⟨rfl, lt_of_le_of_lt hmin (by norm_num [u64Size])⟩
    refine ⟨_, by rw [hbytes]; rfl, ?_⟩
    simp only [maxSizeBasedOnIndexType, h, wasm32MaxSize, sup_le_iff, le_refl, and_true]
    exact hmin
  · have hle := (m.max_ok max hmax).2
    rw [hsize] at hle
    exact ⟨max * m.pageSize, checkedMul_eq.2 ⟨rfl, lt_of_le_of_lt hle (by norm_num [u64Size])⟩, hle⟩

theorem Allows.static {len size : Nat} (h : m.Allows len) (hs : m.staticHeapSize = some size) :
    len = size := by
  unfold staticHeapSize at hs
  rw [h.minimum] at hs
  rcases hmax : m.maximumByteSize with _ | max
  · simp [hmax] at hs
  · rw [hmax] at hs
    simp only [Option.ite_none_right_eq_some, Option.some.injEq] at hs
    have := h.le_max max hmax
    have := h.min_le
    omega

theorem pageSize_standard : (16 : Nat) = 0 ∨ (16 : Nat) = 16 := Or.inr rfl

def wasm32 (min : Nat) (h : min ≤ 2 ^ 16) : Memory where
  idxType := .i32
  limits := { min, max := none }
  shared := false
  pageSizeLog2 := 16
  page_ok := pageSize_standard
  min_lt := by simp only [u64Size]; omega
  max_lt := by simp
  min_ok := by simp only [IndexType.size]; omega
  max_ok := by simp

end Memory

end Wasmtime.Environ
