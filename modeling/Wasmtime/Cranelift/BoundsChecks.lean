import Wasmtime.Cranelift.Clif

/-!
# Bounds checks in Cranelift

`cranelift/src/bounds_checks.rs` for a 64-bit target: the code that is emitted for an access of
`access_size` bytes at `index + offset`. Depending on the memory's type, the tunables and the
target, the check compares the index with one bound or another, or there is none. Emitting code can
panic; arithmetic on `u64`s that overflows panics with overflow checks and wraps without them.

`heap_access_sandboxed`: whatever code is emitted, the access is confined to the memory and
permitted exactly when it is in bounds. `prepareAddr_sandboxed` is the same for offsets of `2 ^ 32`
and more, which `prepare_addr` folds into the index.
-/

namespace Wasmtime.Cranelift

open Base Prog Environ List Option Nat

/-- The compilation environment: the settings that `FuncEnvironment` reads. -/
structure Env where
  tunables : Tunables
  hostPageSizeLog2 : Nat
  isPulley : Bool
  heapAccessSpectreMitigation : Bool
  overflowChecks : Bool

namespace Env

def clifMemoryTrapsEnabled (env : Env) : Bool := env.tunables.signalsBasedTraps && !env.isPulley

def loadFromZeroAllowed (env : Env) : Bool :=
  env.isPulley || env.clifMemoryTrapsEnabled && env.heapAccessSpectreMitigation

def canUseVirtualMemory (env : Env) (m : Memory) : Bool :=
  m.canUseVirtualMemory env.tunables env.hostPageSizeLog2 && env.clifMemoryTrapsEnabled

def canElideBoundsCheck (env : Env) (m : Memory) : Bool :=
  m.canElideBoundsCheck env.tunables env.hostPageSizeLog2 && env.clifMemoryTrapsEnabled

end Env

structure HeapData where
  memory : Memory
  /-- Whether there is a memory type for proof-carrying code. -/
  pcc : Bool

/-- Emitting code; the state is the code so far. -/
abbrev Emit (α : Type) : Type := Prog (List Inst) Empty α

def emit (i : Inst) : Emit Unit := Prog.modify (fun code => code ++ [i])

inductive OobBehavior where
  | explicitTrap
  | conditionallyLoadFromZero

def Env.oobBehavior (env : Env) : OobBehavior :=
  if env.heapAccessSpectreMitigation && env.clifMemoryTrapsEnabled then .conditionallyLoadFromZero
  else if env.loadFromZeroAllowed then .conditionallyLoadFromZero
  else .explicitTrap

def castIndexToPointerTy (index : Value) : IndexType → Value
  | .i64 => index
  | .i32 => .uextend index

def computeAddr (index : Value) (offset : Nat) : Value :=
  if offset = 0 then .iadd .i64 .heapBase index
  else .iadd .i64 (.iadd .i64 .heapBase index) (.iconst .i64 offset)

def explicitCheckOobConditionAndComputeAddr (env : Env) (index : Value) (offset : Nat)
    (oob : Value) : Emit (Option Value) :=
  match env.oobBehavior with
  | .explicitTrap => do
    emit (.trapnz oob)
    pure (some (computeAddr index offset))
  | .conditionallyLoadFromZero => do
    assert env.loadFromZeroAllowed (.assert "env.load_from_zero_allowed()")
    pure (some (.select oob (.iconst .i64 0) (computeAddr index offset)))

def getDynamicHeapBound (heap : HeapData) : Value :=
  match heap.memory.staticHeapSize with
  | some maxSize => if heap.pcc then .heapBound else .iconst .i64 maxSize
  | none => .heapBound

def staticallyInBounds (heap : HeapData) (index : Value) (offsetAndSize : Nat) : Bool :=
  match index with
  | .iconst ty imm =>
    decide (imm % ty.size + offsetAndSize < u64Size) &&
      decide (imm % ty.size + offsetAndSize ≤ heap.memory.minimumByteSize.getD u64Max)
  | _ => false

def Env.reservationAndGuard (env : Env) : Emit Nat :=
  addU64 env.overflowChecks env.tunables.memoryReservation env.tunables.memoryGuardSize

/-- The memory's length is taken to be its reservation. -/
def Env.usesReservation (env : Env) (m : Memory) : Bool := env.canUseVirtualMemory m &&
    decide (m.minimumByteSize.getD u64Max ≤ env.tunables.memoryReservation) &&
    !m.memoryMayMove env.tunables

/-- The cases of `bounds_check_field_access` in which there is a check against some bound. -/
def boundsCheckDynamic (env : Env) (heap : HeapData) (index : Value) (offset accessSize : Nat) :
    Emit (Option Value) :=
  let offsetAndSize := offset + accessSize
  let bound := getDynamicHeapBound heap
  if env.usesReservation heap.memory then do
    let adjustedBound ← unwrap (checkedSub env.tunables.memoryReservation offsetAndSize)
      (.unwrap "memory_reservation.checked_sub(offset_and_size)")
    explicitCheckOobConditionAndComputeAddr env index offset
      (.icmp .unsignedGreaterThan index (.iconst .i64 adjustedBound))
  else if offsetAndSize = 1 && !env.isPulley then
    explicitCheckOobConditionAndComputeAddr env index offset
      (.icmp .unsignedGreaterThanOrEqual index bound)
  else if env.canUseVirtualMemory heap.memory &&
      decide (offsetAndSize ≤ env.tunables.memoryGuardSize) then
    explicitCheckOobConditionAndComputeAddr env index offset
      (.icmp .unsignedGreaterThan index bound)
  else if offsetAndSize ≤ heap.memory.minimumByteSize.getD u64Max then
    explicitCheckOobConditionAndComputeAddr env index offset
      (.icmp .unsignedGreaterThan index (.isub .i64 bound (.iconst .i64 offsetAndSize)))
  else do
    emit (.uaddOverflowTrap .i64 index (.iconst .i64 offsetAndSize))
    explicitCheckOobConditionAndComputeAddr env index offset
      (.icmp .unsignedGreaterThan (.iadd .i64 index (.iconst .i64 offsetAndSize)) bound)

/-- The cases in which the index may be known to be in bounds. -/
def boundsCheckStatic (env : Env) (heap : HeapData) (index : Value) (offset accessSize : Nat) :
    Emit (Option Value) :=
  let extended := castIndexToPointerTy index heap.memory.idxType
  if staticallyInBounds heap index (offset + accessSize) then do
    -- the argument of `AddrPcc::static32`
    let _ ← env.reservationAndGuard
    pure (some (computeAddr extended offset))
  else
    boundsCheckDynamic env heap extended offset accessSize

def boundsCheckFieldAccess (env : Env) (heap : HeapData) (index : Value)
    (offset accessSize : Nat) : Emit (Option Value) :=
  let offsetAndSize := offset + accessSize
  if heap.memory.maximumByteSize.getD u64Max < offsetAndSize then do
    emit .trap
    pure none
  else if env.canElideBoundsCheck heap.memory then do
    let end_ ← env.reservationAndGuard
    let room ← subU64 env.overflowChecks end_ offsetAndSize
    if 2 ^ 32 - 1 ≤ room then do
      assert (decide (heap.memory.idxType = .i32)) (.assert "heap.index_type() == I32")
      assert (env.canUseVirtualMemory heap.memory) (.assert "can_use_virtual_memory")
      pure (some (computeAddr (castIndexToPointerTy index heap.memory.idxType) offset))
    else
      boundsCheckStatic env heap index offset accessSize
  else
    boundsCheckStatic env heap index offset accessSize

inductive BoundsCheck where
  | staticOffset (offset accessSize : Nat)
  | staticObjectField (offset accessSize objectSize : Nat)
  | dynamicObjectField (offset objectSize : Value)

def fieldAddr (f : Value → Value) (obj : Emit (Option Value)) : Emit (Option Value) := do
  match ← obj with
  | some v => pure (some (f v))
  | none => pure none

def boundsCheckAndComputeAddr (env : Env) (heap : HeapData) (index : Value) :
    BoundsCheck → Emit (Option Value)
  | .staticOffset offset accessSize => boundsCheckFieldAccess env heap index offset accessSize
  | .staticObjectField offset accessSize objectSize => do
    assert (decide (offset + accessSize < 2 ^ 32))
      (.unwrap "offset.checked_add(access_size.into())")
    assert (decide (offset + accessSize ≤ objectSize))
      (.assert "offset_and_access_size <= object_size")
    if objectSize < 256 then
      fieldAddr (fun v => .iadd .i64 v (.iconst .i64 offset))
        (boundsCheckFieldAccess env heap index 0 objectSize)
    else
      boundsCheckFieldAccess env heap index offset accessSize
  | .dynamicObjectField offset objectSize => do
    assert (decide (heap.memory.idxType = .i32)) (.assert "heap.index_type() == I32")
    emit (.uaddOverflowTrap .i32 index objectSize)
    fieldAddr (fun v => .isub .i64 v (.uextend (.isub .i32 objectSize offset)))
      (boundsCheckFieldAccess env heap (.iadd .i32 index objectSize) 0 0)

/-- An offset that is not a `u32` is added to the index, with a trap on overflow. -/
def prepareAddr (env : Env) (heap : HeapData) (index : Value) (offset accessSize : Nat) :
    Emit (Option Value) :=
  let ty := heap.memory.idxType
  if offset < 2 ^ 32 then
    boundsCheckAndComputeAddr env heap index (.staticOffset offset accessSize)
  else do
    emit (.uaddOverflowTrap ty index (.iconst ty offset))
    boundsCheckAndComputeAddr env heap (.iadd ty index (.iconst ty offset))
      (.staticOffset 0 accessSize)

/-! ### The code for a static offset -/

section

variable {env : Env} {heap : HeapData} {m : Machine} {index : Value} {offset size : Nat}
  {code code' : List Inst} {r : Option Value}

theorem eval_computeAddr (hoffset : offset < u64Size) :
    m.eval (computeAddr index offset) = (m.base + m.eval index + offset) % u64Size := by
  unfold computeAddr
  split_ifs with h
  · subst h
    rfl
  · show ((m.base + m.eval index) % u64Size + offset % u64Size) % u64Size = _
    rw [mod_eq_of_lt hoffset, mod_add_mod]

theorem eval_ugt {a b : Value} : m.eval (.icmp .unsignedGreaterThan a b) ≠ 0 ↔
    m.eval b < m.eval a := by
  simp [Machine.eval, IntCC.holds]

theorem eval_uge {a b : Value} : m.eval (.icmp .unsignedGreaterThanOrEqual a b) ≠ 0 ↔
    m.eval b ≤ m.eval a := by
  simp [Machine.eval, IntCC.holds]

@[simp] theorem eval_castIndexToPointerTy (ty : IndexType) :
    m.eval (castIndexToPointerTy index ty) = m.eval index := by
  cases ty <;> rfl

theorem eval_getDynamicHeapBound {len : Nat} (hlen : heap.memory.Allows len)
    (hbound : m.bound = len) : m.eval (getDynamicHeapBound heap) = len := by
  unfold getDynamicHeapBound
  rcases hs : heap.memory.staticHeapSize with _ | max
  · exact hbound
  · simp only
    split_ifs
    · exact hbound
    · rw [← hlen.static hs]
      exact mod_eq_of_lt hlen.lt

variable {faults : Nat → Prop} {len capacity : Nat} {P : Reached → Prop}

/-- What is common to the checked cases, behind code that may trap: if the comparison holds, the
access is out of bounds; and if not, it is confined as it is. What is to be shown, `P`, holds of a
trap if the code before traps, and if not, of what is sandboxed. -/
theorem explicitCheck_sandboxed {vm : Bool} {oob : Value}
    (hl : Layout env.tunables vm faults m.base len capacity) (hoffset : offset < u64Size)
    (hsize : 0 < size ∧ size ≤ 4096)
    (hx : explicitCheckOobConditionAndComputeAddr env index offset oob code = (.ok r, code'))
    (htrap : code.any m.traps = true → P .trap)
    (hP : code.any m.traps = false →
      ∀ x, Sandboxed faults m.base len (m.eval index) offset size x → P x)
    (hoob : m.eval oob ≠ 0 → len < m.eval index + offset + size)
    (hin : code.any m.traps = false → m.eval oob = 0 → Sandboxed faults m.base len (m.eval index)
      offset size (.access ((m.base + m.eval index + offset) % u64Size))) :
    P (m.reached code' r) := by
  unfold explicitCheckOobConditionAndComputeAddr at hx
  rcases hb : env.oobBehavior
  · obtain ⟨rfl, rfl⟩ : r = some (computeAddr index offset) ∧ code' = code ++ [.trapnz oob] := by
      simp only [hb, emit, bind_ok, modify_ok, pure_ok] at hx
      obtain ⟨_, _, rfl, rfl, rfl⟩ := hx
      exact ⟨rfl, rfl⟩
    unfold Machine.reached
    rw [any_append]
    by_cases hc : code.any m.traps = true
    · simp only [hc, Bool.true_or, if_true]
      exact htrap hc
    · have hc : code.any m.traps = false := by simpa using hc
      refine hP hc _ ?_
      by_cases ho : m.eval oob = 0
      · simp only [hc, any_cons, Machine.traps, ho, any_nil, ne_eq, not_true_eq_false,
          decide_false, Bool.or_self, Bool.false_eq_true, if_false, eval_computeAddr hoffset]
        exact hin hc ho
      · simp only [hc, any_cons, Machine.traps, ho, ne_eq, not_false_eq_true, decide_true,
          Bool.true_or, Bool.or_true, if_true]
        exact .trap (hoob ho)
  · obtain ⟨rfl, rfl⟩ : r = some (.select oob (.iconst .i64 0) (computeAddr index offset)) ∧
        code' = code := by
      simp only [hb, bind_ok, assert_ok, pure_ok] at hx
      obtain ⟨_, _, ⟨_, rfl⟩, rfl, rfl⟩ := hx
      exact ⟨rfl, rfl⟩
    unfold Machine.reached
    by_cases hc : code'.any m.traps = true
    · simp only [hc, if_true]
      exact htrap hc
    · have hc : code'.any m.traps = false := by simpa using hc
      refine hP hc _ ?_
      by_cases ho : m.eval oob = 0
      · simp only [hc, Machine.eval, ho, Bool.false_eq_true, if_false, if_true,
          eval_computeAddr hoffset]
        exact hin hc ho
      · simp only [hc, Machine.eval, ho, Bool.false_eq_true, if_false, zero_mod]
        exact .null hl hsize (hoob ho)

theorem reached_computeAddr (hoffset : offset < u64Size)
    (htrap : code.any m.traps = true → P .trap)
    (h : code.any m.traps = false → P (.access ((m.base + m.eval index + offset) % u64Size))) :
    P (m.reached code (some (computeAddr index offset))) := by
  unfold Machine.reached
  split
  · exact htrap ‹_›
  · rw [← eval_computeAddr hoffset] at h
    exact h (Bool.eq_false_iff.2 ‹_›)

variable (hoffset : offset < 2 ^ 32) (hsize : 0 < size ∧ size ≤ 255)
  (hlen : heap.memory.Allows len) (hbound : m.bound = len)
  (hmove : heap.memory.memoryMayMove env.tunables = false →
    heap.memory.limits.min * heap.memory.pageSize ≤ env.tunables.memoryReservation →
    len ≤ env.tunables.memoryReservation)
  (hl : Layout env.tunables (heap.memory.canUseVirtualMemory env.tunables env.hostPageSizeLog2)
    faults m.base len capacity) (htrap : code.any m.traps = true → P .trap)
  (hP : code.any m.traps = false →
    ∀ x, Sandboxed faults m.base len (m.eval index) offset size x → P x)

include hoffset hsize hlen hbound hmove hl htrap hP

theorem boundsCheckDynamic_sandboxed
    (hx : boundsCheckDynamic env heap index offset size code = (.ok r, code')) :
    P (m.reached code' r) := by
  have hoff : offset < u64Size := lt_trans hoffset (by norm_num [u64Size])
  have hsz : 0 < size ∧ size ≤ 4096 := ⟨hsize.1, by omega⟩
  have hmin := hlen.minimum
  have hb := eval_getDynamicHeapBound hlen hbound
  have hvm : env.canUseVirtualMemory heap.memory = true →
      heap.memory.canUseVirtualMemory env.tunables env.hostPageSizeLog2 = true := fun h =>
    (Bool.and_eq_true_iff.1 h).1
  -- an access that the comparison lets through does not wrap around
  have hexact : m.eval index + offset + size ≤ len →
      Sandboxed faults m.base len (m.eval index) offset size
        (.access ((m.base + m.eval index + offset) % u64Size)) := fun hle => by
    have := hl.fits
    rw [mod_eq_of_lt (by omega)]
    exact .inBounds hle
  have hguard : env.canUseVirtualMemory heap.memory = true → m.eval index + offset + size ≤
      max capacity env.tunables.memoryReservation + env.tunables.memoryGuardSize →
      Sandboxed faults m.base len (m.eval index) offset size
        (.access ((m.base + m.eval index + offset) % u64Size)) := fun hv hle => by
    have := hl.region_fits (hvm hv)
    rw [mod_eq_of_lt (by omega)]
    exact .guarded hl (hvm hv) hsize.1 hle
  have hconst : ∀ n < u64Size, m.eval (.iconst .i64 n) = n := fun n hn => mod_eq_of_lt hn
  have hos : offset + size < u64Size := by
    simp only [u64Size]
    omega
  unfold boundsCheckDynamic at hx
  split_ifs at hx with h1 h2 h3 h4
  · -- the reservation is the bound
    simp only [Env.usesReservation, Bool.and_eq_true, Bool.not_eq_true', decide_eq_true_eq, hmin,
      getD_some] at h1
    obtain ⟨⟨hv, hle⟩, hmay⟩ := h1
    simp only [bind_ok, unwrap_ok, checkedSub_eq] at hx
    obtain ⟨_, _, ⟨⟨hos', rfl⟩, rfl⟩, hx⟩ := hx
    have hlen' := hmove hmay hle
    have hc := hconst (env.tunables.memoryReservation - (offset + size))
      (lt_of_le_of_lt (sub_le _ _) env.tunables.reservation_lt)
    refine explicitCheck_sandboxed hl hoff hsz hx htrap hP (fun h => ?_) (fun _ h => ?_)
    · rw [eval_ugt, hc] at h
      omega
    · have h := not_lt.1 (mt eval_ugt.2 (not_not.2 h))
      rw [hc] at h
      exact hguard hv (by omega)
  · -- `index + 1 > bound` as `index >= bound`
    have h2 : offset + size = 1 := by simpa using (Bool.and_eq_true_iff.1 h2).1
    refine explicitCheck_sandboxed hl hoff hsz hx htrap hP (fun h => ?_) (fun _ h => ?_)
    · rw [eval_uge, hb] at h
      omega
    · have h := not_le.1 (mt eval_uge.2 (not_not.2 h))
      rw [hb] at h
      exact hexact (by omega)
  · -- the guard covers the offset and the size
    obtain ⟨hv, hle⟩ : env.canUseVirtualMemory heap.memory = true ∧
        offset + size ≤ env.tunables.memoryGuardSize := by simpa using h3
    refine explicitCheck_sandboxed hl hoff hsz hx htrap hP (fun h => ?_) (fun _ h => ?_)
    · rw [eval_ugt, hb] at h
      omega
    · have h := not_lt.1 (mt eval_ugt.2 (not_not.2 h))
      rw [hb] at h
      have := hl.len_le
      exact hguard hv (by omega)
  · -- the bound less the offset and the size does not wrap
    rw [hmin, getD_some] at h4
    have hle : offset + size ≤ len := h4.trans hlen.min_le
    have hsub : m.eval (.isub .i64 (getDynamicHeapBound heap) (.iconst .i64 (offset + size))) =
        len - (offset + size) := by
      have hlt := hlen.lt
      show (m.eval (getDynamicHeapBound heap) + (u64Size - m.eval (.iconst .i64 (offset + size)))) %
        u64Size = _
      rw [hb, hconst _ hos, add_sub_mod hle hlt]
    refine explicitCheck_sandboxed hl hoff hsz hx htrap hP (fun h => ?_) (fun _ h => ?_)
    · rw [eval_ugt, hsub] at h
      omega
    · have h := not_lt.1 (mt eval_ugt.2 (not_not.2 h))
      rw [hsub] at h
      exact hexact (by omega)
  · -- the sum is checked for overflow first
    obtain ⟨_, _, he, hx⟩ := bind_ok.1 hx
    obtain rfl := modify_ok.1 he
    have hover : (code ++ [Inst.uaddOverflowTrap .i64 index (.iconst .i64 (offset + size))]).any
        m.traps = (code.any m.traps || decide (u64Size ≤ m.eval index + (offset + size))) := by
      simp only [any_append, any_cons, any_nil, Bool.or_false, Machine.traps, hconst _ hos]
      rfl
    have hlt := hlen.lt
    have hadd : m.eval (.iadd .i64 index (.iconst .i64 (offset + size))) =
        (m.eval index + (offset + size)) % u64Size := by
      show (m.eval index + m.eval (.iconst .i64 (offset + size))) % u64Size = _
      rw [hconst _ hos]
    refine explicitCheck_sandboxed hl hoff hsz hx (fun hc => ?_) (fun hc => ?_) (fun h => ?_)
      (fun hc h => ?_)
    · by_cases hcode : code.any m.traps = true
      · exact htrap hcode
      · simp only [hover, hcode, Bool.false_or, decide_eq_true_eq] at hc
        exact hP (Bool.eq_false_iff.2 hcode) _ (.trap (by omega))
    · exact hP (Bool.or_eq_false_iff.1 (hover ▸ hc)).1
    · rw [eval_ugt, hadd, hb] at h
      have := mod_le (m.eval index + (offset + size)) u64Size
      omega
    · have hno := not_le.1 (of_decide_eq_false (Bool.or_eq_false_iff.1 (hover ▸ hc)).2)
      have h := not_lt.1 (mt eval_ugt.2 (not_not.2 h))
      rw [hadd, hb, mod_eq_of_lt hno] at h
      exact hexact (by omega)

theorem boundsCheckStatic_sandboxed
    (hx : boundsCheckStatic env heap index offset size code = (.ok r, code')) :
    P (m.reached code' r) := by
  have hoff : offset < u64Size := lt_trans hoffset (by norm_num [u64Size])
  unfold boundsCheckStatic at hx
  split_ifs at hx with hs
  · -- a constant index that even the smallest memory has
    simp only [bind_ok, pure_ok] at hx
    obtain ⟨_, _, ha, rfl, rfl⟩ := hx
    obtain rfl := (addU64_ok ha).2
    have hle : m.eval index + offset + size ≤ len := by
      unfold staticallyInBounds at hs
      split at hs
      · rename_i ty imm
        simp only [Bool.and_eq_true, decide_eq_true_eq, hlen.minimum, getD_some] at hs
        have := hlen.min_le
        show imm % ty.size + offset + size ≤ len
        omega
      · cases hs
    have := hl.fits
    refine reached_computeAddr hoff htrap fun hc => hP hc _ ?_
    rw [eval_castIndexToPointerTy, mod_eq_of_lt (by omega)]
    exact .inBounds hle
  · rw [← eval_castIndexToPointerTy heap.memory.idxType] at hP
    exact boundsCheckDynamic_sandboxed hoffset hsize hlen hbound hmove hl htrap hP hx

theorem boundsCheckFieldAccess_sandboxed (hindex : m.eval index < heap.memory.idxType.size)
    (hx : boundsCheckFieldAccess env heap index offset size code = (.ok r, code')) :
    P (m.reached code' r) := by
  have hoff : offset < u64Size := lt_trans hoffset (by norm_num [u64Size])
  have hstatic (h : boundsCheckStatic env heap index offset size code = (.ok r, code')) :=
    boundsCheckStatic_sandboxed hoffset hsize hlen hbound hmove hl htrap hP h
  unfold boundsCheckFieldAccess at hx
  split_ifs at hx with hmax helide
  · -- no memory of the type is large enough
    obtain ⟨_, _, he, hp⟩ := bind_ok.1 hx
    obtain rfl := modify_ok.1 he
    obtain ⟨rfl, rfl⟩ := pure_ok.1 hp
    have hle := hlen.le_maximum
    have hreached : m.reached (code ++ [.trap]) none = .trap := by
      simp [Machine.reached, Machine.traps]
    rw [hreached]
    by_cases hc : code.any m.traps = true
    · exact htrap hc
    · exact hP (Bool.eq_false_iff.2 hc) _ (.trap (by omega))
  · obtain ⟨end_, _, hend, hx⟩ := bind_ok.1 hx
    obtain ⟨room, _, hroom, hx⟩ := bind_ok.1 hx
    obtain ⟨rfl, hsame⟩ := addU64_ok hend
    obtain ⟨rfl, hsame'⟩ := subU64_ok hroom
    rw [hsame', hsame] at hx
    simp only [Env.canElideBoundsCheck, Memory.canElideBoundsCheck, Bool.and_eq_true,
      decide_eq_true_eq] at helide
    obtain ⟨⟨⟨hv, hi32⟩, hres⟩, htraps⟩ := helide
    split_ifs at hx with hle
    · -- the reservation and the guard hold every address that can be computed
      simp only [assert_bind_ok, pure_ok] at hx
      obtain ⟨_, _, rfl, rfl⟩ := hx
      obtain ⟨max, hm, hm32⟩ := Memory.maximumByteSize_i32 hi32
      rw [hm, getD_some] at hmax
      have hidx : m.eval index < 2 ^ 32 := by
        rw [hi32] at hindex
        exact hindex
      have hfits := hl.region_fits hv
      have hroom : m.eval index + offset + size ≤
          env.tunables.memoryReservation + env.tunables.memoryGuardSize := by
        by_cases hlt : env.tunables.memoryReservation + env.tunables.memoryGuardSize < u64Size
        · rw [mod_eq_of_lt hlt] at hle
          rw [add_sub_mod (by omega) hlt] at hle
          omega
        · simp only [u64Size] at hlt
          omega
      refine reached_computeAddr hoff htrap fun hc => hP hc _ ?_
      rw [eval_castIndexToPointerTy, mod_eq_of_lt (by omega)]
      exact .guarded hl hv hsize.1 (by omega)
    · exact hstatic hx
  · exact hstatic hx

omit hoffset htrap hP in
theorem prepareAddr_sandboxed (hoffset : offset < heap.memory.idxType.size)
    (hindex : m.eval index < heap.memory.idxType.size)
    (hx : prepareAddr env heap index offset size [] = (.ok r, code)) :
    Sandboxed faults m.base len (m.eval index) offset size (m.reached code r) := by
  unfold prepareAddr at hx
  split_ifs at hx with hsmall
  · exact boundsCheckFieldAccess_sandboxed hsmall hsize hlen hbound hmove hl (by simp)
      (fun _ _ h => h) hindex hx
  · set ty := heap.memory.idxType
    have hconst : m.eval (.iconst ty offset) = offset := mod_eq_of_lt hoffset
    have hlt : len < ty.size := by
      cases h : ty
      · rw [h] at hoffset
        exact absurd hoffset hsmall
      · exact hlen.lt
    have hsum : m.eval (.iadd ty index (.iconst ty offset)) = (m.eval index + offset) % ty.size :=
      congrArg (fun k => (m.eval index + k) % ty.size) hconst
    obtain ⟨_, _, he, hx⟩ := bind_ok.1 hx
    obtain rfl := modify_ok.1 he
    have htraps : ([] ++ [Inst.uaddOverflowTrap ty index (.iconst ty offset)]).any m.traps =
        decide (ty.size ≤ m.eval index + offset) := by
      simp [Machine.traps, hconst]
    refine boundsCheckFieldAccess_sandboxed (by decide) hsize hlen hbound hmove hl (fun h => ?_)
      (fun h x hx => ?_) (hsum ▸ mod_lt _ (by omega)) hx
    · have hover := of_decide_eq_true (htraps ▸ h)
      exact .trap (by omega)
    · have hover := not_le.1 (of_decide_eq_false (htraps ▸ h))
      rw [hsum, mod_eq_of_lt hover] at hx
      exact hx.fold

omit hoffset hsize hlen hbound hmove hl htrap hP

/-- **Every access is sandboxed.** Whatever the memory's type, the tunables and the target: if
code is emitted for an access of `size` bytes at `index + offset`, then it accesses exactly these
bytes when they are in the memory, and otherwise traps or faults without reaching anything
outside. -/
theorem heap_access_sandboxed (env : Env) (heap : HeapData) (m : Machine) (index : Value)
    {offset size len capacity : Nat} {faults : Nat → Prop} {r : Option Value} {code : List Inst}
    (hoffset : offset < 2 ^ 32) (hsize : 0 < size ∧ size ≤ 255)
    (hindex : m.eval index < heap.memory.idxType.size) (hlen : heap.memory.Allows len)
    (hbound : m.bound = len)
    (hmove : heap.memory.memoryMayMove env.tunables = false →
      heap.memory.limits.min * heap.memory.pageSize ≤ env.tunables.memoryReservation →
        len ≤ env.tunables.memoryReservation)
    (hl : Layout env.tunables
      (heap.memory.canUseVirtualMemory env.tunables env.hostPageSizeLog2) faults m.base len capacity)
    (hx : boundsCheckAndComputeAddr env heap index (.staticOffset offset size) [] = (.ok r, code)) :
    Sandboxed faults m.base len (m.eval index) offset size (m.reached code r) := by
  exact boundsCheckFieldAccess_sandboxed hoffset hsize hlen hbound hmove hl (by simp)
    (fun _ _ h => h) hindex hx

end

/-! ### Accesses that cannot be compiled -/

theorem explicitCheck_wp (env : Env) (index oob : Value) (offset : Nat) (code : List Inst) :
    wp (explicitCheckOobConditionAndComputeAddr env index offset oob)
      (fun _ _ => True) (fun _ _ => True) code := by
  unfold explicitCheckOobConditionAndComputeAddr Env.oobBehavior
  split
  · trivial
  · next h =>
    simp only [wp_bind, wp_assert, wp_pure, and_true]
    split_ifs at h with h1 h2
    · simp only [Env.loadFromZeroAllowed, Bool.or_eq_true, Bool.and_eq_true] at h1 ⊢
      exact Or.inr h1.symm
    · exact h2

/-- An access that is checked against the reservation and does not fit into it. -/
def Env.Exceeds (env : Env) (memory : Memory) (offsetAndSize : Nat) : Prop :=
  env.usesReservation memory = true ∧ env.tunables.memoryReservation < offsetAndSize ∧
    offsetAndSize ≤ memory.maximumByteSize.getD u64Max

variable {offset size : Nat} {heap : HeapData} {index : Value}

theorem boundsCheckDynamic_wp {env : Env} (code : List Inst)
    (hroom : env.usesReservation heap.memory = true →
      offset + size ≤ env.tunables.memoryReservation) :
    wp (boundsCheckDynamic env heap index offset size) (fun _ _ => True) (fun _ _ => True)
      code := by
  unfold boundsCheckDynamic
  simp only [wp_ite, wp_bind, wp_unwrap]
  refine ⟨fun h => ⟨_, checkedSub_eq.2 ⟨hroom h, rfl⟩, explicitCheck_wp ..⟩, fun _ =>
    ⟨fun _ => explicitCheck_wp .., fun _ => ⟨fun _ => explicitCheck_wp .., fun _ =>
      ⟨fun _ => explicitCheck_wp .., fun _ => ?_⟩⟩⟩⟩
  exact explicitCheck_wp ..

theorem boundsCheckStatic_wp {env : Env} (code : List Inst)
    (hfits : env.tunables.memoryReservation + env.tunables.memoryGuardSize < u64Size)
    (hroom : env.usesReservation heap.memory = true →
      offset + size ≤ env.tunables.memoryReservation) :
    wp (boundsCheckStatic env heap index offset size) (fun _ _ => True) (fun _ _ => True)
      code := by
  unfold boundsCheckStatic
  rw [wp_ite]
  refine ⟨fun _ => ?_, fun _ => boundsCheckDynamic_wp code hroom⟩
  simp only [wp, Env.reservationAndGuard, run_bind_ok (addU64_run hfits)]
  trivial

/-- **Compilation panics exactly on accesses that exceed the reservation.** -/
theorem boundsCheck_panics_iff {env : Env} (code : List Inst)
    (hfits : env.tunables.memoryReservation + env.tunables.memoryGuardSize < u64Size) :
    (boundsCheckAndComputeAddr env heap index (.staticOffset offset size) code).1.isPanic = true ↔
      env.Exceeds heap.memory (offset + size) := by
  have helide (he : env.canElideBoundsCheck heap.memory = true)
      (hmax : offset + size ≤ heap.memory.maximumByteSize.getD u64Max) :
      offset + size ≤ env.tunables.memoryReservation ∧ heap.memory.idxType = .i32 ∧
        env.canUseVirtualMemory heap.memory = true := by
    simp only [Env.canElideBoundsCheck, Memory.canElideBoundsCheck, Bool.and_eq_true,
      decide_eq_true_eq] at he
    obtain ⟨⟨⟨hv, hi32⟩, hres⟩, htraps⟩ := he
    obtain ⟨max, hm, hm32⟩ := Memory.maximumByteSize_i32 hi32
    rw [hm, getD_some] at hmax
    exact ⟨by omega, hi32, by simp [Env.canUseVirtualMemory, hv, htraps]⟩
  constructor
  · intro hp
    by_contra hcon
    refine absurd hp (Bool.eq_false_iff.1 (wp_not_panic (Q := fun _ _ => True)
      (E := fun _ _ => True) ?_))
    unfold boundsCheckAndComputeAddr boundsCheckFieldAccess
    simp only [wp_ite]
    refine ⟨fun _ => trivial, fun hmax => ?_⟩
    have hroom : env.usesReservation heap.memory = true →
        offset + size ≤ env.tunables.memoryReservation := by
      intro hu
      by_contra hlt
      exact hcon ⟨hu, by omega, by omega⟩
    refine ⟨fun he => ?_, fun _ => boundsCheckStatic_wp code hfits hroom⟩
    obtain ⟨hle, hi32, hv⟩ := helide he (by omega)
    rw [wp, Env.reservationAndGuard, run_bind_ok (addU64_run hfits),
      run_bind_ok (subU64_run (by omega) hfits), ← wp, wp_ite]
    refine ⟨fun _ => ?_, fun _ => boundsCheckStatic_wp code hfits hroom⟩
    simp only [wp_bind, wp_assert, wp_pure, hi32, hv, decide_true, and_true]
  · rintro ⟨hu, hlt, hmax⟩
    have he : ¬ env.canElideBoundsCheck heap.memory = true := fun he => by
      have := (helide he hmax).1
      omega
    have hmin : heap.memory.minimumByteSize.getD u64Max ≤ env.tunables.memoryReservation := by
      simp only [Env.usesReservation, Bool.and_eq_true, decide_eq_true_eq] at hu
      exact hu.1.2
    have hstatic : ¬ staticallyInBounds heap index (offset + size) = true := by
      unfold staticallyInBounds
      split
      · simp only [Bool.and_eq_true, decide_eq_true_eq]
        omega
      · simp
    unfold boundsCheckAndComputeAddr boundsCheckFieldAccess boundsCheckStatic boundsCheckDynamic
    simp only [if_neg (not_lt.2 hmax), if_neg he, if_neg hstatic, if_pos hu]
    rw [checkedSub, if_neg (by omega)]
    rfl

def defaultEnv : Env where
  tunables := .defaultU64
  hostPageSizeLog2 := 12
  isPulley := false
  heapAccessSpectreMitigation := true
  overflowChecks := false

theorem heap_access_sandboxed_past_end :
    Sandboxed (fun a => a < 4096 ∨ 2 ^ 40 + 65536 ≤ a) (2 ^ 40) 65536 65534 0 4
      (Machine.reached ⟨65534, 2 ^ 40, 65536⟩ [] (some (computeAddr (.uextend .operand) 0))) := by
  have hlayout : Layout defaultEnv.tunables true (fun a => a < 4096 ∨ 2 ^ 40 + 65536 ≤ a) (2 ^ 40)
      65536 (2 ^ 32) := by
    refine ⟨fun a h => Or.inl h, by decide, fun a h1 h2 h => ?_, by decide, fun _ => by decide,
      fun _ a h _ => Or.inr h⟩
    omega
  refine heap_access_sandboxed defaultEnv ⟨Memory.wasm32 1 (by decide), false⟩
    ⟨65534, 2 ^ 40, 65536⟩ .operand (by decide) (by decide) (by decide)
    ⟨by decide, fun max h => ?_, by decide⟩ rfl (fun _ _ => by decide) hlayout (by decide +kernel)
  obtain rfl : 2 ^ 32 = max := some.inj (Eq.trans (by decide) h)
  decide

end Wasmtime.Cranelift
