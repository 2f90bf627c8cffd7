import Wasmtime.Environ.Sandbox

/-!
# Heap addresses in Winch

`CodeGen::emit_compute_heap_address` of `winch/codegen/src/codegen/mod.rs` with `codegen/bounds.rs`.
The macro assembler is modelled by the instructions that are emitted through it, on named registers,
and `run` executes them.

`heap_address_sandboxed`: the code yields the address when the access is in bounds, and otherwise
traps or yields an address whose access is confined.
-/

namespace Wasmtime.Winch

open Nat hiding size
open Base Prog Environ List Option

inductive OperandSize where
  | s8
  | s16
  | s32
  | s64
  | s128
deriving DecidableEq

namespace OperandSize

def bytes : OperandSize → Nat
  | s8 => 1
  | s16 => 2
  | s32 => 4
  | s64 => 8
  | s128 => 16

def size (s : OperandSize) : Nat := 2 ^ (8 * s.bytes)

end OperandSize

/-- The registers of an access, by what they hold. -/
inductive Reg where
  | index
  | bounds
  | indexOffsetAndAccessSize
  | addr
  | tmp
deriving DecidableEq

inductive RegImm where
  | reg (r : Reg)
  | imm (n : Nat)
deriving DecidableEq

inductive Instr where
  | mov (dst : Reg) (src : RegImm) (size : OperandSize)
  | loadBase (dst : Reg)
  | loadLength (dst : Reg)
  | add (dst lhs : Reg) (rhs : RegImm) (size : OperandSize)
  /-- Addition that traps when it overflows. -/
  | checkedUadd (dst lhs : Reg) (rhs : RegImm) (size : OperandSize)
  | cmp (src1 : Reg) (src2 : RegImm) (size : OperandSize)
  | trap
  /-- Trap if the last comparison was "greater", unsigned. -/
  | trapifGtU
  | cmovGtU (dst src : Reg)
deriving DecidableEq

structure Machine where
  base : Nat
  length : Nat
  regs : Reg → Nat
  /-- Whether the last comparison was "greater". -/
  gtU : Bool

namespace Machine

def get (m : Machine) : RegImm → Nat
  | .reg r => m.regs r
  | .imm n => n

def set (m : Machine) (r : Reg) (n : Nat) : Machine := { m with regs := Function.update m.regs r n }

/-- One instruction; nothing if it traps. -/
def step (m : Machine) : Instr → Option Machine
  | .mov dst src size => some (m.set dst (m.get src % size.size))
  | .loadBase dst => some (m.set dst m.base)
  | .loadLength dst => some (m.set dst m.length)
  | .add dst lhs rhs size => some (m.set dst ((m.regs lhs + m.get rhs) % size.size))
  | .checkedUadd dst lhs rhs size =>
    if m.regs lhs + m.get rhs < size.size then some (m.set dst (m.regs lhs + m.get rhs)) else none
  | .cmp src1 src2 size =>
    some { m with gtU := decide (m.get src2 % size.size < m.regs src1 % size.size) }
  | .trap => none
  | .trapifGtU => if m.gtU then none else some m
  | .cmovGtU dst src => some (if m.gtU then m.set dst (m.regs src) else m)

def run (m : Machine) (code : List Instr) : Option Machine := code.foldlM step m

/-- Run the code, then access the address in the register it returns. -/
def reached (m : Machine) (code : List Instr) (r : Option Reg) : Reached :=
  match m.run code, r with
  | none, _ => .trap
  | some m', some r => .access (m'.regs r)
  | some _, none => .neither

end Machine

structure Env where
  tunables : Tunables
  pageSizeLog2 : Nat
  heapAccessSpectreMitigation : Bool
  overflowChecks : Bool

abbrev Emit (α : Type) : Type := Prog (List Instr) Empty α

def emit (i : Instr) : Emit Unit := Prog.modify (fun code => code ++ [i])

def ptrSize : OperandSize := .s64

def indexSize : IndexType → OperandSize
  | .i32 => .s32
  | .i64 => .s64

def loadDynamicHeapBounds (heap : Memory) : Emit Unit :=
  match heap.staticHeapSize with
  | some size => emit (.mov .bounds (.imm size) ptrSize)
  | none => emit (.loadLength .bounds)

/-- The offset that is left once a large one is added to the index. -/
def ensureIndexAndOffset (offset : Nat) (heapTySize : OperandSize) : Emit Nat :=
  if offset < 2 ^ 32 then
    pure offset
  else do
    emit (.checkedUadd .index .index (.imm offset) heapTySize)
    pure 0

def addOffset (offset : Nat) : Emit Unit :=
  if 0 < offset then emit (.add .addr .addr (.imm offset) ptrSize) else pure ()

def loadHeapAddrUnchecked (offset : Nat) : Emit Unit := do
  emit (.loadBase .addr)
  emit (.add .addr .addr (.reg .index) ptrSize)
  addOffset offset

/-- With Spectre mitigations the check is made again, and the address replaced by zero. -/
def mitigate (env : Env) (emitCheckCondition : Emit Unit) : Emit Unit :=
  if env.heapAccessSpectreMitigation then do
    emit (.mov .tmp (.imm 0) ptrSize)
    emitCheckCondition
    emit (.cmovGtU .addr .tmp)
  else
    pure ()

def loadHeapAddrChecked (env : Env) (offset : Nat) (emitCheckCondition : Emit Unit) :
    Emit Unit := do
  emitCheckCondition
  emit .trapifGtU
  loadHeapAddrUnchecked offset
  mitigate env emitCheckCondition

/-- The cases in which bounds checks may be elided. -/
def emitElidable (env : Env) (heap : Memory) (offset offsetWithAccessSize : Nat) :
    Emit (Option Reg) := do
  let end_ ← addU64 env.overflowChecks env.tunables.memoryReservation env.tunables.memoryGuardSize
  let room ← subU64 env.overflowChecks end_ offsetWithAccessSize
  assert (decide (heap.idxType = .i32)) (.assert "heap.index_type() == WasmValType::I32")
  if 2 ^ 32 - 1 ≤ room then do
    loadHeapAddrUnchecked offset
    pure (some .addr)
  else do
    let adjustedBounds ← subU64 env.overflowChecks env.tunables.memoryReservation
      offsetWithAccessSize
    loadHeapAddrChecked env offset (emit (.cmp .index (.imm adjustedBounds) ptrSize))
    pure (some .addr)

/-- The general case: `index + offset + access_size` overflows, or exceeds the bounds. -/
def emitDynamic (env : Env) (heap : Memory) (offset offsetWithAccessSize : Nat) :
    Emit (Option Reg) := do
  loadDynamicHeapBounds heap
  emit (.mov .indexOffsetAndAccessSize (.reg .index) (indexSize heap.idxType))
  emit (.checkedUadd .indexOffsetAndAccessSize .indexOffsetAndAccessSize
    (.imm offsetWithAccessSize) ptrSize)
  loadHeapAddrChecked env offset (emit (.cmp .indexOffsetAndAccessSize (.reg .bounds) ptrSize))
  pure (some .addr)

/-- The address, once the offset fits 32 bits. -/
def emitHeapAddress (env : Env) (heap : Memory) (offset offsetWithAccessSize : Nat) :
    Emit (Option Reg) :=
  if heap.maximumByteSize.getD u64Max < offsetWithAccessSize then do
    emit .trap
    pure none
  else if !heap.canElideBoundsCheck env.tunables env.pageSizeLog2 then
    emitDynamic env heap offset offsetWithAccessSize
  else
    emitElidable env heap offset offsetWithAccessSize

def emitComputeHeapAddress (env : Env) (heap : Memory) (memargOffset : Nat)
    (accessSize : OperandSize) : Emit (Option Reg) := do
  let offset ← ensureIndexAndOffset memargOffset (indexSize heap.idxType)
  emitHeapAddress env heap offset (accessSize.bytes + offset)

/-! ### The code that is emitted -/

def uncheckedCode (offset : Nat) : List Instr :=
  [.loadBase .addr, .add .addr .addr (.reg .index) ptrSize] ++
    if 0 < offset then [.add .addr .addr (.imm offset) ptrSize] else []

def checkedCode (env : Env) (offset : Nat) (check : Instr) : List Instr :=
  [check, .trapifGtU] ++ uncheckedCode offset ++
    if env.heapAccessSpectreMitigation then
      [.mov .tmp (.imm 0) ptrSize, check, .cmovGtU .addr .tmp] else []

def boundsCode (heap : Memory) : List Instr :=
  match heap.staticHeapSize with
  | some size => [.mov .bounds (.imm size) ptrSize]
  | none => [.loadLength .bounds]

def dynamicCode (env : Env) (heap : Memory) (offset offsetWithAccessSize : Nat) : List Instr :=
  boundsCode heap ++ [.mov .indexOffsetAndAccessSize (.reg .index) (indexSize heap.idxType),
    .checkedUadd .indexOffsetAndAccessSize .indexOffsetAndAccessSize (.imm offsetWithAccessSize)
      ptrSize] ++ checkedCode env offset (.cmp .indexOffsetAndAccessSize (.reg .bounds) ptrSize)

variable {env : Env} {heap : Memory} {m : Machine} {code code' : List Instr} {r : Option Reg}
  {offset n : Nat}

@[simp] theorem emit_run (i : Instr) : emit i code = (.ok (), code ++ [i]) := rfl

@[simp] theorem emit_bind {α : Type} (i : Instr) (f : Unit → Emit α) :
    (emit i >>= f) code = f () (code ++ [i]) := rfl

theorem loadHeapAddrUnchecked_run :
    loadHeapAddrUnchecked offset code = (.ok (), code ++ uncheckedCode offset) := by
  unfold loadHeapAddrUnchecked addOffset uncheckedCode
  split_ifs <;> simp

theorem loadHeapAddrChecked_run {check : Instr} :
    loadHeapAddrChecked env offset (emit check) code =
      (.ok (), code ++ checkedCode env offset check) := by
  unfold loadHeapAddrChecked mitigate checkedCode
  simp only [emit_bind, run_bind_ok loadHeapAddrUnchecked_run]
  split_ifs <;> simp

theorem ensureIndexAndOffset_small {size : OperandSize} (h : offset < 2 ^ 32) :
    ensureIndexAndOffset offset size code = (.ok offset, code) := by
  rw [ensureIndexAndOffset, if_pos h]
  rfl

theorem ensureIndexAndOffset_large {size : OperandSize} (h : ¬ offset < 2 ^ 32) :
    ensureIndexAndOffset offset size code =
      (.ok 0, code ++ [.checkedUadd .index .index (.imm offset) size]) := by
  rw [ensureIndexAndOffset, if_neg h]
  rfl

theorem emitDynamic_run : emitDynamic env heap offset n code =
    (.ok (some .addr), code ++ dynamicCode env heap offset n) := by
  unfold emitDynamic dynamicCode boundsCode loadDynamicHeapBounds
  rcases heap.staticHeapSize with _ | size
  all_goals
    simp only [emit_bind]
    rw [run_bind_ok loadHeapAddrChecked_run]
    simp

/-! ### What it does -/

namespace Machine

theorem run_append (m : Machine) (c1 c2 : List Instr) :
    m.run (c1 ++ c2) = (m.run c1).bind fun m' => m'.run c2 := by
  simp [run, foldlM_append, bind]

theorem run_cons (m : Machine) (i : Instr) (c : List Instr) :
    m.run (i :: c) = (m.step i).bind fun m' => m'.run c := by
  simp [run, bind]

@[simp] theorem run_nil (m : Machine) : m.run [] = some m := rfl

/-- Another machine that differs only in registers and flags that no check reads. -/
structure Agrees (m m' : Machine) : Prop where
  base : m'.base = m.base
  regs : ∀ r, r ≠ .addr → r ≠ .tmp → m'.regs r = m.regs r

theorem run_uncheckedCode (hoffset : offset < u64Size) :
    ∃ m', m.run (uncheckedCode offset) = some m' ∧ Agrees m m' ∧
      m'.regs .addr = (m.base + m.regs .index + offset) % u64Size := by
  have hsize : ptrSize.size = u64Size := rfl
  unfold uncheckedCode
  by_cases h : 0 < offset
  · rw [if_pos h]
    refine ⟨_, rfl, ⟨rfl, fun r h1 _ => ?_⟩, ?_⟩
    · simp [set, h1]
    · simp [set, get, hsize, mod_add_mod]
  · obtain rfl : offset = 0 := by omega
    rw [if_neg h]
    refine ⟨_, rfl, ⟨rfl, fun r h1 _ => ?_⟩, ?_⟩
    · simp [set, h1]
    · simp [set, get, hsize]

theorem run_checkedCode {check : Instr} {oob : Bool} (hoffset : offset < u64Size)
    (hcheck : ∀ m', Agrees m m' → m'.step check = some { m' with gtU := oob }) :
    if oob then m.run (checkedCode env offset check) = none
    else ∃ m', m.run (checkedCode env offset check) = some m' ∧
      m'.regs .addr = (m.base + m.regs .index + offset) % u64Size := by
  have h0 := hcheck m ⟨rfl, fun _ _ _ => rfl⟩
  have hstart : m.run (checkedCode env offset check) =
      ((some { m with gtU := oob }).bind fun m1 => (m1.step .trapifGtU).bind fun m2 =>
        (m2.run (uncheckedCode offset)).bind fun m3 => m3.run
          (if env.heapAccessSpectreMitigation then
            [.mov .tmp (.imm 0) ptrSize, check, .cmovGtU .addr .tmp] else [])) := by
    unfold checkedCode
    rw [append_assoc, cons_append, singleton_append, run_cons, h0]
    simp only [run_cons, run_append, bind_some]
  rw [hstart]
  cases oob with
  | true => simp [step]
  | false =>
    obtain ⟨m3, hrun, hag, haddr⟩ :=
      run_uncheckedCode (m := { m with gtU := false }) hoffset
    simp only [bind_some, step, Bool.false_eq_true, if_false, hrun]
    split_ifs with hs
    · have hag' : Agrees m (m3.set .tmp (0 % ptrSize.size)) :=
        ⟨hag.base, fun r h1 h2 => by simp [set, h2, hag.regs r h1 h2]⟩
      refine ⟨{ m3.set .tmp (0 % ptrSize.size) with gtU := false }, ?_, haddr⟩
      rw [run_cons]
      simp only [step, get, bind_some]
      rw [run_cons, hcheck _ hag']
      simp only [bind_some, run_cons, step, Bool.false_eq_true, if_false, run_nil]
    · exact ⟨m3, rfl, haddr⟩

theorem reached_of_run {c1 c2 : List Instr} {m' : Machine} (h : m.run c1 = some m') :
    m.reached (c1 ++ c2) r = m'.reached c2 r := by
  unfold reached
  rw [run_append, h, bind_some]

theorem reached_of_trap {c1 c2 : List Instr} (h : m.run c1 = none) :
    m.reached (c1 ++ c2) r = .trap := by
  unfold reached
  rw [run_append, h, bind_none]

theorem reached_uncheckedCode (hoffset : offset < u64Size) :
    m.reached (uncheckedCode offset) (some .addr) =
      .access ((m.base + m.regs .index + offset) % u64Size) := by
  obtain ⟨m', hrun, -, haddr⟩ := run_uncheckedCode (m := m) hoffset
  simp only [reached, hrun, haddr]

theorem reached_checkedCode {check : Instr} {oob : Bool} (hoffset : offset < u64Size)
    (hcheck : ∀ m', Agrees m m' → m'.step check = some { m' with gtU := oob }) :
    m.reached (checkedCode env offset check) (some .addr) =
      if oob then .trap else .access ((m.base + m.regs .index + offset) % u64Size) := by
  have h : if oob then m.run (checkedCode env offset check) = none else _ :=
    run_checkedCode hoffset hcheck
  cases oob with
  | true =>
    rw [if_pos rfl] at h
    simp only [reached, h, if_pos]
  | false =>
    obtain ⟨m', hrun, haddr⟩ := h
    simp only [reached, hrun, haddr, Bool.false_eq_true, if_false]

end Machine

theorem indexType_size_le (i : IndexType) : i.size ≤ u64Size := by
  cases i <;> simp [IndexType.size, u64Size]

theorem indexSize_size (i : IndexType) : (indexSize i).size = i.size := by cases i <;> rfl

theorem OperandSize.bytes_pos (s : OperandSize) : 0 < s.bytes := by cases s <;> decide

theorem run_boundsCode {len : Nat} (h : heap.Allows len) (hlen : m.length = len) :
    m.run (boundsCode heap) = some (m.set .bounds len) := by
  unfold boundsCode
  rcases hs : heap.staticHeapSize with _ | size
  · rw [← hlen]
    rfl
  · obtain rfl := h.static hs
    simp only [Machine.run_cons, Machine.step, Machine.get, Machine.run_nil, bind_some]
    rw [show ptrSize.size = u64Size from rfl, mod_eq_of_lt h.lt]

section

variable {faults : Nat → Prop} {len capacity size : Nat}

theorem dynamicCode_sandboxed (hlen : heap.Allows len) (hlength : m.length = len)
    (hindex : m.regs .index < heap.idxType.size) (hoffset : offset < u64Size) (hsize : 0 < size)
    (hfits : m.base + len ≤ u64Size) :
    Sandboxed faults m.base len (m.regs .index) offset size
      (m.reached (dynamicCode env heap offset (size + offset)) (some .addr)) := by
  have hmod : m.regs .index % (indexSize heap.idxType).size = m.regs .index := by
    rw [indexSize_size, mod_eq_of_lt hindex]
  have hlt := hlen.lt
  unfold dynamicCode
  rw [append_assoc, Machine.reached_of_run (run_boundsCode hlen hlength)]
  by_cases hsum : m.regs .index + (size + offset) < u64Size
  · -- the sum does not wrap, so it is compared as an integer
    set m' := ((m.set .bounds len).set .indexOffsetAndAccessSize (m.regs .index)).set
      .indexOffsetAndAccessSize (m.regs .index + (size + offset)) with hm'
    have hrun : (m.set .bounds len).run [.mov .indexOffsetAndAccessSize (.reg .index)
        (indexSize heap.idxType), .checkedUadd .indexOffsetAndAccessSize .indexOffsetAndAccessSize
          (.imm (size + offset)) ptrSize] = some m' := by
      have hptr : ptrSize.size = u64Size := rfl
      simp [Machine.run_cons, Machine.step, Machine.get, Machine.set, hmod, hptr, hsum, hm']
    have hreg : m'.regs .index = m.regs .index := by simp [hm', Machine.set]
    have hcheck : ∀ m'', m'.Agrees m'' → m''.step (.cmp .indexOffsetAndAccessSize (.reg .bounds)
        ptrSize) = some { m'' with gtU := decide (len < m.regs .index + (size + offset)) } := by
      intro m'' hag
      have hptr : ptrSize.size = u64Size := rfl
      simp only [Machine.step, Machine.get, hptr]
      rw [hag.regs _ (by decide) (by decide), hag.regs _ (by decide) (by decide)]
      simp [hm', Machine.set, mod_eq_of_lt hlt, mod_eq_of_lt hsum]
    rw [Machine.reached_of_run hrun, Machine.reached_checkedCode hoffset hcheck, hreg]
    by_cases hoob : len < m.regs .index + (size + offset)
    · simp only [hoob, decide_true, if_true]
      exact .trap (by omega)
    · simp only [hoob, decide_false, Bool.false_eq_true, if_false]
      rw [show m'.base = m.base from rfl, mod_eq_of_lt (by omega)]
      exact .inBounds (by omega)
  · rw [Machine.reached_of_trap]
    · exact .trap (by omega)
    · have hptr : ptrSize.size = u64Size := rfl
      simp [Machine.run_cons, Machine.step, Machine.get, Machine.set, hmod, hptr, hsum]

theorem emitElidable_sandboxed (helide : heap.canElideBoundsCheck env.tunables env.pageSizeLog2)
    (hlen : heap.Allows len) (hindex : m.regs .index < heap.idxType.size)
    (hoffset : offset < u64Size) (hsize : 0 < size)
    (hmax : size + offset ≤ heap.maximumByteSize.getD u64Max)
    (hl : Layout env.tunables (heap.canElideBoundsCheck env.tunables env.pageSizeLog2) faults
      m.base len capacity)
    (hx : emitElidable env heap offset (size + offset) code = (.ok r, code')) :
    ∃ c, code' = code ++ c ∧
      Sandboxed faults m.base len (m.regs .index) offset size (m.reached c r) := by
  have hfits := hl.region_fits helide
  have helide' := helide
  simp only [Memory.canElideBoundsCheck, Bool.and_eq_true, decide_eq_true_eq] at helide'
  obtain ⟨⟨-, hi32⟩, hres⟩ := helide'
  obtain ⟨max, hm, hm32⟩ := Memory.maximumByteSize_i32 hi32
  have hlenmax := hlen.le_max max hm
  have hrlt := env.tunables.reservation_lt
  rw [hm, getD_some] at hmax
  rw [hi32] at hindex
  simp only [IndexType.size] at hindex
  obtain ⟨end_, _, hend, hx1⟩ := bind_ok.1 hx
  obtain ⟨room, _, hroom, hx2⟩ := bind_ok.1 hx1
  obtain ⟨_, _, hassert, hx3⟩ := bind_ok.1 hx2
  obtain ⟨rfl, rfl⟩ := addU64_ok hend
  obtain ⟨rfl, rfl⟩ := subU64_ok hroom
  obtain ⟨-, rfl⟩ := assert_ok.1 hassert
  split_ifs at hx3 with hle
  · rw [run_bind_ok loadHeapAddrUnchecked_run] at hx3
    obtain ⟨rfl, rfl⟩ := pure_ok.1 hx3
    refine ⟨_, rfl, ?_⟩
    have hend : m.regs .index + offset + size ≤
        env.tunables.memoryReservation + env.tunables.memoryGuardSize := by
      by_cases hlt : env.tunables.memoryReservation + env.tunables.memoryGuardSize < u64Size
      · rw [mod_eq_of_lt hlt] at hle
        rw [add_sub_mod (by omega) hlt] at hle
        omega
      · simp only [u64Size] at hlt
        omega
    rw [Machine.reached_uncheckedCode hoffset, mod_eq_of_lt (by omega)]
    exact .guarded hl helide hsize (by omega)
  · obtain ⟨adjusted, _, hadj, hx4⟩ := bind_ok.1 hx3
    obtain ⟨rfl, rfl⟩ := subU64_ok hadj
    rw [run_bind_ok loadHeapAddrChecked_run] at hx4
    obtain ⟨rfl, rfl⟩ := pure_ok.1 hx4
    refine ⟨_, rfl, ?_⟩
    rw [add_sub_mod (by omega) hrlt]
    have hcheck : ∀ m', m.Agrees m' → m'.step (.cmp .index
        (.imm (env.tunables.memoryReservation - (size + offset))) ptrSize) =
        some { m' with gtU := decide (env.tunables.memoryReservation - (size + offset) <
          m.regs .index) } := by
      intro m' hag
      have hptr : ptrSize.size = u64Size := rfl
      simp only [Machine.step, Machine.get, hptr]
      rw [hag.regs _ (by decide) (by decide), mod_eq_of_lt (by omega),
        mod_eq_of_lt (lt_trans hindex (by norm_num [u64Size]))]
    rw [Machine.reached_checkedCode hoffset hcheck]
    by_cases hoob : env.tunables.memoryReservation - (size + offset) < m.regs .index
    · simp only [hoob, decide_true, if_true]
      exact .trap (by omega)
    · simp only [hoob, decide_false, Bool.false_eq_true, if_false]
      rw [mod_eq_of_lt (by omega)]
      exact .guarded hl helide hsize (by omega)

theorem emitHeapAddress_sandboxed (hlen : heap.Allows len) (hlength : m.length = len)
    (hindex : m.regs .index < heap.idxType.size) (hoffset : offset < u64Size) (hsize : 0 < size)
    (hl : Layout env.tunables (heap.canElideBoundsCheck env.tunables env.pageSizeLog2) faults
      m.base len capacity)
    (hx : emitHeapAddress env heap offset (size + offset) code = (.ok r, code')) :
    ∃ c, code' = code ++ c ∧
      Sandboxed faults m.base len (m.regs .index) offset size (m.reached c r) := by
  unfold emitHeapAddress at hx
  split_ifs at hx with hmax helide
  · -- no memory of the type is large enough
    rw [emit_bind] at hx
    obtain ⟨rfl, rfl⟩ := pure_ok.1 hx
    exact ⟨_, rfl, .trap (lt_of_le_of_lt hlen.le_maximum (by omega))⟩
  · rw [emitDynamic_run] at hx
    cases hx
    exact ⟨_, rfl, dynamicCode_sandboxed hlen hlength hindex hoffset hsize hl.fits⟩
  · exact emitElidable_sandboxed (by simpa using helide) hlen hindex hoffset hsize (by omega) hl hx

theorem emitHeapAddress_emits (hbase : 0 < m.base)
    (hl : Layout env.tunables (heap.canElideBoundsCheck env.tunables env.pageSizeLog2) faults
      m.base len capacity) :
    ∃ r code', emitHeapAddress env heap offset n code = (.ok r, code') := by
  unfold emitHeapAddress
  split_ifs with hmax helide
  · exact ⟨_, _, rfl⟩
  · exact ⟨_, _, emitDynamic_run⟩
  · have helide' : heap.canElideBoundsCheck env.tunables env.pageSizeLog2 = true := by
      simpa using helide
    have hfits := hl.region_fits helide'
    simp only [Memory.canElideBoundsCheck, Bool.and_eq_true, decide_eq_true_eq] at helide'
    obtain ⟨⟨-, hi32⟩, hres⟩ := helide'
    obtain ⟨max, hm, hm32⟩ := Memory.maximumByteSize_i32 hi32
    rw [hm, getD_some] at hmax
    unfold emitElidable
    rw [run_bind_ok (addU64_run (by omega)), run_bind_ok (subU64_run (by omega) (by omega)),
      run_bind_ok (assert_ok (u := ()) |>.mpr ⟨by simp [hi32], rfl⟩)]
    split_ifs
    · rw [run_bind_ok loadHeapAddrUnchecked_run]
      exact ⟨_, _, rfl⟩
    · rw [run_bind_ok (subU64_run (by omega) env.tunables.reservation_lt),
        run_bind_ok loadHeapAddrChecked_run]
      exact ⟨_, _, rfl⟩

end

/-- **Every address is sandboxed.** Whatever the memory's type and the tunables, code is emitted
for every offset, and for every index and every length of the memory it yields the address of the
access when that is in bounds, and otherwise traps or yields an address where the access faults
without reaching anything outside. -/
theorem heap_address_sandboxed (env : Env) (heap : Memory) (accessSize : OperandSize)
    (m : Machine) {memargOffset capacity : Nat} {faults : Nat → Prop}
    (hoffset : memargOffset < heap.idxType.size) (hindex : m.regs .index < heap.idxType.size)
    (hlen : heap.Allows m.length)
    (hl : Layout env.tunables (heap.canElideBoundsCheck env.tunables env.pageSizeLog2) faults
      m.base m.length capacity) :
    (0 < m.base → ∃ r code, emitComputeHeapAddress env heap memargOffset accessSize [] =
      (.ok r, code)) ∧
    ∀ r code, emitComputeHeapAddress env heap memargOffset accessSize [] = (.ok r, code) →
      Sandboxed faults m.base m.length (m.regs .index) memargOffset accessSize.bytes
        (m.reached code r) := by
  have hpos := accessSize.bytes_pos
  have hmodulus := indexType_size_le heap.idxType
  unfold emitComputeHeapAddress
  by_cases h32 : memargOffset < 2 ^ 32
  · rw [run_bind_ok (ensureIndexAndOffset_small h32)]
    refine ⟨fun hbase => emitHeapAddress_emits hbase hl, fun r code hx => ?_⟩
    obtain ⟨c, rfl, hs⟩ := emitHeapAddress_sandboxed hlen rfl hindex (by omega) hpos hl hx
    exact hs
  · rw [run_bind_ok (ensureIndexAndOffset_large h32)]
    refine ⟨fun hbase => emitHeapAddress_emits hbase hl, fun r code hx => ?_⟩
    -- only a 64-bit memory has such an offset: it is added to the index
    have hi64 : heap.idxType.size = u64Size := by
      rcases hidx : heap.idxType
      · rw [hidx] at hoffset
        exact absurd hoffset h32
      · rfl
    by_cases hsum : m.regs .index + memargOffset < u64Size
    · have hrun : m.run [.checkedUadd .index .index (.imm memargOffset) (indexSize heap.idxType)] =
          some (m.set .index (m.regs .index + memargOffset)) := by
        simp [Machine.run_cons, Machine.step, Machine.get, indexSize_size, hi64, hsum]
      have hreg : (m.set .index (m.regs .index + memargOffset)).regs .index =
          m.regs .index + memargOffset := by simp [Machine.set]
      obtain ⟨c, rfl, hs⟩ := emitHeapAddress_sandboxed
        (m := m.set .index (m.regs .index + memargOffset)) hlen rfl (by rw [hreg, hi64]; exact hsum)
        (by norm_num [u64Size]) hpos hl hx
      rw [nil_append, Machine.reached_of_run hrun]
      rw [hreg] at hs
      exact hs.fold
    · obtain ⟨c, rfl, -⟩ := emitHeapAddress_sandboxed hlen rfl hindex (by norm_num [u64Size]) hpos
        hl hx
      rw [nil_append, Machine.reached_of_trap]
      · have := hlen.lt
        exact .trap (by omega)
      · simp [Machine.run_cons, Machine.step, Machine.get, indexSize_size, hi64, hsum]

def defaultEnv : Env where
  tunables := .defaultU64
  pageSizeLog2 := 12
  heapAccessSpectreMitigation := true
  overflowChecks := false

def onePage (index : Nat) : Machine where
  base := 2 ^ 40
  length := 65536
  regs := fun _ => index
  gtU := false

/-- An offset past the guard, so that the index is compared with the reservation. -/
theorem heap_address_sandboxed_past_guard :
    Sandboxed (fun a => a < 4096 ∨ 2 ^ 40 + 65536 ≤ a) (2 ^ 40) 65536 0 (2 ^ 26) 4
      ((onePage 0).reached (checkedCode defaultEnv (2 ^ 26)
        (.cmp .index (.imm (2 ^ 32 - (4 + 2 ^ 26))) ptrSize)) (some .addr)) := by
  have hlayout : Layout defaultEnv.tunables true (fun a => a < 4096 ∨ 2 ^ 40 + 65536 ≤ a) (2 ^ 40)
      65536 (2 ^ 32) := by
    refine ⟨fun a h => Or.inl h, by decide, fun a h1 h2 h => ?_, by decide, fun _ => by decide,
      fun _ a h _ => Or.inr h⟩
    omega
  refine (heap_address_sandboxed defaultEnv (Memory.wasm32 1 (by decide)) .s32 (onePage 0)
    (by decide) (by decide) ⟨by decide, fun max h => ?_, by decide⟩ hlayout).2 _ _
    (by decide +kernel)
  obtain rfl : 2 ^ 32 = max := some.inj (Eq.trans (by decide) h)
  decide

end Wasmtime.Winch
