import Wasmtime.Cranelift.BoundsChecks

/-!
# The addresses of atomic waits

For `memory.atomic.wait32`, `wait64` and `notify`, the code that Cranelift emits adds the constant
offset to the index, and the runtime checks the sum. For an atomic load it checks the alignment, and
then the load is an access like any other, which is `Sandboxed`.

`atomic_accepted_iff`: the runtime accepts what a load accepts, but for the word at the end of the
memory. `compiled_accepted_iff` is about the load that the emitted code makes.
-/

namespace Wasmtime.Vm

open Base Environ Cranelift

inductive AtomicTrap where
  | heapMisaligned
  | memoryOutOfBounds
  | atomicWaitNonSharedMemory

inductive AtomicOp where
  | wait32
  | wait64
  | notify

def validateAtomicAddr (length addr accessSize accessAlignment : Nat) : Except AtomicTrap Nat :=
  if addr % accessAlignment ≠ 0 then .error .heapMisaligned
  else if ¬ min (addr + accessSize) (u64Size - 1) < length then .error .memoryOutOfBounds
  else .ok addr

namespace AtomicOp

def width : AtomicOp → Nat
  | wait32 | notify => 4
  | wait64 => 8

/-- Wait or notify at the address. In a memory that is not shared `notify` returns zero. -/
def finish (addr : Nat) : AtomicOp → Bool → Except AtomicTrap (Option Nat)
  | _, true => .ok (some addr)
  | notify, false => .ok none
  | wait32, false | wait64, false => .error .atomicWaitNonSharedMemory

/-- The offset is added with a trap on overflow, unless it is zero. -/
def exec (op : AtomicOp) (ty : IndexType) (shared : Bool) (length addr offset : Nat) :
    Except AtomicTrap (Option Nat) := do
  if offset ≠ 0 ∧ ty.size ≤ addr + offset then .error .memoryOutOfBounds
  let addr ← validateAtomicAddr length (addr + offset) op.width op.width
  op.finish addr shared

end AtomicOp

/-- The alignment is checked modulo the size of the index type; `r` is where the access ends. -/
def prepareAtomicAddr (ty : IndexType) (addr offset loadedBytes : Nat) (r : Reached) : Reached :=
  if (if offset = 0 then addr else (addr + offset) % ty.size) % loadedBytes ≠ 0 then .trap else r

def Traps (faults : Nat → Prop) (size : Nat) : Reached → Prop
  | .trap => True
  | .access addr => ∃ k < size, faults ((addr + k) % u64Size)
  | .neither => False

def Refused (r : Except AtomicTrap (Option Nat)) : Prop :=
  r = .error .heapMisaligned ∨ r = .error .memoryOutOfBounds

variable (op : AtomicOp) (ty : IndexType) (shared : Bool) {a o len base capacity : Nat}
  {faults : Nat → Prop} {r : Reached} {tunables : Tunables} {virtualMemory : Bool}

theorem load_traps_iff (hl : Layout tunables virtualMemory faults base len capacity)
    (hr : Sandboxed faults base len a o op.width r) :
    Traps faults op.width (prepareAtomicAddr ty a o op.width r) ↔
      ¬ ((a + o) % op.width = 0 ∧ a + o + op.width ≤ len) := by
  have hdvd : op.width ∣ ty.size := by cases op <;> cases ty <;> decide
  have hmod : (if o = 0 then a else (a + o) % ty.size) % op.width = (a + o) % op.width := by
    split
    · simp [*]
    · exact Nat.mod_mod_of_dvd _ hdvd
  unfold prepareAtomicAddr
  rw [hmod]
  by_cases ha : (a + o) % op.width = 0
  · rw [if_neg (not_not.2 ha)]
    unfold Sandboxed at hr
    split at hr
    · rename_i hin
      subst hr
      refine iff_of_false ?_ (not_not.2 ⟨ha, hin⟩)
      rintro ⟨k, hk, hf⟩
      have := hl.fits
      rw [Nat.mod_eq_of_lt (by omega)] at hf
      exact hl.accessible _ (by omega) (by omega) hf
    · rename_i hout
      refine iff_of_true ?_ (fun h => hout h.2)
      rcases hr with rfl | ⟨addr, rfl, hf, -⟩
      · trivial
      · exact hf
  · rw [if_pos ha]
    exact iff_of_true trivial (fun h => ha h.1)

theorem exec_cases (hlen : len ≤ ty.size) (hlt : len < u64Size) :
    if (a + o) % op.width = 0 ∧ a + o + op.width < len then
      op.exec ty shared len a o = op.finish (a + o) shared
    else Refused (op.exec ty shared len a o) := by
  unfold AtomicOp.exec
  by_cases hover : o ≠ 0 ∧ ty.size ≤ a + o
  · rw [if_pos hover, if_neg (by omega)]
    exact .inr rfl
  · rw [if_neg hover]
    unfold validateAtomicAddr
    by_cases ha : (a + o) % op.width = 0
    · by_cases hin : a + o + op.width < len
      · rw [if_pos ⟨ha, hin⟩, if_neg (not_not.2 ha), if_neg (by omega)]
        rfl
      · rw [if_neg (fun h => hin h.2), if_neg (not_not.2 ha), if_pos (by omega)]
        exact .inr rfl
    · rw [if_neg (fun h => ha h.1), if_pos ha]
      exact .inl rfl

theorem not_refused_finish : ¬ Refused (op.finish a shared) := by
  cases op <;> cases shared <;> simp [Refused, AtomicOp.finish]

/-- The runtime and a load that traps under the condition `T` differ on the last word only. -/
theorem accepted_iff {T : Prop} (hlen : len ≤ ty.size) (hlt : len < u64Size)
    (hload : T ↔ ¬ ((a + o) % op.width = 0 ∧ a + o + op.width ≤ len)) :
    ((Refused (op.exec ty shared len a o) ↔ T) ↔
      ¬ ((a + o) % op.width = 0 ∧ a + o + op.width = len)) ∧
    (¬ Refused (op.exec ty shared len a o) →
      op.exec ty shared len a o = op.finish (a + o) shared) := by
  have hexec := exec_cases op ty shared (a := a) (o := o) hlen hlt
  rw [hload]
  split at hexec
  · have hno := hexec ▸ not_refused_finish op shared
    refine ⟨?_, fun _ => hexec⟩
    simp only [hno, false_iff]
    omega
  · refine ⟨?_, fun h => absurd hexec h⟩
    simp only [hexec, true_iff]
    omega

/-- **What waits and notifications accept.** A load is accepted if it is aligned and in bounds. A
wait or notification is refused just when the load traps, unless its word is at the end of the
memory; and if it is not refused it is carried out. -/
theorem atomic_accepted_iff (hlen : len ≤ ty.size) (hlt : len < u64Size)
    (hl : Layout tunables virtualMemory faults base len capacity)
    (hr : Sandboxed faults base len a o op.width r) :
    (Traps faults op.width (prepareAtomicAddr ty a o op.width r) ↔
      ¬ ((a + o) % op.width = 0 ∧ a + o + op.width ≤ len)) ∧
    ((Refused (op.exec ty shared len a o) ↔
        Traps faults op.width (prepareAtomicAddr ty a o op.width r)) ↔
      ¬ ((a + o) % op.width = 0 ∧ a + o + op.width = len)) ∧
    (¬ Refused (op.exec ty shared len a o) →
      op.exec ty shared len a o = op.finish (a + o) shared) := by
  have hload := load_traps_iff op ty hl hr
  exact ⟨hload, accepted_iff op ty shared hlen hlt hload⟩

/-- **The same of compiled code**: `m` runs what `prepare_addr` emitted for the load. -/
theorem compiled_accepted_iff (env : Env) (heap : HeapData) (m : Machine) {index : Value}
    {code : List Inst} {v : Option Value} (ho : o < heap.memory.idxType.size)
    (hindex : m.eval index < heap.memory.idxType.size) (hlen : heap.memory.Allows len)
    (hbound : m.bound = len)
    (hmove : heap.memory.memoryMayMove env.tunables = false →
      heap.memory.limits.min * heap.memory.pageSize ≤ env.tunables.memoryReservation →
        len ≤ env.tunables.memoryReservation)
    (hl : Layout env.tunables (heap.memory.canUseVirtualMemory env.tunables env.hostPageSizeLog2)
      faults m.base len capacity)
    (hx : prepareAddr env heap index o op.width [] = (.ok v, code)) :
    (Refused (op.exec heap.memory.idxType shared len (m.eval index) o) ↔
        Traps faults op.width
          (prepareAtomicAddr heap.memory.idxType (m.eval index) o op.width (m.reached code v))) ↔
      ¬ ((m.eval index + o) % op.width = 0 ∧ m.eval index + o + op.width = len) := by
  have hwidth : 0 < op.width ∧ op.width ≤ 255 := by cases op <;> decide
  have hle : len ≤ heap.memory.idxType.size := by
    cases hty : heap.memory.idxType
    · obtain ⟨max, hmax, hle⟩ := Memory.maximumByteSize_i32 hty
      exact (hlen.le_max max hmax).trans hle
    · exact hlen.lt.le
  have hr := prepareAddr_sandboxed hwidth hlen hbound hmove hl ho hindex hx
  exact (accepted_iff op _ shared hle hlen.lt (load_traps_iff op _ hl hr)).1

theorem page_layout : Layout .defaultU64 false (fun a => a < 4096) 8192 65536 65536 :=
  ⟨fun _ h => h, by decide, fun _ _ _ _ => by omega, le_rfl, fun h => (by cases h),
    fun h => (by cases h)⟩

theorem notify_accepted : AtomicOp.notify.exec .i32 false 65536 4 4 = .ok none := by
  refine (atomic_accepted_iff .notify .i32 false (by decide) (by decide) page_layout
    (.inBounds (by decide))).2.2 ?_
  rintro (h | h) <;> cases h

/-- **The last word of a page**: a load is accepted, and a wait is out of bounds. -/
theorem wait_at_end : AtomicOp.wait32.exec .i32 true 65536 65532 0 = .error .memoryOutOfBounds ∧
    ∀ r, Sandboxed (fun a => a < 4096) 8192 65536 65532 0 4 r →
      ¬ Traps (fun a => a < 4096) 4 (prepareAtomicAddr .i32 65532 0 4 r) := by
  refine ⟨rfl, fun r hr h => ?_⟩
  exact (load_traps_iff .wait32 .i32 page_layout hr).1 h (by decide)

end Wasmtime.Vm
