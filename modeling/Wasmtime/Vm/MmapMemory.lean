import Wasmtime.Environ.Memory

/-!
# Linear memories made of mappings

`runtime/vm/memory/mmap.rs` and `LocalMemory` of `runtime/vm/memory.rs`: how a linear memory is laid
out in a mapping, and how it grows. A mapping is a range of addresses together with the parts of it
that have been made accessible; the rest faults. The operating system is a parameter: it may refuse,
and what it grants lies within the address space.

A memory grows in place as long as its new size fits into the mapping; beyond that it moves to a new
mapping, if it may. Memories with a copy-on-write image grow through their `MemoryImageSlot`. The
contents of memories are left out.
-/

namespace Wasmtime.Vm

open Base Environ

/-- A number of bytes that is aligned to host pages of `2 ^ p` bytes. -/
structure HostAlignedByteCount (p : Nat) where
  byteCount : Nat
  aligned : 2 ^ p ∣ byteCount
  lt : byteCount < u64Size
deriving DecidableEq

def alignUp (p n : Nat) : Nat := (n + (2 ^ p - 1)) / 2 ^ p * 2 ^ p

theorem alignUp_le (p n : Nat) : alignUp p n ≤ n + (2 ^ p - 1) := Nat.div_mul_le_self _ _

namespace HostAlignedByteCount

variable {p : Nat}

def zero : HostAlignedByteCount p := ⟨0, Nat.dvd_zero _, by norm_num [u64Size]⟩

/-- `HostAlignedByteCount::new`. -/
def ofAligned (bytes : Nat) : Option (HostAlignedByteCount p) :=
  if h : 2 ^ p ∣ bytes ∧ bytes < u64Size then some ⟨bytes, h.1, h.2⟩ else none

def newRoundedUp (bytes : Nat) : Option (HostAlignedByteCount p) :=
  if h : bytes + (2 ^ p - 1) < u64Size then
    some ⟨alignUp p bytes, Nat.dvd_mul_left _ _, lt_of_le_of_lt (alignUp_le p bytes) h⟩
  else none

def isZero (a : HostAlignedByteCount p) : Bool := decide (a.byteCount = 0)

def checkedAdd (a b : HostAlignedByteCount p) : Option (HostAlignedByteCount p) :=
  if h : a.byteCount + b.byteCount < u64Size then
    some ⟨a.byteCount + b.byteCount, Nat.dvd_add a.aligned b.aligned, h⟩
  else none

theorem dvd_difference (a b : HostAlignedByteCount p) : 2 ^ p ∣ a.byteCount - b.byteCount :=
  Nat.dvd_sub a.aligned b.aligned

theorem difference_lt (a b : HostAlignedByteCount p) : a.byteCount - b.byteCount < u64Size :=
  lt_of_le_of_lt (Nat.sub_le _ _) a.lt

def checkedSub (a b : HostAlignedByteCount p) : Option (HostAlignedByteCount p) :=
  if b.byteCount ≤ a.byteCount then
    some ⟨a.byteCount - b.byteCount, dvd_difference a b, difference_lt a b⟩
  else none

end HostAlignedByteCount

open HostAlignedByteCount (newRoundedUp)

/-- What the operating system answers during an operation. -/
structure Os where
  reserve : Nat → Option Nat
  protect : Bool
  mapImage : Bool
  reserve_ok : ∀ len a, reserve len = some a → 4096 ≤ a ∧ a + len < u64Size

structure Mmap (p : Nat) where
  start : Nat
  len : HostAlignedByteCount p
  /-- The parts that have been made accessible: offsets and lengths. -/
  accessible : List (Nat × Nat)
deriving DecidableEq

def hex (n : Nat) : String := "0x" ++ String.ofList (Nat.toDigits 16 n)

namespace Mmap

variable {p : Nat} {σ : Type}

def isAccessible (m : Mmap p) (offset : Nat) : Bool :=
  m.accessible.any fun r => decide (r.1 ≤ offset) && decide (offset < r.1 + r.2)

def newEmpty : Mmap p := ⟨4096, .zero, []⟩

def makeAccessible (os : Os) (m : Mmap p) (start len : HostAlignedByteCount p) :
    Prog σ String (Mmap p) :=
  if len.isZero then
    pure m
  else do
    let end_ ← Prog.unwrap (start.checkedAdd len) (.unwrap "start + len must not overflow")
    Prog.assert (decide (end_.byteCount ≤ m.len.byteCount))
      (.assert "start + len must be <= mmap region")
    if os.protect then
      pure { m with accessible := m.accessible ++ [(start.byteCount, len.byteCount)] }
    else
      Prog.err "mprotect failed"

def accessibleReserved (os : Os) (accessibleSize mappingSize : HostAlignedByteCount p) :
    Prog σ String (Mmap p) := do
  let size := hex mappingSize.byteCount
  Prog.assert (decide (accessibleSize.byteCount ≤ mappingSize.byteCount))
    (.assert "accessible_size <= mapping_size")
  if mappingSize.isZero then
    pure newEmpty
  else if accessibleSize = mappingSize then do
    let start ← Prog.orErr (os.reserve mappingSize.byteCount)
      s!"mmap failed to allocate {size} bytes"
    pure ⟨start, mappingSize, [(0, mappingSize.byteCount)]⟩
  else do
    let start ← Prog.orErr (os.reserve mappingSize.byteCount)
      s!"mmap failed to reserve {size} bytes"
    let result : Mmap p := ⟨start, mappingSize, []⟩
    if accessibleSize.isZero then pure result
    else makeAccessible os result .zero accessibleSize

end Mmap

structure MmapMemory (p : Nat) where
  mmap : Mmap p
  len : Nat
  maximum : Option Nat
  extraToReserveOnGrowth : HostAlignedByteCount p
  preGuardSize : HostAlignedByteCount p
  offsetGuardSize : HostAlignedByteCount p
deriving DecidableEq

namespace MmapMemory

variable {p : Nat} {σ : Type}

/-- The bytes to allocate at first, and the extra ones whenever the memory moves. -/
def initialSizes (ty : Memory) (tunables : Tunables) (minimum : Nat) : Nat × Nat :=
  if minimum ≤ tunables.memoryReservation then
    (tunables.memoryReservation,
      match ty.maximumByteSize with
      | some max => if max ≤ tunables.memoryReservation then 0
          else tunables.memoryReservationForGrowth
      | none => tunables.memoryReservationForGrowth)
  else
    (saturatingAdd minimum tunables.memoryReservationForGrowth,
      tunables.memoryReservationForGrowth)

def new (os : Os) (ty : Memory) (tunables : Tunables) (minimum : Nat) (maximum : Option Nat) :
    Prog σ String (MmapMemory p) := do
  let offsetGuardBytes : HostAlignedByteCount p ←
    Prog.orErr (newRoundedUp tunables.memoryGuardSize) "tunable.memory_guard_size overflows"
  let preGuardBytes := if tunables.guardBeforeLinearMemory then offsetGuardBytes else .zero
  let sizes := initialSizes ty tunables minimum
  let allocBytes : HostAlignedByteCount p ←
    Prog.orErr (newRoundedUp sizes.1) "tunables.memory_reservation overflows"
  let extraToReserveOnGrowth : HostAlignedByteCount p ←
    Prog.orErr (newRoundedUp sizes.2) "tunables.memory_reservation_for_growth overflows"
  let requestBytes : HostAlignedByteCount p ←
    Prog.orErr ((preGuardBytes.checkedAdd allocBytes).bind fun i => i.checkedAdd offsetGuardBytes)
      s!"cannot allocate {minimum} with guard regions"
  let mmap ← Mmap.accessibleReserved os .zero requestBytes
  let mmap ←
    if 0 < minimum then do
      let accessible ← Prog.orErr (newRoundedUp minimum) "byte count overflow during round up"
      Mmap.makeAccessible os mmap preGuardBytes accessible
    else
      pure mmap
  pure
    { mmap
      len := minimum
      maximum
      extraToReserveOnGrowth
      preGuardSize := preGuardBytes
      offsetGuardSize := offsetGuardBytes }

/-- The amount to which this memory can grow; nothing if the guards do not fit. -/
def currentCapacity (m : MmapMemory p) : Option (HostAlignedByteCount p) :=
  (m.mmap.len.checkedSub m.offsetGuardSize).bind fun i => i.checkedSub m.preGuardSize

def byteCapacity (m : MmapMemory p) : Prog σ String Nat := do
  let capacity ← Prog.unwrap m.currentCapacity (.unwrap "guard regions fit in mmap.len")
  pure capacity.byteCount

def accessible (m : MmapMemory p) : Prog σ String (HostAlignedByteCount p) := do
  let accessible : HostAlignedByteCount p ←
    Prog.unwrap (newRoundedUp m.len) (.unwrap "accessible region always fits in usize")
  let capacity ← m.byteCapacity
  Prog.assert (decide (accessible.byteCount ≤ capacity))
    (.assert "accessible <= self.current_capacity()")
  pure accessible

def base (m : MmapMemory p) : Nat := m.mmap.start + m.preGuardSize.byteCount

def growInPlace (os : Os) (newSize : Nat) (newAccessible currentCapacity : HostAlignedByteCount p) :
    Prog (MmapMemory p) String Unit := do
  let m ← Prog.get
  Prog.assert (decide (newSize ≤ currentCapacity.byteCount))
    (.assert "new_size <= current_capacity.byte_count()")
  Prog.assert (m.maximum.all fun max => decide (newSize ≤ max))
    (.assert "self.maximum.map_or(true, |max| new_size <= max)")
  let accessible ← m.accessible
  match newAccessible.checkedSub accessible with
  | some difference => do
    let start ← Prog.orErr (m.preGuardSize.checkedAdd accessible)
      "overflow calculating new accessible region"
    let mmap ← Mmap.makeAccessible os m.mmap start difference
    Prog.modify fun m => { m with mmap }
  | none => pure ()

def growMoving (os : Os) (newAccessible : HostAlignedByteCount p) :
    Prog (MmapMemory p) String Unit := do
  let m ← Prog.get
  let requestBytes ← Prog.orErr (((m.preGuardSize.checkedAdd newAccessible).bind fun i =>
      i.checkedAdd m.extraToReserveOnGrowth).bind fun i => i.checkedAdd m.offsetGuardSize)
    "overflow calculating size of memory allocation"
  let newMmap ← Mmap.accessibleReserved os .zero requestBytes
  let newMmap ← Mmap.makeAccessible os newMmap m.preGuardSize newAccessible
  -- both slices that are copied must lie in their mappings
  Prog.assert (decide (m.preGuardSize.byteCount + m.len ≤ m.mmap.len.byteCount))
    (.assert "range.end <= self.len()")
  Prog.assert (decide (m.preGuardSize.byteCount + m.len ≤ newMmap.len.byteCount))
    (.assert "range.end <= self.len()")
  Prog.modify fun m => { m with mmap := newMmap }

def growTo (os : Os) (newSize : Nat) : Prog (MmapMemory p) String Unit := do
  let newAccessible : HostAlignedByteCount p ←
    Prog.orErr (newRoundedUp newSize) "byte count overflow during round up"
  let m ← Prog.get
  let currentCapacity ← Prog.unwrap m.currentCapacity (.unwrap "guard regions fit in mmap.len")
  if currentCapacity.byteCount < newAccessible.byteCount then growMoving os newAccessible
  else growInPlace os newSize newAccessible currentCapacity
  Prog.modify fun m => { m with len := newSize }

end MmapMemory

structure MemoryImage (p : Nat) where
  len : HostAlignedByteCount p
  linearMemoryOffset : HostAlignedByteCount p

/-- The part of a memory that a copy-on-write image manages. -/
structure MemoryImageSlot (p : Nat) where
  staticSize : Nat
  accessible : HostAlignedByteCount p
deriving DecidableEq

structure LocalMemory (p : Nat) where
  alloc : MmapMemory p
  ty : Memory
  memoryMayMove : Bool
  memoryGuardSize : Nat
  memoryReservation : Nat
  memoryImage : Option (MemoryImageSlot p)
deriving DecidableEq

/-- The store's limiter: whether growing is permitted or fails, and whether a failed growth
is an error. -/
structure Limiter where
  memoryGrowing : Option Bool
  memoryGrowFailed : Bool

namespace LocalMemory

variable {p : Nat} {σ : Type}

/-- `MemoryImageSlot::create` and `instantiate`, for a slot that has not been used. -/
def newSlot (os : Os) (image : MemoryImage p) (accessible : HostAlignedByteCount p)
    (staticSize initialSizeBytes : Nat) : Prog σ String (MemoryImageSlot p) := do
  Prog.assert (decide (initialSizeBytes ≤ staticSize))
    (.assert "initial_size_bytes <= self.static_size failed")
  let end_ ← Prog.unwrap (image.linearMemoryOffset.checkedAdd image.len)
    (.unwrap "linear_memory_offset.checked_add(image.len)")
  Prog.assert (decide (end_.byteCount ≤ initialSizeBytes))
    (.assert "linear_memory_offset + image.len <= initial_size_bytes")
  if image.len.isZero || os.mapImage then pure { staticSize, accessible }
  else Prog.err "failed to map image"

def imageSlot (os : Os) (alloc : MmapMemory p) :
    Option (MemoryImage p) → Prog σ String (Option (MemoryImageSlot p))
  | none => pure none
  | some image =>
    match HostAlignedByteCount.ofAligned alloc.len with
    | none => pure none
    | some byteSize => do
      let capacity ← alloc.byteCapacity
      let slot ← newSlot os image byteSize capacity alloc.len
      pure (some slot)

def new (os : Os) (ty : Memory) (tunables : Tunables) (alloc : MmapMemory p)
    (image : Option (MemoryImage p)) : Prog σ String (LocalMemory p) := do
  let memoryImage ← imageSlot os alloc image
  pure
    { alloc
      ty
      memoryMayMove := ty.memoryMayMove tunables
      memoryGuardSize := tunables.memoryGuardSize
      memoryReservation := tunables.memoryReservation
      memoryImage }

def permitMinimum (ty : Memory) : Option Limiter → Prog σ String Unit
  | none => pure ()
  | some limiter =>
    let pages := ty.limits.min
    match limiter.memoryGrowing with
    | some true => pure ()
    | some false => Prog.err s!"memory minimum size of {pages} pages exceeds memory limits"
    | none => Prog.err "memory_growing failed"

/-- `Memory::limit_new`: the minimum and the maximum in bytes. -/
def limitNew (ty : Memory) (store : Option Limiter) : Prog σ String (Nat × Option Nat) := do
  let pages := ty.limits.min
  permitMinimum ty store
  let minimum ← Prog.orErr ty.minimumByteSize
    s!"memory minimum size of {pages} pages exceeds memory limits"
  pure (minimum, ty.maximumByteSize)

/-- `Memory::new_dynamic` for mapped memories: limits, mapping and image. -/
def newDynamic (os : Os) (ty : Memory) (tunables : Tunables) (store : Option Limiter)
    (image : Option (MemoryImage p)) : Prog σ String (LocalMemory p) := do
  let limits ← limitNew ty store
  let alloc ← MmapMemory.new os ty tunables limits.1 limits.2
  new os ty tunables alloc image

/-- The size after growing by some pages, clamped to the largest one there can be. -/
def newByteSize (m : LocalMemory p) (deltaPages : Nat) : Nat :=
  min (saturatingAdd (saturatingMul deltaPages m.ty.pageSize) m.alloc.len)
    ((u64Size - m.ty.pageSize) % u64Size)

def onAlloc {α : Type} (m : Prog (MmapMemory p) String α) : Prog (LocalMemory p) String α :=
  Prog.zoom LocalMemory.alloc (fun a m => { m with alloc := a }) m

def exposeUpTo (os : Os) (slot : MemoryImageSlot p) (end_ : HostAlignedByteCount p) :
    Prog (LocalMemory p) String Unit := do
  let len ← Prog.unwrap (end_.checkedSub slot.accessible) (.unwrap "range.start <= range.end")
  Prog.assert (decide (end_.byteCount ≤ slot.staticSize))
    (.assert "range.end.byte_count() <= self.static_size")
  if os.protect then
    onAlloc (Prog.modify fun a => { a with mmap := { a.mmap with
      accessible := a.mmap.accessible ++
        [(a.preGuardSize.byteCount + slot.accessible.byteCount, len.byteCount)] } })
    Prog.modify fun m => { m with memoryImage := some { slot with accessible := end_ } }
  else
    Prog.err "mprotect failed"

def setHeapLimit (os : Os) (slot : MemoryImageSlot p) (sizeBytes : Nat) :
    Prog (LocalMemory p) String Unit := do
  let sizeBytesAligned : HostAlignedByteCount p ←
    Prog.orErr (newRoundedUp sizeBytes) "byte count overflow during round up"
  Prog.assert (decide (sizeBytes ≤ slot.staticSize)) (.assert "size_bytes <= self.static_size")
  Prog.assert (decide (sizeBytesAligned.byteCount ≤ slot.staticSize))
    (.assert "size_bytes_aligned.byte_count() <= self.static_size")
  if sizeBytesAligned.byteCount ≤ slot.accessible.byteCount then pure ()
  else exposeUpTo os slot sizeBytesAligned

/-- The closure of `grow`: check the limits, then let the image or the allocation grow. -/
def growTo (os : Os) (newByteSize : Nat) : Prog (LocalMemory p) String Unit := do
  let m ← Prog.get
  if m.ty.maximumByteSize.any fun max => decide (max < newByteSize) then
    Prog.err "Memory maximum size exceeded"
  else do
    let capacity ← m.alloc.byteCapacity
    if !m.memoryMayMove && decide (capacity < newByteSize) then
      Prog.err "Memory maximum size exceeded"
    else
      match m.memoryImage with
      | some slot =>
        if newByteSize ≤ capacity then do
          setHeapLimit os slot newByteSize
          onAlloc (Prog.modify fun a => { a with len := newByteSize })
        else do
          Prog.assert m.memoryMayMove (.assert "self.memory_may_move")
          Prog.modify fun m => { m with memoryImage := none }
          onAlloc (MmapMemory.growTo os newByteSize)
      | none => onAlloc (MmapMemory.growTo os newByteSize)

/-- What becomes of a growth, by its result. -/
def finishGrow (basePtrBefore : Nat) (requiredToNotMove : Bool) (sizes : Nat × Nat)
    (store : Option Limiter) : Except String Unit → Prog (LocalMemory p) String (Option (Nat × Nat))
  | .ok () => do
    let m ← Prog.get
    Prog.assert (!requiredToNotMove || decide (basePtrBefore = m.alloc.base))
      (.assert "base_ptr_before == self.alloc.base()")
    pure (some sizes)
  | .error e =>
    if store.any Limiter.memoryGrowFailed then Prog.err e else pure none

def grow (os : Os) (deltaPages : Nat) (store : Option Limiter) :
    Prog (LocalMemory p) String (Option (Nat × Nat)) := do
  let m ← Prog.get
  let oldByteSize := m.alloc.len
  if deltaPages = 0 then
    pure (some (oldByteSize, oldByteSize))
  else
    match store.map Limiter.memoryGrowing with
    | some none => Prog.err "memory_growing failed"
    | some (some false) => pure none
    | _ => do
      let capacity ← m.alloc.byteCapacity
      let newByteSize := m.newByteSize deltaPages
      let result ← Prog.attempt (growTo os newByteSize)
      finishGrow m.alloc.base (decide (newByteSize ≤ capacity)) (oldByteSize, newByteSize) store
        result

/-- The addresses that WebAssembly can reach: a start and an end. -/
def wasmAccessible (m : LocalMemory p) : Prog σ String (Nat × Nat) := do
  let capacity ← m.alloc.byteCapacity
  pure (m.alloc.base, m.alloc.base + max capacity m.memoryReservation + m.memoryGuardSize)

end LocalMemory

end Wasmtime.Vm
