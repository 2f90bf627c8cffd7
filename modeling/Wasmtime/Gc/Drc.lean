import Wasmtime.Base.SortedMap
import Wasmtime.Base.Word

/-!
# The deferred reference-counting collector

`vm/gc/enabled/drc.rs` with the barriers of `GcStore` (`vm/gc.rs`). Every object has a count of the
references to it. References on the Wasm stack are not counted one by one: an object that is exposed
to Wasm is put on an intrusive list, the over-approximated stack roots, which holds one reference to
each member. A collection marks the objects that are on the stack and sweeps the list.

The assertions of debug builds and the overflow checks of the counts are part of the model. An
object is known by its heap index; the model panics where an index that belongs to no live object is
read. The free list hands out the index as an argument of `allocRaw`.
-/

namespace Wasmtime.Gc

open Base

/-- `VMGcRef`: an unboxed integer or the index of an object. -/
inductive GcRef where
  | i31 (value : Nat)
  | heap (index : Nat)
deriving DecidableEq

def GcRef.isI31 : GcRef → Bool
  | .i31 _ => true
  | .heap _ => false

/-- An `externref` with its entry of the host data table, or an object of a type. -/
inductive Kind where
  | externRef (hostData : Nat)
  | typed (ty : Nat)
deriving DecidableEq

/-- `VMDrcHeader`, with the GC references that `trace_gc_ref` reads from the object. -/
structure Object where
  kind : Kind
  refCount : Nat
  nextOverApproximatedStackRoot : Option Nat
  inOverApproximatedStackRoots : Bool
  marked : Bool
  slots : List (Option GcRef)
deriving DecidableEq

/-- The collector, with the host data table of its store. -/
structure DrcHeap where
  traceInfos : List Nat
  overApproximatedStackRoots : Option Nat
  objects : SortedMap Nat Object
  hostData : List Nat

structure Root where
  onWasmStack : Bool
  gcRef : GcRef

namespace DrcHeap

def empty : DrcHeap := ⟨[], none, .empty, []⟩

/-- `self.index(..)` and `self.index_mut(..)`. -/
def index (i : Nat) : Prog DrcHeap Empty Object := do
  let h ← Prog.get
  Prog.unwrap (h.objects.get? i) (.bounds "no live object at this index")

def put (i : Nat) (o : Object) : Prog DrcHeap Empty Unit :=
  Prog.modify fun h => { h with objects := h.objects.insert i o }

/-! ### Counts -/

def incRef : GcRef → Prog DrcHeap Empty Unit
  | .i31 _ => pure ()
  | .heap i => do
    let header ← index i
    Prog.assert (decide (header.refCount ≠ 0)) (.assert "header.ref_count")
    Prog.assert (decide (header.refCount + 1 < u64Size)) (.overflow "header.ref_count += 1")
    put i { header with refCount := header.refCount + 1 }

def decRef : GcRef → Prog DrcHeap Empty Bool
  | .i31 _ => pure false
  | .heap i => do
    let header ← index i
    Prog.assert (decide (header.refCount ≠ 0)) (.assert "header.ref_count")
    put i { header with refCount := header.refCount - 1 }
    pure (decide (header.refCount - 1 = 0))

/-- The references that are pushed onto the stack, the last one on top. -/
def traceGcRef (i : Nat) (stack : List GcRef) : Prog DrcHeap Empty (List GcRef) := do
  let header ← index i
  match header.kind with
  | .externRef _ => pure stack
  | .typed ty => do
    let h ← Prog.get
    Prog.assert (decide (ty ∈ h.traceInfos)) (.unwrap "should have inserted trace info")
    pure ((header.slots.filterMap id).reverse ++ stack)

/-- `ExternRefHostDataTable::dealloc`. -/
def deallocHostData (id : Nat) : Prog DrcHeap Empty Unit := do
  let h ← Prog.get
  Prog.assert (decide (id ∈ h.hostData)) (.assert "deallocated entry is vacant")
  Prog.set { h with hostData := h.hostData.erase id }

/-- The part of `dec_ref_and_maybe_dealloc` about the host data of an `externref`. -/
def dropHostData (i : Nat) : Prog DrcHeap Empty Unit := do
  let header ← index i
  match header.kind with
  | .externRef id => deallocHostData id
  | .typed _ => pure ()

def dealloc (i : Nat) : Prog DrcHeap Empty Unit := do
  let _ ← index i
  Prog.modify fun h => { h with objects := h.objects.erase i }

def reclaim (gcRef : GcRef) (stack : List GcRef) : Prog DrcHeap Empty (List GcRef) :=
  match gcRef with
  | .i31 _ => Prog.panic (.assert "!gc_ref.is_i31()")
  | .heap i => do
    let stack ← traceGcRef i stack
    dropHostData i
    dealloc i
    pure stack

/-- The loop of `dec_ref_and_maybe_dealloc`. -/
def decRefLoop : Nat → List GcRef → Prog DrcHeap Empty Unit
  | _, [] => pure ()
  | 0, _ :: _ => Prog.panic (.unreachable "out of steps")
  | fuel + 1, gcRef :: stack => do
    let dead ← decRef gcRef
    if dead then do
      let stack ← reclaim gcRef stack
      decRefLoop fuel stack
    else
      decRefLoop fuel stack

/-- The number of fields of all objects, a bound for the references that the loop can meet. -/
def slotCount (h : DrcHeap) : Nat := (h.objects.entries.map fun e => e.2.slots.length).sum

def decRefAndMaybeDealloc (gcRef : GcRef) : Prog DrcHeap Empty Unit := do
  let h ← Prog.get
  decRefLoop (h.slotCount + 1) [gcRef]

/-! ### Barriers -/

def cloneGcRef : GcRef → Prog DrcHeap Empty GcRef
  | .i31 value => pure (.i31 value)
  | .heap i => do
    incRef (.heap i)
    pure (.heap i)

def incSource : Option GcRef → Prog DrcHeap Empty Unit
  | some src => incRef src
  | none => pure ()

def decDestination : Option GcRef → Prog DrcHeap Empty Unit
  | some dest => decRefAndMaybeDealloc dest
  | none => pure ()

def needsWriteBarrier (destination source : Option GcRef) : Bool :=
  destination.any (!·.isI31) || source.any (!·.isI31)

/-- `write_gc_ref`. The result is what is written to the destination. -/
def writeGcRef (destination source : Option GcRef) : Prog DrcHeap Empty (Option GcRef) :=
  if needsWriteBarrier destination source then do
    incSource source
    decDestination destination
    pure source
  else
    pure source

def dropGcRef (gcRef : GcRef) : Prog DrcHeap Empty Unit :=
  if gcRef.isI31 then
    pure ()
  else do
    let _ ← writeGcRef (some gcRef) none
    pure ()

/-- `write_field` of a struct and `write_elem` of an array, for a GC reference. -/
def writeField (i field : Nat) (source : Option GcRef) : Prog DrcHeap Empty Unit := do
  let object ← index i
  let old ← Prog.unwrap object.slots[field]? (.bounds "data.read_u32(offset)")
  let new ← writeGcRef old source
  let object ← index i
  put i { object with slots := object.slots.set field new }

/-- `DrcHeap::expose_gc_ref_to_wasm`. -/
def exposeObject (i : Nat) : Prog DrcHeap Empty Unit := do
  let header ← index i
  if header.inOverApproximatedStackRoots then
    pure ()
  else do
    put i { header with inOverApproximatedStackRoots := true }
    let h ← Prog.get
    let next := h.overApproximatedStackRoots
    let header ← index i
    Prog.assert header.inOverApproximatedStackRoots (.assert "is_in_over_approximated_stack_roots")
    put i { header with nextOverApproximatedStackRoot := next }
    Prog.modify fun h => { h with overApproximatedStackRoots := some i }

def exposeGcRefToWasm : GcRef → Prog DrcHeap Empty Unit
  | .i31 _ => pure ()
  | .heap i => exposeObject i

/-! ### Allocation -/

def ensureTraceInfo : Kind → Prog DrcHeap Empty Unit
  | .externRef _ => pure ()
  | .typed ty => Prog.modify fun h =>
    if ty ∈ h.traceInfos then h else { h with traceInfos := ty :: h.traceInfos }

/-- `alloc_raw`, with the answer of the free list. The fields of the new object are null. -/
def allocRaw (kind : Kind) (slots : Nat) (free : Option Nat) : Prog DrcHeap Empty (Option Nat) := do
  ensureTraceInfo kind
  match free with
  | none => pure none
  | some i => do
    put i ⟨kind, 1, none, false, false, List.replicate slots none⟩
    pure (some i)

/-- `GcStore::alloc_externref`, with the answers of the host data table and the free list. -/
def allocExternref (id : Nat) (free : Option Nat) : Prog DrcHeap Empty (Option Nat) := do
  Prog.modify fun h => { h with hostData := id :: h.hostData }
  match ← allocRaw (.externRef id) 0 free with
  | some i => pure (some i)
  | none => do
    deallocHostData id
    pure none

/-! ### Collections -/

def follow (h : DrcHeap) : Nat → Option Nat → List Nat
  | 0, _ => []
  | _, none => []
  | fuel + 1, some i =>
    i :: follow h fuel ((h.objects.get? i).bind (·.nextOverApproximatedStackRoot))

def iterOverApproximatedStackRoots (h : DrcHeap) : List Nat :=
  h.follow h.objects.entries.length h.overApproximatedStackRoots

def markRoot (overApproxSet : List Nat) (root : Root) : Prog DrcHeap Empty Unit :=
  if root.onWasmStack then
    match root.gcRef with
    | .i31 _ => pure ()
    | .heap i => do
      Prog.assert (decide (i ∈ overApproxSet)) (.assert "over_approx_set.contains(&gc_ref)")
      let header ← index i
      Prog.assert header.inOverApproximatedStackRoots
        (.assert "is_in_over_approximated_stack_roots")
      Prog.assert (decide (header.refCount ≠ 0)) (.assert "header.ref_count")
      put i { header with marked := true }
  else
    pure ()

def markRoots (overApproxSet : List Nat) : List Root → Prog DrcHeap Empty Unit
  | [] => pure ()
  | root :: roots => do
    markRoot overApproxSet root
    markRoots overApproxSet roots

def trace (roots : List Root) : Prog DrcHeap Empty Unit := do
  let h ← Prog.get
  markRoots h.iterOverApproximatedStackRoots roots

/-- `*self.over_approximated_stack_roots = next`, or the link of the object before. -/
def relink (next : Option Nat) : Option Nat → Prog DrcHeap Empty Unit
  | none => Prog.modify fun h => { h with overApproximatedStackRoots := next }
  | some prev => do
    let header ← index prev
    Prog.assert header.inOverApproximatedStackRoots (.assert "is_in_over_approximated_stack_roots")
    put prev { header with nextOverApproximatedStackRoot := next }

/-- The body of the loop of `sweep`: the new `prev` and `next`. -/
def sweepStep (prev : Option Nat) (i : Nat) : Prog DrcHeap Empty (Option Nat × Option Nat) := do
  let header ← index i
  Prog.assert header.inOverApproximatedStackRoots (.assert "is_in_over_approximated_stack_roots")
  let next := header.nextOverApproximatedStackRoot
  if header.marked then do
    put i { header with marked := false }
    pure (some i, next)
  else do
    put i { header with inOverApproximatedStackRoots := false }
    relink next prev
    decRefAndMaybeDealloc (.heap i)
    pure (prev, next)

/-- So many rounds of the loop of `sweep`. -/
def sweepRounds : Nat → Option Nat → Option Nat → Prog DrcHeap Empty (Option Nat × Option Nat)
  | 0, prev, next => pure (prev, next)
  | _ + 1, prev, none => pure (prev, none)
  | n + 1, prev, some i => do
    let (prev, next) ← sweepStep prev i
    sweepRounds n prev next

def sweep : Prog DrcHeap Empty Unit := do
  let h ← Prog.get
  let (_, next) ← sweepRounds h.objects.entries.length none h.overApproximatedStackRoots
  -- The list is no longer than there are objects, so that the loop has ended by now.
  Prog.assert next.isNone (.unreachable "out of rounds")

/-- `collect_increment`, twice. -/
def collect (roots : List Root) : Prog DrcHeap Empty Unit := do
  trace roots
  sweep

end DrcHeap

end Wasmtime.Gc
