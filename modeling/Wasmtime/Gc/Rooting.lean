import Mathlib.Data.Nat.Bitwise
import Wasmtime.Gc.Drc
import Wasmtime.Slab.Slab

/-!
# The roots of the embedder

`Rooted` handles are positions in a stack that is cut back when a scope is left; a position that is
used again is told apart by the generation of the entry, a `u32` which goes up when a scope is left
that has entries to remove. `ManuallyRooted` handles are ids of a slab.

The GC store is seen through the references that are handed to `drop_gc_ref`, and a collection
through the function by which it moves references.
-/

namespace Wasmtime.Gc.Rooting

open Base Prog Nat

/-! ### Packed indices -/

namespace PackedIndex

def discriminantMask : Nat := 1 <<< 31
def lifoDiscriminant : Nat := 0 <<< 31
def manualDiscriminant : Nat := 1 <<< 31
def payloadMask : Nat := u32Max ^^^ discriminantMask

variable {σ ε : Type} {index packed : Nat} {s s' : σ}

/-- The debug assertions at the end of `new_lifo` and `new_manual` are the lemmas below. -/
def newLifo (index : Nat) : Prog σ ε Nat := do
  assert (index < u32Size) (.unwrap "u32::try_from(index)")
  assert (index &&& discriminantMask == 0) (.assert "index32 & DISCRIMINANT_MASK == 0")
  pure (lifoDiscriminant ||| index)

def newManual (id : Nat) : Prog σ ε Nat := do
  assert (id < u32Size) (.unwrap "into_raw")
  assert (id &&& discriminantMask == 0) (.assert "raw & DISCRIMINANT_MASK == 0")
  pure (manualDiscriminant ||| id)

def discriminant (packed : Nat) : Nat := packed &&& discriminantMask

def isLifo (packed : Nat) : Bool := discriminant packed == lifoDiscriminant

def isManual (packed : Nat) : Bool := discriminant packed == manualDiscriminant

def payload (packed : Nat) : Nat := packed &&& payloadMask

def asLifo (packed : Nat) : Option Nat := if isLifo packed then some (payload packed) else none

/-- A payload has 31 bits, so that `from_raw` accepts it. -/
def asManual (packed : Nat) : Option Nat := if isManual packed then some (payload packed) else none

theorem lt_of_and_mask (h : index < u32Size) (hm : (index &&& discriminantMask == 0) = true) :
    index < 2 ^ 31 := by
  have hbit : index.testBit 31 = false := by
    have hand := beq_iff_eq.1 hm
    rw [show discriminantMask = 2 ^ 31 from rfl, and_two_pow] at hand
    cases hb : index.testBit 31
    · rfl
    · rw [hb] at hand
      cases hand
  have hlt : index < 2 ^ (31 + 1) := h
  by_contra hge
  rw [testBit_eq_decide_div_mod_eq] at hbit
  have : index / 2 ^ 31 = 1 := by omega
  rw [this] at hbit
  cases hbit

theorem newLifo_ok (h : (newLifo index : Prog σ ε Nat) s = (.ok packed, s')) :
    index < 2 ^ 31 ∧ packed = index ∧ s' = s := by
  obtain ⟨hlt, htail⟩ := assert_bind_ok.1 h
  obtain ⟨hmask, hpure⟩ := assert_bind_ok.1 htail
  obtain ⟨rfl, rfl⟩ := pure_ok.1 hpure
  exact ⟨lt_of_and_mask (of_decide_eq_true hlt) hmask, by simp [lifoDiscriminant], rfl⟩

theorem newLifo_run (h : index < 2 ^ 31) : (newLifo index : Prog σ ε Nat) s = (.ok index, s) := by
  have hmask : (index &&& discriminantMask == 0) = true := by
    rw [show discriminantMask = 2 ^ 31 from rfl, and_two_pow, testBit_lt_two_pow h]
    rfl
  have hlt : index < u32Size := h.trans (by decide)
  have hor : lifoDiscriminant ||| index = index := by simp [lifoDiscriminant]
  unfold newLifo
  rw [hmask, decide_eq_true hlt, hor]
  rfl

theorem newManual_ok (h : (newManual index : Prog σ ε Nat) s = (.ok packed, s')) :
    index < 2 ^ 31 ∧ packed = 2 ^ 31 + index ∧ s' = s := by
  obtain ⟨hlt, htail⟩ := assert_bind_ok.1 h
  obtain ⟨hmask, hpure⟩ := assert_bind_ok.1 htail
  obtain ⟨rfl, rfl⟩ := pure_ok.1 hpure
  have hi := lt_of_and_mask (of_decide_eq_true hlt) hmask
  refine ⟨hi, ?_, rfl⟩
  rw [show manualDiscriminant = 2 ^ 31 from rfl]
  have := two_pow_add_eq_or_of_lt hi 1
  simpa using this.symm

theorem payload_eq (packed : Nat) : payload packed = packed % 2 ^ 31 := by
  unfold payload
  rw [show payloadMask = 2 ^ 31 - 1 from rfl, and_two_pow_sub_one_eq_mod]

theorem asLifo_lifo (h : index < 2 ^ 31) : asLifo index = some index := by
  unfold asLifo isLifo discriminant
  rw [show discriminantMask = 2 ^ 31 from rfl, and_two_pow, testBit_lt_two_pow h,
    payload_eq, mod_eq_of_lt h]
  rfl

theorem asLifo_manual (h : index < 2 ^ 31) : asLifo (2 ^ 31 + index) = none := by
  unfold asLifo isLifo discriminant
  rw [show discriminantMask = 2 ^ 31 from rfl, and_two_pow, testBit_two_pow_add_eq,
    testBit_lt_two_pow h]
  rfl

theorem asManual_manual (h : index < 2 ^ 31) : asManual (2 ^ 31 + index) = some index := by
  unfold asManual isManual discriminant
  rw [show discriminantMask = 2 ^ 31 from rfl, and_two_pow, testBit_two_pow_add_eq,
    testBit_lt_two_pow h, payload_eq, add_mod_left, mod_eq_of_lt h]
  rfl

end PackedIndex

/-! ### The root set -/

structure GcRootIndex where
  storeId : Nat
  generation : Nat
  index : Nat

structure LifoRoot where
  generation : Nat
  gcRef : GcRef

structure RootSet where
  manuallyRooted : Slab GcRef := {}
  lifoRoots : List LifoRoot := []
  lifoGeneration : Nat := 0

/-- The GC heap, by the references that `drop_gc_ref` gave up for it. -/
structure GcStore where
  dropped : List GcRef := []

/-- There is nothing to do for an `i31ref`. -/
def GcStore.dropGcRef (gcStore : GcStore) (gcRef : GcRef) : GcStore :=
  if gcRef.isI31 then gcStore else { dropped := gcStore.dropped ++ [gcRef] }

/-- What the functions of this module see of a store. -/
structure Store where
  id : Nat
  build : Build
  gcRoots : RootSet := {}
  gcStore : Option GcStore := none

namespace Store

variable {α : Type}

def withManuallyRooted (m : Prog (Slab GcRef) String α) : Prog Store String α :=
  zoom (·.gcRoots.manuallyRooted)
    (fun slab s => { s with gcRoots := { s.gcRoots with manuallyRooted := slab } }) m

def unwrapGcStore : Prog Store String GcStore := do
  let s ← Prog.get
  unwrap s.gcStore (.unwrap "attempted to access the store's GC heap before it has been allocated")

def cloneGcRef (gcRef : GcRef) : Prog Store String GcRef :=
  if gcRef.isI31 then
    pure gcRef
  else do
    let _ ← unwrapGcStore
    pure gcRef

end Store

namespace GcRootIndex

def getGcRef (handle : GcRootIndex) : Prog Store String (Option GcRef) := do
  let s ← Prog.get
  assert (handle.storeId == s.id) (.assert "object used with wrong store")
  match PackedIndex.asLifo handle.index with
  | some index =>
    pure (s.gcRoots.lifoRoots[index]?.bind fun entry =>
      if entry.generation == handle.generation then some entry.gcRef else none)
  | none =>
    match PackedIndex.asManual handle.index with
    | some id => do
      let gcRef ← Store.withManuallyRooted (Slab.get id)
      debugAssert s.build gcRef.isSome (.assert "gc_ref.is_some()")
      pure gcRef
    | none => Prog.panic (.unreachable "get_gc_ref")

def unrooted : String := "attempted to use a garbage-collected object that has been unrooted"

def tryGcRef (handle : GcRootIndex) : Prog Store String GcRef := do
  let gcRef ← handle.getGcRef
  orErr gcRef unrooted

def tryCloneGcRef (handle : GcRootIndex) : Prog Store String GcRef := do
  let gcRef ← handle.tryGcRef
  Store.cloneGcRef gcRef

/-- `clone_gc_ref` of a manual handle, whose callers unwrap the result. -/
def cloneGcRefUnwrap (handle : GcRootIndex) : Prog Store String GcRef := do
  let gcRef ← handle.getGcRef
  let gcRef ← unwrap gcRef (.unwrap "ManuallyRooted always has a gc ref")
  Store.cloneGcRef gcRef

end GcRootIndex

namespace RootSet

def enterLifoScope (roots : RootSet) : Nat := roots.lifoRoots.length

def pushLifoRoot (storeId : Nat) (gcRef : GcRef) : Prog Store String GcRootIndex := do
  let s ← Prog.get
  let generation := s.gcRoots.lifoGeneration
  let index ← PackedIndex.newLifo s.gcRoots.lifoRoots.length
  Prog.set { s with gcRoots :=
    { s.gcRoots with lifoRoots := s.gcRoots.lifoRoots ++ [⟨generation, gcRef⟩] } }
  pure ⟨storeId, generation, index⟩

def exitLifoScopeSlow (scope : Nat) : Prog Store String Unit := do
  let s ← Prog.get
  let generation ← addU32 s.build s.gcRoots.lifoGeneration 1
  -- References that were made without a GC store are `i31ref`s, and have no drop barrier.
  let gcStore := (s.gcRoots.lifoRoots.drop scope).foldl
    (fun gcStore root => gcStore.map (·.dropGcRef root.gcRef)) s.gcStore
  Prog.set { s with
    gcStore := gcStore
    gcRoots := { s.gcRoots with
      lifoGeneration := generation
      lifoRoots := s.gcRoots.lifoRoots.take scope } }

def exitLifoScope (scope : Nat) : Prog Store String Unit := do
  let s ← Prog.get
  debugAssert s.build (scope ≤ s.gcRoots.lifoRoots.length)
    (.assert "self.lifo_roots.len() >= scope")
  if scope < s.gcRoots.lifoRoots.length then exitLifoScopeSlow scope else pure ()

/-- Every root is given to the collector, which writes `f` of it back. -/
def collect (f : GcRef → GcRef) : Prog Store String Unit := do
  let s ← Prog.get
  assert (s.gcRoots.manuallyRooted.entries.length ≤ Slab.maxCapacity)
    (.assert "self.entries.len() <= MAX_CAPACITY")
  Prog.set { s with gcRoots := { s.gcRoots with
    lifoRoots := s.gcRoots.lifoRoots.map fun root => { root with gcRef := f root.gcRef }
    manuallyRooted := s.gcRoots.manuallyRooted.map f } }

end RootSet

/-! ### Handles -/

def Rooted.new (gcRef : GcRef) : Prog Store String GcRootIndex := do
  let s ← Prog.get
  RootSet.pushLifoRoot s.id gcRef

namespace ManuallyRooted

variable (growth : Growth)

def new (gcRef : GcRef) : Prog Store String GcRootIndex := do
  let id ← Store.withManuallyRooted (Slab.alloc growth gcRef)
  let s ← Prog.get
  let index ← PackedIndex.newManual id
  pure ⟨s.id, 0, index⟩

def clone (handle : GcRootIndex) : Prog Store String GcRootIndex := do
  let gcRef ← handle.cloneGcRefUnwrap
  new growth gcRef

def unroot (handle : GcRootIndex) : Prog Store String Unit := do
  let s ← Prog.get
  assert (handle.storeId == s.id) (.assert "object used with wrong store")
  let id ← unwrap (PackedIndex.asManual handle.index) (.unwrap "as_manual")
  let gcRef ← Store.withManuallyRooted (Slab.dealloc id)
  let gcStore ← Store.unwrapGcStore
  Prog.modify fun s => { s with gcStore := some (gcStore.dropGcRef gcRef) }

def toRooted (handle : GcRootIndex) : Prog Store String GcRootIndex := do
  let s ← Prog.get
  assert (handle.storeId == s.id) (.assert "object used with wrong store")
  let gcRef ← handle.cloneGcRefUnwrap
  Rooted.new gcRef

def intoRooted (handle : GcRootIndex) : Prog Store String GcRootIndex := do
  let s ← Prog.get
  assert (handle.storeId == s.id) (.assert "object used with wrong store")
  let rooted ← toRooted handle
  unroot handle
  pure rooted

end ManuallyRooted

def Rooted.toManuallyRooted (growth : Growth) (handle : GcRootIndex) :
    Prog Store String GcRootIndex := do
  let gcRef ← handle.tryCloneGcRef
  ManuallyRooted.new growth gcRef

end Wasmtime.Gc.Rooting
