import Wasmtime.Environ.GcLayout
import Wasmtime.Gc.FreeList

/-!
# Allocation of arrays

`GcArrayLayout::size_for_len` computes the size of an array with `u32` operations that nobody checks
in a release build, and `DrcHeap` allocates and records what comes out. Compiled code checks the
same sum itself and traps (`emit_array_size`); arrays that the host makes do not pass there.

`array_alloc_exact_iff`: of the lengths whose size is not a `u32`, only those are safe whose cut
size no free block can have, or is noticed by a debug build to be below the header.
-/

namespace Wasmtime.Environ.GcArrayLayout

open Base Prog

variable {σ ε : Type} (build : Build)

def elemOffset (layout : GcArrayLayout) (i : Nat) : Prog σ ε Nat := do
  let bytes ← mulU32 build i layout.elemSize
  addU32 build layout.baseSize bytes

def sizeForLen (layout : GcArrayLayout) (len : Nat) : Prog σ ε Nat := elemOffset build layout len

def layout (self : GcArrayLayout) (len : Nat) : Prog σ ε Gc.Layout := do
  let size ← sizeForLen build self len
  unwrap (Gc.Layout.fromSizeAlign size self.align) (.unwrap "Layout::from_size_align")

def fullSize (self : GcArrayLayout) (len : Nat) : Nat := self.baseSize + len * self.elemSize

variable {build} {self : GcArrayLayout} {len : Nat} {s : σ}

/-- **The size that is computed** is the one modulo `2 ^ 32`, unless an overflow is noticed. -/
theorem elemOffset_run (h : build.overflowChecks = true → self.fullSize len < u32Size) :
    (elemOffset build self len : Prog σ ε Nat) s = (.ok (self.fullSize len % u32Size), s) := by
  by_cases hfit : self.fullSize len < u32Size
  · rw [Nat.mod_eq_of_lt hfit]
    exact bind_ok.2 ⟨_, s, mulU32_run (lt_of_le_of_lt (Nat.le_add_left _ _) hfit), addU32_run hfit⟩
  · unfold elemOffset mulU32 addU32
    rw [Bool.eq_false_iff.2 fun hchecks => hfit (h hchecks)]
    exact congrArg (fun n => (Outcome.ok n, s)) (Nat.add_mod_mod _ _ _)

theorem elemOffset_ok {n : Nat} {s' : σ}
    (h : (elemOffset build self len : Prog σ ε Nat) s = (.ok n, s'))
    (hchecks : build.overflowChecks = true) : self.fullSize len < u32Size := by
  by_contra hcon
  obtain ⟨bytes, s1, hmul, hadd⟩ := bind_ok.1 h
  by_cases hfit : len * self.elemSize < u32Size
  · rw [mulU32_run hfit] at hmul
    cases hmul
    have hover : u32Size ≤ self.baseSize + len * self.elemSize := not_lt.1 hcon
    unfold addU32 at hadd
    rw [hchecks, decide_eq_true hover] at hadd
    cases hadd
  · unfold mulU32 at hmul
    rw [hchecks, decide_eq_true (not_lt.1 hfit)] at hmul
    cases hmul

end Wasmtime.Environ.GcArrayLayout

namespace Wasmtime.Gc

open Base Prog Environ

def arrayLayout (build : Build) (ty : WasmStorageType) : Prog Unit Empty GcArrayLayout :=
  commonArrayLayout build ty 24 8 24

structure VMDrcHeader where
  ty : Nat
  refCount : Nat
  nextOverApproximatedStackRoot : Option Nat
  objectSize : Nat

/-- `DrcHeap` as an allocation sees it: the free list, the length of the memory, and what is
written at an index. -/
structure DrcMemory where
  freeList : Option FreeList
  memory : Nat
  headers : Nat → Option VMDrcHeader
  lengths : Nat → Option Nat

/-- `index_mut`, which checks the bounds of an object of `size` bytes. -/
def indexMut (index size : Nat) : Prog DrcMemory String Unit := do
  let heap ← Prog.get
  assert (decide (index + size ≤ heap.memory)) (.bounds "heap_slice_mut()[start..][..len]")

def allocRaw (build : Build) (ty : Nat) (layout : Layout) :
    Prog DrcMemory String (Except Nat Nat) := do
  debugAssert build (decide (24 ≤ layout.size))
    (.assert "layout.size() >= core::mem::size_of::<VMDrcHeader>()")
  debugAssert build (decide (8 ≤ layout.align))
    (.assert "layout.align() >= core::mem::align_of::<VMDrcHeader>()")
  let objectSize ← unwrap (if layout.size < u32Size then some layout.size else none)
    (.unwrap "u32::try_from(layout.size())")
  let heap ← Prog.get
  let freeList ← unwrap heap.freeList (.unwrap "self.free_list.as_mut()")
  let (found, freeList) ← Prog.runOn (FreeList.alloc build layout) freeList
  Prog.set { heap with freeList := some freeList }
  match found with
  | none => pure (.error layout.size)
  | some index => do
    indexMut index 24
    Prog.modify fun heap => { heap with
      headers := Function.update heap.headers index (some ⟨ty, 1, none, objectSize⟩) }
    pure (.ok index)

def allocUninitArray (build : Build) (ty length : Nat) (layout : GcArrayLayout) :
    Prog DrcMemory String (Except Nat Nat) := do
  let layout ← layout.layout build length
  match ← allocRaw build ty layout with
  | .error n => pure (.error n)
  | .ok index => do
    indexMut index 32
    Prog.modify fun heap => { heap with
      lengths := Function.update heap.lengths index (some length) }
    pure (.ok index)

variable {build : Build} {ty index len : Nat} {layout : GcArrayLayout} {heap heap' : DrcMemory}

def DrcMemory.Sound (heap : DrcMemory) : Prop :=
  ∀ list, heap.freeList = some list →
    FreeList.Free (FreeList.limit list.capacity) list.freeBlockIndexToLen

/-- **What an array should be**: its recorded size is the real one, and the elements lie in it one
after another, behind the header and the length. -/
structure Exact (build : Build) (layout : GcArrayLayout) (len : Nat) (heap : DrcMemory)
    (index : Nat) : Prop where
  size : (heap.headers index).map VMDrcHeader.objectSize = some (layout.fullSize len)
  length : heap.lengths index = some len
  elems : ∀ i < len, (layout.elemOffset build i : Prog Unit Empty Nat) () =
      (.ok (layout.fullSize i), ()) ∧ 28 ≤ layout.fullSize i ∧
    layout.fullSize i + layout.elemSize ≤ layout.fullSize len ∧ layout.fullSize len < u32Size
  disjoint : ∀ i j, i < j → j < len → layout.fullSize i + layout.elemSize ≤ layout.fullSize j

variable {full : Layout}

theorem fromSizeAlign_some {size align : Nat} (h : Layout.fromSizeAlign size align = some full) :
    full.size = size ∧ full.align = align := by
  unfold Layout.fromSizeAlign at h
  split at h <;> cases h
  exact ⟨rfl, rfl⟩

theorem allocRaw_ok (h : allocRaw build ty full heap = (.ok (.ok index), heap')) :
    (build.debugAssertions = true → 24 ≤ full.size) ∧ (∃ list list', heap.freeList = some list ∧
        FreeList.alloc build full list = (.ok (some index), list')) ∧
      (heap'.headers index).map VMDrcHeader.objectSize = some full.size := by
  obtain ⟨hdebug, h1⟩ := debugAssert_bind_ok.1 h
  obtain ⟨-, h2⟩ := debugAssert_bind_ok.1 h1
  obtain ⟨objectSize, hobject, h3⟩ := unwrap_bind_ok.1 h2
  obtain ⟨heap1, s4, hget, h4⟩ := bind_ok.1 h3
  obtain ⟨rfl, rfl⟩ := get_ok.1 hget
  obtain ⟨list, hlist, h5⟩ := unwrap_bind_ok.1 h4
  obtain ⟨⟨found, list'⟩, s6, halloc, h6⟩ := bind_ok.1 h5
  obtain ⟨hfound, rfl⟩ := runOn_ok halloc
  obtain ⟨⟨⟩, s7, hset, h7⟩ := bind_ok.1 h6
  have hobject' : full.size = objectSize := by
    split at hobject <;> cases hobject
    rfl
  cases found with
  | none => cases h7
  | some i =>
    obtain ⟨⟨⟩, s8, -, h8⟩ := bind_ok.1 h7
    obtain ⟨⟨⟩, s9, hmod, hret⟩ := bind_ok.1 h8
    obtain rfl := modify_ok.1 hmod
    cases hret
    refine ⟨fun hd => of_decide_eq_true (hdebug hd), ⟨list, list', hlist, hfound⟩, ?_⟩
    rw [hobject']
    exact congrArg _ (Function.update_self _ _ _)

theorem allocUninitArray_ok
    (h : allocUninitArray build ty len layout heap = (.ok (.ok index), heap')) :
    (build.overflowChecks = true → layout.fullSize len < u32Size) ∧
    ∃ (full : Layout) (list list' : FreeList), full.size = layout.fullSize len % u32Size ∧
      (build.debugAssertions = true → 24 ≤ full.size) ∧
      heap.freeList = some list ∧ FreeList.alloc build full list = (.ok (some index), list') ∧
      (heap'.headers index).map VMDrcHeader.objectSize = some full.size ∧
      heap'.lengths index = some len := by
  obtain ⟨full, s1, hlayout, hrest⟩ := bind_ok.1 h
  obtain ⟨size, s2, hsize, hnew⟩ := bind_ok.1 hlayout
  have hfit := GcArrayLayout.elemOffset_ok hsize
  have hrun := hsize.symm.trans (GcArrayLayout.elemOffset_run hfit)
  cases hrun
  obtain ⟨hfull, rfl⟩ := unwrap_ok.1 hnew
  obtain ⟨r, s3, hraw, hset⟩ := bind_ok.1 hrest
  cases r with
  | error n => cases hset
  | ok i =>
    obtain ⟨⟨⟩, s4, hindex, hmod⟩ := bind_ok.1 hset
    obtain ⟨heap1, s5, hget, hassert⟩ := bind_ok.1 hindex
    obtain ⟨-, rfl⟩ := get_ok.1 hget
    obtain ⟨-, rfl⟩ := assert_ok.1 hassert
    obtain ⟨⟨⟩, s6, hlen, hret⟩ := bind_ok.1 hmod
    obtain rfl := modify_ok.1 hlen
    cases hret
    obtain ⟨hdebug, ⟨list, list', hlist, halloc⟩, hsize'⟩ := allocRaw_ok hraw
    exact ⟨hfit, full, list, list', (fromSizeAlign_some hfull).1, hdebug, hlist, halloc, hsize',
      Function.update_self _ _ _⟩

theorem exact_of_fits (hbase : 28 ≤ layout.baseSize) (hfit : layout.fullSize len < u32Size)
    (hsize : (heap.headers index).map VMDrcHeader.objectSize = some (layout.fullSize len))
    (hlength : heap.lengths index = some len) : Exact build layout len heap index := by
  have hnext : ∀ i j, i < j → layout.fullSize i + layout.elemSize ≤ layout.fullSize j := by
    intro i j hlt
    have hmul := Nat.mul_le_mul_right layout.elemSize (Nat.succ_le_of_lt hlt)
    rw [Nat.succ_mul] at hmul
    unfold GcArrayLayout.fullSize
    omega
  refine ⟨hsize, hlength, fun i hi => ?_, fun i j hlt _ => hnext i j hlt⟩
  have hlt : layout.fullSize i < u32Size :=
    lt_of_le_of_lt (le_trans (Nat.le_add_right _ _) (hnext i len hi)) hfit
  refine ⟨?_, hbase.trans (Nat.le_add_right _ _), hnext i len hi, hfit⟩
  rw [GcArrayLayout.elemOffset_run fun _ => hlt, Nat.mod_eq_of_lt hlt]

theorem alloc_le {list list' : FreeList}
    (h : FreeList.Free (FreeList.limit list.capacity) list.freeBlockIndexToLen)
    (hpos : 0 < full.size) (halloc : FreeList.alloc build full list = (.ok (some index), list')) :
    full.size ≤ u32Size - 32 := by
  have hrun := wp_ok (FreeList.alloc_wp h (FreeList.limit_lt _) (FreeList.limit_le _) hpos) halloc
  rcases hrun.2 with ⟨hnone, -⟩ | ⟨b, hb, -, hle, -⟩
  · cases hnone
  have hbounds := h.bounds b hb
  have hlimit : 16 ∣ FreeList.limit list.capacity := FreeList.dvd_roundDownToPow2 _
  have hlt := FreeList.limit_lt list.capacity
  have hblock := FreeList.le_blockSize full
  unfold u32Size at hlt ⊢
  omega

theorem alloc_new (halign : full.align ≤ 16) (hle : full.size ≤ u32Size - 32)
    (hchecks : build.overflowChecks = false) (hdebug : build.debugAssertions = true → 0 < full.size)
    : ∃ list, FreeList.alloc build full (FreeList.new u32Size) = (.ok (some 16), list) := by
  by_cases hzero : full.size = 0
  · obtain ⟨checks, debug⟩ := build
    obtain rfl : checks = false := hchecks
    obtain rfl : debug = false := by
      cases debug
      · rfl
      · exact absurd (hdebug rfl) (by omega)
    have hcheck : FreeList.checkLayout full (FreeList.new u32Size) =
        (.ok 0, FreeList.new u32Size) := by
      unfold FreeList.checkLayout
      rw [hzero, if_neg (show ¬ align < full.align from not_lt.2 halign), if_neg (by decide),
        if_neg (by decide)]
      rfl
    exact ⟨_, bind_ok.2 ⟨0, _, hcheck, rfl⟩⟩
  · have hblock : FreeList.blockSize full ≤ u32Size - 32 := by
      unfold FreeList.blockSize nextMultipleOf align
      unfold u32Size at hle ⊢
      omega
    have hfits : FreeList.Fits full := by
      refine ⟨by omega, ?_, ?_⟩
      all_goals
        omega
    have hmem : ∀ e, e ∈ (FreeList.new u32Size).freeBlockIndexToLen ↔ e = (16, u32Size - 32) := by
      intro e
      exact List.mem_singleton
    have hrun : wp (FreeList.alloc build full) _ _ _ :=
      FreeList.alloc_wp (FreeList.new_free u32Size).1 (FreeList.limit_lt _) (FreeList.limit_le _)
        (Nat.pos_of_ne_zero hzero)
    rcases halloc : FreeList.alloc build full (FreeList.new u32Size) with ⟨o, list⟩
    rw [wp, halloc] at hrun
    cases o with
    | ok r =>
      rcases hrun.2 with ⟨-, -, hnone⟩ | ⟨b, hb, rfl, -⟩
      · exact absurd (hnone _ ((hmem _).2 rfl)) (not_lt.2 hblock)
      · rw [(hmem b).1 hb]
        exact ⟨list, rfl⟩
    | err e => exact absurd hfits hrun.2
    | panic p => exact hrun.elim

theorem arrayLayout_ok {elem : WasmStorageType}
    (h : arrayLayout build elem () = (.ok layout, ())) :
    28 ≤ layout.baseSize ∧ (layout.align = 8 ∨ layout.align = 16) := by
  obtain ⟨checks, debug⟩ := build
  cases elem
  case ref traced => cases checks <;> cases debug <;> cases traced <;> cases h <;> decide
  case cont => cases checks <;> cases debug <;> cases h
  all_goals cases checks <;> cases debug <;> cases h <;> decide

def largestHeap : DrcMemory := ⟨some (FreeList.new u32Size), u32Size, fun _ => none, fun _ => none⟩

theorem largestHeap_sound : largestHeap.Sound := by
  intro list hlist
  cases hlist
  exact (FreeList.new_free u32Size).1

theorem allocUninitArray_largest (halign : layout.align = 8 ∨ layout.align = 16)
    (hchecks : build.overflowChecks = false)
    (hle : layout.fullSize len % u32Size ≤ u32Size - 32)
    (hdebug : build.debugAssertions = true → 24 ≤ layout.fullSize len % u32Size) :
    ∃ heap', allocUninitArray build ty len layout largestHeap = (.ok (.ok 16), heap') := by
  have hvalid : 2 ^ Nat.log2 layout.align = layout.align ∧
      layout.fullSize len % u32Size + layout.align ≤ 2 ^ 63 := by
    refine ⟨by rcases halign with h | h <;> rw [h] <;> decide, ?_⟩
    unfold u32Size at hle ⊢
    omega
  let full : Layout := ⟨_, _, hvalid⟩
  have hfull : (layout.layout build len : Prog DrcMemory String Layout) largestHeap =
      (.ok full, largestHeap) := by
    have hrun : build.overflowChecks = true → layout.fullSize len < u32Size :=
      fun h => absurd (hchecks.symm.trans h) Bool.false_ne_true
    exact bind_ok.2 ⟨_, _, GcArrayLayout.elemOffset_run hrun, unwrap_ok.2 ⟨dif_pos hvalid, rfl⟩⟩
  have hsmall : full.size < u32Size := Nat.mod_lt _ (by decide)
  have halign' : 8 ≤ full.align ∧ full.align ≤ 16 := by
    show 8 ≤ layout.align ∧ layout.align ≤ 16
    omega
  obtain ⟨list, halloc⟩ := alloc_new halign'.2 hle hchecks
    fun h => lt_of_lt_of_le (by decide) (hdebug h)
  have hfound : (Prog.runOn (FreeList.alloc build full) (FreeList.new u32Size) :
      Prog DrcMemory String _) largestHeap = (.ok (some 16, list), largestHeap) := by
    unfold Prog.runOn
    rw [halloc]
  have hraw : allocRaw build ty full largestHeap = (.ok (.ok 16), _) :=
    debugAssert_bind_ok.2 ⟨fun h => decide_eq_true (hdebug h),
      debugAssert_bind_ok.2 ⟨fun _ => decide_eq_true halign'.1,
      bind_ok.2 ⟨_, _, unwrap_ok.2 ⟨if_pos hsmall, rfl⟩,
      bind_ok.2 ⟨_, _, rfl, bind_ok.2 ⟨_, _, rfl,
      bind_ok.2 ⟨_, _, hfound, rfl⟩⟩⟩⟩⟩⟩
  exact ⟨_, bind_ok.2 ⟨full, _, hfull, bind_ok.2 ⟨.ok 16, _, hraw, rfl⟩⟩⟩

/-- **Arrays that are what they should be.** Every allocation with a length fails or is exact,
if and only if the size of the array is a `u32` or its excess cannot get through. -/
theorem array_alloc_exact_iff {elem : WasmStorageType}
    (hlayout : arrayLayout build elem () = (.ok layout, ())) (len : Nat) :
    (∀ ty heap heap' index, heap.Sound →
      allocUninitArray build ty len layout heap = (.ok (.ok index), heap') →
      Exact build layout len heap' index) ↔
    (build.overflowChecks = true ∨ layout.fullSize len < u32Size ∨
      u32Size - 32 < layout.fullSize len % u32Size ∨
      (build.debugAssertions = true ∧ layout.fullSize len % u32Size < 24)) := by
  obtain ⟨hbase, halign⟩ := arrayLayout_ok hlayout
  constructor
  · intro hexact
    by_contra hcon
    push Not at hcon
    obtain ⟨hchecks, hover, hle, hdebug⟩ := hcon
    obtain ⟨heap', hrun⟩ : ∃ heap', allocUninitArray build 0 len layout largestHeap =
        (.ok (.ok 16), heap') :=
      allocUninitArray_largest halign (Bool.eq_false_iff.2 hchecks) hle hdebug
    have hsize := (hexact 0 _ _ _ largestHeap_sound hrun).size
    obtain ⟨-, full, -, -, hfull, -, -, -, hrecorded, -⟩ := allocUninitArray_ok hrun
    have heq := Option.some.inj (hrecorded.symm.trans hsize)
    have hlt := Nat.mod_lt (layout.fullSize len) (show 0 < u32Size by decide)
    omega
  · intro hcond ty heap heap' index hsound hrun
    obtain ⟨hchecks, full, list, list', hfull, hdebug, hlist, halloc, hrecorded, hlength⟩ :=
      allocUninitArray_ok hrun
    have hfit : layout.fullSize len < u32Size := by
      rcases hcond with h | h | h | ⟨hd, h⟩
      · exact hchecks h
      · exact h
      · exact absurd (alloc_le (hsound list hlist) (by omega) halloc) (by omega)
      · exact absurd (hdebug hd) (by omega)
    rw [hfull, Nat.mod_eq_of_lt hfit] at hrecorded
    exact exact_of_fits hbase hfit hrecorded hlength

theorem array_alloc_exact_bytes :
    arrayLayout ⟨false, false⟩ .i8 () = (.ok ⟨28, 8, 1, false⟩, ()) ∧
    ∀ ty heap heap' index, heap.Sound →
      allocUninitArray ⟨false, false⟩ ty 100 ⟨28, 8, 1, false⟩ heap = (.ok (.ok index), heap') →
      Exact ⟨false, false⟩ ⟨28, 8, 1, false⟩ 100 heap' index := by
  have hlayout : arrayLayout ⟨false, false⟩ .i8 () = (.ok ⟨28, 8, 1, false⟩, ()) := rfl
  exact ⟨hlayout, (array_alloc_exact_iff hlayout 100).2 (.inr (.inl (by decide)))⟩

/-- An array of `2 ^ 29` integers of 64 bits is given the 32 bytes of an empty one. -/
theorem array_size_wraps :
    arrayLayout ⟨false, false⟩ .i64 () = (.ok ⟨32, 8, 8, false⟩, ()) ∧
    ∃ heap', allocUninitArray ⟨false, false⟩ 0 (2 ^ 29) ⟨32, 8, 8, false⟩ largestHeap =
        (.ok (.ok 16), heap') ∧
      (heap'.headers 16).map VMDrcHeader.objectSize = some 32 ∧
      ¬ Exact ⟨false, false⟩ ⟨32, 8, 8, false⟩ (2 ^ 29) heap' 16 := by
  obtain ⟨heap', hrun⟩ : ∃ heap', allocUninitArray ⟨false, false⟩ 0 (2 ^ 29) ⟨32, 8, 8, false⟩
      largestHeap = (.ok (.ok 16), heap') :=
    allocUninitArray_largest (.inl rfl) rfl (by decide) nofun
  obtain ⟨-, full, -, -, hfull, -, -, -, hrecorded, -⟩ := allocUninitArray_ok hrun
  rw [hfull] at hrecorded
  refine ⟨rfl, heap', hrun, hrecorded, fun hexact => ?_⟩
  exact absurd (Option.some.inj (hrecorded.symm.trans hexact.size)) (by decide)

end Wasmtime.Gc
