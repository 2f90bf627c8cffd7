import Mathlib.Data.Nat.Bitwise
import Wasmtime.Vm.MemoryLayout

/-!
# Layouts of garbage-collected objects

`environ/src/gc.rs` lays out structs, exceptions and arrays: the fields in order, each aligned to
its own size, after a header. The sizes are `u32`s; rounding up is checked, adding the size of a
field is not.

The layout over the natural numbers is `place` (`place_spans`, `place_append`), and
`gc_struct_layout` says that the code computes it whenever the object is smaller than `2 ^ 32`
bytes.
-/

namespace Wasmtime.Environ

open Base Prog List Nat
open Vm (alignUp le_alignUp dvd_alignUp alignUp_le_iff)

/-- The types of fields and elements; `ref` says whether it is a reference that the collector
traces. -/
inductive WasmStorageType where
  | i8
  | i16
  | i32
  | i64
  | f32
  | f64
  | v128
  | ref (traced : Bool)
  | cont
deriving DecidableEq

namespace WasmStorageType

def sizeLog : WasmStorageType → Nat
  | i8 => 0
  | i16 => 1
  | i32 | f32 | ref _ | cont => 2
  | i64 | f64 => 3
  | v128 => 4

/-- `is_vmgcref_type_and_not_i31`. -/
def isGcRef : WasmStorageType → Bool
  | ref traced => traced
  | _ => false

end WasmStorageType

structure GcStructLayoutField where
  offset : Nat
  isGcRef : Bool
deriving DecidableEq

structure GcStructLayout where
  size : Nat
  align : Nat
  fields : List GcStructLayoutField
deriving DecidableEq

structure GcExceptionLayout where
  size : Nat
  align : Nat
  tagOffset : Nat
  fields : List GcStructLayoutField

structure GcArrayLayout where
  baseSize : Nat
  align : Nat
  elemSize : Nat
  elemsAreGcRefs : Bool

def isPowerOfTwo (n : Nat) : Bool := 2 ^ Nat.log2 n == n

section

variable {σ ε : Type} (build : Build)

def byteSizeOfWasmTyInGcHeap : WasmStorageType → Prog σ ε Nat
  | .cont => Prog.panic (.unreachable "Stack switching feature not compatbile with GC, yet")
  | ty => pure (2 ^ ty.sizeLog)

def alignOffset (offset maxAlign align : Nat) : Prog σ ε (Nat × Nat) := do
  debugAssert build (isPowerOfTwo maxAlign) (.assert "max_align.is_power_of_two()")
  debugAssert build (isPowerOfTwo align) (.assert "align.is_power_of_two()")
  let sum ← unwrap (if offset + (align - 1) < u32Size then some (offset + (align - 1)) else none)
    (.unwrap "offset.checked_add(align - 1)")
  pure (sum &&& (u32Max - (align - 1)), max maxAlign align)

/-- The offset of a new field, and the size and the alignment of the object with it. -/
def field (size align bytes : Nat) : Prog σ ε (Nat × Nat × Nat) := do
  let (offset, align) ← alignOffset build size align bytes
  let size ← addU32 build offset bytes
  pure (offset, size, align)

/-- The fields of `common_struct_or_exn_layout`, one after another. -/
def layoutFields (size align : Nat) :
    List WasmStorageType → Prog σ ε (Nat × Nat × List GcStructLayoutField)
  | [] => pure (size, align, [])
  | f :: fs => do
    let fieldSize ← byteSizeOfWasmTyInGcHeap f
    let (offset, size, align) ← field build size align fieldSize
    let (size, align, fields) ← layoutFields size align fs
    pure (size, align, ⟨offset, f.isGcRef⟩ :: fields)

def commonStructOrExnLayout (fields : List WasmStorageType) (headerSize headerAlign : Nat) :
    Prog σ ε GcStructLayout := do
  let (size, align, fields) ← layoutFields build headerSize headerAlign fields
  let (size, align) ← alignOffset build size align align
  pure ⟨size, align, fields⟩

def commonStructLayout (fields : List WasmStorageType) (headerSize headerAlign : Nat) :
    Prog σ ε GcStructLayout := do
  assert (decide (headerSize ≥ 8)) (.assert "header_size >= crate::VM_GC_HEADER_SIZE")
  assert (decide (headerAlign ≥ 8)) (.assert "header_align >= crate::VM_GC_HEADER_ALIGN")
  commonStructOrExnLayout build fields headerSize headerAlign

def commonExnLayout (fields : List WasmStorageType) (headerSize headerAlign : Nat) :
    Prog σ ε GcExceptionLayout := do
  assert (decide (headerSize ≥ 8)) (.assert "header_size >= crate::VM_GC_HEADER_SIZE")
  assert (decide (headerAlign ≥ 8)) (.assert "header_align >= crate::VM_GC_HEADER_ALIGN")
  let tagOffset := headerSize
  assert (decide (headerAlign ≥ 8)) (.assert "header_align >= 8")
  let headerSize ← addU32 build headerSize 8
  let layout ← commonStructOrExnLayout build fields headerSize headerAlign
  pure ⟨layout.size, layout.align, tagOffset, layout.fields⟩

def commonArrayLayout (ty : WasmStorageType)
    (headerSize headerAlign expectedArrayLengthOffset : Nat) : Prog σ ε GcArrayLayout := do
  assert (decide (headerSize ≥ 8)) (.assert "header_size >= crate::VM_GC_HEADER_SIZE")
  assert (decide (headerAlign ≥ 8)) (.assert "header_align >= crate::VM_GC_HEADER_ALIGN")
  let (lengthFieldOffset, size, align) ← field build headerSize headerAlign 4
  assert (decide (lengthFieldOffset = expectedArrayLengthOffset))
    (.assert "length_field_offset == expected_array_length_offset")
  let elemSize ← byteSizeOfWasmTyInGcHeap ty
  let (elemsOffset, align) ← alignOffset build size align elemSize
  -- `align_up` stores the offset that it returns in `size`.
  let size := elemsOffset
  assert (decide (elemsOffset = size)) (.assert "elems_offset == size")
  if ty.isGcRef && build.debugAssertions then
    let lengthEnd ← addU32 build lengthFieldOffset 4
    assert (decide (lengthEnd = elemsOffset))
      (.assert ("DRC collector relies on GC ref elements appearing directly after the length " ++
        "field, without any padding"))
  pure ⟨size, align, elemSize, ty.isGcRef⟩

end

/-! ### The layout over the natural numbers -/

def place (size : Nat) : List WasmStorageType → List GcStructLayoutField
  | [] => []
  | f :: fs =>
    ⟨alignUp f.sizeLog size, f.isGcRef⟩ :: place (alignUp f.sizeLog size + 2 ^ f.sizeLog) fs

def placeEnd (size : Nat) : List WasmStorageType → Nat
  | [] => size
  | f :: fs => placeEnd (alignUp f.sizeLog size + 2 ^ f.sizeLog) fs

def alignLog (fs : List WasmStorageType) (a : Nat) : Nat :=
  (fs.map WasmStorageType.sizeLog).foldl max a

variable {size a : Nat} {f : WasmStorageType} {fs gs : List WasmStorageType}

def spans (fields : List GcStructLayoutField) (fs : List WasmStorageType) : List (Nat × Nat) :=
  (fields.map GcStructLayoutField.offset).zip (fs.map fun f => 2 ^ f.sizeLog)

theorem le_placeEnd (size : Nat) (fs : List WasmStorageType) : size ≤ placeEnd size fs := by
  induction fs generalizing size with
  | nil => exact le_rfl
  | cons f fs ih =>
    have hstep := le_alignUp f.sizeLog size
    exact hstep.trans (le_self_add.trans (ih _))

/-- **Where the fields are**: aligned, between the header and the end, and one after another. -/
theorem place_spans (size : Nat) (fs : List WasmStorageType) : (∀ span ∈ spans (place size fs) fs,
      size ≤ span.1 ∧ span.2 ∣ span.1 ∧ span.1 + span.2 ≤ placeEnd size fs) ∧
    (spans (place size fs) fs).Pairwise fun x y => x.1 + x.2 ≤ y.1 := by
  induction fs generalizing size with
  | nil => exact ⟨nofun, .nil⟩
  | cons f fs ih =>
    obtain ⟨hrest, hpair⟩ := ih (alignUp f.sizeLog size + 2 ^ f.sizeLog)
    have hle := le_alignUp f.sizeLog size
    refine ⟨fun span hspan => ?_, pairwise_cons.2 ⟨fun span hspan => ?_, hpair⟩⟩
    · rcases mem_cons.1 hspan with rfl | hspan
      · exact ⟨hle, dvd_alignUp _ _, le_placeEnd _ fs⟩
      · obtain ⟨hlo, hdvd, hhi⟩ := hrest span hspan
        exact ⟨hle.trans (le_self_add.trans hlo), hdvd, hhi⟩
    · exact (hrest span hspan).1

/-- **Fields at the end do not move those before them.** -/
theorem place_append (size : Nat) (fs gs : List WasmStorageType) :
    place size (fs ++ gs) = place size fs ++ place (placeEnd size fs) gs ∧
      placeEnd size (fs ++ gs) = placeEnd (placeEnd size fs) gs := by
  induction fs generalizing size with
  | nil => exact ⟨rfl, rfl⟩
  | cons f fs ih =>
    obtain ⟨hplace, hend⟩ := ih (alignUp f.sizeLog size + 2 ^ f.sizeLog)
    exact ⟨congrArg (_ :: ·) hplace, hend⟩

theorem place_length (size : Nat) (fs : List WasmStorageType) :
    (place size fs).length = fs.length := by
  induction fs generalizing size with
  | nil => rfl
  | cons f fs ih => exact congrArg (· + 1) (ih _)

theorem sizeLog_lt (f : WasmStorageType) : f.sizeLog < 32 := by
  cases f <;> simp only [WasmStorageType.sizeLog] <;> decide

theorem alignLog_lt (ha : a < 32) (fs : List WasmStorageType) : alignLog fs a < 32 := by
  induction fs generalizing a with
  | nil => exact ha
  | cons f fs ih => exact ih (max_lt ha (sizeLog_lt f))

/-! ### The layout that the code computes -/

section

variable {σ ε : Type} {build : Build} {k offset : Nat} {s s' : σ}

theorem and_mask {x w : Nat} (hk : k ≤ w) (hx : x < 2 ^ w) :
    x &&& (2 ^ w - 1 - (2 ^ k - 1)) = x / 2 ^ k * 2 ^ k := by
  have hmask : 2 ^ w - 1 - (2 ^ k - 1) = 2 ^ k * (2 ^ (w - k) - 1) := by
    rw [Nat.mul_sub, ← pow_add, Nat.add_sub_cancel' hk, Nat.mul_one]
    have := Nat.two_pow_pos k
    omega
  apply eq_of_testBit_eq
  intro i
  rw [hmask, testBit_and, testBit_two_pow_mul, testBit_two_pow_sub_one,
    Nat.mul_comm, testBit_two_pow_mul, testBit_div_two_pow]
  by_cases hi : k ≤ i
  · rw [Nat.sub_add_cancel hi]
    by_cases hw : i < w
    · simp [hi, show i - k < w - k by omega]
    · have hbit : x.testBit i = false :=
        testBit_lt_two_pow (hx.trans_le (Nat.pow_le_pow_right two_pos (not_lt.1 hw)))
      simp [hbit]
  · simp [hi]

/-- The sum that `align_up` checks overflows just when the aligned offset does. -/
theorem add_lt_iff_alignUp_lt (hk : k < 32) :
    offset + (2 ^ k - 1) < u32Size ↔ alignUp k offset < u32Size := by
  have hpos := Nat.two_pow_pos k
  have hdvd : 2 ^ k ∣ u32Size := Nat.pow_dvd_pow 2 hk.le
  have hlt := lt_div_mul_add hpos (a := offset + (2 ^ k - 1))
  constructor
  · exact fun h => lt_of_le_of_lt (div_mul_le_self _ _) h
  · intro h
    -- Both are multiples of the alignment, so a whole step lies between them.
    obtain ⟨m, hm⟩ := hdvd
    rw [hm, Nat.mul_comm (2 ^ k) m] at h
    have hstep := Nat.mul_le_mul_right (2 ^ k) (Nat.lt_of_mul_lt_mul_right h)
    rw [succ_mul, Nat.mul_comm m, ← hm] at hstep
    omega

theorem isPowerOfTwo_two_pow (k : Nat) : isPowerOfTwo (2 ^ k) = true := by
  unfold isPowerOfTwo
  rw [log2_two_pow, beq_self_eq_true]

/-- **Rounding up** gives the next multiple, or panics. -/
theorem alignOffset_eq (hk : k < 32) :
    (alignOffset build offset (2 ^ a) (2 ^ k) : Prog σ ε (Nat × Nat)) s =
      if alignUp k offset < u32Size then (.ok (alignUp k offset, 2 ^ max a k), s)
      else (.panic (.unwrap "offset.checked_add(align - 1)"), s) := by
  have hmax : max (2 ^ a) (2 ^ k) = 2 ^ max a k := ((pow_right_mono₀ one_le_two).map_max).symm
  have hdebug : ∀ p, (debugAssert build true p : Prog σ ε Unit) = pure () := by
    intro p
    unfold debugAssert
    split <;> rfl
  unfold alignOffset
  rw [isPowerOfTwo_two_pow, isPowerOfTwo_two_pow, hdebug, hdebug, hmax]
  by_cases hfit : alignUp k offset < u32Size
  · have hsum := (add_lt_iff_alignUp_lt hk).2 hfit
    rw [if_pos hfit, if_pos hsum]
    exact congrArg (fun x => (Outcome.ok (x, 2 ^ max a k), s)) (and_mask hk.le hsum)
  · rw [if_neg hfit, if_neg (fun h => hfit ((add_lt_iff_alignUp_lt hk).1 h))]
    rfl

theorem alignOffset_run (hk : k < 32) (hfit : alignUp k offset < u32Size) :
    (alignOffset build offset (2 ^ a) (2 ^ k) : Prog σ ε (Nat × Nat)) s =
      (.ok (alignUp k offset, 2 ^ max a k), s) := by
  rw [alignOffset_eq hk, if_pos hfit]

/-- Without a cut sum, no field ends at the first address that is not a `u32`. -/
def NoWrap (build : Build) (size : Nat) (fs : List WasmStorageType) : Prop :=
  build.overflowChecks = true ∨ ∀ pre, pre <+: fs → placeEnd size pre ≠ u32Size

theorem NoWrap.append (h : NoWrap build size (fs ++ gs)) : NoWrap build size fs :=
  h.imp_right fun hends pre hpre => hends pre (hpre.trans (prefix_append fs gs))

theorem NoWrap.tail (h : NoWrap build size (f :: fs)) :
    NoWrap build (alignUp f.sizeLog size + 2 ^ f.sizeLog) fs :=
  h.imp_right fun hends pre hpre =>
    hends (f :: pre) (prefix_cons_inj f |>.2 hpre)

theorem alignUp_add_le (hk : k < 32) (h : alignUp k offset < u32Size) :
    alignUp k offset + 2 ^ k ≤ u32Size := by
  obtain ⟨m, hm⟩ := dvd_alignUp k offset
  obtain ⟨n, hn⟩ : 2 ^ k ∣ u32Size := Nat.pow_dvd_pow 2 hk.le
  rw [hm, hn] at h ⊢
  rw [← mul_succ]
  exact Nat.mul_le_mul_left _ (Nat.lt_of_mul_lt_mul_left h)

theorem field_ok {r : Nat × Nat × Nat} (hk : k < 32)
    (hwrap : build.overflowChecks = true ∨ alignUp k size + 2 ^ k ≠ u32Size)
    (h : (field build size (2 ^ a) (2 ^ k) : Prog σ ε _) s = (.ok r, s')) :
    r = (alignUp k size, alignUp k size + 2 ^ k, 2 ^ max a k) ∧ s' = s ∧
      alignUp k size + 2 ^ k < u32Size := by
  obtain ⟨x, s1, halign, hrest⟩ := bind_ok.1 h
  rw [alignOffset_eq hk] at halign
  split at halign
  case isFalse => cases halign
  case isTrue hfit =>
    cases halign
    obtain ⟨end', s2, hadd, hret⟩ := bind_ok.1 hrest
    have hle := alignUp_add_le hk hfit
    by_cases hlt : alignUp k size + 2 ^ k < u32Size
    · rw [addU32_run hlt] at hadd
      cases hadd
      cases hret
      exact ⟨rfl, rfl, hlt⟩
    · have hchecks : build.overflowChecks = true := hwrap.resolve_right fun hne => hne (by omega)
      unfold addU32 at hadd
      rw [hchecks, decide_eq_true (not_lt.1 hlt)] at hadd
      cases hadd

theorem layoutFields_ok {r : Nat × Nat × List GcStructLayoutField} (hwrap : NoWrap build size fs)
    (h : (layoutFields build size (2 ^ a) fs : Prog σ ε _) s = (.ok r, s')) :
    r = (placeEnd size fs, 2 ^ alignLog fs a, place size fs) ∧ s' = s := by
  induction fs generalizing size a r with
  | nil =>
    cases h
    exact ⟨rfl, rfl⟩
  | cons f fs ih =>
    obtain ⟨bytes, s1, hbytes, hfield⟩ := bind_ok.1 h
    obtain ⟨rfl, rfl⟩ : bytes = 2 ^ f.sizeLog ∧ s1 = s := by
      cases f <;> cases hbytes <;> exact ⟨rfl, rfl⟩
    obtain ⟨x, s2, hx, hrest⟩ := bind_ok.1 hfield
    have hone := hwrap.imp_right fun hends => hends [f] ((prefix_cons_inj f).2 fs.nil_prefix)
    obtain ⟨rfl, rfl, -⟩ := field_ok (sizeLog_lt f) hone hx
    obtain ⟨y, s3, hy, hret⟩ := bind_ok.1 hrest
    cases hret
    obtain ⟨rfl, hs⟩ := ih hwrap.tail hy
    exact ⟨rfl, hs⟩

/-- The fields grow, so only the last of them can end at `2 ^ 32`. -/
theorem layoutFields_run (hcont : .cont ∉ fs) (hfit : placeEnd size fs ≤ u32Size)
    (hwrap : placeEnd size fs = u32Size → build.overflowChecks = false) :
    (layoutFields build (size % u32Size) (2 ^ a) fs : Prog σ ε _) s =
      (.ok (placeEnd size fs % u32Size, 2 ^ alignLog fs a, place size fs), s) := by
  induction fs generalizing size a with
  | nil => rfl
  | cons f fs ih =>
    have hend : alignUp f.sizeLog size + 2 ^ f.sizeLog ≤ placeEnd size (f :: fs) :=
      le_placeEnd _ fs
    have hpos := Nat.two_pow_pos f.sizeLog
    have hsize : size < u32Size := by
      have := le_alignUp f.sizeLog size
      omega
    have hbytes : (byteSizeOfWasmTyInGcHeap f : Prog σ ε Nat) = pure (2 ^ f.sizeLog) := by
      cases f
      case cont => exact absurd mem_cons_self hcont
      all_goals rfl
    have hadd : (addU32 build (alignUp f.sizeLog size) (2 ^ f.sizeLog) : Prog σ ε _) s =
        (.ok ((alignUp f.sizeLog size + 2 ^ f.sizeLog) % u32Size), s) := by
      unfold addU32
      rw [if_neg]
      · rfl
      · intro h
        simp only [Bool.and_eq_true, decide_eq_true_eq] at h
        rw [hwrap (by omega)] at h
        cases h.1
    have hfield : (field build size (2 ^ a) (2 ^ f.sizeLog) : Prog σ ε _) s =
        (.ok (alignUp f.sizeLog size, (alignUp f.sizeLog size + 2 ^ f.sizeLog) % u32Size,
          2 ^ max a f.sizeLog), s) :=
      bind_ok.2 ⟨_, s, alignOffset_run (sizeLog_lt f) (by omega), bind_ok.2 ⟨_, s, hadd, rfl⟩⟩
    have hcont' : .cont ∉ fs := fun hmem => hcont (mem_cons_of_mem f hmem)
    unfold layoutFields
    rw [hbytes, mod_eq_of_lt hsize]
    exact bind_ok.2 ⟨_, s, rfl, bind_ok.2 ⟨_, s, hfield,
      bind_ok.2 ⟨_, s, ih hcont' hfit hwrap, rfl⟩⟩⟩

end

/-! ### Well placed fields -/

/-- What a layout is for: every field has its own aligned bytes between the header and the end. -/
structure WellPlaced (headerSize : Nat) (fs : List WasmStorageType) (layout : GcStructLayout) :
    Prop where
  one_each : layout.fields.length = fs.length
  inside : ∀ span ∈ spans layout.fields fs,
    headerSize ≤ span.1 ∧ span.2 ∣ span.1 ∧ span.1 + span.2 ≤ layout.size
  disjoint : (spans layout.fields fs).Pairwise fun x y => x.1 + x.2 ≤ y.1
  size_dvd : layout.align ∣ layout.size

def naturalLayout (headerSize a : Nat) (fs : List WasmStorageType) : GcStructLayout :=
  ⟨alignUp (alignLog fs a) (placeEnd headerSize fs), 2 ^ alignLog fs a, place headerSize fs⟩

theorem naturalLayout_wellPlaced (headerSize a : Nat) (fs : List WasmStorageType) :
    WellPlaced headerSize fs (naturalLayout headerSize a fs) where
  one_each := place_length headerSize fs
  inside span hspan := by
    obtain ⟨hlo, hdvd, hhi⟩ := (place_spans headerSize fs).1 span hspan
    exact ⟨hlo, hdvd, hhi.trans (le_alignUp _ _)⟩
  disjoint := (place_spans headerSize fs).2
  size_dvd := dvd_alignUp _ _

section

variable {σ ε : Type} {build : Build} {headerSize : Nat} {s s' : σ}

theorem commonStructOrExnLayout_ok {layout : GcStructLayout} (ha : a < 32)
    (hwrap : NoWrap build headerSize fs)
    (h : (commonStructOrExnLayout build fs headerSize (2 ^ a) : Prog σ ε _) s =
      (.ok layout, s')) : layout = naturalLayout headerSize a fs := by
  obtain ⟨x, s1, hfields, hrest⟩ := bind_ok.1 h
  obtain ⟨rfl, rfl⟩ := layoutFields_ok hwrap hfields
  obtain ⟨y, s2, halign, hret⟩ := bind_ok.1 hrest
  rw [alignOffset_eq (alignLog_lt ha fs), max_self] at halign
  split at halign
  case isFalse => cases halign
  case isTrue =>
    cases halign
    cases hret
    rfl

theorem commonStructOrExnLayout_run (ha : a < 32) (hcont : .cont ∉ fs)
    (hheader : headerSize < u32Size) (hend : placeEnd headerSize fs ≤ u32Size)
    (hwrap : placeEnd headerSize fs = u32Size → build.overflowChecks = false)
    (hfit : alignUp (alignLog fs a) (placeEnd headerSize fs % u32Size) < u32Size) :
    (commonStructOrExnLayout build fs headerSize (2 ^ a) : Prog σ ε _) s =
      (.ok ⟨alignUp (alignLog fs a) (placeEnd headerSize fs % u32Size), 2 ^ alignLog fs a,
        place headerSize fs⟩, s) := by
  have hfields : (layoutFields build (headerSize % u32Size) (2 ^ a) fs : Prog σ ε _) s = _ :=
    layoutFields_run hcont hend hwrap
  rw [mod_eq_of_lt hheader] at hfields
  refine bind_ok.2 ⟨_, s, hfields, bind_ok.2 ⟨_, s, alignOffset_run (alignLog_lt ha fs) hfit, ?_⟩⟩
  rw [max_self]
  rfl

end

/-- The ways to lay out fields after a header, which has the tag of an exception in it. -/
inductive LayoutFn (build : Build) (headerSize align : Nat) :
    (List WasmStorageType → Prog Unit Empty GcStructLayout) → Prop where
  | structOrExn :
    LayoutFn build headerSize align fun fs => commonStructOrExnLayout build fs headerSize align
  | struct (hsize : 8 ≤ headerSize) (halign : 8 ≤ align) :
    LayoutFn build headerSize align fun fs => commonStructLayout build fs headerSize align
  | exn (tagOffset : Nat) (htag : headerSize = tagOffset + 8) (hsize : 8 ≤ tagOffset)
    (halign : 8 ≤ align) :
    LayoutFn build headerSize align fun fs => do
      let layout ← commonExnLayout build fs tagOffset align
      pure ⟨layout.size, layout.align, layout.fields⟩

variable {build : Build} {headerSize align : Nat}
  {layoutOf : List WasmStorageType → Prog Unit Empty GcStructLayout}

theorem LayoutFn.eq (h : LayoutFn build headerSize align layoutOf) (hheader : headerSize < u32Size)
    (fs : List WasmStorageType) :
    layoutOf fs () = commonStructOrExnLayout build fs headerSize align () := by
  cases h with
  | structOrExn => rfl
  | struct hsize halign =>
    unfold commonStructLayout
    rw [decide_eq_true hsize, decide_eq_true halign]
    rfl
  | exn tagOffset htag hsize halign =>
    subst htag
    have hadd : addU32 build tagOffset 8 = (pure (tagOffset + 8) : Prog Unit Empty Nat) :=
      funext fun _ => addU32_run hheader
    unfold commonExnLayout
    rw [decide_eq_true hsize, decide_eq_true halign, hadd]
    show (commonStructOrExnLayout build fs (tagOffset + 8) align >>= _ >>= _) () = _
    rcases hrun : (commonStructOrExnLayout build fs (tagOffset + 8) align :
      Prog Unit Empty GcStructLayout) () with ⟨_ | _ | _, _⟩
    all_goals simp only [run_bind, hrun]
    all_goals rfl

theorem noWrap_of_fit (hfit : placeEnd size fs < u32Size) : NoWrap build size fs := by
  refine .inr ?_
  rintro pre ⟨rest, rfl⟩
  rw [(place_append size pre rest).2] at hfit
  exact (lt_of_le_of_lt (le_placeEnd _ rest) hfit).ne

/-- **Struct and exception layouts.** A layout that is computed has its fields well placed, and
the fields of a supertype where the supertype's layout has them, unless a field ends at `2 ^ 32`
and the sum is not checked; and one is computed if the object is smaller than that. -/
theorem gc_struct_layout (h : LayoutFn build headerSize (2 ^ a) layoutOf) (ha : a < 32)
    (hheader : headerSize < u32Size) (fs : List WasmStorageType)
    (hwrap : NoWrap build headerSize fs) :
    (∀ layout, layoutOf fs () = (.ok layout, ()) → WellPlaced headerSize fs layout ∧
      ∀ sup ext supLayout, fs = sup ++ ext → layoutOf sup () = (.ok supLayout, ()) →
        supLayout.fields <+: layout.fields) ∧
    (.cont ∉ fs → (naturalLayout headerSize a fs).size < u32Size →
      ∃ layout, layoutOf fs () = (.ok layout, ())) := by
  refine ⟨fun layout hlayout => ?_, fun hcont hfit => ?_⟩
  case refine_2 =>
    have hend : placeEnd headerSize fs < u32Size := lt_of_le_of_lt (le_alignUp _ _) hfit
    exact ⟨_, (h.eq hheader fs).trans (commonStructOrExnLayout_run ha hcont hheader hend.le
      (fun h => absurd h hend.ne) (by rwa [mod_eq_of_lt hend]))⟩
  obtain rfl := commonStructOrExnLayout_ok ha hwrap ((h.eq hheader fs).symm.trans hlayout)
  refine ⟨naturalLayout_wellPlaced headerSize a fs, ?_⟩
  rintro sup ext supLayout rfl hsup
  obtain rfl := commonStructOrExnLayout_ok ha hwrap.append ((h.eq hheader sup).symm.trans hsup)
  exact ⟨_, (place_append headerSize sup ext).1.symm⟩

theorem gc_struct_layout_drc : ∃ layout : GcStructLayout,
      (commonStructLayout ⟨false, false⟩ [.i8, .i64, .ref true] 24 8 : Prog Unit Empty _) () =
        (.ok layout, ()) ∧ WellPlaced 24 [.i8, .i64, .ref true] layout := by
  have hfn : LayoutFn ⟨false, false⟩ 24 (2 ^ 3) fun fs => commonStructLayout _ fs 24 8 :=
    .struct (by decide) (by decide)
  have hlayout := gc_struct_layout hfn (by decide) (by decide) [.i8, .i64, .ref true]
    (noWrap_of_fit (by decide))
  obtain ⟨layout, hrun⟩ := hlayout.2 (by decide) (by decide)
  exact ⟨layout, hrun, (hlayout.1 layout hrun).1⟩

theorem placeEnd_replicate (n : Nat) (h : 2 ^ 4 ∣ size) :
    placeEnd size (replicate n .v128) = size + 2 ^ 4 * n := by
  induction n generalizing size with
  | zero => rfl
  | succ n ih =>
    have hend := ih (Nat.dvd_add h (dvd_refl (2 ^ 4)))
    rw [replicate_succ, placeEnd, WasmStorageType.sizeLog, Vm.alignUp_eq h, hend]
    ring

/-- Vectors up to `2 ^ 32`: the last sum is cut, and the size is zero. -/
theorem struct_size_wraps : ∃ layout : GcStructLayout,
      (commonStructOrExnLayout ⟨false, false⟩ (replicate (2 ^ 27) .v128) (2 ^ 31) 8 :
        Prog Unit Empty _) () = (.ok layout, ()) ∧ layout.size = 0 ∧
      ¬ WellPlaced (2 ^ 31) (replicate (2 ^ 27) .v128) layout := by
  obtain ⟨n, hn⟩ : ∃ n, 2 ^ 27 = n + 1 := ⟨2 ^ 27 - 1, by norm_num⟩
  have hend : placeEnd (2 ^ 31) (replicate (n + 1) .v128) = u32Size := by
    rw [placeEnd_replicate _ (by norm_num), ← hn]
    norm_num [u32Size]
  have hzero (k : Nat) : alignUp k (placeEnd (2 ^ 31) (replicate (n + 1) .v128) % u32Size) = 0 := by
    rw [hend, Nat.mod_self, Vm.alignUp_zero]
  rw [hn]
  refine ⟨_, commonStructOrExnLayout_run (a := 3) (by decide) (by simp) (by decide) hend.le
    (fun _ => rfl) (hzero _ ▸ by decide), hzero _, fun h => ?_⟩
  have hinside := (h.inside _ mem_cons_self).2.2
  rw [hzero] at hinside
  exact absurd hinside (by simp)

end Wasmtime.Environ
