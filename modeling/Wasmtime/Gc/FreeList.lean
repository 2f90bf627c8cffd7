import Wasmtime.Base.SortedMap
import Wasmtime.Base.Word
import Mathlib.Order.CompletePartialOrder

/-!
# The free list of the garbage-collected heap

`vm/gc/enabled/free_list.rs`: a first-fit allocator for a range of memory that begins at index 16
and can grow at its end. The free blocks are a map from index to length; a block that is given back
is merged with its neighbours.

`FreeList.Free`: aligned blocks with a gap after each of them. Every operation is specified by what
it does to the set of free bytes (`FreeList.alloc_wp`, `FreeList.dealloc_wp`,
`FreeList.addCapacity_wp`); all four ways to merge a block are cases of `Free.put`.
-/

namespace Wasmtime.Gc

open Base Prog SortedMap Nat

structure Layout where
  size : Nat
  align : Nat
  valid : 2 ^ Nat.log2 align = align ∧ size + align ≤ 2 ^ 63
deriving DecidableEq

def Layout.fromSizeAlign (size align : Nat) : Option Layout :=
  if h : 2 ^ Nat.log2 align = align ∧ size + align ≤ 2 ^ 63 then some ⟨size, align, h⟩ else none

/-- `ALIGN_U32` and `ALIGN_USIZE`. -/
def align : Nat := 16

/-- `round_u32_down_to_pow2` and `round_usize_down_to_pow2`. -/
def roundDownToPow2 (value divisor : Nat) : Nat := value - value % divisor

/-- `checked_next_multiple_of`, before the check. -/
def nextMultipleOf (value divisor : Nat) : Nat := (value + (divisor - 1)) / divisor * divisor

structure FreeList where
  capacity : Nat
  freeBlockIndexToLen : SortedMap Nat Nat

namespace FreeList

/-! ### The operations, as the source has them -/

def new (capacity : Nat) : FreeList :=
  let end_ := if capacity < u32Size then capacity else u32Max
  let start := align
  let len := roundDownToPow2 (end_ - start) align
  { capacity
    freeBlockIndexToLen := if align ≤ len then SortedMap.empty.insert start len else .empty }

def checkLayout (layout : Layout) : Prog FreeList String Nat :=
  let alignment := layout.align
  let size := layout.size
  if align < layout.align then
    Prog.err <| s!"requested allocation's alignment of {alignment} is greater than " ++
      "max supported alignment of 16"
  else if u32Size ≤ layout.size then
    Prog.err "requested allocation's size does not fit in a u32"
  else if u32Size ≤ nextMultipleOf layout.size align then
    Prog.err s!"failed to round allocation size of {size} up to next multiple of 16"
  else
    pure (nextMultipleOf layout.size align)

variable (build : Build)

def assertAligned (n : Nat) (site : String) : Prog FreeList String Unit :=
  debugAssert build (decide (n % align = 0)) (.assert site)

def firstFit (allocSize : Nat) : Prog FreeList String (Option (Nat × Nat)) := do
  assertAligned build allocSize "alloc_size"
  let list ← Prog.get
  match list.freeBlockIndexToLen.find? fun e => decide (allocSize ≤ e.2) with
  | none => pure none
  | some (blockIndex, blockLen) => do
    assertAligned build blockIndex "block_index"
    assertAligned build blockLen "block_len"
    Prog.modify fun l =>
      { l with freeBlockIndexToLen := l.freeBlockIndexToLen.erase blockIndex }
    debugAssert build (list.freeBlockIndexToLen.get? blockIndex).isSome (.assert "entry.is_some()")
    pure (some (blockIndex, blockLen))

def maybeSplit (allocSize blockIndex blockLen : Nat) : Prog FreeList String Nat := do
  assertAligned build allocSize "alloc_size"
  assertAligned build blockIndex "block_index"
  assertAligned build blockLen "block_len"
  let rest ← subU32 build blockLen allocSize
  if rest < align then
    pure blockLen
  else do
    let newBlockLen := allocSize
    let splitStart ← addU32 build blockIndex allocSize
    let splitLen ← subU32 build blockLen allocSize
    assertAligned build newBlockLen "new_block_len"
    assertAligned build splitStart "split_start"
    assertAligned build splitLen "split_len"
    Prog.modify fun l =>
      { l with freeBlockIndexToLen := l.freeBlockIndexToLen.insert splitStart splitLen }
    pure newBlockLen

/-- The second check of `check_integrity`. -/
def assertAfter (prevEnd : Option Nat) (index : Nat) : Prog FreeList String Unit :=
  match prevEnd with
  | some prevEnd => assert (decide (prevEnd < index)) (.assert "prev_end < index")
  | none => pure ()

/-- The loop of `check_integrity`. -/
def checkBlocks (capacity : Nat) : Option Nat → List (Nat × Nat) → Prog FreeList String Unit
  | _, [] => pure ()
  | prevEnd, (index, len) :: rest => do
    let end_ ← addU32 build index len
    assert (decide (end_ ≤ capacity)) (.assert "end <= self.capacity")
    assertAfter prevEnd index
    assert (decide (index % align = 0)) (.assert "index % ALIGN_U32")
    assert (decide (len % align = 0)) (.assert "len % ALIGN_U32")
    checkBlocks capacity (some end_) rest

def checkIntegrity : Prog FreeList String Unit :=
  if build.debugAssertions then do
    let list ← Prog.get
    checkBlocks build list.capacity none list.freeBlockIndexToLen.entries
  else
    pure ()

def alloc (layout : Layout) : Prog FreeList String (Option Nat) := do
  let allocSize ← checkLayout layout
  assertAligned build allocSize "alloc_size"
  match ← firstFit build allocSize with
  | none => pure none
  | some (blockIndex, blockLen) => do
    debugAssert build (decide (blockIndex ≠ 0)) (.assert "block_index != 0")
    assertAligned build blockIndex "block_index"
    debugAssert build (decide (allocSize ≤ blockLen)) (.assert "block_len >= alloc_size")
    assertAligned build blockLen "block_len"
    let blockLen ← maybeSplit build allocSize blockIndex blockLen
    debugAssert build (decide (allocSize ≤ blockLen)) (.assert "block_len >= alloc_size")
    assertAligned build blockLen "block_len"
    checkIntegrity build
    pure (some blockIndex)

def blocksAreContiguous (prevIndex prevLen nextIndex : Nat) : Prog FreeList String Bool := do
  let endOfPrev ← addU32 build prevIndex prevLen
  debugAssert build (decide (endOfPrev ≤ nextIndex)) (.assert "overlapping blocks")
  let deltaToNext ← subU32 build nextIndex endOfPrev
  pure (decide (deltaToNext < align))

/-- The arms of the `match` in `dealloc`. -/
inductive Merge where
  | both (prev next : Nat × Nat)
  | prev (prev : Nat × Nat)
  | next (next : Nat × Nat)
  | neither

/-- Which arm is taken for a block with these neighbours. -/
def mergeArm (index allocSize : Nat) :
    Option (Nat × Nat) → Option (Nat × Nat) → Prog FreeList String Merge
  | some prev, some next => do
    let withPrev ← blocksAreContiguous build prev.1 prev.2 index
    let withNext ← blocksAreContiguous build index allocSize next.1
    pure (if withPrev && withNext then .both prev next
      else if withPrev then .prev prev else if withNext then .next next else .neither)
  | some prev, none => do
    let withPrev ← blocksAreContiguous build prev.1 prev.2 index
    pure (if withPrev then .prev prev else .neither)
  | none, some next => do
    let withNext ← blocksAreContiguous build index allocSize next.1
    pure (if withNext then .next next else .neither)
  | none, none => pure .neither

/-- The end of a block in a message of the log. -/
def traceEnd (index len : Nat) : Prog FreeList String Unit := do
  let _ ← addU32 build index len
  pure ()

/-- `*self.free_block_index_to_len.get_mut(&index).unwrap() = len`. -/
def setLen (index len : Nat) : Prog FreeList String Unit := do
  let list ← Prog.get
  let _ ← unwrap (list.freeBlockIndexToLen.get? index) (.unwrap "get_mut(&prev_index)")
  Prog.set { list with freeBlockIndexToLen := list.freeBlockIndexToLen.insert index len }

def merge (index allocSize size : Nat) : Merge → Prog FreeList String Unit
  | .both prev next => do
    traceEnd build prev.1 prev.2
    traceEnd build index size
    traceEnd build next.1 next.2
    Prog.modify fun l => { l with freeBlockIndexToLen := l.freeBlockIndexToLen.erase next.1 }
    let nextEnd ← addU32 build next.1 next.2
    let mergedBlockLen ← subU32 build nextEnd prev.1
    assertAligned build mergedBlockLen "merged_block_len"
    setLen prev.1 mergedBlockLen
  | .prev prev => do
    traceEnd build prev.1 prev.2
    traceEnd build index size
    let end_ ← addU32 build index allocSize
    let mergedBlockLen ← subU32 build end_ prev.1
    assertAligned build mergedBlockLen "merged_block_len"
    setLen prev.1 mergedBlockLen
  | .next next => do
    traceEnd build index size
    traceEnd build next.1 next.2
    Prog.modify fun l => { l with freeBlockIndexToLen := l.freeBlockIndexToLen.erase next.1 }
    let nextEnd ← addU32 build next.1 next.2
    let mergedBlockLen ← subU32 build nextEnd index
    assertAligned build mergedBlockLen "merged_block_len"
    Prog.modify fun l =>
      { l with freeBlockIndexToLen := l.freeBlockIndexToLen.insert index mergedBlockLen }
  | .neither =>
    Prog.modify fun l =>
      { l with freeBlockIndexToLen := l.freeBlockIndexToLen.insert index allocSize }

def dealloc (index : Nat) (layout : Layout) : Prog FreeList String Unit := do
  assertAligned build index "index"
  let allocSize ← expect (checkLayout layout) (.unwrap "self.check_layout(layout)")
  assertAligned build allocSize "alloc_size"
  let list ← Prog.get
  let prevBlock := list.freeBlockIndexToLen.lastBelow index
  let nextBlock := list.freeBlockIndexToLen.firstAbove index
  let arm ← mergeArm build index allocSize prevBlock nextBlock
  merge build index allocSize layout.size arm
  checkIntegrity build

/-- The end of `add_capacity`: a block of the given size is new at `index`. -/
def addBlock (index size : Nat) : Prog FreeList String Unit :=
  if size = 0 then
    pure ()
  else
    match Layout.fromSizeAlign size align with
    | none => pure ()
    | some layout => do
      traceEnd build index size
      dealloc build index layout

def addCapacity (additional : Nat) : Prog FreeList String Unit := do
  let list ← Prog.get
  let oldCap := list.capacity
  let capacity := saturatingAdd oldCap additional
  Prog.set { list with capacity }
  let oldCapRounded := roundDownToPow2 oldCap align
  if u32Size ≤ oldCapRounded then
    pure ()
  else do
    let index := if oldCapRounded = 0 then align else oldCapRounded
    let newCap := roundDownToPow2 (if capacity < u32Size then capacity else u32Max) align
    if newCap < index then
      pure ()
    else do
      let size ← subU32 build newCap index
      assertAligned build size "size"
      addBlock build index size

/-! ### Free blocks as sets of bytes -/

def region (m : SortedMap Nat Nat) : Set Nat := {x | ∃ e ∈ m, e.1 ≤ x ∧ x < e.1 + e.2}

/-- **The invariant of the map of free blocks**: they are aligned, lie below `hi`, and between
two of them there is something that is not free. -/
structure Free (hi : Nat) (m : SortedMap Nat Nat) : Prop where
  aligned : ∀ e ∈ m, 16 ∣ e.1 ∧ 16 ∣ e.2
  pos : ∀ e ∈ m, 0 < e.2
  bounds : ∀ e ∈ m, 16 ≤ e.1 ∧ e.1 + e.2 ≤ hi
  apart : ∀ a ∈ m, ∀ b ∈ m, a.1 < b.1 → a.1 + a.2 < b.1

variable {build : Build} {hi : Nat} {m m' : SortedMap Nat Nat} {b : Nat × Nat}
  {index size n : Nat} {layout : Layout} {s s' : FreeList} {E : String → FreeList → Prop}

namespace Free

theorem mono {hi' : Nat} (h : Free hi m) (hle : hi ≤ hi') : Free hi' m :=
  { h with bounds := fun e he => ⟨(h.bounds e he).1, le_trans (h.bounds e he).2 hle⟩ }

theorem apart_of_ne (h : Free hi m) {e : Nat × Nat} (he : e ∈ m) (hb : b ∈ m)
    (hne : e.1 ≠ b.1) : e.1 + e.2 < b.1 ∨ b.1 + b.2 < e.1 := by
  rcases Nat.lt_or_gt_of_ne hne with hlt | hgt
  · exact .inl (h.apart e he b hb hlt)
  · exact .inr (h.apart b hb e he hgt)

/-- **Putting a block in.** The blocks within the new one are replaced by it; all others keep
a distance from it. -/
theorem fuse (h : Free hi m) {lo len : Nat} (hpos : 0 < len) (hal : 16 ∣ lo ∧ 16 ∣ len)
    (hlo : 16 ≤ lo) (hhi : lo + len ≤ hi)
    (hm' : ∀ e, e ∈ m' ↔ e = (lo, len) ∨ e ∈ m ∧ ¬ (lo ≤ e.1 ∧ e.1 < lo + len))
    (hsep : ∀ e ∈ m, (lo ≤ e.1 ∧ e.1 + e.2 ≤ lo + len) ∨ e.1 + e.2 < lo ∨ lo + len < e.1) :
    Free hi m' ∧ region m' = region m ∪ Set.Ico lo (lo + len) := by
  have hkeep : ∀ e ∈ m, ¬ (lo ≤ e.1 ∧ e.1 < lo + len) → e.1 + e.2 < lo ∨ lo + len < e.1 := by
    intro e he hout
    have := h.pos e he
    rcases hsep e he with hin | hout'
    · omega
    · exact hout'
  refine ⟨⟨fun e he => ?_, fun e he => ?_, fun e he => ?_, fun a ha c hc hlt => ?_⟩, ?_⟩
  · rcases (hm' e).1 he with rfl | ⟨he, -⟩
    · exact hal
    · exact h.aligned e he
  · rcases (hm' e).1 he with rfl | ⟨he, -⟩
    · exact hpos
    · exact h.pos e he
  · rcases (hm' e).1 he with rfl | ⟨he, -⟩
    · exact ⟨hlo, hhi⟩
    · exact h.bounds e he
  · rcases (hm' a).1 ha with rfl | ⟨ha, houta⟩ <;> rcases (hm' c).1 hc with rfl | ⟨hc, houtc⟩
    · omega
    · have := hkeep c hc houtc
      omega
    · have := hkeep a ha houta
      omega
    · exact h.apart a ha c hc hlt
  · ext x
    constructor
    · rintro ⟨e, he, hx⟩
      rcases (hm' e).1 he with rfl | ⟨he, -⟩
      · exact .inr hx
      · exact .inl ⟨e, he, hx⟩
    · rintro (⟨e, he, hx⟩ | hx)
      · by_cases hin : lo ≤ e.1 ∧ e.1 < lo + len
        · refine ⟨(lo, len), (hm' _).2 (.inl rfl), ?_⟩
          have := hsep e he
          omega
        · exact ⟨e, (hm' e).2 (.inr ⟨he, hin⟩), hx⟩
      · exact ⟨(lo, len), (hm' _).2 (.inl rfl), hx⟩

/-- The map after `n` bytes have been taken from the front of a block. -/
def rest (m : SortedMap Nat Nat) (b : Nat × Nat) (n : Nat) : SortedMap Nat Nat :=
  if b.2 = n then m.erase b.1 else (m.erase b.1).insert (b.1 + n) (b.2 - n)

theorem mem_rest (h : Free hi m) (hb : b ∈ m) (hn : 0 < n) (hle : n ≤ b.2) (e : Nat × Nat) :
    e ∈ rest m b n ↔ e ∈ m ∧ e.1 ≠ b.1 ∨ e = (b.1 + n, b.2 - n) ∧ b.2 ≠ n := by
  unfold rest
  split_ifs with heq
  · simp only [mem_erase, heq, ne_eq, not_true_eq_false, and_false, or_false]
  · rw [mem_insert, mem_erase]
    constructor
    · rintro (rfl | ⟨he, -⟩)
      · exact .inr ⟨rfl, heq⟩
      · exact .inl he
    · rintro (⟨he, hne⟩ | ⟨rfl, -⟩)
      · refine .inr ⟨⟨he, hne⟩, ?_⟩
        have := h.apart_of_ne he hb hne
        omega
      · exact .inl rfl

theorem carve (h : Free hi m) (hb : b ∈ m) (hn : 0 < n) (hal : 16 ∣ n) (hle : n ≤ b.2) :
    Free hi (rest m b n) ∧ region (rest m b n) = region m \ Set.Ico b.1 (b.1 + n) := by
  have hmem := h.mem_rest hb hn hle
  obtain ⟨halb, halb'⟩ := h.aligned b hb
  obtain ⟨hlob, hhib⟩ := h.bounds b hb
  refine ⟨⟨fun e he => ?_, fun e he => ?_, fun e he => ?_, fun a ha c hc hlt => ?_⟩, ?_⟩
  · rcases (hmem e).1 he with ⟨he, -⟩ | ⟨rfl, -⟩
    · exact h.aligned e he
    · exact ⟨Nat.dvd_add halb hal, Nat.dvd_sub halb' hal⟩
  · rcases (hmem e).1 he with ⟨he, -⟩ | ⟨rfl, hne⟩
    · exact h.pos e he
    · dsimp only
      omega
  · rcases (hmem e).1 he with ⟨he, -⟩ | ⟨rfl, hne⟩
    · exact h.bounds e he
    · dsimp only
      omega
  · rcases (hmem a).1 ha with ⟨ha, hnea⟩ | ⟨rfl, hnea⟩ <;>
      rcases (hmem c).1 hc with ⟨hc, hnec⟩ | ⟨rfl, hnec⟩
    · exact h.apart a ha c hc hlt
    · have := h.apart_of_ne ha hb hnea
      omega
    · have := h.apart_of_ne hc hb hnec
      omega
    · omega
  · ext x
    simp only [region, Set.mem_ofPred_eq, Set.mem_sdiff, Set.mem_Ico]
    constructor
    · rintro ⟨e, he, hx⟩
      rcases (hmem e).1 he with ⟨he, hne⟩ | ⟨rfl, hne⟩
      · have := h.apart_of_ne he hb hne
        exact ⟨⟨e, he, hx⟩, by omega⟩
      · dsimp only at hx
        exact ⟨⟨b, hb, by omega⟩, by omega⟩
    · rintro ⟨⟨e, he, hx⟩, hout⟩
      by_cases hk : e.1 = b.1
      · obtain rfl := eq_of_key he hb hk
        exact ⟨(e.1 + n, e.2 - n), (hmem _).2 (.inr ⟨rfl, by omega⟩), by dsimp only; omega⟩
      · exact ⟨e, (hmem e).2 (.inl ⟨he, hk⟩), hx⟩

theorem subset_region (hb : b ∈ m) (hle : n ≤ b.2) : Set.Ico b.1 (b.1 + n) ⊆ region m := by
  intro x hx
  rw [Set.mem_Ico] at hx
  exact ⟨b, hb, hx.1, by omega⟩

end Free

/-! ### Specifications -/

def blockSize (layout : Layout) : Nat := nextMultipleOf layout.size align

structure Fits (layout : Layout) : Prop where
  align_le : layout.align ≤ 16
  size_lt : layout.size < u32Size
  block_lt : blockSize layout < u32Size

theorem dvd_blockSize (layout : Layout) : 16 ∣ blockSize layout := Nat.dvd_mul_left _ _

theorem le_blockSize (layout : Layout) : layout.size ≤ blockSize layout := by
  unfold blockSize nextMultipleOf align
  omega

variable {Q : Unit → FreeList → Prop}

variable {α : Type} {R : α → FreeList → Prop} {f : Unit → Prog FreeList String α}

theorem wp_assertAligned {site : String} (h : 16 ∣ n) (hQ : wp (f ()) R E s) :
    wp (assertAligned build n site >>= f) R E s :=
  wp_debugAssert (decide_eq_true (mod_eq_zero_of_dvd h)) hQ

theorem checkLayout_wp :
    wp (checkLayout layout) (fun n s' => s' = s ∧ n = blockSize layout ∧ Fits layout)
      (fun _ s' => s' = s ∧ ¬ Fits layout) s := by
  unfold checkLayout
  split_ifs with h1 h2 h3
  · exact ⟨rfl, fun h => absurd h.align_le (by unfold align at h1; omega)⟩
  · exact ⟨rfl, fun h => absurd h.size_lt (by omega)⟩
  · exact ⟨rfl, fun h => absurd h.block_lt (by unfold blockSize; omega)⟩
  · exact ⟨rfl, rfl, by unfold align at h1; omega, by omega, by unfold blockSize; omega⟩

theorem firstFit_wp (h : Free hi s.freeBlockIndexToLen) (hn : 16 ∣ n) : wp (firstFit build n)
      (fun r s' => (r = none ∧ s' = s ∧ ∀ e ∈ s.freeBlockIndexToLen, e.2 < n) ∨
        ∃ b ∈ s.freeBlockIndexToLen, r = some b ∧ n ≤ b.2 ∧
          s' = { s with freeBlockIndexToLen := s.freeBlockIndexToLen.erase b.1 }) E s := by
  unfold firstFit
  refine wp_assertAligned hn ?_
  rw [wp_bind, wp_get]
  split
  · rename_i hfind
    refine .inl ⟨rfl, rfl, fun e he => ?_⟩
    have := find?_none hfind e he
    rw [decide_eq_false_iff_not] at this
    omega
  · rename_i i len hfind
    obtain ⟨hb, hle⟩ := find?_some hfind
    rw [decide_eq_true_eq] at hle
    obtain ⟨hal, hal'⟩ := h.aligned _ hb
    refine wp_assertAligned hal ?_
    refine wp_assertAligned hal' ?_
    rw [wp_bind, wp_modify]
    refine wp_debugAssert ?_ (.inr ⟨(i, len), hb, rfl, hle, rfl⟩)
    rw [get?_eq_some.2 hb]
    rfl

theorem maybeSplit_wp (hb : 16 ∣ b.1 ∧ 16 ∣ b.2) (hn : 16 ∣ n) (hle : n ≤ b.2)
    (hlt : b.1 + b.2 < u32Size) :
    wp (maybeSplit build n b.1 b.2)
      (fun r s' => r = n ∧ s' = if b.2 = n then s else
        { s with freeBlockIndexToLen := s.freeBlockIndexToLen.insert (b.1 + n) (b.2 - n) })
      E s := by
  unfold maybeSplit
  refine wp_assertAligned hn ?_
  refine wp_assertAligned hb.1 ?_
  refine wp_assertAligned hb.2 ?_
  refine wp_subU32 hle (by omega) ?_
  rw [wp_ite]
  constructor
  · intro hrest
    have heq : b.2 = n := by
      unfold align at hrest
      omega
    exact ⟨heq, (if_pos heq).symm⟩
  · intro hrest
    have hne : b.2 ≠ n := by
      unfold align at hrest
      omega
    refine wp_addU32 (by omega) ?_
    refine wp_subU32 hle (by omega) ?_
    refine wp_assertAligned hn ?_
    refine wp_assertAligned (Nat.dvd_add hb.1 hn) ?_
    refine wp_assertAligned (Nat.dvd_sub hb.2 hn) ?_
    exact ⟨rfl, (if_neg hne).symm⟩

theorem checkBlocks_wp {capacity : Nat} {l : List (Nat × Nat)} {prevEnd : Option Nat}
    (hl : l.Pairwise fun a b => a.1 + a.2 < b.1)
    (hal : ∀ e ∈ l, 16 ∣ e.1 ∧ 16 ∣ e.2) (hend : ∀ e ∈ l, e.1 + e.2 ≤ hi)
    (hhi : hi < u32Size) (hcap : hi ≤ capacity)
    (hprev : ∀ x, prevEnd = some x → ∀ e ∈ l, x < e.1) :
    wp (checkBlocks build capacity prevEnd l) (fun _ s' => s' = s) E s := by
  induction hl generalizing prevEnd with
  | nil => exact rfl
  | @cons a rest hlt _ ih =>
    have hmem : a ∈ a :: rest := List.mem_cons_self
    have ha := hend a hmem
    have hal' := hal a hmem
    unfold checkBlocks
    refine wp_addU32 (by omega) ?_
    rw [wp_bind, wp_assert]
    refine ⟨decide_eq_true (le_trans ha hcap), ?_⟩
    have hafter : wp (assertAfter prevEnd a.1) (fun _ s' => s' = s) E s := by
      unfold assertAfter
      split
      · exact wp_assert.2 ⟨decide_eq_true (hprev _ rfl a hmem), rfl⟩
      · exact rfl
    refine wp_seq hafter ?_
    rintro _ _ rfl
    rw [wp_bind, wp_assert]
    refine ⟨decide_eq_true (mod_eq_zero_of_dvd hal'.1), ?_⟩
    rw [wp_bind, wp_assert]
    refine ⟨decide_eq_true (mod_eq_zero_of_dvd hal'.2), ?_⟩
    refine ih (fun e he => hal e (List.mem_cons_of_mem _ he))
      (fun e he => hend e (List.mem_cons_of_mem _ he)) ?_
    rintro x hx e he
    cases hx
    exact hlt e he

theorem checkIntegrity_wp (h : Free hi s.freeBlockIndexToLen) (hhi : hi < u32Size)
    (hcap : hi ≤ s.capacity) :
    wp (checkIntegrity build) (fun _ s' => s' = s) E s := by
  unfold checkIntegrity
  rw [wp_ite]
  refine ⟨fun _ => ?_, fun _ => rfl⟩
  rw [wp_bind, wp_get]
  refine checkBlocks_wp ?_ h.aligned (fun e he => (h.bounds e he).2) hhi hcap
    (fun x hx => nomatch hx)
  exact s.freeBlockIndexToLen.sorted.imp_of_mem fun ha hb hlt => h.apart _ ha _ hb hlt

structure Carved (hi : Nat) (s : FreeList) (index n : Nat) (s' : FreeList) : Prop where
  free : Free hi s'.freeBlockIndexToLen
  capacity : s'.capacity = s.capacity
  aligned : 16 ∣ index
  was : Set.Ico index (index + n) ⊆ region s.freeBlockIndexToLen
  region : region s'.freeBlockIndexToLen =
    region s.freeBlockIndexToLen \ Set.Ico index (index + n)

/-- **Allocation.** A block is cut off a free one, unless none is large enough. -/
theorem alloc_wp (h : Free hi s.freeBlockIndexToLen) (hhi : hi < u32Size)
    (hcap : hi ≤ s.capacity) (hsize : 0 < layout.size) :
    wp (alloc build layout) (fun r s' => Fits layout ∧
        ((r = none ∧ s' = s ∧ ∀ e ∈ s.freeBlockIndexToLen, e.2 < blockSize layout) ∨
          ∃ b ∈ s.freeBlockIndexToLen, r = some b.1 ∧ blockSize layout ≤ b.2 ∧
            Carved hi s b.1 (blockSize layout) s'))
      (fun _ s' => s' = s ∧ ¬ Fits layout) s := by
  have hal := dvd_blockSize layout
  have hpos : 0 < blockSize layout := lt_of_lt_of_le hsize (le_blockSize layout)
  unfold alloc
  refine wp_seq checkLayout_wp ?_
  rintro _ s ⟨rfl, rfl, hfits⟩
  refine wp_assertAligned hal ?_
  refine wp_seq (firstFit_wp h hal) ?_
  rintro _ s1 (⟨rfl, rfl, hnone⟩ | ⟨⟨i, len⟩, hb, rfl, hle, rfl⟩)
  · exact ⟨hfits, .inl ⟨rfl, rfl, hnone⟩⟩
  obtain ⟨hali, hallen⟩ := h.aligned _ hb
  have hbound := h.bounds _ hb
  refine wp_debugAssert (decide_eq_true (by omega)) ?_
  refine wp_assertAligned hali ?_
  refine wp_debugAssert (decide_eq_true hle) ?_
  refine wp_assertAligned hallen ?_
  refine wp_seq (maybeSplit_wp (b := (i, len)) ⟨hali, hallen⟩ hal hle (by omega)) ?_
  rintro _ s2 ⟨rfl, hs2⟩
  have hmap : s2.freeBlockIndexToLen = Free.rest s.freeBlockIndexToLen (i, len)
      (blockSize layout) := by
    rw [hs2]
    unfold Free.rest
    split_ifs <;> rfl
  have hcap2 : s2.capacity = s.capacity := by
    rw [hs2]
    split_ifs <;> rfl
  obtain ⟨hfree, hregion⟩ := h.carve hb hpos hal hle
  rw [← hmap] at hfree hregion
  refine wp_debugAssert (decide_eq_true le_rfl) ?_
  refine wp_assertAligned hal ?_
  refine wp_seq (checkIntegrity_wp hfree hhi (hcap2 ▸ hcap)) ?_
  rintro _ _ rfl
  exact ⟨hfits, .inr ⟨_, hb, rfl, hle, hfree, hcap2, hali, Free.subset_region hb hle, hregion⟩⟩

structure Vacant (hi : Nat) (m : SortedMap Nat Nat) (index n : Nat) : Prop where
  pos : 0 < n
  aligned : 16 ∣ index ∧ 16 ∣ n
  bounds : 16 ≤ index ∧ index + n ≤ hi
  disjoint : Disjoint (Set.Ico index (index + n)) (region m)

theorem Vacant.side (hv : Vacant hi m index n) (h : Free hi m) {e : Nat × Nat} (he : e ∈ m) :
    e.1 + e.2 ≤ index ∧ e.1 < index ∨ index + n ≤ e.1 ∧ index < e.1 := by
  have hpos := hv.pos
  have hpos' := h.pos e he
  by_contra hcon
  refine Set.disjoint_left.1 hv.disjoint (show max index e.1 ∈ _ from ?_) ?_
  · rw [Set.mem_Ico]
    omega
  · exact ⟨e, he, le_max_right _ _, by omega⟩

theorem blocksAreContiguous_wp {prevIndex prevLen nextIndex : Nat}
    (hal : 16 ∣ prevIndex ∧ 16 ∣ prevLen ∧ 16 ∣ nextIndex) (hle : prevIndex + prevLen ≤ nextIndex)
    (hlt : nextIndex < u32Size) :
    wp (blocksAreContiguous build prevIndex prevLen nextIndex)
      (fun r s' => s' = s ∧ (r = true ↔ prevIndex + prevLen = nextIndex)) E s := by
  unfold blocksAreContiguous
  refine wp_addU32 (by omega) ?_
  refine wp_debugAssert (decide_eq_true hle) ?_
  refine wp_subU32 hle hlt ⟨rfl, ?_⟩
  rw [decide_eq_true_eq, align]
  omega

/-- The free bytes right before `index` begin at `lo`. -/
def Before (m : SortedMap Nat Nat) (index lo : Nat) : Prop :=
  lo = index ∧ (∀ e ∈ m, e.1 < index → e.1 + e.2 < index) ∨ ∃ e ∈ m, e.1 = lo ∧ e.1 + e.2 = index

/-- The free bytes from `index` on end at `hi`. -/
def After (m : SortedMap Nat Nat) (index hi : Nat) : Prop :=
  hi = index ∧ (∀ e ∈ m, index ≤ e.1 → index < e.1) ∨ ∃ e ∈ m, e.1 = index ∧ e.1 + e.2 = hi

/-- **Putting a block in together with its neighbours.** -/
theorem Free.put (h : Free hi m) (hv : Vacant hi m index n) {lo up : Nat}
    (hlo : Before m index lo) (hup : After m (index + n) up)
    (hm' : ∀ e, e ∈ m' ↔ e = (lo, up - lo) ∨ e ∈ m ∧ ¬ (lo ≤ e.1 ∧ e.1 < up)) :
    Free hi m' ∧ region m' = region m ∪ Set.Ico index (index + n) := by
  have hpos := hv.pos
  have hal := hv.aligned
  have hbounds := hv.bounds
  have hlow : lo ≤ index ∧ 16 ∣ lo ∧ 16 ≤ lo ∧
      (∀ e ∈ m, e.1 < index → lo ≤ e.1 ∨ e.1 + e.2 < lo) ∧ Set.Ico lo index ⊆ region m := by
    rcases hlo with ⟨rfl, hgap⟩ | ⟨e, he, rfl, rfl⟩
    · refine ⟨le_rfl, hal.1, hbounds.1, fun e he hlt => .inr (hgap e he hlt), ?_⟩
      rw [Set.Ico_self]
      exact Set.empty_subset _
    · refine ⟨Nat.le_add_right _ _, (h.aligned e he).1, (h.bounds e he).1, fun a ha hlt => ?_,
        Free.subset_region he le_rfl⟩
      have hne := h.apart_of_ne ha he
      omega
  have hhigh : index + n ≤ up ∧ 16 ∣ up ∧ up ≤ hi ∧
      (∀ e ∈ m, index + n ≤ e.1 → e.1 + e.2 ≤ up ∨ up < e.1) ∧
      Set.Ico (index + n) up ⊆ region m := by
    rcases hup with ⟨rfl, hgap⟩ | ⟨e, he, heq, rfl⟩
    · refine ⟨le_rfl, by omega, hbounds.2, fun e he hle => .inr (hgap e he hle), ?_⟩
      rw [Set.Ico_self]
      exact Set.empty_subset _
    · have hale := h.aligned e he
      refine ⟨by omega, by omega, (h.bounds e he).2, fun a ha hle => ?_, ?_⟩
      · by_cases hk : a.1 = e.1
        · rw [eq_of_key ha he hk]
          exact .inl le_rfl
        · have := h.apart_of_ne ha he hk
          omega
      · rw [← heq]
        exact Free.subset_region he le_rfl
  have hlen : lo + (up - lo) = up := by omega
  obtain ⟨hfree, hreg⟩ := h.fuse (by omega : 0 < up - lo)
    ⟨hlow.2.1, Nat.dvd_sub hhigh.2.1 hlow.2.1⟩ hlow.2.2.1 (by omega)
    (by rw [hlen]; exact hm') (fun e he => by
      have hside := hv.side h he
      have h1 := hlow.2.2.2.1 e he
      have h2 := hhigh.2.2.2.1 e he
      omega)
  refine ⟨hfree, hreg.trans ?_⟩
  rw [hlen, ← Set.Ico_union_Ico_eq_Ico hlow.1 (by omega : index ≤ up),
    ← Set.Ico_union_Ico_eq_Ico (Nat.le_add_right index n) hhigh.1]
  ext x
  simp only [Set.mem_union]
  tauto

/-- What the arm of the `match` says about the neighbours of a block. -/
def Merge.Ok (m : SortedMap Nat Nat) (index n : Nat) : Merge → Prop
  | .both left right =>
    left ∈ m ∧ left.1 + left.2 = index ∧ right ∈ m ∧ index + n = right.1
  | .prev left =>
    left ∈ m ∧ left.1 + left.2 = index ∧ ∀ e ∈ m, index < e.1 → index + n < e.1
  | .next right =>
    (∀ e ∈ m, e.1 < index → e.1 + e.2 < index) ∧ right ∈ m ∧ index + n = right.1
  | .neither =>
    (∀ e ∈ m, e.1 < index → e.1 + e.2 < index) ∧ ∀ e ∈ m, index < e.1 → index + n < e.1

theorem prev_wp (h : Free hi m) (hhi : hi < u32Size) (hv : Vacant hi m index n)
    {prev : Nat × Nat} (hprev : m.lastBelow index = some prev) :
    wp (blocksAreContiguous build prev.1 prev.2 index)
      (fun r s' => s' = s ∧ if r = true then prev ∈ m ∧ prev.1 + prev.2 = index
        else ∀ e ∈ m, e.1 < index → e.1 + e.2 < index) E s := by
  obtain ⟨hmem, hlt, hmax⟩ := lastBelow_some hprev
  obtain ⟨hal, hal'⟩ := h.aligned prev hmem
  have hbounds := hv.bounds
  have hside := hv.side h hmem
  refine wp_imp (blocksAreContiguous_wp ⟨hal, hal', hv.aligned.1⟩ (by omega) (by omega)) ?_
  rintro r _ ⟨rfl, hr⟩
  refine ⟨rfl, ?_⟩
  split_ifs with htrue
  · exact ⟨hmem, hr.1 htrue⟩
  · intro e he hlt'
    have hne : prev.1 + prev.2 ≠ index := fun heq => htrue (hr.2 heq)
    by_cases hk : e.1 = prev.1
    · obtain rfl := eq_of_key he hmem hk
      omega
    · have := h.apart_of_ne he hmem hk
      have := hmax e he hlt'
      omega

theorem next_wp (h : Free hi m) (hhi : hi < u32Size) (hv : Vacant hi m index n)
    {next : Nat × Nat} (hnext : m.firstAbove index = some next) :
    wp (blocksAreContiguous build index n next.1)
      (fun r s' => s' = s ∧ if r = true then next ∈ m ∧ index + n = next.1
        else ∀ e ∈ m, index < e.1 → index + n < e.1) E s := by
  obtain ⟨hmem, hlt, hmin⟩ := firstAbove_some hnext
  have hal := (h.aligned next hmem).1
  have hbounds := h.bounds next hmem
  have hside := hv.side h hmem
  refine wp_imp (blocksAreContiguous_wp ⟨hv.aligned.1, hv.aligned.2, hal⟩ (by omega) (by omega)) ?_
  rintro r _ ⟨rfl, hr⟩
  refine ⟨rfl, ?_⟩
  split_ifs with htrue
  · exact ⟨hmem, hr.1 htrue⟩
  · intro e he hlt'
    have hne : index + n ≠ next.1 := fun heq => htrue (hr.2 heq)
    have := hmin e he hlt'
    omega

theorem mergeArm_wp (h : Free hi m) (hhi : hi < u32Size) (hv : Vacant hi m index n) :
    wp (mergeArm build index n (m.lastBelow index) (m.firstAbove index))
      (fun arm s' => s' = s ∧ arm.Ok m index n) E s := by
  cases hprev : m.lastBelow index with
  | none =>
    have hp : ∀ e ∈ m, e.1 < index → e.1 + e.2 < index :=
      fun e he hlt => absurd hlt (lastBelow_none hprev e he)
    cases hnext : m.firstAbove index with
    | none =>
      exact ⟨rfl, hp, fun e he hlt => absurd hlt (firstAbove_none hnext e he)⟩
    | some next =>
      unfold mergeArm
      refine wp_seq (next_wp h hhi hv hnext) ?_
      rintro (_ | _) _ ⟨rfl, hn⟩
      · exact ⟨rfl, hp, hn⟩
      · exact ⟨rfl, hp, hn⟩
  | some prev =>
    cases hnext : m.firstAbove index with
    | none =>
      have hn : ∀ e ∈ m, index < e.1 → index + n < e.1 :=
        fun e he hlt => absurd hlt (firstAbove_none hnext e he)
      unfold mergeArm
      refine wp_seq (prev_wp h hhi hv hprev) ?_
      rintro (_ | _) _ ⟨rfl, hp⟩
      · exact ⟨rfl, hp, hn⟩
      · exact ⟨rfl, hp.1, hp.2, hn⟩
    | some next =>
      unfold mergeArm
      refine wp_seq (prev_wp h hhi hv hprev) ?_
      rintro withPrev _ ⟨rfl, hp⟩
      refine wp_seq (next_wp h hhi hv hnext) ?_
      rintro withNext _ ⟨rfl, hn⟩
      cases withPrev <;> cases withNext
      · exact ⟨rfl, hp, hn⟩
      · exact ⟨rfl, hp, hn⟩
      · exact ⟨rfl, hp.1, hp.2, hn⟩
      · exact ⟨rfl, hp.1, hp.2, hn⟩

def Merge.result (m : SortedMap Nat Nat) (index n : Nat) : Merge → SortedMap Nat Nat
  | .both left right => (m.erase right.1).insert left.1 (right.1 + right.2 - left.1)
  | .prev left => m.insert left.1 (index + n - left.1)
  | .next right => (m.erase right.1).insert index (right.1 + right.2 - index)
  | .neither => m.insert index n

theorem traceEnd_wp (hlt : index + n < u32Size) (hQ : wp (f ()) R E s) :
    wp (traceEnd build index n >>= f) R E s := by
  rw [wp_bind]
  unfold traceEnd
  exact wp_addU32 hlt hQ

theorem setLen_wp {len : Nat} (hb : b ∈ s.freeBlockIndexToLen)
    (hQ : Q () { s with freeBlockIndexToLen := s.freeBlockIndexToLen.insert b.1 len }) :
    wp (setLen b.1 len) Q E s := by
  unfold setLen
  rw [wp_bind, wp_get, wp_bind, wp_unwrap]
  exact ⟨b.2, get?_eq_some.2 hb, hQ⟩

theorem merge_wp (h : Free hi s.freeBlockIndexToLen) (hhi : hi < u32Size)
    (hv : Vacant hi s.freeBlockIndexToLen index n) (hsize : size ≤ n) {arm : Merge}
    (harm : arm.Ok s.freeBlockIndexToLen index n) :
    wp (merge build index n size arm)
      (fun _ s' => s' = { s with
        freeBlockIndexToLen := arm.result s.freeBlockIndexToLen index n }) E s := by
  have hb := hv.bounds
  cases arm with
  | both prev next =>
    obtain ⟨hprev, hp, hnext, hn⟩ := harm
    obtain ⟨hpb, hnb⟩ := And.intro (h.bounds prev hprev) (h.bounds next hnext)
    obtain ⟨hpa, hna⟩ := And.intro (h.aligned prev hprev) (h.aligned next hnext)
    have hpos := h.pos prev hprev
    have hmem : prev ∈ s.freeBlockIndexToLen.erase next.1 := mem_erase.2 ⟨hprev, by omega⟩
    unfold merge
    refine traceEnd_wp (by omega) ?_
    refine traceEnd_wp (by omega) ?_
    refine traceEnd_wp (by omega) ?_
    rw [wp_bind, wp_modify]
    refine wp_addU32 (by omega) ?_
    refine wp_subU32 (by omega) (by omega) ?_
    refine wp_assertAligned (by omega) ?_
    exact setLen_wp hmem rfl
  | prev prev =>
    obtain ⟨hprev, hp, -⟩ := harm
    have hpa := h.aligned prev hprev
    have hva := hv.aligned
    unfold merge
    refine traceEnd_wp (by omega) ?_
    refine traceEnd_wp (by omega) ?_
    refine wp_addU32 (by omega) ?_
    refine wp_subU32 (by omega) (by omega) ?_
    refine wp_assertAligned (by omega) ?_
    exact setLen_wp hprev rfl
  | next next =>
    obtain ⟨-, hnext, hn⟩ := harm
    have hnb := h.bounds next hnext
    have hna := h.aligned next hnext
    have hva := hv.aligned
    unfold merge
    refine traceEnd_wp (by omega) ?_
    refine traceEnd_wp (by omega) ?_
    rw [wp_bind, wp_modify]
    refine wp_addU32 (by omega) ?_
    refine wp_subU32 (by omega) (by omega) ?_
    exact wp_assertAligned (by omega) rfl
  | neither =>
    exact rfl

theorem Merge.Ok.free_result {arm : Merge} (h : Free hi m) (hv : Vacant hi m index n)
    (harm : arm.Ok m index n) :
    Free hi (arm.result m index n) ∧
      region (arm.result m index n) = region m ∪ Set.Ico index (index + n) := by
  have hpos := hv.pos
  cases arm with
  | both left right =>
    obtain ⟨hleft, hl, hright, hr⟩ := harm
    refine h.put hv (.inr ⟨left, hleft, rfl, hl⟩) (.inr ⟨right, hright, hr.symm, rfl⟩)
      fun e => ?_
    have := h.pos right hright
    rw [Merge.result, mem_insert, mem_erase]
    refine or_congr_right ⟨?_, ?_⟩
    · rintro ⟨⟨he, hne⟩, hne'⟩
      have := h.apart_of_ne he hright hne
      have := h.apart_of_ne he hleft hne'
      have := hv.side h he
      exact ⟨he, by omega⟩
    · rintro ⟨he, hout⟩
      exact ⟨⟨he, by omega⟩, by omega⟩
  | prev left =>
    obtain ⟨hleft, hl, hgap⟩ := harm
    refine h.put hv (.inr ⟨left, hleft, rfl, hl⟩) (.inl ⟨rfl, fun e he hle => ?_⟩) fun e => ?_
    · exact hgap e he (by omega)
    · have := h.pos left hleft
      rw [Merge.result, mem_insert]
      refine or_congr_right (and_congr_right fun he => ?_)
      have hne := h.apart_of_ne he hleft
      have := hv.side h he
      omega
  | next right =>
    obtain ⟨hgap, hright, hr⟩ := harm
    refine h.put hv (.inl ⟨rfl, hgap⟩) (.inr ⟨right, hright, hr.symm, rfl⟩) fun e => ?_
    have := h.pos right hright
    rw [Merge.result, mem_insert, mem_erase]
    refine or_congr_right ⟨?_, ?_⟩
    · rintro ⟨⟨he, hne⟩, hne'⟩
      have := h.apart_of_ne he hright hne
      have := hv.side h he
      exact ⟨he, by omega⟩
    · rintro ⟨he, hout⟩
      exact ⟨⟨he, by omega⟩, by omega⟩
  | neither =>
    refine h.put hv (.inl ⟨rfl, harm.1⟩) (.inl ⟨rfl, fun e he hle => ?_⟩) fun e => ?_
    · exact harm.2 e he (by omega)
    · rw [Merge.result, mem_insert, Nat.add_sub_cancel_left]
      refine or_congr_right (and_congr_right fun he => ?_)
      have := hv.side h he
      omega

/-- **Deallocation.** The bytes of the block become free, and the free blocks keep apart. -/
theorem dealloc_wp (h : Free hi s.freeBlockIndexToLen) (hhi : hi < u32Size)
    (hcap : hi ≤ s.capacity) (hfits : Fits layout)
    (hv : Vacant hi s.freeBlockIndexToLen index (blockSize layout)) :
    wp (dealloc build index layout)
      (fun _ s' => Free hi s'.freeBlockIndexToLen ∧ s'.capacity = s.capacity ∧
        region s'.freeBlockIndexToLen =
          region s.freeBlockIndexToLen ∪ Set.Ico index (index + blockSize layout)) E s := by
  unfold dealloc
  refine wp_assertAligned hv.aligned.1 ?_
  have hlayout : checkLayout layout s = (.ok (blockSize layout), s) := by
    have hwp : wp (checkLayout layout) _ _ s := checkLayout_wp
    unfold wp at hwp
    rcases hrun : checkLayout layout s with ⟨o, s1⟩
    rw [hrun] at hwp
    cases o with
    | ok a => rw [hwp.1, hwp.2.1]
    | err e => exact absurd hfits hwp.2
    | panic p => exact hwp.elim
  have hexpect : expect (checkLayout layout) (.unwrap "self.check_layout(layout)") s =
      (.ok (blockSize layout), s) := by
    rw [expect, hlayout]
  rw [wp_bind, wp, hexpect]
  dsimp only
  refine wp_assertAligned hv.aligned.2 ?_
  rw [wp_bind, wp_get, wp_bind]
  refine wp_imp (mergeArm_wp h hhi hv) ?_
  rintro arm s ⟨rfl, harm⟩
  refine wp_seq (merge_wp h hhi hv (le_blockSize layout) harm) ?_
  rintro _ s1 rfl
  obtain ⟨hfree, hreg⟩ := harm.free_result h hv
  refine wp_imp (checkIntegrity_wp hfree hhi hcap) ?_
  rintro _ _ rfl
  exact ⟨hfree, rfl, hreg⟩

/-- Where the range that is handed out ends. -/
def limit (capacity : Nat) : Nat := roundDownToPow2 (min capacity u32Max) align

theorem limit_lt (capacity : Nat) : limit capacity < u32Size := by
  unfold limit roundDownToPow2 u32Size u32Max at *
  omega

theorem limit_le (capacity : Nat) : limit capacity ≤ capacity := by
  unfold limit roundDownToPow2
  omega

theorem limit_of_lt {capacity : Nat} (h : capacity < u32Size) :
    limit capacity = roundDownToPow2 capacity align := by
  unfold limit u32Max
  unfold u32Size at h
  rw [Nat.min_eq_left (by omega)]

theorem dvd_roundDownToPow2 (n : Nat) : 16 ∣ roundDownToPow2 n align := by
  unfold roundDownToPow2 align
  omega

theorem new_free (capacity : Nat) :
    Free (limit capacity) (new capacity).freeBlockIndexToLen ∧
      region (new capacity).freeBlockIndexToLen = Set.Ico 16 (limit capacity) := by
  have hend : (if capacity < u32Size then capacity else u32Max) = min capacity u32Max := by
    unfold u32Size u32Max
    split_ifs <;> omega
  have hlen : roundDownToPow2 (min capacity u32Max - align) align = limit capacity - 16 := by
    unfold limit roundDownToPow2 align
    omega
  have hal : 16 ∣ limit capacity := dvd_roundDownToPow2 _
  have hempty : Free (limit capacity) .empty := by
    refine ⟨fun e he => ?_, fun e he => ?_, fun e he => ?_, fun e he => ?_⟩ <;>
      exact absurd he notMem_empty
  have hregion : region .empty = ∅ := by
    ext x
    simp [region]
  unfold new
  simp only [hend, hlen]
  split_ifs with hle
  · unfold align at hle
    have hvacant : Vacant (limit capacity) .empty 16 (limit capacity - 16) :=
      ⟨by omega, ⟨by omega, by omega⟩, ⟨le_rfl, by omega⟩, by rw [hregion]; exact disjoint_bot_right⟩
    have hafter : After .empty (16 + (limit capacity - 16)) (limit capacity) :=
      .inl ⟨by omega, fun e he => absurd he notMem_empty⟩
    have hput := hempty.put hvacant (.inl ⟨rfl, fun e he => absurd he notMem_empty⟩)
      hafter fun e => show e ∈ SortedMap.empty.insert 16 (limit capacity - 16) ↔ _ by
        simp [mem_insert]
    rw [hregion, Set.empty_union, Nat.add_sub_cancel' (by omega)] at hput
    exact hput
  · unfold align at hle
    rw [hregion, Set.Ico_eq_empty (by omega)]
    exact ⟨hempty, rfl⟩

theorem addBlock_wp (h : Free hi s.freeBlockIndexToLen) (hhi : hi < u32Size)
    (hcap : hi ≤ s.capacity) (hal : 16 ∣ index ∧ 16 ∣ n) (hb : 16 ≤ index ∧ index + n ≤ hi)
    (hdis : Disjoint (Set.Ico index (index + n)) (region s.freeBlockIndexToLen)) :
    wp (addBlock build index n)
      (fun _ s' => Free hi s'.freeBlockIndexToLen ∧ s'.capacity = s.capacity ∧
        region s'.freeBlockIndexToLen =
          region s.freeBlockIndexToLen ∪ Set.Ico index (index + n)) E s := by
  unfold addBlock
  split_ifs with hzero
  · subst hzero
    rw [Nat.add_zero, Set.Ico_self, Set.union_empty]
    exact ⟨h, rfl, rfl⟩
  · have hlayout : Layout.fromSizeAlign n align = some ⟨n, 16, by decide, by
        unfold u32Size at hhi; omega⟩ := by
      unfold Layout.fromSizeAlign align
      rw [dif_pos ⟨by decide, by unfold u32Size at hhi; omega⟩]
    have hsize : nextMultipleOf n align = n := by
      unfold nextMultipleOf align
      omega
    rw [hlayout]
    refine traceEnd_wp (by omega) ?_
    have hblock : blockSize ⟨n, 16, by decide, by unfold u32Size at hhi; omega⟩ = n := hsize
    refine wp_imp (dealloc_wp h hhi hcap ⟨le_rfl, by dsimp only; omega, ?_⟩ ?_) ?_
    · rw [hblock]
      omega
    · rw [hblock]
      exact ⟨by omega, hal, hb, hdis⟩
    · rw [hblock]
      exact fun _ _ h => h

/-- **Growing.** Exactly the bytes that are new become free. -/
theorem addCapacity_wp {additional : Nat}
    (h : Free (limit s.capacity) s.freeBlockIndexToLen) (hcap : s.capacity < u64Size) :
    wp (addCapacity build additional)
      (fun _ s' => s'.capacity = saturatingAdd s.capacity additional ∧
        Free (limit s'.capacity) s'.freeBlockIndexToLen ∧
        region s'.freeBlockIndexToLen = region s.freeBlockIndexToLen ∪
          Set.Ico (max 16 (limit s.capacity)) (limit s'.capacity)) E s := by
  have hle : s.capacity ≤ saturatingAdd s.capacity additional := by
    unfold saturatingAdd u64Max
    unfold u64Size at hcap
    omega
  have hmono : limit s.capacity ≤ limit (saturatingAdd s.capacity additional) := by
    unfold limit roundDownToPow2 align
    omega
  have hnew : roundDownToPow2 (if saturatingAdd s.capacity additional < u32Size
      then saturatingAdd s.capacity additional else u32Max) align =
      limit (saturatingAdd s.capacity additional) := by
    unfold limit u32Size u32Max
    congr 1
    split_ifs <;> omega
  have halold := dvd_roundDownToPow2 s.capacity
  have halnew : 16 ∣ limit (saturatingAdd s.capacity additional) := dvd_roundDownToPow2 _
  unfold addCapacity
  rw [wp_bind, wp_get, wp_bind, wp_set, wp_ite]
  refine ⟨fun hbig => ?_, fun hsmall => ?_⟩
  -- Beyond what a `u32` can address nothing changes.
  · have heq : limit (saturatingAdd s.capacity additional) = limit s.capacity := by
      unfold limit
      unfold roundDownToPow2 u32Size at hbig
      unfold u32Max
      rw [Nat.min_eq_right (by omega), Nat.min_eq_right (by omega)]
    refine ⟨rfl, h.mono hmono, ?_⟩
    rw [heq, Set.Ico_eq_empty (by omega), Set.union_empty]
  · have hold : limit s.capacity = roundDownToPow2 s.capacity align := by
      refine limit_of_lt ?_
      unfold roundDownToPow2 u32Size align at hsmall
      unfold u32Size
      omega
    have hindex : (if roundDownToPow2 s.capacity align = 0 then align
        else roundDownToPow2 s.capacity align) = max 16 (limit s.capacity) := by
      rw [hold]
      unfold align at halold ⊢
      split_ifs <;> omega
    rw [hindex, hnew, wp_ite]
    rw [← hold] at halold
    refine ⟨fun hless => ?_, fun hge => ?_⟩
    · refine ⟨rfl, h.mono hmono, ?_⟩
      dsimp only
      rw [Set.Ico_eq_empty (by omega), Set.union_empty]
    · refine wp_subU32 (by omega) (limit_lt _) ?_
      refine wp_assertAligned (by omega) ?_
      have hsum : max 16 (limit s.capacity) +
          (limit (saturatingAdd s.capacity additional) - max 16 (limit s.capacity)) =
          limit (saturatingAdd s.capacity additional) := by omega
      refine wp_imp (addBlock_wp (h.mono hmono) (limit_lt _) (limit_le _)
        ⟨by omega, by omega⟩ ⟨by omega, by omega⟩ ?_) ?_
      · rw [hsum, Set.disjoint_left]
        rintro x hx ⟨e, he, hxe⟩
        rw [Set.mem_Ico] at hx
        have := (h.bounds e he).2
        omega
      · rintro _ s' ⟨hfree, hcap', hreg⟩
        rw [hsum] at hreg
        rw [hcap']
        exact ⟨rfl, hfree, hreg⟩

end FreeList

end Wasmtime.Gc
