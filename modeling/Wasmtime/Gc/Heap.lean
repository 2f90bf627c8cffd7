import Wasmtime.Gc.FreeList

/-!
# A heap: the free list and the blocks in use

A run allocates, gives blocks back with the layout they were allocated with, and grows.
`Heap.exec_wp` is the step lemma. In every state that a run reaches free and live blocks tile the
range (`Heap.run_tiled`), what fits between live blocks can be allocated
(`Heap.alloc_eq_iff_isLeast`), and the list does not depend on the history (`Heap.list_eq_of_used`).
-/

namespace Wasmtime.Gc

open Base Prog FreeList List SortedMap

/-- A free list together with the blocks that have been allocated and not deallocated, and
the layouts they were allocated with. -/
structure Heap where
  list : FreeList
  live : SortedMap Nat Layout

namespace Heap

inductive Op where
  | alloc (layout : Layout)
  | dealloc (index : Nat) (layout : Layout)
  | addCapacity (additional : Nat)

def new (capacity : Nat) : Heap := ⟨.new capacity, .empty⟩

/-- What the users of the free list keep to. -/
def allowed (h : Heap) : Op → Prop
  | .alloc layout => 0 < layout.size ∧ layout.align ≤ 16
  | .dealloc index layout => (index, layout) ∈ h.live
  | .addCapacity additional => additional < u64Size

instance (h : Heap) (op : Op) : Decidable (h.allowed op) := by
  cases op <;> unfold allowed <;> infer_instance

variable (build : Build)

def onList {α : Type} (m : Prog FreeList String α) : Prog Heap String α :=
  zoom (·.list) (fun l h => { h with list := l }) m

def hold (layout : Layout) (h : Heap) : Option Nat → Heap
  | none => h
  | some index => { h with live := h.live.insert index layout }

def exec : Op → Prog Heap String (Option Nat)
  | .alloc layout => do
    let r ← onList (alloc build layout)
    Prog.modify fun h => hold layout h r
    pure r
  | .dealloc index layout => do
    onList (dealloc build index layout)
    Prog.modify fun h => { h with live := h.live.erase index }
    pure none
  | .addCapacity additional => do
    onList (addCapacity build additional)
    pure none

/-- An operation that does not panic. After an error the run goes on. -/
def Step (h : Heap) (op : Op) (h' : Heap) : Prop :=
  h.allowed op ∧ (exec build op h).1.isPanic = false ∧ (exec build op h).2 = h'

/-- All blocks: the free ones, and the ones in use with the size that was cut off for them. -/
def blocks (h : Heap) : List (Nat × Nat) :=
  h.list.freeBlockIndexToLen.entries ++ h.live.entries.map fun e => (e.1, blockSize e.2)

def span (b : Nat × Nat) : Set Nat := Set.Ico b.1 (b.1 + b.2)

/-- **Free and live blocks tile the heap.** -/
structure Tiled (h : Heap) : Prop where
  aligned : ∀ b ∈ h.blocks, 16 ∣ b.1 ∧ 16 ∣ b.2
  disjoint : h.blocks.Pairwise fun a b => Disjoint (span a) (span b)
  covers : {x | ∃ b ∈ h.blocks, x ∈ span b} = Set.Ico 16 (limit h.list.capacity)
  apart : ∀ a ∈ h.list.freeBlockIndexToLen, ∀ b ∈ h.list.freeBlockIndexToLen, a.1 + a.2 ≠ b.1

def used (live : SortedMap Nat Layout) : Set Nat := {x | ∃ e ∈ live, x ∈ span (e.1, blockSize e.2)}

structure Inv (h : Heap) : Prop where
  capacity : h.list.capacity < u64Size
  free : Free (limit h.list.capacity) h.list.freeBlockIndexToLen
  live : ∀ e ∈ h.live, 16 ∣ e.1 ∧ 0 < e.2.size ∧ Fits e.2
  liveApart : ∀ a ∈ h.live, ∀ b ∈ h.live, a.1 ≠ b.1 →
    Disjoint (span (a.1, blockSize a.2)) (span (b.1, blockSize b.2))
  disjoint : Disjoint (region h.list.freeBlockIndexToLen) (used h.live)
  covers : region h.list.freeBlockIndexToLen ∪ used h.live =
    Set.Ico 16 (limit h.list.capacity)

variable {build : Build} {h h' : Heap} {index : Nat} {layout : Layout} {live : SortedMap Nat Layout}

theorem used_insert (hk : ∀ e ∈ live, e.1 ≠ index) :
    used (live.insert index layout) = used live ∪ span (index, blockSize layout) := by
  ext x
  simp only [used, Set.mem_ofPred_eq, mem_insert, Set.mem_union]
  constructor
  · rintro ⟨e, rfl | ⟨he, -⟩, hx⟩
    · exact .inr hx
    · exact .inl ⟨e, he, hx⟩
  · rintro (⟨e, he, hx⟩ | hx)
    · exact ⟨e, .inr ⟨he, hk e he⟩, hx⟩
    · exact ⟨_, .inl rfl, hx⟩

theorem used_erase (hmem : (index, layout) ∈ live)
    (hapart : ∀ a ∈ live, ∀ b ∈ live, a.1 ≠ b.1 →
      Disjoint (span (a.1, blockSize a.2)) (span (b.1, blockSize b.2))) :
    used (live.erase index) = used live \ span (index, blockSize layout) := by
  ext x
  simp only [used, Set.mem_ofPred_eq, mem_erase, Set.mem_sdiff]
  constructor
  · rintro ⟨e, ⟨he, hne⟩, hx⟩
    exact ⟨⟨e, he, hx⟩, Set.disjoint_left.1 (hapart e he _ hmem hne) hx⟩
  · rintro ⟨⟨e, he, hx⟩, hout⟩
    refine ⟨e, ⟨he, fun hk => ?_⟩, hx⟩
    obtain rfl := eq_of_key he hmem hk
    exact hout hx

theorem span_subset_used {e : Nat × Layout} (he : e ∈ live) :
    span (e.1, blockSize e.2) ⊆ used live :=
  fun _ hx => ⟨e, he, hx⟩

theorem span_nonempty (hsize : 0 < layout.size) :
    index ∈ span (index, blockSize layout) := by
  have := le_blockSize layout
  unfold span
  rw [Set.mem_Ico]
  omega

theorem inv_new {capacity : Nat} (hcap : capacity < u64Size) : (new capacity).Inv := by
  obtain ⟨hfree, hreg⟩ := new_free capacity
  have hused : used SortedMap.empty = ∅ := by
    ext x
    simp [used]
  refine ⟨hcap, hfree, fun e he => absurd he notMem_empty,
    fun e he => absurd he notMem_empty, ?_, ?_⟩
  · unfold new
    rw [hused]
    exact disjoint_bot_right
  · unfold new
    rw [hused, Set.union_empty, hreg]
    rfl

variable {list : FreeList}

variable (hi : h.Inv)
include hi

theorem Inv.alloc (hsize : 0 < layout.size) (hfits : Fits layout)
    (hc : Carved (limit h.list.capacity) h.list index (blockSize layout) list) :
    Inv { list, live := h.live.insert index layout } := by
  have hsub : span (index, blockSize layout) ⊆ region h.list.freeBlockIndexToLen := hc.was
  have hout : Disjoint (span (index, blockSize layout)) (used h.live) := hi.disjoint.mono_left hsub
  have hlive : ∀ e ∈ h.live, Disjoint (span (index, blockSize layout))
      (span (e.1, blockSize e.2)) :=
    fun e he => hout.mono_right (span_subset_used he)
  have hkey : ∀ e ∈ h.live, e.1 ≠ index := by
    rintro e he rfl
    exact Set.disjoint_left.1 (hlive e he) (span_nonempty hsize) (span_nonempty (hi.live e he).2.1)
  have hreg : region list.freeBlockIndexToLen =
      region h.list.freeBlockIndexToLen \ span (index, blockSize layout) := hc.region
  refine ⟨hc.capacity ▸ hi.capacity, hc.capacity ▸ hc.free, fun e he => ?_,
    fun a ha b hb hne => ?_, ?_, ?_⟩
  · rcases mem_insert.1 he with rfl | ⟨he, -⟩
    · exact ⟨hc.aligned, hsize, hfits⟩
    · exact hi.live e he
  · rcases mem_insert.1 ha with rfl | ⟨ha, -⟩ <;>
      rcases mem_insert.1 hb with rfl | ⟨hb, -⟩
    · exact absurd rfl hne
    · exact hlive b hb
    · exact (hlive a ha).symm
    · exact hi.liveApart a ha b hb hne
  · rw [used_insert hkey, hreg]
    exact Set.disjoint_union_right.2
      ⟨hi.disjoint.mono_left Set.sdiff_subset, disjoint_sdiff_self_left⟩
  · rw [used_insert hkey, hreg, hc.capacity, ← hi.covers, Set.union_comm (used _),
      ← Set.union_assoc, Set.sdiff_union_of_subset hsub]

theorem Inv.vacant (hmem : (index, layout) ∈ h.live) :
    Vacant (limit h.list.capacity) h.list.freeBlockIndexToLen index (blockSize layout) := by
  obtain ⟨hal, hsize, -⟩ := hi.live _ hmem
  have hpos := lt_of_lt_of_le hsize (le_blockSize layout)
  have hsub : span (index, blockSize layout) ⊆ used h.live := span_subset_used hmem
  have hin : span (index, blockSize layout) ⊆ Set.Ico 16 (limit h.list.capacity) :=
    hi.covers ▸ hsub.trans Set.subset_union_right
  refine ⟨hpos, ⟨hal, dvd_blockSize layout⟩, ?_, (hi.disjoint.mono_right hsub).symm⟩
  have hfirst := hin (span_nonempty hsize)
  have hlast := hin (show index + blockSize layout - 1 ∈ span (index, blockSize layout) from by
    unfold span
    rw [Set.mem_Ico]
    omega)
  rw [Set.mem_Ico] at hfirst hlast
  omega

theorem Inv.dealloc (hmem : (index, layout) ∈ h.live)
    (hfree : Free (limit h.list.capacity) list.freeBlockIndexToLen)
    (hcap : list.capacity = h.list.capacity)
    (hreg : region list.freeBlockIndexToLen =
      region h.list.freeBlockIndexToLen ∪ span (index, blockSize layout))
    : Inv { list, live := h.live.erase index } := by
  have hsub : span (index, blockSize layout) ⊆ used h.live := span_subset_used hmem
  have hused := used_erase hmem hi.liveApart
  refine ⟨hcap ▸ hi.capacity, hcap ▸ hfree, fun e he => hi.live e (mem_erase.1 he).1,
    fun a ha b hb => hi.liveApart a (mem_erase.1 ha).1 b (mem_erase.1 hb).1,
    ?_, ?_⟩
  · rw [hreg, hused]
    exact Set.disjoint_union_left.2
      ⟨hi.disjoint.mono_right Set.sdiff_subset, disjoint_sdiff_self_right⟩
  · rw [hreg, hused, hcap, ← hi.covers, Set.union_assoc, Set.union_sdiff_cancel hsub]

theorem Inv.addCapacity {additional : Nat}
    (hcap : list.capacity = saturatingAdd h.list.capacity additional)
    (hfree : Free (limit list.capacity) list.freeBlockIndexToLen)
    (hreg : region list.freeBlockIndexToLen = region h.list.freeBlockIndexToLen ∪
      Set.Ico (max 16 (limit h.list.capacity)) (limit list.capacity))
    : Inv { h with list } := by
  have hlt : list.capacity < u64Size := by
    rw [hcap]
    unfold saturatingAdd u64Max u64Size
    omega
  have hmono : limit h.list.capacity ≤ limit list.capacity := by
    have := hi.capacity
    rw [hcap]
    unfold saturatingAdd u64Max
    unfold u64Size at this
    unfold limit roundDownToPow2 align
    omega
  refine ⟨hlt, hfree, hi.live, hi.liveApart, ?_, ?_⟩
  · rw [hreg, Set.disjoint_union_left]
    refine ⟨hi.disjoint, Set.disjoint_left.2 fun x hx hused => ?_⟩
    have hin : x ∈ Set.Ico 16 (limit h.list.capacity) := hi.covers ▸ .inr hused
    rw [Set.mem_Ico] at hx hin
    omega
  · rw [hreg, Set.union_right_comm, hi.covers]
    ext x
    simp only [Set.mem_union, Set.mem_Ico]
    omega

/-- **One operation.** It does not panic and keeps the invariant, whether it succeeds or
fails; and only for want of a block that is large enough does an allocation return nothing. -/
theorem exec_wp {op : Op} (hop : h.allowed op) : wp (exec build op)
      (fun r h' => h'.Inv ∧ ∀ layout, op = .alloc layout → r = none →
        ∀ b ∈ h.list.freeBlockIndexToLen, b.2 < blockSize layout)
      (fun _ h' => h'.Inv) h := by
  cases op with
  | alloc layout =>
    unfold exec onList
    rw [wp_bind, wp_zoom]
    refine wp_mono (alloc_wp hi.free (limit_lt _) (limit_le _) hop.1) ?_ ?_
    · rintro r list ⟨hfits, ⟨rfl, rfl, hnone⟩ | ⟨b, -, rfl, -, hc⟩⟩
      · refine ⟨hi, fun layout' heq _ => ?_⟩
        cases heq
        exact hnone
      · exact ⟨hi.alloc hop.1 hfits hc, fun _ _ hnone => nomatch hnone⟩
    · rintro _ list ⟨rfl, -⟩
      exact hi
  | dealloc index layout =>
    unfold exec onList
    rw [wp_bind, wp_zoom]
    refine wp_imp (dealloc_wp hi.free (limit_lt _) (limit_le _) (hi.live _ hop).2.2
      (hi.vacant hop)) ?_
    rintro _ list ⟨hfree, hcap, hreg⟩
    exact ⟨hi.dealloc hop hfree hcap hreg, fun _ hop' => nomatch hop'⟩
  | addCapacity additional =>
    unfold exec onList
    rw [wp_bind, wp_zoom]
    refine wp_imp (addCapacity_wp hi.free hi.capacity) ?_
    rintro _ list ⟨hcap, hfree, hreg⟩
    exact ⟨hi.addCapacity hcap hfree hreg, fun _ hop' => nomatch hop'⟩

theorem Inv.step {op : Op} (hstep : Step build h op h') : h'.Inv := by
  obtain ⟨hop, -, rfl⟩ := hstep
  refine wp_state (wp_mono (exec_wp hi hop) (fun _ _ hq => hq.1) fun _ _ hq => hq)

theorem Inv.tiled : h.Tiled := by
  refine ⟨fun b hb => ?_, ?_, ?_, fun a ha b hb heq => ?_⟩
  · rcases mem_append.1 hb with hb | hb
    · exact hi.free.aligned b hb
    · obtain ⟨e, he, rfl⟩ := mem_map.1 hb
      exact ⟨(hi.live e he).1, dvd_blockSize e.2⟩
  · refine pairwise_append.2 ⟨?_, ?_, fun a ha b hb => ?_⟩
    · refine h.list.freeBlockIndexToLen.sorted.imp_of_mem fun {a b} ha hb hlt => ?_
      have := hi.free.apart a ha b hb hlt
      refine Set.disjoint_left.2 fun x hx hx' => ?_
      unfold span at hx hx'
      rw [Set.mem_Ico] at hx hx'
      omega
    · refine pairwise_map.2 ?_
      exact h.live.sorted.imp_of_mem fun ha hb hlt => hi.liveApart _ ha _ hb hlt.ne
    · obtain ⟨e, he, rfl⟩ := mem_map.1 hb
      have hsub : span a ⊆ region h.list.freeBlockIndexToLen :=
        fun x hx => ⟨a, ha, Set.mem_Ico.1 hx⟩
      exact hi.disjoint.mono hsub (span_subset_used he)
  · rw [← hi.covers]
    ext x
    simp only [blocks, Set.mem_ofPred_eq, mem_append, mem_map, Set.mem_union, region, used]
    constructor
    · rintro ⟨b, hb | ⟨e, he, rfl⟩, hx⟩
      · exact .inl ⟨b, hb, Set.mem_Ico.1 hx⟩
      · exact .inr ⟨e, he, hx⟩
    · rintro (⟨b, hb, hx⟩ | ⟨e, he, hx⟩)
      · exact ⟨b, .inl hb, Set.mem_Ico.2 hx⟩
      · exact ⟨_, .inr ⟨e, he, rfl⟩, hx⟩
  · have hpos := hi.free.pos a ha
    have := hi.free.apart a ha b hb (by omega)
    omega

omit hi

/-- **Every run keeps the heap tiled**, in every build. No operation panics, by overflow or
otherwise, and an allocation returns nothing only if no free block is large enough. -/
theorem run_tiled {capacity : Nat} {ops : List Op} (hcap : capacity < u64Size)
    (hrun : Trace (Step build) (new capacity) ops h) :
    h.Tiled ∧ (∀ op, h.allowed op → (exec build op h).1.isPanic = false) ∧
      ∀ layout, h.allowed (.alloc layout) → (exec build (.alloc layout) h).1 = .ok none →
        ∀ b ∈ h.list.freeBlockIndexToLen, b.2 < blockSize layout := by
  have hi : h.Inv := hrun.invariant (inv_new hcap) fun _ _ _ hi hstep => hi.step hstep
  refine ⟨hi.tiled, fun op hop => wp_not_panic (exec_wp hi hop), fun layout hop hrun => ?_⟩
  have hok : exec build (.alloc layout) h = (.ok none, (exec build (.alloc layout) h).2) :=
    Prod.ext hrun rfl
  exact (wp_ok (exec_wp hi hop) hok).2 layout rfl rfl

/-- A block is given back between two others, and the capacity grows twice, first by too little
for a block. -/
def grownOps : List Op :=
  [.alloc ⟨24, 8, by decide⟩, .alloc ⟨8, 8, by decide⟩, .dealloc 16 ⟨24, 8, by decide⟩,
    .addCapacity 10, .addCapacity 50]

def after (h : Heap) (op : Op) : Option Heap :=
  if h.allowed op ∧ (exec ⟨true, true⟩ op h).1.isPanic = false
  then some (exec ⟨true, true⟩ op h).2 else none

theorem exists_grown {p : Heap → Bool} (hp : (grownOps.foldlM after (new 100)).any p = true) :
    ∃ h, Trace (Step ⟨true, true⟩) (new 100) grownOps h ∧ p h = true := by
  refine Trace.exists_of_foldlM (Step ⟨true, true⟩) (fun h op h' hsome => ?_) p grownOps hp
  unfold after at hsome
  split_ifs at hsome with hop
  exact ⟨hop.1, hop.2, Option.some.inj hsome⟩

theorem run_tiled_grown : ∃ h, Trace (Step ⟨true, true⟩) (new 100)
      [.alloc ⟨24, 8, by decide⟩, .alloc ⟨8, 8, by decide⟩, .dealloc 16 ⟨24, 8, by decide⟩,
        .addCapacity 10, .addCapacity 50] h ∧
      h.list.freeBlockIndexToLen.entries = [(16, 32), (64, 96)] ∧ h.Tiled := by
  obtain ⟨h, hrun, hfree⟩ := exists_grown
    (p := fun h => decide (h.list.freeBlockIndexToLen.entries = [(16, 32), (64, 96)]))
    (by decide +kernel)
  exact ⟨h, hrun, of_decide_eq_true hfree, (run_tiled (by decide) hrun).1⟩

/-- Free bytes in a row are in one block. -/
theorem exists_block {hi n : Nat} {m : SortedMap Nat Nat} (hf : Free hi m) (hn : 0 < n)
    (hsub : span (index, n) ⊆ region m) : ∃ b ∈ m, b.1 ≤ index ∧ index + n ≤ b.1 + b.2 := by
  have hmem {x : Nat} (hx : index ≤ x) (hlt : x < index + n) : x ∈ region m := hsub ⟨hx, hlt⟩
  obtain ⟨b, hb, hle, hlt⟩ := hmem le_rfl (by omega)
  refine ⟨b, hb, hle, by_contra fun hn => ?_⟩
  -- The byte after the block would be in another one, and there is none so close.
  obtain ⟨b', hb', hle', hlt'⟩ := hmem (x := b.1 + b.2) (by omega) (by omega)
  by_cases hk : b.1 = b'.1
  · obtain rfl := eq_of_key hb hb' hk
    omega
  · have := hf.apart_of_ne hb hb' hk
    omega

theorem Inv.region_eq (hi : h.Inv) : region h.list.freeBlockIndexToLen =
    Set.Ico 16 (limit h.list.capacity) \ used h.live := by
  rw [← hi.covers, Set.union_sdiff_right, hi.disjoint.sdiff_eq_left]

theorem firstFit_first {n : Nat} {b : Nat × Nat} {list list' : FreeList}
    (h : firstFit build n list = (.ok (some b), list')) :
    ∀ e ∈ list.freeBlockIndexToLen, n ≤ e.2 → b.1 ≤ e.1 := by
  obtain ⟨-, h⟩ := debugAssert_bind_ok.1 h
  simp only [bind_ok, get_ok] at h
  obtain ⟨_, _, ⟨hl, -⟩, h⟩ := h
  obtain rfl := hl.symm
  rcases hfind : list.freeBlockIndexToLen.find? fun e => decide (n ≤ e.2) with _ | ⟨i, len⟩
  · simp [hfind] at h
  · simp only [hfind, bind_ok, pure_ok] at h
    obtain ⟨_, _, -, _, _, -, _, _, -, _, _, -, hb, -⟩ := h
    obtain rfl := Option.some.inj hb
    exact fun e he hle => key_le_of_find? (SortedMap.sorted _) hfind he (decide_eq_true hle)

/-- No free block before the one that is taken is large enough. -/
theorem alloc_first {list list' : FreeList}
    (h : FreeList.alloc build layout list = (.ok (some index), list')) :
    ∀ b ∈ list.freeBlockIndexToLen, blockSize layout ≤ b.2 → index ≤ b.1 := by
  obtain ⟨_, _, hsize, h1⟩ := bind_ok.1 h
  obtain ⟨hs, rfl, -⟩ := wp_ok checkLayout_wp hsize
  obtain rfl := hs.symm
  obtain ⟨-, h2⟩ := debugAssert_bind_ok.1 h1
  obtain ⟨_ | ⟨i, len⟩, _, hfit, h3⟩ := bind_ok.1 h2
  · cases (pure_ok.1 h3).1
  · simp only [bind_ok, pure_ok] at h3
    obtain ⟨_, _, -, _, _, -, _, _, -, _, _, -, _, _, -, _, _, -, _, _, -, _, _, -, hi, -⟩ := h3
    obtain rfl := Option.some.inj hi
    exact firstFit_first hfit

/-- **Nothing is lost to fragmentation**: in every state that a run reaches, an allocation returns
the first address at which the blocks in use leave enough bytes in a row, whenever there is one. -/
theorem alloc_eq_iff_isLeast {capacity : Nat} {ops : List Op} (hcap : capacity < u64Size)
    (hrun : Trace (Step build) (new capacity) ops h) (hop : h.allowed (.alloc layout)) :
    (exec build (.alloc layout) h).1 = .ok (some index) ↔
      IsLeast {i | span (i, blockSize layout) ⊆ Set.Ico 16 (limit h.list.capacity) \ used h.live}
        index := by
  have hi : h.Inv := hrun.invariant (inv_new hcap) fun _ _ _ hi hstep => hi.step hstep
  have hpos := lt_of_lt_of_le hop.1 (le_blockSize layout)
  have hexec : (exec build (.alloc layout) h).1 = (FreeList.alloc build layout h.list).1 := by
    simp only [exec, onList, zoom, run_bind]
    rcases FreeList.alloc build layout h.list with ⟨o, _⟩
    cases o <;> rfl
  rw [← hi.region_eq, hexec]
  set gaps := {i | span (i, blockSize layout) ⊆ region h.list.freeBlockIndexToLen}
  have hblock {i : Nat} (hsub : i ∈ gaps) := exists_block hi.free hpos hsub
  have hwp : wp (FreeList.alloc build layout) _ _ _ :=
    alloc_wp hi.free (limit_lt _) (limit_le _) hop.1
  rcases halloc : FreeList.alloc build layout h.list with ⟨o, list⟩
  rw [wp, halloc] at hwp
  cases o with
  | ok r =>
    obtain ⟨-, ⟨rfl, -, hnone⟩ | ⟨b, hb, rfl, hle, hc⟩⟩ := hwp
    · refine iff_of_false (by simp) fun hleast => ?_
      obtain ⟨b, hb, hle, hend⟩ := hblock hleast.1
      have := hnone b hb
      omega
    · have hleast : IsLeast gaps b.1 := by
        refine ⟨hc.was, fun i hsub => ?_⟩
        obtain ⟨b', hb', hle', hend⟩ := hblock hsub
        exact (alloc_first halloc b' hb' (by omega)).trans hle'
      rw [Outcome.ok.injEq, Option.some_inj]
      exact ⟨fun heq => heq ▸ hleast, hleast.unique⟩
  | err e =>
    refine iff_of_false (by simp) fun hleast => hwp.2 ?_
    obtain ⟨b, hb, hle, hend⟩ := hblock hleast.1
    have := (hi.free.bounds b hb).2
    have := limit_lt h.list.capacity
    have := le_blockSize layout
    exact ⟨hop.2, by omega, by omega⟩
  | panic p => exact hwp.elim

/-- The first gap is too small for 40 bytes, and the second one is the least that is not. -/
theorem grown_alloc_returns : ∃ h, Trace (Step ⟨true, true⟩) (new 100) grownOps h ∧
    (exec ⟨true, true⟩ (.alloc ⟨40, 8, by decide⟩) h).1 = .ok (some 64) ∧
    IsLeast {i | span (i, blockSize ⟨40, 8, by decide⟩) ⊆
      Set.Ico 16 (limit h.list.capacity) \ used h.live} 64 := by
  obtain ⟨h, hrun, hp⟩ := exists_grown
    (p := fun h => decide (h.allowed (.alloc ⟨40, 8, by decide⟩) ∧
      (exec ⟨true, true⟩ (.alloc ⟨40, 8, by decide⟩) h).1 = .ok (some 64)))
    (by decide +kernel)
  obtain ⟨hop, hexec⟩ := of_decide_eq_true hp
  exact ⟨h, hrun, hexec, (alloc_eq_iff_isLeast (by decide : 100 < u64Size) hrun hop).1 hexec⟩

/-- Blocks that keep a distance are the same if the same bytes are free. -/
theorem mem_of_region {hi hi' : Nat} {m m' : SortedMap Nat Nat} (hf : Free hi m)
    (hf' : Free hi' m') (hreg : region m = region m') {b : Nat × Nat} (hb : b ∈ m) : b ∈ m' := by
  obtain ⟨b', hb', hle, hend⟩ := exists_block hf' (hf.pos b hb)
    fun x hx => hreg ▸ ⟨b, hb, hx⟩
  obtain ⟨c, hc, hle', hend'⟩ := exists_block hf (hf'.pos b' hb')
    fun x hx => hreg.symm ▸ ⟨b', hb', hx⟩
  have hpos := hf.pos b hb
  have hk : b.1 = c.1 := by
    by_contra hne
    have := hf.apart_of_ne hb hc hne
    omega
  obtain rfl := eq_of_key hb hc hk
  obtain rfl : b = b' := Prod.ext (by omega) (by omega)
  exact hb'

/-- **The free list does not depend on the history**: two runs that use the same bytes of the same
capacity have the same free list, whatever they have done and in whichever builds. -/
theorem list_eq_of_used {capacity capacity' : Nat} {build' : Build} {ops ops' : List Op}
    (hcap : capacity < u64Size) (hrun : Trace (Step build) (new capacity) ops h)
    (hcap' : capacity' < u64Size) (hrun' : Trace (Step build') (new capacity') ops' h')
    (hc : h.list.capacity = h'.list.capacity) (hused : used h.live = used h'.live) :
    h.list = h'.list := by
  have hi : h.Inv := hrun.invariant (inv_new hcap) fun _ _ _ hi hstep => hi.step hstep
  have hi' : h'.Inv := hrun'.invariant (inv_new hcap') fun _ _ _ hi hstep => hi.step hstep
  have hreg : region h.list.freeBlockIndexToLen = region h'.list.freeBlockIndexToLen := by
    rw [hi.region_eq, hused, hc, ← hi'.region_eq]
  have hmap := ext_of_mem fun _ => ⟨mem_of_region hi.free hi'.free hreg,
    mem_of_region hi'.free hi.free hreg.symm⟩
  cases hl : h.list
  cases hl' : h'.list
  simp_all

/-- A block that is given back at once leaves no trace. -/
theorem list_eq_of_dealloc : (exec ⟨true, true⟩ (.dealloc 16 ⟨24, 8, by decide⟩)
    (exec ⟨true, true⟩ (.alloc ⟨24, 8, by decide⟩) (new 100)).2).2.list = (new 100).list :=
  list_eq_of_used (by decide) (.snoc (.snoc (.nil _) ⟨by decide, by decide +kernel, rfl⟩)
    ⟨by decide +kernel, by decide +kernel, rfl⟩) (by decide)
    (.nil _ : Trace (Step ⟨true, true⟩) _ _ _) rfl rfl

end Heap

end Wasmtime.Gc
