import Wasmtime.Base.Loop
import Wasmtime.Vm.SlotPool

/-!
# Purging a module from the memory pool

`MemoryPool` of `pooling/memory_pool.rs` deals its slots out to stripes in turn: slot `i` of stripe
`s` is slot `i * numStripes + s` of the pool. Each stripe has an allocator of its own, and the image
slots are kept for the whole pool.

`purge_module` asks every stripe for its free slots that were last used for the module, clears their
images and gives them back. It looks the image up under the number that the slot has within its
stripe: `purge_exact_iff` says when that is the right one.
-/

namespace Wasmtime.Vm

open Base Prog List Nat

structure MemoryPool.MemoryImageSlot where
  image : Option Nat
  dirty : Bool

/-- `remap` is whether the system maps zeros over the image. -/
def MemoryPool.MemoryImageSlot.removeImage (remap : Bool) (slot : MemoryImageSlot) :
    Option MemoryImageSlot :=
  match slot.image with
  | some _ => if remap then some { slot with image := none } else none
  | none => some slot

structure MemoryPool where
  stripes : List Inner
  imageSlots : List (Option MemoryPool.MemoryImageSlot)
  memoriesPerInstance : Nat

/-- An image slot that `purge_module` takes: the slot of the stripe that it has allocated, and
the slot of the pool whose image it takes. -/
structure Take where
  stripe : Nat
  id : Nat
  index : Nat

namespace MemoryPool

/-- The number of slots that `create_stripe` gives to a stripe. -/
def stripeCapacity (numSlots numStripes i : Nat) : Nat :=
  numSlots / numStripes + if numSlots % numStripes > i then 1 else 0

def asUnstripedSlotIndex (numStripes : Nat) (slot : Nat × Nat) : Nat := slot.2 * numStripes + slot.1

def fromUnstripedSlotIndex (numStripes index : Nat) : Nat × Nat :=
  (index % numStripes, index / numStripes)

def onStripe {α : Type} (stripe : Nat) (m : Prog Inner Empty α) : Prog MemoryPool Empty α := do
  let p ← Prog.get
  let inner ← unwrap p.stripes[stripe]? (.bounds "self.stripes[stripe_index]")
  zoom (fun _ => inner) (fun s p => { p with stripes := p.stripes.set stripe s }) m

def takeMemoryImageSlot (index : Nat) : Prog MemoryPool Empty MemoryImageSlot := do
  let p ← Prog.get
  let maybeSlot ← unwrap p.imageSlots[index]? (.bounds "self.image_slots[index]")
  Prog.set { p with imageSlots := p.imageSlots.set index none }
  pure (maybeSlot.getD { image := none, dirty := false })

def returnMemoryImageSlot (index : Nat) (slot : MemoryImageSlot) :
    Prog MemoryPool Empty Unit := do
  assert (!slot.dirty) (.assert "!slot.is_dirty()")
  Prog.modify fun p => { p with imageSlots := p.imageSlots.set index (some slot) }

/-- The image of a slot is taken, cleared and, if that works, put back. -/
def clearImage (remap : Bool) (index : Nat) : Prog MemoryPool Empty Unit := do
  let slot ← takeMemoryImageSlot index
  match slot.removeImage remap with
  | some slot => returnMemoryImageSlot index slot
  | none => pure ()

variable (build : Build) (remap : Nat → Bool)

/-- The body of the inner loop of `purge_module`. -/
def purgeSlot (moduleId stripe memory : Nat) : Prog MemoryPool Empty (Option Take) := do
  match ← onStripe stripe (Inner.allocAffineAndClearAffinity build moduleId memory) with
  | none => pure none
  | some id => do
    -- `MemoryAllocationIndex(id.0)`
    let index := id
    clearImage (remap index) index
    onStripe stripe (Inner.free build id)
    pure (some ⟨stripe, id, index⟩)

def purgeMemory (moduleId stripe memory : Nat) : Nat → Prog MemoryPool Empty (List Take)
  | 0 => Prog.panic (.assert "the rounds are used up")
  | rounds + 1 => do
    match ← purgeSlot build remap moduleId stripe memory with
    | none => pure []
    | some take => do
      let takes ← purgeMemory moduleId stripe memory rounds
      pure (take :: takes)

def probes (numStripes memories : Nat) : List (Nat × Nat) :=
  (List.range numStripes).flatMap fun stripe => (List.range memories).map (stripe, ·)

/-- The image slots that a purge takes; no stripe has more slots than the pool. -/
def purgeModule (moduleId : Nat) : Prog MemoryPool Empty (List Take) := do
  let p ← Prog.get
  let takes ← collect
    (fun probe : Nat × Nat =>
      purgeMemory build remap moduleId probe.1 probe.2 (p.imageSlots.length + 1))
    (probes p.stripes.length p.memoriesPerInstance)
  pure takes.flatten

/-! ### Stripes -/

variable {build remap} {numSlots numStripes : Nat}

theorem lt_stripeCapacity {stripe i : Nat} (hs : stripe < numStripes) :
    i < stripeCapacity numSlots numStripes stripe ↔ i * numStripes + stripe < numSlots := by
  have hpos : 0 < numStripes := zero_lt_of_lt hs
  have hmod := mod_lt numSlots hpos
  have hdiv := div_add_mod numSlots numStripes
  rw [Nat.mul_comm] at hdiv
  unfold stripeCapacity
  generalize numSlots / numStripes = q at *
  rcases Nat.lt_trichotomy i q with hi | rfl | hi
  · have hle : (i + 1) * numStripes ≤ q * numStripes := Nat.mul_le_mul_right _ hi
    rw [Nat.add_mul] at hle
    exact iff_of_true (by omega) (by omega)
  · split_ifs with hr
    · exact iff_of_true (by omega) (by omega)
    · exact iff_of_false (by omega) (by omega)
  · have hle : (q + 1) * numStripes ≤ i * numStripes := Nat.mul_le_mul_right _ hi
    rw [Nat.add_mul] at hle
    refine iff_of_false ?_ (by omega)
    split_ifs <;> omega

theorem fromUnstriped_asUnstriped {s i : Nat} (hs : s < numStripes) :
    fromUnstripedSlotIndex numStripes (asUnstripedSlotIndex numStripes (s, i)) = (s, i) := by
  have hpos : 0 < numStripes := zero_lt_of_lt hs
  unfold fromUnstripedSlotIndex asUnstripedSlotIndex
  rw [mul_add_mod_of_lt hs, Nat.add_comm, add_mul_div_right _ _ hpos, div_eq_of_lt hs, Nat.zero_add]

theorem asUnstriped_fromUnstriped (index : Nat) :
    asUnstripedSlotIndex numStripes (fromUnstripedSlotIndex numStripes index) = index :=
  div_add_mod' index numStripes

theorem stripes_bijOn (hpos : 0 < numStripes) : Set.BijOn (asUnstripedSlotIndex numStripes)
      {slot | slot.1 < numStripes ∧ slot.2 < stripeCapacity numSlots numStripes slot.1}
      (Set.Iio numSlots) := by
  have hinv : Set.InvOn (fromUnstripedSlotIndex numStripes) (asUnstripedSlotIndex numStripes)
      {slot | slot.1 < numStripes ∧ slot.2 < stripeCapacity numSlots numStripes slot.1}
      (Set.Iio numSlots) := by
    refine ⟨?_, fun index _ => asUnstriped_fromUnstriped index⟩
    rintro ⟨s, i⟩ ⟨hs, -⟩
    exact fromUnstriped_asUnstriped hs
  refine hinv.bijOn ?_ ?_
  · rintro ⟨s, i⟩ ⟨hs, hi⟩
    exact (lt_stripeCapacity hs).1 hi
  · intro index hindex
    have hs : index % numStripes < numStripes := mod_lt _ hpos
    refine ⟨hs, (lt_stripeCapacity hs).2 ?_⟩
    exact lt_of_eq_of_lt (asUnstriped_fromUnstriped index) hindex

/-! ### What a purge does to the slots -/

variable {p p' p'' : MemoryPool} {moduleId stripe memory : Nat} {E : Empty → MemoryPool → Prop}
  {takes takes' : List Take}

def shapeAt (p : MemoryPool) (stripe i : Nat) : Option Shape :=
  p.stripes[stripe]?.bind fun inner => shapeOf inner.slotState i

def Live (p : MemoryPool) (index : Nat) : Prop :=
  ∃ a, p.shapeAt (index % p.stripes.length) (index / p.stripes.length) = some (.used a)

/-- The slots that are in the pool have been cleared. -/
def Clean (imageSlots : List (Option MemoryImageSlot)) : Prop :=
  ∀ slot, some slot ∈ imageSlots → slot.dirty = false

structure Inv (numSlots : Nat) (p : MemoryPool) : Prop where
  stripes : ∀ s inner, p.stripes[s]? = some inner →
    (∃ warm affine, inner.Inv none warm affine) ∧
      inner.slotState.length = stripeCapacity numSlots p.stripes.length s
  images : p.imageSlots.length = numSlots
  clean : Clean p.imageSlots

/-- From `p` to `p'` the slots of `takes` have lost their affinity to the module. -/
structure Purged (numSlots moduleId : Nat) (p : MemoryPool) (takes : List Take) (p' : MemoryPool) :
    Prop where
  inv : Inv numSlots p'
  length : p'.stripes.length = p.stripes.length
  images : p'.imageSlots.length = p.imageSlots.length
  shape : ∀ s i, p'.shapeAt s i =
    if ∃ take ∈ takes, take.stripe = s ∧ take.id = i then some (.warm none) else p.shapeAt s i
  taken : ∀ take ∈ takes, take.stripe < p.stripes.length ∧ take.index = take.id ∧
    ∃ m, m.moduleId = moduleId ∧ p.shapeAt take.stripe take.id = some (.warm (some m))

theorem Purged.refl (h : Inv numSlots p) : Purged numSlots moduleId p [] p where
  inv := h
  length := rfl
  images := rfl
  shape := fun s i => by simp
  taken := fun take ht => by cases ht

theorem Purged.trans (h : Purged numSlots moduleId p takes p')
    (h' : Purged numSlots moduleId p' takes' p'') :
    Purged numSlots moduleId p (takes ++ takes') p'' where
  inv := h'.inv
  length := h'.length.trans h.length
  images := h'.images.trans h.images
  shape := by
    intro s i
    rw [h'.shape, h.shape]
    by_cases h1 : ∃ take ∈ takes, take.stripe = s ∧ take.id = i
    · rw [if_pos h1, ite_self]
      obtain ⟨take, ht, heq⟩ := h1
      rw [if_pos ⟨take, mem_append_left _ ht, heq⟩]
    · rw [if_neg h1]
      refine if_congr ⟨?_, ?_⟩ rfl rfl
      · rintro ⟨take, ht, heq⟩
        exact ⟨take, mem_append_right _ ht, heq⟩
      · rintro ⟨take, ht, heq⟩
        rcases mem_append.1 ht with ht | ht
        · exact absurd ⟨take, ht, heq⟩ h1
        · exact ⟨take, ht, heq⟩
  taken := by
    intro take ht
    rcases mem_append.1 ht with ht | ht
    · exact h.taken take ht
    · obtain ⟨hs, hindex, m, hm, hshape⟩ := h'.taken take ht
      refine ⟨h.length ▸ hs, hindex, m, hm, ?_⟩
      rw [h.shape] at hshape
      split_ifs at hshape
      · cases hshape
      · exact hshape

theorem Purged.affine {s i : Nat} {m : MemoryInModule} (h : Purged numSlots moduleId p takes p')
    (hi : p'.shapeAt s i = some (.warm (some m))) : p.shapeAt s i = some (.warm (some m)) := by
  rw [h.shape] at hi
  split_ifs at hi
  · cases hi
  · exact hi

/-! ### One slot -/

variable {inner : Inner}

theorem onStripe_wp {α : Type} {m : Prog Inner Empty α} {Q : α → MemoryPool → Prop}
    (hs : p.stripes[stripe]? = some inner)
    (h : wp m (fun a s => Q a { p with stripes := p.stripes.set stripe s }) (fun _ _ => True) inner)
    : wp (onStripe stripe m) Q E p := by
  unfold onStripe
  rw [wp_bind, wp_get, wp_bind, wp_unwrap]
  refine ⟨inner, hs, ?_⟩
  rw [wp_zoom]
  exact wp_mono h (fun _ _ hQ => hQ) fun e => e.elim

theorem clearImage_wp {index : Nat} {b : Bool} (hlt : index < p.imageSlots.length)
    (hclean : Clean p.imageSlots) :
    wp (clearImage b index) (fun _ p' => ∃ imageSlots, p' = { p with imageSlots } ∧
      imageSlots.length = p.imageSlots.length ∧ Clean imageSlots) E p := by
  have hset : ∀ o : Option MemoryImageSlot, (∀ slot, o = some slot → slot.dirty = false) →
      Clean (p.imageSlots.set index o) := by
    intro o ho slot hslot
    rcases mem_or_eq_of_mem_set hslot with hmem | heq
    · exact hclean slot hmem
    · exact ho slot heq.symm
  obtain ⟨o, ho⟩ : ∃ o, p.imageSlots[index]? = some o := ⟨_, getElem?_eq_getElem hlt⟩
  unfold clearImage takeMemoryImageSlot
  simp only [wp_bind, wp_get, wp_unwrap, wp_set, wp_pure]
  refine ⟨o, ho, ?_⟩
  have hdirty : (o.getD { image := none, dirty := false }).dirty = false := by
    cases o with
    | none => rfl
    | some slot => exact hclean slot (mem_of_getElem? ho)
  generalize o.getD { image := none, dirty := false } = slot at hdirty ⊢
  cases hremove : slot.removeImage b with
  | none => exact ⟨_, rfl, length_set, hset none nofun⟩
  | some slot' =>
    have hdirty' : slot'.dirty = false := by
      unfold MemoryImageSlot.removeImage at hremove
      split at hremove
      · split_ifs at hremove
        cases hremove
        exact hdirty
      · cases hremove
        exact hdirty
    unfold returnMemoryImageSlot
    simp only [wp_bind, wp_assert, wp_modify]
    refine ⟨by rw [hdirty']; rfl, p.imageSlots.set index (some slot'), ?_, length_set, ?_⟩
    · rw [set_set]
    · exact hset (some slot') fun _ heq => Option.some.inj heq ▸ hdirty'

theorem shapeAt_set {slots : List (Option MemoryImageSlot)} {n : Nat}
    (hs : stripe < p.stripes.length) (s i : Nat) :
    shapeAt ⟨p.stripes.set stripe inner, slots, n⟩ s i =
      if s = stripe then shapeOf inner.slotState i else p.shapeAt s i := by
  unfold shapeAt
  by_cases heq : s = stripe
  · subst heq
    rw [getElem?_set_self hs, if_pos rfl]
    rfl
  · rw [getElem?_set_ne (Ne.symm heq), if_neg heq]

theorem shapeAt_eq (hs : p.stripes[stripe]? = some inner) (i : Nat) :
    p.shapeAt stripe i = shapeOf inner.slotState i := by
  rw [shapeAt, hs]
  rfl

theorem lt_of_stripe {i : Nat} (h : Inv numSlots p) (hs : p.stripes[stripe]? = some inner)
    (hi : i < inner.slotState.length) : i < p.imageSlots.length := by
  have hlt := (List.getElem?_eq_some_iff.1 hs).1
  rw [(h.stripes stripe inner hs).2, lt_stripeCapacity hlt] at hi
  have hle := Nat.le_mul_of_pos_right i (zero_lt_of_lt hlt)
  have himages := h.images
  omega

/-- **One round**: a slot of the memory is found and loses its affinity, or there is none. -/
theorem purgeSlot_wp (h : Inv numSlots p) (hlt : stripe < p.stripes.length) :
    wp (purgeSlot build remap moduleId stripe memory) (fun r p' =>
      (r = none → p' = p ∧ ∀ i, p.shapeAt stripe i ≠ some (.warm (some ⟨moduleId, memory⟩))) ∧
      ∀ take, r = some take → Purged numSlots moduleId p [take] p' ∧ take.stripe = stripe ∧
          p.shapeAt stripe take.id = some (.warm (some ⟨moduleId, memory⟩))) E p := by
  obtain ⟨inner, hs⟩ : ∃ inner, p.stripes[stripe]? = some inner := ⟨_, getElem?_eq_getElem hlt⟩
  obtain ⟨⟨warm, affine, hinv⟩, hlen⟩ := h.stripes stripe inner hs
  unfold purgeSlot Inner.allocAffineAndClearAffinity
  rw [wp_bind]
  refine onStripe_wp hs (wp_mono (Inner.allocWith_wp hinv) ?_ fun _ _ h => h)
  intro r s1 hr
  cases r with
  | none =>
    obtain ⟨rfl, -, hnone⟩ := hr.1 rfl
    refine ⟨fun _ => ⟨?_, fun i hi => ?_⟩, nofun⟩
    · obtain ⟨hin, hget⟩ := List.getElem?_eq_some_iff.1 hs
      rw [← hget, set_getElem_self]
    · rw [shapeAt_eq hs] at hi
      have hmem := (hinv.affine.mem ⟨moduleId, memory⟩ i).2 ⟨hi, nofun⟩
      rw [hnone _ rfl] at hmem
      cases hmem
  | some id =>
    obtain ⟨hsets, -, hpref⟩ := hr.2 id rfl
    have hshape := ((hinv.affine.mem _ id).1 (hpref _ rfl (.inr rfl))).1
    obtain ⟨warm1, affine1, hinv1⟩ := hsets.inv
    have himage : id < p.imageSlots.length := lt_of_stripe h hs hsets.lt
    refine wp_seq_mono (clearImage_wp himage h.clean) ?_ fun _ _ h => h
    rintro _ p2 ⟨imageSlots, rfl, hlength, hclean⟩
    rw [wp_bind]
    have hs1 : (p.stripes.set stripe s1)[stripe]? = some s1 := getElem?_set_self hlt
    have hused : shapeOf s1.slotState id = some (.used none) := (hsets.shape id).trans (if_pos rfl)
    refine onStripe_wp hs1 (wp_mono (Inner.free_wp hinv1 hused) ?_ fun _ _ h => h)
    intro _ s2 hfree
    rw [wp_pure]
    refine ⟨nofun, fun take htake => ?_⟩
    cases htake
    rw [set_set]
    have hafter : ∀ i, shapeOf s2.slotState i =
        if i = id then some (.warm none) else shapeOf inner.slotState i := by
      intro i
      rw [hfree.shape, hsets.shape]
      split_ifs <;> rfl
    have hcap := hfree.length.trans hsets.length
    refine ⟨⟨⟨fun s inner' hs' => ?_, hlength.trans h.images, hclean⟩, length_set, hlength,
      fun s i => ?_, fun take ht => ?_⟩, rfl, (shapeAt_eq hs id).trans hshape⟩
    · dsimp only at hs' ⊢
      rw [length_set]
      by_cases heq : s = stripe
      · subst heq
        rw [getElem?_set_self hlt] at hs'
        cases hs'
        exact ⟨hfree.inv, hcap.trans hlen⟩
      · rw [getElem?_set_ne (Ne.symm heq)] at hs'
        exact h.stripes s inner' hs'
    · rw [shapeAt_set hlt, hafter]
      by_cases heq : s = stripe
      · subst heq
        rw [if_pos rfl, shapeAt_eq hs]
        refine if_congr ?_ rfl rfl
        simp [eq_comm]
      · rw [if_neg heq, if_neg]
        rintro ⟨take, ht, hst, -⟩
        rw [mem_singleton.1 ht] at hst
        exact heq hst.symm
    · rw [mem_singleton.1 ht]
      exact ⟨hlt, rfl, _, rfl, (shapeAt_eq hs id).trans hshape⟩

/-! ### The loops -/

def affineSlots (p : MemoryPool) (moduleId stripe memory : Nat) : Finset Nat :=
  {i ∈ Finset.range p.imageSlots.length |
    p.shapeAt stripe i = some (.warm (some ⟨moduleId, memory⟩))}

theorem Purged.affineSlots_lt {take : Take} (h : Purged numSlots moduleId p [take] p')
    (hp : Inv numSlots p) (hs : take.stripe = stripe)
    (hshape : p.shapeAt stripe take.id = some (.warm (some ⟨moduleId, memory⟩))) :
    (p'.affineSlots moduleId stripe memory).card < (p.affineSlots moduleId stripe memory).card := by
  have hin : take.id ∈ p.affineSlots moduleId stripe memory := by
    refine Finset.mem_filter.2 ⟨Finset.mem_range.2 ?_, hshape⟩
    obtain ⟨inner, hinner, hat⟩ := Option.bind_eq_some_iff.1 hshape
    exact lt_of_stripe hp hinner (shapeOf_isSome.1 (by rw [hat]; rfl))
  refine Finset.card_lt_card (Finset.ssubset_iff_subset_ne.2 ⟨fun i hi => ?_, fun heq => ?_⟩)
  · obtain ⟨hrange, hi⟩ := Finset.mem_filter.1 hi
    exact Finset.mem_filter.2 ⟨h.images ▸ hrange, h.affine hi⟩
  · rw [← heq] at hin
    have hafter := (Finset.mem_filter.1 hin).2
    rw [h.shape, if_pos ⟨take, mem_singleton_self _, hs, rfl⟩] at hafter
    cases hafter

/-- **The `while` loop** ends, and leaves no slot of the memory. -/
theorem purgeMemory_wp {rounds : Nat} (h : Inv numSlots p) (hlt : stripe < p.stripes.length)
    (hrounds : (p.affineSlots moduleId stripe memory).card < rounds) :
    wp (purgeMemory build remap moduleId stripe memory rounds) (fun takes p' =>
      Purged numSlots moduleId p takes p' ∧
        ∀ i, p'.shapeAt stripe i ≠ some (.warm (some ⟨moduleId, memory⟩))) E p := by
  induction rounds generalizing p with
  | zero => exact absurd hrounds (Nat.not_lt_zero _)
  | succ rounds ih =>
    unfold purgeMemory
    refine wp_seq_mono (purgeSlot_wp h hlt) (fun r p1 hr => ?_) fun _ _ h => h
    cases r with
    | none =>
      obtain ⟨rfl, hnone⟩ := hr.1 rfl
      exact ⟨.refl h, hnone⟩
    | some take =>
      obtain ⟨hpurged, hs, hshape⟩ := hr.2 take rfl
      have hless := hpurged.affineSlots_lt h hs hshape
      refine wp_seq_mono (ih hpurged.inv (hpurged.length ▸ hlt) (by omega)) ?_ fun _ _ h => h
      intro takes p2 hrest
      exact ⟨hpurged.trans hrest.1, hrest.2⟩

theorem affineSlots_card_le (p : MemoryPool) :
    (p.affineSlots moduleId stripe memory).card ≤ p.imageSlots.length :=
  (Finset.card_filter_le _ _).trans (Finset.card_range _).le

theorem collect_wp {l : List (Nat × Nat)} {rounds : Nat} (h : Inv numSlots p)
    (hl : ∀ probe ∈ l, probe.1 < p.stripes.length) (hrounds : p.imageSlots.length < rounds) :
    wp (collect (fun probe : Nat × Nat =>
        purgeMemory build remap moduleId probe.1 probe.2 rounds) l) (fun takes p' =>
      Purged numSlots moduleId p takes.flatten p' ∧
        ∀ probe ∈ l, ∀ i, p'.shapeAt probe.1 i ≠ some (.warm (some ⟨moduleId, probe.2⟩))) E p := by
  induction l generalizing p with
  | nil => exact ⟨.refl h, nofun⟩
  | cons probe l ih =>
    unfold collect
    refine wp_seq_mono (purgeMemory_wp h (hl probe mem_cons_self)
      (lt_of_le_of_lt (affineSlots_card_le p) hrounds)) ?_ fun _ _ h => h
    rintro takes p1 ⟨hfirst, hgone⟩
    refine wp_seq_mono (ih hfirst.inv (fun q hq => ?_) (hfirst.images ▸ hrounds)) ?_ fun _ _ h => h
    · rw [hfirst.length]
      exact hl q (mem_cons_of_mem _ hq)
    · rintro rest p2 ⟨hrest, hothers⟩
      refine ⟨hfirst.trans hrest, fun q hq i hi => ?_⟩
      rcases mem_cons.1 hq with rfl | hq
      · exact hgone i (hrest.affine hi)
      · exact hothers q hq i hi

/-! ### Pools that are in use -/

/-- A module has no more memories than the pool has been made for. -/
def Validated (memories : Nat) : Pool.Op → Prop
  | .alloc (some m) => m.memoryIndex < memories
  | _ => True

/-- Every stripe has come to its state by allocations and deallocations, and the image slots that
are in the pool have been cleared. -/
structure Reached (build : Build) (numSlots max : Nat) (p : MemoryPool) : Prop where
  small : numSlots < u32Size
  striped : 0 < p.stripes.length
  stripes : ∀ s inner, p.stripes[s]? = some inner → ∃ ops q,
    Trace (fun q op q' => Validated p.memoriesPerInstance op ∧ Pool.Step build q op q')
      (Pool.new (stripeCapacity numSlots p.stripes.length s) max) ops q ∧ q.inner = inner
  images : p.imageSlots.length = numSlots
  clean : Clean p.imageSlots

theorem lastUse_step {memories : Nat} {q q' : Pool} {op : Pool.Op}
    (h : ∀ i m, q.lastUse i = some (some m) → m.memoryIndex < memories)
    (hop : Validated memories op) (hstep : Pool.Step build q op q') :
    ∀ i m, q'.lastUse i = some (some m) → m.memoryIndex < memories := by
  have hout : ∀ (a : Option MemoryInModule) (r : Option Nat) (s : Inner),
      (∀ m, a = some m → m.memoryIndex < memories) →
      ∀ i m, (Pool.handOut a { q with inner := s } r).lastUse i = some (some m) →
        m.memoryIndex < memories := by
    intro a r s ha i m hi
    cases r with
    | none => exact h i m hi
    | some slot =>
      change Function.update q.lastUse slot (some a) i = some (some m) at hi
      by_cases heq : i = slot
      · rw [heq, Function.update_self] at hi
        exact ha m (Option.some.inj hi)
      · rw [Function.update_of_ne heq] at hi
        exact h i m hi
  obtain ⟨-, r, hr⟩ := hstep
  cases op with
  | alloc a =>
    simp only [Pool.exec, Pool.onInner, bind_ok, zoom_ok, modify_ok, pure_ok] at hr
    obtain ⟨o, _, ⟨s, -, rfl⟩, _, _, rfl, -, rfl⟩ := hr
    refine hout a o s fun m hm => ?_
    subst hm
    exact hop
  | allocAffineAndClearAffinity i j =>
    simp only [Pool.exec, Pool.onInner, bind_ok, zoom_ok, modify_ok, pure_ok] at hr
    obtain ⟨o, _, ⟨s, -, rfl⟩, _, _, rfl, -, rfl⟩ := hr
    refine hout none o s ?_
    intro m hm
    cases hm
  | free slot =>
    simp only [Pool.exec, Pool.onInner, bind_ok, zoom_ok, modify_ok, pure_ok] at hr
    obtain ⟨_, _, ⟨s, -, rfl⟩, _, _, rfl, -, rfl⟩ := hr
    exact h

theorem stripeCapacity_le {s : Nat} (hs : s < numStripes) :
    stripeCapacity numSlots numStripes s ≤ numSlots := by
  refine Nat.le_of_not_lt fun hlt => ?_
  have hless := (lt_stripeCapacity hs).1 hlt
  have hle := Nat.le_mul_of_pos_right numSlots (zero_lt_of_lt hs)
  omega

theorem Reached.inv {max : Nat} (h : Reached build numSlots max p) : Inv numSlots p ∧
    ∀ s i m, p.shapeAt s i = some (.warm (some m)) → m.memoryIndex < p.memoriesPerInstance := by
  have hstripe : ∀ s inner, p.stripes[s]? = some inner → ∃ q : Pool, q.inner = inner ∧
      q.Inv (stripeCapacity numSlots p.stripes.length s) ∧
        ∀ i m, q.lastUse i = some (some m) → m.memoryIndex < p.memoriesPerInstance := by
    intro s inner hs
    obtain ⟨ops, q, htr, hq⟩ := h.stripes s inner hs
    have hcap : stripeCapacity numSlots p.stripes.length s ≤ numSlots :=
      stripeCapacity_le (List.getElem?_eq_some_iff.1 hs).1
    refine ⟨q, hq, ?_, ?_⟩
    · exact htr.invariant (Pool.inv_new (lt_of_le_of_lt hcap h.small))
        fun _ _ _ hi hstep => hi.step hstep.2
    · exact htr.invariant (I := fun q => ∀ i m, q.lastUse i = some (some m) →
        m.memoryIndex < p.memoriesPerInstance) nofun
        fun _ _ _ hi hstep => lastUse_step hi hstep.1 hstep.2
  refine ⟨⟨fun s inner hs => ?_, h.images, h.clean⟩, fun s i m hi => ?_⟩
  · obtain ⟨q, rfl, hinv, -⟩ := hstripe s inner hs
    exact ⟨hinv.inner, hinv.length⟩
  · obtain ⟨inner, hs, hshape⟩ := Option.bind_eq_some_iff.1 hi
    obtain ⟨q, rfl, hinv, hlast⟩ := hstripe s inner hs
    exact hlast i m (hinv.lastUse_warm hshape)

structure PurgesExactly (numSlots moduleId : Nat) (p : MemoryPool) (takes : List Take)
    (p' : MemoryPool) : Prop where
  right : ∀ take ∈ takes,
    take.index = asUnstripedSlotIndex p.stripes.length (take.stripe, take.id)
  free : ∀ take ∈ takes, ¬ p.Live take.index
  gone : ∀ s i m, m.moduleId = moduleId → p'.shapeAt s i ≠ some (.warm (some m))
  bijective : Set.BijOn (asUnstripedSlotIndex p.stripes.length)
    {slot | slot.1 < p.stripes.length ∧
      slot.2 < stripeCapacity numSlots p.stripes.length slot.1} (Set.Iio numSlots)

theorem purgeModule_wp (h : Inv numSlots p) (haffine : ∀ s i m,
      p.shapeAt s i = some (.warm (some m)) → m.memoryIndex < p.memoriesPerInstance) :
    wp (purgeModule build remap moduleId) (fun takes p' =>
      Purged numSlots moduleId p takes p' ∧
        ∀ s i m, m.moduleId = moduleId → p'.shapeAt s i ≠ some (.warm (some m))) E p := by
  unfold purgeModule
  rw [wp_bind, wp_get, wp_bind]
  refine wp_mono (collect_wp h (fun probe hprobe => ?_) (lt_succ_self _)) ?_
    fun _ _ h => h
  · obtain ⟨s, hs, hmem⟩ := mem_flatMap.1 hprobe
    obtain ⟨_, -, rfl⟩ := mem_map.1 hmem
    exact mem_range.1 hs
  · rintro takes p' ⟨hpurged, hgone⟩
    refine ⟨hpurged, fun s i m hm hi => ?_⟩
    subst hm
    have hbefore := hpurged.affine hi
    obtain ⟨inner, hs, -⟩ := Option.bind_eq_some_iff.1 hbefore
    refine hgone (s, m.memoryIndex) (mem_flatMap.2 ⟨s, ?_, ?_⟩) i hi
    · exact mem_range.2 (List.getElem?_eq_some_iff.1 hs).1
    · exact mem_map.2 ⟨_, mem_range.2 (haffine s i m hbefore), rfl⟩

theorem asUnstriped_eq_iff {s i : Nat} (hs : s < numStripes) :
    i = asUnstripedSlotIndex numStripes (s, i) ↔ numStripes = 1 ∨ s = 0 ∧ i = 0 := by
  unfold asUnstripedSlotIndex
  constructor
  · intro heq
    by_cases hi : i = 0
    · subst hi
      exact .inr ⟨by omega, rfl⟩
    · left
      by_contra hne
      have hle : i * 2 ≤ i * numStripes := Nat.mul_le_mul_left i (by omega)
      dsimp only at heq
      omega
  · rintro (rfl | ⟨rfl, rfl⟩)
    · dsimp only
      omega
    · simp

/-- **When a purge takes the right image slots**: with one stripe always, and with more of them
only if all it finds is the first slot of the first stripe. -/
theorem purge_exact_iff {max : Nat} (h : Reached build numSlots max p) (moduleId : Nat) :
    ∃ takes p', purgeModule build remap moduleId p = (.ok takes, p') ∧
      (PurgesExactly numSlots moduleId p takes p' ↔
        ∀ s i m, m.moduleId = moduleId → p.shapeAt s i = some (.warm (some m)) →
          p.stripes.length = 1 ∨ s = 0 ∧ i = 0) := by
  obtain ⟨hinv, haffine⟩ := h.inv
  have hpurge : wp (purgeModule build remap moduleId) _ (fun _ _ => False) p :=
    purgeModule_wp hinv haffine
  obtain ⟨takes, p', hrun, hpurged, hgone⟩ := exists_of_wp hpurge
  refine ⟨takes, p', hrun, fun hexact s i m hm hi => ?_, fun hcond => ?_⟩
  · have hlost := hpurged.shape s i
    by_cases htaken : ∃ take ∈ takes, take.stripe = s ∧ take.id = i
    · obtain ⟨take, ht, rfl, rfl⟩ := htaken
      obtain ⟨hs, hindex, -⟩ := hpurged.taken take ht
      exact (asUnstriped_eq_iff hs).1 (hindex.symm.trans (hexact.right take ht))
    · rw [if_neg htaken, hi] at hlost
      exact absurd hlost (hgone s i m hm)
  · have hright : ∀ take ∈ takes,
        take.index = asUnstripedSlotIndex p.stripes.length (take.stripe, take.id) := by
      intro take ht
      obtain ⟨hs, hindex, m, hm, hshape⟩ := hpurged.taken take ht
      exact hindex.trans ((asUnstriped_eq_iff hs).2 (hcond _ _ m hm hshape))
    refine ⟨hright, fun take ht hlive => ?_, hgone, stripes_bijOn h.striped⟩
    obtain ⟨hs, -, m, -, hshape⟩ := hpurged.taken take ht
    obtain ⟨a, ha⟩ := hlive
    have hback := fromUnstriped_asUnstriped (i := take.id) hs
    rw [← hright take ht] at hback
    obtain ⟨hmod, hdiv⟩ := Prod.mk.inj hback
    rw [hmod, hdiv, hshape] at ha
    cases ha

def stripeAfter (ops : List Pool.Op) : Pool :=
  ops.foldl (fun q op => (Pool.exec ⟨false, false⟩ op q).2) (Pool.new 2 10)

/-- Two stripes of two slots each: slot 0 of the first is in use, and slot 0 of the second was
used for module 1. -/
def twoStripes : MemoryPool where
  stripes := [(stripeAfter [.alloc (some ⟨7, 0⟩)]).inner,
    (stripeAfter [.alloc (some ⟨1, 0⟩), .free 0]).inner]
  imageSlots := [none, none, none, none]
  memoriesPerInstance := 1

theorem twoStripes_reached : Reached ⟨false, false⟩ 4 10 twoStripes where
  small := by decide
  striped := by decide
  stripes := by
    intro s inner hs
    match s, hs with
    | 0, hs =>
      cases hs
      exact ⟨[.alloc (some ⟨7, 0⟩)], stripeAfter _, .single ⟨Nat.one_pos, trivial, _, rfl⟩, rfl⟩
    | 1, hs =>
      cases hs
      exact ⟨[.alloc (some ⟨1, 0⟩), .free 0], stripeAfter _, .cons ⟨Nat.one_pos, trivial, _, rfl⟩
        (.single ⟨trivial, rfl, _, rfl⟩), rfl⟩
  images := rfl
  clean := by
    intro slot hslot
    simp [twoStripes] at hslot

/-- The purge takes the image slot of the live allocation. -/
theorem purge_takes_live : ∃ p', Reached ⟨false, false⟩ 4 10 twoStripes ∧
    purgeModule ⟨false, false⟩ (fun _ => true) 1 twoStripes = (.ok [⟨1, 0, 0⟩], p') ∧
      twoStripes.Live 0 ∧ asUnstripedSlotIndex 2 (1, 0) = 1 :=
  ⟨_, twoStripes_reached, rfl, ⟨_, rfl⟩, rfl⟩

/-- One stripe: slot 0 is in use, and slot 1 was used for module 1. -/
def oneStripe : MemoryPool where
  stripes := [(stripeAfter [.alloc (some ⟨7, 0⟩), .alloc (some ⟨1, 0⟩), .free 1]).inner]
  imageSlots := [none, some ⟨none, false⟩]
  memoriesPerInstance := 1

theorem oneStripe_reached : Reached ⟨false, false⟩ 2 10 oneStripe where
  small := by decide
  striped := by decide
  stripes := by
    intro s inner hs
    cases s with
    | succ s => cases hs
    | zero =>
      cases hs
      exact ⟨[.alloc (some ⟨7, 0⟩), .alloc (some ⟨1, 0⟩), .free 1], stripeAfter _,
        .cons ⟨Nat.one_pos, trivial, _, rfl⟩ (.cons ⟨Nat.one_pos, trivial, _, rfl⟩
          (.single ⟨trivial, rfl, _, rfl⟩)), rfl⟩
  images := rfl
  clean := by
    intro slot hslot
    simp only [oneStripe, mem_cons, reduceCtorEq, Option.some.injEq, not_mem_nil, or_false,
      false_or] at hslot
    rw [hslot]

theorem purge_exact_oneStripe : ∃ p',
    purgeModule ⟨false, false⟩ (fun _ => true) 1 oneStripe = (.ok [⟨0, 1, 1⟩], p') ∧
      PurgesExactly 2 1 oneStripe [⟨0, 1, 1⟩] p' := by
  obtain ⟨takes, p', hrun, hiff⟩ : ∃ takes p',
      purgeModule ⟨false, false⟩ (fun _ => true) 1 oneStripe = (.ok takes, p') ∧ _ :=
    purge_exact_iff oneStripe_reached 1
  cases hrun
  exact ⟨_, rfl, hiff.2 fun _ _ _ _ _ => .inl rfl⟩

end MemoryPool

end Wasmtime.Vm
