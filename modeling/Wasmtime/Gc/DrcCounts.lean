import Wasmtime.Gc.Drc

/-!
# Reference counts

`Counts hole refs m`: each object is counted once for every reference in `refs`, once for every
field of a live object that holds it, and once if it is on the list. The `hole` is a field that is
being overwritten and whose old value is no longer counted. Under this law the cascade of
`dec_ref_and_maybe_dealloc` returns, gives up exactly the references on its stack (`decRefLoop_wp`),
and frees no member of the list.
-/

namespace Wasmtime.Gc

open Base Prog DrcHeap SortedMap

abbrev Objects := SortedMap Nat Object

/-- The fields of an object without the one that is being overwritten. -/
def mask (hole : Option (Nat × Nat)) (i : Nat) (slots : List (Option GcRef)) :
    List (Option GcRef) :=
  match hole with
  | none => slots
  | some (j, field) => if j = i then slots.set field none else slots

def held (hole : Option (Nat × Nat)) (e : Nat × Object) : List GcRef :=
  (mask hole e.1 e.2.slots).filterMap id

def fields (hole : Option (Nat × Nat)) (m : Objects) : List GcRef := m.entries.flatMap (held hole)

def count (m : Objects) (i : Nat) : Nat := (m.get? i).elim 0 (·.refCount)

/-- What an object is counted for being on the list. -/
def share (o : Object) : Nat := if o.inOverApproximatedStackRoots then 1 else 0

def listed (m : Objects) (i : Nat) : Nat := (m.get? i).elim 0 share

structure Counts (hole : Option (Nat × Nat)) (refs : List GcRef) (m : Objects) : Prop where
  exact : ∀ i, count m i =
    refs.count (.heap i) + (fields hole m).count (.heap i) + listed m i
  pos : ∀ i o, m.get? i = some o → 0 < o.refCount

/-- What the kinds of the objects say about the tables. -/
structure Kinds (h : DrcHeap) : Prop where
  typed : ∀ i o ty, h.objects.get? i = some o → o.kind = .typed ty → ty ∈ h.traceInfos
  externRefs : ∀ i o d, h.objects.get? i = some o → o.kind = .externRef d →
    o.slots = [] ∧ d ∈ h.hostData
  distinct : ∀ i j o o' d, h.objects.get? i = some o → h.objects.get? j = some o' →
    o.kind = .externRef d → o'.kind = .externRef d → i = j

def Guarded (hole : Option (Nat × Nat)) (refs : List GcRef) (m : Objects) : Prop :=
  ∀ j field, hole = some (j, field) → 0 < refs.count (.heap j) + listed m j

/-- **What a cascade can do**: free objects that are not on the list, and lower counts. -/
structure Shrinks (h h' : DrcHeap) : Prop where
  roots : h'.overApproximatedStackRoots = h.overApproximatedStackRoots
  infos : h'.traceInfos = h.traceInfos
  objects : ∀ i o', h'.objects.get? i = some o' →
    ∃ o, h.objects.get? i = some o ∧ o' = { o with refCount := o'.refCount }
  keeps : ∀ i o, h.objects.get? i = some o → o.inOverApproximatedStackRoots = true →
    ∃ o', h'.objects.get? i = some o'

variable {hole : Option (Nat × Nat)} {refs stack : List GcRef} {m : Objects} {h h' : DrcHeap}
  {i j : Nat} {o o' : Object} {r : GcRef}

/-! ### Counting -/

theorem count_of_get? (hi : m.get? i = some o) : count m i = o.refCount := by
  rw [count, hi]
  rfl

theorem listed_of_get? (hi : m.get? i = some o) : listed m i = share o := by
  rw [listed, hi]
  rfl

theorem get?_of_count (hi : 0 < count m i) : ∃ o, m.get? i = some o := by
  cases hget : m.get? i with
  | none =>
    rw [count, hget] at hi
    exact absurd hi (Nat.lt_irrefl 0)
  | some o => exact ⟨o, rfl⟩

theorem count_insert (j : Nat) :
    count (m.insert i o) j = if j = i then o.refCount else count m j := by
  rw [count, get?_insert]
  split_ifs <;> rfl

theorem listed_insert (j : Nat) :
    listed (m.insert i o) j = if j = i then share o else listed m j := by
  rw [listed, get?_insert]
  split_ifs <;> rfl

theorem count_erase (j : Nat) : count (m.erase i) j = if j = i then 0 else count m j := by
  rw [count, get?_erase]
  split_ifs <;> rfl

theorem listed_erase (j : Nat) : listed (m.erase i) j = if j = i then 0 else listed m j := by
  rw [listed, get?_erase]
  split_ifs <;> rfl

theorem count_fields (hi : m.get? i = some o) :
    (fields hole m).count r = (held hole (i, o)).count r + (fields hole (m.erase i)).count r := by
  unfold fields
  rw [((perm_of_get? hi).flatMap_right _).count_eq, List.flatMap_cons, List.count_append]

theorem count_fields_insert :
    (fields hole (m.insert i o)).count r =
      (held hole (i, o)).count r + (fields hole (m.erase i)).count r := by
  unfold fields
  rw [(perm_insert.flatMap_right _).count_eq, List.flatMap_cons, List.count_append]

theorem count_fields_header (hi : m.get? i = some o) (hs : o'.slots = o.slots) :
    (fields hole (m.insert i o')).count r = (fields hole m).count r := by
  rw [count_fields_insert, count_fields hi]
  unfold held
  rw [hs]

theorem slotCount_eq (hi : h.objects.get? i = some o) :
    h.slotCount = o.slots.length + { h with objects := h.objects.erase i }.slotCount := by
  unfold slotCount
  rw [((perm_of_get? hi).map _).sum_eq, List.map_cons, List.sum_cons]

theorem slotCount_insert {p : Object} (hi : h.objects.get? i = some o) (hs : p.slots = o.slots) :
    { h with objects := h.objects.insert i p }.slotCount = h.slotCount := by
  rw [slotCount_eq hi]
  unfold slotCount
  rw [(perm_insert.map _).sum_eq, List.map_cons, List.sum_cons, hs]

theorem length_filterMap_le (slots : List (Option GcRef)) :
    (slots.filterMap id).length ≤ slots.length :=
  List.length_filterMap_le _ _

namespace Counts

variable (hc : Counts hole refs m)
include hc

theorem congr {refs' : List GcRef}
    (h : ∀ i, refs'.count (.heap i) = refs.count (.heap i)) : Counts hole refs' m :=
  ⟨fun i => by rw [h, hc.exact], hc.pos⟩

theorem live_of_mem (hr : .heap i ∈ refs) :
    ∃ o, m.get? i = some o := by
  have := List.count_pos_iff.2 hr
  exact get?_of_count (by rw [hc.exact]; omega)

theorem of_dead (hi : m.get? i = none) :
    refs.count (.heap i) = 0 ∧ (fields hole m).count (.heap i) = 0 := by
  have := hc.exact i
  rw [count, hi] at this
  simp only [Option.elim_none] at this
  omega

theorem recount {refs' : List GcRef} (hi : m.get? i = some o)
    (hs : o'.slots = o.slots) (hpos : 0 < o'.refCount)
    (hown : o'.refCount + refs.count (.heap i) + share o =
      o.refCount + refs'.count (.heap i) + share o')
    (hother : ∀ j ≠ i, refs'.count (.heap j) = refs.count (.heap j)) :
    Counts hole refs' (m.insert i o') := by
  constructor
  · intro j
    have hj := hc.exact j
    rw [count_fields_header hi hs, count_insert, listed_insert]
    by_cases heq : j = i
    · subst heq
      rw [count_of_get? hi, listed_of_get? hi] at hj
      rw [if_pos rfl, if_pos rfl]
      omega
    · rw [if_neg heq, if_neg heq, hother j heq]
      exact hj
  · intro j p hp
    rw [get?_insert] at hp
    split_ifs at hp with heq
    · cases hp
      exact hpos
    · exact hc.pos j p hp

omit hc

theorem release (hc : Counts hole (.heap i :: stack ++ refs) m) (hg : Guarded hole refs m)
    (hi : m.get? i = some o) (hone : o.refCount = 1) :
    Counts hole ((o.slots.filterMap id).reverse ++ stack ++ refs) (m.erase i) ∧
      o.inOverApproximatedStackRoots = false := by
  have hown := hc.exact i
  rw [count_of_get? hi, listed_of_get? hi, hone, List.cons_append, List.count_cons_self,
    List.count_append] at hown
  have hshare : share o = 0 := by omega
  have hheld : held hole (i, o) = o.slots.filterMap id := by
    unfold held mask
    split
    · rfl
    · rename_i j field
      have hguard := hg j field rfl
      split_ifs with hj
      · subst hj
        rw [listed_of_get? hi] at hguard
        omega
      · rfl
  refine ⟨⟨fun j => ?_, fun j p hp => ?_⟩, ?_⟩
  · have hj := hc.exact j
    rw [count_fields hi, hheld] at hj
    rw [count_erase, listed_erase, List.count_append, List.count_append, List.count_reverse]
    by_cases heq : j = i
    · subst heq
      rw [count_fields hi, hheld] at hown
      rw [if_pos rfl, if_pos rfl]
      omega
    · rw [List.cons_append, List.count_cons_of_ne (by simpa using Ne.symm heq),
        List.count_append] at hj
      rw [if_neg heq, if_neg heq]
      omega
  · rw [get?_erase] at hp
    split_ifs at hp
    exact hc.pos j p hp
  · unfold share at hshare
    split_ifs at hshare with hbit
    exact Bool.eq_false_iff.2 hbit

end Counts

namespace Shrinks

theorem refl (h : DrcHeap) : Shrinks h h :=
  ⟨rfl, rfl, fun _ o' hi => ⟨o', hi, rfl⟩, fun _ o hi _ => ⟨o, hi⟩⟩

theorem trans {h1 h2 h3 : DrcHeap} (a : Shrinks h1 h2) (b : Shrinks h2 h3) : Shrinks h1 h3 := by
  refine ⟨b.roots.trans a.roots, b.infos.trans a.infos, fun i o' hi => ?_, fun i o hi hb => ?_⟩
  · obtain ⟨o2, hi2, ho2⟩ := b.objects i o' hi
    obtain ⟨o1, hi1, ho1⟩ := a.objects i o2 hi2
    exact ⟨o1, hi1, by rw [ho2, ho1]⟩
  · obtain ⟨o2, hi2⟩ := a.keeps i o hi hb
    obtain ⟨o1, hi1, ho2⟩ := a.objects i o2 hi2
    rw [hi] at hi1
    cases hi1
    exact b.keeps i o2 hi2 (by rw [ho2]; exact hb)

theorem listed_eq (hs : Shrinks h h') (i : Nat) : listed h'.objects i = listed h.objects i := by
  cases hi' : h'.objects.get? i with
  | some o' =>
    obtain ⟨o, hi, ho'⟩ := hs.objects i o' hi'
    rw [listed_of_get? hi', listed_of_get? hi, ho']
    rfl
  | none =>
    cases hi : h.objects.get? i with
    | none => rw [listed, listed, hi, hi']
    | some o =>
      rw [listed, hi', listed_of_get? hi]
      unfold share
      split_ifs with hb
      · obtain ⟨o', ho'⟩ := hs.keeps i o hi hb
        rw [hi'] at ho'
        cases ho'
      · rfl

theorem guarded (hs : Shrinks h h') (hg : Guarded hole refs h.objects) :
    Guarded hole refs h'.objects :=
  fun j field hj => by rw [hs.listed_eq]; exact hg j field hj

theorem lower (hi : h.objects.get? i = some o) (n : Nat) :
    Shrinks h { h with objects := h.objects.insert i { o with refCount := n } } := by
  refine ⟨rfl, rfl, fun j o' hj => ?_, fun j p hj _ => ?_⟩
  · dsimp only at hj
    rw [get?_insert] at hj
    split_ifs at hj with heq
    · cases hj
      exact ⟨o, heq ▸ hi, rfl⟩
    · exact ⟨o', hj, rfl⟩
  · dsimp only
    rw [get?_insert]
    split_ifs
    · exact ⟨_, rfl⟩
    · exact ⟨p, hj⟩

end Shrinks

/-! ### The cascade -/

theorem index_wp (hi : h.objects.get? i = some o) {α : Type} {Q : α → DrcHeap → Prop}
    {E : Empty → DrcHeap → Prop} {f : Object → Prog DrcHeap Empty α} (hQ : wp (f o) Q E h) :
    wp (index i >>= f) Q E h := by
  unfold index
  rw [wp_bind, wp_bind, wp_get]
  exact wp_unwrap.2 ⟨o, hi, hQ⟩

theorem index_ok : index i h = (.ok o, h') ↔ h.objects.get? i = some o ∧ h' = h := by
  unfold index
  rw [run_get_bind]
  exact unwrap_ok

theorem Kinds.put {p : Object} (hk : Kinds h) (hi : h.objects.get? i = some o)
    (hkind : p.kind = o.kind) (hslots : p.slots.length = o.slots.length) :
    Kinds { h with objects := h.objects.insert i p } := by
  have hold : ∀ j p', (h.objects.insert i p).get? j = some p' →
      ∃ q, h.objects.get? j = some q ∧ p'.kind = q.kind ∧ p'.slots.length = q.slots.length := by
    intro j p' hp
    rw [get?_insert] at hp
    split_ifs at hp with heq
    · cases hp
      exact ⟨o, heq ▸ hi, hkind, hslots⟩
    · exact ⟨p', hp, rfl, rfl⟩
  refine ⟨fun j p ty hp hty => ?_, fun j p d hp hd => ?_, fun j l p p' d hp hp' hd hd' => ?_⟩
  · obtain ⟨q, hq, hqk, -⟩ := hold j p hp
    exact hk.typed j q ty hq (hqk ▸ hty)
  · obtain ⟨q, hq, hqk, hql⟩ := hold j p hp
    obtain ⟨hempty, hmem⟩ := hk.externRefs j q d hq (hqk ▸ hd)
    refine ⟨List.length_eq_zero_iff.1 ?_, hmem⟩
    rw [hql, hempty]
    rfl
  · obtain ⟨q, hq, hqk, -⟩ := hold j p hp
    obtain ⟨q', hq', hqk', -⟩ := hold l p' hp'
    exact hk.distinct j l q q' d hq hq' (hqk ▸ hd) (hqk' ▸ hd')

theorem Kinds.erase (hk : Kinds h) {hostData : List Nat}
    (hd : ∀ j p d, j ≠ i → h.objects.get? j = some p → p.kind = .externRef d → d ∈ hostData) :
    Kinds { h with objects := h.objects.erase i, hostData } := by
  have hold : ∀ j p, (h.objects.erase i).get? j = some p → j ≠ i ∧ h.objects.get? j = some p := by
    intro j p hp
    rw [get?_erase] at hp
    split_ifs at hp with heq
    exact ⟨heq, hp⟩
  refine ⟨fun j p ty hp hty => ?_, fun j p d hp hkind => ?_, fun j l p p' d hp hp' hd hd' => ?_⟩
  · exact hk.typed j p ty (hold j p hp).2 hty
  · obtain ⟨hne, hp⟩ := hold j p hp
    exact ⟨(hk.externRefs j p d hp hkind).1, hd j p d hne hp hkind⟩
  · exact hk.distinct j l p p' d (hold j p hp).2 (hold l p' hp').2 hd hd'

/-- **What becomes of an object that is reclaimed.** -/
theorem reclaim_wp (hk : Kinds h) (hi : h.objects.get? i = some o) : wp (reclaim (.heap i) stack)
      (fun stack' h' => stack' = (o.slots.filterMap id).reverse ++ stack ∧
        h'.objects = h.objects.erase i ∧ Kinds h' ∧
        h'.overApproximatedStackRoots = h.overApproximatedStackRoots ∧
        h'.traceInfos = h.traceInfos)
      (fun _ _ => False) h := by
  unfold reclaim traceGcRef dropHostData dealloc deallocHostData
  rw [wp_bind]
  refine index_wp hi ?_
  cases hkind : o.kind with
  | externRef d =>
    obtain ⟨hempty, hmem⟩ := hk.externRefs i o d hi hkind
    rw [wp_pure, wp_bind]
    refine index_wp hi ?_
    rw [hkind]
    rw [wp_bind, wp_get, wp_bind]
    refine wp_assert.2 ⟨decide_eq_true hmem, ?_⟩
    rw [wp_set, wp_bind]
    refine index_wp (h := { h with hostData := h.hostData.erase d }) hi ?_
    rw [wp_modify, wp_pure]
    refine ⟨by rw [hempty]; rfl, rfl, hk.erase fun j p d' hne hp hd' => ?_, rfl, rfl⟩
    refine (List.mem_erase_of_ne fun heq => ?_).2 (hk.externRefs j p d' hp hd').2
    subst heq
    exact hne (hk.distinct j i p o _ hp hi hd' hkind)
  | typed ty =>
    rw [wp_bind, wp_get, wp_bind]
    refine wp_assert.2 ⟨decide_eq_true (hk.typed i o ty hi hkind), ?_⟩
    rw [wp_pure, wp_bind]
    refine index_wp hi ?_
    rw [hkind]
    rw [wp_pure, wp_bind]
    refine index_wp hi ?_
    rw [wp_modify, wp_pure]
    exact ⟨rfl, rfl, hk.erase fun j p d _ hp hd => (hk.externRefs j p d hp hd).2, rfl, rfl⟩

theorem decRef_wp (hi : h.objects.get? i = some o) (hpos : 0 < o.refCount) : wp (decRef (.heap i))
      (fun dead h' => (dead = true ↔ o.refCount = 1) ∧
        h' = { h with objects := h.objects.insert i { o with refCount := o.refCount - 1 } })
      (fun _ _ => False) h := by
  unfold decRef put
  refine index_wp hi ?_
  rw [wp_bind]
  refine wp_assert.2 ⟨decide_eq_true (by omega), ?_⟩
  rw [wp_bind, wp_modify, wp_pure]
  refine ⟨?_, rfl⟩
  rw [decide_eq_true_eq]
  omega

/-- **The cascade gives up the references on its stack.** The induction is on the number of
references that can still be met: each round takes one from the stack, and puts there only
references from the fields of an object that it frees. -/
theorem decRefLoop_wp {fuel : Nat} (hc : Counts hole (stack ++ refs) h.objects) (hk : Kinds h)
    (hg : Guarded hole refs h.objects) (hfuel : stack.length + h.slotCount ≤ fuel) :
    wp (decRefLoop fuel stack) (fun _ h' => Counts hole refs h'.objects ∧ Kinds h' ∧ Shrinks h h')
      (fun _ _ => False) h := by
  induction fuel generalizing stack h with
  | zero =>
    obtain rfl : stack = [] := List.length_eq_zero_iff.1 (by omega)
    exact ⟨hc, hk, .refl h⟩
  | succ fuel ih =>
    cases stack with
    | nil => exact ⟨hc, hk, .refl h⟩
    | cons r stack =>
      rw [List.length_cons] at hfuel
      unfold decRefLoop
      rw [wp_bind]
      cases r with
      | i31 value =>
        refine ih (hc.congr fun i => ?_) hk hg (by omega)
        rw [List.cons_append, List.count_cons_of_ne (by simp)]
      | heap i =>
        obtain ⟨o, hi⟩ := hc.live_of_mem (i := i) (by simp)
        have hpos := hc.pos i o hi
        refine wp_imp (decRef_wp hi hpos) ?_
        rintro dead h1 ⟨hdead, rfl⟩
        have hi1 : (h.objects.insert i { o with refCount := o.refCount - 1 }).get? i =
            some { o with refCount := o.refCount - 1 } := by
          rw [get?_insert, if_pos rfl]
        have hk1 := hk.put (p := { o with refCount := o.refCount - 1 }) hi rfl rfl
        have hs1 := Shrinks.lower hi (o.refCount - 1)
        rw [wp_ite]
        refine ⟨fun hd => ?_, fun hd => ?_⟩
        · -- The last reference: the object is freed, and its fields come onto the stack.
          obtain ⟨hc2, hunlisted⟩ := hc.release hg hi (hdead.1 hd)
          refine wp_seq (reclaim_wp hk1 hi1) ?_
          rintro _ h2 ⟨rfl, hobjects, hk2, hroots, hinfos⟩
          rw [erase_insert] at hobjects
          have hs2 : Shrinks h h2 := by
            refine ⟨hroots, hinfos, fun j p hp => ?_, fun j p hp hb => ?_⟩
            · rw [hobjects, get?_erase] at hp
              split_ifs at hp
              exact ⟨p, hp, rfl⟩
            · rw [hobjects, get?_erase]
              split_ifs with heq
              · rw [heq, hi] at hp
                cases hp
                rw [hunlisted] at hb
                cases hb
              · exact ⟨p, hp⟩
          have hlen := length_filterMap_le o.slots
          have hcount := slotCount_eq hi
          have hcount2 : h2.slotCount = { h with objects := h.objects.erase i }.slotCount := by
            unfold slotCount
            rw [hobjects]
          refine wp_imp (ih (by rw [hobjects]; exact hc2) hk2 (hs2.guarded hg) ?_)
            (fun _ h3 ⟨hc3, hk3, hs3⟩ => ⟨hc3, hk3, hs2.trans hs3⟩)
          rw [List.length_append, List.length_reverse]
          dsimp only
          omega
        · have htwo : o.refCount ≠ 1 := fun hone => hd (hdead.2 hone)
          have hc1 : Counts hole (stack ++ refs)
              (h.objects.insert i { o with refCount := o.refCount - 1 }) := by
            refine hc.recount hi rfl (by dsimp only; omega) ?_ fun j hj => ?_
            · rw [List.cons_append, List.count_cons_self]
              unfold share
              dsimp only
              omega
            · rw [List.cons_append, List.count_cons_of_ne (by simpa using Ne.symm hj)]
          have hcount := slotCount_insert (p := { o with refCount := o.refCount - 1 }) hi rfl
          refine wp_imp (ih hc1 hk1 (hs1.guarded hg) (by omega))
            (fun _ h3 ⟨hc3, hk3, hs3⟩ => ⟨hc3, hk3, hs1.trans hs3⟩)

theorem decRefAndMaybeDealloc_wp (hc : Counts hole (r :: refs) h.objects) (hk : Kinds h)
    (hg : Guarded hole refs h.objects) :
    wp (decRefAndMaybeDealloc r) (fun _ h' => Counts hole refs h'.objects ∧ Kinds h' ∧ Shrinks h h')
      (fun _ _ => False) h := by
  unfold decRefAndMaybeDealloc
  rw [wp_bind, wp_get]
  have hstack : Counts hole ([r] ++ refs) h.objects := hc
  exact decRefLoop_wp hstack hk hg (by rw [List.length_singleton]; omega)

end Wasmtime.Gc
