import Wasmtime.Vm.IndexAllocator

/-!
# Runs of the slot allocator

`Inner.Inv`: the queue of warm slots (`WarmQueue`) and the queues of the memories (`AffineQueues`)
spell lists that contain exactly the slots they should, but for one slot between its choice and the
assignment of its new state. The specifications of `Inner.remove`, `Inner.allocWith` and
`Inner.free` are the step lemmas. A `Pool` keeps the history: which slots are in use and what each
was last used for.
-/

namespace Wasmtime.Vm

open Base Prog List Function Option

/-! ### The two kinds of queues -/

/-- The queue of the warm slots, without the slot `out`. -/
structure WarmQueue (st : List SlotState) (list : SlotList) (out : Option Nat) (q : List Nat) :
    Prop where
  spells : Spells .unused st list q
  mem : ∀ i, i ∈ q ↔ (∃ a, shapeOf st i = some (.warm a)) ∧ out ≠ some i

/-- The queues of the memories, without the slot `out`. -/
structure AffineQueues (st : List SlotState) (lists : MemoryInModule → Option SlotList)
    (out : Option Nat) (q : MemoryInModule → List Nat) : Prop where
  spells : ∀ m list, lists m = some list → q m ≠ [] ∧ Spells .affine st list (q m)
  absent : ∀ m, lists m = none → q m = []
  mem : ∀ m i, i ∈ q m ↔ shapeOf st i = some (.warm (some m)) ∧ out ≠ some i

variable {build : Build} {kind : ListKind} {st st' : List SlotState} {list : SlotList}
  {lists : MemoryInModule → Option SlotList} {out : Option Nat} {slot : Nat} {q : List Nat}

theorem shapeOf_isSome {i : Nat} : (shapeOf st i).isSome = true ↔ i < st.length := by
  rw [shapeOf, isSome_map, isSome_getElem?]

theorem length_eq_of_isSome (h : ∀ i, (shapeOf st' i).isSome = (shapeOf st i).isSome) :
    st'.length = st.length := by
  have hiff : ∀ i, i < st'.length ↔ i < st.length := by
    intro i
    rw [← shapeOf_isSome, ← shapeOf_isSome, h]
  have hold := hiff st.length
  have hnew := hiff st'.length
  omega

theorem length_eq_of_shape (h : ∀ i, shapeOf st' i = shapeOf st i) : st'.length = st.length :=
  length_eq_of_isSome fun i => by rw [h]

theorem mem_without {l r : List Nat} {i : Nat} (h : (l ++ slot :: r).Nodup) :
    i ∈ l ++ r ↔ i ∈ l ++ slot :: r ∧ i ≠ slot := by
  rw [nodup_append, nodup_cons] at h
  grind

theorem Spells.push (h : Spells kind st list q) (hslot : slot ∉ q)
    (hself : linkOf kind st' slot = ⟨list.tail, none⟩)
    (hlink : ∀ i, i ≠ slot → linkOf kind st' i = if list.tail = some i
      then { linkOf kind st i with next := some slot } else linkOf kind st i) :
    Spells kind st' ⟨if list.tail = none then some slot else list.head, some slot⟩
      (q ++ [slot]) := by
  refine Linked.push h hslot (fun i => ?_) (fun i => ?_) rfl
  · by_cases hi : i = slot
    · subst hi
      rw [if_pos rfl, hself]
    · rw [if_neg hi, hlink i hi]
      split_ifs <;> rfl
  · by_cases hi : i = slot
    · subst hi
      rw [if_pos rfl, hself]
    · rw [if_neg hi, hlink i hi]
      split_ifs <;> rfl

namespace WarmQueue

variable (h : WarmQueue st list out q)
include h

theorem frame (hshape : ∀ i, shapeOf st' i = shapeOf st i)
    (hlink : ∀ i, linkOf .unused st' i = linkOf .unused st i) : WarmQueue st' list out q := by
  refine ⟨Linked.frame h.spells (fun i _ => by rw [hlink]) fun i _ => by rw [hlink], fun i => ?_⟩
  rw [hshape]
  exact h.mem i

theorem warm_of_mem {i : Nat} (hi : i ∈ q) : ∃ a, shapeOf st i = some (.warm a) :=
  ((h.mem i).1 hi).1

theorem lt_of_mem {i : Nat} (hi : i ∈ q) : i < st.length := by
  obtain ⟨a, ha⟩ := h.warm_of_mem hi
  exact shapeOf_isSome.1 (by rw [ha]; rfl)

theorem length_le : q.length ≤ st.length := by
  have hsub : q ⊆ List.range st.length := fun i hi => mem_range.2 (h.lt_of_mem hi)
  calc q.length ≤ (List.range st.length).length := (h.spells.nodup.subperm hsub).length_le
    _ = st.length := length_range

theorem length_lt (hlt : slot < st.length) (hslot : slot ∉ q) :
    q.length < st.length := by
  have hsub : slot :: q ⊆ List.range st.length := by
    intro i hi
    rcases mem_cons.1 hi with rfl | hi
    · exact mem_range.2 hlt
    · exact mem_range.2 (h.lt_of_mem hi)
  have hnodup : (slot :: q).Nodup := nodup_cons.2 ⟨hslot, h.spells.nodup⟩
  calc q.length < (slot :: q).length := Nat.lt_succ_self _
    _ ≤ (List.range st.length).length := (hnodup.subperm hsub).length_le
    _ = st.length := length_range

omit h

theorem without {l r : List Nat} {list' : SlotList} (h : WarmQueue st list none (l ++ slot :: r))
    (hshape : ∀ i, shapeOf st' i = shapeOf st i) (hs : Spells .unused st' list' (l ++ r)) :
    WarmQueue st' list' (some slot) (l ++ r) := by
  refine ⟨hs, fun i => ?_⟩
  rw [mem_without h.spells.nodup, h.mem, hshape]
  grind

theorem push (h : WarmQueue st list none q) {a : Option MemoryInModule} {list' : SlotList}
    (hshape : ∀ i, shapeOf st' i = if i = slot then some (.warm a) else shapeOf st i)
    (hs : Spells .unused st' list' (q ++ [slot])) : WarmQueue st' list' none (q ++ [slot]) := by
  refine ⟨hs, fun i => ?_⟩
  rw [mem_append, h.mem, hshape]
  by_cases hi : i = slot
  · simp [hi]
  · simp [hi]

end WarmQueue

namespace AffineQueues

variable {q : MemoryInModule → List Nat} {memory : MemoryInModule} {list' : SlotList}

theorem frame (h : AffineQueues st lists out q) (hshape : ∀ i, shapeOf st' i = shapeOf st i)
    (hlink : ∀ i, linkOf .affine st' i = linkOf .affine st i) : AffineQueues st' lists out q := by
  refine ⟨fun m list hm => ?_, h.absent, fun m i => by rw [hshape]; exact h.mem m i⟩
  obtain ⟨hne, hs⟩ := h.spells m list hm
  exact ⟨hne, Linked.frame hs (fun i _ => by rw [hlink]) fun i _ => by rw [hlink]⟩

theorem disjoint (h : AffineQueues st lists out q) {m m' : MemoryInModule} (hne : m' ≠ m) :
    ∀ i ∈ q m', i ∉ q m := by
  intro i hi hi'
  have := ((h.mem m' i).1 hi).1.symm.trans ((h.mem m i).1 hi').1
  cases this
  exact hne rfl

theorem list_of_mem (h : AffineQueues st lists out q) {m : MemoryInModule} {i : Nat}
    (hi : i ∈ q m) : ∃ list, lists m = some list ∧ Spells .affine st list (q m) := by
  cases hm : lists m with
  | none =>
    rw [h.absent m hm] at hi
    cases hi
  | some list => exact ⟨list, rfl, (h.spells m list hm).2⟩

variable (h : AffineQueues st lists none q)
include h

theorem without_none (hslot : shapeOf st slot = some (.warm none)) : AffineQueues st lists (some slot) q := by
  refine ⟨h.spells, h.absent, fun m i => (h.mem m i).trans ?_⟩
  refine and_congr_right fun hi => ⟨fun _ heq => ?_, fun _ => nofun⟩
  cases heq
  rw [hslot] at hi
  cases hi

theorem without {l r : List Nat}
    (hq : q memory = l ++ slot :: r) (hrel : Relinks .affine (q memory) st st')
    (hs : Spells .affine st' list' (l ++ r)) :
    AffineQueues st' (update lists memory (if list'.head = none then none else some list'))
      (some slot) (update q memory (l ++ r)) := by
  have hhead : list'.head = (l ++ r).head? := hs.head_eq
  have hslot : shapeOf st slot = some (.warm (some memory)) :=
    ((h.mem memory slot).1 (by rw [hq]; simp)).1
  obtain ⟨list0, -, hs0⟩ := h.list_of_mem (m := memory) (i := slot) (by rw [hq]; simp)
  refine ⟨fun m list hm => ?_, fun m hm => ?_, fun m i => ?_⟩
  · by_cases hmem : m = memory
    · subst hmem
      rw [update_self] at hm ⊢
      split_ifs at hm with hnone
      cases hm
      refine ⟨fun hnil => hnone ?_, hs⟩
      rw [hhead, hnil]
      rfl
    · rw [update_of_ne hmem] at hm ⊢
      obtain ⟨hne, hspell⟩ := h.spells m list hm
      exact ⟨hne, hrel.spells hspell (.inr (h.disjoint hmem))⟩
  · by_cases hmem : m = memory
    · subst hmem
      rw [update_self] at hm ⊢
      split_ifs at hm with hnone
      rw [hhead] at hnone
      exact head?_eq_none_iff.1 hnone
    · rw [update_of_ne hmem] at hm ⊢
      exact h.absent m hm
  · rw [hrel.shape]
    by_cases hmem : m = memory
    · subst hmem
      have hi := h.mem m i
      rw [hq] at hi
      rw [update_self, mem_without (hq ▸ hs0.nodup), hi]
      grind
    · rw [update_of_ne hmem, h.mem]
      refine and_congr_right fun hi => ⟨fun _ heq => ?_, fun _ => nofun⟩
      cases heq
      rw [hslot] at hi
      cases hi
      exact hmem rfl

theorem push_none (hshape : ∀ i, shapeOf st' i = if i = slot then some (.warm none) else shapeOf st i)
    (hslot : ∀ a, shapeOf st slot ≠ some (.warm a))
    (hlink : ∀ i, i ≠ slot → linkOf .affine st' i = linkOf .affine st i) :
    AffineQueues st' lists none q := by
  have hout : ∀ m, slot ∉ q m := fun m hm => hslot _ ((h.mem m slot).1 hm).1
  refine ⟨fun m list hm => ?_, h.absent, fun m i => ?_⟩
  · obtain ⟨hne, hs⟩ := h.spells m list hm
    have hlink' : ∀ i ∈ q m, linkOf .affine st' i = linkOf .affine st i :=
      fun i hi => hlink i fun heq => hout m (heq ▸ hi)
    exact ⟨hne, Linked.frame hs (fun i hi => by rw [hlink' i hi]) fun i hi => by rw [hlink' i hi]⟩
  · rw [h.mem, hshape]
    by_cases hi : i = slot
    · subst hi
      simp [hslot]
    · simp [hi]

theorem push (hshape : ∀ i, shapeOf st' i =
      if i = slot then some (.warm (some memory)) else shapeOf st i)
    (hslot : ∀ a, shapeOf st slot ≠ some (.warm a))
    (hs : Spells .affine st' list' (q memory ++ [slot]))
    (hlink : ∀ i, i ≠ slot → i ∉ q memory → linkOf .affine st' i = linkOf .affine st i) :
    AffineQueues st' (update lists memory (some list')) none
      (update q memory (q memory ++ [slot])) := by
  have hout : ∀ m, slot ∉ q m := fun m hm => hslot _ ((h.mem m slot).1 hm).1
  refine ⟨fun m list hm => ?_, fun m hm => ?_, fun m i => ?_⟩
  · by_cases hmem : m = memory
    · subst hmem
      rw [update_self] at hm ⊢
      cases hm
      exact ⟨by simp, hs⟩
    · rw [update_of_ne hmem] at hm ⊢
      obtain ⟨hne, hspell⟩ := h.spells m list hm
      have hlink' : ∀ i ∈ q m, linkOf .affine st' i = linkOf .affine st i :=
        fun i hi => hlink i (fun heq => hout m (heq ▸ hi)) (h.disjoint hmem i hi)
      exact ⟨hne, Linked.frame hspell (fun i hi => by rw [hlink' i hi])
        fun i hi => by rw [hlink' i hi]⟩
  · by_cases hmem : m = memory
    · subst hmem
      rw [update_self] at hm
      cases hm
    · rw [update_of_ne hmem] at hm ⊢
      exact h.absent m hm
  · rw [hshape]
    by_cases hmem : m = memory
    · subst hmem
      rw [update_self, mem_append, h.mem]
      by_cases hi : i = slot
      · simp [hi]
      · simp [hi]
    · rw [update_of_ne hmem, h.mem]
      by_cases hi : i = slot
      · subst hi
        simp [hslot, Ne.symm hmem]
      · simp [hi]

omit h

end AffineQueues

/-! ### The invariant of the allocator -/

namespace Inner

/-- **The invariant.** The slot `out` has been chosen and is in no queue. -/
structure Inv (s : Inner) (out : Option Nat) (q : List Nat) (qs : MemoryInModule → List Nat) :
    Prop where
  small : s.slotState.length < u32Size
  warm : WarmQueue s.slotState s.warm out q
  count : s.unusedWarmSlots = q.length
  affine : AffineQueues s.slotState s.moduleAffine out qs
  cold : ∀ i, out ≠ some i →
    (shapeOf s.slotState i = some .cold ↔ s.lastCold ≤ i ∧ i < s.slotState.length)
  coldLe : s.lastCold ≤ s.slotState.length
  outLt : ∀ i, out = some i → i < s.lastCold

structure SameSlots (s s' : Inner) : Prop where
  shape : ∀ i, shapeOf s'.slotState i = shapeOf s.slotState i
  max : s'.maxUnusedWarmSlots = s.maxUnusedWarmSlots

variable {s s' : Inner} {warm : List Nat} {affine : MemoryInModule → List Nat}
  {E : Empty → Inner → Prop}

theorem onSlots_wp {α : Type} {m : Prog (List SlotState) Empty α} {Q : α → Inner → Prop}
    {P : α → List SlotState → Prop} (h : wp m P (fun _ _ => True) s.slotState)
    (hQ : ∀ a st, P a st → Q a { s with slotState := st }) : wp (onSlots m) Q E s := by
  unfold onSlots
  rw [wp_zoom]
  exact wp_mono h hQ fun e => e.elim

variable {a : Option MemoryInModule}

theorem removeAffine_wp (h : AffineQueues s.slotState s.moduleAffine none affine)
    (ha : shapeOf s.slotState slot = some (.warm a)) : wp (removeAffine slot a)
      (fun _ s' => ∃ st lists affine' q, s' = { s with slotState := st, moduleAffine := lists } ∧
        Relinks .affine q s.slotState st ∧ AffineQueues st lists (some slot) affine') E s := by
  cases a with
  | none => exact ⟨_, _, affine, [], rfl, .refl _ _ _, h.without_none ha⟩
  | some memory =>
    have hmem : slot ∈ affine memory := (h.mem memory slot).2 ⟨ha, nofun⟩
    obtain ⟨list, hlist, hs⟩ := h.list_of_mem hmem
    obtain ⟨l, r, hq⟩ := append_of_mem hmem
    unfold removeAffine
    rw [wp_bind, wp_get, wp_bind, wp_unwrap]
    refine ⟨list, hlist, ?_⟩
    rw [wp_bind]
    rw [hq] at hs
    refine onSlots_wp (SlotList.remove_wp hs fun i hi => ?_) ?_
    · rw [← hq] at hi
      exact ⟨_, ((h.mem memory i).1 hi).1⟩
    · rintro list' st ⟨hs', hrel⟩
      rw [← hq] at hrel
      exact ⟨st, _, _, _, rfl, hrel, h.without hq hrel hs'⟩

theorem remove_wp (h : Inv s none warm affine) (hslot : slot ∈ warm) : wp (remove build slot)
      (fun _ s' => SameSlots s s' ∧ ∃ warm' affine', Inv s' (some slot) warm' affine') E s := by
  obtain ⟨l, r, rfl⟩ := append_of_mem hslot
  obtain ⟨a, ha⟩ := h.warm.warm_of_mem hslot
  have hlen := h.warm.length_le
  have hcount := h.count
  have hsmall := h.small
  rw [length_append, length_cons] at hlen hcount
  unfold remove
  rw [wp_bind, wp_get]
  refine wp_subU32 (by omega) (by omega) ?_
  rw [wp_bind, wp_modify, wp_bind]
  refine onSlots_wp (SlotList.remove_wp h.warm.spells fun i hi => h.warm.warm_of_mem hi) ?_
  rintro list st ⟨hs, hrel⟩
  rw [wp_bind, wp_modify, wp_bind]
  have hwarm := h.warm.without hrel.shape hs
  have haffine := h.affine.frame hrel.shape fun i => hrel.link .affine i (.inl nofun)
  refine onSlots_wp (unwrapUnused_wp ((hrel.shape slot).trans ha)) ?_
  rintro u st ⟨rfl, rfl, -⟩
  refine wp_imp (removeAffine_wp haffine ((hrel.shape slot).trans ha)) ?_
  rintro _ _ ⟨st', lists, affine', q, rfl, hrel', haffine'⟩
  have hshape : ∀ i, shapeOf st' i = shapeOf s.slotState i :=
    fun i => (hrel'.shape i).trans (hrel.shape i)
  have hlength := length_eq_of_shape hshape
  refine ⟨⟨hshape, rfl⟩, l ++ r, affine', ?_, ?_, ?_, haffine', fun i _ => ?_, ?_, ?_⟩
  · exact lt_of_eq_of_lt hlength hsmall
  · exact hwarm.frame hrel'.shape fun i => hrel'.link .unused i (.inl nofun)
  · simp only [length_append]
    omega
  · dsimp only
    rw [hshape, hlength]
    exact h.cold i nofun
  · exact le_of_le_of_eq h.coldLe hlength.symm
  · intro i hi
    cases hi
    -- A warm slot is not cold.
    by_contra hle
    have hlt : slot < s.slotState.length := shapeOf_isSome.1 (by rw [ha]; rfl)
    have hcold := (h.cold slot nofun).2 ⟨Nat.le_of_not_lt hle, hlt⟩
    rw [ha] at hcold
    cases hcold

/-- A slot that has been chosen: it was not in use, and is in no queue any more. -/
structure Chosen (s : Inner) (slot : Nat) (s' : Inner) : Prop where
  same : SameSlots s s'
  shape : shapeOf s.slotState slot = some .cold ∨
    ∃ a, shapeOf s.slotState slot = some (.warm a)
  inv : ∃ warm affine, Inv s' (some slot) warm affine

variable (h : Inv s none warm affine)
include h

theorem take_wp {o : Option Nat} (ho : ∀ i, o = some i → i ∈ warm) : wp (take build o)
      (fun r s' => r = o ∧ (r = none → s' = s) ∧ ∀ i, r = some i → Chosen s i s') E s := by
  cases o with
  | none => exact ⟨rfl, fun _ => rfl, nofun⟩
  | some slot =>
    unfold take
    refine wp_seq (remove_wp h (ho slot rfl)) ?_
    rintro _ s' ⟨hsame, hinv⟩
    refine ⟨rfl, nofun, fun i hi => ?_⟩
    cases hi
    exact ⟨hsame, .inr (h.warm.warm_of_mem (ho slot rfl)), hinv⟩

theorem pickAffine_wp {forMemory : Option MemoryInModule} : wp (pickAffine build forMemory)
      (fun r s' => (r = none → s' = s ∧ ∀ m, forMemory = some m → affine m = []) ∧
        ∀ i, r = some i → Chosen s i s' ∧ ∃ m, forMemory = some m ∧ i ∈ affine m) E s := by
  have hpick : ∀ i, (forMemory.bind s.moduleAffine).bind (·.tail) = some i →
      ∃ m, forMemory = some m ∧ i ∈ affine m := by
    intro i hi
    obtain ⟨list, hlist, htail⟩ := bind_eq_some_iff.1 hi
    obtain ⟨m, hm, hlist⟩ := bind_eq_some_iff.1 hlist
    exact ⟨m, hm, (h.affine.spells m list hlist).2.tail_mem htail⟩
  unfold pickAffine
  rw [wp_bind, wp_get]
  refine wp_imp (take_wp h fun i hi => ?_) ?_
  · obtain ⟨m, -, hi⟩ := hpick i hi
    obtain ⟨hshape, hout⟩ := (h.affine.mem m i).1 hi
    exact (h.warm.mem i).2 ⟨⟨_, hshape⟩, hout⟩
  · rintro r s' ⟨hr, hnone, hsome⟩
    refine ⟨fun h0 => ⟨hnone h0, ?_⟩, fun i hi => ⟨hsome i hi, hpick i (hr ▸ hi)⟩⟩
    rintro m rfl
    rw [h0, bind_some] at hr
    by_contra hne
    obtain ⟨i, hi⟩ := exists_mem_of_ne_nil _ hne
    obtain ⟨list, hlist, hs⟩ := h.affine.list_of_mem hi
    rw [hlist, bind_some, hs.tail_eq] at hr
    exact hne (getLast?_eq_none_iff.1 hr.symm)

theorem pickWarm_wp : wp (pickWarm build)
      (fun r s' => (r = none → s' = s ∧ warm = []) ∧ ∀ i, r = some i → Chosen s i s') E s := by
  have hhead := h.warm.spells.head_eq
  unfold pickWarm
  rw [wp_bind, wp_get]
  refine wp_imp (take_wp h fun i hi => ?_) ?_
  · rw [hhead] at hi
    exact mem_of_mem_head? hi
  · rintro r s' ⟨hr, hnone, hsome⟩
    refine ⟨fun h0 => ⟨hnone h0, ?_⟩, hsome⟩
    rw [h0, hhead] at hr
    exact head?_eq_none_iff.1 hr.symm

theorem pickCold_wp : wp (pickCold build)
      (fun r s' => (r = none → s' = s ∧ s.lastCold = s.slotState.length) ∧
        ∀ i, r = some i → Chosen s i s') E s := by
  have hle := h.coldLe
  have hsmall := h.small
  unfold pickCold
  rw [wp_bind, wp_get, wp_ite]
  refine ⟨fun heq => ⟨fun _ => ⟨rfl, heq⟩, nofun⟩, fun hne => ?_⟩
  have hcold := (h.cold s.lastCold nofun).2 ⟨le_rfl, by omega⟩
  have hout : ∀ i, (∃ a, shapeOf s.slotState i = some (.warm a)) → some s.lastCold ≠ some i := by
    rintro i ⟨a, ha⟩ heq
    cases heq
    rw [hcold] at ha
    cases ha
  refine wp_addU32 (by omega) ?_
  rw [wp_bind, wp_modify]
  refine ⟨nofun, fun i hi => ?_⟩
  cases hi
  refine ⟨⟨fun _ => rfl, rfl⟩, .inl hcold, warm, affine, hsmall, ⟨h.warm.spells, fun i => ?_⟩,
    h.count, ⟨h.affine.spells, h.affine.absent, fun m i => ?_⟩, fun i hi => ?_, ?_, fun i hi => ?_⟩
  · rw [h.warm.mem]
    exact and_congr_right fun hi => ⟨fun _ => hout i hi, fun _ => nofun⟩
  · rw [h.affine.mem]
    exact and_congr_right fun hi => ⟨fun _ => hout i ⟨_, hi⟩, fun _ => nofun⟩
  · have hne' : s.lastCold ≠ i := fun heq => hi (congrArg some heq)
    dsimp only
    rw [h.cold i nofun]
    omega
  · dsimp only
    omega
  · cases hi
    exact Nat.lt_succ_self _

omit h

def Full (s : Inner) : Prop := ∀ i < s.slotState.length, ∃ a, shapeOf s.slotState i = some (.used a)

theorem full_of_empty (h : Inv s none [] affine) (hcold : s.lastCold = s.slotState.length) :
    s.Full := by
  intro i hi
  obtain ⟨shape, hshape⟩ := isSome_iff_exists.1 (shapeOf_isSome.2 hi)
  cases shape with
  | used a => exact ⟨a, hshape⟩
  | cold =>
    have := (h.cold i nofun).1 hshape
    omega
  | warm a => cases (h.warm.mem i).2 ⟨⟨a, hshape⟩, nofun⟩

theorem wp_orElse {first second : Prog Inner Empty (Option Nat)}
    {Q P : Option Nat → Inner → Prop} (h : wp first P E s)
    (hsome : ∀ i s', P (some i) s' → Q (some i) s')
    (hnone : ∀ s', P none s' → wp second Q E s') : wp (orElse first second) Q E s := by
  unfold orElse
  refine wp_seq h (fun r s' hP => ?_)
  cases r with
  | none => exact hnone s' hP
  | some i => exact hsome i s' hP

theorem pickAny_wp (h : Inv s none warm affine) {mode : AllocMode} : wp (pickAny build mode)
      (fun r s' => (r = none → s' = s ∧ (mode = .anySlot → s.Full)) ∧
        ∀ i, r = some i → mode = .anySlot ∧ Chosen s i s') E s := by
  cases mode with
  | forceAffineAndClear => exact ⟨fun _ => ⟨rfl, nofun⟩, nofun⟩
  | anySlot =>
    unfold pickAny
    rw [wp_bind, wp_get, wp_ite]
    refine ⟨fun _ => ?_, fun hge => ?_⟩
    · refine wp_orElse (pickCold_wp h) (fun i s' hP => ⟨nofun, fun j hj => ⟨rfl, hP.2 j hj⟩⟩) ?_
      intro s' hP
      obtain ⟨rfl, hcold⟩ := hP.1 rfl
      refine wp_imp (pickWarm_wp h) (fun r s2 hQ => ⟨fun h0 => ?_, fun j hj => ⟨rfl, ?_⟩⟩)
      · obtain ⟨rfl, rfl⟩ := hQ.1 h0
        exact ⟨rfl, fun _ => full_of_empty h hcold⟩
      · exact hQ.2 j hj
    · refine wp_orElse (pickWarm_wp h) (fun i s' hP => ⟨nofun, fun j hj => ⟨rfl, hP.2 j hj⟩⟩) ?_
      intro s' hP
      obtain ⟨rfl, rfl⟩ := hP.1 rfl
      have hcount := h.count
      rw [length_nil] at hcount
      refine wp_debugAssert (decide_eq_true (by omega)) ?_
      refine wp_imp (pickCold_wp h) (fun r s2 hQ => ⟨fun h0 => ?_, fun j hj => ⟨rfl, ?_⟩⟩)
      · obtain ⟨rfl, hcold⟩ := hQ.1 h0
        exact ⟨rfl, fun _ => full_of_empty h hcold⟩
      · exact hQ.2 j hj

theorem setState_wp {state : SlotState} {Q : Unit → Inner → Prop} (hlt : slot < s.slotState.length)
    (hQ : Q () { s with slotState := s.slotState.set slot state }) :
    wp (setState slot state) Q E s := by
  unfold setState
  rw [wp_bind, wp_get, wp_bind, wp_assert]
  exact ⟨decide_eq_true hlt, hQ⟩

theorem Inv.use (h : Inv s (some slot) warm affine) :
    Inv { s with slotState := s.slotState.set slot (.used a) } none warm affine := by
  have hlt : slot < s.slotState.length := lt_of_lt_of_le (h.outLt slot rfl) h.coldLe
  have hshape : ∀ i, shapeOf (s.slotState.set slot (.used a)) i = _ := shapeOf_set hlt
  have hwarm : slot ∉ warm := fun hm => ((h.warm.mem slot).1 hm).2 rfl
  have haffine : ∀ m, slot ∉ affine m := fun m hm => ((h.affine.mem m slot).1 hm).2 rfl
  have hspell : ∀ {kind list q}, Spells kind s.slotState list q → slot ∉ q →
      Spells kind (s.slotState.set slot (.used a)) list q := by
    intro kind list q hs hq
    have hlink : ∀ i ∈ q, linkOf kind (s.slotState.set slot (.used a)) i =
        linkOf kind s.slotState i := fun i hi => linkOf_set fun heq => hq (heq ▸ hi)
    exact Linked.frame hs (fun i hi => by rw [hlink i hi]) fun i hi => by rw [hlink i hi]
  refine ⟨by rw [length_set]; exact h.small, ⟨hspell h.warm.spells hwarm, fun i => ?_⟩, h.count,
    ⟨fun m list hm => ?_, h.affine.absent, fun m i => ?_⟩, fun i _ => ?_, ?_, nofun⟩
  · rw [h.warm.mem, hshape]
    by_cases hi : i = slot
    · simp [hi, SlotState.shape]
    · simp [hi, Ne.symm hi]
  · exact ⟨(h.affine.spells m list hm).1, hspell (h.affine.spells m list hm).2 (haffine m)⟩
  · rw [h.affine.mem, hshape]
    by_cases hi : i = slot
    · simp [hi, SlotState.shape]
    · simp [hi, Ne.symm hi]
  · dsimp only
    rw [hshape, length_set]
    by_cases hi : i = slot
    · have := h.outLt slot rfl
      rw [if_pos hi, SlotState.shape]
      refine ⟨nofun, fun hle => ?_⟩
      omega
    · rw [if_neg hi]
      exact h.cold i fun heq => hi (some.inj heq).symm
  · dsimp only
    rw [length_set]
    exact h.coldLe

structure Sets (s : Inner) (slot : Nat) (shape : Shape) (s' : Inner) : Prop where
  lt : slot < s.slotState.length
  shape : ∀ i, shapeOf s'.slotState i = if i = slot then some shape else shapeOf s.slotState i
  max : s'.maxUnusedWarmSlots = s.maxUnusedWarmSlots
  inv : ∃ warm affine, Inv s' none warm affine

theorem Sets.length {shape : Shape} (h : Sets s slot shape s') :
    s'.slotState.length = s.slotState.length := by
  refine length_eq_of_isSome fun i => ?_
  rw [h.shape]
  split_ifs with hi
  · rw [hi, shapeOf_isSome.2 h.lt]
    rfl
  · rfl

theorem allocWith_wp (h : Inv s none warm affine) {forMemory : Option MemoryInModule}
    {mode : AllocMode} :
    wp (allocWith build forMemory mode)
      (fun r s' =>
        (r = none → s' = s ∧ (mode = .anySlot → s.Full) ∧ ∀ m, forMemory = some m → affine m = []) ∧
        ∀ i, r = some i → Sets s i (.used (mode.affinity forMemory)) s' ∧
          (shapeOf s.slotState i = some .cold ∨ ∃ a, shapeOf s.slotState i = some (.warm a)) ∧
          ∀ m, forMemory = some m → affine m ≠ [] ∨ mode = .forceAffineAndClear →
            i ∈ affine m) E s := by
  have hpick : wp (orElse (pickAffine build forMemory) (pickAny build mode))
      (fun r s' =>
        (r = none → s' = s ∧ (mode = .anySlot → s.Full) ∧ ∀ m, forMemory = some m → affine m = []) ∧
        ∀ i, r = some i → Chosen s i s' ∧
          ∀ m, forMemory = some m → affine m ≠ [] ∨ mode = .forceAffineAndClear →
            i ∈ affine m) E s := by
    refine wp_orElse (pickAffine_wp h) (fun i s' hP => ⟨nofun, fun j hj => ?_⟩) fun s' hP => ?_
    · obtain ⟨hchosen, m, hm, hi⟩ := hP.2 j hj
      refine ⟨hchosen, fun m' hm' _ => ?_⟩
      rw [hm] at hm'
      cases hm'
      exact hi
    · obtain ⟨rfl, hnone⟩ := hP.1 rfl
      refine wp_imp (pickAny_wp h) (fun r s2 hQ => ⟨fun h0 => ?_, fun j hj => ?_⟩)
      · obtain ⟨rfl, hfull⟩ := hQ.1 h0
        exact ⟨rfl, hfull, hnone⟩
      · obtain ⟨hmode, hchosen⟩ := hQ.2 j hj
        refine ⟨hchosen, fun m hm hneed => ?_⟩
        rcases hneed with hne | hforce
        · exact absurd (hnone m hm) hne
        · cases hmode.symm.trans hforce
  unfold allocWith
  refine wp_seq hpick (fun r s' hP => ?_)
  cases r with
  | none => exact ⟨fun _ => hP.1 rfl, nofun⟩
  | some slot =>
    obtain ⟨⟨hsame, hshape, warm', affine', hinv⟩, hpref⟩ := hP.2 slot rfl
    have hlt : slot < s'.slotState.length := lt_of_lt_of_le (hinv.outLt slot rfl) hinv.coldLe
    rw [wp_bind]
    refine setState_wp hlt ⟨nofun, fun i hi => ?_⟩
    cases hi
    refine ⟨⟨length_eq_of_shape hsame.shape ▸ hlt, fun i => ?_, hsame.max, _, _, hinv.use⟩, hshape,
      hpref⟩
    rw [shapeOf_set hlt, hsame.shape]
    rfl

theorem appendAffine_wp (h : AffineQueues s.slotState s.moduleAffine none affine)
    (hslot : ∀ a, shapeOf s.slotState slot ≠ some (.warm a)) : wp (appendAffine slot a)
      (fun link s' => ∃ st lists q, s' = { s with slotState := st, moduleAffine := lists } ∧
        Relinks .affine q s.slotState st ∧
        ∀ unusedListLink, slot < st.length → ∃ affine',
          AffineQueues (st.set slot (.unusedWarm ⟨a, link, unusedListLink⟩)) lists none affine')
      E s := by
  have hset : ∀ {st : List SlotState} {state : SlotState}, slot < st.length →
      (∀ i, shapeOf st i = shapeOf s.slotState i) → ∀ i, shapeOf (st.set slot state) i =
        if i = slot then some state.shape else shapeOf s.slotState i := by
    intro st state hlt hshape i
    rw [shapeOf_set hlt, hshape]
  cases a with
  | none =>
    refine ⟨_, _, [], rfl, .refl _ _ _, fun link hlt => ⟨affine, ?_⟩⟩
    exact h.push_none (hset hlt fun _ => rfl) hslot fun i hi => linkOf_set hi
  | some memory =>
    unfold appendAffine
    rw [wp_bind, wp_get]
    have hnot : slot ∉ affine memory := fun hm => hslot _ ((h.mem memory slot).1 hm).1
    cases hlist : s.moduleAffine memory with
    | none =>
      rw [wp_bind, wp_modify]
      refine ⟨_, _, [], rfl, .refl _ _ _, fun link hlt => ?_⟩
      have hempty : Spells .affine s.slotState ⟨none, none⟩ (affine memory) := by
        rw [h.absent memory hlist]
        exact Linked.nil
      have hs := hempty.push hnot (linkOf_set_self (u := ⟨some memory, .empty, link⟩) hlt)
        fun i hi => by rw [linkOf_set hi, if_neg nofun]
      exact ⟨_, h.push (hset hlt fun _ => rfl) hslot hs fun i hi _ => linkOf_set hi⟩
    | some list =>
      obtain ⟨-, hs⟩ := h.spells memory list hlist
      rw [wp_bind]
      refine onSlots_wp (SlotList.append_wp fun i hi => ?_) ?_
      · exact ⟨_, ((h.mem memory i).1 (hs.tail_mem hi)).1⟩
      · rintro _ st ⟨rfl, hrel, hlink⟩
        refine ⟨st, _, _, rfl, hrel, fun link hlt => ?_⟩
        have hs' := hs.push hnot (linkOf_set_self (u := ⟨some memory, ⟨list.tail, none⟩, link⟩) hlt)
          fun i hi => by rw [linkOf_set hi, hlink]
        refine ⟨_, h.push (hset hlt hrel.shape) hslot hs' fun i hi hmem => ?_⟩
        rw [linkOf_set hi]
        exact hrel.link .affine i (.inr fun hm => hmem (hs.tail_mem (mem_toList.1 hm)))

theorem unwrapUsed_wp {Q : Option MemoryInModule → Inner → Prop}
    (h : shapeOf s.slotState slot = some (.used a)) (hQ : Q a s) :
    wp (unwrapUsed slot) Q E s := by
  obtain ⟨state, hs, hshape⟩ := map_eq_some_iff.1 h
  unfold unwrapUsed
  rw [wp_bind, wp_get, hs]
  cases state with
  | used b =>
    cases hshape
    exact hQ
  | unusedCold | unusedWarm u => cases hshape

theorem free_wp (h : Inv s none warm affine) (ha : shapeOf s.slotState slot = some (.used a)) :
    wp (free build slot) (fun _ s' => Sets s slot (.warm a) s') E s := by
  have hslot : ∀ b, shapeOf s.slotState slot ≠ some (.warm b) := by
    intro b hb
    rw [ha] at hb
    cases hb
  have hnot : slot ∉ warm := fun hm => by
    obtain ⟨b, hb⟩ := h.warm.warm_of_mem hm
    exact hslot b hb
  have hlt : slot < s.slotState.length := shapeOf_isSome.1 (by rw [ha]; rfl)
  have hsmall := h.small
  have hcount := h.count
  have hlen := h.warm.length_lt hlt hnot
  unfold free
  rw [wp_bind]
  refine unwrapUsed_wp ha ?_
  rw [wp_bind, wp_get]
  refine wp_addU32 (by omega) ?_
  rw [wp_bind, wp_modify, wp_bind]
  refine onSlots_wp (SlotList.append_wp fun i hi => ?_) ?_
  · exact h.warm.warm_of_mem (h.warm.spells.tail_mem hi)
  rintro _ st ⟨rfl, hrel, hlink⟩
  rw [wp_bind, wp_modify, wp_bind]
  have haffine := h.affine.frame hrel.shape fun i => hrel.link .affine i (.inl nofun)
  refine wp_imp (appendAffine_wp haffine fun b => ?_) ?_
  · dsimp only
    rw [hrel.shape]
    exact hslot b
  rintro link _ ⟨st', lists, q, rfl, hrel', haffine'⟩
  have hshape : ∀ i, shapeOf st' i = shapeOf s.slotState i :=
    fun i => (hrel'.shape i).trans (hrel.shape i)
  have hlength := length_eq_of_shape hshape
  have hlt' : slot < st'.length := lt_of_lt_of_eq hlt hlength.symm
  refine setState_wp hlt' ?_
  have hset : ∀ i, shapeOf (st'.set slot (.unusedWarm ⟨a, link, s.warm.tail, none⟩)) i =
      if i = slot then some (.warm a) else shapeOf s.slotState i := by
    intro i
    rw [shapeOf_set hlt', hshape]
    rfl
  obtain ⟨affine', haffine'⟩ := haffine' ⟨s.warm.tail, none⟩ hlt'
  have hspells := h.warm.spells.push hnot
    (linkOf_set_self (u := ⟨a, link, s.warm.tail, none⟩) hlt') fun i hi => by
      rw [linkOf_set hi, hrel'.link .unused i (.inl nofun), hlink]
  refine ⟨hlt, hset, rfl, warm ++ [slot], affine', ?_, h.warm.push hset hspells, ?_, haffine',
    fun i _ => ?_, ?_, nofun⟩
  · dsimp only
    rw [length_set]
    omega
  · dsimp only
    rw [length_append, length_singleton, hcount]
  · dsimp only
    rw [hset, length_set, hlength]
    by_cases hi : i = slot
    · rw [if_pos hi, hi]
      have hcold := h.cold slot nofun
      rw [ha] at hcold
      refine ⟨nofun, fun hle => ?_⟩
      cases hcold.2 hle
    · rw [if_neg hi]
      exact h.cold i nofun
  · dsimp only
    rw [length_set, hlength]
    exact h.coldLe

end Inner

/-! ### Runs -/

/-- An allocator with its history: the slots that have been handed out and not given back, and
the memory that each slot was last used for, if it has been used at all. -/
structure Pool where
  inner : Inner
  inUse : Nat → Bool
  lastUse : Nat → Option (Option MemoryInModule)

namespace Pool

inductive Op where
  | alloc (forMemory : Option MemoryInModule)
  | allocAffineAndClearAffinity (moduleId memoryIndex : Nat)
  | free (slot : Nat)

def new (capacity maxUnusedWarmSlots : Nat) : Pool :=
  ⟨.new capacity maxUnusedWarmSlots, fun _ => false, fun _ => none⟩

def allowed (p : Pool) : Op → Prop
  | .free slot => p.inUse slot = true
  | _ => True

instance (p : Pool) (op : Op) : Decidable (p.allowed op) := by
  cases op <;> unfold allowed <;> infer_instance

def handOut (memory : Option MemoryInModule) (p : Pool) : Option Nat → Pool
  | none => p
  | some slot => { p with
      inUse := update p.inUse slot true
      lastUse := update p.lastUse slot (some memory) }

def onInner {α : Type} (m : Prog Inner Empty α) : Prog Pool Empty α :=
  zoom (·.inner) (fun s p => { p with inner := s }) m

def exec (build : Build) : Op → Prog Pool Empty (Option Nat)
  | .alloc forMemory => do
    let slot ← onInner (Inner.alloc build forMemory)
    Prog.modify fun p => handOut forMemory p slot
    pure slot
  | .allocAffineAndClearAffinity moduleId memoryIndex => do
    let slot ← onInner (Inner.allocAffineAndClearAffinity build moduleId memoryIndex)
    Prog.modify fun p => handOut none p slot
    pure slot
  | .free slot => do
    onInner (Inner.free build slot)
    Prog.modify fun p => { p with inUse := update p.inUse slot false }
    pure none

def Step (build : Build) (p : Pool) (op : Op) (p' : Pool) : Prop :=
  p.allowed op ∧ ∃ r, exec build op p = (.ok r, p')

/-- What the state of a slot says about its history. -/
def history : Option Shape → Bool × Option (Option MemoryInModule)
  | some (.used a) => (true, some a)
  | some (.warm a) => (false, some a)
  | _ => (false, none)

/-- **A well-formed pool.** The queues are doubly linked lists of exactly the slots that
belong to them, none of them empty in the map of the memories; the states of the slots follow
the history; and the cold slots are those never used. -/
structure WellFormed (capacity : Nat) (p : Pool) : Prop where
  length : p.inner.slotState.length = capacity
  history : ∀ i, (p.inUse i, p.lastUse i) = history (shapeOf p.inner.slotState i)
  warm : ∃ q, WarmQueue p.inner.slotState p.inner.warm none q ∧
    p.inner.unusedWarmSlots = q.length
  affine : ∃ qs, AffineQueues p.inner.slotState p.inner.moduleAffine none qs
  cold : ∀ i < capacity, p.inner.lastCold ≤ i ↔ p.lastUse i = none

structure Inv (capacity : Nat) (p : Pool) : Prop where
  inner : ∃ warm affine, p.inner.Inv none warm affine
  length : p.inner.slotState.length = capacity
  history : ∀ i, (p.inUse i, p.lastUse i) = Pool.history (shapeOf p.inner.slotState i)

variable {build : Build} {capacity : Nat} {p p' : Pool} {slot : Nat}
  {memory : Option MemoryInModule} {E : Empty → Pool → Prop}

theorem shapeOf_replicate {i : Nat} :
    shapeOf (List.replicate capacity .unusedCold) i = if i < capacity then some .cold else none := by
  unfold shapeOf
  rw [getElem?_replicate]
  split_ifs <;> rfl

theorem inv_new {max : Nat} (hcap : capacity < u32Size) : Inv capacity (new capacity max) := by
  refine ⟨⟨[], fun _ => [], ?_, ⟨Linked.nil, fun i => ?_⟩, rfl, ⟨nofun, fun _ _ => rfl, fun m i => ?_⟩,
    fun i _ => ?_, Nat.zero_le _, nofun⟩, length_replicate, fun i => ?_⟩
  · exact lt_of_eq_of_lt length_replicate hcap
  all_goals
    simp only [new, Inner.new, shapeOf_replicate, length_replicate]
    by_cases hi : i < capacity
    · simp [hi, history]
    · simp [hi, history]

namespace Inv

variable (h : Inv capacity p)
include h

theorem wellFormed : WellFormed capacity p := by
  obtain ⟨warm, affine, hinv⟩ := h.inner
  refine ⟨h.length, h.history, ⟨warm, hinv.warm, hinv.count⟩, ⟨affine, hinv.affine⟩,
    fun i hi => ?_⟩
  have hcold := hinv.cold i nofun
  have hhist := congrArg Prod.snd (h.history i)
  dsimp only at hhist
  rw [h.length] at hcold
  rw [hhist]
  obtain ⟨shape, hshape⟩ := isSome_iff_exists.1 (shapeOf_isSome.2 (h.length ▸ hi))
  rw [hshape] at hcold ⊢
  cases shape with
  | used a | warm a | cold => simpa [Pool.history, hi] using hcold

theorem sets {shape : Shape} {s : Inner} (hs : Inner.Sets p.inner slot shape s)
    {inUse : Nat → Bool} {lastUse : Nat → Option (Option MemoryInModule)}
    (hslot : (inUse slot, lastUse slot) = Pool.history (some shape))
    (hother : ∀ i, i ≠ slot → inUse i = p.inUse i ∧ lastUse i = p.lastUse i) :
    Inv capacity ⟨s, inUse, lastUse⟩ := by
  refine ⟨hs.inv, hs.length.trans h.length, fun i => ?_⟩
  dsimp only
  rw [hs.shape]
  by_cases hi : i = slot
  · rw [if_pos hi, hi, hslot]
  · rw [if_neg hi, (hother i hi).1, (hother i hi).2, h.history]

theorem inUse_iff (i : Nat) :
    p.inUse i = true ↔ ∃ a, shapeOf p.inner.slotState i = some (.used a) := by
  have hhist := congrArg Prod.fst (h.history i)
  dsimp only at hhist
  rw [hhist]
  rcases shapeOf p.inner.slotState i with _ | (a | _ | a) <;> simp [Pool.history]

theorem lastUse_warm {i : Nat} {a : Option MemoryInModule}
    (hi : shapeOf p.inner.slotState i = some (.warm a)) : p.lastUse i = some a := by
  have hhist := congrArg Prod.snd (h.history i)
  rw [hi] at hhist
  exact hhist

theorem warm_of_free {i : Nat} {a : Option MemoryInModule}
    (hfree : p.inUse i = false) (hlast : p.lastUse i = some a) :
    shapeOf p.inner.slotState i = some (.warm a) := by
  have hhist := h.history i
  rw [hfree, hlast] at hhist
  rcases hshape : shapeOf p.inner.slotState i with _ | (b | _ | b) <;> rw [hshape] at hhist <;>
    cases hhist
  rfl

omit h

end Inv

/-- What an allocation for `memory` finds: a slot that was not in use, if there is one, and one
that was last used for that memory, if there is one. -/
structure Allocates (capacity : Nat) (p : Pool) (memory : Option MemoryInModule) (any : Prop)
    (r : Option Nat) : Prop where
  free : ∀ i, r = some i → i < capacity ∧ p.inUse i = false
  full : r = none → any → ∀ i < capacity, p.inUse i = true
  affine : ∀ m, memory = some m → (∃ i, p.inUse i = false ∧ p.lastUse i = some (some m)) →
    ∃ i, r = some i ∧ p.lastUse i = some (some m)

theorem allocWith_wp (h : Inv capacity p) {mode : AllocMode} :
    wp (onInner (Inner.allocWith build memory mode))
      (fun r p' => Inv capacity (handOut (mode.affinity memory) p' r) ∧
        Allocates capacity p memory (mode = .anySlot) r) E p := by
  obtain ⟨warm, affine, hinv⟩ := h.inner
  have haffine : ∀ m, (∃ i, p.inUse i = false ∧ p.lastUse i = some (some m)) → affine m ≠ [] := by
    rintro m ⟨i, hfree, hlast⟩ hnil
    have := (hinv.affine.mem m i).2 ⟨h.warm_of_free hfree hlast, nofun⟩
    rw [hnil] at this
    cases this
  unfold onInner
  rw [wp_zoom]
  refine wp_imp (Inner.allocWith_wp hinv) (fun r s hr => ?_)
  cases r with
  | none =>
    obtain ⟨rfl, hfull, hnone⟩ := hr.1 rfl
    refine ⟨h, nofun, fun _ hany i hi => ?_, fun m hm hex => absurd (hnone m hm) (haffine m hex)⟩
    exact (h.inUse_iff i).2 (hfull hany i (h.length ▸ hi))
  | some i =>
    obtain ⟨hsets, hshape, hpref⟩ := hr.2 i rfl
    refine ⟨h.sets hsets ?_ fun j hj => ?_, fun j hj => ?_, nofun, fun m hm hex => ⟨i, rfl, ?_⟩⟩
    · simp only [update_self, history]
    · exact ⟨update_of_ne hj _ _, update_of_ne hj _ _⟩
    · cases hj
      refine ⟨h.length ▸ hsets.lt, Bool.eq_false_iff.2 fun huse => ?_⟩
      obtain ⟨a, ha⟩ := (h.inUse_iff i).1 huse
      rcases hshape with hc | ⟨b, hb⟩
      · rw [ha] at hc
        cases hc
      · rw [ha] at hb
        cases hb
    · exact h.lastUse_warm ((hinv.affine.mem m i).1 (hpref m hm (.inl (haffine m hex)))).1

theorem exec_wp (h : Inv capacity p) {op : Op} (hop : p.allowed op) :
    wp (exec build op) (fun r p' => Inv capacity p' ∧
        (∀ m, op = .alloc m → Allocates capacity p m True r) ∧
        ∀ i j, op = .allocAffineAndClearAffinity i j →
          Allocates capacity p (some ⟨i, j⟩) False r) E p := by
  cases op with
  | alloc memory =>
    unfold exec Inner.alloc
    refine wp_seq (allocWith_wp h) (fun r p' hr => ?_)
    refine ⟨hr.1, fun m hm => ?_, nofun⟩
    cases hm
    exact ⟨hr.2.free, fun h0 _ => hr.2.full h0 rfl, hr.2.affine⟩
  | allocAffineAndClearAffinity i j =>
    unfold exec Inner.allocAffineAndClearAffinity
    refine wp_seq (allocWith_wp h) (fun r p' hr => ?_)
    refine ⟨hr.1, nofun, fun i' j' hm => ?_⟩
    cases hm
    exact ⟨hr.2.free, nofun, hr.2.affine⟩
  | free slot =>
    obtain ⟨warm, affine, hinv⟩ := h.inner
    obtain ⟨a, ha⟩ := (h.inUse_iff slot).1 hop
    have hlast : p.lastUse slot = some a := by
      have hhist := congrArg Prod.snd (h.history slot)
      rw [ha] at hhist
      exact hhist
    unfold exec onInner
    rw [wp_bind, wp_zoom]
    refine wp_imp (Inner.free_wp hinv ha) (fun _ s hs => ?_)
    refine ⟨h.sets hs ?_ fun j hj => ⟨update_of_ne hj _ _, rfl⟩, nofun, nofun⟩
    rw [update_self, hlast]
    rfl

theorem Inv.step (h : Inv capacity p) {op : Op} (hstep : Step build p op p') : Inv capacity p' := by
  obtain ⟨hop, r, hr⟩ := hstep
  exact (wp_ok (exec_wp (E := fun _ _ => True) h hop) hr).1

/-- **Every run of the allocator is sound**, for every capacity and every bound on the warm
slots: the pool is well-formed, no operation panics, a slot that is handed out was not in use,
there is none only if all are in use, and one that was last used for the same memory is found
if there is one. -/
theorem run_sound {max : Nat} {ops : List Op} (hcap : capacity < u32Size)
    (hrun : Trace (Step build) (new capacity max) ops p) :
    WellFormed capacity p ∧ (∀ op, p.allowed op → ∃ r p', exec build op p = (.ok r, p')) ∧
      (∀ m r p', exec build (.alloc m) p = (.ok r, p') → Allocates capacity p m True r) ∧
      ∀ i j r p', exec build (.allocAffineAndClearAffinity i j) p = (.ok r, p') →
        Allocates capacity p (some ⟨i, j⟩) False r := by
  have h : Inv capacity p := hrun.invariant (inv_new hcap) fun _ _ _ hs hstep => hs.step hstep
  have hwp : ∀ op, p.allowed op → wp (exec build op) _ (fun _ _ => True) p :=
    fun op hop => exec_wp h hop
  refine ⟨h.wellFormed, fun op hop => ?_, fun m r p' hr => ?_, fun i j r p' hr => ?_⟩
  · have hnp := wp_not_panic (hwp op hop)
    rcases hr : exec build op p with ⟨o, p'⟩
    rw [hr] at hnp
    cases o with
    | ok r => exact ⟨r, p', rfl⟩
    | err e => exact e.elim
    | panic _ => cases hnp
  · exact (wp_ok (hwp (.alloc m) trivial) hr).2.1 m rfl
  · exact (wp_ok (hwp (.allocAffineAndClearAffinity i j) trivial) hr).2.2 i j rfl

/-- Two slots are used for different memories and given back; the second memory gets its slot
again although the other one has been free for longer. -/
theorem run_sound_affine : ∃ p, Trace (Step ⟨true, true⟩) (new 3 1)
      [.alloc (some ⟨1, 0⟩), .alloc (some ⟨2, 0⟩), .free 0, .free 1] p ∧ WellFormed 3 p ∧
      Allocates 3 p (some ⟨2, 0⟩) True (some 1) := by
  obtain ⟨p, hrun, hnext⟩ := Trace.exists_of_foldlM (s := new 3 1) (Step ⟨true, true⟩)
    (f := fun p op => if p.allowed op then (exec ⟨true, true⟩ op).next p else none)
    (fun p op p' hsome => by
      split_ifs at hsome with hop
      exact ⟨hop, next_eq_some hsome⟩)
    (fun p => decide ((exec ⟨true, true⟩ (.alloc (some ⟨2, 0⟩)) p).1 = .ok (some 1)))
    [.alloc (some ⟨1, 0⟩), .alloc (some ⟨2, 0⟩), .free 0, .free 1] (by decide +kernel)
  have hsound := run_sound (by decide) hrun
  exact ⟨p, hrun, hsound.1, hsound.2.2.1 _ _ _ (Prod.ext (of_decide_eq_true hnext) rfl)⟩

end Pool

end Wasmtime.Vm
