import Wasmtime.Base.Linked
import Wasmtime.Base.Word

/-!
# The slots of the pooling allocator

`pooling/index_allocator.rs` decides which slot of the pool an instance gets. A slot that has never
been used is cold; one that was used and given back is warm, and remembers the memory it was last
used for. Warm slots are members of up to two queues threaded through the slots: that of all warm
slots, and that of the same memory.

Each operation on a queue is specified by what it does to the links (`SlotList.append_wp`,
`SlotList.remove_wp`), with the rules of `Base.Linked` for the queue itself and a frame for
everything else (`Relinks`). `Pool.run_sound`: which slots are handed out in a run, when there is
none, and which one is preferred.
-/

namespace Wasmtime.Vm

open Base Prog

structure MemoryInModule where
  moduleId : Nat
  memoryIndex : Nat
deriving DecidableEq

structure Link where
  prev : Option Nat
  next : Option Nat

def Link.empty : Link := ⟨none, none⟩

structure SlotList where
  head : Option Nat
  tail : Option Nat

structure Unused where
  affinity : Option MemoryInModule
  affineListLink : Link
  unusedListLink : Link

inductive SlotState where
  | used (affinity : Option MemoryInModule)
  | unusedCold
  | unusedWarm (unused : Unused)

/-- The two kinds of queues: which link of a slot they use. -/
inductive ListKind where
  | affine
  | unused
deriving DecidableEq

def Unused.link (u : Unused) : ListKind → Link
  | .affine => u.affineListLink
  | .unused => u.unusedListLink

def Unused.setLink (u : Unused) (link : Link) : ListKind → Unused
  | .affine => { u with affineListLink := link }
  | .unused => { u with unusedListLink := link }

/-! ### Queues threaded through the slots -/

/-- `unwrap_unused` of the state of a slot. -/
def unwrapUnused (slot : Nat) : Prog (List SlotState) Empty Unused := do
  let states ← Prog.get
  match states[slot]? with
  | some (.unusedWarm u) => pure u
  | some _ => Prog.panic (.unreachable "unwrap_unused")
  | none => Prog.panic (.bounds "slot_state[id.index()]")

def editLink (kind : ListKind) (slot : Nat) (f : Link → Link) :
    Prog (List SlotState) Empty Unit := do
  let u ← unwrapUnused slot
  Prog.modify fun states => states.set slot (.unusedWarm (u.setLink (f (u.link kind)) kind))

namespace SlotList

def new (id : Nat) : SlotList := ⟨some id, some id⟩

def append (kind : ListKind) (list : SlotList) (id : Nat) :
    Prog (List SlotState) Empty (SlotList × Link) :=
  match list.tail with
  | some tail => do
    editLink kind tail fun link => { link with next := some id }
    pure (⟨list.head, some id⟩, ⟨some tail, none⟩)
  | none => pure (⟨some id, some id⟩, ⟨none, none⟩)

/-- The first `match` of `remove`. -/
def relinkNext (kind : ListKind) (list : SlotList) (link : Link) :
    Prog (List SlotState) Empty SlotList :=
  match link.next with
  | some next => do
    editLink kind next fun l => { l with prev := link.prev }
    pure list
  | none => pure { list with tail := link.prev }

/-- The second `match` of `remove`. -/
def relinkPrev (kind : ListKind) (list : SlotList) (link : Link) :
    Prog (List SlotState) Empty SlotList :=
  match link.prev with
  | some prev => do
    editLink kind prev fun l => { l with next := link.next }
    pure list
  | none => pure { list with head := link.next }

def remove (kind : ListKind) (list : SlotList) (id : Nat) :
    Prog (List SlotState) Empty SlotList := do
  let state ← unwrapUnused id
  let list ← relinkNext kind list (state.link kind)
  relinkPrev kind list (state.link kind)

end SlotList

/-! ### The allocator -/

structure Inner where
  maxUnusedWarmSlots : Nat
  unusedWarmSlots : Nat
  warm : SlotList
  lastCold : Nat
  slotState : List SlotState
  moduleAffine : MemoryInModule → Option SlotList

inductive AllocMode where
  | forceAffineAndClear
  | anySlot

def AllocMode.affinity (forMemory : Option MemoryInModule) : AllocMode → Option MemoryInModule
  | .forceAffineAndClear => none
  | .anySlot => forMemory

/-- `Option::or_else` on programs. -/
def orElse {σ ε α : Type} (first second : Prog σ ε (Option α)) : Prog σ ε (Option α) := do
  match ← first with
  | some a => pure (some a)
  | none => second

namespace Inner

def new (capacity maxUnusedWarmSlots : Nat) : Inner where
  lastCold := 0
  maxUnusedWarmSlots
  unusedWarmSlots := 0
  moduleAffine := fun _ => none
  slotState := List.replicate capacity .unusedCold
  warm := ⟨none, none⟩

def onSlots {α : Type} (m : Prog (List SlotState) Empty α) : Prog Inner Empty α :=
  zoom (·.slotState) (fun states s => { s with slotState := states }) m

/-- The end of `remove`, for a slot with the given affinity. -/
def removeAffine (slot : Nat) : Option MemoryInModule → Prog Inner Empty Unit
  | none => pure ()
  | some memory => do
    let s ← Prog.get
    let list ← unwrap (s.moduleAffine memory) (.unreachable "Entry::Vacant(_)")
    let list ← onSlots (list.remove .affine slot)
    Prog.modify fun s => { s with
      moduleAffine := Function.update s.moduleAffine memory
        (if list.head = none then none else some list) }

variable (build : Build)

def remove (slot : Nat) : Prog Inner Empty Unit := do
  let s ← Prog.get
  let unusedWarmSlots ← subU32 build s.unusedWarmSlots 1
  Prog.modify fun s => { s with unusedWarmSlots }
  let warm ← onSlots (s.warm.remove .unused slot)
  Prog.modify fun s => { s with warm }
  let state ← onSlots (unwrapUnused slot)
  removeAffine slot state.affinity

/-- Take a slot out of its queues if there is one. -/
def take : Option Nat → Prog Inner Empty (Option Nat)
  | none => pure none
  | some slot => do
    remove build slot
    pure (some slot)

def pickAffine (forMemory : Option MemoryInModule) : Prog Inner Empty (Option Nat) := do
  let s ← Prog.get
  take build ((forMemory.bind s.moduleAffine).bind (·.tail))

def pickWarm : Prog Inner Empty (Option Nat) := do
  let s ← Prog.get
  take build s.warm.head

def pickCold : Prog Inner Empty (Option Nat) := do
  let s ← Prog.get
  if s.lastCold = s.slotState.length then
    pure none
  else do
    let lastCold ← addU32 build s.lastCold 1
    Prog.modify fun s => { s with lastCold }
    pure (some s.lastCold)

/-- What `_alloc` does without an affine slot. -/
def pickAny : AllocMode → Prog Inner Empty (Option Nat)
  | .anySlot => do
    let s ← Prog.get
    if s.unusedWarmSlots < s.maxUnusedWarmSlots then
      orElse (pickCold build) (pickWarm build)
    else
      orElse (pickWarm build) do
        debugAssert build (decide (s.maxUnusedWarmSlots = 0))
          (.assert "inner.max_unused_warm_slots == 0")
        pickCold build
  | .forceAffineAndClear => pure none

def setState (slot : Nat) (state : SlotState) : Prog Inner Empty Unit := do
  let s ← Prog.get
  assert (decide (slot < s.slotState.length)) (.bounds "inner.slot_state[slot_id.index()]")
  Prog.modify fun s => { s with slotState := s.slotState.set slot state }

/-- `ModuleAffinityIndexAllocator::_alloc`. -/
def allocWith (forMemory : Option MemoryInModule) (mode : AllocMode) :
    Prog Inner Empty (Option Nat) := do
  match ← orElse (pickAffine build forMemory) (pickAny build mode) with
  | none => pure none
  | some slot => do
    setState slot (.used (mode.affinity forMemory))
    pure (some slot)

def alloc (forMemory : Option MemoryInModule) : Prog Inner Empty (Option Nat) :=
  allocWith build forMemory .anySlot

def allocAffineAndClearAffinity (moduleId memoryIndex : Nat) : Prog Inner Empty (Option Nat) :=
  allocWith build (some ⟨moduleId, memoryIndex⟩) .forceAffineAndClear

def unwrapUsed (slot : Nat) : Prog Inner Empty (Option MemoryInModule) := do
  let s ← Prog.get
  match s.slotState[slot]? with
  | some (.used memory) => pure memory
  | some _ => Prog.panic (.unreachable "free")
  | none => Prog.panic (.bounds "inner.slot_state[index.index()]")

/-- Append a slot to the queue of its affinity, or make a new one. -/
def appendAffine (slot : Nat) : Option MemoryInModule → Prog Inner Empty Link
  | none => pure .empty
  | some memory => do
    let s ← Prog.get
    match s.moduleAffine memory with
    | some list => do
      let (list, link) ← onSlots (list.append .affine slot)
      Prog.modify fun s => { s with
        moduleAffine := Function.update s.moduleAffine memory (some list) }
      pure link
    | none => do
      Prog.modify fun s => { s with
        moduleAffine := Function.update s.moduleAffine memory (some (.new slot)) }
      pure .empty

def free (slot : Nat) : Prog Inner Empty Unit := do
  let affinity ← unwrapUsed slot
  let s ← Prog.get
  let unusedWarmSlots ← addU32 build s.unusedWarmSlots 1
  Prog.modify fun s => { s with unusedWarmSlots }
  let (warm, unusedListLink) ← onSlots (s.warm.append .unused slot)
  Prog.modify fun s => { s with warm }
  let affineListLink ← appendAffine slot affinity
  setState slot (.unusedWarm ⟨affinity, affineListLink, unusedListLink⟩)

end Inner

/-! ### Slots and their links -/

inductive Shape where
  | used (affinity : Option MemoryInModule)
  | cold
  | warm (affinity : Option MemoryInModule)
deriving DecidableEq

def SlotState.shape : SlotState → Shape
  | .used affinity => .used affinity
  | .unusedCold => .cold
  | .unusedWarm u => .warm u.affinity

def shapeOf (states : List SlotState) (slot : Nat) : Option Shape :=
  states[slot]?.map SlotState.shape

/-- A link of a slot; the empty one unless the slot is warm. -/
def linkOf (kind : ListKind) (states : List SlotState) (slot : Nat) : Link :=
  match states[slot]? with
  | some (.unusedWarm u) => u.link kind
  | _ => .empty

def Spells (kind : ListKind) (states : List SlotState) (list : SlotList) (q : List Nat) : Prop :=
  Linked (fun i => (linkOf kind states i).next) (fun i => (linkOf kind states i).prev)
    list.head list.tail q

/-- All that changes between two lists of states are links of one kind of the slots of `q`. -/
structure Relinks (kind : ListKind) (q : List Nat) (st st' : List SlotState) : Prop where
  shape : ∀ i, shapeOf st' i = shapeOf st i
  link : ∀ k i, k ≠ kind ∨ i ∉ q → linkOf k st' i = linkOf k st i

variable {kind : ListKind} {st st' st'' : List SlotState} {q q' l r : List Nat} {slot : Nat}
  {list : SlotList} {affinity : Option MemoryInModule} {E : Empty → List SlotState → Prop}

theorem Unused.link_setLink (u : Unused) (link : Link) (k : ListKind) :
    (u.setLink link kind).link k = if k = kind then link else u.link k := by
  cases kind <;> cases k <;> rfl

theorem shapeOf_warm (h : shapeOf st slot = some (.warm affinity)) :
    ∃ u, st[slot]? = some (.unusedWarm u) ∧ u.affinity = affinity ∧
      ∀ k, linkOf k st slot = u.link k := by
  obtain ⟨s, hs, hshape⟩ := Option.map_eq_some_iff.1 h
  cases s with
  | unusedWarm u =>
    refine ⟨u, hs, by cases hshape; rfl, fun k => ?_⟩
    unfold linkOf
    rw [hs]
  | used a | unusedCold => cases hshape

theorem shapeOf_set {state : SlotState} (hlt : slot < st.length) (i : Nat) :
    shapeOf (st.set slot state) i = if i = slot then some state.shape else shapeOf st i := by
  unfold shapeOf
  by_cases h : i = slot
  · subst h
    rw [if_pos rfl, List.getElem?_set_self hlt, Option.map_some]
  · rw [if_neg h, List.getElem?_set_ne (Ne.symm h)]

variable {k : ListKind}

theorem linkOf_set {state : SlotState} {i : Nat} (h : i ≠ slot) :
    linkOf k (st.set slot state) i = linkOf k st i := by
  unfold linkOf
  rw [List.getElem?_set_ne (Ne.symm h)]

theorem linkOf_set_self {u : Unused} (hlt : slot < st.length) :
    linkOf k (st.set slot (.unusedWarm u)) slot = u.link k := by
  unfold linkOf
  rw [List.getElem?_set_self hlt]

theorem Relinks.refl (kind : ListKind) (q : List Nat) (st : List SlotState) :
    Relinks kind q st st := ⟨fun _ => rfl, fun _ _ _ => rfl⟩

theorem Relinks.trans (h : Relinks kind q st st') (h' : Relinks kind q st' st'') :
    Relinks kind q st st'' :=
  ⟨fun i => (h'.shape i).trans (h.shape i), fun k i hk => (h'.link k i hk).trans (h.link k i hk)⟩

theorem Relinks.mono (h : Relinks kind q st st') (hsub : ∀ i ∈ q, i ∈ q') :
    Relinks kind q' st st' :=
  ⟨h.shape, fun k i hk => h.link k i (hk.imp_right fun hni hi => hni (hsub i hi))⟩

/-- The queues through other slots or other links stay as they are. -/
theorem Relinks.spells (h : Relinks kind q st st') (hs : Spells k st list q')
    (hother : k ≠ kind ∨ ∀ i ∈ q', i ∉ q) : Spells k st' list q' := by
  have hlink : ∀ i ∈ q', linkOf k st' i = linkOf k st i :=
    fun i hi => h.link k i (hother.imp_right fun hq => hq i hi)
  exact Linked.frame hs (fun i hi => by rw [hlink i hi]) fun i hi => by rw [hlink i hi]

theorem unwrapUnused_wp (h : shapeOf st slot = some (.warm affinity)) : wp (unwrapUnused slot)
      (fun u st' => st' = st ∧ u.affinity = affinity ∧ ∀ k, linkOf k st slot = u.link k) E st := by
  obtain ⟨u, hu, haff, hlink⟩ := shapeOf_warm h
  unfold unwrapUnused
  rw [wp_bind, wp_get, hu]
  exact ⟨rfl, haff, hlink⟩

theorem editLink_wp {f : Link → Link} (h : ∃ a, shapeOf st slot = some (.warm a)) :
    wp (editLink kind slot f) (fun _ st' => Relinks kind [slot] st st' ∧ ∀ i, linkOf kind st' i =
        if some slot = some i then f (linkOf kind st i) else linkOf kind st i) E st := by
  obtain ⟨affinity, ha⟩ := h
  obtain ⟨u, hu, -, hlink⟩ := shapeOf_warm ha
  have hlt : slot < st.length := (List.getElem?_eq_some_iff.1 hu).1
  unfold editLink unwrapUnused
  rw [wp_bind, wp_bind, wp_get, hu, wp_pure, wp_modify]
  refine ⟨⟨fun i => ?_, fun k i hk => ?_⟩, fun i => ?_⟩
  · rw [shapeOf_set hlt]
    split_ifs with hi
    · subst hi
      rw [shapeOf, hu]
      cases kind <;> rfl
    · rfl
  · by_cases hi : i = slot
    · subst hi
      rw [linkOf_set_self hlt, Unused.link_setLink, if_neg, hlink]
      exact hk.resolve_right fun hni => hni (List.mem_singleton_self i)
    · exact linkOf_set hi
  · by_cases hi : slot = i
    · subst hi
      rw [if_pos rfl, linkOf_set_self hlt, Unused.link_setLink, if_pos rfl, hlink]
    · rw [if_neg fun h => hi (Option.some.inj h), linkOf_set (Ne.symm hi)]

namespace SlotList

theorem append_wp {id : Nat} (h : ∀ i, list.tail = some i → ∃ a, shapeOf st i = some (.warm a)) :
    wp (append kind list id)
      (fun r st' => r = (⟨if list.tail = none then some id else list.head, some id⟩,
          ⟨list.tail, none⟩) ∧ Relinks kind list.tail.toList st st' ∧
        ∀ i, linkOf kind st' i = if list.tail = some i
          then { linkOf kind st i with next := some id } else linkOf kind st i) E st := by
  unfold append
  cases htail : list.tail with
  | none =>
    exact ⟨by rw [if_pos rfl], .refl _ _ _, fun i => (if_neg (by simp)).symm⟩
  | some tail =>
    refine wp_seq (editLink_wp (h tail htail)) ?_
    rintro _ st' ⟨hrel, hlink⟩
    exact ⟨by rw [if_neg (by simp)], hrel, hlink⟩

theorem relinkNext_wp {link : Link}
    (h : ∀ i, link.next = some i → ∃ a, shapeOf st i = some (.warm a)) :
    wp (relinkNext kind list link)
      (fun list' st' => list' = { list with
          tail := if link.next = none then link.prev else list.tail } ∧
        Relinks kind link.next.toList st st' ∧
        ∀ i, linkOf kind st' i = if link.next = some i
          then { linkOf kind st i with prev := link.prev } else linkOf kind st i) E st := by
  unfold relinkNext
  cases hnext : link.next with
  | none => exact ⟨by rw [if_pos rfl], .refl _ _ _, fun i => (if_neg (by simp)).symm⟩
  | some next =>
    refine wp_seq (editLink_wp (h next hnext)) ?_
    rintro _ st' ⟨hrel, hlink⟩
    exact ⟨by rw [if_neg (by simp)], hrel, hlink⟩

theorem relinkPrev_wp {link : Link}
    (h : ∀ i, link.prev = some i → ∃ a, shapeOf st i = some (.warm a)) :
    wp (relinkPrev kind list link)
      (fun list' st' => list' = { list with
          head := if link.prev = none then link.next else list.head } ∧
        Relinks kind link.prev.toList st st' ∧
        ∀ i, linkOf kind st' i = if link.prev = some i
          then { linkOf kind st i with next := link.next } else linkOf kind st i) E st := by
  unfold relinkPrev
  cases hprev : link.prev with
  | none => exact ⟨by rw [if_pos rfl], .refl _ _ _, fun i => (if_neg (by simp)).symm⟩
  | some prev =>
    refine wp_seq (editLink_wp (h prev hprev)) ?_
    rintro _ st' ⟨hrel, hlink⟩
    exact ⟨by rw [if_neg (by simp)], hrel, hlink⟩

theorem remove_wp (hs : Spells kind st list (l ++ slot :: r))
    (hw : ∀ i ∈ l ++ slot :: r, ∃ a, shapeOf st i = some (.warm a)) :
    wp (remove kind list slot)
      (fun list' st' => Spells kind st' list' (l ++ r) ∧ Relinks kind (l ++ slot :: r) st st')
      E st := by
  have hmem : slot ∈ l ++ slot :: r := by simp
  obtain ⟨a, ha⟩ := hw slot hmem
  unfold remove
  refine wp_seq (unwrapUnused_wp ha) ?_
  rintro u st ⟨rfl, -, hu⟩
  have hnextMem : ∀ i, (u.link kind).next = some i → i ∈ l ++ slot :: r := by
    intro i hi
    rw [← hu] at hi
    exact hs.next_mem hmem hi
  have hprevMem : ∀ i, (u.link kind).prev = some i → i ∈ l ++ slot :: r := by
    intro i hi
    rw [← hu] at hi
    exact hs.prev_mem hmem hi
  refine wp_seq (relinkNext_wp fun i hi => hw i (hnextMem i hi)) ?_
  rintro _ st1 ⟨rfl, hrel1, hlink1⟩
  refine wp_imp (relinkPrev_wp fun i hi => ?_) ?_
  · rw [hrel1.shape]
    exact hw i (hprevMem i hi)
  rintro _ st2 ⟨rfl, hrel2, hlink2⟩
  have hrel : Relinks kind (l ++ slot :: r) st st2 := by
    refine (hrel1.mono fun i hi => hnextMem i ?_).trans (hrel2.mono fun i hi => hprevMem i ?_)
    · exact Option.mem_toList.1 hi
    · exact Option.mem_toList.1 hi
  refine ⟨?_, hrel⟩
  -- The rule for removal clears the links of the slot, which the program leaves as they are.
  have hremoved : Linked (fun i => if i = slot then none else if (linkOf kind st slot).prev = some i
        then (linkOf kind st slot).next else (linkOf kind st i).next)
      (fun i => if i = slot then none else if (linkOf kind st slot).next = some i
        then (linkOf kind st slot).prev else (linkOf kind st i).prev) _ _ (l ++ r) :=
    Linked.remove hs (fun i => rfl) (fun i => rfl) rfl rfl
  have hout : ∀ i ∈ l ++ r, i ≠ slot := by
    rintro i hi rfl
    have hnodup := hs.nodup
    rw [List.nodup_append, List.nodup_cons] at hnodup
    rcases List.mem_append.1 hi with h | h
    · exact hnodup.2.2 i h i (by simp) rfl
    · exact hnodup.2.1.1 h
  rw [hu] at hremoved
  refine Linked.frame hremoved (fun i hi => ?_) fun i hi => ?_
  · rw [hlink2, hlink1, if_neg (hout i hi)]
    split_ifs <;> rfl
  · rw [hlink2, hlink1, if_neg (hout i hi)]
    split_ifs <;> rfl

end SlotList

end Wasmtime.Vm
