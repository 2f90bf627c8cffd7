import Wasmtime.Gc.Rooting

/-!
# Scopes and handles

`System` is a store together with what its host knows: the open scopes with the roots made in each,
the manual handles, the handles of the scopes that were left, and the references of all roots that
are gone. `Step` lets the host do anything that the API offers, with the scopes left in stack order.

In a run where no scope is left with roots to remove while the generation is `u32::MAX`
(`Step.Bounded`), handles resolve as they should and every reference is dropped once
(`handles_resolve`). Without overflow checks the generation starts again from zero after that many
scopes, and an old handle resolves to the new reference at its position (`closed_handle_resolves`).
-/

namespace Wasmtime.Gc.Rooting

open Base Prog List PackedIndex GcRootIndex ManuallyRooted Rooted RootSet Nat

/-! ### What the calls do -/

section

variable {store store' : Store} {handle handle' : GcRootIndex} {gcRef gcRef' : GcRef} {growth : Growth}
  {scope i : Nat}

theorem GcRootIndex.getGcRef_lifo (hid : handle.storeId = store.id) (hi : handle.index < 2 ^ 31) :
    handle.getGcRef store = (.ok (store.gcRoots.lifoRoots[handle.index]?.bind fun entry =>
      if entry.generation == handle.generation then some entry.gcRef else none), store) := by
  unfold getGcRef
  rw [run_get_bind, assert, if_pos (by simpa using hid), run_pure_bind, asLifo_lifo hi]
  rfl

theorem GcRootIndex.getGcRef_manual (hi : i < 2 ^ 31)
    (h : store.gcRoots.manuallyRooted.lookup i = some gcRef) :
    GcRootIndex.getGcRef ⟨store.id, 0, 2 ^ 31 + i⟩ store = (.ok (some gcRef), store) := by
  have hget : Store.withManuallyRooted (Slab.get i) store = (.ok (some gcRef), store) := by
    unfold Store.withManuallyRooted zoom
    rw [Slab.get_run h]
  unfold getGcRef
  rw [run_get_bind, assert, if_pos (by simp), run_pure_bind, asLifo_manual hi, asManual_manual hi]
  dsimp only
  rw [run_bind_ok hget]
  unfold debugAssert
  cases store.build.debugAssertions <;> rfl

theorem Store.cloneGcRef_ok (h : Store.cloneGcRef gcRef store = (.ok gcRef', store')) :
    gcRef' = gcRef ∧ store' = store := by
  unfold Store.cloneGcRef Store.unwrapGcStore at h
  split at h
  · exact pure_ok.1 h
  · obtain ⟨_, _, hu, hp⟩ := bind_ok.1 h
    rw [run_get_bind] at hu
    obtain ⟨-, rfl⟩ := unwrap_ok.1 hu
    exact pure_ok.1 hp

theorem GcRootIndex.tryCloneGcRef_ok (hget : handle.getGcRef store = (.ok (some gcRef), store))
    (h : handle.tryCloneGcRef store = (.ok gcRef', store')) : gcRef' = gcRef ∧ store' = store := by
  unfold tryCloneGcRef tryGcRef at h
  obtain ⟨_, _, ht, hc⟩ := bind_ok.1 h
  rw [run_bind_ok hget] at ht
  obtain ⟨rfl, rfl⟩ := pure_ok.1 ht
  exact Store.cloneGcRef_ok hc

theorem GcRootIndex.tryGcRef_none (hget : handle.getGcRef store = (.ok none, store)) :
    handle.tryGcRef store = (.err unrooted, store) := by
  unfold tryGcRef
  rw [run_bind_ok hget]
  rfl

theorem GcRootIndex.cloneGcRefUnwrap_ok (hget : handle.getGcRef store = (.ok (some gcRef), store))
    (h : handle.cloneGcRefUnwrap store = (.ok gcRef', store')) :
    gcRef' = gcRef ∧ store' = store := by
  unfold cloneGcRefUnwrap at h
  rw [run_bind_ok hget] at h
  exact Store.cloneGcRef_ok h

theorem Rooted.new_ok (h : Rooted.new gcRef store = (.ok handle, store')) :
    store.gcRoots.lifoRoots.length < 2 ^ 31 ∧
    handle = ⟨store.id, store.gcRoots.lifoGeneration, store.gcRoots.lifoRoots.length⟩ ∧
    store' = { store with gcRoots := { store.gcRoots with
      lifoRoots := store.gcRoots.lifoRoots ++ [⟨store.gcRoots.lifoGeneration, gcRef⟩] } } := by
  unfold Rooted.new RootSet.pushLifoRoot at h
  rw [run_get_bind, run_get_bind] at h
  obtain ⟨packed, s1, hp, hr⟩ := bind_ok.1 h
  obtain ⟨hlt, rfl, rfl⟩ := newLifo_ok hp
  rw [run_set_bind] at hr
  obtain ⟨rfl, rfl⟩ := pure_ok.1 hr
  exact ⟨hlt, rfl, rfl⟩

theorem Rooted.new_run (h : store.gcRoots.lifoRoots.length < 2 ^ 31) :
    Rooted.new gcRef store =
      (.ok ⟨store.id, store.gcRoots.lifoGeneration, store.gcRoots.lifoRoots.length⟩,
        { store with gcRoots := { store.gcRoots with
          lifoRoots := store.gcRoots.lifoRoots ++ [⟨store.gcRoots.lifoGeneration, gcRef⟩] } }) := by
  unfold Rooted.new RootSet.pushLifoRoot
  rw [run_get_bind, run_get_bind]
  rw [run_bind_ok (newLifo_run h)]
  rfl

theorem ManuallyRooted.new_ok (h : ManuallyRooted.new growth gcRef store = (.ok handle, store')) :
    ∃ id slab, id < 2 ^ 31 ∧ handle = ⟨store.id, 0, 2 ^ 31 + id⟩ ∧
      store.gcRoots.manuallyRooted.lookup id = none ∧
      slab.lookup = Function.update store.gcRoots.manuallyRooted.lookup id (some gcRef) ∧
      store' = { store with gcRoots := { store.gcRoots with manuallyRooted := slab } } := by
  obtain ⟨id, s1, ha, hr⟩ := bind_ok.1 h
  obtain ⟨slab, halloc, rfl⟩ := zoom_ok.1 ha
  obtain ⟨hnone, hset⟩ := Slab.alloc_ok halloc
  rw [run_get_bind] at hr
  obtain ⟨packed, s2, hp, hpure⟩ := bind_ok.1 hr
  obtain ⟨hlt, rfl, rfl⟩ := newManual_ok hp
  obtain ⟨rfl, rfl⟩ := pure_ok.1 hpure
  exact ⟨id, slab, hlt, rfl, hnone, hset, rfl⟩

theorem ManuallyRooted.new_infallible : (ManuallyRooted.new growth gcRef).Infallible := by
  refine .bind (.zoom Slab.alloc_infallible) fun id => .bind .get fun s => .bind ?_ fun _ => .pure _
  exact .bind (.assert _ _) fun _ => .bind (.assert _ _) fun _ => .pure _

theorem Store.cloneGcRef_infallible : (Store.cloneGcRef gcRef).Infallible := by
  unfold Store.cloneGcRef Store.unwrapGcStore
  split
  · exact .pure _
  · exact .bind (.bind .get fun _ => .unwrap _ _) fun _ => .pure _

theorem Rooted.toManuallyRooted_err {o : Option GcRef} {e : String}
    (hget : handle.getGcRef store = (.ok o, store))
    (h : Rooted.toManuallyRooted growth handle store = (.err e, store')) : store' = store := by
  unfold Rooted.toManuallyRooted GcRootIndex.tryCloneGcRef at h
  cases o with
  | none =>
    have htry := tryGcRef_none hget
    rw [run_bind_err (run_bind_err htry)] at h
    cases h
    rfl
  | some gcRef =>
    have htry : handle.tryGcRef store = (.ok gcRef, store) := run_bind_ok hget
    have heq : (handle.tryGcRef >>= Store.cloneGcRef >>= ManuallyRooted.new growth) store =
        (Store.cloneGcRef gcRef >>= ManuallyRooted.new growth) store := by
      rw [run_bind, run_bind_ok htry]
      rfl
    have hno : (Store.cloneGcRef gcRef >>= ManuallyRooted.new growth).Infallible :=
      .bind Store.cloneGcRef_infallible fun _ => new_infallible
    exact absurd (heq.symm.trans h) (hno _ _ _)

theorem ManuallyRooted.unroot_ok {u : Unit} (hi : i < 2 ^ 31)
    (h : ManuallyRooted.unroot ⟨store.id, 0, 2 ^ 31 + i⟩ store = (.ok u, store')) :
    ∃ gcRef slab gcStore, store.gcRoots.manuallyRooted.lookup i = some gcRef ∧
      slab.lookup = Function.update store.gcRoots.manuallyRooted.lookup i none ∧
      store.gcStore = some gcStore ∧
      store' = { store with
        gcRoots := { store.gcRoots with manuallyRooted := slab }
        gcStore := some (gcStore.dropGcRef gcRef) } := by
  unfold ManuallyRooted.unroot Store.withManuallyRooted Store.unwrapGcStore at h
  rw [run_get_bind] at h
  obtain ⟨-, htail⟩ := assert_bind_ok.1 h
  obtain ⟨id, hid, hr⟩ := unwrap_bind_ok.1 htail
  rw [asManual_manual hi] at hid
  cases hid
  obtain ⟨gcRef, s3, hd, hdrop⟩ := bind_ok.1 hr
  obtain ⟨slab, hdealloc, rfl⟩ := zoom_ok.1 hd
  obtain ⟨hsome, hset⟩ := Slab.dealloc_ok hdealloc
  obtain ⟨gcStore, s4, hg, hmodify⟩ := bind_ok.1 hdrop
  rw [run_get_bind] at hg
  obtain ⟨hstore, rfl⟩ := unwrap_ok.1 hg
  exact ⟨gcRef, slab, gcStore, hsome, hset, hstore, modify_ok.1 hmodify⟩

theorem RootSet.exitLifoScope_ok {u : Unit}
    (h : RootSet.exitLifoScope scope store = (.ok u, store')) :
    (store.gcRoots.lifoRoots.length ≤ scope ∧ store' = store) ∨
    (scope < store.gcRoots.lifoRoots.length ∧
      (store.build.overflowChecks = true → store.gcRoots.lifoGeneration + 1 < u32Size) ∧
      store' = { store with
        gcStore := (store.gcRoots.lifoRoots.drop scope).foldl
          (fun gcStore root => gcStore.map (·.dropGcRef root.gcRef)) store.gcStore
        gcRoots := { store.gcRoots with
          lifoGeneration := (store.gcRoots.lifoGeneration + 1) % u32Size
          lifoRoots := store.gcRoots.lifoRoots.take scope } }) := by
  unfold RootSet.exitLifoScope at h
  rw [run_get_bind] at h
  obtain ⟨_, s1, ha, hr⟩ := bind_ok.1 h
  have hs : s1 = store := by
    unfold debugAssert at ha
    split at ha
    · exact (assert_ok.1 ha).2
    · exact (pure_ok.1 ha).2
  subst hs
  split at hr
  · rename_i hlt
    unfold RootSet.exitLifoScopeSlow at hr
    rw [run_get_bind] at hr
    obtain ⟨generation, s2, hadd, hset⟩ := bind_ok.1 hr
    unfold addU32 at hadd
    split at hadd
    · cases hadd
    · rename_i hchecks
      obtain ⟨rfl, rfl⟩ := pure_ok.1 hadd
      refine .inr ⟨hlt, ?_, set_ok.1 hset⟩
      intro hc
      rw [hc, Bool.true_and, decide_eq_true_eq, not_le] at hchecks
      exact hchecks
  · rename_i hge
    exact .inl ⟨not_lt.1 hge, (pure_ok.1 hr).2⟩

end

/-! ### The host -/

structure Root where
  handle : GcRootIndex
  gcRef : GcRef

def Root.entry (root : Root) : LifoRoot := ⟨root.handle.generation, root.gcRef⟩

def Root.move (f : GcRef → GcRef) (root : Root) : Root := { root with gcRef := f root.gcRef }

/-- An open scope: what `enter_lifo_scope` returned for it, and the roots made in it. -/
structure Scope where
  mark : Nat
  roots : List Root

def Scope.move (f : GcRef → GcRef) (scope : Scope) : Scope :=
  { scope with roots := scope.roots.map (Root.move f) }

def stacked : List Scope → List Root
  | [] => []
  | scope :: outer => stacked outer ++ scope.roots

/-- The store and its host. The outermost scope is that of the store, and is never left. -/
structure System where
  store : Store
  scope : Scope
  outer : List Scope
  manual : List Root
  closed : List Root
  released : List GcRef

namespace System

def init (id : Nat) (build : Build) : System where
  store := { id := id, build := build }
  scope := ⟨0, []⟩
  outer := []
  manual := []
  closed := []
  released := []

/-- The roots of the scopes that are open, in the order in which they were made. -/
def stack (s : System) : List Root := stacked (s.scope :: s.outer)

def addRooted (s : System) (store : Store) (root : Root) : System :=
  { s with store := store, scope := { s.scope with roots := s.scope.roots ++ [root] } }

/-- After a collection that moves every reference by `f`. -/
def moved (s : System) (store : Store) (f : GcRef → GcRef) : System :=
  { s with
    store := store
    scope := s.scope.move f
    outer := s.outer.map (Scope.move f)
    manual := s.manual.map (Root.move f) }

def addManual (s : System) (store : Store) (root : Root) : System :=
  { s with store := store, manual := s.manual ++ [root] }

end System

/-- A reference to an object exists only in a store with a heap. -/
def Store.CanHold (store : Store) (gcRef : GcRef) : Prop := gcRef.isI31 = true ∨ store.gcStore ≠ none

inductive Op where
  | enter
  | exit
  | root (gcRef : GcRef)
  | manual (gcRef : GcRef)
  | toManuallyRooted (root : Root)
  | clone (root : Root)
  | unroot (root : Root)
  | toRooted (root : Root)
  | intoRooted (root : Root)
  | allocate
  | collect (f : GcRef → GcRef)

/-- **A call of the host that returns.** `Rooted` handles may be used after their scope was left;
a manual handle is gone once it is unrooted. -/
inductive Step (growth : Growth) : System → Op → System → Prop
  | enter (s : System) :
      Step growth s .enter { s with
        scope := ⟨s.store.gcRoots.enterLifoScope, []⟩
        outer := s.scope :: s.outer }
  | exit {s : System} {store : Store} {scope : Scope} {outer : List Scope}
      (houter : s.outer = scope :: outer)
      (h : RootSet.exitLifoScope s.scope.mark s.store = (.ok (), store)) :
      Step growth s .exit { s with
        store := store
        scope := scope
        outer := outer
        closed := s.closed ++ s.scope.roots
        released := s.released ++ s.scope.roots.map (·.gcRef) }
  | root {s : System} {store : Store} {gcRef : GcRef} {handle : GcRootIndex}
      (hold : s.store.CanHold gcRef) (h : Rooted.new gcRef s.store = (.ok handle, store)) :
      Step growth s (.root gcRef) (s.addRooted store ⟨handle, gcRef⟩)
  | manual {s : System} {store : Store} {gcRef : GcRef} {handle : GcRootIndex}
      (hold : s.store.CanHold gcRef)
      (h : ManuallyRooted.new growth gcRef s.store = (.ok handle, store)) :
      Step growth s (.manual gcRef) (s.addManual store ⟨handle, gcRef⟩)
  | toManuallyRooted {s : System} {store : Store} {root : Root} {handle : GcRootIndex}
      (hroot : root ∈ s.stack ∨ root ∈ s.closed)
      (h : Rooted.toManuallyRooted growth root.handle s.store = (.ok handle, store)) :
      Step growth s (.toManuallyRooted root) (s.addManual store ⟨handle, root.gcRef⟩)
  | toManuallyRootedErr {s : System} {store : Store} {root : Root} {e : String}
      (hroot : root ∈ s.stack ∨ root ∈ s.closed)
      (h : Rooted.toManuallyRooted growth root.handle s.store = (.err e, store)) :
      Step growth s (.toManuallyRooted root) { s with store := store }
  | clone {s : System} {store : Store} {root : Root} {handle : GcRootIndex}
      (hroot : root ∈ s.manual)
      (h : ManuallyRooted.clone growth root.handle s.store = (.ok handle, store)) :
      Step growth s (.clone root) (s.addManual store ⟨handle, root.gcRef⟩)
  | unroot {s : System} {store : Store} {root : Root} {before after : List Root}
      (hroot : s.manual = before ++ root :: after)
      (h : ManuallyRooted.unroot root.handle s.store = (.ok (), store)) :
      Step growth s (.unroot root) { s with
        store := store
        manual := before ++ after
        released := s.released ++ [root.gcRef] }
  | toRooted {s : System} {store : Store} {root : Root} {handle : GcRootIndex}
      (hroot : root ∈ s.manual)
      (h : ManuallyRooted.toRooted root.handle s.store = (.ok handle, store)) :
      Step growth s (.toRooted root) (s.addRooted store ⟨handle, root.gcRef⟩)
  | intoRooted {s : System} {store : Store} {root : Root} {handle : GcRootIndex}
      {before after : List Root} (hroot : s.manual = before ++ root :: after)
      (h : ManuallyRooted.intoRooted root.handle s.store = (.ok handle, store)) :
      Step growth s (.intoRooted root) { s.addRooted store ⟨handle, root.gcRef⟩ with
        manual := before ++ after
        released := s.released ++ [root.gcRef] }
  | allocate {s : System} (h : s.store.gcStore = none) :
      Step growth s .allocate { s with store := { s.store with gcStore := some {} } }
  | collect {s : System} {store : Store} {f : GcRef → GcRef} (hgc : s.store.gcStore ≠ none)
      (h : RootSet.collect f s.store = (.ok (), store)) :
      Step growth s (.collect f) (s.moved store f)

/-! ### The invariant -/

/-- Each scope knows how many roots there were when it was entered. -/
def Marked : List Scope → Prop
  | [] => True
  | scope :: outer => scope.mark = (stacked outer).length ∧ Marked outer

/-- A handle of a scope that was left: every entry that is or will be at its position has a later
generation. -/
structure Stale (storeId now : Nat) (entries : List LifoRoot) (handle : GcRootIndex) : Prop where
  storeId : handle.storeId = storeId
  index : handle.index < 2 ^ 31
  past : handle.generation < now
  later : ∀ entry, entries[handle.index]? = some entry → handle.generation < entry.generation

structure Placed (storeId now i : Nat) (root : Root) : Prop where
  index : i < 2 ^ 31
  handle : root.handle = ⟨storeId, root.handle.generation, i⟩
  generation : root.handle.generation ≤ now

structure LifoSound (s : System) : Prop where
  marked : Marked (s.scope :: s.outer)
  entries : s.store.gcRoots.lifoRoots = s.stack.map Root.entry
  placed : ∀ i root, s.stack[i]? = some root →
    Placed s.store.id s.store.gcRoots.lifoGeneration i root
  stale : ∀ root ∈ s.closed,
    Stale s.store.id s.store.gcRoots.lifoGeneration s.store.gcRoots.lifoRoots root.handle

structure Kept (storeId : Nat) (slab : Slab GcRef) (root : Root) (id : Nat) : Prop where
  index : id < 2 ^ 31
  handle : root.handle = ⟨storeId, 0, 2 ^ 31 + id⟩
  lookup : slab.lookup id = some root.gcRef

structure ManualSound (s : System) : Prop where
  kept : ∀ root ∈ s.manual, ∃ id, Kept s.store.id s.store.gcRoots.manuallyRooted root id
  held : ∀ id gcRef, s.store.gcRoots.manuallyRooted.lookup id = some gcRef →
    ∃ root ∈ s.manual, Kept s.store.id s.store.gcRoots.manuallyRooted root id
  nodup : (s.manual.map (·.handle)).Nodup

def Store.dropped (store : Store) : List GcRef := store.gcStore.elim [] (·.dropped)

def isObject (gcRef : GcRef) : Bool := !gcRef.isI31

structure DropSound (s : System) : Prop where
  dropped : s.store.dropped = s.released.filter isObject
  unboxed : s.store.gcStore = none → ∀ root, root ∈ s.stack ∨ root ∈ s.manual →
    root.gcRef.isI31 = true

structure Sound (s : System) : Prop where
  lifo : LifoSound s
  manual : ManualSound s
  drops : DropSound s

/-! ### Handles resolve -/

section

variable {s : System} {root : Root} {store : Store} {gcRef : GcRef} {handle : GcRootIndex}
  {growth : Growth} {f : GcRef → GcRef}

theorem Stale.getGcRef {handle : GcRootIndex}
    (h : Stale store.id store.gcRoots.lifoGeneration store.gcRoots.lifoRoots handle) :
    handle.getGcRef store = (.ok none, store) := by
  rw [getGcRef_lifo h.storeId h.index]
  cases he : store.gcRoots.lifoRoots[handle.index]? with
  | none => rfl
  | some entry =>
    have hlater := h.later entry he
    rw [Option.bind_some, if_neg (by rw [beq_iff_eq]; omega)]

theorem LifoSound.getGcRef (h : LifoSound s) (hroot : root ∈ s.stack) :
    root.handle.getGcRef s.store = (.ok (some root.gcRef), s.store) := by
  obtain ⟨i, hi⟩ := getElem?_of_mem hroot
  have hp := h.placed i root hi
  rw [getGcRef_lifo (by rw [hp.handle]) (by rw [hp.handle]; exact hp.index)]
  have hindex : root.handle.index = i := by rw [hp.handle]
  rw [h.entries, getElem?_map, hindex, hi, Option.map_some, Option.bind_some]
  exact congrArg (fun o => (Outcome.ok o, s.store)) (if_pos (beq_self_eq_true _))

theorem ManualSound.getGcRef (h : ManualSound s) (hroot : root ∈ s.manual) :
    root.handle.getGcRef s.store = (.ok (some root.gcRef), s.store) := by
  obtain ⟨id, hk⟩ := h.kept root hroot
  rw [hk.handle]
  exact getGcRef_manual hk.index hk.lookup

/-! ### Each call keeps the invariant -/

theorem System.stack_addRooted : (s.addRooted store root).stack = s.stack ++ [root] :=
  (append_assoc _ _ _).symm

theorem LifoSound.enter (h : LifoSound s) :
    LifoSound { s with
      scope := ⟨s.store.gcRoots.enterLifoScope, []⟩
      outer := s.scope :: s.outer } := by
  have hstack : stacked (⟨s.store.gcRoots.enterLifoScope, []⟩ :: s.scope :: s.outer) = s.stack :=
    append_nil _
  refine ⟨⟨?_, h.marked⟩, h.entries.trans (congrArg _ hstack.symm), ?_, h.stale⟩
  · unfold RootSet.enterLifoScope
    rw [h.entries, length_map]
    rfl
  · intro i root hi
    exact h.placed i root (by rw [← hi]; exact congrArg (·[i]?) hstack.symm)

theorem getElem?_snoc {α : Type} {l : List α} {a b : α} {i : Nat} (h : (l ++ [a])[i]? = some b) :
    l[i]? = some b ∨ (i = l.length ∧ b = a) := by
  rw [getElem?_append] at h
  split_ifs at h with hi
  · exact .inl h
  · obtain ⟨hlt, rfl⟩ := List.getElem?_eq_some_iff.1 h
    rw [length_singleton] at hlt
    exact .inr ⟨by omega, getElem_singleton _⟩

theorem LifoSound.push (h : LifoSound s) (hnew : Rooted.new gcRef s.store = (.ok handle, store)) :
    LifoSound (s.addRooted store ⟨handle, gcRef⟩) := by
  obtain ⟨hlt, rfl, rfl⟩ := new_ok hnew
  refine ⟨h.marked, ?_, ?_, ?_⟩
  · rw [System.stack_addRooted, map_append, ← h.entries]
    rfl
  · intro i root hi
    rw [System.stack_addRooted] at hi
    rcases getElem?_snoc hi with hold | ⟨rfl, rfl⟩
    · exact h.placed i root hold
    · rw [h.entries, length_map] at hlt
      refine ⟨hlt, ?_, le_rfl⟩
      rw [h.entries, length_map]
      rfl
  · intro root hroot
    have hs := h.stale root hroot
    refine ⟨hs.storeId, hs.index, hs.past, ?_⟩
    intro entry hentry
    rcases getElem?_snoc hentry with hold | ⟨-, rfl⟩
    · exact hs.later entry hold
    · exact hs.past

/-- The generation is not at its end when roots are removed, or the overflow is caught. -/
def Bounded (s : System) : Op → Prop
  | .exit => s.scope.mark < s.store.gcRoots.lifoRoots.length →
      s.store.build.overflowChecks = true ∨ s.store.gcRoots.lifoGeneration < u32Max
  | _ => True

variable {u : Unit}

theorem LifoSound.exit {scope : Scope} {outer : List Scope} (h : LifoSound s)
    (houter : s.outer = scope :: outer) (hb : Bounded s .exit)
    (hexit : RootSet.exitLifoScope s.scope.mark s.store = (.ok u, store)) : LifoSound { s with
      store := store
      scope := scope
      outer := outer
      closed := s.closed ++ s.scope.roots
      released := s.released ++ s.scope.roots.map (·.gcRef) } := by
  have hmark : s.scope.mark = (stacked (scope :: outer)).length := houter ▸ h.marked.1
  have hmarked : Marked (scope :: outer) := houter ▸ h.marked.2
  have hstack : s.stack = stacked (scope :: outer) ++ s.scope.roots := by
    rw [← houter]
    rfl
  have hold : ∀ (i : Nat) root, (stacked (scope :: outer))[i]? = some root → s.stack[i]? =
    some root := by
    intro i root hi
    rw [hstack, getElem?_append_left (List.getElem?_eq_some_iff.1 hi).1]
    exact hi
  rcases exitLifoScope_ok hexit with ⟨hle, rfl⟩ | ⟨hlt, hchecks, rfl⟩
  · -- The scope has no roots.
    have hnil : s.scope.roots = [] := by
      rw [h.entries, length_map, hstack, length_append, hmark] at hle
      exact eq_nil_of_length_eq_zero (by omega)
    rw [hnil, append_nil] at hstack
    refine ⟨hmarked, h.entries.trans (congrArg _ hstack), fun i root hi => h.placed i root
      (hold i root hi), ?_⟩
    rw [hnil, append_nil]
    exact h.stale
  · have hgen : (s.store.gcRoots.lifoGeneration + 1) % u32Size =
        s.store.gcRoots.lifoGeneration + 1 := by
      refine mod_eq_of_lt ?_
      rcases hb hlt with hc | hmax
      · exact hchecks hc
      · unfold u32Max at hmax
        unfold u32Size
        omega
    have htake : s.store.gcRoots.lifoRoots.take s.scope.mark =
        (stacked (scope :: outer)).map Root.entry := by
      rw [h.entries, ← map_take, hstack, hmark, take_left]
    refine ⟨hmarked, htake, ?_, ?_⟩
    · intro i root hi
      have hp := h.placed i root (hold i root hi)
      refine ⟨hp.index, hp.handle, ?_⟩
      rw [hgen]
      exact hp.generation.trans (le_succ _)
    · intro root hroot
      rw [hgen]
      rcases mem_append.1 hroot with hclosed | hscope
      · have hs := h.stale root hclosed
        refine ⟨hs.storeId, hs.index, hs.past.trans (lt_succ_self _), ?_⟩
        intro entry hentry
        rw [getElem?_take] at hentry
        split_ifs at hentry
        exact hs.later entry hentry
      · obtain ⟨j, hj⟩ := getElem?_of_mem hscope
        have hi : s.stack[s.scope.mark + j]? = some root := by
          rw [hstack, hmark, getElem?_append_right (Nat.le_add_right _ _), Nat.add_sub_cancel_left]
          exact hj
        have hp := h.placed _ root hi
        have hindex : root.handle.index = s.scope.mark + j := by rw [hp.handle]
        refine ⟨by rw [hp.handle], hindex ▸ hp.index, lt_succ_of_le hp.generation, ?_⟩
        intro entry hentry
        rw [hindex, getElem?_take, if_neg (by omega)] at hentry
        cases hentry

theorem stacked_move (scopes : List Scope) :
    stacked (scopes.map (Scope.move f)) = (stacked scopes).map (Root.move f) := by
  induction scopes with
  | nil => rfl
  | cons scope outer ih =>
    rw [map_cons, stacked, stacked, ih, map_append]
    rfl

theorem Marked.move {scopes : List Scope} (h : Marked scopes) :
    Marked (scopes.map (Scope.move f)) := by
  induction scopes with
  | nil => trivial
  | cons scope outer ih =>
    refine ⟨?_, ih h.2⟩
    rw [stacked_move, length_map]
    exact h.1

theorem System.stack_moved : (s.moved store f).stack = s.stack.map (Root.move f) :=
  stacked_move (s.scope :: s.outer)

theorem RootSet.collect_ok (h : RootSet.collect f s.store = (.ok u, store)) :
    store = { s.store with gcRoots := { s.store.gcRoots with
      lifoRoots := s.store.gcRoots.lifoRoots.map fun root => { root with gcRef := f root.gcRef }
      manuallyRooted := s.store.gcRoots.manuallyRooted.map f } } := by
  unfold RootSet.collect at h
  rw [run_get_bind] at h
  obtain ⟨_, s1, ha, hset⟩ := bind_ok.1 h
  exact set_ok.1 hset

theorem LifoSound.move (h : LifoSound s) (hgc : RootSet.collect f s.store = (.ok u, store)) :
    LifoSound (s.moved store f) := by
  cases collect_ok hgc
  refine ⟨h.marked.move, ?_, ?_, ?_⟩
  · rw [System.stack_moved, map_map]
    refine (congrArg (List.map _) h.entries).trans ?_
    rw [map_map]
    rfl
  · intro i root hi
    rw [System.stack_moved, getElem?_map, Option.map_eq_some_iff] at hi
    obtain ⟨root, hi, rfl⟩ := hi
    have hp := h.placed i root hi
    exact ⟨hp.index, hp.handle, hp.generation⟩
  · intro root hroot
    have hs := h.stale root hroot
    refine ⟨hs.storeId, hs.index, hs.past, ?_⟩
    intro entry hentry
    obtain ⟨entry', hentry', rfl⟩ := Option.map_eq_some_iff.1 (getElem?_map ▸ hentry)
    exact hs.later entry' hentry'

theorem ManualSound.add (h : ManualSound s)
    (hnew : ManuallyRooted.new growth gcRef s.store = (.ok handle, store)) :
    ManualSound (s.addManual store ⟨handle, gcRef⟩) := by
  obtain ⟨id, slab, hid, rfl, hnone, hset, rfl⟩ := new_ok hnew
  have hkeep : ∀ {root : Root} {j : Nat},
      Kept s.store.id s.store.gcRoots.manuallyRooted root j → Kept s.store.id slab root j := by
    intro root j hk
    refine ⟨hk.index, hk.handle, ?_⟩
    rw [hset, Function.update_of_ne, hk.lookup]
    rintro rfl
    cases hnone.symm.trans hk.lookup
  have hself : Kept s.store.id slab ⟨⟨s.store.id, 0, 2 ^ 31 + id⟩, gcRef⟩ id :=
    ⟨hid, rfl, by rw [hset, Function.update_self]⟩
  refine ⟨?_, ?_, ?_⟩
  · intro root hroot
    rcases mem_append.1 hroot with hold | hlast
    · obtain ⟨j, hk⟩ := h.kept root hold
      exact ⟨j, hkeep hk⟩
    · cases mem_singleton.1 hlast
      exact ⟨id, hself⟩
  · intro j gcRef' hj
    by_cases hji : j = id
    · subst hji
      exact ⟨_, mem_append_right _ (mem_singleton.2 rfl), hself⟩
    · change slab.lookup j = _ at hj
      rw [hset, Function.update_of_ne hji] at hj
      obtain ⟨root, hroot, hk⟩ := h.held j gcRef' hj
      exact ⟨root, mem_append_left _ hroot, hkeep hk⟩
  · unfold System.addManual
    rw [map_append, map_singleton, nodup_append]
    refine ⟨h.nodup, nodup_singleton _, ?_⟩
    intro a ha b hb hab
    obtain ⟨root, hroot, rfl⟩ := mem_map.1 ha
    obtain ⟨j, hk⟩ := h.kept root hroot
    cases mem_singleton.1 hb
    rw [hk.handle] at hab
    have hji : j = id := by
      have := congrArg GcRootIndex.index hab
      exact Nat.add_left_cancel this
    rw [← hji, hk.lookup] at hnone
    cases hnone

theorem ManualSound.unroot {before after : List Root} (h : ManualSound s)
    (hroot : s.manual = before ++ root :: after)
    (hunroot : ManuallyRooted.unroot root.handle s.store = (.ok u, store)) : ManualSound { s with
      store := store
      manual := before ++ after
      released := s.released ++ [root.gcRef] } := by
  have hmem : root ∈ s.manual := by
    rw [hroot]
    exact mem_append_right _ mem_cons_self
  obtain ⟨id, hk⟩ := h.kept root hmem
  rw [hk.handle] at hunroot
  obtain ⟨gcRef, slab, gcStore, -, hset, -, rfl⟩ := unroot_ok hk.index hunroot
  have hnodup := h.nodup
  rw [hroot, map_append, map_cons, nodup_middle, nodup_cons, ← map_append] at hnodup
  -- Another handle has another id.
  have hkeep : ∀ {root' : Root} {j : Nat}, j ≠ id →
      Kept s.store.id s.store.gcRoots.manuallyRooted root' j → Kept s.store.id slab root' j := by
    intro root' j hj hk'
    exact ⟨hk'.index, hk'.handle, by rw [hset, Function.update_of_ne hj, hk'.lookup]⟩
  have hother : ∀ {root' : Root} {j : Nat}, root' ∈ before ++ after →
      Kept s.store.id s.store.gcRoots.manuallyRooted root' j → j ≠ id := by
    rintro root' j hroot' hk' rfl
    refine hnodup.1 (mem_map.2 ⟨root', hroot', ?_⟩)
    rw [hk'.handle, hk.handle]
  refine ⟨?_, ?_, hnodup.2⟩
  · intro root' hroot'
    have hold : root' ∈ s.manual := by
      rw [hroot]
      exact perm_middle.symm.subset (mem_cons_of_mem _ hroot')
    obtain ⟨j, hk'⟩ := h.kept root' hold
    exact ⟨j, hkeep (hother hroot' hk') hk'⟩
  · intro j gcRef' hj
    have hji : j ≠ id := by
      rintro rfl
      rw [hset, Function.update_self] at hj
      cases hj
    rw [hset, Function.update_of_ne hji] at hj
    obtain ⟨root', hroot', hk'⟩ := h.held j gcRef' hj
    rw [hroot] at hroot'
    rcases mem_cons.1 (perm_middle.subset hroot') with rfl | hmem'
    · refine absurd ?_ hji
      have := hk'.handle.symm.trans hk.handle
      exact Nat.add_left_cancel (congrArg GcRootIndex.index this)
    · exact ⟨root', hmem', hkeep hji hk'⟩

theorem ManualSound.move (h : ManualSound s) (hgc : RootSet.collect f s.store = (.ok u, store)) :
    ManualSound (s.moved store f) := by
  cases collect_ok hgc
  have hkeep : ∀ {root : Root} {j : Nat}, Kept s.store.id s.store.gcRoots.manuallyRooted root j →
      Kept s.store.id (s.store.gcRoots.manuallyRooted.map f) (root.move f) j := by
    intro root j hk
    exact ⟨hk.index, hk.handle, by rw [Slab.lookup_map, hk.lookup]; rfl⟩
  refine ⟨?_, ?_, ?_⟩
  · intro root hroot
    obtain ⟨root, hold, rfl⟩ := mem_map.1 hroot
    obtain ⟨j, hk⟩ := h.kept root hold
    exact ⟨j, hkeep hk⟩
  · intro j gcRef hj
    change (s.store.gcRoots.manuallyRooted.map f).lookup j = _ at hj
    rw [Slab.lookup_map, Option.map_eq_some_iff] at hj
    obtain ⟨gcRef', hj', rfl⟩ := hj
    obtain ⟨root, hroot, hk⟩ := h.held j gcRef' hj'
    exact ⟨root.move f, mem_map_of_mem hroot, hkeep hk⟩
  · show ((s.manual.map (Root.move f)).map (·.handle)).Nodup
    rw [map_map]
    exact h.nodup

theorem dropGcRef_dropped (gcStore : GcStore) :
    (gcStore.dropGcRef gcRef).dropped = gcStore.dropped ++ [gcRef].filter isObject := by
  unfold GcStore.dropGcRef isObject
  cases h : gcRef.isI31 <;> simp [h]

theorem foldl_dropGcRef (roots : List LifoRoot) (gcStore : Option GcStore) :
    (roots.foldl (fun gcStore root => gcStore.map (·.dropGcRef root.gcRef)) gcStore).elim []
        (·.dropped) =
      gcStore.elim [] fun g => g.dropped ++ (roots.map (·.gcRef)).filter isObject := by
  induction roots generalizing gcStore with
  | nil => cases gcStore <;> simp
  | cons root roots ih =>
    rw [foldl_cons, ih]
    cases gcStore with
    | none => rfl
    | some g =>
      rw [Option.map_some, Option.elim_some, Option.elim_some, dropGcRef_dropped,
        append_assoc, ← filter_append]
      rfl

theorem foldl_dropGcRef_eq_none {roots : List LifoRoot} {gcStore : Option GcStore}
    (h : roots.foldl (fun gcStore root => gcStore.map (·.dropGcRef root.gcRef)) gcStore = none) :
    gcStore = none := by
  induction roots generalizing gcStore with
  | nil => exact h
  | cons root roots ih => exact Option.map_eq_none_iff.1 (ih h)

theorem filter_isObject_eq_nil {roots : List Root} (h : ∀ root ∈ roots, root.gcRef.isI31 = true) :
    (roots.map (·.gcRef)).filter isObject = [] := by
  rw [filter_eq_nil_iff]
  intro gcRef hmem
  obtain ⟨root, hroot, rfl⟩ := mem_map.1 hmem
  unfold isObject
  rw [h root hroot]
  decide

variable (h : DropSound s)
include h

theorem DropSound.push (hold : s.store.CanHold gcRef)
    (hnew : Rooted.new gcRef s.store = (.ok handle, store)) :
    DropSound (s.addRooted store ⟨handle, gcRef⟩) := by
  obtain ⟨-, -, rfl⟩ := new_ok hnew
  refine ⟨h.dropped, ?_⟩
  intro hnone root hroot
  rw [System.stack_addRooted, mem_append, mem_singleton] at hroot
  rcases hroot with (hs | rfl) | hm
  · exact h.unboxed hnone root (.inl hs)
  · exact hold.resolve_right (not_not_intro hnone)
  · exact h.unboxed hnone root (.inr hm)

theorem DropSound.add (hold : s.store.CanHold gcRef)
    (hnew : ManuallyRooted.new growth gcRef s.store = (.ok handle, store)) :
    DropSound (s.addManual store ⟨handle, gcRef⟩) := by
  obtain ⟨id, slab, -, -, -, -, rfl⟩ := new_ok hnew
  refine ⟨h.dropped, ?_⟩
  rintro hnone root (hs | hm)
  · exact h.unboxed hnone root (.inl hs)
  · rcases mem_append.1 hm with hm | hlast
    · exact h.unboxed hnone root (.inr hm)
    · cases mem_singleton.1 hlast
      exact hold.resolve_right (not_not_intro hnone)

theorem DropSound.canHold (hroot : root ∈ s.stack ∨ root ∈ s.manual) :
    s.store.CanHold root.gcRef := by
  by_cases hnone : s.store.gcStore = none
  · exact .inl (h.unboxed hnone root hroot)
  · exact .inr hnone

theorem DropSound.exit {scope : Scope} {outer : List Scope} (hl : LifoSound s)
    (houter : s.outer = scope :: outer)
    (hexit : RootSet.exitLifoScope s.scope.mark s.store = (.ok u, store)) : DropSound { s with
      store := store
      scope := scope
      outer := outer
      closed := s.closed ++ s.scope.roots
      released := s.released ++ s.scope.roots.map (·.gcRef) } := by
  have hmark : s.scope.mark = (stacked (scope :: outer)).length := houter ▸ hl.marked.1
  have hstack : s.stack = stacked (scope :: outer) ++ s.scope.roots := by
    rw [← houter]
    rfl
  have hinner : ∀ root ∈ s.scope.roots, root ∈ s.stack := by
    intro root hroot
    rw [hstack]
    exact mem_append_right _ hroot
  have houtside : ∀ root ∈ stacked (scope :: outer), root ∈ s.stack := by
    intro root hroot
    rw [hstack]
    exact mem_append_left _ hroot
  have hdrained : (s.store.gcRoots.lifoRoots.drop s.scope.mark).map (·.gcRef) =
      s.scope.roots.map (·.gcRef) := by
    rw [hl.entries, hstack, hmark, ← map_drop, drop_left, map_map]
    rfl
  rcases exitLifoScope_ok hexit with ⟨hle, rfl⟩ | ⟨hlt, -, rfl⟩
  · rw [drop_eq_nil_of_le hle, map_nil] at hdrained
    refine ⟨?_, fun hnone root hroot => h.unboxed hnone root (hroot.imp_left (houtside root))⟩
    rw [← hdrained, append_nil]
    exact h.dropped
  · refine ⟨?_, fun hnone root hroot => h.unboxed (foldl_dropGcRef_eq_none hnone) root
      (hroot.imp_left (houtside root))⟩
    unfold Store.dropped
    rw [foldl_dropGcRef, hdrained, filter_append, ← h.dropped]
    unfold Store.dropped
    cases hgc : s.store.gcStore with
    | none =>
      rw [filter_isObject_eq_nil fun root hroot => h.unboxed hgc root (.inl (hinner root hroot))]
      rfl
    | some gcStore => rfl

theorem DropSound.unroot {before after : List Root} (hm : ManualSound s)
    (hroot : s.manual = before ++ root :: after)
    (hunroot : ManuallyRooted.unroot root.handle s.store = (.ok u, store)) : DropSound { s with
      store := store
      manual := before ++ after
      released := s.released ++ [root.gcRef] } := by
  have hmem : root ∈ s.manual := by
    rw [hroot]
    exact mem_append_right _ mem_cons_self
  obtain ⟨id, hk⟩ := hm.kept root hmem
  rw [hk.handle] at hunroot
  obtain ⟨gcRef, slab, gcStore, hsome, -, hgc, rfl⟩ := unroot_ok hk.index hunroot
  cases hsome.symm.trans hk.lookup
  refine ⟨?_, fun hnone => by cases hnone⟩
  have hold := h.dropped
  unfold Store.dropped at hold ⊢
  rw [hgc, Option.elim_some] at hold
  rw [filter_append, ← hold]
  exact dropGcRef_dropped gcStore

omit h

end

/-! ### Runs -/

section

variable {growth : Growth} {s s' : System} {op : Op}

variable {handle : GcRootIndex} {store : Store}

theorem Sound.push {gcRef : GcRef} (h : Sound s) (hold : s.store.CanHold gcRef)
    (hnew : Rooted.new gcRef s.store = (.ok handle, store)) :
    Sound (s.addRooted store ⟨handle, gcRef⟩) := by
  refine ⟨h.lifo.push hnew, ?_, h.drops.push hold hnew⟩
  obtain ⟨-, -, rfl⟩ := new_ok hnew
  exact ⟨h.manual.kept, h.manual.held, h.manual.nodup⟩

theorem Sound.add {gcRef : GcRef} (h : Sound s) (hold : s.store.CanHold gcRef)
    (hnew : ManuallyRooted.new growth gcRef s.store = (.ok handle, store)) :
    Sound (s.addManual store ⟨handle, gcRef⟩) := by
  refine ⟨?_, h.manual.add hnew, h.drops.add hold hnew⟩
  obtain ⟨id, slab, -, -, -, -, rfl⟩ := new_ok hnew
  exact ⟨h.lifo.marked, h.lifo.entries, h.lifo.placed, h.lifo.stale⟩

theorem Sound.unroot {root : Root} {before after : List Root} {u : Unit} (h : Sound s)
    (hroot : s.manual = before ++ root :: after)
    (hunroot : ManuallyRooted.unroot root.handle s.store = (.ok u, store)) : Sound { s with
      store := store
      manual := before ++ after
      released := s.released ++ [root.gcRef] } := by
  refine ⟨?_, h.manual.unroot hroot hunroot, h.drops.unroot h.manual hroot hunroot⟩
  obtain ⟨id, hk⟩ := h.manual.kept root (hroot ▸ mem_append_right _ mem_cons_self)
  rw [hk.handle] at hunroot
  obtain ⟨gcRef, slab, gcStore, -, -, -, rfl⟩ := unroot_ok hk.index hunroot
  exact ⟨h.lifo.marked, h.lifo.entries, h.lifo.placed, h.lifo.stale⟩

theorem Sound.toRooted {root : Root} (h : Sound s) (hroot : root ∈ s.manual)
    (hto : ManuallyRooted.toRooted root.handle s.store = (.ok handle, store)) :
    Sound (s.addRooted store ⟨handle, root.gcRef⟩) := by
  unfold ManuallyRooted.toRooted at hto
  rw [run_get_bind] at hto
  obtain ⟨-, htail⟩ := assert_bind_ok.1 hto
  obtain ⟨gcRef, s2, hclone, hnew⟩ := bind_ok.1 htail
  obtain ⟨rfl, rfl⟩ := cloneGcRefUnwrap_ok (h.manual.getGcRef hroot) hclone
  exact h.push (h.drops.canHold (.inr hroot)) hnew

theorem Sound.step (h : Sound s) (hb : Bounded s op) (hstep : Step growth s op s') : Sound s' := by
  cases hstep with
  | enter =>
    refine ⟨h.lifo.enter, ⟨h.manual.kept, h.manual.held, h.manual.nodup⟩, h.drops.dropped, ?_⟩
    intro hnone root hroot
    exact h.drops.unboxed hnone root (hroot.imp_left fun hs => by
      rcases mem_append.1 hs with hs | hs
      · exact hs
      · cases hs)
  | exit houter hexit =>
    refine ⟨h.lifo.exit houter hb hexit, ?_, h.drops.exit h.lifo houter hexit⟩
    rcases exitLifoScope_ok hexit with ⟨-, rfl⟩ | ⟨-, -, rfl⟩
    · exact ⟨h.manual.kept, h.manual.held, h.manual.nodup⟩
    · exact ⟨h.manual.kept, h.manual.held, h.manual.nodup⟩
  | root hold hnew => exact h.push hold hnew
  | manual hold hnew => exact h.add hold hnew
  | toManuallyRooted hroot hto =>
    obtain ⟨gcRef, s1, hclone, hnew⟩ := bind_ok.1 hto
    rcases hroot with hs | hclosed
    · obtain ⟨rfl, rfl⟩ := tryCloneGcRef_ok (h.lifo.getGcRef hs) hclone
      exact h.add (h.drops.canHold (.inl hs)) hnew
    · -- A handle of a scope that was left is refused.
      obtain ⟨_, _, htry, -⟩ := bind_ok.1 hclone
      cases (tryGcRef_none (h.lifo.stale _ hclosed).getGcRef).symm.trans htry
  | toManuallyRootedErr hroot hto =>
    rcases hroot with hs | hclosed
    · cases toManuallyRooted_err (h.lifo.getGcRef hs) hto
      exact h
    · cases toManuallyRooted_err (h.lifo.stale _ hclosed).getGcRef hto
      exact h
  | clone hroot hclone =>
    obtain ⟨gcRef, s1, hget, hnew⟩ := bind_ok.1 hclone
    obtain ⟨rfl, rfl⟩ := cloneGcRefUnwrap_ok (h.manual.getGcRef hroot) hget
    exact h.add (h.drops.canHold (.inr hroot)) hnew
  | unroot hroot hunroot => exact h.unroot hroot hunroot
  | toRooted hroot hto => exact h.toRooted hroot hto
  | intoRooted hroot hinto =>
    unfold ManuallyRooted.intoRooted at hinto
    rw [run_get_bind] at hinto
    obtain ⟨-, htail⟩ := assert_bind_ok.1 hinto
    obtain ⟨rooted, s2, hto, hlast⟩ := bind_ok.1 htail
    obtain ⟨u, s3, hunroot, hpure⟩ := bind_ok.1 hlast
    obtain ⟨rfl, rfl⟩ := pure_ok.1 hpure
    have hmid := h.toRooted (hroot ▸ mem_append_right _ mem_cons_self) hto
    exact hmid.unroot hroot hunroot
  | allocate hnone =>
    refine ⟨⟨h.lifo.marked, h.lifo.entries, h.lifo.placed, h.lifo.stale⟩,
      ⟨h.manual.kept, h.manual.held, h.manual.nodup⟩, ?_, fun hn => by cases hn⟩
    rw [← h.drops.dropped]
    unfold Store.dropped
    rw [hnone]
    rfl
  | collect hgc hcollect =>
    refine ⟨h.lifo.move hcollect, h.manual.move hcollect, ?_, ?_⟩
    · cases collect_ok hcollect
      exact h.drops.dropped
    · cases collect_ok hcollect
      intro hnone
      exact absurd hnone hgc

theorem Sound.init (id : Nat) (build : Build) : Sound (.init id build) where
  lifo := ⟨⟨rfl, trivial⟩, rfl, (fun _ _ h => by cases h), (fun _ h => by cases h)⟩
  manual := ⟨(fun _ h => by cases h), (fun _ _ h => by cases h), nodup_nil⟩
  drops := ⟨rfl, (fun _ _ h => by rcases h with h | h <;> cases h)⟩

end

/-- **What handles are for.** A reference that left the root set was dropped, in the order of
`released`, and those that are still there are the references of the roots that are open or held. -/
structure Resolves (s : System) : Prop where
  rooted : ∀ scope ∈ s.scope :: s.outer, ∀ root ∈ scope.roots,
    root.handle.getGcRef s.store = (.ok (some root.gcRef), s.store)
  closed : ∀ root ∈ s.closed,
    root.handle.tryGcRef s.store = (.err GcRootIndex.unrooted, s.store)
  manual : ∀ root ∈ s.manual,
    root.handle.getGcRef s.store = (.ok (some root.gcRef), s.store)
  dropped : s.store.dropped = s.released.filter isObject
  lifoHeld : s.store.gcRoots.lifoRoots.map (·.gcRef) = s.stack.map (·.gcRef)
  manualHeld : ∀ id gcRef, s.store.gcRoots.manuallyRooted.lookup id = some gcRef →
    ∃ root ∈ s.manual, root.handle.index = 2 ^ 31 + id ∧ root.gcRef = gcRef

theorem mem_stacked {scopes : List Scope} {scope : Scope} {root : Root} (hs : scope ∈ scopes)
    (hr : root ∈ scope.roots) : root ∈ stacked scopes := by
  induction scopes with
  | nil => cases hs
  | cons inner outer ih =>
    rcases mem_cons.1 hs with rfl | hs
    · exact mem_append_right _ hr
    · exact mem_append_left _ (ih hs)

theorem Sound.resolves {s : System} (h : Sound s) : Resolves s where
  rooted := fun _ hs _ hr => h.lifo.getGcRef (mem_stacked hs hr)
  closed := fun root hr => tryGcRef_none (h.lifo.stale root hr).getGcRef
  manual := fun _ hr => h.manual.getGcRef hr
  dropped := h.drops.dropped
  lifoHeld := by
    rw [h.lifo.entries, map_map]
    rfl
  manualHeld := by
    intro id gcRef hid
    obtain ⟨root, hroot, hk⟩ := h.manual.held id gcRef hid
    exact ⟨root, hroot, by rw [hk.handle], Option.some.inj (hk.lookup.symm.trans hid)⟩

/-- **Handles resolve until their scope is left or they are unrooted, and never after, in every run
in which the generation does not come round.** -/
theorem handles_resolve {growth : Growth} {id : Nat} {build : Build} {tr : List Op} {s : System}
    (h : Trace (fun s op s' => Bounded s op ∧ Step growth s op s') (.init id build) tr s) :
    Resolves s := by
  have hsound : Sound s :=
    Trace.invariant (Sound.init id build) (fun _ _ _ hs hstep => hs.step hstep.1 hstep.2) h
  exact hsound.resolves

/-! ### The generation comes round -/

def tight : Growth where
  reserve len capacity additional := max capacity (len + additional)
  room _ _ _ := le_max_right _ _

def release : Build := ⟨false, false⟩

def rounds (n : Nat) : System where
  store := { id := 0, build := release, gcRoots := { lifoGeneration := n % u32Size } }
  scope := ⟨0, []⟩
  outer := []
  manual := []
  closed := (List.range n).map fun k => ⟨⟨0, k % u32Size, 0⟩, .i31 0⟩
  released := List.replicate n (.i31 0)

def rounds.entered (n : Nat) : System := { rounds n with outer := [⟨0, []⟩] }

def rounds.pushed (n : Nat) : System :=
  { rounds.entered n with
    store := { id := 0, build := release, gcRoots := {
      lifoGeneration := n % u32Size
      lifoRoots := [⟨n % u32Size, .i31 0⟩] } }
    scope := ⟨0, [⟨⟨0, n % u32Size, 0⟩, .i31 0⟩]⟩ }

theorem step_entered (n : Nat) : Step tight (rounds n) .enter (rounds.entered n) := .enter _

theorem step_pushed (n : Nat) : Step tight (rounds.entered n) (.root (.i31 0)) (rounds.pushed n) :=
  .root (.inl rfl) (new_run (Nat.two_pow_pos 31))

theorem step_rounds (n : Nat) : Step tight (rounds.pushed n) .exit (rounds (n + 1)) := by
  have hgen : (n % u32Size + 1) % u32Size = (n + 1) % u32Size := mod_add_mod _ _ _
  have hclosed : (rounds n).closed ++ [⟨⟨0, n % u32Size, 0⟩, .i31 0⟩] =
    (rounds (n + 1)).closed := by
    unfold rounds
    rw [range_succ, map_append, map_singleton]
  have hreleased : (rounds n).released ++ [.i31 0] = (rounds (n + 1)).released :=
    replicate_succ'.symm
  have hexit := @Step.exit tight (rounds.pushed n) _ ⟨0, []⟩ [] rfl rfl
  have hend : rounds (n + 1) = { rounds (n + 1) with
      store := { id := 0, build := release, gcRoots := {
        lifoGeneration := (n % u32Size + 1) % u32Size } }
      closed := (rounds n).closed ++ [⟨⟨0, n % u32Size, 0⟩, .i31 0⟩]
      released := (rounds n).released ++ [.i31 0] } := by
    rw [hgen, hclosed, hreleased]
    rfl
  rw [hend]
  exact hexit

theorem trace_rounds (n : Nat) : ∃ tr, Trace (Step tight) (.init 0 release) tr (rounds n) := by
  induction n with
  | zero => exact ⟨[], .nil _⟩
  | succ n ih =>
    obtain ⟨tr, htr⟩ := ih
    exact ⟨_, ((htr.snoc (step_entered n)).snoc (step_pushed n)).snoc (step_rounds n)⟩

def rounds.last (n : Nat) : System := (rounds n).addRooted
    { id := 0, build := release, gcRoots := {
      lifoGeneration := n % u32Size
      lifoRoots := [⟨n % u32Size, .i31 1⟩] } }
    ⟨⟨0, n % u32Size, 0⟩, .i31 1⟩

theorem step_last (n : Nat) : Step tight (rounds n) (.root (.i31 1)) (rounds.last n) :=
  .root (.inl rfl) (new_run (Nat.two_pow_pos 31))

theorem mem_closed_last {n : Nat} (h : 0 < n) :
    (⟨⟨0, 0, 0⟩, .i31 0⟩ : Root) ∈ (rounds.last n).closed :=
  mem_map.2 ⟨0, mem_range.2 h, by rw [zero_mod]⟩

theorem getGcRef_last {n : Nat} (h : n % u32Size = 0) :
    GcRootIndex.getGcRef ⟨0, 0, 0⟩ (rounds.last n).store =
      (.ok (some (.i31 1)), (rounds.last n).store) := by
  rw [getGcRef_lifo rfl (Nat.two_pow_pos 31)]
  exact congrArg (fun o => (Outcome.ok o, (rounds.last n).store)) (if_pos (beq_iff_eq.2 h))

/-- Without overflow checks the first handle of a store stands for another reference once 2³²
scopes have been left. -/
theorem closed_handle_resolves :
    ∃ tr s, Trace (Step tight) (.init 0 release) tr s ∧ ∃ root ∈ s.closed,
      root.gcRef = .i31 0 ∧ root.handle.getGcRef s.store = (.ok (some (.i31 1)), s.store) := by
  obtain ⟨tr, htr⟩ := trace_rounds u32Size
  have hpos : 0 < u32Size := Nat.two_pow_pos 32
  exact ⟨_, _, htr.snoc (step_last u32Size), _, mem_closed_last hpos, rfl,
    getGcRef_last (mod_self u32Size)⟩

theorem handles_resolve_second_scope :
    ∃ tr s, Trace (fun s op s' => Bounded s op ∧ Step tight s op s') (.init 0 release) tr s ∧
      s.closed.length = 1 ∧ s.stack.length = 1 ∧ Resolves s := by
  have henter : Bounded (rounds 0) .enter ∧ Step tight _ _ _ := ⟨trivial, step_entered 0⟩
  have hpush : Bounded (rounds.entered 0) (.root (.i31 0)) ∧ Step tight _ _ _ :=
    ⟨trivial, step_pushed 0⟩
  have hexit : Bounded (rounds.pushed 0) .exit ∧ Step tight _ _ _ :=
    ⟨fun _ => .inr (by decide), step_rounds 0⟩
  have hlast : Bounded (rounds 1) (.root (.i31 1)) ∧ Step tight _ _ _ := ⟨trivial, step_last 1⟩
  have htr : Trace (fun s op s' => Bounded s op ∧ Step tight s op s') (.init 0 release) _ _ :=
    ((((Trace.nil _).snoc henter).snoc hpush).snoc hexit).snoc hlast
  exact ⟨_, _, htr, rfl, rfl, handles_resolve htr⟩

end Wasmtime.Gc.Rooting
