import Wasmtime.Base.Prog

/-!
# A slab of values

`Slab α` hands out ids for values and takes them back. A vacant entry holds the next one of the free
list; the vector behind the entries meets every request for room (`Growth`).

Seen from outside a slab is the partial map `lookup` of its ids, and `alloc_ok` and `dealloc_ok` say
what an allocation and a deallocation do to it.
-/

namespace Wasmtime

open Base Prog List Function

inductive Entry (α : Type) where
  | occupied (value : α)
  | free (nextFree : Option Nat)

def Entry.value {α : Type} : Entry α → Option α
  | occupied value => some value
  | free _ => none

def Entry.map {α : Type} (f : α → α) : Entry α → Entry α
  | occupied value => occupied (f value)
  | free nextFree => free nextFree

/-- How a vector grows: its capacity after `reserve`, from its length, its capacity and the
number of elements that room is asked for. -/
structure Growth where
  reserve : Nat → Nat → Nat → Nat
  room : ∀ len capacity additional, len + additional ≤ reserve len capacity additional

/-- An id is the index of an entry. -/
structure Slab (α : Type) where
  entries : List (Entry α) := []
  capacity : Nat := 0
  free : Option Nat := none
  len : Nat := 0

namespace Slab

variable {α ε : Type}

/-- `MAX_CAPACITY`, which is `u32::MAX - 1`. -/
def maxCapacity : Nat := 2 ^ 32 - 2

def newIndex (index : Nat) : Prog (Slab α) ε Nat := do
  assert (index ≤ maxCapacity) (.assert "index <= MAX_CAPACITY")
  pure index

def reserve (growth : Growth) (additional : Nat) : Prog (Slab α) ε Unit := do
  let s ← Prog.get
  assert (s.len ≤ s.capacity) (.assert "cap >= len")
  if additional ≤ s.capacity - s.len then
    pure ()
  else do
    let capacity := growth.reserve s.entries.length s.capacity additional
    Prog.set { s with capacity := capacity }
    assert (capacity ≤ maxCapacity) (.assert "capacity <= MAX_CAPACITY")

def doubleCapacity (growth : Growth) : Prog (Slab α) ε Unit := do
  let s ← Prog.get
  reserve growth (max s.capacity 16)

def tryAllocIndex : Prog (Slab α) ε (Option Nat) := do
  let s ← Prog.get
  match s.free with
  | some index => do
    Prog.set { s with free := none }
    pure (some index)
  | none =>
    if s.entries.length < s.capacity then do
      let index ← newIndex s.entries.length
      Prog.set { s with entries := s.entries ++ [.free none] }
      pure (some index)
    else
      pure none

/-- The rest of `try_alloc`, once there is an entry for the value. -/
def fill (index : Nat) (value : α) : Prog (Slab α) ε Nat := do
  let s ← Prog.get
  let entry ← unwrap s.entries[index]? (.bounds "self.entries[index]")
  match entry with
  | .occupied _ => Prog.panic (.unreachable "try_alloc")
  | .free nextFree => do
    Prog.set { s with
      free := nextFree
      entries := s.entries.set index (.occupied value)
      len := s.len + 1 }
    pure index

def tryAlloc (value : α) : Prog (Slab α) α Nat := do
  let index ← tryAllocIndex
  match index with
  | some index => fill index value
  | none => Prog.err value

def allocSlow (growth : Growth) (value : α) : Prog (Slab α) α Nat := do
  doubleCapacity growth
  expect (tryAlloc value) (.unwrap "alloc_slow")

def alloc (growth : Growth) (value : α) : Prog (Slab α) ε Nat := fun s =>
  match tryAlloc value s with
  | (.ok id, s') => (.ok id, s')
  | (.panic p, s') => (.panic p, s')
  | (.err value, s') =>
    match allocSlow growth value s' with
    | (.ok id, s'') => (.ok id, s'')
    | (.panic p, s'') => (.panic p, s'')
    | (.err _, s'') => (.panic (.unwrap "alloc_slow"), s'')

def get (id : Nat) : Prog (Slab α) ε (Option α) := do
  let s ← Prog.get
  let entry ← unwrap s.entries[id]? (.unwrap "id from different slab")
  match entry with
  | .occupied value => pure (some value)
  | .free _ => pure none

def dealloc (id : Nat) : Prog (Slab α) ε α := do
  let s ← Prog.get
  let entry ← unwrap s.entries[id]? (.unwrap "id from a different slab")
  match entry with
  | .free _ => do
    Prog.set { s with entries := s.entries.set id (.free none) }
    Prog.panic (.assert "attempt to deallocate an entry that is already vacant")
  | .occupied value => do
    Prog.set { s with
      free := some id
      entries := s.entries.set id (.free s.free)
      len := s.len - 1 }
    pure value

/-- Write to every value, through `iter_mut`. -/
def map (f : α → α) (s : Slab α) : Slab α := { s with entries := s.entries.map (Entry.map f) }

/-! ### The map of a slab -/

def lookup (s : Slab α) (id : Nat) : Option α := s.entries[id]?.bind Entry.value

variable {s s' : Slab α} {id : Nat} {value : α} {growth : Growth}

theorem lookup_eq_some : s.lookup id = some value ↔ s.entries[id]? = some (.occupied value) := by
  unfold lookup
  rw [Option.bind_eq_some_iff]
  constructor
  · rintro ⟨entry, he, hv⟩
    cases entry with
    | free nextFree => cases hv
    | occupied v =>
      cases hv
      exact he
  · intro h
    exact ⟨_, h, rfl⟩

theorem lookup_set {entry : Entry α} {free : Option Nat} {capacity len : Nat}
    (h : id < s.entries.length) :
    (⟨s.entries.set id entry, capacity, free, len⟩ : Slab α).lookup =
      update s.lookup id entry.value := by
  funext j
  unfold lookup
  rw [getElem?_set, update_apply]
  by_cases hj : id = j
  · subst hj
    rw [if_pos rfl, if_pos h, if_pos rfl]
    rfl
  · rw [if_neg hj, if_neg (Ne.symm hj)]

theorem lookup_map (f : α → α) : (s.map f).lookup id = (s.lookup id).map f := by
  unfold lookup map
  rw [getElem?_map]
  cases s.entries[id]? with
  | none => rfl
  | some entry => cases entry <;> rfl

theorem lookup_push_vacant {capacity len : Nat} {free next : Option Nat} :
    (⟨s.entries ++ [.free next], capacity, free, len⟩ : Slab α).lookup = s.lookup := by
  funext j
  unfold lookup
  rcases lt_trichotomy j s.entries.length with hj | rfl | hj
  · rw [getElem?_append_left hj]
  · rw [getElem?_concat_length, getElem?_eq_none le_rfl]
    rfl
  · rw [getElem?_eq_none (by simp; omega), getElem?_eq_none (by omega)]

theorem lookup_reserve_ok {n : Nat} {u : Unit}
    (h : (reserve growth n : Prog (Slab α) ε Unit) s = (.ok u, s')) : s'.lookup = s.lookup := by
  unfold reserve at h
  rw [run_get_bind] at h
  obtain ⟨-, hr⟩ := assert_bind_ok.1 h
  split at hr
  · rw [(pure_ok.1 hr).2]
  · dsimp only at hr
    rw [run_set_bind] at hr
    rw [(assert_ok.1 hr).2]
    rfl

theorem tryAllocIndex_cases (s : Slab α) :
    (∃ o s', (tryAllocIndex : Prog (Slab α) ε (Option Nat)) s = (.ok o, s') ∧
      s'.lookup = s.lookup) ∨
    ∃ p s', (tryAllocIndex : Prog (Slab α) ε (Option Nat)) s = (.panic p, s') := by
  unfold tryAllocIndex
  rw [run_get_bind]
  cases hf : s.free with
  | some index => exact .inl ⟨_, _, rfl, rfl⟩
  | none =>
    split_ifs
    · unfold newIndex assert
      split_ifs
      · exact .inl ⟨_, _, rfl, lookup_push_vacant⟩
      · exact .inr ⟨_, _, rfl⟩
    · exact .inl ⟨_, _, rfl, rfl⟩

theorem fill_cases (index : Nat) (value : α) (s : Slab α) :
    (∃ s', (fill index value : Prog (Slab α) ε Nat) s = (.ok index, s') ∧
      s.lookup index = none ∧ s'.lookup = update s.lookup index (some value)) ∨
    ∃ p s', (fill index value : Prog (Slab α) ε Nat) s = (.panic p, s') := by
  unfold fill
  rw [run_get_bind]
  cases he : s.entries[index]? with
  | none => exact .inr ⟨_, _, rfl⟩
  | some entry =>
    cases entry with
    | occupied v => exact .inr ⟨_, _, rfl⟩
    | free nextFree =>
      refine .inl ⟨_, rfl, ?_, lookup_set (List.getElem?_eq_some_iff.1 he).1⟩
      unfold lookup
      rw [he]
      rfl

theorem tryAlloc_cases (value : α) (s : Slab α) :
    (∃ id s', tryAlloc value s = (.ok id, s') ∧ s.lookup id = none ∧
      s'.lookup = update s.lookup id (some value)) ∨
    (∃ s', tryAlloc value s = (.err value, s') ∧ s'.lookup = s.lookup) ∨
    ∃ p s', tryAlloc value s = (.panic p, s') := by
  unfold tryAlloc
  rcases tryAllocIndex_cases s with ⟨o, s1, hi, hsame⟩ | ⟨p, s1, hi⟩
  · rw [run_bind_ok hi]
    cases o with
    | none => exact .inr (.inl ⟨s1, rfl, hsame⟩)
    | some index =>
      rcases fill_cases index value s1 with ⟨s2, hfill, hnone, hset⟩ | ⟨p, s2, hfill⟩
      · exact .inl ⟨index, s2, hfill, hsame ▸ hnone, hsame ▸ hset⟩
      · exact .inr (.inr ⟨p, s2, hfill⟩)
  · exact .inr (.inr ⟨p, s1, run_bind_panic hi⟩)

theorem tryAlloc_ok (h : tryAlloc value s = (.ok id, s')) :
    s.lookup id = none ∧ s'.lookup = update s.lookup id (some value) := by
  rcases tryAlloc_cases value s with ⟨id', t, ht, hmap⟩ | ⟨t, ht, -⟩ | ⟨p, t, ht⟩
  · cases h.symm.trans ht
    exact hmap
  · cases h.symm.trans ht
  · cases h.symm.trans ht

theorem allocSlow_ok (h : allocSlow growth value s = (.ok id, s')) :
    s.lookup id = none ∧ s'.lookup = update s.lookup id (some value) := by
  unfold allocSlow doubleCapacity at h
  obtain ⟨_, s1, hd, ht⟩ := bind_ok.1 h
  rw [run_get_bind] at hd
  rw [← lookup_reserve_ok hd]
  exact tryAlloc_ok (expect_ok.1 ht)

/-- **An allocation puts the value under an id that was vacant.** -/
theorem alloc_ok (h : (alloc growth value : Prog (Slab α) ε Nat) s = (.ok id, s')) :
    s.lookup id = none ∧ s'.lookup = update s.lookup id (some value) := by
  unfold alloc at h
  rcases tryAlloc_cases value s with ⟨id', t, ht, hmap⟩ | ⟨t, ht, hsame⟩ | ⟨p, t, ht⟩
  · rw [ht] at h
    cases h
    exact hmap
  · rw [ht] at h
    dsimp only at h
    rcases hslow : allocSlow growth value t with ⟨o, t'⟩
    rw [hslow] at h
    cases o with
    | ok id' =>
      cases h
      rw [← hsame]
      exact allocSlow_ok hslow
    | err e => cases h
    | panic p => cases h
  · rw [ht] at h
    cases h

theorem alloc_infallible : (alloc growth value : Prog (Slab α) ε Nat).Infallible := by
  intro s e s' h
  unfold alloc at h
  split at h
  · cases h
  · cases h
  · split at h <;> cases h

/-- **A deallocation takes the value of the id out of the map.** -/
theorem dealloc_ok (h : (dealloc id : Prog (Slab α) ε α) s = (.ok value, s')) :
    s.lookup id = some value ∧ s'.lookup = update s.lookup id none := by
  unfold dealloc at h
  rw [run_get_bind] at h
  obtain ⟨entry, he, hr⟩ := unwrap_bind_ok.1 h
  cases entry with
  | free nextFree => cases hr
  | occupied v =>
    cases hr
    exact ⟨lookup_eq_some.2 he, lookup_set (List.getElem?_eq_some_iff.1 he).1⟩

theorem get_run (h : s.lookup id = some value) :
    (get id : Prog (Slab α) ε (Option α)) s = (.ok (some value), s) := by
  unfold get
  rw [run_get_bind, lookup_eq_some.1 h]
  rfl

end Slab

end Wasmtime
