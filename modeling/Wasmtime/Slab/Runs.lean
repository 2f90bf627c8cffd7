import Wasmtime.Base.Counting
import Wasmtime.Base.FreeList
import Wasmtime.Slab.Slab

/-!
# Runs of a slab

`Sound s`: the free list visits every vacant entry once, and `len` counts the entries that are
occupied. So when the free list is empty the next id is `len`.

`Owned` is a slab together with the ids that its user holds and the value stored under each;
`slab_refines` says that after any operations the slab is that map.
-/

namespace Wasmtime.Slab

open Base Prog
open List hiding next

variable {α ε : Type} {s s' : Slab α} {id : Nat} {value : α} {growth : Growth}

def nextId : Prog (Slab α) ε Nat := do
  let s ← Prog.get
  match s.free with
  | some index => pure index
  | none => newIndex s.len

def drain : Prog (Slab α) ε (List (Nat × α)) := do
  let s ← Prog.get
  assert (s.entries.length ≤ maxCapacity) (.assert "self.entries.len() <= MAX_CAPACITY")
  Prog.set { s with entries := [], free := none, len := 0 }
  pure (s.entries.zipIdx.filterMap fun (entry, i) => entry.value.map (i, ·))

/-! ### The invariant -/

def link (s : Slab α) (i : Nat) : Option (Option Nat) :=
  match s.entries[i]? with
  | some (.free nextFree) => some nextFree
  | _ => none

def isOccupied : Entry α → Bool
  | .occupied _ => true
  | .free _ => false

structure Sound (s : Slab α) : Prop where
  cells : FreeCover s.link s.free
  len : s.len = s.entries.countP isOccupied
  fits : s.entries.length ≤ s.capacity
  small : s.capacity ≤ maxCapacity

theorem link_eq_some {i : Nat} {next : Option Nat} :
    s.link i = some next ↔ s.entries[i]? = some (.free next) := by
  unfold link
  constructor
  · intro h
    split at h
    · cases h
      assumption
    · cases h
  · intro h
    rw [h]

theorem link_set {entry : Entry α} {free : Option Nat} {capacity len : Nat}
    (h : id < s.entries.length) (j : Nat) :
    (⟨s.entries.set id entry, capacity, free, len⟩ : Slab α).link j =
      if j = id then (match entry with | .free next => some next | .occupied _ => none)
      else s.link j := by
  unfold link
  rw [getElem?_set]
  by_cases hj : id = j
  · subst hj
    rw [if_pos rfl, if_pos h, if_pos rfl]
    cases entry <;> rfl
  · rw [if_neg hj, if_neg (Ne.symm hj)]

theorem Sound.len_of_free_none (h : Sound s) (hfree : s.free = none) :
    s.len = s.entries.length := by
  have hcells := h.cells
  rw [hfree] at hcells
  rw [h.len, countP_eq_length]
  intro entry hmem
  obtain ⟨i, hi⟩ := getElem?_of_mem hmem
  cases entry with
  | occupied v => rfl
  | free next => cases (hcells.eq_none i).symm.trans (link_eq_some.2 hi)

def next (s : Slab α) : Nat := s.free.getD s.entries.length

variable (h : Sound s)
include h

theorem Sound.nextId_run :
    (nextId : Prog (Slab α) ε Nat) s = (.ok s.next, s) := by
  unfold nextId next
  rw [run_get_bind]
  cases hfree : s.free with
  | some index => rfl
  | none =>
    have hle : s.len ≤ maxCapacity := by
      rw [h.len_of_free_none hfree]
      exact h.fits.trans h.small
    unfold newIndex
    rw [decide_eq_true hle, h.len_of_free_none hfree]
    rfl

theorem Sound.fill_free (value : α) {nextFree : Option Nat} (hfree : s.free = some id)
    (hi : s.entries[id]? = some (.free nextFree)) :
    Sound { s with
      free := nextFree
      entries := s.entries.set id (.occupied value)
      len := s.len + 1 } := by
  have hlt := (List.getElem?_eq_some_iff.1 hi).1
  have hcells := h.cells
  rw [hfree] at hcells
  refine ⟨hcells.pop (link_eq_some.2 hi) ?_ ?_, ?_, ?_, h.small⟩
  · rw [link_set hlt, if_pos rfl]
  · intro j hj
    rw [link_set hlt, if_neg hj]
  · have hcount := countP_set_add isOccupied s.entries id (.occupied value) _ hi
    rw [h.len]
    simpa [isOccupied] using hcount.symm
  · rw [length_set]
    exact h.fits

theorem Sound.push_occupied (value : α) (hfree : s.free = none)
    (hlt : s.entries.length < s.capacity) :
    Sound { s with
      free := none
      entries := s.entries ++ [.occupied value]
      len := s.len + 1 } := by
  have hcells := h.cells
  rw [hfree] at hcells
  refine ⟨.nil fun i => ?_, ?_, ?_, h.small⟩
  · have hnone := hcells.eq_none i
    unfold link at hnone ⊢
    rcases lt_trichotomy i s.entries.length with hi | rfl | hi
    · rw [getElem?_append_left hi]
      exact hnone
    · rw [getElem?_concat_length]
    · rw [getElem?_eq_none (by simp; omega)]
  · rw [countP_append, h.len]
    rfl
  · rw [length_append]
    exact hlt

/-- **What `try_alloc` does**: it takes the next id, or there is neither a vacant entry nor room. -/
theorem Sound.tryAlloc_run (value : α) : (∃ s', tryAlloc value s = (.ok s.next, s') ∧ Sound s') ∨
    (tryAlloc value s = (.err value, s) ∧ s.free = none ∧ s.entries.length = s.capacity) := by
  unfold tryAlloc tryAllocIndex next
  rw [run_bind]
  cases hfree : s.free with
  | some index =>
    obtain ⟨nextFree, hnext⟩ := (hfree ▸ h.cells).freeList.head_free
    have hi := link_eq_some.1 hnext
    refine .inl ⟨_, ?_, h.fill_free value hfree hi⟩
    rw [run_get_bind, hfree]
    dsimp only
    rw [run_set_bind, run_pure]
    dsimp only
    unfold fill
    rw [run_get_bind]
    rw [hi]
    rfl
  | none =>
    rw [run_get_bind, hfree]
    by_cases hlt : s.entries.length < s.capacity
    · refine .inl ⟨_, ?_, h.push_occupied value hfree hlt⟩
      have hsmall : s.entries.length ≤ maxCapacity := h.fits.trans h.small
      have hget : (s.entries ++ [Entry.free none])[s.entries.length]? =
          some (.free none : Entry α) := getElem?_concat_length
      have hset : (s.entries ++ [Entry.free none]).set s.entries.length (.occupied value) =
          s.entries ++ [.occupied value] := by
        rw [set_append_right _ _ le_rfl, Nat.sub_self]
        rfl
      rw [if_pos hlt]
      unfold newIndex fill
      rw [decide_eq_true hsmall]
      simp only [assert, if_pos, run_bind, run_pure, run_set, run_get,
        unwrap, hget, hset, Option.getD_none]
    · rw [if_neg hlt]
      exact .inr ⟨rfl, rfl, le_antisymm h.fits (not_lt.1 hlt)⟩

theorem Sound.tryAlloc (ht : Slab.tryAlloc value s = (.ok id, s')) :
    id = s.next ∧ Sound s' := by
  rcases h.tryAlloc_run value with ⟨t, ht', hst⟩ | ⟨herr, -, -⟩
  · cases ht.symm.trans ht'
    exact ⟨rfl, hst⟩
  · cases ht.symm.trans herr

theorem Sound.tryAlloc_err {back : α}
    (ht : Slab.tryAlloc value s = (.err back, s')) : s' = s := by
  rcases h.tryAlloc_run value with ⟨t, ht', -⟩ | ⟨herr, -, -⟩
  · cases ht.symm.trans ht'
  · cases ht.symm.trans herr
    rfl

theorem Sound.reserve_ok {n : Nat} {u : Unit}
    (hr : (reserve growth n : Prog (Slab α) ε Unit) s = (.ok u, s')) :
    Sound s' ∧ s'.entries = s.entries ∧ s'.free = s.free ∧
      (s.capacity - s.len < n → s.entries.length + n ≤ s'.capacity) := by
  unfold reserve at hr
  rw [run_get_bind] at hr
  obtain ⟨_, s1, ha, hb⟩ := bind_ok.1 hr
  obtain ⟨-, rfl⟩ := assert_ok.1 ha
  split at hb
  · rename_i hle
    obtain ⟨-, rfl⟩ := pure_ok.1 hb
    exact ⟨h, rfl, rfl, fun hlt => absurd hle (not_le.2 hlt)⟩
  · dsimp only at hb
    rw [run_set_bind] at hb
    obtain ⟨hcap, rfl⟩ := assert_ok.1 hb
    have hroom := growth.room s1.entries.length s1.capacity n
    exact ⟨⟨h.cells, h.len, (Nat.le_add_right _ _).trans hroom, of_decide_eq_true hcap⟩, rfl, rfl,
      fun _ => hroom⟩

/-- **After `double_capacity` an allocation that failed succeeds.** -/
theorem Sound.tryAlloc_doubled {u : Unit} (herr : (Slab.tryAlloc value s).1 = .err value)
    (hd : (doubleCapacity growth : Prog (Slab α) ε Unit) s = (.ok u, s')) :
    ∃ s'', Slab.tryAlloc value s' = (.ok s.next, s'') ∧ Sound s'' := by
  rcases h.tryAlloc_run value with ⟨t, ht, -⟩ | ⟨-, hfree, hfull⟩
  · rw [ht] at herr
    cases herr
  · unfold doubleCapacity at hd
    rw [run_get_bind] at hd
    obtain ⟨hs', hentries, hfree', hroom⟩ := h.reserve_ok hd
    have hlen := h.len_of_free_none hfree
    have hnext : s'.next = s.next := by
      unfold next
      rw [hentries, hfree']
    rcases hs'.tryAlloc_run value with ⟨t, ht, hst⟩ | ⟨-, -, hfull'⟩
    · exact ⟨t, hnext ▸ ht, hst⟩
    · rw [hentries] at hfull'
      omega

theorem Sound.alloc (ha : (Slab.alloc growth value : Prog (Slab α) ε Nat) s = (.ok id, s')) :
    id = s.next ∧ Sound s' := by
  unfold Slab.alloc at ha
  rcases h.tryAlloc_run value with ⟨t, ht, hst⟩ | ⟨herr, -, -⟩
  · rw [ht] at ha
    cases ha
    exact ⟨rfl, hst⟩
  · rw [herr] at ha
    dsimp only at ha
    split at ha
    · rename_i hslow
      cases ha
      obtain ⟨_, s1, hd, ht⟩ := bind_ok.1 hslow
      obtain ⟨s2, ht', hs2⟩ := h.tryAlloc_doubled (by rw [herr]) hd
      cases ht'.symm.trans (expect_ok.1 ht)
      exact ⟨rfl, hs2⟩
    · cases ha
    · cases ha

theorem Sound.dealloc (hd : (Slab.dealloc id : Prog (Slab α) ε α) s = (.ok value, s')) : Sound s' := by
  unfold Slab.dealloc at hd
  rw [run_get_bind] at hd
  obtain ⟨entry, s1, hu, hr⟩ := bind_ok.1 hd
  obtain ⟨he, rfl⟩ := unwrap_ok.1 hu
  have hlt := (List.getElem?_eq_some_iff.1 he).1
  cases entry with
  | free nextFree => cases hr
  | occupied v =>
    cases hr
    refine ⟨h.cells.push (i := id) ?_ ?_ ?_, ?_, ?_, h.small⟩
    · unfold link
      rw [he]
    · rw [link_set hlt, if_pos rfl]
    · intro j hj
      rw [link_set hlt, if_neg hj]
    · have hcount := countP_set_add isOccupied s1.entries id (.free s1.free) _ he
      have hnew : isOccupied (.free s1.free : Entry α) = false := rfl
      have hold : isOccupied (.occupied value) = true := rfl
      rw [hnew, hold, if_pos rfl, if_neg Bool.false_ne_true] at hcount
      rw [h.len]
      dsimp only
      omega
    · rw [length_set]
      exact h.fits

omit h

/-! ### Runs -/

structure Owned (α : Type) where
  slab : Slab α
  held : List (Nat × α)

inductive Op (α : Type) where
  | alloc (value : α)
  | tryAlloc (value : α)
  | reserve (additional : Nat)
  | dealloc (id : Nat)
  | drain

inductive Step (growth : Growth) : Owned α → Op α → Owned α → Prop
  | alloc {o : Owned α} {s' : Slab α} {value : α} {id : Nat}
      (h : (Slab.alloc growth value : Prog (Slab α) Empty Nat) o.slab = (.ok id, s')) :
      Step growth o (.alloc value) ⟨s', (id, value) :: o.held⟩
  | tryAlloc {o : Owned α} {s' : Slab α} {value : α} {id : Nat}
      (h : Slab.tryAlloc value o.slab = (.ok id, s')) :
      Step growth o (.tryAlloc value) ⟨s', (id, value) :: o.held⟩
  | tryAllocErr {o : Owned α} {s' : Slab α} {value back : α}
      (h : Slab.tryAlloc value o.slab = (.err back, s')) :
      Step growth o (.tryAlloc value) ⟨s', o.held⟩
  | reserve {o : Owned α} {s' : Slab α} {additional : Nat}
      (h : (Slab.reserve growth additional : Prog (Slab α) Empty Unit) o.slab = (.ok (), s')) :
      Step growth o (.reserve additional) ⟨s', o.held⟩
  | dealloc {o : Owned α} {s' : Slab α} {id : Nat} {value : α}
      (h : (Slab.dealloc id : Prog (Slab α) Empty α) o.slab = (.ok value, s')) :
      Step growth o (.dealloc id) ⟨s', o.held.filter (·.1 ≠ id)⟩
  | drain {o : Owned α} {s' : Slab α} {values : List (Nat × α)}
      (h : (Slab.drain : Prog (Slab α) Empty (List (Nat × α))) o.slab = (.ok values, s')) :
      Step growth o .drain ⟨s', []⟩

/-- The map of the slab is what its user holds. -/
structure Holds (o : Owned α) : Prop where
  sound : Sound o.slab
  distinct : (o.held.map Prod.fst).Nodup
  lookup : ∀ id value, o.slab.lookup id = some value ↔ (id, value) ∈ o.held

theorem Holds.put {o : Owned α} (h : Holds o) (hs : Sound s') (hnone : o.slab.lookup id = none)
    (hset : s'.lookup = Function.update o.slab.lookup id (some value)) :
    Holds ⟨s', (id, value) :: o.held⟩ := by
  have hfresh : ∀ v, (id, v) ∉ o.held := by
    intro v hv
    cases hnone.symm.trans ((h.lookup id v).2 hv)
  refine ⟨hs, ?_, ?_⟩
  · rw [map_cons, nodup_cons]
    refine ⟨?_, h.distinct⟩
    intro hmem
    obtain ⟨⟨i, v⟩, hv, rfl⟩ := mem_map.1 hmem
    exact hfresh v hv
  · intro i v
    rw [hset, Function.update_apply, mem_cons]
    by_cases hi : i = id
    · subst hi
      rw [if_pos rfl, or_iff_left (hfresh v), Option.some.injEq, Prod.mk.injEq,
        eq_comm, and_iff_right rfl]
    · rw [if_neg hi, or_iff_right (fun heq => hi (congrArg Prod.fst heq))]
      exact h.lookup i v

theorem Holds.step {o o' : Owned α} {op : Op α} (h : Holds o) (hstep : Step growth o op o') :
    Holds o' := by
  cases hstep with
  | alloc ha =>
    obtain ⟨hnone, hset⟩ := alloc_ok ha
    exact h.put (h.sound.alloc ha).2 hnone hset
  | tryAlloc ht =>
    obtain ⟨hnone, hset⟩ := tryAlloc_ok ht
    exact h.put (h.sound.tryAlloc ht).2 hnone hset
  | tryAllocErr ht =>
    cases h.sound.tryAlloc_err ht
    exact h
  | reserve hr =>
    obtain ⟨hs, hentries, -, -⟩ := h.sound.reserve_ok hr
    exact ⟨hs, h.distinct, lookup_reserve_ok hr ▸ h.lookup⟩
  | @dealloc _ id _ hd =>
    obtain ⟨-, hset⟩ := dealloc_ok hd
    refine ⟨h.sound.dealloc hd, (filter_sublist.map _).nodup h.distinct, ?_⟩
    intro i v
    rw [hset, Function.update_apply, mem_filter, decide_eq_true_eq]
    by_cases hi : i = id
    · rw [if_pos hi]
      exact iff_of_false nofun fun hmem => hmem.2 hi
    · rw [if_neg hi, and_iff_left hi]
      exact h.lookup i v
  | drain hd =>
    unfold Slab.drain at hd
    rw [run_get_bind] at hd
    obtain ⟨-, hb⟩ := assert_bind_ok.1 hd
    rw [run_set_bind] at hb
    obtain ⟨-, rfl⟩ := pure_ok.1 hb
    refine ⟨⟨.nil fun i => rfl, rfl, Nat.zero_le _, h.sound.small⟩, nodup_nil, ?_⟩
    intro i v
    exact iff_of_false nofun nofun

/-- **What a slab is**, for its user. -/
structure Refines (o : Owned α) : Prop where
  distinct : (o.held.map Prod.fst).Nodup
  lookup : ∀ id value, o.slab.lookup id = some value ↔ (id, value) ∈ o.held
  len : o.slab.len = o.slab.entries.countP isOccupied
  cells : FreeCover o.slab.link o.slab.free
  nextId : ∀ growth value id s', (Slab.alloc growth value : Prog (Slab α) Empty Nat) o.slab =
    (.ok id, s') → (Slab.nextId : Prog (Slab α) Empty Nat) o.slab = (.ok id, o.slab)
  nextIdTry : ∀ value id s', Slab.tryAlloc value o.slab = (.ok id, s') →
    (Slab.nextId : Prog (Slab α) Empty Nat) o.slab = (.ok id, o.slab)
  slow : ∀ growth value s' u, (Slab.tryAlloc value o.slab).1 = .err value →
    (doubleCapacity growth : Prog (Slab α) Empty Unit) o.slab = (.ok u, s') →
    ∃ id s'', Slab.tryAlloc value s' = (.ok id, s'')

/-- **After any operations a slab is the map of the values that its user holds.** -/
theorem slab_refines {tr : List (Op α)} {o : Owned α} (h : Trace (Step growth) ⟨{}, []⟩ tr o) :
    Refines o := by
  have hinit : Holds (⟨{}, []⟩ : Owned α) :=
    ⟨⟨.nil fun _ => rfl, rfl, le_rfl, Nat.zero_le _⟩, nodup_nil,
      fun _ _ => iff_of_false nofun nofun⟩
  have ho : Holds o := Trace.invariant hinit (fun _ _ _ hs hstep => hs.step hstep) h
  refine ⟨ho.distinct, ho.lookup, ho.sound.len, ho.sound.cells, ?_, ?_, ?_⟩
  · intro growth' value id s' ha
    rw [(ho.sound.alloc ha).1]
    exact ho.sound.nextId_run
  · intro value id s' ht
    rw [(ho.sound.tryAlloc ht).1]
    exact ho.sound.nextId_run
  · intro growth' value s' u herr hd
    obtain ⟨s'', ht, -⟩ := ho.sound.tryAlloc_doubled herr hd
    exact ⟨_, s'', ht⟩

theorem slab_refines_reused : ∃ (growth : Growth) (tr : List (Op Nat)) (o : Owned Nat),
    Trace (Step growth) ⟨{}, []⟩ tr o ∧ o.held = [(0, 7), (1, 6)] ∧ Refines o := by
  let growth : Growth := ⟨fun len capacity n => max capacity (len + n), fun _ _ _ => le_max_right _ _⟩
  have htr : Trace (Step growth) ⟨{}, []⟩ [.alloc 5, .alloc 6, .dealloc 0, .tryAlloc 7] _ :=
    .cons (.alloc rfl) (.cons (.alloc rfl) (.cons (.dealloc rfl) (.cons (.tryAlloc rfl) (.nil _))))
  exact ⟨growth, _, _, htr, rfl, slab_refines htr⟩

end Wasmtime.Slab
