import Wasmtime.Base.Linked
import Wasmtime.Base.Prog

/-!
# Parking spots

`vm/parking_spot.rs`, on which `memory.atomic.wait` and `memory.atomic.notify` rest. A `ParkingSpot`
maps addresses to queues of waiters, which are threaded through the waiters. The model has what its
mutex guards, the token of each thread that `unpark` sets and `park` takes, and the clock. A
reference to a queue is its key, and one to a waiter its number.

`wait` is cut at each park: `startWait` runs up to the first park or the return, `resumeWait` from
the lock retaken to the next. `Queues p q`: the links of `p` spell the queue `q key` for each key.
-/

namespace Wasmtime.Vm

open Base Prog Function Option
open List hiding next

inductive WaitResult where
  | ok
  | mismatch
  | timedOut
deriving DecidableEq

structure Spot where
  head : Option Nat
  tail : Option Nat

instance : Inhabited Spot := ⟨{ head := none, tail := none }⟩

structure WaiterInner where
  thread : Nat
  notified : Bool
  next : Option Nat
  prev : Option Nat

structure ParkingSpot where
  inner : Nat → Option Spot
  /-- The boxes of the waiters; a `Waiter` that was never used has none. -/
  waiters : Nat → Option WaiterInner
  /-- The threads whose next park does not block. -/
  unparked : Nat → Bool
  now : Nat

namespace ParkingSpot

abbrev Exec (α : Type) : Type := Prog ParkingSpot Empty α

def new : ParkingSpot :=
  { inner := fun _ => none, waiters := fun _ => none, unparked := fun _ => false, now := 0 }

def spotAt (key : Nat) : Exec Spot := do
  unwrap ((← Prog.get).inner key) (.unreachable "dangling spot")

def waiterAt (waiter : Nat) : Exec WaiterInner := do
  unwrap ((← Prog.get).waiters waiter) (.unreachable "dangling waiter")

def setSpot (p : ParkingSpot) (key : Nat) (s : Spot) : ParkingSpot :=
  { p with inner := update p.inner key (some s) }

def setWaiter (p : ParkingSpot) (waiter : Nat) (w : WaiterInner) : ParkingSpot :=
  { p with waiters := update p.waiters waiter (some w) }

def modifySpot (key : Nat) (f : Spot → Spot) : Exec Unit := do
  let s ← spotAt key
  Prog.modify (fun p => p.setSpot key (f s))

def modifyWaiter (waiter : Nat) (f : WaiterInner → WaiterInner) : Exec Unit := do
  let w ← waiterAt waiter
  Prog.modify (fun p => p.setWaiter waiter (f w))

/-- The assertions that a waiter is in no queue. -/
def assertLoose (waiter : Nat) : Exec Unit := do
  let w ← waiterAt waiter
  assert w.next.isNone (.assert "next.is_none()")
  assert w.prev.isNone (.assert "prev.is_none()")

def setNext (spot : Nat) (next : Option Nat) : Option Nat → Exec Unit
  | some prev => modifyWaiter prev (fun w => { w with next })
  | none => modifySpot spot (fun s => { s with head := next })

def setPrev (spot : Nat) (prev : Option Nat) : Option Nat → Exec Unit
  | some next => modifyWaiter next (fun w => { w with prev })
  | none => modifySpot spot (fun s => { s with tail := prev })

def push (spot waiter : Nat) : Exec Unit := do
  assertLoose waiter
  let s ← spotAt spot
  modifyWaiter waiter (fun w => { w with prev := s.tail })
  setNext spot (some waiter) s.tail
  modifySpot spot (fun s => { s with tail := some waiter })

def remove (spot waiter : Nat) : Exec Unit := do
  let w ← waiterAt waiter
  setNext spot w.next w.prev
  let w ← waiterAt waiter
  setPrev spot w.prev w.next
  modifyWaiter waiter (fun w => { w with prev := none, next := none })

def pop (spot : Nat) : Exec (Option Nat) := do
  match (← spotAt spot).head with
  | none => pure none
  | some ret => do
    remove spot ret
    pure (some ret)

def setUnparked (p : ParkingSpot) (thread : Nat) (b : Bool) : ParkingSpot :=
  { p with unparked := update p.unparked thread b }

def unpark (thread : Nat) : Exec Unit := Prog.modify (fun p => p.setUnparked thread true)

/-- The loop of `notify`, with the number of waiters it may still wake. -/
def notifyLoop (spot : Nat) : Nat → Exec Nat
  | 0 => pure 0
  | left + 1 => do
    match ← pop spot with
    | none => pure 0
    | some head => do
      let w ← waiterAt head
      assert w.next.isNone (.assert "head.next.is_none()")
      modifyWaiter head (fun w => { w with notified := true })
      unpark w.thread
      let unparked ← notifyLoop spot left
      pure (unparked + 1)

def notify (addr n : Nat) : Exec Nat := do
  if n = 0 then
    pure 0
  else
    match (← Prog.get).inner addr with
    | none => pure 0
    | some _ => notifyLoop addr n

/-- The head of the loop of `wait`: time out, or drop the lock and park. -/
def parkOrTimeOut (key : Nat) (deadline : Option Nat) (waiter : Nat) :
    Exec (Option WaitResult) := do
  let p ← Prog.get
  if deadline.any (fun d => decide (d ≤ p.now)) then do
    let _ ← unwrap (p.inner key) (.unwrap "inner.get_mut(&key)")
    remove key waiter
    pure (some .timedOut)
  else
    pure none

def initWaiter (waiter thread : Nat) : Exec Unit := Prog.modify (fun p => p.setWaiter waiter
    ((p.waiters waiter).getD { thread, notified := false, next := none, prev := none }))

def initSpot (key : Nat) : Exec Unit :=
  Prog.modify (fun p => p.setSpot key ((p.inner key).getD default))

/-- `wait` up to the first park; `valid` is what `validate()` returns. -/
def startWait (key : Nat) (valid : Bool) (deadline : Option Nat) (waiter thread : Nat) :
    Exec (Option WaitResult) := do
  if valid then do
    initWaiter waiter thread
    assertLoose waiter
    modifyWaiter waiter (fun w => { w with notified := false, thread })
    initSpot key
    push key waiter
    parkOrTimeOut key deadline waiter
  else
    pure (some .mismatch)

/-- `wait` from the lock retaken up to the next park. -/
def resumeWait (key : Nat) (deadline : Option Nat) (waiter : Nat) : Exec (Option WaitResult) := do
  if (← waiterAt waiter).notified then do
    assertLoose waiter
    pure (some .ok)
  else
    parkOrTimeOut key deadline waiter

/-! ### The queues that the links spell -/

def next (p : ParkingSpot) (w : Nat) : Option Nat := (p.waiters w).bind WaiterInner.next

def prev (p : ParkingSpot) (w : Nat) : Option Nat := (p.waiters w).bind WaiterInner.prev

def notified (p : ParkingSpot) (w : Nat) : Bool := (p.waiters w).any WaiterInner.notified

def thread (p : ParkingSpot) (w : Nat) : Option Nat := (p.waiters w).map WaiterInner.thread

def spot (p : ParkingSpot) (key : Nat) : Spot := (p.inner key).getD default

/-- The queue of each key, each waiter in at most one. -/
structure Queues (p : ParkingSpot) (q : Nat → List Nat) : Prop where
  linked : ∀ key, Linked p.next p.prev (p.spot key).head (p.spot key).tail (q key)
  disjoint : ∀ {k k' w}, w ∈ q k → w ∈ q k' → k = k'
  alive : ∀ {k w}, w ∈ q k → (p.waiters w).isSome ∧ (p.inner k).isSome
  loose : ∀ {w}, (∀ k, w ∉ q k) → p.next w = none ∧ p.prev w = none

structure Frame (p p' : ParkingSpot) : Prop where
  waiters : ∀ w, (p'.waiters w).isSome = (p.waiters w).isSome
  notified : ∀ w, p'.notified w = p.notified w
  thread : ∀ w, p'.thread w = p.thread w
  inner : ∀ k, (p.inner k).isSome → (p'.inner k).isSome
  unparked : p'.unparked = p.unparked
  now : p'.now = p.now

variable {p p' : ParkingSpot} {q : Nat → List Nat} {key w : Nat}

section

variable (p : ParkingSpot) (k i : Nat) (x : Spot) (y : WaiterInner)

@[simp] theorem waiters_setSpot : (p.setSpot k x).waiters = p.waiters := rfl
@[simp] theorem next_setSpot : (p.setSpot k x).next = p.next := rfl
@[simp] theorem prev_setSpot : (p.setSpot k x).prev = p.prev := rfl
@[simp] theorem spot_setWaiter : (p.setWaiter i y).spot = p.spot := rfl

@[simp] theorem inner_setSpot (j : Nat) :
    (p.setSpot k x).inner j = if j = k then some x else p.inner j := update_apply ..

@[simp] theorem waiters_setWaiter (j : Nat) :
    (p.setWaiter i y).waiters j = if j = i then some y else p.waiters j := update_apply ..

@[simp] theorem spot_setSpot (j : Nat) :
    (p.setSpot k x).spot j = if j = k then x else p.spot j := by
  simp only [spot, inner_setSpot]
  split <;> rfl

@[simp] theorem next_setWaiter (j : Nat) :
    (p.setWaiter i y).next j = if j = i then y.next else p.next j := by
  simp only [next, waiters_setWaiter]
  split <;> rfl

@[simp] theorem prev_setWaiter (j : Nat) :
    (p.setWaiter i y).prev j = if j = i then y.prev else p.prev j := by
  simp only [prev, waiters_setWaiter]
  split <;> rfl

end

namespace Frame

theorem trans {p'' : ParkingSpot} (h : Frame p p') (h' : Frame p' p'') : Frame p p'' :=
  ⟨fun w => (h'.waiters w).trans (h.waiters w), fun w => (h'.notified w).trans (h.notified w),
    fun w => (h'.thread w).trans (h.thread w), fun k hk => h'.inner k (h.inner k hk),
    h'.unparked.trans h.unparked, h'.now.trans h.now⟩

theorem setSpot (p : ParkingSpot) (key : Nat) (s : Spot) : Frame p (p.setSpot key s) := by
  refine ⟨fun _ => rfl, fun _ => rfl, fun _ => rfl, fun k hk => ?_, rfl, rfl⟩
  rw [inner_setSpot]
  split
  · rfl
  · exact hk

theorem setWaiter {x y : WaiterInner} (hx : p.waiters w = some x) (hn : y.notified = x.notified)
    (ht : y.thread = x.thread) : Frame p (p.setWaiter w y) := by
  refine ⟨fun i => ?_, fun i => ?_, fun i => ?_, fun _ hk => hk, rfl, rfl⟩
  all_goals
    simp only [ParkingSpot.notified, ParkingSpot.thread, waiters_setWaiter]
    split
    · simp [*]
    · rfl

end Frame

variable {x : WaiterInner}

theorem waiterAt_run (h : p.waiters w = some x) : waiterAt w p = (.ok x, p) := by
  simp [waiterAt, h, unwrap]

theorem spotAt_run {x : Spot} (h : p.inner key = some x) : spotAt key p = (.ok x, p) := by
  simp [spotAt, h, unwrap]

theorem modifyWaiter_run {f : WaiterInner → WaiterInner} (h : p.waiters w = some x) :
    modifyWaiter w f p = (.ok (), p.setWaiter w (f x)) := by
  unfold modifyWaiter
  rw [run_bind_ok (waiterAt_run h)]
  rfl

theorem modifySpot_run {x : Spot} {f : Spot → Spot} (h : p.inner key = some x) :
    modifySpot key f p = (.ok (), p.setSpot key (f x)) := by
  unfold modifySpot
  rw [run_bind_ok (spotAt_run h)]
  rfl

theorem assertLoose_run (h : p.waiters w = some x) (hn : x.next = none) (hp : x.prev = none) :
    assertLoose w p = (.ok (), p) := by
  unfold assertLoose
  rw [run_bind_ok (waiterAt_run h)]
  simp [hn, hp, assert]

theorem Queues.edit (h : Queues p q) {l : List Nat}
    (hkey : Linked p'.next p'.prev (p'.spot key).head (p'.spot key).tail l)
    (hspot : ∀ k, k ≠ key → p'.spot k = p.spot k)
    (hl : ∀ {k i}, i ∈ l → i ∈ q k → k = key)
    (halive : ∀ {i}, i ∈ l → (p.waiters i).isSome ∧ (p.inner key).isSome)
    (hlinks : ∀ i, i ∉ l → i ∉ q key → p'.next i = p.next i ∧ p'.prev i = p.prev i)
    (hloose : ∀ i, i ∉ l → i ∈ q key → p'.next i = none ∧ p'.prev i = none)
    (hf : Frame p p') : Queues p' (update q key l) := by
  have hother : ∀ {k i}, k ≠ key → i ∈ q k → i ∉ l ∧ i ∉ q key := fun hk hi =>
    ⟨fun hil => hk (hl hil hi), fun hik => hk (h.disjoint hi hik)⟩
  refine ⟨fun k => ?_, fun {k k' i} hi hi' => ?_, fun {k i} hi => ?_, fun {i} hi => ?_⟩
  · by_cases hk : k = key
    · subst hk
      rw [update_self]
      exact hkey
    · rw [update_of_ne hk, hspot k hk]
      refine (h.linked k).frame (fun i hi => ?_) (fun i hi => ?_)
      · exact (hlinks i (hother hk hi).1 (hother hk hi).2).1
      · exact (hlinks i (hother hk hi).1 (hother hk hi).2).2
  · rw [update_apply] at hi hi'
    split_ifs at hi hi' with hk hk' hk'
    · rw [hk, hk']
    · exact absurd (hl hi hi') hk'
    · exact absurd (hl hi' hi) hk
    · exact h.disjoint hi hi'
  · rw [hf.waiters]
    rw [update_apply] at hi
    split_ifs at hi with hk
    · subst hk
      exact ⟨(halive hi).1, hf.inner k (halive hi).2⟩
    · exact ⟨(h.alive hi).1, hf.inner k (h.alive hi).2⟩
  · have hil : i ∉ l := by simpa using hi key
    by_cases hik : i ∈ q key
    · exact hloose i hil hik
    · rw [(hlinks i hil hik).1, (hlinks i hil hik).2]
      refine h.loose (fun k hk => ?_)
      by_cases hkk : k = key
      · exact hik (hkk ▸ hk)
      · exact hi k (by rw [update_of_ne hkk]; exact hk)

theorem setNext_run (key : Nat) (before n : Option Nat)
    (hb : ∀ i, before = some i → (p.waiters i).isSome) (hs : (p.inner key).isSome) :
    ∃ p', setNext key n before p = (.ok (), p') ∧ Frame p p' ∧
      (∀ i, p'.next i = if before = some i then n else p.next i) ∧ p'.prev = p.prev ∧
      ∀ k, p'.spot k = if k = key ∧ before = none then { p.spot k with head := n }
        else p.spot k := by
  cases before with
  | none =>
    obtain ⟨s, hs⟩ := isSome_iff_exists.1 hs
    refine ⟨_, modifySpot_run hs, .setSpot p key _, fun i => by simp, rfl, fun k => ?_⟩
    by_cases hk : k = key
    · simp [hk, spot, hs]
    · simp [hk]
  | some j =>
    obtain ⟨y, hy⟩ := isSome_iff_exists.1 (hb j rfl)
    refine ⟨_, modifyWaiter_run hy, .setWaiter hy rfl rfl, fun i => ?_, funext fun i => ?_,
      fun k => by simp⟩
    · by_cases hi : i = j
      · simp [hi]
      · simp [hi, Ne.symm hi]
    · by_cases hi : i = j
      · simp [hi, prev, hy]
      · simp [hi]

theorem setPrev_run (key : Nat) (after n : Option Nat)
    (ha : ∀ i, after = some i → (p.waiters i).isSome) (hs : (p.inner key).isSome) :
    ∃ p', setPrev key n after p = (.ok (), p') ∧ Frame p p' ∧
      (∀ i, p'.prev i = if after = some i then n else p.prev i) ∧ p'.next = p.next ∧
      ∀ k, p'.spot k = if k = key ∧ after = none then { p.spot k with tail := n }
        else p.spot k := by
  cases after with
  | none =>
    obtain ⟨s, hs⟩ := isSome_iff_exists.1 hs
    refine ⟨_, modifySpot_run hs, .setSpot p key _, fun i => by simp, rfl, fun k => ?_⟩
    by_cases hk : k = key
    · simp [hk, spot, hs]
    · simp [hk]
  | some j =>
    obtain ⟨y, hy⟩ := isSome_iff_exists.1 (ha j rfl)
    refine ⟨_, modifyWaiter_run hy, .setWaiter hy rfl rfl, fun i => ?_, funext fun i => ?_,
      fun k => by simp⟩
    · by_cases hi : i = j
      · simp [hi]
      · simp [hi, Ne.symm hi]
    · by_cases hi : i = j
      · simp [hi, next, hy]
      · simp [hi]

theorem push_run (h : Queues p q) (key : Nat) (hw : ∀ k, w ∉ q k) (hx : (p.waiters w).isSome)
    (hs : (p.inner key).isSome) :
    ∃ p', push key w p = (.ok (), p') ∧ Queues p' (update q key (q key ++ [w])) ∧
      Frame p p' := by
  obtain ⟨x, hx⟩ := isSome_iff_exists.1 hx
  obtain ⟨s, hs⟩ := isSome_iff_exists.1 hs
  obtain ⟨hnext, hprev⟩ := h.loose hw
  have hlinked := h.linked key
  have hspot : p.spot key = s := by simp [spot, hs]
  rw [hspot] at hlinked
  have hnext' : x.next = none := by simpa [next, hx] using hnext
  have hprev' : x.prev = none := by simpa [prev, hx] using hprev
  have hf1 := Frame.setWaiter (y := { x with prev := s.tail }) hx rfl rfl
  obtain ⟨p2, hrun2, hf2, hn2, hp2, hs2⟩ :=
    setNext_run (p := p.setWaiter w { x with prev := s.tail }) key s.tail (some w)
      (fun i hi => by rw [hf1.waiters]; exact (h.alive (hlinked.tail_mem hi)).1)
      (hf1.inner key (by simp [hs]))
  obtain ⟨s2, hs2'⟩ := isSome_iff_exists.1 (hf2.inner key (hf1.inner key (by simp [hs])))
  have hf := (hf1.trans hf2).trans (.setSpot p2 key { s2 with tail := some w })
  refine ⟨p2.setSpot key { s2 with tail := some w }, ?_, ?_, hf⟩
  · unfold push
    simp only [run_bind_ok (assertLoose_run hx hnext' hprev'),
      run_bind_ok (spotAt_run hs), run_bind_ok (modifyWaiter_run hx),
      run_bind_ok hrun2]
    exact modifySpot_run hs2'
  have hn : ∀ i, (p2.setSpot key { s2 with tail := some w }).next i =
      if i = w then none else if s.tail = some i then some w else p.next i := by
    intro i
    rw [next_setSpot, hn2, next_setWaiter]
    by_cases hi : i = w
    · rw [if_pos hi, if_pos hi, if_neg (fun e => hw key (hi ▸ hlinked.tail_mem e)), hnext']
    · rw [if_neg hi, if_neg hi]
  have hp : ∀ i, (p2.setSpot key { s2 with tail := some w }).prev i =
      if i = w then s.tail else p.prev i := fun i => by
    rw [prev_setSpot, hp2, prev_setWaiter]
  have hhead : s2.head = if s.tail = none then some w else s.head := by
    have := hs2 key
    simp only [spot_setWaiter, hspot, true_and] at this
    rw [show s2 = p2.spot key by simp [spot, hs2'], this]
    split <;> rfl
  refine h.edit ?_ ?_ ?_ ?_ ?_ ?_ hf
  · rw [spot_setSpot, if_pos rfl]
    exact hlinked.push (hw key) hn hp hhead
  · intro k hk
    simp [hk, hs2]
  · intro k i hi hik
    rcases mem_append.1 hi with hi | hi
    · exact h.disjoint hik hi
    · exact absurd (mem_singleton.1 hi ▸ hik) (hw k)
  · intro i hi
    rcases mem_append.1 hi with hi | hi
    · exact h.alive hi
    · simp [mem_singleton.1 hi, hx, hs]
  · intro i hi hik
    have hiw : i ≠ w := by
      rintro rfl
      simp at hi
    rw [hn, hp, if_neg hiw, if_neg hiw, if_neg (fun e => hik (hlinked.tail_mem e))]
    exact ⟨rfl, rfl⟩
  · intro i hi hik
    simp [hik] at hi

theorem remove_run (h : Queues p q) (key w : Nat) (hw : w ∈ q key) :
    ∃ p', remove key w p = (.ok (), p') ∧ Queues p' (update q key ((q key).erase w)) ∧
      Frame p p' := by
  obtain ⟨hx, hs⟩ := h.alive hw
  obtain ⟨x, hx⟩ := isSome_iff_exists.1 hx
  have hlinked := h.linked key
  have hnext : p.next w = x.next := by simp [next, hx]
  have hprev : p.prev w = x.prev := by simp [prev, hx]
  -- the first write is not to the waiter itself
  have hself : x.prev ≠ some w := hprev ▸ hlinked.prev_ne hw
  obtain ⟨p1, hrun1, hf1, hn1, hp1, hs1⟩ := setNext_run (p := p) key x.prev x.next
    (fun i hi => (h.alive (hlinked.prev_mem hw (hprev.trans hi))).1) hs
  obtain ⟨x1, hx1⟩ := isSome_iff_exists.1 (show (p1.waiters w).isSome by
    rw [hf1.waiters, hx]; rfl)
  have hnext1 : x1.next = x.next := by
    have := hn1 w
    rw [if_neg hself, hnext] at this
    simpa [next, hx1] using this
  have hprev1 : x1.prev = x.prev := by
    have := congrFun hp1 w
    rw [hprev] at this
    simpa [prev, hx1] using this
  obtain ⟨p2, hrun2, hf2, hp2, hn2, hs2⟩ := setPrev_run (p := p1) key x.next x.prev
    (fun i hi => by
      rw [hf1.waiters]
      exact (h.alive (hlinked.next_mem hw (hnext.trans hi))).1) (hf1.inner key hs)
  obtain ⟨x2, hx2⟩ := isSome_iff_exists.1 (show (p2.waiters w).isSome by
    rw [hf2.waiters, hx1]; rfl)
  have hf := (hf1.trans hf2).trans
    (Frame.setWaiter (y := { x2 with prev := none, next := none }) hx2 rfl rfl)
  have hn : ∀ i, (p2.setWaiter w { x2 with prev := none, next := none }).next i =
      if i = w then none else if p.prev w = some i then p.next w else p.next i := fun i => by
    rw [next_setWaiter, hn2, hn1, hprev, hnext]
  have hp : ∀ i, (p2.setWaiter w { x2 with prev := none, next := none }).prev i =
      if i = w then none else if p.next w = some i then p.prev w else p.prev i := fun i => by
    rw [prev_setWaiter, hp2, hp1, hprev, hnext]
  refine ⟨p2.setWaiter w { x2 with prev := none, next := none }, ?_, ?_, hf⟩
  · unfold remove
    simp only [run_bind_ok (waiterAt_run hx), run_bind_ok hrun1,
      run_bind_ok (waiterAt_run hx1), hnext1, hprev1, run_bind_ok hrun2]
    exact modifyWaiter_run hx2
  · obtain ⟨l, r, hq⟩ := append_of_mem hw
    have hnotl : w ∉ l := by
      intro hwl
      have hnodup := hlinked.nodup
      rw [hq] at hnodup
      exact (nodup_append.1 hnodup).2.2 w hwl w (by simp) rfl
    have herase : (q key).erase w = l ++ r := by
      rw [hq, erase_append_right _ hnotl, erase_cons_head]
    have hsub : ∀ {i}, i ∈ l ++ r → i ∈ q key := fun hi => by
      rw [hq]
      rcases mem_append.1 hi with hi | hi <;> simp [hi]
    rw [hq] at hlinked
    rw [herase]
    refine h.edit ?_ ?_ (fun hi hik => h.disjoint hik (hsub hi)) (fun hi => h.alive (hsub hi))
      ?_ ?_ hf
    · refine hlinked.remove hn hp ?_ ?_
      · rw [spot_setWaiter, hs2, hs1, hprev, hnext]
        split_ifs with h1 h2 h3 h3 <;> simp_all
      · rw [spot_setWaiter, hs2, hs1, hprev, hnext]
        split_ifs with h1 h2 h3 h3 <;> simp_all
    · intro k hk
      rw [spot_setWaiter, hs2, hs1]
      simp [hk]
    · intro i hi hik
      have hmem : ∀ {j}, p.next w = some j ∨ p.prev w = some j → j ∈ q key := fun hj =>
        hj.elim ((h.linked key).next_mem hw) ((h.linked key).prev_mem hw)
      have hiw : i ≠ w := fun e => hik (e ▸ hw)
      rw [hn, hp, if_neg hiw, if_neg hiw, if_neg (fun e => hik (hmem (.inr e))),
        if_neg (fun e => hik (hmem (.inl e)))]
      exact ⟨rfl, rfl⟩
    · intro i hi hik
      obtain rfl : i = w := by
        rw [hq] at hik
        simp only [mem_append, mem_cons] at hi hik
        tauto
      rw [hn, hp, if_pos rfl, if_pos rfl]
      exact ⟨rfl, rfl⟩

theorem pop_run (h : Queues p q) (hs : (p.inner key).isSome) :
    ∃ p', pop key p = (.ok (q key).head?, p') ∧
      Queues p' (update q key ((q key).tail)) ∧ Frame p p' := by
  obtain ⟨s, hs⟩ := isSome_iff_exists.1 hs
  have hhead := (h.linked key).head_eq
  simp only [spot, hs, getD_some] at hhead
  unfold pop
  rw [run_bind_ok (spotAt_run hs)]
  rcases hq : q key with _ | ⟨w, r⟩
  · rw [hq] at hhead
    have hsame : update q key [] = q := by rw [← hq, update_eq_self]
    refine ⟨p, by simp [hhead], ?_, ⟨fun _ => rfl, fun _ => rfl, fun _ => rfl, fun _ hk => hk, rfl,
      rfl⟩⟩
    rw [tail_nil, hsame]
    exact h
  · rw [hq] at hhead
    obtain ⟨p', hrun, hqs, hf⟩ := remove_run h key w (by simp [hq])
    refine ⟨p', ?_, ?_, hf⟩
    · simp only [hhead, head?_cons, run_bind_ok hrun]
      rfl
    · rw [hq, erase_cons_head] at hqs
      exact hqs

theorem Queues.congr (h : Queues p q) (hn : p'.next = p.next) (hp : p'.prev = p.prev)
    (hs : p'.spot = p.spot) (hw : ∀ i, (p.waiters i).isSome → (p'.waiters i).isSome)
    (hi : ∀ k, (p.inner k).isSome → (p'.inner k).isSome) : Queues p' q := by
  refine ⟨fun k => ?_, h.disjoint, fun hm => ⟨hw _ (h.alive hm).1, hi _ (h.alive hm).2⟩, fun hm => ?_⟩
  · rw [hn, hp, hs]
    exact h.linked k
  · rw [hn, hp]
    exact h.loose hm

/-! ### The critical sections -/

/-- The waiters `ws` are marked, and their threads unparked. -/
structure Marks (p p' : ParkingSpot) (ws : List Nat) : Prop where
  waiters : ∀ w, (p'.waiters w).isSome = (p.waiters w).isSome
  notified : ∀ w, p'.notified w = (p.notified w || decide (w ∈ ws))
  thread : ∀ w, p'.thread w = p.thread w
  inner : ∀ k, (p.inner k).isSome → (p'.inner k).isSome
  unparked : ∀ t, p'.unparked t = (p.unparked t || ws.any fun w => decide (p.thread w = some t))
  now : p'.now = p.now

theorem Marks.refl (p : ParkingSpot) : Marks p p [] :=
  ⟨fun _ => rfl, fun _ => by simp, fun _ => rfl, fun _ hk => hk, fun _ => by simp, rfl⟩

theorem Marks.cons {p1 p3 : ParkingSpot} (p2 : ParkingSpot) {ws : List Nat} {th : Nat} (hf : Frame p p1)
    (hth : p.thread w = some th)
    (hm : ∀ i, (p2.waiters i).isSome = (p1.waiters i).isSome ∧ p2.thread i = p1.thread i ∧
      p2.notified i = (p1.notified i || decide (i = w)))
    (hi : p2.inner = p1.inner) (hu : p2.unparked = update p1.unparked th true)
    (hn : p2.now = p1.now) (h : Marks p2 p3 ws) : Marks p p3 (w :: ws) := by
  refine ⟨fun i => ?_, fun i => ?_, fun i => ?_, fun k hk => ?_, fun t => ?_, ?_⟩
  · rw [h.waiters, (hm i).1, hf.waiters]
  · rw [h.notified, (hm i).2.2, hf.notified]
    simp [Bool.or_assoc]
  · rw [h.thread, (hm i).2.1, hf.thread]
  · exact h.inner k (hi ▸ hf.inner k hk)
  · have hthread : p2.thread = p.thread := funext fun i => (hm i).2.1.trans (hf.thread i)
    rw [h.unparked, hu, hthread, hf.unparked, update_apply, any_cons, hth]
    by_cases ht : t = th
    · simp [ht]
    · simp [ht, Ne.symm ht]
  · rw [h.now, hn, hf.now]

def mark (p : ParkingSpot) (w : Nat) (x : WaiterInner) : ParkingSpot :=
  (p.setWaiter w { x with notified := true }).setUnparked x.thread true

theorem Queues.mark (h : Queues p q) (hx : p.waiters w = some x) : Queues (p.mark w x) q := by
  refine h.congr (funext fun i => ?_) (funext fun i => ?_) rfl (fun i hi => ?_) (fun _ hk => hk)
  · show (p.setWaiter w _).next i = _
    rw [next_setWaiter]
    split
    · simp [next, *]
    · rfl
  · show (p.setWaiter w _).prev i = _
    rw [prev_setWaiter]
    split
    · simp [prev, *]
    · rfl
  · show ((p.setWaiter w _).waiters i).isSome
    rw [waiters_setWaiter]
    split
    · rfl
    · exact hi

theorem notifyLoop_run (n : Nat) (h : Queues p q) (hs : (p.inner key).isSome) :
    ∃ p', notifyLoop key n p = (.ok (min n (q key).length), p') ∧
      Queues p' (update q key ((q key).drop n)) ∧ Marks p p' ((q key).take n) := by
  induction n generalizing p q with
  | zero =>
    refine ⟨p, by simp [notifyLoop], ?_, by simpa using Marks.refl p⟩
    rw [drop_zero, update_eq_self]
    exact h
  | succ n ih =>
    obtain ⟨p1, hpop, hq1, hf1⟩ := pop_run h hs
    unfold notifyLoop
    rw [run_bind_ok hpop]
    rcases hq : q key with _ | ⟨w, r⟩
    · rw [hq] at hq1
      refine ⟨p1, by simp, by simpa using hq1, ?_⟩
      simpa using (⟨hf1.waiters, by simpa using hf1.notified, hf1.thread, hf1.inner,
        by simp [hf1.unparked], hf1.now⟩ : Marks p p1 [])
    · -- the first waiter is marked, then the rest as the induction says
      rw [hq, tail_cons] at hq1
      have hw : w ∈ q key := by simp [hq]
      obtain ⟨x, hx⟩ := isSome_iff_exists.1 (show (p1.waiters w).isSome by
        rw [hf1.waiters]; exact (h.alive hw).1)
      have hloose : ∀ k, w ∉ update q key r k := by
        intro k hk
        rw [update_apply] at hk
        split_ifs at hk with hkk
        · have hnodup := (h.linked key).nodup
          rw [hq] at hnodup
          exact (nodup_cons.1 hnodup).1 hk
        · exact hkk (h.disjoint hk hw)
      have hnext : x.next = none := by simpa [next, hx] using (hq1.loose hloose).1
      obtain ⟨p', hrun, hq', hm⟩ := ih (hq1.mark hx) (hf1.inner key hs)
      rw [update_self, update_idem] at hq'
      rw [update_self] at hrun hm
      refine ⟨p', ?_, by simpa using hq', ?_⟩
      · have hnone : x.next.isNone = true := by rw [hnext]; rfl
        simp only [head?_cons, run_bind_ok (waiterAt_run hx), hnone,
          run_bind_ok (assert_ok (u := ()).2 ⟨rfl, rfl⟩),
          run_bind_ok (modifyWaiter_run hx), unpark, run_modify_bind]
        refine (run_bind_ok hrun).trans ?_
        simp [Nat.add_min_add_right]
      · have hth : p.thread w = some x.thread := by
          rw [← hf1.thread]
          simp [thread, hx]
        refine Marks.cons (p1.mark w x) hf1 hth (fun i => ?_) rfl rfl rfl hm
        have hi : (p1.mark w x).waiters i =
            if i = w then some { x with notified := true } else p1.waiters i :=
          waiters_setWaiter ..
        simp only [thread, notified, hi]
        by_cases hi : i = w
        · simp [hi, hx]
        · simp [hi]

theorem notify_run (h : Queues p q) (key n : Nat) :
    ∃ p', notify key n p = (.ok (min n (q key).length), p') ∧
      Queues p' (update q key ((q key).drop n)) ∧ Marks p p' ((q key).take n) := by
  unfold notify
  by_cases hn : n = 0
  · subst hn
    refine ⟨p, by simp, ?_, by simpa using Marks.refl p⟩
    rw [drop_zero, update_eq_self]
    exact h
  · rw [if_neg hn, run_get_bind]
    rcases hs : p.inner key with _ | s
    · -- no queue was ever made for the key
      have hq : q key = [] := by
        rcases hq : q key with _ | ⟨w, r⟩
        · rfl
        · have := (h.alive (show w ∈ q key by simp [hq])).2
          simp [hs] at this
      refine ⟨p, by simp [hq], ?_, by simpa [hq] using Marks.refl p⟩
      rw [hq, drop_nil, ← hq, update_eq_self]
      exact h
    · exact notifyLoop_run n h (by simp [hs])

def expired (p : ParkingSpot) (deadline : Option Nat) : Bool :=
  deadline.any fun d => decide (d ≤ p.now)

theorem parkOrTimeOut_run (h : Queues p q) (key w : Nat) (hw : w ∈ q key) (deadline : Option Nat) :
    ∃ p', parkOrTimeOut key deadline w p =
        (.ok (if p.expired deadline then some .timedOut else none), p') ∧
      Queues p' (if p.expired deadline then update q key ((q key).erase w) else q) ∧
      Frame p p' := by
  unfold parkOrTimeOut
  rw [run_get_bind]
  by_cases he : p.expired deadline = true
  · obtain ⟨s, hs⟩ := isSome_iff_exists.1 (h.alive hw).2
    obtain ⟨p', hrun, hq, hf⟩ := remove_run h key w hw
    refine ⟨p', ?_, by simpa [he] using hq, hf⟩
    have he' : (deadline.any fun d => decide (d ≤ p.now)) = true := he
    rw [if_pos he', if_pos he, run_bind_ok (unwrap_ok.2 ⟨hs, rfl⟩), run_bind_ok hrun]
    rfl
  · have he' : ¬ (deadline.any fun d => decide (d ≤ p.now)) = true := he
    refine ⟨p, ?_, by simpa [he] using h, ⟨fun _ => rfl, fun _ => rfl, fun _ => rfl,
      fun _ hk => hk, rfl, rfl⟩⟩
    rw [if_neg he', if_neg he]
    rfl

structure Arms (p p' : ParkingSpot) (w th : Nat) : Prop where
  waiters : ∀ i, (p.waiters i).isSome → (p'.waiters i).isSome
  notified : ∀ i, p'.notified i = (p.notified i && decide (i ≠ w))
  thread : ∀ i, p'.thread i = if i = w then some th else p.thread i
  inner : ∀ k, (p.inner k).isSome → (p'.inner k).isSome
  unparked : p'.unparked = p.unparked
  now : p'.now = p.now

theorem startWait_run (h : Queues p q) (hw : ∀ k, w ∉ q k) (key : Nat) (deadline : Option Nat)
    (th : Nat) :
    ∃ p', startWait key true deadline w th p =
        (.ok (if p.expired deadline then some .timedOut else none), p') ∧
      Queues p' (if p.expired deadline then q else update q key (q key ++ [w])) ∧
      Arms p p' w th := by
  obtain ⟨hn, hp⟩ := h.loose hw
  set x := (p.waiters w).getD { thread := th, notified := false, next := none, prev := none } with hx
  have hxn : x.next = none := by
    rw [hx]
    rcases hw' : p.waiters w with _ | y
    · rfl
    · simpa [next, hw'] using hn
  have hxp : x.prev = none := by
    rw [hx]
    rcases hw' : p.waiters w with _ | y
    · rfl
    · simpa [prev, hw'] using hp
  -- the state in which the waiter is pushed
  set p1 := ((p.setWaiter w x).setWaiter w { x with notified := false, thread := th }).setSpot key
    ((p.inner key).getD default) with hp1
  have hq1 : Queues p1 q := by
    refine h.congr (funext fun i => ?_) (funext fun i => ?_) (funext fun k => ?_) (fun i hi => ?_)
      (fun k hk => ?_)
    · rw [hp1, next_setSpot, next_setWaiter, next_setWaiter]
      split
      · rw [hxn, ‹i = w›, hn]
      · rfl
    · rw [hp1, prev_setSpot, prev_setWaiter, prev_setWaiter]
      split
      · rw [hxp, ‹i = w›, hp]
      · rfl
    · rw [hp1, spot_setSpot]
      split
      · rw [‹k = key›]; rfl
      · rfl
    · simp only [hp1, waiters_setSpot, waiters_setWaiter]
      split
      · rfl
      · exact hi
    · simp only [hp1, inner_setSpot]
      split
      · rfl
      · exact hk
  obtain ⟨p2, hpush, hq2, hf2⟩ := push_run hq1 key hw (by simp [hp1]) (by simp [hp1])
  obtain ⟨p3, hpark, hq3, hf3⟩ := parkOrTimeOut_run hq2 key w (by simp) deadline
  have hexp : p2.expired deadline = p.expired deadline := by
    simp only [expired, hf2.now]
    rfl
  rw [hexp] at hpark hq3
  have hf := hf2.trans hf3
  refine ⟨p3, ?_, ?_, ⟨fun i hi => ?_, fun i => ?_, fun i => ?_, fun k hk => ?_, ?_, ?_⟩⟩
  · unfold startWait
    rw [if_pos rfl]
    simp only [initWaiter, run_modify_bind, initSpot]
    have hget : (p.setWaiter w x).waiters w = some x := by rw [waiters_setWaiter, if_pos rfl]
    rw [run_bind_ok (assertLoose_run hget hxn hxp), run_bind_ok (modifyWaiter_run hget)]
    exact (run_bind_ok hpush).trans hpark
  · split_ifs at hq3 ⊢
    · rw [update_self, update_idem] at hq3
      have : (q key ++ [w]).erase w = q key := by
        rw [erase_append_right _ (hw key)]
        simp
      rw [this, update_eq_self] at hq3
      exact hq3
    · exact hq3
  · rw [hf.waiters]
    simp only [hp1, waiters_setSpot, waiters_setWaiter]
    split
    · rfl
    · exact hi
  · rw [hf.notified]
    simp only [hp1, notified, waiters_setSpot, waiters_setWaiter]
    by_cases hi : i = w <;> simp [hi]
  · rw [hf.thread]
    simp only [hp1, thread, waiters_setSpot, waiters_setWaiter]
    by_cases hi : i = w <;> simp [hi]
  · refine hf.inner k ?_
    simp only [hp1, inner_setSpot]
    split
    · rfl
    · exact hk
  · rw [hf.unparked]
    rfl
  · rw [hf.now]
    rfl

theorem resumeWait_notified (h : Queues p q) (hw : ∀ k, w ∉ q k) (hn : p.notified w = true)
    (key : Nat) (deadline : Option Nat) : resumeWait key deadline w p = (.ok (some .ok), p) := by
  rcases hx : p.waiters w with _ | x
  · simp [notified, hx] at hn
  · have hnotified : x.notified = true := by simpa [notified, hx] using hn
    obtain ⟨hnext, hprev⟩ := h.loose hw
    unfold resumeWait
    rw [run_bind_ok (waiterAt_run hx), if_pos hnotified,
      run_bind_ok (assertLoose_run hx (by simpa [next, hx] using hnext)
        (by simpa [prev, hx] using hprev))]
    rfl

theorem resumeWait_unmarked (h : Queues p q) (hw : w ∈ q key) (hn : p.notified w = false)
    (deadline : Option Nat) :
    resumeWait key deadline w p = parkOrTimeOut key deadline w p := by
  obtain ⟨x, hx⟩ := isSome_iff_exists.1 (h.alive hw).1
  have hnotified : x.notified = false := by simpa [notified, hx] using hn
  unfold resumeWait
  rw [run_bind_ok (waiterAt_run hx)]
  simp [hnotified]

end ParkingSpot

end Wasmtime.Vm
