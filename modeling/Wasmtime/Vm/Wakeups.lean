import Wasmtime.Vm.ParkingSpot

/-!
# Waiting threads and wakeups

Threads that call `wait32`, `wait64` and `notify` of one `ParkingSpot`, interleaved in any way: a
critical section is one step, a park may return at any time, and so may the clock advance. The log
records for each call of `wait` when it is queued, marked by a `notify`, and what it returns.

`waiting s key` are the waiters of the calls in progress on `key` that were not marked.
`no_lost_wakeup`: in every reachable state the links spell exactly these queues, `notify` marks the
front of them, a call that was marked returns `Ok` when its thread next runs and one that was not
returns `TimedOut` after its deadline, and no assertion fails.
-/

namespace Wasmtime.Vm

open Base Prog List Function

/-- A call of `wait` between its first park and its return. -/
structure Call where
  id : Nat
  thread : Nat
  waiter : Nat
  key : Nat
  deadline : Option Nat
deriving DecidableEq

inductive Event where
  | queued (deadline : Option Nat)
  | notified
  | returned (result : WaitResult) (now : Nat)
deriving DecidableEq

structure System where
  lot : ParkingSpot
  memory : Nat → Nat
  calls : List Call
  /-- The threads that dropped the lock to park, and whose park did not return yet. -/
  parked : Nat → Bool
  started : Nat
  log : List (Nat × Event)

namespace System

abbrev Exec (α : Type) : Type := Prog System Empty α

def init : System :=
  { lot := .new, memory := fun _ => 0, calls := [], parked := fun _ => false, started := 0,
    log := [] }

def onLot {α : Type} (m : ParkingSpot.Exec α) : Exec α :=
  zoom System.lot (fun p s => { s with lot := p }) m

def load (memory : Nat → Nat) (size addr : Nat) : Nat :=
  (List.range size).foldr (fun i n => memory (addr + i) + 256 * n) 0

/-- A call has started; `r` is what it returned, if it did not park. -/
def begun (c : Call) (s : System) : Option WaitResult → System
  | none =>
    { s with
      calls := s.calls ++ [c], parked := update s.parked c.thread true,
      started := s.started + 1, log := s.log ++ [(c.id, .queued c.deadline)] }
  | some .mismatch =>
    { s with
      started := s.started + 1, log := s.log ++ [(c.id, .returned .mismatch s.lot.now)] }
  | some r =>
    { s with
      started := s.started + 1,
      log := s.log ++ [(c.id, .queued c.deadline), (c.id, .returned r s.lot.now)] }

/-- A call went on with the lock; `r` is what it returned, if it did not park again. -/
def resumed (c : Call) (s : System) : Option WaitResult → System
  | none => { s with parked := update s.parked c.thread true }
  | some r =>
    { s with
      calls := s.calls.filter (fun x => decide (x.thread ≠ c.thread)),
      log := s.log ++ [(c.id, .returned r s.lot.now)] }

/-- The calls that a `notify` marked since `before`. -/
def marked (before s : System) : List Call :=
  s.calls.filter fun c => !before.lot.notified c.waiter && s.lot.notified c.waiter

def wait (thread waiter key : Nat) (valid : Bool) (deadline : Option Nat) : Exec Unit := do
  let r ← onLot (ParkingSpot.startWait key valid deadline waiter thread)
  Prog.modify (fun s => s.begun { id := s.started, thread, waiter, key, deadline } r)

def notify (addr n : Nat) : Exec Unit := do
  let before ← Prog.get
  let _ ← onLot (ParkingSpot.notify addr n)
  Prog.modify (fun s =>
    { s with log := s.log ++ (marked before s).map (fun c => (c.id, .notified)) })

/-- The park of a thread returns, and takes the token if there is one. -/
def wake (thread : Nat) (s : System) : System :=
  { s with
    lot := s.lot.setUnparked thread false, parked := update s.parked thread false }

def relock (thread : Nat) : Exec Unit := do
  let c ← unwrap ((← Prog.get).calls.find? (fun c => c.thread = thread)) (.unreachable "no call")
  let r ← onLot (ParkingSpot.resumeWait c.key c.deadline c.waiter)
  Prog.modify (fun s => s.resumed c r)

inductive Op where
  | wait32 (thread waiter addr expected : Nat) (deadline : Option Nat)
  | wait64 (thread waiter addr expected : Nat) (deadline : Option Nat)
  | notify (addr n : Nat)
  | wake (thread : Nat)
  | relock (thread : Nat)
  | store (addr value : Nat)
  | tick (dt : Nat)

def Op.exec : Op → Exec Unit
  | wait32 thread waiter addr expected deadline => do
    System.wait thread waiter addr (load (← Prog.get).memory 4 addr = expected) deadline
  | wait64 thread waiter addr expected deadline => do
    System.wait thread waiter addr (load (← Prog.get).memory 8 addr = expected) deadline
  | notify addr n => System.notify addr n
  | wake thread => Prog.modify (System.wake thread)
  | relock thread => System.relock thread
  | store addr value =>
    Prog.modify (fun s => { s with memory := update s.memory addr (value % 256) })
  | tick dt => Prog.modify (fun s => { s with lot := { s.lot with now := s.lot.now + dt } })

/-- A thread is in one call at a time, and has its waiter for itself. -/
def idle (s : System) (thread waiter : Nat) : Bool :=
  s.calls.all fun c => decide (c.thread ≠ thread ∧ c.waiter ≠ waiter)

def Op.allowed (s : System) : Op → Bool
  | wait32 thread waiter _ _ _ => s.idle thread waiter
  | wait64 thread waiter _ _ _ => s.idle thread waiter
  | wake thread => s.calls.any (fun c => c.thread = thread) && s.parked thread
  | relock thread => s.calls.any (fun c => c.thread = thread) && !s.parked thread
  | _ => true

def Step (s : System) (op : Op) (s' : System) : Prop :=
  op.allowed s = true ∧ op.exec s = (.ok (), s')

/-- The waiters queued on a key, the longest-waiting first. -/
def waiting (s : System) (key : Nat) : List Nat :=
  (s.calls.filter fun c => c.key = key && !s.lot.notified c.waiter).map Call.waiter

def history (log : List (Nat × Event)) (id : Nat) : List Event :=
  (log.filter fun x => x.1 = id).map Prod.snd

inductive Settled : List Event → Prop where
  | mismatch (now : Nat) : Settled [.returned .mismatch now]
  | ok (deadline : Option Nat) (now : Nat) :
      Settled [.queued deadline, .notified, .returned .ok now]
  | timedOut {deadline now : Nat} (h : deadline ≤ now) :
      Settled [.queued (some deadline), .returned .timedOut now]

/-! ### The invariant -/

structure Inv (s : System) : Prop where
  queues : s.lot.Queues s.waiting
  threads : (s.calls.map Call.thread).Nodup
  waiters : (s.calls.map Call.waiter).Nodup
  ids : (s.calls.map Call.id).Pairwise (· < ·)
  lt_started : ∀ c ∈ s.calls, c.id < s.started
  thread : ∀ c ∈ s.calls, s.lot.thread c.waiter = some c.thread
  token : ∀ c ∈ s.calls, s.parked c.thread = true → s.lot.notified c.waiter = true →
    s.lot.unparked c.thread = true
  story : ∀ c ∈ s.calls, history s.log c.id =
    .queued c.deadline :: if s.lot.notified c.waiter then [.notified] else []
  settled : ∀ id < s.started, (∀ c ∈ s.calls, c.id ≠ id) → Settled (history s.log id)
  fresh : ∀ id, s.started ≤ id → history s.log id = []

variable {s s' : System}

theorem mem_waiting {key w : Nat} : w ∈ s.waiting key ↔
    ∃ c ∈ s.calls, c.key = key ∧ s.lot.notified c.waiter = false ∧ c.waiter = w := by
  simp [waiting, and_assoc]

theorem history_append (log log' : List (Nat × Event)) (id : Nat) :
    history (log ++ log') id = history log id ++ history log' id := by
  simp [history]

@[simp] theorem history_nil (id : Nat) : history [] id = [] := rfl

@[simp] theorem history_cons (i : Nat) (e : Event) (log : List (Nat × Event)) (id : Nat) :
    history ((i, e) :: log) id = if i = id then e :: history log id else history log id := by
  simp only [history, filter_cons]
  split_ifs <;> simp_all

theorem history_map {cs : List Call} (h : (cs.map Call.id).Nodup) (e : Event) (id : Nat) :
    history (cs.map fun c => (c.id, e)) id = if ∃ c ∈ cs, c.id = id then [e] else [] := by
  induction cs with
  | nil => simp
  | cons c cs ih =>
    rw [map_cons, nodup_cons] at h
    rw [map_cons, history_cons, ih h.2]
    by_cases hc : c.id = id
    · have hno : ¬ ∃ x ∈ cs, x.id = id := by
        rintro ⟨x, hx, hxi⟩
        exact h.1 (mem_map.2 ⟨x, hx, hxi.trans hc.symm⟩)
      rw [if_pos hc, if_neg hno, if_pos ⟨c, mem_cons_self, hc⟩]
    · rw [if_neg hc]
      refine if_congr ?_ rfl rfl
      simp [hc]

namespace Inv

theorem init : Inv init := by
  refine ⟨⟨fun k => Linked.nil, ?_, ?_, fun _ => ⟨rfl, rfl⟩⟩, nodup_nil, nodup_nil,
    List.Pairwise.nil, ?_, ?_, ?_, ?_, ?_, fun _ _ => rfl⟩
  all_goals simp [System.init, waiting]

theorem eq_of_thread (h : Inv s) {c d : Call} (hc : c ∈ s.calls) (hd : d ∈ s.calls)
    (he : c.thread = d.thread) : c = d := inj_on_of_nodup_map h.threads hc hd he

theorem eq_of_waiter (h : Inv s) {c d : Call} (hc : c ∈ s.calls) (hd : d ∈ s.calls)
    (he : c.waiter = d.waiter) : c = d := inj_on_of_nodup_map h.waiters hc hd he

theorem eq_of_id (h : Inv s) {c d : Call} (hc : c ∈ s.calls) (hd : d ∈ s.calls)
    (he : c.id = d.id) : c = d :=
  inj_on_of_nodup_map (h.ids.imp fun hlt => Nat.ne_of_lt hlt) hc hd he

theorem not_waiting {w : Nat} (hw : ∀ c ∈ s.calls, c.waiter ≠ w) (k : Nat) : w ∉ s.waiting k :=
  fun hk => by
    obtain ⟨c, hc, _, _, he⟩ := mem_waiting.1 hk
    exact hw c hc he

theorem not_waiting_of_notified {c : Call} (hn : s.lot.notified c.waiter = true) (k : Nat) :
    c.waiter ∉ s.waiting k := fun hk => by
  obtain ⟨d, hd, _, hdn, he⟩ := mem_waiting.1 hk
  rw [he, hn] at hdn
  cases hdn

theorem mem_waiting_of_unmarked {c : Call} (hc : c ∈ s.calls)
    (hn : s.lot.notified c.waiter = false) : c.waiter ∈ s.waiting c.key :=
  mem_waiting.2 ⟨c, hc, rfl, hn, rfl⟩

end Inv

theorem waiting_congr (hc : s'.calls = s.calls)
    (hn : ∀ c ∈ s.calls, s'.lot.notified c.waiter = s.lot.notified c.waiter) :
    s'.waiting = s.waiting := by
  funext k
  unfold waiting
  rw [hc]
  exact congrArg _ (filter_congr fun c hm => by rw [hn c hm])

theorem history_map_pair (i : Nat) (es : List Event) (id : Nat) :
    history (es.map fun e => (i, e)) id = if i = id then es else [] := by
  induction es with
  | nil => simp
  | cons e es ih =>
    rw [map_cons, history_cons, ih]
    split_ifs <;> rfl

namespace Inv

variable {p : ParkingSpot}

theorem settle (h : Inv s) {es : List Event} (hq : p.Queues s.waiting)
    (hn : ∀ c ∈ s.calls, p.notified c.waiter = s.lot.notified c.waiter)
    (ht : ∀ c ∈ s.calls, p.thread c.waiter = s.lot.thread c.waiter)
    (hu : p.unparked = s.lot.unparked) (hes : Settled es) : Inv { s with
      lot := p, started := s.started + 1,
      log := s.log ++ es.map fun e => (s.started, e) } := by
  refine ⟨?_, h.threads, h.waiters, h.ids, fun c hc => Nat.lt_succ_of_lt (h.lt_started c hc),
    fun c hc => (ht c hc).trans (h.thread c hc), fun c hc hp hcn => ?_, fun c hc => ?_,
    fun id hid hc => ?_, fun id hid => ?_⟩
  · have hw : waiting { s with
        lot := p, started := s.started + 1,
        log := s.log ++ es.map fun e => (s.started, e) } = s.waiting := waiting_congr rfl hn
    rw [hw]
    exact hq
  · rw [hu]
    exact h.token c hc hp (hn c hc ▸ hcn)
  · have hne : s.started ≠ c.id := (h.lt_started c hc).ne'
    rw [history_append, history_map_pair, if_neg hne, append_nil, h.story c hc, hn c hc]
  · rw [history_append, history_map_pair]
    by_cases he : s.started = id
    · rw [if_pos he, h.fresh id he.le, nil_append]
      exact hes
    · rw [if_neg he, append_nil]
      exact h.settled id (by simp only at hid; omega) hc
  · have hne : s.started ≠ id := by simp only at hid; omega
    rw [history_append, history_map_pair, if_neg hne, append_nil]
    exact h.fresh id (by simp only at hid; omega)

theorem enqueue (h : Inv s) {thread waiter key : Nat} (deadline : Option Nat)
    (hidle : s.idle thread waiter = true)
    (hq : p.Queues (update s.waiting key (s.waiting key ++ [waiter])))
    (ha : ParkingSpot.Arms s.lot p waiter thread) :
    Inv (begun { id := s.started, thread, waiter, key, deadline } { s with lot := p } none) ∧
      (begun { id := s.started, thread, waiter, key, deadline } { s with lot := p } none).waiting =
        update s.waiting key (s.waiting key ++ [waiter]) := by
  have hother : ∀ c ∈ s.calls, c.thread ≠ thread ∧ c.waiter ≠ waiter := by
    simpa [idle] using hidle
  have hn : ∀ c ∈ s.calls, p.notified c.waiter = s.lot.notified c.waiter := fun c hc => by
    simp [ha.notified, (hother c hc).2]
  have hnw : p.notified waiter = false := by simp [ha.notified]
  have hwaiting : (begun { id := s.started, thread, waiter, key, deadline } { s with lot := p }
      none).waiting = update s.waiting key (s.waiting key ++ [waiter]) := by
    funext k
    have hold : (s.calls.filter fun c => c.key = k && !p.notified c.waiter).map Call.waiter =
        s.waiting k := congrArg _ (filter_congr fun c hc => by rw [hn c hc])
    show ((s.calls ++ [_]).filter fun c : Call => c.key = k && !p.notified c.waiter).map Call.waiter = _
    rw [filter_append, map_append, hold, update_apply]
    by_cases hk : k = key
    · simp [hk, hnw]
    · simp [hk, Ne.symm hk]
  refine ⟨⟨by rw [hwaiting]; exact hq, ?_, ?_, ?_, ?_, ?_, ?_, ?_, ?_, ?_⟩, hwaiting⟩
  · simp only [begun, map_append, map_cons, map_nil]
    refine nodup_append.2 ⟨h.threads, nodup_singleton _, ?_⟩
    rintro a ha' b hb rfl
    obtain ⟨c, hc, rfl⟩ := mem_map.1 ha'
    exact (hother c hc).1 (mem_singleton.1 hb)
  · simp only [begun, map_append, map_cons, map_nil]
    refine nodup_append.2 ⟨h.waiters, nodup_singleton _, ?_⟩
    rintro a ha' b hb rfl
    obtain ⟨c, hc, rfl⟩ := mem_map.1 ha'
    exact (hother c hc).2 (mem_singleton.1 hb)
  · simp only [begun, map_append, map_cons, map_nil]
    refine pairwise_append.2 ⟨h.ids, pairwise_singleton _ _, ?_⟩
    intro a ha' b hb
    obtain ⟨c, hc, rfl⟩ := mem_map.1 ha'
    rw [mem_singleton.1 hb]
    exact h.lt_started c hc
  · intro c hc
    rcases mem_append.1 hc with hc | hc
    · exact Nat.lt_succ_of_lt (h.lt_started c hc)
    · rw [mem_singleton.1 hc]
      exact Nat.lt_succ_self _
  · intro c hc
    show p.thread c.waiter = _
    rw [ha.thread]
    rcases mem_append.1 hc with hc | hc
    · rw [if_neg (hother c hc).2]
      exact h.thread c hc
    · rw [mem_singleton.1 hc, if_pos rfl]
  · intro c hc hp hcn
    rcases mem_append.1 hc with hc | hc
    · have hp' : s.parked c.thread = true := by
        simpa [begun, update_of_ne (hother c hc).1] using hp
      show p.unparked c.thread = true
      rw [ha.unparked]
      exact h.token c hc hp' (hn c hc ▸ hcn)
    · rw [mem_singleton.1 hc] at hcn
      exact absurd hcn (by simp [begun, hnw])
  · intro c hc
    show history (s.log ++ [(s.started, .queued deadline)]) c.id =
      .queued c.deadline :: if p.notified c.waiter then [.notified] else []
    rw [history_append, history_cons]
    rcases mem_append.1 hc with hc | hc
    · rw [if_neg (h.lt_started c hc).ne', history_nil, append_nil, h.story c hc, hn c hc]
    · rw [mem_singleton.1 hc]
      simp [h.fresh s.started le_rfl, hnw]
  · intro id hid hc
    have hne : s.started ≠ id := by
      have := hc { id := s.started, thread, waiter, key, deadline } (by simp [begun])
      exact this
    show Settled (history (s.log ++ [(s.started, .queued deadline)]) id)
    rw [history_append, history_cons, if_neg hne, history_nil, append_nil]
    refine h.settled id ?_ (fun c hm => hc c (mem_append_left _ hm))
    simp only [begun] at hid
    omega
  · intro id hid
    have hlt : s.started < id := by simpa [begun] using hid
    show history (s.log ++ [(s.started, .queued deadline)]) id = []
    rw [history_append, history_cons, if_neg hlt.ne, history_nil, append_nil]
    exact h.fresh id hlt.le

theorem wait_run (h : Inv s) {thread waiter : Nat} (hidle : s.idle thread waiter = true)
    (key : Nat) (valid : Bool) (deadline : Option Nat) :
    ∃ s', System.wait thread waiter key valid deadline s = (.ok (), s') ∧ Inv s' ∧
      (valid = true → s.lot.expired deadline = false →
        s'.waiting key = s.waiting key ++ [waiter]) := by
  have hother : ∀ c ∈ s.calls, c.thread ≠ thread ∧ c.waiter ≠ waiter := by
    simpa [idle] using hidle
  cases valid with
  | false =>
    refine ⟨_, rfl, ?_, fun hv => nomatch hv⟩
    exact h.settle h.queues (fun _ _ => rfl) (fun _ _ => rfl) rfl (.mismatch _)
  | true =>
    obtain ⟨p, hrun, hq, ha⟩ := ParkingSpot.startWait_run h.queues
      (not_waiting fun c hc => (hother c hc).2) key deadline thread
    have hz : onLot (ParkingSpot.startWait key true deadline waiter thread) s =
        (.ok (if s.lot.expired deadline then some .timedOut else none), { s with lot := p }) :=
      zoom_ok.2 ⟨p, hrun, rfl⟩
    refine ⟨_, (run_bind_ok hz).trans rfl, ?_⟩
    by_cases he : s.lot.expired deadline = true
    · rw [if_pos he] at hq ⊢
      refine ⟨?_, fun _ hf => absurd he (by simp [hf])⟩
      obtain ⟨d, rfl, hd⟩ : ∃ d, deadline = some d ∧ d ≤ s.lot.now := by
        simpa [ParkingSpot.expired, Option.any_eq_true] using he
      have := h.settle hq (fun c hc => by simp [ha.notified, (hother c hc).2])
        (fun c hc => by rw [ha.thread, if_neg (hother c hc).2]) ha.unparked
        (Settled.timedOut (show d ≤ p.now from ha.now ▸ hd))
      exact this
    · rw [if_neg he] at hq ⊢
      obtain ⟨hinv, hw⟩ := h.enqueue deadline hidle hq ha
      refine ⟨hinv, fun _ _ => ?_⟩
      rw [hw, update_self]

theorem waiting_leave (h : Inv s) {c : Call} (hc : c ∈ s.calls) (r : WaitResult)
    (hn : ∀ w, p.notified w = s.lot.notified w) (k : Nat) :
    (resumed c { s with lot := p } (some r)).waiting k =
      (s.waiting k).filter fun w => decide (w ≠ c.waiter) := by
  show ((s.calls.filter _).filter fun x : Call => x.key = k && !p.notified x.waiter).map Call.waiter
    = ((s.calls.filter _).map Call.waiter).filter _
  rw [filter_map, filter_filter, filter_filter]
  refine congrArg _ (filter_congr fun x hx => ?_)
  have hiff : x.thread ≠ c.thread ↔ x.waiter ≠ c.waiter := by
    refine not_congr ⟨fun e => ?_, fun e => ?_⟩
    · rw [h.eq_of_thread hx hc e]
    · rw [h.eq_of_waiter hx hc e]
  rw [hn]
  simp only [Function.comp, hiff]
  exact Bool.and_comm _ _

theorem leave (h : Inv s) {c : Call} {r : WaitResult} (hc : c ∈ s.calls)
    (hf : ParkingSpot.Frame s.lot p)
    (hq : p.Queues (resumed c { s with lot := p } (some r)).waiting)
    (hs : Settled (System.history s.log c.id ++ [.returned r p.now])) :
    Inv (resumed c { s with lot := p } (some r)) := by
  have hmem : ∀ x ∈ (resumed c { s with lot := p } (some r)).calls, x ∈ s.calls ∧ x ≠ c :=
    fun x hx => by
      obtain ⟨hx, hne⟩ := mem_filter.1 hx
      exact ⟨hx, fun e => (of_decide_eq_true hne) (e ▸ rfl)⟩
  have hlog : ∀ id, System.history (resumed c { s with lot := p } (some r)).log id =
      System.history s.log id ++ if c.id = id then [.returned r p.now] else [] := fun id => by
    show System.history (s.log ++ [(c.id, .returned r p.now)]) id = _
    rw [history_append, history_cons, history_nil]
  have hsub : (resumed c { s with lot := p } (some r)).calls.Sublist s.calls := filter_sublist
  refine ⟨hq, h.threads.sublist (hsub.map _), h.waiters.sublist (hsub.map _),
    h.ids.sublist (hsub.map _), fun x hx => h.lt_started x (hmem x hx).1, fun x hx => ?_,
    fun x hx hp hn => ?_, fun x hx => ?_, fun id hid hx => ?_, fun id hid => ?_⟩
  · show p.thread x.waiter = _
    rw [hf.thread]
    exact h.thread x (hmem x hx).1
  · show p.unparked x.thread = true
    rw [hf.unparked]
    refine h.token x (hmem x hx).1 hp ?_
    rw [← hf.notified]
    exact hn
  · obtain ⟨hx, hne⟩ := hmem x hx
    have hid : c.id ≠ x.id := fun e => hne (h.eq_of_id hx hc e.symm)
    rw [hlog, if_neg hid, append_nil, h.story x hx, ← hf.notified]
    rfl
  · rw [hlog]
    by_cases he : c.id = id
    · rw [if_pos he, ← he]
      exact hs
    · rw [if_neg he, append_nil]
      refine h.settled id hid (fun x hm e => ?_)
      by_cases hxc : x = c
      · exact he (hxc ▸ e)
      · refine hx x (mem_filter.2 ⟨hm, decide_eq_true fun e' => ?_⟩) e
        exact hxc (h.eq_of_thread hm hc e')
  · have hne : c.id ≠ id := fun e => absurd (h.lt_started c hc) (by rw [e]; exact not_lt.2 hid)
    rw [hlog, if_neg hne, append_nil]
    exact h.fresh id hid

theorem relock_run (h : Inv s) {thread : Nat}
    (hany : s.calls.any (fun c => decide (c.thread = thread)) = true)
    (hp : s.parked thread = false) :
    ∃ s', System.relock thread s = (.ok (), s') ∧ Inv s' := by
  obtain ⟨c, hfind⟩ := Option.isSome_iff_exists.1 (find?_isSome.2 (any_eq_true.1 hany))
  have hc : c ∈ s.calls := mem_of_find?_eq_some hfind
  obtain rfl : c.thread = thread := by simpa using find?_some hfind
  have hstart : System.relock c.thread s =
      (onLot (ParkingSpot.resumeWait c.key c.deadline c.waiter) >>= fun r =>
        Prog.modify (fun s => s.resumed c r)) s := by
    unfold System.relock
    rw [run_get_bind, run_bind_ok (unwrap_ok.2 ⟨hfind, rfl⟩)]
  rw [hstart]
  have hrun : ∀ {r p}, ParkingSpot.resumeWait c.key c.deadline c.waiter s.lot = (.ok r, p) →
      (onLot (ParkingSpot.resumeWait c.key c.deadline c.waiter) >>= fun r =>
        Prog.modify (fun s => s.resumed c r)) s = (.ok (), resumed c { s with lot := p } r) :=
    fun hx => run_bind_ok (zoom_ok.2 ⟨_, hx, rfl⟩)
  by_cases hn : s.lot.notified c.waiter = true
  · -- marked: the waiter is in no queue any more
    have hnot := not_waiting_of_notified hn
    refine ⟨_, hrun (ParkingSpot.resumeWait_notified h.queues hnot hn c.key c.deadline), ?_⟩
    refine h.leave hc ⟨fun _ => rfl, fun _ => rfl, fun _ => rfl, fun _ hk => hk, rfl, rfl⟩ ?_ ?_
    · have hw : (resumed c { s with lot := s.lot } (some .ok)).waiting = s.waiting := by
        funext k
        rw [h.waiting_leave hc .ok (fun _ => rfl), filter_eq_self]
        intro w hw
        exact decide_eq_true fun e => hnot k (e ▸ hw)
      rw [hw]
      exact h.queues
    · rw [h.story c hc, if_pos hn]
      exact .ok _ _
  · have hn : s.lot.notified c.waiter = false := by simpa using hn
    have hw := mem_waiting_of_unmarked hc hn
    obtain ⟨p, hx, hq, hf⟩ := ParkingSpot.parkOrTimeOut_run h.queues _ _ hw c.deadline
    rw [← ParkingSpot.resumeWait_unmarked h.queues hw hn] at hx
    refine ⟨_, hrun hx, ?_⟩
    by_cases he : s.lot.expired c.deadline = true
    · rw [if_pos he] at hq ⊢
      obtain ⟨d, hd, hle⟩ : ∃ d, c.deadline = some d ∧ d ≤ s.lot.now := by
        rcases hd : c.deadline with _ | d
        · simp [ParkingSpot.expired, hd] at he
        · exact ⟨d, rfl, by simpa [ParkingSpot.expired, hd] using he⟩
      refine h.leave hc hf ?_ ?_
      · have hw' : (resumed c { s with lot := p } (some .timedOut)).waiting =
            update s.waiting c.key ((s.waiting c.key).erase c.waiter) := by
          funext k
          rw [h.waiting_leave hc .timedOut hf.notified, update_apply]
          split_ifs with hk
          · rw [hk, (h.queues.linked c.key).nodup.erase_eq_filter]
            exact filter_congr fun w _ => by simp [bne, BEq.beq]
          · rw [filter_eq_self]
            intro w hwk
            exact decide_eq_true fun e => hk (h.queues.disjoint (e ▸ hwk) hw)
        rw [hw']
        exact hq
      · rw [h.story c hc, hn, hd]
        exact .timedOut (hf.now ▸ hle)
    · -- neither marked nor expired: the thread parks again
      rw [if_neg he] at hq ⊢
      have hw' : (resumed c { s with lot := p } none).waiting = s.waiting :=
        waiting_congr rfl (fun x _ => hf.notified x.waiter)
      refine ⟨by rw [hw']; exact hq, h.threads, h.waiters, h.ids, h.lt_started,
        fun x hx => (hf.thread _).trans (h.thread x hx), fun x hx hpx hnx => ?_, fun x hx => ?_,
        h.settled, h.fresh⟩
      · have hnx' : s.lot.notified x.waiter = true := hf.notified x.waiter ▸ hnx
        show p.unparked x.thread = true
        rw [hf.unparked]
        by_cases hxc : x.thread = c.thread
        · rw [h.eq_of_thread hx hc hxc, hn] at hnx'
          cases hnx'
        · refine h.token x hx ?_ hnx'
          simpa [resumed, update_of_ne hxc] using hpx
      · show history s.log x.id =
          .queued x.deadline :: if p.notified x.waiter then [.notified] else []
        rw [hf.notified]
        exact h.story x hx

theorem filter_not_mem_take {l : List Nat} (h : l.Nodup) (n : Nat) :
    (l.filter fun w => !decide (w ∈ l.take n)) = l.drop n := by
  have hdisj : ∀ w ∈ l.drop n, w ∉ l.take n := fun w hd ht => by
    rw [← take_append_drop n l] at h
    exact (nodup_append.1 h).2.2 w ht w hd rfl
  conv_lhs => rw [← take_append_drop n l]
  rw [filter_append, filter_eq_nil_iff.2 (by simp), nil_append, filter_eq_self.2]
  intro w hw
  simpa using hdisj w hw

theorem waiting_notify (h : Inv s) {addr n : Nat} {log : List (Nat × Event)}
    (hm : ParkingSpot.Marks s.lot p ((s.waiting addr).take n)) : waiting { s with lot := p, log } =
      update s.waiting addr ((s.waiting addr).drop n) := by
  funext k
  have hfilter : waiting { s with lot := p, log } k =
      (s.waiting k).filter fun w => !decide (w ∈ (s.waiting addr).take n) := by
    show (s.calls.filter fun c => c.key = k && !p.notified c.waiter).map Call.waiter =
      ((s.calls.filter _).map Call.waiter).filter _
    rw [filter_map, filter_filter]
    refine congrArg _ (filter_congr fun c hc => ?_)
    rw [hm.notified, Bool.not_or]
    simp only [Function.comp]
    rw [Bool.and_comm _ (!decide (c.waiter ∈ _)), Bool.and_left_comm]
  rw [hfilter, update_apply]
  split_ifs with hk
  · rw [hk, filter_not_mem_take (h.queues.linked addr).nodup]
  · rw [filter_eq_self]
    intro w hw
    simp only [Bool.not_eq_true', decide_eq_false_iff_not]
    exact fun ht => hk (h.queues.disjoint hw (mem_of_mem_take ht))

theorem notify_run (h : Inv s) (addr n : Nat) :
    ∃ s', System.notify addr n s = (.ok (), s') ∧ Inv s' := by
  obtain ⟨p, hrun, hq, hm⟩ := ParkingSpot.notify_run h.queues addr n
  have hz : onLot (ParkingSpot.notify addr n) s =
      (.ok (min n (s.waiting addr).length), { s with lot := p }) :=
    zoom_ok.2 ⟨p, hrun, rfl⟩
  refine ⟨_, (run_get_bind _).trans ((run_bind_ok hz).trans rfl), ?_⟩
  have hmarked : marked s { s with lot := p } =
      s.calls.filter fun c => !s.lot.notified c.waiter && p.notified c.waiter := rfl
  have hnodup : ((marked s { s with lot := p }).map Call.id).Nodup :=
    (h.ids.imp fun hlt => Nat.ne_of_lt hlt).sublist (filter_sublist.map _)
  have hlog : ∀ id, history (s.log ++ (marked s { s with lot := p }).map
      fun c => (c.id, Event.notified)) id = history s.log id ++
        if ∃ c ∈ marked s { s with lot := p }, c.id = id then [.notified] else [] := fun id => by
    rw [history_append, history_map hnodup]
  have hnone : ∀ id, (∀ c ∈ s.calls, c.id ≠ id) →
      ¬ ∃ c ∈ marked s { s with lot := p }, c.id = id := by
    rintro id hid ⟨c, hc, he⟩
    exact hid c (mem_filter.1 hc).1 he
  refine ⟨?_, h.threads, h.waiters, h.ids, h.lt_started,
    fun c hc => (hm.thread _).trans (h.thread c hc), fun c hc hp hn => ?_, fun c hc => ?_,
    fun id hid hc => ?_, fun id hid => ?_⟩
  · rw [h.waiting_notify hm]
    exact hq
  · show p.unparked c.thread = true
    have hn' : p.notified c.waiter = true := hn
    rw [hm.notified, Bool.or_eq_true] at hn'
    rw [hm.unparked, Bool.or_eq_true]
    rcases hn' with hn' | hn'
    · exact Or.inl (h.token c hc hp hn')
    · exact Or.inr (any_eq_true.2 ⟨c.waiter, of_decide_eq_true hn', decide_eq_true (h.thread c hc)⟩)
  · show history _ c.id = .queued c.deadline :: if p.notified c.waiter then [.notified] else []
    rw [hlog, h.story c hc, hm.notified]
    have hiff : (∃ x ∈ marked s { s with lot := p }, x.id = c.id) ↔
        c ∈ marked s { s with lot := p } := by
      refine ⟨?_, fun hm' => ⟨c, hm', rfl⟩⟩
      rintro ⟨x, hx, he⟩
      rwa [← h.eq_of_id (mem_filter.1 hx).1 hc he]
    have hmem : c ∈ marked s { s with lot := p } ↔
        s.lot.notified c.waiter = false ∧ c.waiter ∈ (s.waiting addr).take n := by
      rw [hmarked, mem_filter, hm.notified]
      cases s.lot.notified c.waiter <;> simp [hc]
    rw [if_congr (hiff.trans hmem) rfl rfl]
    cases s.lot.notified c.waiter <;> simp
  · show Settled (history _ id)
    rw [hlog, if_neg (hnone id hc), append_nil]
    exact h.settled id hid hc
  · have hid : s.started ≤ id := hid
    rw [hlog, if_neg (hnone id fun c hc e => absurd (h.lt_started c hc) (by omega)), h.fresh id hid]
    rfl

theorem step (h : Inv s) (op : Op) (hop : op.allowed s = true) :
    ∃ s', op.exec s = (.ok (), s') ∧ Inv s' := by
  cases op with
  | wait32 thread waiter addr expected deadline =>
    obtain ⟨s', hrun, hinv, _⟩ := h.wait_run hop addr
      (decide (load s.memory 4 addr = expected)) deadline
    exact ⟨s', hrun, hinv⟩
  | wait64 thread waiter addr expected deadline =>
    obtain ⟨s', hrun, hinv, _⟩ := h.wait_run hop addr
      (decide (load s.memory 8 addr = expected)) deadline
    exact ⟨s', hrun, hinv⟩
  | notify addr n => exact h.notify_run addr n
  | wake thread =>
    refine ⟨_, rfl, ⟨h.queues.linked, h.queues.disjoint, h.queues.alive, h.queues.loose⟩, h.threads,
      h.waiters, h.ids, h.lt_started, h.thread, fun c hc hp hn => ?_, h.story, h.settled, h.fresh⟩
    have hne : c.thread ≠ thread := by
      rintro rfl
      simp [wake] at hp
    have := h.token c hc (by simpa [wake, update_of_ne hne] using hp) hn
    simpa [wake, ParkingSpot.setUnparked, update_of_ne hne] using this
  | relock thread =>
    rw [Op.allowed, Bool.and_eq_true, Bool.not_eq_true'] at hop
    exact h.relock_run hop.1 hop.2
  | store addr value => exact ⟨_, rfl, h.queues, h.threads, h.waiters, h.ids, h.lt_started,
      h.thread,
      h.token, h.story, h.settled, h.fresh⟩
  | tick dt => exact ⟨_, rfl, ⟨h.queues.linked, h.queues.disjoint, h.queues.alive, h.queues.loose⟩,
      h.threads, h.waiters, h.ids, h.lt_started, h.thread, h.token, h.story, h.settled, h.fresh⟩

end Inv

/-! ### No wakeup is lost -/

/-- What waiting threads may rely on in a state. -/
structure LosesNoWakeup (s : System) : Prop where
  /-- The links spell the queues of the calls in progress, the oldest call first. -/
  queues : s.lot.Queues s.waiting ∧ (s.calls.map Call.id).Pairwise (· < ·)
  no_panic : ∀ op : Op, op.allowed s = true → (op.exec s).1.isPanic = false
  /-- `notify` marks the longest-waiting ones, and returns their number. -/
  notify : ∀ addr n, ∃ p, ParkingSpot.notify addr n s.lot =
      (.ok (min n (s.waiting addr).length), p) ∧
    ∀ w, p.notified w = (s.lot.notified w || decide (w ∈ (s.waiting addr).take n))
  /-- A waiter that finds the expected value is in the queue when the lock is dropped. -/
  queued : ∀ thread waiter addr expected deadline s',
    (Step s (.wait32 thread waiter addr expected deadline) s' ∧ load s.memory 4 addr = expected ∨
      Step s (.wait64 thread waiter addr expected deadline) s' ∧ load s.memory 8 addr = expected) →
    s.lot.expired deadline = false → s'.waiting addr = s.waiting addr ++ [waiter]
  /-- A call in progress was marked once or not at all, and it returned nothing yet. -/
  story : ∀ c ∈ s.calls, history s.log c.id =
    .queued c.deadline :: if s.lot.notified c.waiter then [.notified] else []
  /-- One that was marked is not held up by its park, and returns `Ok`. -/
  woken : ∀ c ∈ s.calls, s.lot.notified c.waiter = true →
    (s.parked c.thread = true → s.lot.unparked c.thread = true) ∧
      ParkingSpot.resumeWait c.key c.deadline c.waiter s.lot = (.ok (some .ok), s.lot)
  /-- A call that is over returned once: `Ok` if it was marked, else after its deadline. -/
  settled : ∀ id < s.started, (∀ c ∈ s.calls, c.id ≠ id) → Settled (history s.log id)
  /-- The waiter of no call in progress is in no queue. -/
  loose : ∀ w, (∀ c ∈ s.calls, c.waiter ≠ w) →
    (∀ key, w ∉ s.waiting key) ∧ s.lot.next w = none ∧ s.lot.prev w = none

theorem Inv.of_trace {ops : List Op} (h : Trace Step System.init ops s) : Inv s := by
  refine h.invariant Inv.init (fun s op s' hs hstep => ?_)
  obtain ⟨s'', hrun, hinv⟩ := hs.step op hstep.1
  rw [hstep.2] at hrun
  obtain ⟨_, rfl⟩ := Prod.mk.inj hrun
  exact hinv

/-- **No wakeup is lost**, whatever the interleaving. -/
theorem no_lost_wakeup {ops : List Op} (h : Trace Step init ops s) : LosesNoWakeup s := by
  have hinv := Inv.of_trace h
  refine ⟨⟨hinv.queues, hinv.ids⟩, fun op hop => ?_, fun addr n => ?_, ?_, hinv.story,
    fun c hc hn => ⟨fun hp => hinv.token c hc hp hn, ?_⟩, hinv.settled, fun w hw => ?_⟩
  · obtain ⟨s', hrun, _⟩ := hinv.step op hop
    rw [hrun]
    rfl
  · obtain ⟨p, hrun, _, hm⟩ := ParkingSpot.notify_run hinv.queues addr n
    exact ⟨p, hrun, hm.notified⟩
  · intro thread waiter addr expected deadline s' hstep hexp
    -- both instructions call `wait`, with the value that the memory holds
    have hwait : s.idle thread waiter = true ∧
        wait thread waiter addr true deadline s = (.ok (), s') := by
      rcases hstep with ⟨⟨hop, hx⟩, hv⟩ | ⟨⟨hop, hx⟩, hv⟩
      · simp only [Op.exec, run_get_bind, hv, decide_true] at hx
        exact ⟨hop, hx⟩
      · simp only [Op.exec, run_get_bind, hv, decide_true] at hx
        exact ⟨hop, hx⟩
    obtain ⟨s'', hrun, _, hq⟩ := hinv.wait_run hwait.1 addr true deadline
    rw [hwait.2] at hrun
    obtain ⟨_, rfl⟩ := Prod.mk.inj hrun
    exact hq rfl hexp
  · exact ParkingSpot.resumeWait_notified hinv.queues (Inv.not_waiting_of_notified hn) hn _ _
  · exact ⟨Inv.not_waiting hw, hinv.queues.loose (Inv.not_waiting hw)⟩

def next (s : System) (op : Op) : Option System := if op.allowed s then op.exec.next s else none

theorem step_of_next {op : Op} (h : next s op = some s') : Step s op s' := by
  unfold next at h
  split at h
  · exact ⟨‹_›, (next_eq_some h).choose_spec⟩
  · cases h

/-- Two threads wait on one address; one is notified, the other times out and uses its waiter for
another address. -/
def twoWaiters : List Op :=
  [.wait32 0 0 8 0 none, .wait32 1 1 8 0 (some 5), .notify 8 1, .tick 5, .wake 1, .relock 1,
    .wait64 1 1 16 0 none, .wake 0, .relock 0]

theorem no_lost_wakeup_twoWaiters : ∃ s, Trace Step init twoWaiters s ∧ s.waiting 16 = [1] ∧
    history s.log 0 = [.queued none, .notified, .returned .ok 5] ∧
    history s.log 1 = [.queued (some 5), .returned .timedOut 5] ∧ LosesNoWakeup s := by
  obtain ⟨s, hrun, hs⟩ := Trace.exists_of_foldlM Step (s := init) (fun _ _ _ h => step_of_next h)
    (fun s => decide (s.waiting 16 = [1] ∧
      history s.log 0 = [.queued none, .notified, .returned .ok 5] ∧
      history s.log 1 = [.queued (some 5), .returned .timedOut 5])) twoWaiters (by decide)
  obtain ⟨h1, h2, h3⟩ := of_decide_eq_true hs
  exact ⟨s, hrun, h1, h2, h3, no_lost_wakeup hrun⟩

end System

end Wasmtime.Vm
