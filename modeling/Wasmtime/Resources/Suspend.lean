import Wasmtime.Base.Ledger
import Wasmtime.Resources.Accounting

/-!
# Borrow scopes of tasks that suspend

A guest task has a `CallContext` of its own, which is on the stack of contexts while the task runs
and kept by the task while it is suspended (`maybe_push_call_context`, `maybe_pop_call_context`);
the future of a host call does the same (`first_poll`). A `Borrow` slot, though, names its context
by position in the stack.

The stack, the tasks and the borrows are seen as a `Ledger` (`SuspendRun`), which the faithful state
tracks in every run (`Tracks`). It is balanced as long as a context that counts borrows is pushed
back where it was and a borrow is dropped only while the context that counted it is on the stack
(`borrow_scopes`). Both are needed: in `drop_in_other_task` a task drops a borrow of another.
-/

namespace Wasmtime.Resources

open Base Prog ResourceTables List ResourceTable

/-! ### Tasks and their contexts -/

/-- What of a guest task has to do with call contexts. -/
structure GuestTask where
  /-- `lift_result.is_some()`: the task has neither returned nor been cancelled. -/
  liftResult : Bool
  callContext : Option CallContext

structure TaskStore where
  tables : ResourceTables
  tasks : List GuestTask
  /-- The contexts kept by the futures of `first_poll`. -/
  futures : List (Option CallContext)

/-- Who keeps a context that is not on the stack. -/
inductive Holder where
  | task (task : Nat)
  | future (future : Nat)
deriving DecidableEq

namespace TaskStore

def context (s : TaskStore) : Holder → Option CallContext
  | .task t => s.tasks[t]?.bind (·.callContext)
  | .future f => s.futures[f]?.join

def pushContext (cx : CallContext) : Prog TaskStore Error Unit :=
  Prog.modify (fun s => { s with tables := { s.tables with calls := s.tables.calls.push cx } })

def popContext : Prog TaskStore Error CallContext := do
  let s ← Prog.get
  match s.tables.calls.pop with
  | none => Prog.panic (.unwrap "calls.pop")
  | some (cx, calls) => do
    Prog.set { s with tables := { s.tables with calls } }
    pure cx

def getTask (t : Nat) : Prog TaskStore Error GuestTask := do
  let s ← Prog.get
  orErr s.tasks[t]? (.msg "table has no entry")

def setTask (t : Nat) (task : GuestTask) : Prog TaskStore Error Unit :=
  Prog.modify (fun s => { s with tasks := s.tasks.set t task })

def maybePushCallContext (t : Nat) : Prog TaskStore Error Unit := do
  let task ← getTask t
  if task.liftResult then do
    let cx ← unwrap task.callContext (.unwrap "call_context.take")
    setTask t { task with callContext := none }
    pushContext cx

def maybePopCallContext (t : Nat) : Prog TaskStore Error Unit := do
  let task ← getTask t
  if task.liftResult then do
    let cx ← popContext
    setTask t { task with callContext := some cx }

def getFuture (f : Nat) : Prog TaskStore Error (Option CallContext) := do
  let s ← Prog.get
  orErr s.futures[f]? (.msg "no such future")

def setFuture (f : Nat) (cx : Option CallContext) : Prog TaskStore Error Unit :=
  Prog.modify (fun s => { s with futures := s.futures.set f cx })

/-- The future of `first_poll`, before it polls the future it wraps. -/
def pollStart (f : Nat) : Prog TaskStore Error Unit := do
  match ← getFuture f with
  | none => pure ()
  | some cx => do
    setFuture f none
    pushContext cx

/-- The same, after the wrapped future was pending. -/
def pollPending (f : Nat) : Prog TaskStore Error Unit := do
  let _ ← getFuture f
  let cx ← popContext
  setFuture f (some cx)

/-- `lift_result.take()`, when a task returns or is cancelled. -/
def takeLiftResult (t : Nat) : Prog TaskStore Error Unit := do
  let task ← getTask t
  if task.liftResult then
    setTask t { task with liftResult := false }
  else
    err (.msg "`task.return` or `task.cancel` called more than once for current task")

/-- `GuestTask::new`: the context of a new task counts nothing. -/
def newTask : Prog TaskStore Error Unit :=
  Prog.modify (fun s =>
    { s with tasks := s.tasks ++ [{ liftResult := true, callContext := some default }] })

def newFuture : Prog TaskStore Error Unit :=
  Prog.modify (fun s => { s with futures := s.futures ++ [none] })

end TaskStore

inductive SuspendOp where
  | newTask
  | newFuture
  | push (h : Holder)
  | pop (h : Holder)
  | takeLiftResult (task : Nat)
  | res (op : ResourceTables.Op)

namespace SuspendOp

open TaskStore in
def exec : SuspendOp → Prog TaskStore Error (Option Nat)
  | newTask => do TaskStore.newTask; pure none
  | newFuture => do TaskStore.newFuture; pure none
  | push (.task t) => do maybePushCallContext t; pure none
  | push (.future f) => do pollStart f; pure none
  | pop (.task t) => do maybePopCallContext t; pure none
  | pop (.future f) => do pollPending f; pure none
  | takeLiftResult t => do TaskStore.takeLiftResult t; pure none
  | res op => zoom (·.tables) (fun t s => { s with tables := t }) op.exec

end SuspendOp

/-! ### What the operations do to borrows -/

namespace ResourceTables

def slotScope : Option Slot → Option Nat
  | some (.borrow _ scope) => some scope
  | _ => none

def borrowAt (s : ResourceTables) (k : TableKey) (i : Nat) : Option Nat :=
  slotScope (s.table k).slots[i]?

def counts (s : ResourceTables) : List Nat := s.calls.scopes.map (·.borrowCount)

def AllWf (s : ResourceTables) : Prop := ∀ k, s.Valid k → (s.table k).Wf

structure SameBorrows (s s' : ResourceTables) : Prop where
  wf : AllWf s → AllWf s'
  borrow : ∀ k i, s'.borrowAt k i = s.borrowAt k i

theorem SameBorrows.refl (s : ResourceTables) : SameBorrows s s := ⟨id, fun _ _ => rfl⟩

theorem SameBorrows.trans {s s' s'' : ResourceTables} (h : SameBorrows s s')
    (h' : SameBorrows s' s'') : SameBorrows s s'' :=
  ⟨fun hw => h'.wf (h.wf hw), fun k i => (h'.borrow k i).trans (h.borrow k i)⟩

theorem SameBorrows.calls (s : ResourceTables) (c : CallContexts) :
    SameBorrows s { s with calls := c } := by
  refine ⟨fun hw k hk => ?_, fun k i => ?_⟩
  · cases k with
    | host => exact hw .host hk
    | guest i => exact hw (.guest i) hk
  · cases k <;> rfl

variable {s : ResourceTables} {k : TableKey} {t : ResourceTable}

theorem AllWf.setTable (h : AllWf s) (hk : s.Valid k) (ht : t.Wf) : AllWf (s.setTable k t) := by
  intro k' hk'
  rw [valid_setTable] at hk'
  by_cases he : k' = k
  · subst he; rw [table_setTable_self hk]; exact ht
  · rw [table_setTable_ne he]; exact h k' hk'

theorem borrowAt_setTable (hk : s.Valid k) (t : ResourceTable) (k' : TableKey) (i : Nat) :
    (s.setTable k t).borrowAt k' i =
      if k' = k then slotScope t.slots[i]? else s.borrowAt k' i := by
  unfold borrowAt
  split
  · rename_i he; subst he; rw [table_setTable_self hk]
  · rename_i he; rw [table_setTable_ne he]

variable {r : TypedResource}

theorem SameBorrows.setOwn (hk : s.Valid k) {i : Nat} {n m : Nat}
    (hi : (s.table k).slots[i]? = some (.own r n)) :
    SameBorrows s (s.setTable k { s.table k with slots := (s.table k).slots.set i (.own r m) }) := by
  refine ⟨fun hw => hw.setTable hk (set_wf (hw k hk) hi rfl), fun k' j => ?_⟩
  rw [borrowAt_setTable hk]
  split
  · rename_i he
    subst he
    by_cases hj : j = i
    · subst hj
      rw [getElem?_set_self (List.getElem?_eq_some_iff.1 hi).1, borrowAt, hi]
      rfl
    · rw [getElem?_set_ne (Ne.symm hj)]
      rfl
  · rfl

theorem borrowAt_insert (hk : s.Valid k) {new : Slot}
    (hi : ResourceTable.Inserted (s.table k) new t) :
    s.borrowAt k (s.table k).next = none ∧ ∀ k' j, (s.setTable k t).borrowAt k' j =
      if (k', j) = (k, (s.table k).next) then slotScope (some new) else s.borrowAt k' j := by
  constructor
  · unfold borrowAt
    cases hg : (s.table k).slots[(s.table k).next]? with
    | none => rfl
    | some slot =>
      have hf := hi.fresh slot hg
      cases slot with
      | free n => rfl
      | own r n => cases hf
      | borrow r n => cases hf
  · intro k' j
    rw [borrowAt_setTable hk]
    by_cases he : k' = k
    · subst he
      rw [if_pos rfl]
      by_cases hj : j = (s.table k').next
      · subst hj; rw [if_pos rfl, hi.at_next]
      · rw [if_neg (by simpa using hj), hi.frame j hj]; rfl
    · rw [if_neg he, if_neg (by simp [he])]

theorem borrowAt_removed (hk : s.Valid k) {i : Nat} {slot : Slot}
    (hi : (s.table k).slots[i]? = some slot) (k' : TableKey) (j : Nat) :
    (s.setTable k ((s.table k).removed i)).borrowAt k' j =
      if (k', j) = (k, i) then none else s.borrowAt k' j := by
  rw [borrowAt_setTable hk]
  by_cases he : k' = k
  · subst he
    rw [if_pos rfl, ResourceTable.removed]
    by_cases hj : j = i
    · subst hj
      rw [if_pos rfl, getElem?_set_self (List.getElem?_eq_some_iff.1 hi).1]
      rfl
    · rw [if_neg (by simpa using hj), getElem?_set_ne (Ne.symm hj)]
      rfl
  · rw [if_neg he, if_neg (by simp [he])]

inductive BorrowEffect (s : ResourceTables) : Op → Option Nat → ResourceTables → Prop
  | keep {op ret s'} (hop : ∀ p x, op ≠ .resourceLowerBorrow p x) (hdrop : ∀ p index k,
        op = .resourceDrop p index → s.locate index.ty = some k →
        s.borrowAt k (index.rawIndex - 1) = none)
      (hcall : op ≠ .enterCall) (hexit : ∀ p, op ≠ .exitCall p) (hs : SameBorrows s s')
      (hc : s'.counts = s.counts) : BorrowEffect s op ret s'
  | enter {s'} (hs : SameBorrows s s') (hc : s'.counts = s.counts ++ [0]) :
      BorrowEffect s .enterCall none s'
  | leave {p s'} (hs : SameBorrows s s') (hc : s.counts = s'.counts ++ [0]) :
      BorrowEffect s (.exitCall p) none s'
  | lower {p r k i n cs s'} (hl : s.locate r.ty = some k) (hwf : AllWf s → AllWf s')
      (hn : s.borrowAt k i = none) (hb : ∀ k' j, s'.borrowAt k' j =
        if (k', j) = (k, i) then some cs.length else s.borrowAt k' j)
      (hc : s.counts = cs ++ [n]) (hc' : s'.counts = cs ++ [n + 1]) :
      BorrowEffect s (.resourceLowerBorrow p r) (some (i + 1)) s'
  | drop {p index k scope n s'} (hl : s.locate index.ty = some k) (hwf : AllWf s → AllWf s')
      (hn : s.borrowAt k (index.rawIndex - 1) = some scope) (hb : ∀ k' j, s'.borrowAt k' j =
        if (k', j) = (k, index.rawIndex - 1) then none else s.borrowAt k' j)
      (hc : s.counts[scope]? = some (n + 1)) (hc' : s'.counts = s.counts.set scope n) :
      BorrowEffect s (.resourceDrop p index) none s'

theorem counts_setTable (s : ResourceTables) (k : TableKey) (t : ResourceTable) :
    (s.setTable k t).counts = s.counts := by
  rw [counts, calls_setTable, counts]

theorem SameBorrows.insertOwn (hk : s.Valid k) {n : Nat}
    (hi : ResourceTable.Inserted (s.table k) (.own r n) t) : SameBorrows s (s.setTable k t) := by
  obtain ⟨hnone, hb⟩ := borrowAt_insert hk hi
  refine ⟨fun hw => hw.setTable hk hi.wf, fun k' j => ?_⟩
  rw [hb]
  split
  · rename_i he
    cases he
    exact hnone.symm
  · rfl

theorem SameBorrows.removeOwn (hk : s.Valid k) {i : Nat} {n : Nat}
    (hi : (s.table k).slots[i]? = some (.own r n)) :
    SameBorrows s (s.setTable k ((s.table k).removed i)) := by
  refine ⟨fun hw => hw.setTable hk (removed_wf (hw k hk) hi rfl), fun k' j => ?_⟩
  rw [borrowAt_removed hk hi]
  split
  · rename_i he
    cases he
    rw [borrowAt, hi]
    rfl
  · rfl

variable {p : Parts}

variable {s s' : ResourceTables}

theorem insertOwn_borrows {ty : Option Nat} {idx : Nat} (hw : AllWf s)
    (h : (do let k ← tableFor p ty; onTable k (ResourceTable.insert (.own r 0))) s = (.ok idx, s'))
    : SameBorrows s s' ∧ s'.counts = s.counts := by
  obtain ⟨k, hl, ho⟩ := tableFor_bind_ok h
  obtain ⟨t, ht, rfl⟩ := onTable_ok.1 ho
  have hv := locate_valid hl
  exact ⟨.insertOwn hv (insert_ok (hw k hv) ht).2.2, counts_setTable _ _ _⟩

variable {index : TypedResourceIndex}

theorem liftOwn_borrows {rep : Nat} (h : resourceLiftOwn p index s = (.ok rep, s')) :
    SameBorrows s s' ∧ s'.counts = s.counts := by
  obtain ⟨k, r, hl, hi, rfl⟩ := resourceLiftOwn_ok h
  exact ⟨.removeOwn (locate_valid hl) hi, counts_setTable _ _ _⟩

theorem liftBorrow_borrows {rep : Nat} (h : resourceLiftBorrow p index s = (.ok rep, s')) :
    SameBorrows s s' ∧ s'.counts = s.counts := by
  obtain rfl | ⟨k, r, n, scopes, cx, hl, hi, hsc, rfl⟩ := resourceLiftBorrow_ok h
  · exact ⟨.refl _, rfl⟩
  · refine ⟨(SameBorrows.setOwn (locate_valid hl) (slotAt_eq_some.1 hi).2).trans (.calls _ _), ?_⟩
    simp [counts, hsc]

theorem lowerBorrow_borrows {idx : Nat} (hw : AllWf s)
    (h : resourceLowerBorrow p r s = (.ok idx, s')) :
    BorrowEffect s (.resourceLowerBorrow p r) (some idx) s' := by
  obtain ⟨k, t, scopes, cx, hl, hsc, rfl, hi, rfl⟩ := resourceLowerBorrow_ok hw h
  have hv := locate_valid hl
  obtain ⟨hnone, hb⟩ := borrowAt_insert hv hi
  have hsame := SameBorrows.calls (s.setTable k t)
    { scopes := scopes ++ [{ cx with borrowCount := cx.borrowCount + 1 }] }
  have hc : s.counts = scopes.map (·.borrowCount) ++ [cx.borrowCount] := by simp [counts, hsc]
  refine .lower hl (fun hw => hsame.wf (hw.setTable hv hi.wf)) hnone (fun k' j => ?_) hc ?_
  · rw [hsame.borrow, hb, length_map]
    rfl
  · simp [counts]

theorem drop_borrows {ret : Option Nat} (h : resourceDrop p index s = (.ok ret, s')) :
    BorrowEffect s (.resourceDrop p index) ret s' := by
  obtain ⟨k, hl, h1⟩ := tableFor_bind_ok h
  obtain ⟨slot, s2, ho, h2⟩ := bind_ok.1 h1
  obtain ⟨t, ht, rfl⟩ := onTable_ok.1 ho
  obtain ⟨hi, _, rfl⟩ := remove_ok.1 ht
  obtain ⟨_, hi⟩ := slotAt_eq_some.1 hi
  have hv := locate_valid hl
  cases slot with
  | free n => cases h2
  | own r n =>
    cases n with
    | succ n => cases h2
    | zero =>
      obtain ⟨_, s3, hrep, h3⟩ := bind_ok.1 h2
      obtain ⟨_, rfl⟩ := ofExcept_ok.1 hrep
      cases h3
      refine .keep (by simp) (fun p' index' k' he hl' => ?_) (by simp) (by simp)
        (.removeOwn hv hi) (counts_setTable _ _ _)
      cases he
      rw [hl] at hl'
      cases hl'
      rw [borrowAt, hi]
      rfl
  | borrow r scope =>
    obtain ⟨_, s3, hrep, h3⟩ := bind_ok.1 h2
    obtain ⟨_, rfl⟩ := ofExcept_ok.1 hrep
    obtain ⟨_, s4, hd, h4⟩ := bind_ok.1 h3
    cases h4
    unfold decrementBorrow at hd
    rw [run_bind_ok (run_get _)] at hd
    obtain ⟨cx, hscope, hd1⟩ := unwrap_bind_ok.1 hd
    split at hd1
    · cases hd1
    · rename_i hpos
      cases hd1
      rw [calls_setTable] at hscope
      refine .drop (n := cx.borrowCount - 1) hl (fun hw => (SameBorrows.calls _ _).wf
          (hw.setTable hv (removed_wf (hw k hv) hi rfl)))
        (by rw [borrowAt, hi]; rfl) (fun k' j => ?_) ?_ ?_
      · rw [(SameBorrows.calls _ _).borrow, borrowAt_removed hv hi]
      · rw [counts, getElem?_map, hscope, Option.map_some, Option.some.injEq]
        omega
      · simp [counts, map_set]

theorem returnLends_borrows (p : Parts) : ∀ (ls : List TypedResourceIndex) {s s' : ResourceTables},
    returnLends p ls s = (.ok (), s') → SameBorrows s s' ∧ s'.counts = s.counts := by
  intro ls
  induction ls with
  | nil => intro s s' h; cases h; exact ⟨.refl _, rfl⟩
  | cons l ls ih =>
    intro s s' h
    obtain ⟨k, hl, h1⟩ := tableFor_bind_ok h
    obtain ⟨slot, s2, ho, h2⟩ := bind_ok.1 h1
    obtain ⟨t, ht, rfl⟩ := onTable_ok.1 (expect_ok.1 ho)
    obtain ⟨hi, _, rfl⟩ := getMut_ok.1 ht
    rw [setTable_table (locate_valid hl)] at h2
    cases slot with
    | free n => cases h2
    | borrow r scope => cases h2
    | own r n =>
      cases n with
      | zero => cases h2
      | succ n =>
        obtain ⟨hb, hc⟩ := ih h2
        exact ⟨(SameBorrows.setOwn (locate_valid hl)
          (slotAt_eq_some.1 hi).2).trans hb, hc.trans (counts_setTable _ _ _)⟩

theorem exitCall_borrows (h : exitCall p s = (.ok (), s')) :
    SameBorrows s s' ∧ s.counts = s'.counts ++ [0] := by
  unfold exitCall at h
  rw [run_bind_ok (run_get s)] at h
  cases hg : s.calls.scopes.getLast? with
  | none => simp only [CallContexts.pop, hg] at h; cases h
  | some cx =>
    simp only [CallContexts.pop, hg] at h
    rw [run_bind_ok (run_set _ _)] at h
    obtain ⟨scopes, hsc⟩ := getLast?_eq_some_iff.1 hg
    split at h
    · cases h
    · rename_i hzero
      obtain ⟨hb, hc⟩ := returnLends_borrows p _ h
      refine ⟨(SameBorrows.calls _ _).trans hb, ?_⟩
      have hcx : cx.borrowCount = 0 := by omega
      rw [hc]
      simp [counts, hsc, hcx]

theorem exec_borrows {op : Op} {ret : Option Nat} (hw : AllWf s) (h : op.exec s = (.ok ret, s')) :
    BorrowEffect s op ret s' := by
  cases op with
  | resourceNew p r | resourceLowerOwn p r =>
    obtain ⟨_, _, h1, ⟨⟩⟩ := bind_ok.1 h
    obtain ⟨hs, hc⟩ := insertOwn_borrows hw h1
    exact .keep (by simp) (by simp) (by simp) (by simp) hs hc
  | resourceRep p i =>
    obtain ⟨_, _, h1, ⟨⟩⟩ := bind_ok.1 h
    obtain ⟨k, _, h2⟩ := tableFor_bind_ok h1
    obtain ⟨_, rfl⟩ := ofExcept_ok.1 h2
    exact .keep (by simp) (by simp) (by simp) (by simp) (.refl _) rfl
  | resourceDrop p i => exact drop_borrows h
  | resourceLiftOwn p i =>
    obtain ⟨_, _, h1, ⟨⟩⟩ := bind_ok.1 h
    obtain ⟨hs, hc⟩ := liftOwn_borrows h1
    exact .keep (by simp) (by simp) (by simp) (by simp) hs hc
  | resourceLiftBorrow p i =>
    obtain ⟨_, _, h1, ⟨⟩⟩ := bind_ok.1 h
    obtain ⟨hs, hc⟩ := liftBorrow_borrows h1
    exact .keep (by simp) (by simp) (by simp) (by simp) hs hc
  | resourceLowerBorrow p r =>
    obtain ⟨_, _, h1, ⟨⟩⟩ := bind_ok.1 h
    exact lowerBorrow_borrows hw h1
  | enterCall =>
    cases h
    exact .enter (.calls _ _) (by simp [counts, CallContexts.push]; rfl)
  | exitCall p =>
    obtain ⟨_, _, h1, ⟨⟩⟩ := bind_ok.1 h
    obtain ⟨hs, hc⟩ := exitCall_borrows h1
    exact .leave hs hc

end ResourceTables

end Wasmtime.Resources
