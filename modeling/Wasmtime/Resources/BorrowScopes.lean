import Wasmtime.Resources.Suspend

/-!
# Every borrow is counted by the context that lowered it

The runs of tasks that suspend, with a `Ledger` of their contexts, and the result
about them; see `Wasmtime.Resources.Suspend` for the model.
-/

namespace Wasmtime.Resources

open Base Prog ResourceTables List

abbrev BorrowLedger := Ledger (TableKey × Nat) Holder

/-- The state of a run, with the contexts by identity. -/
structure SuspendRun where
  store : TaskStore
  ledger : BorrowLedger

def TaskStore.moves (s : TaskStore) : Holder → Bool
  | .task t => s.tasks[t]?.any (·.liftResult)
  | .future _ => true

/-- The contexts by identity after an operation: it tells where each one went. -/
def track (s : TaskStore) (op : SuspendOp) (ret : Option Nat) (L : BorrowLedger) : BorrowLedger :=
  match op with
  | .newTask => L.spawn (.task s.tasks.length)
  | .newFuture => L
  | .push h => if s.moves h then L.push h else L
  | .pop h => if s.moves h then L.pop h else L
  | .takeLiftResult _ => L
  | .res .enterCall => L.enter
  | .res (.exitCall _) => L.leave
  | .res (.resourceLowerBorrow _ r) =>
    match s.tables.locate r.ty, ret with
    | some k, some idx => L.lower (k, idx - 1)
    | _, _ => L
  | .res (.resourceDrop _ index) =>
    match s.tables.locate index.ty with
    | some k => L.drop (k, index.rawIndex - 1)
    | none => L
  | .res _ => L

namespace SuspendRun

def start (instances : Nat) (types : List Nat) : SuspendRun :=
  { store := { tables := ResourceTables.init instances types, tasks := [], futures := [] }
    ledger := Ledger.empty }

def Step (r : SuspendRun) (op : SuspendOp) (r' : SuspendRun) : Prop :=
  ∃ ret store, op.exec r.store = (.ok ret, store) ∧
    r' = { store, ledger := track r.store op ret r.ledger }

/-- The conditions on a step: a context that counts borrows is pushed back at the position it
was taken from, and a borrow is dropped while the context that counted it is on the stack. -/
def clean (r : SuspendRun) : SuspendOp → Bool
  | .push h =>
    !r.store.moves h || (r.ledger.kept h).all (fun k =>
      k.count == 0 || r.store.tables.calls.scopes.length == k.depth)
  | .res (.resourceDrop _ index) =>
    (r.store.tables.locate index.ty).all (fun k => r.ledger.live.all (fun x =>
      x.key != (k, index.rawIndex - 1) || (r.ledger.stack.map Prod.fst).contains x.owner))
  | _ => true

def CleanStep (r : SuspendRun) (op : SuspendOp) (r' : SuspendRun) : Prop :=
  Step r op r' ∧ r.clean op = true

end SuspendRun

/-! ### The ledger is tracked -/

/-- The counts of the state are those of the ledger, and its borrows the live items. -/
structure Tracks (s : TaskStore) (L : BorrowLedger) : Prop where
  wf : AllWf s.tables
  stack : L.stack.map Prod.snd = s.tables.counts
  kept : ∀ h, (L.kept h).map Kept.count = (s.context h).map (·.borrowCount)
  live : ∀ k i scope, s.tables.borrowAt k i = some scope ↔
    ∃ x ∈ L.live, x.key = (k, i) ∧ x.scope = scope

variable {L : BorrowLedger} {s : TaskStore}

theorem Tracks.length (h : Tracks s L) : L.stack.length = s.tables.calls.scopes.length := by
  have := congrArg List.length h.stack
  simpa [counts] using this

variable {k : TableKey}

theorem Tracks.key_free (h : Tracks s L) {i : Nat} (hn : s.tables.borrowAt k i = none) :
    ∀ x ∈ L.live, x.key ≠ (k, i) := by
  intro x hx he
  have := (h.live k i x.scope).2 ⟨x, hx, he, rfl⟩
  rw [hn] at this
  cases this

variable {t : ResourceTables}

theorem Tracks.same (h : Tracks s L) (hs : SameBorrows s.tables t)
    (hc : t.counts = s.tables.counts) : Tracks { s with tables := t } L where
  wf := hs.wf h.wf
  stack := h.stack.trans hc.symm
  kept := h.kept
  live k i scope := by rw [hs.borrow]; exact h.live k i scope

theorem Tracks.enter (h : Tracks s L) (hs : SameBorrows s.tables t)
    (hc : t.counts = s.tables.counts ++ [0]) : Tracks { s with tables := t } L.enter where
  wf := hs.wf h.wf
  stack := by rw [hc, ← h.stack]; simp [Ledger.enter]
  kept := h.kept
  live k i scope := by rw [hs.borrow]; exact h.live k i scope

theorem Tracks.leave (h : Tracks s L) (hs : SameBorrows s.tables t)
    (hc : s.tables.counts = t.counts ++ [0]) : Tracks { s with tables := t } L.leave where
  wf := hs.wf h.wf
  stack := by
    have := h.stack
    rw [hc] at this
    rw [Ledger.leave, map_dropLast, this, dropLast_concat]
  kept := h.kept
  live k i scope := by rw [hs.borrow]; exact h.live k i scope

theorem stack_concat {stack : List (Nat × Nat)} {cs : List Nat} {n : Nat}
    (h : stack.map Prod.snd = cs ++ [n]) :
    ∃ st c, stack = st ++ [(c, n)] ∧ st.map Prod.snd = cs := by
  obtain ⟨st, e, rfl, hst, he⟩ := map_eq_append_iff.1 h
  obtain ⟨⟨c, m⟩, rfl, hm⟩ := map_eq_singleton_iff.1 he
  obtain rfl : m = n := hm
  exact ⟨st, c, rfl, hst⟩

theorem Tracks.lower (h : Tracks s L) {i n : Nat} {cs : List Nat} (hwf : AllWf s.tables → AllWf t)
    (hn : s.tables.borrowAt k i = none)
    (hb : ∀ k' j, t.borrowAt k' j = if (k', j) = (k, i) then some cs.length else s.tables.borrowAt k' j)
    (hc : s.tables.counts = cs ++ [n]) (hc' : t.counts = cs ++ [n + 1]) :
    Tracks { s with tables := t } (L.lower (k, i)) := by
  obtain ⟨st, c, hL, hst⟩ := stack_concat (h.stack.trans hc)
  have hlen : st.length = cs.length := by rw [← hst, length_map]
  have heq : L.lower (k, i) =
      { L with
        stack := st ++ [(c, n + 1)]
        live := ⟨(k, i), c, cs.length⟩ :: L.live } := by
    simp [Ledger.lower, hL, hlen]
  rw [heq]
  refine ⟨hwf h.wf, ?_, h.kept, fun k' j scope => ?_⟩
  · rw [hc']
    simp [hst]
  · rw [hb]
    by_cases he : (k', j) = (k, i)
    · rw [if_pos he]
      constructor
      · intro hs
        cases hs
        exact ⟨_, mem_cons_self, he.symm, rfl⟩
      · rintro ⟨x, hx, hk, rfl⟩
        rcases mem_cons.1 hx with rfl | hx
        · rfl
        · exact absurd (hk.trans he) (h.key_free hn x hx)
    · rw [if_neg he, h.live]
      constructor
      · rintro ⟨x, hx, hk⟩
        exact ⟨x, mem_cons_of_mem _ hx, hk⟩
      · rintro ⟨x, hx, hk, hscope⟩
        rcases mem_cons.1 hx with rfl | hx
        · exact absurd hk.symm he
        · exact ⟨x, hx, hk, hscope⟩

theorem Tracks.drop (h : Tracks s L) {i scope n : Nat} (hwf : AllWf s.tables → AllWf t)
    (hn : s.tables.borrowAt k i = some scope)
    (hb : ∀ k' j, t.borrowAt k' j = if (k', j) = (k, i) then none else s.tables.borrowAt k' j)
    (hc : s.tables.counts[scope]? = some (n + 1)) (hc' : t.counts = s.tables.counts.set scope n) :
    Tracks { s with tables := t } (L.drop (k, i)) := by
  obtain ⟨x, hx, hk, hscope⟩ := (h.live k i scope).1 hn
  cases hf : L.live.find? (fun y => decide (y.key = (k, i))) with
  | none =>
    have := find?_eq_none.1 hf x hx
    simp [hk] at this
  | some y =>
    have hy := mem_of_find?_eq_some hf
    have hyk : y.key = (k, i) := by simpa using find?_some hf
    obtain rfl : y.scope = scope := by
      have := (h.live k i y.scope).2 ⟨y, hy, hyk, rfl⟩
      rw [hn] at this
      exact (Option.some.inj this).symm
    rw [← h.stack, getElem?_map, Option.map_eq_some_iff] at hc
    obtain ⟨⟨c, m⟩, hs, hm⟩ := hc
    obtain rfl : m = n + 1 := hm
    have heq : L.drop (k, i) =
        { L with
          stack := L.stack.set y.scope (c, n)
          live := L.live.filter (fun z => decide (z.key ≠ (k, i))) } := by
      simp [Ledger.drop, hf, Ledger.decrement, hs]
    rw [heq]
    refine ⟨hwf h.wf, ?_, h.kept, fun k' j scope' => ?_⟩
    · rw [hc', map_set, h.stack]
    · rw [hb]
      by_cases he : (k', j) = (k, i)
      · rw [if_pos he]
        constructor
        · intro hs; cases hs
        · rintro ⟨z, hz, hzk, _⟩
          have := (mem_filter.1 hz).2
          simp [hzk, he] at this
      · rw [if_neg he, h.live]
        constructor
        · rintro ⟨z, hz, hzk, hzs⟩
          exact ⟨z, mem_filter.2 ⟨hz, by rw [hzk]; exact decide_eq_true he⟩, hzk, hzs⟩
        · rintro ⟨z, hz, hzk⟩
          exact ⟨z, mem_of_mem_filter hz, hzk⟩

variable {ret : Option Nat}

theorem Tracks.res (h : Tracks s L) {op : Op} (heff : BorrowEffect s.tables op ret t) :
    Tracks { s with tables := t } (track s (.res op) ret L) := by
  cases heff with
  | enter hs hc => exact h.enter hs hc
  | leave hs hc => exact h.leave hs hc
  | lower hl hwf hn hb hc hc' =>
    simp only [track, hl, Nat.add_sub_cancel]
    exact h.lower hwf hn hb hc hc'
  | drop hl hwf hn hb hc hc' =>
    simp only [track, hl]
    exact h.drop hwf hn hb hc hc'
  | keep hop hdrop hcall hexit hs hc =>
    have hsame := h.same hs hc
    cases op with
    | enterCall => exact absurd rfl hcall
    | exitCall p => exact absurd rfl (hexit p)
    | resourceLowerBorrow p r => exact absurd rfl (hop p r)
    | resourceDrop p index =>
      simp only [track]
      cases hl : s.tables.locate index.ty with
      | none => exact hsame
      | some k =>
        have hfree := h.key_free (hdrop p index k rfl hl)
        have hf : L.live.find? (fun x => decide (x.key = (k, index.rawIndex - 1))) = none := by
          refine find?_eq_none.2 (fun x hx => ?_)
          simpa using hfree x hx
        simp only [Ledger.drop, hf]
        exact hsame
    | _ => exact hsame

/-! ### Contexts that move -/

variable {s s' : TaskStore}

theorem Tracks.push (h : Tracks s L) {k : Holder} {cx : CallContext} (hcx : s.context k = some cx)
    (ht : s'.tables = { s.tables with calls := s.tables.calls.push cx })
    (hctx : ∀ k', s'.context k' = if k' = k then none else s.context k') :
    Tracks s' (L.push k) := by
  have hk := h.kept k
  rw [hcx] at hk
  obtain ⟨e, he, hcount⟩ := Option.map_eq_some_iff.1 hk
  have hsame := SameBorrows.calls s.tables (s.tables.calls.push cx)
  rw [← ht] at hsame
  simp only [Ledger.push, he]
  refine ⟨hsame.wf h.wf, ?_, fun k' => ?_, fun k' i scope => ?_⟩
  · rw [ht]
    simp only [counts, CallContexts.push, map_append, map_cons, map_nil, hcount]
    exact congrArg (· ++ _) h.stack
  · simp only [hctx, Function.update_apply]
    split_ifs
    · rfl
    · exact h.kept k'
  · rw [hsame.borrow]; exact h.live k' i scope

theorem Tracks.pop (h : Tracks s L) {k : Holder} {cx : CallContext} {calls : CallContexts}
    (hpop : s.tables.calls.pop = some (cx, calls)) (ht : s'.tables = { s.tables with calls })
    (hctx : ∀ k', s'.context k' = if k' = k then some cx else s.context k') :
    Tracks s' (L.pop k) := by
  unfold CallContexts.pop at hpop
  split at hpop
  · cases hpop
  · rename_i cx' hg
    cases hpop
    obtain ⟨scopes, hsc⟩ := getLast?_eq_some_iff.1 hg
    have hc : s.tables.counts = scopes.map (·.borrowCount) ++ [cx.borrowCount] := by
      simp [counts, hsc]
    obtain ⟨st, c, hL, hst⟩ := stack_concat (h.stack.trans hc)
    have hsame := SameBorrows.calls s.tables { scopes := s.tables.calls.scopes.dropLast }
    rw [← ht] at hsame
    have heq : L.pop k =
        { L with
          stack := st
          kept := Function.update L.kept k (some ⟨c, st.length, cx.borrowCount⟩) } := by
      simp [Ledger.pop, hL]
    rw [heq]
    refine ⟨hsame.wf h.wf, ?_, fun k' => ?_, fun k' i scope => ?_⟩
    · rw [ht, counts, hsc, dropLast_concat]
      exact hst
    · simp only [hctx, Function.update_apply]
      split_ifs
      · rfl
      · exact h.kept k'
    · rw [hsame.borrow]; exact h.live k' i scope

namespace TaskStore

variable {s s' : TaskStore}

theorem getTask_ok {t : Nat} {task : GuestTask} :
    getTask t s = (.ok task, s') ↔ s.tasks[t]? = some task ∧ s' = s := by
  unfold getTask
  rw [run_bind_ok (run_get s)]
  exact orErr_ok

theorem getFuture_ok {f : Nat} {cx : Option CallContext} :
    getFuture f s = (.ok cx, s') ↔ s.futures[f]? = some cx ∧ s' = s := by
  unfold getFuture
  rw [run_bind_ok (run_get s)]
  exact orErr_ok

theorem popContext_ok {cx : CallContext} (h : popContext s = (.ok cx, s')) :
    ∃ calls, s.tables.calls.pop = some (cx, calls) ∧
      s' = { s with tables := { s.tables with calls } } := by
  unfold popContext at h
  rw [run_bind_ok (run_get s)] at h
  cases hp : s.tables.calls.pop with
  | none => simp only [hp] at h; cases h
  | some r =>
    obtain ⟨cx', calls⟩ := r
    simp only [hp] at h
    cases h
    exact ⟨calls, rfl, rfl⟩

theorem context_setTask {s : TaskStore} {t : Nat} {old : GuestTask} (ht : s.tasks[t]? = some old)
    (task : GuestTask) (tables : ResourceTables) (k : Holder) :
    context { s with tables, tasks := s.tasks.set t task } k =
      if k = .task t then task.callContext else s.context k := by
  cases k with
  | future f => simp [context]
  | task t' =>
    by_cases he : t' = t
    · subst he
      simp [context, getElem?_set_self (List.getElem?_eq_some_iff.1 ht).1]
    · rw [if_neg (by simpa using he)]
      simp [context, getElem?_set_ne (Ne.symm he)]

theorem context_setFuture {s : TaskStore} {f : Nat} {old : Option CallContext}
    (hf : s.futures[f]? = some old) (cx : Option CallContext) (tables : ResourceTables)
    (k : Holder) : context { s with tables, futures := s.futures.set f cx } k =
      if k = .future f then cx else s.context k := by
  cases k with
  | task t => simp [context]
  | future f' =>
    by_cases he : f' = f
    · subst he
      simp [context, getElem?_set_self (List.getElem?_eq_some_iff.1 hf).1]
    · rw [if_neg (by simpa using he)]
      simp [context, getElem?_set_ne (Ne.symm he)]

end TaskStore

open TaskStore in
theorem Tracks.step {op : SuspendOp} (h : Tracks s L) (hexec : op.exec s = (.ok ret, s')) :
    Tracks s' (track s op ret L) := by
  cases op with
  | newTask =>
    cases hexec
    refine ⟨h.wf, h.stack, fun k => ?_, h.live⟩
    simp only [track, Ledger.spawn]
    by_cases hk : k = .task s.tasks.length
    · subst hk
      simp [context]
      rfl
    · rw [Function.update_of_ne hk, h.kept k]
      cases k with
      | future f => rfl
      | task t =>
        have ht : t ≠ s.tasks.length := by simpa using hk
        rcases Nat.lt_or_gt_of_ne ht with hlt | hgt
        · simp [context, getElem?_append_left hlt]
        · rw [context, context, getElem?_eq_none (by omega), getElem?_eq_none (by simp; omega)]
  | newFuture =>
    cases hexec
    refine ⟨h.wf, h.stack, fun k => ?_, h.live⟩
    rw [track, h.kept k]
    cases k with
    | task t => rfl
    | future f =>
      rcases Nat.lt_trichotomy f s.futures.length with hlt | rfl | hgt
      · simp [context, getElem?_append_left hlt]
      · simp [context]
      · rw [context, context, getElem?_eq_none (by omega), getElem?_eq_none (by simp; omega)]
  | push k =>
    cases k with
    | task t =>
      obtain ⟨_, _, h1, ⟨⟩⟩ := bind_ok.1 hexec
      obtain ⟨task, s1, hg, h2⟩ := bind_ok.1 h1
      obtain ⟨ht, rfl⟩ := getTask_ok.1 hg
      cases hl : task.liftResult with
      | false =>
        simp only [hl, Bool.false_eq_true, if_false] at h2
        cases h2
        simpa [track, moves, ht, hl] using h
      | true =>
        simp only [hl, if_true] at h2
        obtain ⟨cx, hcx, h3⟩ := unwrap_bind_ok.1 h2
        cases h3
        have hmoves : s1.moves (.task t) = true := by simp [moves, ht, hl]
        simp only [track, hmoves, if_true]
        have hctx : s1.context (.task t) = some cx := by simp [context, ht, hcx]
        exact h.push hctx rfl (fun k' => context_setTask ht _ _ k')
    | future f =>
      obtain ⟨_, _, h1, ⟨⟩⟩ := bind_ok.1 hexec
      obtain ⟨cx, s1, hg, h2⟩ := bind_ok.1 h1
      obtain ⟨hf, rfl⟩ := getFuture_ok.1 hg
      simp only [track, moves, if_true]
      cases cx with
      | none =>
        cases h2
        have hk := h.kept (.future f)
        rw [show s'.context (.future f) = none by simp [context, hf], Option.map_none,
          Option.map_eq_none_iff] at hk
        simpa [Ledger.push, hk] using h
      | some cx =>
        cases h2
        have hctx : s1.context (.future f) = some cx := by simp [context, hf]
        exact h.push hctx rfl (fun k' => context_setFuture hf _ _ k')
  | pop k =>
    cases k with
    | task t =>
      obtain ⟨_, _, h1, ⟨⟩⟩ := bind_ok.1 hexec
      obtain ⟨task, s1, hg, h2⟩ := bind_ok.1 h1
      obtain ⟨ht, rfl⟩ := getTask_ok.1 hg
      cases hl : task.liftResult with
      | false =>
        simp only [hl, Bool.false_eq_true, if_false] at h2
        cases h2
        simpa [track, moves, ht, hl] using h
      | true =>
        simp only [hl, if_true] at h2
        obtain ⟨cx, s1, hp, h3⟩ := bind_ok.1 h2
        obtain ⟨calls, hpop, rfl⟩ := popContext_ok hp
        cases h3
        have hmoves : s1.moves (.task t) = true := by simp [moves, ht, hl]
        simp only [track, hmoves, if_true]
        exact h.pop hpop rfl (fun k' => context_setTask ht _ _ k')
    | future f =>
      obtain ⟨_, _, h1, ⟨⟩⟩ := bind_ok.1 hexec
      obtain ⟨_, s1, hg, h2⟩ := bind_ok.1 h1
      obtain ⟨hf, rfl⟩ := getFuture_ok.1 hg
      obtain ⟨cx, s1, hp, h3⟩ := bind_ok.1 h2
      obtain ⟨calls, hpop, rfl⟩ := popContext_ok hp
      cases h3
      exact h.pop hpop rfl (fun k' => context_setFuture hf _ _ k')
  | takeLiftResult t =>
    obtain ⟨_, _, h1, ⟨⟩⟩ := bind_ok.1 hexec
    obtain ⟨task, s1, hg, h2⟩ := bind_ok.1 h1
    obtain ⟨ht, rfl⟩ := getTask_ok.1 hg
    split at h2
    · cases h2
      refine ⟨h.wf, h.stack, fun k => ?_, h.live⟩
      rw [track, h.kept k]
      have := context_setTask ht { task with liftResult := false } s1.tables k
      refine congrArg _ (Eq.trans ?_ this.symm)
      split
      · rename_i hk; subst hk; simp [context, ht]
      · rfl
    · cases h2
  | res op =>
    unfold SuspendOp.exec at hexec
    obtain ⟨t, ht, rfl⟩ := zoom_ok.1 hexec
    exact h.res (exec_borrows h.wf ht)

/-! ### Runs -/

theorem balanced_track {op : SuspendOp} (h : Tracks s L) (hb : L.Balanced)
    (hexec : op.exec s = (.ok ret, s')) (hclean : SuspendRun.clean ⟨s, L⟩ op = true) :
    (track s op ret L).Balanced := by
  cases op with
  | newTask => exact hb.spawn _
  | newFuture => exact hb
  | push k =>
    simp only [track]
    split
    · rename_i hm
      refine hb.push k (fun e he => ?_)
      have hlen := h.length
      simp only [SuspendRun.clean, hm, he, Bool.not_true, Bool.false_or, Option.all_some,
        Bool.or_eq_true, beq_iff_eq] at hclean
      omega
    · exact hb
  | pop k =>
    simp only [track]
    split
    · exact hb.pop k
    · exact hb
  | takeLiftResult t => exact hb
  | res op =>
    unfold SuspendOp.exec at hexec
    obtain ⟨t, ht, rfl⟩ := zoom_ok.1 hexec
    cases op with
    | enterCall => exact hb.enter
    | exitCall p => exact hb.leave
    | resourceLowerBorrow p r =>
      have heff := exec_borrows h.wf ht
      cases heff with
      | keep hop => exact absurd rfl (hop p r)
      | lower hl hwf hn hbw hc hc' =>
        simp only [track, hl, Nat.add_sub_cancel]
        exact hb.lower (h.key_free hn)
    | resourceDrop p index =>
      simp only [track]
      cases hl : s.tables.locate index.ty with
      | none => exact hb
      | some k =>
        refine hb.drop (fun x hx hk => ?_)
        simp only [SuspendRun.clean, hl, Option.all_some, all_eq_true, Bool.or_eq_true,
          bne_iff_ne, ne_eq, contains_iff_mem] at hclean
        exact (hclean x hx).resolve_left (fun hne => hne hk)
    | _ => exact hb

namespace SuspendRun

theorem tracks_start (instances : Nat) (types : List Nat) :
    Tracks (start instances types).store (start instances types).ledger := by
  have hacct := acct_init instances types
  refine ⟨hacct.1.wf, rfl, fun k => ?_, fun k i scope => ?_⟩
  · cases k <;> rfl
  · have hnone : (init instances types).borrowAt k i = none := by
      cases k with
      | host => rfl
      | guest j => by_cases hj : j < instances <;> simp [borrowAt, init, table, hj] <;> rfl
    constructor
    · intro hs
      exact absurd (hs.symm.trans hnone) (by simp)
    · rintro ⟨x, hx, _⟩
      cases hx

theorem owner_scope {s : TaskStore} {L : BorrowLedger} (h : Tracks s L) (hb : L.Balanced)
    {x : Item (TableKey × Nat)} (hx : x ∈ L.live) (hon : x.owner ∈ L.stack.map Prod.fst) :
    ∃ cx, s.tables.calls.scopes[x.scope]? = some cx ∧ 0 < cx.borrowCount ∧
      L.stack[x.scope]? = some (x.owner, cx.borrowCount) := by
  obtain ⟨n, hs⟩ := hb.owner_at hx hon
  have hc : s.tables.counts[x.scope]? = some (n + 1) := by
    rw [← h.stack, getElem?_map, hs]
    rfl
  rw [counts, getElem?_map, Option.map_eq_some_iff] at hc
  obtain ⟨cx, hcx, hn⟩ := hc
  exact ⟨cx, hcx, by omega, by rw [hs, hn]⟩

theorem drop_spec {s : TaskStore} {L : BorrowLedger} (h : Tracks s L) (hb : L.Balanced)
    {p : Parts} {index : TypedResourceIndex}
    (hclean : SuspendRun.clean ⟨s, L⟩ (.res (.resourceDrop p index)) = true) {q : Panic}
    {t : ResourceTables} (hq : resourceDrop p index s.tables = (.panic q, t)) :
    Absent q ∨ q = .bounds "tables" := by
  unfold resourceDrop tableForIndex at hq
  rcases tableFor_cases p index.ty s.tables with ⟨k, he, hl⟩ | ⟨q', he, hq'⟩ | ⟨he, _⟩
  · rw [run_bind_ok he] at hq
    rcases ResourceTable.remove_cases (s.tables.table k) index with ⟨slot, hr, hi, hf⟩ | hr
    · rw [run_bind_ok (onTable_run hr)] at hq
      obtain ⟨_, hi⟩ := ResourceTable.slotAt_eq_some.1 hi
      cases slot with
      | free n => cases hf
      | own r n =>
        cases n with
        | succ n => cases hq
        | zero => cases hrep : r.rep index <;> simp [run_bind, ofExcept, hrep] at hq
      | borrow r scope =>
        obtain ⟨x, hx, hk, rfl⟩ := (h.live k (index.rawIndex - 1) scope).1
          (by rw [borrowAt, hi]; rfl)
        simp only [SuspendRun.clean, hl, Option.all_some, all_eq_true, Bool.or_eq_true,
          bne_iff_ne, ne_eq, contains_iff_mem] at hclean
        obtain ⟨cx, hcx, hpos, _⟩ :=
          owner_scope h hb hx ((hclean x hx).resolve_left (fun hne => hne hk))
        cases hrep : r.rep index <;>
          simp [run_bind, ofExcept, hrep, decrementBorrow, hcx, unwrap, hpos.ne'] at hq
    · rw [run_bind_err (onTable_run hr)] at hq
      cases hq
  · rw [run_bind_panic he] at hq
    cases hq
    exact .inl hq'
  · rw [run_bind_panic he] at hq
    cases hq
    exact .inr rfl

/-- **Borrows are counted by the context they were lowered in**, on every run in which a context
that counts borrows is pushed back at the position it was taken from and a borrow is dropped only
while the context that counted it is on the stack. The live items of the ledger are the `Borrow`
slots; every context, on the stack or kept, counts those it owns; and dropping a borrow under the
condition finds the owner at the slot's position and meets neither an empty count nor a missing
scope. -/
theorem borrow_scopes {instances : Nat} {types : List Nat} {tr : List SuspendOp} {r : SuspendRun}
    (h : Trace CleanStep (start instances types) tr r) :
    ((r.ledger.live.map Item.key).Nodup ∧ ∀ k i scope, r.store.tables.borrowAt k i = some scope ↔
      ∃ x ∈ r.ledger.live, x.key = (k, i) ∧ x.scope = scope) ∧
    (∀ (p : Nat) (cx : CallContext), r.store.tables.calls.scopes[p]? = some cx →
      ∃ c, r.ledger.stack[p]? = some (c, cx.borrowCount) ∧ cx.borrowCount = r.ledger.held c) ∧
    (∀ k cx, r.store.context k = some cx →
      ∃ e, r.ledger.kept k = some e ∧ cx.borrowCount = r.ledger.held e.id) ∧
    (∀ x ∈ r.ledger.live, x.owner ∈ r.ledger.stack.map Prod.fst →
      ∃ n, r.ledger.stack[x.scope]? = some (x.owner, n + 1)) ∧
    (∀ p index q t, r.clean (.res (.resourceDrop p index)) = true →
      resourceDrop p index r.store.tables = (.panic q, t) → Absent q ∨ q = .bounds "tables") := by
  have hinv : Tracks r.store r.ledger ∧ r.ledger.Balanced := by
    refine h.invariant (I := fun r => Tracks r.store r.ledger ∧ r.ledger.Balanced)
      ⟨tracks_start instances types, Ledger.balanced_empty⟩ ?_
    rintro r op r' ⟨ht, hb⟩ ⟨⟨ret, store, hexec, rfl⟩, hclean⟩
    exact ⟨ht.step hexec, balanced_track ht hb hexec hclean⟩
  obtain ⟨ht, hb⟩ := hinv
  refine ⟨⟨hb.keys, ht.live⟩, fun p cx hcx => ?_, fun k cx hcx => ?_, fun x hx hon => ?_,
    fun p index q t hclean hq => drop_spec ht hb hclean hq⟩
  · have hc : (r.ledger.stack.map Prod.snd)[p]? = some cx.borrowCount := by
      rw [ht.stack, counts, getElem?_map, hcx]
      rfl
    rw [getElem?_map, Option.map_eq_some_iff] at hc
    obtain ⟨⟨c, n⟩, hs, hn⟩ := hc
    obtain rfl : n = cx.borrowCount := hn
    have hat : r.ledger.At (.inl p) c p cx.borrowCount := ⟨hs, rfl⟩
    exact ⟨c, hs, hb.count hat⟩
  · have hk := ht.kept k
    rw [hcx] at hk
    obtain ⟨e, he, hcount⟩ := Option.map_eq_some_iff.1 hk
    have hat : r.ledger.At (.inr k) e.id e.depth e.count := he
    exact ⟨e, he, hcount.symm.trans (hb.count hat)⟩
  · exact hb.owner_at hx hon

def next (r : SuspendRun) (op : SuspendOp) : Option SuspendRun :=
  match op.exec r.store with
  | (.ok ret, store) => some { store, ledger := track r.store op ret r.ledger }
  | _ => none

theorem step_of_next {r r' : SuspendRun} {op : SuspendOp} (h : r.next op = some r') :
    Step r op r' := by
  unfold next at h
  split at h
  · cases h; exact ⟨_, _, ‹_›, rfl⟩
  · cases h

/-- A task is suspended while another one runs, and comes back with its borrow. -/
theorem borrow_scopes_resumed : ∃ r, Trace CleanStep (start 1 [0])
    [.newTask, .push (.task 0), .res (.resourceLowerBorrow ⟨true, true⟩ (.component 7 0)),
      .pop (.task 0), .newTask, .push (.task 1), .pop (.task 1), .push (.task 0)] r ∧
    ∃ c, r.ledger.stack[0]? = some (c, 1) ∧ 1 = r.ledger.held c := by
  obtain ⟨r, hr, hp⟩ := Trace.exists_of_foldlM CleanStep (s := start 1 [0])
    (f := fun r op => if r.clean op then r.next op else none)
    (fun r op r' h => by
      split at h
      · exact ⟨step_of_next h, ‹_›⟩
      · cases h)
    (fun r => decide (r.store.tables.calls.scopes[0]? = some (⟨[], 1⟩ : CallContext)))
    [.newTask, .push (.task 0), .res (.resourceLowerBorrow ⟨true, true⟩ (.component 7 0)),
      .pop (.task 0), .newTask, .push (.task 1), .pop (.task 1), .push (.task 0)] (by decide)
  exact ⟨r, hr, (borrow_scopes hr).2.1 0 ⟨[], 1⟩ (of_decide_eq_true hp)⟩

/-- Two tasks of one instance: the first lowers a borrow and is suspended, and the second, whose
context is now at that position, drops it. The count of the second context, which counts
nothing, underflows. -/
theorem drop_in_other_task : ∃ r, Trace Step (start 1 [0]) [.newTask, .newTask, .push (.task 0),
      .res (.resourceLowerBorrow ⟨true, true⟩ (.component 7 0)), .pop (.task 0),
      .push (.task 1)] r ∧
    (resourceDrop ⟨true, true⟩ (.component 1 0) r.store.tables).1 =
      .panic (.overflow "borrow_count") := by
  obtain ⟨r, hr, hp⟩ := Trace.exists_of_foldlM Step (s := start 1 [0]) (fun _ _ _ => step_of_next)
    (fun r => decide ((resourceDrop ⟨true, true⟩ (.component 1 0) r.store.tables).1 =
      .panic (.overflow "borrow_count")))
    [.newTask, .newTask, .push (.task 0),
      .res (.resourceLowerBorrow ⟨true, true⟩ (.component 7 0)), .pop (.task 0),
      .push (.task 1)] (by decide)
  exact ⟨r, hr, of_decide_eq_true hp⟩

end SuspendRun

end Wasmtime.Resources
