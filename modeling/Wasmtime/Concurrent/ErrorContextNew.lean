import Wasmtime.Concurrent.ErrorContext
import Wasmtime.Concurrent.StateRuns
import Wasmtime.Concurrent.TableRuns

/-!
# Making an error context

`error_context_new` asserts that the component does not know the new error context yet, with
`has_handle(table_id.rep())`. But `has_handle` takes a handle of the component, and is given the key
of the table that all tasks share, which may well be a handle of another error context.

`error_context_new_fresh` says when this happens, in every state that can be reached.
-/

namespace Wasmtime.Concurrent.ErrorContexts

open Base Prog List StateTable

variable {s s' : ErrorContexts} {α : Type} {ty : Nat}

structure Kept (s : ErrorContexts) : Prop where
  table : s.table.Sound
  tables : ∀ t ∈ s.errorContextTables, t.Sound

theorem Kept.init (n : Nat) : Kept (new n) where
  table := Table.Sound.new
  tables := by
    intro t ht
    rw [eq_of_mem_replicate ht]
    exact StateTable.Sound.default

variable {m : Prog (StateTable Nat) Error α}

theorem Kept.onLocal {missing : Outcome Error α} {a : α} (h : Kept s) (hmiss : missing.isOk = false)
    (hm : ∀ t t', t.Sound → m t = (.ok a, t') → t'.Sound)
    (hx : ErrorContexts.onLocal ty missing m s = (.ok a, s')) : Kept s' := by
  obtain ⟨t, t', ht, hrun, rfl⟩ := onLocal_ok hmiss hx
  refine ⟨h.table, fun u hu => ?_⟩
  rcases mem_or_eq_of_mem_set hu with hu | rfl
  · exact h.tables u hu
  · exact hm t u (h.tables t (mem_of_getElem? ht)) hrun

theorem Kept.onLocal_read {missing : Outcome Error α} {a : α} (h : Kept s)
    (hmiss : missing.isOk = false) (hm : ∀ t t', m t = (.ok a, t') → t' = t)
    (hx : ErrorContexts.onLocal ty missing m s = (.ok a, s')) : Kept s' := by
  obtain ⟨_, _, _, rfl⟩ := ErrorContexts.onLocal_read hmiss hm hx
  exact h

variable {t t' : StateTable Nat}

theorem addLocal_sound {rep idx : Nat} (h : t.Sound) (ha : addLocal rep t = (.ok idx, t')) :
    t'.Sound := by
  obtain ⟨o, t1, hg, hrest⟩ := bind_ok.1 ha
  obtain ⟨rfl, ⟨rfl, _⟩ | ⟨x, rfl, _⟩⟩ := getMutByRep_ok hg
  · exact h.insert hrest
  · obtain ⟨_, t2, hset, hpure⟩ := bind_ok.1 hrest
    obtain ⟨_, rfl⟩ := pure_ok.1 hpure
    exact h.setState hset

theorem dropLocal_sound {idx : Nat} {x : Nat × Bool} (h : t.Sound)
    (hd : dropLocal idx t = (.ok x, t')) : t'.Sound := by
  simp only [dropLocal, bind_ok, getMutByIndex_ok, assert_ok] at hd
  obtain ⟨⟨rep, count⟩, _, ⟨_, rfl⟩, _, _, ⟨_, rfl⟩, _, t1, hset, hrest⟩ := hd
  have h1 := h.setState hset
  split at hrest
  · obtain ⟨z, t2, hrem, hpure⟩ := bind_ok.1 hrest
    obtain ⟨_, rfl⟩ := pure_ok.1 hpure
    exact h1.removeByIndex hrem
  · obtain ⟨_, rfl⟩ := pure_ok.1 hrest
    exact h1

theorem push_sound {t t' : Table ErrorEntry} {a : ErrorEntry} {key : Nat} (h : t.Sound)
    (hp : Table.push a t = (.ok key, t')) : t'.Sound := by
  have hrun := h.cells.run_push_ { entry := some a, parent := none, children := [] }
  split_ifs at hrun with hfull
  · cases hrun.symm.trans hp
  · cases hrun.symm.trans hp
    exact h.push hrun (h.cells.pushed hfull _)

theorem delete_sound {t t' : Table ErrorEntry} {as : ErrorEntry → Option α} {a : α} {key : Nat}
    (h : t.Sound) (hd : Table.delete as key t = (.ok a, t')) : t'.Sound := by
  have hsound := (h.delete as key).1
  rwa [hd] at hsound

theorem Kept.step {op : Op} (h : Kept s) (hs : op.exec s = (.ok (), s')) : Kept s' := by
  cases op with
  | new ty msg =>
    cases msg with
    | none => cases hs
    | some msg =>
      simp only [Op.exec, errorContextNew, bind_ok, setGlobal, modify_ok, pure_ok] at hs
      obtain ⟨_, _, ⟨rep, s1, hpush, _, _, rfl, _, s2, hassert, hinsert⟩, _, rfl⟩ := hs
      obtain ⟨tb, hpush', rfl⟩ := onTable_ok.1 hpush
      have h1 : Kept { s with
          table := tb
          globalRefCounts := fun r => if r = rep then some 1 else s.globalRefCounts r } :=
        ⟨push_sound h.table hpush', h.tables⟩
      have h2 := h1.onLocal_read rfl (fun t t' hm => by
        rw [run_get_bind] at hm
        exact (assert_ok.1 hm).2) hassert
      exact h2.onLocal rfl (fun t t' ht hins => ht.insert hins) hinsert
  | transfer srcIdx src dst =>
    obtain ⟨_, _, hx, hp⟩ := bind_ok.1 hs
    obtain ⟨_, rfl⟩ := pure_ok.1 hp
    obtain ⟨⟨rep, k⟩, s1, hsrc, hx1⟩ := bind_ok.1 hx
    obtain ⟨idx, s2, hdst, hx2⟩ := bind_ok.1 hx1
    have h1 := h.onLocal_read rfl (fun t t' hm => (getMutByIndex_ok.1 hm).2) hsrc
    have h2 := h1.onLocal rfl (fun t t' ht ha => addLocal_sound ht ha) hdst
    rw [run_get_bind] at hx2
    cases hcount : s2.globalRefCounts rep with
    | none =>
      rw [hcount] at hx2
      cases hx2
    | some count =>
      rw [hcount] at hx2
      cases hx2
      exact ⟨h2.table, h2.tables⟩
  | lift src index =>
    simp only [Op.exec, liftFromIndex, bind_ok, pure_ok] at hs
    obtain ⟨_, _, ⟨_, _, hl, rfl, rfl⟩, _, rfl⟩ := hs
    exact h.onLocal_read rfl (fun t t' hm => (getMutByIndex_ok.1 hm).2) hl
  | lower rep dst =>
    obtain ⟨_, _, hx, hp⟩ := bind_ok.1 hs
    obtain ⟨_, rfl⟩ := pure_ok.1 hp
    exact h.onLocal rfl (fun t t' ht ha => addLocal_sound ht ha) hx
  | drop ty idx =>
    simp only [Op.exec, errorContextDrop, bind_ok, get_ok, unwrap_ok,
      assert_ok, setGlobal, modify_ok] at hs
    obtain ⟨x, s1, hdrop, _, _, ⟨rfl, rfl⟩, n, _, ⟨_, rfl⟩, _, _, ⟨_, rfl⟩, _, _, rfl, hx⟩ := hs
    have h1 := h.onLocal rfl (fun t t' ht hd => dropLocal_sound ht hd) hdrop
    split at hx
    · simp only [bind_ok, assert_ok, modify_ok, pure_ok] at hx
      obtain ⟨_, _, ⟨_, rfl⟩, _, _, rfl, msg, s2, hdel, _, rfl⟩ := hx
      obtain ⟨tb, hdel', rfl⟩ := onTable_ok.1 hdel
      exact ⟨delete_sound h1.table hdel', h1.tables⟩
    · obtain ⟨_, rfl⟩ := pure_ok.1 hx
      exact ⟨h1.table, h1.tables⟩
  | pushOther =>
    obtain ⟨key, _, hx, hp⟩ := bind_ok.1 hs
    obtain ⟨_, rfl⟩ := pure_ok.1 hp
    obtain ⟨tb, hpush, rfl⟩ := onTable_ok.1 hx
    exact ⟨push_sound h.table hpush, h.tables⟩
  | deleteOther key =>
    obtain ⟨_, _, hx, hp⟩ := bind_ok.1 hs
    obtain ⟨_, rfl⟩ := pure_ok.1 hp
    obtain ⟨tb, hdel, rfl⟩ := onTable_ok.1 hx
    exact ⟨delete_sound h.table hdel, h.tables⟩

/-! ### The new error context -/

theorem onLocal_run {missing o : Outcome Error α} (ht : s.errorContextTables[ty]? = some t)
    (hm : m t = (o, t')) : ErrorContexts.onLocal ty missing m s =
      (o, { s with errorContextTables := s.errorContextTables.set ty t' }) := by
  unfold ErrorContexts.onLocal
  simp only [ht, hm]

/-- The key that the table will give is no handle of the component, no handle stands for it, and
a handle is left. -/
def Fresh (s : ErrorContexts) (t : StateTable Nat) : Prop :=
  t.slot? s.table.nextKey = none ∧ t.indexOf s.table.nextKey = 0 ∧ t.next + 1 < maxHandle

instance (s : ErrorContexts) (t : StateTable Nat) : Decidable (s.Fresh t) :=
  inferInstanceAs (Decidable (_ ∧ _))

def Full (s : ErrorContexts) : Prop := s.table.freeHead = none ∧ 2 ^ 32 ≤ s.table.entries.length

variable {t : StateTable Nat}

theorem track_run {p q : Panic} {rep : Nat} (ht : s.errorContextTables[ty]? = some t) : ((do
      ErrorContexts.onLocal ty (.panic q) (do
        let t ← Prog.get
        assert (t.slot? rep).isNone p)
      ErrorContexts.onLocal ty (.panic q) (StateTable.insert rep 1) : Exec Nat) s).1 =
      if t.slot? rep = none then (StateTable.insert rep 1 t).1 else .panic p := by
  cases hslot : t.slot? rep with
  | none =>
    have hassert : (do let t ← Prog.get; assert (t.slot? rep).isNone p :
        Prog (StateTable Nat) Error Unit) t = (.ok (), t) := by
      rw [run_get_bind, hslot]
      rfl
    have hget : (s.errorContextTables.set ty t)[ty]? = some t :=
      getElem?_set_self (List.getElem?_eq_some_iff.1 ht).1
    rcases hins : StateTable.insert rep 1 t with ⟨o, t'⟩
    rw [run_bind_ok (onLocal_run ht hassert), onLocal_run hget hins]
    rfl
  | some x =>
    have hassert : (do let t ← Prog.get; assert (t.slot? rep).isNone p :
        Prog (StateTable Nat) Error Unit) t = (.panic p, t) := by
      rw [run_get_bind, hslot]
      rfl
    rw [run_bind_panic (onLocal_run ht hassert)]
    rfl

theorem Kept.errorContextNew_run (h : Kept s) (ht : s.errorContextTables[ty]? = some t)
    (msg : String) (hroom : ¬ s.Full) : (errorContextNew ty (some msg) s).1 =
      if t.slot? s.table.nextKey = none then (StateTable.insert s.table.nextKey 1 t).1
      else .panic
        (.assert "newly created error context state already tracked by component") := by
  have hpush := (h.table.cells.run_push_
    { entry := some (.errorContext msg), parent := none, children := [] }).trans (if_neg hroom)
  have hpush' : onTable (Table.push (.errorContext msg)) s =
      (.ok s.table.nextKey, { s with table := _ }) := onTable_ok.2 ⟨_, hpush, rfl⟩
  unfold errorContextNew
  dsimp only
  rw [run_bind_ok hpush', setGlobal, run_modify_bind]
  exact track_run ht

theorem insert_answer (h : t.Sound) (rep : Nat) : (t.indexOf rep = 0 ∧ t.next + 1 < maxHandle ∧
      (StateTable.insert rep 1 t).1 = .ok (t.next + 1)) ∨
    (¬ (t.indexOf rep = 0 ∧ t.next + 1 < maxHandle) ∧
      ∃ text, (StateTable.insert rep 1 t).1 = .err (.msg text)) := by
  by_cases hrep : t.indexOf rep = 0
  · rw [h.insert_run 1 hrep]
    by_cases hmax : t.next + 1 ≥ maxHandle
    · rw [if_pos hmax]
      exact .inr ⟨fun hroom => absurd hroom.2 (not_lt.2 hmax), _, rfl⟩
    · rw [if_neg hmax]
      exact .inl ⟨hrep, not_le.1 hmax, rfl⟩
  · refine .inr ⟨fun hroom => hrep hroom.1, s!"rep {rep} already exists in this table", ?_⟩
    unfold StateTable.insert
    rw [run_get_bind, if_pos hrep]
    rfl

/-- **When a new error context is taken for a handle of its component.** -/
theorem error_context_new_fresh {n : Nat} {ops : List Op} {t : StateTable Nat}
    (h : Trace (Step fun _ => true) (new n) ops s) (ht : s.errorContextTables[ty]? = some t)
    (msg : String) :
    ((errorContextNew ty (some msg) s).1 = .err (.table .full) ∨
        (errorContextNew ty (some msg) s).1.isOk = true) ↔
      s.Full ∨ s.Fresh t := by
  have hkept : Kept s := Trace.invariant (Kept.init n) (fun _ _ _ hs hstep => hs.step hstep.2) h
  by_cases hfull : s.Full
  · refine iff_of_true (.inl ?_) (.inl hfull)
    have hpush := (hkept.table.cells.run_push_
      { entry := some (.errorContext msg), parent := none, children := [] }).trans (if_pos hfull)
    have hrun : onTable (Table.push (.errorContext msg)) s = (.err (.table .full), s) := by
      unfold onTable Table.push
      rw [hpush]
    unfold errorContextNew
    dsimp only
    rw [run_bind_err hrun]
  · rw [or_iff_right hfull, hkept.errorContextNew_run ht msg hfull]
    have hanswer := insert_answer (hkept.tables t (mem_of_getElem? ht)) s.table.nextKey
    by_cases hslot : t.slot? s.table.nextKey = none
    · rw [if_pos hslot]
      rcases hanswer with ⟨hrep, hmax, hok⟩ | ⟨hnot, text, herr⟩
      · rw [hok]
        exact iff_of_true (.inr rfl) ⟨hslot, hrep, hmax⟩
      · rw [herr]
        refine iff_of_false ?_ fun hfresh => hnot hfresh.2
        rintro (heq | heq)
        · cases heq
        · cases heq
    · rw [if_neg hslot]
      refine iff_of_false ?_ fun hfresh => hslot hfresh.1
      rintro (heq | heq)
      · cases heq
      · cases heq

/-- Two tasks are there when the component makes its first error context. The second task ends,
and the next error context gets its key, which is the handle of the first. -/
theorem error_context_new_panics : ∃ s, Trace (Step fun _ => true) (new 1)
      [.pushOther, .pushOther, .new 0 (some "first"), .deleteOther 1] s ∧
      (errorContextNew 0 (some "second") s).1 =
        .panic (.assert "newly created error context state already tracked by component") := by
  obtain ⟨s, hrun, hs⟩ := Trace.exists_of_foldlM (Step fun _ => true) (s := new 1)
    (fun _ _ _ h => step_of_next h)
    (fun s => decide ((errorContextNew 0 (some "second") s).1 =
      .panic (.assert "newly created error context state already tracked by component")))
    [.pushOther, .pushOther, .new 0 (some "first"), .deleteOther 1] (by decide)
  exact ⟨s, hrun, of_decide_eq_true hs⟩

/-- The component has two error contexts, and the next one gets the key of a task that has ended,
which is none of their handles. -/
theorem error_context_new_fresh_reused : ∃ s t, Trace (Step fun _ => true) (new 1)
      [.pushOther, .pushOther, .pushOther, .pushOther, .new 0 (some "first"),
        .new 0 (some "second"), .deleteOther 3] s ∧
      s.errorContextTables[0]? = some t ∧ t.slot? 2 = some (5, 1) ∧ s.table.nextKey = 3 ∧
      ((errorContextNew 0 (some "third") s).1 = .err (.table .full) ∨
        (errorContextNew 0 (some "third") s).1.isOk = true) := by
  obtain ⟨s, hrun, hs⟩ := Trace.exists_of_foldlM (Step fun _ => true) (s := new 1)
    (fun _ _ _ h => step_of_next h)
    (fun s => s.errorContextTables[0]?.any fun t : StateTable Nat =>
      decide (t.slot? 2 = some (5, 1) ∧ s.table.nextKey = 3 ∧ s.Fresh t))
    [.pushOther, .pushOther, .pushOther, .pushOther, .new 0 (some "first"), .new 0 (some "second"),
      .deleteOther 3] (by decide +kernel)
  cases ht : s.errorContextTables[0]? with
  | none =>
    rw [ht] at hs
    cases hs
  | some t =>
    rw [ht] at hs
    obtain ⟨hslot, hkey, hfresh⟩ := of_decide_eq_true hs
    exact ⟨s, t, hrun, ht, hslot, hkey, (error_context_new_fresh hrun ht "third").2 (.inr hfresh)⟩

end Wasmtime.Concurrent.ErrorContexts
