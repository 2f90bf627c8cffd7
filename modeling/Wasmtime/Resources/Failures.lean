import Wasmtime.Resources.Host

/-!
# What a failed operation leaves behind

An operation on the tables that returns an error may have written before it failed. `remove` frees
the slot before its callers ask whether it is lent, what kind of handle it is and whether its type
is the one asked for, and `insert` writes the slot before it compares the handle with the limit.

`Op.Checked` is what has to hold beforehand for the failure to be clean (`failed_unchanged_iff`). In
a run where every operation that fails is one like that the accounting of lends survives.
-/

namespace Wasmtime.Resources

open Base Prog List ResourceTable

def FailsUnchanged {σ α : Type} (m : Prog σ Error α) (s : σ) : Prop :=
  ∀ e s', m s = (.err e, s') → s' = s

/-- The slot may be freed by `resource_drop`: nothing is refused once it is found. -/
def Slot.droppable (index : TypedResourceIndex) : Slot → Bool
  | free _ => true
  | own resource lendCount => lendCount == 0 && (resource.rep index).toBool
  | borrow resource _ => (resource.rep index).toBool

/-- The slot may be freed by `resource_lift_own`. -/
def Slot.liftable (index : TypedResourceIndex) : Slot → Bool
  | free _ => true
  | own resource lendCount => lendCount == 0 && (resource.rep index).toBool
  | borrow _ _ => false

namespace ResourceTable

/-- There is a slot to write to: the next one is free, or the vector can grow. -/
def Writable (t : ResourceTable) : Prop :=
  (t.next = t.slots.length ∧ t.next + 1 < 2 ^ 32) ∨ ∃ n, t.slots[t.next]? = some (.free n)

/-- The next handle is below the limit, or there is no next handle at all. -/
def HasRoom (t : ResourceTable) : Prop := t.next + 1 < maxResourceHandle ∨ ¬ t.Writable

theorem not_writable {t : ResourceTable} (hn : t.next ≠ t.slots.length)
    (h : ∀ n, t.slots[t.next]? ≠ some (.free n)) : ¬ t.Writable := by
  rintro (⟨hlen, -⟩ | ⟨n, hfree⟩)
  · exact hn hlen
  · exact h n hfree

theorem insert_cases (t : ResourceTable) {new : Slot} (hnew : new.isFree = false) :
    (t.Writable ∧ ∃ t', t' ≠ t ∧ insert new t =
      (if t.next + 1 ≥ maxResourceHandle then
        .err (.msg "cannot allocate another handle: index overflow")
      else .ok (t.next + 1), t')) ∨
    (¬ t.Writable ∧ ∃ q t', insert new t = (.panic q, t')) := by
  unfold insert
  rw [run_get_bind]
  by_cases hn : t.next = t.slots.length
  · rw [if_pos hn]
    by_cases hc : t.next + 1 < 2 ^ 32
    · left
      refine ⟨.inl ⟨hn, hc⟩, ⟨t.next + 1, t.slots ++ [new]⟩, ?_, ?_⟩
      · intro heq
        have := congrArg (fun t => t.slots.length) heq
        simp at this
      have hget : (t.slots ++ [Slot.free (t.next + 1)])[t.next]? = some (.free (t.next + 1)) := by
        simp [hn]
      have hset : (t.slots ++ [Slot.free (t.next + 1)]).set t.next new = t.slots ++ [new] := by
        rw [hn, set_append_right _ _ le_rfl]
        simp
      simp only [checkedAdd, if_pos hc, unwrap, run_bind, run_pure, run_set, run_get, hget, hset]
      split <;> rfl
    · right
      simp only [checkedAdd, if_neg hc, unwrap, run_bind, run_panic]
      refine ⟨?_, _, t, rfl⟩
      rintro (⟨-, hlt⟩ | ⟨n, hfree⟩)
      · exact hc hlt
      · rw [hn, getElem?_eq_none le_rfl] at hfree
        cases hfree
  · rw [if_neg hn]
    simp only [run_bind, run_get]
    cases hslot : t.slots[t.next]? with
    | none =>
      exact .inr ⟨not_writable hn (by simp [hslot]), _, t, rfl⟩
    | some slot =>
      cases slot with
      | free n =>
        left
        refine ⟨.inr ⟨n, hslot⟩, ⟨n, t.slots.set t.next new⟩, ?_, ?_⟩
        · intro heq
          have hlt := (List.getElem?_eq_some_iff.1 hslot).1
          have hat := congrArg (fun u : ResourceTable => u.slots[t.next]?) heq
          simp only [getElem?_set_self hlt, hslot, Option.some.injEq] at hat
          rw [hat] at hnew
          cases hnew
        · split <;> rfl
      | own r n | borrow r n =>
        exact .inr ⟨not_writable hn (by simp [hslot]), _, t, rfl⟩

theorem removed_ne {t : ResourceTable} {i : Nat} {slot : Slot} (h : t.slots[i]? = some slot)
    (hs : slot.isFree = false) : t.removed i ≠ t := by
  intro heq
  have hlt := (List.getElem?_eq_some_iff.1 h).1
  have hat := congrArg (fun u : ResourceTable => u.slots[i]?) heq
  simp only [removed, getElem?_set_self hlt, h, Option.some.injEq] at hat
  rw [← hat] at hs
  cases hs

end ResourceTable

namespace ResourceTables

def reached (s : ResourceTables) (p : Parts) (ty : Option Nat) : Option TableKey :=
  if (match ty with
    | none => p.host
    | some _ => p.guest) then s.locate ty
  else none

variable {s : ResourceTables} {ty : Option Nat} {p : Parts}

theorem tableFor_reached {k : TableKey} (h : s.reached p ty = some k) :
    tableFor p ty s = (.ok k, s) ∧ s.Valid k := by
  unfold reached at h
  cases ty with
  | none =>
    cases hp : p.host
    · simp [hp] at h
    · simp only [hp, if_true] at h
      exact ⟨by cases h; simp [tableFor, run_bind, hp], locate_valid h⟩
  | some ty =>
    cases hp : p.guest
    · simp [hp] at h
    · simp only [hp, if_true] at h
      exact ⟨by simp [tableFor, run_bind, hp, h, unwrap], locate_valid h⟩

theorem tableFor_not_reached (h : s.reached p ty = none) :
    ∃ q, tableFor p ty s = (.panic q, s) := by
  rcases tableFor_cases p ty s with ⟨k, hrun, hl⟩ | ⟨q, hrun, -⟩ | ⟨hrun, -⟩
  · exfalso
    unfold reached at h
    cases ty with
    | none =>
      cases hp : p.host
      · simp [tableFor, run_bind, hp] at hrun
      · simp [hp, hl] at h
    | some ty =>
      cases hp : p.guest
      · simp [tableFor, run_bind, hp] at hrun
      · simp [hp, hl] at h
  · exact ⟨q, hrun⟩
  · exact ⟨_, hrun⟩

theorem setTable_ne {k : TableKey} (hk : s.Valid k) {t : ResourceTable} (h : t ≠ s.table k) :
    s.setTable k t ≠ s := by
  intro heq
  apply h
  rw [← table_setTable_self hk t, heq]

/-! ### Operations that remove a slot -/

variable {index : TypedResourceIndex}

/-- A handle is looked up and its slot freed before `check` sees what was in it; so a failure
is clean exactly if `check` refuses no slot that can be found. -/
theorem remove_unchanged_iff {α : Type} {check : Slot → Prog ResourceTables Error α}
    (good : Slot → Bool) (s : ResourceTables)
    (hgood : ∀ slot u e u', good slot = true → check slot u ≠ (.err e, u'))
    (hbad : ∀ slot u, slot.isFree = false → good slot = false → ∃ e, check slot u = (.err e, u)) :
    FailsUnchanged (do
      let k ← tableForIndex p index
      let slot ← onTable k (ResourceTable.remove index)
      check slot) s ↔
    ∀ k slot, s.reached p index.ty = some k → (s.table k).slotAt index = some slot →
      slot.isFree = true ∨ good slot = true := by
  unfold FailsUnchanged tableForIndex
  cases hk : s.reached p index.ty with
  | none =>
    obtain ⟨q, hrun⟩ := tableFor_not_reached hk
    rw [run_bind_panic hrun]
    simp
  | some k =>
    obtain ⟨hrun, hv⟩ := tableFor_reached hk
    rw [run_bind_ok hrun]
    rcases remove_cases (s.table k) index with ⟨slot, hrem, hat, hfree⟩ | hrem
    · rw [run_bind_ok (onTable_run hrem)]
      constructor
      · intro h k' slot' hk' hslot'
        cases hk'
        rw [hat] at hslot'
        cases hslot'
        refine Or.inr ?_
        by_contra hno
        obtain ⟨e, he⟩ := hbad slot (s.setTable k ((s.table k).removed (index.rawIndex - 1)))
          hfree (by simpa using hno)
        refine setTable_ne hv ?_ (h _ _ he)
        exact removed_ne (slotAt_eq_some.1 hat).2 hfree
      · intro h e s' he
        rcases h k slot rfl hat with hf | hg
        · rw [hfree] at hf
          cases hf
        · exact absurd he (hgood slot _ _ _ hg)
    · rw [run_bind_err (onTable_run hrem)]
      constructor
      · intro _ k' slot hk' hslot
        cases hk'
        left
        by_contra hno
        have := remove_ok.2 ⟨hslot, by simpa using hno, rfl⟩
        rw [hrem] at this
        cases this
      · intro _ e s' he
        cases he
        exact setTable_table hv

theorem ofExcept_ne_err {σ α : Type} {x : Except Error α} (h : x.toBool = true) (s s' : σ)
    (e : Error) : ofExcept x s ≠ (.err e, s') := by
  cases x with
  | ok a => simp [ofExcept]
  | error e => cases h

theorem ofExcept_err {σ α : Type} {x : Except Error α} (h : x.toBool = false) (s : σ) :
    ∃ e, ofExcept x s = (.err e, s) := by
  cases x with
  | ok a => cases h
  | error e => exact ⟨e, rfl⟩

theorem decrementBorrow_ne_err {scope : Nat} {s s' : ResourceTables} {e : Error} :
    decrementBorrow scope s ≠ (.err e, s') := by
  unfold decrementBorrow
  rw [run_get_bind]
  cases s.calls.scopes[scope]? with
  | none => simp [unwrap]
  | some cx =>
    simp only [unwrap, run_pure_bind]
    split <;> simp

def dropCheck (index : TypedResourceIndex) : Slot → Prog ResourceTables Error (Option Nat)
  | .own resource 0 => do
    let rep ← ofExcept (resource.rep index)
    pure (some rep)
  | .own _ (_ + 1) => Prog.err (.msg "cannot remove owned resource while borrowed")
  | .borrow resource scope => do
    let _ ← ofExcept (resource.rep index)
    decrementBorrow scope
    pure none
  | .free _ => Prog.panic (.unreachable "resource_drop")

theorem resourceDrop_eq (p : Parts) (index : TypedResourceIndex) :
    resourceDrop p index = (do
      let k ← tableForIndex p index
      let slot ← onTable k (ResourceTable.remove index)
      dropCheck index slot) := rfl

def liftOwnCheck (index : TypedResourceIndex) : Slot → Prog ResourceTables Error Nat
  | .own resource 0 => ofExcept (resource.rep index)
  | .own _ (_ + 1) => Prog.err (.msg "cannot remove owned resource while borrowed")
  | .borrow _ _ => Prog.err (.msg "cannot lift own resource from a borrow")
  | .free _ => Prog.panic (.unreachable "resource_lift_own")

theorem resourceLiftOwn_eq (p : Parts) (index : TypedResourceIndex) :
    resourceLiftOwn p index = (do
      let k ← tableForIndex p index
      let slot ← onTable k (ResourceTable.remove index)
      liftOwnCheck index slot) := rfl

variable {slot : Slot}

theorem dropCheck_ne_err (h : slot.droppable index = true) (s s' : ResourceTables) (e : Error) :
    dropCheck index slot s ≠ (.err e, s') := by
  cases slot with
  | free n => simp [dropCheck]
  | own r n =>
    cases n with
    | zero =>
      have hrep : (r.rep index).toBool = true := by simpa [Slot.droppable] using h
      cases hr : r.rep index with
      | ok rep => simp [dropCheck, hr, ofExcept]
      | error e => simp [hr, Except.toBool] at hrep
    | succ n => simp [Slot.droppable] at h
  | borrow r scope =>
    cases hr : r.rep index with
    | ok rep =>
      simp only [dropCheck, hr, ofExcept, run_pure_bind]
      intro he
      rcases hd : decrementBorrow scope s with ⟨o, t⟩
      cases o with
      | ok u => rw [run_bind_ok hd] at he; cases he
      | err e => exact decrementBorrow_ne_err hd
      | panic q => rw [run_bind_panic hd] at he; cases he
    | error e => simp [Slot.droppable, hr, Except.toBool] at h

theorem dropCheck_err (s : ResourceTables) (h : slot.droppable index = false) :
    ∃ e, dropCheck index slot s = (.err e, s) := by
  cases slot with
  | free n => cases h
  | own r n =>
    cases n with
    | zero =>
      obtain ⟨e, he⟩ := ofExcept_err (x := r.rep index) (by simpa [Slot.droppable] using h) s
      exact ⟨e, by rw [dropCheck, run_bind_err he]⟩
    | succ n => exact ⟨_, rfl⟩
  | borrow r scope =>
    obtain ⟨e, he⟩ := ofExcept_err (x := r.rep index) h s
    exact ⟨e, by rw [dropCheck, run_bind_err he]⟩

theorem liftOwnCheck_ne_err (h : slot.liftable index = true) (s s' : ResourceTables) (e : Error) :
    liftOwnCheck index slot s ≠ (.err e, s') := by
  cases slot with
  | free n => simp [liftOwnCheck]
  | own r n =>
    cases n with
    | zero => exact ofExcept_ne_err (by simpa [Slot.liftable] using h) s s' e
    | succ n => simp [Slot.liftable] at h
  | borrow r scope => cases h

theorem liftOwnCheck_err (s : ResourceTables) (h : slot.liftable index = false) :
    ∃ e, liftOwnCheck index slot s = (.err e, s) := by
  cases slot with
  | free n => cases h
  | own r n =>
    cases n with
    | zero => exact ofExcept_err (by simpa [Slot.liftable] using h) s
    | succ n => exact ⟨_, rfl⟩
  | borrow r scope => exact ⟨_, rfl⟩

theorem resourceDrop_unchanged_iff (p : Parts) (index : TypedResourceIndex) (s : ResourceTables) :
    FailsUnchanged (resourceDrop p index) s ↔
      ∀ k slot, s.reached p index.ty = some k → (s.table k).slotAt index = some slot →
        slot.droppable index = true := by
  rw [resourceDrop_eq, remove_unchanged_iff (Slot.droppable index) s
    (fun _ _ _ _ h => dropCheck_ne_err h _ _ _) (fun _ u _ h => dropCheck_err u h)]
  refine forall₄_congr fun k slot _ _ => ⟨fun h => h.elim (fun hf => ?_) id, Or.inr⟩
  cases slot <;> first | rfl | cases hf

theorem resourceLiftOwn_unchanged_iff (p : Parts) (index : TypedResourceIndex)
    (s : ResourceTables) :
    FailsUnchanged (resourceLiftOwn p index) s ↔
      ∀ k slot, s.reached p index.ty = some k → (s.table k).slotAt index = some slot →
        slot.liftable index = true := by
  rw [resourceLiftOwn_eq, remove_unchanged_iff (Slot.liftable index) s
    (fun _ _ _ _ h => liftOwnCheck_ne_err h _ _ _) (fun _ u _ h => liftOwnCheck_err u h)]
  refine forall₄_congr fun k slot _ _ => ⟨fun h => h.elim (fun hf => ?_) id, Or.inr⟩
  cases slot <;> first | rfl | cases hf

/-! ### Operations that keep or add a slot -/

theorem lastScope_cases (s : ResourceTables) :
    (∃ cx, lastScope s = (.ok cx, s)) ∨ lastScope s = (.panic (.unwrap "scopes.last_mut"), s) := by
  unfold lastScope
  rw [run_get_bind]
  cases s.calls.scopes.getLast? with
  | none => exact .inr rfl
  | some cx => exact .inl ⟨cx, rfl⟩

theorem resourceLiftBorrow_unchanged (p : Parts) (index : TypedResourceIndex)
    (s : ResourceTables) : FailsUnchanged (resourceLiftBorrow p index) s := by
  intro e s' h
  unfold resourceLiftBorrow tableForIndex at h
  cases hk : s.reached p index.ty with
  | none =>
    obtain ⟨q, hrun⟩ := tableFor_not_reached hk
    rw [run_bind_panic hrun] at h
    cases h
  | some k =>
    obtain ⟨hrun, hv⟩ := tableFor_reached hk
    rw [run_bind_ok hrun] at h
    rcases getMut_cases (s.table k) index with ⟨slot, hget⟩ | hget
    · rw [run_bind_ok (onTable_run hget), setTable_table hv] at h
      cases slot with
      | free n => cases h
      | borrow r scope =>
        cases hr : r.rep index with
        | ok rep => simp [hr, ofExcept] at h
        | error e => simp only [hr, ofExcept, run_err, Prod.mk.injEq] at h; exact h.2.symm
      | own r n =>
        cases hr : r.rep index with
        | error e =>
          simp only [hr, ofExcept, run_err_bind, Prod.mk.injEq] at h
          exact h.2.symm
        | ok rep =>
          exfalso
          simp only [hr, ofExcept, run_pure_bind] at h
          cases hadd : checkedAdd n 1 with
          | none => simp [hadd, unwrap] at h
          | some m =>
            simp only [hadd, unwrap, run_pure_bind] at h
            have hset : ResourceTable.setSlot index (.own r m) (s.table k) = (.ok (),
              { s.table k with slots := (s.table k).slots.set (index.rawIndex - 1) (.own r m) }) :=
              rfl
            rw [run_bind_ok (onTable_run hset)] at h
            rcases lastScope_cases (s.setTable k { s.table k with
              slots := (s.table k).slots.set (index.rawIndex - 1) (.own r m) }) with ⟨cx, hcx⟩ | hcx
            · rw [run_bind_ok hcx] at h
              cases h
            · rw [run_bind_panic hcx] at h
              cases h
    · rw [run_bind_err (onTable_run hget), setTable_table hv] at h
      cases h
      rfl

theorem insert_unchanged_iff {new : Slot} (hnew : new.isFree = false) (s u : ResourceTables)
    (hu : ∀ k t, t ≠ u.table k → u.Valid k → u.setTable k t ≠ s) : (∀ e s', (do
      let k ← tableFor p ty
      onTable k (ResourceTable.insert new)) u = (.err e, s') → s' = s) ↔
    ∀ k, u.reached p ty = some k → (u.table k).HasRoom := by
  cases hk : u.reached p ty with
  | none =>
    obtain ⟨q, hrun⟩ := tableFor_not_reached hk
    rw [run_bind_panic hrun]
    simp
  | some k =>
    obtain ⟨hrun, hv⟩ := tableFor_reached hk
    rw [run_bind_ok hrun]
    rcases insert_cases (u.table k) hnew with ⟨hw, t', hne, hins⟩ | ⟨hw, q, t', hins⟩
    · rw [onTable_run hins]
      constructor
      · intro h k' hk'
        cases hk'
        left
        by_contra hno
        rw [if_pos (by omega)] at h
        exact hu k t' hne hv (h _ _ rfl)
      · intro h e s' he
        rcases h k rfl with hlt | hno
        · rw [if_neg (by omega)] at he
          cases he
        · exact absurd hw hno
    · rw [onTable_run hins]
      constructor
      · intro _ k' hk'
        cases hk'
        exact .inr hw
      · intro _ e s' he
        cases he

theorem resourceLowerOwn_unchanged_iff (p : Parts) (r : TypedResource) (s : ResourceTables) :
    FailsUnchanged (resourceLowerOwn p r) s ↔
      ∀ k, s.reached p r.ty = some k → (s.table k).HasRoom :=
  insert_unchanged_iff rfl s s fun _ _ hne hv => setTable_ne hv hne

theorem reached_setLast (s : ResourceTables) (cx : CallContext) (p : Parts) (ty : Option Nat) :
    reached { s with calls := s.calls.setLast cx } p ty = s.reached p ty := rfl

theorem table_setLast (s : ResourceTables) (cx : CallContext) (k : TableKey) :
    table { s with calls := s.calls.setLast cx } k = s.table k := by cases k <;> rfl

theorem resourceLowerBorrow_unchanged_iff (p : Parts) (r : TypedResource) (s : ResourceTables) :
    FailsUnchanged (resourceLowerBorrow p r) s ↔
      ∀ cx, s.calls.scopes.getLast? = some cx → cx.borrowCount + 1 < 2 ^ 32 →
        ∀ k, s.reached p r.ty = some k → (s.table k).HasRoom := by
  unfold FailsUnchanged resourceLowerBorrow
  rw [run_get_bind]
  cases hlast : s.calls.scopes.getLast? with
  | none =>
    have hnil : s.calls.scopes.length = 0 := by simpa using hlast
    rw [if_pos hnil]
    simp
  | some cx =>
    obtain ⟨scopes, hscopes⟩ := getLast?_eq_some_iff.1 hlast
    have hcx : lastScope s = (.ok cx, s) := by
      simp [lastScope, hlast, unwrap]
    rw [if_neg (by simp [hscopes]), run_bind_ok hcx]
    by_cases hlt : cx.borrowCount + 1 < 2 ^ 32
    · simp only [checkedAdd, if_pos hlt, unwrap, run_pure_bind]
      have hset : setLastScope { cx with borrowCount := cx.borrowCount + 1 } s = (.ok (),
        { s with calls := s.calls.setLast { cx with borrowCount := cx.borrowCount + 1 } }) := rfl
      rw [run_bind_ok hset]
      unfold tableForResource
      rw [insert_unchanged_iff rfl s]
      · simp only [reached_setLast, table_setLast]
        exact ⟨fun h _ _ _ => h, fun h => h cx rfl hlt⟩
      · intro k t _ _ heq
        -- the count of the scope has changed whatever the table is
        have hcalls := congrArg (fun u => u.calls.scopes.getLast?) heq
        simp only [calls_setTable, CallContexts.setLast, getLast?_concat, hlast,
          Option.some.injEq] at hcalls
        have := congrArg CallContext.borrowCount hcalls
        simp at this
    · simp only [checkedAdd, if_neg hlt, unwrap, run_panic_bind]
      refine ⟨fun _ cx' hcx' hlt' => ?_, fun _ e s' he => by cases he⟩
      cases hcx'
      exact absurd hlt' hlt

/-! ### All operations -/

/-- The operations on handles whose failure a caller can observe and go on after. -/
def Op.onHandle : Op → Bool
  | resourceDrop .. => true
  | resourceLiftOwn .. => true
  | resourceLiftBorrow .. => true
  | resourceLowerOwn .. => true
  | resourceLowerBorrow .. => true
  | _ => false

/-- What has to hold before an operation on a handle so that its failure is clean. A slot that
is found must pass the checks that follow its removal, and the handle that comes next must be
below the limit. -/
def Op.Checked (s : ResourceTables) : Op → Prop
  | resourceDrop p index => ∀ k slot, s.reached p index.ty = some k →
      (s.table k).slotAt index = some slot → slot.droppable index = true
  | resourceLiftOwn p index => ∀ k slot, s.reached p index.ty = some k →
      (s.table k).slotAt index = some slot → slot.liftable index = true
  | resourceLowerOwn p resource => ∀ k, s.reached p resource.ty = some k → (s.table k).HasRoom
  | resourceLowerBorrow p resource => ∀ cx, s.calls.scopes.getLast? = some cx →
      cx.borrowCount + 1 < 2 ^ 32 → ∀ k, s.reached p resource.ty = some k → (s.table k).HasRoom
  | _ => True

theorem failsUnchanged_bind_pure {α β : Type} {m : Prog ResourceTables Error α} {f : α → β} :
    FailsUnchanged (m >>= fun a => pure (f a)) s ↔ FailsUnchanged m s := by
  unfold FailsUnchanged
  rcases hm : m s with ⟨o, s'⟩
  rw [run_bind_pure hm f]
  cases o <;> simp [Outcome.map]

theorem exec_unchanged_iff {op : Op} (hop : op.onHandle = true) (s : ResourceTables) :
    FailsUnchanged op.exec s ↔ op.Checked s := by
  cases op with
  | resourceDrop p index => exact resourceDrop_unchanged_iff p index s
  | resourceLiftOwn p index =>
    exact failsUnchanged_bind_pure.trans (resourceLiftOwn_unchanged_iff p index s)
  | resourceLiftBorrow p index =>
    exact iff_of_true (failsUnchanged_bind_pure.2 (resourceLiftBorrow_unchanged p index s)) trivial
  | resourceLowerOwn p r =>
    exact failsUnchanged_bind_pure.trans (resourceLowerOwn_unchanged_iff p r s)
  | resourceLowerBorrow p r =>
    exact failsUnchanged_bind_pure.trans (resourceLowerBorrow_unchanged_iff p r s)
  | _ => cases hop

/-- A step of a run that goes on after failures: an operation returns, or it fails and was
checked before. -/
def Attempt (s : ResourceTables) (op : Op) (s' : ResourceTables) : Prop :=
  Step s op s' ∨ (op.onHandle = true ∧ op.Checked s ∧ ∃ e, op.exec s = (.err e, s'))

theorem acct_attempt {s s' : ResourceTables} {op : Op} (h : Acct [] s) (hstep : Attempt s op s') :
    Acct [] s' := by
  rcases hstep with ⟨r, hr⟩ | ⟨hop, hchecked, e, he⟩
  · exact acct_exec h hr
  · rw [(exec_unchanged_iff hop s).2 hchecked e s' he]
    exact h

end ResourceTables

/-! ### The handles of the host -/

namespace HostResourceTables

/-- The slot of the index was given to another handle since. -/
def stale (s : HostResourceTables) (idx : HostResourceIndex) : Bool :=
  (s.hostResourceData.tableSlotMetadata[idx.index]?).any
    fun slot => slot.generation != idx.generation

def FailsTablesUnchanged {α : Type} (m : Prog HostResourceTables Error α)
    (s : HostResourceTables) : Prop :=
  ∀ e s', m s = (.err e, s') → s'.tables = s.tables

theorem removal_unchanged_iff {α β : Type} (idx : HostResourceIndex)
    (m : Nat → Prog ResourceTables Error α)
    {k : Nat × Option TableSlot → Prog HostResourceTables Error β}
    (hk : ∀ x s e s', k x s = (.err e, s') ↔ onTables (m x.1) s = (.err e, s'))
    (s : HostResourceTables) :
    FailsTablesUnchanged (validateHostIndex idx true >>= k) s ↔
      s.stale idx = true ∨ FailsUnchanged (m idx.index) s.tables := by
  unfold FailsTablesUnchanged
  by_cases hstale : s.stale idx = true
  · have hrun : validateHostIndex idx true s =
        (.err (.msg "host-owned resource is being used with the wrong type"), s) := by
      unfold validateHostIndex
      unfold stale at hstale
      rw [run_get_bind, if_pos hstale]
      rfl
    rw [run_bind_err hrun]
    refine iff_of_true (fun e s' he => ?_) (.inl hstale)
    cases he
    rfl
  · have hrun : validateHostIndex idx true s =
        (.ok (idx.index, s.hostResourceData.tableSlotMetadata[idx.index]?),
          { s with hostResourceData := bumpGeneration s.hostResourceData }) := by
      unfold validateHostIndex
      unfold stale at hstale
      rw [run_get_bind, if_neg hstale]
      rfl
    rw [run_bind_ok hrun]
    unfold FailsUnchanged
    simp only [hstale, Bool.false_eq_true, false_or, hk, onTables, zoom, Prod.mk.injEq]
    constructor
    · intro h e t he
      have hsame := h e _ ⟨congrArg Prod.fst he, rfl⟩
      rwa [he] at hsame
    · rintro h e s' ⟨he, rfl⟩
      exact h e _ (Prod.ext he rfl)

theorem hostResourceLiftOwn_unchanged_iff (idx : HostResourceIndex) (s : HostResourceTables) :
    FailsTablesUnchanged (hostResourceLiftOwn idx) s ↔ s.stale idx = true ∨
      ResourceTables.Op.Checked s.tables (.resourceLiftOwn newHost (.host idx.index)) := by
  have h := removal_unchanged_iff idx
    (fun i => ResourceTables.resourceLiftOwn newHost (.host i)) (fun _ _ _ _ => Iff.rfl) s
  rw [ResourceTables.resourceLiftOwn_unchanged_iff] at h
  exact h

theorem hostResourceDrop_unchanged_iff (idx : HostResourceIndex) (s : HostResourceTables) :
    FailsTablesUnchanged (hostResourceDrop idx) s ↔ s.stale idx = true ∨
      ResourceTables.Op.Checked s.tables (.resourceDrop newHost (.host idx.index)) := by
  refine (removal_unchanged_iff idx (fun i => ResourceTables.resourceDrop newHost (.host i))
    (fun x u e u' => ?_) s).trans
      (or_congr_right (ResourceTables.resourceDrop_unchanged_iff newHost _ _))
  simp only [run_bind]
  rcases onTables (ResourceTables.resourceDrop newHost (.host x.1)) u with ⟨o, t⟩
  cases o with
  | ok a =>
    refine iff_of_false (fun h => ?_) (fun h => by cases h)
    cases a with
    | none => cases h
    | some rep => cases hx : x.2 <;> simp only [hx] at h <;> cases h
  | err e => simp only [Prod.mk.injEq, Outcome.err.injEq]
  | panic q => exact iff_of_false (fun h => by cases h) (fun h => by cases h)

end HostResourceTables

open HostResourceTables ResourceTables

/-- **Failures that change nothing.** An operation on a handle leaves all tables and call
scopes as they were when it fails, if and only if the slot that it finds passes the checks that
come after its removal and the handle that comes next is below the limit; likewise for the
removals of the host. In a run where every operation that fails is of that kind, leaving a call
panics only for a table that is missing from the view. -/
theorem failed_unchanged_iff (s : ResourceTables) (op : Op) (hop : op.onHandle = true) :
    (FailsUnchanged op.exec s ↔ op.Checked s) ∧
    (∀ (s : HostResourceTables) (idx : HostResourceIndex),
      (FailsTablesUnchanged (hostResourceDrop idx) s ↔ s.stale idx = true ∨
        Op.Checked s.tables (.resourceDrop newHost (.host idx.index))) ∧
      (FailsTablesUnchanged (hostResourceLiftOwn idx) s ↔ s.stale idx = true ∨
        Op.Checked s.tables (.resourceLiftOwn newHost (.host idx.index)))) ∧
    (∀ (instances : Nat) (types : List Nat) (tr : List Op) (s : ResourceTables),
      Trace Attempt (init instances types) tr s → s.calls.scopes ≠ [] →
        ∀ p q s', exitCall p s = (.panic q, s') → Absent q) := by
  refine ⟨exec_unchanged_iff hop s, fun s idx => ?_, ?_⟩
  · exact ⟨hostResourceDrop_unchanged_iff idx s, hostResourceLiftOwn_unchanged_iff idx s⟩
  · intro instances types tr s h hne p q s' hp
    have hacct : Acct [] s :=
      h.invariant (acct_init instances types) fun _ _ _ hs hstep => acct_attempt hs hstep
    have := exitCall_spec p s ⟨hacct, hne⟩
    rwa [hp] at this

def lentOwn : ResourceTables :=
  { guest := [], types := [], hostTable := { next := 1, slots := [.own (.host 7) 1] }
    calls := { scopes := [{ lenders := [.host 1], borrowCount := 0 }] } }

def lentOps : List Op :=
  [.resourceLowerOwn newHost (.host 7), .enterCall, .resourceLiftBorrow newHost (.host 1)]

theorem lentOwn_reached : Trace Step (init 0 []) lentOps lentOwn := by
  refine Trace.cons (?_ : Step _ _ { init 0 [] with hostTable := ⟨1, [.own (.host 7) 0]⟩ })
    (Trace.cons (?_ : Step _ _ { init 0 [] with
      hostTable := ⟨1, [.own (.host 7) 0]⟩, calls := ⟨[default]⟩ }) (Trace.single ?_))
  · exact ⟨some 1, by decide⟩
  · exact ⟨none, by decide⟩
  · exact ⟨some 7, by decide⟩

/-- The drop of a resource that is lent fails, but its slot is free afterwards and leaving the
call panics; the same through the handle of the host. -/
theorem drop_of_lent_frees : Trace Step (init 0 []) lentOps lentOwn ∧
    (∃ s', resourceDrop newHost (.host 1) lentOwn =
        (.err (.msg "cannot remove owned resource while borrowed"), s') ∧
      s' ≠ lentOwn ∧ (exitCall newHost s').1.isPanic = true) ∧
    ∃ h', hostResourceDrop (.new 1 0)
        ⟨lentOwn, ⟨0, [⟨0, none, none⟩, ⟨0, none, none⟩]⟩⟩ =
        (.err (.msg "cannot remove owned resource while borrowed"), h') ∧
      h'.tables ≠ lentOwn ∧ (exitCall newHost h'.tables).1.isPanic = true := by
  refine ⟨lentOwn_reached, ⟨{ lentOwn with hostTable := ⟨0, [.free 1]⟩ }, ?_, ?_, ?_⟩,
    ⟨⟨{ lentOwn with hostTable := ⟨0, [.free 1]⟩ },
      ⟨1, [⟨0, none, none⟩, ⟨0, none, none⟩]⟩⟩, ?_, ?_, ?_⟩⟩ <;> decide

theorem failed_unchanged_unknown :
    FailsUnchanged (Op.exec (.resourceDrop newHost (.host 5))) lentOwn ∧
    FailsTablesUnchanged (hostResourceDrop (.new 5 0)) ⟨lentOwn, ⟨0, []⟩⟩ ∧
    Trace Attempt (init 0 []) (lentOps ++ [.resourceDrop newHost (.host 5)]) lentOwn ∧
    ∀ p q s', exitCall p lentOwn = (.panic q, s') → Absent q := by
  have hchecked : Op.Checked lentOwn (.resourceDrop newHost (.host 5)) := by
    intro k slot hk hslot
    cases hk
    cases hslot
  have hrun : Trace Attempt (init 0 []) (lentOps ++ [.resourceDrop newHost (.host 5)]) lentOwn := by
    refine Trace.snoc (lentOwn_reached.mono fun _ _ _ h => .inl h) ?_
    exact .inr ⟨rfl, hchecked, .unknownHandleIndex (.host 5), by decide⟩
  have h := failed_unchanged_iff lentOwn (.resourceDrop newHost (.host 5)) rfl
  refine ⟨h.1.2 hchecked, ?_, hrun, ?_⟩
  · exact (h.2.1 ⟨lentOwn, ⟨0, []⟩⟩ (.new 5 0)).1.2 (.inr hchecked)
  · exact h.2.2 0 [] _ lentOwn hrun (by decide)

end Wasmtime.Resources
