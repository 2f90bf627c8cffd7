import Wasmtime.Concurrent.States

/-!
# Reference counts of error contexts

The error contexts of `concurrent.rs` and `concurrent/futures_and_streams.rs`. An
`ErrorContextState` is an entry of the table that all waitables and tasks share; each component
instance has a table of handles with a local count for each, and `global_error_context_ref_counts`
counts over all instances.

Lowering an error context that the host holds raises the local count and not the global one.
`error_context_counts`: until then the global count is the sum of the local ones and dropping a
handle never panics, and the first step that lowers one breaks this. `lower_then_drop_panics` is
such a run.
-/

namespace Wasmtime.Concurrent

open Base Prog List Option StateTable

inductive ErrorEntry where
  | errorContext (debugMsg : String)
  | other

namespace ErrorEntry

def asErrorContext : ErrorEntry → Option String
  | errorContext msg => some msg
  | other => none

def asOther : ErrorEntry → Option Unit
  | errorContext _ => none
  | other => some ()

end ErrorEntry

structure ErrorContexts where
  table : Table ErrorEntry
  errorContextTables : List (StateTable Nat)
  globalRefCounts : Nat → Option Nat

namespace ErrorContexts

abbrev Exec (α : Type) : Type := Prog ErrorContexts Error α

def new (numErrorContextTables : Nat) : ErrorContexts :=
  { table := Table.new, errorContextTables := List.replicate numErrorContextTables default,
    globalRefCounts := fun _ => none }

def onTable {α : Type} (m : Prog (Table ErrorEntry) TableError α) : Exec α := fun s =>
  match m s.table with
  | (.ok a, t) => (.ok a, { s with table := t })
  | (.err e, t) => (.err (.table e), { s with table := t })
  | (.panic p, t) => (.panic p, { s with table := t })

/-- Run an operation of one of the tables of handles; `missing` is what happens if there is no
such table. -/
def onLocal {α : Type} (ty : Nat) (missing : Outcome Error α) (m : Prog (StateTable Nat) Error α) :
    Exec α := fun s =>
  match s.errorContextTables[ty]? with
  | none => (missing, s)
  | some t =>
    match m t with
    | (o, t') => (o, { s with errorContextTables := s.errorContextTables.set ty t' })

def setGlobal (rep : Nat) (count : Option Nat) : Exec Unit :=
  Prog.modify (fun s =>
    { s with globalRefCounts := fun r => if r = rep then count else s.globalRefCounts r })

/-- `error_context_new`; `debugMsg` is what the guest's memory holds, if it is in bounds. -/
def errorContextNew (ty : Nat) (debugMsg : Option String) : Exec Nat := do
  match debugMsg with
  | none => Prog.err (.msg "invalid debug message pointer: out of bounds")
  | some msg => do
    let rep ← onTable (Table.push (.errorContext msg))
    setGlobal rep (some 1)
    -- `has_handle` takes a handle, and is given the rep
    onLocal ty (.panic (.bounds "error_context_tables")) (do
      let t ← Prog.get
      assert (t.slot? rep).isNone
        (.assert "newly created error context state already tracked by component"))
    onLocal ty (.panic (.bounds "error_context_tables")) (StateTable.insert rep 1)

/-- One more local reference to `rep`; the handle for it. -/
def addLocal (rep : Nat) : Prog (StateTable Nat) Error Nat := do
  match ← StateTable.getMutByRep rep with
  | some (idx, count) => do
    StateTable.setState idx (count + 1)
    pure idx
  | none => StateTable.insert rep 1

def missingTable {α : Type} : Outcome Error α :=
  .err (.msg "error context table index present in (sub)component lookup")

def errorContextTransfer (srcIdx src dst : Nat) : Exec Nat := do
  let (rep, _) ← onLocal src missingTable (StateTable.getMutByIndex srcIdx)
  let idx ← onLocal dst missingTable (addLocal rep)
  match (← Prog.get).globalRefCounts rep with
  | none =>
    Prog.err (.msg "global ref count present for existing (sub)component error context")
  | some count => do
    setGlobal rep (some (count + 1))
    pure idx

def liftFromIndex (src index : Nat) : Exec Nat := do
  let (rep, _) ← onLocal src
    (.panic (.unwrap "error context table index present in (sub)component table during lift"))
    (StateTable.getMutByIndex index)
  pure rep

def lowerErrorContextToIndex (rep dst : Nat) : Exec Nat := onLocal dst
    (.panic (.unwrap "error context table index present in (sub)component table during lower"))
    (addLocal rep)

/-- One local reference less: the rep of the handle, and whether the handle is gone. -/
def dropLocal (errorContext : Nat) : Prog (StateTable Nat) Error (Nat × Bool) := do
  let (rep, count) ← StateTable.getMutByIndex errorContext
  assert (decide (count > 0)) (.assert "local_ref_count > 0")
  StateTable.setState errorContext (count - 1)
  if count - 1 = 0 then do
    let _ ← StateTable.removeByIndex errorContext
    pure (rep, true)
  else
    pure (rep, false)

def errorContextDrop (ty errorContext : Nat) : Exec Unit := do
  let (rep, localRefRemoved) ← onLocal ty
    (.err (.msg "error context table index present in (sub)component table during drop"))
    (dropLocal errorContext)
  let count ← unwrap ((← Prog.get).globalRefCounts rep)
    (.unwrap "retrieve concurrent state for error context during drop")
  assert (decide (count ≥ 1)) (.assert "global_ref_count >= 1")
  setGlobal rep (some (count - 1))
  if count - 1 = 0 then do
    assert localRefRemoved (.assert "local_ref_removed")
    setGlobal rep none
    let _ ← onTable (Table.delete ErrorEntry.asErrorContext rep)
    pure ()
  else
    pure ()

/-- What can happen: the operations on error contexts, and to the table whatever the others do. -/
inductive Op where
  | new (ty : Nat) (debugMsg : Option String)
  | transfer (srcIdx src dst : Nat)
  | lift (src index : Nat)
  | lower (rep dst : Nat)
  | drop (ty errorContext : Nat)
  | pushOther
  | deleteOther (key : Nat)

def Op.exec : Op → Exec Unit
  | new ty debugMsg => do
    let _ ← errorContextNew ty debugMsg
    pure ()
  | transfer srcIdx src dst => do
    let _ ← errorContextTransfer srcIdx src dst
    pure ()
  | lift src index => do
    let _ ← liftFromIndex src index
    pure ()
  | lower rep dst => do
    let _ ← lowerErrorContextToIndex rep dst
    pure ()
  | drop ty errorContext => errorContextDrop ty errorContext
  | pushOther => do
    let _ ← onTable (Table.push .other)
    pure ()
  | deleteOther key => do
    let _ ← onTable (Table.delete ErrorEntry.asOther key)
    pure ()

def heldIn (rep : Nat) (t : StateTable Nat) : Nat := t.total (fun x => if x.1 = rep then x.2 else 0)

def localCount (s : ErrorContexts) (rep : Nat) : Nat := (s.errorContextTables.map (heldIn rep)).sum

def globalCount (s : ErrorContexts) (rep : Nat) : Nat := (s.globalRefCounts rep).getD 0

def Op.unlowered : Op → Bool
  | lower _ _ => false
  | _ => true

/-- An operation returns; an error is a trap, and ends the run. -/
def Step (good : Op → Bool) (s : ErrorContexts) (op : Op) (s' : ErrorContexts) : Prop :=
  good op = true ∧ op.exec s = (.ok (), s')

def next (good : Op → Bool) (s : ErrorContexts) (op : Op) : Option ErrorContexts :=
  if good op then op.exec.next s else none

theorem step_of_next {good : Op → Bool} {s s' : ErrorContexts} {op : Op}
    (h : next good s op = some s') : Step good s op s' := by
  unfold next at h
  split at h
  · exact ⟨‹_›, (next_eq_some h).choose_spec⟩
  · cases h

/-! ### What the operations do -/

variable {s s' : ErrorContexts} {α : Type}

theorem onTable_ok {m : Prog (Table ErrorEntry) TableError α} {a : α} :
    onTable m s = (.ok a, s') ↔ ∃ t, m s.table = (.ok a, t) ∧ s' = { s with table := t } := by
  unfold onTable
  rcases m s.table with ⟨o, t⟩
  cases o <;> simp [eq_comm]

variable {ty : Nat}

theorem onLocal_ok {missing : Outcome Error α} {m : Prog (StateTable Nat) Error α} {a : α}
    (hm : missing.isOk = false) (h : onLocal ty missing m s = (.ok a, s')) :
    ∃ t t', s.errorContextTables[ty]? = some t ∧ m t = (.ok a, t') ∧
      s' = { s with errorContextTables := s.errorContextTables.set ty t' } := by
  unfold onLocal at h
  rcases ht : s.errorContextTables[ty]? with _ | t
  · simp only [ht] at h
    obtain ⟨rfl, _⟩ := Prod.mk.inj h
    cases hm
  · simp only [ht] at h
    obtain ⟨ho, rfl⟩ := Prod.mk.inj h
    exact ⟨t, (m t).2, rfl, Prod.ext ho rfl, rfl⟩

theorem onLocal_read {missing : Outcome Error α} {m : Prog (StateTable Nat) Error α} {a : α}
    (hm : missing.isOk = false) (hr : ∀ t t', m t = (.ok a, t') → t' = t)
    (h : onLocal ty missing m s = (.ok a, s')) :
    ∃ t, s.errorContextTables[ty]? = some t ∧ m t = (.ok a, t) ∧ s' = s := by
  obtain ⟨t, t', ht, hmt, hs⟩ := onLocal_ok hm h
  obtain rfl := hr t t' hmt
  refine ⟨t', ht, hmt, ?_⟩
  obtain ⟨hlt, hget⟩ := List.getElem?_eq_some_iff.1 ht
  rw [hs, ← hget, set_getElem_self hlt]

theorem addLocal_ok {rep idx : Nat} {t t' : StateTable Nat} (ho : t.Ordered)
    (h : addLocal rep t = (.ok idx, t')) :
    t'.Ordered ∧ (∀ r, heldIn r t' = heldIn r t + if r = rep then 1 else 0) ∧
      ∀ j x, t'.slot? j = some x → (x.1 = rep ∧ 0 < x.2) ∨ t.slot? j = some x := by
  obtain ⟨o, t1, hg, h⟩ := bind_ok.1 h
  obtain ⟨rfl, ⟨rfl, _⟩ | ⟨x, rfl, hx⟩⟩ := getMutByRep_ok hg
  · refine ⟨ho.insert h, fun r => ?_, fun j x hj => ?_⟩
    · rw [heldIn, insert_total h, heldIn]
      simp only [eq_comm]
    · rw [(insert_ok h).2.2.2.1] at hj
      split at hj
      · cases hj; exact Or.inl ⟨rfl, Nat.one_pos⟩
      · exact Or.inr hj
  · obtain ⟨_, t2, hs, hp⟩ := bind_ok.1 h
    obtain ⟨_, rfl⟩ := pure_ok.1 hp
    have hrep : x.1 = rep := by
      have hne : t1.indexOf rep ≠ 0 := by
        intro h0
        rw [h0] at hx
        cases hx
      obtain ⟨st, hst⟩ := ho.slot hne
      rw [hx] at hst
      cases hst
      rfl
    obtain ⟨y, hy, hslots, _⟩ := setState_ok hs
    obtain rfl : x = y := some.inj (hx.symm.trans hy)
    refine ⟨ho.setState hs, fun r => ?_, fun j y hj => ?_⟩
    · have := setState_total (f := fun x => if x.1 = r then x.2 else 0) hx hs
      simp only [heldIn] at this ⊢
      by_cases hr : r = rep
      · subst hr
        simp only [hrep, if_true] at this ⊢
        omega
      · rw [if_neg (by rw [hrep]; exact fun h => hr h.symm),
          if_neg (by rw [hrep]; exact fun h => hr h.symm)] at this
        rw [if_neg hr]
        omega
    · rw [hslots] at hj
      split at hj
      · cases hj; exact Or.inl ⟨hrep, Nat.succ_pos _⟩
      · exact Or.inr hj

theorem dropLocal_ok {idx : Nat} {x : Nat × Bool} {t t' : StateTable Nat} (ho : t.Ordered)
    (h : dropLocal idx t = (.ok x, t')) :
    ∃ count, t.slot? idx = some (x.1, count) ∧ 0 < count ∧ x.2 = decide (count = 1) ∧ t'.Ordered ∧
      (∀ r, heldIn r t' + (if r = x.1 then 1 else 0) = heldIn r t) ∧
      ∀ j y, t'.slot? j = some y → t.slot? j = some y ∨ y.1 = x.1 ∧ 0 < y.2 := by
  simp only [dropLocal, bind_ok, getMutByIndex_ok, assert_ok] at h
  obtain ⟨⟨rep, count⟩, _, ⟨hx, rfl⟩, _, _, ⟨hpos, rfl⟩, _, t1, hs, h⟩ := h
  have hpos : 0 < count := of_decide_eq_true hpos
  have ho1 := ho.setState hs
  obtain ⟨y, hy, hslots, _⟩ := setState_ok hs
  rw [hx] at hy
  cases hy
  have htot := fun r =>
    setState_total (f := fun x => if x.1 = r then x.2 else 0) hx hs
  split at h
  · rename_i hone
    obtain ⟨z, t2, hr, hp⟩ := bind_ok.1 h
    obtain ⟨rfl, rfl⟩ := pure_ok.1 hp
    obtain ⟨hz, _, hslots', _⟩ := removeByIndex_ok hr
    rw [hslots, if_pos rfl] at hz
    cases hz
    refine ⟨count, hx, hpos, by simp; omega, ho1.removeByIndex hr, fun r => ?_, fun j y hj => ?_⟩
    · have h2 := removeByIndex_total (f := fun x => if x.1 = r then x.2 else 0) hr
      have h1 := htot r
      simp only [heldIn]
      by_cases hrep : rep = r
      · simp only [hrep, if_true] at h1 h2 ⊢
        omega
      · simp only [if_neg hrep, if_neg (Ne.symm hrep)] at h1 h2 ⊢
        omega
    · rw [hslots'] at hj
      split at hj
      · cases hj
      · rw [hslots, if_neg ‹_›] at hj
        exact Or.inl hj
  · obtain ⟨rfl, rfl⟩ := pure_ok.1 h
    refine ⟨count, hx, hpos, by simp; omega, ho1, fun r => ?_, fun j y hj => ?_⟩
    · have h1 := htot r
      simp only [heldIn]
      by_cases hrep : rep = r
      · simp only [hrep, if_true] at h1 ⊢
        omega
      · simp only [if_neg hrep, if_neg (Ne.symm hrep)] at h1 ⊢
        omega
    · rw [hslots] at hj
      split at hj
      · cases hj; exact Or.inr ⟨rfl, by simp; omega⟩
      · exact Or.inl hj

/-! ### The counts of a run -/

/-- The global counts are the sums of the local ones, and what is counted is there. -/
structure Counted (s : ErrorContexts) : Prop where
  ordered : ∀ t ∈ s.errorContextTables, t.Ordered
  positive : ∀ t ∈ s.errorContextTables, ∀ {idx x}, t.slot? idx = some x → 0 < x.2
  balanced : ∀ rep, s.localCount rep = s.globalCount rep
  present : ∀ {rep n}, s.globalRefCounts rep = some n →
    0 < n ∧ ∃ msg, s.table.value? rep = some (.errorContext msg)
  root : ∀ key, s.table.parent? key = none

variable {t : StateTable Nat}

theorem localCount_set (ht : s.errorContextTables[ty]? = some t) (t' : StateTable Nat)
    (tb : Table ErrorEntry) (g : Nat → Option Nat) (rep : Nat) :
    localCount ⟨tb, s.errorContextTables.set ty t', g⟩ rep + heldIn rep t =
      s.localCount rep + heldIn rep t' :=
  sum_map_set_add _ _ _ _ _ ht

theorem heldIn_le_localCount (ht : s.errorContextTables[ty]? = some t) (rep : Nat) :
    heldIn rep t ≤ s.localCount rep :=
  single_le_sum (fun _ _ => Nat.zero_le _) _ (mem_map_of_mem (mem_of_getElem? ht))

theorem le_localCount {ty idx : Nat} {x : Nat × Nat} (ht : s.errorContextTables[ty]? = some t)
    (hx : t.slot? idx = some x) : x.2 ≤ s.localCount x.1 := by
  refine le_trans ?_ (heldIn_le_localCount ht x.1)
  have := le_total (f := fun y => if y.1 = x.1 then y.2 else 0) hx
  simpa [heldIn] using this

namespace Counted

variable {ty idx : Nat}

theorem count_of_slot (h : Counted s) {t : StateTable Nat} {x : Nat × Nat}
    (ht : s.errorContextTables[ty]? = some t) (hx : t.slot? idx = some x) :
    ∃ n, s.globalRefCounts x.1 = some n ∧ x.2 ≤ n ∧
      ∃ msg, s.table.value? x.1 = some (.errorContext msg) := by
  have hpos := h.positive t (mem_of_getElem? ht) hx
  have hle := le_trans (le_localCount ht hx) (h.balanced x.1).le
  rcases hg : s.globalRefCounts x.1 with _ | n
  · simp only [globalCount, hg, getD_none] at hle
    omega
  · exact ⟨n, rfl, by simpa [globalCount, hg] using hle, (h.present hg).2⟩

theorem set_tables (h : Counted s) (ty : Nat) {t' : StateTable Nat} (ho : t'.Ordered)
    (hp : ∀ {idx x}, t'.slot? idx = some x → 0 < x.2) :
    (∀ t ∈ s.errorContextTables.set ty t', t.Ordered) ∧
      ∀ t ∈ s.errorContextTables.set ty t', ∀ {idx x}, t.slot? idx = some x → 0 < x.2 := by
  constructor
  · intro t ht
    rcases mem_or_eq_of_mem_set ht with ht | rfl
    · exact h.ordered t ht
    · exact ho
  · intro t ht
    rcases mem_or_eq_of_mem_set ht with ht | rfl
    · exact h.positive t ht
    · exact hp

theorem addLocal (h : Counted s) {ty rep idx : Nat} {t t' : StateTable Nat}
    (ht : s.errorContextTables[ty]? = some t) (ha : ErrorContexts.addLocal rep t = (.ok idx, t'))
    {g : Nat → Option Nat}
    (hg : ∀ r, (g r).getD 0 = s.globalCount r + if r = rep then 1 else 0)
    (hpresent : ∀ {r n}, g r = some n →
      0 < n ∧ ∃ msg, s.table.value? r = some (.errorContext msg)) :
    Counted ⟨s.table, s.errorContextTables.set ty t', g⟩ := by
  have hmem := mem_of_getElem? ht
  obtain ⟨ho, hheld, hslots⟩ := addLocal_ok (h.ordered t hmem) ha
  obtain ⟨hord, hpos⟩ := h.set_tables ty ho (fun {j x} hj => by
    rcases hslots j x hj with ⟨_, hp⟩ | hj
    · exact hp
    · exact h.positive t hmem hj)
  refine ⟨hord, hpos, fun r => ?_, hpresent, h.root⟩
  have hset := localCount_set ht t' s.table g r
  have hr := h.balanced r
  have hgr := hg r
  have hhr := hheld r
  simp only [globalCount] at hr hgr ⊢
  omega

theorem init (n : Nat) : Counted (new n) := by
  refine ⟨fun t ht => ?_, fun t ht idx x hx => ?_, fun rep => ?_, fun h => (nomatch h),
    fun key => rfl⟩
  · rw [eq_of_mem_replicate ht]
    exact StateTable.Ordered.default
  · rw [eq_of_mem_replicate ht] at hx
    have := lt_of_slot? hx
    exact absurd this.2 (Nat.not_lt_zero _)
  · have : ∀ k, ((List.replicate k (default : StateTable Nat)).map (heldIn rep)).sum = 0 := by
      intro k
      simp [heldIn, StateTable.total, default]
    exact this n

theorem errorContextNew (h : Counted s) {msg : Option String}
    (hx : ErrorContexts.errorContextNew ty msg s = (.ok idx, s')) : Counted s' := by
  cases msg with
  | none => cases hx
  | some msg =>
    simp only [ErrorContexts.errorContextNew, bind_ok, setGlobal, modify_ok] at hx
    obtain ⟨rep, s1, hpush, _, _, rfl, _, s2, hassert, hinsert⟩ := hx
    obtain ⟨tb, hpush', rfl⟩ := onTable_ok.1 hpush
    obtain ⟨_, _, _, hs2⟩ := onLocal_read rfl
      (fun t t' hm => by
        rw [run_get_bind] at hm
        exact (assert_ok.1 hm).2) hassert
    subst hs2
    obtain ⟨t, t', ht, hins, rfl⟩ := onLocal_ok rfl hinsert
    obtain ⟨hfresh, hentry, hparent, _⟩ := Table.push_ok hpush'
    -- the key was free, so that nothing counts it yet
    have hnone : s.globalRefCounts rep = none := by
      rcases hg : s.globalRefCounts rep with _ | n
      · rfl
      · obtain ⟨_, m, hm⟩ := h.present hg
        simp [Table.value?, hfresh] at hm
    have hzero : s.localCount rep = 0 := by
      have := h.balanced rep
      simp only [globalCount, hnone, getD_none] at this
      omega
    have hmem := mem_of_getElem? ht
    obtain ⟨hord, hpos⟩ := h.set_tables ty ((h.ordered t hmem).insert hins)
      (fun {j x} hj => by
        rw [(insert_ok hins).2.2.2.1] at hj
        split at hj
        · cases hj; exact Nat.one_pos
        · exact h.positive t hmem hj)
    refine ⟨hord, hpos, fun r => ?_, fun {r n} hr => ?_, fun key => ?_⟩
    · have hset := localCount_set (s := s) ht t' tb
        (fun r => if r = rep then some 1 else s.globalRefCounts r) r
      have hheld : heldIn r t' = heldIn r t + if rep = r then 1 else 0 := insert_total hins
      have hr := h.balanced r
      simp only [globalCount] at hr ⊢
      by_cases hrep : r = rep
      · subst hrep
        simp only [if_true, getD_some] at hheld ⊢
        omega
      · rw [if_neg (Ne.symm hrep)] at hheld
        rw [if_neg hrep]
        omega
    · simp only at hr
      split at hr
      · cases hr
        subst r
        exact ⟨Nat.one_pos, msg, by rw [hentry, if_pos rfl]⟩
      · obtain ⟨hn, m, hm⟩ := h.present hr
        exact ⟨hn, m, by rw [hentry, if_neg ‹_›, hm]⟩
    · rw [hparent]
      exact h.root key

theorem errorContextTransfer (h : Counted s) {srcIdx src dst idx : Nat}
    (hx : ErrorContexts.errorContextTransfer srcIdx src dst s = (.ok idx, s')) : Counted s' := by
  obtain ⟨⟨rep, k⟩, s1, hsrc, hx⟩ := bind_ok.1 hx
  obtain ⟨idx', s2, hdst, hx⟩ := bind_ok.1 hx
  obtain ⟨t0, ht0, hget, hs1⟩ := onLocal_read rfl (fun t t' hm => (getMutByIndex_ok.1 hm).2) hsrc
  subst hs1
  have hslot := (getMutByIndex_ok.1 hget).1
  obtain ⟨t, t', ht, hadd, rfl⟩ := onLocal_ok rfl hdst
  obtain ⟨n, hn, hle, msg, hmsg⟩ := h.count_of_slot ht0 hslot
  simp only [run_get_bind, hn, setGlobal, run_modify_bind, pure_ok] at hx
  obtain ⟨_, rfl⟩ := hx
  refine h.addLocal ht hadd (fun r => ?_) (fun {r m} hr => ?_)
  · by_cases hr : r = rep
    · subst hr
      simp [globalCount, hn]
    · simp [globalCount, hr]
  · split at hr
    · cases hr
      subst r
      exact ⟨Nat.succ_pos _, msg, hmsg⟩
    · exact h.present hr

theorem not_covered_of_lower (h : Counted s) {rep dst idx : Nat}
    (hx : lowerErrorContextToIndex rep dst s = (.ok idx, s')) :
    s'.globalCount rep < s'.localCount rep := by
  obtain ⟨t, t', ht, hadd, rfl⟩ := onLocal_ok rfl hx
  obtain ⟨_, hheld, _⟩ := addLocal_ok (h.ordered t (mem_of_getElem? ht)) hadd
  have hset := localCount_set ht t' s.table s.globalRefCounts rep
  have hrep := h.balanced rep
  have hh := hheld rep
  simp only [if_true, globalCount] at hh hrep ⊢
  omega

theorem dropLocal_run {idx : Nat} {x : Nat × Nat} {t : StateTable Nat} (ho : t.Ordered)
    (hx : t.slot? idx = some x) (hpos : 0 < x.2) :
    ∃ y t', ErrorContexts.dropLocal idx t = (.ok y, t') := by
  obtain ⟨t1, hset⟩ := setState_run hx (x.2 - 1)
  have hget := getMutByIndex_ok.2 ⟨hx, rfl⟩
  unfold ErrorContexts.dropLocal
  rw [run_bind_ok hget]
  simp only [run_bind_ok (assert_ok (u := ()).2 ⟨decide_eq_true hpos, rfl⟩), run_bind_ok hset]
  split_ifs with hone
  · obtain ⟨y, hy, hslots, _⟩ := setState_ok hset
    obtain ⟨t2, hrem⟩ := (ho.setState hset).removeByIndex_run
      (show t1.slot? idx = _ by rw [hslots, if_pos rfl])
    rw [run_bind_ok hrem]
    exact ⟨_, _, rfl⟩
  · exact ⟨_, _, rfl⟩

theorem dropLocal_no_panic (h : Counted s) (ty idx : Nat) (missing : Outcome Error (Nat × Bool))
    (hm : missing.isPanic = false) :
    (onLocal ty missing (ErrorContexts.dropLocal idx) s).1.isPanic = false := by
  unfold onLocal
  rcases ht : s.errorContextTables[ty]? with _ | t
  · exact hm
  · rcases hx : t.slot? idx with _ | x
    · have hget : StateTable.getMutByIndex idx t =
          (.err (.msg s!"unknown handle index {idx}"), t) := by
        simp [StateTable.getMutByIndex, hx, orErr]
      simp only [ErrorContexts.dropLocal, run_bind_err hget]
      rfl
    · have hmem := mem_of_getElem? ht
      obtain ⟨y, t', hd⟩ := dropLocal_run (h.ordered t hmem) hx (h.positive t hmem hx)
      simp only [hd]
      rfl

theorem dropLocal (h : Counted s) {x : Nat × Bool} {t t' : StateTable Nat}
    (ht : s.errorContextTables[ty]? = some t) (hd : ErrorContexts.dropLocal idx t = (.ok x, t')) :
    ∃ n, s.globalRefCounts x.1 = some n ∧ 0 < n ∧ (n = 1 → x.2 = true) ∧
      (∀ u ∈ s.errorContextTables.set ty t', u.Ordered) ∧
      (∀ u ∈ s.errorContextTables.set ty t', ∀ {j y}, u.slot? j = some y → 0 < y.2) ∧
      ∀ g : Nat → Option Nat, (∀ r, r ≠ x.1 → g r = s.globalRefCounts r) →
        (g x.1).getD 0 = n - 1 → ∀ r,
        localCount ⟨s.table, s.errorContextTables.set ty t', g⟩ r = (g r).getD 0 := by
  have hmem := mem_of_getElem? ht
  obtain ⟨count, hslot, hpos, hlast, ho, hheld, hslots⟩ := dropLocal_ok (h.ordered t hmem) hd
  obtain ⟨n, hn, hle, _⟩ := h.count_of_slot ht hslot
  obtain ⟨hord, hpos'⟩ := h.set_tables ty ho (fun {j y} hj => by
    rcases hslots j y hj with hj | ⟨_, hp⟩
    · exact h.positive t hmem hj
    · exact hp)
  refine ⟨n, hn, by omega, fun h1 => by rw [hlast]; simp; omega, hord, hpos', fun g hg hgx r => ?_⟩
  have hset := localCount_set ht t' s.table g r
  have hr := h.balanced r
  have hhr := hheld r
  simp only [globalCount] at hr
  by_cases hrx : r = x.1
  · subst hrx
    simp only [if_true] at hhr
    rw [hn, getD_some] at hr
    omega
  · rw [if_neg hrx] at hhr
    rw [hg r hrx]
    omega

theorem errorContextDrop (h : Counted s) {u : Unit}
    (hx : ErrorContexts.errorContextDrop ty idx s = (.ok u, s')) : Counted s' := by
  simp only [ErrorContexts.errorContextDrop, bind_ok, get_ok, unwrap_ok,
    assert_ok, setGlobal, modify_ok] at hx
  obtain ⟨x, s1, hdrop, _, _, ⟨rfl, rfl⟩, n', _, ⟨hn', rfl⟩, _, _, ⟨_, rfl⟩, _, _, rfl, hx⟩ := hx
  obtain ⟨t, t', ht, hd, hs1⟩ := onLocal_ok rfl hdrop
  subst hs1
  obtain ⟨n, hn, hpos, hlast, hord, hpos', hcov⟩ := h.dropLocal ht hd
  obtain rfl : n = n' := some.inj (hn.symm.trans hn')
  split at hx
  · rename_i hone
    simp only [bind_ok, assert_ok, modify_ok, pure_ok] at hx
    obtain ⟨_, _, ⟨_, rfl⟩, _, _, rfl, msg, s2, hdel, _, rfl⟩ := hx
    obtain ⟨tb, hdel', rfl⟩ := onTable_ok.1 hdel
    obtain ⟨_, _, hentry, hparent, _⟩ := Table.delete_ok hdel'
    refine ⟨hord, hpos', fun r => ?_, fun {r m} hr => ?_, fun key => ?_⟩
    · refine hcov _ (fun r hr => by simp [hr]) ?_ r
      simp only [if_true, getD_none]
      omega
    · simp only at hr
      split at hr
      · cases hr
      · rename_i hne
        obtain ⟨hm, m', hm'⟩ := h.present hr
        exact ⟨hm, m', by rw [hentry, if_neg hne]; exact hm'⟩
    · rw [hparent]
      split
      · rfl
      · exact h.root key
  · obtain ⟨_, rfl⟩ := pure_ok.1 hx
    refine ⟨hord, hpos', fun r => ?_, fun {r m} hr => ?_, h.root⟩
    · refine hcov _ (fun r hr => by simp [hr]) ?_ r
      simp
    · simp only at hr
      split at hr
      · cases hr
        subst r
        exact ⟨by omega, (h.present hn).2⟩
      · exact h.present hr

theorem step (h : Counted s) {op : Op} (hs : Step Op.unlowered s op s') : Counted s' := by
  obtain ⟨hgood, hx⟩ := hs
  cases op with
  | new ty msg =>
    obtain ⟨_, _, hx, hp⟩ := bind_ok.1 hx
    obtain ⟨_, rfl⟩ := pure_ok.1 hp
    exact h.errorContextNew hx
  | transfer srcIdx src dst =>
    obtain ⟨_, _, hx, hp⟩ := bind_ok.1 hx
    obtain ⟨_, rfl⟩ := pure_ok.1 hp
    exact h.errorContextTransfer hx
  | lift src index =>
    simp only [Op.exec, liftFromIndex, bind_ok, pure_ok] at hx
    obtain ⟨_, _, ⟨_, _, hl, rfl, rfl⟩, _, rfl⟩ := hx
    obtain ⟨_, _, _, hs⟩ := onLocal_read rfl (fun t t' hm => (getMutByIndex_ok.1 hm).2) hl
    rw [hs]
    exact h
  | lower rep dst => cases hgood
  | drop ty idx => exact h.errorContextDrop hx
  | pushOther =>
    obtain ⟨key, _, hx, hp⟩ := bind_ok.1 hx
    obtain ⟨_, rfl⟩ := pure_ok.1 hp
    obtain ⟨tb, hpush, rfl⟩ := onTable_ok.1 hx
    obtain ⟨hfresh, hentry, hparent, _⟩ := Table.push_ok hpush
    refine ⟨h.ordered, h.positive, h.balanced, fun {r n} hr => ?_, fun k => ?_⟩
    · obtain ⟨hn, m, hm⟩ := h.present hr
      refine ⟨hn, m, ?_⟩
      rw [hentry, if_neg, hm]
      rintro rfl
      simp [Table.value?, hfresh] at hm
    · rw [hparent]
      exact h.root k
  | deleteOther key =>
    obtain ⟨_, _, hx, hp⟩ := bind_ok.1 hx
    obtain ⟨_, rfl⟩ := pure_ok.1 hp
    obtain ⟨tb, hdel, rfl⟩ := onTable_ok.1 hx
    obtain ⟨hother, _, hentry, hparent, _⟩ := Table.delete_ok hdel
    refine ⟨h.ordered, h.positive, h.balanced, fun {r n} hr => ?_, fun k => ?_⟩
    · obtain ⟨hn, m, hm⟩ := h.present hr
      refine ⟨hn, m, ?_⟩
      rw [hentry, if_neg, hm]
      rintro rfl
      simp [hm, ErrorEntry.asOther] at hother
    · rw [hparent]
      split
      · rfl
      · exact h.root k

theorem drop_no_panic (h : Counted s) (ty idx : Nat) :
    (ErrorContexts.errorContextDrop ty idx s).1.isPanic = false := by
  unfold ErrorContexts.errorContextDrop
  rw [run_bind]
  rcases hl : onLocal ty
      (.err (.msg "error context table index present in (sub)component table during drop"))
      (ErrorContexts.dropLocal idx) s with ⟨o, s1⟩
  cases o with
  | err e => rfl
  | panic p =>
    have := h.dropLocal_no_panic ty idx
      (.err (.msg "error context table index present in (sub)component table during drop")) rfl
    rw [hl] at this
    cases this
  | ok x =>
    obtain ⟨t, t', ht, hd, hs1⟩ := onLocal_ok rfl hl
    subst hs1
    obtain ⟨n, hn, hpos, hlast, _⟩ := h.dropLocal ht hd
    have hunwrap := unwrap_ok (s := { s with
      errorContextTables := s.errorContextTables.set ty t' }) (ε := Error)
      (p := .unwrap "retrieve concurrent state for error context during drop").2 ⟨hn, rfl⟩
    have hassert : decide (n ≥ 1) = true := decide_eq_true hpos
    simp only [run_get_bind, run_bind_ok hunwrap, hassert, setGlobal,
      run_bind_ok (assert_ok (u := ()).2 ⟨rfl, rfl⟩), run_modify_bind]
    split_ifs with hone
    · rw [run_bind_ok (assert_ok (u := ()).2 ⟨hlast (by omega), rfl⟩), run_modify_bind, run_bind]
      have hdel := Table.delete_no_panic ErrorEntry.asErrorContext (h.root x.1)
      unfold onTable
      rcases hd' : Table.delete ErrorEntry.asErrorContext x.1 s.table with ⟨o, tb⟩
      rw [hd'] at hdel
      cases o with
      | ok _ | err _ => rfl
      | panic _ => cases hdel
    · rfl

end Counted

/-- **The counts of error contexts.** In every run in which the host lowers no error context, the
global count of each error context is at least the sum of its local counts, what a handle stands
for is in the table, and no drop panics. The first step that lowers one ends this. -/
theorem error_context_counts {n : Nat} {ops : List Op} {s : ErrorContexts}
    (h : Trace (Step Op.unlowered) (new n) ops s) :
    (∀ rep, s.localCount rep ≤ s.globalCount rep) ∧
      (∀ t ∈ s.errorContextTables, ∀ idx rep count, t.slot? idx = some (rep, count) →
        ∃ msg, s.table.value? rep = some (.errorContext msg)) ∧
      (∀ ty idx, (errorContextDrop ty idx s).1.isPanic = false) ∧
      ∀ (op : Op) (s' : ErrorContexts), op.exec s = (.ok (), s') →
        ((∀ rep, s'.localCount rep ≤ s'.globalCount rep) ↔ op.unlowered = true) := by
  have hc : Counted s := h.invariant (Counted.init n) (fun _ _ _ hs hstep => hs.step hstep)
  refine ⟨fun rep => (hc.balanced rep).le, fun t ht idx rep count hx => ?_, hc.drop_no_panic,
    fun op s' hx => ⟨fun hcov => ?_, fun hop rep => ((hc.step ⟨hop, hx⟩).balanced rep).le⟩⟩
  · obtain ⟨ty, hty⟩ := mem_iff_getElem?.1 ht
    obtain ⟨_, _, _, hmsg⟩ := hc.count_of_slot hty hx
    exact hmsg
  · cases op with
    | lower rep dst =>
      obtain ⟨_, _, hx, hp⟩ := bind_ok.1 hx
      obtain ⟨_, rfl⟩ := pure_ok.1 hp
      exact absurd (hcov rep) (hc.not_covered_of_lower hx).not_ge
    | _ => rfl

theorem error_context_counts_handover : ∃ s,
    Trace (Step Op.unlowered) (new 2) [.new 0 (some "oops"), .transfer 1 0 1, .drop 0 1] s ∧
      s.localCount 0 = 1 ∧ (errorContextDrop 1 1 s).1.isPanic = false := by
  obtain ⟨s, hrun, hs⟩ := Trace.exists_of_foldlM (Step Op.unlowered) (s := new 2)
    (fun _ _ _ h => step_of_next h) (fun s => decide (s.localCount 0 = 1))
    [.new 0 (some "oops"), .transfer 1 0 1, .drop 0 1] (by decide)
  exact ⟨s, hrun, of_decide_eq_true hs, (error_context_counts hrun).2.2.1 1 1⟩

/-- **Lowering does not raise the global count.** An error context is made, lifted by a host
function and lowered to its instance again; the first drop of its handle panics. -/
theorem lower_then_drop_panics : ∃ s,
    Trace (Step fun _ => true) (new 1) [.new 0 (some "oops"), .lift 0 1, .lower 0 0] s ∧
      s.globalCount 0 < s.localCount 0 ∧
      (errorContextDrop 0 1 s).1 = .panic (.assert "local_ref_removed") := by
  obtain ⟨s, hrun, hs⟩ := Trace.exists_of_foldlM (Step fun _ => true) (s := new 1)
    (fun _ _ _ h => step_of_next h)
    (fun s => decide (s.globalCount 0 < s.localCount 0 ∧
      (errorContextDrop 0 1 s).1 = .panic (.assert "local_ref_removed")))
    [.new 0 (some "oops"), .lift 0 1, .lower 0 0] (by decide)
  exact ⟨s, hrun, of_decide_eq_true hs⟩

end ErrorContexts

end Wasmtime.Concurrent
