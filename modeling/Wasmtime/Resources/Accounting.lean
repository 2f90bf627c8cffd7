import Wasmtime.Resources.Tables

/-!
# Lend and borrow accounting

Over every run of the operations of `ResourceTables` in which all of them returned:

* an `Own` slot's `lendCount` is the number of its occurrences in the `lenders` of the active scopes
  (`LendOk`);
* a scope's `borrowCount` is the number of `Borrow` slots, in all tables, that name its position
  (`BorrowOk`).

The first is stated for an arbitrary list of lenders, since in the loop of `exit_call` the lenders
still to be returned belong to no scope any more. `lend_borrow_accounting` is the result for a whole
run, with what it gives for the panics of `exit_call` and `resource_drop`.
-/

namespace Wasmtime.Resources.ResourceTables

open Base Prog List ResourceTable

def Valid (s : ResourceTables) : TableKey → Prop
  | .host => True
  | .guest i => i < s.guest.length

def lenders (s : ResourceTables) : List TypedResourceIndex := s.calls.scopes.flatMap (·.lenders)

def lentAt (s : ResourceTables) (k : TableKey) (i : Nat) (l : TypedResourceIndex) : Bool :=
  decide (s.locate l.ty = some k ∧ l.rawIndex = i + 1)

def lends (s : ResourceTables) (k : TableKey) (i : Nat) : Nat := s.lenders.countP (s.lentAt k i)

def borrowIn (scope : Nat) : Slot → Bool
  | .borrow _ scope' => scope' == scope
  | _ => false

/-- The number of `Borrow` slots with the given scope, over all tables. -/
def borrows (s : ResourceTables) (scope : Nat) : Nat :=
  ((s.hostTable :: s.guest).map (fun t => t.slots.countP (borrowIn scope))).sum

/-! ### Tables -/

variable {s : ResourceTables} {k : TableKey} {ty : Option Nat}

theorem locate_valid (h : s.locate ty = some k) : s.Valid k := by
  cases ty with
  | none => cases h; trivial
  | some ty =>
    obtain ⟨i, _, hi⟩ := Option.bind_eq_some_iff.1 h
    split at hi
    · cases hi; assumption
    · cases hi

@[simp] theorem locate_setTable (s : ResourceTables) (k : TableKey) (t : ResourceTable)
    (ty : Option Nat) : (s.setTable k t).locate ty = s.locate ty := by
  cases k with
  | host => rfl
  | guest i => cases ty <;> simp [setTable, locate]

@[simp] theorem calls_setTable (s : ResourceTables) (k : TableKey) (t : ResourceTable) :
    (s.setTable k t).calls = s.calls := by
  cases k <;> rfl

@[simp] theorem lenders_setTable (s : ResourceTables) (k : TableKey) (t : ResourceTable) :
    (s.setTable k t).lenders = s.lenders := by
  rw [lenders, calls_setTable, lenders]

@[simp] theorem lentAt_setTable (s : ResourceTables) (k : TableKey) (t : ResourceTable) :
    (s.setTable k t).lentAt = s.lentAt := by
  funext k' i l
  simp [lentAt]

@[simp] theorem valid_setTable (s : ResourceTables) (k k' : TableKey) (t : ResourceTable) :
    (s.setTable k t).Valid k' ↔ s.Valid k' := by
  cases k <;> cases k' <;> simp [setTable, Valid]

theorem table_setTable_self (hk : s.Valid k) (t : ResourceTable) :
    (s.setTable k t).table k = t := by
  cases k with
  | host => rfl
  | guest i =>
    change i < s.guest.length at hk
    simp [setTable, table, hk]

theorem table_setTable_ne {k k' : TableKey} (h : k' ≠ k) (t : ResourceTable) :
    (s.setTable k t).table k' = s.table k' := by
  cases k <;> cases k' <;> simp_all [setTable, table, getElem?_set_ne, eq_comm]

theorem borrows_setTable (hk : s.Valid k) (t : ResourceTable) (scope : Nat) :
    (s.setTable k t).borrows scope + (s.table k).slots.countP (borrowIn scope) =
      s.borrows scope + t.slots.countP (borrowIn scope) := by
  cases k with
  | host => simp only [setTable, borrows, table, map_cons, sum_cons]; omega
  | guest i =>
    have hget : s.guest[i]? = some (s.table (.guest i)) := by
      simp [table, List.getD, getElem?_eq_getElem hk]
    have := sum_map_set_add (fun t : ResourceTable => t.slots.countP (borrowIn scope))
      s.guest i t _ hget
    simp only [setTable, borrows, map_cons, sum_cons]
    omega

/-! ### The two invariants -/

def SlotLent (n : Nat) : Option Slot → Prop
  | some (.own _ lendCount) => lendCount = n
  | _ => n = 0

/-- Every slot is lent as often as `ls` lists it, and `ls` lists handles of tables that exist. -/
structure LendOk (ls : List TypedResourceIndex) (s : ResourceTables) : Prop where
  wf : ∀ k, s.Valid k → (s.table k).Wf
  slot : ∀ k i, s.Valid k → SlotLent (ls.countP (s.lentAt k i)) (s.table k).slots[i]?
  found : ∀ l ∈ ls, l.rawIndex ≠ 0 ∧ ∃ k, s.locate l.ty = some k

def borrowCountAt (s : ResourceTables) (scope : Nat) : Nat :=
  match s.calls.scopes[scope]? with
  | some cx => cx.borrowCount
  | none => 0

def BorrowOk (s : ResourceTables) : Prop := ∀ scope, s.borrows scope = s.borrowCountAt scope

/-- The accounting invariant, with the lenders `pend` still to be returned. -/
def Acct (pend : List TypedResourceIndex) (s : ResourceTables) : Prop :=
  LendOk (s.lenders ++ pend) s ∧ BorrowOk s

variable {ls : List TypedResourceIndex}

theorem LendOk.calls (h : LendOk ls s) (c : CallContexts) :
    LendOk ls { s with calls := c } := ⟨h.wf, h.slot, h.found⟩

variable {t : ResourceTable} {i : Nat}

theorem LendOk.setTable {ls ls' : List TypedResourceIndex} (h : LendOk ls s) (hk : s.Valid k)
    (hwf : t.Wf) (hframe : ∀ j, j ≠ i → t.slots[j]? = (s.table k).slots[j]?)
    (hat : SlotLent (ls'.countP (s.lentAt k i)) t.slots[i]?)
    (hls : ∀ k' j, (k', j) ≠ (k, i) → ls'.countP (s.lentAt k' j) = ls.countP (s.lentAt k' j))
    (hfound : ∀ l ∈ ls', l.rawIndex ≠ 0 ∧ ∃ k, s.locate l.ty = some k) :
    LendOk ls' (s.setTable k t) where
  wf k' hk' := by
    rw [valid_setTable] at hk'
    by_cases he : k' = k
    · subst he; rw [table_setTable_self hk]; exact hwf
    · rw [table_setTable_ne he]; exact h.wf k' hk'
  slot k' j hk' := by
    rw [valid_setTable] at hk'
    rw [lentAt_setTable]
    by_cases he : k' = k
    · subst he
      rw [table_setTable_self hk]
      by_cases hj : j = i
      · subst hj; exact hat
      · rw [hframe j hj, hls k' j (by simp [hj])]; exact h.slot k' j hk'
    · rw [table_setTable_ne he, hls k' j (by simp [he])]; exact h.slot k' j hk'
  found l hl := by
    obtain ⟨h0, k', hk'⟩ := hfound l hl
    exact ⟨h0, k', by rw [locate_setTable]; exact hk'⟩

theorem BorrowOk.setTable (h : BorrowOk s) (hk : s.Valid k)
    (hc : ∀ scope, t.slots.countP (borrowIn scope) = (s.table k).slots.countP (borrowIn scope)) :
    BorrowOk (s.setTable k t) := by
  intro scope
  have h1 := borrows_setTable hk t scope
  have h2 := h scope
  rw [hc scope] at h1
  have h3 : (s.setTable k t).borrowCountAt scope = s.borrowCountAt scope := by
    simp [borrowCountAt]
  omega

/-! ### Finding the table -/

/-- A panic because a table that is needed is not part of the view. -/
def Absent (p : Panic) : Prop := p = .unwrap "host_table" ∨ p = .unwrap "guest"

theorem tableFor_cases (p : Parts) (ty : Option Nat) (s : ResourceTables) :
    (∃ k, tableFor p ty s = (.ok k, s) ∧ s.locate ty = some k) ∨
      (∃ q, tableFor p ty s = (.panic q, s) ∧ Absent q) ∨
      (tableFor p ty s = (.panic (.bounds "tables"), s) ∧ s.locate ty = none) := by
  cases ty with
  | none =>
    cases hh : p.host
    · exact .inr (.inl ⟨_, by simp only [tableFor, run_bind, run_get, hh]; rfl, .inl rfl⟩)
    · exact .inl ⟨.host, by simp [tableFor, run_bind, hh], rfl⟩
  | some ty =>
    cases hg : p.guest
    · exact .inr (.inl ⟨_, by simp only [tableFor, run_bind, run_get, hg]; rfl, .inr rfl⟩)
    · cases hl : s.locate (some ty) with
      | none => exact .inr (.inr ⟨by simp [tableFor, run_bind, hg, hl, unwrap], rfl⟩)
      | some k => exact .inl ⟨k, by simp [tableFor, run_bind, hg, hl, unwrap], rfl⟩

variable {p : Parts}

variable {s s' : ResourceTables}

theorem tableFor_ok (h : tableFor p ty s = (.ok k, s')) : s.locate ty = some k ∧ s' = s := by
  rcases tableFor_cases p ty s with ⟨k', he, hl⟩ | ⟨q, he, _⟩ | ⟨he, _⟩
  · rw [he] at h; cases h; exact ⟨hl, rfl⟩
  · rw [he] at h; cases h
  · rw [he] at h; cases h

theorem tableFor_bind_ok {α : Type} {f : TableKey → Prog ResourceTables Error α} {a : α}
    (h : (tableFor p ty >>= f) s = (.ok a, s')) :
    ∃ k, s.locate ty = some k ∧ f k s = (.ok a, s') := by
  obtain ⟨k, s1, hk, hf⟩ := bind_ok.1 h
  obtain ⟨hl, rfl⟩ := tableFor_ok hk
  exact ⟨k, hl, hf⟩

theorem onTable_ok {α : Type} {m : Prog ResourceTable Error α} {a : α} :
    onTable k m s = (.ok a, s') ↔ ∃ t, m (s.table k) = (.ok a, t) ∧ s' = s.setTable k t :=
  zoom_ok

theorem onTable_run {α : Type} {m : Prog ResourceTable Error α} {o : Outcome Error α}
    (h : m (s.table k) = (o, t)) : onTable k m s = (o, s.setTable k t) := by
  unfold onTable zoom
  rw [h]

theorem setTable_table (hk : s.Valid k) : s.setTable k (s.table k) = s := by
  cases k with
  | host => rfl
  | guest i =>
    change i < s.guest.length at hk
    simp [setTable, table, hk]

/-! ### Steps that insert -/

theorem LendOk.insert (h : LendOk ls s) (hk : s.Valid k) {new : Slot}
    (hi : ResourceTable.Inserted (s.table k) new t) (hnew : SlotLent 0 (some new)) :
    LendOk ls (s.setTable k t) := by
  refine h.setTable hk hi.wf hi.frame ?_ (fun _ _ _ => rfl) h.found
  have hzero : ls.countP (s.lentAt k (s.table k).next) = 0 := by
    have hs := h.slot k (s.table k).next hk
    cases hg : (s.table k).slots[(s.table k).next]? with
    | none => rw [hg] at hs; exact hs
    | some slot =>
      have hf := hi.fresh slot hg
      rw [hg] at hs
      cases slot with
      | free n => exact hs
      | own r n | borrow r n => simp [Slot.isFree] at hf
  rw [hi.at_next, hzero]
  exact hnew

variable {r : TypedResource}

theorem acct_insertOwn {idx : Nat} (h : Acct [] s)
    (hr : (do let k ← tableFor p ty; onTable k (ResourceTable.insert (.own r 0))) s = (.ok idx, s'))
    : Acct [] s' := by
  obtain ⟨k, hl, ho⟩ := tableFor_bind_ok hr
  obtain ⟨t, ht, rfl⟩ := onTable_ok.1 ho
  have hv := locate_valid hl
  obtain ⟨_, _, hi⟩ := insert_ok (h.1.wf k hv) ht
  refine ⟨?_, h.2.setTable hv (fun scope => ?_)⟩
  · rw [lenders_setTable]
    exact h.1.insert hv hi rfl
  · simpa [borrowIn] using hi.count (borrowIn scope) (fun _ => rfl)

/-! ### Steps that remove -/

theorem LendOk.remove (h : LendOk ls s) (hk : s.Valid k) {slot : Slot}
    (hi : (s.table k).slots[i]? = some slot) (hf : slot.isFree = false)
    (hlent : SlotLent 0 (some slot)) : LendOk ls (s.setTable k ((s.table k).removed i)) := by
  have hlt := (List.getElem?_eq_some_iff.1 hi).1
  refine h.setTable hk (removed_wf (h.wf k hk) hi hf) (i := i)
    (fun j hj => getElem?_set_ne hj.symm) ?_ (fun _ _ _ => rfl) h.found
  have hs := h.slot k i hk
  rw [hi] at hs
  have : ((s.table k).removed i).slots[i]? = some (.free (s.table k).next) :=
    getElem?_set_self hlt
  rw [this]
  cases slot with
  | free n => simp [Slot.isFree] at hf
  | own r n =>
    exact hs.symm.trans hlent
  | borrow r n => exact hs

theorem count_removed {slot : Slot} (hi : (s.table k).slots[i]? = some slot) (scope : Nat) :
    ((s.table k).removed i).slots.countP (borrowIn scope) + (if borrowIn scope slot then 1 else 0) =
      (s.table k).slots.countP (borrowIn scope) := by
  have := countP_set_add (borrowIn scope) (s.table k).slots i (.free (s.table k).next) slot hi
  have hfree : borrowIn scope (.free (s.table k).next) = false := rfl
  rw [hfree, if_neg Bool.false_ne_true, Nat.add_zero] at this
  exact this

theorem acct_removeOwn (h : Acct [] s) (hk : s.Valid k)
    (hi : (s.table k).slots[i]? = some (.own r 0)) :
    Acct [] (s.setTable k ((s.table k).removed i)) := by
  refine ⟨?_, h.2.setTable hk (fun scope => ?_)⟩
  · rw [lenders_setTable]
    exact h.1.remove hk hi rfl rfl
  · simpa [borrowIn] using count_removed hi scope

theorem BorrowOk.scope_pos (h : BorrowOk s) (hk : s.Valid k) {i scope : Nat}
    (hi : (s.table k).slots[i]? = some (.borrow r scope)) :
    ∃ cx, s.calls.scopes[scope]? = some cx ∧ 0 < cx.borrowCount := by
  have hpos : 0 < s.borrows scope := by
    have h1 := borrows_setTable hk default scope
    have h2 : 0 < (s.table k).slots.countP (borrowIn scope) :=
      countP_pos_of_getElem? hi (by simp [borrowIn])
    have h3 : (default : ResourceTable).slots.countP (borrowIn scope) = 0 := rfl
    omega
  rw [h scope, borrowCountAt] at hpos
  split at hpos
  · exact ⟨_, ‹_›, hpos⟩
  · exact absurd hpos (lt_irrefl 0)

variable {scopes : List CallContext}

theorem flatMap_lenders_set {scope : Nat} {cx cx' : CallContext} (h : scopes[scope]? = some cx)
    (hl : cx'.lenders = cx.lenders) :
    (scopes.set scope cx').flatMap (·.lenders) = scopes.flatMap (·.lenders) := by
  induction scopes generalizing scope with
  | nil => simp at h
  | cons c scopes ih =>
    cases scope with
    | zero =>
      simp only [getElem?_cons_zero, Option.some.injEq] at h
      subst h
      simp [hl]
    | succ scope =>
      simp [ih h]

theorem acct_removeBorrow (h : Acct [] s) (hk : s.Valid k) {i scope : Nat}
    (hi : (s.table k).slots[i]? = some (.borrow r scope)) :
    ∃ s', decrementBorrow scope (s.setTable k ((s.table k).removed i)) = (.ok (), s') ∧
      Acct [] s' := by
  obtain ⟨cx, hcx, hpos⟩ := h.2.scope_pos hk hi
  let cx' : CallContext := { cx with borrowCount := cx.borrowCount - 1 }
  refine ⟨{ s.setTable k ((s.table k).removed i) with
    calls := { scopes := s.calls.scopes.set scope cx' } }, ?_, ?_, ?_⟩
  · simp only [decrementBorrow, run_bind, run_get, calls_setTable, hcx, unwrap,
      run_pure, hpos.ne', if_false, run_set, cx']
  · have hl : (s.calls.scopes.set scope cx').flatMap (·.lenders) = s.lenders :=
      flatMap_lenders_set hcx rfl
    change LendOk ((s.calls.scopes.set scope cx').flatMap (·.lenders) ++ []) _
    rw [hl]
    exact (h.1.remove hk hi rfl rfl).calls _
  · intro scope'
    have h1 := borrows_setTable hk ((s.table k).removed i) scope'
    have h2 := count_removed hi scope'
    have h3 := h.2 scope'
    have hlt := (List.getElem?_eq_some_iff.1 hcx).1
    change (s.setTable k ((s.table k).removed i)).borrows scope' = _
    by_cases he : scope' = scope
    · subst he
      simp only [borrowCountAt, getElem?_set_self hlt, cx']
      simp only [borrowCountAt, hcx] at h3
      simp only [borrowIn, beq_self_eq_true, if_true] at h2
      omega
    · have hb : borrowIn scope' (Slot.borrow r scope) = false := by
        simp [borrowIn, Ne.symm he]
      simp only [borrowCountAt, getElem?_set_ne (Ne.symm he)]
      simp only [borrowCountAt] at h3
      simp only [hb] at h2
      simp only [Bool.false_eq_true, if_false] at h2
      omega

/-! ### Lending and borrowing -/

theorem setLast_concat (scopes : List CallContext) (cx cx' : CallContext) :
    CallContexts.setLast { scopes := scopes ++ [cx] } cx' = { scopes := scopes ++ [cx'] } := by
  simp [CallContexts.setLast]

variable {cx : CallContext}

theorem lastScope_ok (h : lastScope s = (.ok cx, s')) :
    (∃ scopes, s.calls = { scopes := scopes ++ [cx] }) ∧ s' = s := by
  unfold lastScope at h
  rw [run_bind_ok (run_get s)] at h
  obtain ⟨hg, rfl⟩ := unwrap_ok.1 h
  obtain ⟨scopes, hs⟩ := getLast?_eq_some_iff.1 hg
  refine ⟨⟨scopes, ?_⟩, rfl⟩
  rw [← hs]

variable {index : TypedResourceIndex}

theorem acct_lend (h : Acct [] s) (hl : s.locate index.ty = some k) {n : Nat}
    (hi : (s.table k).slotAt index = some (.own r n))
    (hc : s.calls = { scopes := scopes ++ [cx] }) : Acct [] { s.setTable k { s.table k with
        slots := (s.table k).slots.set (index.rawIndex - 1) (.own r (n + 1)) } with
      calls := { scopes := scopes ++ [{ cx with lenders := cx.lenders ++ [index] }] } } := by
  obtain ⟨h0, hi⟩ := slotAt_eq_some.1 hi
  have hk := locate_valid hl
  have hlt := (List.getElem?_eq_some_iff.1 hi).1
  have hlen : s.lenders = scopes.flatMap (·.lenders) ++ cx.lenders := by
    simp [lenders, hc]
  constructor
  · have hls : lenders { s.setTable k { s.table k with
          slots := (s.table k).slots.set (index.rawIndex - 1) (.own r (n + 1)) } with
        calls := { scopes := scopes ++ [{ cx with lenders := cx.lenders ++ [index] }] } } =
        s.lenders ++ [index] := by
      rw [hlen]; simp [lenders]
    rw [hls]
    apply LendOk.calls
    refine h.1.setTable hk (set_wf (h.1.wf k hk) hi rfl) (i := index.rawIndex - 1)
      (fun j hj => getElem?_set_ne hj.symm) ?_ ?_ ?_
    · have hs := h.1.slot k (index.rawIndex - 1) hk
      rw [hi, append_nil] at hs
      change n = _ at hs
      have hat : s.lentAt k (index.rawIndex - 1) index = true := by
        simp only [lentAt, decide_eq_true_eq]
        exact ⟨hl, by omega⟩
      rw [getElem?_set_self hlt]
      change n + 1 = _
      simp [countP_append, hat, hs]
    · intro k' j hne
      have hat : s.lentAt k' j index = false := by
        simp only [lentAt, decide_eq_false_iff_not, not_and]
        intro hl' hj
        rw [hl] at hl'
        cases hl'
        exact hne (by simp; omega)
      simp [countP_append, hat]
    · intro l hm
      simp only [append_nil, mem_append, mem_singleton] at hm
      rcases hm with hm | rfl
      · exact h.1.found l (by simp [hm])
      · exact ⟨h0, k, hl⟩
  · intro scope
    have h1 := (h.2.setTable hk (t := { s.table k with
      slots := (s.table k).slots.set (index.rawIndex - 1) (.own r (n + 1)) })
      (fun scope => by
        simpa [borrowIn] using
          countP_set_add (borrowIn scope) (s.table k).slots _ (.own r (n + 1)) _ hi)) scope
    rw [show ∀ (s : ResourceTables) (c : CallContexts), borrows { s with calls := c } scope =
      s.borrows scope from fun _ _ => rfl, h1]
    simp only [borrowCountAt, calls_setTable, hc]
    by_cases hs : scope < scopes.length
    · simp [getElem?_append_left hs]
    · rw [getElem?_append_right (by omega), getElem?_append_right (by omega)]
      cases scope - scopes.length <;> simp

theorem acct_borrow (h : Acct [] s) (hk : s.Valid k) (hc : s.calls = { scopes := scopes ++ [cx] })
    (hi : ResourceTable.Inserted (s.table k) (.borrow r scopes.length) t) :
    Acct [] { s.setTable k t with
      calls := { scopes := scopes ++ [{ cx with borrowCount := cx.borrowCount + 1 }] } } := by
  constructor
  · have hls : lenders { s.setTable k t with
        calls := { scopes := scopes ++ [{ cx with borrowCount := cx.borrowCount + 1 }] } } =
        s.lenders := by
      simp [lenders, hc]
    rw [hls]
    exact (h.1.insert hk hi rfl).calls _
  · intro scope
    have h1 := borrows_setTable hk t scope
    have h2 := hi.count (borrowIn scope) (fun _ => rfl)
    have h3 := h.2 scope
    change (s.setTable k t).borrows scope = _
    simp only [borrowCountAt, hc] at h3 ⊢
    rcases Nat.lt_trichotomy scope scopes.length with hlt | rfl | hgt
    · have hb : borrowIn scope (.borrow r scopes.length) = false := by simp [borrowIn]; omega
      rw [hb] at h2
      simp only [getElem?_append_left hlt] at h3 ⊢
      simp only [Bool.false_eq_true, if_false] at h2
      omega
    · have hb : borrowIn scopes.length (.borrow r scopes.length) = true := by simp [borrowIn]
      rw [hb] at h2
      simp only [getElem?_append_right le_rfl, Nat.sub_self, getElem?_cons_zero, if_true] at h2 h3 ⊢
      omega
    · have hb : borrowIn scope (.borrow r scopes.length) = false := by simp [borrowIn]; omega
      rw [hb] at h2
      have hnone : ∀ cx' : CallContext, (scopes ++ [cx'])[scope]? = none := by
        intro cx'
        exact getElem?_eq_none (by simp; omega)
      simp only [hnone] at h3 ⊢
      simp only [Bool.false_eq_true, if_false] at h2
      omega

/-! ### Leaving a call -/

theorem Acct.lender {l : TypedResourceIndex} (h : Acct (l :: ls) s) :
    ∃ k r n, s.locate l.ty = some k ∧
      (s.table k).slotAt l = some (.own r (n + 1)) := by
  obtain ⟨h0, k, hl⟩ := h.1.found l (by simp)
  have hs := h.1.slot k (l.rawIndex - 1) (locate_valid hl)
  have hat : s.lentAt k (l.rawIndex - 1) l = true := by
    simp only [lentAt, decide_eq_true_eq]
    exact ⟨hl, by omega⟩
  rw [countP_append, countP_cons, hat, if_pos rfl] at hs
  cases hg : (s.table k).slots[l.rawIndex - 1]? with
  | none => rw [hg] at hs; exact absurd hs (by simp [SlotLent])
  | some slot =>
    rw [hg] at hs
    cases slot with
    | free m | borrow r m => exact absurd hs (by simp [SlotLent])
    | own r m =>
      change m = _ at hs
      exact ⟨k, r, m - 1, hl, slotAt_eq_some.2 ⟨h0, by
        rw [hg, show m = m - 1 + 1 by omega]; rfl⟩⟩

theorem acct_return {l : TypedResourceIndex} (h : Acct (l :: ls) s) {n : Nat}
    (hl : s.locate l.ty = some k) (hi : (s.table k).slotAt l = some (.own r (n + 1))) :
    Acct ls (s.setTable k { s.table k with
      slots := (s.table k).slots.set (l.rawIndex - 1) (.own r n) }) := by
  obtain ⟨h0, hi⟩ := slotAt_eq_some.1 hi
  have hk := locate_valid hl
  have hlt := (List.getElem?_eq_some_iff.1 hi).1
  refine ⟨?_, h.2.setTable hk (fun scope => ?_)⟩
  · rw [lenders_setTable]
    refine h.1.setTable hk (set_wf (h.1.wf k hk) hi rfl) (i := l.rawIndex - 1)
      (fun j hj => getElem?_set_ne hj.symm) ?_ ?_ ?_
    · have hs := h.1.slot k (l.rawIndex - 1) hk
      have hat : s.lentAt k (l.rawIndex - 1) l = true := by
        simp only [lentAt, decide_eq_true_eq]
        exact ⟨hl, by omega⟩
      rw [hi, countP_append, countP_cons, hat, if_pos rfl] at hs
      change n + 1 = _ at hs
      rw [getElem?_set_self hlt, countP_append]
      change n = _
      omega
    · intro k' j hne
      have hat : s.lentAt k' j l = false := by
        simp only [lentAt, decide_eq_false_iff_not, not_and]
        intro hl' hj
        rw [hl] at hl'
        cases hl'
        exact hne (by simp; omega)
      simp [countP_append, hat]
    · intro l' hm
      refine h.1.found l' ?_
      simp only [mem_append, mem_cons] at hm ⊢
      exact hm.imp_right Or.inr
  · simpa [borrowIn] using
      countP_set_add (borrowIn scope) (s.table k).slots _ (.own r n) _ hi

/-- **The loop of `exit_call` returns every lend and does not panic**, but for a missing table. -/
theorem returnLends_spec (p : Parts) : ∀ ls : List TypedResourceIndex,
    Spec (Acct ls) (returnLends p ls) (fun _ => Acct []) Absent := by
  intro ls
  induction ls with
  | nil => intro s hs; exact hs
  | cons l ls ih =>
    intro s hs
    obtain ⟨k, r, n, hl, hi⟩ := hs.lender
    unfold returnLends tableForIndex
    rcases tableFor_cases p l.ty s with ⟨k', he, hl'⟩ | ⟨q, he, hq⟩ | ⟨_, hl'⟩
    · rw [hl] at hl'
      cases hl'
      have hget : ResourceTable.getMut l (s.table k) = (.ok (.own r (n + 1)), s.table k) :=
        getMut_ok.2 ⟨hi, rfl, rfl⟩
      have hon := onTable_run hget
      rw [setTable_table (locate_valid hl)] at hon
      rw [run_bind_ok he, run_bind_ok (expect_ok.2 hon)]
      exact ih _ (acct_return hs hl hi)
    · rw [run_bind_panic he]; exact hq
    · rw [hl] at hl'; cases hl'

theorem exitCall_spec (p : Parts) : Spec (fun s => Acct [] s ∧ s.calls.scopes ≠ [])
    (exitCall p) (fun _ => Acct []) Absent := by
  rintro s ⟨hs, hne⟩
  unfold exitCall
  rw [run_bind_ok (run_get s)]
  cases hg : s.calls.scopes.getLast? with
  | none => exact absurd (getLast?_eq_none_iff.1 hg) hne
  | some cx =>
    simp only [CallContexts.pop, hg]
    obtain ⟨scopes, hsc⟩ := getLast?_eq_some_iff.1 hg
    rw [run_bind_ok (run_set _ _)]
    split
    · trivial
    · rename_i hzero
      have hlen : s.lenders = scopes.flatMap (·.lenders) ++ cx.lenders := by
        simp [lenders, hsc]
      refine returnLends_spec p cx.lenders _ ⟨?_, ?_⟩
      · have : lenders { s with calls := { scopes := s.calls.scopes.dropLast } } ++ cx.lenders =
            s.lenders ++ [] := by
          rw [hlen]; simp [lenders, hsc]
        rw [this]
        exact hs.1.calls _
      · intro scope
        have h1 := hs.2 scope
        change s.borrows scope = _
        rw [h1]
        simp only [borrowCountAt, hsc, dropLast_concat]
        rcases Nat.lt_trichotomy scope scopes.length with hlt | rfl | hgt
        · simp [getElem?_append_left hlt]
        · simp; omega
        · rw [getElem?_eq_none (by simp; omega), getElem?_eq_none (by omega)]

theorem acct_enterCall (h : Acct [] s) : Acct [] { s with calls := s.calls.push default } := by
  constructor
  · have : lenders { s with calls := s.calls.push default } = s.lenders := by
      simp only [lenders, CallContexts.push, flatMap_append]
      exact append_nil _
    rw [this]
    exact h.1.calls _
  · intro scope
    have h1 := h.2 scope
    change s.borrows scope = _
    rw [h1]
    simp only [borrowCountAt, CallContexts.push]
    rcases Nat.lt_trichotomy scope s.calls.scopes.length with hlt | rfl | hgt
    · simp [getElem?_append_left hlt]
    · simp; rfl
    · rw [getElem?_eq_none (by omega), getElem?_eq_none (by simp; omega)]

theorem resourceDrop_spec (p : Parts) (index : TypedResourceIndex) :
    Spec (fun s => Acct [] s ∧ s.locate index.ty ≠ none) (resourceDrop p index)
      (fun _ => Acct []) Absent := by
  rintro s ⟨hs, hne⟩
  unfold resourceDrop tableForIndex
  rcases tableFor_cases p index.ty s with ⟨k, he, hl⟩ | ⟨q, he, hq⟩ | ⟨he, _⟩
  · have hk := locate_valid hl
    rw [run_bind_ok he]
    rcases remove_cases (s.table k) index with ⟨slot, hr, hi, hf⟩ | hr
    · rw [run_bind_ok (onTable_run hr)]
      obtain ⟨_, hi⟩ := slotAt_eq_some.1 hi
      cases slot with
      | free n => simp [Slot.isFree] at hf
      | own r n =>
        cases n with
        | zero =>
          cases hrep : r.rep index with
          | error e => simp [run_bind, ofExcept, Ends, hrep]
          | ok rep =>
            simp only [ofExcept, run_bind, run_pure, hrep]
            exact acct_removeOwn hs hk hi
        | succ n => trivial
      | borrow r scope =>
        cases hrep : r.rep index with
        | error e => simp [run_bind, ofExcept, Ends, hrep]
        | ok rep =>
          obtain ⟨s', hd, ha⟩ := acct_removeBorrow hs hk hi
          simp only [ofExcept, run_bind, run_pure, hrep, hd]
          exact ha
    · rw [run_bind_err (onTable_run hr)]; trivial
  · rw [run_bind_panic he]; exact hq
  · contradiction

/-! ### What lifting and lowering do -/

theorem resourceLiftOwn_ok {rep : Nat} (h : resourceLiftOwn p index s = (.ok rep, s')) :
    ∃ k r, s.locate index.ty = some k ∧
      (s.table k).slots[index.rawIndex - 1]? = some (.own r 0) ∧
      s' = s.setTable k ((s.table k).removed (index.rawIndex - 1)) := by
  obtain ⟨k, hl, h1⟩ := tableFor_bind_ok h
  obtain ⟨slot, s2, ho, h2⟩ := bind_ok.1 h1
  obtain ⟨t, ht, rfl⟩ := onTable_ok.1 ho
  obtain ⟨hi, _, rfl⟩ := remove_ok.1 ht
  cases slot with
  | free n | borrow r scope => cases h2
  | own r n =>
    cases n with
    | succ n => cases h2
    | zero =>
      obtain ⟨_, rfl⟩ := ofExcept_ok.1 h2
      exact ⟨k, r, hl, (slotAt_eq_some.1 hi).2, rfl⟩

/-- A borrow is lifted as it is, and an owned handle is lent to the last scope. -/
theorem resourceLiftBorrow_ok {rep : Nat} (h : resourceLiftBorrow p index s = (.ok rep, s')) :
    s' = s ∨ ∃ k r n scopes cx, s.locate index.ty = some k ∧
      (s.table k).slotAt index = some (.own r n) ∧ s.calls = { scopes := scopes ++ [cx] } ∧
      s' = { s.setTable k { s.table k with
          slots := (s.table k).slots.set (index.rawIndex - 1) (.own r (n + 1)) } with
        calls := { scopes := scopes ++ [{ cx with lenders := cx.lenders ++ [index] }] } } := by
  obtain ⟨k, hl, h1⟩ := tableFor_bind_ok h
  obtain ⟨slot, s2, ho, h2⟩ := bind_ok.1 h1
  obtain ⟨t, ht, rfl⟩ := onTable_ok.1 ho
  obtain ⟨hi, _, rfl⟩ := getMut_ok.1 ht
  rw [setTable_table (locate_valid hl)] at h2
  cases slot with
  | free n => cases h2
  | borrow r scope => exact .inl (ofExcept_ok.1 h2).2
  | own r n =>
    obtain ⟨_, s3, hrep, h3⟩ := bind_ok.1 h2
    obtain ⟨_, rfl⟩ := ofExcept_ok.1 hrep
    obtain ⟨m, hadd, h4⟩ := unwrap_bind_ok.1 h3
    obtain rfl := checkedAdd_some hadd
    obtain ⟨_, s5, hset, h5⟩ := bind_ok.1 h4
    obtain ⟨t, ht, rfl⟩ := onTable_ok.1 hset
    cases ht
    obtain ⟨cx, s6, hcx, h6⟩ := bind_ok.1 h5
    obtain ⟨⟨scopes, hsc⟩, rfl⟩ := lastScope_ok hcx
    cases h6
    refine .inr ⟨k, r, n, scopes, cx, hl, hi, (calls_setTable _ _ _).symm.trans hsc, ?_⟩
    dsimp only at hsc ⊢
    rw [hsc, setLast_concat]

theorem resourceLowerBorrow_ok {idx : Nat} (hw : ∀ k, s.Valid k → (s.table k).Wf)
    (h : resourceLowerBorrow p r s = (.ok idx, s')) :
    ∃ k t scopes cx, s.locate r.ty = some k ∧ s.calls = { scopes := scopes ++ [cx] } ∧
      idx = (s.table k).next + 1 ∧
      ResourceTable.Inserted (s.table k) (.borrow r scopes.length) t ∧
      s' = { s.setTable k t with
        calls := { scopes := scopes ++ [{ cx with borrowCount := cx.borrowCount + 1 }] } } := by
  unfold resourceLowerBorrow at h
  rw [run_bind_ok (run_get s)] at h
  split at h
  · cases h
  · obtain ⟨cx, s1, hcx, h1⟩ := bind_ok.1 h
    obtain ⟨⟨scopes, hsc⟩, rfl⟩ := lastScope_ok hcx
    obtain ⟨n, hadd, h2⟩ := unwrap_bind_ok.1 h1
    obtain rfl := checkedAdd_some hadd
    obtain ⟨_, s3, hset, h3⟩ := bind_ok.1 h2
    cases hset
    obtain ⟨k, hl, h4⟩ := tableFor_bind_ok h3
    obtain ⟨t, ht, rfl⟩ := onTable_ok.1 h4
    have hlen : s1.calls.scopes.length - 1 = scopes.length := by simp [hsc]
    rw [hlen] at ht
    have hk : s1.Valid k := locate_valid hl
    cases k with
    | host | guest i =>
      obtain ⟨rfl, _, hi⟩ := insert_ok (hw _ hk) ht
      refine ⟨_, t, scopes, cx, hl, hsc, rfl, hi, ?_⟩
      dsimp only
      rw [hsc, setLast_concat]
      rfl

/-! ### One operation, and a run of them -/

theorem acct_liftOwn {rep : Nat} (h : Acct [] s) (hr : resourceLiftOwn p index s = (.ok rep, s')) :
    Acct [] s' := by
  obtain ⟨k, r, hl, hi, rfl⟩ := resourceLiftOwn_ok hr
  exact acct_removeOwn h (locate_valid hl) hi

theorem acct_liftBorrow {rep : Nat} (h : Acct [] s)
    (hr : resourceLiftBorrow p index s = (.ok rep, s')) : Acct [] s' := by
  obtain rfl | ⟨k, r, n, scopes, cx, hl, hi, hsc, rfl⟩ := resourceLiftBorrow_ok hr
  · exact h
  · exact acct_lend h hl hi hsc

theorem acct_lowerBorrow {idx : Nat} (h : Acct [] s)
    (hr : resourceLowerBorrow p r s = (.ok idx, s')) : Acct [] s' := by
  obtain ⟨k, t, scopes, cx, hl, hsc, -, hi, rfl⟩ := resourceLowerBorrow_ok h.1.wf hr
  exact acct_borrow h (locate_valid hl) hsc hi

theorem acct_exec {op : Op} {r : Option Nat} (h : Acct [] s) (hr : op.exec s = (.ok r, s')) :
    Acct [] s' := by
  cases op with
  | resourceNew p r | resourceLowerOwn p r =>
    obtain ⟨_, _, hr, ⟨⟩⟩ := bind_ok.1 hr
    exact acct_insertOwn h hr
  | resourceRep p i =>
    obtain ⟨_, _, hr, ⟨⟩⟩ := bind_ok.1 hr
    obtain ⟨k, s1, hk, hrep⟩ := bind_ok.1 hr
    obtain ⟨_, rfl⟩ := tableFor_ok hk
    obtain ⟨_, rfl⟩ := ofExcept_ok.1 hrep
    exact h
  | resourceDrop p i =>
    obtain ⟨k, _, hk, _⟩ := bind_ok.1 hr
    obtain ⟨hl, _⟩ := tableFor_ok hk
    exact (resourceDrop_spec p i).ok ⟨h, by simp [hl]⟩ hr
  | resourceLiftOwn p i =>
    obtain ⟨_, _, hr, ⟨⟩⟩ := bind_ok.1 hr
    exact acct_liftOwn h hr
  | resourceLiftBorrow p i =>
    obtain ⟨_, _, hr, ⟨⟩⟩ := bind_ok.1 hr
    exact acct_liftBorrow h hr
  | resourceLowerBorrow p r =>
    obtain ⟨_, _, hr, ⟨⟩⟩ := bind_ok.1 hr
    exact acct_lowerBorrow h hr
  | enterCall => cases hr; exact acct_enterCall h
  | exitCall p =>
    obtain ⟨_, _, hr, ⟨⟩⟩ := bind_ok.1 hr
    refine (exitCall_spec p).ok ⟨h, fun hnil => ?_⟩ hr
    simp [exitCall, run_bind, CallContexts.pop, hnil] at hr

theorem acct_init (instances : Nat) (types : List Nat) : Acct [] (init instances types) := by
  have htable : ∀ k, (init instances types).table k = default := by
    intro k
    cases k with
    | host => rfl
    | guest i =>
      by_cases hi : i < instances <;> simp [init, table, hi]
  refine ⟨⟨fun k _ => ?_, fun k i _ => ?_, fun l hl => ?_⟩, fun scope => ?_⟩
  · rw [htable]; exact wf_default
  · rw [htable]; exact rfl
  · cases hl
  · have hb : (default : ResourceTable).slots.countP (borrowIn scope) = 0 := rfl
    simp [borrows, init, borrowCountAt, hb]

def Step (s : ResourceTables) (op : Op) (s' : ResourceTables) : Prop := ∃ r, op.exec s = (.ok r, s')

/-- **Lend and borrow accounting.** In every state that a run of operations reaches, every
`Own` slot is lent as often as the active scopes list it and every active scope counts the
`Borrow` slots that name it. So leaving an active call and dropping a handle of a known type
panic only when the table they need is missing from the view. -/
theorem lend_borrow_accounting {instances : Nat} {types : List Nat}
    {tr : List Op} {s : ResourceTables}
    (h : Trace Step (init instances types) tr s) :
    (∀ k i r n, s.Valid k → (s.table k).slots[i]? = some (.own r n) → n = s.lends k i) ∧
    (∀ scope cx, s.calls.scopes[scope]? = some cx → cx.borrowCount = s.borrows scope) ∧
    (∀ p q s', s.calls.scopes ≠ [] → exitCall p s = (.panic q, s') → Absent q) ∧
    (∀ p index q s', s.locate index.ty ≠ none →
      resourceDrop p index s = (.panic q, s') → Absent q) := by
  have hacct : Acct [] s := h.invariant (acct_init instances types) (fun _ _ _ hs ⟨_, hr⟩ =>
    acct_exec hs hr)
  refine ⟨fun k i r n hk hi => ?_, fun scope cx hcx => ?_, fun p q s' hne hp => ?_,
    fun p index q s' hne hp => ?_⟩
  · have hs := hacct.1.slot k i hk
    rw [hi, append_nil] at hs
    exact hs
  · rw [hacct.2 scope, borrowCountAt, hcx]
  · have := exitCall_spec p s ⟨hacct, hne⟩
    rwa [hp] at this
  · have := resourceDrop_spec p index s ⟨hacct, hne⟩
    rwa [hp] at this

/-- A handle of the host is lent to a call that also holds two borrows. -/
theorem lend_borrow_accounting_lent : ∃ s, Trace Step (init 1 [0])
    [.resourceNew ⟨true, true⟩ (.host 7), .enterCall, .resourceLiftBorrow ⟨true, true⟩ (.host 1),
      .resourceLowerBorrow ⟨true, true⟩ (.component 8 0),
      .resourceLowerBorrow ⟨true, true⟩ (.host 9)] s ∧
    1 = s.lends .host 0 ∧ 2 = s.borrows 0 := by
  obtain ⟨s, hs, hp⟩ := Trace.exists_of_foldlM Step (s := init 1 [0])
    (fun _ _ _ => next_eq_some) (fun s =>
      (s.table .host).slots[0]? == some (.own (.host 7) 1) &&
        s.calls.scopes[0]? == some ⟨[.host 1], 2⟩)
    [.resourceNew ⟨true, true⟩ (.host 7), .enterCall, .resourceLiftBorrow ⟨true, true⟩ (.host 1),
      .resourceLowerBorrow ⟨true, true⟩ (.component 8 0),
      .resourceLowerBorrow ⟨true, true⟩ (.host 9)] (by decide)
  simp only [Bool.and_eq_true, beq_iff_eq] at hp
  have h := lend_borrow_accounting hs
  exact ⟨s, hs, h.1 .host 0 _ _ trivial hp.1, h.2.1 0 _ hp.2⟩

end Wasmtime.Resources.ResourceTables
