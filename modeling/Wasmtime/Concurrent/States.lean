import Wasmtime.Base.Counting
import Wasmtime.Concurrent.Table

/-!
# The handle tables of component instances

`StateTable` of `concurrent/states.rs`: from the handles of a component instance, which start at 1,
to the waitable behind them (`rep`, a key of `Table`) and the state of the handle. The free slots
are a list threaded through the slots; `repsToIndexes` is the inverse map, where 0 stands for no
handle.

`insert_ok`, `setState_ok` and `removeByIndex_ok` say what the operations do, through `slot?` and
`indexOf`.
-/

namespace Wasmtime.Concurrent

open Base Prog List

inductive Error where
  | table (e : TableError)
  | msg (text : String)
deriving DecidableEq

def maxHandle : Nat := 2 ^ 30

inductive Slot (α : Type) where
  | free (next : Nat)
  | occupied (rep : Nat) (state : α)

structure StateTable (α : Type) where
  next : Nat
  slots : List (Slot α)
  repsToIndexes : List Nat

namespace StateTable

variable {α : Type}

instance : Inhabited (StateTable α) := ⟨{ next := 0, slots := [], repsToIndexes := [] }⟩

def slot? (t : StateTable α) (idx : Nat) : Option (Nat × α) :=
  match idx with
  | 0 => none
  | i + 1 =>
    match t.slots[i]? with
    | some (.occupied rep state) => some (rep, state)
    | _ => none

def indexOf (t : StateTable α) (rep : Nat) : Nat := t.repsToIndexes.getD rep 0

/-- `resize(rep + 1, 0)` when the map is too short, then write. -/
def setIndex (t : StateTable α) (rep idx : Nat) : StateTable α :=
  { t with
    repsToIndexes :=
      (t.repsToIndexes ++ List.replicate (rep + 1 - t.repsToIndexes.length) 0).set rep idx }

def insert (rep : Nat) (state : α) : Prog (StateTable α) Error Nat := do
  let t ← Prog.get
  if t.indexOf rep ≠ 0 then
    err (.msg s!"rep {rep} already exists in this table")
  else do
    assert (decide (t.next ≠ t.slots.length ∨ t.next + 1 < 2 ^ 32)) (.unwrap "checked_add(1)")
    let slots := if t.next = t.slots.length then t.slots ++ [.free (t.next + 1)] else t.slots
    match slots[t.next]? with
    | none => Prog.panic (.bounds "slots")
    | some (.occupied _ _) => Prog.panic (.unreachable "insert")
    | some (.free next) => do
      Prog.set { t with next, slots := slots.set t.next (.occupied rep state) }
      let ret := t.next + 1
      if ret ≥ maxHandle then
        err (.msg "cannot allocate another handle: index overflow")
      else
        Prog.modify (fun t => t.setIndex rep ret)
        pure ret

def getMutByIndex (idx : Nat) : Prog (StateTable α) Error (Nat × α) := do
  let t ← Prog.get
  orErr (t.slot? idx) (.msg s!"unknown handle index {idx}")

def setState (idx : Nat) (state : α) : Prog (StateTable α) Error Unit := do
  let (rep, _) ← getMutByIndex idx
  Prog.modify (fun t => { t with slots := t.slots.set (idx - 1) (.occupied rep state) })

def getMutByRep (rep : Nat) : Prog (StateTable α) Error (Option (Nat × α)) := do
  let t ← Prog.get
  if t.indexOf rep > 0 then do
    let (_, state) ← unwrap (t.slot? (t.indexOf rep)) (.unwrap "get_mut_by_index")
    pure (some (t.indexOf rep, state))
  else
    pure none

def removeByIndex (idx : Nat) : Prog (StateTable α) Error (Nat × α) := do
  let (rep, state) ← getMutByIndex idx
  Prog.modify (fun t =>
    { t with slots := t.slots.set (idx - 1) (.free t.next), next := idx - 1 })
  let t ← Prog.get
  let index ← unwrap t.repsToIndexes[rep]? (.bounds "reps_to_indexes")
  assert (decide (index = idx)) (.assert "idx == reps_to_indexes[rep]")
  Prog.modify (fun t => { t with repsToIndexes := t.repsToIndexes.set rep 0 })
  pure (rep, state)

/-! ### What the operations do -/

theorem slot?_set (t : StateTable α) (i : Nat) (x : Slot α) (nx : Nat) (rs : List Nat)
    (h : i < t.slots.length) (j : Nat) :
    slot? { next := nx, slots := t.slots.set i x, repsToIndexes := rs } j =
      if j = i + 1 then (match x with | .occupied rep st => some (rep, st) | .free _ => none)
      else t.slot? j := by
  cases j with
  | zero => rfl
  | succ j =>
    unfold slot?
    dsimp only
    rw [getElem?_set]
    by_cases hj : i = j
    · subst hj
      simp only [if_true, h]
      cases x <;> rfl
    · rw [if_neg hj, if_neg (by omega)]

variable {x : Nat × α}

theorem lt_of_slot? {t : StateTable α} {idx : Nat} (h : t.slot? idx = some x) :
    idx ≠ 0 ∧ idx - 1 < t.slots.length := by
  cases idx with
  | zero => cases h
  | succ i =>
    refine ⟨by omega, ?_⟩
    by_contra hlt
    simp only [slot?, getElem?_eq_none (show t.slots.length ≤ i by omega)] at h
    cases h

theorem indexOf_setIndex (t : StateTable α) (rep idx r : Nat) :
    (t.setIndex rep idx).indexOf r = if r = rep then idx else t.indexOf r := by
  unfold setIndex indexOf
  rw [getD_eq_getElem?_getD, getElem?_set, getD_eq_getElem?_getD]
  by_cases hr : rep = r
  · subst hr
    rw [if_pos rfl, if_pos rfl, if_pos (by simp; omega)]
    rfl
  · rw [if_neg hr, if_neg (fun h => hr h.symm), getElem?_append]
    by_cases hl : r < t.repsToIndexes.length
    · rw [if_pos hl]
    · rw [if_neg hl, getElem?_eq_none (show t.repsToIndexes.length ≤ r by omega),
        getElem?_replicate]
      split <;> rfl

@[simp] theorem slot?_setIndex (t : StateTable α) (rep idx j : Nat) :
    (t.setIndex rep idx).slot? j = t.slot? j := rfl

theorem indexOf_of_getElem? {t : StateTable α} {rep idx : Nat}
    (h : t.repsToIndexes[rep]? = some idx) : t.indexOf rep = idx := by
  rw [indexOf, getD_eq_getElem?_getD, h]
  rfl

theorem getElem?_of_indexOf {t : StateTable α} {rep : Nat} (h : t.indexOf rep ≠ 0) :
    t.repsToIndexes[rep]? = some (t.indexOf rep) := by
  unfold indexOf at h ⊢
  rw [getD_eq_getElem?_getD] at h ⊢
  cases hr : t.repsToIndexes[rep]? with
  | none =>
    rw [hr] at h
    exact absurd rfl h
  | some idx => rfl

theorem slot?_grow (t : StateTable α) (nx j : Nat) :
    slot? { t with slots := t.slots ++ [.free nx] } j = t.slot? j := by
  cases j with
  | zero => rfl
  | succ j =>
    unfold slot?
    dsimp only
    rcases Nat.lt_trichotomy j t.slots.length with hj | rfl | hj
    · rw [getElem?_append_left hj]
    · simp
    · rw [getElem?_eq_none (by simp; omega), getElem?_eq_none (by omega)]

variable {t t' : StateTable α} {idx rep : Nat} {state : α}

@[simp] theorem getMutByIndex_ok :
    getMutByIndex idx t = (.ok x, t') ↔ t.slot? idx = some x ∧ t' = t := by
  simp only [getMutByIndex, run_get_bind, orErr_ok]

theorem insert_ok (h : insert rep state t = (.ok idx, t')) :
    t.slot? idx = none ∧ idx ≠ 0 ∧ t.indexOf rep = 0 ∧
      (∀ j, t'.slot? j = if j = idx then some (rep, state) else t.slot? j) ∧
      ∀ r, t'.indexOf r = if r = rep then idx else t.indexOf r := by
  simp only [insert, run_get_bind] at h
  split at h
  · cases h
  · rename_i hrep
    obtain ⟨_, _, hassert, hslots⟩ := bind_ok.1 h
    obtain ⟨-, hsame⟩ := assert_ok.1 hassert
    rw [hsame] at hslots
    -- the table after the slot at `next` is made sure of
    obtain ⟨t1, ht1, hs1, hi1, hn1⟩ : ∃ t1 : StateTable α,
        t1.slots = (if t.next = t.slots.length then t.slots ++ [.free (t.next + 1)] else t.slots) ∧
          (∀ j, t1.slot? j = t.slot? j) ∧ t1.repsToIndexes = t.repsToIndexes ∧
          t1.next = t.next := by
      by_cases hn : t.next = t.slots.length
      · exact ⟨{ t with slots := t.slots ++ [.free (t.next + 1)] }, by simp [hn],
          slot?_grow t _, rfl, rfl⟩
      · exact ⟨t, by simp [hn], fun _ => rfl, rfl, rfl⟩
    rw [← ht1] at hslots
    rcases hx : t1.slots[t.next]? with _ | next | ⟨r, st⟩
    · simp only [hx, panic_ok] at hslots
    · simp only [hx, run_set_bind] at hslots
      split at hslots
      · cases hslots
      · simp only [run_modify_bind, pure_ok] at hslots
        obtain ⟨rfl, rfl⟩ := hslots
        have hlen : t.next < t1.slots.length := by
          by_contra hlt
          rw [getElem?_eq_none (by omega)] at hx
          cases hx
        have hset := slot?_set t1 t.next (.occupied rep state) next t.repsToIndexes hlen
        refine ⟨?_, by omega, by simpa using hrep, fun j => ?_, fun r => ?_⟩
        · rw [← hs1]; simp [slot?, hx]
        · rw [slot?_setIndex, hset, hs1]
        · rw [indexOf_setIndex]; rfl
    · simp only [hx, panic_ok] at hslots

theorem setState_ok {u : Unit} (h : setState idx state t = (.ok u, t')) :
    ∃ x, t.slot? idx = some x ∧
      (∀ j, t'.slot? j = if j = idx then some (x.1, state) else t.slot? j) ∧
      ∀ r, t'.indexOf r = t.indexOf r := by
  simp only [setState, bind_ok, getMutByIndex_ok, modify_ok] at h
  obtain ⟨x, _, ⟨hx, rfl⟩, rfl⟩ := h
  obtain ⟨hne, hlt⟩ := lt_of_slot? hx
  refine ⟨x, hx, fun j => ?_, fun r => rfl⟩
  rw [slot?_set _ _ _ _ _ hlt, Nat.sub_add_cancel (Nat.one_le_iff_ne_zero.2 hne)]

theorem removeByIndex_ok (h : removeByIndex idx t = (.ok x, t')) :
    t.slot? idx = some x ∧ t.indexOf x.1 = idx ∧
      (∀ j, t'.slot? j = if j = idx then none else t.slot? j) ∧
      ∀ r, t'.indexOf r = if r = x.1 then 0 else t.indexOf r := by
  simp only [removeByIndex, bind_ok, getMutByIndex_ok, run_modify_bind,
    run_get_bind, unwrap_ok, assert_ok, pure_ok] at h
  obtain ⟨⟨rep, st⟩, _, ⟨hx, rfl⟩, _, _, ⟨hindex, rfl⟩, _, _, ⟨hidx, rfl⟩, rfl, rfl⟩ := h
  obtain ⟨hne, hlt⟩ := lt_of_slot? hx
  obtain rfl := of_decide_eq_true hidx
  refine ⟨hx, indexOf_of_getElem? hindex, fun j => ?_, fun r => ?_⟩
  · rw [slot?_set _ _ _ _ _ hlt, Nat.sub_add_cancel (Nat.one_le_iff_ne_zero.2 hne)]
  · unfold indexOf
    rw [getD_eq_getElem?_getD, getElem?_set, getD_eq_getElem?_getD]
    by_cases hr : rep = r
    · subst hr
      rw [if_pos rfl, if_pos rfl]
      split <;> rfl
    · rw [if_neg hr, if_neg (fun h => hr h.symm)]

theorem getMutByRep_ok {o : Option (Nat × α)} (h : getMutByRep rep t = (.ok o, t')) :
    t' = t ∧ ((o = none ∧ t.indexOf rep = 0) ∨
      ∃ x, o = some (t.indexOf rep, x.2) ∧ t.slot? (t.indexOf rep) = some x) := by
  simp only [getMutByRep, run_get_bind] at h
  split at h
  · simp only [bind_ok, unwrap_ok, pure_ok] at h
    obtain ⟨x, _, ⟨hx, rfl⟩, rfl, rfl⟩ := h
    exact ⟨rfl, Or.inr ⟨x, rfl, hx⟩⟩
  · simp only [pure_ok] at h
    exact ⟨h.2, Or.inl ⟨h.1, by omega⟩⟩

/-! ### Sums over a table -/

def total (f : Nat × α → Nat) (t : StateTable α) : Nat :=
  (t.slots.map (fun x => match x with | .occupied rep state => f (rep, state) | .free _ => 0)).sum

variable {f : Nat × α → Nat}

theorem insert_total (h : insert rep state t = (.ok idx, t')) :
    t'.total f = t.total f + f (rep, state) := by
  simp only [insert, run_get_bind] at h
  split at h
  · cases h
  · obtain ⟨_, _, hassert, hslots⟩ := bind_ok.1 h
    obtain ⟨-, hsame⟩ := assert_ok.1 hassert
    rw [hsame] at hslots
    -- the slot at `next` is free, whether it was just added or not
    have hgrow : ∀ slots : List (Slot α),
        slots = (if t.next = t.slots.length then t.slots ++ [.free (t.next + 1)] else t.slots) →
        (slots.map (fun x => match x with
          | .occupied rep state => f (rep, state)
          | .free _ => 0)).sum = t.total f := by
      rintro slots rfl
      split <;> simp [total]
    rcases hx : (if t.next = t.slots.length then t.slots ++ [.free (t.next + 1)]
        else t.slots)[t.next]? with _ | next | ⟨r, st⟩
    · simp only [hx, panic_ok] at hslots
    · simp only [hx, run_set_bind] at hslots
      split at hslots
      · cases hslots
      · simp only [run_modify_bind, pure_ok] at hslots
        obtain ⟨rfl, rfl⟩ := hslots
        have hs := sum_map_set_add (fun x => match x with
          | .occupied rep state => f (rep, state)
          | .free _ => 0) _ t.next (.occupied rep state) _ hx
        rw [hgrow _ rfl] at hs
        simpa [total, setIndex] using hs
    · simp only [hx, panic_ok] at hslots

theorem slots_of_slot? (h : t.slot? idx = some x) :
    t.slots[idx - 1]? = some (.occupied x.1 x.2) := by
  cases idx with
  | zero => cases h
  | succ i =>
    unfold slot? at h
    simp only [Nat.add_sub_cancel]
    rcases hi : t.slots[i]? with _ | _ | ⟨r, st⟩ <;> simp only [hi] at h <;> cases h
    rfl

theorem setState_total {u : Unit} (hx : t.slot? idx = some x)
    (h : setState idx state t = (.ok u, t')) : t'.total f + f x = t.total f + f (x.1, state) := by
  simp only [setState, bind_ok, getMutByIndex_ok, modify_ok] at h
  obtain ⟨y, _, ⟨hy, rfl⟩, rfl⟩ := h
  obtain rfl : x = y := Option.some.inj (hx.symm.trans hy)
  exact sum_map_set_add _ _ _ _ _ (slots_of_slot? hx)

theorem removeByIndex_total (h : removeByIndex idx t = (.ok x, t')) :
    t'.total f + f x = t.total f := by
  simp only [removeByIndex, bind_ok, getMutByIndex_ok, run_modify_bind,
    run_get_bind, unwrap_ok, assert_ok, pure_ok] at h
  obtain ⟨y, _, ⟨hy, rfl⟩, _, _, ⟨_, rfl⟩, _, _, ⟨_, rfl⟩, rfl, rfl⟩ := h
  exact sum_map_set_add _ _ _ (.free _) _ (slots_of_slot? hy)

theorem le_total (h : t.slot? idx = some x) : f x ≤ t.total f :=
  single_le_sum (fun _ _ => Nat.zero_le _) _ (mem_map_of_mem (mem_of_getElem? (slots_of_slot? h)))

/-! ### Tables that are in order -/

structure Ordered (t : StateTable α) : Prop where
  index : ∀ {idx x}, t.slot? idx = some x → t.indexOf x.1 = idx
  slot : ∀ {rep}, t.indexOf rep ≠ 0 → ∃ state, t.slot? (t.indexOf rep) = some (rep, state)

theorem Ordered.default : Ordered (Inhabited.default : StateTable α) := by
  refine ⟨fun {idx x} h => ?_, fun {rep} h => absurd (by simp [indexOf, Inhabited.default]) h⟩
  cases idx <;> simp [slot?, Inhabited.default] at h

theorem Ordered.insert (ho : Ordered t) (h : StateTable.insert rep state t = (.ok idx, t')) :
    Ordered t' := by
  obtain ⟨hn, h0, hi, hs, hx⟩ := insert_ok h
  refine ⟨fun {j x} hj => ?_, fun {r} hr => ?_⟩
  · rw [hs] at hj
    rw [hx]
    split at hj
    · cases hj
      subst j
      simp
    · rw [if_neg, ho.index hj]
      intro hr
      have := ho.index hj
      rw [hr, hi] at this
      subst this
      cases hj
  · rw [hx] at hr ⊢
    by_cases hrep : r = rep
    · subst hrep
      exact ⟨state, by simp [hs]⟩
    · rw [if_neg hrep] at hr ⊢
      obtain ⟨st, hst⟩ := ho.slot hr
      refine ⟨st, ?_⟩
      rw [hs, if_neg, hst]
      intro he
      rw [he, hn] at hst
      cases hst

theorem Ordered.setState {u : Unit} (ho : Ordered t)
    (h : StateTable.setState idx state t = (.ok u, t')) : Ordered t' := by
  obtain ⟨x, hx, hs, hi⟩ := setState_ok h
  refine ⟨fun {j y} hj => ?_, fun {r} hr => ?_⟩
  · rw [hs] at hj
    rw [hi]
    split at hj
    · cases hj
      subst j
      have := ho.index hx
      exact this
    · exact ho.index hj
  · rw [hi] at hr ⊢
    obtain ⟨st, hst⟩ := ho.slot hr
    rw [hs]
    split
    · rename_i he
      rw [he, hx] at hst
      cases hst
      exact ⟨state, rfl⟩
    · exact ⟨st, hst⟩

theorem Ordered.removeByIndex (ho : Ordered t) (h : StateTable.removeByIndex idx t = (.ok x, t')) :
    Ordered t' := by
  obtain ⟨hx, hi, hs, hr⟩ := removeByIndex_ok h
  refine ⟨fun {j y} hj => ?_, fun {r} hn => ?_⟩
  · rw [hs] at hj
    split at hj
    · cases hj
    · rename_i hne
      rw [hr, if_neg, ho.index hj]
      intro he
      have := ho.index hj
      rw [he, hi] at this
      exact hne this.symm
  · rw [hr] at hn ⊢
    by_cases hrx : r = x.1
    · simp [hrx] at hn
    · rw [if_neg hrx] at hn ⊢
      obtain ⟨st, hst⟩ := ho.slot hn
      refine ⟨st, ?_⟩
      rw [hs, if_neg, hst]
      intro he
      rw [he, hx] at hst
      cases hst
      exact hrx rfl

theorem setState_run (h : t.slot? idx = some x) (state : α) :
    ∃ t', setState idx state t = (.ok (), t') := by
  have hg : getMutByIndex idx t = (.ok x, t) := getMutByIndex_ok.2 ⟨h, rfl⟩
  unfold setState
  rw [run_bind_ok hg]
  exact ⟨_, rfl⟩

theorem Ordered.removeByIndex_run (ho : Ordered t) (h : t.slot? idx = some x) :
    ∃ t', StateTable.removeByIndex idx t = (.ok x, t') := by
  have hi := ho.index h
  have hindex : t.repsToIndexes[x.1]? = some idx := by
    rw [getElem?_of_indexOf (hi ▸ (lt_of_slot? h).1), hi]
  have hg : getMutByIndex idx t = (.ok x, t) := getMutByIndex_ok.2 ⟨h, rfl⟩
  unfold StateTable.removeByIndex
  rw [run_bind_ok hg]
  simp only [run_modify_bind, run_get_bind]
  rw [run_bind_ok (unwrap_ok.2 ⟨hindex, rfl⟩),
    run_bind_ok (assert_ok (u := ()) |>.mpr ⟨decide_eq_true rfl, rfl⟩)]
  exact ⟨_, rfl⟩

end StateTable

end Wasmtime.Concurrent
