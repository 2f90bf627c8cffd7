import Wasmtime.Base.FreeList
import Wasmtime.Concurrent.States

/-!
# Runs of a handle table

In every run of a `StateTable` in which `insert` is not called once the handles have run out
(`Room`), handles and reps are in bijection, the free slots are the chain from `next` to the length,
and no assertion fails (`state_table_bijection`).

`insert` takes the slot off the chain before it looks at the limit, so the call that finds the
handles used up leaves a slot whose rep has no index, and removing that handle panics
(`full_table_panics`).
-/

namespace Wasmtime.Concurrent.StateTable

open Base Prog List

variable {α : Type} {t t' : StateTable α} {rep idx : Nat} {state : α}

/-! ### The free chain -/

def toHead (t : StateTable α) (n : Nat) : Option Nat :=
  if n = t.slots.length then none else some n

def link (t : StateTable α) (i : Nat) : Option (Option Nat) :=
  match t.slots[i]? with
  | some (.free next) => some (t.toHead next)
  | _ => none

structure Sound (t : StateTable α) : Prop where
  ordered : Ordered t
  cells : FreeCover t.link (t.toHead t.next)
  small : t.slots.length < maxHandle

theorem link_set {slot : Slot α} {next : Nat} {reps : List Nat} {i : Nat}
    (h : i < t.slots.length) (j : Nat) :
    (⟨next, t.slots.set i slot, reps⟩ : StateTable α).link j =
      if j = i then (match slot with | .free n => some (t.toHead n) | .occupied _ _ => none)
      else t.link j := by
  unfold link toHead
  rw [getElem?_set, length_set]
  by_cases hj : i = j
  · subst hj
    rw [if_pos rfl, if_pos h, if_pos rfl]
    cases slot <;> rfl
  · rw [if_neg hj, if_neg (Ne.symm hj)]

theorem toHead_set {slots : List (Slot α)} {next n : Nat} {reps : List Nat}
    (h : slots.length = t.slots.length) :
    (⟨next, slots, reps⟩ : StateTable α).toHead n = t.toHead n := by
  unfold toHead
  rw [h]

theorem Sound.next_cases (h : Sound t) : t.next = t.slots.length ∨
      (t.next ≠ t.slots.length ∧ ∃ n, t.slots[t.next]? = some (.free n)) := by
  by_cases hn : t.next = t.slots.length
  · exact .inl hn
  · have hcells := h.cells
    rw [toHead, if_neg hn] at hcells
    obtain ⟨next, hl⟩ := hcells.freeList.head_free
    unfold link at hl
    split at hl
    · exact .inr ⟨hn, _, ‹_›⟩
    · cases hl

def written (t : StateTable α) (rep : Nat) (state : α) : StateTable α :=
  match t.slots[t.next]? with
  | some (.free n) => { t with next := n, slots := t.slots.set t.next (.occupied rep state) }
  | _ => { t with next := t.next + 1, slots := t.slots ++ [.occupied rep state] }

/-- **What `insert` does**: the slot is written before the handle is compared with the limit. -/
theorem Sound.insert_run (h : Sound t) (state : α) (hrep : t.indexOf rep = 0) :
    insert rep state t =
      if t.next + 1 ≥ maxHandle then
        (.err (.msg "cannot allocate another handle: index overflow"), t.written rep state)
      else (.ok (t.next + 1), (t.written rep state).setIndex rep (t.next + 1)) := by
  have hsmall : t.slots.length + 1 < 2 ^ 32 := by
    have hlt := h.small
    unfold maxHandle at hlt
    omega
  unfold insert written
  rw [run_get_bind, if_neg (not_not_intro hrep)]
  rcases h.next_cases with hn | ⟨hn, n, hslot⟩
  · have hget : (t.slots ++ [Slot.free (t.next + 1)])[t.next]? = some (.free (t.next + 1)) := by
      rw [hn, getElem?_concat_length]
    have hset : (t.slots ++ [Slot.free (t.next + 1)]).set t.next (.occupied rep state) =
        t.slots ++ [.occupied rep state] := by
      rw [hn, set_append_right _ _ le_rfl, Nat.sub_self]
      rfl
    have hnone : t.slots[t.next]? = none := getElem?_eq_none hn.ge
    rw [decide_eq_true (.inr (hn ▸ hsmall)), if_pos hn, hnone]
    simp only [assert, if_pos, run_pure_bind, hget, hset, run_set_bind]
    split <;> rfl
  · rw [decide_eq_true (.inl hn), if_neg hn, hslot]
    simp only [assert, if_pos, run_pure_bind, hslot, run_set_bind]
    split <;> rfl

theorem Sound.written_cells (h : Sound t) : FreeCover (t.written rep state).link
      ((t.written rep state).toHead (t.written rep state).next) := by
  unfold written
  rcases h.next_cases with hn | ⟨hn, n, hslot⟩
  · have hcells := h.cells
    rw [toHead, if_pos hn] at hcells
    rw [getElem?_eq_none hn.ge]
    have hend : (⟨t.next + 1, t.slots ++ [.occupied rep state], t.repsToIndexes⟩ :
        StateTable α).toHead (t.next + 1) = none := by
      unfold toHead
      rw [if_pos (by rw [length_append, hn]; rfl)]
    rw [hend]
    refine .nil fun i => ?_
    have hold := hcells.eq_none i
    unfold link at hold ⊢
    rcases lt_trichotomy i t.slots.length with hi | rfl | hi
    · rw [getElem?_append_left hi]
      split
      · rename_i n hfree
        rw [hfree] at hold
        cases hold
      · rfl
    · rw [getElem?_concat_length]
    · rw [getElem?_eq_none (by simp; omega)]
  · have hcells := h.cells
    have hlt := (List.getElem?_eq_some_iff.1 hslot).1
    rw [toHead, if_neg hn] at hcells
    rw [hslot]
    rw [toHead_set length_set]
    refine hcells.pop ?_ ?_ ?_
    · unfold link
      rw [hslot]
    · rw [link_set hlt, if_pos rfl]
    · intro j hj
      rw [link_set hlt, if_neg hj]

theorem Sound.written_small (h : Sound t) (hroom : t.next + 1 < maxHandle) :
    (t.written rep state).slots.length < maxHandle := by
  unfold written
  rcases h.next_cases with hn | ⟨-, n, hslot⟩
  · rw [getElem?_eq_none hn.ge, length_append, ← hn]
    exact hroom
  · rw [hslot, length_set]
    exact h.small

/-! ### Runs -/

inductive Op (α : Type) where
  | insert (rep : Nat) (state : α)
  | removeByIndex (idx : Nat)
  | getMutByIndex (idx : Nat) (state : α)
  | getMutByRep (rep : Nat)

/-- A lookup by index gives out a reference, through which the state may be written. -/
def Op.exec : Op α → Prog (StateTable α) Error Unit
  | .insert rep state => do
    let _ ← StateTable.insert rep state
    pure ()
  | .removeByIndex idx => do
    let _ ← StateTable.removeByIndex idx
    pure ()
  | .getMutByIndex idx state => setState idx state
  | .getMutByRep rep => do
    let _ ← StateTable.getMutByRep rep
    pure ()

def Step (t : StateTable α) (op : Op α) (t' : StateTable α) : Prop :=
  ∃ o, op.exec t = (o, t') ∧ o.isPanic = false

/-- There is a handle left for a rep that has none. -/
def Room (t : StateTable α) : Op α → Prop
  | .insert rep _ => t.indexOf rep = 0 → t.next + 1 < maxHandle
  | _ => True

instance (t : StateTable α) : (op : Op α) → Decidable (Room t op)
  | .insert rep _ => inferInstanceAs (Decidable (t.indexOf rep = 0 → t.next + 1 < maxHandle))
  | .removeByIndex _ | .getMutByIndex _ _ | .getMutByRep _ => .isTrue trivial

theorem Sound.insert_err {e : Error} (hroom : t.indexOf rep = 0 → t.next + 1 < maxHandle)
    (h : Sound t) (hi : insert rep state t = (.err e, t')) : t' = t := by
  by_cases hrep : t.indexOf rep = 0
  · rw [h.insert_run state hrep, if_neg (not_le.2 (hroom hrep))] at hi
    cases hi
  · unfold insert at hi
    rw [run_get_bind, if_pos hrep] at hi
    cases hi
    rfl

theorem Sound.insert (h : Sound t) (hi : StateTable.insert rep state t = (.ok idx, t')) :
    Sound t' := by
  have hordered := h.ordered.insert hi
  rw [h.insert_run state (insert_ok hi).2.2.1] at hi
  split at hi
  · cases hi
  · rename_i hroom
    cases hi
    exact ⟨hordered, h.written_cells, h.written_small (not_le.1 hroom)⟩

theorem Sound.setState {u : Unit} (h : Sound t)
    (hs : StateTable.setState idx state t = (.ok u, t')) : Sound t' := by
  have hordered := h.ordered.setState hs
  obtain ⟨⟨rep, st⟩, t1, hg, hm⟩ := bind_ok.1 hs
  obtain ⟨hx, rfl⟩ := getMutByIndex_ok.1 hg
  cases modify_ok.1 hm
  have hslot := slots_of_slot? hx
  have hlt := (List.getElem?_eq_some_iff.1 hslot).1
  refine ⟨hordered, ?_, ?_⟩
  · rw [toHead_set length_set]
    refine h.cells.congr fun j => ?_
    rw [link_set hlt]
    split_ifs with hj
    · subst hj
      unfold link
      rw [hslot]
    · rfl
  · rw [length_set]
    exact h.small

theorem Sound.removeByIndex {x : Nat × α} (h : Sound t)
    (hr : StateTable.removeByIndex idx t = (.ok x, t')) : Sound t' := by
  have hordered := h.ordered.removeByIndex hr
  obtain ⟨⟨rep, st⟩, t1, hg, hm⟩ := bind_ok.1 hr
  obtain ⟨hy, rfl⟩ := getMutByIndex_ok.1 hg
  dsimp only at hm
  rw [run_modify_bind, run_get_bind] at hm
  obtain ⟨_, -, hm⟩ := unwrap_bind_ok.1 hm
  obtain ⟨-, hlast⟩ := assert_bind_ok.1 hm
  rw [run_modify_bind] at hlast
  obtain ⟨-, rfl⟩ := pure_ok.1 hlast
  have hslot := slots_of_slot? hy
  have hlt := (List.getElem?_eq_some_iff.1 hslot).1
  refine ⟨hordered, ?_, ?_⟩
  · have hhead : toHead t1 (idx - 1) = some (idx - 1) := if_neg hlt.ne
    rw [toHead_set length_set, hhead]
    refine h.cells.push ?_ ?_ ?_
    · unfold link
      rw [hslot]
    · rw [link_set hlt, if_pos rfl]
    · intro j hj
      rw [link_set hlt, if_neg hj]
  · rw [length_set]
    exact h.small

theorem getMutByIndex_err {e : Error} (h : getMutByIndex idx t = (.err e, t')) : t' = t := by
  unfold getMutByIndex at h
  rw [run_get_bind] at h
  cases hx : t.slot? idx with
  | none =>
    rw [hx] at h
    cases h
    rfl
  | some x =>
    rw [hx] at h
    cases h

theorem Sound.removeByIndex_err {e : Error} (h : Sound t)
    (hr : StateTable.removeByIndex idx t = (.err e, t')) : t' = t := by
  cases hx : t.slot? idx with
  | some x =>
    obtain ⟨t1, hrun⟩ := h.ordered.removeByIndex_run hx
    cases hr.symm.trans hrun
  | none =>
    have hg : getMutByIndex idx t = (.err (.msg s!"unknown handle index {idx}"), t) := by
      unfold getMutByIndex
      rw [run_get_bind, hx]
      rfl
    unfold StateTable.removeByIndex at hr
    rw [run_bind_err hg] at hr
    cases hr
    rfl

theorem Sound.getMutByRep_run (h : Sound t) (rep : Nat) : ∃ o, getMutByRep rep t = (.ok o, t) := by
  unfold getMutByRep
  rw [run_get_bind]
  split_ifs with hpos
  · obtain ⟨st, hst⟩ := h.ordered.slot (Nat.pos_iff_ne_zero.1 hpos)
    rw [hst]
    exact ⟨_, rfl⟩
  · exact ⟨_, rfl⟩

theorem Sound.step {op : Op α} (h : Sound t) (hroom : Room t op) (hstep : Step t op t') :
    Sound t' := by
  obtain ⟨o, hexec, hok⟩ := hstep
  cases op with
  | insert rep state =>
    rcases hi : StateTable.insert rep state t with ⟨o', t1⟩
    cases (run_bind_pure hi fun _ => ()).symm.trans hexec
    cases o' with
    | ok idx => exact h.insert hi
    | err e => exact h.insert_err hroom hi ▸ h
    | panic p => cases hok
  | removeByIndex idx =>
    rcases hr : StateTable.removeByIndex idx t with ⟨o', t1⟩
    cases (run_bind_pure hr fun _ => ()).symm.trans hexec
    cases o' with
    | ok x => exact h.removeByIndex hr
    | err e => exact h.removeByIndex_err hr ▸ h
    | panic p => cases hok
  | getMutByIndex idx state =>
    change StateTable.setState idx state t = (o, t') at hexec
    cases o with
    | ok u => exact h.setState hexec
    | err e =>
      unfold StateTable.setState at hexec
      rcases hg : getMutByIndex idx t with ⟨o', t1⟩
      cases o' with
      | ok x =>
        rw [run_bind_ok hg] at hexec
        cases hexec
      | err e' =>
        rw [run_bind_err hg] at hexec
        cases hexec
        exact getMutByIndex_err hg ▸ h
      | panic p =>
        rw [run_bind_panic hg] at hexec
        cases hexec
    | panic p => cases hok
  | getMutByRep rep =>
    obtain ⟨o', hg⟩ := h.getMutByRep_run rep
    cases (run_bind_pure hg fun _ => ()).symm.trans hexec
    exact h

/-- **Handles and reps are in bijection, and the operations know it.** -/
structure Bijective (t : StateTable α) : Prop where
  index : ∀ i r, (∃ state, t.slot? i = some (r, state)) ↔ i ≠ 0 ∧ t.indexOf r = i
  distinct : ∀ i j x y, t.slot? i = some x → t.slot? j = some y → i ≠ j → x.1 ≠ y.1
  cells : FreeCover t.link (t.toHead t.next)
  insert : ∀ rep state, (StateTable.insert rep state t).1.isPanic = false
  getMutByRep : ∀ rep, (StateTable.getMutByRep rep t).1.isPanic = false
  removeByIndex : ∀ idx, (StateTable.removeByIndex idx t).1.isPanic = false

theorem Sound.bijective (h : Sound t) : Bijective t where
  index := by
    intro i r
    constructor
    · rintro ⟨state, hs⟩
      exact ⟨(lt_of_slot? hs).1, h.ordered.index hs⟩
    · rintro ⟨hne, rfl⟩
      exact h.ordered.slot hne
  distinct := by
    intro i j x y hx hy hij heq
    exact hij ((h.ordered.index hx).symm.trans (heq ▸ h.ordered.index hy))
  cells := h.cells
  insert := by
    intro rep state
    by_cases hrep : t.indexOf rep = 0
    · rw [h.insert_run state hrep]
      split <;> rfl
    · unfold StateTable.insert
      rw [run_get_bind, if_pos hrep]
      rfl
  getMutByRep := by
    intro rep
    obtain ⟨o, hg⟩ := h.getMutByRep_run rep
    rw [hg]
    rfl
  removeByIndex := by
    intro idx
    cases hx : t.slot? idx with
    | some x =>
      obtain ⟨t1, hrun⟩ := h.ordered.removeByIndex_run hx
      rw [hrun]
      rfl
    | none =>
      unfold StateTable.removeByIndex StateTable.getMutByIndex
      rw [run_bind, run_get_bind, hx]
      rfl

theorem Sound.default : Sound (Inhabited.default : StateTable α) :=
  ⟨Ordered.default, .nil fun _ => rfl, Nat.two_pow_pos 30⟩

/-- **A handle table is a bijection, as long as handles are left.** -/
theorem state_table_bijection {tr : List (Op α)}
    (h : Trace (fun t op t' => Room t op ∧ Step t op t') default tr t) : Bijective t := by
  have hsound : Sound t :=
    Trace.invariant Sound.default (fun _ _ _ hs hstep => hs.step hstep.1 hstep.2) h
  exact hsound.bijective

/-! ### Handles run out -/

def filled (n : Nat) : StateTable Unit where
  next := n
  slots := (List.range n).map fun i => .occupied i ()
  repsToIndexes := (List.range n).map (· + 1)

theorem filled_indexOf (n : Nat) : (filled n).indexOf n = 0 := by
  unfold indexOf filled
  rw [getD_eq_getElem?_getD, getElem?_eq_none (by simp)]
  rfl

theorem filled_written (n : Nat) : (filled n).written n () =
    { filled (n + 1) with repsToIndexes := (filled n).repsToIndexes } := by
  have hnone : (filled n).slots[(filled n).next]? = none := getElem?_eq_none (by simp [filled])
  unfold written
  rw [hnone]
  unfold filled
  rw [range_succ, map_append]
  rfl

theorem filled_setIndex (n : Nat) : ((filled n).written n ()).setIndex n (n + 1) =
    filled (n + 1) := by
  have hlen : (filled n).repsToIndexes.length = n := by simp [filled]
  have hreps : ((filled n).repsToIndexes ++ List.replicate (n + 1 - n) 0).set n (n + 1) =
      (filled (n + 1)).repsToIndexes := by
    rw [set_append_right _ _ hlen.le, hlen, Nat.sub_self, Nat.add_sub_cancel_left]
    unfold filled
    dsimp only
    rw [range_succ, map_append]
    rfl
  rw [filled_written]
  unfold setIndex
  rw [hlen, hreps]

theorem trace_filled {n : Nat} (h : n < maxHandle) :
    ∃ tr, Trace (fun t op t' => Room t op ∧ Step t op t') default tr (filled n) := by
  induction n with
  | zero => exact ⟨[], .nil _⟩
  | succ n ih =>
    obtain ⟨tr, htr⟩ := ih (Nat.lt_of_succ_lt h)
    have hsound : Sound (filled n) :=
      Trace.invariant Sound.default (fun _ _ _ hs hstep => hs.step hstep.1 hstep.2) htr
    have hrun := (hsound.insert_run () (filled_indexOf n)).trans (if_neg (not_le.2 h))
    have hstep : Step (filled n) (.insert n ()) (filled (n + 1)) :=
      ⟨_, filled_setIndex n ▸ run_bind_pure hrun fun _ => (), rfl⟩
    have hroom : Room (filled n) (.insert n ()) := fun _ => h
    exact ⟨_, htr.snoc ⟨hroom, hstep⟩⟩

/-- An insertion that finds the handles used up leaves a handle whose rep has no index. -/
theorem full_table_panics : ∃ (tr : List (Op Unit)) (t : StateTable Unit),
    Trace Step default tr t ∧ t.slot? maxHandle = some (maxHandle - 1, ()) ∧
      t.indexOf (maxHandle - 1) = 0 ∧ (StateTable.removeByIndex maxHandle t).1.isPanic = true := by
  obtain ⟨n, hn⟩ : ∃ n, maxHandle = n + 1 := ⟨2 ^ 30 - 1, rfl⟩
  rw [hn, Nat.add_sub_cancel]
  obtain ⟨tr, htr⟩ := trace_filled (n := n) (by omega)
  have hsound : Sound (filled n) :=
    Trace.invariant Sound.default (fun _ _ _ hs hstep => hs.step hstep.1 hstep.2) htr
  have hrun := (hsound.insert_run () (filled_indexOf n)).trans (if_pos hn.le)
  rw [filled_written] at hrun
  have hstep : Step (filled n) (.insert n ())
      { filled (n + 1) with repsToIndexes := (filled n).repsToIndexes } :=
    ⟨_, run_bind_pure hrun fun _ => (), rfl⟩
  have hindex : indexOf { filled (n + 1) with repsToIndexes := (filled n).repsToIndexes } n = 0 :=
    filled_indexOf n
  have hslot : slot? { filled (n + 1) with repsToIndexes := (filled n).repsToIndexes } (n + 1) =
      some (n, ()) := by
    unfold slot? filled
    dsimp only
    rw [getElem?_map, getElem?_range (Nat.lt_succ_self n)]
    rfl
  refine ⟨_, _, (htr.mono fun _ _ _ h => h.2).snoc hstep, hslot, hindex, ?_⟩
  have hg := getMutByIndex_ok.2 ⟨hslot, rfl⟩
  unfold StateTable.removeByIndex
  rw [run_bind_ok hg]
  dsimp only
  rw [run_modify_bind, run_get_bind]
  have hnone : (filled n).repsToIndexes[n]? = none := getElem?_eq_none (by simp [filled])
  refine isPanic_bind ?_
  rw [hnone]
  rfl

/-- Of three handles the second one is removed, and its slot is used again for another rep. -/
theorem state_table_bijection_reused : ∃ t : StateTable Nat,
    Trace (fun t op t' => Room t op ∧ Step t op t') default
      [.insert 5 50, .insert 3 30, .insert 4 40, .removeByIndex 2, .insert 6 60] t ∧
      t.slot? 2 = some (6, 60) ∧ t.indexOf 3 = 0 ∧ Bijective t := by
  obtain ⟨t, htr, ht⟩ := Trace.exists_of_foldlM (s := (default : StateTable Nat))
    (fun t op t' => Room t op ∧ Step t op t')
    (f := fun t op => if Room t op ∧ (op.exec t).1.isPanic = false
      then some (op.exec t).2 else none)
    (fun t op t' hsome => by
      split_ifs at hsome with hop
      exact ⟨hop.1, _, Prod.ext rfl (Option.some.inj hsome), hop.2⟩)
    (fun t => decide (t.slot? 2 = some (6, 60) ∧ t.indexOf 3 = 0))
    [.insert 5 50, .insert 3 30, .insert 4 40, .removeByIndex 2, .insert 6 60] (by decide +kernel)
  obtain ⟨hslot, hindex⟩ := of_decide_eq_true ht
  exact ⟨t, htr, hslot, hindex, state_table_bijection htr⟩

end Wasmtime.Concurrent.StateTable
