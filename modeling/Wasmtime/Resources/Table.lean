import Wasmtime.Base.Prog
import Wasmtime.Base.FreeList
import Wasmtime.Base.Counting

/-!
# The slab of resources

`ResourceTable` of `vm/component/resources.rs`: a vector of slots, each free, an owned resource or a
borrow, with the free slots threaded through `next`. Handle `i + 1` names slot `i`.

* `insert`, `getMut`, `remove`, `rep`: the operations. `remove` frees the slot before its caller
  looks at what was in it.
* `ResourceTable.Wf`: the free list runs through free slots and ends at the length of the vector.
* `insert_spec`, `remove_spec`, `set_wf`: what each operation does to the slots.
-/

namespace Wasmtime.Resources

open Base Prog List

def maxResourceHandle : Nat := 2 ^ 30

def checkedAdd (a b : Nat) : Option Nat := if a + b < 2 ^ 32 then some (a + b) else none

theorem checkedAdd_some {a b c : Nat} (h : checkedAdd a b = some c) : c = a + b := by
  unfold checkedAdd at h
  split at h
  · exact (Option.some.inj h).symm
  · cases h

/-- A "rep" of a resource, with what defines it. -/
inductive TypedResource where
  | host (rep : Nat)
  | component (rep : Nat) (ty : Nat)
deriving DecidableEq

/-- An index used to access a resource, with its type. -/
inductive TypedResourceIndex where
  | host (index : Nat)
  | component (index : Nat) (ty : Nat)
deriving DecidableEq

def TypedResourceIndex.rawIndex : TypedResourceIndex → Nat
  | host index => index
  | component index _ => index

inductive Error where
  | unknownHandleIndex (idx : TypedResourceIndex)
  | resourceTypeMismatch (expected : TypedResourceIndex) (found : String)
  | msg (text : String)
deriving DecidableEq

def TypedResource.rep (r : TypedResource) (accessTy : TypedResourceIndex) : Except Error Nat :=
  match r, accessTy with
  | host rep, .host _ => .ok rep
  | host _, expected => .error (.resourceTypeMismatch expected "host resource")
  | component rep ty, .component index expected =>
    if ty = expected then .ok rep
    else .error (.resourceTypeMismatch (.component index expected)
      "a different guest-defined resource")
  | component .., expected => .error (.resourceTypeMismatch expected "guest-defined resource")

inductive Slot where
  | free (next : Nat)
  | own (resource : TypedResource) (lendCount : Nat)
  | borrow (resource : TypedResource) (scope : Nat)
deriving DecidableEq

def Slot.isFree : Slot → Bool
  | free _ => true
  | _ => false

structure ResourceTable where
  next : Nat
  slots : List Slot
deriving DecidableEq

instance : Inhabited ResourceTable := ⟨⟨0, []⟩⟩

def ofExcept {σ α : Type} : Except Error α → Prog σ Error α
  | .ok a => pure a
  | .error e => err e

@[simp] theorem ofExcept_ok {σ α : Type} {x : Except Error α} {s s' : σ} {a : α} :
    ofExcept x s = (.ok a, s') ↔ x = .ok a ∧ s' = s := by
  cases x
  · simp [ofExcept]
  · simp [ofExcept, eq_comm]

namespace ResourceTable

def insert (new : Slot) : Prog ResourceTable Error Nat := do
  let t ← Prog.get
  if t.next = t.slots.length then
    let n ← unwrap (checkedAdd t.next 1) (.unwrap "ResourceTable::insert")
    Prog.set { t with slots := t.slots ++ [.free n] }
  let t ← Prog.get
  match t.slots[t.next]? with
  | none => Prog.panic (.bounds "ResourceTable::insert")
  | some (.free next) => do
    Prog.set { next, slots := t.slots.set t.next new }
    if t.next + 1 ≥ maxResourceHandle then
      err (.msg "cannot allocate another handle: index overflow")
    else
      pure (t.next + 1)
  | some _ => Prog.panic (.unreachable "ResourceTable::insert")

def handleIndexToTableIndex (idx : Nat) : Option Nat := if idx = 0 then none else some (idx - 1)

def slotAt (t : ResourceTable) (idx : TypedResourceIndex) : Option Slot :=
  (handleIndexToTableIndex idx.rawIndex).bind (fun i => t.slots[i]?)

def rep (t : ResourceTable) (idx : TypedResourceIndex) : Except Error Nat :=
  match t.slotAt idx with
  | none => .error (.unknownHandleIndex idx)
  | some (.free _) => .error (.unknownHandleIndex idx)
  | some (.own resource _) => resource.rep idx
  | some (.borrow resource _) => resource.rep idx

def getMut (idx : TypedResourceIndex) : Prog ResourceTable Error Slot := do
  let t ← Prog.get
  match t.slotAt idx with
  | none => err (.unknownHandleIndex idx)
  | some (.free _) => err (.unknownHandleIndex idx)
  | some other => pure other

def setSlot (idx : TypedResourceIndex) (slot : Slot) : Prog ResourceTable Error Unit :=
  Prog.modify (fun t => { t with slots := t.slots.set (idx.rawIndex - 1) slot })

def remove (idx : TypedResourceIndex) : Prog ResourceTable Error Slot := do
  let t ← Prog.get
  let ret ← getMut idx
  setSlot idx (.free t.next)
  Prog.modify (fun t => { t with next := idx.rawIndex - 1 })
  pure ret

/-! ### Slots in use -/

variable {t : ResourceTable} {idx : TypedResourceIndex} {slot : Slot}

theorem slotAt_eq_some :
    t.slotAt idx = some slot ↔ idx.rawIndex ≠ 0 ∧ t.slots[idx.rawIndex - 1]? = some slot := by
  unfold slotAt handleIndexToTableIndex
  by_cases h : idx.rawIndex = 0 <;> simp [h]

variable {t t' : ResourceTable}

theorem getMut_ok :
    getMut idx t = (.ok slot, t') ↔ t.slotAt idx = some slot ∧ slot.isFree = false ∧ t' = t := by
  unfold getMut
  rw [run_bind_ok (run_get t)]
  cases h : t.slotAt idx with
  | none => simp
  | some slot' =>
    cases slot' with
    | free n => simp; rintro rfl; simp [Slot.isFree]
    | own r n | borrow r n =>
      simp only [run_pure, Prod.mk.injEq, Outcome.ok.injEq, Option.some.injEq]
      exact ⟨fun h => ⟨h.1, h.1 ▸ rfl, h.2.symm⟩, fun h => ⟨h.1, h.2.2.symm⟩⟩

theorem getMut_cases (t : ResourceTable) (idx : TypedResourceIndex) :
    (∃ slot, getMut idx t = (.ok slot, t)) ∨
      getMut idx t = (.err (.unknownHandleIndex idx), t) := by
  unfold getMut
  rw [run_bind_ok (run_get t)]
  cases t.slotAt idx with
  | none => exact .inr rfl
  | some slot =>
    cases slot with
    | free n => exact .inr rfl
    | own r n | borrow r n => exact .inl ⟨_, rfl⟩

def removed (t : ResourceTable) (i : Nat) : ResourceTable :=
  { next := i, slots := t.slots.set i (.free t.next) }

theorem remove_ok : remove idx t = (.ok slot, t') ↔
      t.slotAt idx = some slot ∧ slot.isFree = false ∧ t' = t.removed (idx.rawIndex - 1) := by
  unfold remove
  rw [run_bind_ok (run_get t), bind_ok]
  constructor
  · rintro ⟨slot', s, hg, hr⟩
    obtain ⟨h1, h2, rfl⟩ := getMut_ok.1 hg
    obtain ⟨_, _, ⟨_, rfl⟩, _, _, ⟨_, rfl⟩, rfl, rfl⟩ := hr
    exact ⟨h1, h2, rfl⟩
  · rintro ⟨h1, h2, rfl⟩
    exact ⟨slot, t, getMut_ok.2 ⟨h1, h2, rfl⟩, rfl⟩

theorem remove_cases (t : ResourceTable) (idx : TypedResourceIndex) :
    (∃ slot, remove idx t = (.ok slot, t.removed (idx.rawIndex - 1)) ∧
      t.slotAt idx = some slot ∧ slot.isFree = false) ∨
      remove idx t = (.err (.unknownHandleIndex idx), t) := by
  rcases getMut_cases t idx with ⟨slot, h⟩ | h
  · obtain ⟨h1, h2, _⟩ := getMut_ok.1 h
    exact .inl ⟨slot, remove_ok.2 ⟨h1, h2, rfl⟩, h1, h2⟩
  · right
    unfold remove
    rw [run_bind_ok (run_get t), run_bind_err h]

/-! ### The free list -/

def toHead (t : ResourceTable) (n : Nat) : Option Nat :=
  if n = t.slots.length then none else some n

def link (t : ResourceTable) (i : Nat) : Option (Option Nat) :=
  match t.slots[i]? with
  | some (.free n) => some (t.toHead n)
  | _ => none

/-- The free slots form a list from `next` that ends at the length. -/
def Wf (t : ResourceTable) : Prop := FreeList t.link (t.toHead t.next)

theorem wf_default : Wf default := FreeList.nil

theorem Wf.next_cases (h : t.Wf) :
    t.next = t.slots.length ∨ ∃ n, t.slots[t.next]? = some (.free n) := by
  by_cases hn : t.next = t.slots.length
  · exact .inl hn
  · right
    have hf : FreeList t.link (some t.next) := by
      have := h
      rwa [Wf, toHead, if_neg hn] at this
    obtain ⟨next, hl⟩ := hf.head_free
    unfold link at hl
    split at hl
    · exact ⟨_, ‹_›⟩
    · cases hl

theorem Wf.next_le (h : t.Wf) : t.next ≤ t.slots.length := by
  rcases h.next_cases with h | ⟨n, h⟩
  · exact h.le
  · exact (List.getElem?_eq_some_iff.1 h).1.le

structure Inserted (t : ResourceTable) (new : Slot) (t' : ResourceTable) : Prop where
  wf : t'.Wf
  at_next : t'.slots[t.next]? = some new
  frame : ∀ j, j ≠ t.next → t'.slots[j]? = t.slots[j]?
  fresh : ∀ slot, t.slots[t.next]? = some slot → slot.isFree = true
  length : t'.slots.length = max t.slots.length (t.next + 1)
  count : ∀ p : Slot → Bool, (∀ n, p (.free n) = false) →
    t'.slots.countP p = t.slots.countP p + (if p new then 1 else 0)

theorem inserted_push {new : Slot} (h : t.next = t.slots.length) :
    Inserted t new { next := t.next + 1, slots := t.slots ++ [new] } where
  wf := by
    have : toHead { next := t.next + 1, slots := t.slots ++ [new] } (t.next + 1) = none := by
      simp [toHead, h]
    rw [Wf, this]
    exact FreeList.nil
  at_next := by simp [h]
  frame j hj := by
    rw [h] at hj
    rcases Nat.lt_or_gt_of_ne hj with hlt | hgt
    · exact getElem?_append_left hlt
    · rw [getElem?_eq_none (by simp; omega), getElem?_eq_none (by omega)]
  fresh slot hs := by rw [h, getElem?_eq_none le_rfl] at hs; cases hs
  length := by simp [h]
  count p hp := by simp [countP_append, countP_cons]

theorem inserted_reuse {new : Slot} {n : Nat} (hw : t.Wf) (h : t.slots[t.next]? = some (.free n)) :
    Inserted t new { next := n, slots := t.slots.set t.next new } where
  wf := by
    have hlt := (List.getElem?_eq_some_iff.1 h).1
    have hf : FreeList t.link (some t.next) := by
      have := hw
      rwa [Wf, toHead, if_neg hlt.ne] at this
    have hl : t.link t.next = some (t.toHead n) := by simp [link, h]
    have he : ∀ m, toHead { next := n, slots := t.slots.set t.next new } m = t.toHead m := by
      intro m; simp [toHead]
    rw [Wf, he]
    refine hf.pop hl (fun j hj => ?_)
    simp only [link, getElem?_set_ne hj.symm, he]
  at_next := getElem?_set_self (List.getElem?_eq_some_iff.1 h).1
  frame j hj := getElem?_set_ne hj.symm
  fresh slot hs := by rw [h] at hs; cases hs; rfl
  length := by
    have := (List.getElem?_eq_some_iff.1 h).1
    simp only [length_set]
    omega
  count p hp := by
    have := countP_set_add p t.slots t.next new _ h
    simpa [hp] using this

/-- **What `insert` does**: it writes the slot at `next`, and reports the handle or
that handles have run out; or it panics because the vector has `2 ^ 32 - 1` slots. -/
theorem insert_spec (new : Slot) (hw : t.Wf) : (∃ t', Inserted t new t' ∧ insert new t =
      (if t.next + 1 ≥ maxResourceHandle then
        .err (.msg "cannot allocate another handle: index overflow")
      else .ok (t.next + 1), t')) ∨
      (insert new t = (.panic (.unwrap "ResourceTable::insert"), t) ∧
        2 ^ 32 ≤ t.slots.length + 1) := by
  unfold insert
  rw [run_bind_ok (run_get t)]
  by_cases hn : t.next = t.slots.length
  · rw [if_pos hn]
    by_cases hc : t.next + 1 < 2 ^ 32
    · left
      refine ⟨_, inserted_push hn, ?_⟩
      have hget : (t.slots ++ [Slot.free (t.next + 1)])[t.next]? = some (.free (t.next + 1)) := by
        simp [hn]
      simp only [checkedAdd, if_pos hc, unwrap, run_bind, run_pure, run_set, run_get, hget]
      have hset : (t.slots ++ [Slot.free (t.next + 1)]).set t.next new = t.slots ++ [new] := by
        rw [hn, set_append_right _ _ le_rfl]; simp
      rw [hset]
      split <;> rfl
    · right
      simp only [checkedAdd, if_neg hc, unwrap, run_bind, run_panic]
      exact ⟨trivial, by omega⟩
  · left
    rw [if_neg hn]
    rcases hw.next_cases with h | ⟨n, h⟩
    · exact absurd h hn
    · refine ⟨_, inserted_reuse hw h, ?_⟩
      simp only [run_bind, run_get, h, run_set]
      split <;> rfl

theorem insert_ok {new : Slot} {idx : Nat} (hw : t.Wf) (h : insert new t = (.ok idx, t')) :
    idx = t.next + 1 ∧ t.next + 1 < maxResourceHandle ∧ Inserted t new t' := by
  rcases insert_spec new hw with ⟨t'', hi, he⟩ | ⟨he, _⟩
  · rw [he] at h
    split at h
    · cases h
    · cases h
      exact ⟨rfl, by omega, hi⟩
  · rw [he] at h
    cases h

theorem removed_wf (hw : t.Wf) {i : Nat} (h : t.slots[i]? = some slot) (hs : slot.isFree = false) :
    (t.removed i).Wf := by
  have hlt := (List.getElem?_eq_some_iff.1 h).1
  have he : ∀ m, toHead (t.removed i) m = t.toHead m := by
    intro m; simp [toHead, removed]
  have hi : t.link i = none := by
    cases slot with
    | free n => simp [Slot.isFree] at hs
    | own r n | borrow r n => simp [link, h]
  have hhead : toHead (t.removed i) (t.removed i).next = some i := by
    rw [he]; simp [toHead, removed, hlt.ne]
  rw [Wf, hhead]
  refine FreeList.push hw hi ?_ (fun j hj => ?_)
  · simp only [link, removed, getElem?_set_self hlt, Option.some.injEq]
    exact he t.next
  · simp only [link, he]
    rw [removed, getElem?_set_ne hj.symm]

theorem set_wf (hw : t.Wf) {i : Nat} {slot new : Slot} (h : t.slots[i]? = some slot)
    (hs : slot.isFree = false) : Wf { t with slots := t.slots.set i new } := by
  have he : ∀ m, toHead { t with slots := t.slots.set i new } m = t.toHead m := by
    intro m; simp [toHead]
  rw [Wf, he]
  refine FreeList.congr hw (fun j hj => ?_)
  have hji : j ≠ i := by
    rintro rfl
    apply hj
    cases slot with
    | free n => simp [Slot.isFree] at hs
    | own r n | borrow r n => simp [link, h]
  simp only [link, getElem?_set_ne hji.symm, he]

end ResourceTable

end Wasmtime.Resources
