import Wasmtime.Resources.Accounting

/-!
# Host handles and their generations

`HostResourceTables` of `component/resources.rs`: the handles that the host holds are pairs of a
table index and a generation, packed in 64 bits, so that a copy of a handle that was consumed is
recognised. A vector parallel to the host table (`tableSlotMetadata`) records the generation of the
last handle made for each slot; every access that removes advances `curGeneration`.

A run (`HostRun`) hands its operations only indices that an earlier operation of the run returned,
in any order and any number of times.
-/

namespace Wasmtime.Resources

open Base Prog List ResourceTable Nat

/-- A table index in the low half and a generation in the high half. -/
structure HostResourceIndex where
  raw : Nat
deriving DecidableEq

namespace HostResourceIndex

def new (idx generation : Nat) : HostResourceIndex := ⟨idx ||| (generation <<< 32)⟩

def index (h : HostResourceIndex) : Nat := h.raw &&& 0xffffffff

def generation (h : HostResourceIndex) : Nat := h.raw >>> 32

theorem index_eq_mod (h : HostResourceIndex) : h.index = h.raw % 2 ^ 32 :=
  and_two_pow_sub_one_eq_mod h.raw 32

theorem generation_eq_div (h : HostResourceIndex) : h.generation = h.raw / 2 ^ 32 :=
  shiftRight_eq_div_pow h.raw 32

theorem raw_new {idx : Nat} (h : idx < 2 ^ 32) (generation : Nat) :
    (new idx generation).raw = generation * 2 ^ 32 + idx := by
  rw [new, Nat.or_comm, ← shiftLeft_add_eq_or_of_lt h, shiftLeft_eq]

theorem index_new {idx : Nat} (h : idx < 2 ^ 32) (generation : Nat) :
    (new idx generation).index = idx := by
  rw [index_eq_mod, raw_new h]
  omega

theorem generation_new {idx : Nat} (h : idx < 2 ^ 32) (generation : Nat) :
    (new idx generation).generation = generation := by
  rw [generation_eq_div, raw_new h]
  omega

theorem ext_halves {a b : HostResourceIndex} (hi : a.index = b.index)
    (hg : a.generation = b.generation) : a = b := by
  have hraw : a.raw = b.raw := by
    rw [index_eq_mod, index_eq_mod] at hi
    rw [generation_eq_div, generation_eq_div] at hg
    omega
  cases a
  cases b
  exact congrArg mk hraw

end HostResourceIndex

structure TableSlot where
  generation : Nat
  flags : Option Nat
  dtor : Option Nat
deriving DecidableEq

structure HostResourceData where
  curGeneration : Nat
  tableSlotMetadata : List TableSlot
deriving DecidableEq

structure HostResourceTables where
  tables : ResourceTables
  hostResourceData : HostResourceData
deriving DecidableEq

namespace HostResourceTables

/-- The view of `new_host`: the host table without the tables of the guests. -/
def newHost : Parts := { guest := false, host := true }

def onTables {α : Type} (m : Prog ResourceTables Error α) : Prog HostResourceTables Error α :=
  zoom (·.tables) (fun t s => { s with tables := t }) m

def bumpGeneration (d : HostResourceData) : HostResourceData :=
  { d with curGeneration := (d.curGeneration + 1) % 2 ^ 32 }

def validateHostIndex (idx : HostResourceIndex) (isRemoval : Bool) :
    Prog HostResourceTables Error (Nat × Option TableSlot) := do
  let s ← Prog.get
  let actual := s.hostResourceData.tableSlotMetadata[idx.index]?
  if actual.any (fun slot => slot.generation != idx.generation) then
    Prog.err (.msg "host-owned resource is being used with the wrong type")
  else do
    if isRemoval then
      Prog.set { s with hostResourceData := bumpGeneration s.hostResourceData }
    pure (idx.index, actual)

/-- The metadata with the entry of a new index: the slot is overwritten, or the vector grows.
Resource handles start at 1, so the first one pushes two elements. -/
def storeMetadata (list : List TableSlot) (idx : Nat) (info : TableSlot) :
    Prog HostResourceTables Error (List TableSlot) := do
  if idx < list.length then
    pure (list.set idx info)
  else do
    let list ← if list.isEmpty then do
        assert (idx == 1) (.assert "new_host_index: idx == 1")
        pure [{ generation := 0, flags := none, dtor := none }]
      else pure list
    assert (idx == list.length) (.assert "new_host_index: idx == list.len()")
    pure (list ++ [info])

def newHostIndex (idx : Nat) (dtor flags : Option Nat) :
    Prog HostResourceTables Error HostResourceIndex := do
  let s ← Prog.get
  let info : TableSlot := { generation := s.hostResourceData.curGeneration, flags, dtor }
  let list ← storeMetadata s.hostResourceData.tableSlotMetadata idx info
  Prog.set { s with hostResourceData := { s.hostResourceData with tableSlotMetadata := list } }
  pure (.new idx info.generation)

def hostResourceLiftOwn (idx : HostResourceIndex) : Prog HostResourceTables Error Nat := do
  let (idx, _) ← validateHostIndex idx true
  onTables (ResourceTables.resourceLiftOwn newHost (.host idx))

def hostResourceLiftBorrow (idx : HostResourceIndex) : Prog HostResourceTables Error Nat := do
  let (idx, _) ← validateHostIndex idx false
  onTables (ResourceTables.resourceLiftBorrow newHost (.host idx))

def hostResourceLowerOwn (rep : Nat) (dtor flags : Option Nat) :
    Prog HostResourceTables Error HostResourceIndex := do
  let idx ← onTables (ResourceTables.resourceLowerOwn newHost (.host rep))
  newHostIndex idx dtor flags

def hostResourceLowerBorrow (rep : Nat) : Prog HostResourceTables Error HostResourceIndex := do
  let idx ← onTables (ResourceTables.resourceLowerBorrow newHost (.host rep))
  newHostIndex idx none none

def hostResourceDrop (idx : HostResourceIndex) :
    Prog HostResourceTables Error (Option (Nat × TableSlot)) := do
  let (idx, slot) ← validateHostIndex idx true
  match ← onTables (ResourceTables.resourceDrop newHost (.host idx)) with
  | some rep => do
    let slot ← unwrap slot (.unwrap "host_resource_drop: slot")
    pure (some (rep, slot))
  | none => pure none

end HostResourceTables

/-! ### Runs of the host -/

inductive HostOp where
  | lowerOwn (rep : Nat) (dtor flags : Option Nat)
  | lowerBorrow (rep : Nat)
  | liftOwn (idx : HostResourceIndex)
  | liftBorrow (idx : HostResourceIndex)
  | drop (idx : HostResourceIndex)
  | enterCall
  | exitCall

inductive HostRet where
  | index (idx : HostResourceIndex)
  | rep (rep : Nat)
  | dropped (own : Option (Nat × TableSlot))
  | unit

namespace HostOp

open HostResourceTables in
def exec : HostOp → Prog HostResourceTables Error HostRet
  | lowerOwn rep dtor flags => do pure (.index (← hostResourceLowerOwn rep dtor flags))
  | lowerBorrow rep => do pure (.index (← hostResourceLowerBorrow rep))
  | liftOwn idx => do pure (.rep (← hostResourceLiftOwn idx))
  | liftBorrow idx => do pure (.rep (← hostResourceLiftBorrow idx))
  | drop idx => do pure (.dropped (← hostResourceDrop idx))
  | enterCall => do onTables ResourceTables.enterCall; pure .unit
  | exitCall => do onTables (ResourceTables.exitCall newHost); pure .unit

def index? : HostOp → Option HostResourceIndex
  | liftOwn idx => some idx
  | liftBorrow idx => some idx
  | drop idx => some idx
  | _ => none

def removed : HostOp → Option HostResourceIndex
  | liftOwn idx => some idx
  | drop idx => some idx
  | _ => none

def lowered : HostOp → Option Nat
  | lowerOwn rep _ _ => some rep
  | lowerBorrow rep => some rep
  | _ => none

end HostOp

/-- The tables with the history of a run: the indices handed out with their reps, those
consumed, and the number of removals tried. -/
structure HostRun where
  host : HostResourceTables
  issued : List (HostResourceIndex × Nat)
  consumed : List HostResourceIndex
  removals : Nat

namespace HostRun

def start : HostRun :=
  { host := { tables := ResourceTables.init 0 []
              hostResourceData := { curGeneration := 0, tableSlotMetadata := [] } }
    issued := [], consumed := [], removals := 0 }

def record (r : HostRun) (op : HostOp) (o : Outcome Error HostRet) (host : HostResourceTables) :
    HostRun :=
  { host
    issued := match op.lowered, o with
      | some rep, .ok (.index idx) => (idx, rep) :: r.issued
      | _, _ => r.issued
    consumed := match op.removed, o with
      | some idx, .ok _ => idx :: r.consumed
      | _, _ => r.consumed
    removals := if op.removed.isSome then r.removals + 1 else r.removals }

/-- A step: an operation on an index handed out before, which returns or fails. A failed
operation ends nothing, a panic does. -/
def Step (r : HostRun) (op : HostOp) (r' : HostRun) : Prop :=
  (∀ idx, op.index? = some idx → ∃ rep, (idx, rep) ∈ r.issued) ∧
    ∃ o host, op.exec r.host = (o, host) ∧ o.isPanic = false ∧ r' = r.record op o host

end HostRun

/-! ### Tables up to lend counts -/

def Slot.unlent : Slot → Slot
  | own resource _ => own resource 0
  | slot => slot

def Slot.hostRep : Slot → Option Nat
  | own (.host rep) _ => some rep
  | borrow (.host rep) _ => some rep
  | _ => none

@[simp] theorem Slot.isFree_unlent (s : Slot) : s.unlent.isFree = s.isFree := by
  cases s <;> rfl

@[simp] theorem Slot.hostRep_unlent (s : Slot) : s.unlent.hostRep = s.hostRep := by
  cases s with
  | own r n => cases r <;> rfl
  | _ => rfl

theorem Slot.isFree_of_hostRep {s : Slot} {rep : Nat} (h : s.hostRep = some rep) :
    s.isFree = false := by
  cases s with
  | free n => cases h
  | _ => rfl

namespace ResourceTable

def unlent (t : ResourceTable) : ResourceTable := { t with slots := t.slots.map Slot.unlent }

theorem wf_unlent {t : ResourceTable} : t.unlent.Wf ↔ t.Wf := by
  have hlink : t.unlent.link = t.link := by
    funext i
    unfold link
    simp only [unlent, getElem?_map]
    cases t.slots[i]? with
    | none => rfl
    | some slot => cases slot <;> simp [Slot.unlent, toHead]
  have hhead : t.unlent.toHead t.unlent.next = t.toHead t.next := by simp [toHead, unlent]
  rw [Wf, Wf, hlink, hhead]

theorem unlent_setOwn {t : ResourceTable} {i : Nat} {r : TypedResource} {n : Nat}
    (h : t.slots[i]? = some (.own r n)) (m : Nat) :
    unlent { t with slots := t.slots.set i (.own r m) } = t.unlent := by
  have hi : (t.slots.map Slot.unlent)[i]? = some (.own r 0) := by simp [h, Slot.unlent]
  simp only [unlent, map_set, mk.injEq, true_and]
  obtain ⟨hlt, he⟩ := List.getElem?_eq_some_iff.1 hi
  rw [Slot.unlent, ← he, set_getElem_self]

theorem slot_of_unlent {t t' : ResourceTable} (h : t'.unlent = t.unlent) {i : Nat} {slot : Slot}
    (hs : t'.slots[i]? = some slot) :
    ∃ slot', t.slots[i]? = some slot' ∧ slot'.isFree = slot.isFree ∧
      slot'.hostRep = slot.hostRep := by
  have hi : (t'.unlent.slots)[i]? = some slot.unlent := by simp [unlent, hs]
  rw [h] at hi
  simp only [unlent, getElem?_map, Option.map_eq_some_iff] at hi
  obtain ⟨slot', hs', he⟩ := hi
  refine ⟨slot', hs', ?_, ?_⟩
  · rw [← Slot.isFree_unlent, he, Slot.isFree_unlent]
  · rw [← Slot.hostRep_unlent, he, Slot.hostRep_unlent]

theorem length_of_unlent {t t' : ResourceTable} (h : t'.unlent = t.unlent) :
    t'.slots.length = t.slots.length := by
  have := congrArg (fun t => t.slots.length) h
  simpa [unlent] using this

end ResourceTable

/-! ### What the operations do to the host table -/

namespace ResourceTables

open HostResourceTables

/-- The host table after a lowering, and its result: the handle, or that handles ran out. -/
def Lowered (t : ResourceTable) (rep : Nat) (o : Outcome Error Nat) (t' : ResourceTable) : Prop :=
  ∃ new, new.hostRep = some rep ∧ ResourceTable.Inserted t new t' ∧
    o = if t.next + 1 ≥ maxResourceHandle then
        .err (.msg "cannot allocate another handle: index overflow")
      else .ok (t.next + 1)

def NoAssert {ε α : Type} (o : Outcome ε α) : Prop := ∀ site, o ≠ .panic (.assert site)

variable {s s' : ResourceTables} {o : Outcome Error Nat}

theorem insert_host {new : Slot} {rep : Nat} (hw : s.hostTable.Wf) (hrep : new.hostRep = some rep)
    (h : onTable .host (ResourceTable.insert new) s = (o, s')) :
    NoAssert o ∧ (o.isPanic = false → Lowered s.hostTable rep o s'.hostTable) := by
  rcases insert_spec new hw with ⟨t', hi, he⟩ | ⟨he, _⟩
  · rw [onTable_run (k := .host) he] at h
    obtain ⟨rfl, rfl⟩ := Prod.mk.inj h
    refine ⟨fun site => ?_, fun _ => ⟨new, hrep, hi, rfl⟩⟩
    split <;> simp
  · rw [onTable_run (k := .host) he] at h
    obtain ⟨rfl, rfl⟩ := Prod.mk.inj h
    exact ⟨fun site => by simp, fun hp => by cases hp⟩

theorem lowerOwn_host {rep : Nat} (hw : s.hostTable.Wf)
    (h : resourceLowerOwn newHost (.host rep) s = (o, s')) :
    NoAssert o ∧ (o.isPanic = false → Lowered s.hostTable rep o s'.hostTable) :=
  insert_host hw rfl h

theorem lowerBorrow_host {rep : Nat} (hw : s.hostTable.Wf)
    (h : resourceLowerBorrow newHost (.host rep) s = (o, s')) :
    NoAssert o ∧ (o.isPanic = false → Lowered s.hostTable rep o s'.hostTable) := by
  unfold resourceLowerBorrow at h
  rw [run_bind_ok (run_get s)] at h
  split at h
  · cases h
    exact ⟨fun site => by simp, fun hp => by cases hp⟩
  · cases hg : s.calls.scopes.getLast? with
    | none =>
      simp only [lastScope, run_bind, run_get, hg, unwrap, run_panic] at h
      cases h
      exact ⟨fun site => by simp, fun hp => by cases hp⟩
    | some cx =>
      simp only [lastScope, run_bind, run_get, hg, unwrap, run_pure] at h
      cases hn : checkedAdd cx.borrowCount 1 with
      | none =>
        simp only [hn, run_panic] at h
        cases h
        exact ⟨fun site => by simp, fun hp => by cases hp⟩
      | some n =>
        simp only [hn, run_pure, setLastScope, run_modify, tableForResource] at h
        exact insert_host (s := { s with calls := s.calls.setLast { cx with borrowCount := n } })
          hw rfl h

def InUse (t : ResourceTable) (i : Nat) (slot : Slot) : Prop :=
  t.slotAt (.host i) = some slot ∧ slot.isFree = false

variable {i : Nat}

/-- A removal through one index: nothing is found, or the slot is freed and then `k` looks at
what was in it. -/
theorem remove_host {α : Type} {o : Outcome Error α} {k : Slot → Prog ResourceTables Error α}
    (h : (onTable .host (ResourceTable.remove (.host i)) >>= k) s = (o, s')) :
    (s' = s ∧ o.isErr = true ∧ ∀ slot, ¬ InUse s.hostTable i slot) ∨
      ∃ slot, InUse s.hostTable i slot ∧
        k slot { s with hostTable := s.hostTable.removed (i - 1) } = (o, s') := by
  rcases remove_cases s.hostTable (.host i) with ⟨slot, hr, hs, hf⟩ | hr
  · rw [run_bind_ok (onTable_run (k := .host) hr)] at h
    exact .inr ⟨slot, ⟨hs, hf⟩, h⟩
  · rw [run_bind_err (onTable_run (k := .host) hr)] at h
    cases h
    refine .inl ⟨rfl, rfl, fun slot hu => ?_⟩
    have := remove_ok.2 ⟨hu.1, hu.2, rfl⟩
    rw [hr] at this
    cases this

/-- A slot that a removal gives up: an `Own` that is not lent, or, for `resource_drop`, a
`Borrow`. -/
def slotRemovable (drop : Bool) : Slot → Bool
  | .own _ lendCount => lendCount == 0
  | .borrow _ _ => drop
  | .free _ => false

theorem liftOwn_host (h : resourceLiftOwn newHost (.host i) s = (o, s')) :
    (s' = s ∧ o.isErr = true ∧ ∀ slot, ¬ InUse s.hostTable i slot) ∨
      ∃ slot, InUse s.hostTable i slot ∧ s'.hostTable = s.hostTable.removed (i - 1) ∧
        (slotRemovable false slot = true → ∀ rep, slot.hostRep = some rep → o = .ok rep) := by
  rcases remove_host h with hmiss | ⟨slot, hu, hk⟩
  · exact .inl hmiss
  · refine .inr ⟨slot, hu, ?_⟩
    cases slot with
    | free n => exact absurd hu.2 (by simp [Slot.isFree])
    | borrow r scope => cases hk; exact ⟨rfl, fun hr => by cases hr⟩
    | own r n =>
      cases n with
      | succ n => cases hk; exact ⟨rfl, fun hr => by cases hr⟩
      | zero =>
        cases r with
        | host rep =>
          cases hk
          exact ⟨rfl, fun _ rep' hrep => by cases hrep; rfl⟩
        | component rep ty =>
          cases hk
          exact ⟨rfl, fun _ rep' hrep => by cases hrep⟩

theorem decrementBorrow_hostTable {scope : Nat} {o : Outcome Error Unit}
    (h : decrementBorrow scope s = (o, s')) : s'.hostTable = s.hostTable ∧ o.isErr = false := by
  unfold decrementBorrow at h
  rw [run_bind_ok (run_get s)] at h
  cases hc : s.calls.scopes[scope]? with
  | none =>
    simp only [hc, unwrap, run_bind, run_panic] at h
    cases h
    exact ⟨rfl, rfl⟩
  | some cx =>
    simp only [hc, unwrap, run_bind, run_pure] at h
    split at h <;> cases h <;> exact ⟨rfl, rfl⟩

theorem drop_host {o : Outcome Error (Option Nat)}
    (h : resourceDrop newHost (.host i) s = (o, s')) :
    (s' = s ∧ o.isErr = true ∧ ∀ slot, ¬ InUse s.hostTable i slot) ∨
      ∃ slot, InUse s.hostTable i slot ∧ s'.hostTable = s.hostTable.removed (i - 1) ∧
        (slotRemovable true slot = true → ∀ rep, slot.hostRep = some rep →
          o.isPanic = true ∨ o = .ok none ∨ o = .ok (some rep)) := by
  rcases remove_host h with hmiss | ⟨slot, hu, hk⟩
  · exact .inl hmiss
  · refine .inr ⟨slot, hu, ?_⟩
    cases slot with
    | free n => exact absurd hu.2 (by simp [Slot.isFree])
    | borrow r scope =>
      cases r with
      | host rep =>
        rcases hd : decrementBorrow scope { s with hostTable := s.hostTable.removed (i - 1) }
          with ⟨o', s''⟩
        obtain ⟨ht, he⟩ := decrementBorrow_hostTable hd
        simp only [TypedResource.rep, ofExcept, run_bind, run_pure, hd] at hk
        cases o' with
        | ok u => cases hk; exact ⟨ht, fun _ _ _ => .inr (.inl rfl)⟩
        | err e => cases he
        | panic p => cases hk; exact ⟨ht, fun _ _ _ => .inl rfl⟩
      | component rep ty => cases hk; exact ⟨rfl, fun _ rep' hrep => by cases hrep⟩
    | own r n =>
      cases n with
      | succ n => cases hk; exact ⟨rfl, fun hr => by cases hr⟩
      | zero =>
        cases r with
        | host rep =>
          cases hk
          exact ⟨rfl, fun _ rep' hrep => by cases hrep; exact .inr (.inr rfl)⟩
        | component rep ty =>
          cases hk
          exact ⟨rfl, fun _ rep' hrep => by cases hrep⟩

theorem getMut_host {s : ResourceTables} :
    (onTable .host (ResourceTable.getMut (.host i)) s = (.err (.unknownHandleIndex (.host i)), s) ∧
      ∀ slot, ¬ InUse s.hostTable i slot) ∨
      ∃ slot, InUse s.hostTable i slot ∧
        onTable .host (ResourceTable.getMut (.host i)) s = (.ok slot, s) := by
  rcases getMut_cases s.hostTable (.host i) with ⟨slot, hg⟩ | hg
  · obtain ⟨hs, hf, _⟩ := getMut_ok.1 hg
    exact .inr ⟨slot, ⟨hs, hf⟩, onTable_run (k := .host) hg⟩
  · refine .inl ⟨onTable_run (k := .host) hg, fun slot hu => ?_⟩
    have := getMut_ok.2 ⟨hu.1, hu.2, rfl⟩
    rw [hg] at this
    cases this

theorem liftBorrow_host (h : resourceLiftBorrow newHost (.host i) s = (o, s')) :
    s'.hostTable.unlent = s.hostTable.unlent ∧
      ((∀ slot, ¬ InUse s.hostTable i slot) → o.isErr = true) ∧
      (∀ slot rep, InUse s.hostTable i slot → slot.hostRep = some rep → o = .ok rep ∨
        o.isPanic = true ∧ (s.calls.scopes = [] ∨ ∃ r n, slot = .own r n ∧ 2 ^ 32 ≤ n + 1)) := by
  change (onTable .host (ResourceTable.getMut (.host i)) >>= _) s = _ at h
  rcases getMut_host (s := s) (i := i) with ⟨hg, hnot⟩ | ⟨slot, hu, hg⟩
  · rw [run_bind_err hg] at h
    cases h
    exact ⟨rfl, fun _ => rfl, fun slot _ hu => absurd hu (hnot slot)⟩
  · rw [run_bind_ok hg] at h
    have huniq : ∀ slot', InUse s.hostTable i slot' → slot' = slot :=
      fun slot' hu' => Option.some.inj (hu'.1.symm.trans hu.1)
    suffices hmain : s'.hostTable.unlent = s.hostTable.unlent ∧
        ∀ rep, slot.hostRep = some rep → o = .ok rep ∨
          o.isPanic = true ∧ (s.calls.scopes = [] ∨ ∃ r n, slot = .own r n ∧ 2 ^ 32 ≤ n + 1) by
      refine ⟨hmain.1, fun hnot => absurd hu (hnot slot), fun slot' rep hu' hrep => ?_⟩
      obtain rfl := huniq slot' hu'
      exact hmain.2 rep hrep
    cases slot with
    | free n => exact absurd hu.2 (by simp [Slot.isFree])
    | borrow r scope =>
      cases r with
      | host rep => cases h; exact ⟨rfl, fun _ hrep => by cases hrep; exact .inl rfl⟩
      | component rep ty => cases h; exact ⟨rfl, fun _ hrep => by cases hrep⟩
    | own r n =>
      cases r with
      | component rep ty => cases h; exact ⟨rfl, fun _ hrep => by cases hrep⟩
      | host rep =>
        simp only [TypedResource.rep, ofExcept, run_bind, run_pure, checkedAdd] at h
        by_cases hn : n + 1 < 2 ^ 32
        · simp only [if_pos hn, unwrap, run_pure] at h
          have hset := unlent_setOwn (slotAt_eq_some.1 hu.1).2 (n + 1)
          cases hc : s.calls.scopes.getLast? with
          | none =>
            simp only [onTable, zoom, ResourceTable.setSlot, run_modify, lastScope,
              run_bind, run_get, calls_setTable, hc, unwrap, run_panic] at h
            cases h
            exact ⟨hset, fun _ _ => .inr ⟨rfl, .inl (getLast?_eq_none_iff.1 hc)⟩⟩
          | some cx =>
            simp only [onTable, zoom, ResourceTable.setSlot, run_modify, lastScope,
              run_bind, run_get, calls_setTable, hc, unwrap, run_pure,
              setLastScope] at h
            cases h
            exact ⟨hset, fun _ hrep => by cases hrep; exact .inl rfl⟩
        · simp only [if_neg hn, unwrap, run_panic] at h
          cases h
          exact ⟨rfl, fun _ _ => .inr ⟨rfl, .inr ⟨_, n, rfl, by omega⟩⟩⟩

theorem hostTable_setTable {s : ResourceTables} {k : TableKey} {t : ResourceTable}
    (h : t.unlent = (s.table k).unlent) :
    (s.setTable k t).hostTable.unlent = s.hostTable.unlent := by
  cases k with
  | host => exact h
  | guest i => rfl

theorem returnLends_unlent (p : Parts) (ls : List TypedResourceIndex) {o : Outcome Error Unit}
    (h : returnLends p ls s = (o, s')) : s'.hostTable.unlent = s.hostTable.unlent := by
  induction ls generalizing s with
  | nil => cases h; rfl
  | cons l ls ih =>
    unfold returnLends tableForIndex at h
    rcases tableFor_cases p l.ty s with ⟨k, he, hl⟩ | ⟨q, he, _⟩ | ⟨he, _⟩
    · rw [run_bind_ok he] at h
      rcases getMut_cases (s.table k) l with ⟨slot, hg⟩ | hg
      · obtain ⟨hs, hf, _⟩ := getMut_ok.1 hg
        have hon := onTable_run hg
        rw [setTable_table (locate_valid hl)] at hon
        rw [run_bind_ok (expect_ok.2 hon)] at h
        cases slot with
        | free n | borrow r scope => cases h; rfl
        | own r n =>
          cases n with
          | zero => cases h; rfl
          | succ n =>
            have hset := unlent_setOwn (slotAt_eq_some.1 hs).2 n
            rw [← hostTable_setTable hset]
            exact ih h
      · have hon := onTable_run hg
        rw [setTable_table (locate_valid hl)] at hon
        rw [run_bind_panic (p := .unwrap "exit_call: get_mut") (by unfold expect; rw [hon])] at h
        cases h
        rfl
    · rw [run_bind_panic he] at h; cases h; rfl
    · rw [run_bind_panic he] at h; cases h; rfl

theorem exitCall_unlent {p : Parts} {o : Outcome Error Unit} (h : exitCall p s = (o, s')) :
    s'.hostTable.unlent = s.hostTable.unlent := by
  unfold exitCall at h
  rw [run_bind_ok (run_get s)] at h
  cases hp : s.calls.pop with
  | none => simp only [hp] at h; cases h; rfl
  | some r =>
    obtain ⟨cx, calls⟩ := r
    simp only [hp] at h
    rw [run_bind_ok (run_set _ _)] at h
    split at h
    · cases h; rfl
    · have hloop := returnLends_unlent p _ h
      exact hloop

end ResourceTables

end Wasmtime.Resources
