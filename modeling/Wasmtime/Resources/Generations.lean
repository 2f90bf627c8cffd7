import Wasmtime.Resources.Host

/-!
# Copies of a consumed host handle

What one operation of `HostResourceTables` does to the host table and to the generations is said
once (`Effect`, `exec_effect`).

* `Inv`: a free slot has an older generation than the next handle will get, so a slot that is used
  again never gives out an index twice.
* `Live`: an index that was not consumed names a slot in use with its rep, as long as removals that
  fail do not free a slot.
* `consumed_err`, `host_handles`: what becomes of consumed indices and of the others in a run.
-/

namespace Wasmtime.Resources

open Base Prog ResourceTables HostResourceTables List ResourceTable HostResourceIndex Nat

/-! ### The metadata of the slots -/

/-- The metadata has an entry for each slot that can have a handle, and one for handle `0`. -/
def MetadataLen (md : List TableSlot) (slots : Nat) : Prop :=
  md.length = if slots = 0 then 0 else min slots (maxResourceHandle - 1) + 1

structure Stored (md : List TableSlot) (idx : Nat) (info : TableSlot) (md' : List TableSlot) :
    Prop where
  at_idx : md'[idx]? = some info
  frame : ∀ j, 1 ≤ j → j ≠ idx → md'[j]? = md[j]?

theorem storeMetadata_ok {md : List TableSlot} {slots idx : Nat} (info : TableSlot)
    (hlen : MetadataLen md slots) (h1 : 1 ≤ idx) (hle : idx ≤ slots + 1)
    (hmax : idx < maxResourceHandle) (s : HostResourceTables) :
    ∃ md', storeMetadata md idx info s = (.ok md', s) ∧ Stored md idx info md' ∧
      MetadataLen md' (max slots idx) := by
  unfold MetadataLen maxResourceHandle at *
  by_cases hlt : idx < md.length
  · refine ⟨md.set idx info, ?_, ⟨getElem?_set_self hlt, fun j _ hj =>
      getElem?_set_ne hj.symm⟩, ?_⟩
    · simp [storeMetadata, hlt]
    · rw [length_set]
      split at hlen
      · omega
      · rw [if_neg (by omega)]; omega
  · by_cases hs : slots = 0
    · have hnil : md = [] := by
        rw [if_pos hs] at hlen
        exact eq_nil_of_length_eq_zero hlen
      have hidx : idx = 1 := by omega
      subst hnil hidx hs
      refine ⟨[⟨0, none, none⟩, info], rfl, ⟨rfl, fun j hj hne => ?_⟩, rfl⟩
      rw [getElem?_eq_none (by simp; omega), getElem?_eq_none (by simp)]
    · rw [if_neg hs] at hlen
      have hidx : idx = md.length := by omega
      have hne : md.isEmpty = false := by
        rw [isEmpty_eq_false_iff, ← length_pos_iff]; omega
      refine ⟨md ++ [info], ?_, ⟨?_, fun j _ hj => ?_⟩, ?_⟩
      · simp [storeMetadata, hne, hidx, assert, run_bind]
      · rw [hidx]; simp
      · rcases Nat.lt_or_gt_of_ne hj with hjl | hjg
        · exact getElem?_append_left (by omega)
        · rw [getElem?_eq_none (by simp; omega), getElem?_eq_none (by omega)]
      · rw [if_neg (by omega), length_append, length_singleton]
        omega

/-- The generation of an index differs from the one its slot has now. -/
def stale (d : HostResourceData) (idx : HostResourceIndex) : Bool :=
  d.tableSlotMetadata[idx.index]?.any (fun slot => slot.generation != idx.generation)

variable {idx : HostResourceIndex}

variable {s : HostResourceTables}

theorem validate_stale (h : stale s.hostResourceData idx = true) (b : Bool) :
    validateHostIndex idx b s =
      (.err (.msg "host-owned resource is being used with the wrong type"), s) := by
  unfold validateHostIndex
  rw [run_bind_ok (run_get s)]
  exact congrFun (if_pos h) s

theorem validate_ok (h : stale s.hostResourceData idx = false) (b : Bool) :
    validateHostIndex idx b s = (.ok (idx.index, s.hostResourceData.tableSlotMetadata[idx.index]?),
        if b then { s with hostResourceData := bumpGeneration s.hostResourceData } else s) := by
  have hnot : ¬ s.hostResourceData.tableSlotMetadata[idx.index]?.any
      (fun slot => slot.generation != idx.generation) = true := by
    unfold stale at h; simp [h]
  unfold validateHostIndex
  rw [run_bind_ok (run_get s)]
  simp only [if_neg hnot]
  cases b <;> rfl

/-! ### What one operation does -/

def HostOp.isDrop : HostOp → Bool
  | drop _ => true
  | _ => false

theorem HostOp.index?_of_removed (op : HostOp) (h : op.removed = some idx) :
    op.index? = some idx := by
  cases op <;> first | exact h | cases h

/-- **The effect of an operation** on the host table and on the generations. -/
inductive Effect (t : ResourceTable) (d : HostResourceData) (op : HostOp) :
    Outcome Error HostRet → ResourceTable → HostResourceData → Prop
  | keep {o t'} (hl : op.lowered = none) (hr : op.removed = none ∨ o.isErr = true)
      (ht : t'.unlent = t.unlent) : Effect t d op o t' d
  /-- A slot is filled but its handle is out of range. -/
  | full {o t' new} (ho : o.isErr = true) (hr : op.removed = none) (hrep : new.hostRep.isSome)
      (hi : ResourceTable.Inserted t new t') (hmax : maxResourceHandle ≤ t.next + 1) :
      Effect t d op o t' d
  | lower {t' new rep info md'} (hl : op.lowered = some rep) (hr : op.removed = none)
      (hrep : new.hostRep = some rep) (hi : ResourceTable.Inserted t new t')
      (hmax : t.next + 1 < maxResourceHandle) (hinfo : info.generation = d.curGeneration)
      (hst : Stored d.tableSlotMetadata (t.next + 1) info md')
      (hlen : MetadataLen md' t'.slots.length) :
      Effect t d op (.ok (.index (.new (t.next + 1) d.curGeneration))) t'
        { d with tableSlotMetadata := md' }
  /-- A removal finds no slot in use. -/
  | miss {o idx} (hl : op.lowered = none) (hr : op.removed = some idx)
      (hs : stale d idx = false) (ho : o.isErr = true)
      (hnot : ∀ slot, ¬ InUse t idx.index slot) : Effect t d op o t (bumpGeneration d)
  /-- A removal frees a slot, and then fails if the slot could not be removed. -/
  | remove {o idx slot} (hl : op.lowered = none) (hr : op.removed = some idx)
      (hs : stale d idx = false) (hu : InUse t idx.index slot)
      (ho : slotRemovable op.isDrop slot = true → slot.hostRep.isSome → o.isOk = true) :
      Effect t d op o (t.removed (idx.index - 1)) (bumpGeneration d)

theorem onTables_run {α : Type} {m : Prog ResourceTables Error α} {o : Outcome Error α}
    {t : ResourceTables} (h : m s.tables = (o, t)) :
    onTables m s = (o, { s with tables := t }) := by
  unfold onTables zoom
  rw [h]

theorem newHostIndex_ok {slots : Nat} (idx : Nat) (dtor flags : Option Nat)
    (hlen : MetadataLen s.hostResourceData.tableSlotMetadata slots) (h1 : 1 ≤ idx)
    (hle : idx ≤ slots + 1) (hmax : idx < maxResourceHandle) :
    ∃ md', newHostIndex idx dtor flags s = (.ok (.new idx s.hostResourceData.curGeneration),
          { s with hostResourceData := { s.hostResourceData with tableSlotMetadata := md' } }) ∧
      Stored s.hostResourceData.tableSlotMetadata idx
        ⟨s.hostResourceData.curGeneration, flags, dtor⟩ md' ∧
      MetadataLen md' (max slots idx) := by
  obtain ⟨md', hst, hstored, hlen'⟩ :=
    storeMetadata_ok ⟨s.hostResourceData.curGeneration, flags, dtor⟩ hlen h1 hle hmax s
  refine ⟨md', ?_, hstored, hlen'⟩
  unfold newHostIndex
  rw [run_bind_ok (run_get s), run_bind_ok hst]
  rfl

variable {s s' : HostResourceTables} {o : Outcome Error HostRet}

theorem lower_effect {op : HostOp} {rep : Nat} {m : Prog ResourceTables Error Nat}
    {dtor flags : Option Nat} (hw : s.tables.hostTable.Wf)
    (hlen : MetadataLen s.hostResourceData.tableSlotMetadata s.tables.hostTable.slots.length)
    (hl : op.lowered = some rep) (hr : op.removed = none)
    (hm : ∀ o t', m s.tables = (o, t') → NoAssert o ∧ (o.isPanic = false →
      Lowered s.tables.hostTable rep o t'.hostTable))
    (h : (do
      let idx ← (do let idx ← onTables m; newHostIndex idx dtor flags)
      pure (HostRet.index idx)) s = (o, s')) :
    NoAssert o ∧ (o.isPanic = false → Effect s.tables.hostTable s.hostResourceData op o
      s'.tables.hostTable s'.hostResourceData) := by
  rcases hmr : m s.tables with ⟨o', t'⟩
  obtain ⟨hna, hlow⟩ := hm o' t' hmr
  have hon := onTables_run hmr
  cases o' with
  | panic q =>
    rw [run_bind_panic (run_bind_panic hon)] at h
    cases h
    exact ⟨fun site hq => hna site (by cases hq; rfl), fun hp => by cases hp⟩
  | err e =>
    obtain ⟨new, hrep, hi, ho⟩ := hlow rfl
    rw [run_bind_err (run_bind_err hon)] at h
    cases h
    refine ⟨fun site => by simp, fun _ => .full rfl hr (by rw [hrep]; rfl) hi ?_⟩
    split at ho
    · assumption
    · cases ho
  | ok idx =>
    obtain ⟨new, hrep, hi, ho⟩ := hlow rfl
    split at ho
    · cases ho
    · rename_i hmax
      cases ho
      have hnext := hw.next_le
      obtain ⟨md', hnew, hst, hlen'⟩ := newHostIndex_ok (s := { s with tables := t' })
        (s.tables.hostTable.next + 1) dtor flags hlen (by omega) (by omega) (by omega)
      have hin : (do let idx ← onTables m; newHostIndex idx dtor flags) s = _ :=
        (run_bind_ok hon).trans hnew
      rw [run_bind_ok hin] at h
      cases h
      refine ⟨fun site => by simp, fun _ => ?_⟩
      rw [← hi.length] at hlen'
      exact .lower hl hr hrep hi (by omega) rfl hst hlen'

theorem liftOwn_effect (h : (HostOp.liftOwn idx).exec s = (o, s')) :
    Effect s.tables.hostTable s.hostResourceData (.liftOwn idx) o s'.tables.hostTable
      s'.hostResourceData := by
  cases hs : stale s.hostResourceData idx with
  | true =>
    have hin : hostResourceLiftOwn idx s = _ := run_bind_err (validate_stale hs true)
    cases (run_bind_err hin).symm.trans h
    exact .keep rfl (.inr rfl) rfl
  | false =>
    rcases hm : resourceLiftOwn newHost (.host idx.index) s.tables with ⟨o', t'⟩
    have hin : hostResourceLiftOwn idx s = _ :=
      (run_bind_ok (validate_ok hs true)).trans (onTables_run hm)
    cases (run_bind_pure hin HostRet.rep).symm.trans h
    rcases liftOwn_host hm with ⟨rfl, ho, hnot⟩ | ⟨slot, hu, ht, ho⟩
    · exact .miss rfl rfl hs (by simpa using ho) hnot
    · rw [ht]
      refine .remove rfl rfl hs hu (fun hrm hrep => ?_)
      obtain ⟨rep, hrep⟩ := Option.isSome_iff_exists.1 hrep
      rw [ho hrm rep hrep]
      rfl

theorem drop_effect (h : (HostOp.drop idx).exec s = (o, s')) (hp : o.isPanic = false) :
    Effect s.tables.hostTable s.hostResourceData (.drop idx) o s'.tables.hostTable
      s'.hostResourceData := by
  cases hs : stale s.hostResourceData idx with
  | true =>
    have hin : hostResourceDrop idx s = _ := run_bind_err (validate_stale hs true)
    cases (run_bind_err hin).symm.trans h
    exact .keep rfl (.inr rfl) rfl
  | false =>
    rcases hm : resourceDrop newHost (.host idx.index) s.tables with ⟨o', t'⟩
    have hv := validate_ok hs true
    have hon := onTables_run
      (s := { s with hostResourceData := bumpGeneration s.hostResourceData }) hm
    have hend : s'.tables = t' ∧ s'.hostResourceData = bumpGeneration s.hostResourceData ∧
        (o'.isErr = true → o.isErr = true) ∧ (o'.isOk = true → o.isOk = true) ∧
        o'.isPanic = false := by
      cases o' with
      | err e =>
        have hin : hostResourceDrop idx s = _ := (run_bind_ok hv).trans (run_bind_err hon)
        cases (run_bind_err hin).symm.trans h
        exact ⟨rfl, rfl, id, id, rfl⟩
      | panic q =>
        have hin : hostResourceDrop idx s = _ := (run_bind_ok hv).trans (run_bind_panic hon)
        cases (run_bind_panic hin).symm.trans h
        cases hp
      | ok r =>
        have hin : hostResourceDrop idx s = _ := (run_bind_ok hv).trans (run_bind_ok hon)
        cases r with
        | none =>
          cases (run_bind_ok hin).symm.trans h
          exact ⟨rfl, rfl, id, id, rfl⟩
        | some rep =>
          cases hmd : s.hostResourceData.tableSlotMetadata[idx.index]? with
          | none =>
            rw [hmd] at hin
            cases (run_bind_panic hin).symm.trans h
            cases hp
          | some slot =>
            rw [hmd] at hin
            cases (run_bind_ok hin).symm.trans h
            exact ⟨rfl, rfl, id, id, rfl⟩
    obtain ⟨hst, hsd, herr, hok, hpan⟩ := hend
    rw [hst, hsd]
    rcases drop_host hm with ⟨rfl, ho, hnot⟩ | ⟨slot, hu, ht, ho⟩
    · exact .miss rfl rfl hs (herr ho) hnot
    · rw [ht]
      refine .remove rfl rfl hs hu (fun hrm hrep => hok ?_)
      obtain ⟨rep, hrep⟩ := Option.isSome_iff_exists.1 hrep
      rcases ho hrm rep hrep with ho | rfl | rfl
      · rw [hpan] at ho; cases ho
      · rfl
      · rfl

theorem liftBorrow_effect (h : (HostOp.liftBorrow idx).exec s = (o, s')) :
    Effect s.tables.hostTable s.hostResourceData (.liftBorrow idx) o s'.tables.hostTable
      s'.hostResourceData := by
  cases hs : stale s.hostResourceData idx with
  | true =>
    have hin : hostResourceLiftBorrow idx s = _ := run_bind_err (validate_stale hs false)
    cases (run_bind_err hin).symm.trans h
    exact .keep rfl (.inl rfl) rfl
  | false =>
    rcases hm : resourceLiftBorrow newHost (.host idx.index) s.tables with ⟨o', t'⟩
    have hin : hostResourceLiftBorrow idx s = _ :=
      (run_bind_ok (validate_ok hs false)).trans (onTables_run hm)
    cases (run_bind_pure hin HostRet.rep).symm.trans h
    exact .keep rfl (.inl rfl) (liftBorrow_host hm).1

theorem exec_effect {op : HostOp} (hw : s.tables.hostTable.Wf)
    (hlen : MetadataLen s.hostResourceData.tableSlotMetadata s.tables.hostTable.slots.length)
    (h : op.exec s = (o, s')) (hp : o.isPanic = false) :
    Effect s.tables.hostTable s.hostResourceData op o s'.tables.hostTable s'.hostResourceData := by
  cases op with
  | lowerOwn rep dtor flags =>
    exact (lower_effect hw hlen rfl rfl (fun _ _ => lowerOwn_host hw) h).2 hp
  | lowerBorrow rep =>
    exact (lower_effect hw hlen rfl rfl (fun _ _ => lowerBorrow_host hw) h).2 hp
  | liftOwn idx => exact liftOwn_effect h
  | liftBorrow idx => exact liftBorrow_effect h
  | drop idx => exact drop_effect h hp
  | enterCall => cases h; exact .keep rfl (.inl rfl) rfl
  | exitCall =>
    rcases hm : exitCall newHost s.tables with ⟨o', t'⟩
    cases (run_bind_pure (onTables_run hm) (fun _ => HostRet.unit)).symm.trans h
    exact .keep rfl (.inl rfl) (exitCall_unlent hm)

/-! ### The generations of slots -/

structure SlotInv (t : ResourceTable) (d : HostResourceData) : Prop where
  wf : t.Wf
  host : ∀ (i : Nat) (slot : Slot), t.slots[i]? = some slot → slot.isFree = false →
    slot.hostRep.isSome
  len : MetadataLen d.tableSlotMetadata t.slots.length
  le : ∀ (i : Nat) info, 1 ≤ i → d.tableSlotMetadata[i]? = some info → info.generation ≤ d.curGeneration
  free : ∀ (i : Nat) (slot : Slot) info, t.slots[i]? = some slot → slot.isFree = true →
    d.tableSlotMetadata[i + 1]? = some info → info.generation < d.curGeneration

variable {d : HostResourceData} {t t' : ResourceTable}

theorem SlotInv.of_unlent (h : SlotInv t d) (ht : t'.unlent = t.unlent) : SlotInv t' d where
  wf := by rw [← wf_unlent, ht, wf_unlent]; exact h.wf
  host i slot hs hf := by
    obtain ⟨slot', hs', hfree, hrep⟩ := slot_of_unlent ht hs
    rw [← hrep]
    exact h.host i slot' hs' (by rw [hfree]; exact hf)
  len := by rw [length_of_unlent ht]; exact h.len
  le := h.le
  free i slot info hs hf hi := by
    obtain ⟨slot', hs', hfree, _⟩ := slot_of_unlent ht hs
    exact h.free i slot' info hs' (by rw [hfree]; exact hf) hi

theorem MetadataLen.le_max {md : List TableSlot} {slots : Nat} (h : MetadataLen md slots) :
    md.length ≤ maxResourceHandle := by
  unfold MetadataLen at h
  unfold maxResourceHandle at *
  split at h <;> omega

theorem SlotInv.full {new : Slot} (h : SlotInv t d) (hrep : new.hostRep.isSome)
    (hi : ResourceTable.Inserted t new t') (hmax : maxResourceHandle ≤ t.next + 1) :
    SlotInv t' d where
  wf := hi.wf
  host i slot hs hf := by
    by_cases he : i = t.next
    · rw [he, hi.at_next] at hs; cases hs; exact hrep
    · rw [hi.frame i he] at hs; exact h.host i slot hs hf
  len := by
    have hlen := h.len
    have hnext := h.wf.next_le
    rw [hi.length]
    unfold MetadataLen maxResourceHandle at *
    rw [if_neg (by omega)] at hlen ⊢
    omega
  le := h.le
  free i slot info hs hf hinfo := by
    by_cases he : i = t.next
    · have := (List.getElem?_eq_some_iff.1 hinfo).1
      have := h.len.le_max
      omega
    · rw [hi.frame i he] at hs; exact h.free i slot info hs hf hinfo

variable {info : TableSlot}

theorem SlotInv.lower {new : Slot} {md' : List TableSlot} (h : SlotInv t d)
    (hrep : new.hostRep.isSome) (hi : ResourceTable.Inserted t new t')
    (hinfo : info.generation = d.curGeneration)
    (hst : Stored d.tableSlotMetadata (t.next + 1) info md')
    (hlen : MetadataLen md' t'.slots.length) : SlotInv t' { d with tableSlotMetadata := md' } where
  wf := hi.wf
  host i slot hs hf := by
    by_cases he : i = t.next
    · rw [he, hi.at_next] at hs; cases hs; exact hrep
    · rw [hi.frame i he] at hs; exact h.host i slot hs hf
  len := hlen
  le i info' h1 hi' := by
    by_cases he : i = t.next + 1
    · rw [he, hst.at_idx] at hi'; cases hi'; exact hinfo.le
    · rw [hst.frame i h1 he] at hi'; exact h.le i info' h1 hi'
  free i slot info' hs hf hi' := by
    by_cases he : i = t.next
    · rw [he, hi.at_next] at hs
      cases hs
      obtain ⟨rep, hrep⟩ := Option.isSome_iff_exists.1 hrep
      rw [Slot.isFree_of_hostRep hrep] at hf
      cases hf
    · rw [hi.frame i he] at hs
      rw [hst.frame (i + 1) (by omega) (by omega)] at hi'
      exact h.free i slot info' hs hf hi'

theorem bumpGeneration_cur (h : d.curGeneration + 1 < 2 ^ 32) :
    (bumpGeneration d).curGeneration = d.curGeneration + 1 := mod_eq_of_lt h

variable {t : ResourceTable}

theorem SlotInv.bump (h : SlotInv t d) (hb : d.curGeneration + 1 < 2 ^ 32) :
    SlotInv t (bumpGeneration d) where
  wf := h.wf
  host := h.host
  len := h.len
  le i info h1 hi := by
    rw [bumpGeneration_cur hb]
    exact (h.le i info h1 hi).trans (le_succ _)
  free i slot info hs hf hi := by
    rw [bumpGeneration_cur hb]
    exact (h.free i slot info hs hf hi).trans (lt_succ_self _)

theorem SlotInv.remove (h : SlotInv t d) (hb : d.curGeneration + 1 < 2 ^ 32) {i : Nat} {slot : Slot}
    (hs : t.slots[i]? = some slot) (hf : slot.isFree = false) :
    SlotInv (t.removed i) (bumpGeneration d) where
  wf := removed_wf h.wf hs hf
  host j slot' hs' hf' := by
    by_cases he : j = i
    · subst he
      rw [ResourceTable.removed, getElem?_set_self (List.getElem?_eq_some_iff.1 hs).1] at hs'
      cases hs'
      cases hf'
    · rw [ResourceTable.removed, getElem?_set_ne (Ne.symm he)] at hs'
      exact h.host j slot' hs' hf'
  len := by
    have := h.len
    simpa [ResourceTable.removed, bumpGeneration] using this
  le := (h.bump hb).le
  free j slot' info hs' hf' hi := by
    by_cases he : j = i
    · rw [bumpGeneration_cur hb]
      exact lt_succ_of_le (h.le (j + 1) info (by omega) hi)
    · rw [ResourceTable.removed, getElem?_set_ne (Ne.symm he)] at hs'
      exact (h.bump hb).free j slot' info hs' hf' hi

theorem SlotInv.next_old (h : SlotInv t d) (hi : d.tableSlotMetadata[t.next + 1]? = some info) :
    info.generation < d.curGeneration := by
  rcases h.wf.next_cases with hn | ⟨n, hn⟩
  · have hlt := (List.getElem?_eq_some_iff.1 hi).1
    have hlen := h.len
    unfold MetadataLen at hlen
    split at hlen <;> omega
  · exact h.free t.next _ info hn rfl hi

theorem generation_of_not_stale (hs : stale d idx = false)
    (hi : d.tableSlotMetadata[idx.index]? = some info) : info.generation = idx.generation := by
  simpa [stale, hi] using hs

/-! ### Runs -/

namespace HostRun

def table (r : HostRun) : ResourceTable := r.host.tables.hostTable

def data (r : HostRun) : HostResourceData := r.host.hostResourceData

structure Inv (r : HostRun) : Prop where
  slots : SlotInv r.table r.data
  gen : r.data.curGeneration ≤ r.removals
  issued : ∀ idx rep, (idx, rep) ∈ r.issued → 1 ≤ idx.index ∧
    ∃ info, r.data.tableSlotMetadata[idx.index]? = some info ∧ idx.generation ≤ info.generation
  consumed : ∀ idx ∈ r.consumed, (∃ rep, (idx, rep) ∈ r.issued) ∧
    ∀ info slot, r.data.tableSlotMetadata[idx.index]? = some info →
      info.generation = idx.generation → r.table.slots[idx.index - 1]? = some slot →
      slot.isFree = true

/-- An index that was handed out and not consumed names a slot with its rep. -/
def Live (r : HostRun) : Prop :=
  ∀ idx rep, (idx, rep) ∈ r.issued → idx ∉ r.consumed →
    ∃ info slot, r.data.tableSlotMetadata[idx.index]? = some info ∧
      info.generation = idx.generation ∧ r.table.slots[idx.index - 1]? = some slot ∧
      slot.isFree = false ∧ slot.hostRep = some rep

/-- A removal is not tried on a slot that it frees and then fails on: an `Own` slot that is
lent, or a `Borrow` slot given to `host_resource_lift_own`. -/
def removable (r : HostRun) (op : HostOp) : Bool :=
  match op.removed with
  | none => true
  | some idx =>
    stale r.data idx ||
      match r.table.slotAt (.host idx.index) with
      | none => true
      | some slot => slot.isFree || slotRemovable op.isDrop slot

variable {idx : HostResourceIndex} {op : HostOp} {r : HostRun}

theorem slotRemovable_of_removable (h : r.removable op = true) {slot : Slot}
    (hr : op.removed = some idx) (hs : stale r.data idx = false)
    (hu : InUse r.table idx.index slot) : slotRemovable op.isDrop slot = true := by
  unfold removable at h
  simpa only [hr, hs, hu.1, hu.2, Bool.false_or] using h

theorem inv_start : Inv start where
  slots :=
    { wf := wf_default
      host := fun i slot hs => by cases hs
      len := rfl
      le := fun i info _ hi => by cases hi
      free := fun i slot info hs => by cases hs }
  gen := le_rfl
  issued idx rep h := by cases h
  consumed idx h := by cases h

theorem Inv.history (h : Inv r) {t : ResourceTable} {d : HostResourceData}
    (hmd : d.tableSlotMetadata = r.data.tableSlotMetadata)
    (ht : ∀ (i : Nat) (slot : Slot), t.slots[i]? = some slot → i + 1 < maxResourceHandle →
      ∃ slot' : Slot, r.table.slots[i]? = some slot' ∧ (slot'.isFree = true → slot.isFree = true)) :
    (∀ idx rep, (idx, rep) ∈ r.issued → 1 ≤ idx.index ∧
      ∃ info, d.tableSlotMetadata[idx.index]? = some info ∧ idx.generation ≤ info.generation) ∧
    (∀ idx ∈ r.consumed, (∃ rep, (idx, rep) ∈ r.issued) ∧
      ∀ info slot, d.tableSlotMetadata[idx.index]? = some info →
        info.generation = idx.generation → t.slots[idx.index - 1]? = some slot →
        slot.isFree = true) := by
  rw [hmd]
  refine ⟨h.issued, fun idx hc => ⟨(h.consumed idx hc).1, fun info slot hi hg hs => ?_⟩⟩
  obtain ⟨rep, hmem⟩ := (h.consumed idx hc).1
  have h1 := (h.issued idx rep hmem).1
  have hlt := (List.getElem?_eq_some_iff.1 hi).1
  have hle := h.slots.len.le_max
  obtain ⟨slot', hs', hf⟩ := ht _ slot hs (by omega)
  exact hf ((h.consumed idx hc).2 info slot' hi hg hs')

theorem record_of_err (r : HostRun) (op : HostOp) {o : Outcome Error HostRet}
    (ho : o.isErr = true) (s : HostResourceTables) :
    (r.record op o s).issued = r.issued ∧ (r.record op o s).consumed = r.consumed := by
  cases o with
  | err e =>
    constructor
    · unfold record; cases op.lowered <;> rfl
    · unfold record; cases op.removed <;> rfl
  | ok a => cases ho
  | panic p => cases ho

theorem record_issued_none (r : HostRun) (h : op.lowered = none) (o : Outcome Error HostRet)
    (s : HostResourceTables) : (r.record op o s).issued = r.issued := by
  unfold record
  simp only [h]

theorem record_consumed_none (r : HostRun) (h : op.removed = none) (o : Outcome Error HostRet)
    (s : HostResourceTables) : (r.record op o s).consumed = r.consumed := by
  unfold record
  simp only [h]

theorem record_removals_le (r : HostRun) (op : HostOp) (o : Outcome Error HostRet)
    (s : HostResourceTables) : r.removals ≤ (r.record op o s).removals := by
  unfold record
  dsimp only
  split <;> omega

theorem record_removals_of (r : HostRun) (h : op.removed = some idx) (o : Outcome Error HostRet)
    (s : HostResourceTables) : (r.record op o s).removals = r.removals + 1 := by
  unfold record
  simp [h]

theorem record_consumed_of (r : HostRun) (h : op.removed = some idx) (o : Outcome Error HostRet)
    (s : HostResourceTables) :
    (r.record op o s).consumed = if o.isOk then idx :: r.consumed else r.consumed := by
  unfold record
  cases o <;> simp [h, Outcome.isOk]

theorem Inv.issued_lower (h : Inv r) {info : TableSlot} {md' : List TableSlot}
    (hst : Stored r.data.tableSlotMetadata (r.table.next + 1) info md')
    (hinfo : info.generation = r.data.curGeneration) {new : HostResourceIndex} {rep : Nat}
    (hidx : new.index = r.table.next + 1) (hgen : new.generation = r.data.curGeneration) :
    ∀ idx rep', (idx, rep') ∈ (new, rep) :: r.issued → 1 ≤ idx.index ∧
      ∃ info', md'[idx.index]? = some info' ∧ idx.generation ≤ info'.generation := by
  intro idx rep' hmem
  rcases mem_cons.1 hmem with he | hmem
  · cases he
    exact ⟨by omega, info, by rw [hidx]; exact hst.at_idx, by rw [hgen, hinfo]⟩
  · obtain ⟨h1, info', hi', hle⟩ := h.issued idx rep' hmem
    refine ⟨h1, ?_⟩
    by_cases he : idx.index = r.table.next + 1
    · rw [he] at hi'
      have := h.slots.next_old hi'
      exact ⟨info, by rw [he]; exact hst.at_idx, by omega⟩
    · exact ⟨info', by rw [hst.frame _ h1 he]; exact hi', hle⟩

theorem Inv.consumed_lower (h : Inv r) {new : Slot} {t' : ResourceTable} {info : TableSlot}
    {md' : List TableSlot} {e : HostResourceIndex × Nat}
    (hi : ResourceTable.Inserted r.table new t')
    (hst : Stored r.data.tableSlotMetadata (r.table.next + 1) info md')
    (hinfo : info.generation = r.data.curGeneration) :
    ∀ idx ∈ r.consumed, (∃ rep, (idx, rep) ∈ e :: r.issued) ∧
      ∀ info' slot, md'[idx.index]? = some info' → info'.generation = idx.generation →
        t'.slots[idx.index - 1]? = some slot → slot.isFree = true := by
  intro idx hc
  obtain ⟨⟨rep, hmem⟩, hfree⟩ := h.consumed idx hc
  refine ⟨⟨rep, mem_cons_of_mem _ hmem⟩, fun info' slot hi' hg hs => ?_⟩
  obtain ⟨h1, old, hold, hle⟩ := h.issued idx rep hmem
  by_cases he : idx.index = r.table.next + 1
  · rw [he] at hold hi'
    rw [hst.at_idx] at hi'
    cases hi'
    have := h.slots.next_old hold
    omega
  · rw [hst.frame _ h1 he] at hi'
    rw [hi.frame _ (by omega)] at hs
    exact hfree info' slot hi' hg hs

variable {r r' : HostRun}

/-- **Every step keeps the invariant**, as long as generations do not run out. -/
theorem Inv.step (h : Inv r) (hstep : Step r op r') (hb : r'.removals < 2 ^ 32 - 3) : Inv r' := by
  obtain ⟨hissued, o, host, hexec, hp, rfl⟩ := hstep
  have heff := exec_effect h.slots.wf h.slots.len hexec hp
  have hrem := r.record_removals_le op o host
  have htable : (r.record op o host).table = host.tables.hostTable := rfl
  have hdata : (r.record op o host).data = host.hostResourceData := rfl
  have hgen := h.gen
  generalize host.tables.hostTable = t' at heff htable
  generalize host.hostResourceData = d' at heff hdata
  change Effect r.table r.data op o t' d' at heff
  cases heff with
  | keep hl hr ht =>
    have hcons : (r.record op o host).consumed = r.consumed := by
      rcases hr with hr | hr
      · exact r.record_consumed_none hr o host
      · exact (r.record_of_err op hr host).2
    have hhist := h.history (t := t') (d := r.data) rfl (fun i slot hs _ => by
      obtain ⟨slot', hs', hf, _⟩ := slot_of_unlent ht hs
      exact ⟨slot', hs', fun hfree => hf ▸ hfree⟩)
    constructor
    · rw [htable, hdata]; exact h.slots.of_unlent ht
    · rw [hdata]; omega
    · rw [hdata, r.record_issued_none hl]; exact hhist.1
    · rw [hdata, htable, r.record_issued_none hl, hcons]; exact hhist.2
  | full ho hr hrep hi hmax =>
    obtain ⟨hiss, hcons⟩ := r.record_of_err op ho host
    have hhist := h.history (t := t') (d := r.data) rfl (fun i slot hs hlt => by
      rw [hi.frame i (by omega)] at hs
      exact ⟨slot, hs, id⟩)
    constructor
    · rw [htable, hdata]; exact h.slots.full hrep hi hmax
    · rw [hdata]; omega
    · rw [hdata, hiss]; exact hhist.1
    · rw [hdata, htable, hiss, hcons]; exact hhist.2
  | lower hl hr hrep hi hmax hinfo hst hlen =>
    rename_i new rep info md'
    have hidx : ((HostResourceIndex.new (r.table.next + 1) r.data.curGeneration).index =
        r.table.next + 1) := index_new (by unfold maxResourceHandle at hmax; omega) _
    have hig : ((HostResourceIndex.new (r.table.next + 1) r.data.curGeneration).generation =
        r.data.curGeneration) :=
      generation_new (by unfold maxResourceHandle at hmax; omega) _
    have hiss : (r.record op (.ok (.index (.new (r.table.next + 1) r.data.curGeneration)))
        host).issued = (.new (r.table.next + 1) r.data.curGeneration, rep) :: r.issued := by
      unfold record
      simp only [hl]
    constructor
    · rw [htable, hdata]; exact h.slots.lower (by rw [hrep]; rfl) hi hinfo hst hlen
    · rw [hdata]; exact hgen.trans hrem
    · rw [hdata, hiss]
      exact h.issued_lower hst hinfo hidx hig
    · rw [hdata, htable, hiss, r.record_consumed_none hr]
      exact h.consumed_lower hi hst hinfo
  | miss hl hr hs ho hnot =>
    obtain ⟨hiss, hcons⟩ := r.record_of_err op ho host
    have hrm := r.record_removals_of hr o host
    have hcur := bumpGeneration_cur (d := r.data) (by omega)
    have hhist := h.history (t := r.table) (d := bumpGeneration r.data) rfl
      (fun i slot hs _ => ⟨slot, hs, id⟩)
    constructor
    · rw [htable, hdata]; exact h.slots.bump (by omega)
    · rw [hdata, hcur]; omega
    · rw [hdata, hiss]; exact hhist.1
    · rw [hdata, htable, hiss, hcons]; exact hhist.2
  | remove hl hr hs hu ho =>
    rename_i idx slot
    have hrm := r.record_removals_of hr o host
    have hcur := bumpGeneration_cur (d := r.data) (by omega)
    obtain ⟨_, hslot⟩ := slotAt_eq_some.1 hu.1
    have hat : (r.table.removed (idx.index - 1)).slots[idx.index - 1]? =
        some (.free r.table.next) :=
      getElem?_set_self (List.getElem?_eq_some_iff.1 hslot).1
    have hhist := h.history (t := r.table.removed (idx.index - 1)) (d := bumpGeneration r.data) rfl
      (fun i slot' hs' _ => by
        by_cases he : i = idx.index - 1
        · rw [he, hat] at hs'
          cases hs'
          exact ⟨slot, he ▸ hslot, fun _ => rfl⟩
        · rw [ResourceTable.removed, getElem?_set_ne (Ne.symm he)] at hs'
          exact ⟨slot', hs', id⟩)
    constructor
    · rw [htable, hdata]; exact h.slots.remove (by omega) hslot hu.2
    · rw [hdata, hcur]; omega
    · rw [hdata, r.record_issued_none hl]; exact hhist.1
    · rw [hdata, htable, r.record_issued_none hl, r.record_consumed_of hr]
      intro idx' hmem
      by_cases he : idx' = idx
      · subst he
        refine ⟨hissued idx' (op.index?_of_removed hr), fun info slot' _ _ hs' => ?_⟩
        rw [hat] at hs'
        cases hs'
        rfl
      · refine hhist.2 idx' ?_
        split at hmem
        · exact (mem_cons.1 hmem).resolve_left he
        · exact hmem

/-- **A step whose removal cannot fail on the slot keeps the live indices live.** -/
theorem Live.step (hl : Live r) (h : Inv r) (hstep : Step r op r') (hrmv : r.removable op = true) :
    Live r' := by
  obtain ⟨hissued, o, host, hexec, hp, rfl⟩ := hstep
  have heff := exec_effect h.slots.wf h.slots.len hexec hp
  have htable : (r.record op o host).table = host.tables.hostTable := rfl
  have hdata : (r.record op o host).data = host.hostResourceData := rfl
  generalize host.tables.hostTable = t' at heff htable
  generalize host.hostResourceData = d' at heff hdata
  change Effect r.table r.data op o t' d' at heff
  intro idx rep hmem hnc
  rw [htable, hdata]
  cases heff with
  | keep hlow hr ht =>
    have hcons : (r.record op o host).consumed = r.consumed := by
      rcases hr with hr | hr
      · exact r.record_consumed_none hr o host
      · exact (r.record_of_err op hr host).2
    rw [hcons] at hnc
    rw [r.record_issued_none hlow] at hmem
    obtain ⟨info, slot, hi, hg, hs, hf, hrep⟩ := hl idx rep hmem hnc
    obtain ⟨slot', hs', hf', hrep'⟩ := slot_of_unlent ht.symm hs
    exact ⟨info, slot', hi, hg, hs', hf'.trans hf, hrep'.trans hrep⟩
  | full ho hr hrep hi hmax =>
    obtain ⟨hiss, hcons⟩ := r.record_of_err op ho host
    rw [hcons] at hnc
    rw [hiss] at hmem
    obtain ⟨info, slot, hinfo, hg, hs, hf, hrep⟩ := hl idx rep hmem hnc
    have hlt := (List.getElem?_eq_some_iff.1 hinfo).1
    have hle := h.slots.len.le_max
    have h1 := (h.issued idx rep hmem).1
    exact ⟨info, slot, hinfo, hg, by rw [hi.frame _ (by omega)]; exact hs, hf, hrep⟩
  | lower hlow hr hrep hi hmax hinfo hst hlen =>
    rw [r.record_consumed_none hr] at hnc
    simp only [record, hlow] at hmem
    rcases mem_cons.1 hmem with he | hmem
    · cases he
      rw [index_new (by unfold maxResourceHandle at hmax; omega),
        generation_new (by unfold maxResourceHandle at hmax; omega)]
      exact ⟨_, _, hst.at_idx, hinfo, hi.at_next, Slot.isFree_of_hostRep hrep, hrep⟩
    · obtain ⟨info, slot, hinfo', hg, hs, hf, hrep'⟩ := hl idx rep hmem hnc
      have h1 := (h.issued idx rep hmem).1
      have hne : idx.index ≠ r.table.next + 1 := by
        intro he
        rw [he, Nat.add_sub_cancel] at hs
        rw [hi.fresh slot hs] at hf
        cases hf
      exact ⟨info, slot, by rw [hst.frame _ h1 hne]; exact hinfo', hg,
        by rw [hi.frame _ (by omega)]; exact hs, hf, hrep'⟩
  | miss hlow hr hs ho hnot =>
    obtain ⟨hiss, hcons⟩ := r.record_of_err op ho host
    rw [hcons] at hnc
    rw [hiss] at hmem
    exact hl idx rep hmem hnc
  | remove hlow hr hs hu ho =>
    rename_i gone slot
    obtain ⟨h0, hslot⟩ := slotAt_eq_some.1 hu.1
    have hok := ho (slotRemovable_of_removable hrmv hr hs hu) (h.slots.host _ slot hslot hu.2)
    rw [r.record_consumed_of hr, if_pos hok, mem_cons, not_or] at hnc
    rw [r.record_issued_none hlow] at hmem
    obtain ⟨info, slot', hi, hg, hs', hf, hrep⟩ := hl idx rep hmem hnc.2
    have hne : idx.index ≠ gone.index := by
      intro he
      refine hnc.1 (ext_halves he ?_)
      rw [← hg, ← generation_of_not_stale hs (he ▸ hi)]
    have h1 := (h.issued idx rep hmem).1
    change gone.index ≠ 0 at h0
    refine ⟨info, slot', hi, hg, ?_, hf, hrep⟩
    rw [ResourceTable.removed, getElem?_set_ne (by omega)]
    exact hs'

/-! ### Consumed and live indices -/

theorem Inv.not_inUse (h : Inv r) (hc : idx ∈ r.consumed) (hs : stale r.data idx = false) :
    ∀ slot, ¬ InUse r.table idx.index slot := by
  intro slot hu
  obtain ⟨⟨rep, hmem⟩, hfree⟩ := h.consumed idx hc
  obtain ⟨_, info, hi, _⟩ := h.issued idx rep hmem
  have hslot := (slotAt_eq_some.1 hu.1).2
  have := hfree info slot hi (generation_of_not_stale hs hi) hslot
  rw [hu.2] at this
  cases this

theorem isErr_iff {ε α : Type} {o : Outcome ε α} (h : o.isErr = true) : ∃ e, o = .err e := by
  cases o with
  | err e => exact ⟨e, rfl⟩
  | ok a => cases h
  | panic p => cases h

/-- **A consumed index is refused by every operation.** -/
theorem Inv.consumed_err (h : Inv r) (hc : idx ∈ r.consumed) (hop : op.index? = some idx) :
    ∃ e s', op.exec r.host = (.err e, s') := by
  cases hs : stale r.data idx with
  | true =>
    cases op with
    | liftOwn i =>
      cases hop
      have hin : hostResourceLiftOwn idx r.host = _ := run_bind_err (validate_stale hs true)
      exact ⟨_, _, run_bind_err hin⟩
    | liftBorrow i =>
      cases hop
      have hin : hostResourceLiftBorrow idx r.host = _ := run_bind_err (validate_stale hs false)
      exact ⟨_, _, run_bind_err hin⟩
    | drop i =>
      cases hop
      have hin : hostResourceDrop idx r.host = _ := run_bind_err (validate_stale hs true)
      exact ⟨_, _, run_bind_err hin⟩
    | _ => cases hop
  | false =>
    have hnot := h.not_inUse hc hs
    cases op with
    | liftOwn i =>
      cases hop
      rcases hm : resourceLiftOwn newHost (.host idx.index) r.host.tables with ⟨o, t⟩
      rcases liftOwn_host hm with ⟨rfl, ho, _⟩ | ⟨slot, hu, _⟩
      · obtain ⟨e, rfl⟩ := isErr_iff ho
        have hin : hostResourceLiftOwn idx r.host = _ :=
          (run_bind_ok (validate_ok hs true)).trans (onTables_run hm)
        exact ⟨_, _, run_bind_err hin⟩
      · exact absurd hu (hnot slot)
    | liftBorrow i =>
      cases hop
      rcases hm : resourceLiftBorrow newHost (.host idx.index) r.host.tables with ⟨o, t⟩
      obtain ⟨e, rfl⟩ := isErr_iff ((liftBorrow_host hm).2.1 hnot)
      have hin : hostResourceLiftBorrow idx r.host = _ :=
        (run_bind_ok (validate_ok hs false)).trans (onTables_run hm)
      exact ⟨_, _, run_bind_err hin⟩
    | drop i =>
      cases hop
      rcases hm : resourceDrop newHost (.host idx.index) r.host.tables with ⟨o, t⟩
      rcases drop_host hm with ⟨rfl, ho, _⟩ | ⟨slot, hu, _⟩
      · obtain ⟨e, rfl⟩ := isErr_iff ho
        have hin : hostResourceDrop idx r.host = _ :=
          (run_bind_ok (validate_ok hs true)).trans (run_bind_err (onTables_run hm))
        exact ⟨_, _, run_bind_err hin⟩
      · exact absurd hu (hnot slot)
    | _ => cases hop

theorem Inv.lower_no_assert (h : Inv r) {rep : Nat} (hop : op.lowered = some rep)
    {o : Outcome Error HostRet} {s' : HostResourceTables} (hexec : op.exec r.host = (o, s')) :
    NoAssert o := by
  cases op with
  | lowerOwn rep dtor flags =>
    have hr : (HostOp.lowerOwn rep dtor flags).removed = none := rfl
    exact (lower_effect h.slots.wf h.slots.len rfl hr (fun _ _ => lowerOwn_host h.slots.wf) hexec).1
  | lowerBorrow rep =>
    have hr : (HostOp.lowerBorrow rep).removed = none := rfl
    exact (lower_effect h.slots.wf h.slots.len rfl hr (fun _ _ => lowerBorrow_host h.slots.wf)
      hexec).1
  | _ => cases hop

/-- The index passes validation and the table has the rep for it, so that lifting a borrow
returns the rep, or panics because no call is active or the slot is lent too often. -/
def Resolves (s : HostResourceTables) (idx : HostResourceIndex) (rep : Nat) : Prop :=
  stale s.hostResourceData idx = false ∧ s.tables.hostTable.rep (.host idx.index) = .ok rep ∧
    ∀ o s', hostResourceLiftBorrow idx s = (o, s') → o = .ok rep ∨
      o.isPanic = true ∧ (s.tables.calls.scopes = [] ∨ ∃ resource n,
        s.tables.hostTable.slotAt (.host idx.index) = some (.own resource n) ∧ 2 ^ 32 ≤ n + 1)

theorem Live.resolves (hl : Live r) (h : Inv r) {rep : Nat} (hmem : (idx, rep) ∈ r.issued)
    (hnc : idx ∉ r.consumed) : Resolves r.host idx rep := by
  obtain ⟨info, slot, hi, hg, hs, hf, hrep⟩ := hl idx rep hmem hnc
  have h1 := (h.issued idx rep hmem).1
  have hst : stale r.data idx = false := by simp [stale, hi, hg]
  have hat : r.table.slotAt (.host idx.index) = some slot :=
    slotAt_eq_some.2 ⟨one_le_iff_ne_zero.1 h1, hs⟩
  refine ⟨hst, ?_, fun o s' hm => ?_⟩
  · change r.table.rep (.host idx.index) = .ok rep
    unfold ResourceTable.rep
    rw [hat]
    cases slot with
    | free n => cases hf
    | own res n | borrow res n => cases res <;> cases hrep; rfl
  · rcases hb : resourceLiftBorrow newHost (.host idx.index) r.host.tables with ⟨o', t'⟩
    have hin : hostResourceLiftBorrow idx r.host = _ :=
      (run_bind_ok (validate_ok hst false)).trans (onTables_run hb)
    cases hin.symm.trans hm
    refine ((liftBorrow_host hb).2.2 slot rep ⟨hat, hf⟩ hrep).imp_right (And.imp_right ?_)
    exact Or.imp_right (fun ⟨res, n, he, hn⟩ => ⟨res, n, he ▸ hat, hn⟩)

/-- Every run keeps `Inv`, as long as it has fewer than `2 ^ 32 - 3` removals. -/
theorem inv_of_run {tr : List HostOp} (h : Trace Step start tr r) (hb : r.removals < 2 ^ 32 - 3) :
    Inv r := by
  refine h.invariant (I := fun r => r.removals < 2 ^ 32 - 3 → Inv r) (fun _ => inv_start) ?_ hb
  intro r op r' hr hstep hb'
  refine (hr ?_).step hstep hb'
  obtain ⟨_, o, host, _, _, rfl⟩ := hstep
  exact lt_of_le_of_lt (r.record_removals_le op o host) hb'

def CleanStep (r : HostRun) (op : HostOp) (r' : HostRun) : Prop :=
  Step r op r' ∧ r.removable op = true

/-- **Host handles are free of the ABA problem** on every run of fewer than `2 ^ 32 - 3`
removals that tries none on a slot that refuses it: a consumed index is refused by every
operation, an index that was not consumed resolves to the rep it was made with, and no
lowering fails an assertion of `new_host_index`. -/
theorem host_handles {tr : List HostOp} {r : HostRun} (h : Trace CleanStep start tr r)
    (hb : r.removals < 2 ^ 32 - 3) :
    (∀ idx ∈ r.consumed, ∀ op, HostOp.index? op = some idx →
      ∃ e s', op.exec r.host = (.err e, s')) ∧
    (∀ idx rep, (idx, rep) ∈ r.issued → idx ∉ r.consumed → Resolves r.host idx rep) ∧
    (∀ op rep o s', HostOp.lowered op = some rep → op.exec r.host = (o, s') → NoAssert o) := by
  have hinv : Inv r := inv_of_run (h.mono (fun _ _ _ hs => hs.1)) hb
  have hlive : Inv r ∧ Live r := by
    refine h.invariant (I := fun r => r.removals < 2 ^ 32 - 3 → Inv r ∧ Live r)
      (fun _ => ⟨inv_start, fun _ _ hm => by cases hm⟩) ?_ hb
    rintro r op r' hr ⟨hstep, hrmv⟩ hb'
    have hlt : r.removals < 2 ^ 32 - 3 := by
      obtain ⟨_, o, host, _, _, rfl⟩ := hstep
      exact lt_of_le_of_lt (r.record_removals_le op o host) hb'
    obtain ⟨hi, hl⟩ := hr hlt
    exact ⟨hi.step hstep hb', hl.step hi hstep hrmv⟩
  refine ⟨fun idx hc op hop => hinv.consumed_err hc hop,
    fun idx rep hm hnc => hlive.2.resolves hlive.1 hm hnc,
    fun op rep o s' hop hexec => hinv.lower_no_assert hop hexec⟩

def next (r : HostRun) (op : HostOp) : Option HostRun :=
  if op.index?.all (fun idx => r.issued.any (fun e => e.1 == idx)) then
    match op.exec r.host with
    | (.panic _, _) => none
    | (o, host) => some (r.record op o host)
  else none

theorem step_of_next (h : r.next op = some r') : Step r op r' := by
  unfold next at h
  split at h
  · rename_i hall
    refine ⟨fun idx hidx => ?_, ?_⟩
    · rw [hidx] at hall
      obtain ⟨e, hm, he⟩ := any_eq_true.1 hall
      obtain ⟨i, rep⟩ := e
      obtain rfl := eq_of_beq he
      exact ⟨rep, hm⟩
    · split at h
      · cases h
      · rename_i o host hnp hexec
        cases h
        refine ⟨o, host, hexec, ?_, rfl⟩
        cases o with
        | panic p => exact absurd rfl (hnp p)
        | _ => rfl
  · cases h

theorem host_handles_reuse : ∃ r, Trace CleanStep start
    [.enterCall, .lowerBorrow 7, .drop (.new 1 0), .lowerOwn 9 none none] r ∧
    (∃ e s', (HostOp.liftOwn (.new 1 0)).exec r.host = (.err e, s')) ∧
    Resolves r.host (.new 1 1) 9 := by
  obtain ⟨r, hr, hp⟩ := Trace.exists_of_foldlM CleanStep (s := start)
    (f := fun r op => if r.removable op then r.next op else none)
    (fun r op r' h => by
      split at h
      · exact ⟨step_of_next h, ‹_›⟩
      · cases h)
    (fun r => decide (r.removals < 2 ^ 32 - 3) && decide (HostResourceIndex.new 1 0 ∈ r.consumed) &&
      decide ((HostResourceIndex.new 1 1, 9) ∈ r.issued) &&
      decide (HostResourceIndex.new 1 1 ∉ r.consumed))
    [.enterCall, .lowerBorrow 7, .drop (.new 1 0), .lowerOwn 9 none none] (by decide)
  simp only [Bool.and_eq_true, decide_eq_true_eq] at hp
  have h := host_handles hr hp.1.1.1
  exact ⟨r, hr, h.1 _ hp.1.1.2 (.liftOwn (.new 1 0)) rfl, h.2.1 _ _ hp.1.2 hp.2⟩

/-- Lifting a borrow as an own fails, and frees its slot: the index was not consumed and no
longer resolves. -/
theorem lift_own_of_borrow_frees : ∃ r, Trace Step start
    [.enterCall, .lowerBorrow 7, .liftOwn (.new 1 0)] r ∧ r.removals < 2 ^ 32 - 3 ∧
    (HostResourceIndex.new 1 0, 7) ∈ r.issued ∧ HostResourceIndex.new 1 0 ∉ r.consumed ∧
    (hostResourceLiftBorrow (.new 1 0) r.host).1 = .err (.unknownHandleIndex (.host 1)) ∧
    ¬ Resolves r.host (.new 1 0) 7 := by
  obtain ⟨r, hr, hp⟩ := Trace.exists_of_foldlM Step (s := start) (fun _ _ _ => step_of_next)
    (fun r => decide (r.removals < 2 ^ 32 - 3) &&
      decide ((HostResourceIndex.new 1 0, 7) ∈ r.issued) &&
      decide (HostResourceIndex.new 1 0 ∉ r.consumed) &&
      decide ((hostResourceLiftBorrow (.new 1 0) r.host).1 = .err (.unknownHandleIndex (.host 1))))
    [.enterCall, .lowerBorrow 7, .liftOwn (.new 1 0)] (by decide)
  simp only [Bool.and_eq_true, decide_eq_true_eq] at hp
  refine ⟨r, hr, hp.1.1.1, hp.1.1.2, hp.1.2, hp.2, fun h => ?_⟩
  rcases hm : hostResourceLiftBorrow (.new 1 0) r.host with ⟨o, s'⟩
  rw [hm] at hp
  obtain rfl : o = _ := hp.2
  rcases h.2.2 _ _ hm with ho | ⟨ho, _⟩ <;> cases ho

end HostRun

end Wasmtime.Resources
