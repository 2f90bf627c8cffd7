import Wasmtime.Base.Reach
import Wasmtime.Gc.DrcBarriers

/-!
# Runs of the collector

A run allocates objects, clones, drops, stores and exposes references, and collects. `Run` keeps
account of the references that the host owns and of those that were consumed without being given up:
`expose_gc_ref_to_wasm` takes an owned reference, and when the object is on the list already it does
not lower the count.

* `Run.run_list`: in every state that a run reaches the list is well formed, and a collection takes
  exactly the objects that are not on the stack from it.
* `Run.run_exact`: if no object is exposed while it is on the list, the counts are exact, no object
  with an owner is freed, and a collection leaves no object that nothing refers to.
* `Run.run_exposedTwice`: an object that is exposed while it is on the list can stay for ever.
-/

namespace Wasmtime.Gc

open Base Prog DrcHeap List SortedMap

/-- A heap with the references that the host owns, and those that were forgotten. -/
structure Run where
  heap : DrcHeap
  owned : List GcRef
  forgotten : List GcRef

/-- The operations of a run. A host slot is a global, an element of a table or a variable of
the embedder; what it held and what it holds are owned references. -/
inductive Op where
  | alloc (ty slots : Nat) (free : Option Nat)
  | allocExternref (hostData : Nat) (free : Option Nat)
  | clone (gcRef : GcRef)
  | drop (gcRef : GcRef)
  | write (destination source : Option GcRef)
  | writeField (object field : Nat) (source : Option GcRef)
  | expose (gcRef : GcRef)
  | collect (roots : List Root)

namespace Run

def new : Run := ⟨.empty, [], []⟩

def Live (h : DrcHeap) : GcRef → Prop
  | .i31 _ => True
  | .heap i => (h.objects.get? i).isSome = true

instance (h : DrcHeap) (r : GcRef) : Decidable (Live h r) := by
  cases r <;> unfold Live <;> infer_instance

def onList (h : DrcHeap) : GcRef → Bool
  | .i31 _ => false
  | .heap i => (h.objects.get? i).any (·.inOverApproximatedStackRoots)

/-- What the users of the collector keep to: references are live, owned ones are consumed once,
an object is written to by someone who holds it, and the references on the Wasm stack have
been exposed. -/
def allowed (s : Run) : Op → Prop
  | .alloc _ _ free => free.all fun i => (s.heap.objects.get? i).isNone
  | .allocExternref hostData free =>
    hostData ∉ s.heap.hostData ∧ free.all fun i => (s.heap.objects.get? i).isNone
  | .clone gcRef => Live s.heap gcRef
  | .drop gcRef => gcRef ∈ s.owned
  | .write destination source =>
    (∀ d ∈ destination, d ∈ s.owned) ∧ ∀ src ∈ source, Live s.heap src
  | .writeField object _ source =>
    (.heap object ∈ s.owned ∨ onList s.heap (.heap object) = true) ∧ ∀ src ∈ source, Live s.heap src
  | .expose gcRef => gcRef ∈ s.owned
  | .collect roots => ∀ i ∈ stackRoots roots, onList s.heap (.heap i) = true

instance (s : Run) (op : Op) : Decidable (s.allowed op) := by
  cases op <;> unfold allowed <;> infer_instance

def onHeap {α : Type} (m : Prog DrcHeap Empty α) : Prog Run Empty α :=
  zoom (·.heap) (fun h s => { s with heap := h }) m

def own (refs : List GcRef) : Prog Run Empty Unit :=
  Prog.modify fun s => { s with owned := refs ++ s.owned }

def disown (refs : List GcRef) : Prog Run Empty Unit :=
  Prog.modify fun s => { s with owned := s.owned.diff refs }

def exec : Op → Prog Run Empty Unit
  | .alloc ty slots free => do
    let r ← onHeap (allocRaw (.typed ty) slots free)
    own (r.map GcRef.heap).toList
  | .allocExternref hostData free => do
    let r ← onHeap (allocExternref hostData free)
    own (r.map GcRef.heap).toList
  | .clone gcRef => do
    let r ← onHeap (cloneGcRef gcRef)
    own [r]
  | .drop gcRef => do
    onHeap (dropGcRef gcRef)
    disown [gcRef]
  | .write destination source => do
    let written ← onHeap (writeGcRef destination source)
    disown destination.toList
    own written.toList
  | .writeField object field source => onHeap (writeField object field source)
  | .expose gcRef => do
    let s ← Prog.get
    onHeap (exposeGcRefToWasm gcRef)
    disown [gcRef]
    if onList s.heap gcRef then
      Prog.modify fun s => { s with forgotten := gcRef :: s.forgotten }
    else
      pure ()
  | .collect roots => onHeap (collect roots)

def Step (s : Run) (op : Op) (s' : Run) : Prop := s.allowed op ∧ exec op s = (.ok (), s')

def Inv (s : Run) : Prop :=
  ∃ q, Sound none (s.owned ++ s.forgotten) q s.heap ∧ ∀ j, marks s.heap.objects j = false

variable {s s' : Run} {q : List Nat} {i : Nat}

theorem inv_new : Inv new := by
  refine ⟨[], ⟨⟨fun i => rfl, nofun⟩, ⟨nofun, nofun, nofun⟩, rfl, nodup_nil, fun i => ?_⟩,
    fun j => rfl⟩
  exact ⟨nofun, nofun⟩

variable {h : DrcHeap}

theorem onList_iff (hl : Listed h q) : onList h (.heap i) = true ↔ i ∈ q := by
  rw [hl.mem]
  unfold onList
  cases hi : h.objects.get? i with
  | none => simp [hi]
  | some o => simp [hi]

theorem onHeap_ok {α : Type} {m : Prog DrcHeap Empty α} {a : α}
    (hrun : onHeap m s = (.ok a, s')) :
    ∃ h', m s.heap = (.ok a, h') ∧ s' = { s with heap := h' } := by
  obtain ⟨h', hm, rfl⟩ := zoom_ok.1 hrun
  exact ⟨h', hm, rfl⟩

variable {h h' : DrcHeap}

theorem unmarked_of_keeps (hm : ∀ j, marks h.objects j = false)
    (hk : ∀ j p, h'.objects.get? j = some p → ∃ p0, h.objects.get? j = some p0 ∧ p.marked = p0.marked)
    (j : Nat) : marks h'.objects j = false := by
  cases hj : h'.objects.get? j with
  | none => rw [marks, hj]; rfl
  | some p =>
    obtain ⟨p0, hp0, hmark⟩ := hk j p hj
    rw [marks_of_get? hj, hmark, ← marks_of_get? hp0, hm]

theorem marks_of_keeps (hk : Keeps h h') : ∀ j p,
    h'.objects.get? j = some p → ∃ p0, h.objects.get? j = some p0 ∧ p.marked = p0.marked := by
  intro j p hp
  obtain ⟨p0, hp0, -, hm⟩ := hk j p hp
  exact ⟨p0, hp0, hm⟩

theorem perm_diff (refs : List GcRef) {owned : List GcRef} {r : Option GcRef}
    (hr : ∀ d ∈ r, d ∈ owned) :
    (r.toList ++ (owned.diff r.toList ++ refs)).Perm (owned ++ refs) := by
  rw [← append_assoc]
  refine List.Perm.append_right refs ?_
  cases r with
  | none => exact List.Perm.refl _
  | some d =>
    rw [Option.toList_some, diff_cons, diff_nil]
    exact (perm_cons_erase (hr d rfl)).symm

theorem sound_perm {hole : Option (Nat × Nat)} {refs refs' : List GcRef} (hs : Sound hole refs q h)
    (hp : refs'.Perm refs) : Sound hole refs' q h :=
  hs.congr fun i => hp.count_eq (.heap i)

/-! ### The operations -/

theorem ensureTraceInfo_run (kind : Kind) (h : DrcHeap) :
    ∃ infos, ensureTraceInfo kind h = (.ok (), { h with traceInfos := infos }) ∧
      (∀ ty ∈ h.traceInfos, ty ∈ infos) ∧ ∀ ty, kind = .typed ty → ty ∈ infos := by
  cases kind with
  | externRef d => exact ⟨h.traceInfos, rfl, fun _ hty => hty, nofun⟩
  | typed ty =>
    have hrun : ensureTraceInfo (.typed ty) h = (.ok (), if ty ∈ h.traceInfos then h
        else { h with traceInfos := ty :: h.traceInfos }) := rfl
    by_cases hty : ty ∈ h.traceInfos
    · rw [if_pos hty] at hrun
      exact ⟨h.traceInfos, hrun, fun _ hty' => hty', fun ty' heq => by cases heq; exact hty⟩
    · rw [if_neg hty] at hrun
      exact ⟨ty :: h.traceInfos, hrun, fun _ hty' => mem_cons_of_mem _ hty',
        fun ty' heq => by cases heq; exact mem_cons_self⟩

variable {refs : List GcRef}

theorem allocRaw_none (kind : Kind) (slots : Nat) (hs : Sound none refs q h) :
    ∃ infos, allocRaw kind slots none h = (.ok none, { h with traceInfos := infos }) ∧
      Sound none refs q { h with traceInfos := infos } := by
  obtain ⟨infos, hrun, hinfos, -⟩ := ensureTraceInfo_run kind h
  refine ⟨infos, bind_ok.2 ⟨(), _, hrun, rfl⟩, hs.counts,
    ⟨fun j o ty ho hty => hinfos ty (hs.kinds.typed j o ty ho hty), hs.kinds.externRefs,
      hs.kinds.distinct⟩, hs.list.chain, hs.list.nodup, hs.list.mem⟩

theorem allocRaw_some (kind : Kind) (slots : Nat) (hostData : List Nat) (hs : Sound none refs q h)
    (hm : ∀ j, marks h.objects j = false) (hfree : h.objects.get? i = none)
    (hhost : ∀ d ∈ h.hostData, d ∈ hostData)
    (hexternRef : ∀ d, kind = .externRef d → slots = 0 ∧ d ∈ hostData ∧ d ∉ h.hostData) :
    ∃ h', allocRaw kind slots (some i) { h with hostData } = (.ok (some i), h') ∧
      Sound none (.heap i :: refs) q h' ∧ ∀ j, marks h'.objects j = false := by
  obtain ⟨infos, hrun, hinfos, htyped⟩ := ensureTraceInfo_run kind { h with hostData }
  refine ⟨_, bind_ok.2 ⟨(), _, hrun, rfl⟩, hs.alloc hfree hinfos hhost htyped hexternRef,
    fun j => ?_⟩
  rw [marks_insert, hm]
  split_ifs <;> rfl

theorem allocExternref_none (d : Nat) (h : DrcHeap) :
    allocExternref d none h = (.ok none, h) := by
  have hdealloc : deallocHostData d { h with hostData := d :: h.hostData } = (.ok (), h) := by
    refine bind_ok.2 ⟨_, _, rfl, bind_ok.2 ⟨(), _, assert_ok.2
      ⟨decide_eq_true mem_cons_self, rfl⟩, ?_⟩⟩
    rw [run_set, erase_cons_head]
  exact bind_ok.2 ⟨(), _, rfl, bind_ok.2 ⟨none, _, rfl, bind_ok.2 ⟨(), h, hdealloc, rfl⟩⟩⟩

theorem allocExternref_some {d : Nat}
    (hraw : allocRaw (.externRef d) 0 (some i) { h with hostData := d :: h.hostData } = (.ok (some i), h'))
    : allocExternref d (some i) h = (.ok (some i), h') :=
  bind_ok.2 ⟨(), _, rfl, bind_ok.2 ⟨some i, h', hraw, rfl⟩⟩

variable (hinv : Inv s)
include hinv

theorem inv_alloc {ty slots : Nat} {free : Option Nat}
    (hstep : Step s (.alloc ty slots free) s') : Inv s' := by
  obtain ⟨q, hs, hm⟩ := hinv
  obtain ⟨hallowed, hrun⟩ := hstep
  obtain ⟨r, s1, hheap, hrun1⟩ := bind_ok.1 hrun
  obtain ⟨h1, halloc, rfl⟩ := onHeap_ok hheap
  cases hrun1
  cases free with
  | none =>
    obtain ⟨infos, halloc', hs'⟩ := allocRaw_none (.typed ty) slots hs
    rw [halloc'] at halloc
    cases halloc
    exact ⟨q, hs', hm⟩
  | some i =>
    have hfree : s.heap.objects.get? i = none := by simpa [allowed] using hallowed
    obtain ⟨h', halloc', hs', hm'⟩ := allocRaw_some (.typed ty) slots s.heap.hostData
      hs hm hfree (fun _ hd => hd) nofun
    have heq := halloc.symm.trans halloc'
    cases heq
    exact ⟨q, hs', hm'⟩

theorem inv_allocExternref {d : Nat} {free : Option Nat}
    (hstep : Step s (.allocExternref d free) s') : Inv s' := by
  obtain ⟨q, hs, hm⟩ := hinv
  obtain ⟨⟨hfresh, hallowed⟩, hrun⟩ := hstep
  obtain ⟨r, s1, hheap, hrun1⟩ := bind_ok.1 hrun
  obtain ⟨h1, halloc, rfl⟩ := onHeap_ok hheap
  cases hrun1
  cases free with
  | none =>
    rw [allocExternref_none] at halloc
    cases halloc
    exact ⟨q, hs, hm⟩
  | some i =>
    have hfree : s.heap.objects.get? i = none := by simpa using hallowed
    obtain ⟨h', halloc', hs', hm'⟩ := allocRaw_some (.externRef d) 0
      (d :: s.heap.hostData) hs hm hfree (fun _ hd => mem_cons_of_mem _ hd)
      (fun d' heq => by cases heq; exact ⟨rfl, mem_cons_self, hfresh⟩)
    rw [allocExternref_some halloc'] at halloc
    cases halloc
    exact ⟨q, hs', hm'⟩

theorem inv_clone {r : GcRef} (hstep : Step s (.clone r) s') : Inv s' := by
  obtain ⟨q, hs, hm⟩ := hinv
  obtain ⟨-, hrun⟩ := hstep
  obtain ⟨r', s1, hheap, hrun1⟩ := bind_ok.1 hrun
  obtain ⟨h1, hclone, rfl⟩ := onHeap_ok hheap
  cases hrun1
  cases r with
  | i31 value =>
    cases hclone
    refine ⟨q, hs.congr fun i => ?_, hm⟩
    simp
  | heap i =>
    obtain ⟨_, h2, hinc, hpure⟩ := bind_ok.1 hclone
    cases hpure
    obtain ⟨hs', hk⟩ := incRef_ok hs hinc
    exact ⟨q, hs', unmarked_of_keeps hm (marks_of_keeps hk)⟩

theorem inv_drop {r : GcRef} (hstep : Step s (.drop r) s') : Inv s' := by
  obtain ⟨q, hs, hm⟩ := hinv
  obtain ⟨howned, hrun⟩ := hstep
  obtain ⟨_, s1, hheap, hrun1⟩ := bind_ok.1 hrun
  obtain ⟨h1, hdrop, rfl⟩ := onHeap_ok hheap
  cases hrun1
  have hs' := sound_perm hs (perm_diff (r := some r) s.forgotten
    fun d hd => by cases hd; exact howned)
  unfold dropGcRef at hdrop
  split_ifs at hdrop with hi31
  · cases hdrop
    refine ⟨q, hs'.congr fun i => ?_, hm⟩
    cases r with
    | i31 value => simp
    | heap j => cases hi31
  · obtain ⟨new, h2, hwrite, hpure⟩ := bind_ok.1 hdrop
    cases hpure
    obtain ⟨rfl, hs2, hk⟩ := writeGcRef_ok hs' nofun hwrite
    exact ⟨q, hs2, unmarked_of_keeps hm (marks_of_keeps hk)⟩

theorem inv_write {dest source : Option GcRef}
    (hstep : Step s (.write dest source) s') : Inv s' := by
  obtain ⟨q, hs, hm⟩ := hinv
  obtain ⟨⟨howned, -⟩, hrun⟩ := hstep
  obtain ⟨new, s1, hheap, hrun1⟩ := bind_ok.1 hrun
  obtain ⟨h1, hwrite, rfl⟩ := onHeap_ok hheap
  cases hrun1
  have hs' := sound_perm hs (perm_diff s.forgotten howned)
  obtain ⟨rfl, hs2, hk⟩ := writeGcRef_ok hs' nofun hwrite
  exact ⟨q, by rw [append_assoc]; exact hs2, unmarked_of_keeps hm (marks_of_keeps hk)⟩

theorem inv_writeField {object field : Nat} {source : Option GcRef}
    (hstep : Step s (.writeField object field source) s') : Inv s' := by
  obtain ⟨q, hs, hm⟩ := hinv
  obtain ⟨⟨hheld, -⟩, hrun⟩ := hstep
  obtain ⟨h1, hwrite, rfl⟩ := onHeap_ok hrun
  have hguard : .heap object ∈ s.owned ++ s.forgotten ∨ object ∈ q :=
    hheld.imp (mem_append_left _) (onList_iff hs.list).1
  obtain ⟨hs', hk⟩ := writeField_ok hs hguard hwrite
  exact ⟨q, hs', unmarked_of_keeps hm hk⟩

theorem inv_expose {r : GcRef} (hstep : Step s (.expose r) s') : Inv s' := by
  obtain ⟨q, hs, hm⟩ := hinv
  obtain ⟨howned, hrun⟩ := hstep
  have hs' := sound_perm hs (perm_diff (r := some r) s.forgotten
    fun d hd => by cases hd; exact howned)
  obtain ⟨_, s0, hget, hrun0⟩ := bind_ok.1 hrun
  cases hget
  obtain ⟨_, s1, hheap, hrun1⟩ := bind_ok.1 hrun0
  obtain ⟨h1, hexpose, rfl⟩ := onHeap_ok hheap
  obtain ⟨_, s2, hdisown, hrun2⟩ := bind_ok.1 hrun1
  cases hdisown
  cases r with
  | i31 value =>
    cases hexpose
    cases hrun2
    refine ⟨q, hs'.congr fun i => ?_, hm⟩
    simp
  | heap i =>
    obtain ⟨hin, hout⟩ := wp_ok (exposeObject_wp hs') hexpose
    split_ifs at hrun2 with hlist
    · -- The object is on the list: the reference is forgotten.
      cases hrun2
      rw [hin ((onList_iff hs.list).1 hlist)]
      exact ⟨q, sound_perm hs' perm_middle, hm⟩
    · cases hrun2
      obtain ⟨hs2, hm2⟩ := hout fun hi => hlist ((onList_iff hs.list).2 hi)
      exact ⟨i :: q, hs2, fun j => by rw [hm2, hm]⟩

omit hinv

variable {roots : List Root}

theorem inv_collect (hinv : Inv s) (hstep : Step s (.collect roots) s') : Inv s' := by
  obtain ⟨q, hs, hm⟩ := hinv
  obtain ⟨hroots, hrun⟩ := hstep
  obtain ⟨h1, hcollect, rfl⟩ := onHeap_ok hrun
  obtain ⟨⟨hs', -⟩, hm'⟩ := wp_ok
    (collect_wp hs hm fun i hi => (onList_iff hs.list).1 (hroots i hi)) hcollect
  exact ⟨_, hs', hm'⟩

theorem inv_step {op : Op} (hinv : Inv s) (hstep : Step s op s') : Inv s' := by
  cases op with
  | alloc ty slots free => exact inv_alloc hinv hstep
  | allocExternref d free => exact inv_allocExternref hinv hstep
  | clone r => exact inv_clone hinv hstep
  | drop r => exact inv_drop hinv hstep
  | write dest source => exact inv_write hinv hstep
  | writeField object field source => exact inv_writeField hinv hstep
  | expose r => exact inv_expose hinv hstep
  | collect roots => exact inv_collect hinv hstep

def after (s : Run) (op : Op) : Option Run :=
  if s.allowed op then Prog.next (exec op) s else none

theorem step_of_after {op : Op} (h : s.after op = some s') : Step s op s' := by
  unfold after at h
  split_ifs at h with hallowed
  obtain ⟨_, hrun⟩ := next_eq_some h
  exact ⟨hallowed, hrun⟩

theorem inv_run {tr : List Op} (h : Trace Step new tr s) : Inv s :=
  h.invariant inv_new fun _ _ _ => inv_step

/-! ### The list -/

/-- **What a collection does to the list `q`.** It never fails. The trace marks the objects on
the stack. After any number of rounds of the sweep the list consists of the objects on the
stack among those that were passed and of those to come, all of them live, with the saved
`prev` and `next` between the two. In the end the objects on the stack are left, and no mark. -/
structure Collects (h : DrcHeap) (q : List Nat) (roots : List Root) : Prop where
  rounds : ∃ marked, trace roots h = (.ok (), marked) ∧
    (∀ i, marks marked.objects i = decide (i ∈ stackRoots roots)) ∧
    ∀ n, ∃ swept, sweepRounds n none marked.overApproximatedStackRoots marked =
        (.ok (((q.take n).filter (· ∈ stackRoots roots)).getLast?, (q.drop n).head?), swept) ∧
      Listed swept ((q.take n).filter (· ∈ stackRoots roots) ++ q.drop n)
  done : ∃ h', collect roots h = (.ok (), h') ∧
    Listed h' (q.filter (· ∈ stackRoots roots)) ∧
    ∀ i o, h'.objects.get? i = some o → o.marked = false

theorem collects_of_sound (hs : Sound none refs q h) (hm : ∀ j, marks h.objects j = false)
    (hroots : ∀ i ∈ stackRoots roots, i ∈ q) : Collects h q roots := by
  constructor
  · obtain ⟨_, marked, htrace, ⟨hs1, hn1⟩, hm1⟩ := exists_of_wp (trace_wp hs hm hroots)
    refine ⟨marked, htrace, hm1, fun n => ?_⟩
    have hsweep := sweeping_of_marks hs1 hn1 hm1 hroots
    obtain ⟨_, swept, hrounds, rfl, hs2⟩ := exists_of_wp (sweepRounds_wp (n := n) hsweep)
    rw [nil_append, ← hs1.list.chain.head_eq] at hrounds
    exact ⟨swept, hrounds, hs2.sound.list⟩
  · obtain ⟨_, h', hcollect, ⟨hs', -⟩, hm'⟩ := exists_of_wp (collect_wp hs hm hroots)
    refine ⟨h', hcollect, hs'.list, fun i o hi => ?_⟩
    rw [← marks_of_get? hi, hm']

/-- **The over-approximated stack roots.** In every state that a run reaches the list is a
simple chain through the live objects whose bit is set, and a collection removes exactly the
objects that are not on the stack. -/
theorem run_list {tr : List Op} (h : Trace Step new tr s) :
    ∃ q, Listed s.heap q ∧ ∀ roots, s.allowed (.collect roots) → Collects s.heap q roots := by
  obtain ⟨q, hs, hm⟩ := inv_run h
  refine ⟨q, hs.list, fun roots hroots => collects_of_sound hs hm fun i hi => ?_⟩
  exact (onList_iff hs.list).1 (hroots i hi)

/-- A struct that holds an `externref` and is on the stack; the `externref` has been exposed and
dropped by the host. -/
def sampleOps : List Op :=
  [.alloc 3 2 (some 16), .allocExternref 5 (some 64), .writeField 16 1 (some (.heap 64)),
    .clone (.heap 16), .expose (.heap 16), .expose (.heap 64), .write none (some (.i31 9))]

theorem run_list_sample :
    ∃ s, Trace Step new sampleOps s ∧ s.heap.overApproximatedStackRoots = some 64 ∧
      ∃ q, Listed s.heap q ∧ ∀ roots, s.allowed (.collect roots) → Collects s.heap q roots := by
  obtain ⟨s, h, hhead⟩ := Trace.exists_of_foldlM Step (s := new) (fun _ _ _ => step_of_after)
    (fun s => decide (s.heap.overApproximatedStackRoots = some 64)) sampleOps (by decide +kernel)
  exact ⟨s, h, of_decide_eq_true hhead, run_list h⟩

/-! ### The counts -/

def RefersTo (h : DrcHeap) (i j : Nat) : Prop :=
  ∃ o, h.objects.get? i = some o ∧ some (.heap j) ∈ o.slots

theorem mem_fields {j : Nat} : .heap j ∈ fields none h.objects ↔ ∃ i, RefersTo h i j := by
  unfold fields RefersTo
  rw [mem_flatMap]
  constructor
  · rintro ⟨e, he, hj⟩
    refine ⟨e.1, e.2, get?_eq_some.2 he, ?_⟩
    simpa [held, mask] using hj
  · rintro ⟨i, o, hi, hj⟩
    refine ⟨(i, o), get?_eq_some.1 hi, ?_⟩
    simpa [held, mask] using hj

/-- **Exact counts.** An object is counted for each owner, for each field that holds it, and
for being on the list. No object with an owner is freed; a collection frees the objects that
no owner, field or stack root refers to, and what it leaves can be reached from an owner, from
a stack root or from a cycle. -/
structure Exact (s : Run) : Prop where
  counts : ∀ i o, s.heap.objects.get? i = some o →
    o.refCount = s.owned.count (.heap i) + (fields none s.heap.objects).count (.heap i) +
      (if o.inOverApproximatedStackRoots then 1 else 0)
  owners : ∀ i, .heap i ∈ s.owned → ∃ o, s.heap.objects.get? i = some o
  freed : ∀ roots, s.allowed (.collect roots) → ∃ h', collect roots s.heap = (.ok (), h') ∧
    (∀ i, .heap i ∉ s.owned → i ∉ stackRoots roots → (∀ j, ¬ RefersTo s.heap j i) →
      h'.objects.get? i = none) ∧
    ∀ i o, h'.objects.get? i = some o → (∃ r, (.heap r ∈ s.owned ∨ r ∈ stackRoots roots) ∧
        Relation.ReflTransGen (RefersTo h') r i) ∨
      ∃ c, Relation.TransGen (RefersTo h') c c ∧ Relation.ReflTransGen (RefersTo h') c i

theorem holder_of_live {h' : DrcHeap} {owned : List GcRef} {o : Object}
    (hs : Sound none owned (q.filter (· ∈ stackRoots roots)) h') (hi : h'.objects.get? i = some o) :
    (.heap i ∈ owned ∨ i ∈ stackRoots roots) ∨ ∃ j, RefersTo h' j i := by
  have hcount := hs.counts.exact i
  rw [count_of_get? hi, hs.list.listed_eq] at hcount
  have hpos := hs.counts.pos i o hi
  by_cases howned : .heap i ∈ owned
  · exact .inl (.inl howned)
  by_cases hroot : i ∈ stackRoots roots
  · exact .inl (.inr hroot)
  · have hout : i ∉ q.filter (· ∈ stackRoots roots) := by simp [hroot]
    rw [count_eq_zero.2 howned, if_neg hout] at hcount
    exact .inr (mem_fields.1 (count_pos_iff.1 (by omega)))

theorem exact_of_sound (hs : Sound none s.owned q s.heap)
    (hm : ∀ j, marks s.heap.objects j = false) : Exact s := by
  refine ⟨fun i o hi => ?_, fun i hi => hs.counts.live_of_mem hi, fun roots hroots => ?_⟩
  · rw [← count_of_get? hi, hs.counts.exact, listed_of_get? hi]
    rfl
  · have hsub : ∀ i ∈ stackRoots roots, i ∈ q := fun i hi => (onList_iff hs.list).1 (hroots i hi)
    obtain ⟨_, h', hcollect, ⟨hs', hn⟩, -⟩ := exists_of_wp (collect_wp hs hm hsub)
    refine ⟨h', hcollect, fun i howned hroot hfield => ?_, fun i o hi => ?_⟩
    · by_contra hlive
      obtain ⟨o, hi⟩ := Option.ne_none_iff_exists'.1 hlive
      rcases holder_of_live hs' hi with (h | h) | ⟨j, p, hj, hp⟩
      · exact howned h
      · exact hroot h
      · obtain ⟨p0, hj0, hslots⟩ := hn j p hj
        exact hfield j ⟨p0, hj0, hslots ▸ hp⟩
    · have hfin : {j | ∃ p, h'.objects.get? j = some p}.Finite := by
        refine (finite_toSet (h'.objects.entries.map Prod.fst)).subset ?_
        rintro j ⟨p, hj⟩
        exact mem_map.2 ⟨(j, p), get?_eq_some.1 hj, rfl⟩
      refine reach_of_pred hfin (fun j hj => ?_) ⟨o, hi⟩
      obtain ⟨p, hp⟩ := hj
      rcases holder_of_live hs' hp with h | ⟨l, p', hl, hp'⟩
      · exact .inl h
      · exact .inr ⟨l, ⟨p', hl⟩, p', hl, hp'⟩

/-- An object is not on the list when it is exposed. -/
def firstExposure (s : Run) : Op → Bool
  | .expose gcRef => !onList s.heap gcRef
  | _ => true

def Remembers {α : Type} (m : Prog Run Empty α) : Prop :=
  ∀ s a s', m s = (.ok a, s') → s'.forgotten = s.forgotten

theorem remembers_onHeap {α : Type} (m : Prog DrcHeap Empty α) : Remembers (onHeap m) := by
  intro s a s' hrun
  obtain ⟨h', -, rfl⟩ := onHeap_ok hrun
  rfl

theorem remembers_own (refs : List GcRef) : Remembers (own refs) := by
  intro s a s' hrun
  cases hrun
  rfl

theorem remembers_disown (refs : List GcRef) : Remembers (disown refs) := by
  intro s a s' hrun
  cases hrun
  rfl

theorem Remembers.bind {α β : Type} {m : Prog Run Empty α} {f : α → Prog Run Empty β}
    (hm : Remembers m) (hf : ∀ a, Remembers (f a)) : Remembers (m >>= f) := by
  intro s b s' hrun
  obtain ⟨a, s1, h1, h2⟩ := bind_ok.1 hrun
  rw [hf a s1 b s' h2, hm s a s1 h1]

theorem forgotten_step {op : Op} (hstep : Step s op s') (hfirst : s.firstExposure op = true) :
    s'.forgotten = s.forgotten := by
  obtain ⟨-, hrun⟩ := hstep
  cases op with
  | alloc ty slots free | allocExternref d free =>
    exact (remembers_onHeap _).bind (fun _ => remembers_own _) _ _ _ hrun
  | clone r => exact (remembers_onHeap _).bind (fun _ => remembers_own _) _ _ _ hrun
  | drop r => exact (remembers_onHeap _).bind (fun _ => remembers_disown _) _ _ _ hrun
  | write dest source =>
    exact (remembers_onHeap _).bind (fun _ =>
      (remembers_disown _).bind fun _ => remembers_own _) _ _ _ hrun
  | writeField object field source | collect roots => exact remembers_onHeap _ _ _ _ hrun
  | expose r =>
    have hout : onList s.heap r = false := by simpa [firstExposure] using hfirst
    obtain ⟨_, s0, hget, hrun0⟩ := bind_ok.1 hrun
    cases hget
    rw [hout] at hrun0
    exact (remembers_onHeap _).bind (fun _ => (remembers_disown _).bind fun _ _ _ _ hpure => by
      cases hpure
      rfl) _ _ _ hrun0

/-- **Counts are exact along every run that exposes no object while it is on the list.** -/
theorem run_exact {tr : List Op}
    (h : Trace (fun s op s' => Step s op s' ∧ s.firstExposure op = true) new tr s) : Exact s := by
  have hkeep : ∀ s op s', Inv s ∧ s.forgotten = [] →
      (Step s op s' ∧ s.firstExposure op = true) → Inv s' ∧ s'.forgotten = [] := by
    rintro s op s' ⟨hinv, hforgot⟩ ⟨hstep, hfirst⟩
    exact ⟨inv_step hinv hstep, (forgotten_step hstep hfirst).trans hforgot⟩
  obtain ⟨⟨q, hs, hm⟩, hforgot⟩ := Trace.invariant (I := fun s => Inv s ∧ s.forgotten = [])
    ⟨inv_new, rfl⟩ hkeep h
  rw [hforgot, append_nil] at hs
  exact exact_of_sound hs hm

theorem run_exact_sample :
    ∃ s, Trace (fun s op s' => Step s op s' ∧ s.firstExposure op = true) new sampleOps s ∧
      Exact s := by
  obtain ⟨s, h, -⟩ := Trace.exists_of_foldlM
    (fun s op s' => Step s op s' ∧ s.firstExposure op = true) (s := new)
    (f := fun s op => if s.firstExposure op = true then s.after op else none)
    (fun s op s' hs => by
      split_ifs at hs with hfirst
      exact ⟨step_of_after hs, hfirst⟩)
    (fun _ => true) sampleOps (by decide +kernel)
  exact ⟨s, h, run_exact h⟩

/-- An `externref` is exposed twice, each time with a reference of its own, and the host keeps
none. -/
def exposedTwice : List Op :=
  [.allocExternref 5 (some 16), .clone (.heap 16), .expose (.heap 16), .expose (.heap 16),
    .collect []]

/-- After the collection no owner, no field and no stack root refers to the object, and it is
not on the list, but it is live with a count of one. -/
theorem run_exposedTwice :
    ∃ s, Trace Step new exposedTwice s ∧ (s.owned = [] ∧
      s.heap.overApproximatedStackRoots = none ∧ s.heap.objects.get? 16 =
        some ⟨.externRef 5, 1, none, false, false, []⟩) ∧ ¬ Exact s := by
  obtain ⟨s, h, hs⟩ := Trace.exists_of_foldlM Step (s := new) (fun _ _ _ => step_of_after)
    (fun s => decide (s.owned = [] ∧ s.heap.overApproximatedStackRoots = none ∧
      s.heap.objects.entries = [(16, ⟨.externRef 5, 1, none, false, false, []⟩)])) exposedTwice
    (by decide +kernel)
  obtain ⟨howned, hhead, hentries⟩ := of_decide_eq_true hs
  have hget : s.heap.objects.get? 16 = some ⟨.externRef 5, 1, none, false, false, []⟩ := by
    rw [get?_eq_some, mem_def, hentries]
    exact mem_singleton_self _
  refine ⟨s, h, ⟨howned, hhead, hget⟩, fun hexact => ?_⟩
  have hcount := hexact.counts 16 _ hget
  rw [howned, fields, hentries] at hcount
  revert hcount
  decide

end Run

end Wasmtime.Gc
