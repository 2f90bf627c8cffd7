import Wasmtime.Base.Unique
import Wasmtime.Vm.LayoutAgreement

/-!
# Attributing faults to memories

`StoreOpaque::wasm_fault`: after a fault, the store searches the memories of all its instances for
the address, asserts that only one claims it, and aborts if none does. A module instance has the
memories that it defines; a memory that the host creates is the only one of a dummy instance; and
every import of a `SharedMemory` makes another dummy instance with the same memory.

`Store.Inv`: the mappings of all memories are apart. `fault_attributed`: the search succeeds exactly
if the memory is attached only once, which can fail for shared memories only.
-/

namespace Wasmtime.Vm

open Option

open Base Prog Environ List

variable {p : Nat}

/-- `Memory`: owned by an instance, or shared. -/
inductive RuntimeMemory (p : Nat) where
  | owned (m : LocalMemory p)
  | shared (id : Nat)
deriving DecidableEq

structure Store (p : Nat) where
  instances : List (List (RuntimeMemory p))
  pending : List (RuntimeMemory p)
  /-- The shared memories, unless they have been dropped. -/
  shared : List (Option (LocalMemory p))

structure WasmFault where
  memorySize : Nat
  wasmAddress : Nat

def sizeOfVmFuncRef : Nat := 32

namespace Store

def empty : Store p := ⟨[], [], []⟩

def resolve (s : Store p) : RuntimeMemory p → Option (LocalMemory p)
  | .owned m => some m
  | .shared id => s.shared[id]?.join

def probe (addr : Nat) (r : RuntimeMemory p) : Prog (Store p) String (Option WasmFault) := do
  let s ← Prog.get
  let m ← unwrap (s.resolve r) (.bounds "shared memory")
  let range ← m.wasmAccessible
  if range.1 ≤ addr ∧ addr < range.2 then
    pure (some { memorySize := m.alloc.len, wasmAddress := addr - range.1 })
  else
    pure none

def oneFault : Panic := .assert "fault.is_none()"

/-- `Instance::wasm_fault`. -/
def instanceFault (addr : Nat) (memories : List (RuntimeMemory p)) :
    Prog (Store p) String (Option WasmFault) :=
  memories.foldlM (fun fault r => probe addr r >>= keepOne oneFault fault) none

/-- `StoreOpaque::wasm_fault`; the error is the abortion of the process. -/
def wasmFault (addr : Nat) : Prog (Store p) String (Option WasmFault) :=
  if addr ≤ sizeOfVmFuncRef then
    pure none
  else do
    let s ← Prog.get
    let fault ← s.instances.foldlM
      (fun fault memories => instanceFault addr memories >>= keepOne oneFault fault) none
    match fault with
    | some f => pure (some f)
    | none => err "abort"

/-! ### How memories are attached -/

inductive Op (p : Nat) where
  /-- Allocate a memory for the next instance, of a module or a dummy. -/
  | allocateMemory (os : Os) (ty : Memory) (limiter : Option Limiter)
      (image : Option (MemoryImage p))
  | pushInstance
  | dropPending
  | newShared (os : Os) (ty : Memory)
  /-- `SharedMemory::vmimport`: a dummy instance with a memory that exists. -/
  | importShared (id : Nat)
  /-- The last handle of a shared memory outside the store goes away. -/
  | dropShared (id : Nat)
  | growOwned (instance_ index : Nat) (op : LocalMemory.GrowOp)
  | growShared (id : Nat) (op : LocalMemory.GrowOp)

def Op.os? : Op p → Option Os
  | .allocateMemory os _ _ _ => some os
  | .newShared os _ => some os
  | .growOwned _ _ op => some op.os
  | .growShared _ op => some op.os
  | _ => none

def create (tunables : Tunables) (os : Os) (ty : Memory) (limiter : Option Limiter)
    (image : Option (MemoryImage p)) : Option (LocalMemory p) :=
  match LocalMemory.newDynamic os ty tunables limiter image () with
  | (.ok m, _) => some m
  | _ => none

def grown (op : LocalMemory.GrowOp) (m : LocalMemory p) : LocalMemory p :=
  (LocalMemory.grow op.os op.deltaPages op.store m).2

def next (tunables : Tunables) (s : Store p) : Op p → Store p
  | .allocateMemory os ty limiter image =>
    match create tunables os ty limiter image with
    | none => s
    | some m =>
      if ty.shared then
        { s with pending := s.pending ++ [.shared s.shared.length], shared := s.shared ++ [some m] }
      else
        { s with pending := s.pending ++ [.owned m] }
  | .pushInstance => { s with instances := s.instances ++ [s.pending], pending := [] }
  | .dropPending => { s with pending := [] }
  | .newShared os ty =>
    match create tunables os ty none none with
    | none => s
    | some m => if ty.shared then { s with shared := s.shared ++ [some m] } else s
  | .importShared id =>
    if (s.resolve (.shared id)).isSome then
      { s with instances := s.instances ++ [[.shared id]] }
    else s
  | .dropShared id =>
    if .shared id ∈ s.instances.flatten ++ s.pending then s
    else { s with shared := s.shared.set id none }
  | .growOwned k j op =>
    match s.instances[k]? with
    | none => s
    | some memories =>
      match memories[j]? with
      | some (.owned m) =>
        { s with instances := s.instances.set k (memories.set j (.owned (grown op m))) }
      | _ => s
  | .growShared id op =>
    match s.resolve (.shared id) with
    | some m => { s with shared := s.shared.set id (some (grown op m)) }
    | none => s

def owned (l : List (RuntimeMemory p)) : List (LocalMemory p) :=
  l.filterMap fun
    | .owned m => some m
    | .shared _ => none

def live (s : Store p) : List (LocalMemory p) :=
  owned (s.instances.flatten ++ s.pending) ++ s.shared.filterMap (fun x => x)

/-- The system does not place a mapping where there is one. -/
def Clear (s : Store p) (os : Os) : Prop := ∀ len a, os.reserve len = some a → ∀ m ∈ s.live,
    a + len ≤ m.alloc.mmap.start ∨ m.alloc.mmap.start + m.alloc.mmap.len.byteCount ≤ a

def Step (tunables : Tunables) (s : Store p) (op : Op p) (s' : Store p) : Prop :=
  (∀ os, op.os? = some os → s.Clear os) ∧ s.next tunables op = s'

end Store

/-! ### Mappings are apart -/

def Apart (m m' : LocalMemory p) : Prop :=
  m.alloc.mmap.start + m.alloc.mmap.len.byteCount ≤ m'.alloc.mmap.start ∨
    m'.alloc.mmap.start + m'.alloc.mmap.len.byteCount ≤ m.alloc.mmap.start

theorem Apart.symm {m m' : LocalMemory p} (h : Apart m m') : Apart m' m := Or.symm h

instance : Std.Symm (Apart (p := p)) := ⟨fun _ _ => Apart.symm⟩

/-- Whether an address is in the range that WebAssembly can reach. -/
def Covers (m : LocalMemory p) (addr : Nat) : Prop :=
  m.alloc.base ≤ addr ∧
    addr < m.alloc.base + max m.alloc.capacity m.memoryReservation + m.memoryGuardSize

instance (m : LocalMemory p) (addr : Nat) : Decidable (Covers m addr) :=
  inferInstanceAs (Decidable (_ ∧ _))

variable {tunables : Tunables} {m m' : LocalMemory p} {l l' : List (LocalMemory p)} {os : Os}

theorem Covers.in_mapping {addr : Nat} (h : Covers m addr) (hok : m.Ok tunables) :
    m.alloc.mmap.start ≤ addr ∧
      addr < m.alloc.mmap.start + m.alloc.mmap.len.byteCount := by
  obtain ⟨h1, h2⟩ := h
  have hlen := hok.alloc.mmap_len
  have hguard := hok.guard_le
  have hres := hok.reserved
  rw [hok.memoryReservation, max_eq_left hres, hok.memoryGuardSize] at h2
  simp only [MmapMemory.base] at h1 h2
  omega

theorem Covers.not_apart {addr : Nat} (h : Covers m addr) (h' : Covers m' addr)
    (hok : m.Ok tunables) (hok' : m'.Ok tunables) : ¬ Apart m m' := by
  have h1 := h.in_mapping hok
  have h2 := h'.in_mapping hok'
  unfold Apart
  omega

structure Sound (tunables : Tunables) (l : List (LocalMemory p)) : Prop where
  ok : ∀ m ∈ l, m.Ok tunables
  apart : l.Pairwise Apart

namespace Sound

theorem perm (h : Sound tunables l) (hp : l.Perm l') : Sound tunables l' :=
  ⟨fun m hm => h.ok m (hp.mem_iff.2 hm), (hp.pairwise_iff Apart.symm).1 h.apart⟩

theorem sublist (h : Sound tunables l) (hs : l'.Sublist l) : Sound tunables l' :=
  ⟨fun m hm => h.ok m (hs.subset hm), h.apart.sublist hs⟩

theorem cons (h : Sound tunables l) (hok : m.Ok tunables) (hap : ∀ m' ∈ l, Apart m m') :
    Sound tunables (m :: l) :=
  ⟨forall_mem_cons.2 ⟨hok, h.ok⟩, pairwise_cons.2 ⟨hap, h.apart⟩⟩

theorem replace (h : Sound tunables (m :: l)) (hok : m'.Ok tunables)
    (hg : LocalMemory.Grows os m m')
    (hclear : ∀ len a, os.reserve len = some a → ∀ m ∈ l,
      a + len ≤ m.alloc.mmap.start ∨ m.alloc.mmap.start + m.alloc.mmap.len.byteCount ≤ a) :
    Sound tunables (m' :: l) := by
  obtain ⟨hap, htail⟩ := pairwise_cons.1 h.apart
  refine cons ⟨fun x hx => h.ok x (mem_cons_of_mem _ hx), htail⟩ hok fun x hx => ?_
  rcases hg.mapping with ⟨h1, h2, -⟩ | ⟨-, -, h1⟩
  · have := hap x hx
    unfold Apart at this ⊢
    rwa [h1, h2]
  · exact hclear _ _ h1 x hx

end Sound

namespace Store

variable {s s' : Store p} {op : Op p}

@[simp] theorem owned_append (l l' : List (RuntimeMemory p)) :
    owned (l ++ l') = owned l ++ owned l' := filterMap_append

@[simp] theorem owned_cons_owned (m : LocalMemory p) (l : List (RuntimeMemory p)) :
    owned (.owned m :: l) = m :: owned l := rfl

@[simp] theorem owned_cons_shared (id : Nat) (l : List (RuntimeMemory p)) :
    owned (.shared id :: l) = owned l := rfl

@[simp] theorem owned_nil : owned ([] : List (RuntimeMemory p)) = [] := rfl

theorem exists_split {α : Type} {l : List α} {k : Nat} {x : α} (h : l[k]? = some x) :
    ∃ l1 l2, l = l1 ++ x :: l2 ∧ ∀ y, l.set k y = l1 ++ y :: l2 := by
  obtain ⟨hlt, rfl⟩ := List.getElem?_eq_some_iff.1 h
  refine ⟨l.take k, l.drop (k + 1), ?_, fun y => set_eq_take_append_cons_drop.trans ?_⟩
  · rw [cons_getElem_drop_succ, take_append_drop]
  · rw [if_pos hlt]

structure Inv (tunables : Tunables) (s : Store p) : Prop where
  sound : Sound tunables s.live
  resolved : ∀ r ∈ s.instances.flatten ++ s.pending, (s.resolve r).isSome = true

theorem create_some {ty : Memory} {limiter : Option Limiter} {image : Option (MemoryImage p)}
    (h : create tunables os ty limiter image = some m) :
    LocalMemory.New os ty tunables m := by
  unfold create at h
  split at h
  · next hn =>
    cases h
    exact LocalMemory.newDynamic_ok hn
  · cases h

theorem Inv.new_sound (h : s.Inv tunables) (hclear : s.Clear os) {ty : Memory}
    (hn : LocalMemory.New os ty tunables m) : Sound tunables (m :: s.live) := by
  refine h.sound.cons hn.ok fun x hx => ?_
  rcases hn.from_os with ⟨h1, h2⟩ | h1
  · have := (h.sound.ok x hx).alloc.start
    exact Or.inl (by omega)
  · exact hclear _ _ h1 x hx

theorem live_pending (s : Store p) (m : LocalMemory p) :
    (m :: s.live).Perm { s with pending := s.pending ++ [RuntimeMemory.owned m] }.live := by
  unfold live
  simp only [owned_append, owned_cons_owned, owned_nil]
  rw [← cons_append]
  refine List.Perm.append_right _ ?_
  rw [← append_assoc]
  exact (perm_append_singleton _ _).symm

theorem live_shared (s : Store p) (m : LocalMemory p) (pending : List (RuntimeMemory p))
    (hp : owned pending = owned s.pending) :
    (m :: s.live).Perm { s with pending, shared := s.shared ++ [some m] }.live := by
  unfold live
  simp only [owned_append, hp, filterMap_append, filterMap_cons, filterMap_nil]
  rw [← append_assoc]
  exact (perm_append_singleton _ _).symm

theorem resolve_append {r : RuntimeMemory p} (h : (s.resolve r).isSome = true) (m : LocalMemory p)
    (pending : List (RuntimeMemory p)) :
    ({ s with pending, shared := s.shared ++ [some m] }.resolve r).isSome = true := by
  cases r with
  | owned => rfl
  | shared id =>
    simp only [resolve] at h ⊢
    rcases hx : s.shared[id]? with _ | x
    · simp [hx] at h
    · rwa [getElem?_append_left (List.getElem?_eq_some_iff.1 hx).1]

theorem resolve_last (s : Store p) (m : LocalMemory p) (pending : List (RuntimeMemory p)) :
    ({ s with pending, shared := s.shared ++ [some m] }.resolve
      (.shared s.shared.length)).isSome = true := by
  simp [resolve]

variable (h : s.Inv tunables)
include h

theorem Inv.allocateMemory {ty : Memory} {limiter : Option Limiter}
    {image : Option (MemoryImage p)} (hclear : s.Clear os) :
    (s.next tunables (.allocateMemory os ty limiter image)).Inv tunables := by
  unfold next
  dsimp only
  split
  · exact h
  · next m hm =>
    have hn := h.new_sound hclear (create_some hm)
    split_ifs
    · refine ⟨hn.perm (live_shared s m _ (by simp)), fun r hr => ?_⟩
      rw [← append_assoc, mem_append, mem_singleton] at hr
      rcases hr with hr | rfl
      · exact resolve_append (h.resolved r hr) m _
      · exact resolve_last s m _
    · refine ⟨hn.perm (live_pending s m), fun r hr => ?_⟩
      rw [← append_assoc, mem_append, mem_singleton] at hr
      rcases hr with hr | rfl
      · exact h.resolved r hr
      · rfl

theorem Inv.newShared {ty : Memory} (hclear : s.Clear os) :
    (s.next tunables (.newShared os ty)).Inv tunables := by
  unfold next
  dsimp only
  split
  · exact h
  · next m hm =>
    have hn := h.new_sound hclear (create_some hm)
    split_ifs
    · exact ⟨hn.perm (live_shared s m s.pending rfl), fun r hr =>
        resolve_append (h.resolved r hr) m _⟩
    · exact h

theorem Inv.pushInstance : (s.next tunables .pushInstance).Inv tunables := by
  have heq : (s.instances ++ [s.pending]).flatten ++ [] = s.instances.flatten ++ s.pending := by
    simp
  refine ⟨?_, fun r hr => h.resolved r (heq ▸ hr)⟩
  have := h.sound
  unfold live at this ⊢
  unfold next
  simp only [heq]
  exact this

theorem Inv.dropPending : (s.next tunables .dropPending).Inv tunables := by
  refine ⟨h.sound.sublist ?_, fun r hr => h.resolved r ?_⟩
  · unfold live
    unfold next
    simp only [owned_append, append_nil]
    exact List.Sublist.append_right (sublist_append_left _ _) _
  · unfold next at hr
    simp only [append_nil] at hr
    exact mem_append_left _ hr

theorem Inv.importShared (id : Nat) :
    (s.next tunables (.importShared id)).Inv tunables := by
  unfold next
  dsimp only
  split_ifs with hid
  · refine ⟨?_, fun r hr => ?_⟩
    · have := h.sound
      unfold live at this ⊢
      simpa using this
    · simp only [flatten_append, flatten_singleton, mem_append, mem_singleton] at hr
      rcases hr with (hr | rfl) | hr
      · exact h.resolved r (mem_append_left _ hr)
      · exact hid
      · exact h.resolved r (mem_append_right _ hr)
  · exact h

theorem Inv.dropShared (id : Nat) :
    (s.next tunables (.dropShared id)).Inv tunables := by
  unfold next
  dsimp only
  split_ifs with hid
  · exact h
  · refine ⟨h.sound.sublist ?_, fun r hr => ?_⟩
    · unfold live
      refine List.Sublist.append_left ?_ _
      rcases hx : s.shared[id]? with _ | x
      · rw [set_eq_of_length_le (List.getElem?_eq_none_iff.1 hx)]
      · obtain ⟨l1, l2, hl, hset⟩ := exists_split hx
        rw [hset, hl, filterMap_append, filterMap_append]
        refine List.Sublist.append_left ?_ _
        cases x with
        | none => rfl
        | some x => exact sublist_cons_self _ _
    · have hres := h.resolved r hr
      cases r with
      | owned => rfl
      | shared id' =>
        have hne : id ≠ id' := by
          rintro rfl
          exact hid hr
        simpa only [resolve, getElem?_set_ne hne] using hres

omit h

theorem grown_spec (hok : m.Ok tunables) (op : LocalMemory.GrowOp) :
    (grown op m).Ok tunables ∧ LocalMemory.Grows op.os m (grown op m) :=
  LocalMemory.Step.grows hok rfl

theorem Inv.grow_sound (h : s.Inv tunables) {op : LocalMemory.GrowOp} (hclear : s.Clear op.os)
    (hl : (m :: l).Perm s.live) : Sound tunables (grown op m :: l) := by
  have hsound := h.sound.perm hl.symm
  obtain ⟨hok, hg⟩ := grown_spec (hsound.ok m mem_cons_self) op
  exact hsound.replace hok hg fun len a ha x hx =>
    hclear len a ha x (hl.subset (mem_cons_of_mem _ hx))

theorem Inv.growOwned (h : s.Inv tunables) {op : LocalMemory.GrowOp} (hclear : s.Clear op.os)
    (k j : Nat) : (s.next tunables (.growOwned k j op)).Inv tunables := by
  unfold next
  dsimp only
  split
  · exact h
  next mems hk =>
  split
  · next m hj =>
    obtain ⟨a, b, hinst, hset⟩ := exists_split hk
    obtain ⟨c, d, hmems, hset'⟩ := exists_split hj
    have hflat : ∀ x : LocalMemory p, (a ++ (c ++ RuntimeMemory.owned x :: d) :: b).flatten ++
        s.pending = (a.flatten ++ c) ++ .owned x :: (d ++ b.flatten ++ s.pending) := by
      intro x
      simp
    have hold : s.instances.flatten ++ s.pending =
        (a.flatten ++ c) ++ .owned m :: (d ++ b.flatten ++ s.pending) := by
      rw [hinst, hmems, hflat]
    have hperm : ∀ x : LocalMemory p, (x :: (owned (a.flatten ++ c) ++
          (owned (d ++ b.flatten ++ s.pending) ++ s.shared.filterMap (fun x => x)))).Perm
        (owned ((a.flatten ++ c) ++ .owned x :: (d ++ b.flatten ++ s.pending)) ++
          s.shared.filterMap (fun x => x)) := by
      intro x
      rw [owned_append (a.flatten ++ c) (.owned x :: _), owned_cons_owned,
        append_assoc (owned (a.flatten ++ c)), cons_append]
      exact perm_middle.symm
    have hsound := h.grow_sound hclear (m := m) (by rw [live, hold]; exact hperm m)
    refine ⟨?_, fun r hr => ?_⟩
    · refine hsound.perm ?_
      rw [live, hset, hset', hflat]
      exact hperm _
    · rw [hset, hset', hflat, mem_append, mem_cons] at hr
      rcases hr with hr | rfl | hr
      · exact h.resolved r (by rw [hold]; exact mem_append_left _ hr)
      · rfl
      · exact h.resolved r (by
          rw [hold]
          exact mem_append_right _ (mem_cons_of_mem _ hr))
  · exact h

theorem Inv.growShared (h : s.Inv tunables) {op : LocalMemory.GrowOp} (hclear : s.Clear op.os)
    (id : Nat) : (s.next tunables (.growShared id op)).Inv tunables := by
  unfold next
  dsimp only
  split
  · next m hm =>
    have hm' : s.shared[id]? = some (some m) := by
      simpa [resolve, join_eq_some_iff] using hm
    obtain ⟨a, b, hl, hset⟩ := exists_split hm'
    have hperm : ∀ x : LocalMemory p, (x :: (owned (s.instances.flatten ++ s.pending) ++
          a.filterMap (fun x => x) ++ b.filterMap (fun x => x))).Perm
        (owned (s.instances.flatten ++ s.pending) ++ (a ++ some x :: b).filterMap (fun x =>
          x)) := by
      intro x
      have hx : (some x :: b).filterMap (fun x => x) = x :: b.filterMap (fun x => x) := rfl
      rw [filterMap_append, hx, ← append_assoc]
      exact perm_middle.symm
    have hsound := h.grow_sound hclear (m := m) (by rw [live, hl]; exact hperm m)
    refine ⟨?_, fun r hr => ?_⟩
    · refine hsound.perm ?_
      rw [live, hset]
      exact hperm _
    · have hres := h.resolved r hr
      cases r with
      | owned => rfl
      | shared id' =>
        by_cases heq : id = id'
        · subst heq
          simp [resolve, getElem?_set_self (List.getElem?_eq_some_iff.1 hm').1]
        · simpa only [resolve, getElem?_set_ne heq] using hres
  · exact h

theorem Inv.step (h : s.Inv tunables) (hs : Step tunables s op s') : s'.Inv tunables := by
  obtain ⟨hclear, rfl⟩ := hs
  cases op with
  | allocateMemory os ty limiter image => exact h.allocateMemory (hclear os rfl)
  | pushInstance => exact h.pushInstance
  | dropPending => exact h.dropPending
  | newShared os ty => exact h.newShared (hclear os rfl)
  | importShared id => exact h.importShared id
  | dropShared id => exact h.dropShared id
  | growOwned k j op => exact h.growOwned (hclear op.os rfl) k j
  | growShared id op => exact h.growShared (hclear op.os rfl) id

theorem empty_inv (tunables : Tunables) : (empty : Store p).Inv tunables := by
  refine ⟨⟨fun m hm => ?_, List.Pairwise.nil⟩, fun r hr => ?_⟩
  · cases hm
  · cases hr

theorem run_inv {tr : List (Op p)} (h : Trace (Step tunables) empty tr s) : s.Inv tunables :=
  h.invariant (empty_inv tunables) fun _ _ _ hs hstep => hs.step hstep

/-! ### The search -/

def report (addr : Nat) (m : LocalMemory p) : WasmFault := ⟨m.alloc.len, addr - m.alloc.base⟩

def found (s : Store p) (addr : Nat) (r : RuntimeMemory p) : List WasmFault :=
  match s.resolve r with
  | some m => if Covers m addr then [report addr m] else []
  | none => []

theorem resolve_live {r : RuntimeMemory p} (hr : r ∈ s.instances.flatten)
    (h : s.resolve r = some m) : m ∈ s.live := by
  cases r with
  | owned m' =>
    cases h
    refine mem_append_left _ (mem_filterMap.2 ⟨_, mem_append_left _ hr, rfl⟩)
  | shared id =>
    have h' : s.shared[id]? = some (some m) := by
      simpa [resolve, join_eq_some_iff] using h
    exact mem_append_right _ (mem_filterMap.2 ⟨_, mem_of_getElem? h', rfl⟩)

theorem Inv.probe_run (h : s.Inv tunables) {r : RuntimeMemory p} (hr : r ∈ s.instances.flatten)
    (addr : Nat) : probe addr r s = (oneOf oneFault (s.found addr r), s) := by
  obtain ⟨m, hm⟩ := isSome_iff_exists.1 (h.resolved r (mem_append_left _ hr))
  have hok := h.sound.ok m (resolve_live hr hm)
  have hacc : (m.wasmAccessible : Prog (Store p) String (Nat × Nat)) s = (.ok (m.alloc.base,
      m.alloc.base + max m.alloc.capacity m.memoryReservation + m.memoryGuardSize), s) := by
    unfold LocalMemory.wasmAccessible
    rw [run_bind_ok (hok.alloc.byteCapacity s)]
    rfl
  unfold probe
  rw [run_get_bind, run_bind_ok (unwrap_ok.2 ⟨hm, rfl⟩), run_bind_ok hacc]
  simp only [found, hm]
  by_cases hc : Covers m addr
  · rw [if_pos hc]
    exact congrFun (if_pos hc) s
  · rw [if_neg hc]
    exact congrFun (if_neg hc) s

theorem Inv.search_run (h : s.Inv tunables) {addr : Nat} :
    (s.instances.foldlM (fun fault memories => instanceFault addr memories >>=
      keepOne oneFault fault) none : Prog (Store p) String (Option WasmFault)) s =
      (oneOf oneFault (s.instances.flatten.flatMap (s.found addr)), s) := by
  rw [foldlM_keepOne (v := fun mems => mems.flatMap (s.found addr))]
  · rw [← flatMap_id', flatMap_assoc]
  · intro mems hmems
    exact foldlM_keepOne fun r hr => h.probe_run (mem_flatten.2 ⟨mems, hmems, hr⟩) addr

theorem Inv.unique (h : s.Inv tunables) {r r' : RuntimeMemory p} {addr : Nat}
    (hr : r ∈ s.instances.flatten) (hr' : r' ∈ s.instances.flatten) (hm : s.resolve r = some m)
    (hm' : s.resolve r' = some m') (hc : Covers m addr) (hc' : Covers m' addr) : r = r' := by
  have hlive := resolve_live hr hm
  have hlive' := resolve_live hr' hm'
  have happ : ¬ Apart m m' := hc.not_apart hc' (h.sound.ok m hlive) (h.sound.ok m' hlive')
  have hpair := h.sound.apart
  obtain ⟨-, hsh, hmix⟩ := pairwise_append.1 hpair
  have howned : ∀ {x : LocalMemory p}, RuntimeMemory.owned x ∈ s.instances.flatten →
      x ∈ owned (s.instances.flatten ++ s.pending) := fun hx =>
    mem_filterMap.2 ⟨_, mem_append_left _ hx, rfl⟩
  have hshared : ∀ {id : Nat} {x : LocalMemory p}, s.resolve (.shared id) = some x →
      s.shared[id]? = some (some x) := fun hx => by
    simpa [resolve, join_eq_some_iff] using hx
  by_contra hne
  refine happ ?_
  cases r with
  | owned a =>
    cases hm
    cases r' with
    | owned b =>
      cases hm'
      exact h.sound.apart.forall hlive hlive' fun heq => hne (by rw [heq])
    | shared id =>
      exact hmix _ (howned hr) _ (mem_filterMap.2 ⟨_, mem_of_getElem? (hshared hm'), rfl⟩)
  | shared id =>
    cases r' with
    | owned b =>
      cases hm'
      exact (hmix _ (howned hr') _ (mem_filterMap.2 ⟨_, mem_of_getElem? (hshared hm), rfl⟩)).symm
    | shared id' =>
      have hidx := pairwise_iff_getElem.1 (pairwise_filterMap.1 hsh)
      obtain ⟨hlt, h1⟩ := List.getElem?_eq_some_iff.1 (hshared hm)
      obtain ⟨hlt', h2⟩ := List.getElem?_eq_some_iff.1 (hshared hm')
      rcases Nat.lt_trichotomy id id' with hlt1 | heq | hlt1
      · exact hidx id id' hlt hlt' hlt1 _ h1 _ h2
      · exact absurd (by rw [heq]) hne
      · exact (hidx id' id hlt' hlt hlt1 _ h2 _ h1).symm

theorem Inv.count_owned (h : s.Inv tunables) {addr : Nat}
    (hr : .owned m ∈ s.instances.flatten) (hc : Covers m addr) :
    s.instances.flatten.count (.owned m) = 1 := by
  have hok := h.sound.ok m (resolve_live hr rfl)
  have hpair := h.sound.apart
  have hflat := pairwise_filterMap.1 (pairwise_append.1 hpair).1
  have hpos := count_pos_iff.2 hr
  by_contra hne
  have htwo : 2 ≤ s.instances.flatten.count (.owned m) := by omega
  have hsub := (replicate_sublist_iff.2 htwo).trans
    (sublist_append_left s.instances.flatten s.pending)
  have := (pairwise_cons.1 (hflat.sublist hsub)).1 (.owned m) (by simp) m rfl m rfl
  exact hc.not_apart hc hok hok this

/-- **Faults are attributed.** In a store that has come about in any way, a fault at an address that
a memory of one of its instances reserves or guards is reported as one of this memory, if
and only if the memory is attached once. A memory that is not shared is. -/
theorem fault_attributed (tunables : Tunables) {s : Store p} {tr : List (Op p)}
    (hrun : Trace (Step tunables) empty tr s) :
    (∀ r ∈ s.instances.flatten, ∀ m, s.resolve r = some m → ∀ addr, Covers m addr →
      (wasmFault addr s = (.ok (some ⟨m.alloc.len, addr - m.alloc.base⟩), s) ↔
        s.instances.flatten.count r = 1) ∧
      (r = .owned m → s.instances.flatten.count r = 1)) ∧
    ∀ addr ≤ sizeOfVmFuncRef, wasmFault addr s = (.ok none, s) := by
  have h := run_inv hrun
  refine ⟨fun r hr m hm addr hc => ⟨?_, fun hown => ?_⟩, fun addr hle => ?_⟩
  · have hok := h.sound.ok m (resolve_live hr hm)
    have hlarge : ¬ addr ≤ sizeOfVmFuncRef := by
      have := hok.alloc.start
      have := (hc.in_mapping hok).1
      simp only [sizeOfVmFuncRef]
      omega
    have hfound : s.instances.flatten.flatMap (s.found addr) =
        List.replicate (s.instances.flatten.count r) (report addr m) := by
      refine flatMap_eq_replicate fun x hx => ?_
      obtain ⟨m', hm'⟩ := isSome_iff_exists.1 (h.resolved x (mem_append_left _ hx))
      simp only [found, hm']
      by_cases hxr : x = r
      · subst hxr
        obtain rfl : m = m' := some.inj (hm.symm.trans hm')
        simp [hc]
      · rw [if_neg hxr, if_neg fun hc' => hxr (h.unique hx hr hm' hm hc' hc)]
    unfold wasmFault
    rw [if_neg hlarge, run_get_bind, run_bind, h.search_run, hfound]
    rw [← oneOf_replicate (ε := String) (p := oneFault) (f := report addr m)]
    rcases s.instances.flatten.count r with _ | _ | n <;> simp [oneOf, replicate_succ, report]
  · subst hown
    exact h.count_owned hr hc
  · unfold wasmFault
    rw [if_pos hle]
    rfl

def sharedType : Memory where
  idxType := .i32
  limits := { min := 1, max := some 2 }
  shared := true
  pageSizeLog2 := 16
  page_ok := Memory.pageSize_standard
  min_lt := by decide
  max_lt := by simp [u64Size]
  min_ok := by decide
  max_ok := by simp [IndexType.size]

def imported (n : Nat) : Store 12 := (List.replicate n (Op.importShared 0)).foldl (next .defaultU64)
    (next .defaultU64 empty (.newShared plainOs sharedType))

theorem imported_run (n : Nat) : Trace (Step .defaultU64) empty
    (.newShared plainOs sharedType :: List.replicate n (.importShared 0)) (imported n) := by
  refine Trace.cons ⟨(fun os _ len a _ m hm => nomatch hm), rfl⟩ ?_
  unfold imported
  generalize next .defaultU64 empty (.newShared plainOs sharedType) = s
  induction n generalizing s with
  | zero => exact .nil s
  | succ n ih => exact Trace.cons ⟨(fun _ h => nomatch h), rfl⟩ (ih _)

theorem fault_attributed_imported :
    ∃ m, (imported 1).resolve (.shared 0) = some m ∧
      wasmFault (m.alloc.base + m.alloc.len) (imported 1) =
        (.ok (some ⟨m.alloc.len, m.alloc.base + m.alloc.len - m.alloc.base⟩), imported 1) := by
  have hany : ((imported 1).resolve (.shared 0)).any
      (fun m => decide (Covers m (m.alloc.base + m.alloc.len))) = true := by decide +kernel
  obtain ⟨m, hm, hc⟩ := (any_eq_true _ _).1 hany
  refine ⟨m, hm, (((fault_attributed .defaultU64 (imported_run 1)).1 (.shared 0)
    (by decide +kernel) m hm _ (of_decide_eq_true hc)).1).2 (by decide +kernel)⟩

/-- The same memory imported once more: the search finds it twice and panics. -/
theorem imported_twice_panics :
    Trace (Step .defaultU64) (empty : Store 12)
      [.newShared plainOs sharedType, .importShared 0, .importShared 0] (imported 2) ∧
    ∃ m, (imported 2).resolve (.shared 0) = some m ∧
      .shared 0 ∈ (imported 2).instances.flatten ∧ Covers m (m.alloc.base + m.alloc.len) ∧
      (wasmFault (m.alloc.base + m.alloc.len) (imported 2)).1.isPanic = true := by
  refine ⟨imported_run 2, ?_⟩
  have hany : ((imported 2).resolve (.shared 0)).any
      (fun m => decide (Covers m (m.alloc.base + m.alloc.len)) &&
        (wasmFault (m.alloc.base + m.alloc.len) (imported 2)).1.isPanic) = true := by
    decide +kernel
  obtain ⟨m, hm, hc⟩ := (any_eq_true _ _).1 hany
  rw [Bool.and_eq_true, decide_eq_true_eq] at hc
  exact ⟨m, hm, by decide +kernel, hc.1, hc.2⟩

end Store

end Wasmtime.Vm
