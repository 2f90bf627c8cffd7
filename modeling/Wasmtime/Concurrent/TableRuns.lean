import Wasmtime.Base.Forest
import Wasmtime.Base.FreeList
import Wasmtime.Base.Word
import Wasmtime.Concurrent.Table

/-!
# Runs of a table

`ResourceTable` of `resource_table.rs` is the same slab as `Table`, without debug mode: its
operations are in the namespace `Host`. There a parent is given to an entry only when it is pushed,
and the checks on the lists of children are debug assertions.

`Sound`: parents and children form a forest, and the free list visits every free cell once.
`Table::add_child` does not look at what is above the parent it is given: `Op.Grounded` is what its
caller has to see to, and `table_structured` says that nothing else is needed.
-/

namespace Wasmtime.Concurrent.Table

open Base Prog Relation
open List hiding next

variable {α β : Type} {t t' : Table α} {key : Nat} {build : Build}

/-! ### The host's table -/

namespace Host

/-- `TableEntry::add_child`. -/
def insertChild (build : Build) (key child : Nat) : Prog (Table α) TableError Unit := do
  let e ← occupied key
  debugAssert build (decide (child ∉ e.children)) (.assert "!self.children.contains(&child)")
  Prog.modify (fun t => t.setEntry key { e with children := e.children.insert child })

/-- `TableEntry::remove_child`. -/
def eraseChild (build : Build) (key child : Nat) : Prog (Table α) TableError Unit := do
  let e ← occupied key
  Prog.modify (fun t => t.setEntry key { e with children := e.children.erase child })
  debugAssert build (decide (child ∈ e.children)) (.assert "was_removed")

def pushChild (build : Build) (a : α) (parent : Nat) : Prog (Table α) TableError Nat := do
  let _ ← occupied parent
  let child ← push_ { entry := some a, parent := some parent, children := [] }
  insertChild build parent child
  pure child

def deleteEntry (build : Build) (key : Nat) : Prog (Table α) TableError (TableEntry α) := do
  let e ← occupied key
  if e.children ≠ [] then
    Prog.err .hasChildren
  else
    let e ← freeEntry key
    match e.parent with
    | none => pure e
    | some parent => do
      expect (eraseChild build parent key) (.unwrap "missing parent")
      pure e

/-- `owned` is the state of the handle that is given up. -/
def delete (build : Build) (owned : Bool) (as : α → Option β) (key : Nat) :
    Prog (Table α) TableError β := do
  debugAssert build owned (.assert "resource.owned()")
  let e ← deleteEntry build key
  orErr (e.entry.bind as) .wrongType

def iterChildren (parent : Nat) : Prog (Table α) TableError (List (Option α)) := do
  let e ← occupied parent
  let t ← Prog.get
  unwrap (e.children.mapM fun child => (t.occupied? child).map TableEntry.entry)
    (.unwrap "missing child")

end Host

/-! ### Cells -/

def link (t : Table α) (i : Nat) : Option (Option Nat) :=
  match t.entries[i]? with
  | some (.free next) => some next
  | _ => none

structure Cells (t : Table α) : Prop where
  cells : FreeCover t.link t.freeHead
  small : t.entries.length ≤ 2 ^ 32

theorem link_eq_some {i : Nat} {next : Option Nat} :
    t.link i = some next ↔ t.entries[i]? = some (.free next) := by
  unfold link
  rcases t.entries[i]? with _ | n | e <;> simp

variable {e : TableEntry α}

theorem link_occupied (h : t.occupied? key = some e) : t.link key = none := by
  unfold occupied? at h
  unfold link
  rcases hk : t.entries[key]? with _ | n | e0
  · rfl
  · rw [hk] at h
    cases h
  · rfl

theorem link_set {i : Nat} {x : Entry α} {fh : Option Nat} {d : Bool}
    (h : i < t.entries.length) (j : Nat) :
    link { entries := t.entries.set i x, freeHead := fh, debug := d } j =
      if j = i then (match x with | .free next => some next | .occupied _ => none)
      else t.link j := by
  unfold link
  by_cases hj : j = i
  · subst hj
    rw [getElem?_set_self h, if_pos rfl]
    cases x <;> rfl
  · rw [getElem?_set_ne (Ne.symm hj), if_neg hj]

theorem Cells.setEntry {e0 : TableEntry α} (h : Cells t) (ho : t.occupied? key = some e0)
    (e : TableEntry α) : Cells (t.setEntry key e) where
  cells := by
    refine h.cells.congr fun j => ?_
    refine (link_set (lt_of_occupied ho) j).trans ?_
    split_ifs with hj
    · rw [hj, link_occupied ho]
    · rfl
  small := by
    unfold Table.setEntry
    rw [length_set]
    exact h.small

def nextKey (t : Table α) : Nat := t.freeHead.getD t.entries.length

def pushed (t : Table α) (e : TableEntry α) : Table α :=
  match t.freeHead with
  | some ix =>
    { t with entries := t.entries.set ix (.occupied e), freeHead := (t.link ix).getD none }
  | none => { t with entries := t.entries ++ [.occupied e], freeHead := none }

theorem Cells.head_free {ix : Nat} (h : Cells t) (hf : t.freeHead = some ix) :
    ∃ next, t.entries[ix]? = some (.free next) ∧ ix < t.entries.length := by
  obtain ⟨next, hn⟩ := (hf ▸ h.cells.freeList).head_free
  rw [link_eq_some] at hn
  exact ⟨next, hn, (List.getElem?_eq_some_iff.1 hn).1⟩

theorem Cells.popFreeList_isPanic (h : Cells t) : (popFreeList t).1.isPanic = false := by
  unfold popFreeList
  rw [run_get_bind]
  cases hf : t.freeHead with
  | none => rfl
  | some ix =>
    obtain ⟨next, hn, -⟩ := h.head_free hf
    dsimp only
    rw [hn]
    rfl

theorem Cells.run_push_ (h : Cells t) (e : TableEntry α) :
    push_ e t = if t.freeHead = none ∧ 2 ^ 32 ≤ t.entries.length then (.err .full, t)
      else (.ok t.nextKey, t.pushed e) := by
  unfold push_ pushed nextKey
  cases hf : t.freeHead with
  | none =>
    have hp : popFreeList t = (.ok none, t) := by
      unfold popFreeList
      rw [run_get_bind, hf]
      rfl
    rw [run_bind_ok hp]
    dsimp only
    rw [run_get_bind]
    by_cases hlen : t.entries.length < 2 ^ 32
    · rw [if_pos hlen, if_neg (fun hfull => absurd hfull.2 (not_le.2 hlen)), run_set_bind, hf]
      rfl
    · rw [if_neg hlen, if_pos ⟨rfl, not_lt.1 hlen⟩]
      rfl
  | some ix =>
    obtain ⟨next, hn, hlt⟩ := h.head_free hf
    have hp : popFreeList t = (.ok (some ix), { t with freeHead := next }) := by
      unfold popFreeList
      rw [run_get_bind, hf]
      dsimp only
      rw [hn]
      rfl
    have hix : decide (ix < 2 ^ 32) = true := decide_eq_true (lt_of_lt_of_le hlt h.small)
    rw [run_bind_ok hp, if_neg (fun hfull => nomatch hfull.1)]
    dsimp only
    rw [run_get_bind, run_set_bind, hix, link_eq_some.2 hn]
    rfl

theorem Cells.pushed (h : Cells t) (hroom : ¬ (t.freeHead = none ∧ 2 ^ 32 ≤ t.entries.length))
    (e : TableEntry α) : Cells (t.pushed e) := by
  unfold Table.pushed
  cases hf : t.freeHead with
  | none =>
    refine ⟨?_, ?_⟩
    · have hcells := h.cells
      rw [hf] at hcells
      refine hcells.congr fun j => ?_
      unfold link
      rcases Nat.lt_trichotomy j t.entries.length with hj | rfl | hj
      · rw [getElem?_append_left hj]
      · simp
      · rw [getElem?_eq_none (by simp; omega), getElem?_eq_none (by omega)]
    · dsimp only
      rw [length_append]
      exact not_lt.1 fun hlen => hroom ⟨hf, Nat.le_of_lt_succ hlen⟩
  | some ix =>
    obtain ⟨next, hn, hlt⟩ := h.head_free hf
    have hnext := link_eq_some.2 hn
    refine ⟨?_, ?_⟩
    · dsimp only
      rw [hnext]
      refine FreeCover.pop (hf ▸ h.cells) hnext ?_ fun j hj => ?_
      · exact (link_set hlt ix).trans (if_pos rfl)
      · exact (link_set hlt j).trans (if_neg hj)
    · dsimp only
      rw [length_set]
      exact h.small

def freed (t : Table α) (ix : Nat) : Table α :=
  if t.debug then t.setEntry ix tombstone
  else { t with entries := t.entries.set ix (.free t.freeHead), freeHead := some ix }

theorem freeEntry_run (h : t.occupied? key = some e) : freeEntry key t = (.ok e, t.freed key) := by
  unfold freeEntry freed
  rw [run_get_bind, h]
  split_ifs <;> rfl

theorem Cells.freed (h : Cells t) (ho : t.occupied? key = some e) : Cells (t.freed key) := by
  unfold Table.freed
  split_ifs with hd
  · exact h.setEntry ho _
  · have hlt := lt_of_occupied ho
    refine ⟨FreeCover.push h.cells (link_occupied ho) ?_ fun j hj => ?_, ?_⟩
    · exact (link_set hlt key).trans (if_pos rfl)
    · exact (link_set hlt j).trans (if_neg hj)
    · dsimp only
      rw [length_set]
      exact h.small

/-! ### Lists of children -/

theorem exists_of_mem_children {child : Nat} (h : child ∈ t.children key) :
    ∃ e, t.occupied? key = some e ∧ child ∈ e.children := by
  unfold children at h
  cases ho : t.occupied? key with
  | none =>
    rw [ho] at h
    cases h
  | some e =>
    rw [ho] at h
    exact ⟨e, rfl, h⟩

theorem children_of_not_occupied (h : t.occupied? key = none) : t.children key = [] := by
  unfold children
  rw [h]
  rfl

theorem eraseChild_run {child : Nat} (ho : t.occupied? key = some e) (h : child ∈ e.children) :
    eraseChild key child t =
        (.ok (), t.setEntry key { e with children := e.children.erase child }) ∧
      Host.eraseChild build key child t =
        (.ok (), t.setEntry key { e with children := e.children.erase child }) := by
  unfold eraseChild Host.eraseChild debugAssert
  simp only [run_bind_ok (occupied_ok.2 ⟨ho, rfl⟩), decide_eq_true h, assert, if_true,
    run_modify_bind, ite_self]
  exact ⟨rfl, rfl⟩

theorem insertChild_run {child : Nat} (ho : t.occupied? key = some e) (h : child ∉ e.children) :
    insertChild key child t = (.ok (), t.setEntry key { e with children := child :: e.children }) ∧
      Host.insertChild build key child t =
        (.ok (), t.setEntry key { e with children := child :: e.children }) := by
  unfold insertChild Host.insertChild debugAssert
  simp only [run_bind_ok (occupied_ok.2 ⟨ho, rfl⟩), decide_eq_true h, assert, if_true,
    ite_self, insert_of_not_mem h]
  exact ⟨rfl, rfl⟩

/-! ### The invariant -/

structure Sound (t : Table α) : Prop where
  forest : Forest t.parent? t.children
  cells : Cells t

theorem occupied_err (h : t.occupied? key = none) : occupied key t = (.err .notPresent, t) := by
  unfold occupied
  rw [run_get_bind, h]
  rfl

theorem occupied_run (h : t.occupied? key = some e) : occupied key t = (.ok e, t) :=
  occupied_ok.2 ⟨h, rfl⟩

theorem Sound.new : Sound (Table.new : Table α) where
  forest := .empty (fun _ => rfl) fun _ => rfl
  cells := ⟨.nil fun _ => rfl, Nat.zero_le _⟩

theorem Sound.deleteEntry_run (h : Sound t) (ho : t.occupied? key = some e) (hc : e.children = [])
    (build : Build) :
    ∃ t', deleteEntry key t = (.ok e, t') ∧ Host.deleteEntry build key t = (.ok e, t') ∧
      Sound t' := by
  obtain ⟨t', hrun, hhost, hcells⟩ : ∃ t', deleteEntry key t = (.ok e, t') ∧
      Host.deleteEntry build key t = (.ok e, t') ∧ Cells t' := by
    have hfree := h.cells.freed ho
    unfold deleteEntry Host.deleteEntry
    simp only [run_bind_ok (occupied_run ho), run_bind_ok (freeEntry_run ho),
      if_neg (not_not_intro hc)]
    cases hp : e.parent with
    | none => exact ⟨_, rfl, rfl, hfree⟩
    | some parent =>
      have hmem : key ∈ t.children parent := by
        rw [h.forest.link, parent?, ho]
        exact hp
      have hne : parent ≠ key := by
        rintro rfl
        rw [children, ho] at hmem
        exact ne_nil_of_mem hmem hc
      have hmem' : key ∈ (t.freed key).children parent := by
        rw [(freeEntry_ok (freeEntry_run ho)).2.2.2, if_neg hne]
        exact hmem
      obtain ⟨e', ho', hin⟩ := exists_of_mem_children hmem'
      obtain ⟨hrun, hhost⟩ : _ ∧ Host.eraseChild build parent key _ = _ := eraseChild_run ho' hin
      refine ⟨(t.freed key).setEntry parent { e' with children := e'.children.erase key },
        ?_, ?_, hfree.setEntry ho' _⟩
      · exact run_bind_ok (expect_ok.2 hrun)
      · exact run_bind_ok (expect_ok.2 hhost)
  obtain ⟨-, -, -, hp, hcs⟩ := deleteEntry_ok hrun
  exact ⟨t', hrun, hhost, h.forest.detach hp hcs, hcells⟩

/-- **Deleting an entry of a sound table.** It fails with `HasChildren` exactly when a child is
left, and never panics. -/
theorem Sound.deleteEntry_cases (h : Sound t) (build : Build) (key : Nat) :
    ∃ o t', deleteEntry key t = (o, t') ∧ Host.deleteEntry build key t = (o, t') ∧ Sound t' ∧
      o.isPanic = false ∧ (o = .err .hasChildren ↔ t.children key ≠ []) := by
  cases ho : t.occupied? key with
  | none =>
    refine ⟨.err .notPresent, t, ?_, ?_, h, rfl, ?_⟩
    · exact run_bind_err (occupied_err ho)
    · exact run_bind_err (occupied_err ho)
    · exact iff_of_false (by simp) fun hne => hne (children_of_not_occupied ho)
  | some e =>
    have hch : t.children key = e.children := by
      rw [children, ho]
      rfl
    by_cases hc : e.children = []
    · obtain ⟨t', hrun, hhost, hsound⟩ := h.deleteEntry_run ho hc build
      refine ⟨.ok e, t', hrun, hhost, hsound, rfl, ?_⟩
      exact iff_of_false (by simp) fun hne => hne (hch.trans hc)
    · refine ⟨.err .hasChildren, t, ?_, ?_, h, rfl, iff_of_true rfl (hch ▸ hc)⟩
      · exact (run_bind_ok (occupied_run ho)).trans (by rw [if_pos hc]; rfl)
      · exact (run_bind_ok (occupied_run ho)).trans (by rw [if_pos hc]; rfl)

theorem Sound.push {a : α} (h : Sound t) (hp : push a t = (.ok key, t')) (hc : Cells t') :
    Sound t' := by
  obtain ⟨-, -, hparent, hchildren⟩ := push_ok hp
  exact ⟨h.forest.congr hparent hchildren, hc⟩

theorem Sound.not_mem_of_not_occupied {c : Nat} (h : Sound t) (hc : t.occupied? c = none) :
    c ∉ t.children key := by
  intro hmem
  have hp := (h.forest.link c key).1 hmem
  rw [parent?, hc] at hp
  cases hp

theorem Sound.pushChild_cases (h : Sound t) (build : Build) (a : α) (parent : Nat) :
    (∃ c t', Host.pushChild build a parent t = (.ok c, t') ∧ Sound t') ∨
      ∃ e, Host.pushChild build a parent t = (.err e, t) := by
  unfold Host.pushChild
  cases ho : t.occupied? parent with
  | none => exact .inr ⟨_, run_bind_err (occupied_err ho)⟩
  | some e =>
    rw [run_bind_ok (occupied_run ho)]
    have hrun := h.cells.run_push_ { entry := some a, parent := some parent, children := [] }
    split_ifs at hrun with hfull
    · exact .inr ⟨_, run_bind_err hrun⟩
    · left
      rw [run_bind_ok hrun]
      obtain ⟨hnew, -, hocc⟩ := occupied_push_ hrun
      have hcells := h.cells.pushed hfull { entry := some a, parent := some parent, children := [] }
      generalize t.nextKey = c at *
      generalize t.pushed _ = t1 at *
      have hne : parent ≠ c := by
        rintro rfl
        cases ho.symm.trans hnew
      have ho1 : t1.occupied? parent = some e := by rw [hocc, if_neg hne, ho]
      have hnot : c ∉ e.children := by
        have hmem : c ∉ t.children parent := h.not_mem_of_not_occupied hnew
        simpa [children, ho] using hmem
      have hins : Host.insertChild build parent c _ = _ := (insertChild_run ho1 hnot).2
      rw [run_bind_ok hins]
      refine ⟨c, _, rfl, ?_, hcells.setEntry ho1 _⟩
      have hbelow := h.forest.not_above_new (children_of_not_occupied hnew) hne
      refine h.forest.attach ?_ hbelow (fun j => ?_) fun j => ?_
      · rw [parent?, hnew]
        rfl
      all_goals
        by_cases hj : j = parent
        · subst hj
          simp [parent?, children, occupied?_setEntry ho1, ho, hne]
        · by_cases hjc : j = c
          · subst hjc
            simp [parent?, children, occupied?_setEntry ho1, hocc, hj, hnew]
          · simp [parent?, children, occupied?_setEntry ho1, hocc, hj, hjc]

variable {child parent : Nat}

theorem Sound.addChild {u : Unit} (h : Sound t)
    (hnot : ¬ ReflTransGen (Edge t.parent?) parent child)
    (hadd : addChild child parent t = (.ok u, t')) : Sound t' := by
  obtain ⟨-, hroot, -, hp, hc⟩ := addChild_ok hadd
  refine ⟨h.forest.attach hroot hnot hp hc, ?_⟩
  simp only [Table.addChild, insertChild, bind_ok, occupied_ok, assert_ok, modify_ok] at hadd
  obtain ⟨e, _, ⟨he, rfl⟩, _, _, ⟨_, rfl⟩, _, _, rfl, e', _, ⟨he', rfl⟩, _, _, ⟨_, rfl⟩, rfl⟩ := hadd
  exact (h.cells.setEntry he _).setEntry he' _

theorem Sound.removeChild {u : Unit} (h : Sound t)
    (hrem : removeChild child parent t = (.ok u, t')) : Sound t' := by
  obtain ⟨-, hpar, hp, hc⟩ := removeChild_ok hrem
  refine ⟨h.forest.detach hp fun j => ?_, ?_⟩
  · rw [hc, hpar]
    by_cases hj : j = parent
    · rw [if_pos hj, if_pos (congrArg some hj.symm), hj]
    · rw [if_neg hj, if_neg fun heq => hj (Option.some.inj heq).symm]
  simp only [Table.removeChild, eraseChild, bind_ok, occupied_ok, assert_ok, modify_ok] at hrem
  obtain ⟨e, _, ⟨he, rfl⟩, _, _, ⟨_, rfl⟩, _, _, rfl, e', _, ⟨he', rfl⟩, _, _, ⟨_, rfl⟩, rfl⟩ := hrem
  exact (h.cells.setEntry he _).setEntry he' _

theorem occupied?_setEntry_ne_none {e0 e : TableEntry α} {j : Nat}
    (h : t.occupied? key = some e0) (hj : t.occupied? j ≠ none) :
    (t.setEntry key e).occupied? j ≠ none := by
  rw [occupied?_setEntry h]
  split_ifs
  · exact Option.some_ne_none e
  · exact hj

/-- A refused `add_child` has written the parent, unless the child is not there. -/
theorem addChild_err {x : TableError} (h : addChild child parent t = (.err x, t')) :
    (t.occupied? child = none ∧ t' = t) ∨ ∃ e, t.occupied? child = some e ∧ e.parent = none ∧
      t.occupied? parent = none ∧ t' = t.setEntry child { e with parent := some parent } := by
  unfold addChild at h
  cases ho : t.occupied? child with
  | none =>
    rw [run_bind_err (occupied_err ho)] at h
    cases h
    exact .inl ⟨rfl, rfl⟩
  | some e =>
    right
    rw [run_bind_ok (occupied_run ho)] at h
    by_cases hp : e.parent = none
    · rw [assert, if_pos (decide_eq_true hp), run_pure_bind, run_modify_bind] at h
      cases hpar : (t.setEntry child { e with parent := some parent }).occupied? parent with
      | none =>
        rw [insertChild, run_bind_err (occupied_err hpar)] at h
        cases h
        refine ⟨e, rfl, hp, ?_, rfl⟩
        by_contra hne
        exact occupied?_setEntry_ne_none ho hne hpar
      | some e' =>
        rw [insertChild, run_bind_ok (occupied_run hpar), assert] at h
        split at h <;> cases h
    · rw [assert, if_neg (by simpa using hp)] at h
      cases h

theorem removeChild_err {x : TableError} (h : removeChild child parent t = (.err x, t')) :
    (t.occupied? child = none ∧ t' = t) ∨ ∃ e, t.occupied? child = some e ∧
      e.parent = some parent ∧ t.occupied? parent = none ∧
        t' = t.setEntry child { e with parent := none } := by
  unfold removeChild at h
  cases ho : t.occupied? child with
  | none =>
    rw [run_bind_err (occupied_err ho)] at h
    cases h
    exact .inl ⟨rfl, rfl⟩
  | some e =>
    right
    rw [run_bind_ok (occupied_run ho)] at h
    by_cases hp : e.parent = some parent
    · rw [assert, if_pos (decide_eq_true hp), run_pure_bind, run_modify_bind] at h
      cases hpar : (t.setEntry child { e with parent := none }).occupied? parent with
      | none =>
        rw [eraseChild, run_bind_err (occupied_err hpar)] at h
        cases h
        refine ⟨e, rfl, hp, ?_, rfl⟩
        by_contra hne
        exact occupied?_setEntry_ne_none ho hne hpar
      | some e' =>
        rw [eraseChild, run_bind_ok (occupied_run hpar), assert] at h
        split at h <;> cases h
    · rw [assert, if_neg (by simpa using hp)] at h
      cases h

theorem get_state (as : α → Option β) (key : Nat) (t : Table α) :
    (get as key t).2 = t ∧ (get as key t).1.isPanic = false := by
  unfold get
  cases ho : t.occupied? key with
  | none =>
    rw [run_bind_err (occupied_err ho)]
    exact ⟨rfl, rfl⟩
  | some e =>
    rw [run_bind_ok (occupied_run ho)]
    cases e.entry.bind as <;> exact ⟨rfl, rfl⟩

/-! ### Runs -/

/-- What is done to a table. `pushChild` and `hostDelete` are the host's, `addChild`,
`removeChild`, `delete` and `enableDebug` those of the tasks' table. -/
inductive Op (α : Type) where
  | push (a : α)
  | get (as : α → Option α) (key : Nat)
  | pushChild (a : α) (parent : Nat)
  | hostDelete (owned : Bool) (as : α → Option α) (key : Nat)
  | addChild (child parent : Nat)
  | removeChild (child parent : Nat)
  | delete (as : α → Option α) (key : Nat)
  | enableDebug (enable : Bool)

def Op.exec (build : Build) : Op α → Prog (Table α) TableError Unit
  | .push a => do
    let _ ← Table.push a
  | .get as key => do
    let _ ← Table.get as key
  | .pushChild a parent => do
    let _ ← Host.pushChild build a parent
  | .hostDelete owned as key => do
    let _ ← Host.delete build owned as key
  | .addChild child parent => Table.addChild child parent
  | .removeChild child parent => Table.removeChild child parent
  | .delete as key => do
    let _ ← Table.delete as key
  | .enableDebug enable => Prog.modify fun t => { t with debug := enable }

def Step (build : Build) (t : Table α) (op : Op α) (t' : Table α) : Prop :=
  ∃ o, op.exec build t = (o, t') ∧ o.isPanic = false

/-- The parent of a new child is there, and it is neither the child nor below it. -/
def Op.Grounded (t : Table α) : Op α → Prop
  | .addChild child parent =>
    (t.occupied? child ≠ none → t.occupied? parent ≠ none) ∧
      ¬ ReflTransGen (Edge t.parent?) parent child
  | _ => True

theorem orErr_state {σ ε γ : Type} {m : Prog σ ε β} {f : β → Option γ} {x : ε} {s s' : σ}
    {o : Outcome ε β} (h : m s = (o, s')) :
    ((do let b ← m; orErr (f b) x : Prog σ ε γ) s).2 = s' ∧
      ((do let b ← m; orErr (f b) x : Prog σ ε γ) s).1.isPanic = o.isPanic := by
  cases o with
  | ok b =>
    rw [run_bind_ok h]
    cases f b <;> exact ⟨rfl, rfl⟩
  | err e =>
    rw [run_bind_err h]
    exact ⟨rfl, rfl⟩
  | panic p =>
    rw [run_bind_panic h]
    exact ⟨rfl, rfl⟩

theorem Sound.delete (h : Sound t) (as : α → Option β) (key : Nat) :
    Sound (delete as key t).2 ∧ (Table.delete as key t).1.isPanic = false := by
  obtain ⟨o, t', hdel, -, hsound, hok, -⟩ := h.deleteEntry_cases ⟨true, true⟩ key
  obtain ⟨hstate, hpanic⟩ := orErr_state (f := fun e : TableEntry α => e.entry.bind as)
    (x := TableError.wrongType) hdel
  exact ⟨hstate ▸ hsound, hpanic.trans hok⟩

theorem debugAssert_cases {σ ε : Type} (build : Build) (c : Bool) (p : Panic) (s : σ) :
    (debugAssert build c p : Prog σ ε Unit) s = (.ok (), s) ∨
      (debugAssert build c p : Prog σ ε Unit) s = (.panic p, s) := by
  unfold debugAssert assert
  cases build.debugAssertions <;> cases c <;> simp

theorem Sound.hostDelete (h : Sound t) (build : Build) (owned : Bool) (as : α → Option β) (key : Nat) :
    Host.delete build owned as key t = Table.delete as key t ∨
      Host.delete build owned as key t = (.panic (.assert "resource.owned()"), t) := by
  unfold Host.delete Table.delete
  rcases debugAssert_cases (ε := TableError) build owned (.assert "resource.owned()") t with hd | hd
  · left
    obtain ⟨o, t', hdel, hhost, -⟩ := h.deleteEntry_cases build key
    rw [run_bind_ok hd, run_bind, run_bind, hdel, hhost]
  · exact .inr (run_bind_panic hd)

theorem Sound.step {op : Op α} (h : Sound t) (hg : op.Grounded t) (hstep : Step build t op t') :
    Sound t' := by
  obtain ⟨o, hexec, hok⟩ := hstep
  cases op with
  | push a =>
    have hrun := h.cells.run_push_ { entry := some a, parent := none, children := [] }
    split_ifs at hrun with hfull
    · cases (run_bind_err hrun).symm.trans hexec
      exact h
    · cases (run_bind_ok hrun).symm.trans hexec
      exact h.push hrun (h.cells.pushed hfull _)
  | get as key =>
    rcases hget : Table.get as key t with ⟨o', t1⟩
    have hstate : t1 = t := (congrArg Prod.snd hget).symm.trans (get_state as key t).1
    cases (run_bind_pure hget fun _ => ()).symm.trans hexec
    exact hstate ▸ h
  | pushChild a parent =>
    rcases h.pushChild_cases build a parent with ⟨c, t1, hrun, hsound⟩ | ⟨e, hrun⟩
    · cases (run_bind_ok hrun).symm.trans hexec
      exact hsound
    · cases (run_bind_err hrun).symm.trans hexec
      exact h
  | hostDelete owned as key =>
    rcases hdel : Host.delete build owned as key t with ⟨o', t1⟩
    cases (run_bind_pure hdel fun _ => ()).symm.trans hexec
    rcases h.hostDelete build owned as key with heq | heq
    · have hsound := (h.delete as key).1
      rwa [← heq, hdel] at hsound
    · cases heq.symm.trans hdel
      cases hok
  | addChild child parent =>
    cases o with
    | ok u => exact h.addChild hg.2 hexec
    | err x =>
      rcases addChild_err hexec with ⟨-, rfl⟩ | ⟨e, ho, -, hpar, -⟩
      · exact h
      · exact absurd hpar (hg.1 (by simp [ho]))
    | panic p => cases hok
  | removeChild child parent =>
    cases o with
    | ok u => exact h.removeChild hexec
    | err x =>
      rcases removeChild_err hexec with ⟨-, rfl⟩ | ⟨e, ho, hp, hpar, -⟩
      · exact h
      -- The child is on its parent's list, so the parent is there.
      · have hmem : child ∈ t.children parent := by
          rw [h.forest.link, parent?, ho]
          exact hp
        rw [children_of_not_occupied hpar] at hmem
        cases hmem
    | panic p => cases hok
  | delete as key =>
    rcases hdel : Table.delete as key t with ⟨o', t1⟩
    cases (run_bind_pure hdel fun _ => ()).symm.trans hexec
    have hsound := (h.delete as key).1
    rwa [hdel] at hsound
  | enableDebug enable =>
    cases hexec
    exact ⟨h.forest, h.cells.cells, h.cells.small⟩

/-- **The structure of a table, and what it is needed for.** -/
structure Structured (build : Build) (t : Table α) : Prop where
  links : ∀ c p, c ∈ t.children p ↔ t.parent? c = some p ∧ t.occupied? p ≠ none
  acyclic : ∀ c, ¬ TransGen (Edge t.parent?) c c
  cells : FreeCover t.link t.freeHead
  hasChildren : ∀ (as : α → Option α) key, (delete as key t).1 = .err .hasChildren ↔
    ∃ c, t.parent? c = some key
  hostHasChildren : ∀ (as : α → Option α) key,
    (Host.delete build true as key t).1 = .err .hasChildren ↔ ∃ c, t.parent? c = some key
  deleteEntry : ∀ key, (deleteEntry key t).1.isPanic = false
  hostDeleteEntry : ∀ key, (Host.deleteEntry build key t).1.isPanic = false
  iterChildren : ∀ key, (Host.iterChildren key t).1.isPanic = false
  popFreeList : (popFreeList t).1.isPanic = false

theorem Sound.hasChildren (h : Sound t) (as : α → Option β) (key : Nat) :
    (Table.delete as key t).1 = .err .hasChildren ↔ ∃ c, t.parent? c = some key := by
  have hlive : t.children key ≠ [] ↔ ∃ c, t.parent? c = some key := by
    constructor
    · intro hne
      obtain ⟨c, hc⟩ := exists_mem_of_ne_nil _ hne
      exact ⟨c, (h.forest.link c key).1 hc⟩
    · rintro ⟨c, hc⟩
      exact ne_nil_of_mem ((h.forest.link c key).2 hc)
  obtain ⟨o, t', hdel, -, -, hok, hiff⟩ := h.deleteEntry_cases ⟨true, true⟩ key
  rw [← hlive, ← hiff]
  unfold Table.delete
  cases o with
  | ok e =>
    rw [run_bind_ok hdel]
    cases e.entry.bind as <;> simp [orErr]
  | err x =>
    rw [run_bind_err hdel]
    simp
  | panic p => cases hok

theorem Sound.iterChildren (h : Sound t) (key : Nat) :
    (Host.iterChildren key t).1.isPanic = false := by
  unfold Host.iterChildren
  cases ho : t.occupied? key with
  | none =>
    rw [run_bind_err (occupied_err ho)]
    rfl
  | some e =>
    have hall : ∀ l : List Nat, (∀ c ∈ l, t.occupied? c ≠ none) →
        ∃ vs, l.mapM (fun c => (t.occupied? c).map TableEntry.entry) = some vs := by
      intro l
      induction l with
      | nil => exact fun _ => ⟨[], rfl⟩
      | cons c l ih =>
        intro hl
        obtain ⟨vs, hvs⟩ := ih fun c hc => hl c (mem_cons_of_mem _ hc)
        obtain ⟨x, hx⟩ := Option.ne_none_iff_exists'.1 (hl c mem_cons_self)
        exact ⟨x.entry :: vs, by simp [mapM_cons, hx, hvs]⟩
    obtain ⟨vs, hvs⟩ := hall e.children fun c hc hnone => by
      have hmem : c ∈ t.children key := by
        rw [children, ho]
        exact hc
      exact h.not_mem_of_not_occupied hnone hmem
    rw [run_bind_ok (occupied_run ho), run_get_bind, hvs]
    rfl

theorem Sound.structured (h : Sound t) (build : Build) : Structured build t where
  links := by
    intro c p
    rw [h.forest.link]
    refine ⟨fun hp => ⟨hp, fun hnone => ?_⟩, And.left⟩
    have hmem := (h.forest.link c p).2 hp
    rw [children_of_not_occupied hnone] at hmem
    cases hmem
  acyclic := h.forest.acyclic
  cells := h.cells.cells
  hasChildren := h.hasChildren
  hostHasChildren := by
    intro as key
    rw [← h.hasChildren as key]
    rcases h.hostDelete build true as key with heq | heq
    · rw [heq]
    -- The handle is an owned one, so that the debug assertion holds.
    · unfold Host.delete debugAssert assert at heq
      simp only [if_true, ite_self, run_pure_bind] at heq
      obtain ⟨o, t', -, hhost, -, hok, -⟩ := h.deleteEntry_cases build key
      have hpanic := (orErr_state (f := fun e : TableEntry α => e.entry.bind as)
        (x := TableError.wrongType) hhost).2
      rw [heq, hok] at hpanic
      cases hpanic
  deleteEntry := by
    intro key
    obtain ⟨o, t', hdel, -, -, hok, -⟩ := h.deleteEntry_cases build key
    rw [hdel]
    exact hok
  hostDeleteEntry := by
    intro key
    obtain ⟨o, t', -, hhost, -, hok, -⟩ := h.deleteEntry_cases build key
    rw [hhost]
    exact hok
  iterChildren := h.iterChildren
  popFreeList := h.cells.popFreeList_isPanic

/-- **Parents and children form a forest, and the free list holds every free cell.** -/
theorem table_structured {tr : List (Op α)}
    (h : Trace (fun t op t' => op.Grounded t ∧ Step build t op t') Table.new tr t) :
    Structured build t := by
  have hsound : Sound t :=
    Trace.invariant Sound.new (fun _ _ _ hs hstep => hs.step hstep.1 hstep.2) h
  exact hsound.structured build

/-- A child that was refused has no parent to be taken off, and an entry can be put under
itself. -/
theorem missing_parent_panics :
    (∃ (tr : List (Op Unit)) (t : Table Unit), Trace (Step ⟨false, false⟩) Table.new tr t ∧
      t.parent? 0 = some 1 ∧ t.children 1 = [] ∧ (deleteEntry 0 t).1.isPanic = true) ∧
    ∃ (tr : List (Op Unit)) (t : Table Unit), Trace (Step ⟨false, false⟩) Table.new tr t ∧
      TransGen (Edge t.parent?) 0 0 :=
  ⟨⟨[.push (), .addChild 0 1], _, .cons ⟨_, rfl, rfl⟩ (.cons ⟨_, rfl, rfl⟩ (.nil _)), rfl, rfl, rfl⟩,
    ⟨[.push (), .addChild 0 0], _, .cons ⟨_, rfl, rfl⟩ (.cons ⟨_, rfl, rfl⟩ (.nil _)), .single rfl⟩⟩

theorem table_structured_family : ∃ (tr : List (Op Unit)) (t : Table Unit),
    Trace (fun t op t' => op.Grounded t ∧ Step ⟨true, true⟩ t op t') Table.new tr t ∧
      t.children 0 = [2, 1] ∧ Structured ⟨true, true⟩ t := by
  have htr : ∃ t : Table Unit, Trace (fun t op t' => op.Grounded t ∧ Step ⟨true, true⟩ t op t')
      Table.new [.push (), .pushChild () 0, .push (), .addChild 2 0] t ∧ t.children 0 = [2, 1] := by
    refine ⟨_, .cons ⟨trivial, _, rfl, rfl⟩ (.cons ⟨trivial, _, rfl, rfl⟩
      (.cons ⟨trivial, _, rfl, rfl⟩ (.cons ⟨⟨fun _ => by decide, ?_⟩, _, rfl, rfl⟩ (.nil _)))), rfl⟩
    intro hup
    rcases ReflTransGen.cases_head hup with heq | ⟨b, hb, -⟩
    · cases heq
    · cases hb
  obtain ⟨t, htr, hch⟩ := htr
  exact ⟨_, t, htr, hch, table_structured htr⟩

end Wasmtime.Concurrent.Table
