import Wasmtime.Base.Prog

/-!
# The table of waitables, waitable sets and tasks

`Table` of `concurrent/table.rs`: a slab of entries, each with an optional parent and a set of
children. An entry with children is not deleted, and deleting a child takes it off its parent's
list. In debug mode a deleted entry leaves a tombstone (`entry := none`).

What the operations do is said through `value?`, `parent?` and `children`; see `push_ok`,
`addChild_ok`, `removeChild_ok` and `delete_ok`.
-/

namespace Wasmtime.Concurrent

open Base Prog

inductive TableError where
  | full
  | notPresent
  | wrongType
  | hasChildren
deriving DecidableEq

structure TableEntry (α : Type) where
  /-- The value; `none` is the `Tombstone` of debug mode. -/
  entry : Option α
  parent : Option Nat
  children : List Nat

inductive Entry (α : Type) where
  | free (next : Option Nat)
  | occupied (entry : TableEntry α)

structure Table (α : Type) where
  entries : List (Entry α)
  freeHead : Option Nat
  debug : Bool

namespace Table

variable {α β : Type}

def new : Table α := { entries := [], freeHead := none, debug := false }

def occupied? (t : Table α) (key : Nat) : Option (TableEntry α) :=
  match t.entries[key]? with
  | some (.occupied e) => some e
  | _ => none

def setEntry (t : Table α) (key : Nat) (e : TableEntry α) : Table α :=
  { t with entries := t.entries.set key (.occupied e) }

def popFreeList : Prog (Table α) TableError (Option Nat) := do
  let t ← Prog.get
  match t.freeHead with
  | none => pure none
  | some ix =>
    match t.entries[ix]? with
    | some (.free next) => do
      Prog.set { t with freeHead := next }
      pure (some ix)
    | some (.occupied _) => Prog.panic (.unreachable "pop_free_list")
    | none => Prog.panic (.bounds "entries")

def push_ (e : TableEntry α) : Prog (Table α) TableError Nat := do
  match ← popFreeList with
  | some free => do
    let t ← Prog.get
    Prog.set (t.setEntry free e)
    assert (decide (free < 2 ^ 32)) (.unwrap "u32::try_from(free)")
    pure free
  | none => do
    let t ← Prog.get
    if t.entries.length < 2 ^ 32 then
      Prog.set { t with entries := t.entries ++ [.occupied e] }
      pure t.entries.length
    else
      err .full

def push (a : α) : Prog (Table α) TableError Nat :=
  push_ { entry := some a, parent := none, children := [] }

def occupied (key : Nat) : Prog (Table α) TableError (TableEntry α) := do
  let t ← Prog.get
  orErr (t.occupied? key) .notPresent

/-- `TableEntry::add_child`. -/
def insertChild (key child : Nat) : Prog (Table α) TableError Unit := do
  let e ← occupied key
  assert (decide (child ∉ e.children)) (.assert "children.insert")
  Prog.modify (fun t => t.setEntry key { e with children := child :: e.children })

/-- `TableEntry::remove_child`. -/
def eraseChild (key child : Nat) : Prog (Table α) TableError Unit := do
  let e ← occupied key
  assert (decide (child ∈ e.children)) (.assert "children.remove")
  Prog.modify (fun t => t.setEntry key { e with children := e.children.erase child })

def addChild (child parent : Nat) : Prog (Table α) TableError Unit := do
  let e ← occupied child
  assert (decide (e.parent = none)) (.assert "entry.parent.is_none()")
  Prog.modify (fun t => t.setEntry child { e with parent := some parent })
  insertChild parent child

def removeChild (child parent : Nat) : Prog (Table α) TableError Unit := do
  let e ← occupied child
  assert (decide (e.parent = some parent)) (.assert "entry.parent == Some(parent)")
  Prog.modify (fun t => t.setEntry child { e with parent := none })
  eraseChild parent child

/-- `get` and `get_mut`: `as` is the downcast to the type asked for. -/
def get (as : α → Option β) (key : Nat) : Prog (Table α) TableError β := do
  let e ← occupied key
  orErr (e.entry.bind as) .wrongType

def tombstone : TableEntry α := { entry := none, parent := none, children := [] }

def freeEntry (ix : Nat) : Prog (Table α) TableError (TableEntry α) := do
  let t ← Prog.get
  match t.occupied? ix with
  | none => Prog.panic (.unreachable "free_entry")
  | some e =>
    if t.debug then
      Prog.set (t.setEntry ix tombstone)
      pure e
    else
      Prog.set { t with entries := t.entries.set ix (.free t.freeHead), freeHead := some ix }
      pure e

def deleteEntry (key : Nat) : Prog (Table α) TableError (TableEntry α) := do
  let e ← occupied key
  if e.children ≠ [] then
    err .hasChildren
  else
    let e ← freeEntry key
    match e.parent with
    | none => pure e
    | some parent => do
      expect (eraseChild parent key) (.unwrap "missing parent")
      pure e

def delete (as : α → Option β) (key : Nat) : Prog (Table α) TableError β := do
  let e ← deleteEntry key
  orErr (e.entry.bind as) .wrongType

/-! ### What the operations do -/

def value? (t : Table α) (key : Nat) : Option α := (t.occupied? key).bind TableEntry.entry

def parent? (t : Table α) (key : Nat) : Option Nat := (t.occupied? key).bind TableEntry.parent

def children (t : Table α) (key : Nat) : List Nat :=
  ((t.occupied? key).map TableEntry.children).getD []

variable {key : Nat} {e : TableEntry α}

theorem lt_of_occupied {t : Table α} (h : t.occupied? key = some e) : key < t.entries.length := by
  unfold occupied? at h
  by_contra hlt
  rw [List.getElem?_eq_none (by omega)] at h
  cases h

theorem occupied?_set (t : Table α) (key : Nat) (x : Entry α) (fh : Option Nat) (d : Bool)
    (h : key < t.entries.length) (j : Nat) :
    occupied? { entries := t.entries.set key x, freeHead := fh, debug := d } j =
      if j = key then (match x with | .occupied e => some e | .free _ => none)
      else t.occupied? j := by
  unfold occupied?
  rw [List.getElem?_set]
  by_cases hj : key = j
  · subst hj
    simp only [if_true, h]
    cases x <;> rfl
  · rw [if_neg hj, if_neg (fun h => hj h.symm)]

theorem occupied?_setEntry {t : Table α} {e0 : TableEntry α} (h : t.occupied? key = some e0)
    (e : TableEntry α) (j : Nat) :
    (t.setEntry key e).occupied? j = if j = key then some e else t.occupied? j :=
  occupied?_set t key (.occupied e) t.freeHead t.debug (lt_of_occupied h) j

variable {t t' : Table α}

@[simp] theorem occupied_ok : occupied key t = (.ok e, t') ↔ t.occupied? key = some e ∧ t' = t :=
  orErr_ok

theorem popFreeList_ok {o : Option Nat} (h : popFreeList t = (.ok o, t')) : (o = none ∧ t' = t) ∨
      ∃ ix next, o = some ix ∧ t.entries[ix]? = some (.free next) ∧
        t' = { t with freeHead := next } := by
  simp only [popFreeList, run_get_bind] at h
  rcases hf : t.freeHead with _ | ix
  · simp only [hf, pure_ok] at h
    exact Or.inl h
  · rcases he : t.entries[ix]? with _ | next | e
    · simp only [hf, he, panic_ok] at h
    · simp only [hf, he, run_set_bind, pure_ok] at h
      exact Or.inr ⟨ix, next, h.1, he, h.2⟩
    · simp only [hf, he, panic_ok] at h

theorem occupied_push_ (h : push_ e t = (.ok key, t')) :
    t.occupied? key = none ∧ key < 2 ^ 32 ∧ ∀ j, t'.occupied? j =
      if j = key then some e else t.occupied? j := by
  simp only [push_, bind_ok] at h
  obtain ⟨o, t1, hp, h⟩ := h
  rcases popFreeList_ok hp with ⟨rfl, rfl⟩ | ⟨ix, next, rfl, he, rfl⟩
  · simp only [run_get_bind] at h
    split at h
    · rename_i hl
      obtain ⟨rfl, rfl⟩ := h
      refine ⟨by simp [occupied?], hl, fun j => ?_⟩
      unfold occupied?
      rcases Nat.lt_trichotomy j t1.entries.length with hj | rfl | hj
      · rw [List.getElem?_append_left hj, if_neg (by omega)]
      · simp
      · rw [List.getElem?_eq_none (by simp; omega), if_neg (by omega),
          List.getElem?_eq_none (by omega)]
    · cases h
  · simp only [run_get_bind, run_set_bind, bind_ok, assert_ok, pure_ok] at h
    obtain ⟨_, _, ⟨hlt, rfl⟩, rfl, rfl⟩ := h
    have hlen : key < t.entries.length := by
      by_contra hn
      rw [List.getElem?_eq_none (by omega)] at he
      cases he
    refine ⟨by simp [occupied?, he], of_decide_eq_true hlt, fun j => ?_⟩
    exact occupied?_set t key _ next t.debug hlen j

theorem push_occupied {a : α} (h : push a t = (.ok key, t')) :
    t.occupied? key = none ∧ key < 2 ^ 32 ∧ ∀ j, t'.occupied? j =
      if j = key then some { entry := some a, parent := none, children := [] }
      else t.occupied? j :=
  occupied_push_ h

section

variable {t t' : Table α} {key : Nat}

theorem push_ok {a : α} (h : push a t = (.ok key, t')) :
    t.occupied? key = none ∧ (∀ j, t'.value? j = if j = key then some a else t.value? j) ∧
      (∀ j, t'.parent? j = t.parent? j) ∧ ∀ j, t'.children j = t.children j := by
  obtain ⟨hn, _, ho⟩ := push_occupied h
  refine ⟨hn, fun j => ?_, fun j => ?_, fun j => ?_⟩
  all_goals
    by_cases hj : j = key
    · subst hj; simp [value?, parent?, children, ho, hn]
    · simp [value?, parent?, children, ho, hj]

variable {u : Unit}

theorem insertChild_ok {child : Nat} (h : insertChild key child t = (.ok u, t')) :
    (∀ j, t'.value? j = t.value? j) ∧ (∀ j, t'.parent? j = t.parent? j) ∧ child ∉ t.children key ∧
      ∀ j, t'.children j = if j = key then child :: t.children key else t.children j := by
  simp only [insertChild, bind_ok, occupied_ok, assert_ok, modify_ok] at h
  obtain ⟨e, _, ⟨he, rfl⟩, _, _, ⟨hc, rfl⟩, rfl⟩ := h
  refine ⟨fun j => ?_, fun j => ?_, by simpa [children, he] using hc, fun j => ?_⟩
  all_goals
    by_cases hj : j = key
    · subst hj; simp [value?, parent?, children, occupied?_setEntry he, he]
    · simp [value?, parent?, children, occupied?_setEntry he, hj]

theorem eraseChild_ok {child : Nat} (h : eraseChild key child t = (.ok u, t')) :
    (∀ j, t'.value? j = t.value? j) ∧ (∀ j, t'.parent? j = t.parent? j) ∧ child ∈ t.children key ∧
      ∀ j, t'.children j = if j = key then (t.children key).erase child else t.children j := by
  simp only [eraseChild, bind_ok, occupied_ok, assert_ok, modify_ok] at h
  obtain ⟨e, _, ⟨he, rfl⟩, _, _, ⟨hc, rfl⟩, rfl⟩ := h
  refine ⟨fun j => ?_, fun j => ?_, by simpa [children, he] using hc, fun j => ?_⟩
  all_goals
    by_cases hj : j = key
    · subst hj; simp [value?, parent?, children, occupied?_setEntry he, he]
    · simp [value?, parent?, children, occupied?_setEntry he, hj]

variable {e : TableEntry α}

theorem setParent_ok (he : t.occupied? key = some e) (p : Option Nat) :
    (∀ j, (t.setEntry key { e with parent := p }).value? j = t.value? j) ∧
      (∀ j, (t.setEntry key { e with parent := p }).parent? j =
        if j = key then p else t.parent? j) ∧
      ∀ j, (t.setEntry key { e with parent := p }).children j = t.children j := by
  refine ⟨fun j => ?_, fun j => ?_, fun j => ?_⟩
  all_goals
    by_cases hj : j = key
    · subst hj; simp [value?, parent?, children, occupied?_setEntry he, he]
    · simp [value?, parent?, children, occupied?_setEntry he, hj]

theorem addChild_ok {child parent : Nat} (h : addChild child parent t = (.ok u, t')) :
    (∀ j, t'.value? j = t.value? j) ∧ t.parent? child = none ∧ child ∉ t.children parent ∧
      (∀ j, t'.parent? j = if j = child then some parent else t.parent? j) ∧
      ∀ j, t'.children j = if j = parent then child :: t.children parent else t.children j := by
  simp only [addChild, bind_ok, occupied_ok, assert_ok, modify_ok] at h
  obtain ⟨e, _, ⟨he, rfl⟩, _, _, ⟨hp, rfl⟩, _, _, rfl, hi⟩ := h
  obtain ⟨h1, h2, h3⟩ := setParent_ok he (some parent)
  obtain ⟨g1, g2, g3, g4⟩ := insertChild_ok hi
  rw [h3] at g3
  refine ⟨fun j => by rw [g1, h1], ?_, g3, fun j => by rw [g2, h2], fun j => by rw [g4, h3, h3]⟩
  simpa [parent?, he] using hp

theorem removeChild_ok {child parent : Nat} (h : removeChild child parent t = (.ok u, t')) :
    (∀ j, t'.value? j = t.value? j) ∧ t.parent? child = some parent ∧
      (∀ j, t'.parent? j = if j = child then none else t.parent? j) ∧
      ∀ j, t'.children j =
        if j = parent then (t.children parent).erase child else t.children j := by
  simp only [removeChild, bind_ok, occupied_ok, assert_ok, modify_ok] at h
  obtain ⟨e, _, ⟨he, rfl⟩, _, _, ⟨hp, rfl⟩, _, _, rfl, hi⟩ := h
  obtain ⟨h1, h2, h3⟩ := setParent_ok he none
  obtain ⟨g1, g2, _, g4⟩ := eraseChild_ok hi
  refine ⟨fun j => by rw [g1, h1], ?_, fun j => by rw [g2, h2], fun j => by rw [g4, h3, h3]⟩
  simpa [parent?, he] using hp

theorem freeEntry_ok (h : freeEntry key t = (.ok e, t')) :
    t.occupied? key = some e ∧ (∀ j, t'.value? j = if j = key then none else t.value? j) ∧
      (∀ j, t'.parent? j = if j = key then none else t.parent? j) ∧
      ∀ j, t'.children j = if j = key then [] else t.children j := by
  simp only [freeEntry, run_get_bind] at h
  rcases ho : t.occupied? key with _ | e0
  · simp only [ho, panic_ok] at h
  · simp only [ho] at h
    split at h
    · simp only [run_set_bind, pure_ok] at h
      obtain ⟨rfl, rfl⟩ := h
      refine ⟨rfl, fun j => ?_, fun j => ?_, fun j => ?_⟩
      all_goals
        by_cases hj : j = key
        · subst hj; simp [value?, parent?, children, occupied?_setEntry ho, tombstone]
        · simp [value?, parent?, children, occupied?_setEntry ho, hj]
    · simp only [run_set_bind, pure_ok] at h
      obtain ⟨rfl, rfl⟩ := h
      have hs := occupied?_set t key (.free t.freeHead) (some key) t.debug (lt_of_occupied ho)
      refine ⟨rfl, fun j => ?_, fun j => ?_, fun j => ?_⟩
      all_goals
        by_cases hj : j = key
        · subst hj; simp [value?, parent?, children, hs]
        · simp [value?, parent?, children, hs, hj]

theorem deleteEntry_ok (h : deleteEntry key t = (.ok e, t')) :
    t.occupied? key = some e ∧ t.children key = [] ∧
      (∀ j, t'.value? j = if j = key then none else t.value? j) ∧
      (∀ j, t'.parent? j = if j = key then none else t.parent? j) ∧
      ∀ j, t'.children j = if t.parent? key = some j then (t.children j).erase key
        else t.children j := by
  simp only [deleteEntry, bind_ok, occupied_ok] at h
  obtain ⟨e0, _, ⟨he, rfl⟩, h⟩ := h
  split at h
  · cases h
  · rename_i t hc
    have hch : t.children key = [] := by simpa [children, he] using hc
    simp only [bind_ok] at h
    obtain ⟨e1, t1, hf, h⟩ := h
    obtain ⟨ho, f1, f2, f3⟩ := freeEntry_ok hf
    have hpar : t.parent? key = e1.parent := by simp [parent?, ho]
    rw [hpar]
    rcases hp : e1.parent with _ | parent
    · simp only [hp, pure_ok] at h
      obtain ⟨rfl, rfl⟩ := h
      refine ⟨ho, hch, f1, f2, fun j => ?_⟩
      rw [f3]
      by_cases hj : j = key
      · subst hj; simp [hch]
      · simp [hj]
    · simp only [hp, bind_ok, expect_ok, pure_ok] at h
      obtain ⟨_, _, hx, rfl, rfl⟩ := h
      obtain ⟨g1, g2, gm, g3⟩ := eraseChild_ok hx
      refine ⟨ho, hch, fun j => by rw [g1, f1], fun j => by rw [g2, f2], fun j => ?_⟩
      rw [g3, f3, f3]
      by_cases hpk : parent = key
      · rw [f3, if_pos hpk] at gm
        simp at gm
      · by_cases hj : j = parent
        · subst hj; simp [hpk]
        · by_cases hjk : j = key
          · subst hjk; simp [hj, hch, Ne.symm hj]
          · simp [hj, hjk, Ne.symm hj]

/-- **Deleting an entry**: it had no children, it is gone, and its parent has lost it. -/
theorem delete_ok {as : α → Option β} {b : β} (h : delete as key t = (.ok b, t')) :
    (t.value? key).bind as = some b ∧ t.children key = [] ∧
      (∀ j, t'.value? j = if j = key then none else t.value? j) ∧
      (∀ j, t'.parent? j = if j = key then none else t.parent? j) ∧
      ∀ j, t'.children j = if t.parent? key = some j then (t.children j).erase key
        else t.children j := by
  simp only [delete, bind_ok, orErr_ok] at h
  obtain ⟨e, _, hd, hb, rfl⟩ := h
  obtain ⟨ho, hrest⟩ := deleteEntry_ok hd
  exact ⟨by simp [value?, ho, hb], hrest⟩

theorem delete_no_panic (as : α → Option β) (h : t.parent? key = none) :
    (delete as key t).1.isPanic = false := by
  unfold delete deleteEntry
  rcases ho : t.occupied? key with _ | e
  · simp [occupied, orErr, ho, run_bind, Outcome.isPanic]
  · have hp : e.parent = none := by simpa [parent?, ho] using h
    have hx : ∃ t', freeEntry key t = (.ok e, t') := by
      unfold freeEntry
      simp only [run_get_bind, ho]
      split
      · exact ⟨_, rfl⟩
      · exact ⟨_, rfl⟩
    obtain ⟨t', hx⟩ := hx
    rw [run_bind]
    simp only [run_bind_ok (occupied_ok.2 ⟨ho, rfl⟩)]
    split_ifs with hc
    · rfl
    · simp only [run_bind_ok hx, hp, run_pure]
      cases e.entry.bind as <;> rfl

end

end Table

end Wasmtime.Concurrent
