import Mathlib.Data.List.Pairwise
import Mathlib.Order.Defs.LinearOrder
import Mathlib.Tactic

/-!
# Ordered maps

A map whose entries are kept in the order of their keys, with the operations of a B-tree map:
insertion and removal, the neighbours of a key, and the first entry with a property. The
lemmas say what each operation does to the entries as a set; a program that uses a map is
verified with them and never looks at the list.
-/

namespace Base

open List

structure SortedMap (κ α : Type) [LinearOrder κ] where
  entries : List (κ × α)
  sorted : entries.Pairwise (fun a b => a.1 < b.1)

namespace SortedMap

variable {κ α : Type} [LinearOrder κ] {m : SortedMap κ α} {k : κ} {v : α} {e e' : κ × α}

instance : Membership (κ × α) (SortedMap κ α) := ⟨fun m e => e ∈ m.entries⟩

theorem mem_def : e ∈ m ↔ e ∈ m.entries := Iff.rfl

instance [DecidableEq α] (e : κ × α) (m : SortedMap κ α) : Decidable (e ∈ m) :=
  inferInstanceAs (Decidable (e ∈ m.entries))

def empty : SortedMap κ α := ⟨[], List.Pairwise.nil⟩

@[simp] theorem notMem_empty : e ∉ (empty : SortedMap κ α) := not_mem_nil

theorem eq_of_key (h : e ∈ m) (h' : e' ∈ m) (hk : e.1 = e'.1) : e = e' := by
  obtain ⟨entries, sorted⟩ := m
  induction sorted with
  | nil => cases h
  | cons hlt _ ih =>
    rcases mem_cons.1 h with rfl | ht <;> rcases mem_cons.1 h' with rfl | ht'
    · rfl
    · exact absurd hk (hlt _ ht').ne
    · exact absurd hk (hlt _ ht).ne'
    · exact ih ht ht'

/-! ### Insertion and removal -/

def insertList (k : κ) (v : α) : List (κ × α) → List (κ × α)
  | [] => [(k, v)]
  | e :: rest =>
    if k < e.1 then (k, v) :: e :: rest
    else if k = e.1 then (k, v) :: rest
    else e :: insertList k v rest

variable {l : List (κ × α)}

theorem mem_insertList (hl : l.Pairwise (fun a b => a.1 < b.1)) :
    e ∈ insertList k v l ↔ e = (k, v) ∨ e ∈ l ∧ e.1 ≠ k := by
  induction hl with
  | nil => simp [insertList]
  | @cons a rest hlt _ ih =>
    unfold insertList
    split_ifs with h1 h2
    · have hrest : ∀ b ∈ a :: rest, b.1 ≠ k := by
        intro b hb
        rcases mem_cons.1 hb with rfl | hb
        · exact h1.ne'
        · exact (h1.trans (hlt b hb)).ne'
      grind
    · subst h2
      grind
    · simp only [mem_cons, ih]
      grind

theorem sorted_insertList (k : κ) (v : α) (hl : l.Pairwise (fun a b => a.1 < b.1)) :
    (insertList k v l).Pairwise (fun a b => a.1 < b.1) := by
  induction hl with
  | nil => exact pairwise_singleton _ _
  | @cons a rest hlt hrest ih =>
    unfold insertList
    split_ifs with h1 h2
    · refine List.Pairwise.cons (fun b hb => ?_) (List.Pairwise.cons hlt hrest)
      rcases mem_cons.1 hb with rfl | hb
      · exact h1
      · exact h1.trans (hlt b hb)
    · exact List.Pairwise.cons (fun b hb => h2 ▸ hlt b hb) hrest
    · refine List.Pairwise.cons (fun b hb => ?_) ih
      rcases (mem_insertList hrest).1 hb with rfl | hb
      · exact lt_of_le_of_ne (not_lt.1 h1) (Ne.symm h2)
      · exact hlt b hb.1

def insert (m : SortedMap κ α) (k : κ) (v : α) : SortedMap κ α :=
  ⟨insertList k v m.entries, sorted_insertList k v m.sorted⟩

theorem mem_insert : e ∈ m.insert k v ↔ e = (k, v) ∨ e ∈ m ∧ e.1 ≠ k := mem_insertList m.sorted

def erase (m : SortedMap κ α) (k : κ) : SortedMap κ α :=
  ⟨m.entries.filter fun e => decide (e.1 ≠ k), m.sorted.filter _⟩

theorem mem_erase : e ∈ m.erase k ↔ e ∈ m ∧ e.1 ≠ k := by
  simp only [mem_def, erase, mem_filter, decide_eq_true_eq]

/-! ### Neighbours -/

def get? (m : SortedMap κ α) (k : κ) : Option α :=
  (m.entries.find? fun e => decide (e.1 = k)).map (·.2)

def lastBelow (m : SortedMap κ α) (k : κ) : Option (κ × α) :=
  (m.entries.filter fun e => decide (e.1 < k)).getLast?

def firstAbove (m : SortedMap κ α) (k : κ) : Option (κ × α) :=
  m.entries.find? fun e => decide (k < e.1)

def find? (m : SortedMap κ α) (p : κ × α → Bool) : Option (κ × α) := m.entries.find? p

theorem get?_eq_some : m.get? k = some v ↔ (k, v) ∈ m := by
  unfold get?
  rw [Option.map_eq_some_iff]
  constructor
  · rintro ⟨e, he, rfl⟩
    have := List.find?_some he
    rw [decide_eq_true_eq] at this
    exact this ▸ mem_of_find?_eq_some he
  · intro h
    have hsome : (m.entries.find? fun e => decide (e.1 = k)).isSome := by
      rw [find?_isSome]
      exact ⟨(k, v), h, decide_eq_true rfl⟩
    obtain ⟨e, he⟩ := Option.isSome_iff_exists.1 hsome
    have hk := List.find?_some he
    rw [decide_eq_true_eq] at hk
    exact ⟨e, he, congrArg Prod.snd (eq_of_key (mem_of_find?_eq_some he) h hk)⟩

theorem get?_eq_none : m.get? k = none ↔ ∀ v, (k, v) ∉ m := by
  rw [Option.eq_none_iff_forall_ne_some]
  exact forall_congr' fun v => not_congr get?_eq_some

theorem get?_insert (k' : κ) : (m.insert k v).get? k' = if k' = k then some v else m.get? k' := by
  ext w
  rw [get?_eq_some, mem_insert]
  split_ifs with h
  · subst h
    simp [eq_comm]
  · rw [get?_eq_some]
    simp [h]

theorem get?_erase (k' : κ) : (m.erase k).get? k' = if k' = k then none else m.get? k' := by
  ext w
  rw [get?_eq_some, mem_erase]
  split_ifs with h
  · simp [h]
  · rw [get?_eq_some]
    simp [h]

theorem nodup_entries (m : SortedMap κ α) : m.entries.Nodup :=
  m.sorted.imp fun hlt heq => hlt.ne (congrArg Prod.fst heq)

theorem perm_of_get? (h : m.get? k = some v) :
    m.entries.Perm ((k, v) :: (m.erase k).entries) := by
  have hne : ((k, v) :: (m.erase k).entries).Nodup := by
    refine nodup_cons.2 ⟨fun hmem => ?_, (m.erase k).nodup_entries⟩
    exact (mem_erase.1 hmem).2 rfl
  refine (perm_ext_iff_of_nodup m.nodup_entries hne).2 fun e => ?_
  rw [mem_cons, ← mem_def, ← mem_def, mem_erase]
  constructor
  · intro he
    by_cases hk : e.1 = k
    · exact .inl (eq_of_key he (get?_eq_some.1 h) hk)
    · exact .inr ⟨he, hk⟩
  · rintro (rfl | ⟨he, -⟩)
    · exact get?_eq_some.1 h
    · exact he

theorem ext_of_mem {m' : SortedMap κ α} (h : ∀ e, e ∈ m ↔ e ∈ m') : m = m' := by
  have hperm := (perm_ext_iff_of_nodup m.nodup_entries m'.nodup_entries).2 h
  have heq := hperm.eq_of_pairwise (fun a b _ _ h h' => absurd (h.trans h') (lt_irrefl _))
    m.sorted m'.sorted
  cases m
  cases m'
  congr

theorem erase_insert : (m.insert k v).erase k = m.erase k := by
  refine ext_of_mem fun e => ?_
  rw [mem_erase, mem_erase, mem_insert]
  constructor
  · rintro ⟨rfl | he, hk⟩
    · exact absurd rfl hk
    · exact he
  · rintro he
    exact ⟨.inr he, he.2⟩

theorem perm_insert : (m.insert k v).entries.Perm ((k, v) :: (m.erase k).entries) := by
  rw [← erase_insert (v := v)]
  exact perm_of_get? (by rw [get?_insert, if_pos rfl])

theorem erase_of_get?_none (h : m.get? k = none) : m.erase k = m := by
  refine ext_of_mem fun e => ?_
  rw [mem_erase]
  refine ⟨And.left, fun he => ⟨he, fun hk => ?_⟩⟩
  exact get?_eq_none.1 h e.2 (hk ▸ he)

theorem key_le_getLast (hl : l.Pairwise (fun a b => a.1 < b.1)) (hlast : l.getLast? = some e)
    (he : e' ∈ l) : e'.1 ≤ e.1 := by
  obtain ⟨init, rfl⟩ := getLast?_eq_some_iff.1 hlast
  rcases mem_append.1 he with h | h
  · exact ((pairwise_append.1 hl).2.2 e' h e (mem_singleton_self e)).le
  · rw [mem_singleton.1 h]

theorem lastBelow_some (h : m.lastBelow k = some e) :
    e ∈ m ∧ e.1 < k ∧ ∀ e' ∈ m, e'.1 < k → e'.1 ≤ e.1 := by
  have hmem := mem_filter.1 (mem_of_getLast? h)
  refine ⟨hmem.1, of_decide_eq_true hmem.2, fun e' he' hlt => ?_⟩
  exact key_le_getLast (m.sorted.filter _) h (mem_filter.2 ⟨he', decide_eq_true hlt⟩)

theorem lastBelow_none (h : m.lastBelow k = none) : ∀ e ∈ m, ¬ e.1 < k := by
  unfold lastBelow at h
  rw [getLast?_eq_none_iff, filter_eq_nil_iff] at h
  exact fun e he hlt => h e he (decide_eq_true hlt)

variable {p : κ × α → Bool}

/-- What `find?` finds comes before everything else with the property. -/
theorem key_le_of_find? (hl : l.Pairwise (fun a b => a.1 < b.1)) (h : l.find? p = some e)
    (he : e' ∈ l) (hp : p e' = true) : e.1 ≤ e'.1 := by
  obtain ⟨_, before, after, rfl, hbefore⟩ := find?_eq_some_iff_append.1 h
  rcases mem_append.1 he with hb | ha
  · have := hbefore e' hb
    rw [hp] at this
    cases this
  · rcases mem_cons.1 ha with rfl | ha
    · exact le_rfl
    · exact (rel_of_pairwise_cons (pairwise_append.1 hl).2.1 ha).le

theorem firstAbove_some (h : m.firstAbove k = some e) :
    e ∈ m ∧ k < e.1 ∧ ∀ e' ∈ m, k < e'.1 → e.1 ≤ e'.1 := by
  have hk := List.find?_some h
  rw [decide_eq_true_eq] at hk
  exact ⟨mem_of_find?_eq_some h, hk, fun e' he' hlt =>
    key_le_of_find? m.sorted h he' (decide_eq_true hlt)⟩

theorem firstAbove_none (h : m.firstAbove k = none) : ∀ e ∈ m, ¬ k < e.1 := by
  unfold firstAbove at h
  rw [find?_eq_none] at h
  exact fun e he hlt => h e he (decide_eq_true hlt)

theorem find?_some (h : m.find? p = some e) : e ∈ m ∧ p e = true :=
  ⟨mem_of_find?_eq_some h, List.find?_some h⟩

theorem find?_none (h : m.find? p = none) : ∀ e ∈ m, p e = false := by
  unfold find? at h
  rw [find?_eq_none] at h
  exact fun e he => Bool.eq_false_iff.2 (h e he)

end SortedMap

end Base
