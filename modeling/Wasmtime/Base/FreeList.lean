import Mathlib.Tactic

/-!
# Free lists

The free cells of a slab are a list threaded through the cells: `link i = none` if cell `i` is in
use, and `link i = some next` if it is free and points to `next`.

`FreeList link head`: the list from `head` is finite, has no cell twice, and runs through free cells
only. It is kept by `FreeList.pop`, `FreeList.push` and writes to cells in use (`FreeList.congr`).
`FreeCover link head`: and no free cell is missing.
-/

namespace Base

open List

def FreeChain (link : Nat → Option (Option Nat)) : Option Nat → List Nat → Prop
  | head, [] => head = none
  | head, i :: l => head = some i ∧ ∃ next, link i = some next ∧ FreeChain link next l

def FreeList (link : Nat → Option (Option Nat)) (head : Option Nat) : Prop :=
  ∃ l : List Nat, l.Nodup ∧ FreeChain link head l

variable {link link' : Nat → Option (Option Nat)} {head next : Option Nat} {i : Nat}

theorem FreeChain.free : ∀ {l : List Nat} {head : Option Nat}, FreeChain link head l →
    ∀ j ∈ l, link j ≠ none := by
  intro l
  induction l with
  | nil => intro _ _ j hj; simp at hj
  | cons a l ih =>
    rintro head ⟨_, next, hn, hc⟩ j hj
    rcases mem_cons.1 hj with rfl | hj
    · rw [hn]; simp
    · exact ih hc j hj

theorem FreeChain.congr : ∀ {l : List Nat} {head : Option Nat}, FreeChain link head l →
    (∀ j ∈ l, link' j = link j) → FreeChain link' head l := by
  intro l
  induction l with
  | nil => intro _ h _; exact h
  | cons a l ih =>
    rintro head ⟨ha, next, hn, hc⟩ he
    refine ⟨ha, next, ?_, ih hc (fun j hj => he j (mem_cons_of_mem a hj))⟩
    rw [he a mem_cons_self, hn]

namespace FreeList

theorem nil : FreeList link none := ⟨[], nodup_nil, rfl⟩

theorem head_free (h : FreeList link (some i)) : ∃ next, link i = some next := by
  obtain ⟨l, _, hc⟩ := h
  cases l with
  | nil => cases hc
  | cons a l =>
    obtain ⟨ha, next, hn, _⟩ := hc
    cases ha
    exact ⟨next, hn⟩

theorem pop (h : FreeList link (some i)) (hi : link i = some next)
    (hl : ∀ j, j ≠ i → link' j = link j) : FreeList link' next := by
  obtain ⟨l, hd, hc⟩ := h
  cases l with
  | nil => cases hc
  | cons a l =>
    obtain ⟨ha, next', hn, hc⟩ := hc
    cases ha
    rw [hi] at hn
    cases hn
    have hnot := (nodup_cons.1 hd).1
    refine ⟨l, (nodup_cons.1 hd).2, hc.congr (fun j hj => hl j ?_)⟩
    rintro rfl
    exact hnot hj

theorem push (h : FreeList link head) (hi : link i = none) (hi' : link' i = some head)
    (hl : ∀ j, j ≠ i → link' j = link j) : FreeList link' (some i) := by
  obtain ⟨l, hd, hc⟩ := h
  have hnot : i ∉ l := fun hm => hc.free i hm hi
  refine ⟨i :: l, nodup_cons.2 ⟨hnot, hd⟩, rfl, head, hi', hc.congr (fun j hj => hl j ?_)⟩
  rintro rfl
  exact hnot hj

theorem congr (h : FreeList link head) (hl : ∀ j, link j ≠ none → link' j = link j) :
    FreeList link' head := by
  obtain ⟨l, hd, hc⟩ := h
  exact ⟨l, hd, hc.congr (fun j hj => hl j (hc.free j hj))⟩

end FreeList

/-- The list from `head` visits every free cell, and each of them once. -/
def FreeCover (link : Nat → Option (Option Nat)) (head : Option Nat) : Prop :=
  ∃ l : List Nat, l.Nodup ∧ FreeChain link head l ∧ ∀ i, i ∈ l ↔ link i ≠ none

namespace FreeCover

theorem nil (h : ∀ i, link i = none) : FreeCover link none :=
  ⟨[], nodup_nil, rfl, fun i => by simp [h i]⟩

theorem freeList (h : FreeCover link head) : FreeList link head := by
  obtain ⟨l, hd, hc, -⟩ := h
  exact ⟨l, hd, hc⟩

theorem eq_none (h : FreeCover link none) (i : Nat) : link i = none := by
  obtain ⟨l, -, hc, hall⟩ := h
  cases l with
  | nil =>
    by_contra hi
    cases (hall i).2 hi
  | cons a l => cases hc.1

theorem pop (h : FreeCover link (some i)) (hi : link i = some next) (hi' : link' i = none)
    (hl : ∀ j, j ≠ i → link' j = link j) : FreeCover link' next := by
  obtain ⟨l, hd, hc, hall⟩ := h
  cases l with
  | nil => cases hc
  | cons a l =>
    obtain ⟨ha, next', hn, hc⟩ := hc
    cases ha
    cases hi.symm.trans hn
    have hnot := (nodup_cons.1 hd).1
    have hne : ∀ j ∈ l, j ≠ i := by
      rintro j hj rfl
      exact hnot hj
    refine ⟨l, (nodup_cons.1 hd).2, hc.congr fun j hj => hl j (hne j hj), fun j => ?_⟩
    by_cases hj : j = i
    · subst hj
      exact iff_of_false hnot (not_not_intro hi')
    · rw [hl j hj, ← hall j, mem_cons, or_iff_right hj]

theorem push (h : FreeCover link head) (hi : link i = none) (hi' : link' i = some head)
    (hl : ∀ j, j ≠ i → link' j = link j) : FreeCover link' (some i) := by
  obtain ⟨l, hd, hc, hall⟩ := h
  have hnot : i ∉ l := fun hm => (hall i).1 hm hi
  have hne : ∀ j ∈ l, j ≠ i := by
    rintro j hj rfl
    exact hnot hj
  refine ⟨i :: l, nodup_cons.2 ⟨hnot, hd⟩,
    ⟨rfl, head, hi', hc.congr fun j hj => hl j (hne j hj)⟩, fun j => ?_⟩
  by_cases hj : j = i
  · subst hj
    exact iff_of_true mem_cons_self (by rw [hi']; exact Option.some_ne_none _)
  · rw [hl j hj, ← hall j, mem_cons, or_iff_right hj]

theorem congr (h : FreeCover link head) (hl : ∀ j, link' j = link j) : FreeCover link' head := by
  rwa [show link' = link from funext hl]

end FreeCover

end Base
