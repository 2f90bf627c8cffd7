import Mathlib.Tactic

/-!
# Singly linked lists

`Chain next head q` says that the nodes met when the links are followed from `head` are those
of `q`, in this order. The operations on a list change one link; the lemmas say which list
the links then form.
-/

namespace Base

open List

variable {α : Type}

def Chain (next : α → Option α) : Option α → List α → Prop
  | head, [] => head = none
  | head, a :: q => head = some a ∧ Chain next (next a) q

namespace Chain

variable {next next' : α → Option α} {head : Option α} {q : List α} {a : α}

theorem head_eq (h : Chain next head q) : head = q.head? := by
  cases q with
  | nil => exact h
  | cons a q => exact h.1

theorem congr (h : Chain next head q) (heq : ∀ a ∈ q, next' a = next a) :
    Chain next' head q := by
  induction q generalizing head with
  | nil => exact h
  | cons a q ih =>
    refine ⟨h.1, ?_⟩
    rw [heq a mem_cons_self]
    exact ih h.2 fun b hb => heq b (mem_cons_of_mem a hb)

theorem push (h : Chain next head q) (ha : next' a = head) (hq : ∀ b ∈ q, next' b = next b) :
    Chain next' (some a) (a :: q) :=
  ⟨rfl, ha ▸ h.congr hq⟩

theorem next_of_append {init rest : List α} (h : Chain next head (init ++ a :: rest)) :
    next a = rest.head? := by
  induction init generalizing head with
  | nil => exact h.2.head_eq
  | cons b init ih => exact ih h.2

/-- A node is taken out by giving its link to the node before it. -/
theorem unlink {init rest : List α} {p : α} (h : Chain next head (init ++ p :: a :: rest))
    (hp : next' p = next a) (hrest : ∀ b ∈ init ++ rest, next' b = next b) :
    Chain next' head (init ++ p :: rest) := by
  induction init generalizing head with
  | nil =>
    refine ⟨h.1, hp ▸ h.2.2.congr fun b hb => hrest b hb⟩
  | cons b init ih =>
    refine ⟨h.1, ?_⟩
    rw [hrest b mem_cons_self]
    exact ih h.2 fun c hc => hrest c (mem_cons_of_mem b hc)

end Chain

end Base
