import Mathlib.Tactic

/-!
# Counting in lists

How a count over a list, or a sum over it, changes when one element is replaced. Both are
stated without subtraction: what was there is added on the left.
-/

namespace Base

open List

variable {α : Type}

theorem countP_set_add (p : α → Bool) : ∀ (l : List α) (i : Nat) (a old : α), l[i]? = some old →
    (l.set i a).countP p + (if p old then 1 else 0) = l.countP p + (if p a then 1 else 0) := by
  intro l
  induction l with
  | nil => intro i a old h; simp at h
  | cons b l ih =>
    intro i a old h
    cases i with
    | zero =>
      simp only [getElem?_cons_zero, Option.some.injEq] at h
      subst h
      simp only [set_cons_zero, countP_cons]
      omega
    | succ i =>
      have := ih i a old h
      simp only [set_cons_succ, countP_cons]
      omega

theorem sum_map_set_add (f : α → Nat) : ∀ (l : List α) (i : Nat) (a old : α), l[i]? = some old →
    ((l.set i a).map f).sum + f old = (l.map f).sum + f a := by
  intro l
  induction l with
  | nil => intro i a old h; simp at h
  | cons b l ih =>
    intro i a old h
    cases i with
    | zero =>
      simp only [getElem?_cons_zero, Option.some.injEq] at h
      subst h
      simp only [set_cons_zero, map_cons, sum_cons]
      omega
    | succ i =>
      have := ih i a old h
      simp only [set_cons_succ, map_cons, sum_cons]
      omega

theorem countP_pos_of_getElem? {p : α → Bool} {l : List α} {i : Nat} {a : α} (h : l[i]? = some a)
    (hp : p a = true) : 0 < l.countP p :=
  countP_pos_iff.2 ⟨a, mem_of_getElem? h, hp⟩

end Base
