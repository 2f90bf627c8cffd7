import Mathlib.Logic.Relation
import Mathlib.Tactic

/-!
# Reachability in a finite graph

In a finite graph in which every node is a root or has a predecessor, every node can be reached
from a root or from a cycle.
-/

namespace Base

open Relation

variable {α : Type} {edge : α → α → Prop} {root : α → Prop} {nodes : Set α}

theorem exists_cycle_of_forall_pred (hfin : nodes.Finite) {a : α} (ha : a ∈ nodes)
    (hpred : ∀ b ∈ nodes, ∃ c ∈ nodes, edge c b) :
    ∃ c, TransGen edge c c ∧ ReflTransGen edge c a := by
  choose! f hf using hpred
  have hmem : ∀ n, f^[n] a ∈ nodes := by
    intro n
    induction n with
    | zero => exact ha
    | succ n ih =>
      rw [Function.iterate_succ_apply']
      exact (hf _ ih).1
  have hstep : ∀ n, edge (f^[n + 1] a) (f^[n] a) := by
    intro n
    rw [Function.iterate_succ_apply']
    exact (hf _ (hmem n)).2
  have hback : ∀ n k, ReflTransGen edge (f^[n + k] a) (f^[n] a) := by
    intro n k
    induction k with
    | zero => exact .refl
    | succ k ih => exact ReflTransGen.head (hstep (n + k)) ih
  have : Finite nodes := hfin
  obtain ⟨m, n, hne, heq⟩ :=
    Finite.exists_ne_map_eq_of_infinite fun n : ℕ => (⟨f^[n] a, hmem n⟩ : nodes)
  have heq' : f^[m] a = f^[n] a := congrArg Subtype.val heq
  have hcycle : ∀ m n, m < n → f^[m] a = f^[n] a →
      ∃ c, TransGen edge c c ∧ ReflTransGen edge c a := by
    intro m n hlt heq
    obtain ⟨k, rfl⟩ := Nat.exists_eq_add_of_lt hlt
    have hloop : TransGen edge (f^[m + k + 1] a) (f^[m] a) :=
      TransGen.head' (hstep (m + k)) (hback m k)
    refine ⟨f^[m] a, ?_, by simpa using hback 0 m⟩
    rwa [← heq] at hloop
  rcases Nat.lt_or_gt_of_ne hne with hlt | hgt
  · exact hcycle m n hlt heq'
  · exact hcycle n m hgt heq'.symm

/-- **Every node hangs from a root or from a cycle.** -/
theorem reach_of_pred (hfin : nodes.Finite)
    (hpred : ∀ b ∈ nodes, root b ∨ ∃ c ∈ nodes, edge c b) {a : α} (ha : a ∈ nodes) :
    (∃ r, root r ∧ ReflTransGen edge r a) ∨
      ∃ c, TransGen edge c c ∧ ReflTransGen edge c a := by
  by_cases hroot : ∃ r, root r ∧ ReflTransGen edge r a
  · exact .inl hroot
  · -- The nodes that hang from no root have predecessors of the same sort.
    have hrest : {b ∈ nodes | ¬ ∃ r, root r ∧ ReflTransGen edge r b}.Finite :=
      hfin.subset fun b hb => hb.1
    refine .inr (exists_cycle_of_forall_pred hrest ⟨ha, hroot⟩ ?_)
    rintro b ⟨hb, hnone⟩
    rcases hpred b hb with hr | ⟨c, hc, hedge⟩
    · exact absurd ⟨b, hr, .refl⟩ hnone
    · exact ⟨c, ⟨hc, fun ⟨r, hr, hreach⟩ => hnone ⟨r, hr, hreach.tail hedge⟩⟩, hedge⟩

end Base
