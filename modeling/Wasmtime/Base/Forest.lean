import Mathlib.Logic.Relation
import Mathlib.Data.List.Nodup

/-!
# Forests kept as two maps

A forest in which every node holds its parent, and the list of its children. `Forest parent
children` says that the two maps agree, that no child is listed twice, and that going from
parent to parent never comes back. `Forest.attach` gives a parent to a root, and
`Forest.detach` takes a node off its parent.
-/

namespace Base

open Relation List

variable {ι : Type}

def Edge (parent : ι → Option ι) (a b : ι) : Prop := parent a = some b

structure Forest (parent : ι → Option ι) (children : ι → List ι) : Prop where
  link : ∀ c p, c ∈ children p ↔ parent c = some p
  nodup : ∀ p, (children p).Nodup
  acyclic : ∀ c, ¬ TransGen (Edge parent) c c

section

variable [DecidableEq ι] {parent parent' : ι → Option ι} {c p : ι}

theorem edge_above (hp : ∀ j, parent' j = if j = c then some p else parent j)
    (hnot : ¬ ReflTransGen (Edge parent) p c) {b : ι} (h : ReflTransGen (Edge parent') p b) :
    ReflTransGen (Edge parent) p b := by
  induction h with
  | refl => exact .refl
  | @tail a b _ hab ih =>
    have hac : a ≠ c := by
      rintro rfl
      exact hnot ih
    have hedge : Edge parent a b := by
      rwa [Edge, hp, if_neg hac] at hab
    exact ih.tail hedge

theorem edge_split (hp : ∀ j, parent' j = if j = c then some p else parent j) {a b : ι}
    (h : TransGen (Edge parent') a b) :
    TransGen (Edge parent) a b ∨ ReflTransGen (Edge parent') p b := by
  have hone : ∀ {x y}, Edge parent' x y → Edge parent x y ∨ y = p := by
    intro x y hxy
    by_cases hx : x = c
    · rw [Edge, hp, if_pos hx] at hxy
      exact .inr (Option.some.inj hxy).symm
    · rw [Edge, hp, if_neg hx] at hxy
      exact .inl hxy
  induction h with
  | single h =>
    rcases hone h with hold | rfl
    · exact .inl (.single hold)
    · exact .inr .refl
  | tail _ h ih =>
    rcases hone h with hold | rfl
    · rcases ih with ih | ih
      · exact .inl (ih.tail hold)
      · exact .inr (ih.tail h)
    · exact .inr .refl

end

namespace Forest

variable [DecidableEq ι] {parent parent' : ι → Option ι} {children children' : ι → List ι} {c p : ι}

omit [DecidableEq ι] in
theorem empty (hp : ∀ j, parent j = none) (hc : ∀ j, children j = []) :
    Forest parent children where
  link := fun c p => by rw [hp, hc]; simp
  nodup := fun p => by rw [hc]; exact nodup_nil
  acyclic := by
    intro c h
    obtain ⟨b, hcb, -⟩ := TransGen.head'_iff.1 h
    cases (hp c).symm.trans hcb

variable (h : Forest parent children)
include h

omit [DecidableEq ι] in
theorem congr (hp : ∀ j, parent' j = parent j)
    (hc : ∀ j, children' j = children j) : Forest parent' children' := by
  rwa [funext hp, funext hc]

theorem attach (hroot : parent c = none) (hnot : ¬ ReflTransGen (Edge parent) p c)
    (hp : ∀ j, parent' j = if j = c then some p else parent j)
    (hc : ∀ j, children' j = if j = p then c :: children p else children j) :
    Forest parent' children' where
  link := by
    intro d q
    rw [hp, hc]
    by_cases hd : d = c
    · subst hd
      rw [if_pos rfl]
      split_ifs with hq
      · simp [hq]
      · rw [h.link, hroot]
        simp [Ne.symm hq]
    · rw [if_neg hd]
      split_ifs with hq
      · rw [mem_cons, or_iff_right hd, h.link, hq]
      · exact h.link d q
  nodup := by
    intro q
    rw [hc]
    split_ifs with hq
    · refine nodup_cons.2 ⟨fun hmem => ?_, h.nodup p⟩
      cases hroot.symm.trans ((h.link c p).1 hmem)
    · exact h.nodup q
  acyclic := by
    intro a ha
    by_cases hpa : ReflTransGen (Edge parent') p a
    -- Above `p` nothing has changed.
    · have hold : ∀ b, TransGen (Edge parent') a b → TransGen (Edge parent) a b := by
        intro b hab
        have hstep : ∀ {x y}, ReflTransGen (Edge parent') p x → Edge parent' x y →
            Edge parent x y := by
          intro x y hx hxy
          have hxc : x ≠ c := by
            rintro rfl
            exact hnot (edge_above hp hnot hx)
          rwa [Edge, hp, if_neg hxc] at hxy
        induction hab with
        | single hab => exact .single (hstep hpa hab)
        | tail hax hxy ih => exact ih.tail (hstep (hpa.trans hax.to_reflTransGen) hxy)
      exact h.acyclic a (hold a ha)
    · rcases edge_split hp ha with hold | hup
      · exact h.acyclic a hold
      · exact hpa hup

omit [DecidableEq ι] in
theorem not_above_new (hnew : children c = []) (hne : p ≠ c) :
    ¬ ReflTransGen (Edge parent) p c := by
  intro hpc
  rcases ReflTransGen.cases_tail hpc with rfl | ⟨b, -, hb⟩
  · exact hne rfl
  · have hmem := (h.link b c).2 hb
    rw [hnew] at hmem
    cases hmem

theorem detach (hp : ∀ j, parent' j = if j = c then none else parent j)
    (hc : ∀ j, children' j = if parent c = some j then (children j).erase c else children j) :
    Forest parent' children' where
  link := by
    intro d q
    rw [hp, hc]
    by_cases hd : d = c
    · subst hd
      rw [if_pos rfl]
      refine iff_of_false ?_ (by simp)
      split_ifs with hq
      · exact (h.nodup q).not_mem_erase
      · rwa [h.link]
    · rw [if_neg hd]
      split_ifs with hq
      · rw [mem_erase_of_ne hd, h.link]
      · exact h.link d q
  nodup := by
    intro q
    rw [hc]
    split_ifs with hq
    · exact (h.nodup q).erase c
    · exact h.nodup q
  acyclic := by
    intro a ha
    refine h.acyclic a (TransGen.mono (fun x y hxy => ?_) a a ha)
    rw [Edge, hp] at hxy
    split_ifs at hxy with hx
    exact hxy

omit h

end Forest

end Base
