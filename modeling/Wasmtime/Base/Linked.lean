import Mathlib.Tactic

/-!
# Queues threaded through their members

Each member of an intrusive queue knows the one after it and the one before it, and the queue knows
its ends. `Linked next prev head tail q`: the links spell the list `q`.

`Linked.push` and `Linked.remove` take the new links as functions that agree with the old ones up to
the cells the edit writes; `Linked.frame` is for edits elsewhere.
-/

namespace Base

open List

variable {ι : Type}

/-- The links `next` and `prev` and the ends `head` and `tail` spell the list `q`. -/
structure Linked (next prev : ι → Option ι) (head tail : Option ι) (q : List ι) : Prop where
  head_eq : head = q.head?
  tail_eq : tail = q.getLast?
  nodup : q.Nodup
  links : ∀ l w r, q = l ++ w :: r → next w = r.head? ∧ prev w = l.getLast?

namespace Linked

theorem getLast?_append_cons_concat (l : List ι) (x : ι) (r : List ι) (z : ι) :
    (l ++ x :: r.concat z).getLast? = some z := by
  have : l ++ x :: r.concat z = (l ++ x :: r) ++ [z] := by simp
  rw [this, getLast?_concat]

variable {next prev next' prev' : ι → Option ι} {head tail head' tail' : Option ι} {q : List ι}
  {w : ι}

theorem nil : Linked next prev none none [] := ⟨rfl, rfl, nodup_nil, fun l w r h => by simp at h⟩

variable (h : Linked next prev head tail q)
include h

theorem frame (hn : ∀ i ∈ q, next' i = next i)
    (hp : ∀ i ∈ q, prev' i = prev i) : Linked next' prev' head tail q := by
  refine ⟨h.head_eq, h.tail_eq, h.nodup, fun l w r hq => ?_⟩
  have hw : w ∈ q := by simp [hq]
  rw [hn w hw, hp w hw]
  exact h.links l w r hq

theorem next_mem {i : ι} (hw : w ∈ q) (hi : next w = some i) :
    i ∈ q := by
  obtain ⟨l, r, rfl⟩ := append_of_mem hw
  rw [(h.links l w r rfl).1] at hi
  have := mem_of_mem_head? (hi ▸ rfl : i ∈ r.head?)
  simp [this]

theorem prev_mem {i : ι} (hw : w ∈ q) (hi : prev w = some i) :
    i ∈ q := by
  obtain ⟨l, r, rfl⟩ := append_of_mem hw
  rw [(h.links l w r rfl).2] at hi
  have := mem_of_getLast? hi
  simp [this]

theorem prev_ne (hw : w ∈ q) : prev w ≠ some w := by
  intro hp
  obtain ⟨l, r, rfl⟩ := append_of_mem hw
  rw [(h.links l w r rfl).2] at hp
  exact (nodup_append.1 h.nodup).2.2 w (mem_of_getLast? hp) w (by simp) rfl

theorem tail_mem {i : ι} (hi : tail = some i) : i ∈ q := mem_of_getLast? (h.tail_eq ▸ hi)

omit h

variable [DecidableEq ι]

theorem push (h : Linked next prev head tail q) (hw : w ∉ q)
    (hn : ∀ i, next' i = if i = w then none else if tail = some i then some w else next i)
    (hp : ∀ i, prev' i = if i = w then tail else prev i)
    (hh : head' = if tail = none then some w else head) :
    Linked next' prev' head' (some w) (q ++ [w]) := by
  have ht := h.tail_eq
  refine ⟨?_, by simp, by simp [nodup_append, h.nodup]; exact fun a ha => fun e => hw (e ▸ ha),
    fun l x r hq => ?_⟩
  · rw [hh, ht, h.head_eq]
    cases q <;> simp
  · rcases eq_nil_or_concat r with rfl | ⟨r', y, rfl⟩
    · -- the new member
      obtain ⟨rfl, hx⟩ := append_inj' hq rfl
      obtain rfl : w = x := by simpa using hx
      rw [hn, hp, if_pos rfl, if_pos rfl, ht]
      exact ⟨rfl, rfl⟩
    · obtain ⟨hq, hy⟩ : q = l ++ x :: r' ∧ w = y := by
        rw [concat_eq_append, ← cons_append, ← append_assoc] at hq
        obtain ⟨h1, h2⟩ := append_inj' hq rfl
        exact ⟨h1, by simpa using h2⟩
      have hxw : x ≠ w := fun e => hw (by rw [hq, e]; simp)
      obtain ⟨h1, h2⟩ := h.links l x r' hq
      rw [hn, hp, if_neg hxw, if_neg hxw, h1, h2, ht, hq]
      refine ⟨?_, rfl⟩
      have hnodup := h.nodup
      rw [hq, nodup_append] at hnodup
      rcases eq_nil_or_concat r' with rfl | ⟨r'', z, rfl⟩
      · simp [hy]
      · have hzx : z ≠ x := by
          rintro rfl
          simp at hnodup
        rw [getLast?_append_cons_concat, if_neg (by simpa using hzx)]
        cases r'' <;> simp

theorem remove {l r : List ι} (h : Linked next prev head tail (l ++ w :: r))
    (hn : ∀ i, next' i = if i = w then none else if prev w = some i then next w else next i)
    (hp : ∀ i, prev' i = if i = w then none else if next w = some i then prev w else prev i)
    (hh : head' = if prev w = none then next w else head)
    (ht : tail' = if next w = none then prev w else tail) :
    Linked next' prev' head' tail' (l ++ r) := by
  obtain ⟨hnw, hpw⟩ := h.links l w r rfl
  have hnodup := h.nodup
  have hl : w ∉ l := fun hw => (nodup_append.1 hnodup).2.2 w hw w (by simp) rfl
  have hr : w ∉ r := (nodup_cons.1 (nodup_append.1 hnodup).2.1).1
  have hlr : ∀ x ∈ l, x ∉ r := fun x hx hxr =>
    (nodup_append.1 hnodup).2.2 x hx x (by simp [hxr]) rfl
  refine ⟨?_, ?_, ?_, fun l1 x r1 hq => ?_⟩
  · rw [hh, hpw, hnw, h.head_eq]
    cases l <;> simp
  · rw [ht, hnw, hpw, h.tail_eq]
    rcases eq_nil_or_concat r with rfl | ⟨r', y, rfl⟩
    · simp
    · rw [if_neg (by cases r' <;> simp), getLast?_append_cons_concat]
      simp
  · refine List.Nodup.sublist ?_ hnodup
    exact List.Sublist.append_left (sublist_cons_self w r) l
  · have hxw : x ≠ w := by
      rintro rfl
      have : x ∈ l ++ r := by simp [hq]
      rcases mem_append.1 this with hx | hx
      · exact hl hx
      · exact hr hx
    rw [hn, hp, if_neg hxw, if_neg hxw]
    have after : ∀ a, l1 = l ++ a → r = a ++ x :: r1 →
        (if prev w = some x then next w else next x) = r1.head? ∧
          (if next w = some x then prev w else prev x) = l1.getLast? := by
      rintro a rfl rfl
      obtain ⟨h1, h2⟩ := h.links (l ++ w :: a) x r1 (by simp)
      have hxl : x ∉ l := fun hx => hlr x hx (by simp)
      rw [h1, h2, hpw, if_neg (fun e => hxl (mem_of_getLast? e))]
      refine ⟨rfl, ?_⟩
      rw [hnw]
      cases a with
      | nil => simp
      | cons b a =>
        have hbx : b ≠ x := by
          rintro rfl
          have := (nodup_cons.1 (nodup_append.1 hnodup).2.1).2
          simp at this
        simp [hbx, getLast?_append, getLast?_cons_cons]
    rcases append_eq_append_iff.1 hq with ⟨a, rfl, rfl⟩ | ⟨c, rfl, hc⟩
    · exact after a rfl rfl
    · cases c with
      | nil => exact after [] (by simp) (by simpa using hc.symm)
      | cons y c =>
        obtain ⟨rfl, rfl⟩ : x = y ∧ r1 = c ++ r := by simpa using hc
        obtain ⟨h1, h2⟩ := h.links l1 x (c ++ w :: r) (by simp)
        have hxr : x ∉ r := hlr x (by simp)
        have hne : r.head? ≠ some x := fun e => hxr (mem_of_mem_head? (by rw [e]; rfl))
        rw [h1, h2, hnw, if_neg hne]
        refine ⟨?_, rfl⟩
        rw [hpw]
        rcases eq_nil_or_concat c with rfl | ⟨c', z, rfl⟩
        · simp
        · have hzx : z ≠ x := by
            rintro rfl
            have := (nodup_append.1 hnodup).1
            rw [nodup_append] at this
            simp at this
          rw [getLast?_append_cons_concat, if_neg (by simpa using hzx)]
          cases c' <;> simp

end Linked

end Base
