import Mathlib.Data.Finset.Lattice.Fold
import Mathlib.Logic.Function.Iterate

/-!
# Sweeps over a table

A table is recomputed entry by entry, in a fixed order and in place, until a sweep changes nothing.
If the entries that an entry is computed from form no cycle, the sweeps end (`exists_iterate`), and
every entry is what is computed from the table.
-/

namespace Base.Sweep

open Function List

variable {ι β : Type*} [DecidableEq ι] (f : (ι → β) → ι → β)

def sweep (order : List ι) (best : ι → β) : ι → β :=
  order.foldl (fun b i => update b i (f b i)) best

section

variable {f} {order : List ι} {best : ι → β} {i : ι}

theorem sweep_of_notMem (h : i ∉ order) : sweep f order best i = best i := by
  induction order generalizing best with
  | nil => rfl
  | cons j rest ih =>
    rw [mem_cons, not_or] at h
    exact (ih h.2).trans (update_of_ne h.1 _ _)

/-- An entry is computed from a table each entry of which is that before or after the sweep. -/
theorem sweep_eq (best : ι → β) (hn : order.Nodup) (h : i ∈ order) :
    ∃ b, (∀ j, b j = best j ∨ b j = sweep f order best j) ∧ sweep f order best i = f b i := by
  obtain ⟨pre, post, rfl⟩ := append_of_mem h
  have hd := nodup_append.1 hn
  have hi := nodup_cons.1 hd.2.1
  have hs : sweep f (pre ++ i :: post) best = sweep f (i :: post) (sweep f pre best) := foldl_append
  refine ⟨sweep f pre best, fun j => ?_, ?_⟩
  · by_cases hj : j ∈ pre
    · right
      rw [hs, sweep_of_notMem fun hp => hd.2.2 j hj j hp rfl]
    · exact .inl (sweep_of_notMem hj)
  · rw [hs]
    exact (sweep_of_notMem hi.1).trans (update_self ..)

theorem sweep_fixed (h : ∀ i ∈ order, f best i = best i) : sweep f order best = best := by
  induction order with
  | nil => rfl
  | cons i rest ih =>
    rw [forall_mem_cons] at h
    have hs : sweep f (i :: rest) best = sweep f rest (update best i (f best i)) := rfl
    rw [hs, h.1, update_eq_self, ih h.2]

end

variable [DecidableEq β]

/-- An entry is recomputed; the flag records whether one has changed. -/
def visit (t : (ι → β) × Bool) (i : ι) : (ι → β) × Bool :=
  let best := update t.1 i (f t.1 i)
  (best, t.2 || t.1 i != best i)

/-- Sweeps until one changes nothing; `none` if they are still going on. -/
def iterate (order : List ι) : Nat → (ι → β) → Option (ι → β)
  | 0, _ => none
  | fuel + 1, best =>
    let (best, keepGoing) := order.foldl (visit f) (best, false)
    if keepGoing then iterate order fuel best else some best

variable {f} {order : List ι} {best b : ι → β}

theorem foldl_visit_fst (best : ι → β) (k : Bool) :
    (order.foldl (visit f) (best, k)).1 = sweep f order best := by
  induction order generalizing best k with
  | nil => rfl
  | cons i rest ih => exact ih _ _

theorem foldl_visit_snd (best : ι → β) (k : Bool) :
    (order.foldl (visit f) (best, k)).2 = false ↔ k = false ∧ ∀ i ∈ order, f best i = best i := by
  induction order generalizing best k with
  | nil => simp
  | cons i rest ih =>
    rw [foldl_cons, visit, ih]
    simp only [update_self, Bool.or_eq_false_iff, bne_eq_false_iff_eq, forall_mem_cons, and_assoc]
    refine and_congr_right fun _ => ⟨fun ⟨h, hr⟩ => ?_, fun ⟨h, hr⟩ => ?_⟩
    · rw [← h, update_eq_self] at hr
      exact ⟨h.symm, hr⟩
    · rw [h, update_eq_self]
      exact ⟨rfl, hr⟩

theorem iterate_succ (n : Nat) : iterate f order (n + 1) best =
    if ∀ i ∈ order, f best i = best i then some best
    else iterate f order n (sweep f order best) := by
  have hf : (order.foldl (visit f) (best, false)).1 = _ := foldl_visit_fst best false
  have hs : (order.foldl (visit f) (best, false)).2 = false ↔ _ := foldl_visit_snd best false
  generalize hr : order.foldl (visit f) (best, false) = r at hf hs
  rw [iterate, hr]
  dsimp only at hf hs ⊢
  rw [hf]
  split_ifs with hk h h
  · rw [hs.2 ⟨rfl, h⟩] at hk
    cases hk
  · rfl
  · rw [sweep_fixed h]
  · exact absurd (hs.1 (Bool.eq_false_iff.2 hk)).2 h

theorem iterate_fixed {n : Nat} (h : iterate f order n best = some b) :
    ∀ i ∈ order, f b i = b i := by
  induction n generalizing best with
  | zero => cases h
  | succ n ih =>
    rw [iterate_succ] at h
    split_ifs at h with hf
    · cases h
      exact hf
    · exact ih h

theorem iterate_add {n : Nat} (h : iterate f order n best = some b) (m : Nat) :
    iterate f order (n + m) best = some b := by
  induction n generalizing best with
  | zero => cases h
  | succ n ih =>
    rw [Nat.succ_add, iterate_succ]
    rw [iterate_succ] at h
    split_ifs at h ⊢
    · exact h
    · exact ih h

theorem exists_iterate_of_fixed {n : Nat}
    (h : ∀ i ∈ order, f ((sweep f order)^[n] best) i = (sweep f order)^[n] best i) :
    ∃ b, iterate f order (n + 1) best = some b := by
  induction n generalizing best with
  | zero => exact ⟨best, (iterate_succ 0).trans (if_pos h)⟩
  | succ n ih =>
    rw [iterate_succ]
    split_ifs
    · exact ⟨_, rfl⟩
    · exact ih h

section

variable {reads : ι → ι → Prop} (hw : WellFounded reads) (hn : order.Nodup)
  (hr : ∀ i b b', (∀ j, reads j i → b j = b' j) → f b i = f b' i)
  (hm : ∀ i j, reads j i → j ∈ order)
include hw hn hr hm

omit [DecidableEq β] in
theorem exists_settled (best : ι → β) (i : ι) (hi : i ∈ order) :
    ∃ k, ∀ m, k ≤ m → (sweep f order)^[m] best i = (sweep f order)^[k] best i := by
  induction i using hw.induction with
  | _ i ih =>
    choose! k h using fun j hj => ih j hj (hm i j hj)
    -- once all that is read has settled, the next sweeps compute the entry from the same values
    have he : ∀ m, order.toFinset.sup k ≤ m →
        (sweep f order)^[m + 1] best i = f (fun j => (sweep f order)^[k j] best j) i := by
      intro m hk
      rw [iterate_succ_apply']
      obtain ⟨b, hb, he⟩ := sweep_eq (f := f) ((sweep f order)^[m] best) hn hi
      rw [he]
      refine hr i b _ fun j hj => ?_
      have hle : k j ≤ m := (Finset.le_sup (mem_toFinset.2 (hm i j hj))).trans hk
      rcases hb j with hb | hb
      · rw [hb, h j hj m hle]
      · rw [hb, ← iterate_succ_apply' (sweep f order), h j hj _ (hle.trans m.le_succ)]
    refine ⟨order.toFinset.sup k + 1, fun m hk => ?_⟩
    obtain ⟨m, rfl⟩ := Nat.exists_eq_add_of_le' hk
    rw [← add_assoc, he _ (Nat.le_add_left ..), he _ le_rfl]

/-- **The sweeps end**, with a table whose entries are computed from it. -/
theorem exists_iterate (best : ι → β) :
    ∃ n b, (∀ m, n ≤ m → iterate f order m best = some b) ∧ ∀ i ∈ order, f b i = b i := by
  choose! k h using exists_settled hw hn hr hm best
  let n := order.toFinset.sup k
  have hs : ∀ i ∈ order,
      sweep f order ((sweep f order)^[n] best) i = (sweep f order)^[n] best i := by
    intro i hi
    have hle : k i ≤ n := Finset.le_sup (mem_toFinset.2 hi)
    rw [← iterate_succ_apply' (sweep f order), h i hi _ hle, h i hi _ (hle.trans n.le_succ)]
  have hf : ∀ i ∈ order, f ((sweep f order)^[n] best) i = (sweep f order)^[n] best i := by
    intro i hi
    obtain ⟨b, hb, he⟩ := sweep_eq (f := f) ((sweep f order)^[n] best) hn hi
    rw [← hs i hi, he]
    refine hr i _ b fun j hj => ?_
    rcases hb j with hb | hb
    · exact hb.symm
    · rw [hb, hs j (hm i j hj)]
  obtain ⟨b, hb⟩ := exists_iterate_of_fixed hf
  refine ⟨n + 1, b, fun m hk => ?_, iterate_fixed hb⟩
  obtain ⟨d, rfl⟩ := Nat.exists_eq_add_of_le hk
  exact iterate_add hb d

end

end Base.Sweep
