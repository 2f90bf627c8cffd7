import Mathlib.Tactic

/-!
# The bits of a word

A set of small numbers is a word, and its elements are read off by taking out the lowest bit
until the word is zero. A set of arbitrary numbers is a list of words. `mem_bits` and
`pairwise_bits` say that this enumerates the set in ascending order, and `mem_positions` and
`pairwise_positions` the same for a list of words.
-/

namespace Base

open List Nat

variable {n : Nat}

def popBits : Nat → BitVec n → List Nat
  | 0, _ => []
  | fuel + 1, w =>
    if w = 0#n then []
    else w.ctz.toNat :: popBits fuel (w &&& ~~~(BitVec.twoPow n w.ctz.toNat))

def bits (w : BitVec n) : List Nat := popBits n w

theorem getLsbD_clear (w : BitVec n) (b i : Nat) :
    (w &&& ~~~(BitVec.twoPow n b)).getLsbD i = (w.getLsbD i && decide (i ≠ b)) := by
  by_cases hi : i < n
  · by_cases hb : b = i
    · simp [hb, hi]
    · simp [hi, Ne.symm hb]
  · rw [BitVec.getLsbD_of_ge _ _ (by omega), BitVec.getLsbD_of_ge w _ (by omega), Bool.false_and]

theorem popBits_spec {fuel k : Nat} {w : BitVec n} (hlow : ∀ i < k, w.getLsbD i = false)
    (hfuel : n ≤ k + fuel) :
    (∀ i, i ∈ popBits fuel w ↔ w.getLsbD i = true) ∧ (popBits fuel w).Pairwise (· < ·) := by
  induction fuel generalizing k w with
  | zero =>
    refine ⟨fun i => ?_, List.Pairwise.nil⟩
    have hzero : w.getLsbD i = false := by
      by_cases hi : i < k
      · exact hlow i hi
      · exact BitVec.getLsbD_of_ge _ _ (by omega)
    simp [popBits, hzero]
  | succ fuel ih =>
    unfold popBits
    split_ifs with hw
    · subst hw
      simp
    · have hset := BitVec.getLsbD_true_ctz_of_ne_zero hw
      have hbelow : ∀ i < w.ctz.toNat, w.getLsbD i = false :=
        fun i hi => BitVec.getLsbD_false_of_lt_ctz hi
      have hk : k ≤ w.ctz.toNat := by
        by_contra hlt
        rw [hlow _ (by omega)] at hset
        cases hset
      -- What is left has no bits up to the one that was taken out.
      have hrest := ih (k := w.ctz.toNat + 1) (w := w &&& ~~~(BitVec.twoPow n w.ctz.toNat))
        (fun i hi => by
          rw [getLsbD_clear]
          by_cases heq : i = w.ctz.toNat
          · simp [heq]
          · rw [hbelow i (by omega), Bool.false_and]) (by omega)
      refine ⟨fun i => ?_, List.Pairwise.cons (fun i hi => ?_) hrest.2⟩
      · rw [mem_cons, hrest.1, getLsbD_clear]
        by_cases heq : i = w.ctz.toNat
        · simp [heq, hset]
        · simp [heq]
      · rw [hrest.1, getLsbD_clear, Bool.and_eq_true, decide_eq_true_eq] at hi
        by_contra hle
        rw [hbelow i (by omega)] at hi
        cases hi.1

theorem mem_bits {w : BitVec n} {i : Nat} : i ∈ bits w ↔ w.getLsbD i = true :=
  (popBits_spec (k := 0) (fun _ h => absurd h (Nat.not_lt_zero _)) (by omega)).1 i

theorem pairwise_bits (w : BitVec n) : (bits w).Pairwise (· < ·) :=
  (popBits_spec (k := 0) (fun _ h => absurd h (Nat.not_lt_zero _)) (by omega)).2

theorem lt_of_mem_bits {w : BitVec n} {i : Nat} (h : i ∈ bits w) : i < n := by
  by_contra hge
  rw [mem_bits, BitVec.getLsbD_of_ge _ _ (by omega)] at h
  cases h

/-! ### Lists of words -/

/-- The positions of the bits of a list of words, of which the first is word `k`. -/
def positions (k : Nat) : List (BitVec n) → List Nat
  | [] => []
  | w :: ws => (bits w).map (k * n + ·) ++ positions (k + 1) ws

theorem le_of_mem_positions {k p : Nat} {ws : List (BitVec n)} (h : p ∈ positions k ws) :
    k * n ≤ p := by
  induction ws generalizing k with
  | nil => cases h
  | cons w ws ih =>
    rcases mem_append.1 h with h | h
    · obtain ⟨i, -, rfl⟩ := mem_map.1 h
      exact Nat.le_add_right _ _
    · have := ih h
      rw [Nat.add_mul] at this
      omega

theorem mem_positions {k p : Nat} {ws : List (BitVec n)} (hn : 0 < n) :
    p ∈ positions k ws ↔ k ≤ p / n ∧ (ws[p / n - k]?.getD 0#n).getLsbD (p % n) = true := by
  induction ws generalizing k with
  | nil => simp [positions]
  | cons w ws ih =>
    rw [positions, mem_append, ih, mem_map]
    constructor
    · rintro (⟨i, hi, rfl⟩ | ⟨hle, hbit⟩)
      · have hlt := lt_of_mem_bits hi
        rw [Nat.add_comm, add_mul_div_right _ _ hn, div_eq_of_lt hlt, Nat.zero_add,
          add_mul_mod_self_right, mod_eq_of_lt hlt, Nat.sub_self]
        exact ⟨le_rfl, mem_bits.1 hi⟩
      · refine ⟨by omega, ?_⟩
        have : p / n - k = p / n - (k + 1) + 1 := by omega
        rw [this, getElem?_cons_succ]
        exact hbit
    · rintro ⟨hle, hbit⟩
      rcases Nat.lt_or_ge k (p / n) with hlt | hge
      · refine .inr ⟨hlt, ?_⟩
        have : p / n - k = p / n - (k + 1) + 1 := by omega
        rwa [this, getElem?_cons_succ] at hbit
      · have hk : p / n = k := le_antisymm hge hle
        refine .inl ⟨p % n, mem_bits.2 ?_, ?_⟩
        · rw [hk, Nat.sub_self] at hbit
          exact hbit
        · rw [← hk, Nat.mul_comm]
          exact div_add_mod p n

theorem pairwise_positions {k : Nat} (ws : List (BitVec n)) :
    (positions k ws).Pairwise (· < ·) := by
  induction ws generalizing k with
  | nil => exact List.Pairwise.nil
  | cons w ws ih =>
    refine pairwise_append.2 ⟨?_, ih, fun p hp q hq => ?_⟩
    · exact pairwise_map.2 ((pairwise_bits w).imp fun h => Nat.add_lt_add_left h _)
    · obtain ⟨i, hi, rfl⟩ := mem_map.1 hp
      have hlt := lt_of_mem_bits hi
      have hle := le_of_mem_positions hq
      rw [Nat.add_mul] at hle
      omega

end Base
