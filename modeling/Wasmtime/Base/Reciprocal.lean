import Mathlib.Tactic

/-!
# Division by multiplication

A quotient `n / d` can be had as `m * n / k` if `m` is a little more than `k / d`: the excess `e = m
* d - k` times the largest number of the range with remainder `d - 1` must be less than `k`.

* `excess_lt`: the bound for one number gives the bound for all.
* `mul_div_eq`: the quotient.
* `lt_mul_of_excess`, `mul_le_of_excess`: the product is properly between the quotient and the next
  number.
-/

namespace Base.Reciprocal

open Nat

variable {c d e k m n : Nat}

theorem excess_lt (hd : 2 ≤ d) (hc : d ∣ c + 1) (he : e * c < k) (hn : n < c + d) :
    e * n < (d - n % d) * k := by
  have hpos : 0 < d := by omega
  have hcd : d ≤ c + 1 := le_of_dvd (succ_pos c) hc
  by_cases hle : n ≤ c
  · have hmod : n % d < d := mod_lt n hpos
    calc e * n ≤ e * c := Nat.mul_le_mul_left e hle
      _ < k := he
      _ = 1 * k := (Nat.one_mul k).symm
      _ ≤ (d - n % d) * k := Nat.mul_le_mul_right k (by omega)
  · -- The numbers after `c` have the remainders from zero on, and two more steps to go.
    obtain ⟨a, ha⟩ := hc
    have hn' : n = d * a + (n - c - 1) := by omega
    have hmod : n % d = n - c - 1 := by
      rw [hn', mul_add_mod]
      exact (mod_eq_of_lt (by omega)).trans (by omega)
    have hsecond : e * (n - c) ≤ e * c := Nat.mul_le_mul_left e (by omega)
    calc e * n = e * c + e * (n - c) := by rw [← Nat.mul_add]; congr 1; omega
      _ < k + k := by omega
      _ = 2 * k := (Nat.two_mul k).symm
      _ ≤ (d - n % d) * k := Nat.mul_le_mul_right k (by omega)

theorem succ_div_mul (hd : 0 < d) : (n / d + 1) * k * d = n * k + (d - n % d) * k := by
  have hmod := mod_lt n hd
  have hdiv := div_add_mod n d
  have hsum : (n / d + 1) * d = n + (d - n % d) := by
    rw [Nat.add_mul, Nat.one_mul, Nat.mul_comm (n / d) d]
    omega
  calc (n / d + 1) * k * d = (n / d + 1) * d * k := Nat.mul_right_comm _ _ _
    _ = (n + (d - n % d)) * k := by rw [hsum]
    _ = n * k + (d - n % d) * k := Nat.add_mul _ _ _

theorem mul_mul_eq (hm : m * d = k + e) : m * n * d = n * k + e * n := by
  calc m * n * d = m * d * n := Nat.mul_right_comm _ _ _
    _ = (k + e) * n := by rw [hm]
    _ = n * k + e * n := by rw [Nat.add_mul, Nat.mul_comm k n]

theorem div_mul_le (hd : 0 < d) (hm : m * d = k + e) : n / d * k ≤ m * n := by
  refine Nat.le_of_mul_le_mul_right ?_ hd
  calc n / d * k * d = n / d * d * k := Nat.mul_right_comm _ _ _
    _ ≤ n * k := Nat.mul_le_mul_right k (div_mul_le_self n d)
    _ ≤ n * k + e * n := Nat.le_add_right _ _
    _ = m * n * d := (mul_mul_eq hm).symm

theorem mul_lt_of_excess (hd : 0 < d) (hm : m * d = k + e) (h : e * n < (d - n % d) * k) :
    m * n < (n / d + 1) * k := by
  refine Nat.lt_of_mul_lt_mul_right (a := d) ?_
  rw [mul_mul_eq hm, succ_div_mul hd]
  omega

theorem mul_div_eq (hd : 0 < d) (hm : m * d = k + e) (h : e * n < (d - n % d) * k) :
    m * n / k = n / d :=
  Nat.div_eq_of_lt_le (div_mul_le hd hm) (mul_lt_of_excess hd hm h)

theorem mul_le_of_excess (hd : 0 < d) (hm : m * d = k + e) (h : e * n ≤ (d - n % d) * k) :
    m * n ≤ (n / d + 1) * k := by
  refine Nat.le_of_mul_le_mul_right ?_ hd
  rw [mul_mul_eq hm, succ_div_mul hd]
  omega

theorem lt_mul_of_excess (hm : m * d = k + e) (he : 0 < e) (hn : 0 < n) :
    n / d * k < m * n := by
  refine Nat.lt_of_mul_lt_mul_right (a := d) ?_
  have hpos : 0 < e * n := Nat.mul_pos he hn
  calc n / d * k * d = n / d * d * k := Nat.mul_right_comm _ _ _
    _ ≤ n * k := Nat.mul_le_mul_right k (div_mul_le_self n d)
    _ < n * k + e * n := by omega
    _ = m * n * d := (mul_mul_eq hm).symm

/-! ### Doubling a quotient -/

theorem double_div (hd : 0 < d) (b : Nat) (hb : b < 2) :
    (2 * n + b) / d = 2 * (n / d) + (if d ≤ 2 * (n % d) + b then 1 else 0) ∧
      (2 * n + b) % d = 2 * (n % d) + b - (if d ≤ 2 * (n % d) + b then d else 0) := by
  have hmod := mod_lt n hd
  have hn : 2 * n + b = d * (2 * (n / d)) + (2 * (n % d) + b) := by
    have hdiv := div_add_mod n d
    calc 2 * n + b = 2 * (d * (n / d) + n % d) + b := by rw [hdiv]
      _ = d * (2 * (n / d)) + (2 * (n % d) + b) := by ring
  rw [hn, mul_add_div hd, mul_add_mod]
  split_ifs with h
  · have hlt : 2 * (n % d) + b - d < d := by omega
    have hsum : 2 * (n % d) + b = d * 1 + (2 * (n % d) + b - d) := by omega
    refine ⟨?_, ?_⟩
    · rw [hsum, mul_add_div hd, div_eq_of_lt hlt]
    · rw [mod_eq_sub_mod h, mod_eq_of_lt hlt]
  · have hlt : 2 * (n % d) + b < d := by omega
    rw [div_eq_of_lt hlt, mod_eq_of_lt hlt]
    exact ⟨rfl, rfl⟩

theorem div_lt_or_iff (hd : 0 < d) : n / d < e ∨ n / d = e ∧ n % d = 0 ↔ n ≤ d * e := by
  have hdiv := div_add_mod n d
  have hmod := mod_lt n hd
  constructor
  · rintro (hlt | ⟨rfl, hzero⟩)
    · have := Nat.mul_le_mul_left d hlt
      rw [mul_succ] at this
      omega
    · omega
  · intro hle
    rcases Nat.lt_trichotomy (n / d) e with hlt | heq | hgt
    · exact .inl hlt
    · rw [heq] at hdiv
      exact .inr ⟨heq, by omega⟩
    · have := Nat.mul_le_mul_left d hgt
      rw [mul_succ] at this
      omega

end Base.Reciprocal
