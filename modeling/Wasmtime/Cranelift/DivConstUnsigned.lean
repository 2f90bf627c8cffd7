import Wasmtime.Cranelift.DivConst

/-!
# Unsigned division by constants

For every `p` the search has the quotients and remainders of `2 ^ p` by the last number of the range
with remainder `d - 1`, and of `2 ^ p - 1` by `d` (`SearchU.At`). It stops as soon as the excess of
the second is small enough, while the second quotient has room (`Unsettled.bound`).

* `magicU_wp`: the search ends, nothing in it overflows, and the numbers divide exactly.
* `applyDivConstMagicU_correct`: so does the expression that is built from them.
-/

namespace Wasmtime.Cranelift

open Base Prog Reciprocal Nat

section Unsigned

variable {w d : Nat}

/-- What the search leaves: the multiplier with its ninth bit, so to speak, and the shift. -/
structure FoundU (w d : Nat) (magic : MU) : Prop where
  shift_pos : magic.doAdd = true → 0 < magic.shiftBy
  shift_lt : magic.doAdd = false → magic.shiftBy < w
  shift_le : magic.shiftBy ≤ w
  mulBy_lt : magic.mulBy < 2 ^ w
  exact : ∀ n < 2 ^ w,
    (magic.mulBy + if magic.doAdd then 2 ^ w else 0) * n / 2 ^ (w + magic.shiftBy) = n / d

/-- The largest number whose remainder is `d - 1`. -/
def lastU (w d : Nat) : Nat := 2 ^ w - 1 - 2 ^ w % d

/-- What remains between the multiple of `d` and the power. -/
def excessU (d p : Nat) : Nat := d - 1 - (2 ^ p - 1) % d

/-- The variables of the search for `2 ^ p`. The first quotient may have wrapped. -/
structure SearchU.At (w d : Nat) (s : SearchU) : Prop where
  q1 : s.q1 = 2 ^ s.p / lastU w d % 2 ^ w
  r1 : s.r1 = 2 ^ s.p % lastU w d
  q2 : s.q2 = (2 ^ s.p - 1) / d % 2 ^ w
  r2 : s.r2 = (2 ^ s.p - 1) % d
  doAdd : s.doAdd = decide (2 ^ w ≤ (2 ^ s.p - 1) / d + 1)

/-- The search goes on at `p`: it has just begun, or the excess is still too large, or the first
quotient has wrapped around, which it does for one divisor. -/
def Unsettled (w d p : Nat) : Prop :=
  p = w - 1 ∨ 2 ^ p ≤ lastU w d * excessU d p ∨ d = 2 ^ (w - 1) + 1 ∧ p = 2 * w - 1

variable (hw : 3 ≤ w) (hd : 2 ≤ d) (hdw : d < 2 ^ w)

include hw in
theorem pow_eq_two_mul : 2 ^ w = 2 * 2 ^ (w - 1) ∧ 4 ≤ 2 ^ (w - 1) := by
  obtain ⟨k, rfl⟩ := Nat.exists_eq_add_of_le hw
  rw [show 3 + k - 1 = k + 2 by omega, show 3 + k = k + 2 + 1 by omega]
  have hpos : 0 < 2 ^ k := Nat.two_pow_pos k
  rw [Nat.pow_succ' (n := k + 2), Nat.pow_add]
  omega

include hd hdw in
theorem lastU_add_one : d ∣ lastU w d + 1 := by
  have hmod : 2 ^ w % d < d := mod_lt _ (by omega)
  have hdiv := div_add_mod (2 ^ w) d
  refine ⟨2 ^ w / d, ?_⟩
  unfold lastU
  omega

include hd hdw in
theorem lastU_bounds : 2 ^ w ≤ lastU w d + d ∧ lastU w d < 2 ^ w ∧ 0 < lastU w d := by
  have hmod : 2 ^ w % d < d := mod_lt _ (by omega)
  unfold lastU
  omega

include hd in
theorem mul_eq_excessU (p : Nat) : ((2 ^ p - 1) / d + 1) * d = 2 ^ p + excessU d p := by
  have hmod : (2 ^ p - 1) % d < d := mod_lt _ (by omega)
  have hdiv := div_add_mod (2 ^ p - 1) d
  have hpos : 0 < 2 ^ p := Nat.two_pow_pos p
  unfold excessU
  rw [Nat.add_mul, Nat.one_mul, Nat.mul_comm]
  omega

include hw in
theorem wrapped_divMod (h : d = 2 ^ (w - 1) + 1) :
    (2 ^ (2 * w - 1) - 1) / d = 2 ^ w - 2 ∧ (2 ^ (2 * w - 1) - 1) % d = 1 := by
  obtain ⟨hpow, hfour⟩ := pow_eq_two_mul hw
  have hsq : 2 ^ (2 * w - 1) = 2 * (2 ^ (w - 1) * 2 ^ (w - 1)) := by
    rw [← Nat.pow_add, ← Nat.pow_succ']
    congr 1
    omega
  obtain ⟨k, hk⟩ : ∃ k, 2 ^ (w - 1) = k + 1 := ⟨2 ^ (w - 1) - 1, by omega⟩
  have hnum : 2 ^ (2 * w - 1) - 1 = d * (2 ^ w - 2) + 1 := by
    have hprod : d * (2 ^ w - 2) = 2 * (k * k) + 4 * k := by
      rw [h, hpow, hk, show 2 * (k + 1) - 2 = 2 * k by omega]
      ring
    rw [hprod, hsq, hk]
    have : 2 * ((k + 1) * (k + 1)) = 2 * (k * k) + 4 * k + 2 := by ring
    omega
  have hd : 1 < d := by omega
  rw [hnum, mul_add_div (by omega), mul_add_mod, div_eq_of_lt hd, mod_eq_of_lt hd]
  exact ⟨rfl, rfl⟩

variable {p : Nat}

include hd hdw in
/-- As long as the search goes on, the second quotient fits, and has room for another bit if that
is a one. -/
theorem Unsettled.bound (hw : 3 ≤ w) (h : Unsettled w d p) : (2 ^ p - 1) / d < 2 ^ w ∧
      (d ≤ 2 * ((2 ^ p - 1) % d) + 1 → (2 ^ p - 1) / d + 1 < 2 ^ (w - 1)) := by
  obtain ⟨hpow, hfour⟩ := pow_eq_two_mul hw
  rcases h with rfl | hle | ⟨hd', rfl⟩
  · have hhalf : (2 ^ (w - 1) - 1) / d ≤ (2 ^ (w - 1) - 1) / 2 := div_le_div_left hd (by omega)
    exact ⟨by omega, fun _ => by omega⟩
  · obtain ⟨-, hlast, -⟩ := lastU_bounds hd hdw
    obtain ⟨d', rfl⟩ : ∃ d', d = d' + 1 := ⟨d - 1, by omega⟩
    obtain ⟨k, hk⟩ : ∃ k, 2 ^ (w - 1) = k + 1 := ⟨2 ^ (w - 1) - 1, by omega⟩
    have hmul : ∀ e, excessU (d' + 1) p ≤ e → 2 ^ p ≤ (2 * k + 1) * e := fun e he =>
      calc 2 ^ p ≤ lastU w (d' + 1) * excessU (d' + 1) p := hle
        _ ≤ (2 * k + 1) * e := Nat.mul_le_mul (by omega) he
    have hmul' : 2 * 2 ^ p ≤ (2 * k + 1) * (2 * excessU (d' + 1) p) := by
      have := hmul _ le_rfl
      rw [Nat.mul_left_comm]
      omega
    have hexp : (2 * k + 1) * d' = 2 * (k * d') + d' := by ring
    refine ⟨Nat.div_lt_of_lt_mul ?_, fun hodd => ?_⟩
    · have := hmul d' (by unfold excessU; omega)
      rw [hpow, hk, show (d' + 1) * (2 * (k + 1)) = 2 * (k * d') + 2 * d' + 2 * k + 2 by ring]
      omega
    · -- The excess is less than half the divisor.
      have hhalf : 2 * excessU (d' + 1) p ≤ d' := by
        unfold excessU
        omega
      have hprod : (2 * k + 1) * (2 * excessU (d' + 1) p) ≤ (2 * k + 1) * d' :=
        Nat.mul_le_mul_left _ hhalf
      have hlt : (2 ^ p - 1) / (d' + 1) < k := by
        refine Nat.div_lt_of_lt_mul ?_
        rw [show (d' + 1) * k = k * d' + k by ring]
        omega
      omega
  · obtain ⟨hq, hr⟩ := wrapped_divMod hw hd'
    rw [hq, hr]
    exact ⟨by omega, fun h => by omega⟩

theorem two_mul_pow_sub (p : Nat) : 2 ^ (p + 1) - 1 = 2 * (2 ^ p - 1) + 1 := by
  have hpos : 0 < 2 ^ p := Nat.two_pow_pos p
  rw [Nat.pow_succ']
  omega

include hd hdw in
/-- The quotient that the search takes next fits with one more bit, and does not fill it. -/
theorem Unsettled.next (hw : 3 ≤ w) (h : Unsettled w d p) :
    (2 ^ (p + 1) - 1) / d + 1 < 2 * 2 ^ w ∧ (2 ^ (p + 1) - 1) / d + 1 ≠ 2 ^ w := by
  obtain ⟨hpow, -⟩ := pow_eq_two_mul hw
  obtain ⟨hfits, hroom⟩ := h.bound hd hdw hw
  rw [two_mul_pow_sub, (double_div (by omega) 1 (by omega)).1]
  split_ifs with hodd
  · have := hroom hodd
    omega
  · omega

theorem wrappingSub_mod {a b : Nat} (hb : b ≤ a) (hbw : b ≤ 2 ^ w) (hlt : a - b < 2 ^ w) :
    wrappingSub w (a % 2 ^ w) b = a - b := by
  unfold wrappingSub
  rw [mod_add_mod, show a + (2 ^ w - b) = a - b + 2 ^ w by omega, add_mod_right, mod_eq_of_lt hlt]

theorem wrappingMul_two (a : Nat) : wrappingMul w 2 (a % 2 ^ w) = 2 * a % 2 ^ w := by
  unfold wrappingMul
  rw [mul_mod_mod]

theorem double1_wp {nc : Nat} {s : SearchU} {n : Nat} (hnc : 0 < nc) (hncw : nc < 2 ^ w)
    (hq : s.q1 = n / nc % 2 ^ w) (hr : s.r1 = n % nc) :
    wp (SearchU.double1 w nc s)
      (fun s' _ => s' = { s with q1 := 2 * n / nc % 2 ^ w, r1 := 2 * n % nc })
      (fun _ _ => False) () := by
  have hmod : n % nc < nc := mod_lt n hnc
  obtain ⟨hdiv2, hmod2⟩ := double_div (n := n) hnc 0 (by omega)
  rw [Nat.add_zero, Nat.add_zero] at hdiv2 hmod2
  unfold SearchU.double1
  rw [hq, hr]
  refine subW_wp (by omega) ?_
  rw [wp_ite]
  refine ⟨fun hge => ?_, fun hlt => ?_⟩
  · rw [wp_pure, hdiv2, hmod2, if_pos (by omega), if_pos (by omega)]
    congr 1
    · unfold wrappingAdd
      rw [wrappingMul_two, mod_add_mod]
    · unfold wrappingMul
      exact wrappingSub_mod (by omega) (by omega) (by omega)
  · refine mulW_wp (by omega) ?_
    rw [wp_pure, hdiv2, hmod2, if_neg (by omega), if_neg (by omega), wrappingMul_two]
    rfl

theorem double2_wp {s : SearchU} {n : Nat} (hpow : 2 ^ w = 2 * 2 ^ (w - 1)) (hd : 2 ≤ d)
    (hdw : d < 2 ^ w) (hfits : n / d < 2 ^ w)
    (hroom : d ≤ 2 * (n % d) + 1 → n / d + 1 < 2 ^ (w - 1)) (hq : s.q2 = n / d % 2 ^ w)
    (hr : s.r2 = n % d) (hadd : s.doAdd = decide (2 ^ w ≤ n / d + 1)) :
    wp (SearchU.double2 w d s)
      (fun s' _ => s' = { s with
        doAdd := decide (2 ^ w ≤ (2 * n + 1) / d + 1)
        q2 := (2 * n + 1) / d % 2 ^ w
        r2 := (2 * n + 1) % d })
      (fun _ _ => False) () := by
  have hmod : n % d < d := mod_lt n (by omega)
  obtain ⟨hdiv2, hmod2⟩ := double_div (n := n) (show 0 < d by omega) 1 (by omega)
  rw [mod_eq_of_lt hfits] at hq
  unfold SearchU.double2
  rw [hq, hr, hadd]
  refine addW_wp (by omega) ?_
  refine subW_wp (by omega) ?_
  rw [wp_ite]
  refine ⟨fun hge => ?_, fun hlt => ?_⟩
  · have hsmall := hroom (by omega)
    refine mulW_wp (by omega) ?_
    refine addW_wp (by omega) ?_
    rw [wp_pure, hdiv2, hmod2, if_pos (by omega), if_pos (by omega)]
    congr 1
    · rw [Bool.or_eq_decide]
      congr 1
      simp only [decide_eq_true_eq, ge_iff_le, eq_iff_iff]
      omega
    · rw [mod_eq_of_lt (by omega)]
    · unfold wrappingAdd wrappingMul
      rw [mod_add_mod]
      exact wrappingSub_mod (by omega) (by omega) (by omega)
  · refine mulW_wp (by omega) ?_
    refine addW_wp (by omega) ?_
    rw [wp_pure, hdiv2, hmod2, if_neg (by omega), if_neg (by omega)]
    congr 1
    · rw [Bool.or_eq_decide]
      congr 1
      simp only [decide_eq_true_eq, ge_iff_le, eq_iff_iff]
      omega

/-- The stored comparison is the right one, unless the first quotient has wrapped around. -/
theorem unsettled_of_again (hw : 3 ≤ w) (hd : 2 ≤ d) (hdw : d < 2 ^ w) (hp : p < 2 * w)
    (h : 2 ^ p / lastU w d % 2 ^ w < excessU d p ∨ 2 ^ p / lastU w d % 2 ^ w = excessU d p ∧
      2 ^ p % lastU w d = 0) :
    Unsettled w d p := by
  obtain ⟨hpow, hfour⟩ := pow_eq_two_mul hw
  obtain ⟨hlarge, hlast, hpos⟩ := lastU_bounds hd hdw
  by_cases hwrap : 2 ^ p / lastU w d < 2 ^ w
  · rw [mod_eq_of_lt hwrap, div_lt_or_iff hpos] at h
    exact .inr (.inl h)
  · -- The quotient is that large only if the last number is half the range.
    have hquot : 2 ^ w * lastU w d ≤ 2 ^ p :=
      (Nat.le_div_iff_mul_le hpos).1 (Nat.le_of_not_lt hwrap)
    have hp' : 2 ^ p ≤ 2 ^ w * 2 ^ (w - 1) := by
      rw [← Nat.pow_add]
      exact Nat.pow_le_pow_right (by omega) (by omega)
    have hhalf : lastU w d ≤ 2 ^ (w - 1) := Nat.le_of_mul_le_mul_left (hquot.trans hp') (by omega)
    have hd' : d = 2 ^ (w - 1) + 1 ∧ lastU w d = 2 ^ (w - 1) := by
      have hmod : 2 ^ w % d < d := mod_lt _ (by omega)
      by_cases hsmall : d ≤ 2 ^ (w - 1)
      · have hdvd : d = 2 ^ (w - 1) := by
          omega
        have : 2 ^ w % d = 0 := by rw [hpow, hdvd, mul_mod_left]
        unfold lastU at hhalf
        omega
      · have : 2 ^ w % d = 2 ^ w - d := by
          rw [mod_eq_sub_mod (by omega), mod_eq_of_lt (by omega)]
        unfold lastU at hhalf ⊢
        omega
    rw [hd'.2, ← Nat.pow_add] at hquot
    have := (Nat.pow_le_pow_iff_right (by omega)).1 hquot
    exact .inr (.inr ⟨hd'.1, by omega⟩)

theorem settled_of_not_again (hd : 2 ≤ d) (hdw : d < 2 ^ w)
    (h : ¬ (p < 2 * w ∧ (2 ^ p / lastU w d % 2 ^ w < excessU d p ∨
      2 ^ p / lastU w d % 2 ^ w = excessU d p ∧ 2 ^ p % lastU w d = 0))) :
    excessU d p * lastU w d < 2 ^ p := by
  obtain ⟨hlarge, hlast, hpos⟩ := lastU_bounds hd hdw
  have hexcess : excessU d p < d := by
    unfold excessU
    omega
  by_cases hp : p < 2 * w
  · rw [Nat.mul_comm, ← Nat.not_le, ← div_lt_or_iff hpos]
    by_cases hwrap : 2 ^ p / lastU w d < 2 ^ w
    · rw [mod_eq_of_lt hwrap] at h
      exact fun hagain => h ⟨hp, hagain⟩
    · omega
  · calc excessU d p * lastU w d < 2 ^ w * 2 ^ w := Nat.mul_lt_mul'' (by omega) hlast
      _ = 2 ^ (2 * w) := by rw [← Nat.pow_add, Nat.two_mul]
      _ ≤ 2 ^ p := Nat.pow_le_pow_right (by omega) (by omega)

theorem round_wp {s : SearchU} (hw : 3 ≤ w) (hd : 2 ≤ d) (hdw : d < 2 ^ w) (hs : s.At w d)
    (hp : Unsettled w d s.p) :
    wp (SearchU.round w d (lastU w d) s)
      (fun o _ => match o with
        | .inl s' => s'.At w d ∧ s'.p = s.p + 1 ∧ s'.p < 2 * w ∧ Unsettled w d s'.p
        | .inr s' => s'.At w d ∧ s'.p = s.p + 1 ∧ excessU d s'.p * lastU w d < 2 ^ s'.p)
      (fun _ _ => False) () := by
  obtain ⟨hpow, -⟩ := pow_eq_two_mul hw
  obtain ⟨-, hlast, hpos⟩ := lastU_bounds hd hdw
  obtain ⟨hfits, hroom⟩ := hp.bound hd hdw hw
  have hmod : (2 ^ (s.p + 1) - 1) % d < d := mod_lt _ (by omega)
  unfold SearchU.round
  refine wp_seq (double1_wp hpos hlast hs.q1 hs.r1) ?_
  rintro _ ⟨⟩ rfl
  refine wp_seq (double2_wp hpow hd hdw hfits hroom hs.q2 hs.r2 hs.doAdd) ?_
  rintro _ ⟨⟩ rfl
  rw [← two_mul_pow_sub, ← Nat.pow_succ']
  refine subW_wp (by omega) ?_
  refine subW_wp (by dsimp only; omega) ?_
  rw [wp_ite, wp_pure, wp_pure]
  refine ⟨fun hagain => ⟨⟨rfl, rfl, rfl, rfl, rfl⟩, rfl, hagain.1, ?_⟩,
    fun hstop => ⟨⟨rfl, rfl, rfl, rfl, rfl⟩, rfl, ?_⟩⟩
  · exact unsettled_of_again hw hd hdw hagain.1 hagain.2
  · exact settled_of_not_again hd hdw hstop

theorem foundU_of_settled (hw : 3 ≤ w) (hd : 2 ≤ d) (hdw : d < 2 ^ w)
    (hsettled : excessU d p * lastU w d < 2 ^ p) (hp : w ≤ p) (hp' : p ≤ 2 * w)
    (hlt : (2 ^ p - 1) / d + 1 < 2 * 2 ^ w) (hne : (2 ^ p - 1) / d + 1 ≠ 2 ^ w) : FoundU w d
      ⟨(2 ^ p - 1) / d % 2 ^ w + 1, decide (2 ^ w ≤ (2 ^ p - 1) / d + 1), p - w⟩ := by
  obtain ⟨hlarge, hlast, hpos⟩ := lastU_bounds hd hdw
  have hmul := mul_eq_excessU (d := d) hd p
  have hexcess : excessU d p < d := by
    unfold excessU
    omega
  -- The multiplier, put together again.
  have hwhole : (2 ^ p - 1) / d % 2 ^ w + 1 +
      (if decide (2 ^ w ≤ (2 ^ p - 1) / d + 1) = true then 2 ^ w else 0) =
        (2 ^ p - 1) / d + 1 := by
    by_cases hbig : 2 ^ w ≤ (2 ^ p - 1) / d + 1
    · rw [if_pos (decide_eq_true hbig), mod_eq_sub_mod (by omega), mod_eq_of_lt (by omega)]
      omega
    · rw [if_neg (by simpa using hbig), mod_eq_of_lt (by omega)]
  constructor
  · intro hadd
    dsimp only at hadd ⊢
    have hbig : 2 ^ w ≤ (2 ^ p - 1) / d + 1 := by simpa using hadd
    by_contra hzero
    obtain rfl : p = w := by omega
    have := Nat.mul_le_mul_right d hbig
    rw [hmul] at this
    have hd' := Nat.mul_le_mul_left (2 ^ p) hd
    omega
  · intro hadd
    dsimp only at hadd ⊢
    have hsmall : (2 ^ p - 1) / d + 1 < 2 ^ w := by simpa using hadd
    by_contra hfull
    obtain rfl : p = 2 * w := by omega
    have hprod : ((2 ^ (2 * w) - 1) / d + 1) * d ≤ 2 ^ w * d := Nat.mul_le_mul_right d hsmall.le
    have hprod' : 2 ^ w * d < 2 ^ w * 2 ^ w := Nat.mul_lt_mul_of_pos_left hdw (by omega)
    rw [hmul, Nat.two_mul, Nat.pow_add] at hprod
    omega
  · dsimp only
    omega
  · dsimp only
    by_contra hfull
    have hmax : (2 ^ p - 1) / d % 2 ^ w = 2 ^ w - 1 := by omega
    by_cases hbig : 2 ^ w ≤ (2 ^ p - 1) / d
    · rw [mod_eq_sub_mod hbig, mod_eq_of_lt (by omega)] at hmax
      omega
    · rw [mod_eq_of_lt (by omega)] at hmax
      omega
  · intro n hn
    rw [hwhole, Nat.add_sub_cancel' hp]
    exact mul_div_eq (by omega) hmul (excess_lt hd (lastU_add_one hd hdw) hsettled (by omega))

/-- **The search for an unsigned divisor** ends without an overflow, and finds numbers that
divide. -/
theorem magicU_wp (hw : 3 ≤ w) (hd : 2 ≤ d) (hdw : d < 2 ^ w) :
    wp (magicU w d) (fun magic _ => FoundU w d magic) (fun _ _ => False) () := by
  obtain ⟨hpow, hfour⟩ := pow_eq_two_mul hw
  obtain ⟨hlarge, hlast, hpos⟩ := lastU_bounds hd hdw
  have hneg : wrappingNeg w d % d = 2 ^ w % d := by
    have hlt : 2 ^ w - d < 2 ^ w := by omega
    unfold wrappingNeg
    rw [mod_eq_of_lt hlt, ← mod_eq_sub_mod hdw.le]
  have hquot1 := div_mul_le_self (2 ^ (w - 1)) (lastU w d)
  have hquot2 := div_mul_le_self (2 ^ (w - 1) - 1) d
  unfold magicU
  refine remW_wp (by omega) ?_
  rw [hneg]
  have hmod : 2 ^ w % d < d := mod_lt _ (by omega)
  refine subW_wp (by omega) ?_
  rw [show 2 ^ w - 1 - 2 ^ w % d = lastU w d from rfl]
  refine divW_wp (by omega) ?_
  refine mulW_wp (by omega) ?_
  refine subW_wp (by omega) ?_
  refine divW_wp (by omega) ?_
  refine mulW_wp (by omega) ?_
  refine subW_wp (by omega) ?_
  rw [wp_bind]
  refine wp_loop (fun s _ => s.At w d ∧ w - 1 ≤ s.p ∧ s.p < 2 * w ∧ Unsettled w d s.p)
    (fun s _ => 2 * w - s.p) ?_ ⟨?_, le_rfl, by dsimp only; omega, .inl rfl⟩
    (by dsimp only; omega)
  · rintro s ⟨⟩ ⟨hs, hp, hp', hunsettled⟩
    refine wp_imp (round_wp hw hd hdw hs hunsettled) ?_
    rintro (s' | s') ⟨⟩ hround
    · obtain ⟨hs', hsucc, hless, hunsettled'⟩ := hround
      exact ⟨⟨hs', by omega, hless, hunsettled'⟩, by omega⟩
    · obtain ⟨hs', hsucc, hsettled⟩ := hround
      obtain ⟨hlt, hne⟩ := hunsettled.next hd hdw hw
      rw [← hsucc] at hlt hne
      have hfound := foundU_of_settled hw hd hdw hsettled (by omega) (by omega) hlt hne
      rw [← hs'.q2, ← hs'.doAdd] at hfound
      dsimp only
      exact addW_wp hfound.mulBy_lt hfound
  · have hmul1 := div_add_mod (2 ^ (w - 1)) (lastU w d)
    have hmul2 := div_add_mod (2 ^ (w - 1) - 1) d
    have hle1 := Nat.div_le_self (2 ^ (w - 1)) (lastU w d)
    have hhalf : (2 ^ (w - 1) - 1) / d ≤ (2 ^ (w - 1) - 1) / 2 := div_le_div_left hd (by omega)
    rw [Nat.mul_comm] at hmul1 hmul2
    constructor
    · dsimp only
      rw [mod_eq_of_lt (by omega)]
    · dsimp only
      omega
    · dsimp only
      rw [mod_eq_of_lt (by omega)]
    · dsimp only
      omega
    · dsimp only
      exact (decide_eq_false (by omega)).symm

/-! ### The expression -/

def OpcodeU.eval (opcode : OpcodeU) (n d : BitVec w) : BitVec w :=
  match opcode with
  | .udiv => n / d
  | .urem => n % d

variable {c : Nat}

theorem eval_iconst_u {n : BitVec w} (hc : c < 2 ^ w) : ((iconst_u w c).eval n).toNat = c := by
  rw [iconst_u, Expr.eval, BitVec.toNat_ofNat, mod_eq_of_lt hc]

theorem eval_ushr_iconst_u {n : BitVec w} {a : Expr w} (hc : c < w) :
    ((Expr.ushr a (iconst_u w c)).eval n).toNat = (a.eval n).toNat / 2 ^ c := by
  rw [Expr.eval, eval_iconst_u (hc.trans Nat.lt_two_pow_self), mod_eq_of_lt hc,
    BitVec.toNat_ushiftRight, shiftRight_eq_div_pow]

theorem smallShifts_ushr_iconst_u {a : Expr w} (hc : c < w) (ha : a.smallShifts = true) :
    (Expr.ushr a (iconst_u w c)).smallShifts = true := by
  have hc' : c % 2 ^ w = c := mod_eq_of_lt (hc.trans Nat.lt_two_pow_self)
  simp [iconst_u, Expr.smallShifts, ha, hc', hc]

theorem eval_umulhi_iconst_u {n : BitVec w} (hc : c < 2 ^ w) :
    ((Expr.umulhi .numerator (iconst_u w c)).eval n).toNat = c * n.toNat / 2 ^ w := by
  have hlt : c * n.toNat / 2 ^ w < 2 ^ w := Nat.div_lt_of_lt_mul (Nat.mul_lt_mul'' hc n.isLt)
  rw [Expr.eval, Expr.umulhiVal, eval_iconst_u hc, Expr.eval, BitVec.toNat_ofNat,
    Nat.mul_comm n.toNat, mod_eq_of_lt hlt]

theorem finishU_correct {qf : Expr w} {n d : BitVec w} (opcode : OpcodeU)
    (hqf : (qf.eval n).toNat = n.toNat / d.toNat) (hshifts : qf.smallShifts = true) :
    (applyDivConstMagicU_finish w opcode d.toNat qf).smallShifts = true ∧
      (applyDivConstMagicU_finish w opcode d.toNat qf).eval n = opcode.eval n d := by
  have hqf' : qf.eval n = n / d := BitVec.eq_of_toNat_eq (by rw [hqf, BitVec.toNat_udiv])
  cases opcode with
  | udiv => exact ⟨hshifts, hqf'⟩
  | urem =>
    refine ⟨?_, ?_⟩
    · simp [applyDivConstMagicU_finish, Expr.smallShifts, iconst_u, hshifts]
    · have hd : (iconst_u w d.toNat).eval n = d := BitVec.eq_of_toNat_eq (eval_iconst_u d.isLt)
      have hle : n.toNat / d.toNat * d.toNat ≤ n.toNat := div_mul_le_self _ _
      have hmod : n.toNat % d.toNat = n.toNat - n.toNat / d.toNat * d.toNat := by
        have := div_add_mod n.toNat d.toNat
        rw [Nat.mul_comm] at this
        omega
      refine BitVec.eq_of_toNat_eq ?_
      rw [applyDivConstMagicU_finish, Expr.eval, Expr.eval, Expr.eval, hqf', hd, OpcodeU.eval,
        BitVec.toNat_sub, BitVec.toNat_mul, BitVec.toNat_udiv, BitVec.toNat_umod, hmod,
        mod_eq_of_lt (hle.trans_lt n.isLt),
        show 2 ^ w - n.toNat / d.toNat * d.toNat + n.toNat =
          n.toNat - n.toNat / d.toNat * d.toNat + 2 ^ w by have := n.isLt; omega,
        add_mod_right, mod_eq_of_lt (by have := n.isLt; omega)]

theorem innerU_correct {magic : MU} {d : BitVec w} (opcode : OpcodeU) (hw : 3 ≤ w)
    (h : FoundU w d.toNat magic) (n : BitVec w) :
    (applyDivConstMagicU_inner w opcode d.toNat magic).smallShifts = true ∧
      (applyDivConstMagicU_inner w opcode d.toNat magic).eval n = opcode.eval n d := by
  have hexact := h.exact n.toNat n.isLt
  have hq0 := eval_umulhi_iconst_u (n := n) h.mulBy_lt
  have hshifts0 : (Expr.umulhi .numerator (iconst_u w magic.mulBy)).smallShifts = true := by
    simp [Expr.smallShifts, iconst_u]
  rw [Nat.pow_add, ← Nat.div_div_eq_div_mul] at hexact
  unfold applyDivConstMagicU_inner applyDivConstMagicU_maybeAdd
  by_cases hadd : magic.doAdd = true
  · rw [if_pos hadd] at hexact ⊢
    have hpos := h.shift_pos hadd
    have hle := h.shift_le
    -- The high half of the product with the ninth bit is `n` more.
    rw [Nat.add_mul, add_mul_div_left _ _ (Nat.two_pow_pos w)] at hexact
    have hq0le : magic.mulBy * n.toNat / 2 ^ w ≤ n.toNat := by
      refine Nat.div_le_of_le_mul ?_
      exact Nat.mul_le_mul_right n.toNat h.mulBy_lt.le
    have hq3 : ((Expr.iadd (.umulhi .numerator (iconst_u w magic.mulBy))
        (.ushr (.isub .numerator (.umulhi .numerator (iconst_u w magic.mulBy)))
          (iconst_u w 1))).eval n).toNat = (magic.mulBy * n.toNat / 2 ^ w + n.toNat) / 2 := by
      rw [Expr.eval, BitVec.toNat_add, hq0, eval_ushr_iconst_u (by omega), Expr.eval,
        BitVec.toNat_sub, hq0, Expr.eval, Nat.pow_one,
        show 2 ^ w - magic.mulBy * n.toNat / 2 ^ w + n.toNat =
          n.toNat - magic.mulBy * n.toNat / 2 ^ w + 2 ^ w by omega,
        add_mod_right, mod_eq_of_lt (a := n.toNat - _) (by omega),
        mod_eq_of_lt (by omega)]
      omega
    rw [applyDivConstMagicU_maybeShift, if_neg (by omega)]
    refine finishU_correct opcode ?_ ?_
    · rw [eval_ushr_iconst_u (by omega), hq3, Nat.div_div_eq_div_mul, ← Nat.pow_succ',
        show (magic.shiftBy - 1).succ = magic.shiftBy by omega, hexact]
    · refine smallShifts_ushr_iconst_u (by omega) ?_
      rw [Expr.smallShifts, hshifts0, Bool.true_and]
      refine smallShifts_ushr_iconst_u (by omega) ?_
      rw [Expr.smallShifts, hshifts0, Bool.and_true]
      rfl
  · have hadd' : magic.doAdd = false := Bool.eq_false_iff.2 hadd
    rw [if_neg hadd] at hexact ⊢
    refine finishU_correct opcode ?_ ?_
    · rw [eval_ushr_iconst_u (h.shift_lt hadd'), hq0, ← hexact, Nat.add_zero]
    · exact smallShifts_ushr_iconst_u (h.shift_lt hadd') hshifts0

/-- **Unsigned division by a constant is exact**, and so is the remainder. -/
theorem applyDivConstMagicU_correct (hw : 3 ≤ w) (opcode : OpcodeU) (d : BitVec w)
    (hd : 2 ≤ d.toNat) :
    ∃ e, applyDivConstMagicU w (magicU w) opcode d.toNat () = (.ok e, ()) ∧
      e.smallShifts = true ∧ ∀ n, e.eval n = opcode.eval n d := by
  obtain ⟨magic, ⟨⟩, hrun, hfound⟩ := exists_of_wp (magicU_wp hw hd d.isLt)
  refine ⟨applyDivConstMagicU_inner w opcode d.toNat magic, ?_, ?_, fun n => ?_⟩
  · unfold applyDivConstMagicU
    rw [run_bind_ok hrun]
    rfl
  · exact (innerU_correct opcode hw hfound 0).1
  · exact (innerU_correct opcode hw hfound n).2

end Unsigned

end Wasmtime.Cranelift
