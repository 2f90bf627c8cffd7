import Wasmtime.Cranelift.DivConstUnsigned

/-!
# Signed division by constants

The search for a signed divisor divides `2 ^ p` by the magnitude of the divisor, and rounds up. The
floor of the product is the quotient if that is not negative, and otherwise one less, which the sign
bit makes up for. The range of magnitudes depends on the sign of the divisor, so that `- 2 ^ (w -
1)` needs a word of its own (`excessS_mul_half_le`).

* `magicS_wp`: the search ends, nothing in it overflows, and the numbers divide exactly.
* `applyDivConstMagicS_correct`: so does the expression that is built from them.
* `div_const_exact`: all four rules.
-/

namespace Wasmtime.Cranelift

open Base Prog Reciprocal Nat

section Signed

variable {w ad p : Nat} {d : Int}

/-- The magnitudes whose quotient is not negative are less than this. -/
def boundS (w : Nat) (d : Int) : Nat := 2 ^ (w - 1) + if d < 0 then 1 else 0

/-- The largest of them with remainder `ad - 1`. -/
def lastS (w : Nat) (d : Int) : Nat := boundS w d - 1 - boundS w d % d.natAbs

/-- What remains between the multiple of `ad` and the power. -/
def excessS (ad p : Nat) : Nat := ad - 2 ^ p % ad

structure DivisorS (w : Nat) (d : Int) : Prop where
  width : 3 ≤ w
  three_le : 3 ≤ d.natAbs
  lt_half : d.natAbs < 2 ^ (w - 1)
  not_pow : ∀ k, d.natAbs ≠ 2 ^ k

theorem DivisorS.excess_pos (h : DivisorS w d) (p : Nat) :
    0 < excessS d.natAbs p ∧ excessS d.natAbs p < d.natAbs := by
  have hmod : 2 ^ p % d.natAbs < d.natAbs := mod_lt _ (by have := h.three_le; omega)
  have hne : 2 ^ p % d.natAbs ≠ 0 := fun hzero => by
    obtain ⟨k, -, hk⟩ := (Nat.dvd_prime_pow prime_two).1 (dvd_of_mod_eq_zero hzero)
    exact h.not_pow k hk
  unfold excessS
  omega

theorem DivisorS.last_bounds (h : DivisorS w d) :
    d.natAbs ∣ lastS w d + 1 ∧ boundS w d ≤ lastS w d + d.natAbs ∧ lastS w d ≤ 2 ^ (w - 1) ∧
      2 ≤ lastS w d := by
  have hthree := h.three_le
  have hlt := h.lt_half
  have hmod : boundS w d % d.natAbs < d.natAbs := mod_lt _ (by omega)
  have hdiv := div_add_mod (boundS w d) d.natAbs
  have hbound : 2 ^ (w - 1) ≤ boundS w d ∧ boundS w d ≤ 2 ^ (w - 1) + 1 := by
    unfold boundS
    split_ifs <;> omega
  have hdvd : d.natAbs ∣ lastS w d + 1 := by
    refine ⟨boundS w d / d.natAbs, ?_⟩
    unfold lastS
    omega
  have hle : d.natAbs ≤ lastS w d + 1 := le_of_dvd (succ_pos _) hdvd
  refine ⟨hdvd, ?_, ?_, by omega⟩
  · unfold lastS
    omega
  · unfold lastS
    omega

theorem mul_eq_excessS (had : 0 < ad) (p : Nat) : (2 ^ p / ad + 1) * ad = 2 ^ p + excessS ad p := by
  have hmod : 2 ^ p % ad < ad := mod_lt _ had
  have hdiv := div_add_mod (2 ^ p) ad
  unfold excessS
  rw [Nat.add_mul, Nat.one_mul, Nat.mul_comm]
  omega

/-! ### The search -/

structure SearchS.At (w : Nat) (d : Int) (s : SearchS) : Prop where
  q1 : s.q1 = 2 ^ s.p / lastS w d
  r1 : s.r1 = 2 ^ s.p % lastS w d
  q2 : s.q2 = 2 ^ s.p / d.natAbs
  r2 : s.r2 = 2 ^ s.p % d.natAbs

/-- The search goes on at `p`: it has just begun, or the excess is still too large. -/
def UnsettledS (w : Nat) (d : Int) (p : Nat) : Prop :=
  p = w - 1 ∨ 2 ^ p ≤ lastS w d * excessS d.natAbs p

theorem UnsettledS.bound (h : UnsettledS w d p) (hd : DivisorS w d) :
    2 * (2 ^ p / lastS w d) + 1 < 2 ^ w ∧ 2 * (2 ^ p / d.natAbs) + 1 < 2 ^ w ∧
      2 ^ (p + 1) / d.natAbs + 1 < 2 ^ w ∧ p + 1 < 2 * w := by
  obtain ⟨hpow, hfour⟩ := pow_eq_two_mul hd.width
  obtain ⟨-, -, hlast, htwo⟩ := hd.last_bounds
  obtain ⟨hpos, hexcess⟩ := hd.excess_pos p
  have hthree := hd.three_le
  have hlt := hd.lt_half
  have hwidth := hd.width
  rcases h with rfl | hle
  · have hq1 : 2 ^ (w - 1) / lastS w d ≤ 2 ^ (w - 1) / 2 := div_le_div_left htwo (by omega)
    have hq2 : 2 ^ (w - 1) / d.natAbs ≤ 2 ^ (w - 1) / 3 := div_le_div_left hthree (by omega)
    have hq3 : 2 ^ w / d.natAbs ≤ 2 ^ w / 3 := div_le_div_left hthree (by omega)
    rw [Nat.sub_add_cancel (by omega)]
    omega
  · have hq1 : 2 ^ p / lastS w d ≤ excessS d.natAbs p := Nat.div_le_of_le_mul hle
    have hprod : ∀ e, excessS d.natAbs p ≤ e → 2 ^ p ≤ 2 ^ (w - 1) * e := fun e he =>
      hle.trans (Nat.mul_le_mul hlast he)
    have hq2 : 2 ^ p / d.natAbs < 2 ^ (w - 1) := by
      refine Nat.div_lt_of_lt_mul ?_
      calc 2 ^ p ≤ 2 ^ (w - 1) * (d.natAbs - 1) := hprod _ (by omega)
        _ < 2 ^ (w - 1) * d.natAbs := Nat.mul_lt_mul_of_pos_left (by omega) (by omega)
        _ = d.natAbs * 2 ^ (w - 1) := Nat.mul_comm _ _
    refine ⟨by omega, by omega, ?_, ?_⟩
    · have hdouble := (double_div (n := 2 ^ p) (show 0 < d.natAbs by omega) 0 (by omega)).1
      rw [Nat.add_zero, Nat.add_zero, ← Nat.pow_succ'] at hdouble
      rw [hdouble]
      split_ifs with hodd
      · -- The excess is at most half the divisor.
        have hhalf : 2 * excessS d.natAbs p ≤ d.natAbs := by
          unfold excessS
          omega
        have hq2' : 2 ^ p / d.natAbs ≤ 2 ^ (w - 1) / 2 := by
          have h2 := hprod _ le_rfl
          have h3 : 2 ^ (w - 1) * (2 * excessS d.natAbs p) ≤ 2 ^ (w - 1) * d.natAbs :=
            Nat.mul_le_mul_left _ hhalf
          rw [Nat.mul_left_comm] at h3
          rw [Nat.le_div_iff_mul_le (by omega)]
          refine Nat.le_of_mul_le_mul_right ?_ (show 0 < d.natAbs by omega)
          have h4 := div_mul_le_self (2 ^ p) d.natAbs
          rw [Nat.mul_right_comm]
          omega
        omega
      · omega
    · have hlt' : 2 ^ p < 2 ^ (w - 1 + (w - 1)) := by
        rw [Nat.pow_add]
        calc 2 ^ p ≤ 2 ^ (w - 1) * (d.natAbs - 1) := hprod _ (by omega)
          _ < 2 ^ (w - 1) * 2 ^ (w - 1) := Nat.mul_lt_mul_of_pos_left (by omega) (by omega)
      have := (Nat.pow_lt_pow_iff_right (by omega)).1 hlt'
      omega

theorem doubleW_wp {divisor n : Nat} (hpos : 0 < divisor) (hr : 2 * (n % divisor) < 2 ^ w)
    (hq : 2 * (n / divisor) + 1 < 2 ^ w) :
    wp (doubleW w divisor (n / divisor) (n % divisor))
      (fun r _ => r = (2 * n / divisor, 2 * n % divisor)) (fun _ _ => False) () := by
  obtain ⟨hdiv2, hmod2⟩ := double_div (n := n) hpos 0 (by omega)
  rw [Nat.add_zero, Nat.add_zero] at hdiv2 hmod2
  unfold doubleW
  refine mulW_wp (by omega) ?_
  refine mulW_wp hr ?_
  rw [wp_ite]
  refine ⟨fun hge => ?_, fun hlt => ?_⟩
  · refine addW_wp hq ?_
    refine subW_wp hge ?_
    rw [wp_pure, hdiv2, hmod2, if_pos hge, if_pos hge]
  · rw [wp_pure, hdiv2, hmod2, if_neg (by omega), if_neg (by omega), Nat.add_zero, Nat.sub_zero]

theorem roundS_wp {s : SearchS} (hd : DivisorS w d) (hs : s.At w d)
    (hp : UnsettledS w d s.p) :
    wp (SearchS.round w d.natAbs (lastS w d) s)
      (fun o _ => match o with
        | .inl s' => s'.At w d ∧ s'.p = s.p + 1 ∧ UnsettledS w d s'.p
        | .inr s' => s'.At w d ∧ s'.p = s.p + 1 ∧ excessS d.natAbs s'.p * lastS w d < 2 ^ s'.p)
      (fun _ _ => False) () := by
  obtain ⟨hpow, hfour⟩ := pow_eq_two_mul hd.width
  obtain ⟨-, -, hlast, htwo⟩ := hd.last_bounds
  obtain ⟨hq1, hq2, -⟩ := hp.bound hd
  have hthree := hd.three_le
  have hlt := hd.lt_half
  have hmod1 : 2 ^ s.p % lastS w d < lastS w d := mod_lt _ (by omega)
  have hmod2 : 2 ^ s.p % d.natAbs < d.natAbs := mod_lt _ (by omega)
  have hmod3 : 2 ^ (s.p + 1) % d.natAbs < d.natAbs := mod_lt _ (by omega)
  unfold SearchS.round
  rw [wp_bind, hs.q1, hs.r1, hs.q2, hs.r2]
  refine wp_imp (doubleW_wp (by omega) (by omega) hq1) ?_
  rintro _ ⟨⟩ rfl
  refine wp_seq (doubleW_wp (by omega) (by omega) hq2) ?_
  rintro _ ⟨⟩ rfl
  rw [← Nat.pow_succ']
  refine subW_wp hmod3.le ?_
  rw [wp_ite, wp_pure, wp_pure]
  rw [show d.natAbs - 2 ^ s.p.succ % d.natAbs = excessS d.natAbs (s.p + 1) from rfl,
    div_lt_or_iff (show 0 < lastS w d by omega)]
  refine ⟨fun hagain => ⟨⟨rfl, rfl, rfl, rfl⟩, rfl, .inr hagain⟩,
    fun hstop => ⟨⟨rfl, rfl, rfl, rfl⟩, rfl, ?_⟩⟩
  rw [Nat.mul_comm]
  exact Nat.lt_of_not_le hstop

/-! ### What it finds -/

structure FoundS (w : Nat) (d : Int) (m : Nat) (magic : MS) : Prop where
  shift_lt : magic.shiftBy < w
  mulBy : magic.mulBy = toSigned w (if d < 0 then wrappingNeg w m else m)
  pos : 0 < m
  lt : m < 2 ^ w
  div_eq : ∀ n < boundS w d, m * n / 2 ^ (w + magic.shiftBy) = n / d.natAbs
  above : ∀ n, 0 < n → n / d.natAbs * 2 ^ (w + magic.shiftBy) < m * n
  below : ∀ n ≤ 2 ^ (w - 1), m * n ≤ (n / d.natAbs + 1) * 2 ^ (w + magic.shiftBy)

/-- The number that has no positive counterpart: if its remainder is the largest there is, the
excess is a remainder of a power of two that is small enough. -/
theorem excessS_mul_half_le (had : 0 < ad) (hp : w - 1 ≤ p) (hdvd : ad ∣ 2 ^ (w - 1) + 1) :
    excessS ad p * 2 ^ (w - 1) ≤ 2 ^ p := by
  have hsplit : 2 ^ p = 2 ^ (p - (w - 1)) * 2 ^ (w - 1) := by
    rw [← Nat.pow_add, Nat.sub_add_cancel hp]
  have hle : excessS ad p ≤ 2 ^ (p - (w - 1)) := by
    have h1 : ad ∣ 2 ^ p + excessS ad p := ⟨2 ^ p / ad + 1, by
      rw [← mul_eq_excessS had p, Nat.mul_comm]⟩
    have h2 : ad ∣ 2 ^ p + 2 ^ (p - (w - 1)) := by
      obtain ⟨c, hc⟩ := hdvd
      refine ⟨2 ^ (p - (w - 1)) * c, ?_⟩
      calc 2 ^ p + 2 ^ (p - (w - 1)) = 2 ^ (p - (w - 1)) * (2 ^ (w - 1) + 1) := by
            rw [hsplit, Nat.mul_add, Nat.mul_one]
        _ = ad * (2 ^ (p - (w - 1)) * c) := by rw [hc, Nat.mul_left_comm]
    by_contra hgt
    have h3 : ad ∣ excessS ad p - 2 ^ (p - (w - 1)) := by
      have := Nat.dvd_sub h1 h2
      rwa [Nat.add_sub_add_left] at this
    have h4 := le_of_dvd (by omega) h3
    have hpos := Nat.two_pow_pos (p - (w - 1))
    unfold excessS at h4
    omega
  rw [hsplit]
  exact Nat.mul_le_mul_right _ hle

theorem foundS_of_settled (hd : DivisorS w d)
    (hsettled : excessS d.natAbs p * lastS w d < 2 ^ p) (hp : w ≤ p) (hp' : p < 2 * w)
    (hlt : 2 ^ p / d.natAbs + 1 < 2 ^ w) :
    FoundS w d (2 ^ p / d.natAbs + 1)
      ⟨toSigned w (if d < 0 then wrappingNeg w (2 ^ p / d.natAbs + 1)
        else 2 ^ p / d.natAbs + 1), p - w⟩ := by
  obtain ⟨hdvd, hbound, hlast, htwo⟩ := hd.last_bounds
  obtain ⟨hpos, hexcess⟩ := hd.excess_pos p
  have hmul := mul_eq_excessS (show 0 < d.natAbs by omega) p
  have hall : ∀ n, n < lastS w d + d.natAbs →
      excessS d.natAbs p * n < (d.natAbs - n % d.natAbs) * 2 ^ p := fun n hn =>
    excess_lt (by omega) hdvd hsettled hn
  constructor
  · dsimp only
    omega
  · rfl
  · exact succ_pos _
  · exact hlt
  · intro n hn
    rw [Nat.add_sub_cancel' hp]
    exact mul_div_eq (by omega) hmul (hall n (by omega))
  · intro n hn
    dsimp only
    rw [Nat.add_sub_cancel' hp]
    exact lt_mul_of_excess hmul hpos hn
  · intro n hn
    dsimp only
    rw [Nat.add_sub_cancel' hp]
    refine mul_le_of_excess (by omega) hmul ?_
    by_cases hin : n < lastS w d + d.natAbs
    · exact (hall n hin).le
    · -- Only the largest magnitude is left.
      have hge : 2 ^ (w - 1) ≤ boundS w d := by
        unfold boundS
        omega
      have hn' : n = 2 ^ (w - 1) := by omega
      have hdvd' : d.natAbs ∣ n + 1 := by
        have hsum : n + 1 = lastS w d + 1 + d.natAbs := by omega
        rw [hsum]
        exact Nat.dvd_add hdvd (Nat.dvd_refl _)
      have hmod : n % d.natAbs = d.natAbs - 1 := by
        obtain ⟨c, hc⟩ := hdvd'
        obtain ⟨c', rfl⟩ : ∃ c', c = c' + 1 := ⟨c - 1, by
          rcases c with _ | c
          · omega
          · rfl⟩
        have hn'' : n = d.natAbs * c' + (d.natAbs - 1) := by
          rw [mul_succ] at hc
          omega
        rw [hn'', mul_add_mod, mod_eq_of_lt (by omega)]
      rw [hmod, show d.natAbs - (d.natAbs - 1) = 1 by omega, Nat.one_mul, hn']
      rw [hn'] at hdvd'
      exact excessS_mul_half_le (by omega) (by omega) hdvd'

theorem searchS_wp (hd : DivisorS w d) :
    wp (searchS w d (lastS w d)) (fun magic _ => ∃ m, FoundS w d m magic)
      (fun _ _ => False) () := by
  obtain ⟨hpow, hfour⟩ := pow_eq_two_mul hd.width
  obtain ⟨hdvd, hbound, hlast, htwo⟩ := hd.last_bounds
  have hthree := hd.three_le
  have hquot1 := div_mul_le_self (2 ^ (w - 1)) (lastS w d)
  have hquot2 := div_mul_le_self (2 ^ (w - 1)) d.natAbs
  unfold searchS
  refine divW_wp (by omega) ?_
  refine mulW_wp (by omega) ?_
  refine subW_wp (by omega) ?_
  refine divW_wp (by omega) ?_
  refine mulW_wp (by omega) ?_
  refine subW_wp (by omega) ?_
  rw [wp_bind]
  refine wp_loop (fun s _ => s.At w d ∧ w - 1 ≤ s.p ∧ UnsettledS w d s.p)
    (fun s _ => 2 * w - s.p) ?_ ⟨?_, le_rfl, .inl rfl⟩ (by dsimp only; omega)
  · rintro s ⟨⟩ ⟨hs, hp, hunsettled⟩
    obtain ⟨-, -, hnext, hp'⟩ := hunsettled.bound hd
    refine wp_imp (roundS_wp hd hs hunsettled) ?_
    rintro (s' | s') ⟨⟩ hround
    · obtain ⟨hs', hsucc, hunsettled'⟩ := hround
      exact ⟨⟨hs', by omega, hunsettled'⟩, by omega⟩
    · obtain ⟨hs', hsucc, hsettled⟩ := hround
      rw [← hsucc] at hnext hp'
      have hfound := foundS_of_settled hd hsettled (by omega) hp' hnext
      rw [← hs'.q2] at hfound hnext
      dsimp only
      exact addW_wp hnext ⟨_, hfound⟩
  · have hmul1 := div_add_mod (2 ^ (w - 1)) (lastS w d)
    have hmul2 := div_add_mod (2 ^ (w - 1)) d.natAbs
    rw [Nat.mul_comm] at hmul1 hmul2
    exact ⟨rfl, by dsimp only; omega, rfl, by dsimp only; omega⟩

/-- **The search for a signed divisor** ends without an overflow, and finds numbers that
divide. -/
theorem magicS_wp (hd : DivisorS w d) :
    wp (magicS w d) (fun magic _ => ∃ m, FoundS w d m magic) (fun _ _ => False) () := by
  obtain ⟨hpow, hfour⟩ := pow_eq_two_mul hd.width
  have hthree := hd.three_le
  have hlt := hd.lt_half
  have hb : boundS w d ≤ 2 ^ (w - 1) + 1 ∧ 2 ^ (w - 1) ≤ boundS w d := by
    unfold boundS
    split_ifs <;> omega
  have hmod : boundS w d % d.natAbs < d.natAbs := mod_lt _ (by omega)
  have hanc : wrappingSub w (boundS w d - 1) (boundS w d % d.natAbs) = lastS w d := by
    have hsub := wrappingSub_mod (w := w) (a := boundS w d - 1) (b := boundS w d % d.natAbs)
      (by omega) (by omega) (by omega)
    rwa [mod_eq_of_lt (by omega)] at hsub
  unfold magicS
  refine addW_wp (show boundS w d < 2 ^ w by omega) ?_
  refine subW_wp (show 1 ≤ boundS w d by omega) ?_
  refine remW_wp (by omega) ?_
  change wp (searchS w d (wrappingSub w (boundS w d - 1) (boundS w d % d.natAbs))) _ _ _
  rw [hanc]
  exact searchS_wp hd

/-! ### The expression -/

def OpcodeS.eval (opcode : OpcodeS) (n d : BitVec w) : BitVec w :=
  match opcode with
  | .sdiv => n.sdiv d
  | .srem => n.srem d

def signedMul (d : Int) (m : Nat) : Int := if d < 0 then -m else m

variable {magic : MS} {m : Nat}

theorem FoundS.floor_pos (h : FoundS w d m magic) {k : Nat} (hk : k < boundS w d) :
    (m : Int) * k / 2 ^ (w + magic.shiftBy) = ((k / d.natAbs : Nat) : Int) := by
  rw [← h.div_eq k hk]
  rfl

theorem FoundS.floor_neg (h : FoundS w d m magic) {k : Nat} (hk : 0 < k) (hle : k ≤ 2 ^ (w - 1)) :
    -((m : Int) * k) / 2 ^ (w + magic.shiftBy) = -((k / d.natAbs : Nat) : Int) - 1 := by
  have hpos : (0 : Int) < 2 ^ (w + magic.shiftBy) := by positivity
  have habove : ((k / d.natAbs : Nat) : Int) * 2 ^ (w + magic.shiftBy) < m * k := by
    exact_mod_cast h.above k hk
  have hbelow : (m : Int) * k ≤ (((k / d.natAbs : Nat) : Int) + 1) * 2 ^ (w + magic.shiftBy) := by
    exact_mod_cast h.below k hle
  refine le_antisymm (Int.le_of_lt_add_one ?_) ?_
  · rw [Int.ediv_lt_iff_lt_mul hpos, Int.sub_add_cancel, Int.neg_mul]
    exact Int.neg_lt_neg habove
  · rw [Int.le_ediv_iff_mul_le hpos,
      show -((k / d.natAbs : Nat) : Int) - 1 = -(((k / d.natAbs : Nat) : Int) + 1) by ring,
      Int.neg_mul]
    exact Int.neg_le_neg hbelow

/-- **The quotient from the product**: its floor, and one more if that is negative. -/
theorem FoundS.quotient (h : FoundS w d m magic) {n : Int} (hle : -2 ^ (w - 1) ≤ n)
    (hlt : n < 2 ^ (w - 1)) : (signedMul d m * n / 2 ^ (w + magic.shiftBy) +
      if signedMul d m * n / 2 ^ (w + magic.shiftBy) < 0 then 1 else 0) = n.tdiv d := by
  have hcast : ((2 ^ (w - 1) : Nat) : Int) = 2 ^ (w - 1) := by push_cast; rfl
  -- A quotient that is not negative, and one that is at most zero.
  have hup : ∀ k < boundS w d, ((m : Int) * k / 2 ^ (w + magic.shiftBy) +
      if (m : Int) * k / 2 ^ (w + magic.shiftBy) < 0 then 1 else 0) = (k : Int).tdiv d.natAbs := by
    intro k hk
    rw [h.floor_pos hk, if_neg (not_lt.2 (Int.natCast_nonneg _)), Int.add_zero, Int.ofNat_tdiv]
  have hdown : ∀ k : Nat, k ≤ 2 ^ (w - 1) → (-((m : Int) * k) / 2 ^ (w + magic.shiftBy) +
      if -((m : Int) * k) / 2 ^ (w + magic.shiftBy) < 0 then 1 else 0) =
        -(k : Int).tdiv d.natAbs := by
    intro k hk
    rcases Nat.eq_zero_or_pos k with rfl | hpos
    · simp
    · have hnonneg := Int.natCast_nonneg (k / d.natAbs)
      rw [h.floor_neg hpos hk, ← Int.ofNat_tdiv]
      generalize ((k / d.natAbs : Nat) : Int) = q at hnonneg ⊢
      rw [if_pos (by omega)]
      omega
  unfold signedMul
  by_cases hneg : d < 0
  · have hd : d = -(d.natAbs : Int) := by omega
    have hbound : boundS w d = 2 ^ (w - 1) + 1 := by
      unfold boundS
      rw [if_pos hneg]
    rw [if_pos hneg]
    obtain ⟨k, rfl | rfl⟩ := Int.eq_nat_or_neg n
    · rw [Int.neg_mul, hdown k (by omega), ← Int.tdiv_neg, ← hd]
    · rw [Int.neg_mul_neg, hup k (by omega), ← Int.neg_tdiv_neg, ← hd]
  · have hd : d = (d.natAbs : Int) := by omega
    have hbound : boundS w d = 2 ^ (w - 1) := by
      unfold boundS
      rw [if_neg hneg, Nat.add_zero]
    rw [if_neg hneg]
    obtain ⟨k, rfl | rfl⟩ := Int.eq_nat_or_neg n
    · rw [hup k (by omega), ← hd]
    · rw [Int.mul_neg, hdown k (by omega), ← Int.neg_tdiv, ← hd]

theorem ofInt_sub (a b : Int) : BitVec.ofInt w (a - b) = BitVec.ofInt w a - BitVec.ofInt w b := by
  refine BitVec.eq_of_toInt_eq ?_
  rw [BitVec.toInt_sub, BitVec.toInt_ofInt, BitVec.toInt_ofInt, BitVec.toInt_ofInt]
  simp

/-- The multiplier as the source stores it: it may be off by `2 ^ w`. -/
theorem FoundS.mulBy_cases (h : FoundS w d m magic) (hw : 3 ≤ w) :
    -2 ^ (w - 1) ≤ magic.mulBy ∧ magic.mulBy < 2 ^ (w - 1) ∧
      (if d > 0 ∧ magic.mulBy < 0 then magic.mulBy + 2 ^ w = signedMul d m
        else if d < 0 ∧ magic.mulBy > 0 then magic.mulBy - 2 ^ w = signedMul d m
        else d ≠ 0 → magic.mulBy = signedMul d m) := by
  obtain ⟨hpow, hfour⟩ := pow_eq_two_mul hw
  have hcast : ((2 ^ w : Nat) : Int) = 2 * 2 ^ (w - 1) := by
    rw [hpow]
    rfl
  have hcast' : (2 : Int) ^ w = 2 * 2 ^ (w - 1) := by
    rw [← hcast]
    rfl
  have hpos := h.pos
  have hlt := h.lt
  have hmul := h.mulBy
  unfold toSigned at hmul
  unfold signedMul
  by_cases hneg : d < 0
  · have hwrap : wrappingNeg w m = 2 ^ w - m := by
      unfold wrappingNeg
      rw [mod_eq_of_lt (by omega)]
    rw [if_pos hneg, hwrap, Int.bmod_def, Int.emod_eq_of_lt (by omega) (by omega)] at hmul
    rw [if_neg (by omega), if_pos hneg]
    split_ifs at hmul ⊢ <;> omega
  · rw [if_neg hneg, Int.bmod_def, Int.emod_eq_of_lt (by omega) (by omega)] at hmul
    rw [if_neg hneg]
    split_ifs at hmul ⊢ <;> omega

def highProduct (w : Nat) (d : Int) (m : Nat) (n : Int) : Int := signedMul d m * n / 2 ^ w

theorem FoundS.highProduct_range (h : FoundS w d m magic) {n : Int} (hle : -2 ^ (w - 1) ≤ n)
    (hlt : n < 2 ^ (w - 1)) :
    -2 ^ (w - 1) ≤ highProduct w d m n ∧ highProduct w d m n < 2 ^ (w - 1) := by
  have hhalf : ((2 ^ (w - 1) : Nat) : Int) = 2 ^ (w - 1) := by push_cast; rfl
  have hpos : (0 : Int) < 2 ^ w := by positivity
  have habs : (signedMul d m * n).natAbs < 2 ^ (w - 1) * 2 ^ w := by
    have hm : (signedMul d m).natAbs = m := by
      unfold signedMul
      split_ifs <;> omega
    rw [Int.natAbs_mul, hm, Nat.mul_comm (2 ^ (w - 1))]
    calc m * n.natAbs ≤ m * 2 ^ (w - 1) := Nat.mul_le_mul_left m (by omega)
      _ < 2 ^ w * 2 ^ (w - 1) := Nat.mul_lt_mul_of_pos_right h.lt (Nat.two_pow_pos _)
  have habs' : |signedMul d m * n| < 2 ^ (w - 1) * 2 ^ w := by
    rw [Int.abs_eq_natAbs]
    exact_mod_cast habs
  obtain ⟨hlow, hhigh⟩ := abs_lt.1 habs'
  unfold highProduct
  rw [Int.le_ediv_iff_mul_le hpos, Int.ediv_lt_iff_lt_mul hpos, Int.neg_mul]
  exact ⟨hlow.le, hhigh⟩

variable {c : Nat}

theorem eval_iconst_s {n : BitVec w} (hc : c < w) : ((iconst_s w c).eval n).toNat = c := by
  have hlt : c < 2 ^ w := hc.trans Nat.lt_two_pow_self
  rw [iconst_s, Expr.eval, BitVec.toNat_ofInt, Int.emod_eq_of_lt (by omega) (by exact_mod_cast hlt),
    Int.toNat_natCast]

theorem toNat_lt_of_iconst_s (hc : c < w) : (BitVec.ofInt w (c : Int)).toNat < w := by
  have heq := eval_iconst_s (n := 0) hc
  rw [iconst_s, Expr.eval] at heq
  omega

theorem smallShifts_sshr {a : Expr w} (hc : c < w) (ha : a.smallShifts = true) :
    (Expr.sshr a (iconst_s w c)).smallShifts = true := by
  rw [iconst_s, Expr.smallShifts, ha, decide_eq_true (toNat_lt_of_iconst_s hc)]
  rfl

theorem smallShifts_ushr {a : Expr w} (hc : c < w) (ha : a.smallShifts = true) :
    (Expr.ushr a (iconst_s w c)).smallShifts = true := by
  rw [iconst_s, Expr.smallShifts, ha, decide_eq_true (toNat_lt_of_iconst_s hc)]
  rfl

theorem ushr_sign (hw : 3 ≤ w) (x : BitVec w) :
    x >>> (w - 1) = BitVec.ofInt w (if x.toInt < 0 then 1 else 0) := by
  obtain ⟨hpow, hfour⟩ := pow_eq_two_mul hw
  have hcond := BitVec.toInt_eq_toNat_cond x
  refine BitVec.eq_of_toNat_eq ?_
  rw [BitVec.toNat_ushiftRight, shiftRight_eq_div_pow, BitVec.toNat_ofInt]
  by_cases hsmall : 2 * x.toNat < 2 ^ w
  · rw [if_pos hsmall] at hcond
    rw [if_neg (by omega), div_eq_of_lt (by omega), Int.zero_emod]
    rfl
  · rw [if_neg hsmall] at hcond
    have hone : x.toNat / 2 ^ (w - 1) = 1 := by
      rw [Nat.div_eq_of_lt_le] <;> omega
    rw [if_pos (by omega), hone, Int.emod_eq_of_lt (by omega) (by omega)]
    rfl

theorem finishS_correct {qf : Expr w} {n d : BitVec w} (opcode : OpcodeS)
    (hqf : qf.eval n = BitVec.ofInt w (n.toInt.tdiv d.toInt)) (hshifts : qf.smallShifts = true) :
    (applyDivConstMagicS_finish w opcode d.toInt qf).smallShifts = true ∧
      (applyDivConstMagicS_finish w opcode d.toInt qf).eval n = opcode.eval n d := by
  cases opcode with
  | sdiv =>
    refine ⟨hshifts, ?_⟩
    refine BitVec.eq_of_toInt_eq ?_
    rw [applyDivConstMagicS_finish, hqf, OpcodeS.eval, BitVec.toInt_sdiv, BitVec.toInt_ofInt]
  | srem =>
    refine ⟨?_, ?_⟩
    · simp [applyDivConstMagicS_finish, Expr.smallShifts, iconst_s, hshifts]
    · have hrem : n.srem d = BitVec.ofInt w (n.toInt.tmod d.toInt) := by
        rw [← BitVec.toInt_srem, BitVec.ofInt_toInt]
      rw [OpcodeS.eval, hrem, Int.tmod_def, ofInt_sub, BitVec.ofInt_toInt, Int.mul_comm,
        BitVec.ofInt_mul]
      simp only [applyDivConstMagicS_finish, Expr.eval, hqf, iconst_s]

theorem shiftS_correct {q2 : Expr w} {n d : BitVec w} (opcode : OpcodeS) (hw : 3 ≤ w)
    (h : FoundS w d.toInt m magic)
    (hq2 : q2.eval n = BitVec.ofInt w (highProduct w d.toInt m n.toInt))
    (hshifts : q2.smallShifts = true) :
    (applyDivConstMagicS_shift w opcode d.toInt magic q2).smallShifts = true ∧
      (applyDivConstMagicS_shift w opcode d.toInt magic q2).eval n = opcode.eval n d := by
  obtain ⟨hlow, hhigh⟩ := h.highProduct_range n.le_toInt n.toInt_lt
  have hsub : ((w : Int) - 1) = ((w - 1 : Nat) : Int) := by omega
  have hsmall := smallShifts_sshr h.shift_lt hshifts
  -- The product, shifted the rest of the way.
  have hq3 : ((Expr.sshr q2 (iconst_s w magic.shiftBy)).eval n).toInt =
      signedMul d.toInt m * n.toInt / 2 ^ (w + magic.shiftBy) := by
    rw [Expr.eval, hq2, eval_iconst_s h.shift_lt, mod_eq_of_lt h.shift_lt,
      BitVec.toInt_sshiftRight, BitVec.toInt_ofInt_eq_self (by omega) hlow hhigh,
      Int.shiftRight_eq_div_pow, highProduct, Int.ediv_ediv_of_nonneg (by positivity), pow_add]
    rfl
  refine finishS_correct opcode ?_ ?_
  · have hquot := h.quotient n.le_toInt n.toInt_lt
    rw [← hq3] at hquot
    rw [← hquot, BitVec.ofInt_add, BitVec.ofInt_toInt, ← ushr_sign hw, Expr.eval]
    congr 1
    rw [Expr.eval, hsub, eval_iconst_s (by omega), mod_eq_of_lt (by omega)]
  · rw [Expr.smallShifts, hsmall, Bool.true_and, hsub]
    exact smallShifts_ushr (by omega) hsmall

theorem innerS_correct {n d : BitVec w} (opcode : OpcodeS) (hw : 3 ≤ w) (hd : d.toInt ≠ 0)
    (h : FoundS w d.toInt m magic) :
    (applyDivConstMagicS_inner w opcode d.toInt magic).smallShifts = true ∧
      (applyDivConstMagicS_inner w opcode d.toInt magic).eval n = opcode.eval n d := by
  obtain ⟨hlow, hhigh, hcases⟩ := h.mulBy_cases hw
  have hne : (2 : Int) ^ w ≠ 0 := by positivity
  have hq1 : (Expr.smulhi .numerator (iconst_s w magic.mulBy)).eval n =
      BitVec.ofInt w (n.toInt * magic.mulBy / 2 ^ w) := by
    rw [Expr.eval, Expr.smulhiVal, Expr.eval, iconst_s, Expr.eval,
      BitVec.toInt_ofInt_eq_self (by omega) hlow hhigh]
  have hsmall : (Expr.smulhi .numerator (iconst_s w magic.mulBy)).smallShifts = true := rfl
  unfold applyDivConstMagicS_inner applyDivConstMagicS_addSub
  by_cases hadd : d.toInt > 0 ∧ magic.mulBy < 0
  · rw [if_pos hadd] at hcases ⊢
    refine shiftS_correct opcode hw h ?_ (by rw [Expr.smallShifts, hsmall]; rfl)
    rw [Expr.eval, hq1, Expr.eval, highProduct, ← hcases, Int.add_mul, Int.mul_comm (2 ^ w),
      Int.add_mul_ediv_right _ _ hne, BitVec.ofInt_add, BitVec.ofInt_toInt,
      Int.mul_comm n.toInt]
  · rw [if_neg hadd] at hcases ⊢
    by_cases hsub : d.toInt < 0 ∧ magic.mulBy > 0
    · rw [if_pos hsub] at hcases ⊢
      refine shiftS_correct opcode hw h ?_ (by rw [Expr.smallShifts, hsmall]; rfl)
      rw [Expr.eval, hq1, Expr.eval, highProduct, ← hcases, Int.sub_mul, Int.mul_comm (2 ^ w),
        Int.sub_mul_ediv_right _ _ hne, ofInt_sub, BitVec.ofInt_toInt, Int.mul_comm n.toInt]
    · rw [if_neg hsub] at hcases ⊢
      refine shiftS_correct opcode hw h ?_ hsmall
      rw [hq1, highProduct, ← hcases hd, Int.mul_comm]

/-- **Signed division by a constant is exact**, and so is the remainder. -/
theorem applyDivConstMagicS_correct (hw : 3 ≤ w) (opcode : OpcodeS) (d : BitVec w)
    (hd : d.toInt ≠ 0) (hpow : ∀ k, d.toInt.natAbs ≠ 2 ^ k) :
    ∃ e, applyDivConstMagicS w (magicS w) opcode d.toInt () = (.ok e, ()) ∧
      e.smallShifts = true ∧ ∀ n, e.eval n = opcode.eval n d := by
  have hdivisor : DivisorS w d.toInt := by
    have hle := d.le_toInt
    have hlt := d.toInt_lt
    have hhalf : ((2 ^ (w - 1) : Nat) : Int) = 2 ^ (w - 1) := by push_cast; rfl
    have h1 := hpow 0
    have h2 := hpow 1
    have h3 := hpow (w - 1)
    exact ⟨hw, by omega, by omega, hpow⟩
  obtain ⟨magic, ⟨⟩, hrun, m, hfound⟩ := exists_of_wp (magicS_wp hdivisor)
  refine ⟨applyDivConstMagicS_inner w opcode d.toInt magic, ?_, ?_, fun n => ?_⟩
  · unfold applyDivConstMagicS
    rw [run_bind_ok hrun]
    rfl
  · exact (innerS_correct (n := 0) opcode hw hd hfound).1
  · exact (innerS_correct opcode hw hd hfound).2

end Signed

/-- The rule ends without an overflow, in an expression of `f` whose shifts are all smaller than
the width. -/
def Computes {w : Nat} (rule : Prog Unit Stuck (Expr w)) (f : BitVec w → BitVec w) : Prop :=
  ∃ e, rule () = (.ok e, ()) ∧ e.smallShifts = true ∧ ∀ n, e.eval n = f n

/-- **Division by constants is exact**, of both widths and signs. -/
theorem div_const_exact :
    (∀ opcode (d : BitVec 32), d.toNat ≠ 0 → (∀ k, d.toNat ≠ 2 ^ k) →
      Computes (apply_div_const_magic_u32 opcode d.toNat) (opcode.eval · d)) ∧
    (∀ opcode (d : BitVec 64), d.toNat ≠ 0 → (∀ k, d.toNat ≠ 2 ^ k) →
      Computes (apply_div_const_magic_u64 opcode d.toNat) (opcode.eval · d)) ∧
    (∀ opcode (d : BitVec 32), d.toInt ≠ 0 → (∀ k, d.toInt.natAbs ≠ 2 ^ k) →
      Computes (apply_div_const_magic_s32 opcode d.toInt) (opcode.eval · d)) ∧
    (∀ opcode (d : BitVec 64), d.toInt ≠ 0 → (∀ k, d.toInt.natAbs ≠ 2 ^ k) →
      Computes (apply_div_const_magic_s64 opcode d.toInt) (opcode.eval · d)) := by
  refine ⟨fun opcode d h0 hpow => ?_, fun opcode d h0 hpow => ?_, fun opcode d h0 hpow => ?_,
    fun opcode d h0 hpow => ?_⟩
  · have h1 : d.toNat ≠ 1 := hpow 0
    exact applyDivConstMagicU_correct (by omega) opcode d (by omega)
  · have h1 : d.toNat ≠ 1 := hpow 0
    exact applyDivConstMagicU_correct (by omega) opcode d (by omega)
  · exact applyDivConstMagicS_correct (by omega) opcode d h0 hpow
  · exact applyDivConstMagicS_correct (by omega) opcode d h0 hpow

theorem seven_not_pow (k : Nat) : 7 ≠ 2 ^ k := by
  rcases Nat.lt_or_ge k 3 with hk | hk
  · interval_cases k <;> decide
  · have hle : 2 ^ 3 ≤ 2 ^ k := Nat.pow_le_pow_right (by decide) hk
    omega

theorem div_const_exact_seven :
    Computes (apply_div_const_magic_u32 .urem 7) (OpcodeU.urem.eval · 7) ∧
      Computes (apply_div_const_magic_u64 .udiv 7) (OpcodeU.udiv.eval · 7) ∧
      Computes (apply_div_const_magic_s32 .sdiv (-7)) (OpcodeS.sdiv.eval · (-7)) ∧
      Computes (apply_div_const_magic_s64 .srem 7) (OpcodeS.srem.eval · 7) :=
  ⟨div_const_exact.1 .urem 7 (by decide) seven_not_pow,
    div_const_exact.2.1 .udiv 7 (by decide) seven_not_pow,
    div_const_exact.2.2.1 .sdiv (-7) (by decide) seven_not_pow,
    div_const_exact.2.2.2 .srem 7 (by decide) seven_not_pow⟩

end Wasmtime.Cranelift
