import Wasmtime.Base.Loop
import Wasmtime.Base.Reciprocal

/-!
# Division by constants

The rules of the mid-end that replace a division by a constant with a multiplication and shifts. The
multiplier and the shift come from a search (`magic_u32` and its three siblings), and the rules
(`apply_div_const_magic_u32` and so on) build an expression from them.

The width is a parameter. An addition, subtraction or multiplication of the source that does not
wrap panics here when it overflows.
-/

namespace Wasmtime.Cranelift

open Base

/-! ### Words of a given width -/

section Words

variable {σ ε : Type}

def addW (w a b : Nat) : Prog σ ε Nat :=
  if a + b < 2 ^ w then pure (a + b) else Prog.panic (.overflow "attempt to add with overflow")

def subW (a b : Nat) : Prog σ ε Nat :=
  if b ≤ a then pure (a - b) else Prog.panic (.overflow "attempt to subtract with overflow")

def mulW (w a b : Nat) : Prog σ ε Nat :=
  if a * b < 2 ^ w then pure (a * b)
  else Prog.panic (.overflow "attempt to multiply with overflow")

def divW (a b : Nat) : Prog σ ε Nat :=
  if b = 0 then Prog.panic (.overflow "attempt to divide by zero") else pure (a / b)

def remW (a b : Nat) : Prog σ ε Nat :=
  if b = 0 then Prog.panic (.overflow "attempt to calculate the remainder with a divisor of zero")
  else pure (a % b)

def wrappingAdd (w a b : Nat) : Nat := (a + b) % 2 ^ w

def wrappingSub (w a b : Nat) : Nat := (a + (2 ^ w - b)) % 2 ^ w

def wrappingMul (w a b : Nat) : Nat := (a * b) % 2 ^ w

def wrappingNeg (w a : Nat) : Nat := (2 ^ w - a) % 2 ^ w

variable {α : Type} {w a b : Nat} {Q : α → σ → Prop} {E : ε → σ → Prop} {s : σ}
  {f : Nat → Prog σ ε α}

theorem addW_wp (h : a + b < 2 ^ w) (hQ : (f (a + b)).wp Q E s) : Prog.wp (addW w a b >>= f) Q E s := by
  unfold addW
  rw [if_pos h]
  exact hQ

theorem subW_wp (h : b ≤ a) (hQ : (f (a - b)).wp Q E s) : Prog.wp (subW a b >>= f) Q E s := by
  unfold subW
  rw [if_pos h]
  exact hQ

theorem mulW_wp (h : a * b < 2 ^ w) (hQ : (f (a * b)).wp Q E s) : Prog.wp (mulW w a b >>= f) Q E s := by
  unfold mulW
  rw [if_pos h]
  exact hQ

theorem divW_wp (h : b ≠ 0) (hQ : (f (a / b)).wp Q E s) : Prog.wp (divW a b >>= f) Q E s := by
  unfold divW
  rw [if_neg h]
  exact hQ

theorem remW_wp (h : b ≠ 0) (hQ : (f (a % b)).wp Q E s) : Prog.wp (remW a b >>= f) Q E s := by
  unfold remW
  rw [if_neg h]
  exact hQ

end Words

/-! ### The search for unsigned divisors -/

inductive Stuck where
  | rounds

structure MU where
  mulBy : Nat
  doAdd : Bool
  shiftBy : Nat

structure SearchU where
  doAdd : Bool
  p : Nat
  q1 : Nat
  r1 : Nat
  q2 : Nat
  r2 : Nat

def SearchU.double1 (w nc : Nat) (s : SearchU) : Prog Unit Stuck SearchU := do
  let rest ← subW nc s.r1
  if s.r1 ≥ rest then
    pure { s with
      q1 := wrappingAdd w (wrappingMul w 2 s.q1) 1
      r1 := wrappingSub w (wrappingMul w 2 s.r1) nc }
  else do
    let r1 ← mulW w 2 s.r1
    pure { s with q1 := wrappingMul w 2 s.q1, r1 }

def SearchU.double2 (w d : Nat) (s : SearchU) : Prog Unit Stuck SearchU := do
  let r2 ← addW w s.r2 1
  let rest ← subW d s.r2
  if r2 ≥ rest then do
    let twice ← mulW w 2 s.q2
    let q2 ← addW w twice 1
    pure { s with
      doAdd := s.doAdd || decide (s.q2 ≥ 2 ^ (w - 1) - 1)
      q2
      r2 := wrappingSub w (wrappingAdd w (wrappingMul w 2 s.r2) 1) d }
  else do
    let twice ← mulW w 2 s.r2
    let r2 ← addW w twice 1
    pure { s with
      doAdd := s.doAdd || decide (s.q2 ≥ 2 ^ (w - 1))
      q2 := wrappingMul w 2 s.q2
      r2 }

def SearchU.round (w d nc : Nat) (s : SearchU) : Prog Unit Stuck (SearchU ⊕ SearchU) := do
  let s ← SearchU.double1 w nc { s with p := s.p + 1 }
  let s ← SearchU.double2 w d s
  let top ← subW d 1
  let delta ← subW top s.r2
  if s.p < 2 * w ∧ (s.q1 < delta ∨ s.q1 = delta ∧ s.r1 = 0) then
    pure (.inl s)
  else
    pure (.inr s)

def magicU (w d : Nat) : Prog Unit Stuck MU := do
  let rem ← remW (wrappingNeg w d) d
  let nc ← subW (2 ^ w - 1) rem
  let q1 ← divW (2 ^ (w - 1)) nc
  let part1 ← mulW w q1 nc
  let r1 ← subW (2 ^ (w - 1)) part1
  let q2 ← divW (2 ^ (w - 1) - 1) d
  let part2 ← mulW w q2 d
  let r2 ← subW (2 ^ (w - 1) - 1) part2
  let s ← Prog.loop .rounds (SearchU.round w d nc) (w + 2) ⟨false, w - 1, q1, r1, q2, r2⟩
  let mulBy ← addW w s.q2 1
  pure ⟨mulBy, s.doAdd, s.p - w⟩

def magic_u32 : Nat → Prog Unit Stuck MU := magicU 32

def magic_u64 : Nat → Prog Unit Stuck MU := magicU 64

/-! ### The search for signed divisors -/

structure MS where
  mulBy : Int
  shiftBy : Nat

structure SearchS where
  p : Nat
  q1 : Nat
  r1 : Nat
  q2 : Nat
  r2 : Nat

def doubleW (w divisor q r : Nat) : Prog Unit Stuck (Nat × Nat) := do
  let q ← mulW w 2 q
  let r ← mulW w 2 r
  if r ≥ divisor then do
    let q ← addW w q 1
    let r ← subW r divisor
    pure (q, r)
  else
    pure (q, r)

def SearchS.round (w ad anc : Nat) (s : SearchS) : Prog Unit Stuck (SearchS ⊕ SearchS) := do
  let (q1, r1) ← doubleW w anc s.q1 s.r1
  let (q2, r2) ← doubleW w ad s.q2 s.r2
  let delta ← subW ad r2
  if q1 < delta ∨ q1 = delta ∧ r1 = 0 then
    pure (.inl ⟨s.p + 1, q1, r1, q2, r2⟩)
  else
    pure (.inr ⟨s.p + 1, q1, r1, q2, r2⟩)

/-- `mul_by as i32`, and so on: the number with the bits of `a`. -/
def toSigned (w a : Nat) : Int := (a : Int).bmod (2 ^ w)

/-- `magic_s32` from the first quotient on. -/
def searchS (w : Nat) (d : Int) (anc : Nat) : Prog Unit Stuck MS := do
  let ad := d.natAbs
  let q1 ← divW (2 ^ (w - 1)) anc
  let part1 ← mulW w q1 anc
  let r1 ← subW (2 ^ (w - 1)) part1
  let q2 ← divW (2 ^ (w - 1)) ad
  let part2 ← mulW w q2 ad
  let r2 ← subW (2 ^ (w - 1)) part2
  let s ← Prog.loop .rounds (SearchS.round w ad anc) (w + 2) ⟨w - 1, q1, r1, q2, r2⟩
  let mulBy ← addW w s.q2 1
  pure ⟨toSigned w (if d < 0 then wrappingNeg w mulBy else mulBy), s.p - w⟩

def magicS (w : Nat) (d : Int) : Prog Unit Stuck MS := do
  let ad := d.natAbs
  let t ← addW w (2 ^ (w - 1)) (if d < 0 then 1 else 0)
  let top ← subW t 1
  let rem ← remW t ad
  let anc := wrappingSub w top rem
  searchS w d anc

def magic_s32 : Int → Prog Unit Stuck MS := magicS 32

def magic_s64 : Int → Prog Unit Stuck MS := magicS 64

/-! ### The expressions -/

inductive Expr (w : Nat) where
  | numerator
  | iconst (c : BitVec w)
  | umulhi (a b : Expr w)
  | smulhi (a b : Expr w)
  | imul (a b : Expr w)
  | iadd (a b : Expr w)
  | isub (a b : Expr w)
  | ushr (a b : Expr w)
  | sshr (a b : Expr w)
  | ineg (a : Expr w)
  | band (a b : Expr w)

namespace Expr

variable {w : Nat}

def umulhiVal (x y : BitVec w) : BitVec w := BitVec.ofNat w (x.toNat * y.toNat / 2 ^ w)

def smulhiVal (x y : BitVec w) : BitVec w := BitVec.ofInt w (x.toInt * y.toInt / 2 ^ w)

/-- The value of an expression. Shift amounts are taken modulo the width. -/
def eval (n : BitVec w) : Expr w → BitVec w
  | numerator => n
  | iconst c => c
  | umulhi a b => umulhiVal (a.eval n) (b.eval n)
  | smulhi a b => smulhiVal (a.eval n) (b.eval n)
  | imul a b => a.eval n * b.eval n
  | iadd a b => a.eval n + b.eval n
  | isub a b => a.eval n - b.eval n
  | ushr a b => a.eval n >>> ((b.eval n).toNat % w)
  | sshr a b => (a.eval n).sshiftRight ((b.eval n).toNat % w)
  | ineg a => -a.eval n
  | band a b => a.eval n &&& b.eval n

def smallShifts : Expr w → Bool
  | numerator => true
  | iconst _ => true
  | umulhi a b => a.smallShifts && b.smallShifts
  | smulhi a b => a.smallShifts && b.smallShifts
  | imul a b => a.smallShifts && b.smallShifts
  | iadd a b => a.smallShifts && b.smallShifts
  | isub a b => a.smallShifts && b.smallShifts
  | ineg a => a.smallShifts
  | band a b => a.smallShifts && b.smallShifts
  | ushr a (iconst c) => a.smallShifts && decide (c.toNat < w)
  | sshr a (iconst c) => a.smallShifts && decide (c.toNat < w)
  | ushr _ _ => false
  | sshr _ _ => false

end Expr

inductive OpcodeU where
  | udiv
  | urem

inductive OpcodeS where
  | sdiv
  | srem

section Rules

variable (w : Nat)

def iconst_u (c : Nat) : Expr w := .iconst (BitVec.ofNat w c)

def iconst_s (c : Int) : Expr w := .iconst (BitVec.ofInt w c)

def applyDivConstMagicU_finish (opcode : OpcodeU) (divisor : Nat) (qf : Expr w) : Expr w :=
  match opcode with
  | .udiv => qf
  | .urem =>
    let tt := .imul qf (iconst_u w divisor)
    .isub .numerator tt

def applyDivConstMagicU_maybeShift (opcode : OpcodeU) (divisor : Nat) (magic : MU)
    (q3 : Expr w) : Expr w :=
  if magic.shiftBy = 0 then
    applyDivConstMagicU_finish w opcode divisor q3
  else
    let qf := .ushr q3 (iconst_u w (magic.shiftBy - 1))
    applyDivConstMagicU_finish w opcode divisor qf

def applyDivConstMagicU_maybeAdd (opcode : OpcodeU) (divisor : Nat) (magic : MU)
    (q0 : Expr w) : Expr w :=
  if magic.doAdd then
    let q1 := .isub .numerator q0
    let q2 := .ushr q1 (iconst_u w 1)
    let q3 := .iadd q0 q2
    applyDivConstMagicU_maybeShift w opcode divisor magic q3
  else
    let q3 := .ushr q0 (iconst_u w magic.shiftBy)
    applyDivConstMagicU_finish w opcode divisor q3

def applyDivConstMagicU_inner (opcode : OpcodeU) (divisor : Nat) (magic : MU) : Expr w :=
  let q0 := .umulhi .numerator (iconst_u w magic.mulBy)
  applyDivConstMagicU_maybeAdd w opcode divisor magic q0

def applyDivConstMagicU (div_const_magic : Nat → Prog Unit Stuck MU) (opcode : OpcodeU)
    (divisor : Nat) : Prog Unit Stuck (Expr w) := do
  let magic ← div_const_magic divisor
  pure (applyDivConstMagicU_inner w opcode divisor magic)

def applyDivConstMagicS_finish (opcode : OpcodeS) (divisor : Int) (qf : Expr w) : Expr w :=
  match opcode with
  | .srem =>
    let tt := .imul qf (iconst_s w divisor)
    .isub .numerator tt
  | .sdiv => qf

def applyDivConstMagicS_shift (opcode : OpcodeS) (divisor : Int) (magic : MS) (q2 : Expr w) :
    Expr w :=
  let q3 := .sshr q2 (iconst_s w magic.shiftBy)
  let t1 := .ushr q3 (iconst_s w (w - 1))
  let qf := .iadd q3 t1
  applyDivConstMagicS_finish w opcode divisor qf

def applyDivConstMagicS_addSub (opcode : OpcodeS) (divisor : Int) (magic : MS) (q1 : Expr w) :
    Expr w :=
  if divisor > 0 ∧ magic.mulBy < 0 then
    let q2 := .iadd q1 .numerator
    applyDivConstMagicS_shift w opcode divisor magic q2
  else if divisor < 0 ∧ magic.mulBy > 0 then
    let q2 := .isub q1 .numerator
    applyDivConstMagicS_shift w opcode divisor magic q2
  else
    applyDivConstMagicS_shift w opcode divisor magic q1

def applyDivConstMagicS_inner (opcode : OpcodeS) (divisor : Int) (magic : MS) : Expr w :=
  let q0 := iconst_s w magic.mulBy
  let q1 := .smulhi .numerator q0
  applyDivConstMagicS_addSub w opcode divisor magic q1

def applyDivConstMagicS (div_const_magic : Int → Prog Unit Stuck MS) (opcode : OpcodeS)
    (divisor : Int) : Prog Unit Stuck (Expr w) := do
  let magic ← div_const_magic divisor
  pure (applyDivConstMagicS_inner w opcode divisor magic)

end Rules

def apply_div_const_magic_u32 : OpcodeU → Nat → Prog Unit Stuck (Expr 32) :=
  applyDivConstMagicU 32 magic_u32

def apply_div_const_magic_u64 : OpcodeU → Nat → Prog Unit Stuck (Expr 64) :=
  applyDivConstMagicU 64 magic_u64

def apply_div_const_magic_s32 : OpcodeS → Int → Prog Unit Stuck (Expr 32) :=
  applyDivConstMagicS 32 magic_s32

def apply_div_const_magic_s64 : OpcodeS → Int → Prog Unit Stuck (Expr 64) :=
  applyDivConstMagicS 64 magic_s64

end Wasmtime.Cranelift
