import Wasmtime.Base.Wp

/-!
# Machine words

Natural numbers as `u64`s and `u32`s. The `checked_` operations return nothing when the
result does not fit. The plain ones depend on how the program is built: with overflow checks
they panic, and without they wrap.
-/

namespace Base

open Nat

def u64Size : Nat := 2 ^ 64

def u64Max : Nat := 2 ^ 64 - 1

def checkedAdd (a b : Nat) : Option Nat := if a + b < u64Size then some (a + b) else none

def checkedSub (a b : Nat) : Option Nat := if b ≤ a then some (a - b) else none

def checkedMul (a b : Nat) : Option Nat := if a * b < u64Size then some (a * b) else none

def saturatingAdd (a b : Nat) : Nat := min (a + b) u64Max

def saturatingMul (a b : Nat) : Nat := min (a * b) u64Max

theorem checkedAdd_eq {a b c : Nat} : checkedAdd a b = some c ↔ c = a + b ∧ c < u64Size := by
  unfold checkedAdd
  split_ifs with h
  · simp only [Option.some.injEq]
    constructor
    · rintro rfl
      exact ⟨rfl, h⟩
    · rintro ⟨rfl, _⟩
      rfl
  · simp only [false_iff, not_and]
    rintro rfl
    exact h

theorem checkedSub_eq {a b c : Nat} : checkedSub a b = some c ↔ b ≤ a ∧ c = a - b := by
  simp [checkedSub, eq_comm]

theorem checkedMul_eq {a b c : Nat} : checkedMul a b = some c ↔ c = a * b ∧ c < u64Size := by
  unfold checkedMul
  split_ifs with h
  · simp only [Option.some.injEq]
    constructor
    · rintro rfl
      exact ⟨rfl, h⟩
    · rintro ⟨rfl, _⟩
      rfl
  · simp only [false_iff, not_and]
    rintro rfl
    exact h

variable {σ ε : Type} {checks : Bool} {a b n : Nat} {s s' : σ}

def addU64 (overflowChecks : Bool) (a b : Nat) : Prog σ ε Nat :=
  if overflowChecks && decide (u64Size ≤ a + b) then
    Prog.panic (.overflow "attempt to add with overflow")
  else
    pure ((a + b) % u64Size)

def subU64 (overflowChecks : Bool) (a b : Nat) : Prog σ ε Nat :=
  if overflowChecks && decide (a < b) then
    Prog.panic (.overflow "attempt to subtract with overflow")
  else
    pure ((a + (u64Size - b)) % u64Size)

theorem addU64_ok (h : (addU64 checks a b : Prog σ ε Nat) s = (.ok n, s')) :
    n = (a + b) % u64Size ∧ s' = s := by
  unfold addU64 at h
  split at h
  · cases h
  · exact Prog.pure_ok.1 h

theorem subU64_ok (h : (subU64 checks a b : Prog σ ε Nat) s = (.ok n, s')) :
    n = (a + (u64Size - b)) % u64Size ∧ s' = s := by
  unfold subU64 at h
  split at h
  · cases h
  · exact Prog.pure_ok.1 h

theorem addU64_run (h : a + b < u64Size) :
    (addU64 checks a b : Prog σ ε Nat) s = (.ok (a + b), s) := by
  unfold addU64
  rw [if_neg (by simp only [Bool.and_eq_true, decide_eq_true_eq]; omega), mod_eq_of_lt h]
  rfl

theorem add_sub_mod (h : b ≤ a) (ha : a < u64Size) : (a + (u64Size - b)) % u64Size = a - b := by
  rw [← Nat.add_sub_assoc (by omega), Nat.sub_add_comm h, add_mod_right, mod_eq_of_lt (by omega)]

theorem subU64_run (h : b ≤ a) (ha : a < u64Size) :
    (subU64 checks a b : Prog σ ε Nat) s = (.ok (a - b), s) := by
  unfold subU64
  rw [if_neg (by simp only [Bool.and_eq_true, decide_eq_true_eq]; omega), add_sub_mod h ha]
  rfl

/-! ### 32-bit words -/

def u32Size : Nat := 2 ^ 32

def u32Max : Nat := 2 ^ 32 - 1

structure Build where
  overflowChecks : Bool
  debugAssertions : Bool

variable {build : Build} {E : ε → σ → Prop}

def addU32 (build : Build) (a b : Nat) : Prog σ ε Nat :=
  if build.overflowChecks && decide (u32Size ≤ a + b) then
    Prog.panic (.overflow "attempt to add with overflow")
  else
    pure ((a + b) % u32Size)

def subU32 (build : Build) (a b : Nat) : Prog σ ε Nat :=
  if build.overflowChecks && decide (a < b) then
    Prog.panic (.overflow "attempt to subtract with overflow")
  else
    pure ((a + (u32Size - b)) % u32Size)

def mulU32 (build : Build) (a b : Nat) : Prog σ ε Nat :=
  if build.overflowChecks && decide (u32Size ≤ a * b) then
    Prog.panic (.overflow "attempt to multiply with overflow")
  else
    pure ((a * b) % u32Size)

/-- An assertion that is only compiled into debug builds. -/
def debugAssert (build : Build) (c : Bool) (p : Panic) : Prog σ ε Unit :=
  if build.debugAssertions then Prog.assert c p else pure ()

theorem debugAssert_bind_ok {α : Type} {c : Bool} {p : Panic} {f : Unit → Prog σ ε α} {x : α}
    {s' : σ} : (debugAssert build c p >>= f) s = (.ok x, s') ↔
      (build.debugAssertions = true → c = true) ∧ f () s = (.ok x, s') := by
  unfold debugAssert
  split_ifs with hd
  · rw [Prog.assert_bind_ok]
    exact and_congr_left fun _ => ⟨fun hc _ => hc, fun hc => hc hd⟩
  · exact ⟨fun h => ⟨fun hdebug => absurd hdebug hd, h⟩, fun h => h.2⟩

theorem addU32_run (h : a + b < u32Size) : (addU32 build a b : Prog σ ε Nat) s = (.ok (a + b), s) := by
  unfold addU32
  rw [if_neg (by simp only [Bool.and_eq_true, decide_eq_true_eq]; omega), mod_eq_of_lt h]
  rfl

theorem mulU32_run (h : a * b < u32Size) : (mulU32 build a b : Prog σ ε Nat) s = (.ok (a * b), s) := by
  unfold mulU32
  rw [if_neg (by simp only [Bool.and_eq_true, decide_eq_true_eq]; omega), mod_eq_of_lt h]
  rfl

variable {α : Type} {Q : α → σ → Prop} {f : Nat → Prog σ ε α}

theorem wp_addU32 (h : a + b < u32Size) (hQ : Prog.wp (f (a + b)) Q E s) :
    Prog.wp (addU32 build a b >>= f) Q E s := by
  unfold Prog.wp
  rw [Prog.run_bind_ok (addU32_run h)]
  exact hQ

theorem wp_subU32 (h : b ≤ a) (ha : a < u32Size) (hQ : Prog.wp (f (a - b)) Q E s) :
    Prog.wp (subU32 build a b >>= f) Q E s := by
  unfold subU32
  rw [if_neg (by simp only [Bool.and_eq_true, decide_eq_true_eq]; omega),
    ← Nat.add_sub_assoc (by omega), Nat.sub_add_comm h, add_mod_right,
    mod_eq_of_lt (by omega)]
  exact hQ

theorem wp_debugAssert {f : Unit → Prog σ ε α} {c : Bool} {p : Panic} (h : c = true)
    (hQ : Prog.wp (f ()) Q E s) : Prog.wp (debugAssert build c p >>= f) Q E s := by
  rw [Prog.wp_bind]
  unfold debugAssert
  split_ifs
  · exact Prog.wp_assert.2 ⟨h, hQ⟩
  · exact hQ

end Base
