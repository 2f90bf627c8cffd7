import Wasmtime.Environ.Sandbox

/-!
# The instructions of a heap access

The part of Cranelift's intermediate representation that `bounds_checks.rs` emits. A `Machine` has
the run-time values, and `reached` runs the emitted code. All arithmetic is modulo the width of the
type.
-/

namespace Wasmtime.Cranelift

open Environ

inductive IntCC where
  | unsignedGreaterThan
  | unsignedGreaterThanOrEqual
deriving DecidableEq

inductive Value where
  /-- A value that is not a constant, such as a parameter of the function. -/
  | operand
  | iconst (ty : IndexType) (imm : Nat)
  | uextend (v : Value)
  | heapBase
  | heapBound
  | iadd (ty : IndexType) (a b : Value)
  | isub (ty : IndexType) (a b : Value)
  | icmp (cc : IntCC) (a b : Value)
  /-- `select` and `select_spectre_guard`. -/
  | select (c a b : Value)
deriving DecidableEq

inductive Inst where
  | trap
  | trapnz (c : Value)
  | uaddOverflowTrap (ty : IndexType) (a b : Value)
deriving DecidableEq

structure Machine where
  operand : Nat
  base : Nat
  bound : Nat

def IntCC.holds : IntCC → Nat → Nat → Bool
  | unsignedGreaterThan, a, b => decide (b < a)
  | unsignedGreaterThanOrEqual, a, b => decide (b ≤ a)

namespace Machine

def eval (m : Machine) : Value → Nat
  | .operand => m.operand
  | .iconst ty imm => imm % ty.size
  | .uextend v => m.eval v
  | .heapBase => m.base
  | .heapBound => m.bound
  | .iadd ty a b => (m.eval a + m.eval b) % ty.size
  | .isub ty a b => (m.eval a + (ty.size - m.eval b)) % ty.size
  | .icmp cc a b => if cc.holds (m.eval a) (m.eval b) then 1 else 0
  | .select c a b => if m.eval c = 0 then m.eval b else m.eval a

def traps (m : Machine) : Inst → Bool
  | .trap => true
  | .trapnz c => decide (m.eval c ≠ 0)
  | .uaddOverflowTrap ty a b => decide (ty.size ≤ m.eval a + m.eval b)

/-- Run the code, then access the address it computes, if it computes one. -/
def reached (m : Machine) (code : List Inst) (addr : Option Value) : Reached :=
  if code.any m.traps then .trap
  else
    match addr with
    | some addr => .access (m.eval addr)
    | none => .neither

end Machine

end Wasmtime.Cranelift
