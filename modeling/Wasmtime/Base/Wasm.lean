import Mathlib.Logic.Relation
import Mathlib.Tactic

/-!
# A core WebAssembly machine

The instructions are a flat list: a block is opened by its instruction and closed by an `end`, and a
branch continues after the matching `end`. Functions are named by `κ`, traps by `τ`, and functions
of the host work on a state of type `H`.

* `Does env c m r`: whatever follows the code `c` and encloses it, running `c` from `m` has the
  result `r`: to go on, to branch out of it or to trap.
* `Closed c`: the blocks of `c` are balanced.
-/

namespace Base.Wasm

open List

/-! ### Values and memories -/

inductive ValType where
  | i32 | i64 | f32 | f64
deriving DecidableEq

def ValType.width : ValType → Nat
  | .i32 => 32
  | .i64 => 64
  | .f32 => 32
  | .f64 => 64

/-- A value is its type and its bits; floats are not computed with. -/
structure Value where
  ty : ValType
  raw : Nat
  lt : raw < 2 ^ ty.width

namespace Value

def of (ty : ValType) (n : Nat) : Value := ⟨ty, n % 2 ^ ty.width, Nat.mod_lt _ (by positivity)⟩

@[simp] theorem of_raw (ty : ValType) (n : Nat) : (of ty n).raw = n % 2 ^ ty.width := rfl

theorem ext_raw {v w : Value} (hty : v.ty = w.ty) (hraw : v.raw = w.raw) : v = w := by
  cases v
  cases w
  cases hty
  cases hraw
  rfl

theorem of_eq {v : Value} {ty : ValType} {n : Nat} (hty : v.ty = ty) (hraw : v.raw = n) :
    of ty n = v := by
  subst hty hraw
  exact ext_raw rfl (Nat.mod_eq_of_lt v.lt)

end Value

structure LinearMemory where
  size : Nat
  byte : Nat → UInt8

namespace LinearMemory

def read (mem : LinearMemory) (a : Nat) : Nat → Nat
  | 0 => 0
  | n + 1 => (mem.byte a).toNat + 256 * mem.read (a + 1) n

def write (mem : LinearMemory) (a n v : Nat) : LinearMemory where
  size := mem.size
  byte := fun i => if a ≤ i ∧ i < a + n then UInt8.ofNat (v / 256 ^ (i - a)) else mem.byte i

theorem read_lt (mem : LinearMemory) (a n : Nat) : mem.read a n < 256 ^ n := by
  induction n generalizing a with
  | zero => exact Nat.one_pos
  | succ n ih =>
    have h1 := ih (a + 1)
    have h2 := (mem.byte a).toNat_lt
    rw [read, Nat.pow_succ]
    omega

end LinearMemory

structure Store (H : Type) where
  mems : Nat → LinearMemory
  host : H

namespace Store

variable {H : Type}

def setMem (s : Store H) (i : Nat) (mem : LinearMemory) : Store H :=
  { s with mems := fun j => if j = i then mem else s.mems j }

end Store

/-! ### Instructions -/

inductive IntOp where
  | add | sub | mul | and | or | xor | shl | shrU

def IntOp.eval (w : Nat) : IntOp → Nat → Nat → Nat
  | .add, a, b => a + b
  | .sub, a, b => a + (2 ^ w - b)
  | .mul, a, b => a * b
  | .and, a, b => a &&& b
  | .or, a, b => a ||| b
  | .xor, a, b => a ^^^ b
  | .shl, a, b => a * 2 ^ (b % w)
  | .shrU, a, b => a / 2 ^ (b % w)

inductive RelOp where
  | eq | ne | ltU | gtU | leU | geU

def RelOp.eval : RelOp → Nat → Nat → Bool
  | .eq, a, b => a == b
  | .ne, a, b => a != b
  | .ltU, a, b => a < b
  | .gtU, a, b => b < a
  | .leU, a, b => a ≤ b
  | .geU, a, b => b ≤ a

inductive Conv where
  | i32WrapI64 | i64ExtendI32U
  | i32ReinterpretF32 | f32ReinterpretI32 | i64ReinterpretF64 | f64ReinterpretI64
  | i32Extend8S | i32Extend16S

def Conv.types : Conv → ValType × ValType
  | .i32WrapI64 => (.i64, .i32)
  | .i64ExtendI32U => (.i32, .i64)
  | .i32ReinterpretF32 => (.f32, .i32)
  | .f32ReinterpretI32 => (.i32, .f32)
  | .i64ReinterpretF64 => (.f64, .i64)
  | .f64ReinterpretI64 => (.i64, .f64)
  | .i32Extend8S => (.i32, .i32)
  | .i32Extend16S => (.i32, .i32)

/-- The two's complement number with the given number of low bits, as a number of 32 bits. -/
def signExtend (bits n : Nat) : Nat :=
  let low := n % 2 ^ bits
  if low < 2 ^ (bits - 1) then low else low + (2 ^ 32 - 2 ^ bits)

def Conv.eval : Conv → Nat → Nat
  | .i32Extend8S, n => signExtend 8 n
  | .i32Extend16S, n => signExtend 16 n
  | _, n => n

inductive Instr (τ κ : Type) where
  | block (arity : Nat)
  | loop
  | ifNonzero
  | end_
  | br (depth : Nat)
  | brIf (depth : Nat)
  | brTable (targets : List Nat) (default : Nat)
  | unreachable (trap : τ)
  | call (f : κ)
  | localGet (i : Nat)
  | localSet (i : Nat)
  | localTee (i : Nat)
  | const (ty : ValType) (n : Nat)
  | int (ty : ValType) (op : IntOp)
  | rel (ty : ValType) (op : RelOp)
  | eqz (ty : ValType)
  | select
  | conv (c : Conv)
  /-- `bytes` are read, and sign extended to 32 bits or not. -/
  | load (ty : ValType) (bytes : Nat) (signed : Bool) (mem offset : Nat)
  | store (ty : ValType) (bytes : Nat) (mem offset : Nat)
  | memorySize (ty : ValType) (mem : Nat)

abbrev Code (τ κ : Type) := List (Instr τ κ)

inductive Trap (τ : Type) where
  | outOfBounds
  | code (t : τ)

variable {τ κ H : Type}

/-- The code after the `end` that closes the `depth`-th enclosing block. -/
def skip : Nat → Code τ κ → Code τ κ
  | _, [] => []
  | d, .block _ :: k => skip (d + 1) k
  | d, .loop :: k => skip (d + 1) k
  | d, .ifNonzero :: k => skip (d + 1) k
  | 0, .end_ :: k => k
  | d + 1, .end_ :: k => skip d k
  | d, _ :: k => skip d k

/-! ### The machine -/

structure Machine (H : Type) where
  /-- The top of the stack is the head of the list. -/
  stack : List Value
  locals : Nat → Value
  store : Store H

namespace Machine

def push (m : Machine H) (v : Value) : Machine H := { m with stack := v :: m.stack }

def pop (m : Machine H) (n : Nat) : Machine H := { m with stack := m.stack.drop n }

def pushAll (m : Machine H) (vs : List Value) : Machine H :=
  { m with stack := vs.reverse ++ m.stack }

def setLocal (m : Machine H) (i : Nat) (v : Value) : Machine H :=
  { m with locals := fun j => if j = i then v else m.locals j }

def setMem (m : Machine H) (i : Nat) (mem : LinearMemory) : Machine H :=
  { m with store := m.store.setMem i mem }

/-- The stack when a block is left: its results over what was there when it was entered. -/
def cut (m : Machine H) (arity height : Nat) : Machine H :=
  { m with stack := m.stack.take arity ++ m.stack.drop (m.stack.length - height) }

@[simp] theorem push_stack (m : Machine H) (v : Value) : (m.push v).stack = v :: m.stack := rfl
@[simp] theorem push_locals (m : Machine H) (v : Value) : (m.push v).locals = m.locals := rfl
@[simp] theorem push_store (m : Machine H) (v : Value) : (m.push v).store = m.store := rfl
@[simp] theorem pushAll_locals (m : Machine H) (vs : List Value) : (m.pushAll vs).locals =
    m.locals :=
  rfl
@[simp] theorem pushAll_store (m : Machine H) (vs : List Value) : (m.pushAll vs).store = m.store :=
  rfl
@[simp] theorem pushAll_stack (m : Machine H) (vs : List Value) :
    (m.pushAll vs).stack = vs.reverse ++ m.stack := rfl

theorem pushAll_append (m : Machine H) (vs ws : List Value) :
    m.pushAll (vs ++ ws) = (m.pushAll vs).pushAll ws := by
  simp [pushAll, append_assoc]

theorem cut_of_length {m : Machine H} {arity height : Nat}
    (h : m.stack.length = arity + height) : m.cut arity height = m := by
  rw [cut, h, Nat.add_sub_cancel, take_append_drop]

end Machine

structure Label (τ κ : Type) where
  code : Code τ κ
  arity : Nat
  height : Nat

structure Frame (τ κ : Type) where
  code : Code τ κ
  labels : List (Label τ κ)
  results : Nat
  stack : List Value
  locals : Nat → Value

inductive Config (τ κ H : Type) where
  | running (code : Code τ κ) (labels : List (Label τ κ)) (frames : List (Frame τ κ))
      (m : Machine H)
  | trapped (t : Trap τ)
  | done (m : Machine H)

inductive Func (τ κ H : Type) where
  | code (params : List ValType) (results : Nat) (locals : List ValType) (body : Code τ κ)
  | host (params : Nat) (run : List Value → Store H → Except (Trap τ) (List Value × Store H))

abbrev Env (τ κ H : Type) := κ → Func τ κ H

def enterLocals (args : List Value) (locals : List ValType) : Nat → Value := fun i =>
  (args ++ locals.map fun ty => Value.of ty 0).getD i (Value.of .i32 0)

def Instr.plain (i : Instr τ κ) (m : Machine H) : Option (Except (Trap τ) (Machine H)) :=
  match i, m.stack with
  | .localGet i, _ => some (.ok (m.push (m.locals i)))
  | .localSet i, v :: _ => some (.ok ((m.pop 1).setLocal i v))
  | .localTee i, v :: _ => some (.ok (m.setLocal i v))
  | .const ty n, _ => some (.ok (m.push (.of ty n)))
  | .int ty op, b :: a :: _ =>
    if a.ty = ty ∧ b.ty = ty then
      some (.ok ((m.pop 2).push (.of ty (op.eval ty.width a.raw b.raw))))
    else none
  | .rel ty op, b :: a :: _ =>
    if a.ty = ty ∧ b.ty = ty then
      some (.ok ((m.pop 2).push (.of .i32 (op.eval a.raw b.raw).toNat)))
    else none
  | .eqz ty, a :: _ =>
    if a.ty = ty then some (.ok ((m.pop 1).push (.of .i32 (a.raw == 0).toNat))) else none
  | .select, c :: b :: a :: _ =>
    if c.ty = .i32 ∧ a.ty = b.ty then
      some (.ok ((m.pop 3).push (if c.raw ≠ 0 then a else b)))
    else none
  | .conv c, a :: _ =>
    if a.ty = c.types.1 then some (.ok ((m.pop 1).push (.of c.types.2 (c.eval a.raw)))) else none
  | .load ty bytes signed mem offset, a :: _ =>
    let memory := m.store.mems mem
    let addr := a.raw + offset
    if addr + bytes ≤ memory.size then
      let n := memory.read addr bytes
      some (.ok ((m.pop 1).push (.of ty (if signed then signExtend (8 * bytes) n else n))))
    else some (.error .outOfBounds)
  | .store ty bytes mem offset, v :: a :: _ =>
    let memory := m.store.mems mem
    let addr := a.raw + offset
    if v.ty = ty then
      if addr + bytes ≤ memory.size then
        some (.ok ((m.pop 2).setMem mem (memory.write addr bytes v.raw)))
      else some (.error .outOfBounds)
    else none
  | .memorySize ty mem, _ => some (.ok (m.push (.of ty ((m.store.mems mem).size / 65536))))
  | _, _ => none

def branch (n : Nat) (labels : List (Label τ κ)) (frames : List (Frame τ κ)) (m : Machine H) :
    Option (Config τ κ H) :=
  match labels[n]? with
  | some l => some (.running l.code (labels.drop (n + 1)) frames (m.cut l.arity l.height))
  | none => none

def step (env : Env τ κ H) : Config τ κ H → Option (Config τ κ H)
  | .running (i :: k) labels frames m =>
    match i, m.stack with
    | .block arity, _ => some (.running k (⟨skip 0 k, arity, m.stack.length⟩ :: labels) frames m)
    | .loop, _ => some (.running k (⟨.loop :: k, 0, m.stack.length⟩ :: labels) frames m)
    | .ifNonzero, v :: stack =>
      if v.raw ≠ 0 then
        some (.running k (⟨skip 0 k, 0, stack.length⟩ :: labels) frames (m.pop 1))
      else some (.running (skip 0 k) labels frames (m.pop 1))
    | .end_, _ =>
      match labels, frames with
      | _ :: labels, frames => some (.running k labels frames m)
      | [], f :: frames => some (.running f.code f.labels frames
          { m with stack := m.stack.take f.results ++ f.stack, locals := f.locals })
      | [], [] => some (.done m)
    | .br n, _ => branch n labels frames m
    | .brIf n, v :: _ =>
      if v.raw ≠ 0 then branch n labels frames (m.pop 1)
      else some (.running k labels frames (m.pop 1))
    | .brTable targets default, v :: _ =>
      branch (targets.getD v.raw default) labels frames (m.pop 1)
    | .unreachable t, _ => some (.trapped (.code t))
    | .call f, stack =>
      match env f with
      | .code params results locals body =>
        some (.running body [] (⟨k, labels, results, stack.drop params.length, m.locals⟩ :: frames)
          ⟨[], enterLocals (stack.take params.length).reverse locals, m.store⟩)
      | .host params run =>
        match run (stack.take params).reverse m.store with
        | .ok (results, store) => some (.running k labels frames
            ⟨results.reverse ++ stack.drop params, m.locals, store⟩)
        | .error t => some (.trapped t)
    | i, _ =>
      match i.plain m with
      | some (.ok m') => some (.running k labels frames m')
      | some (.error t) => some (.trapped t)
      | none => none
  | _ => none

def Steps (env : Env τ κ H) : Config τ κ H → Config τ κ H → Prop :=
  Relation.ReflTransGen fun c c' => step env c = some c'

theorem Steps.head {env : Env τ κ H} {c c' c'' : Config τ κ H} (h : step env c = some c')
    (hs : Steps env c' c'') : Steps env c c'' :=
  Relation.ReflTransGen.head h hs

theorem Steps.trans {env : Env τ κ H} {c c' c'' : Config τ κ H} (h : Steps env c c')
    (hs : Steps env c' c'') : Steps env c c'' :=
  Relation.ReflTransGen.trans h hs

/-! ### Balanced code -/

def Closed (c : Code τ κ) : Prop := ∀ d k, skip d (c ++ k) = skip d k

def Instr.flat : Instr τ κ → Bool
  | .block _ | .loop | .ifNonzero | .end_ => false
  | _ => true

namespace Closed

variable {c c' : Code τ κ}

theorem nil : Closed ([] : Code τ κ) := fun _ _ => rfl

theorem append (h : Closed c) (h' : Closed c') : Closed (c ++ c') := by
  intro d k
  rw [append_assoc, h, h']

theorem cons {i : Instr τ κ} (hi : i.flat = true) (h : Closed c) : Closed (i :: c) := by
  intro d k
  rw [← h d k]
  cases i with
  | block _ => cases hi
  | loop => cases hi
  | ifNonzero => cases hi
  | end_ => cases hi
  | _ => cases d <;> rfl

theorem of_flat (h : c.all Instr.flat = true) : Closed c := by
  induction c with
  | nil => exact nil
  | cons i c ih =>
    rw [all_cons, Bool.and_eq_true] at h
    exact cons h.1 (ih h.2)

theorem enclosed {i : Instr τ κ} (hi : ∀ d k, skip d (i :: k) = skip (d + 1) k) (h : Closed c) :
    Closed (i :: (c ++ [.end_])) := by
  intro d k
  rw [cons_append, hi, append_assoc, h]
  rfl

theorem ifNonzero (h : Closed c) : Closed (.ifNonzero :: (c ++ [.end_])) :=
  enclosed (fun d _ => by cases d <;> rfl) h

theorem skip_end (h : Closed c) (k : Code τ κ) : skip 0 (c ++ .end_ :: k) = k := h 0 (.end_ :: k)

end Closed

end Base.Wasm
