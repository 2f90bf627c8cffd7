import Wasmtime.Base.Word
import Wasmtime.Fact.Places

/-!
# The compiler of adapters

The state of `Compiler` with what the translation of values uses of its `Module`, and the functions
that emit a few instructions: loads and stores, conversions between a local or the stack and the
types of a slot, and temporary locals. A helper function is named by its `Helper`, and called by
`Instr.call`.
-/

namespace Wasmtime.Fact

open Base Base.Wasm
open Component hiding skip
open Environ (DiscriminantSize FlagsSize)

inductive Trap where
  | unalignedPointer
  | invalidDiscriminant
  | invalidChar
  | listByteLengthOverflow
  | assertFailed (msg : String)

inductive HelperLocation where
  | stack | memory
deriving DecidableEq

structure HelperType where
  ty : InterfaceType
  opts : Options
  loc : HelperLocation
deriving DecidableEq

/-- A helper function: one type translation between places on the stack or in memory. -/
structure Helper where
  src : HelperType
  dst : HelperType
deriving DecidableEq

inductive HandleKind where
  | own | borrow | future | stream | errorContext
deriving DecidableEq

def handleKind : Handle → HandleKind
  | .own _ => .own
  | .borrow _ => .borrow
  | .future _ => .future
  | .stream _ => .stream
  | .errorContext _ => .errorContext

def handleTable : Handle → Nat
  | .own t | .borrow t | .future t | .stream t | .errorContext t => t

/-- What an adapter calls: its helpers, the `realloc` of a side, and the intrinsics that transfer
a handle from one table to another. -/
inductive Callee where
  | helper (h : Helper)
  | realloc (f : Nat)
  | transfer (kind : HandleKind)

abbrev Insn := Instr Trap Callee

structure Compiler where
  /-- How the compiler itself was built. -/
  build : Build
  debug : Bool
  code : List Insn
  locals : List ValType
  nlocals : Nat
  /-- The temporaries of each type that are free, the one freed last first. -/
  freeLocals : ValType → List Nat
  fuel : Nat
  /-- The helpers that have a function, in the order of their functions. -/
  helperFuncs : List Helper
  /-- The helpers that are not compiled yet, the one asked for last first. -/
  helperWorklist : List Helper

abbrev Emit := Prog Compiler Empty

def instruction (i : Insn) : Emit Unit := Prog.modify fun c => { c with code := c.code ++ [i] }

def trap (t : Trap) : Emit Unit := instruction (.unreachable t)

/-! ### Temporaries -/

structure TempLocal where
  idx : Nat
  ty : ValType

def genTempLocal (ty : ValType) (insn : Nat → Insn) : Emit TempLocal := do
  let c ← Prog.get
  match c.freeLocals ty with
  | idx :: rest =>
    Prog.set { c with freeLocals := Function.update c.freeLocals ty rest }
    instruction (insn idx)
    pure ⟨idx, ty⟩
  | [] =>
    Prog.set { c with locals := c.locals ++ [ty], nlocals := c.nlocals + 1 }
    instruction (insn c.nlocals)
    pure ⟨c.nlocals, ty⟩

def localTeeNewTmp (ty : ValType) : Emit TempLocal := genTempLocal ty .localTee

def localSetNewTmp (ty : ValType) : Emit TempLocal := genTempLocal ty .localSet

def freeTempLocal (l : TempLocal) : Emit Unit := Prog.modify fun c =>
  { c with freeLocals := Function.update c.freeLocals l.ty (l.idx :: c.freeLocals l.ty) }

/-! ### Pointers -/

def ptrUconst (opts : Options) (n : Nat) : Emit Unit := instruction (.const opts.ptr n)

def ptrInt (opts : Options) (op : IntOp) : Emit Unit := instruction (.int opts.ptr op)

def ptrIf (opts : Options) : Emit Unit :=
  if opts.memory64 then do
    instruction (.const .i64 0)
    instruction (.rel .i64 .ne)
    instruction .ifNonzero
  else instruction .ifNonzero

/-! ### Loads and stores -/

def memoryIndex (mem : Memory) : Emit Nat := Prog.unwrap mem.opts.memory (.unwrap "memory")

def loadFrom (ty : ValType) (bytes : Nat) (signed : Bool) (mem : Memory) : Emit Unit := do
  instruction (.localGet mem.addr)
  let index ← memoryIndex mem
  instruction (.load ty bytes signed index mem.offset)

def storeTo (ty : ValType) (bytes : Nat) (mem : Memory) : Emit Unit := do
  let index ← memoryIndex mem
  instruction (.store ty bytes index mem.offset)

def i32Load8u : Memory → Emit Unit := loadFrom .i32 1 false
def i32Load8s : Memory → Emit Unit := loadFrom .i32 1 true
def i32Load16u : Memory → Emit Unit := loadFrom .i32 2 false
def i32Load16s : Memory → Emit Unit := loadFrom .i32 2 true
def i32Load : Memory → Emit Unit := loadFrom .i32 4 false
def i64Load : Memory → Emit Unit := loadFrom .i64 8 false
def f32Load : Memory → Emit Unit := loadFrom .f32 4 false
def f64Load : Memory → Emit Unit := loadFrom .f64 8 false

def i32Store8 : Memory → Emit Unit := storeTo .i32 1
def i32Store16 : Memory → Emit Unit := storeTo .i32 2
def i32Store : Memory → Emit Unit := storeTo .i32 4
def i64Store : Memory → Emit Unit := storeTo .i64 8
def f32Store : Memory → Emit Unit := storeTo .f32 4
def f64Store : Memory → Emit Unit := storeTo .f64 8

def pushDstAddr : Destination → Emit Unit
  | .memory mem => instruction (.localGet mem.addr)
  | .stack _ _ => pure ()

def pushMemAddr (mem : Memory) : Emit Unit := do
  instruction (.localGet mem.addr)
  if mem.offset ≠ 0 then
    ptrUconst mem.opts mem.offset
    ptrInt mem.opts .add

/-- `assert_aligned`, which is emitted for debugging only. -/
def assertAligned (ty : InterfaceType) (mem : Memory) : Emit Unit := do
  let c ← Prog.get
  let align := (mem.opts.abi ty).align
  if c.debug ∧ align ≠ 1 then
    instruction (.localGet mem.addr)
    ptrUconst mem.opts mem.offset
    ptrInt mem.opts .add
    ptrUconst mem.opts (align - 1)
    ptrInt mem.opts .and
    ptrIf mem.opts
    trap (.assertFailed "pointer not aligned")
    instruction .end_

/-! ### Locals and the stack -/

def assertI64UpperBitsNotSet (l : Nat) : Emit Unit := do
  let c ← Prog.get
  if c.debug then
    instruction (.localGet l)
    instruction (.const .i64 32)
    instruction (.int .i64 .shrU)
    instruction (.conv .i32WrapI64)
    instruction .ifNonzero
    trap (.assertFailed "upper bits are unexpectedly set")
    instruction .end_

def stackGet (stack : List (Nat × ValType)) (dstTy : ValType) : Emit Unit :=
  match stack with
  | [(idx, srcTy)] => do
    instruction (.localGet idx)
    match srcTy, dstTy with
    | .i32, .i32 => pure ()
    | .i64, .i64 => pure ()
    | .f32, .f32 => pure ()
    | .f64, .f64 => pure ()
    | .i32, .f32 => instruction (.conv .f32ReinterpretI32)
    | .i64, .i32 =>
      assertI64UpperBitsNotSet idx
      instruction (.conv .i32WrapI64)
    | .i64, .f64 => instruction (.conv .f64ReinterpretI64)
    | .i64, .f32 =>
      assertI64UpperBitsNotSet idx
      instruction (.conv .i32WrapI64)
      instruction (.conv .f32ReinterpretI32)
    | _, _ => Prog.panic (.unreachable "cannot get")
  | _ => Prog.panic (.assert "stack.locals.len() == 1")

/-- Convert the top of the stack, which has the type `srcTy`, to the type of the slot. -/
def stackSet (dstTys : List ValType) (srcTy : ValType) : Emit Unit :=
  match dstTys with
  | [dstTy] =>
    match srcTy, dstTy with
    | .i32, .i32 => pure ()
    | .i64, .i64 => pure ()
    | .f32, .f32 => pure ()
    | .f64, .f64 => pure ()
    | .f32, .i32 => instruction (.conv .i32ReinterpretF32)
    | .i32, .i64 => instruction (.conv .i64ExtendI32U)
    | .f64, .i64 => instruction (.conv .i64ReinterpretF64)
    | .f32, .i64 => do
      instruction (.conv .i32ReinterpretF32)
      instruction (.conv .i64ExtendI32U)
    | _, _ => Prog.panic (.unreachable "cannot set")
  | _ => Prog.panic (.assert "dst_tys.len() == 1")

/-- `&locals[..1]`, and the same of the types of a destination. -/
def firstSlot {α : Type} (l : List α) : Emit (List α) := Prog.unwrap (slice l 0 1) (.bounds "slice")

/-- Push the value of a source that is a single slot. -/
def fetch (src : Source) (load : Memory → Emit Unit) (ty : ValType) : Emit Unit :=
  match src with
  | .memory mem => load mem
  | .stack s _ => stackGet s ty

/-- Leave the top of the stack in a destination that is a single slot. -/
def put (dst : Destination) (store : Memory → Emit Unit) (ty : ValType) : Emit Unit :=
  match dst with
  | .memory mem => store mem
  | .stack s _ => stackSet s ty

end Wasmtime.Fact
