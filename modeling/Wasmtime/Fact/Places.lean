import Wasmtime.Component.Values
import Wasmtime.Base.Wasm

/-!
# Where an adapter finds a value and where it leaves it

A value of an interface type is in locals, one for each of its flat types, or in a linear memory at
a local with an address and a constant offset. A slice that is out of range is `none`, where the
compiler panics.

* `flatten`: the flat types, with the type of a pointer.
* `Source.recordFieldSrcs`, `Source.payloadSrc` and the same for a `Destination`.
-/

namespace Wasmtime.Fact

open Base Base.Wasm
open Component hiding skip
open Environ (DiscriminantSize FlagsSize)

/-! ### Flat types -/

/-- `FlatType::join`, for the cases of a variant that share a slot. -/
def joinTypes (a b : ValType) : ValType :=
  match a, b with
  | .i32, .i32 => .i32
  | .i32, .f32 => .i32
  | .f32, .i32 => .i32
  | .f32, .f32 => .f32
  | .f64, .f64 => .f64
  | _, _ => .i64

def joinFlat : List ValType → List ValType → List ValType
  | [], ys => ys
  | x :: xs, [] => x :: xs
  | x :: xs, y :: ys => joinTypes x y :: joinFlat xs ys

def scalarType : Scalar → ValType
  | .s64 | .u64 => .i64
  | .float32 => .f32
  | .float64 => .f64
  | _ => .i32

def flagWordCount (count : Nat) : Nat :=
  match flagsSize count with
  | .size0 => 0
  | .size1 => 1
  | .size2 => 1
  | .size4Plus n => n

mutual

/-- The flat types of a type; `ptr` is the type of a pointer. -/
def flatten (ptr : ValType) : InterfaceType → List ValType
  | .scalar s => [scalarType s]
  | .string => [ptr, ptr]
  | .handle _ => [.i32]
  | .list _ => [ptr, ptr]
  | .record fields => flattenFields ptr fields
  | .tuple types => flattenTypes ptr types
  | .variant cases => .i32 :: flattenCases ptr cases
  | .enum _ => [.i32]
  | .option ty => .i32 :: flatten ptr ty
  | .result ok err => .i32 :: joinFlat (flattenPayload ptr ok) (flattenPayload ptr err)
  | .flags names => List.replicate (flagWordCount names.length) .i32

def flattenPayload (ptr : ValType) : Option InterfaceType → List ValType
  | none => []
  | some ty => flatten ptr ty

def flattenTypes (ptr : ValType) : List InterfaceType → List ValType
  | [] => []
  | ty :: types => flatten ptr ty ++ flattenTypes ptr types

def flattenFields (ptr : ValType) : List (String × InterfaceType) → List ValType
  | [] => []
  | (_, ty) :: fields => flatten ptr ty ++ flattenFields ptr fields

def flattenCases (ptr : ValType) : List (String × Option InterfaceType) → List ValType
  | [] => []
  | (_, ty) :: cases => joinFlat (flattenPayload ptr ty) (flattenCases ptr cases)

end

/-! ### Options -/

structure Options where
  stringEncoding : StringEncoding
  memory64 : Bool
  memory : Option Nat
  realloc : Option Nat
deriving DecidableEq

namespace Options

def ptr (opts : Options) : ValType := if opts.memory64 then .i64 else .i32

def ptrSize (opts : Options) : Nat := if opts.memory64 then 8 else 4

def abi (opts : Options) (ty : InterfaceType) : Abi := ty.abi opts.ptrSize

def flatTypes (opts : Options) (ty : InterfaceType) : List ValType := flatten opts.ptr ty

end Options

/-! ### Places -/

/-- A place in the memory of `opts`, at `offset` from the address in the local `addr`. -/
structure Memory where
  opts : Options
  addr : Nat
  offset : Nat

def Memory.bump (mem : Memory) (offset : Nat) : Memory := { mem with offset := mem.offset + offset }

/-- `Source`: the locals that hold the flat values, with the type of each, or a memory. -/
inductive Source where
  | stack (locals : List (Nat × ValType)) (opts : Options)
  | memory (mem : Memory)

/-- `Destination`: the types of the values to be pushed, or a memory. -/
inductive Destination where
  | stack (types : List ValType) (opts : Options)
  | memory (mem : Memory)

def slice {α : Type} (l : List α) (start stop : Nat) : Option (List α) :=
  if start ≤ stop ∧ stop ≤ l.length then some ((l.drop start).take (stop - start)) else none

/-- `next_field_offset`: the offset of a field and where the next one may start. -/
def nextFieldOffset (offset : Nat) (abi : Abi) : Nat × Nat :=
  (alignTo offset abi.align, alignTo offset abi.align + abi.size)

def Source.opts : Source → Options
  | .stack _ opts => opts
  | .memory mem => mem.opts

def Destination.opts : Destination → Options
  | .stack _ opts => opts
  | .memory mem => mem.opts

def Source.recordFieldSrcs (src : Source) (offset : Nat) : List InterfaceType → Option (List Source)
  | [] => some []
  | ty :: fields =>
    match src with
    | .memory mem =>
      let (start, next) := nextFieldOffset offset (mem.opts.abi ty)
      (recordFieldSrcs src next fields).map (.memory (mem.bump start) :: ·)
    | .stack locals opts =>
      let next := offset + (opts.flatTypes ty).length
      match slice locals offset next with
      | none => none
      | some s => (recordFieldSrcs src next fields).map (.stack s opts :: ·)

def Destination.recordFieldDsts (dst : Destination) (offset : Nat) :
    List InterfaceType → Option (List Destination)
  | [] => some []
  | ty :: fields =>
    match dst with
    | .memory mem =>
      let (start, next) := nextFieldOffset offset (mem.opts.abi ty)
      (recordFieldDsts dst next fields).map (.memory (mem.bump start) :: ·)
    | .stack types opts =>
      let next := offset + (opts.flatTypes ty).length
      match slice types offset next with
      | none => none
      | some s => (recordFieldDsts dst next fields).map (.stack s opts :: ·)

/-- `VariantInfo`, of the payloads of the cases. -/
structure VariantInfo where
  size : DiscriminantSize
  payloadOffset32 : Nat
  payloadOffset64 : Nat

def variantInfo (cases : List (Option InterfaceType)) : VariantInfo where
  size := discriminantSize cases.length
  payloadOffset32 := Abi.payloadOffset (cases.map (Option.map (InterfaceType.abi 4)))
  payloadOffset64 := Abi.payloadOffset (cases.map (Option.map (InterfaceType.abi 8)))

def VariantInfo.payloadOffset (info : VariantInfo) (opts : Options) : Nat :=
  if opts.memory64 then info.payloadOffset64 else info.payloadOffset32

def payloadFlat (opts : Options) : Option InterfaceType → List ValType
  | some ty => opts.flatTypes ty
  | none => []

def Source.payloadSrc (src : Source) (info : VariantInfo) (case : Option InterfaceType) :
    Option Source :=
  match src with
  | .stack locals opts =>
    match slice locals 1 locals.length with
    | none => none
    | some rest => (slice rest 0 (payloadFlat opts case).length).map (.stack · opts)
  | .memory mem => some (.memory (mem.bump (info.payloadOffset mem.opts)))

def Destination.payloadDst (dst : Destination) (info : VariantInfo) (case : Option InterfaceType) :
    Option Destination :=
  match dst with
  | .stack types opts =>
    match slice types 1 types.length with
    | none => none
    | some rest => (slice rest 0 (payloadFlat opts case).length).map (.stack · opts)
  | .memory mem => some (.memory (mem.bump (info.payloadOffset mem.opts)))

end Wasmtime.Fact
