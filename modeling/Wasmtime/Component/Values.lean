import Wasmtime.Component.Types
import Wasmtime.Base.Loop

/-!
# Lifting values out of a guest

`Val::lift`, `Val::load`, `load_results` and what they call in `values.rs`, `func.rs` and
`func/typed.rs`: how the host reads a value of an interface type from the core values and the linear
memory of a guest.

An index or a slice out of bounds, an `unwrap` of nothing, and a debug assertion are panics. A slice
is its place in the memory, whose base is aligned for every type. What the instance's tables make of
an index (`Cx.handle`, which may fail or panic) and the decoders of strings are left open.

The functions take the two steps that may panic on what a guest supplies as `Prims`: `Cx.host` are
those of the source, and `Cx.canon` of `Lifting.lean` skips bits that have no name.
-/

namespace Wasmtime.Component

open Base
open Environ (DiscriminantSize FlagsSize)

inductive StringEncoding where
  | utf8
  | utf16
  | compactUtf16
deriving DecidableEq

inductive Val (ρ : Type) where
  | bool (b : Bool)
  | s8 (v : Int8)
  | u8 (v : UInt8)
  | s16 (v : Int16)
  | u16 (v : UInt16)
  | s32 (v : Int32)
  | u32 (v : UInt32)
  | s64 (v : Int64)
  | u64 (v : UInt64)
  | float32 (bits : UInt32)
  | float64 (bits : UInt64)
  | char (c : Char)
  | string (s : String)
  | list (vals : List (Val ρ))
  | record (fields : List (String × Val ρ))
  | tuple (vals : List (Val ρ))
  | variant (name : String) (payload : Option (Val ρ))
  | enum (name : String)
  | option (payload : Option (Val ρ))
  | result (ok : Bool) (payload : Option (Val ρ))
  | flags (names : List String)
  /-- A resource, future, stream or error context. -/
  | handle (h : ρ)

abbrev Lift (σ : Type) := Prog σ String

/-- What lifting reads: the memory and options of the guest, its tables and the decoders. -/
structure Cx (σ ρ : Type) where
  memory : List UInt8
  encoding : StringEncoding
  /-- `lift_from_index` and its like, on the tables in the state. -/
  handle : Handle → Nat → Lift σ ρ
  decodeUtf8 : List UInt8 → Except String String
  decodeUtf16 : List UInt8 → Except String String
  decodeLatin1 : List UInt8 → String

abbrev ValRaw := UInt64

variable {σ ρ : Type}

def ofExcept {α : Type} : Except String α → Lift σ α
  | .ok a => pure a
  | .error e => Prog.err e

/-! ### Slices of the memory -/

structure Slice where
  start : Nat
  len : Nat

def Slice.sub (bytes : Slice) (offset size : Nat) : Lift σ Slice := do
  Prog.assert (offset ≤ bytes.len) (.bounds "start of slice")
  Prog.assert (size ≤ bytes.len - offset) (.bounds "end of slice")
  pure ⟨bytes.start + offset, size⟩

def Slice.suffix (bytes : Slice) (offset : Nat) : Lift σ Slice := do
  Prog.assert (offset ≤ bytes.len) (.bounds "start of slice")
  pure ⟨bytes.start + offset, bytes.len - offset⟩

def fromLeBytes : List UInt8 → Nat
  | [] => 0
  | b :: bytes => b.toNat + 256 * fromLeBytes bytes

namespace Cx

variable (cx : Cx σ ρ)

def bytesOf (bytes : Slice) : List UInt8 := (cx.memory.drop bytes.start).take bytes.len

/-- `from_le_bytes(bytes.try_into().unwrap())` for an integer of `n` bytes. -/
def readLe (n : Nat) (bytes : Slice) : Lift σ Nat := do
  Prog.assert (bytes.len = n) (.unwrap "try_into")
  pure (fromLeBytes (cx.bytesOf bytes))

def readAligned (n : Nat) (bytes : Slice) : Lift σ Nat := do
  Prog.assert (bytes.start % n = 0) (.assert "as_ptr")
  cx.readLe n bytes

/-! ### Scalars -/

def charFrom (bits : UInt32) : Lift σ (Val ρ) :=
  if h : bits.toNat.isValidChar then
    have hlt : bits.toNat < UInt32.size := bits.toNat_lt
    pure (.char ⟨bits, by simpa [UInt32.isValidChar] using h⟩)
  else Prog.err "converted integer out of range for char"

def liftScalar (s : Scalar) (src : ValRaw) : Lift σ (Val ρ) :=
  match s with
  | .bool => pure (.bool (src.toUInt32 ≠ 0))
  | .s8 => pure (.s8 src.toUInt8.toInt8)
  | .u8 => pure (.u8 src.toUInt8)
  | .s16 => pure (.s16 src.toUInt16.toInt16)
  | .u16 => pure (.u16 src.toUInt16)
  | .s32 => pure (.s32 src.toUInt32.toInt32)
  | .u32 => pure (.u32 src.toUInt32)
  | .s64 => pure (.s64 src.toInt64)
  | .u64 => pure (.u64 src)
  | .float32 => pure (.float32 src.toUInt32)
  | .float64 => pure (.float64 src)
  | .char => charFrom src.toUInt32

def loadScalar (s : Scalar) (bytes : Slice) : Lift σ (Val ρ) :=
  match s with
  | .bool => do
    let byte ← Prog.unwrap (cx.bytesOf bytes)[0]? (.bounds "bytes")
    pure (.bool (byte ≠ 0))
  | .s8 => return .s8 (UInt8.ofNat (← cx.readAligned 1 bytes)).toInt8
  | .u8 => return .u8 (UInt8.ofNat (← cx.readAligned 1 bytes))
  | .s16 => return .s16 (UInt16.ofNat (← cx.readAligned 2 bytes)).toInt16
  | .u16 => return .u16 (UInt16.ofNat (← cx.readAligned 2 bytes))
  | .s32 => return .s32 (UInt32.ofNat (← cx.readAligned 4 bytes)).toInt32
  | .u32 => return .u32 (UInt32.ofNat (← cx.readAligned 4 bytes))
  | .s64 => return .s64 (UInt64.ofNat (← cx.readAligned 8 bytes)).toInt64
  | .u64 => return .u64 (UInt64.ofNat (← cx.readAligned 8 bytes))
  | .float32 => return .float32 (UInt32.ofNat (← cx.readAligned 4 bytes))
  | .float64 => return .float64 (UInt64.ofNat (← cx.readAligned 8 bytes))
  | .char => do
    let bits ← cx.readAligned 4 bytes
    charFrom (UInt32.ofNat bits)

/-! ### Strings -/

def utf16Tag : Nat := 2 ^ 31

/-- The number of bytes of a string; lengths are `u32`, so that nothing overflows. -/
def byteLen (len : Nat) : Nat :=
  match cx.encoding with
  | .utf8 => len
  | .utf16 => len * 2
  | .compactUtf16 => if len &&& utf16Tag = 0 then len else (len ^^^ utf16Tag) * 2

def wasmStr (ptr len : Nat) : Lift σ Unit :=
  if ptr + cx.byteLen len ≤ cx.memory.length then pure ()
  else Prog.err "string pointer/length out of bounds of memory"

def decodeUtf16At (ptr len : Nat) : Lift σ (Val ρ) := do
  let memory ← Slice.sub ⟨0, cx.memory.length⟩ ptr (len * 2)
  Prog.assert ((cx.bytesOf memory).length % 2 = 0) (.unwrap "chunk")
  return .string (← ofExcept (cx.decodeUtf16 (cx.bytesOf memory)))

/-- `to_str_from_memory`. -/
def toStr (ptr len : Nat) : Lift σ (Val ρ) :=
  match cx.encoding with
  | .utf8 => do
    let memory ← Slice.sub ⟨0, cx.memory.length⟩ ptr len
    return .string (← ofExcept (cx.decodeUtf8 (cx.bytesOf memory)))
  | .utf16 => cx.decodeUtf16At ptr len
  | .compactUtf16 =>
    if len &&& utf16Tag = 0 then do
      let memory ← Slice.sub ⟨0, cx.memory.length⟩ ptr len
      return .string (cx.decodeLatin1 (cx.bytesOf memory))
    else cx.decodeUtf16At ptr (len ^^^ utf16Tag)

def liftString (ptr len : Nat) : Lift σ (Val ρ) := do
  cx.wasmStr ptr len
  cx.toStr ptr len

def readPair (bytes : Slice) : Lift σ (Nat × Nat) := do
  let ptr ← cx.readLe 4 (← bytes.sub 0 4)
  let len ← cx.readLe 4 (← bytes.suffix 4)
  pure (ptr, len)

def loadString (bytes : Slice) : Lift σ (Val ρ) := do
  Prog.assert (bytes.start % 4 = 0) (.assert "as_ptr")
  let (ptr, len) ← cx.readPair bytes
  cx.liftString ptr len

end Cx

/-! ### Flags -/

/-- The names that one more word adds to the flags: the arguments are the names of the type,
the flags so far, the number of the word's first bit, and the word. -/
abbrev Push (σ : Type) := List String → List String → Nat → UInt32 → Lift σ (List String)

/-- The loop of `push_flags`: after so many rounds nothing is left of a word. -/
def pushBits (names : List String) : Nat → List String → Nat → Nat → Lift σ (List String)
  | 0, flags, _, _ => pure flags
  | rounds + 1, flags, offset, bits =>
    if bits > 0 then do
      let flags ←
        if bits % 2 ≠ 0 then do
          let name ← Prog.unwrap names[offset]? (.bounds "names")
          pure (flags ++ [name])
        else pure flags
      pushBits names rounds flags (offset + 1) (bits / 2)
    else pure flags

def pushFlags : Push σ := fun names flags offset bits => pushBits names 32 flags offset bits.toNat

/-- The steps of lifting that may panic: a word of flags, and an index into the tables. -/
structure Prims (σ ρ : Type) where
  push : Push σ
  handle : Handle → Nat → Lift σ ρ

def Cx.host (cx : Cx σ ρ) : Prims σ ρ := ⟨pushFlags, cx.handle⟩

def Prims.liftHandle (prims : Prims σ ρ) (h : Handle) (index : Nat) : Lift σ (Val ρ) := do
  return .handle (← prims.handle h index)

def pushWords (push : Push σ) (names : List String) (read : Nat → Lift σ UInt32) :
    Nat → Nat → List String → Lift σ (List String)
  | 0, _, flags => pure flags
  | n + 1, i, flags => do
    let bits ← read i
    let flags ← push names flags (i * 32) bits
    pushWords push names read n (i + 1) flags

/-! ### Loading from memory -/

structure Loader (σ ρ : Type) where
  abi : Abi
  run : Slice → Lift σ (Val ρ)

def loadFields (fields : List (Loader σ ρ)) (bytes : Slice) : Lift σ (List (Val ρ)) :=
  Prog.collect (fun (field : Loader σ ρ × Nat) => do
    field.1.run (← bytes.sub field.2 field.1.abi.size))
    (fields.zip (fieldOffsets 0 (fields.map (·.abi))))

def loadList (cx : Cx σ ρ) (element : Loader σ ρ) (ptr len : Nat) : Lift σ (Val ρ) :=
  if ptr + len * element.abi.size ≤ cx.memory.length then
    if ptr % element.abi.align ≠ 0 then Prog.err "list pointer is not aligned"
    else do
      let vals ← Prog.collect (fun index => do
        element.run (← Slice.sub ⟨0, cx.memory.length⟩ (ptr + index * element.abi.size)
          element.abi.size)) (List.range len)
      pure (.list vals)
  else Prog.err "list pointer/length out of bounds of memory"

def loadDiscriminant (cx : Cx σ ρ) (size : DiscriminantSize) (bytes : Slice) : Lift σ Nat := do
  cx.readAligned (discriminantBytes size) (← bytes.sub 0 (discriminantBytes size))

def loadVariant (cx : Cx σ ρ) (cases : List (Option (Loader σ ρ))) (bytes : Slice) :
    Lift σ (Nat × Option (Val ρ)) := do
  let abis := cases.map (Option.map (·.abi))
  let discriminant ← loadDiscriminant cx (discriminantSize cases.length) bytes
  match cases[discriminant]? with
  | none => Prog.err "discriminant out of range"
  | some none => pure (discriminant, none)
  | some (some case) => do
    let value ← case.run (← bytes.sub (Abi.payloadOffset abis) case.abi.size)
    pure (discriminant, some value)

def loadFlags (cx : Cx σ ρ) (push : Push σ) (names : List String) (bytes : Slice) :
    Lift σ (List String) :=
  match flagsSize names.length with
  | .size0 => pure []
  | .size1 => do push names [] 0 (UInt32.ofNat (← cx.readAligned 1 bytes))
  | .size2 => do push names [] 0 (UInt32.ofNat (← cx.readAligned 2 bytes))
  | .size4Plus n =>
    pushWords push names (fun i => do
      return UInt32.ofNat (← cx.readAligned 4 (← bytes.sub (i * 4) 4))) n 0 []

mutual

def load (cx : Cx σ ρ) (prims : Prims σ ρ) : InterfaceType → Slice → Lift σ (Val ρ)
  | .scalar s, bytes => cx.loadScalar s bytes
  | .string, bytes => cx.loadString bytes
  | .handle h, bytes => do prims.liftHandle h (← cx.readAligned 4 bytes)
  | .list element, bytes => do
    let (ptr, len) ← cx.readPair bytes
    loadList cx ⟨element.abi 4, load cx prims element⟩ ptr len
  | .record fields, bytes => do
    let vals ← loadFields (fieldLoaders cx prims fields) bytes
    pure (.record ((fields.map (·.1)).zip vals))
  | .tuple types, bytes => do
    let vals ← loadFields (loaders cx prims types) bytes
    pure (.tuple vals)
  | .variant cases, bytes => do
    let (discriminant, value) ← loadVariant cx (caseLoaders cx prims cases) bytes
    let name ← Prog.unwrap (cases.map (·.1))[discriminant]? (.unwrap "get_index")
    pure (.variant name value)
  | .enum names, bytes => do
    let (discriminant, _) ← loadVariant cx (names.map fun _ => none) bytes
    let name ← Prog.unwrap names[discriminant]? (.bounds "names")
    pure (.enum name)
  | .option ty, bytes => do
    let (_, value) ← loadVariant cx [none, some ⟨ty.abi 4, load cx prims ty⟩] bytes
    pure (.option value)
  | .result ok err, bytes => do
    let (discriminant, value) ← loadVariant cx
      [payloadLoader cx prims ok, payloadLoader cx prims err] bytes
    pure (.result (discriminant = 0) value)
  | .flags names, bytes => do
    let flags ← loadFlags cx prims.push names bytes
    pure (.flags flags)

def payloadLoader (cx : Cx σ ρ) (prims : Prims σ ρ) : Option InterfaceType → Option (Loader σ ρ)
  | none => none
  | some ty => some ⟨ty.abi 4, load cx prims ty⟩

def loaders (cx : Cx σ ρ) (prims : Prims σ ρ) : List InterfaceType → List (Loader σ ρ)
  | [] => []
  | ty :: types => ⟨ty.abi 4, load cx prims ty⟩ :: loaders cx prims types

def fieldLoaders (cx : Cx σ ρ) (prims : Prims σ ρ) :
    List (String × InterfaceType) → List (Loader σ ρ)
  | [] => []
  | (_, ty) :: fields => ⟨ty.abi 4, load cx prims ty⟩ :: fieldLoaders cx prims fields

def caseLoaders (cx : Cx σ ρ) (prims : Prims σ ρ) :
    List (String × Option InterfaceType) → List (Option (Loader σ ρ))
  | [] => []
  | (_, ty) :: cases => payloadLoader cx prims ty :: caseLoaders cx prims cases

end

/-! ### Lifting from core values -/

/-- The next core value: there is an `unwrap`. -/
def next (src : List ValRaw) : Lift σ (ValRaw × List ValRaw) :=
  match src with
  | [] => Prog.panic (.unwrap "next")
  | v :: rest => pure (v, rest)

def skip : Nat → List ValRaw → Lift σ (List ValRaw)
  | 0, src => pure src
  | n + 1, src => do
    let (_, src) ← next src
    skip n src

structure Lifter (σ ρ : Type) where
  flatCount : Option Nat
  run : List ValRaw → Lift σ (Val ρ × List ValRaw)

def liftFields : List (Lifter σ ρ) → List ValRaw → Lift σ (List (Val ρ) × List ValRaw)
  | [], src => pure ([], src)
  | field :: fields, src => do
    let (val, src) ← field.run src
    let (vals, src) ← liftFields fields src
    pure (val :: vals, src)

def liftVariant (flattenCount : Nat) (cases : List (Option (Lifter σ ρ))) (src : List ValRaw) :
    Lift σ (Nat × Option (Val ρ) × List ValRaw) := do
  let (v, src) ← next src
  let discriminant := v.toUInt32.toNat
  match cases[discriminant]? with
  | none => Prog.err "discriminant out of range"
  | some none => do
    let src ← skip (flattenCount - 1) src
    pure (discriminant, none, src)
  | some (some case) => do
    let (value, src) ← case.run src
    let valueFlat ← Prog.unwrap case.flatCount (.unwrap "flat_count")
    let src ← skip (flattenCount - (1 + valueFlat)) src
    pure (discriminant, some value, src)

def liftWords (push : Push σ) (names : List String) :
    Nat → Nat → List String → List ValRaw → Lift σ (List String × List ValRaw)
  | 0, _, flags, src => pure (flags, src)
  | n + 1, i, flags, src => do
    let (v, src) ← next src
    let flags ← push names flags (i * 32) v.toUInt32
    liftWords push names n (i + 1) flags src

mutual

def lift (cx : Cx σ ρ) (prims : Prims σ ρ) :
    InterfaceType → List ValRaw → Lift σ (Val ρ × List ValRaw)
  | .scalar s, src => do
    let (v, src) ← next src
    let val ← Cx.liftScalar s v
    pure (val, src)
  | .string, src => do
    let (ptr, src) ← next src
    let (len, src) ← next src
    let val ← cx.liftString ptr.toUInt32.toNat len.toUInt32.toNat
    pure (val, src)
  | .handle h, src => do
    let (v, src) ← next src
    let val ← prims.liftHandle h v.toUInt32.toNat
    pure (val, src)
  | .list element, src => do
    let (ptr, src) ← next src
    let (len, src) ← next src
    let val ← loadList cx ⟨element.abi 4, load cx prims element⟩ ptr.toUInt32.toNat
      len.toUInt32.toNat
    pure (val, src)
  | .record fields, src => do
    let (vals, src) ← liftFields (fieldLifters cx prims fields) src
    pure (.record ((fields.map (·.1)).zip vals), src)
  | .tuple types, src => do
    let (vals, src) ← liftFields (lifters cx prims types) src
    pure (.tuple vals, src)
  | .variant cases, src => do
    let count ← Prog.unwrap ((InterfaceType.variant cases).abi 4).flatCount (.unwrap "flat_count")
    let (discriminant, value, src) ← liftVariant count (caseLifters cx prims cases) src
    let name ← Prog.unwrap (cases.map (·.1))[discriminant]? (.unwrap "get_index")
    pure (.variant name value, src)
  | .enum names, src => do
    let count ← Prog.unwrap ((InterfaceType.enum names).abi 4).flatCount (.unwrap "flat_count")
    let (discriminant, _, src) ← liftVariant count
      (names.map fun _ => (none : Option (Lifter σ ρ))) src
    let name ← Prog.unwrap names[discriminant]? (.bounds "names")
    pure (.enum name, src)
  | .option ty, src => do
    let count ← Prog.unwrap ((InterfaceType.option ty).abi 4).flatCount (.unwrap "flat_count")
    let (_, value, src) ← liftVariant count
      [none, some ⟨(ty.abi 4).flatCount, lift cx prims ty⟩] src
    pure (.option value, src)
  | .result ok err, src => do
    let count ← Prog.unwrap ((InterfaceType.result ok err).abi 4).flatCount (.unwrap "flat_count")
    let (discriminant, value, src) ← liftVariant count
      [payloadLifter cx prims ok, payloadLifter cx prims err] src
    pure (.result (discriminant = 0) value, src)
  | .flags names, src => do
    let count ← Prog.unwrap ((InterfaceType.flags names).abi 4).flatCount (.unwrap "flat_count")
    let (flags, src) ← liftWords prims.push names count 0 [] src
    pure (.flags flags, src)

def payloadLifter (cx : Cx σ ρ) (prims : Prims σ ρ) : Option InterfaceType → Option (Lifter σ ρ)
  | none => none
  | some ty => some ⟨(ty.abi 4).flatCount, lift cx prims ty⟩

def lifters (cx : Cx σ ρ) (prims : Prims σ ρ) : List InterfaceType → List (Lifter σ ρ)
  | [] => []
  | ty :: types => ⟨(ty.abi 4).flatCount, lift cx prims ty⟩ :: lifters cx prims types

def fieldLifters (cx : Cx σ ρ) (prims : Prims σ ρ) :
    List (String × InterfaceType) → List (Lifter σ ρ)
  | [] => []
  | (_, ty) :: fields => ⟨(ty.abi 4).flatCount, lift cx prims ty⟩ :: fieldLifters cx prims fields

def caseLifters (cx : Cx σ ρ) (prims : Prims σ ρ) :
    List (String × Option InterfaceType) → List (Option (Lifter σ ρ))
  | [] => []
  | (_, ty) :: cases => payloadLifter cx prims ty :: caseLifters cx prims cases

end

/-! ### The results of a call -/

def loadResults (cx : Cx σ ρ) (prims : Prims σ ρ) (types : List InterfaceType) (src : List ValRaw) :
    Lift σ (List (Val ρ)) := do
  let abi := (InterfaceType.tuple types).abi 4
  let (v, _) ← next src
  let ptr := v.toUInt32.toNat
  if ptr % abi.align ≠ 0 then Prog.err "return pointer not aligned"
  else if ptr + abi.size ≤ cx.memory.length then
    loadFields (loaders cx prims types) ⟨ptr, abi.size⟩
  else Prog.err "pointer out of bounds of memory"

def liftResults (cx : Cx σ ρ) (prims : Prims σ ρ) (types : List InterfaceType) (maxFlat : Nat)
    (src : List ValRaw) : Lift σ (List (Val ρ)) :=
  match ((InterfaceType.tuple types).abi 4).flatCount with
  | some n =>
    if n ≤ maxFlat then do
      let (vals, _) ← liftFields (lifters cx prims types) src
      pure vals
    else loadResults cx prims types src
  | none => loadResults cx prims types src

end Wasmtime.Component
