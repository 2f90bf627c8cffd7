import Wasmtime.Fact.Emit

/-!
# The translation of values between the two sides of an adapter

`translate` emits the code that moves a value of one type from a source to a destination. A layer of
a type costs fuel; without enough of it a helper function does the work.

* `convertVariant`: variants, options and results.
* `translate`: all types. The code for strings is a parameter: `translate_string` with its loops
  over the pairs of encodings is not modelled. It asks for no helper and translates no other type,
  and what is proved of the others needs only that its code is balanced.
-/

namespace Wasmtime.Fact

open Base Base.Wasm
open Component hiding skip
open Environ (DiscriminantSize FlagsSize)

abbrev Translator := Source → InterfaceType → Destination → Emit Unit

/-! ### Scalars -/

def translateBool (src : Source) (dst : Destination) : Emit Unit := do
  pushDstAddr dst
  instruction (.const .i32 1)
  instruction (.const .i32 0)
  fetch src i32Load8u .i32
  instruction .select
  put dst i32Store8 .i32

/-- `if needs_mask`. -/
def maskWith (needed : Bool) (mask : Nat) : Emit Unit := do
  if needed then
    instruction (.const .i32 mask)
    instruction (.int .i32 .and)

def convertU8Mask (src : Source) (dst : Destination) (mask : Nat) : Emit Unit := do
  pushDstAddr dst
  fetch src i32Load8u .i32
  match src with
  | .memory _ => maskWith (mask ≠ 0xff) mask
  | .stack _ _ => maskWith true mask
  put dst i32Store8 .i32

def translateS8 (src : Source) (dst : Destination) : Emit Unit := do
  pushDstAddr dst
  fetch src i32Load8s .i32
  match src with
  | .memory _ => pure ()
  | .stack _ _ => instruction (.conv .i32Extend8S)
  put dst i32Store8 .i32

def convertU16Mask (src : Source) (dst : Destination) (mask : Nat) : Emit Unit := do
  pushDstAddr dst
  fetch src i32Load16u .i32
  match src with
  | .memory _ => maskWith (mask ≠ 0xffff) mask
  | .stack _ _ => maskWith true mask
  put dst i32Store16 .i32

def translateS16 (src : Source) (dst : Destination) : Emit Unit := do
  pushDstAddr dst
  fetch src i32Load16s .i32
  match src with
  | .memory _ => pure ()
  | .stack _ _ => instruction (.conv .i32Extend16S)
  put dst i32Store16 .i32

def convertU32Mask (src : Source) (dst : Destination) (mask : Nat) : Emit Unit := do
  pushDstAddr dst
  fetch src i32Load .i32
  maskWith (mask ≠ 0xffffffff) mask
  put dst i32Store .i32

/-- `translate_s32`, `translate_u64`, `translate_s64`, `translate_f32` and `translate_f64`: the
value is copied. -/
def copyValue (load store : Memory → Emit Unit) (ty : ValType) (src : Source) (dst : Destination) :
    Emit Unit := do
  pushDstAddr dst
  fetch src load ty
  put dst store ty

def translateChar (src : Source) (dst : Destination) : Emit Unit := do
  fetch src i32Load .i32
  let l ← localSetNewTmp .i32
  instruction (.block 0)
  instruction (.block 0)
  instruction (.localGet l.idx)
  instruction (.const .i32 0xd800)
  instruction (.int .i32 .xor)
  instruction (.const .i32 (2 ^ 32 - 0x110000))
  instruction (.int .i32 .add)
  instruction (.const .i32 (2 ^ 32 - 0x10f800))
  instruction (.rel .i32 .ltU)
  instruction (.brIf 0)
  instruction (.localGet l.idx)
  instruction (.const .i32 0x110000)
  instruction (.rel .i32 .ne)
  instruction (.brIf 1)
  instruction .end_
  trap .invalidChar
  instruction .end_
  pushDstAddr dst
  instruction (.localGet l.idx)
  put dst i32Store .i32
  freeTempLocal l

def convertScalar : Scalar → Source → Destination → Emit Unit
  | .bool => translateBool
  | .u8 => fun src dst => convertU8Mask src dst 0xff
  | .s8 => translateS8
  | .u16 => fun src dst => convertU16Mask src dst 0xffff
  | .s16 => translateS16
  | .u32 => fun src dst => convertU32Mask src dst 0xffffffff
  | .s32 => copyValue i32Load i32Store .i32
  | .u64 => copyValue i64Load i64Store .i64
  | .s64 => copyValue i64Load i64Store .i64
  | .float32 => copyValue f32Load f32Store .f32
  | .float64 => copyValue f64Load f64Store .f64
  | .char => translateChar

def translateScalar (s : Scalar) : Translator := fun src dstTy dst => do
  Prog.assert (dstTy = .scalar s) (.assert "matches!(dst_ty)")
  convertScalar s src dst

/-- `translate_handle`, for each kind of handle. -/
def translateHandle (h : Handle) : Translator := fun src dstTy dst =>
  match dstTy with
  | .handle g => do
    Prog.assert (handleKind g = handleKind h) (.unreachable "expected a handle")
    pushDstAddr dst
    fetch src i32Load .i32
    instruction (.const .i32 (handleTable h))
    instruction (.const .i32 (handleTable g))
    instruction (.call (.transfer (handleKind h)))
    put dst i32Store .i32
  | _ => Prog.panic (.unreachable "expected a handle")

/-! ### Records, tuples and flags -/

structure SrcType where
  ty : InterfaceType
  translate : Translator

/-- `translate_record`: the fields are matched by name. -/
def translateRecord (fields : List (String × SrcType)) : Translator := fun src dstTy dst =>
  match dstTy with
  | .record dstFields => do
    Prog.assert (fields.length = dstFields.length) (.assert "fields.len()")
    let srcs ← Prog.unwrap (src.recordFieldSrcs 0 (fields.map (·.2.ty))) (.bounds "slice")
    let dsts ← Prog.unwrap (dst.recordFieldDsts 0 (dstFields.map (·.2))) (.bounds "slice")
    let srcFields := (fields.zip srcs).map fun f => (f.1.1, f.2, f.1.2)
    (dstFields.zip dsts).forM fun f => do
      -- a field that was inserted again has replaced the first one
      let (src, ty) ← Prog.unwrap (srcFields.reverse.lookup f.1.1) (.unwrap "src_fields")
      ty.translate src f.1.2 f.2
  | _ => Prog.panic (.unreachable "expected a record")

def translateTuple (types : List SrcType) : Translator := fun src dstTy dst =>
  match dstTy with
  | .tuple dstTypes => do
    Prog.assert (types.length = dstTypes.length) (.assert "types.len()")
    let srcs ← Prog.unwrap (src.recordFieldSrcs 0 (types.map (·.ty))) (.bounds "slice")
    let dsts ← Prog.unwrap (dst.recordFieldDsts 0 dstTypes) (.bounds "slice")
    ((srcs.zip types).zip (dsts.zip dstTypes)).forM fun f => f.1.2.translate f.1.1 f.2.2 f.2.1
  | _ => Prog.panic (.unreachable "expected a tuple")

def translateFlags (names : List String) : Translator := fun src dstTy dst =>
  match dstTy with
  | .flags dstNames => do
    Prog.assert (names = dstNames) (.assert "src_ty.names == dst_ty.names")
    match flagsSize names.length with
    | .size0 => pure ()
    | .size1 => convertU8Mask src dst (if names.length = 8 then 0xff else 2 ^ names.length - 1)
    | .size2 => convertU16Mask src dst (if names.length = 16 then 0xffff else 2 ^ names.length - 1)
    | .size4Plus n => do
      let words := List.replicate n (InterfaceType.scalar .u32)
      let srcs ← Prog.unwrap (src.recordFieldSrcs 0 words) (.bounds "slice")
      let dsts ← Prog.unwrap (dst.recordFieldDsts 0 words) (.bounds "slice")
      (srcs.zip dsts).zipIdx.forM fun w =>
        convertU32Mask w.1.1 w.1.2
          (if w.2 = n - 1 ∧ names.length % 32 ≠ 0 then 2 ^ (names.length % 32) - 1 else 0xffffffff)
  | _ => Prog.panic (.unreachable "expected flags")

/-! ### Variants -/

structure VariantCase where
  srcI : Nat
  srcTy : Option SrcType
  dstI : Nat
  dstTy : Option InterfaceType

def loadDiscriminant (src : Source) (size : DiscriminantSize) : Emit Unit :=
  match src with
  | .stack s _ => do
    let slot ← firstSlot s
    stackGet slot .i32
  | .memory mem =>
    match size with
    | .size1 => i32Load8u mem
    | .size2 => i32Load16u mem
    | .size4 => i32Load mem

def storeDiscriminant (dst : Destination) (size : DiscriminantSize) : Emit Unit :=
  match dst with
  | .stack types _ => do
    let slot ← firstSlot types
    stackSet slot .i32
  | .memory mem =>
    match size with
    | .size1 => i32Store8 mem
    | .size2 => i32Store16 mem
    | .size4 => i32Store mem

/-- Zeros for the slots of the destination that the payload does not use. -/
def padPayload (dst dstPayload : Destination) : Emit Unit :=
  match dstPayload, dst with
  | .stack results _, .stack types _ => do
    let rest ← Prog.unwrap (slice types 1 types.length) (.bounds "slice")
    let remaining ← Prog.unwrap (slice rest results.length rest.length) (.bounds "slice")
    remaining.forM fun ty => instruction (.const ty 0)
  | _, _ => pure ()

def translatePayload (case : VariantCase) (srcPayload : Source) (dstPayload : Destination) :
    Emit Unit :=
  match case.srcTy, case.dstTy with
  | some srcTy, some dstTy => srcTy.translate srcPayload dstTy dstPayload
  | none, none => pure ()
  | _, _ => Prog.panic (.unreachable "unimplemented")

/-- Branch to the outermost block, unless the case falls through to its end. -/
def branchOut (count srcI : Nat) : Emit Unit :=
  if srcI ≠ count - 1 then instruction (.br (count - srcI - 1)) else pure ()

def convertCase (src : Source) (srcInfo : VariantInfo) (dst : Destination) (dstInfo : VariantInfo)
    (count : Nat) (case : VariantCase) : Emit Unit := do
  pushDstAddr dst
  instruction (.const .i32 case.dstI)
  storeDiscriminant dst dstInfo.size
  let srcPayload ← Prog.unwrap (src.payloadSrc srcInfo (case.srcTy.map (·.ty))) (.bounds "slice")
  let dstPayload ← Prog.unwrap (dst.payloadDst dstInfo case.dstTy) (.bounds "slice")
  translatePayload case srcPayload dstPayload
  padPayload dst dstPayload
  branchOut count case.srcI
  instruction .end_

def blockArity : Destination → Nat
  | .stack types _ => types.length
  | .memory _ => 0

def convertVariant (src : Source) (srcInfo : VariantInfo) (dst : Destination)
    (dstInfo : VariantInfo) (cases : List VariantCase) : Emit Unit := do
  instruction (.block (blockArity dst))
  Prog.assert (cases.length ≠ 0) (.overflow "src_cases_len - 1")
  (List.range (cases.length - 1)).forM fun _ => instruction (.block 0)
  -- the block of an invalid discriminant, and the one that `br_table` leaves
  instruction (.block 0)
  instruction (.block 0)
  loadDiscriminant src srcInfo.size
  instruction (.brTable ((List.range cases.length).map (· + 1)) 0)
  instruction .end_
  trap .invalidDiscriminant
  instruction .end_
  Prog.assert (cases.length < 2 ^ 32) (.unwrap "u32::try_from")
  cases.forM (convertCase src srcInfo dst dstInfo cases.length)

/-- The cases of `translate_variant` from the `i`-th on, each with the case of the destination of
the same name. -/
def variantCases (dstCases : List (String × Option InterfaceType)) :
    Nat → List (String × Option SrcType) → Option (List VariantCase)
  | _, [] => some []
  | i, (name, ty) :: cases =>
    match dstCases.findIdx? (·.1 = name) with
    | none => none
    | some dstI =>
      match dstCases[dstI]?, variantCases dstCases (i + 1) cases with
      | some dstCase, some rest => some (⟨i, ty, dstI, dstCase.2⟩ :: rest)
      | _, _ => none

def translateVariant (cases : List (String × Option SrcType)) : Translator := fun src dstTy dst =>
  match dstTy with
  | .variant dstCases => do
    let all ← Prog.unwrap (variantCases dstCases 0 cases) (.unwrap "position")
    convertVariant src (variantInfo (cases.map fun c => c.2.map (·.ty))) dst
      (variantInfo (dstCases.map (·.2))) all
  | _ => Prog.panic (.unreachable "expected a variant")

def translateOption (ty : SrcType) : Translator := fun src dstTy dst =>
  match dstTy with
  | .option dstTy =>
    convertVariant src (variantInfo [none, some ty.ty]) dst (variantInfo [none, some dstTy])
      [⟨0, none, 0, none⟩, ⟨1, some ty, 1, some dstTy⟩]
  | _ => Prog.panic (.unreachable "expected an option")

def translateResult (ok err : Option SrcType) : Translator := fun src dstTy dst =>
  match dstTy with
  | .result dstOk dstErr =>
    convertVariant src (variantInfo [ok.map (·.ty), err.map (·.ty)]) dst
      (variantInfo [dstOk, dstErr]) [⟨0, ok, 0, dstOk⟩, ⟨1, err, 1, dstErr⟩]
  | _ => Prog.panic (.unreachable "expected a result")

def translateEnum (names : List String) : Translator := fun src dstTy dst =>
  match dstTy with
  | .enum dstNames => do
    let c ← Prog.get
    debugAssert c.build (discriminantSize names.length = discriminantSize dstNames.length)
      (.assert "src_ty.info.size == dst_ty.info.size")
    debugAssert c.build (names.length = dstNames.length)
      (.assert "src_ty.names.len() == dst_ty.names.len()")
    debugAssert c.build ((names.zip dstNames).all fun n => n.1 = n.2) (.assert "a == b")
    loadDiscriminant src (discriminantSize names.length)
    let tmp ← localTeeNewTmp .i32
    -- assert that the discriminant is valid
    Prog.assert (names.length < 2 ^ 31) (.unwrap "i32::try_from")
    instruction (.const .i32 names.length)
    instruction (.rel .i32 .gtU)
    instruction .ifNonzero
    trap .invalidDiscriminant
    instruction .end_
    -- save the discriminant
    pushDstAddr dst
    instruction (.localGet tmp.idx)
    storeDiscriminant dst (discriminantSize dstNames.length)
    freeTempLocal tmp
  | _ => Prog.panic (.unreachable "expected an option")

/-! ### Lists -/

def verifyAligned (opts : Options) (addr align : Nat) : Emit Unit :=
  if align = 1 then pure () else do
    instruction (.localGet addr)
    ptrUconst opts (align - 1)
    ptrInt opts .and
    ptrIf opts
    trap .unalignedPointer
    instruction .end_

def malloc (opts : Options) (size align : Nat) : Emit TempLocal := do
  let realloc ← Prog.unwrap opts.realloc (.unwrap "realloc")
  ptrUconst opts 0
  ptrUconst opts 0
  ptrUconst opts align
  instruction (.localGet size)
  instruction (.call (.realloc realloc))
  let addr ← localSetNewTmp opts.ptr
  verifyAligned opts addr.idx align
  pure addr

/-- With elements of one byte: the length of a list in a 64-bit memory must have 32 bits. -/
def checkLength (opts : Options) (len : Nat) : Emit Unit :=
  if opts.memory64 then do
    instruction (.localGet len)
    instruction (.const .i64 32)
    instruction (.int .i64 .shrU)
    instruction (.conv .i32WrapI64)
    instruction .ifNonzero
    trap .listByteLengthOverflow
    instruction .end_
  else pure ()

/-- The length that is on the stack, as a number of 64 bits that has 32 bits. -/
def widenLength (opts : Options) (len : Nat) : Emit Unit :=
  if opts.memory64 then do
    instruction (.const .i64 32)
    instruction (.int .i64 .shrU)
    instruction (.conv .i32WrapI64)
    instruction (.brIf 0)
    instruction (.localGet len)
  else instruction (.conv .i64ExtendI32U)

def narrowLength (opts : Options) (tmp : TempLocal) : Emit TempLocal :=
  if opts.memory64 then pure tmp
  else do
    instruction (.localGet tmp.idx)
    instruction (.conv .i32WrapI64)
    freeTempLocal tmp
    localSetNewTmp .i32

def calculateListByteLen (opts : Options) (len eltSize : Nat) : Emit TempLocal :=
  if eltSize = 0 then do
    ptrUconst opts 0
    localSetNewTmp opts.ptr
  else if eltSize = 1 then do
    checkLength opts len
    instruction (.localGet len)
    localSetNewTmp opts.ptr
  else do
    instruction (.block 0)
    instruction (.block 0)
    instruction (.localGet len)
    widenLength opts len
    instruction (.const .i64 eltSize)
    instruction (.int .i64 .mul)
    let tmp ← localTeeNewTmp .i64
    instruction (.const .i64 32)
    instruction (.int .i64 .shrU)
    instruction (.eqz .i64)
    instruction (.brIf 1)
    instruction .end_
    trap .listByteLengthOverflow
    instruction .end_
    narrowLength opts tmp

def convertSrcLenToDst (len : Nat) (srcPtr dstPtr : ValType) : Emit Unit := do
  instruction (.localGet len)
  match srcPtr, dstPtr with
  | .i32, .i64 => instruction (.conv .i64ExtendI32U)
  | .i64, .i32 => instruction (.conv .i32WrapI64)
  | src, dst => Prog.assert (src = dst) (.assert "src == dst")

def extendTo64 (opts : Options) : Emit Unit :=
  if opts.memory64 then pure () else instruction (.conv .i64ExtendI32U)

/-- The end of a range in a 64-bit memory must not have wrapped around. -/
def checkWrap (opts : Options) (ptr : Nat) : Emit Unit :=
  if opts.memory64 then do
    let tmp ← localTeeNewTmp .i64
    instruction (.localGet ptr)
    instruction (.rel opts.ptr .ltU)
    instruction (.brIf 0)
    instruction (.localGet tmp.idx)
    freeTempLocal tmp
  else pure ()

def validateMemoryInbounds (opts : Options) (ptr byteLen : Nat) (t : Trap) : Emit Unit := do
  instruction (.block 0)
  instruction (.block 0)
  let index ← Prog.unwrap opts.memory (.unwrap "memory")
  instruction (.memorySize opts.ptr index)
  extendTo64 opts
  instruction (.const .i64 16)
  instruction (.int .i64 .shl)
  instruction (.localGet ptr)
  extendTo64 opts
  instruction (.localGet byteLen)
  extendTo64 opts
  instruction (.int .i64 .add)
  checkWrap opts ptr
  instruction (.rel .i64 .geU)
  instruction (.brIf 1)
  instruction .end_
  trap t
  instruction .end_

def ptrBrIf (opts : Options) (depth : Nat) : Emit Unit :=
  if opts.memory64 then do
    instruction (.const .i64 0)
    instruction (.rel .i64 .ne)
    instruction (.brIf depth)
  else instruction (.brIf depth)

def advance (opts : Options) (ptr size : Nat) : Emit Unit :=
  if 0 < size then do
    instruction (.localGet ptr)
    ptrUconst opts size
    ptrInt opts .add
    instruction (.localSet ptr)
  else pure ()

/-- The loop over the elements, in the block that is left at once if there is none; elements
without a size need no loop. -/
def translateElements (element : SrcType) (dstElement : InterfaceType) (srcOpts dstOpts : Options)
    (srcLen srcAddr dstAddr : Nat) : Emit Unit :=
  if (srcOpts.abi element.ty).size = 0 ∧ (dstOpts.abi dstElement).size = 0 then pure () else do
  instruction (.block 0)
  instruction (.localGet srcLen)
  let remaining ← localTeeNewTmp srcOpts.ptr
  instruction (.eqz srcOpts.ptr)
  instruction (.brIf 0)
  instruction (.localGet srcAddr)
  let curSrcPtr ← localSetNewTmp srcOpts.ptr
  instruction (.localGet dstAddr)
  let curDstPtr ← localSetNewTmp dstOpts.ptr
  instruction .loop
  element.translate (.memory ⟨srcOpts, curSrcPtr.idx, 0⟩) dstElement
    (.memory ⟨dstOpts, curDstPtr.idx, 0⟩)
  advance srcOpts curSrcPtr.idx (srcOpts.abi element.ty).size
  advance dstOpts curDstPtr.idx (dstOpts.abi dstElement).size
  instruction (.localGet remaining.idx)
  ptrUconst srcOpts (2 ^ srcOpts.ptr.width - 1)
  ptrInt srcOpts .add
  instruction (.localTee remaining.idx)
  ptrBrIf srcOpts 0
  instruction .end_
  instruction .end_
  freeTempLocal curDstPtr
  freeTempLocal curSrcPtr
  freeTempLocal remaining

/-- `ptr_load` and `ptr_store`. -/
def ptrLoad (mem : Memory) : Emit Unit := if mem.opts.memory64 then i64Load mem else i32Load mem

def ptrStore (mem : Memory) : Emit Unit := if mem.opts.memory64 then i64Store mem else i32Store mem

def dstByteLength (srcOpts dstOpts : Options) (srcLen srcByteLen srcSize dstSize : Nat) :
    Emit TempLocal :=
  if srcSize = dstSize then do
    convertSrcLenToDst srcByteLen srcOpts.ptr dstOpts.ptr
    localSetNewTmp dstOpts.ptr
  else if srcOpts.ptr = dstOpts.ptr then
    calculateListByteLen dstOpts srcLen dstSize
  else do
    convertSrcLenToDst srcByteLen srcOpts.ptr dstOpts.ptr
    let tmp ← localSetNewTmp dstOpts.ptr
    let ret ← calculateListByteLen dstOpts tmp.idx dstSize
    freeTempLocal tmp
    pure ret

def pushList (src : Source) : Emit Unit :=
  match src with
  | .stack s opts => do
    Prog.assert (s.length = 2) (.assert "s.locals.len() == 2")
    stackGet (s.take 1) opts.ptr
    stackGet (s.drop 1) opts.ptr
  | .memory mem => do
    ptrLoad mem
    ptrLoad (mem.bump mem.opts.ptrSize)

def putList (dst : Destination) (srcPtr : ValType) (dstAddr srcLen : Nat) : Emit Unit :=
  match dst with
  | .stack s opts => do
    instruction (.localGet dstAddr)
    stackSet (s.take 1) opts.ptr
    convertSrcLenToDst srcLen srcPtr opts.ptr
    stackSet (s.drop 1) opts.ptr
  | .memory mem => do
    instruction (.localGet mem.addr)
    instruction (.localGet dstAddr)
    ptrStore mem
    instruction (.localGet mem.addr)
    convertSrcLenToDst srcLen srcPtr mem.opts.ptr
    ptrStore (mem.bump mem.opts.ptrSize)

def translateList (element : SrcType) : Translator := fun src dstTy dst =>
  match dstTy with
  | .list dstElement => do
    let srcOpts := src.opts
    let dstOpts := dst.opts
    let srcAbi := srcOpts.abi element.ty
    let dstAbi := dstOpts.abi dstElement
    pushList src
    let srcLen ← localSetNewTmp srcOpts.ptr
    let srcPtr ← localSetNewTmp srcOpts.ptr
    verifyAligned srcOpts srcPtr.idx srcAbi.align
    let srcByteLen ← calculateListByteLen srcOpts srcLen.idx srcAbi.size
    let dstByteLen ← dstByteLength srcOpts dstOpts srcLen.idx srcByteLen.idx srcAbi.size dstAbi.size
    let dstPtr ← malloc dstOpts dstByteLen.idx dstAbi.align
    validateMemoryInbounds srcOpts srcPtr.idx srcByteLen.idx .listByteLengthOverflow
    validateMemoryInbounds dstOpts dstPtr.idx dstByteLen.idx .listByteLengthOverflow
    freeTempLocal srcByteLen
    freeTempLocal dstByteLen
    translateElements element dstElement srcOpts dstOpts srcLen.idx srcPtr.idx dstPtr.idx
    putList dst srcOpts.ptr dstPtr.idx srcLen.idx
    freeTempLocal srcLen
    freeTempLocal srcPtr
    freeTempLocal dstPtr
  | _ => Prog.panic (.unreachable "expected a list")

/-! ### Fuel and helpers -/

def cost : InterfaceType → Nat
  | .scalar .char => 1
  | .scalar _ => 0
  | .string => 40
  | .list _ => 40
  | .flags names =>
    match flagsSize names.length with
    | .size0 => 0
    | .size1 => 1
    | .size2 => 1
    | .size4Plus n => n
  | .record fields => fields.length
  | .tuple types => types.length
  | .variant cases => cases.length
  | .enum names => names.length
  | .option _ => 2
  | .result _ _ => 2
  | .handle _ => 1

def initialFuel : Nat := 1000

/-- `translate_helper`: a new helper gets a function, which is compiled later. -/
def translateHelper (h : Helper) : Emit Unit := Prog.modify fun c =>
  if h ∈ c.helperFuncs then c
  else { c with helperFuncs := c.helperFuncs ++ [h], helperWorklist := h :: c.helperWorklist }

/-- Push the flat values of a source, each as a value of its flat type. -/
def pushFlat (stack : List (Nat × ValType)) (types : List ValType) : Emit Unit :=
  types.zipIdx.forM fun t => do
    let slot ← Prog.unwrap (slice stack t.2 (t.2 + 1)) (.bounds "slice")
    stackGet slot t.1

def popFlat (types flat : List ValType) : Emit Unit := do
  Prog.assert (flat.length = types.length) (.assert "flat.len() == tys.len()")
  let locals ← Prog.collect localSetNewTmp flat.reverse
  (types.zip locals.reverse).forM fun t => do
    instruction (.localGet t.2.idx)
    stackSet [t.1] t.2.ty
    freeTempLocal t.2

def Source.location : Source → HelperLocation
  | .stack _ _ => .stack
  | .memory _ => .memory

def Destination.location : Destination → HelperLocation
  | .stack _ _ => .stack
  | .memory _ => .memory

/-- Push what a helper is given of the source: its flat values or its address. -/
def pushSource (ty : InterfaceType) : Source → Emit Unit
  | .stack s opts => pushFlat s (opts.flatTypes ty)
  | .memory mem => pushMemAddr mem

def pushDestination : Destination → Emit Unit
  | .stack _ _ => pure ()
  | .memory mem => pushMemAddr mem

def popResults (ty : InterfaceType) : Destination → Emit Unit
  | .stack types opts => popFlat types (opts.flatTypes ty)
  | .memory _ => pure ()

def helperFor (ty : InterfaceType) (src : Source) (dstTy : InterfaceType) (dst : Destination) :
    Helper :=
  ⟨⟨ty, src.opts, src.location⟩, ⟨dstTy, dst.opts, dst.location⟩⟩

/-- The translation is deferred to a helper. -/
def outline (ty : InterfaceType) : Translator := fun src dstTy dst => do
  pushSource ty src
  pushDestination dst
  translateHelper (helperFor ty src dstTy dst)
  instruction (.call (.helper (helperFor ty src dstTy dst)))
  popResults dstTy dst

def assertSrcAligned (ty : InterfaceType) : Source → Emit Unit
  | .memory mem => assertAligned ty mem
  | .stack _ _ => pure ()

def assertDstAligned (ty : InterfaceType) : Destination → Emit Unit
  | .memory mem => assertAligned ty mem
  | .stack _ _ => pure ()

/-- The beginning of `translate`: the layer is translated here if there is fuel for it. -/
def metered (ty : InterfaceType) (inline : Translator) : Translator := fun src dstTy dst => do
  assertSrcAligned ty src
  assertDstAligned dstTy dst
  let c ← Prog.get
  if cost ty ≤ c.fuel then
    Prog.set { c with fuel := c.fuel - cost ty }
    inline src dstTy dst
  else outline ty src dstTy dst

mutual

def translate (translateString : Translator) : InterfaceType → Translator
  | .scalar s => metered (.scalar s) (translateScalar s)
  | .string => metered .string translateString
  | .handle h => metered (.handle h) (translateHandle h)
  | .list element =>
    metered (.list element) (translateList ⟨element, translate translateString element⟩)
  | .record fields =>
    metered (.record fields) (translateRecord (srcFields translateString fields))
  | .tuple types => metered (.tuple types) (translateTuple (srcTypes translateString types))
  | .variant cases => metered (.variant cases) (translateVariant (srcCases translateString cases))
  | .enum names => metered (.enum names) (translateEnum names)
  | .option ty => metered (.option ty) (translateOption ⟨ty, translate translateString ty⟩)
  | .result ok err => metered (.result ok err)
      (translateResult (srcPayload translateString ok) (srcPayload translateString err))
  | .flags names => metered (.flags names) (translateFlags names)

def srcPayload (translateString : Translator) : Option InterfaceType → Option SrcType
  | none => none
  | some ty => some ⟨ty, translate translateString ty⟩

def srcTypes (translateString : Translator) : List InterfaceType → List SrcType
  | [] => []
  | ty :: types => ⟨ty, translate translateString ty⟩ :: srcTypes translateString types

def srcFields (translateString : Translator) :
    List (String × InterfaceType) → List (String × SrcType)
  | [] => []
  | (name, ty) :: fields =>
    (name, ⟨ty, translate translateString ty⟩) :: srcFields translateString fields

def srcCases (translateString : Translator) :
    List (String × Option InterfaceType) → List (String × Option SrcType)
  | [] => []
  | (name, ty) :: cases => (name, srcPayload translateString ty) :: srcCases translateString cases

end

/-! ### Helper functions -/

def Compiler.new (build : Build) (debug : Bool) (nlocals : Nat)
    (helperFuncs helperWorklist : List Helper) : Compiler where
  build := build
  debug := debug
  code := []
  locals := []
  nlocals := nlocals
  freeLocals := fun _ => []
  fuel := initialFuel
  helperFuncs := helperFuncs
  helperWorklist := helperWorklist

end Wasmtime.Fact
