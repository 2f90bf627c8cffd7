import Wasmtime.Base.Prog

/-!
# Component interface types

`ComponentTypesBuilder` turns the types of a component into interned interface types. The
constructors of `CanonicalAbiInfo` count the core values as which a type is passed, and
`TypeInformation` lists them, for memories of 32 and of 64 bits, as far as `maxFlatTypes`.

The model of both and of the builder (`types.rs` and `types_builder.rs`). The eight tables of the
builder are one function of the `Kind` of type that they hold, with `addType` for the macro
`intern_and_fill_flat_types!`. Sizes are words of 32 bits that wrap. The assertion of
`as_flat_types` is the field `len_le` of the storage.
-/

namespace Wasmtime.Environ

open Base

def maxFlatParams : Nat := 16

def maxFlatResults : Nat := 1

def maxFlatTypes : Nat := if maxFlatParams > maxFlatResults then maxFlatParams else maxFlatResults

def maxTypeDepth : Nat := 100

/-! ### Sizes and counts -/

inductive FlagsSize where
  | size0
  | size1
  | size2
  | size4Plus (n : Nat)

/-- The number of words is a `u8`: there is a panic for more flags than these hold. -/
def FlagsSize.fromCount (count : Nat) : Option FlagsSize :=
  if count = 0 then some .size0
  else if count ≤ 8 then some .size1
  else if count ≤ 16 then some .size2
  else
    let amt := (count + 31) / 32
    if amt > 255 then none else some (.size4Plus amt)

inductive DiscriminantSize where
  | size1
  | size2
  | size4
deriving DecidableEq

def DiscriminantSize.fromCount (count : Nat) : Option DiscriminantSize :=
  if count ≤ 0xFF then some .size1
  else if count ≤ 0xFFFF then some .size2
  else if count ≤ 0xFFFFFFFF then some .size4
  else none

def DiscriminantSize.byteSize : DiscriminantSize → UInt32
  | .size1 => 1
  | .size2 => 2
  | .size4 => 4

structure CanonicalAbiInfo where
  size32 : UInt32
  align32 : UInt32
  size64 : UInt32
  align64 : UInt32
  /-- A `u8`, or nothing if the type is too large for the flat ABI. -/
  flatCount : Option Nat
deriving DecidableEq

/-- The assertion is that `b` is a power of two. -/
def alignTo (a b : UInt32) : Option UInt32 :=
  if b ≠ 0 ∧ b &&& (b - 1) = 0 then some ((a + (b - 1)) &&& ~~~(b - 1)) else none

def addFlat : Option Nat → Option Nat → Option Nat
  | some a, some b =>
    -- `checked_add` of two bytes, and then the limit.
    if a + b > 255 then none
    else if a + b > maxFlatTypes then none
    else some (a + b)
  | _, _ => none

def maxFlat : Option Nat → Option Nat → Option Nat
  | some a, some b => if a > b then some a else some b
  | _, _ => none

namespace CanonicalAbiInfo

def zero : CanonicalAbiInfo := ⟨0, 1, 0, 1, some 0⟩

def scalar (size : UInt32) : CanonicalAbiInfo := ⟨size, size, size, size, some 1⟩

def pointerPair : CanonicalAbiInfo := ⟨8, 4, 16, 8, some 2⟩

/-- One round of the loop of `record`. -/
def addField (ret field : CanonicalAbiInfo) : Option CanonicalAbiInfo := do
  let offset32 ← alignTo ret.size32 field.align32
  let offset64 ← alignTo ret.size64 field.align64
  pure {
    size32 := offset32 + field.size32
    align32 := max ret.align32 field.align32
    size64 := offset64 + field.size64
    align64 := max ret.align64 field.align64
    flatCount := addFlat ret.flatCount field.flatCount }

def record (fields : List CanonicalAbiInfo) : Option CanonicalAbiInfo := do
  let ret ← fields.foldlM addField zero
  let size32 ← alignTo ret.size32 ret.align32
  let size64 ← alignTo ret.size64 ret.align64
  pure { ret with size32, size64 }

def flags (count : Nat) : Option CanonicalAbiInfo := do
  let (size, align, flatCount) : UInt32 × UInt32 × Nat := match ← FlagsSize.fromCount count with
    | .size0 => (0, 1, 0)
    | .size1 => (1, 1, 1)
    | .size2 => (2, 2, 1)
    | .size4Plus n => (UInt32.ofNat n * 4, 4, n)
  pure ⟨size, align, size, align, some flatCount⟩

/-- One round of the loop of `variant`, over the five maxima. -/
def addCase (maxima : CanonicalAbiInfo) : Option CanonicalAbiInfo → CanonicalAbiInfo
  | some case => {
      size32 := max maxima.size32 case.size32
      align32 := max maxima.align32 case.align32
      size64 := max maxima.size64 case.size64
      align64 := max maxima.align64 case.align64
      flatCount := maxFlat maxima.flatCount case.flatCount }
  | none => maxima

def variant (cases : List (Option CanonicalAbiInfo)) : Option CanonicalAbiInfo := do
  let discrimSize := (← DiscriminantSize.fromCount cases.length).byteSize
  let maxima := cases.foldl addCase ⟨0, discrimSize, 0, discrimSize, some 0⟩
  let payload32 ← alignTo discrimSize maxima.align32
  let size32 ← alignTo (payload32 + maxima.size32) maxima.align32
  let payload64 ← alignTo discrimSize maxima.align64
  let size64 ← alignTo (payload64 + maxima.size64) maxima.align64
  pure {
    size32
    align32 := maxima.align32
    size64
    align64 := maxima.align64
    flatCount := addFlat maxima.flatCount (some 1) }

end CanonicalAbiInfo

structure VariantInfo where
  size : DiscriminantSize
  payloadOffset32 : UInt32
  payloadOffset64 : UInt32
deriving DecidableEq

def VariantInfo.new (cases : List (Option CanonicalAbiInfo)) :
    Option (VariantInfo × CanonicalAbiInfo) := do
  let size ← DiscriminantSize.fromCount cases.length
  let abi ← CanonicalAbiInfo.variant cases
  let payloadOffset32 ← alignTo size.byteSize abi.align32
  let payloadOffset64 ← alignTo size.byteSize abi.align64
  pure (⟨size, payloadOffset32, payloadOffset64⟩, abi)

/-! ### Flat types -/

inductive FlatType where
  | i32
  | i64
  | f32
  | f64
deriving DecidableEq

def FlatType.join (self other : FlatType) : FlatType :=
  if self = other then self
  else match self, other with
    | .i32, .f32 | .f32, .i32 => .i32
    | _, _ => .i64

structure FlatTypes where
  memory32 : List FlatType
  memory64 : List FlatType

structure FlatTypesStorage where
  memory32 : Vector FlatType maxFlatTypes
  memory64 : Vector FlatType maxFlatTypes
  /-- One more than the limit for a type that has no flat representation. -/
  len : Nat
  len_le : len ≤ maxFlatTypes + 1

namespace FlatTypesStorage

def new : FlatTypesStorage where
  memory32 := Vector.replicate maxFlatTypes .i32
  memory64 := Vector.replicate maxFlatTypes .i32
  len := 0
  len_le := Nat.zero_le _

def asFlatTypes (self : FlatTypesStorage) : Option FlatTypes :=
  if self.len > maxFlatTypes then none
  else some ⟨self.memory32.toList.take self.len, self.memory64.toList.take self.len⟩

def unrepresentable (self : FlatTypesStorage) : FlatTypesStorage :=
  { self with len := maxFlatTypes + 1, len_le := Nat.le_refl _ }

def push (self : FlatTypesStorage) (t32 t64 : FlatType) : FlatTypesStorage × Bool :=
  if h : self.len < maxFlatTypes then
    ({ memory32 := self.memory32.set self.len t32 h
       memory64 := self.memory64.set self.len t64 h
       len := self.len + 1
       len_le := by omega }, true)
  else if h : self.len = maxFlatTypes then
    ({ self with len := self.len + 1, len_le := by omega }, false)
  else (self, false)

/-- The inner loop of `build_record`, which stops at the first type that does not fit. -/
def pushAll (self : FlatTypesStorage) : List (FlatType × FlatType) → FlatTypesStorage
  | [] => self
  | (t32, t64) :: types =>
    match self.push t32 t64 with
    | (self, true) => self.pushAll types
    | (self, false) => self

/-- The inner loop of `build_variant`, at index `i` of the types of the case. The first entry
of the storage is the discriminant. -/
def joinAll (self : FlatTypesStorage) (i : Nat) :
    List (FlatType × FlatType) → FlatTypesStorage
  | [] => self
  | (t32, t64) :: types =>
    if hi : i + 1 < maxFlatTypes then
      let dst32 := self.memory32.get ⟨i + 1, hi⟩
      let dst64 := self.memory64.get ⟨i + 1, hi⟩
      let next : FlatTypesStorage :=
        if h : i + 1 < self.len then
          { self with
            memory32 := self.memory32.set (i + 1) (dst32.join t32) hi
            memory64 := self.memory64.set (i + 1) (dst64.join t64) hi }
        else
          { memory32 := self.memory32.set (i + 1) t32 hi
            memory64 := self.memory64.set (i + 1) t64 hi
            len := self.len + 1
            len_le := by omega }
      next.joinAll (i + 1) types
    else self

end FlatTypesStorage

structure TypeInformation where
  depth : Nat
  flat : FlatTypesStorage
  hasBorrow : Bool

namespace TypeInformation

def new : TypeInformation := ⟨0, .new, false⟩

def primitive (flat : FlatType) : TypeInformation :=
  { new with depth := 1, flat := (FlatTypesStorage.new.push flat flat).1 }

def string : TypeInformation :=
  { new with
    depth := 1
    flat := ((FlatTypesStorage.new.push .i32 .i64).1.push .i32 .i64).1 }

def addField (self info : TypeInformation) : TypeInformation where
  depth := max self.depth (1 + info.depth)
  hasBorrow := self.hasBorrow || info.hasBorrow
  flat := match info.flat.asFlatTypes with
    | some types => self.flat.pushAll (types.memory32.zip types.memory64)
    | none => self.flat.unrepresentable

def buildRecord (self : TypeInformation) (types : List TypeInformation) : TypeInformation :=
  types.foldl addField { self with depth := 1 }

/-- The flat types of a variant with one more case. -/
def joinCase (flat info : FlatTypesStorage) : FlatTypesStorage :=
  if flat.len > maxFlatTypes then flat
  else match info.asFlatTypes with
    | none => flat.unrepresentable
    | some types =>
      if types.memory32.length ≥ maxFlatTypes then flat.unrepresentable
      else flat.joinAll 0 (types.memory32.zip types.memory64)

def addCase (self : TypeInformation) : Option TypeInformation → TypeInformation
  | none => self
  | some info => {
      depth := max self.depth (1 + info.depth)
      hasBorrow := self.hasBorrow || info.hasBorrow
      flat := joinCase self.flat info.flat }

def buildVariant (self : TypeInformation) (cases : List (Option TypeInformation)) :
    TypeInformation :=
  cases.foldl addCase { self with flat := (self.flat.push .i32 .i32).1, depth := 1 }

end TypeInformation

/-! ### The tables of the builder -/

/-- The kinds of types that are interned together with their flat types. -/
inductive Kind where
  | record
  | variant
  | list
  | tuple
  | flags
  | enum
  | option
  | result
deriving DecidableEq

/-- The indices of the eight kinds are one constructor. -/
inductive InterfaceType where
  | bool | s8 | u8 | s16 | u16 | s32 | u32 | s64 | u64 | float32 | float64 | char | string
  | defined (kind : Kind) (index : Nat)
  | own (table : Nat)
  | borrow (table : Nat)
  | future (table : Nat)
  | stream (table : Nat)
  | errorContext (table : Nat)
deriving DecidableEq

structure RecordField where
  name : String
  ty : InterfaceType
deriving DecidableEq

structure TypeRecord where
  fields : List RecordField
  abi : CanonicalAbiInfo
deriving DecidableEq

structure TypeVariant where
  cases : List (String × Option InterfaceType)
  abi : CanonicalAbiInfo
  info : VariantInfo
deriving DecidableEq

structure TypeTuple where
  types : List InterfaceType
  abi : CanonicalAbiInfo
deriving DecidableEq

structure TypeFlags where
  names : List String
  abi : CanonicalAbiInfo
deriving DecidableEq

structure TypeEnum where
  names : List String
  abi : CanonicalAbiInfo
  info : VariantInfo
deriving DecidableEq

structure TypeOption where
  ty : InterfaceType
  abi : CanonicalAbiInfo
  info : VariantInfo
deriving DecidableEq

structure TypeResult where
  ok : Option InterfaceType
  err : Option InterfaceType
  abi : CanonicalAbiInfo
  info : VariantInfo
deriving DecidableEq

structure TypeList where
  element : InterfaceType
deriving DecidableEq

def Kind.Shape : Kind → Type
  | .record => TypeRecord
  | .variant => TypeVariant
  | .list => TypeList
  | .tuple => TypeTuple
  | .flags => TypeFlags
  | .enum => TypeEnum
  | .option => TypeOption
  | .result => TypeResult

instance Kind.decEqShape : (kind : Kind) → DecidableEq kind.Shape
  | .record => inferInstanceAs (DecidableEq TypeRecord)
  | .variant => inferInstanceAs (DecidableEq TypeVariant)
  | .list => inferInstanceAs (DecidableEq TypeList)
  | .tuple => inferInstanceAs (DecidableEq TypeTuple)
  | .flags => inferInstanceAs (DecidableEq TypeFlags)
  | .enum => inferInstanceAs (DecidableEq TypeEnum)
  | .option => inferInstanceAs (DecidableEq TypeOption)
  | .result => inferInstanceAs (DecidableEq TypeResult)

def Kind.abi : (kind : Kind) → kind.Shape → CanonicalAbiInfo
  | .record => TypeRecord.abi
  | .variant => TypeVariant.abi
  | .list => fun _ => .pointerPair
  | .tuple => TypeTuple.abi
  | .flags => TypeFlags.abi
  | .enum => TypeEnum.abi
  | .option => TypeOption.abi
  | .result => TypeResult.abi

structure Table (T : Type) where
  types : List T
  infos : List TypeInformation

structure Builder where
  tables : (kind : Kind) → Table kind.Shape
  futures : List (Option InterfaceType)
  streams : List (Option InterfaceType)
  futureTables : List (Nat × Nat)
  streamTables : List (Nat × Nat)
  errorContextTables : List Nat
  currentInstance : Option Nat

namespace Builder

def new : Builder where
  tables := fun _ => ⟨[], []⟩
  futures := []
  streams := []
  futureTables := []
  streamTables := []
  errorContextTables := []
  currentInstance := none

def canonicalAbi (self : Builder) : InterfaceType → Option CanonicalAbiInfo
  | .u8 | .s8 | .bool => some (.scalar 1)
  | .u16 | .s16 => some (.scalar 2)
  | .u32 | .s32 | .float32 | .char | .own _ | .borrow _ | .future _ | .stream _
  | .errorContext _ => some (.scalar 4)
  | .u64 | .s64 | .float64 => some (.scalar 8)
  | .string => some .pointerPair
  | .defined kind i => (self.tables kind).types[i]?.map kind.abi

def typeInformation (self : Builder) : InterfaceType → Option TypeInformation
  | .u8 | .s8 | .bool | .u16 | .s16 | .u32 | .s32 | .char | .own _ | .future _ | .stream _
  | .errorContext _ => some (.primitive .i32)
  | .borrow _ => some { TypeInformation.primitive .i32 with hasBorrow := true }
  | .u64 | .s64 => some (.primitive .i64)
  | .float32 => some (.primitive .f32)
  | .float64 => some (.primitive .f64)
  | .string => some .string
  | .defined kind i => (self.tables kind).infos[i]?

def flatTypes (self : Builder) (ty : InterfaceType) : Option (Option FlatTypes) :=
  (self.typeInformation ty).map fun info => info.flat.asFlatTypes

end Builder

namespace TypeInformation

def records (self : TypeInformation) (types : Builder) (ty : TypeRecord) :
    Option TypeInformation := do
  let infos ← ty.fields.mapM fun f => types.typeInformation f.ty
  pure (self.buildRecord infos)

def tuples (self : TypeInformation) (types : Builder) (ty : TypeTuple) :
    Option TypeInformation := do
  let infos ← ty.types.mapM types.typeInformation
  pure (self.buildRecord infos)

def enums (self : TypeInformation) (_types : Builder) (_ty : TypeEnum) : TypeInformation :=
  { self with depth := 1, flat := (self.flat.push .i32 .i32).1 }

def flags (self : TypeInformation) (_types : Builder) (ty : TypeFlags) :
    Option TypeInformation := do
  let flat := match ← FlagsSize.fromCount ty.names.length with
    | .size0 => self.flat
    | .size1 | .size2 => (self.flat.push .i32 .i32).1
    -- The loop pushes on without looking at the result.
    | .size4Plus n => (fun flat => (FlatTypesStorage.push flat .i32 .i32).1)^[n] self.flat
  pure { self with depth := 1, flat }

def payload (types : Builder) : Option InterfaceType → Option (Option TypeInformation)
  | some ty => (types.typeInformation ty).map some
  | none => some none

def variants (self : TypeInformation) (types : Builder) (ty : TypeVariant) :
    Option TypeInformation := do
  let cases ← ty.cases.mapM fun case => payload types case.2
  pure (self.buildVariant cases)

def results (self : TypeInformation) (types : Builder) (ty : TypeResult) :
    Option TypeInformation := do
  let cases ← [ty.ok, ty.err].mapM (payload types)
  pure (self.buildVariant cases)

def options (self : TypeInformation) (types : Builder) (ty : TypeOption) :
    Option TypeInformation := do
  let cases ← [none, some ty.ty].mapM (payload types)
  pure (self.buildVariant cases)

def lists (types : Builder) (ty : TypeList) : Option TypeInformation := do
  let info ← types.typeInformation ty.element
  pure { string with depth := string.depth + info.depth, hasBorrow := info.hasBorrow }

/-- What `intern_and_fill_flat_types!` calls for a kind of type. -/
def fill (types : Builder) : (kind : Kind) → kind.Shape → Option TypeInformation
  | .record => new.records types
  | .variant => new.variants types
  | .list => lists types
  | .tuple => new.tuples types
  | .flags => new.flags types
  | .enum => fun ty => some (new.enums types ty)
  | .option => new.options types
  | .result => new.results types

end TypeInformation

/-! ### Conversion -/

/-- The types of a component, as the validator has them. -/
inductive PrimitiveValType where
  | bool | s8 | u8 | s16 | u16 | s32 | u32 | s64 | u64 | f32 | f64 | char | string | errorContext

inductive ValType where
  | primitive (ty : PrimitiveValType)
  | record (fields : List (String × ValType))
  | variant (cases : List (String × Option String × Option ValType))
  | list (element : ValType)
  | tuple (types : List ValType)
  | flags (names : List String)
  | enum (names : List String)
  | option (ty : ValType)
  | result (ok err : Option ValType)
  | own (resource : Nat)
  | borrow (resource : Nat)
  | future (payload : Option ValType)
  | stream (payload : Option ValType)
  | fixedSizeList (element : ValType) (length : Nat)

namespace Builder

abbrev Conv := Prog Builder String

/-- The macro `intern_and_fill_flat_types!`. A type that is in its table is found by its hash
map, which holds the whole of the table. -/
def addType (kind : Kind) (val : kind.Shape) : Conv Nat := do
  let me ← Prog.get
  let table := me.tables kind
  match table.types.idxOf? val with
  | some idx => pure idx
  | none =>
    let idx := table.types.length
    let info ← Prog.unwrap (TypeInformation.fill me kind val) (.bounds "type_info")
    let idx2 := table.infos.length
    Prog.assert (idx == idx2) (.assert "idx")
    Prog.set { me with
      tables := Function.update me.tables kind ⟨table.types ++ [val], table.infos ++ [info]⟩ }
    pure idx

/-- `intern`, over a list that holds the types of a table. -/
def intern {T : Type} [DecidableEq T] (list : List T) (item : T) : List T × Nat :=
  match list.idxOf? item with
  | some idx => (list, idx)
  | none => (list ++ [item], list.length)

def abiOf (ty : InterfaceType) : Conv CanonicalAbiInfo := do
  let self ← Prog.get
  Prog.unwrap (self.canonicalAbi ty) (.bounds "component_types")

def abisOf : List InterfaceType → Conv (List CanonicalAbiInfo)
  | [] => pure []
  | ty :: types => do
    let abi ← abiOf ty
    let abis ← abisOf types
    pure (abi :: abis)

def payloadAbisOf : List (Option InterfaceType) → Conv (List (Option CanonicalAbiInfo))
  | [] => pure []
  | none :: types => do
    let abis ← payloadAbisOf types
    pure (none :: abis)
  | some ty :: types => do
    let abi ← abiOf ty
    let abis ← payloadAbisOf types
    pure (some abi :: abis)

def newTupleType (types : List InterfaceType) : Conv Nat := do
  let abi ← Prog.unwrap (CanonicalAbiInfo.record (← abisOf types)) (.assert "align_to")
  addType .tuple ⟨types, abi⟩

def recordType (fields : List RecordField) : Conv Nat := do
  let abis ← abisOf (fields.map RecordField.ty)
  let abi ← Prog.unwrap (CanonicalAbiInfo.record abis) (.assert "align_to")
  addType .record ⟨fields, abi⟩

def variantInfo (payloads : List (Option InterfaceType)) :
    Conv (VariantInfo × CanonicalAbiInfo) := do
  let abis ← payloadAbisOf payloads
  Prog.unwrap (VariantInfo.new abis) (.unwrap "DiscriminantSize")

def variantType (cases : List (String × Option InterfaceType)) : Conv Nat := do
  let (info, abi) ← variantInfo (cases.map Prod.snd)
  addType .variant ⟨cases, abi, info⟩

def flagsType (names : List String) : Conv Nat := do
  let abi ← Prog.unwrap (CanonicalAbiInfo.flags names.length) (.assert "too many flags")
  addType .flags ⟨names, abi⟩

def enumType (names : List String) : Conv Nat := do
  let (info, abi) ← variantInfo (names.map fun _ => none)
  addType .enum ⟨names, abi, info⟩

def optionType (ty : InterfaceType) : Conv Nat := do
  let (info, abi) ← variantInfo [none, some ty]
  addType .option ⟨ty, abi, info⟩

def resultType (ok err : Option InterfaceType) : Conv Nat := do
  let (info, abi) ← variantInfo [ok, err]
  addType .result ⟨ok, err, abi, info⟩

def getCurrentInstance : Conv Nat := do
  let self ← Prog.get
  Prog.unwrap self.currentInstance (.unwrap "get_current_instance")

def futureTableType (payload : Option InterfaceType) : Conv Nat := do
  let self ← Prog.get
  let (futures, ty) := intern self.futures payload
  Prog.set { self with futures }
  let self ← Prog.get
  let (futureTables, index) := intern self.futureTables (ty, ← getCurrentInstance)
  Prog.set { self with futureTables }
  pure index

def streamTableType (payload : Option InterfaceType) : Conv Nat := do
  let self ← Prog.get
  let (streams, ty) := intern self.streams payload
  Prog.set { self with streams }
  let self ← Prog.get
  let (streamTables, index) := intern self.streamTables (ty, ← getCurrentInstance)
  Prog.set { self with streamTables }
  pure index

def errorContextTableType : Conv Nat := do
  let self ← Prog.get
  let (errorContextTables, index) := intern self.errorContextTables (← getCurrentInstance)
  Prog.set { self with errorContextTables }
  pure index

def primitiveType : PrimitiveValType → Conv InterfaceType
  | .bool => pure .bool
  | .s8 => pure .s8
  | .u8 => pure .u8
  | .s16 => pure .s16
  | .u16 => pure .u16
  | .s32 => pure .s32
  | .u32 => pure .u32
  | .s64 => pure .s64
  | .u64 => pure .u64
  | .f32 => pure .float32
  | .f64 => pure .float64
  | .char => pure .char
  | .string => pure .string
  | .errorContext => do pure (.errorContext (← errorContextTableType))

/-- The end of `defined_type`. -/
def checkDepth (ret : InterfaceType) : Conv InterfaceType := do
  let self ← Prog.get
  let info ← Prog.unwrap (self.typeInformation ret) (.bounds "type_info")
  if info.depth > maxTypeDepth then Prog.err "type nesting is too deep" else pure ret

mutual

/-- The functions `valtype` and `defined_type`. A resource is given by its table. -/
def valtype : ValType → Conv InterfaceType
  | .primitive ty => primitiveType ty
  | .record fields => do
    let fields ← fieldTypes fields
    checkDepth (.defined .record (← recordType fields))
  | .variant cases => do
    let cases ← caseTypes cases
    checkDepth (.defined .variant (← variantType cases))
  | .list element => do
    let element ← valtype element
    checkDepth (.defined .list (← addType .list ⟨element⟩))
  | .tuple types => do
    let types ← valtypes types
    checkDepth (.defined .tuple (← newTupleType types))
  | .flags names => do checkDepth (.defined .flags (← flagsType names))
  | .enum names => do checkDepth (.defined .enum (← enumType names))
  | .option ty => do
    let ty ← valtype ty
    checkDepth (.defined .option (← optionType ty))
  | .result ok err => do
    let ok ← payloadType ok
    let err ← payloadType err
    checkDepth (.defined .result (← resultType ok err))
  | .own resource => checkDepth (.own resource)
  | .borrow resource => checkDepth (.borrow resource)
  | .future payload => do
    let payload ← payloadType payload
    checkDepth (.future (← futureTableType payload))
  | .stream payload => do
    let payload ← payloadType payload
    checkDepth (.stream (← streamTableType payload))
  | .fixedSizeList _ _ => Prog.err "support not implemented for fixed-size-lists"

def payloadType : Option ValType → Conv (Option InterfaceType)
  | none => pure none
  | some ty => do pure (some (← valtype ty))

def valtypes : List ValType → Conv (List InterfaceType)
  | [] => pure []
  | ty :: types => do
    let ty ← valtype ty
    let types ← valtypes types
    pure (ty :: types)

def fieldTypes : List (String × ValType) → Conv (List RecordField)
  | [] => pure []
  | (name, ty) :: fields => do
    let ty ← valtype ty
    let fields ← fieldTypes fields
    pure (⟨name, ty⟩ :: fields)

def caseTypes :
    List (String × Option String × Option ValType) → Conv (List (String × Option InterfaceType))
  | [] => pure []
  | (name, refines, ty) :: cases => do
    if refines.isSome then Prog.err "refines is not supported at this time"
    let ty ← payloadType ty
    let cases ← caseTypes cases
    pure ((name, ty) :: cases)

end

def tupleOf (types : List ValType) : Conv InterfaceType := do
  pure (.defined .tuple (← newTupleType (← valtypes types)))

end Builder

end Wasmtime.Environ
