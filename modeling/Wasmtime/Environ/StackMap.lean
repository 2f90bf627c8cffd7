import Wasmtime.Base.BinarySearch
import Wasmtime.Base.LittleEndian
import Wasmtime.Cranelift.BitSet

/-!
# Stack maps

`environ/compile/stack_maps.rs` writes the stack maps of compiled code into a section of the object
file, and `environ/stack_map.rs` reads them. The section consists of words of four bytes: a count,
the code offsets, the positions of their records in the data, and the data. A record is the size of
the frame, a count of words, and a bit set of the offsets in the frame, divided by four.
-/

namespace Wasmtime.Environ

open Base Cranelift

/-! ### Writing -/

structure StackMapSection where
  pcs : List U32Bytes
  pointersToStackMap : List U32Bytes
  stackMapData : List U32Bytes
  lastOffset : Nat

namespace StackMapSection

def empty : StackMapSection := ⟨[], [], [], 0⟩

/-- The loop of `push` over the offsets. -/
def insertOffsets : List Nat → CompoundBitSet 32 → Prog StackMapSection Empty (CompoundBitSet 32)
  | [], bits => pure bits
  | offset :: offsets, bits => do
    Prog.assert (decide (offset % 4 = 0)) (.assert "offset % 4 == 0")
    let bits ← bits.insert (offset / 4)
    insertOffsets offsets bits

/-- The end of `push`: the record of a map. -/
def pushRecord (frameSize : Nat) (frameOffsets : List Nat) : Prog StackMapSection Empty Unit := do
  Prog.modify fun s => { s with stackMapData := s.stackMapData ++ [.new frameSize] }
  let bits ← insertOffsets frameOffsets .empty
  let count := bits.iterScalars.length
  Prog.modify fun s => { s with stackMapData := s.stackMapData ++ [.new count] }
  Prog.modify fun s => { s with
    stackMapData := s.stackMapData ++ bits.iterScalars.map fun w => .new w.toNat }

/-- The part of `push` for a map that is not empty. -/
def pushMap (codeOffset frameSize : Nat) (frameOffsets : List Nat) :
    Prog StackMapSection Empty Unit := do
  Prog.modify fun s => { s with pcs := s.pcs ++ [.new codeOffset] }
  let s ← Prog.get
  Prog.assert (decide (s.stackMapData.length < u32Size))
    (.unwrap "u32::try_from(self.stack_map_data.len())")
  Prog.modify fun s => { s with
    pointersToStackMap := s.pointersToStackMap ++ [.new s.stackMapData.length] }
  pushRecord frameSize frameOffsets

def push (codeOffset frameSize : Nat) (frameOffsets : List Nat) :
    Prog StackMapSection Empty Unit := do
  Prog.assert (decide (codeOffset < u32Size)) (.unwrap "u32::try_from(code_offset)")
  let s ← Prog.get
  Prog.assert (decide (s.lastOffset ≤ codeOffset)) (.assert "code_offset >= self.last_offset")
  Prog.modify fun s => { s with lastOffset := codeOffset }
  if frameOffsets.length = 0 then
    pure ()
  else
    pushMap codeOffset frameSize frameOffsets

def appendTo (s : StackMapSection) : Prog StackMapSection Empty (Option (List UInt8)) :=
  if s.pcs.isEmpty then
    pure none
  else do
    Prog.assert (decide (s.pcs.length < u32Size)) (.unwrap "u32::try_from(self.pcs.len())")
    pure <| some <| bytesOfSlice [.new s.pcs.length] ++ (bytesOfSlice s.pcs ++
      (bytesOfSlice s.pointersToStackMap ++ bytesOfSlice s.stackMapData))

end StackMapSection

structure PushedMap where
  codeOffset : Nat
  frameSize : Nat
  frameOffsets : List Nat

def pushAll : List PushedMap → Prog StackMapSection Empty Unit
  | [] => pure ()
  | map :: maps => do
    StackMapSection.push map.codeOffset map.frameSize map.frameOffsets
    pushAll maps

def writeSection (maps : List PushedMap) : Prog StackMapSection Empty (Option (List UInt8)) := do
  pushAll maps
  let s ← Prog.get
  s.appendTo

/-! ### Reading -/

structure StackMap where
  frameSize : Nat
  data : List U32Bytes

/-- A section that has been taken apart: `StackMapSection` of `stack_map.rs`. -/
structure ParsedSection where
  pcs : List U32Bytes
  pointersToStackMap : List U32Bytes
  stackMapData : List U32Bytes

def recordAt (data : List U32Bytes) (pointer : Nat) : Option StackMap :=
  if pointer ≤ data.length then
    match data.drop pointer with
    | frameSize :: count :: rest =>
      if count.get ≤ rest.length then some ⟨frameSize.get, rest.take count.get⟩ else none
    | _ => none
  else none

namespace ParsedSection

variable {σ : Type}

def parse (bytes : List UInt8) : Option ParsedSection :=
  match sliceFromBytes 1 bytes with
  | some ([pcCount], bytes) =>
    (sliceFromBytes pcCount.get bytes).bind fun (pcs, bytes) =>
      (sliceFromBytes pcCount.get bytes).bind fun (pointersToStackMap, bytes) =>
        (sliceFromAllBytes bytes).map fun stackMapData =>
          ⟨pcs, pointersToStackMap, stackMapData⟩
  | _ => none

def get (s : ParsedSection) (i : Nat) : Prog σ Empty (Option StackMap) := do
  let pointer ← Prog.unwrap s.pointersToStackMap[i]? (.bounds "self.pointers_to_stack_map[i]")
  pure (recordAt s.stackMapData pointer.get)

def lookup (s : ParsedSection) (pc : Nat) : Prog σ Empty (Option StackMap) :=
  match binarySearch (s.pcs.map U32Bytes.get) pc with
  | some pcIndex => s.get pcIndex
  | none => pure none

def iterFrom (s : ParsedSection) : Nat → List U32Bytes → Prog σ Empty (List (Nat × StackMap))
  | _, [] => pure []
  | i, pc :: pcs => do
    let map ← s.get i
    let map ← Prog.unwrap map (.unwrap "self.get(i)")
    let maps ← iterFrom s (i + 1) pcs
    pure ((pc.get, map) :: maps)

end ParsedSection

namespace StackMap

variable {σ : Type}

def lookup (pc : Nat) (bytes : List UInt8) : Prog σ Empty (Option StackMap) :=
  match ParsedSection.parse bytes with
  | some s => s.lookup pc
  | none => pure none

def iter (bytes : List UInt8) : Prog σ Empty (Option (List (Nat × StackMap))) :=
  match ParsedSection.parse bytes with
  | some s => do
    let maps ← s.iterFrom 0 s.pcs
    pure (some maps)
  | none => pure none

def wordOffsets (build : Build) (i : Nat) : List Nat → Prog σ Empty (List Nat)
  | [] => pure []
  | bit :: bits => do
    let first ← mulU32 build (i % u32Size) 32
    let pos ← addU32 build first bit
    let offset ← mulU32 build pos 4
    let offsets ← wordOffsets build i bits
    pure (offset :: offsets)

def scalarBits (word : U32Bytes) : List Nat := bits (BitVec.ofNat 32 word.get)

/-- The offsets of the words from word `i` on, each given by its bits. -/
def offsetsFrom (build : Build) : Nat → List (List Nat) → Prog σ Empty (List Nat)
  | _, [] => pure []
  | i, bits :: words => do
    let here ← wordOffsets build i bits
    let rest ← offsetsFrom build (i + 1) words
    pure (here ++ rest)

def offsets (build : Build) (map : StackMap) : Prog σ Empty (List Nat) :=
  offsetsFrom build 0 (map.data.map scalarBits)

end StackMap

end Wasmtime.Environ
