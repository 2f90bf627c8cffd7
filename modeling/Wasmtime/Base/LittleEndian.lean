import Wasmtime.Base.Word

/-!
# Little-endian words in byte strings

Words of four bytes and the slices of them that are read from a byte string, which stand for the
functions of the `object` crate on `U32Bytes<LittleEndian>`, with their laws: what has been written
is read again, and nothing more is consumed.
-/

namespace Base

open List

structure U32Bytes where
  b0 : UInt8
  b1 : UInt8
  b2 : UInt8
  b3 : UInt8

namespace U32Bytes

def new (value : Nat) : U32Bytes where
  b0 := UInt8.ofNat value
  b1 := UInt8.ofNat (value / 2 ^ 8)
  b2 := UInt8.ofNat (value / 2 ^ 16)
  b3 := UInt8.ofNat (value / 2 ^ 24)

def get (w : U32Bytes) : Nat :=
  w.b0.toNat + w.b1.toNat * 2 ^ 8 + w.b2.toNat * 2 ^ 16 + w.b3.toNat * 2 ^ 24

def toBytes (w : U32Bytes) : List UInt8 := [w.b0, w.b1, w.b2, w.b3]

theorem get_lt (w : U32Bytes) : w.get < u32Size := by
  have h0 := w.b0.toNat_lt
  have h1 := w.b1.toNat_lt
  have h2 := w.b2.toNat_lt
  have h3 := w.b3.toNat_lt
  unfold get u32Size
  omega

theorem new_get (w : U32Bytes) : new w.get = w := by
  have h0 := w.b0.toNat_lt
  have h1 := w.b1.toNat_lt
  have h2 := w.b2.toNat_lt
  have h3 := w.b3.toNat_lt
  obtain ⟨b0, b1, b2, b3⟩ := w
  dsimp only at h0 h1 h2 h3
  unfold new get
  congr 1 <;> apply UInt8.toNat_inj.1 <;> simp only [UInt8.toNat_ofNat'] <;> omega

theorem get_new {n : Nat} (h : n < u32Size) : (new n).get = n := by
  unfold u32Size at h
  unfold get new
  simp only [UInt8.toNat_ofNat']
  omega

end U32Bytes

def bytesOfSlice (ws : List U32Bytes) : List UInt8 := ws.flatMap U32Bytes.toBytes

def sliceFromBytes : Nat → List UInt8 → Option (List U32Bytes × List UInt8)
  | 0, bytes => some ([], bytes)
  | count + 1, b0 :: b1 :: b2 :: b3 :: bytes =>
    (sliceFromBytes count bytes).map fun (ws, rest) => (⟨b0, b1, b2, b3⟩ :: ws, rest)
  | _ + 1, _ => none

def sliceFromAllBytes (bytes : List UInt8) : Option (List U32Bytes) :=
  match sliceFromBytes (bytes.length / 4) bytes with
  | some (ws, []) => some ws
  | _ => none

theorem length_bytesOfSlice (ws : List U32Bytes) : (bytesOfSlice ws).length = 4 * ws.length := by
  induction ws with
  | nil => rfl
  | cons w ws ih =>
    unfold bytesOfSlice at ih ⊢
    rw [flatMap_cons, length_append, ih, length_cons]
    change 4 + _ = _
    omega

theorem sliceFromBytes_append (ws : List U32Bytes) (rest : List UInt8) :
    sliceFromBytes ws.length (bytesOfSlice ws ++ rest) = some (ws, rest) := by
  induction ws with
  | nil => rfl
  | cons w ws ih =>
    have hcons : bytesOfSlice (w :: ws) ++ rest =
        w.b0 :: w.b1 :: w.b2 :: w.b3 :: (bytesOfSlice ws ++ rest) := rfl
    rw [hcons, length_cons, sliceFromBytes, ih]
    rfl

/-- A slice of words is read exactly from the bytes of that many words. -/
theorem sliceFromBytes_eq_some {count : Nat} {bytes rest : List UInt8} {ws : List U32Bytes} :
    sliceFromBytes count bytes = some (ws, rest) ↔
      ws.length = count ∧ bytes = bytesOfSlice ws ++ rest := by
  constructor
  · intro h
    induction count generalizing bytes ws with
    | zero =>
      cases h
      exact ⟨rfl, rfl⟩
    | succ count ih =>
      match bytes, h with
      | b0 :: b1 :: b2 :: b3 :: bytes, h =>
        simp only [sliceFromBytes, Option.map_eq_some_iff, Prod.exists, Prod.mk.injEq] at h
        obtain ⟨ws', rest', hws, rfl, rfl⟩ := h
        obtain ⟨hlen, rfl⟩ := ih hws
        exact ⟨by rw [length_cons, hlen], rfl⟩
  · rintro ⟨rfl, rfl⟩
    exact sliceFromBytes_append ws rest

theorem sliceFromAllBytes_bytesOfSlice (ws : List U32Bytes) :
    sliceFromAllBytes (bytesOfSlice ws) = some ws := by
  have h := sliceFromBytes_append ws []
  rw [append_nil] at h
  unfold sliceFromAllBytes
  rw [length_bytesOfSlice, Nat.mul_div_cancel_left _ (by norm_num), h]

end Base
