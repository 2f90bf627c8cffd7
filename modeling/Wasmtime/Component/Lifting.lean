import Wasmtime.Component.Values
import Wasmtime.Base.Agree

/-!
# Lifting and the panics of the host

Whatever the guest supplies, lifting a value ends with a value or an error, but for two things:
`push_flags` takes the name of every bit that is set, and bits beyond those of the type have none;
and the tables that an index is looked up in have panics of their own. `lift cx cx.canon` and
`load cx cx.canon` skip these bits, as the canonical ABI asks, and fail where a table panics;
`LiftKnown` and `LoadKnown` say that lifting meets neither.

* `pushFlags_unless`: one word of flags.
* `load_unless`, `lift_unless`: **lifting panics exactly if it meets an unknown flag or a handle
  whose table panics**, and otherwise gives what the canonical ABI asks for.
-/

namespace Wasmtime.Component

open Nat hiding bits
open Base Prog List InterfaceType Slice

variable {σ ρ : Type}

/-! ### One word of flags -/

/-- The names of the bits of a word that have one, the word's first bit being `offset`. -/
def knownFlags (names : List String) (offset : Nat) (bits : UInt32) : List String :=
  (((names.drop offset).take 32).zipIdx.filter fun n => bits.toNat.testBit n.2).map (·.1)

/-- What the canonical ABI asks of a word of flags: unknown bits are ignored. -/
def pushKnown : Push σ := fun names flags offset bits =>
  pure (flags ++ knownFlags names offset bits)

def Cx.canon (cx : Cx σ ρ) : Prims σ ρ :=
  ⟨pushKnown, fun h index => (cx.handle h index).orFail "unknown handle index"⟩

def HandleKnown (cx : Cx σ ρ) (h : Handle) (index : Nat) (s : σ) : Prop :=
  (cx.handle h index s).1.isPanic = false

def KnownBits (names : List String) (offset : Nat) (bits : UInt32) : Prop :=
  bits.toNat < 2 ^ (names.length - offset)

instance (names : List String) (offset : Nat) (bits : UInt32) :
    Decidable (KnownBits names offset bits) :=
  inferInstanceAs (Decidable (_ < _))

def bitNames : List String → Nat → List String
  | [], _ => []
  | name :: names, bits =>
    (if bits % 2 ≠ 0 then [name] else []) ++ bitNames names (bits / 2)

theorem bitNames_zero (names : List String) : bitNames names 0 = [] := by
  induction names with
  | nil => rfl
  | cons name names ih => simp [bitNames, ih]

theorem filter_testBit_eq (names : List String) (bits : Nat) :
    (names.zipIdx.filter fun n => bits.testBit n.2).map (·.1) = bitNames names bits := by
  induction names generalizing bits with
  | nil => rfl
  | cons name names ih =>
    have htail : ((names.zipIdx 1).filter fun n => bits.testBit n.2).map (·.1) =
        bitNames names (bits / 2) := by
      rw [← ih, zipIdx_succ, filter_map, map_map]
      simp only [Function.comp_def, testBit_succ]
    rw [zipIdx_cons, filter_cons]
    simp only [testBit_zero, bitNames]
    by_cases hodd : bits % 2 = 1
    · simp [hodd, htail]
    · have hzero : bits % 2 = 0 := by omega
      simp [hzero, htail]

theorem pushBits_unless (names : List String) {rounds bits : Nat} (hbits : bits < 2 ^ rounds)
    (flags : List String) (offset : Nat) (s : σ) :
    PanicsUnless (bits < 2 ^ (names.length - offset)) (pushBits names rounds flags offset bits)
      (pure (flags ++ bitNames ((names.drop offset).take rounds) bits)) s := by
  induction rounds generalizing bits flags offset with
  | zero =>
    obtain rfl : bits = 0 := by simpa using hbits
    rw [bitNames_zero, append_nil]
    exact (PanicsUnless.pure flags).congr ⟨fun _ => trivial, fun _ => Nat.two_pow_pos _⟩
  | succ rounds ih =>
    have hhalf : bits / 2 < 2 ^ rounds := by
      rw [Nat.pow_succ] at hbits
      omega
    unfold pushBits
    by_cases hpos : bits > 0
    · rw [if_pos hpos]
      by_cases hlt : offset < names.length
      · have hdrop : names.drop offset = names[offset] :: names.drop (offset + 1) :=
          drop_eq_getElem_cons hlt
        have hget : names[offset]? = some names[offset] := getElem?_eq_getElem hlt
        have hK : bits < 2 ^ (names.length - offset) ↔
            bits / 2 < 2 ^ (names.length - (offset + 1)) := by
          rw [show names.length - offset = names.length - (offset + 1) + 1 by omega, Nat.pow_succ]
          omega
        rw [hdrop, take_succ_cons, bitNames, hK, ← append_assoc]
        by_cases hodd : bits % 2 ≠ 0
        · rw [if_pos hodd, if_pos hodd]
          refine (ih hhalf (flags ++ [names[offset]]) (offset + 1)).of_run ?_ rfl
          rw [hget]
          rfl
        · rw [if_neg hodd, if_neg hodd, append_nil]
          exact (ih hhalf flags (offset + 1)).of_run rfl rfl
      · -- there are no more names: the next bit that is set has none
        have hget : names[offset]? = none := getElem?_eq_none (by omega)
        have hone : 2 ^ (names.length - offset) = 1 := by
          rw [show names.length - offset = 0 by omega, Nat.pow_zero]
        refine ⟨rfl, fun hK => by omega, fun _ => ?_⟩
        by_cases hodd : bits % 2 ≠ 0
        · rw [if_pos hodd, hget]
          rfl
        · rw [if_neg hodd]
          refine (ih hhalf flags (offset + 1)).panics ?_
          rw [show names.length - (offset + 1) = 0 by omega, Nat.pow_zero]
          omega
    · obtain rfl : bits = 0 := by omega
      rw [if_neg hpos, bitNames_zero, append_nil]
      exact (PanicsUnless.pure flags).congr ⟨fun _ => trivial, fun _ => Nat.two_pow_pos _⟩

/-- **A word of flags**: `push_flags` panics exactly if a bit that is set has no name. -/
theorem pushFlags_unless (names flags : List String) (offset : Nat) (bits : UInt32) (s : σ) :
    PanicsUnless (KnownBits names offset bits) (pushFlags names flags offset bits)
      (pushKnown names flags offset bits) s := by
  have hlt : bits.toNat < 2 ^ 32 := bits.toNat_lt
  refine (pushBits_unless names hlt flags offset s).of_run rfl ?_
  simp only [pushKnown, knownFlags, filter_testBit_eq]

/-! ### What lifting meets -/

/-- A type as `load` sees it, with the condition that nothing it meets panics. -/
structure Watched (σ ρ : Type) where
  loader : Loader σ ρ
  known : Slice → σ → Prop

def FieldsKnown (fields : List (Watched σ ρ)) (bytes : Slice) (s : σ) : Prop := ForEach
    (fun (f : Watched σ ρ × Nat) => f.1.known ⟨bytes.start + f.2, f.1.loader.abi.size⟩)
    (fun f => f.1.loader.run ⟨bytes.start + f.2, f.1.loader.abi.size⟩)
    (fields.zip (fieldOffsets 0 (fields.map (·.loader.abi)))) s

def ListKnown (cx : Cx σ ρ) (element : Watched σ ρ) (ptr len : Nat) (s : σ) : Prop :=
  ptr + len * element.loader.abi.size ≤ cx.memory.length → ptr % element.loader.abi.align = 0 →
    ForEach
      (fun index => element.known ⟨ptr + index * element.loader.abi.size, element.loader.abi.size⟩)
      (fun index =>
        element.loader.run ⟨ptr + index * element.loader.abi.size, element.loader.abi.size⟩)
      (List.range len) s

def Cx.intAt (cx : Cx σ ρ) (n start : Nat) : Nat := fromLeBytes (cx.bytesOf ⟨start, n⟩)

def VariantKnown (cx : Cx σ ρ) (cases : List (Option (Watched σ ρ))) (bytes : Slice) (s : σ) :
    Prop :=
  ∀ c, cases[cx.intAt (discriminantBytes (discriminantSize cases.length)) bytes.start]? =
    some (some c) →
    c.known ⟨bytes.start + Abi.payloadOffset (cases.map (Option.map (·.loader.abi))),
      c.loader.abi.size⟩ s

def flagWords (cx : Cx σ ρ) (count : Nat) (bytes : Slice) : List UInt32 :=
  match flagsSize count with
  | .size0 => []
  | .size1 => [UInt32.ofNat (cx.intAt 1 bytes.start)]
  | .size2 => [UInt32.ofNat (cx.intAt 2 bytes.start)]
  | .size4Plus n => (List.range n).map fun i => UInt32.ofNat (cx.intAt 4 (bytes.start + i * 4))

def WordsKnown (names : List String) (words : List UInt32) : Prop :=
  ∀ (i : Nat) (w : UInt32), words[i]? = some w → KnownBits names (i * 32) w

mutual

/-- **No word of flags that `load` meets has a bit without a name**, and no table panics. -/
def LoadKnown (cx : Cx σ ρ) : InterfaceType → Slice → σ → Prop
  | .scalar _, _, _ => True
  | .string, _, _ => True
  | .handle h, bytes, s => HandleKnown cx h (cx.intAt 4 bytes.start) s
  | .list element, bytes, s =>
    ListKnown cx ⟨⟨element.abi 4, load cx cx.canon element⟩, LoadKnown cx element⟩
      (cx.intAt 4 bytes.start) (cx.intAt 4 (bytes.start + 4)) s
  | .record fields, bytes, s => FieldsKnown (watchedFields cx fields) bytes s
  | .tuple types, bytes, s => FieldsKnown (watchedTypes cx types) bytes s
  | .variant cases, bytes, s => VariantKnown cx (watchedCases cx cases) bytes s
  | .enum _, _, _ => True
  | .option ty, bytes, s =>
    VariantKnown cx [none, some ⟨⟨ty.abi 4, load cx cx.canon ty⟩, LoadKnown cx ty⟩] bytes s
  | .result ok err, bytes, s =>
    VariantKnown cx [watchedPayload cx ok, watchedPayload cx err] bytes s
  | .flags names, bytes, _ => WordsKnown names (flagWords cx names.length bytes)

def watchedPayload (cx : Cx σ ρ) : Option InterfaceType → Option (Watched σ ρ)
  | none => none
  | some ty => some ⟨⟨ty.abi 4, load cx cx.canon ty⟩, LoadKnown cx ty⟩

def watchedTypes (cx : Cx σ ρ) : List InterfaceType → List (Watched σ ρ)
  | [] => []
  | ty :: types =>
    ⟨⟨ty.abi 4, load cx cx.canon ty⟩, LoadKnown cx ty⟩ :: watchedTypes cx types

def watchedFields (cx : Cx σ ρ) : List (String × InterfaceType) → List (Watched σ ρ)
  | [] => []
  | (_, ty) :: fields =>
    ⟨⟨ty.abi 4, load cx cx.canon ty⟩, LoadKnown cx ty⟩ :: watchedFields cx fields

def watchedCases (cx : Cx σ ρ) : List (String × Option InterfaceType) → List (Option (Watched σ ρ))
  | [] => []
  | (_, ty) :: cases => watchedPayload cx ty :: watchedCases cx cases

end

/-! ### The lists of children -/

def loaderOf (cx : Cx σ ρ) (prims : Prims σ ρ) (ty : InterfaceType) : Loader σ ρ :=
  ⟨ty.abi 4, load cx prims ty⟩

def watch (cx : Cx σ ρ) (ty : InterfaceType) : Watched σ ρ :=
  ⟨loaderOf cx cx.canon ty, LoadKnown cx ty⟩

section

variable (cx : Cx σ ρ) (prims : Prims σ ρ)

theorem payloadLoader_eq (ty : Option InterfaceType) :
    payloadLoader cx prims ty = ty.map (loaderOf cx prims) := by
  cases ty with
  | none => simp only [payloadLoader, Option.map_none]
  | some ty => simp only [payloadLoader, Option.map_some, loaderOf]

theorem loaders_eq (types : List InterfaceType) :
    loaders cx prims types = types.map (loaderOf cx prims) :=
  eq_map (by rw [loaders]) (fun _ _ => by rw [loaders]; rfl) types

theorem fieldLoaders_eq (fields : List (String × InterfaceType)) :
    fieldLoaders cx prims fields = (fields.map (·.2)).map (loaderOf cx prims) := by
  rw [map_map]
  exact eq_map (by rw [fieldLoaders]) (fun _ _ => by rw [fieldLoaders]; rfl) fields

theorem caseLoaders_eq (cases : List (String × Option InterfaceType)) :
    caseLoaders cx prims cases = (cases.map (·.2)).map (Option.map (loaderOf cx prims)) := by
  rw [map_map]
  refine eq_map (by rw [caseLoaders]) (fun _ _ => ?_) cases
  rw [caseLoaders, payloadLoader_eq]
  rfl

theorem watchedPayload_eq (ty : Option InterfaceType) :
    watchedPayload cx ty = ty.map (watch cx) := by
  cases ty with
  | none => simp only [watchedPayload, Option.map_none]
  | some ty => simp only [watchedPayload, Option.map_some, watch, loaderOf]

theorem watchedTypes_eq (types : List InterfaceType) :
    watchedTypes cx types = types.map (watch cx) :=
  eq_map (by rw [watchedTypes]) (fun _ _ => by rw [watchedTypes]; rfl) types

theorem watchedFields_eq (fields : List (String × InterfaceType)) :
    watchedFields cx fields = (fields.map (·.2)).map (watch cx) := by
  rw [map_map]
  exact eq_map (by rw [watchedFields]) (fun _ _ => by rw [watchedFields]; rfl) fields

theorem watchedCases_eq (cases : List (String × Option InterfaceType)) :
    watchedCases cx cases = (cases.map (·.2)).map (Option.map (watch cx)) := by
  rw [map_map]
  refine eq_map (by rw [watchedCases]) (fun _ _ => ?_) cases
  rw [watchedCases, watchedPayload_eq]
  rfl

end

/-! ### Slices -/

structure Fits (cx : Cx σ ρ) (abi : Abi) (bytes : Slice) : Prop where
  within : bytes.start + bytes.len ≤ cx.memory.length
  len : bytes.len = abi.size
  aligned : abi.align ∣ bytes.start

theorem Slice.sub_run (bytes : Slice) {offset size : Nat} (h : offset + size ≤ bytes.len) (s : σ) :
    (bytes.sub offset size : Lift σ Slice) s = (.ok ⟨bytes.start + offset, size⟩, s) := by
  have h1 : decide (offset ≤ bytes.len) = true := decide_eq_true (by omega)
  have h2 : decide (size ≤ bytes.len - offset) = true := decide_eq_true (by omega)
  simp only [Slice.sub, h1, h2]
  rfl

theorem Slice.sub_within {bytes b : Slice} {offset size : Nat} {s s' : σ}
    (h : (bytes.sub offset size : Lift σ Slice) s = (.ok b, s')) : offset + size ≤ bytes.len := by
  obtain ⟨_, s1, h1, h2⟩ := bind_ok.1 h
  obtain ⟨_, s2, h3, -⟩ := bind_ok.1 h2
  have hoff := of_decide_eq_true (assert_ok.1 h1).1
  have hsize := of_decide_eq_true (assert_ok.1 h3).1
  omega

theorem Slice.suffix_run (bytes : Slice) {offset : Nat} (h : offset ≤ bytes.len) (s : σ) :
    (bytes.suffix offset : Lift σ Slice) s =
      (.ok ⟨bytes.start + offset, bytes.len - offset⟩, s) := by
  have h1 : decide (offset ≤ bytes.len) = true := decide_eq_true h
  simp only [Slice.suffix, h1]
  rfl

section

variable {cx : Cx σ ρ} {bytes : Slice} {n : Nat}

theorem readLe_run (h : bytes.len = n) (s : σ) :
    cx.readLe n bytes s = (.ok (cx.intAt n bytes.start), s) := by
  subst h
  simp only [Cx.readLe, Cx.intAt, decide_true]
  rfl

theorem readAligned_run (h : bytes.len = n) (ha : n ∣ bytes.start) (s : σ) :
    cx.readAligned n bytes s = (.ok (cx.intAt n bytes.start), s) := by
  have h1 : decide (bytes.start % n = 0) = true := decide_eq_true (mod_eq_zero_of_dvd ha)
  simp only [Cx.readAligned, h1]
  exact readLe_run h s

theorem readPair_run (h : bytes.len = 8) (s : σ) :
    cx.readPair bytes s =
      (.ok (cx.intAt 4 bytes.start, cx.intAt 4 (bytes.start + 4)), s) := by
  have hptr : cx.readLe 4 ⟨bytes.start + 0, 4⟩ s = (.ok (cx.intAt 4 (bytes.start + 0)), s) :=
    readLe_run rfl s
  have hlen : cx.readLe 4 ⟨bytes.start + 4, bytes.len - 4⟩ s =
      (.ok (cx.intAt 4 (bytes.start + 4)), s) := readLe_run (by simp only; omega) s
  unfold Cx.readPair
  rw [run_bind_ok (sub_run bytes (by omega) s), run_bind_ok hptr,
    run_bind_ok (suffix_run bytes (by omega) s), run_bind_ok hlen]
  rfl

end

/-! ### What does not meet flags -/

theorem ofExcept_safe {α : Type} (e : Except String α) (s : σ) :
    ((ofExcept e : Lift σ α) s).1.isPanic = false := by
  cases e with
  | ok a => rfl
  | error e => rfl

theorem isPanic_map {α β : Type} {m : Lift σ α} {s : σ} (h : (m s).1.isPanic = false)
    (f : α → Lift σ β) (hf : ∀ a s', m s = (.ok a, s') → (f a s').1.isPanic = false) :
    ((m >>= f) s).1.isPanic = false := by
  rcases hm : m s with ⟨o, s'⟩
  rw [hm] at h
  cases o with
  | panic p => cases h
  | err e =>
    rw [run_bind_err hm]
    rfl
  | ok a =>
    rw [run_bind_ok hm]
    exact hf a s' hm

theorem charFrom_safe (bits : UInt32) (s : σ) :
    ((Cx.charFrom bits : Lift σ (Val ρ)) s).1.isPanic = false := by
  unfold Cx.charFrom
  split
  · rfl
  · rfl

theorem liftScalar_safe (sc : Scalar) (v : ValRaw) (s : σ) :
    ((Cx.liftScalar sc v : Lift σ (Val ρ)) s).1.isPanic = false := by
  cases sc with
  | char => exact charFrom_safe _ s
  | _ => rfl

section

variable (cx : Cx σ ρ)

theorem liftHandle_unless (h : Handle) (index : Nat) (s : σ) :
    PanicsUnless (HandleKnown cx h index s) (cx.host.liftHandle h index)
      (cx.canon.liftHandle h index) s :=
  (PanicsUnless.orFail _ _ s).map

theorem loadScalar_safe {sc : Scalar} {bytes : Slice} (h : Fits cx (.scalar sc.size) bytes)
    (s : σ) : (cx.loadScalar sc bytes s).1.isPanic = false := by
  have hread : cx.readAligned sc.size bytes s = (.ok (cx.intAt sc.size bytes.start), s) :=
    readAligned_run h.len h.aligned s
  cases sc with
  | bool =>
    have hone : bytes.len = 1 := h.len
    have hlt : bytes.start < cx.memory.length := by
      have := h.within
      omega
    have hget : (cx.bytesOf bytes)[0]? = some cx.memory[bytes.start] := by
      unfold Cx.bytesOf
      rw [getElem?_take, hone, if_pos (by omega), getElem?_drop, Nat.add_zero,
        getElem?_eq_getElem hlt]
    simp only [Cx.loadScalar, hget]
    rfl
  | char =>
    refine isPanic_map ?_ _ fun bits s' _ => charFrom_safe _ s'
    rw [show cx.readAligned 4 bytes s = _ from hread]
    rfl
  | _ =>
    refine isPanic_map ?_ _ fun a s' _ => rfl
    first
    | rw [show cx.readAligned 1 bytes s = _ from hread]; rfl
    | rw [show cx.readAligned 2 bytes s = _ from hread]; rfl
    | rw [show cx.readAligned 4 bytes s = _ from hread]; rfl
    | rw [show cx.readAligned 8 bytes s = _ from hread]; rfl

theorem decodeUtf16At_safe {ptr len : Nat} (h : ptr + len * 2 ≤ cx.memory.length) (s : σ) :
    (cx.decodeUtf16At ptr len s).1.isPanic = false := by
  have hsub : (Slice.sub ⟨0, cx.memory.length⟩ ptr (len * 2) : Lift σ Slice) s =
      (.ok ⟨0 + ptr, len * 2⟩, s) := sub_run _ h s
  have heven : (cx.bytesOf ⟨0 + ptr, len * 2⟩).length % 2 = 0 := by
    unfold Cx.bytesOf
    rw [length_take, length_drop]
    simp only
    omega
  unfold Cx.decodeUtf16At
  rw [run_bind_ok hsub, decide_eq_true heven]
  refine isPanic_map (ofExcept_safe _ s) _ fun a s' _ => rfl

theorem liftString_safe (ptr len : Nat) (s : σ) :
    (cx.liftString ptr len s).1.isPanic = false := by
  unfold Cx.liftString Cx.wasmStr
  by_cases hle : ptr + cx.byteLen len ≤ cx.memory.length
  · rw [if_pos hle, run_pure_bind]
    unfold Cx.byteLen at hle
    unfold Cx.toStr
    cases henc : cx.encoding with
    | utf8 =>
      rw [henc] at hle
      have hsub : (Slice.sub ⟨0, cx.memory.length⟩ ptr len : Lift σ Slice) s =
          (.ok ⟨0 + ptr, len⟩, s) := sub_run _ hle s
      simp only
      rw [run_bind_ok hsub]
      exact isPanic_map (ofExcept_safe _ s) _ fun a s' _ => rfl
    | utf16 =>
      rw [henc] at hle
      exact decodeUtf16At_safe cx hle s
    | compactUtf16 =>
      rw [henc] at hle
      simp only at hle ⊢
      by_cases htag : len &&& Cx.utf16Tag = 0
      · rw [if_pos htag] at hle ⊢
        have hsub : (Slice.sub ⟨0, cx.memory.length⟩ ptr len : Lift σ Slice) s =
            (.ok ⟨0 + ptr, len⟩, s) := sub_run _ hle s
        rw [run_bind_ok hsub]
        rfl
      · rw [if_neg htag] at hle ⊢
        exact decodeUtf16At_safe cx hle s
  · rw [if_neg hle]
    rfl

end

/-! ### Loading -/

/-- What is proved of a type: on every slice that fits, `load` panics exactly if it meets an
unknown flag or a handle whose table panics. -/
def LoadUnless (cx : Cx σ ρ) (ty : InterfaceType) : Prop :=
  ∀ bytes s, Fits cx (ty.abi 4) bytes →
    PanicsUnless (LoadKnown cx ty bytes s) (load cx cx.host ty bytes)
      (load cx cx.canon ty bytes) s

section

variable {cx : Cx σ ρ} {bytes : Slice}

theorem abi_aligned4 (ty : InterfaceType) : (ty.abi 4).Aligned := ty.abi_aligned ⟨2, rfl⟩

theorem loadFields_unless (types : List InterfaceType) (h : ∀ ty ∈ types, LoadUnless cx ty)
    (hfit : Fits cx (.record (types.map (·.abi 4))) bytes) (s : σ) :
    PanicsUnless (FieldsKnown (types.map (watch cx)) bytes s)
      (loadFields (types.map (loaderOf cx cx.host)) bytes)
      (loadFields (types.map (loaderOf cx cx.canon)) bytes) s := by
  have habis : ∀ prims : Prims σ ρ, (types.map (loaderOf cx prims)).map (·.abi) =
      types.map (·.abi 4) := by
    intro prims
    rw [map_map]
    rfl
  have habis' : (types.map (watch cx)).map (·.loader.abi) = types.map (·.abi 4) := by
    rw [map_map]
    rfl
  have hal : ∀ a ∈ types.map (·.abi 4), a.Aligned := by
    intro a ha
    obtain ⟨ty, -, rfl⟩ := mem_map.1 ha
    exact abi_aligned4 ty
  obtain ⟨-, hdvd⟩ := Abi.record_aligned hal
  unfold loadFields FieldsKnown
  rw [habis, habis, habis', zip_map_left, zip_map_left, zip_map_left, collect_map, collect_map]
  have hsub : ∀ x ∈ types.zip (fieldOffsets 0 (types.map (·.abi 4))),
      x.1 ∈ types ∧ (x.1.abi 4).align ∣ x.2 ∧ ∀ s : σ,
        (bytes.sub x.2 (x.1.abi 4).size : Lift σ Slice) s =
          (.ok ⟨bytes.start + x.2, (x.1.abi 4).size⟩, s) := by
    rintro ⟨ty, o⟩ hmem
    have hzip : (ty.abi 4, o) ∈
        (types.map (·.abi 4)).zip (fieldOffsets 0 (types.map (·.abi 4))) := by
      rw [zip_map_left]
      exact mem_map.2 ⟨(ty, o), hmem, rfl⟩
    obtain ⟨hoff, hend⟩ := mem_zip_record hal hzip
    have hlen := hfit.len
    exact ⟨(of_mem_zip hmem).1, hoff, fun s => sub_run bytes (by simp only; omega) s⟩
  refine (PanicsUnless.collect (K := fun (x : InterfaceType × Nat) s =>
    LoadKnown cx x.1 ⟨bytes.start + x.2, (x.1.abi 4).size⟩ s) ?_).congr ?_
  · rintro x hx s
    obtain ⟨hty, hoff, hrun⟩ := hsub x hx
    refine PanicsUnless.bind_ok (hrun s) (h x.1 hty _ s ⟨?_, rfl, ?_⟩)
    · have hle := sub_within (hrun s)
      have := hfit.within
      simp only
      omega
    · exact dvd_add ((hdvd _ (mem_map.2 ⟨x.1, hty, rfl⟩)).trans hfit.aligned) hoff
  · rw [forEach_map]
    refine forEach_congr fun x hx s => ⟨Iff.rfl, ?_⟩
    obtain ⟨-, -, hrun⟩ := hsub x hx
    exact (run_bind_ok (hrun s)).symm

theorem loadList_unless {element : InterfaceType} (h : LoadUnless cx element) (ptr len : Nat)
    (s : σ) :
    PanicsUnless (ListKnown cx (watch cx element) ptr len s)
      (loadList cx (loaderOf cx cx.host element) ptr len)
      (loadList cx (loaderOf cx cx.canon element) ptr len) s := by
  refine .guard _ fun hle => .guard_not _ fun hal => .map ?_
  have hle : ptr + len * (element.abi 4).size ≤ cx.memory.length := hle
  have hrun : ∀ index ∈ List.range len, ∀ s : σ,
      (Slice.sub ⟨0, cx.memory.length⟩ (ptr + index * (element.abi 4).size)
        (element.abi 4).size : Lift σ Slice) s =
      (.ok ⟨ptr + index * (element.abi 4).size, (element.abi 4).size⟩, s) := by
    intro index hindex s
    have hmul : (index + 1) * (element.abi 4).size ≤ len * (element.abi 4).size :=
      Nat.mul_le_mul_right _ (mem_range.1 hindex)
    rw [succ_mul] at hmul
    rw [sub_run _ (by simp only; omega) s, Nat.zero_add]
  refine (PanicsUnless.collect (K := fun index => LoadKnown cx element
    ⟨ptr + index * (element.abi 4).size, (element.abi 4).size⟩) ?_).congr ?_
  · intro index hindex s
    refine PanicsUnless.bind_ok (hrun index hindex s) (h _ s ⟨?_, rfl, ?_⟩)
    · exact sub_within (hrun index hindex s)
    · exact dvd_add (dvd_of_mod_eq_zero hal) ((abi_aligned4 element).dvd.mul_left index)
  · refine forEach_congr fun index hindex s => ⟨Iff.rfl, ?_⟩
    exact (run_bind_ok (hrun index hindex s)).symm

theorem map_loader_abi (prims : Prims σ ρ) (payloads : List (Option InterfaceType)) :
    (payloads.map (Option.map (loaderOf cx prims))).map (Option.map (·.abi)) =
      payloads.map (Option.map (·.abi 4)) := by
  rw [map_map]
  refine map_congr_left fun o _ => ?_
  cases o <;> rfl

theorem map_watch_abi (payloads : List (Option InterfaceType)) :
    (payloads.map (Option.map (watch cx))).map (Option.map (·.loader.abi)) =
      payloads.map (Option.map (·.abi 4)) := by
  rw [map_map]
  refine map_congr_left fun o _ => ?_
  cases o <;> rfl

theorem loadVariant_unless (payloads : List (Option InterfaceType))
    (h : ∀ ty, some ty ∈ payloads → LoadUnless cx ty)
    (hfit : Fits cx (.variant (payloads.map (Option.map (·.abi 4)))) bytes) (s : σ) :
    Yields (VariantKnown cx (payloads.map (Option.map (watch cx))) bytes s)
      (fun w => w.1 < payloads.length)
      (loadVariant cx (payloads.map (Option.map (loaderOf cx cx.host))) bytes)
      (loadVariant cx (payloads.map (Option.map (loaderOf cx cx.canon))) bytes) s := by
  have hal : ∀ a, some a ∈ payloads.map (Option.map (·.abi 4)) → a.Aligned := by
    intro a ha
    obtain ⟨o, -, ho⟩ := mem_map.1 ha
    obtain ⟨ty, -, rfl⟩ := Option.map_eq_some_iff.1 ho
    exact abi_aligned4 ty
  obtain ⟨-, hdisc, hle, hcases⟩ := Abi.variant_aligned hal
  have hwithin := hfit.within
  have hlen := hfit.len
  rw [length_map] at hdisc hle
  have hread : loadDiscriminant cx (discriminantSize payloads.length) bytes s =
      (.ok (cx.intAt (discriminantBytes (discriminantSize payloads.length)) bytes.start), s) := by
    unfold loadDiscriminant
    rw [run_bind_ok (sub_run bytes (by omega) s)]
    exact readAligned_run rfl (hdisc.trans hfit.aligned) s
  unfold loadVariant VariantKnown
  simp only [map_loader_abi, map_watch_abi, length_map]
  refine .bind_ok hread ?_
  simp only [getElem?_map]
  cases hd : payloads[cx.intAt (discriminantBytes (discriminantSize payloads.length))
      bytes.start]? with
  | none =>
    refine .congr (.err _) ⟨fun _ => trivial, fun _ c hc => ?_⟩
    cases hc
  | some o =>
    have hlt := (List.getElem?_eq_some_iff.1 hd).1
    cases o with
    | none =>
      refine .congr (.pure hlt) ⟨fun _ => trivial, fun _ c hc => ?_⟩
      cases hc
    | some ty =>
      have hmem : some ty ∈ payloads := mem_of_getElem? hd
      obtain ⟨h1, h2, h3⟩ := hcases (ty.abi 4) (mem_map.2 ⟨some ty, hmem, rfl⟩)
      have hsub : (bytes.sub (Abi.payloadOffset (payloads.map (Option.map (·.abi 4))))
          (ty.abi 4).size : Lift σ Slice) s =
          (.ok ⟨bytes.start + Abi.payloadOffset (payloads.map (Option.map (·.abi 4))),
            (ty.abi 4).size⟩, s) := sub_run bytes (by omega) s
      have hpayload := h ty hmem ⟨bytes.start + Abi.payloadOffset (payloads.map
        (Option.map (·.abi 4))), (ty.abi 4).size⟩ s
        ⟨by simp only; omega, rfl, dvd_add (h1.trans hfit.aligned) h2⟩
      refine .congr (.bind_ok hsub (hpayload.yields.map fun _ _ => hlt)) ⟨fun hK => hK _ rfl, ?_⟩
      rintro hK c hc
      obtain rfl := Option.some.inj (Option.some.inj hc)
      exact hK

/-! ### The payloads of the cases -/

section

variable {P : InterfaceType → Prop}

theorem forall_payload {cases : List (String × Option InterfaceType)}
    (h : ∀ c ∈ cases, ∀ ty, c.2 = some ty → P ty) (ty : InterfaceType)
    (hty : some ty ∈ cases.map (·.2)) : P ty := by
  obtain ⟨c, hc, hcty⟩ := mem_map.1 hty
  exact h c hc ty hcty

theorem forall_none (names : List String) (ty : InterfaceType)
    (hty : some ty ∈ names.map fun _ => none) : P ty := by
  obtain ⟨n, -, hn⟩ := mem_map.1 hty
  cases hn

theorem forall_pair {ok err : Option InterfaceType} (hok : ∀ ty, ok = some ty → P ty)
    (herr : ∀ ty, err = some ty → P ty) (ty : InterfaceType) (hty : some ty ∈ [ok, err]) :
    P ty := by
  rcases mem_cons.1 hty with hty | hty
  · exact hok ty hty.symm
  · exact herr ty (mem_singleton.1 hty).symm

theorem forall_some {ty : InterfaceType} (h : P ty) : ∀ t, some t ∈ [none, some ty] → P t :=
  forall_pair (fun _ ht => by cases ht) fun _ ht => Option.some.inj ht ▸ h

theorem exists_name {cases : List (String × Option InterfaceType)} {d : Nat}
    (hd : d < (cases.map (·.2)).length) : ∃ name, (cases.map (·.1))[d]? = some name := by
  rw [length_map] at hd
  exact ⟨_, getElem?_eq_getElem (by rwa [length_map])⟩

end

theorem pushWords_unless (names : List String) {read : Nat → Lift σ UInt32} {w : Nat → UInt32}
    {n i : Nat} (hread : ∀ j, i ≤ j → j < i + n → ∀ s, read j s = (.ok (w j), s))
    (flags : List String) (s : σ) :
    PanicsUnless (∀ j, i ≤ j → j < i + n → KnownBits names (j * 32) (w j))
      (pushWords pushFlags names read n i flags) (pushWords pushKnown names read n i flags) s := by
  induction n generalizing i flags s with
  | zero => exact (PanicsUnless.pure flags).congr ⟨fun _ => trivial, fun _ j h1 h2 => by omega⟩
  | succ n ih =>
    refine (PanicsUnless.bind_ok (hread i le_rfl (by omega) s)
      (PanicsUnless.bind (pushFlags_unless names flags (i * 32) (w i) s) fun flags' s' _ =>
        ih (i := i + 1) (fun j h1 h2 => hread j (by omega) (by omega)) flags' s')).congr ?_
    constructor
    · exact fun hK => ⟨hK i le_rfl (by omega), fun _ _ _ j h1 h2 => hK j (by omega) (by omega)⟩
    · rintro ⟨h0, h1⟩ j hj1 hj2
      rcases Nat.eq_or_lt_of_le hj1 with rfl | hlt
      · exact h0
      · exact h1 _ s rfl j hlt (by omega)

theorem loadFlags_unless (names : List String) (hfit : Fits cx (.flags names.length) bytes)
    (s : σ) :
    PanicsUnless (WordsKnown names (flagWords cx names.length bytes))
      (loadFlags cx pushFlags names bytes) (loadFlags cx pushKnown names bytes) s := by
  have hlen := hfit.len
  have hal := hfit.aligned
  have hone : ∀ w : UInt32, WordsKnown names [w] ↔ KnownBits names 0 w := by
    intro w
    constructor
    · exact fun h => h 0 w rfl
    · intro h i w' hw
      cases i with
      | zero =>
        obtain rfl := Option.some.inj hw
        exact h
      | succ i => cases hw
  unfold Abi.flags at hlen hal
  unfold loadFlags flagWords
  cases hsize : flagsSize names.length with
  | size0 => exact (PanicsUnless.pure []).congr ⟨fun _ => trivial, fun _ i w hw => by cases hw⟩
  | size1 | size2 =>
    rw [hsize] at hlen hal
    exact (PanicsUnless.bind_ok (readAligned_run hlen hal s)
      (pushFlags_unless names [] 0 _ s)).congr (hone _)
  | size4Plus n =>
    rw [hsize] at hlen hal
    simp only at hlen hal
    refine (pushWords_unless names (w := fun i => UInt32.ofNat (cx.intAt 4 (bytes.start + i * 4)))
      ?_ [] s).congr ?_
    · intro j _ hj s
      rw [run_bind_ok (sub_run bytes (by omega) s)]
      have hread : cx.readAligned 4 ⟨bytes.start + j * 4, 4⟩ s =
          (.ok (cx.intAt 4 (bytes.start + j * 4)), s) :=
        readAligned_run rfl (dvd_add hal (Dvd.intro_left _ rfl)) s
      rw [run_bind_ok hread]
      rfl
    · constructor
      · intro hK j _ hj
        refine hK j _ ?_
        rw [getElem?_map, getElem?_range (by omega)]
        rfl
      · intro hK i w hw
        rw [getElem?_map] at hw
        obtain ⟨j, hj, rfl⟩ := Option.map_eq_some_iff.1 hw
        obtain ⟨hlt, rfl⟩ := List.getElem?_eq_some_iff.1 hj
        rw [length_range] at hlt
        simp only [getElem_range]
        exact hK i (Nat.zero_le i) (by omega)

-- The equations of the two functions, once for all cases.
attribute [local simp] load LoadKnown InterfaceType.abi

namespace LoadUnless

theorem scalar (sc : Scalar) : LoadUnless cx (.scalar sc) := by
  intro bytes s hfit
  rw [InterfaceType.abi] at hfit
  rw [load, load, LoadKnown]
  exact .refl (loadScalar_safe cx hfit s)

theorem string : LoadUnless cx .string := by
  intro bytes s hfit
  rw [InterfaceType.abi] at hfit
  rw [load, load, LoadKnown]
  have hal : decide (bytes.start % 4 = 0) = true := decide_eq_true (mod_eq_zero_of_dvd hfit.aligned)
  have hpair : (cx.readPair bytes s).1.isPanic = false := by
    rw [readPair_run hfit.len]
    rfl
  refine .refl ?_
  unfold Cx.loadString
  rw [hal]
  exact isPanic_map hpair _ fun pair s' _ => liftString_safe cx pair.1 pair.2 s'

theorem handle (h : Handle) : LoadUnless cx (.handle h) := by
  intro bytes s hfit
  rw [InterfaceType.abi] at hfit
  rw [load, load, LoadKnown]
  have hread : cx.readAligned 4 bytes s = (.ok (cx.intAt 4 bytes.start), s) :=
    readAligned_run hfit.len hfit.aligned s
  exact .bind_ok hread (liftHandle_unless cx h _ s)

theorem list {element : InterfaceType} (h : LoadUnless cx element) :
    LoadUnless cx (.list element) := by
  intro bytes s hfit
  rw [InterfaceType.abi] at hfit
  rw [load, load, LoadKnown]
  exact PanicsUnless.bind_ok (readPair_run hfit.len s) (loadList_unless h _ _ s)

theorem record {fields : List (String × InterfaceType)} (h : ∀ f ∈ fields, LoadUnless cx f.2) :
    LoadUnless cx (.record fields) := by
  intro bytes s hfit
  rw [InterfaceType.abi, fieldAbis_eq] at hfit
  rw [load, load, LoadKnown, fieldLoaders_eq, fieldLoaders_eq, watchedFields_eq]
  refine PanicsUnless.map (loadFields_unless (fields.map (·.2)) ?_ ?_ s)
  · intro ty hty
    obtain ⟨f, hf, rfl⟩ := mem_map.1 hty
    exact h f hf
  · rw [map_map]
    exact hfit

theorem tuple {types : List InterfaceType} (h : ∀ ty ∈ types, LoadUnless cx ty) :
    LoadUnless cx (.tuple types) := by
  intro bytes s hfit
  rw [InterfaceType.abi, abis_eq] at hfit
  rw [load, load, LoadKnown, loaders_eq, loaders_eq, watchedTypes_eq]
  exact PanicsUnless.map (loadFields_unless types h hfit s)

theorem variant {cases : List (String × Option InterfaceType)}
    (h : ∀ c ∈ cases, ∀ ty, c.2 = some ty → LoadUnless cx ty) :
    LoadUnless cx (.variant cases) := by
  intro bytes s hfit
  rw [InterfaceType.abi, caseAbis_eq] at hfit
  rw [load, load, LoadKnown, caseLoaders_eq, caseLoaders_eq, watchedCases_eq]
  have hvariant := loadVariant_unless (cases.map (·.2)) (forall_payload h)
    (by
      rw [map_map]
      exact hfit) s
  refine (hvariant.next (R := fun _ => True) ?_).toPanicsUnless
  rintro ⟨d, v⟩ s' hd
  obtain ⟨name, hname⟩ := exists_name hd
  simp only [hname]
  exact .bind_ok rfl (.pure trivial)

theorem enum (names : List String) : LoadUnless cx (.enum names) := by
  intro bytes s hfit
  rw [InterfaceType.abi] at hfit
  have hvariant := (loadVariant_unless (names.map fun _ => none) (forall_none names)
    (by
      rw [map_map]
      exact hfit) s).right
  rw [map_map, length_map] at hvariant
  rw [load, load, LoadKnown]
  refine (hvariant.next (R := fun _ => True) ?_).toPanicsUnless
  rintro ⟨d, v⟩ s' hd
  simp only [getElem?_eq_getElem hd]
  exact .bind_ok rfl (.pure trivial)

theorem option {ty : InterfaceType} (h : LoadUnless cx ty) : LoadUnless cx (.option ty) := by
  intro bytes s hfit
  rw [InterfaceType.abi] at hfit
  rw [load, load, LoadKnown]
  exact (loadVariant_unless [none, some ty] (forall_some h) hfit s).toPanicsUnless.map

theorem result {ok err : Option InterfaceType} (hok : ∀ ty, ok = some ty → LoadUnless cx ty)
    (herr : ∀ ty, err = some ty → LoadUnless cx ty) : LoadUnless cx (.result ok err) := by
  intro bytes s hfit
  rw [InterfaceType.abi, payloadAbi_eq, payloadAbi_eq] at hfit
  rw [load, load, LoadKnown, payloadLoader_eq, payloadLoader_eq, payloadLoader_eq,
    payloadLoader_eq, watchedPayload_eq, watchedPayload_eq]
  exact (loadVariant_unless [ok, err] (forall_pair hok herr) hfit s).toPanicsUnless.map

theorem flags (names : List String) : LoadUnless cx (.flags names) := by
  intro bytes s hfit
  rw [InterfaceType.abi] at hfit
  rw [load, load, LoadKnown]
  exact PanicsUnless.map (loadFlags_unless names hfit s)

end LoadUnless

end

/-- **Loading panics exactly if it meets an unknown flag** or a handle whose table panics. -/
theorem load_unless (cx : Cx σ ρ) (ty : InterfaceType) : LoadUnless cx ty := by
  induction ty using InterfaceType.induct with
  | scalar sc => exact .scalar sc
  | string => exact .string
  | handle h => exact .handle h
  | list element ih => exact .list ih
  | record fields ih => exact .record ih
  | tuple types ih => exact .tuple ih
  | variant cases ih => exact .variant ih
  | enum names => exact .enum names
  | option ty ih => exact .option ih
  | result ok err ihok iherr => exact .result ihok iherr
  | flags names => exact .flags names

/-! ### What lifting from core values meets -/

/-- A type as `lift` sees it, with the condition that nothing it meets panics. -/
structure WatchedFlat (σ ρ : Type) where
  lifter : Lifter σ ρ
  known : List ValRaw → σ → Prop

def FlatFieldsKnown : List (WatchedFlat σ ρ) → List ValRaw → σ → Prop
  | [], _, _ => True
  | field :: fields, src, s =>
    field.known src s ∧ ∀ v s', field.lifter.run src s = (.ok v, s') → FlatFieldsKnown fields v.2 s'

def FlatVariantKnown (cases : List (Option (WatchedFlat σ ρ))) (src : List ValRaw) (s : σ) : Prop :=
  ∀ v rest c, src = v :: rest → cases[v.toUInt32.toNat]? = some (some c) → c.known rest s

mutual

/-- **No word of flags that `lift` meets has a bit without a name**, and no table panics. -/
def LiftKnown (cx : Cx σ ρ) : InterfaceType → List ValRaw → σ → Prop
  | .scalar _, _, _ => True
  | .string, _, _ => True
  | .handle h, src, s => ∀ v rest, src = v :: rest → HandleKnown cx h v.toUInt32.toNat s
  | .list element, src, s => ∀ ptr len rest, src = ptr :: len :: rest →
    ListKnown cx (watch cx element) ptr.toUInt32.toNat len.toUInt32.toNat s
  | .record fields, src, s => FlatFieldsKnown (flatFields cx fields) src s
  | .tuple types, src, s => FlatFieldsKnown (flatTypes cx types) src s
  | .variant cases, src, s => FlatVariantKnown (flatCases cx cases) src s
  | .enum _, _, _ => True
  | .option ty, src, s =>
    FlatVariantKnown [none, some ⟨⟨(ty.abi 4).flatCount, lift cx cx.canon ty⟩, LiftKnown cx ty⟩]
      src s
  | .result ok err, src, s => FlatVariantKnown [flatPayload cx ok, flatPayload cx err] src s
  | .flags names, src, _ => ∀ n, ((InterfaceType.flags names).abi 4).flatCount = some n →
    WordsKnown names ((src.take n).map (·.toUInt32))

def flatPayload (cx : Cx σ ρ) : Option InterfaceType → Option (WatchedFlat σ ρ)
  | none => none
  | some ty => some ⟨⟨(ty.abi 4).flatCount, lift cx cx.canon ty⟩, LiftKnown cx ty⟩

def flatTypes (cx : Cx σ ρ) : List InterfaceType → List (WatchedFlat σ ρ)
  | [] => []
  | ty :: types =>
    ⟨⟨(ty.abi 4).flatCount, lift cx cx.canon ty⟩, LiftKnown cx ty⟩ :: flatTypes cx types

def flatFields (cx : Cx σ ρ) : List (String × InterfaceType) → List (WatchedFlat σ ρ)
  | [] => []
  | (_, ty) :: fields =>
    ⟨⟨(ty.abi 4).flatCount, lift cx cx.canon ty⟩, LiftKnown cx ty⟩ :: flatFields cx fields

def flatCases (cx : Cx σ ρ) : List (String × Option InterfaceType) → List (Option (WatchedFlat σ ρ))
  | [] => []
  | (_, ty) :: cases => flatPayload cx ty :: flatCases cx cases

end

def lifterOf (cx : Cx σ ρ) (prims : Prims σ ρ) (ty : InterfaceType) : Lifter σ ρ :=
  ⟨(ty.abi 4).flatCount, lift cx prims ty⟩

def watchFlat (cx : Cx σ ρ) (ty : InterfaceType) : WatchedFlat σ ρ :=
  ⟨lifterOf cx cx.canon ty, LiftKnown cx ty⟩

section

variable (cx : Cx σ ρ) (prims : Prims σ ρ)

theorem payloadLifter_eq (ty : Option InterfaceType) :
    payloadLifter cx prims ty = ty.map (lifterOf cx prims) := by
  cases ty with
  | none => rw [payloadLifter, Option.map_none]
  | some ty => rw [payloadLifter, Option.map_some, lifterOf]

theorem lifters_eq (types : List InterfaceType) :
    lifters cx prims types = types.map (lifterOf cx prims) :=
  eq_map (by rw [lifters]) (fun _ _ => by rw [lifters]; rfl) types

theorem fieldLifters_eq (fields : List (String × InterfaceType)) :
    fieldLifters cx prims fields = (fields.map (·.2)).map (lifterOf cx prims) := by
  rw [map_map]
  exact eq_map (by rw [fieldLifters]) (fun _ _ => by rw [fieldLifters]; rfl) fields

theorem caseLifters_eq (cases : List (String × Option InterfaceType)) :
    caseLifters cx prims cases = (cases.map (·.2)).map (Option.map (lifterOf cx prims)) := by
  rw [map_map]
  refine eq_map (by rw [caseLifters]) (fun _ _ => ?_) cases
  rw [caseLifters, payloadLifter_eq]
  rfl

theorem flatPayload_eq (ty : Option InterfaceType) :
    flatPayload cx ty = ty.map (watchFlat cx) := by
  cases ty with
  | none => rw [flatPayload, Option.map_none]
  | some ty => rw [flatPayload, Option.map_some, watchFlat, lifterOf]

theorem flatTypes_eq (types : List InterfaceType) : flatTypes cx types = types.map (watchFlat cx) :=
  eq_map (by rw [flatTypes]) (fun _ _ => by rw [flatTypes]; rfl) types

theorem flatFields_eq (fields : List (String × InterfaceType)) :
    flatFields cx fields = (fields.map (·.2)).map (watchFlat cx) := by
  rw [map_map]
  exact eq_map (by rw [flatFields]) (fun _ _ => by rw [flatFields]; rfl) fields

theorem flatCases_eq (cases : List (String × Option InterfaceType)) :
    flatCases cx cases = (cases.map (·.2)).map (Option.map (watchFlat cx)) := by
  rw [map_map]
  refine eq_map (by rw [flatCases]) (fun _ _ => ?_) cases
  rw [flatCases, flatPayload_eq]
  rfl

end

/-! ### Counting core values -/

variable {n : Nat}

theorem addFlat_eq_some {a b : Option Nat} (h : Environ.addFlat a b = some n) :
    ∃ x y, a = some x ∧ b = some y ∧ n = x + y := by
  cases a with
  | none => cases h
  | some x =>
    cases b with
    | none => cases h
    | some y =>
      change (if x + y > 255 then none
        else if x + y > Environ.maxFlatTypes then none else some (x + y)) = some n at h
      split at h
      · cases h
      · split at h
        · cases h
        · exact ⟨x, y, rfl, rfl, (Option.some.inj h).symm⟩

theorem maxFlat_eq_some {a b : Option Nat} (h : Environ.maxFlat a b = some n) :
    ∃ x y, a = some x ∧ b = some y ∧ x ≤ n ∧ y ≤ n := by
  cases a with
  | none => cases h
  | some x =>
    cases b with
    | none => cases h
    | some y =>
      change (if x > y then some x else some y) = some n at h
      split at h
      · obtain rfl := Option.some.inj h
        exact ⟨x, y, rfl, rfl, le_rfl, by omega⟩
      · obtain rfl := Option.some.inj h
        exact ⟨x, y, rfl, rfl, by omega, le_rfl⟩

theorem foldl_addField_flatCount {fields : List Abi} {r : Abi}
    (h : (fields.foldl Abi.addField r).flatCount = some n) : ∃ m, r.flatCount = some m ∧ m ≤ n := by
  induction fields generalizing r with
  | nil => exact ⟨n, h, le_rfl⟩
  | cons f fields ih =>
    rw [foldl_cons] at h
    obtain ⟨m, hm, hle⟩ := ih h
    obtain ⟨x, y, hx, -, rfl⟩ := addFlat_eq_some hm
    exact ⟨x, hx, by omega⟩

theorem foldl_addCase_flatCount {cases : List (Option Abi)} {m : Abi}
    (h : (cases.foldl Abi.addCase m).flatCount = some n) : (∃ k, m.flatCount = some k ∧ k ≤ n) ∧
      ∀ c, some c ∈ cases → ∃ k, c.flatCount = some k ∧ k ≤ n := by
  induction cases generalizing m with
  | nil => exact ⟨⟨n, h, le_rfl⟩, fun c hc => absurd hc not_mem_nil⟩
  | cons o cases ih =>
    rw [foldl_cons] at h
    obtain ⟨⟨k, hk, hle⟩, hcases⟩ := ih h
    cases o with
    | none =>
      refine ⟨⟨k, hk, hle⟩, fun c hc => ?_⟩
      rcases mem_cons.1 hc with hc | hc
      · cases hc
      · exact hcases c hc
    | some a =>
      obtain ⟨x, y, hx, hy, hxk, hyk⟩ := maxFlat_eq_some hk
      refine ⟨⟨x, hx, by omega⟩, fun c hc => ?_⟩
      rcases mem_cons.1 hc with hc | hc
      · cases hc
        exact ⟨y, hy, by omega⟩
      · exact hcases c hc

theorem variant_flatCount_some {cases : List (Option Abi)}
    (h : (Abi.variant cases).flatCount = some n) :
    1 ≤ n ∧ ∀ c, some c ∈ cases → ∃ k, c.flatCount = some k ∧ 1 + k ≤ n := by
  obtain ⟨x, y, hx, hy, rfl⟩ := addFlat_eq_some h
  obtain rfl := Option.some.inj hy
  refine ⟨by omega, fun c hc => ?_⟩
  obtain ⟨k, hk, hle⟩ := (foldl_addCase_flatCount hx).2 c hc
  exact ⟨k, hk, by omega⟩

/-! ### Lifting -/

/-- What is proved of a type: with enough core values, `lift` panics exactly if it meets an
unknown flag or a handle whose table panics, and it takes as many values as the type has. -/
def LiftUnless (cx : Cx σ ρ) (ty : InterfaceType) : Prop :=
  ∀ n src s, (ty.abi 4).flatCount = some n → n ≤ src.length →
    Yields (LiftKnown cx ty src s) (fun v => v.2 = src.drop n) (lift cx cx.host ty src)
      (lift cx cx.canon ty src) s

theorem next_run (v : ValRaw) (src : List ValRaw) (s : σ) :
    (next (v :: src) : Lift σ (ValRaw × List ValRaw)) s = (.ok (v, src), s) := rfl

theorem skip_run {k : Nat} {src : List ValRaw} (h : k ≤ src.length) (s : σ) :
    (skip k src : Lift σ (List ValRaw)) s = (.ok (src.drop k), s) := by
  induction k generalizing src with
  | zero => rfl
  | succ k ih =>
    cases src with
    | nil => exact absurd h (by simp)
    | cons v src => exact ih (by simpa using h)

section

variable {cx : Cx σ ρ}

variable {src : List ValRaw}

theorem liftFields_unless {types : List InterfaceType} (h : ∀ ty ∈ types, LiftUnless cx ty)
    {r : Abi} {m n : Nat} (hr : r.flatCount = some m)
    (hn : ((types.map (·.abi 4)).foldl Abi.addField r).flatCount = some n)
    (hsrc : n - m ≤ src.length) (s : σ) :
    Yields (FlatFieldsKnown (types.map (watchFlat cx)) src s) (fun v => v.2 = src.drop (n - m))
      (liftFields (types.map (lifterOf cx cx.host)) src)
      (liftFields (types.map (lifterOf cx cx.canon)) src) s := by
  induction types generalizing r m src s with
  | nil =>
    rw [map_nil, foldl_nil, hr] at hn
    obtain rfl := Option.some.inj hn
    exact .pure (by rw [Nat.sub_self, drop_zero])
  | cons ty types ih =>
    rw [map_cons, foldl_cons] at hn
    obtain ⟨m', hm', hle⟩ := foldl_addField_flatCount hn
    obtain ⟨x, a, hx, ha, rfl⟩ := addFlat_eq_some hm'
    rw [hr] at hx
    obtain rfl := Option.some.inj hx
    have hlen : n - (m + a) ≤ (src.drop a).length := by
      rw [length_drop]
      omega
    refine (Yields.bind (L := fun v s' => FlatFieldsKnown (types.map (watchFlat cx)) v.2 s')
      (h ty mem_cons_self a src s ha (by omega)) ?_).congr Iff.rfl
    rintro ⟨val, src'⟩ s' hdrop
    obtain rfl : src' = src.drop a := hdrop
    refine (ih (fun t ht => h t (mem_cons_of_mem _ ht)) hm' hn hlen s').map fun p hp => ?_
    rw [hp, drop_drop, show a + (n - (m + a)) = n - m by omega]

theorem liftVariant_unless (payloads : List (Option InterfaceType))
    (h : ∀ ty, some ty ∈ payloads → LiftUnless cx ty) {n : Nat}
    (hn : (Abi.variant (payloads.map (Option.map (·.abi 4)))).flatCount = some n)
    (hsrc : n ≤ src.length) (s : σ) :
    Yields (FlatVariantKnown (payloads.map (Option.map (watchFlat cx))) src s)
      (fun w => w.2.2 = src.drop n ∧ w.1 < payloads.length)
      (liftVariant n (payloads.map (Option.map (lifterOf cx cx.host))) src)
      (liftVariant n (payloads.map (Option.map (lifterOf cx cx.canon))) src) s := by
  obtain ⟨hone, hcases⟩ := variant_flatCount_some hn
  obtain ⟨v, src, rfl⟩ := exists_cons_of_length_pos (show 0 < src.length by omega)
  have hlen : n - 1 ≤ src.length := by
    rw [length_cons] at hsrc
    omega
  have hdrop : (v :: src).drop n = src.drop (n - 1) := by
    obtain ⟨k, rfl⟩ : ∃ k, n = k + 1 := ⟨n - 1, by omega⟩
    rfl
  have hK : FlatVariantKnown (payloads.map (Option.map (watchFlat cx))) (v :: src) s ↔
      ∀ c, (payloads[v.toUInt32.toNat]?).map (Option.map (watchFlat cx)) = some (some c) →
        c.known src s := by
    rw [← getElem?_map]
    refine ⟨fun hK c => hK v src c rfl, ?_⟩
    rintro hK _ _ c heq
    cases heq
    exact hK c
  refine .congr ?_ hK
  unfold liftVariant
  simp only [getElem?_map, hdrop]
  refine .bind_ok (next_run v src s) ?_
  cases hd : payloads[v.toUInt32.toNat]? with
  | none =>
    refine .congr (.err _) ⟨fun _ => trivial, fun _ c hc => ?_⟩
    cases hc
  | some o =>
    have hlt := (List.getElem?_eq_some_iff.1 hd).1
    cases o with
    | none =>
      refine .congr (.bind_ok (skip_run hlen s) (.pure ⟨rfl, hlt⟩))
        ⟨fun _ => trivial, fun _ c hc => ?_⟩
      cases hc
    | some ty =>
      have hmem : some ty ∈ payloads := mem_of_getElem? hd
      obtain ⟨k, hk, hkn⟩ := hcases (ty.abi 4) (mem_map.2 ⟨some ty, hmem, rfl⟩)
      have hcount : ∀ prims, (lifterOf cx prims ty).flatCount = some k := fun _ => hk
      have hskip : ∀ s' : σ, (skip (n - (1 + k)) (src.drop k) : Lift σ (List ValRaw)) s' =
          (.ok ((src.drop k).drop (n - (1 + k))), s') := fun s' =>
        skip_run (by rw [length_drop]; omega) s'
      refine ((h ty hmem k src s hk (by omega)).next fun u s' hu => ?_).congr
        ⟨fun hK => hK _ rfl, ?_⟩
      · rw [hu, hcount, hcount]
        refine .bind_ok rfl (.bind_ok (hskip s') (.pure ⟨?_, hlt⟩))
        rw [drop_drop, show k + (n - (1 + k)) = n - 1 by omega]
      · rintro hK c hc
        obtain rfl := Option.some.inj (Option.some.inj hc)
        exact hK

theorem liftWords_unless (names : List String) {n : Nat} (i : Nat) (flags : List String)
    (hsrc : n ≤ src.length) (s : σ) :
    Yields (∀ (j : Nat) (w : UInt32), ((src.take n).map (·.toUInt32))[j]? = some w →
        KnownBits names ((i + j) * 32) w) (fun w => w.2 = src.drop n)
      (liftWords pushFlags names n i flags src) (liftWords pushKnown names n i flags src) s := by
  induction n generalizing i flags src s with
  | zero =>
    refine .congr (.pure rfl) ⟨fun _ => trivial, fun _ j w hw => ?_⟩
    cases hw
  | succ n ih =>
    obtain ⟨v, src, rfl⟩ := exists_cons_of_length_pos (show 0 < src.length by omega)
    have hlen : n ≤ src.length := by simpa using hsrc
    have hword := (pushFlags_unless names flags (i * 32) v.toUInt32 s).yields
    refine (Yields.bind_ok (next_run v src s)
      (hword.bind fun flags' s' _ => ih (i + 1) flags' hlen s')).congr ?_
    constructor
    · intro hK
      refine ⟨hK 0 _ rfl, fun _ _ _ j w hw => ?_⟩
      have := hK (j + 1) w hw
      rwa [show i + (j + 1) = i + 1 + j by omega] at this
    · rintro ⟨h0, h1⟩ j w hw
      cases j with
      | zero =>
        obtain rfl := Option.some.inj hw
        exact h0
      | succ j =>
        have := h1 _ s rfl j w hw
        rwa [show i + 1 + j = i + (j + 1) by omega] at this

attribute [local simp] lift LiftKnown

namespace LiftUnless

theorem scalar (sc : Scalar) : LiftUnless cx (.scalar sc) := by
  intro n src s hn hsrc
  rw [InterfaceType.abi] at hn
  obtain rfl := Option.some.inj hn
  obtain ⟨v, src, rfl⟩ := exists_cons_of_length_pos hsrc
  rw [lift, lift, LiftKnown]
  exact .bind_ok (next_run v src s) ((Yields.refl (liftScalar_safe sc v s)).map fun _ _ => rfl)

theorem string : LiftUnless cx .string := by
  intro n src s hn hsrc
  rw [InterfaceType.abi] at hn
  obtain rfl := Option.some.inj hn
  obtain ⟨ptr, src, rfl⟩ := exists_cons_of_length_pos (show 0 < src.length by omega)
  obtain ⟨len, src, rfl⟩ := exists_cons_of_length_pos (le_of_succ_le_succ hsrc)
  rw [lift, lift, LiftKnown]
  exact .bind_ok (next_run ptr _ s) (.bind_ok (next_run len src s)
    ((Yields.refl (liftString_safe cx _ _ s)).map fun _ _ => rfl))

theorem handle (h : Handle) : LiftUnless cx (.handle h) := by
  intro n src s hn hsrc
  rw [InterfaceType.abi] at hn
  obtain rfl := Option.some.inj hn
  obtain ⟨v, src, rfl⟩ := exists_cons_of_length_pos hsrc
  rw [lift, lift, LiftKnown]
  refine .congr (.bind_ok (next_run v src s) ((liftHandle_unless cx h _ s).yields.map
    (f := fun val => (val, src)) fun _ _ => rfl)) ⟨fun hK => hK v src rfl, ?_⟩
  rintro hK _ _ heq
  cases heq
  exact hK

theorem list (element : InterfaceType) : LiftUnless cx (.list element) := by
  intro n src s hn hsrc
  rw [InterfaceType.abi] at hn
  obtain rfl := Option.some.inj hn
  obtain ⟨ptr, src, rfl⟩ := exists_cons_of_length_pos (show 0 < src.length by omega)
  obtain ⟨len, src, rfl⟩ := exists_cons_of_length_pos (le_of_succ_le_succ hsrc)
  have hlist := (loadList_unless (load_unless cx element) ptr.toUInt32.toNat
    len.toUInt32.toNat s).yields
  rw [lift, lift, LiftKnown]
  refine (Yields.bind_ok (next_run ptr _ s) (.bind_ok (next_run len src s)
    (hlist.map (f := fun v => (v, src)) fun _ _ => rfl))).congr ⟨fun hK => hK ptr len src rfl, ?_⟩
  rintro hK ptr' len' rest heq
  cases heq
  exact hK

theorem record {fields : List (String × InterfaceType)} (h : ∀ f ∈ fields, LiftUnless cx f.2) :
    LiftUnless cx (.record fields) := by
  intro n src s hn hsrc
  rw [InterfaceType.abi, fieldAbis_eq] at hn
  have hfields : ∀ ty ∈ fields.map (·.2), LiftUnless cx ty := by
    intro ty hty
    obtain ⟨f, hf, rfl⟩ := mem_map.1 hty
    exact h f hf
  have hn' : (((fields.map (·.2)).map (·.abi 4)).foldl Abi.addField ⟨0, 1, some 0⟩).flatCount =
      some n := by
    rw [map_map]
    exact hn
  rw [lift, lift, LiftKnown, fieldLifters_eq, fieldLifters_eq, flatFields_eq]
  exact (liftFields_unless (m := 0) hfields rfl hn' hsrc s).map fun _ hp => hp

theorem tuple {types : List InterfaceType} (h : ∀ ty ∈ types, LiftUnless cx ty) :
    LiftUnless cx (.tuple types) := by
  intro n src s hn hsrc
  rw [InterfaceType.abi, abis_eq] at hn
  rw [lift, lift, LiftKnown, lifters_eq, lifters_eq, flatTypes_eq]
  exact (liftFields_unless (m := 0) h rfl hn hsrc s).map fun _ hp => hp

theorem variant {cases : List (String × Option InterfaceType)}
    (h : ∀ c ∈ cases, ∀ ty, c.2 = some ty → LiftUnless cx ty) :
    LiftUnless cx (.variant cases) := by
  intro n src s hn hsrc
  have hcount := hn
  rw [InterfaceType.abi, caseAbis_eq] at hn
  have hvariant := liftVariant_unless (cases.map (·.2)) (forall_payload h)
    (by
      rw [map_map]
      exact hn) hsrc s
  rw [lift, lift, LiftKnown, caseLifters_eq, caseLifters_eq, flatCases_eq, hcount]
  refine .bind_ok rfl (hvariant.next ?_)
  rintro ⟨d, v, rest⟩ s' ⟨hrest, hd⟩
  obtain ⟨name, hname⟩ := exists_name hd
  simp only [hname]
  exact .bind_ok rfl (.pure hrest)

theorem enum (names : List String) : LiftUnless cx (.enum names) := by
  intro n src s hn hsrc
  have hcount := hn
  rw [InterfaceType.abi] at hn
  have hnone : ∀ ty, some ty ∈ names.map (fun _ => none) → LiftUnless cx ty := forall_none names
  have hvariant := (liftVariant_unless (names.map fun _ => none) hnone
    (by
      rw [map_map]
      exact hn) hsrc s).right
  rw [map_map, length_map] at hvariant
  rw [lift, lift, LiftKnown, hcount]
  refine .bind_ok rfl (hvariant.next ?_)
  rintro ⟨d, v, rest⟩ s' ⟨hrest, hd⟩
  simp only [getElem?_eq_getElem hd]
  exact .bind_ok rfl (.pure hrest)

theorem option {ty : InterfaceType} (h : LiftUnless cx ty) : LiftUnless cx (.option ty) := by
  intro n src s hn hsrc
  have hcount := hn
  rw [InterfaceType.abi] at hn
  have hvariant := liftVariant_unless [none, some ty] (forall_some h) hn hsrc s
  rw [lift, lift, LiftKnown, hcount]
  exact .bind_ok rfl (hvariant.map
    (f := fun p : Nat × Option (Val ρ) × List ValRaw => (Val.option p.2.1, p.2.2))
    fun _ hp => hp.1)

theorem result {ok err : Option InterfaceType} (hok : ∀ ty, ok = some ty → LiftUnless cx ty)
    (herr : ∀ ty, err = some ty → LiftUnless cx ty) : LiftUnless cx (.result ok err) := by
  intro n src s hn hsrc
  have hcount := hn
  rw [InterfaceType.abi, payloadAbi_eq, payloadAbi_eq] at hn
  have hvariant := liftVariant_unless [ok, err] (forall_pair hok herr) hn hsrc s
  rw [lift, lift, LiftKnown, payloadLifter_eq, payloadLifter_eq, payloadLifter_eq,
    payloadLifter_eq, flatPayload_eq, flatPayload_eq, hcount]
  exact .bind_ok rfl (hvariant.map
    (f := fun p : Nat × Option (Val ρ) × List ValRaw => (Val.result (p.1 = 0) p.2.1, p.2.2))
    fun _ hp => hp.1)

theorem flags (names : List String) : LiftUnless cx (.flags names) := by
  intro n src s hn hsrc
  rw [lift, lift, LiftKnown, hn]
  refine .congr (.bind_ok rfl ((liftWords_unless names 0 [] hsrc s).map
    (f := fun p => (Val.flags p.1, p.2)) fun _ hp => hp)) ?_
  simp only [Option.some.injEq, forall_eq', Nat.zero_add]
  exact Iff.rfl

end LiftUnless

end

/-- **Lifting panics exactly if it meets an unknown flag** or a handle whose table panics. -/
theorem lift_unless (cx : Cx σ ρ) (ty : InterfaceType) : LiftUnless cx ty := by
  induction ty using InterfaceType.induct with
  | scalar sc => exact .scalar sc
  | string => exact .string
  | handle h => exact .handle h
  | list element ih => exact .list element
  | record fields ih => exact .record ih
  | tuple types ih => exact .tuple ih
  | variant cases ih => exact .variant ih
  | enum names => exact .enum names
  | option ty ih => exact .option ih
  | result ok err ihok iherr => exact .result ihok iherr
  | flags names => exact .flags names

/-! ### The results of a call -/

def PointerKnown (cx : Cx σ ρ) (types : List InterfaceType) (v : ValRaw) (s : σ) : Prop :=
  let abi := (InterfaceType.tuple types).abi 4
  let ptr := v.toUInt32.toNat
  ptr % abi.align = 0 → ptr + abi.size ≤ cx.memory.length →
    FieldsKnown (types.map (watch cx)) ⟨ptr, abi.size⟩ s

theorem loadResults_unless (cx : Cx σ ρ) (types : List InterfaceType) (v : ValRaw)
    (rest : List ValRaw) (s : σ) :
    PanicsUnless (PointerKnown cx types v s) (loadResults cx cx.host types (v :: rest))
      (loadResults cx cx.canon types (v :: rest)) s := by
  have hnext : (next (v :: rest) : Lift σ _) s = (.ok (v, rest), s) := rfl
  refine PanicsUnless.bind_ok hnext (.guard_not _ fun halign => .guard _ fun hin => ?_)
  have hfit : Fits cx ((InterfaceType.tuple types).abi 4)
      ⟨v.toUInt32.toNat, ((InterfaceType.tuple types).abi 4).size⟩ :=
    ⟨hin, rfl, dvd_of_mod_eq_zero halign⟩
  rw [loaders_eq, loaders_eq]
  refine loadFields_unless types (fun ty _ => load_unless cx ty) ?_ s
  rw [InterfaceType.abi, abis_eq] at hfit ⊢
  exact hfit

/-- The results of a call are as many values as their types have, or a pointer to them. -/
def resultCount (types : List InterfaceType) (maxFlat : Nat) : Nat :=
  match ((InterfaceType.tuple types).abi 4).flatCount with
  | some n => if n ≤ maxFlat then n else 1
  | none => 1

def ResultsKnown (cx : Cx σ ρ) (types : List InterfaceType) (maxFlat : Nat) (src : List ValRaw)
    (s : σ) : Prop :=
  match ((InterfaceType.tuple types).abi 4).flatCount with
  | some n =>
    if n ≤ maxFlat then FlatFieldsKnown (types.map (watchFlat cx)) src s
    else ∀ v rest, src = v :: rest → PointerKnown cx types v s
  | none => ∀ v rest, src = v :: rest → PointerKnown cx types v s

theorem liftResults_unless (cx : Cx σ ρ) (types : List InterfaceType) {maxFlat : Nat}
    {src : List ValRaw} (hsrc : resultCount types maxFlat ≤ src.length) (s : σ) :
    PanicsUnless (ResultsKnown cx types maxFlat src s) (liftResults cx cx.host types maxFlat src)
      (liftResults cx cx.canon types maxFlat src) s := by
  have hpointer : 1 ≤ src.length → PanicsUnless (∀ v rest, src = v :: rest →
      PointerKnown cx types v s) (loadResults cx cx.host types src)
      (loadResults cx cx.canon types src) s := by
    intro hpos
    obtain ⟨v, rest, rfl⟩ := exists_cons_of_length_pos hpos
    refine (loadResults_unless cx types v rest s).congr ⟨fun hK => hK v rest rfl, ?_⟩
    rintro hK v' rest' heq
    cases heq
    exact hK
  unfold resultCount at hsrc
  unfold ResultsKnown liftResults
  cases hcount : ((InterfaceType.tuple types).abi 4).flatCount with
  | none =>
    rw [hcount] at hsrc
    exact hpointer hsrc
  | some n =>
    simp only [hcount] at hsrc ⊢
    by_cases hn : n ≤ maxFlat
    · rw [if_pos hn] at hsrc
      rw [if_pos hn, if_pos hn, if_pos hn, lifters_eq, lifters_eq]
      rw [InterfaceType.abi, abis_eq] at hcount
      exact (liftFields_unless (fun ty _ => lift_unless cx ty) rfl hcount (by omega) s).1.map
    · rw [if_neg hn] at hsrc
      rw [if_neg hn, if_neg hn, if_neg hn]
      exact hpointer hsrc

/-! ### Panic freedom -/

/-- A program of the host returns or fails, as the canonical ABI asks. -/
def Agrees {α : Type} (m r : Lift σ α) (s : σ) : Prop := (m s).1.isPanic = false ∧ m s = r s

theorem agrees_iff {α : Type} {K : Prop} {m r : Lift σ α} {s : σ} (h : PanicsUnless K m r s) :
    Agrees m r s ↔ K := by
  constructor
  · exact fun hm => h.same_iff.1 hm.2
  · intro hK
    refine ⟨?_, h.same hK⟩
    rw [h.same hK]
    exact h.safe

def emptyCx : Cx Unit Unit where
  memory := []
  encoding := .utf8
  handle := fun _ _ => Prog.err "unknown handle index"
  decodeUtf8 := fun _ => .ok ""
  decodeUtf16 := fun _ => .ok ""
  decodeLatin1 := fun _ => ""

end Wasmtime.Component
