import Wasmtime.Environ.InterfaceTypes
import Mathlib.Tactic

/-!
# Interface types as trees

An interface type with the types that its indices stand for, and its canonical ABI: size and
alignment in a memory whose pointers have `p` bytes, and the number of core values, as in
`CanonicalAbiInfo`, `VariantInfo` and `FlagsSize`. The validator keeps sizes far below `2 ^ 32`, so
they do not wrap.

* `InterfaceType.induct`: induction over a type, with the hypothesis for every field and case.
* `Abi.Aligned`: the alignment of every type is a power of two and divides its size.
-/

namespace Wasmtime.Component

open List Option

open Environ (DiscriminantSize FlagsSize addFlat maxFlat)

inductive Scalar where
  | bool | s8 | u8 | s16 | u16 | s32 | u32 | s64 | u64 | float32 | float64 | char
deriving DecidableEq

/-- The types that are passed as an index into a table of the instance. -/
inductive Handle where
  | own (table : Nat)
  | borrow (table : Nat)
  | future (table : Nat)
  | stream (table : Nat)
  | errorContext (table : Nat)
deriving DecidableEq

inductive InterfaceType where
  | scalar (s : Scalar)
  | string
  | handle (h : Handle)
  | list (element : InterfaceType)
  | record (fields : List (String × InterfaceType))
  | tuple (types : List InterfaceType)
  | variant (cases : List (String × Option InterfaceType))
  | enum (names : List String)
  | option (ty : InterfaceType)
  | result (ok err : Option InterfaceType)
  | flags (names : List String)

namespace InterfaceType

theorem induct {P : InterfaceType → Prop} (scalar : ∀ s, P (.scalar s)) (string : P .string)
    (handle : ∀ h, P (.handle h)) (list : ∀ t, P t → P (.list t))
    (record : ∀ fields, (∀ f ∈ fields, P f.2) → P (.record fields))
    (tuple : ∀ types, (∀ t ∈ types, P t) → P (.tuple types))
    (variant : ∀ cases, (∀ c ∈ cases, ∀ t, c.2 = some t → P t) → P (.variant cases))
    (enum : ∀ names, P (.enum names)) (option : ∀ t, P t → P (.option t))
    (result : ∀ ok err, (∀ t, ok = some t → P t) → (∀ t, err = some t → P t) → P (.result ok err))
    (flags : ∀ names, P (.flags names)) : ∀ t, P t
  | .scalar s => scalar s
  | .string => string
  | .handle h => handle h
  | .list t => list t (induct scalar string handle list record tuple variant enum option result
      flags t)
  | .record fields => record fields fun f hf =>
      have : sizeOf f.2 < 1 + sizeOf fields := by
        have := sizeOf_lt_of_mem hf
        cases f
        simp only [Prod.mk.sizeOf_spec] at this ⊢
        omega
      induct scalar string handle list record tuple variant enum option result flags f.2
  | .tuple types => tuple types fun t ht =>
      have := sizeOf_lt_of_mem ht
      induct scalar string handle list record tuple variant enum option result flags t
  | .variant cases => variant cases fun c hc t ht =>
      have : sizeOf t < 1 + sizeOf cases := by
        have := sizeOf_lt_of_mem hc
        obtain ⟨n, o⟩ := c
        subst ht
        simp only [Prod.mk.sizeOf_spec, Option.some.sizeOf_spec] at this ⊢
        omega
      induct scalar string handle list record tuple variant enum option result flags t
  | .enum names => enum names
  | .option t => option t (induct scalar string handle list record tuple variant enum option
      result flags t)
  | .result ok err => result ok err
      (fun t ht =>
        have : sizeOf t < 1 + sizeOf ok + sizeOf err := by
          subst ht
          simp only [Option.some.sizeOf_spec]
          omega
        induct scalar string handle list record tuple variant enum option result flags t)
      (fun t ht =>
        have : sizeOf t < 1 + sizeOf ok + sizeOf err := by
          subst ht
          simp only [Option.some.sizeOf_spec]
          omega
        induct scalar string handle list record tuple variant enum option result flags t)
  | .flags names => flags names
termination_by t => sizeOf t
decreasing_by all_goals (simp_wf; try omega)

mutual

def same : InterfaceType → InterfaceType → Bool
  | .scalar s, .scalar t => s = t
  | .string, .string => true
  | .handle h, .handle g => h = g
  | .list a, .list b => a.same b
  | .record fs, .record gs => sameFields fs gs
  | .tuple ts, .tuple us => sameTypes ts us
  | .variant cs, .variant ds => sameCases cs ds
  | .enum ns, .enum ms => ns = ms
  | .option a, .option b => a.same b
  | .result a b, .result c d => samePayload a c && samePayload b d
  | .flags ns, .flags ms => ns = ms
  | _, _ => false

def samePayload : Option InterfaceType → Option InterfaceType → Bool
  | none, none => true
  | some a, some b => a.same b
  | _, _ => false

def sameTypes : List InterfaceType → List InterfaceType → Bool
  | [], [] => true
  | a :: as, b :: bs => a.same b && sameTypes as bs
  | _, _ => false

def sameFields : List (String × InterfaceType) → List (String × InterfaceType) → Bool
  | [], [] => true
  | (n, a) :: as, (m, b) :: bs => n = m && a.same b && sameFields as bs
  | _, _ => false

def sameCases : List (String × Option InterfaceType) → List (String × Option InterfaceType) → Bool
  | [], [] => true
  | (n, a) :: as, (m, b) :: bs => n = m && samePayload a b && sameCases as bs
  | _, _ => false

end

theorem samePayload_iff {a b : Option InterfaceType}
    (h : ∀ t, a = some t → ∀ u, t.same u = true ↔ t = u) : samePayload a b = true ↔ a = b := by
  cases a with
  | none => cases b <;> simp [samePayload]
  | some t => cases b <;> simp [samePayload, h t rfl]

theorem sameTypes_iff {as bs : List InterfaceType}
    (h : ∀ t ∈ as, ∀ u, t.same u = true ↔ t = u) : sameTypes as bs = true ↔ as = bs := by
  induction as generalizing bs with
  | nil => cases bs <;> simp [sameTypes]
  | cons t as ih =>
    cases bs with
    | nil => simp [sameTypes]
    | cons u bs =>
      have ih' : sameTypes as bs = true ↔ as = bs := ih fun t' ht' => h t' (mem_cons_of_mem _ ht')
      simp [sameTypes, h t mem_cons_self u, ih']

theorem sameFields_iff {as bs : List (String × InterfaceType)}
    (h : ∀ f ∈ as, ∀ u, f.2.same u = true ↔ f.2 = u) : sameFields as bs = true ↔ as = bs := by
  induction as generalizing bs with
  | nil => cases bs <;> simp [sameFields]
  | cons f as ih =>
    obtain ⟨n, t⟩ := f
    cases bs with
    | nil => simp [sameFields]
    | cons g bs =>
      obtain ⟨m, u⟩ := g
      have hu : t.same u = true ↔ t = u := h _ mem_cons_self u
      have ih' : sameFields as bs = true ↔ as = bs := ih fun f' hf' => h f' (mem_cons_of_mem _ hf')
      simp [sameFields, hu, ih']

theorem sameCases_iff {as bs : List (String × Option InterfaceType)}
    (h : ∀ c ∈ as, ∀ t, c.2 = some t → ∀ u, t.same u = true ↔ t = u) :
    sameCases as bs = true ↔ as = bs := by
  induction as generalizing bs with
  | nil => cases bs <;> simp [sameCases]
  | cons c as ih =>
    obtain ⟨n, t⟩ := c
    cases bs with
    | nil => simp [sameCases]
    | cons d bs =>
      obtain ⟨m, u⟩ := d
      have hu := samePayload_iff (b := u) (h _ mem_cons_self)
      have ih' : sameCases as bs = true ↔ as = bs := ih fun c' hc' => h c' (mem_cons_of_mem _ hc')
      simp [sameCases, hu, ih']

theorem same_iff (a b : InterfaceType) : a.same b = true ↔ a = b := by
  induction a using induct generalizing b with
  | scalar s | string | handle h | enum names | flags names => cases b <;> simp [same]
  | list t ih | option t ih => cases b <;> simp [same, ih]
  | record fields ih => cases b <;> simp [same, sameFields_iff ih]
  | tuple types ih => cases b <;> simp [same, sameTypes_iff ih]
  | variant cases ih =>
    cases b with
    | variant ds => simp [same, sameCases_iff ih]
    | _ => simp [same]
  | result ok err ihok iherr =>
    cases b <;> simp [same, samePayload_iff ihok, samePayload_iff iherr]

instance : DecidableEq InterfaceType := fun a b => decidable_of_iff _ (same_iff a b)

end InterfaceType

/-! ### Sizes -/

def Scalar.size : Scalar → Nat
  | .bool | .s8 | .u8 => 1
  | .s16 | .u16 => 2
  | .s32 | .u32 | .float32 | .char => 4
  | .s64 | .u64 | .float64 => 8

/-- `align_to`, whose mask is this for a power of two. -/
def alignTo (a b : Nat) : Nat := (a + b - 1) / b * b

/-- `FlagsSize::from_count`: with more than 255 words there is no such type. -/
def flagsSize (count : Nat) : FlagsSize :=
  if count = 0 then .size0
  else if count ≤ 8 then .size1
  else if count ≤ 16 then .size2
  else .size4Plus ((count + 31) / 32)

/-- `DiscriminantSize::from_count`: with more cases than a `u32` counts there is no such type. -/
def discriminantSize (count : Nat) : DiscriminantSize :=
  if count ≤ 0xFF then .size1
  else if count ≤ 0xFFFF then .size2
  else .size4

def discriminantBytes : DiscriminantSize → Nat
  | .size1 => 1
  | .size2 => 2
  | .size4 => 4

structure Abi where
  size : Nat
  align : Nat
  flatCount : Option Nat

namespace Abi

def scalar (size : Nat) : Abi := ⟨size, size, some 1⟩

def pointerPair (p : Nat) : Abi := ⟨2 * p, p, some 2⟩

def addField (ret field : Abi) : Abi where
  size := alignTo ret.size field.align + field.size
  align := max ret.align field.align
  flatCount := addFlat ret.flatCount field.flatCount

def record (fields : List Abi) : Abi :=
  let ret := fields.foldl addField ⟨0, 1, some 0⟩
  { ret with size := alignTo ret.size ret.align }

def flags (count : Nat) : Abi :=
  match flagsSize count with
  | .size0 => ⟨0, 1, some 0⟩
  | .size1 => ⟨1, 1, some 1⟩
  | .size2 => ⟨2, 2, some 1⟩
  | .size4Plus n => ⟨n * 4, 4, some n⟩

def addCase (maxima : Abi) : Option Abi → Abi
  | some case => ⟨max maxima.size case.size, max maxima.align case.align,
      maxFlat maxima.flatCount case.flatCount⟩
  | none => maxima

def maxima (cases : List (Option Abi)) : Abi :=
  let discrim := discriminantBytes (discriminantSize cases.length)
  cases.foldl addCase ⟨0, discrim, some 0⟩

def payloadOffset (cases : List (Option Abi)) : Nat :=
  alignTo (discriminantBytes (discriminantSize cases.length)) (maxima cases).align

def variant (cases : List (Option Abi)) : Abi :=
  let m := maxima cases
  ⟨alignTo (payloadOffset cases + m.size) m.align, m.align, addFlat m.flatCount (some 1)⟩

end Abi

namespace InterfaceType

mutual

/-- `canonical_abi`, in a memory whose pointers have `p` bytes. -/
def abi (p : Nat) : InterfaceType → Abi
  | .scalar s => .scalar s.size
  | .string => .pointerPair p
  | .handle _ => .scalar 4
  | .list _ => .pointerPair p
  | .record fields => .record (fieldAbis p fields)
  | .tuple types => .record (abis p types)
  | .variant cases => .variant (caseAbis p cases)
  | .enum names => .variant (names.map fun _ => none)
  | .option ty => .variant [none, some (ty.abi p)]
  | .result ok err => .variant [payloadAbi p ok, payloadAbi p err]
  | .flags names => .flags names.length

def payloadAbi (p : Nat) : Option InterfaceType → Option Abi
  | none => none
  | some ty => some (ty.abi p)

def abis (p : Nat) : List InterfaceType → List Abi
  | [] => []
  | ty :: types => ty.abi p :: abis p types

def fieldAbis (p : Nat) : List (String × InterfaceType) → List Abi
  | [] => []
  | (_, ty) :: fields => ty.abi p :: fieldAbis p fields

def caseAbis (p : Nat) : List (String × Option InterfaceType) → List (Option Abi)
  | [] => []
  | (_, ty) :: cases => payloadAbi p ty :: caseAbis p cases

end

theorem payloadAbi_eq (p : Nat) (ty : Option InterfaceType) :
    payloadAbi p ty = ty.map (abi p) := by
  cases ty with
  | none => simp only [payloadAbi, map_none]
  | some ty => simp only [payloadAbi, map_some]

/-- The functions on the children of a type, which recurse with it, are maps. -/
theorem eq_map {α β : Type} {g : List α → List β} {f : α → β} (hnil : g [] = [])
    (hcons : ∀ a l, g (a :: l) = f a :: g l) (l : List α) : g l = l.map f := by
  induction l with
  | nil => exact hnil
  | cons a l ih => rw [hcons, ih, map_cons]

theorem abis_eq (p : Nat) (types : List InterfaceType) : abis p types = types.map (abi p) :=
  eq_map (by rw [abis]) (fun _ _ => by rw [abis]) types

theorem fieldAbis_eq (p : Nat) (fields : List (String × InterfaceType)) :
    fieldAbis p fields = fields.map fun f => f.2.abi p :=
  eq_map (by rw [fieldAbis]) (fun _ _ => by rw [fieldAbis]) fields

theorem caseAbis_eq (p : Nat) (cases : List (String × Option InterfaceType)) :
    caseAbis p cases = cases.map fun c => c.2.map (abi p) :=
  eq_map (by rw [caseAbis]) (fun _ _ => by rw [caseAbis, payloadAbi_eq]) cases

end InterfaceType

/-! ### Alignments -/

theorem dvd_alignTo (a b : Nat) : b ∣ alignTo a b := Dvd.intro_left _ rfl

theorem le_alignTo (a : Nat) {b : Nat} (hb : 0 < b) : a ≤ alignTo a b := by
  unfold alignTo
  have h := Nat.div_add_mod (a + b - 1) b
  have hmod := Nat.mod_lt (a + b - 1) hb
  have hcomm := Nat.mul_comm b ((a + b - 1) / b)
  omega

namespace Abi

/-- The alignment is a power of two, and the size is a multiple of it. -/
structure Aligned (abi : Abi) : Prop where
  pow : ∃ k, abi.align = 2 ^ k
  dvd : abi.align ∣ abi.size

theorem Aligned.pos {abi : Abi} (h : abi.Aligned) : 0 < abi.align := by
  obtain ⟨k, hk⟩ := h.pow
  rw [hk]
  exact Nat.two_pow_pos k

theorem max_pow {a b : Nat} (ha : ∃ k, a = 2 ^ k) (hb : ∃ k, b = 2 ^ k) :
    (∃ k, max a b = 2 ^ k) ∧ a ∣ max a b ∧ b ∣ max a b := by
  obtain ⟨j, rfl⟩ := ha
  obtain ⟨k, rfl⟩ := hb
  rcases Nat.le_total j k with h | h
  · have hle := Nat.pow_le_pow_right (show 0 < 2 by omega) h
    rw [Nat.max_eq_right hle]
    exact ⟨⟨k, rfl⟩, Nat.pow_dvd_pow 2 h, dvd_rfl⟩
  · have hle := Nat.pow_le_pow_right (show 0 < 2 by omega) h
    rw [Nat.max_eq_left hle]
    exact ⟨⟨j, rfl⟩, dvd_rfl, Nat.pow_dvd_pow 2 h⟩

theorem foldl_addField_align {fields : List Abi} (h : ∀ f ∈ fields, f.Aligned) {r : Abi}
    (hr0 : ∃ k, r.align = 2 ^ k) :
    (∃ k, (fields.foldl addField r).align = 2 ^ k) ∧ r.align ∣ (fields.foldl addField r).align ∧
      ∀ f ∈ fields, f.align ∣ (fields.foldl addField r).align := by
  induction fields generalizing r with
  | nil => exact ⟨hr0, dvd_rfl, fun f hf => absurd hf not_mem_nil⟩
  | cons f fields ih =>
    rw [foldl_cons]
    obtain ⟨hpow, hl, hr⟩ := max_pow hr0 (h f mem_cons_self).pow
    obtain ⟨ih1, ih2, ih3⟩ := ih (r := r.addField f) (fun g hg => h g (mem_cons_of_mem _ hg)) hpow
    refine ⟨ih1, hl.trans ih2, fun g hg => ?_⟩
    rcases mem_cons.1 hg with rfl | hg
    · exact hr.trans ih2
    · exact ih3 g hg

theorem record_aligned {fields : List Abi} (h : ∀ f ∈ fields, f.Aligned) :
    (record fields).Aligned ∧ ∀ f ∈ fields, f.align ∣ (record fields).align := by
  obtain ⟨hpow, -, hdvd⟩ := foldl_addField_align h (r := ⟨0, 1, some 0⟩) ⟨0, rfl⟩
  exact ⟨⟨hpow, dvd_alignTo _ _⟩, hdvd⟩

theorem discriminantBytes_pow (d : DiscriminantSize) : ∃ k, discriminantBytes d = 2 ^ k := by
  cases d with
  | size1 => exact ⟨0, rfl⟩
  | size2 => exact ⟨1, rfl⟩
  | size4 => exact ⟨2, rfl⟩

theorem foldl_addCase_align {cases : List (Option Abi)} (h : ∀ c, some c ∈ cases → c.Aligned)
    {m : Abi} (hm : ∃ k, m.align = 2 ^ k) :
    (∃ k, (cases.foldl addCase m).align = 2 ^ k) ∧ m.align ∣ (cases.foldl addCase m).align ∧
      m.size ≤ (cases.foldl addCase m).size ∧
      ∀ c, some c ∈ cases → c.align ∣ (cases.foldl addCase m).align ∧
        c.size ≤ (cases.foldl addCase m).size := by
  induction cases generalizing m with
  | nil => exact ⟨hm, dvd_rfl, le_rfl, fun c hc => absurd hc not_mem_nil⟩
  | cons o cases ih =>
    have htail := fun c hc => h c (mem_cons_of_mem o hc)
    rw [foldl_cons]
    cases o with
    | none =>
      obtain ⟨ih1, ih2, ih3, ih4⟩ := ih htail hm
      refine ⟨ih1, ih2, ih3, fun c hc => ?_⟩
      rcases mem_cons.1 hc with hc | hc
      · cases hc
      · exact ih4 c hc
    | some a =>
      obtain ⟨hpow, hl, hr⟩ := max_pow hm (h a mem_cons_self).pow
      obtain ⟨ih1, ih2, ih3, ih4⟩ := ih (m := addCase m (some a)) htail hpow
      refine ⟨ih1, hl.trans ih2, (Nat.le_max_left _ _).trans ih3, fun c hc => ?_⟩
      rcases mem_cons.1 hc with hc | hc
      · cases hc
        exact ⟨hr.trans ih2, (Nat.le_max_right _ _).trans ih3⟩
      · exact ih4 c hc

/-- What the discriminant and the payload of a variant need of its place. -/
theorem variant_aligned {cases : List (Option Abi)} (h : ∀ c, some c ∈ cases → c.Aligned) :
    (variant cases).Aligned ∧
      discriminantBytes (discriminantSize cases.length) ∣ (variant cases).align ∧
      discriminantBytes (discriminantSize cases.length) ≤ (variant cases).size ∧
      ∀ c, some c ∈ cases → c.align ∣ (variant cases).align ∧ c.align ∣ payloadOffset cases ∧
        payloadOffset cases + c.size ≤ (variant cases).size := by
  obtain ⟨hpow, hdisc, -, hcases⟩ := foldl_addCase_align h
    (m := ⟨0, discriminantBytes (discriminantSize cases.length), some 0⟩)
    (discriminantBytes_pow _)
  have hpos : 0 < (maxima cases).align := by
    obtain ⟨k, hk⟩ := hpow
    unfold maxima
    rw [hk]
    exact Nat.two_pow_pos k
  have hend : payloadOffset cases + (maxima cases).size ≤ (variant cases).size := le_alignTo _ hpos
  have hoff : discriminantBytes (discriminantSize cases.length) ≤ payloadOffset cases :=
    le_alignTo _ hpos
  refine ⟨⟨hpow, dvd_alignTo _ _⟩, hdisc, by omega, fun c hc => ?_⟩
  obtain ⟨halign, hsize⟩ := hcases c hc
  refine ⟨halign, halign.trans (dvd_alignTo _ _), ?_⟩
  have : c.size ≤ (maxima cases).size := hsize
  omega

theorem flags_aligned (count : Nat) : (flags count).Aligned := by
  unfold flags
  split
  · exact ⟨⟨0, rfl⟩, ⟨0, rfl⟩⟩
  · exact ⟨⟨0, rfl⟩, ⟨1, rfl⟩⟩
  · exact ⟨⟨1, rfl⟩, ⟨1, rfl⟩⟩
  · exact ⟨⟨2, rfl⟩, Dvd.intro_left _ rfl⟩

end Abi

theorem Scalar.size_pow (s : Scalar) : ∃ k, s.size = 2 ^ k := by
  cases s <;> first | exact ⟨0, rfl⟩ | exact ⟨1, rfl⟩ | exact ⟨2, rfl⟩ | exact ⟨3, rfl⟩

/-- **The size of every type is a multiple of its alignment**, a power of two. -/
theorem InterfaceType.abi_aligned {p : Nat} (hp : ∃ k, p = 2 ^ k) (t : InterfaceType) :
    (t.abi p).Aligned := by
  have hpair : (Abi.pointerPair p).Aligned := ⟨hp, Dvd.intro_left _ rfl⟩
  induction t using InterfaceType.induct with
  | scalar s => simpa only [abi] using (⟨s.size_pow, dvd_rfl⟩ : (Abi.scalar s.size).Aligned)
  | string => simpa only [abi] using hpair
  | handle h => simpa only [abi] using (⟨⟨2, rfl⟩, dvd_rfl⟩ : (Abi.scalar 4).Aligned)
  | list t ih => simpa only [abi] using hpair
  | record fields ih =>
    simp only [abi, fieldAbis_eq]
    refine (Abi.record_aligned fun a ha => ?_).1
    obtain ⟨f, hf, rfl⟩ := mem_map.1 ha
    exact ih f hf
  | tuple types ih =>
    simp only [abi, abis_eq]
    refine (Abi.record_aligned fun a ha => ?_).1
    obtain ⟨t, ht, rfl⟩ := mem_map.1 ha
    exact ih t ht
  | variant cases ih =>
    simp only [abi, caseAbis_eq]
    refine (Abi.variant_aligned fun a ha => ?_).1
    obtain ⟨c, hc, heq⟩ := mem_map.1 ha
    obtain ⟨t, ht, rfl⟩ := map_eq_some_iff.1 heq
    exact ih c hc t ht
  | enum names =>
    refine (Abi.variant_aligned fun a ha => ?_).1
    obtain ⟨n, -, heq⟩ := mem_map.1 ha
    cases heq
  | option t ih =>
    refine (Abi.variant_aligned fun a ha => ?_).1
    rcases mem_cons.1 ha with ha | ha
    · cases ha
    · cases mem_singleton.1 ha
      exact ih
  | result ok err ihok iherr =>
    simp only [abi, payloadAbi_eq]
    refine (Abi.variant_aligned fun a ha => ?_).1
    rcases mem_cons.1 ha with ha | ha
    · obtain ⟨t, ht, rfl⟩ := map_eq_some_iff.1 ha.symm
      exact ihok t ht
    · obtain ⟨t, ht, rfl⟩ := map_eq_some_iff.1 (mem_singleton.1 ha).symm
      exact iherr t ht
  | flags names => simpa only [abi] using Abi.flags_aligned names.length

/-! ### Offsets of fields -/

/-- The offsets at which `next_field32` and `next_field64` put the fields of a record. -/
def fieldOffsets (offset : Nat) : List Abi → List Nat
  | [] => []
  | field :: fields =>
    alignTo offset field.align :: fieldOffsets (alignTo offset field.align + field.size) fields

variable {fields : List Abi}

theorem size_le_foldl_addField (h : ∀ f ∈ fields, f.Aligned) (r : Abi) :
    r.size ≤ (fields.foldl Abi.addField r).size := by
  induction fields generalizing r with
  | nil => exact le_rfl
  | cons f fields ih =>
    rw [foldl_cons]
    refine le_trans ?_ (ih (fun g hg => h g (mem_cons_of_mem _ hg)) _)
    have := le_alignTo r.size (h f mem_cons_self).pos
    have : (r.addField f).size = alignTo r.size f.align + f.size := rfl
    omega

/-- A field is at a multiple of its alignment, and ends before the record does. -/
theorem mem_zip_fieldOffsets (h : ∀ f ∈ fields, f.Aligned) {r f : Abi} {o : Nat}
    (hf : (f, o) ∈ fields.zip (fieldOffsets r.size fields)) :
    f.align ∣ o ∧ r.size ≤ o ∧ o + f.size ≤ (fields.foldl Abi.addField r).size := by
  induction fields generalizing r with
  | nil => exact absurd hf not_mem_nil
  | cons g fields ih =>
    have htail := fun x hx => h x (mem_cons_of_mem g hx)
    have hle := le_alignTo r.size (h g mem_cons_self).pos
    have hsize : (r.addField g).size = alignTo r.size g.align + g.size := rfl
    rw [foldl_cons]
    rw [fieldOffsets, zip_cons_cons] at hf
    rcases mem_cons.1 hf with heq | hf
    · obtain ⟨rfl, rfl⟩ := Prod.mk.inj heq
      have := size_le_foldl_addField htail (r.addField f)
      exact ⟨dvd_alignTo _ _, hle, by omega⟩
    · obtain ⟨h1, h2, h3⟩ := ih htail (r := r.addField g) hf
      exact ⟨h1, by omega, h3⟩

theorem mem_zip_record (h : ∀ f ∈ fields, f.Aligned) {f : Abi} {o : Nat}
    (hf : (f, o) ∈ fields.zip (fieldOffsets 0 fields)) :
    f.align ∣ o ∧ o + f.size ≤ (Abi.record fields).size := by
  obtain ⟨h1, -, h3⟩ := mem_zip_fieldOffsets h (r := ⟨0, 1, some 0⟩) hf
  refine ⟨h1, h3.trans ?_⟩
  obtain ⟨⟨k, hk⟩, -, -⟩ := Abi.foldl_addField_align h (r := ⟨0, 1, some 0⟩) ⟨0, rfl⟩
  refine le_alignTo _ ?_
  rw [hk]
  exact Nat.two_pow_pos k

end Wasmtime.Component
