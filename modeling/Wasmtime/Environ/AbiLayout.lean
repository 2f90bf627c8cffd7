import Wasmtime.Component.Types
import Wasmtime.Environ.GcLayout
import Mathlib.Data.List.ReduceOption

/-!
# Records and variants in memory

The offsets of the fields of a record come from `next_field32` and `next_field64`, its size from
`record`; those of a variant from `VariantInfo::new`. All add `u32`s that may wrap. A `Lane` is one
of the two sizes of memory.

* `record_isSome_iff`, `variant_isSome_iff`: a layout is computed unless `align_to` asserts.
* `laidOut_iff`: the fields of a record lie apart and within its size exactly if the size, computed
  without wrapping, is a `u32`.
* `holds_iff`: the same for the payloads of a variant.
-/

namespace Wasmtime.Environ

open List Component Nat

namespace CanonicalAbiInfo

/-! ### The functions -/

def nextField (size align offset : UInt32) : Option (UInt32 × UInt32) := do
  let offset := (← alignTo offset align) + size
  pure (offset - size, offset)

def nextField32 (self : CanonicalAbiInfo) : UInt32 → Option (UInt32 × UInt32) :=
  nextField self.size32 self.align32

def nextField64 (self : CanonicalAbiInfo) : UInt32 → Option (UInt32 × UInt32) :=
  nextField self.size64 self.align64

def walk (next : CanonicalAbiInfo → UInt32 → Option (UInt32 × UInt32)) (offset : UInt32) :
    List CanonicalAbiInfo → Option (List UInt32)
  | [] => some []
  | f :: fields => do
    let (o, offset) ← next f offset
    let os ← walk next offset fields
    pure (o :: os)

def constMax (a b : UInt32) : UInt32 := if a > b then a else b

def recordStaticLoop (fields : List CanonicalAbiInfo) (ret : CanonicalAbiInfo) (i : Nat) :
    Option CanonicalAbiInfo :=
  if h : i < fields.length then do
    let field := fields[i]
    let offset32 ← alignTo ret.size32 field.align32
    let offset64 ← alignTo ret.size64 field.align64
    recordStaticLoop fields {
      size32 := offset32 + field.size32
      align32 := constMax ret.align32 field.align32
      size64 := offset64 + field.size64
      align64 := constMax ret.align64 field.align64
      flatCount := addFlat ret.flatCount field.flatCount } (i + 1)
  else
    pure ret
termination_by fields.length - i

def recordStatic (fields : List CanonicalAbiInfo) : Option CanonicalAbiInfo := do
  let ret ← recordStaticLoop fields zero 0
  let size32 ← alignTo ret.size32 ret.align32
  let size64 ← alignTo ret.size64 ret.align64
  pure { ret with size32, size64 }

def variantStaticLoop (cases : List (Option CanonicalAbiInfo)) (maxima : CanonicalAbiInfo)
    (i : Nat) : CanonicalAbiInfo :=
  if h : i < cases.length then
    match cases[i] with
    | some case => variantStaticLoop cases {
        size32 := constMax maxima.size32 case.size32
        align32 := constMax maxima.align32 case.align32
        size64 := constMax maxima.size64 case.size64
        align64 := constMax maxima.align64 case.align64
        flatCount := maxFlat maxima.flatCount case.flatCount } (i + 1)
    | none => variantStaticLoop cases maxima (i + 1)
  else
    maxima
termination_by cases.length - i

def variantStatic (cases : List (Option CanonicalAbiInfo)) : Option CanonicalAbiInfo := do
  let discrimSize := (← DiscriminantSize.fromCount cases.length).byteSize
  let maxima := variantStaticLoop cases ⟨0, discrimSize, 0, discrimSize, some 0⟩ 0
  let payload32 ← alignTo discrimSize maxima.align32
  let size32 ← alignTo (payload32 + maxima.size32) maxima.align32
  let payload64 ← alignTo discrimSize maxima.align64
  let size64 ← alignTo (payload64 + maxima.size64) maxima.align64
  pure {
    size32
    align32 := maxima.align32
    size64
    align64 := maxima.align64
    flatCount := addFlat maxima.flatCount (some 1) }

/-! ### The copies for constants -/

theorem constMax_eq (a b : UInt32) : constMax a b = max a b := by
  unfold constMax
  rw [UInt32.max_def]
  split <;> split <;> simp_all [UInt32.lt_iff_toNat_lt, UInt32.le_iff_toNat_le,
    ← UInt32.toNat_inj]
  omega

theorem recordStaticLoop_eq (fields : List CanonicalAbiInfo) (ret : CanonicalAbiInfo) (i : Nat) :
    recordStaticLoop fields ret i = (fields.drop i).foldlM addField ret := by
  fun_induction recordStaticLoop fields ret i with
  | case1 ret i h field ih =>
    simp only [ih]
    simp only [drop_eq_getElem_cons h, foldlM_cons, constMax_eq, addField, bind_assoc, pure_bind,
      field]
  | case2 ret i h => rw [drop_eq_nil_of_le (Nat.le_of_not_lt h), foldlM_nil]

theorem recordStatic_eq (fields : List CanonicalAbiInfo) : recordStatic fields = record fields := by
  rw [recordStatic, recordStaticLoop_eq, drop_zero, record]

theorem variantStaticLoop_eq (cases : List (Option CanonicalAbiInfo)) (maxima : CanonicalAbiInfo)
    (i : Nat) : variantStaticLoop cases maxima i = (cases.drop i).foldl addCase maxima := by
  fun_induction variantStaticLoop cases maxima i with
  | case1 maxima i h case hcase ih =>
    rw [ih, drop_eq_getElem_cons h, foldl_cons, hcase]
    simp only [constMax_eq, addCase]
  | case2 maxima i h hcase ih => rw [ih, drop_eq_getElem_cons h, foldl_cons, hcase, addCase]
  | case3 maxima i h => rw [drop_eq_nil_of_le (Nat.le_of_not_lt h), foldl_nil]

theorem variantStatic_eq (cases : List (Option CanonicalAbiInfo)) :
    variantStatic cases = variant cases := by
  simp only [variantStatic, variant, variantStaticLoop_eq, drop_zero]

end CanonicalAbiInfo

/-! ### Rounding up -/

theorem dvd_of_isPowerOfTwo {a b : Nat} (ha : a.isPowerOfTwo) (hb : b.isPowerOfTwo) (h : a ≤ b) :
    a ∣ b := by
  have hdvd := (Abi.max_pow ha hb).2.1
  rwa [max_eq_right h] at hdvd

theorem alignTo_le {a b t : Nat} (hb : 0 < b) (hdvd : b ∣ t) (h : a ≤ t) :
    Component.alignTo a b ≤ t := by
  obtain ⟨m, rfl⟩ := hdvd
  unfold Component.alignTo
  rw [Nat.mul_comm b]
  refine Nat.mul_le_mul_right b (Nat.lt_succ_iff.1 ((Nat.div_lt_iff_lt_mul hb).2 ?_))
  rw [succ_mul, Nat.mul_comm]
  omega

theorem toNat_sub_one {b : UInt32} (hb : b ≠ 0) : (b - 1).toNat = b.toNat - 1 := by
  have hne : b.toNat ≠ 0 := fun h => hb (UInt32.toNat_inj.1 h)
  exact UInt32.toNat_sub_of_le b 1 (UInt32.le_iff_toNat_le.2 (one_le_iff_ne_zero.2 hne))

/-- The assertion of `align_to`. -/
theorem powerOfTwo_iff {b : UInt32} : b ≠ 0 ∧ b &&& (b - 1) = 0 ↔ b.toNat.isPowerOfTwo := by
  by_cases hb : b = 0
  · refine iff_of_false (fun h => h.1 hb) fun h => ?_
    rw [hb] at h
    exact absurd (Nat.pos_of_isPowerOfTwo h) (lt_irrefl 0)
  · have hne : b.toNat ≠ 0 := fun h => hb (UInt32.toNat_inj.1 h)
    rw [← Nat.and_sub_one_eq_zero_iff_isPowerOfTwo hne, ← toNat_sub_one hb, ← UInt32.toNat_and]
    exact ⟨fun h => congrArg UInt32.toNat h.2, fun h => ⟨hb, UInt32.toNat_inj.1 h⟩⟩

theorem exists_alignTo (a : UInt32) {b : UInt32} (hb : b.toNat.isPowerOfTwo) :
    ∃ c, alignTo a b = some c := ⟨_, if_pos (powerOfTwo_iff.2 hb)⟩

theorem alignTo_some {a b c : UInt32} (h : alignTo a b = some c) : b.toNat.isPowerOfTwo ∧
    b.toNat ∣ 2 ^ 32 ∧ c.toNat = Component.alignTo a.toNat b.toNat % 2 ^ 32 := by
  unfold alignTo at h
  split at h
  · next hb =>
    cases h
    have hsub := toNat_sub_one hb.1
    obtain ⟨k, hk⟩ := powerOfTwo_iff.1 hb
    have hlt := b.toNat_lt
    rw [hk, Nat.pow_lt_pow_iff_right (by omega)] at hlt
    have hdvd : 2 ^ 32 = 2 ^ k * 2 ^ (32 - k) := by rw [← Nat.pow_add, Nat.add_sub_cancel' hlt.le]
    refine ⟨⟨k, hk⟩, ⟨2 ^ (32 - k), by rw [hk, hdvd]⟩, ?_⟩
    rw [UInt32.toNat_and, UInt32.toNat_not, UInt32.toNat_add, hsub, hk]
    rw [show UInt32.size = 2 ^ 32 from rfl, and_mask hlt.le (mod_lt _ (by omega))]
    unfold Component.alignTo
    rw [hdvd, Nat.mod_mul_right_div_self, ← Nat.mul_mod_mul_right, Nat.mul_comm (2 ^ (32 - k)),
      Nat.add_sub_assoc (Nat.two_pow_pos k)]
  · cases h

theorem alignTo_exact {a b c : UInt32} {t : Nat} (h : alignTo a b = some c) (ht : t < 2 ^ 32)
    (hdvd : b.toNat ∣ t) (hle : a.toNat ≤ t) : c.toNat = Component.alignTo a.toNat b.toNat := by
  obtain ⟨hpow, -, hc⟩ := alignTo_some h
  rwa [mod_eq_of_lt ((alignTo_le (Nat.pos_of_isPowerOfTwo hpow) hdvd hle).trans_lt ht)] at hc

/-! ### The two sizes of memory -/

structure Lane where
  size : CanonicalAbiInfo → UInt32
  align : CanonicalAbiInfo → UInt32
  next : CanonicalAbiInfo → UInt32 → Option (UInt32 × UInt32)
  payload : VariantInfo → UInt32

open CanonicalAbiInfo

def lanes : List Lane :=
  [⟨size32, align32, nextField32, (·.payloadOffset32)⟩,
    ⟨size64, align64, nextField64, (·.payloadOffset64)⟩]

namespace Lane

def endOf (l : Lane) (e : Nat) : List CanonicalAbiInfo → Nat
  | [] => e
  | f :: fields => l.endOf (Component.alignTo e (l.align f).toNat + (l.size f).toNat) fields

/-- The largest of these alignments, and at least `a`. -/
def maxAlign (l : Lane) (a : Nat) (abis : List CanonicalAbiInfo) : Nat :=
  abis.foldl (fun a abi => max a (l.align abi).toNat) a

/-- The largest alignment of a variant: that of its discriminant or of a payload. -/
def variantAlign (l : Lane) (cases : List (Option CanonicalAbiInfo)) : Nat :=
  l.maxAlign (discriminantBytes (discriminantSize cases.length)) cases.reduceOption

/-- The fields of the record `r` lie aligned and apart at these offsets, within its size. -/
structure LaidOut (l : Lane) (fields : List CanonicalAbiInfo) (os : List UInt32)
    (r : CanonicalAbiInfo) : Prop where
  length : os.length = fields.length
  aligned : ∀ x ∈ fields.zip os, (l.align x.1).toNat ∣ x.2.toNat
  within : ∀ x ∈ fields.zip os, x.2.toNat + (l.size x.1).toNat ≤ (l.size r).toNat
  apart : (fields.zip os).Pairwise fun x y =>
    x.2.toNat + (l.size x.1).toNat ≤ y.2.toNat ∨ y.2.toNat + (l.size y.1).toNat ≤ x.2.toNat
  multiple : (l.align r).toNat ∣ (l.size r).toNat

/-- The payload of every case lies aligned after the discriminant, within the variant's size. -/
structure Holds (l : Lane) (cases : List (Option CanonicalAbiInfo)) (info : VariantInfo)
    (abi : CanonicalAbiInfo) : Prop where
  discriminant : info.size.byteSize.toNat ≤ (l.payload info).toNat
  aligned : ∀ c, some c ∈ cases → (l.align c).toNat ∣ (l.payload info).toNat
  within : ∀ c, some c ∈ cases → (l.payload info).toNat + (l.size c).toNat ≤ (l.size abi).toNat

/-- The loop of `record` in one size of memory: the size and the alignment so far and at the end,
and the offsets of the fields. -/
inductive Walk (l : Lane) (s' a' : UInt32) :
    UInt32 → UInt32 → List CanonicalAbiInfo → List UInt32 → Prop
  | nil : Walk l s' a' s' a' [] []
  | cons {s a o f fields os} (ho : alignTo s (l.align f) = some o)
      (h : Walk l s' a' (o + l.size f) (max a (l.align f)) fields os) :
      Walk l s' a' s a (f :: fields) (o :: os)

variable {l : Lane} (hl : l ∈ lanes) {s a s' a' : UInt32} {fields : List CanonicalAbiInfo}
  {os : List UInt32} {r : CanonicalAbiInfo}

include hl in
theorem walk_of_foldlM {ret ret' : CanonicalAbiInfo} (h : fields.foldlM addField ret = some ret') :
    ∃ os, Walk l (l.size ret') (l.align ret') (l.size ret) (l.align ret) fields os := by
  induction fields generalizing ret with
  | nil =>
    cases h
    exact ⟨[], .nil⟩
  | cons f fields ih =>
    simp only [foldlM_cons, addField, Option.bind_eq_bind, Option.bind_eq_some_iff] at h
    obtain ⟨_, ⟨o32, h32, o64, h64, ⟨⟩⟩, hrest⟩ := h
    obtain ⟨os, hos⟩ := ih hrest
    rcases mem_pair.1 hl with rfl | rfl
    · exact ⟨o32 :: os, .cons h32 hos⟩
    · exact ⟨o64 :: os, .cons h64 hos⟩

include hl in
theorem record_ok (h : CanonicalAbiInfo.record fields = some r) :
    ∃ s os, Walk l s (l.align r) 0 1 fields os ∧ alignTo s (l.align r) = some (l.size r) := by
  simp only [CanonicalAbiInfo.record, Option.bind_eq_bind, Option.bind_eq_some_iff] at h
  obtain ⟨ret, hret, s32, h32, s64, h64, ⟨⟩⟩ := h
  obtain ⟨os, hos⟩ := walk_of_foldlM hl hret
  rcases mem_pair.1 hl with rfl | rfl
  · exact ⟨_, os, hos, h32⟩
  · exact ⟨_, os, hos, h64⟩

namespace Walk

include hl in
theorem run (h : Walk l s' a' s a fields os) :
    walk l.next s fields = some os ∧ os.length = fields.length := by
  induction h with
  | nil => exact ⟨rfl, rfl⟩
  | @cons s a o f fields os ho h ih =>
    have hnext : l.next f s = some (o, o + l.size f) := by
      have heq : l.next f s = nextField (l.size f) (l.align f) s := by
        rcases mem_pair.1 hl with rfl | rfl <;> rfl
      rw [heq, nextField, ho]
      exact congrArg (fun x => some (x, o + l.size f)) (UInt32.add_sub_cancel o (l.size f))
    rw [walk, hnext]
    simp [ih]

theorem aligns (h : Walk l s' a' s a fields os) : a.toNat ≤ a'.toNat ∧
    ∀ f ∈ fields, (l.align f).toNat.isPowerOfTwo ∧ (l.align f).toNat ≤ a'.toNat := by
  induction h with
  | nil => exact ⟨le_rfl, fun f hf => absurd hf not_mem_nil⟩
  | cons ho h ih =>
    rw [UInt32.toNat_max, max_le_iff] at ih
    exact ⟨ih.1.1, forall_mem_cons.2 ⟨⟨(alignTo_some ho).1, ih.1.2⟩, ih.2⟩⟩

theorem align_eq (h : Walk l s' a' s a fields os) : a'.toNat = l.maxAlign a.toNat fields := by
  induction h with
  | nil => rfl
  | cons ho h ih =>
    rw [UInt32.toNat_max] at ih
    exact ih

theorem endOf_le (h : Walk l s' a' s a fields os) {t : Nat} (ht : t < 2 ^ 32)
    (hdvd : ∀ f ∈ fields, (l.align f).toNat ∣ t) (hs : s.toNat ≤ t)
    (hends : ∀ x ∈ fields.zip os, x.2.toNat + (l.size x.1).toNat ≤ t) :
    l.endOf s.toNat fields ≤ t := by
  induction h with
  | nil => exact hs
  | cons ho h ih =>
    rw [zip_cons_cons, forall_mem_cons] at hends
    rw [forall_mem_cons] at hdvd
    have hnext := (UInt32.toNat_add _ _).trans (mod_eq_of_lt (hends.1.trans_lt ht))
    rw [endOf, ← alignTo_exact ho ht hdvd.1 hs, ← hnext]
    exact ih hdvd.2 (hnext.trans_le hends.1) hends.2

theorem le_endOf (h : Walk l s' a' s a fields os) (e : Nat) : e ≤ l.endOf e fields := by
  induction h generalizing e with
  | nil => exact le_rfl
  | cons ho h ih =>
    have hle := le_alignTo e (Nat.pos_of_isPowerOfTwo (alignTo_some ho).1)
    exact (hle.trans (Nat.le_add_right _ _)).trans (ih _)

theorem exact (h : Walk l s' a' s a fields os) (hend : l.endOf s.toNat fields < 2 ^ 32) :
    s'.toNat = l.endOf s.toNat fields ∧ (∀ x ∈ fields.zip os, (l.align x.1).toNat ∣ x.2.toNat ∧
      s.toNat ≤ x.2.toNat ∧ x.2.toNat + (l.size x.1).toNat ≤ s'.toNat) ∧
    (fields.zip os).Pairwise fun x y => x.2.toNat + (l.size x.1).toNat ≤ y.2.toNat := by
  induction h with
  | nil => exact ⟨rfl, fun x hx => absurd hx not_mem_nil, .nil⟩
  | @cons s a o f fields os ho h ih =>
    obtain ⟨hpow, -, ho'⟩ := alignTo_some ho
    have hs := le_alignTo s.toNat (Nat.pos_of_isPowerOfTwo hpow)
    rw [endOf] at hend ⊢
    have hle := h.le_endOf (Component.alignTo s.toNat (l.align f).toNat + (l.size f).toNat)
    rw [mod_eq_of_lt (by omega)] at ho'
    have hnext := (UInt32.toNat_add o (l.size f)).trans (mod_eq_of_lt (by omega))
    rw [← ho', ← hnext] at hend hle ⊢
    obtain ⟨heq, hall, hpair⟩ := ih hend
    rw [← heq, hnext] at hle
    rw [← ho'] at hs
    refine ⟨heq, forall_mem_cons.2 ⟨⟨ho' ▸ dvd_alignTo _ _, hs, hle⟩, fun x hx => ?_⟩,
      pairwise_cons.2 ⟨fun x hx => hnext ▸ (hall x hx).2.1, hpair⟩⟩
    exact ⟨(hall x hx).1, by have := (hall x hx).2.1; omega, (hall x hx).2.2⟩

end Walk

theorem isPowerOfTwo_maxAlign {n : Nat} (hn : n.isPowerOfTwo)
    (h : ∀ f ∈ fields, (l.align f).toNat.isPowerOfTwo) : (l.maxAlign n fields).isPowerOfTwo := by
  induction fields generalizing n with
  | nil => exact hn
  | cons f fields ih =>
    rw [forall_mem_cons] at h
    exact ih (Abi.max_pow hn h.1).1 h.2

theorem exists_foldlM (h : ∀ l ∈ lanes, ∀ f ∈ fields, (l.align f).toNat.isPowerOfTwo)
    (ret : CanonicalAbiInfo) : ∃ ret', fields.foldlM addField ret = some ret' := by
  induction fields generalizing ret with
  | nil => exact ⟨ret, rfl⟩
  | cons f fields ih =>
    obtain ⟨o32, h32⟩ := exists_alignTo ret.size32 (h _ (mem_pair.2 (.inl rfl)) f mem_cons_self)
    obtain ⟨o64, h64⟩ := exists_alignTo ret.size64 (h _ (mem_pair.2 (.inr rfl)) f mem_cons_self)
    rw [foldlM_cons, addField, h32, h64]
    exact ih (fun l hl f hf => h l hl f (mem_cons_of_mem _ hf)) _

/-- **A record has a layout** exactly if the alignments of its fields are powers of two. -/
theorem record_isSome_iff (fields : List CanonicalAbiInfo) :
    (CanonicalAbiInfo.record fields).isSome ↔
      ∀ l ∈ lanes, ∀ f ∈ fields, (l.align f).toNat.isPowerOfTwo := by
  constructor
  · intro h l hl f hf
    obtain ⟨r, hr⟩ := Option.isSome_iff_exists.1 h
    obtain ⟨s, os, hwalk, -⟩ := record_ok hl hr
    exact (hwalk.aligns.2 f hf).1
  · intro h
    obtain ⟨ret, hret⟩ := exists_foldlM h zero
    have hpow : ∀ l ∈ lanes, (l.align ret).toNat.isPowerOfTwo := by
      intro l hl
      obtain ⟨os, hwalk⟩ := walk_of_foldlM hl hret
      rw [hwalk.align_eq]
      refine isPowerOfTwo_maxAlign ⟨0, ?_⟩ (h l hl)
      rcases mem_pair.1 hl with rfl | rfl <;> rfl
    obtain ⟨s32, h32⟩ := exists_alignTo ret.size32 (hpow _ (mem_pair.2 (.inl rfl)))
    obtain ⟨s64, h64⟩ := exists_alignTo ret.size64 (hpow _ (mem_pair.2 (.inr rfl)))
    rw [CanonicalAbiInfo.record, hret, Option.bind_eq_bind, Option.bind_some, h32, h64]
    rfl

include hl in
/-- **Records**: the fields are laid out exactly if the size is a `u32`. -/
theorem laidOut_iff (h : CanonicalAbiInfo.record fields = some r) :
    (l.align r).toNat = l.maxAlign 1 fields ∧ ∃ os, walk l.next 0 fields = some os ∧
      (l.LaidOut fields os r ↔
        Component.alignTo (l.endOf 0 fields) (l.maxAlign 1 fields) < 2 ^ 32) := by
  obtain ⟨s, os, hwalk, hsize⟩ := record_ok hl h
  obtain ⟨hpow, hdvd, hmod⟩ := alignTo_some hsize
  have hpos := Nat.pos_of_isPowerOfTwo hpow
  have halign : (l.align r).toNat = l.maxAlign 1 fields := hwalk.align_eq
  rw [← halign]
  refine ⟨rfl, os, (hwalk.run hl).1, fun hlaid => ?_, fun hfits => ?_⟩
  · have hle := hwalk.endOf_le (l.size r).toNat_lt (fun f hf => ?_) (Nat.zero_le _) hlaid.within
    · exact (alignTo_le hpos hlaid.multiple hle).trans_lt (l.size r).toNat_lt
    · obtain ⟨hpow', hle⟩ := hwalk.aligns.2 f hf
      exact (dvd_of_isPowerOfTwo hpow' hpow hle).trans hlaid.multiple
  · have hend := le_alignTo (l.endOf 0 fields) hpos
    obtain ⟨heq, hall, hpair⟩ := hwalk.exact (hend.trans_lt hfits)
    rw [heq, UInt32.toNat_zero, mod_eq_of_lt hfits] at hmod
    refine ⟨(hwalk.run hl).2, fun x hx => (hall x hx).1, fun x hx => ?_, hpair.imp .inl, ?_⟩
    · exact (hall x hx).2.2.trans (heq.trans_le (hend.trans hmod.ge))
    · exact hmod ▸ dvd_alignTo _ _

theorem foldl_addCase {f : CanonicalAbiInfo → Nat} (cases : List (Option CanonicalAbiInfo))
    (hf : ∀ m c, f (addCase m (some c)) = max (f m) (f c)) (m : CanonicalAbiInfo) :
    f m ≤ f (cases.foldl addCase m) ∧ (∀ c, some c ∈ cases → f c ≤ f (cases.foldl addCase m)) ∧
      (f (cases.foldl addCase m) = f m ∨
        ∃ c, some c ∈ cases ∧ f (cases.foldl addCase m) = f c) := by
  induction cases generalizing m with
  | nil => simp
  | cons c cases ih =>
    have ih := ih (addCase m c)
    cases c with
    | none => grind [addCase]
    | some c => grind [hf m c]

variable {cases : List (Option CanonicalAbiInfo)} {info : VariantInfo} {abi : CanonicalAbiInfo}

include hl in
theorem align_foldl (cases : List (Option CanonicalAbiInfo)) (m : CanonicalAbiInfo) :
    (l.align (cases.foldl addCase m)).toNat = l.maxAlign (l.align m).toNat cases.reduceOption := by
  induction cases generalizing m with
  | nil => rfl
  | cons c cases ih =>
    rw [foldl_cons, ih]
    cases c with
    | none => rfl
    | some c =>
      have hmax : (l.align (addCase m (some c))).toNat =
          max (l.align m).toNat (l.align c).toNat := by
        rcases mem_pair.1 hl with rfl | rfl <;> exact UInt32.toNat_max _ _
      rw [hmax, reduceOption_cons_of_some]
      rfl

theorem fromCount_eq_some {count : Nat} {d : DiscriminantSize} :
    DiscriminantSize.fromCount count = some d ↔ count < 2 ^ 32 ∧ d = discriminantSize count := by
  unfold DiscriminantSize.fromCount discriminantSize
  split_ifs <;> simp_all [eq_comm] <;> omega

theorem byteSize_eq (d : DiscriminantSize) : d.byteSize.toNat = discriminantBytes d := by
  cases d <;> rfl

include hl in
/-- The alignment that `variant` computes. -/
theorem align_maxima (cases : List (Option CanonicalAbiInfo)) {d : DiscriminantSize}
    (hd : d = discriminantSize cases.length) :
    (l.align (cases.foldl addCase ⟨0, d.byteSize, 0, d.byteSize, some 0⟩)).toNat =
      l.variantAlign cases := by
  rw [align_foldl hl, variantAlign, ← hd, ← byteSize_eq]
  rcases mem_pair.1 hl with rfl | rfl <;> rfl

include hl in
theorem variant_ok (h : VariantInfo.new cases = some (info, abi)) : ∃ largest,
    (l.align abi).toNat = l.variantAlign cases ∧
    alignTo info.size.byteSize (l.align abi) = some (l.payload info) ∧
    alignTo (l.payload info + largest) (l.align abi) = some (l.size abi) ∧
    info.size.byteSize.toNat ≤ (l.align abi).toNat ∧
    (∀ c, some c ∈ cases → (l.size c).toNat ≤ largest.toNat) ∧
    (largest.toNat = 0 ∨ ∃ c, some c ∈ cases ∧ largest.toNat = (l.size c).toNat) := by
  simp only [VariantInfo.new, variant, Option.bind_eq_bind, Option.bind_eq_some_iff] at h
  obtain ⟨d, hd, _, ⟨_, hd', p, hp, s, hs, q, hq, t, ht, ⟨⟩⟩, p', hp', q', hq', ⟨⟩⟩ := h
  cases hd.symm.trans hd'
  cases hp.symm.trans hp'
  cases hq.symm.trans hq'
  have halign := align_maxima hl cases (fromCount_eq_some.1 hd).2
  have hmax := fun f hf => foldl_addCase (f := f) cases hf ⟨0, d.byteSize, 0, d.byteSize, some 0⟩
  rcases mem_pair.1 hl with rfl | rfl
  · have hsize := hmax (·.size32.toNat) fun _ _ => UInt32.toNat_max _ _
    exact ⟨_, halign, hp, hs, (hmax (·.align32.toNat) fun _ _ => UInt32.toNat_max _ _).1, hsize.2⟩
  · have hsize := hmax (·.size64.toNat) fun _ _ => UInt32.toNat_max _ _
    exact ⟨_, halign, hq, ht, (hmax (·.align64.toNat) fun _ _ => UInt32.toNat_max _ _).1, hsize.2⟩

/-- **A variant has a layout** exactly if a discriminant has enough bytes for its cases and the
largest alignment is a power of two. -/
theorem variant_isSome_iff (cases : List (Option CanonicalAbiInfo)) :
    (VariantInfo.new cases).isSome ↔
      cases.length < 2 ^ 32 ∧ ∀ l ∈ lanes, (l.variantAlign cases).isPowerOfTwo := by
  constructor
  · intro h
    obtain ⟨⟨info, abi⟩, hnew⟩ := Option.isSome_iff_exists.1 h
    constructor
    · simp only [VariantInfo.new, Option.bind_eq_bind, Option.bind_eq_some_iff] at hnew
      obtain ⟨d, hd, -⟩ := hnew
      exact (fromCount_eq_some.1 hd).1
    · intro l hl
      obtain ⟨-, halign, hp, -⟩ := variant_ok hl hnew
      exact halign ▸ (alignTo_some hp).1
  · rintro ⟨hcount, hpow⟩
    obtain ⟨d, hd⟩ : ∃ d, DiscriminantSize.fromCount cases.length = some d :=
      ⟨_, fromCount_eq_some.2 ⟨hcount, rfl⟩⟩
    obtain ⟨m, hm⟩ : ∃ m, cases.foldl addCase ⟨0, d.byteSize, 0, d.byteSize, some 0⟩ = m := ⟨_, rfl⟩
    have hpow' : ∀ l ∈ lanes, (l.align m).toNat.isPowerOfTwo := by
      intro l hl
      rw [← hm, align_maxima hl cases (fromCount_eq_some.1 hd).2]
      exact hpow l hl
    have h32 : ∀ a, ∃ c, alignTo a m.align32 = some c :=
      fun a => exists_alignTo a (hpow' _ (mem_pair.2 (.inl rfl)))
    have h64 : ∀ a, ∃ c, alignTo a m.align64 = some c :=
      fun a => exists_alignTo a (hpow' _ (mem_pair.2 (.inr rfl)))
    obtain ⟨p, hp⟩ := h32 d.byteSize
    obtain ⟨q, hq⟩ := h64 d.byteSize
    obtain ⟨s, hs⟩ := h32 (p + m.size32)
    obtain ⟨t, ht⟩ := h64 (q + m.size64)
    simp [VariantInfo.new, variant, hd, hm, hp, hq, hs, ht]

include hl in
/-- **Variants**: the payloads are laid out exactly if the alignments divide the largest one and
the size is a `u32`. -/
theorem holds_iff (h : VariantInfo.new cases = some (info, abi)) :
    l.Holds cases info abi ↔ ∀ c, some c ∈ cases → (l.align c).toNat ∣ l.variantAlign cases ∧
      Component.alignTo (l.variantAlign cases + (l.size c).toNat) (l.variantAlign cases) <
        2 ^ 32 := by
  obtain ⟨largest, halign, hp, hs, hd, hle, hmem⟩ := variant_ok hl h
  rw [← halign]
  obtain ⟨hpow, hdvd, hmod⟩ := alignTo_some hs
  have hpos := Nat.pos_of_isPowerOfTwo hpow
  have hpayload : (l.payload info).toNat = (l.align abi).toNat := by
    have hd' : 0 < info.size.byteSize.toNat := by cases info.size <;> decide
    rw [alignTo_exact hp (l.align abi).toNat_lt dvd_rfl hd]
    refine (alignTo_le hpos dvd_rfl hd).antisymm (le_of_dvd ?_ (dvd_alignTo _ _))
    exact hd'.trans_le (le_alignTo _ hpos)
  refine ⟨fun hholds c hc => ⟨hpayload ▸ hholds.aligned c hc, ?_⟩, fun hfits => ?_⟩
  · refine (alignTo_le hpos ?_ (hpayload ▸ hholds.within c hc)).trans_lt (l.size abi).toNat_lt
    exact hmod ▸ (dvd_mod_iff hdvd).2 (dvd_alignTo _ _)
  · refine ⟨hpayload ▸ hd, fun c hc => hpayload ▸ (hfits c hc).1, fun c hc => ?_⟩
    have hlt : Component.alignTo ((l.align abi).toNat + largest.toNat) (l.align abi).toNat <
        2 ^ 32 := by
      rcases hmem with hzero | ⟨c', hc', heq⟩
      · rw [hzero, ← Nat.le_zero.1 (hzero ▸ hle c hc)]
        exact (hfits c hc).2
      · exact heq ▸ (hfits c' hc').2
    have hge := le_alignTo ((l.align abi).toNat + largest.toNat) hpos
    rw [UInt32.toNat_add, hpayload, mod_eq_of_lt (hge.trans_lt hlt), mod_eq_of_lt hlt] at hmod
    exact hpayload ▸ hmod ▸ (Nat.add_le_add_left (hle c hc) _).trans hge

end Lane

end Wasmtime.Environ
