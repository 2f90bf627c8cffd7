import Wasmtime.Environ.InterfaceTypes

/-!
# Flat types and their number

`flatten` is the flat list of the canonical ABI: records are concatenated, and a variant is its
discriminant and the join of its cases, entry by entry.

* `Holds`: a storage stands for a pair of lists, as far as the limit; `Holds.pushAll` and
  `Holds.joinAll` are the loops over the fields of a record and over the cases of a variant.
* `addFlat_eq`: a sum is cut off at the limit, even if one of the two counts was not.
-/

namespace Wasmtime.Environ

open Base Option FlatTypesStorage

/-! ### The flat lists of the canonical ABI -/

/-- The join of two lists, entry by entry. What is left of the longer one stays. -/
def joinLists : List FlatType → List FlatType → List FlatType
  | [], ys => ys
  | x :: xs, [] => x :: xs
  | x :: xs, y :: ys => x.join y :: joinLists xs ys

@[simp] theorem joinLists_nil_left (ys : List FlatType) : joinLists [] ys = ys := rfl

@[simp] theorem joinLists_nil_right (xs : List FlatType) : joinLists xs [] = xs := by
  cases xs <;> rfl

theorem length_joinLists : ∀ xs ys : List FlatType,
    (joinLists xs ys).length = max xs.length ys.length
  | [], ys => by simp
  | x :: xs, [] => by simp
  | x :: xs, y :: ys => by
    simp only [joinLists, List.length_cons, length_joinLists xs ys]
    omega

def numFlagWords (count : Nat) : Nat := (count + 31) / 32

namespace ValType

variable (pointer : FlatType)

def flattenPrimitive : PrimitiveValType → List FlatType
  | .s64 | .u64 => [.i64]
  | .f32 => [.f32]
  | .f64 => [.f64]
  | .string => [pointer, pointer]
  | _ => [.i32]

mutual

def flatten : ValType → List FlatType
  | .primitive ty => flattenPrimitive pointer ty
  | .record fields => flattenFields fields
  | .variant cases => .i32 :: flattenCases [] cases
  | .list _ => [pointer, pointer]
  | .tuple types => flattenAll types
  | .flags names => List.replicate (numFlagWords names.length) .i32
  | .enum _ => [.i32]
  | .option ty => .i32 :: flatten ty
  | .result ok err => .i32 :: joinLists (flattenPayload ok) (flattenPayload err)
  | .own _ | .borrow _ | .future _ | .stream _ => [.i32]
  | .fixedSizeList element length => (List.replicate length (flatten element)).flatten

def flattenPayload : Option ValType → List FlatType
  | none => []
  | some ty => flatten ty

def flattenAll : List ValType → List FlatType
  | [] => []
  | ty :: types => flatten ty ++ flattenAll types

def flattenFields : List (String × ValType) → List FlatType
  | [] => []
  | (_, ty) :: fields => flatten ty ++ flattenFields fields

def flattenCases (joined : List FlatType) :
    List (String × Option String × Option ValType) → List FlatType
  | [] => joined
  | (_, _, ty) :: cases => flattenCases (joinLists joined (flattenPayload ty)) cases

end

end ValType

/-! ### What a storage holds -/

/-- The storage stands for the two lists: it has them, unless they are too long. -/
structure FlatTypesStorage.Holds (flat : FlatTypesStorage) (l32 l64 : List FlatType) : Prop where
  length_eq : l32.length = l64.length
  len_eq : l32.length ≤ maxFlatTypes → flat.len = l32.length
  take32 : l32.length ≤ maxFlatTypes → flat.memory32.toList.take flat.len = l32
  take64 : l32.length ≤ maxFlatTypes → flat.memory64.toList.take flat.len = l64
  len_over : maxFlatTypes < l32.length → flat.len = maxFlatTypes + 1

theorem take_set_next {L p : List FlatType} {x : FlatType} (h : L.take p.length = p)
    (hlt : p.length < L.length) : (L.set p.length x).take (p.length + 1) = p ++ [x] := by
  rw [List.take_succ_eq_append_getElem (by simpa using hlt), List.take_set, h,
    List.set_eq_of_length_le (Nat.le_refl _)]
  simp

theorem take_set_within {L p q : List FlatType} {n : Nat} {y z : FlatType}
    (h : L.take n = p ++ z :: q) : (L.set p.length y).take n = p ++ y :: q := by
  rw [List.take_set, h, List.set_append_right _ _ (Nat.le_refl _), Nat.sub_self, List.set_cons_zero]

theorem getElem_of_take {L p q : List FlatType} {n : Nat} {z : FlatType}
    (h : L.take n = p ++ z :: q) : L[p.length]? = some z := by
  have hlt : p.length < n := by
    by_contra hge
    have hlen := congrArg List.length h
    rw [List.length_take, List.length_append, List.length_cons] at hlen
    omega
  rw [← List.getElem?_take_of_lt hlt, h, List.getElem?_append_right (Nat.le_refl _), Nat.sub_self]
  rfl

theorem Vector.getElem?_toList_get {n i : Nat} (v : Vector FlatType n) (hi : i < n) :
    v.toList[i]? = some (v.get ⟨i, hi⟩) := by
  rw [List.getElem?_eq_getElem (by simpa using hi)]
  simp [Vector.get]

namespace FlatTypesStorage

variable {flat : FlatTypesStorage} {l32 l64 : List FlatType}

theorem new_holds : FlatTypesStorage.new.Holds [] [] where
  length_eq := rfl
  len_eq := fun _ => rfl
  take32 := fun _ => rfl
  take64 := fun _ => rfl
  len_over := fun h => absurd h (Nat.not_lt_zero _)

theorem Holds.asFlatTypes_eq (h : flat.Holds l32 l64) :
    flat.asFlatTypes = if l32.length ≤ maxFlatTypes then some ⟨l32, l64⟩ else none := by
  unfold asFlatTypes
  by_cases hfit : l32.length ≤ maxFlatTypes
  · rw [if_neg (by rw [h.len_eq hfit]; omega), if_pos hfit, h.take32 hfit, h.take64 hfit]
  · rw [if_pos (by rw [h.len_over (by omega)]; omega), if_neg hfit]

theorem unrepresentable_holds (hlen : l32.length = l64.length) (hover : maxFlatTypes < l32.length) :
    flat.unrepresentable.Holds l32 l64 where
  length_eq := hlen
  len_eq := fun h => absurd h (by omega)
  take32 := fun h => absurd h (by omega)
  take64 := fun h => absurd h (by omega)
  len_over := fun _ => rfl

theorem Holds.push (h : flat.Holds l32 l64) (t32 t64 : FlatType) :
    (flat.push t32 t64).1.Holds (l32 ++ [t32]) (l64 ++ [t64]) := by
  have hlen := h.length_eq
  have happ : (l32 ++ [t32]).length = (l64 ++ [t64]).length := by simp [hlen]
  unfold FlatTypesStorage.push
  by_cases hfit : l32.length < maxFlatTypes
  · have heq := h.len_eq hfit.le
    have h32 := h.take32 hfit.le
    have h64 := h.take64 hfit.le
    rw [dif_pos (by omega)]
    refine ⟨happ, fun _ => ?_, fun _ => ?_, fun _ => ?_, fun hover => ?_⟩
    · simp [heq]
    · rw [heq] at h32
      simp only [Vector.toList_set, heq]
      exact take_set_next h32 (by simpa using hfit)
    · rw [heq, hlen] at h64
      simp only [Vector.toList_set, heq, hlen]
      exact take_set_next h64 (by simpa [← hlen] using hfit)
    · simp only [List.length_append, List.length_singleton] at hover
      omega
  · have hover : flat.len ≥ maxFlatTypes := by
      by_cases hle : l32.length ≤ maxFlatTypes
      · rw [h.len_eq hle]
        omega
      · rw [h.len_over (by omega)]
        omega
    have hbound := flat.len_le
    rw [dif_neg (by omega)]
    by_cases hlast : flat.len = maxFlatTypes
    · rw [dif_pos hlast]
      refine ⟨happ, fun hle => ?_, fun hle => ?_, fun hle => ?_, fun _ => ?_⟩
      all_goals simp only [List.length_append, List.length_singleton] at *
      all_goals omega
    · rw [dif_neg hlast]
      refine ⟨happ, fun hle => ?_, fun hle => ?_, fun hle => ?_, fun _ => ?_⟩
      all_goals simp only [List.length_append, List.length_singleton] at *
      all_goals omega

theorem push_fst_of_false {t32 t64 : FlatType} (h : flat.Holds l32 l64)
    (hpush : (flat.push t32 t64).2 = false) : maxFlatTypes ≤ l32.length := by
  by_contra hlt
  have heq := h.len_eq (by omega)
  unfold FlatTypesStorage.push at hpush
  rw [dif_pos (by omega)] at hpush
  cases hpush

theorem Holds.append_of_over (h : flat.Holds l32 l64) (hover : maxFlatTypes < l32.length)
    {m32 m64 : List FlatType} (hm : m32.length = m64.length) :
    flat.Holds (l32 ++ m32) (l64 ++ m64) := by
  have hlen := h.length_eq
  refine ⟨by simp [hlen, hm], fun hle => ?_, fun hle => ?_, fun hle => ?_, fun _ => h.len_over hover⟩
  all_goals
    rw [List.length_append] at hle
    omega

theorem Holds.pushAll : ∀ {m32 m64 : List FlatType} {flat : FlatTypesStorage}
    {l32 l64 : List FlatType}, flat.Holds l32 l64 → m32.length = m64.length →
    (flat.pushAll (m32.zip m64)).Holds (l32 ++ m32) (l64 ++ m64) := by
  intro m32
  induction m32 with
  | nil =>
    intro m64 flat l32 l64 h hm
    rw [List.length_eq_zero_iff.1 hm.symm]
    simpa [FlatTypesStorage.pushAll] using h
  | cons t32 m32 ih =>
    intro m64 flat l32 l64 h hm
    cases m64 with
    | nil => cases hm
    | cons t64 m64 =>
      have hm' : m32.length = m64.length := Nat.succ.inj hm
      have hpush := h.push t32 t64
      rw [List.zip_cons_cons, FlatTypesStorage.pushAll]
      rcases hp : flat.push t32 t64 with ⟨next, _ | _⟩
      · have hfull := push_fst_of_false h (by rw [hp])
        rw [hp] at hpush
        have := hpush.append_of_over (by simp; omega) hm'
        simpa using this
      · rw [hp] at hpush
        simpa using ih hpush hm'

theorem Holds.joinAll : ∀ {m32 m64 : List FlatType} {flat : FlatTypesStorage} {i : Nat}
    {p32 p64 q32 q64 : List FlatType}, flat.Holds (p32 ++ q32) (p64 ++ q64) →
    p32.length = i + 1 → p64.length = i + 1 → (p32 ++ q32).length ≤ maxFlatTypes →
    m32.length = m64.length → i + 1 + m32.length ≤ maxFlatTypes →
    (flat.joinAll i (m32.zip m64)).Holds (p32 ++ joinLists q32 m32) (p64 ++ joinLists q64 m64) := by
  intro m32
  induction m32 with
  | nil =>
    intro m64 flat i p32 p64 q32 q64 h hp32 hp64 hfit hm hroom
    rw [List.length_eq_zero_iff.1 hm.symm]
    simpa [FlatTypesStorage.joinAll] using h
  | cons t32 m32 ih =>
    intro m64 flat i p32 p64 q32 q64 h hp32 hp64 hfit hm hroom
    cases m64 with
    | nil => cases hm
    | cons t64 m64 =>
      have hm' : m32.length = m64.length := Nat.succ.inj hm
      rw [List.length_cons] at hroom
      have hlen := h.len_eq hfit
      have h32 := h.take32 hfit
      have h64 := h.take64 hfit
      have heq := h.length_eq
      rw [List.length_append] at hfit hlen
      rw [List.length_append, List.length_append] at heq
      rw [List.zip_cons_cons, FlatTypesStorage.joinAll, dif_pos (by omega)]
      dsimp only
      cases q32 with
      | nil =>
        -- The first case that has so many types.
        have hq64 : q64 = [] := List.length_eq_zero_iff.1 (by simp at heq; omega)
        subst hq64
        rw [List.append_nil] at h32 h64
        rw [List.length_nil] at hlen hfit
        rw [dif_neg (by omega)]
        have hnext : ∀ nx : FlatTypesStorage, nx.Holds ((p32 ++ [t32]) ++ []) ((p64 ++ [t64]) ++ []) →
            (nx.joinAll (i + 1) (m32.zip m64)).Holds (p32 ++ joinLists [] (t32 :: m32))
              (p64 ++ joinLists [] (t64 :: m64)) := by
          intro nx hnx
          have := ih (i := i + 1) hnx (by simp [hp32]) (by simp [hp64]) (by simp; omega) hm'
            (by omega)
          simpa using this
        refine hnext _ ⟨by simp [hp32, hp64], fun _ => by simp; omega, fun _ => ?_, fun _ => ?_,
          fun hover => ?_⟩
        · have hp : flat.len = p32.length := by omega
          rw [hp] at h32
          simp only [Vector.toList_set, hp, ← hp32, List.append_nil]
          exact take_set_next h32 (by simp; omega)
        · have hp : flat.len = p64.length := by omega
          rw [hp] at h64
          simp only [Vector.toList_set, hp, ← hp64, List.append_nil]
          exact take_set_next h64 (by simp; omega)
        · simp only [List.append_nil, List.length_append, List.length_singleton] at hover
          omega
      | cons z32 q32 =>
        cases q64 with
        | nil => simp at heq; omega
        | cons z64 q64 =>
          have hlt : i + 1 < flat.len := by
            rw [hlen, List.length_cons]
            omega
          have hi : i + 1 < maxFlatTypes := by omega
          have hz32 : flat.memory32.get ⟨i + 1, hi⟩ = z32 := by
            have hget := getElem_of_take h32
            rw [hp32, Vector.getElem?_toList_get _ hi] at hget
            exact some.inj hget
          have hz64 : flat.memory64.get ⟨i + 1, hi⟩ = z64 := by
            have hget := getElem_of_take h64
            rw [hp64, Vector.getElem?_toList_get _ hi] at hget
            exact some.inj hget
          rw [dif_pos hlt, hz32, hz64]
          have hnext : ∀ nx : FlatTypesStorage,
              nx.Holds ((p32 ++ [z32.join t32]) ++ q32) ((p64 ++ [z64.join t64]) ++ q64) →
              (nx.joinAll (i + 1) (m32.zip m64)).Holds (p32 ++ joinLists (z32 :: q32) (t32 :: m32))
                (p64 ++ joinLists (z64 :: q64) (t64 :: m64)) := by
            intro nx hnx
            have := ih (i := i + 1) hnx (by simp [hp32]) (by simp [hp64])
              (by simp at hfit ⊢; omega) hm' (by omega)
            simpa [joinLists] using this
          refine hnext _ ⟨by simp at heq ⊢; omega, fun _ => by simp at hlen ⊢; omega, fun _ => ?_,
            fun _ => ?_, fun hover => ?_⟩
          · simp only [Vector.toList_set, ← hp32, List.append_assoc, List.singleton_append]
            exact take_set_within h32
          · simp only [Vector.toList_set, ← hp64, List.append_assoc, List.singleton_append]
            exact take_set_within h64
          · simp at hover hfit
            omega

end FlatTypesStorage

/-! ### Counts -/

def limited (n : Nat) : Option Nat := if n ≤ maxFlatTypes then some n else none

/-- The count of a type with `n` flat types. One that is over the limit may be any number over
it. -/
def Counts (count : Option Nat) (n : Nat) : Prop :=
  if n ≤ maxFlatTypes then count = some n else ∀ m, count = some m → maxFlatTypes < m

theorem counts_limited (n : Nat) : Counts (limited n) n := by
  unfold Counts limited
  by_cases h : n ≤ maxFlatTypes
  · rw [if_pos h, if_pos h]
  · rw [if_neg h, if_neg h]
    intro m hm
    cases hm

section Counts

variable {a b : Option Nat} {n m : Nat}

theorem Counts.eq (h : Counts a n) (hn : n ≤ maxFlatTypes) : a = some n := by
  rwa [Counts, if_pos hn] at h

theorem Counts.le_of_eq (h : Counts a n) {x : Nat} (hx : a = some x) :
    x = n ∨ maxFlatTypes < n ∧ maxFlatTypes < x := by
  by_cases hn : n ≤ maxFlatTypes
  · rw [h.eq hn] at hx
    exact .inl (some.inj hx).symm
  · rw [Counts, if_neg hn] at h
    exact .inr ⟨by omega, h x hx⟩

/-- **A sum is cut off at the limit**, even if one of the counts was not. -/
theorem addFlat_eq (ha : Counts a n) (hb : Counts b m) : addFlat a b = limited (n + m) := by
  have hmax : maxFlatTypes = 16 := rfl
  unfold limited
  by_cases hfit : n + m ≤ maxFlatTypes
  · rw [ha.eq (by omega), hb.eq (by omega), if_pos hfit, addFlat, if_neg (by omega),
      if_neg (by omega)]
  · rw [if_neg hfit]
    cases a with
    | none => rfl
    | some x =>
      cases b with
      | none => rfl
      | some y =>
        have hx := ha.le_of_eq rfl
        have hy := hb.le_of_eq rfl
        rw [addFlat]
        split_ifs
        · rfl
        · rfl
        · omega

theorem maxFlat_counts (ha : Counts a n) (hb : Counts b m) :
    Counts (maxFlat a b) (max n m) := by
  unfold Counts
  by_cases hfit : max n m ≤ maxFlatTypes
  · rw [if_pos hfit, ha.eq (by omega), hb.eq (by omega), maxFlat]
    split_ifs with h
    · rw [Nat.max_eq_left (by omega)]
    · rw [Nat.max_eq_right (by omega)]
  · rw [if_neg hfit]
    intro k hk
    cases a with
    | none => cases hk
    | some x =>
      cases b with
      | none => cases hk
      | some y =>
        have hx := ha.le_of_eq rfl
        have hy := hb.le_of_eq rfl
        rw [maxFlat] at hk
        split_ifs at hk
        · cases hk
          omega
        · cases hk
          omega

end Counts

/-! ### Records and variants -/

namespace ValType

/-- The count of a type: flags alone have no limit. -/
def flatCount : ValType → Option Nat
  | .flags names => some (numFlagWords names.length)
  | t => limited (t.flatten .i32).length

theorem counts_flatCount (t : ValType) : Counts t.flatCount (t.flatten .i32).length := by
  cases t with
  | flags names =>
    rw [flatCount, flatten, List.length_replicate, Counts]
    split_ifs with h
    · rfl
    · intro m hm
      cases hm
      omega
  | _ => exact counts_limited _

theorem flattenFields_eq (pointer : FlatType) : ∀ fields : List (String × ValType),
    flattenFields pointer fields = flattenAll pointer (fields.map Prod.snd)
  | [] => by simp [flattenFields, flattenAll]
  | (name, t) :: fields => by
    simp only [flattenFields, List.map_cons, flattenAll, flattenFields_eq pointer fields]

def joinPayloads (pointer : FlatType) (joined : List FlatType) (cases : List (Option ValType)) :
    List FlatType :=
  cases.foldl (fun joined ty => joinLists joined (flattenPayload pointer ty)) joined

theorem flattenCases_eq (pointer : FlatType) :
    ∀ (joined : List FlatType) (cases : List (String × Option String × Option ValType)),
    flattenCases pointer joined cases = joinPayloads pointer joined (cases.map fun c => c.2.2)
  | joined, [] => by simp [flattenCases, joinPayloads]
  | joined, (name, refines, ty) :: cases => by
    rw [flattenCases, flattenCases_eq pointer _ cases]
    rfl

end ValType

def TypeInformation.Lists (info : TypeInformation) (t : ValType) : Prop :=
  info.flat.Holds (t.flatten .i32) (t.flatten .i64)

namespace TypeInformation

theorem addField_holds {self info : TypeInformation} {t : ValType} {l32 l64 : List FlatType}
    (h : self.flat.Holds l32 l64) (hinfo : info.Lists t) :
    (self.addField info).flat.Holds (l32 ++ t.flatten .i32) (l64 ++ t.flatten .i64) := by
  have hinfo : info.flat.Holds (t.flatten .i32) (t.flatten .i64) := hinfo
  have hlen := h.length_eq
  have hlent := hinfo.length_eq
  unfold addField
  rw [hinfo.asFlatTypes_eq]
  by_cases hfit : (t.flatten .i32).length ≤ maxFlatTypes
  · rw [if_pos hfit]
    exact h.pushAll hlent
  · rw [if_neg hfit]
    refine unrepresentable_holds ?_ ?_
    · rw [List.length_append, List.length_append]
      omega
    · rw [List.length_append]
      omega

theorem buildRecord_holds {infos : List TypeInformation} {ts : List ValType}
    (h : List.Forall₂ Lists infos ts) :
    (TypeInformation.new.buildRecord infos).flat.Holds (ValType.flattenAll .i32 ts)
      (ValType.flattenAll .i64 ts) := by
  have hloop : ∀ {self : TypeInformation} {l32 l64 : List FlatType}, self.flat.Holds l32 l64 →
      (infos.foldl addField self).flat.Holds (l32 ++ ValType.flattenAll .i32 ts)
        (l64 ++ ValType.flattenAll .i64 ts) := by
    induction h with
    | nil =>
      intro self l32 l64 hself
      simpa [ValType.flattenAll] using hself
    | cons hinfo _ ih =>
      intro self l32 l64 hself
      have := ih (addField_holds hself hinfo)
      simpa [ValType.flattenAll, List.append_assoc] using this
  have hnew : ({ TypeInformation.new with depth := 1 } : TypeInformation).flat.Holds [] [] :=
    new_holds
  exact hloop hnew

theorem joinCase_holds {flat : FlatTypesStorage} {info : TypeInformation} {t : ValType}
    {j32 j64 : List FlatType} (h : flat.Holds (.i32 :: j32) (.i32 :: j64)) (hinfo : info.Lists t) :
    (joinCase flat info.flat).Holds (.i32 :: joinLists j32 (t.flatten .i32))
      (.i32 :: joinLists j64 (t.flatten .i64)) := by
  have hinfo : info.flat.Holds (t.flatten .i32) (t.flatten .i64) := hinfo
  have hlen := h.length_eq
  have hlent := hinfo.length_eq
  rw [List.length_cons, List.length_cons] at hlen
  have hjoin : (FlatType.i32 :: joinLists j32 (t.flatten .i32)).length =
      (FlatType.i32 :: joinLists j64 (t.flatten .i64)).length := by
    rw [List.length_cons, List.length_cons, length_joinLists, length_joinLists]
    omega
  unfold joinCase
  by_cases hover : maxFlatTypes < (FlatType.i32 :: j32).length
  · -- The variant is over the limit already.
    rw [if_pos (by rw [h.len_over hover]; omega)]
    have hlong : maxFlatTypes < (FlatType.i32 :: joinLists j32 (t.flatten .i32)).length := by
      rw [List.length_cons] at hover
      rw [List.length_cons, length_joinLists]
      omega
    exact ⟨hjoin, fun hle => absurd hle (by omega), fun hle => absurd hle (by omega),
      fun hle => absurd hle (by omega), fun _ => h.len_over hover⟩
  · have hfit : (FlatType.i32 :: j32).length ≤ maxFlatTypes := by omega
    rw [if_neg (by rw [h.len_eq hfit]; omega), hinfo.asFlatTypes_eq]
    by_cases hcase : (t.flatten .i32).length < maxFlatTypes
    · rw [if_pos hcase.le]
      dsimp only
      rw [if_neg (by omega)]
      have hfront : flat.Holds ([.i32] ++ j32) ([.i32] ++ j64) := h
      exact hfront.joinAll rfl rfl hfit hlent (by omega)
    · have hlong : maxFlatTypes < (FlatType.i32 :: joinLists j32 (t.flatten .i32)).length := by
        rw [List.length_cons, length_joinLists]
        omega
      by_cases hle : (t.flatten .i32).length ≤ maxFlatTypes
      · rw [if_pos hle]
        dsimp only
        rw [if_pos (by omega)]
        exact unrepresentable_holds hjoin hlong
      · rw [if_neg hle]
        exact unrepresentable_holds hjoin hlong

theorem addCase_holds {self : TypeInformation} {info : Option TypeInformation}
    {t : Option ValType} {j32 j64 : List FlatType}
    (h : self.flat.Holds (.i32 :: j32) (.i32 :: j64)) (hinfo : Option.Rel Lists info t) :
    (self.addCase info).flat.Holds (.i32 :: joinLists j32 (ValType.flattenPayload .i32 t))
      (.i32 :: joinLists j64 (ValType.flattenPayload .i64 t)) := by
  cases hinfo with
  | none => simpa [addCase, ValType.flattenPayload] using h
  | some hinfo => exact joinCase_holds h hinfo

theorem buildVariant_holds {infos : List (Option TypeInformation)} {cases : List (Option ValType)}
    (h : List.Forall₂ (Option.Rel Lists) infos cases) :
    (TypeInformation.new.buildVariant infos).flat.Holds
      (.i32 :: ValType.joinPayloads .i32 [] cases) (.i32 :: ValType.joinPayloads .i64 [] cases) := by
  have hloop : ∀ {self : TypeInformation} {j32 j64 : List FlatType},
      self.flat.Holds (.i32 :: j32) (.i32 :: j64) →
      (infos.foldl addCase self).flat.Holds (.i32 :: ValType.joinPayloads .i32 j32 cases)
        (.i32 :: ValType.joinPayloads .i64 j64 cases) := by
    induction h with
    | nil =>
      intro self j32 j64 hself
      exact hself
    | cons hinfo _ ih =>
      intro self j32 j64 hself
      exact ih (addCase_holds hself hinfo)
  exact hloop (new_holds.push .i32 .i32)

end TypeInformation

namespace CanonicalAbiInfo

theorem addField_flatCount {ret field next : CanonicalAbiInfo}
    (h : ret.addField field = some next) :
    next.flatCount = addFlat ret.flatCount field.flatCount := by
  unfold addField at h
  simp only [bind_eq_bind, bind_eq_some_iff, pure_def, some.injEq] at h
  obtain ⟨_, _, _, _, rfl⟩ := h
  rfl

theorem record_flatCount {fields : List CanonicalAbiInfo} {ts : List ValType}
    {abi : CanonicalAbiInfo} (h : record fields = some abi)
    (hcounts : List.Forall₂ (fun field t => field.flatCount = ValType.flatCount t) fields ts) :
    abi.flatCount = limited (ValType.flattenAll .i32 ts).length := by
  have hloop : ∀ {ret last : CanonicalAbiInfo} {n : Nat}, ret.flatCount = limited n →
      fields.foldlM addField ret = some last →
      last.flatCount = limited (n + (ValType.flattenAll .i32 ts).length) := by
    clear h
    induction hcounts with
    | nil =>
      intro ret last n hret hfold
      cases hfold
      simpa [ValType.flattenAll] using hret
    | @cons field t fields ts hfield _ ih =>
      intro ret last n hret hfold
      rw [List.foldlM_cons, bind_eq_bind, bind_eq_some_iff] at hfold
      obtain ⟨next, hnext, hfold⟩ := hfold
      have hcount : next.flatCount = limited (n + (t.flatten .i32).length) := by
        rw [addField_flatCount hnext, hret, hfield]
        exact addFlat_eq (counts_limited n) t.counts_flatCount
      rw [ih hcount hfold, ValType.flattenAll, List.length_append, Nat.add_assoc]
  unfold record at h
  simp only [bind_eq_bind, bind_eq_some_iff, pure_def, some.injEq] at h
  obtain ⟨ret, hret, _, _, _, _, rfl⟩ := h
  simpa using hloop (n := 0) rfl hret

theorem addCase_counts {maxima : CanonicalAbiInfo} {case : Option CanonicalAbiInfo}
    {t : Option ValType} {j : List FlatType} (h : Counts maxima.flatCount j.length)
    (hcase : Option.Rel (fun abi t => abi.flatCount = ValType.flatCount t) case t) :
    Counts (maxima.addCase case).flatCount
      (joinLists j (ValType.flattenPayload .i32 t)).length := by
  cases hcase with
  | none => simpa [addCase, ValType.flattenPayload] using h
  | @some abi t habi =>
    rw [length_joinLists, ValType.flattenPayload]
    refine maxFlat_counts h ?_
    rw [habi]
    exact t.counts_flatCount

theorem variant_flatCount {cases : List (Option CanonicalAbiInfo)} {ts : List (Option ValType)}
    {abi : CanonicalAbiInfo} (h : variant cases = some abi)
    (hcounts : List.Forall₂ (Option.Rel fun abi t => abi.flatCount = ValType.flatCount t) cases ts) :
    abi.flatCount = limited (ValType.joinPayloads .i32 [] ts).length.succ := by
  have hloop : ∀ {maxima : CanonicalAbiInfo} {j : List FlatType}, Counts maxima.flatCount j.length →
      Counts (cases.foldl addCase maxima).flatCount (ValType.joinPayloads .i32 j ts).length := by
    clear h
    induction hcounts with
    | nil =>
      intro maxima j hmax
      exact hmax
    | cons hcase _ ih =>
      intro maxima j hmax
      exact ih (addCase_counts hmax hcase)
  unfold variant at h
  simp only [bind_eq_bind, bind_eq_some_iff, pure_def, some.injEq] at h
  obtain ⟨size, _, _, _, _, _, _, _, _, _, rfl⟩ := h
  have hzero : Counts (⟨0, size.byteSize, 0, size.byteSize, some 0⟩ : CanonicalAbiInfo).flatCount
      ([] : List FlatType).length := counts_limited 0
  exact addFlat_eq (hloop hzero) (counts_limited 1)

end CanonicalAbiInfo

theorem VariantInfo.new_snd {cases : List (Option CanonicalAbiInfo)}
    {r : VariantInfo × CanonicalAbiInfo} (h : VariantInfo.new cases = some r) :
    CanonicalAbiInfo.variant cases = some r.2 := by
  unfold VariantInfo.new at h
  simp only [bind_eq_bind, bind_eq_some_iff, pure_def, some.injEq] at h
  obtain ⟨_, _, abi, habi, _, _, _, _, rfl⟩ := h
  exact habi

end Wasmtime.Environ
