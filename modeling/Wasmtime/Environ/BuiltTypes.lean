import Wasmtime.Environ.FlatTypes

/-!
# The types that a builder has made

A builder only adds to its tables, and what it knows of a type was computed from types that were
there before. So the information of a type is that which would be computed now (`Cached`), and a
type that is found again is described by it (`addType_ok`).

* `valtype_ok`: what a type is converted to is described as the type is.
* `flat_consistent_iff`: in every run, the count of flat types and their lists agree with each other
  and with the canonical ABI on all types but flags of more than 512 names.
-/

namespace Wasmtime.Environ

open Base Prog List CanonicalAbiInfo FlatTypesStorage

namespace Builder

variable {s s' s'' : Builder} {ty : InterfaceType} {t : ValType}

/-! ### Tables that grow -/

structure Extends (s s' : Builder) : Prop where
  types : ∀ (kind : Kind) (i : Nat) (val : kind.Shape),
    (s.tables kind).types[i]? = some val → (s'.tables kind).types[i]? = some val
  infos : ∀ (kind : Kind) (i : Nat) (info : TypeInformation),
    (s.tables kind).infos[i]? = some info → (s'.tables kind).infos[i]? = some info

theorem Extends.refl (s : Builder) : Extends s s := ⟨fun _ _ _ h => h, fun _ _ _ h => h⟩

theorem Extends.trans (h : Extends s s') (h' : Extends s' s'') : Extends s s'' where
  types := fun kind i val hval => h'.types kind i val (h.types kind i val hval)
  infos := fun kind i info hinfo => h'.infos kind i info (h.infos kind i info hinfo)

theorem Extends.of_tables (h : s'.tables = s.tables) : Extends s s' where
  types := fun _ _ _ hval => h ▸ hval
  infos := fun _ _ _ hinfo => h ▸ hinfo

variable {info : TypeInformation}

theorem Extends.typeInformation (h : Extends s s') (hinfo : s.typeInformation ty = some info) :
    s'.typeInformation ty = some info := by
  cases ty with
  | defined kind i => exact h.infos kind i info hinfo
  | _ => exact hinfo

variable {abi : CanonicalAbiInfo}

theorem Extends.canonicalAbi (h : Extends s s') (habi : s.canonicalAbi ty = some abi) :
    s'.canonicalAbi ty = some abi := by
  cases ty with
  | defined kind i =>
    simp only [Builder.canonicalAbi, Option.map_eq_some_iff] at habi ⊢
    obtain ⟨val, hval, rfl⟩ := habi
    exact ⟨val, h.types kind i val hval, rfl⟩
  | _ => exact habi

theorem mapM_mono {A B : Type} {f g : A → Option B} (hfg : ∀ a b, f a = some b → g a = some b) :
    ∀ {l : List A} {r : List B}, l.mapM f = some r → l.mapM g = some r := by
  intro l
  induction l with
  | nil => intro r h; exact h
  | cons a l ih =>
    intro r h
    simp only [mapM_cons, Option.bind_eq_bind, Option.bind_eq_some_iff] at h ⊢
    obtain ⟨b, hb, bs, hbs, hr⟩ := h
    exact ⟨b, hfg a b hb, bs, ih hbs, hr⟩

theorem Extends.payload (h : Extends s s') {o : Option InterfaceType}
    {info : Option TypeInformation} (hinfo : TypeInformation.payload s o = some info) :
    TypeInformation.payload s' o = some info := by
  cases o with
  | none => exact hinfo
  | some ty =>
    simp only [TypeInformation.payload, Option.map_eq_some_iff] at hinfo ⊢
    obtain ⟨i, hi, rfl⟩ := hinfo
    exact ⟨i, h.typeInformation hi, rfl⟩

variable {kind : Kind} {val : kind.Shape}

theorem Extends.fill (h : Extends s s') (hinfo : TypeInformation.fill s kind val = some info) :
    TypeInformation.fill s' kind val = some info := by
  cases kind
  case flags => exact hinfo
  case enum => exact hinfo
  all_goals
    simp only [TypeInformation.fill, TypeInformation.records, TypeInformation.variants,
      TypeInformation.lists, TypeInformation.tuples, TypeInformation.options,
      TypeInformation.results, Option.bind_eq_bind, Option.bind_eq_some_iff] at hinfo ⊢
    obtain ⟨infos, hinfos, hres⟩ := hinfo
    refine ⟨infos, ?_, hres⟩
  case record => exact mapM_mono (fun _ _ => h.typeInformation) hinfos
  case tuple => exact mapM_mono (fun _ _ => h.typeInformation) hinfos
  case list => exact h.typeInformation hinfos
  case variant => exact mapM_mono (fun _ _ => h.payload) hinfos
  case option => exact mapM_mono (fun _ _ => h.payload) hinfos
  case result => exact mapM_mono (fun _ _ => h.payload) hinfos

/-- The information in the tables is what would be computed now. -/
def Cached (s : Builder) : Prop :=
  ∀ (kind : Kind) (i : Nat) (val : kind.Shape), (s.tables kind).types[i]? = some val →
    ∃ info, TypeInformation.fill s kind val = some info ∧ (s.tables kind).infos[i]? = some info

theorem cached_new : Cached .new := by
  intro kind i val h
  cases h

theorem Cached.of_tables (hs : Cached s) (h : s'.tables = s.tables) : Cached s' := by
  intro kind i val hval
  rw [h] at hval ⊢
  obtain ⟨info, hfill, hinfo⟩ := hs kind i val hval
  exact ⟨info, (Extends.of_tables h).fill hfill, hinfo⟩

def withType (s : Builder) (kind : Kind) (val : kind.Shape) (info : TypeInformation) : Builder :=
  { s with
    tables := Function.update s.tables kind
      ⟨(s.tables kind).types ++ [val], (s.tables kind).infos ++ [info]⟩ }

theorem withType_self (kind : Kind) (val : kind.Shape) (info : TypeInformation) :
    (s.withType kind val info).tables kind =
      ⟨(s.tables kind).types ++ [val], (s.tables kind).infos ++ [info]⟩ :=
  Function.update_self ..

theorem withType_of_ne {kind k : Kind} (hk : k ≠ kind) (val : kind.Shape)
    (info : TypeInformation) : (s.withType kind val info).tables k = s.tables k :=
  Function.update_of_ne hk ..

theorem extends_withType (kind : Kind) (val : kind.Shape) (info : TypeInformation) :
    Extends s (s.withType kind val info) := by
  refine ⟨fun k i v hv => ?_, fun k i v hv => ?_⟩
  all_goals
    by_cases hk : k = kind
    · subst hk
      rw [withType_self, getElem?_append_left (List.getElem?_eq_some_iff.1 hv).1]
      exact hv
    · rw [withType_of_ne hk]
      exact hv

theorem cached_withType (hs : Cached s) (hfill : TypeInformation.fill s kind val = some info)
    (hlen : (s.tables kind).types.length = (s.tables kind).infos.length) :
    Cached (s.withType kind val info) := by
  have hext := extends_withType (s := s) kind val info
  intro k i v hv
  by_cases hold : ∃ w, (s.tables k).types[i]? = some w
  · obtain ⟨w, hw⟩ := hold
    have heq := hext.types k i w hw
    rw [hv] at heq
    cases heq
    obtain ⟨old, hold, hinfo⟩ := hs k i v hw
    exact ⟨old, hext.fill hold, hext.infos k i old hinfo⟩
  · -- The new type is the last one.
    have hnone : (s.tables k).types[i]? = none := by
      cases hget : (s.tables k).types[i]? with
      | none => rfl
      | some w => exact absurd ⟨w, hget⟩ hold
    by_cases hk : k = kind
    · subst hk
      rw [withType_self] at hv ⊢
      have hge := List.getElem?_eq_none_iff.1 hnone
      have hi : i = (s.tables k).types.length := by
        have hlt := (List.getElem?_eq_some_iff.1 hv).1
        simp only [length_append, length_singleton] at hlt
        omega
      subst hi
      rw [getElem?_concat_length] at hv
      cases hv
      refine ⟨info, hext.fill hfill, ?_⟩
      rw [hlen, getElem?_concat_length]
    · rw [withType_of_ne hk, hnone] at hv
      cases hv

variable {i : Nat}

/-- **A type that is interned is described by what would be computed for it**, whether it was
in the table or not. -/
theorem addType_ok (hs : Cached s) (h : addType kind val s = (.ok i, s')) :
    Extends s s' ∧ Cached s' ∧ ∃ info, TypeInformation.fill s kind val = some info ∧
      s'.typeInformation (.defined kind i) = some info ∧
      s'.canonicalAbi (.defined kind i) = some (kind.abi val) := by
  unfold addType at h
  rw [run_get_bind] at h
  cases hidx : (s.tables kind).types.idxOf? val with
  | some idx =>
    rw [hidx] at h
    obtain ⟨rfl, rfl⟩ := pure_ok.1 h
    obtain ⟨hlt, heq, -⟩ := idxOf?_eq_some_iff.1 hidx
    have hget : (s'.tables kind).types[i]? = some val := List.getElem?_eq_some_iff.2 ⟨hlt, heq⟩
    obtain ⟨info, hfill, hinfo⟩ := hs kind i val hget
    refine ⟨.refl s', hs, info, hfill, hinfo, ?_⟩
    rw [Builder.canonicalAbi, hget]
    rfl
  | none =>
    rw [hidx] at h
    obtain ⟨info, hfill, h1⟩ := unwrap_bind_ok.1 h
    obtain ⟨hlen, h2⟩ := assert_bind_ok.1 h1
    rw [run_set_bind] at h2
    obtain ⟨rfl, rfl⟩ := pure_ok.1 h2
    have hlen := beq_iff_eq.1 hlen
    refine ⟨extends_withType kind val info, cached_withType hs hfill hlen, info, hfill, ?_, ?_⟩
    · simp only [Builder.typeInformation, Function.update_self, hlen, getElem?_concat_length]
    · simp only [Builder.canonicalAbi, Function.update_self, getElem?_concat_length,
        Option.map_some]

/-! ### Types and what they are described by -/

/-- The interface type has the flat types of `t`, and their count. -/
def Described (s : Builder) (ty : InterfaceType) (t : ValType) : Prop :=
  ∃ info abi, s.typeInformation ty = some info ∧ s.canonicalAbi ty = some abi ∧
    info.Lists t ∧ abi.flatCount = t.flatCount

theorem Described.mono (h : Extends s s') (hty : Described s ty t) : Described s' ty t := by
  obtain ⟨info, abi, hinfo, habi, hlists, hcount⟩ := hty
  exact ⟨info, abi, h.typeInformation hinfo, h.canonicalAbi habi, hlists, hcount⟩

abbrev PayloadDescribed (s : Builder) : Option InterfaceType → Option ValType → Prop :=
  Option.Rel (Described s)

theorem PayloadDescribed.mono (h : Extends s s') {o : Option InterfaceType} {p : Option ValType}
    (hty : PayloadDescribed s o p) : PayloadDescribed s' o p := by
  cases hty with
  | none => exact .none
  | some hty => exact .some (hty.mono h)

variable {types : List InterfaceType} {ts : List ValType}
  {payloads : List (Option InterfaceType)} {cases : List (Option ValType)}

theorem infos_of_described (h : List.Forall₂ (Described s) types ts) :
    ∃ infos, types.mapM s.typeInformation = some infos ∧
      List.Forall₂ TypeInformation.Lists infos ts := by
  induction h with
  | nil => exact ⟨[], rfl, .nil⟩
  | cons hty _ ih =>
    obtain ⟨info, abi, hinfo, habi, hlists, hcount⟩ := hty
    obtain ⟨infos, hinfos, hall⟩ := ih
    refine ⟨info :: infos, ?_, .cons hlists hall⟩
    rw [mapM_cons, hinfo, hinfos]
    rfl

theorem payloadInfos_of_described (h : List.Forall₂ (PayloadDescribed s) payloads cases) :
    ∃ infos, payloads.mapM (TypeInformation.payload s) = some infos ∧
      List.Forall₂ (Option.Rel TypeInformation.Lists) infos cases := by
  induction h with
  | nil => exact ⟨[], rfl, .nil⟩
  | cons hty _ ih =>
    obtain ⟨infos, hinfos, hall⟩ := ih
    cases hty with
    | none =>
      refine ⟨none :: infos, ?_, .cons .none hall⟩
      rw [mapM_cons, hinfos]
      rfl
    | some hty =>
      obtain ⟨info, abi, hinfo, habi, hlists, hcount⟩ := hty
      refine ⟨some info :: infos, ?_, .cons (.some hlists) hall⟩
      rw [mapM_cons, hinfos, TypeInformation.payload, hinfo]
      rfl

theorem abiOf_ok (h : abiOf ty s = (.ok abi, s')) : s.canonicalAbi ty = some abi ∧ s' = s := by
  unfold abiOf at h
  rw [run_get_bind] at h
  exact unwrap_ok.1 h

theorem Described.abi_eq (hty : Described s ty t) (h : s.canonicalAbi ty = some abi) :
    abi.flatCount = t.flatCount := by
  obtain ⟨info, abi', hinfo, habi, hlists, hcount⟩ := hty
  rw [h] at habi
  cases habi
  exact hcount

theorem abisOf_ok (h : List.Forall₂ (Described s) types ts) {abis : List CanonicalAbiInfo}
    (hrun : abisOf types s = (.ok abis, s')) :
    s' = s ∧ List.Forall₂ (fun abi t => abi.flatCount = ValType.flatCount t) abis ts := by
  induction h generalizing abis s' with
  | nil =>
    obtain ⟨rfl, rfl⟩ := pure_ok.1 hrun
    exact ⟨rfl, .nil⟩
  | cons hty _ ih =>
    obtain ⟨abi, s1, habi, hrun1⟩ := bind_ok.1 hrun
    obtain ⟨habi, rfl⟩ := abiOf_ok habi
    obtain ⟨abis', s2, habis, hrun2⟩ := bind_ok.1 hrun1
    obtain ⟨rfl, hall⟩ := ih habis
    obtain ⟨rfl, rfl⟩ := pure_ok.1 hrun2
    exact ⟨rfl, .cons (hty.abi_eq habi) hall⟩

theorem payloadAbisOf_ok (h : List.Forall₂ (PayloadDescribed s) payloads cases)
    {abis : List (Option CanonicalAbiInfo)} (hrun : payloadAbisOf payloads s = (.ok abis, s')) :
    s' = s ∧ List.Forall₂ (Option.Rel fun abi t => abi.flatCount = ValType.flatCount t)
      abis cases := by
  induction h generalizing abis s' with
  | nil =>
    obtain ⟨rfl, rfl⟩ := pure_ok.1 hrun
    exact ⟨rfl, .nil⟩
  | cons hty _ ih =>
    cases hty with
    | none =>
      obtain ⟨abis', s2, habis, hrun1⟩ := bind_ok.1 hrun
      obtain ⟨rfl, hall⟩ := ih habis
      obtain ⟨rfl, rfl⟩ := pure_ok.1 hrun1
      exact ⟨rfl, .cons .none hall⟩
    | some hty =>
      obtain ⟨abi, s1, habi, hrun1⟩ := bind_ok.1 hrun
      obtain ⟨habi, rfl⟩ := abiOf_ok habi
      obtain ⟨abis', s2, habis, hrun2⟩ := bind_ok.1 hrun1
      obtain ⟨rfl, hall⟩ := ih habis
      obtain ⟨rfl, rfl⟩ := pure_ok.1 hrun2
      exact ⟨rfl, .cons (.some (hty.abi_eq habi)) hall⟩

/-- The conversion has only added types, and the result is described as `t` is. -/
structure Made (s s' : Builder) (ty : InterfaceType) (t : ValType) : Prop where
  ext : Extends s s'
  cached : Cached s'
  described : Described s' ty t

theorem made_of_addType (hs : Cached s) (h : addType kind val s = (.ok i, s'))
    (hlists : ∀ info, TypeInformation.fill s kind val = some info → info.Lists t)
    (hcount : (kind.abi val).flatCount = t.flatCount) : Made s s' (.defined kind i) t := by
  obtain ⟨hext, hcached, info, hfill, hinfo, habi⟩ := addType_ok hs h
  exact ⟨hext, hcached, info, kind.abi val, hinfo, habi, hlists info hfill, hcount⟩

theorem lists_record (h : List.Forall₂ (Described s) types ts)
    (hfill : (do
      let infos ← types.mapM s.typeInformation
      pure (TypeInformation.new.buildRecord infos)) = some info) :
    info.flat.Holds (ValType.flattenAll .i32 ts) (ValType.flattenAll .i64 ts) := by
  obtain ⟨infos, hinfos, hall⟩ := infos_of_described h
  rw [hinfos] at hfill
  cases hfill
  exact TypeInformation.buildRecord_holds hall

theorem lists_variant (h : List.Forall₂ (PayloadDescribed s) payloads cases)
    (hfill : (do
      let infos ← payloads.mapM (TypeInformation.payload s)
      pure (TypeInformation.new.buildVariant infos)) = some info) :
    info.flat.Holds (.i32 :: ValType.joinPayloads .i32 [] cases)
      (.i32 :: ValType.joinPayloads .i64 [] cases) := by
  obtain ⟨infos, hinfos, hall⟩ := payloadInfos_of_described h
  rw [hinfos] at hfill
  cases hfill
  exact TypeInformation.buildVariant_holds hall

theorem newTupleType_ok (hs : Cached s) (hts : List.Forall₂ (Described s) types ts)
    (h : newTupleType types s = (.ok i, s')) : Made s s' (.defined .tuple i) (.tuple ts) := by
  obtain ⟨abis, s1, habis, h1⟩ := bind_ok.1 h
  obtain ⟨rfl, hall⟩ := abisOf_ok hts habis
  obtain ⟨abi, hrecord, h2⟩ := unwrap_bind_ok.1 h1
  refine made_of_addType hs h2 (fun info hfill => ?_) ?_
  · unfold TypeInformation.Lists
    exact lists_record hts hfill
  · simp only [ValType.flatCount, ValType.flatten]
    exact record_flatCount hrecord hall

theorem recordType_ok (hs : Cached s) {fields : List RecordField} {fs : List (String × ValType)}
    (hts : List.Forall₂ (Described s) (fields.map RecordField.ty) (fs.map Prod.snd))
    (h : recordType fields s = (.ok i, s')) : Made s s' (.defined .record i) (.record fs) := by
  obtain ⟨abis, s1, habis, h1⟩ := bind_ok.1 h
  obtain ⟨rfl, hall⟩ := abisOf_ok hts habis
  obtain ⟨abi, hrecord, h2⟩ := unwrap_bind_ok.1 h1
  refine made_of_addType hs h2 (fun info hfill => ?_) ?_
  · unfold TypeInformation.Lists
    simp only [ValType.flatten, ValType.flattenFields_eq]
    refine lists_record hts ?_
    rw [mapM_map]
    exact hfill
  · simp only [ValType.flatCount, ValType.flatten, ValType.flattenFields_eq]
    exact record_flatCount hrecord hall

theorem variantInfo_ok (hts : List.Forall₂ (PayloadDescribed s) payloads cases)
    {r : VariantInfo × CanonicalAbiInfo} (h : variantInfo payloads s = (.ok r, s')) :
    s' = s ∧ r.2.flatCount = limited (ValType.joinPayloads .i32 [] cases).length.succ := by
  obtain ⟨abis, s1, habis, h1⟩ := bind_ok.1 h
  obtain ⟨rfl, hall⟩ := payloadAbisOf_ok hts habis
  obtain ⟨hr, rfl⟩ := unwrap_ok.1 h1
  exact ⟨rfl, variant_flatCount (VariantInfo.new_snd hr) hall⟩

theorem variantType_ok (hs : Cached s) {cs : List (String × Option InterfaceType)}
    {vs : List (String × Option String × Option ValType)}
    (hts : List.Forall₂ (PayloadDescribed s) (cs.map Prod.snd) (vs.map fun c => c.2.2))
    (h : variantType cs s = (.ok i, s')) : Made s s' (.defined .variant i) (.variant vs) := by
  obtain ⟨⟨vinfo, abi⟩, s1, hinfo, h1⟩ := bind_ok.1 h
  obtain ⟨rfl, hcount⟩ := variantInfo_ok hts hinfo
  refine made_of_addType hs h1 (fun info hfill => ?_) ?_
  · unfold TypeInformation.Lists
    simp only [ValType.flatten, ValType.flattenCases_eq]
    refine lists_variant hts ?_
    rw [mapM_map]
    exact hfill
  · simp only [ValType.flatCount, ValType.flatten, ValType.flattenCases_eq, length_cons]
    exact hcount

theorem optionType_ok (hs : Cached s) (hty : Described s ty t) (h : optionType ty s = (.ok i, s')) :
    Made s s' (.defined .option i) (.option t) := by
  have hts : List.Forall₂ (PayloadDescribed s) [none, some ty] [none, some t] :=
    .cons .none (.cons (.some hty) .nil)
  obtain ⟨⟨vinfo, abi⟩, s1, hinfo, h1⟩ := bind_ok.1 h
  obtain ⟨rfl, hcount⟩ := variantInfo_ok hts hinfo
  refine made_of_addType hs h1 (fun info hfill => ?_) ?_
  · unfold TypeInformation.Lists
    exact lists_variant hts hfill
  · simp only [ValType.flatCount, ValType.flatten, length_cons]
    exact hcount

theorem resultType_ok (hs : Cached s) {ok err : Option InterfaceType} {okT errT : Option ValType}
    (hok : PayloadDescribed s ok okT) (herr : PayloadDescribed s err errT)
    (h : resultType ok err s = (.ok i, s')) :
    Made s s' (.defined .result i) (.result okT errT) := by
  have hts : List.Forall₂ (PayloadDescribed s) [ok, err] [okT, errT] := .cons hok (.cons herr .nil)
  obtain ⟨⟨vinfo, abi⟩, s1, hinfo, h1⟩ := bind_ok.1 h
  obtain ⟨rfl, hcount⟩ := variantInfo_ok hts hinfo
  refine made_of_addType hs h1 (fun info hfill => ?_) ?_
  · unfold TypeInformation.Lists
    exact lists_variant hts hfill
  · simp only [ValType.flatCount, ValType.flatten, length_cons]
    exact hcount

theorem nones_described (s : Builder) (names : List String) :
    List.Forall₂ (PayloadDescribed s) (names.map fun _ => none) (names.map fun _ => none) := by
  induction names with
  | nil => exact .nil
  | cons name names ih => exact .cons .none ih

theorem joinPayloads_nones (pointer : FlatType) (joined : List FlatType) (names : List String) :
    ValType.joinPayloads pointer joined (names.map fun _ => none) = joined := by
  induction names with
  | nil => rfl
  | cons name names ih =>
    rw [map_cons, ValType.joinPayloads, foldl_cons, ValType.flattenPayload, joinLists_nil_right]
    exact ih

theorem enumType_ok (hs : Cached s) {names : List String} (h : enumType names s = (.ok i, s')) :
    Made s s' (.defined .enum i) (.enum names) := by
  obtain ⟨⟨vinfo, abi⟩, s1, hinfo, h1⟩ := bind_ok.1 h
  obtain ⟨rfl, hcount⟩ := variantInfo_ok (nones_described s names) hinfo
  refine made_of_addType hs h1 (fun info hfill => ?_) ?_
  · cases hfill
    exact new_holds.push .i32 .i32
  · rw [joinPayloads_nones] at hcount
    exact hcount

theorem iterate_push_holds (n : Nat) {flat : FlatTypesStorage} {l32 l64 : List FlatType}
    (h : flat.Holds l32 l64) :
    ((fun flat => (FlatTypesStorage.push flat .i32 .i32).1)^[n] flat).Holds
      (l32 ++ List.replicate n .i32) (l64 ++ List.replicate n .i32) := by
  induction n generalizing flat l32 l64 with
  | zero => simpa using h
  | succ n ih =>
    rw [Function.iterate_succ_apply, replicate_succ]
    have := ih (h.push .i32 .i32)
    simpa [append_assoc] using this

theorem flags_size {count : Nat} {size : FlagsSize} (h : FlagsSize.fromCount count = some size) :
    match size with
    | .size0 => numFlagWords count = 0
    | .size1 | .size2 => numFlagWords count = 1
    | .size4Plus n => numFlagWords count = n := by
  unfold FlagsSize.fromCount at h
  unfold numFlagWords
  dsimp only at h
  split_ifs at h
  all_goals cases h
  all_goals dsimp only
  all_goals omega

theorem flagsType_ok (hs : Cached s) {names : List String} (h : flagsType names s = (.ok i, s')) :
    Made s s' (.defined .flags i) (.flags names) := by
  obtain ⟨abi, hflags, h1⟩ := unwrap_bind_ok.1 h
  refine made_of_addType hs h1 (fun info hfill => ?_) ?_
  · unfold TypeInformation.Lists
    simp only [ValType.flatten]
    simp only [TypeInformation.fill, TypeInformation.flags, Option.bind_eq_bind,
      Option.bind_eq_some_iff, Option.pure_def, Option.some.injEq] at hfill
    obtain ⟨size, hsize, rfl⟩ := hfill
    have hwords := flags_size hsize
    cases size with
    | size0 =>
      rw [show numFlagWords names.length = 0 from hwords]
      exact new_holds
    | size1 | size2 =>
      rw [show numFlagWords names.length = 1 from hwords]
      exact new_holds.push .i32 .i32
    | size4Plus n =>
      rw [show numFlagWords names.length = n from hwords]
      exact iterate_push_holds n new_holds
  · simp only [ValType.flatCount]
    unfold CanonicalAbiInfo.flags at hflags
    simp only [Option.bind_eq_bind, Option.bind_eq_some_iff, Option.pure_def,
      Option.some.injEq] at hflags
    obtain ⟨size, hsize, rfl⟩ := hflags
    have hwords := flags_size hsize
    cases size with
    | size0 => rw [show numFlagWords names.length = 0 from hwords]; rfl
    | size1 | size2 => rw [show numFlagWords names.length = 1 from hwords]; rfl
    | size4Plus n => rw [show numFlagWords names.length = n from hwords]; rfl

theorem listType_ok (hs : Cached s) (h : addType .list ⟨ty⟩ s = (.ok i, s')) :
    Made s s' (.defined .list i) (.list t) := by
  refine made_of_addType hs h (fun info hfill => ?_) ?_
  · unfold TypeInformation.Lists
    simp only [TypeInformation.fill, TypeInformation.lists, Option.bind_eq_bind,
      Option.bind_eq_some_iff, Option.pure_def, Option.some.injEq] at hfill
    obtain ⟨element, -, rfl⟩ := hfill
    exact (new_holds.push .i32 .i64).push .i32 .i64
  · simp only [ValType.flatCount, ValType.flatten]
    rfl

/-! ### Handles and primitive types -/

theorem primitive_holds (flat : FlatType) :
    (TypeInformation.primitive flat).flat.Holds [flat] [flat] :=
  new_holds.push flat flat

theorem made_handle (hs : Cached s) (htables : s'.tables = s.tables)
    (hinfo : ∃ info, s'.typeInformation ty = some info ∧ info.flat.Holds [.i32] [.i32])
    (habi : s'.canonicalAbi ty = some (.scalar 4)) (hflat : ∀ p, t.flatten p = [.i32]) :
    Made s s' ty t := by
  obtain ⟨info, hinfo, hholds⟩ := hinfo
  have hcount := t.counts_flatCount
  rw [hflat] at hcount
  refine ⟨.of_tables htables, hs.of_tables htables, info, _, hinfo, habi, ?_,
    (hcount.eq (by decide)).symm⟩
  unfold TypeInformation.Lists
  rw [hflat, hflat]
  exact hholds

theorem futureTableType_tables {payload : Option InterfaceType}
    (h : futureTableType payload s = (.ok i, s')) : s'.tables = s.tables := by
  unfold futureTableType at h
  rw [run_get_bind] at h
  dsimp only at h
  rw [run_set_bind, run_get_bind] at h
  obtain ⟨_, s1, hinst, h1⟩ := bind_ok.1 h
  unfold getCurrentInstance at hinst
  rw [run_get_bind] at hinst
  obtain ⟨-, rfl⟩ := unwrap_ok.1 hinst
  rw [run_set_bind] at h1
  obtain ⟨-, rfl⟩ := pure_ok.1 h1
  rfl

theorem streamTableType_tables {payload : Option InterfaceType}
    (h : streamTableType payload s = (.ok i, s')) : s'.tables = s.tables := by
  unfold streamTableType at h
  rw [run_get_bind] at h
  dsimp only at h
  rw [run_set_bind, run_get_bind] at h
  obtain ⟨_, s1, hinst, h1⟩ := bind_ok.1 h
  unfold getCurrentInstance at hinst
  rw [run_get_bind] at hinst
  obtain ⟨-, rfl⟩ := unwrap_ok.1 hinst
  rw [run_set_bind] at h1
  obtain ⟨-, rfl⟩ := pure_ok.1 h1
  rfl

theorem errorContextTableType_tables (h : errorContextTableType s = (.ok i, s')) :
    s'.tables = s.tables := by
  unfold errorContextTableType at h
  rw [run_get_bind] at h
  obtain ⟨_, s1, hinst, h1⟩ := bind_ok.1 h
  unfold getCurrentInstance at hinst
  rw [run_get_bind] at hinst
  obtain ⟨-, rfl⟩ := unwrap_ok.1 hinst
  dsimp only at h1
  rw [run_set_bind] at h1
  obtain ⟨-, rfl⟩ := pure_ok.1 h1
  rfl

theorem primitiveType_ok (hs : Cached s) {p : PrimitiveValType}
    (h : primitiveType p s = (.ok ty, s')) : Made s s' ty (.primitive p) := by
  cases p
  case errorContext =>
    obtain ⟨i, s1, hrun, h1⟩ := bind_ok.1 h
    obtain ⟨rfl, rfl⟩ := pure_ok.1 h1
    exact made_handle hs (errorContextTableType_tables hrun) ⟨_, rfl, primitive_holds .i32⟩ rfl
      fun _ => rfl
  all_goals
    obtain ⟨rfl, rfl⟩ := pure_ok.1 h
    refine ⟨.refl s', hs, _, _, rfl, rfl, ?_, rfl⟩
  case string => exact (new_holds.push .i32 .i64).push .i32 .i64
  all_goals exact primitive_holds _

theorem checkDepth_ok {ret : InterfaceType} (h : checkDepth ret s = (.ok ty, s')) :
    ty = ret ∧ s' = s := by
  unfold checkDepth at h
  rw [run_get_bind] at h
  obtain ⟨info, -, h1⟩ := unwrap_bind_ok.1 h
  split at h1
  · exact (err_ok.1 h1).elim
  · exact pure_ok.1 h1

/-! ### The conversion of a type -/

theorem Made.after {s0 : Builder} (h : Made s s' ty t) (hext : Extends s0 s) : Made s0 s' ty t :=
  ⟨hext.trans h.ext, h.cached, h.described⟩

/-- A type is made of its parts, which have been made, and its depth is checked. -/
theorem Made.checked {s0 : Builder} {m : Conv Nat} {f : Nat → InterfaceType}
    (h : (m >>= fun i => checkDepth (f i)) s = (.ok ty, s')) (hext : Extends s0 s)
    (hmade : ∀ i, m s = (.ok i, s') → Made s s' (f i) t) : Made s0 s' ty t := by
  obtain ⟨i, s1, hm, h1⟩ := bind_ok.1 h
  obtain ⟨rfl, rfl⟩ := checkDepth_ok h1
  exact (hmade i hm).after hext

mutual

/-- **The conversion of a type describes it**, for every type. -/
theorem valtype_ok : ∀ (t : ValType) {s s' : Builder} {ty : InterfaceType}, Cached s →
    valtype t s = (.ok ty, s') → Made s s' ty t
  | .primitive p, s, s', ty, hs, h => primitiveType_ok hs h
  | .record fields, s, s', ty, hs, h => by
    obtain ⟨fs, s1, hfields, h1⟩ := bind_ok.1 h
    obtain ⟨hext, hcached, hall⟩ := fieldTypes_ok fields hs hfields
    exact .checked h1 hext fun i hrec => recordType_ok hcached hall hrec
  | .variant cases, s, s', ty, hs, h => by
    obtain ⟨cs, s1, hcases, h1⟩ := bind_ok.1 h
    obtain ⟨hext, hcached, hall⟩ := caseTypes_ok cases hs hcases
    exact .checked h1 hext fun i hvar => variantType_ok hcached hall hvar
  | .list element, s, s', ty, hs, h => by
    obtain ⟨e, s1, helement, h1⟩ := bind_ok.1 h
    have hmade := valtype_ok element hs helement
    exact .checked h1 hmade.ext fun i hlist => listType_ok hmade.cached hlist
  | .tuple types, s, s', ty, hs, h => by
    obtain ⟨tys, s1, htypes, h1⟩ := bind_ok.1 h
    obtain ⟨hext, hcached, hall⟩ := valtypes_ok types hs htypes
    exact .checked h1 hext fun i htuple => newTupleType_ok hcached hall htuple
  | .flags names, s, s', ty, hs, h => .checked h (.refl s) fun i hflags => flagsType_ok hs hflags
  | .enum names, s, s', ty, hs, h => .checked h (.refl s) fun i henum => enumType_ok hs henum
  | .option t, s, s', ty, hs, h => by
    obtain ⟨e, s1, hpayload, h1⟩ := bind_ok.1 h
    have hmade := valtype_ok t hs hpayload
    exact .checked h1 hmade.ext fun i hopt => optionType_ok hmade.cached hmade.described hopt
  | .result okT errT, s, s', ty, hs, h => by
    obtain ⟨ok, s1, hok, h1⟩ := bind_ok.1 h
    obtain ⟨hext1, hcached1, hdesc1⟩ := payloadType_ok okT hs hok
    obtain ⟨err, s2, herr, h2⟩ := bind_ok.1 h1
    obtain ⟨hext2, hcached2, hdesc2⟩ := payloadType_ok errT hcached1 herr
    exact .checked h2 (hext1.trans hext2) fun i hres =>
      resultType_ok hcached2 (hdesc1.mono hext2) hdesc2 hres
  | .own resource, s, s', ty, hs, h | .borrow resource, s, s', ty, hs, h => by
    obtain ⟨rfl, rfl⟩ := checkDepth_ok h
    exact made_handle hs rfl ⟨_, rfl, primitive_holds .i32⟩ rfl
      fun _ => by simp only [ValType.flatten]
  | .future payload, s, s', ty, hs, h => by
    obtain ⟨o, s1, hpayload, h1⟩ := bind_ok.1 h
    obtain ⟨hext, hcached, -⟩ := payloadType_ok payload hs hpayload
    exact .checked h1 hext fun i hfuture => made_handle hcached (futureTableType_tables hfuture)
      ⟨_, rfl, primitive_holds .i32⟩ rfl fun _ => by simp only [ValType.flatten]
  | .stream payload, s, s', ty, hs, h => by
    obtain ⟨o, s1, hpayload, h1⟩ := bind_ok.1 h
    obtain ⟨hext, hcached, -⟩ := payloadType_ok payload hs hpayload
    exact .checked h1 hext fun i hstream => made_handle hcached (streamTableType_tables hstream)
      ⟨_, rfl, primitive_holds .i32⟩ rfl fun _ => by simp only [ValType.flatten]
  | .fixedSizeList element length, s, s', ty, hs, h => (err_ok.1 h).elim

theorem payloadType_ok : ∀ (p : Option ValType) {s s' : Builder} {o : Option InterfaceType},
    Cached s → payloadType p s = (.ok o, s') →
    Extends s s' ∧ Cached s' ∧ PayloadDescribed s' o p
  | none, s, s', o, hs, h => by
    obtain ⟨rfl, rfl⟩ := pure_ok.1 h
    exact ⟨.refl s', hs, .none⟩
  | some t, s, s', o, hs, h => by
    obtain ⟨ty, s1, hty, h1⟩ := bind_ok.1 h
    have hmade := valtype_ok t hs hty
    obtain ⟨rfl, rfl⟩ := pure_ok.1 h1
    exact ⟨hmade.ext, hmade.cached, .some hmade.described⟩

theorem valtypes_ok : ∀ (ts : List ValType) {s s' : Builder} {types : List InterfaceType},
    Cached s → valtypes ts s = (.ok types, s') →
    Extends s s' ∧ Cached s' ∧ List.Forall₂ (Described s') types ts
  | [], s, s', types, hs, h => by
    obtain ⟨rfl, rfl⟩ := pure_ok.1 h
    exact ⟨.refl s', hs, .nil⟩
  | t :: ts, s, s', types, hs, h => by
    obtain ⟨ty, s1, hty, h1⟩ := bind_ok.1 h
    have hmade := valtype_ok t hs hty
    obtain ⟨tys, s2, htypes, h2⟩ := bind_ok.1 h1
    obtain ⟨hext, hcached, hall⟩ := valtypes_ok ts hmade.cached htypes
    obtain ⟨rfl, rfl⟩ := pure_ok.1 h2
    exact ⟨hmade.ext.trans hext, hcached, .cons (hmade.described.mono hext) hall⟩

theorem fieldTypes_ok : ∀ (fs : List (String × ValType)) {s s' : Builder}
    {fields : List RecordField}, Cached s → fieldTypes fs s = (.ok fields, s') →
    Extends s s' ∧ Cached s' ∧
      List.Forall₂ (Described s') (fields.map RecordField.ty) (fs.map Prod.snd)
  | [], s, s', fields, hs, h => by
    obtain ⟨rfl, rfl⟩ := pure_ok.1 h
    exact ⟨.refl s', hs, .nil⟩
  | (name, t) :: fs, s, s', fields, hs, h => by
    obtain ⟨ty, s1, hty, h1⟩ := bind_ok.1 h
    have hmade := valtype_ok t hs hty
    obtain ⟨rest, s2, hrest, h2⟩ := bind_ok.1 h1
    obtain ⟨hext, hcached, hall⟩ := fieldTypes_ok fs hmade.cached hrest
    obtain ⟨rfl, rfl⟩ := pure_ok.1 h2
    exact ⟨hmade.ext.trans hext, hcached, .cons (hmade.described.mono hext) hall⟩

theorem caseTypes_ok : ∀ (vs : List (String × Option String × Option ValType)) {s s' : Builder}
    {cs : List (String × Option InterfaceType)}, Cached s → caseTypes vs s = (.ok cs, s') →
    Extends s s' ∧ Cached s' ∧
      List.Forall₂ (PayloadDescribed s') (cs.map Prod.snd) (vs.map fun c => c.2.2)
  | [], s, s', cs, hs, h => by
    obtain ⟨rfl, rfl⟩ := pure_ok.1 h
    exact ⟨.refl s', hs, .nil⟩
  | (name, some refines, p) :: vs, s, s', cs, hs, h => by
    obtain ⟨_, s1, herr, -⟩ := bind_ok.1 h
    exact (err_ok.1 herr).elim
  | (name, none, p) :: vs, s, s', cs, hs, h => by
    obtain ⟨o, s1, hty, h1⟩ := bind_ok.1 h
    obtain ⟨hext1, hcached1, hdesc⟩ := payloadType_ok p hs hty
    obtain ⟨rest, s2, hrest, h2⟩ := bind_ok.1 h1
    obtain ⟨hext2, hcached2, hall⟩ := caseTypes_ok vs hcached1 hrest
    obtain ⟨rfl, rfl⟩ := pure_ok.1 h2
    exact ⟨hext1.trans hext2, hcached2, .cons (hdesc.mono hext2) hall⟩

end

/-! ### Runs of a builder -/

/-- What a builder is asked for: a type, or the tuple of the parameters of a function. -/
inductive Request where
  | valtype (t : ValType)
  | tuple (ts : List ValType)

def Request.type : Request → ValType
  | .valtype t => t
  | .tuple ts => .tuple ts

def Request.run : Request → Conv InterfaceType
  | .valtype t => Builder.valtype t
  | .tuple ts => tupleOf ts

theorem Request.run_ok {request : Request} (hs : Cached s) (h : request.run s = (.ok ty, s')) :
    Made s s' ty request.type := by
  cases request with
  | valtype t => exact valtype_ok t hs h
  | tuple ts =>
    obtain ⟨types, s1, htypes, h1⟩ := bind_ok.1 h
    obtain ⟨hext, hcached, hall⟩ := valtypes_ok ts hs htypes
    obtain ⟨i, s2, htuple, h2⟩ := bind_ok.1 h1
    obtain ⟨rfl, rfl⟩ := pure_ok.1 h2
    exact (newTupleType_ok hcached hall htuple).after hext

/-- A step is a request that is answered, or the turn to another instance. -/
inductive Step : Builder → Unit → Builder → Prop where
  | request {s s' : Builder} (request : Request) (ty : InterfaceType)
      (h : request.run s = (.ok ty, s')) : Step s () s'
  | turn (s : Builder) (inst : Option Nat) : Step s () { s with currentInstance := inst }

theorem Step.made (hs : Cached s) (h : Step s () s') : Extends s s' ∧ Cached s' := by
  cases h with
  | request request ty h =>
    have hmade := Request.run_ok hs h
    exact ⟨hmade.ext, hmade.cached⟩
  | turn inst => exact ⟨.of_tables rfl, hs.of_tables rfl⟩

theorem run_made {tr : List Unit} (hs : Cached s) (h : Trace Step s tr s') :
    Extends s s' ∧ Cached s' :=
  h.invariant (I := fun x => Extends s x ∧ Cached x) ⟨.refl s, hs⟩ fun _ _ _ hI hstep =>
    ⟨hI.1.trans (hstep.made hI.2).1, (hstep.made hI.2).2⟩

/-- The count of the flat types is there exactly if they are, and is their number. They are
those of the canonical ABI, unless there are too many. -/
def Consistent (s : Builder) (ty : InterfaceType) (t : ValType) : Prop :=
  ∃ abi flat, s.canonicalAbi ty = some abi ∧ s.flatTypes ty = some flat ∧
    (t.flatten .i32).length = (t.flatten .i64).length ∧
    (flat = if (t.flatten .i32).length ≤ maxFlatTypes then some ⟨t.flatten .i32, t.flatten .i64⟩
      else none) ∧
    ∀ n, abi.flatCount = some n ↔
      ∃ types, flat = some types ∧ types.memory32.length = n ∧ types.memory64.length = n

def ManyFlags : ValType → Prop
  | .flags names => 512 < names.length
  | _ => False

theorem flatCount_of_not_manyFlags (h : ¬ ManyFlags t) :
    t.flatCount = limited (t.flatten .i32).length := by
  cases t with
  | flags names =>
    have hle : numFlagWords names.length ≤ maxFlatTypes := by
      have hmax : maxFlatTypes = 16 := rfl
      have hnames : ¬ 512 < names.length := h
      unfold numFlagWords
      omega
    simp only [ValType.flatCount, ValType.flatten, length_replicate, limited, if_pos hle]
  | _ => simp only [ValType.flatCount]

theorem Described.consistent_iff (h : Described s ty t) : Consistent s ty t ↔ ¬ ManyFlags t := by
  obtain ⟨info, abi, hinfo, habi, hlists, hcount⟩ := h
  have hlists : info.flat.Holds (t.flatten .i32) (t.flatten .i64) := hlists
  have hflat : s.flatTypes ty = some (if (t.flatten .i32).length ≤ maxFlatTypes then
      some ⟨t.flatten .i32, t.flatten .i64⟩ else none) := by
    rw [Builder.flatTypes, hinfo, Option.map_some, hlists.asFlatTypes_eq]
  constructor
  · rintro ⟨abi', flat, habi', hflat', -, heq, hiff⟩ hmany
    rw [habi] at habi'
    cases habi'
    cases t with
    | flags names =>
      have hnames : 512 < names.length := hmany
      have hmax : maxFlatTypes = 16 := rfl
      obtain ⟨types, htypes, -⟩ := (hiff _).1 hcount
      rw [heq, if_neg] at htypes
      · cases htypes
      · simp only [ValType.flatten, length_replicate, numFlagWords]
        omega
    | _ => exact hmany
  · intro hfew
    rw [flatCount_of_not_manyFlags hfew] at hcount
    refine ⟨abi, _, habi, hflat, hlists.length_eq, rfl, fun n => ?_⟩
    rw [hcount, limited]
    by_cases hfit : (t.flatten .i32).length ≤ maxFlatTypes
    · rw [if_pos hfit, if_pos hfit]
      constructor
      · intro hn
        cases hn
        exact ⟨_, rfl, rfl, hlists.length_eq.symm⟩
      · rintro ⟨types, htypes, h32, -⟩
        cases htypes
        rw [← h32]
    · rw [if_neg hfit, if_neg hfit]
      constructor
      · intro hn
        cases hn
      · rintro ⟨types, htypes, -⟩
        cases htypes

/-- **The canonical ABI information of a type is consistent exactly if it is not flags of more
than 512 names.** -/
theorem flat_consistent_iff {tr tr' : List Unit} {s s1 s2 : Builder} {request : Request}
    {ty : InterfaceType} (hrun : Trace Step .new tr s) (hbuilt : request.run s = (.ok ty, s1))
    (hlater : Trace Step s1 tr' s2) : Consistent s2 ty request.type ↔ ¬ ManyFlags request.type := by
  obtain ⟨-, hcached⟩ := run_made cached_new hrun
  have hmade := Request.run_ok hcached hbuilt
  exact (hmade.described.mono (run_made hmade.cached hlater).1).consistent_iff

def sampleType : ValType := .record [("a", .primitive .f32),
    ("b", .variant [("c", none, some (.primitive .f32)), ("d", none, some (.list (.primitive .u8))),
      ("e", none, none)])]

theorem flat_consistent_sample : ∃ ty s1, valtype sampleType .new = (.ok ty, s1) ∧
    Consistent s1 ty sampleType ∧
    sampleType.flatten .i32 = [.f32, .i32, .i32, .i32] ∧
    sampleType.flatten .i64 = [.f32, .i32, .i64, .i64] := by
  have hrun : (valtype sampleType .new).1 = .ok (.defined .record 0) := by decide +kernel
  rcases hs1 : valtype sampleType .new with ⟨o, s1⟩
  rw [hs1] at hrun
  cases hrun
  have hbuilt : (Request.valtype sampleType).run .new = (.ok (.defined .record 0), s1) := hs1
  have hfew : ¬ ManyFlags sampleType := fun h => h
  exact ⟨_, s1, rfl, (flat_consistent_iff (.nil _) hbuilt (.nil _)).2 hfew, by decide +kernel,
    by decide +kernel⟩

def flagNames (count : Nat) : List String :=
  (List.range count).map fun i => String.ofList (List.replicate (i + 1) 'a')

/-- Flags of 513 different names: a count of 17, and no list. -/
theorem many_flags_inconsistent : (flagNames 513).Nodup ∧
    ∃ ty s1, valtype (.flags (flagNames 513)) .new = (.ok ty, s1) ∧
      (s1.canonicalAbi ty).map CanonicalAbiInfo.flatCount = some (some 17) ∧
      s1.flatTypes ty = some none := by
  refine ⟨?_, ?_⟩
  · refine nodup_range.map fun i j hij => ?_
    have hlen := congrArg List.length (String.ofList_injective hij)
    simpa using hlen
  · have hrun : (valtype (.flags (flagNames 513)) .new).1 = .ok (.defined .flags 0) := by
      decide +kernel
    rcases hs1 : valtype (.flags (flagNames 513)) .new with ⟨o, s1⟩
    rw [hs1] at hrun
    cases hrun
    obtain ⟨info, abi, hinfo, habi, hlists, hcount⟩ := (valtype_ok _ cached_new hs1).described
    have hwords : numFlagWords (flagNames 513).length = 17 := by
      rw [flagNames, length_map, length_range]
      rfl
    refine ⟨_, s1, rfl, ?_, ?_⟩
    · rw [habi, Option.map_some, hcount, ValType.flatCount, hwords]
    · have hholds : info.flat.Holds _ _ := hlists
      rw [Builder.flatTypes, hinfo, Option.map_some, hholds.asFlatTypes_eq, if_neg]
      simp only [ValType.flatten, length_replicate, hwords]
      decide

end Builder

end Wasmtime.Environ
