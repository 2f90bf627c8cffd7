import Mathlib.Tactic

/-!
# Names of imports and exports with versions

`component/names.rs`: a map in which `a:b/c@1.0.2` is also found under any other version of its
track `a:b/c@1`. An exact definition comes first; otherwise it is the one with the greatest version
of the track. `Semver` says what is used of the crate `semver`, and names are known to the maps by
keys (`NameMapIntern`).

The history of the map is the list of what was stored, the newest first, and `name_map_resolves`
says what is found in terms of it.
-/

namespace Wasmtime.Environ

open List Function Option

abbrev Name := List Char

def decimal (n : Nat) : Name := Nat.toDigits 10 n

/-- Versions, their order, and their text, which begins with two numbers. -/
structure Semver where
  Version : Type
  order : LinearOrder Version
  major : Version → Nat
  minor : Version → Nat
  hasPre : Version → Bool
  parse : Name → Option Version
  parse_text : ∀ {s : Name} {v : Version}, parse s = some v →
    ∃ rest, s = decimal (major v) ++ '.' :: (decimal (minor v) ++ '.' :: rest)

instance (sv : Semver) : LinearOrder sv.Version := sv.order

/-- The keys of names. A name keeps its key, and no two have the same. -/
structure NameMapIntern (K : Type) where
  Cx : Type
  intern : Name → Cx → K × Cx
  lookup : Cx → Name → Option K
  lookup_intern : ∀ cx s t, lookup (intern s cx).2 t =
    if t = s then some (intern s cx).1 else lookup cx t
  intern_known : ∀ {cx s k}, lookup cx s = some k → (intern s cx).1 = k
  lookup_inj : ∀ {cx s t k}, lookup cx s = some k → lookup cx t = some k → s = t

def splitOnce (c : Char) : Name → Option (Name × Name)
  | [] => none
  | x :: l => if x = c then some ([], l) else (splitOnce c l).map fun r => (x :: r.1, r.2)

def alternateLookupKey (sv : Semver) (name : Name) : Option (Name × sv.Version) :=
  match splitOnce '@' name with
  | none => none
  | some (base, versionString) =>
    match sv.parse versionString with
    | none => none
    | some version =>
      if sv.hasPre version then none
      else if sv.major version ≠ 0 then
        (splitOnce '.' versionString).map fun r => (base ++ '@' :: r.1, version)
      else if sv.minor version ≠ 0 then
        (splitOnce '.' versionString).bind fun r =>
          (splitOnce '.' r.2).map fun r' => (base ++ '@' :: (r.1 ++ '.' :: r'.1), version)
      else none

structure NameMap (sv : Semver) (K V : Type) where
  definitions : K → Option V
  alternateLookups : K → Option (K × sv.Version)

variable {sv : Semver} {K V : Type} {I : NameMapIntern K}

namespace NameMap

variable [DecidableEq K]

def default : NameMap sv K V := ⟨fun _ => none, fun _ => none⟩

/-- The second half of `insert`: the greatest version of the track. -/
def insertAlternate (key : K) (name : Name) (s : NameMap sv K V × I.Cx) : NameMap sv K V × I.Cx :=
  match alternateLookupKey sv name with
  | none => s
  | some (alternateName, version) =>
    let (alternateKey, cx) := I.intern alternateName s.2
    let entry : K × sv.Version := match s.1.alternateLookups alternateKey with
      | some (prevKey, prevVersion) =>
        if version < prevVersion then (prevKey, prevVersion) else (key, version)
      | none => (key, version)
    let alternateLookups := update s.1.alternateLookups alternateKey (some entry)
    ({ s.1 with alternateLookups }, cx)

def insert (name : Name) (allowShadowing : Bool) (item : V) (s : NameMap sv K V × I.Cx) :
    Except String K × (NameMap sv K V × I.Cx) :=
  let (key, cx) := I.intern name s.2
  let prev := s.1.definitions key
  let definitions := update s.1.definitions key (some item)
  if prev.isSome && !allowShadowing then
    let text := String.ofList name
    (.error s!"map entry `{text}` defined twice",
      ({ s.1 with definitions := update definitions key prev }, cx))
  else
    (.ok key, insertAlternate key name ({ s.1 with definitions }, cx))

def get (s : NameMap sv K V × I.Cx) (name : Name) : Option V :=
  match (I.lookup s.2 name).bind s.1.definitions with
  | some item => some item
  | none =>
    (alternateLookupKey sv name).bind fun r =>
      (I.lookup s.2 r.1).bind fun alternateKey =>
        (s.1.alternateLookups alternateKey).bind fun e => s.1.definitions e.1

end NameMap

/-! ### Tracks -/

/-- The versions that are compatible: those of a major number, or of `0` and a minor number. -/
inductive Level where
  | major (n : Nat)
  | minor (n : Nat)

def Level.text : Level → Name
  | .major n => decimal n
  | .minor n => '0' :: '.' :: decimal n

def onTrack (sv : Semver) (name : Name) : Option ((Name × Level) × sv.Version) :=
  (splitOnce '@' name).bind fun (base, versionString) =>
    (sv.parse versionString).bind fun version =>
      if sv.hasPre version then none
      else if sv.major version ≠ 0 then some ((base, .major (sv.major version)), version)
      else if sv.minor version ≠ 0 then some ((base, .minor (sv.minor version)), version)
      else none

theorem splitOnce_eq_some {c : Char} {l a b : Name} :
    splitOnce c l = some (a, b) ↔ l = a ++ c :: b ∧ c ∉ a := by
  induction l generalizing a b with
  | nil => simp [splitOnce]
  | cons x l ih =>
    unfold splitOnce
    by_cases hx : x = c
    · subst hx
      rw [if_pos rfl]
      refine ⟨fun h => by cases h; exact ⟨rfl, not_mem_nil⟩, fun ⟨h, hc⟩ => ?_⟩
      cases a with
      | nil => cases h; rfl
      | cons y a => cases h; exact absurd mem_cons_self hc
    · rw [if_neg hx, map_eq_some_iff]
      constructor
      · rintro ⟨⟨a', b'⟩, h, he⟩
        cases he
        obtain ⟨rfl, ha⟩ := ih.1 h
        exact ⟨rfl, by simp [ha, Ne.symm hx]⟩
      · rintro ⟨h, hc⟩
        cases a with
        | nil => cases h; exact absurd rfl hx
        | cons y a =>
          cases h
          exact ⟨(a, b), ih.2 ⟨rfl, fun hm => hc (mem_cons_of_mem _ hm)⟩, rfl⟩

theorem dot_notMem_decimal (n : Nat) : '.' ∉ decimal n := fun h =>
  absurd (Nat.isDigit_of_mem_toDigits (by decide) (by decide) h) (by decide)

theorem decimal_inj {m n : Nat} (h : decimal m = decimal n) : m = n := by
  have hval := congrArg (fun l => Nat.ofDigitChars 10 l 0) h
  unfold decimal at hval
  rwa [Nat.ofDigitChars_toDigits (by decide) (by decide),
    Nat.ofDigitChars_toDigits (by decide) (by decide)] at hval

theorem Level.text_inj {l l' : Level} (h : l.text = l'.text) : l = l' := by
  have hdot : ∀ n, '.' ∈ (Level.minor n).text :=
    fun n => mem_cons_of_mem _ mem_cons_self
  have hnot : ∀ n, '.' ∉ (Level.major n).text := dot_notMem_decimal
  cases l <;> cases l'
  case major.major => exact congrArg Level.major (decimal_inj h)
  case minor.minor => exact congrArg Level.minor (decimal_inj (List.cons.inj (List.cons.inj h).2).2)
  case major.minor n m => exact absurd (h.symm ▸ hdot m) (hnot n)
  case minor.major n m => exact absurd (h ▸ hdot n) (hnot m)

/-- **The alternate key** is the text of the track. -/
theorem alternateLookupKey_eq (name : Name) : alternateLookupKey sv name =
    (onTrack sv name).map fun r => (r.1.1 ++ '@' :: r.1.2.text, r.2) := by
  unfold alternateLookupKey onTrack
  cases splitOnce '@' name with
  | none => rfl
  | some r =>
    dsimp only
    rw [bind_some]
    cases hparse : sv.parse r.2 with
    | none => rfl
    | some v =>
      obtain ⟨rest, htext⟩ := sv.parse_text hparse
      have hfirst : splitOnce '.' r.2 = some (decimal (sv.major v), _) :=
        splitOnce_eq_some.2 ⟨htext, dot_notMem_decimal _⟩
      have hsecond : splitOnce '.' (decimal (sv.minor v) ++ '.' :: rest) = some _ :=
        splitOnce_eq_some.2 ⟨rfl, dot_notMem_decimal _⟩
      simp only [bind_some, hfirst, hsecond, map_some]
      split_ifs with hpre hmajor hminor
      · rfl
      · rfl
      · rw [not_not.1 hmajor]
        rfl
      · rfl

theorem track_inj {n n' : Name} {t t' : Name × Level} {v v' : sv.Version}
    (h : onTrack sv n = some (t, v)) (h' : onTrack sv n' = some (t', v'))
    (heq : t.1 ++ '@' :: t.2.text = t'.1 ++ '@' :: t'.2.text) : t = t' := by
  have hbase : ∀ {n t v}, onTrack sv n = some (t, v) → '@' ∉ t.1 := by
    intro n t v h
    obtain ⟨⟨base, vs⟩, hsplit, h⟩ := bind_eq_some_iff.1 h
    obtain ⟨version, -, h⟩ := bind_eq_some_iff.1 h
    have hnot := (splitOnce_eq_some.1 hsplit).2
    split_ifs at h <;> cases h <;> exact hnot
  have hsplit := splitOnce_eq_some.2 ⟨heq, hbase h'⟩
  rw [splitOnce_eq_some.2 ⟨rfl, hbase h⟩] at hsplit
  obtain ⟨h1, h2⟩ := Prod.mk.inj (some.inj hsplit)
  exact Prod.ext h1 (Level.text_inj h2)

/-! ### What names mean to a map -/

section

variable {α : Type} {cx : I.Cx} {m : K → Option α} {name n : Name}

def view (cx : I.Cx) (m : K → Option α) (name : Name) : Option α := (I.lookup cx name).bind m

def Clean (cx : I.Cx) (m : K → Option α) : Prop := ∀ k, m k ≠ none → ∃ n, I.lookup cx n = some k

theorem view_intern (h : Clean cx m) (name n : Name) :
    view (I.intern name cx).2 m n = view cx m n ∧
      (n = name → m (I.intern name cx).1 = view cx m n) := by
  have hkey : m (I.intern name cx).1 = view cx m name := by
    unfold view
    cases hlook : I.lookup cx name with
    | some k => rw [I.intern_known hlook, bind_some]
    | none =>
      by_contra hne
      obtain ⟨n', hn'⟩ := h _ hne
      have hnew := I.lookup_intern cx name
      obtain rfl : n' = name := by
        by_contra hdiff
        have h1 := hnew n'
        rw [if_neg hdiff, hn'] at h1
        exact hdiff (I.lookup_inj h1 ((hnew name).trans (if_pos rfl)))
      cases hlook.symm.trans hn'
  refine ⟨?_, fun hn => hn ▸ hkey⟩
  by_cases hn : n = name
  · subst hn
    rw [← hkey, view, I.lookup_intern, if_pos rfl, bind_some]
  · rw [view, I.lookup_intern, if_neg hn, view]

theorem Clean.intern (h : Clean cx m) (name : Name) : Clean (I.intern name cx).2 m := by
  intro k hk
  obtain ⟨n, hn⟩ := h k hk
  refine ⟨n, ?_⟩
  rw [I.lookup_intern]
  split_ifs with heq
  · subst heq
    rw [I.intern_known hn]
  · exact hn

variable [DecidableEq K]

theorem view_update {k : K} (hk : I.lookup cx name = some k) (e : Option α) :
    view cx (update m k e) n = if n = name then e else view cx m n := by
  unfold view
  split_ifs with hn
  · rw [hn, hk, bind_some, update_self]
  · cases hlook : I.lookup cx n with
    | none => rfl
    | some k' =>
      rw [bind_some, bind_some, update_of_ne]
      rintro rfl
      exact hn (I.lookup_inj hlook hk)

theorem Clean.update {k : K} (h : Clean cx m) (hk : I.lookup cx name = some k) (e : Option α) :
    Clean cx (update m k e) := by
  intro k' hk'
  by_cases heq : k' = k
  · exact ⟨name, heq ▸ hk⟩
  · rw [update_of_ne heq] at hk'
    exact h k' hk'

end

/-! ### What is found -/

/-- What is stored under a name, in a history with the newest entry first. -/
def stored (h : List (Name × V)) (name : Name) : Option V :=
  (h.find? fun e => e.1 = name).map Prod.snd

theorem stored_cons (e : Name × V) (h : List (Name × V)) (name : Name) :
    stored (e :: h) name = if name = e.1 then some e.2 else stored h name := by
  unfold stored
  rw [find?_cons]
  by_cases heq : e.1 = name
  · simp [heq]
  · simp [heq, Ne.symm heq]

/-- **What should be found**: the exact definition, or else that of the greatest version of the
track of the name, if there is one. -/
def Resolves (sv : Semver) (h : List (Name × V)) (name : Name) (r : Option V) : Prop :=
  (stored h name ≠ none → r = stored h name) ∧
  (stored h name = none → onTrack sv name = none → r = none) ∧
  ∀ t v, stored h name = none → onTrack sv name = some (t, v) →
    ((∀ n ∈ h.map Prod.fst, ∀ v', onTrack sv n ≠ some (t, v')) ∧ r = none) ∨
    ∃ n ∈ h.map Prod.fst, ∃ v', onTrack sv n = some (t, v') ∧ r = stored h n ∧
      ∀ n' ∈ h.map Prod.fst, ∀ v'', onTrack sv n' = some (t, v'') → v'' ≤ v'

/-- The entry for an alternate key is the greatest version of its track. -/
def Greatest (cx : I.Cx) (h : List (Name × V)) (t : Name) : Option (K × sv.Version) → Prop
  | none => ∀ n ∈ h.map Prod.fst, ∀ v, alternateLookupKey sv n ≠ some (t, v)
  | some (k, v) => ∃ n ∈ h.map Prod.fst, I.lookup cx n = some k ∧
      alternateLookupKey sv n = some (t, v) ∧
      ∀ n' ∈ h.map Prod.fst, ∀ v', alternateLookupKey sv n' = some (t, v') → v' ≤ v

/-- **The invariant**: the maps are what the history says. -/
structure Inv (h : List (Name × V)) (s : NameMap sv K V × I.Cx) : Prop where
  defs : ∀ n, view s.2 s.1.definitions n = stored h n
  alts : ∀ t, Greatest s.2 h t (view s.2 s.1.alternateLookups t)
  cleanDefs : Clean s.2 s.1.definitions
  cleanAlts : Clean s.2 s.1.alternateLookups

variable {h : List (Name × V)} {m : NameMap sv K V} {cx : I.Cx} {name n t : Name} {item : V}
  {e : Option (K × sv.Version)}

theorem lookup_intern_of_known {k : K} (hn : I.lookup cx n = some k) :
    I.lookup (I.intern name cx).2 n = some k := by
  rw [I.lookup_intern]
  split_ifs with heq
  · subst heq
    rw [I.intern_known hn]
  · exact hn

theorem Greatest.intern (hg : Greatest cx h t e) : Greatest (I.intern name cx).2 h t e := by
  match e, hg with
  | none, hg => exact hg
  | some (k, v), ⟨n, hn, hk, hrest⟩ => exact ⟨n, hn, lookup_intern_of_known hk, hrest⟩

theorem Greatest.cons (hg : Greatest cx h t e)
    (hne : ∀ v, alternateLookupKey sv name ≠ some (t, v)) :
    Greatest cx ((name, item) :: h) t e := by
  match e, hg with
  | none, hg => exact forall_mem_cons.2 ⟨hne, hg⟩
  | some (k, v), ⟨n, hn, hk, halt, hmax⟩ =>
    exact ⟨n, mem_cons_of_mem _ hn, hk, halt,
      forall_mem_cons.2 ⟨fun v' hv' => absurd hv' (hne v'), hmax⟩⟩

theorem Inv.intern (hi : Inv h (m, cx)) (name : Name) : Inv h (m, (I.intern name cx).2) where
  defs n := ((view_intern hi.cleanDefs name n).1).trans (hi.defs n)
  alts t := by
    rw [(view_intern hi.cleanAlts name t).1]
    exact (hi.alts t).intern
  cleanDefs := hi.cleanDefs.intern name
  cleanAlts := hi.cleanAlts.intern name

variable {s : NameMap sv K V × I.Cx}

theorem Inv.resolves (hi : Inv h s) (name : Name) : Resolves sv h name (NameMap.get s name) := by
  have hget : NameMap.get s name = match stored h name with
      | some item => some item
      | none => (alternateLookupKey sv name).bind fun r =>
          (view s.2 s.1.alternateLookups r.1).bind fun e => s.1.definitions e.1 := by
    rw [← hi.defs name]
    unfold NameMap.get view
    simp only [bind_assoc]
  refine ⟨fun hsome => ?_, fun hnone htrack => ?_, fun t v hnone htrack => ?_⟩
  · obtain ⟨item, hitem⟩ := ne_none_iff_exists'.1 hsome
    rw [hget, hitem]
  · rw [hget, hnone, alternateLookupKey_eq, htrack]
    rfl
  · rw [alternateLookupKey_eq, hnone, htrack] at hget
    have hsame : ∀ {n v'}, onTrack sv n = some (t, v') →
        alternateLookupKey sv n = some (t.1 ++ '@' :: t.2.text, v') := by
      intro n v' hn
      rw [alternateLookupKey_eq, hn, map_some]
    have hgreatest := hi.alts (t.1 ++ '@' :: t.2.text)
    rw [hget]
    dsimp only [map_some, bind_some]
    cases hview : view s.2 s.1.alternateLookups (t.1 ++ '@' :: t.2.text) with
    | none =>
      rw [hview] at hgreatest
      exact .inl ⟨fun n hn v' hv' => hgreatest n hn v' (hsame hv'), rfl⟩
    | some e =>
      rw [hview] at hgreatest
      obtain ⟨n, hn, hk, halt, hmax⟩ := hgreatest
      rw [alternateLookupKey_eq, map_eq_some_iff] at halt
      obtain ⟨⟨t', v'⟩, htrack', heq⟩ := halt
      obtain ⟨htext, hv⟩ := Prod.mk.inj heq
      obtain rfl := track_inj htrack' htrack htext
      refine .inr ⟨n, hn, v', htrack', ?_, fun n' hn' v'' hv'' => ?_⟩
      · rw [← hi.defs n, view, hk]
        rfl
      · exact (hmax n' hn' v'' (hsame hv'')).trans hv.ge

/-! ### Inserts -/

variable [DecidableEq K]

def record (h : List (Name × V)) (name : Name) (allowShadowing : Bool) (item : V) :
    List (Name × V) :=
  if (stored h name).isSome && !allowShadowing then h else (name, item) :: h

omit [DecidableEq K] in
theorem Greatest.add {k : K} {v : sv.Version} (hg : Greatest cx h t e)
    (hk : I.lookup cx name = some k) (halt : alternateLookupKey sv name = some (t, v)) :
    Greatest cx ((name, item) :: h) t (some (match e with
      | some (prevKey, prevVersion) =>
        if v < prevVersion then (prevKey, prevVersion) else (k, v)
      | none => (k, v))) := by
  have hself : ∀ {w}, v ≤ w → ∀ v', alternateLookupKey sv name = some (t, v') → v' ≤ w := by
    intro w hw v' hv'
    cases halt.symm.trans hv'
    exact hw
  match e, hg with
  | none, hg =>
    refine ⟨name, mem_cons_self, hk, halt, forall_mem_cons.2 ⟨hself le_rfl, ?_⟩⟩
    exact fun n' hn' v' hv' => absurd hv' (hg n' hn' v')
  | some (prevKey, prevVersion), ⟨n, hn, hprev, haltn, hmax⟩ =>
    dsimp only
    split_ifs with hlt
    · exact ⟨n, mem_cons_of_mem _ hn, hprev, haltn, forall_mem_cons.2 ⟨hself hlt.le, hmax⟩⟩
    · refine ⟨name, mem_cons_self, hk, halt, forall_mem_cons.2 ⟨hself le_rfl, ?_⟩⟩
      exact fun n' hn' v' hv' => (hmax n' hn' v' hv').trans (not_lt.1 hlt)

theorem Inv.insertAlternate {k : K} (hdefs : ∀ n, view cx m.definitions n =
      stored ((name, item) :: h) n) (halts : ∀ t, Greatest cx h t (view cx m.alternateLookups t))
    (hcd : Clean cx m.definitions) (hca : Clean cx m.alternateLookups)
    (hk : I.lookup cx name = some k) :
    Inv ((name, item) :: h) (NameMap.insertAlternate k name (m, cx)) := by
  unfold NameMap.insertAlternate
  cases halt : alternateLookupKey sv name with
  | none => exact ⟨hdefs, fun t => (halts t).cons (by simp [halt]), hcd, hca⟩
  | some r =>
    obtain ⟨t0, v0⟩ := r
    have hkey := (I.lookup_intern cx t0 t0).trans (if_pos rfl)
    have hviews := view_intern hca t0
    refine ⟨fun n => (view_intern hcd t0 n).1.trans (hdefs n), fun t => ?_, hcd.intern t0,
      (hca.intern t0).update hkey _⟩
    rw [view_update hkey, (hviews t).1, (hviews t0).2 rfl]
    split_ifs with ht
    · subst ht
      exact (halts t).intern.add (lookup_intern_of_known hk) halt
    · refine (halts t).intern.cons fun v hv => ht ?_
      cases halt.symm.trans hv
      rfl

/-- **One insert** keeps the invariant, and one that fails changes no lookup. -/
theorem Inv.insert (hi : Inv h s) (name : Name) (allowShadowing : Bool) (item : V) :
    Inv (record h name allowShadowing item) (NameMap.insert name allowShadowing item s).2 ∧
    ((NameMap.insert name allowShadowing item s).1.toOption = none →
      ∀ n, NameMap.get (NameMap.insert name allowShadowing item s).2 n = NameMap.get s n) := by
  obtain ⟨m, cx⟩ := s
  have hkey := (I.lookup_intern cx name name).trans (if_pos rfl)
  have hprev : m.definitions (I.intern name cx).1 = stored h name :=
    ((view_intern hi.cleanDefs name name).2 rfl).trans (hi.defs name)
  unfold NameMap.insert record
  dsimp only
  rw [hprev]
  split_ifs with hfail
  · have hsame : update (update m.definitions (I.intern name cx).1 (some item))
        (I.intern name cx).1 (stored h name) = m.definitions := by
      rw [update_idem, ← hprev, update_eq_self]
    rw [hsame]
    refine ⟨hi.intern name, fun _ n => ?_⟩
    -- The name has a key already, so that no lookup of a key changes.
    obtain ⟨k, hk⟩ : ∃ k, I.lookup cx name = some k := by
      have hsome : (stored h name).isSome := by simp_all
      rw [← hi.defs name, view, isSome_iff_exists] at hsome
      obtain ⟨item', hitem⟩ := hsome
      obtain ⟨k, hk, -⟩ := bind_eq_some_iff.1 hitem
      exact ⟨k, hk⟩
    have hlook : I.lookup (I.intern name cx).2 = I.lookup cx := by
      funext n'
      rw [I.lookup_intern]
      split_ifs with heq
      · rw [heq, hk, I.intern_known hk]
      · rfl
    unfold NameMap.get
    rw [hlook]
  · refine ⟨Inv.insertAlternate (fun n => ?_) (hi.intern name).alts
      ((hi.intern name).cleanDefs.update hkey _) (hi.intern name).cleanAlts hkey, nofun⟩
    rw [view_update hkey, (hi.intern name).defs n, stored_cons]

def NameMap.insertAll (ops : List (Name × Bool × V)) (s : NameMap sv K V × I.Cx) :
    NameMap sv K V × I.Cx :=
  ops.foldl (fun s op => (NameMap.insert op.1 op.2.1 op.2.2 s).2) s

def recordAll (ops : List (Name × Bool × V)) (h : List (Name × V)) : List (Name × V) :=
  ops.foldl (fun h op => record h op.1 op.2.1 op.2.2) h

theorem Inv.insertAll (hi : Inv h s) (ops : List (Name × Bool × V)) :
    Inv (recordAll ops h) (NameMap.insertAll ops s) := by
  induction ops generalizing h s with
  | nil => exact hi
  | cons op ops ih => exact ih (hi.insert op.1 op.2.1 op.2.2).1

omit [DecidableEq K] in
theorem inv_default (cx : I.Cx) : Inv [] ((.default : NameMap sv K V), cx) where
  defs n := by simp [view, NameMap.default, stored]
  alts t := by simp [view, NameMap.default, Greatest]
  cleanDefs := fun _ h => absurd rfl h
  cleanAlts := fun _ h => absurd rfl h

/-- **Names resolve as they should**, after every sequence of inserts; and a failed insert changes
nothing that is found. -/
theorem name_map_resolves (sv : Semver) (I : NameMapIntern K) (cx : I.Cx)
    (ops : List (Name × Bool × V)) :
    let s : NameMap sv K V × I.Cx := NameMap.insertAll ops (.default, cx)
    (∀ name, Resolves sv (recordAll ops []) name (NameMap.get s name)) ∧
    ∀ name allowShadowing item, (NameMap.insert name allowShadowing item s).1.toOption = none →
      ∀ n, NameMap.get (NameMap.insert name allowShadowing item s).2 n = NameMap.get s n := by
  have hi : Inv _ (NameMap.insertAll ops ((.default : NameMap sv K V), cx)) :=
    (inv_default cx).insertAll ops
  exact ⟨hi.resolves, fun name allowShadowing item => (hi.insert name allowShadowing item).2⟩

/-- `NameMapNoIntern`: names are their own keys. -/
def noIntern : NameMapIntern Name where
  Cx := Unit
  intern s _ := (s, ())
  lookup _ s := some s
  lookup_intern _ s t := by
    split_ifs with h
    · rw [h]
    · rfl
  intern_known h := some.inj h
  lookup_inj h h' := some.inj (h.trans h'.symm)

def patches : Semver where
  Version := Nat
  order := inferInstance
  major _ := 1
  minor _ := 0
  hasPre _ := false
  parse s :=
    if s = "1.0.0".toList then some 0 else if s = "1.0.1".toList then some 1
    else if s = "1.0.2".toList then some 2 else none
  parse_text {s v} h := by
    split_ifs at h with h0 h1 h2 <;> subst s
    · exact ⟨['0'], by decide +kernel⟩
    · exact ⟨['1'], by decide +kernel⟩
    · exact ⟨['2'], by decide +kernel⟩

theorem name_map_resolves_patches :
    let ops := [("a@1.0.1".toList, false, 3), ("a@1.0.0".toList, false, 2)]
    let s : NameMap patches Name Nat × noIntern.Cx := NameMap.insertAll ops (.default, ())
    Resolves patches (recordAll ops []) "a@1.0.2".toList (NameMap.get s "a@1.0.2".toList) ∧
      NameMap.get s "a@1.0.2".toList = some 3 :=
  ⟨(name_map_resolves patches noIntern () _).1 _, by decide +kernel⟩

end Wasmtime.Environ
