import Wasmtime.Base.Word

/-!
# The scoped hash map

`scoped_hash_map.rs`: a map in which what is inserted in a scope is gone once the scope is left.
Leaving a scope deletes nothing: an entry is live while the scope that is open at its depth was
entered in its generation.

`Scopes` is what the map is for: leaving a scope removes its entries. `get_eq_scopes`: the map finds
what the scopes have. The depth is kept as a `u32`, so that an entry at depth `2 ^ 32` outlives its
scope (`get_after_exit`); the passes that use the map enter a scope for each block, and are never so
deep.
-/

namespace Wasmtime.Cranelift

open Base List

/-! ### The map -/

structure ScopedHashMap.Val (V : Type) where
  value : V
  level : Nat
  generation : Nat

/-- The keys are up to the equality of the context. -/
structure ScopedHashMap (K V : Type) where
  map : K → Option (ScopedHashMap.Val V)
  generationByDepth : List Nat
  generation : Nat

namespace ScopedHashMap

/-- A vacant entry has the depth and the generation to insert with. -/
inductive Entry (V : Type) where
  | occupied (entry : Val V)
  | vacant (depth generation : Nat)

variable {K V : Type}

def withCapacity : ScopedHashMap K V := ⟨fun _ => none, [0], 0⟩

def live (s : ScopedHashMap K V) (entry : Val V) : Bool :=
  s.generationByDepth[entry.level]? == some entry.generation

def get (s : ScopedHashMap K V) (key : K) : Option V := ((s.map key).filter s.live).map Val.value

/-- Without a scope, this and the indexing below panic. -/
def depth (s : ScopedHashMap K V) : Option Nat :=
  if s.generationByDepth.length = 0 then none else some (s.generationByDepth.length - 1)

def entryWithDepth (s : ScopedHashMap K V) (key : K) (depth : Nat) : Option (Entry V) :=
  s.generationByDepth[depth]?.map fun generation =>
    match s.map key with
    | some entry =>
      if s.live entry then .occupied entry else .vacant (depth % u32Size) generation
    | none => .vacant (depth % u32Size) generation

def incrementDepth (s : ScopedHashMap K V) : ScopedHashMap K V :=
  { s with generationByDepth := s.generationByDepth ++ [s.generation] }

def decrementDepth (s : ScopedHashMap K V) : ScopedHashMap K V :=
  { s with
    generation := (s.generation + 1) % u32Size
    generationByDepth := s.generationByDepth.dropLast }

variable [DecidableEq K]

def put (s : ScopedHashMap K V) (key : K) (val : Val V) : ScopedHashMap K V :=
  { s with map := Function.update s.map key (some val) }

def insertIfAbsentWithDepth (s : ScopedHashMap K V) (key : K) (value : V) (depth : Nat) :
    Option (ScopedHashMap K V) :=
  (s.entryWithDepth key depth).map fun
    | .vacant level generation => s.put key ⟨value, level, generation⟩
    | .occupied _ => s

def insertIfAbsent (s : ScopedHashMap K V) (key : K) (value : V) : Option (ScopedHashMap K V) :=
  s.depth.bind (s.insertIfAbsentWithDepth key value)

def insertWithDepth (s : ScopedHashMap K V) (key : K) (value : V) (depth : Nat) :
    Option (ScopedHashMap K V) :=
  s.generationByDepth[depth]?.map fun generation => s.put key ⟨value, depth % u32Size, generation⟩

inductive Op (K V : Type) where
  | incrementDepth
  | decrementDepth
  | insertIfAbsent (key : K) (value : V)
  | insertIfAbsentWithDepth (key : K) (value : V) (depth : Nat)
  | insertWithDepth (key : K) (value : V) (depth : Nat)

def exec (s : ScopedHashMap K V) : Op K V → Option (ScopedHashMap K V)
  | .incrementDepth => some s.incrementDepth
  | .decrementDepth => some s.decrementDepth
  | .insertIfAbsent key value => s.insertIfAbsent key value
  | .insertIfAbsentWithDepth key value depth => s.insertIfAbsentWithDepth key value depth
  | .insertWithDepth key value depth => s.insertWithDepth key value depth

variable {s : ScopedHashMap K V} {key : K} {value : V} {d : Nat}

/-- **What may be absent is inserted if and only if `get` finds nothing.** -/
theorem insertIfAbsentWithDepth_eq (h : d < s.generationByDepth.length) :
    s.insertIfAbsentWithDepth key value d =
      if (s.get key).isNone then s.insertWithDepth key value d else some s := by
  unfold insertIfAbsentWithDepth entryWithDepth insertWithDepth get
  rw [getElem?_eq_getElem h]
  cases s.map key with
  | none => rfl
  | some entry => by_cases hl : s.live entry = true <;> simp [Option.filter_some, hl]

theorem insertIfAbsent_eq (h : 0 < s.generationByDepth.length) : s.insertIfAbsent key value =
    s.insertIfAbsentWithDepth key value (s.generationByDepth.length - 1) := by
  unfold insertIfAbsent depth
  rw [if_neg h.ne']
  rfl

end ScopedHashMap

/-! ### Scopes -/

/-- The number of open scopes, the number of scopes left, and the last insertion of every key with
the depth of its scope, if this is open. -/
structure Scopes (K V : Type) where
  opened : Nat
  left : Nat
  entries : K → Option (V × Nat)

namespace Scopes

open ScopedHashMap (Op)

variable {K V : Type} [DecidableEq K]

def init : Scopes K V := ⟨1, 0, fun _ => none⟩

def get (a : Scopes K V) (key : K) : Option V := (a.entries key).map Prod.fst

def insert (a : Scopes K V) (key : K) (value : V) (depth : Nat) : Scopes K V :=
  { a with entries := Function.update a.entries key (some (value, depth)) }

def exec (a : Scopes K V) : Op K V → Scopes K V
  | .incrementDepth => { a with opened := a.opened + 1 }
  | .decrementDepth => ⟨a.opened - 1, a.left + 1, fun key =>
      (a.entries key).filter fun e => decide (e.2 < a.opened - 1)⟩
  | .insertIfAbsent key value =>
    if (a.get key).isNone then a.insert key value (a.opened - 1) else a
  | .insertIfAbsentWithDepth key value depth =>
    if (a.get key).isNone then a.insert key value depth else a
  | .insertWithDepth key value depth => a.insert key value depth

def depthOf (a : Scopes K V) : Op K V → Option Nat
  | .incrementDepth | .decrementDepth => none
  | .insertIfAbsent _ _ => some (a.opened - 1)
  | .insertIfAbsentWithDepth _ _ depth | .insertWithDepth _ _ depth => some depth

/-- Insertions are at most at the current depth, and fewer than `2 ^ 32` scopes are left. -/
def Within (a : Scopes K V) (op : Op K V) : Prop :=
  (∀ d ∈ a.depthOf op, d < a.opened) ∧ (a.exec op).left < u32Size

def Shallow (a : Scopes K V) (op : Op K V) : Prop := ∀ d ∈ a.depthOf op, d < u32Size

instance (a : Scopes K V) (op : Op K V) : Decidable (a.Within op) :=
  inferInstanceAs (Decidable (_ ∧ _))

instance (a : Scopes K V) (op : Op K V) : Decidable (a.Shallow op) :=
  inferInstanceAs (Decidable (∀ d ∈ a.depthOf op, d < u32Size))

end Scopes

/-! ### Refinement -/

namespace ScopedHashMap

variable {K V : Type} {s s' : ScopedHashMap K V} {a : Scopes K V}

/-- The map `s` represents the scopes `a`. What is left in the map of a scope that has been left is
of an earlier generation, and no open scope is taken for it. -/
structure Represents (s : ScopedHashMap K V) (a : Scopes K V) : Prop where
  opened : s.generationByDepth.length = a.opened
  left : s.generation = a.left
  le : ∀ g ∈ s.generationByDepth, g ≤ s.generation
  live : ∀ key v d, a.entries key = some (v, d) →
    ∃ g, s.map key = some ⟨v, d, g⟩ ∧ s.generationByDepth[d]? = some g
  dead : ∀ key e, a.entries key = none → s.map key = some e →
    e.generation < s.generation ∧ s.generationByDepth[e.level]? ≠ some e.generation

namespace Represents

theorem init : Represents (withCapacity : ScopedHashMap K V) .init :=
  ⟨rfl, rfl, fun _ hg => (mem_singleton.1 hg).le, nofun, nofun⟩

variable (h : Represents s a)

include h

theorem get (key : K) : s.get key = a.get key := by
  unfold ScopedHashMap.get Scopes.get
  cases ha : a.entries key with
  | some e =>
    obtain ⟨g, hs, hg⟩ := h.live key e.1 e.2 ha
    simp [hs, Option.filter_some, ScopedHashMap.live, hg]
  | none =>
    cases hs : s.map key with
    | none => rfl
    | some e => simp [Option.filter_some, ScopedHashMap.live, (h.dead key e ha hs).2]

theorem incrementDepth : Represents s.incrementDepth { a with opened := a.opened + 1 } := by
  refine ⟨length_append.trans (congrArg (· + 1) h.opened), h.left, fun g hg => ?_,
    fun key v d ha => ?_, fun key e ha hs => ?_⟩
  · rcases mem_append.1 hg with hg | hg
    · exact h.le g hg
    · exact (mem_singleton.1 hg).le
  · obtain ⟨g, hs, hg⟩ := h.live key v d ha
    exact ⟨g, hs, (getElem?_append_left (List.getElem?_eq_some_iff.1 hg).1).trans hg⟩
  · obtain ⟨hlt, hne⟩ := h.dead key e ha hs
    refine ⟨hlt, fun hnew => ?_⟩
    unfold ScopedHashMap.incrementDepth at hnew
    rw [getElem?_append] at hnew
    split at hnew
    · exact hne hnew
    · -- the new scope is of the current generation
      exact hlt.ne (mem_singleton.1 (mem_of_getElem? hnew))

variable [DecidableEq K] {key : K} {value : V} {d : Nat}

theorem decrementDepth (hlt : a.left + 1 < u32Size) :
    Represents s.decrementDepth (a.exec .decrementDepth) := by
  have hgen : s.decrementDepth.generation = s.generation + 1 := Nat.mod_eq_of_lt (h.left ▸ hlt)
  have hget : ∀ l, s.decrementDepth.generationByDepth[l]? =
      if l < a.opened - 1 then s.generationByDepth[l]? else none := by
    intro l
    rw [← h.opened]
    exact getElem?_dropLast
  refine ⟨length_dropLast.trans (congrArg (· - 1) h.opened), hgen.trans (congrArg (· + 1) h.left),
    fun g hg => ?_, fun key v d ha => ?_, fun key e ha hs => ?_⟩
  · exact hgen ▸ Nat.le_succ_of_le (h.le g (dropLast_subset _ hg))
  · obtain ⟨ha, hd⟩ := Option.filter_eq_some_iff.1 ha
    obtain ⟨g, hs, hg⟩ := h.live key v d ha
    exact ⟨g, hs, (hget d).trans ((if_pos (of_decide_eq_true hd)).trans hg)⟩
  · rw [hgen, hget]
    cases hkey : a.entries key with
    | none =>
      obtain ⟨hlt, hne⟩ := h.dead key e hkey hs
      exact ⟨Nat.lt_succ_of_lt hlt, by split <;> simp [hne]⟩
    | some x =>
      -- the scope of the entry is the one that is left
      obtain ⟨g, hs', hg⟩ := h.live key x.1 x.2 hkey
      obtain rfl := Option.some.inj (hs.symm.trans hs')
      have hnot : ¬ x.2 < a.opened - 1 := by simpa [Scopes.exec, hkey] using ha
      exact ⟨Nat.lt_succ_of_le (h.le g (mem_of_getElem? hg)), by simp [hnot]⟩

theorem put {g : Nat} (hg : s.generationByDepth[d]? = some g) :
    Represents (s.put key ⟨value, d, g⟩) (a.insert key value d) := by
  refine ⟨h.opened, h.left, h.le, fun k v l ha => ?_, fun k e ha hs => ?_⟩
  · by_cases hk : k = key
    · subst hk
      simp only [Scopes.insert, Function.update_self, Option.some.injEq, Prod.mk.injEq] at ha
      obtain ⟨rfl, rfl⟩ := ha
      exact ⟨g, Function.update_self .., hg⟩
    · simp only [ScopedHashMap.put, Scopes.insert, Function.update_of_ne hk] at ha ⊢
      exact h.live k v l ha
  · by_cases hk : k = key
    · simp [Scopes.insert, hk] at ha
    · simp only [ScopedHashMap.put, Scopes.insert, Function.update_of_ne hk] at ha hs
      exact h.dead k e ha hs

theorem insertWithDepth (hd : d < a.opened) :
    ∃ s', s.insertWithDepth key value d = some s' ∧
      (d < u32Size → Represents s' (a.insert key value d)) := by
  have hg := getElem?_eq_getElem (h.opened ▸ hd)
  refine ⟨_, congrArg (Option.map _) hg, fun hu => ?_⟩
  rw [Nat.mod_eq_of_lt hu]
  exact h.put hg

theorem insertIfAbsentWithDepth (hd : d < a.opened) :
    ∃ s', s.insertIfAbsentWithDepth key value d = some s' ∧
      (d < u32Size → Represents s' (if (a.get key).isNone then a.insert key value d else a)) := by
  rw [insertIfAbsentWithDepth_eq (h.opened ▸ hd), h.get]
  split
  · exact h.insertWithDepth hd
  · exact ⟨s, rfl, fun _ => h⟩

theorem exec {op : Op K V} (hop : a.Within op) :
    ∃ s', s.exec op = some s' ∧ (a.Shallow op → Represents s' (a.exec op)) := by
  cases op with
  | incrementDepth => exact ⟨_, rfl, fun _ => h.incrementDepth⟩
  | decrementDepth => exact ⟨_, rfl, fun _ => h.decrementDepth hop.2⟩
  | insertIfAbsent key value =>
    have hd : a.opened - 1 < a.opened := hop.1 _ rfl
    rw [ScopedHashMap.exec, insertIfAbsent_eq (h.opened ▸ Nat.zero_lt_of_lt hd), h.opened]
    obtain ⟨s', hs, hr⟩ := h.insertIfAbsentWithDepth hd
    exact ⟨s', hs, fun hsh => hr (hsh _ rfl)⟩
  | insertIfAbsentWithDepth key value d =>
    obtain ⟨s', hs, hr⟩ := h.insertIfAbsentWithDepth (hop.1 d rfl)
    exact ⟨s', hs, fun hsh => hr (hsh d rfl)⟩
  | insertWithDepth key value d =>
    obtain ⟨s', hs, hr⟩ := h.insertWithDepth (hop.1 d rfl)
    exact ⟨s', hs, fun hsh => hr (hsh d rfl)⟩

end Represents

/-! ### Runs -/

variable [DecidableEq K]

def Step (t : ScopedHashMap K V × Scopes K V) (op : Op K V)
    (t' : ScopedHashMap K V × Scopes K V) : Prop :=
  t.2.Within op ∧ t.1.exec op = some t'.1 ∧ t'.2 = t.2.exec op

/-- **The map is a stack of scopes.** In a run that inserts at depths below `2 ^ 32`, the map finds
for a key what was last inserted if the scope of the insertion is open, and nothing otherwise. No
operation panics, and what may be absent is inserted if and only if `get` finds nothing. -/
theorem get_eq_scopes {tr : List (Op K V)} {t : ScopedHashMap K V × Scopes K V}
    (h : Trace (fun t op t' => t.2.Shallow op ∧ Step t op t') (withCapacity, .init) tr t) :
    (∀ key, t.1.get key = t.2.get key) ∧
    (∀ op, t.2.Within op → ∃ s, t.1.exec op = some s) ∧
    (∀ key value d, d < t.2.opened → t.1.insertIfAbsentWithDepth key value d =
      if (t.1.get key).isNone then t.1.insertWithDepth key value d else some t.1) ∧
    (∀ key value, 0 < t.2.opened → t.1.insertIfAbsent key value =
      t.1.insertIfAbsentWithDepth key value (t.2.opened - 1)) := by
  have hrep : Represents t.1 t.2 := by
    refine h.invariant (I := fun t => Represents t.1 t.2) .init ?_
    rintro t op t' hr ⟨hsh, hop, hs, heq⟩
    obtain ⟨s', hs', hr'⟩ := hr.exec hop
    obtain rfl := Option.some.inj (hs.symm.trans hs')
    exact heq ▸ hr' hsh
  refine ⟨hrep.get, fun op hop => ?_, fun key value d hd => ?_, fun key value hpos => ?_⟩
  · obtain ⟨s, hs, -⟩ := hrep.exec hop
    exact ⟨s, hs⟩
  · exact insertIfAbsentWithDepth_eq (hrep.opened ▸ hd)
  · rw [insertIfAbsent_eq (hrep.opened ▸ hpos), hrep.opened]

/-! ### Nested scopes -/

/-- `n` scopes have been entered, -/
def nested (n : Nat) : ScopedHashMap Nat Nat × Scopes Nat Nat :=
  (⟨fun _ => none, replicate (n + 1) 0, 0⟩, ⟨n + 1, 0, fun _ => none⟩)

/-- something has been inserted in the innermost of them, -/
def nested.filled (n : Nat) : ScopedHashMap Nat Nat × Scopes Nat Nat :=
  ((nested n).1.put 7 ⟨8, n % u32Size, 0⟩, (nested n).2.insert 7 8 n)

/-- and this scope has been left. -/
def nested.left (n : Nat) : ScopedHashMap Nat Nat × Scopes Nat Nat :=
  ((filled n).1.decrementDepth, (filled n).2.exec .decrementDepth)

theorem trace_nested (n : Nat) : ∃ tr, Trace Step (withCapacity, .init) tr (nested n) := by
  induction n with
  | zero => exact ⟨[], .nil _⟩
  | succ n ih =>
    obtain ⟨tr, htr⟩ := ih
    have hop : (nested n).2.Within .incrementDepth :=
      ⟨fun d hd => (by cases hd), Nat.two_pow_pos 32⟩
    refine ⟨_, htr.snoc (l := .incrementDepth) ⟨hop, ?_, rfl⟩⟩
    simp [nested, exec, incrementDepth, replicate_succ']

theorem step_filled (n : Nat) : Step (nested n) (.insertIfAbsent 7 8) (nested.filled n) := by
  refine ⟨⟨?_, Nat.two_pow_pos 32⟩, ?_, rfl⟩
  · rintro d ⟨⟩
    exact Nat.lt_succ_self n
  · simp [nested, nested.filled, exec, insertIfAbsent, depth, insertIfAbsentWithDepth,
      entryWithDepth]

theorem step_left (n : Nat) : Step (nested.filled n) .decrementDepth (nested.left n) :=
  ⟨⟨nofun, (by decide : 1 < u32Size)⟩, rfl, rfl⟩

theorem get_left {n : Nat} (h : n % u32Size < n) : (nested.left n).1.get 7 = some 8 := by
  simp [nested.left, nested.filled, nested, put, decrementDepth, get, Option.filter_some, live, h]

/-- **An entry that outlives its scope.** With `2 ^ 32` scopes in the outermost one, an entry of the
innermost is found after the scope has been left. -/
theorem get_after_exit : (∃ tr t, Trace Step (withCapacity, .init) tr t ∧
    t.2.left = 1 ∧ t.1.get 7 = some 8 ∧ t.2.get 7 = none) := by
  obtain ⟨tr, htr⟩ := trace_nested u32Size
  refine ⟨_, _, (htr.snoc (step_filled u32Size)).snoc (step_left u32Size), rfl, ?_, ?_⟩
  · exact get_left (by rw [Nat.mod_self]; exact Nat.two_pow_pos 32)
  · simp [nested.left, nested.filled, nested, Scopes.get, Scopes.exec, Scopes.insert]

/-- A scope is entered, filled, left and entered again: what was inserted in it is gone, and what
was inserted in the outer scope from within it is still found. -/
theorem get_eq_scopes_reentered : ∃ t : ScopedHashMap Nat Nat × Scopes Nat Nat,
    Trace (fun t op t' => t.2.Shallow op ∧ Step t op t') (withCapacity, .init)
      [.incrementDepth, .insertIfAbsent 7 8, .insertIfAbsentWithDepth 5 6 0, .decrementDepth,
        .incrementDepth] t ∧
      (∀ key, t.1.get key = t.2.get key) ∧ t.1.get 7 = none ∧ t.1.get 5 = some 6 := by
  obtain ⟨t, htr, hget⟩ := Trace.exists_of_foldlM (s := (withCapacity, Scopes.init))
    (fun t op t' => t.2.Shallow op ∧ Step t op t')
    (f := fun t op => if t.2.Shallow op ∧ t.2.Within op
      then (t.1.exec op).map fun s => (s, t.2.exec op) else none)
    (fun t op t' hsome => by
      split_ifs at hsome with hop
      obtain ⟨s, hs, rfl⟩ := Option.map_eq_some_iff.1 hsome
      exact ⟨hop.1, hop.2, hs, rfl⟩)
    (fun t => decide (t.1.get 7 = none ∧ t.1.get 5 = some 6))
    [.incrementDepth, .insertIfAbsent 7 8, .insertIfAbsentWithDepth 5 6 0, .decrementDepth,
      .incrementDepth] (by decide +kernel)
  exact ⟨t, htr, (get_eq_scopes htr).1, of_decide_eq_true hget⟩

end ScopedHashMap
end Wasmtime.Cranelift
