import Mathlib.Tactic

/-!
# Binary search

The search of the standard library: the part of the slice in which the key can be is halved until
one element is left. `binarySearch_eq_some`: it finds every key of an ascending list.

In any list the search finds a key exactly if it compares with the keys at its `probes` as their
positions do (`binarySearch_self_iff`). One of two neighbours is a probe of the other
(`succ_mem_probes`), so a list in which every key is found is ascending (`ascending_of_probes`).
-/

namespace Base

open List Nat

/-- Halve the part of length `size` from `base` on until one element is left. -/
def searchLoop (greater : Nat → Bool) : Nat → Nat → Nat → Nat
  | 0, base, _ => base
  | fuel + 1, base, size =>
    if size ≤ 1 then base
    else
      let half := size / 2
      let mid := base + half
      searchLoop greater fuel (if greater mid then base else mid) (size - half)

def binarySearch (keys : List Nat) (key : Nat) : Option Nat :=
  if keys.length = 0 then none
  else
    let base := searchLoop (fun i => decide (key < keys.getD i 0)) keys.length 0 keys.length
    if keys.getD base 0 = key then some base else none

variable {keys : List Nat} {key : Nat}

variable {i : Nat}

theorem getD_of_getElem? (h : keys[i]? = some key) : keys.getD i 0 = key := by
  rw [getD_eq_getElem?_getD, h, Option.getD_some]

theorem getElem?_of_getD (hi : i < keys.length) (h : keys.getD i 0 = key) :
    keys[i]? = some key := by
  rw [getD_eq_getElem?_getD, getElem?_eq_getElem hi, Option.getD_some] at h
  exact List.getElem?_eq_some_iff.2 ⟨hi, h⟩

theorem lt_of_getElem? (h : keys[i]? = some key) : i < keys.length :=
  (List.getElem?_eq_some_iff.1 h).1

theorem lt_iff_of_ascending (hs : keys.Pairwise (· < ·)) {i j : Nat} (hi : i < keys.length)
    (hj : j < keys.length) : keys.getD i 0 < keys.getD j 0 ↔ i < j := by
  have hget : ∀ {a b : Nat}, a < b → b < keys.length → keys.getD a 0 < keys.getD b 0 := by
    intro a b hab hb
    have ha : a < keys.length := by omega
    rw [getD_of_getElem? (getElem?_eq_getElem ha), getD_of_getElem? (getElem?_eq_getElem hb)]
    exact pairwise_iff_getElem.1 hs a b ha hb hab
  refine ⟨fun h => ?_, fun h => hget h hj⟩
  rcases Nat.lt_trichotomy i j with hlt | rfl | hgt
  · exact hlt
  · exact absurd h (lt_irrefl _)
  · exact absurd (hget hgt hi) (by omega)

/-- **The part that is left** begins at an index whose key is not greater, and all keys behind it
are greater; so one index is left, the last whose key is not greater, if there is one. -/
theorem searchLoop_last {greater : Nat → Bool} {len fuel base size : Nat}
    (hmono : ∀ i j, i ≤ j → j < len → greater i = true → greater j = true) (hsize : 0 < size)
    (hfuel : size ≤ fuel + 1) (hle : base + size ≤ len)
    (hlo : base = 0 ∨ greater base = false)
    (hhi : ∀ i, base + size ≤ i → i < len → greater i = true) :
    ∃ r, searchLoop greater fuel base size = r ∧ r < len ∧ (r = 0 ∨ greater r = false) ∧
      ∀ i, r < i → i < len → greater i = true := by
  induction fuel generalizing base size with
  | zero => exact ⟨base, rfl, by omega, hlo, fun i hi => hhi i (by omega)⟩
  | succ fuel ih =>
    unfold searchLoop
    split_ifs with hone
    · exact ⟨base, rfl, by omega, hlo, fun i hi => hhi i (by omega)⟩
    · dsimp only
      split_ifs with hgreater
      · refine ih (by omega) (by omega) (by omega) hlo fun i hi hlt => ?_
        exact hmono _ i (by omega) hlt hgreater
      · refine ih (by omega) (by omega) (by omega) (.inr (Bool.eq_false_iff.2 hgreater)) ?_
        exact fun i hi => hhi i (by omega)

theorem greater_mono (hs : keys.Pairwise (· ≤ ·)) (key : Nat) (i j : Nat) (hij : i ≤ j)
    (hj : j < keys.length) (h : decide (key < keys.getD i 0) = true) :
    decide (key < keys.getD j 0) = true := by
  have hi : i < keys.length := by omega
  rw [decide_eq_true_eq, getD_of_getElem? (getElem?_eq_getElem hi)] at h
  rw [decide_eq_true_eq, getD_of_getElem? (getElem?_eq_getElem hj)]
  rcases hij.eq_or_lt with rfl | hlt
  · exact h
  · exact h.trans_le (pairwise_iff_getElem.1 hs i j hi hj hlt)

/-- The index of a key, or else the one where it would be inserted. -/
def binarySearchBy (keys : List Nat) (key : Nat) : Except Nat Nat :=
  if keys.length = 0 then .error 0
  else
    let base := searchLoop (fun i => decide (key < keys.getD i 0)) keys.length 0 keys.length
    if keys.getD base 0 = key then .ok base
    else .error (if keys.getD base 0 < key then base + 1 else base)

/-- **The keys up to a key** are those before the index where it would be inserted, or up to the
one that is found. -/
theorem binarySearchBy_spec (hs : keys.Pairwise (· ≤ ·)) (key : Nat) :
    ∃ n ≤ keys.length, (∀ i < n, keys.getD i 0 ≤ key) ∧
      (∀ i, n ≤ i → i < keys.length → key < keys.getD i 0) ∧
      (binarySearchBy keys key = .error n ∨ ∃ i, n = i + 1 ∧ binarySearchBy keys key = .ok i) := by
  unfold binarySearchBy
  split_ifs with hlen
  · exact ⟨0, Nat.zero_le _, nofun, fun i _ hi => by omega, .inl rfl⟩
  have hmono := greater_mono hs key
  obtain ⟨r, hr, hlt, hlo, hhi⟩ := searchLoop_last hmono (Nat.pos_of_ne_zero hlen)
    (le_succ _) (Nat.zero_add _).le (.inl rfl) fun i hi hlt => absurd hlt (by omega)
  simp only [decide_eq_true_eq, decide_eq_false_iff_not] at hlo hhi
  rw [hr]
  by_cases hle : keys.getD r 0 ≤ key
  · refine ⟨r + 1, hlt, fun i hi => ?_, fun i hi => hhi i (by omega), ?_⟩
    · by_contra hcon
      have := hmono i r (by omega) hlt (decide_eq_true (not_le.1 hcon))
      exact absurd (of_decide_eq_true this) (not_lt.2 hle)
    · rcases hle.eq_or_lt with heq | hless
      · exact .inr ⟨r, rfl, if_pos heq⟩
      · exact .inl (by rw [if_neg hless.ne, if_pos hless])
  · obtain rfl : r = 0 := hlo.resolve_right fun h => hle (not_lt.1 h)
    refine ⟨0, Nat.zero_le _, nofun, fun i _ hi => ?_, .inl ?_⟩
    · exact of_decide_eq_true (hmono 0 i (Nat.zero_le i) hi (decide_eq_true (not_le.1 hle)))
    · rw [if_neg (fun h => hle h.le), if_neg (fun h => hle h.le)]

theorem binarySearch_eq_some (hs : keys.Pairwise (· < ·)) :
    binarySearch keys key = some i ↔ keys[i]? = some key := by
  unfold binarySearch
  split_ifs with hlen
  · rw [length_eq_zero_iff] at hlen
    simp [hlen]
  · obtain ⟨r, hr, hlt, hlo, hhi⟩ := searchLoop_last
      (greater_mono (hs.imp fun h => h.le) key) (Nat.pos_of_ne_zero hlen) (le_succ _)
      (Nat.zero_add _).le (.inl rfl) fun i hi hlt => absurd hlt (by omega)
    have huniq : ∀ j, keys[j]? = some key → j = r := by
      intro j hj
      have hjlt := lt_of_getElem? hj
      have hkey := getD_of_getElem? hj
      rcases Nat.lt_trichotomy j r with hless | heq | hmore
      · have hup := (lt_iff_of_ascending hs hjlt hlt).2 hless
        rcases hlo with rfl | hlo
        · omega
        · exact absurd (of_decide_eq_false hlo) (by omega)
      · exact heq
      · exact absurd (of_decide_eq_true (hhi j hmore hjlt)) (by omega)
    rw [hr]
    dsimp only
    split_ifs with hkey
    · refine ⟨fun h => ?_, fun h => congrArg some (huniq i h).symm⟩
      cases h
      exact getElem?_of_getD hlt hkey
    · refine ⟨nofun, fun h => absurd ?_ hkey⟩
      rw [← huniq i h]
      exact getD_of_getElem? h

/-! ### Lists that need not be sorted -/

/-- The positions that are compared with on the way to position `i`. -/
def probes (i : Nat) : Nat → Nat → Nat → List Nat
  | 0, _, _ => []
  | fuel + 1, base, size =>
    if size ≤ 1 then []
    else
      let half := size / 2
      let mid := base + half
      mid :: probes i fuel (if i < mid then base else mid) (size - half)

theorem searchLoop_mem (greater : Nat → Bool) (fuel base : Nat) {size : Nat} (hsize : 0 < size) :
    base ≤ searchLoop greater fuel base size ∧
      searchLoop greater fuel base size < base + size := by
  induction fuel generalizing base size with
  | zero => simp only [searchLoop]; omega
  | succ fuel ih =>
    unfold searchLoop
    split_ifs with hone
    · omega
    · dsimp only
      split_ifs with hgreater
      · have hrec : base ≤ searchLoop greater fuel base (size - size / 2) ∧
            searchLoop greater fuel base (size - size / 2) < base + (size - size / 2) :=
          ih _ (by omega)
        omega
      · have hrec : base + size / 2 ≤ searchLoop greater fuel (base + size / 2) (size - size / 2) ∧
            searchLoop greater fuel (base + size / 2) (size - size / 2) <
              base + size / 2 + (size - size / 2) := ih _ (by omega)
        omega

/-- The search ends at a position exactly if no probe on the way there misleads it. -/
theorem searchLoop_eq_iff (greater : Nat → Bool) (hself : greater i = false) (fuel base size : Nat)
    (hfuel : size ≤ fuel + 1) (hle : base ≤ i) (hlt : i < base + size) :
    searchLoop greater fuel base size = i ↔
      ∀ mid ∈ probes i fuel base size, (greater mid = true ↔ i < mid) := by
  induction fuel generalizing base size with
  | zero =>
    have : i = base := by omega
    simp [searchLoop, probes, this]
  | succ fuel ih =>
    unfold searchLoop probes
    split_ifs with hone
    · have : i = base := by omega
      simp [this]
    · dsimp only
      rw [forall_mem_cons]
      by_cases hmid : i < base + size / 2
      · rw [if_pos hmid]
        by_cases hgreater : greater (base + size / 2) = true
        · rw [if_pos hgreater, ih _ _ (by omega) hle (by omega)]
          simp [hgreater, hmid]
        · -- the search goes on behind the position
          have hsize : 0 < size - size / 2 := by omega
          have hmem := searchLoop_mem greater fuel (base + size / 2) hsize
          rw [if_neg hgreater]
          refine iff_of_false (by omega) fun h => hgreater (h.1.2 hmid)
      · rw [if_neg hmid]
        by_cases hgreater : greater (base + size / 2) = true
        · -- the search goes on before the position, which is not the probe itself
          have hne : i ≠ base + size / 2 := by
            rintro rfl
            rw [hself] at hgreater
            cases hgreater
          have hsize : 0 < size - size / 2 := by omega
          have hmem := searchLoop_mem greater fuel base hsize
          rw [if_pos hgreater]
          refine iff_of_false (by omega) fun h => hmid (h.1.1 hgreater)
        · rw [if_neg hgreater, ih _ _ (by omega) (by omega) (by omega)]
          simp [hgreater, hmid]

theorem succ_mem_probes (i fuel base size : Nat) (hfuel : size ≤ fuel + 1) (hle : base ≤ i)
    (hlt : i + 1 < base + size) : i + 1 ∈ probes i fuel base size := by
  induction fuel generalizing base size with
  | zero => omega
  | succ fuel ih =>
    unfold probes
    rw [if_neg (by omega)]
    rw [mem_cons]
    by_cases hmid : i + 1 = base + size / 2
    · exact .inl hmid
    · right
      split_ifs with hbefore
      · exact ih _ _ (by omega) hle (by omega)
      · exact ih _ _ (by omega) (by omega) (by omega)

theorem getElem?_of_binarySearch (h : binarySearch keys key = some i) : keys[i]? = some key := by
  unfold binarySearch at h
  split_ifs at h with hlen
  dsimp only at h
  split_ifs at h with hkey
  cases h
  refine getElem?_of_getD ?_ hkey
  have := searchLoop_mem (fun i => decide (key < keys.getD i 0)) keys.length 0
    (Nat.pos_of_ne_zero hlen)
  omega

/-- **The search in any list.** A key is found where it is exactly if it compares with the keys
at the probes as their positions do. -/
theorem binarySearch_self_iff (hi : keys[i]? = some key) :
    binarySearch keys key = some i ↔
      ∀ mid ∈ probes i keys.length 0 keys.length, (key < keys.getD mid 0 ↔ i < mid) := by
  have hlt := lt_of_getElem? hi
  have hself : decide (key < keys.getD i 0) = false := by
    rw [getD_of_getElem? hi]
    simp
  have hloop := searchLoop_eq_iff (fun i => decide (key < keys.getD i 0)) hself keys.length 0
    keys.length (le_succ _) (Nat.zero_le i) (by omega)
  simp only [decide_eq_true_eq] at hloop
  rw [← hloop]
  constructor
  · intro h
    unfold binarySearch at h
    rw [if_neg (by omega)] at h
    dsimp only at h
    split_ifs at h with hkey
    exact Option.some.inj h
  · intro h
    unfold binarySearch
    rw [if_neg (by omega)]
    rw [h, if_pos (getD_of_getElem? hi)]

theorem probes_of_ascending (hs : keys.Pairwise (· < ·)) (hi : keys[i]? = some key) :
    ∀ mid ∈ probes i keys.length 0 keys.length, (key < keys.getD mid 0 ↔ i < mid) :=
  (binarySearch_self_iff hi).1 ((binarySearch_eq_some hs).2 hi)

theorem ascending_of_probes
    (h : ∀ i key, keys[i]? = some key → i + 1 < keys.length →
      ∀ mid ∈ probes i keys.length 0 keys.length, (key < keys.getD mid 0 ↔ i < mid)) :
    keys.Pairwise (· < ·) := by
  rw [← isChain_iff_pairwise, isChain_iff_getElem]
  intro i hi
  have hprobe := succ_mem_probes i keys.length 0 keys.length (le_succ _) (Nat.zero_le i) (by omega)
  have hlt := (h i _ (getElem?_eq_getElem (by omega)) hi _ hprobe).2 (by omega)
  rwa [getD_of_getElem? (getElem?_eq_getElem hi)] at hlt

end Base
