import Wasmtime.Vm.MmapMemory

/-!
# The layout of linear memories

What holds of every memory from its creation on, however it grows. `MmapMemory.Ok`: the guards fit
around a capacity, the memory is within it, and exactly its bytes (up to the end of their last host
page) are accessible. `LocalMemory.Ok`: and the capacity is at least the reservation.
`LocalMemory.grow_wp`: growing never panics, keeps `Ok`, and relates the memory before to the one
after by `Grows`.
-/

namespace Wasmtime.Vm

open Base Prog Environ Nat
open HostAlignedByteCount (newRoundedUp)

variable {p : Nat}

/-! ### Rounding -/

theorem le_alignUp (p n : Nat) : n ≤ alignUp p n := by
  have := div_add_mod (n + (2 ^ p - 1)) (2 ^ p)
  rw [Nat.mul_comm] at this
  unfold alignUp
  omega

theorem dvd_alignUp (p n : Nat) : 2 ^ p ∣ alignUp p n := Nat.dvd_mul_left _ _

theorem alignUp_le_iff {n m : Nat} (h : 2 ^ p ∣ m) : alignUp p n ≤ m ↔ n ≤ m := by
  refine ⟨fun hle => le_trans (le_alignUp p n) hle, fun hle => ?_⟩
  have hpos : 0 < 2 ^ p := Nat.two_pow_pos p
  obtain ⟨k, rfl⟩ := h
  have : (n + (2 ^ p - 1)) / 2 ^ p ≤ k := by
    rw [div_le_iff_le_mul_add_pred hpos]
    omega
  calc alignUp p n ≤ k * 2 ^ p := Nat.mul_le_mul_right _ this
    _ = 2 ^ p * k := Nat.mul_comm _ _

theorem alignUp_eq {n : Nat} (h : 2 ^ p ∣ n) : alignUp p n = n :=
  le_antisymm ((alignUp_le_iff h).2 le_rfl) (le_alignUp p n)

theorem alignUp_mono {n m : Nat} (h : n ≤ m) : alignUp p n ≤ alignUp p m :=
  (alignUp_le_iff (dvd_alignUp p m)).2 (le_trans h (le_alignUp p m))

@[simp] theorem alignUp_zero : alignUp p 0 = 0 := alignUp_eq (Nat.dvd_zero _)

namespace HostAlignedByteCount

variable {a b c : HostAlignedByteCount p} {n : Nat}

theorem newRoundedUp_some (h : newRoundedUp n = some a) : a.byteCount = alignUp p n := by
  unfold newRoundedUp at h
  split_ifs at h
  cases h
  rfl

theorem add_page_le (hp : 2 ^ p ≤ u64Size) (h : 2 ^ p ∣ n) (hn : n < u64Size) :
    n + 2 ^ p ≤ u64Size := by
  have hdvd : 2 ^ p ∣ u64Size := Nat.pow_dvd_pow 2 ((Nat.pow_le_pow_iff_right (by norm_num)).1 hp)
  have hsub : 2 ^ p ∣ u64Size - n := Nat.dvd_sub hdvd h
  have := le_of_dvd (by omega) hsub
  omega

theorem newRoundedUp_run (hp : 2 ^ p ≤ u64Size) {m : Nat} (hm : 2 ^ p ∣ m) (hlt : m < u64Size)
    (h : n ≤ m) :
    ∃ a : HostAlignedByteCount p, newRoundedUp n = some a ∧ a.byteCount = alignUp p n := by
  have := add_page_le hp hm hlt
  unfold newRoundedUp
  rw [dif_pos (by omega)]
  exact ⟨_, rfl, rfl⟩

theorem checkedAdd_some (h : a.checkedAdd b = some c) :
    c.byteCount = a.byteCount + b.byteCount := by
  unfold checkedAdd at h
  split_ifs at h
  cases h
  rfl

theorem checkedAdd_run (h : a.byteCount + b.byteCount < u64Size) :
    ∃ c, a.checkedAdd b = some c ∧ c.byteCount = a.byteCount + b.byteCount := by
  unfold checkedAdd
  rw [dif_pos h]
  exact ⟨_, rfl, rfl⟩

theorem checkedSub_run (h : b.byteCount ≤ a.byteCount) :
    ∃ c, a.checkedSub b = some c ∧ c.byteCount = a.byteCount - b.byteCount := by
  unfold checkedSub
  rw [if_pos h]
  exact ⟨_, rfl, rfl⟩

@[simp] theorem zero_byteCount : (zero : HostAlignedByteCount p).byteCount = 0 := rfl

theorem isZero_iff : a.isZero = true ↔ a.byteCount = 0 := by simp [isZero]

end HostAlignedByteCount

/-! ### Mappings -/

namespace Mmap

open HostAlignedByteCount

variable {σ : Type} {os : Os} {m : Mmap p} {start len size : HostAlignedByteCount p} {s : σ}
  {Q : Mmap p → σ → Prop} {E : String → σ → Prop}

/-- The same range, with more of it accessible. -/
structure Exposes (lo n : Nat) (m m' : Mmap p) : Prop where
  start : m'.start = m.start
  len : m'.len = m.len
  accessible : ∀ a, m'.isAccessible a = true ↔
    m.isAccessible a = true ∨ lo ≤ a ∧ a < lo + n

theorem exposes_append (m : Mmap p) (start len : Nat) :
    Exposes start len m { m with accessible := m.accessible ++ [(start, len)] } := by
  refine ⟨rfl, rfl, fun a => ?_⟩
  simp [isAccessible, List.any_append]

theorem exposes_nothing (m : Mmap p) (start : Nat) : Exposes start 0 m m :=
  ⟨rfl, rfl, fun a => ⟨Or.inl, fun h => h.elim id (by omega)⟩⟩

theorem makeAccessible_wp (hin : start.byteCount + len.byteCount ≤ m.len.byteCount)
    (hQ : ∀ m', Exposes start.byteCount len.byteCount m m' → Q m' s) (hE : ∀ e, E e s) :
    wp (makeAccessible os m start len) Q E s := by
  unfold makeAccessible
  simp only [wp_ite, wp_bind, wp_pure, wp_unwrap, wp_assert, wp_err]
  refine ⟨fun hz => ?_, fun _ => ?_⟩
  · rw [isZero_iff] at hz
    exact hQ m (hz ▸ exposes_nothing m _)
  · obtain ⟨c, hc, hcount⟩ := checkedAdd_run (lt_of_le_of_lt hin m.len.lt)
    refine ⟨c, hc, by simpa [hcount] using hin, fun _ => ?_, fun _ => hE _⟩
    exact hQ _ (exposes_append m _ _)

structure Reserved (os : Os) (size : HostAlignedByteCount p) (m : Mmap p) : Prop where
  start : 4096 ≤ m.start
  fits : m.start + m.len.byteCount < u64Size
  len : m.len.byteCount = size.byteCount
  accessible : ∀ a, m.isAccessible a = false
  from_os : size.byteCount = 0 ∧ m.start = 4096 ∨ os.reserve size.byteCount = some m.start

theorem accessibleReserved_wp (hQ : ∀ m, Reserved os size m → Q m s) (hE : ∀ e, E e s) :
    wp (accessibleReserved os .zero size) Q E s := by
  unfold accessibleReserved
  simp only [wp_ite, wp_bind, wp_pure, wp_assert, wp_orErr]
  refine ⟨by simp, fun hz => ?_, fun hz => ⟨fun heq => ?_, fun _ => ⟨fun a ha => ?_, fun _ => hE _⟩⟩⟩
  · rw [isZero_iff] at hz
    exact hQ _ ⟨le_rfl, by simp [newEmpty, u64Size], hz.symm, fun _ => rfl, Or.inl ⟨hz, rfl⟩⟩
  · exact absurd (isZero_iff.2 (heq ▸ rfl)) hz
  · refine ⟨fun _ => ?_, fun h => absurd rfl h⟩
    obtain ⟨h1, h2⟩ := os.reserve_ok _ _ ha
    exact hQ _ ⟨h1, h2, rfl, fun _ => rfl, Or.inr ha⟩

end Mmap

/-! ### Allocations -/

namespace MmapMemory

open HostAlignedByteCount

variable {σ : Type} {os : Os} {m m' : MmapMemory p} {n : Nat}

def capacity (m : MmapMemory p) : Nat :=
  m.mmap.len.byteCount - m.offsetGuardSize.byteCount - m.preGuardSize.byteCount

structure Ok (m : MmapMemory p) : Prop where
  page : 2 ^ p ≤ u64Size
  start : 4096 ≤ m.mmap.start
  fits : m.mmap.start + m.mmap.len.byteCount < u64Size
  guards : m.preGuardSize.byteCount + m.offsetGuardSize.byteCount ≤ m.mmap.len.byteCount
  len_le : m.len ≤ m.capacity
  accessible : ∀ a, m.mmap.isAccessible a = true ↔
    m.preGuardSize.byteCount ≤ a ∧ a < m.preGuardSize.byteCount + alignUp p m.len

theorem dvd_capacity (m : MmapMemory p) : 2 ^ p ∣ m.capacity :=
  Nat.dvd_sub (Nat.dvd_sub m.mmap.len.aligned m.offsetGuardSize.aligned) m.preGuardSize.aligned

theorem capacity_lt (m : MmapMemory p) : m.capacity < u64Size :=
  lt_of_le_of_lt (le_trans (sub_le _ _) (sub_le _ _)) m.mmap.len.lt

theorem Ok.currentCapacity (h : m.Ok) :
    ∃ c, m.currentCapacity = some c ∧ c.byteCount = m.capacity := by
  have := h.guards
  obtain ⟨c, hc, hcount⟩ := checkedSub_run (a := m.mmap.len) (b := m.offsetGuardSize) (by omega)
  obtain ⟨d, hd, hcount'⟩ := checkedSub_run (a := c) (b := m.preGuardSize) (by omega)
  refine ⟨d, by rw [MmapMemory.currentCapacity, hc]; exact hd, ?_⟩
  rw [hcount', hcount, capacity]

theorem Ok.byteCapacity (h : m.Ok) (s : σ) : m.byteCapacity s = (.ok m.capacity, s) := by
  obtain ⟨c, hc, hcount⟩ := h.currentCapacity
  rw [MmapMemory.byteCapacity, hc, ← hcount]
  rfl

theorem Ok.byteCapacity_wp (h : m.Ok) {s : σ} {Q : Nat → σ → Prop} {E : String → σ → Prop} :
    wp m.byteCapacity Q E s ↔ Q m.capacity s := by
  rw [wp, h.byteCapacity]

theorem Ok.alignUp_le (h : m.Ok) : alignUp p m.len ≤ m.capacity :=
  (alignUp_le_iff m.dvd_capacity).2 h.len_le

theorem Ok.mmap_len (h : m.Ok) : m.mmap.len.byteCount =
    m.preGuardSize.byteCount + m.capacity + m.offsetGuardSize.byteCount := by
  have := h.guards
  unfold capacity
  omega

theorem Ok.accessible_wp (h : m.Ok) {s : σ} {Q : HostAlignedByteCount p → σ → Prop}
    {E : String → σ → Prop} (hQ : ∀ a, a.byteCount = alignUp p m.len → Q a s) :
    wp (MmapMemory.accessible m) Q E s := by
  obtain ⟨a, ha, hcount⟩ := newRoundedUp_run h.page m.dvd_capacity m.capacity_lt h.len_le
  unfold MmapMemory.accessible
  simp only [wp_bind, wp_unwrap, h.byteCapacity_wp, wp_assert, wp_pure]
  exact ⟨a, ha, by simpa [hcount] using h.alignUp_le, hQ a hcount⟩

structure Grows (os : Os) (n : Nat) (m m' : MmapMemory p) : Prop where
  ok : m'.Ok
  len : m'.len = n
  maximum : m'.maximum = m.maximum
  preGuardSize : m'.preGuardSize = m.preGuardSize
  offsetGuardSize : m'.offsetGuardSize = m.offsetGuardSize
  capacity_le : m.capacity ≤ m'.capacity
  mapping : (m'.mmap.start = m.mmap.start ∧ m'.mmap.len = m.mmap.len) ∨
    m.capacity < n ∧ os.reserve m'.mmap.len.byteCount = some m'.mmap.start

theorem growInPlace_wp (h : m.Ok) {a c : HostAlignedByteCount p} (ha : a.byteCount = alignUp p n)
    (hc : c.byteCount = m.capacity) (hlen : m.len ≤ n) (hcap : n ≤ m.capacity)
    (hmax : ∀ max, m.maximum = some max → n ≤ max) :
    wp (growInPlace os n a c) (fun _ m' => Grows os n m { m' with len := n })
      (fun _ m' => m' = m) m := by
  unfold growInPlace
  simp only [wp_bind, wp_get, wp_assert]
  refine ⟨by simpa [hc] using hcap, ?_, h.accessible_wp fun b hb => ?_⟩
  · rcases hm : m.maximum with _ | max
    · rfl
    · simpa using hmax max hm
  have hmono : alignUp p m.len ≤ alignUp p n := alignUp_mono hlen
  have hle : alignUp p n ≤ m.capacity := (alignUp_le_iff m.dvd_capacity).2 hcap
  have hmlen := h.mmap_len
  obtain ⟨d, hd, hdc⟩ := checkedSub_run (a := a) (b := b) (by omega)
  simp only [hd, wp_bind, wp_orErr]
  refine ⟨fun start hstart => ?_, fun _ => trivial⟩
  have hsc := checkedAdd_some hstart
  refine Mmap.makeAccessible_wp (by omega) (fun mm hx => ?_) (fun _ => rfl)
  refine ⟨⟨h.page, ?_, ?_, ?_, ?_, fun x => ?_⟩, rfl, rfl, rfl, rfl, ?_, Or.inl ⟨hx.start, hx.len⟩⟩
  · exact hx.start ▸ h.start
  · simpa only [hx.start, hx.len] using h.fits
  · simpa only [hx.len] using h.guards
  · simpa only [capacity, hx.len] using hcap
  · -- the old bytes, and those between the old end and the new
    simp only [hx.accessible, h.accessible]
    omega
  · simp only [capacity, hx.len, le_refl]

theorem growMoving_wp (h : m.Ok) {a : HostAlignedByteCount p} (ha : a.byteCount = alignUp p n)
    (hcap : m.capacity < n) :
    wp (growMoving os a) (fun _ m' => Grows os n m { m' with len := n })
      (fun _ m' => m' = m) m := by
  unfold growMoving
  simp only [wp_bind, wp_get, wp_orErr]
  refine ⟨fun req hreq => ?_, fun _ => trivial⟩
  obtain ⟨y, hy, hz⟩ := Option.bind_eq_some_iff.1 hreq
  obtain ⟨x, hx, hy⟩ := Option.bind_eq_some_iff.1 hy
  have h1 := checkedAdd_some hx
  have h2 := checkedAdd_some hy
  have h3 := checkedAdd_some hz
  have hle := le_alignUp p n
  have hmlen := h.mmap_len
  have hin := h.len_le
  refine Mmap.accessibleReserved_wp (fun mm hr => ?_) (fun _ => rfl)
  have hrl := hr.len
  have hfit : m.preGuardSize.byteCount + a.byteCount ≤ mm.len.byteCount := by omega
  rw [wp_bind]
  refine Mmap.makeAccessible_wp hfit (fun mm' he => ?_) (fun _ => rfl)
  have hml : mm'.len.byteCount = req.byteCount := by rw [he.len, hrl]
  simp only [wp_bind, wp_assert, decide_eq_true_eq, wp_modify]
  refine ⟨by omega, by omega, ⟨h.page, ?_, ?_, ?_, ?_, fun b => ?_⟩, rfl, rfl, rfl, rfl, ?_,
    Or.inr ⟨hcap, ?_⟩⟩
  · exact he.start ▸ hr.start
  · simpa only [he.start, he.len] using hr.fits
  · show m.preGuardSize.byteCount + m.offsetGuardSize.byteCount ≤ mm'.len.byteCount
    omega
  · show n ≤ mm'.len.byteCount - m.offsetGuardSize.byteCount - m.preGuardSize.byteCount
    omega
  · show mm'.isAccessible b = true ↔ _
    simp only [he.accessible, hr.accessible, Bool.false_eq_true, false_or, ha]
  · show m.capacity ≤ mm'.len.byteCount - m.offsetGuardSize.byteCount - m.preGuardSize.byteCount
    omega
  · show os.reserve mm'.len.byteCount = some mm'.start
    rw [hml, he.start]
    exact hr.from_os.resolve_left fun h => by omega

theorem growTo_wp (h : m.Ok) (hlen : m.len ≤ n) (hmax : ∀ max, m.maximum = some max → n ≤ max) :
    wp (growTo os n) (fun _ m' => Grows os n m m') (fun _ m' => m' = m) m := by
  obtain ⟨c, hc, hcount⟩ := h.currentCapacity
  unfold growTo
  simp only [wp_bind, wp_get, wp_orErr, wp_unwrap]
  refine ⟨fun a ha => ⟨c, hc, ?_⟩, fun _ => trivial⟩
  have hac := newRoundedUp_some ha
  rw [wp_ite, hcount, hac]
  refine ⟨fun hlt => ?_, fun hle => ?_⟩
  · rw [wp_bind]
    exact growMoving_wp h hac (by
      by_contra hcon
      exact absurd ((alignUp_le_iff m.dvd_capacity).2 (not_lt.1 hcon)) (not_le.2 hlt))
  · rw [wp_bind]
    exact growInPlace_wp h hac hcount hlen ((alignUp_le_iff m.dvd_capacity).1 (not_lt.1 hle)) hmax

structure New (os : Os) (tunables : Tunables) (minimum : Nat) (maximum : Option Nat)
    (m : MmapMemory p) : Prop where
  ok : m.Ok
  len : m.len = minimum
  maximum : m.maximum = maximum
  guard_le : tunables.memoryGuardSize ≤ m.offsetGuardSize.byteCount
  reserved : tunables.memoryReservation ≤ m.capacity
  capacity : minimum ≤ tunables.memoryReservation →
    m.capacity = alignUp p tunables.memoryReservation
  from_os : m.mmap.len.byteCount = 0 ∧ m.mmap.start = 4096 ∨
    os.reserve m.mmap.len.byteCount = some m.mmap.start

theorem new_wp {ty : Memory} {tunables : Tunables} {maximum : Option Nat} {s : σ}
    (hlt : n < u64Size) :
    wp (new os ty tunables n maximum : Prog σ String (MmapMemory p))
      (fun m _ => New os tunables n maximum m) (fun _ _ => True) s := by
  have hsizes : n ≤ (initialSizes ty tunables n).1 ∧
      tunables.memoryReservation ≤ (initialSizes ty tunables n).1 ∧
      (n ≤ tunables.memoryReservation →
        (initialSizes ty tunables n).1 = tunables.memoryReservation) := by
    unfold initialSizes saturatingAdd
    split_ifs with h
    · exact ⟨h, le_rfl, fun _ => rfl⟩
    · have := tunables.reservation_lt
      simp only [u64Max, u64Size] at *
      omega
  obtain ⟨hmin, hres, heq⟩ := hsizes
  unfold new
  simp only [wp_bind, wp_orErr, implies_true, and_true]
  intro guard hguard alloc halloc extra _ request hrequest
  set pre : HostAlignedByteCount p := if tunables.guardBeforeLinearMemory then guard else .zero
  obtain ⟨x, hx, hy⟩ := Option.bind_eq_some_iff.1 hrequest
  have h1 := checkedAdd_some hx
  have h2 := checkedAdd_some hy
  have hg := newRoundedUp_some hguard
  have ha := newRoundedUp_some halloc
  have hgle := le_alignUp p tunables.memoryGuardSize
  have hale := le_alignUp p (initialSizes ty tunables n).1
  have hpage : 2 ^ p ≤ u64Size := by
    unfold newRoundedUp at hguard
    split_ifs at hguard
    omega
  refine Mmap.accessibleReserved_wp (fun mm hr => ?_) (fun _ => trivial)
  have hrl := hr.len
  have hfinish : ∀ mm' : Mmap p, Mmap.Exposes pre.byteCount (alignUp p n) mm mm' →
      New os tunables n maximum
        { mmap := mm', len := n, maximum, extraToReserveOnGrowth := extra, preGuardSize := pre,
          offsetGuardSize := guard } := by
    intro mm' he
    have hml : mm'.len.byteCount = request.byteCount := by rw [he.len, hrl]
    have hcap : mm'.len.byteCount - guard.byteCount - pre.byteCount = alloc.byteCount := by omega
    refine ⟨⟨hpage, he.start ▸ hr.start, ?_, ?_, ?_, fun b => ?_⟩, rfl, rfl, by simp only; omega,
      ?_, ?_, ?_⟩
    · simpa only [he.start, he.len] using hr.fits
    · show pre.byteCount + guard.byteCount ≤ mm'.len.byteCount
      omega
    · show n ≤ mm'.len.byteCount - guard.byteCount - pre.byteCount
      omega
    · show mm'.isAccessible b = true ↔ _
      simp only [he.accessible, hr.accessible, Bool.false_eq_true, false_or]
    · show _ ≤ mm'.len.byteCount - guard.byteCount - pre.byteCount
      omega
    · intro hle
      show mm'.len.byteCount - guard.byteCount - pre.byteCount = _
      rw [hcap, ha, heq hle]
    · show mm'.len.byteCount = 0 ∧ mm'.start = 4096 ∨ os.reserve mm'.len.byteCount = some mm'.start
      rw [hml, he.start]
      exact hr.from_os
  rw [wp_ite]
  refine ⟨fun hpos => ?_, fun hzero => ?_⟩
  · simp only [wp_bind, wp_orErr, implies_true, and_true]
    intro acc hacc
    have hac := newRoundedUp_some hacc
    have hle : acc.byteCount ≤ alloc.byteCount := by
      rw [hac, ha]
      exact alignUp_mono hmin
    have hfit : pre.byteCount + acc.byteCount ≤ mm.len.byteCount := by omega
    exact Mmap.makeAccessible_wp hfit (fun mm' he => hfinish mm' (hac ▸ he)) (fun _ => trivial)
  · obtain rfl : n = 0 := by omega
    exact hfinish mm (by simpa using Mmap.exposes_nothing mm _)

end MmapMemory

/-! ### Memories -/

namespace LocalMemory

open HostAlignedByteCount

variable {σ : Type} {os : Os} {tunables : Tunables} {m m' : LocalMemory p} {n delta : Nat}
  {store : Option Limiter}

structure Ok (tunables : Tunables) (m : LocalMemory p) : Prop where
  alloc : m.alloc.Ok
  memoryMayMove : m.memoryMayMove = m.ty.memoryMayMove tunables
  memoryGuardSize : m.memoryGuardSize = tunables.memoryGuardSize
  memoryReservation : m.memoryReservation = tunables.memoryReservation
  maximum : m.alloc.maximum = m.ty.maximumByteSize
  guard_le : tunables.memoryGuardSize ≤ m.alloc.offsetGuardSize.byteCount
  reserved : tunables.memoryReservation ≤ m.alloc.capacity
  allows : m.ty.Allows m.alloc.len
  page : m.ty.pageSize ∣ m.alloc.len
  image : ∀ slot, m.memoryImage = some slot →
    slot.staticSize = m.alloc.capacity ∧ slot.accessible.byteCount = alignUp p m.alloc.len

structure Grows (os : Os) (m m' : LocalMemory p) : Prop where
  ty : m'.ty = m.ty
  memoryMayMove : m'.memoryMayMove = m.memoryMayMove
  preGuardSize : m'.alloc.preGuardSize = m.alloc.preGuardSize
  len_le : m.alloc.len ≤ m'.alloc.len
  mapping : (m'.alloc.mmap.start = m.alloc.mmap.start ∧ m'.alloc.mmap.len = m.alloc.mmap.len ∧
      m'.alloc.capacity = m.alloc.capacity) ∨
    m.memoryMayMove = true ∧ m.alloc.capacity < m'.alloc.len ∧
      os.reserve m'.alloc.mmap.len.byteCount = some m'.alloc.mmap.start

theorem Grows.refl (os : Os) (m : LocalMemory p) : Grows os m m :=
  ⟨rfl, rfl, rfl, le_rfl, Or.inl ⟨rfl, rfl, rfl⟩⟩

/-! ### The new size -/

theorem pageSize_dvd (ty : Memory) : ty.pageSize ∣ u64Size := by
  refine Nat.pow_dvd_pow 2 ?_
  rcases ty.page_ok with h | h <;> omega

theorem newByteSize_eq (m : LocalMemory p) (delta : Nat) :
    m.newByteSize delta = min (delta * m.ty.pageSize + m.alloc.len) (u64Size - m.ty.pageSize) := by
  have hpos := m.ty.pageSize_pos
  have habs : (u64Size - m.ty.pageSize) % u64Size = u64Size - m.ty.pageSize :=
    mod_eq_of_lt (by simp only [u64Size] at *; omega)
  have hu : u64Max = u64Size - 1 := rfl
  unfold newByteSize saturatingAdd saturatingMul
  rw [habs]
  by_cases hlt : delta * m.ty.pageSize + m.alloc.len < u64Size
  · omega
  · -- a size that saturates is clamped
    omega

theorem dvd_newByteSize (m : LocalMemory p) (delta : Nat) (h : m.ty.pageSize ∣ m.alloc.len) :
    m.ty.pageSize ∣ m.newByteSize delta := by
  rw [newByteSize_eq m delta]
  rcases min_choice (delta * m.ty.pageSize + m.alloc.len) (u64Size - m.ty.pageSize) with h' | h'
  · rw [h']
    exact Nat.dvd_add (Nat.dvd_mul_left _ _) h
  · rw [h']
    exact Nat.dvd_sub (pageSize_dvd m.ty) (dvd_refl _)

theorem le_absoluteMax {ty : Memory} (h : ty.pageSize ∣ n) (hlt : n < u64Size) :
    n ≤ u64Size - ty.pageSize := by
  have hsub : ty.pageSize ∣ u64Size - n := Nat.dvd_sub (pageSize_dvd ty) h
  have := le_of_dvd (by omega) hsub
  omega

theorem newByteSize_le (m : LocalMemory p) (delta : Nat) :
    m.newByteSize delta ≤ u64Size - m.ty.pageSize := by
  rw [newByteSize_eq m delta]
  exact min_le_right _ _

theorem Ok.le_newByteSize (h : m.Ok tunables) (delta : Nat) :
    m.alloc.len ≤ m.newByteSize delta := by
  rw [newByteSize_eq m delta]
  exact le_min (Nat.le_add_left _ _) (le_absoluteMax h.page h.allows.lt)

/-! ### Growing -/

theorem Ok.dropImage (h : m.Ok tunables) : Ok tunables { m with memoryImage := none } :=
  ⟨h.alloc, h.memoryMayMove, h.memoryGuardSize, h.memoryReservation, h.maximum, h.guard_le,
    h.reserved, h.allows, h.page, fun _ h => nomatch h⟩

theorem Grows.ofDropImage (h : Grows os { m with memoryImage := none } m') : Grows os m m' :=
  ⟨h.ty, h.memoryMayMove, h.preGuardSize, h.len_le, h.mapping⟩

variable (h : m.Ok tunables)
include h

theorem Ok.grown {a : MmapMemory p} (hnone : m.memoryImage = none)
    (hallows : m.ty.Allows n) (hpage : m.ty.pageSize ∣ n)
    (hmove : m.alloc.capacity < n → m.memoryMayMove = true) (hle : m.alloc.len ≤ n)
    (hg : MmapMemory.Grows os n m.alloc a) :
    Ok tunables { m with alloc := a } ∧ Grows os m { m with alloc := a } ∧ a.len = n := by
  refine ⟨?_, ?_, hg.len⟩
  · refine ⟨hg.ok, h.memoryMayMove, h.memoryGuardSize, h.memoryReservation, ?_, ?_, ?_, ?_, ?_, ?_⟩
    · exact hg.maximum.trans h.maximum
    · exact hg.offsetGuardSize ▸ h.guard_le
    · exact le_trans h.reserved hg.capacity_le
    · exact hg.len ▸ hallows
    · exact hg.len ▸ hpage
    · intro slot hs
      exact absurd hs (by simp [hnone])
  · refine ⟨rfl, rfl, hg.preGuardSize, hg.len ▸ hle, ?_⟩
    rcases hg.mapping with ⟨h1, h2⟩ | ⟨h1, h2⟩
    · exact Or.inl ⟨h1, h2, by simp only [MmapMemory.capacity, h2, hg.preGuardSize,
        hg.offsetGuardSize]⟩
    · exact Or.inr ⟨hmove h1, hg.len ▸ h1, h2⟩

theorem growAlloc_wp (hnone : m.memoryImage = none) (hallows : m.ty.Allows n)
    (hpage : m.ty.pageSize ∣ n) (hle : m.alloc.len ≤ n)
    (hmove : m.alloc.capacity < n → m.memoryMayMove = true) :
    wp (onAlloc (MmapMemory.growTo os n))
      (fun _ m' => Ok tunables m' ∧ Grows os m m' ∧ m'.alloc.len = n)
      (fun _ m' => Ok tunables m' ∧ Grows os m m') m := by
  unfold onAlloc
  rw [wp_zoom]
  refine wp_mono (MmapMemory.growTo_wp h.alloc hle ?_) (fun _ a hg => ?_) (fun _ a ha => ?_)
  · rw [h.maximum]
    exact hallows.le_max
  · exact h.grown hnone hallows hpage hmove hle hg
  · subst ha
    exact ⟨h, .refl os m⟩

theorem growImage_wp {slot : MemoryImageSlot p}
    (hslot : m.memoryImage = some slot) (hallows : m.ty.Allows n) (hpage : m.ty.pageSize ∣ n)
    (hle : m.alloc.len ≤ n) (hcap : n ≤ m.alloc.capacity) :
    wp (do setHeapLimit os slot n; onAlloc (Prog.modify fun a => { a with len := n }))
      (fun _ m' => Ok tunables m' ∧ Grows os m m' ∧ m'.alloc.len = n)
      (fun _ m' => Ok tunables m' ∧ Grows os m m') m := by
  obtain ⟨hstatic, hacc⟩ := h.image slot hslot
  have hend := (alignUp_le_iff m.alloc.dvd_capacity).2 hcap
  have hmono : alignUp p m.alloc.len ≤ alignUp p n := alignUp_mono hle
  have hkeep : Ok tunables m ∧ Grows os m m := ⟨h, .refl os m⟩
  unfold setHeapLimit exposeUpTo onAlloc
  simp only [wp_bind, wp_orErr, wp_assert, decide_eq_true_eq, wp_ite,
    wp_pure, wp_unwrap, wp_zoom, wp_modify, wp_err]
  refine ⟨fun end_ hend_ => ?_, fun _ => hkeep⟩
  have hec := newRoundedUp_some hend_
  refine ⟨by omega, by omega, fun hsmall => ?_, fun hlarge => ?_⟩
  · -- nothing has to be done within the last host page
    have heq : alignUp p n = alignUp p m.alloc.len := by omega
    refine ⟨⟨⟨h.alloc.page, h.alloc.start, h.alloc.fits, h.alloc.guards, hcap, ?_⟩, h.memoryMayMove,
      h.memoryGuardSize, h.memoryReservation, h.maximum, h.guard_le, h.reserved, hallows, hpage,
      fun slot' hs => ?_⟩, ⟨rfl, rfl, rfl, hle, Or.inl ⟨rfl, rfl, rfl⟩⟩, trivial⟩
    · simpa only [heq] using h.alloc.accessible
    · obtain ⟨h1, h2⟩ := h.image slot' hs
      exact ⟨h1, h2.trans heq.symm⟩
  · obtain ⟨d, hd, hdc⟩ := checkedSub_run (a := end_) (b := slot.accessible) (by omega)
    refine ⟨d, hd, by omega, fun _ => ?_, fun _ => hkeep⟩
    have hx := Mmap.exposes_append m.alloc.mmap
      (m.alloc.preGuardSize.byteCount + slot.accessible.byteCount) d.byteCount
    refine ⟨⟨⟨h.alloc.page, h.alloc.start, h.alloc.fits, h.alloc.guards, hcap, fun b => ?_⟩,
      h.memoryMayMove, h.memoryGuardSize, h.memoryReservation, h.maximum, h.guard_le, h.reserved,
      hallows, hpage, fun slot' hs => ?_⟩, ⟨rfl, rfl, rfl, hle, Or.inl ⟨rfl, rfl, rfl⟩⟩, trivial⟩
    · refine (hx.accessible b).trans ?_
      show _ ↔ m.alloc.preGuardSize.byteCount ≤ b ∧ b < m.alloc.preGuardSize.byteCount + alignUp p n
      rw [h.alloc.accessible]
      omega
    · cases hs
      exact ⟨hstatic, hec⟩

theorem growTo_wp (hpage : m.ty.pageSize ∣ n) (hle : m.alloc.len ≤ n)
    (hlt : n < u64Size) :
    wp (growTo os n) (fun _ m' => Ok tunables m' ∧ Grows os m m' ∧ m'.alloc.len = n)
      (fun _ m' => Ok tunables m' ∧ Grows os m m') m := by
  have hkeep : Ok tunables m ∧ Grows os m m := ⟨h, .refl os m⟩
  unfold growTo
  simp only [wp_bind, wp_get, wp_ite, wp_err, h.alloc.byteCapacity_wp]
  refine ⟨fun _ => hkeep, fun hmax => ⟨fun _ => hkeep, fun hmove => ?_⟩⟩
  have hallows : m.ty.Allows n := by
    refine ⟨le_trans h.allows.min_le hle, fun max hm => ?_, hlt⟩
    simpa [hm] using hmax
  have hmove' : m.alloc.capacity < n → m.memoryMayMove = true := by
    intro hlt'
    simpa [hlt'] using hmove
  rcases hslot : m.memoryImage with _ | slot
  · exact growAlloc_wp h hslot hallows hpage hle hmove'
  · simp only [wp_ite]
    refine ⟨growImage_wp h hslot hallows hpage hle, fun hcap => ?_⟩
    simp only [wp_bind, wp_assert, wp_modify]
    refine ⟨hmove' (by omega), ?_⟩
    refine wp_mono (growAlloc_wp h.dropImage rfl hallows hpage hle hmove')
      (fun _ m' hg => ⟨hg.1, hg.2.1.ofDropImage, hg.2.2⟩) (fun _ m' hg => ⟨hg.1, hg.2.ofDropImage⟩)

/-- **Growing keeps the layout.** Whatever the operating system and the limiter answer, growing
does not panic. -/
theorem grow_wp : wp (grow os delta store) (fun _ m' => Ok tunables m' ∧ Grows os m m')
      (fun _ m' => Ok tunables m' ∧ Grows os m m') m := by
  have hkeep : Ok tunables m ∧ Grows os m m := ⟨h, .refl os m⟩
  have hbase {m' : LocalMemory p} (hg : Grows os m m') (hn : m'.alloc.len ≤ m.alloc.capacity) :
      m.alloc.base = m'.alloc.base := by
    rcases hg.mapping with ⟨h1, -⟩ | ⟨-, h2, -⟩
    · simp only [MmapMemory.base, h1, hg.preGuardSize]
    · omega
  unfold grow
  simp only [wp_bind, wp_get, wp_ite, wp_pure]
  refine ⟨fun _ => hkeep, fun _ => ?_⟩
  split
  · exact hkeep
  · exact hkeep
  · simp only [wp_bind, h.alloc.byteCapacity_wp, wp_attempt]
    have hpos := m.ty.pageSize_pos
    have hnew := newByteSize_le m delta
    refine wp_mono (growTo_wp h (dvd_newByteSize m delta h.page) (h.le_newByteSize delta)
      (by simp only [u64Size] at *; omega)) (fun _ m' hg => ?_) (fun e m' hg => ?_)
    · simp only [finishGrow, wp_bind, wp_get, wp_assert, wp_pure]
      refine ⟨?_, hg.1, hg.2.1⟩
      by_cases hn : m.newByteSize delta ≤ m.alloc.capacity
      · simp [hn, hbase hg.2.1 (hg.2.2 ▸ hn)]
      · simp [hn]
    · simp only [finishGrow, wp_ite, wp_err, wp_pure]
      exact ⟨fun _ => hg, fun _ => hg⟩

omit h

/-! ### Creation -/

structure New (os : Os) (t : Memory) (tunables : Tunables) (m : LocalMemory p) : Prop where
  ok : m.Ok tunables
  ty : m.ty = t
  len : m.alloc.len = t.limits.min * t.pageSize
  capacity : m.alloc.len ≤ tunables.memoryReservation →
    m.alloc.capacity = alignUp p tunables.memoryReservation
  from_os : m.alloc.mmap.len.byteCount = 0 ∧ m.alloc.mmap.start = 4096 ∨
    os.reserve m.alloc.mmap.len.byteCount = some m.alloc.mmap.start

theorem limitNew_ok {ty : Memory} {limits : Nat × Option Nat} {s s' : σ}
    (h : limitNew ty store s = (.ok limits, s')) :
    ty.minimumByteSize = some limits.1 ∧ limits.2 = ty.maximumByteSize := by
  obtain ⟨_, _, -, h⟩ := bind_ok.1 h
  obtain ⟨min, _, hmin, h⟩ := bind_ok.1 h
  obtain ⟨rfl, -⟩ := pure_ok.1 h
  exact ⟨(orErr_ok.1 hmin).1, rfl⟩

theorem imageSlot_ok {a : MmapMemory p} (ha : a.Ok) {image : Option (MemoryImage p)}
    {slot : Option (MemoryImageSlot p)} {s s' : σ} (h : imageSlot os a image s = (.ok slot, s')) :
    ∀ x, slot = some x → x.staticSize = a.capacity ∧ x.accessible.byteCount = alignUp p a.len := by
  rintro x rfl
  rcases image with _ | image
  · cases h
  unfold imageSlot at h
  rcases hof : HostAlignedByteCount.ofAligned (p := p) a.len with _ | size
  · simp only [hof] at h
    cases h
  simp only [hof] at h
  rw [run_bind_ok (ha.byteCapacity s)] at h
  obtain ⟨y, _, hy, h⟩ := bind_ok.1 h
  cases h
  obtain ⟨_, _, -, hy⟩ := bind_ok.1 hy
  obtain ⟨_, _, -, hy⟩ := bind_ok.1 hy
  obtain ⟨_, _, -, hy⟩ := bind_ok.1 hy
  split_ifs at hy
  · cases hy
    unfold ofAligned at hof
    split_ifs at hof with hal
    cases hof
    exact ⟨rfl, (alignUp_eq hal.1).symm⟩
  · cases hy

theorem newDynamic_ok {ty : Memory} {image : Option (MemoryImage p)} {s s' : σ}
    (h : newDynamic os ty tunables store image s = (.ok m, s')) : New os ty tunables m := by
  obtain ⟨limits, s1, hlim, h⟩ := bind_ok.1 h
  obtain ⟨a, s2, ha, h⟩ := bind_ok.1 h
  obtain ⟨slot, s3, hslot, h⟩ := bind_ok.1 h
  obtain ⟨rfl, -⟩ := pure_ok.1 h
  obtain ⟨hmin, hmax⟩ := limitNew_ok hlim
  obtain ⟨hbytes, hlt⟩ := Memory.minimumByteSize_eq.1 hmin
  have hn := wp_ok (MmapMemory.new_wp hlt) ha
  have hlen : a.len = ty.limits.min * ty.pageSize := hn.len.trans hbytes
  refine ⟨⟨hn.ok, rfl, rfl, rfl, hn.maximum.trans hmax, hn.guard_le, hn.reserved, ⟨hlen.ge, ?_, ?_⟩,
    ?_, imageSlot_ok hn.ok hslot⟩, rfl, hlen, fun hle => hn.capacity (hn.len ▸ hle), hn.from_os⟩
  · intro max hm
    rw [hlen]
    exact ty.minimum_le_maximum hm
  · exact lt_of_eq_of_lt hn.len hlt
  · show ty.pageSize ∣ a.len
    rw [hlen]
    exact Nat.dvd_mul_left _ _

end LocalMemory

end Wasmtime.Vm
