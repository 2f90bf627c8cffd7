import Wasmtime.Base.Bits
import Wasmtime.Base.Word

/-!
# Bit sets

`cranelift/bitset`: sets of numbers as lists of words of `n` bits. The list grows when a
number is inserted, in steps that have nothing to do with the number; what is iterated over
are the words up to the one with the greatest element. `CompoundBitSet.Holds` says which
numbers a bit set stands for.
-/

namespace Wasmtime.Cranelift

open Base Prog List Nat

structure CompoundBitSet (n : Nat) where
  elems : List (BitVec n)
  max : Option Nat

namespace CompoundBitSet

variable {n : Nat} {σ ε : Type}

def empty : CompoundBitSet n := ⟨[], none⟩

def ensureCapacity (b : CompoundBitSet n) (capacity : Nat) : CompoundBitSet n :=
  if capacity = 0 then b
  else
    let word := (capacity - 1) / n
    if word < b.elems.length then b
    else
      let delta := word - b.elems.length
      let toGrow := Max.max (Max.max (delta + 1) (b.elems.length * 2)) 4
      { b with elems := b.elems ++ List.replicate toGrow 0#n }

def insert (b : CompoundBitSet n) (i : Nat) : Prog σ ε (CompoundBitSet n) := do
  let b := b.ensureCapacity (i + 1)
  let elem ← unwrap b.elems[i / n]? (.bounds "self.elems[word]")
  assert (decide (i < u32Size)) (.unwrap "u32::try_from(i)")
  pure
    { elems := b.elems.set (i / n) (elem ||| BitVec.twoPow n (i % n))
      max := some (match b.max with
        | some m => Max.max m i
        | none => i) }

def iterScalars (b : CompoundBitSet n) : List (BitVec n) :=
  b.elems.take (match b.max with
    | some m => 1 + m / n
    | none => 0)

def hasBit (ws : List (BitVec n)) (i : Nat) : Bool := (ws[i / n]?.getD 0#n).getLsbD (i % n)

structure Holds (b : CompoundBitSet n) (s : List Nat) : Prop where
  mem : ∀ i, hasBit b.elems i = true ↔ i ∈ s
  none : b.max = none → s = []
  max : ∀ m, b.max = some m → m ∈ s ∧ ∀ i ∈ s, i ≤ m

variable {b b' : CompoundBitSet n} {s : List Nat} {i : Nat} {st : σ}

theorem Holds.empty : Holds (empty : CompoundBitSet n) [] :=
  ⟨fun i => by simp [hasBit, CompoundBitSet.empty], fun _ => rfl, nofun⟩

theorem lt_length_of_hasBit {ws : List (BitVec n)} (h : hasBit ws i = true) :
    i / n < ws.length := by
  by_contra hge
  rw [hasBit, getElem?_eq_none (by omega), Option.getD_none, BitVec.getLsbD_zero] at h
  cases h

theorem hasBit_append_zero (ws : List (BitVec n)) (k i : Nat) :
    hasBit (ws ++ List.replicate k 0#n) i = hasBit ws i := by
  unfold hasBit
  by_cases h : i / n < ws.length
  · rw [getElem?_append_left h]
  · rw [getElem?_append_right (by omega), getElem?_eq_none (by omega : ws.length ≤ i / n),
      getElem?_replicate]
    split_ifs <;> rfl

theorem hasBit_set {ws : List (BitVec n)} {w : BitVec n} {j : Nat} (hn : 0 < n)
    (hw : ws[i / n]? = some w) :
    hasBit (ws.set (i / n) (w ||| BitVec.twoPow n (i % n))) j = (hasBit ws j || decide (j =
      i)) := by
  have hlt : i / n < ws.length := (List.getElem?_eq_some_iff.1 hw).1
  have hmod := mod_lt i hn
  unfold hasBit
  by_cases hword : j / n = i / n
  · rw [hword, getElem?_set_self hlt, hw, Option.getD_some, Option.getD_some,
      BitVec.getLsbD_or, BitVec.getLsbD_twoPow]
    have heq : j % n = i % n ↔ j = i := by
      refine ⟨fun h => ?_, fun h => by rw [h]⟩
      rw [← div_add_mod j n, ← div_add_mod i n, hword, h]
    congr 1
    rw [decide_eq_true hmod, Bool.true_and]
    exact Bool.decide_congr (eq_comm.trans heq)
  · rw [getElem?_set_ne (Ne.symm hword)]
    have hne : j ≠ i := fun h => hword (by rw [h])
    rw [decide_eq_false hne, Bool.or_false]

theorem ensureCapacity_spec (b : CompoundBitSet n) (i : Nat) :
    (∀ j, hasBit (b.ensureCapacity (i + 1)).elems j = hasBit b.elems j) ∧
      (b.ensureCapacity (i + 1)).max = b.max ∧
      i / n < (b.ensureCapacity (i + 1)).elems.length := by
  unfold ensureCapacity
  rw [if_neg (succ_ne_zero i), Nat.add_sub_cancel]
  dsimp only
  split_ifs with h
  · exact ⟨fun _ => rfl, rfl, h⟩
  · refine ⟨hasBit_append_zero _ _, rfl, ?_⟩
    rw [length_append, length_replicate]
    omega

theorem insert_run (hn : 0 < n) (h : b.Holds s) (hi : i < u32Size) :
    ∃ b', (b.insert i : Prog σ ε _) st = (.ok b', st) ∧ b'.Holds (i :: s) := by
  obtain ⟨hbits, hmax, hlen⟩ := ensureCapacity_spec b i
  obtain ⟨w, hw⟩ : ∃ w, (b.ensureCapacity (i + 1)).elems[i / n]? = some w :=
    ⟨_, getElem?_eq_getElem hlen⟩
  refine ⟨_, bind_ok.2 ⟨w, st, unwrap_ok.2 ⟨hw, rfl⟩, bind_ok.2
    ⟨(), st, assert_ok.2 ⟨decide_eq_true hi, rfl⟩, rfl⟩⟩, fun j => ?_, nofun, fun m hm => ?_⟩
  · dsimp only
    rw [hasBit_set hn hw, hbits, Bool.or_eq_true, decide_eq_true_eq, h.mem, mem_cons, or_comm]
  · dsimp only at hm
    rw [hmax] at hm
    cases hbmax : b.max with
    | none =>
      rw [hbmax] at hm
      cases hm
      rw [h.none hbmax]
      simp
    | some k =>
      rw [hbmax] at hm
      cases hm
      dsimp only
      obtain ⟨hk, hle⟩ := h.max k hbmax
      refine ⟨?_, fun j hj => ?_⟩
      · rcases max_choice k i with hc | hc <;> rw [hc]
        · exact mem_cons_of_mem _ hk
        · exact mem_cons_self
      · rcases mem_cons.1 hj with rfl | hj
        · exact le_max_right _ _
        · exact le_max_of_le_left (hle j hj)

theorem Holds.iterScalars (h : b.Holds s) {m : Nat} (hm : b.max = some m) :
    (∀ i, hasBit b.iterScalars i = true ↔ i ∈ s) ∧ b.iterScalars.length = 1 + m / n := by
  obtain ⟨hmem, hle⟩ := h.max m hm
  have hlen := lt_length_of_hasBit ((h.mem m).2 hmem)
  unfold CompoundBitSet.iterScalars
  rw [hm]
  dsimp only
  refine ⟨fun i => ?_, by rw [length_take]; omega⟩
  rw [← h.mem]
  by_cases hi : i / n < 1 + m / n
  · unfold hasBit
    rw [getElem?_take_of_lt hi]
  · refine ⟨fun hbit => ?_, fun hbit => ?_⟩
    · have := lt_length_of_hasBit hbit
      rw [length_take] at this
      omega
    · have := Nat.div_le_div_right (c := n) (hle i ((h.mem i).1 hbit))
      omega

end CompoundBitSet

end Wasmtime.Cranelift
