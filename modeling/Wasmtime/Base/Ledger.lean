import Mathlib.Tactic

/-!
# Contexts on a stack and off it

Contexts count the items they hold. A context is on a stack, or was taken off it and is kept by a
holder. An item remembers the position its context had on the stack (`scope`), and when it is
dropped the context that is there then loses one from its count.

A `Ledger` gives every context an identity and every item the identity of the context that counted
it (`owner`). `Balanced`: each count is the number of live items owned. Pushing a context back keeps
this if the context counts nothing or returns to its position (`Balanced.push`), and dropping an
item if its owner is on the stack (`Balanced.drop`); the rest keeps it always.
-/

namespace Base

open List Function Nat

structure Item (κ : Type) where
  key : κ
  owner : Nat
  scope : Nat

/-- A context off the stack, with the position it was taken from. -/
structure Kept where
  id : Nat
  depth : Nat
  count : Nat

structure Ledger (κ η : Type) where
  /-- The identities and the counts of the contexts on the stack, the outermost first. -/
  stack : List (Nat × Nat)
  kept : η → Option Kept
  live : List (Item κ)
  next : Nat

namespace Ledger

variable {κ η : Type}

def held (L : Ledger κ η) (c : Nat) : Nat := L.live.countP (fun x => x.owner == c)

def At (L : Ledger κ η) (pl : Nat ⊕ η) (c d n : Nat) : Prop :=
  match pl with
  | .inl p => L.stack[p]? = some (c, n) ∧ d = p
  | .inr h => L.kept h = some ⟨c, d, n⟩

structure Balanced (L : Ledger κ η) : Prop where
  count : ∀ {pl c d n}, L.At pl c d n → n = L.held c
  scope : ∀ {pl c d n}, L.At pl c d n → ∀ x ∈ L.live, x.owner = c → x.scope = d
  inj : ∀ {pl pl' c d d' n n'}, L.At pl c d n → L.At pl' c d' n' → pl = pl'
  fresh : ∀ {pl c d n}, L.At pl c d n → c < L.next
  fresh_live : ∀ x ∈ L.live, x.owner < L.next
  keys : (L.live.map Item.key).Nodup

def empty : Ledger κ η := { stack := [], kept := fun _ => none, live := [], next := 0 }

def enter (L : Ledger κ η) : Ledger κ η :=
  { L with stack := L.stack ++ [(L.next, 0)], next := L.next + 1 }

def leave (L : Ledger κ η) : Ledger κ η := { L with stack := L.stack.dropLast }

section Holders

variable [DecidableEq η]

def spawn (L : Ledger κ η) (h : η) : Ledger κ η :=
  { L with kept := update L.kept h (some ⟨L.next, 0, 0⟩), next := L.next + 1 }

def push (L : Ledger κ η) (h : η) : Ledger κ η :=
  match L.kept h with
  | none => L
  | some k => { L with stack := L.stack ++ [(k.id, k.count)], kept := update L.kept h none }

def pop (L : Ledger κ η) (h : η) : Ledger κ η :=
  match L.stack.getLast? with
  | none => L
  | some (c, n) =>
    { L with stack := L.stack.dropLast,
             kept := update L.kept h (some ⟨c, L.stack.length - 1, n⟩) }

end Holders

def lower (L : Ledger κ η) (key : κ) : Ledger κ η :=
  match L.stack.getLast? with
  | none => L
  | some (c, n) =>
    { L with stack := L.stack.dropLast ++ [(c, n + 1)],
             live := ⟨key, c, L.stack.length - 1⟩ :: L.live }

/-- The context at a position loses one from its count. -/
def decrement (stack : List (Nat × Nat)) (scope : Nat) : List (Nat × Nat) :=
  match stack[scope]? with
  | none => stack
  | some (c, n) => stack.set scope (c, n - 1)

def drop [DecidableEq κ] (L : Ledger κ η) (key : κ) : Ledger κ η :=
  match L.live.find? (fun x => decide (x.key = key)) with
  | none => L
  | some x =>
    { L with stack := decrement L.stack x.scope, live := L.live.filter (fun y =>
      decide (y.key ≠ key)) }

/-! ### Places -/

theorem not_at_empty {pl : Nat ⊕ η} {c d n : Nat} : ¬ (empty : Ledger κ η).At pl c d n := by
  cases pl <;> simp [At, empty]

theorem balanced_empty : Balanced (empty : Ledger κ η) where
  count h := absurd h not_at_empty
  scope h := absurd h not_at_empty
  inj h := absurd h not_at_empty
  fresh h := absurd h not_at_empty
  fresh_live x hx := by cases hx
  keys := nodup_nil

theorem Balanced.held_next {L : Ledger κ η} (h : L.Balanced) : L.held L.next = 0 := by
  rw [held, countP_eq_zero]
  intro x hx
  have := h.fresh_live x hx
  simp only [beq_iff_eq]
  omega

/-- The balance when the items stay and every context stays, or is new and holds nothing. -/
theorem Balanced.of_places {L L' : Ledger κ η} (h : L.Balanced) (hlive : L'.live = L.live)
    (hnext : L.next ≤ L'.next)
    (hat : ∀ {pl c d n}, L'.At pl c d n → (∃ pl0 d0, L.At pl0 c d0 n ∧ (n = 0 ∨ d = d0)) ∨
      (n = 0 ∧ c = L.next ∧ L.next < L'.next))
    (hinj : ∀ {pl pl' c d d' n n'}, L'.At pl c d n → L'.At pl' c d' n' → pl = pl') :
    L'.Balanced where
  count hp := by
    rw [held, hlive]
    rcases hat hp with ⟨_, _, h0, _⟩ | ⟨rfl, rfl, _⟩
    · exact h.count h0
    · exact h.held_next.symm
  scope {pl c d n} hp x hx hxc := by
    rw [hlive] at hx
    rcases hat hp with ⟨_, _, h0, rfl | rfl⟩ | ⟨_, rfl, _⟩
    · have hpos : 0 < L.held c := countP_pos_iff.2 ⟨x, hx, by simpa using hxc⟩
      rw [← h.count h0] at hpos
      exact absurd hpos (lt_irrefl 0)
    · exact h.scope h0 x hx hxc
    · have := h.fresh_live x hx
      omega
  inj := hinj
  fresh hp := by
    rcases hat hp with ⟨_, _, h0, _⟩ | ⟨_, rfl, hlt⟩
    · exact (h.fresh h0).trans_le hnext
    · exact hlt
  fresh_live x hx := by
    rw [hlive] at hx
    exact (h.fresh_live x hx).trans_le hnext
  keys := by rw [hlive]; exact h.keys

/-- The balance when every context stays where it is, and its count changes with what it holds. -/
theorem Balanced.of_counts {L L' : Ledger κ η} (h : L.Balanced) (hnext : L'.next = L.next)
    (hat : ∀ {pl c d n}, L'.At pl c d n → ∃ n0, L.At pl c d n0 ∧ n + L.held c = n0 + L'.held c)
    (hlive : ∀ x ∈ L'.live, x ∈ L.live ∨ ∃ n, L.At (.inl x.scope) x.owner x.scope n)
    (hkeys : (L'.live.map Item.key).Nodup) : L'.Balanced where
  count hp := by
    obtain ⟨n0, h0, hn⟩ := hat hp
    have := h.count h0
    omega
  scope hp x hx hxc := by
    obtain ⟨n0, h0, -⟩ := hat hp
    rcases hlive x hx with hx | ⟨n, hown⟩
    · exact h.scope h0 x hx hxc
    · subst hxc
      obtain rfl := h.inj h0 hown
      exact h0.2.symm
  inj hp hp' := by
    obtain ⟨_, h0, -⟩ := hat hp
    obtain ⟨_, h0', -⟩ := hat hp'
    exact h.inj h0 h0'
  fresh hp := by
    obtain ⟨_, h0, -⟩ := hat hp
    exact hnext ▸ h.fresh h0
  fresh_live x hx := by
    rw [hnext]
    rcases hlive x hx with hx | ⟨n, hown⟩
    · exact h.fresh_live x hx
    · exact h.fresh hown
  keys := hkeys

theorem at_concat {L : Ledger κ η} {st : List (Nat × Nat)} {e : Nat × Nat}
    (hs : L.stack = st ++ [e]) {p c d n : Nat} (h : L.At (.inl p) c d n) :
    (st[p]? = some (c, n) ∧ p < st.length ∧ d = p) ∨
      (p = st.length ∧ d = st.length ∧ (c, n) = e) := by
  obtain ⟨hp, rfl⟩ := h
  rw [hs] at hp
  rcases Nat.lt_trichotomy d st.length with hlt | rfl | hgt
  · rw [getElem?_append_left hlt] at hp
    exact .inl ⟨hp, hlt, rfl⟩
  · simp only [getElem?_concat_length, Option.some.injEq] at hp
    exact .inr ⟨rfl, rfl, hp.symm⟩
  · rw [getElem?_eq_none (by simp; omega)] at hp
    cases hp

theorem Balanced.enter {L : Ledger κ η} (h : L.Balanced) : L.enter.Balanced := by
  have hat : ∀ {pl c d n}, L.enter.At pl c d n → L.At pl c d n ∨
      (pl = .inl L.stack.length ∧ c = L.next ∧ n = 0) := by
    intro pl c d n hp
    cases pl with
    | inr k => exact .inl hp
    | inl p =>
      rcases at_concat (L := L.enter) rfl hp with ⟨hs, _, rfl⟩ | ⟨rfl, _, he⟩
      · exact .inl ⟨hs, rfl⟩
      · cases he
        exact .inr ⟨rfl, rfl, rfl⟩
  refine h.of_places rfl (le_succ _) (fun hp => ?_) (fun hp hp' => ?_)
  · rcases hat hp with h0 | ⟨_, rfl, rfl⟩
    · exact .inl ⟨_, _, h0, .inr rfl⟩
    · exact .inr ⟨rfl, rfl, lt_succ_self _⟩
  · rcases hat hp with h0 | ⟨rfl, rfl, rfl⟩ <;> rcases hat hp' with h0' | ⟨rfl, hc, _⟩
    · exact h.inj h0 h0'
    · exact absurd (hc ▸ h.fresh h0) (lt_irrefl _)
    · exact absurd (h.fresh h0') (lt_irrefl _)
    · rfl

theorem Balanced.leave {L : Ledger κ η} (h : L.Balanced) : L.leave.Balanced := by
  have hat : ∀ {pl c d n}, L.leave.At pl c d n → L.At pl c d n := by
    intro pl c d n hp
    cases pl with
    | inr k => exact hp
    | inl p =>
      obtain ⟨hs, rfl⟩ := hp
      refine ⟨?_, rfl⟩
      rw [Ledger.leave, getElem?_dropLast] at hs
      split at hs
      · exact hs
      · cases hs
  exact h.of_places rfl le_rfl (fun hp => .inl ⟨_, _, hat hp, .inr rfl⟩)
    (fun hp hp' => h.inj (hat hp) (hat hp'))

section Holders

variable [DecidableEq η]

theorem Balanced.spawn {L : Ledger κ η} (h : L.Balanced) (k : η) : (L.spawn k).Balanced := by
  have hat : ∀ {pl c d n}, (L.spawn k).At pl c d n → L.At pl c d n ∧ pl ≠ .inr k ∨
      (pl = .inr k ∧ c = L.next ∧ n = 0) := by
    intro pl c d n hp
    cases pl with
    | inl p => exact .inl ⟨hp, by simp⟩
    | inr k' =>
      by_cases he : k' = k
      · subst he
        simp only [At, Ledger.spawn, update_self, Option.some.injEq, Kept.mk.injEq] at hp
        exact .inr ⟨rfl, hp.1.symm, hp.2.2.symm⟩
      · simp only [At, Ledger.spawn, update_of_ne he] at hp
        exact .inl ⟨hp, by simpa using he⟩
  refine h.of_places rfl (le_succ _) (fun hp => ?_) (fun hp hp' => ?_)
  · rcases hat hp with ⟨h0, _⟩ | ⟨_, rfl, rfl⟩
    · exact .inl ⟨_, _, h0, .inr rfl⟩
    · exact .inr ⟨rfl, rfl, lt_succ_self _⟩
  · rcases hat hp with ⟨h0, _⟩ | ⟨rfl, rfl, rfl⟩ <;> rcases hat hp' with ⟨h0', _⟩ | ⟨rfl, hc, _⟩
    · exact h.inj h0 h0'
    · exact absurd (hc ▸ h.fresh h0) (lt_irrefl _)
    · exact absurd (h.fresh h0') (lt_irrefl _)
    · rfl

/-- **A context that counts nothing, or that returns to its position, is pushed safely.** -/
theorem Balanced.push {L : Ledger κ η} (h : L.Balanced) (k : η)
    (hk : ∀ e, L.kept k = some e → e.count = 0 ∨ L.stack.length = e.depth) :
    (L.push k).Balanced := by
  cases he : L.kept k with
  | none => simp only [Ledger.push, he]; exact h
  | some e =>
    simp only [Ledger.push, he]
    have hold : L.At (.inr k) e.id e.depth e.count := he
    let L' : Ledger κ η :=
      { L with stack := L.stack ++ [(e.id, e.count)], kept := update L.kept k none }
    have hat : ∀ {pl c d n}, L'.At pl c d n → L.At pl c d n ∧ pl ≠ .inr k ∨
        (pl = .inl L.stack.length ∧ d = L.stack.length ∧ c = e.id ∧ n = e.count) := by
      intro pl c d n hp
      cases pl with
      | inl p =>
        rcases at_concat (L := L') rfl hp with ⟨hs, _, rfl⟩ | ⟨rfl, rfl, hc⟩
        · exact .inl ⟨⟨hs, rfl⟩, by simp⟩
        · cases hc
          exact .inr ⟨rfl, rfl, rfl, rfl⟩
      | inr k' =>
        by_cases hkk : k' = k
        · subst hkk
          simp [At, L'] at hp
        · simp only [At, L', update_of_ne hkk] at hp
          exact .inl ⟨hp, by simpa using hkk⟩
    refine h.of_places rfl le_rfl (fun hp => ?_) (fun hp hp' => ?_)
    · rcases hat hp with ⟨h0, _⟩ | ⟨_, rfl, rfl, rfl⟩
      · exact .inl ⟨_, _, h0, .inr rfl⟩
      · exact .inl ⟨_, _, hold, hk e he⟩
    · rcases hat hp with ⟨h0, hne⟩ | ⟨rfl, _, rfl, _⟩ <;>
        rcases hat hp' with ⟨h0', hne'⟩ | ⟨rfl, _, hc, _⟩
      · exact h.inj h0 h0'
      · exact absurd (h.inj h0 (hc ▸ hold)) hne
      · exact absurd (h.inj h0' hold) hne'
      · rfl

theorem Balanced.pop {L : Ledger κ η} (h : L.Balanced) (k : η) : (L.pop k).Balanced := by
  cases hg : L.stack.getLast? with
  | none => simp only [Ledger.pop, hg]; exact h
  | some e =>
    obtain ⟨c0, n0⟩ := e
    obtain ⟨st, hst⟩ := getLast?_eq_some_iff.1 hg
    simp only [Ledger.pop, hg]
    have hold : L.At (.inl st.length) c0 st.length n0 := ⟨by simp [hst], rfl⟩
    let L' : Ledger κ η :=
      { L with stack := L.stack.dropLast,
               kept := update L.kept k (some ⟨c0, L.stack.length - 1, n0⟩) }
    have hat : ∀ {pl c d n}, L'.At pl c d n → L.At pl c d n ∧ pl ≠ .inl st.length ∨
        (pl = .inr k ∧ d = st.length ∧ c = c0 ∧ n = n0) := by
      intro pl c d n hp
      cases pl with
      | inl p =>
        obtain ⟨hs, rfl⟩ := hp
        have hs' : st[d]? = some (c, n) := by simpa [L', hst] using hs
        have hlt := (List.getElem?_eq_some_iff.1 hs').1
        refine .inl ⟨⟨by rw [hst, getElem?_append_left hlt]; exact hs', rfl⟩, ?_⟩
        simpa using hlt.ne
      | inr k' =>
        by_cases hkk : k' = k
        · subst hkk
          simp only [At, L', update_self, Option.some.injEq, Kept.mk.injEq, hst,
            length_append, length_singleton, Nat.add_sub_cancel] at hp
          exact .inr ⟨rfl, hp.2.1.symm, hp.1.symm, hp.2.2.symm⟩
        · simp only [At, L', update_of_ne hkk] at hp
          exact .inl ⟨hp, by simp⟩
    refine h.of_places rfl le_rfl (fun hp => ?_) (fun hp hp' => ?_)
    · rcases hat hp with ⟨h0, _⟩ | ⟨_, rfl, rfl, rfl⟩
      · exact .inl ⟨_, _, h0, .inr rfl⟩
      · exact .inl ⟨_, _, hold, .inr rfl⟩
    · rcases hat hp with ⟨h0, hne⟩ | ⟨rfl, _, rfl, _⟩ <;>
        rcases hat hp' with ⟨h0', hne'⟩ | ⟨rfl, _, hc, _⟩
      · exact h.inj h0 h0'
      · exact absurd (h.inj h0 (hc ▸ hold)) hne
      · exact absurd (h.inj h0' hold) hne'
      · rfl

end Holders

theorem held_cons (x : Item κ) (l : List (Item κ)) (c : Nat) :
    (x :: l).countP (fun y => y.owner == c) =
      l.countP (fun y => y.owner == c) + if x.owner = c then 1 else 0 := by
  rw [countP_cons]
  simp

theorem Balanced.lower {L : Ledger κ η} (h : L.Balanced) {key : κ}
    (hkey : ∀ x ∈ L.live, x.key ≠ key) : (L.lower key).Balanced := by
  cases hg : L.stack.getLast? with
  | none => simp only [Ledger.lower, hg]; exact h
  | some e =>
    obtain ⟨c0, n0⟩ := e
    obtain ⟨st, hst⟩ := getLast?_eq_some_iff.1 hg
    have hold : L.At (.inl st.length) c0 st.length n0 := ⟨by simp [hst], rfl⟩
    have heq : L.lower key =
        { L with
          stack := st ++ [(c0, n0 + 1)]
          live := ⟨key, c0, st.length⟩ :: L.live } := by
      simp only [Ledger.lower, hst]
      simp
    have hlive : (L.lower key).live = ⟨key, c0, st.length⟩ :: L.live := by rw [heq]
    have hheld (c : Nat) : (L.lower key).held c = L.held c + if c0 = c then 1 else 0 := by
      rw [held, hlive, held_cons]
      rfl
    refine h.of_counts (by rw [heq]) (fun {pl c d n} hp => ?_) (fun x hx => ?_) ?_
    · rw [heq] at hp
      rw [hheld]
      cases pl with
      | inl p =>
        rcases at_concat rfl hp with ⟨hs, hlt, rfl⟩ | ⟨rfl, rfl, hc⟩
        · have h0 : L.At (.inl d) c d n := ⟨by rw [hst, getElem?_append_left hlt]; exact hs, rfl⟩
          have hne : c0 ≠ c := by
            rintro rfl
            exact hlt.ne (Sum.inl.inj (h.inj h0 hold))
          exact ⟨n, h0, by rw [if_neg hne, Nat.add_zero]⟩
        · cases hc
          exact ⟨n0, hold, by rw [if_pos rfl]; omega⟩
      | inr k =>
        have h0 : L.At (.inr k) c d n := hp
        have hne : c0 ≠ c := by
          rintro rfl
          cases h.inj h0 hold
        exact ⟨n, h0, by rw [if_neg hne, Nat.add_zero]⟩
    · rw [hlive] at hx
      rcases mem_cons.1 hx with rfl | hx
      · exact .inr ⟨n0, hold⟩
      · exact .inl hx
    · rw [hlive, map_cons, nodup_cons]
      refine ⟨fun hm => ?_, h.keys⟩
      obtain ⟨x, hx, hxk⟩ := mem_map.1 hm
      exact hkey x hx hxk

/-! ### Dropping an item -/

/-- **The owner of an item, when it is on the stack, is at the item's position.** -/
theorem Balanced.owner_at {L : Ledger κ η} (h : L.Balanced) {x : Item κ} (hx : x ∈ L.live)
    (hon : x.owner ∈ L.stack.map Prod.fst) :
    ∃ n, L.stack[x.scope]? = some (x.owner, n + 1) := by
  obtain ⟨⟨c, n⟩, hm, he⟩ := mem_map.1 hon
  subst he
  obtain ⟨p, hlt, hp⟩ := mem_iff_getElem.1 hm
  have hat : L.At (.inl p) x.owner p n := ⟨by rw [getElem?_eq_getElem hlt, hp], rfl⟩
  have hpos : 0 < L.held x.owner := countP_pos_iff.2 ⟨x, hx, by simp⟩
  rw [← h.count hat] at hpos
  refine ⟨n - 1, ?_⟩
  rw [h.scope hat x hx rfl, hat.1, Nat.sub_add_cancel hpos]

theorem held_filter [DecidableEq κ] {l : List (Item κ)} (hk : (l.map Item.key).Nodup)
    {x : Item κ} (hx : x ∈ l) (c : Nat) :
    (l.filter (fun y => decide (y.key ≠ x.key))).countP (fun y => y.owner == c) +
      (if x.owner = c then 1 else 0) = l.countP (fun y => y.owner == c) := by
  induction l with
  | nil => cases hx
  | cons y l ih =>
    rw [map_cons, nodup_cons] at hk
    rcases mem_cons.1 hx with rfl | hx
    · have hsame : l.filter (fun y => decide (y.key ≠ x.key)) = l := by
        refine filter_eq_self.2 (fun y hy => ?_)
        have : y.key ≠ x.key := fun he => hk.1 (he ▸ mem_map_of_mem hy)
        simpa using this
      rw [filter_cons_of_neg (by simp), hsame, held_cons]
    · have hne : y.key ≠ x.key := fun he => hk.1 (he ▸ mem_map_of_mem hx)
      rw [filter_cons_of_pos (by simpa using hne), held_cons, held_cons, ← ih hk.2 hx]
      omega

/-- **An item whose owner is on the stack is dropped safely.** -/
theorem Balanced.drop [DecidableEq κ] {L : Ledger κ η} (h : L.Balanced) {key : κ}
    (hon : ∀ x ∈ L.live, x.key = key → x.owner ∈ L.stack.map Prod.fst) :
    (L.drop key).Balanced := by
  cases hf : L.live.find? (fun x => decide (x.key = key)) with
  | none => simp only [Ledger.drop, hf]; exact h
  | some x =>
    have hx := mem_of_find?_eq_some hf
    obtain rfl : x.key = key := by simpa using find?_some hf
    obtain ⟨n0, hs⟩ := h.owner_at hx (hon x hx rfl)
    have hold : L.At (.inl x.scope) x.owner x.scope (n0 + 1) := ⟨hs, rfl⟩
    have hlt := (List.getElem?_eq_some_iff.1 hs).1
    have hstack : (L.drop x.key).stack = L.stack.set x.scope (x.owner, n0) := by
      simp [Ledger.drop, hf, decrement, hs]
    have hkept : (L.drop x.key).kept = L.kept := by simp [Ledger.drop, hf]
    have hlive : (L.drop x.key).live = L.live.filter (fun y => decide (y.key ≠ x.key)) := by
      simp [Ledger.drop, hf]
    have hcount (c : Nat) : (L.drop x.key).held c + (if x.owner = c then 1 else 0) = L.held c := by
      rw [held, hlive]
      exact held_filter h.keys hx c
    refine h.of_counts (by simp [Ledger.drop, hf]) (fun {pl c d n} hp => ?_) (fun y hy => ?_) ?_
    · rw [← hcount]
      cases pl with
      | inl p =>
        obtain ⟨hp, rfl⟩ := hp
        rw [hstack] at hp
        by_cases he : d = x.scope
        · subst he
          rw [getElem?_set_self hlt] at hp
          cases hp
          exact ⟨n0 + 1, hold, by rw [if_pos rfl]; omega⟩
        · rw [getElem?_set_ne (Ne.symm he)] at hp
          have h0 : L.At (.inl d) c d n := ⟨hp, rfl⟩
          have hne : x.owner ≠ c := by
            rintro rfl
            exact he (Sum.inl.inj (h.inj h0 hold))
          exact ⟨n, h0, by rw [if_neg hne, Nat.add_zero]⟩
      | inr k =>
        simp only [At, hkept] at hp
        have h0 : L.At (.inr k) c d n := hp
        have hne : x.owner ≠ c := by
          rintro rfl
          cases h.inj h0 hold
        exact ⟨n, h0, by rw [if_neg hne, Nat.add_zero]⟩
    · rw [hlive] at hy
      exact .inl (mem_of_mem_filter hy)
    · rw [hlive]
      exact h.keys.sublist (filter_sublist.map Item.key)

end Ledger

end Base
