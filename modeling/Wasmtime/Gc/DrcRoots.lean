import Wasmtime.Base.Chain
import Wasmtime.Gc.DrcCounts

/-!
# The over-approximated stack roots

`Listed h q`: the links of the intrusive list run through `q`, no object is on it twice, and its
members are the live objects whose bit is set. Since the list holds a reference to each member, the
cascade that a removed object starts frees none of them (`Listed.shrinks`), and the saved `prev` and
`next` of the sweep stay valid. `sweepRounds_wp`: the list after any number of rounds of the sweep;
`collect_wp`: a whole collection.
-/

namespace Wasmtime.Gc

open Base Prog DrcHeap List SortedMap

def next (m : Objects) (i : Nat) : Option Nat := (m.get? i).bind (·.nextOverApproximatedStackRoot)

/-- **The members of the list, in order.** -/
structure Listed (h : DrcHeap) (q : List Nat) : Prop where
  chain : Chain (next h.objects) h.overApproximatedStackRoots q
  nodup : q.Nodup
  mem : ∀ i, i ∈ q ↔ ∃ o, h.objects.get? i = some o ∧ o.inOverApproximatedStackRoots = true

structure Sound (hole : Option (Nat × Nat)) (refs : List GcRef) (q : List Nat) (h : DrcHeap) :
    Prop where
  counts : Counts hole refs h.objects
  kinds : Kinds h
  list : Listed h q

def marks (m : Objects) (i : Nat) : Bool := (m.get? i).elim false (·.marked)

def stackRoots (roots : List Root) : List Nat :=
  roots.filterMap fun root =>
    match root.gcRef with
    | .i31 _ => none
    | .heap i => if root.onWasmStack then some i else none

def Narrows (h h' : DrcHeap) : Prop :=
  ∀ i o', h'.objects.get? i = some o' → ∃ o, h.objects.get? i = some o ∧ o'.slots = o.slots

def Keeps (h h' : DrcHeap) : Prop :=
  ∀ i o', h'.objects.get? i = some o' →
    ∃ o, h.objects.get? i = some o ∧ o'.slots = o.slots ∧ o'.marked = o.marked

variable {hole : Option (Nat × Nat)} {refs : List GcRef} {h h' : DrcHeap} {q kept rest : List Nat}
  {i j : Nat} {o : Object} {r : GcRef}

theorem Shrinks.keeps_fields (hs : Shrinks h h') : Keeps h h' := by
  intro i o' hi
  obtain ⟨o, ho, heq⟩ := hs.objects i o' hi
  exact ⟨o, ho, by rw [heq], by rw [heq]⟩

theorem Keeps.trans {h1 h2 h3 : DrcHeap} (a : Keeps h1 h2) (b : Keeps h2 h3) : Keeps h1 h3 := by
  intro i o' hi
  obtain ⟨o2, hi2, hs2, hm2⟩ := b i o' hi
  obtain ⟨o1, hi1, hs1, hm1⟩ := a i o2 hi2
  exact ⟨o1, hi1, hs2.trans hs1, hm2.trans hm1⟩

theorem Keeps.narrows (hk : Keeps h h') : Narrows h h' := by
  intro i o' hi
  obtain ⟨o, ho, hslots, -⟩ := hk i o' hi
  exact ⟨o, ho, hslots⟩

namespace Narrows

theorem refl (h : DrcHeap) : Narrows h h := fun _ o hi => ⟨o, hi, rfl⟩

theorem trans {h1 h2 h3 : DrcHeap} (a : Narrows h1 h2) (b : Narrows h2 h3) : Narrows h1 h3 := by
  intro i o' hi
  obtain ⟨o2, hi2, hs2⟩ := b i o' hi
  obtain ⟨o1, hi1, hs1⟩ := a i o2 hi2
  exact ⟨o1, hi1, hs2.trans hs1⟩

theorem put {p : Object} (hi : h.objects.get? i = some o) (hs : p.slots = o.slots) :
    Narrows h { h with objects := h.objects.insert i p } := by
  intro j p' hp
  rw [get?_insert] at hp
  split_ifs at hp with hj
  · cases hp
    exact ⟨o, hj ▸ hi, hs⟩
  · exact ⟨p', hp, rfl⟩

end Narrows

/-! ### Changes of one header -/

theorem next_insert (m : Objects) (i : Nat) (p : Object) (j : Nat) :
    next (m.insert i p) j =
      if j = i then p.nextOverApproximatedStackRoot else next m j := by
  unfold next
  rw [get?_insert]
  split_ifs <;> rfl

theorem marks_insert (m : Objects) (i : Nat) (p : Object) (j : Nat) :
    marks (m.insert i p) j = if j = i then p.marked else marks m j := by
  unfold marks
  rw [get?_insert]
  split_ifs <;> rfl

namespace Listed

theorem length_le (hl : Listed h q) : q.length ≤ h.objects.entries.length := by
  have hsub : q ⊆ h.objects.entries.map Prod.fst := by
    intro i hi
    obtain ⟨o, ho, -⟩ := (hl.mem i).1 hi
    exact mem_map_of_mem (get?_eq_some.1 ho)
  have := (hl.nodup.subperm hsub).length_le
  rwa [length_map] at this

theorem shrinks (hl : Listed h q) (hs : Shrinks h h') : Listed h' q := by
  have hmem : ∀ i, i ∈ q ↔
      ∃ o, h'.objects.get? i = some o ∧ o.inOverApproximatedStackRoots = true := by
    intro i
    rw [hl.mem]
    constructor
    · rintro ⟨o, ho, hb⟩
      obtain ⟨o', ho'⟩ := hs.keeps i o ho hb
      obtain ⟨o1, ho1, heq⟩ := hs.objects i o' ho'
      rw [ho] at ho1
      cases ho1
      exact ⟨o', ho', by rw [heq]; exact hb⟩
    · rintro ⟨o', ho', hb⟩
      obtain ⟨o, ho, heq⟩ := hs.objects i o' ho'
      exact ⟨o, ho, by rw [heq] at hb; exact hb⟩
  refine ⟨?_, hl.nodup, hmem⟩
  rw [hs.roots]
  refine hl.chain.congr fun i hi => ?_
  obtain ⟨o', ho', -⟩ := (hmem i).1 hi
  obtain ⟨o, ho, heq⟩ := hs.objects i o' ho'
  unfold next
  rw [ho', ho, Option.bind_some, Option.bind_some, heq]

theorem put {p : Object} (hl : Listed h q) (hi : h.objects.get? i = some o)
    (hn : p.nextOverApproximatedStackRoot = o.nextOverApproximatedStackRoot)
    (hb : p.inOverApproximatedStackRoots = o.inOverApproximatedStackRoots) :
    Listed { h with objects := h.objects.insert i p } q := by
  refine ⟨hl.chain.congr fun j _ => ?_, hl.nodup, fun j => ?_⟩
  · dsimp only
    rw [next_insert]
    split_ifs with heq
    · rw [heq, hn, next, hi]
      rfl
    · rfl
  · dsimp only
    rw [hl.mem, get?_insert]
    split_ifs with heq
    · subst heq
      rw [hi]
      simp [hb]
    · rfl

theorem follow_eq {fuel : Nat} {head : Option Nat} (hc : Chain (next h.objects) head q)
    (hf : q.length ≤ fuel) : h.follow fuel head = q := by
  induction fuel generalizing head q with
  | zero =>
    obtain rfl : q = [] := length_eq_zero_iff.1 (by omega)
    rfl
  | succ fuel ih =>
    cases q with
    | nil =>
      rw [hc.head_eq]
      rfl
    | cons i q =>
      rw [length_cons] at hf
      rw [hc.1, follow, show (h.objects.get? i).bind (·.nextOverApproximatedStackRoot) =
        next h.objects i from rfl, ih hc.2 (by omega)]

theorem iter_eq (hl : Listed h q) : h.iterOverApproximatedStackRoots = q :=
  follow_eq hl.chain hl.length_le

end Listed

/-! ### Marking -/

theorem Sound.mark (hs : Sound hole refs q h) (hi : h.objects.get? i = some o) (b : Bool) :
    Sound hole refs q { h with objects := h.objects.insert i { o with marked := b } } := by
  refine ⟨hs.counts.recount hi rfl (hs.counts.pos i o hi) rfl fun _ _ => rfl,
    hs.kinds.put hi rfl rfl, hs.list.put hi rfl rfl⟩

theorem markRoot_wp {root : Root} (hs : Sound hole refs q h)
    (hroot : ∀ i ∈ stackRoots [root], i ∈ q) :
    wp (markRoot q root) (fun _ h' => (Sound hole refs q h' ∧ Narrows h h') ∧
        ∀ j, marks h'.objects j = (marks h.objects j || decide (j ∈ stackRoots [root])))
      (fun _ _ => False) h := by
  obtain ⟨onStack, r⟩ := root
  unfold markRoot
  rw [wp_ite]
  refine ⟨fun hstack => ?_, fun hstack => ?_⟩
  · obtain rfl : onStack = true := hstack
    cases r with
    | i31 value => exact ⟨⟨hs, .refl h⟩, fun j => by simp [stackRoots]⟩
    | heap i =>
      have hmem : i ∈ q := hroot i (by simp [stackRoots])
      obtain ⟨o, hi, hb⟩ := (hs.list.mem i).1 hmem
      have hpos := hs.counts.pos i o hi
      unfold DrcHeap.put
      rw [wp_bind]
      refine wp_assert.2 ⟨decide_eq_true hmem, ?_⟩
      refine index_wp hi ?_
      rw [wp_bind]
      refine wp_assert.2 ⟨hb, ?_⟩
      rw [wp_bind]
      refine wp_assert.2 ⟨decide_eq_true (by omega), ?_⟩
      rw [wp_modify]
      refine ⟨⟨hs.mark hi true, .put hi rfl⟩, fun j => ?_⟩
      rw [marks_insert]
      by_cases hj : j = i
      · simp [stackRoots, hj]
      · simp [stackRoots, hj]
  · obtain rfl : onStack = false := Bool.eq_false_iff.2 hstack
    refine ⟨⟨hs, .refl h⟩, fun j => ?_⟩
    cases r with
    | i31 value | heap i => simp [stackRoots]

theorem stackRoots_cons (root : Root) (roots : List Root) :
    stackRoots (root :: roots) = stackRoots [root] ++ stackRoots roots := by
  unfold stackRoots
  rw [← filterMap_append]
  rfl

theorem markRoots_wp {roots : List Root} (hs : Sound hole refs q h)
    (hroots : ∀ i ∈ stackRoots roots, i ∈ q) :
    wp (markRoots q roots) (fun _ h' => (Sound hole refs q h' ∧ Narrows h h') ∧
        ∀ j, marks h'.objects j = (marks h.objects j || decide (j ∈ stackRoots roots)))
      (fun _ _ => False) h := by
  induction roots generalizing h with
  | nil => exact ⟨⟨hs, .refl h⟩, fun j => by simp [stackRoots]⟩
  | cons root roots ih =>
    rw [stackRoots_cons] at hroots ⊢
    unfold markRoots
    refine wp_seq (markRoot_wp hs fun i hi => hroots i (mem_append_left _ hi)) ?_
    rintro _ h1 ⟨⟨hs1, hn1⟩, hm1⟩
    refine wp_imp (ih hs1 fun i hi => hroots i (mem_append_right _ hi)) ?_
    rintro _ h2 ⟨⟨hs2, hn2⟩, hm2⟩
    refine ⟨⟨hs2, hn1.trans hn2⟩, fun j => ?_⟩
    rw [hm2, hm1]
    simp [Bool.or_assoc]

/-- **A trace marks the objects on the stack.** -/
theorem trace_wp {roots : List Root} (hs : Sound hole refs q h)
    (hm : ∀ j, marks h.objects j = false) (hroots : ∀ i ∈ stackRoots roots, i ∈ q) :
    wp (trace roots) (fun _ h' => (Sound hole refs q h' ∧ Narrows h h') ∧
        ∀ j, marks h'.objects j = decide (j ∈ stackRoots roots))
      (fun _ _ => False) h := by
  unfold trace
  rw [wp_bind, wp_get, hs.list.iter_eq]
  refine wp_imp (markRoots_wp hs hroots) ?_
  rintro _ h' ⟨hs', hm'⟩
  refine ⟨hs', fun j => ?_⟩
  rw [hm', hm, Bool.false_or]

/-! ### Sweeping -/

/-- The state of a sweep between two rounds: `kept` has been passed, `rest` is to come, and the
marks are those of the objects of `rest` among `roots`. -/
structure Sweeping (refs : List GcRef) (roots kept rest : List Nat) (h0 h : DrcHeap) : Prop where
  sound : Sound none refs (kept ++ rest) h
  narrows : Narrows h0 h
  marks : ∀ j, marks h.objects j = decide (j ∈ rest ∧ j ∈ roots)

variable {roots : List Nat} {h0 : DrcHeap}

theorem marks_of_get? (hi : h.objects.get? i = some o) : marks h.objects i = o.marked := by
  unfold marks
  rw [hi]
  rfl

theorem Sweeping.pass (hs : Sweeping refs roots kept (i :: rest) h0 h)
    (hi : h.objects.get? i = some o) :
    Sweeping refs roots (kept ++ [i]) rest h0
      { h with objects := h.objects.insert i { o with marked := false } } := by
  have hsplit : kept ++ i :: rest = kept ++ [i] ++ rest := by simp
  have hnodup := hs.sound.list.nodup
  refine ⟨hsplit ▸ hs.sound.mark hi false, hs.narrows.trans (.put hi rfl), fun j => ?_⟩
  rw [marks_insert]
  split_ifs with hj
  · have hnot : i ∉ rest := by
      rw [nodup_append] at hnodup
      exact (nodup_cons.1 hnodup.2.1).1
    simp [hj, hnot]
  · rw [hs.marks]
    simp [hj]

/-- The heap in which an object has left the list, before its reference is given up. -/
structure Left (kept rest : List Nat) (i : Nat) (h h' : DrcHeap) : Prop where
  list : Listed h' (kept ++ rest)
  counts : ∀ refs, Counts none refs h.objects → Counts none (.heap i :: refs) h'.objects
  kinds : Kinds h → Kinds h'
  narrows : Narrows h h'
  marks : ∀ j, marks h'.objects j = marks h.objects j

theorem relink_wp (hs : Sound none refs (kept ++ i :: rest) h) (hi : h.objects.get? i = some o) :
    wp (relink o.nextOverApproximatedStackRoot kept.getLast?)
      (fun _ h' => Left kept rest i h h') (fun _ _ => False)
      { h with objects := h.objects.insert i { o with inOverApproximatedStackRoots := false } } := by
  have hl := hs.list
  have hbit : o.inOverApproximatedStackRoots = true := by
    obtain ⟨o', ho', hb⟩ := (hl.mem i).1 (by simp)
    rw [hi] at ho'
    cases ho'
    exact hb
  have hshare : share o = 1 := if_pos hbit
  have hnext : o.nextOverApproximatedStackRoot = next h.objects i := by
    rw [next, hi]
    rfl
  have hperm : (kept ++ i :: rest).Perm (i :: (kept ++ rest)) := perm_middle
  have hnodup := nodup_cons.1 (hperm.nodup_iff.1 hl.nodup)
  have hmem : ∀ j, j ∈ kept ++ rest ↔ j ≠ i ∧ j ∈ kept ++ i :: rest := by
    intro j
    rw [hperm.mem_iff, mem_cons]
    refine ⟨fun hj => ⟨fun heq => hnodup.1 (heq ▸ hj), .inr hj⟩, ?_⟩
    rintro ⟨hne, heq | hj⟩
    · exact absurd heq hne
    · exact hj
  -- The bit alone: every list member but `i` keeps its bit, and the count of `i` its owner.
  have hcounts : ∀ refs, Counts none refs h.objects → Counts none (.heap i :: refs)
      (h.objects.insert i { o with inOverApproximatedStackRoots := false }) := by
    intro refs hc
    refine hc.recount hi rfl (hc.pos i o hi) ?_ fun j hj => ?_
    · rw [count_cons_self, hshare]
      unfold share
      simp
      omega
    · rw [count_cons_of_ne (by simpa using Ne.symm hj)]
  have hmarks : ∀ j, marks (h.objects.insert i
      { o with inOverApproximatedStackRoots := false }) j = marks h.objects j := by
    intro j
    rw [marks_insert]
    split_ifs with hj
    · rw [hj, marks_of_get? hi]
    · rfl
  have hkinds := fun hk : Kinds h =>
    hk.put (p := { o with inOverApproximatedStackRoots := false }) hi rfl rfl
  have hnarrows := Narrows.put (p := { o with inOverApproximatedStackRoots := false }) hi rfl
  have hbits : ∀ j, j ∈ kept ++ rest ↔ ∃ p,
      (h.objects.insert i { o with inOverApproximatedStackRoots := false }).get? j = some p ∧
        p.inOverApproximatedStackRoots = true := by
    intro j
    rw [hmem, hl.mem, get?_insert]
    split_ifs with hj
    · simp [hj]
    · simp [hj]
  have hlinks : ∀ j ∈ kept ++ rest,
      next (h.objects.insert i { o with inOverApproximatedStackRoots := false }) j =
        next h.objects j := by
    intro j hj
    rw [next_insert, if_neg ((hmem j).1 hj).1]
  rcases eq_nil_or_concat' kept with rfl | ⟨init, p, rfl⟩
  · -- The first object of the list: the head moves on.
    have hchain := hl.chain.2.congr fun j hj => hlinks j (by simpa using hj)
    rw [← hnext] at hchain
    exact ⟨⟨hchain, hnodup.2, hbits⟩, hcounts,
      fun hk => ⟨(hkinds hk).typed, (hkinds hk).externRefs, (hkinds hk).distinct⟩, hnarrows, hmarks⟩
  · -- The object before takes over the link.
    have hp : p ∈ init ++ [p] ++ rest := by simp
    obtain ⟨op, hop, hpbit⟩ := (hbits p).1 hp
    rw [getLast?_append, getLast?_singleton]
    unfold relink DrcHeap.put
    dsimp only [Option.or]
    refine index_wp hop ?_
    rw [wp_bind]
    refine wp_assert.2 ⟨hpbit, ?_⟩
    rw [wp_modify]
    refine ⟨⟨?_, hnodup.2, fun j => ?_⟩, fun refs hc => ?_, fun hk => ?_,
      hnarrows.trans (.put hop rfl), fun j => ?_⟩
    · dsimp only
      have hchain := hl.chain
      rw [append_assoc, singleton_append] at hchain
      rw [append_assoc, singleton_append]
      have hpnot : p ∉ init ++ rest := by
        have := hnodup.2
        rw [append_assoc, singleton_append] at this
        exact (nodup_cons.1 (perm_middle.nodup_iff.1 this)).1
      refine hchain.unlink ?_ fun j hj => ?_
      · rw [next_insert, if_pos rfl]
        exact hnext
      · rw [next_insert, if_neg fun heq : j = p => hpnot (heq ▸ hj)]
        refine hlinks j ?_
        rw [mem_append] at hj
        simp only [mem_append, mem_singleton]
        tauto
    · dsimp only
      rw [hbits, get?_insert (m := h.objects.insert i _)]
      split_ifs with hj
      · rw [hj, hop]
        simp
      · rfl
    · exact (hcounts refs hc).recount hop rfl ((hcounts refs hc).pos p op hop) rfl fun _ _ => rfl
    · exact (hkinds hk).put hop rfl rfl
    · dsimp only
      rw [marks_insert, ← hmarks]
      split_ifs with hj
      · rw [hj, marks, hop]
        rfl
      · rfl

theorem sweepStep_wp (hs : Sweeping refs roots kept (i :: rest) h0 h) :
    wp (sweepStep kept.getLast? i)
      (fun cursor h' =>
        cursor = ((kept ++ [i].filter (· ∈ roots)).getLast?, rest.head?) ∧
          Sweeping refs roots (kept ++ [i].filter (· ∈ roots)) rest h0 h')
      (fun _ _ => False) h := by
  have hl := hs.sound.list
  obtain ⟨o, hi, hb⟩ := (hl.mem i).1 (by simp)
  have hnext : o.nextOverApproximatedStackRoot = rest.head? := by
    rw [← hl.chain.next_of_append, next, hi]
    rfl
  have hmark : o.marked = decide (i ∈ roots) := by
    rw [← marks_of_get? hi, hs.marks]
    simp
  unfold sweepStep DrcHeap.put
  refine index_wp hi ?_
  rw [wp_bind]
  refine wp_assert.2 ⟨hb, ?_⟩
  rw [wp_ite]
  refine ⟨fun hmarked => ?_, fun hmarked => ?_⟩
  · have hroot : i ∈ roots := by simpa [hmark] using hmarked
    rw [wp_bind, wp_modify, wp_pure]
    have hfilter : [i].filter (· ∈ roots) = [i] := by simp [hroot]
    rw [hfilter, getLast?_append, getLast?_singleton, ← hnext]
    exact ⟨rfl, hs.pass hi⟩
  · have hroot : i ∉ roots := by simpa [hmark] using hmarked
    have hfilter : [i].filter (· ∈ roots) = [] := by simp [hroot]
    rw [hfilter, append_nil]
    rw [wp_bind, wp_modify, wp_bind]
    refine wp_imp (relink_wp hs.sound hi) ?_
    rintro _ h1 ⟨hl1, hc1, hk1, hn1, hm1⟩
    refine wp_seq (decRefAndMaybeDealloc_wp (hc1 refs hs.sound.counts) (hk1 hs.sound.kinds)
      nofun) ?_
    rintro _ h2 ⟨hc2, hk2, hshrinks⟩
    rw [wp_pure, hnext]
    refine ⟨rfl, ⟨hc2, hk2, hl1.shrinks hshrinks⟩,
      (hs.narrows.trans hn1).trans hshrinks.keeps_fields.narrows, fun j => ?_⟩
    have hold : ∀ j, marks h1.objects j = decide (j ∈ rest ∧ j ∈ roots) := by
      intro j
      rw [hm1, hs.marks]
      by_cases hj : j = i
      · simp [hj, hroot]
      · simp [hj]
    cases hj : h2.objects.get? j with
    | some p =>
      obtain ⟨p1, hp1, -, hmp⟩ := hshrinks.keeps_fields j p hj
      rw [marks_of_get? hj, hmp, ← marks_of_get? hp1, hold]
    | none =>
      have hout : j ∉ rest := by
        intro hrest
        obtain ⟨p, hp, -⟩ := ((hl1.shrinks hshrinks).mem j).1 (mem_append_right _ hrest)
        rw [hj] at hp
        cases hp
      rw [marks, hj]
      simp [hout]

theorem sweepRounds_wp {n : Nat} (hs : Sweeping refs roots kept rest h0 h) :
    wp (sweepRounds n kept.getLast? rest.head?)
      (fun cursor h' =>
        cursor = ((kept ++ (rest.take n).filter (· ∈ roots)).getLast?, (rest.drop n).head?) ∧
          Sweeping refs roots (kept ++ (rest.take n).filter (· ∈ roots)) (rest.drop n) h0 h')
      (fun _ _ => False) h := by
  induction n generalizing kept rest h with
  | zero =>
    rw [take_zero, drop_zero, filter_nil, append_nil]
    exact ⟨rfl, hs⟩
  | succ n ih =>
    cases rest with
    | nil =>
      rw [take_nil, drop_nil, filter_nil, append_nil]
      exact ⟨rfl, hs⟩
    | cons i rest =>
      rw [head?_cons]
      unfold sweepRounds
      refine wp_seq (sweepStep_wp hs) ?_
      rintro _ h1 ⟨rfl, hs1⟩
      have hsplit : kept ++ ((i :: rest).take (n + 1)).filter (· ∈ roots) =
          kept ++ [i].filter (· ∈ roots) ++ (rest.take n).filter (· ∈ roots) := by
        rw [take_succ_cons, append_assoc, ← filter_append]
        rfl
      rw [hsplit, drop_succ_cons]
      exact ih hs1

/-- **A sweep takes the objects that are not on the stack from the list.** -/
theorem sweep_wp (hs : Sweeping refs roots [] q h0 h) : wp sweep
      (fun _ h' => (Sound none refs (q.filter (· ∈ roots)) h' ∧ Narrows h0 h') ∧
        ∀ j, marks h'.objects j = false)
      (fun _ _ => False) h := by
  have hlen := hs.sound.list.length_le
  have hhead := hs.sound.list.chain.head_eq
  rw [nil_append] at hlen hhead
  unfold sweep
  rw [wp_bind, wp_get, wp_bind, hhead]
  refine wp_imp (sweepRounds_wp (n := h.objects.entries.length) hs) ?_
  rintro _ h' ⟨rfl, hs'⟩
  rw [take_of_length_le hlen, drop_of_length_le hlen, nil_append] at hs'
  refine wp_assert.2 ⟨?_, ⟨?_, hs'.narrows⟩, fun j => ?_⟩
  · rw [drop_of_length_le hlen]
    rfl
  · have := hs'.sound
    rwa [append_nil] at this
  · rw [hs'.marks]
    simp

theorem sweeping_of_marks {roots : List Root} (hs : Sound none refs q h) (hn : Narrows h0 h)
    (hm : ∀ j, marks h.objects j = decide (j ∈ stackRoots roots))
    (hroots : ∀ i ∈ stackRoots roots, i ∈ q) :
    Sweeping refs (stackRoots roots) [] q h0 h := by
  refine ⟨hs, hn, fun j => ?_⟩
  rw [hm, decide_eq_decide]
  exact ⟨fun hj => ⟨hroots j hj, hj⟩, And.right⟩

theorem collect_wp {roots : List Root} (hs : Sound none refs q h)
    (hm : ∀ j, marks h.objects j = false) (hroots : ∀ i ∈ stackRoots roots, i ∈ q) :
    wp (collect roots)
      (fun _ h' => (Sound none refs (q.filter (· ∈ stackRoots roots)) h' ∧ Narrows h h') ∧
        ∀ j, marks h'.objects j = false)
      (fun _ _ => False) h := by
  unfold DrcHeap.collect
  refine wp_seq (trace_wp hs hm hroots) ?_
  rintro _ h1 ⟨⟨hs1, hn1⟩, hm1⟩
  exact sweep_wp (sweeping_of_marks hs1 hn1 hm1 hroots)

end Wasmtime.Gc
