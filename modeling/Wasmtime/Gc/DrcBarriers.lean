import Wasmtime.Gc.DrcRoots

/-!
# Barriers

What each operation of the collector does to a sound heap: the write barrier trades one reference
for another (`writeGcRef_ok`, `writeField_ok`), an exposed object goes onto the list with the
reference that was handed over (`exposeObject_wp`), and a new object has one owner (`Sound.alloc`).
-/

namespace Wasmtime.Gc

open Base Prog DrcHeap List SortedMap

variable {hole : Option (Nat × Nat)} {refs : List GcRef} {h h' : DrcHeap} {q : List Nat}
  {i j : Nat} {o : Object} {r : GcRef} {dest source new : Option GcRef}

/-! ### Barriers -/

theorem Sound.congr (hs : Sound hole refs q h) {refs' : List GcRef}
    (heq : ∀ i, refs'.count (.heap i) = refs.count (.heap i)) : Sound hole refs' q h :=
  ⟨hs.counts.congr heq, hs.kinds, hs.list⟩

theorem Listed.listed_eq (hl : Listed h q) (j : Nat) :
    listed h.objects j = if j ∈ q then 1 else 0 := by
  split_ifs with hj
  · obtain ⟨o, ho, hb⟩ := (hl.mem j).1 hj
    rw [listed_of_get? ho, share, if_pos hb]
  · cases ho : h.objects.get? j with
    | none => rw [listed, ho]; rfl
    | some o =>
      rw [listed_of_get? ho, share, if_neg]
      exact fun hb => hj ((hl.mem j).2 ⟨o, ho, hb⟩)

theorem Listed.guarded (hl : Listed h q)
    (hg : ∀ j field, hole = some (j, field) → .heap j ∈ refs ∨ j ∈ q) :
    Guarded hole refs h.objects := by
  intro j field hj
  rw [hl.listed_eq]
  rcases hg j field hj with hmem | hmem
  · have := count_pos_iff.2 hmem
    omega
  · rw [if_pos hmem]
    omega

theorem incRef_ok (hs : Sound hole refs q h) (hrun : incRef r h = (.ok (), h')) :
    Sound hole (r :: refs) q h' ∧ Keeps h h' := by
  cases r with
  | i31 value =>
    cases hrun
    refine ⟨hs.congr fun i => ?_, fun j p hp => ⟨p, hp, rfl, rfl⟩⟩
    rw [count_cons_of_ne (by simp)]
  | heap i =>
    obtain ⟨o, h1, hidx, hrun1⟩ := bind_ok.1 hrun
    obtain ⟨hi, rfl⟩ := index_ok.1 hidx
    obtain ⟨-, hrun2⟩ := assert_bind_ok.1 hrun1
    obtain ⟨-, hrun3⟩ := assert_bind_ok.1 hrun2
    cases hrun3
    refine ⟨⟨hs.counts.recount hi rfl (Nat.succ_pos _) ?_ fun j hj => ?_,
      hs.kinds.put hi rfl rfl, hs.list.put hi rfl rfl⟩, fun j p hp => ?_⟩
    · rw [count_cons_self]
      unfold share
      dsimp only
      omega
    · rw [count_cons_of_ne (by simpa using Ne.symm hj)]
    · dsimp only at hp
      rw [get?_insert] at hp
      split_ifs at hp with hj
      · cases hp
        exact ⟨o, hj ▸ hi, rfl, rfl⟩
      · exact ⟨p, hp, rfl, rfl⟩

theorem incSource_ok (hs : Sound hole refs q h) (hrun : incSource source h = (.ok (), h')) :
    Sound hole (source.toList ++ refs) q h' ∧ Keeps h h' := by
  cases source with
  | none =>
    cases hrun
    exact ⟨hs, fun j p hp => ⟨p, hp, rfl, rfl⟩⟩
  | some src => exact incRef_ok hs hrun

theorem decDestination_wp (hs : Sound hole (dest.toList ++ refs) q h)
    (hg : ∀ j field, hole = some (j, field) → .heap j ∈ refs ∨ j ∈ q) :
    wp (decDestination dest) (fun _ h' => Sound hole refs q h' ∧ Keeps h h')
      (fun _ _ => False) h := by
  cases dest with
  | none => exact ⟨hs, fun j p hp => ⟨p, hp, rfl, rfl⟩⟩
  | some d =>
    refine wp_imp (decRefAndMaybeDealloc_wp hs.counts hs.kinds (hs.list.guarded hg))
      (fun _ h' ⟨hc, hk, hshrinks⟩ => ?_)
    exact ⟨⟨hc, hk, hs.list.shrinks hshrinks⟩, hshrinks.keeps_fields⟩

theorem count_toList_of_isI31 {dest : Option GcRef} (hd : dest.any (!·.isI31) = false) (i : Nat) :
    dest.toList.count (.heap i) = 0 := by
  cases dest with
  | none => rfl
  | some d =>
    cases d with
    | i31 value => simp
    | heap j => cases hd

/-- **The write barrier** trades the reference in the destination for the source. -/
theorem writeGcRef_ok (hs : Sound hole (dest.toList ++ refs) q h)
    (hg : ∀ j field, hole = some (j, field) → .heap j ∈ refs ∨ j ∈ q)
    (hrun : writeGcRef dest source h = (.ok new, h')) :
    new = source ∧ Sound hole (source.toList ++ refs) q h' ∧ Keeps h h' := by
  unfold writeGcRef at hrun
  split_ifs at hrun with hbarrier
  · obtain ⟨_, h1, hinc, hrun⟩ := bind_ok.1 hrun
    obtain ⟨_, h2, hdec, hrun⟩ := bind_ok.1 hrun
    cases hrun
    obtain ⟨hs1, hk1⟩ := incSource_ok hs hinc
    have hs1' : Sound hole (dest.toList ++ (source.toList ++ refs)) q h1 := by
      refine hs1.congr fun i => ?_
      rw [count_append, count_append, count_append, count_append]
      omega
    obtain ⟨hs2, hk2⟩ := wp_ok (decDestination_wp hs1' fun j field hj =>
      (hg j field hj).imp_left (mem_append_right _)) hdec
    exact ⟨rfl, hs2, hk1.trans hk2⟩
  · cases hrun
    have hboth : dest.any (!·.isI31) = false ∧ source.any (!·.isI31) = false := by
      simpa [needsWriteBarrier] using hbarrier
    refine ⟨rfl, hs.congr fun i => ?_, fun j p hp => ⟨p, hp, rfl, rfl⟩⟩
    rw [count_append, count_append, count_toList_of_isI31 hboth.1, count_toList_of_isI31 hboth.2]

/-! ### Fields -/

variable {field : Nat}

theorem count_filterMap_set {l : List (Option GcRef)} {old : Option GcRef}
    (hf : l[field]? = some old) (r : GcRef) : (l.filterMap id).count r =
      ((l.set field none).filterMap id).count r + old.toList.count r := by
  induction l generalizing field with
  | nil => cases hf
  | cons a l ih =>
    cases field with
    | zero =>
      cases hf
      cases old with
      | none => simp
      | some a => simp [count_cons]
    | succ field =>
      have hl := ih hf
      rw [set_cons_succ]
      cases a with
      | none => simpa using hl
      | some a =>
        have hcons : ∀ l : List (Option GcRef), (some a :: l).filterMap id = a :: l.filterMap id :=
          fun l => rfl
        rw [hcons, hcons, count_cons, count_cons, hl]
        omega

theorem fields_erase (m : Objects) (i field : Nat) :
    fields (some (i, field)) (m.erase i) = fields none (m.erase i) := by
  refine flatMap_congr fun e he => ?_
  have hne : i ≠ e.1 := fun heq => (mem_erase.1 he).2 heq.symm
  unfold held mask
  dsimp only
  rw [if_neg hne]

theorem Sound.openHole {old : Option GcRef} (hs : Sound none refs q h)
    (hi : h.objects.get? i = some o) (hf : o.slots[field]? = some old) :
    Sound (some (i, field)) (old.toList ++ refs) q h := by
  refine ⟨⟨fun j => ?_, hs.counts.pos⟩, hs.kinds, hs.list⟩
  have hj := hs.counts.exact j
  have hset := count_filterMap_set hf (.heap j)
  rw [count_fields hi] at hj ⊢
  rw [fields_erase, count_append, hj]
  unfold held mask
  dsimp only
  rw [if_pos rfl]
  omega

theorem Sound.closeHole (hs : Sound (some (i, field)) (source.toList ++ refs) q h)
    (hi : h.objects.get? i = some o) (hlt : field < o.slots.length) : Sound none refs q
      { h with objects := h.objects.insert i { o with slots := o.slots.set field source } } := by
  have hset := count_filterMap_set (l := o.slots.set field source) (getElem?_set_self hlt)
  rw [set_set] at hset
  refine ⟨⟨fun j => ?_, fun j p hp => ?_⟩, hs.kinds.put hi rfl (length_set ..),
    hs.list.put hi rfl rfl⟩
  · have hj := hs.counts.exact j
    have hsetj := hset (.heap j)
    rw [count_fields hi, fields_erase, count_append] at hj
    rw [count_fields_insert, count_insert, listed_insert]
    unfold held mask at hj ⊢
    dsimp only at hj ⊢
    rw [if_pos rfl] at hj
    by_cases heq : j = i
    · subst heq
      rw [count_of_get? hi, listed_of_get? hi] at hj
      rw [if_pos rfl, if_pos rfl]
      unfold share at hj ⊢
      dsimp only
      omega
    · rw [if_neg heq, if_neg heq]
      omega
  · dsimp only at hp
    rw [get?_insert] at hp
    split_ifs at hp
    · cases hp
      exact hs.counts.pos i o hi
    · exact hs.counts.pos j p hp

theorem writeField_ok (hs : Sound none refs q h) (hg : .heap i ∈ refs ∨ i ∈ q)
    (hrun : writeField i field source h = (.ok (), h')) :
    Sound none refs q h' ∧ ∀ j p, h'.objects.get? j = some p →
      ∃ p0, h.objects.get? j = some p0 ∧ p.marked = p0.marked := by
  obtain ⟨o, h1, hidx, hrun1⟩ := bind_ok.1 hrun
  obtain ⟨hi, rfl⟩ := index_ok.1 hidx
  obtain ⟨old, hf, hrun2⟩ := unwrap_bind_ok.1 hrun1
  obtain ⟨new, h3, hwrite, hrun3⟩ := bind_ok.1 hrun2
  obtain ⟨o2, h4, hidx2, hrun4⟩ := bind_ok.1 hrun3
  obtain ⟨hi2, rfl⟩ := index_ok.1 hidx2
  cases hrun4
  have hopen := hs.openHole hi hf
  obtain ⟨rfl, hs2, hkeeps⟩ := writeGcRef_ok hopen (fun j field' hj => by cases hj; exact hg) hwrite
  have hlen : field < o2.slots.length := by
    obtain ⟨p, hp, hslots, -⟩ := hkeeps i o2 hi2
    rw [hi] at hp
    cases hp
    rw [hslots]
    exact (List.getElem?_eq_some_iff.1 hf).1
  refine ⟨hs2.closeHole hi2 hlen, fun j p hp => ?_⟩
  rw [get?_insert] at hp
  split_ifs at hp with hj
  · cases hp
    obtain ⟨p0, hp0, -, hm⟩ := hkeeps i o2 hi2
    exact ⟨p0, hj ▸ hp0, hm⟩
  · obtain ⟨p0, hp0, -, hm⟩ := hkeeps j p hp
    exact ⟨p0, hp0, hm⟩

/-! ### Exposure and allocation -/

/-- **An owned reference is handed to Wasm.** If the object is on the list nothing is done, and
the reference stays counted. -/
theorem exposeObject_wp (hs : Sound none (.heap i :: refs) q h) : wp (exposeObject i)
      (fun _ h' => (i ∈ q → h' = h) ∧ (i ∉ q → Sound none refs (i :: q) h' ∧
        ∀ j, marks h'.objects j = marks h.objects j))
      (fun _ _ => False) h := by
  obtain ⟨o, hi⟩ := hs.counts.live_of_mem (i := i) (by simp)
  have hmem : i ∈ q ↔ o.inOverApproximatedStackRoots = true := by
    rw [hs.list.mem]
    simp [hi]
  unfold exposeObject put
  refine index_wp hi ?_
  rw [wp_ite]
  refine ⟨fun hb => ⟨fun _ => rfl, fun hout => absurd (hmem.2 hb) hout⟩, fun hb => ?_⟩
  have hbit : o.inOverApproximatedStackRoots = false := Bool.eq_false_iff.2 hb
  have hi1 : (h.objects.insert i { o with inOverApproximatedStackRoots := true }).get? i =
      some { o with inOverApproximatedStackRoots := true } := by
    rw [get?_insert, if_pos rfl]
  rw [wp_bind, wp_modify, wp_bind, wp_get]
  refine index_wp (o := { o with inOverApproximatedStackRoots := true }) hi1 ?_
  rw [wp_bind]
  refine wp_assert.2 ⟨rfl, ?_⟩
  rw [wp_bind, wp_modify, wp_modify]
  refine ⟨fun hin => absurd (hmem.1 hin) hb, fun hout => ⟨⟨?_, ?_, ?_, ?_, fun j => ?_⟩, ?_⟩⟩
  · have hc1 : Counts none refs
        (h.objects.insert i { o with inOverApproximatedStackRoots := true }) := by
      refine hs.counts.recount hi rfl (hs.counts.pos i o hi) ?_ fun j hj => ?_
      · rw [count_cons_self]
        unfold share
        simp [hbit]
        omega
      · rw [count_cons_of_ne (by simpa using Ne.symm hj)]
    have hpos := hc1.pos i _ hi1
    exact hc1.recount hi1 rfl hpos rfl fun _ _ => rfl
  · have hk1 := hs.kinds.put (p := { o with inOverApproximatedStackRoots := true }) hi rfl rfl
    have hk2 := hk1.put (p := ⟨o.kind, o.refCount, h.overApproximatedStackRoots, true, o.marked,
      o.slots⟩) hi1 rfl rfl
    exact ⟨hk2.typed, hk2.externRefs, hk2.distinct⟩
  · refine hs.list.chain.push ?_ fun j hj => ?_
    · dsimp only
      rw [next_insert, if_pos rfl]
    · have hne : j ≠ i := fun heq => hout (heq ▸ hj)
      rw [next_insert, if_neg hne, next_insert, if_neg hne]
  · exact nodup_cons.2 ⟨hout, hs.list.nodup⟩
  · dsimp only
    rw [get?_insert, get?_insert, mem_cons, hs.list.mem]
    split_ifs with hj
    · simp [hj]
    · simp [hj]
  · intro j
    rw [marks_insert, marks_insert]
    split_ifs with hj
    · rw [hj, marks_of_get? hi]
    · rfl

theorem Sound.alloc (hs : Sound none refs q h) (hi : h.objects.get? i = none) {kind : Kind}
    {slots : Nat} {traceInfos hostData : List Nat}
    (hinfos : ∀ ty ∈ h.traceInfos, ty ∈ traceInfos) (hhost : ∀ d ∈ h.hostData, d ∈ hostData)
    (htyped : ∀ ty, kind = .typed ty → ty ∈ traceInfos)
    (hexternRef : ∀ d, kind = .externRef d → slots = 0 ∧ d ∈ hostData ∧ d ∉ h.hostData) :
    Sound none (.heap i :: refs) q ⟨traceInfos, h.overApproximatedStackRoots,
      h.objects.insert i ⟨kind, 1, none, false, false, List.replicate slots none⟩, hostData⟩ := by
  have hold : ∀ j p, j ≠ i → (h.objects.insert i ⟨kind, 1, none, false, false,
      List.replicate slots none⟩).get? j = some p → h.objects.get? j = some p := by
    intro j p hj hp
    rwa [get?_insert, if_neg hj] at hp
  have hnew : ∀ p, (h.objects.insert i ⟨kind, 1, none, false, false,
      List.replicate slots none⟩).get? i = some p →
      p = ⟨kind, 1, none, false, false, List.replicate slots none⟩ := by
    intro p hp
    rw [get?_insert, if_pos rfl] at hp
    exact (Option.some.inj hp).symm
  have hout : i ∉ q := by
    intro hmem
    obtain ⟨o, ho, -⟩ := (hs.list.mem i).1 hmem
    rw [hi] at ho
    cases ho
  refine ⟨⟨fun j => ?_, fun j p hp => ?_⟩, ⟨fun j p ty hp hty => ?_, fun j p d hp hd => ?_,
    fun j l p p' d hp hp' hd hd' => ?_⟩, ⟨?_, hs.list.nodup, fun j => ?_⟩⟩
  · have hj := hs.counts.exact j
    have hfields : (fields none (h.objects.insert i ⟨kind, 1, none, false, false,
        List.replicate slots none⟩)).count (.heap j) = (fields none h.objects).count (.heap j) := by
      rw [count_fields_insert, erase_of_get?_none hi]
      unfold held mask
      simp
    rw [hfields, count_insert, listed_insert]
    by_cases heq : j = i
    · obtain ⟨hrefs, hf⟩ := hs.counts.of_dead hi
      subst heq
      rw [if_pos rfl, if_pos rfl, count_cons_self, hrefs, hf]
      rfl
    · rw [if_neg heq, if_neg heq, count_cons_of_ne (by simpa using Ne.symm heq)]
      exact hj
  · by_cases heq : j = i
    · subst heq
      rw [hnew p hp]
      exact Nat.one_pos
    · exact hs.counts.pos j p (hold j p heq hp)
  · by_cases heq : j = i
    · subst heq
      rw [hnew p hp] at hty
      exact htyped ty hty
    · exact hinfos ty (hs.kinds.typed j p ty (hold j p heq hp) hty)
  · by_cases heq : j = i
    · subst heq
      rw [hnew p hp] at hd ⊢
      obtain ⟨rfl, hmem, -⟩ := hexternRef d hd
      exact ⟨rfl, hmem⟩
    · obtain ⟨hslots, hmem⟩ := hs.kinds.externRefs j p d (hold j p heq hp) hd
      exact ⟨hslots, hhost d hmem⟩
  · -- Two `externref`s with the same entry of the table: neither of them is the new one.
    have hfresh : ∀ l p', l ≠ i → (h.objects.insert i ⟨kind, 1, none, false, false,
        List.replicate slots none⟩).get? l = some p' → p'.kind = .externRef d →
        kind ≠ .externRef d := fun l p' hl hp' hd' hkind =>
      (hexternRef d hkind).2.2 (hs.kinds.externRefs l p' d (hold l p' hl hp') hd').2
    by_cases heq : j = i <;> by_cases heq' : l = i
    · rw [heq, heq']
    · subst heq
      rw [hnew p hp] at hd
      exact absurd hd (hfresh l p' heq' hp' hd')
    · subst heq'
      rw [hnew p' hp'] at hd'
      exact absurd hd' (hfresh j p heq hp hd)
    · exact hs.kinds.distinct j l p p' d (hold j p heq hp) (hold l p' heq' hp') hd hd'
  · refine hs.list.chain.congr fun j hj => ?_
    rw [next_insert, if_neg fun heq : j = i => hout (heq ▸ hj)]
  · dsimp only
    rw [hs.list.mem, get?_insert]
    split_ifs with heq
    · simp [heq, hi]
    · rfl

end Wasmtime.Gc
