import Wasmtime.Base.Loop

/-!
# Programs that panic where another does not

`PanicsUnless K m r s`: from the state `s` the program `r` does not panic, and `m` does the
same as `r` if `K` holds and panics if it does not. The rules follow the structure of two
programs that are the same but for the places where `m` may panic; the condition of a sequence
asks for that of the second part only in the state in which `r` gets there.
-/

namespace Base.Prog

open List

variable {σ ε α β : Type}

structure PanicsUnless (K : Prop) (m r : Prog σ ε α) (s : σ) : Prop where
  safe : (r s).1.isPanic = false
  same : K → m s = r s
  panics : ¬ K → (m s).1.isPanic = true

namespace PanicsUnless

variable {K K' : Prop} {m r : Prog σ ε α} {s : σ}

theorem same_iff (h : PanicsUnless K m r s) : m s = r s ↔ K := by
  refine ⟨fun heq => ?_, h.same⟩
  by_contra hK
  have hp := h.panics hK
  rw [heq, h.safe] at hp
  cases hp

theorem refl (h : (m s).1.isPanic = false) : PanicsUnless True m m s :=
  ⟨h, fun _ => rfl, fun hn => absurd trivial hn⟩

theorem congr (h : PanicsUnless K m r s) (hK : K' ↔ K) : PanicsUnless K' m r s :=
  ⟨h.safe, fun hk => h.same (hK.1 hk), fun hn => h.panics fun hk => hn (hK.2 hk)⟩

theorem of_run {m' r' : Prog σ ε α} (h : PanicsUnless K m' r' s) (hm : m s = m' s)
    (hr : r s = r' s) : PanicsUnless K m r s := by
  refine ⟨?_, fun hK => ?_, fun hn => ?_⟩
  · rw [hr]
    exact h.safe
  · rw [hm, hr]
    exact h.same hK
  · rw [hm]
    exact h.panics hn

theorem pure (a : α) : PanicsUnless True (Pure.pure a : Prog σ ε α) (Pure.pure a) s := refl rfl

theorem err (e : ε) : PanicsUnless True (Prog.err e : Prog σ ε α) (Prog.err e) s := refl rfl

/-- A check that both programs make: what is behind it counts if it passes. -/
theorem guard {q : Prop} [Decidable q] (e : ε) (h : q → PanicsUnless K m r s) :
    PanicsUnless (q → K) (if q then m else Prog.err e) (if q then r else Prog.err e) s := by
  by_cases hq : q
  · rw [if_pos hq, if_pos hq]
    exact (h hq).congr ⟨fun hK => hK hq, fun hK _ => hK⟩
  · rw [if_neg hq, if_neg hq]
    exact (err e).congr ⟨fun _ => trivial, fun _ hq' => absurd hq' hq⟩

theorem guard_not {q : Prop} [Decidable q] (e : ε) (h : q → PanicsUnless K m r s) :
    PanicsUnless (q → K) (if ¬ q then Prog.err e else m) (if ¬ q then Prog.err e else r) s := by
  rw [ite_not, ite_not]
  exact guard e h

/-- A sequence needs the condition of its second part where the first part has returned. -/
theorem bind {f g : α → Prog σ ε β} {L : α → σ → Prop} (h : PanicsUnless K m r s)
    (hf : ∀ a s', r s = (.ok a, s') → PanicsUnless (L a s') (f a) (g a) s') :
    PanicsUnless (K ∧ ∀ a s', r s = (.ok a, s') → L a s') (m >>= f) (r >>= g) s := by
  rcases hr : r s with ⟨o, s'⟩
  have hsafe := h.safe
  rw [hr] at hsafe
  cases o with
  | panic p => cases hsafe
  | err e =>
    refine ⟨?_, fun hK => ?_, fun hn => ?_⟩
    · rw [run_bind_err hr]
      rfl
    · have hm : m s = (.err e, s') := (h.same hK.1).trans hr
      rw [run_bind_err hr, run_bind_err hm]
    · have hK : ¬ K := fun hk => hn ⟨hk, fun a s1 heq => by cases heq⟩
      exact isPanic_bind (h.panics hK)
  | ok a =>
    have ha := hf a s' hr
    refine ⟨?_, fun hK => ?_, fun hn => ?_⟩
    · rw [run_bind_ok hr]
      exact ha.safe
    · have hm : m s = (.ok a, s') := (h.same hK.1).trans hr
      rw [run_bind_ok hr, run_bind_ok hm]
      exact ha.same (hK.2 a s' rfl)
    · by_cases hk : K
      · have hm : m s = (.ok a, s') := (h.same hk).trans hr
        rw [run_bind_ok hm]
        refine ha.panics fun hL => hn ⟨hk, fun a1 s1 heq => ?_⟩
        cases heq
        exact hL
      · exact isPanic_bind (h.panics hk)

theorem bind_ok {n : Prog σ ε α} {f g : α → Prog σ ε β} {a : α} {s' : σ}
    (hn : n s = (.ok a, s')) (h : PanicsUnless K (f a) (g a) s') :
    PanicsUnless K (n >>= f) (n >>= g) s := by
  refine ⟨?_, fun hK => ?_, fun hK => ?_⟩
  · rw [run_bind_ok hn]
    exact h.safe
  · rw [run_bind_ok hn, run_bind_ok hn]
    exact h.same hK
  · rw [run_bind_ok hn]
    exact h.panics hK

theorem map {f : α → β} (h : PanicsUnless K m r s) :
    PanicsUnless K (m >>= fun a => Pure.pure (f a)) (r >>= fun a => Pure.pure (f a)) s :=
  (bind (L := fun _ _ => True) h fun a _ _ => .pure (f a)).congr
    ⟨fun hK => ⟨hK, fun _ _ _ => trivial⟩, fun hK => hK.1⟩

end PanicsUnless

/-- A program with an error in place of its panics. -/
def orFail (e : ε) (m : Prog σ ε α) : Prog σ ε α := fun s =>
  match m s with
  | (.panic _, s') => (.err e, s')
  | r => r

theorem PanicsUnless.orFail (e : ε) (m : Prog σ ε α) (s : σ) :
    PanicsUnless ((m s).1.isPanic = false) m (m.orFail e) s := by
  have hrun : m.orFail e s = match m s with
      | (.panic _, s') => (.err e, s')
      | r => r := rfl
  rcases hm : m s with ⟨o, s'⟩
  rw [hm] at hrun
  cases o with
  | ok a | err e' =>
    refine ⟨?_, fun _ => hm.trans hrun.symm, fun hn => absurd rfl hn⟩
    rw [hrun]
    rfl
  | panic p =>
    refine ⟨?_, fun hK => (by cases hK), fun _ => ?_⟩
    · rw [hrun]
      rfl
    · rw [hm]
      rfl

structure Yields (K : Prop) (Q : α → Prop) (m r : Prog σ ε α) (s : σ) : Prop
    extends PanicsUnless K m r s where
  post : ∀ a s', r s = (.ok a, s') → Q a

theorem PanicsUnless.yields {K : Prop} {m r : Prog σ ε α} {s : σ} (h : PanicsUnless K m r s) :
    Yields K (fun _ => True) m r s := ⟨h, fun _ _ _ => trivial⟩

namespace Yields

variable {K K' : Prop} {Q : α → Prop} {R : β → Prop} {m r : Prog σ ε α} {s : σ}

theorem refl (h : (m s).1.isPanic = false) : Yields True (fun _ => True) m m s :=
  (PanicsUnless.refl h).yields

theorem right (h : Yields K Q m r s) : Yields True Q r r s := ⟨.refl h.safe, h.post⟩

theorem congr (h : Yields K Q m r s) (hK : K' ↔ K) : Yields K' Q m r s :=
  ⟨h.toPanicsUnless.congr hK, h.post⟩

theorem pure {a : α} (h : Q a) : Yields True Q (Pure.pure a : Prog σ ε α) (Pure.pure a) s :=
  ⟨.pure a, fun _ _ hb => (pure_ok.1 hb).1 ▸ h⟩

theorem err (e : ε) : Yields True Q (Prog.err e : Prog σ ε α) (Prog.err e) s :=
  ⟨.err e, fun _ _ h => by cases h⟩

variable {f g : α → Prog σ ε β}

theorem bind {L : α → σ → Prop} (h : Yields K Q m r s)
    (hf : ∀ a s', Q a → Yields (L a s') R (f a) (g a) s') :
    Yields (K ∧ ∀ a s', r s = (.ok a, s') → L a s') R (m >>= f) (r >>= g) s := by
  refine ⟨h.toPanicsUnless.bind fun a s' ha => (hf a s' (h.post a s' ha)).toPanicsUnless, ?_⟩
  intro b s' hb
  obtain ⟨a, s1, ha, hb1⟩ := Prog.bind_ok.1 hb
  exact (hf a s1 (h.post a s1 ha)).post b s' hb1

theorem next (h : Yields K Q m r s) (hf : ∀ a s', Q a → Yields True R (f a) (g a) s') :
    Yields K R (m >>= f) (r >>= g) s :=
  (bind (L := fun _ _ => True) h hf).congr
    ⟨fun hK => ⟨hK, fun _ _ _ => trivial⟩, fun hK => hK.1⟩

theorem map {f : α → β} (h : Yields K Q m r s) (hf : ∀ a, Q a → R (f a)) :
    Yields K R (m >>= fun a => Pure.pure (f a)) (r >>= fun a => Pure.pure (f a)) s :=
  h.next fun a _ ha => .pure (hf a ha)

theorem bind_ok {n : Prog σ ε α} {a : α} {s' : σ} (hn : n s = (.ok a, s'))
    (h : Yields K R (f a) (g a) s') : Yields K R (n >>= f) (n >>= g) s := by
  refine ⟨.bind_ok hn h.toPanicsUnless, fun b s1 hb => ?_⟩
  rw [run_bind_ok hn] at hb
  exact h.post b s1 hb

end Yields

/-- The conditions of the items of a list, each in the state in which the loop gets there. -/
def ForEach {β : Type} (K : α → σ → Prop) (r : α → Prog σ ε β) : List α → σ → Prop
  | [], _ => True
  | x :: l, s => K x s ∧ ∀ y s', r x s = (.ok y, s') → ForEach K r l s'

theorem PanicsUnless.collect {m r : α → Prog σ ε β} {K : α → σ → Prop} {l : List α} {s : σ}
    (h : ∀ x ∈ l, ∀ s, PanicsUnless (K x s) (m x) (r x) s) :
    PanicsUnless (ForEach K r l s) (Prog.collect m l) (Prog.collect r l) s := by
  induction l generalizing s with
  | nil => exact .pure []
  | cons x l ih =>
    refine (PanicsUnless.bind (L := fun _ s' => ForEach K r l s')
      (h x mem_cons_self s) fun y s' _ => ?_).congr Iff.rfl
    exact (ih fun z hz => h z (mem_cons_of_mem _ hz)).map

theorem forEach_congr {K K' : α → σ → Prop} {r r' : α → Prog σ ε β} {l : List α} {s : σ}
    (h : ∀ x ∈ l, ∀ s, (K x s ↔ K' x s) ∧ r x s = r' x s) :
    ForEach K r l s ↔ ForEach K' r' l s := by
  induction l generalizing s with
  | nil => exact Iff.rfl
  | cons x l ih =>
    have hx := h x mem_cons_self s
    have htail := fun s' => ih (s := s') fun y hy => h y (mem_cons_of_mem _ hy)
    simp only [ForEach, hx.1, hx.2, htail]

theorem collect_map {γ : Type} (f : α → Prog σ ε β) (g : γ → α) (l : List γ) :
    Prog.collect f (l.map g) = Prog.collect (fun x => f (g x)) l := by
  induction l with
  | nil => rfl
  | cons x l ih => simp only [map_cons, Prog.collect, ih]

theorem forEach_map {γ : Type} (K : α → σ → Prop) (r : α → Prog σ ε β) (g : γ → α) (l : List γ)
    (s : σ) : ForEach K r (l.map g) s ↔ ForEach (fun x => K (g x)) (fun x => r (g x)) l s := by
  induction l generalizing s with
  | nil => exact Iff.rfl
  | cons x l ih => simp only [map_cons, ForEach, ih]

end Base.Prog
