import Wasmtime.Base.Prog

/-!
# Weakest preconditions

`Prog.wp m Q E s`: `m`, run from `s`, does not panic, and leaves a state with `Q` if it returns and
with `E` if it fails. The lemmas compute the precondition of a program from those of its parts.
-/

namespace Base

namespace Prog

variable {σ ε α β : Type} {m : Prog σ ε α} {Q Q' : α → σ → Prop} {E E' : ε → σ → Prop} {s : σ}

def wp (m : Prog σ ε α) (Q : α → σ → Prop) (E : ε → σ → Prop) (s : σ) : Prop :=
  match m s with
  | (.ok a, s') => Q a s'
  | (.err e, s') => E e s'
  | (.panic _, _) => False

/-- A program that handles the error of another. -/
def attempt (m : Prog σ ε α) : Prog σ ε (Except ε α) := fun s =>
  match m s with
  | (.ok a, s') => (.ok (.ok a), s')
  | (.err e, s') => (.ok (.error e), s')
  | (.panic p, s') => (.panic p, s')

theorem wp_pure (a : α) : wp (pure a : Prog σ ε α) Q E s ↔ Q a s := Iff.rfl

theorem wp_get {Q : σ → σ → Prop} : wp (get : Prog σ ε σ) Q E s ↔ Q s s := Iff.rfl

theorem wp_set (t : σ) {Q : Unit → σ → Prop} : wp (set t : Prog σ ε Unit) Q E s ↔ Q () t := Iff.rfl

theorem wp_modify (f : σ → σ) {Q : Unit → σ → Prop} :
    wp (modify f : Prog σ ε Unit) Q E s ↔ Q () (f s) := Iff.rfl

theorem wp_err (e : ε) : wp (err e : Prog σ ε α) Q E s ↔ E e s := Iff.rfl

theorem wp_bind {f : α → Prog σ ε β} {Q : β → σ → Prop} :
    wp (m >>= f) Q E s ↔ wp m (fun a => wp (f a) Q E) E s := by
  unfold wp
  rw [run_bind]
  rcases m s with ⟨o, s'⟩
  cases o <;> rfl

theorem wp_ite {c : Prop} [Decidable c] {m' : Prog σ ε α} :
    wp (if c then m else m') Q E s ↔ (c → wp m Q E s) ∧ (¬ c → wp m' Q E s) := by
  by_cases h : c <;> simp [h]

theorem wp_assert {b : Bool} {p : Panic} {Q : Unit → σ → Prop} :
    wp (assert b p : Prog σ ε Unit) Q E s ↔ b = true ∧ Q () s := by
  cases b <;> simp [wp, assert]

theorem wp_unwrap {o : Option α} {p : Panic} :
    wp (unwrap o p : Prog σ ε α) Q E s ↔ ∃ a, o = some a ∧ Q a s := by
  cases o <;> simp [wp, unwrap]

theorem wp_orErr {o : Option α} {e : ε} :
    wp (orErr o e : Prog σ ε α) Q E s ↔ (∀ a, o = some a → Q a s) ∧ (o = none → E e s) := by
  cases o <;> simp [wp, orErr]

theorem wp_attempt {Q : Except ε α → σ → Prop} :
    wp (attempt m) Q E s ↔ wp m (fun a => Q (.ok a)) (fun e => Q (.error e)) s := by
  unfold wp attempt
  rcases m s with ⟨o, s'⟩
  cases o <;> rfl

theorem wp_zoom {τ : Type} {get : σ → τ} {set : τ → σ → σ} {m : Prog τ ε α} :
    wp (zoom get set m) Q E s ↔
      wp m (fun a t => Q a (set t s)) (fun e t => E e (set t s)) (get s) := by
  unfold wp zoom
  rcases m (get s) with ⟨o, t⟩
  cases o <;> rfl

theorem wp_mono (h : wp m Q E s) (hQ : ∀ a s, Q a s → Q' a s) (hE : ∀ e s, E e s → E' e s) :
    wp m Q' E' s := by
  unfold wp at h ⊢
  rcases hm : m s with ⟨o, s'⟩
  simp only [hm] at h ⊢
  cases o with
  | ok a => exact hQ a s' h
  | err e => exact hE e s' h
  | panic p => exact h

theorem wp_imp (h : wp m Q E s) (hQ : ∀ a s, Q a s → Q' a s) : wp m Q' E s :=
  wp_mono h hQ (fun _ _ h => h)

theorem wp_seq_mono {f : α → Prog σ ε β} {R : β → σ → Prop} (h : wp m Q E s)
    (hQ : ∀ a s, Q a s → wp (f a) R E' s) (hE : ∀ e s, E e s → E' e s) :
    wp (m >>= f) R E' s := by
  rw [wp_bind]
  exact wp_mono h hQ hE

theorem wp_seq {f : α → Prog σ ε β} {R : β → σ → Prop} (h : wp m Q E s)
    (hQ : ∀ a s, Q a s → wp (f a) R E s) : wp (m >>= f) R E s :=
  wp_seq_mono h hQ (fun _ _ h => h)

theorem wp_state {P : σ → Prop} (h : wp m (fun _ => P) (fun _ => P) s) : P (m s).2 := by
  unfold wp at h
  rcases hm : m s with ⟨o, s'⟩
  simp only [hm] at h ⊢
  cases o with
  | ok a => exact h
  | err e => exact h
  | panic p => exact h.elim

theorem wp_not_panic (h : wp m Q E s) : (m s).1.isPanic = false := by
  unfold wp at h
  rcases hm : m s with ⟨o, s'⟩
  simp only [hm] at h ⊢
  cases o with
  | ok a => rfl
  | err e => rfl
  | panic p => exact h.elim

theorem exists_of_wp (h : wp m Q (fun _ _ => False) s) :
    ∃ a s', m s = (.ok a, s') ∧ Q a s' := by
  rcases hm : m s with ⟨o, s'⟩
  rw [wp, hm] at h
  cases o with
  | ok a => exact ⟨a, s', rfl, h⟩
  | err e => exact h.elim
  | panic p => exact h.elim

theorem exists_err_of_wp (h : wp m (fun _ _ => False) E s) :
    ∃ e s', m s = (.err e, s') ∧ E e s' := by
  rcases hm : m s with ⟨o, s'⟩
  rw [wp, hm] at h
  cases o with
  | ok a => exact h.elim
  | err e => exact ⟨e, s', rfl, h⟩
  | panic p => exact h.elim

theorem wp_ok {a : α} {s' : σ} (h : wp m Q E s) (hm : m s = (.ok a, s')) : Q a s' := by
  rwa [wp, hm] at h

end Prog

end Base
