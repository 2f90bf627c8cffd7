import Mathlib.Tactic

/-!
# Stateful programs that can fail or panic

`Prog σ ε α` is a program over a state `σ` that returns a value, returns an error, or panics. The
state is kept in all three cases: what was written before a failure stays written.

* `Prog.bind_ok`, `Prog.run_bind`: a sequence, taken apart.
* `Prog.zoom`: a program over a part of the state.
* `Spec P m Q R`: from a state with `P`, the result satisfies `Q`, and a panic is one that `R`
  allows.
* `Trace`: finite sequences of labelled steps, with the induction on a run (`Trace.invariant`);
  `Trace.exists_of_foldlM` finds a run by evaluation.
-/

namespace Base

/-- The ways in which a running program aborts, each with the place it does so. -/
inductive Panic where
  | unwrap (site : String)
  | unreachable (site : String)
  | assert (site : String)
  | overflow (site : String)
  | bounds (site : String)
deriving DecidableEq

inductive Outcome (ε α : Type) where
  | ok (a : α)
  | err (e : ε)
  | panic (p : Panic)
deriving DecidableEq

def Outcome.isOk {ε α : Type} : Outcome ε α → Bool
  | .ok _ => true
  | _ => false

def Outcome.isErr {ε α : Type} : Outcome ε α → Bool
  | .err _ => true
  | _ => false

def Outcome.isPanic {ε α : Type} : Outcome ε α → Bool
  | .panic _ => true
  | _ => false

def Outcome.map {ε α β : Type} (f : α → β) : Outcome ε α → Outcome ε β
  | .ok a => .ok (f a)
  | .err e => .err e
  | .panic p => .panic p

variable {ε α β : Type}

@[simp] theorem Outcome.isErr_map (f : α → β) (o : Outcome ε α) :
    (o.map f).isErr = o.isErr := by cases o <;> rfl

def Prog (σ ε α : Type) : Type := σ → Outcome ε α × σ

variable {σ τ ε α β : Type}

namespace Prog

instance : Monad (Prog σ ε) where
  pure a := fun s => (.ok a, s)
  bind m f := fun s =>
    match m s with
    | (.ok a, s') => f a s'
    | (.err e, s') => (.err e, s')
    | (.panic p, s') => (.panic p, s')

def get : Prog σ ε σ := fun s => (.ok s, s)

def set (s : σ) : Prog σ ε Unit := fun _ => (.ok (), s)

def modify (f : σ → σ) : Prog σ ε Unit := fun s => (.ok (), f s)

def err (e : ε) : Prog σ ε α := fun s => (.err e, s)

def panic (p : Panic) : Prog σ ε α := fun s => (.panic p, s)

def next (m : Prog σ ε α) (s : σ) : Option σ :=
  match m s with
  | (.ok _, s') => some s'
  | _ => none

variable {s s' : σ} {m : Prog σ ε α}

theorem next_eq_some (h : m.next s = some s') : ∃ a, m s = (.ok a, s') := by
  unfold next at h
  split at h
  · cases h; exact ⟨_, ‹_›⟩
  · cases h

def assert (b : Bool) (p : Panic) : Prog σ ε Unit := if b then pure () else panic p

def unwrap (o : Option α) (p : Panic) : Prog σ ε α :=
  match o with
  | some a => pure a
  | none => panic p

def orErr (o : Option α) (e : ε) : Prog σ ε α :=
  match o with
  | some a => pure a
  | none => err e

/-- A program whose error is a panic of its caller. -/
def expect (m : Prog σ ε α) (p : Panic) : Prog σ ε α := fun s =>
  match m s with
  | (.err _, s') => (.panic p, s')
  | r => r

/-- A program over a part of the state. -/
def zoom (get : σ → τ) (set : τ → σ → σ) (m : Prog τ ε α) : Prog σ ε α := fun s =>
  match m (get s) with
  | (o, t) => (o, set t s)

/-- A program with a state of its own, which it starts in `t` and returns. -/
def runOn (m : Prog τ ε α) (t : τ) : Prog σ ε (α × τ) := fun s =>
  match m t with
  | (.ok a, t') => (.ok (a, t'), s)
  | (.err e, _) => (.err e, s)
  | (.panic p, _) => (.panic p, s)

@[simp] theorem run_pure (a : α) (s : σ) : (pure a : Prog σ ε α) s = (.ok a, s) := rfl
@[simp] theorem run_get (s : σ) : (get : Prog σ ε σ) s = (.ok s, s) := rfl
@[simp] theorem run_set (s t : σ) : (set t : Prog σ ε Unit) s = (.ok (), t) := rfl
@[simp] theorem run_modify (f : σ → σ) (s : σ) : (modify f : Prog σ ε Unit) s = (.ok (), f s) := rfl
@[simp] theorem run_err (e : ε) (s : σ) : (err e : Prog σ ε α) s = (.err e, s) := rfl
@[simp] theorem run_panic (p : Panic) (s : σ) : (panic p : Prog σ ε α) s = (.panic p, s) := rfl

theorem run_bind (m : Prog σ ε α) (f : α → Prog σ ε β) (s : σ) :
    (m >>= f) s = match m s with
      | (.ok a, s') => f a s'
      | (.err e, s') => (.err e, s')
      | (.panic p, s') => (.panic p, s') := rfl

variable {f : α → Prog σ ε β} {a : α}

@[simp] theorem run_bind_ok (h : m s = (.ok a, s')) : (m >>= f) s = f a s' := by
  rw [run_bind, h]

@[simp] theorem run_bind_err {e : ε} (h : m s = (.err e, s')) : (m >>= f) s = (.err e, s') := by
  rw [run_bind, h]

variable {p : Panic}

@[simp] theorem run_bind_panic (h : m s = (.panic p, s')) : (m >>= f) s = (.panic p, s') := by
  rw [run_bind, h]

theorem isPanic_bind {s : σ} (h : (m s).1.isPanic = true) : ((m >>= f) s).1.isPanic = true := by
  rcases hm : m s with ⟨o, s'⟩
  rw [hm] at h
  cases o with
  | panic p =>
    rw [run_bind_panic hm]
    rfl
  | ok a => cases h
  | err e => cases h

section

variable {s : σ}

@[simp] theorem run_pure_bind (a : α) (f : α → Prog σ ε β) : (pure a >>= f) s = f a s := rfl
@[simp] theorem run_get_bind (f : σ → Prog σ ε β) : (get >>= f) s = f s s := rfl
@[simp] theorem run_set_bind (t : σ) (f : Unit → Prog σ ε β) : (set t >>= f) s = f () t := rfl
@[simp] theorem run_modify_bind (g : σ → σ) (f : Unit → Prog σ ε β) :
    (modify g >>= f) s = f () (g s) := rfl
@[simp] theorem run_err_bind (e : ε) (f : α → Prog σ ε β) :
    ((err e : Prog σ ε α) >>= f) s = (.err e, s) := rfl
@[simp] theorem run_panic_bind (p : Panic) (f : α → Prog σ ε β) :
    ((panic p : Prog σ ε α) >>= f) s = (.panic p, s) := rfl

end

theorem run_bind_pure {o : Outcome ε α} (h : m s = (o, s')) (f : α → β) :
    (m >>= fun a => pure (f a)) s = (o.map f, s') := by
  rw [run_bind, h]
  cases o <;> rfl

theorem bind_ok {s s'' : σ} {b : β} :
    (m >>= f) s = (.ok b, s'') ↔ ∃ a s', m s = (.ok a, s') ∧ f a s' = (.ok b, s'') := by
  rw [run_bind]
  constructor
  · intro h
    rcases hm : m s with ⟨o, s'⟩
    rw [hm] at h
    cases o with
    | ok a => exact ⟨a, s', rfl, h⟩
    | err e => cases h
    | panic p => cases h
  · rintro ⟨a, s', hm, hf⟩
    rw [hm]
    exact hf

theorem exists_of_isOk {m : Prog Unit ε α} (h : (m ()).1.isOk = true) :
    ∃ a, m () = (.ok a, ()) := by
  rcases hm : m () with ⟨o, s'⟩
  rw [hm] at h
  cases o with
  | ok a => exact ⟨a, rfl⟩
  | err e => cases h
  | panic p => cases h

@[simp] theorem pure_ok {a b : α} : (pure a : Prog σ ε α) s = (.ok b, s') ↔ b = a ∧ s' = s := by
  simp [eq_comm]

@[simp] theorem get_ok {s s' a : σ} :
    (get : Prog σ ε σ) s = (.ok a, s') ↔ a = s ∧ s' = s := by
  simp [eq_comm]

@[simp] theorem set_ok {s s' t : σ} {u : Unit} :
    (set t : Prog σ ε Unit) s = (.ok u, s') ↔ s' = t := by
  simp [eq_comm]

@[simp] theorem modify_ok {f : σ → σ} {u : Unit} :
    (modify f : Prog σ ε Unit) s = (.ok u, s') ↔ s' = f s := by
  simp [eq_comm]

@[simp] theorem err_ok {e : ε} : (err e : Prog σ ε α) s = (.ok a, s') ↔ False := by
  simp

@[simp] theorem panic_ok : (panic p : Prog σ ε α) s = (.ok a, s') ↔ False := by
  simp

@[simp] theorem assert_ok {b : Bool} {u : Unit} :
    (assert b p : Prog σ ε Unit) s = (.ok u, s') ↔ b = true ∧ s' = s := by
  cases b
  · simp [assert]
  · simp [assert, eq_comm]

@[simp] theorem unwrap_ok {o : Option α} :
    (unwrap o p : Prog σ ε α) s = (.ok a, s') ↔ o = some a ∧ s' = s := by
  cases o
  · simp [unwrap]
  · simp [unwrap, eq_comm]

theorem assert_bind_ok {c : Bool} {f : Unit → Prog σ ε α} :
    (assert c p >>= f) s = (.ok a, s') ↔ c = true ∧ f () s = (.ok a, s') := by
  constructor
  · intro h
    obtain ⟨_, _, ha, hf⟩ := bind_ok.1 h
    obtain ⟨hc, rfl⟩ := assert_ok.1 ha
    exact ⟨hc, hf⟩
  · rintro ⟨hc, hf⟩
    exact bind_ok.2 ⟨(), s, assert_ok.2 ⟨hc, rfl⟩, hf⟩

theorem unwrap_bind_ok {o : Option β} {f : β → Prog σ ε α} :
    (unwrap o p >>= f) s = (.ok a, s') ↔ ∃ b, o = some b ∧ f b s = (.ok a, s') := by
  simp only [bind_ok, unwrap_ok, and_assoc, exists_and_left, exists_eq_left]

@[simp] theorem orErr_ok {o : Option α} {e : ε} :
    (orErr o e : Prog σ ε α) s = (.ok a, s') ↔ o = some a ∧ s' = s := by
  cases o
  · simp [orErr]
  · simp [orErr, eq_comm]

theorem expect_ok : expect m p s = (.ok a, s') ↔ m s = (.ok a, s') := by
  unfold expect
  rcases m s with ⟨o, t⟩
  cases o <;> simp

theorem runOn_ok {m : Prog τ ε α} {t t' : τ} (h : (runOn m t : Prog σ ε _) s = (.ok (a, t'), s')) :
    m t = (.ok a, t') ∧ s' = s := by
  unfold runOn at h
  split at h <;> cases h
  exact ⟨by assumption, rfl⟩

theorem zoom_ok {get : σ → τ} {set : τ → σ → σ} {m : Prog τ ε α} :
    zoom get set m s = (.ok a, s') ↔ ∃ t, m (get s) = (.ok a, t) ∧ s' = set t s := by
  unfold zoom
  rcases hm : m (get s) with ⟨o, t⟩
  constructor
  · intro h
    simp only [Prod.mk.injEq] at h
    exact ⟨t, by rw [h.1], h.2.symm⟩
  · rintro ⟨t', h, rfl⟩
    simp only [Prod.mk.injEq] at h
    simp [h.1, h.2]

/-! ### Programs that return or panic -/

def Infallible (m : Prog σ ε α) : Prop := ∀ s e s', m s ≠ (.err e, s')

namespace Infallible

theorem pure (a : α) : Infallible (pure a : Prog σ ε α) := fun _ _ _ h => by cases h

theorem get : Infallible (get : Prog σ ε σ) := fun _ _ _ h => by cases h

theorem assert (b : Bool) (p : Panic) : Infallible (assert b p : Prog σ ε Unit) := by
  intro s e s' h
  cases b <;> cases h

theorem unwrap (o : Option α) (p : Panic) : Infallible (unwrap o p : Prog σ ε α) := by
  intro s e s' h
  cases o <;> cases h

theorem expect (m : Prog σ ε α) (p : Panic) : Infallible (expect m p) := by
  intro s e s' h
  unfold Prog.expect at h
  rcases hm : m s with ⟨o, s1⟩
  rw [hm] at h
  cases o <;> cases h

theorem bind {m : Prog σ ε α} {f : α → Prog σ ε β} (hm : Infallible m)
    (hf : ∀ a, Infallible (f a)) : Infallible (m >>= f) := by
  intro s e s' h
  rw [run_bind] at h
  rcases hr : m s with ⟨o, t⟩
  rw [hr] at h
  cases o with
  | ok a => exact hf a t e s' h
  | err e' => exact hm s e' t hr
  | panic p => cases h

theorem zoom {get : σ → τ} {set : τ → σ → σ} {m : Prog τ ε α} (hm : Infallible m) :
    Infallible (zoom get set m) := by
  intro s e s' h
  unfold Prog.zoom at h
  rcases hr : m (get s) with ⟨o, t⟩
  rw [hr] at h
  cases h
  exact hm _ _ _ hr

end Infallible

end Prog

/-! ### Pre- and postconditions -/

/-- What a program may end with: a value and a state with `Q`, any error, or a
panic that `R` allows. -/
def Ends (Q : α → σ → Prop) (R : Panic → Prop) : Outcome ε α × σ → Prop
  | (.ok a, s) => Q a s
  | (.err _, _) => True
  | (.panic p, _) => R p

/-- From every state with `P` the program ends with `Q`, or panics with `R`. -/
def Spec (P : σ → Prop) (m : Prog σ ε α) (Q : α → σ → Prop) (R : Panic → Prop) : Prop :=
  ∀ s, P s → Ends Q R (m s)

namespace Spec

variable {P : σ → Prop} {Q : α → σ → Prop} {R : Panic → Prop} {m : Prog σ ε α}

theorem ok (h : Spec P m Q R) {s s' : σ} {a : α} (hs : P s) (hm : m s = (.ok a, s')) : Q a s' := by
  have := h s hs
  rwa [hm] at this

end Spec

/-! ### Runs -/

variable {L : Type}

inductive Trace (Step : σ → L → σ → Prop) : σ → List L → σ → Prop
  | nil (s : σ) : Trace Step s [] s
  | snoc {s s' s'' : σ} {tr : List L} {l : L} :
      Trace Step s tr s' → Step s' l s'' → Trace Step s (tr ++ [l]) s''

namespace Trace

variable {Step Step' : σ → L → σ → Prop} {s s' s'' : σ} {tr tr' : List L} {l : L}

/-- **What holds at the start and is kept by every step holds in every state reached.** -/
theorem invariant {I : σ → Prop} (h0 : I s) (hstep : ∀ s l s', I s → Step s l s' → I s')
    (h : Trace Step s tr s') : I s' := by
  induction h with
  | nil => exact h0
  | snoc _ hs ih => exact hstep _ _ _ ih hs

theorem single (h : Step s l s') : Trace Step s [l] s' := by
  simpa using Trace.snoc (.nil s) h

theorem trans (h : Trace Step s tr s') (g : Trace Step s' tr' s'') :
    Trace Step s (tr ++ tr') s'' := by
  induction g with
  | nil => simpa using h
  | snoc _ hs ih =>
    rw [← List.append_assoc]
    exact .snoc ih hs

theorem cons (h : Step s l s') (g : Trace Step s' tr s'') : Trace Step s (l :: tr) s'' := by
  simpa using (Trace.single h).trans g

/-- A run found by evaluation: every step is the result of `f`, and the last state passes the
test `p`. -/
theorem exists_of_foldlM (Step : σ → L → σ → Prop) {f : σ → L → Option σ}
    (hf : ∀ s l s', f s l = some s' → Step s l s') (p : σ → Bool) (ls : List L)
      (h : (ls.foldlM f s).any p = true) :
    ∃ s', Trace Step s ls s' ∧ p s' = true := by
  induction ls generalizing s with
  | nil => exact ⟨s, .nil s, by simpa using h⟩
  | cons l ls ih =>
    rw [List.foldlM_cons] at h
    cases hl : f s l with
    | none => rw [hl] at h; cases h
    | some t =>
      rw [hl] at h
      obtain ⟨s', ht, hp⟩ := ih h
      exact ⟨s', .cons (hf _ _ _ hl) ht, hp⟩

theorem mono (hstep : ∀ s l s', Step s l s' → Step' s l s') (h : Trace Step s tr s') :
    Trace Step' s tr s' := by
  induction h with
  | nil => exact .nil _
  | snoc _ hs ih => exact .snoc ih (hstep _ _ _ hs)

end Trace

end Base
