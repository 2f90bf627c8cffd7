import Wasmtime.Base.Wp

/-!
# Loops

`Prog.loop` repeats a body that says whether to go on and with what. It is given a number of
rounds; `Prog.wp_loop` is the rule for loops whose rounds use something up, so that the number
of rounds is never the reason why such a loop ends. `Prog.collect` maps a list.
-/

namespace Base.Prog

variable {σ ε S R : Type} {stuck : ε} {body : S → Prog σ ε (S ⊕ R)}

def loop (stuck : ε) (body : S → Prog σ ε (S ⊕ R)) : Nat → S → Prog σ ε R
  | 0, _ => err stuck
  | rounds + 1, s => do
    match ← body s with
    | .inl s' => loop stuck body rounds s'
    | .inr r => pure r

/-- **The rule for loops**: an invariant, and a measure that every round lowers. -/
theorem wp_loop {Q : R → σ → Prop} {E : ε → σ → Prop} (I : S → σ → Prop) (μ : S → σ → Nat)
    (hbody : ∀ s t, I s t → wp (body s)
      (fun o t' => match o with
        | .inl s' => I s' t' ∧ μ s' t' < μ s t
        | .inr r => Q r t') E t)
    {rounds : Nat} {s : S} {t : σ} (h : I s t) (hrounds : μ s t < rounds) :
    wp (loop stuck body rounds s) Q E t := by
  induction rounds generalizing s t with
  | zero => exact absurd hrounds (Nat.not_lt_zero _)
  | succ rounds ih =>
    unfold loop
    refine wp_seq (hbody s t h) ?_
    rintro (s' | r) t' ho
    · exact ih ho.1 (by have := ho.2; omega)
    · exact ho

variable {α β : Type} {s : S} {t : σ} {l : List α}

def collect (f : α → Prog σ ε β) : List α → Prog σ ε (List β)
  | [] => pure []
  | x :: l => do
    let y ← f x
    let ys ← collect f l
    pure (y :: ys)

end Base.Prog
