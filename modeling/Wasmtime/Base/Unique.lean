import Wasmtime.Base.Prog

/-!
# Searching for the only one

A search that goes through a list, keeps what it finds, and panics when it finds a second
value. `foldlM_keepOne` gives its outcome by everything there is to be found; as the
outcome has the form that is asked of the single probes, searches can be nested.
-/

namespace Base

open List

variable {σ ε ρ φ : Type} {s : σ} {p : Panic}

def oneOf (p : Panic) : List φ → Outcome ε (Option φ)
  | [] => .ok none
  | [f] => .ok (some f)
  | _ :: _ :: _ => .panic p

def Prog.keepOne (p : Panic) (found : Option φ) : Option φ → Prog σ ε (Option φ)
  | none => pure found
  | some f => do
    Prog.assert found.isNone p
    pure (some f)

theorem foldlM_keepOne_aux {probe : ρ → Prog σ ε (Option φ)} {v : ρ → List φ} {l : List ρ}
    (h : ∀ r ∈ l, probe r s = (oneOf p (v r), s)) (w : Option φ) :
    (l.foldlM (fun found r => probe r >>= Prog.keepOne p found) w : Prog σ ε (Option φ)) s =
      (oneOf p (w.toList ++ l.flatMap v), s) := by
  induction l generalizing w with
  | nil => cases w <;> rfl
  | cons r l ih =>
    have hr := h r mem_cons_self
    have ih := ih (fun r' hr' => h r' (mem_cons_of_mem _ hr'))
    rw [foldlM_cons, flatMap_cons]
    rcases hv : v r with _ | ⟨f, _ | ⟨g, vs⟩⟩
    · rw [hv] at hr
      have hk : (probe r >>= Prog.keepOne p w) s = (.ok w, s) := Prog.run_bind_ok hr
      rw [Prog.run_bind_ok hk]
      exact ih w
    · rw [hv] at hr
      cases w with
      | none =>
        have hk : (probe r >>= Prog.keepOne p none) s = (.ok (some f), s) := Prog.run_bind_ok hr
        rw [Prog.run_bind_ok hk]
        exact ih (some f)
      | some g =>
        have hk : (probe r >>= Prog.keepOne p (some g)) s = (.panic p, s) := Prog.run_bind_ok hr
        rw [Prog.run_bind_panic hk]
        rfl
    · rw [hv] at hr
      have hk : (probe r >>= Prog.keepOne p w) s = (.panic p, s) := Prog.run_bind_panic hr
      rw [Prog.run_bind_panic hk]
      cases w <;> rfl

theorem foldlM_keepOne {probe : ρ → Prog σ ε (Option φ)} {v : ρ → List φ} {l : List ρ}
    (h : ∀ r ∈ l, probe r s = (oneOf p (v r), s)) :
    (l.foldlM (fun found r => probe r >>= Prog.keepOne p found) none : Prog σ ε (Option φ)) s =
      (oneOf p (l.flatMap v), s) :=
  foldlM_keepOne_aux h none

theorem flatMap_eq_replicate [DecidableEq ρ] {v : ρ → List φ} {l : List ρ} {r : ρ} {f : φ}
    (h : ∀ x ∈ l, v x = if x = r then [f] else []) :
    l.flatMap v = List.replicate (l.count r) f := by
  induction l with
  | nil => rfl
  | cons x l ih =>
    have ih := ih fun y hy => h y (mem_cons_of_mem _ hy)
    rw [flatMap_cons, h x mem_cons_self, ih, count_cons]
    by_cases hx : x = r
    · simp [hx, replicate_succ]
    · simp [hx]

theorem oneOf_replicate {n : Nat} {f : φ} :
    (oneOf p (List.replicate n f) : Outcome ε (Option φ)) = .ok (some f) ↔ n = 1 := by
  rcases n with _ | _ | n <;> simp [oneOf, replicate_succ]

end Base
