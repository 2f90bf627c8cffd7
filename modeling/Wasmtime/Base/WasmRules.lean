import Wasmtime.Base.Wasm

/-!
# Rules for WebAssembly code

`Does env c m r` composes: what a sequence or a conditional does follows from what its parts
do, wherever the code stands.

* `Does.append`, `Does.exit`: a sequence.
* `Does.of_plain`: an instruction that only computes.
* `Does.ifNonzero`, `Does.skipIf`: structured control.
-/

namespace Base.Wasm

open List

variable {τ κ H : Type}

inductive Result (τ H : Type) where
  | ok (m : Machine H)
  | br (depth : Nat) (m : Machine H)
  | trap (t : Trap τ)

/-- Where the machine is when code has been left that is followed by `k`. -/
def Result.target (r : Result τ H) (k : Code τ κ) (labels : List (Label τ κ))
    (frames : List (Frame τ κ)) : Option (Config τ κ H) :=
  match r with
  | .ok m => some (.running k labels frames m)
  | .br n m => branch n labels frames m
  | .trap t => some (.trapped t)

def Does (env : Env τ κ H) (c : Code τ κ) (m : Machine H) (r : Result τ H) : Prop :=
  ∀ k labels frames cfg, r.target k labels frames = some cfg →
    Steps env (.running (c ++ k) labels frames m) cfg

def Result.leave (r : Result τ H) (arity height : Nat) : Result τ H :=
  match r with
  | .ok m => .ok m
  | .br 0 m => .ok (m.cut arity height)
  | .br (n + 1) m => .br n m
  | .trap t => .trap t

namespace Does

variable {env : Env τ κ H} {c c' : Code τ κ} {m m1 : Machine H} {r : Result τ H}

theorem nil : Does env [] m (.ok m) := by
  intro k labels frames cfg h
  cases h
  exact .refl

theorem append (h : Does env c m (.ok m1)) (h' : Does env c' m1 r) : Does env (c ++ c') m r := by
  intro k labels frames cfg hcfg
  rw [append_assoc]
  exact (h (c' ++ k) labels frames _ rfl).trans (h' k labels frames cfg hcfg)

theorem exit (h : Does env c m r) (hr : ∀ m', r ≠ .ok m') : Does env (c ++ c') m r := by
  intro k labels frames cfg hcfg
  rw [append_assoc]
  refine h (c' ++ k) labels frames cfg ?_
  cases r with
  | ok m' => exact absurd rfl (hr m')
  | br n m' => exact hcfg
  | trap t => exact hcfg

theorem trap {t : Trap τ} (h : Does env c m (.trap t)) : Does env (c ++ c') m (.trap t) :=
  h.exit fun _ h => by cases h

variable {i : Instr τ κ}

theorem cons (h : Does env [i] m (.ok m1)) (h' : Does env c m1 r) :
    Does env (i :: c) m r := h.append h'

theorem of_step
    (h : ∀ k labels frames, step env (.running (i :: k) labels frames m) = r.target k labels frames)
    : Does env [i] m r := by
  intro k labels frames cfg hcfg
  exact .single ((h k labels frames).trans hcfg)

def PlainStep (env : Env τ κ H) (i : Instr τ κ) (m : Machine H) : Prop :=
  ∀ k labels frames, step env (.running (i :: k) labels frames m) =
    match i.plain m with
    | some (.ok m') => some (.running k labels frames m')
    | some (.error t) => some (.trapped t)
    | none => none

theorem of_plain {m' : Machine H} (hi : PlainStep env i m) (h : i.plain m = some (.ok m')) :
    Does env [i] m (.ok m') :=
  of_step fun k labels frames => by rw [hi, h]; rfl

theorem unreachable (t : τ) : Does env [.unreachable t] m (.trap (.code t)) :=
  of_step fun _ _ _ => rfl

theorem localGet (i : Nat) : Does env [.localGet i] m (.ok (m.push (m.locals i))) :=
  of_step fun _ _ _ => rfl

theorem const (ty : ValType) (n : Nat) : Does env [.const ty n] m (.ok (m.push (.of ty n))) :=
  of_step fun _ _ _ => rfl

section

variable {v w : Value}

theorem localTee (i : Nat) : Does env [.localTee i] (m.push v) (.ok ((m.setLocal i v).push v)) :=
  of_step fun _ _ _ => rfl

variable {ty : ValType}

theorem int {op : IntOp} (hv : v.ty = ty) (hw : w.ty = ty) :
    Does env [.int ty op] ((m.push v).push w)
      (.ok (m.push (.of ty (op.eval ty.width v.raw w.raw)))) :=
  of_plain (fun _ _ _ => rfl) (if_pos ⟨hv, hw⟩)

theorem rel {op : RelOp} (hv : v.ty = ty) (hw : w.ty = ty) :
    Does env [.rel ty op] ((m.push v).push w)
      (.ok (m.push (.of .i32 (op.eval v.raw w.raw).toNat))) :=
  of_plain (fun _ _ _ => rfl) (if_pos ⟨hv, hw⟩)

theorem conv {cv : Conv} (hv : v.ty = cv.types.1) :
    Does env [.conv cv] (m.push v) (.ok (m.push (.of cv.types.2 (cv.eval v.raw)))) :=
  of_plain (fun _ _ _ => rfl) (if_pos hv)

theorem load {bytes mem offset : Nat} {signed : Bool}
    (h : v.raw + offset + bytes ≤ (m.store.mems mem).size) :
    Does env [.load ty bytes signed mem offset] (m.push v) (.ok (m.push (.of ty
      (if signed then signExtend (8 * bytes) ((m.store.mems mem).read (v.raw + offset) bytes)
        else (m.store.mems mem).read (v.raw + offset) bytes)))) :=
  of_plain (fun _ _ _ => rfl) (if_pos h)

theorem store {bytes mem offset : Nat} (hw : w.ty = ty)
    (h : v.raw + offset + bytes ≤ (m.store.mems mem).size) :
    Does env [.store ty bytes mem offset] ((m.push v).push w)
      (.ok (m.setMem mem ((m.store.mems mem).write (v.raw + offset) bytes w.raw))) :=
  of_plain (fun _ _ _ => rfl) ((if_pos hw).trans (if_pos h))

end

theorem not_trap {t : Trap τ} (h : Does env c m (.ok m1)) : ¬ Does env c m (.trap t) := by
  intro h'
  have hstuck : ∀ {cfg cfg' : Config τ κ H}, step env cfg = none → Steps env cfg cfg' →
      cfg' = cfg := by
    intro cfg cfg' hnone hs
    rcases Relation.ReflTransGen.cases_head hs with heq | ⟨_, hstep, -⟩
    · exact heq.symm
    · rw [hnone] at hstep
      cases hstep
  have hu : Relator.RightUnique fun cfg cfg' : Config τ κ H => step env cfg = some cfg' := by
    intro a b b' hb hb'
    exact Option.some.inj (hb.symm.trans hb')
  rcases Relation.ReflTransGen.total_of_right_unique hu (h [] [] [] _ rfl)
    (h' [] [] [] _ rfl) with hs | hs
  · cases hstuck rfl hs
  · cases hstuck rfl hs

/-! ### Structured control -/

theorem closing {l : Label τ κ} (arity : Nat) (hclosed : Closed c) (h : Does env c m r)
    (k : Code τ κ) (labels : List (Label τ κ)) (frames : List (Frame τ κ))
    (hl : l = ⟨skip 0 (c ++ .end_ :: k), arity, m.stack.length⟩) {cfg : Config τ κ H}
    (hcfg : (r.leave arity m.stack.length).target k labels frames = some cfg) :
    Steps env (.running (c ++ .end_ :: k) (l :: labels) frames m) cfg := by
  subst hl
  rw [hclosed.skip_end]
  cases r with
  | ok m' =>
    cases hcfg
    exact (h (.end_ :: k) _ frames _ rfl).trans (.single rfl)
  | br n m' =>
    cases n with
    | zero =>
      cases hcfg
      exact h (.end_ :: k) _ frames _ rfl
    | succ n => exact h (.end_ :: k) _ frames cfg hcfg
  | trap t => exact h (.end_ :: k) _ frames cfg hcfg

theorem ifNonzero {v : Value} (hv : v.raw ≠ 0) (hclosed : Closed c) (h : Does env c m r) :
    Does env (.ifNonzero :: (c ++ [.end_])) (m.push v) (r.leave 0 m.stack.length) := by
  intro k labels frames cfg hcfg
  rw [cons_append, append_assoc]
  have hstep : step env (.running (.ifNonzero :: (c ++ ([.end_] ++ k))) labels frames (m.push v)) =
      some (.running (c ++ .end_ :: k) (⟨skip 0 (c ++ .end_ :: k), 0, m.stack.length⟩ :: labels)
        frames m) :=
    if_pos hv
  exact .head hstep (h.closing 0 hclosed k labels frames rfl hcfg)

theorem skipIf {v : Value} (hv : v.raw = 0) (hclosed : Closed c) :
    Does env (.ifNonzero :: (c ++ [.end_])) (m.push v) (.ok m) := by
  intro k labels frames cfg hcfg
  cases hcfg
  rw [cons_append, append_assoc]
  refine .single ((if_neg (not_not_intro hv)).trans ?_)
  exact congrArg (fun k' => some (Config.running k' labels frames m)) (hclosed.skip_end k)

end Does

end Base.Wasm
