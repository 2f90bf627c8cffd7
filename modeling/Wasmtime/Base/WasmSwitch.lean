import Wasmtime.Base.WasmRules

/-!
# Dispatch with a branch table

`switchCode` is a nest of blocks around a `br_table`: the innermost block falls into a trap, the one
around it into the first case, and so on; every case but the last branches out of the nest.

* `switch_enter`: the code of the chosen case runs, and behind it the nest is left.
* `switch_invalid`: an index that is too large traps.
-/

namespace Base.Wasm

open List

variable {τ κ H : Type}

def caseCodes (n : Nat) : Nat → List (Code τ κ) → Code τ κ
  | _, [] => []
  | i, c :: cs =>
    c ++ (if i ≠ n - 1 then [.br (n - i - 1)] else []) ++ .end_ :: caseCodes n (i + 1) cs

/-- The code behind the blocks: the index, the table and the trap. -/
def switchBody (index : Code τ κ) (invalid : τ) (cases : List (Code τ κ)) : Code τ κ :=
  index ++ .brTable ((List.range cases.length).map (· + 1)) 0 :: .end_ :: .unreachable invalid ::
    .end_ :: caseCodes cases.length 0 cases

def switchCode (arity : Nat) (index : Code τ κ) (invalid : τ) (cases : List (Code τ κ)) :
    Code τ κ :=
  .block arity :: (List.replicate (cases.length + 1) (.block 0) ++ switchBody index invalid cases)

section

variable {env : Env τ κ H} {m : Machine H}

theorem skip_replicate (r d : Nat) (code : Code τ κ) :
    skip d (List.replicate r (.block 0) ++ code) = skip (d + r) code := by
  induction r generalizing d with
  | zero => rfl
  | succ r ih =>
    have hstep : skip d (List.replicate (r + 1) (.block 0) ++ code) =
        skip (d + 1) (List.replicate r (.block 0) ++ code) := by
      cases d <;> rfl
    rw [hstep, ih, show d + 1 + r = d + (r + 1) by omega]

def nestLabels (r height : Nat) (code : Code τ κ) : List (Label τ κ) :=
  (List.range r).map fun j => ⟨skip j code, 0, height⟩

theorem nest_steps (r : Nat) (code : Code τ κ) (labels : List (Label τ κ))
    (frames : List (Frame τ κ)) :
    Steps env (.running (List.replicate r (.block 0) ++ code) labels frames m)
      (.running code (nestLabels r m.stack.length code ++ labels) frames m) := by
  induction r generalizing labels with
  | zero => exact .refl
  | succ r ih =>
    have hstep : step env (.running (List.replicate (r + 1) (.block 0) ++ code) labels frames m) =
        some (.running (List.replicate r (.block 0) ++ code)
          (⟨skip 0 (List.replicate r (.block 0) ++ code), 0, m.stack.length⟩ :: labels) frames m) :=
      rfl
    refine .head hstep ?_
    have h := ih (⟨skip 0 (List.replicate r (.block 0) ++ code), 0, m.stack.length⟩ :: labels)
    rw [skip_replicate, Nat.zero_add] at h ⊢
    rw [nestLabels, range_succ, map_append, append_assoc]
    exact h

variable {cases : List (Code τ κ)} {index : Code τ κ} {invalid : τ} {d : Nat} (arity : Nat)

/-- Leaving the `j`-th enclosing block in the code of the cases, before the case `j + 1`. -/
theorem skip_caseCodes (n i j : Nat) (hclosed : ∀ c ∈ cases, Closed c) (hj : j < cases.length)
    (k : Code τ κ) :
    skip j (caseCodes n i cases ++ k) = caseCodes n (i + j + 1) (cases.drop (j + 1)) ++ k := by
  induction cases generalizing i j with
  | nil => exact absurd hj (by simp)
  | cons c cs ih =>
    have hbr : Closed (if i ≠ n - 1 then [Instr.br (n - i - 1)] else ([] : Code τ κ)) := by
      split
      · exact .of_flat rfl
      · exact .nil
    have hstart : ∀ d, skip d (caseCodes n i (c :: cs) ++ k) =
        skip d (.end_ :: (caseCodes n (i + 1) cs ++ k)) := by
      intro d
      rw [caseCodes, append_assoc, cons_append]
      exact ((hclosed c mem_cons_self).append hbr) d _
    rw [hstart]
    cases j with
    | zero => rfl
    | succ j =>
      have hj' : j < cs.length := by simpa using hj
      change skip j (caseCodes n (i + 1) cs ++ k) = _
      rw [ih (i + 1) j (fun c' hc' => hclosed c' (mem_cons_of_mem _ hc')) hj',
        show i + 1 + j + 1 = i + (j + 1) + 1 by omega]
      rfl

theorem caseCodes_drop {i n : Nat} (hd : d < cases.length) :
    caseCodes n (i + d) (cases.drop d) = cases[d] ++
      ((if i + d ≠ n - 1 then [.br (n - (i + d) - 1)] else []) ++
        .end_ :: caseCodes n (i + d + 1) (cases.drop (d + 1))) := by
  rw [drop_eq_getElem_cons hd, caseCodes, append_assoc]

theorem skip_switchBody (hindex : Closed index) (hclosed : ∀ c ∈ cases, Closed c)
    (hd : d ≤ cases.length) (k : Code τ κ) :
    skip (d + 1) (switchBody index invalid cases ++ k) =
      caseCodes cases.length d (cases.drop d) ++ k := by
  rw [switchBody, append_assoc, hindex]
  cases d with
  | zero => rfl
  | succ d =>
    change skip d (caseCodes cases.length 0 cases ++ k) = _
    rw [skip_caseCodes _ _ _ hclosed (by omega), Nat.zero_add]

theorem closed_caseCodes (n i : Nat) (hclosed : ∀ c ∈ cases, Closed c) (d : Nat) (k : Code τ κ) :
    skip (cases.length + d) (caseCodes n i cases ++ k) = skip d k := by
  induction cases generalizing i with
  | nil => rw [length_nil, Nat.zero_add]; rfl
  | cons c cs ih =>
    have hbr : Closed (if i ≠ n - 1 then [Instr.br (n - i - 1)] else ([] : Code τ κ)) := by
      split
      · exact .of_flat rfl
      · exact .nil
    rw [caseCodes, append_assoc, cons_append, ((hclosed c mem_cons_self).append hbr), length_cons,
      show cs.length + 1 + d = cs.length + d + 1 by omega]
    exact ih (i + 1) fun c' hc' => hclosed c' (mem_cons_of_mem _ hc')

theorem closed_switchCode (hindex : Closed index) (hclosed : ∀ c ∈ cases, Closed c) :
    Closed (switchCode arity index invalid cases) := by
  intro d k
  have hfirst : skip d (switchCode arity index invalid cases ++ k) =
      skip (d + 1) (List.replicate (cases.length + 1) (.block 0) ++
        (switchBody index invalid cases ++ k)) := by
    rw [switchCode, cons_append, append_assoc]
    cases d <;> rfl
  rw [hfirst, skip_replicate, show d + 1 + (cases.length + 1) = cases.length + d + 2 by omega,
    switchBody, append_assoc, hindex]
  exact closed_caseCodes _ _ hclosed d k

theorem switch_index {v : Value} (h : Does env index m (.ok (m.push v))) (k : Code τ κ)
    (labels : List (Label τ κ)) (frames : List (Frame τ κ)) :
    Steps env (.running (switchCode arity index invalid cases ++ k) labels frames m)
      (.running (.brTable ((List.range cases.length).map (· + 1)) 0 :: .end_ ::
          .unreachable invalid :: .end_ :: (caseCodes cases.length 0 cases ++ k))
        (nestLabels (cases.length + 1) m.stack.length (switchBody index invalid cases ++ k) ++
          ⟨skip (cases.length + 1) (switchBody index invalid cases ++ k), arity, m.stack.length⟩ ::
            labels) frames (m.push v)) := by
  rw [switchCode, cons_append, append_assoc]
  refine .head rfl ?_
  rw [skip_replicate, Nat.zero_add]
  refine (nest_steps (cases.length + 1) (switchBody index invalid cases ++ k) _ frames).trans ?_
  generalize nestLabels (cases.length + 1) m.stack.length (switchBody index invalid cases ++ k) ++
    ⟨skip (cases.length + 1) (switchBody index invalid cases ++ k), arity, m.stack.length⟩ ::
      labels = all
  rw [switchBody, append_assoc]
  exact h _ _ _ _ rfl

theorem switch_invalid {v : Value} (h : Does env index m (.ok (m.push v)))
    (hv : cases.length ≤ v.raw) (hindex : Closed index) :
    Does env (switchCode arity index invalid cases) m (.trap (.code invalid)) := by
  intro k labels frames cfg hcfg
  cases hcfg
  refine (switch_index arity h k labels frames).trans ?_
  have htarget : ((List.range cases.length).map (· + 1)).getD v.raw 0 = 0 := by
    rw [List.getD, getElem?_eq_none (by simpa using hv)]
    rfl
  have hlabel : skip 0 (switchBody index invalid cases ++ k) =
      .unreachable invalid :: .end_ :: (caseCodes cases.length 0 cases ++ k) := by
    rw [switchBody, append_assoc, hindex]
    rfl
  refine Steps.trans (.single ?_) (.single (show step env (.running (.unreachable invalid :: .end_ ::
      (caseCodes cases.length 0 cases ++ k))
    ((nestLabels (cases.length + 1) m.stack.length (switchBody index invalid cases ++ k) ++
      ⟨skip (cases.length + 1) (switchBody index invalid cases ++ k), arity, m.stack.length⟩ ::
        labels).drop 1) frames m) = _ from rfl))
  change branch (((List.range cases.length).map (· + 1)).getD v.raw 0) _ frames m = _
  rw [htarget, nestLabels, range_succ_eq_map]
  simp only [branch, map_cons, cons_append, getElem?_cons_zero, hlabel]
  rw [Machine.cut_of_length (by omega)]

/-- **The code of the chosen case runs, and behind it the nest is left** with the results of the
outermost block. -/
theorem switch_enter {v : Value} (h : Does env index m (.ok (m.push v)))
    (hv : v.raw < cases.length) (hindex : Closed index) (hclosed : ∀ c ∈ cases, Closed c)
    (k : Code τ κ) (labels : List (Label τ κ)) (frames : List (Frame τ κ)) :
    ∃ k' labels', Steps env (.running (switchCode arity index invalid cases ++ k) labels frames m)
        (.running (cases[v.raw] ++ k') labels' frames m) ∧
      ∀ m' : Machine H, m'.stack.length = arity + m.stack.length →
        Steps env (.running k' labels' frames m') (.running k labels frames m') := by
  obtain ⟨body, hbody⟩ : ∃ body, body = switchBody index invalid cases ++ k := ⟨_, rfl⟩
  have hskip : ∀ d, d ≤ cases.length →
      skip (d + 1) body = caseCodes cases.length d (cases.drop d) ++ k := by
    intro d hd
    rw [hbody]
    exact skip_switchBody hindex hclosed hd k
  have houter : skip (cases.length + 1) body = k := by
    rw [hskip _ le_rfl, drop_length]
    rfl
  obtain ⟨ls, hls⟩ : ∃ ls, ls = nestLabels (cases.length + 1) m.stack.length body ++
      ⟨k, arity, m.stack.length⟩ :: labels := ⟨_, rfl⟩
  have hlen : (nestLabels (cases.length + 1) m.stack.length body).length = cases.length + 1 := by
    rw [nestLabels, length_map, length_range]
  have hcase : ls[v.raw + 1]? = some ⟨skip (v.raw + 1) body, 0, m.stack.length⟩ := by
    rw [hls, getElem?_append_left (by omega), nestLabels, getElem?_map, getElem?_range (by omega)]
    rfl
  have hlast : ls.drop (cases.length + 1) = ⟨k, arity, m.stack.length⟩ :: labels := by
    rw [hls, drop_append_of_le_length (by omega), drop_eq_nil_of_le (by omega), nil_append]
  have htarget : ((List.range cases.length).map (· + 1)).getD v.raw 0 = v.raw + 1 := by
    rw [List.getD, getElem?_map, getElem?_range hv]
    rfl
  refine ⟨(if v.raw ≠ cases.length - 1 then [.br (cases.length - v.raw - 1)] else []) ++
      .end_ :: (caseCodes cases.length (v.raw + 1) (cases.drop (v.raw + 1)) ++ k),
    ls.drop (v.raw + 2), (switch_index arity h k labels frames).trans (.single ?_), ?_⟩
  · rw [← hbody, houter, ← hls]
    change branch (((List.range cases.length).map (· + 1)).getD v.raw 0) ls frames m = _
    rw [htarget, branch, hcase]
    simp only
    have hcode := caseCodes_drop (i := 0) (n := cases.length) hv
    simp only [Nat.zero_add] at hcode
    rw [Machine.cut_of_length (by omega), hskip _ (by omega), hcode]
    simp only [append_assoc, cons_append]
  · intro m' hm'
    by_cases hd : v.raw = cases.length - 1
    · rw [if_neg (not_not.2 hd), show v.raw + 2 = cases.length + 1 by omega, hlast,
        drop_eq_nil_of_le (show cases.length ≤ v.raw + 1 by omega)]
      exact .single rfl
    · rw [if_pos hd]
      refine .single ?_
      change branch (cases.length - v.raw - 1) (ls.drop (v.raw + 2)) frames m' = _
      have hout : (ls.drop (v.raw + 2))[cases.length - v.raw - 1]? =
          some ⟨k, arity, m.stack.length⟩ := by
        have := congrArg (·[0]?) hlast
        simp only [getElem?_drop, getElem?_cons_zero, Nat.add_zero] at this
        rw [getElem?_drop, ← this]
        congr 1
        omega
      rw [branch, hout]
      simp only
      rw [drop_drop, Machine.cut_of_length hm',
        show v.raw + 2 + (cases.length - v.raw - 1 + 1) = cases.length + 1 + 1 by omega,
        ← drop_drop, hlast]
      rfl

end

end Base.Wasm
