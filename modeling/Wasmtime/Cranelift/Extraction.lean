import Mathlib.Order.WellFoundedSet
import Mathlib.Tactic
import Wasmtime.Base.Sweep

/-!
# Extraction of the best values of an e-graph

The values of a function are parameters, results of instructions, and unions of two values.
`compute_best_values` (`egraph/elaborate.rs`) finds a value to use for each of them, with its cost
(`egraph/cost.rs`), by sweeps that end when one changes nothing. `extraction_optimal`: they end on
every acyclic graph, what is found for a value is a member of its union tree, and its cost is the
least that choosing a member for every union gives.
-/

namespace Wasmtime.Cranelift.Egraph

open Base List

/-! ### Costs -/

inductive Opcode
  | iconst | f32const | f64const
  | uextend | sextend | ireduce | iconcat | isplit
  | iadd | isub | band | bor | bxor | bnot | ishl | ushr | sshr
  /-- The other opcodes, of which only these predicates are asked. -/
  | other (canTrap otherSideEffects canLoad canStore : Bool)

/-- The cost of the operations in the upper 24 bits, their depth in the lower 8. -/
abbrev Cost := Fin (2 ^ 32)

namespace Cost

def maxOpCost : Nat := 2 ^ 24 - 1

def infinity : Cost := ⟨2 ^ 32 - 1, by decide⟩

def zero : Cost := ⟨0, by decide⟩

def new (opcodeCost : Nat) (depth : Fin (2 ^ 8)) : Cost :=
  if h : maxOpCost ≤ opcodeCost then infinity
  else ⟨opcodeCost * 2 ^ 8 + depth, by simp only [maxOpCost] at h; omega⟩

def depth (c : Cost) : Fin (2 ^ 8) := ⟨c.val % 2 ^ 8, by omega⟩

def opCost (c : Cost) : Nat := c.val / 2 ^ 8

def add (a b : Cost) : Cost := new (min (a.opCost + b.opCost) (2 ^ 32 - 1)) (max a.depth b.depth)

def ofOpcode : Opcode → Cost
  | .iconst | .f32const | .f64const => new 1 0
  | .uextend | .sextend | .ireduce | .iconcat | .isplit => new 1 0
  | .iadd | .isub | .band | .bor | .bxor | .bnot | .ishl | .ushr | .sshr => new 3 0
  | .other canTrap otherSideEffects canLoad canStore =>
    let c := new 4 0
    let c := if canTrap || otherSideEffects then c.add (new 5 0) else c
    let c := if canLoad then c.add (new 10 0) else c
    if canStore then c.add (new 20 0) else c

def sum (costs : List Cost) : Cost := costs.foldl add zero

def deepen (c : Cost) : Cost := new c.opCost ⟨min (c.depth + 1) 255, by omega⟩

def ofPureOp (op : Opcode) (operandCosts : List Cost) : Cost :=
  deepen ((ofOpcode op).add (sum operandCosts))

/-- The cost of operations that cost `t.1` together and of which `t.2` are above each other. -/
def saturate (t : Nat × Nat) : Cost := new t.1 ⟨min t.2 255, by omega⟩

theorem val_new (o : Nat) (d : Fin (2 ^ 8)) :
    (new o d).val = if 2 ^ 24 - 1 ≤ o then 2 ^ 32 - 1 else o * 2 ^ 8 + d := by
  unfold new maxOpCost
  split <;> rfl

theorem val_add (a b : Cost) : (a.add b).val =
    if 2 ^ 24 - 1 ≤ a.val / 2 ^ 8 + b.val / 2 ^ 8 then 2 ^ 32 - 1
    else (a.val / 2 ^ 8 + b.val / 2 ^ 8) * 2 ^ 8 + max (a.val % 2 ^ 8) (b.val % 2 ^ 8) := by
  have hmin : min (a.opCost + b.opCost) (2 ^ 32 - 1) = a.val / 2 ^ 8 + b.val / 2 ^ 8 := by
    simp only [opCost]
    omega
  rw [add, val_new, hmin, Fin.coe_max]
  rfl

theorem val_deepen (c : Cost) : c.deepen.val =
    if 2 ^ 24 - 1 ≤ c.val / 2 ^ 8 then 2 ^ 32 - 1
    else c.val / 2 ^ 8 * 2 ^ 8 + min (c.val % 2 ^ 8 + 1) 255 := val_new ..

theorem val_saturate (t : Nat × Nat) : (saturate t).val =
    if 2 ^ 24 - 1 ≤ t.1 then 2 ^ 32 - 1 else t.1 * 2 ^ 8 + min t.2 255 := val_new ..

theorem add_saturate (t u : Nat × Nat) :
    add (saturate t) (saturate u) = saturate (t.1 + u.1, max t.2 u.2) := by
  apply Fin.ext
  rw [val_add, val_saturate, val_saturate, val_saturate]
  split_ifs <;> omega

theorem deepen_saturate (t : Nat × Nat) : deepen (saturate t) = saturate (t.1, t.2 + 1) := by
  apply Fin.ext
  rw [val_deepen, val_saturate, val_saturate]
  split_ifs <;> omega

theorem ofOpcode_eq (op : Opcode) : ofOpcode op = saturate ((ofOpcode op).opCost, 0) := by
  cases op with
  | other a b c d => cases a <;> cases b <;> cases c <;> cases d <;> rfl
  | _ => rfl

theorem foldl_saturate (l : List (Nat × Nat)) (t : Nat × Nat) :
    (l.map saturate).foldl add (saturate t) =
      saturate (t.1 + (l.map (·.1)).sum, (l.map (·.2)).foldl max t.2) := by
  induction l generalizing t with
  | nil => rfl
  | cons u l ih =>
    rw [map_cons, foldl_cons, add_saturate, ih, map_cons, sum_cons, map_cons, foldl_cons,
      Nat.add_assoc]

theorem add_mono {a a' b b' : Cost} (ha : a ≤ a') (hb : b ≤ b') : a.add b ≤ a'.add b' := by
  rw [Fin.le_def] at *
  rw [val_add, val_add]
  split_ifs <;> omega

theorem deepen_mono {c c' : Cost} (h : c ≤ c') : c.deepen ≤ c'.deepen := by
  rw [Fin.le_def] at *
  rw [val_deepen, val_deepen]
  split_ifs <;> omega

theorem ofPureOp_saturate (op : Opcode) (l : List (Nat × Nat)) :
    ofPureOp op (l.map saturate) =
      saturate ((ofOpcode op).opCost + (l.map (·.1)).sum, (l.map (·.2)).foldl max 0 + 1) := by
  have hs : sum (l.map saturate) = _ := foldl_saturate l (0, 0)
  rw [ofPureOp, hs, ofOpcode_eq, add_saturate, deepen_saturate, ← ofOpcode_eq]
  simp only [Nat.zero_add, Nat.zero_max]

theorem ofPureOp_mono {α : Type*} (op : Opcode) {l : List α} {p q : α → Cost}
    (h : ∀ w ∈ l, p w ≤ q w) : ofPureOp op (l.map p) ≤ ofPureOp op (l.map q) := by
  have hf : ∀ a b : Cost, a ≤ b → (l.map p).foldl add a ≤ (l.map q).foldl add b := by
    induction l with
    | nil => exact fun _ _ hab => hab
    | cons w l ih =>
      rw [forall_mem_cons] at h
      exact fun a b hab => ih h.2 _ _ (add_mono hab h.1)
  exact deepen_mono (add_mono le_rfl (hf _ _ le_rfl))

end Cost

/-! ### Value graphs -/

abbrev Value := Nat

def reservedValue : Value := 2 ^ 32 - 1

inductive ValueDef
  | result (inst : Nat)
  | param
  | union (x y : Value)

structure InstData where
  opcode : Opcode
  values : List Value
  block : Option Nat

/-- The definitions of the values, by index, and the instructions of a function. -/
structure DataFlowGraph where
  defs : List ValueDef
  insts : Nat → InstData

structure BestEntry where
  cost : Cost
  value : Value
deriving DecidableEq

namespace BestEntry

/-- When costs are equal, the value with the bigger index is less. -/
def cmp (a b : BestEntry) : Ordering := (compare a.cost b.cost).then (compare a.value b.value).swap

def min (a b : BestEntry) : BestEntry := if a.cmp b = .gt then b else a

def max (a b : BestEntry) : BestEntry := if a.cmp b = .gt then a else b

theorem cost_min (a b : BestEntry) : (a.min b).cost ≤ a.cost ∧ (a.min b).cost ≤ b.cost := by
  unfold min cmp
  rcases lt_trichotomy a.cost b.cost with h | h | h
  · simp [compare_lt_iff_lt.2 h, h.le]
  · split <;> simp [h]
  · simp [compare_gt_iff_gt.2 h, h.le]

end BestEntry

namespace DataFlowGraph

variable (g : DataFlowGraph)

def valueDef (v : Value) : ValueDef := g.defs.getD v .param

theorem valueDef_of_le {v : Value} (h : g.defs.length ≤ v) : g.valueDef v = .param := by
  simp [valueDef, h]

def operands (v : Value) : List Value :=
  match g.valueDef v with
  | .result inst => if (g.insts inst).block.isSome then [] else (g.insts inst).values
  | .param => []
  | .union x y => [x, y]

def bestOf (useWorst : Bool) (best : Value → BestEntry) (value : Value) : BestEntry :=
  match g.valueDef value with
  | .union x y =>
    if useWorst then
      if (best x).value = reservedValue then best y
      else if (best y).value = reservedValue then best x
      else (best x).max (best y)
    else (best x).min (best y)
  | .param => ⟨.zero, value⟩
  | .result inst =>
    -- what is in the layout is computed in any case
    if (g.insts inst).block.isSome then ⟨.zero, value⟩
    else
      ⟨.ofPureOp (g.insts inst).opcode ((g.insts inst).values.map fun w => (best w).cost), value⟩

/-- `useWorst` is the decision of the control plane, which is `false` unless in chaos mode. -/
def computeBestValues (useWorst : Bool) (fuel : Nat) : Option (Value → BestEntry) :=
  Sweep.iterate (g.bestOf useWorst) (range g.defs.length) fuel
    fun _ => ⟨.infinity, reservedValue⟩

inductive Member : Value → Value → Prop
  | self {v : Value} : (∀ x y, g.valueDef v ≠ .union x y) → Member v v
  | left {v x y m : Value} : g.valueDef v = .union x y → Member x m → Member v m
  | right {v x y m : Value} : g.valueDef v = .union x y → Member y m → Member v m

/-- What is added to the operands of a value that is no union: the cost of its operation, and a
level. -/
def weigh (v : Value) (ts : List (Nat × Nat)) : Nat × Nat :=
  match g.valueDef v with
  | .result inst =>
    if (g.insts inst).block.isSome then (0, 0)
    else ((Cost.ofOpcode (g.insts inst).opcode).opCost + (ts.map (·.1)).sum,
      (ts.map (·.2)).foldl max 0 + 1)
  | _ => (0, 0)

end DataFlowGraph

/-- A graph whose operands are values of it, and in which no value is computed from itself. -/
structure ValueGraph extends DataFlowGraph where
  few : defs.length < 2 ^ 32
  closed : ∀ v, ∀ w ∈ toDataFlowGraph.operands v, w < defs.length
  acyclic : ∀ v, ¬ Relation.TransGen (fun w v => w ∈ toDataFlowGraph.operands v) v v

namespace ValueGraph

/-- A ranking of the values in which operands come first shows that no value is computed from
itself. -/
def ofRank (g : DataFlowGraph) (few : g.defs.length < 2 ^ 32) (rank : Value → Nat)
    (h : ∀ v < g.defs.length, ∀ w ∈ g.operands v, w < g.defs.length ∧ rank w < rank v) :
    ValueGraph :=
  have hall : ∀ v, ∀ w ∈ g.operands v, w < g.defs.length ∧ rank w < rank v := by
    intro v w hw
    refine h v (Nat.lt_of_not_le fun hv => ?_) w hw
    rw [DataFlowGraph.operands, g.valueDef_of_le hv] at hw
    cases hw
  { g with
    few
    closed := fun v w hw => (hall v w hw).1
    acyclic := fun v hv => by
      have hlt := hv.lift rank fun w v hw => (hall v w hw).2
      rw [Relation.transGen_eq_self] at hlt
      exact lt_irrefl (rank v) hlt }

variable (g : ValueGraph)

/-- A way of choosing one member for every union. -/
structure Choice where
  choose : Value → Value
  member : ∀ v, g.Member v (choose v)

def Below : Value → Value → Prop := Relation.TransGen fun w v => w ∈ g.operands v

theorem wellFounded_below : WellFounded g.Below := by
  have : IsStrictOrder Value g.Below := { irrefl := g.acyclic, trans := fun _ _ _ => .trans }
  have hs : Set.WellFoundedOn {v | v < g.defs.length} g.Below :=
    (Set.finite_lt_nat g.defs.length).wellFoundedOn
  refine WellFounded.transGen (Subrelation.wf (fun {w v} hw => ?_) (Set.wellFoundedOn_iff.1 hs))
  refine ⟨.single hw, g.closed v w hw, Nat.lt_of_not_le fun hv => ?_⟩
  rw [DataFlowGraph.operands, g.valueDef_of_le hv] at hw
  cases hw

variable {g}

theorem mem_of_union {v x y : Value} (h : g.valueDef v = .union x y) :
    x ∈ g.operands v ∧ y ∈ g.operands v := by
  simp [DataFlowGraph.operands, h]

theorem below_of_member {v m w : Value} (h : g.Member v m) (hw : w ∈ g.operands m) :
    g.Below w v := by
  induction h with
  | self => exact .single hw
  | left hd _ ih => exact (ih hw).tail (mem_of_union hd).1
  | right hd _ ih => exact (ih hw).tail (mem_of_union hd).2

/-- What a value costs if the choice is made, and how deep its computation is. -/
def extracted (choice : g.Choice) (v : Value) : Nat × Nat := g.weigh (choice.choose v)
    ((g.operands (choice.choose v)).attach.map fun w => extracted choice w.1)
termination_by g.wellFounded_below.wrap v
decreasing_by exact below_of_member (choice.member v) w.2

theorem extracted_eq (choice : g.Choice) (v : Value) : extracted choice v =
    g.weigh (choice.choose v) ((g.operands (choice.choose v)).map (extracted choice)) := by
  rw [extracted, attach_map_val]

/-! ### What the sweeps end with -/

section

variable {useWorst : Bool} {best : Value → BestEntry} {v x y m w : Value}

theorem bestOf_union (h : g.valueDef v = .union x y) :
    g.bestOf useWorst best v = best x ∨ g.bestOf useWorst best v = best y := by
  rw [DataFlowGraph.bestOf, h]
  dsimp only [BestEntry.max, BestEntry.min]
  split_ifs <;> simp

def price (g : ValueGraph) (v : Value) (costs : List Cost) : Cost :=
  match g.valueDef v with
  | .result inst =>
    if (g.insts inst).block.isSome then .zero else .ofPureOp (g.insts inst).opcode costs
  | _ => .zero

theorem bestOf_leaf (h : ∀ x y, g.valueDef v ≠ .union x y) : g.bestOf useWorst best v =
    ⟨g.price v ((g.operands v).map fun w => (best w).cost), v⟩ := by
  unfold DataFlowGraph.bestOf price DataFlowGraph.operands
  split
  · exact absurd ‹_› (h _ _)
  · simp [*]
  · simp only [*]
    split_ifs <;> rfl

theorem price_saturate (ts : List (Nat × Nat)) :
    g.price v (ts.map Cost.saturate) = Cost.saturate (g.weigh v ts) := by
  unfold price DataFlowGraph.weigh
  split
  · split_ifs
    · rfl
    · exact Cost.ofPureOp_saturate _ _
  · rfl

theorem price_mono {p q : Value → Cost} {l : List Value} (h : ∀ w ∈ l, p w ≤ q w) :
    g.price v (l.map p) ≤ g.price v (l.map q) := by
  unfold price
  split
  · split_ifs
    · exact le_rfl
    · exact Cost.ofPureOp_mono _ h
  · exact le_rfl

theorem saturate_extracted (choice : g.Choice) : Cost.saturate (extracted choice v) =
    g.price (choice.choose v) ((g.operands (choice.choose v)).map fun w =>
      Cost.saturate (extracted choice w)) := by
  rw [extracted_eq, ← price_saturate, map_map]
  rfl

theorem leaf_of_member (h : g.Member v m) : ∀ x y, g.valueDef m ≠ .union x y := by
  induction h with
  | self h => exact h
  | left _ _ ih => exact ih
  | right _ _ ih => exact ih

theorem member_lt (h : g.Member v m) (hv : v < g.defs.length) : m < g.defs.length := by
  induction h with
  | self => exact hv
  | left hd _ ih => exact ih (g.closed _ _ (mem_of_union hd).1)
  | right hd _ ih => exact ih (g.closed _ _ (mem_of_union hd).2)

variable (hb : ∀ v < g.defs.length, g.bestOf useWorst best v = best v)
include hb

theorem member_best (hv : v < g.defs.length) :
    g.Member v (best v).value ∧ best (best v).value = best v := by
  induction v using g.wellFounded_below.induction with
  | _ v ih =>
    by_cases hd : ∃ x y, g.valueDef v = .union x y
    · obtain ⟨x, y, hd⟩ := hd
      have hm := mem_of_union hd
      rcases bestOf_union hd with he | he <;> rw [hb v hv] at he <;> rw [he]
      · obtain ⟨hx, hxe⟩ := ih x (.single hm.1) (g.closed v x hm.1)
        exact ⟨.left hd hx, hxe⟩
      · obtain ⟨hy, hye⟩ := ih y (.single hm.2) (g.closed v y hm.2)
        exact ⟨.right hd hy, hye⟩
    · push Not at hd
      have he : (best v).value = v := by rw [← hb v hv, bestOf_leaf hd]
      rw [he]
      exact ⟨.self hd, rfl⟩

theorem cost_leaf (h : ∀ x y, g.valueDef v ≠ .union x y) (hv : v < g.defs.length) :
    (best v).cost = g.price v ((g.operands v).map fun w => (best w).cost) :=
  congrArg BestEntry.cost ((hb v hv).symm.trans (bestOf_leaf h))

theorem exists_choice : ∃ choice : g.Choice, ∀ v < g.defs.length,
    Cost.saturate (extracted choice v) = (best v).cost := by
  classical
  have hc : ∀ v, g.Member v (if v < g.defs.length then (best v).value else v) := by
    intro v
    split_ifs with hv
    · exact (member_best hb hv).1
    · exact .self fun x y => by rw [g.valueDef_of_le (Nat.le_of_not_lt hv)]; nofun
  refine ⟨⟨_, hc⟩, fun v hv => ?_⟩
  induction v using g.wellFounded_below.induction with
  | _ v ih =>
    obtain ⟨hm, he⟩ := member_best hb hv
    have hp := cost_leaf hb (leaf_of_member hm) (member_lt hm hv)
    rw [he] at hp
    rw [hp, saturate_extracted]
    dsimp only
    rw [if_pos hv]
    congr 1
    exact map_congr_left fun w hw => ih w (below_of_member hm hw) (g.closed _ w hw)

end

section

variable {best : Value → BestEntry} {v x y m : Value}
  (hb : ∀ v < g.defs.length, g.bestOf false best v = best v)
include hb

theorem best_union (h : g.valueDef v = .union x y) (hv : v < g.defs.length) :
    best v = (best x).min (best y) := by
  rw [← hb v hv, DataFlowGraph.bestOf, h]
  rfl

theorem cost_member (h : g.Member v m) (hv : v < g.defs.length) :
    (best v).cost ≤ (best m).cost := by
  induction h with
  | self => exact le_rfl
  | left hd _ ih =>
    rw [best_union hb hd hv]
    exact (BestEntry.cost_min _ _).1.trans (ih (g.closed _ _ (mem_of_union hd).1))
  | right hd _ ih =>
    rw [best_union hb hd hv]
    exact (BestEntry.cost_min _ _).2.trans (ih (g.closed _ _ (mem_of_union hd).2))

theorem cost_le (choice : g.Choice) (hv : v < g.defs.length) :
    (best v).cost ≤ Cost.saturate (extracted choice v) := by
  induction v using g.wellFounded_below.induction with
  | _ v ih =>
    have hm := choice.member v
    refine (cost_member hb hm hv).trans ?_
    rw [saturate_extracted, cost_leaf hb (leaf_of_member hm) (member_lt hm hv)]
    exact price_mono fun w hw => ih w (below_of_member hm hw) (g.closed _ w hw)

end

theorem bestOf_congr {useWorst : Bool} (v : Value) (b b' : Value → BestEntry)
    (h : ∀ w, w ∈ g.operands v → b w = b' w) :
    g.bestOf useWorst b v = g.bestOf useWorst b' v := by
  by_cases hd : ∃ x y, g.valueDef v = .union x y
  · obtain ⟨x, y, hd⟩ := hd
    have hm := mem_of_union hd
    rw [DataFlowGraph.bestOf, DataFlowGraph.bestOf, hd]
    dsimp only
    rw [h x hm.1, h y hm.2]
  · push Not at hd
    rw [bestOf_leaf hd, bestOf_leaf hd]
    congr 2
    exact map_congr_left fun w hw => by rw [h w hw]

/-- **Extraction ends, with the best values.** On every acyclic graph of values the sweeps end,
and what they find for a value is a member of its union tree, and no union; unless in chaos mode
its cost is the least of those of the ways to choose one member for every union. -/
theorem extraction_optimal (g : ValueGraph) (useWorst : Bool) :
    ∃ iters best, (∀ fuel, iters ≤ fuel → g.computeBestValues useWorst fuel = some best) ∧
      ∀ v < g.defs.length, g.Member v (best v).value ∧ (best v).value ≠ reservedValue ∧
        (∀ x y, g.valueDef (best v).value ≠ .union x y) ∧
        (useWorst = false →
          IsLeast (Set.range fun choice : g.Choice => Cost.saturate (extracted choice v))
            (best v).cost) := by
  obtain ⟨iters, best, hi, hb⟩ := Sweep.exists_iterate
    (Subrelation.wf Relation.TransGen.single g.wellFounded_below)
    nodup_range bestOf_congr (fun v w hw => mem_range.2 (g.closed v w hw))
    fun _ => ⟨.infinity, reservedValue⟩
  simp only [mem_range] at hb
  refine ⟨iters, best, hi, fun v hv => ?_⟩
  have hm := (member_best hb hv).1
  have hlt := (member_lt hm hv).trans_le (Nat.le_sub_one_of_lt g.few)
  refine ⟨hm, hlt.ne, leaf_of_member hm, ?_⟩
  rintro rfl
  obtain ⟨choice, hc⟩ := exists_choice hb
  refine ⟨⟨choice, hc v hv⟩, ?_⟩
  rintro _ ⟨choice, rfl⟩
  exact cost_le hb choice hv

/-- The union of a sum with an extension that has a greater number, both of one parameter. -/
def sumOrExtension : ValueGraph := .ofRank
  ⟨[.result 0, .union 0 2, .result 1, .param],
    fun inst => if inst = 0 then ⟨.iadd, [3, 3], none⟩ else ⟨.uextend, [3], none⟩⟩
  (by decide) (fun v => [1, 2, 1, 0].getD v 0) (by decide)

theorem extraction_optimal_sumOrExtension :
    (sumOrExtension.computeBestValues false 4).map (fun best => best 1) = some ⟨.new 1 1, 2⟩ ∧
    ∃ iters best, (∀ fuel, iters ≤ fuel →
        sumOrExtension.computeBestValues false fuel = some best) ∧
      IsLeast (Set.range fun choice : sumOrExtension.Choice =>
        Cost.saturate (extracted choice 1)) (best 1).cost := by
  obtain ⟨iters, best, hfuel, hbest⟩ := extraction_optimal sumOrExtension false
  exact ⟨by decide +kernel, iters, best, hfuel, (hbest 1 (by decide)).2.2.2 rfl⟩

end ValueGraph

end Wasmtime.Cranelift.Egraph
