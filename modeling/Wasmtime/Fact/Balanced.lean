import Wasmtime.Fact.Emitted

/-!
# The emitted code is balanced

An emitter may open a block that another one closes: `Emits a b e` says that the code of `e` closes
`a` of the blocks that were open before and leaves `b` open.

* `translate_flat`: the translation of a type is balanced, provided that of strings is.
-/

namespace Wasmtime.Fact

open Base Base.Wasm List
open Component hiding skip

/-- Looking for an `end` passes over the code, which closes `a` blocks and leaves `b` open. -/
def Shifts (a b : Nat) (code : List Insn) : Prop := ∀ d k, skip (d + a) (code ++ k) = skip (d + b) k

theorem Shifts.closed {code : List Insn} (h : Shifts 0 0 code) : Closed code := h

theorem Shifts.append {a b e : Nat} {code code' : List Insn} (h : Shifts a b code)
    (h' : Shifts b e code') : Shifts a e (code ++ code') := by
  intro d k
  rw [append_assoc, h, h']

/-- Whatever the emitter appends closes `a` blocks and leaves `b` open. -/
structure Emits {α : Type} (a b : Nat) (e : Emit α) : Prop where
  code : ∀ {c c' : Compiler} {x : α}, e c = (.ok x, c') →
    ∃ code, c'.code = c.code ++ code ∧ Shifts a b code
  debug : ∀ {c c' : Compiler} {x : α}, e c = (.ok x, c') → c'.debug = c.debug

/-- Whatever the emitter appends is balanced. -/
abbrev Flat {α : Type} (e : Emit α) : Prop := ∀ n, Emits n n e

abbrev Translator.Flat (t : Translator) : Prop := ∀ src dstTy dst, Fact.Flat (t src dstTy dst)

namespace Emits

variable {α β : Type} {a b d : Nat} {e : Emit α} {f : α → Emit β}

theorem bind (h : Emits a b e) (hf : ∀ x, Emits b d (f x)) : Emits a d (e >>= f) := by
  constructor
  · intro c c' y hrun
    obtain ⟨x, c1, he, hfx⟩ := Prog.bind_ok.1 hrun
    obtain ⟨code, hcode, hs⟩ := h.code he
    obtain ⟨code', hcode', hs'⟩ := (hf x).code hfx
    refine ⟨code ++ code', ?_, hs.append hs'⟩
    rw [hcode', hcode, append_assoc]
  · intro c c' y hrun
    obtain ⟨x, c1, he, hfx⟩ := Prog.bind_ok.1 hrun
    exact ((hf x).debug hfx).trans (h.debug he)

theorem closed (h : ∀ {c c' : Compiler} {x : α}, e c = (.ok x, c') →
    ∃ code, c'.code = c.code ++ code ∧ c'.debug = c.debug ∧ Closed code) : Emits a a e := by
  constructor
  · intro c c' x hrun
    obtain ⟨code, hcode, -, hclosed⟩ := h hrun
    exact ⟨code, hcode, fun d k => hclosed (d + a) k⟩
  · intro c c' x hrun
    obtain ⟨-, -, hdebug, -⟩ := h hrun
    exact hdebug

theorem silent (h : ∀ {c c' : Compiler} {x : α}, e c = (.ok x, c') →
    c'.code = c.code ∧ c'.debug = c.debug) : Emits a a e :=
  closed fun hrun => ⟨[], by rw [(h hrun).1, append_nil], (h hrun).2, .nil⟩

theorem pure (x : α) : Emits a a (Pure.pure x : Emit α) := by
  refine silent fun h => ?_
  cases h
  exact ⟨rfl, rfl⟩

theorem panic (p : Panic) : Emits a b (Prog.panic p : Emit α) :=
  ⟨fun h => (by cases h), fun h => (by cases h)⟩

theorem get : Emits a a (Prog.get : Emit Compiler) := by
  refine silent fun h => ?_
  cases h
  exact ⟨rfl, rfl⟩

/-- The compiler is read, and another one written that has the same code. -/
theorem read {f : Compiler → Emit β} (h : ∀ c c' y, f c c = (.ok y, c') →
    (∃ code, c'.code = c.code ++ code ∧ Shifts a b code) ∧ c'.debug = c.debug) :
    Emits a b (Prog.get >>= f) :=
  ⟨fun hrun => (h _ _ _ hrun).1, fun hrun => (h _ _ _ hrun).2⟩

theorem unwrap (o : Option α) (p : Panic) : Emits a a (Prog.unwrap o p : Emit α) := by
  cases o with
  | none => exact panic p
  | some x => exact pure x

theorem assert (q : Bool) (p : Panic) : Emits a a (Prog.assert q p : Emit Unit) := by
  cases q with
  | false => exact panic p
  | true => exact pure ()

theorem unwrapBind {o : Option α} {p : Panic} (h : ∀ x, o = some x → Emits a b (f x)) :
    Emits a b (Prog.unwrap o p >>= f) := by
  cases o with
  | none => exact ⟨fun h => (by cases h), fun h => (by cases h)⟩
  | some x => exact h x rfl

theorem instr {i : Insn} (h : Shifts a b [i]) : Emits a b (instruction i) := by
  constructor
  · intro c c' x hrun
    cases hrun
    exact ⟨[i], rfl, h⟩
  · intro c c' x hrun
    cases hrun
    rfl

theorem flat {i : Insn} (h : i.flat = true) : Emits a a (instruction i) :=
  instr fun d k => Closed.cons h .nil (d + a) k

/-- An instruction that opens a block. -/
theorem opens {i : Insn} (h : ∀ d k, skip d (i :: k) = skip (d + 1) k) :
    Emits a (a + 1) (instruction i) :=
  instr fun d k => h (d + a) k

theorem block (n : Nat) : Emits a (a + 1) (instruction (.block n)) :=
  opens fun d _ => by cases d <;> rfl

theorem end_ : Emits (a + 1) a (instruction .end_) := instr fun _ _ => rfl

theorem trap (t : Trap) : Emits a a (trap t) := flat rfl

theorem ite {q : Prop} [Decidable q] {e' : Emit α} (h : Emits a b e) (h' : Emits a b e') :
    Emits a b (if q then e else e') := by
  split
  · exact h
  · exact h'

/-- Each round closes a block that was open before the loop. -/
theorem forM_close {l : List β} {g : β → Emit Unit} (h : ∀ x ∈ l, ∀ n, Emits (n + 1) n (g x)) :
    Emits (a + l.length) a (l.forM g) := by
  induction l with
  | nil => exact pure ()
  | cons x l ih =>
    refine bind (e := g x) (h x mem_cons_self (a + l.length)) fun _ => ?_
    exact ih fun y hy => h y (mem_cons_of_mem _ hy)

theorem forM_open (l : List β) (n : Nat) :
    Emits a (a + l.length) (l.forM fun _ => instruction (.block n)) := by
  induction l generalizing a with
  | nil => exact pure ()
  | cons x l ih =>
    have := ih (a := a + 1)
    rw [Nat.add_assoc, Nat.add_comm 1] at this
    exact bind (block n) fun _ => this

end Emits

theorem Flat.forM {β : Type} {l : List β} {g : β → Emit Unit} (h : ∀ x ∈ l, Flat (g x)) :
    Flat (l.forM g) := by
  intro n
  induction l with
  | nil => exact .pure ()
  | cons x l ih =>
    exact Emits.bind (e := g x) (h x mem_cons_self n) fun _ =>
      ih fun y hy => h y (mem_cons_of_mem _ hy)

theorem Flat.collect {β γ : Type} {l : List β} {g : β → Emit γ} (h : ∀ x, Flat (g x)) :
    Flat (Prog.collect g l) := by
  intro n
  induction l with
  | nil => exact .pure _
  | cons x l ih => exact (h x n).bind fun _ => ih.bind fun _ => .pure _

theorem mem_of_lookup_eq {α β : Type} [BEq α] [LawfulBEq α] {l : List (α × β)} {a : α} {b : β}
    (h : l.lookup a = some b) : (a, b) ∈ l := by
  obtain ⟨l1, l2, rfl, -⟩ := lookup_eq_some_iff.1 h
  exact mem_append_right _ mem_cons_self

/-! ### The rules as instances

The statement about a program follows its syntax, so that it is left to the search for instances:
the number of open blocks after a part of a program is found with it. -/

/-- The number of blocks that are open afterwards is a result of the search. -/
class Balances {α : Type} (a : Nat) (b : outParam Nat) (e : Emit α) : Prop where
  emits : Emits a b e

/-- An instruction that neither opens nor closes a block. -/
class FlatInsn (i : Insn) : Prop where
  flat : i.flat = true

theorem flat_of {α : Type} {e : Emit α} (h : ∀ n, Balances n n e) : Flat e := fun n => (h n).emits

theorem Flat.balances {α : Type} {e : Emit α} (h : Flat e) {n : Nat} : Balances n n e := ⟨h n⟩

section

variable {α β : Type} {a b d : Nat} {e e' : Emit α} {f : α → Emit β}

instance [h : Balances a b e] [h' : ∀ x, Balances b d (f x)] : Balances a d (e >>= f) :=
  ⟨h.emits.bind fun x => (h' x).emits⟩

/-- The first instruction of a long program is taken off, since the search is for short ones. -/
theorem Balances.next [h : Balances a b e] (h' : ∀ x, Balances b d (f x)) :
    Balances a d (e >>= f) :=
  ⟨h.emits.bind fun x => (h' x).emits⟩

instance {q : Prop} [Decidable q] [h : Balances a b e] [h' : Balances a b e'] :
    Balances a b (if q then e else e') := ⟨.ite h.emits h'.emits⟩

instance (x : α) : Balances a a (pure x : Emit α) := ⟨.pure x⟩

instance : Balances a a (Prog.get : Emit Compiler) := ⟨.get⟩

instance (o : Option α) (p : Panic) : Balances a a (Prog.unwrap o p : Emit α) := ⟨.unwrap o p⟩

instance (q : Bool) (p : Panic) : Balances a a (Prog.assert q p : Emit Unit) := ⟨.assert q p⟩

instance (build : Build) (q : Bool) (p : Panic) :
    Balances a a (debugAssert build q p : Emit Unit) := by unfold debugAssert; infer_instance

section

variable (k m : Nat) (t : ValType)

instance : FlatInsn (.br k) := ⟨rfl⟩
instance : FlatInsn (.brIf k) := ⟨rfl⟩
instance (l : List Nat) : FlatInsn (.brTable l k) := ⟨rfl⟩
instance (f : Callee) : FlatInsn (.call f) := ⟨rfl⟩
instance : FlatInsn (.localGet k) := ⟨rfl⟩
instance : FlatInsn (.localSet k) := ⟨rfl⟩
instance : FlatInsn (.localTee k) := ⟨rfl⟩
instance : FlatInsn (.const t k) := ⟨rfl⟩
instance (op : IntOp) : FlatInsn (.int t op) := ⟨rfl⟩
instance (op : RelOp) : FlatInsn (.rel t op) := ⟨rfl⟩
instance : FlatInsn (.eqz t) := ⟨rfl⟩
instance : FlatInsn .select := ⟨rfl⟩
instance (c : Conv) : FlatInsn (.conv c) := ⟨rfl⟩
instance (n : Nat) (s : Bool) : FlatInsn (.load t n s k m) := ⟨rfl⟩
instance (n : Nat) : FlatInsn (.store t n k m) := ⟨rfl⟩
instance : FlatInsn (.memorySize t k) := ⟨rfl⟩

end

instance {i : Insn} [h : FlatInsn i] : Balances a a (instruction i) := ⟨.flat h.flat⟩

instance (n : Nat) : Balances a (a + 1) (instruction (.block n)) := ⟨.block n⟩

instance : Balances a (a + 1) (instruction .loop) := ⟨.opens fun d _ => by cases d <;> rfl⟩

instance : Balances a (a + 1) (instruction .ifNonzero) := ⟨.opens fun d _ => by cases d <;> rfl⟩

instance : Balances (a + 1) a (instruction .end_) := ⟨.end_⟩

instance (t : Trap) : Balances a a (trap t) := ⟨.trap t⟩

instance {l : List β} {g : β → Emit Unit} [h : ∀ x n, Balances n n (g x)] :
    Balances a a (l.forM g) := ⟨Flat.forM (fun x _ => flat_of (h x)) a⟩

end

/-! ### The small emitters -/

section

variable {n : Nat} (src : Source) (dst : Destination) (dstTy : InterfaceType) (opts : Options)
  (mem : Memory) (ty : ValType)

theorem genTempLocal_flat {insn : Nat → Insn} (h : ∀ i, (insn i).flat = true) :
    Flat (genTempLocal ty insn) := by
  refine fun n => .closed fun hrun => ?_
  rw [genTempLocal_run] at hrun
  cases hrun
  exact ⟨[insn _], by rw [emit_code, alloc_code], by simp, .cons (h _) .nil⟩

instance : Balances n n (localSetNewTmp ty) := (genTempLocal_flat ty fun _ => rfl).balances

instance : Balances n n (localTeeNewTmp ty) := (genTempLocal_flat ty fun _ => rfl).balances

instance (l : TempLocal) : Balances n n (freeTempLocal l) := by
  refine ⟨.silent fun h => ?_⟩
  cases h
  exact ⟨rfl, rfl⟩

instance (k : Nat) : Balances n n (ptrUconst opts k) := by unfold ptrUconst; infer_instance

instance (op : IntOp) : Balances n n (ptrInt opts op) := by unfold ptrInt; infer_instance

instance : Balances n (n + 1) (ptrIf opts) := by unfold ptrIf; infer_instance

instance (bytes : Nat) (signed : Bool) : Balances n n (loadFrom ty bytes signed mem) := by
  unfold loadFrom memoryIndex; infer_instance

instance (bytes : Nat) : Balances n n (storeTo ty bytes mem) := by
  unfold storeTo memoryIndex; infer_instance

instance : Balances n n (pushDstAddr dst) := by
  cases dst <;> (unfold pushDstAddr; infer_instance)

instance : Balances n n (pushMemAddr mem) := by unfold pushMemAddr; infer_instance

instance (t : InterfaceType) : Balances n n (assertAligned t mem) := by
  unfold assertAligned
  refine .next fun c => ?_
  dsimp only
  split_ifs
  · repeat refine .next fun _ => ?_
    infer_instance
  · infer_instance

instance (stack : List (Nat × ValType)) : Balances n n (stackGet stack ty) := by
  refine ⟨.closed fun hrun => ?_⟩
  obtain ⟨i, slot, -, -, rfl⟩ := stackGet_ok hrun
  exact ⟨_, rfl, rfl, closed_getCode _ _ _ _⟩

instance (types : List ValType) : Balances n n (stackSet types ty) := by
  refine ⟨.closed fun hrun => ?_⟩
  obtain ⟨slot, -, -, rfl⟩ := stackSet_ok hrun
  exact ⟨_, rfl, rfl, closed_setCode _ _⟩

instance {load : Memory → Emit Unit} [∀ mem, Balances n n (load mem)] :
    Balances n n (fetch src load ty) := by
  cases src <;> (unfold fetch; infer_instance)

instance {store : Memory → Emit Unit} [∀ mem, Balances n n (store mem)] :
    Balances n n (put dst store ty) := by
  cases dst <;> (unfold put; infer_instance)

instance {α : Type} (l : List α) : Balances n n (firstSlot l) := by
  unfold firstSlot; infer_instance

/-! ### Scalars and handles -/

instance (needed : Bool) (mask : Nat) : Balances n n (maskWith needed mask) := by
  unfold maskWith; infer_instance

instance : Balances n n (translateBool src dst) := by
  unfold translateBool i32Load8u i32Store8; infer_instance

instance (mask : Nat) : Balances n n (convertU8Mask src dst mask) := by
  cases src <;> (unfold convertU8Mask i32Load8u i32Store8; infer_instance)

instance (mask : Nat) : Balances n n (convertU16Mask src dst mask) := by
  cases src <;> (unfold convertU16Mask i32Load16u i32Store16; infer_instance)

instance (mask : Nat) : Balances n n (convertU32Mask src dst mask) := by
  unfold convertU32Mask i32Load i32Store; infer_instance

instance : Balances n n (translateS8 src dst) := by
  cases src <;> (unfold translateS8 i32Load8s i32Store8; infer_instance)

instance : Balances n n (translateS16 src dst) := by
  cases src <;> (unfold translateS16 i32Load16s i32Store16; infer_instance)

instance {load store : Memory → Emit Unit} [∀ mem, Balances n n (load mem)]
    [∀ mem, Balances n n (store mem)] : Balances n n (copyValue load store ty src dst) := by
  unfold copyValue; infer_instance

instance : Balances n n (translateChar src dst) := by
  unfold translateChar i32Load i32Store
  repeat refine .next fun _ => ?_
  infer_instance

theorem convertScalar_flat (s : Scalar) : Flat (convertScalar s src dst) := by
  refine flat_of fun n => ?_
  cases s <;> unfold convertScalar <;> first
    | infer_instance
    | (unfold i32Load i32Store; infer_instance)
    | (unfold i64Load i64Store; infer_instance)
    | (unfold f32Load f32Store; infer_instance)
    | (unfold f64Load f64Store; infer_instance)

theorem translateScalar_flat (s : Scalar) : Flat (translateScalar s src dstTy dst) := fun n =>
  .bind (.assert _ _) fun _ => convertScalar_flat src dst s n

theorem translateHandle_flat (h : Handle) : Flat (translateHandle h src dstTy dst) := by
  refine flat_of fun n => ?_
  cases dstTy with
  | handle g =>
    unfold translateHandle i32Load i32Store
    repeat refine .next fun _ => ?_
    infer_instance
  | _ => exact ⟨.panic _⟩

/-! ### Records and flags -/

/-- The fields of the destination are translated in their order, each found by its name. -/
theorem translateRecord_flat {fields : List (String × SrcType)}
    (h : ∀ f ∈ fields, f.2.translate.Flat) :
    Flat (translateRecord fields src dstTy dst) := by
  intro n
  cases dstTy with
  | record dstFields =>
    refine .bind (.assert _ _) fun _ => .bind (.unwrap _ _) fun srcs => .bind (.unwrap _ _)
      fun dsts => Flat.forM (fun f _ k => .unwrapBind fun p hp => ?_) n
    have hmem := mem_of_lookup_eq hp
    rw [mem_reverse, mem_map] at hmem
    obtain ⟨g, hg, hgp⟩ := hmem
    have hg' := h g.1 (of_mem_zip hg).1
    obtain ⟨psrc, pty⟩ := p
    simp only [Prod.mk.injEq] at hgp
    rw [hgp.2.2] at hg'
    exact hg' psrc f.1.2 f.2 k
  | _ => exact .panic _

theorem translateTuple_flat {types : List SrcType} (h : ∀ t ∈ types, t.translate.Flat) :
    Flat (translateTuple types src dstTy dst) := by
  intro n
  cases dstTy with
  | tuple dstTypes =>
    refine .bind (.assert _ _) fun _ => .bind (.unwrap _ _) fun srcs => .bind (.unwrap _ _)
      fun dsts => Flat.forM (fun f hf => ?_) n
    exact h f.1.2 (of_mem_zip (of_mem_zip hf).1).2 f.1.1 f.2.2 f.2.1
  | _ => exact .panic _

theorem translateFlags_flat (names : List String) :
    Flat (translateFlags names src dstTy dst) := by
  refine flat_of fun n => ?_
  cases dstTy with
  | flags dstNames =>
    unfold translateFlags
    cases flagsSize names.length <;> infer_instance
  | _ => exact ⟨.panic _⟩

/-! ### Variants -/

instance (size : Environ.DiscriminantSize) : Balances n n (loadDiscriminant src size) := by
  cases src with
  | stack s opts => unfold loadDiscriminant; infer_instance
  | memory mem =>
    cases size <;> (unfold loadDiscriminant i32Load8u i32Load16u i32Load; infer_instance)

instance (size : Environ.DiscriminantSize) : Balances n n (storeDiscriminant dst size) := by
  cases dst with
  | stack s opts => unfold storeDiscriminant; infer_instance
  | memory mem =>
    cases size <;> (unfold storeDiscriminant i32Store8 i32Store16 i32Store; infer_instance)

instance (dst dstPayload : Destination) : Balances n n (padPayload dst dstPayload) := by
  cases dstPayload <;> cases dst <;> (unfold padPayload; infer_instance)

instance (count srcI : Nat) : Balances n n (branchOut count srcI) := by
  unfold branchOut; infer_instance

/-- A payload that only one side has is a panic, which emits nothing. -/
theorem translatePayload_flat {case : VariantCase}
    (h : ∀ t, case.srcTy = some t → t.translate.Flat) (src : Source) (dst : Destination) :
    Flat (translatePayload case src dst) := by
  obtain ⟨srcI, srcTy, dstI, dstTy⟩ := case
  intro n
  cases srcTy with
  | none =>
    cases dstTy with
    | none => exact .pure ()
    | some d => exact .panic _
  | some t =>
    cases dstTy with
    | none => exact .panic _
    | some d => exact h t rfl src d dst n

/-- The code of a case ends with the `end` of a block that was opened before the table. -/
theorem convertCase_emits (src : Source) (srcInfo : VariantInfo) (dst : Destination)
    (dstInfo : VariantInfo) (count : Nat) {case : VariantCase}
    (h : ∀ t, case.srcTy = some t → t.translate.Flat) (n : Nat) :
    Emits (n + 1) n (convertCase src srcInfo dst dstInfo count case) := by
  have hpayload := fun s d k => (translatePayload_flat h s d).balances (n := k)
  unfold convertCase
  exact Balances.emits

/-- **A variant is balanced**: it opens a block for its results, one for each case and one that an
invalid discriminant leaves; the trap closes one and each case another. -/
theorem convertVariant_flat (src : Source) (srcInfo : VariantInfo) (dst : Destination)
    (dstInfo : VariantInfo) {cases : List VariantCase}
    (h : ∀ case ∈ cases, ∀ t, case.srcTy = some t → t.translate.Flat) :
    Flat (convertVariant src srcInfo dst dstInfo cases) := by
  intro n
  refine .bind (.block _) fun _ => ?_
  cases hlen : cases.length with
  | zero => exact ⟨fun h => (by cases h), fun h => (by cases h)⟩
  | succ k =>
    have hopen := Emits.forM_open (a := n + 1) (List.range (k + 1 - 1)) 0
    rw [length_range, Nat.add_sub_cancel, Nat.add_right_comm] at hopen
    have hclose := Emits.forM_close (a := n) (l := cases)
      (g := convertCase src srcInfo dst dstInfo cases.length)
      fun case hcase m => convertCase_emits src srcInfo dst dstInfo _ (h case hcase) m
    rw [hlen] at hclose
    have hcases : Balances (n + k + 1) n _ := ⟨hclose⟩
    refine .bind (.assert _ _) fun _ => .bind hopen fun _ => (?_ : Balances _ _ _).emits
    repeat refine .next fun _ => ?_
    infer_instance

/-- Each case is that of its index, with the case of the destination of the same name. -/
theorem variantCases_spec {dstCases : List (String × Option InterfaceType)} {i : Nat}
    {cases : List (String × Option SrcType)} {all : List VariantCase}
    (h : variantCases dstCases i cases = some all) :
    all.length = cases.length ∧ ∀ j case, all[j]? = some case → ∃ c, cases[j]? = some c ∧
      case.srcI = i + j ∧ case.srcTy = c.2 ∧ dstCases.findIdx? (·.1 = c.1) = some case.dstI ∧
      ∃ d, dstCases[case.dstI]? = some d ∧ case.dstTy = d.2 := by
  induction cases generalizing i all with
  | nil =>
    cases h
    exact ⟨rfl, fun j case hj => by cases hj⟩
  | cons c cases ih =>
    obtain ⟨name, ty⟩ := c
    rw [variantCases] at h
    cases hidx : dstCases.findIdx? (·.1 = name) with
    | none =>
      rw [hidx] at h
      cases h
    | some dstI =>
      simp only [hidx] at h
      cases hd : dstCases[dstI]? with
      | none =>
        simp only [hd] at h
        cases h
      | some d =>
        cases hrest : variantCases dstCases (i + 1) cases with
        | none =>
          simp only [hd, hrest] at h
          cases h
        | some rest =>
          simp only [hd, hrest] at h
          cases h
          obtain ⟨ih1, ih2⟩ := ih hrest
          refine ⟨by rw [length_cons, length_cons, ih1], fun j case hj => ?_⟩
          cases j with
          | zero =>
            cases hj
            exact ⟨_, rfl, rfl, rfl, hidx, d, hd, rfl⟩
          | succ j =>
            obtain ⟨c, hc, hi, hrest'⟩ := ih2 j case hj
            exact ⟨c, hc, by omega, hrest'⟩

theorem translateVariant_flat {cases : List (String × Option SrcType)}
    (h : ∀ c ∈ cases, ∀ t, c.2 = some t → t.translate.Flat) :
    Flat (translateVariant cases src dstTy dst) := by
  intro n
  cases dstTy with
  | variant dstCases =>
    refine .unwrapBind fun all hall => convertVariant_flat _ _ _ _ (fun case hcase t ht => ?_) n
    obtain ⟨j, hj⟩ := mem_iff_getElem?.1 hcase
    obtain ⟨c, hc, -, hty, -⟩ := (variantCases_spec hall).2 j case hj
    exact h c (mem_of_getElem? hc) t (hty ▸ ht)
  | _ => exact .panic _

/-- Options and results are variants with two cases. -/
theorem convertPair_flat {srcInfo dstInfo : VariantInfo} {a b : VariantCase}
    (ha : ∀ t, a.srcTy = some t → t.translate.Flat)
    (hb : ∀ t, b.srcTy = some t → t.translate.Flat) :
    Flat (convertVariant src srcInfo dst dstInfo [a, b]) := by
  refine convertVariant_flat _ _ _ _ fun case hcase t ht => ?_
  rcases mem_cons.1 hcase with rfl | hcase
  · exact ha t ht
  · rw [mem_singleton.1 hcase] at ht
    exact hb t ht

theorem translateOption_flat (ty : SrcType) (h : ty.translate.Flat) :
    Flat (translateOption ty src dstTy dst) := by
  intro n
  cases dstTy with
  | option d =>
    refine convertPair_flat src dst (fun t ht => by cases ht) (fun t ht => ?_) n
    cases ht
    exact h
  | _ => exact .panic _

theorem translateResult_flat {ok err : Option SrcType}
    (hok : ∀ t, ok = some t → t.translate.Flat) (herr : ∀ t, err = some t → t.translate.Flat) :
    Flat (translateResult ok err src dstTy dst) := by
  intro n
  cases dstTy with
  | result dstOk dstErr => exact convertPair_flat src dst hok herr n
  | _ => exact .panic _

theorem translateEnum_flat (names : List String) : Flat (translateEnum names src dstTy dst) := by
  refine flat_of fun n => ?_
  cases dstTy with
  | enum dstNames =>
    unfold translateEnum
    repeat refine .next fun _ => ?_
    infer_instance
  | _ => exact ⟨.panic _⟩

/-! ### Lists -/

instance (addr align : Nat) : Balances n n (verifyAligned opts addr align) := by
  unfold verifyAligned; infer_instance

instance (size align : Nat) : Balances n n (malloc opts size align) := by
  unfold malloc
  repeat refine .next fun _ => ?_
  infer_instance

instance (len : Nat) : Balances n n (checkLength opts len) := by
  unfold checkLength; infer_instance

instance (len : Nat) : Balances n n (widenLength opts len) := by
  unfold widenLength; infer_instance

instance (tmp : TempLocal) : Balances n n (narrowLength opts tmp) := by
  unfold narrowLength; infer_instance

instance (len eltSize : Nat) : Balances n n (calculateListByteLen opts len eltSize) := by
  unfold calculateListByteLen
  split_ifs
  · infer_instance
  · infer_instance
  · repeat refine .next fun _ => ?_
    infer_instance

instance (len : Nat) (srcPtr dstPtr : ValType) :
    Balances n n (convertSrcLenToDst len srcPtr dstPtr) := by
  cases srcPtr <;> cases dstPtr <;> (unfold convertSrcLenToDst; infer_instance)

instance (dstOpts : Options) (srcLen srcByteLen srcSize dstSize : Nat) :
    Balances n n (dstByteLength opts dstOpts srcLen srcByteLen srcSize dstSize) := by
  unfold dstByteLength; infer_instance

instance : Balances n n (extendTo64 opts) := by unfold extendTo64; infer_instance

instance (ptr : Nat) : Balances n n (checkWrap opts ptr) := by unfold checkWrap; infer_instance

instance (ptr byteLen : Nat) (t : Trap) :
    Balances n n (validateMemoryInbounds opts ptr byteLen t) := by
  unfold validateMemoryInbounds
  repeat refine .next fun _ => ?_
  infer_instance

instance (depth : Nat) : Balances n n (ptrBrIf opts depth) := by unfold ptrBrIf; infer_instance

instance (ptr size : Nat) : Balances n n (advance opts ptr size) := by
  unfold advance; infer_instance

instance : Balances n n (ptrLoad mem) := by unfold ptrLoad i64Load i32Load; infer_instance

instance : Balances n n (ptrStore mem) := by unfold ptrStore i64Store i32Store; infer_instance

instance : Balances n n (pushList src) := by
  cases src <;> (unfold pushList; infer_instance)

instance (srcPtr : ValType) (dstAddr srcLen : Nat) :
    Balances n n (putList dst srcPtr dstAddr srcLen) := by
  cases dst <;> (unfold putList; infer_instance)

/-- The loop over the elements is a block that branches leave, and one that they repeat. -/
instance (element : SrcType) (d : InterfaceType) (dstOpts : Options) (s d0 l : Nat)
    [∀ src dstTy dst k, Balances k k (element.translate src dstTy dst)] :
    Balances n n (translateElements element d opts dstOpts s d0 l) := by
  unfold translateElements
  split_ifs
  · infer_instance
  · repeat refine .next fun _ => ?_
    infer_instance

theorem translateList_flat (element : SrcType) (h : element.translate.Flat) :
    Flat (translateList element src dstTy dst) := by
  have helement := fun src dstTy dst k => (h src dstTy dst).balances (n := k)
  refine flat_of fun n => ?_
  cases dstTy with
  | list d =>
    unfold translateList
    repeat refine .next fun _ => ?_
    infer_instance
  | _ => exact ⟨.panic _⟩

/-! ### Helpers and all types -/

/-- A helper is asked for here, and its code is a function of its own. -/
instance (h : Helper) : Balances n n (translateHelper h) := by
  refine ⟨.silent fun hrun => ?_⟩
  cases hrun
  dsimp only
  split <;> exact ⟨rfl, rfl⟩

instance (t : InterfaceType) : Balances n n (pushSource t src) := by
  cases src <;> (unfold pushSource pushFlat; infer_instance)

instance : Balances n n (pushDestination dst) := by
  cases dst <;> (unfold pushDestination; infer_instance)

instance (l : List ValType) : Balances n n (Prog.collect localSetNewTmp l) :=
  (Flat.collect fun _ => flat_of fun _ => inferInstance).balances

instance : Balances n n (popResults dstTy dst) := by
  cases dst <;> (unfold popResults popFlat; infer_instance)

instance (t : InterfaceType) : Balances n n (outline t src dstTy dst) := by
  unfold outline; infer_instance

instance (t : InterfaceType) : Balances n n (assertSrcAligned t src) := by
  cases src <;> (unfold assertSrcAligned; infer_instance)

instance (t : InterfaceType) : Balances n n (assertDstAligned t dst) := by
  cases dst <;> (unfold assertDstAligned; infer_instance)

/-- A type is translated in place, or by a helper when the fuel for that is used up. -/
theorem metered_flat (ty : InterfaceType) {inline : Translator} {src : Source}
    {dstTy : InterfaceType} {dst : Destination} (h : Flat (inline src dstTy dst)) :
    Flat (metered ty inline src dstTy dst) := by
  intro n
  refine .bind Balances.emits fun _ => .bind Balances.emits fun _ => .read fun c c' y hrun => ?_
  split at hrun
  · rw [Prog.run_set_bind] at hrun
    have hcode := (h n).code hrun
    have hdebug := (h n).debug hrun
    exact ⟨hcode, hdebug⟩
  · have hout : Emits n n (outline ty src dstTy dst) := Balances.emits
    exact ⟨hout.code hrun, hout.debug hrun⟩

end

section

variable (translateString : Translator)

/-- A type with its own translation, as the translation of a type with children is given them. -/
def srcType (ty : InterfaceType) : SrcType := ⟨ty, translate translateString ty⟩

theorem srcPayload_eq (ty : Option InterfaceType) :
    srcPayload translateString ty = ty.map (srcType translateString) := by
  cases ty with
  | none => simp only [srcPayload, Option.map_none]
  | some ty => simp only [srcPayload, Option.map_some, srcType]

theorem srcTypes_eq (types : List InterfaceType) :
    srcTypes translateString types = types.map (srcType translateString) :=
  InterfaceType.eq_map (by rw [srcTypes]) (fun _ _ => by rw [srcTypes]; rfl) types

theorem srcFields_eq (fields : List (String × InterfaceType)) :
    srcFields translateString fields = fields.map fun f => (f.1, srcType translateString f.2) :=
  InterfaceType.eq_map (by rw [srcFields]) (fun _ _ => by rw [srcFields]; rfl) fields

theorem srcCases_eq (cases : List (String × Option InterfaceType)) :
    srcCases translateString cases =
      cases.map fun c => (c.1, c.2.map (srcType translateString)) :=
  InterfaceType.eq_map (by rw [srcCases]) (fun _ _ => by rw [srcCases, srcPayload_eq]) cases

end

/-- **The translation of every type is balanced**, by induction on the type. -/
theorem translate_flat {translateString : Translator} (hstring : translateString.Flat)
    (ty : InterfaceType) : (translate translateString ty).Flat := by
  intro src dstTy dst
  induction ty using InterfaceType.induct generalizing src dstTy dst with
  | scalar s =>
    rw [translate]
    exact metered_flat _ (translateScalar_flat src dst dstTy s)
  | string =>
    rw [translate]
    exact metered_flat _ (hstring src dstTy dst)
  | handle h =>
    rw [translate]
    exact metered_flat _ (translateHandle_flat src dst dstTy h)
  | list t ih =>
    rw [translate]
    exact metered_flat _ (translateList_flat src dst dstTy (srcType translateString t) ih)
  | record fields ih =>
    rw [translate, srcFields_eq]
    refine metered_flat _ (translateRecord_flat src dst dstTy fun f hf => ?_)
    obtain ⟨g, hg, rfl⟩ := mem_map.1 hf
    exact ih g hg
  | tuple types ih =>
    rw [translate, srcTypes_eq]
    refine metered_flat _ (translateTuple_flat src dst dstTy fun t ht => ?_)
    obtain ⟨u, hu, rfl⟩ := mem_map.1 ht
    exact ih u hu
  | variant cases ih =>
    rw [translate, srcCases_eq]
    refine metered_flat _ (translateVariant_flat src dst dstTy fun c hc t ht => ?_)
    obtain ⟨d, hd, rfl⟩ := mem_map.1 hc
    obtain ⟨u, hu, rfl⟩ := Option.map_eq_some_iff.1 ht
    exact ih d hd u hu
  | enum names =>
    rw [translate]
    exact metered_flat _ (translateEnum_flat src dst dstTy names)
  | option t ih =>
    rw [translate]
    exact metered_flat _ (translateOption_flat src dst dstTy (srcType translateString t) ih)
  | result ok err ihok iherr =>
    rw [translate, srcPayload_eq, srcPayload_eq]
    refine metered_flat _ (translateResult_flat src dst dstTy (fun t ht => ?_) fun t ht => ?_)
    · obtain ⟨u, hu, rfl⟩ := Option.map_eq_some_iff.1 ht
      exact ihok u hu
    · obtain ⟨u, hu, rfl⟩ := Option.map_eq_some_iff.1 ht
      exact iherr u hu
  | flags names =>
    rw [translate]
    exact metered_flat _ (translateFlags_flat src dst dstTy names)

end Wasmtime.Fact
