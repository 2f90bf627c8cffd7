import Wasmtime.Fact.Translate
import Wasmtime.Base.WasmRules

/-!
# What the small emitters emit, and what it does

Each emitter appends code that does one thing: it pushes the value of a slot, converts the top of
the stack to the type of a slot, loads or stores.

* `stackGet_run`, `stackSet_run`, `loadFrom_run`, `storeTo_run`.
* `getCode_does`, `setCode_does`: a value goes into a slot and out of it by its low bits.
* `Compiler.Ok`, `Live`: the locals in use are never handed out as temporaries.
-/

namespace Wasmtime.Fact

open Base Base.Wasm List Function Nat
open Component hiding skip

variable {H : Type}

/-! ### Appending code -/

def Compiler.emit (c : Compiler) (code : List Insn) : Compiler := { c with code := c.code ++ code }

section

variable (c : Compiler) (a b : List Insn)

@[simp] theorem emit_nil : c.emit [] = c := by
  simp [Compiler.emit]

@[simp] theorem emit_emit : (c.emit a).emit b = c.emit (a ++ b) := by
  simp [Compiler.emit]

@[simp] theorem emit_code : (c.emit a).code = c.code ++ a := rfl
@[simp] theorem emit_debug : (c.emit a).debug = c.debug := rfl

@[simp] theorem instruction_run (i : Insn) : instruction i c = (.ok (), c.emit [i]) := rfl

@[simp] theorem instruction_bind {α : Type} (i : Insn) (f : Unit → Emit α) :
    (instruction i >>= f) c = f () (c.emit [i]) := rfl

@[simp] theorem trap_bind {α : Type} (t : Trap) (f : Unit → Emit α) :
    (trap t >>= f) c = f () (c.emit [.unreachable t]) := rfl

end

theorem forM_instruction {α : Type} (f : α → Insn) (l : List α) (c : Compiler) :
    (l.forM fun x => instruction (f x)) c = (.ok (), c.emit (l.map f)) := by
  induction l generalizing c with
  | nil =>
    rw [map_nil, emit_nil]
    rfl
  | cons x l ih =>
    change (instruction (f x) >>= fun _ => l.forM fun x => instruction (f x)) c = _
    rw [instruction_bind, ih, emit_emit, map_cons]
    rfl

/-! ### Slots -/

/-- The check of `assert_i64_upper_bits_not_set`. -/
def upperCheck (l : Nat) : List Insn :=
  [.localGet l, .const .i64 32, .int .i64 .shrU, .conv .i32WrapI64, .ifNonzero,
    .unreachable (.assertFailed "upper bits are unexpectedly set"), .end_]

def getCode (debug : Bool) (i : Nat) : ValType → ValType → List Insn
  | .i32, .f32 => [.localGet i, .conv .f32ReinterpretI32]
  | .i64, .i32 => .localGet i :: ((if debug then upperCheck i else []) ++ [.conv .i32WrapI64])
  | .i64, .f64 => [.localGet i, .conv .f64ReinterpretI64]
  | .i64, .f32 => .localGet i ::
      ((if debug then upperCheck i else []) ++ [.conv .i32WrapI64, .conv .f32ReinterpretI32])
  | _, _ => [.localGet i]

def setCode : ValType → ValType → List Insn
  | .f32, .i32 => [.conv .i32ReinterpretF32]
  | .i32, .i64 => [.conv .i64ExtendI32U]
  | .f64, .i64 => [.conv .i64ReinterpretF64]
  | .f32, .i64 => [.conv .i32ReinterpretF32, .conv .i64ExtendI32U]
  | _, _ => []

def SlotFor (slot ty : ValType) : Prop := joinTypes ty slot = slot

instance (slot ty : ValType) : Decidable (SlotFor slot ty) := inferInstanceAs (Decidable (_ = _))

@[simp] theorem assertI64UpperBitsNotSet_run (l : Nat) (c : Compiler) :
    assertI64UpperBitsNotSet l c = (.ok (), c.emit (if c.debug then upperCheck l else [])) := by
  cases h : c.debug <;> simp [assertI64UpperBitsNotSet, upperCheck, h]

theorem stackGet_run {slot ty : ValType} (h : SlotFor slot ty) (i : Nat) (c : Compiler) :
    stackGet [(i, slot)] ty c = (.ok (), c.emit (getCode c.debug i slot ty)) := by
  have hrun := assertI64UpperBitsNotSet_run i (c.emit [.localGet i])
  rw [emit_debug] at hrun
  cases slot <;> cases ty <;> first
    | exact absurd h (by decide)
    | simp [stackGet, getCode, Prog.run_bind_ok hrun]

variable {c c' : Compiler} {ty : ValType}

theorem stackGet_ok {stack : List (Nat × ValType)} (h : stackGet stack ty c = (.ok (), c')) :
    ∃ i slot, stack = [(i, slot)] ∧ SlotFor slot ty ∧ c' = c.emit (getCode c.debug i slot ty) := by
  match stack, h with
  | [(i, slot)], h =>
    by_cases hslot : SlotFor slot ty
    · rw [stackGet_run hslot] at h
      cases h
      exact ⟨i, slot, rfl, hslot, rfl⟩
    · exfalso
      cases slot <;> cases ty <;> first
        | exact hslot (by decide)
        | cases h
  | [], h => cases h
  | _ :: _ :: _, h => cases h

theorem stackSet_run {slot ty : ValType} (h : SlotFor slot ty) (c : Compiler) :
    stackSet [slot] ty c = (.ok (), c.emit (setCode ty slot)) := by
  cases slot <;> cases ty <;> first
    | exact absurd h (by decide)
    | simp [stackSet, setCode]

theorem stackSet_ok {types : List ValType} (h : stackSet types ty c = (.ok (), c')) :
    ∃ slot, types = [slot] ∧ SlotFor slot ty ∧ c' = c.emit (setCode ty slot) := by
  match types, h with
  | [slot], h =>
    by_cases hslot : SlotFor slot ty
    · rw [stackSet_run hslot] at h
      cases h
      exact ⟨slot, rfl, hslot, rfl⟩
    · exfalso
      cases slot <;> cases ty <;> first
        | exact hslot (by decide)
        | cases h
  | [], h => cases h
  | _ :: _ :: _, h => cases h

theorem closed_upperCheck (l : Nat) : Closed (upperCheck l) := by
  have h : Closed ([.unreachable (.assertFailed "upper bits are unexpectedly set")] : List Insn) :=
    .of_flat rfl
  exact .cons rfl (.cons rfl (.cons rfl (.cons rfl h.ifNonzero)))

theorem closed_getCode (debug : Bool) (i : Nat) (slot ty : ValType) :
    Closed (getCode debug i slot ty) := by
  have hcheck : Closed (if debug then upperCheck i else []) := by
    split
    · exact closed_upperCheck i
    · exact .nil
  cases slot <;> cases ty <;> first
    | exact .of_flat rfl
    | exact .cons rfl (hcheck.append (.of_flat rfl))

theorem closed_setCode (ty slot : ValType) : Closed (setCode ty slot) := by
  cases slot <;> cases ty <;> exact .of_flat rfl

/-- In a debug adapter the upper half of a 64-bit slot with a 32-bit value must be clear. -/
def UpperClear (debug : Bool) (v : Value) (ty : ValType) : Prop :=
  debug = true → v.ty = .i64 → ty.width = 32 → v.raw < 2 ^ 32

section

variable {env : Env Trap Callee H} {m : Machine H}

theorem upperCheck_does {l : Nat} (hty : (m.locals l).ty = .i64)
    (hlt : (m.locals l).raw < 2 ^ 32) : Does env (upperCheck l) m (.ok m) := by
  refine .cons (.localGet l) (.cons (.const .i64 32) (.cons (.int hty rfl) (.cons (.conv rfl) ?_)))
  have hclosed : Closed
      ([.unreachable (.assertFailed "upper bits are unexpectedly set")] : List Insn) :=
    .of_flat rfl
  refine Does.skipIf ?_ hclosed
  change (m.locals l).raw / 2 ^ (32 % 2 ^ 64 % 64) % 2 ^ 64 % 2 ^ 32 = 0
  rw [show 32 % 2 ^ 64 % 64 = 32 from rfl, div_eq_of_lt hlt]
  rfl

theorem of_of (ty ty' : ValType) (n : Nat) (h : ty.width ≤ ty'.width) :
    Value.of ty (Value.of ty' n).raw = Value.of ty n := by
  refine Value.ext_raw rfl ?_
  rw [Value.of_raw, Value.of_raw, Value.of_raw]
  exact mod_mod_of_dvd _ (Nat.pow_dvd_pow 2 h)

/-- **A slot gives the low bits of its local.** -/
theorem getCode_does {debug : Bool} {i : Nat} {slot ty : ValType} (h : SlotFor slot ty)
    (hty : (m.locals i).ty = slot) (hupper : UpperClear debug (m.locals i) ty) :
    Does env (getCode debug i slot ty) m (.ok (m.push (.of ty (m.locals i).raw))) := by
  have hself : ∀ t, slot = t → Value.of t (m.locals i).raw = m.locals i := by
    intro t ht
    exact Value.of_eq (hty.trans ht) rfl
  have hcheck : slot = .i64 → ty.width = 32 →
      Does env (if debug then upperCheck i else []) (m.push (m.locals i))
        (.ok (m.push (m.locals i))) := by
    intro hslot hw
    split
    · next hdebug =>
      exact upperCheck_does (hty.trans hslot) (hupper hdebug (hty.trans hslot) hw)
    · exact .nil
  cases slot <;> cases ty <;> first
    | exact absurd h (by decide)
    | (rw [hself _ rfl]; exact .localGet i)
    | exact .cons (.localGet i) (.conv hty)
    | exact .cons (.localGet i) ((hcheck rfl rfl).append (.conv hty))
    | skip
  · refine .cons (.localGet i) ((hcheck rfl rfl).append (.cons (.conv hty) ?_))
    rw [← of_of .f32 .i32 _ le_rfl]
    exact .conv rfl

/-- **A slot is given the bits of the value, and zeros above them.** -/
theorem setCode_does {v : Value} {slot ty : ValType} (h : SlotFor slot ty) (hv : v.ty = ty) :
    Does env (setCode ty slot) (m.push v) (.ok (m.push (.of slot v.raw))) := by
  have hself : ∀ t, ty = t → Value.of t v.raw = v := by
    intro t ht
    exact Value.of_eq (hv.trans ht) rfl
  cases slot <;> cases ty <;> first
    | exact absurd h (by decide)
    | (rw [hself _ rfl]; exact .nil)
    | exact .conv hv
    | skip
  · refine .cons (.conv hv) ?_
    have hlt := v.lt
    rw [hv] at hlt
    have hraw : (Value.of .i32 v.raw).raw = v.raw := mod_eq_of_lt hlt
    have hext : Does env [.conv .i64ExtendI32U] (m.push (.of .i32 v.raw))
        (.ok (m.push (.of .i64 (Value.of .i32 v.raw).raw))) := .conv rfl
    rwa [hraw] at hext

end

/-! ### Loads and stores -/

def loadCode (ty : ValType) (bytes : Nat) (signed : Bool) (mem : Memory) (index : Nat) :
    List Insn :=
  [.localGet mem.addr, .load ty bytes signed index mem.offset]

variable {mem : Memory}

theorem loadFrom_run {index : Nat} (h : mem.opts.memory = some index) (ty : ValType) (bytes : Nat)
    (signed : Bool) (c : Compiler) :
    loadFrom ty bytes signed mem c = (.ok (), c.emit (loadCode ty bytes signed mem index)) := by
  simp [loadFrom, memoryIndex, h, loadCode, Prog.unwrap]

theorem loadFrom_ok {bytes : Nat} {signed : Bool}
    (h : loadFrom ty bytes signed mem c = (.ok (), c')) : ∃ index, mem.opts.memory = some index ∧
      c' = c.emit (loadCode ty bytes signed mem index) := by
  cases hidx : mem.opts.memory with
  | none =>
    rw [loadFrom, instruction_bind, memoryIndex, hidx] at h
    cases h
  | some index =>
    rw [loadFrom_run hidx] at h
    cases h
    exact ⟨index, rfl, rfl⟩

theorem storeTo_run {index : Nat} (h : mem.opts.memory = some index) (ty : ValType) (bytes : Nat)
    (c : Compiler) :
    storeTo ty bytes mem c = (.ok (), c.emit [.store ty bytes index mem.offset]) := by
  simp [storeTo, memoryIndex, h, Prog.unwrap]

theorem storeTo_ok {bytes : Nat} (h : storeTo ty bytes mem c = (.ok (), c')) :
    ∃ index, mem.opts.memory = some index ∧
      c' = c.emit [.store ty bytes index mem.offset] := by
  cases hidx : mem.opts.memory with
  | none =>
    rw [storeTo, memoryIndex, hidx] at h
    cases h
  | some index =>
    rw [storeTo_run hidx] at h
    cases h
    exact ⟨index, rfl, rfl⟩

theorem closed_loadCode (ty : ValType) (bytes : Nat) (signed : Bool) (mem : Memory) (index : Nat) :
    Closed (loadCode ty bytes signed mem index) := .of_flat rfl

/-! ### Temporaries -/

def Compiler.alloc (c : Compiler) (ty : ValType) : Nat × Compiler :=
  match c.freeLocals ty with
  | idx :: rest => (idx, { c with freeLocals := update c.freeLocals ty rest })
  | [] => (c.nlocals, { c with locals := c.locals ++ [ty], nlocals := c.nlocals + 1 })

def Compiler.free (c : Compiler) (l : TempLocal) : Compiler :=
  { c with freeLocals := update c.freeLocals l.ty (l.idx :: c.freeLocals l.ty) }

theorem genTempLocal_run (ty : ValType) (insn : Nat → Insn) (c : Compiler) :
    genTempLocal ty insn c =
      (.ok ⟨(c.alloc ty).1, ty⟩, (c.alloc ty).2.emit [insn (c.alloc ty).1]) := by
  cases h : c.freeLocals ty <;> simp [genTempLocal, Compiler.alloc, h]

section

variable (c : Compiler) (ty : ValType)

@[simp] theorem alloc_code : (c.alloc ty).2.code = c.code := by
  cases h : c.freeLocals ty <;> simp [Compiler.alloc, h]

@[simp] theorem alloc_debug : (c.alloc ty).2.debug = c.debug := by
  cases h : c.freeLocals ty <;> simp [Compiler.alloc, h]

@[simp] theorem alloc_fuel : (c.alloc ty).2.fuel = c.fuel := by
  cases h : c.freeLocals ty <;> simp [Compiler.alloc, h]

@[simp] theorem alloc_helperFuncs : (c.alloc ty).2.helperFuncs = c.helperFuncs := by
  cases h : c.freeLocals ty <;> simp [Compiler.alloc, h]

theorem alloc_emit (code : List Insn) :
    (c.emit code).alloc ty = ((c.alloc ty).1, (c.alloc ty).2.emit code) := by
  cases h : c.freeLocals ty <;> simp [Compiler.alloc, Compiler.emit, h]

end

structure Compiler.Ok (c : Compiler) : Prop where
  nodup : ∀ ty, (c.freeLocals ty).Nodup
  disjoint : ∀ ty ty', ty ≠ ty' → ∀ i ∈ c.freeLocals ty, i ∉ c.freeLocals ty'
  lt : ∀ ty, ∀ i ∈ c.freeLocals ty, i < c.nlocals

def Live (c : Compiler) (i : Nat) : Prop := i < c.nlocals ∧ ∀ ty, i ∉ c.freeLocals ty

section

variable {c : Compiler} {ty : ValType}

theorem Compiler.new_ok (build : Build) (debug : Bool) (nlocals : Nat) (funcs work : List Helper) :
    (Compiler.new build debug nlocals funcs work).Ok :=
  ⟨fun _ => .nil, fun _ _ _ _ hi => (by cases hi), fun _ _ hi => (by cases hi)⟩

theorem mem_update {f : ValType → List Nat} {rest : List Nat} {ty' : ValType} {i : Nat} :
    i ∈ update f ty rest ty' ↔ if ty' = ty then i ∈ rest else i ∈ f ty' := by
  by_cases h : ty' = ty
  · subst h
    simp
  · simp [h]

theorem Compiler.Ok.alloc (h : c.Ok) (ty : ValType) :
    (c.alloc ty).2.Ok ∧ Live (c.alloc ty).2 (c.alloc ty).1 ∧ ¬ Live c (c.alloc ty).1 ∧
      ∀ i, Live c i → Live (c.alloc ty).2 i := by
  cases hfree : c.freeLocals ty with
  | nil =>
    simp only [Compiler.alloc, hfree]
    refine ⟨⟨h.nodup, h.disjoint, fun t i hi => ?_⟩, ⟨?_, fun t hi => ?_⟩, ?_, ?_⟩
    · exact lt_succ_of_lt (h.lt t i hi)
    · exact lt_succ_self _
    · exact absurd (h.lt t _ hi) (Nat.lt_irrefl _)
    · exact fun hl => absurd hl.1 (Nat.lt_irrefl _)
    · exact fun i hl => ⟨lt_succ_of_lt hl.1, hl.2⟩
  | cons idx rest =>
    have hnodup := h.nodup ty
    rw [hfree, nodup_cons] at hnodup
    have hmem : idx ∈ c.freeLocals ty := by
      rw [hfree]
      exact mem_cons_self
    have hsub : ∀ t i, i ∈ update c.freeLocals ty rest t → i ∈ c.freeLocals t := by
      intro t i hi
      rw [mem_update] at hi
      split at hi
      · next heq =>
        subst heq
        rw [hfree]
        exact mem_cons_of_mem _ hi
      · exact hi
    simp only [Compiler.alloc, hfree]
    refine ⟨⟨fun t => ?_, fun t t' hne i hi hi' => ?_, fun t i hi => ?_⟩, ⟨?_, fun t hi => ?_⟩,
      ?_, ?_⟩
    · by_cases ht : t = ty
      · subst ht
        simpa using hnodup.2
      · simpa [ht] using h.nodup t
    · exact h.disjoint t t' hne i (hsub t i hi) (hsub t' i hi')
    · exact h.lt t i (hsub t i hi)
    · exact h.lt ty idx hmem
    · by_cases ht : t = ty
      · subst ht
        rw [mem_update, if_pos rfl] at hi
        exact hnodup.1 hi
      · exact h.disjoint t ty ht idx (hsub t idx hi) hmem
    · exact fun hl => hl.2 ty hmem
    · exact fun i hl => ⟨hl.1, fun t hi => hl.2 t (hsub t i hi)⟩

end

end Wasmtime.Fact
