import Wasmtime.Fact.Balanced
import Wasmtime.Base.WasmSwitch

/-!
# Discriminants

The code for a variant, an option or a result dispatches on the discriminant with a `br_table` over
a nest of blocks (`convertVariant_dispatches`). An enum has a comparison of its own, which is off by
one: the number of its names passes for a discriminant (`translateEnum_does`).

* `Dispatches`: too large a discriminant traps; otherwise the index of the case in the destination
  is written, the payload of exactly that case runs, and the nest is left.
-/

namespace Wasmtime.Fact

open Base Prog Base.Wasm List Nat
open Component hiding skip
open Environ (DiscriminantSize)

variable {H : Type}

/-! ### Discriminants at a source and at a destination -/

/-- The discriminant at a source: that of the first slot or of the memory. The slot must hold a
value of its type, the memory must have the bytes. -/
def Source.discriminant (src : Source) (debug : Bool) (size : DiscriminantSize) (m : Machine H) :
    Option Nat :=
  match src with
  | .stack [] _ => none
  | .stack ((i, slot) :: _) _ =>
    if (m.locals i).ty = slot ∧ (debug = true → slot = .i64 → (m.locals i).raw < 2 ^ 32) then
      some ((m.locals i).raw % 2 ^ 32)
    else none
  | .memory mem =>
    match mem.opts.memory with
    | none => none
    | some index =>
      let a := (m.locals mem.addr).raw + mem.offset
      if a + discriminantBytes size ≤ (m.store.mems index).size then
        some ((m.store.mems index).read a (discriminantBytes size))
      else none

def Destination.written (dst : Destination) (size : DiscriminantSize) (v : Value) (m : Machine H) :
    Option (Machine H) :=
  match dst with
  | .stack [] _ => none
  | .stack (slot :: _) _ => some (m.push (.of slot v.raw))
  | .memory mem =>
    match mem.opts.memory with
    | none => none
    | some index =>
      let a := (m.locals mem.addr).raw + mem.offset
      if a + discriminantBytes size ≤ (m.store.mems index).size then
        some (m.setMem index ((m.store.mems index).write a (discriminantBytes size) v.raw))
      else none

/-- The address of a destination in memory is pushed before what is stored there. -/
def Destination.addressed (dst : Destination) (m : Machine H) : Machine H :=
  match dst with
  | .stack _ _ => m
  | .memory mem => m.push (m.locals mem.addr)

def dstAddrCode : Destination → List Insn
  | .stack _ _ => []
  | .memory mem => [.localGet mem.addr]

theorem pushDstAddr_run (dst : Destination) (c : Compiler) :
    pushDstAddr dst c = (.ok (), c.emit (dstAddrCode dst)) := by
  cases dst with
  | stack types opts => simp [pushDstAddr, dstAddrCode]
  | memory mem => rfl

theorem dstAddrCode_closed (dst : Destination) : Closed (dstAddrCode dst) := by
  cases dst <;> exact .of_flat rfl

theorem dstAddrCode_does {env : Env Trap Callee H} (dst : Destination) (m : Machine H) :
    Does env (dstAddrCode dst) m (.ok (dst.addressed m)) := by
  cases dst with
  | stack types opts => exact .nil
  | memory mem => exact .localGet mem.addr

variable {c c' : Compiler}

theorem slice_one_ok {α : Type} {l slot : List α} (h : firstSlot l c = (.ok slot, c')) :
    ∃ x rest, l = x :: rest ∧ slot = [x] ∧ c' = c := by
  cases l with
  | nil => cases h
  | cons x rest =>
    have hslice : slice (x :: rest) 0 1 = some [x] := by simp [slice]
    rw [firstSlot, hslice] at h
    cases h
    exact ⟨x, rest, rfl, rfl, rfl⟩

theorem slice_to_end {α : Type} {l part : List α} {start : Nat}
    (h : slice l start l.length = some part) : part = l.drop start := by
  unfold slice at h
  split at h
  · cases h
    exact take_of_length_le (by rw [length_drop])
  · cases h

theorem read_lt_u32 (mem : LinearMemory) (a : Nat) (size : DiscriminantSize) :
    mem.read a (discriminantBytes size) < 2 ^ 32 := by
  have h := mem.read_lt a (discriminantBytes size)
  cases size <;> simp only [discriminantBytes] at h ⊢ <;> omega

variable {size : DiscriminantSize} {src : Source}

theorem Source.discriminant_lt {debug : Bool} {m : Machine H} {d : Nat}
    (h : src.discriminant debug size m = some d) : d < 2 ^ 32 := by
  cases src with
  | stack locals opts =>
    cases locals with
    | nil => cases h
    | cons l locals =>
      simp only [discriminant] at h
      split at h
      · cases h
        exact mod_lt _ (by positivity)
      · cases h
  | memory mem =>
    simp only [discriminant] at h
    split at h
    · cases h
    · split at h
      · cases h
        exact read_lt_u32 _ _ _
      · cases h

theorem loadDiscriminant_ok (h : loadDiscriminant src size c = (.ok (), c')) :
    ∃ code, c' = c.emit code ∧ Closed code ∧ ∀ (env : Env Trap Callee H) (m : Machine H) (d : Nat),
      src.discriminant c.debug size m = some d → Does env code m (.ok (m.push (.of .i32 d))) := by
  cases src with
  | stack locals opts =>
    obtain ⟨slot, c1, hslot, hget⟩ := bind_ok.1 h
    obtain ⟨⟨i, ty⟩, rest, rfl, rfl, rfl⟩ := slice_one_ok hslot
    obtain ⟨i', ty', heq, hfor, rfl⟩ := stackGet_ok hget
    cases heq
    refine ⟨_, rfl, closed_getCode _ _ _ _, fun env m d hd => ?_⟩
    simp only [Source.discriminant] at hd
    split at hd
    · next hcond =>
      cases hd
      have hraw : Value.of .i32 ((m.locals i).raw % 2 ^ 32) = Value.of .i32 (m.locals i).raw :=
        Value.ext_raw rfl (mod_mod _ _)
      rw [hraw]
      exact getCode_does hfor hcond.1 fun hdebug hty _ => hcond.2 hdebug (hcond.1 ▸ hty)
    · cases hd
  | memory mem =>
    have hload : loadFrom .i32 (discriminantBytes size) false mem c = (.ok (), c') := by
      cases size <;> exact h
    obtain ⟨index, hindex, rfl⟩ := loadFrom_ok hload
    refine ⟨_, rfl, closed_loadCode _ _ _ _ _, fun env m d hd => ?_⟩
    simp only [Source.discriminant, hindex] at hd
    split at hd
    · next hfit =>
      cases hd
      exact .cons (.localGet mem.addr) (.load hfit)
    · cases hd

variable {dst : Destination}

theorem storeDiscriminant_ok (h : storeDiscriminant dst size c = (.ok (), c')) :
    ∃ code, c' = c.emit code ∧ Closed code ∧
      ∀ (env : Env Trap Callee H) (m m' : Machine H) (v : Value), v.ty = .i32 →
        dst.written size v m = some m' → Does env code ((dst.addressed m).push v) (.ok m') := by
  cases dst with
  | stack types opts =>
    obtain ⟨slot, c1, hslot, hset⟩ := bind_ok.1 h
    obtain ⟨ty, rest, rfl, rfl, rfl⟩ := slice_one_ok hslot
    obtain ⟨ty', heq, hfor, rfl⟩ := stackSet_ok hset
    cases heq
    refine ⟨_, rfl, closed_setCode _ _, fun env m m' v hv hm' => ?_⟩
    cases hm'
    exact setCode_does hfor hv
  | memory mem =>
    have hstore : storeTo .i32 (discriminantBytes size) mem c = (.ok (), c') := by
      cases size <;> exact h
    obtain ⟨index, hindex, rfl⟩ := storeTo_ok hstore
    refine ⟨_, rfl, .of_flat rfl, fun env m m' v hv hm' => ?_⟩
    simp only [Destination.written, hindex] at hm'
    split at hm'
    · next hfit =>
      cases hm'
      exact .store hv hfit
    · cases hm'

/-! ### The code of a case -/

def padTypes (dst dstPayload : Destination) : List ValType :=
  match dstPayload, dst with
  | .stack results _, .stack types _ => (types.drop 1).drop results.length
  | _, _ => []

theorem padPayload_ok {dst dstPayload : Destination}
    (h : padPayload dst dstPayload c = (.ok (), c')) :
    c' = c.emit ((padTypes dst dstPayload).map fun ty => .const ty 0) := by
  match dstPayload, dst, h with
  | .stack results opts, .stack types opts', h =>
    obtain ⟨rest, c1, hrest, h1⟩ := bind_ok.1 h
    obtain ⟨remaining, c2, hremaining, h2⟩ := bind_ok.1 h1
    obtain ⟨hrest', rfl⟩ := unwrap_ok.1 hrest
    obtain ⟨hremaining', rfl⟩ := unwrap_ok.1 hremaining
    obtain rfl := slice_to_end hrest'
    obtain rfl := slice_to_end hremaining'
    rw [forM_instruction] at h2
    cases h2
    rfl
  | .stack results opts, .memory mem, h =>
    cases h
    simp [padTypes]
  | .memory mem, .stack types opts, h =>
    cases h
    simp [padTypes]
  | .memory mem, .memory mem', h =>
    cases h
    simp [padTypes]

theorem pad_does {env : Env Trap Callee H} (types : List ValType) (m : Machine H) :
    Does env (types.map fun ty => .const ty 0) m
      (.ok (m.pushAll (types.map fun ty => .of ty 0))) := by
  induction types generalizing m with
  | nil => exact .nil
  | cons ty types ih =>
    refine .cons (.const ty 0) ?_
    rw [map_cons, ← singleton_append, Machine.pushAll_append]
    exact ih _

theorem written_height {dst dstPayload : Destination} {info : VariantInfo}
    {case : Option InterfaceType} {v : Value} {m m1 : Machine H}
    (hp : dst.payloadDst info case = some dstPayload) (hw : dst.written size v m = some m1) :
    m1.stack.length + blockArity dstPayload + (padTypes dst dstPayload).length =
      blockArity dst + m.stack.length := by
  cases dst with
  | memory mem =>
    cases hp
    have hstack : m1.stack = m.stack := by
      simp only [Destination.written] at hw
      split at hw
      · cases hw
      · split at hw
        · cases hw
          rfl
        · cases hw
    rw [hstack]
    simp [blockArity, padTypes]
  | stack types opts =>
    cases types with
    | nil => cases hw
    | cons slot rest =>
      cases hw
      have hrest : slice (slot :: rest) 1 (slot :: rest).length = some rest := by
        simp [slice]
      simp only [Destination.payloadDst, hrest] at hp
      obtain ⟨part, hpart, rfl⟩ := Option.map_eq_some_iff.1 hp
      unfold slice at hpart
      split at hpart
      · next hle =>
        cases hpart
        simp only [blockArity, padTypes, Machine.push_stack, length_cons, drop_succ_cons,
          drop_zero, length_drop, length_take, Nat.sub_zero]
        omega
      · cases hpart

/-- The code of a case, within its block: the index is written, the payload is translated, and the
slots that are left get zeros. -/
structure CaseCode (H : Type) (src : Source) (srcInfo : VariantInfo) (dst : Destination)
    (dstInfo : VariantInfo) (case : VariantCase) (dstPayload : Destination)
    (payload body : List Insn) : Prop where
  place : dst.payloadDst dstInfo case.dstTy = some dstPayload
  /-- The code of the payload is what its translation has emitted. -/
  emitted : ∃ srcPayload c c', src.payloadSrc srcInfo (case.srcTy.map (·.ty)) = some srcPayload ∧
    translatePayload case srcPayload dstPayload c = (.ok (), c') ∧ c'.code = c.code ++ payload
  parts : ∃ write : List Insn, body = write ++ (payload ++
      (padTypes dst dstPayload).map fun ty => .const ty 0) ∧
    ∀ (env : Env Trap Callee H) (m m1 : Machine H),
      dst.written dstInfo.size (.of .i32 case.dstI) m = some m1 → Does env write m (.ok m1)
  closed : Closed body

section

variable {src : Source} {srcInfo : VariantInfo} {dst : Destination} {dstInfo : VariantInfo}

theorem branchOut_run (count srcI : Nat) (c : Compiler) : branchOut count srcI c =
    (.ok (), c.emit (if srcI ≠ count - 1 then [.br (count - srcI - 1)] else [])) := by
  unfold branchOut
  split
  · rfl
  · rw [emit_nil]
    rfl

variable {c c' : Compiler}

theorem convertCase_ok {count : Nat} {case : VariantCase}
    (hflat : ∀ t, case.srcTy = some t → t.translate.Flat)
    (h : convertCase src srcInfo dst dstInfo count case c = (.ok (), c')) :
    ∃ dstPayload payload body, CaseCode H src srcInfo dst dstInfo case dstPayload payload body ∧
      c'.code = c.code ++ (body ++
        (if case.srcI ≠ count - 1 then [.br (count - case.srcI - 1)] else []) ++ [.end_]) := by
  unfold convertCase at h
  rw [run_bind_ok (pushDstAddr_run dst c), instruction_bind] at h
  obtain ⟨_, _, hdisc, h⟩ := bind_ok.1 h
  obtain ⟨store, rfl, hstore, hdoes⟩ := storeDiscriminant_ok (H := H) hdisc
  obtain ⟨srcPayload, hsrc, h⟩ := unwrap_bind_ok.1 h
  obtain ⟨dstPayload, hdst, h⟩ := unwrap_bind_ok.1 h
  obtain ⟨_, c1, htranslate, h⟩ := bind_ok.1 h
  have hpayload := translatePayload_flat hflat srcPayload dstPayload 0
  obtain ⟨payload, hcode, hclosed⟩ := hpayload.code htranslate
  obtain ⟨_, _, hpad, h⟩ := bind_ok.1 h
  obtain rfl := padPayload_ok hpad
  rw [run_bind_ok (branchOut_run ..)] at h
  cases h
  refine ⟨dstPayload, payload, _, ⟨hdst, ⟨srcPayload, _, c1, hsrc, htranslate, hcode⟩,
    ⟨dstAddrCode dst ++ ([.const .i32 case.dstI] ++ store), rfl, fun env m m1 hm1 => ?_⟩, ?_⟩, ?_⟩
  · exact (dstAddrCode_does dst m).append
      ((Does.const .i32 case.dstI).append (hdoes env m m1 _ rfl hm1))
  · refine ((dstAddrCode_closed dst).append (.append (.of_flat rfl) hstore)).append
      (hclosed.closed.append (.of_flat ?_))
    rw [all_map, all_eq_true]
    exact fun ty _ => rfl
  · simp only [emit_code, hcode, append_assoc]

variable {cases : List VariantCase}

variable (hflat : ∀ case ∈ cases, ∀ t, case.srcTy = some t → t.translate.Flat)
include hflat

theorem convertCases_ok {count i : Nat}
    (hidx : ∀ (j : Nat) (case : VariantCase), cases[j]? = some case → case.srcI = i + j)
    (h : cases.forM (convertCase src srcInfo dst dstInfo count) c = (.ok (), c')) :
    ∃ bodies, c'.code = c.code ++ caseCodes count i bodies ∧ bodies.length = cases.length ∧
      ∀ (j : Nat) (case : VariantCase), cases[j]? = some case → ∃ dstPayload payload body,
        bodies[j]? = some body ∧
          CaseCode H src srcInfo dst dstInfo case dstPayload payload body := by
  induction cases generalizing i c with
  | nil =>
    cases h
    exact ⟨[], (append_nil _).symm, rfl, fun j case hj => by cases hj⟩
  | cons case cases ih =>
    obtain ⟨_, c1, h1, h2⟩ := bind_ok.1 h
    obtain ⟨dstPayload, payload, body, hcase, hcode⟩ :=
      convertCase_ok (H := H) (hflat case mem_cons_self) h1
    obtain ⟨bodies, hcode', hlen, hrest⟩ := ih (i := i + 1)
      (fun case' hcase' => hflat case' (mem_cons_of_mem _ hcase'))
      (fun j case' hj => by
        have := hidx (j + 1) case' hj
        omega) h2
    have hi : case.srcI = i := hidx 0 case rfl
    refine ⟨body :: bodies, ?_, by rw [length_cons, length_cons, hlen], ?_⟩
    · rw [hcode', hcode, hi, caseCodes]
      simp only [append_assoc, cons_append, nil_append]
    · intro j case' hj
      cases j with
      | zero =>
        cases hj
        exact ⟨dstPayload, payload, body, rfl, hcase⟩
      | succ j => exact hrest j case' hj

theorem convertVariant_ok
    (hidx : ∀ (j : Nat) (case : VariantCase), cases[j]? = some case → case.srcI = j)
    (h : convertVariant src srcInfo dst dstInfo cases c = (.ok (), c')) :
    ∃ index bodies, c'.code = c.code ++
        switchCode (blockArity dst) index Trap.invalidDiscriminant bodies ∧
      bodies.length = cases.length ∧ Closed index ∧
      (∀ (env : Env Trap Callee H) (m : Machine H) (d : Nat),
        src.discriminant c.debug srcInfo.size m = some d →
          Does env index m (.ok (m.push (.of .i32 d)))) ∧
      ∀ (j : Nat) (case : VariantCase), cases[j]? = some case → ∃ dstPayload payload body,
        bodies[j]? = some body ∧
          CaseCode H src srcInfo dst dstInfo case dstPayload payload body := by
  unfold convertVariant at h
  rw [instruction_bind] at h
  obtain ⟨hpos, h⟩ := assert_bind_ok.1 h
  rw [run_bind_ok (forM_instruction ..), instruction_bind, instruction_bind] at h
  obtain ⟨_, _, hload, h⟩ := bind_ok.1 h
  obtain ⟨index, rfl, hclosed, hdoes⟩ := loadDiscriminant_ok (H := H) hload
  rw [instruction_bind, instruction_bind, trap_bind, instruction_bind] at h
  obtain ⟨-, hloop⟩ := assert_bind_ok.1 h
  obtain ⟨bodies, hcode, hlen, hcases⟩ := convertCases_ok (H := H) (i := 0) hflat
    (fun j case hj => by rw [hidx j case hj, Nat.zero_add]) hloop
  refine ⟨index, bodies, ?_, hlen, hclosed, fun env m d hd => hdoes env m d hd, hcases⟩
  rw [hcode, switchCode, switchBody, hlen]
  have hpos' : cases.length ≠ 0 := of_decide_eq_true hpos
  have hblocks : (List.range (cases.length - 1)).map (fun _ => (Instr.block 0 : Insn)) ++
      [.block 0, .block 0] = List.replicate (cases.length + 1) (.block 0) := by
    rw [map_const', length_range,
      show [Instr.block 0, Instr.block 0] = List.replicate 2 (Instr.block 0 : Insn) from rfl,
      replicate_append_replicate, show cases.length - 1 + 2 = cases.length + 1 by omega]
  rw [← hblocks]
  change (((((((((c.code ++ [_]) ++ _) ++ [_]) ++ [_]) ++ _) ++ [_]) ++ [_]) ++ [_]) ++ [_]) ++ _ =
    _
  simp only [append_assoc, cons_append, nil_append]

omit hflat

/-! ### Dispatch -/

/-- Running the code gets to the code of a payload in the machine `m1`, and when that has been
run, its results and some more values are what is left. -/
def RunsPayload (env : Env Trap Callee H) (code payload : List Insn) (results : Nat)
    (pad : List Value) (m m1 : Machine H) : Prop :=
  ∀ k labels frames, ∃ k' labels',
    Steps env (.running (code ++ k) labels frames m) (.running (payload ++ k') labels' frames m1) ∧
    ∀ m2 : Machine H, m2.stack.length = m1.stack.length + results →
      Steps env (.running k' labels' frames m2) (.running k labels frames (m2.pushAll pad))

def PayloadCode (src : Source) (srcInfo : VariantInfo) (case : VariantCase)
    (dstPayload : Destination) (payload : List Insn) : Prop :=
  ∃ srcPayload c c', src.payloadSrc srcInfo (case.srcTy.map (·.ty)) = some srcPayload ∧
    translatePayload case srcPayload dstPayload c = (.ok (), c') ∧ c'.code = c.code ++ payload

/-- **Dispatch**: a discriminant that is not smaller than the number of cases traps; with any
other one the index of its case is written to the destination, and the translation of the payload
of that case runs. -/
structure Dispatches (H : Type) (src : Source) (srcInfo : VariantInfo) (dst : Destination)
    (dstInfo : VariantInfo) (cases : List VariantCase) (debug : Bool) (code : List Insn) :
    Prop where
  invalid : ∀ (env : Env Trap Callee H) (m : Machine H) (d : Nat),
    src.discriminant debug srcInfo.size m = some d → cases.length ≤ d →
      Does env code m (.trap (.code .invalidDiscriminant))
  valid : ∀ (d : Nat) (case : VariantCase), cases[d]? = some case → ∃ dstPayload payload,
    dst.payloadDst dstInfo case.dstTy = some dstPayload ∧
    PayloadCode src srcInfo case dstPayload payload ∧
    ∀ (env : Env Trap Callee H) (m m1 : Machine H), src.discriminant debug srcInfo.size m = some d →
      dst.written dstInfo.size (.of .i32 case.dstI) m = some m1 →
        RunsPayload env code payload (blockArity dstPayload)
          ((padTypes dst dstPayload).map fun ty => .of ty 0) m m1

theorem convertVariant_dispatches
    (hflat : ∀ case ∈ cases, ∀ t, case.srcTy = some t → t.translate.Flat)
    (hidx : ∀ (j : Nat) (case : VariantCase), cases[j]? = some case → case.srcI = j)
    (h : convertVariant src srcInfo dst dstInfo cases c = (.ok (), c')) :
    ∃ code, c'.code = c.code ++ code ∧ Closed code ∧
      Dispatches H src srcInfo dst dstInfo cases c.debug code := by
  obtain ⟨index, bodies, hcode, hlen, hclosed, hindex, hcases⟩ :=
    convertVariant_ok (H := H) hflat hidx h
  have hbodies : ∀ body ∈ bodies, Closed body := by
    intro body hbody
    obtain ⟨j, hj⟩ := mem_iff_getElem?.1 hbody
    have hlt : j < cases.length := by
      rw [← hlen]
      exact (List.getElem?_eq_some_iff.1 hj).1
    obtain ⟨_, _, body', hbody', hcase⟩ := hcases j _ (getElem?_eq_getElem hlt)
    rw [hj] at hbody'
    cases hbody'
    exact hcase.closed
  have hraw : ∀ {m : Machine H} {d : Nat}, src.discriminant c.debug srcInfo.size m = some d →
      (Value.of .i32 d).raw = d := fun hd => mod_eq_of_lt (Source.discriminant_lt hd)
  refine ⟨_, hcode, closed_switchCode _ hclosed hbodies, fun env m d hd hle => ?_, ?_⟩
  · refine switch_invalid _ (hindex env m d hd) ?_ hclosed
    rw [hraw hd, hlen]
    exact hle
  · intro d case hcase
    obtain ⟨dstPayload, payload, body, hbody, hc⟩ := hcases d case hcase
    obtain ⟨write, rfl, hwrite⟩ := hc.parts
    refine ⟨dstPayload, payload, hc.place, hc.emitted, fun env m m1 hd hm1 k labels frames => ?_⟩
    obtain ⟨hlt, hget⟩ := List.getElem?_eq_some_iff.1 hbody
    obtain ⟨k', labels', hsteps, hexit⟩ := switch_enter (blockArity dst)
      (hindex env m d hd) (by rw [hraw hd]; exact hlt) hclosed hbodies k labels frames
    simp only [hraw hd, hget, append_assoc] at hsteps
    refine ⟨_, labels', hsteps.trans (hwrite env m m1 hm1 _ labels' frames _ rfl), ?_⟩
    intro m2 hm2
    refine (pad_does _ m2 k' labels' frames _ rfl).trans (hexit _ ?_)
    have := written_height hc.place hm1
    simp only [Machine.pushAll_stack, length_append, length_reverse, length_map]
    omega

end

/-! ### Enums -/

/-- The local with the address of a destination is not handed out as a temporary. -/
def Destination.Held (dst : Destination) (c : Compiler) : Prop :=
  match dst with
  | .stack _ _ => True
  | .memory mem => Live c mem.addr

theorem Destination.written_setLocal {c : Compiler} (hdst : dst.Held c) {t : Nat} (ht : ¬ Live c t)
    {v w : Value} {m m1 : Machine H} (h : dst.written size v m = some m1) :
    dst.written size v (m.setLocal t w) = some (m1.setLocal t w) := by
  cases dst with
  | stack types opts =>
    cases types with
    | nil => cases h
    | cons slot rest =>
      cases h
      rfl
  | memory mem =>
    have hne : mem.addr ≠ t := fun heq => ht (heq ▸ hdst)
    have haddr : (m.setLocal t w).locals mem.addr = m.locals mem.addr := if_neg hne
    simp only [written, haddr] at h ⊢
    split at h
    · cases h
    · split at h
      · next hfit =>
        cases h
        exact if_pos hfit
      · cases h

/-- The debug assertions: an index stands for the same name on both sides. -/
theorem translateEnum_names {names dstNames : List String}
    (h : translateEnum names src (.enum dstNames) dst c = (.ok (), c'))
    (hdebug : c.build.debugAssertions = true) : names = dstNames := by
  unfold translateEnum at h
  dsimp only at h
  rw [run_get_bind] at h
  obtain ⟨-, h⟩ := debugAssert_bind_ok.1 h
  obtain ⟨hcount, h⟩ := debugAssert_bind_ok.1 h
  obtain ⟨hall, -⟩ := debugAssert_bind_ok.1 h
  refine forall₂_eq_eq_eq ▸ forall₂_iff_zip.2 ⟨of_decide_eq_true (hcount hdebug), fun hmem => ?_⟩
  exact of_decide_eq_true (all_eq_true.1 (hall hdebug) _ hmem)

theorem translateEnum_does {names dstNames : List String} (hok : c.Ok) (hdst : dst.Held c)
    (h : translateEnum names src (.enum dstNames) dst c = (.ok (), c')) :
    ∃ code, c'.code = c.code ++ code ∧
      ∀ (env : Env Trap Callee H) (m : Machine H) (d : Nat),
        src.discriminant c.debug (discriminantSize names.length) m = some d →
        (names.length < d → Does env code m (.trap (.code .invalidDiscriminant))) ∧
        (d ≤ names.length → ∀ m1,
          dst.written (discriminantSize dstNames.length) (.of .i32 d) m = some m1 →
            ∃ m', Does env code m (.ok m') ∧ m'.stack = m1.stack ∧ m'.store = m1.store) := by
  unfold translateEnum at h
  dsimp only at h
  rw [run_get_bind] at h
  obtain ⟨-, h⟩ := debugAssert_bind_ok.1 h
  obtain ⟨-, h⟩ := debugAssert_bind_ok.1 h
  obtain ⟨-, h⟩ := debugAssert_bind_ok.1 h
  obtain ⟨_, _, hload, h⟩ := bind_ok.1 h
  obtain ⟨index, rfl, -, hindex⟩ := loadDiscriminant_ok (H := H) hload
  rw [localTeeNewTmp, run_bind_ok (genTempLocal_run ..), alloc_emit] at h
  obtain ⟨hlen, h⟩ := assert_bind_ok.1 h
  have hlen' : names.length < 2 ^ 31 := of_decide_eq_true hlen
  rw [instruction_bind, instruction_bind, instruction_bind, trap_bind, instruction_bind,
    run_bind_ok (pushDstAddr_run ..), instruction_bind] at h
  obtain ⟨_, _, hsave, h⟩ := bind_ok.1 h
  obtain ⟨store, rfl, -, hstore⟩ := storeDiscriminant_ok (H := H) hsave
  cases h
  obtain ⟨t, ht⟩ : ∃ t, t = (c.alloc .i32).1 := ⟨_, rfl⟩
  have hnew : ¬ Live c t := ht ▸ (hok.alloc .i32).2.2.1
  refine ⟨index ++ ([.localTee t, .const .i32 names.length, .rel .i32 .gtU] ++
    ((.ifNonzero :: ([.unreachable .invalidDiscriminant] ++ [.end_])) ++
      (dstAddrCode dst ++ (.localGet t :: store)))), ?_, fun env m d hd => ?_⟩
  · rw [← ht]
    simp
  · have hdlt := Source.discriminant_lt hd
    have hv : (Value.of .i32 d).raw = d := mod_eq_of_lt hdlt
    have hn : (Value.of .i32 names.length).raw = names.length :=
      mod_eq_of_lt (Nat.lt_trans hlen' (by decide))
    have hclosed : Closed ([.unreachable Trap.invalidDiscriminant] : List Insn) := .of_flat rfl
    have htest : Does env [.localTee t, .const .i32 names.length, .rel .i32 .gtU]
        (m.push (.of .i32 d)) (.ok ((m.setLocal t (.of .i32 d)).push
          (.of .i32 (decide (names.length < d)).toNat))) := by
      refine .cons (.localTee t) (.cons (.const .i32 _) ?_)
      have hrel : Does env [.rel .i32 .gtU]
          (((m.setLocal t (.of .i32 d)).push (.of .i32 d)).push (.of .i32 names.length))
          (.ok ((m.setLocal t (.of .i32 d)).push (.of .i32 (RelOp.gtU.eval (Value.of .i32 d).raw
            (Value.of .i32 names.length).raw).toNat))) := .rel rfl rfl
      rw [hv, hn] at hrel
      exact hrel
    constructor
    · intro hlt
      refine (hindex env m d hd).append (htest.append (Does.trap ?_))
      rw [decide_eq_true hlt]
      exact Does.ifNonzero (by decide) hclosed (.unreachable _)
    · intro hle m1 hm1
      refine ⟨m1.setLocal t (.of .i32 d), ?_, rfl, rfl⟩
      have hpass : Does env (.ifNonzero :: ([.unreachable .invalidDiscriminant] ++ [.end_]))
          ((m.setLocal t (.of .i32 d)).push (.of .i32 (decide (names.length < d)).toNat))
          (.ok (m.setLocal t (.of .i32 d))) := by
        rw [decide_eq_false (Nat.not_lt.2 hle)]
        exact .skipIf rfl hclosed
      have hget : Does env [.localGet t] (dst.addressed (m.setLocal t (.of .i32 d)))
          (.ok ((dst.addressed (m.setLocal t (.of .i32 d))).push (.of .i32 d))) := by
        have hlocal : (dst.addressed (m.setLocal t (.of .i32 d))).locals t = .of .i32 d := by
          cases dst <;> exact if_pos rfl
        have hget : Does env [.localGet t] (dst.addressed (m.setLocal t (.of .i32 d)))
            (.ok ((dst.addressed (m.setLocal t (.of .i32 d))).push
              ((dst.addressed (m.setLocal t (.of .i32 d))).locals t))) := .localGet t
        rwa [hlocal] at hget
      refine (hindex env m d hd).append (htest.append (hpass.append
        ((dstAddrCode_does dst _).append (hget.append ?_))))
      exact hstore env _ _ _ rfl (dst.written_setLocal hdst hnew hm1)

/-! ### All types with a discriminant -/

/-- Each case of the source, with the translation of its payload, and the case of the destination
that has its name. -/
def SameNames (translateString : Translator) (cases dstCases : List (String × Option InterfaceType))
    (all : List VariantCase) : Prop :=
  all.length = cases.length ∧ ∀ (i : Nat) (case : VariantCase), all[i]? = some case →
    ∃ a b, cases[i]? = some a ∧ dstCases.findIdx? (·.1 = a.1) = some case.dstI ∧
      dstCases[case.dstI]? = some b ∧
      case = ⟨i, a.2.map (srcType translateString), case.dstI, b.2⟩

/-- An enum is rejected if it has no name for the discriminant, which is written otherwise. -/
def EnumRejects (env : Env Trap Callee H) (code : List Insn) (count d : Nat) (m m1 : Machine H) :
    Prop :=
  (count ≤ d → Does env code m (.trap (.code .invalidDiscriminant))) ∧
    (d < count → ∃ m', Does env code m (.ok m') ∧ m'.stack = m1.stack ∧ m'.store = m1.store)

theorem translateVariant_dispatches {translateString : Translator} (hstring : translateString.Flat)
    {cases dstCases : List (String × Option InterfaceType)}
    (h : translateVariant (srcCases translateString cases) src (.variant dstCases) dst c =
      (.ok (), c')) :
    ∃ all code, SameNames translateString cases dstCases all ∧ c'.code = c.code ++ code ∧
      Dispatches H src (variantInfo (cases.map (·.2))) dst (variantInfo (dstCases.map (·.2))) all
        c.debug code := by
  obtain ⟨all, hall', hrun⟩ := unwrap_bind_ok.1 h
  rw [srcCases_eq] at hall' hrun
  obtain ⟨hlen, hspec⟩ := variantCases_spec hall'
  have hsame : SameNames translateString cases dstCases all := by
    refine ⟨by rw [hlen, length_map], fun i case hi => ?_⟩
    obtain ⟨x, hx, hsrcI, hty, hidx, b, hb, hdstTy⟩ := hspec i case hi
    rw [getElem?_map] at hx
    obtain ⟨a, ha, rfl⟩ := Option.map_eq_some_iff.1 hx
    obtain ⟨srcI, srcTy, dstI, dstTy⟩ := case
    obtain rfl : srcI = i := hsrcI.trans (Nat.zero_add i)
    obtain rfl : srcTy = a.2.map (srcType translateString) := hty
    obtain rfl : dstTy = b.2 := hdstTy
    exact ⟨a, b, ha, hidx, hb, rfl⟩
  have hinfo : (cases.map fun a => (a.1, a.2.map (srcType translateString))).map
      (fun a => a.2.map (·.ty)) = cases.map (·.2) := by
    rw [map_map]
    refine map_congr_left fun a _ => ?_
    cases ha : a.2 <;> simp [ha, srcType]
  rw [hinfo] at hrun
  obtain ⟨code, hcode, -, hd⟩ := convertVariant_dispatches (H := H)
    (fun case hmem t ht => by
      obtain ⟨i, hi⟩ := mem_iff_getElem?.1 hmem
      obtain ⟨a, b, -, -, -, heq⟩ := hsame.2 i case hi
      rw [heq] at ht
      obtain ⟨u, -, rfl⟩ := Option.map_eq_some_iff.1 ht
      exact translate_flat hstring u)
    (fun i case hi => by
      obtain ⟨a, b, -, -, -, heq⟩ := hsame.2 i case hi
      rw [heq]) hrun
  exact ⟨all, code, hsame, hcode, hd⟩

/-- The two cases of an option or a result are those of the destination. -/
theorem convertPair_dispatches {translateString : Translator} (hstring : translateString.Flat)
    {a b a' b' : Option InterfaceType}
    (h : convertVariant src (variantInfo [a, b]) dst (variantInfo [a', b'])
      [⟨0, a.map (srcType translateString), 0, a'⟩, ⟨1, b.map (srcType translateString), 1, b'⟩] c =
      (.ok (), c')) :
    ∃ code, c'.code = c.code ++ code ∧ Dispatches H src (variantInfo [a, b]) dst
      (variantInfo [a', b']) [⟨0, a.map (srcType translateString), 0, a'⟩,
        ⟨1, b.map (srcType translateString), 1, b'⟩] c.debug code := by
  obtain ⟨code, hcode, -, hd⟩ := convertVariant_dispatches (H := H)
    (fun case hmem t ht => by
      rcases mem_cons.1 hmem with rfl | hmem
      · obtain ⟨u, -, rfl⟩ := Option.map_eq_some_iff.1 ht
        exact translate_flat hstring u
      · rw [mem_singleton.1 hmem] at ht
        obtain ⟨u, -, rfl⟩ := Option.map_eq_some_iff.1 ht
        exact translate_flat hstring u)
    (fun i case hi => by
      match i, hi with
      | 0, hi => cases hi; rfl
      | 1, hi => cases hi; rfl) h
  exact ⟨code, hcode, hd⟩

/-- **Discriminants are rejected exactly if they are invalid**, in variants, options and results,
and in an enum exactly if the discriminant is not the number of its names. -/
theorem discriminants_rejected_iff {translateString : Translator}
    (hstring : ∀ src dstTy dst, Flat (translateString src dstTy dst)) :
    (∀ cases dstCases src dst c c',
      translateVariant (srcCases translateString cases) src (.variant dstCases) dst c =
        (.ok (), c') →
      ∃ all code, SameNames translateString cases dstCases all ∧ c'.code = c.code ++ code ∧
        Dispatches H src (variantInfo (cases.map (·.2))) dst (variantInfo (dstCases.map (·.2))) all
          c.debug code) ∧
    (∀ ty dstTy src dst c c',
      translateOption (srcType translateString ty) src (.option dstTy) dst c = (.ok (), c') →
      ∃ code, c'.code = c.code ++ code ∧
        Dispatches H src (variantInfo [none, some ty]) dst (variantInfo [none, some dstTy])
          [⟨0, none, 0, none⟩, ⟨1, some (srcType translateString ty), 1, some dstTy⟩] c.debug
          code) ∧
    (∀ ok err dstOk dstErr src dst c c',
      translateResult (ok.map (srcType translateString)) (err.map (srcType translateString)) src
        (.result dstOk dstErr) dst c = (.ok (), c') →
      ∃ code, c'.code = c.code ++ code ∧
        Dispatches H src (variantInfo [ok, err]) dst (variantInfo [dstOk, dstErr])
          [⟨0, ok.map (srcType translateString), 0, dstOk⟩,
            ⟨1, err.map (srcType translateString), 1, dstErr⟩] c.debug code) ∧
    (∀ names dstNames src dst c c', c.Ok → Destination.Held dst c →
      translateEnum names src (.enum dstNames) dst c = (.ok (), c') →
      (c.build.debugAssertions = true → names = dstNames) ∧
      ∃ code, c'.code = c.code ++ code ∧ ∀ (env : Env Trap Callee H) (m m1 : Machine H) (d : Nat),
          src.discriminant c.debug (discriminantSize names.length) m = some d →
          dst.written (discriminantSize dstNames.length) (.of .i32 d) m = some m1 →
          (EnumRejects env code names.length d m m1 ↔ d ≠ names.length)) := by
  refine ⟨?_, ?_, ?_, ?_⟩
  · intro cases dstCases src dst c c' h
    exact translateVariant_dispatches hstring h
  · intro ty dstTy src dst c c' h
    exact convertPair_dispatches hstring (a := none) (b := some ty) h
  · intro ok err dstOk dstErr src dst c c' h
    have hty : ∀ o : Option InterfaceType,
        (o.map (srcType translateString)).map (·.ty) = o := by
      intro o
      cases o <;> rfl
    change convertVariant src (variantInfo [(ok.map (srcType translateString)).map (·.ty),
      (err.map (srcType translateString)).map (·.ty)]) dst _ _ c = _ at h
    rw [hty, hty] at h
    exact convertPair_dispatches hstring h
  · intro names dstNames src dst c c' hok hdst h
    obtain ⟨code, hcode, hdoes⟩ := translateEnum_does (H := H) hok hdst h
    refine ⟨translateEnum_names h, code, hcode, fun env m m1 d hd hm1 => ?_⟩
    obtain ⟨htrap, hwrite⟩ := hdoes env m d hd
    constructor
    · rintro hr rfl
      obtain ⟨m', hm', -⟩ := hwrite le_rfl m1 hm1
      exact hm'.not_trap (hr.1 le_rfl)
    · intro hne
      exact ⟨fun hle => htrap (by omega), fun hlt => hwrite (by omega) m1 hm1⟩

def oneLocal (v : Value) : Machine Unit := ⟨[], fun _ => v, ⟨fun _ => ⟨0, fun _ => 0⟩, ()⟩⟩

def noFunctions : Env Trap Callee Unit := fun _ => .host 0 fun _ s => .ok ([], s)

def plainOptions : Options := ⟨.utf8, false, some 0, none⟩

def noStrings : Translator := fun _ _ _ => pure ()

def stackSource : Source := .stack [(0, .i32), (1, .i32)] plainOptions

def stackDestination : Destination := .stack [.i32, .i32] plainOptions

def newCompiler : Compiler := .new ⟨true, true⟩ false 2 [] []

/-- Types with two cases each: the discriminant 2 traps, and 1 is that of the second case, which is
the first one in the destination of the variant. -/
theorem discriminants_rejected_two : ∃ variant option result enum,
    (translateVariant (srcCases noStrings [("a", none), ("b", some (.scalar .u32))]) stackSource
      (.variant [("b", some (.scalar .u32)), ("a", none)]) stackDestination newCompiler).2.code =
        variant ∧
    (translateOption (srcType noStrings (.scalar .u32)) stackSource (.option (.scalar .u32))
      stackDestination newCompiler).2.code = option ∧
    (translateResult none (some (srcType noStrings (.scalar .u32))) stackSource
      (.result none (some (.scalar .u32))) stackDestination newCompiler).2.code = result ∧
    (translateEnum ["a", "b"] stackSource (.enum ["a", "b"]) stackDestination newCompiler).2.code =
      enum ∧
    (∀ code ∈ [variant, option, result],
      Does noFunctions code (oneLocal (.of .i32 2)) (.trap (.code .invalidDiscriminant))) ∧
    (∃ payload, RunsPayload noFunctions variant payload 1 [] (oneLocal (.of .i32 1))
      ((oneLocal (.of .i32 1)).push (.of .i32 0))) ∧
    EnumRejects noFunctions enum 2 1 (oneLocal (.of .i32 1))
      ((oneLocal (.of .i32 1)).push (.of .i32 1)) := by
  have hflat : ∀ (src : Source) (dstTy : InterfaceType) (dst : Destination),
      Flat (noStrings src dstTy dst) := fun _ _ _ _ => .pure ()
  obtain ⟨hvariant, hoption, hresult, henum⟩ := discriminants_rejected_iff (H := Unit) hflat
  obtain ⟨all, variant, ⟨hlen, hall⟩, hcode, hv⟩ := hvariant
    [("a", none), ("b", some (.scalar .u32))] [("b", some (.scalar .u32)), ("a", none)] stackSource
    stackDestination newCompiler _ (Prod.ext (by with_unfolding_all rfl) rfl)
  obtain ⟨option, hcode1, ho⟩ := hoption (.scalar .u32) (.scalar .u32) stackSource stackDestination
    newCompiler _ (Prod.ext (by with_unfolding_all rfl) rfl)
  obtain ⟨result, hcode2, hr⟩ := hresult none (some (.scalar .u32)) none (some (.scalar .u32))
    stackSource stackDestination newCompiler _ (Prod.ext (by with_unfolding_all rfl) rfl)
  obtain ⟨-, enum, hcode3, he⟩ := henum ["a", "b"] ["a", "b"] stackSource stackDestination
    newCompiler _ (Compiler.new_ok _ _ _ _ _) trivial rfl
  refine ⟨variant, option, result, enum, hcode, hcode1, hcode2, hcode3, ?_, ?_, ?_⟩
  · intro code hmem
    simp only [mem_cons, not_mem_nil, or_false] at hmem
    rcases hmem with rfl | rfl | rfl
    · exact hv.invalid noFunctions _ 2 (by decide) (by simp [hlen])
    · exact ho.invalid noFunctions _ 2 (by decide) le_rfl
    · exact hr.invalid noFunctions _ 2 (by decide) le_rfl
  · obtain ⟨case, hcase⟩ : ∃ case, all[1]? = some case :=
      ⟨_, getElem?_eq_getElem (by rw [hlen]; decide)⟩
    obtain ⟨a, b, ha, hidx, hb, heq⟩ := hall 1 case hcase
    cases ha
    have hdst : case.dstI = 0 := (Option.some.inj hidx).symm
    rw [hdst] at hb heq
    cases hb
    obtain ⟨dstPayload, payload, hdstPayload, -, hruns⟩ := hv.valid 1 case hcase
    rw [heq] at hdstPayload hruns
    cases hdstPayload
    exact ⟨payload, hruns noFunctions _ _ (by decide) rfl⟩
  · exact (he noFunctions (oneLocal (.of .i32 1)) _ 1 (by decide) rfl).2 (by decide)

/-- Of an enum with one name the discriminant 1 is written too. -/
theorem enum_accepts_count :
    ∃ code, (translateEnum ["a"] (.stack [(0, .i32)] plainOptions) (.enum ["a"])
        (.stack [.i32] plainOptions) (.new ⟨true, true⟩ false 1 [] [])).2.code = code ∧
      (Source.stack [(0, .i32)] plainOptions).discriminant false (discriminantSize 1)
        (oneLocal (.of .i32 1)) = some 1 ∧
      (∃ m', Does noFunctions code (oneLocal (.of .i32 1)) (.ok m') ∧ m'.stack = [.of .i32 1]) ∧
      ¬ Does noFunctions code (oneLocal (.of .i32 1)) (.trap (.code .invalidDiscriminant)) := by
  have hd : (Source.stack [(0, .i32)] plainOptions).discriminant false (discriminantSize 1)
      (oneLocal (.of .i32 1)) = some 1 := by decide
  have hrun : translateEnum ["a"] (.stack [(0, .i32)] plainOptions) (.enum ["a"])
      (.stack [.i32] plainOptions) (.new ⟨true, true⟩ false 1 [] []) = (.ok (), _) := rfl
  have hok := Compiler.new_ok ⟨true, true⟩ false 1 [] []
  have hdst : (Destination.stack [.i32] plainOptions).Held (.new ⟨true, true⟩ false 1 [] []) :=
    trivial
  obtain ⟨code, hcode, h⟩ := translateEnum_does (H := Unit) hok hdst hrun
  obtain ⟨m', hm', hstack, -⟩ := (h noFunctions (oneLocal (.of .i32 1)) 1 hd).2 (by decide) _ rfl
  exact ⟨code, hcode, hd, ⟨m', hm', hstack⟩, hm'.not_trap⟩

end Wasmtime.Fact
