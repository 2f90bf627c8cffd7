import Wasmtime.Base.BinarySearch
import Wasmtime.Base.LittleEndian

/-!
# The address map and the traps of a compilation

`compile/address_map.rs` and `compile/trap_encoding.rs` write the source position from an
instruction on, and the trap of an instruction. Functions are pushed in the order of their code; of
instructions of a function with one source position only the first is kept. `lookup_file_pos` and
`lookup_trap_code` search the bytes again.

`lookups_exact`: the position is that of the last instruction pushed up to the place (`last_kept`
for those that were dropped), and a trap is found just where it was pushed.
-/

namespace Wasmtime.Environ

open Base Prog List

structure InstructionAddressMap where
  srcloc : UInt32
  codeOffset : UInt32

def fileOffset (pos : UInt32) : Option Nat := if pos.toNat = u32Max then none else some pos.toNat

inductive Trap where
  | stackOverflow
  | memoryOutOfBounds
  | heapMisaligned
  | tableOutOfBounds
  | indirectCallToNull
  | badSignature
  | integerOverflow
  | integerDivisionByZero
  | badConversionToInteger
  | unreachableCodeReached
  | interrupt
  | alwaysTrapAdapter
  | outOfFuel
  | atomicWaitNonSharedMemory
  | nullReference
  | arrayOutOfBounds
  | allocationTooLarge
  | castFailure
  | cannotEnterComponent
  | noAsyncResult
  | unhandledTag
  | continuationAlreadyConsumed
  | disabledOpcode
  | asyncDeadlock

namespace Trap

/-- The names that `from_u8` checks, in their order. -/
def all : List Trap :=
  [stackOverflow, memoryOutOfBounds, heapMisaligned, tableOutOfBounds, indirectCallToNull,
    badSignature, integerOverflow, integerDivisionByZero, badConversionToInteger,
    unreachableCodeReached, interrupt, alwaysTrapAdapter, outOfFuel, atomicWaitNonSharedMemory,
    nullReference, arrayOutOfBounds, allocationTooLarge, castFailure, cannotEnterComponent,
    noAsyncResult, unhandledTag, continuationAlreadyConsumed, disabledOpcode, asyncDeadlock]

def asU8 (trap : Trap) : UInt8 := UInt8.ofNat trap.ctorIdx

def fromU8 (byte : UInt8) : Option Trap := all.find? fun trap => trap.asU8 == byte

theorem fromU8_asU8 (trap : Trap) : fromU8 trap.asU8 = some trap := by
  cases trap <;> rfl

end Trap

structure TrapInformation where
  codeOffset : UInt32
  trapCode : Trap

structure CompiledFunc where
  start : Nat
  stop : Nat
  instrs : List InstructionAddressMap
  traps : List TrapInformation

/-! ### The writers -/

/-- `AddressMapSection` and `TrapEncodingBuilder`. -/
structure SectionBuilder (α : Type) where
  offsets : List U32Bytes
  values : List α
  lastOffset : Nat

/-- What the two writers do differently: which entries of a function they write, with offsets in
its code, and how; which they drop after an entry of the function; and whether they compare the
start of a function with the end of the last one. -/
structure SectionKind (β α : Type) where
  entries : CompiledFunc → List (Nat × β)
  drops : Option β → β → Bool
  checksStart : Bool
  encode : β → α
  bytes : List α → List UInt8

def addressMapSection : SectionKind Nat U32Bytes where
  entries func := func.instrs.map fun map =>
    (map.codeOffset.toNat, (fileOffset map.srcloc).getD u32Max)
  drops lastSrcloc srcloc := decide (some srcloc = lastSrcloc)
  checksStart := false
  encode := U32Bytes.new
  bytes := bytesOfSlice

def trapEncodingBuilder : SectionKind Trap UInt8 where
  entries func := func.traps.map fun info => (info.codeOffset.toNat, info.trapCode)
  drops _ _ := false
  checksStart := true
  encode := Trap.asU8
  bytes traps := traps

namespace SectionKind

variable {σ α β : Type} (kind : SectionKind β α) (build : Build)

/-- The loop of `push`. The traps' one stores `last_offset` only after the entry. -/
def pushEntries (start : Nat) : Option β → List (Nat × β) → Prog (SectionBuilder α) Empty Unit
  | _, [] => pure ()
  | last, (codeOffset, value) :: entries => do
    let pos ← addU32 build start codeOffset
    let s ← Prog.get
    assert (decide (s.lastOffset ≤ pos)) (.assert "pos >= self.last_offset")
    if kind.drops last value then do
      Prog.set { s with lastOffset := pos }
      pushEntries start last entries
    else do
      Prog.set ⟨s.offsets ++ [.new pos], s.values ++ [kind.encode value], pos⟩
      pushEntries start (some value) entries

def push (func : CompiledFunc) : Prog (SectionBuilder α) Empty Unit := do
  assert (decide (func.start < u32Size)) (.unwrap "u32::try_from(func.start)")
  assert (decide (func.stop < u32Size)) (.unwrap "u32::try_from(func.end)")
  let s ← Prog.get
  assert (!kind.checksStart || decide (s.lastOffset ≤ func.start))
    (.assert "func_start >= self.last_offset")
  kind.pushEntries build func.start none (kind.entries func)
  Prog.modify fun s => { s with lastOffset := func.stop }

def appendTo (s : SectionBuilder α) : Prog σ Empty (List UInt8) := do
  assert (decide (s.offsets.length < u32Size)) (.unwrap "u32::try_from(len)")
  pure (bytesOfSlice [.new s.offsets.length] ++ (bytesOfSlice s.offsets ++ kind.bytes s.values))

def pushFuncs : List CompiledFunc → Prog (SectionBuilder α) Empty Unit
  | [] => pure ()
  | func :: funcs => do
    kind.push build func
    pushFuncs funcs

def write (funcs : List CompiledFunc) : Prog (SectionBuilder α) Empty (List UInt8) := do
  kind.pushFuncs build funcs
  kind.appendTo (← Prog.get)

end SectionKind

def SectionBuilder.empty {α : Type} : SectionBuilder α := ⟨[], [], 0⟩

/-! ### The readers -/

section

variable {σ : Type} (build : Build)

/-- The number of entries, their offsets, and the bytes behind these. -/
def parseOffsets (bytes : List UInt8) : Option (Nat × List U32Bytes × List UInt8) :=
  match sliceFromBytes 1 bytes with
  | some ([count], bytes) => (sliceFromBytes count.get bytes).map fun r => (count.get, r)
  | _ => none

def parseAddressMap (bytes : List UInt8) : Prog σ Empty (Option (List U32Bytes × List U32Bytes)) :=
  match parseOffsets bytes with
  | none => pure none
  | some (count, offsets, bytes) =>
    match sliceFromBytes count bytes with
    | none => pure none
    | some (positions, bytes) => do
      debugAssert build bytes.isEmpty (.assert "section.is_empty()")
      pure (some (offsets, positions))

def lookupFilePos (bytes : List UInt8) (offset : Nat) : Prog σ Empty (Option Nat) := do
  match ← parseAddressMap build bytes with
  | none => pure none
  | some (offsets, positions) =>
    if offset < u32Size then
      match binarySearchBy (offsets.map U32Bytes.get) offset with
      | .ok i => pure (positions[i]?.map U32Bytes.get)
      | .error 0 => pure none
      | .error (n + 1) => pure (positions[n]?.map U32Bytes.get)
    else
      pure none

def parseTraps (bytes : List UInt8) : Prog σ Empty (Option (List U32Bytes × List UInt8)) :=
  match parseOffsets bytes with
  | none => pure none
  | some (count, offsets, traps) => do
    debugAssert build (traps.length == count) (.assert "traps.len() == count")
    pure (some (offsets, traps))

def lookupTrapCode (bytes : List UInt8) (offset : Nat) : Prog σ Empty (Option Trap) := do
  match ← parseTraps build bytes with
  | none => pure none
  | some (offsets, traps) =>
    if offset < u32Size then
      match binarySearch (offsets.map U32Bytes.get) offset with
      | none => pure none
      | some index => do
        debugAssert build (decide (index < traps.length)) (.assert "index < traps.len()")
        match traps[index]? with
        | none => pure none
        | some byte => do
          let trap := Trap.fromU8 byte
          debugAssert build trap.isSome (.assert s!"missing mapping for {byte}")
          pure trap
    else
      pure none

end

/-! ### What is pushed -/

namespace SectionKind

variable {σ α β : Type} (kind : SectionKind β α)

def placed (func : CompiledFunc) : List (Nat × β) :=
  (kind.entries func).map fun e => (func.start + e.1, e.2)

def pushed (funcs : List CompiledFunc) : List (Nat × β) := funcs.flatMap kind.placed

def kept : Option β → List (Nat × β) → List (Nat × β)
  | _, [] => []
  | last, e :: entries =>
    if kind.drops last e.2 then kept last entries else e :: kept (some e.2) entries

def written (funcs : List CompiledFunc) : List (Nat × β) :=
  funcs.flatMap fun func => kind.kept none (kind.placed func)

def Within (funcs : List CompiledFunc) : Prop :=
  ∀ f ∈ funcs, (∀ e ∈ kind.placed f, f.start ≤ e.1 ∧ e.1 ≤ f.stop) ∧
    (kind.placed f).Pairwise fun e e' => e.1 ≤ e'.1

end SectionKind

/-- **The functions that may be pushed**: one after another, with their entries in order. -/
structure Ordered (funcs : List CompiledFunc) : Prop where
  ranges : funcs.Pairwise fun f g => f.stop ≤ g.start
  start_le : ∀ f ∈ funcs, f.start ≤ f.stop
  instrs : addressMapSection.Within funcs
  traps : trapEncodingBuilder.Within funcs

variable {σ α β : Type} {kind : SectionKind β α} {build : Build} {funcs : List CompiledFunc}

def lastAt (q : Nat) (entries : List (Nat × α)) : Option α :=
  (entries.filter fun e => decide (e.1 ≤ q)).getLast?.map Prod.snd

theorem lastAt_append (q : Nat) (l l' : List (Nat × α)) :
    lastAt q (l ++ l') = (lastAt q l').or (lastAt q l) := by
  unfold lastAt
  rw [filter_append, getLast?_append, Option.map_or]

theorem lastAt_cons (q : Nat) (e : Nat × α) (l : List (Nat × α)) :
    lastAt q (e :: l) = (lastAt q l).or (if e.1 ≤ q then some e.2 else none) := by
  rw [← singleton_append, lastAt_append]
  unfold lastAt
  split_ifs with h <;> simp [h]

/-- **Dropping entries** of the position that is known already does not change what is found. -/
theorem last_kept {q : Nat} {last : Option Nat} {entries : List (Nat × Nat)} {found : Option Nat}
    (hs : entries.Pairwise fun e e' => e.1 ≤ e'.1)
    (hlast : ∀ src, last = some src → ∀ e ∈ entries, e.1 ≤ q → found = some src) :
    (lastAt q (addressMapSection.kept last entries)).or found = (lastAt q entries).or found := by
  induction entries generalizing last found with
  | nil => rfl
  | cons e entries ih =>
    obtain ⟨hle, hs'⟩ := pairwise_cons.1 hs
    unfold SectionKind.kept
    rw [lastAt_cons, Option.or_assoc]
    by_cases heq : some e.2 = last
    · rw [if_pos (show addressMapSection.drops last e.2 = true from decide_eq_true heq),
        ih hs' fun src h e' he' => hlast src h e' (mem_cons_of_mem e he')]
      split_ifs with hq
      · rw [hlast e.2 heq.symm e mem_cons_self hq, Option.or_self]
      · rw [Option.none_or]
    · have hdrops : ¬ addressMapSection.drops last e.2 = true := fun h => heq (of_decide_eq_true h)
      rw [if_neg hdrops, lastAt_cons, Option.or_assoc]
      refine ih hs' fun src h e' he' hq => ?_
      cases h
      rw [if_pos ((hle e' he').trans hq), Option.some_or]

theorem lastAt_written (h : addressMapSection.Within funcs) (q : Nat) :
    lastAt q (addressMapSection.written funcs) = lastAt q (addressMapSection.pushed funcs) := by
  induction funcs with
  | nil => rfl
  | cons f funcs ih =>
    obtain ⟨hf, hfuncs⟩ := forall_mem_cons.1 h
    have hkept : (lastAt q (addressMapSection.kept none (addressMapSection.placed f))).or none =
        (lastAt q (addressMapSection.placed f)).or none := last_kept hf.2 nofun
    rw [Option.or_none, Option.or_none] at hkept
    show lastAt q (_ ++ addressMapSection.written funcs) =
      lastAt q (_ ++ addressMapSection.pushed funcs)
    rw [lastAt_append, lastAt_append, ih hfuncs, hkept]

theorem written_traps (funcs : List CompiledFunc) :
    trapEncodingBuilder.written funcs = trapEncodingBuilder.pushed funcs := by
  have hkept : ∀ (entries : List (Nat × Trap)) last,
      trapEncodingBuilder.kept last entries = entries := by
    intro entries
    induction entries with
    | nil => exact fun _ => rfl
    | cons e entries ih => exact fun _ => congrArg (e :: ·) (ih _)
  exact flatMap_congr fun f _ => hkept _ none

theorem kept_sublist (last : Option β) (entries : List (Nat × β)) :
    (kind.kept last entries).Sublist entries := by
  induction entries generalizing last with
  | nil => exact .slnil
  | cons e entries ih =>
    unfold SectionKind.kept
    split_ifs
    · exact (ih last).cons e
    · exact (ih _).cons_cons e

theorem written_sublist (funcs : List CompiledFunc) :
    (kind.written funcs).Sublist (kind.pushed funcs) :=
  List.Sublist.flatMap_right funcs fun f _ => kept_sublist none (kind.placed f)

theorem written_sorted (h : kind.Within funcs)
    (hranges : funcs.Pairwise fun f g => f.stop ≤ g.start) :
    (kind.written funcs).Pairwise fun e e' => e.1 ≤ e'.1 := by
  refine List.Pairwise.sublist (written_sublist funcs) ?_
  refine pairwise_flatMap.2 ⟨fun f hf => (h f hf).2, ?_⟩
  refine hranges.imp_of_mem fun {f g} hf hg hle e he e' he' => ?_
  exact ((h f hf).1 e he).2.trans (hle.trans ((h g hg).1 e' he').1)

theorem written_lt (h : kind.Within funcs) (hfits : ∀ f ∈ funcs, f.stop < u32Size) :
    ∀ e ∈ kind.written funcs, e.1 < u32Size := by
  intro e he
  obtain ⟨f, hf, hef⟩ := mem_flatMap.1 ((written_sublist funcs).subset he)
  exact lt_of_le_of_lt ((h f hf).1 e hef).2 (hfits f hf)

/-! ### What is written -/

def SectionBuilder.after (s : SectionBuilder α) (encode : β → α) (entries : List (Nat × β))
    (lastOffset : Nat) : SectionBuilder α where
  offsets := s.offsets ++ entries.map fun e => .new e.1
  values := s.values ++ entries.map fun e => encode e.2
  lastOffset := lastOffset

variable {s : SectionBuilder α}

theorem pushEntries_run {start : Nat} {last : Option β} {entries : List (Nat × β)}
    (hs : (entries.map fun e => (start + e.1, e.2)).Pairwise fun e e' => e.1 ≤ e'.1)
    (hin : ∀ e ∈ entries.map fun e => (start + e.1, e.2), s.lastOffset ≤ e.1 ∧ e.1 < u32Size) :
    ∃ lastOffset, kind.pushEntries build start last entries s = (.ok (), s.after kind.encode
      (kind.kept last (entries.map fun e => (start + e.1, e.2))) lastOffset) := by
  induction entries generalizing last s with
  | nil => exact ⟨s.lastOffset, by simp [SectionKind.pushEntries, SectionBuilder.after,
      SectionKind.kept]⟩
  | cons e entries ih =>
    obtain ⟨hfirst, hrest⟩ := pairwise_cons.1 hs
    obtain ⟨⟨hle, hlt⟩, hin⟩ := forall_mem_cons.1 hin
    have hin' := fun e he => And.intro (hfirst e he) (hin e he).2
    unfold SectionKind.pushEntries
    rw [run_bind_ok (addU32_run hlt), run_get_bind, decide_eq_true hle, map_cons]
    unfold SectionKind.kept
    split_ifs
    · exact ih (s := { s with lastOffset := start + e.1 }) hrest hin'
    · obtain ⟨lastOffset, hrun⟩ := ih (s := s.after kind.encode [(start + e.1, e.2)] (start + e.1))
        hrest hin'
      refine ⟨lastOffset, hrun.trans ?_⟩
      simp [SectionBuilder.after]

theorem SectionKind.push_run {f : CompiledFunc} (h : kind.Within [f]) (hle : f.start ≤ f.stop)
    (hstop : f.stop < u32Size) (hlast : s.lastOffset ≤ f.start) : kind.push build f s =
      (.ok (), s.after kind.encode (kind.kept none (kind.placed f)) f.stop) := by
  obtain ⟨hin, hs⟩ := h f mem_cons_self
  obtain ⟨lastOffset, hrun⟩ : ∃ lastOffset, kind.pushEntries build f.start none _ s = _ :=
    pushEntries_run hs fun e he => ⟨hlast.trans (hin e he).1, lt_of_le_of_lt (hin e he).2 hstop⟩
  unfold SectionKind.push
  rw [decide_eq_true (lt_of_le_of_lt hle hstop), decide_eq_true hstop]
  refine bind_ok.2 ⟨(), s, rfl, bind_ok.2 ⟨(), s, rfl, bind_ok.2 ⟨s, s, rfl, ?_⟩⟩⟩
  rw [decide_eq_true hlast, Bool.or_true]
  exact bind_ok.2 ⟨(), s, rfl, bind_ok.2 ⟨(), _, hrun, rfl⟩⟩

theorem pushFuncs_run (h : kind.Within funcs) (hle : ∀ f ∈ funcs, f.start ≤ f.stop)
    (hranges : funcs.Pairwise fun f g => f.stop ≤ g.start) (hfits : ∀ f ∈ funcs, f.stop < u32Size)
    (hlast : ∀ f ∈ funcs, s.lastOffset ≤ f.start) : ∃ lastOffset, kind.pushFuncs build funcs s =
      (.ok (), s.after kind.encode (kind.written funcs) lastOffset) := by
  induction funcs generalizing s with
  | nil => exact ⟨s.lastOffset, by simp [SectionKind.pushFuncs, SectionBuilder.after,
      SectionKind.written]⟩
  | cons f funcs ih =>
    obtain ⟨hf, hwithin⟩ := forall_mem_cons.1 h
    obtain ⟨hle1, hle⟩ := forall_mem_cons.1 hle
    obtain ⟨hstop, hfits⟩ := forall_mem_cons.1 hfits
    obtain ⟨hfirst, hrest⟩ := pairwise_cons.1 hranges
    have hpush : kind.push build f s = _ := SectionKind.push_run (forall_mem_singleton.2 hf)
      hle1 hstop
      (hlast f mem_cons_self)
    obtain ⟨lastOffset, hrun⟩ := ih hwithin hle hrest hfits
      (s := s.after kind.encode (kind.kept none (kind.placed f)) f.stop) hfirst
    unfold SectionKind.pushFuncs
    rw [run_bind_ok hpush]
    refine ⟨lastOffset, hrun.trans ?_⟩
    simp [SectionBuilder.after, SectionKind.written]

theorem stop_lt_of_pushFuncs {s s' : SectionBuilder α} {u : Unit}
    (h : kind.pushFuncs build funcs s = (.ok u, s')) : ∀ f ∈ funcs, f.stop < u32Size := by
  induction funcs generalizing s with
  | nil => nofun
  | cons f funcs ih =>
    obtain ⟨_, s1, hf, hrest⟩ := bind_ok.1 h
    obtain ⟨_, s2, -, hpush⟩ := bind_ok.1 hf
    obtain ⟨_, s3, hstop, -⟩ := bind_ok.1 hpush
    exact forall_mem_cons.2 ⟨of_decide_eq_true (assert_ok.1 hstop).1, ih hrest⟩

variable {bytes : List UInt8}

/-- **A section that is written** has the entries that are kept; and it is written if its numbers
are `u32`s. -/
theorem write_ok (h : kind.Within funcs) (hle : ∀ f ∈ funcs, f.start ≤ f.stop)
    (hranges : funcs.Pairwise fun f g => f.stop ≤ g.start) :
    (∃ s, kind.write build funcs .empty = (.ok bytes, s)) ↔
      (∀ f ∈ funcs, f.stop < u32Size) ∧ (kind.written funcs).length < u32Size ∧
      bytes = bytesOfSlice [.new (kind.written funcs).length] ++
        (bytesOfSlice ((kind.written funcs).map fun e => .new e.1) ++
          kind.bytes ((kind.written funcs).map fun e => kind.encode e.2)) := by
  have hwrite : (∀ f ∈ funcs, f.stop < u32Size) → ∃ lastOffset,
      kind.write build funcs .empty = (kind.appendTo
        (SectionBuilder.empty.after kind.encode (kind.written funcs) lastOffset) : Prog _ _ _)
          (SectionBuilder.empty.after kind.encode (kind.written funcs) lastOffset) := by
    intro hfits
    obtain ⟨lastOffset, hrun⟩ : ∃ lastOffset, kind.pushFuncs build funcs .empty = _ :=
      pushFuncs_run h hle hranges hfits fun f _ => Nat.zero_le _
    exact ⟨lastOffset, run_bind_ok hrun⟩
  have hlength : ∀ lastOffset, (SectionBuilder.empty.after kind.encode (kind.written funcs)
      lastOffset).offsets.length = (kind.written funcs).length := fun _ => length_map _
  constructor
  · rintro ⟨s, hs⟩
    obtain ⟨_, _, hpush, -⟩ := bind_ok.1 hs
    have hfits := stop_lt_of_pushFuncs hpush
    obtain ⟨lastOffset, heq⟩ := hwrite hfits
    obtain ⟨_, _, hassert, hret⟩ := bind_ok.1 (heq.symm.trans hs)
    have hlen := of_decide_eq_true (assert_ok.1 hassert).1
    rw [hlength] at hlen hret
    cases hret
    exact ⟨hfits, hlen, rfl⟩
  · rintro ⟨hfits, hlen, rfl⟩
    obtain ⟨lastOffset, heq⟩ := hwrite hfits
    refine ⟨SectionBuilder.empty.after kind.encode (kind.written funcs) lastOffset, heq.trans
      (bind_ok.2 ⟨(), _, assert_ok.2 ⟨decide_eq_true ?_, rfl⟩, ?_⟩)⟩
    · rwa [hlength]
    · rw [hlength]
      rfl

theorem map_get_new {β : Type} {value : β → Nat} {entries : List β}
    (h : ∀ e ∈ entries, value e < u32Size) :
    (entries.map fun e => U32Bytes.new (value e)).map U32Bytes.get = entries.map value := by
  rw [map_map]
  refine map_congr_left fun e he => ?_
  rw [Function.comp_apply, U32Bytes.get_new (h e he)]

theorem lastAt_eq {q n : Nat} {entries : List (Nat × α)}
    (hlo : ∀ i < n, (entries.map Prod.fst).getD i 0 ≤ q)
    (hhi : ∀ i, n ≤ i → i < (entries.map Prod.fst).length → q < (entries.map Prod.fst).getD i 0) :
    lastAt q entries = (entries.take n).getLast?.map Prod.snd := by
  have hget : ∀ i e, entries[i]? = some e → (entries.map Prod.fst).getD i 0 = e.1 := by
    intro i e he
    exact getD_of_getElem? (by rw [getElem?_map, he, Option.map_some])
  unfold lastAt
  nth_rewrite 1 [← take_append_drop n entries]
  rw [filter_append, filter_eq_self.2, filter_eq_nil_iff.2, append_nil]
  · intro e he
    obtain ⟨i, hi⟩ := mem_iff_getElem?.1 he
    rw [getElem?_drop] at hi
    have hlt := (List.getElem?_eq_some_iff.1 hi).1
    have hup := hhi (n + i) (by omega) (by rwa [length_map])
    rw [hget _ e hi] at hup
    exact fun hq => absurd (of_decide_eq_true hq) (by omega)
  · intro e he
    obtain ⟨i, hi⟩ := mem_iff_getElem?.1 he
    rw [getElem?_take] at hi
    split_ifs at hi with hin
    have hdown := hlo i hin
    rw [hget _ e hi] at hdown
    exact decide_eq_true hdown

theorem parseOffsets_append {entries : List β} (hlen : entries.length < u32Size)
    (offset : β → U32Bytes) (rest : List UInt8) :
    parseOffsets (bytesOfSlice [.new entries.length] ++
      (bytesOfSlice (entries.map offset) ++ rest)) =
        some (entries.length, entries.map offset, rest) := by
  have hslice := sliceFromBytes_append (entries.map offset) rest
  rw [length_map] at hslice
  unfold parseOffsets
  rw [show 1 = [U32Bytes.new entries.length].length from rfl, sliceFromBytes_append]
  dsimp only
  rw [U32Bytes.get_new hlen, hslice, Option.map_some]

theorem debugAssert_true (p : Panic) : (debugAssert build true p : Prog σ Empty Unit) =
    pure () := by
  unfold debugAssert
  split_ifs <;> rfl

theorem parseAddressMap_run {bytes rest : List UInt8} {offsets positions : List U32Bytes} {n : Nat}
    (h : parseOffsets bytes = some (n, offsets, rest))
    (hrest : sliceFromBytes n rest = some (positions, [])) (s : σ) :
    (parseAddressMap build bytes : Prog σ Empty _) s = (.ok (some (offsets, positions)), s) := by
  unfold parseAddressMap
  rw [h]
  dsimp only
  rw [hrest]
  dsimp only
  rw [isEmpty_nil, debugAssert_true]
  rfl

theorem parseTraps_run {bytes traps : List UInt8} {offsets : List U32Bytes}
    (h : parseOffsets bytes = some (traps.length, offsets, traps)) (s : σ) :
    (parseTraps build bytes : Prog σ Empty _) s = (.ok (some (offsets, traps)), s) := by
  unfold parseTraps
  rw [h]
  dsimp only
  rw [beq_self_eq_true, debugAssert_true]
  rfl

theorem lookupFilePos_run {entries : List (Nat × Nat)} {offsets positions : List U32Bytes}
    (hbytes : ∀ s : σ, (parseAddressMap build bytes : Prog σ Empty _) s =
      (.ok (some (offsets, positions)), s))
    (hoffsets : offsets.map U32Bytes.get = entries.map Prod.fst)
    (hpositions : positions.map U32Bytes.get = entries.map Prod.snd)
    (hs : entries.Pairwise fun e e' => e.1 ≤ e'.1) (q : Nat) (s : σ) :
    (lookupFilePos build bytes q : Prog σ Empty _) s =
      (.ok (if q < u32Size then lastAt q entries else none), s) := by
  have hsorted : (entries.map Prod.fst).Pairwise (· ≤ ·) := pairwise_map.2 hs
  obtain ⟨n, hn, hlo, hhi, hsearch⟩ := binarySearchBy_spec hsorted q
  -- The index that is found, or the one before the index where `q` would be inserted.
  have hat : ∀ i, n = i + 1 → positions[i]?.map U32Bytes.get = lastAt q entries := by
    rintro i rfl
    have hi : i < entries.length := by rwa [length_map] at hn
    rw [lastAt_eq hlo hhi, ← getElem?_map, hpositions, getElem?_map,
      getLast?_eq_getElem?, length_take, Nat.min_eq_left (Nat.succ_le_of_lt hi),
      getElem?_take, if_pos (by omega)]
    rfl
  refine bind_ok.2 ⟨_, s, hbytes s, ?_⟩
  by_cases hq : q < u32Size
  · simp only [if_pos hq, hoffsets]
    rcases hsearch with hsearch | ⟨i, hi, hsearch⟩
    · rw [hsearch]
      cases n with
      | zero =>
        rw [lastAt_eq hlo hhi]
        rfl
      | succ i => exact congrArg (fun r => (Outcome.ok r, s)) (hat i rfl)
    · rw [hsearch]
      exact congrArg (fun r => (Outcome.ok r, s)) (hat i hi)
  · simp only [if_neg hq]
    rfl

theorem lookupTrapCode_run {entries : List (Nat × Trap)} {offsets : List U32Bytes}
    (hbytes : ∀ s : σ, (parseTraps build bytes : Prog σ Empty _) s =
      (.ok (some (offsets, entries.map fun e => e.2.asU8)), s))
    (hoffsets : offsets.map U32Bytes.get = entries.map Prod.fst)
    (hs : entries.Pairwise fun e e' => e.1 < e'.1) (hlt : ∀ e ∈ entries, e.1 < u32Size) (q : Nat)
    (s : σ) : ∃ r, (lookupTrapCode build bytes q : Prog σ Empty _) s = (.ok r, s) ∧
      ∀ t, r = some t ↔ (q, t) ∈ entries := by
  have hsorted : (entries.map Prod.fst).Pairwise (· < ·) := pairwise_map.2 hs
  have hfind : ∀ {i : Nat} {t : Trap}, entries[i]? = some (q, t) →
      binarySearch (entries.map Prod.fst) q = some i := by
    intro i t hi
    rw [binarySearch_eq_some hsorted, getElem?_map, hi, Option.map_some]
  by_cases hq : q < u32Size
  · cases hsearch : binarySearch (entries.map Prod.fst) q with
    | none =>
      refine ⟨none, bind_ok.2 ⟨_, s, hbytes s, ?_⟩, fun t => ⟨nofun, fun h => ?_⟩⟩
      · simp only [if_pos hq, hoffsets, hsearch]
        rfl
      · obtain ⟨i, hi⟩ := mem_iff_getElem?.1 h
        cases hsearch.symm.trans (hfind hi)
    | some i =>
      obtain ⟨⟨_, t⟩, hi, rfl⟩ : ∃ e, entries[i]? = some e ∧ e.1 = q := by
        have hkey := (binarySearch_eq_some hsorted).1 hsearch
        rwa [getElem?_map, Option.map_eq_some_iff] at hkey
      have hbyte : (entries.map fun e => e.2.asU8)[i]? = some t.asU8 := by
        rw [getElem?_map, hi, Option.map_some]
      have hlen := (List.getElem?_eq_some_iff.1 hbyte).1
      refine ⟨some t, bind_ok.2 ⟨_, s, hbytes s, ?_⟩, fun t' => ⟨fun h => ?_, fun h => ?_⟩⟩
      · simp only [if_pos hq, hoffsets, hsearch, decide_eq_true hlen, debugAssert_true, hbyte,
          Trap.fromU8_asU8, Option.isSome_some]
        rfl
      · cases h
        exact mem_of_getElem? hi
      · obtain ⟨j, hj⟩ := mem_iff_getElem?.1 h
        cases hsearch.symm.trans (hfind hj)
        cases hi.symm.trans hj
        rfl
  · refine ⟨none, bind_ok.2 ⟨_, s, hbytes s, ?_⟩, fun t => ⟨nofun, fun h => ?_⟩⟩
    · simp only [if_neg hq]
      rfl
    · exact absurd (hlt _ h) hq

/-! ### Lookups in what was written -/

theorem lookupFilePos_write (h : Ordered funcs) {s : SectionBuilder U32Bytes}
    (hwrite : addressMapSection.write build funcs .empty = (.ok bytes, s)) (q : Nat) :
    (lookupFilePos build bytes q : Prog Unit Empty _) () =
      (.ok (if q < u32Size then lastAt q (addressMapSection.pushed funcs) else none), ()) := by
  obtain ⟨hfits, hlen, rfl⟩ := (write_ok h.instrs h.start_le h.ranges).1 ⟨s, hwrite⟩
  have hsrc : ∀ e ∈ addressMapSection.written funcs, e.2 < u32Size := by
    intro e he
    obtain ⟨f, -, hef⟩ := mem_flatMap.1 ((written_sublist funcs).subset he)
    obtain ⟨_, hentry, rfl⟩ := mem_map.1 hef
    obtain ⟨map, -, rfl⟩ := mem_map.1 hentry
    have := map.srcloc.toNat_lt
    unfold fileOffset u32Max u32Size
    split_ifs <;> simp
    omega
  have hrest := sliceFromBytes_append
    ((addressMapSection.written funcs).map fun e => U32Bytes.new e.2) []
  rw [append_nil, length_map] at hrest
  rw [← lastAt_written h.instrs]
  exact lookupFilePos_run (parseAddressMap_run (parseOffsets_append hlen _ _) hrest)
    (map_get_new (written_lt h.instrs hfits)) (map_get_new hsrc)
    (written_sorted h.instrs h.ranges) q ()

theorem lookupTrapCode_write (h : Ordered funcs) {s : SectionBuilder UInt8}
    (hwrite : trapEncodingBuilder.write build funcs .empty = (.ok bytes, s))
    (hnodup : ((trapEncodingBuilder.pushed funcs).map Prod.fst).Nodup) (q : Nat) :
    ∃ r, (lookupTrapCode build bytes q : Prog Unit Empty _) () = (.ok r, ()) ∧
      ∀ t, r = some t ↔ (q, t) ∈ trapEncodingBuilder.pushed funcs := by
  obtain ⟨hfits, hlen, rfl⟩ := (write_ok h.traps h.start_le h.ranges).1 ⟨s, hwrite⟩
  have hlt := written_lt h.traps hfits
  have hsorted := written_sorted h.traps h.ranges
  rw [written_traps] at hlen hlt hsorted ⊢
  have hsorted' := hsorted.and (pairwise_map.1 hnodup)
  refine lookupTrapCode_run (parseTraps_run ?_) (map_get_new hlt)
    (hsorted'.imp fun h => h.1.lt_of_ne h.2) hlt q ()
  rw [length_map]
  exact parseOffsets_append hlen _ _

/-- **The sections are exact.** They are written if their numbers are `u32`s, and then every
place has the source position of the last instruction up to it, and just the traps that were
pushed are found. -/
theorem lookups_exact (build : Build) (h : Ordered funcs) :
    (∀ bytes s, addressMapSection.write build funcs .empty = (.ok bytes, s) → ∀ q,
      (lookupFilePos build bytes q : Prog Unit Empty _) () =
        (.ok (if q < u32Size then lastAt q (addressMapSection.pushed funcs) else none), ())) ∧
    (∀ bytes s, trapEncodingBuilder.write build funcs .empty = (.ok bytes, s) →
      ((trapEncodingBuilder.pushed funcs).map Prod.fst).Nodup → ∀ q,
        ∃ r, (lookupTrapCode build bytes q : Prog Unit Empty _) () = (.ok r, ()) ∧
          ∀ t, r = some t ↔ (q, t) ∈ trapEncodingBuilder.pushed funcs) ∧
    ((∀ f ∈ funcs, f.stop < u32Size) → ((addressMapSection.pushed funcs).length < u32Size →
        ∃ bytes s, addressMapSection.write build funcs .empty = (.ok bytes, s)) ∧
      ((trapEncodingBuilder.pushed funcs).length < u32Size →
        ∃ bytes s, trapEncodingBuilder.write build funcs .empty = (.ok bytes, s))) := by
  refine ⟨fun bytes s hwrite => lookupFilePos_write h hwrite,
    fun bytes s hwrite => lookupTrapCode_write h hwrite, fun hfits => ⟨fun hlen => ?_, fun hlen => ?_⟩⟩
  · exact ⟨_, (write_ok h.instrs h.start_le h.ranges).2
      ⟨hfits, lt_of_le_of_lt (written_sublist funcs).length_le hlen, rfl⟩⟩
  · exact ⟨_, (write_ok h.traps h.start_le h.ranges).2
      ⟨hfits, lt_of_le_of_lt (written_sublist funcs).length_le hlen, rfl⟩⟩

def twoFuncs : List CompiledFunc :=
  [⟨0, 16, [⟨7, 0⟩, ⟨7, 4⟩, ⟨9, 8⟩], [⟨4, .stackOverflow⟩]⟩, ⟨16, 32, [⟨9, 2⟩],
    [⟨0, .castFailure⟩]⟩]

theorem lookups_exact_twoFuncs : Ordered twoFuncs ∧
    ∃ bytes s, addressMapSection.write ⟨false, false⟩ twoFuncs .empty = (.ok bytes, s) ∧
      (lookupFilePos ⟨false, false⟩ bytes 5 : Prog Unit Empty _) () = (.ok (some 7), ()) := by
  have h : Ordered twoFuncs := by
    refine ⟨by decide, by decide, ?_, ?_⟩
    all_goals
      unfold SectionKind.Within
      decide
  obtain ⟨hlookup, -, hwrite⟩ := lookups_exact ⟨false, false⟩ h
  obtain ⟨bytes, s, hs⟩ := (hwrite (by decide)).1 (by decide)
  exact ⟨h, bytes, s, hs, hlookup bytes s hs 5⟩

end Wasmtime.Environ
