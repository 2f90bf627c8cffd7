import Wasmtime.Base.BinarySearch
import Wasmtime.Base.LittleEndian

/-!
# Tables of exception handlers

`unwinder/exception_table.rs` turns the call sites of compiled functions into five arrays of words,
writes them into a section of the object file, and searches that section when an exception is
thrown. The handlers of a call site are kept in the order in which they come; the default handler
gets the tag `u32::MAX`. A range has only its end, and call sites without a handler are left out.

`build_ok_iff`: which inputs the builder takes; `Laid`: the arrays are the entries laid end to end;
`parse_eq_ok`: a byte string is accepted exactly if it is the serialisation of a table.
-/

namespace Wasmtime.Unwinder

open Base Prog List U32Bytes

/-! ### Building -/

/-- Tags are entity references, for which `u32::MAX` is reserved. -/
abbrev ExceptionTag := Fin u32Max

inductive ExceptionContextLoc where
  | spOffset (offset : Nat)
  | gpr (reg : Nat)

inductive FinalizedMachExceptionHandler where
  | tag (tag : ExceptionTag) (offset : Nat)
  | default (offset : Nat)
  | context (loc : ExceptionContextLoc)

structure FinalizedMachCallSite where
  retAddr : Nat
  exceptionHandlers : List FinalizedMachExceptionHandler

structure ExceptionTableBuilder where
  callsites : List U32Bytes
  ranges : List U32Bytes
  tags : List U32Bytes
  contexts : List U32Bytes
  handlers : List U32Bytes
  lastStartOffset : Nat

namespace ExceptionTableBuilder

def empty : ExceptionTableBuilder := ⟨[], [], [], [], [], 0⟩

def sectionOffset (offset startOffset : Nat) : Prog ExceptionTableBuilder Empty Nat := do
  assert (decide (offset + startOffset < u32Size)) (.unwrap "checked_add(start_offset)")
  pure (offset + startOffset)

def pushHandler (startOffset tag context offset : Nat) : Prog ExceptionTableBuilder Empty Unit := do
  Prog.modify fun s => { s with tags := s.tags ++ [.new tag] }
  Prog.modify fun s => { s with contexts := s.contexts ++ [.new context] }
  let offset ← sectionOffset offset startOffset
  Prog.modify fun s => { s with handlers := s.handlers ++ [.new offset] }

/-- The loop over the handlers of a call site, with the context that is in force. -/
def pushHandlers (startOffset : Nat) :
    Nat → List FinalizedMachExceptionHandler → Prog ExceptionTableBuilder Empty Unit
  | _, [] => pure ()
  | context, .tag tag offset :: rest => do
    pushHandler startOffset tag context offset
    pushHandlers startOffset context rest
  | context, .default offset :: rest => do
    pushHandler startOffset u32Max context offset
    pushHandlers startOffset context rest
  | _, .context (.spOffset offset) :: rest => pushHandlers startOffset offset rest
  | _, .context (.gpr _) :: _ =>
    Prog.panic (.unreachable "only supports dynamic contexts on the stack")

def tagsLen : Prog ExceptionTableBuilder Empty Nat := do
  let s ← Prog.get
  assert (decide (s.tags.length < u32Size)) (.unwrap "u32::try_from(self.tags.len())")
  pure s.tags.length

/-- The loop of `add_func` over the call sites. -/
def addCallSites (startOffset : Nat) :
    List FinalizedMachCallSite → Prog ExceptionTableBuilder Empty Unit
  | [] => pure ()
  | callSite :: rest => do
    let retAddr ← sectionOffset callSite.retAddr startOffset
    let startIdx ← tagsLen
    pushHandlers startOffset u32Max callSite.exceptionHandlers
    let endIdx ← tagsLen
    Prog.modify fun s =>
      if startIdx < endIdx then
        { s with ranges := s.ranges ++ [.new endIdx], callsites := s.callsites ++ [.new retAddr] }
      else s
    addCallSites startOffset rest

def addFunc (startOffset : Nat) (callSites : List FinalizedMachCallSite) :
    Prog ExceptionTableBuilder Empty Unit := do
  let s ← Prog.get
  assert (decide (s.lastStartOffset ≤ startOffset))
    (.assert "start_offset >= self.last_start_offset")
  Prog.set { s with lastStartOffset := startOffset }
  addCallSites startOffset callSites

def bytes (s : ExceptionTableBuilder) : List UInt8 :=
  bytesOfSlice [.new s.callsites.length] ++ (bytesOfSlice [.new s.handlers.length] ++
    (bytesOfSlice s.callsites ++ (bytesOfSlice s.ranges ++ (bytesOfSlice s.tags ++
      (bytesOfSlice s.contexts ++ bytesOfSlice s.handlers)))))

/-- `serialize`, with all slices put together. -/
def toVec : Prog ExceptionTableBuilder Empty (List UInt8) := do
  let s ← Prog.get
  assert (decide (s.callsites.length < u32Size)) (.unwrap "u32::try_from(self.callsites.len())")
  assert (decide (s.handlers.length < u32Size)) (.unwrap "u32::try_from(self.handlers.len())")
  pure s.bytes

end ExceptionTableBuilder

structure Func where
  startOffset : Nat
  callSites : List FinalizedMachCallSite

def addFuncs : List Func → Prog ExceptionTableBuilder Empty Unit
  | [] => pure ()
  | f :: funcs => do
    ExceptionTableBuilder.addFunc f.startOffset f.callSites
    addFuncs funcs

def build (funcs : List Func) : Prog ExceptionTableBuilder Empty (List UInt8) := do
  addFuncs funcs
  ExceptionTableBuilder.toVec

/-! ### Reading -/

structure ExceptionTable where
  callsites : List U32Bytes
  ranges : List U32Bytes
  tags : List U32Bytes
  contexts : List U32Bytes
  handlers : List U32Bytes

namespace ExceptionTable

/-- `slice_from_bytes`, with the error of its caller. -/
def readSlice (count : Nat) (error : String) (data : List UInt8) :
    Except String (List U32Bytes × List UInt8) :=
  match sliceFromBytes count data with
  | some r => .ok r
  | none => .error error

/-- `Bytes::read` of a word, with the error of its caller. -/
def readWord (error : String) (data : List UInt8) : Except String (U32Bytes × List UInt8) :=
  match sliceFromBytes 1 data with
  | some ([w], data) => .ok (w, data)
  | _ => .error error

def parse (data : List UInt8) : Except String ExceptionTable := do
  let (callsiteCount, data) ← readWord "Unable to read callsite count prefix" data
  let (handlerCount, data) ← readWord "Unable to read handler count prefix" data
  let (callsites, data) ← readSlice callsiteCount.get "Unable to read callsites slice" data
  let (ranges, data) ← readSlice callsiteCount.get "Unable to read ranges slice" data
  let (tags, data) ← readSlice handlerCount.get "Unable to read tags slice" data
  let (contexts, data) ← readSlice handlerCount.get "Unable to read contexts slice" data
  let (handlers, data) ← readSlice handlerCount.get "Unable to read handlers slice" data
  if data.isEmpty then .ok { callsites, ranges, tags, contexts, handlers }
  else .error "Unexpected data at end of serialized exception table"

def rangeAt (t : ExceptionTable) (i : Nat) : Prog Unit Empty Nat := do
  let w ← unwrap t.ranges[i]? (.bounds "self.ranges")
  pure w.get

def rangeStart (t : ExceptionTable) (i : Nat) : Prog Unit Empty Nat :=
  if i > 0 then t.rangeAt (i - 1) else pure 0

def subslice (words : List U32Bytes) (start stop : Nat) : Prog Unit Empty (List U32Bytes) := do
  assert (decide (start ≤ stop ∧ stop ≤ words.length)) (.bounds "start_idx..end_idx")
  pure ((words.take stop).drop start)

/-- The end of `lookup`: the handlers of one call site. -/
def lookupTag (tags handlers : List U32Bytes) (tag : Nat) : Prog Unit Empty (Option Nat) :=
  match binarySearch (tags.map U32Bytes.get) tag with
  | some handlerIdx => do
    let w ← unwrap handlers[handlerIdx]? (.bounds "handlers")
    pure (some w.get)
  | none =>
    if tags.getLast?.map U32Bytes.get = some u32Max then do
      let w ← unwrap handlers.getLast? (.unwrap "handlers.last()")
      pure (some w.get)
    else pure none

def lookup (t : ExceptionTable) (pc tag : Nat) : Prog Unit Empty (Option Nat) :=
  match binarySearch (t.callsites.map U32Bytes.get) pc with
  | none => pure none
  | some callsiteIdx => do
    let endIdx ← t.rangeAt callsiteIdx
    let startIdx ← t.rangeStart callsiteIdx
    let tags ← subslice t.tags startIdx endIdx
    let handlers ← subslice t.handlers startIdx endIdx
    lookupTag tags handlers tag

/-! ### The accepted byte strings -/

def toBuilder (t : ExceptionTable) : ExceptionTableBuilder :=
  ⟨t.callsites, t.ranges, t.tags, t.contexts, t.handlers, 0⟩

/-- Lengths agree where one count stands for several arrays, and the counts fit a word. -/
structure WellFormed (t : ExceptionTable) : Prop where
  ranges : t.ranges.length = t.callsites.length
  tags : t.tags.length = t.handlers.length
  contexts : t.contexts.length = t.handlers.length
  callsites_lt : t.callsites.length < u32Size
  handlers_lt : t.handlers.length < u32Size

theorem readSlice_eq_ok {count : Nat} {error : String} {data rest : List UInt8}
    {ws : List U32Bytes} :
    readSlice count error data = .ok (ws, rest) ↔
      ws.length = count ∧ data = bytesOfSlice ws ++ rest := by
  rw [← sliceFromBytes_eq_some]
  unfold readSlice
  cases sliceFromBytes count data <;> simp

theorem readWord_eq_ok {error : String} {data rest : List UInt8} {w : U32Bytes} :
    readWord error data = .ok (w, rest) ↔ data = bytesOfSlice [w] ++ rest := by
  have h : sliceFromBytes 1 data = some ([w], rest) ↔ data = bytesOfSlice [w] ++ rest := by
    rw [sliceFromBytes_eq_some]
    exact and_iff_right rfl
  rw [← h]
  unfold readWord
  rcases hd : sliceFromBytes 1 data with _ | ⟨ws, rest'⟩
  · simp
  · obtain ⟨hlen, -⟩ := sliceFromBytes_eq_some.1 hd
    obtain ⟨w', rfl⟩ := length_eq_one_iff.1 hlen
    simp

theorem bind_eq_ok {α β : Type} {x : Except String α} {f : α → Except String β} {b : β} :
    (x >>= f) = .ok b ↔ ∃ a, x = .ok a ∧ f a = .ok b := by
  cases x with
  | error e => exact ⟨nofun, fun ⟨_, h, _⟩ => by cases h⟩
  | ok a => exact ⟨fun h => ⟨a, rfl, h⟩, fun ⟨_, h, h'⟩ => by cases h; exact h'⟩

/-- **The accepted byte strings** are the serialisations of well-formed tables. -/
theorem parse_eq_ok {data : List UInt8} {t : ExceptionTable} :
    parse data = .ok t ↔ t.WellFormed ∧ data = t.toBuilder.bytes := by
  unfold parse
  simp only [bind_eq_ok, Prod.exists, readWord_eq_ok, readSlice_eq_ok]
  constructor
  · rintro ⟨cc, _, rfl, hc, _, rfl, callsites, _, ⟨h1, rfl⟩, ranges, _, ⟨h2, rfl⟩, tags, _,
      ⟨h3, rfl⟩, contexts, _, ⟨h4, rfl⟩, handlers, rest, ⟨h5, rfl⟩, hend⟩
    split_ifs at hend with hempty
    cases hend
    obtain rfl := List.isEmpty_iff.1 hempty
    refine ⟨⟨h2.trans h1.symm, h3.trans h5.symm, h4.trans h5.symm, h1 ▸ cc.get_lt,
      h5 ▸ hc.get_lt⟩, ?_⟩
    simp only [toBuilder, ExceptionTableBuilder.bytes, h1, h5, new_get, append_nil]
  · rintro ⟨h, rfl⟩
    refine ⟨.new t.callsites.length, _, rfl, .new t.handlers.length, _, rfl, t.callsites, _,
      ⟨?_, rfl⟩, t.ranges, _, ⟨?_, rfl⟩, t.tags, _, ⟨?_, rfl⟩, t.contexts, _, ⟨?_, rfl⟩,
      t.handlers, [], ⟨?_, (append_nil _).symm⟩, rfl⟩
    · rw [get_new h.callsites_lt]
    · rw [get_new h.callsites_lt, h.ranges]
    · rw [get_new h.handlers_lt, h.tags]
    · rw [get_new h.handlers_lt, h.contexts]
    · rw [get_new h.handlers_lt]

end ExceptionTable

/-! ### The entries of a table -/

/-- A handler as the table has it; the key of the default handler is `u32::MAX`. -/
structure Item where
  key : Nat
  context : Nat
  handler : Nat

/-- A call site as the table has it, at its return address in the code section. -/
structure Entry where
  addr : Nat
  items : List Item

def itemsOf (startOffset : Nat) : Nat → List FinalizedMachExceptionHandler → List Item
  | _, [] => []
  | context, .tag tag offset :: rest =>
    ⟨tag, context, offset + startOffset⟩ :: itemsOf startOffset context rest
  | context, .default offset :: rest =>
    ⟨u32Max, context, offset + startOffset⟩ :: itemsOf startOffset context rest
  | _, .context (.spOffset offset) :: rest => itemsOf startOffset offset rest
  | context, .context (.gpr _) :: rest => itemsOf startOffset context rest

def FinalizedMachCallSite.entry (callSite : FinalizedMachCallSite) (startOffset : Nat) : Entry :=
  ⟨callSite.retAddr + startOffset, itemsOf startOffset u32Max callSite.exceptionHandlers⟩

def Func.entries (f : Func) : List Entry := f.callSites.map (·.entry f.startOffset)

def entriesOf (funcs : List Func) : List Entry := funcs.flatMap Func.entries

def kept (es : List Entry) : List Entry := es.filter fun e => !e.items.isEmpty

def handlerCount (es : List Entry) : Nat := (es.map (·.items.length)).sum

/-- The offset of a handler fits, and its context is on the stack. -/
def FinalizedMachExceptionHandler.Fits (startOffset : Nat) : FinalizedMachExceptionHandler → Prop
  | .tag _ offset => offset + startOffset < u32Size
  | .default offset => offset + startOffset < u32Size
  | .context (.spOffset _) => True
  | .context (.gpr _) => False

instance (startOffset : Nat) (h : FinalizedMachExceptionHandler) : Decidable (h.Fits startOffset) := by
  unfold FinalizedMachExceptionHandler.Fits
  split <;> infer_instance

def FinalizedMachCallSite.Fits (startOffset : Nat) (callSite : FinalizedMachCallSite) : Prop :=
  callSite.retAddr + startOffset < u32Size ∧ ∀ h ∈ callSite.exceptionHandlers, h.Fits startOffset

/-- All offsets fit a word, the contexts are on the stack, and the handlers can be counted. -/
structure Encodable (funcs : List Func) : Prop where
  fits : ∀ f ∈ funcs, ∀ callSite ∈ f.callSites, callSite.Fits f.startOffset
  count : handlerCount (entriesOf funcs) < u32Size

namespace ExceptionTableBuilder

def pushItems (s : ExceptionTableBuilder) (items : List Item) : ExceptionTableBuilder :=
  { s with
    tags := s.tags ++ items.map fun x => .new x.key
    contexts := s.contexts ++ items.map fun x => .new x.context
    handlers := s.handlers ++ items.map fun x => .new x.handler }

def pushEntry (s : ExceptionTableBuilder) (e : Entry) : ExceptionTableBuilder :=
  if e.items.isEmpty then s
  else { s.pushItems e.items with
    ranges := s.ranges ++ [.new (s.tags.length + e.items.length)]
    callsites := s.callsites ++ [.new e.addr] }

variable {s s' : ExceptionTableBuilder}

theorem sectionOffset_ok {offset startOffset n : Nat} :
    sectionOffset offset startOffset s = (.ok n, s') ↔
      offset + startOffset < u32Size ∧ n = offset + startOffset ∧ s' = s := by
  unfold sectionOffset
  rw [bind_ok]
  simp only [assert_ok, pure_ok, decide_eq_true_eq]
  constructor
  · rintro ⟨_, _, ⟨h, rfl⟩, rfl, rfl⟩
    exact ⟨h, rfl, rfl⟩
  · rintro ⟨h, rfl, rfl⟩
    exact ⟨(), _, ⟨h, rfl⟩, rfl, rfl⟩

variable {u : Unit}

theorem pushHandler_ok {startOffset tag context offset : Nat} :
    pushHandler startOffset tag context offset s = (.ok u, s') ↔
      offset + startOffset < u32Size ∧ s' = s.pushItems [⟨tag, context, offset + startOffset⟩] := by
  unfold pushHandler
  rw [run_modify_bind, run_modify_bind, bind_ok]
  simp only [sectionOffset_ok, modify_ok]
  constructor
  · rintro ⟨_, _, ⟨h, rfl, rfl⟩, rfl⟩
    exact ⟨h, rfl⟩
  · rintro ⟨h, rfl⟩
    exact ⟨_, _, ⟨h, rfl, rfl⟩, rfl⟩

theorem pushItems_pushItems (s : ExceptionTableBuilder) (l l' : List Item) :
    (s.pushItems l).pushItems l' = s.pushItems (l ++ l') := by
  simp [pushItems, append_assoc]

theorem pushItems_nil (s : ExceptionTableBuilder) : s.pushItems [] = s := by
  simp [pushItems]

theorem pushHandlers_ok {startOffset context : Nat} {hs : List FinalizedMachExceptionHandler} :
    pushHandlers startOffset context hs s = (.ok u, s') ↔
      (∀ h ∈ hs, h.Fits startOffset) ∧ s' = s.pushItems (itemsOf startOffset context hs) := by
  induction hs generalizing context s with
  | nil => simp [pushHandlers, itemsOf, pushItems_nil, eq_comm]
  | cons h hs ih =>
    rw [forall_mem_cons]
    cases h with
    | tag tag offset | default offset =>
      rw [pushHandlers, bind_ok]
      simp only [pushHandler_ok, ih, itemsOf, FinalizedMachExceptionHandler.Fits]
      constructor
      · rintro ⟨_, _, ⟨h, rfl⟩, hs, rfl⟩
        exact ⟨⟨h, hs⟩, pushItems_pushItems ..⟩
      · rintro ⟨⟨h, hs⟩, rfl⟩
        exact ⟨(), _, ⟨h, rfl⟩, hs, (pushItems_pushItems s [_] _).symm⟩
    | context loc =>
      cases loc with
      | spOffset offset =>
        rw [pushHandlers, ih]
        simp [itemsOf, FinalizedMachExceptionHandler.Fits]
      | gpr reg => simp [pushHandlers, FinalizedMachExceptionHandler.Fits]

theorem tagsLen_ok {n : Nat} :
    tagsLen s = (.ok n, s') ↔ s.tags.length < u32Size ∧ n = s.tags.length ∧ s' = s := by
  unfold tagsLen
  rw [run_get_bind, bind_ok]
  simp only [assert_ok, pure_ok, decide_eq_true_eq]
  constructor
  · rintro ⟨_, _, ⟨h, rfl⟩, rfl, rfl⟩
    exact ⟨h, rfl, rfl⟩
  · rintro ⟨h, rfl, rfl⟩
    exact ⟨(), _, ⟨h, rfl⟩, rfl, rfl⟩

theorem length_tags_pushEntry (s : ExceptionTableBuilder) (e : Entry) :
    (s.pushEntry e).tags.length = s.tags.length + e.items.length := by
  unfold pushEntry
  split_ifs with h
  · rw [List.isEmpty_iff.1 h]
    rfl
  · simp [pushItems]

theorem addCallSites_ok {startOffset : Nat} {sites : List FinalizedMachCallSite}
    (s : ExceptionTableBuilder) {s' : ExceptionTableBuilder} (hlen : s.tags.length < u32Size) :
    addCallSites startOffset sites s = (.ok u, s') ↔ (∀ c ∈ sites, c.Fits startOffset) ∧
      s.tags.length + handlerCount (sites.map (·.entry startOffset)) < u32Size ∧
      s' = (sites.map (·.entry startOffset)).foldl pushEntry s := by
  induction sites generalizing s with
  | nil => simp [addCallSites, handlerCount, hlen, eq_comm]
  | cons c sites ih =>
    have hpush : ∀ u : ExceptionTableBuilder,
        u = s.pushItems (itemsOf startOffset u32Max c.exceptionHandlers) →
        (if s.tags.length < u.tags.length then
          { u with
            ranges := u.ranges ++ [.new u.tags.length]
            callsites := u.callsites ++ [.new (c.retAddr + startOffset)] }
        else u) = s.pushEntry (c.entry startOffset) := by
      rintro u rfl
      unfold pushEntry FinalizedMachCallSite.entry
      cases itemsOf startOffset u32Max c.exceptionHandlers with
      | nil | cons x l => simp [pushItems]
    have hcount : handlerCount ((c :: sites).map (·.entry startOffset)) =
        (itemsOf startOffset u32Max c.exceptionHandlers).length +
          handlerCount (sites.map (·.entry startOffset)) := by
      simp [handlerCount, FinalizedMachCallSite.entry]
    have hlen' : (s.pushItems (itemsOf startOffset u32Max c.exceptionHandlers)).tags.length =
        s.tags.length + (itemsOf startOffset u32Max c.exceptionHandlers).length := by
      simp [pushItems]
    rw [addCallSites, forall_mem_cons, hcount, map_cons, foldl_cons]
    constructor
    · intro hrun
      obtain ⟨_, _, h1, hrun1⟩ := bind_ok.1 hrun
      obtain ⟨hret, rfl, rfl⟩ := sectionOffset_ok.1 h1
      obtain ⟨_, _, h2, hrun2⟩ := bind_ok.1 hrun1
      obtain ⟨-, rfl, rfl⟩ := tagsLen_ok.1 h2
      obtain ⟨_, _, h3, hrun3⟩ := bind_ok.1 hrun2
      obtain ⟨hfits, rfl⟩ := pushHandlers_ok.1 h3
      obtain ⟨_, _, h4, hrun4⟩ := bind_ok.1 hrun3
      obtain ⟨hend, rfl, rfl⟩ := tagsLen_ok.1 h4
      rw [run_modify_bind, hpush _ rfl, ih] at hrun4
      · obtain ⟨hrest, hcnt, rfl⟩ := hrun4
        rw [length_tags_pushEntry] at hcnt
        refine ⟨⟨⟨hret, hfits⟩, hrest⟩, ?_, rfl⟩
        change _ + (itemsOf startOffset u32Max c.exceptionHandlers).length + _ < _ at hcnt
        omega
      · rw [length_tags_pushEntry]
        rw [hlen'] at hend
        exact hend
    · rintro ⟨⟨⟨hret, hfits⟩, hrest⟩, hcnt, rfl⟩
      refine bind_ok.2 ⟨_, s, sectionOffset_ok.2 ⟨hret, rfl, rfl⟩, ?_⟩
      refine bind_ok.2 ⟨_, s, tagsLen_ok.2 ⟨hlen, rfl, rfl⟩, ?_⟩
      refine bind_ok.2 ⟨(), _, pushHandlers_ok.2 ⟨hfits, rfl⟩, ?_⟩
      refine bind_ok.2 ⟨_, _, tagsLen_ok.2 ⟨by rw [hlen']; omega, rfl, rfl⟩, ?_⟩
      have hentry : (s.pushEntry (c.entry startOffset)).tags.length =
          s.tags.length + (itemsOf startOffset u32Max c.exceptionHandlers).length :=
        length_tags_pushEntry ..
      rw [run_modify_bind, hpush _ rfl, ih _ (by omega)]
      exact ⟨hrest, by omega, rfl⟩

/-! ### The layout -/

/-- The arrays are the entries laid end to end, each range with the end of its entry. -/
structure Laid (s : ExceptionTableBuilder) (es : List Entry) : Prop where
  callsites : s.callsites = es.map fun e => .new e.addr
  ranges : s.ranges = (List.range es.length).map fun i => .new (handlerCount (es.take (i + 1)))
  tags : s.tags = (es.flatMap (·.items)).map fun x => .new x.key
  contexts : s.contexts = (es.flatMap (·.items)).map fun x => .new x.context
  handlers : s.handlers = (es.flatMap (·.items)).map fun x => .new x.handler

theorem laid_empty : Laid empty [] := ⟨rfl, rfl, rfl, rfl, rfl⟩

theorem length_flatMap_items (es : List Entry) :
    (es.flatMap (·.items)).length = handlerCount es := by
  simp [handlerCount, length_flatMap]

variable {es : List Entry}

variable {s : ExceptionTableBuilder}

theorem Laid.length_tags (h : Laid s es) : s.tags.length = handlerCount es := by
  rw [h.tags, length_map, length_flatMap_items]

theorem handlerCount_append (es es' : List Entry) :
    handlerCount (es ++ es') = handlerCount es + handlerCount es' := by
  simp [handlerCount]

theorem handlerCount_kept (es : List Entry) : handlerCount (kept es) = handlerCount es := by
  induction es with
  | nil => rfl
  | cons e es ih =>
    have hcons : ∀ l : List Entry, handlerCount (e :: l) = e.items.length + handlerCount l := by
      intro l
      simp [handlerCount]
    cases hitems : e.items with
    | nil => rw [hcons, ← ih, hitems]; simp [kept, hitems]
    | cons x l =>
      have hk : kept (e :: es) = e :: kept es := by simp [kept, hitems]
      rw [hk, hcons, hcons, ih]

theorem Laid.pushEntry (h : Laid s es) (e : Entry) : Laid (s.pushEntry e) (es ++ kept [e]) := by
  unfold ExceptionTableBuilder.pushEntry
  cases hitems : e.items.isEmpty with
  | true => simpa [kept, hitems] using h
  | false =>
    have hkept : kept [e] = [e] := by simp [kept, hitems]
    rw [hkept]
    refine ⟨?_, ?_, ?_, ?_, ?_⟩
    · simp [h.callsites]
    · have hearlier : ∀ i ∈ List.range es.length,
          U32Bytes.new (handlerCount ((es ++ [e]).take (i + 1))) =
            U32Bytes.new (handlerCount (es.take (i + 1))) := by
        intro i hi
        rw [take_append_of_le_length (by simpa using hi)]
      have hlast : handlerCount ((es ++ [e]).take (es.length + 1)) =
          s.tags.length + e.items.length := by
        rw [take_of_length_le (by simp), handlerCount_append, h.length_tags]
        simp [handlerCount]
      simp only [Bool.false_eq_true, if_false, length_append, length_cons,
        length_nil, Nat.zero_add, range_succ, map_append, map_cons,
        map_nil, hlast, map_congr_left hearlier, ← h.ranges]
    · simp [pushItems, h.tags]
    · simp [pushItems, h.contexts]
    · simp [pushItems, h.handlers]

theorem Laid.foldl_pushEntry (h : Laid s es) (l : List Entry) :
    Laid (l.foldl ExceptionTableBuilder.pushEntry s) (es ++ kept l) := by
  induction l generalizing s es with
  | nil => simpa [kept] using h
  | cons e l ih =>
    have hsplit : es ++ kept (e :: l) = (es ++ kept [e]) ++ kept l := by
      rw [append_assoc]
      congr 1
      exact filter_append [e] l
    rw [foldl_cons, hsplit]
    exact ih (h.pushEntry e)

theorem Laid.lastStartOffset (h : Laid s es) (n : Nat) : Laid { s with lastStartOffset := n } es :=
  ⟨h.callsites, h.ranges, h.tags, h.contexts, h.handlers⟩

theorem lastStartOffset_foldl_pushEntry (s : ExceptionTableBuilder) (l : List Entry) :
    (l.foldl ExceptionTableBuilder.pushEntry s).lastStartOffset = s.lastStartOffset := by
  induction l generalizing s with
  | nil => rfl
  | cons e l ih =>
    rw [foldl_cons, ih]
    unfold ExceptionTableBuilder.pushEntry
    split_ifs <;> rfl

theorem addFunc_ok {f : Func} (hlen : s.tags.length < u32Size) :
    addFunc f.startOffset f.callSites s = (.ok u, s') ↔
      s.lastStartOffset ≤ f.startOffset ∧ (∀ c ∈ f.callSites, c.Fits f.startOffset) ∧
      s.tags.length + handlerCount f.entries < u32Size ∧
      s' = f.entries.foldl ExceptionTableBuilder.pushEntry
        { s with lastStartOffset := f.startOffset } := by
  have hsites : addCallSites f.startOffset f.callSites
      { s with lastStartOffset := f.startOffset } = (.ok u, s') ↔ _ := addCallSites_ok _ hlen
  unfold addFunc
  rw [run_get_bind, bind_ok]
  simp only [assert_ok, decide_eq_true_eq]
  constructor
  · rintro ⟨_, _, ⟨hle, rfl⟩, hrun⟩
    exact ⟨hle, hsites.1 hrun⟩
  · rintro ⟨hle, hrun⟩
    exact ⟨(), s, ⟨hle, rfl⟩, hsites.2 hrun⟩

end ExceptionTableBuilder

/-! ### Building from functions -/

open ExceptionTableBuilder

theorem entriesOf_cons (f : Func) (funcs : List Func) :
    entriesOf (f :: funcs) = f.entries ++ entriesOf funcs := rfl

theorem kept_append (es es' : List Entry) : kept (es ++ es') = kept es ++ kept es' :=
  filter_append es es'

variable {es : List Entry}

theorem addFunc_laid {f : Func} {s s' : ExceptionTableBuilder} {u : Unit} (hlaid : Laid s es)
    (hlen : s.tags.length < u32Size) (hrun : addFunc f.startOffset f.callSites s = (.ok u, s')) :
    Laid s' (es ++ kept f.entries) ∧ s'.tags.length = s.tags.length + handlerCount f.entries ∧
      s'.tags.length < u32Size ∧ s'.lastStartOffset = f.startOffset := by
  obtain ⟨-, -, hcnt, rfl⟩ := (addFunc_ok hlen).1 hrun
  have hl := (hlaid.lastStartOffset f.startOffset).foldl_pushEntry f.entries
  have hn := hl.length_tags
  rw [handlerCount_append, handlerCount_kept, ← hlaid.length_tags] at hn
  exact ⟨hl, hn, by omega, lastStartOffset_foldl_pushEntry ..⟩

variable {funcs : List Func}

theorem addFuncs_laid {s s' : ExceptionTableBuilder} (hlaid : Laid s es)
    (hlen : s.tags.length < u32Size) (hrun : addFuncs funcs s = (.ok (), s')) :
    Laid s' (es ++ kept (entriesOf funcs)) ∧
      (∀ f ∈ funcs, ∀ c ∈ f.callSites, c.Fits f.startOffset) ∧
      s.tags.length + handlerCount (entriesOf funcs) < u32Size := by
  induction funcs generalizing s es with
  | nil =>
    cases hrun
    exact ⟨by simpa [entriesOf, kept] using hlaid, nofun, by simpa [entriesOf, handlerCount]⟩
  | cons f funcs ih =>
    obtain ⟨_, s1, h1, h2⟩ := bind_ok.1 hrun
    obtain ⟨hlaid1, hn1, hlt1, -⟩ := addFunc_laid hlaid hlen h1
    obtain ⟨-, hfits, -, -⟩ := (addFunc_ok hlen).1 h1
    obtain ⟨hl, hrest, hcnt⟩ := ih hlaid1 hlt1 h2
    rw [entriesOf_cons, handlerCount_append, kept_append, ← append_assoc]
    exact ⟨hl, forall_mem_cons.2 ⟨hfits, hrest⟩, by omega⟩

variable {s : ExceptionTableBuilder}

theorem addFuncs_run (hlaid : Laid s es) (hlen : s.tags.length < u32Size)
    (hstart : ∀ f ∈ funcs, s.lastStartOffset ≤ f.startOffset)
    (hasc : funcs.Pairwise fun f g => f.startOffset ≤ g.startOffset)
    (hfits : ∀ f ∈ funcs, ∀ c ∈ f.callSites, c.Fits f.startOffset)
    (hcnt : s.tags.length + handlerCount (entriesOf funcs) < u32Size) :
    ∃ s', addFuncs funcs s = (.ok (), s') := by
  induction funcs generalizing s es with
  | nil => exact ⟨s, rfl⟩
  | cons f funcs ih =>
    rw [pairwise_cons] at hasc
    rw [forall_mem_cons] at hstart hfits
    rw [entriesOf_cons, handlerCount_append] at hcnt
    have h1 := (addFunc_ok (u := ()) hlen).2 ⟨hstart.1, hfits.1, by omega, rfl⟩
    obtain ⟨hlaid1, hn1, hlt1, hlast1⟩ := addFunc_laid hlaid hlen h1
    obtain ⟨s', h2⟩ := ih hlaid1 hlt1 (by rw [hlast1]; exact hasc.1) hasc.2 hfits.2 (by omega)
    exact ⟨s', bind_ok.2 ⟨(), _, h1, h2⟩⟩

theorem length_kept_le (es : List Entry) : (kept es).length ≤ handlerCount es := by
  rw [← handlerCount_kept]
  have hpos : ∀ e ∈ kept es, 1 ≤ e.items.length := by
    intro e he
    have := (mem_filter.1 he).2
    simpa [length_pos_iff, Nat.one_le_iff_ne_zero] using this
  have hsum := card_nsmul_le_sum ((kept es).map (·.items.length)) 1 (by
    intro n hn
    obtain ⟨e, he, rfl⟩ := mem_map.1 hn
    exact hpos e he)
  simpa [handlerCount] using hsum

def tableOf (es : List Entry) : ExceptionTable where
  callsites := es.map fun e => .new e.addr
  ranges := (List.range es.length).map fun i => .new (handlerCount (es.take (i + 1)))
  tags := (es.flatMap (·.items)).map fun x => .new x.key
  contexts := (es.flatMap (·.items)).map fun x => .new x.context
  handlers := (es.flatMap (·.items)).map fun x => .new x.handler

theorem toVec_run (hrun : addFuncs funcs empty = (.ok (), s)) : toVec s = (.ok s.bytes, s) ∧
      ExceptionTable.parse s.bytes = .ok (tableOf (kept (entriesOf funcs))) := by
  obtain ⟨hl, -, hcnt⟩ := addFuncs_laid laid_empty (by decide) hrun
  rw [nil_append] at hl
  rw [show empty.tags.length = 0 from rfl, Nat.zero_add] at hcnt
  have hcallsites : s.callsites.length < u32Size := by
    rw [hl.callsites, length_map]
    exact (length_kept_le _).trans_lt hcnt
  have hhandlers : s.handlers.length < u32Size := by
    rw [hl.handlers, length_map, length_flatMap_items, handlerCount_kept]
    exact hcnt
  refine ⟨by simp [toVec, run_bind, assert, hcallsites, hhandlers], ?_⟩
  rw [ExceptionTable.parse_eq_ok]
  have hbytes : s.bytes = (tableOf (kept (entriesOf funcs))).toBuilder.bytes := by
    simp only [ExceptionTableBuilder.bytes, ExceptionTable.toBuilder, tableOf, ← hl.callsites,
      ← hl.ranges, ← hl.tags, ← hl.contexts, ← hl.handlers]
  refine ⟨⟨?_, ?_, ?_, ?_, ?_⟩, hbytes⟩
  · simp [tableOf]
  · simp [tableOf]
  · simp [tableOf]
  · rwa [hl.callsites] at hcallsites
  · rwa [hl.handlers] at hhandlers

theorem build_parse {data : List UInt8} (hrun : build funcs empty = (.ok data, s)) :
    Encodable funcs ∧
      ExceptionTable.parse data = .ok (tableOf (kept (entriesOf funcs))) := by
  obtain ⟨_, s1, h1, h2⟩ := bind_ok.1 hrun
  obtain ⟨-, hfits, hcnt⟩ := addFuncs_laid laid_empty (by decide) h1
  rw [show empty.tags.length = 0 from rfl, Nat.zero_add] at hcnt
  obtain ⟨hvec, hparse⟩ := toVec_run h1
  rw [hvec] at h2
  cases h2
  exact ⟨⟨hfits, hcnt⟩, hparse⟩

/-- **Which inputs are taken.** Functions in ascending order are written exactly if they are
encodable. -/
theorem build_ok_iff (hasc : funcs.Pairwise fun f g => f.startOffset ≤ g.startOffset) :
    (∃ data s, build funcs empty = (.ok data, s)) ↔ Encodable funcs := by
  constructor
  · rintro ⟨data, s, hrun⟩
    exact (build_parse hrun).1
  · rintro ⟨hfits, hcnt⟩
    obtain ⟨s, hs⟩ := addFuncs_run laid_empty (by decide) (fun f _ => Nat.zero_le _) hasc hfits
      (by rwa [show empty.tags.length = 0 from rfl, Nat.zero_add])
    exact ⟨s.bytes, s, bind_ok.2 ⟨(), s, hs, (toVec_run hs).1⟩⟩

end Wasmtime.Unwinder
