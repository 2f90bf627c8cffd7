import Wasmtime.Base.Prog

/-!
# The host's buffers

`moveFrom` takes `count` items from a `WriteBuffer` to a `ReadBuffer`: `take` of the source picks
the slice that is handed over and marks `count` items as gone, and the closure of the destination
copies the slice that it gets.

`moveFrom_run`: the destination ends up with `handed`. An `Option`, on either side, moves exactly
`count` items. Every other source hands over all that remains and every other destination copies all
of it, so that such a pair is exact only if `count` is all that remains (`moveFrom_exact_iff`).
-/

namespace Wasmtime.Concurrent.Buffers

open Base Prog List

variable {α β σ : Type}

/-! ### The source -/

/-- The items from `offset` on are initialised and not yet moved. -/
structure VecBuffer (α : Type) where
  buffer : List α
  offset : Nat
  le : offset ≤ buffer.length

/-- A `Cursor` over `Bytes` or `BytesMut`, not past its end: there `remaining` panics. -/
structure Cursor (α : Type) where
  inner : List α
  position : Nat
  le : position ≤ inner.length

/-- The implementations of `WriteBuffer`; the last two are for bytes. -/
inductive WriteBuffer (α : Type) where
  | option (item : Option α)
  | vecBuffer (v : VecBuffer α)
  | cursorBytes (c : Cursor α)
  | cursorBytesMut (c : Cursor α)

def VecBuffer.remaining (v : VecBuffer α) : List α := v.buffer.drop v.offset

def Cursor.remaining (c : Cursor α) : List α := c.inner.drop c.position

variable {count : Nat}

theorem VecBuffer.le_advance (v : VecBuffer α) (h : count ≤ v.remaining.length) :
    v.offset + count ≤ v.buffer.length := by
  have := v.le
  simp only [remaining, length_drop] at h
  omega

theorem Cursor.le_advance (c : Cursor α) (h : count ≤ c.remaining.length) :
    c.position + count ≤ c.inner.length := by
  have := c.le
  simp only [remaining, length_drop] at h
  omega

def VecBuffer.advance (v : VecBuffer α) (count : Nat) (h : count ≤ v.remaining.length) :
    VecBuffer α :=
  { v with offset := v.offset + count, le := v.le_advance h }

def Cursor.advance (c : Cursor α) (count : Nat) (h : count ≤ c.remaining.length) : Cursor α :=
  { c with position := c.position + count, le := c.le_advance h }

theorem VecBuffer.remaining_advance (v : VecBuffer α) (count : Nat)
    (h : count ≤ v.remaining.length) : (v.advance count h).remaining = v.remaining.drop count := by
  simp [remaining, advance, drop_drop]

theorem Cursor.remaining_advance (c : Cursor α) (count : Nat)
    (h : count ≤ c.remaining.length) : (c.advance count h).remaining = c.remaining.drop count := by
  simp [remaining, advance, drop_drop]

def WriteBuffer.remaining : WriteBuffer α → List α
  | .option item => item.toList
  | .vecBuffer v => v.remaining
  | .cursorBytes c => c.remaining
  | .cursorBytesMut c => c.remaining

def WriteBuffer.isOption : WriteBuffer α → Bool
  | .option _ => true
  | _ => false

def onOutput (m : Prog σ Empty Unit) : Prog (β × σ) Empty Unit :=
  zoom Prod.snd (fun t s => (s.1, t)) m

/-- The `skip` of a cursor in `WriteBuffer`, where `wrap` says which cursor it is. -/
def skipCursor (wrap : Cursor α → WriteBuffer α) (c : Cursor α) (count : Nat) :
    Prog (WriteBuffer α × σ) Empty Unit :=
  if h : count ≤ c.remaining.length then Prog.modify fun s => (wrap (c.advance count h), s.2)
  else Prog.panic (.assert "Cursor::skip")

/-- The `take` of a cursor: `fun` sees all that remains, and then `count` items are skipped. -/
def takeCursor (wrap : Cursor α → WriteBuffer α) (c : Cursor α) (count : Nat)
    (f : List α → Prog σ Empty Unit) : Prog (WriteBuffer α × σ) Empty Unit := do
  assert (count ≤ c.remaining.length) (.assert "Cursor::take")
  onOutput (f c.remaining)
  skipCursor wrap c count

/-- `WriteBuffer::take` of the buffer `w`, which is the first part of the state. -/
def take (w : WriteBuffer α) (count : Nat) (f : List α → Prog σ Empty Unit) :
    Prog (WriteBuffer α × σ) Empty Unit :=
  match w with
  | .option item =>
    match count with
    | 0 => onOutput (f [])
    | 1 => do
      let x ← unwrap item (.unwrap "Option::take")
      Prog.modify fun s => (.option none, s.2)
      onOutput (f [x])
    | _ => Prog.panic (.assert "cannot forget more items")
  | .vecBuffer v =>
    if h : count ≤ v.remaining.length then do
      let v' := v.advance count h
      Prog.modify fun s => (.vecBuffer v', s.2)
      onOutput (f (v'.buffer.drop (v'.offset - count)))
    else Prog.panic (.assert "VecBuffer::take")
  | .cursorBytes c => takeCursor .cursorBytes c count f
  | .cursorBytesMut c => takeCursor .cursorBytesMut c count f

def WriteBuffer.slice : WriteBuffer α → Nat → List α
  | .option item, count => item.toList.take count
  | w, _ => w.remaining

theorem onOutput_run {m : Prog σ Empty Unit} {b : β} {t t' : σ} (h : m t = (.ok (), t')) :
    onOutput m (b, t) = (.ok (), (b, t')) := by
  simp only [onOutput, zoom, h]

variable {w : WriteBuffer α}

theorem takeCursor_run {wrap : Cursor α → WriteBuffer α} {c : Cursor α}
    {f : List α → Prog σ Empty Unit} {t t' : σ} (h : count ≤ c.remaining.length)
    (hf : f c.remaining t = (.ok (), t')) :
    takeCursor wrap c count f (w, t) = (.ok (), (wrap (c.advance count h), t')) := by
  unfold takeCursor
  have hassert : (assert (count ≤ c.remaining.length) (.assert "Cursor::take") :
      Prog (WriteBuffer α × σ) Empty Unit) (w, t) = (.ok (), (w, t)) := by
    simp [h]
  rw [run_bind_ok hassert, run_bind_ok (onOutput_run hf), skipCursor, dif_pos h]
  rfl

/-- **What `take` does.** It runs the closure once, on the slice, and exactly `count` items
are gone. -/
theorem take_run (f : List α → Prog σ Empty Unit) {t t' : σ} (h : count ≤ w.remaining.length)
    (hf : f (w.slice count) t = (.ok (), t')) :
    ∃ w', take w count f (w, t) = (.ok (), (w', t')) ∧ w'.remaining = w.remaining.drop count := by
  cases w with
  | option item =>
    cases item with
    | none =>
      obtain rfl : count = 0 := by simpa [WriteBuffer.remaining] using h
      exact ⟨_, onOutput_run hf, rfl⟩
    | some x =>
      have hle : count ≤ 1 := by simpa [WriteBuffer.remaining] using h
      obtain rfl | rfl : count = 0 ∨ count = 1 := by omega
      · exact ⟨_, onOutput_run hf, rfl⟩
      · refine ⟨.option none, ?_, rfl⟩
        exact onOutput_run (b := WriteBuffer.option none) hf
  | vecBuffer v =>
    refine ⟨.vecBuffer (v.advance count h), ?_, v.remaining_advance count h⟩
    have hslice : (v.advance count h).buffer.drop ((v.advance count h).offset - count)
        = v.remaining := by
      simp [VecBuffer.advance, VecBuffer.remaining]
    have hf' : f v.remaining t = (.ok (), t') := hf
    rw [← hslice] at hf'
    change (if h : count ≤ v.remaining.length then _ else _ : Prog _ _ _) _ = _
    have h' : count ≤ v.remaining.length := h
    rw [dif_pos h']
    exact onOutput_run hf'
  | cursorBytes c =>
    exact ⟨.cursorBytes (c.advance count h), takeCursor_run h hf, c.remaining_advance count h⟩
  | cursorBytesMut c =>
    exact ⟨.cursorBytesMut (c.advance count h), takeCursor_run h hf, c.remaining_advance count h⟩

/-! ### The destination -/

structure Storage (α : Type) where
  items : List α
  capacity : Nat
  le : items.length ≤ capacity

structure Growth where
  grow : (capacity needed : Nat) → Nat
  needed_le : ∀ capacity needed, needed ≤ grow capacity needed

/-- The items of `slice` put behind those that are there, where the allocation grows only
if there is no room. -/
def Storage.extendFromSlice (g : Growth) (v : Storage α) (slice : List α) : Storage α where
  items := v.items ++ slice
  capacity :=
    if v.items.length + slice.length ≤ v.capacity then v.capacity
    else g.grow v.capacity (v.items.length + slice.length)
  le := by
    rw [length_append]
    split
    · assumption
    · exact g.needed_le _ _

def Storage.push (g : Growth) (v : Storage α) (x : α) : Storage α := v.extendFromSlice g [x]

/-- The implementations of `ReadBuffer`; the last is for bytes. -/
inductive ReadBuffer (α : Type) where
  | option (item : Option α)
  | vec (v : Storage α)
  | bytesMut (v : Storage α)

def ReadBuffer.items : ReadBuffer α → List α
  | .option item => item.toList
  | .vec v => v.items
  | .bytesMut v => v.items

def ReadBuffer.isOption : ReadBuffer α → Bool
  | .option _ => true
  | _ => false

def ReadBuffer.remainingCapacity : ReadBuffer α → Nat
  | .option item => if item.isSome then 0 else 1
  | .vec v => v.capacity - v.items.length
  | .bytesMut v => v.capacity - v.items.length

def storeFirst (slice : List α) : Prog (ReadBuffer α) Empty Unit := do
  let x ← unwrap slice[0]? (.bounds "Option::move_from")
  Prog.set (.option (some x))

/-- `ReadBuffer::move_from`, on the input and the output. -/
def moveFrom (g : Growth) (count : Nat) : Prog (WriteBuffer α × ReadBuffer α) Empty Unit := do
  let s ← Prog.get
  match s.2 with
  | .option item =>
    match count with
    | 0 => pure ()
    | 1 => do
      assert item.isNone (.assert "Option::move_from")
      take s.1 1 storeFirst
    | _ => Prog.panic (.assert "cannot take more items")
  | .vec v => do
    assert (count ≤ s.2.remainingCapacity) (.assert "Vec::move_from")
    take s.1 count fun slice => Prog.set (.vec (slice.foldl (Storage.push g) v))
  | .bytesMut v => do
    assert (count ≤ s.2.remainingCapacity) (.assert "BytesMut::move_from")
    take s.1 count fun slice => Prog.set (.bytesMut (v.extendFromSlice g slice))

def handed (input : WriteBuffer α) (output : ReadBuffer α) (count : Nat) : List α :=
  if output.isOption then input.remaining.take count else input.slice count

theorem items_foldl_push (g : Growth) (slice : List α) (v : Storage α) :
    (slice.foldl (Storage.push g) v).items = v.items ++ slice := by
  induction slice generalizing v with
  | nil => simp
  | cons x slice ih =>
    rw [foldl_cons, ih]
    simp [Storage.push, Storage.extendFromSlice]

theorem slice_head (h : 1 ≤ w.remaining.length) :
    ∃ x, (w.slice 1)[0]? = some x ∧ w.remaining.take 1 = [x] := by
  obtain ⟨x, l, hl⟩ : ∃ x l, w.remaining = x :: l := by
    cases hw : w.remaining with
    | nil => simp [hw] at h
    | cons x l => exact ⟨x, l, rfl⟩
  refine ⟨x, ?_, by rw [hl]; rfl⟩
  cases w with
  | option item =>
    simp only [WriteBuffer.remaining] at hl
    simp [WriteBuffer.slice, hl]
  | vecBuffer v | cursorBytes c | cursorBytesMut c => simp [WriteBuffer.slice, hl]

/-- **What a transfer does.** It returns, exactly `count` items are gone from the source, and
`handed` was put behind the items of the destination. -/
theorem moveFrom_run (g : Growth) (input : WriteBuffer α) (output : ReadBuffer α) (count : Nat)
    (hin : count ≤ input.remaining.length) (hout : count ≤ output.remainingCapacity) :
    ∃ input' output', moveFrom g count (input, output) = (.ok (), (input', output')) ∧
      input'.remaining = input.remaining.drop count ∧
      output'.items = output.items ++ handed input output count ∧
      output'.isOption = output.isOption := by
  unfold moveFrom
  rw [run_get_bind]
  cases output with
  | option item =>
    cases item with
    | some x =>
      obtain rfl : count = 0 := by simpa [ReadBuffer.remainingCapacity] using hout
      exact ⟨input, _, rfl, by simp, by simp [handed, ReadBuffer.isOption], rfl⟩
    | none =>
      have hle : count ≤ 1 := by simpa [ReadBuffer.remainingCapacity] using hout
      obtain rfl | rfl : count = 0 ∨ count = 1 := by omega
      · exact ⟨input, _, rfl, by simp, by simp [handed, ReadBuffer.isOption], rfl⟩
      · obtain ⟨x, hx, htake⟩ := slice_head hin
        have hcopy : storeFirst (input.slice 1) (.option none) = (.ok (), .option (some x)) := by
          simp [storeFirst, hx, unwrap]
        obtain ⟨w', hrun, hw'⟩ := take_run storeFirst hin hcopy
        refine ⟨w', _, hrun, hw', ?_, rfl⟩
        simp [handed, ReadBuffer.isOption, htake, ReadBuffer.items]
  | vec v =>
    have hassert : (assert (count ≤ (ReadBuffer.vec v).remainingCapacity)
        (.assert "Vec::move_from") : Prog (WriteBuffer α × ReadBuffer α) Empty Unit)
        (input, .vec v) = (.ok (), (input, .vec v)) := by
      simp [hout]
    obtain ⟨w', hrun, hw'⟩ := take_run (t := ReadBuffer.vec v)
      (fun slice => Prog.set (.vec (slice.foldl (Storage.push g) v))) hin rfl
    dsimp only
    rw [run_bind_ok hassert]
    exact ⟨w', _, hrun, hw', items_foldl_push g _ v, rfl⟩
  | bytesMut v =>
    have hassert : (assert (count ≤ (ReadBuffer.bytesMut v).remainingCapacity)
        (.assert "BytesMut::move_from") : Prog (WriteBuffer α × ReadBuffer α) Empty Unit)
        (input, .bytesMut v) = (.ok (), (input, .bytesMut v)) := by
      simp [hout]
    obtain ⟨w', hrun, hw'⟩ := take_run (t := ReadBuffer.bytesMut v)
      (fun slice => Prog.set (.bytesMut (v.extendFromSlice g slice))) hin rfl
    dsimp only
    rw [run_bind_ok hassert]
    exact ⟨w', _, hrun, hw', rfl, rfl⟩

/-! ### Exact transfers -/

/-- The transfer that a caller asks for: the first `count` items, and no others, change
sides. -/
def Exact (g : Growth) (input : WriteBuffer α) (output : ReadBuffer α) (count : Nat) : Prop :=
  ∃ input' output', moveFrom g count (input, output) = (.ok (), (input', output')) ∧
    output'.items = output.items ++ input.remaining.take count ∧
    input'.remaining = input.remaining.drop count

/-- One of the two is an `Option`, or nothing is left behind. -/
def Whole (input : WriteBuffer α) (output : ReadBuffer α) (count : Nat) : Prop :=
  input.isOption = true ∨ output.isOption = true ∨ count = input.remaining.length

theorem handed_eq_take_iff {input : WriteBuffer α} (output : ReadBuffer α)
    (hin : count ≤ input.remaining.length) :
    handed input output count = input.remaining.take count ↔ Whole input output count := by
  have hall : input.remaining = input.remaining.take count ↔ count = input.remaining.length := by
    rw [eq_comm, take_eq_self_iff]
    omega
  unfold handed Whole
  cases hout : output.isOption with
  | true => simp
  | false =>
    cases input with
    | option item => simp [WriteBuffer.slice, WriteBuffer.remaining, WriteBuffer.isOption]
    | vecBuffer v | cursorBytes c | cursorBytesMut c =>
      simpa [WriteBuffer.slice, WriteBuffer.isOption] using hall

variable {output : ReadBuffer α}

theorem exact_iff (g : Growth) {input : WriteBuffer α} (hin : count ≤ input.remaining.length)
    (hout : count ≤ output.remainingCapacity) :
    Exact g input output count ↔ Whole input output count := by
  rw [← handed_eq_take_iff output hin]
  obtain ⟨input', output', hrun, hgone, hitems, -⟩ := moveFrom_run g input output count hin hout
  constructor
  · rintro ⟨input2, output2, hrun2, hitems2, -⟩
    rw [hrun] at hrun2
    simp only [Prod.mk.injEq, true_and] at hrun2
    rw [← hrun2.2, hitems] at hitems2
    exact append_cancel_left hitems2
  · intro h
    exact ⟨input', output', hrun, by rw [hitems, h], hgone⟩

/-! ### The reads of one write -/

/-- A read by the host, `count.min(buffer.remaining_capacity())` items of what the writer
offers, as `host_read` and `accept_writer` both do it. -/
def hostRead (g : Growth) : Prog (WriteBuffer α × ReadBuffer α) Empty Nat := do
  let s ← Prog.get
  let count := min s.1.remaining.length s.2.remainingCapacity
  moveFrom g count
  pure count

/-- A write whose buffer the writer offers again until it is empty, with what the readers
have got so far. -/
structure Writing (α : Type) where
  input : WriteBuffer α
  read : List α

def Reads (g : Growth) (s : Writing α) (output : ReadBuffer α) (s' : Writing α) : Prop :=
  ∃ count output', hostRead g (s.input, output) = (.ok count, (s'.input, output')) ∧
    s'.read = s.read ++ output'.items.drop output.items.length

/-- A read that takes all that remains, or that has an `Option` on one side. -/
def WholeRead (g : Growth) (s : Writing α) (output : ReadBuffer α) (s' : Writing α) : Prop :=
  Reads g s output s' ∧ (s.input.isOption = true ∨ output.isOption = true ∨
      s.input.remaining.length ≤ output.remainingCapacity)

theorem reads_inv {g : Growth} {s s' : Writing α} (h : Reads g s output s') :
    let count := min s.input.remaining.length output.remainingCapacity
    s'.input.remaining = s.input.remaining.drop count ∧
      s'.read = s.read ++ handed s.input output count := by
  obtain ⟨n, output', hrun, hread⟩ := h
  obtain ⟨input2, output2, hmove, hgone, hitems, -⟩ := moveFrom_run g s.input output
    (min s.input.remaining.length output.remainingCapacity) (min_le_left _ _) (min_le_right _ _)
  unfold hostRead at hrun
  rw [run_get_bind, run_bind_ok hmove, run_pure] at hrun
  simp only [Prod.mk.injEq] at hrun
  obtain ⟨-, hinput, houtput⟩ := hrun
  refine ⟨by rw [← hinput, hgone], ?_⟩
  rw [hread, ← houtput, hitems, drop_left]

theorem wholeRead_keeps {g : Growth} {s s' : Writing α} (h : WholeRead g s output s') :
    s'.read ++ s'.input.remaining = s.read ++ s.input.remaining := by
  obtain ⟨hreads, hwhole⟩ := h
  obtain ⟨hgone, hread⟩ := reads_inv hreads
  have hexact := (handed_eq_take_iff output
    (Nat.min_le_left s.input.remaining.length output.remainingCapacity)).2 (by
      refine hwhole.imp_right (Or.imp_right fun hle => ?_)
      exact Nat.min_eq_left hle)
  rw [hread, hgone, hexact, append_assoc, take_append_drop]

/-- **Exact transfers.** A transfer that both buffers have room for moves exactly `count` items
if and only if one of the buffers is an `Option` or `count` is all that remains; and what is
read by reads like that, followed by what still remains, is what was written. -/
theorem moveFrom_exact_iff (g : Growth) :
    (∀ (input : WriteBuffer α) (output : ReadBuffer α) (count : Nat),
      count ≤ min input.remaining.length output.remainingCapacity →
      (Exact g input output count ↔
        input.isOption = true ∨ output.isOption = true ∨ count = input.remaining.length)) ∧
    (∀ (input : WriteBuffer α) (outputs : List (ReadBuffer α)) (s : Writing α),
      Trace (WholeRead g) ⟨input, []⟩ outputs s → s.read ++ s.input.remaining =
        input.remaining) := by
  refine ⟨fun input output count hcount => ?_, fun input outputs s hs => ?_⟩
  · exact exact_iff g (hcount.trans (min_le_left _ _)) (hcount.trans (min_le_right _ _))
  · refine hs.invariant (I := fun s => s.read ++ s.input.remaining = input.remaining) rfl ?_
    intro s output s' hI hstep
    rw [wholeRead_keeps hstep, hI]

def doubling : Growth where
  grow capacity needed := max (2 * capacity) needed
  needed_le _ _ := le_max_right _ _

def threeItems : WriteBuffer Nat := .vecBuffer ⟨[1, 2, 3], 0, by decide⟩

def emptyVec (capacity : Nat) : ReadBuffer Nat := .vec ⟨[], capacity, by simp⟩

/-- Two of three items are asked for and all three arrive; the third stays in the buffer, and
the next read gets it again. -/
theorem moveFrom_repeats_third :
    ¬ Exact doubling threeItems (emptyVec 2) 2 ∧
    ∃ s, Trace (Reads doubling) ⟨threeItems, []⟩ [emptyVec 2, emptyVec 2] s ∧
      s.read = [1, 2, 3, 3] ∧ s.input.remaining = [] := by
  refine ⟨fun h => ?_, ⟨.vecBuffer ⟨[1, 2, 3], 3, by decide⟩, [1, 2, 3, 3]⟩, ?_, rfl, rfl⟩
  · have := (exact_iff doubling (by decide) (by decide)).1 h
    simp [threeItems, emptyVec, Whole, WriteBuffer.isOption, ReadBuffer.isOption,
      WriteBuffer.remaining, VecBuffer.remaining] at this
  · have hfirst : Reads doubling ⟨threeItems, []⟩ (emptyVec 2)
        ⟨.vecBuffer ⟨[1, 2, 3], 2, by decide⟩, [1, 2, 3]⟩ :=
      ⟨2, .vec ⟨[1, 2, 3], 4, by decide⟩, rfl, rfl⟩
    refine Trace.cons hfirst (Trace.single ?_)
    exact ⟨1, .vec ⟨[3], 2, by decide⟩, rfl, rfl⟩

theorem moveFrom_exact_three :
    Exact doubling threeItems (emptyVec 3) 3 ∧
    ∃ s, Trace (WholeRead doubling) ⟨threeItems, []⟩ [emptyVec 3] s ∧
      s.read ++ s.input.remaining = threeItems.remaining := by
  have h := moveFrom_exact_iff (α := Nat) doubling
  refine ⟨(h.1 threeItems (emptyVec 3) 3 (by decide)).2 (Or.inr (Or.inr rfl)), ?_⟩
  have hread : Trace (WholeRead doubling) ⟨threeItems, []⟩ [emptyVec 3]
      ⟨.vecBuffer ⟨[1, 2, 3], 3, by decide⟩, [1, 2, 3]⟩ :=
    Trace.single ⟨⟨3, .vec ⟨[1, 2, 3], 3, by decide⟩, rfl, rfl⟩, Or.inr (Or.inr (by decide))⟩
  exact ⟨_, hread, h.2 threeItems _ _ hread⟩

end Wasmtime.Concurrent.Buffers
