import Wasmtime.Base.Loop
import Wasmtime.Base.Word

/-!
# Byte sinks

The functions of WASIp3 that move the bytes of a guest's stream to the operating system: `send` of a
TCP socket, `write_via_stream` and `append_via_stream` of a file, and the task behind `stdout` and
`stderr`. All four read chunk after chunk until the stream is closed (`drain`).

The state has the chunks that the guest writes and whether it then drops its end, the outcomes of
the calls to the operating system, and the log of the bytes that it accepted. A task that waits for
more is suspended.

* `writeViaStream_log`, `appendViaStream_log`, `outputTask_log`: the log is a prefix of the stream,
  in the first case with the positions in the file.
* `send_log`: for `send` this is so if and only if no write accepts a byte after one has failed, as
  an error ends only the loop over the chunk.
* `sinks_log`: the four together.
-/

namespace Wasmtime.Wasi

open Base Prog List Nat

inductive ErrorCode where
  | notPermitted
  | overflow
  | illegalByteSequence
  | os (code : Nat)

abbrev Result := Except ErrorCode Unit

/-- The task waits for its environment. -/
inductive Suspended where
  | pending

/-- The outcomes of the calls to come, and what has been accepted. -/
structure Os (κ β : Type) where
  calls : List κ
  log : List β

/-- A stream with the chunks still to come, and the operating system. -/
structure World (κ α β : Type) where
  chunks : List (List α)
  ended : Bool
  closed : Bool
  os : Os κ β

def World.new {κ α β : Type} (chunks : List (List α)) (ended : Bool) (calls : List κ) :
    World κ α β :=
  ⟨chunks, ended, false, calls, []⟩

section Reading

variable {κ α β S R : Type}

/-- `StreamReader::read`: a chunk is added to the buffer, or the other end has been dropped. -/
def read (buf : List α) : Prog (World κ α β) Suspended (List α) := do
  let w ← Prog.get
  match w.chunks with
  | chunk :: chunks => do
    Prog.set { w with chunks }
    pure (buf ++ chunk)
  | [] =>
    if w.ended then do
      Prog.set { w with closed := true }
      pure buf
    else
      Prog.err .pending

def onOs {γ : Type} (m : Prog (Os κ β) Suspended γ) : Prog (World κ α β) Suspended γ :=
  zoom (·.os) (fun os w => { w with os }) m

def answer : Prog (Os κ β) Suspended κ := do
  let os ← Prog.get
  match os.calls with
  | call :: calls => do
    Prog.set { os with calls }
    pure call
  | [] => Prog.err .pending

def accept (entries : List β) : Prog (Os κ β) Suspended Unit :=
  Prog.modify fun os => { os with log := os.log ++ entries }

/-- `while !data.is_closed() { buf = data.read(buf).await; ..; buf.clear() }`, with what is done
with a chunk: go on with a new state, or return. -/
def drain (finish : S → R) (consume : S → List α → Prog (Os κ β) Suspended (S ⊕ R)) (init : S) :
    Prog (World κ α β) Suspended R := do
  let w ← Prog.get
  loop .pending
    (fun s => do
      let w ← Prog.get
      if w.closed then
        pure (.inr (finish s))
      else do
        let buf ← read []
        onOs (consume s buf))
    (w.chunks.length + 2) init

end Reading

/-! ### The sinks -/

section Sinks

variable {α : Type}

/-- The outcome of `try_write`; after `WouldBlock`, that of waiting for `writable`. -/
inductive TryWrite where
  | ok (n : Nat)
  | wouldBlock (writable : Option Nat)
  | err (code : Nat)

/-- A slice is offered to the socket, which accepts no more than it is offered. -/
def tryWrite (slice : List α) : Prog (Os TryWrite α) Suspended TryWrite := do
  match ← answer with
  | .ok n => do
    accept (slice.take n)
    pure (.ok n)
  | outcome => pure outcome

/-- The inner loop of `send`: the error that it ends with, if it ends with one. -/
def sendSlice (slice : List α) : Prog (Os TryWrite α) Suspended (Option ErrorCode) := do
  let os ← Prog.get
  loop .pending
    (fun slice =>
      if slice.isEmpty then
        pure (.inr none)
      else do
        match ← tryWrite slice with
        | .ok n => pure (.inl (slice.drop n))
        | .wouldBlock none => pure (.inl slice)
        | .wouldBlock (some code) => pure (.inr (some (.os code)))
        | .err code => pure (.inr (some (.os code))))
    (os.calls.length + 1) slice

/-- `HostTcpSocketWithStore::send`. -/
def send : Prog (World TryWrite α α) Suspended Result := drain id
    (fun result buf => do
      match ← sendSlice buf with
      | none => pure (.inl result)
      | some code => pure (.inl (.error code)))
    (.ok ())

abbrev Write := Except Nat Nat

def writeAt (slice : List α) (offset : Nat) : Prog (Os Write (α × Nat)) Suspended Write := do
  match ← answer with
  | .ok n => do
    accept ((slice.take n).zipIdx offset)
    pure (.ok (min n slice.length))
  | .error code => pure (.error code)

/-- The closure of `write_via_stream`. -/
def writeChunk (buf : List α) (offset : Nat) : Prog (Os Write (α × Nat)) Suspended Result := do
  let os ← Prog.get
  loop .pending
    (fun (pos, offset) =>
      if pos = buf.length then
        pure (.inr (.ok ()))
      else do
        match ← writeAt (buf.drop pos) offset with
        | .error code => pure (.inr (.error (.os code)))
        | .ok n =>
          -- The position stays within the buffer, far from where `saturating_add` saturates.
          if offset + n < u64Size then
            pure (.inl (pos + n, offset + n))
          else
            pure (.inr (.error .overflow)))
    (os.calls.length + 1) (0, offset)

/-- `write_via_stream`, for a file with or without the permission to write. -/
def writeViaStream (permitted : Bool) (offset : Nat) :
    Prog (World Write α (α × Nat)) Suspended Result :=
  if permitted then
    drain (fun _ => .ok ())
      (fun offset buf => do
        match ← writeChunk buf offset with
        | .ok () => pure (.inl (saturatingAdd offset buf.length))
        | .error code => pure (.inr (.error code)))
      offset
  else
    pure (.error .notPermitted)

/-- `file.append(&buf[pos..])`, and a write of `write_all`. -/
def append (slice : List α) : Prog (Os Write α) Suspended Write := do
  match ← answer with
  | .ok n => do
    accept (slice.take n)
    pure (.ok (min n slice.length))
  | .error code => pure (.error code)

/-- The closure of `append_via_stream`. -/
def appendChunk (buf : List α) : Prog (Os Write α) Suspended Result := do
  let os ← Prog.get
  loop .pending
    (fun pos =>
      if pos = buf.length then
        pure (.inr (.ok ()))
      else do
        match ← append (buf.drop pos) with
        | .error code => pure (.inr (.error (.os code)))
        | .ok n => pure (.inl (pos + n)))
    (os.calls.length + 1) 0

def appendViaStream (permitted : Bool) : Prog (World Write α α) Suspended Result :=
  if permitted then
    drain (fun _ => .ok ())
      (fun () buf => do
        match ← appendChunk buf with
        | .ok () => pure (.inl ())
        | .error code => pure (.inr (.error code)))
      ()
  else
    pure (.error .notPermitted)

/-- `write_all`, which takes an empty write for an error. -/
def writeAll (buf : List α) : Prog (Os Write α) Suspended Result := do
  let os ← Prog.get
  loop .pending
    (fun buf =>
      if buf.isEmpty then
        pure (.inr (.ok ()))
      else do
        match ← append buf with
        | .error code => pure (.inr (.error (.os code)))
        | .ok 0 => pure (.inr (.error (.os 0)))
        | .ok n => pure (.inl (buf.drop n)))
    (os.calls.length + 1) buf

/-- `OutputTask::run`. An error of the stream is not reported. -/
def outputTask : Prog (World Write α α) Suspended Unit := drain id
    (fun () buf => do
      match ← writeAll buf with
      | .ok () => pure (.inl ())
      | .error _ => pure (.inr ()))
    ()

end Sinks

/-! ### Reading a stream -/

section Reading

variable {κ α β S R : Type} {finish : S → R}
  {consume : S → List α → Prog (Os κ β) Suspended (S ⊕ R)}

/-- **The rule for sinks.** `I s done os` describes the state when the bytes `done` have been
read. -/
theorem wp_drain {w : World κ α β} {whole : List α} (I : S → List α → Os κ β → Prop)
    {Q : R → Os κ β → Prop} {E : Os κ β → Prop}
    (hstep : ∀ s done chunk os, done ++ chunk <+: whole → I s done os → wp (consume s chunk)
        (fun o os' => match o with
          | .inl s' => I s' (done ++ chunk) os'
          | .inr r => Q r os')
        (fun _ => E) os)
    (hfinish : ∀ s os, I s whole os → Q (finish s) os)
    (hsuspend : ∀ s done os, done <+: whole → I s done os → E os)
    {init : S} (hinit : I init [] w.os) (hopen : w.closed = false)
    (hwhole : w.chunks.flatten = whole) :
    wp (drain finish consume init) (fun r w' => Q r w'.os) (fun _ w' => E w'.os) w := by
  unfold drain
  rw [wp_bind, wp_get]
  refine wp_loop (fun s w => ∃ done, I s done w.os ∧ done ++ w.chunks.flatten = whole ∧
      (w.closed = true → w.chunks = []))
    (fun _ w => w.chunks.length + if w.closed then 0 else 1) ?_
    ⟨[], hinit, hwhole, by simp [hopen]⟩ (by simp [hopen])
  rintro s w ⟨done, hI, hdone, hclosed⟩
  rw [wp_bind, wp_get, wp_ite]
  refine ⟨fun hc => ?_, fun hc => ?_⟩
  · rw [hclosed hc, flatten_nil, append_nil] at hdone
    exact hfinish s w.os (hdone ▸ hI)
  · have hc' : w.closed = false := Bool.eq_false_iff.2 hc
    unfold read
    rw [wp_bind, wp_bind, wp_get]
    cases hchunks : w.chunks with
    | cons chunk chunks =>
      rw [hchunks, flatten_cons, ← append_assoc] at hdone
      rw [wp_bind, wp_set, wp_pure]
      unfold onOs
      rw [wp_zoom]
      refine wp_imp (hstep s done chunk w.os ⟨_, hdone⟩ hI) ?_
      rintro (s' | r) os' ho
      · refine ⟨⟨done ++ chunk, ho, hdone, by simp [hc']⟩, ?_⟩
        simp [hc']
      · exact ho
    | nil =>
      rw [hchunks, flatten_nil, append_nil] at hdone
      rw [wp_ite]
      refine ⟨fun _ => ?_, fun _ => hsuspend s done w.os (hdone ▸ prefix_rfl) hI⟩
      rw [wp_bind, wp_set, wp_pure]
      unfold onOs
      rw [wp_zoom]
      refine wp_imp (hstep s done [] w.os (by simp [hdone]) hI) ?_
      rintro (s' | r) os' ho
      · rw [append_nil] at ho
        refine ⟨⟨done, ho, by simp [hdone], fun _ => rfl⟩, ?_⟩
        simp [hc']
      · exact ho

theorem answer_wp {os : Os κ β} :
    wp answer (fun c os' => os.calls = c :: os'.calls ∧ os'.log = os.log)
      (fun _ os' => os' = os ∧ os.calls = []) os := by
  unfold answer
  rw [wp_bind, wp_get]
  cases hcalls : os.calls with
  | nil | cons c calls => exact ⟨rfl, rfl⟩

end Reading

/-! ### Files and standard streams -/

section Files

variable {α : Type} {os : Os Write α} {chunks : List (List α)} {ended permitted : Bool}
  {calls : List Write}

theorem append_wp {slice : List α} : wp (append slice)
      (fun r os' => os'.calls.length < os.calls.length ∧ match r with
        | .ok n => n ≤ slice.length ∧ os'.log = os.log ++ slice.take n
        | .error _ => os'.log = os.log)
      (fun _ os' => os' = os) os := by
  unfold append accept
  refine wp_seq_mono answer_wp ?_ (fun _ _ h => h.1)
  rintro c os1 ⟨hcalls, hlog⟩
  have hlen : os1.calls.length < os.calls.length := by
    rw [hcalls, length_cons]
    omega
  cases c with
  | error code => exact ⟨hlen, hlog⟩
  | ok n =>
    rw [wp_bind, wp_modify, wp_pure]
    refine ⟨hlen, Nat.min_le_right .., ?_⟩
    rw [hlog, take_eq_take_iff.2 (show min n slice.length =
      min (min n slice.length) slice.length by omega)]

theorem appendChunk_wp {buf : List α} : wp (appendChunk buf)
      (fun r os' => ∃ k, os'.log = os.log ++ buf.take k ∧ (r = .ok () → k = buf.length))
      (fun _ os' => ∃ k, os'.log = os.log ++ buf.take k) os := by
  unfold appendChunk
  rw [wp_bind, wp_get]
  refine wp_loop (fun pos os' => pos ≤ buf.length ∧ os'.log = os.log ++ buf.take pos)
    (fun _ os' => os'.calls.length) ?_ ⟨Nat.zero_le _, by simp⟩ (lt_succ_self _)
  rintro pos os1 ⟨hpos, hlog⟩
  rw [wp_ite]
  refine ⟨fun hend => ⟨pos, hlog, fun _ => hend⟩, fun _ => ?_⟩
  refine wp_seq_mono append_wp ?_ (fun _ os2 h => ⟨pos, h ▸ hlog⟩)
  rintro r os2 ⟨hlen, hr⟩
  cases r with
  | error code => exact ⟨pos, hr.trans hlog, nofun⟩
  | ok n =>
    obtain ⟨hn, hlog2⟩ := hr
    rw [length_drop] at hn
    refine ⟨⟨by omega, ?_⟩, hlen⟩
    rw [hlog2, hlog, append_assoc, ← take_add]

theorem writeAll_wp {buf : List α} : wp (writeAll buf)
      (fun r os' => ∃ k, os'.log = os.log ++ buf.take k ∧ (r = .ok () → k = buf.length))
      (fun _ os' => ∃ k, os'.log = os.log ++ buf.take k) os := by
  unfold writeAll
  rw [wp_bind, wp_get]
  refine wp_loop (fun rest os' => ∃ pos, pos ≤ buf.length ∧ rest = buf.drop pos ∧
      os'.log = os.log ++ buf.take pos)
    (fun _ os' => os'.calls.length) ?_ ⟨0, Nat.zero_le _, rfl, by simp⟩ (lt_succ_self _)
  rintro _ os1 ⟨pos, hpos, rfl, hlog⟩
  rw [wp_ite]
  refine ⟨fun hend => ⟨pos, hlog, fun _ => ?_⟩, fun _ => ?_⟩
  · rw [List.isEmpty_iff, drop_eq_nil_iff] at hend
    omega
  · refine wp_seq_mono append_wp ?_ (fun _ os2 h => ⟨pos, h ▸ hlog⟩)
    rintro r os2 ⟨hlen, hr⟩
    rcases r with code | _ | n
    · exact ⟨pos, hr.trans hlog, nofun⟩
    · refine ⟨pos, ?_, nofun⟩
      rw [hr.2, hlog, take_zero, append_nil]
    · obtain ⟨hn, hlog2⟩ := hr
      rw [length_drop] at hn
      refine ⟨⟨pos + (n + 1), by omega, by rw [drop_drop], ?_⟩, hlen⟩
      rw [hlog2, hlog, append_assoc, ← take_add]

theorem prefix_of_take {done chunk whole : List α} (h : done ++ chunk <+: whole) (k : Nat) :
    done ++ chunk.take k <+: whole :=
  ((prefix_append_right_inj done).2 (List.take_prefix k chunk)).trans h

/-- **The bytes appended to a file** form a prefix of the stream. -/
theorem appendViaStream_log :
    (appendViaStream permitted (.new chunks ended calls)).2.os.log <+: chunks.flatten ∧
    ((appendViaStream permitted (.new chunks ended calls)).1 = .ok (.ok ()) →
      (appendViaStream permitted (.new chunks ended calls)).2.os.log = chunks.flatten) := by
  have hwp : wp (appendViaStream permitted)
      (fun r w' => w'.os.log <+: chunks.flatten ∧ (r = .ok () → w'.os.log = chunks.flatten))
      (fun _ w' => w'.os.log <+: chunks.flatten)
      (World.new chunks ended calls) := by
    unfold appendViaStream
    cases permitted with
    | false => exact ⟨List.nil_prefix, nofun⟩
    | true =>
      rw [if_pos rfl]
      refine wp_drain (w := .new chunks ended calls)
        (Q := fun (r : Result) os => os.log <+: chunks.flatten ∧
          (r = .ok () → os.log = chunks.flatten))
        (E := fun os => os.log <+: chunks.flatten)
        (fun _ done os => os.log = done) ?_ ?_ ?_ rfl rfl rfl
      · rintro s done chunk os hwhole rfl
        refine wp_seq_mono appendChunk_wp ?_ ?_
        · rintro r os' ⟨k, hlog, hall⟩
          cases r with
          | ok u =>
            change os'.log = os.log ++ chunk
            rw [hlog, hall rfl, take_length]
          | error code => exact ⟨hlog ▸ prefix_of_take hwhole k, nofun⟩
        · rintro _ os' ⟨k, hlog⟩
          exact hlog ▸ prefix_of_take hwhole k
      · exact fun _ os hlog => ⟨hlog ▸ prefix_rfl, fun _ => hlog⟩
      · exact fun _ done os hdone hlog => hlog ▸ hdone
  refine ⟨wp_state (wp_mono hwp (fun _ _ h => h.1) fun _ _ h => h), fun hok => ?_⟩
  exact (wp_ok hwp (Prod.ext hok rfl)).2 rfl

/-- **The bytes written to a standard stream** form a prefix of the stream. -/
theorem outputTask_log :
    (outputTask (.new chunks ended calls)).2.os.log <+: chunks.flatten := by
  have hwp : wp outputTask (fun _ w' => w'.os.log <+: chunks.flatten)
      (fun _ w' => w'.os.log <+: chunks.flatten) (World.new chunks ended calls) := by
    refine wp_drain (w := .new chunks ended calls)
      (Q := fun _ os => os.log <+: chunks.flatten) (E := fun os => os.log <+: chunks.flatten)
      (fun _ done os => os.log = done) ?_ ?_ ?_ rfl rfl rfl
    · rintro s done chunk os hwhole rfl
      refine wp_seq_mono writeAll_wp ?_ ?_
      · rintro r os' ⟨k, hlog, hall⟩
        cases r with
        | ok u =>
          change os'.log = os.log ++ chunk
          rw [hlog, hall rfl, take_length]
        | error code =>
          change os'.log <+: chunks.flatten
          exact hlog ▸ prefix_of_take hwhole k
      · rintro _ os' ⟨k, hlog⟩
        exact hlog ▸ prefix_of_take hwhole k
    · exact fun _ os hlog => hlog ▸ prefix_rfl
    · exact fun _ done os hdone hlog => hlog ▸ hdone
  exact wp_state hwp

end Files

section Positions

variable {α : Type} {os : Os Write (α × Nat)} {chunks : List (List α)} {ended permitted : Bool}
  {calls : List Write} {offset : Nat}

theorem writeAt_wp {slice : List α} : wp (writeAt slice offset)
      (fun r os' => os'.calls.length < os.calls.length ∧ match r with
        | .ok n => n ≤ slice.length ∧ os'.log = os.log ++ (slice.take n).zipIdx offset
        | .error _ => os'.log = os.log)
      (fun _ os' => os' = os) os := by
  unfold writeAt accept
  refine wp_seq_mono answer_wp ?_ (fun _ _ h => h.1)
  rintro c os1 ⟨hcalls, hlog⟩
  have hlen : os1.calls.length < os.calls.length := by
    rw [hcalls, length_cons]
    omega
  cases c with
  | error code => exact ⟨hlen, hlog⟩
  | ok n =>
    rw [wp_bind, wp_modify, wp_pure]
    refine ⟨hlen, Nat.min_le_right .., ?_⟩
    rw [hlog, take_eq_take_iff.2 (show min n slice.length =
      min (min n slice.length) slice.length by omega)]

theorem zipIdx_take_add (l : List α) {pos : Nat} (hpos : pos ≤ l.length) (n : Nat) :
    (l.take pos).zipIdx offset ++ ((l.drop pos).take n).zipIdx (offset + pos) =
      (l.take (pos + n)).zipIdx offset := by
  rw [take_add, zipIdx_append, length_take, Nat.min_eq_left hpos]

theorem writeChunk_wp {buf : List α} (hoffset : offset < u64Size) : wp (writeChunk buf offset)
      (fun r os' => ∃ k, os'.log = os.log ++ (buf.take k).zipIdx offset ∧
        (r = .ok () → k = buf.length ∧ offset + buf.length < u64Size))
      (fun _ os' => ∃ k, os'.log = os.log ++ (buf.take k).zipIdx offset) os := by
  unfold writeChunk
  rw [wp_bind, wp_get]
  refine wp_loop (fun s os' => s.1 ≤ buf.length ∧ s.2 = offset + s.1 ∧ s.2 < u64Size ∧
      os'.log = os.log ++ (buf.take s.1).zipIdx offset)
    (fun _ os' => os'.calls.length) ?_ ⟨Nat.zero_le _, rfl, hoffset, by simp⟩
    (lt_succ_self _)
  rintro ⟨pos, current⟩ os1 ⟨hpos, hcurrent, hlt, hlog⟩
  dsimp only at hpos hcurrent hlt hlog ⊢
  subst hcurrent
  rw [wp_ite]
  refine ⟨fun hend => ⟨pos, hlog, fun _ => ⟨hend, by omega⟩⟩, fun _ => ?_⟩
  refine wp_seq_mono writeAt_wp ?_ (fun _ os2 h => ⟨pos, h ▸ hlog⟩)
  rintro r os2 ⟨hlen, hr⟩
  cases r with
  | error code => exact ⟨pos, hr.trans hlog, nofun⟩
  | ok n =>
    obtain ⟨hn, hlog2⟩ := hr
    rw [length_drop] at hn
    have hnew : os2.log = os.log ++ (buf.take (pos + n)).zipIdx offset := by
      rw [hlog2, hlog, append_assoc, zipIdx_take_add buf hpos]
    rw [wp_ite]
    refine ⟨fun hfits => ?_, fun _ => ⟨pos + n, hnew, nofun⟩⟩
    exact ⟨⟨by omega, by omega, by omega, hnew⟩, hlen⟩

theorem zipIdx_prefix {l l' : List α} (h : l <+: l') (offset : Nat) :
    l.zipIdx offset <+: l'.zipIdx offset := by
  obtain ⟨t, rfl⟩ := h
  rw [zipIdx_append]
  exact prefix_append ..

/-- **The bytes written to a file** form a prefix of the stream, and the `k`-th of them goes to
the position `offset + k`. -/
theorem writeViaStream_log (hoffset : offset < u64Size) :
    (writeViaStream permitted offset (.new chunks ended calls)).2.os.log <+:
      chunks.flatten.zipIdx offset ∧
    ((writeViaStream permitted offset (.new chunks ended calls)).1 = .ok (.ok ()) →
      (writeViaStream permitted offset (.new chunks ended calls)).2.os.log =
        chunks.flatten.zipIdx offset) := by
  have hwp : wp (writeViaStream permitted offset)
      (fun r w' => w'.os.log <+: chunks.flatten.zipIdx offset ∧
        (r = .ok () → w'.os.log = chunks.flatten.zipIdx offset))
      (fun _ w' => w'.os.log <+: chunks.flatten.zipIdx offset)
      (World.new chunks ended calls) := by
    unfold writeViaStream
    cases permitted with
    | false => exact ⟨List.nil_prefix, nofun⟩
    | true =>
      rw [if_pos rfl]
      refine wp_drain (w := .new chunks ended calls)
        (Q := fun (r : Result) os => os.log <+: chunks.flatten.zipIdx offset ∧
          (r = .ok () → os.log = chunks.flatten.zipIdx offset))
        (E := fun os => os.log <+: chunks.flatten.zipIdx offset) (fun current done os => current =
          offset + done.length ∧
        current < u64Size ∧ os.log = done.zipIdx offset) ?_ ?_ ?_ ⟨rfl, hoffset, rfl⟩ rfl rfl
      · rintro _ done chunk os hwhole ⟨rfl, hlt, hlog⟩
        have hsplit : ∀ k, os.log ++ (chunk.take k).zipIdx (offset + done.length) =
            (done ++ chunk.take k).zipIdx offset := by
          intro k
          rw [hlog, zipIdx_append]
        refine wp_seq_mono (writeChunk_wp hlt) ?_ ?_
        · rintro r os' ⟨k, hlog', hall⟩
          rw [hsplit] at hlog'
          cases r with
          | ok u =>
            obtain ⟨hk, hfits⟩ := hall rfl
            rw [hk, take_length] at hlog'
            have hsat : saturatingAdd (offset + done.length) chunk.length =
                offset + (done ++ chunk).length := by
              unfold saturatingAdd u64Max
              unfold u64Size at hfits
              rw [length_append]
              omega
            refine ⟨hsat, ?_, hlog'⟩
            rw [hsat, length_append]
            omega
          | error code => exact ⟨hlog' ▸ zipIdx_prefix (prefix_of_take hwhole k) offset, nofun⟩
        · rintro _ os' ⟨k, hlog'⟩
          rw [hsplit] at hlog'
          exact hlog' ▸ zipIdx_prefix (prefix_of_take hwhole k) offset
      · rintro _ os ⟨-, -, hlog⟩
        exact ⟨hlog ▸ prefix_rfl, fun _ => hlog⟩
      · rintro _ done os hdone ⟨-, -, hlog⟩
        exact hlog ▸ zipIdx_prefix hdone offset
  refine ⟨wp_state (wp_mono hwp (fun _ _ h => h.1) fun _ _ h => h), fun hok => ?_⟩
  exact (wp_ok hwp (Prod.ext hok rfl)).2 rfl

end Positions

/-! ### Sockets -/

namespace TryWrite

/-- An error that ends the loop over a chunk. -/
def failed : TryWrite → Bool
  | .err _ => true
  | .wouldBlock writable => writable.isSome
  | .ok _ => false

def accepts : TryWrite → Bool
  | .ok n => decide (0 < n)
  | _ => false

end TryWrite

/-- Some write accepts a byte after one has failed. -/
def acceptsAfterFailure : List TryWrite → Bool
  | [] => false
  | call :: calls => if call.failed then calls.any TryWrite.accepts else acceptsAfterFailure calls

theorem acceptsAfterFailure_append (used calls : List TryWrite) :
    acceptsAfterFailure (used ++ calls) = (acceptsAfterFailure used ||
      if used.any TryWrite.failed then calls.any TryWrite.accepts
      else acceptsAfterFailure calls) := by
  induction used with
  | nil => rfl
  | cons c used ih =>
    rw [cons_append, acceptsAfterFailure, acceptsAfterFailure, any_cons]
    cases hc : c.failed with
    | false => simpa using ih
    | true => simp [any_append]

section Sockets

variable {α : Type} {os : Os TryWrite α} {chunks : List (List α)} {ended : Bool}
  {calls used used' : List TryWrite} {result : Result} {done log slice accepted pending : List α}

/-- **A slice that was offered to a socket**: what was accepted of it, and what was not. -/
structure Offered (slice : List α) (used : List TryWrite) (accepted pending : List α) : Prop where
  split : accepted ++ pending = slice
  calm : used.any TryWrite.failed = false
  accepts : used.any TryWrite.accepts = !accepted.isEmpty

theorem acceptsAfterFailure_of_calm (h : used.any TryWrite.failed = false) :
    acceptsAfterFailure used = false := by
  induction used with
  | nil => rfl
  | cons c used ih =>
    rw [any_cons, Bool.or_eq_false_iff] at h
    rw [acceptsAfterFailure, h.1]
    exact ih h.2

namespace Offered

theorem nil (slice : List α) : Offered slice [] [] slice := ⟨rfl, rfl, rfl⟩

theorem ok (h : Offered slice used accepted pending) (hne : pending ≠ []) (n : Nat) :
    Offered slice (used ++ [.ok n]) (accepted ++ pending.take n) (pending.drop n) := by
  refine ⟨?_, ?_, ?_⟩
  · rw [append_assoc, take_append_drop, h.split]
  · rw [any_append, h.calm]
    rfl
  · rw [any_append, h.accepts, Bool.eq_iff_iff]
    cases n with
    | zero => simp [TryWrite.accepts]
    | succ n =>
      cases pending with
      | nil => exact absurd rfl hne
      | cons a pending => simp [TryWrite.accepts]

theorem wait (h : Offered slice used accepted pending) :
    Offered slice (used ++ [.wouldBlock none]) accepted pending := by
  refine ⟨h.split, ?_, ?_⟩
  · rw [any_append, h.calm]
    rfl
  · rw [any_append, h.accepts]
    simp [TryWrite.accepts]

end Offered

theorem sendSlice_wp : wp (sendSlice slice)
      (fun r os' => ∃ used accepted pending, Offered slice used accepted pending ∧
        os'.log = os.log ++ accepted ∧ match r with
          | none => os.calls = used ++ os'.calls ∧ pending = []
          | some _ => pending ≠ [] ∧
            ∃ c, TryWrite.failed c = true ∧ os.calls = used ++ c :: os'.calls)
      (fun _ os' => ∃ accepted pending, Offered slice os.calls accepted pending ∧
        os'.log = os.log ++ accepted ∧ os'.calls = []) os := by
  unfold sendSlice
  rw [wp_bind, wp_get]
  refine wp_loop (fun rest os' => ∃ used accepted, Offered slice used accepted rest ∧
      os'.log = os.log ++ accepted ∧ os.calls = used ++ os'.calls)
    (fun _ os' => os'.calls.length) ?_ ⟨[], [], .nil slice, by simp, rfl⟩ (lt_succ_self _)
  rintro rest os1 ⟨used, accepted, hoffered, hlog, hcalls⟩
  rw [wp_ite]
  refine ⟨fun hend => ?_, fun hmore => ?_⟩
  · exact ⟨used, accepted, rest, hoffered, hlog, hcalls, List.isEmpty_iff.1 hend⟩
  · have hne : rest ≠ [] := fun hnil => hmore (List.isEmpty_iff.2 hnil)
    unfold tryWrite accept
    rw [wp_bind, wp_bind]
    refine wp_mono answer_wp ?_ ?_
    · rintro c os2 ⟨hc, hlog2⟩
      rw [hc] at hcalls
      have hlen : os2.calls.length < os1.calls.length := by
        rw [hc, length_cons]
        omega
      have hcalls' : os.calls = used ++ [c] ++ os2.calls := by
        rw [hcalls, append_assoc]
        rfl
      rcases c with n | _ | code
      · refine ⟨⟨_, _, hoffered.ok hne n, ?_, hcalls'⟩, hlen⟩
        dsimp only
        rw [hlog2, hlog, append_assoc]
      · rename_i writable
        cases writable with
        | none => exact ⟨⟨_, _, hoffered.wait, hlog2.trans hlog, hcalls'⟩, hlen⟩
        | some code =>
          exact ⟨used, accepted, rest, hoffered, hlog2.trans hlog, hne, _, rfl, hcalls⟩
      · exact ⟨used, accepted, rest, hoffered, hlog2.trans hlog, hne, _, rfl, hcalls⟩
    · rintro _ os2 ⟨rfl, hnil⟩
      rw [hnil, append_nil] at hcalls
      exact ⟨accepted, rest, hcalls ▸ hoffered, hlog, hnil⟩

/-- **The state of `send`** after the calls `used`, when the bytes `done` have been offered.
Either all have been accepted; or a write has failed, and what was accepted before is all; or
something was accepted after the failure, and there is a gap before it. -/
inductive Sent : Result → List α → List TryWrite → List α → Prop
  | whole {done : List α} {used : List TryWrite} (hcalm : used.any TryWrite.failed = false) :
      Sent (.ok ()) done used done
  | cut {code : ErrorCode} {done : List α} {used : List TryWrite} {p : Nat}
      (hfailed : used.any TryWrite.failed = true)
      (hquiet : acceptsAfterFailure used = false) (hp : p < done.length) :
      Sent (.error code) done used (done.take p)
  | gap {code : ErrorCode} {done more : List α} {used : List TryWrite} {p k : Nat} {a : α}
      (hfailed : used.any TryWrite.failed = true)
      (hloud : acceptsAfterFailure used = true) (hp : p < k) (hk : done[k]? = some a) :
      Sent (.error code) done used (done.take p ++ a :: more)

theorem getElem?_of_prefix {l l' : List α} {a : α} {k : Nat} (h : l <+: l')
    (hk : l[k]? = some a) : l'[k]? = some a := by
  obtain ⟨t, rfl⟩ := h
  rw [getElem?_append_left (List.getElem?_eq_some_iff.1 hk).1, hk]

namespace Sent

theorem offer (h : Sent result done used log) (ho : Offered slice used' accepted pending) :
    Sent result (done ++ accepted) (used ++ used') (log ++ accepted) := by
  cases h with
  | whole hcalm => exact .whole (by rw [any_append, hcalm, ho.calm]; rfl)
  | @cut code _ _ p hfailed hquiet hp =>
    have hfailed' : (used ++ used').any TryWrite.failed = true := by
      rw [any_append, hfailed, Bool.true_or]
    have hafter : acceptsAfterFailure (used ++ used') = !accepted.isEmpty := by
      rw [acceptsAfterFailure_append, hquiet, hfailed, Bool.false_or, if_pos rfl, ho.accepts]
    have htake : (done ++ accepted).take p = done.take p := take_append_of_le_length hp.le
    cases accepted with
    | nil =>
      rw [append_nil, append_nil]
      exact .cut hfailed' hafter hp
    | cons a more =>
      rw [← htake]
      exact .gap hfailed' hafter hp (by simp)
  | @gap code _ more _ p k a hfailed hloud hp hk =>
    have hlt : k < done.length := (List.getElem?_eq_some_iff.1 hk).1
    have htake : (done ++ accepted).take p = done.take p := take_append_of_le_length (by omega)
    rw [append_assoc, cons_append, ← htake]
    refine .gap ?_ ?_ hp ?_
    · rw [any_append, hfailed, Bool.true_or]
    · rw [acceptsAfterFailure_append, hloud, Bool.true_or]
    · rw [getElem?_append_left hlt, hk]

theorem fail (h : Sent result done used log) (hpending : pending ≠ []) {c : TryWrite}
    (hc : c.failed = true) (code : ErrorCode) :
    Sent (.error code) (done ++ pending) (used ++ [c]) log := by
  have hfailed : (used ++ [c]).any TryWrite.failed = true := by
    rw [any_append]
    simp [hc]
  have haccepts : c.accepts = false := by
    cases c with
    | ok n => cases hc
    | wouldBlock writable => rfl
    | err code => rfl
  have hpos : 0 < pending.length := length_pos_iff.2 hpending
  cases h with
  | whole hcalm =>
    have htake : (done ++ pending).take done.length = done := take_left
    have hquiet : acceptsAfterFailure (used ++ [c]) = false := by
      rw [acceptsAfterFailure_append, acceptsAfterFailure_of_calm hcalm, hcalm]
      simp [acceptsAfterFailure, hc]
    have hlt : done.length < (done ++ pending).length := by
      rw [length_append]
      omega
    have hsent : Sent (.error code) _ _ _ := .cut hfailed hquiet hlt
    rwa [htake] at hsent
  | @cut code _ _ p hf hquiet hp =>
    have htake : (done ++ pending).take p = done.take p := take_append_of_le_length hp.le
    rw [← htake]
    refine .cut hfailed ?_ (by rw [length_append]; omega)
    rw [acceptsAfterFailure_append, hquiet, hf]
    simp [haccepts]
  | @gap code _ more _ p k a hf hloud hp hk =>
    have hlt : k < done.length := (List.getElem?_eq_some_iff.1 hk).1
    have htake : (done ++ pending).take p = done.take p := take_append_of_le_length (by omega)
    rw [← htake]
    refine .gap hfailed ?_ hp ?_
    · rw [acceptsAfterFailure_append, hloud, Bool.true_or]
    · rw [getElem?_append_left hlt, hk]

theorem log_eq (h : Sent (.ok ()) done used log) : log = done := by
  cases h
  rfl

theorem prefix_iff {whole : List α} (h : Sent result done used log) (hdone : done <+: whole) :
    (acceptsAfterFailure used = false → log <+: whole) ∧
      (whole.Nodup → log <+: whole → acceptsAfterFailure used = false) := by
  cases h with
  | whole hcalm => exact ⟨fun _ => hdone, fun _ _ => acceptsAfterFailure_of_calm hcalm⟩
  | cut hfailed hquiet hp =>
    exact ⟨fun _ => (List.take_prefix _ _).trans hdone, fun _ _ => hquiet⟩
  | @gap code _ more _ p k a hfailed hloud hp hk =>
    refine ⟨fun hq => absurd (hloud.symm.trans hq) (by simp), fun hnodup hprefix => ?_⟩
    -- The byte at `p` is `a`, which also stands at the later position `k`.
    have hlt : k < done.length := (List.getElem?_eq_some_iff.1 hk).1
    have hlenp : (done.take p).length = p := by
      rw [length_take]
      omega
    have hp' : whole[p]? = some a := by
      refine getElem?_of_prefix hprefix ?_
      rw [getElem?_append_right (by omega), hlenp, Nat.sub_self]
      rfl
    have hk' : whole[k]? = some a := getElem?_of_prefix hdone hk
    have hklt : k < whole.length := (List.getElem?_eq_some_iff.1 hk').1
    exact absurd (hp'.trans hk'.symm) (nodup_iff_getElem?_ne_getElem?.1 hnodup p k hp hklt)

end Sent

theorem send_wp : wp send
      (fun r w' => (∃ used done, Sent r done used w'.os.log ∧ calls = used ++ w'.os.calls ∧
        done <+: chunks.flatten) ∧ (r = .ok () → w'.os.log = chunks.flatten))
      (fun _ w' => ∃ r used done, Sent r done used w'.os.log ∧ calls = used ++ w'.os.calls ∧
        done <+: chunks.flatten)
      (World.new chunks ended calls) := by
  refine wp_drain (w := .new chunks ended calls)
    (Q := fun (r : Result) os => (∃ used done, Sent r done used os.log ∧
      calls = used ++ os.calls ∧ done <+: chunks.flatten) ∧ (r = .ok () → os.log = chunks.flatten))
    (E := fun os => ∃ r used done, Sent r done used os.log ∧ calls = used ++ os.calls ∧
      done <+: chunks.flatten)
    (fun r done os => ∃ used, Sent r done used os.log ∧ calls = used ++ os.calls)
    ?_ ?_ ?_ ⟨[], .whole rfl, rfl⟩ rfl rfl
  · rintro r done chunk os hwhole ⟨used, hsent, hcalls⟩
    refine wp_seq_mono sendSlice_wp ?_ ?_
    · rintro e os' ⟨used', accepted, pending, hoffered, hlog, hend⟩
      have hsent' := hsent.offer hoffered
      rw [← hlog] at hsent'
      cases e with
      | none =>
        obtain ⟨hused, rfl⟩ := hend
        have hsplit := hoffered.split
        rw [append_nil] at hsplit
        exact ⟨used ++ used', hsplit ▸ hsent', by rw [hcalls, hused, append_assoc]⟩
      | some code =>
        obtain ⟨hne, c, hc, hused⟩ := hend
        have hsent2 := hsent'.fail hne hc code
        rw [append_assoc, hoffered.split] at hsent2
        exact ⟨used ++ used' ++ [c], hsent2, by rw [hcalls, hused]; simp⟩
    · rintro _ os' ⟨accepted, pending, hoffered, hlog, hnil⟩
      have hsent' := hsent.offer hoffered
      rw [← hlog] at hsent'
      refine ⟨r, used ++ os.calls, done ++ accepted, hsent', by rw [hcalls, hnil]; simp, ?_⟩
      refine List.IsPrefix.trans ?_ hwhole
      rw [prefix_append_right_inj, ← hoffered.split]
      exact prefix_append ..
  · rintro r os ⟨used, hsent, hcalls⟩
    refine ⟨⟨used, _, hsent, hcalls, prefix_rfl⟩, fun hr => ?_⟩
    change r = .ok () at hr
    exact (hr ▸ hsent).log_eq
  · rintro r done os hdone ⟨used, hsent, hcalls⟩
    exact ⟨r, used, done, hsent, hcalls, hdone⟩

/-- When the outcomes have been used up, what was accepted is a prefix of the stream unless a
write accepts a byte after one has failed. -/
theorem send_log (hused : (send (.new chunks ended calls)).2.os.calls = []) :
    (acceptsAfterFailure calls = false →
      (send (.new chunks ended calls)).2.os.log <+: chunks.flatten) ∧
    (chunks.flatten.Nodup → (send (.new chunks ended calls)).2.os.log <+: chunks.flatten →
      acceptsAfterFailure calls = false) := by
  have hstate : ∃ r used done, Sent r done used (send (.new chunks ended calls)).2.os.log ∧
      calls = used ++ (send (.new chunks ended calls)).2.os.calls ∧ done <+: chunks.flatten :=
    wp_state (P := fun w' => ∃ r used done, Sent r done used w'.os.log ∧
      calls = used ++ w'.os.calls ∧ done <+: chunks.flatten)
      (wp_mono send_wp (fun r _ h => ⟨r, h.1⟩) fun _ _ h => h)
  obtain ⟨r, used, done, hsent, hcalls, hdone⟩ := hstate
  rw [hused, append_nil] at hcalls
  subst hcalls
  exact hsent.prefix_iff hdone

theorem log_of_send_ok (hok : (send (.new chunks ended calls)).1 = .ok (.ok ())) :
    (send (.new chunks ended calls)).2.os.log = chunks.flatten :=
  (wp_ok send_wp (Prod.ext hok rfl)).2 rfl

end Sockets

/-! ### All sinks -/

/-- **Byte sinks.** In all states of a run the bytes that a file or a standard stream has been
given form a prefix of the stream, in `write_via_stream` each at its position. For a socket
this is so if no write accepts a byte after one has failed, and, bytes being told apart by
their positions, only then. Success is reported only if every byte was accepted. -/
theorem sinks_log {α : Type} (chunks : List (List α)) (ended : Bool) :
    (∀ calls, ((send (.new chunks ended calls)).2.os.calls = [] →
        (acceptsAfterFailure calls = false →
          (send (.new chunks ended calls)).2.os.log <+: chunks.flatten) ∧
        (chunks.flatten.Nodup → (send (.new chunks ended calls)).2.os.log <+: chunks.flatten →
          acceptsAfterFailure calls = false)) ∧
      ((send (.new chunks ended calls)).1 = .ok (.ok ()) →
        (send (.new chunks ended calls)).2.os.log = chunks.flatten)) ∧
    (∀ calls permitted offset, offset < u64Size →
      (writeViaStream permitted offset (.new chunks ended calls)).2.os.log <+:
        chunks.flatten.zipIdx offset ∧
      ((writeViaStream permitted offset (.new chunks ended calls)).1 = .ok (.ok ()) →
        (writeViaStream permitted offset (.new chunks ended calls)).2.os.log =
          chunks.flatten.zipIdx offset)) ∧
    (∀ calls permitted,
      (appendViaStream permitted (.new chunks ended calls)).2.os.log <+: chunks.flatten ∧
      ((appendViaStream permitted (.new chunks ended calls)).1 = .ok (.ok ()) →
        (appendViaStream permitted (.new chunks ended calls)).2.os.log = chunks.flatten)) ∧
    ∀ calls, (outputTask (.new chunks ended calls)).2.os.log <+: chunks.flatten :=
  ⟨fun _ => ⟨send_log, log_of_send_ok⟩, fun _ _ _ => writeViaStream_log,
    fun _ _ => appendViaStream_log, fun _ => outputTask_log⟩

theorem sinks_log_sample :
    (send (.new [[1, 2], [], [3]] true [.ok 1, .wouldBlock none, .ok 5, .err 104] :
        World TryWrite UInt8 UInt8)).2.os.calls = [] ∧
      (send (.new [[1, 2], [], [3]] true [.ok 1, .wouldBlock none, .ok 5, .err 104] :
        World TryWrite UInt8 UInt8)).2.os.log <+: [1, 2, 3] := by
  have hused : (send (.new [[1, 2], [], [3]] true [.ok 1, .wouldBlock none, .ok 5, .err 104] :
      World TryWrite UInt8 UInt8)).2.os.calls = [] := by decide +kernel
  exact ⟨hused, (((sinks_log [[1, 2], [], [3]] true).1 _).1 hused).1 (by decide +kernel)⟩

/-- The first of two bytes meets an error, and the second is sent. -/
theorem send_after_error :
    (send (.new [[1], [2]] true [.err 32, .ok 1] : World TryWrite UInt8 UInt8)).2.os.log = [2] ∧
    ¬ (send (.new [[1], [2]] true [.err 32, .ok 1] : World TryWrite UInt8 UInt8)).2.os.log <+:
      [[1], [2]].flatten := by
  decide +kernel

end Wasmtime.Wasi
