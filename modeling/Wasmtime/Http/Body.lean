import Wasmtime.Base.Loop
import Wasmtime.Base.Word

/-!
# Bodies of HTTP messages

The bodies that a guest builds with `request.new` and `response.new`, and their three consumers: the
task behind `body`, which passes the contents on to a reader of the guest and puts back what is left
if the reader goes away; `handle`, which sends a request; and `into_http`, which hands a response to
the embedder. All three count the bytes of the contents when the headers have a `Content-Length`.

The state includes the environment: the chunks and the trailers that the guest writes, and what the
reader does at every point where the task waits. Bodies that come from the host are left out.
-/

namespace Wasmtime.Http

open Base

abbrev Bytes := List UInt8

inductive ErrorCode where
  | httpRequestBodySize (size : Option Nat)
  | httpResponseBodySize (size : Option Nat)
  | other (code : Nat)
deriving DecidableEq

/-- The result of the guest, with a handle to its trailers. -/
abbrev GuestTrailers := Except ErrorCode (Option Nat)

inductive BodyFrame where
  | data (bytes : Bytes)
  | trailers (res : GuestTrailers)

inductive BodyContext where
  | request
  | response

def BodyContext.asBodySizeError (cx : BodyContext) (size : Nat) : ErrorCode :=
  match cx with
  | .request => .httpRequestBodySize (some size)
  | .response => .httpResponseBodySize (some size)

structure ContentLength where
  limit : Nat
  sent : Nat
deriving DecidableEq

def ContentLength.new (limit : Nat) : ContentLength := ⟨limit, 0⟩

/-- A stream or future of the guest: its other end is part of the world below. -/
inductive MaybeTombstone where
  | some
  | tombstone
  | none
deriving DecidableEq

structure GuestBody where
  contents : MaybeTombstone
  trailers : MaybeTombstone
  buffer : Option BodyFrame
  contentLength : Option ContentLength

inductive Body where
  | guest (body : GuestBody)
  | consumed

/-- `request.new` and `response.new`. -/
def GuestBody.new (contents : Bool) (contentLength : Option Nat) : GuestBody where
  contents := if contents then .some else .none
  trailers := .some
  buffer := none
  contentLength := contentLength.map ContentLength.new

/-- The contents that the guest writes, whether it then drops its end, and what it does with the
future of its trailers: nothing yet, or it drops it or writes to it. -/
structure Guest where
  chunks : List Bytes
  ended : Bool
  trailers : Option (Option GuestTrailers)

/-- What the reader of a task does: it reads some number of bytes, or drops its end. -/
inductive Answer where
  | go (count : Nat)
  | drop

/-- A body, the guest that writes it, the reader of the task that runs, and the bytes that came
out of the stream of the guest and those that readers received. -/
structure World where
  body : Body
  guest : Guest
  answers : List Answer
  read : Bytes
  received : Bytes

def World.new (contents : Bool) (contentLength : Option Nat) (guest : Guest) : World :=
  ⟨.guest (.new contents contentLength), guest, [], [], []⟩

/-- The errors of the three consumers, and what they may wait for. -/
inductive Stop where
  | corrupted
  | consumed
  | mismatch (contentLength : ContentLength)
  | pending
deriving DecidableEq

/-! ### Reading and writing -/

/-- A read of the contents; `none` once the guest has dropped its end. -/
def readGuest : Prog World Stop (Option Bytes) := do
  let w ← Prog.get
  match w.guest.chunks with
  | chunk :: chunks => do
    Prog.set { w with guest := { w.guest with chunks }, read := w.read ++ chunk }
    pure (some chunk)
  | [] => if w.guest.ended then pure none else Prog.err .pending

def answer : Prog World Stop Answer := do
  let w ← Prog.get
  match w.answers with
  | answer :: answers => do
    Prog.set { w with answers }
    pure answer
  | [] => Prog.err .pending

/-- `write_all` to the reader of the task: what it did not take, and whether it is gone. -/
def writeAll (buffer : Bytes) : Prog World Stop (Bytes × Bool) := do
  let w ← Prog.get
  Prog.loop .pending
    (fun buffer =>
      if buffer.isEmpty then
        pure (.inr (buffer, false))
      else do
        match ← answer with
        | .drop => pure (.inr (buffer, true))
        | .go count => do
          Prog.modify fun w => { w with received := w.received ++ buffer.take count }
          pure (.inl (buffer.drop count)))
    (w.answers.length + 1) buffer

def setBody (body : Body) : Prog World Stop Unit := Prog.modify fun w => { w with body }

/-! ### The task -/

/-- How a task ends: with an error for both its futures, with a body that it puts back, or at the
end of the body. -/
inductive TaskEnd where
  | sizeError (err : ErrorCode)
  | stored
  | sent
deriving DecidableEq

/-- The first arm of all three consumers: a body without contents that should have some. -/
def GuestBody.sizeMismatch (body : GuestBody) : Option ContentLength :=
  match body with
  | ⟨.none, _, none, some cl⟩ => if cl.limit ≠ cl.sent then some cl else none
  | ⟨.none, _, some (.trailers (.ok none)), some cl⟩ =>
    if cl.limit ≠ cl.sent then some cl else none
  | _ => none

def sendTrailers (res : GuestTrailers) : Prog World Stop TaskEnd := do
  match ← answer with
  | .drop => do
    setBody (.guest ⟨.none, .none, some (.trailers res), none⟩)
    pure .stored
  | .go _ => pure .sent

/-- The trailers are read. A future that is being read cannot be put back. -/
def receiveTrailers : Prog World Stop TaskEnd := do
  match ← answer with
  | .drop => do
    setBody (.guest ⟨.none, .tombstone, none, none⟩)
    pure .stored
  | .go _ => do
    let w ← Prog.get
    match w.guest.trailers with
    | none => Prog.err .pending
    | some none => do
      setBody (.guest ⟨.none, .tombstone, none, none⟩)
      pure .stored
    | some (some res) => sendTrailers res

/-- The count of a chunk of the contents, or the size to report. -/
def countChunk (contentLength : Option ContentLength) (len : Nat) :
    Except Nat (Option ContentLength) :=
  match contentLength with
  | none => .ok none
  | some ⟨limit, sent⟩ =>
    match checkedAdd sent len with
    | none => .error u64Max
    | some n => if n > limit then .error n else .ok (some ⟨limit, n⟩)

/-- What is left of a body whose reader went away during a write. -/
def putBack (buffer : Bytes) (contentLength : Option ContentLength) : Prog World Stop Unit :=
  setBody (.guest ⟨.some, .some, some (.data buffer), contentLength⟩)

/-- One round of the loop over the contents; `none` stands for their end. -/
def contentsRound (cx : BodyContext) (contentLength : Option ContentLength) :
    Prog World Stop (Option ContentLength ⊕ Option TaskEnd) := do
  match ← answer with
  | .drop => do
    setBody (.guest ⟨.tombstone, .some, none, contentLength⟩)
    pure (.inr (some .stored))
  | .go _ =>
    match ← readGuest with
    | none =>
      match contentLength with
      | some ⟨limit, sent⟩ =>
        if limit ≠ sent then
          pure (.inr (some (.sizeError (cx.asBodySizeError sent))))
        else
          pure (.inr none)
      | none => pure (.inr none)
    | some chunk =>
      match countChunk contentLength chunk.length with
      | .error n => pure (.inr (some (.sizeError (cx.asBodySizeError n))))
      | .ok contentLength => do
        let (buffer, closed) ← writeAll chunk
        if closed then do
          putBack buffer contentLength
          pure (.inr (some .stored))
        else
          pure (.inl contentLength)

/-- The loop over the contents, and the trailers after it. -/
def sendContents (cx : BodyContext) (contentLength : Option ContentLength) :
    Prog World Stop TaskEnd := do
  let w ← Prog.get
  match ← Prog.loop .pending (contentsRound cx) (w.answers.length + 1) contentLength with
  | some e => pure e
  | none => receiveTrailers

/-- `BodyTask::run`, for bodies of the guest. -/
def BodyTask.run (cx : BodyContext) : Prog World Stop TaskEnd := do
  let w ← Prog.get
  setBody .consumed
  match w.body with
  | .consumed => Prog.err .consumed
  | .guest body =>
    match body.sizeMismatch with
    | some cl => pure (.sizeError (cx.asBodySizeError cl.sent))
    | none =>
      match body with
      | ⟨.none, .some, none, none⟩ => receiveTrailers
      | ⟨.none, .none, some (.trailers res), none⟩ => sendTrailers res
      | ⟨.some, .some, none, contentLength⟩ => sendContents cx contentLength
      | ⟨.some, .some, some (.data buffer), contentLength⟩ => do
        let (buffer, closed) ← writeAll buffer
        if closed then do
          putBack buffer contentLength
          pure .stored
        else
          sendContents cx contentLength
      | _ => Prog.err .corrupted

/-! ### Requests -/

/-- The body of a message that is sent: without contents, with the trailers that come with it or
are still to come, or with the contents behind a frame that was parked. -/
inductive Outgoing where
  | empty (trailers : GuestTrailers)
  | trailers
  | contents (buffer : Bytes) (contentLength : Option ContentLength)
deriving DecidableEq

/-- The match on the body in `handle`: an error for the guest, or the body that is sent. -/
def handle (body : Body) : Except Stop (Except ErrorCode Outgoing) :=
  match body with
  | .consumed => .ok (.ok (.empty (.ok none)))
  | .guest body =>
    match body.sizeMismatch with
    | some cl => .ok (.error (.httpRequestBodySize (some cl.sent)))
    | none =>
      match body with
      | ⟨.none, .none, some (.trailers (.ok trailers)), none⟩ => .ok (.ok (.empty (.ok trailers)))
      | ⟨.none, .none, some (.trailers (.error err)), none⟩ => .ok (.error err)
      | ⟨.none, .some, none, none⟩ => .ok (.ok .trailers)
      | ⟨.some, .some, none, contentLength⟩ => .ok (.ok (.contents [] contentLength))
      | ⟨.some, .some, some (.data buffer), contentLength⟩ =>
        .ok (.ok (.contents buffer contentLength))
      | _ => .error .corrupted

structure BodyWithContentLength where
  contentLength : Option ContentLength
  bodyLengthMismatch : Bool

def BodyWithContentLength.new (contentLength : Option ContentLength) : BodyWithContentLength :=
  ⟨contentLength, false⟩

/-- `poll_frame`, when the body within has a frame or ends. -/
def BodyWithContentLength.pollFrame (this : BodyWithContentLength) (frame : Option Bytes) :
    Option (Except ErrorCode Bytes) × BodyWithContentLength :=
  if this.bodyLengthMismatch then
    (none, this)
  else
    match this.contentLength with
    | none => (frame.map .ok, this)
    | some ⟨limit, sent⟩ =>
      match frame with
      | some data =>
        let sent := saturatingAdd sent data.length
        if sent > limit then
          (some (.error (.httpRequestBodySize (some sent))), ⟨some ⟨limit, sent⟩, true⟩)
        else
          (some (.ok data), ⟨some ⟨limit, sent⟩, false⟩)
      | none =>
        if sent ≠ limit then
          (some (.error (.httpRequestBodySize (some sent))), ⟨some ⟨limit, sent⟩, true⟩)
        else
          (none, this)

/-- The other end of the channel of a request: it sends the parked frame, then what it reads, and
an empty frame for the read that finds the stream closed. -/
inductive Feed where
  | first (buffer : Bytes)
  | reading
  | closed

def Feed.frame : Feed → Prog World Stop (Option Bytes × Feed)
  | .first buffer => pure (some buffer, .reading)
  | .reading => do
    match ← readGuest with
    | some chunk => pure (some chunk, .reading)
    | none => pure (some [], .closed)
  | .closed => pure (none, .closed)

def polled {S : Type} (r : Option (Except ErrorCode Bytes)) (next : S) :
    S ⊕ Except ErrorCode Unit :=
  match r with
  | none => .inr (.ok ())
  | some (.error err) => .inr (.error err)
  | some (.ok _) => .inl next

/-- A client that polls the body of a request to its end or to an error. -/
def sendRequest (buffer : Bytes) (contentLength : Option ContentLength) :
    Prog World Stop (Except ErrorCode Unit) := do
  let w ← Prog.get
  Prog.loop .pending
    (fun (feed, body) => do
      let (frame, feed) ← Feed.frame feed
      let r := BodyWithContentLength.pollFrame body frame
      pure (polled r.1 (feed, r.2)))
    (w.guest.chunks.length + 3) (.first buffer, .new contentLength)

/-! ### Responses -/

/-- The match on the body in `into_http`. -/
def intoHttp (body : Body) : Except Stop Outgoing :=
  match body with
  | .consumed => .ok (.empty (.ok none))
  | .guest body =>
    match body.sizeMismatch with
    | some cl => .error (.mismatch cl)
    | none =>
      match body with
      | ⟨.none, .none, some (.trailers res), _⟩ => .ok (.empty res)
      | ⟨.none, .some, none, _⟩ => .ok .trailers
      | ⟨.some, .some, none, contentLength⟩ => .ok (.contents [] contentLength)
      | ⟨.some, .some, some (.data buffer), contentLength⟩ => .ok (.contents buffer contentLength)
      | _ => .error .corrupted

/-- `contents` says whether the channel is still open. -/
structure OutgoingResponseBody where
  contents : Bool
  buffer : Bytes
  contentLength : Option ContentLength

def OutgoingResponseBody.new (buffer : Bytes) (contentLength : Option ContentLength) :
    OutgoingResponseBody :=
  ⟨true, buffer, contentLength⟩

def countFrame (contentLength : Option ContentLength) (len : Nat) :
    Except ErrorCode (Option ContentLength) :=
  match contentLength with
  | none => .ok none
  | some ⟨limit, sent⟩ =>
    match checkedAdd sent len with
    | none => .error (.httpRequestBodySize none)
    | some n =>
      if n > limit then
        .error (.httpRequestBodySize (some n))
      else
        .ok (some ⟨limit, n⟩)

/-- The loop of `ResponseIo::run` up to the next frame that it sends; empty ones are left out. -/
def ResponseIo.frame : Prog World Stop (Option Bytes) := do
  let w ← Prog.get
  Prog.loop .pending
    (fun () => do
      match ← readGuest with
      | none => pure (.inr none)
      | some chunk => if chunk.isEmpty then pure (.inl ()) else pure (.inr (some chunk)))
    (w.guest.chunks.length + 1) ()

def OutgoingResponseBody.pollFrame (this : OutgoingResponseBody) :
    Prog World Stop (Option (Except ErrorCode Bytes) × OutgoingResponseBody) :=
  if this.buffer.isEmpty then
    if this.contents then do
      match ← ResponseIo.frame with
      | some buf =>
        match countFrame this.contentLength buf.length with
        | .error err => pure (some (.error err), this)
        | .ok contentLength => pure (some (.ok buf), { this with contentLength })
      | none =>
        match this.contentLength with
        | some ⟨limit, sent⟩ =>
          if limit ≠ sent then
            pure (some (.error (.httpRequestBodySize (some sent))), { this with contents := false })
          else
            pure (none, { this with contents := false })
        | none => pure (none, { this with contents := false })
    else
      pure (none, this)
  else
    match countFrame this.contentLength this.buffer.length with
    | .error err => pure (some (.error err), { this with buffer := [] })
    | .ok contentLength => pure (some (.ok this.buffer), { this with buffer := [], contentLength })

/-- A server that polls the body of a response to its end or to an error. -/
def sendResponse (buffer : Bytes) (contentLength : Option ContentLength) :
    Prog World Stop (Except ErrorCode Unit) := do
  let w ← Prog.get
  Prog.loop .pending
    (fun body => do
      let r ← OutgoingResponseBody.pollFrame body
      pure (polled r.1 r.2))
    (w.guest.chunks.length + 3) (.new buffer contentLength)

end Wasmtime.Http
