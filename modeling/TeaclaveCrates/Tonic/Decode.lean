import TeaclaveCrates.Tonic.Codec

namespace TeaclaveCrates.Tonic

open TeaclaveCrates.Lib

/-!
# tonic — decoding frames from a body

`decode.rs`: a `Streaming` pulls chunks from an HTTP body into a buffer and cuts
them into frames.

* `StreamingInner.decodeChunk` — the two-state machine over the buffer;
* `Streaming.pollNext` — its loop, by recursion on what the body still delivers;
* `Streaming.collect` — polling until the end of the stream.

The body is the list of answers its `poll_data` gives, followed for ever by the
end of the data, and the answer of `poll_trailers`.
-/

variable {HeaderMap D Item : Type}

/-- `Poll`: an answer, or not yet. -/
inductive Poll (α : Type) where
  | pending
  | ready (a : α)
deriving DecidableEq, Repr

/-- One answer of the body's `poll_data` before the end of the data. -/
inductive BodyEvent
  | pending
  | data (chunk : Bytes)
  | error (status : Status)

/-- The body: the coming answers of `poll_data`, how often `poll_trailers` is
    pending, and what it then gives. -/
structure Body (HeaderMap : Type) where
  events : List BodyEvent
  trailersPending : Nat
  trailers : Except Status (Option HeaderMap)

/-- `enum State`. -/
inductive State
  | readHeader
  | readBody (compression : Option CompressionEncoding) (len : Nat)
  | error
deriving DecidableEq, Repr

/-- `enum Direction`. -/
inductive Direction
  | request
  | response (status : StatusCode)
  | emptyResponse
deriving DecidableEq, Repr

/-- `struct StreamingInner`, less the body, which `pollNext` takes beside it. -/
structure StreamingInner (HeaderMap : Type) where
  state : State
  direction : Direction
  buf : Bytes
  trailers : Option HeaderMap
  decompressBuf : Bytes
  encoding : Option CompressionEncoding
  maxMessageSize : Option Nat

/-- `struct Streaming`. -/
structure Streaming (HeaderMap D : Type) where
  decoder : D
  inner : StreamingInner HeaderMap

/-- `Streaming::new`, the common part of the three constructors. -/
def Streaming.new (decoder : D) (direction : Direction) (encoding : Option CompressionEncoding)
    (maxMessageSize : Option Nat) : Streaming HeaderMap D where
  decoder := decoder
  inner := {
    state := .readHeader
    direction := direction
    buf := []
    trailers := none
    decompressBuf := []
    encoding := encoding
    maxMessageSize := maxMessageSize }

/-- A `DecodeBuf`: which of the two buffers it borrows, and how many bytes of it
    belong to the message. -/
structure DecodeBuf where
  decompressed : Bool
  len : Nat
deriving DecidableEq, Repr

namespace StreamingInner

/-- The `match self.buf.get_u8()` of `decode_chunk`: what the flag byte means. -/
def compressionFlag (s : StreamingInner HeaderMap) (flag : UInt8) :
    Except Status (Option CompressionEncoding) :=
  if flag = 0 then
    .ok none
  else if flag = 1 then
    match s.encoding with
    | some encoding => .ok (some encoding)
    | none => .error ⟨.internal, "protocol error: received message with compressed-flag but " ++
        "no grpc-encoding was specified"⟩
  else
    let prelude := "protocol error: received message with invalid compression flag: " ++
      toString flag.toNat ++ " (valid flags are 0 and 1)"
    match s.direction with
    | .response status => .error ⟨.internal, prelude ++
        " while receiving response with status: " ++ status.display⟩
    | _ => .error ⟨.internal, prelude ++ ", while sending request"⟩

/-- The first half of `decode_chunk` once a whole header is in the buffer: takes
    the header off and moves to `ReadBody`. -/
def takeHeader (s : StreamingInner HeaderMap) :
    Except Status Unit × StreamingInner HeaderMap :=
  match s.compressionFlag (s.buf.headD 0) with
  | .error status => (.error status, { s with buf := s.buf.drop 1 })
  | .ok compression =>
    let len := ofBE ((s.buf.drop 1).take 4)
    let limit := s.maxMessageSize.getD DEFAULT_MAX_RECV_MESSAGE_SIZE
    let s := { s with buf := s.buf.drop HEADER_SIZE }
    if len > limit then
      (.error ⟨.outOfRange, "Error, message length too large: found " ++ toString len ++
        " bytes, the limit is: " ++ toString limit ++ " bytes"⟩, s)
    else
      (.ok (), { s with state := .readBody compression len })

/-- The second half of `decode_chunk`: waits for the whole payload and hands it
    out, decompressed where the header said so. -/
def takeBody (gz : Gzip) (s : StreamingInner HeaderMap) :
    Except Status (Option DecodeBuf) × StreamingInner HeaderMap :=
  match s.state with
  | .readBody compression len =>
    if s.buf.length < len then
      (.ok none, s)
    else
      match compression with
      | none => (.ok (some ⟨false, len⟩), s)
      | some encoding =>
        match decompress gz encoding s.buf [] len with
        | (buf, out, .ok ()) =>
          (.ok (some ⟨true, out.length⟩), { s with buf := buf, decompressBuf := out })
        | (buf, out, .error err) =>
          let text := "Error decompressing: " ++ err
          let s' := { s with buf := buf, decompressBuf := out }
          match s.direction with
          | .response status => (.error ⟨.internal, text ++
              ", while receiving response with status: " ++ status.display⟩, s')
          | _ => (.error ⟨.internal, text ++ ", while sending request"⟩, s')
  | _ => (.ok none, s)

/-- `StreamingInner::decode_chunk`. -/
def decodeChunk (gz : Gzip) (s : StreamingInner HeaderMap) :
    Except Status (Option DecodeBuf) × StreamingInner HeaderMap :=
  if s.state = .readHeader then
    if s.buf.length < HEADER_SIZE then
      (.ok none, s)
    else
      match s.takeHeader with
      | (.error status, s) => (.error status, s)
      | (.ok (), s) => s.takeBody gz
  else
    s.takeBody gz

/-- `StreamingInner::poll_data`, given what the body's `poll_data` answered
    (`none` is the end of the data). -/
def pollData (s : StreamingInner HeaderMap) (answer : Option BodyEvent) :
    Poll (Except Status (Option Unit)) × StreamingInner HeaderMap :=
  match answer with
  | some .pending => (.pending, s)
  | some (.error status) =>
    if s.direction = .request ∧ status.code = .cancelled then
      (.ready (.ok none), s)
    else
      (.ready (.error status), { s with state := .error })
  | some (.data chunk) => (.ready (.ok (some ())), { s with buf := s.buf ++ chunk })
  | none =>
    if s.buf.length ≠ 0 then
      (.ready (.error ⟨.internal, "Unexpected EOF decoding stream."⟩), s)
    else
      (.ready (.ok none), s)

/-- `StreamingInner::poll_response`: only a response looks at the trailers. -/
def pollResponse (fromHeaderMap : HeaderMap → Option Status) (body : Body HeaderMap)
    (s : StreamingInner HeaderMap) :
    Poll (Except Status Unit) × Body HeaderMap × StreamingInner HeaderMap :=
  match s.direction with
  | .response status =>
    match body.trailersPending with
    | waits + 1 => (.pending, { body with trailersPending := waits }, s)
    | 0 =>
      match body.trailers with
      | .error e => (.ready (.error e), body, s)
      | .ok trailers =>
        match inferGrpcStatus fromHeaderMap trailers status with
        | .error (some e) => (.ready (.error e), body, s)
        | .error none => (.ready (.ok ()), body, s)
        | .ok () => (.ready (.ok ()), body, { s with trailers := trailers })
  | _ => (.ready (.ok ()), body, s)

end StreamingInner

namespace Streaming

/-- `Streaming::decode_chunk`: runs the message decoder on a complete payload. -/
def decodeChunk (gz : Gzip) (dec : Decoder D Item) (s : Streaming HeaderMap D) :
    Except Status (Option Item) × Streaming HeaderMap D :=
  match s.inner.decodeChunk gz with
  | (.error status, inner) => (.error status, { s with inner := inner })
  | (.ok none, inner) => (.ok none, { s with inner := inner })
  | (.ok (some view), inner) =>
    let src := if view.decompressed then inner.decompressBuf else inner.buf
    match dec.decode s.decoder (src.take view.len) with
    | (d, taken, result) =>
      let inner := if view.decompressed
        then { inner with decompressBuf := inner.decompressBuf.drop taken }
        else { inner with buf := inner.buf.drop taken }
      match result with
      | .error status => (.error status, ⟨d, inner⟩)
      | .ok none => (.ok none, ⟨d, inner⟩)
      | .ok (some msg) => (.ok (some msg), ⟨d, { inner with state := .readHeader }⟩)

/-- What `poll_next` does after its loop: asks for the trailers. -/
def finish (fromHeaderMap : HeaderMap → Option Status) (body : Body HeaderMap)
    (s : Streaming HeaderMap D) :
    Poll (Option (Except Status Item)) × Body HeaderMap × Streaming HeaderMap D :=
  match s.inner.pollResponse fromHeaderMap body with
  | (.pending, body, inner) => (.pending, body, { s with inner := inner })
  | (.ready (.ok ()), body, inner) => (.ready none, body, { s with inner := inner })
  | (.ready (.error err), body, inner) =>
    (.ready (some (.error err)), body, { s with inner := inner })

/-- The loop of `poll_next`, by recursion on the answers the body still gives. -/
def pollLoop (gz : Gzip) (fromHeaderMap : HeaderMap → Option Status) (dec : Decoder D Item)
    (body : Body HeaderMap) :
    List BodyEvent → Streaming HeaderMap D →
      Poll (Option (Except Status Item)) × Body HeaderMap × Streaming HeaderMap D
  | events, s =>
    if s.inner.state = .error then
      (.ready none, { body with events := events }, s)
    else
      match s.decodeChunk gz dec with
      | (.error status, s) => (.ready (some (.error status)), { body with events := events }, s)
      | (.ok (some item), s) => (.ready (some (.ok item)), { body with events := events }, s)
      | (.ok none, s) =>
        match events with
        | [] =>
          match s.inner.pollData none with
          | (.pending, inner) => (.pending, { body with events := [] }, { s with inner := inner })
          | (.ready (.error status), inner) =>
            (.ready (some (.error status)), { body with events := [] }, { s with inner := inner })
          | (.ready (.ok _), inner) =>
            finish fromHeaderMap { body with events := [] } { s with inner := inner }
        | event :: events =>
          match s.inner.pollData (some event) with
          | (.pending, inner) =>
            (.pending, { body with events := events }, { s with inner := inner })
          | (.ready (.error status), inner) =>
            (.ready (some (.error status)), { body with events := events },
              { s with inner := inner })
          | (.ready (.ok (some ())), inner) =>
            pollLoop gz fromHeaderMap dec body events { s with inner := inner }
          | (.ready (.ok none), inner) =>
            finish fromHeaderMap { body with events := events } { s with inner := inner }

/-- `Streaming::poll_next`. -/
def pollNext (gz : Gzip) (fromHeaderMap : HeaderMap → Option Status) (dec : Decoder D Item)
    (body : Body HeaderMap) (s : Streaming HeaderMap D) :
    Poll (Option (Except Status Item)) × Body HeaderMap × Streaming HeaderMap D :=
  pollLoop gz fromHeaderMap dec body body.events s

/-- Polls at most `polls` times: the items in order, once the stream has ended. -/
def collect (gz : Gzip) (fromHeaderMap : HeaderMap → Option Status) (dec : Decoder D Item) :
    Nat → Body HeaderMap → Streaming HeaderMap D → Option (List (Except Status Item))
  | 0, _, _ => none
  | polls + 1, body, s =>
    match s.pollNext gz fromHeaderMap dec body with
    | (.pending, body, s) => collect gz fromHeaderMap dec polls body s
    | (.ready none, _, _) => some []
    | (.ready (some item), body, s) =>
      (collect gz fromHeaderMap dec polls body s).map (item :: ·)

end Streaming

end TeaclaveCrates.Tonic
