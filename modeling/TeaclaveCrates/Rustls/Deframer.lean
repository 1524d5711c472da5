import TeaclaveCrates.Lib.Slice
import TeaclaveCrates.Rustls.RecordLayer

namespace TeaclaveCrates.Rustls

open TeaclaveCrates.Lib

/-!
# rustls — the message deframer

`msgs/deframer.rs`: records are read into one buffer, and the payloads of
consecutive handshake records are joined at its front, in place, while the records
behind them are still unread.

* `MessageDeframer.pop`, `appendHs`, `read`, `prepareRead`, `discard`, `payloadSize`
  — the source functions; `none` stands for a panic (an index out of bounds, a
  failed assertion or `unwrap`) or for a loop that does not end.
-/

def HEADER_SIZE : Nat := 1 + 3

def MAX_HANDSHAKE_SIZE : Nat := 0xffff

def READ_SIZE : Nat := 4096

/-- `Range<usize>`. -/
structure Range where
  start : Nat
  stop : Nat
deriving DecidableEq, Repr

/-- `Range::len`. -/
def Range.len (r : Range) : Nat := r.stop - r.start

/-- `HandshakePayloadMeta`. -/
structure HandshakePayloadMeta where
  message : Range
  payload : Range
  version : ProtocolVersion
  expectedLen : Option Nat
  quic : Bool
deriving DecidableEq, Repr

/-- `HandshakePayloadState`. -/
inductive HandshakePayloadState
  | blocked
  | complete (len : Nat)
  | continue
deriving DecidableEq, Repr

/-- `MessageDeframer`. -/
structure MessageDeframer where
  lastError : Option Error
  buf : Bytes
  joiningHs : Option HandshakePayloadMeta
  used : Nat
deriving DecidableEq, Repr

/-- `Deframed`. -/
structure Deframed where
  wantCloseBeforeDecrypt : Bool
  aligned : Bool
  trialDecryptionFinished : Bool
  message : PlainMessage
deriving DecidableEq, Repr

/-- `payload_size`. -/
def payloadSize (buf : Bytes) : Except Error (Option Nat) :=
  if buf.length < HEADER_SIZE then
    .ok none
  else
    match (Codec.read ((buf.take HEADER_SIZE).drop 1) : Except InvalidMessage (U24 × Bytes)) with
    | .ok (len, _) =>
      if len.val.toNat > MAX_HANDSHAKE_SIZE then
        .error (.invalidMessage .handshakePayloadTooLarge)
      else
        .ok (some (HEADER_SIZE + len.val.toNat))
    | .error _ => .ok none

/-- The error a record that cannot be read is reported as. -/
def MessageError.toInvalidMessage : MessageError → InvalidMessage
  | .invalidEmptyPayload => .invalidEmptyPayload
  | .messageTooLarge => .messageTooLarge
  | .invalidContentType => .invalidContentType
  | .unknownProtocolVersion => .unknownProtocolVersion
  | .tooShortForHeader | .tooShortForLength => .messageTooShort

namespace MessageDeframer

/-- `MessageDeframer::default`. -/
def default : MessageDeframer := ⟨none, [], none, 0⟩

/-- `set_err`. -/
def setErr (d : MessageDeframer) (err : Error) : MessageDeframer :=
  { d with lastError := some err }

/-- `discard`. -/
def discard (d : MessageDeframer) (taken : Nat) : Option MessageDeframer :=
  if taken < d.used then do
    let unread ← slice? d.buf taken d.used
    let buf ← overwrite? d.buf 0 unread
    return { d with buf := buf, used := d.used - taken }
  else if taken = d.used then
    some { d with used := 0 }
  else
    some d

/-- The last `match` of `append_hs`. -/
def hsState (used : Nat) (joined : HandshakePayloadMeta) : HandshakePayloadState :=
  let more := if used > joined.message.stop then .continue else .blocked
  match joined.expectedLen with
  | some len => if len ≤ joined.payload.len then .complete len else more
  | none => more

/-- `append_hs`: joins the payload to the handshake bytes at the front. -/
def appendHs (d : MessageDeframer) (version : ProtocolVersion) (payload : Bytes) (stop : Nat)
    (quic : Bool) : Option (Except Error HandshakePayloadState × MessageDeframer) :=
  match d.joiningHs with
  | some joined => do
    guard (joined.quic = quic)
    let buf ← overwrite? d.buf joined.payload.stop payload
    let joined := { joined with
      message := ⟨joined.message.start, stop⟩
      payload := ⟨joined.payload.start, joined.payload.stop + payload.length⟩ }
    if joined.expectedLen.isNone then
      let bytes ← slice? buf joined.payload.start joined.payload.stop
      match payloadSize bytes with
      | .error err => return (.error err, { d with buf := buf, joiningHs := some joined })
      | .ok expectedLen =>
        let joined := { joined with expectedLen := expectedLen }
        return (.ok (hsState d.used joined), { d with buf := buf, joiningHs := some joined })
    else
      return (.ok (hsState d.used joined), { d with buf := buf, joiningHs := some joined })
  | none =>
    match payloadSize payload with
    | .error err => return (.error err, d)
    | .ok expectedLen => do
      let buf ← overwrite? d.buf 0 payload
      let joined : HandshakePayloadMeta := ⟨⟨0, stop⟩, ⟨0, payload.length⟩, version, expectedLen,
        quic⟩
      return (.ok (hsState d.used joined), { d with buf := buf, joiningHs := some joined })

/-- How the loop of `pop` ends: it returns, or breaks with a length. -/
inductive LoopEnd
  | ret (result : Except Error (Option Deframed))
  | complete (len : Nat)

/-- Where the loop of `pop` goes on reading: the joined message is complete, or
    nothing more can come, or the next record starts at an index. -/
def nextStart (d : MessageDeframer) : Except LoopEnd Nat :=
  match d.joiningHs with
  | some joined =>
    let more := if joined.quic then .error (.ret (.ok none)) else .ok joined.message.stop
    match joined.expectedLen with
    | some len => if len ≤ joined.payload.len then .error (.complete len) else more
    | none => more
  | none => .ok 0

/-- A message returned as it is. -/
def deframed (message : PlainMessage) : Deframed := ⟨false, true, false, message⟩

/-- The loop of `pop`. Every round that goes on has used up a record, so `fuel`
    above the number of bytes in use is enough. -/
def popLoop : Nat → MessageDeframer → RecordLayer →
    Option (LoopEnd × MessageDeframer × RecordLayer)
  | 0, _, _ => none
  | fuel + 1, d, rl =>
    match d.nextStart with
    | .error stop => some (stop, d, rl)
    | .ok start => do
      let unread ← slice? d.buf start d.used
      match OpaqueMessage.read unread with
      | .error .tooShortForHeader => return (.ret (.ok none), d, rl)
      | .error .tooShortForLength => return (.ret (.ok none), d, rl)
      | .error err =>
        let err := Error.invalidMessage err.toInvalidMessage
        return (.ret (.error err), d.setErr err, rl)
      | .ok (m, rest) =>
        let stop := start + (unread.length - rest.length)
        if m.typ = .changeCipherSpec ∧ d.joiningHs.isNone then
          -- unencrypted; the contents are checked later
          let d ← d.discard stop
          return (.ret (.ok (some (deframed m.intoPlainMessage))), d, rl)
        else
          match rl.decryptIncoming m with
          | (.error err, rl) => return (.ret (.error err), d, rl)
          | (.ok none, rl) =>
            if d.joiningHs.isSome then
              let err := Error.peerMisbehaved .rejectedEarlyDataInterleavedWithHandshakeMessage
              return (.ret (.error err), d.setErr err, rl)
            else
              let d ← d.discard stop
              popLoop fuel d rl
          | (.ok (some decrypted), rl) =>
            guard (decrypted.wantCloseBeforeDecrypt = false)
            let msg := decrypted.plaintext
            if d.joiningHs.isSome ∧ msg.typ ≠ .handshake then
              let err := Error.peerMisbehaved .messageInterleavedWithHandshakeMessage
              return (.ret (.error err), d.setErr err, rl)
            else if msg.typ ≠ .handshake then
              let d ← d.discard stop
              return (.ret (.ok (some (deframed msg))), d, rl)
            else
              let (result, d) ← d.appendHs msg.version msg.payload.bytes stop false
              match result with
              | .error err => return (.ret (.error err), d, rl)
              | .ok .blocked => return (.ret (.ok none), d, rl)
              | .ok (.complete len) => return (.complete len, d, rl)
              | .ok .continue => popLoop fuel d rl

/-- What `pop` does after its loop: wraps the complete message and moves past it. -/
def takeComplete (d : MessageDeframer) (expectedLen : Nat) :
    Option (Except Error (Option Deframed) × MessageDeframer) := do
  let joined ← d.joiningHs
  let payload ← slice? d.buf joined.payload.start (joined.payload.start + expectedLen)
  let message : PlainMessage := ⟨.handshake, joined.version, ⟨payload⟩⟩
  if joined.payload.len > expectedLen then
    let joined := { joined with
      payload := ⟨joined.payload.start + expectedLen, joined.payload.stop⟩ }
    let bytes ← slice? d.buf joined.payload.start joined.payload.stop
    match payloadSize bytes with
    | .error err => return (.error err, { d with joiningHs := some joined })
    | .ok expectedLen =>
      let d := { d with joiningHs := some { joined with expectedLen := expectedLen } }
      return (.ok (some ⟨false, false, true, message⟩), d)
  else
    let d ← discard { d with joiningHs := none } joined.message.stop
    return (.ok (some ⟨false, true, true, message⟩), d)

/-- `pop`. -/
def pop (d : MessageDeframer) (rl : RecordLayer) :
    Option (Except Error (Option Deframed) × MessageDeframer × RecordLayer) :=
  match d.lastError with
  | some err => some (.error err, d, rl)
  | none =>
    if d.used = 0 then
      some (.ok none, d, rl)
    else do
      let (stop, d, rl) ← popLoop (d.used + 1) d rl
      match stop with
      | .ret result => return (result, d, rl)
      | .complete expectedLen =>
        let (result, d) ← d.takeComplete expectedLen
        return (result, d, rl)

/-- `Vec::resize` with zeros. -/
def resize (buf : Bytes) (len : Nat) : Bytes := buf.take len ++ List.replicate (len - buf.length) 0

/-- `allow_max` in `prepare_read`: room for a handshake message or for one record. -/
def allowMax (d : MessageDeframer) : Nat :=
  if d.joiningHs.isSome then MAX_HANDSHAKE_SIZE else OpaqueMessage.MAX_WIRE_SIZE

/-- `prepare_read`: makes room for the next read. -/
def prepareRead (d : MessageDeframer) : Except String MessageDeframer :=
  if d.used ≥ d.allowMax then
    .error "message buffer full"
  else
    let needCapacity := min d.allowMax (d.used + READ_SIZE)
    let resized := { d with buf := resize d.buf needCapacity }
    if needCapacity > d.buf.length then .ok resized
    else if d.used = 0 ∨ d.buf.length > d.allowMax then .ok resized
    else .ok d

/-- `read` from a source that has `available` and hands out at most `limit` bytes
    of it.  Returns the number of bytes taken. -/
def read (d : MessageDeframer) (available : Bytes) (limit : Nat) :
    Option (Except String Nat × MessageDeframer) :=
  match d.prepareRead with
  | .error err => some (.error err, d)
  | .ok d =>
    if d.used ≤ d.buf.length then
      let newBytes := min limit (min available.length (d.buf.length - d.used))
      some (.ok newBytes, { d with
        buf := overwrite d.buf d.used (available.take newBytes), used := d.used + newBytes })
    else
      none

end MessageDeframer

end TeaclaveCrates.Rustls
