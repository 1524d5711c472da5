import TeaclaveCrates.Lib.Slice
import TeaclaveCrates.Rustls.Tls13

namespace TeaclaveCrates.Rustls

open TeaclaveCrates.Lib

/-!
# rustls — sending on a connection

The sending half of `common_state.rs` with `vecbuf.rs`, `msgs/fragmenter.rs` and the
handling of KeyUpdate messages in the traffic state (`client/tls13.rs`,
`server/tls13.rs`), over TCP.

* `ChunkVecBuffer` — the queue of records to be written;
* `CommonState` — `sendSomePlaintext`, alerts, and the parked KeyUpdate message;
* `handleKeyUpdate` — a KeyUpdate from the peer;
* `Connection.step` — one operation on a connection in the traffic state.

`none` is a panic or a stack overflow; debug assertions are not part of the model.
-/

variable {suite : Tls13CipherSuite}

/-! ### Buffers and fragments -/

/-- `ChunkVecBuffer`. -/
structure ChunkVecBuffer where
  chunks : List Bytes
  limit : Option Nat
deriving DecidableEq, Repr

namespace ChunkVecBuffer

/-- The bytes stored. -/
def bytes (b : ChunkVecBuffer) : Bytes := b.chunks.flatten

/-- `len`. -/
def len (b : ChunkVecBuffer) : Nat := (b.chunks.map List.length).sum

/-- `apply_limit`. -/
def applyLimit (b : ChunkVecBuffer) (len : Nat) : Nat :=
  match b.limit with
  | some limit => min len (limit - b.len)
  | none => len

/-- `append`. -/
def append (b : ChunkVecBuffer) (bytes : Bytes) : ChunkVecBuffer :=
  if bytes.isEmpty then b else { b with chunks := b.chunks ++ [bytes] }

/-- `append_limited_copy`. -/
def appendLimitedCopy (b : ChunkVecBuffer) (bytes : Bytes) : Nat × ChunkVecBuffer :=
  let take := b.applyLimit bytes.length
  (take, b.append (bytes.take take))

/-- The loop of `consume`. -/
def consumeChunks : List Bytes → Nat → List Bytes
  | [], _ => []
  | buf :: chunks, used =>
    if used < buf.length then buf.drop used :: chunks else consumeChunks chunks (used - buf.length)

/-- `consume`. -/
def consume (b : ChunkVecBuffer) (used : Nat) : ChunkVecBuffer :=
  { b with chunks := consumeChunks b.chunks used }

/-- `write_to` a sink that takes at most `accepts` bytes: at most 64 chunks are
    offered at once.  Returns what was written. -/
def writeTo (b : ChunkVecBuffer) (accepts : Nat) : Bytes × ChunkVecBuffer :=
  if b.chunks.isEmpty then
    ([], b)
  else
    let bufs := (b.chunks.take 64).flatten
    let used := min accepts bufs.length
    (bufs.take used, b.consume used)

@[simp] theorem bytes_append (b : ChunkVecBuffer) (x : Bytes) :
    (b.append x).bytes = b.bytes ++ x := by
  unfold append
  cases x with
  | nil => simp
  | cons a x => simp [bytes]

theorem flatten_consumeChunks (chunks : List Bytes) :
    ∀ used, (consumeChunks chunks used).flatten = chunks.flatten.drop used := by
  induction chunks with
  | nil => simp [consumeChunks]
  | cons buf chunks ih =>
    intro used
    rw [consumeChunks, List.flatten_cons]
    by_cases hlt : used < buf.length
    · rw [if_pos hlt, List.flatten_cons, List.drop_append_of_le_length (by omega)]
    · have hnil : buf.drop used = [] := List.drop_eq_nil_of_le (by omega)
      simp [hlt, ih, List.drop_append, hnil]

/-- Writing moves bytes from the front of the buffer to the sink. -/
theorem writeTo_bytes (b : ChunkVecBuffer) (accepts : Nat) :
    (b.writeTo accepts).1 ++ (b.writeTo accepts).2.bytes = b.bytes := by
  unfold writeTo
  split
  · rfl
  · show ((b.chunks.take 64).flatten.take _) ++ (consumeChunks b.chunks _).flatten = b.chunks.flatten
    rw [flatten_consumeChunks]
    have hsplit : b.chunks.flatten = (b.chunks.take 64).flatten ++ (b.chunks.drop 64).flatten := by
      rw [← List.flatten_append, List.take_append_drop]
    have htake : (b.chunks.take 64).flatten.take (min accepts (b.chunks.take 64).flatten.length) =
        b.chunks.flatten.take (min accepts (b.chunks.take 64).flatten.length) := by
      rw [hsplit, List.take_append_of_le_length (Nat.min_le_right _ _)]
    rw [htake, List.take_append_drop]

end ChunkVecBuffer

/-- `Message::build_alert`, as a plain message. -/
def buildAlert (level : AlertLevel) (desc : AlertDescription) : PlainMessage :=
  ⟨.alert, .TLSv1_2, ⟨Codec.encode level ++ Codec.encode desc⟩⟩

/-- `Message::build_key_update_notify`, as a plain message. -/
def buildKeyUpdateNotify : PlainMessage :=
  ⟨.handshake, .TLSv1_3,
    ⟨Codec.encode HandshakeType.keyUpdate ++
      encodeSized 3 (Codec.encode KeyUpdateRequest.updateNotRequested)⟩⟩

/-! ### The state and its operations -/

/-- `CommonState`, as far as sending uses it. -/
structure CommonState where
  side : Side
  recordLayer : RecordLayer
  alignedHandshake : Bool
  maySendApplicationData : Bool
  sentFatalAlert : Bool
  /-- `message_fragmenter.max_frag`. -/
  maxFrag : Nat
  sendablePlaintext : ChunkVecBuffer
  sendableTls : ChunkVecBuffer
  queuedKeyUpdateMessage : Option Bytes

/-- `enum Limit`. -/
inductive Limit
  | yes
  | no
deriving DecidableEq, Repr

namespace CommonState

/-- `MessageFragmenter::fragment_slice`. -/
def fragmentSlice (c : CommonState) (typ : ContentType) (version : ProtocolVersion)
    (payload : Bytes) : List PlainMessage :=
  (chunks c.maxFrag payload).map fun x => ⟨typ, version, ⟨x⟩⟩

/-- `MessageFragmenter::fragment_message`. -/
def fragmentMessage (c : CommonState) (m : PlainMessage) : List PlainMessage :=
  c.fragmentSlice m.typ m.version m.payload.bytes

/-- `queue_tls_message`. -/
def queueTlsMessage (c : CommonState) (m : OpaqueMessage) : CommonState :=
  { c with sendableTls := c.sendableTls.append m.encode }

/-- `send_msg` for TCP, with the function that sends one fragment. -/
def sendMsgWith (sendSingleFragment : CommonState → PlainMessage → Option CommonState)
    (c : CommonState) (m : PlainMessage) (mustEncrypt : Bool) : Option CommonState :=
  if !mustEncrypt then
    -- `to_unencrypted_opaque`
    some ((c.fragmentMessage m).foldl
      (fun c m => c.queueTlsMessage ⟨m.typ, m.version, m.payload⟩) c)
  else
    (c.fragmentMessage m).foldlM sendSingleFragment c

/-- `send_single_fragment`, on a stack of the given depth: near the end of the
    sequence space it calls itself through `send_close_notify`. -/
def sendSingleFragment : Nat → CommonState → PlainMessage → Option CommonState
  | 0, _, _ => none
  | depth + 1, c, m => do
    let c ←
      if c.recordLayer.wantsCloseBeforeEncrypt then
        sendMsgWith (sendSingleFragment depth) c (buildAlert .warning .closeNotify)
          c.recordLayer.isEncrypting
      else
        some c
    if c.recordLayer.encryptExhausted then
      return c
    else
      let (em, rl) ← c.recordLayer.encryptOutgoing m
      return queueTlsMessage { c with recordLayer := rl } em

/-- A stack on which `send_single_fragment` can call itself. -/
def STACK_DEPTH : Nat := 1000

/-- `send_msg`. -/
def sendMsg (c : CommonState) (m : PlainMessage) (mustEncrypt : Bool) : Option CommonState :=
  sendMsgWith (sendSingleFragment STACK_DEPTH) c m mustEncrypt

/-- `send_warning_alert`, which only logs before `send_warning_alert_no_log`. -/
def sendWarningAlert (c : CommonState) (desc : AlertDescription) : Option CommonState :=
  c.sendMsg (buildAlert .warning desc) c.recordLayer.isEncrypting

/-- `send_close_notify`. -/
def sendCloseNotify (c : CommonState) : Option CommonState :=
  c.sendWarningAlert .closeNotify

/-- `send_fatal_alert`. -/
def sendFatalAlert (c : CommonState) (desc : AlertDescription) : Option CommonState := do
  let c ← c.sendMsg (buildAlert .fatal desc) c.recordLayer.isEncrypting
  return { c with sentFatalAlert := true }

/-- How much of `len` bytes of application data is taken under `limit`. -/
def acceptedLen (c : CommonState) (len : Nat) : Limit → Nat
  | .yes => c.sendableTls.applyLimit len
  | .no => len

/-- `send_appdata_encrypt`. -/
def sendAppdataEncrypt (c : CommonState) (payload : Bytes) (limit : Limit) :
    Option (Nat × CommonState) := do
  let len := c.acceptedLen payload.length limit
  let c ← (c.fragmentSlice .applicationData .TLSv1_2 (payload.take len)).foldlM
    (sendSingleFragment STACK_DEPTH) c
  return (len, c)

/-- `send_plain`. -/
def sendPlain (c : CommonState) (data : Bytes) (limit : Limit) : Option (Nat × CommonState) :=
  if !c.maySendApplicationData then
    -- not yet: the plaintext is buffered
    match limit with
    | .yes =>
      let (len, buf) := c.sendablePlaintext.appendLimitedCopy data
      some (len, { c with sendablePlaintext := buf })
    | .no => some (data.length, { c with sendablePlaintext := c.sendablePlaintext.append data })
  else if data.isEmpty then
    some (0, c)
  else
    c.sendAppdataEncrypt data limit

/-- `perhaps_write_key_update`. -/
def perhapsWriteKeyUpdate (c : CommonState) : CommonState :=
  match c.queuedKeyUpdateMessage with
  | some message =>
    { c with queuedKeyUpdateMessage := none, sendableTls := c.sendableTls.append message }
  | none => c

/-- `send_some_plaintext`. -/
def sendSomePlaintext (c : CommonState) (data : Bytes) : Option (Nat × CommonState) :=
  c.perhapsWriteKeyUpdate.sendPlain data .yes

/-- `check_aligned_handshake`. -/
def checkAlignedHandshake (c : CommonState) : Option (Except Error Unit × CommonState) :=
  if !c.alignedHandshake then do
    let c ← c.sendFatalAlert .unexpectedMessage
    return (.error (.peerMisbehaved .keyEpochWithPendingFragment), c)
  else
    some (.ok (), c)

/-- `should_update_key`. -/
def shouldUpdateKey (c : CommonState) :
    KeyUpdateRequest → Option (Except Error Bool × CommonState)
  | .updateNotRequested => some (.ok false, c)
  | .updateRequested => some (.ok c.queuedKeyUpdateMessage.isNone, c)
  | .unknown _ => do
    let c ← c.sendFatalAlert .illegalParameter
    return (.error (.invalidMessage .invalidKeyUpdate), c)

/-- `enqueue_key_update_notification`: the message is encrypted now and parked. -/
def enqueueKeyUpdateNotification (c : CommonState) : Option CommonState := do
  let (em, rl) ← c.recordLayer.encryptOutgoing buildKeyUpdateNotify
  return { c with recordLayer := rl, queuedKeyUpdateMessage := some em.encode }

end CommonState

/-! ### Key updates -/

/-- `KeyScheduleTraffic::update_encrypter_and_notify`. -/
def updateEncrypterAndNotify (c : CommonState) (ks : KeyScheduleTraffic suite) :
    Option (CommonState × KeyScheduleTraffic suite) := do
  let (secret, ks) := ks.nextApplicationTrafficSecret c.side
  let c ← c.enqueueKeyUpdateNotification
  let rl := c.recordLayer.setMessageEncrypter (deriveEncrypter suite secret)
  return ({ c with recordLayer := rl }, ks)

/-- `KeyScheduleTraffic::update_decrypter`. -/
def updateDecrypter (c : CommonState) (ks : KeyScheduleTraffic suite) :
    CommonState × KeyScheduleTraffic suite :=
  let (secret, ks) := ks.nextApplicationTrafficSecret c.side.peer
  ({ c with recordLayer := c.recordLayer.setMessageDecrypter (deriveDecrypter suite secret) }, ks)

/-- `ExpectTraffic::handle_key_update`, the same for client and server.  The key
    schedule is dropped with the state where it fails. -/
def handleKeyUpdate (c : CommonState) (ks : KeyScheduleTraffic suite)
    (keyUpdateRequest : KeyUpdateRequest) :
    Option (Except Error (KeyScheduleTraffic suite) × CommonState) := do
  match ← c.checkAlignedHandshake with
  | (.error err, c) => return (.error err, c)
  | (.ok (), c) =>
    match ← c.shouldUpdateKey keyUpdateRequest with
    | (.error err, c) => return (.error err, c)
    | (.ok update, c) =>
      let (c, ks) ← if update then updateEncrypterAndNotify c ks else some (c, ks)
      let (c, ks) := updateDecrypter c ks
      return (.ok ks, c)

/-! ### A connection in the traffic state -/

/-- A connection: its state is the key schedule, or the error it has failed with.
    `accepted` and `written` record what the caller handed in and what the sink took. -/
structure Connection (suite : Tls13CipherSuite) where
  common : CommonState
  state : Except Error (KeyScheduleTraffic suite)
  accepted : Bytes
  written : Bytes

/-- The operations on a connection in the traffic state. -/
inductive Op
  | sendSomePlaintext (data : Bytes)
  | sendCloseNotify
  | sendWarningAlert (desc : AlertDescription)
  | sendFatalAlert (desc : AlertDescription)
  /-- A KeyUpdate message from the peer, aligned to the end of its record or not. -/
  | keyUpdate (aligned : Bool) (request : KeyUpdateRequest)
  /-- `write_tls` to a sink that takes at most `accepts` bytes. -/
  | writeTls (accepts : Nat)
deriving DecidableEq, Repr

namespace Connection

/-- `process_new_packets` for a KeyUpdate message: a failed connection does nothing. -/
def receiveKeyUpdate (conn : Connection suite) (aligned : Bool) (request : KeyUpdateRequest) :
    Option (Connection suite) :=
  match conn.state with
  | .error _ => some conn
  | .ok ks => do
    let (state, common) ←
      handleKeyUpdate { conn.common with alignedHandshake := aligned } ks request
    return { conn with common := common, state := state }

/-- One operation. -/
def step (conn : Connection suite) : Op → Option (Connection suite)
  | .sendSomePlaintext data => do
    let (len, common) ← conn.common.sendSomePlaintext data
    return { conn with common := common, accepted := conn.accepted ++ data.take len }
  | .sendCloseNotify => do return { conn with common := ← conn.common.sendCloseNotify }
  | .sendWarningAlert desc => do return { conn with common := ← conn.common.sendWarningAlert desc }
  | .sendFatalAlert desc => do return { conn with common := ← conn.common.sendFatalAlert desc }
  | .keyUpdate aligned request => conn.receiveKeyUpdate aligned request
  | .writeTls accepts =>
    let (written, sendableTls) := conn.common.sendableTls.writeTo accepts
    some { conn with
      common := { conn.common with sendableTls := sendableTls }
      written := conn.written ++ written }

/-- A run of operations. -/
def run (conn : Connection suite) (ops : List Op) : Option (Connection suite) :=
  ops.foldlM step conn

end Connection

end TeaclaveCrates.Rustls
