import TeaclaveCrates.Rustls.CommonState
import TeaclaveCrates.Rustls.Deframer
import TeaclaveCrates.Rustls.Handshake

namespace TeaclaveCrates.Rustls

open TeaclaveCrates.Lib

/-!
# rustls — processing new packets

The receiving half of a connection: `conn.rs` with `process_alert` and `process_main_protocol` of
`common_state.rs`.  The states of the handshake are a parameter, with the function `handle` that
takes one message.

* `ConnectionCore.deframe` / `processMsg` / `processNewPackets` — the source functions;
* `ConnectionCore.Sticky` — an error that was returned is returned from then on;
* `DeframeFails` — the error comes from the deframer;
* `ConnectionCore.sticky_iff` — where errors are sticky.
-/

/-! ### Messages -/

/-- `AlertMessagePayload`. -/
structure AlertMessagePayload where
  level : AlertLevel
  description : AlertDescription
deriving DecidableEq, Repr

/-- `AlertMessagePayload::read`. -/
def AlertMessagePayload.read : Read AlertMessagePayload := do
  let level ← Codec.read
  let description ← Codec.read
  expectNoneLeft "AlertMessagePayload"
  return ⟨level, description⟩

/-- `ChangeCipherSpecPayload::read`. -/
def readChangeCipherSpec : Read Unit := do
  let typ ← (Codec.read : Read UInt8)
  if typ ≠ 1 then
    throw .invalidCcs
  else
    expectNoneLeft "ChangeCipherSpecPayload"

section

variable [Webpki]

/-- `MessagePayload`. -/
inductive MessagePayload
  | alert (payload : AlertMessagePayload)
  | handshake (parsed : HandshakeMessagePayload) (encoded : Payload)
  | changeCipherSpec
  | applicationData (payload : Payload)

/-- `MessagePayload::new`. -/
def MessagePayload.new (typ : ContentType) (vers : ProtocolVersion) (payload : Payload) :
    Except InvalidMessage MessagePayload :=
  match typ with
  | .applicationData => .ok (.applicationData payload)
  | .alert => (AlertMessagePayload.read payload.bytes).map fun x => .alert x.1
  | .handshake => (readVersion vers payload.bytes).map fun x => .handshake x.1 payload
  | .changeCipherSpec => (readChangeCipherSpec payload.bytes).map fun _ => .changeCipherSpec
  | _ => .error .invalidContentType

/-- `Message`. -/
structure Message where
  version : ProtocolVersion
  payload : MessagePayload

/-- `Message::try_from`. -/
def Message.tryFrom (plain : PlainMessage) : Except InvalidMessage Message :=
  (MessagePayload.new plain.typ plain.version plain.payload).map fun payload =>
    ⟨plain.version, payload⟩

/-- `is_handshake_type`. -/
def Message.isHandshakeType (m : Message) (hstyp : HandshakeType) : Bool :=
  match m.payload with
  | .handshake parsed _ => parsed.typ = hstyp
  | _ => false

end

/-- `is_valid_ccs`. -/
def isValidCcs (msg : PlainMessage) : Bool := msg.payload.bytes = [1]

/-! ### The common state -/

/-- `CommonState`, as far as receiving uses it. -/
structure ReceiveState extends CommonState where
  negotiatedVersion : Option ProtocolVersion
  mayReceiveApplicationData : Bool
  receivedMiddleboxCcs : Nat
  hasReceivedCloseNotify : Bool
  receivedPlaintext : ChunkVecBuffer
  /-- `quic.alert`, where the protocol is QUIC. -/
  quic : Option (Option AlertDescription)

/-- `IoState`. -/
structure IoState where
  tlsBytesToWrite : Nat
  plaintextBytesToRead : Nat
  peerHasClosed : Bool
deriving DecidableEq, Repr

def TLS13_MAX_DROPPED_CCS : Nat := 2

namespace ReceiveState

/-- `is_tls13`. -/
def isTls13 (c : ReceiveState) : Bool := c.negotiatedVersion = some .TLSv1_3

/-- `is_quic`. -/
def isQuic (c : ReceiveState) : Bool := c.quic.isSome

/-- `current_io_state`. -/
def currentIoState (c : ReceiveState) : IoState :=
  ⟨c.sendableTls.len, c.receivedPlaintext.len, c.hasReceivedCloseNotify⟩

/-- `send_msg` for an alert: QUIC only notes it. -/
def sendAlert (c : ReceiveState) (level : AlertLevel) (desc : AlertDescription) :
    Option ReceiveState :=
  if c.isQuic then
    some { c with quic := some (some desc) }
  else do
    let common ← c.toCommonState.sendMsg (buildAlert level desc) c.recordLayer.isEncrypting
    return { c with toCommonState := common }

/-- `send_fatal_alert`, which hands back the error it is given. -/
def fatalAlert (c : ReceiveState) (desc : AlertDescription) (err : Error) :
    Option (Error × ReceiveState) := do
  let c ← c.sendAlert .fatal desc
  return (err, { c with sentFatalAlert := true })

/-- `process_alert`. -/
def processAlert (c : ReceiveState) (alert : AlertMessagePayload) :
    Option (Except Error Unit × ReceiveState) :=
  match alert.level with
  | .unknown _ => do
    let (err, c) ← c.fatalAlert .illegalParameter (.alertReceived alert.description)
    return (.error err, c)
  | level =>
    if alert.description = .closeNotify then
      some (.ok (), { c with hasReceivedCloseNotify := true })
    else
      let err := Error.alertReceived alert.description
      if level = .warning then
        -- warnings are outlawed in TLS1.3, except one
        if c.isTls13 ∧ alert.description ≠ .userCanceled then do
          let (err, c) ← c.fatalAlert .decodeError err
          return (.error err, c)
        else
          some (.ok (), c)
      else
        some (.error err, c)

end ReceiveState

/-! ### The connection -/

/-- `ConnectionCore`, with the states `S` of the handshake and the data `D` of the side. -/
structure ConnectionCore (S D : Type) where
  state : Except Error S
  data : D
  common : ReceiveState
  messageDeframer : MessageDeframer

variable {S D : Type}

namespace ConnectionCore

/-- `deframe`. -/
def deframe (core : ConnectionCore S D) :
    Option (Except Error (Option PlainMessage) × ConnectionCore S D) := do
  let (result, d, rl) ← core.messageDeframer.pop core.common.recordLayer
  let core := { core with messageDeframer := d, common := { core.common with recordLayer := rl } }
  match result with
  | .ok (some deframed) =>
    let c ← if deframed.wantCloseBeforeDecrypt then core.common.sendAlert .warning .closeNotify
      else some core.common
    let rl :=
      if deframed.trialDecryptionFinished then { c.recordLayer with trialDecryptionLen := none }
      else c.recordLayer
    let c := { c with recordLayer := rl, alignedHandshake := deframed.aligned }
    return (.ok (some deframed.message), { core with common := c })
  | .ok none => return (.ok none, core)
  | .error (.invalidMessage err) =>
    if core.common.isQuic then
      return (.error (.invalidMessage err),
        { core with common := { core.common with quic := some (some .decodeError) } })
    else
      let (err, c) ← core.common.fatalAlert .decodeError (.invalidMessage err)
      return (.error err, { core with common := c })
  | .error .peerSentOversizedRecord =>
    let (err, c) ← core.common.fatalAlert .recordOverflow .peerSentOversizedRecord
    return (.error err, { core with common := c })
  | .error .decryptError =>
    let (err, c) ← core.common.fatalAlert .badRecordMac .decryptError
    return (.error err, { core with common := c })
  | .error err => return (.error err, core)

/-- The request for renegotiation that a side rejects. -/
def rejectTy : Side → HandshakeType
  | .client => .helloRequest
  | .server => .clientHello

section

variable [Webpki]
  (handle : S → ReceiveState → D → Message → Option (Except Error S × ReceiveState × D))

/-- `process_main_protocol`. -/
def processMainProtocol (core : ConnectionCore S D) (msg : Message) (state : S) :
    Option (Except Error S × ConnectionCore S D) :=
  if core.common.mayReceiveApplicationData ∧ !core.common.isTls13 ∧
      msg.isHandshakeType (rejectTy core.common.side) then do
    let c ← core.common.sendAlert .warning .noRenegotiation
    return (.ok state, { core with common := c })
  else do
    let (result, c, data) ← handle state core.common core.data msg
    let core := { core with common := c, data := data }
    match result with
    | .ok next => return (.ok next, core)
    | .error err@(.inappropriateMessage ..) | .error err@(.inappropriateHandshakeMessage ..) =>
      let (err, c) ← core.common.fatalAlert .unexpectedMessage err
      return (.error err, { core with common := c })
    | .error err => return (.error err, core)

/-- `process_msg`. -/
def processMsg (core : ConnectionCore S D) (msg : PlainMessage) (state : S) :
    Option (Except Error S × ConnectionCore S D) :=
  if msg.typ = .changeCipherSpec ∧ !core.common.mayReceiveApplicationData ∧ core.common.isTls13 then
    if !isValidCcs msg ∨ core.common.receivedMiddleboxCcs > TLS13_MAX_DROPPED_CCS then do
      let (err, c) ← core.common.fatalAlert .unexpectedMessage
        (.peerMisbehaved .illegalMiddleboxChangeCipherSpec)
      return (.error err, { core with common := c })
    else
      let ccs := core.common.receivedMiddleboxCcs + 1
      some (.ok state, { core with common := { core.common with receivedMiddleboxCcs := ccs } })
  else
    match Message.tryFrom msg with
    | .error err => do
      let (err, c) ← core.common.fatalAlert .decodeError (.invalidMessage err)
      return (.error err, { core with common := c })
    | .ok msg =>
      match msg.payload with
      | .alert alert => do
        let (result, c) ← core.common.processAlert alert
        return (result.map fun _ => state, { core with common := c })
      | _ => processMainProtocol handle core msg state

/-- The loop of `process_new_packets`, for at most `fuel` messages. -/
def processLoop : Nat → ConnectionCore S D → S → Option (Except Error IoState × ConnectionCore S D)
  | 0, _, _ => none
  | fuel + 1, core, state => do
    let (result, core) ← core.deframe
    match result with
    -- the `?` returns without a new state
    | .error err => return (.error err, core)
    | .ok none => return (.ok core.common.currentIoState, { core with state := .ok state })
    | .ok (some msg) =>
      let (result, core) ← processMsg handle core msg state
      match result with
      | .ok new => processLoop fuel core new
      | .error err => return (.error err, { core with state := .error err })

/-- `process_new_packets`: the state is taken out, and put back at the end. -/
def processNewPackets (fuel : Nat) (core : ConnectionCore S D) :
    Option (Except Error IoState × ConnectionCore S D) :=
  match core.state with
  | .error err => some (.error err, core)
  | .ok state => processLoop handle fuel { core with state := .error .handshakeNotComplete } state

end

/-! ### The state is left alone -/

theorem deframe_state {core core' : ConnectionCore S D}
    {result : Except Error (Option PlainMessage)} (h : core.deframe = some (result, core')) :
    core'.state = core.state := by
  unfold deframe at h
  obtain ⟨⟨result, d, rl⟩, -, h⟩ := Option.bind_eq_some_iff.mp h
  dsimp only at h
  split at h
  · split at h
    · obtain ⟨c, -, h⟩ := Option.bind_eq_some_iff.mp h
      cases h
      rfl
    · cases h
      rfl
  · cases h
    rfl
  · split at h
    · cases h
      rfl
    · obtain ⟨x, -, h⟩ := Option.bind_eq_some_iff.mp h
      cases h
      rfl
  · obtain ⟨x, -, h⟩ := Option.bind_eq_some_iff.mp h
    cases h
    rfl
  · obtain ⟨x, -, h⟩ := Option.bind_eq_some_iff.mp h
    cases h
    rfl
  · cases h
    rfl

section

variable [Webpki]
  {handle : S → ReceiveState → D → Message → Option (Except Error S × ReceiveState × D)}

variable {core' core : ConnectionCore S D}

variable {state : S}

theorem processMainProtocol_state {msg : Message} {result : Except Error S}
    (h : processMainProtocol handle core msg state = some (result, core')) :
    core'.state = core.state := by
  unfold processMainProtocol at h
  split at h
  · obtain ⟨c, -, h⟩ := Option.bind_eq_some_iff.mp h
    cases h
    rfl
  · obtain ⟨⟨result, c, data⟩, -, h⟩ := Option.bind_eq_some_iff.mp h
    dsimp only at h
    split at h
    · cases h
      rfl
    · obtain ⟨x, -, h⟩ := Option.bind_eq_some_iff.mp h
      cases h
      rfl
    · obtain ⟨x, -, h⟩ := Option.bind_eq_some_iff.mp h
      cases h
      rfl
    · cases h
      rfl

theorem processMsg_state {msg : PlainMessage} {result : Except Error S}
    (h : processMsg handle core msg state = some (result, core')) :
    core'.state = core.state := by
  unfold processMsg at h
  split at h
  · split at h
    · obtain ⟨x, -, h⟩ := Option.bind_eq_some_iff.mp h
      cases h
      rfl
    · cases h
      rfl
  · split at h
    · obtain ⟨x, -, h⟩ := Option.bind_eq_some_iff.mp h
      cases h
      rfl
    · split at h
      · obtain ⟨x, -, h⟩ := Option.bind_eq_some_iff.mp h
        cases h
        rfl
      · exact processMainProtocol_state h

/-! ### Where the errors come from -/

variable (handle) in
/-- The messages at hand end with an error of the deframer. -/
inductive DeframeFails : ConnectionCore S D → S → Error → Prop
  | now {core core' : ConnectionCore S D} {state : S} {err : Error}
      (hdeframe : core.deframe = some (.error err, core')) : DeframeFails core state err
  | later {core core₁ core₂ : ConnectionCore S D} {state new : S} {msg : PlainMessage} {err : Error}
      (hdeframe : core.deframe = some (.ok (some msg), core₁))
      (hmsg : processMsg handle core₁ msg state = some (.ok new, core₂))
      (hrest : DeframeFails core₂ new err) : DeframeFails core state err

variable {err : Error}

/-- An error of the loop is put into the state, unless it comes from the deframer. -/
theorem processLoop_error (fuel : Nat)
    (h : processLoop handle fuel core state = some (.error err, core')) :
    core'.state = .error err ∨ (DeframeFails handle core state err ∧ core'.state = core.state) := by
  induction fuel generalizing core state with
  | zero => cases h
  | succ fuel ih =>
    obtain ⟨⟨result, core₁⟩, hdeframe, h⟩ := Option.bind_eq_some_iff.mp h
    dsimp only at h
    split at h
    · cases h
      exact .inr ⟨.now hdeframe, deframe_state hdeframe⟩
    · cases h
    · obtain ⟨⟨result, core₂⟩, hmsg, h⟩ := Option.bind_eq_some_iff.mp h
      dsimp only at h
      split at h
      · refine (ih h).imp_right fun ⟨hfails, hstate⟩ => ⟨.later hdeframe hmsg hfails, ?_⟩
        rw [hstate, processMsg_state hmsg, deframe_state hdeframe]
      · cases h
        exact .inl rfl

/-- An error of the deframer leaves the state as it was taken out. -/
theorem DeframeFails.processLoop (h : DeframeFails handle core state err) :
    ∃ fuel core', ConnectionCore.processLoop handle fuel core state = some (.error err, core') ∧
      core'.state = core.state := by
  induction h with
  | @now core core' state err hdeframe =>
    exact ⟨1, core', by simp [ConnectionCore.processLoop, hdeframe], deframe_state hdeframe⟩
  | later hdeframe hmsg _ ih =>
    obtain ⟨fuel, core', hloop, hstate⟩ := ih
    refine ⟨fuel + 1, core', by simp [ConnectionCore.processLoop, hdeframe, hmsg, hloop], ?_⟩
    rw [hstate, processMsg_state hmsg, deframe_state hdeframe]

/-! ### Sticky errors -/

/-- The operations on a connection: packets are processed, or something else happens, such as a
    read, a write or an alert. -/
inductive Op (D : Type)
  | processNewPackets (fuel : Nat)
  | other (f : D → ReceiveState → MessageDeframer → D × ReceiveState × MessageDeframer)

variable (handle) in
/-- One operation: only `process_new_packets` touches the state. -/
def step (core : ConnectionCore S D) : Op D → Option (ConnectionCore S D)
  | .processNewPackets fuel => (processNewPackets handle fuel core).map Prod.snd
  | .other f =>
    let (data, common, messageDeframer) := f core.data core.common core.messageDeframer
    some { core with data := data, common := common, messageDeframer := messageDeframer }

variable (handle) in
def run (core : ConnectionCore S D) (ops : List (Op D)) : Option (ConnectionCore S D) :=
  ops.foldlM (step handle) core

variable (handle) in
/-- Once an error is returned, whatever happens then, packets are not processed any more: the same
    error is returned, and nothing changes. -/
def Sticky (core : ConnectionCore S D) : Prop :=
  ∀ fuel err core₁, processNewPackets handle fuel core = some (.error err, core₁) →
    ∀ ops core₂, run handle core₁ ops = some core₂ →
      ∀ fuel, processNewPackets handle fuel core₂ = some (.error err, core₂)

/-- With an error in the state nothing is processed. -/
theorem processNewPackets_failed (h : core.state = .error err) (fuel : Nat) :
    processNewPackets handle fuel core = some (.error err, core) := by
  rw [processNewPackets, h]

theorem run_failed {ops : List (Op D)} (h : core.state = .error err)
    (hrun : run handle core ops = some core') :
    core'.state = .error err := by
  induction ops generalizing core with
  | nil =>
    cases hrun
    exact h
  | cons op ops ih =>
    obtain ⟨core₁, hstep, hrest⟩ := Option.bind_eq_some_iff.mp hrun
    refine ih ?_ hrest
    cases op with
    | processNewPackets fuel =>
      rw [step, processNewPackets_failed h] at hstep
      cases hstep
      exact h
    | other f =>
      cases hstep
      exact h

/-- The connection while packets are processed: its state is taken out. -/
def takeState (core : ConnectionCore S D) : ConnectionCore S D :=
  { core with state := .error .handshakeNotComplete }

/-- **Sticky errors.** An error of a connection is returned from then on, if and only if the
    messages at hand do not end with an error of the deframer (other than the one the state is
    replaced by). -/
theorem sticky_iff (core : ConnectionCore S D) :
    Sticky handle core ↔
      ∀ state err, core.state = .ok state → DeframeFails handle core.takeState state err →
        err = .handshakeNotComplete := by
  constructor
  · intro h state err hstate hfails
    obtain ⟨fuel, core₁, hloop, hstate₁⟩ := hfails.processLoop
    have hprocess : processNewPackets handle fuel core = some (.error err, core₁) := by
      rw [processNewPackets, hstate]
      exact hloop
    have hagain := h fuel err core₁ hprocess [] core₁ rfl 0
    rw [processNewPackets_failed hstate₁] at hagain
    cases hagain
    rfl
  · intro h fuel err core₁ hprocess ops core₂ hrun fuel'
    have hstate₁ : core₁.state = .error err := by
      cases hstate : core.state with
      | error err' =>
        rw [processNewPackets_failed hstate] at hprocess
        cases hprocess
        exact hstate
      | ok state =>
        rw [processNewPackets, hstate] at hprocess
        rcases processLoop_error fuel hprocess with hput | ⟨hfails, hleft⟩
        · exact hput
        · rw [h state err hstate hfails]
          exact hleft
    exact processNewPackets_failed (run_failed hstate₁ hrun) fuel'

end

/-- A client that expects no message, and has read a record of an unknown type. -/
def unknownRecord : ConnectionCore Unit Unit where
  state := .ok ()
  data := ()
  common :=
    { side := .client, recordLayer := .new, alignedHandshake := true
      maySendApplicationData := false, sentFatalAlert := false, maxFrag := 16384
      sendablePlaintext := ⟨[], none⟩, sendableTls := ⟨[], none⟩, queuedKeyUpdateMessage := none
      negotiatedVersion := none, mayReceiveApplicationData := false, receivedMiddleboxCcs := 0
      hasReceivedCloseNotify := false, receivedPlaintext := ⟨[], none⟩, quic := none }
  messageDeframer := ⟨none, [0xff, 3, 3, 0, 1, 0], none, 6⟩

theorem deframe_error_forgotten :
    let _ : Webpki := ⟨Unit, fun _ => none⟩
    let handle (_ : Unit) (c : ReceiveState) (_ : Unit) (_ : Message) :
        Option (Except Error Unit × ReceiveState × Unit) := some (.ok (), c, ())
    (∃ core₁, processNewPackets handle 1 unknownRecord =
        some (.error (.invalidMessage .invalidContentType), core₁) ∧
      processNewPackets handle 1 core₁ = some (.error .handshakeNotComplete, core₁)) ∧
    ¬Sticky handle unknownRecord := by
  intro _ handle
  have hfirst : ∃ core₁, processNewPackets handle 1 unknownRecord =
      some (.error (.invalidMessage .invalidContentType), core₁) ∧
        core₁.state = .error .handshakeNotComplete := ⟨_, rfl, rfl⟩
  obtain ⟨core₁, hprocess, hstate⟩ := hfirst
  have hagain := @processNewPackets_failed _ _ _ handle core₁ _ hstate
  refine ⟨⟨core₁, hprocess, hagain 1⟩, fun h => ?_⟩
  have hsame := h 1 _ core₁ hprocess [] core₁ rfl 1
  rw [hagain] at hsame
  cases hsame

end ConnectionCore

end TeaclaveCrates.Rustls
