import TeaclaveCrates.Rustls.Enums

namespace TeaclaveCrates.Rustls

open TeaclaveCrates.Lib
open ByteParser (bind_ok mapErr mapErr_ok pure_ok take_ok throw_ok)

/-!
# rustls — records

The TLS record on the wire (`msgs/message.rs`) and the errors of the connection.

* `OpaqueMessage.read` / `OpaqueMessage.encode` — header, length and payload, with
  the checks in the order of the source;
* `OpaqueMessage.consumes_read` — reading is exact;
* `OpaqueMessage.incremental_read` — a record that is cut short is reported as too
  short and nothing else.
-/

/-- The misbehaviours of the peer that the modelled code reports. -/
inductive PeerMisbehaved
  | messageInterleavedWithHandshakeMessage
  | rejectedEarlyDataInterleavedWithHandshakeMessage
  | keyUpdateReceivedInQuicConnection
  | keyEpochWithPendingFragment
  | illegalTlsInnerPlaintext
  | illegalMiddleboxChangeCipherSpec
deriving DecidableEq, Repr

/-- `enum Error`, as far as the modelled code raises it. -/
inductive Error
  | invalidMessage (err : InvalidMessage)
  | peerMisbehaved (err : PeerMisbehaved)
  | decryptError
  | encryptError
  | peerSentOversizedRecord
  | handshakeNotComplete
  | alertReceived (desc : AlertDescription)
  | inappropriateMessage (expectTypes : List ContentType) (gotType : ContentType)
  | inappropriateHandshakeMessage (expectTypes : List HandshakeType) (gotType : HandshakeType)
  | general (text : String)
deriving DecidableEq, Repr

/-- `enum MessageError`. -/
inductive MessageError
  | tooShortForHeader
  | tooShortForLength
  | invalidEmptyPayload
  | messageTooLarge
  | invalidContentType
  | unknownProtocolVersion
deriving DecidableEq, Repr

/-- The errors that more input may resolve. -/
def MessageError.IsShort (e : MessageError) : Prop :=
  e = .tooShortForHeader ∨ e = .tooShortForLength

/-- `PlainMessage`; a `BorrowedPlainMessage` is the same by value. -/
structure PlainMessage where
  typ : ContentType
  version : ProtocolVersion
  payload : Payload
deriving DecidableEq, Repr

/-- `OpaqueMessage`. -/
structure OpaqueMessage where
  typ : ContentType
  version : ProtocolVersion
  payload : Payload
deriving DecidableEq, Repr

/-- `ContentType::Unknown(_)`. -/
def ContentType.isUnknown : ContentType → Bool
  | .unknown _ => true
  | _ => false

/-- Unknown versions other than 0x03XX. -/
def ProtocolVersion.isForeign : ProtocolVersion → Bool
  | .unknown v => (v &&& 0xff00) != 0x0300
  | _ => false

namespace OpaqueMessage

/-- `MAX_PAYLOAD`: 2^14 bytes and an allowance for ciphertext overheads. -/
def MAX_PAYLOAD : UInt16 := 16384 + 2048

/-- Content type, version and size. -/
def HEADER_SIZE : Nat := 1 + 2 + 2

/-- `MAX_WIRE_SIZE`. -/
def MAX_WIRE_SIZE : Nat := MAX_PAYLOAD.toNat + HEADER_SIZE

/-- `OpaqueMessage::read`. -/
def read : ByteParser MessageError OpaqueMessage := do
  let typ ← mapErr .tooShortForHeader (Codec.read : Read ContentType)
  if typ.isUnknown then
    throw .invalidContentType
  else do
    let version ← mapErr .tooShortForHeader (Codec.read : Read ProtocolVersion)
    if version.isForeign then
      throw .unknownProtocolVersion
    else do
      let len ← mapErr .tooShortForHeader (Codec.read : Read UInt16)
      if typ ≠ .applicationData ∧ len = 0 then
        throw .invalidEmptyPayload
      else if len ≥ MAX_PAYLOAD then
        throw .messageTooLarge
      else do
        let payload ← mapErr .tooShortForLength (sub len.toNat)
        return ⟨typ, version, ⟨payload⟩⟩

/-- `OpaqueMessage::encode`. -/
def encode (m : OpaqueMessage) : Bytes :=
  Codec.encode m.typ ++ Codec.encode m.version ++ encodeSized 2 m.payload.bytes

/-- `OpaqueMessage::into_plain_message`. -/
def intoPlainMessage (m : OpaqueMessage) : PlainMessage := ⟨m.typ, m.version, m.payload⟩

theorem length_encode (m : OpaqueMessage) :
    m.encode.length = HEADER_SIZE + m.payload.bytes.length := by
  simp only [encode, encodeSized, List.length_append, length_toBE, length_encode_enumU8,
    length_encode_enumU16, HEADER_SIZE]
  omega

/-- What a record that was read satisfies. -/
structure Accepted (m : OpaqueMessage) : Prop where
  size : m.payload.bytes.length < MAX_PAYLOAD.toNat
  nonempty : m.typ ≠ .applicationData → m.payload.bytes ≠ []

/-- Reading a record consumes exactly its encoding, and the record passed the
    checks on its length. -/
theorem read_ok {r r' : Bytes} {m : OpaqueMessage} (h : read r = .ok (m, r')) :
    r = m.encode ++ r' ∧ m.Accepted := by
  obtain ⟨typ, r₁, htyp, hok₁⟩ := bind_ok.mp h
  split at hok₁
  · exact absurd hok₁ throw_ok
  obtain ⟨version, r₂, hversion, hok₂⟩ := bind_ok.mp hok₁
  split at hok₂
  · exact absurd hok₂ throw_ok
  obtain ⟨len, r₃, hlen, hok₃⟩ := bind_ok.mp hok₂
  split at hok₃
  · exact absurd hok₃ throw_ok
  next hempty =>
  split at hok₃
  · exact absurd hok₃ throw_ok
  next hlarge =>
  obtain ⟨payload, r₄, hpayload, hok₄⟩ := bind_ok.mp hok₃
  obtain ⟨rfl, rfl⟩ := pure_ok.mp hok₄
  have e₁ := LawfulCodec.exact _ r typ r₁ le_rfl (mapErr_ok.mp htyp)
  have e₂ := LawfulCodec.exact _ r₁ version r₂ le_rfl (mapErr_ok.mp hversion)
  have e₃ := LawfulCodec.exact _ r₂ len r₃ le_rfl (mapErr_ok.mp hlen)
  obtain ⟨rfl, hpl⟩ := take_ok.mp (mapErr_ok.mp hpayload)
  rw [List.nil_append] at e₁ e₂ e₃
  refine ⟨?_, ?_, ?_⟩
  · rw [e₁, e₂, e₃, encode, encodeSized, hpl]
    rfl
  · rw [hpl]
    exact UInt16.lt_iff_toNat_lt.mp (UInt16.not_le.mp hlarge)
  · intro htyp hnil
    refine hempty ⟨htyp, UInt16.toNat_inj.mp ?_⟩
    rw [← hpl]
    simpa using hnil

theorem consumes_read (n : Nat) : Consumes n [] read encode := by
  intro r m r' _ h
  exact (read_ok h).1

end OpaqueMessage

/-- Reading an integer or an enumeration goes on with more input. -/
theorem incremental_uint16 : Incremental (fun _ => True) (Codec.read : Read UInt16) :=
  .bind (.take trivial 2) fun _ => .pure _

theorem incremental_uint8 : Incremental (fun _ => True) (Codec.read : Read UInt8) :=
  .bind (.take trivial 1) fun _ => .pure _

theorem incremental_sub (n : Nat) : Incremental (fun _ => True) (sub n) := .take trivial n

theorem incremental_enum {α β : Type} [Codec β] {name : String} {ofCode : β → α}
    (h : Incremental (fun _ => True) (Codec.read : Read β)) :
    Incremental (fun _ => True) (readEnum name ofCode) where
  ok r x a r' hok := by
    unfold readEnum at hok ⊢
    split at hok
    · next b r'' hb =>
      cases hok
      rw [h.ok r x b _ hb]
    · cases hok
  error _ _ _ _ := .inl trivial

theorem OpaqueMessage.incremental_read : Incremental MessageError.IsShort OpaqueMessage.read := by
  refine .bind (.mapErr (.inl rfl) (incremental_enum incremental_uint8)) fun typ => ?_
  refine .ite (.throw _) (.bind (.mapErr (.inl rfl) (incremental_enum incremental_uint16)) ?_)
  refine fun version => .ite (.throw _) (.bind (.mapErr (.inl rfl) incremental_uint16) ?_)
  refine fun len => .ite (.throw _) (.ite (.throw _) ?_)
  exact .bind (.mapErr (.inr rfl) (incremental_sub _)) fun _ => .pure _

/-- A record of a known type is read back from the wire. -/
theorem OpaqueMessage.read_encode {typ : ContentType} {payload : Bytes}
    (htyp : ∀ t,
      (Codec.read (Codec.encode typ ++ t) : Except InvalidMessage (ContentType × Bytes)) =
      .ok (typ, t))
    (hknown : typ.isUnknown = false) (hne : typ = .applicationData ∨ payload ≠ [])
    (h : payload.length < MAX_PAYLOAD.toNat) :
    read (encode ⟨typ, .TLSv1_2, ⟨payload⟩⟩) = .ok (⟨typ, .TLSv1_2, ⟨payload⟩⟩, []) := by
  have hmax : MAX_PAYLOAD.toNat = 18432 := rfl
  have hlen : (UInt16.ofNat payload.length).toNat = payload.length := by
    rw [UInt16.toNat_ofNat', Nat.mod_eq_of_lt (by omega)]
  have hread : (Codec.read (toBE 2 payload.length ++ payload) : Except InvalidMessage (UInt16 × Bytes))
      = .ok (UInt16.ofNat payload.length, payload) := by
    refine bind_ok.mpr ⟨toBE 2 payload.length, payload, ?_, ?_⟩
    · exact take_ok.mpr ⟨rfl, length_toBE _ _⟩
    · exact pure_ok.mpr ⟨by rw [ofBE_toBE (by omega)], rfl⟩
  have hsmall : ¬ UInt16.ofNat payload.length ≥ MAX_PAYLOAD := by
    rw [ge_iff_le, UInt16.le_iff_toNat_le, hlen]
    omega
  have hempty : ¬(typ ≠ .applicationData ∧ UInt16.ofNat payload.length = 0) := by
    rintro ⟨happ, hzero⟩
    have hnil := congrArg UInt16.toNat hzero
    rw [hlen] at hnil
    exact hne.elim happ fun hne => hne (List.eq_nil_of_length_eq_zero hnil)
  have hbytes : encode ⟨typ, .TLSv1_2, ⟨payload⟩⟩ =
      Codec.encode typ ++ 0x03 :: 0x03 :: (toBE 2 payload.length ++ payload) := by
    have hversion : Codec.encode ProtocolVersion.TLSv1_2 = [0x03, 0x03] := by decide
    simp [encode, encodeSized, hversion]
  have hversion : (Codec.read (0x03 :: 0x03 :: (toBE 2 payload.length ++ payload)) :
      Except InvalidMessage (ProtocolVersion × Bytes)) =
      .ok (.TLSv1_2, toBE 2 payload.length ++ payload) := by
    have hu16 : (Codec.read (0x03 :: 0x03 :: (toBE 2 payload.length ++ payload)) :
        Except InvalidMessage (UInt16 × Bytes)) = .ok (0x0303, toBE 2 payload.length ++ payload) := by
      refine bind_ok.mpr ⟨[0x03, 0x03], _, take_ok.mpr ⟨rfl, rfl⟩, ?_⟩
      exact pure_ok.mpr ⟨by decide, rfl⟩
    have hcode : (EnumU16.ofU16 0x0303 : ProtocolVersion) = .TLSv1_2 := by decide
    show readEnum _ _ _ = _
    simp [readEnum, hu16, hcode]
  rw [hbytes]
  refine bind_ok.mpr ⟨typ, _, mapErr_ok.mpr (htyp _), ?_⟩
  rw [hknown]
  refine bind_ok.mpr ⟨_, _, mapErr_ok.mpr hversion, ?_⟩
  refine bind_ok.mpr ⟨_, _, mapErr_ok.mpr hread, ?_⟩
  rw [if_neg hempty, if_neg hsmall]
  refine bind_ok.mpr ⟨payload, [], mapErr_ok.mpr ?_, rfl⟩
  exact take_ok.mpr ⟨(List.append_nil _).symm, hlen.symm⟩

end TeaclaveCrates.Rustls
