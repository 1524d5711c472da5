import TeaclaveCrates.Rustls.Enums

namespace TeaclaveCrates.Rustls

open TeaclaveCrates.Lib
open ByteParser (anyLeft bind_ok pure_ok rest takeExact)

/-!
# rustls — handshake fields and extensions

The parts of handshake messages (`msgs/handshake.rs`): fixed fields, names, key
shares, and the six families of extensions.  Every type comes with the proof that
reading it is exact.

* `Webpki` — the DNS name check of `webpki`, which is not part of the repository;
* `readExtension` / `encodeExtension` — the frame all extensions share: type,
  length, body, and the check that the body is used up;
* `consumes_extension` — an extension is read exactly if its body is.
-/

variable {α : Type}

/-- `webpki`'s DNS names: the check is a function of the bytes. -/
class Webpki where
  DnsName : Type
  tryFromAscii : Bytes → Option DnsName

/-- What makes a codec one of list elements: it is exact and never encodes to
    nothing. -/
theorem read_lt_of_exact [Codec α] [LawfulCodec α] (hpos : ∀ x : α, 0 < (Codec.encode x).length)
    {r r' : Bytes} {x : α} (h : Codec.read r = .ok (x, r')) : r'.length < r.length :=
  Consumes.length_lt LawfulCodec.exact hpos h

theorem length_encodeSized (w : Nat) (b : Bytes) : (encodeSized w b).length = w + b.length := by
  rw [encodeSized, List.length_append, length_toBE]

/-! ### Fixed fields -/

/-- `Random`: 32 bytes. -/
structure Random where
  data : Bytes
  length_eq : data.length = 32
deriving DecidableEq

/-- `HELLO_RETRY_REQUEST_RANDOM`. -/
def HELLO_RETRY_REQUEST_RANDOM : Random where
  data := [0xcf, 0x21, 0xad, 0x74, 0xe5, 0x9a, 0x61, 0x11, 0xbe, 0x1d, 0x8c, 0x02, 0x1e, 0x65, 0xb8,
    0x91, 0xc2, 0xa2, 0x11, 0x16, 0x7a, 0xbb, 0x8c, 0x5e, 0x07, 0x9e, 0x09, 0xe2, 0xc8, 0xa8, 0x33,
    0x9c]
  length_eq := rfl

/-- `ZERO_RANDOM`. -/
def ZERO_RANDOM : Random where
  data := List.replicate 32 0
  length_eq := rfl

instance : Codec Random where
  encode x := x.data
  read := do
    let b ← takeExact (.missingData "Random") 32
    return ⟨b.val, b.property⟩

instance : LawfulCodec Random where
  exact _ := .bind (.takeExact _ _) fun _ => .pure rfl

/-- `SessionId`: the first `len` of 32 bytes. -/
structure SessionId where
  len : Nat
  data : Bytes
  len_le : len ≤ 32
  length_eq : data.length = 32
deriving DecidableEq

instance : Codec SessionId where
  encode x := UInt8.ofNat x.len :: x.data.take x.len
  read := do
    let len ← (Codec.read : Read UInt8)
    if h : len.toNat > 32 then
      throw (.trailingData "SessionID")
    else do
      let b ← takeExact (.missingData "SessionID") len.toNat
      return ⟨len.toNat, b.val ++ List.replicate (32 - len.toNat) 0, by omega, by
        rw [List.length_append, List.length_replicate, b.property]; omega⟩

instance : LawfulCodec SessionId where
  exact n := by
    refine consumes_read fun len => ?_
    split
    · exact .throw _
    · refine .bind (.takeExact _ _) fun b => .pure ?_
      have htake : (b.val ++ List.replicate (32 - len.toNat) 0).take len.toNat = b.val :=
        List.take_left' b.property
      simp [Codec.encode, htake]

/-! ### Newtypes around payloads -/

/-- `wrapped_payload!(ProtocolName, PayloadU8)`. -/
structure ProtocolName where
  inner : PayloadU8
deriving DecidableEq, Repr

/-- `wrapped_payload!(PresharedKeyBinder, PayloadU8)`. -/
structure PresharedKeyBinder where
  inner : PayloadU8
deriving DecidableEq, Repr

/-- `wrapped_payload!(ResponderId, PayloadU16)`. -/
structure ResponderId where
  inner : PayloadU16
deriving DecidableEq, Repr

/-- `wrapped_payload!(Sct, PayloadU16)`. -/
structure Sct where
  inner : PayloadU16
deriving DecidableEq, Repr

/-- `wrapped_payload!(DistinguishedName, PayloadU16)`. -/
structure DistinguishedName where
  inner : PayloadU16
deriving DecidableEq, Repr

instance : Codec ProtocolName := ⟨fun x => Codec.encode x.inner, do return ⟨← Codec.read⟩⟩

instance : Codec PresharedKeyBinder := ⟨fun x => Codec.encode x.inner, do return ⟨← Codec.read⟩⟩

instance : Codec ResponderId := ⟨fun x => Codec.encode x.inner, do return ⟨← Codec.read⟩⟩

instance : Codec Sct := ⟨fun x => Codec.encode x.inner, do return ⟨← Codec.read⟩⟩

instance : Codec DistinguishedName := ⟨fun x => Codec.encode x.inner, do return ⟨← Codec.read⟩⟩

instance : LawfulCodec ProtocolName := ⟨fun _ => consumes_read fun _ => .pure rfl⟩

instance : LawfulCodec PresharedKeyBinder := ⟨fun _ => consumes_read fun _ => .pure rfl⟩

instance : LawfulCodec ResponderId := ⟨fun _ => consumes_read fun _ => .pure rfl⟩

instance : LawfulCodec Sct := ⟨fun _ => consumes_read fun _ => .pure rfl⟩

instance : LawfulCodec DistinguishedName := ⟨fun _ => consumes_read fun _ => .pure rfl⟩

private theorem payloadU8_pos (p : PayloadU8) : 0 < (Codec.encode p).length := by
  show 0 < (encodeSized 1 p.bytes).length
  rw [length_encodeSized]; omega

private theorem payloadU16_pos (p : PayloadU16) : 0 < (Codec.encode p).length := by
  show 0 < (encodeSized 2 p.bytes).length
  rw [length_encodeSized]; omega

instance : TlsListElement ProtocolName := ⟨.u16, read_lt_of_exact fun x => payloadU8_pos x.inner⟩

instance : TlsListElement PresharedKeyBinder :=
  ⟨.u16, read_lt_of_exact fun x => payloadU8_pos x.inner⟩

instance : TlsListElement ResponderId := ⟨.u16, read_lt_of_exact fun x => payloadU16_pos x.inner⟩

instance : TlsListElement Sct := ⟨.u16, read_lt_of_exact fun x => payloadU16_pos x.inner⟩

instance : TlsListElement DistinguishedName :=
  ⟨.u16, read_lt_of_exact fun x => payloadU16_pos x.inner⟩

instance : ShortListElement ProtocolName := ⟨.inr rfl⟩

instance : ShortListElement PresharedKeyBinder := ⟨.inr rfl⟩

instance : ShortListElement ResponderId := ⟨.inr rfl⟩

instance : ShortListElement Sct := ⟨.inr rfl⟩

instance : ShortListElement DistinguishedName := ⟨.inr rfl⟩

/-! ### Lists of enumerations -/

private theorem enumU8_pos [EnumU8 α] (a : α) : 0 < (Codec.encode a).length := by
  rw [length_encode_enumU8]; omega

private theorem enumU16_pos [EnumU16 α] (a : α) : 0 < (Codec.encode a).length := by
  rw [length_encode_enumU16]; omega

instance : TlsListElement ECPointFormat := ⟨.u8, read_lt_of_exact enumU8_pos⟩

instance : TlsListElement PSKKeyExchangeMode := ⟨.u8, read_lt_of_exact enumU8_pos⟩

instance : TlsListElement Compression := ⟨.u8, read_lt_of_exact enumU8_pos⟩

instance : TlsListElement ClientCertificateType := ⟨.u8, read_lt_of_exact enumU8_pos⟩

instance : TlsListElement ProtocolVersion := ⟨.u8, read_lt_of_exact enumU16_pos⟩

instance : TlsListElement NamedGroup := ⟨.u16, read_lt_of_exact enumU16_pos⟩

instance : TlsListElement SignatureScheme := ⟨.u16, read_lt_of_exact enumU16_pos⟩

instance : TlsListElement CipherSuite :=
  ⟨.u16, read_lt_of_exact fun x => by simp [Codec.encode]⟩

instance : ShortListElement ECPointFormat := ⟨.inl rfl⟩

instance : ShortListElement PSKKeyExchangeMode := ⟨.inl rfl⟩

instance : ShortListElement Compression := ⟨.inl rfl⟩

instance : ShortListElement ClientCertificateType := ⟨.inl rfl⟩

instance : ShortListElement ProtocolVersion := ⟨.inl rfl⟩

instance : ShortListElement NamedGroup := ⟨.inr rfl⟩

instance : ShortListElement SignatureScheme := ⟨.inr rfl⟩

instance : ShortListElement CipherSuite := ⟨.inr rfl⟩

/-! ### Names, key shares and status requests -/

/-- `ServerNamePayload`: a host name is kept as bytes and as a checked name. -/
inductive ServerNamePayload [Webpki]
  | hostName (raw : PayloadU16) (name : Webpki.DnsName)
  | unknown (payload : Payload)

/-- `ServerNamePayload::encode`. -/
def ServerNamePayload.encode [Webpki] : ServerNamePayload → Bytes
  | .hostName raw _ => Codec.encode raw
  | .unknown payload => Codec.encode payload

/-- `ServerNamePayload::read_hostname`. -/
def ServerNamePayload.readHostname [Webpki] : Read ServerNamePayload := do
  let raw ← Codec.read
  match Webpki.tryFromAscii raw.bytes with
  | some name => return .hostName raw name
  | none => throw .invalidServerName

/-- `ServerName`. -/
structure ServerName [Webpki] where
  typ : ServerNameType
  payload : ServerNamePayload

instance [Webpki] : Codec ServerName where
  encode x := Codec.encode x.typ ++ x.payload.encode
  read := do
    let typ ← (Codec.read : Read ServerNameType)
    match typ with
    | .hostName => do
      let payload ← ServerNamePayload.readHostname
      return ⟨typ, payload⟩
    | _ => do
      let payload ← Codec.read
      return ⟨typ, .unknown payload⟩

theorem consumes_readHostname [Webpki] (n : Nat) :
    Consumes n [] ServerNamePayload.readHostname ServerNamePayload.encode := by
  refine consumes_read fun raw => ?_
  split
  · exact .pure rfl
  · exact .throw _

instance [Webpki] : LawfulCodec ServerName where
  exact n := by
    refine consumes_read fun typ => ?_
    split
    · exact .bind (consumes_readHostname n) fun _ => .pure rfl
    · exact consumes_read fun _ => .pure rfl

instance [Webpki] : TlsListElement ServerName :=
  ⟨.u16, read_lt_of_exact fun x => by
    show 0 < (Codec.encode x.typ ++ x.payload.encode).length
    rw [List.length_append, length_encode_enumU8]; omega⟩

instance [Webpki] : ShortListElement ServerName := ⟨.inr rfl⟩

/-- `KeyShareEntry`. -/
structure KeyShareEntry where
  group : NamedGroup
  payload : PayloadU16
deriving DecidableEq, Repr

instance : Codec KeyShareEntry where
  encode x := Codec.encode x.group ++ Codec.encode x.payload
  read := do
    let group ← Codec.read
    let payload ← Codec.read
    return ⟨group, payload⟩

instance : LawfulCodec KeyShareEntry where
  exact _ := consumes_read fun _ => consumes_read fun _ => .pure rfl

instance : TlsListElement KeyShareEntry :=
  ⟨.u16, read_lt_of_exact fun x => by
    show 0 < (Codec.encode x.group ++ Codec.encode x.payload).length
    rw [List.length_append, length_encode_enumU16]; omega⟩

instance : ShortListElement KeyShareEntry := ⟨.inr rfl⟩

/-- `PresharedKeyIdentity`. -/
structure PresharedKeyIdentity where
  identity : PayloadU16
  obfuscatedTicketAge : UInt32
deriving DecidableEq, Repr

instance : Codec PresharedKeyIdentity where
  encode x := Codec.encode x.identity ++ Codec.encode x.obfuscatedTicketAge
  read := do
    let identity ← Codec.read
    let obfuscatedTicketAge ← Codec.read
    return ⟨identity, obfuscatedTicketAge⟩

instance : LawfulCodec PresharedKeyIdentity where
  exact _ := consumes_read fun _ => consumes_read fun _ => .pure rfl

instance : TlsListElement PresharedKeyIdentity :=
  ⟨.u16, read_lt_of_exact fun x => by
    have := payloadU16_pos x.identity
    show 0 < (Codec.encode x.identity ++ Codec.encode x.obfuscatedTicketAge).length
    rw [List.length_append]; omega⟩

instance : ShortListElement PresharedKeyIdentity := ⟨.inr rfl⟩

/-- `PresharedKeyOffer`. -/
structure PresharedKeyOffer where
  identities : List PresharedKeyIdentity
  binders : List PresharedKeyBinder
deriving DecidableEq, Repr

instance : Codec PresharedKeyOffer where
  encode x := Codec.encode x.identities ++ Codec.encode x.binders
  read := do
    let identities ← Codec.read
    let binders ← Codec.read
    return ⟨identities, binders⟩

instance : LawfulCodec PresharedKeyOffer where
  exact _ := consumes_read fun _ => consumes_read fun _ => .pure rfl

/-- `OCSPCertificateStatusRequest`; its type byte is read by the enclosing
    `CertificateStatusRequest` but written here. -/
structure OCSPCertificateStatusRequest where
  responderIds : List ResponderId
  extensions : PayloadU16
deriving DecidableEq, Repr

/-- `OCSPCertificateStatusRequest::encode`. -/
def OCSPCertificateStatusRequest.encode (x : OCSPCertificateStatusRequest) : Bytes :=
  Codec.encode CertificateStatusType.ocsp ++ Codec.encode x.responderIds ++
    Codec.encode x.extensions

/-- `OCSPCertificateStatusRequest::read`. -/
def OCSPCertificateStatusRequest.read : Read OCSPCertificateStatusRequest := do
  let responderIds ← Codec.read
  let extensions ← Codec.read
  return ⟨responderIds, extensions⟩

/-- `CertificateStatusRequest`. -/
inductive CertificateStatusRequest
  | ocsp (request : OCSPCertificateStatusRequest)
  | unknown (typ : CertificateStatusType) (payload : Payload)
deriving DecidableEq, Repr

instance : Codec CertificateStatusRequest where
  encode
    | .ocsp request => request.encode
    | .unknown typ payload => Codec.encode typ ++ Codec.encode payload
  read := do
    let typ ← (Codec.read : Read CertificateStatusType)
    match typ with
    | .ocsp => do
      let request ← OCSPCertificateStatusRequest.read
      return .ocsp request
    | _ => do
      let payload ← Codec.read
      return .unknown typ payload

instance : LawfulCodec CertificateStatusRequest where
  exact n := by
    have hocsp : Consumes n [] OCSPCertificateStatusRequest.read
        (fun x => Codec.encode x.responderIds ++ Codec.encode x.extensions) :=
      consumes_read fun _ => consumes_read fun _ => .pure rfl
    refine consumes_read fun typ => ?_
    split
    · refine .bind hocsp fun _ => .pure ?_
      rfl
    · exact consumes_read fun _ => .pure rfl

/-- `CertificateStatus`: only OCSP. -/
structure CertificateStatus where
  ocspResponse : PayloadU24
deriving DecidableEq, Repr

instance : Codec CertificateStatus where
  encode x := Codec.encode CertificateStatusType.ocsp ++ Codec.encode x.ocspResponse
  read := do
    let typ ← (Codec.read : Read CertificateStatusType)
    match typ with
    | .ocsp => do
      let ocspResponse ← Codec.read
      return ⟨ocspResponse⟩
    | _ => throw .invalidCertificateStatusType

instance : LawfulCodec CertificateStatus where
  exact n := by
    refine consumes_read fun typ => ?_
    split
    · exact consumes_read fun _ => .pure rfl
    · exact .throw _

/-! ### The frame of an extension -/

/-- `UnknownExtension`. -/
structure UnknownExtension where
  typ : ExtensionType
  payload : Payload
deriving DecidableEq, Repr

/-- The common shape of `read` of all extensions: type, length and a body that
    has to be used up.  `name` is the one reported for trailing data. -/
def readExtension (name : String) (readBody : ExtensionType → Read α) : Read α := do
  let typ ← (Codec.read : Read ExtensionType)
  let len ← (Codec.read : Read UInt16)
  let body ← sub len.toNat
  let (ext, left) ← ByteParser.runOn body (readBody typ)
  expectEmpty left name
  return ext

/-- The common shape of `encode` of all extensions. -/
def encodeExtension (getType : α → ExtensionType) (encodeBody : α → Bytes) (ext : α) : Bytes :=
  Codec.encode (getType ext) ++ encodeSized 2 (encodeBody ext)

/-- An extension whose body is read exactly, and under the type it gets back, is
    read exactly. -/
theorem consumes_extension {name : String} {readBody : ExtensionType → Read α}
    {getType : α → ExtensionType} {encodeBody : α → Bytes}
    (hbody : ∀ n typ, Consumes n (Codec.encode typ) (readBody typ)
      (fun ext => Codec.encode (getType ext) ++ encodeBody ext)) (n : Nat) :
    Consumes n [] (readExtension name readBody) (encodeExtension getType encodeBody) := by
  intro r x r' hlen hok
  obtain ⟨typ, r₁, htyp, hok₁⟩ := bind_ok.mp hok
  obtain ⟨len, r₂, hl, hok₂⟩ := bind_ok.mp hok₁
  obtain ⟨body, r₃, hsub, hok₃⟩ := bind_ok.mp hok₂
  obtain ⟨⟨ext, left⟩, r₄, hrun, hok₄⟩ := bind_ok.mp hok₃
  obtain ⟨⟨⟩, r₅, hempty, hok₅⟩ := bind_ok.mp hok₄
  obtain ⟨rfl, rfl⟩ := pure_ok.mp hok₅
  obtain ⟨hread, rfl⟩ := ByteParser.runOn_ok.mp hrun
  obtain ⟨rfl, hblen⟩ := ByteParser.take_ok.mp hsub
  -- nothing of the body is left
  have hleft : left = [] ∧ r₃ = r₅ := by
    unfold expectEmpty at hempty
    split at hempty
    · next hl => exact ⟨by simpa using hl, (pure_ok.mp hempty).2⟩
    · exact absurd hempty ByteParser.throw_ok
  obtain ⟨rfl, rfl⟩ := hleft
  have h₁ := LawfulCodec.exact n r typ r₁ hlen htyp
  have h₂ := LawfulCodec.exact r₁.length r₁ len _ le_rfl hl
  have h₃ := hbody body.length typ body ext [] le_rfl hread
  -- both types have two bytes, so type and body agree
  rw [List.append_nil] at h₃
  obtain ⟨htype, hbytes⟩ := List.append_inj h₃ (by simp [length_encode_enumU16])
  rw [List.nil_append] at h₁ h₂
  show r = (Codec.encode (getType ext) ++ encodeSized 2 (encodeBody ext)) ++ r₃
  rw [h₁, h₂, htype, hbytes, encodeSized, ← hbytes, hblen]
  rfl

theorem length_encodeExtension_pos (getType : α → ExtensionType) (encodeBody : α → Bytes)
    (ext : α) : 0 < (encodeExtension getType encodeBody ext).length := by
  rw [encodeExtension, List.length_append, length_encode_enumU16]
  omega

/-! ### Client extensions -/

/-- `ClientSessionTicket`. -/
inductive ClientSessionTicket
  | request
  | offer (payload : Payload)
deriving DecidableEq, Repr

/-- `ClientExtension`. -/
inductive ClientExtension [Webpki]
  | ecPointFormats (formats : List ECPointFormat)
  | namedGroups (groups : List NamedGroup)
  | signatureAlgorithms (schemes : List SignatureScheme)
  | serverName (names : List ServerName)
  | sessionTicket (ticket : ClientSessionTicket)
  | protocols (names : List ProtocolName)
  | supportedVersions (versions : List ProtocolVersion)
  | keyShare (entries : List KeyShareEntry)
  | presharedKeyModes (modes : List PSKKeyExchangeMode)
  | presharedKey (offer : PresharedKeyOffer)
  | cookie (cookie : PayloadU16)
  | extendedMasterSecretRequest
  | certificateStatusRequest (request : CertificateStatusRequest)
  | signedCertificateTimestampRequest
  | transportParameters (params : Bytes)
  | transportParametersDraft (params : Bytes)
  | earlyData
  | unknown (ext : UnknownExtension)

namespace ClientExtension

variable [Webpki]

/-- `ClientExtension::get_type`. -/
def getType : ClientExtension → ExtensionType
  | .ecPointFormats _ => .ecPointFormats
  | .namedGroups _ => .ellipticCurves
  | .signatureAlgorithms _ => .signatureAlgorithms
  | .serverName _ => .serverName
  | .sessionTicket _ => .sessionTicket
  | .protocols _ => .alProtocolNegotiation
  | .supportedVersions _ => .supportedVersions
  | .keyShare _ => .keyShare
  | .presharedKeyModes _ => .pskKeyExchangeModes
  | .presharedKey _ => .preSharedKey
  | .cookie _ => .cookie
  | .extendedMasterSecretRequest => .extendedMasterSecret
  | .certificateStatusRequest _ => .statusRequest
  | .signedCertificateTimestampRequest => .sct
  | .transportParameters _ => .transportParameters
  | .transportParametersDraft _ => .transportParametersDraft
  | .earlyData => .earlyData
  | .unknown ext => ext.typ

/-- The `match` of `ClientExtension::encode`. -/
def encodeBody : ClientExtension → Bytes
  | .ecPointFormats r => Codec.encode r
  | .namedGroups r => Codec.encode r
  | .signatureAlgorithms r => Codec.encode r
  | .serverName r => Codec.encode r
  | .sessionTicket .request => []
  | .sessionTicket (.offer r) => Codec.encode r
  | .protocols r => Codec.encode r
  | .supportedVersions r => Codec.encode r
  | .keyShare r => Codec.encode r
  | .presharedKeyModes r => Codec.encode r
  | .presharedKey r => Codec.encode r
  | .cookie r => Codec.encode r
  | .extendedMasterSecretRequest => []
  | .certificateStatusRequest r => Codec.encode r
  | .signedCertificateTimestampRequest => []
  | .transportParameters r => r
  | .transportParametersDraft r => r
  | .earlyData => []
  | .unknown ext => Codec.encode ext.payload

/-- `UnknownExtension::read`, as a client extension. -/
def readUnknown (typ : ExtensionType) : Read ClientExtension := do
  let payload ← Codec.read
  return .unknown ⟨typ, payload⟩

/-- The `match typ` of `ClientExtension::read`. -/
def readBody (typ : ExtensionType) : Read ClientExtension :=
  match typ with
  | .ecPointFormats => do return .ecPointFormats (← Codec.read)
  | .ellipticCurves => do return .namedGroups (← Codec.read)
  | .signatureAlgorithms => do return .signatureAlgorithms (← Codec.read)
  | .serverName => do return .serverName (← Codec.read)
  | .sessionTicket => do
    let anyLeft ← anyLeft
    if anyLeft then do
      let contents ← Codec.read
      return .sessionTicket (.offer contents)
    else return .sessionTicket .request
  | .alProtocolNegotiation => do return .protocols (← Codec.read)
  | .supportedVersions => do return .supportedVersions (← Codec.read)
  | .keyShare => do return .keyShare (← Codec.read)
  | .pskKeyExchangeModes => do return .presharedKeyModes (← Codec.read)
  | .preSharedKey => do return .presharedKey (← Codec.read)
  | .cookie => do return .cookie (← Codec.read)
  | .extendedMasterSecret => do
    let anyLeft ← anyLeft
    if !anyLeft then return .extendedMasterSecretRequest else readUnknown typ
  | .statusRequest => do return .certificateStatusRequest (← Codec.read)
  | .sct => do
    let anyLeft ← anyLeft
    if !anyLeft then return .signedCertificateTimestampRequest else readUnknown typ
  | .transportParameters => do return .transportParameters (← rest)
  | .transportParametersDraft => do return .transportParametersDraft (← rest)
  | .earlyData => do
    let anyLeft ← anyLeft
    if !anyLeft then return .earlyData else readUnknown typ
  | _ => readUnknown typ

instance : Codec ClientExtension where
  encode := encodeExtension getType encodeBody
  read := readExtension "ClientExtension" readBody

theorem consumes_readUnknown (n : Nat) (typ : ExtensionType) :
    Consumes n (Codec.encode typ) (readUnknown typ)
      (fun ext => Codec.encode ext.getType ++ ext.encodeBody) :=
  consumes_read fun _ => .pure rfl

instance : LawfulCodec ClientExtension where
  exact := consumes_extension fun n typ => by
    unfold readBody
    -- a branch reads one value, or all that is left, or depends on whether anything is left
    split
    all_goals first
      | exact consumes_read fun _ => .pure rfl
      | exact consumes_readUnknown n _
      | exact .bind .rest fun _ => .pure rfl
      | exact .anyLeft fun _ => .ite (fun _ => .pure (List.append_nil _).symm)
          fun _ => consumes_readUnknown n _
      | exact .anyLeft fun _ => .ite (fun _ => consumes_read fun _ => .pure rfl)
          fun _ => .pure (List.append_nil _).symm

instance : TlsListElement ClientExtension :=
  ⟨.u16, read_lt_of_exact (length_encodeExtension_pos _ _)⟩

instance : ShortListElement ClientExtension := ⟨.inr rfl⟩

end ClientExtension

/-! ### Server extensions -/

/-- `ServerExtension`. -/
inductive ServerExtension
  | ecPointFormats (formats : List ECPointFormat)
  | serverNameAck
  | sessionTicketAck
  | renegotiationInfo (info : PayloadU8)
  | protocols (names : List ProtocolName)
  | keyShare (entry : KeyShareEntry)
  | presharedKey (index : UInt16)
  | extendedMasterSecretAck
  | certificateStatusAck
  | signedCertificateTimestamp (scts : List Sct)
  | supportedVersions (version : ProtocolVersion)
  | transportParameters (params : Bytes)
  | transportParametersDraft (params : Bytes)
  | earlyData
  | unknown (ext : UnknownExtension)

namespace ServerExtension

/-- `ServerExtension::get_type`. -/
def getType : ServerExtension → ExtensionType
  | .ecPointFormats _ => .ecPointFormats
  | .serverNameAck => .serverName
  | .sessionTicketAck => .sessionTicket
  | .renegotiationInfo _ => .renegotiationInfo
  | .protocols _ => .alProtocolNegotiation
  | .keyShare _ => .keyShare
  | .presharedKey _ => .preSharedKey
  | .extendedMasterSecretAck => .extendedMasterSecret
  | .certificateStatusAck => .statusRequest
  | .signedCertificateTimestamp _ => .sct
  | .supportedVersions _ => .supportedVersions
  | .transportParameters _ => .transportParameters
  | .transportParametersDraft _ => .transportParametersDraft
  | .earlyData => .earlyData
  | .unknown ext => ext.typ

/-- The `match` of `ServerExtension::encode`. -/
def encodeBody : ServerExtension → Bytes
  | .ecPointFormats r => Codec.encode r
  | .serverNameAck => []
  | .sessionTicketAck => []
  | .renegotiationInfo r => Codec.encode r
  | .protocols r => Codec.encode r
  | .keyShare r => Codec.encode r
  | .presharedKey r => Codec.encode r
  | .extendedMasterSecretAck => []
  | .certificateStatusAck => []
  | .signedCertificateTimestamp r => Codec.encode r
  | .supportedVersions r => Codec.encode r
  | .transportParameters r => r
  | .transportParametersDraft r => r
  | .earlyData => []
  | .unknown ext => Codec.encode ext.payload

/-- The `match typ` of `ServerExtension::read`. The acknowledgements read nothing:
    a body would be left over. -/
def readBody (typ : ExtensionType) : Read ServerExtension :=
  match typ with
  | .ecPointFormats => do return .ecPointFormats (← Codec.read)
  | .serverName => return .serverNameAck
  | .sessionTicket => return .sessionTicketAck
  | .statusRequest => return .certificateStatusAck
  | .renegotiationInfo => do return .renegotiationInfo (← Codec.read)
  | .alProtocolNegotiation => do return .protocols (← Codec.read)
  | .keyShare => do return .keyShare (← Codec.read)
  | .preSharedKey => do return .presharedKey (← Codec.read)
  | .extendedMasterSecret => return .extendedMasterSecretAck
  | .sct => do return .signedCertificateTimestamp (← Codec.read)
  | .supportedVersions => do return .supportedVersions (← Codec.read)
  | .transportParameters => do return .transportParameters (← rest)
  | .transportParametersDraft => do return .transportParametersDraft (← rest)
  | .earlyData => return .earlyData
  | _ => do
    let payload ← Codec.read
    return .unknown ⟨typ, payload⟩

instance : Codec ServerExtension where
  encode := encodeExtension getType encodeBody
  read := readExtension "ServerExtension" readBody

instance : LawfulCodec ServerExtension where
  exact := consumes_extension fun n typ => by
    unfold readBody
    split
    all_goals first
      | exact consumes_read fun _ => .pure rfl
      | exact .bind .rest fun _ => .pure rfl
      | exact .pure (List.append_nil _).symm

instance : TlsListElement ServerExtension :=
  ⟨.u16, read_lt_of_exact (length_encodeExtension_pos _ _)⟩

instance : ShortListElement ServerExtension := ⟨.inr rfl⟩

end ServerExtension

/-! ### Hello retry extensions -/

/-- `HelloRetryExtension`. -/
inductive HelloRetryExtension
  | keyShare (group : NamedGroup)
  | cookie (cookie : PayloadU16)
  | supportedVersions (version : ProtocolVersion)
  | unknown (ext : UnknownExtension)

namespace HelloRetryExtension

/-- `HelloRetryExtension::get_type`. -/
def getType : HelloRetryExtension → ExtensionType
  | .keyShare _ => .keyShare
  | .cookie _ => .cookie
  | .supportedVersions _ => .supportedVersions
  | .unknown ext => ext.typ

/-- The `match` of `HelloRetryExtension::encode`. -/
def encodeBody : HelloRetryExtension → Bytes
  | .keyShare r => Codec.encode r
  | .cookie r => Codec.encode r
  | .supportedVersions r => Codec.encode r
  | .unknown ext => Codec.encode ext.payload

/-- The `match typ` of `HelloRetryExtension::read`. -/
def readBody (typ : ExtensionType) : Read HelloRetryExtension :=
  match typ with
  | .keyShare => do return .keyShare (← Codec.read)
  | .cookie => do return .cookie (← Codec.read)
  | .supportedVersions => do return .supportedVersions (← Codec.read)
  | _ => do
    let payload ← Codec.read
    return .unknown ⟨typ, payload⟩

instance : Codec HelloRetryExtension where
  encode := encodeExtension getType encodeBody
  read := readExtension "HelloRetryExtension" readBody

instance : LawfulCodec HelloRetryExtension where
  exact := consumes_extension fun n typ => by
    unfold readBody
    split
    all_goals exact consumes_read fun _ => .pure rfl

instance : TlsListElement HelloRetryExtension :=
  ⟨.u16, read_lt_of_exact (length_encodeExtension_pos _ _)⟩

instance : ShortListElement HelloRetryExtension := ⟨.inr rfl⟩

end HelloRetryExtension

/-! ### Certificate extensions -/

/-- `CertificateExtension`. -/
inductive CertificateExtension
  | certificateStatus (status : CertificateStatus)
  | signedCertificateTimestamp (scts : List Sct)
  | unknown (ext : UnknownExtension)

namespace CertificateExtension

/-- `CertificateExtension::get_type`. -/
def getType : CertificateExtension → ExtensionType
  | .certificateStatus _ => .statusRequest
  | .signedCertificateTimestamp _ => .sct
  | .unknown ext => ext.typ

/-- The `match` of `CertificateExtension::encode`. -/
def encodeBody : CertificateExtension → Bytes
  | .certificateStatus r => Codec.encode r
  | .signedCertificateTimestamp r => Codec.encode r
  | .unknown ext => Codec.encode ext.payload

/-- The `match typ` of `CertificateExtension::read`. -/
def readBody (typ : ExtensionType) : Read CertificateExtension :=
  match typ with
  | .statusRequest => do return .certificateStatus (← Codec.read)
  | .sct => do return .signedCertificateTimestamp (← Codec.read)
  | _ => do
    let payload ← Codec.read
    return .unknown ⟨typ, payload⟩

instance : Codec CertificateExtension where
  encode := encodeExtension getType encodeBody
  read := readExtension "CertificateExtension" readBody

instance : LawfulCodec CertificateExtension where
  exact := consumes_extension fun n typ => by
    unfold readBody
    split
    all_goals exact consumes_read fun _ => .pure rfl

instance : TlsListElement CertificateExtension :=
  ⟨.u16, read_lt_of_exact (length_encodeExtension_pos _ _)⟩

instance : ShortListElement CertificateExtension := ⟨.inr rfl⟩

end CertificateExtension

/-! ### Certificate request extensions -/

/-- `CertReqExtension`. -/
inductive CertReqExtension
  | signatureAlgorithms (schemes : List SignatureScheme)
  | authorityNames (names : List DistinguishedName)
  | unknown (ext : UnknownExtension)

namespace CertReqExtension

/-- `CertReqExtension::get_type`. -/
def getType : CertReqExtension → ExtensionType
  | .signatureAlgorithms _ => .signatureAlgorithms
  | .authorityNames _ => .certificateAuthorities
  | .unknown ext => ext.typ

/-- The `match` of `CertReqExtension::encode`. -/
def encodeBody : CertReqExtension → Bytes
  | .signatureAlgorithms r => Codec.encode r
  | .authorityNames r => Codec.encode r
  | .unknown ext => Codec.encode ext.payload

/-- The `match typ` of `CertReqExtension::read`. -/
def readBody (typ : ExtensionType) : Read CertReqExtension :=
  match typ with
  | .signatureAlgorithms => do
    let schemes ← (Codec.read : Read (List SignatureScheme))
    if schemes.isEmpty then throw .noSignatureSchemes else return .signatureAlgorithms schemes
  | .certificateAuthorities => do return .authorityNames (← Codec.read)
  | _ => do
    let payload ← Codec.read
    return .unknown ⟨typ, payload⟩

instance : Codec CertReqExtension where
  encode := encodeExtension getType encodeBody
  read := readExtension "CertReqExtension" readBody

instance : LawfulCodec CertReqExtension where
  exact := consumes_extension fun n typ => by
    unfold readBody
    split
    · exact consumes_read fun _ => .ite (fun _ => .throw _) fun _ => .pure rfl
    all_goals exact consumes_read fun _ => .pure rfl

instance : TlsListElement CertReqExtension :=
  ⟨.u16, read_lt_of_exact (length_encodeExtension_pos _ _)⟩

instance : ShortListElement CertReqExtension := ⟨.inr rfl⟩

end CertReqExtension

/-! ### Session ticket extensions -/

/-- `NewSessionTicketExtension`. -/
inductive NewSessionTicketExtension
  | earlyData (size : UInt32)
  | unknown (ext : UnknownExtension)

namespace NewSessionTicketExtension

/-- `NewSessionTicketExtension::get_type`. -/
def getType : NewSessionTicketExtension → ExtensionType
  | .earlyData _ => .earlyData
  | .unknown ext => ext.typ

/-- The `match` of `NewSessionTicketExtension::encode`. -/
def encodeBody : NewSessionTicketExtension → Bytes
  | .earlyData r => Codec.encode r
  | .unknown ext => Codec.encode ext.payload

/-- The `match typ` of `NewSessionTicketExtension::read`. -/
def readBody (typ : ExtensionType) : Read NewSessionTicketExtension :=
  match typ with
  | .earlyData => do return .earlyData (← Codec.read)
  | _ => do
    let payload ← Codec.read
    return .unknown ⟨typ, payload⟩

instance : Codec NewSessionTicketExtension where
  encode := encodeExtension getType encodeBody
  read := readExtension "NewSessionTicketExtension" readBody

instance : LawfulCodec NewSessionTicketExtension where
  exact := consumes_extension fun n typ => by
    unfold readBody
    split
    all_goals exact consumes_read fun _ => .pure rfl

instance : TlsListElement NewSessionTicketExtension :=
  ⟨.u16, read_lt_of_exact (length_encodeExtension_pos _ _)⟩

instance : ShortListElement NewSessionTicketExtension := ⟨.inr rfl⟩

end NewSessionTicketExtension

end TeaclaveCrates.Rustls
