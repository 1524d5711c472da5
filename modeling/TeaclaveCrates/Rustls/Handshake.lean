import TeaclaveCrates.Rustls.Extensions

namespace TeaclaveCrates.Rustls

open TeaclaveCrates.Lib
open ByteParser (anyLeft bind_ok pure_ok take_ok throw_ok)

/-!
# rustls — handshake messages

The payloads of all handshake messages and the message itself
(`msgs/handshake.rs`).

* `readPayload` / `HandshakePayload.encode` — one branch for each message type and,
  where it matters, protocol version;
* `readVersion` / `HandshakeMessagePayload.encode` — the whole message;
* `CarriesEmptyExtensions` — the one case where reading forgets something: a
  ServerHello whose extension list is present but empty;
* `encode_readVersion` — apart from that case, a message re-encodes to the bytes it
  was read from, and different bytes give different messages.
-/

variable {α : Type}

/-- `Reader::expect_empty` on the reader itself. -/
def expectNoneLeft (name : String) : Read Unit := fun r => expectEmpty r name r

/-- Extensions are read only where any byte is left. -/
def readIfAnyLeft [Codec α] [TlsListElement α] : Read (List α) := do
  let anyLeft ← anyLeft
  if anyLeft then Codec.read else return []

/-- Optional extensions: none and nothing left, or a list that is there. -/
theorem readIfAnyLeft_ok [Codec α] [TlsListElement α] [LawfulCodec (List α)] {r r' : Bytes}
    {xs : List α} (h : readIfAnyLeft r = .ok (xs, r')) :
    (r = [] ∧ xs = [] ∧ r' = []) ∨ r = Codec.encode xs ++ r' := by
  cases r with
  | nil =>
    obtain ⟨rfl, rfl⟩ := pure_ok.mp h
    exact .inl ⟨rfl, rfl, rfl⟩
  | cons b bs => exact .inr (LawfulCodec.exact (bs.length + 1) (b :: bs) xs r' le_rfl h)

theorem expectEmpty_ok {left r r' : Bytes} {name : String}
    (h : expectEmpty left name r = .ok ((), r')) : left = [] ∧ r = r' := by
  unfold expectEmpty at h
  split at h
  · next hl => exact ⟨by simpa using hl, (pure_ok.mp h).2⟩
  · exact absurd h throw_ok

/-! ### Hello messages -/

/-- `ClientHelloPayload`. -/
structure ClientHelloPayload [Webpki] where
  clientVersion : ProtocolVersion
  random : Random
  sessionId : SessionId
  cipherSuites : List CipherSuite
  compressionMethods : List Compression
  extensions : List ClientExtension

instance [Webpki] : Codec ClientHelloPayload where
  encode x :=
    Codec.encode x.clientVersion ++ Codec.encode x.random ++ Codec.encode x.sessionId ++
      Codec.encode x.cipherSuites ++ Codec.encode x.compressionMethods ++
      if !x.extensions.isEmpty then Codec.encode x.extensions else []
  read := do
    let clientVersion ← Codec.read
    let random ← Codec.read
    let sessionId ← Codec.read
    let cipherSuites ← Codec.read
    let compressionMethods ← Codec.read
    let extensions ← (readIfAnyLeft : Read (List ClientExtension))
    let anyLeft ← anyLeft
    match anyLeft, extensions.isEmpty with
    | true, _ => throw (.trailingData "ClientHelloPayload")
    | _, true => throw (.missingData "ClientHelloPayload")
    | _, _ => return ⟨clientVersion, random, sessionId, cipherSuites, compressionMethods,
      extensions⟩

instance [Webpki] : LawfulCodec ClientHelloPayload where
  exact n := by
    refine consumes_read fun clientVersion => consumes_read fun random =>
      consumes_read fun sessionId => consumes_read fun cipherSuites =>
      consumes_read fun compressionMethods => ?_
    intro r x r' _ hok
    obtain ⟨exts, r₁, hexts, hok₁⟩ := bind_ok.mp hok
    obtain ⟨anyLeft, r₂, hany, hok₂⟩ := bind_ok.mp hok₁
    have hr₂ : r₁ = r₂ := by cases hany; rfl
    subst hr₂
    cases anyLeft with
    | true => exact absurd hok₂ throw_ok
    | false =>
      cases hempty : exts.isEmpty with
      | true =>
        simp only [hempty] at hok₂
        exact absurd hok₂ throw_ok
      | false =>
        -- the list is not empty, so it was there
        simp only [hempty] at hok₂
        obtain ⟨rfl, rfl⟩ := pure_ok.mp hok₂
        rcases readIfAnyLeft_ok hexts with ⟨-, rfl, -⟩ | hr
        · simp at hempty
        · rw [hr]
          simp [Codec.encode, hempty]

/-- `HelloRetryRequest`. -/
structure HelloRetryRequest where
  legacyVersion : ProtocolVersion
  sessionId : SessionId
  cipherSuite : CipherSuite
  extensions : List HelloRetryExtension

/-- `HelloRetryRequest::encode`. -/
def HelloRetryRequest.encode (x : HelloRetryRequest) : Bytes :=
  Codec.encode x.legacyVersion ++ Codec.encode HELLO_RETRY_REQUEST_RANDOM ++
    Codec.encode x.sessionId ++ Codec.encode x.cipherSuite ++ Codec.encode Compression.null ++
    Codec.encode x.extensions

/-- `HelloRetryRequest::read`: version and random have been read before. -/
def HelloRetryRequest.read : Read HelloRetryRequest := do
  let sessionId ← Codec.read
  let cipherSuite ← Codec.read
  let compression ← (Codec.read : Read Compression)
  if compression ≠ .null then
    throw .unsupportedCompression
  else do
    let extensions ← Codec.read
    return ⟨.unknown 0, sessionId, cipherSuite, extensions⟩

/-- `ServerHelloPayload`. -/
structure ServerHelloPayload where
  legacyVersion : ProtocolVersion
  random : Random
  sessionId : SessionId
  cipherSuite : CipherSuite
  compressionMethod : Compression
  extensions : List ServerExtension

/-- `ServerHelloPayload::encode`. -/
def ServerHelloPayload.encode (x : ServerHelloPayload) : Bytes :=
  Codec.encode x.legacyVersion ++ Codec.encode x.random ++ Codec.encode x.sessionId ++
    Codec.encode x.cipherSuite ++ Codec.encode x.compressionMethod ++
    if !x.extensions.isEmpty then Codec.encode x.extensions else []

/-- `ServerHelloPayload::read`: version and random have been read before. -/
def ServerHelloPayload.read : Read ServerHelloPayload := do
  let sessionId ← Codec.read
  let cipherSuite ← Codec.read
  let compressionMethod ← Codec.read
  let extensions ← readIfAnyLeft
  expectNoneLeft "ServerHelloPayload"
  return ⟨.unknown 0, ZERO_RANDOM, sessionId, cipherSuite, compressionMethod, extensions⟩

/-! ### Certificates -/

/-- `key::Certificate`. -/
structure Certificate where
  bytes : Bytes
deriving DecidableEq, Repr

instance : Codec Certificate where
  encode x := encodeSized 3 x.bytes
  read := do return ⟨← readSized fun x : U24 => x.val.toNat⟩

instance : LawfulCodec Certificate where
  exact _ := .bind (consumes_sized fun _ => rfl) fun _ => .pure rfl

private theorem certificate_pos (x : Certificate) : 0 < (Codec.encode x).length := by
  show 0 < (encodeSized 3 x.bytes).length
  rw [length_encodeSized]; omega

instance : TlsListElement Certificate := ⟨.u24 0x1_0000, read_lt_of_exact certificate_pos⟩

/-- `CertificateEntry`. -/
structure CertificateEntry where
  cert : Certificate
  exts : List CertificateExtension

instance : Codec CertificateEntry where
  encode x := Codec.encode x.cert ++ Codec.encode x.exts
  read := do
    let cert ← Codec.read
    let exts ← Codec.read
    return ⟨cert, exts⟩

instance : LawfulCodec CertificateEntry where
  exact _ := consumes_read fun _ => consumes_read fun _ => .pure rfl

instance : TlsListElement CertificateEntry :=
  ⟨.u24 0x1_0000, read_lt_of_exact fun x => by
    have := certificate_pos x.cert
    show 0 < (Codec.encode x.cert ++ Codec.encode x.exts).length
    rw [List.length_append]; omega⟩

/-- `CertificatePayloadTLS13`. -/
structure CertificatePayloadTLS13 where
  context : PayloadU8
  entries : List CertificateEntry

instance : Codec CertificatePayloadTLS13 where
  encode x := Codec.encode x.context ++ Codec.encode x.entries
  read := do
    let context ← Codec.read
    let entries ← Codec.read
    return ⟨context, entries⟩

/-- `DigitallySignedStruct` (`verify.rs`). -/
structure DigitallySignedStruct where
  scheme : SignatureScheme
  sig : PayloadU16
deriving DecidableEq, Repr

instance : Codec DigitallySignedStruct where
  encode x := Codec.encode x.scheme ++ Codec.encode x.sig
  read := do
    let scheme ← Codec.read
    let sig ← Codec.read
    return ⟨scheme, sig⟩

instance : LawfulCodec DigitallySignedStruct where
  exact _ := consumes_read fun _ => consumes_read fun _ => .pure rfl

/-- `CertificateRequestPayload`. -/
structure CertificateRequestPayload where
  certtypes : List ClientCertificateType
  sigschemes : List SignatureScheme
  canames : List DistinguishedName

instance : Codec CertificateRequestPayload where
  encode x := Codec.encode x.certtypes ++ Codec.encode x.sigschemes ++ Codec.encode x.canames
  read := do
    let certtypes ← Codec.read
    let sigschemes ← (Codec.read : Read (List SignatureScheme))
    let canames ← Codec.read
    if sigschemes.isEmpty then throw .noSignatureSchemes
    else return ⟨certtypes, sigschemes, canames⟩

instance : LawfulCodec CertificateRequestPayload where
  exact _ := consumes_read fun _ => consumes_read fun _ => consumes_read fun _ =>
    .ite (fun _ => .throw _) fun _ => .pure rfl

/-- `CertificateRequestPayloadTLS13`. -/
structure CertificateRequestPayloadTLS13 where
  context : PayloadU8
  extensions : List CertReqExtension

instance : Codec CertificateRequestPayloadTLS13 where
  encode x := Codec.encode x.context ++ Codec.encode x.extensions
  read := do
    let context ← Codec.read
    let extensions ← Codec.read
    return ⟨context, extensions⟩

instance : LawfulCodec CertificateRequestPayloadTLS13 where
  exact _ := consumes_read fun _ => consumes_read fun _ => .pure rfl

/-! ### Key exchange -/

/-- `ECParameters`. -/
structure ECParameters where
  curveType : ECCurveType
  namedGroup : NamedGroup
deriving DecidableEq, Repr

/-- `ServerECDHParams`. -/
structure ServerECDHParams where
  curveParams : ECParameters
  pub : PayloadU8
deriving DecidableEq, Repr

/-- `ServerKeyExchangePayload`. -/
inductive ServerKeyExchangePayload
  | ecdhe (params : ServerECDHParams) (dss : DigitallySignedStruct)
  | unknown (payload : Payload)
deriving DecidableEq, Repr

/-- The payload is read as `Unknown`: how to parse it depends on the cipher suite. -/
instance : Codec ServerKeyExchangePayload where
  encode
    | .ecdhe params dss => Codec.encode params.curveParams.curveType ++
        Codec.encode params.curveParams.namedGroup ++ Codec.encode params.pub ++ Codec.encode dss
    | .unknown payload => Codec.encode payload
  read := do return .unknown (← Codec.read)

instance : LawfulCodec ServerKeyExchangePayload where
  exact _ := consumes_read fun _ => .pure rfl

/-! ### Session tickets -/

/-- `NewSessionTicketPayload`. -/
structure NewSessionTicketPayload where
  lifetimeHint : UInt32
  ticket : PayloadU16
deriving DecidableEq, Repr

instance : Codec NewSessionTicketPayload where
  encode x := Codec.encode x.lifetimeHint ++ Codec.encode x.ticket
  read := do
    let lifetimeHint ← Codec.read
    let ticket ← Codec.read
    return ⟨lifetimeHint, ticket⟩

instance : LawfulCodec NewSessionTicketPayload where
  exact _ := consumes_read fun _ => consumes_read fun _ => .pure rfl

/-- `NewSessionTicketPayloadTLS13`. -/
structure NewSessionTicketPayloadTLS13 where
  lifetime : UInt32
  ageAdd : UInt32
  nonce : PayloadU8
  ticket : PayloadU16
  exts : List NewSessionTicketExtension

instance : Codec NewSessionTicketPayloadTLS13 where
  encode x := Codec.encode x.lifetime ++ Codec.encode x.ageAdd ++ Codec.encode x.nonce ++
    Codec.encode x.ticket ++ Codec.encode x.exts
  read := do
    let lifetime ← Codec.read
    let ageAdd ← Codec.read
    let nonce ← Codec.read
    let ticket ← Codec.read
    let exts ← Codec.read
    return ⟨lifetime, ageAdd, nonce, ticket, exts⟩

instance : LawfulCodec NewSessionTicketPayloadTLS13 where
  exact _ := consumes_read fun _ => consumes_read fun _ => consumes_read fun _ =>
    consumes_read fun _ => consumes_read fun _ => .pure rfl

/-! ### The message -/

/-- `HandshakePayload`. -/
inductive HandshakePayload [Webpki]
  | helloRequest
  | clientHello (payload : ClientHelloPayload)
  | serverHello (payload : ServerHelloPayload)
  | helloRetryRequest (payload : HelloRetryRequest)
  | certificate (payload : List Certificate)
  | certificateTLS13 (payload : CertificatePayloadTLS13)
  | serverKeyExchange (payload : ServerKeyExchangePayload)
  | certificateRequest (payload : CertificateRequestPayload)
  | certificateRequestTLS13 (payload : CertificateRequestPayloadTLS13)
  | certificateVerify (payload : DigitallySignedStruct)
  | serverHelloDone
  | endOfEarlyData
  | clientKeyExchange (payload : Payload)
  | newSessionTicket (payload : NewSessionTicketPayload)
  | newSessionTicketTLS13 (payload : NewSessionTicketPayloadTLS13)
  | encryptedExtensions (payload : List ServerExtension)
  | keyUpdate (payload : KeyUpdateRequest)
  | finished (payload : Payload)
  | certificateStatus (payload : CertificateStatus)
  | messageHash (payload : Payload)
  | unknown (payload : Payload)

/-- `HandshakePayload::encode`. -/
def HandshakePayload.encode [Webpki] : HandshakePayload → Bytes
  | .helloRequest => []
  | .serverHelloDone => []
  | .endOfEarlyData => []
  | .clientHello x => Codec.encode x
  | .serverHello x => x.encode
  | .helloRetryRequest x => x.encode
  | .certificate x => Codec.encode x
  | .certificateTLS13 x => Codec.encode x
  | .serverKeyExchange x => Codec.encode x
  | .clientKeyExchange x => Codec.encode x
  | .certificateRequest x => Codec.encode x
  | .certificateRequestTLS13 x => Codec.encode x
  | .certificateVerify x => Codec.encode x
  | .newSessionTicket x => Codec.encode x
  | .newSessionTicketTLS13 x => Codec.encode x
  | .encryptedExtensions x => Codec.encode x
  | .keyUpdate x => Codec.encode x
  | .finished x => Codec.encode x
  | .certificateStatus x => Codec.encode x
  | .messageHash x => Codec.encode x
  | .unknown x => Codec.encode x

/-- `HandshakeMessagePayload`. -/
structure HandshakeMessagePayload [Webpki] where
  typ : HandshakeType
  payload : HandshakePayload

/-- The type a message is sent under: a HelloRetryRequest goes as a ServerHello. -/
def wireType : HandshakeType → HandshakeType
  | .helloRetryRequest => .serverHello
  | typ => typ

/-- `HandshakeMessagePayload::encode`. -/
def HandshakeMessagePayload.encode [Webpki] (m : HandshakeMessagePayload) : Bytes :=
  Codec.encode (wireType m.typ) ++ encodeSized 3 m.payload.encode

section Read

variable [Webpki]

/-- The `HandshakeType::ServerHello` branch of `read_version`: the random tells a
    HelloRetryRequest from a ServerHello. -/
def readServerHello : Read (HandshakeType × HandshakePayload) := do
  let version ← (Codec.read : Read ProtocolVersion)
  let random ← (Codec.read : Read Random)
  if random = HELLO_RETRY_REQUEST_RANDOM then do
    let hrr ← HelloRetryRequest.read
    return (.helloRetryRequest, .helloRetryRequest { hrr with legacyVersion := version })
  else do
    let shp ← ServerHelloPayload.read
    return (.serverHello, .serverHello { shp with legacyVersion := version, random := random })

/-- The `match typ` of `read_version`: the type may change, hence it is returned. -/
def readPayload (vers : ProtocolVersion) (typ : HandshakeType) :
    Read (HandshakeType × HandshakePayload) :=
  match typ with
  | .helloRequest => do
    let anyLeft ← anyLeft
    if !anyLeft then return (.helloRequest, .helloRequest)
    else do
      let payload ← Codec.read
      return (.helloRequest, .unknown payload)
  | .clientHello => do return (.clientHello, .clientHello (← Codec.read))
  | .serverHello => readServerHello
  | .certificate =>
    if vers = .TLSv1_3 then do return (.certificate, .certificateTLS13 (← Codec.read))
    else do return (.certificate, .certificate (← Codec.read))
  | .serverKeyExchange => do return (.serverKeyExchange, .serverKeyExchange (← Codec.read))
  | .serverHelloDone => do
    expectNoneLeft "ServerHelloDone"
    return (.serverHelloDone, .serverHelloDone)
  | .clientKeyExchange => do return (.clientKeyExchange, .clientKeyExchange (← Codec.read))
  | .certificateRequest =>
    if vers = .TLSv1_3 then do
      return (.certificateRequest, .certificateRequestTLS13 (← Codec.read))
    else do return (.certificateRequest, .certificateRequest (← Codec.read))
  | .certificateVerify => do return (.certificateVerify, .certificateVerify (← Codec.read))
  | .newSessionTicket =>
    if vers = .TLSv1_3 then do return (.newSessionTicket, .newSessionTicketTLS13 (← Codec.read))
    else do return (.newSessionTicket, .newSessionTicket (← Codec.read))
  | .encryptedExtensions => do
    return (.encryptedExtensions, .encryptedExtensions (← Codec.read))
  | .keyUpdate => do return (.keyUpdate, .keyUpdate (← Codec.read))
  | .endOfEarlyData => do
    expectNoneLeft "EndOfEarlyData"
    return (.endOfEarlyData, .endOfEarlyData)
  | .finished => do return (.finished, .finished (← Codec.read))
  | .certificateStatus => do return (.certificateStatus, .certificateStatus (← Codec.read))
  -- these two do not appear on the wire
  | .messageHash => throw (.unexpectedMessage "MessageHash")
  | .helloRetryRequest => throw (.unexpectedMessage "HelloRetryRequest")
  | typ => do return (typ, .unknown (← Codec.read))

/-- `HandshakeMessagePayload::read_version`. -/
def readVersion (vers : ProtocolVersion) : Read HandshakeMessagePayload := do
  let typ ← (Codec.read : Read HandshakeType)
  let len ← (Codec.read : Read U24)
  let body ← sub len.val.toNat
  let ((typ, payload), left) ← ByteParser.runOn body (readPayload vers typ)
  expectEmpty left "HandshakeMessagePayload"
  return ⟨typ, payload⟩

end Read

/-! ### Exactness -/

section Exact

variable [Webpki]

/-- A ServerHello whose body ends with an extension list of length zero. -/
def CarriesEmptyExtensions (payload : HandshakePayload) (body : Bytes) : Prop :=
  ∃ sh, payload = .serverHello sh ∧ sh.extensions = [] ∧ body = sh.encode ++ toBE 2 0

/-- What the payload and the type read from a body say about it. -/
def ReadsBack (typ : HandshakeType) (body : Bytes) (read : HandshakeType × HandshakePayload) :
    Prop :=
  Codec.encode typ ++ body = Codec.encode (wireType read.1) ++ read.2.encode ∨
    (read.1 = .serverHello ∧ CarriesEmptyExtensions read.2 body)

omit [Webpki] in
theorem consumes_hrr (n : Nat) : Consumes n [] HelloRetryRequest.read (fun x =>
    Codec.encode x.sessionId ++ Codec.encode x.cipherSuite ++ Codec.encode Compression.null ++
      Codec.encode x.extensions) := by
  refine consumes_read fun _ => consumes_read fun _ => consumes_read fun compression => ?_
  refine .ite (fun _ => .throw _) fun hnull => consumes_read fun _ => .pure ?_
  simp [not_not.mp hnull]

variable {r : Bytes}

omit [Webpki] in
/-- `ServerHelloPayload::read` of a whole body: the extensions are absent, or there
    as they are encoded, or there and empty. -/
theorem serverHello_read_ok {x : ServerHelloPayload}
    (h : ServerHelloPayload.read r = .ok (x, [])) :
    r = Codec.encode x.sessionId ++ Codec.encode x.cipherSuite ++
        Codec.encode x.compressionMethod ++
        (if !x.extensions.isEmpty then Codec.encode x.extensions else []) ∨
      (x.extensions = [] ∧ r = Codec.encode x.sessionId ++ Codec.encode x.cipherSuite ++
        Codec.encode x.compressionMethod ++ toBE 2 0) := by
  obtain ⟨sessionId, r₁, h₁, hok₁⟩ := bind_ok.mp h
  obtain ⟨suite, r₂, h₂, hok₂⟩ := bind_ok.mp hok₁
  obtain ⟨compression, r₃, h₃, hok₃⟩ := bind_ok.mp hok₂
  obtain ⟨exts, r₄, h₄, hok₄⟩ := bind_ok.mp hok₃
  obtain ⟨⟨⟩, r₅, h₅, hok₅⟩ := bind_ok.mp hok₄
  obtain ⟨rfl, rfl⟩ := pure_ok.mp hok₅
  obtain ⟨rfl, -⟩ := expectEmpty_ok h₅
  have e₁ : r = Codec.encode sessionId ++ r₁ := LawfulCodec.exact _ r sessionId r₁ le_rfl h₁
  have e₂ : r₁ = Codec.encode suite ++ r₂ := LawfulCodec.exact _ r₁ suite r₂ le_rfl h₂
  have e₃ : r₂ = Codec.encode compression ++ r₃ :=
    LawfulCodec.exact _ r₂ compression r₃ le_rfl h₃
  rw [e₁, e₂, e₃]
  simp only [List.append_assoc]
  rcases readIfAnyLeft_ok h₄ with ⟨rfl, rfl, -⟩ | hr₃
  · left
    rfl
  · cases exts with
    | nil => exact .inr ⟨rfl, by rw [hr₃]; rfl⟩
    | cons ext exts => exact .inl (by simp [hr₃])

variable {read : HandshakeType × HandshakePayload}

theorem readServerHello_readsBack {body : Bytes} (h : readServerHello body = .ok (read, [])) :
    ReadsBack .serverHello body read := by
  obtain ⟨version, r₁, h₁, hok₁⟩ := bind_ok.mp h
  obtain ⟨random, r₂, h₂, hok₂⟩ := bind_ok.mp hok₁
  have e₁ : body = Codec.encode version ++ r₁ := LawfulCodec.exact _ body version r₁ le_rfl h₁
  have e₂ : r₁ = Codec.encode random ++ r₂ := LawfulCodec.exact _ r₁ random r₂ le_rfl h₂
  by_cases hrandom : random = HELLO_RETRY_REQUEST_RANDOM
  · rw [if_pos hrandom] at hok₂
    obtain ⟨hrr, r₃, h₃, hok₃⟩ := bind_ok.mp hok₂
    obtain ⟨rfl, rfl⟩ := pure_ok.mp hok₃
    have e₃ := consumes_hrr _ r₂ hrr [] le_rfl h₃
    left
    rw [e₁, e₂, hrandom]
    simp only [List.nil_append, List.append_nil] at e₃
    simp [e₃, HandshakePayload.encode, HelloRetryRequest.encode, wireType]
  · rw [if_neg hrandom] at hok₂
    obtain ⟨shp, r₃, h₃, hok₃⟩ := bind_ok.mp hok₂
    obtain ⟨rfl, rfl⟩ := pure_ok.mp hok₃
    rcases serverHello_read_ok h₃ with e₃ | ⟨hnil, e₃⟩
    · left
      simp [e₁, e₂, e₃, HandshakePayload.encode, ServerHelloPayload.encode, wireType]
    · refine .inr ⟨rfl, _, rfl, hnil, ?_⟩
      simp [e₁, e₂, e₃, ServerHelloPayload.encode, hnil]

omit [Webpki] in
/-- Checking that nothing is left consumes nothing. -/
theorem consumes_expectNoneLeft {n : Nat} {before : Bytes} {name : String} {m : Read α}
    {encode : α → Bytes} (hm : Consumes n before m encode) :
    Consumes n before (do expectNoneLeft name; m) encode := by
  intro r x r' hlen hok
  obtain ⟨⟨⟩, r₁, hr₁, hok₁⟩ := bind_ok.mp hok
  obtain ⟨-, rfl⟩ := expectEmpty_ok hr₁
  exact hm r x r' hlen hok₁

omit [Webpki] in
theorem consumes_certificateTLS13 :
    Consumes 0xffff [] (Codec.read : Read CertificatePayloadTLS13) Codec.encode :=
  consumes_read fun _ => .bind (consumes_longList rfl (by decide)) fun _ => .pure rfl

/-- Every branch of `read_version` other than the ServerHello one is exact. -/
theorem consumes_readPayload (vers : ProtocolVersion) {typ : HandshakeType}
    (htyp : typ ≠ .serverHello) :
    Consumes 0xffff (Codec.encode typ) (readPayload vers typ)
      (fun read => Codec.encode (wireType read.1) ++ read.2.encode) := by
  unfold readPayload
  split
  case h_1 =>
    exact .anyLeft fun _ => .ite (fun _ => .pure (List.append_nil _).symm)
      fun _ => consumes_read fun _ => .pure rfl
  case h_3 => exact absurd rfl htyp
  case h_4 =>
    refine .ite (fun _ => .bind consumes_certificateTLS13 fun _ => .pure rfl) fun _ => ?_
    exact .bind (consumes_longList rfl (by decide)) fun _ => .pure rfl
  case h_18 hne =>
    refine consumes_read fun _ => .pure ?_
    have hwire : wireType typ = typ := by
      unfold wireType
      split
      · exact absurd rfl hne
      · rfl
    rw [hwire]
    rfl
  all_goals first
    | exact consumes_read fun _ => .pure rfl
    | exact .throw _
    | exact consumes_expectNoneLeft (.pure (List.append_nil _).symm)
    | exact .ite (fun _ => consumes_read fun _ => .pure rfl)
        fun _ => consumes_read fun _ => .pure rfl

variable {vers : ProtocolVersion}

theorem readPayload_readsBack {typ : HandshakeType} {body : Bytes} (hlen : body.length ≤ 0xffff)
    (h : readPayload vers typ body = .ok (read, [])) : ReadsBack typ body read := by
  by_cases htyp : typ = .serverHello
  · subst htyp
    exact readServerHello_readsBack h
  · left
    have hr := consumes_readPayload vers htyp body read [] hlen h
    rwa [List.append_nil] at hr

/-- The body of the message at the front of `r`: as long as its header announces. -/
def messageBody (r : Bytes) : Bytes := (r.drop 4).take (ofBE ((r.drop 1).take 3))

omit [Webpki] in
theorem readU24_lt {r' : Bytes} {x : U24} (h : (Codec.read : Read U24) r = .ok (x, r')) :
    x.val.toNat < 256 ^ 3 := by
  obtain ⟨bs, r₁, hbs, hpure⟩ := bind_ok.mp h
  obtain ⟨rfl, -⟩ := pure_ok.mp hpure
  obtain ⟨-, hlen⟩ := take_ok.mp hbs
  have hlt : ofBE bs < 256 ^ 3 := hlen ▸ ofBE_lt bs
  rw [UInt32.toNat_ofNat', Nat.mod_eq_of_lt (by omega)]
  exact hlt

variable {m : HandshakeMessagePayload}

/-- What a successful `read_version` did: it took a type, a length and a body, and
    read all of the body. -/
theorem readVersion_ok {r' : Bytes} (h : readVersion vers r = .ok (m, r')) :
    ∃ typ, r = Codec.encode typ ++ encodeSized 3 (messageBody r) ++ r' ∧
      readPayload vers typ (messageBody r) = .ok ((m.typ, m.payload), []) := by
  obtain ⟨typ, r₁, htyp, hok₁⟩ := bind_ok.mp h
  obtain ⟨len, r₂, hl, hok₂⟩ := bind_ok.mp hok₁
  obtain ⟨body, r₃, hsub, hok₃⟩ := bind_ok.mp hok₂
  obtain ⟨⟨⟨typ', payload⟩, left⟩, r₄, hrun, hok₄⟩ := bind_ok.mp hok₃
  obtain ⟨⟨⟩, r₅, hempty, hok₅⟩ := bind_ok.mp hok₄
  obtain ⟨rfl, rfl⟩ := pure_ok.mp hok₅
  obtain ⟨hread, rfl⟩ := ByteParser.runOn_ok.mp hrun
  obtain ⟨rfl, hblen⟩ := take_ok.mp hsub
  obtain ⟨rfl, rfl⟩ := expectEmpty_ok hempty
  have e₁ : r = Codec.encode typ ++ r₁ := LawfulCodec.exact _ r typ r₁ le_rfl htyp
  have e₂ : r₁ = Codec.encode len ++ (body ++ r₃) := LawfulCodec.exact _ r₁ len _ le_rfl hl
  -- the header is the type byte and the three bytes of the length
  have hlen : Codec.encode len = toBE 3 body.length := by rw [hblen]; rfl
  obtain ⟨b, hb⟩ : ∃ b, Codec.encode typ = [b] := ⟨_, rfl⟩
  have hr : r = b :: (toBE 3 body.length ++ (body ++ r₃)) := by rw [e₁, e₂, hlen, hb]; rfl
  have hfit : body.length < 256 ^ 3 := hblen ▸ readU24_lt hl
  have hbody : messageBody r = body := by
    have htake : ((toBE 3 body.length ++ (body ++ r₃)).take 3) = toBE 3 body.length :=
      List.take_left' (length_toBE 3 _)
    have hdrop : ((toBE 3 body.length ++ (body ++ r₃)).drop 3) = body ++ r₃ :=
      List.drop_left' (length_toBE 3 _)
    rw [messageBody, hr]
    show (List.drop 3 (toBE 3 body.length ++ (body ++ r₃))).take
      (ofBE ((toBE 3 body.length ++ (body ++ r₃)).take 3)) = body
    rw [htake, hdrop, ofBE_toBE hfit, List.take_left]
  refine ⟨typ, ?_, ?_⟩
  · rw [hbody, hr, hb, encodeSized]
    simp
  · rw [hbody]
    exact hread

/-- A message that was read re-encodes to what it was read from. -/
theorem readVersion_exact {r' : Bytes} (h : readVersion vers r = .ok (m, r'))
    (hlen : (messageBody r).length ≤ 0xffff)
    (hempty : ¬ CarriesEmptyExtensions m.payload (messageBody r)) : r = m.encode ++ r' := by
  obtain ⟨typ, hr, hread⟩ := readVersion_ok h
  rcases readPayload_readsBack hlen hread with heq | ⟨-, hcarries⟩
  · -- both types are one byte, so type and body agree
    obtain ⟨htype, hbytes⟩ := List.append_inj heq (by simp [length_encode_enumU8])
    rw [hr, HandshakeMessagePayload.encode, htype, hbytes]
  · exact absurd hcarries hempty

/-- **Exactness.** For every byte string and protocol version, a message with a
    body of at most 0xffff bytes re-encodes to exactly the consumed bytes, unless
    it is a ServerHello with an extension list that is there but empty.  Hence two
    inputs that give the same message agree on what was consumed. -/
theorem encode_readVersion (vers : ProtocolVersion) {r r' : Bytes} {m : HandshakeMessagePayload}
    (h : readVersion vers r = .ok (m, r')) (hlen : (messageBody r).length ≤ 0xffff)
    (hempty : ¬ CarriesEmptyExtensions m.payload (messageBody r)) :
    r = m.encode ++ r' ∧
      ∀ (vers₂ : ProtocolVersion) (r₂ r₂' : Bytes), readVersion vers₂ r₂ = .ok (m, r₂') →
        (messageBody r₂).length ≤ 0xffff →
        ¬ CarriesEmptyExtensions m.payload (messageBody r₂) →
        ∃ consumed, r = consumed ++ r' ∧ r₂ = consumed ++ r₂' := by
  have hr := readVersion_exact h hlen hempty
  refine ⟨hr, fun vers₂ r₂ r₂' h₂ hlen₂ hempty₂ => ?_⟩
  exact ⟨m.encode, hr, readVersion_exact h₂ hlen₂ hempty₂⟩

end Exact

/-- A ServerHello with two extensions, one of them of an unknown type, in front of another byte. -/
theorem encode_readVersion_serverHello :
    let _ : Webpki := ⟨Unit, fun _ => none⟩
    let random := List.replicate 32 7
    let r := [2, 0, 0, 51, 3, 3] ++ random ++
      [0, 19, 1, 0, 0, 11, 0, 43, 0, 2, 3, 4, 18, 52, 0, 1, 5, 9]
    let m : HandshakeMessagePayload :=
      ⟨.serverHello, .serverHello
        { legacyVersion := .TLSv1_2, random := ⟨random, rfl⟩
          sessionId := ⟨0, List.replicate 32 0, by decide, rfl⟩
          cipherSuite := .named 0x1301 rfl, compressionMethod := .null
          extensions := [.supportedVersions .TLSv1_3, .unknown ⟨.unknown 0x1234, ⟨[5]⟩⟩] }⟩
    r = m.encode ++ [9] ∧
      ∀ (vers₂ : ProtocolVersion) (r₂ r₂' : Bytes), readVersion vers₂ r₂ = .ok (m, r₂') →
        (messageBody r₂).length ≤ 0xffff →
        ¬ CarriesEmptyExtensions m.payload (messageBody r₂) →
        ∃ consumed, r = consumed ++ [9] ∧ r₂ = consumed ++ r₂' :=
  let _ : Webpki := ⟨Unit, fun _ => none⟩
  encode_readVersion .TLSv1_2 (by with_unfolding_all rfl) (by decide)
    (by rintro ⟨sh, hsh, hnil, -⟩; cases hsh; cases hnil)

end TeaclaveCrates.Rustls
