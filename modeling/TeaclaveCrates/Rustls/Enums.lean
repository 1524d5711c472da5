import TeaclaveCrates.Rustls.Codec

namespace TeaclaveCrates.Rustls

open TeaclaveCrates.Lib

/-!
# rustls — the protocol enumerations

`enums.rs` and `msgs/enums.rs`.  Each enumeration is made by `enum_builder!`: named
variants with a code, and `Unknown` for every other code.

* `EnumU8` / `EnumU16` — what the macro is given, and the `from` and `get` it makes;
* `getU8_ofU8`, `getU16_ofU16` — a code survives the way in and out, named or not;
  hence reading an enumeration is exact.
-/

variable {α : Type}

/-! ### The macro -/

/-- `enum_builder! { @U8 .. }`. -/
class EnumU8 (α : Type) where
  name : String
  /-- The named variants, in order. -/
  variants : List α
  getU8 : α → UInt8
  unknown : UInt8 → α
  getU8_unknown : ∀ x, getU8 (unknown x) = x

/-- `enum_builder! { @U16 .. }`. -/
class EnumU16 (α : Type) where
  name : String
  /-- The named variants, in order. -/
  variants : List α
  getU16 : α → UInt16
  unknown : UInt16 → α
  getU16_unknown : ∀ x, getU16 (unknown x) = x

/-- `From<u8>`: the first variant with the code, else `Unknown`. -/
def EnumU8.ofU8 [EnumU8 α] (x : UInt8) : α :=
  ((EnumU8.variants : List α).find? (EnumU8.getU8 · == x)).getD (EnumU8.unknown x)

/-- `From<u16>`: the first variant with the code, else `Unknown`. -/
def EnumU16.ofU16 [EnumU16 α] (x : UInt16) : α :=
  ((EnumU16.variants : List α).find? (EnumU16.getU16 · == x)).getD (EnumU16.unknown x)

theorem EnumU8.getU8_ofU8 [EnumU8 α] (x : UInt8) : EnumU8.getU8 (EnumU8.ofU8 x : α) = x := by
  unfold EnumU8.ofU8
  cases h : (EnumU8.variants : List α).find? (EnumU8.getU8 · == x) with
  | none => exact EnumU8.getU8_unknown x
  | some v => simpa using List.find?_some h

theorem EnumU16.getU16_ofU16 [EnumU16 α] (x : UInt16) :
    EnumU16.getU16 (EnumU16.ofU16 x : α) = x := by
  unfold EnumU16.ofU16
  cases h : (EnumU16.variants : List α).find? (EnumU16.getU16 · == x) with
  | none => exact EnumU16.getU16_unknown x
  | some v => simpa using List.find?_some h

/-- Reads a code with `m` and names it; too few bytes are reported under the
    enumeration's own name. -/
def readEnum {β : Type} [Codec β] (name : String) (ofCode : β → α) : Read α := fun r =>
  match (Codec.read r : Except InvalidMessage (β × Bytes)) with
  | .ok (x, r') => .ok (ofCode x, r')
  | .error _ => .error (.missingData name)

theorem consumes_enum {β : Type} [Codec β] [LawfulCodec β] {name : String} {ofCode : β → α}
    {getCode : α → β} (h : ∀ x, getCode (ofCode x) = x) (n : Nat) :
    Consumes n [] (readEnum name ofCode) (fun a => Codec.encode (getCode a)) := by
  intro r a r' hlen hok
  unfold readEnum at hok
  split at hok
  · next x r'' hx =>
    cases hok
    show [] ++ r = Codec.encode (getCode (ofCode x)) ++ r'
    rw [h]
    exact LawfulCodec.exact n r x _ hlen hx
  · cases hok

instance (priority := low) [EnumU8 α] : Codec α where
  encode a := Codec.encode (EnumU8.getU8 a)
  read := readEnum (EnumU8.name α) EnumU8.ofU8

instance (priority := low) [EnumU16 α] : Codec α where
  encode a := Codec.encode (EnumU16.getU16 a)
  read := readEnum (EnumU16.name α) EnumU16.ofU16

instance (priority := low) [EnumU8 α] : LawfulCodec α where
  exact := consumes_enum EnumU8.getU8_ofU8

instance (priority := low) [EnumU16 α] : LawfulCodec α where
  exact := consumes_enum EnumU16.getU16_ofU16

theorem length_encode_enumU8 [EnumU8 α] (a : α) : (Codec.encode a).length = 1 := rfl

theorem length_encode_enumU16 [EnumU16 α] (a : α) : (Codec.encode a).length = 2 := rfl

/-! ### The enumerations -/

/-- `enum HandshakeType`. -/
inductive HandshakeType
  | helloRequest | clientHello | serverHello | helloVerifyRequest | newSessionTicket
  | endOfEarlyData | helloRetryRequest | encryptedExtensions | certificate | serverKeyExchange
  | certificateRequest | serverHelloDone | certificateVerify | clientKeyExchange | finished
  | certificateURL | certificateStatus | keyUpdate | messageHash
  | unknown (x : UInt8)
deriving DecidableEq, Repr

instance : EnumU8 HandshakeType where
  name := "HandshakeType"
  variants := [.helloRequest, .clientHello, .serverHello, .helloVerifyRequest,
    .newSessionTicket, .endOfEarlyData, .helloRetryRequest, .encryptedExtensions, .certificate,
    .serverKeyExchange, .certificateRequest, .serverHelloDone, .certificateVerify,
    .clientKeyExchange, .finished, .certificateURL, .certificateStatus, .keyUpdate,
    .messageHash]
  getU8
    | .helloRequest => 0x00 | .clientHello => 0x01 | .serverHello => 0x02
    | .helloVerifyRequest => 0x03 | .newSessionTicket => 0x04 | .endOfEarlyData => 0x05
    | .helloRetryRequest => 0x06 | .encryptedExtensions => 0x08 | .certificate => 0x0b
    | .serverKeyExchange => 0x0c | .certificateRequest => 0x0d | .serverHelloDone => 0x0e
    | .certificateVerify => 0x0f | .clientKeyExchange => 0x10 | .finished => 0x14
    | .certificateURL => 0x15 | .certificateStatus => 0x16 | .keyUpdate => 0x18
    | .messageHash => 0xfe
    | .unknown x => x
  unknown := .unknown
  getU8_unknown _ := rfl

/-- `enum ContentType`. -/
inductive ContentType
  | changeCipherSpec | alert | handshake | applicationData | heartbeat
  | unknown (x : UInt8)
deriving DecidableEq, Repr

instance : EnumU8 ContentType where
  name := "ContentType"
  variants := [.changeCipherSpec, .alert, .handshake, .applicationData, .heartbeat]
  getU8
    | .changeCipherSpec => 0x14 | .alert => 0x15 | .handshake => 0x16
    | .applicationData => 0x17 | .heartbeat => 0x18
    | .unknown x => x
  unknown := .unknown
  getU8_unknown _ := rfl

/-- `enum AlertLevel`. -/
inductive AlertLevel
  | warning | fatal
  | unknown (x : UInt8)
deriving DecidableEq, Repr

instance : EnumU8 AlertLevel where
  name := "AlertLevel"
  variants := [.warning, .fatal]
  getU8
    | .warning => 0x01 | .fatal => 0x02
    | .unknown x => x
  unknown := .unknown
  getU8_unknown _ := rfl

/-- `enum AlertDescription`. -/
inductive AlertDescription
  | closeNotify | unexpectedMessage | badRecordMac | decryptionFailed | recordOverflow
  | decompressionFailure | handshakeFailure | noCertificate | badCertificate
  | unsupportedCertificate | certificateRevoked | certificateExpired | certificateUnknown
  | illegalParameter | unknownCA | accessDenied | decodeError | decryptError
  | exportRestriction | protocolVersion | insufficientSecurity | internalError
  | inappropriateFallback | userCanceled | noRenegotiation | missingExtension
  | unsupportedExtension | certificateUnobtainable | unrecognisedName
  | badCertificateStatusResponse | badCertificateHashValue | unknownPSKIdentity
  | certificateRequired | noApplicationProtocol
  | unknown (x : UInt8)
deriving DecidableEq, Repr

instance : EnumU8 AlertDescription where
  name := "AlertDescription"
  variants := [.closeNotify, .unexpectedMessage, .badRecordMac, .decryptionFailed,
    .recordOverflow, .decompressionFailure, .handshakeFailure, .noCertificate, .badCertificate,
    .unsupportedCertificate, .certificateRevoked, .certificateExpired, .certificateUnknown,
    .illegalParameter, .unknownCA, .accessDenied, .decodeError, .decryptError,
    .exportRestriction, .protocolVersion, .insufficientSecurity, .internalError,
    .inappropriateFallback, .userCanceled, .noRenegotiation, .missingExtension,
    .unsupportedExtension, .certificateUnobtainable, .unrecognisedName,
    .badCertificateStatusResponse, .badCertificateHashValue, .unknownPSKIdentity,
    .certificateRequired, .noApplicationProtocol]
  getU8
    | .closeNotify => 0x00 | .unexpectedMessage => 0x0a | .badRecordMac => 0x14
    | .decryptionFailed => 0x15 | .recordOverflow => 0x16 | .decompressionFailure => 0x1e
    | .handshakeFailure => 0x28 | .noCertificate => 0x29 | .badCertificate => 0x2a
    | .unsupportedCertificate => 0x2b | .certificateRevoked => 0x2c
    | .certificateExpired => 0x2d | .certificateUnknown => 0x2e | .illegalParameter => 0x2f
    | .unknownCA => 0x30 | .accessDenied => 0x31 | .decodeError => 0x32 | .decryptError => 0x33
    | .exportRestriction => 0x3c | .protocolVersion => 0x46 | .insufficientSecurity => 0x47
    | .internalError => 0x50 | .inappropriateFallback => 0x56 | .userCanceled => 0x5a
    | .noRenegotiation => 0x64 | .missingExtension => 0x6d | .unsupportedExtension => 0x6e
    | .certificateUnobtainable => 0x6f | .unrecognisedName => 0x70
    | .badCertificateStatusResponse => 0x71 | .badCertificateHashValue => 0x72
    | .unknownPSKIdentity => 0x73 | .certificateRequired => 0x74
    | .noApplicationProtocol => 0x78
    | .unknown x => x
  unknown := .unknown
  getU8_unknown _ := rfl

/-- `enum ProtocolVersion`. -/
inductive ProtocolVersion
  | SSLv2 | SSLv3 | TLSv1_0 | TLSv1_1 | TLSv1_2 | TLSv1_3 | DTLSv1_0 | DTLSv1_2 | DTLSv1_3
  | unknown (x : UInt16)
deriving DecidableEq, Repr

instance : EnumU16 ProtocolVersion where
  name := "ProtocolVersion"
  variants := [.SSLv2, .SSLv3, .TLSv1_0, .TLSv1_1, .TLSv1_2, .TLSv1_3, .DTLSv1_0, .DTLSv1_2,
    .DTLSv1_3]
  getU16
    | .SSLv2 => 0x0200 | .SSLv3 => 0x0300 | .TLSv1_0 => 0x0301 | .TLSv1_1 => 0x0302
    | .TLSv1_2 => 0x0303 | .TLSv1_3 => 0x0304 | .DTLSv1_0 => 0xfeff | .DTLSv1_2 => 0xfefd
    | .DTLSv1_3 => 0xfefc
    | .unknown x => x
  unknown := .unknown
  getU16_unknown _ := rfl

/-- `enum SignatureScheme`. -/
inductive SignatureScheme
  | RSA_PKCS1_SHA1 | ECDSA_SHA1_Legacy | RSA_PKCS1_SHA256 | ECDSA_NISTP256_SHA256
  | RSA_PKCS1_SHA384 | ECDSA_NISTP384_SHA384 | RSA_PKCS1_SHA512 | ECDSA_NISTP521_SHA512
  | RSA_PSS_SHA256 | RSA_PSS_SHA384 | RSA_PSS_SHA512 | ED25519 | ED448
  | unknown (x : UInt16)
deriving DecidableEq, Repr

instance : EnumU16 SignatureScheme where
  name := "SignatureScheme"
  variants := [.RSA_PKCS1_SHA1, .ECDSA_SHA1_Legacy, .RSA_PKCS1_SHA256, .ECDSA_NISTP256_SHA256,
    .RSA_PKCS1_SHA384, .ECDSA_NISTP384_SHA384, .RSA_PKCS1_SHA512, .ECDSA_NISTP521_SHA512,
    .RSA_PSS_SHA256, .RSA_PSS_SHA384, .RSA_PSS_SHA512, .ED25519, .ED448]
  getU16
    | .RSA_PKCS1_SHA1 => 0x0201 | .ECDSA_SHA1_Legacy => 0x0203 | .RSA_PKCS1_SHA256 => 0x0401
    | .ECDSA_NISTP256_SHA256 => 0x0403 | .RSA_PKCS1_SHA384 => 0x0501
    | .ECDSA_NISTP384_SHA384 => 0x0503 | .RSA_PKCS1_SHA512 => 0x0601
    | .ECDSA_NISTP521_SHA512 => 0x0603 | .RSA_PSS_SHA256 => 0x0804 | .RSA_PSS_SHA384 => 0x0805
    | .RSA_PSS_SHA512 => 0x0806 | .ED25519 => 0x0807 | .ED448 => 0x0808
    | .unknown x => x
  unknown := .unknown
  getU16_unknown _ := rfl

/-- `enum ExtensionType`. -/
inductive ExtensionType
  | serverName | maxFragmentLength | clientCertificateUrl | trustedCAKeys | truncatedHMAC
  | statusRequest | userMapping | clientAuthz | serverAuthz | certificateType | ellipticCurves
  | ecPointFormats | srp | signatureAlgorithms | useSRTP | heartbeat | alProtocolNegotiation
  | sct | padding | extendedMasterSecret | sessionTicket | preSharedKey | earlyData
  | supportedVersions | cookie | pskKeyExchangeModes | ticketEarlyDataInfo
  | certificateAuthorities | oidFilters | postHandshakeAuth | signatureAlgorithmsCert
  | keyShare | transportParameters | nextProtocolNegotiation | channelId | renegotiationInfo
  | transportParametersDraft
  | unknown (x : UInt16)
deriving DecidableEq, Repr

instance : EnumU16 ExtensionType where
  name := "ExtensionType"
  variants := [.serverName, .maxFragmentLength, .clientCertificateUrl, .trustedCAKeys,
    .truncatedHMAC, .statusRequest, .userMapping, .clientAuthz, .serverAuthz, .certificateType,
    .ellipticCurves, .ecPointFormats, .srp, .signatureAlgorithms, .useSRTP, .heartbeat,
    .alProtocolNegotiation, .sct, .padding, .extendedMasterSecret, .sessionTicket,
    .preSharedKey, .earlyData, .supportedVersions, .cookie, .pskKeyExchangeModes,
    .ticketEarlyDataInfo, .certificateAuthorities, .oidFilters, .postHandshakeAuth,
    .signatureAlgorithmsCert, .keyShare, .transportParameters, .nextProtocolNegotiation,
    .channelId, .renegotiationInfo, .transportParametersDraft]
  getU16
    | .serverName => 0x0000 | .maxFragmentLength => 0x0001 | .clientCertificateUrl => 0x0002
    | .trustedCAKeys => 0x0003 | .truncatedHMAC => 0x0004 | .statusRequest => 0x0005
    | .userMapping => 0x0006 | .clientAuthz => 0x0007 | .serverAuthz => 0x0008
    | .certificateType => 0x0009 | .ellipticCurves => 0x000a | .ecPointFormats => 0x000b
    | .srp => 0x000c | .signatureAlgorithms => 0x000d | .useSRTP => 0x000e
    | .heartbeat => 0x000f | .alProtocolNegotiation => 0x0010 | .sct => 0x0012
    | .padding => 0x0015 | .extendedMasterSecret => 0x0017 | .sessionTicket => 0x0023
    | .preSharedKey => 0x0029 | .earlyData => 0x002a | .supportedVersions => 0x002b
    | .cookie => 0x002c | .pskKeyExchangeModes => 0x002d | .ticketEarlyDataInfo => 0x002e
    | .certificateAuthorities => 0x002f | .oidFilters => 0x0030 | .postHandshakeAuth => 0x0031
    | .signatureAlgorithmsCert => 0x0032 | .keyShare => 0x0033 | .transportParameters => 0x0039
    | .nextProtocolNegotiation => 0x3374 | .channelId => 0x754f | .renegotiationInfo => 0xff01
    | .transportParametersDraft => 0xffa5
    | .unknown x => x
  unknown := .unknown
  getU16_unknown _ := rfl

/-- `enum NamedGroup`. -/
inductive NamedGroup
  | secp256r1 | secp384r1 | secp521r1 | X25519 | X448 | FFDHE2048 | FFDHE3072 | FFDHE4096
  | FFDHE6144 | FFDHE8192
  | unknown (x : UInt16)
deriving DecidableEq, Repr

instance : EnumU16 NamedGroup where
  name := "NamedGroup"
  variants := [.secp256r1, .secp384r1, .secp521r1, .X25519, .X448, .FFDHE2048, .FFDHE3072,
    .FFDHE4096, .FFDHE6144, .FFDHE8192]
  getU16
    | .secp256r1 => 0x0017 | .secp384r1 => 0x0018 | .secp521r1 => 0x0019 | .X25519 => 0x001d
    | .X448 => 0x001e | .FFDHE2048 => 0x0100 | .FFDHE3072 => 0x0101 | .FFDHE4096 => 0x0102
    | .FFDHE6144 => 0x0103 | .FFDHE8192 => 0x0104
    | .unknown x => x
  unknown := .unknown
  getU16_unknown _ := rfl

/-- `enum ECPointFormat`. -/
inductive ECPointFormat
  | uncompressed | ansiX962CompressedPrime | ansiX962CompressedChar2
  | unknown (x : UInt8)
deriving DecidableEq, Repr

instance : EnumU8 ECPointFormat where
  name := "ECPointFormat"
  variants := [.uncompressed, .ansiX962CompressedPrime, .ansiX962CompressedChar2]
  getU8
    | .uncompressed => 0x00 | .ansiX962CompressedPrime => 0x01
    | .ansiX962CompressedChar2 => 0x02
    | .unknown x => x
  unknown := .unknown
  getU8_unknown _ := rfl

/-- `enum ECCurveType`. -/
inductive ECCurveType
  | explicitPrime | explicitChar2 | namedCurve
  | unknown (x : UInt8)
deriving DecidableEq, Repr

instance : EnumU8 ECCurveType where
  name := "ECCurveType"
  variants := [.explicitPrime, .explicitChar2, .namedCurve]
  getU8
    | .explicitPrime => 0x01 | .explicitChar2 => 0x02 | .namedCurve => 0x03
    | .unknown x => x
  unknown := .unknown
  getU8_unknown _ := rfl

/-- `enum ServerNameType`. -/
inductive ServerNameType
  | hostName
  | unknown (x : UInt8)
deriving DecidableEq, Repr

instance : EnumU8 ServerNameType where
  name := "ServerNameType"
  variants := [.hostName]
  getU8
    | .hostName => 0x00
    | .unknown x => x
  unknown := .unknown
  getU8_unknown _ := rfl

/-- `enum PSKKeyExchangeMode`. -/
inductive PSKKeyExchangeMode
  | PSK_KE | PSK_DHE_KE
  | unknown (x : UInt8)
deriving DecidableEq, Repr

instance : EnumU8 PSKKeyExchangeMode where
  name := "PSKKeyExchangeMode"
  variants := [.PSK_KE, .PSK_DHE_KE]
  getU8
    | .PSK_KE => 0x00 | .PSK_DHE_KE => 0x01
    | .unknown x => x
  unknown := .unknown
  getU8_unknown _ := rfl

/-- `enum KeyUpdateRequest`. -/
inductive KeyUpdateRequest
  | updateNotRequested | updateRequested
  | unknown (x : UInt8)
deriving DecidableEq, Repr

instance : EnumU8 KeyUpdateRequest where
  name := "KeyUpdateRequest"
  variants := [.updateNotRequested, .updateRequested]
  getU8
    | .updateNotRequested => 0x00 | .updateRequested => 0x01
    | .unknown x => x
  unknown := .unknown
  getU8_unknown _ := rfl

/-- `enum CertificateStatusType`. -/
inductive CertificateStatusType
  | ocsp
  | unknown (x : UInt8)
deriving DecidableEq, Repr

instance : EnumU8 CertificateStatusType where
  name := "CertificateStatusType"
  variants := [.ocsp]
  getU8
    | .ocsp => 0x01
    | .unknown x => x
  unknown := .unknown
  getU8_unknown _ := rfl

/-- `enum ClientCertificateType`. -/
inductive ClientCertificateType
  | rsaSign | dssSign | rsaFixedDH | dssFixedDH | rsaEphemeralDH | dssEphemeralDH | fortezzaDMS
  | ecdsaSign | rsaFixedECDH | ecdsaFixedECDH
  | unknown (x : UInt8)
deriving DecidableEq, Repr

instance : EnumU8 ClientCertificateType where
  name := "ClientCertificateType"
  variants := [.rsaSign, .dssSign, .rsaFixedDH, .dssFixedDH, .rsaEphemeralDH, .dssEphemeralDH,
    .fortezzaDMS, .ecdsaSign, .rsaFixedECDH, .ecdsaFixedECDH]
  getU8
    | .rsaSign => 0x01 | .dssSign => 0x02 | .rsaFixedDH => 0x03 | .dssFixedDH => 0x04
    | .rsaEphemeralDH => 0x05 | .dssEphemeralDH => 0x06 | .fortezzaDMS => 0x14
    | .ecdsaSign => 0x40 | .rsaFixedECDH => 0x41 | .ecdsaFixedECDH => 0x42
    | .unknown x => x
  unknown := .unknown
  getU8_unknown _ := rfl

/-- `enum Compression`. -/
inductive Compression
  | null | deflate | LSZ
  | unknown (x : UInt8)
deriving DecidableEq, Repr

instance : EnumU8 Compression where
  name := "Compression"
  variants := [.null, .deflate, .LSZ]
  getU8
    | .null => 0x00 | .deflate => 0x01 | .LSZ => 0x40
    | .unknown x => x
  unknown := .unknown
  getU8_unknown _ := rfl

/-! ### Cipher suites -/

/-- The codes `enum CipherSuite` has a name for, as ranges with both ends. -/
def cipherSuiteRanges : List (Nat × Nat) :=
  [(0x0000, 0x005c), (0x0060, 0x006d), (0x0072, 0x0074), (0x0077, 0x0079), (0x007c, 0x007e),
    (0x0080, 0x00c5), (0x00ff, 0x00ff), (0x1301, 0x1305), (0xc001, 0xc0af), (0xcca8, 0xccae),
    (0xfefe, 0xfeff)]

/-- Whether `enum CipherSuite` has a name for the code. -/
def CipherSuite.isNamed (code : UInt16) : Bool :=
  cipherSuiteRanges.any fun range => range.1 ≤ code.toNat && code.toNat ≤ range.2

/-- `enum CipherSuite`. Its 376 named variants are kept as their codes: nothing
    here tells one suite from another. -/
inductive CipherSuite
  | named (code : UInt16) (h : CipherSuite.isNamed code = true)
  | unknown (code : UInt16)
deriving DecidableEq, Repr

/-- `CipherSuite::get_u16`. -/
def CipherSuite.getU16 : CipherSuite → UInt16
  | .named code _ => code
  | .unknown code => code

/-- `From<u16> for CipherSuite`. -/
def CipherSuite.ofU16 (code : UInt16) : CipherSuite :=
  if h : CipherSuite.isNamed code = true then .named code h else .unknown code

theorem CipherSuite.getU16_ofU16 (code : UInt16) :
    (CipherSuite.ofU16 code).getU16 = code := by
  unfold CipherSuite.ofU16
  split <;> rfl

instance : Codec CipherSuite where
  encode a := Codec.encode a.getU16
  read := readEnum "CipherSuite" CipherSuite.ofU16

instance : LawfulCodec CipherSuite where
  exact := consumes_enum CipherSuite.getU16_ofU16

end TeaclaveCrates.Rustls
