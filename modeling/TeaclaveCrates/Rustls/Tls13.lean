import TeaclaveCrates.Rustls.RecordLayer

namespace TeaclaveCrates.Rustls

open TeaclaveCrates.Lib

/-!
# rustls — record protection and traffic keys of TLS 1.3

`tls13/mod.rs` and the traffic part of `tls13/key_schedule.rs`.  HKDF and the AEAD
are parameters: a suite gives the derivations and the two operations of the cipher,
`Tls13CipherSuite.Lawful` says what is assumed of them.

* `Tls13MessageEncrypter.encrypt` / `Tls13MessageDecrypter.decrypt` — the inner
  plaintext with its content type, sealed under a nonce made from the sequence number;
* `KeyScheduleTraffic` — the secrets in use and their update;
* `decrypt_encrypt` — what is encrypted with a secret and a sequence number is
  decrypted with these.
-/

def MAX_FRAGMENT_LEN : Nat := 16384

/-- `ring::aead::NONCE_LEN`. -/
def NONCE_LEN : Nat := 12

/-- `Tls13CipherSuite`, with the operations of its HKDF and AEAD algorithms. -/
structure Tls13CipherSuite where
  /-- `hkdf::Prk`. -/
  Prk : Type
  /-- `aead::LessSafeKey`. -/
  Key : Type
  /-- `derive_next`: the label is "traffic upd". -/
  deriveNext : Prk → Prk
  deriveTrafficKey : Prk → Key
  deriveTrafficIv : Prk → Bytes
  tagLen : Nat
  /-- Of a key, a nonce, the additional data and the plaintext. -/
  sealInPlaceAppendTag : Key → Bytes → Bytes → Bytes → Option Bytes
  /-- Of a key, a nonce, the additional data and the ciphertext. -/
  openInPlace : Key → Bytes → Bytes → Bytes → Option Bytes

/-- What is assumed of a suite: the sizes, that a fragment can be sealed and opened
    again, and that it is opened under the same key and nonce only. -/
structure Tls13CipherSuite.Lawful (suite : Tls13CipherSuite) : Prop where
  ivLen : ∀ secret, (suite.deriveTrafficIv secret).length = NONCE_LEN
  tagLen_le : suite.tagLen ≤ 16
  open_seal : ∀ key nonce aad plain, nonce.length = NONCE_LEN →
    plain.length ≤ MAX_FRAGMENT_LEN + 1 →
    ∃ cipher, suite.sealInPlaceAppendTag key nonce aad plain = some cipher ∧
      cipher.length = plain.length + suite.tagLen ∧
      suite.openInPlace key nonce aad cipher = some plain
  open_only : ∀ key nonce aad plain cipher key' nonce' aad' plain', nonce.length = NONCE_LEN →
    nonce'.length = NONCE_LEN → suite.sealInPlaceAppendTag key nonce aad plain = some cipher →
    suite.openInPlace key' nonce' aad' cipher = some plain' → key' = key ∧ nonce' = nonce

/-- `make_nonce`. -/
def makeNonce (iv : Bytes) (seq : Nat) : Bytes :=
  (List.replicate 4 0 ++ toBE 8 seq).zipWith (· ^^^ ·) iv

theorem length_makeNonce {iv : Bytes} (h : iv.length = NONCE_LEN) (seq : Nat) :
    (makeNonce iv seq).length = NONCE_LEN := by
  rw [makeNonce, List.length_zipWith, List.length_append, length_toBE, List.length_replicate, h]
  rfl

/-- `make_tls13_aad`. -/
def makeTls13Aad (len : Nat) : Bytes := [0x17, 0x3, 0x3] ++ toBE 2 len

/-- `unpad_tls13`: drops the zeros at the end and the content type before them. -/
def unpadTls13 (v : Bytes) : ContentType × Bytes :=
  match v.reverse.dropWhile (· == 0) with
  | [] => (.unknown 0, [])
  | contentType :: rest => (EnumU8.ofU8 contentType, rest.reverse)

section Suite

variable (suite : Tls13CipherSuite)

/-- `Tls13MessageEncrypter`. -/
structure Tls13MessageEncrypter where
  encKey : suite.Key
  iv : Bytes

/-- `Tls13MessageDecrypter`. -/
structure Tls13MessageDecrypter where
  decKey : suite.Key
  iv : Bytes

/-- `KeyScheduleTraffic`: the traffic secrets in use. -/
structure KeyScheduleTraffic where
  currentClientTrafficSecret : suite.Prk
  currentServerTrafficSecret : suite.Prk

end Suite

variable {suite : Tls13CipherSuite}

/-- `Tls13MessageEncrypter::encrypt`. -/
def Tls13MessageEncrypter.encrypt (e : Tls13MessageEncrypter suite) : MessageEncrypter :=
  fun msg seq =>
    let totalLen := msg.payload.bytes.length + 1 + suite.tagLen
    let payload := msg.payload.bytes ++ Codec.encode msg.typ
    match suite.sealInPlaceAppendTag e.encKey (makeNonce e.iv seq) (makeTls13Aad totalLen) payload with
    | some payload => .ok ⟨.applicationData, .TLSv1_2, ⟨payload⟩⟩
    | none => .error (.general "encrypt failed")

/-- `Tls13MessageDecrypter::decrypt`. -/
def Tls13MessageDecrypter.decrypt (d : Tls13MessageDecrypter suite) : MessageDecrypter :=
  fun msg seq =>
    let payload := msg.payload.bytes
    if payload.length < suite.tagLen then
      .error .decryptError
    else
      match suite.openInPlace d.decKey (makeNonce d.iv seq) (makeTls13Aad payload.length) payload with
      | none => .error .decryptError
      | some payload =>
        if payload.length > MAX_FRAGMENT_LEN + 1 then
          .error .peerSentOversizedRecord
        else
          let (typ, payload) := unpadTls13 payload
          if typ = .unknown 0 then
            .error (.peerMisbehaved .illegalTlsInnerPlaintext)
          else if payload.length > MAX_FRAGMENT_LEN then
            .error .peerSentOversizedRecord
          else
            .ok ⟨typ, .TLSv1_3, ⟨payload⟩⟩

/-- The encrypter `set_encrypter` installs for a secret. -/
def deriveEncrypter (suite : Tls13CipherSuite) (secret : suite.Prk) : MessageEncrypter :=
  Tls13MessageEncrypter.encrypt ⟨suite.deriveTrafficKey secret, suite.deriveTrafficIv secret⟩

/-- `derive_decrypter`. -/
def deriveDecrypter (suite : Tls13CipherSuite) (secret : suite.Prk) : MessageDecrypter :=
  Tls13MessageDecrypter.decrypt ⟨suite.deriveTrafficKey secret, suite.deriveTrafficIv secret⟩

/-- `enum Side`. -/
inductive Side
  | client
  | server
deriving DecidableEq, Repr

/-- `Side::peer`. -/
def Side.peer : Side → Side
  | .client => .server
  | .server => .client

namespace KeyScheduleTraffic

/-- The secret one side sends with. -/
def current (ks : KeyScheduleTraffic suite) : Side → suite.Prk
  | .client => ks.currentClientTrafficSecret
  | .server => ks.currentServerTrafficSecret

/-- `next_application_traffic_secret`. -/
def nextApplicationTrafficSecret (ks : KeyScheduleTraffic suite) (side : Side) :
    suite.Prk × KeyScheduleTraffic suite :=
  let secret := suite.deriveNext (ks.current side)
  match side with
  | .client => (secret, { ks with currentClientTrafficSecret := secret })
  | .server => (secret, { ks with currentServerTrafficSecret := secret })

variable (ks : KeyScheduleTraffic suite)

@[simp] theorem next_secret (side : Side) :
    (ks.nextApplicationTrafficSecret side).1 = suite.deriveNext (ks.current side) := by
  cases side <;> rfl

@[simp] theorem next_current (side : Side) :
    (ks.nextApplicationTrafficSecret side).2.current side = suite.deriveNext (ks.current side) := by
  cases side <;> rfl

/-- Updating one direction leaves the other. -/
@[simp] theorem next_peer_current (side : Side) :
    (ks.nextApplicationTrafficSecret side.peer).2.current side = ks.current side := by
  cases side <;> rfl

end KeyScheduleTraffic

/-! ### Sealing and opening -/

/-- What the traffic state sends: a fragment with one of three content types. -/
structure PlainMessage.Fragment (m : PlainMessage) : Prop where
  size : m.payload.bytes.length ≤ MAX_FRAGMENT_LEN
  typ : m.typ = .applicationData ∨ m.typ = .alert ∨ m.typ = .handshake

/-- A content type at the end is found again. -/
theorem unpadTls13_append {m : PlainMessage} (h : m.Fragment) :
    unpadTls13 (m.payload.bytes ++ Codec.encode m.typ) = (m.typ, m.payload.bytes) := by
  rcases h.typ with ht | ht | ht <;> rw [ht, unpadTls13, List.reverse_append] <;>
    simp [Codec.encode, EnumU8.getU8] <;> decide

/-- **Record protection.** A fragment is encrypted, and decrypted again with the same
    secret and sequence number, as a TLS 1.3 message. -/
theorem decrypt_encrypt (hsuite : suite.Lawful) (secret : suite.Prk) {m : PlainMessage}
    (h : m.Fragment) (seq : Nat) :
    ∃ payload, deriveEncrypter suite secret m seq = .ok ⟨.applicationData, .TLSv1_2, ⟨payload⟩⟩ ∧
      payload.length < OpaqueMessage.MAX_PAYLOAD.toNat ∧
      deriveDecrypter suite secret ⟨.applicationData, .TLSv1_2, ⟨payload⟩⟩ seq =
        .ok { m with version := .TLSv1_3 } := by
  have hlen : (m.payload.bytes ++ Codec.encode m.typ).length = m.payload.bytes.length + 1 := by
    rw [List.length_append, length_encode_enumU8]
  have hsize := h.size
  have htag := hsuite.tagLen_le
  have hmax : OpaqueMessage.MAX_PAYLOAD.toNat = 18432 := rfl
  simp only [MAX_FRAGMENT_LEN] at hsize
  obtain ⟨cipher, hseal, hclen, hopen⟩ :=
    hsuite.open_seal (suite.deriveTrafficKey secret)
      (makeNonce (suite.deriveTrafficIv secret) seq)
      (makeTls13Aad (m.payload.bytes.length + 1 + suite.tagLen))
      (m.payload.bytes ++ Codec.encode m.typ) (length_makeNonce (hsuite.ivLen secret) seq)
      (by rw [hlen, MAX_FRAGMENT_LEN]; omega)
  have hunknown : m.typ ≠ .unknown 0 := by
    rcases h.typ with ht | ht | ht <;> rw [ht] <;> simp
  refine ⟨cipher, ?_, by omega, ?_⟩
  · simp [deriveEncrypter, Tls13MessageEncrypter.encrypt, hseal]
  · simp only [deriveDecrypter, Tls13MessageDecrypter.decrypt, hclen, hopen, hlen,
      unpadTls13_append h]
    rw [if_neg (by omega), if_neg (by rw [MAX_FRAGMENT_LEN]; omega), if_neg hunknown,
      if_neg (by rw [MAX_FRAGMENT_LEN]; omega)]

end TeaclaveCrates.Rustls
