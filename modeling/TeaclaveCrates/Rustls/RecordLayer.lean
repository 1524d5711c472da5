import TeaclaveCrates.Rustls.Message

namespace TeaclaveCrates.Rustls

open TeaclaveCrates.Lib

/-!
# rustls — the record layer

`record_layer.rs`: the keys in use in each direction and their sequence numbers.
The encrypter and the decrypter are functions of the message and the sequence
number; the ciphers behind them are not part of the model.
-/

def SEQ_SOFT_LIMIT : Nat := 0xffff_ffff_ffff_0000

def SEQ_HARD_LIMIT : Nat := 0xffff_ffff_ffff_fffe

/-- `enum DirectionState`. -/
inductive DirectionState
  | invalid
  | prepared
  | active
deriving DecidableEq, Repr

/-- `trait MessageEncrypter`. -/
abbrev MessageEncrypter := PlainMessage → Nat → Except Error OpaqueMessage

/-- `trait MessageDecrypter`. -/
abbrev MessageDecrypter := OpaqueMessage → Nat → Except Error PlainMessage

/-- `RecordLayer`. -/
structure RecordLayer where
  messageEncrypter : MessageEncrypter
  messageDecrypter : MessageDecrypter
  writeSeq : Nat
  readSeq : Nat
  encryptState : DirectionState
  decryptState : DirectionState
  trialDecryptionLen : Option Nat

/-- `Decrypted`. -/
structure Decrypted where
  wantCloseBeforeDecrypt : Bool
  plaintext : PlainMessage

namespace RecordLayer

/-- `RecordLayer::new`: the invalid ciphers fail. -/
def new : RecordLayer where
  messageEncrypter _ _ := .error .encryptError
  messageDecrypter _ _ := .error .decryptError
  writeSeq := 0
  readSeq := 0
  encryptState := .invalid
  decryptState := .invalid
  trialDecryptionLen := none

/-- `doing_trial_decryption`. -/
def doingTrialDecryption (rl : RecordLayer) (requested : Nat) : Bool × RecordLayer :=
  match rl.trialDecryptionLen with
  | some value =>
    if requested ≤ value then (true, { rl with trialDecryptionLen := some (value - requested) })
    else (false, rl)
  | none => (false, rl)

/-- `set_message_encrypter`: a new key starts at sequence number 0. -/
def setMessageEncrypter (rl : RecordLayer) (cipher : MessageEncrypter) : RecordLayer :=
  { rl with messageEncrypter := cipher, writeSeq := 0, encryptState := .active }

/-- `set_message_decrypter`. -/
def setMessageDecrypter (rl : RecordLayer) (cipher : MessageDecrypter) : RecordLayer :=
  { rl with
    messageDecrypter := cipher, readSeq := 0, decryptState := .active, trialDecryptionLen := none }

/-- `wants_close_before_encrypt`. -/
def wantsCloseBeforeEncrypt (rl : RecordLayer) : Bool := rl.writeSeq = SEQ_SOFT_LIMIT

/-- `encrypt_exhausted`. -/
def encryptExhausted (rl : RecordLayer) : Bool := SEQ_HARD_LIMIT ≤ rl.writeSeq

/-- `is_encrypting`. -/
def isEncrypting (rl : RecordLayer) : Bool := rl.encryptState = .active

/-- `decrypt_incoming`. -/
def decryptIncoming (rl : RecordLayer) (encr : OpaqueMessage) :
    Except Error (Option Decrypted) × RecordLayer :=
  if rl.decryptState ≠ .active then
    (.ok (some ⟨false, encr.intoPlainMessage⟩), rl)
  else
    match rl.messageDecrypter encr rl.readSeq with
    | .ok plaintext =>
      (.ok (some ⟨rl.readSeq = SEQ_SOFT_LIMIT, plaintext⟩), { rl with readSeq := rl.readSeq + 1 })
    | .error .decryptError =>
      match rl.doingTrialDecryption encr.payload.bytes.length with
      | (true, rl) => (.ok none, rl)
      | (false, rl) => (.error .decryptError, rl)
    | .error err => (.error err, rl)

/-- `encrypt_outgoing`; `none` where one of its assertions or its `unwrap` fails. -/
def encryptOutgoing (rl : RecordLayer) (plain : PlainMessage) :
    Option (OpaqueMessage × RecordLayer) :=
  if rl.encryptState = .active ∧ rl.encryptExhausted = false then
    match rl.messageEncrypter plain rl.writeSeq with
    | .ok m => some (m, { rl with writeSeq := rl.writeSeq + 1 })
    | .error _ => none
  else
    none

end RecordLayer

end TeaclaveCrates.Rustls
