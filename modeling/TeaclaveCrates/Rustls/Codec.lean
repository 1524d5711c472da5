import TeaclaveCrates.Lib.Parser

namespace TeaclaveCrates.Rustls

open TeaclaveCrates.Lib
open ByteParser (bind_ok pure_ok take take_ok)

/-!
# rustls — the wire codec

`msgs/codec.rs` and `msgs/base.rs`: the trait every part of a TLS message
implements, for integers, length-prefixed payloads and lists.

* `Codec` — `encode` and `read`; a `Reader` is the bytes after its cursor;
* `LawfulCodec` — reading is exact: what was consumed is the encoding of what was
  read;
* `TlsListElement` — the elements of lists, with the proof that reading one makes
  progress, so that the loop of `Vec::read` ends.
-/

/-- `enum InvalidMessage`, as far as the message codecs raise it. -/
inductive InvalidMessage
  | handshakePayloadTooLarge
  | invalidCcs
  | invalidContentType
  | invalidCertificateStatusType
  | invalidEmptyPayload
  | invalidKeyUpdate
  | invalidServerName
  | messageTooLarge
  | messageTooShort
  | missingData (name : String)
  | noSignatureSchemes
  | trailingData (name : String)
  | unexpectedMessage (name : String)
  | unknownProtocolVersion
  | unsupportedCompression
  | unsupportedCurveType
deriving DecidableEq, Repr

/-- Reading from a `Reader`. -/
abbrev Read := ByteParser InvalidMessage

/-- `Reader::sub`: the next `length` bytes, to be read on their own. -/
def sub (length : Nat) : Read Bytes := take .messageTooShort length

/-- `Reader::expect_empty`, of a sub-reader with `left` unread. -/
def expectEmpty (left : Bytes) (name : String) : Read Unit :=
  if left.isEmpty then pure () else throw (.trailingData name)

/-- `trait Codec`. -/
class Codec (α : Type) where
  encode : α → Bytes
  read : Read α

/-- Reading is exact, on inputs of any length. -/
class LawfulCodec (α : Type) [Codec α] : Prop where
  exact : ∀ n, Consumes n [] (Codec.read : Read α) Codec.encode

variable {α β : Type}

variable {n : Nat}

/-- The rule for one `T::read(r)?` in a `do` block. -/
theorem consumes_read [Codec α] [LawfulCodec α] {before : Bytes} {f : α → Read β}
    {encode : β → Bytes} (hf : ∀ a, Consumes n (before ++ Codec.encode a) (f a) encode) :
    Consumes n before (Codec.read >>= f) encode :=
  .bind (LawfulCodec.exact n) hf

/-! ### Integers -/

instance : Codec UInt8 where
  encode x := [x]
  read := do
    let b ← take (.missingData "u8") 1
    return UInt8.ofNat (ofBE b)

instance : Codec UInt16 where
  encode x := toBE 2 x.toNat
  read := do
    let b ← take (.missingData "u8") 2
    return UInt16.ofNat (ofBE b)

/-- `u24`: a `u32` of which three bytes are sent. -/
structure U24 where
  val : UInt32
deriving DecidableEq, Repr

instance : Codec U24 where
  encode x := toBE 3 x.val.toNat
  read := do
    let b ← take (.missingData "u24") 3
    return ⟨UInt32.ofNat (ofBE b)⟩

instance : Codec UInt32 where
  encode x := toBE 4 x.toNat
  read := do
    let b ← take (.missingData "u32") 4
    return UInt32.ofNat (ofBE b)

/-- Taking `w` bytes and making a number of them is exact. -/
theorem consumes_uint {e : InvalidMessage} {w : Nat} {ofBytes : Bytes → α} (toNat : α → Nat)
    (h : ∀ b : Bytes, b.length = w → toNat (ofBytes b) = ofBE b) :
    Consumes n [] (do let b ← take e w; return ofBytes b : Read α)
      (fun x => toBE w (toNat x)) := by
  intro r x r' _ hok
  obtain ⟨b, r₁, hb, hx⟩ := bind_ok.mp hok
  obtain ⟨rfl, rfl⟩ := pure_ok.mp hx
  obtain ⟨rfl, hw⟩ := take_ok.mp hb
  simp only [List.nil_append]
  rw [h b hw, ← hw, toBE_ofBE]

private theorem ofBE_lt_of_length {b : Bytes} {w : Nat} (h : b.length = w) : ofBE b < 256 ^ w :=
  h ▸ ofBE_lt b

instance : LawfulCodec UInt8 where
  exact n := by
    have henc : (Codec.encode : UInt8 → Bytes) = fun x => toBE 1 x.toNat := by
      funext x
      simp [Codec.encode, toBE]
    rw [henc]
    refine consumes_uint UInt8.toNat fun b hb => ?_
    have := ofBE_lt_of_length hb
    rw [UInt8.toNat_ofNat', Nat.mod_eq_of_lt (by omega)]

instance : LawfulCodec UInt16 where
  exact n := consumes_uint UInt16.toNat fun b hb => by
    have := ofBE_lt_of_length hb
    rw [UInt16.toNat_ofNat', Nat.mod_eq_of_lt (by omega)]

instance : LawfulCodec U24 where
  exact n := consumes_uint (fun x : U24 => x.val.toNat) fun b hb => by
    have := ofBE_lt_of_length hb
    show (UInt32.ofNat (ofBE b)).toNat = ofBE b
    rw [UInt32.toNat_ofNat', Nat.mod_eq_of_lt (by omega)]

instance : LawfulCodec UInt32 where
  exact n := consumes_uint UInt32.toNat fun b hb => by
    have := ofBE_lt_of_length hb
    rw [UInt32.toNat_ofNat', Nat.mod_eq_of_lt (by omega)]

/-! ### Payloads -/

/-- `Payload`: bytes whose length is known from outside. -/
structure Payload where
  bytes : Bytes
deriving DecidableEq, Repr

instance : Codec Payload where
  encode p := p.bytes
  read := do return ⟨← ByteParser.rest⟩

instance : LawfulCodec Payload where
  exact _ := .bind .rest fun _ => .pure rfl

/-- The common shape of `PayloadU8`, `PayloadU16`, `PayloadU24` and `Certificate`:
    a length read as a number, then so many bytes. -/
def readSized [Codec β] (toNat : β → Nat) : Read Bytes := do
  let len ← (Codec.read : Read β)
  sub (toNat len)

/-- A length prefix of `w` bytes, then the bytes. -/
def encodeSized (w : Nat) (bytes : Bytes) : Bytes := toBE w bytes.length ++ bytes

theorem consumes_sized [Codec β] [LawfulCodec β] {w : Nat} {toNat : β → Nat}
    (h : ∀ x : β, Codec.encode x = toBE w (toNat x)) :
    Consumes n [] (readSized toNat) (encodeSized w) := by
  intro r x r' hlen hok
  obtain ⟨len, r₁, hl, hx⟩ := bind_ok.mp hok
  obtain ⟨rfl, hlen'⟩ := take_ok.mp hx
  have hr := LawfulCodec.exact n r len _ hlen hl
  rw [hr, h, encodeSized, hlen', List.append_assoc]

/-- `PayloadU8`. -/
structure PayloadU8 where
  bytes : Bytes
deriving DecidableEq, Repr

instance : Codec PayloadU8 where
  encode p := encodeSized 1 p.bytes
  read := do return ⟨← readSized UInt8.toNat⟩

/-- `PayloadU16`. -/
structure PayloadU16 where
  bytes : Bytes
deriving DecidableEq, Repr

instance : Codec PayloadU16 where
  encode p := encodeSized 2 p.bytes
  read := do return ⟨← readSized UInt16.toNat⟩

/-- `PayloadU24`. -/
structure PayloadU24 where
  bytes : Bytes
deriving DecidableEq, Repr

instance : Codec PayloadU24 where
  encode p := encodeSized 3 p.bytes
  read := do return ⟨← readSized fun x : U24 => x.val.toNat⟩

instance : LawfulCodec PayloadU8 where
  exact _ := .bind (consumes_sized (w := 1) fun x => by simp [Codec.encode, toBE])
    fun _ => .pure rfl

instance : LawfulCodec PayloadU16 where
  exact _ := .bind (consumes_sized fun _ => rfl) fun _ => .pure rfl

instance : LawfulCodec PayloadU24 where
  exact _ := .bind (consumes_sized fun _ => rfl) fun _ => .pure rfl

/-! ### Lists -/

/-- `enum ListLength`: the width of a list's length prefix. -/
inductive ListLength
  | u8
  | u16
  | u24 (max : Nat)
deriving DecidableEq, Repr

/-- `trait TlsListElement`. Reading an element consumes at least one byte. -/
class TlsListElement (α : Type) [Codec α] where
  SIZE_LEN : ListLength
  read_lt : ∀ {r r' : Bytes} {x : α}, Codec.read r = .ok (x, r') → r'.length < r.length

/-- The loop of `Vec::read`: elements until the sub-reader is used up. -/
def readElements [Codec α] [TlsListElement α] (sub : Bytes) : Except InvalidMessage (List α) :=
  if sub.isEmpty then
    .ok []
  else
    match h : (Codec.read sub : Except InvalidMessage (α × Bytes)) with
    | .error e => .error e
    | .ok (x, rest) =>
      have _ : rest.length < sub.length := TlsListElement.read_lt h
      match readElements rest with
      | .error e => .error e
      | .ok xs => .ok (x :: xs)
termination_by sub.length

/-- The length prefix of `Vec::read`. -/
def readListLength : ListLength → Read Nat
  | .u8 => do return (← (Codec.read : Read UInt8)).toNat
  | .u16 => do return (← (Codec.read : Read UInt16)).toNat
  | .u24 max => do return min (← (Codec.read : Read U24)).val.toNat max

/-- The width of the length prefix in bytes. -/
def ListLength.width : ListLength → Nat
  | .u8 => 1
  | .u16 => 2
  | .u24 _ => 3

instance [Codec α] [TlsListElement α] : Codec (List α) where
  encode xs := encodeSized (TlsListElement.SIZE_LEN α).width (xs.flatMap Codec.encode)
  read := do
    let len ← readListLength (TlsListElement.SIZE_LEN α)
    let sub ← sub len
    match readElements sub with
    | .error e => throw e
    | .ok xs => return xs

/-- The elements read account for the whole sub-reader. -/
theorem readElements_flatMap [Codec α] [TlsListElement α] [LawfulCodec α] {sub : Bytes}
    {xs : List α} (h : readElements sub = .ok xs) : sub = xs.flatMap Codec.encode := by
  induction hn : sub.length using Nat.strong_induction_on generalizing sub xs with
  | _ n ih =>
    subst hn
    rw [readElements] at h
    split at h
    · next hempty =>
      cases h
      simpa using hempty
    · split at h
      · cases h
      · next x rest hread =>
        split at h
        · cases h
        · next ys hys =>
          cases h
          have hlt := TlsListElement.read_lt hread
          have hrest := ih rest.length hlt hys rfl
          have hsub := LawfulCodec.exact sub.length sub x rest le_rfl hread
          rw [List.flatMap_cons, ← hrest]
          exact hsub

/-- A list is read exactly, if its length prefix is: the announced length is the
    one taken. -/
theorem consumes_list [Codec α] [TlsListElement α] [LawfulCodec α]
    (hlen : ∀ r k r', r.length ≤ n → k ≤ r'.length →
      readListLength (TlsListElement.SIZE_LEN α) r = .ok (k, r') →
      r = toBE (TlsListElement.SIZE_LEN α).width k ++ r') :
    Consumes n [] (Codec.read : Read (List α)) Codec.encode := by
  intro r xs r' hr hok
  obtain ⟨k, r₁, hk, hok₁⟩ := bind_ok.mp hok
  obtain ⟨body, r₂, hbody, hok₂⟩ := bind_ok.mp hok₁
  obtain ⟨rfl, hbl⟩ := take_ok.mp hbody
  have hrk := hlen r k _ hr (by rw [List.length_append]; omega) hk
  cases hys : (readElements body : Except InvalidMessage (List α)) with
  | error e =>
    rw [hys] at hok₂
    exact absurd hok₂ ByteParser.throw_ok
  | ok ys =>
    rw [hys] at hok₂
    obtain ⟨rfl, rfl⟩ := pure_ok.mp hok₂
    have hys' := readElements_flatMap hys
    show r = encodeSized _ (ys.flatMap Codec.encode) ++ r₂
    rw [← hys', encodeSized, hbl, List.append_assoc, ← hrk]

/-- The elements whose lists have a length prefix without a limit of its own. -/
class ShortListElement (α : Type) [Codec α] [TlsListElement α] : Prop where
  short : TlsListElement.SIZE_LEN α = .u8 ∨ TlsListElement.SIZE_LEN α = .u16

instance [Codec α] [TlsListElement α] [LawfulCodec α] [ShortListElement α] :
    LawfulCodec (List α) where
  exact n := by
    refine consumes_list fun r k r' hr _ hk => ?_
    rcases ShortListElement.short (α := α) with h | h
    · rw [h] at hk ⊢
      obtain ⟨x, r₁, hx, hk⟩ := bind_ok.mp hk
      obtain ⟨rfl, rfl⟩ := pure_ok.mp hk
      have := LawfulCodec.exact n r x r₁ hr hx
      simpa [Codec.encode, ListLength.width, toBE] using this
    · rw [h] at hk ⊢
      obtain ⟨x, r₁, hx, hk⟩ := bind_ok.mp hk
      obtain ⟨rfl, rfl⟩ := pure_ok.mp hk
      exact LawfulCodec.exact n r x r₁ hr hx

/-- A list with a three-byte prefix is read exactly from a message that is shorter
    than the limit: a larger announced length would not fit. -/
theorem consumes_longList [Codec α] [TlsListElement α] [LawfulCodec α] {max : Nat}
    (h : TlsListElement.SIZE_LEN α = .u24 max) (hn : n < max) :
    Consumes n [] (Codec.read : Read (List α)) Codec.encode := by
  refine consumes_list fun r k r' hr hkr hk => ?_
  rw [h] at hk ⊢
  obtain ⟨x, r₁, hx, hk⟩ := bind_ok.mp hk
  obtain ⟨rfl, rfl⟩ := pure_ok.mp hk
  have hexact := LawfulCodec.exact n r x r₁ hr hx
  have hrl : r₁.length ≤ r.length := by
    have := congrArg List.length hexact
    simp only [List.length_append, List.nil_append] at this
    omega
  have hmin : min x.val.toNat max = x.val.toNat := by omega
  rw [hmin]
  exact hexact

end TeaclaveCrates.Rustls
