import TeaclaveCrates.Lib.Trailing
import TeaclaveCrates.Rustls.Handshake

namespace TeaclaveCrates.Rustls

open TeaclaveCrates.Lib

/-!
# rustls — the encoding a PSK binder signs

A ClientHello that offers a pre-shared key is signed without the binders it carries; they are
written into it afterwards.  The list of binders is the last thing in the message, behind the
length prefixes of the list, the extension, the extensions and the message.

* `HandshakeMessagePayload.getEncodingForBinderSigning` and `ClientHelloPayload.setPskBinder`;
* `trails_binders` — the binders come last;
* `getEncodingForBinderSigning_setPskBinder` — what is signed is what is sent.
-/

theorem Trails.sized {f : Bytes → Bytes} (h : Trails f) (w : Nat) :
    Trails fun x => encodeSized w (f x) :=
  h.prefixed (toBE w)

/-- Lists of binders whose first binders are of the same length. -/
theorem length_encode_binders {b b' : PresharedKeyBinder} (bs : List PresharedKeyBinder)
    (hlen : b'.inner.bytes.length = b.inner.bytes.length) :
    (Codec.encode (b :: bs)).length = (Codec.encode (b' :: bs)).length := by
  show (encodeSized 2 (encodeSized 1 b.inner.bytes ++ bs.flatMap Codec.encode)).length =
    (encodeSized 2 (encodeSized 1 b'.inner.bytes ++ bs.flatMap Codec.encode)).length
  simp [length_encodeSized, hlen]

section Binders

variable [Webpki]

namespace ClientHelloPayload

/-- `set_psk_binder`; `none` is the panic of an offer without binders. -/
def setPskBinder (ch : ClientHelloPayload) (binder : Bytes) : Option ClientHelloPayload :=
  match ch.extensions.getLast? with
  | some (.presharedKey offer) =>
    if offer.binders.isEmpty then
      none
    else
      some { ch with extensions := ch.extensions.dropLast ++
        [.presharedKey { offer with binders := offer.binders.set 0 ⟨⟨binder⟩⟩ }] }
  | _ => some ch

end ClientHelloPayload

namespace HandshakeMessagePayload

/-- The `match` of `get_encoding_for_binder_signing`. -/
def binderLen (m : HandshakeMessagePayload) : Nat :=
  match m.payload with
  | .clientHello ch =>
    match ch.extensions.getLast? with
    | some (.presharedKey offer) => (Codec.encode offer.binders).length
    | _ => 0
  | _ => 0

/-- `get_encoding_for_binder_signing`. -/
def getEncodingForBinderSigning (m : HandshakeMessagePayload) : Bytes :=
  m.encode.take (m.encode.length - m.binderLen)

end HandshakeMessagePayload

/-! ### The binders come last -/

/-- A ClientHello with an offer at the end. -/
def withOffer (typ : HandshakeType) (ch : ClientHelloPayload) (exts : List ClientExtension)
    (offer : PresharedKeyOffer) : HandshakeMessagePayload :=
  ⟨typ, .clientHello { ch with extensions := exts ++ [.presharedKey offer] }⟩

/-- The encoding, as far as the binders have theirs. -/
def encodeAround (typ : HandshakeType) (ch : ClientHelloPayload) (exts : List ClientExtension)
    (identities : List PresharedKeyIdentity) (binders : Bytes) : Bytes :=
  Codec.encode (wireType typ) ++ encodeSized 3
    (Codec.encode ch.clientVersion ++ Codec.encode ch.random ++ Codec.encode ch.sessionId ++
      Codec.encode ch.cipherSuites ++ Codec.encode ch.compressionMethods ++
      encodeSized 2 (exts.flatMap Codec.encode ++ (Codec.encode ExtensionType.preSharedKey ++
        encodeSized 2 (Codec.encode identities ++ binders))))

theorem encode_withOffer (typ : HandshakeType) (ch : ClientHelloPayload)
    (exts : List ClientExtension) (offer : PresharedKeyOffer) :
    (withOffer typ ch exts offer).encode =
      encodeAround typ ch exts offer.identities (Codec.encode offer.binders) := by
  have hexts : Codec.encode (exts ++ [ClientExtension.presharedKey offer]) =
      encodeSized 2 (exts.flatMap Codec.encode ++ (Codec.encode ExtensionType.preSharedKey ++
        encodeSized 2 (Codec.encode offer.identities ++ Codec.encode offer.binders))) := by
    show encodeSized 2 ((exts ++ [ClientExtension.presharedKey offer]).flatMap Codec.encode) = _
    rw [List.flatMap_append, List.flatMap_singleton]
    rfl
  simp only [HandshakeMessagePayload.encode, withOffer, HandshakePayload.encode, encodeAround,
    ← hexts]
  simp [Codec.encode]

/-- **The binders come last**, behind five length prefixes that count them. -/
theorem trails_binders (typ : HandshakeType) (ch : ClientHelloPayload)
    (exts : List ClientExtension) (identities : List PresharedKeyIdentity) :
    Trails (encodeAround typ ch exts identities) := by
  apply Trails.append_left
  apply Trails.sized
  apply Trails.append_left
  apply Trails.sized
  apply Trails.append_left
  apply Trails.append_left
  apply Trails.sized
  exact Trails.id.append_left _

theorem binderLen_withOffer (typ : HandshakeType) (ch : ClientHelloPayload)
    (exts : List ClientExtension) (offer : PresharedKeyOffer) :
    (withOffer typ ch exts offer).binderLen = (Codec.encode offer.binders).length := by
  simp [HandshakeMessagePayload.binderLen, withOffer]

/-- What is signed, with an offer at the end. -/
theorem getEncodingForBinderSigning_withOffer {typ : HandshakeType} {ch : ClientHelloPayload}
    {exts : List ClientExtension} {offer : PresharedKeyOffer} {front : Bytes}
    (h : encodeAround typ ch exts offer.identities (Codec.encode offer.binders) =
      front ++ Codec.encode offer.binders) :
    (withOffer typ ch exts offer).getEncodingForBinderSigning = front := by
  rw [HandshakeMessagePayload.getEncodingForBinderSigning, binderLen_withOffer, encode_withOffer, h,
    List.length_append, Nat.add_sub_cancel, List.take_left]

/-- **Binders.** For a ClientHello that ends with an offer of a pre-shared key, what is signed is
    the encoding without the encoded binders at its end; and setting the first binder to a value of
    the length it has changes neither that nor the length of the encoding. -/
theorem getEncodingForBinderSigning_setPskBinder (typ : HandshakeType) (ch : ClientHelloPayload)
    (offer : PresharedKeyOffer) (b : PresharedKeyBinder) (bs : List PresharedKeyBinder)
    (hlast : ch.extensions.getLast? = some (.presharedKey offer)) (hbinders : offer.binders = b :: bs) :
    let m : HandshakeMessagePayload := ⟨typ, .clientHello ch⟩
    m.encode = m.getEncodingForBinderSigning ++ Codec.encode offer.binders ∧
      ∀ binder : Bytes, binder.length = b.inner.bytes.length →
        ∃ ch', ch.setPskBinder binder = some ch' ∧
          let m' : HandshakeMessagePayload := ⟨typ, .clientHello ch'⟩
          ch'.extensions.getLast? =
              some (.presharedKey { offer with binders := ⟨⟨binder⟩⟩ :: bs }) ∧
            m'.getEncodingForBinderSigning = m.getEncodingForBinderSigning ∧
            m'.encode.length = m.encode.length ∧
            m'.encode = m.getEncodingForBinderSigning ++
              Codec.encode (⟨⟨binder⟩⟩ :: bs : List PresharedKeyBinder) := by
  obtain ⟨exts, hexts⟩ := List.getLast?_eq_some_iff.mp hlast
  intro m
  have hm : m = withOffer typ ch exts offer := by
    show (⟨typ, .clientHello ch⟩ : HandshakeMessagePayload) = _
    rw [withOffer, ← hexts]
  have htrails := trails_binders typ ch exts offer.identities
  refine ⟨?_, fun binder hlen => ?_⟩
  · obtain ⟨front, h, -⟩ := htrails.congr_length (rfl : (Codec.encode offer.binders).length = _)
    rw [hm, getEncodingForBinderSigning_withOffer h, encode_withOffer, h]
  · let offer' : PresharedKeyOffer := { offer with binders := ⟨⟨binder⟩⟩ :: bs }
    have hlength : (Codec.encode offer.binders).length = (Codec.encode offer'.binders).length := by
      rw [hbinders]
      exact length_encode_binders bs hlen
    obtain ⟨front, h, h', hsame⟩ := htrails.congr_length hlength
    have hencode := encode_withOffer typ ch exts offer'
    have hfront : m.getEncodingForBinderSigning = front := by
      rw [hm, getEncodingForBinderSigning_withOffer h]
    refine ⟨{ ch with extensions := exts ++ [.presharedKey offer'] }, ?_, ?_, ?_, ?_, ?_⟩
    · simp [ClientHelloPayload.setPskBinder, hbinders, hexts, offer']
    · simp [offer']
    · rw [hfront]
      exact getEncodingForBinderSigning_withOffer h'
    · show (withOffer typ ch exts offer').encode.length = _
      rw [hm, hencode, encode_withOffer]
      exact hsame.symm
    · rw [hfront]
      exact hencode.trans h'

end Binders

theorem getEncodingForBinderSigning_setPskBinder_short :
    let _ : Webpki := ⟨Unit, fun _ => none⟩
    let ch (b : PresharedKeyBinder) : ClientHelloPayload :=
      ⟨.TLSv1_2, ⟨List.replicate 32 0, rfl⟩, ⟨0, List.replicate 32 0, by decide, rfl⟩, [], [],
        [.presharedKey ⟨[⟨⟨[7]⟩, 0⟩], [b]⟩]⟩
    let m : HandshakeMessagePayload := ⟨.clientHello, .clientHello (ch ⟨⟨[0, 0]⟩⟩)⟩
    m.encode = m.getEncodingForBinderSigning ++ [0, 3, 2, 0, 0] ∧
      ∃ ch', (ch ⟨⟨[0, 0]⟩⟩).setPskBinder [5, 6] = some ch' ∧
        (⟨.clientHello, .clientHello ch'⟩ : HandshakeMessagePayload).encode =
          m.getEncodingForBinderSigning ++ [0, 3, 2, 5, 6] := by
  intro _ ch m
  obtain ⟨hm, hset⟩ := getEncodingForBinderSigning_setPskBinder .clientHello (ch ⟨⟨[0, 0]⟩⟩)
    ⟨[⟨⟨[7]⟩, 0⟩], [⟨⟨[0, 0]⟩⟩]⟩ ⟨⟨[0, 0]⟩⟩ [] rfl rfl
  obtain ⟨ch', hch', -, -, -, hencode⟩ := hset [5, 6] rfl
  exact ⟨hm, ch', hch', hencode⟩

end TeaclaveCrates.Rustls
