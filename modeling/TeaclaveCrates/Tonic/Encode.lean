import TeaclaveCrates.Tonic.Codec

namespace TeaclaveCrates.Tonic

open TeaclaveCrates.Lib

/-!
# tonic — encoding a stream of messages into frames

`encode.rs`: each message becomes a 5-byte header (compression flag, big-endian
length) and the payload, compressed or not.

* `finishEncoding`, `encodeItem`, `encode` — the source functions, with the two
  buffers that live as long as the stream;
* `payloads`, `frame` — what a list of messages is meant to become on the wire;
* `encode_eq_frames` — with a codec that does not fail and limits that no payload
  exceeds, `encode` produces exactly these frames.
-/

variable {E D Item : Type}

/-- The five bytes `advance_mut(HEADER_SIZE)` exposes: their content is whatever
    the allocation held. -/
abbrev HeaderSpace := { space : Bytes // space.length = HEADER_SIZE }

/-- What the closure of `encode` keeps between two messages. -/
structure EncodeStream (E : Type) where
  encoder : E
  buf : Bytes
  uncompressionBuf : Bytes

/-- `finish_encoding`: checks the limits, writes the header over the first five
    bytes and splits the frame off.  Returns the result and the remaining buffer. -/
def finishEncoding (compressionEncoding : Option CompressionEncoding)
    (maxMessageSize : Option Nat) (buf : Bytes) : Except Status Bytes × Bytes :=
  let len := buf.length - HEADER_SIZE
  let limit := maxMessageSize.getD DEFAULT_MAX_SEND_MESSAGE_SIZE
  if len > limit then
    (.error ⟨.outOfRange, "Error, message length too large: found " ++ toString len ++
      " bytes, the limit is: " ++ toString limit ++ " bytes"⟩, buf)
  else if len > 2 ^ 32 - 1 then
    (.error (.resourceExhausted ("Cannot return body with more than 4GB of data but got " ++
      toString len ++ " bytes")), buf)
  else
    let flag : UInt8 := if compressionEncoding.isSome then 1 else 0
    let buf := flag :: toBE 4 len ++ buf.drop HEADER_SIZE
    (.ok (buf.take (len + HEADER_SIZE)), buf.drop (len + HEADER_SIZE))

/-- `encode_item`. `display` is how a status is printed. -/
def encodeItem (gz : Gzip) (display : Status → String) (encoder : Encoder E Item)
    (compressionEncoding : Option CompressionEncoding) (maxMessageSize : Option Nat)
    (space : HeaderSpace) (s : EncodeStream E) (item : Item) :
    Except Status Bytes × EncodeStream E :=
  let buf := s.buf ++ space.val
  match encoder.encode s.encoder item with
  | (e, written, .error err) =>
    let failed : Except Status Bytes := .error (.internal ("Error encoding: " ++ display err))
    match compressionEncoding with
    | some _ => (failed, ⟨e, buf, written⟩)
    | none => (failed, ⟨e, buf ++ written, s.uncompressionBuf⟩)
  | (e, written, .ok ()) =>
    match compressionEncoding with
    | some encoding =>
      -- `uncompression_buf` was cleared, so it holds just what was written
      match compress gz encoding written buf written.length with
      | (uncompressionBuf, buf, .error err) =>
        (.error (.internal ("Error compressing: " ++ err)), ⟨e, buf, uncompressionBuf⟩)
      | (uncompressionBuf, buf, .ok ()) =>
        let (result, buf) := finishEncoding compressionEncoding maxMessageSize buf
        (result, ⟨e, buf, uncompressionBuf⟩)
    | none =>
      let (result, buf) :=
        finishEncoding compressionEncoding maxMessageSize (buf ++ written)
      (result, ⟨e, buf, s.uncompressionBuf⟩)

/-- The `source.map(..)` of `encode`: one result for each item of the source. -/
def encodeLoop (gz : Gzip) (display : Status → String) (encoder : Encoder E Item)
    (compressionEncoding : Option CompressionEncoding) (maxMessageSize : Option Nat)
    (space : Nat → HeaderSpace) :
    EncodeStream E → List (Except Status Item) → List (Except Status Bytes)
  | _, [] => []
  | s, .error status :: source =>
    .error status ::
      encodeLoop gz display encoder compressionEncoding maxMessageSize (space ∘ (· + 1)) s source
  | s, .ok item :: source =>
    let (result, s) :=
      encodeItem gz display encoder compressionEncoding maxMessageSize (space 0) s item
    result ::
      encodeLoop gz display encoder compressionEncoding maxMessageSize (space ∘ (· + 1)) s source

/-- The compression in effect: the override switches it off. -/
def effectiveCompression (compressionEncoding : Option CompressionEncoding)
    (compressionOverride : SingleMessageCompressionOverride) : Option CompressionEncoding :=
  if compressionOverride = .disable then none else compressionEncoding

/-- `encode`: the stream of frames for a stream of messages. -/
def encode (gz : Gzip) (display : Status → String) (encoder : Encoder E Item) (e : E)
    (source : List (Except Status Item)) (compressionEncoding : Option CompressionEncoding)
    (compressionOverride : SingleMessageCompressionOverride) (maxMessageSize : Option Nat)
    (space : Nat → HeaderSpace) : List (Except Status Bytes) :=
  encodeLoop gz display encoder (effectiveCompression compressionEncoding compressionOverride)
    maxMessageSize space ⟨e, [], []⟩ source

/-! ### The frames of a list of messages -/

/-- What is sent for the encoded message `written`. -/
def payloadOf (gz : Gzip) (compression : Option CompressionEncoding) (written : Bytes) : Bytes :=
  match compression with
  | some .gzip => (gz.compress written).1
  | none => written

/-- The payloads of a list of messages, in order. -/
def payloads (gz : Gzip) (encoder : Encoder E Item) (compression : Option CompressionEncoding) :
    E → List Item → List Bytes
  | _, [] => []
  | e, item :: items =>
    let (e', written, _) := encoder.encode e item
    payloadOf gz compression written :: payloads gz encoder compression e' items

/-- A payload behind its header. -/
def frame (compression : Option CompressionEncoding) (payload : Bytes) : Bytes :=
  (if compression.isSome then 1 else 0) :: toBE 4 payload.length ++ payload

variable {compression : Option CompressionEncoding}

variable {max : Option Nat}

/-- `finish_encoding` on a buffer that holds one header space and one payload
    gives the frame and leaves the buffer empty. -/
theorem finishEncoding_frame (space : HeaderSpace) {payload : Bytes}
    (hsend : payload.length ≤ max.getD DEFAULT_MAX_SEND_MESSAGE_SIZE)
    (hu32 : payload.length < 2 ^ 32) :
    finishEncoding compression max (space.val ++ payload) =
      (.ok (frame compression payload), []) := by
  have hlen : (space.val ++ payload).length - HEADER_SIZE = payload.length := by
    rw [List.length_append, space.property, Nat.add_sub_cancel_left]
  have hdrop : (space.val ++ payload).drop HEADER_SIZE = payload :=
    List.drop_left' space.property
  have hframe : (frame compression payload).length = payload.length + HEADER_SIZE := by
    simp [frame, HEADER_SIZE]; omega
  have hfit : ¬ payload.length > 2 ^ 32 - 1 := by omega
  unfold finishEncoding
  simp only [hlen, hdrop, if_neg (Nat.not_lt.mpr hsend), if_neg hfit]
  show (Except.ok ((frame compression payload).take _), (frame compression payload).drop _) = _
  rw [← hframe, List.take_length, List.drop_length]

variable {encoder : Encoder E Item}

/-- One message, from an empty buffer: its frame, and an empty buffer again. -/
theorem encodeItem_frame {gz : Gzip} (hgz : gz.Inverts) (display : Status → String)
    (space : HeaderSpace) {e e' : E} (unc : Bytes) {written : Bytes} {item : Item}
    (henc : encoder.encode e item = (e', written, .ok ()))
    (hsend : (payloadOf gz compression written).length ≤ max.getD DEFAULT_MAX_SEND_MESSAGE_SIZE)
    (hu32 : (payloadOf gz compression written).length < 2 ^ 32) :
    ∃ unc', encodeItem gz display encoder compression max space ⟨e, [], unc⟩ item =
      (.ok (frame compression (payloadOf gz compression written)), ⟨e', [], unc'⟩) := by
  cases compression with
  | none =>
    refine ⟨unc, ?_⟩
    simp only [payloadOf] at hsend hu32
    simp [encodeItem, henc, payloadOf, finishEncoding_frame space hsend hu32]
  | some encoding =>
    obtain ⟨output, hcomp, -⟩ := hgz written
    simp only [payloadOf, hcomp] at hsend hu32
    refine ⟨[], ?_⟩
    simp [encodeItem, henc, payloadOf, compress, hcomp, finishEncoding_frame space hsend hu32]

variable {decoder : Decoder D Item}

/-- The loop over the source, for a codec whose states stay related to those of
    a decoder that inverts it. -/
theorem encodeLoop_frames {gz : Gzip} (hgz : gz.Inverts) (display : Status → String)
    {R : E → D → Prop} (hcodec : Inverts encoder decoder R) (items : List Item) :
    ∀ (space : Nat → HeaderSpace) (e : E) (d : D) (unc : Bytes), R e d →
      (∀ p ∈ payloads gz encoder compression e items,
        p.length ≤ max.getD DEFAULT_MAX_SEND_MESSAGE_SIZE ∧ p.length < 2 ^ 32) →
      encodeLoop gz display encoder compression max space ⟨e, [], unc⟩ (items.map .ok) =
        (payloads gz encoder compression e items).map (.ok ∘ frame compression) := by
  induction items with
  | nil => intros; rfl
  | cons item items ih =>
    intro space e d unc hR hlim
    obtain ⟨e', written, d', henc, -, hR'⟩ := hcodec.roundTrip e d item hR
    simp only [payloads, henc, List.mem_cons, forall_eq_or_imp] at hlim
    obtain ⟨⟨hsend, hu32⟩, hrest⟩ := hlim
    obtain ⟨unc', hitem⟩ := encodeItem_frame hgz display (space 0) unc henc hsend hu32
    simp [encodeLoop, hitem, payloads, henc, ih (space ∘ (· + 1)) e' d' unc' hR' hrest]

/-- **Encoding.** `encode` turns the messages into their frames, without an error. -/
theorem encode_eq_frames {gz : Gzip} (hgz : gz.Inverts) (display : Status → String)
    {R : E → D → Prop} (hcodec : Inverts encoder decoder R) {e : E} {d : D} (hR : R e d)
    (compressionEncoding : Option CompressionEncoding)
    (compressionOverride : SingleMessageCompressionOverride) (max : Option Nat)
    (space : Nat → HeaderSpace) (items : List Item)
    (hlim : ∀ p ∈ payloads gz encoder
        (effectiveCompression compressionEncoding compressionOverride) e items,
      p.length ≤ max.getD DEFAULT_MAX_SEND_MESSAGE_SIZE ∧ p.length < 2 ^ 32) :
    encode gz display encoder e (items.map .ok) compressionEncoding compressionOverride max space =
      (payloads gz encoder (effectiveCompression compressionEncoding compressionOverride) e
        items).map
        (.ok ∘ frame (effectiveCompression compressionEncoding compressionOverride)) :=
  encodeLoop_frames hgz display hcodec items space e d [] hR hlim

end TeaclaveCrates.Tonic
