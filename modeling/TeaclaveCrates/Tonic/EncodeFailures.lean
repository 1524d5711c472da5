import TeaclaveCrates.Tonic.Encode

namespace TeaclaveCrates.Tonic

open TeaclaveCrates.Lib

/-!
# tonic — items that fail to encode

All items of an encoded stream share one buffer. An item that fails has reserved its header there,
and may have written a part of its payload; nothing takes that away.

* `ownPayload` — what an item becomes if it is alone;
* `landed` — how many bytes an item puts behind its header;
* `Damaged` — an item comes through while the bytes of failed ones lie in front of it;
* `encodeItem_cases` — one item, whatever the buffer holds;
* `encode_own_iff` — when every successful result is the frame of its own item.
-/

variable {E Item : Type}

section Items

variable (gz : Gzip) (encoder : Encoder E Item) (compression : Option CompressionEncoding)

/-- The payload of an item, unless the encoder or the compressor fails on it. -/
def ownPayload (e : E) (item : Item) : Option Bytes :=
  match encoder.encode e item, compression with
  | (_, _, .error _), _ => none
  | (_, written, .ok ()), none => some written
  | (_, written, .ok ()), some .gzip =>
    match gz.compress written with
    | (output, .ok ()) => some output
    | (_, .error _) => none

/-- The bytes that an item puts into the buffer behind its header. -/
def landed (e : E) (item : Item) : Nat :=
  match encoder.encode e item, compression with
  | (_, written, _), none => written.length
  -- what was written waits in the other buffer
  | (_, _, .error _), some _ => 0
  | (_, written, .ok ()), some .gzip => (gz.compress written).1.length

/-- The payloads of the items of a source. -/
def ownPayloads : E → List (Except Status Item) → List (Option Bytes)
  | _, [] => []
  | e, .error _ :: source => none :: ownPayloads e source
  | e, .ok item :: source =>
    ownPayload gz encoder compression e item :: ownPayloads (encoder.encode e item).1 source

/-- A number of bytes is within the limits of a message. -/
def Fits (max : Option Nat) (len : Nat) : Prop :=
  len ≤ max.getD DEFAULT_MAX_SEND_MESSAGE_SIZE ∧ len ≤ 2 ^ 32 - 1

instance (max : Option Nat) (len : Nat) : Decidable (Fits max len) :=
  inferInstanceAs (Decidable (_ ∧ _))

/-- With `left` bytes of failed items in the buffer, some item comes through behind such bytes: it has
    a payload, and with what lies in front the payload is within the limits. -/
def Damaged (max : Option Nat) : Nat → E → List (Except Status Item) → Prop
  | _, _, [] => False
  | left, e, .error _ :: source => Damaged max left e source
  | left, e, .ok item :: source =>
    let len := left + landed gz encoder compression e item
    let e' := (encoder.encode e item).1
    if (ownPayload gz encoder compression e item).isSome ∧ Fits max len then
      0 < left ∨ Damaged max 0 e' source
    else
      Damaged max (len + HEADER_SIZE) e' source

end Items

variable {gz : Gzip} {encoder : Encoder E Item} {compression : Option CompressionEncoding}
  {max : Option Nat} {display : Status → String}

/-- `finish_encoding` on a buffer that holds other bytes in front of a header and a payload. -/
theorem finishEncoding_cases (compression : Option CompressionEncoding) (max : Option Nat)
    (buf payload : Bytes) (space : HeaderSpace) :
    (Fits max (buf.length + payload.length) ∧
      ∃ bytes, finishEncoding compression max (buf ++ space.val ++ payload) = (.ok bytes, []) ∧
        bytes.length = buf.length + payload.length + HEADER_SIZE ∧
        (buf = [] → bytes = frame compression payload)) ∨
    (¬Fits max (buf.length + payload.length) ∧
      ∃ status, finishEncoding compression max (buf ++ space.val ++ payload) =
        (.error status, buf ++ space.val ++ payload)) := by
  have hlen : (buf ++ space.val ++ payload).length = buf.length + payload.length + HEADER_SIZE := by
    rw [List.length_append, List.length_append, space.property]
    omega
  by_cases hfits : Fits max (buf.length + payload.length)
  · refine .inl ⟨hfits, ?_⟩
    obtain ⟨hlimit, hu32⟩ := hfits
    unfold finishEncoding
    simp only [hlen, Nat.add_sub_cancel, if_neg (Nat.not_lt.mpr hlimit),
      if_neg (Nat.not_lt.mpr hu32)]
    -- the header is written over the first five bytes, whosever they are
    set bytes := (if compression.isSome then (1 : UInt8) else 0) ::
      toBE 4 (buf.length + payload.length) ++ (buf ++ space.val ++ payload).drop HEADER_SIZE
      with hbytes
    have hsize : bytes.length = buf.length + payload.length + HEADER_SIZE := by
      rw [hbytes, List.length_append, List.length_cons, length_toBE, List.length_drop, hlen]
      unfold HEADER_SIZE
      omega
    refine ⟨bytes, ?_, hsize, fun hnil => ?_⟩
    · rw [← hsize, List.take_length, List.drop_length]
    · subst hnil
      rw [hbytes, frame, List.nil_append, List.drop_left' space.property, List.length_nil,
        Nat.zero_add]
  · refine .inr ⟨hfits, ?_⟩
    unfold finishEncoding
    simp only [hlen, Nat.add_sub_cancel]
    by_cases hlimit : max.getD DEFAULT_MAX_SEND_MESSAGE_SIZE < buf.length + payload.length
    · rw [if_pos hlimit]
      exact ⟨_, rfl⟩
    · rw [if_neg hlimit, if_pos (Nat.lt_of_not_le fun hu32 => hfits ⟨Nat.le_of_not_lt hlimit, hu32⟩)]
      exact ⟨_, rfl⟩

/-- **One item.** It comes through with all that lies in the buffer, or leaves its own bytes there. -/
theorem encodeItem_cases (gz : Gzip) (encoder : Encoder E Item)
    (compression : Option CompressionEncoding) (max : Option Nat) (display : Status → String)
    (space : HeaderSpace) (s : EncodeStream E) (item : Item) :
    let r := encodeItem gz display encoder compression max space s item
    let len := s.buf.length + landed gz encoder compression s.encoder item
    r.2.encoder = (encoder.encode s.encoder item).1 ∧
      ((∃ payload bytes, ownPayload gz encoder compression s.encoder item = some payload ∧
          Fits max len ∧ r.1 = .ok bytes ∧ r.2.buf = [] ∧ len = s.buf.length + payload.length ∧
          bytes.length = len + HEADER_SIZE ∧ (s.buf = [] → bytes = frame compression payload)) ∨
        (¬((ownPayload gz encoder compression s.encoder item).isSome ∧ Fits max len) ∧
          ∃ status, r.1 = .error status ∧ r.2.buf.length = len + HEADER_SIZE)) := by
  have hspace := space.property
  unfold encodeItem ownPayload landed
  rcases hencode : encoder.encode s.encoder item with ⟨e, written, _ | _⟩
  · -- the encoder fails
    cases compression with
    | none =>
      refine ⟨rfl, .inr ⟨fun h => by simp at h, _, rfl, ?_⟩⟩
      simp only [List.length_append, hspace]
      omega
    | some encoding =>
      refine ⟨rfl, .inr ⟨fun h => by simp at h, _, rfl, ?_⟩⟩
      simp only [List.length_append, hspace]
      omega
  · cases compression with
    | none =>
      dsimp only
      rcases finishEncoding_cases none max s.buf written space with
        ⟨hfits, bytes, hfinish, hlen, hframe⟩ | ⟨hfits, status, hfinish⟩
      · rw [hfinish]
        exact ⟨rfl, .inl ⟨written, bytes, rfl, hfits, rfl, rfl, rfl, hlen, hframe⟩⟩
      · rw [hfinish]
        refine ⟨rfl, .inr ⟨fun h => hfits h.2, status, rfl, ?_⟩⟩
        simp only [List.length_append, hspace]
        omega
    | some encoding =>
      dsimp only [compress]
      rw [List.take_length]
      rcases hgzip : gz.compress written with ⟨output, _ | _⟩
      · refine ⟨rfl, .inr ⟨fun h => by simp at h, _, rfl, ?_⟩⟩
        simp only [List.length_append, hspace]
        omega
      · dsimp only
        rcases finishEncoding_cases (some .gzip) max s.buf output space with
          ⟨hfits, bytes, hfinish, hlen, hframe⟩ | ⟨hfits, status, hfinish⟩
        · rw [hfinish]
          exact ⟨rfl, .inl ⟨output, bytes, rfl, hfits, rfl, rfl, rfl, hlen, hframe⟩⟩
        · rw [hfinish]
          refine ⟨rfl, .inr ⟨fun h => hfits h.2, status, rfl, ?_⟩⟩
          simp only [List.length_append, hspace]
          omega

/-- Every successful result is the frame of its own item. -/
def Own (compression : Option CompressionEncoding) (results : List (Except Status Bytes))
    (payloads : List (Option Bytes)) : Prop :=
  List.Forall₂ (fun result payload => ∀ bytes, result = .ok bytes →
    payload.map (frame compression) = some bytes) results payloads

theorem encodeLoop_own_iff (source : List (Except Status Item)) :
    ∀ (space : Nat → HeaderSpace) (s : EncodeStream E),
      Own compression (encodeLoop gz display encoder compression max space s source)
          (ownPayloads gz encoder compression s.encoder source) ↔
        ¬Damaged gz encoder compression max s.buf.length s.encoder source := by
  induction source with
  | nil => exact fun _ _ => iff_of_true .nil fun h => h
  | cons result source ih =>
    intro space s
    cases result with
    | error status =>
      unfold Own
      rw [encodeLoop, ownPayloads, Damaged, List.forall₂_cons]
      refine (and_iff_right fun bytes h => by cases h).trans (ih _ s)
    | ok item =>
      have hcases := encodeItem_cases gz encoder compression max display (space 0) s item
      unfold Own
      rw [encodeLoop, ownPayloads, Damaged]
      obtain ⟨hencoder, ⟨payload, bytes, hown, hfits, hok, hbuf, hlen, hsize, hframe⟩ |
        ⟨hnot, status, herror, hbuf⟩⟩ := hcases
      · rw [List.forall₂_cons, if_pos ⟨by rw [hown]; rfl, hfits⟩, not_or, Nat.not_lt, hok, hown,
          ← hencoder]
        refine and_congr ?_ ?_
        · constructor
          · intro h
            have heq := Option.some.inj (h bytes rfl)
            -- the bytes of failed items are a part of the result
            have hframe' : (frame compression payload).length = payload.length + HEADER_SIZE := by
              simp [frame, HEADER_SIZE]
              omega
            rw [← heq, hframe'] at hsize
            omega
          · intro hle bytes' heq
            rw [← Except.ok.inj heq, hframe (List.eq_nil_of_length_eq_zero (Nat.le_zero.mp hle))]
            rfl
        · have hrest := ih (space ∘ (· + 1))
            (encodeItem gz display encoder compression max (space 0) s item).2
          rwa [hbuf] at hrest
      · rw [List.forall₂_cons, if_neg hnot, herror, ← hencoder, ← hbuf]
        exact (and_iff_right fun bytes h => by cases h).trans (ih _ _)

/-- **Failed items.** Every successful result is the header and the payload of its own item, if and
    only if no item comes through behind the bytes of failed ones. -/
theorem encode_own_iff (gz : Gzip) (display : Status → String) (encoder : Encoder E Item) (e : E)
    (source : List (Except Status Item)) (compressionEncoding : Option CompressionEncoding)
    (compressionOverride : SingleMessageCompressionOverride) (max : Option Nat)
    (space : Nat → HeaderSpace) :
    let compression := effectiveCompression compressionEncoding compressionOverride
    Own compression
        (encode gz display encoder e source compressionEncoding compressionOverride max space)
        (ownPayloads gz encoder compression e source) ↔
      ¬Damaged gz encoder compression max 0 e source :=
  encodeLoop_own_iff source space ⟨e, [], []⟩

/-- An encoder of single bytes that fails on zero, after it has written it. -/
def failingEncoder : Encoder Unit UInt8 where
  encode _ item := ((), [item], if item = 0 then .error (.internal "zero") else .ok ())

theorem encode_damaged :
    let gz : Gzip := ⟨fun b => (b, .ok ()), fun b => (b, .ok ())⟩
    let results := encode gz Status.message failingEncoder () [.ok 0, .ok 7] none .inherit none
      fun _ => ⟨[9, 9, 9, 9, 9], rfl⟩
    results[1]? = some (.ok [0, 0, 0, 0, 7, 0, 9, 9, 9, 9, 9, 7]) ∧
      ¬Own none results (ownPayloads gz failingEncoder none () [.ok 0, .ok 7]) := by
  intro gz results
  refine ⟨by decide, fun h => ?_⟩
  have hsecond := (List.forall₂_cons.mp (List.forall₂_cons.mp h).2).1 _ rfl
  exact absurd hsecond (by decide)

end TeaclaveCrates.Tonic
