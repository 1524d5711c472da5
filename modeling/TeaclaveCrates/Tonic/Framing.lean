import TeaclaveCrates.Tonic.Encode
import TeaclaveCrates.Tonic.Decode

namespace TeaclaveCrates.Tonic

open TeaclaveCrates.Lib
open StreamingInner (decodeChunk pollData pollResponse takeBody)
open Streaming (finish new pollLoop)

/-!
# tonic — the framing round trip

What `encode` writes, a `Streaming` reads back, however the bytes are cut.

* `Ahead` — the decoder invariant: the buffer followed by the bytes still to come
  is what the encoder wrote for the messages not yet delivered;
* `decodeChunk_ahead` — one call of `decode_chunk` keeps it, and delivers the next
  message as soon as it is complete;
* `pollLoop_ahead` / `collect_ahead` — so does a whole poll, and a whole run;
* `collect_encode` — the messages come out in order, and then the stream ends.
-/

variable {HeaderMap E D Item : Type}

/-- The bytes a list of body answers delivers. -/
def chunks : List BodyEvent → Bytes
  | [] => []
  | .data chunk :: events => chunk ++ chunks events
  | _ :: events => chunks events

/-- No answer of the body is an error. -/
def NoError (events : List BodyEvent) : Prop :=
  ∀ status, BodyEvent.error status ∉ events

/-- The frames of a list of messages, one after the other. -/
def wire (gz : Gzip) (encoder : Encoder E Item) (compression : Option CompressionEncoding)
    (e : E) (items : List Item) : Bytes :=
  (payloads gz encoder compression e items).flatMap (frame compression)

/-- The trailers of a response do not report an error. -/
def TrailersOk (fromHeaderMap : HeaderMap → Option Status) (direction : Direction)
    (trailers : Except Status (Option HeaderMap)) : Prop :=
  ∀ status, direction = .response status → ∃ t, trailers = .ok t ∧
    (inferGrpcStatus fromHeaderMap t status = .ok () ∨
      inferGrpcStatus fromHeaderMap t status = .error none)

/-! ### The decoder invariant -/

section Invariant

variable (gz : Gzip) (encoder : Encoder E Item) (decoder : Decoder D Item) (R : E → D → Prop)
  (compression : Option CompressionEncoding)

/-- The settings of the receiving side fit the sender's: it knows the encoding in
    use, and its limit admits each of the payloads. -/
structure Accepts (s : StreamingInner HeaderMap) (ps : List Bytes) : Prop where
  encoding : ∀ c, compression = some c → s.encoding = some c
  limit : ∀ p ∈ ps, p.length ≤ s.maxMessageSize.getD DEFAULT_MAX_RECV_MESSAGE_SIZE ∧
    p.length < 2 ^ 32

/-- Where the decoder stands: before a header, or behind the header of the next
    message.  `rest` is what the body has still to deliver. -/
inductive Ahead (s : Streaming HeaderMap D) (rest : Bytes) : E → List Item → Prop
  | header {e items} (hR : R e s.decoder) (hstate : s.inner.state = .readHeader)
      (hacc : Accepts compression s.inner (payloads gz encoder compression e items))
      (hbytes : s.inner.buf ++ rest = wire gz encoder compression e items) :
      Ahead s rest e items
  | body {e e' d' item items written}
      (henc : encoder.encode e item = (e', written, .ok ()))
      (hdec : decoder.decode s.decoder written = (d', written.length, .ok (some item)))
      (hR : R e' d')
      (hstate : s.inner.state =
        .readBody compression (payloadOf gz compression written).length)
      (hacc : Accepts compression s.inner (payloads gz encoder compression e' items))
      (hbytes : s.inner.buf ++ rest =
        payloadOf gz compression written ++ wire gz encoder compression e' items) :
      Ahead s rest e (item :: items)

end Invariant

variable {gz : Gzip} {encoder : Encoder E Item} {decoder : Decoder D Item} {R : E → D → Prop}
  {compression : Option CompressionEncoding}

variable {items : List Item}

variable {e : E}

theorem wire_cons {e' : E} {item : Item} {written : Bytes}
    (henc : encoder.encode e item = (e', written, .ok ())) :
    wire gz encoder compression e (item :: items) =
      frame compression (payloadOf gz compression written) ++
        wire gz encoder compression e' items := by
  simp [wire, payloads, henc]

theorem length_frame (p : Bytes) : (frame compression p).length = HEADER_SIZE + p.length := by
  simp [frame, HEADER_SIZE]; omega

/-- The flag byte of a frame is understood by a receiver with fitting settings. -/
theorem compressionFlag_frame {s : StreamingInner HeaderMap} {ps : List Bytes}
    (hacc : Accepts compression s ps) :
    s.compressionFlag (if compression.isSome then 1 else 0) = .ok compression := by
  cases compression with
  | none => rfl
  | some c =>
    have henc := hacc.encoding c rfl
    simp [StreamingInner.compressionFlag, henc]

variable {rest : Bytes}

/-- A complete header at the front of the buffer is taken off. -/
theorem takeHeader_frame {s : StreamingInner HeaderMap} {p w : Bytes} {ps : List Bytes}
    (hacc : Accepts compression s (p :: ps)) (hlen : HEADER_SIZE ≤ s.buf.length)
    (hbytes : s.buf ++ rest = frame compression p ++ w) :
    s.takeHeader = (.ok (), { s with
        buf := s.buf.drop HEADER_SIZE, state := .readBody compression p.length }) ∧
      s.buf.drop HEADER_SIZE ++ rest = p ++ w := by
  obtain ⟨hlimit, hu32⟩ := hacc.limit p (List.mem_cons_self ..)
  -- the first five bytes of the buffer are the header
  have htake : s.buf.take HEADER_SIZE =
      (if compression.isSome then 1 else 0) :: toBE 4 p.length := by
    have h := congrArg (List.take HEADER_SIZE) hbytes
    rw [List.take_append_of_le_length hlen] at h
    rw [h]
    simp [frame, HEADER_SIZE]
  have hdrop : s.buf.drop HEADER_SIZE ++ rest = p ++ w := by
    have h := congrArg (List.drop HEADER_SIZE) hbytes
    rw [List.drop_append_of_le_length hlen] at h
    rw [h]
    simp [frame, HEADER_SIZE]
  have hsplit : s.buf = (if compression.isSome then 1 else 0) ::
      (toBE 4 p.length ++ s.buf.drop HEADER_SIZE) := by
    rw [← List.cons_append, ← htake, List.take_append_drop]
  have hhead : s.buf.headD 0 = if compression.isSome then 1 else 0 := by rw [hsplit]; rfl
  have hfield : ofBE ((s.buf.drop 1).take 4) = p.length := by
    rw [hsplit, List.drop_one, List.tail_cons, List.take_left' (length_toBE 4 _),
      ofBE_toBE (by omega)]
  refine ⟨?_, hdrop⟩
  unfold StreamingInner.takeHeader
  rw [hhead, compressionFlag_frame hacc]
  simp only [hfield, if_neg (Nat.not_lt.mpr hlimit)]

variable {s : Streaming HeaderMap D}

/-- Behind a header: wait for the payload, or decode it and go on to the next
    header. -/
theorem decodeBody_ahead (hgz : gz.Inverts) {e' : E} {d' : D} {item : Item} {written : Bytes}
    (hdec : decoder.decode s.decoder written = (d', written.length, .ok (some item))) (hR : R e' d')
    (hstate : s.inner.state = .readBody compression (payloadOf gz compression written).length)
    (hacc : Accepts compression s.inner (payloads gz encoder compression e' items))
    (hbytes : s.inner.buf ++ rest =
      payloadOf gz compression written ++ wire gz encoder compression e' items) :
    (s.decodeChunk gz decoder = (.ok none, s) ∧
      s.inner.buf.length < (payloadOf gz compression written).length) ∨
    ∃ s', s.decodeChunk gz decoder = (.ok (some item), s') ∧
      s'.inner.direction = s.inner.direction ∧
      Ahead gz encoder decoder R compression s' rest e' items := by
  by_cases hshort : s.inner.buf.length < (payloadOf gz compression written).length
  · simp [Streaming.decodeChunk, decodeChunk, takeBody, hstate,
      hshort]
  · -- the whole payload is in the buffer
    obtain ⟨more, hbuf, hwire⟩ : ∃ more, s.inner.buf = payloadOf gz compression written ++ more ∧
        more ++ rest = wire gz encoder compression e' items := by
      have h := List.append_eq_append_iff.mp hbytes
      rcases h with ⟨as, hp, hw⟩ | ⟨bs, hb, hw⟩
      · have has : as = [] := by
          have := congrArg List.length hp
          simp only [List.length_append] at this
          exact List.eq_nil_of_length_eq_zero (by omega)
        subst has
        exact ⟨[], by simpa using hp.symm, by simpa using hw⟩
      · exact ⟨bs, hb, hw.symm⟩
    cases compression with
    | none =>
      simp only [payloadOf] at hbuf hstate hshort
      refine .inr ⟨⟨d', { s.inner with buf := more, state := .readHeader }⟩, ?_, rfl, ?_⟩
      · simp [Streaming.decodeChunk, decodeChunk, takeBody, hstate,
          hbuf, hdec]
      · exact .header hR rfl ⟨hacc.encoding, hacc.limit⟩ hwire
    | some c =>
      obtain ⟨output, hcomp, hdecomp⟩ := hgz written
      simp only [payloadOf, hcomp] at hbuf hstate hshort
      refine .inr ⟨⟨d', { s.inner with
        buf := more, decompressBuf := [], state := .readHeader }⟩, ?_, rfl, ?_⟩
      · simp [Streaming.decodeChunk, decodeChunk, takeBody, hstate,
          hbuf, decompress, hdecomp, hdec]
      · exact .header hR rfl ⟨hacc.encoding, hacc.limit⟩ hwire

/-- **Step.** One `decode_chunk` either delivers the next message, or changes
    nothing that matters and needs more bytes: then nothing is left undelivered
    unless more is to come. -/
theorem decodeChunk_ahead (hgz : gz.Inverts) (hcodec : Inverts encoder decoder R)
    (h : Ahead gz encoder decoder R compression s rest e items) :
    (∃ s', s.decodeChunk gz decoder = (.ok none, s') ∧
      s'.inner.direction = s.inner.direction ∧
      Ahead gz encoder decoder R compression s' rest e items ∧
      (rest = [] → items = [] ∧ s'.inner.buf = [])) ∨
    ∃ item tail e' s', items = item :: tail ∧
      s.decodeChunk gz decoder = (.ok (some item), s') ∧
      s'.inner.direction = s.inner.direction ∧
      Ahead gz encoder decoder R compression s' rest e' tail := by
  cases h with
  | body henc hdec hR hstate hacc hbytes =>
    rcases decodeBody_ahead hgz hdec hR hstate hacc hbytes with ⟨hnone, hshort⟩ | ⟨s', hs', hdir,
      h'⟩
    · refine .inl ⟨s, hnone, rfl, .body henc hdec hR hstate hacc hbytes, ?_⟩
      rintro rfl
      have hlen := congrArg List.length hbytes
      simp only [List.length_append, List.length_nil] at hlen
      omega
    · exact .inr ⟨_, _, _, s', rfl, hs', hdir, h'⟩
  | header hR hstate hacc hbytes =>
    by_cases hshort : s.inner.buf.length < HEADER_SIZE
    · refine .inl ⟨s, ?_, rfl, .header hR hstate hacc hbytes, ?_⟩
      · simp [Streaming.decodeChunk, decodeChunk, hstate, hshort]
      · rintro rfl
        cases items with
        | nil => exact ⟨rfl, by simpa [wire, payloads] using hbytes⟩
        | cons item items =>
          -- a whole frame would be in the buffer
          obtain ⟨e', written, d', henc, -, -⟩ := hcodec.roundTrip e s.decoder item hR
          have hlen := congrArg List.length hbytes
          simp only [wire_cons henc, List.length_append, length_frame, List.length_nil] at hlen
          omega
    · cases items with
      | nil =>
        have hlen := congrArg List.length hbytes
        simp only [wire, payloads, List.flatMap_nil, List.length_append, List.length_nil] at hlen
        have : HEADER_SIZE = 5 := rfl
        omega
      | cons item items =>
        obtain ⟨e', written, d', henc, hdec, hR'⟩ := hcodec.roundTrip e s.decoder item hR
        have hps : payloads gz encoder compression e (item :: items) =
            payloadOf gz compression written :: payloads gz encoder compression e' items := by
          simp [payloads, henc]
        rw [hps] at hacc
        rw [wire_cons henc] at hbytes
        obtain ⟨hhdr, hrest⟩ := takeHeader_frame hacc (Nat.not_lt.mp hshort) hbytes
        have hacc' : Accepts compression s.inner (payloads gz encoder compression e' items) :=
          ⟨hacc.encoding, fun p hp => hacc.limit p (List.mem_cons_of_mem _ hp)⟩
        -- what follows is `decode_chunk` on the state behind the header
        let t : Streaming HeaderMap D := { s with inner := { s.inner with
          buf := s.inner.buf.drop HEADER_SIZE
          state := .readBody compression (payloadOf gz compression written).length } }
        have hst : s.decodeChunk gz decoder = t.decodeChunk gz decoder := by
          simp [Streaming.decodeChunk, decodeChunk, hstate, hshort, hhdr, t]
        rcases decodeBody_ahead (s := t) hgz hdec hR' rfl ⟨hacc'.encoding, hacc'.limit⟩ hrest with
          ⟨hnone, hlt⟩ | ⟨s', hs', hdir, h'⟩
        · refine .inl ⟨t, hst.trans hnone, rfl,
            .body henc hdec hR' rfl ⟨hacc'.encoding, hacc'.limit⟩ hrest, ?_⟩
          rintro rfl
          have hlen := congrArg List.length hrest
          simp only [List.length_append, List.length_nil] at hlen
          simp only [t] at hlt
          omega
        · exact .inr ⟨item, items, e', s', rfl, hst.trans hs', hdir, h'⟩

/-! ### Polls and runs -/

/-- Chunks that arrive move from the body to the buffer. -/
theorem Ahead.push {chunk : Bytes}
    (h : Ahead gz encoder decoder R compression s (chunk ++ rest) e items) :
    Ahead gz encoder decoder R compression
      { s with inner := { s.inner with buf := s.inner.buf ++ chunk } } rest e items := by
  cases h with
  | header hR hstate hacc hbytes =>
    exact .header hR hstate ⟨hacc.encoding, hacc.limit⟩ (by rw [List.append_assoc]; exact hbytes)
  | body henc hdec hR hstate hacc hbytes =>
    exact .body henc hdec hR hstate ⟨hacc.encoding, hacc.limit⟩
      (by rw [List.append_assoc]; exact hbytes)

theorem Ahead.state_ne_error (h : Ahead gz encoder decoder R compression s rest e items) :
    s.inner.state ≠ .error := by
  cases h with
  | header hR hstate hacc hbytes => simp [hstate]
  | body henc hdec hR hstate hacc hbytes => simp [hstate]

variable {fromHeaderMap : HeaderMap → Option Status}

/-- Once everything is delivered, the stream ends (or waits for the trailers). -/
theorem finish_trailersOk (body : Body HeaderMap) (s : Streaming HeaderMap D)
    (htr : TrailersOk fromHeaderMap s.inner.direction body.trailers) :
    (∃ waits, body.trailersPending = waits + 1 ∧ s.finish fromHeaderMap body =
        (Poll.pending (α := Option (Except Status Item)),
          { body with trailersPending := waits }, s)) ∨
    ∃ s', s.finish fromHeaderMap body =
        (Poll.ready (none : Option (Except Status Item)), body, s') := by
  cases hdir : s.inner.direction with
  | request => exact .inr ⟨s, by simp [finish, pollResponse, hdir]⟩
  | emptyResponse => exact .inr ⟨s, by simp [finish, pollResponse, hdir]⟩
  | response status =>
    obtain ⟨t, ht, hinfer⟩ := htr status hdir
    cases hw : body.trailersPending with
    | succ waits =>
      exact .inl ⟨waits, rfl, by simp [finish, pollResponse, hdir, hw]⟩
    | zero =>
      rcases hinfer with hinfer | hinfer
      · exact .inr ⟨{ s with inner := { s.inner with trailers := t } }, by
          simp [finish, pollResponse, hdir, hw, ht, hinfer]⟩
      · exact .inr ⟨s, by
          simp [finish, pollResponse, hdir, hw, ht, hinfer]⟩

/-- **Poll.** A poll delivers the next message, or is pending having used up an
    answer of the body, or ends the stream with nothing undelivered. -/
theorem pollLoop_ahead (hgz : gz.Inverts) (hcodec : Inverts encoder decoder R)
    {body : Body HeaderMap} (events : List BodyEvent) :
    ∀ s : Streaming HeaderMap D, NoError events →
      TrailersOk fromHeaderMap s.inner.direction body.trailers →
      Ahead gz encoder decoder R compression s (chunks events) e items →
      ∃ result body' s',
        s.pollLoop gz fromHeaderMap decoder body events = (result, body', s') ∧
        ((result = .ready none ∧ items = []) ∨
          (NoError body'.events ∧ TrailersOk fromHeaderMap s'.inner.direction body'.trailers ∧
            ((result = .pending ∧
                body'.events.length + body'.trailersPending <
                  events.length + body.trailersPending ∧
                Ahead gz encoder decoder R compression s' (chunks body'.events) e items) ∨
              ∃ item tail e', items = item :: tail ∧ result = .ready (some (.ok item)) ∧
                body'.events.length + body'.trailersPending ≤
                  events.length + body.trailersPending ∧
                Ahead gz encoder decoder R compression s' (chunks body'.events) e' tail))) := by
  induction events with
  | nil =>
    intro s hno htr h
    rcases decodeChunk_ahead hgz hcodec h with
      ⟨s', hs', hdir, h', hend⟩ | ⟨item, tail, e', s', rfl, hs', hdir, h'⟩
    · obtain ⟨rfl, hbuf⟩ := hend rfl
      -- no message is complete and the body is over: what is buffered is empty by `hend`
      have hloop : s.pollLoop gz fromHeaderMap decoder body [] =
          s'.finish fromHeaderMap { body with events := [] } := by
        simp [pollLoop, h.state_ne_error, hs', pollData, hbuf]
      rw [← hdir] at htr
      rcases finish_trailersOk { body with events := [] } s' htr with
        ⟨waits, hw, hfin⟩ | ⟨s'', hfin⟩
      · refine ⟨.pending, _, s', hloop.trans hfin, .inr ⟨hno, htr, .inl ⟨rfl, ?_, h'⟩⟩⟩
        simp only at hw ⊢
        omega
      · exact ⟨.ready none, _, s'', hloop.trans hfin, .inl ⟨rfl, rfl⟩⟩
    · refine ⟨.ready (some (.ok item)), { body with events := [] }, s', ?_,
        .inr ⟨hno, by rw [hdir]; exact htr, .inr ⟨item, tail, e', rfl, rfl, by simp, h'⟩⟩⟩
      simp [pollLoop, h.state_ne_error, hs']
  | cons event events ih =>
    intro s hno htr h
    have hno' : NoError events := fun status hmem => hno status (List.mem_cons_of_mem _ hmem)
    rcases decodeChunk_ahead hgz hcodec h with
      ⟨s', hs', hdir, h', -⟩ | ⟨item, tail, e', s', rfl, hs', hdir, h'⟩
    · rw [← hdir] at htr
      cases event with
      | error status => exact absurd (List.mem_cons_self ..) (hno status)
      -- the body has nothing yet: the poll waits, one event shorter
      | pending =>
        refine ⟨.pending, { body with events := events }, s', ?_,
          .inr ⟨hno', htr, .inl ⟨rfl, by simp, h'⟩⟩⟩
        simp [pollLoop, h.state_ne_error, hs', pollData]
      | data chunk =>
        -- the chunk goes to the end of the buffer and the loop tries to decode again
        obtain ⟨result, body', s'', hloop, hres⟩ := ih
          { s' with inner := { s'.inner with buf := s'.inner.buf ++ chunk } } hno' htr h'.push
        refine ⟨result, body', s'', ?_, ?_⟩
        · rw [← hloop, pollLoop]
          simp [h.state_ne_error, hs', pollData]
        · rcases hres with hres | ⟨hne, hto, ⟨hp, hlt, ha⟩ | ⟨item, tail, e', hi, hr, hle, ha⟩⟩
          · exact .inl hres
          · exact .inr ⟨hne, hto, .inl ⟨hp, by simp; omega, ha⟩⟩
          · exact .inr ⟨hne, hto, .inr ⟨item, tail, e', hi, hr, by simp; omega, ha⟩⟩
    -- a complete message is delivered without asking the body
    · refine ⟨.ready (some (.ok item)), { body with events := event :: events }, s', ?_,
        .inr ⟨hno, by rw [hdir]; exact htr, .inr ⟨item, tail, e', rfl, rfl, le_rfl, h'⟩⟩⟩
      simp [pollLoop, h.state_ne_error, hs']

/-- **Run.** Polling often enough delivers exactly the messages ahead. -/
theorem collect_ahead (hgz : gz.Inverts) (hcodec : Inverts encoder decoder R) (polls : Nat) :
    ∀ (body : Body HeaderMap) (s : Streaming HeaderMap D) (e : E) (items : List Item),
      NoError body.events → TrailersOk fromHeaderMap s.inner.direction body.trailers →
      Ahead gz encoder decoder R compression s (chunks body.events) e items →
      body.events.length + body.trailersPending + items.length < polls →
      s.collect gz fromHeaderMap decoder polls body = some (items.map .ok) := by
  induction polls with
  | zero => omega
  | succ polls ih =>
    intro body s e items hno htr h hlt
    obtain ⟨result, body', s', hpoll, hres⟩ := pollLoop_ahead hgz hcodec body.events s hno htr h
    rw [Streaming.collect, Streaming.pollNext, hpoll]
    rcases hres with ⟨rfl, rfl⟩ | ⟨hno', htr', ⟨rfl, hdec, h'⟩ | ⟨item, tail, e', rfl, rfl, hle,
      h'⟩⟩
    · rfl
    · exact ih body' s' e items hno' htr' h' (by omega)
    · have hlen : body'.events.length + body'.trailersPending + tail.length < polls := by
        simp only [List.length_cons] at hlt
        omega
      simp [ih body' s' e' tail hno' htr' h' hlen]

/-- **Round trip.** With a codec whose decoder inverts its encoder, gzip inverted
    by its decompressor, the same compression setting on both sides and limits
    that no payload exceeds, `encode` writes a frame for every message; and
    however the body cuts these bytes into chunks, the stream yields exactly the
    messages in order and then ends. -/
theorem collect_encode (hgz : gz.Inverts) (display : Status → String)
    (hcodec : Inverts encoder decoder R) {e : E} {d : D} (hR : R e d) (items : List Item)
    (compressionEncoding : Option CompressionEncoding)
    (compressionOverride : SingleMessageCompressionOverride) (maxSend maxRecv : Option Nat)
    (space : Nat → HeaderSpace)
    (hlim : ∀ p ∈ payloads gz encoder
        (effectiveCompression compressionEncoding compressionOverride) e items,
      p.length ≤ maxSend.getD DEFAULT_MAX_SEND_MESSAGE_SIZE ∧
      p.length ≤ maxRecv.getD DEFAULT_MAX_RECV_MESSAGE_SIZE ∧ p.length < 2 ^ 32) :
    ∃ written : List Bytes,
      encode gz display encoder e (items.map .ok) compressionEncoding compressionOverride maxSend
        space = written.map .ok ∧
      ∀ (fromHeaderMap : HeaderMap → Option Status) (direction : Direction)
        (body : Body HeaderMap), chunks body.events = written.flatten → NoError body.events →
        TrailersOk fromHeaderMap direction body.trailers →
        ∃ enough, ∀ polls ≥ enough,
          (new d direction compressionEncoding maxRecv).collect gz fromHeaderMap decoder
            polls body = some (items.map .ok) := by
  refine ⟨(payloads gz encoder (effectiveCompression compressionEncoding compressionOverride) e
    items).map (frame (effectiveCompression compressionEncoding compressionOverride)), ?_, ?_⟩
  · rw [List.map_map]
    exact encode_eq_frames hgz display hcodec hR compressionEncoding compressionOverride maxSend
      space items fun p hp => ⟨(hlim p hp).1, (hlim p hp).2.2⟩
  · intro fromHeaderMap direction body hbytes hno htr
    refine ⟨body.events.length + body.trailersPending + items.length + 1, fun polls hpolls => ?_⟩
    have hahead : Ahead gz encoder decoder R
        (effectiveCompression compressionEncoding compressionOverride)
        (new d direction compressionEncoding maxRecv : Streaming HeaderMap D)
        (chunks body.events) e items := by
      refine .header hR rfl ⟨?_, fun p hp => (hlim p hp).2⟩ ?_
      · intro c hc
        -- unless overridden, the sender compresses with the configured encoding
        unfold effectiveCompression at hc
        split at hc
        · simp at hc
        · exact hc
      · simp only [new, List.nil_append, hbytes, wire, List.flatMap_def]
    exact collect_ahead hgz hcodec polls body _ e items hno htr hahead (by omega)

/-- A codec that sends byte strings as they are. -/
def rawEncoder : Encoder Unit Bytes := ⟨fun _ item => ((), item, .ok ())⟩

@[inherit_doc rawEncoder]
def rawDecoder : Decoder Unit Bytes :=
  ⟨fun _ src => ((), src.length, .ok (some src)), fun _ _ => le_rfl⟩

/-- Two raw messages, one of them empty, sent uncompressed with the default limits. -/
theorem collect_encode_raw :
    ∃ written : List Bytes,
      encode ⟨fun b => (b, .ok ()), fun b => (b, .ok ())⟩ Status.message rawEncoder ()
        ([[7, 8], []].map .ok) none .inherit none
        (fun _ => ⟨[0, 0, 0, 0, 0], rfl⟩) = written.map .ok ∧
      ∀ (fromHeaderMap : Unit → Option Status) (direction : Direction)
        (body : Body Unit), chunks body.events = written.flatten → NoError body.events →
        TrailersOk fromHeaderMap direction body.trailers →
        ∃ enough, ∀ polls ≥ enough,
          (new () direction none none).collect ⟨fun b => (b, .ok ()), fun b => (b,
            .ok ())⟩
            fromHeaderMap rawDecoder polls body = some ([[7, 8], []].map .ok) :=
  collect_encode (R := fun _ _ => True) (fun input => ⟨input, rfl, rfl⟩) Status.message
    ⟨fun _ _ item _ => ⟨(), item, (), rfl, rfl, trivial⟩⟩ trivial [[7, 8], []] none .inherit none
    none (fun _ => ⟨[0, 0, 0, 0, 0], rfl⟩) (by decide)

end TeaclaveCrates.Tonic
