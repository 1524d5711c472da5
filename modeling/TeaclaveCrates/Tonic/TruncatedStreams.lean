import TeaclaveCrates.Tonic.FailedStreams

namespace TeaclaveCrates.Tonic

open TeaclaveCrates.Lib
open StreamingInner (decodeChunk pollData pollResponse takeBody takeHeader)

/-!
# tonic — bodies that are cut off

What a `Streaming` makes of any byte string, however it is delivered: the messages of the complete
frames in front, and then an error or the end of the stream.

* `IsFrames` — a byte string of complete frames;
* `readFrames` — the messages of the frames in front, and how the bytes behind them look;
* `Stands` — the invariant: what is buffered and still to come reads as what is left;
* `outcome` — the messages up to the first error or the end;
* `truncated_iff` — when a cut off body ends in an error.
-/

variable {HeaderMap D Item : Type}

/-- Complete frames one after the other, none of them beyond the limit. -/
def IsFrames (limit : Nat) (bytes : Bytes) : Prop :=
  ∃ frames : List (Option CompressionEncoding × Bytes),
    (∀ f ∈ frames, f.2.length ≤ limit ∧ f.2.length < 2 ^ 32) ∧
      bytes = frames.flatMap fun f => frame f.1 f.2

/-- A decoder that takes the whole message and makes an item of it, or fails. -/
def Decoder.Whole (dec : Decoder D Item) : Prop :=
  ∀ d src, (∃ d' item, dec.decode d src = (d', src.length, .ok (some item))) ∨
    ∃ d' taken status, dec.decode d src = (d', taken, .error status)

/-- How the bytes behind the frames look: there are none, or only a header that announces a message;
    or they are cut off elsewhere, or invalid. -/
inductive Ending
  | complete
  | bareHeader
  | broken
deriving DecidableEq, Repr

section Reading

variable (gz : Gzip) (dec : Decoder D Item) (encoding : Option CompressionEncoding) (limit : Nat)

/-- The message of a payload, and the decoder behind it. -/
def decodePayload (compression : Option CompressionEncoding) (d : D) (payload : Bytes) :
    Option (D × Item) :=
  let decoded (src : Bytes) : Option (D × Item) :=
    match dec.decode d src with
    | (d', _, .ok (some item)) => some (d', item)
    | _ => none
  match compression with
  | none => decoded payload
  | some .gzip =>
    match gz.decompress payload with
    | (output, .ok ()) => decoded output
    | (_, .error _) => none

/-- The compression that a flag byte stands for. -/
def flagCompression (flag : UInt8) : Option (Option CompressionEncoding) :=
  if flag = 0 then some none else if flag = 1 then encoding.map some else none

mutual

/-- From a header on. -/
def readFrames (d : D) (bytes : Bytes) : List Item × Ending :=
  -- less than a header: only nothing at all is no error
  if _h : bytes.length < HEADER_SIZE then
    ([], if bytes = [] then .complete else .broken)
  else
    match flagCompression encoding (bytes.headD 0) with
    | none => ([], .broken)
    | some compression =>
      let len := ofBE ((bytes.drop 1).take 4)
      if limit < len then ([], .broken) else readPayload compression len d (bytes.drop HEADER_SIZE)
termination_by 2 * bytes.length
decreasing_by
  have : HEADER_SIZE = 5 := rfl
  rw [List.length_drop]
  omega

/-- Behind a header. -/
def readPayload (compression : Option CompressionEncoding) (len : Nat) (d : D) (bytes : Bytes) :
    List Item × Ending :=
  -- a message without bytes is complete at once, so what is missing here has been announced
  if bytes.length < len then
    ([], if bytes = [] then .bareHeader else .broken)
  else
    match decodePayload gz dec compression d (bytes.take len) with
    | none => ([], .broken)
    | some (d', item) =>
      let r := readFrames d' (bytes.drop len)
      (item :: r.1, r.2)
termination_by 2 * bytes.length + 1
decreasing_by
  rw [List.length_drop]
  omega

end

end Reading

/-- Polls until the first error or the end of the stream: the messages, and the error. -/
def outcome (gz : Gzip) (fromHeaderMap : HeaderMap → Option Status) (dec : Decoder D Item) :
    Nat → Body HeaderMap → Streaming HeaderMap D → Option (List Item × Option Status)
  | 0, _, _ => none
  | polls + 1, body, s =>
    match s.pollNext gz fromHeaderMap dec body with
    | (.pending, body, s) => outcome gz fromHeaderMap dec polls body s
    | (.ready none, _, _) => some ([], none)
    | (.ready (some (.error status)), _, _) => some ([], some status)
    | (.ready (some (.ok item)), body, s) =>
      (outcome gz fromHeaderMap dec polls body s).map fun r => (item :: r.1, r.2)

section Invariant

variable (gz : Gzip) (dec : Decoder D Item)

/-- What is buffered and still to come reads as `items` and `ending`, before a header or behind
    one. -/
inductive Stands (s : Streaming HeaderMap D) (rest : Bytes) (items : List Item) (ending : Ending) :
    Prop
  | header (hstate : s.inner.state = .readHeader)
      (hreads : readFrames gz dec s.inner.encoding
        (s.inner.maxMessageSize.getD DEFAULT_MAX_RECV_MESSAGE_SIZE) s.decoder
        (s.inner.buf ++ rest) = (items, ending))
  | body {compression len} (hstate : s.inner.state = .readBody compression len)
      (hreads : readPayload gz dec s.inner.encoding
        (s.inner.maxMessageSize.getD DEFAULT_MAX_RECV_MESSAGE_SIZE) compression len s.decoder
        (s.inner.buf ++ rest) = (items, ending))

/-- What one call of `decode_chunk` does with a stream that stands so. -/
inductive Decoded (direction : Direction) (rest : Bytes) :
    List Item → Ending → Except Status (Option Item) × Streaming HeaderMap D → Prop
  | wait {items ending s'} (hdirection : s'.inner.direction = direction)
      (hstands : Stands gz dec s' rest items ending)
      (hend : rest = [] → items = [] ∧ (s'.inner.buf = [] ↔ ending ≠ .broken)) :
      Decoded direction rest items ending (.ok none, s')
  | item {item tail ending s'} (hdirection : s'.inner.direction = direction)
      (hstands : Stands gz dec s' rest tail ending) :
      Decoded direction rest (item :: tail) ending (.ok (some item), s')
  -- the messages in front have been given out by then
  | fails {status s'} : Decoded direction rest [] .broken (.error status, s')

end Invariant

variable {gz : Gzip} {dec : Decoder D Item} {s s' : Streaming HeaderMap D} {rest : Bytes}
  {items : List Item} {ending : Ending}

/-! ### Reading -/

theorem IsFrames.nil (limit : Nat) : IsFrames limit [] := ⟨[], by simp, rfl⟩

variable {compression : Option CompressionEncoding}

theorem IsFrames.cons {limit : Nat} {payload bytes : Bytes} (hlimit : payload.length ≤ limit)
    (hu32 : payload.length < 2 ^ 32) (h : IsFrames limit bytes) :
    IsFrames limit (frame compression payload ++ bytes) := by
  obtain ⟨frames, hframes, rfl⟩ := h
  refine ⟨(compression, payload) :: frames, ?_, by simp⟩
  intro f hf
  rcases List.mem_cons.mp hf with rfl | hf
  · exact ⟨hlimit, hu32⟩
  · exact hframes f hf

/-- The flag byte of a frame says how its payload is compressed. -/
theorem flagCompression_some {encoding : Option CompressionEncoding} {flag : UInt8}
    (h : flagCompression encoding flag = some compression) :
    flag = if compression.isSome then 1 else 0 := by
  unfold flagCompression at h
  split_ifs at h with h0 h1
  · cases h
    exact h0
  · obtain ⟨c, -, rfl⟩ := Option.map_eq_some_iff.mp h
    exact h1

/-- Bytes with a whole frame in front are this frame and the bytes behind it. -/
theorem eq_frame_append {bytes : Bytes} {len : Nat} (hlen : 5 ≤ bytes.length)
    (hflag : bytes.headD 0 = if compression.isSome then 1 else 0)
    (hfield : ofBE ((bytes.drop 1).take 4) = len) (hwhole : len ≤ (bytes.drop 5).length) :
    bytes = frame compression ((bytes.drop 5).take len) ++ (bytes.drop 5).drop len := by
  have hpayload : ((bytes.drop 5).take len).length = len := by simpa using hwhole
  have hbe : toBE 4 len = (bytes.drop 1).take 4 := by
    have h4 : ((bytes.drop 1).take 4).length = 4 := by
      rw [List.length_take, List.length_drop]
      omega
    have h := toBE_ofBE ((bytes.drop 1).take 4)
    rwa [h4, hfield] at h
  have hdrop : bytes.drop 5 = (bytes.drop 1).drop 4 := by rw [List.drop_drop]
  rw [frame, hpayload, hbe, ← hflag, List.append_assoc, List.take_append_drop, hdrop,
    List.cons_append, List.take_append_drop]
  cases bytes with
  | nil => simp at hlen
  | cons flag bytes => rfl

/-- Bytes that end behind a frame are complete frames. -/
theorem isFrames_of_complete {encoding : Option CompressionEncoding} {limit : Nat} (n : Nat) :
    ∀ {d : D} {bytes : Bytes}, bytes.length ≤ n →
      (readFrames gz dec encoding limit d bytes).2 = .complete → IsFrames limit bytes := by
  induction n with
  | zero =>
    intro d bytes hn _
    rw [List.eq_nil_of_length_eq_zero (Nat.le_zero.mp hn)]
    exact .nil limit
  | succ n ih =>
    intro d bytes hn h
    rw [readFrames] at h
    split_ifs at h with hshort hbytes
    · rw [hbytes]
      exact .nil limit
    · have hlen : 5 ≤ bytes.length := Nat.not_lt.mp hshort
      cases hcompression : flagCompression encoding (bytes.headD 0) with
      | none =>
        rw [hcompression] at h
        cases h
      | some compression =>
        rw [hcompression] at h
        dsimp only at h
        split_ifs at h with hlimit
        rw [readPayload] at h
        split_ifs at h with hcut
        · have hwhole : ofBE ((bytes.drop 1).take 4) ≤ (bytes.drop 5).length := Nat.not_lt.mp hcut
          cases hdecode : decodePayload gz dec compression d
              ((bytes.drop HEADER_SIZE).take (ofBE ((bytes.drop 1).take 4))) with
          | none =>
            rw [hdecode] at h
            cases h
          | some r =>
            rw [hdecode] at h
            have hrest := ih (by rw [List.length_drop, List.length_drop, HEADER_SIZE]; omega) h
            rw [eq_frame_append hlen (flagCompression_some hcompression) rfl hwhole]
            have hpayload : ((bytes.drop 5).take (ofBE ((bytes.drop 1).take 4))).length =
                ofBE ((bytes.drop 1).take 4) := by simpa using hwhole
            refine hrest.cons (by rw [hpayload]; omega) ?_
            rw [hpayload]
            calc ofBE ((bytes.drop 1).take 4) < 256 ^ ((bytes.drop 1).take 4).length := ofBE_lt _
              _ = 2 ^ 32 := by
                rw [List.length_take, List.length_drop, Nat.min_eq_left (by omega)]
                norm_num

/-! ### One call of `decode_chunk` -/

theorem compressionFlag_eq (s : StreamingInner HeaderMap) (flag : UInt8) :
    (flagCompression s.encoding flag = none ∧ ∃ status, s.compressionFlag flag = .error status) ∨
      ∃ compression, flagCompression s.encoding flag = some compression ∧
        s.compressionFlag flag = .ok compression := by
  unfold flagCompression StreamingInner.compressionFlag
  by_cases h0 : flag = 0
  · exact .inr ⟨none, by simp [h0]⟩
  by_cases h1 : flag = 1
  · cases hencoding : s.encoding with
    | none => exact .inl ⟨by simp [h1], by simp [h1]⟩
    | some encoding => exact .inr ⟨some encoding, by simp [h1]⟩
  · refine .inl ⟨by simp [h0, h1], ?_⟩
    cases hdirection : s.direction <;> simp [h0, h1]

/-- A whole payload is decoded, or fails. -/
theorem decodeChunk_payload (hdec : dec.Whole) {len : Nat}
    (hstate : s.inner.state = .readBody compression len) (hlen : len ≤ s.inner.buf.length) :
    (decodePayload gz dec compression s.decoder (s.inner.buf.take len) = none ∧
        ∃ status, (s.decodeChunk gz dec).1 = .error status) ∨
      ∃ item d decompressBuf,
        decodePayload gz dec compression s.decoder (s.inner.buf.take len) = some (d, item) ∧
        s.decodeChunk gz dec = (.ok (some item), ⟨d, { s.inner with
          buf := s.inner.buf.drop len, decompressBuf := decompressBuf, state := .readHeader }⟩) := by
  have htake : (s.inner.buf.take len).length = len := by simpa using hlen
  have hshort : ¬s.inner.buf.length < len := Nat.not_lt.mpr hlen
  cases compression with
  | none =>
    rcases hdec s.decoder (s.inner.buf.take len) with ⟨d, item, hitem⟩ | ⟨d, taken, status, herror⟩
    · rw [htake] at hitem
      refine .inr ⟨item, d, s.inner.decompressBuf, by simp [decodePayload, hitem], ?_⟩
      simp [Streaming.decodeChunk, decodeChunk, takeBody, hstate,
        hshort, hitem]
    · refine .inl ⟨by simp [decodePayload, herror], status, ?_⟩
      simp [Streaming.decodeChunk, decodeChunk, takeBody, hstate,
        hshort, herror]
  | some encoding =>
    rcases hout : gz.decompress (s.inner.buf.take len) with ⟨output, err | _⟩
    · refine .inl ⟨by simp [decodePayload, hout], ?_⟩
      cases hdirection : s.inner.direction <;>
        simp [Streaming.decodeChunk, decodeChunk, takeBody, hstate,
          hshort, decompress, hout, hdirection]
    · rcases hdec s.decoder output with ⟨d, item, hitem⟩ | ⟨d, taken, status, herror⟩
      · refine .inr ⟨item, d, [], by simp [decodePayload, hout, hitem], ?_⟩
        simp [Streaming.decodeChunk, decodeChunk, takeBody, hstate,
          hshort, decompress, hout, hitem]
      · refine .inl ⟨by simp [decodePayload, hout, herror], status, ?_⟩
        simp [Streaming.decodeChunk, decodeChunk, takeBody, hstate,
          hshort, decompress, hout, herror]

theorem Decoded.of_error {direction : Direction}
    {r : Except Status (Option Item) × Streaming HeaderMap D}
    (h : ∃ status, r.1 = .error status) : Decoded gz dec direction rest [] .broken r := by
  obtain ⟨status, hstatus⟩ := h
  obtain ⟨result, s'⟩ := r
  cases hstatus
  exact .fails

theorem decodeBody_stands (hdec : dec.Whole) {len : Nat}
    (hstate : s.inner.state = .readBody compression len)
    (hreads : readPayload gz dec s.inner.encoding
      (s.inner.maxMessageSize.getD DEFAULT_MAX_RECV_MESSAGE_SIZE) compression len s.decoder
      (s.inner.buf ++ rest) = (items, ending)) :
    Decoded gz dec s.inner.direction rest items ending (s.decodeChunk gz dec) := by
  by_cases hshort : s.inner.buf.length < len
  · have hnone : s.decodeChunk gz dec = (.ok none, s) := by
      simp [Streaming.decodeChunk, decodeChunk, takeBody, hstate,
        hshort]
    rw [hnone]
    refine .wait rfl (.body hstate hreads) ?_
    rintro rfl
    rw [List.append_nil, readPayload, if_pos hshort, Prod.mk.injEq] at hreads
    obtain ⟨rfl, rfl⟩ := hreads
    refine ⟨rfl, ?_⟩
    by_cases hbuf : s.inner.buf = [] <;> simp [hbuf]
  · -- the whole payload is in the buffer
    have hlen : len ≤ s.inner.buf.length := Nat.not_lt.mp hshort
    rw [readPayload, if_neg (by rw [List.length_append]; omega),
      List.take_append_of_le_length hlen, List.drop_append_of_le_length hlen] at hreads
    rcases decodeChunk_payload hdec hstate hlen with ⟨hnone, herror⟩ | ⟨item, d, out, hsome, hchunk⟩
    · rw [hnone, Prod.mk.injEq] at hreads
      obtain ⟨rfl, rfl⟩ := hreads
      exact .of_error herror
    · rw [hsome, Prod.mk.injEq] at hreads
      obtain ⟨rfl, rfl⟩ := hreads
      rw [hchunk]
      exact .item rfl (.header rfl rfl)

theorem decodeChunk_stands (hdec : dec.Whole) (h : Stands gz dec s rest items ending) :
    Decoded gz dec s.inner.direction rest items ending (s.decodeChunk gz dec) := by
  cases h with
  | body hstate hreads => exact decodeBody_stands hdec hstate hreads
  | header hstate hreads =>
    by_cases hshort : s.inner.buf.length < HEADER_SIZE
    · have hnone : s.decodeChunk gz dec = (.ok none, s) := by
        simp [Streaming.decodeChunk, decodeChunk, hstate, hshort]
      rw [hnone]
      refine .wait rfl (.header hstate hreads) ?_
      rintro rfl
      rw [List.append_nil, readFrames, dif_pos hshort, Prod.mk.injEq] at hreads
      obtain ⟨rfl, rfl⟩ := hreads
      refine ⟨rfl, ?_⟩
      by_cases hbuf : s.inner.buf = [] <;> simp [hbuf]
    · -- a whole header is in the buffer
      have hlen : 5 ≤ s.inner.buf.length := Nat.not_lt.mp hshort
      have hhead : (s.inner.buf ++ rest).headD 0 = s.inner.buf.headD 0 := by
        cases hbuf : s.inner.buf with
        | nil => simp [hbuf] at hlen
        | cons flag buf => rfl
      have hfield : ((s.inner.buf ++ rest).drop 1).take 4 = (s.inner.buf.drop 1).take 4 := by
        rw [List.drop_append_of_le_length (by omega),
          List.take_append_of_le_length (by rw [List.length_drop]; omega)]
      have hdrop : (s.inner.buf ++ rest).drop HEADER_SIZE = s.inner.buf.drop HEADER_SIZE ++ rest :=
        List.drop_append_of_le_length hlen
      rw [readFrames, dif_neg (by rw [List.length_append]; exact fun h => hshort (by omega)), hhead,
        hfield, hdrop] at hreads
      rcases compressionFlag_eq s.inner (s.inner.buf.headD 0) with
        ⟨hnone, status, hflag⟩ | ⟨compression, hsome, hflag⟩
      · rw [hnone, Prod.mk.injEq] at hreads
        obtain ⟨rfl, rfl⟩ := hreads
        have hheader : s.inner.takeHeader =
            (.error status, { s.inner with buf := s.inner.buf.drop 1 }) := by
          simp only [takeHeader, hflag]
        refine .of_error ⟨status, ?_⟩
        simp [Streaming.decodeChunk, decodeChunk, hstate, hshort, hheader]
      · rw [hsome] at hreads
        dsimp only at hreads
        split_ifs at hreads with hlimit
        · rw [Prod.mk.injEq] at hreads
          obtain ⟨rfl, rfl⟩ := hreads
          obtain ⟨status, inner, hheader⟩ : ∃ status inner,
              s.inner.takeHeader = (.error status, inner) := by
            simp only [takeHeader, hflag, if_pos hlimit, Prod.mk.injEq,
              Except.error.injEq]
            exact ⟨_, _, rfl, rfl⟩
          refine .of_error ⟨status, ?_⟩
          simp [Streaming.decodeChunk, decodeChunk, hstate, hshort, hheader]
        · -- what follows is `decode_chunk` on the state behind the header
          let t : Streaming HeaderMap D := { s with inner := { s.inner with
            buf := s.inner.buf.drop HEADER_SIZE
            state := .readBody compression (ofBE ((s.inner.buf.drop 1).take 4)) } }
          have hheader : s.inner.takeHeader = (.ok (), t.inner) := by
            simp only [takeHeader, hflag, if_neg hlimit, t]
          have hst : s.decodeChunk gz dec = t.decodeChunk gz dec := by
            simp [Streaming.decodeChunk, decodeChunk, hstate, hshort, hheader, t]
          rw [hst]
          exact decodeBody_stands (s := t) hdec rfl hreads

/-! ### Polls and runs -/

section Polled

variable (gz : Gzip) (fromHeaderMap : HeaderMap → Option Status) (dec : Decoder D Item)

/-- What one poll does with a stream that stands so: `waits` bounds the answers the body has
    left. -/
inductive Polled (direction : Direction) (trailers : Except Status (Option HeaderMap))
    (waits : Nat) : List Item → Ending →
      Poll (Option (Except Status Item)) × Body HeaderMap × Streaming HeaderMap D → Prop
  | pending {items ending body s}
      (hfewer : body.events.length + body.trailersPending < waits)
      (hno : NoError body.events) (htrailers : body.trailers = trailers)
      (hdirection : s.inner.direction = direction)
      (hstands : Stands gz dec s (chunks body.events) items ending) :
      Polled direction trailers waits items ending (.pending, body, s)
  | item {item tail ending body s}
      (hle : body.events.length + body.trailersPending ≤ waits)
      (hno : NoError body.events) (htrailers : body.trailers = trailers)
      (hdirection : s.inner.direction = direction)
      (hstands : Stands gz dec s (chunks body.events) tail ending) :
      Polled direction trailers waits (item :: tail) ending (.ready (some (.ok item)), body, s)
  | ended {ending body s} (hending : ending ≠ .broken)
      (hok : TrailersOk fromHeaderMap direction trailers) :
      Polled direction trailers waits [] ending (.ready none, body, s)
  | failed {ending status body s}
      (hbad : ending = .broken ∨ ¬TrailersOk fromHeaderMap direction trailers) :
      Polled direction trailers waits [] ending (.ready (some (.error status)), body, s)

end Polled

variable {fromHeaderMap : HeaderMap → Option Status}

theorem Stands.state_ne_error (h : Stands gz dec s rest items ending) :
    s.inner.state ≠ .error := by
  cases h with
  | header hstate => simp [hstate]
  | body hstate => simp [hstate]

/-- Chunks that arrive move from the body to the buffer. -/
theorem Stands.push {chunk : Bytes} (h : Stands gz dec s (chunk ++ rest) items ending) :
    Stands gz dec { s with inner := { s.inner with buf := s.inner.buf ++ chunk } } rest items
      ending := by
  cases h with
  | header hstate hreads =>
    exact .header hstate (by rw [← hreads, List.append_assoc])
  | body hstate hreads =>
    exact .body hstate (by rw [← hreads, List.append_assoc])

/-- Trailers that report an error end the stream with it. -/
theorem finish_trailersBad (body : Body HeaderMap)
    (htrailers : ¬TrailersOk fromHeaderMap s.inner.direction body.trailers) :
    (∃ waits, body.trailersPending = waits + 1 ∧ s.finish fromHeaderMap body =
        (Poll.pending (α := Option (Except Status Item)),
          { body with trailersPending := waits }, s)) ∨
    ∃ status s', s.finish fromHeaderMap body =
        (Poll.ready (some (.error status) : Option (Except Status Item)), body, s') := by
  cases hdirection : s.inner.direction with
  | request => exact absurd (fun status h => by simp [hdirection] at h) htrailers
  | emptyResponse => exact absurd (fun status h => by simp [hdirection] at h) htrailers
  | response status =>
    cases hw : body.trailersPending with
    | succ waits =>
      exact .inl ⟨waits, rfl, by
        simp [Streaming.finish, pollResponse, hdirection, hw]⟩
    | zero =>
      refine .inr ?_
      cases htr : body.trailers with
      | error e =>
        exact ⟨e, s, by simp [Streaming.finish, pollResponse, hdirection, hw, htr]⟩
      | ok t =>
        cases hinfer : inferGrpcStatus fromHeaderMap t status with
        | ok u =>
          refine absurd (fun status' h => ⟨t, htr, .inl ?_⟩) htrailers
          cases hdirection.symm.trans h
          exact hinfer
        | error e =>
          cases e with
          | none =>
            refine absurd (fun status' h => ⟨t, htr, .inr ?_⟩) htrailers
            cases hdirection.symm.trans h
            exact hinfer
          | some e =>
            exact ⟨e, s, by
              simp [Streaming.finish, pollResponse, hdirection, hw, htr, hinfer]⟩

/-- At the end of a body that is not broken the trailers decide. -/
theorem finish_stands (fromHeaderMap : HeaderMap → Option Status) {body : Body HeaderMap}
    (hbody : body.events = []) (hstands : Stands gz dec s [] [] ending)
    (hending : ending ≠ .broken) :
    Polled gz fromHeaderMap dec s.inner.direction body.trailers body.trailersPending [] ending
      (s.finish fromHeaderMap body) := by
  have hpending : ∀ waits, body.trailersPending = waits + 1 →
      Polled gz fromHeaderMap dec s.inner.direction body.trailers body.trailersPending [] ending
        (.pending, { body with trailersPending := waits }, s) := by
    intro waits hw
    refine .pending ?_ ?_ rfl rfl ?_
    · simp only [hbody, hw, List.length_nil]
      omega
    · exact fun status hmem => by simp [hbody] at hmem
    · simpa [hbody, chunks] using hstands
  by_cases hok : TrailersOk fromHeaderMap s.inner.direction body.trailers
  · rcases @finish_trailersOk HeaderMap D Item _ body s hok with ⟨waits, hw, hfinish⟩ | ⟨s', hfinish⟩
    · rw [hfinish]
      exact hpending waits hw
    · rw [hfinish]
      exact .ended hending hok
  · rcases @finish_trailersBad HeaderMap D Item s _ body hok with
      ⟨waits, hw, hfinish⟩ | ⟨status, s', hfinish⟩
    · rw [hfinish]
      exact hpending waits hw
    · rw [hfinish]
      exact .failed (.inr hok)

/-- **Poll.** A poll gives the next message, or is pending and has used up an answer of the body, or
    ends the stream, with an error if the bytes are broken or the trailers bad. -/
theorem pollLoop_stands (hdec : dec.Whole) (fromHeaderMap : HeaderMap → Option Status)
    (body : Body HeaderMap) {events : List BodyEvent} (hno : NoError events)
    (h : Stands gz dec s (chunks events) items ending) :
    Polled gz fromHeaderMap dec s.inner.direction body.trailers
      (events.length + body.trailersPending) items ending
      (s.pollLoop gz fromHeaderMap dec body events) := by
  induction events generalizing s with
  | nil =>
    have hstep := decodeChunk_stands hdec h
    rw [Streaming.pollLoop, if_neg h.state_ne_error]
    generalize s.decodeChunk gz dec = r at hstep ⊢
    cases hstep with
    | @item item tail ending s' hdirection hstands =>
      exact .item (by simp) hno rfl hdirection hstands
    | fails => exact .failed (.inl rfl)
    | @wait items ending s' hdirection hstands hend =>
      obtain ⟨rfl, hbuf⟩ := hend rfl
      rw [← hdirection]
      dsimp only [pollData]
      split_ifs with hlen
      · -- bytes are left over
        have hbroken : ending = .broken := by
          by_contra hne
          exact hlen (by simp [hbuf.mpr hne])
        exact .failed (.inl hbroken)
      · have hending : ending ≠ .broken := hbuf.mp (by simpa using hlen)
        have hfinish := @finish_stands HeaderMap D Item gz dec s' ending fromHeaderMap
          { body with events := [] } rfl hstands hending
        simpa using hfinish
  | cons event events ih =>
    have hno' : NoError events := fun status hmem => hno status (List.mem_cons_of_mem _ hmem)
    have hstep := decodeChunk_stands hdec h
    rw [Streaming.pollLoop, if_neg h.state_ne_error]
    generalize s.decodeChunk gz dec = r at hstep ⊢
    cases hstep with
    | @item item tail ending s' hdirection hstands =>
      exact .item le_rfl hno rfl hdirection hstands
    | fails => exact .failed (.inl rfl)
    | @wait items ending s' hdirection hstands hend =>
      rw [← hdirection]
      cases event with
      | error status => exact absurd List.mem_cons_self (hno status)
      -- the body has nothing yet: the poll waits, one event shorter
      | pending => exact .pending (by simp) hno' rfl rfl hstands
      | data chunk =>
        -- the chunk goes to the end of the buffer and the loop tries to decode again
        have hloop := ih hno' hstands.push
        dsimp only [pollData]
        generalize Streaming.pollLoop gz fromHeaderMap dec body events _ = r at hloop ⊢
        cases hloop with
        | pending hfewer hno htrailers hdirection hstands =>
          exact .pending (by simp only [List.length_cons]; omega) hno htrailers hdirection hstands
        | item hle hno htrailers hdirection hstands =>
          exact .item (by simp only [List.length_cons]; omega) hno htrailers hdirection hstands
        | ended hending hok => exact .ended hending hok
        | failed hbad => exact .failed hbad

/-- **Run.** Polled often enough, a stream gives the messages ahead, and then an error if the bytes
    are broken or the trailers bad. -/
theorem outcome_stands (hdec : dec.Whole) (fromHeaderMap : HeaderMap → Option Status) (enough : Nat)
    {body : Body HeaderMap} (hno : NoError body.events)
    (h : Stands gz dec s (chunks body.events) items ending)
    (henough : body.events.length + body.trailersPending + items.length < enough) :
    ∃ last : Option Status,
      (last.isSome ↔
        ending = .broken ∨ ¬TrailersOk fromHeaderMap s.inner.direction body.trailers) ∧
      ∀ polls ≥ enough, outcome gz fromHeaderMap dec polls body s = some (items, last) := by
  induction enough generalizing s body items with
  | zero => omega
  | succ enough ih =>
    have hpoll := pollLoop_stands hdec fromHeaderMap body hno h
    have hsucc : ∀ polls ≥ enough + 1, ∃ more ≥ enough, polls = more + 1 := fun polls hpolls =>
      ⟨polls - 1, by omega, by omega⟩
    generalize hr : s.pollLoop gz fromHeaderMap dec body body.events = r at hpoll
    cases hpoll with
    | @pending items ending body' s' hfewer hno htrailers hdirection hstands =>
      obtain ⟨last, hlast, hrun⟩ := ih hno hstands (by omega)
      rw [htrailers, hdirection] at hlast
      refine ⟨last, hlast, fun polls hpolls => ?_⟩
      obtain ⟨more, hmore, rfl⟩ := hsucc polls hpolls
      rw [outcome, Streaming.pollNext, hr]
      exact hrun more hmore
    | @item item tail ending body' s' hle hno htrailers hdirection hstands =>
      rw [List.length_cons] at henough
      obtain ⟨last, hlast, hrun⟩ := ih hno hstands (by omega)
      rw [htrailers, hdirection] at hlast
      refine ⟨last, hlast, fun polls hpolls => ?_⟩
      obtain ⟨more, hmore, rfl⟩ := hsucc polls hpolls
      rw [outcome, Streaming.pollNext, hr]
      dsimp only
      rw [hrun more hmore]
      rfl
    | ended hending hok =>
      refine ⟨none, iff_of_false (by simp) (by simp [hending, hok]), fun polls hpolls => ?_⟩
      obtain ⟨more, hmore, rfl⟩ := hsucc polls hpolls
      rw [outcome, Streaming.pollNext, hr]
    | @failed ending status body' s' hbad =>
      refine ⟨some status, iff_of_true rfl hbad, fun polls hpolls => ?_⟩
      obtain ⟨more, hmore, rfl⟩ := hsucc polls hpolls
      rw [outcome, Streaming.pollNext, hr]

/-- **Truncated streams.** A body that is not a string of complete frames, however it is delivered,
    gives the messages of the frames in front and then an error, if and only if it does not end right
    behind a header, or if the trailers report an error. -/
theorem truncated_iff (hdec : dec.Whole) {d : D} {direction : Direction}
    {encoding : Option CompressionEncoding} {maxMessageSize : Option Nat} {body : Body HeaderMap}
    (hno : NoError body.events)
    (hcut : ¬IsFrames (maxMessageSize.getD DEFAULT_MAX_RECV_MESSAGE_SIZE) (chunks body.events)) :
    let read := readFrames gz dec encoding (maxMessageSize.getD DEFAULT_MAX_RECV_MESSAGE_SIZE) d
      (chunks body.events)
    (∃ enough status, ∀ polls ≥ enough,
        outcome gz fromHeaderMap dec polls body
          (Streaming.new d direction encoding maxMessageSize) = some (read.1, some status)) ↔
      read.2 ≠ .bareHeader ∨ ¬TrailersOk fromHeaderMap direction body.trailers := by
  intro read
  have hcomplete : read.2 ≠ .complete := fun h => hcut (isFrames_of_complete _ le_rfl h)
  have hbroken : read.2 = .broken ↔ read.2 ≠ .bareHeader := by
    cases hending : read.2 <;> simp_all
  have hstands : Stands gz dec
      (Streaming.new d direction encoding maxMessageSize : Streaming HeaderMap D)
      (chunks body.events) read.1 read.2 := .header rfl rfl
  obtain ⟨last, hlast, hrun⟩ := outcome_stands hdec fromHeaderMap _ hno hstands
    (Nat.lt_succ_self _)
  rw [hbroken] at hlast
  refine Iff.trans ?_ hlast
  constructor
  · rintro ⟨enough, status, h⟩
    have := (h _ (Nat.le_max_left ..)).symm.trans (hrun _ (Nat.le_max_right enough _))
    cases this
    rfl
  · intro hsome
    obtain ⟨status, rfl⟩ := Option.isSome_iff_exists.mp hsome
    exact ⟨_, status, hrun⟩

theorem rawDecoder_whole : rawDecoder.Whole := fun _ src => .inl ⟨(), src, rfl⟩

/-- A request that is cut off inside of a payload. -/
def cutPayload : Body Unit := ⟨[.data [0, 0, 0], .pending, .data [0, 5, 7]], 0, .ok none⟩

/-- A request that is cut off right behind a header. -/
def cutBehindHeader : Body Unit := ⟨[.data [0, 0, 0], .pending, .data [0, 5]], 0, .ok none⟩

/-- Five bytes or six that announce a message of five are not complete frames. -/
theorem not_isFrames_cut {limit : Nat} (payload : Bytes) (hpayload : payload.length < 5) :
    ¬IsFrames limit ([0, 0, 0, 0, 5] ++ payload) := by
  rintro ⟨_ | ⟨⟨compression, p⟩, frames⟩, hframes, heq⟩
  · simp at heq
  · have hu32 := (hframes _ List.mem_cons_self).2
    rw [List.flatMap_cons, frame, List.cons_append, List.cons_append, List.append_assoc] at heq
    have hlen : [0, 0, 0, 5] = toBE 4 p.length :=
      List.append_inj_left (List.cons.inj heq).2 (by rw [length_toBE]; rfl)
    have hp : p.length = 5 := by
      have hfield := ofBE_toBE (w := 4) (n := p.length) (by omega)
      rwa [← hlen, eq_comm] at hfield
    have htotal := congrArg List.length heq
    simp only [List.length_append, List.length_cons, length_toBE, List.length_nil] at htotal
    omega

theorem truncated_iff_payload :
    let read := readFrames identityGzip rawDecoder none DEFAULT_MAX_RECV_MESSAGE_SIZE ()
      (chunks cutPayload.events)
    (∃ enough status, ∀ polls ≥ enough,
        outcome identityGzip (fun _ => none) rawDecoder polls cutPayload
          (Streaming.new () .request none none) = some (read.1, some status)) ↔
      read.2 ≠ .bareHeader ∨
        ¬TrailersOk (fun _ : Unit => none) .request cutPayload.trailers :=
  truncated_iff rawDecoder_whole (fun status h => by simp [cutPayload] at h)
    (not_isFrames_cut [7] (by decide))

/-- Of the request that ends behind a header nothing is left to complain about. -/
theorem bareHeader_ends :
    ¬IsFrames DEFAULT_MAX_RECV_MESSAGE_SIZE (chunks cutBehindHeader.events) ∧
      ∀ polls, outcome identityGzip (fun _ => none) rawDecoder (polls + 2) cutBehindHeader
        (Streaming.new () .request none none) = some ([], none) :=
  ⟨not_isFrames_cut [] (by decide), fun _ => rfl⟩

end TeaclaveCrates.Tonic
