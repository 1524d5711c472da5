import TeaclaveCrates.Tonic.Decode
import TeaclaveCrates.Tonic.StatusHeaders

namespace TeaclaveCrates.TonicWeb

open TeaclaveCrates.Lib TeaclaveCrates.Tonic
open Base64 (decode decode_nil encode)

/-!
# tonic-web — text bodies

`call.rs`: a `GrpcWebCall` decodes the body of a request from base64, and encodes the one of a
response piece by piece.

* `pollDecode`, `pollEncode` — one poll of either side;
* `Reads` — what a body is decoded to in whatever chunks, where that is certain;
* `pollLoop_reads`, `decodeAll_reads` — polls and runs give it;
* `chunking_iff` — which bodies do not depend on the chunks, and which responses are read back.
-/

/-! ### Calls -/

inductive Direction
  | request
  | response
deriving DecidableEq, Repr

inductive Encoding
  | base64
  | none
deriving DecidableEq, Repr

/-- An answer of `poll_data` before the end of the body; an error as the text that it displays. -/
inductive Event
  | pending
  | data (chunk : Bytes)
  | error (text : String)

/-- The inner body: the coming answers of `poll_data`, how often `poll_trailers` is pending, and what
    it then gives. -/
structure Body where
  events : List Event
  trailersPending : Nat
  trailers : Except String (Option (List (HeaderName × HeaderValue)))

/-- `GrpcWebCall`, less the inner body. -/
structure GrpcWebCall where
  buf : Bytes
  direction : Direction
  encoding : Encoding
  pollTrailers : Bool

/-- `internal_error`. -/
def internalError (text : String) : Status := .internal ("tonic-web: " ++ text)

/-- `GRPC_WEB_TRAILERS_BIT`. -/
def GRPC_WEB_TRAILERS_BIT : UInt8 := 0b10000000

/-- `encode_trailers`: lines of a name, a colon and a value. -/
def encodeTrailers (trailers : List (HeaderName × HeaderValue)) : Bytes :=
  -- a colon between the two, and the end of the line behind them
  trailers.flatMap fun (key, value) => utf8Bytes key ++ [58] ++ value.bytes ++ [13, 10]

/-- `make_trailers_frame`, with the panic of `assert!` on trailers that are too long. -/
def makeTrailersFrame (trailers : List (HeaderName × HeaderValue)) : Option Bytes :=
  let trailers := encodeTrailers trailers
  if trailers.length < 2 ^ 32 then
    some (GRPC_WEB_TRAILERS_BIT :: toBE 4 trailers.length ++ trailers)
  else
    none

section Engine

variable [Base64]

namespace GrpcWebCall

/-- `new`. -/
def new (direction : Direction) (encoding : Encoding) : GrpcWebCall := ⟨[], direction, encoding, true⟩

/-- `max_decodable`. -/
def maxDecodable (call : GrpcWebCall) : Nat := call.buf.length / 4 * 4

section Decoding

-- what the base64 engine says about bytes that it cannot decode
variable (decodeError : Bytes → String)

/-- `decode_chunk`. -/
def decodeChunk (call : GrpcWebCall) : Except Status (Option Bytes) × GrpcWebCall :=
  if call.buf = [] ∨ call.buf.length < 4 then
    (.ok none, call)
  else
    let index := call.maxDecodable
    let piece := call.buf.take index
    let call := { call with buf := call.buf.drop index }
    match decode piece with
    | some decoded => (.ok (some decoded), call)
    | none => (.error (internalError (decodeError piece)), call)

/-- The loop of `poll_decode`, by recursion on the answers the body still gives. -/
def pollLoop : List Event → GrpcWebCall →
    Poll (Option (Except Status Bytes)) × List Event × GrpcWebCall
  | events, call =>
    match call.decodeChunk decodeError with
    | (.error status, call) => (.ready (some (.error status)), events, call)
    | (.ok (some bytes), call) => (.ready (some (.ok bytes)), events, call)
    | (.ok none, call) =>
      match events with
      | .pending :: events => (.pending, events, call)
      | .data data :: events => pollLoop events { call with buf := call.buf ++ data }
      | .error text :: events => (.ready (some (.error (internalError text))), events, call)
      | [] =>
        -- less than a group is left over
        if call.buf ≠ [] then
          (.ready (some (.error (internalError "malformed base64 request"))), [], call)
        else
          (.ready none, [], call)

/-- `poll_decode`. -/
def pollDecode (events : List Event) (call : GrpcWebCall) :
    Poll (Option (Except Status Bytes)) × List Event × GrpcWebCall :=
  match call.encoding with
  | .base64 => pollLoop decodeError events call
  | .none =>
    match events with
    | .pending :: events => (.pending, events, call)
    | .data data :: events => (.ready (some (.ok data)), events, call)
    | .error text :: events => (.ready (some (.error (internalError text))), events, call)
    | [] => (.ready none, [], call)

/-- Polls until the first error or the end of the body: the bytes, and whether there was an error. -/
def decodeAll : Nat → List Event → GrpcWebCall → Option (Bytes × Bool)
  | 0, _, _ => none
  | polls + 1, events, call =>
    match pollDecode decodeError events call with
    | (.pending, events, call) => decodeAll polls events call
    | (.ready none, _, _) => some ([], false)
    | (.ready (some (.error _)), _, _) => some ([], true)
    | (.ready (some (.ok bytes)), events, call) =>
      (decodeAll polls events call).map fun r => (bytes ++ r.1, r.2)

end Decoding

/-- What is sent of a piece. -/
def encodePiece (call : GrpcWebCall) (piece : Bytes) : Bytes :=
  match call.encoding with
  | .base64 => encode true piece
  | .none => piece

/-- `poll_encode`; `none` is the panic of `make_trailers_frame`. -/
def pollEncode (body : Body) (call : GrpcWebCall) :
    Option (Poll (Option (Except Status Bytes)) × Body × GrpcWebCall) :=
  match body.events with
  | .pending :: events => some (.pending, { body with events := events }, call)
  | .data data :: events =>
    some (.ready (some (.ok (call.encodePiece data))), { body with events := events }, call)
  | .error text :: events =>
    some (.ready (some (.error (internalError text))), { body with events := events }, call)
  | [] =>
    -- behind the frame with the trailers there is nothing any more
    if call.pollTrailers then
      match body.trailersPending with
      | waits + 1 => some (.pending, { body with trailersPending := waits }, call)
      | 0 =>
        match body.trailers with
        | .ok (some map) => (makeTrailersFrame map).map fun frame =>
            (.ready (some (.ok (call.encodePiece frame))), body, { call with pollTrailers := false })
        | .ok none => some (.ready none, body, call)
        | .error text => some (.ready (some (.error (internalError text))), body, call)
    else
      some (.ready none, body, call)

/-- Polls until the end of the body: the pieces that are sent. -/
def encodeAll : Nat → Body → GrpcWebCall → Option (List Bytes)
  | 0, _, _ => none
  | polls + 1, body, call =>
    match pollEncode body call with
    | some (.pending, body, call) => encodeAll polls body call
    | some (.ready none, _, _) => some []
    | some (.ready (some (.ok piece)), body, call) => (encodeAll polls body call).map (piece :: ·)
    | _ => none

end GrpcWebCall

/-! ### Decoding -/

/-- The bytes a list of body answers delivers. -/
def chunks : List Event → Bytes
  | [] => []
  | .data chunk :: events => chunk ++ chunks events
  | _ :: events => chunks events

/-- No answer of the body is an error. -/
def NoError (events : List Event) : Prop := ∀ text, Event.error text ∉ events

/-- The whole groups of four in front. -/
def groups (w : Bytes) : Bytes := w.take (w.length / 4 * 4)

/-- What a body is decoded to in whatever chunks: all of it can be decoded, or not even the first
    group. -/
inductive Reads (w : Bytes) : Bytes × Bool → Prop
  | decoded {bytes} (h : decode (groups w) = some bytes) :
      Reads w (bytes, decide (w.length % 4 ≠ 0))
  | broken (hlen : 4 ≤ w.length) (h : decode (w.take 4) = none) :
      Reads w ([], true)

/-- What a body still has to give: answers and bytes. -/
def remaining (events : List Event) (call : GrpcWebCall) : Nat :=
  events.length + (call.buf ++ chunks events).length

/-- What one poll does with a body that is decoded to `r`: `n` bounds what is left. -/
inductive Polled (n : Nat) :
    Bytes × Bool → Poll (Option (Except Status Bytes)) × List Event × GrpcWebCall → Prop
  | pending {r events call} (hfewer : remaining events call < n) (hno : NoError events)
      (hencoding : call.encoding = .base64) (hreads : Reads (call.buf ++ chunks events) r) :
      Polled n r (.pending, events, call)
  | bytes {bytes r events call} (hfewer : remaining events call < n) (hno : NoError events)
      (hencoding : call.encoding = .base64) (hreads : Reads (call.buf ++ chunks events) r) :
      Polled n (bytes ++ r.1, r.2) (.ready (some (.ok bytes)), events, call)
  | ended {events call} : Polled n ([], false) (.ready none, events, call)
  | failed {status events call} : Polled n ([], true) (.ready (some (.error status)), events, call)

variable {call : GrpcWebCall} {events : List Event} {r : Bytes × Bool} {rest : Bytes}

omit [Base64] in
theorem groups_append {u v : Bytes} (hu : u.length % 4 = 0) : groups (u ++ v) = u ++ groups v := by
  have hlen : (u ++ v).length / 4 * 4 = u.length + v.length / 4 * 4 := by
    rw [List.length_append]
    omega
  rw [groups, hlen, List.take_length_add_append, groups]

omit [Base64] in
theorem groups_of_short {w : Bytes} (h : w.length < 4) : groups w = [] := by
  rw [groups, Nat.div_eq_of_lt h, Nat.zero_mul, List.take_zero]

/-- A piece of whole groups leaves what the rest is decoded to. -/
theorem Reads.split {u v : Bytes} (h : Reads (u ++ v) r) (hu : u.length % 4 = 0) (hne : u ≠ []) :
    (decode u = none ∧ r = ([], true)) ∨
      ∃ bytes r', decode u = some bytes ∧ r = (bytes ++ r'.1, r'.2) ∧
        Reads v r' := by
  cases h with
  | @decoded bytes h =>
    have hmod : (u ++ v).length % 4 = v.length % 4 := by
      rw [List.length_append]
      omega
    rw [groups_append hu] at h
    rw [hmod]
    by_cases hv : groups v = []
    -- padding may only stand at the end of the last piece
    · rw [hv, List.append_nil] at h
      exact .inr ⟨bytes, ([], _), h, by rw [List.append_nil],
        .decoded (by rw [hv, decode_nil])⟩
    · rw [Base64.decode_append hu hv] at h
      split at h
      · cases h
      · obtain ⟨front, hfront, h⟩ := Option.bind_eq_some_iff.mp h
        obtain ⟨back, hback, rfl⟩ := Option.map_eq_some_iff.mp h
        exact .inr ⟨front, (back, _), hfront, rfl, .decoded hback⟩
  | broken hlen h =>
    have hfour : 4 ≤ u.length := by
      have := List.length_pos_iff.mpr hne
      omega
    rw [List.take_append_of_le_length hfour] at h
    refine .inl ⟨?_, rfl⟩
    by_contra hsome
    obtain ⟨bytes, hbytes⟩ := Option.ne_none_iff_exists'.mp hsome
    obtain ⟨first, hfirst⟩ := Base64.decode_take hfour hbytes
    cases h.symm.trans hfirst

/-- One `decode_chunk`: too few bytes, or it decodes what is in front. -/
theorem decodeChunk_reads (decodeError : Bytes → String) (h : Reads (call.buf ++ rest) r) :
    (call.buf.length < 4 ∧ call.decodeChunk decodeError = (.ok none, call)) ∨
    (r = ([], true) ∧ ∃ status call', call.decodeChunk decodeError = (.error status, call')) ∨
      ∃ bytes r' buf, call.decodeChunk decodeError = (.ok (some bytes), { call with buf := buf }) ∧
        buf.length < call.buf.length ∧ r = (bytes ++ r'.1, r'.2) ∧ Reads (buf ++ rest) r' := by
  unfold GrpcWebCall.decodeChunk
  by_cases hshort : call.buf.length < 4
  · exact .inl ⟨hshort, if_pos (.inr hshort)⟩
  have hne : call.buf ≠ [] := fun hnil => hshort (by rw [hnil]; decide)
  rw [if_neg (by simp [hne, hshort])]
  have hindex : call.maxDecodable ≤ call.buf.length := Nat.div_mul_le_self _ _
  have hfour : 4 ≤ call.maxDecodable := by
    unfold GrpcWebCall.maxDecodable
    omega
  have hlen : (call.buf.take call.maxDecodable).length = call.maxDecodable := by simpa using hindex
  rw [← List.take_append_drop call.maxDecodable call.buf, List.append_assoc] at h
  have hmod : (call.buf.take call.maxDecodable).length % 4 = 0 := by
    rw [hlen]
    exact Nat.mul_mod_left _ _
  have hpiece : call.buf.take call.maxDecodable ≠ [] := by
    rw [← List.length_pos_iff, hlen]
    omega
  rcases h.split hmod hpiece with ⟨hnone, hr⟩ | ⟨bytes, r', hsome, hr, hreads⟩
  · refine .inr (.inl ⟨hr, ?_⟩)
    simp only [hnone]
    exact ⟨_, _, rfl⟩
  · refine .inr (.inr ⟨bytes, r', call.buf.drop call.maxDecodable, ?_, ?_, hr, hreads⟩)
    · simp only [hsome]
    · rw [List.length_drop]
      omega

theorem Polled.mono {n m : Nat} {result} (h : Polled n r result) (hle : n ≤ m) :
    Polled m r result := by
  cases h with
  | pending hfewer hno hencoding hreads =>
    exact .pending (Nat.lt_of_lt_of_le hfewer hle) hno hencoding hreads
  | bytes hfewer hno hencoding hreads =>
    exact .bytes (Nat.lt_of_lt_of_le hfewer hle) hno hencoding hreads
  | ended => exact .ended
  | failed => exact .failed

/-- **Poll.** A poll gives the first of the bytes, or what it ends with, or is pending and has used up
    an answer. -/
theorem pollLoop_reads (decodeError : Bytes → String) (hno : NoError events)
    (hencoding : call.encoding = .base64) (h : Reads (call.buf ++ chunks events) r) :
    Polled (remaining events call) r (call.pollLoop decodeError events) := by
  induction events generalizing call with
  | nil =>
    rw [GrpcWebCall.pollLoop]
    rcases decodeChunk_reads decodeError h with
      ⟨hshort, hdecode⟩ | ⟨rfl, status, call', hdecode⟩ |
      ⟨bytes, r', buf, hdecode, hlen, rfl, hreads⟩
    · rw [hdecode]
      dsimp only
      rw [show chunks [] = [] from rfl, List.append_nil] at h
      cases h with
      | decoded h =>
        rw [groups_of_short hshort, decode_nil] at h
        cases h
        rw [Nat.mod_eq_of_lt hshort]
        by_cases hnil : call.buf = []
        · rw [if_neg (not_not.mpr hnil), hnil]
          exact .ended
        · rw [if_pos hnil, decide_eq_true (by simpa using hnil)]
          exact .failed
      | broken hlen => omega
    · rw [hdecode]
      exact .failed
    · rw [hdecode]
      exact .bytes (by simp only [remaining, List.length_append]; omega) hno hencoding hreads
  | cons event events ih =>
    have hno' : NoError events := fun text hmem => hno text (List.mem_cons_of_mem _ hmem)
    rw [GrpcWebCall.pollLoop]
    rcases decodeChunk_reads decodeError h with
      ⟨hshort, hdecode⟩ | ⟨rfl, status, call', hdecode⟩ |
      ⟨bytes, r', buf, hdecode, hlen, rfl, hreads⟩
    · rw [hdecode]
      cases event with
      | error text => exact absurd List.mem_cons_self (hno text)
      | pending =>
        exact .pending (by simp [remaining, chunks]) hno' hencoding h
      | data chunk =>
        -- the chunk goes to the end of the buffer
        have hpush : Reads ((call.buf ++ chunk) ++ chunks events) r := by
          rw [List.append_assoc]
          exact h
        refine (@ih { call with buf := call.buf ++ chunk } hno' hencoding hpush).mono ?_
        simp only [remaining, chunks, List.length_append, List.length_cons]
        omega
    · rw [hdecode]
      exact .failed
    · rw [hdecode]
      exact .bytes (by simp only [remaining, List.length_append]; omega) hno hencoding hreads

/-- **Run.** Polled often enough, the body gives what it is decoded to. -/
theorem decodeAll_reads (decodeError : Bytes → String) (polls : Nat) (hno : NoError events)
    (hencoding : call.encoding = .base64) (h : Reads (call.buf ++ chunks events) r)
    (hpolls : remaining events call < polls) :
    call.decodeAll decodeError polls events = some r := by
  induction polls generalizing events call r with
  | zero => omega
  | succ polls ih =>
    have hpoll := pollLoop_reads decodeError hno hencoding h
    rw [GrpcWebCall.decodeAll]
    unfold GrpcWebCall.pollDecode
    rw [hencoding]
    generalize call.pollLoop decodeError events = result at hpoll ⊢
    cases hpoll with
    | pending hfewer hno hencoding hreads => exact ih hno hencoding hreads (by omega)
    | @bytes bytes r events call hfewer hno hencoding hreads =>
      dsimp only
      rw [ih hno hencoding hreads (by omega)]
      rfl
    | ended => rfl
    | failed => rfl

/-! ### Chunks -/

/-- The bytes that a text request with these answers is decoded to, and whether that ends in an
    error. -/
def Decodes (decodeError : Bytes → String) (events : List Event) (r : Bytes × Bool) : Prop :=
  ∃ enough, ∀ polls ≥ enough,
    (GrpcWebCall.new .request .base64).decodeAll decodeError polls events = some r

variable {decodeError : Bytes → String} {w : Bytes}

theorem Decodes.unique {r' : Bytes × Bool} (h : Decodes decodeError events r)
    (h' : Decodes decodeError events r') : r = r' := by
  obtain ⟨n, hn⟩ := h
  obtain ⟨m, hm⟩ := h'
  exact Option.some.inj ((hn _ (Nat.le_max_left n m)).symm.trans (hm _ (Nat.le_max_right n m)))

theorem Reads.decodes (h : Reads (chunks events) r) (hno : NoError events) :
    Decodes decodeError events r :=
  ⟨_, fun polls hpolls => decodeAll_reads decodeError polls hno rfl h hpolls⟩

/-- The first chunk is decoded at once if it is long enough. -/
theorem pollDecode_data (decodeError : Bytes → String) (hlen : 4 ≤ w.length) (events : List Event) :
    (decode (groups w) = none ∧ ∃ status call,
        (GrpcWebCall.new .request .base64).pollDecode decodeError (.data w :: events) =
          (.ready (some (.error status)), events, call)) ∨
      ∃ bytes call, decode (groups w) = some bytes ∧
        (GrpcWebCall.new .request .base64).pollDecode decodeError (.data w :: events) =
          (.ready (some (.ok bytes)), events, call) := by
  have hshort : ¬w.length < 4 := Nat.not_lt.mpr hlen
  have hne : w ≠ [] := fun hnil => hshort (by rw [hnil]; decide)
  -- nothing is buffered, and then the whole chunk
  have hempty : (GrpcWebCall.new .request .base64).decodeChunk decodeError =
      (.ok none, GrpcWebCall.new .request .base64) := if_pos (.inl rfl)
  unfold GrpcWebCall.pollDecode
  dsimp only [GrpcWebCall.new] at hempty ⊢
  rw [GrpcWebCall.pollLoop, hempty]
  dsimp only
  rw [List.nil_append, GrpcWebCall.pollLoop, GrpcWebCall.decodeChunk,
    if_neg (by simp [hne, hshort])]
  cases hdecode : decode (groups w) with
  | none =>
    refine .inl ⟨rfl, ?_⟩
    unfold groups at hdecode
    simp only [GrpcWebCall.maxDecodable, hdecode]
    exact ⟨_, _, rfl⟩
  | some bytes =>
    refine .inr ⟨bytes, ?_⟩
    unfold groups at hdecode
    simp only [GrpcWebCall.maxDecodable, hdecode]
    exact ⟨_, trivial, rfl⟩

/-- In one chunk, what cannot be decoded gives an error and nothing else. -/
theorem decodes_whole (decodeError : Bytes → String) (hlen : 4 ≤ w.length)
    (h : decode (groups w) = none) : Decodes decodeError [.data w] ([], true) := by
  refine ⟨1, fun polls hpolls => ?_⟩
  obtain ⟨more, rfl⟩ : ∃ more, polls = more + 1 := ⟨polls - 1, by omega⟩
  rw [GrpcWebCall.decodeAll]
  rcases pollDecode_data decodeError hlen [] with ⟨-, status, call, hpoll⟩ | ⟨bytes, call, hsome, -⟩
  · rw [hpoll]
  · cases h.symm.trans hsome

/-- In two chunks the first group is decoded on its own. -/
theorem decodes_split {bytes : Bytes} (hlen : 4 ≤ w.length)
    (h : decode (w.take 4) = some bytes)
    (hr : Decodes decodeError [.data (w.take 4), .data (w.drop 4)] r) : bytes <+: r.1 := by
  obtain ⟨enough, hrun⟩ := hr
  have hfirst := hrun (enough + 1) (Nat.le_succ _)
  have htake : (w.take 4).length = 4 := by simpa using hlen
  have hgroups : groups (w.take 4) = w.take 4 := by
    rw [groups, htake]
    exact List.take_of_length_le (by omega)
  rw [GrpcWebCall.decodeAll] at hfirst
  rcases pollDecode_data decodeError (w := w.take 4) (by omega) [.data (w.drop 4)] with
    ⟨hnone, -⟩ | ⟨bytes', call, hsome, hpoll⟩
  · rw [hgroups, h] at hnone
    cases hnone
  · rw [hgroups, h] at hsome
    cases hsome
    rw [hpoll] at hfirst
    obtain ⟨r', -, rfl⟩ := Option.map_eq_some_iff.mp hfirst
    exact List.prefix_append _ _

/-- Two ways of cutting a body come to the same, whatever they are, if and only if its groups can be
    decoded together, or the first one not at all. -/
theorem same_iff (decodeError : Bytes → String) (w : Bytes) :
    (∀ events events', NoError events → NoError events' → chunks events = w → chunks events' = w →
        ∃ r, Decodes decodeError events r ∧ Decodes decodeError events' r) ↔
      w.length < 4 ∨ decode (w.take 4) = none ∨
        (decode (groups w)).isSome := by
  constructor
  · intro hsame
    by_contra hnot
    rw [not_or, not_or, Nat.not_lt, Option.not_isSome_iff_eq_none] at hnot
    obtain ⟨hlen, hfirst, hwhole⟩ := hnot
    obtain ⟨bytes, hbytes⟩ := Option.ne_none_iff_exists'.mp hfirst
    obtain ⟨r, hr, hr'⟩ := hsame [.data w] [.data (w.take 4), .data (w.drop 4)]
      (fun text hmem => by simp at hmem) (fun text hmem => by simp at hmem) (by simp [chunks])
      (by simp [chunks])
    obtain rfl := hr.unique (decodes_whole decodeError hlen hwhole)
    have hnil : bytes = [] := List.prefix_nil.mp (decodes_split hlen hbytes hr')
    have hne : w.take 4 ≠ [] := by
      rw [← List.length_pos_iff, List.length_take]
      omega
    exact hne (Base64.decode_eq_nil.mp (hnil ▸ hbytes))
  · intro hcond
    obtain ⟨r, hr⟩ : ∃ r, Reads w r := by
      by_cases hshort : w.length < 4
      · exact ⟨_, .decoded (by rw [groups_of_short hshort, decode_nil])⟩
      · rcases hcond.resolve_left hshort with hnone | hsome
        · exact ⟨_, .broken (Nat.not_lt.mp hshort) hnone⟩
        · obtain ⟨bytes, hbytes⟩ := Option.isSome_iff_exists.mp hsome
          exact ⟨_, .decoded hbytes⟩
    intro events events' hno hno' hw hw'
    exact ⟨r, Reads.decodes (hw ▸ hr) hno, Reads.decodes (hw' ▸ hr) hno'⟩

/-! ### Encoding -/

/-- The chunks of a list of body answers. -/
def pieces : List Event → List Bytes
  | [] => []
  | .data chunk :: events => chunk :: pieces events
  | _ :: events => pieces events

/-- The frame with the trailers, if there are any; nothing at all if they fail or are too long for a
    frame. -/
def trailersPieces :
    Except String (Option (List (HeaderName × HeaderValue))) → Option (List Bytes)
  | .ok (some map) => (makeTrailersFrame map).map fun frame => [frame]
  | .ok none => some []
  | .error _ => none

/-- A response consists of the chunks of its body and the frame with the trailers. -/
def Body.Consists (body : Body) (bs : List Bytes) : Prop :=
  NoError body.events ∧
    (trailersPieces body.trailers).map (pieces body.events ++ ·) = some bs

/-- The pieces that are sent of a text response. -/
def Encodes (body : Body) (sent : List Bytes) : Prop :=
  ∃ enough, ∀ polls ≥ enough, (GrpcWebCall.new .response .base64).encodeAll polls body = some sent

variable {trailers : Except String (Option (List (HeaderName × HeaderValue)))}

theorem encodeAll_trailers {last : List Bytes} (hcall : call.pollTrailers = true)
    (hlast : trailersPieces trailers = some last) (waits : Nat) :
    ∀ polls ≥ waits + 2,
      call.encodeAll polls ⟨[], waits, trailers⟩ = some (last.map call.encodePiece) := by
  induction waits with
  | zero =>
    intro polls hpolls
    obtain ⟨more, rfl⟩ : ∃ more, polls = more + 1 + 1 := ⟨polls - 2, by omega⟩
    rcases trailers with text | _ | map
    · cases hlast
    · cases hlast
      simp [GrpcWebCall.encodeAll, GrpcWebCall.pollEncode, hcall]
    · obtain ⟨frame, hframe, rfl⟩ := Option.map_eq_some_iff.mp hlast
      simp [GrpcWebCall.encodeAll, GrpcWebCall.pollEncode, hcall, hframe]
  | succ waits ih =>
    intro polls hpolls
    obtain ⟨more, rfl⟩ : ∃ more, polls = more + 1 := ⟨polls - 1, by omega⟩
    simp only [GrpcWebCall.encodeAll, GrpcWebCall.pollEncode, hcall, if_true]
    exact ih more (by omega)

theorem encodeAll_eq {last : List Bytes} {waits : Nat} (hcall : call.pollTrailers = true)
    (hno : NoError events) (hlast : trailersPieces trailers = some last) :
    ∀ polls ≥ events.length + (waits + 2), call.encodeAll polls ⟨events, waits, trailers⟩ =
      some ((pieces events ++ last).map call.encodePiece) := by
  induction events with
  | nil =>
    intro polls hpolls
    exact encodeAll_trailers hcall hlast waits polls (by simpa using hpolls)
  | cons event events ih =>
    have hno' : NoError events := fun text hmem => hno text (List.mem_cons_of_mem _ hmem)
    intro polls hpolls
    rw [List.length_cons] at hpolls
    obtain ⟨more, rfl⟩ : ∃ more, polls = more + 1 := ⟨polls - 1, by omega⟩
    have hrest := ih hno' more (by omega)
    cases event with
    | pending => simpa [GrpcWebCall.encodeAll, GrpcWebCall.pollEncode, pieces] using hrest
    | data chunk =>
      simp only [GrpcWebCall.encodeAll, GrpcWebCall.pollEncode, hrest]
      rfl
    | error text => exact absurd List.mem_cons_self (hno text)

variable {bs : List Bytes}

variable {body : Body}

theorem Body.Consists.encodes (h : body.Consists bs) :
    Encodes body (bs.map (encode true)) := by
  obtain ⟨hno, hbs⟩ := h
  obtain ⟨last, hlast, rfl⟩ := Option.map_eq_some_iff.mp hbs
  exact ⟨_, encodeAll_eq rfl hno hlast⟩

theorem Encodes.unique {sent sent' : List Bytes} (h : Encodes body sent)
    (h' : Encodes body sent') : sent = sent' := by
  obtain ⟨n, hn⟩ := h
  obtain ⟨m, hm⟩ := h'
  exact Option.some.inj ((hn _ (Nat.le_max_left n m)).symm.trans (hm _ (Nat.le_max_right n m)))

/-- Only the last of the byte strings that are not empty may end inside of a group. -/
def Aligned (bs : List Bytes) : Prop :=
  ∀ front b back, bs = front ++ b :: back → back.flatten = [] ∨ b.length % 3 = 0

omit [Base64] in
theorem aligned_cons {b : Bytes} :
    Aligned (b :: bs) ↔ (bs.flatten = [] ∨ b.length % 3 = 0) ∧ Aligned bs := by
  constructor
  · exact fun h => ⟨h [] b bs rfl, fun front b' back heq => h (b :: front) b' back (by rw [heq]; rfl)⟩
  · rintro ⟨hb, hbs⟩ front b' back heq
    cases front with
    | nil =>
      cases heq
      exact hb
    | cons first front => exact hbs front b' back (List.cons.inj heq).2

/-- Encoded strings one after the other. -/
def encoded (bs : List Bytes) : Bytes := (bs.map (encode true)).flatten

theorem length_encoded_mod (bs : List Bytes) : (encoded bs).length % 4 = 0 := by
  induction bs with
  | nil => rfl
  | cons b bs ih =>
    have hb := Base64.length_encode_mod b
    unfold encoded at ih ⊢
    rw [List.map_cons, List.flatten_cons, List.length_append]
    omega

theorem encoded_eq_nil : encoded bs = [] ↔ bs.flatten = [] := by
  simp [encoded]

/-- Encoded strings are decoded together if only the last ends inside of a group. -/
theorem decode_encoded (bs : List Bytes) :
    (Aligned bs → decode (encoded bs) = some bs.flatten) ∧
      (¬Aligned bs → decode (encoded bs) = none) := by
  induction bs with
  | nil =>
    exact ⟨fun _ => decode_nil,
      fun h => absurd (fun front b back heq => by simp at heq) h⟩
  | cons b bs ih =>
    have hcons : encoded (b :: bs) = encode true b ++ encoded bs := rfl
    rw [hcons, aligned_cons]
    by_cases hbs : bs.flatten = []
    · have haligned : Aligned bs := fun front b' back heq => by
        rw [heq] at hbs
        simp only [List.flatten_append, List.flatten_cons, List.append_eq_nil_iff] at hbs
        exact .inl hbs.2.2
      rw [encoded_eq_nil.mpr hbs, List.append_nil, Base64.decode_encode, List.flatten_cons, hbs,
        List.append_nil]
      exact ⟨fun _ => rfl, fun h => absurd ⟨.inl rfl, haligned⟩ h⟩
    · rw [Base64.decode_append (Base64.length_encode_mod b) (mt encoded_eq_nil.mp hbs),
        Base64.decode_encode]
      have hpad := Base64.pad_mem_encode b
      by_cases hb : b.length % 3 = 0
      · rw [if_neg (fun hmem => hpad.mp hmem hb), Option.bind_some]
        refine ⟨fun h => ?_, fun h => ?_⟩
        · rw [ih.1 h.2]
          rfl
        · rw [ih.2 fun haligned => h ⟨.inr hb, haligned⟩]
          rfl
      · rw [if_pos (hpad.mpr hb)]
        exact ⟨fun h => absurd h.1 (by simp [hbs, hb]), fun _ => rfl⟩

/-- A response that is sent as text is read back in whatever chunks, if and only if only its last
    piece ends inside of a group. -/
theorem readBack_iff (decodeError : Bytes → String) (hbody : body.Consists bs) :
    (∃ sent, Encodes body sent ∧ ∀ events, NoError events → chunks events = sent.flatten →
        Decodes decodeError events (bs.flatten, false)) ↔ Aligned bs := by
  have hsent := hbody.encodes
  have hmod := length_encoded_mod bs
  have hgroups : groups (encoded bs) = encoded bs := by
    rw [groups, Nat.div_mul_cancel (Nat.dvd_of_mod_eq_zero hmod), List.take_length]
  constructor
  · rintro ⟨sent, h, hread⟩
    obtain rfl := h.unique hsent
    by_contra hnot
    have hnone := (decode_encoded bs).2 hnot
    have hlen : 4 ≤ (encoded bs).length := by
      by_contra hshort
      rw [List.eq_nil_of_length_eq_zero (by omega : (encoded bs).length = 0),
        decode_nil] at hnone
      cases hnone
    have hwhole := decodes_whole decodeError hlen (by rw [hgroups, hnone])
    have hr := hread [.data (encoded bs)] (fun text hmem => by simp at hmem)
      (by simp [chunks, encoded])
    exact Bool.false_ne_true (congrArg Prod.snd (hr.unique hwhole))
  · intro haligned
    refine ⟨_, hsent, fun events hno hchunks => ?_⟩
    have hreads : Reads (encoded bs) (bs.flatten, decide ((encoded bs).length % 4 ≠ 0)) :=
      .decoded (by rw [hgroups, (decode_encoded bs).1 haligned])
    rw [hmod] at hreads
    exact Reads.decodes (by rw [hchunks]; exact hreads) hno

/-- **Chunks.** Two ways of cutting a text request give the same bytes and the same end, if and only
    if its groups can be decoded together, or the first one not at all. A text response is read back
    in whatever chunks, if and only if only the last of its pieces ends inside of a group. -/
theorem chunking_iff (decodeError : Bytes → String) (w : Bytes) {body : Body} {bs : List Bytes}
    (hbody : body.Consists bs) :
    ((∀ events events', NoError events → NoError events' → chunks events = w →
        chunks events' = w →
          ∃ r, Decodes decodeError events r ∧ Decodes decodeError events' r) ↔
      w.length < 4 ∨ decode (w.take 4) = none ∨
        (decode (groups w)).isSome) ∧
    ((∃ sent, Encodes body sent ∧ ∀ events, NoError events → chunks events = sent.flatten →
        Decodes decodeError events (bs.flatten, false)) ↔ Aligned bs) :=
  ⟨same_iff decodeError w, readBack_iff decodeError hbody⟩

end Engine

/-- A response of one message in two pieces, without trailers. -/
def twoPieces : Body := ⟨[.data [102], .pending, .data [111, 111]], 0, .ok none⟩

theorem consists_twoPieces : twoPieces.Consists [[102], [111, 111]] :=
  ⟨fun text h => by simp [twoPieces] at h, rfl⟩

/-- A decoder error without a text of its own. -/
def untold (_ : Bytes) : String := ""

theorem chunking_iff_twoPieces :
    ((∀ events events', NoError events → NoError events' → chunks events = [90, 103, 61, 61] →
        chunks events' = [90, 103, 61, 61] →
          ∃ r, Decodes untold events r ∧ Decodes untold events' r) ↔
      ([90, 103, 61, 61] : Bytes).length < 4 ∨
        decode (([90, 103, 61, 61] : Bytes).take 4) = none ∨
        (decode (groups [90, 103, 61, 61])).isSome) ∧
    ((∃ sent, Encodes twoPieces sent ∧ ∀ events, NoError events → chunks events = sent.flatten →
        Decodes untold events ([[102], [111, 111]].flatten, false)) ↔
      Aligned [[102], [111, 111]]) :=
  chunking_iff untold [90, 103, 61, 61] consists_twoPieces

/-- What is sent of the two pieces can be decoded piece by piece, but not in one chunk. -/
theorem twoPieces_oneChunk :
    Encodes twoPieces [[90, 103, 61, 61], [98, 50, 56, 61]] ∧
      Decodes untold [.data [90, 103, 61, 61], .data [98, 50, 56, 61]] ([102, 111, 111], false) ∧
      Decodes untold [.data [90, 103, 61, 61, 98, 50, 56, 61]] ([], true) := by
  refine ⟨consists_twoPieces.encodes, ⟨3, fun polls hpolls => ?_⟩,
    decodes_whole untold (by decide) (by decide)⟩
  obtain ⟨more, rfl⟩ : ∃ more, polls = more + 3 := ⟨polls - 3, by omega⟩
  rfl

end TeaclaveCrates.TonicWeb
