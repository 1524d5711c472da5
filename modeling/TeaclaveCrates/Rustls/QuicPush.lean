import TeaclaveCrates.Rustls.Delivery

namespace TeaclaveCrates.Rustls

open TeaclaveCrates.Lib
open MessageDeframer (appendHs nextStart pop popLoop)

/-!
# rustls — handshake data pushed by QUIC

A QUIC connection hands the deframer handshake bytes without records around them.  They go into
the buffer of the socket reads, which is sized for one more read and not for what is pushed.

* `MessageDeframer.push` — the source function;
* `HandshakeStream` — what is pushed and popped, as a stream of bytes;
* `Queue` — what the buffer holds of it;
* `push_queue` / `pop_queue` — one call;
* `popsMessages_iff` — any number of them.
-/

namespace MessageDeframer

/-- `push`; `none` is a panic. -/
def push (d : MessageDeframer) (version : ProtocolVersion) (payload : Bytes) :
    Option (Except Error Unit × MessageDeframer) :=
  if d.used > 0 ∧ d.joiningHs.isNone then
    some (.error (.general "cannot push QUIC messages into unrelated connection"), d)
  else
    match d.prepareRead with
    | .error err => some (.error (.general err), d)
    | .ok d => do
      let stop := d.used + payload.length
      let (result, d) ← d.appendHs version payload stop true
      match result with
      | .error err => return (.error err, d)
      | .ok _ => return (.ok (), { d with used := stop })

end MessageDeframer

/-! ### Calls -/

/-- The calls of a QUIC connection. -/
inductive QuicCall
  | push (version : ProtocolVersion) (payload : Bytes)
  | pop
deriving DecidableEq, Repr

/-- A deframer, and the payloads of the messages popped from it. -/
structure QuicRun where
  deframer : MessageDeframer
  recordLayer : RecordLayer
  popped : List Bytes

namespace QuicRun

/-- One call. -/
def call (s : QuicRun) : QuicCall → Option QuicRun
  | .push version payload => do
    let (_, d) ← s.deframer.push version payload
    return { s with deframer := d }
  | .pop => do
    let (result, d, rl) ← s.deframer.pop s.recordLayer
    match result with
    | .ok (some m) => return ⟨d, rl, s.popped ++ [m.message.payload.bytes]⟩
    | _ => return ⟨d, rl, s.popped⟩

/-- The calls one after the other. -/
def run (s : QuicRun) (calls : List QuicCall) : Option QuicRun := calls.foldlM call s

/-- Before the first call. -/
def new (rl : RecordLayer) : QuicRun := ⟨.default, rl, []⟩

end QuicRun

/-- The bytes pushed. -/
def pushed (calls : List QuicCall) : Bytes :=
  calls.flatMap fun
    | .push _ payload => payload
    | .pop => []

/-- What a deframer is for here: the bytes pushed and not popped yet, and the messages popped. -/
structure HandshakeStream where
  unread : Bytes
  popped : List Bytes
deriving DecidableEq, Repr

namespace HandshakeStream

/-- A pop takes the message at the front, if all of it is there. -/
def call (s : HandshakeStream) : QuicCall → HandshakeStream
  | .push _ payload => { s with unread := s.unread ++ payload }
  | .pop =>
    match messageSize s.unread with
    | some n =>
      if n ≤ s.unread.length then ⟨s.unread.drop n, s.popped ++ [s.unread.take n]⟩ else s
    | none => s

def run (s : HandshakeStream) (calls : List QuicCall) : HandshakeStream := calls.foldl call s

end HandshakeStream

/-- No header announces more than the limit. -/
def HeadersFit (b : Bytes) : Prop := flush b.length .TLSv1_3 b ≠ none

theorem HeadersFit.fits {b : Bytes} (h : HeadersFit b) : Fits b := by
  intro n hsize
  by_contra hbig
  refine h ?_
  rw [flush_eq, hsize]
  exact if_pos (by omega)

theorem HeadersFit.of_append {b x : Bytes} (h : HeadersFit (b ++ x)) : Fits b :=
  fun n hsize => h.fits n (messageSize_append hsize x)

theorem HeadersFit.drop {b x : Bytes} {n : Nat} (h : HeadersFit (b ++ x))
    (hsize : messageSize b = some n) (hle : n ≤ b.length) : HeadersFit (b.drop n ++ x) := by
  intro hnone
  refine h ?_
  have hfit := h.fits n (messageSize_append hsize x)
  rw [flush_eq, messageSize_append hsize x]
  dsimp only
  rw [if_neg (by omega), if_pos (by rw [List.length_append]; omega),
    List.drop_append_of_le_length hle, hnone]

/-! ### The buffer -/

/-- The deframer holds the bytes `b`, and its buffer has been sized for a read. -/
inductive Queue (d : MessageDeframer) : Bytes → Prop
  | empty (herr : d.lastError = none) (hused : d.used = 0) (hjoin : d.joiningHs = none) : Queue d []
  | joining {joined : HandshakePayloadMeta} {b : Bytes} (herr : d.lastError = none)
      (hused : d.used ≤ d.buf.length)
      (hsized : d.buf.length ≤ min MAX_HANDSHAKE_SIZE (d.used + READ_SIZE))
      (hjoin : d.joiningHs = some joined) (hquic : joined.quic = true)
      (hmessage : joined.message.stop = d.used) (hstop : joined.payload.stop = d.used)
      (hstart : joined.payload.start ≤ d.used) (hb : slice d.buf joined.payload.start d.used = b)
      (hsize : joined.expectedLen = messageSize b) : Queue d b

variable {d : MessageDeframer} {b : Bytes}

/-- The buffer has exactly the size of one more read. -/
theorem prepareRead_length (hused : d.used ≤ d.buf.length ∨ d.used = 0)
    (hmax : d.used < d.allowMax)
    (hsized : d.buf.length ≤ min d.allowMax (d.used + READ_SIZE) ∨ d.used = 0) :
    ∃ buf, d.prepareRead = .ok { d with buf := buf } ∧
      buf.length = min d.allowMax (d.used + READ_SIZE) ∧
      ∀ a, slice buf a d.used = slice d.buf a d.used := by
  have hresized : ∀ a,
      slice (MessageDeframer.resize d.buf (min d.allowMax (d.used + READ_SIZE))) a d.used =
        slice d.buf a d.used := fun a => slice_resize (by omega) (by omega)
  unfold MessageDeframer.prepareRead
  rw [if_neg (not_le.mpr hmax)]
  by_cases hgrow : min d.allowMax (d.used + READ_SIZE) > d.buf.length
  · exact ⟨_, if_pos hgrow, length_resize _ _, hresized⟩
  · rw [if_neg hgrow]
    by_cases hshrink : d.used = 0 ∨ d.buf.length > d.allowMax
    · exact ⟨_, if_pos hshrink, length_resize _ _, hresized⟩
    · exact ⟨d.buf, if_neg hshrink, by omega, fun _ => rfl⟩

/-- **Push.** What is pushed goes behind what is held, if it is no longer than one read. -/
theorem push_queue (h : Queue d b) (version : ProtocolVersion) {payload : Bytes}
    (hfits : Fits (b ++ payload)) (htotal : d.used + payload.length ≤ MAX_HANDSHAKE_SIZE) :
    if payload.length ≤ READ_SIZE then
      ∃ result d', d.push version payload = some (result, d') ∧ Queue d' (b ++ payload) ∧
        d'.used = d.used + payload.length
    else
      d.push version payload = none := by
  cases h with
  | empty herr hused hjoin =>
    have hmax : d.allowMax = OpaqueMessage.MAX_WIRE_SIZE := by
      simp [MessageDeframer.allowMax, hjoin]
    have hneed : min d.allowMax (d.used + READ_SIZE) = READ_SIZE := by
      rw [hmax, hused]
      decide
    obtain ⟨buf, hprepare, hlen, -⟩ := prepareRead_length (.inr hused)
      (by rw [hmax, hused]; decide) (.inr hused)
    rw [hneed] at hlen
    have hsize : payloadSize payload = .ok (messageSize payload) := payloadSize_of_fits hfits
    split
    · next hle =>
      have hfit : 0 + payload.length ≤ buf.length := by omega
      let joined : HandshakePayloadMeta :=
        ⟨⟨0, payload.length⟩, ⟨0, payload.length⟩, version, messageSize payload, true⟩
      let d' : MessageDeframer := ⟨d.lastError, overwrite buf 0 payload, some joined,
        payload.length⟩
      refine ⟨.ok (), d', ?_, ?_, ?_⟩
      · simp [MessageDeframer.push, hused, hprepare, appendHs, hjoin, hsize,
          overwrite?_eq hfit, d', joined]
      · refine @Queue.joining d' joined _ herr ?_ ?_ rfl rfl rfl rfl (Nat.zero_le _) ?_ rfl
        · show payload.length ≤ (overwrite buf 0 payload).length
          rw [length_overwrite hfit]
          omega
        · show (overwrite buf 0 payload).length ≤ min MAX_HANDSHAKE_SIZE (payload.length + READ_SIZE)
          rw [length_overwrite hfit, hlen]
          simp only [READ_SIZE, MAX_HANDSHAKE_SIZE]
          omega
        · have := slice_overwrite_self hfit
          rwa [Nat.zero_add] at this
      · show payload.length = d.used + payload.length
        omega
    · next hle =>
      have hnone : overwrite? buf 0 payload = none := if_neg (by omega)
      simp [MessageDeframer.push, hused, hprepare, appendHs, hjoin, hsize, hnone]
  | joining herr hused hsized hjoin hquic hmessage hstop hstart hb hsize =>
    next joined =>
    have hmax : d.allowMax = MAX_HANDSHAKE_SIZE := by simp [MessageDeframer.allowMax, hjoin]
    by_cases hfull : d.used = MAX_HANDSHAKE_SIZE
    · -- there is no room for another read, and nothing is pushed
      obtain rfl : payload = [] := List.eq_nil_of_length_eq_zero (by omega)
      have hprepare : d.prepareRead = .error "message buffer full" := by
        unfold MessageDeframer.prepareRead
        exact if_pos (by omega)
      rw [if_pos (by simp)]
      refine ⟨.error (.general "message buffer full"), d, ?_, ?_, rfl⟩
      · simp [MessageDeframer.push, hjoin, hprepare]
      · rw [List.append_nil]
        exact .joining herr hused hsized hjoin hquic hmessage hstop hstart hb hsize
    · obtain ⟨buf, hprepare, hlen, hkeep⟩ := prepareRead_length (.inl hused) (by omega)
        (.inl (by omega))
      rw [hmax] at hlen
      split
      · next hle =>
        have hfit : d.used + payload.length ≤ buf.length := by omega
        let joined' : HandshakePayloadMeta := { joined with
          message := ⟨joined.message.start, d.used + payload.length⟩
          payload := ⟨joined.payload.start, d.used + payload.length⟩
          expectedLen := messageSize (b ++ payload) }
        let d' : MessageDeframer :=
          ⟨d.lastError, overwrite buf d.used payload, some joined', d.used + payload.length⟩
        have hb' : slice (overwrite buf d.used payload) joined.payload.start
            (d.used + payload.length) = b ++ payload := by
          rw [← slice_append hstart (Nat.le_add_right _ _) (by rw [length_overwrite hfit]; omega),
            slice_overwrite_before hfit le_rfl, slice_overwrite_self hfit, hkeep, hb]
        have hlen' := length_overwrite hfit
        refine ⟨.ok (), d', ?_, ?_, rfl⟩
        · have hslice : slice? (overwrite buf d.used payload) joined.payload.start
              (d.used + payload.length) = some (b ++ payload) := by
            rw [slice?_eq (by omega) (by omega), hb']
          cases hold : messageSize b with
          | none =>
            simp [MessageDeframer.push, hprepare, appendHs, hjoin, hquic, hstop,
              overwrite?_eq hfit, hsize, hold, hslice, payloadSize_of_fits hfits, d', joined']
          | some n =>
            simp [MessageDeframer.push, hprepare, appendHs, hjoin, hquic, hstop,
              overwrite?_eq hfit, hsize, hold, messageSize_append hold, d', joined']
        · refine @Queue.joining d' joined' _ herr ?_ ?_ rfl hquic rfl rfl ?_ hb' rfl
          · exact hlen'.symm ▸ hfit
          · refine hlen'.le.trans (hlen.le.trans ?_)
            exact min_le_min le_rfl (Nat.add_le_add_right (Nat.le_add_right _ _) _)
          · exact hstart.trans (Nat.le_add_right _ _)
      · next hle =>
        have hnone : overwrite? buf d.used payload = none := if_neg (by omega)
        simp [MessageDeframer.push, hprepare, appendHs, hjoin, hquic, hstop, hnone]

/-- **Pop.** The message at the front is returned if all of it is there. -/
theorem pop_queue (h : Queue d b)
    (hfits : ∀ n, messageSize b = some n → n ≤ b.length → Fits (b.drop n)) (rl : RecordLayer) :
    match messageSize b with
    | some n =>
      if n ≤ b.length then
        ∃ m d', d.pop rl = some (.ok (some m), d', rl) ∧ m.message.payload.bytes = b.take n ∧
          Queue d' (b.drop n) ∧ d'.used ≤ d.used
      else
        d.pop rl = some (.ok none, d, rl)
    | none => d.pop rl = some (.ok none, d, rl) := by
  cases h with
  | empty herr hused hjoin =>
    show d.pop rl = some (.ok none, d, rl)
    simp [pop, herr, hused]
  | joining herr hused hsized hjoin hquic hmessage hstop hstart hb hsize =>
    next joined =>
    have hlen : b.length = d.used - joined.payload.start := by rw [← hb, length_slice hused]
    have hpayload : joined.payload.len = b.length := by rw [Range.len, hstop, hlen]
    have hwait : (∀ n, messageSize b = some n → ¬n ≤ b.length) →
        d.pop rl = some (.ok none, d, rl) := by
      intro hopen
      have hnext : d.nextStart = .error (.ret (.ok none)) := by
        cases hn : messageSize b with
        | none => simp [nextStart, hjoin, hsize, hn, hquic]
        | some n =>
          simp [nextStart, hjoin, hsize, hn, hquic, hpayload, hopen n hn]
      simp [pop, herr, popLoop, hnext]
    split
    · next n hn =>
      split
      · next hle =>
        have hge := (messageSize_ge hn).1
        simp only [HEADER_SIZE] at hge
        have hnext : d.nextStart = .error (.complete n) := by
          simp [nextStart, hjoin, hsize, hn, hpayload, hle]
        have hne : d.used ≠ 0 := by omega
        have htake : slice? d.buf joined.payload.start (joined.payload.start + n) =
            some (b.take n) := by
          rw [slice?_eq (by omega) (by omega), ← hb, take_slice (by omega)]
        by_cases hlt : n < b.length
        · let joined' : HandshakePayloadMeta := { joined with
            payload := ⟨joined.payload.start + n, joined.payload.stop⟩
            expectedLen := messageSize (b.drop n) }
          have hdrop : slice d.buf (joined.payload.start + n) d.used = b.drop n := by
            rw [← hb, drop_slice]
          have hslice : slice? d.buf (joined.payload.start + n) joined.payload.stop =
              some (b.drop n) := by
            rw [hstop, slice?_eq (by omega) hused, hdrop]
          refine ⟨⟨false, false, true, ⟨.handshake, joined.version, ⟨b.take n⟩⟩⟩,
            { d with joiningHs := some joined' }, ?_, rfl, ?_, le_rfl⟩
          · simp [pop, herr, hne, popLoop, hnext,
              MessageDeframer.takeComplete, hjoin, htake, hpayload, hlt, hslice,
              payloadSize_of_fits (hfits n hn hle), joined']
          · exact @Queue.joining { d with joiningHs := some joined' } joined' _ herr hused hsized rfl
              hquic hmessage hstop (by show joined.payload.start + n ≤ d.used; omega) hdrop rfl
        · -- the buffer is empty again
          refine ⟨⟨false, true, true, ⟨.handshake, joined.version, ⟨b.take n⟩⟩⟩,
            { d with joiningHs := none, used := 0 }, ?_, rfl, ?_, Nat.zero_le _⟩
          · simp [pop, herr, hne, popLoop, hnext,
              MessageDeframer.takeComplete, hjoin, htake, hpayload, hlt, MessageDeframer.discard,
              hmessage]
          · rw [List.drop_eq_nil_of_le (by omega)]
            exact .empty herr rfl rfl
      · next hle =>
        refine hwait fun k hk => ?_
        rw [hn] at hk
        cases hk
        exact hle
    · next hn => exact hwait fun n hk => by rw [hn] at hk; cases hk

/-! ### Any number of calls -/

/-- No call panics, and the messages popped are those of the stream. -/
def PopsMessages (rl : RecordLayer) (calls : List QuicCall) : Prop :=
  ∃ s, (QuicRun.new rl).run calls = some s ∧
    s.popped = (HandshakeStream.run ⟨[], []⟩ calls).popped

/-- The payloads pushed are no longer than one read. -/
def ReadSized (calls : List QuicCall) : Prop :=
  ∀ version payload, QuicCall.push version payload ∈ calls → payload.length ≤ READ_SIZE

theorem readSized_cons {c : QuicCall} {calls : List QuicCall} :
    ReadSized (c :: calls) ↔ ReadSized [c] ∧ ReadSized calls := by
  constructor
  · exact fun h => ⟨fun v p hp => h v p (by simp_all), fun v p hp => h v p (.tail _ hp)⟩
  · rintro ⟨hc, hcalls⟩ v p (_ | ⟨_, hp⟩)
    · exact hc v p List.mem_cons_self
    · exact hcalls v p hp

/-- **Run.** By induction on the calls. -/
theorem run_iff (calls : List QuicCall) (s : QuicRun) {b : Bytes} (h : Queue s.deframer b)
    (hfits : HeadersFit (b ++ pushed calls))
    (htotal : s.deframer.used + (pushed calls).length ≤ MAX_HANDSHAKE_SIZE) :
    (ReadSized calls → ∃ s', s.run calls = some s' ∧
        s'.popped = (HandshakeStream.run ⟨b, s.popped⟩ calls).popped) ∧
      (¬ReadSized calls → s.run calls = none) := by
  induction calls generalizing s b with
  | nil => exact ⟨fun _ => ⟨s, rfl, rfl⟩, fun hsized => absurd (fun _ _ hp => by cases hp) hsized⟩
  | cons c calls ih =>
    rw [readSized_cons]
    cases c with
    | push version payload =>
      have hsized : ReadSized [.push version payload] ↔ payload.length ≤ READ_SIZE := by
        simp [ReadSized]
      have hpushed : pushed (.push version payload :: calls) = payload ++ pushed calls := rfl
      rw [hpushed, ← List.append_assoc] at hfits
      rw [hpushed, List.length_append] at htotal
      have hpush := push_queue h version hfits.of_append (by omega)
      rw [hsized]
      by_cases hle : payload.length ≤ READ_SIZE
      · rw [if_pos hle] at hpush
        obtain ⟨result, d', hpush, hqueue, hused⟩ := hpush
        have hcall : s.call (.push version payload) = some { s with deframer := d' } := by
          simp [QuicRun.call, hpush]
        have hrest := ih { s with deframer := d' } hqueue hfits
          (by show d'.used + _ ≤ _; omega)
        simpa [hle, QuicRun.run, hcall, HandshakeStream.run, HandshakeStream.call] using hrest
      · rw [if_neg hle] at hpush
        have hcall : s.call (.push version payload) = none := by simp [QuicRun.call, hpush]
        simp [hle, QuicRun.run, hcall]
    | pop =>
      have hsized : ReadSized [.pop] := fun v p hp => by simp at hp
      have hpop := pop_queue h (fun n hsize hle => (hfits.drop hsize hle).of_append) s.recordLayer
      have hstay : s.deframer.pop s.recordLayer = some (.ok none, s.deframer, s.recordLayer) →
          s.call .pop = some s := fun hpop => by simp [QuicRun.call, hpop]
      split at hpop
      · next n hsize =>
        split at hpop
        · next hle =>
          obtain ⟨m, d', hpop, hm, hqueue, hused⟩ := hpop
          have hcall : s.call .pop = some ⟨d', s.recordLayer, s.popped ++ [b.take n]⟩ := by
            simp [QuicRun.call, hpop, hm]
          have hrest := ih ⟨d', s.recordLayer, s.popped ++ [b.take n]⟩ hqueue
            (hfits.drop hsize hle) (le_trans (Nat.add_le_add_right hused _) htotal)
          simpa [hsized, QuicRun.run, hcall, HandshakeStream.run, HandshakeStream.call, hsize, hle]
            using hrest
        · next hle =>
          simpa [hsized, QuicRun.run, hstay hpop, HandshakeStream.run, HandshakeStream.call, hsize,
            hle] using ih s h hfits htotal
      · next hsize =>
        simpa [hsized, QuicRun.run, hstay hpop, HandshakeStream.run, HandshakeStream.call, hsize]
          using ih s h hfits htotal

/-- **QUIC handshake data.** For calls that push no more than the limit in total, with headers that
    announce no more than it: no call panics and the messages are popped as they were pushed, if and
    only if no payload pushed is longer than one read. -/
theorem popsMessages_iff (rl : RecordLayer) {calls : List QuicCall}
    (htotal : (pushed calls).length ≤ MAX_HANDSHAKE_SIZE) (hfits : HeadersFit (pushed calls)) :
    PopsMessages rl calls ↔ ReadSized calls := by
  obtain ⟨hsized, hlong⟩ := run_iff calls (.new rl) (.empty rfl rfl rfl) hfits
    (by show 0 + (pushed calls).length ≤ _; omega)
  constructor
  · rintro ⟨s, hrun, -⟩
    by_contra hnot
    rw [hlong hnot] at hrun
    cases hrun
  · exact hsized

theorem popsMessages_iff_two :
    PopsMessages .new [.push .TLSv1_3 [20, 0], .pop, .push .TLSv1_3 [0, 1, 9, 8], .pop] ↔
      ReadSized [.push .TLSv1_3 [20, 0], .pop, .push .TLSv1_3 [0, 1, 9, 8], .pop] :=
  popsMessages_iff .new (by decide) (by unfold HeadersFit; decide)

/-- A message of 4100 bytes. -/
def longMessage : Bytes := [1, 0, 0x10, 0] ++ List.replicate 4096 0

theorem long_message_panics :
    (pushed [.push .TLSv1_3 longMessage]).length ≤ MAX_HANDSHAKE_SIZE ∧
      HeadersFit (pushed [.push .TLSv1_3 longMessage]) ∧
      ¬PopsMessages .new [.push .TLSv1_3 longMessage] := by
  have hpushed : pushed [.push .TLSv1_3 longMessage] = longMessage := List.append_nil _
  have hlen : longMessage.length = 4100 := by
    rw [longMessage, List.length_append, List.length_replicate]
    rfl
  have hsize : messageSize longMessage = some 4100 :=
    messageSize_append (b := [1, 0, 0x10, 0]) rfl _
  have hfits : HeadersFit longMessage := by
    unfold HeadersFit
    rw [flush_eq, hsize]
    simp [hlen, HEADER_SIZE, MAX_HANDSHAKE_SIZE, List.drop_eq_nil_of_le hlen.le, flush]
  rw [hpushed]
  refine ⟨by rw [hlen]; decide, hfits, ?_⟩
  rintro ⟨s, hrun, -⟩
  have hlong : ¬ReadSized [.push .TLSv1_3 longMessage] := by
    intro h
    have := h .TLSv1_3 longMessage List.mem_cons_self
    rw [hlen] at this
    exact absurd this (by decide)
  have hnone := (run_iff [.push .TLSv1_3 longMessage] (.new .new) (.empty rfl rfl rfl)
    (by rw [hpushed]; exact hfits) (by rw [hpushed, hlen]; decide)).2 hlong
  rw [hnone] at hrun
  cases hrun

end TeaclaveCrates.Rustls
