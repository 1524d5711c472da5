import TeaclaveCrates.Rustls.Deframer

namespace TeaclaveCrates.Rustls

open TeaclaveCrates.Lib
open MessageDeframer (appendHs deframed hsState nextStart popLoop)

/-!
# rustls — what the deframer returns

What the deframer is for, and that it does it, for unencrypted records.

* `flush` / `deframe` — the messages of a sequence of records: handshake payloads
  are joined and cut by their headers, other records pass through;
* `Holds` — what the buffer holds: the joined bytes that have not been returned, at
  their indices, and the unread records behind them;
* `pop_holds` — one `pop` takes the next message and keeps this.
-/

/-! ### The messages of a sequence of records -/

/-- The joined bytes of an incomplete handshake message, and the version of the
    record they started in. -/
abbrev Pending := Option (ProtocolVersion × Bytes)

/-- The size of the handshake message at the front, as its header announces it. -/
def messageSize (b : Bytes) : Option Nat :=
  if b.length < HEADER_SIZE then none else some (HEADER_SIZE + ofBE ((b.drop 1).take 3))

/-- Cuts joined handshake bytes by their headers: the complete messages, each
    aligned if nothing follows it, and what is left.  `none` where a header
    announces more than the limit.  A message has at least four bytes, so the length
    of `b` is enough fuel. -/
def flush : Nat → ProtocolVersion → Bytes → Option (List Deframed × Pending)
  | 0, v, b => some ([], if b = [] then none else some (v, b))
  | fuel + 1, v, b =>
    match messageSize b with
    | none => some ([], if b = [] then none else some (v, b))
    | some n =>
      if n > HEADER_SIZE + MAX_HANDSHAKE_SIZE then none
      else if n ≤ b.length then
        match flush fuel v (b.drop n) with
        | none => none
        | some (out, pend) =>
          some (⟨false, b.drop n = [], true, ⟨.handshake, v, ⟨b.take n⟩⟩⟩ :: out, pend)
      else some ([], some (v, b))

/-- The joined bytes once the payload of `r` is added. -/
def join (pend : Pending) (r : OpaqueMessage) : ProtocolVersion × Bytes :=
  match pend with
  | some (v, b) => (v, b ++ r.payload.bytes)
  | none => (r.version, r.payload.bytes)

/-- The messages of a sequence of records, and how it ends: with an incomplete
    message or none, or at a record that interrupts a handshake message.  `none`
    where a handshake header announces more than the limit. -/
def deframe : Pending → List OpaqueMessage → Option (List Deframed × Except Error Pending)
  | pend, [] => some ([], .ok pend)
  | pend, r :: rs =>
    if r.typ = .handshake then
      match flush (join pend r).2.length (join pend r).1 (join pend r).2 with
      | none => none
      | some (out, pend) =>
        match deframe pend rs with
        | none => none
        | some (out', fin) => some (out ++ out', fin)
    else
      match pend with
      | some _ => some ([], .error (.peerMisbehaved .messageInterleavedWithHandshakeMessage))
      | none =>
        match deframe none rs with
        | none => none
        | some (out, fin) => some (deframed r.intoPlainMessage :: out, fin)

/-! ### Cutting -/

variable {b : Bytes}

variable {n : Nat}

theorem messageSize_ge (h : messageSize b = some n) :
    HEADER_SIZE ≤ n ∧ HEADER_SIZE ≤ b.length := by
  unfold messageSize at h
  split at h
  · cases h
  · cases h
    omega

/-- `payload_size` is the announced size, unless that is too large. -/
theorem payloadSize_eq (b : Bytes) : payloadSize b =
    match messageSize b with
    | none => .ok none
    | some n =>
      if n > HEADER_SIZE + MAX_HANDSHAKE_SIZE then .error (.invalidMessage .handshakePayloadTooLarge)
      else .ok (some n) := by
  unfold payloadSize messageSize
  by_cases hshort : b.length < HEADER_SIZE
  · simp [hshort]
  · have hthree : ((b.drop 1).take 3).length = 3 := by
      simp only [HEADER_SIZE] at hshort
      rw [List.length_take, List.length_drop]
      omega
    have hbytes : (b.take HEADER_SIZE).drop 1 = (b.drop 1).take 3 := by
      rw [List.drop_take]
      rfl
    have hlt : ofBE ((b.drop 1).take 3) < 256 ^ 3 := by
      have := ofBE_lt ((b.drop 1).take 3)
      rwa [hthree] at this
    have hread : (Codec.read ((b.drop 1).take 3) : Except InvalidMessage (U24 × Bytes)) =
        .ok (⟨UInt32.ofNat (ofBE ((b.drop 1).take 3))⟩, []) := by
      refine ByteParser.bind_ok.mpr ⟨(b.drop 1).take 3, [], ?_, rfl⟩
      exact ByteParser.take_ok.mpr ⟨(List.append_nil _).symm, hthree⟩
    have hval : (UInt32.ofNat (ofBE ((b.drop 1).take 3))).toNat = ofBE ((b.drop 1).take 3) := by
      rw [UInt32.toNat_ofNat', Nat.mod_eq_of_lt (by omega)]
    simp only [if_neg hshort, hbytes, hread, hval]
    by_cases hbig : ofBE ((b.drop 1).take 3) > MAX_HANDSHAKE_SIZE
    · simp
    · simp

/-- The number of bytes of an incomplete message. -/
def Pending.length : Pending → Nat
  | some (_, b) => b.length
  | none => 0

theorem Pending.eq_none {pend : Pending} (h : pend.length = 0)
    (hne : ∀ v, pend ≠ some (v, [])) : pend = none := by
  cases pend with
  | none => rfl
  | some p => exact absurd (by rw [← List.eq_nil_of_length_eq_zero h]) (hne p.1)

variable {v : ProtocolVersion}

/-- More fuel than the length of the bytes makes no difference. -/
theorem flush_fuel (fuel : Nat) :
    ∀ b : Bytes, b.length ≤ fuel → flush fuel v b = flush b.length v b := by
  induction fuel using Nat.strong_induction_on with
  | _ fuel ih =>
    intro b hb
    cases fuel with
    | zero =>
      obtain rfl : b = [] := List.eq_nil_of_length_eq_zero (by omega)
      rfl
    | succ fuel =>
      cases hsize : messageSize b with
      | none =>
        cases hl : b.length with
        | zero => simp [flush, hsize]
        | succ k => simp [flush, hsize]
      | some n =>
        obtain ⟨hn, hbn⟩ := messageSize_ge hsize
        simp only [HEADER_SIZE] at hn hbn
        obtain ⟨k, hk⟩ : ∃ k, b.length = k + 1 := ⟨b.length - 1, by omega⟩
        rw [hk, flush, flush, hsize]
        simp only
        -- both sides go on with the bytes behind the first message
        have hdrop : (b.drop n).length ≤ k := by rw [List.length_drop]; omega
        rw [ih fuel (by omega) (b.drop n) (by omega), ih k (by omega) (b.drop n) hdrop]

/-- What `flush` does with a message at the front. -/
theorem flush_eq (v : ProtocolVersion) (b : Bytes) : flush b.length v b =
    match messageSize b with
    | none => some ([], if b = [] then none else some (v, b))
    | some n =>
      if n > HEADER_SIZE + MAX_HANDSHAKE_SIZE then none
      else if n ≤ b.length then
        match flush (b.drop n).length v (b.drop n) with
        | none => none
        | some (out, pend) =>
          some (⟨false, b.drop n = [], true, ⟨.handshake, v, ⟨b.take n⟩⟩⟩ :: out, pend)
      else some ([], some (v, b)) := by
  rw [← flush_fuel (b.length + 1) b (by omega), flush]
  cases hsize : messageSize b with
  | none => rfl
  | some n =>
    simp [flush_fuel b.length (b.drop n) (by rw [List.length_drop]; omega)]

/-- Every message takes bytes: there are no more messages than bytes. -/
theorem flush_length (fuel : Nat) :
    ∀ (b : Bytes) (out : List Deframed) (pend : Pending), flush fuel v b = some (out, pend) →
      out.length + pend.length ≤ b.length := by
  have hrest : ∀ b : Bytes, (if b = [] then none else some (v, b) : Pending).length ≤ b.length := by
    intro b
    split
    · exact Nat.zero_le _
    · exact le_rfl
  induction fuel with
  | zero =>
    intro b out pend h
    cases h
    simpa using hrest b
  | succ fuel ih =>
    intro b out pend h
    rw [flush] at h
    split at h
    · cases h
      simpa using hrest b
    · next n hn =>
      have hge := (messageSize_ge hn).1
      simp only [HEADER_SIZE] at hge
      split at h
      · cases h
      · split at h
        · split at h
          · cases h
          · next out' pend' hflush =>
            cases h
            have := ih _ _ _ hflush
            rw [List.length_drop] at this
            rw [List.length_cons]
            omega
        · cases h
          show 0 + b.length ≤ b.length
          omega

theorem deframe_length (rs : List OpaqueMessage) :
    ∀ (pend : Pending) (out : List Deframed) (fin : Except Error Pending),
      deframe pend rs = some (out, fin) →
      out.length ≤ pend.length + (rs.flatMap OpaqueMessage.encode).length := by
  induction rs with
  | nil => intro pend out fin h; cases h; simp
  | cons r rs ih =>
    intro pend out fin h
    have hr := r.length_encode
    simp only [OpaqueMessage.HEADER_SIZE] at hr
    rw [deframe.eq_def] at h
    simp only at h
    rw [List.flatMap_cons, List.length_append]
    split at h
    · split at h
      · cases h
      · next out₁ pend₁ hflush =>
        split at h
        · cases h
        · next out₂ fin₂ hrest =>
          cases h
          have h₁ := flush_length _ _ _ _ hflush
          have h₂ := ih _ _ _ hrest
          have hjoin : (join pend r).2.length = pend.length + r.payload.bytes.length := by
            cases pend with
            | none => simp [join, Pending.length]
            | some p => simp [join, Pending.length]
          rw [List.length_append]
          omega
    · split at h
      · cases h
        exact Nat.zero_le _
      · split at h
        · cases h
        · next out₂ fin₂ hrest =>
          cases h
          have h₂ := ih _ _ _ hrest
          rw [List.length_cons]
          omega

/-! ### What the buffer holds -/

/-- The deframer holds the joined bytes `pend`, complete or not, at the indices of
    its metadata, and `unread` behind them. -/
inductive Holds (d : MessageDeframer) : Pending → Bytes → Prop
  | idle {unread : Bytes} (herr : d.lastError = none) (hused : d.used ≤ d.buf.length)
      (hjoin : d.joiningHs = none) (hunread : slice d.buf 0 d.used = unread) :
      Holds d none unread
  | joining {joined : HandshakePayloadMeta} {b unread : Bytes} (herr : d.lastError = none)
      (hused : d.used ≤ d.buf.length) (hjoin : d.joiningHs = some joined)
      (hquic : joined.quic = false) (hstart : joined.payload.start ≤ joined.payload.stop)
      (hstop : joined.payload.stop ≤ joined.message.stop) (hmessage : joined.message.stop ≤ d.used)
      (hb : slice d.buf joined.payload.start joined.payload.stop = b) (hne : b ≠ [])
      (hsize : joined.expectedLen = messageSize b)
      (hunread : slice d.buf joined.message.stop d.used = unread) :
      Holds d (some (joined.version, b)) unread

/-- A complete message is at the front of the joined bytes. -/
def Pending.Front (pend : Pending) (n : Nat) : Prop :=
  ∃ v b, pend = some (v, b) ∧ messageSize b = some n ∧ n ≤ b.length

/-- No header is at the front, or one within the limit. -/
def Fits (b : Bytes) : Prop := ∀ n, messageSize b = some n → n ≤ HEADER_SIZE + MAX_HANDSHAKE_SIZE

theorem payloadSize_of_fits (h : Fits b) : payloadSize b = .ok (messageSize b) := by
  rw [payloadSize_eq]
  cases hsize : messageSize b with
  | none => rfl
  | some n => exact if_neg (not_lt.mpr (h n hsize))

/-- A header stays what it is when bytes are added behind it. -/
theorem messageSize_append (h : messageSize b = some n) (x : Bytes) :
    messageSize (b ++ x) = some n := by
  have hlen := (messageSize_ge h).2
  unfold messageSize at h ⊢
  rw [if_neg (by omega)] at h
  rw [if_neg (by rw [List.length_append]; omega), ← h]
  simp only [HEADER_SIZE] at hlen
  have htake : ((b ++ x).drop 1).take 3 = (b.drop 1).take 3 := by
    rw [List.drop_append_of_le_length (by omega),
      List.take_append_of_le_length (by rw [List.length_drop]; omega)]
  rw [htake]

/-- Where the loop of `pop` goes on reading. -/
def MessageDeframer.start (d : MessageDeframer) : Nat :=
  match d.joiningHs with
  | some joined => joined.message.stop
  | none => 0

variable {d : MessageDeframer} {pend : Pending} {unread : Bytes}

theorem Holds.unread_eq (h : Holds d pend unread) :
    d.start ≤ d.used ∧ d.used ≤ d.buf.length ∧ slice d.buf d.start d.used = unread := by
  cases h with
  | idle herr hused hjoin hunread => simpa [MessageDeframer.start, hjoin] using ⟨hused, hunread⟩
  | joining herr hused hjoin hquic hstart hstop hmessage hb hne hsize hunread =>
    simpa [MessageDeframer.start, hjoin] using ⟨hmessage, hused, hunread⟩

theorem Holds.lastError (h : Holds d pend unread) : d.lastError = none := by
  cases h with
  | idle herr => exact herr
  | joining herr => exact herr

/-- The joined and the unread bytes fit into the used part of the buffer. -/
theorem Holds.length_le (h : Holds d pend unread) : pend.length + unread.length ≤ d.used := by
  cases h with
  | idle herr hused hjoin hunread =>
    rw [← hunread, length_slice hused]
    simp [Pending.length]
  | joining herr hused hjoin hquic hstart hstop hmessage hb hne hsize hunread =>
    rw [← hunread, length_slice hused]
    simp only [Pending.length]
    rw [← hb, length_slice (by omega)]
    omega

theorem nextStart_front (h : Holds d pend unread) (hfront : pend.Front n) :
    d.nextStart = .error (.complete n) := by
  obtain ⟨v, b, rfl, hn, hle⟩ := hfront
  cases h with
  | joining herr hused hjoin hquic hstart hstop hmessage hb hne hsize hunread =>
    next joined =>
    have hlen : n ≤ joined.payload.len := by
      rw [← hb, length_slice (by omega)] at hle
      exact hle
    simp [nextStart, hjoin, hsize, hn, hlen]

theorem nextStart_open (h : Holds d pend unread) (hopen : ∀ n, ¬ pend.Front n) :
    d.nextStart = .ok d.start := by
  cases h with
  | idle herr hused hjoin hunread => simp [nextStart, MessageDeframer.start, hjoin]
  | joining herr hused hjoin hquic hstart hstop hmessage hb hne hsize hunread =>
    next joined b =>
    cases hn : messageSize b with
    | none =>
      simp [nextStart, MessageDeframer.start, hjoin, hsize, hn, hquic]
    | some n =>
      have hlen : ¬ n ≤ joined.payload.len := by
        intro hle
        refine hopen n ⟨_, _, rfl, hn, ?_⟩
        rw [← hb, length_slice (by omega)]
        exact hle
      simp [nextStart, MessageDeframer.start, hjoin, hsize, hn, hquic, hlen]

/-- Dropping the front of an idle buffer. -/
theorem discard_holds {taken : Nat} (herr : d.lastError = none) (hused : d.used ≤ d.buf.length)
    (hjoin : d.joiningHs = none) (htaken : taken ≤ d.used) :
    ∃ d', d.discard taken = some d' ∧ Holds d' none (slice d.buf taken d.used) ∧
      d'.used ≤ d.used := by
  rcases Nat.lt_or_eq_of_le htaken with hlt | heq
  · have hlen := length_slice (a := taken) hused
    have hfit : 0 + (slice d.buf taken d.used).length ≤ d.buf.length := by omega
    refine ⟨{ d with buf := overwrite d.buf 0 (slice d.buf taken d.used), used := d.used - taken },
      ?_, .idle herr ?_ hjoin ?_, by simp⟩
    · simp [MessageDeframer.discard, hlt, slice?_eq htaken hused, overwrite?_eq hfit]
    · show d.used - taken ≤ (overwrite d.buf 0 _).length
      rw [length_overwrite hfit]
      omega
    · have hself := slice_overwrite_self hfit
      rwa [Nat.zero_add, hlen] at hself
  · subst heq
    refine ⟨{ d with used := 0 }, ?_, .idle herr (Nat.zero_le _) hjoin ?_, Nat.zero_le _⟩
    · simp [MessageDeframer.discard]
    · simp

/-- What `append_hs` reports about the joined bytes. -/
def Reports (st : HandshakePayloadState) (pend : Pending) (unread : Bytes) : Prop :=
  (∃ n, st = .complete n ∧ pend.Front n) ∨
    ((∀ n, ¬ pend.Front n) ∧
      ((st = .continue ∧ unread ≠ []) ∨ (st = .blocked ∧ unread = [])))

theorem hsState_reports {joined : HandshakePayloadMeta} (hused : d.used ≤ d.buf.length)
    (hstop : joined.payload.stop ≤ d.buf.length) (hmessage : joined.message.stop ≤ d.used)
    (hb : slice d.buf joined.payload.start joined.payload.stop = b)
    (hsize : joined.expectedLen = messageSize b)
    (hunread : slice d.buf joined.message.stop d.used = unread) :
    Reports (hsState d.used joined) (some (joined.version, b)) unread := by
  have hlen : joined.payload.len = b.length := by rw [← hb, length_slice hstop]; rfl
  have hmore : ((if d.used > joined.message.stop then .continue else .blocked :
        HandshakePayloadState) = .continue ∧ unread ≠ []) ∨
      ((if d.used > joined.message.stop then .continue else .blocked :
        HandshakePayloadState) = .blocked ∧ unread = []) := by
    have hul := length_slice (a := joined.message.stop) hused
    rw [hunread] at hul
    by_cases hgt : d.used > joined.message.stop
    · refine .inl ⟨if_pos hgt, fun hnil => ?_⟩
      rw [hnil, List.length_nil] at hul
      omega
    · exact .inr ⟨if_neg hgt, List.eq_nil_of_length_eq_zero (by omega)⟩
  unfold hsState
  rw [hsize]
  cases hn : messageSize b with
  | none =>
    refine .inr ⟨?_, hmore⟩
    rintro n ⟨v, b', heq, hn', -⟩
    cases heq
    rw [hn] at hn'
    cases hn'
  | some n =>
    by_cases hle : n ≤ b.length
    · simp only [hlen, if_pos hle]
      exact .inl ⟨n, rfl, _, _, rfl, hn, hle⟩
    · simp only [hlen, if_neg hle]
      refine .inr ⟨?_, hmore⟩
      rintro n' ⟨v, b', heq, hn', hle'⟩
      cases heq
      rw [hn] at hn'
      cases hn'
      exact hle hle'

variable {r : OpaqueMessage}

/-- Joining the payload of the record at the front of the unread bytes, decrypted or as it is. -/
theorem appendHs_holds {record : Bytes} (h : Holds d pend (record ++ unread))
    (hrlen : r.payload.bytes.length ≤ record.length) (hpayload : r.payload.bytes ≠ [])
    (hfits : Fits (join pend r).2) :
    ∃ st d', d.appendHs r.version r.payload.bytes (d.start + record.length) false =
        some (.ok st, d') ∧
      Holds d' (some (join pend r)) unread ∧ d'.used = d.used ∧
      Reports st (some (join pend r)) unread := by
  obtain ⟨hs, hu, hun⟩ := h.unread_eq
  -- the record lies within the used part
  have hroom : d.start + record.length + unread.length = d.used := by
    have := congrArg List.length hun
    rw [length_slice hu, List.length_append] at this
    omega
  have htail : slice d.buf (d.start + record.length) d.used = unread := by
    rw [← drop_slice, hun, List.drop_left]
  cases h with
  | idle herr hused hjoin hunread =>
    have hstart0 : d.start = 0 := by simp [MessageDeframer.start, hjoin]
    rw [hstart0, Nat.zero_add] at hroom htail ⊢
    have hfit : 0 + r.payload.bytes.length ≤ d.buf.length := by omega
    let buf := overwrite d.buf 0 r.payload.bytes
    let joined : HandshakePayloadMeta := ⟨⟨0, record.length⟩, ⟨0, r.payload.bytes.length⟩,
      r.version, messageSize r.payload.bytes, false⟩
    have hbuf : buf.length = d.buf.length := length_overwrite hfit
    have hb : slice buf 0 r.payload.bytes.length = r.payload.bytes := by
      have := slice_overwrite_self hfit
      rwa [Nat.zero_add] at this
    have hun' : slice buf record.length d.used = unread := by
      rw [← htail]
      exact slice_overwrite_after hfit (by omega)
    refine ⟨hsState d.used joined, { d with buf := buf, joiningHs := some joined },
      ?_, ?_, rfl, ?_⟩
    · simp only [join] at hfits
      simp [appendHs, hjoin, payloadSize_of_fits hfits, overwrite?_eq hfit, buf,
        joined]
    · refine @Holds.joining { d with buf := buf, joiningHs := some joined } joined _ _ herr ?_ rfl
        rfl (Nat.zero_le _) ?_ ?_ hb hpayload rfl hun'
      · show d.used ≤ buf.length
        omega
      · show r.payload.bytes.length ≤ record.length
        omega
      · show record.length ≤ d.used
        omega
    · exact @hsState_reports _ { d with buf := buf, joiningHs := some joined } _ joined
        (by show d.used ≤ buf.length; omega) (by show r.payload.bytes.length ≤ buf.length; omega)
        (by show record.length ≤ d.used; omega) hb rfl hun'
  | joining herr hused hjoin hquic hstart hstop hmessage hb hne hsize hunread =>
    next joined b =>
    have hstartEq : d.start = joined.message.stop := by simp [MessageDeframer.start, hjoin]
    rw [hstartEq] at hroom htail ⊢
    have hfit : joined.payload.stop + r.payload.bytes.length ≤ d.buf.length := by omega
    let buf := overwrite d.buf joined.payload.stop r.payload.bytes
    have hbuf : buf.length = d.buf.length := length_overwrite hfit
    have hb' : slice buf joined.payload.start (joined.payload.stop + r.payload.bytes.length) =
        b ++ r.payload.bytes := by
      rw [← slice_append hstart (Nat.le_add_right _ _) (by omega), slice_overwrite_self hfit,
        slice_overwrite_before hfit le_rfl, hb]
    have hun' : slice buf (joined.message.stop + record.length) d.used = unread := by
      rw [← htail]
      exact slice_overwrite_after hfit (by omega)
    let joined' : HandshakePayloadMeta := { joined with
      message := ⟨joined.message.start, joined.message.stop + record.length⟩
      payload := ⟨joined.payload.start, joined.payload.stop + r.payload.bytes.length⟩
      expectedLen := messageSize (b ++ r.payload.bytes) }
    refine ⟨hsState d.used joined', { d with buf := buf, joiningHs := some joined' },
      ?_, ?_, rfl, ?_⟩
    · simp only [join] at hfits
      have hslice := slice?_eq (l := buf) (a := joined.payload.start)
        (b := joined.payload.stop + r.payload.bytes.length) (by omega) (by omega)
      cases hn : messageSize b with
      | none =>
        simp [appendHs, hjoin, hquic, guard, overwrite?_eq hfit, hsize, hn, hslice,
          hb', payloadSize_of_fits hfits, buf, joined']
      | some n =>
        simp [appendHs, hjoin, hquic, guard, overwrite?_eq hfit, hsize, hn,
          messageSize_append hn, buf, joined']
    · refine @Holds.joining { d with buf := buf, joiningHs := some joined' } joined' _ _ herr ?_ rfl
        hquic ?_ ?_ ?_ hb' (by simp [hpayload]) rfl hun'
      · show d.used ≤ buf.length
        omega
      · show joined.payload.start ≤ joined.payload.stop + r.payload.bytes.length
        omega
      · show joined.payload.stop + r.payload.bytes.length ≤ joined.message.stop + record.length
        omega
      · show joined.message.stop + record.length ≤ d.used
        omega
    · exact @hsState_reports _ { d with buf := buf, joiningHs := some joined' } _ joined'
        (by show d.used ≤ buf.length; omega)
        (by show joined.payload.stop + r.payload.bytes.length ≤ buf.length; omega)
        (by show joined.message.stop + record.length ≤ d.used; omega) hb' rfl hun'

/-! ### One pop -/

/-- The messages still to come from joined bytes that may hold complete messages. -/
def resume (pend : Pending) (rs : List OpaqueMessage) :
    Option (List Deframed × Except Error Pending) :=
  match pend with
  | none => deframe none rs
  | some (v, b) =>
    match flush b.length v b with
    | none => none
    | some (out, pend) =>
      match deframe pend rs with
      | none => none
      | some (out', fin) => some (out ++ out', fin)

variable {rs : List OpaqueMessage}

theorem deframe_handshake (h : r.typ = .handshake) :
    deframe pend (r :: rs) = resume (some (join pend r)) rs := by
  rw [deframe.eq_def]
  simp only [if_pos h]
  rfl

theorem deframe_other_none (h : r.typ ≠ .handshake) :
    deframe none (r :: rs) =
      match deframe none rs with
      | none => none
      | some (out, fin) => some (deframed r.intoPlainMessage :: out, fin) := by
  rw [deframe.eq_def]
  simp [h]

theorem deframe_other_some {p : ProtocolVersion × Bytes} (h : r.typ ≠ .handshake) :
    deframe (some p) (r :: rs) =
      some ([], .error (.peerMisbehaved .messageInterleavedWithHandshakeMessage)) := by
  simp [deframe.eq_def, h]

theorem fits_of_resume (h : resume (some (v, b)) rs ≠ none) : Fits b := by
  intro n hn
  by_contra hbig
  apply h
  simp [resume, flush_eq, hn, (not_le.mp hbig)]

/-- The joined bytes that are left when a message of `n` bytes is taken. -/
def afterFront (v : ProtocolVersion) (b : Bytes) (n : Nat) : Pending :=
  if b.drop n = [] then none else some (v, b.drop n)

variable {fin : Except Error Pending}

variable {out : List Deframed}

/-- A complete message at the front is the next one to come. -/
theorem resume_front (hn : messageSize b = some n) (hle : n ≤ b.length)
    (h : resume (some (v, b)) rs = some (out, fin)) :
    ∃ out', out = ⟨false, b.drop n = [], true, ⟨.handshake, v, ⟨b.take n⟩⟩⟩ :: out' ∧
      resume (afterFront v b n) rs = some (out', fin) ∧ Fits (b.drop n) := by
  have hfit : ¬ n > HEADER_SIZE + MAX_HANDSHAKE_SIZE :=
    not_lt.mpr (fits_of_resume (by rw [h]; simp) n hn)
  simp only [resume] at h
  rw [flush_eq, hn] at h
  simp only [if_neg hfit, if_pos hle] at h
  cases hflush : flush (b.drop n).length v (b.drop n) with
  | none => rw [hflush] at h; cases h
  | some p =>
    obtain ⟨out₁, pend₁⟩ := p
    rw [hflush] at h
    simp only at h
    cases hdeframe : deframe pend₁ rs with
    | none => rw [hdeframe] at h; cases h
    | some q =>
      obtain ⟨out₂, fin₂⟩ := q
      rw [hdeframe] at h
      cases h
      have hrest : resume (afterFront v b n) rs = some (out₁ ++ out₂, fin) := by
        unfold afterFront
        split
        · next hnil =>
          -- nothing is left of the joined bytes
          rw [hnil] at hflush
          cases hflush
          simpa [resume] using hdeframe
        · simp only [resume, hflush, hdeframe]
      refine ⟨out₁ ++ out₂, rfl, hrest, ?_⟩
      by_cases hnil : b.drop n = []
      · rw [hnil]
        intro m hm
        cases hm
      · refine @fits_of_resume _ v rs ?_
        rw [afterFront, if_neg hnil] at hrest
        simp [hrest]

/-- Joined bytes without a complete message at the front go on to the next record. -/
theorem resume_open (hopen : ∀ n, ¬ pend.Front n) (hne : ∀ v, pend ≠ some (v, []))
    (hsome : resume pend rs ≠ none) (rs' : List OpaqueMessage) :
    resume pend rs' = deframe pend rs' := by
  cases pend with
  | none => rfl
  | some p =>
    obtain ⟨v, b⟩ := p
    have hb : b ≠ [] := fun h => hne v (by rw [h])
    have hflush : flush b.length v b = some ([], some (v, b)) := by
      rw [flush_eq]
      cases hn : messageSize b with
      | none => simp [hb]
      | some n =>
        have hfit : ¬ n > HEADER_SIZE + MAX_HANDSHAKE_SIZE :=
          not_lt.mpr (fits_of_resume hsome n hn)
        have hle : ¬ n ≤ b.length := fun hle => hopen n ⟨v, b, rfl, hn, hle⟩
        simp [hfit, hle]
    simp only [resume, hflush]
    cases deframe (some (v, b)) rs' with
    | none => rfl
    | some q => simp

theorem Holds.ne_nil (h : Holds d pend unread) (v : ProtocolVersion) : pend ≠ some (v, []) := by
  cases h with
  | idle => simp
  | joining herr hused hjoin hquic hstart hstop hmessage hb hne =>
    intro heq
    cases heq
    exact hne rfl

/-- Taking the complete message at the front. -/
theorem takeComplete_holds (h : Holds d (some (v, b)) unread) (hle : n ≤ b.length)
    (hfits : Fits (b.drop n)) :
    ∃ d', d.takeComplete n =
        some (.ok (some ⟨false, b.drop n = [], true, ⟨.handshake, v, ⟨b.take n⟩⟩⟩), d') ∧
      Holds d' (afterFront v b n) unread ∧ d'.used ≤ d.used ∧
      (b.drop n ≠ [] → d'.used = d.used) := by
  cases h with
  | joining herr hused hjoin hquic hstart hstop hmessage hb hne hsize hunread =>
    next joined =>
    have hlen : joined.payload.len = b.length := by rw [← hb, length_slice (by omega)]; rfl
    have hstopLen : joined.payload.start + b.length = joined.payload.stop := by
      rw [← hlen, Range.len]
      omega
    have htake : slice? d.buf joined.payload.start (joined.payload.start + n) = some (b.take n) := by
      rw [slice?_eq (by omega) (by omega), ← hb, take_slice (by omega)]
    have hdrop : slice d.buf (joined.payload.start + n) joined.payload.stop = b.drop n := by
      rw [← hb, drop_slice]
    by_cases hlt : joined.payload.len > n
    · -- the beginning of another message is left
      have hrest : b.drop n ≠ [] := by
        intro hnil
        have := congrArg List.length hnil
        rw [List.length_drop, List.length_nil] at this
        omega
      let joined' : HandshakePayloadMeta := { joined with
        payload := ⟨joined.payload.start + n, joined.payload.stop⟩
        expectedLen := messageSize (b.drop n) }
      refine ⟨{ d with joiningHs := some joined' }, ?_, ?_, le_rfl, fun _ => rfl⟩
      · have hslice : slice? d.buf (joined.payload.start + n) joined.payload.stop =
            some (b.drop n) := by rw [slice?_eq (by omega) (by omega), hdrop]
        simp [MessageDeframer.takeComplete, hjoin, htake, hlt, hslice, payloadSize_of_fits hfits,
          hrest, joined']
      · rw [afterFront, if_neg hrest]
        exact @Holds.joining { d with joiningHs := some joined' } joined' _ _ herr hused rfl hquic
          (by show joined.payload.start + n ≤ joined.payload.stop; omega) hstop hmessage hdrop hrest
          rfl hunread
    · have hrest : b.drop n = [] := List.drop_eq_nil_of_le (by omega)
      obtain ⟨d', hd', hholds, hle'⟩ := discard_holds (d := { d with joiningHs := none }) herr hused
        rfl hmessage
      refine ⟨d', ?_, ?_, hle', fun hmore => absurd hrest hmore⟩
      · simp [MessageDeframer.takeComplete, hjoin, htake, hlt, hd', hrest]
      · rw [afterFront, if_pos hrest, ← hunread]
        exact hholds

/-- Each of the records is read back, whatever follows it. -/
def Readable (rs : List OpaqueMessage) : Prop :=
  ∀ r ∈ rs, OpaqueMessage.read r.encode = .ok (r, [])

/-- Bytes that are too short for a record. -/
def Short (tail : Bytes) : Prop :=
  ∃ e, OpaqueMessage.read tail = .error e ∧ e.IsShort

/-- The bytes of the records `rs`. -/
def wireOf (rs : List OpaqueMessage) : Bytes := rs.flatMap OpaqueMessage.encode

theorem wireOf_cons (r : OpaqueMessage) (rs : List OpaqueMessage) :
    wireOf (r :: rs) = r.encode ++ wireOf rs :=
  List.flatMap_cons

theorem read_append (h : OpaqueMessage.read r.encode = .ok (r, [])) (t : Bytes) :
    OpaqueMessage.read (r.encode ++ t) = .ok (r, t) :=
  OpaqueMessage.incremental_read.ok _ t _ _ h

/-- What `pop` can return, against the messages `out` still to come. -/
def PopSpec (tail : Bytes) (out : List Deframed) (fin : Except Error Pending)
    (d : MessageDeframer) : Except Error (Option Deframed) → Prop
  | .ok none => out = [] ∧ ∃ pend, fin = .ok pend ∧ Holds d pend tail ∧
      ∀ rs, resume pend rs = deframe pend rs
  | .ok (some m) => ∃ out' pend rs, out = m :: out' ∧ Holds d pend (wireOf rs ++ tail) ∧
      Readable rs ∧ resume pend rs = some (out', fin)
  | .error err => out = [] ∧ fin = .error err

/-- How the loop of `pop` can end, against the messages `out` still to come. -/
def LoopSpec (tail : Bytes) (out : List Deframed) (fin : Except Error Pending)
    (d : MessageDeframer) : MessageDeframer.LoopEnd → Prop
  | .complete n => ∃ pend rs, Holds d pend (wireOf rs ++ tail) ∧ Readable rs ∧ pend.Front n ∧
      resume pend rs = some (out, fin)
  | .ret result => PopSpec tail out fin d result

variable {rl : RecordLayer}

theorem decryptIncoming_plain (h : rl.decryptState ≠ .active) (m : OpaqueMessage) :
    rl.decryptIncoming m = (.ok (some ⟨false, m.intoPlainMessage⟩), rl) := by
  simp [RecordLayer.decryptIncoming, h]

/-- **Loop.** The loop of `pop` stops at the next message, or where nothing is
    complete.  By induction on the records that are unread. -/
theorem popLoop_holds (hrl : rl.decryptState ≠ .active) {tail : Bytes} (htail : Short tail)
    (rs : List OpaqueMessage) :
    ∀ (fuel : Nat) (d : MessageDeframer) (pend : Pending), rs.length < fuel →
      Holds d pend (wireOf rs ++ tail) → Readable rs → resume pend rs = some (out, fin) →
      ∃ stop d', d.popLoop fuel rl = some (stop, d', rl) ∧ d'.used ≤ d.used ∧
        LoopSpec tail out fin d' stop := by
  induction rs with
  | nil =>
    intro fuel d pend hfuel h hread hres
    obtain ⟨fuel, rfl⟩ : ∃ k, fuel = k + 1 := ⟨fuel - 1, by omega⟩
    by_cases hfront : ∃ n, pend.Front n
    · obtain ⟨n, hfront⟩ := hfront
      refine ⟨.complete n, d, ?_, le_rfl, pend, [], h, hread, hfront, hres⟩
      rw [popLoop, nextStart_front h hfront]
    · have hopen : ∀ n, ¬ pend.Front n := fun n hn => hfront ⟨n, hn⟩
      have hdeframe := resume_open hopen h.ne_nil (by rw [hres]; simp)
      rw [hdeframe, deframe] at hres
      cases hres
      obtain ⟨hs, hu, hun⟩ := h.unread_eq
      rw [wireOf, List.flatMap_nil, List.nil_append] at hun
      refine ⟨.ret (.ok none), d, ?_, le_rfl, rfl, pend, rfl, h, hdeframe⟩
      obtain ⟨e, he, hshort⟩ := htail
      rw [popLoop, nextStart_open h hopen]
      simp only [slice?_eq hs hu, hun, Option.bind_eq_bind, Option.bind_some, he]
      rcases hshort with rfl | rfl <;> rfl
  | cons r rs ih =>
    intro fuel d pend hfuel h hread hres
    obtain ⟨fuel, rfl⟩ : ∃ k, fuel = k + 1 := ⟨fuel - 1, by omega⟩
    rw [List.length_cons] at hfuel
    have hreadR := hread r (List.mem_cons_self ..)
    have hreadRs : Readable rs := fun r' hr' => hread r' (List.mem_cons_of_mem _ hr')
    by_cases hfront : ∃ n, pend.Front n
    · obtain ⟨n, hfront⟩ := hfront
      refine ⟨.complete n, d, ?_, le_rfl, pend, r :: rs, h, hread, hfront, hres⟩
      rw [popLoop, nextStart_front h hfront]
    · have hopen : ∀ n, ¬ pend.Front n := fun n hn => hfront ⟨n, hn⟩
      have hdeframe := resume_open hopen h.ne_nil (by rw [hres]; simp)
      rw [hdeframe] at hres
      have hwire : wireOf (r :: rs) ++ tail = r.encode ++ (wireOf rs ++ tail) := by
        rw [wireOf_cons, List.append_assoc]
      rw [hwire] at h
      obtain ⟨hs, hu, hun⟩ := h.unread_eq
      -- the record at the front of the unread bytes, and where it ends
      have hparse := read_append hreadR (wireOf rs ++ tail)
      have hstop : (r.encode ++ (wireOf rs ++ tail)).length - (wireOf rs ++ tail).length =
          r.encode.length := by rw [List.length_append]; omega
      rw [popLoop, nextStart_open h hopen]
      simp only [slice?_eq hs hu, hun, Option.bind_eq_bind, Option.bind_some, hparse, hstop,
        decryptIncoming_plain hrl, Option.pure_def]
      by_cases htyp : r.typ = .handshake
      · -- the payload is joined, and the loop may go on
        have hccs : ¬ (r.typ = .changeCipherSpec ∧ d.joiningHs.isNone = true) := by
          simp [htyp]
        have hplain : r.intoPlainMessage.typ = .handshake := htyp
        rw [deframe_handshake htyp] at hres
        have hpayload := (OpaqueMessage.read_ok hreadR).2.nonempty (by simp [htyp])
        obtain ⟨st, d', happend, hholds, hused, hreport⟩ :=
          appendHs_holds h (by rw [r.length_encode]; omega) hpayload
            (fits_of_resume (by rw [hres]; simp))
        simp only [if_neg hccs, guard, ↓reduceIte, Option.pure_def, Option.bind_some, hplain,
          ne_eq, not_true_eq_false, and_false]
        rw [show r.intoPlainMessage.version = r.version from rfl,
          show r.intoPlainMessage.payload = r.payload from rfl, happend]
        rcases hreport with ⟨n, rfl, hfront'⟩ | ⟨hopen', ⟨rfl, hmore⟩ | ⟨rfl, hnone⟩⟩
        · exact ⟨.complete n, d', rfl, le_of_eq hused, _, rs, hholds, hreadRs, hfront', hres⟩
        · obtain ⟨stop, d'', hloop, hle, hspec⟩ :=
            ih fuel d' _ (by omega) hholds hreadRs hres
          exact ⟨stop, d'', hloop, by omega, hspec⟩
        · -- nothing is unread: there is no other record and no tail
          obtain ⟨hrs, rfl⟩ := List.append_eq_nil_iff.mp hnone
          have hrs' : rs = [] := by
            cases rs with
            | nil => rfl
            | cons r' rs' =>
              have := r'.length_encode
              rw [wireOf_cons] at hrs
              rw [(List.append_eq_nil_iff.mp hrs).1] at this
              rw [List.length_nil, OpaqueMessage.HEADER_SIZE] at this
              omega
          subst hrs'
          have hdeframe' := resume_open hopen' hholds.ne_nil (by rw [hres]; simp)
          rw [hdeframe', deframe] at hres
          cases hres
          refine ⟨.ret (.ok none), d', rfl, le_of_eq hused, rfl, _, rfl, ?_, hdeframe'⟩
          simpa [wireOf] using hholds
      · have hplain : ¬ r.intoPlainMessage.typ = .handshake := htyp
        cases pend with
        | some p =>
          -- a record between the parts of a handshake message
          rw [deframe_other_some htyp] at hres
          cases hres
          have hjoin : d.joiningHs.isSome = true := by
            cases h with
            | joining herr hused hjoin => rw [hjoin]; rfl
          have hnone : ¬ (r.typ = .changeCipherSpec ∧ d.joiningHs.isNone = true) := by
            rw [Option.isNone_eq_false_iff.mpr hjoin]; simp
          simp only [if_neg hnone, guard, ↓reduceIte, Option.pure_def, Option.bind_some, hjoin,
            hplain, ne_eq, not_false_eq_true, and_self]
          exact ⟨_, _, rfl, le_rfl, rfl, rfl⟩
        | none =>
          rw [deframe_other_none htyp] at hres
          cases hrest : deframe none rs with
          | none => rw [hrest] at hres; cases hres
          | some q =>
            obtain ⟨out', fin'⟩ := q
            rw [hrest] at hres
            cases hres
            cases h with
            | idle herr hused hjoin hunread =>
              have hstart0 : d.start = 0 := by simp [MessageDeframer.start, hjoin]
              have hlen : r.encode.length ≤ d.used := by
                have := congrArg List.length hun
                rw [length_slice hu, List.length_append] at this
                omega
              obtain ⟨d', hd', hholds, hle⟩ := discard_holds herr hused hjoin hlen
              have hafter : slice d.buf r.encode.length d.used = wireOf rs ++ tail := by
                rw [← Nat.zero_add r.encode.length, ← drop_slice, hunread, List.drop_left]
              rw [hafter] at hholds
              rw [hstart0, Nat.zero_add]
              have hspec : LoopSpec tail
                  (deframed r.intoPlainMessage :: out') fin d'
                  (.ret (.ok (some (deframed r.intoPlainMessage)))) :=
                ⟨out', none, rs, rfl, hholds, hreadRs, hrest⟩
              -- a ChangeCipherSpec is returned before decryption, others after
              by_cases hccs : r.typ = .changeCipherSpec
              · simp only [hjoin, Option.isNone_none, and_true, if_pos hccs, hd',
                  Option.bind_some]
                exact ⟨_, _, rfl, hle, hspec⟩
              · simp only [hjoin, Option.isNone_none, and_true, if_neg hccs, guard, ↓reduceIte,
                  Option.pure_def, Option.bind_some, Option.isSome_none, Bool.false_eq_true,
                  hplain, ne_eq, not_false_eq_true, hd']
                exact ⟨_, _, rfl, hle, hspec⟩

/-- Every record takes bytes. -/
theorem length_le_wireOf (rs : List OpaqueMessage) : rs.length ≤ (wireOf rs).length := by
  induction rs with
  | nil => exact Nat.zero_le _
  | cons r rs ih =>
    have hr := r.length_encode
    simp only [OpaqueMessage.HEADER_SIZE] at hr
    rw [wireOf_cons, List.length_append, List.length_cons]
    omega

/-- **Pop.** One `pop` returns the next message, or nothing where nothing is
    complete, or the error of a record that interrupts a handshake message. -/
theorem pop_holds (hrl : rl.decryptState ≠ .active) {tail : Bytes} (htail : Short tail)
    (h : Holds d pend (wireOf rs ++ tail)) (hread : Readable rs)
    (hres : resume pend rs = some (out, fin)) :
    ∃ result d', d.pop rl = some (result, d', rl) ∧ d'.used ≤ d.used ∧
      PopSpec tail out fin d' result := by
  have hlen := h.length_le
  rw [List.length_append] at hlen
  have hcount := length_le_wireOf rs
  unfold MessageDeframer.pop
  rw [h.lastError]
  by_cases hzero : d.used = 0
  · -- the buffer is empty: nothing is joined, no record is unread
    have hrs : rs = [] := List.eq_nil_of_length_eq_zero (by omega)
    have htl : tail = [] := List.eq_nil_of_length_eq_zero (by omega)
    have hpend : pend = none := Pending.eq_none (by omega) h.ne_nil
    subst hrs htl hpend
    cases hres
    simp only [if_pos hzero]
    exact ⟨_, _, rfl, le_rfl, rfl, none, rfl, by simpa [wireOf] using h, fun _ => rfl⟩
  · obtain ⟨stop, d', hloop, hle, hspec⟩ :=
      popLoop_holds hrl htail rs (d.used + 1) d pend (by omega) h hread hres
    simp only [if_neg hzero, hloop, Option.bind_eq_bind, Option.bind_some, Option.pure_def]
    cases stop with
    | ret result => exact ⟨result, d', rfl, hle, hspec⟩
    | complete n =>
      obtain ⟨pend', rs', hholds, hread', ⟨v, b, rfl, hn, hnb⟩, hres'⟩ := hspec
      obtain ⟨out', rfl, hres'', hfits⟩ := resume_front hn hnb hres'
      obtain ⟨d'', htake, hholds', hle', -⟩ := takeComplete_holds hholds hnb hfits
      simp only [htake, Option.bind_some]
      exact ⟨_, d'', rfl, by omega, out', afterFront v b n, rs', rfl, hholds', hread', hres''⟩

end TeaclaveCrates.Rustls
