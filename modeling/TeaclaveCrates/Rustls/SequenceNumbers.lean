import TeaclaveCrates.Rustls.CommonState

namespace TeaclaveCrates.Rustls

open TeaclaveCrates.Lib

/-!
# rustls — sending near the end of the sequence numbers

`send_single_fragment` and `send_msg` with an active encrypter, at any sequence number: when the
next number is the soft limit, the close_notify that is to be sent first is sent by the same
function, which finds the same number.

* `CommonState.sendAll` — a run of fragments and messages;
* `expected` — the records that should be queued, with the numbers they take;
* `CommonState.SendsWell` — the run ends, and queues these;
* `CommonState.sendSingleFragment_soft` — sending does not end at the soft limit;
* `CommonState.sendsWell_iff` — where it does.
-/

/-- What is handed to the sending half. -/
inductive Outgoing
  /-- `send_single_fragment`. -/
  | fragment (m : PlainMessage)
  /-- `send_msg`, which the alerts go through as well. -/
  | message (m : PlainMessage) (mustEncrypt : Bool)
deriving DecidableEq, Repr

/-- The close_notify alert. -/
def closeNotify : PlainMessage := buildAlert .warning .closeNotify

/-- The records that should be queued for the fragments, each with the number it is encrypted with
    if it is: a close_notify before the soft limit is passed, and nothing from the hard limit on. -/
def expected (seq : Nat) : List (PlainMessage × Bool) → List (PlainMessage × Option Nat)
  | [] => []
  | (m, false) :: ps => (m, none) :: expected seq ps
  | (m, true) :: ps =>
    if SEQ_HARD_LIMIT ≤ seq then
      expected seq ps
    else if seq = SEQ_SOFT_LIMIT then
      (closeNotify, some seq) :: (m, some (seq + 1)) :: expected (seq + 2) ps
    else
      (m, some seq) :: expected (seq + 1) ps

/-- The numbers that are used. -/
def numbers (records : List (PlainMessage × Option Nat)) : List Nat := records.filterMap Prod.snd

/-- A record on the wire, with an encrypter. -/
def wireRecord (enc : PlainMessage → Nat → OpaqueMessage) : PlainMessage × Option Nat → Bytes
  | (m, none) => (⟨m.typ, m.version, m.payload⟩ : OpaqueMessage).encode
  | (m, some seq) => (enc m seq).encode

namespace CommonState

variable {c : CommonState} {enc : PlainMessage → Nat → OpaqueMessage}

/-! ### A run -/

/-- Sending a fragment or a message, on a stack of the given depth. -/
def sendOut (depth : Nat) (c : CommonState) : Outgoing → Option CommonState
  | .fragment m => c.sendSingleFragment depth m
  | .message m mustEncrypt => sendMsgWith (sendSingleFragment depth) c m mustEncrypt

/-- A run of them. -/
def sendAll (depth : Nat) (c : CommonState) (os : List Outgoing) : Option CommonState :=
  os.foldlM (sendOut depth) c

/-- The fragments of what is sent, and whether they are to be encrypted. -/
def pieces (c : CommonState) : Outgoing → List (PlainMessage × Bool)
  | .fragment m => [(m, true)]
  | .message m mustEncrypt => (c.fragmentMessage m).map (·, mustEncrypt)

/-- Sending one fragment, encrypted or not. -/
def sendPiece (depth : Nat) (c : CommonState) (p : PlainMessage × Bool) : Option CommonState :=
  if p.2 then
    c.sendSingleFragment depth p.1
  else
    some (c.queueTlsMessage ⟨p.1.typ, p.1.version, p.1.payload⟩)

/-- The run ends, on a stack that is deep enough, and queues the expected records: each number is
    used once, and is below the hard limit. -/
def SendsWell (enc : PlainMessage → Nat → OpaqueMessage) (c : CommonState) (os : List Outgoing) :
    Prop :=
  let records := expected c.recordLayer.writeSeq (os.flatMap c.pieces)
  ∃ depth c', c.sendAll (depth + 1) os = some c' ∧
    c'.sendableTls.bytes = c.sendableTls.bytes ++ records.flatMap (wireRecord enc) ∧
    c'.recordLayer.writeSeq = c.recordLayer.writeSeq + (numbers records).length ∧
    (numbers records).Nodup ∧ ∀ seq ∈ numbers records, seq < SEQ_HARD_LIMIT

/-- How many fragments are to be encrypted. -/
def encryptedCount (c : CommonState) (os : List Outgoing) : Nat :=
  ((os.flatMap c.pieces).filter Prod.snd).length

/-- Some fragment to be encrypted comes to the soft limit. -/
def ReachesSoftLimit (c : CommonState) (os : List Outgoing) : Prop :=
  c.recordLayer.writeSeq ≤ SEQ_SOFT_LIMIT ∧
    SEQ_SOFT_LIMIT < c.recordLayer.writeSeq + c.encryptedCount os

/-! ### One fragment -/

/-- An encrypter that is in use, and encrypts. -/
structure Encrypts (enc : PlainMessage → Nat → OpaqueMessage) (c : CommonState) : Prop where
  active : c.recordLayer.encryptState = .active
  encrypt : ∀ m seq, c.recordLayer.messageEncrypter m seq = .ok (enc m seq)

/-- Queueing a fragment, encrypted if it is to be and a number is left. -/
def queuePiece (enc : PlainMessage → Nat → OpaqueMessage) (c : CommonState)
    (p : PlainMessage × Bool) : CommonState :=
  if p.2 then
    if SEQ_HARD_LIMIT ≤ c.recordLayer.writeSeq then
      c
    else
      { c with
        recordLayer := { c.recordLayer with writeSeq := c.recordLayer.writeSeq + 1 }
        sendableTls := c.sendableTls.append (enc p.1 c.recordLayer.writeSeq).encode }
  else
    c.queueTlsMessage ⟨p.1.typ, p.1.version, p.1.payload⟩

theorem Encrypts.queuePiece (h : Encrypts enc c) (p : PlainMessage × Bool) :
    Encrypts enc (c.queuePiece enc p) := by
  unfold CommonState.queuePiece
  split
  · split
    · exact h
    · exact ⟨h.active, h.encrypt⟩
  · exact ⟨h.active, h.encrypt⟩

theorem sendPiece_eq_queuePiece (h : Encrypts enc c) (depth : Nat) (p : PlainMessage × Bool)
    (hseq : p.2 = true → c.recordLayer.writeSeq ≠ SEQ_SOFT_LIMIT) :
    c.sendPiece (depth + 1) p = some (c.queuePiece enc p) := by
  obtain ⟨m, encrypted⟩ := p
  cases encrypted with
  | false => rfl
  | true =>
    have hwants : c.recordLayer.wantsCloseBeforeEncrypt = false := decide_eq_false (hseq rfl)
    rw [sendPiece, if_pos rfl, sendSingleFragment, hwants]
    by_cases hhard : SEQ_HARD_LIMIT ≤ c.recordLayer.writeSeq
    · simp [RecordLayer.encryptExhausted, CommonState.queuePiece, hhard]
    · simp [RecordLayer.encryptExhausted, RecordLayer.encryptOutgoing, CommonState.queuePiece,
        hhard,
        Nat.lt_of_not_le hhard, h.active, h.encrypt, queueTlsMessage]

/-- **At the soft limit** sending does not end, on a stack of any depth: the close_notify is sent
    before the number moves on. -/
theorem sendSingleFragment_soft (hactive : c.recordLayer.encryptState = .active)
    (hseq : c.recordLayer.writeSeq = SEQ_SOFT_LIMIT) (depth : Nat) (m : PlainMessage) :
    c.sendSingleFragment depth m = none := by
  induction depth generalizing m with
  | zero => rfl
  | succ depth ih =>
    have hwants : c.recordLayer.wantsCloseBeforeEncrypt = true := decide_eq_true hseq
    have hencrypting : c.recordLayer.isEncrypting = true := decide_eq_true hactive
    have halert : sendMsgWith (sendSingleFragment depth) c (buildAlert .warning .closeNotify) true =
        none := by
      -- its first fragment
      obtain ⟨f, fs,
        hfs⟩ : ∃ f fs, c.fragmentMessage (buildAlert .warning .closeNotify) = f :: fs :=
        ⟨_, _, rfl⟩
      simp [sendMsgWith, hfs, ih]
    rw [sendSingleFragment, hwants, hencrypting]
    simp [halert]

/-! ### The run, fragment by fragment -/

theorem foldl_queueTlsMessage (ms : List PlainMessage) (depth : Nat) (c : CommonState) :
    some (ms.foldl (fun c m => c.queueTlsMessage ⟨m.typ, m.version, m.payload⟩) c) =
      (ms.map (·, false)).foldlM (sendPiece depth) c := by
  induction ms generalizing c with
  | nil => rfl
  | cons m ms ih =>
    simp only [List.foldl_cons, List.map_cons, List.foldlM_cons, ih]
    rfl

theorem sendOut_eq (depth : Nat) (c : CommonState) (o : Outgoing) :
    c.sendOut depth o = (c.pieces o).foldlM (sendPiece depth) c := by
  cases o with
  | fragment m => simp [sendOut, pieces, sendPiece]
  | message m mustEncrypt =>
    cases mustEncrypt with
    | false => exact foldl_queueTlsMessage _ depth c
    | true => simp [sendOut, pieces, sendMsgWith, List.foldlM_map, sendPiece]

/-- Sending does not change how messages are cut. -/
theorem sendPiece_pieces {depth : Nat} {p : PlainMessage × Bool} {c' : CommonState}
    (h : Encrypts enc c) (hrun : c.sendPiece depth p = some c') :
    Encrypts enc c' ∧ c'.pieces = c.pieces := by
  cases depth with
  | zero =>
    obtain ⟨m, encrypted⟩ := p
    cases encrypted with
    | false =>
      cases hrun
      exact ⟨⟨h.active, h.encrypt⟩, rfl⟩
    | true => cases hrun
  | succ depth =>
    by_cases hsoft : p.2 = true ∧ c.recordLayer.writeSeq = SEQ_SOFT_LIMIT
    · rw [sendPiece, if_pos hsoft.1, sendSingleFragment_soft h.active hsoft.2] at hrun
      cases hrun
    · rw [sendPiece_eq_queuePiece h depth p fun hp hseq => hsoft ⟨hp, hseq⟩] at hrun
      cases hrun
      refine ⟨h.queuePiece p, ?_⟩
      unfold CommonState.queuePiece
      split
      · split <;> rfl
      · rfl

theorem foldlM_sendPiece_pieces {depth : Nat} {ps : List (PlainMessage × Bool)} {c' : CommonState}
    (h : Encrypts enc c) (hrun : ps.foldlM (sendPiece depth) c = some c') :
    Encrypts enc c' ∧ c'.pieces = c.pieces := by
  induction ps generalizing c with
  | nil =>
    cases hrun
    exact ⟨h, rfl⟩
  | cons p ps ih =>
    rw [List.foldlM_cons] at hrun
    obtain ⟨c₁, hp, hps⟩ := Option.bind_eq_some_iff.mp hrun
    obtain ⟨h₁, hpieces⟩ := sendPiece_pieces h hp
    obtain ⟨h', hrest⟩ := ih h₁ hps
    exact ⟨h', hrest.trans hpieces⟩

theorem sendAll_eq (h : Encrypts enc c) (depth : Nat) (os : List Outgoing) :
    c.sendAll depth os = (os.flatMap c.pieces).foldlM (sendPiece depth) c := by
  induction os generalizing c with
  | nil => rfl
  | cons o os ih =>
    rw [sendAll, List.foldlM_cons, List.flatMap_cons, List.foldlM_append, sendOut_eq]
    cases hrun : (c.pieces o).foldlM (sendPiece depth) c with
    | none => rfl
    | some c₁ =>
      obtain ⟨h₁, hpieces⟩ := foldlM_sendPiece_pieces h hrun
      exact (ih h₁).trans (by rw [hpieces]; rfl)

/-- Fragments one after the other: they are queued, or some fragment comes to the soft limit. -/
theorem foldlM_sendPiece (depth : Nat) (ps : List (PlainMessage × Bool)) (h : Encrypts enc c) :
    ps.foldlM (sendPiece (depth + 1)) c =
      if c.recordLayer.writeSeq ≤ SEQ_SOFT_LIMIT ∧
          SEQ_SOFT_LIMIT < c.recordLayer.writeSeq + (ps.filter Prod.snd).length then
        none
      else
        some (ps.foldl (CommonState.queuePiece enc) c) := by
  have hlimits : SEQ_SOFT_LIMIT < SEQ_HARD_LIMIT := by decide
  induction ps generalizing c with
  | nil =>
    rw [if_neg (by simp only [List.filter_nil, List.length_nil]; omega)]
    rfl
  | cons p ps ih =>
    rw [List.foldlM_cons, List.foldl_cons]
    obtain ⟨m, encrypted⟩ := p
    cases encrypted with
    | false =>
      rw [sendPiece_eq_queuePiece h depth (m, false) fun hp => nomatch hp]
      exact ih (h.queuePiece (m, false))
    | true =>
      rw [List.filter_cons_of_pos rfl, List.length_cons]
      by_cases hseq : c.recordLayer.writeSeq = SEQ_SOFT_LIMIT
      · rw [sendPiece, if_pos rfl, sendSingleFragment_soft h.active hseq, if_pos (by omega)]
        rfl
      · rw [sendPiece_eq_queuePiece h depth _ fun _ => hseq]
        refine (ih (h.queuePiece (m, true))).trans ?_
        -- the number moves on, or no number is left
        have hnumber : (c.queuePiece enc (m, true)).recordLayer.writeSeq =
            if SEQ_HARD_LIMIT ≤ c.recordLayer.writeSeq then c.recordLayer.writeSeq
            else c.recordLayer.writeSeq + 1 := by
          rw [CommonState.queuePiece, if_pos rfl]
          split <;> rfl
        rw [hnumber]
        refine if_congr ?_ rfl rfl
        split <;> omega

/-- What is queued, and the number behind it. -/
theorem foldl_queuePiece (enc : PlainMessage → Nat → OpaqueMessage)
    (ps : List (PlainMessage × Bool)) (c : CommonState)
    (hsoft : ¬(c.recordLayer.writeSeq ≤ SEQ_SOFT_LIMIT ∧
      SEQ_SOFT_LIMIT < c.recordLayer.writeSeq + (ps.filter Prod.snd).length)) :
    let records := expected c.recordLayer.writeSeq ps
    let c' := ps.foldl (CommonState.queuePiece enc) c
    c'.sendableTls.bytes = c.sendableTls.bytes ++ records.flatMap (wireRecord enc) ∧
      c'.recordLayer.writeSeq = c.recordLayer.writeSeq + (numbers records).length := by
  induction ps generalizing c with
  | nil => simp [expected, numbers]
  | cons p ps ih =>
    obtain ⟨m, encrypted⟩ := p
    cases encrypted with
    | false =>
      have hrest := ih (c.queuePiece enc (m, false)) hsoft
      simpa [expected, numbers, CommonState.queuePiece, queueTlsMessage, wireRecord] using hrest
    | true =>
      rw [List.filter_cons_of_pos rfl, List.length_cons] at hsoft
      by_cases hhard : SEQ_HARD_LIMIT ≤ c.recordLayer.writeSeq
      · have hc : c.queuePiece enc (m, true) = c := by simp [CommonState.queuePiece, hhard]
        have hrest := ih c (by omega)
        simpa [expected, hhard, hc] using hrest
      · have hc : c.queuePiece enc (m, true) = { c with
            recordLayer := { c.recordLayer with writeSeq := c.recordLayer.writeSeq + 1 }
            sendableTls := c.sendableTls.append (enc m c.recordLayer.writeSeq).encode } := by
          simp [CommonState.queuePiece, hhard]
        have hne : c.recordLayer.writeSeq ≠ SEQ_SOFT_LIMIT := by omega
        have hrest := ih (c.queuePiece enc (m, true)) (by rw [hc]; dsimp only; omega)
        rw [hc] at hrest
        have hrest' := hrest
        simp only [ChunkVecBuffer.bytes_append, List.append_assoc] at hrest'
        simp only [List.foldl_cons, hc, expected, if_neg hhard, if_neg hne, numbers,
          List.flatMap_cons, wireRecord, List.filterMap_cons, List.length_cons]
        refine ⟨hrest'.1, hrest'.2.trans ?_⟩
        rw [numbers]
        omega

/-- The numbers go up. -/
theorem numbers_expected (seq : Nat) (ps : List (PlainMessage × Bool)) :
    (numbers (expected seq ps)).Pairwise (· < ·) ∧
      ∀ n ∈ numbers (expected seq ps), seq ≤ n ∧ n < SEQ_HARD_LIMIT := by
  induction ps generalizing seq with
  | nil => simp [expected, numbers]
  | cons p ps ih =>
    obtain ⟨m, encrypted⟩ := p
    cases encrypted with
    | false => exact ih seq
    | true =>
      rw [expected]
      split
      · exact ih seq
      · next hhard =>
        split
        · next hsoft =>
          obtain ⟨hsorted, hmem⟩ := ih (seq + 2)
          have hlimits : SEQ_SOFT_LIMIT + 1 < SEQ_HARD_LIMIT := by decide
          refine ⟨.cons ?_ (.cons (fun n hn => ?_) hsorted), ?_⟩
          · rintro n (_ | ⟨_, hn⟩)
            · omega
            · have := hmem n hn
              omega
          · have := hmem n hn
            omega
          · rintro n (_ | ⟨_, _ | ⟨_, hn⟩⟩)
            · omega
            · omega
            · have := hmem n hn
              omega
        · obtain ⟨hsorted, hmem⟩ := ih (seq + 1)
          refine ⟨.cons (fun n hn => ?_) hsorted, ?_⟩
          · have := hmem n hn
            omega
          · rintro n (_ | ⟨_, hn⟩)
            · omega
            · have := hmem n hn
              omega

/-- **Sending with an encrypter in use**, any run of fragments and messages: it ends, with the
    records and the numbers it should have, if and only if no fragment comes to the soft limit. -/
theorem sendsWell_iff (h : Encrypts enc c) (os : List Outgoing) :
    SendsWell enc c os ↔ ¬c.ReachesSoftLimit os := by
  constructor
  · rintro ⟨depth, c', hrun, -⟩ hsoft
    rw [sendAll_eq h, (foldlM_sendPiece depth _ h).trans (if_pos hsoft)] at hrun
    cases hrun
  · intro hsoft
    obtain ⟨hbytes, hseq⟩ := foldl_queuePiece enc (os.flatMap c.pieces) c hsoft
    obtain ⟨hsorted, hbelow⟩ := numbers_expected c.recordLayer.writeSeq (os.flatMap c.pieces)
    refine ⟨0, _, ?_, hbytes, hseq, hsorted.imp Nat.ne_of_lt, fun n hn => (hbelow n hn).2⟩
    exact (sendAll_eq h 1 os).trans ((foldlM_sendPiece 0 _ h).trans (if_neg hsoft))

/-- An encrypter that only numbers the records. -/
def numberRecord (m : PlainMessage) (seq : Nat) : OpaqueMessage :=
  ⟨m.typ, m.version, ⟨m.payload.bytes ++ [UInt8.ofNat seq]⟩⟩

/-- A sender with this encrypter. -/
def numbering (seq : Nat) : CommonState :=
  { side := .client
    recordLayer :=
      { messageEncrypter := fun m seq => .ok (numberRecord m seq)
        messageDecrypter := fun _ _ => .error .decryptError
        writeSeq := seq, readSeq := 0, encryptState := .active, decryptState := .active
        trialDecryptionLen := none }
    alignedHandshake := true, maySendApplicationData := true, sentFatalAlert := false
    maxFrag := 16384, sendablePlaintext := ⟨[], none⟩, sendableTls := ⟨[], none⟩
    queuedKeyUpdateMessage := none }

theorem numbering_encrypts (seq : Nat) : Encrypts numberRecord (numbering seq) :=
  ⟨rfl, fun _ _ => rfl⟩

theorem sendsWell_iff_start :
    SendsWell numberRecord (numbering 0) [.fragment closeNotify] ↔
      ¬(numbering 0).ReachesSoftLimit [.fragment closeNotify] :=
  sendsWell_iff (numbering_encrypts 0) _

theorem soft_limit_overflows :
    ∃ (enc : PlainMessage → Nat → OpaqueMessage) (c : CommonState) (os : List Outgoing),
      Encrypts enc c ∧ c.recordLayer.writeSeq = SEQ_SOFT_LIMIT ∧
        (∀ depth, c.sendAll depth os = none) ∧ ¬SendsWell enc c os := by
  have hnone : ∀ depth, (numbering SEQ_SOFT_LIMIT).sendAll depth [.fragment closeNotify] = none := by
    intro depth
    simp [sendAll, sendOut, sendSingleFragment_soft (c := numbering SEQ_SOFT_LIMIT) rfl rfl]
  refine ⟨_, numbering SEQ_SOFT_LIMIT, [.fragment closeNotify], numbering_encrypts _, rfl, hnone,
    ?_⟩
  rintro ⟨depth, c', hrun, -⟩
  rw [hnone] at hrun
  cases hrun

end CommonState

end TeaclaveCrates.Rustls
