import TeaclaveCrates.Rustls.CommonState
import TeaclaveCrates.Rustls.Delivery

namespace TeaclaveCrates.Rustls

open TeaclaveCrates.Lib

/-!
# rustls — records in key order

Whether the peer can decrypt what a connection in the traffic state writes.

* `Protected` — records in key order: consecutive sequence numbers, and a new key
  right behind each KeyUpdate;
* `Peer` — who receives the records one by one and follows the KeyUpdates;
* `InKeyOrder` — what has been written and queued is in key order, carries the
  accepted data, and the peer has decrypted what has arrived;
* `run_inKeyOrder` — it holds after every run that sends no alert while a KeyUpdate
  message is parked;
* `not_inKeyOrder_closeNotify` — it fails after a run that does.
-/

variable {suite : Tls13CipherSuite}

/-! ### The peer -/

/-- A handshake message of type KeyUpdate. -/
def PlainMessage.isKeyUpdate (m : PlainMessage) : Bool :=
  m.typ = .handshake ∧ m.payload.bytes.head? = some (EnumU8.getU8 HandshakeType.keyUpdate)

/-- Records in key order, from a secret and a sequence number on: what they carry,
    and the secret and sequence number that come next. -/
inductive Protected (secret : suite.Prk) (seq : Nat) :
    List PlainMessage → List OpaqueMessage → suite.Prk → Nat → Prop
  | nil : Protected secret seq [] [] secret seq
  | record {ms : List PlainMessage} {rs : List OpaqueMessage} {s : suite.Prk} {n : Nat}
      {m : PlainMessage} {r : OpaqueMessage} (h : Protected secret seq ms rs s n)
      (hr : deriveEncrypter suite s m n = .ok r) (hm : m.isKeyUpdate = false) :
      Protected secret seq (ms ++ [m]) (rs ++ [r]) s (n + 1)
  | keyUpdate {ms : List PlainMessage} {rs : List OpaqueMessage} {s : suite.Prk} {n : Nat}
      {m : PlainMessage} {r : OpaqueMessage} (h : Protected secret seq ms rs s n)
      (hr : deriveEncrypter suite s m n = .ok r) (hm : m.isKeyUpdate = true) :
      Protected secret seq (ms ++ [m]) (rs ++ [r]) (suite.deriveNext s) 0

/-- The receiving end: the secret in use, its record layer, and what it has decrypted. -/
structure Peer (suite : Tls13CipherSuite) where
  secret : suite.Prk
  recordLayer : RecordLayer
  received : List PlainMessage

namespace Peer

/-- A peer that expects the record with number `seq` under `secret`. -/
def expecting (secret : suite.Prk) (seq : Nat) (received : List PlainMessage) : Peer suite where
  secret := secret
  recordLayer := { RecordLayer.new with
    messageDecrypter := deriveDecrypter suite secret, readSeq := seq, decryptState := .active }
  received := received

/-- Decrypts a record; a KeyUpdate changes the key. -/
def receive (p : Peer suite) (m : OpaqueMessage) : Except Error (Peer suite) :=
  match p.recordLayer.decryptIncoming m with
  | (.error err, _) => .error err
  | (.ok none, rl) => .ok { p with recordLayer := rl }
  | (.ok (some decrypted), rl) =>
    let received := p.received ++ [decrypted.plaintext]
    if decrypted.plaintext.isKeyUpdate then
      let secret := suite.deriveNext p.secret
      .ok ⟨secret, rl.setMessageDecrypter (deriveDecrypter suite secret), received⟩
    else
      .ok ⟨p.secret, rl, received⟩

/-- Decrypts records in order. -/
def receiveAll (p : Peer suite) (rs : List OpaqueMessage) : Except Error (Peer suite) :=
  rs.foldlM receive p

end Peer

/-- The records at the front of `b`, with fuel. -/
def readRecords : Nat → Bytes → List OpaqueMessage
  | 0, _ => []
  | fuel + 1, b =>
    match OpaqueMessage.read b with
    | .ok (m, rest) => m :: readRecords fuel rest
    | .error _ => []

/-- The records that are complete in `b`. -/
def recordsOf (b : Bytes) : List OpaqueMessage := readRecords b.length b

/-- The application data that messages carry. -/
def appData (ms : List PlainMessage) : Bytes :=
  ms.flatMap fun m => if m.typ = .applicationData then m.payload.bytes else []

/-- A message as the peer sees it. -/
def PlainMessage.received (m : PlainMessage) : PlainMessage := { m with version := .TLSv1_3 }

/-- Behind the bytes `before`, what has been written and queued is records in key
    order that carry the accepted data, and the peer, who starts with `secret` and
    `seq`, decrypts the records that have been written completely. -/
def InKeyOrder (before : Bytes) (secret : suite.Prk) (seq : Nat) (conn : Connection suite) : Prop :=
  ∃ ms rs s n, Protected secret seq ms rs s n ∧
    conn.written ++ conn.common.sendableTls.bytes = before ++ wireOf rs ∧
    appData ms = conn.accepted ∧
    ∃ k peer, recordsOf (conn.written.drop before.length) = rs.take k ∧
      (Peer.expecting secret seq []).receiveAll (rs.take k) = .ok peer ∧
      peer.received = (ms.take k).map PlainMessage.received

/-! ### Runs -/

namespace Connection

/-- The number of records an operation encrypts. -/
def records (conn : Connection suite) : Op → Nat
  | .sendSomePlaintext data =>
    let c := conn.common.perhapsWriteKeyUpdate
    (c.fragmentSlice .applicationData .TLSv1_2
      (data.take (c.acceptedLen data.length .yes))).length
  | .sendCloseNotify | .sendWarningAlert _ | .sendFatalAlert _ => 1
  | .keyUpdate aligned request =>
    match conn.state with
    | .error _ => 0
    | .ok _ =>
      if !aligned then 1
      else
        match request with
        | .updateNotRequested => 0
        | .updateRequested => if conn.common.queuedKeyUpdateMessage.isNone then 1 else 0
        | .unknown _ => 1
  | .writeTls _ => 0

/-- The number of records a run encrypts. -/
def totalRecords (conn : Connection suite) : List Op → Nat
  | [] => 0
  | op :: ops =>
    conn.records op +
      match conn.step op with
      | some conn' => conn'.totalRecords ops
      | none => 0

/-- The operations that send an alert. -/
def sendsAlert (conn : Connection suite) : Op → Bool
  | .sendSomePlaintext _ | .writeTls _ => false
  | .sendCloseNotify | .sendWarningAlert _ | .sendFatalAlert _ => true
  | .keyUpdate aligned request =>
    match conn.state with
    | .error _ => false
    | .ok _ =>
      !aligned ||
        match request with
        | .unknown _ => true
        | _ => false

/-- No alert is sent while a KeyUpdate message is parked. -/
def Quiet (conn : Connection suite) : List Op → Prop
  | [] => True
  | op :: ops =>
    (conn.sendsAlert op = true → conn.common.queuedKeyUpdateMessage = none) ∧
      match conn.step op with
      | some conn' => conn'.Quiet ops
      | none => True

instance decidableQuiet : (conn : Connection suite) → (ops : List Op) → Decidable (conn.Quiet ops)
  | _, [] => inferInstanceAs (Decidable True)
  | conn, op :: ops =>
    have : Decidable
        (match conn.step op with
        | some conn' => conn'.Quiet ops
        | none => True) :=
      match conn.step op with
      | some conn' => decidableQuiet conn' ops
      | none => inferInstanceAs (Decidable True)
    inferInstanceAs (Decidable
      ((conn.sendsAlert op = true → conn.common.queuedKeyUpdateMessage = none) ∧ _))

end Connection

/-! ### What the peer decrypts -/

/-- A fragment under a secret gives a record that is read back and decrypted. -/
theorem encrypt_fragment (hsuite : suite.Lawful) (secret : suite.Prk) {m : PlainMessage}
    (h : m.Fragment) (seq : Nat) :
    ∃ r, deriveEncrypter suite secret m seq = .ok r ∧ OpaqueMessage.read r.encode = .ok (r, []) ∧
      deriveDecrypter suite secret r seq = .ok m.received := by
  obtain ⟨payload, henc, hlen, hdec⟩ := decrypt_encrypt hsuite secret h seq
  exact ⟨_, henc, OpaqueMessage.read_encode (fun _ => rfl) rfl (.inl rfl) hlen, hdec⟩

namespace Protected

variable {secret : suite.Prk} {seq : Nat} {ms : List PlainMessage} {rs : List OpaqueMessage}
  {s : suite.Prk} {n : Nat}

theorem length_eq (h : Protected secret seq ms rs s n) : ms.length = rs.length := by
  induction h with
  | nil => rfl
  | record h hr hm ih => simp [ih]
  | keyUpdate h hr hm ih => simp [ih]

/-- Record by record: what holds of no record and is kept by one more holds of all in key order. -/
theorem snoc_induction {P : List PlainMessage → List OpaqueMessage → suite.Prk → Nat → Prop}
    (nil : P [] [] secret seq)
    (snoc : ∀ {ms rs s n m r}, Protected secret seq ms rs s n →
      deriveEncrypter suite s m n = .ok r → P ms rs s n → ∀ {s' n'},
      Protected secret seq (ms ++ [m]) (rs ++ [r]) s' n' →
      (s', n') = (if m.isKeyUpdate then (suite.deriveNext s, 0) else (s, n + 1)) →
      P (ms ++ [m]) (rs ++ [r]) s' n')
    (h : Protected secret seq ms rs s n) : P ms rs s n := by
  induction h with
  | nil => exact nil
  | record h hr hm ih => exact snoc h hr ih (.record h hr hm) (by simp [hm])
  | keyUpdate h hr hm ih => exact snoc h hr ih (.keyUpdate h hr hm) (by simp [hm])

/-- The first records are in key order too. -/
theorem take (h : Protected secret seq ms rs s n) (k : Nat) :
    ∃ s' n', Protected secret seq (ms.take k) (rs.take k) s' n' := by
  refine snoc_induction (P := fun ms rs _ _ =>
    ∃ s' n', Protected secret seq (ms.take k) (rs.take k) s' n') ⟨secret, seq, by simpa using nil⟩
    (fun {ms rs s n m r} h _ ih s' n' hsnoc _ => ?_) h
  have hlen := h.length_eq
  by_cases hle : rs.length < k
  · rw [List.take_of_length_le (by simp; omega), List.take_of_length_le (by simp; omega)]
    exact ⟨s', n', hsnoc⟩
  · rwa [List.take_append_of_le_length (by omega), List.take_append_of_le_length (by omega)]

theorem readable (hsuite : suite.Lawful) (h : Protected secret seq ms rs s n)
    (hms : ∀ m ∈ ms, m.Fragment) : Readable rs := by
  refine snoc_induction (P := fun ms rs _ _ => (∀ m ∈ ms, m.Fragment) → Readable rs)
    (fun _ r hr => absurd hr List.not_mem_nil)
    (fun {ms rs s n m r} _ hr ih _ _ _ _ hms r' hr' => ?_) h hms
  rcases List.mem_append.mp hr' with hr' | hr'
  · exact ih (fun m' hm' => hms m' (List.mem_append_left _ hm')) r' hr'
  · obtain ⟨r'', henc, hread, -⟩ := encrypt_fragment hsuite s (hms m (by simp)) n
    rw [henc] at hr
    cases hr
    rw [List.mem_singleton.mp hr']
    exact hread

end Protected

variable {r : OpaqueMessage} {m : PlainMessage}

/-- The peer decrypts the record it expects. -/
theorem receive_expected {s : suite.Prk} {n : Nat} {received : List PlainMessage}
    (hdec : deriveDecrypter suite s r n = .ok m.received) :
    (Peer.expecting s n received).receive r =
      .ok (if m.isKeyUpdate then Peer.expecting (suite.deriveNext s) 0 (received ++ [m.received])
        else Peer.expecting s (n + 1) (received ++ [m.received])) := by
  have hupdate : m.received.isKeyUpdate = m.isKeyUpdate := rfl
  simp only [Peer.receive, Peer.expecting, RecordLayer.decryptIncoming, ne_eq, not_true_eq_false,
    ↓reduceIte, hdec, hupdate]
  split <;> rfl

/-- **Peer.** Records in key order are decrypted one by one. -/
theorem receiveAll_protected (hsuite : suite.Lawful) {secret s : suite.Prk} {seq n : Nat}
    {ms : List PlainMessage} {rs : List OpaqueMessage} (h : Protected secret seq ms rs s n)
    (hms : ∀ m ∈ ms, m.Fragment) :
    (Peer.expecting secret seq []).receiveAll rs =
      .ok (Peer.expecting s n (ms.map PlainMessage.received)) := by
  refine h.snoc_induction (P := fun ms rs s n => (∀ m ∈ ms, m.Fragment) →
    (Peer.expecting secret seq []).receiveAll rs =
      .ok (Peer.expecting s n (ms.map PlainMessage.received))) (fun _ => rfl)
    (fun {ms rs s n m r} _ hr ih s' n' _ hnext hms => ?_) hms
  obtain ⟨r', henc, -, hdec⟩ := encrypt_fragment hsuite s (hms m (by simp)) n
  rw [henc] at hr
  cases hr
  have hrest := ih fun m' hm' => hms m' (List.mem_append_left _ hm')
  unfold Peer.receiveAll at hrest ⊢
  rw [List.foldlM_append, hrest, List.map_append]
  show (Peer.expecting s n _).receive r >>= _ = _
  cases hm : m.isKeyUpdate
  all_goals
    rw [hm] at hnext
    cases hnext
    simp [receive_expected hdec, hm]

theorem readRecords_eq {tail : Bytes} (htail : Short tail) (rs : List OpaqueMessage) :
    ∀ fuel, rs.length ≤ fuel → Readable rs → readRecords fuel (wireOf rs ++ tail) = rs := by
  obtain ⟨e, he, -⟩ := htail
  induction rs with
  | nil =>
    intro fuel _ _
    cases fuel with
    | zero => rfl
    | succ fuel =>
      simp [readRecords, wireOf, he]
  | cons r rs ih =>
    intro fuel hfuel hread
    rw [List.length_cons] at hfuel
    obtain ⟨fuel, rfl⟩ : ∃ k, fuel = k + 1 := ⟨fuel - 1, by omega⟩
    have hr := read_append (hread r (List.mem_cons_self ..)) (wireOf rs ++ tail)
    simp [wireOf_cons, readRecords, hr,
      ih fuel (by omega) fun r' hr' => hread r' (List.mem_cons_of_mem _ hr')]

/-- The records that are complete in a part of the wire are the first records. -/
theorem recordsOf_take {rs : List OpaqueMessage} (hread : Readable rs) {n : Nat}
    (hn : n ≤ (wireOf rs).length) : ∃ k, recordsOf ((wireOf rs).take n) = rs.take k := by
  obtain ⟨tail, htake, hshort, -⟩ := complete_spec rs n hread hn
  obtain ⟨later, hlater⟩ := complete_mono rs n (wireOf rs).length hn
  rw [complete_all] at hlater
  refine ⟨(complete n rs).length, ?_⟩
  have hcount := length_le_wireOf (complete n rs)
  rw [recordsOf, htake, readRecords_eq hshort _ _ (by rw [List.length_append]; omega)
    fun r hr => hread r (complete_subset rs n r hr)]
  have hfirst := @List.take_left _ (complete n rs) later
  rw [← hlater] at hfirst
  exact hfirst.symm

/-! ### Sending fragments -/

/-- The record layer encrypts with the secret `s`, next with the number `n`. -/
structure RecordLayer.Sends (rl : RecordLayer) (s : suite.Prk) (n : Nat) : Prop where
  encrypter : rl.messageEncrypter = deriveEncrypter suite s
  writeSeq : rl.writeSeq = n
  active : rl.encryptState = .active

theorem RecordLayer.Sends.encryptOutgoing {rl : RecordLayer} {s : suite.Prk} {n : Nat}
    (h : rl.Sends s n) (hn : n < SEQ_SOFT_LIMIT) (hr : deriveEncrypter suite s m n = .ok r) :
    rl.encryptOutgoing m = some (r, { rl with writeSeq := n + 1 }) := by
  have hexhausted : rl.encryptExhausted = false := by
    simp only [RecordLayer.encryptExhausted, h.writeSeq, decide_eq_false_iff_not, SEQ_HARD_LIMIT]
    simp only [SEQ_SOFT_LIMIT] at hn
    omega
  simp [RecordLayer.encryptOutgoing, h.active, hexhausted, h.encrypter, h.writeSeq, hr]

/-- One fragment below the limits: it is encrypted and queued. -/
theorem sendSingleFragment_eq {c : CommonState} {s : suite.Prk} {n : Nat}
    (h : c.recordLayer.Sends s n) (hn : n < SEQ_SOFT_LIMIT)
    (hr : deriveEncrypter suite s m n = .ok r) (depth : Nat) :
    c.sendSingleFragment (depth + 1) m =
      some { c with
        recordLayer := { c.recordLayer with writeSeq := n + 1 }
        sendableTls := c.sendableTls.append r.encode } := by
  have hclose : c.recordLayer.wantsCloseBeforeEncrypt = false := by
    simp only [RecordLayer.wantsCloseBeforeEncrypt, h.writeSeq, decide_eq_false_iff_not]
    omega
  have hexhausted : c.recordLayer.encryptExhausted = false := by
    simp only [RecordLayer.encryptExhausted, h.writeSeq, decide_eq_false_iff_not, SEQ_HARD_LIMIT]
    simp only [SEQ_SOFT_LIMIT] at hn
    omega
  simp [CommonState.sendSingleFragment, hclose, hexhausted, h.encryptOutgoing hn hr,
    CommonState.queueTlsMessage]

/-- **Fragments.** Fragments are encrypted with consecutive numbers and queued in
    order.  By induction on the fragments. -/
theorem sendFragments (hsuite : suite.Lawful) {secret s : suite.Prk} {seq : Nat}
    (fs : List PlainMessage) :
    ∀ (c : CommonState) (n : Nat) (ms : List PlainMessage) (rs : List OpaqueMessage),
      c.recordLayer.Sends s n → n + fs.length ≤ SEQ_SOFT_LIMIT →
      (∀ m ∈ fs, m.Fragment ∧ m.isKeyUpdate = false) → Protected secret seq ms rs s n →
      ∃ rs' buf, fs.foldlM (CommonState.sendSingleFragment CommonState.STACK_DEPTH) c =
          some { c with
            recordLayer := { c.recordLayer with writeSeq := n + fs.length }
            sendableTls := buf } ∧
        buf.bytes = c.sendableTls.bytes ++ wireOf rs' ∧
        Protected secret seq (ms ++ fs) (rs ++ rs') s (n + fs.length) := by
  induction fs with
  | nil =>
    intro c n ms rs hsends _ _ hprot
    refine ⟨[], c.sendableTls, ?_, by simp [wireOf], by simpa using hprot⟩
    rw [List.foldlM_nil, List.length_nil, Nat.add_zero, ← hsends.writeSeq]
    rfl
  | cons m fs ih =>
    intro c n ms rs hsends hn hfs hprot
    rw [List.length_cons] at hn ⊢
    obtain ⟨hfragment, hplain⟩ := hfs m (List.mem_cons_self ..)
    obtain ⟨r, hr, -, -⟩ := encrypt_fragment hsuite s hfragment n
    have hstep := sendSingleFragment_eq hsends (by omega) hr 999
    obtain ⟨rs', buf, hfold, hbuf, hprot'⟩ :=
      ih { c with
          recordLayer := { c.recordLayer with writeSeq := n + 1 }
          sendableTls := c.sendableTls.append r.encode } (n + 1) (ms ++ [m]) (rs ++ [r])
        ⟨hsends.encrypter, rfl, hsends.active⟩ (by omega)
        (fun m' hm' => hfs m' (List.mem_cons_of_mem _ hm')) (.record hprot hr hplain)
    refine ⟨r :: rs', buf, ?_, ?_, ?_⟩
    · show (c.sendSingleFragment (999 + 1) m).bind _ = _
      simp [hstep, hfold, show n + 1 + fs.length = n + (fs.length + 1) by omega]
    · rw [hbuf, ChunkVecBuffer.bytes_append, wireOf_cons, List.append_assoc]
    · rw [List.append_assoc, List.append_assoc, List.singleton_append,
        show n + 1 + fs.length = n + (fs.length + 1) by omega] at hprot'
      exact hprot'

/-! ### The invariant -/

namespace Connection

/-- The connection encrypts with `s` and `n`, and its key schedule agrees. -/
def SendsWith (conn : Connection suite) (s : suite.Prk) (n : Nat) : Prop :=
  conn.common.recordLayer.Sends s n ∧ ∀ ks, conn.state = .ok ks → ks.current conn.common.side = s

/-- Where the records on the wire have come to, against the keys in use: a parked
    KeyUpdate message is the next record of the old key. -/
def Position (conn : Connection suite) (s : suite.Prk) (n : Nat) : Prop :=
  match conn.common.queuedKeyUpdateMessage with
  | none => conn.SendsWith s n
  | some message => ∃ r, deriveEncrypter suite s buildKeyUpdateNotify n = .ok r ∧
      message = r.encode ∧ conn.SendsWith (suite.deriveNext s) 0

end Connection

/-- The invariant of a run. -/
structure Ordered (before : Bytes) (secret : suite.Prk) (seq : Nat) (conn : Connection suite)
    (ms : List PlainMessage) (rs : List OpaqueMessage) (s : suite.Prk) (n : Nat) : Prop where
  inOrder : Protected secret seq ms rs s n
  fragments : ∀ m ∈ ms, m.Fragment
  wire : conn.written ++ conn.common.sendableTls.bytes = before ++ wireOf rs
  data : appData ms = conn.accepted
  ready : conn.common.maySendApplicationData = true
  maxFrag : 2 ≤ conn.common.maxFrag ∧ conn.common.maxFrag ≤ MAX_FRAGMENT_LEN
  position : conn.Position s n

theorem fragment_buildAlert (level : AlertLevel) (desc : AlertDescription) :
    (buildAlert level desc).Fragment ∧ (buildAlert level desc).isKeyUpdate = false := by
  refine ⟨⟨?_, .inr (.inl rfl)⟩, rfl⟩
  show (Codec.encode level ++ Codec.encode desc).length ≤ MAX_FRAGMENT_LEN
  rw [List.length_append, length_encode_enumU8, length_encode_enumU8]
  decide

theorem fragment_buildKeyUpdateNotify :
    buildKeyUpdateNotify.Fragment ∧ buildKeyUpdateNotify.isKeyUpdate = true :=
  ⟨⟨by decide, .inr (.inr rfl)⟩, by decide⟩

theorem appData_append (ms ms' : List PlainMessage) :
    appData (ms ++ ms') = appData ms ++ appData ms' :=
  List.flatMap_append

section Steps

variable {before : Bytes} {secret s : suite.Prk} {seq n : Nat} {conn : Connection suite}
  {ms : List PlainMessage} {rs : List OpaqueMessage}

theorem Ordered.sendsWith (h : Ordered before secret seq conn ms rs s n)
    (hqueued : conn.common.queuedKeyUpdateMessage = none) : conn.SendsWith s n := by
  have hpos := h.position
  rw [Connection.Position, hqueued] at hpos
  exact hpos

/-- Sending fragments with no KeyUpdate parked keeps the invariant. -/
theorem Ordered.send (hsuite : suite.Lawful) (h : Ordered before secret seq conn ms rs s n)
    (hqueued : conn.common.queuedKeyUpdateMessage = none) (fs : List PlainMessage)
    (hfs : ∀ m ∈ fs, m.Fragment ∧ m.isKeyUpdate = false) (hn : n + fs.length ≤ SEQ_SOFT_LIMIT) :
    ∃ rs' c, fs.foldlM (CommonState.sendSingleFragment CommonState.STACK_DEPTH) conn.common =
        some c ∧
      c.recordLayer.writeSeq = n + fs.length ∧
      Ordered before secret seq { conn with common := c, accepted := conn.accepted ++ appData fs }
        (ms ++ fs) (rs ++ rs') s (n + fs.length) := by
  obtain ⟨hsends, hks⟩ := h.sendsWith hqueued
  obtain ⟨rs', buf, hfold, hbuf, hprot⟩ := sendFragments hsuite fs conn.common n ms rs hsends hn hfs
    h.inOrder
  refine ⟨rs', _, hfold, rfl, ⟨hprot, ?_, ?_, ?_, h.ready, h.maxFrag, ?_⟩⟩
  · intro m hm
    rcases List.mem_append.mp hm with hm | hm
    · exact h.fragments m hm
    · exact (hfs m hm).1
  · rw [hbuf, wireOf_append, ← List.append_assoc, h.wire, List.append_assoc]
  · rw [appData_append, h.data]
  · simp only [Connection.Position, hqueued]
    exact ⟨⟨hsends.encrypter, rfl, hsends.active⟩, hks⟩

/-- An alert with no KeyUpdate parked keeps the invariant. -/
theorem Ordered.sendAlert (hsuite : suite.Lawful) (h : Ordered before secret seq conn ms rs s n)
    (hqueued : conn.common.queuedKeyUpdateMessage = none) (hn : n + 1 ≤ SEQ_SOFT_LIMIT)
    (level : AlertLevel) (desc : AlertDescription) :
    ∃ rs' c, conn.common.sendMsg (buildAlert level desc) conn.common.recordLayer.isEncrypting =
        some c ∧
      c.recordLayer.writeSeq = n + 1 ∧
      Ordered before secret seq { conn with common := c } (ms ++ [buildAlert level desc])
        (rs ++ rs') s (n + 1) := by
  have hactive := (h.sendsWith hqueued).1.active
  have hone : conn.common.fragmentMessage (buildAlert level desc) = [buildAlert level desc] := by
    have hchunks : chunks conn.common.maxFrag (Codec.encode level ++ Codec.encode desc) =
        [Codec.encode level ++ Codec.encode desc] := by
      have hlen : (Codec.encode level ++ Codec.encode desc).length = 2 := by
        simp [length_encode_enumU8]
      refine chunks_of_length_le ?_ (by exact h.maxFrag.1)
      rw [← List.length_pos_iff, hlen]
      decide
    simp [CommonState.fragmentMessage, CommonState.fragmentSlice, buildAlert, hchunks]
  obtain ⟨rs', c, hfold, hseq, hord⟩ := h.send hsuite hqueued [buildAlert level desc]
    (fun m hm => by rw [List.mem_singleton.mp hm]; exact fragment_buildAlert level desc) hn
  refine ⟨rs', c, ?_, hseq, ?_⟩
  · simp only [CommonState.sendMsg, CommonState.sendMsgWith, RecordLayer.isEncrypting, hactive,
      decide_true, Bool.not_true, Bool.false_eq_true, ↓reduceIte, hone]
    exact hfold
  · have hnone : appData [buildAlert level desc] = [] := rfl
    rw [hnone, List.append_nil] at hord
    exact hord

/-- Writing the parked KeyUpdate message puts the new key in force. -/
theorem Ordered.perhapsWriteKeyUpdate (h : Ordered before secret seq conn ms rs s n) :
    ∃ ms' rs' s' n', Ordered before secret seq
      { conn with common := conn.common.perhapsWriteKeyUpdate } ms' rs' s' n' ∧
      conn.common.perhapsWriteKeyUpdate.queuedKeyUpdateMessage = none := by
  unfold CommonState.perhapsWriteKeyUpdate
  cases hqueued : conn.common.queuedKeyUpdateMessage with
  | none => exact ⟨ms, rs, s, n, h, hqueued⟩
  | some message =>
    have hpos := h.position
    simp only [Connection.Position, hqueued] at hpos
    obtain ⟨r, hr, rfl, hsends⟩ := hpos
    obtain ⟨hfragment, hupdate⟩ := fragment_buildKeyUpdateNotify
    refine ⟨ms ++ [buildKeyUpdateNotify], rs ++ [r], suite.deriveNext s, 0,
      ⟨.keyUpdate h.inOrder hr hupdate, ?_, ?_, ?_, h.ready, h.maxFrag, hsends⟩, rfl⟩
    · intro m hm
      rcases List.mem_append.mp hm with hm | hm
      · exact h.fragments m hm
      · rw [List.mem_singleton.mp hm]
        exact hfragment
    · rw [ChunkVecBuffer.bytes_append, ← List.append_assoc, h.wire, wireOf_append,
        List.append_assoc]
      simp [wireOf]
    · rw [appData_append, h.data]
      exact List.append_nil _

/-! ### One operation -/

/-- What an operation must lead to: a connection in order that has used at most the
    given number of records. -/
def Advances (before : Bytes) (secret : suite.Prk) (seq : Nat) (conn : Connection suite)
    (count : Nat) (next : Option (Connection suite)) : Prop :=
  ∃ conn' ms' rs' s' n', next = some conn' ∧ Ordered before secret seq conn' ms' rs' s' n' ∧
    conn'.common.recordLayer.writeSeq ≤ conn.common.recordLayer.writeSeq + count

theorem appData_fragmentSlice {c : CommonState} (h : 0 < c.maxFrag) (x : Bytes) :
    appData (c.fragmentSlice .applicationData .TLSv1_2 x) = x := by
  conv_rhs => rw [← flatten_chunks h x]
  simp [appData, CommonState.fragmentSlice, List.flatMap_map]

theorem fragment_fragmentSlice {c : CommonState} (h : c.maxFrag ≤ MAX_FRAGMENT_LEN) (x : Bytes) :
    ∀ m ∈ c.fragmentSlice .applicationData .TLSv1_2 x, m.Fragment ∧ m.isKeyUpdate = false := by
  intro m hm
  obtain ⟨y, hy, rfl⟩ := List.mem_map.mp hm
  exact ⟨⟨(length_le_of_mem_chunks hy).trans h, .inl rfl⟩, rfl⟩

theorem recordLayer_perhapsWriteKeyUpdate (c : CommonState) :
    c.perhapsWriteKeyUpdate.recordLayer = c.recordLayer := by
  unfold CommonState.perhapsWriteKeyUpdate
  split <;> rfl

theorem Ordered.sendSomePlaintext (hsuite : suite.Lawful)
    (h : Ordered before secret seq conn ms rs s n) (data : Bytes)
    (hcount : conn.common.recordLayer.writeSeq + conn.records (.sendSomePlaintext data) < 2 ^ 48) :
    Advances before secret seq conn (conn.records (.sendSomePlaintext data))
      (conn.step (.sendSomePlaintext data)) := by
  obtain ⟨ms', rs', s', n', hflush, hqueued⟩ := h.perhapsWriteKeyUpdate
  have hseq := (hflush.sendsWith hqueued).1.writeSeq
  have hrl := recordLayer_perhapsWriteKeyUpdate conn.common
  have hready := hflush.ready
  unfold Advances
  simp only [Connection.step, CommonState.sendSomePlaintext, CommonState.sendPlain,
    Connection.records] at hcount hseq hready ⊢
  rw [← hrl] at hcount ⊢
  generalize conn.common.perhapsWriteKeyUpdate = c at *
  cases data with
  | nil =>
    refine ⟨{ conn with common := c }, ms', rs', s', n', ?_, hflush, Nat.le_add_right _ _⟩
    simp [hready]
  | cons b data =>
    -- the accepted part is cut into fragments
    let x := (b :: data).take (c.acceptedLen (b :: data).length .yes)
    let fs := c.fragmentSlice .applicationData .TLSv1_2 x
    obtain ⟨rs'', c', hfold, hseq', hord⟩ := hflush.send hsuite hqueued fs
      (fragment_fragmentSlice hflush.maxFrag.2 x)
      (by rw [← hseq, SEQ_SOFT_LIMIT]; simp only [fs, x]; omega)
    have hdata : appData fs = x :=
      appData_fragmentSlice (by have := hflush.maxFrag.1; simp only at this; omega) x
    rw [hdata] at hord
    refine ⟨_, _, _, _, _, ?_, hord, ?_⟩
    · simp only [hready, Bool.not_true, Bool.false_eq_true, ↓reduceIte, List.isEmpty_cons,
        CommonState.sendAppdataEncrypt, Option.bind_eq_bind, hfold, Option.bind_some,
        Option.pure_def, x, fs]
    · rw [hseq', hseq]

/-- An alert, followed by an update that touches neither the keys nor the buffers. -/
theorem Ordered.fatalAlert (hsuite : suite.Lawful) (h : Ordered before secret seq conn ms rs s n)
    (hqueued : conn.common.queuedKeyUpdateMessage = none)
    (hcount : conn.common.recordLayer.writeSeq + 1 < 2 ^ 48) (desc : AlertDescription) :
    ∃ c, conn.common.sendFatalAlert desc = some c ∧
      c.recordLayer.writeSeq ≤ conn.common.recordLayer.writeSeq + 1 ∧
      ∃ ms' rs' s' n', Ordered before secret seq { conn with common := c } ms' rs' s' n' := by
  have hseq := (h.sendsWith hqueued).1.writeSeq
  obtain ⟨rs', c, hsend, hseq', hord⟩ := h.sendAlert hsuite hqueued
    (by rw [← hseq, SEQ_SOFT_LIMIT]; omega) .fatal desc
  refine ⟨{ c with sentFatalAlert := true }, ?_, ?_, _, _, _, _,
    ⟨hord.inOrder, hord.fragments, hord.wire, hord.data, hord.ready, hord.maxFrag, hord.position⟩⟩
  · simp [CommonState.sendFatalAlert, hsend]
  · show c.recordLayer.writeSeq ≤ _
    omega

theorem Ordered.warningAlert (hsuite : suite.Lawful) (h : Ordered before secret seq conn ms rs s n)
    (hqueued : conn.common.queuedKeyUpdateMessage = none)
    (hcount : conn.common.recordLayer.writeSeq + 1 < 2 ^ 48) (desc : AlertDescription) :
    Advances before secret seq conn 1 (conn.step (.sendWarningAlert desc)) := by
  have hseq := (h.sendsWith hqueued).1.writeSeq
  obtain ⟨rs', c, hsend, hseq', hord⟩ := h.sendAlert hsuite hqueued
    (by rw [← hseq, SEQ_SOFT_LIMIT]; omega) .warning desc
  refine ⟨{ conn with common := c }, _, _, _, _, ?_, hord, ?_⟩
  · simp [Connection.step, CommonState.sendWarningAlert, hsend]
  · show c.recordLayer.writeSeq ≤ _
    omega

variable {ks : KeyScheduleTraffic suite}

/-- The connection behind `handle_key_update` once the sending side is done. -/
theorem Ordered.newDecrypter (h : Ordered before secret seq conn ms rs s n)
    (hks : conn.state = .ok ks) :
    Ordered before secret seq
      { conn with
        common := (updateDecrypter conn.common ks).1
        state := .ok (updateDecrypter conn.common ks).2 } ms rs s n := by
  refine ⟨h.inOrder, h.fragments, h.wire, h.data, h.ready, h.maxFrag, ?_⟩
  have hpos := h.position
  have hcurrent : ∀ s', ks.current conn.common.side = s' →
      ∀ ks', (.ok (updateDecrypter conn.common ks).2 :
        Except Error (KeyScheduleTraffic suite)) = .ok ks' →
      ks'.current conn.common.side = s' := by
    intro s' hs' ks' hks'
    cases hks'
    simpa [updateDecrypter] using hs'
  unfold Connection.Position at hpos ⊢
  show match conn.common.queuedKeyUpdateMessage with
    | none => _
    | some message => _
  cases hqueued : conn.common.queuedKeyUpdateMessage with
  | none =>
    rw [hqueued] at hpos
    exact ⟨⟨hpos.1.encrypter, hpos.1.writeSeq, hpos.1.active⟩, hcurrent _ (hpos.2 ks hks)⟩
  | some message =>
    rw [hqueued] at hpos
    obtain ⟨r, hr, hmessage, hsends⟩ := hpos
    exact ⟨r, hr, hmessage, ⟨hsends.1.encrypter, hsends.1.writeSeq, hsends.1.active⟩,
      hcurrent _ (hsends.2 ks hks)⟩

/-- Encrypting the KeyUpdate reply, parking it, and installing the next key. -/
theorem Ordered.newEncrypter (hsuite : suite.Lawful) (h : Ordered before secret seq conn ms rs s n)
    (hqueued : conn.common.queuedKeyUpdateMessage = none)
    (hcount : conn.common.recordLayer.writeSeq + 1 < 2 ^ 48) (hks : conn.state = .ok ks) :
    ∃ c ks', updateEncrypterAndNotify conn.common ks = some (c, ks') ∧
      c.recordLayer.writeSeq = 0 ∧
      Ordered before secret seq { conn with common := c, state := .ok ks' } ms rs s n := by
  obtain ⟨hsends, hcurrent⟩ := h.sendsWith hqueued
  have hs := hcurrent ks hks
  have hseq := hsends.writeSeq
  obtain ⟨r, hr, -, -⟩ := encrypt_fragment hsuite s fragment_buildKeyUpdateNotify.1 n
  have hout := hsends.encryptOutgoing (by rw [← hseq, SEQ_SOFT_LIMIT]; omega) hr
  let c : CommonState := { conn.common with
    recordLayer := { conn.common.recordLayer with
      messageEncrypter := deriveEncrypter suite (suite.deriveNext s)
      writeSeq := 0
      encryptState := .active }
    queuedKeyUpdateMessage := some r.encode }
  refine ⟨c, (ks.nextApplicationTrafficSecret conn.common.side).2, ?_, rfl,
    ⟨h.inOrder, h.fragments, h.wire, h.data, h.ready, h.maxFrag, r, hr, rfl,
      ⟨rfl, rfl, rfl⟩, ?_⟩⟩
  · simp [updateEncrypterAndNotify, CommonState.enqueueKeyUpdateNotification, hout, hs,
      RecordLayer.setMessageEncrypter, c]
  · intro ks' hks'
    cases hks'
    rw [KeyScheduleTraffic.next_current, hs]

/-- A connection that fails keeps its keys. -/
theorem Ordered.fail (h : Ordered before secret seq conn ms rs s n) (err : Error) :
    Ordered before secret seq { conn with state := .error err } ms rs s n := by
  refine ⟨h.inOrder, h.fragments, h.wire, h.data, h.ready, h.maxFrag, ?_⟩
  have hpos := h.position
  simp only [Connection.Position] at hpos ⊢
  cases hqueued : conn.common.queuedKeyUpdateMessage with
  | none =>
    rw [hqueued] at hpos
    exact ⟨hpos.1, fun ks hks => by cases hks⟩
  | some message =>
    rw [hqueued] at hpos
    obtain ⟨r, hr, hmessage, hsends⟩ := hpos
    exact ⟨r, hr, hmessage, hsends.1, fun ks hks => by cases hks⟩

/-- A received KeyUpdate keeps the invariant: where it makes the connection send an
    alert, nothing is parked. -/
theorem Ordered.keyUpdate (hsuite : suite.Lawful) (h : Ordered before secret seq conn ms rs s n)
    (aligned : Bool) (request : KeyUpdateRequest)
    (hquiet : conn.sendsAlert (.keyUpdate aligned request) = true →
      conn.common.queuedKeyUpdateMessage = none)
    (hcount : conn.common.recordLayer.writeSeq + conn.records (.keyUpdate aligned request) <
      2 ^ 48) :
    Advances before secret seq conn (conn.records (.keyUpdate aligned request))
      (conn.step (.keyUpdate aligned request)) := by
  simp only [Connection.step, Connection.receiveKeyUpdate]
  cases hstate : conn.state with
  | error err => exact ⟨conn, ms, rs, s, n, rfl, h, Nat.le_add_right _ _⟩
  | ok ks =>
    simp only [Connection.sendsAlert, Connection.records, hstate] at hquiet hcount ⊢
    -- the alignment is noted first
    let conn₀ : Connection suite :=
      { conn with common := { conn.common with alignedHandshake := aligned } }
    have h₀ : Ordered before secret seq conn₀ ms rs s n :=
      ⟨h.inOrder, h.fragments, h.wire, h.data, h.ready, h.maxFrag, h.position⟩
    cases aligned with
    | false =>
      obtain ⟨c, hfatal, hle, ms', rs', s', n', hord⟩ :=
        h₀.fatalAlert hsuite (hquiet rfl) hcount .unexpectedMessage
      refine ⟨_, ms', rs', s', n', ?_, hord.fail (.peerMisbehaved .keyEpochWithPendingFragment),
        hle⟩
      simp [handleKeyUpdate, CommonState.checkAlignedHandshake, hfatal, conn₀]
    | true =>
      cases request with
      | updateNotRequested =>
        refine ⟨_, ms, rs, s, n, ?_, h₀.newDecrypter hstate, Nat.le_add_right _ _⟩
        simp [handleKeyUpdate, CommonState.checkAlignedHandshake, CommonState.shouldUpdateKey,
          conn₀]
      | updateRequested =>
        cases hqueued : conn.common.queuedKeyUpdateMessage with
        | none =>
          simp only [hqueued, Bool.not_true, Bool.false_eq_true, ↓reduceIte,
            Option.isNone_none] at hcount
          obtain ⟨c, ks', hupdate, hzero, hord⟩ := h₀.newEncrypter hsuite hqueued hcount hstate
          refine ⟨_, ms, rs, s, n, ?_, hord.newDecrypter rfl, ?_⟩
          · simp only [conn₀, hqueued] at hupdate
            simp [handleKeyUpdate, CommonState.checkAlignedHandshake, CommonState.shouldUpdateKey,
              hupdate, conn₀]
          · show c.recordLayer.writeSeq ≤ _
            rw [hzero]
            exact Nat.zero_le _
        | some message =>
          refine ⟨_, ms, rs, s, n, ?_, h₀.newDecrypter hstate, Nat.le_add_right _ _⟩
          simp [handleKeyUpdate, CommonState.checkAlignedHandshake, CommonState.shouldUpdateKey,
            hqueued, conn₀]
      | unknown x =>
        obtain ⟨c, hfatal, hle, ms', rs', s', n', hord⟩ :=
          h₀.fatalAlert hsuite (hquiet rfl) hcount .illegalParameter
        refine ⟨_, ms', rs', s', n', ?_, hord.fail (.invalidMessage .invalidKeyUpdate), hle⟩
        simp [handleKeyUpdate, CommonState.checkAlignedHandshake, CommonState.shouldUpdateKey,
          hfatal, conn₀]

/-- **Step.** An operation that sends no alert while a KeyUpdate message is parked
    does not panic and keeps the invariant. -/
theorem Ordered.step (hsuite : suite.Lawful) (h : Ordered before secret seq conn ms rs s n)
    (op : Op) (hquiet : conn.sendsAlert op = true → conn.common.queuedKeyUpdateMessage = none)
    (hcount : conn.common.recordLayer.writeSeq + conn.records op < 2 ^ 48) :
    Advances before secret seq conn (conn.records op) (conn.step op) := by
  cases op with
  | sendSomePlaintext data => exact h.sendSomePlaintext hsuite data hcount
  | sendCloseNotify => exact h.warningAlert hsuite (hquiet rfl) hcount .closeNotify
  | sendWarningAlert desc => exact h.warningAlert hsuite (hquiet rfl) hcount desc
  | sendFatalAlert desc =>
    obtain ⟨c, hfatal, hle, ms', rs', s', n', hord⟩ := h.fatalAlert hsuite (hquiet rfl) hcount desc
    refine ⟨_, ms', rs', s', n', ?_, hord, hle⟩
    simp [Connection.step, hfatal]
  | keyUpdate aligned request => exact h.keyUpdate hsuite aligned request hquiet hcount
  | writeTls accepts =>
    refine ⟨_, ms, rs, s, n, rfl, ⟨h.inOrder, h.fragments, ?_, h.data, h.ready, h.maxFrag,
      h.position⟩, Nat.le_add_right _ _⟩
    show (conn.written ++ (conn.common.sendableTls.writeTo accepts).1) ++
      (conn.common.sendableTls.writeTo accepts).2.bytes = _
    rw [List.append_assoc, ChunkVecBuffer.writeTo_bytes, h.wire]

end Steps

/-! ### Whole runs -/

/-- What the invariant says to an outside observer. -/
theorem Ordered.inKeyOrder (hsuite : suite.Lawful) {before : Bytes} {secret s : suite.Prk}
    {seq n : Nat} {conn : Connection suite} {ms : List PlainMessage} {rs : List OpaqueMessage}
    (h : Ordered before secret seq conn ms rs s n) : InKeyOrder before secret seq conn := by
  have hread := h.inOrder.readable hsuite h.fragments
  -- what lies behind `before` is the beginning of the records' bytes
  have hwritten : conn.written = (before ++ wireOf rs).take conn.written.length := by
    rw [← h.wire, List.take_left]
  have hdrop : conn.written.drop before.length =
      (wireOf rs).take (conn.written.length - before.length) := by
    rw [hwritten, List.drop_take, List.drop_left, ← hwritten]
  have hle : conn.written.length - before.length ≤ (wireOf rs).length := by
    have hlen := congrArg List.length h.wire
    rw [List.length_append, List.length_append] at hlen
    omega
  obtain ⟨k, hk⟩ := recordsOf_take hread hle
  obtain ⟨s', n', hprefix⟩ := h.inOrder.take k
  have hreceive := receiveAll_protected hsuite hprefix
    fun m hm => h.fragments m (List.mem_of_mem_take hm)
  refine ⟨ms, rs, s, n, h.inOrder, h.wire, h.data, k, _, ?_, hreceive, rfl⟩
  rw [hdrop, hk]

/-- **Run.** A run from a connection in order stays in order.  By induction on the
    operations. -/
theorem Ordered.run (hsuite : suite.Lawful) {before : Bytes} {secret : suite.Prk} {seq : Nat}
    (ops : List Op) :
    ∀ (conn : Connection suite) (ms : List PlainMessage) (rs : List OpaqueMessage) (s : suite.Prk)
      (n : Nat), Ordered before secret seq conn ms rs s n → conn.Quiet ops →
      conn.common.recordLayer.writeSeq + conn.totalRecords ops < 2 ^ 48 →
      ∃ conn' ms' rs' s' n', conn.run ops = some conn' ∧
        Ordered before secret seq conn' ms' rs' s' n' := by
  induction ops with
  | nil => intro conn ms rs s n h _ _; exact ⟨conn, ms, rs, s, n, rfl, h⟩
  | cons op ops ih =>
    intro conn ms rs s n h hquiet hcount
    rw [Connection.totalRecords] at hcount
    obtain ⟨conn', ms', rs', s', n', hstep, hord, hle⟩ :=
      h.step hsuite op hquiet.1 (by omega)
    have hrest := hquiet.2
    simp only [hstep] at hcount hrest
    obtain ⟨conn'', ms'', rs'', s'', n'', hrun, hord'⟩ :=
      ih conn' ms' rs' s' n' hord hrest (by omega)
    refine ⟨conn'', ms'', rs'', s'', n'', ?_, hord'⟩
    rw [Connection.run, List.foldlM_cons, hstep]
    exact hrun

/-- A connection that has just come into the traffic state: it sends with `secret` and
    `seq`, and no KeyUpdate is parked.  Records of the handshake may still be queued. -/
structure Connection.AtTraffic (conn : Connection suite) (secret : suite.Prk) (seq : Nat) :
    Prop where
  ready : conn.common.maySendApplicationData = true
  maxFrag : 27 ≤ conn.common.maxFrag ∧ conn.common.maxFrag ≤ MAX_FRAGMENT_LEN
  queued : conn.common.queuedKeyUpdateMessage = none
  sends : conn.SendsWith secret seq
  accepted : conn.accepted = []
  written : conn.written = []

/-- **Key order.** After every run of operations from the traffic state that sends no
    alert while a KeyUpdate message is parked, with fewer than 2^48 records in all, what
    has been written and queued is in key order and the peer decrypts it. -/
theorem run_inKeyOrder (hsuite : suite.Lawful) {conn : Connection suite} {secret : suite.Prk}
    {seq : Nat} (h : conn.AtTraffic secret seq) (ops : List Op) (hquiet : conn.Quiet ops)
    (hcount : seq + conn.totalRecords ops < 2 ^ 48) :
    ∃ conn', conn.run ops = some conn' ∧
      InKeyOrder conn.common.sendableTls.bytes secret seq conn' := by
  have hstart : Ordered conn.common.sendableTls.bytes secret seq conn [] [] secret seq := by
    refine ⟨.nil, fun m hm => (by cases hm), ?_, ?_, h.ready, ⟨?_, h.maxFrag.2⟩, ?_⟩
    · rw [h.written]
      exact (List.append_nil _).symm
    · rw [h.accepted]
      rfl
    · have := h.maxFrag.1
      omega
    · rw [Connection.Position, h.queued]
      exact h.sends
  obtain ⟨conn', ms, rs, s, n, hrun, hord⟩ := hstart.run hsuite ops conn [] [] secret seq hquiet
    (by rw [h.sends.1.writeSeq]; exact hcount)
  exact ⟨conn', hrun, hord.inKeyOrder hsuite⟩

/-! ### A suite that can be run -/

/-- The key and the nonce, as a tag. -/
def keyTag (key : UInt32) (nonce : Bytes) : Bytes := toBE 4 key.toNat ++ nonce

/-- Seals by appending the key and the nonce. -/
def taggedSuite : Tls13CipherSuite where
  Prk := UInt32
  Key := UInt32
  deriveNext secret := secret + 1
  deriveTrafficKey secret := secret
  deriveTrafficIv _ := List.replicate 12 0
  tagLen := 16
  sealInPlaceAppendTag key nonce _ plain := some (plain ++ keyTag key nonce)
  openInPlace key nonce _ cipher :=
    if cipher.drop (cipher.length - 16) = keyTag key nonce then
      some (cipher.take (cipher.length - 16))
    else none

theorem length_append_keyTag (plain : Bytes) {nonce : Bytes} (key : UInt32)
    (h : nonce.length = NONCE_LEN) : (plain ++ keyTag key nonce).length = plain.length + 16 := by
  rw [List.length_append, keyTag, List.length_append, length_toBE, h]
  rfl

theorem taggedSuite_lawful : taggedSuite.Lawful where
  ivLen _ := rfl
  tagLen_le := le_rfl
  open_seal key nonce aad plain hnonce _ := by
    have hlen := length_append_keyTag plain key hnonce
    refine ⟨plain ++ keyTag key nonce, rfl, hlen, ?_⟩
    simp [taggedSuite, hlen]
  open_only key nonce aad plain cipher key' nonce' aad' plain' hnonce hnonce' hseal hopen := by
    cases hseal
    simp only [taggedSuite, length_append_keyTag plain key hnonce, Nat.add_sub_cancel,
      List.drop_left] at hopen
    split at hopen
    · next heq =>
      obtain ⟨hkey, hnonces⟩ := List.append_inj heq (by simp)
      have hkeys := congrArg ofBE hkey
      rw [ofBE_toBE (UInt32.toNat_lt key), ofBE_toBE (UInt32.toNat_lt key')] at hkeys
      exact ⟨UInt32.toNat_inj.mp hkeys.symm, hnonces.symm⟩
    · cases hopen

/-- A client that has just come into the traffic state. -/
def taggedClient : Connection taggedSuite where
  common :=
    { side := .client
      recordLayer := RecordLayer.new.setMessageEncrypter (deriveEncrypter taggedSuite (7 : UInt32))
      alignedHandshake := true
      maySendApplicationData := true
      sentFatalAlert := false
      maxFrag := MAX_FRAGMENT_LEN
      sendablePlaintext := ⟨[], some (64 * 1024)⟩
      sendableTls := ⟨[], some (64 * 1024)⟩
      queuedKeyUpdateMessage := none }
  state := .ok ⟨(7 : UInt32), (9 : UInt32)⟩
  accepted := []
  written := []

theorem taggedClient_atTraffic : taggedClient.AtTraffic (7 : UInt32) 0 where
  ready := rfl
  maxFrag := by decide
  queued := rfl
  sends := ⟨⟨rfl, rfl, rfl⟩, fun ks hks => by cases hks; rfl⟩
  accepted := rfl
  written := rfl

/-- A KeyUpdate is answered, data follows, and the connection is closed. -/
theorem run_inKeyOrder_taggedClient :
    ∃ conn', taggedClient.run [.keyUpdate true .updateRequested, .sendSomePlaintext [1, 2, 3],
        .sendCloseNotify, .writeTls 40, .writeTls 100] = some conn' ∧
      InKeyOrder [] (7 : UInt32) 0 conn' :=
  run_inKeyOrder taggedSuite_lawful taggedClient_atTraffic _ (by decide) (by decide)

/-- The connection is closed while the answer to a KeyUpdate is parked: the alert goes
    out under the new key, and the peer, who has not seen the KeyUpdate, cannot
    decrypt it. -/
theorem not_inKeyOrder_closeNotify :
    taggedClient.totalRecords [.keyUpdate true .updateRequested, .sendCloseNotify,
      .writeTls 100] < 2 ^ 48 ∧
    ∃ conn', taggedClient.run [.keyUpdate true .updateRequested, .sendCloseNotify,
        .writeTls 100] = some conn' ∧
      ¬ InKeyOrder [] (7 : UInt32) 0 conn' := by
  refine ⟨by decide, ?_⟩
  have hfails : (taggedClient.run [.keyUpdate true .updateRequested, .sendCloseNotify,
      .writeTls 100]).map (fun conn => ((@Peer.expecting taggedSuite (7 : UInt32) 0
        []).receiveAll (recordsOf conn.written)).toOption.isNone) = some true := by decide
  obtain ⟨conn', hrun, hnone⟩ := Option.map_eq_some_iff.mp hfails
  refine ⟨conn', hrun, ?_⟩
  rintro ⟨ms, rs, s, n, -, -, -, k, peer, hrecords, hreceive, -⟩
  rw [show List.length ([] : Bytes) = 0 from rfl, List.drop_zero] at hrecords
  rw [hrecords, hreceive] at hnone
  cases hnone

end TeaclaveCrates.Rustls
