import TeaclaveCrates.Rustls.Delivery

namespace TeaclaveCrates.Rustls

open TeaclaveCrates.Lib

/-!
# rustls — room for a flight of handshake messages

Handshake records, encrypted or not, are joined at the front of the read buffer, and their bytes
stay in it until a record ends where a message ends.  The limit of the buffer is that of the body of
one message, so a flight of messages that are accepted can fill it.

* `Opens` — handshake records, and what they are decrypted to;
* `held` — the bytes of the records that are still in the buffer;
* `pop_opens` — one `pop`, with what it leaves in the buffer;
* `Progress` / `read_progress` — one read with its pops;
* `neverJams_iff` — where no read fails.
-/

/-- A record on the wire, and the plain record in it. -/
structure HandshakeRecord where
  wire : OpaqueMessage
  plain : OpaqueMessage
deriving DecidableEq, Repr

/-- The records on the wire. -/
def wires (rs : List HandshakeRecord) : List OpaqueMessage := rs.map (·.wire)

/-- The records in them. -/
def plains (rs : List HandshakeRecord) : List OpaqueMessage := rs.map (·.plain)

/-- Handshake records that are read back and opened one after the other: a fragment is not empty,
    and no longer than the record it is in. -/
inductive Opens : RecordLayer → List HandshakeRecord → Prop
  | nil (rl : RecordLayer) : Opens rl []
  | cons {rl rl' : RecordLayer} {r : HandshakeRecord} {rs : List HandshakeRecord}
      (hread : OpaqueMessage.read r.wire.encode = .ok (r.wire, []))
      (hccs : r.wire.typ ≠ .changeCipherSpec)
      (hdecrypt : rl.decryptIncoming r.wire = (.ok (some ⟨false, r.plain.intoPlainMessage⟩), rl'))
      (htyp : r.plain.typ = .handshake) (hne : r.plain.payload.bytes ≠ [])
      (hle : r.plain.payload.bytes.length ≤ r.wire.payload.bytes.length) (hrest : Opens rl' rs) :
      Opens rl (r :: rs)

theorem Opens.readable {rl : RecordLayer} {rs : List HandshakeRecord} (h : Opens rl rs) :
    Readable (wires rs) := by
  induction h with
  | nil => exact fun r hr => absurd hr List.not_mem_nil
  | cons hread _ _ _ _ _ _ ih =>
    rintro r (_ | ⟨_, hr⟩)
    · exact hread
    · exact ih r hr

theorem Opens.length_le {rl : RecordLayer} {rs later : List HandshakeRecord}
    (h : Opens rl (rs ++ later)) : (wireOf (plains rs)).length ≤ (wireOf (wires rs)).length := by
  induction rs generalizing rl with
  | nil => exact le_rfl
  | cons r rs ih =>
    cases h with
    | cons _ _ _ _ _ hle hrest =>
      have hrs := ih hrest
      have hp := r.plain.length_encode
      have hw := r.wire.length_encode
      rw [plains, wires, List.map_cons, List.map_cons, wireOf_cons, wireOf_cons,
        List.length_append, List.length_append]
      exact Nat.add_le_add (by omega) hrs

/-! ### What stays in the buffer -/

/-- The joined bytes without the complete messages at their front. -/
def leftOf : Pending → Pending
  | none => none
  | some (v, b) =>
    match flush b.length v b with
    | some (_, pend) => pend
    | none => none

/-- The bytes of the records that are in the buffer once all messages of `rs` are popped, when `acc`
    bytes of records are there with `pend` in them. -/
def held : Pending → Nat → List HandshakeRecord → Nat
  | pend, acc, [] => if (leftOf pend).isNone then 0 else acc
  | pend, acc, r :: rs =>
    held (some (join (leftOf pend) r.plain))
      ((if (leftOf pend).isNone then 0 else acc) + r.wire.encode.length) rs

/-- No complete message is at the front. -/
def Pending.Open (pend : Pending) : Prop := ∀ n, ¬pend.Front n

theorem leftOf_open {pend : Pending} (hopen : pend.Open) (hne : ∀ v, pend ≠ some (v, []))
    (hfits : ∀ v b, pend = some (v, b) → Fits b) : leftOf pend = pend := by
  cases pend with
  | none => rfl
  | some p =>
    obtain ⟨v, b⟩ := p
    have hb : b ≠ [] := fun h => hne v (by rw [h])
    rw [leftOf, flush_eq]
    cases hn : messageSize b with
    | none => simp [hb]
    | some n =>
      have hle : ¬n ≤ b.length := fun hle => hopen n ⟨v, b, rfl, hn, hle⟩
      have hfit : ¬n > HEADER_SIZE + MAX_HANDSHAKE_SIZE := not_lt.mpr (hfits v b rfl n hn)
      simp [hle, hfit]

theorem held_open {pend : Pending} {acc : Nat} (hleft : leftOf pend = pend)
    (hacc : pend = none → acc = 0) : held pend acc [] = acc := by
  rw [held, hleft]
  cases pend with
  | none => exact (hacc rfl).symm
  | some p => rfl

theorem held_join {pend : Pending} {acc : Nat} (hleft : leftOf pend = pend)
    (hacc : pend = none → acc = 0) (r : HandshakeRecord) (rs : List HandshakeRecord) :
    held pend acc (r :: rs) = held (some (join pend r.plain)) (acc + r.wire.encode.length) rs := by
  rw [held, hleft]
  cases pend with
  | none => rw [hacc rfl]; rfl
  | some p => rfl

/-- A message is taken from the front: the bytes stay, unless nothing is left of them. -/
theorem held_front {v : ProtocolVersion} {b : Bytes} {n : Nat} (hn : messageSize b = some n)
    (hle : n ≤ b.length) (hfit : n ≤ HEADER_SIZE + MAX_HANDSHAKE_SIZE) (acc : Nat)
    (rs : List HandshakeRecord) :
    held (some (v, b)) acc rs =
      held (afterFront v b n) (if b.drop n = [] then 0 else acc) rs := by
  have hleft : leftOf (some (v, b)) = leftOf (some (v, b.drop n)) := by
    rw [leftOf, flush_eq, hn, leftOf]
    simp only [if_neg (not_lt.mpr hfit), if_pos hle]
    cases flush (b.drop n).length v (b.drop n) with
    | none => rfl
    | some q => rfl
  by_cases hnil : b.drop n = []
  · have hnone : leftOf (some (v, b)) = none := by
      rw [hleft, hnil]
      rfl
    have hidle : leftOf none = none := rfl
    rw [afterFront, if_pos hnil]
    cases rs <;> simp [held, hnone, hidle]
  · rw [afterFront, if_neg hnil, if_neg hnil]
    cases rs <;> simp [held, hleft]

/-! ### One pop -/

/-- The deframer holds `pend`, in `acc` bytes of records that are still there, and `unread` behind
    them. -/
structure InBuffer (d : MessageDeframer) (pend : Pending) (acc : Nat) (unread : Bytes) : Prop where
  holds : Holds d pend unread
  used : d.used = acc + unread.length
  idle : pend = none → acc = 0

/-- Nothing can be popped from `pend`. -/
structure Settled (pend : Pending) : Prop where
  isOpen : pend.Open
  left : leftOf pend = pend
  resume_eq : ∀ rs, resume pend rs = deframe pend rs

theorem settled_of_resume {d : MessageDeframer} {pend : Pending} {unread : Bytes}
    {rs : List OpaqueMessage} (h : Holds d pend unread) (hopen : pend.Open)
    (hsome : resume pend rs ≠ none) : Settled pend where
  isOpen := hopen
  left := leftOf_open hopen h.ne_nil fun _ _ hpend => fits_of_resume (hpend ▸ hsome)
  resume_eq := resume_open hopen h.ne_nil hsome

theorem settled_none : Settled none where
  isOpen := by
    rintro n ⟨v, b, hb, -⟩
    cases hb
  left := rfl
  resume_eq _ := rfl

variable {tail : Bytes} {later : List HandshakeRecord} {out : List Deframed}
  {fin : Except Error Pending}

/-- What the loop of `pop` does when the fragment is joined. -/
def afterJoin (fuel : Nat) (rl : RecordLayer)
    (joined : Except Error HandshakePayloadState × MessageDeframer) :
    Option (MessageDeframer.LoopEnd × MessageDeframer × RecordLayer) :=
  match joined.1 with
  | .error err => some (.ret (.error err), joined.2, rl)
  | .ok .blocked => some (.ret (.ok none), joined.2, rl)
  | .ok (.complete len) => some (.complete len, joined.2, rl)
  | .ok .continue => joined.2.popLoop fuel rl

/-- **Loop.** The loop of `pop` stops at the next message, or where nothing is complete.  By
    induction on the records that are unread. -/
theorem popLoop_opens (htail : Short tail) (rs : List HandshakeRecord) :
    ∀ (fuel : Nat) (d : MessageDeframer) (rl : RecordLayer) (pend : Pending) (acc : Nat),
      rs.length < fuel → InBuffer d pend acc (wireOf (wires rs) ++ tail) → Opens rl (rs ++ later) →
      resume pend (plains rs) = some (out, fin) →
      ∃ stop d' rl' pend' acc' rs', d.popLoop fuel rl = some (stop, d', rl') ∧
        InBuffer d' pend' acc' (wireOf (wires rs') ++ tail) ∧ Opens rl' (rs' ++ later) ∧
        resume pend' (plains rs') = some (out, fin) ∧
        (∀ more, held pend' acc' (rs' ++ more) = held pend acc (rs ++ more)) ∧
        ((∃ n, stop = .complete n ∧ pend'.Front n) ∨
          (stop = .ret (.ok none) ∧ rs' = [] ∧ Settled pend')) := by
  induction rs with
  | nil =>
    intro fuel d rl pend acc hfuel h hopens hres
    obtain ⟨fuel, rfl⟩ : ∃ k, fuel = k + 1 := ⟨fuel - 1, by omega⟩
    by_cases hfront : ∃ n, pend.Front n
    · obtain ⟨n, hfront⟩ := hfront
      refine ⟨.complete n, d, rl, pend, acc, [], ?_, h, hopens, hres, fun _ => rfl,
        .inl ⟨n, rfl, hfront⟩⟩
      rw [MessageDeframer.popLoop, nextStart_front h.holds hfront]
    · have hsettled := settled_of_resume h.holds (fun n hn => hfront ⟨n, hn⟩)
        (by rw [hres]; simp)
      refine ⟨.ret (.ok none), d, rl, pend, acc, [], ?_, h, hopens, hres, fun _ => rfl,
        .inr ⟨rfl, rfl, hsettled⟩⟩
      obtain ⟨hs, hu, hun⟩ := h.holds.unread_eq
      obtain ⟨e, he, hshort⟩ := htail
      rw [MessageDeframer.popLoop, nextStart_open h.holds hsettled.isOpen]
      simp only [slice?_eq hs hu, hun, wires, wireOf, List.map_nil, List.flatMap_nil,
        List.nil_append, Option.bind_eq_bind, Option.bind_some, he]
      rcases hshort with rfl | rfl <;> rfl
  | cons r rs ih =>
    intro fuel d rl pend acc hfuel h hopens hres
    obtain ⟨fuel, rfl⟩ : ∃ k, fuel = k + 1 := ⟨fuel - 1, by omega⟩
    rw [List.length_cons] at hfuel
    by_cases hfront : ∃ n, pend.Front n
    · obtain ⟨n, hfront⟩ := hfront
      refine ⟨.complete n, d, rl, pend, acc, r :: rs, ?_, h, hopens, hres, fun _ => rfl,
        .inl ⟨n, rfl, hfront⟩⟩
      rw [MessageDeframer.popLoop, nextStart_front h.holds hfront]
    · have hsettled := settled_of_resume h.holds (fun n hn => hfront ⟨n, hn⟩)
        (by rw [hres]; simp)
      cases hopens with
      | @cons _ rl₁ _ _ hread hccs hdecrypt htyp hne hle hrest =>
      have hwire : wireOf (wires (r :: rs)) ++ tail =
          r.wire.encode ++ (wireOf (wires rs) ++ tail) := by
        rw [wires, List.map_cons, wireOf_cons, List.append_assoc]
        rfl
      rw [hwire] at h
      rw [hsettled.resume_eq, plains, List.map_cons, deframe_handshake htyp] at hres
      obtain ⟨hs, hu, hun⟩ := h.holds.unread_eq
      have hparse := read_append hread (wireOf (wires rs) ++ tail)
      have hstop : (r.wire.encode ++ (wireOf (wires rs) ++ tail)).length -
          (wireOf (wires rs) ++ tail).length = r.wire.encode.length := by
        rw [List.length_append]
        omega
      -- the fragment is joined
      obtain ⟨st, d₁, happend, hholds, hused, hreport⟩ :=
        appendHs_holds h.holds (by rw [r.wire.length_encode]; omega) hne
          (fits_of_resume (by rw [hres]; simp))
      have h₁ : InBuffer d₁ (some (join pend r.plain)) (acc + r.wire.encode.length)
          (wireOf (wires rs) ++ tail) := by
        refine ⟨hholds, ?_, fun h => absurd h (Option.some_ne_none _)⟩
        have hlen : (r.wire.encode ++ (wireOf (wires rs) ++ tail)).length =
            r.wire.encode.length + (wireOf (wires rs) ++ tail).length := List.length_append
        rw [hused, h.used, hlen]
        omega
      have hheld : ∀ more, held (some (join pend r.plain)) (acc + r.wire.encode.length) (rs ++ more) =
          held pend acc (r :: rs ++ more) :=
        fun more => (held_join hsettled.left h.idle r (rs ++ more)).symm
      have hnotccs : ¬(r.wire.typ = .changeCipherSpec ∧ d.joiningHs.isNone = true) :=
        fun hc => hccs hc.1
      have hplain : r.plain.intoPlainMessage.typ = .handshake := htyp
      have hstep : d.popLoop (fuel + 1) rl =
          (d.appendHs r.plain.version r.plain.payload.bytes (d.start + r.wire.encode.length)
            false).bind (afterJoin fuel rl₁) := by
        rw [MessageDeframer.popLoop, nextStart_open h.holds hsettled.isOpen]
        simp only [slice?_eq hs hu, hun, Option.bind_eq_bind, Option.bind_some, hparse, hstop,
          if_neg hnotccs, hdecrypt, guard, hplain, ↓reduceIte, ne_eq, not_true_eq_false, and_false,
          Option.pure_def]
        rfl
      rw [hstep, happend]
      rcases hreport with ⟨n, rfl, hfront'⟩ | ⟨hopen', ⟨rfl, hmore⟩ | ⟨rfl, hnone⟩⟩
      · exact ⟨.complete n, d₁, rl₁, _, _, rs, rfl, h₁, hrest, hres, hheld, .inl ⟨n, rfl, hfront'⟩⟩
      · obtain ⟨stop, d', rl', pend', acc', rs', hloop, h', hopens', hres', hheld', hend⟩ :=
          ih fuel d₁ rl₁ _ _ (by omega) h₁ hrest hres
        exact ⟨stop, d', rl', pend', acc', rs', hloop, h', hopens', hres',
          fun more => (hheld' more).trans (hheld more), hend⟩
      · -- nothing is unread: there is no other record and no tail
        have hrs : rs = [] := by
          have hlen := congrArg List.length hnone
          have hcount : rs.length ≤ (wireOf (wires rs)).length := by
            simpa [wires] using length_le_wireOf (wires rs)
          rw [List.length_append, List.length_nil] at hlen
          exact List.eq_nil_of_length_eq_zero (by omega)
        subst hrs
        exact ⟨.ret (.ok none), d₁, rl₁, _, _, [], rfl, h₁, hrest, hres, hheld,
          .inr ⟨rfl, rfl, settled_of_resume hholds hopen' (by rw [hres]; simp)⟩⟩

/-- **Pop.** One `pop` returns the next message, or nothing where nothing is complete. -/
theorem pop_opens (htail : Short tail) {rs : List HandshakeRecord} {d : MessageDeframer}
    {rl : RecordLayer} {pend : Pending} {acc : Nat}
    (h : InBuffer d pend acc (wireOf (wires rs) ++ tail)) (hopens : Opens rl (rs ++ later))
    (hres : resume pend (plains rs) = some (out, fin)) :
    ∃ result d' rl' pend' acc' rs', d.pop rl = some (.ok result, d', rl') ∧
      InBuffer d' pend' acc' (wireOf (wires rs') ++ tail) ∧ Opens rl' (rs' ++ later) ∧
      (∀ more, held pend' acc' (rs' ++ more) = held pend acc (rs ++ more)) ∧
      match result with
      | some m => ∃ out', out = m :: out' ∧ resume pend' (plains rs') = some (out', fin)
      | none => out = [] ∧ rs' = [] ∧ fin = .ok pend' ∧ Settled pend' := by
  have hlen := h.holds.length_le
  have hcount : rs.length ≤ (wireOf (wires rs)).length := by
    simpa [wires] using length_le_wireOf (wires rs)
  rw [List.length_append] at hlen
  unfold MessageDeframer.pop
  rw [h.holds.lastError]
  by_cases hzero : d.used = 0
  · -- the buffer is empty: nothing is joined, no record is unread
    have hrs : rs = [] := List.eq_nil_of_length_eq_zero (by omega)
    have hpend : pend = none := Pending.eq_none (by omega) h.holds.ne_nil
    subst hrs hpend
    cases hres
    simp only [if_pos hzero]
    refine ⟨none, d, rl, none, acc, [], rfl, h, hopens, fun _ => rfl, ?_⟩
    simp [settled_none]
  · obtain ⟨stop, d₁, rl₁, pend₁, acc₁, rs₁, hloop, h₁, hopens₁, hres₁, hheld₁, hend⟩ :=
      popLoop_opens htail rs (d.used + 1) d rl pend acc (by omega) h hopens hres
    simp only [if_neg hzero, hloop, Option.bind_eq_bind, Option.bind_some, Option.pure_def]
    rcases hend with ⟨n, rfl, v, b, rfl, hn, hnb⟩ | ⟨rfl, rfl, hsettled⟩
    · obtain ⟨out', rfl, hres', hfits⟩ := resume_front hn hnb hres₁
      obtain ⟨d₂, htake, hholds₂, -, hused₂⟩ := takeComplete_holds h₁.holds hnb hfits
      have hfit := fits_of_resume (by rw [hres₁]; simp) n hn
      have h₂ : InBuffer d₂ (afterFront v b n) (if b.drop n = [] then 0 else acc₁)
          (wireOf (wires rs₁) ++ tail) := by
        by_cases hnil : b.drop n = []
        · rw [afterFront, if_pos hnil, if_pos hnil]
          rw [afterFront, if_pos hnil] at hholds₂
          refine ⟨hholds₂, ?_, fun _ => rfl⟩
          cases hholds₂ with
          | idle herr hused hjoin hunread => rw [← hunread, length_slice hused]; omega
        · rw [afterFront, if_neg hnil, if_neg hnil]
          rw [afterFront, if_neg hnil] at hholds₂
          exact ⟨hholds₂, by rw [hused₂ hnil, h₁.used], fun h => absurd h (Option.some_ne_none _)⟩
      simp only [htake, Option.bind_some]
      exact ⟨_, d₂, rl₁, _, _, rs₁, rfl, h₂, hopens₁,
        fun more => (held_front hn hnb hfit acc₁ _).symm.trans (hheld₁ more), out', rfl, hres'⟩
    · rw [hsettled.resume_eq] at hres₁
      cases hres₁
      exact ⟨none, d₁, rl₁, pend₁, acc₁, [], rfl, h₁, hopens₁, hheld₁, rfl, rfl, rfl, hsettled⟩

/-- **Pops.** Popping until nothing comes.  By induction on the messages. -/
theorem popAll_opens (htail : Short tail) (out : List Deframed) :
    ∀ (fuel : Nat) (d : MessageDeframer) (rl : RecordLayer) (pend : Pending) (acc : Nat)
      (rs : List HandshakeRecord), out.length < fuel →
      InBuffer d pend acc (wireOf (wires rs) ++ tail) → Opens rl (rs ++ later) →
      resume pend (plains rs) = some (out, fin) →
      ∃ d' rl' pend' acc', popAll fuel d rl = some (out, none, d', rl') ∧
        InBuffer d' pend' acc' tail ∧ Opens rl' later ∧ fin = .ok pend' ∧ Settled pend' ∧
        ∀ more, held pend' acc' more = held pend acc (rs ++ more) := by
  induction out with
  | nil =>
    intro fuel d rl pend acc rs hfuel h hopens hres
    obtain ⟨fuel, rfl⟩ : ∃ k, fuel = k + 1 := ⟨fuel - 1, by omega⟩
    obtain ⟨result, d', rl', pend', acc', rs', hpop, h', hopens', hheld, hspec⟩ :=
      pop_opens htail h hopens hres
    cases result with
    | some m =>
      obtain ⟨out', hout, -⟩ := hspec
      cases hout
    | none =>
      obtain ⟨-, rfl, rfl, hsettled⟩ := hspec
      refine ⟨d', rl', pend', acc', ?_, h', hopens', rfl, hsettled, hheld⟩
      simp [popAll, hpop]
  | cons m out ih =>
    intro fuel d rl pend acc rs hfuel h hopens hres
    rw [List.length_cons] at hfuel
    obtain ⟨fuel, rfl⟩ : ∃ k, fuel = k + 1 := ⟨fuel - 1, by omega⟩
    obtain ⟨result, d', rl', pend', acc', rs', hpop, h', hopens', hheld, hspec⟩ :=
      pop_opens htail h hopens hres
    cases result with
    | none => cases hspec.1
    | some m' =>
      obtain ⟨out', hout, hres'⟩ := hspec
      cases hout
      obtain ⟨d'', rl'', pend'', acc'', hall, h'', hopens'', hfin, hsettled, hheld'⟩ :=
        ih fuel d' rl' pend' acc' rs' (by omega) h' hopens' hres'
      refine ⟨d'', rl'', pend'', acc'', ?_, h'', hopens'', hfin, hsettled,
        fun more => (hheld' more).trans (hheld more)⟩
      simp [popAll, hpop, hall]

/-! ### One read and its pops -/

/-- The records that lie within the first `n` bytes. -/
def arrived (n : Nat) (rs : List HandshakeRecord) : List HandshakeRecord :=
  rs.take (complete n (wires rs)).length

/-- A message is incomplete after `n` bytes. -/
def JoiningAt (n : Nat) (rs : List HandshakeRecord) : Prop :=
  ∃ out p, deframe none (plains (arrived n rs)) = some (out, .ok (some p))

/-- The bytes in the buffer after `n` bytes: the records that are held, and part of another. -/
def bufferedAt (n : Nat) (rs : List HandshakeRecord) : Nat :=
  held none 0 (arrived n rs) + (n - (wireOf (wires (arrived n rs))).length)

/-- Where the run is after `n` bytes. -/
structure Progress (rs done later : List HandshakeRecord) (n : Nat) (pend : Pending) (acc : Nat)
    (tail : Bytes) (d : MessageDeframer) (rl : RecordLayer) (outs : List Deframed) : Prop where
  le : n ≤ (wireOf (wires rs)).length
  split : rs = done ++ later
  done_eq : wires done = complete n (wires rs)
  wire : (wireOf (wires rs)).take n = wireOf (wires done) ++ tail
  tail_lt : tail.length < OpaqueMessage.MAX_WIRE_SIZE
  outs_eq : deframe none (plains done) = some (outs, .ok pend)
  inBuffer : InBuffer d pend acc tail
  settled : Settled pend
  held_eq : ∀ more, held none 0 (done ++ more) = held pend acc more
  opens : Opens rl later

section Progress

variable {rs done : List HandshakeRecord} {n acc : Nat} {pend : Pending} {d : MessageDeframer}
  {rl : RecordLayer} {outs : List Deframed}

theorem Progress.arrived_eq (h : Progress rs done later n pend acc tail d rl outs) :
    arrived n rs = done := by
  have hlen : (complete n (wires rs)).length = done.length := by
    rw [← h.done_eq, wires, List.length_map]
  rw [arrived, hlen, h.split, List.take_left]

/-- The read has room, if the bytes in the buffer are fewer than its limit. -/
theorem Progress.room_iff (h : Progress rs done later n pend acc tail d rl outs) :
    d.used < d.allowMax ↔ (JoiningAt n rs → bufferedAt n rs < MAX_HANDSHAKE_SIZE) := by
  have hacc : held none 0 done = acc := by
    have := h.held_eq []
    rwa [List.append_nil, held_open h.settled.left h.inBuffer.idle] at this
  have htail : n - (wireOf (wires done)).length = tail.length := by
    have hlen := congrArg List.length h.wire
    rw [List.length_take, Nat.min_eq_left h.le, List.length_append] at hlen
    omega
  have hused := h.inBuffer.used
  rw [bufferedAt, JoiningAt, h.arrived_eq, hacc, htail, h.outs_eq, ← hused]
  have hlt := h.tail_lt
  cases h.inBuffer.holds with
  | idle herr hle hjoin hunread =>
    have hzero := h.inBuffer.idle rfl
    have hmax : d.allowMax = OpaqueMessage.MAX_WIRE_SIZE := by
      simp [MessageDeframer.allowMax, hjoin]
    refine ⟨fun _ hjoining => ?_, fun _ => by omega⟩
    obtain ⟨out, p, hp⟩ := hjoining
    cases hp
  | joining herr hle hjoin =>
    have hmax : d.allowMax = MAX_HANDSHAKE_SIZE := by simp [MessageDeframer.allowMax, hjoin]
    rw [hmax]
    exact ⟨fun hroom _ => hroom, fun hroom => hroom ⟨_, _, rfl⟩⟩

theorem read_le {available : Bytes} {limit k : Nat} {d' : MessageDeframer}
    (h : d.read available limit = some (.ok k, d')) : k ≤ limit := by
  unfold MessageDeframer.read at h
  split at h
  · cases h
  · split at h
    · cases h
      exact Nat.min_le_left _ _
    · cases h

theorem read_full (h : ¬d.used < d.allowMax) (available : Bytes) (limit : Nat) :
    d.read available limit = some (.error "message buffer full", d) := by
  have hprepare : d.prepareRead = .error "message buffer full" := by
    unfold MessageDeframer.prepareRead
    exact if_pos (not_lt.mp h)
  rw [MessageDeframer.read, hprepare]

/-- **Read.** A read that has room takes bytes, and its pops return the messages they complete. -/
theorem read_progress (hread : Readable (wires rs)) (hfits : deframe none (plains rs) ≠ none)
    (h : Progress rs done later n pend acc tail d rl outs) (hroom : d.used < d.allowMax)
    (limit : Nat) :
    ∃ k d₁ d₂ rl₂ out done' later' pend' acc' tail',
      d.read ((wireOf (wires rs)).drop n) limit = some (.ok k, d₁) ∧
      popAll (d₁.used + 1) d₁ rl = some (out, none, d₂, rl₂) ∧ k ≤ limit ∧
      (0 < limit → n < (wireOf (wires rs)).length → 0 < k) ∧
      Progress rs done' later' (n + k) pend' acc' tail' d₂ rl₂ (outs ++ out) := by
  obtain ⟨k, d₁, hreadOk, hk, hpos, hused₁, hholds₁⟩ :=
    read_holds h.inBuffer.holds hroom ((wireOf (wires rs)).drop n) limit
  rw [List.length_drop] at hk
  have hle := h.le
  obtain ⟨new, tail', hnew, -, hbytes, htail', hshort, hlt'⟩ :=
    complete_more hread (h.done_eq ▸ h.wire) (k := k) (by omega)
  -- the new records are the next ones
  obtain ⟨rest, hrest⟩ := complete_mono (wires rs) (n + k) (wireOf (wires rs)).length (by omega)
  rw [complete_all, hnew, ← h.done_eq, List.append_assoc] at hrest
  have hlater : wires later = new ++ rest := by
    have hsplit : wires done ++ wires later = wires rs := by
      rw [h.split, wires, wires, wires, List.map_append]
    exact List.append_cancel_left (hsplit.trans hrest)
  obtain ⟨newR, later', rfl, hnewR, -⟩ := List.map_eq_append_iff.mp hlater
  have hnewR : wires newR = new := hnewR
  have hdone : wires (done ++ newR) = complete (n + k) (wires rs) := by
    rw [hnew, ← h.done_eq, ← hnewR, wires, wires, wires, List.map_append]
  have hplains : plains (done ++ newR) = plains done ++ plains newR := List.map_append
  have hsplit : rs = done ++ newR ++ later' := by rw [h.split, List.append_assoc]
  -- the headers are within the limit
  have hsome : deframe none (plains (done ++ newR)) ≠ none := by
    refine deframe_of_append (plains later') _ none ?_
    rwa [plains, plains, ← List.map_append, ← hsplit]
  rw [hplains, deframe_append _ _ _ _ h.outs_eq] at hsome
  cases hq : deframe pend (plains newR) with
  | none => rw [hq] at hsome; exact absurd rfl hsome
  | some q =>
    obtain ⟨out, fin⟩ := q
    have hbuffer₁ : InBuffer d₁ pend acc (wireOf (wires newR) ++ tail') := by
      rw [hnewR, ← hbytes]
      refine ⟨hholds₁, ?_, h.inBuffer.idle⟩
      rw [hused₁, h.inBuffer.used, List.length_append, List.length_take, List.length_drop]
      omega
    have hres : resume pend (plains newR) = some (out, fin) := by rw [h.settled.resume_eq, hq]
    have hcount : out.length < d₁.used + 1 := by
      have h₂ := resume_length hres
      have h₃ := hholds₁.length_le
      have h₄ := h.opens.length_le
      rw [hbytes, List.length_append, ← hnewR] at h₃
      omega
    obtain ⟨d₂, rl₂, pend', acc', hall, hbuffer₂, hopens₂, rfl, hsettled, hheld⟩ :=
      popAll_opens hshort out (d₁.used + 1) d₁ rl pend acc newR hcount hbuffer₁ h.opens hres
    refine ⟨k, d₁, d₂, rl₂, out, done ++ newR, later', pend', acc', tail', hreadOk, hall,
      read_le hreadOk, fun hlimit hmore => hpos hlimit ?_, ?_⟩
    · rw [← List.length_pos_iff, List.length_drop]
      omega
    · refine ⟨by omega, hsplit, hdone, ?_, hlt', ?_, hbuffer₂, hsettled, fun more => ?_, hopens₂⟩
      · rw [hdone]
        exact htail'
      · rw [hplains, deframe_append _ _ _ _ h.outs_eq, hq]
        rfl
      · rw [List.append_assoc, h.held_eq]
        exact (hheld more).symm

end Progress

/-! ### A whole delivery -/

/-- Below the limit of the buffer wherever a message is incomplete. -/
def HasRoom (rs : List HandshakeRecord) : Prop :=
  ∀ n ≤ (wireOf (wires rs)).length, JoiningAt n rs → bufferedAt n rs < MAX_HANDSHAKE_SIZE

/-- No read fails, however the records are cut into reads: what is returned are the messages of the
    records that have arrived, and more arrives with each read. -/
def NeverJams (rl : RecordLayer) (rs : List HandshakeRecord) : Prop :=
  ∀ limits : List Nat, (∀ limit ∈ limits, 0 < limit) →
    ∃ D pend, deliver (wireOf (wires rs)) limits 0 .default rl = some D ∧ D.error = none ∧
      D.delivered ≤ (wireOf (wires rs)).length ∧
      deframe none (plains (arrived D.delivered rs)) = some (D.output, .ok pend) ∧
      min limits.length (wireOf (wires rs)).length ≤ D.delivered

section Deliver

variable {rs done : List HandshakeRecord} {n acc : Nat} {pend : Pending} {d : MessageDeframer}
  {rl : RecordLayer} {outs : List Deframed}

theorem progress_start (rs : List HandshakeRecord) (h : Opens rl rs) :
    Progress rs [] rs 0 none 0 [] .default rl [] where
  le := Nat.zero_le _
  split := rfl
  done_eq := by
    cases rs with
    | nil => rfl
    | cons r rs =>
      have hr := r.wire.length_encode
      simp only [OpaqueMessage.HEADER_SIZE] at hr
      rw [wires, wires, List.map_cons, complete, if_neg (by omega)]
      rfl
  wire := rfl
  tail_lt := by decide
  outs_eq := rfl
  inBuffer := ⟨.idle rfl (Nat.zero_le _) rfl rfl, rfl, fun _ => rfl⟩
  settled := settled_none
  held_eq _ := rfl
  opens := h

/-- **Run.** With room everywhere, a delivery goes on.  By induction on the reads. -/
theorem deliver_progress (hread : Readable (wires rs)) (hfits : deframe none (plains rs) ≠ none)
    (hroom : HasRoom rs) (limits : List Nat) (hlimits : ∀ limit ∈ limits, 0 < limit)
    (h : Progress rs done later n pend acc tail d rl outs) :
    ∃ D pend', deliver (wireOf (wires rs)) limits n d rl = some D ∧ D.error = none ∧
      D.delivered ≤ (wireOf (wires rs)).length ∧
      deframe none (plains (arrived D.delivered rs)) = some (outs ++ D.output, .ok pend') ∧
      min (n + limits.length) (wireOf (wires rs)).length ≤ D.delivered := by
  induction limits generalizing done later n pend acc tail d rl outs with
  | nil =>
    refine ⟨_, pend, rfl, rfl, h.le, ?_, Nat.min_le_left _ _⟩
    rw [h.arrived_eq, List.append_nil]
    exact h.outs_eq
  | cons limit limits ih =>
    obtain ⟨k, d₁, d₂, rl₂, out, done', later', pend', acc', tail', hreadOk, hall, -, hpos, h'⟩ :=
      read_progress hread hfits h (h.room_iff.mpr (hroom n h.le)) limit
    obtain ⟨D, pend'', hD, herror, hle, houts, hmin⟩ :=
      ih (fun l hl => hlimits l (List.mem_cons_of_mem _ hl)) h'
    refine ⟨{ D with output := out ++ D.output }, pend'', ?_, herror, hle, ?_, ?_⟩
    · rw [deliver]
      simp only [hreadOk, hall, hD, Option.bind_eq_bind, Option.bind_some, Option.pure_def]
    · rw [List.append_assoc] at houts
      exact houts
    · have := hpos (hlimits limit List.mem_cons_self)
      rw [List.length_cons]
      show _ ≤ D.delivered
      omega

/-- **Jam.** Read byte by byte, a delivery fails where there is no room.  By induction on the bytes
    that are still to come before. -/
theorem deliver_jams (hread : Readable (wires rs)) (hfits : deframe none (plains rs) ≠ none)
    {m j : Nat} (hm : m ≤ (wireOf (wires rs)).length) (hjoining : JoiningAt m rs)
    (hfull : MAX_HANDSHAKE_SIZE ≤ bufferedAt m rs) (hj : n + j = m)
    (h : Progress rs done later n pend acc tail d rl outs) :
    deliver (wireOf (wires rs)) (List.replicate (j + 1) 1) n d rl = none := by
  induction j generalizing done later n pend acc tail d rl outs with
  | zero =>
    obtain rfl : n = m := hj
    have hno : ¬d.used < d.allowMax := fun hroom =>
      absurd (h.room_iff.mp hroom hjoining) (not_lt.mpr hfull)
    simp [deliver, read_full hno]
  | succ j ih =>
    rw [List.replicate_succ, deliver]
    by_cases hroom : d.used < d.allowMax
    · obtain ⟨k, d₁, d₂, rl₂, out, done', later', pend', acc', tail', hreadOk, hall, hone, hpos,
        h'⟩ := read_progress hread hfits h hroom 1
      simp [hreadOk, hall, ih (by omega) h']
    · simp [read_full hroom]

/-- Reads of one byte each reach every place where the buffer could be full. -/
theorem hasRoom_of_neverJams (hopens : Opens rl rs) (hfits : deframe none (plains rs) ≠ none)
    (h : NeverJams rl rs) : HasRoom rs := by
  intro m hm hjoining
  by_contra hfull
  obtain ⟨D, pend, hD, -⟩ := h (List.replicate (m + 1) 1)
    (fun limit hl => by rw [List.eq_of_mem_replicate hl]; exact Nat.one_pos)
  rw [deliver_jams hopens.readable hfits hm hjoining (not_lt.mp hfull) (Nat.zero_add m)
    (progress_start rs hopens)] at hD
  cases hD

/-- **Handshake flights.** For handshake records whose messages are within the limit, no read fails,
    however they are cut, if and only if the bytes in the buffer stay below the limit wherever a
    message is incomplete. -/
theorem neverJams_iff (hopens : Opens rl rs) (hfits : deframe none (plains rs) ≠ none) :
    NeverJams rl rs ↔ HasRoom rs := by
  constructor
  · exact hasRoom_of_neverJams hopens hfits
  · intro hroom limits hlimits
    obtain ⟨D, pend, hD, herror, hle, houts, hmin⟩ :=
      deliver_progress hopens.readable hfits hroom limits hlimits (progress_start rs hopens)
    rw [Nat.zero_add] at hmin
    exact ⟨D, pend, hD, herror, hle, houts, hmin⟩

end Deliver

/-- A fragment in a record that is not encrypted. -/
def HandshakeRecord.ofFragment (b : Bytes) : HandshakeRecord :=
  ⟨⟨.handshake, .TLSv1_2, ⟨b⟩⟩, ⟨.handshake, .TLSv1_2, ⟨b⟩⟩⟩

theorem opens_ofFragment {bs : List Bytes}
    (h : ∀ b ∈ bs, b ≠ [] ∧ b.length < OpaqueMessage.MAX_PAYLOAD.toNat) :
    Opens .new (bs.map .ofFragment) := by
  induction bs with
  | nil => exact .nil _
  | cons b bs ih =>
    obtain ⟨hne, hlt⟩ := h b List.mem_cons_self
    refine .cons (OpaqueMessage.read_encode (fun _ => rfl) rfl (.inr hne) hlt)
      (fun hccs : ContentType.handshake = _ => by cases hccs)
      (decryptIncoming_plain (fun hactive => by cases hactive) _) rfl hne le_rfl (ih fun b' hb' => ?_)
    exact h b' (List.mem_cons_of_mem _ hb')

theorem neverJams_iff_two :
    NeverJams .new [.ofFragment [0x14, 0, 0], .ofFragment [2, 0xaa, 0xbb]] ↔
      HasRoom [.ofFragment [0x14, 0, 0], .ofFragment [2, 0xaa, 0xbb]] :=
  neverJams_iff (@opens_ofFragment [[0x14, 0, 0], [2, 0xaa, 0xbb]] (by decide)) (by decide)

/-! ### The largest message -/

variable {b : Bytes}

/-- Bytes that do not complete the message at the front. -/
theorem flush_incomplete {v : ProtocolVersion} {n : Nat} (hn : messageSize b = some n)
    (hfit : n ≤ HEADER_SIZE + MAX_HANDSHAKE_SIZE) (hlt : b.length < n) :
    flush b.length v b = some ([], some (v, b)) := by
  rw [flush_eq, hn]
  simp only [if_neg (not_lt.mpr hfit), if_neg (not_le.mpr hlt)]

/-- Fragments that do not complete it are joined, and stay in the buffer. -/
theorem deframe_incomplete {v : ProtocolVersion} {n : Nat} (bs : List Bytes)
    (hn : messageSize b = some n) (hfit : n ≤ HEADER_SIZE + MAX_HANDSHAKE_SIZE)
    (hlt : b.length + bs.flatten.length < n) (acc : Nat) :
    deframe (some (v, b)) (plains (bs.map .ofFragment)) = some ([], .ok (some (v,
      b ++ bs.flatten))) ∧
      held (some (v, b)) acc (bs.map .ofFragment) =
        acc + (wireOf (wires (bs.map .ofFragment))).length := by
  induction bs generalizing b acc with
  | nil =>
    rw [List.flatten_nil, List.length_nil] at hlt
    refine ⟨by rw [List.flatten_nil, List.append_nil]; rfl, ?_⟩
    simp [held, leftOf, flush_incomplete hn hfit hlt, wires, wireOf]
  | cons x bs ih =>
    rw [List.flatten_cons, List.length_append] at hlt
    have hn' := messageSize_append hn x
    have hx : (b ++ x).length < n := by rw [List.length_append]; omega
    obtain ⟨hdeframe, hheld⟩ := ih hn' (by rw [List.length_append]; omega)
      (acc + (HandshakeRecord.ofFragment x).wire.encode.length)
    have hleft : leftOf (some (v, b)) = some (v, b) := by
      rw [leftOf, flush_incomplete hn hfit (by omega)]
    constructor
    · rw [List.map_cons, plains, List.map_cons, deframe_handshake rfl]
      show resume (some (v, b ++ x)) (plains (bs.map .ofFragment)) = _
      simp only [resume, flush_incomplete hn' hfit hx, hdeframe, List.nil_append, List.append_assoc,
        List.flatten_cons]
    · rw [List.map_cons, held_join hleft fun h => absurd h (Option.some_ne_none _)]
      show held (some (v, b ++ x)) _ _ = _
      rw [hheld]
      simp only [wires, List.map_cons, wireOf_cons, List.length_append, Nat.add_assoc]

/-- From the start on, with the fragment that has the header. -/
theorem deframe_front {n : Nat} (bs : List Bytes) (hn : messageSize b = some n)
    (hfit : n ≤ HEADER_SIZE + MAX_HANDSHAKE_SIZE) (hlt : b.length + bs.flatten.length < n) :
    deframe none (plains ((b :: bs).map .ofFragment)) =
        some ([], .ok (some (.TLSv1_2, b ++ bs.flatten))) ∧
      held none 0 ((b :: bs).map .ofFragment) =
        (wireOf (wires ((b :: bs).map .ofFragment))).length := by
  obtain ⟨hdeframe, hheld⟩ := deframe_incomplete (v := .TLSv1_2) bs hn hfit hlt
    (HandshakeRecord.ofFragment b).wire.encode.length
  constructor
  · rw [List.map_cons, plains, List.map_cons, deframe_handshake rfl]
    show resume (some (.TLSv1_2, b)) (plains (bs.map .ofFragment)) = _
    simp only [resume, flush_incomplete hn hfit (by omega : b.length < n), hdeframe,
      List.nil_append]
  · rw [List.map_cons, held_join rfl (fun _ => rfl), Nat.zero_add]
    refine hheld.trans ?_
    show _ = (wireOf (_ :: wires (bs.map .ofFragment))).length
    rw [wireOf_cons, List.length_append]

/-- With the last fragment the message is complete. -/
theorem deframe_completed {last : Bytes} {n : Nat} (bs : List Bytes) (hn : messageSize b = some n)
    (hfit : n ≤ HEADER_SIZE + MAX_HANDSHAKE_SIZE) (hlt : b.length + bs.flatten.length < n)
    (hlast : b.length + bs.flatten.length + last.length = n) :
    deframe none (plains ((b :: bs).map .ofFragment ++ [.ofFragment last])) ≠ none := by
  rw [plains, List.map_append, ← plains,
    deframe_append _ _ _ _ (deframe_front bs hn hfit hlt).1, List.map_singleton,
    deframe_handshake rfl]
  show Option.map _ (resume (some (.TLSv1_2, b ++ bs.flatten ++ last)) []) ≠ none
  have hjoined : messageSize (b ++ bs.flatten ++ last) = some n := by
    rw [List.append_assoc]
    exact messageSize_append hn _
  have hlen : (b ++ bs.flatten ++ last).length = n := by
    rw [List.length_append, List.length_append, hlast]
  have hflush : flush (b ++ bs.flatten ++ last).length .TLSv1_2 (b ++ bs.flatten ++ last) ≠ none := by
    rw [flush_eq, hjoined]
    simp only [List.drop_eq_nil_of_le hlen.le, hlen]
    rw [if_neg (not_lt.mpr hfit), if_pos le_rfl]
    exact Option.some_ne_none _
  cases hq : flush (b ++ bs.flatten ++ last).length .TLSv1_2 (b ++ bs.flatten ++ last) with
  | none => exact absurd hq hflush
  | some q =>
    simp only [resume, hq, deframe, Option.map_some]
    exact Option.some_ne_none _

theorem complete_prefix (ws : List OpaqueMessage) (w : OpaqueMessage) :
    complete (wireOf ws).length (ws ++ [w]) = ws := by
  induction ws with
  | nil =>
    have hw := w.length_encode
    simp only [OpaqueMessage.HEADER_SIZE] at hw
    rw [List.nil_append, complete, if_neg (by show ¬w.encode.length ≤ 0; omega)]
  | cons x ws ih =>
    rw [wireOf_cons, List.length_append, List.cons_append, complete, if_pos (Nat.le_add_right _ _),
      Nat.add_sub_cancel_left, ih]

/-- Bytes of a body. -/
def zeros (n : Nat) : Bytes := List.replicate n 0

theorem length_zeros (n : Nat) : (zeros n).length = n := List.length_replicate

/-- The first fragment of a message with a body of 65535 bytes, the next three, and the last. -/
def firstFragment : Bytes := [1, 0, 0xff, 0xff] ++ zeros 16380

def nextFragments : List Bytes := [zeros 16384, zeros 16384, zeros 16384]

def largestMessage : List HandshakeRecord :=
  (firstFragment :: nextFragments ++ [zeros 3]).map .ofFragment

theorem messageSize_firstFragment : messageSize firstFragment = some 65539 :=
  messageSize_append (b := [1, 0, 0xff, 0xff]) rfl _

theorem length_firstFragment : firstFragment.length = 16384 := by
  rw [firstFragment, List.length_append, length_zeros]
  rfl

theorem length_nextFragments : nextFragments.flatten.length = 49152 := by
  simp only [nextFragments, List.length_flatten, List.map_cons, List.map_nil, length_zeros,
    List.sum_cons, List.sum_nil]
  rfl

theorem largest_message_jams :
    Opens .new largestMessage ∧ deframe none (plains largestMessage) ≠ none ∧
      ¬NeverJams .new largestMessage := by
  have hfirst := length_firstFragment
  have hnext := length_nextFragments
  have hsize := messageSize_firstFragment
  obtain ⟨hfront, hheld⟩ := deframe_front nextFragments hsize (by decide) (by omega)
  have hopens : Opens .new largestMessage := by
    refine opens_ofFragment fun b hb => ?_
    have hmax : OpaqueMessage.MAX_PAYLOAD.toNat = 18432 := rfl
    have hlen : 0 < b.length ∧ b.length < 18432 := by
      simp only [nextFragments, List.cons_append, List.nil_append, List.mem_cons,
        List.not_mem_nil, or_false] at hb
      rcases hb with rfl | rfl | rfl | rfl | rfl <;> simp only [hfirst, length_zeros] <;> decide
    exact ⟨List.ne_nil_of_length_pos hlen.1, hmax ▸ hlen.2⟩
  -- four records, and the message is not complete
  obtain ⟨front, hfrontdef⟩ : ∃ front : List HandshakeRecord,
      front = (firstFragment :: nextFragments).map .ofFragment := ⟨_, rfl⟩
  have hsplit : largestMessage = front ++ [.ofFragment (zeros 3)] := by
    rw [largestMessage, List.map_append, hfrontdef]
    rfl
  rw [← hfrontdef] at hfront hheld
  have hfits : deframe none (plains largestMessage) ≠ none := by
    rw [hsplit, hfrontdef]
    exact deframe_completed nextFragments hsize (by decide) (by omega)
      (by rw [hfirst, hnext, length_zeros])
  refine ⟨hopens, hfits, fun h => ?_⟩
  have hwires : wires largestMessage =
      wires front ++ [(HandshakeRecord.ofFragment (zeros 3)).wire] := by
    rw [hsplit]
    exact List.map_append
  have harrived : arrived (wireOf (wires front)).length largestMessage = front := by
    rw [arrived, hwires, complete_prefix, hsplit, wires, List.length_map, List.take_left]
  have hbuffered : bufferedAt (wireOf (wires front)).length largestMessage =
      (wireOf (wires front)).length := by
    rw [bufferedAt, harrived, Nat.sub_self, Nat.add_zero, hheld]
  have hlen : (wireOf (wires front)).length = 65556 := by
    have hrecord : ∀ b : Bytes, (HandshakeRecord.ofFragment b).wire.encode.length = 5 + b.length :=
      fun b => OpaqueMessage.length_encode _
    simp only [hfrontdef, nextFragments, List.map_cons, List.map_nil, wires, wireOf_cons,
      List.length_append, hrecord, hfirst, length_zeros]
    rfl
  have hle : (wireOf (wires front)).length ≤ (wireOf (wires largestMessage)).length := by
    rw [hwires, wireOf_append, List.length_append]
    exact Nat.le_add_right _ _
  have hroom := hasRoom_of_neverJams hopens hfits h _ hle ⟨[], _, harrived ▸ hfront⟩
  rw [hbuffered, hlen] at hroom
  exact absurd hroom (by decide)

end TeaclaveCrates.Rustls
