import TeaclaveCrates.Rustls.Deframing

namespace TeaclaveCrates.Rustls

open TeaclaveCrates.Lib

/-!
# rustls — deframing does not depend on how the bytes arrive

The bytes of a sequence of records reach the deframer in reads of any size, with
`pop` after each read until nothing comes.

* `complete` — the records that lie within the first bytes of the stream;
* `deliver` — a run of reads and pops;
* `read_holds` — a read adds the bytes it took to the unread ones;
* `popAll_holds` — the pops after a read return what the records at hand give;
* `deliver_eq` — a run returns exactly the messages of the records that have arrived.
-/

/-! ### Reads and pops -/

/-- The records that lie within the first `n` bytes. -/
def complete : Nat → List OpaqueMessage → List OpaqueMessage
  | _, [] => []
  | n, r :: rs =>
    if r.encode.length ≤ n then r :: complete (n - r.encode.length) rs else []

/-- `pop` until it returns no message; the messages, and the error if there was one. -/
def popAll : Nat → MessageDeframer → RecordLayer →
    Option (List Deframed × Option Error × MessageDeframer × RecordLayer)
  | 0, _, _ => none
  | fuel + 1, d, rl => do
    let (result, d, rl) ← d.pop rl
    match result with
    | .error err => return ([], some err, d, rl)
    | .ok none => return ([], none, d, rl)
    | .ok (some m) =>
      let (out, err, d, rl) ← popAll fuel d rl
      return (m :: out, err, d, rl)

/-- What has happened after some reads. -/
structure Delivery where
  delivered : Nat
  output : List Deframed
  error : Option Error
deriving DecidableEq, Repr

/-- Reads of at most the given sizes from `stream`, each followed by `pop` until
    nothing comes; stops at an error of `pop`.  `none` is a panic, a `read` that
    fails, or a `pop` loop that does not end. -/
def deliver (stream : Bytes) : List Nat → Nat → MessageDeframer → RecordLayer → Option Delivery
  | [], delivered, _, _ => some ⟨delivered, [], none⟩
  | limit :: limits, delivered, d, rl => do
    let (result, d) ← d.read (stream.drop delivered) limit
    match result with
    | .error _ => none
    | .ok newBytes =>
      let (out, err, d, rl) ← popAll (d.used + 1) d rl
      match err with
      | some err => return ⟨delivered + newBytes, out, some err⟩
      | none =>
        let rest ← deliver stream limits (delivered + newBytes) d rl
        return { rest with output := out ++ rest.output }

/-! ### The records that have arrived -/

variable {rs : List OpaqueMessage}

variable {rs' : List OpaqueMessage}

theorem Readable.of_append_right (h : Readable (rs ++ rs')) :
    Readable rs' :=
  fun r hr => h r (List.mem_append_right _ hr)

theorem length_encode_lt {r : OpaqueMessage} (h : OpaqueMessage.read r.encode = .ok (r, [])) :
    r.encode.length < OpaqueMessage.MAX_WIRE_SIZE := by
  have hsize := (OpaqueMessage.read_ok h).2.size
  rw [r.length_encode, OpaqueMessage.MAX_WIRE_SIZE]
  omega

/-- The first `n` bytes are the complete records and a tail too short for another. -/
theorem complete_spec (rs : List OpaqueMessage) :
    ∀ n, Readable rs → n ≤ (wireOf rs).length →
      ∃ tail, (wireOf rs).take n = wireOf (complete n rs) ++ tail ∧ Short tail ∧
        tail.length < OpaqueMessage.MAX_WIRE_SIZE := by
  induction rs with
  | nil =>
    intro n _ _
    refine ⟨[], by simp [wireOf, complete], ⟨.tooShortForHeader, rfl, .inl rfl⟩, by decide⟩
  | cons r rs ih =>
    intro n hread hn
    have hr := hread r (List.mem_cons_self ..)
    have hrs : Readable rs := fun r' hr' => hread r' (List.mem_cons_of_mem _ hr')
    rw [wireOf_cons, List.length_append] at hn
    rw [wireOf_cons, complete]
    by_cases hle : r.encode.length ≤ n
    · obtain ⟨tail, heq, hshort, hlt⟩ := ih (n - r.encode.length) hrs (by omega)
      refine ⟨tail, ?_, hshort, hlt⟩
      simp [hle, wireOf_cons, List.take_append, List.take_of_length_le hle, heq]
    · -- the record at the front is not complete
      have hlt : (r.encode.take n).length < r.encode.length := by rw [List.length_take]; omega
      refine ⟨r.encode.take n, ?_, ?_, lt_trans hlt (length_encode_lt hr)⟩
      · rw [if_neg hle, List.take_append_of_le_length (by omega)]
        rfl
      · refine OpaqueMessage.incremental_read.short_of_lt OpaqueMessage.consumes_read
          (x := r.encode.drop n) (a := r) (t := []) ?_ hlt
        rw [List.take_append_drop]
        exact hr

/-- With more bytes the complete records only grow. -/
theorem complete_mono (rs : List OpaqueMessage) :
    ∀ n m, n ≤ m → ∃ new, complete m rs = complete n rs ++ new := by
  induction rs with
  | nil => intro n m _; exact ⟨[], rfl⟩
  | cons r rs ih =>
    intro n m hnm
    rw [complete, complete]
    by_cases hle : r.encode.length ≤ n
    · obtain ⟨new, hnew⟩ := ih (n - r.encode.length) (m - r.encode.length) (by omega)
      refine ⟨new, ?_⟩
      simp [hle, (hle.trans hnm), hnew]
    · exact ⟨_, by rw [if_neg hle, List.nil_append]⟩

theorem complete_subset (rs : List OpaqueMessage) : ∀ n, ∀ r ∈ complete n rs, r ∈ rs := by
  induction rs with
  | nil => intro n r hr; exact hr
  | cons r₀ rs ih =>
    intro n r hr
    rw [complete] at hr
    split at hr
    · rcases List.mem_cons.mp hr with rfl | hr
      · exact List.mem_cons_self ..
      · exact List.mem_cons_of_mem _ (ih _ r hr)
    · cases hr

theorem complete_all (rs : List OpaqueMessage) : complete (wireOf rs).length rs = rs := by
  induction rs with
  | nil => rfl
  | cons r rs ih =>
    simp [wireOf_cons, complete, (Nat.le_add_right _ _), ih]

/-! ### The messages of more records -/

theorem deframe_append (rs : List OpaqueMessage) :
    ∀ (pend : Pending) (out : List Deframed) (pend' : Pending),
      deframe pend rs = some (out, .ok pend') →
      deframe pend (rs ++ rs') = (deframe pend' rs').map fun q => (out ++ q.1, q.2) := by
  induction rs with
  | nil =>
    intro pend out pend' h
    cases h
    simp
  | cons r rs ih =>
    intro pend out pend' h
    rw [List.cons_append]
    by_cases htyp : r.typ = .handshake
    · rw [deframe_handshake htyp] at h ⊢
      simp only [resume] at h ⊢
      cases hflush : flush (join pend r).2.length (join pend r).1 (join pend r).2 with
      | none => rw [hflush] at h; cases h
      | some p =>
        obtain ⟨out₁, pend₁⟩ := p
        rw [hflush] at h
        simp only at h ⊢
        cases hrest : deframe pend₁ rs with
        | none => rw [hrest] at h; cases h
        | some q =>
          obtain ⟨out₂, fin⟩ := q
          rw [hrest] at h
          cases h
          rw [ih _ _ _ hrest]
          cases deframe pend' rs' with
          | none => rfl
          | some q => simp
    · cases pend with
      | some p => rw [deframe_other_some htyp] at h; cases h
      | none =>
        rw [deframe_other_none htyp] at h ⊢
        cases hrest : deframe none rs with
        | none => rw [hrest] at h; cases h
        | some q =>
          obtain ⟨out₂, fin⟩ := q
          rw [hrest] at h
          cases h
          rw [ih _ _ _ hrest]
          cases deframe pend' rs' with
          | none => rfl
          | some q => rfl

/-- Headers within the limit stay so for fewer records. -/
theorem deframe_of_append (rs' rs : List OpaqueMessage) :
    ∀ pend : Pending, deframe pend (rs ++ rs') ≠ none → deframe pend rs ≠ none := by
  induction rs with
  | nil => intro pend _ h; cases h
  | cons r rs ih =>
    intro pend h
    rw [List.cons_append] at h
    by_cases htyp : r.typ = .handshake
    · rw [deframe_handshake htyp] at h ⊢
      simp only [resume] at h ⊢
      cases hflush : flush (join pend r).2.length (join pend r).1 (join pend r).2 with
      | none => rw [hflush] at h; exact absurd rfl h
      | some p =>
        rw [hflush] at h
        simp only at h ⊢
        have hrest : deframe p.2 rs ≠ none := ih p.2 fun hnone => by rw [hnone] at h; exact h rfl
        cases hd : deframe p.2 rs with
        | none => exact absurd hd hrest
        | some q => simp
    · cases pend with
      | some p => simp [deframe_other_some htyp]
      | none =>
        rw [deframe_other_none htyp] at h ⊢
        have hrest : deframe none rs ≠ none := ih none fun hnone => by rw [hnone] at h; exact h rfl
        cases hd : deframe none rs with
        | none => exact absurd hd hrest
        | some q => simp

variable {fin : Except Error Pending} {pend : Pending}

theorem resume_length {out : List Deframed} (h : resume pend rs = some (out, fin)) :
    out.length ≤ pend.length + (wireOf rs).length := by
  cases pend with
  | none => exact deframe_length rs none out fin h
  | some p =>
    obtain ⟨v, b⟩ := p
    simp only [resume] at h
    cases hflush : flush b.length v b with
    | none => rw [hflush] at h; cases h
    | some q =>
      obtain ⟨out₁, pend₁⟩ := q
      rw [hflush] at h
      simp only at h
      cases hrest : deframe pend₁ rs with
      | none => rw [hrest] at h; cases h
      | some q =>
        obtain ⟨out₂, fin₂⟩ := q
        rw [hrest] at h
        cases h
        have h₁ := flush_length _ _ _ _ hflush
        have h₂ := deframe_length _ _ _ _ hrest
        rw [List.length_append]
        show out₁.length + out₂.length ≤ b.length + (rs.flatMap OpaqueMessage.encode).length
        omega

/-! ### One read and its pops -/

/-- How the pops after a read end: nothing is complete any more, or an error. -/
def Stopped (tail : Bytes) (d : MessageDeframer) : Except Error Pending → Option Error → Prop
  | .ok pend, err => err = none ∧ Holds d pend tail ∧ ∀ rs, resume pend rs = deframe pend rs
  | .error e, err => err = some e

variable {tail : Bytes}

/-- **Pops.** Popping until nothing comes returns all the messages of the records at
    hand.  By induction on these messages. -/
theorem popAll_holds {rl : RecordLayer} (hrl : rl.decryptState ≠ .active) (htail : Short tail)
    (out : List Deframed) :
    ∀ (fuel : Nat) (d : MessageDeframer) (pend : Pending) (rs : List OpaqueMessage),
      out.length < fuel → Holds d pend (wireOf rs ++ tail) → Readable rs →
      resume pend rs = some (out, fin) →
      ∃ err d', popAll fuel d rl = some (out, err, d', rl) ∧ d'.used ≤ d.used ∧
        Stopped tail d' fin err := by
  induction out with
  | nil =>
    intro fuel d pend rs hfuel h hread hres
    obtain ⟨fuel, rfl⟩ : ∃ k, fuel = k + 1 := ⟨fuel - 1, by omega⟩
    obtain ⟨result, d', hpop, hle, hspec⟩ := pop_holds hrl htail h hread hres
    rw [popAll]
    simp only [hpop, Option.bind_eq_bind, Option.bind_some, Option.pure_def]
    cases result with
    | error err =>
      obtain ⟨-, rfl⟩ := hspec
      exact ⟨some err, d', rfl, hle, rfl⟩
    | ok m =>
      cases m with
      | none =>
        obtain ⟨-, pend', rfl, hholds, hopen⟩ := hspec
        exact ⟨none, d', rfl, hle, rfl, hholds, hopen⟩
      | some m =>
        obtain ⟨out', _, _, hout, -⟩ := hspec
        cases hout
  | cons m out ih =>
    intro fuel d pend rs hfuel h hread hres
    rw [List.length_cons] at hfuel
    obtain ⟨fuel, rfl⟩ : ∃ k, fuel = k + 1 := ⟨fuel - 1, by omega⟩
    obtain ⟨result, d', hpop, hle, hspec⟩ := pop_holds hrl htail h hread hres
    rw [popAll]
    simp only [hpop, Option.bind_eq_bind, Option.bind_some, Option.pure_def]
    cases result with
    | error err => cases hspec.1
    | ok m' =>
      cases m' with
      | none => cases hspec.1
      | some m' =>
        obtain ⟨out', pend', rs', hout, hholds, hread', hres'⟩ := hspec
        cases hout
        obtain ⟨err, d'', hall, hle',
          hstopped⟩ := ih fuel d' pend' rs' (by omega) hholds hread' hres'
        simp only [hall, Option.bind_some]
        exact ⟨err, d'', rfl, by omega, hstopped⟩

variable {d : MessageDeframer}

/-- The used part of the buffer is all that counts. -/
theorem Holds.rebuf {unread : Bytes} (h : Holds d pend unread) (more buf : Bytes)
    (hlen : d.used + more.length ≤ buf.length)
    (hkeep : ∀ a b, b ≤ d.used → slice buf a b = slice d.buf a b)
    (hmore : slice buf d.used (d.used + more.length) = more) :
    Holds { d with buf := buf, used := d.used + more.length } pend (unread ++ more) := by
  cases h with
  | idle herr hused hjoin hunread =>
    refine .idle herr hlen hjoin ?_
    show slice buf 0 (d.used + more.length) = unread ++ more
    rw [← slice_append (Nat.zero_le _) (Nat.le_add_right _ _) (by omega), hmore, hkeep _ _ le_rfl,
      hunread]
  | joining herr hused hjoin hquic hstart hstop hmessage hb hne hsize hunread =>
    refine .joining herr hlen hjoin hquic hstart hstop (hmessage.trans (Nat.le_add_right _ _)) ?_
      hne hsize ?_
    · rw [← hb]
      exact hkeep _ _ (by omega)
    · show slice buf _ (d.used + more.length) = unread ++ more
      rw [← slice_append hmessage (Nat.le_add_right _ _) (by omega), hmore, hkeep _ _ le_rfl,
        hunread]

theorem slice_resize {buf : Bytes} {len a b : Nat} (hbuf : b ≤ buf.length) (hlen : b ≤ len) :
    slice (MessageDeframer.resize buf len) a b = slice buf a b := by
  rw [MessageDeframer.resize, slice_of_append_left (by rw [List.length_take]; omega)]
  simp only [slice, List.drop_take, List.take_take]
  congr 1
  omega

theorem length_resize (buf : Bytes) (len : Nat) : (MessageDeframer.resize buf len).length = len := by
  rw [MessageDeframer.resize, List.length_append, List.length_take, List.length_replicate]
  omega

/-- Below the limit `prepare_read` leaves room for a byte and keeps what is in use. -/
theorem prepareRead_ok (hused : d.used ≤ d.buf.length) (hmax : d.used < d.allowMax) :
    ∃ buf, d.prepareRead = .ok { d with buf := buf } ∧ d.used < buf.length ∧
      ∀ a b, b ≤ d.used → slice buf a b = slice d.buf a b := by
  have hneed : d.used < min d.allowMax (d.used + READ_SIZE) := by
    simp only [READ_SIZE]
    omega
  have hresized : ∀ a b, b ≤ d.used →
      slice (MessageDeframer.resize d.buf (min d.allowMax (d.used + READ_SIZE))) a b =
        slice d.buf a b :=
    fun a b hb => slice_resize (by omega) (by omega)
  unfold MessageDeframer.prepareRead
  rw [if_neg (not_le.mpr hmax)]
  by_cases hgrow : min d.allowMax (d.used + READ_SIZE) > d.buf.length
  · exact ⟨_, if_pos hgrow, by rw [length_resize]; exact hneed, hresized⟩
  · rw [if_neg hgrow]
    by_cases hshrink : d.used = 0 ∨ d.buf.length > d.allowMax
    · exact ⟨_, if_pos hshrink, by rw [length_resize]; exact hneed, hresized⟩
    · exact ⟨d.buf, if_neg hshrink, by omega, fun _ _ _ => rfl⟩

/-- **Read.** A read below the limit takes some of the available bytes, at least one
    if it may, and adds them to the unread ones. -/
theorem read_holds {unread : Bytes} (h : Holds d pend unread) (hmax : d.used < d.allowMax)
    (available : Bytes) (limit : Nat) :
    ∃ k d', d.read available limit = some (.ok k, d') ∧ k ≤ available.length ∧
      (0 < limit → available ≠ [] → 0 < k) ∧ d'.used = d.used + k ∧
      Holds d' pend (unread ++ available.take k) := by
  obtain ⟨hs, hused, -⟩ := h.unread_eq
  obtain ⟨buf, hprepare, hroom, hkeep⟩ := prepareRead_ok hused hmax
  let k := min limit (min available.length (buf.length - d.used))
  have hk : (available.take k).length = k := by rw [List.length_take]; omega
  have hfit : d.used + (available.take k).length ≤ buf.length := by omega
  refine ⟨k, { d with buf := overwrite buf d.used (available.take k), used := d.used + k }, ?_,
    by omega, ?_, rfl, ?_⟩
  · simp only [MessageDeframer.read, hprepare, if_pos (le_of_lt hroom), k]
  · intro hlimit havailable
    have := List.length_pos_iff.mpr havailable
    omega
  · have := h.rebuf (available.take k) (overwrite buf d.used (available.take k))
      (by rw [length_overwrite hfit]; omega)
      (fun a b hb => by rw [slice_overwrite_before hfit hb, hkeep a b hb])
      (slice_overwrite_self hfit)
    rwa [hk] at this

/-- A deframer that holds less than a record, or less than a handshake message while
    it joins one, has room. -/
theorem Holds.used_lt_allowMax (h : Holds d pend tail) (hused : d.used < MAX_HANDSHAKE_SIZE)
    (htail : tail.length < OpaqueMessage.MAX_WIRE_SIZE) :
    d.used < d.allowMax := by
  cases h with
  | idle herr hle hjoin hunread =>
    have hlen := congrArg List.length hunread
    rw [length_slice hle] at hlen
    simp only [MessageDeframer.allowMax, hjoin, Option.isSome_none, Bool.false_eq_true, ↓reduceIte]
    omega
  | joining herr hle hjoin =>
    simpa only [MessageDeframer.allowMax, hjoin, Option.isSome_some, ↓reduceIte] using hused

/-! ### A whole delivery -/

theorem wireOf_append (rs rs' : List OpaqueMessage) :
    wireOf (rs ++ rs') = wireOf rs ++ wireOf rs' :=
  List.flatMap_append

/-- The records that `k` more bytes complete, and the tail they leave. -/
theorem complete_more (hread : Readable rs) {n k : Nat}
    (htail : (wireOf rs).take n = wireOf (complete n rs) ++ tail)
    (hk : n + k ≤ (wireOf rs).length) :
    ∃ new tail', complete (n + k) rs = complete n rs ++ new ∧ Readable new ∧
      tail ++ ((wireOf rs).drop n).take k = wireOf new ++ tail' ∧
      (wireOf rs).take (n + k) = wireOf (complete (n + k) rs) ++ tail' ∧ Short tail' ∧
      tail'.length < OpaqueMessage.MAX_WIRE_SIZE := by
  obtain ⟨new, hnew⟩ := complete_mono rs n (n + k) (Nat.le_add_right _ _)
  obtain ⟨tail', heq, hshort, hlt⟩ := complete_spec rs (n + k) hread hk
  have hreadNew : Readable (complete n rs ++ new) := by
    intro r hr
    rw [← hnew] at hr
    exact hread r (complete_subset rs _ r hr)
  refine ⟨new, tail', hnew, hreadNew.of_append_right, ?_, heq, hshort, hlt⟩
  rw [List.take_add, htail, hnew, wireOf_append, List.append_assoc, List.append_assoc] at heq
  exact List.append_cancel_left heq

/-- **Run.** From a deframer that holds what the first `delivered` bytes leave, a
    delivery goes on to return the messages of the records that arrive.  By induction
    on the reads. -/
theorem deliver_holds (hread : Readable rs) (hsize : (wireOf rs).length < MAX_HANDSHAKE_SIZE)
    (hfits : deframe none rs ≠ none) {rl : RecordLayer} (hrl : rl.decryptState ≠ .active)
    (limits : List Nat) :
    ∀ (delivered : Nat) (d : MessageDeframer) (pend : Pending) (tail : Bytes)
      (outs : List Deframed), delivered ≤ (wireOf rs).length → d.used ≤ delivered →
      (wireOf rs).take delivered = wireOf (complete delivered rs) ++ tail →
      tail.length < OpaqueMessage.MAX_WIRE_SIZE →
      deframe none (complete delivered rs) = some (outs, .ok pend) → Holds d pend tail →
      (∀ rs, resume pend rs = deframe pend rs) →
      ∃ D fin, deliver (wireOf rs) limits delivered d rl = some D ∧
        D.delivered ≤ (wireOf rs).length ∧
        deframe none (complete D.delivered rs) = some (outs ++ D.output, fin) ∧
        (∀ e, D.error = some e ↔ fin = .error e) ∧
        (D.error = none → (∀ limit ∈ limits, 0 < limit) →
          min (delivered + limits.length) (wireOf rs).length ≤ D.delivered) := by
  induction limits with
  | nil =>
    intro delivered d pend tail outs hle hused htail hlt hdeframe h hopen
    refine ⟨_, .ok pend, rfl, hle, ?_, ?_, ?_⟩
    · rw [List.append_nil]
      exact hdeframe
    · simp
    · intro _ _
      exact min_le_left _ _
  | cons limit limits ih =>
    intro delivered d pend tail outs hle hused htail hlt hdeframe h hopen
    obtain ⟨k, d₁, hreadOk, hk, hpos, hused₁, h₁⟩ :=
      read_holds h (h.used_lt_allowMax (by omega) hlt) ((wireOf rs).drop delivered) limit
    rw [List.length_drop] at hk
    obtain ⟨new, tail', hnew, hreadNew, hbytes, htail', hshort, hlt'⟩ :=
      complete_more hread htail (k := k) (by omega)
    rw [hbytes] at h₁
    -- the headers of the records that have arrived are within the limit
    have hsome : deframe none (complete (delivered + k) rs) ≠ none := by
      obtain ⟨later, hlater⟩ := complete_mono rs (delivered + k) (wireOf rs).length (by omega)
      rw [complete_all] at hlater
      refine deframe_of_append later _ none ?_
      rwa [← hlater]
    rw [hnew, deframe_append _ _ _ _ hdeframe] at hsome
    cases hq : deframe pend new with
    | none => rw [hq] at hsome; exact absurd rfl hsome
    | some q =>
      obtain ⟨out, fin⟩ := q
      have hdeframe' : deframe none (complete (delivered + k) rs) = some (outs ++ out, fin) := by
        simp [hnew, deframe_append _ _ _ _ hdeframe, hq]
      have hres : resume pend new = some (out, fin) := by rw [hopen, hq]
      have hcount : out.length < d₁.used + 1 := by
        have h₂ := resume_length hres
        have h₃ := h₁.length_le
        rw [List.length_append] at h₃
        omega
      obtain ⟨err, d₂, hall, hused₂, hstopped⟩ :=
        popAll_holds hrl hshort out (d₁.used + 1) d₁ pend new hcount h₁ hreadNew hres
      rw [deliver]
      simp only [hreadOk, hall, Option.bind_eq_bind, Option.bind_some, Option.pure_def]
      cases fin with
      | error e =>
        -- a record interrupts a handshake message: the run ends here
        obtain rfl : err = some e := hstopped
        refine ⟨_, .error e, rfl, by simp only; omega, hdeframe', ?_, ?_⟩
        · simp
        · intro hnone
          cases hnone
      | ok pend' =>
        obtain ⟨rfl, hholds, hopen'⟩ := hstopped
        obtain ⟨D, fin, hD, hDle, hDout, hDerr, hDpos⟩ :=
          ih (delivered + k) d₂ pend' tail' (outs ++ out) (by omega) (by omega) htail' hlt'
            hdeframe' hholds hopen'
        simp only [hD, Option.bind_some]
        refine ⟨_, fin, rfl, hDle, ?_, hDerr, ?_⟩
        · rw [List.append_assoc] at hDout
          exact hDout
        · intro hnone hlimits
          have hrest := hDpos hnone fun l hl => hlimits l (List.mem_cons_of_mem _ hl)
          have hstep : delivered < (wireOf rs).length → 0 < k := by
            intro hmore
            refine hpos (hlimits limit (List.mem_cons_self ..)) ?_
            rw [← List.length_pos_iff, List.length_drop]
            omega
          simp only [List.length_cons]
          omega

/-- **Delivery.** For every sequence of unencrypted records that are accepted one by
    one, of a total size below the limit, whose handshake headers are within the limit,
    and for every sequence of reads: no read fails, no `pop` panics, and what the pops
    have returned is exactly the messages of the records that have arrived, with an
    error exactly where a record interrupts a handshake message.  A read that may take
    a byte makes progress. -/
theorem deliver_eq {rs : List OpaqueMessage} (hread : Readable rs)
    (hsize : (wireOf rs).length < MAX_HANDSHAKE_SIZE) (hfits : deframe none rs ≠ none)
    {rl : RecordLayer} (hrl : rl.decryptState ≠ .active) (limits : List Nat) :
    ∃ D fin, deliver (wireOf rs) limits 0 .default rl = some D ∧
      D.delivered ≤ (wireOf rs).length ∧
      deframe none (complete D.delivered rs) = some (D.output, fin) ∧
      (∀ e, D.error = some e ↔ fin = .error e) ∧
      (D.error = none → (∀ limit ∈ limits, 0 < limit) →
        min limits.length (wireOf rs).length ≤ D.delivered) := by
  have hzero : complete 0 rs = [] := by
    cases rs with
    | nil => rfl
    | cons r rs =>
      have hr := r.length_encode
      simp only [OpaqueMessage.HEADER_SIZE] at hr
      rw [complete, if_neg (by omega)]
  obtain ⟨D, fin, hD, hle, hout, herr, hpos⟩ :=
    deliver_holds hread hsize hfits hrl limits 0 .default none [] [] (Nat.zero_le _) (Nat.zero_le _)
      (by rw [hzero]; rfl) (by decide) (by rw [hzero]; rfl)
      (.idle rfl (Nat.zero_le _) rfl rfl) (fun _ => rfl)
  refine ⟨D, fin, hD, hle, hout, herr, ?_⟩
  rw [Nat.zero_add] at hpos
  exact hpos

/-- A handshake message cut into two records, and an alert behind it. -/
def splitMessage : List OpaqueMessage :=
  [⟨.handshake, .TLSv1_2, ⟨[0x14, 0, 0]⟩⟩, ⟨.handshake, .TLSv1_2, ⟨[2, 0xaa, 0xbb]⟩⟩,
    ⟨.alert, .TLSv1_2, ⟨[2, 40]⟩⟩]

theorem deliver_eq_splitMessage :
    ∃ D fin, deliver (wireOf splitMessage) [4, 7, 100] 0 .default .new = some D ∧
      D.delivered ≤ (wireOf splitMessage).length ∧
      deframe none (complete D.delivered splitMessage) = some (D.output, fin) ∧
      (∀ e, D.error = some e ↔ fin = .error e) ∧
      (D.error = none → (∀ limit ∈ [4, 7, 100], 0 < limit) →
        min [4, 7, 100].length (wireOf splitMessage).length ≤ D.delivered) :=
  deliver_eq (by unfold Readable; decide) (by decide) (by decide) (by decide) [4, 7, 100]

end TeaclaveCrates.Rustls
