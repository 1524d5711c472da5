import TeaclaveCrates.Tonic.Framing

namespace TeaclaveCrates.Tonic

open TeaclaveCrates.Lib

/-!
# tonic — streams that have failed

After an error a `Streaming` should have nothing more to say. It does so in its state `Error`, which
only an error of the body leads to.

* `Quiet` — whatever the body does, no poll gives a message or an error any more;
* `BodyFails` — the poll comes to an error of the body, before all else;
* `quiet_iff` — a stream is quiet in its state `Error` only;
* `failed_iff` — after which errors a stream stays failed.
-/

variable {HeaderMap D Item : Type}

section Polls

variable (gz : Gzip) (fromHeaderMap : HeaderMap → Option Status) (dec : Decoder D Item)

/-- The results of one poll after the other, each with what the body answers then. -/
def polls : Streaming HeaderMap D → List (Body HeaderMap) →
    List (Poll (Option (Except Status Item)))
  | _, [] => []
  | s, body :: bodies =>
    let r := s.pollNext gz fromHeaderMap dec body
    r.1 :: polls r.2.2 bodies

/-- No poll gives a message or an error. -/
def Quiet (s : Streaming HeaderMap D) : Prop :=
  ∀ bodies, ∀ result ∈ polls gz fromHeaderMap dec s bodies, ∀ item, result ≠ .ready (some item)

/-- With these answers a poll comes to an error of the body, and no message is complete before. A
    request that was cancelled is over without an error. -/
inductive BodyFails : Streaming HeaderMap D → List BodyEvent → Prop
  | now {s s' status events} (hlive : s.inner.state ≠ .error)
      (hdecode : s.decodeChunk gz dec = (.ok none, s'))
      (hkind : ¬(s'.inner.direction = .request ∧ status.code = .cancelled)) :
      BodyFails s (.error status :: events)
  | later {s s' chunk events} (hlive : s.inner.state ≠ .error)
      (hdecode : s.decodeChunk gz dec = (.ok none, s'))
      (hrest : BodyFails { s' with inner := { s'.inner with buf := s'.inner.buf ++ chunk } } events) :
      BodyFails s (.data chunk :: events)

end Polls

variable {gz : Gzip} {fromHeaderMap : HeaderMap → Option Status} {dec : Decoder D Item}
  {s s' : Streaming HeaderMap D} {body body' : Body HeaderMap}

/-! ### The state after an error -/

/-- Decoding does not lead to the state `Error`. -/
theorem takeBody_state (gz : Gzip) (s : StreamingInner HeaderMap) :
    (s.takeBody gz).2.state = s.state := by
  unfold StreamingInner.takeBody
  split
  · split
    · rfl
    · split
      · rfl
      · split
        · rfl
        · split <;> rfl
  · rfl

theorem takeHeader_state {s : StreamingInner HeaderMap} (hlive : s.state ≠ .error) :
    s.takeHeader.2.state ≠ .error := by
  unfold StreamingInner.takeHeader
  split
  · exact hlive
  · dsimp only
    split
    · exact hlive
    · simp

theorem innerDecodeChunk_state (gz : Gzip) {s : StreamingInner HeaderMap}
    (hlive : s.state ≠ .error) :
    (s.decodeChunk gz).2.state ≠ .error := by
  unfold StreamingInner.decodeChunk
  split
  · split
    · exact hlive
    · have hheader := takeHeader_state hlive
      split
      · next heq =>
        rw [heq] at hheader
        exact hheader
      · next heq =>
        rw [heq] at hheader
        rwa [takeBody_state]
  · rwa [takeBody_state]

theorem decodeChunk_state (gz : Gzip) (dec : Decoder D Item) (hlive : s.inner.state ≠ .error) :
    (s.decodeChunk gz dec).2.inner.state ≠ .error := by
  have hinner := innerDecodeChunk_state gz hlive
  unfold Streaming.decodeChunk
  split
  · next heq =>
    rw [heq] at hinner
    exact hinner
  · next heq =>
    rw [heq] at hinner
    exact hinner
  · next view inner heq =>
    rw [heq] at hinner
    dsimp only
    split <;> split <;> first | exact hinner | simp

/-- The trailers do not change the state. -/
theorem pollResponse_state (fromHeaderMap : HeaderMap → Option Status)
    (s : StreamingInner HeaderMap) (body : Body HeaderMap) :
    (s.pollResponse fromHeaderMap body).2.2.state = s.state := by
  unfold StreamingInner.pollResponse
  split
  · split
    · rfl
    · split
      · rfl
      · split <;> rfl
  · rfl

theorem finish_state (body : Body HeaderMap) :
    (s.finish fromHeaderMap body : Poll (Option (Except Status Item)) × _ × _).2.2.inner.state =
      s.inner.state := by
  have hstate := pollResponse_state fromHeaderMap s.inner body
  unfold Streaming.finish
  split
  all_goals
    next heq =>
      rw [heq] at hstate
      exact hstate

/-- A poll that gives an error comes to an error of the body, or leaves the stream alive. -/
theorem pollLoop_error {status : Status} (events : List BodyEvent) (hlive : s.inner.state ≠ .error)
    (h : s.pollLoop gz fromHeaderMap dec body events = (.ready (some (.error status)), body', s')) :
    BodyFails gz dec s events ∧ s'.inner.state = .error ∨
      ¬BodyFails gz dec s events ∧ s'.inner.state ≠ .error := by
  induction events generalizing s with
  | nil =>
    refine .inr ⟨fun hfails => (by cases hfails), ?_⟩
    rw [Streaming.pollLoop, if_neg hlive] at h
    have hstate := decodeChunk_state gz dec hlive
    rcases hdecode : s.decodeChunk gz dec with ⟨_ | _ | item, s₁⟩
    · rw [hdecode] at h hstate
      cases h
      exact hstate
    · rw [hdecode] at h hstate
      dsimp only [StreamingInner.pollData] at h
      split_ifs at h
      · cases h
        exact hstate
      · have hfinish := @finish_state HeaderMap D Item fromHeaderMap s₁
          { body with events := [] }
        dsimp only at h hfinish
        rw [h] at hfinish
        exact hfinish ▸ hstate
    · rw [hdecode] at h
      cases h
  | cons event events ih =>
    rw [Streaming.pollLoop, if_neg hlive] at h
    have hstate := decodeChunk_state gz dec hlive
    rcases hdecode : s.decodeChunk gz dec with ⟨_ | _ | item, s₁⟩
    · rw [hdecode] at h hstate
      cases h
      refine .inr ⟨fun hfails => ?_, hstate⟩
      cases hfails with
      | now _ hnone => cases hdecode.symm.trans hnone
      | later _ hnone => cases hdecode.symm.trans hnone
    · rw [hdecode] at h hstate
      cases event with
      | pending => cases h
      | data chunk =>
        -- the chunk is taken, and the loop goes on
        refine (ih (s := { s₁ with inner := { s₁.inner with buf := s₁.inner.buf ++ chunk } })
          hstate h).imp (And.imp_left (.later hlive hdecode)) (And.imp_left fun hnot hfails => ?_)
        cases hfails with
        | later _ hnone hrest =>
          cases hdecode.symm.trans hnone
          exact hnot hrest
      | error status' =>
        dsimp only [StreamingInner.pollData] at h
        split_ifs at h with hkind
        · have hfinish := @finish_state HeaderMap D Item fromHeaderMap s₁
            { body with events := events }
          dsimp only at h hfinish
          rw [h] at hfinish
          refine .inr ⟨fun hfails => ?_, hfinish ▸ hstate⟩
          cases hfails with
          | now _ hnone hother =>
            cases hdecode.symm.trans hnone
            exact hother hkind
        · cases h
          exact .inl ⟨.now hlive hdecode hkind, rfl⟩
    · rw [hdecode] at h
      cases h

/-! ### Quiet streams -/

theorem pollNext_failed (h : s.inner.state = .error) (body : Body HeaderMap) :
    s.pollNext gz fromHeaderMap dec body = (.ready none, body, s) := by
  rw [Streaming.pollNext, Streaming.pollLoop, if_pos h]

/-- **Quiet** is a stream in its state `Error` only: any other gives the next error of the body, or
    something else before. -/
theorem quiet_iff : Quiet gz fromHeaderMap dec s ↔ s.inner.state = .error := by
  constructor
  · intro h
    by_contra hlive
    have hpoll := h [⟨[.error (.internal "")], 0, .ok none⟩] _ List.mem_cons_self
    rw [Streaming.pollNext, Streaming.pollLoop, if_neg hlive] at hpoll
    rcases hdecode : s.decodeChunk gz dec with ⟨status | _ | item, s₁⟩
    · rw [hdecode] at hpoll
      exact hpoll _ rfl
    · rw [hdecode] at hpoll
      have hkind : ¬(s₁.inner.direction = .request ∧ (Status.internal "").code = .cancelled) :=
        fun h => by cases h.2
      dsimp only [StreamingInner.pollData] at hpoll
      rw [if_neg hkind] at hpoll
      exact hpoll _ rfl
    · rw [hdecode] at hpoll
      exact hpoll _ rfl
  · intro h bodies
    induction bodies with
    | nil => exact fun result hresult => by cases hresult
    | cons body bodies ih =>
      intro result hresult item
      rw [polls, pollNext_failed h] at hresult
      rcases List.mem_cons.mp hresult with rfl | hresult
      · exact fun heq => by cases heq
      · exact ih result hresult item

/-- **Failed streams.** After a poll that has given an error no later poll gives a message or an
    error, whatever the body does, if and only if the error is one of the body. -/
theorem failed_iff {status : Status}
    (h : s.pollNext gz fromHeaderMap dec body = (.ready (some (.error status)), body', s')) :
    Quiet gz fromHeaderMap dec s' ↔ BodyFails gz dec s body.events := by
  have hlive : s.inner.state ≠ .error := fun hfailed => by
    rw [pollNext_failed hfailed] at h
    cases h
  rw [quiet_iff]
  rcases pollLoop_error body.events hlive h with ⟨hfails, hstate⟩ | ⟨hfails, hstate⟩
  · exact iff_of_true hstate hfails
  · exact iff_of_false hstate hfails

/-- A request, and a body that ends inside of a header. -/
def cutStream : Streaming Unit Unit := Streaming.new () .request none none

@[inherit_doc cutStream]
def cutBody : Body Unit := ⟨[.data [0]], 0, .ok none⟩

/-- A compressor that leaves everything as it is. -/
def identityGzip : Gzip := ⟨fun b => (b, .ok ()), fun b => (b, .ok ())⟩

theorem failed_iff_cut :
    Quiet identityGzip (fun _ => none) rawDecoder
        (cutStream.pollNext identityGzip (fun _ => none) rawDecoder cutBody).2.2 ↔
      BodyFails identityGzip rawDecoder cutStream cutBody.events :=
  failed_iff rfl

/-- The error comes again with every poll. -/
theorem eof_repeated :
    let first := cutStream.pollNext identityGzip (fun _ => none) rawDecoder cutBody
    let second := first.2.2.pollNext identityGzip (fun _ => none) rawDecoder first.2.1
    first.1 = .ready (some (.error (.internal "Unexpected EOF decoding stream."))) ∧
      second.1 = .ready (some (.error (.internal "Unexpected EOF decoding stream."))) ∧
      ¬Quiet identityGzip (fun _ => none) rawDecoder first.2.2 := by
  intro first second
  exact ⟨rfl, rfl, fun h => h [first.2.1] _ List.mem_cons_self _ rfl⟩

end TeaclaveCrates.Tonic
