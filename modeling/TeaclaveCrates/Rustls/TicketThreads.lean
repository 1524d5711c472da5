import TeaclaveCrates.Rustls.Ticketer

namespace TeaclaveCrates.Rustls

open TeaclaveCrates.Lib TicketSwitcherState

/-!
# rustls — tickets of several threads

A `TicketSwitcher` that several threads call at once: a call reads the clock, enters the first
critical section of `maybe_roll`, generates keys without the lock, and enters the second one.

* `SharedSwitcher` — the state behind the lock, and how far each call has come;
* `SharedSwitcher.step` — one step of one call, at a time of the clock;
* `Rolled` — what a critical section does to the keys that decrypt;
* `Alive` — the invariant of a ticket: its key is still there, or its lifetime is over;
* `decrypt_returned` — what comes back within the lifetime of a ticket accepts it.
-/

variable {T : Type}

/-- How far a call has come, with the time it has read. -/
inductive Phase (T : Type)
  | idle
  | begun (now : TimeBase) (action : Action)
  /-- Behind the first critical section, with the first of two new keys once it is there. -/
  | generating (now : TimeBase) (action : Action) (areRecovering : Bool) (next : Option T)
  | installing (now : TimeBase) (action : Action) (next : T) (newCurrent : Option T)
  | failed
  | returned (now : TimeBase) (action : Action) (result : Option Bytes)

/-- The switcher, the clock and the calls. -/
structure SharedSwitcher (T : Type) where
  state : TicketSwitcherState T
  clock : TimeBase
  calls : Nat → Phase T

/-- A step of a call. -/
inductive Event (T : Type)
  | begin (id : Nat) (action : Action)
  | enter (id : Nat)
  | generate (id : Nat) (outcome : Option T)
  | install (id : Nat)

namespace SharedSwitcher

/-- A new switcher, which nobody has called. -/
def new (lifetime : Nat) (now : TimeBase) (next current : T) : SharedSwitcher T :=
  ⟨TicketSwitcherState.new lifetime now next current, now, fun _ => .idle⟩

/-- The call comes to a phase, and leaves the state behind it. -/
def move (c : SharedSwitcher T) (time : TimeBase) (id : Nat) (phase : Phase T)
    (state : TicketSwitcherState T) : SharedSwitcher T :=
  ⟨state, time, Function.update c.calls id phase⟩

section Steps

variable (tickets : ProducesTickets T) (lifetime : Nat)

/-- The next step of a call, if it is one that this call can take. -/
def stepCall (c : SharedSwitcher T) (time : TimeBase) : Event T → Option (SharedSwitcher T)
  | .begin id action =>
    match c.calls id with
    | .idle => some (c.move time id (.begun time action) c.state)
    | _ => none
  | .enter id =>
    match c.calls id with
    | .begun now action =>
      match startRoll lifetime now c.state with
      | (.ready, s) => some (c.move time id (.returned now action (s.perform tickets action)) s)
      | (.generate areRecovering, s) =>
        some (c.move time id (.generating now action areRecovering none) s)
    | _ => none
  | .generate id outcome =>
    match c.calls id, outcome with
    | .generating _ _ _ _, none => some (c.move time id .failed c.state)
    | .generating now action false _, some next =>
      some (c.move time id (.installing now action next none) c.state)
    -- recovering, the call generates the next key first and then the current one
    | .generating now action true none, some next =>
      some (c.move time id (.generating now action true (some next)) c.state)
    | .generating now action true (some next), some newCurrent =>
      some (c.move time id (.installing now action next (some newCurrent)) c.state)
    | _, _ => none
  | .install id =>
    match c.calls id with
    | .installing now action next newCurrent =>
      let s := finishRoll lifetime now next newCurrent c.state
      some (c.move time id (.returned now action (s.perform tickets action)) s)
    | _ => none

/-- A step at a time that is not before the last one. -/
def step (c : SharedSwitcher T) (event : TimeBase × Event T) : Option (SharedSwitcher T) :=
  if c.clock.asSecs ≤ event.1.asSecs then c.stepCall tickets lifetime event.1 event.2 else none

/-- Steps of any calls in any order. -/
def run (c : SharedSwitcher T) (events : List (TimeBase × Event T)) : Option (SharedSwitcher T) :=
  events.foldlM (step tickets lifetime) c

end Steps

/-- The call comes back in this step. -/
def Returns (c c' : SharedSwitcher T) (id : Nat) (now : TimeBase) (action : Action)
    (result : Option Bytes) : Prop :=
  c.calls id ≠ c'.calls id ∧ c'.calls id = .returned now action result

/-! ### The critical sections -/

/-- The keys that decrypt are as they were, or the current one was replaced after the time of the
    next switch. -/
def Rolled (lifetime : Nat) (now : TimeBase) (s s' : TicketSwitcherState T) : Prop :=
  s'.current = s.current ∧ s'.previous = s.previous ∧ s'.nextSwitchTime = s.nextSwitchTime ∨
    s.nextSwitchTime < now.asSecs ∧ s'.previous = some s.current ∧
      s'.nextSwitchTime = saturatingAdd now.asSecs lifetime

variable {tickets : ProducesTickets T} {lifetime : Nat} {s s' : TicketSwitcherState T}
  {now : TimeBase} {c c' : SharedSwitcher T}

theorem le_saturatingAdd (now : TimeBase) (lifetime : Nat) :
    now.asSecs ≤ saturatingAdd now.asSecs lifetime := by
  have := now.lt
  unfold saturatingAdd
  omega

theorem Rolled.refl : Rolled lifetime now s s := .inl ⟨rfl, rfl, rfl⟩

theorem Rolled.nextSwitchTime_le (h : Rolled lifetime now s s') :
    s.nextSwitchTime ≤ s'.nextSwitchTime := by
  rcases h with ⟨-, -, h⟩ | ⟨hlt, -, h⟩
  · exact h.ge
  · exact h ▸ hlt.le.trans (le_saturatingAdd now lifetime)

theorem startRoll_rolled {start : RollStart} (h : startRoll lifetime now s = (start, s')) :
    Rolled lifetime now s s' := by
  unfold startRoll at h
  split at h
  · cases h
    exact .refl
  · next hdue =>
    split at h
    · cases h
      exact .inr ⟨Nat.lt_of_not_le hdue, rfl, rfl⟩
    · cases h
      exact .refl

/-- Unless the call is recovering, the next switch is not due for it behind the section. -/
theorem startRoll_le {start : RollStart} (h : startRoll lifetime now s = (start, s'))
    (hstart : start ≠ .generate true) : now.asSecs ≤ s'.nextSwitchTime := by
  unfold startRoll at h
  split at h
  · next hle =>
    cases h
    exact hle
  · split at h
    · cases h
      exact le_saturatingAdd now lifetime
    · cases h
      exact absurd rfl hstart

theorem finishRoll_rolled (now : TimeBase) (next : T) (newCurrent : Option T)
    (s : TicketSwitcherState T) :
    Rolled lifetime now s (finishRoll lifetime now next newCurrent s) := by
  cases newCurrent with
  | none => exact .inl ⟨rfl, rfl, rfl⟩
  | some newCurrent =>
    simp only [finishRoll]
    split
    · next hlt => exact .inr ⟨hlt, rfl, rfl⟩
    · exact .inl ⟨rfl, rfl, rfl⟩

theorem finishRoll_le (next : T) {newCurrent : Option T}
    (h : newCurrent = none → now.asSecs ≤ s.nextSwitchTime) :
    now.asSecs ≤ (finishRoll lifetime now next newCurrent s).nextSwitchTime := by
  cases newCurrent with
  | none => exact h rfl
  | some newCurrent =>
    simp only [finishRoll]
    split
    · exact le_saturatingAdd now lifetime
    · next hle => exact Nat.le_of_not_lt hle

/-! ### Steps -/

/-- The time of a call is not ahead of the clock; and the next switch is not due for a call that has
    made one. -/
def OnTime (c : SharedSwitcher T) : Phase T → Prop
  | .begun now _ => now.asSecs ≤ c.clock.asSecs
  | .generating now _ areRecovering _ => now.asSecs ≤ c.clock.asSecs ∧
      (areRecovering = false → now.asSecs ≤ c.state.nextSwitchTime)
  | .installing now _ _ newCurrent => now.asSecs ≤ c.clock.asSecs ∧
      (newCurrent = none → now.asSecs ≤ c.state.nextSwitchTime)
  | _ => True

/-- The invariant of the calls. -/
def Timely (c : SharedSwitcher T) : Prop := ∀ id, c.OnTime (c.calls id)

theorem timely_new (lifetime : Nat) (now : TimeBase) (next current : T) :
    (new lifetime now next current).Timely := fun _ => trivial

variable {time : TimeBase}

variable {phase : Phase T}

theorem Timely.move (h : c.Timely) {id : Nat} (hclock : c.clock.asSecs ≤ time.asSecs)
    (hswitch : c.state.nextSwitchTime ≤ s'.nextSwitchTime)
    (hphase : (c.move time id phase s').OnTime phase) : (c.move time id phase s').Timely := by
  intro id'
  by_cases heq : id' = id
  · subst heq
    simpa [SharedSwitcher.move] using hphase
  · have hold := h id'
    simp only [SharedSwitcher.move, Function.update_of_ne heq]
    cases hcall : c.calls id' with
    | begun now action =>
      rw [hcall] at hold
      exact hold.trans hclock
    | generating now action areRecovering next =>
      rw [hcall] at hold
      exact ⟨hold.1.trans hclock, fun hrecover => (hold.2 hrecover).trans hswitch⟩
    | installing now action next newCurrent =>
      rw [hcall] at hold
      exact ⟨hold.1.trans hclock, fun hnone => (hold.2 hnone).trans hswitch⟩
    | _ => trivial

/-- What a step does: to the state no more than one critical section, for a call of an earlier time;
    and a call that comes back has used the state it leaves, before its next switch is due. -/
structure Steps (tickets : ProducesTickets T) (lifetime : Nat) (c c' : SharedSwitcher T)
    (time : TimeBase) : Prop where
  clock : c.clock.asSecs ≤ time.asSecs ∧ c'.clock = time
  rolled : ∃ now : TimeBase, now.asSecs ≤ time.asSecs ∧ Rolled lifetime now c.state c'.state
  timely : c'.Timely
  returned : ∀ {id now action result}, c.Returns c' id now action result →
    result = c'.state.perform tickets action ∧ now.asSecs ≤ c'.state.nextSwitchTime

theorem Steps.of_move (h : c.Timely) {id : Nat} (hclock : c.clock.asSecs ≤ time.asSecs)
    (hnow : now.asSecs ≤ time.asSecs) (hrolled : Rolled lifetime now c.state s')
    (hphase : (c.move time id phase s').OnTime phase)
    (hreturned : ∀ {now action result}, phase = .returned now action result →
      result = s'.perform tickets action ∧ now.asSecs ≤ s'.nextSwitchTime) :
    Steps tickets lifetime c (c.move time id phase s') time where
  clock := ⟨hclock, rfl⟩
  rolled := ⟨now, hnow, hrolled⟩
  timely := h.move hclock hrolled.nextSwitchTime_le hphase
  returned := by
    rintro id' now action result ⟨hne, heq⟩
    by_cases hid : id' = id
    · subst hid
      exact hreturned (by simpa [SharedSwitcher.move] using heq)
    · exact absurd (by simp [SharedSwitcher.move, Function.update_of_ne hid]) hne

/-- A step without the lock. -/
theorem Steps.of_unlocked (h : c.Timely) {id : Nat} (hclock : c.clock.asSecs ≤ time.asSecs)
    (hphase : (c.move time id phase c.state).OnTime phase)
    (hrunning : ∀ now action result, phase ≠ .returned now action result) :
    Steps tickets lifetime c (c.move time id phase c.state) time :=
  .of_move h hclock (le_refl time.asSecs) .refl hphase fun heq => absurd heq (hrunning _ _ _)

theorem stepCall_steps (h : c.Timely) (hclock : c.clock.asSecs ≤ time.asSecs) {event : Event T}
    (hstep : c.stepCall tickets lifetime time event = some c') :
    Steps tickets lifetime c c' time := by
  cases event with
  | begin id action =>
    simp only [stepCall] at hstep
    split at hstep
    · cases hstep
      exact .of_unlocked h hclock (le_refl time.asSecs) (by simp)
    · cases hstep
  | enter id =>
    simp only [stepCall] at hstep
    split at hstep
    · next now action hcall =>
      have hnow : now.asSecs ≤ c.clock.asSecs := by
        have hon := h id
        rwa [hcall] at hon
      split at hstep
      · next s hstart =>
        cases hstep
        refine .of_move h hclock (hnow.trans hclock) (startRoll_rolled hstart) trivial fun heq => ?_
        cases heq
        exact ⟨rfl, startRoll_le hstart (by simp)⟩
      · next areRecovering s hstart =>
        cases hstep
        refine .of_move h hclock (hnow.trans hclock) (startRoll_rolled hstart)
          ⟨hnow.trans hclock, fun hrecover => startRoll_le hstart ?_⟩ fun heq => by cases heq
        simp [hrecover]
    · cases hstep
  | generate id outcome =>
    simp only [stepCall] at hstep
    have hon := h id
    split at hstep
    · cases hstep
      exact .of_unlocked h hclock trivial (by simp)
    · next hcall =>
      cases hstep
      rw [hcall] at hon
      exact .of_unlocked h hclock ⟨hon.1.trans hclock, fun _ => hon.2 rfl⟩ (by simp)
    · next hcall =>
      cases hstep
      rw [hcall] at hon
      exact .of_unlocked h hclock ⟨hon.1.trans hclock, hon.2⟩ (by simp)
    · next hcall =>
      cases hstep
      rw [hcall] at hon
      exact .of_unlocked h hclock ⟨hon.1.trans hclock, fun hnone => by cases hnone⟩ (by simp)
    · cases hstep
  | install id =>
    simp only [stepCall] at hstep
    have hon := h id
    split at hstep
    · next now action next newCurrent hcall =>
      cases hstep
      rw [hcall] at hon
      refine .of_move h hclock (hon.1.trans hclock) (finishRoll_rolled now next newCurrent c.state)
        trivial fun heq => ?_
      cases heq
      exact ⟨rfl, finishRoll_le next hon.2⟩
    · cases hstep

/-- **Step.** -/
theorem step_steps (h : c.Timely) {event : TimeBase × Event T}
    (hstep : c.step tickets lifetime event = some c') :
    Steps tickets lifetime c c' event.1 := by
  unfold step at hstep
  split at hstep
  · next hclock => exact stepCall_steps h hclock hstep
  · cases hstep

variable {events : List (TimeBase × Event T)}

theorem run_timely (h : c.Timely) (hrun : c.run tickets lifetime events = some c') : c'.Timely := by
  induction events generalizing c with
  | nil =>
    cases hrun
    exact h
  | cons event events ih =>
    obtain ⟨c₁, hstep, hrest⟩ := Option.bind_eq_some_iff.mp hrun
    exact ih (step_steps h hstep).timely hrest

/-! ### A key -/

/-- A key that a ticket was encrypted with at some time can decrypt it, until it is over. -/
def Alive (lifetime : Nat) (issued : TimeBase) (key : T) (c : SharedSwitcher T) : Prop :=
  c.state.current = key ∧ issued.asSecs ≤ c.state.nextSwitchTime ∨
    c.state.previous = some key ∧
      (∀ now : TimeBase, c.state.nextSwitchTime < now.asSecs →
        issued.asSecs + lifetime < now.asSecs) ∨
    issued.asSecs + lifetime < c.clock.asSecs

variable {issued : TimeBase} {key : T}

theorem Alive.step (h : Alive lifetime issued key c) (hstep : Steps tickets lifetime c c' time) :
    Alive lifetime issued key c' := by
  obtain ⟨hclock, rfl⟩ := hstep.clock
  obtain ⟨now, hnow, hcurrent, hprevious, htime⟩ | ⟨now, hnow, hdue, hprevious, htime⟩ := by
    simpa only [Rolled, and_or_left, exists_or] using hstep.rolled
  · unfold Alive
    rw [hcurrent, hprevious, htime]
    exact h.imp_right (Or.imp_right fun hover => hover.trans_le hclock)
  · rcases h with ⟨hkey, hissued⟩ | ⟨-, hover⟩ | hover
    · -- the current key becomes the previous one
      refine .inr (.inl ⟨hprevious.trans (congrArg some hkey), fun later hlater => ?_⟩)
      rw [htime, saturatingAdd] at hlater
      have := later.lt
      omega
    · exact .inr (.inr ((hover now hdue).trans_le hnow))
    · exact .inr (.inr (hover.trans_le hclock))

theorem Alive.run (h : Alive lifetime issued key c) (htimely : c.Timely)
    (hrun : c.run tickets lifetime events = some c') :
    Alive lifetime issued key c' := by
  induction events generalizing c with
  | nil =>
    cases hrun
    exact h
  | cons event events ih =>
    obtain ⟨c₁, hstep, hrest⟩ := Option.bind_eq_some_iff.mp hrun
    have hsteps := step_steps htimely hstep
    exact ih (h.step hsteps) hsteps.timely hrest

/-- **Tickets stay usable.** Whatever steps the calls take, a ticket that an `encrypt` has returned
    is accepted by every `decrypt` that comes back, without failing to roll, within the lifetime
    after the time that the `encrypt` has read. -/
theorem decrypt_returned (hopens : tickets.Opens) {start : TimeBase} {next current : T}
    {before between : List (TimeBase × Event T)} {issue present : TimeBase × Event T}
    {c₀ c₁ c₂ c₃ : SharedSwitcher T} {id id' : Nat} {now' : TimeBase}
    {random message ticket : Bytes} {result : Option Bytes}
    (hbefore : (new lifetime start next current).run tickets lifetime before = some c₀)
    (hissue : c₀.step tickets lifetime issue = some c₁)
    (hticket : c₀.Returns c₁ id issued (.encrypt random message) (some ticket))
    (hbetween : c₁.run tickets lifetime between = some c₂)
    (hpresent : c₂.step tickets lifetime present = some c₃)
    (hresult : c₂.Returns c₃ id' now' (.decrypt ticket) result)
    (hin : present.1.asSecs ≤ issued.asSecs + lifetime) : result.isSome := by
  have hsteps₁ := step_steps (run_timely (timely_new lifetime start next current) hbefore) hissue
  obtain ⟨hencrypt, hissued⟩ := hsteps₁.returned hticket
  have hsteps₃ := step_steps (run_timely hsteps₁.timely hbetween) hpresent
  obtain ⟨rfl, -⟩ := hsteps₃.returned hresult
  have halive : Alive lifetime issued c₁.state.current c₁ := .inl ⟨rfl, hissued⟩
  have hopened := hopens _ _ _ _ hencrypt.symm
  rcases (halive.run hsteps₁.timely hbetween).step hsteps₃ with ⟨hkey, -⟩ | ⟨hkey, -⟩ | hover
  · simp [perform, hkey, hopened]
  · simp [perform, hkey, hopened]
  · rw [hsteps₃.clock.2] at hover
    omega

/-- A `decrypt` that makes the switch, and accepts the ticket with the key that is the previous one
    from then on. -/
theorem decrypt_returned_switched :
    let at₅ : TimeBase := ⟨5, by decide⟩
    let at₁₁ : TimeBase := ⟨11, by decide⟩
    let start : SharedSwitcher UInt8 := new 10 ⟨0, by decide⟩ 2 1
    ∃ c₁ c₂ result,
      start.run keyTickets 10 [(at₅, .begin 0 (.encrypt [] [])), (at₅, .enter 0),
        (at₁₁, .begin 1 (.decrypt [1])), (at₁₁, .enter 1), (at₁₁, .generate 1 (some 3))] =
          some c₁ ∧
      c₁.step keyTickets 10 (at₁₁, .install 1) = some c₂ ∧
      c₁.Returns c₂ 1 at₁₁ (.decrypt [1]) result ∧ result.isSome := by
  intro at₅ at₁₁ start
  refine ⟨_, _, _, rfl, rfl, ⟨fun h => (by cases h), rfl⟩, ?_⟩
  have hopens : keyTickets.Opens := fun key random message ticket h => by
    cases h
    simp [keyTickets]
  exact @decrypt_returned _ keyTickets 10 at₅ hopens ⟨0, by decide⟩ 2 1
    [(at₅, .begin 0 (.encrypt [] []))]
    [(at₁₁, .begin 1 (.decrypt [1])), (at₁₁, .enter 1), (at₁₁, .generate 1 (some 3))]
    (at₅, .enter 0) (at₁₁, .install 1) _ _ _ _ 0 1 at₁₁ [] [] [1] _
    rfl rfl ⟨fun h => (by cases h), rfl⟩ rfl rfl ⟨fun h => (by cases h), rfl⟩ (by decide)

/-- **A slow call.** A `decrypt` that reads the clock within the lifetime of the ticket makes the
    switch and generates the next key for so long that another call switches as well: the ticket is
    rejected. -/
theorem slow_decrypt_rejected :
    let at₀ : TimeBase := ⟨0, by decide⟩
    let at₅ : TimeBase := ⟨5, by decide⟩
    let at₁₁ : TimeBase := ⟨11, by decide⟩
    let at₂₂ : TimeBase := ⟨22, by decide⟩
    let start : SharedSwitcher UInt8 := new 10 at₀ 2 1
    ∃ c₁ c₂ c₃,
      start.run keyTickets 10 [(at₅, .begin 0 (.encrypt [] []))] = some c₁ ∧
      c₁.step keyTickets 10 (at₅, .enter 0) = some c₂ ∧
      c₁.Returns c₂ 0 at₅ (.encrypt [] []) (some [1]) ∧
      c₂.run keyTickets 10 [(at₁₁, .begin 1 (.decrypt [1])), (at₁₁, .enter 1),
        (at₂₂, .begin 2 (.decrypt [1])), (at₂₂, .enter 2), (at₂₂, .generate 2 (some 3)),
        (at₂₂, .generate 2 (some 4)), (at₂₂, .install 2), (at₂₂, .generate 1 (some 5)),
        (at₂₂, .install 1)] = some c₃ ∧
      c₃.calls 1 = .returned at₁₁ (.decrypt [1]) none :=
  ⟨_, _, _, rfl, rfl, ⟨fun h => (by cases h), rfl⟩, rfl, rfl⟩

end SharedSwitcher

end TeaclaveCrates.Rustls
