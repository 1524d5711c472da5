import Mathlib.Data.List.Nodup
import TeaclaveCrates.Lib.Bytes

namespace TeaclaveCrates.Rustls

open TeaclaveCrates.Lib

/-!
# rustls — tickets and their keys

`ticketer.rs`: a `TicketSwitcher` encrypts tickets with a current key and still decrypts those of
the previous one. A call that comes after the time of the next switch replaces the keys.

* `ProducesTickets` — the sub-ticketers, whose encryption lives outside the repository;
* `startRoll`, `finishRoll` — the two critical sections of `maybe_roll`;
* `maybeRoll`, `performCall` — a call that is not interrupted by another, and a run of calls;
* `KeyAge` — where a key is after some switches;
* `expires_iff` — when the tickets of a run expire.
-/

/-- `TimeBase`, in whole seconds. -/
structure TimeBase where
  asSecs : Nat
  lt : asSecs < 2 ^ 64

/-- `u64::saturating_add`. -/
def saturatingAdd (a b : Nat) : Nat := min (a + b) (2 ^ 64 - 1)

/-- The sub-ticketers `T`, with the randomness that an encryption draws. -/
structure ProducesTickets (T : Type) where
  encrypt : T → Bytes → Bytes → Option Bytes
  decrypt : T → Bytes → Option Bytes

/-- What a ticketer encrypts, it can decrypt. -/
def ProducesTickets.Opens {T : Type} (tickets : ProducesTickets T) : Prop :=
  ∀ key random message ticket, tickets.encrypt key random message = some ticket →
    (tickets.decrypt key ticket).isSome

/-- No other ticketer can: the tickets are authenticated. -/
def ProducesTickets.Authentic {T : Type} (tickets : ProducesTickets T) : Prop :=
  ∀ key random message ticket, tickets.encrypt key random message = some ticket →
    ∀ key', key' ≠ key → tickets.decrypt key' ticket = none

variable {T : Type}

/-- `TicketSwitcherState`. -/
structure TicketSwitcherState (T : Type) where
  next : Option T
  current : T
  previous : Option T
  nextSwitchTime : Nat

/-- What a call asks of the switcher, once it has the state. -/
inductive Action
  | encrypt (random message : Bytes)
  | decrypt (ciphertext : Bytes)

namespace TicketSwitcherState

/-- `TicketSwitcher::new`, with what the generator gave. -/
def new (lifetime : Nat) (now : TimeBase) (next current : T) : TicketSwitcherState T :=
  ⟨some next, current, none, saturatingAdd now.asSecs lifetime⟩

/-- `encrypt` and `decrypt` with the state at hand. -/
def perform (tickets : ProducesTickets T) (s : TicketSwitcherState T) : Action → Option Bytes
  | .encrypt random message => tickets.encrypt s.current random message
  | .decrypt ciphertext =>
    (tickets.decrypt s.current ciphertext).or
      (s.previous.bind fun previous => tickets.decrypt previous ciphertext)

/-- Where the first critical section of `maybe_roll` leads. -/
inductive RollStart
  | ready
  | generate (areRecovering : Bool)

/-- The first critical section: the switch, if it is due and the next key is there. -/
def startRoll (lifetime : Nat) (now : TimeBase) (s : TicketSwitcherState T) :
    RollStart × TicketSwitcherState T :=
  if now.asSecs ≤ s.nextSwitchTime then
    (.ready, s)
  else
    match s.next with
    | some next => (.generate false, ⟨none, next, some s.current, saturatingAdd now.asSecs lifetime⟩)
    | none => (.generate true, s)

/-- The second one, with a new current key where the call is recovering. -/
def finishRoll (lifetime : Nat) (now : TimeBase) (next : T) (newCurrent : Option T)
    (s : TicketSwitcherState T) : TicketSwitcherState T :=
  match newCurrent with
  | none => { s with next := some next }
  | some newCurrent =>
    -- another call may have switched since
    if s.nextSwitchTime < now.asSecs then
      ⟨some next, newCurrent, some s.current, saturatingAdd now.asSecs lifetime⟩
    else
      { s with next := some next }

end TicketSwitcherState

open TicketSwitcherState

/-! ### Calls one after the other -/

/-- A call: its time, what the generator gives if it is asked once or twice, and the action. -/
structure Call (T : Type) where
  now : TimeBase
  generated : Option T × Option T
  action : Action

/-- `maybe_roll`: whether it comes back with the state. -/
def maybeRoll (lifetime : Nat) (call : Call T) (s : TicketSwitcherState T) :
    Bool × TicketSwitcherState T :=
  match startRoll lifetime call.now s with
  | (.ready, s) => (true, s)
  | (.generate areRecovering, s) =>
    match call.generated with
    | (none, _) => (false, s)
    | (some next, second) =>
      if areRecovering then
        match second with
        | none => (false, s)
        | some newCurrent => (true, finishRoll lifetime call.now next (some newCurrent) s)
      else
        (true, finishRoll lifetime call.now next none s)

/-- `TicketSwitcher::encrypt` and `TicketSwitcher::decrypt`. -/
def performCall (tickets : ProducesTickets T) (lifetime : Nat) (s : TicketSwitcherState T)
    (call : Call T) : Option Bytes :=
  let (rolled, s) := maybeRoll lifetime call s
  if rolled then s.perform tickets call.action else none

/-- The state after the calls. -/
def runCalls (lifetime : Nat) (s : TicketSwitcherState T) (calls : List (Call T)) :
    TicketSwitcherState T :=
  calls.foldl (fun s call => (maybeRoll lifetime call s).2) s

/-- The call makes a switch: it is due, and a new current key is there or can be generated. -/
def Switches (s : TicketSwitcherState T) (call : Call T) : Prop :=
  s.nextSwitchTime < call.now.asSecs ∧
    (s.next.isSome ∨ call.generated.1.isSome ∧ call.generated.2.isSome)

/-- The call fails to roll: a switch is due, and a key that is needed cannot be generated. -/
def FailsToRoll (s : TicketSwitcherState T) (call : Call T) : Prop :=
  s.nextSwitchTime < call.now.asSecs ∧
    (call.generated.1 = none ∨ s.next = none ∧ call.generated.2 = none)

instance (s : TicketSwitcherState T) (call : Call T) : Decidable (Switches s call) :=
  inferInstanceAs (Decidable (_ ∧ _))

/-- How many of the calls make a switch. -/
def switches (lifetime : Nat) : TicketSwitcherState T → List (Call T) → Nat
  | _, [] => 0
  | s, call :: calls =>
    (if Switches s call then 1 else 0) + switches lifetime (maybeRoll lifetime call s).2 calls

/-! ### One call -/

section Calls

variable {lifetime : Nat} {s : TicketSwitcherState T} {call : Call T}

theorem maybeRoll_of_not_switches (h : ¬Switches s call) : (maybeRoll lifetime call s).2 = s := by
  unfold maybeRoll startRoll
  split_ifs with hdue
  · rfl
  · have hlt := Nat.lt_of_not_le hdue
    cases hnext : s.next with
    | some next => exact absurd ⟨hlt, .inl (by rw [hnext]; rfl)⟩ h
    | none =>
      obtain ⟨now, ⟨first, second⟩, action⟩ := call
      cases first with
      | none => rfl
      | some first =>
        cases second with
        | none => rfl
        | some second => exact absurd ⟨hlt, .inr ⟨rfl, rfl⟩⟩ h

/-- **A switch**: the current key becomes the previous one, and the new keys are those at hand. -/
theorem maybeRoll_of_switches (lifetime : Nat) (h : Switches s call) :
    let s' := (maybeRoll lifetime call s).2
    s'.previous = some s.current ∧
      (s.next = some s'.current ∧ (s'.next = none ∨ s'.next = call.generated.1) ∨
        s.next = none ∧ call.generated.2 = some s'.current ∧ s'.next = call.generated.1) := by
  obtain ⟨hdue, hkey⟩ := h
  obtain ⟨now, ⟨first, second⟩, action⟩ := call
  unfold maybeRoll startRoll
  rw [if_neg (Nat.not_le_of_lt hdue)]
  cases hnext : s.next with
  | some next =>
    cases first with
    | none => exact ⟨rfl, .inl ⟨rfl, .inl rfl⟩⟩
    | some first => exact ⟨rfl, .inl ⟨rfl, .inr rfl⟩⟩
  | none =>
    rw [hnext] at hkey
    obtain ⟨hfirst, hsecond⟩ := hkey.resolve_left Bool.false_ne_true
    obtain ⟨first, rfl⟩ := Option.isSome_iff_exists.mp hfirst
    obtain ⟨second, rfl⟩ := Option.isSome_iff_exists.mp hsecond
    dsimp only
    rw [if_pos rfl, finishRoll]
    rw [if_pos hdue]
    exact ⟨rfl, .inr ⟨rfl, rfl, rfl⟩⟩

theorem maybeRoll_fst (h : ¬FailsToRoll s call) : (maybeRoll lifetime call s).1 = true := by
  unfold maybeRoll startRoll
  split_ifs with hdue
  · rfl
  · have hlt := Nat.lt_of_not_le hdue
    obtain ⟨now, ⟨first, second⟩, action⟩ := call
    cases first with
    | none => exact absurd ⟨hlt, .inl rfl⟩ h
    | some first =>
      cases hnext : s.next with
      | some next => rfl
      | none =>
        cases second with
        | none => exact absurd ⟨hlt, .inr ⟨hnext, rfl⟩⟩ h
        | some second => rfl

theorem maybeRoll_fst_of_fails (h : FailsToRoll s call) :
    (maybeRoll lifetime call s).1 = false := by
  obtain ⟨hdue, hkey⟩ := h
  obtain ⟨now, ⟨first, second⟩, action⟩ := call
  unfold maybeRoll startRoll
  rw [if_neg (Nat.not_le_of_lt hdue)]
  cases first with
  | none => cases s.next <;> rfl
  | some first =>
    obtain ⟨hnext, rfl⟩ := hkey.resolve_left (Option.some_ne_none _)
    rw [hnext]
    rfl

/-! ### The age of a key -/

/-- The keys that the generator gives to a call. -/
def Call.keys (call : Call T) : List T := call.generated.1.toList ++ call.generated.2.toList

/-- The keys that tickets are or will be encrypted with. -/
def TicketSwitcherState.keys (s : TicketSwitcherState T) : List T := s.current :: s.next.toList

/-- No key comes twice. -/
theorem nodup_keys_step {calls : List (Call T)}
    (h : (s.keys ++ (call :: calls).flatMap Call.keys).Nodup) :
    ((maybeRoll lifetime call s).2.keys ++ calls.flatMap Call.keys).Nodup := by
  rw [List.flatMap_cons, ← List.append_assoc] at h
  by_cases hswitch : Switches s call
  · -- the new keys are some of those that are there or come
    have hsub : ∃ l, (maybeRoll lifetime call s).2.keys.Perm l ∧ l.Sublist (s.keys ++ call.keys) := by
      obtain ⟨-, hkeys⟩ := maybeRoll_of_switches lifetime hswitch
      unfold TicketSwitcherState.keys Call.keys
      rcases hkeys with ⟨hnext, hnone | hfirst⟩ | ⟨hnext, hsecond, hfirst⟩
      · rw [hnone, hnext]
        exact ⟨_, .refl _, .cons _ (List.sublist_append_left [_] _)⟩
      · rw [hfirst, hnext]
        exact ⟨_, .refl _, .cons _ (.cons_cons _ (List.sublist_append_left _ _))⟩
      · rw [hfirst, hsecond]
        exact ⟨_, (List.perm_append_singleton _ _).symm, List.sublist_append_right _ _⟩
    obtain ⟨l, hperm, hsub⟩ := hsub
    exact (hperm.append_right _).nodup_iff.mpr (h.sublist (hsub.append_right _))
  · rw [maybeRoll_of_not_switches hswitch]
    exact h.sublist ((List.sublist_append_left _ _).append_right _)

theorem nodup_keys_run {calls rest : List (Call T)}
    (h : (s.keys ++ (calls ++ rest).flatMap Call.keys).Nodup) :
    ((runCalls lifetime s calls).keys ++ rest.flatMap Call.keys).Nodup := by
  induction calls generalizing s with
  | nil => exact h
  | cons call calls ih => exact ih (nodup_keys_step h)

/-- Where a key is, as many switches after it became the current one. -/
def KeyAge (key : T) (s : TicketSwitcherState T) (n : Nat) : Prop :=
  s.next ≠ some key ∧ (s.current = key ↔ n = 0) ∧ (n ≠ 0 → (s.previous = some key ↔ n = 1))

theorem KeyAge.step {key : T} {n : Nat} (h : KeyAge key s n) (hnew : key ∉ call.keys) :
    KeyAge key (maybeRoll lifetime call s).2 (n + if Switches s call then 1 else 0) := by
  obtain ⟨hnext, hcurrent, hprevious⟩ := h
  split
  · next hswitch =>
    obtain ⟨hprev, hkeys⟩ := maybeRoll_of_switches lifetime hswitch
    have hfirst : call.generated.1 ≠ some key := fun heq => hnew (by simp [Call.keys, heq])
    have hsecond : call.generated.2 ≠ some key := fun heq => hnew (by simp [Call.keys, heq])
    refine ⟨?_, ?_, fun _ => ?_⟩
    · rcases hkeys with ⟨-, hnone | heq⟩ | ⟨-, -, heq⟩
      · rw [hnone]
        exact Option.some_ne_none _ |>.symm
      · rwa [heq]
      · rwa [heq]
    · refine iff_of_false (fun heq => ?_) (Nat.succ_ne_zero n)
      rcases hkeys with ⟨hsome, -⟩ | ⟨-, hsome, -⟩
      · exact hnext (heq ▸ hsome)
      · exact hsecond (heq ▸ hsome)
    · rw [hprev, Option.some.injEq, hcurrent]
      omega
  · next hswitch =>
    rw [maybeRoll_of_not_switches hswitch]
    exact ⟨hnext, hcurrent, hprevious⟩

theorem KeyAge.run (lifetime : Nat) {key : T} {n : Nat} {calls : List (Call T)}
    (h : KeyAge key s n) (hnew : key ∉ calls.flatMap Call.keys) :
    KeyAge key (runCalls lifetime s calls) (n + switches lifetime s calls) := by
  induction calls generalizing s n with
  | nil => exact h
  | cons call calls ih =>
    rw [List.flatMap_cons, List.mem_append, not_or] at hnew
    rw [switches, ← Nat.add_assoc]
    exact ih (h.step hnew.1) hnew.2

/-- A ticketer accepts what it has encrypted until its second switch. -/
theorem KeyAge.perform_decrypt {tickets : ProducesTickets T} (hopens : tickets.Opens)
    (hauth : tickets.Authentic) {key : T} {n : Nat} (h : KeyAge key s n)
    {random message ticket : Bytes} (hissued : tickets.encrypt key random message = some ticket) :
    s.perform tickets (.decrypt ticket) = none ↔ 2 ≤ n := by
  obtain ⟨-, hcurrent, hprevious⟩ := h
  have hothers := hauth _ _ _ _ hissued
  obtain ⟨opened, hopened⟩ := Option.isSome_iff_exists.mp (hopens _ _ _ _ hissued)
  simp only [perform]
  by_cases hzero : n = 0
  · -- the key is still the current one
    rw [hcurrent.mpr hzero, hopened]
    simp [hzero]
  · rw [hothers _ fun heq => hzero (hcurrent.mp heq), Option.none_or]
    by_cases hone : n = 1
    · rw [(hprevious hzero).mpr hone, Option.bind_some, hopened]
      simp [hone]
    · refine iff_of_true ?_ (by omega)
      cases hprev : s.previous with
      | none => rfl
      | some previous =>
        refine hothers previous fun heq => hone ((hprevious hzero).mp ?_)
        rw [hprev, heq]

end Calls

/-- A ticket of the run that is decrypted later: the calls around these two. -/
structure Presented (tickets : ProducesTickets T) (lifetime : Nat) (s : TicketSwitcherState T)
    (calls : List (Call T)) where
  before : List (Call T)
  issue : Call T
  between : List (Call T)
  present : Call T
  after : List (Call T)
  calls_eq : calls = before ++ issue :: (between ++ present :: after)
  random : Bytes
  message : Bytes
  issue_action : issue.action = .encrypt random message
  ticket : Bytes
  issued : performCall tickets lifetime (runCalls lifetime s before) issue = some ticket
  present_action : present.action = .decrypt ticket

namespace Presented

variable {tickets : ProducesTickets T} {lifetime : Nat} {s : TicketSwitcherState T}
  {calls : List (Call T)}

/-- The states before and after the call that gives out the ticket, and before it is decrypted. -/
def atIssue (p : Presented tickets lifetime s calls) : TicketSwitcherState T :=
  runCalls lifetime s p.before

@[inherit_doc atIssue]
def afterIssue (p : Presented tickets lifetime s calls) : TicketSwitcherState T :=
  (maybeRoll lifetime p.issue p.atIssue).2

@[inherit_doc atIssue]
def atPresent (p : Presented tickets lifetime s calls) : TicketSwitcherState T :=
  runCalls lifetime p.afterIssue p.between

/-- The ticket is presented later than twice the lifetime. -/
def Late (p : Presented tickets lifetime s calls) : Prop :=
  p.issue.now.asSecs + 2 * lifetime < p.present.now.asSecs

/-- Two switches come between the calls, the one of the second call included. -/
def SwitchedTwice (p : Presented tickets lifetime s calls) : Prop :=
  2 ≤ switches lifetime p.afterIssue (p.between ++ [p.present])

/-- A ticket is accepted until two switches are made. -/
theorem performCall_present (hopens : tickets.Opens) (hauth : tickets.Authentic)
    (hfresh : (s.keys ++ calls.flatMap Call.keys).Nodup) (p : Presented tickets lifetime s calls) :
    performCall tickets lifetime p.atPresent p.present = none ↔
      p.SwitchedTwice ∨ FailsToRoll p.atPresent p.present := by
  by_cases hfails : FailsToRoll p.atPresent p.present
  · refine iff_of_true ?_ (.inr hfails)
    rw [performCall, ← Prod.mk.eta (p := maybeRoll _ _ _), maybeRoll_fst_of_fails hfails]
    rfl
  · -- the ticket is encrypted with the current key, which is in no other place
    have hissued := p.issued
    unfold performCall at hissued
    dsimp only at hissued
    split at hissued
    · rw [p.issue_action] at hissued
      have hkeys : (p.afterIssue.keys ++
          (p.between ++ p.present :: p.after).flatMap Call.keys).Nodup := by
        rw [p.calls_eq] at hfresh
        exact nodup_keys_step (nodup_keys_run hfresh)
      have hsplit : p.between ++ p.present :: p.after =
          (p.between ++ [p.present]) ++ p.after := by simp
      rw [hsplit, TicketSwitcherState.keys, List.cons_append, List.nodup_cons, List.mem_append,
        List.flatMap_append, List.mem_append, not_or, not_or] at hkeys
      have hage : KeyAge p.afterIssue.current p.afterIssue 0 :=
        ⟨fun heq => hkeys.1.1 (by simp [heq]), by simp, fun hne => absurd rfl hne⟩
      have hrun := hage.run lifetime hkeys.1.2.1
      rw [runCalls, List.foldl_concat, Nat.zero_add] at hrun
      have hcall : performCall tickets lifetime p.atPresent p.present =
          (maybeRoll lifetime p.present p.atPresent).2.perform tickets (.decrypt p.ticket) := by
        rw [performCall, ← p.present_action]
        dsimp only
        rw [if_pos (maybeRoll_fst hfails)]
      rw [hcall, or_iff_left hfails, SwitchedTwice]
      exact hrun.perform_decrypt hopens hauth hissued
    · cases hissued

end Presented

/-- No ticket of the run is accepted later than twice the lifetime. -/
def Expires (tickets : ProducesTickets T) (lifetime : Nat) (s : TicketSwitcherState T)
    (calls : List (Call T)) : Prop :=
  ∀ p : Presented tickets lifetime s calls, p.Late →
    performCall tickets lifetime p.atPresent p.present = none

/-- **Expiry.** In a run on a new switcher, no ticket is accepted later than twice the lifetime, if
    and only if the calls have made two switches by the time at which a ticket of that age is
    presented, or its own fails to roll. -/
theorem expires_iff {tickets : ProducesTickets T} (hopens : tickets.Opens)
    (hauth : tickets.Authentic) (lifetime : Nat) (start : TimeBase) (next current : T)
    (calls : List (Call T)) (hfresh : (current :: next :: calls.flatMap Call.keys).Nodup) :
    Expires tickets lifetime (new lifetime start next current) calls ↔
      ∀ p : Presented tickets lifetime (new lifetime start next current) calls, p.Late →
        p.SwitchedTwice ∨ FailsToRoll p.atPresent p.present :=
  forall_congr' fun p => imp_congr_right fun _ =>
    p.performCall_present hopens hauth
      (show ((new lifetime start next current).keys ++ calls.flatMap Call.keys).Nodup from hfresh)

/-- Sub-ticketers whose tickets are their keys. -/
def keyTickets : ProducesTickets UInt8 where
  encrypt key _ _ := some [key]
  decrypt key ticket := if ticket = [key] then some [] else none

/-- A ticket that comes back after a thousand seconds in which nothing else happens. -/
def quietCalls : List (Call UInt8) :=
  [⟨⟨0, by decide⟩, (none, none), .encrypt [] []⟩,
    ⟨⟨1000, by decide⟩, (some 3, none), .decrypt [1]⟩]

theorem expires_iff_quiet :
    Expires keyTickets 10 (new 10 ⟨0, by decide⟩ 2 1) quietCalls ↔
      ∀ p : Presented keyTickets 10 (new 10 ⟨0, by decide⟩ 2 1) quietCalls, p.Late →
        p.SwitchedTwice ∨ FailsToRoll p.atPresent p.present :=
  expires_iff (fun key random message ticket h => by cases h; simp [keyTickets])
    (fun key random message ticket h key' hne => by
      cases h
      simp [keyTickets, Ne.symm hne]) 10 ⟨0, by decide⟩ 2 1 quietCalls (by decide)

theorem quiet_ticket_accepted :
    ¬Expires keyTickets 10 (new 10 ⟨0, by decide⟩ 2 1) quietCalls := by
  intro h
  have hnone := h ⟨[], _, [], _, [], rfl, [], [], rfl, [1], rfl, rfl⟩
    (show 0 + 2 * 10 < 1000 by decide)
  cases hnone

end TeaclaveCrates.Rustls
