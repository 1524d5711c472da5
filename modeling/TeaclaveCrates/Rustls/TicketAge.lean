import Mathlib.Data.UInt
import TeaclaveCrates.Rustls.Ticketer

namespace TeaclaveCrates.Rustls

/-!
# rustls — the age of a ticket

`persist.rs`: a client sends the age of the ticket it resumes with, in milliseconds and with an
offset that only the server knows; the server compares it with the age by its own clock.

* `ClientSessionCommon`, `Tls13ClientSessionValue`, `Retrieved` — what the client has stored;
* `ServerSessionValue` — what the server has stored, and how fresh it is;
* `Comparable` — the ages for which 32 bits are enough;
* `ageSurvives_iff` — when the server sees the difference of the two ages.
-/

/-- `MAX_TICKET_LIFETIME`, in seconds. -/
def MAX_TICKET_LIFETIME : Nat := 7 * 24 * 60 * 60

def MAX_FRESHNESS_SKEW_MS : UInt32 := 60 * 1000

/-! ### The client -/

/-- `ClientSessionCommon`, the times. -/
structure ClientSessionCommon where
  epoch : Nat
  lifetimeSecs : Nat

/-- `ClientSessionCommon::new`. -/
def ClientSessionCommon.new (timeNow : TimeBase) (lifetimeSecs : UInt32) : ClientSessionCommon :=
  ⟨timeNow.asSecs, min lifetimeSecs.toNat MAX_TICKET_LIFETIME⟩

/-- `Tls13ClientSessionValue`, its times and the offset. -/
structure Tls13ClientSessionValue where
  ageAdd : UInt32
  common : ClientSessionCommon

/-- `Tls13ClientSessionValue::new`. -/
def Tls13ClientSessionValue.new (timeNow : TimeBase) (lifetimeSecs ageAdd : UInt32) :
    Tls13ClientSessionValue :=
  ⟨ageAdd, .new timeNow lifetimeSecs⟩

/-- `Retrieved`. -/
structure Retrieved where
  value : Tls13ClientSessionValue
  retrievedAt : TimeBase

namespace Retrieved

/-- The age in seconds. -/
def ageSecs (r : Retrieved) : Nat := r.retrievedAt.asSecs - r.value.common.epoch

/-- `obfuscated_ticket_age`; `none` is the overflow of the product. -/
def obfuscatedTicketAge (r : Retrieved) : Option UInt32 :=
  let ageSecs := UInt32.ofNat r.ageSecs
  if ageSecs.toNat * 1000 < 2 ^ 32 then
    some (ageSecs * 1000 + r.value.ageAdd)
  else
    none

/-- `has_expired`: with a lifetime of 0 never. -/
def hasExpired (r : Retrieved) : Bool :=
  r.value.common.lifetimeSecs ≠ 0 ∧
    saturatingAdd r.value.common.epoch r.value.common.lifetimeSecs < r.retrievedAt.asSecs

end Retrieved

/-! ### The server -/

/-- `ServerSessionValue`, its time, the offset and the freshness. -/
structure ServerSessionValue where
  creationTimeSec : Nat
  ageObfuscationOffset : UInt32
  freshness : Option Bool

namespace ServerSessionValue

/-- `ServerSessionValue::new`. -/
def new (creationTime : TimeBase) (ageObfuscationOffset : UInt32) : ServerSessionValue :=
  ⟨creationTime.asSecs, ageObfuscationOffset, none⟩

/-- `u32::saturating_mul`. -/
def saturatingMul (a b : UInt32) : UInt32 := UInt32.ofNat (min (a.toNat * b.toNat) (2 ^ 32 - 1))

/-- `set_freshness`. -/
def setFreshness (v : ServerSessionValue) (obfuscatedClientAgeMs : UInt32) (timeNow : TimeBase) :
    ServerSessionValue :=
  let clientAgeMs := obfuscatedClientAgeMs - v.ageObfuscationOffset
  let serverAgeMs := saturatingMul (UInt32.ofNat (timeNow.asSecs - v.creationTimeSec)) 1000
  let ageDifference :=
    if clientAgeMs < serverAgeMs then serverAgeMs - clientAgeMs else clientAgeMs - serverAgeMs
  { v with freshness := some (ageDifference ≤ MAX_FRESHNESS_SKEW_MS) }

/-- `is_fresh`. -/
def isFresh (v : ServerSessionValue) : Bool := v.freshness.getD false

end ServerSessionValue

/-! ### Ages -/

/-- Two ages differ by a minute at most. -/
def Near (a b : Nat) : Prop := a ≤ b + 60 ∧ b ≤ a + 60

/-- The ages, in seconds, of a ticket for the client and for the server are told apart by what is left
    of them in 32 bits, and the client's has room for its milliseconds. -/
structure Comparable (client server : Nat) : Prop where
  room : client % 2 ^ 32 ≤ 4294967
  near : Near client server → client / 2 ^ 32 = server / 2 ^ 32
  far : ¬Near client server → ¬(server % 2 ^ 32 ≤ 4294967 ∧ Near (client % 2 ^ 32) (server % 2 ^ 32))
  /-- The server's age is cut off at the greatest number of milliseconds. -/
  cut : ¬Near client server → ¬(4294967 < server % 2 ^ 32 ∧ 4294908 ≤ client % 2 ^ 32)

/-- The 32 bits are enough for the ages of a ticket that does not expire, or, for one that does, for
    the server's. -/
def Carries (lifetimeSecs : UInt32) (client server : Nat) : Prop :=
  if lifetimeSecs = 0 then Comparable client server
  else Near client (server % 2 ^ 32) → Near client server

/-- A ticket that expires is not older than a week. -/
theorem ageSecs_le {timeNow retrievedAt : TimeBase} {lifetimeSecs ageAdd : UInt32}
    (h : (⟨.new timeNow lifetimeSecs ageAdd, retrievedAt⟩ : Retrieved).hasExpired = false)
    (hlifetime : lifetimeSecs ≠ 0) :
    retrievedAt.asSecs - timeNow.asSecs ≤ MAX_TICKET_LIFETIME := by
  have hpos : 0 < lifetimeSecs.toNat :=
    Nat.pos_of_ne_zero fun hzero => hlifetime (UInt32.toNat_inj.mp hzero)
  have hmax : 0 < MAX_TICKET_LIFETIME := by decide
  have hfresh := of_decide_eq_false h
  simp only [Tls13ClientSessionValue.new, ClientSessionCommon.new, saturatingAdd] at hfresh
  omega

theorem comparable_iff {client server : Nat} (hclient : client ≤ MAX_TICKET_LIFETIME) :
    Comparable client server ↔ (Near client (server % 2 ^ 32) → Near client server) := by
  have hsmall : client < 2 ^ 32 := hclient.trans_lt (by decide)
  have hmod : client % 2 ^ 32 = client := Nat.mod_eq_of_lt hsmall
  have hweek : MAX_TICKET_LIFETIME = 604800 := rfl
  constructor
  · intro h hnear
    by_contra hfar
    refine h.far hfar ⟨?_, hmod.symm ▸ hnear⟩
    unfold Near at hnear
    omega
  · intro h
    refine ⟨by omega, fun hnear => ?_, fun hfar hlike => hfar (h (hmod ▸ hlike.2)), fun _ => by omega⟩
    unfold Near at hnear
    omega

/-! ### The comparison -/

/-- What the server makes of the ages, in milliseconds. -/
theorem isFresh_setFreshness (offset age : UInt32) {creationTime timeNow : TimeBase} {server : Nat}
    (hmin : server = min ((timeNow.asSecs - creationTime.asSecs) % 2 ^ 32 * 1000) (2 ^ 32 - 1)) :
    ((ServerSessionValue.new creationTime offset).setFreshness (age + offset) timeNow).isFresh ↔
      age.toNat ≤ server + 60000 ∧ server ≤ age.toNat + 60000 := by
  set serverMs := ServerSessionValue.saturatingMul
    (UInt32.ofNat (timeNow.asSecs - creationTime.asSecs)) 1000 with hms
  have hserver : serverMs.toNat = server := by
    rw [hms, hmin, ServerSessionValue.saturatingMul, UInt32.toNat_ofNat', UInt32.toNat_ofNat']
    exact Nat.mod_eq_of_lt (by omega)
  have hfresh : ((ServerSessionValue.new creationTime offset).setFreshness (age + offset)
      timeNow).isFresh = decide ((if age < serverMs then serverMs - age else age - serverMs) ≤
        MAX_FRESHNESS_SKEW_MS) := by
    simp [ServerSessionValue.isFresh, ServerSessionValue.setFreshness, ServerSessionValue.new, hms]
  have hskew : MAX_FRESHNESS_SKEW_MS.toNat = 60000 := rfl
  rw [hfresh, decide_eq_true_eq, UInt32.le_iff_toNat_le, hskew, ← hserver]
  split
  · next hlt =>
    rw [UInt32.toNat_sub_of_le _ _ (UInt32.le_of_lt hlt)]
    have := UInt32.lt_iff_toNat_lt.mp hlt
    omega
  · next hge =>
    have hle := UInt32.le_iff_toNat_le.mp (UInt32.not_lt.mp hge)
    rw [UInt32.toNat_sub_of_le _ _ (UInt32.le_iff_toNat_le.mpr hle)]
    omega

/-- The age survives the offset: it is computed without overflow, and the server takes the session
    for fresh when the two ages differ by a minute at most. -/
def AgeSurvives (r : Retrieved) (creationTime serverNow : TimeBase) : Prop :=
  ∃ age, r.obfuscatedTicketAge = some age ∧
    (((ServerSessionValue.new creationTime r.value.ageAdd).setFreshness age serverNow).isFresh ↔
      Near r.ageSecs (serverNow.asSecs - creationTime.asSecs))

theorem ageSurvives_iff_comparable (r : Retrieved) (creationTime serverNow : TimeBase) :
    AgeSurvives r creationTime serverNow ↔
      Comparable r.ageSecs (serverNow.asSecs - creationTime.asSecs) := by
  have hsecs : (UInt32.ofNat r.ageSecs).toNat = r.ageSecs % 2 ^ 32 := UInt32.toNat_ofNat'
  unfold AgeSurvives Retrieved.obfuscatedTicketAge
  dsimp only
  rw [hsecs]
  by_cases hroom : r.ageSecs % 2 ^ 32 * 1000 < 2 ^ 32
  · have hms : (UInt32.ofNat r.ageSecs * 1000).toNat = r.ageSecs % 2 ^ 32 * 1000 := by
      rw [UInt32.toNat_mul, hsecs]
      exact Nat.mod_eq_of_lt hroom
    simp only [if_pos hroom, Option.some.injEq, exists_eq_left',
      isFresh_setFreshness r.value.ageAdd _ rfl, hms]
    constructor
    · intro h
      unfold Near at h
      refine ⟨by omega, fun hnear => ?_, fun hfar hlike => ?_, fun hfar hcut => ?_⟩
      · unfold Near at hnear
        omega
      · unfold Near at hfar hlike
        omega
      · unfold Near at hfar
        omega
    · rintro ⟨-, hnear, hfar, hcut⟩
      unfold Near at *
      omega
  · rw [if_neg hroom]
    refine iff_of_false (fun ⟨_, hnone, _⟩ => by cases hnone) fun h => ?_
    have := h.room
    omega

/-- **Ticket ages.** For a ticket that has not expired the age survives the offset if and only if 32
    bits are enough for the ages. -/
theorem ageSurvives_iff {timeNow retrievedAt : TimeBase} {lifetimeSecs ageAdd : UInt32}
    (h : (⟨.new timeNow lifetimeSecs ageAdd, retrievedAt⟩ : Retrieved).hasExpired = false)
    (creationTime serverNow : TimeBase) :
    AgeSurvives ⟨.new timeNow lifetimeSecs ageAdd, retrievedAt⟩ creationTime serverNow ↔
      Carries lifetimeSecs (retrievedAt.asSecs - timeNow.asSecs)
        (serverNow.asSecs - creationTime.asSecs) := by
  rw [ageSurvives_iff_comparable, Carries]
  split
  · exact Iff.rfl
  · next hlifetime => exact comparable_iff (ageSecs_le h hlifetime)

theorem ageSurvives_iff_minute :
    AgeSurvives ⟨.new ⟨0, by decide⟩ 3600 7, ⟨60, by decide⟩⟩ ⟨0, by decide⟩ ⟨61, by decide⟩ ↔
      Carries 3600 60 61 :=
  ageSurvives_iff (by decide) _ _

/-- A ticket with a lifetime of 0 does not expire, and after seven weeks its milliseconds overflow. -/
theorem lifetime_zero_overflows :
    let r : Retrieved := ⟨.new ⟨0, by decide⟩ 0 7, ⟨4294968, by decide⟩⟩
    r.hasExpired = false ∧ r.obfuscatedTicketAge = none ∧
      ¬AgeSurvives r ⟨0, by decide⟩ ⟨4294968, by decide⟩ := by
  intro r
  have hover : r.obfuscatedTicketAge = none := by decide
  refine ⟨by decide, hover, ?_⟩
  rintro ⟨age, hsome, -⟩
  rw [hover] at hsome
  cases hsome

end TeaclaveCrates.Rustls
