import TeaclaveCrates.Tonic.StatusHeaders
import Mathlib.Data.Nat.Digits.Defs

namespace TeaclaveCrates.Tonic

open TeaclaveCrates.Lib

/-!
# tonic — the `grpc-timeout` header

`request.rs` writes a duration into the header, and `transport/service/grpc_timeout.rs` reads it.

* `durationToGrpcTimeout`, `tryParseGrpcTimeout` — the two functions, `none` for a panic;
* `TimeoutUnit` — the units, each with its length;
* `setTimeout_spec` — what is read after a duration was written;
* `accepts_iff` — which header values are read as a timeout;
* `grpcTimeout_iff` — both, and the values with a sign in front.
-/

/-! ### Durations -/

structure Duration where
  secs : UInt64
  nanos : Fin 1000000000
deriving DecidableEq

namespace Duration

def asNanos (d : Duration) : Nat := d.secs.toNat * 1000000000 + d.nanos

def asMicros (d : Duration) : Nat := d.secs.toNat * 1000000 + d.nanos / 1000

def asMillis (d : Duration) : Nat := d.secs.toNat * 1000 + d.nanos / 1000000

def asSecs (d : Duration) : Nat := d.secs.toNat

def fromSecs (secs : UInt64) : Duration := ⟨secs, 0⟩

def fromMillis (millis : UInt64) : Duration :=
  ⟨millis / 1000, Fin.ofNat _ ((millis % 1000).toNat * 1000000)⟩

def fromMicros (micros : UInt64) : Duration :=
  ⟨micros / 1000000, Fin.ofNat _ ((micros % 1000000).toNat * 1000)⟩

def fromNanos (nanos : UInt64) : Duration :=
  ⟨nanos / 1000000000, Fin.ofNat _ (nanos % 1000000000).toNat⟩

end Duration

/-! ### Writing the header -/

/-- The number and the unit, unless the number has more than eight digits. -/
def tryFormat (duration : Duration) (unit : Char) (convert : Duration → Nat) : Option (List Char) :=
  let value := convert duration
  if 99999999 < value then none else some (decimal value ++ [unit])

/-- The most precise unit comes first. -/
def durationToGrpcTimeout (duration : Duration) : Option (List Char) :=
  tryFormat duration 'n' Duration.asNanos
    |>.or (tryFormat duration 'u' Duration.asMicros)
    |>.or (tryFormat duration 'm' Duration.asMillis)
    |>.or (tryFormat duration 'S' Duration.asSecs)
    |>.or (tryFormat duration 'M' fun d => d.asSecs / 60)
    |>.or (tryFormat duration 'H' fun d => d.asSecs / 60 / 60)

def GRPC_TIMEOUT_HEADER : HeaderName := "grpc-timeout"

/-- `Request::set_timeout`, on the headers of the request. -/
def setTimeout {H : Type} [HeaderMap H] (headers : H) (deadline : Duration) : Option H := do
  let text ← durationToGrpcTimeout deadline
  let value ← HeaderValue.fromMaybeShared (asciiBytes text)
  return HeaderMap.insert headers GRPC_TIMEOUT_HEADER value

/-! ### Reading the header -/

def SECONDS_IN_HOUR : Nat := 60 * 60

def SECONDS_IN_MINUTE : Nat := 60

/-- The bytes of a header value, each as a character. -/
def HeaderValue.text (value : HeaderValue) : List Char :=
  value.bytes.map fun b => Char.ofNat b.toNat

/-- `HeaderValue::to_str`, of visible ASCII characters and tabs. -/
def HeaderValue.toStr (value : HeaderValue) : Option (List Char) :=
  if value.bytes.all fun b => (32 ≤ b.toNat && b.toNat < 127) || b == 9 then some value.text
  else none

/-- The product of two numbers of 64 bits, `none` when it overflows. -/
def mulU64 (x y : Nat) : Option UInt64 :=
  if x * y < 2 ^ 64 then some (UInt64.ofNat (x * y)) else none

/-- The number of units as a duration, if there is such a unit. -/
def timeoutOf (timeoutUnit : List Char) (timeoutValue : Nat) : Option (Option Duration) :=
  match timeoutUnit with
  | ['H'] => (mulU64 timeoutValue SECONDS_IN_HOUR).map fun secs => some (.fromSecs secs)
  | ['M'] => (mulU64 timeoutValue SECONDS_IN_MINUTE).map fun secs => some (.fromSecs secs)
  | ['S'] => some (some (.fromSecs (UInt64.ofNat timeoutValue)))
  | ['m'] => some (some (.fromMillis (UInt64.ofNat timeoutValue)))
  | ['u'] => some (some (.fromMicros (UInt64.ofNat timeoutValue)))
  | ['n'] => some (some (.fromNanos (UInt64.ofNat timeoutValue)))
  | _ => some none

def tryParseGrpcTimeout {H : Type} [HeaderMap H] (headers : H) :
    Option (Except HeaderValue (Option Duration)) :=
  match HeaderMap.get headers GRPC_TIMEOUT_HEADER with
  | none => some (.ok none)
  | some val =>
    match val.toStr with
    | none => some (.error val)
    | some s =>
      if s = [] then some (.error val)
      else
        let timeoutValue := s.take (val.bytes.length - 1)
        let timeoutUnit := s.drop (val.bytes.length - 1)
        if 8 < timeoutValue.length then some (.error val)
        else
          match parseUnsigned (2 ^ 64) timeoutValue with
          | .error _ => some (.error val)
          | .ok timeoutValue =>
            (timeoutOf timeoutUnit timeoutValue).map fun
              | some duration => .ok (some duration)
              | none => .error val

/-! ### The units -/

inductive TimeoutUnit
  | hour
  | minute
  | second
  | millisecond
  | microsecond
  | nanosecond

namespace TimeoutUnit

def char : TimeoutUnit → Char
  | hour => 'H'
  | minute => 'M'
  | second => 'S'
  | millisecond => 'm'
  | microsecond => 'u'
  | nanosecond => 'n'

/-- The length of the unit. -/
def nanos : TimeoutUnit → Nat
  | hour => 3600000000000
  | minute => 60000000000
  | second => 1000000000
  | millisecond => 1000000
  | microsecond => 1000
  | nanosecond => 1

end TimeoutUnit

/-- What the function is to accept: one to eight digits and a unit. -/
def IsTimeout (text : List Char) : Prop :=
  ∃ digits unit, text = digits ++ [TimeoutUnit.char unit] ∧ 1 ≤ digits.length ∧ digits.length ≤ 8 ∧
    ∀ c ∈ digits, c.isDigit

/-- One to seven digits with a plus sign in front, and a unit. -/
def IsSigned (text : List Char) : Prop :=
  ∃ digits unit, text = '+' :: digits ++ [TimeoutUnit.char unit] ∧ 1 ≤ digits.length ∧
    digits.length ≤ 7 ∧ ∀ c ∈ digits, c.isDigit

theorem timeoutOf_char (unit : TimeoutUnit) {n : Nat} (h : n < 10 ^ 8) :
    ∃ d, timeoutOf [unit.char] n = some (some d) ∧ d.asNanos = n * unit.nanos := by
  cases unit with
  | hour =>
    refine ⟨.fromSecs (UInt64.ofNat (n * SECONDS_IN_HOUR)), ?_, ?_⟩
    · simp [timeoutOf, TimeoutUnit.char, mulU64, SECONDS_IN_HOUR]
      omega
    · simp [Duration.asNanos, Duration.fromSecs, SECONDS_IN_HOUR, TimeoutUnit.nanos]
      omega
  | minute =>
    refine ⟨.fromSecs (UInt64.ofNat (n * SECONDS_IN_MINUTE)), ?_, ?_⟩
    · simp [timeoutOf, TimeoutUnit.char, mulU64, SECONDS_IN_MINUTE]
      omega
    · simp [Duration.asNanos, Duration.fromSecs, SECONDS_IN_MINUTE, TimeoutUnit.nanos]
      omega
  | second =>
    refine ⟨_, rfl, ?_⟩
    simp [Duration.asNanos, Duration.fromSecs, TimeoutUnit.nanos]
    omega
  | millisecond =>
    refine ⟨_, rfl, ?_⟩
    simp [Duration.asNanos, Duration.fromMillis, TimeoutUnit.nanos]
    omega
  | microsecond =>
    refine ⟨_, rfl, ?_⟩
    simp [Duration.asNanos, Duration.fromMicros, TimeoutUnit.nanos]
    omega
  | nanosecond =>
    refine ⟨_, rfl, ?_⟩
    simp [Duration.asNanos, Duration.fromNanos, TimeoutUnit.nanos]
    omega

variable {c : Char}

theorem timeoutOf_other (h : ∀ unit : TimeoutUnit, c ≠ unit.char) (n : Nat) :
    timeoutOf [c] n = some none := by
  unfold timeoutOf
  split
  · next heq =>
    cases heq
    exact absurd rfl (h .hour)
  · next heq =>
    cases heq
    exact absurd rfl (h .minute)
  · next heq =>
    cases heq
    exact absurd rfl (h .second)
  · next heq =>
    cases heq
    exact absurd rfl (h .millisecond)
  · next heq =>
    cases heq
    exact absurd rfl (h .microsecond)
  · next heq =>
    cases heq
    exact absurd rfl (h .nanosecond)
  · rfl

/-! ### What is accepted -/

/-- What the header is read as: a number of at most eight characters, and a unit. -/
def Accepted (front : List Char) (c : Char) : Prop :=
  IsNumber front ∧ front.length ≤ 8 ∧ ∃ unit : TimeoutUnit, c = unit.char

variable {front : List Char}

theorem accepted_iff :
    Accepted front c ↔ IsTimeout (front ++ [c]) ∨ IsSigned (front ++ [c]) := by
  constructor
  · rintro ⟨⟨hne, hs⟩ | ⟨t, rfl, hne, hs⟩, hlen, unit, rfl⟩
    · exact Or.inl ⟨front, unit, rfl, List.length_pos_iff.mpr hne, hlen, hs⟩
    · refine Or.inr ⟨t, unit, rfl, List.length_pos_iff.mpr hne, ?_, hs⟩
      rw [List.length_cons] at hlen
      omega
  · rintro (⟨digits, unit, heq, hpos, hlen, hs⟩ | ⟨digits, unit, heq, hpos, hlen, hs⟩)
    · obtain ⟨rfl, hc⟩ := List.append_inj' heq rfl
      exact ⟨Or.inl ⟨List.length_pos_iff.mp hpos, hs⟩, hlen, unit, by simpa using hc⟩
    · obtain ⟨rfl, hc⟩ := List.append_inj' heq rfl
      exact ⟨Or.inr ⟨digits, rfl, List.length_pos_iff.mp hpos, hs⟩, by simp; omega, unit,
        by simpa using hc⟩

theorem not_isSigned_of_isTimeout {text : List Char} (h : IsTimeout text) : ¬ IsSigned text := by
  obtain ⟨digits, unit, rfl, hpos, -, hs⟩ := h
  rintro ⟨digits', unit', heq, -, -, -⟩
  obtain ⟨rfl, -⟩ := List.append_inj' heq rfl
  exact absurd (hs '+' (List.mem_cons_self ..)) (by decide)

theorem toNat_ofNat_byte (b : UInt8) : (Char.ofNat b.toNat).toNat = b.toNat := by
  have hlt := b.toNat_lt
  rw [Char.ofNat, dif_pos (Or.inl (by omega))]
  exact UInt32.toNat_ofNatLT

variable {value : HeaderValue}

/-- A text that is accepted is one that `to_str` returns. -/
theorem toStr_of_accepted (h : value.text = front ++ [c]) (hacc : Accepted front c) :
    value.toStr = some value.text := by
  obtain ⟨hnum, -, unit, rfl⟩ := hacc
  have hvisible : ∀ x ∈ value.text, 32 ≤ x.toNat ∧ x.toNat < 127 := by
    have hfront : ∀ x ∈ front, 32 ≤ x.toNat ∧ x.toNat < 127 := by
      have hdigit : ∀ x : Char, x.isDigit → 32 ≤ x.toNat ∧ x.toNat < 127 := by
        intro x hx
        have := toNat_of_isDigit hx
        omega
      rcases hnum with ⟨-, hs⟩ | ⟨t, rfl, -, hs⟩
      · exact fun x hx => hdigit x (hs x hx)
      · exact List.forall_mem_cons.mpr ⟨by decide, fun x hx => hdigit x (hs x hx)⟩
    rw [h]
    refine List.forall_mem_append.mpr ⟨hfront, ?_⟩
    cases unit <;> simp [TimeoutUnit.char]
  rw [HeaderValue.toStr, if_pos]
  refine List.all_eq_true.mpr fun b hb => ?_
  have := hvisible _ (List.mem_map_of_mem (f := fun b : UInt8 => Char.ofNat b.toNat) hb)
  rw [toNat_ofNat_byte] at this
  simp [this]

variable {H : Type} [HeaderMap H] {headers : H}

/-- The value is read as what it spells, and rejected when it is nothing of the kind. -/
theorem tryParse_spec (hget : HeaderMap.get headers GRPC_TIMEOUT_HEADER = some value)
    (h : value.text = front ++ [c]) :
    (Accepted front c → ∃ n d, parseUnsigned (2 ^ 64) front = .ok n ∧ n < 10 ^ 8 ∧
        timeoutOf [c] n = some (some d) ∧ tryParseGrpcTimeout headers = some (.ok (some d))) ∧
      (¬ Accepted front c → tryParseGrpcTimeout headers = some (.error value)) := by
  have hlen : value.bytes.length - 1 = front.length := by
    have := congrArg List.length h
    simp only [HeaderValue.text, List.length_map, List.length_append, List.length_singleton] at this
    omega
  have hpow : front.length ≤ 8 → 10 ^ front.length ≤ 10 ^ 8 := Nat.pow_le_pow_right (by decide)
  constructor
  · intro hacc
    have hroom : 10 ^ front.length ≤ 2 ^ 64 := (hpow hacc.2.1).trans (by decide)
    obtain ⟨n, hn, hlt⟩ := hacc.1.parseUnsigned hroom
    obtain ⟨unit, rfl⟩ := hacc.2.2
    have hn8 : n < 10 ^ 8 := by
      have := hpow hacc.2.1
      omega
    obtain ⟨d, hd, -⟩ := timeoutOf_char unit hn8
    refine ⟨n, d, hn, hn8, hd, ?_⟩
    simp only [tryParseGrpcTimeout, hget, toStr_of_accepted h hacc, h, hlen, List.take_left',
      List.drop_left', hn, hd]
    rw [if_neg (by simp), if_neg (by have := hacc.2.1; omega)]
    rfl
  · intro hacc
    unfold tryParseGrpcTimeout
    rw [hget]
    dsimp only
    split
    · rfl
    · next s hs =>
      obtain rfl : s = front ++ [c] := by
        rw [HeaderValue.toStr] at hs
        split_ifs at hs
        rw [← h]
        exact (Option.some.inj hs).symm
      rw [hlen, List.take_left', List.drop_left', if_neg (by simp)]
      · split
        · rfl
        · next hshort =>
          split
          · rfl
          · next n hn =>
            rw [timeoutOf_other]
            · rfl
            · rintro unit rfl
              exact hacc ⟨isNumber_of_parseUnsigned hn, by omega, unit, rfl⟩
      · rfl
      · rfl

/-- Nothing but numbers with a unit is read, and the sign is let through. -/
theorem accepts_iff (hget : HeaderMap.get headers GRPC_TIMEOUT_HEADER = some value) :
    ∃ outcome, tryParseGrpcTimeout headers = some outcome ∧
      ((∃ d, outcome = .ok (some d)) ↔ IsTimeout value.text ∨ IsSigned value.text) := by
  rcases List.eq_nil_or_concat value.text with hnil | ⟨front, c, h⟩
  · refine ⟨.error value, ?_, ?_⟩
    · have hbytes : value.bytes = [] := by simpa [HeaderValue.text] using hnil
      simp [tryParseGrpcTimeout, hget, HeaderValue.toStr, HeaderValue.text, hbytes]
    · simp [hnil, IsTimeout, IsSigned]
  · rw [List.concat_eq_append] at h
    obtain ⟨hacc, hrej⟩ := tryParse_spec hget h
    rw [h, ← accepted_iff]
    by_cases ha : Accepted front c
    · obtain ⟨n, d, -, -, -, hd⟩ := hacc ha
      exact ⟨.ok (some d), hd, by simp [ha]⟩
    · exact ⟨.error value, hrej ha, by simp [ha]⟩

/-! ### Durations that are written and read -/

theorem TimeoutUnit.nanos_pos (unit : TimeoutUnit) : 0 < unit.nanos := by
  cases unit <;> decide

/-- What is written in a unit. -/
def inUnit (d : Duration) (unit : TimeoutUnit) : Option (List Char) :=
  if d.asNanos / unit.nanos < 10 ^ 8 then some (decimal (d.asNanos / unit.nanos) ++ [unit.char])
  else none

variable {d : Duration}

theorem tryFormat_eq (unit : TimeoutUnit) (convert : Duration → Nat)
    (h : convert d = d.asNanos / unit.nanos) : tryFormat d unit.char convert = inUnit d unit := by
  simp only [tryFormat, inUnit, h]
  split_ifs <;> first | rfl | omega

theorem durationToGrpcTimeout_eq (d : Duration) :
    durationToGrpcTimeout d =
      (inUnit d .nanosecond
        |>.or (inUnit d .microsecond) |>.or (inUnit d .millisecond)
        |>.or (inUnit d .second) |>.or (inUnit d .minute) |>.or (inUnit d .hour)) := by
  have hus : d.asMicros = d.asNanos / TimeoutUnit.microsecond.nanos := by
    simp only [Duration.asMicros, Duration.asNanos, TimeoutUnit.nanos]
    omega
  have hms : d.asMillis = d.asNanos / TimeoutUnit.millisecond.nanos := by
    simp only [Duration.asMillis, Duration.asNanos, TimeoutUnit.nanos]
    omega
  have hs : d.asSecs = d.asNanos / TimeoutUnit.second.nanos := by
    simp only [Duration.asSecs, Duration.asNanos, TimeoutUnit.nanos]
    omega
  have hmin : d.asSecs / 60 = d.asNanos / TimeoutUnit.minute.nanos := by
    rw [hs, Nat.div_div_eq_div_mul, Nat.mul_comm]
    rfl
  have hhour : d.asSecs / 60 / 60 = d.asNanos / TimeoutUnit.hour.nanos := by
    rw [hmin, Nat.div_div_eq_div_mul]
    rfl
  rw [durationToGrpcTimeout, ← tryFormat_eq .nanosecond Duration.asNanos (Nat.div_one _).symm,
    ← tryFormat_eq .microsecond Duration.asMicros hus,
    ← tryFormat_eq .millisecond Duration.asMillis hms, ← tryFormat_eq .second Duration.asSecs hs,
    ← tryFormat_eq .minute (fun d => d.asSecs / 60) hmin,
    ← tryFormat_eq .hour (fun d => d.asSecs / 60 / 60) hhour]
  rfl

/-- The most precise unit with at most eight digits is written. -/
theorem durationToGrpcTimeout_spec (h : d.asNanos < 10 ^ 8 * TimeoutUnit.hour.nanos) :
    ∃ unit : TimeoutUnit, d.asNanos / unit.nanos < 10 ^ 8 ∧
      (∀ finer : TimeoutUnit, finer.nanos < unit.nanos → 10 ^ 8 ≤ d.asNanos / finer.nanos) ∧
      durationToGrpcTimeout d = some (decimal (d.asNanos / unit.nanos) ++ [unit.char]) := by
  have fits : ∀ {unit}, d.asNanos / TimeoutUnit.nanos unit < 10 ^ 8 →
      inUnit d unit = some (decimal (d.asNanos / unit.nanos) ++ [unit.char]) := fun h => if_pos h
  have skips : ∀ {unit}, ¬ d.asNanos / TimeoutUnit.nanos unit < 10 ^ 8 → inUnit d unit = none :=
    fun h => if_neg h
  rw [durationToGrpcTimeout_eq]
  by_cases hn : d.asNanos / TimeoutUnit.nanosecond.nanos < 10 ^ 8
  · refine ⟨.nanosecond, hn, fun finer hlt => ?_, ?_⟩
    · cases finer <;> simp [TimeoutUnit.nanos] at hlt
    · simp only [fits hn, Option.some_or]
  by_cases hu : d.asNanos / TimeoutUnit.microsecond.nanos < 10 ^ 8
  · refine ⟨.microsecond, hu, fun finer hlt => ?_, ?_⟩
    · cases finer <;> first | exact Nat.le_of_not_lt ‹_› | simp [TimeoutUnit.nanos] at hlt
    · simp only [skips hn, fits hu, Option.none_or, Option.some_or]
  by_cases hm : d.asNanos / TimeoutUnit.millisecond.nanos < 10 ^ 8
  · refine ⟨.millisecond, hm, fun finer hlt => ?_, ?_⟩
    · cases finer <;> first | exact Nat.le_of_not_lt ‹_› | simp [TimeoutUnit.nanos] at hlt
    · simp only [skips hn, skips hu, fits hm, Option.none_or, Option.some_or]
  by_cases hs : d.asNanos / TimeoutUnit.second.nanos < 10 ^ 8
  · refine ⟨.second, hs, fun finer hlt => ?_, ?_⟩
    · cases finer <;> first | exact Nat.le_of_not_lt ‹_› | simp [TimeoutUnit.nanos] at hlt
    · simp only [skips hn, skips hu, skips hm, fits hs, Option.none_or, Option.some_or]
  by_cases hM : d.asNanos / TimeoutUnit.minute.nanos < 10 ^ 8
  · refine ⟨.minute, hM, fun finer hlt => ?_, ?_⟩
    · cases finer <;> first | exact Nat.le_of_not_lt ‹_› | simp [TimeoutUnit.nanos] at hlt
    · simp only [skips hn, skips hu, skips hm, skips hs, fits hM, Option.none_or, Option.some_or]
  have hH : d.asNanos / TimeoutUnit.hour.nanos < 10 ^ 8 := by
    rw [Nat.div_lt_iff_lt_mul TimeoutUnit.hour.nanos_pos]
    exact h
  refine ⟨.hour, hH, fun finer hlt => ?_, ?_⟩
  · cases finer <;> first | exact Nat.le_of_not_lt ‹_› | simp [TimeoutUnit.nanos] at hlt
  · simp only [skips hn, skips hu, skips hm, skips hs, skips hM, fits hH, Option.none_or]

/-- What was written can be a header, and is read as it was written. -/
theorem fromMaybeShared_timeout (n : Nat) (unit : TimeoutUnit) :
    ∃ value, HeaderValue.fromMaybeShared (asciiBytes (decimal n ++ [unit.char])) = some value ∧
      value.text = decimal n ++ [unit.char] := by
  have hchars : ∀ c ∈ decimal n ++ [unit.char], 48 ≤ c.toNat ∧ c.toNat < 127 := by
    refine List.forall_mem_append.mpr ⟨fun c hc => ?_, ?_⟩
    · have := toNat_of_isDigit (isDigit_of_mem_decimal hc)
      omega
    · cases unit <;> simp [TimeoutUnit.char]
  generalize decimal n ++ [unit.char] = text at hchars ⊢
  have hvalid : (asciiBytes text).all HeaderValue.isValid := by
    refine List.all_eq_true.mpr fun b hb => ?_
    obtain ⟨c, hc, rfl⟩ := List.mem_map.mp hb
    obtain ⟨h48, h127⟩ := hchars c hc
    rw [HeaderValue.isValid, toNat_asciiByte (by omega)]
    simp
    omega
  refine ⟨⟨asciiBytes text, hvalid⟩, HeaderValue.fromMaybeShared_of_valid hvalid, ?_⟩
  simp only [HeaderValue.text, asciiBytes, List.map_map]
  calc text.map _ = text.map id := List.map_congr_left fun c hc => by
        have := hchars c hc
        rw [Function.comp_apply, toNat_asciiByte (by omega), Char.ofNat_toNat, id]
    _ = text := List.map_id text

theorem setTimeout_eq {text : List Char} (htext : durationToGrpcTimeout d = some text)
    (hvalue : HeaderValue.fromMaybeShared (asciiBytes text) = some value) :
    setTimeout headers d = some (HeaderMap.insert headers GRPC_TIMEOUT_HEADER value) := by
  rw [setTimeout, htext, Option.bind_eq_bind, Option.bind_some, hvalue]
  rfl

/-- **A duration that was written is read rounded down** to the most precise unit for which eight
    digits suffice. -/
theorem setTimeout_spec (headers : H) (h : d.asNanos < 10 ^ 8 * TimeoutUnit.hour.nanos) :
    ∃ unit : TimeoutUnit, ∃ n d', durationToGrpcTimeout d = some (decimal n ++ [unit.char]) ∧
      (decimal n).length ≤ 8 ∧
      (∀ finer : TimeoutUnit, finer.nanos < unit.nanos → 10 ^ 8 ≤ d.asNanos / finer.nanos) ∧
      (setTimeout headers d).bind tryParseGrpcTimeout = some (.ok (some d')) ∧
      d'.asNanos = n * unit.nanos ∧ d'.asNanos ≤ d.asNanos ∧
      d.asNanos < d'.asNanos + unit.nanos := by
  obtain ⟨unit, hfits, hfiner, hwritten⟩ := durationToGrpcTimeout_spec h
  generalize hn : d.asNanos / unit.nanos = n at hfits hwritten
  obtain ⟨value, hvalue, htext⟩ := fromMaybeShared_timeout n unit
  have hlen : (decimal n).length ≤ 8 := Nat.toDigits_length 10 n 8 (by decide) hfits
  have hget : HeaderMap.get (HeaderMap.insert headers GRPC_TIMEOUT_HEADER value)
      GRPC_TIMEOUT_HEADER = some value := by
    simp [HeaderMap.get]
  have hacc : Accepted (decimal n) unit.char :=
    ⟨Or.inl ⟨Nat.toDigits_ne_nil, fun c hc => isDigit_of_mem_decimal hc⟩, hlen, unit, rfl⟩
  obtain ⟨m, d', hm, -, hd', hread⟩ := (tryParse_spec hget htext).1 hacc
  obtain rfl : n = m := by
    rw [parseUnsigned_decimal (by omega)] at hm
    exact Except.ok.inj hm
  obtain ⟨d'', hd'', hnanos⟩ := timeoutOf_char unit hfits
  obtain rfl : d' = d'' := Option.some.inj (Option.some.inj (hd'.symm.trans hd''))
  refine ⟨unit, n, d', hwritten, hlen, hfiner, ?_, hnanos, ?_, ?_⟩
  · rw [setTimeout_eq hwritten hvalue, Option.bind_some, hread]
  · rw [hnanos, ← hn]
    exact Nat.div_mul_le_self ..
  · rw [hnanos, ← hn, ← Nat.succ_mul]
    exact (Nat.div_lt_iff_lt_mul unit.nanos_pos).mp (Nat.lt_succ_self _)

/-- **The header round trip, and what is accepted.** A duration below 10^8 hours is read rounded
    down, and of the header values exactly those with a sign are not treated as the format says. -/
theorem grpcTimeout_iff (headers : H) :
    (∀ d : Duration, d.asNanos < 10 ^ 8 * TimeoutUnit.hour.nanos →
      ∃ unit : TimeoutUnit, ∃ n d', durationToGrpcTimeout d = some (decimal n ++ [unit.char]) ∧
        (decimal n).length ≤ 8 ∧
        (∀ finer : TimeoutUnit, finer.nanos < unit.nanos → 10 ^ 8 ≤ d.asNanos / finer.nanos) ∧
        (setTimeout headers d).bind tryParseGrpcTimeout = some (.ok (some d')) ∧
        d'.asNanos = n * unit.nanos ∧ d'.asNanos ≤ d.asNanos ∧
        d.asNanos < d'.asNanos + unit.nanos) ∧
    ∀ value : HeaderValue, HeaderMap.get headers GRPC_TIMEOUT_HEADER = some value →
      ((∃ outcome, tryParseGrpcTimeout headers = some outcome ∧
        ((∃ d, outcome = .ok (some d)) ↔ IsTimeout value.text)) ↔ ¬ IsSigned value.text) := by
  refine ⟨fun d h => setTimeout_spec headers h, fun value hget => ?_⟩
  obtain ⟨outcome, hout, hacc⟩ := accepts_iff hget
  have hdisj : IsTimeout value.text → ¬ IsSigned value.text := not_isSigned_of_isTimeout
  constructor
  · rintro ⟨outcome', hout', hiff⟩ hsigned
    obtain rfl : outcome = outcome' := Option.some.inj (hout.symm.trans hout')
    exact hdisj (hiff.mp (hacc.mpr (Or.inr hsigned))) hsigned
  · intro hsigned
    exact ⟨outcome, hout, hacc.trans (or_iff_left hsigned)⟩

/-- The headers of a request with a timeout. -/
def timeoutHeaders (value : HeaderValue) : Headers :=
  HeaderMap.insert HeaderMap.empty GRPC_TIMEOUT_HEADER value

theorem grpcTimeout_iff_thirty :
    (∃ d', (setTimeout (HeaderMap.empty : Headers) ⟨30, 0⟩).bind tryParseGrpcTimeout =
        some (.ok (some d'))) ∧
      ∃ outcome, tryParseGrpcTimeout (timeoutHeaders ⟨[51, 48, 83], by decide⟩) = some outcome := by
  constructor
  · obtain ⟨_, _, d', _, _, _, hread, _⟩ :=
      (grpcTimeout_iff (HeaderMap.empty : Headers)).1 ⟨30, 0⟩ (by decide)
    exact ⟨d', hread⟩
  · have hsigned : ¬ IsSigned (HeaderValue.text ⟨[51, 48, 83], by decide⟩) := by
      rintro ⟨digits, unit, heq, -⟩
      cases heq
    obtain ⟨outcome, hout, -⟩ :=
      ((grpcTimeout_iff (timeoutHeaders ⟨[51, 48, 83], by decide⟩)).2 _ rfl).mpr hsigned
    exact ⟨outcome, hout⟩

/-- The value `+5H` is accepted, as five hours. -/
theorem signedTimeout_accepted :
    tryParseGrpcTimeout (timeoutHeaders ⟨[43, 53, 72], by decide⟩) =
        some (.ok (some (.fromSecs 18000))) ∧
      ¬ IsTimeout (HeaderValue.text ⟨[43, 53, 72], by decide⟩) := by
  refine ⟨rfl, fun h => not_isSigned_of_isTimeout h ?_⟩
  exact ⟨['5'], .hour, rfl, by decide, by decide, List.forall_mem_singleton.mpr rfl⟩

end TeaclaveCrates.Tonic
