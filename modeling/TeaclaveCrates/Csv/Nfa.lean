import TeaclaveCrates.Lib.Tokenizer

namespace TeaclaveCrates.Csv

open Lib

/-!
# The CSV parser's automaton

The configuration of `csv_core::Reader` and the transitions of its NFA.

* `Terminator`, `Config` — what a `ReaderBuilder` sets.
* `transitionNfa`, `transitionFinalNfa` — one transition, and the one at the end of the input.
* `consume` — transitions up to the first that reads the byte.
* `nextByte` — the same, in closed form, with `consume_eq`.
-/

/-! ### Configuration -/

def CR : UInt8 := 13

def LF : UInt8 := 10

/-- A record terminator; the hidden variant that no caller may use is left out. -/
inductive Terminator where
  | crlf
  | any (b : UInt8)
  deriving DecidableEq, Repr

def Terminator.isCrlf : Terminator → Bool
  | crlf => true
  | any _ => false

def Terminator.equals (t : Terminator) (other : UInt8) : Bool :=
  match t with
  | crlf => other == CR || other == LF
  | any b => other == b

/-- The settings of a reader. -/
structure Config where
  delimiter : UInt8
  term : Terminator
  quote : UInt8
  escape : Option UInt8
  doubleQuote : Bool
  comment : Option UInt8
  quoting : Bool
  deriving DecidableEq, Repr

/-- The settings of `Reader::default()`. -/
def Config.default : Config where
  delimiter := 44
  term := .crlf
  quote := 34
  escape := none
  doubleQuote := true
  comment := none
  quoting := true

/-! ### States and transitions -/

/-- What a transition does with the byte. -/
inductive NfaInputAction where
  | epsilon
  | copyToOutput
  | discard
  deriving DecidableEq, Repr

/-- The states of the reader. -/
inductive NfaState where
  | endFieldTerm
  | inRecordTerm
  | «end»
  | startRecord
  | startField
  | inField
  | inQuotedField
  | inEscapedQuote
  | inDoubleEscapedQuote
  | inComment
  | endFieldDelim
  | endRecord
  | crlf
  deriving DecidableEq, Repr

namespace NfaState

/-- The number of a state, by which the DFA orders its states. -/
def number : NfaState → Nat
  | endFieldTerm => 200
  | inRecordTerm => 201
  | «end» => 202
  | startRecord => 0
  | startField => 1
  | inField => 2
  | inQuotedField => 3
  | inEscapedQuote => 4
  | inDoubleEscapedQuote => 5
  | inComment => 6
  | endFieldDelim => 7
  | endRecord => 8
  | crlf => 9

/-- A field ends here. -/
def isFieldFinal : NfaState → Bool
  | «end» | endRecord | crlf | endFieldDelim => true
  | _ => false

/-- `NFA_STATES`: the states that have a row in the DFA. -/
def dfaStates : List NfaState :=
  [startRecord, startField, endFieldDelim, inField, inQuotedField, inEscapedQuote,
    inDoubleEscapedQuote, inComment, endRecord, crlf]

/-- How many transitions without input can follow a state. -/
def rank : NfaState → Nat
  | inRecordTerm => 1
  | endFieldTerm => 2
  | startField | inField | inDoubleEscapedQuote => 3
  | startRecord | endFieldDelim => 4
  | endRecord | crlf => 5
  | _ => 0

end NfaState

namespace Config

variable (cfg : Config)

open NfaState NfaInputAction

/-- The transition at the end of the data. -/
def transitionFinalNfa (state : NfaState) : NfaState :=
  match state with
  | .end | startRecord | endRecord | inComment | crlf => .end
  | startField | endFieldDelim | endFieldTerm | inField | inQuotedField | inEscapedQuote
  | inDoubleEscapedQuote | inRecordTerm => endRecord

/-- One transition. An epsilon transition leaves the byte. -/
def transitionNfa (state : NfaState) (c : UInt8) : NfaState × NfaInputAction :=
  match state with
  | .end => (.end, epsilon)
  | startRecord =>
    if cfg.term.equals c then (startRecord, discard)
    else if cfg.comment = some c then (inComment, discard)
    else (startField, epsilon)
  | endRecord => (startRecord, epsilon)
  | startField =>
    if cfg.quoting ∧ cfg.quote = c then (inQuotedField, discard)
    else if cfg.delimiter = c then (endFieldDelim, discard)
    else if cfg.term.equals c then (endFieldTerm, epsilon)
    else (inField, copyToOutput)
  | endFieldDelim => (startField, epsilon)
  | endFieldTerm => (inRecordTerm, epsilon)
  | inField =>
    if cfg.delimiter = c then (endFieldDelim, discard)
    else if cfg.term.equals c then (endFieldTerm, epsilon)
    else (inField, copyToOutput)
  | inQuotedField =>
    if cfg.quoting ∧ cfg.quote = c then (inDoubleEscapedQuote, discard)
    else if cfg.quoting ∧ cfg.escape = some c then (inEscapedQuote, discard)
    else (inQuotedField, copyToOutput)
  | inEscapedQuote => (inQuotedField, copyToOutput)
  | inDoubleEscapedQuote =>
    if cfg.quoting ∧ cfg.doubleQuote ∧ cfg.quote = c then (inQuotedField, copyToOutput)
    else if cfg.delimiter = c then (endFieldDelim, discard)
    else if cfg.term.equals c then (endFieldTerm, epsilon)
    else (inField, copyToOutput)
  | inComment => if c = LF then (startRecord, discard) else (inComment, discard)
  | inRecordTerm =>
    if cfg.term.isCrlf ∧ c = CR then (crlf, discard) else (endRecord, discard)
  | crlf => if c = LF then (startRecord, discard) else (startRecord, epsilon)

variable {s : NfaState}

/-- A transition that does not read the byte lowers the rank, and does not go to the end. -/
theorem rank_lt_of_epsilon {s' : NfaState} {c : UInt8} (hs : s ≠ .end)
    (h : cfg.transitionNfa s c = (s', epsilon)) : s'.rank < s.rank ∧ s' ≠ .end := by
  cases s with
  | «end» => exact absurd rfl hs
  | startRecord | startField | inField | inQuotedField | inDoubleEscapedQuote | inRecordTerm |
    inComment | crlf =>
    simp only [transitionNfa] at h
    split_ifs at h
    all_goals
      obtain ⟨rfl, h⟩ := Prod.mk.inj h
      first
        | exact ⟨by decide, by decide⟩
        | exact absurd h (by decide)
  | endRecord | endFieldDelim | endFieldTerm =>
    obtain ⟨rfl, -⟩ := Prod.mk.inj h
    exact ⟨by decide, by decide⟩
  | inEscapedQuote => exact absurd (Prod.mk.inj h).2 (by decide)

/-- The loop of `build_dfa` that follows transitions until one reads the byte; `fuel` bounds the
    number of rounds. -/
def consume (c : UInt8) : Nat → NfaState × NfaInputAction → NfaState × NfaInputAction
  | 0, r => r
  | fuel + 1, r =>
    if r.1 ≠ .end ∧ r.2 = epsilon then consume c fuel (cfg.transitionNfa r.1 c) else r

/-! ### The automaton that reads a byte in every step -/

/-- The end of a record at a terminator byte. -/
def recordTerm (c : UInt8) : NfaState × NfaInputAction :=
  if cfg.term.isCrlf ∧ c = CR then (crlf, discard) else (endRecord, discard)

/-- Behind the content of an unquoted field. -/
def afterField (c : UInt8) : NfaState × NfaInputAction :=
  if cfg.delimiter = c then (endFieldDelim, discard)
  else if cfg.term.equals c then cfg.recordTerm c
  else (inField, copyToOutput)

/-- At the first byte of a field. -/
def firstOfField (c : UInt8) : NfaState × NfaInputAction :=
  if cfg.quoting ∧ cfg.quote = c then (inQuotedField, discard) else cfg.afterField c

/-- At the first byte of a record. -/
def firstOfRecord (c : UInt8) : NfaState × NfaInputAction :=
  if cfg.term.equals c then (startRecord, discard)
  else if cfg.comment = some c then (inComment, discard)
  else cfg.firstOfField c

/-- The state after a byte and what is done with it. -/
def nextByte (state : NfaState) (c : UInt8) : NfaState × NfaInputAction :=
  match state with
  | .end => (.end, epsilon)
  | startRecord | endRecord => cfg.firstOfRecord c
  | crlf => if c = LF then (startRecord, discard) else cfg.firstOfRecord c
  | startField | endFieldDelim => cfg.firstOfField c
  | endFieldTerm | inRecordTerm => cfg.recordTerm c
  | inField => cfg.afterField c
  | inQuotedField =>
    if cfg.quoting ∧ cfg.quote = c then (inDoubleEscapedQuote, discard)
    else if cfg.quoting ∧ cfg.escape = some c then (inEscapedQuote, discard)
    else (inQuotedField, copyToOutput)
  | inEscapedQuote => (inQuotedField, copyToOutput)
  | inDoubleEscapedQuote =>
    if cfg.quoting ∧ cfg.doubleQuote ∧ cfg.quote = c then (inQuotedField, copyToOutput)
    else cfg.afterField c
  | inComment => if c = LF then (startRecord, discard) else (inComment, discard)

/-- A transition reads the byte as `nextByte` does, or leaves it for the state it goes to. -/
theorem nextByte_eq (s : NfaState) (c : UInt8) :
    cfg.nextByte s c =
      if (cfg.transitionNfa s c).2 = epsilon then cfg.nextByte (cfg.transitionNfa s c).1 c
      else cfg.transitionNfa s c := by
  cases s with
  | startRecord =>
    by_cases ht : cfg.term.equals c
    · simp [transitionNfa, nextByte, firstOfRecord, ht]
    · by_cases hc : cfg.comment = some c
      · simp [transitionNfa, nextByte, firstOfRecord, ht, hc]
      · simp [transitionNfa, nextByte, firstOfRecord, ht, hc]
  | startField =>
    by_cases hq : cfg.quoting ∧ cfg.quote = c
    · simp [transitionNfa, nextByte, firstOfField, hq]
    · by_cases hd : cfg.delimiter = c
      · simp [transitionNfa, nextByte, firstOfField, afterField, hq, hd]
      · by_cases ht : cfg.term.equals c
        · simp [transitionNfa, nextByte, firstOfField, afterField, hq, hd, ht]
        · simp [transitionNfa, nextByte, firstOfField, afterField, hq, hd, ht]
  | inField =>
    by_cases hd : cfg.delimiter = c
    · simp [transitionNfa, nextByte, afterField, hd]
    · by_cases ht : cfg.term.equals c
      · simp [transitionNfa, nextByte, afterField, hd, ht]
      · simp [transitionNfa, nextByte, afterField, hd, ht]
  | inQuotedField =>
    by_cases hq : cfg.quoting ∧ cfg.quote = c
    · simp [transitionNfa, nextByte, hq]
    · by_cases he : cfg.quoting ∧ cfg.escape = some c
      · simp only [transitionNfa, nextByte, if_neg hq, if_pos he]
        rfl
      · simp [transitionNfa, nextByte, hq, he]
  | inDoubleEscapedQuote =>
    by_cases hq : cfg.quoting ∧ cfg.doubleQuote ∧ cfg.quote = c
    · simp [transitionNfa, nextByte, hq]
    · by_cases hd : cfg.delimiter = c
      · simp [transitionNfa, nextByte, afterField, hq, hd]
      · by_cases ht : cfg.term.equals c
        · simp [transitionNfa, nextByte, afterField, hq, hd, ht]
        · simp [transitionNfa, nextByte, afterField, hq, hd, ht]
  | inRecordTerm =>
    by_cases h : cfg.term.isCrlf ∧ c = CR
    · simp [transitionNfa, nextByte, recordTerm, h]
    · simp [transitionNfa, nextByte, recordTerm, h]
  | inComment =>
    by_cases h : c = LF
    · simp [transitionNfa, nextByte, h]
    · simp [transitionNfa, nextByte, h]
  | crlf =>
    by_cases h : c = LF
    · simp [transitionNfa, nextByte, h]
    · simp [transitionNfa, nextByte, h]
  | «end» | endRecord | endFieldDelim | endFieldTerm | inEscapedQuote => rfl

/-- The states behind a byte: those with a row in the DFA, and the one between a carriage return
    and a line feed only when these two end a record together. -/
def Live (s : NfaState) : Prop :=
  s ≠ endFieldTerm ∧ s ≠ inRecordTerm ∧ s ≠ .end ∧ (s = crlf → cfg.term = .crlf)

theorem live_recordTerm (c : UInt8) :
    cfg.Live (cfg.recordTerm c).1 ∧ (cfg.recordTerm c).2 ≠ epsilon := by
  unfold recordTerm
  split
  · rename_i h
    refine ⟨⟨by decide, by decide, by decide, fun _ => ?_⟩, by decide⟩
    cases ht : cfg.term with
    | crlf => rfl
    | any b => simp [ht, Terminator.isCrlf] at h
  · exact ⟨⟨by decide, by decide, by decide, fun h => absurd h (by decide)⟩, by decide⟩

theorem live_of_ne (h : s ≠ endFieldTerm ∧ s ≠ inRecordTerm ∧ s ≠ .end ∧ s ≠ crlf) :
    cfg.Live s :=
  ⟨h.1, h.2.1, h.2.2.1, fun hc => absurd hc h.2.2.2⟩

theorem live_afterField (c : UInt8) :
    cfg.Live (cfg.afterField c).1 ∧ (cfg.afterField c).2 ≠ epsilon := by
  unfold afterField
  split_ifs
  · exact ⟨cfg.live_of_ne (by decide), by decide⟩
  · exact cfg.live_recordTerm c
  · exact ⟨cfg.live_of_ne (by decide), by decide⟩

theorem live_firstOfField (c : UInt8) :
    cfg.Live (cfg.firstOfField c).1 ∧ (cfg.firstOfField c).2 ≠ epsilon := by
  unfold firstOfField
  split_ifs
  · exact ⟨cfg.live_of_ne (by decide), by decide⟩
  · exact cfg.live_afterField c

theorem live_firstOfRecord (c : UInt8) :
    cfg.Live (cfg.firstOfRecord c).1 ∧ (cfg.firstOfRecord c).2 ≠ epsilon := by
  unfold firstOfRecord
  split_ifs
  · exact ⟨cfg.live_of_ne (by decide), by decide⟩
  · exact ⟨cfg.live_of_ne (by decide), by decide⟩
  · exact cfg.live_firstOfField c

/-- Every byte is read, and leads to a state that has a row in the DFA. -/
theorem live_nextByte (hs : s ≠ .end) (c : UInt8) :
    cfg.Live (cfg.nextByte s c).1 ∧ (cfg.nextByte s c).2 ≠ epsilon := by
  cases s with
  | «end» => exact absurd rfl hs
  | startRecord | endRecord => exact cfg.live_firstOfRecord c
  | startField | endFieldDelim => exact cfg.live_firstOfField c
  | endFieldTerm | inRecordTerm => exact cfg.live_recordTerm c
  | inField => exact cfg.live_afterField c
  | inEscapedQuote =>
    show cfg.Live inQuotedField ∧ copyToOutput ≠ epsilon
    exact ⟨cfg.live_of_ne (by decide), by decide⟩
  | crlf =>
    simp only [nextByte]
    split_ifs
    · exact ⟨cfg.live_of_ne (by decide), by decide⟩
    · exact cfg.live_firstOfRecord c
  | inDoubleEscapedQuote =>
    simp only [nextByte]
    split_ifs
    · exact ⟨cfg.live_of_ne (by decide), by decide⟩
    · exact cfg.live_afterField c
  | inQuotedField | inComment =>
    simp only [nextByte]
    split_ifs
    all_goals exact ⟨cfg.live_of_ne (by decide), by decide⟩

/-- The loop of `build_dfa` ends within as many rounds as the rank allows, with `nextByte`. -/
theorem consume_eq (hs : s ≠ .end) (c : UInt8) (fuel : Nat) (hfuel : s.rank < fuel) :
    cfg.consume c fuel (s, epsilon) = cfg.nextByte s c := by
  induction fuel generalizing s with
  | zero => omega
  | succ fuel ih =>
    rw [consume, if_pos ⟨hs, rfl⟩, nextByte_eq]
    by_cases h : (cfg.transitionNfa s c).2 = epsilon
    · have heq : cfg.transitionNfa s c = ((cfg.transitionNfa s c).1, epsilon) := Prod.ext rfl h
      obtain ⟨hrank, hend⟩ := cfg.rank_lt_of_epsilon hs heq
      rw [if_pos h, heq]
      exact ih hend (by omega)
    · rw [if_neg h]
      cases fuel with
      | zero => rfl
      | succ fuel => rw [consume, if_neg fun hh => h hh.2]

end Config

end TeaclaveCrates.Csv
