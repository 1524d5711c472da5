import Mathlib.Data.Nat.Init
import TeaclaveCrates.Csv.Nfa

namespace TeaclaveCrates.Csv

/-!
# Writing records

`csv_core::Writer`: each call writes a field, a delimiter or a terminator into an output buffer. The
buffer is the caller's; a call is modelled by its size and by what it writes into it.

* `WriterBuilder`, `Writer` — the settings, and the writer with its table and state.
* `field`, `delimiter`, `terminator`, `finish` — the calls.
* `writeAll` — a caller that writes a list of records.
* `csv` — the bytes of a list of records.
* `writeAll_eq` — with room for them, the caller writes these bytes.
-/

/-! ### Settings -/

inductive QuoteStyle where
  | always
  | necessary
  | nonNumeric
  | never
  deriving DecidableEq, Repr

/-- The settings of a writer; `isNonNumeric` stands for the number parsers of the standard library
    that the style `NonNumeric` asks. -/
structure WriterBuilder where
  delimiter : UInt8
  term : Terminator
  style : QuoteStyle
  quote : UInt8
  escape : UInt8
  doubleQuote : Bool
  isNonNumeric : List UInt8 → Bool

/-- What a writer remembers between calls. The bytes of a record are in one buffer, so that their
    number stays below `2 ^ 63`. -/
structure WriterState where
  inField : Bool
  quoting : Bool
  recordBytes : Nat
  deriving DecidableEq, Repr

def WriterState.default : WriterState := ⟨false, false, 0⟩

structure Writer where
  cfg : WriterBuilder
  requiresQuotes : UInt8 → Bool
  state : WriterState

namespace WriterBuilder

variable (b : WriterBuilder)

/-- The table of `build`. For a line terminator, both line bytes need quotes, since the reader takes
    both for terminators by default. -/
def requiresQuotes (c : UInt8) : Bool :=
  c == b.delimiter || c == b.quote || (!b.doubleQuote && c == b.escape) ||
    match b.term with
    | .crlf => c == CR || c == LF
    | .any t => if t = LF ∨ t = CR then c == CR || c == LF else c == t

def build : Writer := ⟨b, b.requiresQuotes, WriterState.default⟩

end WriterBuilder

/-! ### Copying -/

inductive WriteResult where
  | inputEmpty
  | outputFull
  deriving DecidableEq, Repr

/-- Copies as much as there is room for. -/
def writeOptimistic (input : List UInt8) (room : Nat) : WriteResult × Nat × List UInt8 :=
  if room < input.length then (.outputFull, room, input.take room)
  else (.inputEmpty, input.length, input)

/-- Copies all or nothing, as the method `write` does. -/
def writePessimistic (input : List UInt8) (room : Nat) : WriteResult × List UInt8 :=
  if room < input.length then (.outputFull, []) else (.inputEmpty, input)

/-- The position of a byte. -/
def memchr (c : UInt8) : List UInt8 → Option Nat
  | [] => none
  | d :: rest => if d = c then some 0 else (memchr c rest).map (· + 1)

theorem memchr_lt {c : UInt8} {input : List UInt8} {k : Nat} (h : memchr c input = some k) :
    k < input.length := by
  induction input generalizing k with
  | nil => exact absurd h (by simp [memchr])
  | cons d rest ih =>
    rw [memchr] at h
    split_ifs at h
    · rw [← Option.some.inj h]
      exact Nat.succ_pos _
    · obtain ⟨j, hj, rfl⟩ := Option.map_eq_some_iff.mp h
      exact Nat.succ_lt_succ (ih hj)

/-- The free function `quote`: copies the input with its quotes escaped. -/
def quoteInto (quote escape : UInt8) (doubleQuote : Bool) (input : List UInt8) (room : Nat) :
    WriteResult × Nat × List UInt8 :=
  match _h : memchr quote input with
  | none => writeOptimistic input room
  | some next =>
    let (res, i, out) := writeOptimistic (input.take next) room
    if res = .outputFull then (res, i, out)
    else
      let (res', out') := writePessimistic
        (if doubleQuote then [quote, quote] else [escape, quote]) (room - out.length)
      if res' = .outputFull then (res', i, out)
      else
        let (res'', i'', out'') := quoteInto quote escape doubleQuote (input.drop (next + 1))
          (room - out.length - out'.length)
        (res'', i + 1 + i'', out ++ out' ++ out'')
termination_by input.length
decreasing_by
  have := memchr_lt _h
  simp only [List.length_drop]
  omega

/-! ### Calls -/

namespace Writer

variable (w : Writer)

def isSpecialByte (c : UInt8) : Bool := w.requiresQuotes c

/-- Eight bytes at a time, then the rest. -/
def needsQuotes (input : List UInt8) : Bool :=
  if 8 ≤ input.length then (input.take 8).any w.requiresQuotes || needsQuotes (input.drop 8)
  else input.any w.isSpecialByte
termination_by input.length
decreasing_by simp only [List.length_drop]; omega

def shouldQuote (input : List UInt8) : Bool :=
  match w.cfg.style with
  | .always => true
  | .never => false
  | .nonNumeric => w.cfg.isNonNumeric input
  | .necessary => w.needsQuotes input

def setState (state : WriterState) : Writer := { w with state := state }

@[simp]
theorem setState_state (s : WriterState) : (w.setState s).state = s := rfl

@[simp]
theorem setState_setState (s s' : WriterState) : (w.setState s).setState s' = w.setState s' := rfl

/-- `field`: what is left of the quotes is decided by the first call for a field. -/
def field (input : List UInt8) (room : Nat) : Writer × WriteResult × Nat × List UInt8 :=
  let s := w.state
  let quoting := if s.inField then s.quoting else w.shouldQuote input
  let opening := if s.inField = false ∧ quoting then [w.cfg.quote] else []
  let (res, start) := writePessimistic opening room
  if res = .outputFull then (w.setState { s with quoting := quoting }, res, 0, [])
  else
    let (res, i, out) :=
      if quoting then
        quoteInto w.cfg.quote w.cfg.escape w.cfg.doubleQuote input (room - start.length)
      else writeOptimistic input (room - start.length)
    (w.setState ⟨true, quoting, s.recordBytes + start.length + out.length⟩, res, i, start ++ out)

def delimiter (room : Nat) : Writer × WriteResult × List UInt8 :=
  let s := w.state
  let (res, closing) := writePessimistic (if s.quoting then [w.cfg.quote] else []) room
  if res = .outputFull then (w, res, [])
  else
    let s := { s with recordBytes := s.recordBytes + closing.length, quoting := false }
    let (res, out) := writePessimistic [w.cfg.delimiter] (room - closing.length)
    if res = .outputFull then (w.setState s, res, closing)
    else
      (w.setState { s with recordBytes := s.recordBytes + out.length, inField := false }, res,
        closing ++ out)

def termBytes : List UInt8 :=
  match w.cfg.term with
  | .crlf => [CR, LF]
  | .any b => [b]

/-- `terminator`; nothing is returned where its assertion fails. -/
def terminator (room : Nat) : Option (Writer × WriteResult × List UInt8) :=
  let s := w.state
  if s.recordBytes = 0 ∧ s.quoting then none
  else
    let (res, empty) :=
      writePessimistic (if s.recordBytes = 0 then [w.cfg.quote, w.cfg.quote] else []) room
    if res = .outputFull then some (w, res, [])
    else
      let s := { s with recordBytes := s.recordBytes + empty.length }
      let (res, closing) :=
        writePessimistic (if s.quoting then [w.cfg.quote] else []) (room - empty.length)
      if res = .outputFull then some (w.setState s, res, [])
      else
        let s := { s with recordBytes := s.recordBytes + closing.length, quoting := false }
        let (res, out) := writePessimistic w.termBytes (room - empty.length - closing.length)
        if res = .outputFull then some (w.setState s, res, empty ++ closing)
        else
          some (w.setState { s with recordBytes := 0, inField := false }, res,
            empty ++ closing ++ out)

/-- `finish`; nothing is returned where its assertion fails. -/
def finish (room : Nat) : Option (Writer × WriteResult × List UInt8) :=
  let s := w.state
  if s.recordBytes = 0 ∧ s.inField ∧ s.quoting then none
  else
    let (res, empty) := writePessimistic
      (if s.recordBytes = 0 ∧ s.inField then [w.cfg.quote, w.cfg.quote] else []) room
    if res = .outputFull then some (w, res, [])
    else
      let s := { s with recordBytes := s.recordBytes + empty.length }
      if s.quoting = false then some (w.setState s, .inputEmpty, empty)
      else
        let (res, out) := writePessimistic [w.cfg.quote] (room - empty.length)
        if res = .outputFull then some (w.setState s, res, empty)
        else some (w.setState WriterState.default, res, empty ++ out)

/-! ### A caller -/

/-- A call that must not run out of room. -/
def written (x : Writer × WriteResult × List UInt8) : Option (Writer × List UInt8) :=
  if x.2.1 = .inputEmpty then some (x.1, x.2.2) else none

/-- The fields of a record with delimiters between them. -/
def writeFields (w : Writer) (room : Nat) : List (List UInt8) → Option (Writer × List UInt8)
  | [] => some (w, [])
  | f :: fs => do
    let (w, res, _, out) := w.field f room
    let (w, out) ← written (w, res, out)
    if fs = [] then return (w, out)
    let (w, delim) ← written (w.delimiter (room - out.length))
    let (w, more) ← writeFields w (room - out.length - delim.length) fs
    return (w, out ++ delim ++ more)

/-- A record with its terminator. -/
def writeRecord (w : Writer) (room : Nat) (fs : List (List UInt8)) :
    Option (Writer × List UInt8) := do
  let (w, out) ← writeFields w room fs
  let (w, term) ← (w.terminator (room - out.length)).bind written
  return (w, out ++ term)

def writeRecords (w : Writer) (room : Nat) :
    List (List (List UInt8)) → Option (Writer × List UInt8)
  | [] => some (w, [])
  | r :: rs => do
    let (w, out) ← writeRecord w room r
    let (w, more) ← writeRecords w (room - out.length) rs
    return (w, out ++ more)

/-- All records, then `finish`, into one buffer. -/
def writeAll (w : Writer) (room : Nat) (rs : List (List (List UInt8))) : Option (List UInt8) := do
  let (w, out) ← writeRecords w room rs
  let (_, last) ← (w.finish (room - out.length)).bind written
  return out ++ last

end Writer

/-! ### The bytes of records -/

namespace WriterBuilder

variable (b : WriterBuilder)

/-- The bytes of a field inside quotes. -/
def escaped (f : List UInt8) : List UInt8 :=
  f.flatMap fun c =>
    if c = b.quote then [if b.doubleQuote then b.quote else b.escape, b.quote] else [c]

/-- A field as it is written. -/
def fieldBytes (f : List UInt8) : List UInt8 :=
  if b.build.shouldQuote f then b.quote :: b.escaped f ++ [b.quote] else f

/-- The fields of a record with delimiters between them. -/
def fieldsBytes : List (List UInt8) → List UInt8
  | [] => []
  | [f] => b.fieldBytes f
  | f :: fs => b.fieldBytes f ++ b.delimiter :: fieldsBytes fs

/-- A record; when it would be nothing, a pair of quotes stands for the empty field. -/
def recordBytes (fs : List (List UInt8)) : List UInt8 :=
  (if b.fieldsBytes fs = [] then [b.quote, b.quote] else b.fieldsBytes fs) ++ b.build.termBytes

/-- The bytes of a list of records. -/
def csv (rs : List (List (List UInt8))) : List UInt8 := rs.flatMap b.recordBytes

end WriterBuilder

/-! ### With room, the calls write them -/

variable {input : List UInt8}

theorem writePessimistic_eq {room : Nat} (h : input.length ≤ room) :
    writePessimistic input room = (.inputEmpty, input) := by
  rw [writePessimistic, if_neg (by omega)]

theorem writeOptimistic_eq {room : Nat} (h : input.length ≤ room) :
    writeOptimistic input room = (.inputEmpty, input.length, input) := by
  rw [writeOptimistic, if_neg (by omega)]

theorem memchr_eq_none {c : UInt8} (h : memchr c input = none) :
    c ∉ input := by
  induction input with
  | nil => simp
  | cons d rest ih =>
    rw [memchr] at h
    split_ifs at h with hd
    rw [List.mem_cons, not_or]
    exact ⟨fun hc => hd hc.symm, ih (Option.map_eq_none_iff.mp h)⟩

theorem memchr_eq_some {c : UInt8} {k : Nat} (h : memchr c input = some k) :
    c ∉ input.take k ∧ input = input.take k ++ c :: input.drop (k + 1) := by
  induction input generalizing k with
  | nil => exact absurd h (by simp [memchr])
  | cons d rest ih =>
    rw [memchr] at h
    split_ifs at h with hd
    · rw [← Option.some.inj h, hd]
      simp
    · obtain ⟨j, hj, rfl⟩ := Option.map_eq_some_iff.mp h
      obtain ⟨hnot, heq⟩ := ih hj
      refine ⟨?_, ?_⟩
      · rw [List.take_succ_cons, List.mem_cons, not_or]
        exact ⟨fun hc => hd hc.symm, hnot⟩
      · rw [List.take_succ_cons, List.cons_append, List.drop_succ_cons, ← heq]

namespace WriterBuilder

variable (b : WriterBuilder)

theorem escaped_cons (c : UInt8) (f : List UInt8) :
    b.escaped (c :: f) =
      (if c = b.quote then [if b.doubleQuote then b.quote else b.escape, b.quote] else [c]) ++
        b.escaped f := rfl

theorem escaped_of_not_mem {f : List UInt8} (h : b.quote ∉ f) : b.escaped f = f := by
  induction f with
  | nil => rfl
  | cons c rest ih =>
    rw [List.mem_cons, not_or] at h
    rw [escaped_cons, if_neg fun hc => h.1 hc.symm, ih h.2]
    rfl

theorem quoteInto_eq (f : List UInt8) {room : Nat} (h : (b.escaped f).length ≤ room) :
    quoteInto b.quote b.escape b.doubleQuote f room = (.inputEmpty, f.length, b.escaped f) := by
  induction hn : f.length using Nat.strong_induction_on generalizing f room with
  | _ n ih =>
    subst hn
    rw [quoteInto]
    split
    · rename_i hnone
      have hescaped := b.escaped_of_not_mem (memchr_eq_none hnone)
      rw [hescaped] at h
      rw [writeOptimistic_eq h, hescaped]
    · rename_i next hsome
      obtain ⟨hnot, heq⟩ := memchr_eq_some hsome
      have hlt := memchr_lt hsome
      have htake : (f.take next).length = next := by
        rw [List.length_take]
        omega
      have hescaped : b.escaped f = f.take next ++
          (if b.doubleQuote then [b.quote, b.quote] else [b.escape, b.quote]) ++
            b.escaped (f.drop (next + 1)) := by
        conv_lhs => rw [heq]
        have hprefix := b.escaped_of_not_mem hnot
        unfold escaped at hprefix ⊢
        rw [List.flatMap_append, List.flatMap_cons, hprefix, if_pos rfl, List.append_assoc]
        cases b.doubleQuote <;> rfl
      have hpair : (if b.doubleQuote then [b.quote, b.quote] else [b.escape,
        b.quote]).length = 2 := by
        split_ifs <;> rfl
      rw [hescaped, List.length_append, List.length_append, htake, hpair] at h
      have hrest := ih (f.drop (next + 1)).length (by rw [List.length_drop]; omega)
        (f.drop (next + 1)) (show (b.escaped (f.drop (next + 1))).length ≤ room - next - 2 by omega)
        rfl
      rw [writeOptimistic_eq (by omega)]
      dsimp only
      rw [if_neg (by decide), htake, writePessimistic_eq (by omega)]
      simp [hpair, hrest, hescaped, show next + 1 + (f.length - (next + 1)) = f.length by omega]

end WriterBuilder

namespace Writer

open WriterBuilder

theorem needsQuotes_eq (w : Writer) (input : List UInt8) :
    w.needsQuotes input = input.any w.requiresQuotes := by
  induction hn : input.length using Nat.strong_induction_on generalizing input with
  | _ n ih =>
    rw [needsQuotes]
    by_cases h : 8 ≤ input.length
    · rw [if_pos h, ih (input.drop 8).length (by rw [List.length_drop]; omega) (input.drop 8) rfl,
        ← List.any_append, List.take_append_drop]
    · rw [if_neg h]
      rfl

variable {b : WriterBuilder} {w : Writer}

/-- A writer for these settings. -/
structure Of (b : WriterBuilder) (w : Writer) : Prop where
  cfg : w.cfg = b
  table : w.requiresQuotes = b.requiresQuotes

theorem Of.setState (h : Of b w) (s : WriterState) : Of b (w.setState s) := ⟨h.cfg, h.table⟩

theorem Of.shouldQuote (h : Of b w) (f : List UInt8) : w.shouldQuote f = b.build.shouldQuote f := by
  have hneeds : w.needsQuotes f = b.build.needsQuotes f := by
    rw [needsQuotes_eq, needsQuotes_eq, h.table]
    rfl
  unfold Writer.shouldQuote
  rw [h.cfg, hneeds]
  rfl

/-- The bytes of a field that stand before its closing quote. -/
def openBytes (b : WriterBuilder) (f : List UInt8) : List UInt8 :=
  if b.build.shouldQuote f then b.quote :: b.escaped f else f

/-- The closing quote of a field. -/
def closeBytes (b : WriterBuilder) (quoting : Bool) : List UInt8 :=
  if quoting then [b.quote] else []

theorem fieldBytes_eq (b : WriterBuilder) (f : List UInt8) :
    b.fieldBytes f = openBytes b f ++ closeBytes b (b.build.shouldQuote f) := by
  unfold fieldBytes openBytes closeBytes
  split_ifs
  · rfl
  · simp

variable {room : Nat}

theorem field_eq (h : Of b w) (hs : w.state.inField = false) (f : List UInt8)
    (hroom : (openBytes b f).length ≤ room) :
    w.field f room =
      (w.setState ⟨true, b.build.shouldQuote f, w.state.recordBytes + (openBytes b f).length⟩,
        .inputEmpty, f.length, openBytes b f) := by
  unfold openBytes at hroom ⊢
  cases hq : b.build.shouldQuote f with
  | true =>
    rw [hq, if_pos rfl, List.length_cons] at hroom
    have hopen : writePessimistic [b.quote] room = (.inputEmpty, [b.quote]) :=
      writePessimistic_eq (show 1 ≤ room by omega)
    have hquote := b.quoteInto_eq f (show (b.escaped f).length ≤ room - 1 by omega)
    have hcount : w.state.recordBytes + (b.quote :: b.escaped f).length =
        w.state.recordBytes + 1 + (b.escaped f).length := by
      rw [List.length_cons]
      omega
    rw [if_pos rfl, hcount]
    simp [field, hs, h.shouldQuote, hq, h.cfg, hopen, hquote]
  | false =>
    rw [hq, if_neg (by decide)] at hroom
    have hopen : writePessimistic [] room = (.inputEmpty, []) := writePessimistic_eq (Nat.zero_le _)
    have hcopy := writeOptimistic_eq hroom
    simp [field, hs, h.shouldQuote, hq, hopen, hcopy]

theorem delimiter_eq (h : Of b w) (hroom : (closeBytes b w.state.quoting).length + 1 ≤ room) :
    w.delimiter room =
      (w.setState ⟨false, false, w.state.recordBytes + (closeBytes b w.state.quoting).length + 1⟩,
        .inputEmpty, closeBytes b w.state.quoting ++ [b.delimiter]) := by
  have hclose : writePessimistic (if w.state.quoting then [b.quote] else []) room =
      (.inputEmpty, closeBytes b w.state.quoting) :=
    writePessimistic_eq (show (closeBytes b w.state.quoting).length ≤ room by omega)
  have hdelim : writePessimistic [b.delimiter]
      (room - (closeBytes b w.state.quoting).length) = (.inputEmpty, [b.delimiter]) :=
    writePessimistic_eq (show 1 ≤ _ by omega)
  simp [delimiter, h.cfg, hclose, hdelim]

theorem terminator_eq (h : Of b w) (hs : w.state.recordBytes = 0 → w.state.quoting = false)
    (hroom : (if w.state.recordBytes = 0 then [b.quote, b.quote]
      else closeBytes b w.state.quoting).length + b.build.termBytes.length ≤ room) :
    w.terminator room =
      some (w.setState WriterState.default, .inputEmpty,
        (if w.state.recordBytes = 0 then [b.quote, b.quote]
          else closeBytes b w.state.quoting) ++ b.build.termBytes) := by
  have hterm : w.termBytes = b.build.termBytes := by
    unfold termBytes
    rw [h.cfg]
    rfl
  by_cases hzero : w.state.recordBytes = 0
  · have hq := hs hzero
    rw [if_pos hzero, List.length_cons, List.length_singleton] at hroom
    have hempty : writePessimistic [b.quote, b.quote] room = (.inputEmpty, [b.quote, b.quote]) :=
      writePessimistic_eq (show 2 ≤ room by omega)
    have hclose : writePessimistic [] (room - 2) = (.inputEmpty, []) :=
      writePessimistic_eq (Nat.zero_le _)
    have hout := writePessimistic_eq (show b.build.termBytes.length ≤ room - 2 by omega)
    simp [terminator, h.cfg, hzero, hq, hterm, hempty, hclose, hout, WriterState.default]
  · rw [if_neg hzero] at hroom
    have hempty : writePessimistic [] room = (.inputEmpty, []) :=
      writePessimistic_eq (Nat.zero_le _)
    have hclose : writePessimistic (if w.state.quoting then [b.quote] else []) room =
        (.inputEmpty, closeBytes b w.state.quoting) :=
      writePessimistic_eq (show (closeBytes b w.state.quoting).length ≤ room by omega)
    have hout := writePessimistic_eq
      (show b.build.termBytes.length ≤ room - (closeBytes b w.state.quoting).length by omega)
    simp [terminator, h.cfg, hzero, hterm, hempty, hclose, hout, WriterState.default]

theorem finish_default {w : Writer} (hs : w.state = WriterState.default) (room : Nat) :
    w.finish room = some (w, .inputEmpty, []) := by
  have hempty : writePessimistic [] room = (.inputEmpty, []) := writePessimistic_eq (Nat.zero_le _)
  have hself : w.setState ⟨false, false, 0⟩ = w := by
    rw [setState, show (⟨false, false, 0⟩ : WriterState) = w.state from hs.symm]
  simp [finish, hs, WriterState.default, hempty, hself]

/-! ### The caller -/

/-- What is written of a record up to the closing quote of its last field. -/
def pendingBytes (b : WriterBuilder) : List (List UInt8) → List UInt8
  | [] => []
  | [f] => openBytes b f
  | f :: fs => b.fieldBytes f ++ b.delimiter :: pendingBytes b fs

/-- Whether the last field is in quotes. -/
def lastQuoted (b : WriterBuilder) : List (List UInt8) → Bool
  | [] => false
  | [f] => b.build.shouldQuote f
  | _ :: fs => lastQuoted b fs

theorem fieldsBytes_eq (b : WriterBuilder) (fs : List (List UInt8)) :
    b.fieldsBytes fs = pendingBytes b fs ++ closeBytes b (lastQuoted b fs) := by
  induction fs with
  | nil => rfl
  | cons f fs ih =>
    cases fs with
    | nil => exact fieldBytes_eq b f
    | cons g gs =>
      rw [fieldsBytes, pendingBytes, lastQuoted, ih]
      all_goals simp

theorem writeFields_eq (fs : List (List UInt8)) (hne : fs ≠ []) (h : Of b w)
    (hs : w.state.inField = false ∧ w.state.quoting = false)
    (hroom : (pendingBytes b fs).length ≤ room) :
    writeFields w room fs =
      some (w.setState ⟨true, lastQuoted b fs, w.state.recordBytes + (pendingBytes b fs).length⟩,
        pendingBytes b fs) := by
  induction fs generalizing w room with
  | nil => exact absurd rfl hne
  | cons f fs ih =>
    cases fs with
    | nil =>
      have hfield := field_eq h hs.1 f hroom
      simp [writeFields, hfield, written, pendingBytes, lastQuoted]
    | cons g gs =>
      rw [pendingBytes, fieldBytes_eq] at hroom ⊢
      · simp only [List.length_append, List.length_cons] at hroom
        have hfield := field_eq h hs.1 f (show (openBytes b f).length ≤ room by omega)
        have hdelim := delimiter_eq (h.setState
            ⟨true, b.build.shouldQuote f, w.state.recordBytes + (openBytes b f).length⟩)
          (show (closeBytes b (b.build.shouldQuote f)).length + 1 ≤ room - (openBytes b f).length by
            omega)
        have hrest := ih (List.cons_ne_nil g gs) (h.setState ⟨false, false, w.state.recordBytes +
            (openBytes b f).length + (closeBytes b (b.build.shouldQuote f)).length + 1⟩) ⟨rfl, rfl⟩
          (show (pendingBytes b (g :: gs)).length ≤ room - (openBytes b f).length -
            (closeBytes b (b.build.shouldQuote f) ++ [b.delimiter]).length by
              simp only [List.length_append, List.length_singleton]
              omega)
        simp only [setState_state, setState_setState] at hrest
        have hcount : w.state.recordBytes + (openBytes b f).length +
              (closeBytes b (b.build.shouldQuote f)).length + 1 + (pendingBytes b (g :: gs)).length =
            w.state.recordBytes + (openBytes b f ++ closeBytes b (b.build.shouldQuote f) ++
              b.delimiter :: pendingBytes b (g :: gs)).length := by
          simp only [List.length_append, List.length_cons]
          omega
        rw [hcount] at hrest
        simp only [List.length_append, List.length_cons, List.length_nil, Nat.zero_add,
          Nat.add_assoc] at hrest
        rw [writeFields, hfield]
        simp [written, hdelim, hrest, lastQuoted, Nat.add_assoc]
      all_goals simp

/-- A record of which nothing is written ends outside quotes. -/
theorem lastQuoted_of_nil {fs : List (List UInt8)} (h : pendingBytes b fs = []) :
    lastQuoted b fs = false := by
  cases fs with
  | nil => rfl
  | cons f fs =>
    cases fs with
    | nil =>
      rw [pendingBytes, openBytes] at h
      split_ifs at h with hq
      exact Bool.eq_false_iff.mpr hq
    | cons g gs =>
      rw [pendingBytes] at h
      · simp at h
      · simp

theorem writeRecord_eq (h : Of b w) (hs : w.state = WriterState.default) {fs : List (List UInt8)}
    (hne : fs ≠ []) (hroom : (b.recordBytes fs).length ≤ room) :
    writeRecord w room fs = some (w.setState WriterState.default, b.recordBytes fs) := by
  have hcount : w.state.recordBytes = 0 := by rw [hs]; rfl
  have hclosed : pendingBytes b fs = [] → closeBytes b (lastQuoted b fs) = [] := by
    intro hnil
    rw [lastQuoted_of_nil hnil]
    rfl
  have hiff : b.fieldsBytes fs = [] ↔ (pendingBytes b fs).length = 0 := by
    rw [fieldsBytes_eq, List.append_eq_nil_iff, List.length_eq_zero_iff]
    exact ⟨fun h => h.1, fun h => ⟨h, hclosed h⟩⟩
  -- what the terminator adds to the bytes of the fields
  have hbytes : b.recordBytes fs = pendingBytes b fs ++
      ((if (pendingBytes b fs).length = 0 then [b.quote, b.quote]
        else closeBytes b (lastQuoted b fs)) ++ b.build.termBytes) := by
    rw [recordBytes]
    by_cases hnil : (pendingBytes b fs).length = 0
    · simp [(hiff.mpr hnil), List.length_eq_zero_iff.mp hnil]
    · rw [if_neg (fun hh => hnil (hiff.mp hh)), if_neg hnil, fieldsBytes_eq, List.append_assoc]
  rw [hbytes, List.length_append, List.length_append] at hroom
  have hfields := writeFields_eq fs hne h (by rw [hs]; exact ⟨rfl, rfl⟩)
    (show (pendingBytes b fs).length ≤ room by omega)
  rw [hcount, Nat.zero_add] at hfields
  have hleft : (if (pendingBytes b fs).length = 0 then [b.quote, b.quote]
      else closeBytes b (lastQuoted b fs)).length + b.build.termBytes.length ≤
        room - (pendingBytes b fs).length := by
    omega
  have hterm := terminator_eq
    (h.setState ⟨true, lastQuoted b fs, (pendingBytes b fs).length⟩)
    (fun hzero => lastQuoted_of_nil (List.length_eq_zero_iff.mp hzero)) hleft
  simp [writeRecord, hfields, hbytes, hterm, written]

variable {rs : List (List (List UInt8))}

theorem writeRecords_eq (h : Of b w) (hs : w.state = WriterState.default) (hne : ∀ r ∈ rs, r ≠ [])
    (hroom : (b.csv rs).length ≤ room) :
    writeRecords w room rs = some (w.setState WriterState.default, b.csv rs) := by
  induction rs generalizing w room with
  | nil =>
    have hself : w.setState WriterState.default = w := by
      rw [setState, ← hs]
    rw [hself]
    rfl
  | cons r rs ih =>
    rw [csv, List.flatMap_cons, List.length_append] at hroom
    have hrecord := writeRecord_eq h hs (hne r (List.mem_cons_self ..))
      (show (b.recordBytes r).length ≤ room by omega)
    have hrest := ih (h.setState WriterState.default) rfl
      (fun r' hr' => hne r' (List.mem_cons_of_mem _ hr'))
      (show (b.csv rs).length ≤ room - (b.recordBytes r).length by
        unfold csv
        omega)
    simp [writeRecords, hrecord, hrest, csv]

/-- **Writing.** With room for it, the caller writes `csv`. -/
theorem writeAll_eq (hne : ∀ r ∈ rs, r ≠ []) (hroom : (b.csv rs).length ≤ room) :
    writeAll b.build room rs = some (b.csv rs) := by
  have hrecords := writeRecords_eq (b := b) ⟨rfl, rfl⟩ (show b.build.state = _ from rfl) hne hroom
  have hfinish := finish_default (show (b.build.setState WriterState.default).state = _ from rfl)
    (room - (b.csv rs).length)
  simp [writeAll, hrecords, hfinish, written]

end Writer

end TeaclaveCrates.Csv
