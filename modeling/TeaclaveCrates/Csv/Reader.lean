import TeaclaveCrates.Csv.Dfa

namespace TeaclaveCrates.Csv

open Lib

/-!
# Reading records and fields

`csv_core::Reader`: one call reads at most one record (or one field) from an input buffer into
output buffers of a given size. The buffers are the caller's; a call is modelled by their sizes and
by what it writes into them.

* `Reader` — the state between calls.
* `readRecord`, `readField` — the calls, through the table (`…Dfa`) or the automaton (`…Nfa`).

The line counter is left out; nothing that is read depends on it.
-/

/-! ### Results -/

inductive ReadRecordResult where
  | inputEmpty
  | outputFull
  | outputEndsFull
  | record
  | «end»
  deriving DecidableEq, Repr

inductive ReadFieldResult where
  | inputEmpty
  | outputFull
  | field (recordEnd : Bool)
  | «end»
  deriving DecidableEq, Repr

/-- What a call of `read_record` returns and writes: the bytes stand in the output buffer from
    `outStart` on. -/
structure RecordRead where
  res : ReadRecordResult
  nin : Nat
  outStart : Nat
  out : List UInt8
  ends : List Nat
  deriving DecidableEq, Repr

/-- What a call of `read_field` returns and writes. -/
structure FieldRead where
  res : ReadFieldResult
  nin : Nat
  out : List UInt8
  deriving DecidableEq, Repr

/-! ### State -/

/-- The state of a reader. Its table is the one that `build` makes from the configuration. -/
structure Reader where
  cfg : Config
  useNfa : Bool
  dfaState : Nat
  nfaState : NfaState
  hasRead : Bool
  outputPos : Nat

namespace Reader

/-- `ReaderBuilder::build` -/
def build (cfg : Config) (useNfa : Bool) : Reader where
  cfg := cfg
  useNfa := useNfa
  dfaState := cfg.buildDfa.newState .startRecord
  nfaState := .startRecord
  hasRead := false
  outputPos := 0

def dfa (r : Reader) : Dfa := r.cfg.buildDfa

/-- `reset` keeps the output position. -/
def reset (r : Reader) : Reader :=
  { r with dfaState := r.dfa.newState .startRecord
           nfaState := .startRecord
           hasRead := false }

def utf8Bom : List UInt8 := [0xef, 0xbb, 0xbf]

/-- The input without a byte order mark in front, and the number of bytes taken off. -/
def stripUtf8Bom (r : Reader) (input : List UInt8) : List UInt8 × Nat :=
  if r.hasRead = false ∧ 3 ≤ input.length ∧ input.take 3 = utf8Bom then (input.drop 3, 3)
  else (input, 0)

end Reader

/-! ### The table -/

namespace Dfa

variable (d : Dfa)

def transitionFinalDfa (state : Nat) : Nat :=
  if d.finalRecord ≤ state ∨ state = 0 then d.newState .startRecord else d.newState .endRecord

def newReadFieldResult (state : Nat) (isFinalTrans inpdone outdone : Bool) : ReadFieldResult :=
  if d.finalRecord ≤ state then .field true
  else if state = d.finalField then .field false
  else if isFinalTrans ∧ state = 0 then .end
  else if inpdone = false ∧ outdone then .outputFull
  else .inputEmpty

def newReadRecordResult (state : Nat) (isFinalTrans inpdone outdone endsdone : Bool) :
    ReadRecordResult :=
  if d.finalRecord ≤ state then .record
  else if isFinalTrans ∧ state = 0 then .end
  else if inpdone = false ∧ outdone then .outputFull
  else if inpdone = false ∧ endsdone then .outputEndsFull
  else .inputEmpty

/-- Copy bytes of the common class while there is room: the bytes copied and the rest. -/
def scanAndCopy : List UInt8 → Nat → List UInt8 × List UInt8
  | [], _ => ([], [])
  | c :: rest, 0 => ([], c :: rest)
  | c :: rest, room + 1 =>
    if d.classes.classes c = 0 then
      (c :: (scanAndCopy rest room).1, (scanAndCopy rest room).2)
    else ([], c :: rest)

theorem scanAndCopy_append (input : List UInt8) (room : Nat) :
    (d.scanAndCopy input room).1 ++ (d.scanAndCopy input room).2 = input := by
  induction input generalizing room with
  | nil => rfl
  | cons c rest ih =>
    cases room with
    | zero => rfl
    | succ room =>
      rw [scanAndCopy]
      split
      · exact congrArg (c :: ·) (ih room)
      · rfl

/-- Behind a step inside a field, a run of ordinary bytes is copied without the table. -/
def scanFrom (s : Nat) (rest : List UInt8) (room : Nat) : List UInt8 × List UInt8 :=
  if s = d.inField ∨ s = d.inQuoted then d.scanAndCopy rest room else ([], rest)

theorem length_scanFrom_snd (s : Nat) (rest : List UInt8) (room : Nat) :
    (d.scanFrom s rest room).2.length ≤ rest.length := by
  unfold scanFrom
  split
  · have h := congrArg List.length (d.scanAndCopy_append rest room)
    rw [List.length_append] at h
    omega
  · exact Nat.le_refl _

/-- What a loop leaves: the state, the unread input, and what it has written. -/
structure LoopEnd (σ : Type) where
  state : σ
  rest : List UInt8
  out : List UInt8
  ends : List Nat

/-- The byte that a lookup copies. -/
def copied (state : Nat) (c : UInt8) : List UInt8 := if (d.getOutput state c).2 then [c] else []

/-- The loop of `read_record_dfa`, with the room left in the two buffers. `pos` is the number of
    bytes of the record that were written before. -/
def recordLoop (pos state : Nat) (input : List UInt8) (room endsRoom : Nat) : LoopEnd Nat :=
  match input with
  | [] => ⟨state, [], [], []⟩
  | c :: rest =>
    if room = 0 ∨ endsRoom = 0 then ⟨state, c :: rest, [], []⟩
    else
      let s := (d.getOutput state c).1
      let out := d.copied state c
      let ends := if d.finalField ≤ s then [pos + out.length] else []
      if d.finalField < s then ⟨s, rest, out, ends⟩
      else
        let scan := d.scanFrom s rest (room - out.length)
        let r := recordLoop (pos + out.length + scan.1.length) s scan.2
          (room - out.length - scan.1.length) (endsRoom - ends.length)
        { r with out := out ++ scan.1 ++ r.out, ends := ends ++ r.ends }
termination_by input.length
decreasing_by
  have := d.length_scanFrom_snd (d.getOutput state c).1 rest (room - (d.copied state c).length)
  simp only [List.length_cons]
  omega

/-- The loop of `read_field_dfa`. -/
def fieldLoop (state : Nat) : List UInt8 → Nat → LoopEnd Nat
  | [], _ => ⟨state, [], [], []⟩
  | c :: rest, room =>
    if room = 0 then ⟨state, c :: rest, [], []⟩
    else
      let s := (d.getOutput state c).1
      let out := d.copied state c
      if d.finalField ≤ s then ⟨s, rest, out, []⟩
      else
        let r := fieldLoop s rest (room - out.length)
        { r with out := out ++ r.out }

end Dfa

/-! ### The automaton -/

namespace Config

open NfaInputAction

variable (cfg : Config)

def recordResultFromNfa (state : NfaState) (inpdone outdone endsdone : Bool) : ReadRecordResult :=
  match state with
  | .end => .end
  | .endRecord | .crlf => .record
  | _ =>
    if inpdone = false ∧ outdone then .outputFull
    else if inpdone = false ∧ endsdone then .outputEndsFull
    else .inputEmpty

def fieldResultFromNfa (state : NfaState) (inpdone outdone : Bool) : ReadFieldResult :=
  match state with
  | .end => .end
  | .endRecord | .crlf => .field true
  | .endFieldDelim => .field false
  | _ => if inpdone = false ∧ outdone then .outputFull else .inputEmpty

/-- What one transition of the loops of the NFA does: the next state, the unread input and the byte
    that is copied. -/
def nfaStep (state : NfaState) (c : UInt8) (rest : List UInt8) :
    NfaState × List UInt8 × List UInt8 :=
  match cfg.transitionNfa state c with
  | (s, .copyToOutput) => (s, rest, [c])
  | (s, .discard) => (s, rest, [])
  | (s, .epsilon) => (s, c :: rest, [])

/-- A transition reads the byte, lowers the rank, or stays at the end. -/
theorem nfaStep_decreases (state : NfaState) (c : UInt8) (rest : List UInt8) :
    (cfg.nfaStep state c rest).2.1 = rest ∨
      (cfg.nfaStep state c rest).2.1 = c :: rest ∧
        ((cfg.nfaStep state c rest).1.rank < state.rank ∨ (cfg.nfaStep state c rest).1 = .end) := by
  unfold nfaStep
  match h : cfg.transitionNfa state c with
  | (s, .copyToOutput) => exact Or.inl rfl
  | (s, .discard) => exact Or.inl rfl
  | (s, .epsilon) =>
    refine Or.inr ⟨rfl, ?_⟩
    by_cases hend : state = .end
    · subst hend
      exact Or.inr (congrArg Prod.fst h).symm
    · exact Or.inl (cfg.rank_lt_of_epsilon hend h).1

/-- The loop of `read_record_nfa`. Here `nout` counts the bytes of the record that were written
    before, too, and the room is what the buffer has behind them. -/
def nfaRecordLoop (nout : Nat) (state : NfaState) (input : List UInt8) (room endsRoom : Nat) :
    Dfa.LoopEnd NfaState :=
  match input with
  | [] => ⟨state, [], [], []⟩
  | c :: rest =>
    if room = 0 ∨ endsRoom = 0 then ⟨state, c :: rest, [], []⟩
    else
      let s := (cfg.nfaStep state c rest).1
      let out := (cfg.nfaStep state c rest).2.2
      let ends := if s.isFieldFinal then [nout + out.length] else []
      if _h : s.isFieldFinal ∧ s ≠ .endFieldDelim then
        ⟨s, (cfg.nfaStep state c rest).2.1, out, ends⟩
      else
        let r := nfaRecordLoop (nout + out.length) s (cfg.nfaStep state c rest).2.1
          (room - out.length) (endsRoom - ends.length)
        { r with out := out ++ r.out, ends := ends ++ r.ends }
termination_by (input.length, state.rank)
decreasing_by
  rcases cfg.nfaStep_decreases state c rest with h | ⟨h, hrank | hend⟩
  · rw [h]
    exact Prod.Lex.left _ _ (Nat.lt_succ_self _)
  · rw [h]
    exact Prod.Lex.right _ hrank
  · exact absurd (by rw [show s = .end from hend]; decide) _h

/-- The loop of `read_field_nfa`. -/
def nfaFieldLoop (state : NfaState) (input : List UInt8) (room : Nat) : Dfa.LoopEnd NfaState :=
  match input with
  | [] => ⟨state, [], [], []⟩
  | c :: rest =>
    if room = 0 then ⟨state, c :: rest, [], []⟩
    else
      let s := (cfg.nfaStep state c rest).1
      let out := (cfg.nfaStep state c rest).2.2
      if _h : s.isFieldFinal then ⟨s, (cfg.nfaStep state c rest).2.1, out, []⟩
      else
        let r := nfaFieldLoop s (cfg.nfaStep state c rest).2.1 (room - out.length)
        { r with out := out ++ r.out }
termination_by (input.length, state.rank)
decreasing_by
  rcases cfg.nfaStep_decreases state c rest with h | ⟨h, hrank | hend⟩
  · rw [h]
    exact Prod.Lex.left _ _ (Nat.lt_succ_self _)
  · rw [h]
    exact Prod.Lex.right _ hrank
  · exact absurd (by rw [show s = .end from hend]; decide) _h

end Config

/-! ### The calls -/

namespace Reader

variable (r : Reader)

def readRecordDfa (input : List UInt8) (outLen endsLen : Nat) : Reader × RecordRead :=
  if input = [] then
    let s := r.dfa.transitionFinalDfa r.dfaState
    let res := r.dfa.newReadRecordResult s true false false false
    if res = .record then
      -- without room for the last end the state stays
      if endsLen = 0 then (r, ⟨.outputEndsFull, 0, 0, [], []⟩)
      else ({ r with dfaState := s, outputPos := 0 }, ⟨res, 0, 0, [], [r.outputPos]⟩)
    else ({ r with dfaState := s }, ⟨res, 0, 0, [], []⟩)
  else if outLen = 0 then (r, ⟨.outputFull, 0, 0, [], []⟩)
  else if endsLen = 0 then (r, ⟨.outputEndsFull, 0, 0, [], []⟩)
  else
    let l := r.dfa.recordLoop r.outputPos r.dfaState input outLen endsLen
    let res := r.dfa.newReadRecordResult l.state false (l.rest.isEmpty) (outLen ≤ l.out.length)
      (endsLen ≤ l.ends.length)
    ({ r with dfaState := l.state
              outputPos := if res = .record then 0 else r.outputPos + l.out.length },
      ⟨res, input.length - l.rest.length, 0, l.out, l.ends⟩)

def readRecordNfa (input : List UInt8) (outLen endsLen : Nat) : Reader × RecordRead :=
  if input = [] then
    let s := Config.transitionFinalNfa r.nfaState
    let res := Config.recordResultFromNfa s false false false
    if res = .record then
      if endsLen = 0 then (r, ⟨.outputEndsFull, 0, 0, [], []⟩)
      else ({ r with nfaState := s, outputPos := 0 }, ⟨res, 0, 0, [], [r.outputPos]⟩)
    else ({ r with nfaState := s }, ⟨res, 0, 0, [], []⟩)
  else if outLen = 0 then (r, ⟨.outputFull, 0, 0, [], []⟩)
  else if endsLen = 0 then (r, ⟨.outputEndsFull, 0, 0, [], []⟩)
  else
    let l := r.cfg.nfaRecordLoop r.outputPos r.nfaState input (outLen - r.outputPos) endsLen
    let res := Config.recordResultFromNfa l.state (l.rest.isEmpty)
      (outLen ≤ r.outputPos + l.out.length) (endsLen ≤ l.ends.length)
    ({ r with nfaState := l.state
              outputPos := if res = .record then 0 else r.outputPos + l.out.length },
      ⟨res, input.length - l.rest.length, r.outputPos, l.out, l.ends⟩)

def readFieldDfa (input : List UInt8) (outLen : Nat) : Reader × FieldRead :=
  if input = [] then
    let s := r.dfa.transitionFinalDfa r.dfaState
    ({ r with dfaState := s }, ⟨r.dfa.newReadFieldResult s true false false, 0, []⟩)
  else if outLen = 0 then (r, ⟨.outputFull, 0, []⟩)
  else
    let l := r.dfa.fieldLoop r.dfaState input outLen
    ({ r with dfaState := l.state },
      ⟨r.dfa.newReadFieldResult l.state false (l.rest.isEmpty) (outLen ≤ l.out.length),
        input.length - l.rest.length, l.out⟩)

def readFieldNfa (input : List UInt8) (outLen : Nat) : Reader × FieldRead :=
  if input = [] then
    let s := Config.transitionFinalNfa r.nfaState
    ({ r with nfaState := s }, ⟨Config.fieldResultFromNfa s false false, 0, []⟩)
  else if outLen = 0 then (r, ⟨.outputFull, 0, []⟩)
  else
    let l := r.cfg.nfaFieldLoop r.nfaState input outLen
    ({ r with nfaState := l.state },
      ⟨Config.fieldResultFromNfa l.state (l.rest.isEmpty) (outLen ≤ l.out.length),
        input.length - l.rest.length, l.out⟩)

def readRecord (input : List UInt8) (outLen endsLen : Nat) : Reader × RecordRead :=
  let (input, bomNin) := r.stripUtf8Bom input
  let (r', x) :=
    if r.useNfa then r.readRecordNfa input outLen endsLen
    else r.readRecordDfa input outLen endsLen
  ({ r' with hasRead := true }, { x with nin := x.nin + bomNin })

def readField (input : List UInt8) (outLen : Nat) : Reader × FieldRead :=
  let (input, bomNin) := r.stripUtf8Bom input
  let (r', x) := if r.useNfa then r.readFieldNfa input outLen else r.readFieldDfa input outLen
  ({ r' with hasRead := true }, { x with nin := x.nin + bomNin })

end Reader

end TeaclaveCrates.Csv
