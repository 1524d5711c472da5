import TeaclaveCrates.Csv.NfaReading

namespace TeaclaveCrates.Csv

open Lib NfaState NfaInputAction

/-!
# Sequences of calls

What a reader keeps from one call to the next: the state of its automaton, the output position, and
the line counter, which the reader of `Reader` leaves out.

* `Call`, `Reader.results` — any calls of `read_field` and `read_record`, and what they return.
* `reset_results_iff` — a reader that is reset is like a new one when no bytes of an unfinished
  record were written.
* `CountingReader` — the reader with its line counter.
* `line_counts_iff` — the counter counts the line feeds when a line feed has a class of its own.
-/

/-! ### Calls -/

/-- A call of a reader, with the input and the sizes of the caller's buffers. -/
inductive Call
  | field (input : List UInt8) (outLen : Nat)
  | record (input : List UInt8) (outLen endsLen : Nat)
  deriving DecidableEq, Repr

/-- What a call returns and writes. -/
inductive CallResult
  | field (x : FieldRead)
  | record (x : RecordRead)
  deriving DecidableEq, Repr

namespace Reader

/-- One call. -/
def call (r : Reader) : Call → Reader × CallResult
  | .field input outLen => ((r.readField input outLen).1, .field (r.readField input outLen).2)
  | .record input outLen endsLen =>
    ((r.readRecord input outLen endsLen).1, .record (r.readRecord input outLen endsLen).2)

/-- The reader behind the calls. -/
def after (r : Reader) (calls : List Call) : Reader := calls.foldl (fun r c => (r.call c).1) r

/-- The results of the calls. -/
def results : Reader → List Call → List CallResult
  | _, [] => []
  | r, c :: calls => (r.call c).2 :: (r.call c).1.results calls

variable (r : Reader)

/-- No call changes the configuration. -/
theorem call_static (c : Call) :
    (r.call c).1.cfg = r.cfg ∧ (r.call c).1.useNfa = r.useNfa := by
  cases c with
  | field input outLen =>
    simp only [call, readField, readFieldNfa, readFieldDfa]
    split_ifs <;> exact ⟨rfl, rfl⟩
  | record input outLen endsLen =>
    simp only [call, readRecord, readRecordNfa, readRecordDfa]
    split_ifs <;> exact ⟨rfl, rfl⟩

theorem after_static (calls : List Call) :
    (r.after calls).cfg = r.cfg ∧ (r.after calls).useNfa = r.useNfa := by
  induction calls generalizing r with
  | nil => exact ⟨rfl, rfl⟩
  | cons c calls ih =>
    obtain ⟨hcfg, hnfa⟩ := ih (r.call c).1
    obtain ⟨hcfg', hnfa'⟩ := r.call_static c
    exact ⟨hcfg.trans hcfg', hnfa.trans hnfa'⟩

/-! ### Reset -/

/-- A new reader, but for the output position. -/
def buildAt (cfg : Config) (useNfa : Bool) (pos : Nat) : Reader :=
  { build cfg useNfa with outputPos := pos }

theorem buildAt_zero (cfg : Config) (useNfa : Bool) : buildAt cfg useNfa 0 = build cfg useNfa := by
  rfl

theorem reset_eq : r.reset = buildAt r.cfg r.useNfa r.outputPos := by
  unfold reset buildAt build dfa
  rfl

theorem reset_static : r.reset.cfg = r.cfg ∧ r.reset.useNfa = r.useNfa := by
  simp [reset]

/-- The reader stands in a field of a record of which `pos` bytes were written. -/
structure InRecord (pos : Nat) : Prop where
  pos : r.outputPos = pos
  table : r.useNfa = false → r.At inField
  automaton : r.useNfa = true → r.nfaState = inField

variable {r}

/-- The call at the end of the input tells where the field ends. -/
theorem InRecord.readRecord_nil {pos : Nat} (h : r.InRecord pos) :
    (r.readRecord [] 0 1).2.ends = [pos] := by
  cases hnfa : r.useNfa with
  | false =>
    have hcall := Reader.readRecord_nil (h.table hnfa) 0 (show 0 < 1 by decide)
    rw [hcall.2, h.pos]
  | true =>
    have hcall := readRecord_nil_nfa hnfa 0 (show 1 ≠ 0 by decide)
    rw [h.automaton hnfa, if_pos (by decide)] at hcall
    rw [hcall.2.2, h.pos]

theorem stripUtf8Bom_singleton (c : UInt8) : r.stripUtf8Bom [c] = ([c], 0) := by
  rw [stripUtf8Bom, if_neg fun h => absurd h.2.1 (by simp)]

variable {cfg : Config}

variable {c : UInt8}

/-- At the start of a record an ordinary byte begins a field. -/
theorem step_startRecord (hc : c ∉ cfg.classBytes) :
    cfg.dfaTokenizer.step startRecord c = (inField, true) ∧
      cfg.nfaTokenizer.step startRecord c = (inField, true) := by
  have hnext : cfg.nextByte startRecord c = (inField, copyToOutput) := cfg.firstOfRecord_common hc
  have hstep : cfg.dfaStep startRecord c = (inField, copyToOutput) := by
    rw [Config.dfaStep, if_neg fun h => absurd h.1 (by decide), hnext]
  constructor
  · simp [Config.dfaTokenizer, hstep]
  · simp [Config.nfaTokenizer, hnext]

/-- The loop of the table on one ordinary byte. -/
theorem recordLoop_common (hc : c ∉ cfg.classBytes) (pos room : Nat) :
    cfg.buildDfa.recordLoop pos (startRecord.number * cfg.width) [c] (room + 1) 1 =
      ⟨inField.number * cfg.width, [], [c], []⟩ := by
  have hstep := (step_startRecord hc).1
  have hscan : ∀ n, cfg.buildDfa.scanFrom (inField.number * cfg.width) [] n = ([], []) := by
    intro n
    unfold Dfa.scanFrom Dfa.scanAndCopy
    split <;> rfl
  rw [cfg.recordLoop_cons (cfg.live_of_ne (by decide)) pos c [] (by omega)]
  simp [Tokenizer.copied, hstep, Config.dfaTokenizer_endOf, hscan, Dfa.recordLoop, markOf]

/-- The same for the automaton. -/
theorem nfaRecordLoop_common (hc : c ∉ cfg.classBytes) (pos room : Nat) :
    cfg.nfaRecordLoop pos startRecord [c] (room + 1) 1 = ⟨inField, [], [c], []⟩ := by
  have hstep := (step_startRecord hc).2
  rw [cfg.nfaRecordLoop_cons (by decide) pos c [] (by omega)]
  simp [Tokenizer.copied, hstep, Config.nfaTokenizer_endOf, Config.nfaRecordLoop, markOf]

/-- An ordinary byte behind the start: the reader counts it onto the position it had. -/
theorem inRecord_of_common (hc : c ∉ cfg.classBytes) (useNfa : Bool) {pos outLen : Nat}
    (h : pos < outLen) :
    ((buildAt cfg useNfa pos).readRecord [c] outLen 1).1.InRecord (pos + 1) := by
  obtain ⟨room, rfl⟩ : ∃ room, outLen = pos + (room + 1) := ⟨outLen - pos - 1, by omega⟩
  unfold readRecord
  rw [stripUtf8Bom_singleton]
  dsimp only
  cases useNfa with
  | false =>
    have hloop : cfg.buildDfa.recordLoop pos (startRecord.number * cfg.width) [c]
        (pos + (room + 1)) 1 = ⟨inField.number * cfg.width, [], [c], []⟩ :=
      recordLoop_common hc pos (pos + room)
    -- the field goes on, so that the record does not end
    have hres : ∀ inpdone outdone endsdone, cfg.buildDfa.newReadRecordResult
        (inField.number * cfg.width) false inpdone outdone endsdone ≠ .record := by
      intro inpdone outdone endsdone hrecord
      rw [(newReadRecordResult_eq _ _ _ _ _).1,
        cfg.finalRecord_le_iff (cfg.live_of_ne (by decide))] at hrecord
      exact absurd hrecord (by decide)
    rw [if_neg (show ¬(buildAt cfg false pos).useNfa = true from Bool.false_ne_true),
      readRecordDfa_loop _ (List.cons_ne_nil _ _) (by omega) (by decide)]
    simp only [show (buildAt cfg false pos).cfg = cfg from rfl,
      show (buildAt cfg false pos).dfa = cfg.buildDfa from rfl,
      show (buildAt cfg false pos).outputPos = pos from rfl,
      show (buildAt cfg false pos).dfaState = startRecord.number * cfg.width from
        cfg.newState_eq startRecord, hloop, if_neg (hres _ _ _)]
    exact ⟨rfl, fun _ => ⟨rfl, cfg.live_of_ne (by decide), rfl⟩,
      fun h => absurd h Bool.false_ne_true⟩
  | true =>
    have hloop : cfg.nfaRecordLoop pos startRecord [c] (pos + (room + 1) - pos) 1 =
        ⟨inField, [], [c], []⟩ := by
      rw [Nat.add_sub_cancel_left]
      exact nfaRecordLoop_common hc pos room
    have hres : ∀ inpdone outdone endsdone,
        Config.recordResultFromNfa inField inpdone outdone endsdone ≠ .record := by decide
    rw [if_pos (show (buildAt cfg true pos).useNfa = true from rfl), readRecordNfa,
      if_neg (List.cons_ne_nil _ _), if_neg (by omega), if_neg (by decide)]
    simp only [show (buildAt cfg true pos).cfg = cfg from rfl,
      show (buildAt cfg true pos).outputPos = pos from rfl,
      show (buildAt cfg true pos).nfaState = startRecord from rfl, hloop, if_neg (hres _ _ _)]
    exact ⟨rfl, fun h => absurd h.symm Bool.false_ne_true, fun _ => rfl⟩

/-- A new reader and one with another output position tell an ordinary byte's field apart. -/
theorem results_buildAt_ne (hc : c ∉ cfg.classBytes) (useNfa : Bool) {pos : Nat} (h : 0 < pos) :
    (buildAt cfg useNfa pos).results [.record [c] (pos + 1) 1, .record [] 0 1] ≠
      (build cfg useNfa).results [.record [c] (pos + 1) 1, .record [] 0 1] := by
  have hends : ∀ p ≤ pos, ∃ x y, (buildAt cfg useNfa p).results
      [.record [c] (pos + 1) 1, .record [] 0 1] = [x, .record y] ∧ y.ends = [p + 1] := by
    intro p hp
    exact ⟨_, _, rfl, (inRecord_of_common hc useNfa (by omega)).readRecord_nil⟩
  obtain ⟨_, x, hx, hxends⟩ := hends pos (by omega)
  obtain ⟨_, y, hy, hyends⟩ := hends 0 (by omega)
  intro heq
  rw [hx, ← buildAt_zero, hy] at heq
  simp only [List.cons.injEq, CallResult.record.injEq] at heq
  rw [heq.2.1, hyends, List.cons.injEq] at hxends
  omega

/-- **A reset reader.** Behind any calls, a reset gives back a new reader exactly when the output
    position was at zero: it is the one piece of state that is not set back. -/
theorem reset_results_iff (cfg : Config) (useNfa : Bool) (calls : List Call) :
    (∀ more, ((build cfg useNfa).after calls).reset.results more =
      (build cfg useNfa).results more) ↔
        ((build cfg useNfa).after calls).outputPos = 0 := by
  obtain ⟨hcfg, hnfa⟩ := (build cfg useNfa).after_static calls
  have hreset : ((build cfg useNfa).after calls).reset =
      buildAt cfg useNfa ((build cfg useNfa).after calls).outputPos := by
    rw [reset_eq, hcfg, hnfa]
    rfl
  rw [hreset]
  constructor
  · intro hall
    by_contra hne
    obtain ⟨n, -, hc⟩ := cfg.exists_common
    exact results_buildAt_ne hc useNfa (Nat.pos_of_ne_zero hne) (hall _)
  · intro hzero more
    rw [hzero, buildAt_zero]

/-- The default reader, reset behind the first byte of `a`: the field that it reads next ends at two
    instead of one. -/
theorem reset_in_record :
    ((build Config.default false).after [.record [97] 1 1]).reset.results
        [.record [97] 2 1, .record [] 0 1] ≠
      (build Config.default false).results [.record [97] 2 1, .record [] 0 1] := by
  have hc : 97 ∉ Config.default.classBytes := by decide
  have hpos : ((build Config.default false).after [.record [97] 1 1]).outputPos = 1 :=
    (inRecord_of_common hc false (show 0 < 1 by decide)).pos
  obtain ⟨hcfg, hnfa⟩ := (build Config.default false).after_static [.record [97] 1 1]
  rw [reset_eq, hcfg, hnfa, hpos]
  exact results_buildAt_ne hc false (show 0 < 1 by decide)

end Reader

/-! ### Line feeds that are counted -/

/-- One for a line feed. -/
def isLineFeed (c : UInt8) : Nat := if c = LF then 1 else 0

theorem count_cons_lineFeed (c : UInt8) (rest : List UInt8) :
    (c :: rest).count LF = isLineFeed c + rest.count LF := by
  simp [isLineFeed, List.count_cons, Nat.add_comm, beq_iff_eq]

namespace Dfa

variable (d : Dfa)

/-- The line feeds that the loop of `read_record_dfa` counts: those that it looks up in the table,
    not those that are copied behind a step. -/
def recordLoopLines (state : Nat) (input : List UInt8) (room endsRoom : Nat) : Nat :=
  match input with
  | [] => 0
  | c :: rest =>
    if room = 0 ∨ endsRoom = 0 then 0
    else
      let s := (d.getOutput state c).1
      let out := d.copied state c
      if d.finalField < s then isLineFeed c
      else
        let scan := d.scanFrom s rest (room - out.length)
        isLineFeed c + recordLoopLines s scan.2 (room - out.length - scan.1.length)
          (endsRoom - if d.finalField ≤ s then 1 else 0)
termination_by input.length
decreasing_by
  have := d.length_scanFrom_snd (d.getOutput state c).1 rest (room - (d.copied state c).length)
  simp only [List.length_cons]
  omega

/-- The line feeds that the loop of `read_field_dfa` counts. -/
def fieldLoopLines (state : Nat) : List UInt8 → Nat → Nat
  | [], _ => 0
  | c :: rest, room =>
    if room = 0 then 0
    else
      let s := (d.getOutput state c).1
      if d.finalField ≤ s then isLineFeed c
      else isLineFeed c + fieldLoopLines s rest (room - (d.copied state c).length)

/-- A line feed with a class of its own is never copied behind a step. -/
theorem count_scanFrom (hlf : d.classes.classes LF ≠ 0) (s : Nat) (rest : List UInt8)
    (room : Nat) : (d.scanFrom s rest room).2.count LF = rest.count LF := by
  unfold scanFrom
  split
  · induction rest generalizing room with
    | nil => rfl
    | cons c rest ih =>
      cases room with
      | zero => rfl
      | succ room =>
        rw [scanAndCopy]
        split
        · rename_i hc
          have hne : c ≠ LF := fun h => hlf (h ▸ hc)
          rw [List.count_cons_of_ne hne]
          exact ih room
        · rfl
  · rfl

/-- What the loop counts and what it leaves unread are all the line feeds of its input. -/
theorem recordLoopLines_eq (hlf : d.classes.classes LF ≠ 0) (pos state : Nat)
    (input : List UInt8) (room endsRoom : Nat) :
    d.recordLoopLines state input room endsRoom +
      (d.recordLoop pos state input room endsRoom).rest.count LF = input.count LF := by
  induction hn : input.length using Nat.strong_induction_on
    generalizing pos state input room endsRoom with
  | _ n ih =>
    subst hn
    cases input with
    | nil => simp [recordLoopLines, recordLoop]
    | cons c rest =>
      rw [recordLoopLines, recordLoop, count_cons_lineFeed]
      by_cases hroom : room = 0 ∨ endsRoom = 0
      · simp [hroom, count_cons_lineFeed]
      · simp only [if_neg hroom]
        by_cases hfinal : d.finalField < (d.getOutput state c).1
        · simp [hfinal]
        · simp only [if_neg hfinal, apply_ite List.length, List.length_singleton, List.length_nil]
          have hlen := d.length_scanFrom_snd (d.getOutput state c).1 rest
            (room - (d.copied state c).length)
          have hrest := d.count_scanFrom hlf (d.getOutput state c).1 rest
            (room - (d.copied state c).length)
          rw [Nat.add_assoc, ih _ (Nat.lt_succ_of_le hlen) _ _ _ _ _ rfl, hrest]

theorem fieldLoopLines_eq (state : Nat) (input : List UInt8) (room : Nat) :
    d.fieldLoopLines state input room + (d.fieldLoop state input room).rest.count LF =
      input.count LF := by
  induction input generalizing state room with
  | nil => simp [fieldLoopLines, fieldLoop]
  | cons c rest ih =>
    rw [fieldLoopLines, fieldLoop, count_cons_lineFeed]
    by_cases hroom : room = 0
    · simp [hroom, count_cons_lineFeed]
    · simp only [if_neg hroom]
      by_cases hfinal : d.finalField ≤ (d.getOutput state c).1
      · simp [hfinal]
      · simp [hfinal, Nat.add_assoc, ih]

end Dfa

/-! ### The line counter -/

/-- By how much a call raises `line`. The loops of the automaton do not count. -/
def Reader.callLines (r : Reader) : Call → Nat
  | .field input outLen =>
    let input := (r.stripUtf8Bom input).1
    if r.useNfa ∨ input = [] ∨ outLen = 0 then 0 else r.dfa.fieldLoopLines r.dfaState input outLen
  | .record input outLen endsLen =>
    let input := (r.stripUtf8Bom input).1
    if r.useNfa ∨ input = [] ∨ outLen = 0 ∨ endsLen = 0 then 0
    else r.dfa.recordLoopLines r.dfaState input outLen endsLen

/-- The bytes of the input that a call consumes. -/
def Reader.consumes (r : Reader) : Call → List UInt8
  | .field input outLen => input.take (r.readField input outLen).2.nin
  | .record input outLen endsLen => input.take (r.readRecord input outLen endsLen).2.nin

/-- A reader with its line counter, and the bytes that it has consumed since it was built or
    reset. -/
structure CountingReader where
  reader : Reader
  line : Nat
  consumed : List UInt8

/-- What is done with the reader. -/
inductive CountingReader.Step
  | call (c : Call)
  | reset
  deriving DecidableEq, Repr

namespace CountingReader

/-- `ReaderBuilder::build`, with the table. -/
def build (cfg : Config) : CountingReader := ⟨Reader.build cfg false, 1, []⟩

/-- A call, or `reset`. -/
def step (r : CountingReader) : Step → CountingReader
  | .call c =>
    ⟨(r.reader.call c).1, r.line + r.reader.callLines c, r.consumed ++ r.reader.consumes c⟩
  | .reset => ⟨r.reader.reset, 1, []⟩

/-- One step after the other. -/
def run (r : CountingReader) (steps : List Step) : CountingReader := steps.foldl step r

end CountingReader

namespace Reader

variable (r : Reader)

/-- There is no line feed in a byte order mark. -/
theorem stripUtf8Bom_spec (input : List UInt8) :
    (r.stripUtf8Bom input).1 = input.drop (r.stripUtf8Bom input).2 ∧
      (r.stripUtf8Bom input).1.count LF = input.count LF := by
  unfold stripUtf8Bom
  split
  · rename_i h
    refine ⟨rfl, ?_⟩
    have hbom : (input.take 3).count LF = 0 := by
      rw [h.2.2]
      decide
    have hsplit := congrArg (List.count LF) (List.take_append_drop 3 input)
    rw [List.count_append, hbom, Nat.zero_add] at hsplit
    exact hsplit
  · exact ⟨rfl, rfl⟩

/-- The line feeds among the bytes that were consumed, from those that are left. -/
theorem count_take_of_rest {input rest : List UInt8} {k lines : Nat}
    (hrest : rest <:+ (r.stripUtf8Bom input).1)
    (hk : k = (r.stripUtf8Bom input).1.length - rest.length)
    (hlines : lines + rest.count LF = (r.stripUtf8Bom input).1.count LF) :
    lines = (input.take (k + (r.stripUtf8Bom input).2)).count LF := by
  obtain ⟨hdrop, hcount⟩ := r.stripUtf8Bom_spec input
  have hleft : input.drop (k + (r.stripUtf8Bom input).2) = rest := by
    rw [Nat.add_comm, ← List.drop_drop, ← hdrop, hk]
    exact drop_of_suffix hrest
  have hsplit := congrArg (List.count LF)
    (List.take_append_drop (k + (r.stripUtf8Bom input).2) input)
  rw [List.count_append, hleft] at hsplit
  omega

variable {r}

/-- A call counts the line feeds that it consumes. -/
theorem callLines_eq (htable : r.useNfa = false) (hlf : LF ∈ r.cfg.classBytes) (c : Call) :
    r.callLines c = (r.consumes c).count LF := by
  -- the line feed has a class of its own, so that no scan passes over it
  have hclass : r.dfa.classes.classes LF ≠ 0 := by
    rw [show r.dfa.classes = r.cfg.classes from r.cfg.buildDfa_classes]
    exact fun h => (r.cfg.added_classes.zero_iff LF).mp h hlf
  -- where nothing is read, nothing is counted
  have hidle : ∀ input : List UInt8,
      0 = (input.take (0 + (r.stripUtf8Bom input).2)).count LF := fun input =>
    r.count_take_of_rest (List.suffix_refl _) (by omega) (Nat.zero_add _)
  cases c with
  | field input outLen =>
    simp only [callLines, consumes, readField, htable, Bool.false_eq_true, if_false, false_or]
    by_cases hin : (r.stripUtf8Bom input).1 = []
    · simp only [readFieldDfa, hin, if_true, true_or]
      exact hidle input
    by_cases hout : outLen = 0
    · simp only [readFieldDfa, if_neg hin, hout, if_true, or_true]
      exact hidle input
    simp only [readFieldDfa, hin, hout, or_self, if_false]
    exact r.count_take_of_rest (r.dfa.fieldLoop_bounds _ _ _).2.1 rfl
      (r.dfa.fieldLoopLines_eq _ _ _)
  | record input outLen endsLen =>
    simp only [callLines, consumes, readRecord, htable, Bool.false_eq_true, if_false, false_or]
    by_cases hin : (r.stripUtf8Bom input).1 = []
    · have hnin : (r.readRecordDfa [] outLen endsLen).2.nin = 0 := by
        simp only [readRecordDfa, if_true]
        split
        · split <;> simp only
        · simp
      simp only [hin, true_or, if_true, hnin]
      exact hidle input
    by_cases hout : outLen = 0
    · simp only [readRecordDfa, if_neg hin, hout, if_true, true_or, or_true]
      exact hidle input
    by_cases hends : endsLen = 0
    · simp only [readRecordDfa, if_neg hin, if_neg hout, hends, if_true, or_true]
      exact hidle input
    simp only [readRecordDfa, hin, hout, hends, or_self, if_false]
    exact r.count_take_of_rest (r.dfa.recordLoop_bounds _ _ _ _ _).2.2.1 rfl
      (r.dfa.recordLoopLines_eq hclass _ _ _ _ _)

end Reader

namespace CountingReader

/-- The invariant of a reader that counts. -/
structure Counts (cfg : Config) (r : CountingReader) : Prop where
  table : r.reader.useNfa = false
  cfg : r.reader.cfg = cfg
  line : r.line = 1 + r.consumed.count LF

theorem counts_step {cfg : Config} (hlf : LF ∈ cfg.classBytes) {r : CountingReader}
    (h : Counts cfg r) (s : Step) : Counts cfg (r.step s) := by
  cases s with
  | call c =>
    obtain ⟨hcfg, hnfa⟩ := r.reader.call_static c
    refine ⟨hnfa.trans h.table, hcfg.trans h.cfg, ?_⟩
    have hlines := Reader.callLines_eq h.table (h.cfg.symm ▸ hlf) c
    have hline := h.line
    show r.line + r.reader.callLines c = 1 + (r.consumed ++ r.reader.consumes c).count LF
    rw [List.count_append]
    omega
  | reset =>
    obtain ⟨hcfg, hnfa⟩ := r.reader.reset_static
    exact ⟨hnfa.trans h.table, hcfg.trans h.cfg, rfl⟩

theorem counts_run {cfg : Config} (hlf : LF ∈ cfg.classBytes) {r : CountingReader}
    (h : Counts cfg r) (steps : List Step) : Counts cfg (r.run steps) := by
  induction steps generalizing r with
  | nil => exact h
  | cons s steps ih => exact ih (counts_step hlf h s)

/-- Of two ordinary line feeds the second one is copied behind the first, and not counted. -/
theorem line_lineFeeds {cfg : Config} (hlf : LF ∉ cfg.classBytes) :
    ((build cfg).run [.call (.record [LF, LF] 2 1)]).line = 2 ∧
      ((build cfg).run [.call (.record [LF, LF] 2 1)]).consumed = [LF, LF] := by
  have hstep := (Reader.step_startRecord hlf).1
  have hlive : cfg.Live startRecord := cfg.live_of_ne (by decide)
  have hclass : cfg.buildDfa.classes.classes LF = 0 := by
    rw [cfg.buildDfa_classes]
    exact (cfg.added_classes.zero_iff LF).mpr hlf
  have hnext : (cfg.buildDfa.getOutput (startRecord.number * cfg.width) LF).1 =
      inField.number * cfg.width := by
    rw [cfg.state_eq hlive, hstep]
  have hcopied : cfg.buildDfa.copied (startRecord.number * cfg.width) LF = [LF] := by
    simp [cfg.copied_eq hlive, Tokenizer.copied, hstep]
  -- the scan copies the second line feed, and it has the class of ordinary bytes
  have hscan : cfg.buildDfa.scanFrom (inField.number * cfg.width) [LF] 1 = ([LF], []) := by
    simp [Dfa.scanFrom, (Or.inl cfg.buildDfa_states.1.symm), Dfa.scanAndCopy, hclass]
  have hlive' : cfg.Live inField := cfg.live_of_ne (by decide)
  have hfield : ¬cfg.buildDfa.finalField ≤ inField.number * cfg.width := by
    rw [cfg.finalField_le_iff hlive']
    decide
  have hrecord : ¬cfg.buildDfa.finalField < inField.number * cfg.width := fun h =>
    hfield (Nat.le_of_lt h)
  -- only the byte that the table has seen is counted
  have hlines : cfg.buildDfa.recordLoopLines (startRecord.number * cfg.width) [LF, LF] 2 1 = 1 := by
    simp [hnext, hcopied, hfield, hrecord, hscan, Dfa.recordLoopLines, isLineFeed]
  have hrest : (cfg.buildDfa.recordLoop 0 (startRecord.number * cfg.width) [LF, LF] 2 1).rest =
      [] := by
    simp [hnext, hcopied, hfield, hrecord, hscan, Dfa.recordLoop]
  have hstrip : (Reader.build cfg false).stripUtf8Bom [LF, LF] = ([LF, LF], 0) := by
    rw [Reader.stripUtf8Bom, if_neg fun h => absurd h.2.1 (by decide)]
  have hstate : (Reader.build cfg false).dfaState = startRecord.number * cfg.width :=
    cfg.newState_eq startRecord
  have hnin : ((Reader.build cfg false).readRecord [LF, LF] 2 1).2.nin = 2 := by
    unfold Reader.readRecord
    rw [hstrip, show (Reader.build cfg false).useNfa = false from rfl]
    simp only [Bool.false_eq_true, if_false]
    rw [Reader.readRecordDfa_loop _ (by decide) (by decide) (by decide)]
    simp [hstate, show (Reader.build cfg false).dfa = cfg.buildDfa from rfl,
      show (Reader.build cfg false).outputPos = 0 from rfl, hrest]
  constructor
  · show 1 + (Reader.build cfg false).callLines (.record [LF, LF] 2 1) = 2
    simp [Reader.callLines, hstrip, hstate, show (Reader.build cfg false).useNfa = false from rfl,
      show (Reader.build cfg false).dfa = cfg.buildDfa from rfl, hlines]
  · show [] ++ (Reader.build cfg false).consumes (.record [LF, LF] 2 1) = [LF, LF]
    simp [Reader.consumes, hnin]

/-- **The line counter.** With the table, `line` is one more than the number of line feeds among
    the bytes consumed since the reader was built or reset, for any calls of either method, exactly
    when the configuration gives the line feed a class of its own: when it is the delimiter, a quote
    or an escape of a reader with quoting, the comment byte, or ends a record. -/
theorem line_counts_iff (cfg : Config) :
    (∀ steps, ((build cfg).run steps).line = 1 + ((build cfg).run steps).consumed.count LF) ↔
      LF ∈ cfg.classBytes := by
  constructor
  · intro hall
    by_contra hlf
    obtain ⟨hline, hconsumed⟩ := line_lineFeeds hlf
    have := hall [.call (.record [LF, LF] 2 1)]
    rw [hline, hconsumed] at this
    exact absurd this (by decide)
  · intro hlf steps
    exact (counts_run hlf ⟨rfl, rfl, rfl⟩ steps).line

/-- A reader of records that end with a semicolon: two line feeds were consumed, and `line` is
    two. -/
theorem line_behind_semicolons :
    ((build { Config.default with term := .any 59 }).run [.call (.record [LF, LF] 2 1)]).line ≠
      1 + ((build { Config.default with term := .any 59 }).run
        [.call (.record [LF, LF] 2 1)]).consumed.count LF := by
  obtain ⟨hline, hconsumed⟩ := line_lineFeeds
    (show LF ∉ Config.classBytes { Config.default with term := .any 59 } by decide)
  rw [hline, hconsumed]
  decide

end CountingReader

end TeaclaveCrates.Csv
