import TeaclaveCrates.Csv.Sync

namespace TeaclaveCrates.Csv

open Lib NfaState NfaInputAction

/-!
# Where a call stops

A call of `read_record` that ends a record stops right behind the byte with which it ends, and
between two records nothing is stored of either.

* `rows`, `rowLen` — the rows of some data, and the bytes of the first.
* `recordLoop_trace`, `readRecord_trace` — what a call reads and stores.
* `readRecord_end`, `readRecord_full` — calls at the end of the input or without room.
* `rows_of_start` — behind a record the reader goes on as at the start of the data.
-/

namespace Config

variable (cfg : Config)

/-- The rows of the data. A byte order mark is data here. -/
def rows (data : List UInt8) : List (List (List UInt8)) :=
  cfg.dfaTokenizer.records startRecord [] [] data

/-- The bytes up to the one that ends the first row, with the lines skipped in front of it. -/
def rowLen (data : List UInt8) : Nat := cfg.dfaTokenizer.firstLen startRecord data

/-! ### Between records -/

/-- Right behind a record a byte does what it does at the start of one: the line feed behind a
    carriage return is skipped as an empty line is. -/
theorem step_of_start {s : NfaState} (hs : cfg.Live s) (hp : pendingOf s = false) (c : UInt8) :
    cfg.dfaTokenizer.step s c = cfg.dfaTokenizer.step startRecord c := by
  have hne : s ≠ inComment := by
    rintro rfl
    exact absurd hp (by decide)
  have hbyte : cfg.nextByte s c = cfg.nextByte startRecord c := by
    cases s with
    | startRecord | endRecord => rfl
    | crlf =>
      simp only [nextByte]
      by_cases hc : c = LF
      · rw [if_pos hc, firstOfRecord, if_pos]
        rw [hs.2.2.2 rfl, hc]
        rfl
      · simp [hc]
    | «end» => exact absurd rfl hs.2.2.1
    | startField | endFieldDelim | inField | inQuotedField | inEscapedQuote
    | inDoubleEscapedQuote | inComment | endFieldTerm | inRecordTerm => exact absurd hp (by decide)
  have hstart : startRecord ≠ inComment := by decide
  rw [cfg.dfaTokenizer_step hne, cfg.dfaTokenizer_step hstart]
  show ((cfg.nextByte s c).1, decide ((cfg.nextByte s c).2 = copyToOutput)) = _
  rw [hbyte]
  rfl

theorem rows_of_start {s : NfaState} (hs : cfg.Live s) (hp : pendingOf s = false)
    (data : List UInt8) : cfg.dfaTokenizer.records s [] [] data = cfg.rows data := by
  unfold rows
  cases data with
  | nil =>
    rw [Tokenizer.records, dfaTokenizer_pending, hp]
    rfl
  | cons c rest =>
    have hstep := cfg.step_of_start hs hp c
    simp [Tokenizer.records, Tokenizer.copied, hstep]

theorem rowLen_of_start {s : NfaState} (hs : cfg.Live s) (hp : pendingOf s = false)
    (data : List UInt8) : cfg.dfaTokenizer.firstLen s data = cfg.rowLen data := by
  unfold rowLen
  cases data with
  | nil => rfl
  | cons c rest => rw [Tokenizer.firstLen, Tokenizer.firstLen, cfg.step_of_start hs hp c]

/-- Nothing is stored between records, in the machine of the table as well. -/
theorem fresh_dfaStep {s : NfaState} {out : List UInt8} {ends : List Nat} (h : Fresh s out ends)
    {c : UInt8} (hmark : markOf (cfg.dfaTokenizer.step s c).1 ≠ .record) :
    Fresh (cfg.dfaTokenizer.step s c).1 (out ++ cfg.dfaTokenizer.copied s c)
      (ends ++ cfg.dfaTokenizer.endOf (cfg.dfaTokenizer.step s c).1
        (out.length + (cfg.dfaTokenizer.copied s c).length)) := by
  by_cases hs : s = inComment
  · subst hs
    obtain ⟨rfl, rfl⟩ := h rfl
    -- a comment goes on or ends, and no byte of it is copied
    have hdiscard : (cfg.dfaStep inComment c).2 = discard ∧
        markOf (cfg.dfaStep inComment c).1 = .inside := by
      rw [dfaStep]
      split_ifs
      · exact ⟨rfl, rfl⟩
      · simp only [nextByte]
        split_ifs
        all_goals exact ⟨rfl, rfl⟩
    have hcopied : cfg.dfaTokenizer.copied inComment c = [] := by
      rw [Tokenizer.copied, if_neg]
      intro hcopy
      rw [of_decide_eq_true hcopy] at hdiscard
      exact absurd hdiscard.1 (by decide)
    have hend : cfg.dfaTokenizer.endOf (cfg.dfaTokenizer.step inComment c).1 0 = [] := by
      exact if_pos hdiscard.2
    intro _
    rw [hcopied]
    exact ⟨rfl, hend⟩
  · have hstep := cfg.dfaTokenizer_step hs c
    have hcopied := cfg.dfaTokenizer_copied hstep
    rw [hstep] at hmark
    have hfresh := cfg.fresh_step h hmark
    rw [hstep, hcopied]
    exact hfresh

/-! ### One call -/

/-- A run of ordinary bytes is inside a record. -/
theorem firstLen_scan {s : NfaState} (hs : s = inField ∨ s = inQuotedField) (input : List UInt8)
    (room : Nat) (more : List UInt8) :
    cfg.dfaTokenizer.firstLen s (input ++ more) =
      (cfg.buildDfa.scanAndCopy input room).1.length +
        cfg.dfaTokenizer.firstLen s ((cfg.buildDfa.scanAndCopy input room).2 ++ more) := by
  induction input generalizing room with
  | nil => simp [Dfa.scanAndCopy]
  | cons c rest ih =>
    cases room with
    | zero => simp [Dfa.scanAndCopy]
    | succ room =>
      rw [Dfa.scanAndCopy]
      split
      · rename_i hc
        have hnext : (cfg.dfaTokenizer.step s c).1 = s := by
          show (cfg.dfaStep s c).1 = s
          rw [cfg.dfaStep_scan hs hc]
        have hmark : markOf s ≠ .record := by
          rcases hs with rfl | rfl <;> decide
        rw [List.cons_append, Tokenizer.firstLen, hnext, dfaTokenizer_mark, if_neg hmark, ih room]
        simp only [List.length_cons]
        omega
      · simp

theorem scanFrom_trace (s : NfaState) (rest : List UInt8) (room : Nat) :
    (∀ more, cfg.dfaTokenizer.firstLen s (rest ++ more) =
      (cfg.buildDfa.scanFrom (s.number * cfg.width) rest room).1.length +
        cfg.dfaTokenizer.firstLen s
          ((cfg.buildDfa.scanFrom (s.number * cfg.width) rest room).2 ++ more)) ∧
      (∀ out ends, Fresh s out ends →
        Fresh s (out ++ (cfg.buildDfa.scanFrom (s.number * cfg.width) rest room).1) ends) ∧
      (cfg.buildDfa.scanFrom (s.number * cfg.width) rest room).1.length +
        (cfg.buildDfa.scanFrom (s.number * cfg.width) rest room).2.length = rest.length := by
  unfold Dfa.scanFrom
  simp only [cfg.buildDfa_states.1, cfg.buildDfa_states.2.1, number_mul_inj]
  split
  · rename_i hs
    refine ⟨cfg.firstLen_scan hs rest room, fun out ends _ hb => ?_, ?_⟩
    · rcases hs with rfl | rfl
      all_goals exact absurd hb (by decide)
    · rw [← List.length_append, cfg.buildDfa.scanAndCopy_append]
  · refine ⟨fun more => ?_, fun out ends h => ?_, ?_⟩
    · simp
    · rw [List.append_nil]
      exact h
    · exact Nat.zero_add _

/-- What a loop that stops in `s'` has read and stored. -/
structure LoopTrace (s : NfaState) (pos : Nat) (input : List UInt8) (l : Dfa.LoopEnd Nat)
    (s' : NfaState) : Prop where
  firstLen : ∀ more, cfg.dfaTokenizer.firstLen s (input ++ more) =
    input.length - l.rest.length +
      if markOf s' = .record then 0 else cfg.dfaTokenizer.firstLen s' (l.rest ++ more)
  fresh : markOf s' ≠ .record → ∀ out ends, out.length = pos → Fresh s out ends →
    Fresh s' (out ++ l.out) (ends ++ l.ends)

theorem LoopTrace.here {s : NfaState} (hmark : markOf s ≠ .record) (pos : Nat)
    (input : List UInt8) (state : Nat) : cfg.LoopTrace s pos input ⟨state, input, [], []⟩ s where
  firstLen more := by
    simp [hmark]
  fresh _ out ends _ h := by
    rw [List.append_nil, List.append_nil]
    exact h

theorem recordLoop_trace {s : NfaState} (hs : cfg.Live s) (pos : Nat) (input : List UInt8)
    (room endsRoom : Nat)
    (hstart : markOf s ≠ .record ∨ (input ≠ [] ∧ 0 < room ∧ 0 < endsRoom)) :
    ∃ s', cfg.Live s' ∧
      (cfg.buildDfa.recordLoop pos (s.number * cfg.width) input room endsRoom).state =
        s'.number * cfg.width ∧
      cfg.LoopTrace s pos input
        (cfg.buildDfa.recordLoop pos (s.number * cfg.width) input room endsRoom) s' := by
  refine cfg.recordLoop_rounds (P := cfg.LoopTrace) (fun s pos input hmark => ?_)
    (fun s pos c rest hrec => ⟨fun more => ?_, fun h => absurd hrec h⟩)
    (fun s pos c rest room l s' hrec hle htrace => ?_) hs pos input room endsRoom hstart
  · exact LoopTrace.here cfg hmark pos input _
  · -- the record ends with this byte
    rw [List.cons_append, Tokenizer.firstLen, dfaTokenizer_mark, if_pos hrec, if_pos hrec,
      List.length_cons]
    dsimp only
    omega
  · obtain ⟨hlen, hkeep, hsplit⟩ := cfg.scanFrom_trace (cfg.dfaTokenizer.step s c).1 rest room
    refine ⟨fun more => ?_, fun hmark out ends hpos hfresh => ?_⟩
    · rw [List.cons_append, Tokenizer.firstLen, dfaTokenizer_mark, if_neg hrec, hlen more,
        htrace.firstLen more, List.length_cons]
      dsimp only
      omega
    · subst hpos
      have hnext := htrace.fresh hmark _ _ (by simp only [List.length_append])
        (hkeep _ _ (cfg.fresh_dfaStep hfresh hrec))
      simp only [List.append_assoc] at hnext ⊢
      exact hnext

end Config

namespace Reader

variable {r : Reader} {s : NfaState}

theorem set_hasRead (hread : r.hasRead = true) : { r with hasRead := true } = r := by
  obtain ⟨cfg, useNfa, dfaState, nfaState, hasRead, outputPos⟩ := r
  obtain rfl : hasRead = true := hread
  rfl

/-- A call behind the first one reads its input as it is. -/
theorem readRecord_of_hasRead (h : r.At s) (hread : r.hasRead = true) (input : List UInt8)
    (outLen endsLen : Nat) :
    r.readRecord input outLen endsLen = r.readRecordDfa input outLen endsLen := by
  have hkeep := r.readRecordDfa_hasRead true input outLen endsLen
  rw [set_hasRead hread] at hkeep
  unfold readRecord
  rw [stripUtf8Bom_hasRead hread, h.table, hkeep]
  rfl

/-- What a call on input that is left has read and stored, in terms of the machine. -/
theorem readRecord_trace (h : r.At s) (hread : r.hasRead = true) {input : List UInt8}
    (hin : input ≠ []) {outLen endsLen : Nat} (hout : 0 < outLen) (hends : 0 < endsLen)
    {s' : NfaState} (hs' : (r.readRecord input outLen endsLen).1.At s') :
    let x := (r.readRecord input outLen endsLen).2
    (∀ more, r.cfg.dfaTokenizer.firstLen s (input ++ more) =
      x.nin + if markOf s' = .record then 0
        else r.cfg.dfaTokenizer.firstLen s' (input.drop x.nin ++ more)) ∧
      (markOf s' ≠ .record → ∀ out ends, out.length = r.outputPos → Config.Fresh s out ends →
        Config.Fresh s' (out ++ x.out) (ends ++ x.ends)) := by
  obtain ⟨t, hlive, hstate, htrace⟩ := r.cfg.recordLoop_trace h.live r.outputPos input outLen
    endsLen (Or.inr ⟨hin, hout, hends⟩)
  obtain ⟨-, -, hsuffix, -⟩ := r.dfa.recordLoop_bounds r.outputPos r.dfaState input outLen endsLen
  rw [← h.state] at hstate htrace
  change (r.dfa.recordLoop r.outputPos r.dfaState input outLen endsLen).state = _ at hstate
  change r.cfg.LoopTrace s r.outputPos input
    (r.dfa.recordLoop r.outputPos r.dfaState input outLen endsLen) t at htrace
  rw [readRecord_of_hasRead h hread, readRecordDfa_loop r hin hout hends] at hs' ⊢
  have hst : t = s' := by
    have hnum := hs'.state
    dsimp only at hnum
    rw [hstate] at hnum
    exact r.cfg.number_mul_inj.mp hnum
  subst hst
  refine ⟨fun more => ?_, htrace.fresh⟩
  rw [drop_of_suffix hsuffix]
  exact htrace.firstLen more

/-! ### Calls without input or without room -/

/-- At the end of the input a record that has begun ends as soon as there is room for its last end.
    Between records the end of the data is reported. -/
theorem readRecord_end (h : r.At s) (hread : r.hasRead = true) (outLen endsLen : Nat) :
    r.readRecord [] outLen endsLen =
      if pendingOf s then
        if endsLen = 0 then (r, ⟨.outputEndsFull, 0, 0, [], []⟩)
        else
          ({ r with dfaState := endRecord.number * r.cfg.width, outputPos := 0 },
            ⟨.record, 0, 0, [], [r.outputPos]⟩)
      else ({ r with dfaState := startRecord.number * r.cfg.width }, ⟨.end, 0, 0, [], []⟩) := by
  rw [readRecord_of_hasRead h hread, readRecordDfa, if_pos rfl, h.transitionFinalDfa_eq]
  by_cases hp : pendingOf s = true
  · have hres : r.dfa.newReadRecordResult (endRecord.number * r.cfg.width) true false false false =
        .record := by
      simp [Dfa.newReadRecordResult, r.final_le.1]
    simp [hp, hres]
  · have hres : r.dfa.newReadRecordResult (startRecord.number * r.cfg.width) true false false
        false = .end := by
      rw [Dfa.newReadRecordResult, if_neg r.final_le.2, if_pos ⟨rfl, Nat.zero_mul _⟩]
    have hne : ¬ReadRecordResult.end = .record := by decide
    simp [hp, hres, hne]

/-- Without room in a buffer a call with input asks for it. -/
theorem readRecord_full (h : r.At s) (hread : r.hasRead = true) {input : List UInt8}
    (hin : input ≠ []) {outLen endsLen : Nat} (hfull : outLen = 0 ∨ endsLen = 0) :
    r.readRecord input outLen endsLen =
      (r, ⟨if outLen = 0 then .outputFull else .outputEndsFull, 0, 0, [], []⟩) := by
  rw [readRecord_of_hasRead h hread, readRecordDfa, if_neg hin]
  by_cases hout : outLen = 0
  · simp [hout]
  · simp [hout, (hfull.resolve_left hout)]

end Reader

end TeaclaveCrates.Csv
