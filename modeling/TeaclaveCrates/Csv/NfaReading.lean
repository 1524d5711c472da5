import TeaclaveCrates.Csv.Callers

namespace TeaclaveCrates.Csv

open Lib NfaState NfaInputAction

/-!
# Reading with the automaton

A reader that is built to use the NFA follows its transitions one by one, those without input
included. With room for all of the input, a call moves along the records of one machine.

* `nfaTokenizer` — the machine that the NFA implements.
* `nfaRecordLoop_cons`, `nfaFieldLoop_cons` — the transitions up to the one that reads the byte.
* `nfaStreamRecords_build`, `nfaFieldwiseRecords_build` — whole runs.
-/

namespace Config

variable (cfg : Config)

/-- The machine that the NFA implements. -/
def nfaTokenizer : Tokenizer NfaState UInt8 where
  step s c := ((cfg.nextByte s c).1, decide ((cfg.nextByte s c).2 = copyToOutput))
  mark := markOf
  pending s := decide (transitionFinalNfa s = endRecord)

@[simp]
theorem nfaTokenizer_mark : cfg.nfaTokenizer.mark = markOf := rfl

theorem nfaTokenizer_endOf (s : NfaState) (pos : Nat) :
    cfg.nfaTokenizer.endOf s pos = if markOf s = .inside then [] else [pos] := rfl

/-! ### Loops -/

theorem isFieldFinal_iff (s : NfaState) : s.isFieldFinal = true ↔ markOf s ≠ .inside := by
  cases s <;> decide

theorem isFieldFinal_and_ne_iff (s : NfaState) :
    s.isFieldFinal = true ∧ s ≠ endFieldDelim ↔ markOf s = .record := by
  cases s <;> decide

variable {s : NfaState}

/-- Where a transition does not read the byte, no field ends and the byte is read from the next
    state. -/
theorem nfaStep_epsilon (hs : s ≠ .end) {c : UInt8} (h : (cfg.transitionNfa s c).2 = epsilon)
    (rest : List UInt8) :
    ∃ s', cfg.nfaStep s c rest = (s', c :: rest, []) ∧ s'.rank < s.rank ∧ s' ≠ .end ∧
      s'.isFieldFinal = false ∧ cfg.nfaTokenizer.step s c = cfg.nfaTokenizer.step s' c := by
  have heq : cfg.transitionNfa s c = ((cfg.transitionNfa s c).1, epsilon) := Prod.ext rfl h
  obtain ⟨hrank, hend⟩ := cfg.rank_lt_of_epsilon hs heq
  refine ⟨(cfg.transitionNfa s c).1, ?_, hrank, hend, ?_, ?_⟩
  · rw [nfaStep, heq]
  · -- only four states follow such a transition
    revert h
    cases s with
    | «end» => exact absurd rfl hs
    | startRecord | startField | inField | inQuotedField | inDoubleEscapedQuote | inRecordTerm |
      inComment | crlf =>
      simp only [transitionNfa]
      split_ifs <;> decide
    | endRecord | endFieldDelim | endFieldTerm | inEscapedQuote =>
      simp only [transitionNfa]
      decide
  · simp [nfaTokenizer, cfg.nextByte_eq s, h]

/-- A transition that reads the byte is that of the machine. -/
theorem nfaStep_reads {c : UInt8} (h : (cfg.transitionNfa s c).2 ≠ epsilon) (rest : List UInt8) :
    cfg.nfaStep s c rest =
      ((cfg.nfaTokenizer.step s c).1, rest, cfg.nfaTokenizer.copied s c) := by
  have hread : cfg.nextByte s c = cfg.transitionNfa s c := by
    simp [cfg.nextByte_eq s, h]
  have hstep : cfg.nfaTokenizer.step s c =
      ((cfg.transitionNfa s c).1, decide ((cfg.transitionNfa s c).2 = copyToOutput)) := by
    rw [← hread]
    rfl
  rw [nfaStep, Tokenizer.copied, hstep]
  rcases hx : cfg.transitionNfa s c with ⟨s', action⟩
  cases action with
  | copyToOutput => rfl
  | discard => rfl
  | epsilon => exact absurd (congrArg Prod.snd hx) h

variable {room : Nat}

/-- The rounds of the loop up to the one that reads the byte. -/
theorem nfaRecordLoop_cons (hs : s ≠ .end) (nout : Nat) (c : UInt8) (rest : List UInt8)
    {endsRoom : Nat} (hroom : ¬(room = 0 ∨ endsRoom = 0)) :
    cfg.nfaRecordLoop nout s (c :: rest) room endsRoom =
      let s₁ := (cfg.nfaTokenizer.step s c).1
      let out := cfg.nfaTokenizer.copied s c
      let ends := cfg.nfaTokenizer.endOf s₁ (nout + out.length)
      if markOf s₁ = .record then ⟨s₁, rest, out, ends⟩
      else
        let r := cfg.nfaRecordLoop (nout + out.length) s₁ rest (room - out.length)
          (endsRoom - ends.length)
        { r with out := out ++ r.out, ends := ends ++ r.ends } := by
  induction hn : s.rank using Nat.strong_induction_on generalizing s with
  | _ n ih =>
    subst hn
    rw [nfaRecordLoop, if_neg hroom]
    by_cases h : (cfg.transitionNfa s c).2 = epsilon
    · obtain ⟨s', hstep, hrank, hend, hfinal, heq⟩ := cfg.nfaStep_epsilon hs h rest
      have hnext := ih s'.rank hrank hend rfl
      simp only [Tokenizer.copied, heq] at hnext ⊢
      rw [← hnext]
      simp [hstep, hfinal]
    · simp only [cfg.nfaStep_reads h, isFieldFinal_and_ne_iff, dite_eq_ite]
      simp [isFieldFinal_iff, nfaTokenizer_endOf, ne_eq, ite_not]

theorem nfaFieldLoop_cons (hs : s ≠ .end) (c : UInt8) (rest : List UInt8) (hroom : room ≠ 0) :
    cfg.nfaFieldLoop s (c :: rest) room =
      let s₁ := (cfg.nfaTokenizer.step s c).1
      let out := cfg.nfaTokenizer.copied s c
      if markOf s₁ = .inside then
        let r := cfg.nfaFieldLoop s₁ rest (room - out.length)
        { r with out := out ++ r.out }
      else ⟨s₁, rest, out, []⟩ := by
  induction hn : s.rank using Nat.strong_induction_on generalizing s with
  | _ n ih =>
    subst hn
    rw [nfaFieldLoop, if_neg hroom]
    by_cases h : (cfg.transitionNfa s c).2 = epsilon
    · obtain ⟨s', hstep, hrank, hend, hfinal, heq⟩ := cfg.nfaStep_epsilon hs h rest
      have hnext := ih s'.rank hrank hend rfl
      simp only [Tokenizer.copied, heq] at hnext ⊢
      rw [← hnext]
      simp [hstep, hfinal]
    · simp [cfg.nfaStep_reads h, isFieldFinal_iff, ne_eq, ite_not, dite_eq_ite]

theorem nfaTokenizer_step_ne_end (hs : s ≠ .end) (c : UInt8) :
    (cfg.nfaTokenizer.step s c).1 ≠ .end :=
  (cfg.live_nextByte hs c).1.2.2.1

/-- What the loop of `read_record_nfa` leaves when there is room for all of the input. -/
structure NfaRecordSpec (s : NfaState) (pos : Nat) (input : List UInt8)
    (l : Dfa.LoopEnd NfaState) : Prop where
  ne : l.state ≠ .end
  suffix : l.rest <:+ input
  progress : input ≠ [] → l.rest.length < input.length
  all : markOf l.state ≠ .record → l.rest = []
  records : ∀ out ends, out.length = pos →
    cfg.nfaTokenizer.records s out ends input =
      if markOf l.state = .record then
        slices (out ++ l.out) (ends ++ l.ends) :: cfg.nfaTokenizer.records l.state [] [] l.rest
      else cfg.nfaTokenizer.records l.state (out ++ l.out) (ends ++ l.ends) l.rest

theorem length_copied_nfa (s : NfaState) (c : UInt8) : (cfg.nfaTokenizer.copied s c).length ≤ 1 := by
  unfold Tokenizer.copied
  split <;> simp

theorem nfaRecordLoop_spec (hs : s ≠ .end) (pos : Nat) (input : List UInt8) {endsRoom : Nat}
    (hroom : input.length ≤ room) (hends : input.length ≤ endsRoom)
    (hstart : markOf s ≠ .record ∨ input ≠ []) :
    cfg.NfaRecordSpec s pos input (cfg.nfaRecordLoop pos s input room endsRoom) := by
  induction input generalizing s pos room endsRoom with
  | nil =>
    have hmark : markOf s ≠ .record := hstart.resolve_right fun h => h rfl
    rw [nfaRecordLoop]
    exact ⟨hs, List.suffix_refl _, fun h => absurd rfl h, fun _ => rfl,
      fun out ends _ => by simp [hmark]⟩
  | cons c rest ih =>
    have hne := cfg.nfaTokenizer_step_ne_end hs c
    have hcopied := cfg.length_copied_nfa s c
    rw [List.length_cons] at hroom hends
    rw [cfg.nfaRecordLoop_cons hs pos c rest (by omega)]
    by_cases hrec : markOf (cfg.nfaTokenizer.step s c).1 = .record
    · rw [if_pos hrec]
      refine ⟨hne, List.suffix_cons c rest, fun _ => Nat.lt_succ_self _, fun h => absurd hrec h,
        fun out ends hpos => ?_⟩
      simp [hrec, cfg.nfaTokenizer.records_cons_of_record hrec, hpos]
    · have hendOf : (cfg.nfaTokenizer.endOf (cfg.nfaTokenizer.step s c).1
          (pos + (cfg.nfaTokenizer.copied s c).length)).length ≤ 1 := by
        unfold Tokenizer.endOf
        split <;> simp
      have hends' : rest.length ≤ endsRoom -
          (cfg.nfaTokenizer.endOf (cfg.nfaTokenizer.step s c).1
            (pos + (cfg.nfaTokenizer.copied s c).length)).length := by
        omega
      rw [if_neg hrec]
      have hspec := ih hne (pos + (cfg.nfaTokenizer.copied s c).length)
        (show rest.length ≤ room - (cfg.nfaTokenizer.copied s c).length by omega) hends'
        (Or.inl hrec)
      refine ⟨hspec.ne, hspec.suffix.trans (List.suffix_cons c rest), fun _ => ?_, hspec.all,
        fun out ends hpos => ?_⟩
      · exact Nat.lt_succ_of_le hspec.suffix.length_le
      · rw [cfg.nfaTokenizer.records_cons_of_ne hrec, hspec.records, hpos]
        · simp
        · rw [List.length_append, hpos]

/-- What the loop of `read_field_nfa` leaves when there is room for all of the input. -/
structure NfaFieldSpec (s : NfaState) (input : List UInt8) (l : Dfa.LoopEnd NfaState) : Prop where
  ne : l.state ≠ .end
  suffix : l.rest <:+ input
  progress : input ≠ [] → l.rest.length < input.length
  records : ∀ field fields,
    cfg.nfaTokenizer.fieldRecords s field fields input =
      match markOf l.state with
      | .inside => cfg.nfaTokenizer.fieldRecords l.state (field ++ l.out) fields l.rest
      | .field => cfg.nfaTokenizer.fieldRecords l.state [] (fields ++ [field ++ l.out]) l.rest
      | .record =>
        (fields ++ [field ++ l.out]) :: cfg.nfaTokenizer.fieldRecords l.state [] [] l.rest

theorem nfaFieldLoop_spec (hs : s ≠ .end) (input : List UInt8) (hroom : input.length ≤ room)
    (hstart : markOf s = .inside ∨ input ≠ []) :
    cfg.NfaFieldSpec s input (cfg.nfaFieldLoop s input room) := by
  induction input generalizing s room with
  | nil =>
    have hmark : markOf s = .inside := hstart.resolve_right fun h => h rfl
    rw [nfaFieldLoop]
    exact ⟨hs, List.suffix_refl _, fun h => absurd rfl h, fun field fields => by simp [hmark]⟩
  | cons c rest ih =>
    have hne := cfg.nfaTokenizer_step_ne_end hs c
    have hcopied := cfg.length_copied_nfa s c
    rw [List.length_cons] at hroom
    rw [cfg.nfaFieldLoop_cons hs c rest (by omega)]
    by_cases hmark : markOf (cfg.nfaTokenizer.step s c).1 = .inside
    · rw [if_pos hmark]
      have hspec := ih hne
        (show rest.length ≤ room - (cfg.nfaTokenizer.copied s c).length by omega) (Or.inl hmark)
      refine ⟨hspec.ne, hspec.suffix.trans (List.suffix_cons c rest), fun _ => ?_,
        fun field fields => ?_⟩
      · exact Nat.lt_succ_of_le hspec.suffix.length_le
      · simp [Tokenizer.fieldRecords, hmark, hspec.records]
    · rw [if_neg hmark]
      refine ⟨hne, List.suffix_cons c rest, fun _ => Nat.lt_succ_self _, fun field fields => ?_⟩
      rewrite [Tokenizer.fieldRecords, nfaTokenizer_mark]
      cases h : markOf (cfg.nfaTokenizer.step s c).1 with
      | inside => exact absurd h hmark
      | field => rfl
      | record => rfl

end Config

/-! ### Runs -/

theorem recordResultFromNfa_eq {s : NfaState} (hs : s ≠ .end) (inpdone outdone endsdone : Bool) :
    (Config.recordResultFromNfa s inpdone outdone endsdone = .record ↔ markOf s = .record) ∧
      Config.recordResultFromNfa s inpdone outdone endsdone ≠ .end := by
  revert hs inpdone outdone endsdone
  cases s <;> decide

theorem fieldResultFromNfa_eq {s : NfaState} (hs : s ≠ .end) (inpdone outdone : Bool) :
    (Config.fieldResultFromNfa s inpdone outdone = .field true ↔ markOf s = .record) ∧
      (Config.fieldResultFromNfa s inpdone outdone = .field false ↔ markOf s = .field) ∧
      Config.fieldResultFromNfa s inpdone outdone ≠ .end := by
  revert hs inpdone outdone
  cases s <;> decide

/-- The empty chunk is as good as none. -/
theorem streamRecords_empty (bufs : Nat → Nat × Nat) (fuel i : Nat) (r : Reader)
    (out : List UInt8) (ends : List Nat) :
    streamRecords bufs fuel i r out ends [[]] = streamRecords bufs fuel i r out ends [] := by
  cases fuel with
  | zero => rfl
  | succ fuel =>
    have hunread : ∀ n, unread [[]] n = unread [] n := fun n => by simp [unread]
    simp [streamRecords, hunread]

theorem streamRecords_unread (bufs : Nat → Nat × Nat) (fuel i : Nat) (r : Reader)
    (out : List UInt8) (ends : List Nat) (input : List UInt8) (n : Nat) :
    streamRecords bufs fuel i r out ends (unread [input] n) =
      streamRecords bufs fuel i r out ends [input.drop n] := by
  simp only [unread]
  by_cases h : input.length ≤ n
  · simp [h, List.drop_eq_nil_of_le h, streamRecords_empty]
  · simp [h]

section Runs

variable {r : Reader}

variable {endsLen : Nat}

/-- The call at the end of the input. -/
theorem readRecord_nil_nfa (h : r.useNfa = true) (outLen : Nat) (hends : endsLen ≠ 0) :
    if Config.transitionFinalNfa r.nfaState = endRecord then
      (r.readRecord [] outLen endsLen).1.useNfa = true ∧
        (r.readRecord [] outLen endsLen).1.nfaState = endRecord ∧
        (r.readRecord [] outLen endsLen).2 = ⟨.record, 0, 0, [], [r.outputPos]⟩
    else (r.readRecord [] outLen endsLen).2 = ⟨.end, 0, 0, [], []⟩ := by
  have hfinal : Config.transitionFinalNfa r.nfaState = endRecord ∨
      Config.transitionFinalNfa r.nfaState = .end := by
    cases r.nfaState <;> decide
  unfold Reader.readRecord
  rw [r.stripUtf8Bom_nil]
  dsimp only
  rw [h, if_pos rfl, Reader.readRecordNfa]
  rcases hfinal with hf | hf
  · simp [hf, Config.recordResultFromNfa, h, hends]
  · simp [hf, Config.recordResultFromNfa]

theorem readField_nil_nfa (h : r.useNfa = true) (outLen : Nat) :
    if Config.transitionFinalNfa r.nfaState = endRecord then
      (r.readField [] outLen).1.useNfa = true ∧
        (r.readField [] outLen).1.nfaState = endRecord ∧
        (r.readField [] outLen).2 = ⟨.field true, 0, []⟩
    else (r.readField [] outLen).2 = ⟨.end, 0, []⟩ := by
  have hfinal : Config.transitionFinalNfa r.nfaState = endRecord ∨
      Config.transitionFinalNfa r.nfaState = .end := by
    cases r.nfaState <;> decide
  unfold Reader.readField
  rw [r.stripUtf8Bom_nil]
  dsimp only
  rw [h, if_pos rfl, Reader.readFieldNfa]
  rcases hfinal with hf | hf
  · simp [hf, Config.fieldResultFromNfa, h]
  · simp [hf, Config.fieldResultFromNfa]

/-- What a call of `read_record` on input that is left does, with room for all of it. -/
structure NfaRecordCall (r : Reader) (input : List UInt8) (r' : Reader) (x : RecordRead) :
    Prop where
  useNfa : r'.useNfa = true
  ne : r'.nfaState ≠ .end
  cfg : r'.cfg = r.cfg
  hasRead : r'.hasRead = true
  outputPos : r'.outputPos =
    if markOf r'.nfaState = .record then 0 else r.outputPos + x.out.length
  outStart : x.outStart = r.outputPos
  isRecord : x.res = .record ↔ markOf r'.nfaState = .record
  notEnd : x.res ≠ .end
  progress : (input.drop x.nin).length < input.length
  all : markOf r'.nfaState ≠ .record → input.drop x.nin = []
  records : ∀ out ends, out.length = r.outputPos →
    r.cfg.nfaTokenizer.records r.nfaState out ends input =
      if markOf r'.nfaState = .record then
        slices (out ++ x.out) (ends ++ x.ends) ::
          r.cfg.nfaTokenizer.records r'.nfaState [] [] (input.drop x.nin)
      else
        r.cfg.nfaTokenizer.records r'.nfaState (out ++ x.out) (ends ++ x.ends) (input.drop x.nin)

variable {outLen : Nat} {input : List UInt8}

theorem readRecord_call_nfa (h : r.useNfa = true) (hs : r.nfaState ≠ .end)
    (hread : r.hasRead = true) (hin : input ≠ []) (hzero : r.outputPos = 0)
    (hout : input.length < outLen) (hends : input.length < endsLen) :
    NfaRecordCall r input (r.readRecord input outLen endsLen).1
      (r.readRecord input outLen endsLen).2 := by
  have hspec := r.cfg.nfaRecordLoop_spec hs r.outputPos input
    (show input.length ≤ outLen - r.outputPos by omega) (Nat.le_of_lt hends) (Or.inr hin)
  have houtLen : outLen ≠ 0 := by omega
  have hendsLen : endsLen ≠ 0 := by omega
  unfold Reader.readRecord
  rw [Reader.stripUtf8Bom_hasRead hread]
  dsimp only
  rw [if_pos h, Reader.readRecordNfa, if_neg hin, if_neg houtLen, if_neg hendsLen]
  generalize r.cfg.nfaRecordLoop r.outputPos r.nfaState input (outLen - r.outputPos) endsLen = l
    at hspec
  have hdrop : input.drop (input.length - l.rest.length) = l.rest :=
    Reader.drop_of_suffix hspec.suffix
  obtain ⟨hrec, hnotEnd⟩ := recordResultFromNfa_eq hspec.ne l.rest.isEmpty
    (outLen ≤ r.outputPos + l.out.length) (endsLen ≤ l.ends.length)
  exact
    { useNfa := h
      ne := hspec.ne
      cfg := rfl
      hasRead := rfl
      outputPos := by simp [hrec]
      outStart := rfl
      isRecord := hrec
      notEnd := hnotEnd
      progress := by
        show (input.drop (input.length - l.rest.length)).length < _
        rw [hdrop]
        exact hspec.progress hin
      all := fun hmark => by
        show input.drop (input.length - l.rest.length) = _
        rw [hdrop]
        exact hspec.all hmark
      records := fun out ends hpos => by
        show _ = if _ then _ :: r.cfg.nfaTokenizer.records l.state [] []
            (input.drop (input.length - l.rest.length)) else
          r.cfg.nfaTokenizer.records l.state _ _ (input.drop (input.length - l.rest.length))
        rw [hdrop]
        exact hspec.records out ends hpos }

/-- What a call of `read_field` on input that is left does, with room for all of it. -/
structure NfaFieldCall (r : Reader) (input : List UInt8) (r' : Reader) (x : FieldRead) :
    Prop where
  useNfa : r'.useNfa = true
  ne : r'.nfaState ≠ .end
  cfg : r'.cfg = r.cfg
  hasRead : r'.hasRead = true
  isRecord : x.res = .field true ↔ markOf r'.nfaState = .record
  isField : x.res = .field false ↔ markOf r'.nfaState = .field
  notEnd : x.res ≠ .end
  progress : (input.drop x.nin).length < input.length
  records : ∀ field fields,
    r.cfg.nfaTokenizer.fieldRecords r.nfaState field fields input =
      match markOf r'.nfaState with
      | .inside =>
        r.cfg.nfaTokenizer.fieldRecords r'.nfaState (field ++ x.out) fields (input.drop x.nin)
      | .field =>
        r.cfg.nfaTokenizer.fieldRecords r'.nfaState [] (fields ++ [field ++ x.out])
          (input.drop x.nin)
      | .record =>
        (fields ++ [field ++ x.out]) ::
          r.cfg.nfaTokenizer.fieldRecords r'.nfaState [] [] (input.drop x.nin)

theorem readField_call_nfa (h : r.useNfa = true) (hs : r.nfaState ≠ .end) (hread : r.hasRead = true)
    (hin : input ≠ []) (hout : input.length < outLen) :
    NfaFieldCall r input (r.readField input outLen).1 (r.readField input outLen).2 := by
  have hspec := r.cfg.nfaFieldLoop_spec hs input (Nat.le_of_lt hout) (Or.inr hin)
  have houtLen : outLen ≠ 0 := by omega
  unfold Reader.readField
  rw [Reader.stripUtf8Bom_hasRead hread]
  dsimp only
  rw [if_pos h, Reader.readFieldNfa, if_neg hin, if_neg houtLen]
  generalize r.cfg.nfaFieldLoop r.nfaState input outLen = l at hspec
  have hdrop : input.drop (input.length - l.rest.length) = l.rest :=
    Reader.drop_of_suffix hspec.suffix
  obtain ⟨hrec, hfield, hnotEnd⟩ := fieldResultFromNfa_eq hspec.ne l.rest.isEmpty
    (outLen ≤ l.out.length)
  exact
    { useNfa := h
      ne := hspec.ne
      cfg := rfl
      hasRead := rfl
      isRecord := hrec
      isField := hfield
      notEnd := hnotEnd
      progress := by
        show (input.drop (input.length - l.rest.length)).length < _
        rw [hdrop]
        exact hspec.progress hin
      records := fun field fields => by
        have hrecords := hspec.records field fields
        rw [← hdrop] at hrecords
        exact hrecords }

variable {fuel : Nat}

theorem nfaStreamRecords_nil (h : r.useNfa = true) {out : List UInt8}
    (hpos : out.length = r.outputPos) (ends : List Nat) (i : Nat) (hends : endsLen ≠ 0)
    (hfuel : 2 ≤ fuel) :
    streamRecords (fun _ => (outLen, endsLen)) fuel i r out ends [] =
      some (r.cfg.nfaTokenizer.records r.nfaState out ends []) := by
  obtain ⟨fuel, rfl⟩ : ∃ n, fuel = n + 2 := ⟨fuel - 2, by omega⟩
  have hcall := readRecord_nil_nfa h outLen hends
  have hpending : r.cfg.nfaTokenizer.pending r.nfaState =
      decide (Config.transitionFinalNfa r.nfaState = endRecord) := rfl
  rw [streamRecords, Tokenizer.records, hpending]
  by_cases hp : Config.transitionFinalNfa r.nfaState = endRecord
  · rw [if_pos hp] at hcall
    obtain ⟨hnfa, hstate, hx⟩ := hcall
    have hend := readRecord_nil_nfa hnfa outLen hends
    rw [hstate, if_neg (by decide)] at hend
    simp [hx, unread, streamRecords, hend, hpos, hp]
  · rw [if_neg hp] at hcall
    simp [hcall, hp]

/-- **Reading records with the NFA.** The caller with room for all of the input gets the records of
    the machine. -/
theorem nfaStreamRecords_eq (h : r.useNfa = true) (hs : r.nfaState ≠ .end)
    (hread : r.hasRead = true) {out : List UInt8} (hpos : out.length = r.outputPos)
    (hzero : input ≠ [] → r.outputPos = 0) (ends : List Nat) (i : Nat)
    (hout : input.length < outLen) (hends : input.length < endsLen)
    (hfuel : input.length + 2 ≤ fuel) :
    streamRecords (fun _ => (outLen, endsLen)) fuel i r out ends [input] =
      some (r.cfg.nfaTokenizer.records r.nfaState out ends input) := by
  induction fuel generalizing r input out ends i with
  | zero => omega
  | succ fuel ih =>
    by_cases hin : input = []
    · subst hin
      exact nfaStreamRecords_nil h hpos ends i (Nat.ne_of_gt hends) hfuel
    · have hcall := readRecord_call_nfa h hs hread hin (hzero hin) hout hends
      rw [streamRecords, List.headD_cons]
      generalize r.readRecord input outLen endsLen = call at hcall
      obtain ⟨r', x⟩ := call
      dsimp only at hcall ⊢
      have hprogress := hcall.progress
      rw [if_neg (by simp [hcall.outStart, hzero hin]), hcall.records out ends hpos]
      simp only [streamRecords_unread]
      by_cases hmark : markOf r'.nfaState = .record
      · have hpos' : r'.outputPos = 0 := by
          simp [hcall.outputPos, hmark]
        have hlen : ([] : List UInt8).length = r'.outputPos := hpos'.symm
        have hnext := ih hcall.useNfa hcall.ne hcall.hasRead hlen (fun _ => hpos') [] (i + 1)
          (show (input.drop x.nin).length < outLen by omega) (by omega) (by omega)
        rw [hcall.cfg] at hnext
        simp [hmark, hcall.isRecord.mpr hmark, hnext]
      · have hpos' : (out ++ x.out).length = r'.outputPos := by
          simp [hcall.outputPos, hmark, hpos]
        have hnext := ih hcall.useNfa hcall.ne hcall.hasRead hpos'
          (fun hh => absurd (hcall.all hmark) hh) (ends ++ x.ends) (i + 1)
          (by omega) (by omega) (by omega)
        rw [hcall.cfg] at hnext
        rw [if_neg hmark, ← hnext]
        cases hres : x.res with
        | record => exact absurd (hcall.isRecord.mp hres) hmark
        | «end» => exact absurd hres hcall.notEnd
        | inputEmpty => rfl
        | outputFull => rfl
        | outputEndsFull => rfl

theorem nfaFieldwiseRecords_nil (bufs : Nat → Nat) (h : r.useNfa = true) (field : List UInt8)
    (fields : List (List UInt8)) (i : Nat) (hfuel : 2 ≤ fuel) :
    fieldwiseRecords bufs fuel i r field fields [] =
      some (r.cfg.nfaTokenizer.fieldRecords r.nfaState field fields []) := by
  obtain ⟨fuel, rfl⟩ : ∃ n, fuel = n + 2 := ⟨fuel - 2, by omega⟩
  have hcall := readField_nil_nfa h (bufs i)
  have hpending : r.cfg.nfaTokenizer.pending r.nfaState =
      decide (Config.transitionFinalNfa r.nfaState = endRecord) := rfl
  rw [fieldwiseRecords, Tokenizer.fieldRecords, hpending]
  by_cases hp : Config.transitionFinalNfa r.nfaState = endRecord
  · rw [if_pos hp] at hcall
    obtain ⟨hnfa, hstate, hx⟩ := hcall
    have hend := readField_nil_nfa hnfa (bufs (i + 1))
    rw [hstate, if_neg (by decide)] at hend
    simp [hx, fieldwiseRecords, hend, hp]
  · rw [if_neg hp] at hcall
    simp [hcall, hp]

/-- **Reading fields with the NFA.** -/
theorem nfaFieldwiseRecords_eq (h : r.useNfa = true) (hs : r.nfaState ≠ .end)
    (hread : r.hasRead = true) (field : List UInt8) (fields : List (List UInt8)) (i : Nat)
    (hout : input.length < outLen) (hfuel : input.length + 2 ≤ fuel) :
    fieldwiseRecords (fun _ => outLen) fuel i r field fields input =
      some (r.cfg.nfaTokenizer.fieldRecords r.nfaState field fields input) := by
  induction fuel generalizing r input field fields i with
  | zero => omega
  | succ fuel ih =>
    by_cases hin : input = []
    · subst hin
      exact nfaFieldwiseRecords_nil _ h field fields i hfuel
    · have hcall := readField_call_nfa h hs hread hin hout
      rw [fieldwiseRecords]
      generalize r.readField input outLen = call at hcall
      obtain ⟨r', x⟩ := call
      dsimp only at hcall ⊢
      have hprogress := hcall.progress
      have hnext := fun field fields => ih hcall.useNfa hcall.ne hcall.hasRead field fields
        (i + 1) (show (input.drop x.nin).length < outLen by omega) (by omega)
      rw [hcall.cfg] at hnext
      rw [hcall.records field fields]
      cases hmark : markOf r'.nfaState with
      | record =>
        simp [hcall.isRecord.mpr hmark, hnext]
      | field =>
        simp [hcall.isField.mpr hmark, hnext]
      | inside =>
        rw [← hnext]
        cases hres : x.res with
        | field recordEnd =>
          cases recordEnd with
          | true => exact absurd (hcall.isRecord.mp hres) (by simp [hmark])
          | false => exact absurd (hcall.isField.mp hres) (by simp [hmark])
        | «end» => exact absurd hres hcall.notEnd
        | inputEmpty => rfl
        | outputFull => rfl

end Runs

/-! ### Whole runs -/

section Build

variable (cfg : Config)

/-- The records of an input, as the NFA reads them. -/
def Config.nfaRecords (input : List UInt8) : List (List (List UInt8)) :=
  cfg.nfaTokenizer.records startRecord [] [] (withoutBom input)

theorem nfaStreamRecords_build {input : List UInt8} {outLen endsLen : Nat}
    (hout : input.length < outLen) (hends : input.length < endsLen) {fuel : Nat}
    (hfuel : input.length + 2 ≤ fuel) :
    streamRecords (fun _ => (outLen, endsLen)) fuel 0 (Reader.build cfg true) [] [] [input] =
      some (cfg.nfaRecords input) := by
  have hlen := length_withoutBom_le input
  have hfirst : streamRecords (fun _ => (outLen, endsLen)) fuel 0 (Reader.build cfg true) [] []
      [input] = streamRecords (fun _ => (outLen, endsLen)) fuel 0
        { Reader.build cfg true with hasRead := true } [] [] [withoutBom input] := by
    by_cases hbom : Reader.utf8Bom <+: input
    · obtain ⟨rest, rfl⟩ := hbom
      rw [streamRecords_first_bom rfl, withoutBom_append]
    · rw [streamRecords_first rfl _ _ _ _ _ hbom, withoutBom, if_neg hbom]
  have hstart : startRecord ≠ .end := by decide
  rw [hfirst, nfaStreamRecords_eq rfl hstart rfl rfl (fun _ => rfl) [] 0 (by omega) (by omega)
    (by omega)]
  rfl

theorem nfaFieldwiseRecords_build {input : List UInt8} {outLen : Nat} (hout : input.length < outLen)
    {fuel : Nat} (hfuel : input.length + 2 ≤ fuel) :
    fieldwiseRecords (fun _ => outLen) fuel 0 (Reader.build cfg true) [] [] input =
      some (cfg.nfaRecords input) := by
  have hlen := length_withoutBom_le input
  have hstart : startRecord ≠ .end := by decide
  rw [fieldwiseRecords_first rfl, nfaFieldwiseRecords_eq rfl hstart rfl [] [] 0 (by omega)
    (by omega)]
  exact congrArg some (cfg.nfaTokenizer.records_eq_fieldRecords startRecord [] [] _).symm

end Build

end TeaclaveCrates.Csv
