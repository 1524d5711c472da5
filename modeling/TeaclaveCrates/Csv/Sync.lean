import TeaclaveCrates.Csv.NfaReading

namespace TeaclaveCrates.Csv

open Lib NfaState NfaInputAction
open Tokenizer (copied fieldRecords records)

/-!
# The table against the automaton

The table and the NFA take the same steps outside comments. They differ in two places: a comment
that the end of the input cuts off is a record for the table only, and where the line feed has no
class of its own, no comment ends in the table.

* `InSync` — the inputs on which these differences do not show.
* `records_eq_iff` — the two machines give the same records on just these inputs.
* `nfa_dfa_agree_iff` — the same for whole runs of the two readers.
-/

namespace Config

variable (cfg : Config)

/-! ### Inputs on which the two agree -/

/-- The state of the NFA behind an input. -/
def stateAfter (s : NfaState) : List UInt8 → NfaState
  | [] => s
  | c :: rest => stateAfter (cfg.nextByte s c).1 rest

/-- The input behind the byte that starts the first comment. -/
def behindComment (s : NfaState) : List UInt8 → Option (List UInt8)
  | [] => none
  | c :: rest =>
    if (cfg.nextByte s c).1 = inComment then some rest else behindComment (cfg.nextByte s c).1 rest

/-- The input behind the first line feed. -/
def behindLine : List UInt8 → List UInt8
  | [] => []
  | c :: rest => if c = LF then rest else behindLine rest

/-- Only line ends and comments; the last comment need not end. -/
def blank (inside : Bool) : List UInt8 → Bool
  | [] => true
  | c :: rest =>
    if inside then blank (!decide (c = LF)) rest
    else if cfg.term.equals c then blank false rest
    else if cfg.comment = some c then blank true rest
    else false

/-- Behind the quote that closes an empty field: the record ends, and nothing but blank lines and
    comments follow. -/
def closes : List UInt8 → Bool
  | [] => true
  | c :: rest =>
    !(cfg.doubleQuote && cfg.quote == c) && cfg.delimiter != c && cfg.term.equals c &&
      cfg.blank false rest

/-- Behind the quote that opens an empty field, which the end of the input may close. -/
def emptyQuoted : List UInt8 → Bool
  | [] => true
  | c :: rest =>
    if cfg.quote = c then cfg.closes rest else decide (cfg.escape = some c) && rest.isEmpty

/-- One record with one empty field, between blank lines and comments. -/
def soleEmpty (inside : Bool) : List UInt8 → Bool
  | [] => false
  | c :: rest =>
    if inside then soleEmpty (!decide (c = LF)) rest
    else if cfg.term.equals c then soleEmpty false rest
    else if cfg.comment = some c then soleEmpty true rest
    else cfg.quoting && cfg.quote == c && cfg.emptyQuoted rest

/-- The inputs on which the NFA and the table give the same records. Where the line feed has a class
    of its own, the input must not end inside a comment. Where it has none, the table takes all that
    follows the first comment for one empty record, so that this must be what follows. -/
def InSync (input : List UInt8) : Prop :=
  if cfg.LineFeedCommon then
    ∀ rest, cfg.behindComment startRecord input = some rest →
      cfg.soleEmpty false (behindLine rest) = true
  else cfg.stateAfter startRecord input ≠ inComment

/-! ### Steps -/

variable {s : NfaState}

theorem dfaTokenizer_step (hs : s ≠ inComment) (c : UInt8) :
    cfg.dfaTokenizer.step s c = cfg.nfaTokenizer.step s c := by
  show ((cfg.dfaStep s c).1, decide ((cfg.dfaStep s c).2 = copyToOutput)) = _
  rw [dfaStep, if_neg fun h => hs h.1]
  rfl

theorem dfaTokenizer_step_of_class (hlf : ¬cfg.LineFeedCommon) (s : NfaState) (c : UInt8) :
    cfg.dfaTokenizer.step s c = cfg.nfaTokenizer.step s c := by
  show ((cfg.dfaStep s c).1, decide ((cfg.dfaStep s c).2 = copyToOutput)) = _
  rw [dfaStep, if_neg fun h => hlf h.2.2]
  rfl

/-- Only a comment is pending for the table and not for the NFA. -/
theorem pending_eq (s : NfaState) :
    cfg.dfaTokenizer.pending s = (cfg.nfaTokenizer.pending s || decide (s = inComment)) := by
  show pendingOf s = (decide (transitionFinalNfa s = endRecord) || decide (s = inComment))
  cases s <;> decide

/-- The states between records, with the inside of comments. -/
def between : NfaState → Bool
  | startRecord | endRecord | crlf | inComment => true
  | _ => false

variable {c : UInt8}

/-- Only from a state between records does a byte lead to the start of a record or into a comment,
    and it is not copied. -/
theorem between_of_step (h : (cfg.nfaTokenizer.step s c).1 = startRecord ∨
      (cfg.nfaTokenizer.step s c).1 = inComment) :
    between s = true ∧ cfg.nfaTokenizer.copied s c = [] := by
  have hafter : (cfg.afterField c).1 ≠ startRecord ∧ (cfg.afterField c).1 ≠ inComment := by
    unfold afterField recordTerm
    split_ifs <;> decide
  have hfirst : (cfg.firstOfField c).1 ≠ startRecord ∧ (cfg.firstOfField c).1 ≠ inComment := by
    unfold firstOfField
    split_ifs
    · decide
    · exact hafter
  have hrecord : (cfg.firstOfRecord c).1 = startRecord ∨ (cfg.firstOfRecord c).1 = inComment →
      (cfg.firstOfRecord c).2 ≠ copyToOutput := by
    unfold firstOfRecord
    split_ifs
    · decide
    · decide
    · intro hor
      exact absurd hor (not_or.mpr hfirst)
  have hkey : between s = true ∧ (cfg.nextByte s c).2 ≠ copyToOutput := by
    change (cfg.nextByte s c).1 = startRecord ∨ (cfg.nextByte s c).1 = inComment at h
    revert h
    cases s with
    | startRecord | endRecord =>
      exact fun h => ⟨rfl, hrecord h⟩
    | crlf =>
      simp only [nextByte]
      split_ifs
      · exact fun _ => ⟨rfl, by decide⟩
      · exact fun h => ⟨rfl, hrecord h⟩
    | inComment =>
      simp only [nextByte]
      split_ifs
      all_goals exact fun _ => ⟨rfl, by decide⟩
    | startField | endFieldDelim =>
      intro h
      exact absurd h (not_or.mpr hfirst)
    | inField =>
      intro h
      exact absurd h (not_or.mpr hafter)
    | inDoubleEscapedQuote =>
      simp only [nextByte]
      split_ifs
      · decide
      · intro h
        exact absurd h (not_or.mpr hafter)
    | inQuotedField =>
      simp only [nextByte]
      split_ifs
      all_goals decide
    | inEscapedQuote => simp only [nextByte]; decide
    | endFieldTerm | inRecordTerm =>
      simp only [nextByte, recordTerm]
      split_ifs
      all_goals decide
    | «end» => simp only [nextByte]; decide
  refine ⟨hkey.1, ?_⟩
  rw [copied, if_neg]
  intro hcopy
  exact hkey.2 (of_decide_eq_true hcopy)

/-- What is stored of a record is nothing between records. -/
def Fresh (s : NfaState) (out : List UInt8) (ends : List Nat) : Prop :=
  between s = true → out = [] ∧ ends = []

theorem fresh_step {out : List UInt8} {ends : List Nat} (h : Fresh s out ends)
    (hmark : markOf (cfg.nfaTokenizer.step s c).1 ≠ .record) :
    Fresh (cfg.nfaTokenizer.step s c).1 (out ++ cfg.nfaTokenizer.copied s c)
      (ends ++ cfg.nfaTokenizer.endOf (cfg.nfaTokenizer.step s c).1
        (out.length + (cfg.nfaTokenizer.copied s c).length)) := by
  intro hbetween
  have hor : (cfg.nfaTokenizer.step s c).1 = startRecord ∨
      (cfg.nfaTokenizer.step s c).1 = inComment := by
    revert hmark hbetween
    cases (cfg.nfaTokenizer.step s c).1 <;> decide
  obtain ⟨hs, hcopied⟩ := cfg.between_of_step hor
  obtain ⟨rfl, rfl⟩ := h hs
  have hend : cfg.nfaTokenizer.endOf (cfg.nfaTokenizer.step s c).1
      (([] : List UInt8).length + (cfg.nfaTokenizer.copied s c).length) = [] := by
    rcases hor with hstep | hstep <;> rw [hstep] <;> rfl
  rw [hend, hcopied]
  exact ⟨rfl, rfl⟩

theorem dfaTokenizer_copied (h : cfg.dfaTokenizer.step s c = cfg.nfaTokenizer.step s c) :
    cfg.dfaTokenizer.copied s c = cfg.nfaTokenizer.copied s c := by
  simp [copied, h]

/-! ### Up to the first comment -/

variable (input : List UInt8)

/-- Up to the first comment the two machines give the same records. -/
theorem records_split (hs : s ≠ inComment) {out : List UInt8} {ends : List Nat}
    (hfresh : Fresh s out ends) :
    match cfg.behindComment s input with
    | none =>
      cfg.dfaTokenizer.records s out ends input = cfg.nfaTokenizer.records s out ends input
    | some rest =>
      ∃ before,
        cfg.dfaTokenizer.records s out ends input =
            before ++ cfg.dfaTokenizer.records inComment [] [] rest ∧
          cfg.nfaTokenizer.records s out ends input =
            before ++ cfg.nfaTokenizer.records inComment [] [] rest := by
  induction input generalizing s out ends with
  | nil =>
    simp [behindComment, records, cfg.pending_eq, hs, decide_false]
  | cons c rest ih =>
    have hstep := cfg.dfaTokenizer_step hs c
    have hcopied := cfg.dfaTokenizer_copied hstep
    have hendOf : ∀ s pos, cfg.dfaTokenizer.endOf s pos = cfg.nfaTokenizer.endOf s pos :=
      fun _ _ => rfl
    have hnext : (cfg.nextByte s c).1 = (cfg.nfaTokenizer.step s c).1 := rfl
    rw [behindComment, hnext]
    by_cases hrec : markOf (cfg.nfaTokenizer.step s c).1 = .record
    · have hne : (cfg.nfaTokenizer.step s c).1 ≠ inComment := by
        intro hh
        rw [hh] at hrec
        exact absurd hrec (by decide)
      have hrest := @ih _ hne [] [] fun _ => ⟨rfl, rfl⟩
      rw [if_neg hne, cfg.nfaTokenizer.records_cons_of_record hrec,
        cfg.dfaTokenizer.records_cons_of_record (by rw [hstep]; exact hrec), hstep, hcopied, hendOf]
      cases hbehind : cfg.behindComment (cfg.nfaTokenizer.step s c).1 rest with
      | none =>
        rw [hbehind] at hrest
        exact congrArg _ hrest
      | some more =>
        rw [hbehind] at hrest
        obtain ⟨before, hd, hn⟩ := hrest
        exact ⟨_ :: before, congrArg _ hd, congrArg _ hn⟩
    · have hfresh' := cfg.fresh_step hfresh hrec
      rw [cfg.nfaTokenizer.records_cons_of_ne hrec,
        cfg.dfaTokenizer.records_cons_of_ne (by rw [hstep]; exact hrec), hstep, hcopied, hendOf]
      by_cases hne : (cfg.nfaTokenizer.step s c).1 = inComment
      · obtain ⟨hout, hends⟩ := hfresh' (by rw [hne]; rfl)
        rw [hout, hends, hne]
        exact ⟨[], rfl, rfl⟩
      · rw [if_neg hne]
        exact ih hne hfresh'

/-- Where the line feed has no class, the table never leaves a comment. -/
theorem dfa_records_comment (hlf : cfg.LineFeedCommon) (input : List UInt8) :
    cfg.dfaTokenizer.records inComment [] [] input = [[[]]] := by
  induction input with
  | nil => rfl
  | cons c rest ih =>
    have hstep : cfg.dfaTokenizer.step inComment c = (inComment, false) := by
      show ((cfg.dfaStep inComment c).1, decide ((cfg.dfaStep inComment c).2 = copyToOutput)) = _
      by_cases hc : c = LF <;> simp [dfaStep, nextByte, hc, hlf]
    have hcopied : cfg.dfaTokenizer.copied inComment c = [] := by
      simp [copied, hstep]
    have hmark : cfg.dfaTokenizer.mark (cfg.dfaTokenizer.step inComment c).1 ≠ .record := by
      rw [hstep]
      show markOf inComment ≠ .record
      decide
    rw [cfg.dfaTokenizer.records_cons_of_ne hmark, hcopied, hstep]
    exact ih

/-- The NFA leaves it behind the line feed. -/
theorem nfa_records_comment :
    cfg.nfaTokenizer.fieldRecords inComment [] [] input =
      cfg.nfaTokenizer.fieldRecords startRecord [] [] (behindLine input) := by
  induction input with
  | nil => rfl
  | cons c rest ih =>
    have hstep : cfg.nfaTokenizer.step inComment c =
        (if c = LF then startRecord else inComment, false) := by
      show ((cfg.nextByte inComment c).1, decide ((cfg.nextByte inComment c).2 = copyToOutput)) = _
      by_cases hc : c = LF <;> simp [nextByte, hc]
    have hcopied : cfg.nfaTokenizer.copied inComment c = [] := by
      simp [copied, hstep]
    rw [fieldRecords, hcopied, hstep, behindLine]
    by_cases hc : c = LF
    · rw [if_pos hc, if_pos hc]
      rfl
    · rw [if_neg hc, if_neg hc]
      exact ih

/-! ### Where the line feed has a class -/

/-- The table adds a record when the input ends inside a comment. -/
theorem records_of_class (hlf : ¬cfg.LineFeedCommon) (input : List UInt8) {out : List UInt8}
    {ends : List Nat} (hfresh : Fresh s out ends) :
    cfg.dfaTokenizer.records s out ends input =
      cfg.nfaTokenizer.records s out ends input ++
        if cfg.stateAfter s input = inComment then [[[]]] else [] := by
  induction input generalizing s out ends with
  | nil =>
    rw [records, records, pending_eq, stateAfter]
    by_cases hs : s = inComment
    · subst hs
      obtain ⟨rfl, rfl⟩ := hfresh rfl
      rfl
    · simp [hs]
  | cons c rest ih =>
    have hstep := cfg.dfaTokenizer_step_of_class hlf s c
    have hcopied := cfg.dfaTokenizer_copied hstep
    have hendOf : ∀ s pos, cfg.dfaTokenizer.endOf s pos = cfg.nfaTokenizer.endOf s pos :=
      fun _ _ => rfl
    have hnext : (cfg.nextByte s c).1 = (cfg.nfaTokenizer.step s c).1 := rfl
    rw [stateAfter, hnext]
    by_cases hrec : markOf (cfg.nfaTokenizer.step s c).1 = .record
    · simp [cfg.nfaTokenizer.records_cons_of_record hrec,
        cfg.dfaTokenizer.records_cons_of_record (by rw [hstep]; exact hrec), hstep, hcopied,
        hendOf, @ih (cfg.nfaTokenizer.step s c).1 [] [] fun _ => ⟨rfl, rfl⟩]
    · simp [cfg.nfaTokenizer.records_cons_of_ne hrec,
        cfg.dfaTokenizer.records_cons_of_ne (by rw [hstep]; exact hrec), hstep, hcopied, hendOf,
        ih (cfg.fresh_step hfresh hrec)]

/-! ### One empty record -/

/-- A record that has begun has the fields so far, and the field so far continues. -/
theorem fieldRecords_begun (hs : inRecord s = true) (field : List UInt8)
    (fields : List (List UInt8)) (input : List UInt8) :
    ∃ more others later,
      cfg.nfaTokenizer.fieldRecords s field fields input =
        (fields ++ (field ++ more) :: others) :: later := by
  induction input generalizing s field fields with
  | nil =>
    have hp : cfg.nfaTokenizer.pending s = true := by
      show decide (transitionFinalNfa s = endRecord) = true
      revert hs
      cases s <;> decide
    rw [fieldRecords, if_pos hp]
    exact ⟨[], [], [], by simp⟩
  | cons c rest ih =>
    have hbegun : Begun (cfg.nfaTokenizer.step s c).1 := cfg.begun_nextByte hs c
    rw [fieldRecords, nfaTokenizer_mark]
    cases hmark : markOf (cfg.nfaTokenizer.step s c).1 with
    | record => exact ⟨cfg.nfaTokenizer.copied s c, [], _, rfl⟩
    | inside =>
      obtain ⟨more, others, later, h⟩ :=
        ih (hbegun.resolve_right (by simp [hmark])) (field ++ cfg.nfaTokenizer.copied s c) fields
      exact ⟨cfg.nfaTokenizer.copied s c ++ more, others, later, by
        rw [← List.append_assoc]
        exact h⟩
    | field =>
      obtain ⟨more, others, later, h⟩ :=
        ih (hbegun.resolve_right (by simp [hmark])) []
          (fields ++ [field ++ cfg.nfaTokenizer.copied s c])
      refine ⟨cfg.nfaTokenizer.copied s c, ([] ++ more) :: others, later, ?_⟩
      simp [h]

/-- So it is not the empty record when something was copied or a field has ended. -/
theorem fieldRecords_ne_empty (hs : inRecord s = true) (field : List UInt8)
    (fields : List (List UInt8)) (h : field ≠ [] ∨ fields ≠ []) (input : List UInt8) :
    cfg.nfaTokenizer.fieldRecords s field fields input ≠ [[[]]] := by
  obtain ⟨more, others, later, heq⟩ := cfg.fieldRecords_begun hs field fields input
  rw [heq]
  intro hh
  have hfirst := (List.cons.inj hh).1
  cases fields with
  | nil =>
    have hfield := (List.cons.inj hfirst).1
    rcases h with h | h
    · exact h (List.append_eq_nil_iff.mp hfield).1
    · exact h rfl
  | cons f fs =>
    have hlen := congrArg List.length hfirst
    simp at hlen

/-- A step inside a record, by what it does. -/
theorem fieldRecords_step {s' : NfaState} {a : NfaInputAction} (h : cfg.nextByte s c = (s', a))
    (field : List UInt8) (fields : List (List UInt8)) (rest : List UInt8) :
    cfg.nfaTokenizer.fieldRecords s field fields (c :: rest) =
      match markOf s' with
      | .inside =>
        cfg.nfaTokenizer.fieldRecords s' (field ++ if a = copyToOutput then [c] else []) fields rest
      | .field =>
        cfg.nfaTokenizer.fieldRecords s' []
          (fields ++ [field ++ if a = copyToOutput then [c] else []]) rest
      | .record =>
        (fields ++ [field ++ if a = copyToOutput then [c] else []]) ::
          cfg.nfaTokenizer.fieldRecords s' [] [] rest := by
  have hstep : cfg.nfaTokenizer.step s c = (s', decide (a = copyToOutput)) := by
    show ((cfg.nextByte s c).1, decide ((cfg.nextByte s c).2 = copyToOutput)) = _
    rw [h]
  rewrite [fieldRecords, copied, hstep, nfaTokenizer_mark]
  cases markOf s' <;> simp only [decide_eq_true_eq]

/-- A byte of a comment is passed over, and the line feed ends it. -/
theorem fieldRecords_inComment (c : UInt8) (rest : List UInt8) :
    cfg.nfaTokenizer.fieldRecords inComment [] [] (c :: rest) =
      cfg.nfaTokenizer.fieldRecords (if !decide (c = LF) then inComment else startRecord) [] []
        rest := by
  have hstep : cfg.nextByte inComment c =
      (if !decide (c = LF) then inComment else startRecord, NfaInputAction.discard) := by
    by_cases hc : c = LF <;> simp [nextByte, hc]
  have hmark : markOf (if !decide (c = LF) then inComment else startRecord) = .inside := by
    split <;> rfl
  rw [cfg.fieldRecords_step hstep, hmark]
  rfl

/-- Between records a terminator is passed over. -/
theorem fieldRecords_blankLine (ht : cfg.term.equals c = true) (rest : List UInt8) :
    cfg.nfaTokenizer.fieldRecords startRecord [] [] (c :: rest) =
      cfg.nfaTokenizer.fieldRecords startRecord [] [] rest := by
  have hstep : cfg.nextByte startRecord c = (startRecord, NfaInputAction.discard) := by
    simp [nextByte, firstOfRecord, ht]
  rw [cfg.fieldRecords_step hstep]
  rfl

/-- Between records the comment byte begins a comment. -/
theorem fieldRecords_commentByte (ht : ¬cfg.term.equals c = true) (hcm : cfg.comment = some c)
    (rest : List UInt8) :
    cfg.nfaTokenizer.fieldRecords startRecord [] [] (c :: rest) =
      cfg.nfaTokenizer.fieldRecords inComment [] [] rest := by
  have hstep : cfg.nextByte startRecord c = (inComment, NfaInputAction.discard) := by
    simp [nextByte, firstOfRecord, ht, hcm]
  rw [cfg.fieldRecords_step hstep]
  rfl

/-- Input without records. -/
theorem fieldRecords_eq_nil_iff (inside : Bool) (input : List UInt8) :
    cfg.nfaTokenizer.fieldRecords (if inside then inComment else startRecord) [] [] input = [] ↔
      cfg.blank inside input = true := by
  induction input generalizing inside with
  | nil => cases inside <;> simp [fieldRecords, nfaTokenizer, transitionFinalNfa, blank]
  | cons c rest ih =>
    cases inside with
    | true =>
      rw [if_pos rfl, cfg.fieldRecords_inComment, blank]
      exact ih _
    | false =>
      rw [if_neg (by decide), blank, if_neg (by decide)]
      by_cases ht : cfg.term.equals c = true
      · rw [cfg.fieldRecords_blankLine ht, if_pos ht]
        exact ih false
      · by_cases hcm : cfg.comment = some c
        · rw [cfg.fieldRecords_commentByte ht hcm, if_neg ht, if_pos hcm]
          exact ih true
        · have hbegun : Begun (cfg.nextByte startRecord c).1 := by
            show Begun (cfg.firstOfRecord c).1
            rw [firstOfRecord, if_neg ht, if_neg hcm]
            exact cfg.begun_firstOfField c
          have hstep : cfg.nextByte startRecord c =
              ((cfg.nextByte startRecord c).1, (cfg.nextByte startRecord c).2) := rfl
          rw [if_neg ht, if_neg hcm, cfg.fieldRecords_step hstep]
          refine ⟨fun h => absurd h ?_, fun h => absurd h (by decide)⟩
          cases hmark : markOf (cfg.nextByte startRecord c).1 with
          | record => exact List.cons_ne_nil _ _
          | inside =>
            obtain ⟨_, _, _, heq⟩ := cfg.fieldRecords_begun
              (hbegun.resolve_right (by simp [hmark])) ([] ++ _) [] rest
            exact fun h => List.cons_ne_nil _ _ (heq.symm.trans h)
          | field =>
            obtain ⟨_, _, _, heq⟩ := cfg.fieldRecords_begun
              (hbegun.resolve_right (by simp [hmark])) [] ([] ++ [_]) rest
            exact fun h => List.cons_ne_nil _ _ (heq.symm.trans h)

/-- Right behind a record, as at the start of one. -/
theorem fieldRecords_endRecord :
    cfg.nfaTokenizer.fieldRecords endRecord [] [] input =
      cfg.nfaTokenizer.fieldRecords startRecord [] [] input := by
  cases input with
  | nil => rfl
  | cons c rest =>
    have hstep : cfg.nfaTokenizer.step endRecord c = cfg.nfaTokenizer.step startRecord c := rfl
    simp [fieldRecords, copied, hstep]

theorem closes_iff (hcrlf : cfg.term ≠ .crlf) (hquoting : cfg.quoting = true)
    (input : List UInt8) :
    cfg.nfaTokenizer.fieldRecords inDoubleEscapedQuote [] [] input = [[[]]] ↔
      cfg.closes input = true := by
  have hisCrlf : cfg.term.isCrlf = false := by
    cases h : cfg.term with
    | crlf => exact absurd h hcrlf
    | any b => rfl
  cases input with
  | nil => exact ⟨fun _ => rfl, fun _ => rfl⟩
  | cons c rest =>
    rw [closes]
    by_cases hq : cfg.doubleQuote = true ∧ cfg.quote = c
    · have hstep : cfg.nextByte inDoubleEscapedQuote c = (inQuotedField, copyToOutput) := by
        simp only [nextByte]
        rw [if_pos ⟨hquoting, hq⟩]
      have hne := cfg.fieldRecords_ne_empty (show inRecord inQuotedField = true from rfl) [c] []
        (Or.inl (List.cons_ne_nil _ _)) rest
      rw [cfg.fieldRecords_step hstep]
      simp only [hq.1, hq.2, beq_self_eq_true, Bool.and_self, Bool.not_true, Bool.false_and]
      exact ⟨fun h => absurd h hne, fun h => absurd h (by decide)⟩
    · have hafter : cfg.nextByte inDoubleEscapedQuote c = cfg.afterField c := by
        simp only [nextByte]
        rw [if_neg fun h => hq h.2]
      have hq' : (cfg.doubleQuote && cfg.quote == c) = false := by
        rw [Bool.eq_false_iff]
        intro h
        rw [Bool.and_eq_true, beq_iff_eq] at h
        exact hq h
      rw [hq', Bool.not_false, Bool.true_and]
      by_cases hd : cfg.delimiter = c
      · have hstep : cfg.nextByte inDoubleEscapedQuote c =
            (endFieldDelim, NfaInputAction.discard) := by
          simp [hafter, afterField, hd]
        have hne := cfg.fieldRecords_ne_empty (show inRecord endFieldDelim = true from rfl) [] [[]]
          (Or.inr (List.cons_ne_nil _ _)) rest
        rw [cfg.fieldRecords_step hstep]
        simp only [hd, bne_self_eq_false, Bool.false_and]
        exact ⟨fun h => absurd h hne, fun h => absurd h (by decide)⟩
      · have hd' : (cfg.delimiter != c) = true := bne_iff_ne.mpr hd
        rw [hd', Bool.true_and]
        by_cases ht : cfg.term.equals c = true
        · have hstep : cfg.nextByte inDoubleEscapedQuote c =
              (endRecord, NfaInputAction.discard) := by
            rw [hafter, afterField, if_neg hd, if_pos ht, recordTerm, hisCrlf,
              if_neg fun h => absurd h.1 (by decide)]
          have hblank := cfg.fieldRecords_eq_nil_iff false rest
          rw [if_neg (by decide)] at hblank
          rw [cfg.fieldRecords_step hstep, ht, Bool.true_and, ← hblank]
          show [[]] :: cfg.nfaTokenizer.fieldRecords endRecord [] [] rest = _ ↔ _
          rw [fieldRecords_endRecord]
          exact ⟨fun h => (List.cons.inj h).2, fun h => by rw [h]⟩
        · have hstep : cfg.nextByte inDoubleEscapedQuote c = (inField, copyToOutput) := by
            simp [hafter, afterField, hd, ht]
          have hne := cfg.fieldRecords_ne_empty (show inRecord inField = true from rfl) [c] []
            (Or.inl (List.cons_ne_nil _ _)) rest
          rw [cfg.fieldRecords_step hstep, Bool.eq_false_iff.mpr ht, Bool.false_and]
          exact ⟨fun h => absurd h hne, fun h => absurd h (by decide)⟩

theorem emptyQuoted_iff (hcrlf : cfg.term ≠ .crlf) (hquoting : cfg.quoting = true)
    (input : List UInt8) :
    cfg.nfaTokenizer.fieldRecords inQuotedField [] [] input = [[[]]] ↔
      cfg.emptyQuoted input = true := by
  cases input with
  | nil => exact ⟨fun _ => rfl, fun _ => rfl⟩
  | cons c rest =>
    rw [emptyQuoted]
    by_cases hq : cfg.quote = c
    · have hstep : cfg.nextByte inQuotedField c =
          (inDoubleEscapedQuote, NfaInputAction.discard) := by
        simp only [nextByte]
        rw [if_pos ⟨hquoting, hq⟩]
      rw [cfg.fieldRecords_step hstep, if_pos hq]
      exact cfg.closes_iff hcrlf hquoting rest
    · rw [if_neg hq]
      by_cases he : cfg.escape = some c
      · have hstep : cfg.nextByte inQuotedField c = (inEscapedQuote, NfaInputAction.discard) := by
          simp only [nextByte]
          rw [if_neg fun h => hq h.2, if_pos ⟨hquoting, he⟩]
        rw [cfg.fieldRecords_step hstep, decide_eq_true he, Bool.true_and]
        cases rest with
        | nil => exact ⟨fun _ => rfl, fun _ => rfl⟩
        | cons d rest =>
          -- the byte behind the escape is copied
          have hne := cfg.fieldRecords_ne_empty (show inRecord inQuotedField = true from rfl) [d] []
            (Or.inl (List.cons_ne_nil _ _)) rest
          exact ⟨fun h => absurd h hne, fun h => absurd h (by simp)⟩
      · have hstep : cfg.nextByte inQuotedField c = (inQuotedField, copyToOutput) := by
          simp only [nextByte]
          rw [if_neg fun h => hq h.2, if_neg fun h => he h.2]
        have hne := cfg.fieldRecords_ne_empty (show inRecord inQuotedField = true from rfl) [c] []
          (Or.inl (List.cons_ne_nil _ _)) rest
        rw [cfg.fieldRecords_step hstep, decide_eq_false he, Bool.false_and]
        exact ⟨fun h => absurd h hne, fun h => absurd h (by decide)⟩

/-- The inputs that hold one record with one empty field. -/
theorem soleEmpty_iff (hcrlf : cfg.term ≠ .crlf) (inside : Bool) (input : List UInt8) :
    cfg.nfaTokenizer.fieldRecords (if inside then inComment else startRecord) [] [] input =
        [[[]]] ↔
      cfg.soleEmpty inside input = true := by
  induction input generalizing inside with
  | nil =>
    cases inside <;> simp [fieldRecords, nfaTokenizer, transitionFinalNfa, soleEmpty]
  | cons c rest ih =>
    cases inside with
    | true =>
      rw [if_pos rfl, cfg.fieldRecords_inComment, soleEmpty]
      exact ih _
    | false =>
      rw [if_neg (by decide), soleEmpty, if_neg (by decide)]
      by_cases ht : cfg.term.equals c = true
      · rw [cfg.fieldRecords_blankLine ht, if_pos ht]
        exact ih false
      · by_cases hcm : cfg.comment = some c
        · rw [cfg.fieldRecords_commentByte ht hcm, if_neg ht, if_pos hcm]
          exact ih true
        · have hfirst : cfg.nextByte startRecord c = cfg.firstOfField c := by
            show cfg.firstOfRecord c = _
            simp [firstOfRecord, ht, hcm]
          rw [if_neg ht, if_neg hcm]
          by_cases hq : cfg.quoting = true ∧ cfg.quote = c
          · have hstep : cfg.nextByte startRecord c =
                (inQuotedField, NfaInputAction.discard) := by
              simp [hfirst, firstOfField, hq]
            rw [cfg.fieldRecords_step hstep, hq.1, hq.2, beq_self_eq_true, Bool.true_and]
            exact cfg.emptyQuoted_iff hcrlf hq.1 rest
          · have hq' : (cfg.quoting && cfg.quote == c) = false := by
              rw [Bool.eq_false_iff]
              intro h
              rw [Bool.and_eq_true, beq_iff_eq] at h
              exact hq h
            rw [hq', Bool.false_and]
            refine ⟨fun h => absurd h ?_, fun h => absurd h (by decide)⟩
            by_cases hd : cfg.delimiter = c
            · have hstep : cfg.nextByte startRecord c =
                  (endFieldDelim, NfaInputAction.discard) := by
                simp [hfirst, firstOfField, hq, afterField, hd]
              rw [cfg.fieldRecords_step hstep]
              exact cfg.fieldRecords_ne_empty (show inRecord endFieldDelim = true from rfl) [] _
                (Or.inr (List.cons_ne_nil _ _)) rest
            · have hstep : cfg.nextByte startRecord c = (inField, copyToOutput) := by
                simp [hfirst, firstOfField, hq, afterField, hd, ht]
              rw [cfg.fieldRecords_step hstep]
              exact cfg.fieldRecords_ne_empty (show inRecord inField = true from rfl) _ []
                (Or.inl (List.cons_ne_nil _ _)) rest

/-! ### Agreement -/

/-- **The two machines.** They give the same records on the inputs of `InSync`, and on no others. -/
theorem records_eq_iff :
    cfg.nfaTokenizer.records startRecord [] [] input =
        cfg.dfaTokenizer.records startRecord [] [] input ↔
      cfg.InSync input := by
  unfold InSync
  by_cases hlf : cfg.LineFeedCommon
  · have hcrlf : cfg.term ≠ .crlf := by
      intro h
      exact hlf (by simp [classBytes, h])
    have hsplit := cfg.records_split input (show startRecord ≠ inComment by decide)
      (show Fresh startRecord [] [] from fun _ => ⟨rfl, rfl⟩)
    rw [if_pos hlf]
    cases hbehind : cfg.behindComment startRecord input with
    | none =>
      rw [hbehind] at hsplit
      exact ⟨fun _ rest h => (by cases h), fun _ => hsplit.symm⟩
    | some rest =>
      rw [hbehind] at hsplit
      obtain ⟨before, hd, hn⟩ := hsplit
      have hfields := cfg.nfaTokenizer.records_eq_fieldRecords inComment [] [] rest
      have hsole := cfg.soleEmpty_iff hcrlf false (behindLine rest)
      rw [if_neg (by decide)] at hsole
      have hcomment : cfg.nfaTokenizer.records inComment [] [] rest = [[[]]] ↔
          cfg.soleEmpty false (behindLine rest) = true := by
        rw [← hsole, ← cfg.nfa_records_comment]
        exact Eq.congr_left hfields
      rw [hd, hn, List.append_cancel_left_eq, cfg.dfa_records_comment hlf, hcomment]
      constructor
      · rintro h rest' heq
        rw [← Option.some.inj heq]
        exact h
      · exact fun h => h rest rfl
  · rw [if_neg hlf, cfg.records_of_class hlf input (show Fresh startRecord [] [] from
      fun _ => ⟨rfl, rfl⟩)]
    by_cases hcomment : cfg.stateAfter startRecord input = inComment
    · simp [hcomment]
    · simp [hcomment]

end Config

/-! ### Whole runs -/

/-- The table on one chunk with all of the input. -/
theorem streamRecords_one (cfg : Config) (input : List UInt8) {outLen endsLen : Nat}
    (hout : 0 < outLen) (hends : 0 < endsLen) {fuel : Nat} (hfuel : input.length + 2 ≤ fuel) :
    streamRecords (fun _ => (outLen, endsLen)) fuel 0 (Reader.build cfg false) [] [] [input] =
      some (cfg.tableRecords input) := by
  by_cases hin : input = []
  · subst hin
    rw [streamRecords_empty, streamRecords_nil (fun _ => ⟨hout, hends⟩) (Reader.at_build cfg) rfl []
      0 hfuel]
    rfl
  · have hne : ∀ c ∈ [input], c ≠ [] := by simpa using hin
    have hbom : Reader.utf8Bom <+: [input].flatten → 3 ≤ ([input].headD []).length := by
      intro hpre
      have hlen : 3 ≤ [input].flatten.length := hpre.length_le
      simpa using hlen
    rw [streamRecords_build cfg (fun _ => ⟨hout, hends⟩) hne hbom (by simpa using hfuel)]
    by_cases hbom : [input].head? = some Reader.utf8Bom
    · have heq : input = Reader.utf8Bom := by simpa using hbom
      rw [if_pos hbom, heq]
      rfl
    · rw [if_neg hbom, List.flatten_singleton]

/-- **The NFA and the table in step.** With room for all of the input, the two readers give the same
    records, by records and by fields, just on the inputs of `InSync`. -/
theorem nfa_dfa_agree_iff (cfg : Config) (input : List UInt8) {outLen endsLen : Nat}
    (hout : input.length < outLen) (hends : input.length < endsLen) {fuel : Nat}
    (hfuel : input.length + 2 ≤ fuel) :
    ((∃ recs,
        streamRecords (fun _ => (outLen, endsLen)) fuel 0 (Reader.build cfg true) [] [] [input] =
            some recs ∧
          streamRecords (fun _ => (outLen, endsLen)) fuel 0 (Reader.build cfg false) [] []
            [input] = some recs) ∧
      ∃ recs,
        fieldwiseRecords (fun _ => outLen) fuel 0 (Reader.build cfg true) [] [] input =
            some recs ∧
          fieldwiseRecords (fun _ => outLen) fuel 0 (Reader.build cfg false) [] [] input =
            some recs) ↔
      cfg.InSync (withoutBom input) := by
  have hagree : cfg.nfaRecords input = cfg.tableRecords input ↔ cfg.InSync (withoutBom input) :=
    cfg.records_eq_iff (withoutBom input)
  rw [nfaStreamRecords_build cfg hout hends hfuel, nfaFieldwiseRecords_build cfg hout hfuel,
    streamRecords_one cfg input (by omega) (by omega) hfuel,
    fieldwiseRecords_build cfg (fun _ => by omega) hfuel, ← hagree]
  constructor
  · rintro ⟨⟨recs, hn, hd⟩, -⟩
    exact (Option.some.inj hn).trans (Option.some.inj hd).symm
  · intro h
    exact ⟨⟨_, rfl, congrArg some h.symm⟩, _, rfl, congrArg some h.symm⟩

/-- The readers for `#` comments on a comment with its line feed, then one field. -/
theorem nfa_dfa_agree_comment_line :
    ∃ recs,
      streamRecords (fun _ => (9, 9)) 9 0 (Reader.build { Config.default with comment := some 35 }
          true) [] [] [[35, 98, 10, 97]] = some recs ∧
        streamRecords (fun _ => (9, 9)) 9 0 (Reader.build
          { Config.default with comment := some 35 } false) [] [] [[35, 98, 10, 97]] = some recs :=
  ((nfa_dfa_agree_iff { Config.default with comment := some 35 } [35, 98, 10, 97]
    (by decide : _ < 9) (by decide : _ < 9) (by decide : _ ≤ 9)).mpr (by
      rw [Config.InSync, if_neg (by decide)]
      decide)).1

/-- A comment that the end of the input cuts off: the table reads a record. -/
theorem nfa_dfa_cut_comment :
    streamRecords (fun _ => (9, 9)) 9 0 (Reader.build { Config.default with comment := some 35 }
        true) [] [] [[35]] = some [] ∧
      streamRecords (fun _ => (9, 9)) 9 0 (Reader.build { Config.default with comment := some 35 }
        false) [] [] [[35]] = some [[[]]] := by
  constructor
  · rw [nfaStreamRecords_build _ (by decide) (by decide) (by decide)]
    decide
  · rw [streamRecords_one _ _ (by decide) (by decide) (by decide)]
    decide

end TeaclaveCrates.Csv
