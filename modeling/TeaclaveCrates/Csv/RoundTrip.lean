import TeaclaveCrates.Csv.Sync
import TeaclaveCrates.Csv.Writer

namespace TeaclaveCrates.Csv

open Lib NfaState NfaInputAction
open WriterBuilder (fieldBytes fieldsBytes)

/-!
# Reading what was written

A reader for the settings of a writer gets back the records that the writer was given.

* `Reads` — what the settings of the two must share.
* `ReadsBack` — a field that is read as it was before it was written.
* `fieldRecords_csv` — records of such fields are read back.
* `csv_roundTrip` — with doubled quotes, every field is such a field.
-/

/-- The settings that a reader shares with the writer, and the bytes that must differ. A reader for
    `CRLF` also reads what was written with one of the two line bytes. -/
structure Reads (b : WriterBuilder) (cfg : Config) : Prop where
  delimiter : cfg.delimiter = b.delimiter
  quote : cfg.quote = b.quote
  quoting : cfg.quoting = true
  comment : cfg.comment = none
  term : cfg.term = b.term ∨ cfg.term = .crlf ∧ (b.term = .any LF ∨ b.term = .any CR)
  quote_ne : b.quote ≠ b.delimiter
  delimiter_term : cfg.term.equals b.delimiter = false
  quote_term : cfg.term.equals b.quote = false
  style : b.style = .always ∨ b.style = .necessary

/-! ### Without comments the table is the NFA -/

namespace Config

variable {cfg : Config}

theorem nextByte_ne_inComment (h : cfg.comment = none) {s : NfaState} (hs : s ≠ inComment)
    (c : UInt8) : (cfg.nextByte s c).1 ≠ inComment := by
  have hafter : (cfg.afterField c).1 ≠ inComment := by
    unfold afterField recordTerm
    split_ifs <;> decide
  have hfirst : (cfg.firstOfField c).1 ≠ inComment := by
    unfold firstOfField
    split_ifs
    · decide
    · exact hafter
  have hrecord : (cfg.firstOfRecord c).1 ≠ inComment := by
    unfold firstOfRecord
    rw [h]
    split_ifs with ht hc
    · decide
    · exact absurd hc (by simp)
    · exact hfirst
  cases s with
  | inComment => exact absurd rfl hs
  | startRecord | endRecord => exact hrecord
  | startField | endFieldDelim => exact hfirst
  | inField => exact hafter
  | crlf =>
    simp only [nextByte]
    split_ifs
    · decide
    · exact hrecord
  | inDoubleEscapedQuote =>
    simp only [nextByte]
    split_ifs
    · decide
    · exact hafter
  | inQuotedField =>
    simp only [nextByte]
    split_ifs <;> decide
  | endFieldTerm | inRecordTerm =>
    simp only [nextByte, recordTerm]
    split_ifs <;> decide
  | inEscapedQuote | «end» =>
    simp only [nextByte]
    decide

theorem behindComment_eq_none (h : cfg.comment = none) (input : List UInt8) {s : NfaState}
    (hs : s ≠ inComment) : cfg.behindComment s input = none := by
  induction input generalizing s with
  | nil => rfl
  | cons c rest ih =>
    have hne := nextByte_ne_inComment h hs c
    rw [behindComment, if_neg hne]
    exact ih hne

/-- Without comments the two machines are the same. -/
theorem tableRecords_eq (h : cfg.comment = none) (input : List UInt8) :
    cfg.tableRecords input =
      cfg.nfaTokenizer.fieldRecords startRecord [] [] (withoutBom input) := by
  have hsplit := cfg.records_split (withoutBom input) (show startRecord ≠ inComment by decide)
    (show Fresh startRecord [] [] from fun _ => ⟨rfl, rfl⟩)
  rw [behindComment_eq_none h _ (by decide)] at hsplit
  rw [tableRecords, hsplit]
  exact cfg.nfaTokenizer.records_eq_fieldRecords startRecord [] [] _

end Config

/-! ### Separators -/

section Separators

variable {b : WriterBuilder} {cfg : Config}

/-- The states in which a separator ends a field. -/
def Closing (s : NfaState) : Prop := s = inField ∨ s = inDoubleEscapedQuote ∨ s = startField

variable {s : NfaState}

theorem Closing.nextByte (h : Closing s) {c : UInt8} (hc : cfg.quote ≠ c) :
    cfg.nextByte s c = cfg.afterField c := by
  rcases h with rfl | rfl | rfl
  · rfl
  · simp only [Config.nextByte]
    rw [if_neg fun hh => hc hh.2.2]
  · show cfg.firstOfField c = _
    rw [Config.firstOfField, if_neg fun hh => hc hh.2]

/-- Behind a delimiter, as at the start of a field. -/
theorem fieldRecords_endFieldDelim (field : List UInt8) (fields : List (List UInt8))
    (input : List UInt8) :
    cfg.nfaTokenizer.fieldRecords endFieldDelim field fields input =
      cfg.nfaTokenizer.fieldRecords startField field fields input := by
  cases input with
  | nil => rfl
  | cons c rest =>
    have hstep : cfg.nfaTokenizer.step endFieldDelim c = cfg.nfaTokenizer.step startField c := rfl
    simp [Tokenizer.fieldRecords, Tokenizer.copied, hstep]

theorem fieldRecords_delimiter (h : Reads b cfg) (hs : Closing s) (f : List UInt8)
    (fs : List (List UInt8)) (rest : List UInt8) :
    cfg.nfaTokenizer.fieldRecords s f fs (b.delimiter :: rest) =
      cfg.nfaTokenizer.fieldRecords startField [] (fs ++ [f]) rest := by
  have hstep : cfg.nextByte s b.delimiter = (endFieldDelim, NfaInputAction.discard) := by
    simp [hs.nextByte (by rw [h.quote]; exact h.quote_ne), Config.afterField, h.delimiter]
  rw [cfg.fieldRecords_step hstep]
  show cfg.nfaTokenizer.fieldRecords endFieldDelim [] (fs ++ [f ++ []]) rest = _
  rw [List.append_nil, fieldRecords_endFieldDelim]

/-- The states right behind a record. -/
def AtStart (cfg : Config) (s : NfaState) : Prop :=
  s = startRecord ∨ s = endRecord ∨ s = crlf ∧ cfg.term = .crlf

/-- Bytes that begin a record are read as the first of a field. -/
theorem fieldRecords_atStart (h : Reads b cfg) (hs : AtStart cfg s) {c : UInt8}
    (hc : cfg.term.equals c = false) (rest : List UInt8) :
    cfg.nfaTokenizer.fieldRecords s [] [] (c :: rest) =
      cfg.nfaTokenizer.fieldRecords startField [] [] (c :: rest) := by
  have hfirst : cfg.firstOfRecord c = cfg.firstOfField c := by
    simp [Config.firstOfRecord, hc, h.comment]
  have hstep : cfg.nextByte s c = cfg.nextByte startField c := by
    rcases hs with rfl | rfl | ⟨rfl, hterm⟩
    · exact hfirst
    · exact hfirst
    · have hlf : c ≠ LF := by
        rintro rfl
        rw [hterm] at hc
        exact absurd hc (by decide)
      simp [Config.nextByte, hlf, hfirst]
  rw [cfg.fieldRecords_step (show cfg.nextByte s c = (_, _) from hstep),
    cfg.fieldRecords_step (show cfg.nextByte startField c = (_, _) from rfl)]

/-- A terminator byte ends the record. -/
theorem fieldRecords_terminator (h : Reads b cfg) (hs : Closing s) {t : UInt8}
    (ht : cfg.term.equals t = true) (f : List UInt8) (fs : List (List UInt8)) (rest : List UInt8) :
    cfg.nfaTokenizer.fieldRecords s f fs (t :: rest) =
      (fs ++ [f]) :: cfg.nfaTokenizer.fieldRecords (cfg.recordTerm t).1 [] [] rest := by
  have hquote : cfg.quote ≠ t := by
    rintro rfl
    rw [h.quote, h.quote_term] at ht
    exact absurd ht (by decide)
  have hdelim : cfg.delimiter ≠ t := by
    rintro rfl
    rw [h.delimiter, h.delimiter_term] at ht
    exact absurd ht (by decide)
  have hstep : cfg.nextByte s t = ((cfg.recordTerm t).1, NfaInputAction.discard) := by
    rw [hs.nextByte hquote, Config.afterField, if_neg hdelim, if_pos ht]
    unfold Config.recordTerm
    split_ifs <;> rfl
  have hmark : markOf (cfg.recordTerm t).1 = .record := by
    unfold Config.recordTerm
    split_ifs <;> rfl
  rw [cfg.fieldRecords_step hstep, hmark]
  show (fs ++ [f ++ []]) :: _ = _
  simp

/-- The bytes that a writer ends a record with. -/
theorem fieldRecords_termBytes (h : Reads b cfg) (hs : Closing s) (f : List UInt8)
    (fs : List (List UInt8)) (rest : List UInt8) :
    ∃ s', AtStart cfg s' ∧
      cfg.nfaTokenizer.fieldRecords s f fs (b.build.termBytes ++ rest) =
        (fs ++ [f]) :: cfg.nfaTokenizer.fieldRecords s' [] [] rest := by
  have hatStart : ∀ t, AtStart cfg (cfg.recordTerm t).1 := by
    intro t
    unfold Config.recordTerm
    split_ifs with hcrlf
    · refine Or.inr (Or.inr ⟨rfl, ?_⟩)
      cases hterm : cfg.term with
      | crlf => rfl
      | any x => simp [hterm, Terminator.isCrlf] at hcrlf
    · exact Or.inr (Or.inl rfl)
  rcases h.term with hterm | ⟨hterm, hb⟩
  · cases hb : b.term with
    | any t =>
      have hbytes : b.build.termBytes = [t] := by
        rw [Writer.termBytes, show b.build.cfg.term = b.term from rfl, hb]
      have ht : cfg.term.equals t = true := by
        rw [hterm, hb]
        exact beq_self_eq_true t
      rw [hbytes]
      exact ⟨_, hatStart t, fieldRecords_terminator h hs ht f fs rest⟩
    | crlf =>
      have hbytes : b.build.termBytes = [CR, LF] := by
        rw [Writer.termBytes, show b.build.cfg.term = b.term from rfl, hb]
      have hcr : (cfg.recordTerm CR).1 = crlf := by
        rw [Config.recordTerm, hterm, hb, if_pos ⟨rfl, rfl⟩]
      have hlf : cfg.nextByte crlf LF = (startRecord, NfaInputAction.discard) := by
        simp [Config.nextByte]
      refine ⟨startRecord, Or.inl rfl, ?_⟩
      rw [hbytes]
      show cfg.nfaTokenizer.fieldRecords s f fs (CR :: LF :: rest) = _
      rw [fieldRecords_terminator h hs (by rw [hterm, hb]; rfl), hcr, cfg.fieldRecords_step hlf]
      rfl
  · obtain ⟨t, ht, hb⟩ : ∃ t, cfg.term.equals t = true ∧ b.term = .any t := by
      rw [hterm]
      rcases hb with hb | hb
      · exact ⟨LF, by decide, hb⟩
      · exact ⟨CR, by decide, hb⟩
    have hbytes : b.build.termBytes = [t] := by
      rw [Writer.termBytes, show b.build.cfg.term = b.term from rfl, hb]
    rw [hbytes]
    exact ⟨_, hatStart t, fieldRecords_terminator h hs ht f fs rest⟩

end Separators

/-! ### Fields -/

section Fields

variable {b : WriterBuilder} {cfg : Config}

/-- A field is read as it was: behind its bytes the reader stands in a state in which a separator
    ends the field. -/
def ReadsBack (b : WriterBuilder) (cfg : Config) (f : List UInt8) : Prop :=
  ∃ s, Closing s ∧ ∀ fs rest,
    cfg.nfaTokenizer.fieldRecords startField [] fs (b.fieldBytes f ++ rest) =
      cfg.nfaTokenizer.fieldRecords s f fs rest

variable {f : List UInt8}

/-- The bytes of a field that is not quoted. -/
theorem plain_of_shouldQuote (h : Reads b cfg) (hq : b.build.shouldQuote f = false) :
    ∀ c ∈ f, cfg.quote ≠ c ∧ cfg.delimiter ≠ c ∧ cfg.term.equals c = false := by
  have hspecial : ∀ c ∈ f, b.requiresQuotes c = false := by
    rcases h.style with hstyle | hstyle
    · rw [Writer.shouldQuote, show b.build.cfg.style = b.style from rfl, hstyle] at hq
      exact (nomatch hq)
    · rw [Writer.shouldQuote, show b.build.cfg.style = b.style from rfl, hstyle] at hq
      have hany := hq
      rw [Writer.needsQuotes_eq, List.any_eq_false] at hany
      exact fun c hc => Bool.eq_false_iff.mpr (hany c hc)
  intro c hc
  have hnot := hspecial c hc
  unfold WriterBuilder.requiresQuotes at hnot
  simp only [Bool.or_eq_false_iff, beq_eq_false_iff_ne] at hnot
  obtain ⟨⟨⟨hdelim, hquote⟩, -⟩, hterm⟩ := hnot
  refine ⟨?_, ?_, ?_⟩
  · rw [h.quote]
    exact fun hh => hquote hh.symm
  · rw [h.delimiter]
    exact fun hh => hdelim hh.symm
  · rcases h.term with ht | ⟨ht, hb⟩
    · rw [ht]
      cases hb : b.term with
      | crlf =>
        rw [hb] at hterm
        exact hterm
      | any t =>
        rw [hb] at hterm
        dsimp only at hterm
        split_ifs at hterm with hline
        · rw [Bool.or_eq_false_iff] at hterm
          rcases hline with rfl | rfl
          · exact hterm.2
          · exact hterm.1
        · exact hterm
    · rw [ht]
      rcases hb with hb | hb
      · rw [hb] at hterm
        exact hterm
      · rw [hb] at hterm
        exact hterm

/-- A run of ordinary bytes outside quotes. -/
theorem fieldRecords_plain (hf : ∀ c ∈ f, cfg.delimiter ≠ c ∧ cfg.term.equals c = false)
    (g : List UInt8) (fs : List (List UInt8)) (rest : List UInt8) :
    cfg.nfaTokenizer.fieldRecords inField g fs (f ++ rest) =
      cfg.nfaTokenizer.fieldRecords inField (g ++ f) fs rest := by
  induction f generalizing g with
  | nil => simp
  | cons c f ih =>
    obtain ⟨hd, ht⟩ := hf c (List.mem_cons_self ..)
    have hstep : cfg.nextByte inField c = (inField, copyToOutput) := by
      show cfg.afterField c = _
      simp [Config.afterField, hd, ht]
    rw [List.cons_append, cfg.fieldRecords_step hstep]
    rw [ih (fun c' hc' => hf c' (List.mem_cons_of_mem _ hc')), List.append_assoc]
    rfl

theorem readsBack_of_plain (h : Reads b cfg) (hq : b.build.shouldQuote f = false) :
    ReadsBack b cfg f := by
  have hplain := plain_of_shouldQuote h hq
  have hbytes : b.fieldBytes f = f := by
    simp [fieldBytes, hq]
  rw [ReadsBack, hbytes]
  cases f with
  | nil => exact ⟨startField, Or.inr (Or.inr rfl), fun fs rest => rfl⟩
  | cons c f =>
    obtain ⟨hquote, hd, ht⟩ := hplain c (List.mem_cons_self ..)
    have hstep : cfg.nextByte startField c = (inField, copyToOutput) := by
      show cfg.firstOfField c = _
      rw [Config.firstOfField, if_neg fun hh => hquote hh.2, Config.afterField, if_neg hd, ht,
        if_neg (by decide)]
    refine ⟨inField, Or.inl rfl, fun fs rest => ?_⟩
    rw [List.cons_append, cfg.fieldRecords_step hstep]
    exact fieldRecords_plain (fun c' hc' => (hplain c' (List.mem_cons_of_mem _ hc')).2) [c] fs rest

/-- The opening quote of a field. -/
theorem fieldRecords_open (h : Reads b cfg) (fs : List (List UInt8)) (rest : List UInt8) :
    cfg.nfaTokenizer.fieldRecords startField [] fs (b.quote :: rest) =
      cfg.nfaTokenizer.fieldRecords inQuotedField [] fs rest := by
  have hstep : cfg.nextByte startField b.quote = (inQuotedField, NfaInputAction.discard) := by
    show cfg.firstOfField b.quote = _
    rw [Config.firstOfField, if_pos ⟨h.quoting, h.quote⟩]
  rw [cfg.fieldRecords_step hstep]
  rfl

/-- The closing quote of a field. -/
theorem fieldRecords_close (h : Reads b cfg) (f : List UInt8) (fs : List (List UInt8))
    (rest : List UInt8) :
    cfg.nfaTokenizer.fieldRecords inQuotedField f fs (b.quote :: rest) =
      cfg.nfaTokenizer.fieldRecords inDoubleEscapedQuote f fs rest := by
  have hstep : cfg.nextByte inQuotedField b.quote =
      (inDoubleEscapedQuote, NfaInputAction.discard) := by
    simp only [Config.nextByte]
    rw [if_pos ⟨h.quoting, h.quote⟩]
  rw [cfg.fieldRecords_step hstep]
  show cfg.nfaTokenizer.fieldRecords inDoubleEscapedQuote (f ++ []) fs rest = _
  simp

/-- A quoted field whose inside is read as it was. -/
theorem readsBack_of_quoted (h : Reads b cfg) (hq : b.build.shouldQuote f = true)
    (hinside : ∀ fs rest,
      cfg.nfaTokenizer.fieldRecords inQuotedField [] fs (b.escaped f ++ rest) =
        cfg.nfaTokenizer.fieldRecords inQuotedField f fs rest) : ReadsBack b cfg f := by
  refine ⟨inDoubleEscapedQuote, Or.inr (Or.inl rfl), fun fs rest => ?_⟩
  simp [fieldBytes, hq, fieldRecords_open h, hinside, fieldRecords_close h]

/-- With doubled quotes, the inside of a quoted field is read as it was. -/
theorem fieldRecords_escaped (h : Reads b cfg) (hb : b.doubleQuote = true)
    (hdouble : cfg.doubleQuote = true) (hescape : cfg.escape = none) (f g : List UInt8)
    (fs : List (List UInt8)) (rest : List UInt8) :
    cfg.nfaTokenizer.fieldRecords inQuotedField g fs (b.escaped f ++ rest) =
      cfg.nfaTokenizer.fieldRecords inQuotedField (g ++ f) fs rest := by
  induction f generalizing g with
  | nil =>
    rw [List.append_nil]
    rfl
  | cons c f ih =>
    have hescaped : b.escaped (c :: f) = (if c = b.quote then [b.quote, b.quote] else [c]) ++
        b.escaped f := by
      simp [b.escaped_cons, hb]
    rw [hescaped, List.append_assoc, show g ++ c :: f = g ++ [c] ++ f by simp, ← ih]
    by_cases hc : c = b.quote
    · have hcopy : cfg.nextByte inDoubleEscapedQuote b.quote = (inQuotedField, copyToOutput) := by
        simp only [Config.nextByte]
        rw [if_pos ⟨h.quoting, hdouble, h.quote⟩]
      rw [if_pos hc, hc]
      show cfg.nfaTokenizer.fieldRecords inQuotedField g fs
        (b.quote :: b.quote :: (b.escaped f ++ rest)) = _
      rw [fieldRecords_close h, cfg.fieldRecords_step hcopy]
      rfl
    · have hstep : cfg.nextByte inQuotedField c = (inQuotedField, copyToOutput) := by
        simp only [Config.nextByte]
        rw [if_neg fun hh => hc (by rw [← hh.2, h.quote]), hescape, if_neg (by simp)]
      rw [if_neg hc]
      show cfg.nfaTokenizer.fieldRecords inQuotedField g fs (c :: (b.escaped f ++ rest)) = _
      rw [cfg.fieldRecords_step hstep]
      rfl

/-- The pair of quotes that stands for a record with one empty field. -/
theorem fieldRecords_emptyPair (h : Reads b cfg) (rest : List UInt8) :
    cfg.nfaTokenizer.fieldRecords startField [] [] ([b.quote, b.quote] ++ rest) =
      cfg.nfaTokenizer.fieldRecords inDoubleEscapedQuote [] [] rest := by
  show cfg.nfaTokenizer.fieldRecords startField [] [] (b.quote :: b.quote :: rest) = _
  rw [fieldRecords_open h, fieldRecords_close h]

end Fields

/-! ### Records -/

section Records

variable {b : WriterBuilder} {cfg : Config}

variable {fs : List (List UInt8)}

/-- Nothing is written of the fields only when there is one, and it is empty. -/
theorem eq_of_fieldsBytes_nil (hne : fs ≠ []) (h : b.fieldsBytes fs = []) : fs = [[]] := by
  cases fs with
  | nil => exact absurd rfl hne
  | cons f fs =>
    cases fs with
    | nil =>
      rw [fieldsBytes, fieldBytes] at h
      split_ifs at h
      · simp at h
      · rw [h]
    | cons g gs =>
      rw [fieldsBytes] at h
      · simp at h
      · simp

/-- The first byte of a record is not a terminator. -/
theorem exists_head_recordBytes (h : Reads b cfg) (fs : List (List UInt8)) (rest : List UInt8) :
    ∃ c more, (if b.fieldsBytes fs = [] then [b.quote, b.quote] else b.fieldsBytes fs) ++ rest =
      c :: more ∧ cfg.term.equals c = false := by
  by_cases hnil : b.fieldsBytes fs = []
  · rw [if_pos hnil]
    exact ⟨b.quote, b.quote :: rest, rfl, h.quote_term⟩
  · -- the first byte of a field, or the delimiter behind an empty one
    have hfield : ∀ f, b.fieldBytes f = [] ∨
        ∃ c more, b.fieldBytes f = c :: more ∧ cfg.term.equals c = false := by
      intro f
      unfold fieldBytes
      cases hq : b.build.shouldQuote f with
      | true =>
        exact Or.inr ⟨b.quote, _, rfl, h.quote_term⟩
      | false =>
        cases f with
        | nil => exact Or.inl rfl
        | cons c f =>
          exact Or.inr ⟨c, f, rfl, (plain_of_shouldQuote h hq c (List.mem_cons_self ..)).2.2⟩
    cases fs with
    | nil => exact absurd rfl hnil
    | cons f fs =>
      cases fs with
      | nil =>
        rw [fieldsBytes] at hnil ⊢
        obtain ⟨c, more, hc, ht⟩ := (hfield f).resolve_left hnil
        exact ⟨c, more ++ rest, by rw [hc]; rfl, ht⟩
      | cons g gs =>
        rw [fieldsBytes] at hnil ⊢
        · rcases hfield f with hf | ⟨c, more, hc, ht⟩
          · exact ⟨b.delimiter, _, by rw [hf]; rfl, h.delimiter_term⟩
          · exact ⟨c, _, by rw [hc]; rfl, ht⟩
        · simp
        · simp

/-- The fields of a record and its terminator are read back. -/
theorem fieldRecords_fieldsBytes (h : Reads b cfg) (hne : fs ≠ [])
    (hfs : ∀ f ∈ fs, ReadsBack b cfg f) (gs : List (List UInt8)) (rest : List UInt8) :
    ∃ s', AtStart cfg s' ∧
      cfg.nfaTokenizer.fieldRecords startField [] gs
          (b.fieldsBytes fs ++ (b.build.termBytes ++ rest)) =
        (gs ++ fs) :: cfg.nfaTokenizer.fieldRecords s' [] [] rest := by
  induction fs generalizing gs with
  | nil => exact absurd rfl hne
  | cons f fs ih =>
    obtain ⟨s, hs, hread⟩ := hfs f (List.mem_cons_self ..)
    cases fs with
    | nil =>
      rw [fieldsBytes, hread]
      exact fieldRecords_termBytes h hs f gs rest
    | cons g more =>
      obtain ⟨s', hs', heq⟩ := ih (List.cons_ne_nil _ _)
        (fun f' hf' => hfs f' (List.mem_cons_of_mem _ hf')) (gs ++ [f])
      refine ⟨s', hs', ?_⟩
      rw [fieldsBytes]
      · simp [hread, fieldRecords_delimiter h hs, heq]
      · simp

theorem fieldRecords_recordBytes (h : Reads b cfg) (hne : fs ≠ [])
    (hfs : ∀ f ∈ fs, ReadsBack b cfg f) {s : NfaState} (hs : AtStart cfg s) (rest : List UInt8) :
    ∃ s', AtStart cfg s' ∧
      cfg.nfaTokenizer.fieldRecords s [] [] (b.recordBytes fs ++ rest) =
        fs :: cfg.nfaTokenizer.fieldRecords s' [] [] rest := by
  obtain ⟨c, more, hhead, hc⟩ := exists_head_recordBytes h fs (b.build.termBytes ++ rest)
  rw [WriterBuilder.recordBytes, List.append_assoc, hhead, fieldRecords_atStart h hs hc, ← hhead]
  by_cases hnil : b.fieldsBytes fs = []
  · rw [if_pos hnil, fieldRecords_emptyPair h, eq_of_fieldsBytes_nil hne hnil]
    exact fieldRecords_termBytes h (Or.inr (Or.inl rfl)) [] [] rest
  · rw [if_neg hnil]
    exact fieldRecords_fieldsBytes h hne hfs [] rest

/-- **Records of fields that read back.** -/
theorem fieldRecords_csv (h : Reads b cfg) {rs : List (List (List UInt8))}
    (hne : ∀ r ∈ rs, r ≠ []) (hrs : ∀ r ∈ rs, ∀ f ∈ r, ReadsBack b cfg f) {s : NfaState}
    (hs : AtStart cfg s) : cfg.nfaTokenizer.fieldRecords s [] [] (b.csv rs) = rs := by
  induction rs generalizing s with
  | nil =>
    rcases hs with rfl | rfl | ⟨rfl, -⟩ <;> rfl
  | cons r rs ih =>
    obtain ⟨s', hs', heq⟩ := fieldRecords_recordBytes h (hne r (List.mem_cons_self ..))
      (hrs r (List.mem_cons_self ..)) hs (b.csv rs)
    refine heq.trans (congrArg _ ?_)
    exact ih (fun r' hr' => hne r' (List.mem_cons_of_mem _ hr'))
      (fun r' hr' => hrs r' (List.mem_cons_of_mem _ hr')) hs'

end Records

/-! ### Whole runs -/

/-- A reader gets the records of the table from any cut of bytes without a byte order mark. -/
theorem streamRecords_of_not_bom (cfg : Config) {bytes : List UInt8}
    (hbom : ¬Reader.utf8Bom <+: bytes) {chunks : List (List UInt8)}
    (hchunks : chunks.flatten = bytes) (hne : ∀ c ∈ chunks, c ≠ []) {bufs : Nat → Nat × Nat}
    (hbufs : ∀ i, 0 < (bufs i).1 ∧ 0 < (bufs i).2) {fuel : Nat} (hfuel : bytes.length + 2 ≤ fuel) :
    streamRecords bufs fuel 0 (Reader.build cfg false) [] [] chunks =
      some (cfg.tableRecords bytes) := by
  subst hchunks
  have hhead : ¬chunks.head? = some Reader.utf8Bom := by
    intro hh
    cases chunks with
    | nil => exact absurd hh (by simp)
    | cons c cs =>
      rw [List.head?_cons, Option.some.injEq] at hh
      exact hbom (by rw [List.flatten_cons, hh]; exact List.prefix_append ..)
  simp [streamRecords_build cfg hbufs hne (fun hpre => absurd hpre hbom) hfuel, hhead]

/-- **Round trip with doubled quotes.** In a buffer that is large enough the writer writes bytes from
    which the reader gets the records again, however they are cut. -/
theorem csv_roundTrip {b : WriterBuilder} {cfg : Config} (h : Reads b cfg)
    (hb : b.doubleQuote = true) (hdouble : cfg.doubleQuote = true) (hescape : cfg.escape = none)
    {rs : List (List (List UInt8))} (hne : ∀ r ∈ rs, r ≠ []) :
    ∃ size, ∀ room, size ≤ room → ∃ bytes, Writer.writeAll b.build room rs = some bytes ∧
      (¬Reader.utf8Bom <+: bytes →
        ∀ chunks : List (List UInt8), chunks.flatten = bytes → (∀ c ∈ chunks, c ≠ []) →
        ∀ bufs : Nat → Nat × Nat, (∀ i, 0 < (bufs i).1 ∧ 0 < (bufs i).2) →
        ∀ fuel, bytes.length + 2 ≤ fuel →
          streamRecords bufs fuel 0 (Reader.build cfg false) [] [] chunks = some rs) := by
  refine ⟨(b.csv rs).length, fun room hroom => ⟨b.csv rs, Writer.writeAll_eq hne hroom, ?_⟩⟩
  intro hbom chunks hchunks hnonempty bufs hbufs fuel hfuel
  have hfields : ∀ f, ReadsBack b cfg f := by
    intro f
    cases hq : b.build.shouldQuote f with
    | false => exact readsBack_of_plain h hq
    | true =>
      exact readsBack_of_quoted h hq fun fs rest =>
        fieldRecords_escaped h hb hdouble hescape f [] fs rest
  rw [streamRecords_of_not_bom cfg hbom hchunks hnonempty hbufs hfuel,
    Config.tableRecords_eq h.comment, withoutBom, if_neg hbom,
    fieldRecords_csv h hne (fun r _ f _ => hfields f) (Or.inl rfl)]

/-- The default settings of the writer. -/
def WriterBuilder.default : WriterBuilder where
  delimiter := 44
  term := .any LF
  style := .necessary
  quote := 34
  escape := 92
  doubleQuote := true
  isNonNumeric := fun _ => true

/-- The default reader reads what the default writer writes: a quote, an empty record and an empty
    field. -/
theorem csv_roundTrip_default :
    Reads WriterBuilder.default Config.default ∧
    ∃ size, ∀ room, size ≤ room →
      ∃ bytes, Writer.writeAll WriterBuilder.default.build room [[[34], []], [[]]] = some bytes ∧
        (¬Reader.utf8Bom <+: bytes →
          ∀ chunks : List (List UInt8), chunks.flatten = bytes → (∀ c ∈ chunks, c ≠ []) →
          ∀ bufs : Nat → Nat × Nat, (∀ i, 0 < (bufs i).1 ∧ 0 < (bufs i).2) →
          ∀ fuel, bytes.length + 2 ≤ fuel →
            streamRecords bufs fuel 0 (Reader.build Config.default false) [] [] chunks =
              some [[[34], []], [[]]]) := by
  have h : Reads WriterBuilder.default Config.default :=
    ⟨rfl, rfl, rfl, rfl, Or.inr ⟨rfl, Or.inl rfl⟩, by decide, by decide, by decide, Or.inr rfl⟩
  exact ⟨h, csv_roundTrip h rfl rfl rfl (by decide)⟩

end TeaclaveCrates.Csv
