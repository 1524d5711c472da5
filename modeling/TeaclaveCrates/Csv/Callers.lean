import TeaclaveCrates.Csv.Streaming

namespace TeaclaveCrates.Csv

open Lib NfaState NfaInputAction

/-!
# Callers of the reader

The loops that a caller runs to get all records, and what they get from the table.

* `streamRecords` — a caller of `read_record` that hands over the input in chunks.
* `fieldwiseRecords` — a caller of `read_field` that has all of the input.
* `streamRecords_eq`, `fieldwiseRecords_eq` — behind the first call both get the records of the
  machine, however the input is cut and however small the buffers are.
* `streamRecords_build`, `fieldwiseRecords_build` — the first call, which looks for a byte order
  mark.
* `streamRecords_agree_iff` — when both get the same records.
-/

/-! ### The loops -/

/-- The chunks behind `n` bytes of the first one. -/
def unread (chunks : List (List UInt8)) (n : Nat) : List (List UInt8) :=
  match chunks with
  | [] => []
  | c :: cs => if c.length ≤ n then cs else c.drop n :: cs

/-- A caller of `read_record`: it hands over the chunks, then the empty input, and stops at `End`.
    Call `i` gets buffers of the sizes `bufs i`; `out` and `ends` are what the calls have written of
    the current record. -/
def streamRecords (bufs : Nat → Nat × Nat) :
    Nat → Nat → Reader → List UInt8 → List Nat → List (List UInt8) →
      Option (List (List (List UInt8)))
  | 0, _, _, _, _, _ => none
  | fuel + 1, i, r, out, ends, chunks =>
    let (r', x) := r.readRecord (chunks.headD []) (bufs i).1 (bufs i).2
    if x.outStart ≠ 0 then none
    else
      match x.res with
      | .end => some []
      | .record =>
        (streamRecords bufs fuel (i + 1) r' [] [] (unread chunks x.nin)).map
          (slices (out ++ x.out) (ends ++ x.ends) :: ·)
      | _ =>
        streamRecords bufs fuel (i + 1) r' (out ++ x.out) (ends ++ x.ends) (unread chunks x.nin)

/-- A caller of `read_field`: it hands over all of the input that is left, and stops at `End`.
    `field` and `fields` are what the calls have written of the current record. -/
def fieldwiseRecords (bufs : Nat → Nat) :
    Nat → Nat → Reader → List UInt8 → List (List UInt8) → List UInt8 →
      Option (List (List (List UInt8)))
  | 0, _, _, _, _, _ => none
  | fuel + 1, i, r, field, fields, input =>
    let (r', x) := r.readField input (bufs i)
    match x.res with
    | .end => some []
    | .field true =>
      (fieldwiseRecords bufs fuel (i + 1) r' [] [] (input.drop x.nin)).map
        ((fields ++ [field ++ x.out]) :: ·)
    | .field false =>
      fieldwiseRecords bufs fuel (i + 1) r' [] (fields ++ [field ++ x.out]) (input.drop x.nin)
    | _ => fieldwiseRecords bufs fuel (i + 1) r' (field ++ x.out) fields (input.drop x.nin)

/-! ### Chunks -/

theorem flatten_unread (c : List UInt8) (cs : List (List UInt8)) (n : Nat) :
    (unread (c :: cs) n).flatten = c.drop n ++ cs.flatten := by
  unfold unread
  by_cases h : c.length ≤ n
  · simp [h]
  · simp [h]

theorem unread_nonempty {chunks : List (List UInt8)} (h : ∀ c ∈ chunks, c ≠ []) (n : Nat) :
    ∀ c ∈ unread chunks n, c ≠ [] := by
  cases chunks with
  | nil => exact h
  | cons c cs =>
    simp only [unread]
    by_cases hn : c.length ≤ n
    · rw [if_pos hn]
      exact fun d hd => h d (List.mem_cons_of_mem _ hd)
    · rw [if_neg hn]
      intro d hd
      rcases List.mem_cons.mp hd with rfl | hd
      · intro hnil
        exact hn (List.drop_eq_nil_iff.mp hnil)
      · exact h d (List.mem_cons_of_mem _ hd)

/-! ### Runs behind the first call -/

section Runs

variable {r : Reader} {s : NfaState}

variable {bufs : Nat → Nat × Nat} {fuel : Nat}

/-- At the end of the input, a record that has begun is the last one. -/
theorem streamRecords_nil (hbufs : ∀ i, 0 < (bufs i).1 ∧ 0 < (bufs i).2) (h : r.At s)
    {out : List UInt8} (hpos : out.length = r.outputPos) (ends : List Nat) (i : Nat)
    (hfuel : 2 ≤ fuel) :
    streamRecords bufs fuel i r out ends [] = some (r.cfg.dfaTokenizer.records s out ends []) := by
  obtain ⟨fuel, rfl⟩ : ∃ n, fuel = n + 2 := ⟨fuel - 2, by omega⟩
  have hcall := r.readRecord_nil h (bufs i).1 (hbufs i).2
  rw [streamRecords, Tokenizer.records, Config.dfaTokenizer_pending]
  by_cases hp : pendingOf s = true
  · rw [if_pos hp] at hcall ⊢
    obtain ⟨hat, hx⟩ := hcall
    have hend := Reader.readRecord_nil hat (bufs (i + 1)).1 (hbufs (i + 1)).2
    rw [if_neg (by decide)] at hend
    simp [hx, unread, streamRecords, hend, hpos]
  · rw [if_neg hp] at hcall ⊢
    simp [hcall]

/-- **Streaming.** Whatever the chunks and the buffers are, the caller gets the records of the
    machine on the whole input. -/
theorem streamRecords_eq (hbufs : ∀ i, 0 < (bufs i).1 ∧ 0 < (bufs i).2) {chunks : List (List UInt8)}
    (hfuel : chunks.flatten.length + 2 ≤ fuel) (hne : ∀ c ∈ chunks, c ≠ []) (h : r.At s)
    (hread : r.hasRead = true) {out : List UInt8} (hpos : out.length = r.outputPos)
    (ends : List Nat) (i : Nat) :
    streamRecords bufs fuel i r out ends chunks =
      some (r.cfg.dfaTokenizer.records s out ends chunks.flatten) := by
  induction fuel generalizing chunks r s out ends i with
  | zero => omega
  | succ fuel ih =>
    cases chunks with
    | nil => exact streamRecords_nil hbufs h hpos ends i hfuel
    | cons c cs =>
      have hc : c ≠ [] := hne c (List.mem_cons_self ..)
      obtain ⟨s', hcall⟩ := Reader.readRecord_call h hread hc (hbufs i).1 (hbufs i).2
      rw [streamRecords, List.headD_cons]
      generalize r.readRecord c (bufs i).1 (bufs i).2 = call at hcall
      obtain ⟨r', x⟩ := call
      dsimp only at hcall ⊢
      have hflat := flatten_unread c cs x.nin
      have hfuel' : (unread (c :: cs) x.nin).flatten.length + 2 ≤ fuel := by
        have hpos := hcall.pos
        have hle := hcall.nin_le
        rw [hflat, List.length_append, List.length_drop]
        rw [List.flatten_cons, List.length_append] at hfuel
        omega
      have hne' := unread_nonempty hne x.nin
      rw [if_neg (by simp [hcall.outStart]), List.flatten_cons,
        hcall.records out ends cs.flatten hpos]
      by_cases hrec : markOf s' = .record
      · have hpos' : ([] : List UInt8).length = r'.outputPos := by
          simp [hcall.outputPos, hrec]
        simp [hrec, hcall.isRecord.mpr hrec, ih hfuel' hne' hcall.state hcall.hasRead hpos',
          hflat, hcall.cfg]
      · have hpos' : (out ++ x.out).length = r'.outputPos := by
          simp [hcall.outputPos, hrec, hpos]
        have hnext := ih hfuel' hne' hcall.state hcall.hasRead hpos' (ends ++ x.ends) (i + 1)
        rw [hflat, hcall.cfg] at hnext
        rw [if_neg hrec, ← hnext]
        cases hres : x.res with
        | record => exact absurd (hcall.isRecord.mp hres) hrec
        | «end» => exact absurd hres hcall.notEnd
        | inputEmpty => rfl
        | outputFull => rfl
        | outputEndsFull => rfl

theorem fieldwiseRecords_nil (bufs : Nat → Nat) (h : r.At s) (field : List UInt8)
    (fields : List (List UInt8)) (i : Nat) (hfuel : 2 ≤ fuel) :
    fieldwiseRecords bufs fuel i r field fields [] =
      some (r.cfg.dfaTokenizer.fieldRecords s field fields []) := by
  obtain ⟨fuel, rfl⟩ : ∃ n, fuel = n + 2 := ⟨fuel - 2, by omega⟩
  have hcall := r.readField_nil h (bufs i)
  rw [fieldwiseRecords, Tokenizer.fieldRecords, Config.dfaTokenizer_pending]
  by_cases hp : pendingOf s = true
  · rw [if_pos hp] at hcall ⊢
    obtain ⟨hat, hx⟩ := hcall
    have hend := Reader.readField_nil hat (bufs (i + 1))
    rw [if_neg (by decide)] at hend
    simp [hx, fieldwiseRecords, hend]
  · rw [if_neg hp] at hcall ⊢
    simp [hcall]

/-- **Reading fields.** The caller gets the records of the machine, whatever the buffers are. -/
theorem fieldwiseRecords_eq {bufs : Nat → Nat} (hbufs : ∀ i, 0 < bufs i) {input : List UInt8}
    (hfuel : input.length + 2 ≤ fuel) (h : r.At s) (hread : r.hasRead = true) (field : List UInt8)
    (fields : List (List UInt8)) (i : Nat) :
    fieldwiseRecords bufs fuel i r field fields input =
      some (r.cfg.dfaTokenizer.fieldRecords s field fields input) := by
  induction fuel generalizing input r s field fields i with
  | zero => omega
  | succ fuel ih =>
    by_cases hin : input = []
    · subst hin
      exact fieldwiseRecords_nil bufs h field fields i hfuel
    · obtain ⟨s', hcall⟩ := Reader.readField_call h hread hin (hbufs i)
      rw [fieldwiseRecords]
      generalize r.readField input (bufs i) = call at hcall
      obtain ⟨r', x⟩ := call
      dsimp only at hcall ⊢
      have hfuel' : (input.drop x.nin).length + 2 ≤ fuel := by
        have hpos := hcall.pos
        have hle := hcall.nin_le
        rw [List.length_drop]
        omega
      have hnext := fun field fields => ih hfuel' hcall.state hcall.hasRead field fields (i + 1)
      rw [hcall.cfg] at hnext
      rw [hcall.records field fields]
      cases hmark : markOf s' with
      | record =>
        simp [hcall.isRecord.mpr hmark, hnext]
      | field =>
        simp [hcall.isField.mpr hmark, hnext]
      | inside =>
        rw [← hnext]
        match hres : x.res with
        | .field true => exact absurd (hcall.isRecord.mp hres) (by simp [hmark])
        | .field false => exact absurd (hcall.isField.mp hres) (by simp [hmark])
        | .end => exact absurd hres hcall.notEnd
        | .inputEmpty => rfl
        | .outputFull => rfl

end Runs

/-! ### The first call -/

namespace Reader

/-- No loop looks at whether something was read before. -/
theorem readRecordDfa_hasRead (r : Reader) (b : Bool) (input : List UInt8) (outLen endsLen : Nat) :
    { r with hasRead := b }.readRecordDfa input outLen endsLen =
      ({ (r.readRecordDfa input outLen endsLen).1 with hasRead := b },
        (r.readRecordDfa input outLen endsLen).2) := by
  have hdfa : { r with hasRead := b }.dfa = r.dfa := rfl
  unfold readRecordDfa
  simp only [hdfa]
  generalize r.dfa = d
  split_ifs <;> rfl

theorem readRecordNfa_hasRead (r : Reader) (b : Bool) (input : List UInt8) (outLen endsLen : Nat) :
    { r with hasRead := b }.readRecordNfa input outLen endsLen =
      ({ (r.readRecordNfa input outLen endsLen).1 with hasRead := b },
        (r.readRecordNfa input outLen endsLen).2) := by
  unfold readRecordNfa
  dsimp only
  split_ifs <;> rfl

theorem readFieldDfa_hasRead (r : Reader) (b : Bool) (input : List UInt8) (outLen : Nat) :
    { r with hasRead := b }.readFieldDfa input outLen =
      ({ (r.readFieldDfa input outLen).1 with hasRead := b },
        (r.readFieldDfa input outLen).2) := by
  have hdfa : { r with hasRead := b }.dfa = r.dfa := rfl
  unfold readFieldDfa
  simp only [hdfa]
  generalize r.dfa = d
  split_ifs <;> rfl

theorem readFieldNfa_hasRead (r : Reader) (b : Bool) (input : List UInt8) (outLen : Nat) :
    { r with hasRead := b }.readFieldNfa input outLen =
      ({ (r.readFieldNfa input outLen).1 with hasRead := b },
        (r.readFieldNfa input outLen).2) := by
  unfold readFieldNfa
  split_ifs <;> rfl

theorem stripUtf8Bom_hasRead {r : Reader} (h : r.hasRead = true) (input : List UInt8) :
    r.stripUtf8Bom input = (input, 0) := by
  rw [stripUtf8Bom, if_neg fun hh => by simp [h] at hh]

/-- The first call is a later call on the input behind the byte order mark. -/
theorem readRecord_first (r : Reader) (input : List UInt8) (outLen endsLen : Nat) :
    r.readRecord input outLen endsLen =
      let y := { r with hasRead := true }.readRecord (r.stripUtf8Bom input).1 outLen endsLen
      (y.1, { y.2 with nin := y.2.nin + (r.stripUtf8Bom input).2 }) := by
  have hnoStrip := stripUtf8Bom_hasRead (show { r with hasRead := true }.hasRead = true from rfl)
  unfold readRecord
  simp only [hnoStrip, readRecordDfa_hasRead, readRecordNfa_hasRead]
  cases r.useNfa <;> rfl

theorem readField_first (r : Reader) (input : List UInt8) (outLen : Nat) :
    r.readField input outLen =
      let y := { r with hasRead := true }.readField (r.stripUtf8Bom input).1 outLen
      (y.1, { y.2 with nin := y.2.nin + (r.stripUtf8Bom input).2 }) := by
  have hnoStrip := stripUtf8Bom_hasRead (show { r with hasRead := true }.hasRead = true from rfl)
  unfold readField
  simp only [hnoStrip, readFieldDfa_hasRead, readFieldNfa_hasRead]
  cases r.useNfa <;> rfl

end Reader

/-- The input behind a byte order mark. -/
def withoutBom (input : List UInt8) : List UInt8 :=
  if Reader.utf8Bom <+: input then input.drop 3 else input

theorem withoutBom_append (input : List UInt8) : withoutBom (Reader.utf8Bom ++ input) = input := by
  rfl

theorem length_withoutBom_le (input : List UInt8) : (withoutBom input).length ≤ input.length := by
  unfold withoutBom
  split_ifs
  · rw [List.length_drop]
    omega
  · exact Nat.le_refl _

theorem stripUtf8Bom_fresh {r : Reader} (h : r.hasRead = false) (input : List UInt8) :
    r.stripUtf8Bom input =
      if Reader.utf8Bom <+: input then (input.drop 3, 3) else (input, 0) := by
  have hiff : (r.hasRead = false ∧ 3 ≤ input.length ∧ input.take 3 = Reader.utf8Bom) ↔
      Reader.utf8Bom <+: input := by
    constructor
    · rintro ⟨-, -, htake⟩
      exact ⟨input.drop 3, by rw [← htake, List.take_append_drop]⟩
    · rintro ⟨rest, rfl⟩
      exact ⟨h, by simp [Reader.utf8Bom], rfl⟩
  simp [Reader.stripUtf8Bom, hiff]

/-- What is left behind a byte order mark and `n` more bytes. -/
theorem unread_bom (c : List UInt8) (cs : List (List UInt8)) (n : Nat) :
    unread ((Reader.utf8Bom ++ c) :: cs) (n + 3) = unread (c :: cs) n := by
  have hlen : (Reader.utf8Bom ++ c).length = c.length + 3 := by
    simp [Reader.utf8Bom]
  have hdrop : (Reader.utf8Bom ++ c).drop (n + 3) = c.drop n := by
    rfl
  simp [unread, hlen, hdrop]

section First

variable {r : Reader}

/-- Without a byte order mark in the first chunk, the first call is as any other. -/
theorem streamRecords_first (hread : r.hasRead = false) (bufs : Nat → Nat × Nat) (fuel i : Nat)
    (out : List UInt8) (ends : List Nat) {c : List UInt8} (hc : ¬Reader.utf8Bom <+: c) (cs : List (List UInt8)) :
    streamRecords bufs fuel i r out ends (c :: cs) =
      streamRecords bufs fuel i { r with hasRead := true } out ends (c :: cs) := by
  cases fuel with
  | zero => rfl
  | succ fuel =>
    rw [streamRecords, List.headD_cons, Reader.readRecord_first, stripUtf8Bom_fresh hread,
      if_neg hc]
    rfl

/-- A byte order mark in front of the first chunk is skipped. -/
theorem streamRecords_first_bom (hread : r.hasRead = false) (bufs : Nat → Nat × Nat)
    (fuel i : Nat) (out : List UInt8) (ends : List Nat) {c : List UInt8} (cs : List (List UInt8)) :
    streamRecords bufs fuel i r out ends ((Reader.utf8Bom ++ c) :: cs) =
      streamRecords bufs fuel i { r with hasRead := true } out ends (c :: cs) := by
  cases fuel with
  | zero => rfl
  | succ fuel =>
    have hdrop : (Reader.utf8Bom ++ c).drop 3 = c := rfl
    rw [streamRecords, streamRecords, List.headD_cons, List.headD_cons,
      Reader.readRecord_first, stripUtf8Bom_fresh hread,
      if_pos (List.prefix_append ..)]
    simp [hdrop, unread_bom]

theorem fieldwiseRecords_first (hread : r.hasRead = false) (bufs : Nat → Nat) (fuel i : Nat)
    (field : List UInt8) (fields : List (List UInt8)) (input : List UInt8) :
    fieldwiseRecords bufs fuel i r field fields input =
      fieldwiseRecords bufs fuel i { r with hasRead := true } field fields (withoutBom input) := by
  cases fuel with
  | zero => rfl
  | succ fuel =>
    rw [fieldwiseRecords, fieldwiseRecords, Reader.readField_first,
      stripUtf8Bom_fresh hread]
    unfold withoutBom
    by_cases hbom : Reader.utf8Bom <+: input
    · simp [hbom, Nat.add_comm]
    · simp [hbom]

end First

/-! ### Whole runs -/

section Build

variable (cfg : Config)

/-- The records of an input, as the table reads them. -/
def Config.tableRecords (input : List UInt8) : List (List (List UInt8)) :=
  cfg.dfaTokenizer.records startRecord [] [] (withoutBom input)

theorem fieldwiseRecords_build {bufs : Nat → Nat} (hbufs : ∀ i, 0 < bufs i) {input : List UInt8}
    {fuel : Nat} (hfuel : input.length + 2 ≤ fuel) :
    fieldwiseRecords bufs fuel 0 (Reader.build cfg false) [] [] input =
      some (cfg.tableRecords input) := by
  have hlen := length_withoutBom_le input
  rw [fieldwiseRecords_first rfl,
    fieldwiseRecords_eq hbufs (by omega) ((Reader.at_build cfg).hasRead true) rfl]
  exact congrArg some (cfg.dfaTokenizer.records_eq_fieldRecords startRecord [] [] _).symm

/-- **The first chunk.** When it is a byte order mark and nothing else, the first call reports the
    end; otherwise the caller gets the records of the machine. -/
theorem streamRecords_build {bufs : Nat → Nat × Nat}
    (hbufs : ∀ i, 0 < (bufs i).1 ∧ 0 < (bufs i).2) {chunks : List (List UInt8)}
    (hne : ∀ c ∈ chunks, c ≠ [])
    (hbom : Reader.utf8Bom <+: chunks.flatten → 3 ≤ (chunks.headD []).length) {fuel : Nat}
    (hfuel : chunks.flatten.length + 2 ≤ fuel) :
    streamRecords bufs fuel 0 (Reader.build cfg false) [] [] chunks =
      if chunks.head? = some Reader.utf8Bom then some [] else some (cfg.tableRecords chunks.flatten) := by
  have hat := (Reader.at_build cfg).hasRead true
  cases chunks with
  | nil =>
    rw [streamRecords_nil hbufs (Reader.at_build cfg) rfl [] 0 (by simpa using hfuel)]
    rfl
  | cons c cs =>
    by_cases hc : Reader.utf8Bom <+: c
    · obtain ⟨c, rfl⟩ := hc
      rw [streamRecords_first_bom rfl]
      by_cases hnil : c = []
      · subst hnil
        have hcall := Reader.readRecord_nil hat (bufs 0).1 (hbufs 0).2
        rw [if_neg (by decide)] at hcall
        obtain ⟨fuel, rfl⟩ : ∃ n, fuel = n + 1 := ⟨fuel - 1, by omega⟩
        simp [streamRecords, hcall]
      · rw [if_neg (by simpa using hnil), streamRecords_eq hbufs ?_ ?_ hat rfl rfl]
        · rfl
        · simp only [List.flatten_cons, List.length_append] at hfuel ⊢
          omega
        · intro d hd
          rcases List.mem_cons.mp hd with rfl | hd
          · exact hnil
          · exact hne d (List.mem_cons_of_mem _ hd)
    · have hflat : ¬Reader.utf8Bom <+: (c :: cs).flatten := by
        intro hpre
        have hlen := hbom hpre
        exact hc (List.prefix_of_prefix_length_le hpre (List.prefix_append ..) hlen)
      have hhead : ¬(c :: cs).head? = some Reader.utf8Bom := by
        intro hh
        rw [List.head?_cons, Option.some.injEq] at hh
        exact hc (hh ▸ List.prefix_refl _)
      rw [streamRecords_first rfl bufs fuel 0 [] [] hc, if_neg hhead,
        streamRecords_eq hbufs hfuel hne hat rfl rfl, Config.tableRecords, withoutBom,
        if_neg hflat]
      rfl

end Build

/-! ### Input without records -/

namespace Config

variable (cfg : Config)

/-- Only line ends and comments that end: `inside` says whether the bytes begin inside a comment. A
    line feed that has no class of its own does not end a comment. -/
def onlyBlank (inside : Bool) : List UInt8 → Bool
  | [] => !inside
  | c :: rest =>
    if inside then onlyBlank (!decide (c = LF ∧ ¬cfg.LineFeedCommon)) rest
    else if cfg.term.equals c then onlyBlank false rest
    else if cfg.comment = some c then onlyBlank true rest
    else false

/-- The states inside a record. -/
def inRecord : NfaState → Bool
  | startField | inField | inQuotedField | inEscapedQuote | inDoubleEscapedQuote
  | endFieldDelim => true
  | _ => false

/-- A record that has begun goes on, or ends. -/
def Begun (s : NfaState) : Prop := inRecord s = true ∨ markOf s = .record

theorem begun_recordTerm (c : UInt8) : Begun (cfg.recordTerm c).1 := by
  unfold recordTerm
  split_ifs <;> exact Or.inr rfl

theorem begun_afterField (c : UInt8) : Begun (cfg.afterField c).1 := by
  unfold afterField
  split_ifs
  · exact Or.inl rfl
  · exact cfg.begun_recordTerm c
  · exact Or.inl rfl

theorem begun_firstOfField (c : UInt8) : Begun (cfg.firstOfField c).1 := by
  unfold firstOfField
  split_ifs
  · exact Or.inl rfl
  · exact cfg.begun_afterField c

theorem begun_nextByte {s : NfaState} (hs : inRecord s = true) (c : UInt8) :
    Begun (cfg.nextByte s c).1 := by
  cases s with
  | startField | endFieldDelim => exact cfg.begun_firstOfField c
  | inField => exact cfg.begun_afterField c
  | inEscapedQuote => exact Or.inl rfl
  | inQuotedField =>
    simp only [nextByte]
    split_ifs <;> exact Or.inl rfl
  | inDoubleEscapedQuote =>
    simp only [nextByte]
    split_ifs
    · exact Or.inl rfl
    · exact cfg.begun_afterField c
  | endFieldTerm | inRecordTerm | «end» | startRecord | inComment | endRecord | crlf =>
    exact absurd hs (by decide)

theorem begun_step {s : NfaState} (hs : inRecord s = true) (c : UInt8) :
    Begun (cfg.dfaTokenizer.step s c).1 := by
  have hne : s ≠ inComment := by
    rintro rfl
    exact absurd hs (by decide)
  show Begun (cfg.dfaStep s c).1
  rw [dfaStep, if_neg fun h => hne h.1]
  exact cfg.begun_nextByte hs c

/-- A record that has begun is among the records. -/
theorem records_ne_nil {s : NfaState} (hs : inRecord s = true) (out : List UInt8)
    (ends : List Nat) (input : List UInt8) : cfg.dfaTokenizer.records s out ends input ≠ [] := by
  induction input generalizing s out ends with
  | nil =>
    have hp : pendingOf s = true := by
      revert hs
      cases s <;> decide
    rw [Tokenizer.records, dfaTokenizer_pending, if_pos hp]
    exact List.cons_ne_nil _ _
  | cons c rest ih =>
    by_cases hrec : markOf (cfg.dfaTokenizer.step s c).1 = .record
    · rw [cfg.dfaTokenizer.records_cons_of_record hrec]
      exact List.cons_ne_nil _ _
    · rw [cfg.dfaTokenizer.records_cons_of_ne hrec]
      exact ih ((cfg.begun_step hs c).resolve_right hrec) _ _

/-- Input without records is made of line ends and comments. -/
theorem records_eq_nil_iff (inside : Bool) (out : List UInt8) (ends : List Nat)
    (input : List UInt8) :
    cfg.dfaTokenizer.records (if inside then inComment else startRecord) out ends input = [] ↔
      cfg.onlyBlank inside input = true := by
  induction input generalizing inside out ends with
  | nil =>
    cases inside with
    | true => simp [Tokenizer.records, pendingOf, onlyBlank]
    | false => simp [Tokenizer.records, pendingOf, onlyBlank]
  | cons c rest ih =>
    cases inside with
    | true =>
      -- a comment ends at a line feed, unless the table gives that byte the common class
      have hstep : (cfg.dfaTokenizer.step inComment c).1 =
          if !decide (c = LF ∧ ¬cfg.LineFeedCommon) then inComment else startRecord := by
        show (cfg.dfaStep inComment c).1 = _
        by_cases hc : c = LF <;> by_cases hlf : cfg.LineFeedCommon <;>
          simp [dfaStep, nextByte, hc, hlf]
      have hmark : markOf (cfg.dfaTokenizer.step inComment c).1 ≠ .record := by
        rw [hstep]
        split_ifs <;> decide
      rw [if_pos rfl, cfg.dfaTokenizer.records_cons_of_ne hmark, hstep, ih, onlyBlank, if_pos rfl]
    | false =>
      have hstep : (cfg.dfaTokenizer.step startRecord c).1 = (cfg.firstOfRecord c).1 := by
        show (cfg.dfaStep startRecord c).1 = _
        rfl
      rw [if_neg (by decide), onlyBlank, if_neg (by decide)]
      by_cases ht : cfg.term.equals c = true
      · have hnext : (cfg.dfaTokenizer.step startRecord c).1 = if false then inComment else startRecord := by
          simp [hstep, firstOfRecord, ht]
        have hmark : markOf (cfg.dfaTokenizer.step startRecord c).1 ≠ .record := by
          rw [hnext]
          decide
        rw [if_pos ht, cfg.dfaTokenizer.records_cons_of_ne hmark, hnext, ih]
      · by_cases hcm : cfg.comment = some c
        · have hnext : (cfg.dfaTokenizer.step startRecord c).1 =
              if true then inComment else startRecord := by
            simp [hstep, firstOfRecord, ht, hcm]
          have hmark : markOf (cfg.dfaTokenizer.step startRecord c).1 ≠ .record := by
            rw [hnext]
            decide
          rw [if_neg ht, if_pos hcm, cfg.dfaTokenizer.records_cons_of_ne hmark, hnext, ih]
        -- a record begins, and one that has begun is delivered at the end of the input
        · have hbegun : Begun (cfg.dfaTokenizer.step startRecord c).1 := by
            rw [hstep, firstOfRecord, if_neg ht, if_neg hcm]
            exact cfg.begun_firstOfField c
          rw [if_neg ht, if_neg hcm]
          refine ⟨fun h => absurd h ?_, fun h => absurd h (by decide)⟩
          by_cases hrec : markOf (cfg.dfaTokenizer.step startRecord c).1 = .record
          · rw [cfg.dfaTokenizer.records_cons_of_record hrec]
            exact List.cons_ne_nil _ _
          · rw [cfg.dfaTokenizer.records_cons_of_ne hrec]
            exact cfg.records_ne_nil (hbegun.resolve_right hrec) _ _ _

end Config

/-! ### Counts and agreement -/

/-- Every count that a call through the table returns is within its buffer. -/
theorem Reader.counts_le {r : Reader} (h : r.useNfa = false) (input : List UInt8)
    (outLen endsLen : Nat) :
    (r.readRecord input outLen endsLen).2.nin ≤ input.length ∧
      (r.readRecord input outLen endsLen).2.out.length ≤ outLen ∧
      (r.readRecord input outLen endsLen).2.ends.length ≤ endsLen := by
  have hstrip : (r.stripUtf8Bom input).1.length + (r.stripUtf8Bom input).2 = input.length := by
    unfold stripUtf8Bom
    split_ifs with hbom
    · simp only [List.length_drop]
      omega
    · rfl
  obtain ⟨hout, hends, hrest, -⟩ := r.dfa.recordLoop_bounds r.outputPos r.dfaState
    (r.stripUtf8Bom input).1 outLen endsLen
  unfold readRecord
  dsimp only
  rw [h, if_neg (by decide), readRecordDfa]
  dsimp only
  split_ifs with h1 h2 h3
  all_goals dsimp only [List.length_nil, List.length_cons]
  all_goals exact ⟨by omega, by omega, by omega⟩

theorem Reader.field_counts_le {r : Reader} (h : r.useNfa = false) (input : List UInt8)
    (outLen : Nat) :
    (r.readField input outLen).2.nin ≤ input.length ∧
      (r.readField input outLen).2.out.length ≤ outLen := by
  have hstrip : (r.stripUtf8Bom input).1.length + (r.stripUtf8Bom input).2 = input.length := by
    unfold stripUtf8Bom
    split_ifs with hbom
    · simp only [List.length_drop]
      omega
    · rfl
  obtain ⟨hout, hrest, -⟩ := r.dfa.fieldLoop_bounds r.dfaState (r.stripUtf8Bom input).1 outLen
  unfold readField
  dsimp only
  rw [h, if_neg (by decide), readFieldDfa]
  split_ifs with h1 h2
  all_goals dsimp only [List.length_nil]
  all_goals exact ⟨by omega, by omega⟩

/-- **Chunks and buffers do not matter, but for a byte order mark alone in the first chunk.** The
    call that gets it reports the end of the data, so that what follows is lost unless it holds no
    record. -/
theorem streamRecords_agree_iff (cfg : Config) {chunks : List (List UInt8)}
    (hne : ∀ c ∈ chunks, c ≠ [])
    (hbom : Reader.utf8Bom <+: chunks.flatten → 3 ≤ (chunks.headD []).length)
    {bufs : Nat → Nat × Nat} (hbufs : ∀ i, 0 < (bufs i).1 ∧ 0 < (bufs i).2)
    {fieldBufs : Nat → Nat} (hfieldBufs : ∀ i, 0 < fieldBufs i) {fuel : Nat}
    (hfuel : chunks.flatten.length + 2 ≤ fuel) :
    ((∀ r : Reader, r.useNfa = false → ∀ input outLen endsLen,
        (r.readRecord input outLen endsLen).2.nin ≤ input.length ∧
          (r.readRecord input outLen endsLen).2.out.length ≤ outLen ∧
          (r.readRecord input outLen endsLen).2.ends.length ≤ endsLen ∧
          (r.readField input outLen).2.nin ≤ input.length ∧
          (r.readField input outLen).2.out.length ≤ outLen) ∧
      ∃ recs,
        streamRecords bufs fuel 0 (Reader.build cfg false) [] [] chunks = some recs ∧
          fieldwiseRecords fieldBufs fuel 0 (Reader.build cfg false) [] [] chunks.flatten =
            some recs) ↔
      (chunks.head? = some Reader.utf8Bom → cfg.onlyBlank false chunks.tail.flatten = true) := by
  have hcounts : ∀ r : Reader, r.useNfa = false → ∀ input outLen endsLen,
      (r.readRecord input outLen endsLen).2.nin ≤ input.length ∧
        (r.readRecord input outLen endsLen).2.out.length ≤ outLen ∧
        (r.readRecord input outLen endsLen).2.ends.length ≤ endsLen ∧
        (r.readField input outLen).2.nin ≤ input.length ∧
        (r.readField input outLen).2.out.length ≤ outLen := by
    intro r hr input outLen endsLen
    obtain ⟨h1, h2, h3⟩ := Reader.counts_le hr input outLen endsLen
    exact ⟨h1, h2, h3, Reader.field_counts_le hr input outLen⟩
  rw [streamRecords_build cfg hbufs hne hbom hfuel, fieldwiseRecords_build cfg hfieldBufs hfuel]
  by_cases hhead : chunks.head? = some Reader.utf8Bom
  · obtain ⟨cs, rfl⟩ : ∃ cs, chunks = Reader.utf8Bom :: cs := by
      cases chunks with
      | nil => exact absurd hhead (by simp)
      | cons c cs =>
        rw [List.head?_cons, Option.some.injEq] at hhead
        exact ⟨cs, by rw [hhead]⟩
    have hrecords : cfg.tableRecords (Reader.utf8Bom :: cs).flatten = [] ↔
        cfg.onlyBlank false cs.flatten = true := by
      rw [Config.tableRecords, List.flatten_cons, withoutBom_append]
      exact cfg.records_eq_nil_iff false [] [] cs.flatten
    rw [if_pos hhead, List.tail_cons, ← hrecords]
    constructor
    · rintro ⟨-, recs, hstream, hfield⟩ -
      rw [Option.some.injEq] at hstream hfield
      rw [hfield, ← hstream]
    · intro h
      exact ⟨hcounts, [], rfl, congrArg some (h hhead)⟩
  · rw [if_neg hhead]
    exact ⟨fun _ h => absurd h hhead, fun _ => ⟨hcounts, _, rfl, rfl⟩⟩

/-- A cut behind a delimiter. -/
theorem streamRecords_agree_iff_cut :
    ∃ recs,
      streamRecords (fun _ => (1, 1)) 8 0 (Reader.build Config.default false) [] []
          [[97, 44], [98, 10]] = some recs ∧
        fieldwiseRecords (fun _ => 1) 8 0 (Reader.build Config.default false) [] []
          [97, 44, 98, 10] = some recs :=
  ((streamRecords_agree_iff Config.default (show ∀ c ∈ [[97, 44], [98, 10]],
    c ≠ [] by decide) (by decide)
    (by simp) (fun _ => Nat.one_pos) (by decide)).mpr fun h => absurd h (by decide)).2

/-- The byte order mark alone, then one field: the caller that reads chunks gets no record. -/
theorem streamRecords_bom_alone :
    streamRecords (fun _ => (8, 8)) 8 0 (Reader.build Config.default false) [] []
        [Reader.utf8Bom, [97]] = some [] ∧
      fieldwiseRecords (fun _ => 8) 8 0 (Reader.build Config.default false) [] []
        (Reader.utf8Bom ++ [97]) = some [[[97]]] := by
  constructor
  · rw [streamRecords_build Config.default (by simp) (by decide) (by decide) (by decide)]
    rfl
  · rw [fieldwiseRecords_build Config.default (by simp) (by decide)]
    decide

end TeaclaveCrates.Csv
