import TeaclaveCrates.Csv.RecordReader

namespace TeaclaveCrates.Csv

open Lib NfaState

/-!
# Header access and trimming

The first row reaches the caller of `read_byte_record` on one of three ways: it is read, it is held
as the headers that `byte_headers` has read before, or it is skipped as a header row. Each has its
own code for trimming.

* `Call`, `run` — calls of `byte_headers` and `read_byte_record` in some order, and what the second
  kind returns.
* `Yields`, `yields_step` — the rows that a reader has still to return.
* `run_yields` — behind the first row, calls return the rows trimmed as asked for.
* `run_new` — what a new reader returns, with the first row as each way leaves it.
* `header_access_iff` — when that is what the trim mode asks for.
-/

/-! ### Rows and trimming -/

def trimRow (row : List (List UInt8)) : List (List UInt8) := row.map trimAscii

namespace Trim

variable (t : Trim)

/-- A row as the mode wants it among the records. -/
def asFields (row : List (List UInt8)) : List (List UInt8) :=
  if t.shouldTrimFields then trimRow row else row

/-- A row as the mode wants it as the headers. -/
def asHeaders (row : List (List UInt8)) : List (List UInt8) :=
  if t.shouldTrimHeaders then trimRow row else row

theorem asFields_nil : t.asFields [] = [] := by
  unfold asFields
  split_ifs <;> rfl

theorem asHeaders_nil : t.asHeaders [] = [] := by
  unfold asHeaders
  split_ifs <;> rfl

theorem asFields_ne_nil {row : List (List UInt8)} (h : row ≠ []) : t.asFields row ≠ [] := by
  unfold asFields
  split_ifs
  · simpa [trimRow] using h
  · exact h

theorem asHeaders_ne_nil {row : List (List UInt8)} (h : row ≠ []) : t.asHeaders row ≠ [] := by
  unfold asHeaders
  split_ifs
  · simpa [trimRow] using h
  · exact h

end Trim

theorem trimAscii_trimAscii (bytes : List UInt8) :
    trimAscii (trimAscii bytes) = trimAscii bytes := by
  -- what is left ends as it did before the front was trimmed
  have hend : trimAsciiEnd (trimAscii bytes) = trimAscii bytes := by
    apply List.rdropWhile_eq_self_iff.mpr
    intro hne
    have hsuffix : trimAscii bytes <:+ trimAsciiEnd bytes := List.dropWhile_suffix _
    rw [hsuffix.getLast hne]
    exact List.rdropWhile_last_not _ _ _
  show trimAsciiStart (trimAsciiEnd (trimAscii bytes)) = _
  rw [hend]
  exact List.dropWhile_idempotent ..

theorem trimRow_trimRow (row : List (List UInt8)) : trimRow (trimRow row) = trimRow row := by
  unfold trimRow
  rw [List.map_map]
  apply List.map_congr_left
  intro field _
  exact trimAscii_trimAscii field

theorem ByteRecord.fields_trim (record : ByteRecord) : record.trim.fields = trimRow record.fields := by
  unfold ByteRecord.trim
  split_ifs with h
  · have hnil : record.fields = [] := by
      unfold ByteRecord.isEmpty at h
      simpa using h
    rw [hnil]
    rfl
  · rfl

namespace CsvReader

/-! ### Calls -/

inductive Call where
  | byteHeaders
  | readByteRecord (record : ByteRecord)
  deriving DecidableEq, Repr

/-- What the calls of `read_byte_record` return: the fields of a record, or that there is none. A
    call that returns an error ends the run with `none`. -/
def run : CsvReader → List Call → Option (List (Option (List (List UInt8))))
  | _, [] => some []
  | r, .byteHeaders :: calls =>
    match r.byteHeaders with
    | some (r, .ok _) => run r calls
    | _ => none
  | r, .readByteRecord record :: calls =>
    match r.readByteRecord record with
    | some (r, record, .ok ok) =>
      (run r calls).map ((if ok then some record.fields else none) :: ·)
    | _ => none

/-- The number of records asked for. -/
def reads : List Call → Nat
  | [] => 0
  | .byteHeaders :: calls => reads calls
  | .readByteRecord _ :: calls => reads calls + 1

/-- What `n` calls return that go through the rows. -/
def returned (rows : List (List (List UInt8))) (n : Nat) : List (Option (List (List UInt8))) :=
  (List.range n).map (rows[·]?)

theorem returned_succ (rows : List (List (List UInt8))) (n : Nat) :
    returned rows (n + 1) = rows.head? :: returned rows.tail n := by
  unfold returned
  rw [List.range_succ_eq_map, List.map_cons, List.map_map]
  congr 1
  · rw [List.head?_eq_getElem?]
  · apply List.map_congr_left
    simp

/-! ### The rows that are left -/

variable {r : CsvReader}

/-- The rows that `read_byte_record_impl` has still to return. -/
def Yields (r : CsvReader) (rows : List (List (List UInt8))) : Prop :=
  Even r rows ∧
    ((Ready r ∧ r.core.cfg.rows (r.source.data.drop r.curPos.byte) = rows) ∨
      (AtOffset r ∧ r.source.rowsFrom r.core.cfg r.curPos.byte = rows) ∨ (AtEof r ∧ rows = []))

theorem even_nil (r : CsvReader) : Even r [] := by
  refine Or.inr ⟨r.firstFieldCount.getD 0, ?_, fun row h => absurd h List.not_mem_nil⟩
  cases r.firstFieldCount with
  | none => exact Or.inl rfl
  | some len => exact Or.inr rfl

variable {rows : List (List (List UInt8))}

/-- The rows do not depend on the headers or on what was returned. -/
theorem Yields.withHeaders (h : Yields r rows) (headers : Option ByteRecord) (first : Bool) :
    Yields { r with headers := headers, first := first } rows := by
  obtain ⟨heven, ⟨hr, hrows⟩ | ⟨hr, hrows⟩ | ⟨hr, hrows⟩⟩ := h
  · exact ⟨heven, Or.inl ⟨⟨hr.state, hr.hasRead, hr.outputPos, hr.blocks_ne_nil, hr.flatten,
      hr.eof⟩, hrows⟩⟩
  · exact ⟨heven, Or.inr (Or.inl ⟨⟨hr.state, hr.hasRead, hr.outputPos, hr.blocks, hr.eof⟩, hrows⟩)⟩
  · exact ⟨heven, Or.inr (Or.inr ⟨⟨hr.table, hr.outputPos, hr.eof⟩, hrows⟩)⟩

/-- A call returns the first of the rows. -/
theorem yields_step (h : Yields r rows) (record : ByteRecord) :
    ∃ r' record', r.readByteRecordImpl record = some (r', record', .ok !rows.isEmpty) ∧
      record'.fields = rows.headD [] ∧ Same r r' ∧ Yields r' rows.tail := by
  obtain ⟨heven, hplace⟩ := h
  have hresult : ∃ start, ImplResult r start rows (r.readByteRecordImpl record) := by
    rcases hplace with ⟨hready, rfl⟩ | ⟨hat, rfl⟩ | ⟨heof, rfl⟩
    · exact ⟨_, readByteRecordImpl_ready hready heven record⟩
    · exact ⟨_, readByteRecordImpl_atOffset hat heven record⟩
    · exact ⟨0, readByteRecordImpl_eof heof 0 record⟩
  obtain ⟨start, ⟨rfl, r', record', hres, hfields, -, hsame, heof, -⟩ |
    ⟨row, more, r', record', rfl, hres, hfields, -, hsame, hready, heven', -, hmore⟩⟩ := hresult
  · exact ⟨r', record', hres, hfields, hsame, even_nil r', Or.inr (Or.inr ⟨heof, rfl⟩)⟩
  · refine ⟨r', record', hres, hfields, hsame, heven', Or.inl ⟨hready, ?_⟩⟩
    simp [hsame.cfg, hsame.source, hmore]

theorem fields_trimFields (r : CsvReader) (record : ByteRecord) :
    (r.trimFields record).fields = r.trim.asFields record.fields := by
  unfold trimFields Trim.asFields
  split_ifs
  · exact record.fields_trim
  · rfl

/-! ### Behind the first row -/

/-- With the headers known and not held back, a call returns the next row, trimmed as asked for. -/
theorem readByteRecord_yields (h : Yields r rows) (hheld : r.heldHeaders = none)
    (hheaders : r.headers.isSome = true) (record : ByteRecord) :
    ∃ r' record', r.readByteRecord record = some (r', record', .ok !rows.isEmpty) ∧
      record'.fields = r.trim.asFields (rows.headD []) ∧ Yields r' rows.tail ∧
      r'.heldHeaders = none ∧ r'.headers.isSome = true ∧ r'.trim = r.trim := by
  obtain ⟨r', record', hres, hfields, hsame, hyields⟩ := yields_step h record
  have hdirect : (!r.seeked && r.headers.isNone) = false := by
    rw [Option.isNone_eq_false_iff.mpr hheaders, Bool.and_false]
  refine ⟨{ r' with first := true }, { r' with first := true }.trimFields record',
    readByteRecord_direct hheld hdirect hres hsame, ?_, hyields.withHeaders r'.headers true, ?_, ?_,
    hsame.trim⟩
  · rw [fields_trimFields, hfields]
    exact congrArg (Trim.asFields · _) hsame.trim
  · simp [heldHeaders]
  · rw [hsame.headers]
    exact hheaders

/-- **Behind the first row** the calls return the rows, trimmed as asked for. -/
theorem run_yields (h : Yields r rows) (hheld : r.heldHeaders = none)
    (hheaders : r.headers.isSome = true) (calls : List Call) :
    run r calls = some (returned (rows.map r.trim.asFields) (reads calls)) := by
  induction calls generalizing r rows with
  | nil => rfl
  | cons call calls ih =>
    cases call with
    | byteHeaders =>
      rw [run, byteHeaders_known hheaders]
      exact ih h hheld hheaders
    | readByteRecord record =>
      obtain ⟨r', record', hres, hfields, hyields, hheld', hheaders', htrim⟩ :=
        readByteRecord_yields h hheld hheaders record
      rw [run, hres]
      dsimp only
      rw [ih hyields hheld' hheaders', reads, returned_succ, htrim, hfields]
      cases rows with
      | nil => rfl
      | cons row rows => rfl

/-! ### The first row -/

/-- The rows, with the first one changed by `f` and the others by `g`. -/
def firstAs (f g : List (List UInt8) → List (List UInt8)) :
    List (List (List UInt8)) → List (List (List UInt8))
  | [] => []
  | row :: rows => f row :: rows.map g

/-- `byte_headers` keeps the first row, trimmed as headers. -/
theorem byteHeaders_yields (h : Yields r rows) (hheaders : r.headers = none) :
    ∃ r' headers, r.byteHeaders = some (r', .ok ()) ∧ r'.headers = some headers ∧
      headers.fields = r.trim.asHeaders (rows.headD []) ∧ Yields r' rows.tail ∧
      r'.hasHeaders = r.hasHeaders ∧ r'.first = r.first ∧ r'.seeked = r.seeked ∧
      r'.trim = r.trim := by
  obtain ⟨r', record', hres, hfields, hsame, hyields⟩ := yields_step h ByteRecord.new
  refine ⟨r'.setHeadersImpl record', _, byteHeaders_first hheaders hres, rfl, ?_,
    hyields.withHeaders _ r'.first, hsame.hasHeaders, hsame.first, hsame.seeked, hsame.trim⟩
  rw [hsame.trim, ← hfields]
  unfold Trim.asHeaders
  split_ifs
  · exact record'.fields_trim
  · rfl

/-- The header row is skipped, whichever call reads it. -/
theorem run_hasHeaders (h : Yields r rows) (hhas : r.hasHeaders = true)
    (hheaders : r.headers = none) (hseeked : r.seeked = false) (calls : List Call) :
    run r calls = some (returned (rows.tail.map r.trim.asFields) (reads calls)) := by
  cases calls with
  | nil => rfl
  | cons call calls =>
    cases call with
    | byteHeaders =>
      obtain ⟨r', headers, hres, hsome, -, hyields, hhas', -, -, htrim⟩ :=
        byteHeaders_yields h hheaders
      rw [run, hres, reads, ← htrim]
      apply run_yields hyields
      · simp [heldHeaders, hhas', hhas]
      · simp [hsome]
    | readByteRecord record =>
      obtain ⟨r₁, record₁, hres₁, -, hsame₁, hyields₁⟩ := yields_step h record
      have hyields₁ := hyields₁.withHeaders
        (some (if r₁.trim.shouldTrimHeaders then record₁.trim else record₁)) true
      obtain ⟨r₂, record₂, hres₂, hfields₂, hsame₂, hyields₂⟩ := yields_step hyields₁ record₁
      have hread : r.readByteRecord record =
          some (r₂, r₂.trimFields record₂, .ok !rows.tail.isEmpty) := by
        have hheld : r.heldHeaders = none := by simp [heldHeaders, hhas]
        unfold readByteRecord
        rw [hheld, hres₁]
        dsimp only
        have hfirst : (!r₁.seeked && r₁.headers.isNone) = true := by
          simp [hsame₁.seeked, hsame₁.headers, hseeked, hheaders]
        have hhas₁ : ({ r₁ with first := true }.setHeadersImpl record₁).hasHeaders = true := by
          show r₁.hasHeaders = true
          rw [hsame₁.hasHeaders, hhas]
        rw [if_pos hfirst, if_pos hhas₁]
        exact congrArg (Option.map _) hres₂
      have htrim : r₂.trim = r.trim := hsame₂.trim.trans hsame₁.trim
      have hhas₂ : r₂.hasHeaders = true := by
        rw [hsame₂.hasHeaders]
        exact hsame₁.hasHeaders.trans hhas
      have hsome : r₂.headers.isSome = true := by
        simp [hsame₂.headers]
      rw [run, hread]
      dsimp only
      rw [run_yields hyields₂ (by simp [heldHeaders, hhas₂]) hsome, reads, returned_succ,
        fields_trimFields, hfields₂, htrim]
      cases rows.tail with
      | nil => rfl
      | cons row rows => rfl

/-- The headers are returned as the first record, with both kinds of trimming. -/
theorem run_held (hne : ∀ row ∈ rows, row ≠ []) (h : Yields r rows.tail)
    (hhas : r.hasHeaders = false) {headers : ByteRecord} (hheaders : r.headers = some headers)
    (hfields : headers.fields = r.trim.asHeaders (rows.headD [])) (hfirst : r.first = false)
    (hseeked : r.seeked = false) (calls : List Call) :
    run r calls =
      some (returned (firstAs (r.trim.asFields ∘ r.trim.asHeaders) r.trim.asFields rows)
        (reads calls)) := by
  induction calls with
  | nil => rfl
  | cons call calls ih =>
    cases call with
    | byteHeaders =>
      rw [run, byteHeaders_known (by rw [hheaders]; rfl)]
      exact ih
    | readByteRecord record =>
      have hheld : r.heldHeaders = some headers := by
        simp [heldHeaders, hseeked, hhas, hfirst, hheaders]
      have hread : r.readByteRecord record =
          some ({ r with first := true }, r.trimFields headers,
            .ok !(r.trimFields headers).isEmpty) := by
        simp [readByteRecord, hheld]
      have hrest : run { r with first := true } calls =
          some (returned (rows.tail.map r.trim.asFields) (reads calls)) := by
        apply run_yields (h.withHeaders r.headers true)
        · simp [heldHeaders]
        · simp [hheaders]
      rw [run, hread]
      dsimp only
      rw [hrest, reads, returned_succ, ByteRecord.isEmpty, fields_trimFields, hfields]
      cases rows with
      | nil =>
        rw [List.headD_nil, Trim.asHeaders_nil, Trim.asFields_nil]
        rfl
      | cons row rows =>
        have hrow : row ≠ [] := hne row (List.mem_cons_self ..)
        have hkept := r.trim.asFields_ne_nil (r.trim.asHeaders_ne_nil hrow)
        rw [List.headD_cons, List.isEmpty_eq_false_iff.mpr hkept]
        rfl

/-- **The first row on each way.** A new reader returns the rows trimmed as asked for, except for
    the first one when it is no header row: it is returned as it is when it is read for the caller,
    and trimmed as headers and as a record when `byte_headers` has read it. -/
theorem run_new (hne : ∀ row ∈ rows, row ≠ []) (h : Yields r rows) (hheaders : r.headers = none)
    (hfirst : r.first = false) (hseeked : r.seeked = false) (calls : List Call) :
    run r calls =
      some (returned
        (if r.hasHeaders then rows.tail.map r.trim.asFields
          else firstAs (if calls.head? = some .byteHeaders then r.trim.asFields ∘ r.trim.asHeaders
            else id) r.trim.asFields rows)
        (reads calls)) := by
  by_cases hhas : r.hasHeaders = true
  · rw [if_pos hhas]
    exact run_hasHeaders h hhas hheaders hseeked calls
  · rw [if_neg hhas]
    have hhas : r.hasHeaders = false := by simpa using hhas
    cases calls with
    | nil => rfl
    | cons call calls =>
      cases call with
      | byteHeaders =>
        obtain ⟨r', headers, hres, hsome, hfields, hyields, hhas', hfirst', hseeked', htrim⟩ :=
          byteHeaders_yields h hheaders
        have hhead : (Call.byteHeaders :: calls).head? = some .byteHeaders := rfl
        rw [run, hres, reads, if_pos hhead, ← htrim]
        rw [← htrim] at hfields
        exact run_held hne hyields (hhas'.trans hhas) hsome hfields (hfirst'.trans hfirst)
          (hseeked'.trans hseeked) calls
      | readByteRecord record =>
        obtain ⟨r', record', hres, hfields, hsame, hyields⟩ := yields_step h record
        have hread := readByteRecord_first hheaders hseeked hhas hres hsame
        have hrest : run ({ r' with first := true }.setHeadersImpl record') calls =
            some (returned (rows.tail.map r.trim.asFields) (reads calls)) := by
          rw [← hsame.trim]
          apply run_yields (hyields.withHeaders _ true)
          · simp [heldHeaders]
          · rfl
        have hhead : ¬(Call.readByteRecord record :: calls).head? = some .byteHeaders := by simp
        rw [run, hread, if_neg hhead]
        dsimp only
        rw [hrest, reads, returned_succ, hfields]
        cases rows with
        | nil => rfl
        | cons row rows => rfl

/-! ### New readers -/

theorem ne_nil_of_mem_rowsFrom {cfg : Config} {src : Source} {n : Nat} {row : List (List UInt8)}
    (h : row ∈ src.rowsFrom cfg n) : row ≠ [] := by
  unfold Source.rowsFrom at h
  split_ifs at h
  · exact absurd h List.not_mem_nil
  · exact cfg.dfaTokenizer.ne_nil_of_mem_records h

theorem atOffset_new (cfg : Config) (hasHeaders flexible : Bool) (trim : Trim) (src : Source) :
    AtOffset (new cfg hasHeaders flexible trim src) :=
  ⟨Reader.at_build cfg, rfl, rfl, rfl, rfl⟩

/-- Records have the same length, where the reader wants that. -/
def SameLengths (flexible : Bool) (rows : List (List (List UInt8))) : Prop :=
  flexible = true ∨ ∀ row ∈ rows, ∀ row' ∈ rows, row.length = row'.length

theorem yields_new {cfg : Config} {flexible : Bool} {src : Source}
    (h : SameLengths flexible (src.rowsFrom cfg 0)) (hasHeaders : Bool) (trim : Trim) :
    Yields (new cfg hasHeaders flexible trim src) (src.rowsFrom cfg 0) := by
  refine ⟨?_, Or.inr (Or.inl ⟨atOffset_new cfg hasHeaders flexible trim src, rfl⟩)⟩
  rcases h with hflex | hlen
  · exact Or.inl hflex
  · cases hrows : src.rowsFrom cfg 0 with
    | nil => exact even_nil _
    | cons row rows =>
      rw [hrows] at hlen
      refine Or.inr ⟨row.length, Or.inl rfl, fun row' h => ?_⟩
      exact hlen row' h row (List.mem_cons_self ..)

/-! ### When the rows are trimmed as the mode asks for -/

theorem returned_firstAs_iff (f g : List (List UInt8) → List (List UInt8))
    (rows : List (List (List UInt8))) (n : Nat) :
    returned (firstAs f g rows) n = returned (rows.map g) n ↔
      n = 0 ∨ ∀ row ∈ rows.head?, f row = g row := by
  cases n with
  | zero => exact ⟨fun _ => Or.inl rfl, fun _ => rfl⟩
  | succ n =>
    rw [returned_succ, returned_succ]
    cases rows with
    | nil => simp [firstAs]
    | cons row rows => simp [firstAs]

/-- The first row has the trimming of a record when the mode trims nothing, when trimming does not
    matter, or when it is read by `byte_headers` exactly if fields are to be trimmed. -/
theorem first_row_iff (t : Trim) (held : Prop) [Decidable held] (row : List (List UInt8)) :
    (if held then t.asFields ∘ t.asHeaders else id) row = t.asFields row ↔
      t = .none ∨ (t.shouldTrimFields = true ↔ held) ∨ trimRow row = row := by
  by_cases hheld : held
  · cases t <;> simp [hheld, Trim.asFields, Trim.asHeaders, Trim.shouldTrimFields,
      Trim.shouldTrimHeaders, trimRow_trimRow]
  · cases t <;> simp [hheld, Trim.asFields, Trim.shouldTrimFields, eq_comm]

/-- What the trim mode asks for: the rows without the header row, their fields trimmed or not. -/
def wanted (hasHeaders : Bool) (t : Trim) (rows : List (List (List UInt8))) :
    List (List (List UInt8)) :=
  (if hasHeaders then rows.tail else rows).map t.asFields

/-- **Header access and trimming.** Whatever the order of the calls, the records are the rows with
    the trimming that the mode asks for, except that without a header row the first one is trimmed
    only if `byte_headers` reads it, and then for the mode that is meant for headers as well. -/
theorem header_access_iff (cfg : Config) (hasHeaders flexible : Bool) (t : Trim) (src : Source)
    (h : SameLengths flexible (src.rowsFrom cfg 0)) (calls : List Call) :
    run (new cfg hasHeaders flexible t src) calls =
        some (returned (wanted hasHeaders t (src.rowsFrom cfg 0)) (reads calls)) ↔
      hasHeaders = true ∨ reads calls = 0 ∨ t = .none ∨
        (t.shouldTrimFields = true ↔ calls.head? = some .byteHeaders) ∨
        ∀ row ∈ (src.rowsFrom cfg 0).head?, trimRow row = row := by
  rw [run_new (fun row => ne_nil_of_mem_rowsFrom) (yields_new h hasHeaders t) rfl rfl rfl calls,
    Option.some.injEq]
  show returned (if hasHeaders then _ else _) _ = _ ↔ _
  unfold wanted
  by_cases hhas : hasHeaders = true
  · simp [hhas, new]
  · rw [if_neg hhas, if_neg hhas]
    show returned (firstAs (if calls.head? = some .byteHeaders then t.asFields ∘ t.asHeaders
      else id) t.asFields _) _ = _ ↔ _
    rw [returned_firstAs_iff]
    simp only [first_row_iff]
    constructor
    · rintro (hreads | hrow)
      · exact Or.inr (Or.inl hreads)
      · by_cases hmode : t = .none ∨
            (t.shouldTrimFields = true ↔ calls.head? = some .byteHeaders)
        · rcases hmode with hnone | hiff
          · exact Or.inr (Or.inr (Or.inl hnone))
          · exact Or.inr (Or.inr (Or.inr (Or.inl hiff)))
        · obtain ⟨hnone, hiff⟩ := not_or.mp hmode
          refine Or.inr (Or.inr (Or.inr (Or.inr fun row h => ?_)))
          exact ((hrow row h).resolve_left hnone).resolve_left hiff
    · rintro (htrue | hreads | hnone | hiff | hrow)
      · exact absurd htrue hhas
      · exact Or.inl hreads
      · exact Or.inr fun row _ => Or.inl hnone
      · exact Or.inr fun row _ => Or.inr (Or.inl hiff)
      · exact Or.inr fun row h => Or.inr (Or.inr (hrow row h))

/-- One row with one field, a blank and the letter `a`. -/
def blankField : Source := Source.whole [32, 97, 10] (by decide)

theorem rowsFrom_blankField : blankField.rowsFrom Config.default 0 = [[[32, 97]]] := by decide

/-- The headers are asked for first. -/
theorem header_access_iff_held :
    SameLengths true (blankField.rowsFrom Config.default 0) ∧
      run (new Config.default false true .fields blankField)
          [.byteHeaders, .readByteRecord ByteRecord.new] =
        some (returned (wanted false .fields (blankField.rowsFrom Config.default 0)) 1) :=
  ⟨Or.inl rfl, (header_access_iff Config.default false true .fields blankField (Or.inl rfl)
    [.byteHeaders, .readByteRecord ByteRecord.new]).mpr
      (Or.inr (Or.inr (Or.inr (Or.inl ⟨fun _ => rfl, fun _ => rfl⟩))))⟩

/-- The first record is read at once, and keeps its blank although fields are to be trimmed. -/
theorem first_row_untrimmed :
    run (new Config.default false true .fields blankField) [.readByteRecord ByteRecord.new] =
        some [some [[32, 97]]] ∧
      returned (wanted false .fields (blankField.rowsFrom Config.default 0)) 1 = [some [[97]]] := by
  constructor
  · rw [run_new (fun row => ne_nil_of_mem_rowsFrom) (yields_new (Or.inl rfl) false .fields) rfl rfl
      rfl, rowsFrom_blankField]
    rfl
  · rw [rowsFrom_blankField]
    decide

end CsvReader

end TeaclaveCrates.Csv
