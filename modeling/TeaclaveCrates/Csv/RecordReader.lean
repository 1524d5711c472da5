import Mathlib.Algebra.Group.Nat.Defs
import Mathlib.Data.List.DropRight
import TeaclaveCrates.Csv.Tracing

namespace TeaclaveCrates.Csv

open Lib NfaState

/-!
# The record reader

`csv::Reader`: the reader that owns its source. It calls `csv_core::Reader` until a record is
complete, with a buffer of the source as input and the buffers of a `ByteRecord` as output.

* `Source` — what a `BufReader` delivers.
* `ByteRecord` — a record with its position and the sizes of its buffers.
* `CsvReader` — the state of the reader.
* `readByteRecordImpl` — the next record, headers or not.
* `byteHeaders`, `readByteRecord` — the calls that tell headers from records.
* `Ready`, `readByteRecordImpl_ready` — what a call between two records does.

The reader uses the table (`csv_core`'s `nfa` option is hidden and off). Sources answer without
I/O errors, line numbers are left out, and of the headers only the bytes are kept.
-/

/-! ### Sources -/

/-- A seekable source: its bytes, and the blocks that a `BufReader` gets from an offset on. Offsets
    are 64 bits wide. -/
structure Source where
  data : List UInt8
  blocks : Nat → List (List UInt8)
  blocks_ne_nil : ∀ n, ∀ b ∈ blocks n, b ≠ []
  flatten_blocks : ∀ n, (blocks n).flatten = data.drop n
  length_lt : data.length < 2 ^ 64

/-- A source that delivers at once all that is left. -/
def Source.whole (data : List UInt8) (h : data.length < 2 ^ 64) : Source where
  data := data
  blocks n := if data.drop n = [] then [] else [data.drop n]
  blocks_ne_nil n b hb := by
    split_ifs at hb with hnil
    · exact absurd hb List.not_mem_nil
    · rw [List.mem_singleton.mp hb]
      exact hnil
  flatten_blocks n := by
    split_ifs with hnil
    · exact hnil.symm
    · simp
  length_lt := h

/-! ### Records -/

inductive Trim where
  | none
  | headers
  | fields
  | all
  deriving DecidableEq, Repr

namespace Trim

def shouldTrimFields (t : Trim) : Bool := t = .fields || t = .all

def shouldTrimHeaders (t : Trim) : Bool := t = .headers || t = .all

end Trim

structure Position where
  byte : Nat
  record : Nat
  deriving DecidableEq, Repr

/-- `u8::is_ascii_whitespace` -/
def isAsciiWhitespace (c : UInt8) : Bool := c = 32 || c = 9 || c = 10 || c = 12 || c = 13

def trimAsciiStart (bytes : List UInt8) : List UInt8 := bytes.dropWhile isAsciiWhitespace

def trimAsciiEnd (bytes : List UInt8) : List UInt8 := bytes.rdropWhile isAsciiWhitespace

def trimAscii (bytes : List UInt8) : List UInt8 := trimAsciiStart (trimAsciiEnd bytes)

/-- A record: its fields, and the sizes of the two buffers it keeps for the next one. -/
structure ByteRecord where
  pos : Option Position
  fields : List (List UInt8)
  fieldsLen : Nat
  endsLen : Nat
  deriving DecidableEq, Repr

namespace ByteRecord

def new : ByteRecord := ⟨none, [], 0, 0⟩

def isEmpty (record : ByteRecord) : Bool := record.fields.isEmpty

def clear (record : ByteRecord) : ByteRecord := { record with fields := [] }

def expandFields (record : ByteRecord) : ByteRecord :=
  { record with fieldsLen := max 4 (record.fieldsLen * 2) }

def expandEnds (record : ByteRecord) : ByteRecord :=
  { record with endsLen := max 4 (record.endsLen * 2) }

/-- `trim` copies the fields into buffers that are as large as the fields were. -/
def trim (record : ByteRecord) : ByteRecord :=
  if record.isEmpty then record
  else
    { pos := record.pos
      fields := record.fields.map trimAscii
      fieldsLen := record.fields.flatten.length
      endsLen := record.fields.length }

end ByteRecord

/-! ### The reader -/

/-- `ErrorKind::UnequalLengths` -/
structure UnequalLengths where
  pos : Option Position
  expectedLen : Nat
  len : Nat
  deriving DecidableEq, Repr

/-- `csv::Reader` with its `ReaderState`; `blocks` is what its `BufReader` has still to deliver. -/
structure CsvReader where
  core : Reader
  source : Source
  blocks : List (List UInt8)
  headers : Option ByteRecord
  hasHeaders : Bool
  flexible : Bool
  trim : Trim
  firstFieldCount : Option Nat
  curPos : Position
  first : Bool
  seeked : Bool
  eof : Bool

namespace CsvReader

def new (cfg : Config) (hasHeaders flexible : Bool) (trim : Trim) (source : Source) :
    CsvReader where
  core := Reader.build cfg false
  source := source
  blocks := source.blocks 0
  headers := none
  hasHeaders := hasHeaders
  flexible := flexible
  trim := trim
  firstFieldCount := none
  curPos := ⟨0, 0⟩
  first := false
  seeked := false
  eof := false

variable (r : CsvReader)

/-- `ReaderState::add_record` -/
def addRecord (record : ByteRecord) : CsvReader × Except UnequalLengths Unit :=
  let r := { r with curPos := { r.curPos with record := r.curPos.record + 1 } }
  if r.flexible then (r, .ok ())
  else
    match r.firstFieldCount with
    | none => ({ r with firstFieldCount := some record.fields.length }, .ok ())
    | some expected =>
      if record.fields.length ≠ expected then
        (r, .error ⟨record.pos, expected, record.fields.length⟩)
      else (r, .ok ())

/-- One call of the core: the buffer of the source is consumed and the position moves on. -/
def callCore (outLen endsLen : Nat) : CsvReader × RecordRead :=
  let y := r.core.readRecord (r.blocks.headD []) outLen endsLen
  ({ r with core := y.1
            blocks := Csv.unread r.blocks y.2.nin
            curPos := { r.curPos with byte := r.curPos.byte + y.2.nin } }, y.2)

/-- The loop of `read_byte_record_impl`, where `out` and `ends` are written in the buffers of the
    record. `none` stands for a loop that goes on. -/
def readLoop : Nat → CsvReader → ByteRecord → List UInt8 → List Nat →
    Option (CsvReader × ByteRecord × Bool)
  | 0, _, _, _, _ => none
  | fuel + 1, r, record, out, ends =>
    let (r, x) := r.callCore (record.fieldsLen - out.length) (record.endsLen - ends.length)
    let out := out ++ x.out
    let ends := ends ++ x.ends
    match x.res with
    | .inputEmpty => readLoop fuel r record out ends
    | .outputFull => readLoop fuel r record.expandFields out ends
    | .outputEndsFull => readLoop fuel r record.expandEnds out ends
    | .record => some (r, { record with fields := slices out ends }, true)
    | .end => some ({ r with eof := true }, record, false)

/-- Rounds that the loop may take: each reads a byte or makes room in a buffer. -/
def rounds : Nat := 3 * r.blocks.flatten.length + 4

def readByteRecordImpl (record : ByteRecord) :
    Option (CsvReader × ByteRecord × Except UnequalLengths Bool) :=
  let record := { record.clear with pos := some r.curPos }
  if r.eof then some (r, record, .ok false)
  else
    match readLoop r.rounds r record [] [] with
    | none => none
    | some (r, record, false) => some (r, record, .ok false)
    | some (r, record, true) =>
      let (r, res) := r.addRecord record
      some (r, record, res.map fun _ => true)

def setHeadersImpl (headers : ByteRecord) : CsvReader :=
  { r with headers := some (if r.trim.shouldTrimHeaders then headers.trim else headers) }

/-- `byte_headers`; the headers are those in the state that it leaves. -/
def byteHeaders : Option (CsvReader × Except UnequalLengths Unit) :=
  if r.headers.isNone then
    match r.readByteRecordImpl ByteRecord.new with
    | none => none
    | some (r, _, .error e) => some (r, .error e)
    | some (r, record, .ok _) => some (r.setHeadersImpl record, .ok ())
  else some (r, .ok ())

/-- The record of the caller, trimmed when fields are to be trimmed. -/
def trimFields (record : ByteRecord) : ByteRecord :=
  if r.trim.shouldTrimFields then record.trim else record

/-- The headers, when they are still to be returned as the first record. -/
def heldHeaders : Option ByteRecord :=
  if !r.seeked && !r.hasHeaders && !r.first then r.headers else none

def readByteRecord (record : ByteRecord) :
    Option (CsvReader × ByteRecord × Except UnequalLengths Bool) :=
  match r.heldHeaders with
  | some headers =>
    let record := r.trimFields headers
    some ({ r with first := true }, record, .ok !record.isEmpty)
  | none =>
    match r.readByteRecordImpl record with
    | none => none
    | some (r, record, .error e) => some (r, record, .error e)
    | some (r, record, .ok ok) =>
      let r := { r with first := true }
      if !r.seeked && r.headers.isNone then
        let r := r.setHeadersImpl record
        if r.hasHeaders then
          -- the first row is not returned
          (r.readByteRecordImpl record).map fun (r, record, res) => (r, r.trimFields record, res)
        else some (r, record, .ok ok)
      else some (r, r.trimFields record, .ok ok)

/-- `seek` -/
def seek (pos : Position) : Option (CsvReader × Except UnequalLengths Unit) :=
  match r.byteHeaders with
  | none => none
  | some (r, .error e) => some (r, .error e)
  | some (r, .ok _) =>
    let r := { r with seeked := true }
    if pos.byte = r.curPos.byte then some (r, .ok ())
    else
      some ({ r with blocks := r.source.blocks pos.byte
                     core := r.core.reset
                     curPos := pos
                     eof := false }, .ok ())

/-! ### The loop -/

end CsvReader

namespace ByteRecord

/-- The record for the next round, with more room in the buffer that was full. -/
def forNext (record : ByteRecord) : ReadRecordResult → ByteRecord
  | .outputFull => record.expandFields
  | .outputEndsFull => record.expandEnds
  | _ => record

theorem forNext_grows (record : ByteRecord) (res : ReadRecordResult) :
    record.fieldsLen ≤ (record.forNext res).fieldsLen ∧
      record.endsLen ≤ (record.forNext res).endsLen ∧
      (record.forNext res).pos = record.pos ∧ (record.forNext res).fields = record.fields := by
  cases res with
  | outputFull =>
    refine ⟨?_, Nat.le_refl _, rfl, rfl⟩
    show record.fieldsLen ≤ max 4 (record.fieldsLen * 2)
    omega
  | outputEndsFull =>
    refine ⟨Nat.le_refl _, ?_, rfl, rfl⟩
    show record.endsLen ≤ max 4 (record.endsLen * 2)
    omega
  | inputEmpty | record | «end» => exact ⟨Nat.le_refl _, Nat.le_refl _, rfl, rfl⟩

/-- The buffers that are full when so much is written. -/
def fullBuffers (record : ByteRecord) (outLen endsLen : Nat) : Nat :=
  (if record.fieldsLen ≤ outLen then 1 else 0) + if record.endsLen ≤ endsLen then 1 else 0

theorem fullBuffers_le (record : ByteRecord) (outLen endsLen : Nat) :
    record.fullBuffers outLen endsLen ≤ 2 := by
  unfold fullBuffers
  split_ifs <;> omega

/-- Making room in a full buffer leaves one full buffer less. -/
theorem fullBuffers_expandFields {record : ByteRecord} {outLen : Nat}
    (h : record.fieldsLen = outLen) (endsLen : Nat) :
    record.expandFields.fullBuffers outLen endsLen + 1 = record.fullBuffers outLen endsLen := by
  have hroom : ¬max 4 (record.fieldsLen * 2) ≤ outLen := by omega
  unfold fullBuffers
  rw [if_pos (Nat.le_of_eq h), show record.expandFields.fieldsLen = max 4 (record.fieldsLen * 2)
    from rfl, if_neg hroom]
  show 0 + (if record.endsLen ≤ endsLen then 1 else 0) + 1 = _
  omega

theorem fullBuffers_expandEnds {record : ByteRecord} {endsLen : Nat}
    (h : record.endsLen = endsLen) (outLen : Nat) :
    record.expandEnds.fullBuffers outLen endsLen + 1 = record.fullBuffers outLen endsLen := by
  have hroom : ¬max 4 (record.endsLen * 2) ≤ endsLen := by omega
  unfold fullBuffers
  rw [if_pos (Nat.le_of_eq h), show record.expandEnds.endsLen = max 4 (record.endsLen * 2)
    from rfl, if_neg hroom]
  rfl

end ByteRecord

namespace CsvReader

variable {r r' : CsvReader}

/-- `r'` is `r` behind `n` more bytes, right behind a record. -/
structure Reads (r r' : CsvReader) (n : Nat) : Prop where
  frame : r' = { r with core := r'.core, blocks := r'.blocks
                        curPos := ⟨r.curPos.byte + n, r.curPos.record⟩ }
  cfg : r'.core.cfg = r.core.cfg
  state : ∃ s, r'.core.At s ∧ pendingOf s = false
  hasRead : r'.core.hasRead = true
  outputPos : r'.core.outputPos = 0
  blocks_ne_nil : ∀ b ∈ r'.blocks, b ≠ []
  flatten : r'.blocks.flatten = r.blocks.flatten.drop n

/-- `r'` is `r` behind `n` more bytes, where the core has reported the end. -/
structure Ends (r r' : CsvReader) (n : Nat) : Prop where
  frame : r' = { r with core := r'.core, blocks := r'.blocks
                        curPos := ⟨r.curPos.byte + n, r.curPos.record⟩, eof := true }
  cfg : r'.core.cfg = r.core.cfg
  table : r'.core.useNfa = false
  outputPos : r'.core.outputPos = 0

variable {core : Reader}

/-- The reader behind a call of its core. -/
theorem callCore_eq {outLen endsLen : Nat} {x : RecordRead}
    (h : r.core.readRecord (r.blocks.headD []) outLen endsLen = (core, x)) :
    r.callCore outLen endsLen =
      ({ r with core := core
                blocks := Csv.unread r.blocks x.nin
                curPos := { r.curPos with byte := r.curPos.byte + x.nin } }, x) := by
  rw [callCore, h]

variable {record : ByteRecord} {out : List UInt8} {ends : List Nat}

variable {fuel : Nat}

/-- A round that ends nothing. -/
theorem readLoop_next {r₁ : CsvReader} {x : RecordRead}
    (h : r.callCore (record.fieldsLen - out.length) (record.endsLen - ends.length) = (r₁, x))
    (hrec : x.res ≠ .record) (hend : x.res ≠ .end) :
    readLoop (fuel + 1) r record out ends =
      readLoop fuel r₁ (record.forNext x.res) (out ++ x.out) (ends ++ x.ends) := by
  rw [readLoop, h]
  dsimp only
  cases hres : x.res with
  | record => exact absurd hres hrec
  | «end» => exact absurd hres hend
  | inputEmpty => rfl
  | outputFull => rfl
  | outputEndsFull => rfl

variable {blocks : List (List UInt8)}

/-- Bytes read in one round and bytes read in the later ones. -/
theorem Reads.of_next {m n : Nat} (hcfg : core.cfg = r.core.cfg)
    (hflat : blocks.flatten = r.blocks.flatten.drop m)
    (h : Reads { r with core := core
                        blocks := blocks
                        curPos := { r.curPos with byte := r.curPos.byte + m } } r' n) :
    Reads r r' (m + n) where
  frame := by
    rw [← Nat.add_assoc]
    exact h.frame
  cfg := h.cfg.trans hcfg
  state := h.state
  hasRead := h.hasRead
  outputPos := h.outputPos
  blocks_ne_nil := h.blocks_ne_nil
  flatten := by
    rw [h.flatten, ← List.drop_drop]
    exact congrArg _ hflat

theorem Ends.of_next {m n : Nat} (hcfg : core.cfg = r.core.cfg)
    (h : Ends { r with core := core
                       blocks := blocks
                       curPos := { r.curPos with byte := r.curPos.byte + m } } r' n) :
    Ends r r' (m + n) where
  frame := by
    rw [← Nat.add_assoc]
    exact h.frame
  cfg := h.cfg.trans hcfg
  table := h.table
  outputPos := h.outputPos

/-- What the loop returns when the machine finds the given rows. -/
def LoopResult (r : CsvReader) (s : NfaState) (record : ByteRecord)
    (rows : List (List (List UInt8))) (res : Option (CsvReader × ByteRecord × Bool)) : Prop :=
  let data := r.blocks.flatten
  let n := r.core.cfg.dfaTokenizer.firstLen s data
  (rows = [] ∧ ∃ r' record', res = some (r', record', false) ∧ Ends r r' data.length ∧
    record'.pos = record.pos ∧ record'.fields = record.fields) ∨
    ∃ row r' record', rows = row :: r.core.cfg.rows (data.drop n) ∧
      res = some (r', record', true) ∧ Reads r r' n ∧ record'.pos = record.pos ∧
        record'.fields = row

variable {s : NfaState} {rows : List (List (List UInt8))}
  {result : Option (CsvReader × ByteRecord × Bool)}

/-- A round without effect on the reader only makes room. -/
theorem LoopResult.of_room (res : ReadRecordResult)
    (h : LoopResult r s (record.forNext res) rows result) : LoopResult r s record rows result := by
  obtain ⟨-, -, hpos, hfields⟩ := record.forNext_grows res
  rcases h with ⟨hrows, r', record', hres, hends, hp, hf⟩ | ⟨row, r', record', hrows, hres,
    hreads, hp, hf⟩
  · exact Or.inl ⟨hrows, r', record', hres, hends, hp.trans hpos, hf.trans hfields⟩
  · exact Or.inr ⟨row, r', record', hrows, hres, hreads, hp.trans hpos, hf⟩

/-- The first record ends in this round. -/
theorem loopResult_of_record {s' : NfaState} {row : List (List UInt8)} {n : Nat}
    (hlen : r.core.cfg.dfaTokenizer.firstLen s r.blocks.flatten = n)
    (hrows : rows = row :: r.core.cfg.dfaTokenizer.records s' [] [] (r.blocks.flatten.drop n))
    (hat : core.At s') (hcfg : core.cfg = r.core.cfg) (hp : pendingOf s' = false)
    (hread : core.hasRead = true) (hpos : core.outputPos = 0) (hne : ∀ b ∈ blocks, b ≠ [])
    (hflat : blocks.flatten = r.blocks.flatten.drop n) :
    LoopResult r s record rows
      (some ({ r with core := core, blocks := blocks
                      curPos := { r.curPos with byte := r.curPos.byte + n } },
        { record with fields := row }, true)) := by
  refine Or.inr ⟨row, _, _, ?_, rfl, ⟨?_, hcfg, ⟨s', hat, hp⟩, hread, hpos, hne, ?_⟩, rfl, rfl⟩
  · have hlive : r.core.cfg.Live s' := hcfg ▸ hat.live
    rw [hrows, hlen, r.core.cfg.rows_of_start hlive hp]
  · rw [hlen]
  · rw [hlen]
    exact hflat

/-- Later rounds after one that reads `m` bytes. -/
theorem LoopResult.of_next {s' : NfaState} (res : ReadRecordResult) (hcfg : core.cfg = r.core.cfg)
    {m : Nat} (hm : m ≤ r.blocks.flatten.length) (hflat : blocks.flatten = r.blocks.flatten.drop m)
    (hlen : r.core.cfg.dfaTokenizer.firstLen s r.blocks.flatten =
      m + r.core.cfg.dfaTokenizer.firstLen s' (r.blocks.flatten.drop m))
    (h : LoopResult { r with core := core, blocks := blocks
                             curPos := { r.curPos with byte := r.curPos.byte + m } } s'
      (record.forNext res) rows result) :
    LoopResult r s record rows result := by
  rcases h.of_room with ⟨hrows, r', record', hres, hends, hp, hf⟩ |
    ⟨row, r', record', hrows, hres, hreads, hp, hf⟩
  · refine Or.inl ⟨hrows, r', record', hres, ?_, hp, hf⟩
    have hends := hends.of_next hcfg
    rwa [hflat, List.length_drop, Nat.add_sub_cancel' hm] at hends
  · have hreads := hreads.of_next hcfg hflat
    rw [hcfg, hflat, ← hlen] at hreads
    rw [hcfg, hflat, List.drop_drop, ← hlen] at hrows
    exact Or.inr ⟨row, r', record', hrows, hres, hreads, hp, hf⟩

theorem unread_zero (hne : ∀ b ∈ blocks, b ≠ []) :
    Csv.unread blocks 0 = blocks := by
  cases blocks with
  | nil => rfl
  | cons b bs =>
    have hb : b ≠ [] := hne b (List.mem_cons_self ..)
    rw [Csv.unread, if_neg]
    · rfl
    · rw [Nat.le_zero, List.length_eq_zero_iff]
      exact hb

/-- A call of the core that asks for room. -/
theorem readLoop_room (hne : ∀ b ∈ r.blocks, b ≠ []) {res : ReadRecordResult}
    (h : r.core.readRecord (r.blocks.headD []) (record.fieldsLen - out.length)
      (record.endsLen - ends.length) = (r.core, ⟨res, 0, 0, [], []⟩)) (hrec : res ≠ .record)
    (hend : res ≠ .end) :
    readLoop (fuel + 1) r record out ends = readLoop fuel r (record.forNext res) out ends := by
  have hnext : readLoop (fuel + 1) r record out ends = _ :=
    readLoop_next (callCore_eq h) hrec hend
  rw [unread_zero hne, List.append_nil, List.append_nil] at hnext
  exact hnext

/-- A call of the core between records, without input. -/
theorem readLoop_end (hat : r.core.At s) (hread : r.core.hasRead = true) (hp : pendingOf s = false)
    (hhead : r.blocks.headD [] = []) :
    readLoop (fuel + 1) r record out ends =
      some ({ r with core := { r.core with dfaState := startRecord.number * r.core.cfg.width }
                     blocks := Csv.unread r.blocks 0
                     curPos := { r.curPos with byte := r.curPos.byte + 0 }
                     eof := true }, record, false) := by
  have hcall := Reader.readRecord_end hat hread (record.fieldsLen - out.length)
    (record.endsLen - ends.length)
  rw [if_neg (by simp [hp])] at hcall
  have hcore := callCore_eq ((congrArg (r.core.readRecord · (record.fieldsLen - out.length)
    (record.endsLen - ends.length)) hhead).trans hcall)
  rw [readLoop, hcore]

/-- A state in which the end of the input ends no record is one between records. -/
theorem between_of_pending {cfg : Config} (hs : cfg.Live s) (hp : pendingOf s = false) :
    Config.between s = true := by
  have hend := hs.2.2.1
  revert hp hend
  cases s <;> decide

theorem pending_of_mark (hmark : markOf s = .record) : pendingOf s = false := by
  revert hmark
  cases s <;> decide

/-- **The loop.** It returns the first record of the machine, or the end when there is none,
    whatever the blocks and the buffers are. -/
theorem readLoop_spec
    (hfuel : 3 * r.blocks.flatten.length + record.fullBuffers out.length ends.length + 2 ≤ fuel)
    (hne : ∀ b ∈ r.blocks, b ≠ []) (hat : r.core.At s) (hread : r.core.hasRead = true)
    (hpos : out.length = r.core.outputPos) (hfresh : Config.Fresh s out ends)
    (hout : out.length ≤ record.fieldsLen) (hends : ends.length ≤ record.endsLen) :
    LoopResult r s record (r.core.cfg.dfaTokenizer.records s out ends r.blocks.flatten)
      (readLoop fuel r record out ends) := by
  induction fuel generalizing r s record out ends with
  | zero => omega
  | succ fuel ih =>
    -- a round that only makes room in a full buffer
    have hroom : ∀ res, (record.forNext res).fullBuffers out.length ends.length + 1 =
        record.fullBuffers out.length ends.length →
        LoopResult r s record (r.core.cfg.dfaTokenizer.records s out ends r.blocks.flatten)
          (readLoop fuel r (record.forNext res) out ends) := by
      intro res hfull
      obtain ⟨hgrowFields, hgrowEnds, -, -⟩ := record.forNext_grows res
      exact (ih (by omega) hne hat hread hpos hfresh (by omega) (by omega)).of_room
    cases hblocks : r.blocks with
    | nil =>
      have hhead : r.blocks.headD [] = [] := by
        simp [hblocks]
      have hcall := (congrArg (r.core.readRecord · (record.fieldsLen - out.length)
        (record.endsLen - ends.length)) hhead).trans (Reader.readRecord_end hat hread _ _)
      by_cases hp : pendingOf s = true
      · rw [if_pos hp] at hcall
        by_cases hfull : record.endsLen - ends.length = 0
        · rw [if_pos hfull] at hcall
          rw [readLoop_room hne hcall (by decide) (by decide), ← hblocks]
          exact hroom .outputEndsFull (ByteRecord.fullBuffers_expandEnds (by omega) _)
        · rw [if_neg hfull] at hcall
          rw [readLoop, callCore_eq hcall]
          have hlen : r.core.cfg.dfaTokenizer.firstLen s r.blocks.flatten = 0 := by
            rw [hblocks]
            rfl
          have hrows : r.core.cfg.dfaTokenizer.records s out ends ([] : List (List UInt8)).flatten =
              slices (out ++ []) (ends ++ [r.core.outputPos]) ::
                r.core.cfg.dfaTokenizer.records endRecord [] [] (r.blocks.flatten.drop 0) := by
            rw [hblocks, List.flatten_nil, Tokenizer.records, Config.dfaTokenizer_pending,
              if_pos hp,
              List.append_nil, hpos]
            rfl
          have hat' : Reader.At { r.core with dfaState := endRecord.number * r.core.cfg.width,
                                              outputPos := 0 } endRecord :=
            hat.move (r.core.cfg.live_of_ne (by decide)) rfl _ _
          exact loopResult_of_record hlen hrows hat' rfl rfl hread rfl (unread_nonempty hne 0)
            (by rw [unread_zero hne]; rfl)
      · have hp : pendingOf s = false := by simpa using hp
        obtain ⟨hout', -⟩ := hfresh (between_of_pending hat.live hp)
        have hrows : r.core.cfg.dfaTokenizer.records s out ends ([] : List (List UInt8)).flatten =
            [] := by
          simp [Tokenizer.records, hp]
        have hdata : r.blocks.flatten.length = 0 := by
          simp [hblocks]
        rw [readLoop_end hat hread hp hhead]
        refine Or.inl ⟨hrows, _, _, rfl, ⟨?_, rfl, hat.table, ?_⟩, rfl, rfl⟩
        · rw [hdata]
        · rw [← hpos, hout']
          rfl
    | cons b bs =>
      have hb : b ≠ [] := hne b (by rw [hblocks]; exact List.mem_cons_self ..)
      have hhead : r.blocks.headD [] = b := by
        simp [hblocks]
      by_cases hfull : record.fieldsLen - out.length = 0 ∨ record.endsLen - ends.length = 0
      · have hcall := Reader.readRecord_full hat hread hb hfull
        rw [← hhead] at hcall
        by_cases hfields : record.fieldsLen - out.length = 0
        · rw [if_pos hfields] at hcall
          rw [readLoop_room hne hcall (by decide) (by decide), ← hblocks]
          exact hroom .outputFull (ByteRecord.fullBuffers_expandFields (by omega) _)
        · rw [if_neg hfields] at hcall
          rw [readLoop_room hne hcall (by decide) (by decide), ← hblocks]
          exact hroom .outputEndsFull (ByteRecord.fullBuffers_expandEnds (by omega) _)
      · obtain ⟨s', hcall⟩ := Reader.readRecord_call hat hread hb
          (show 0 < record.fieldsLen - out.length by omega)
          (show 0 < record.endsLen - ends.length by omega)
        obtain ⟨hlen, hkeep⟩ := Reader.readRecord_trace hat hread hb
          (show 0 < record.fieldsLen - out.length by omega)
          (show 0 < record.endsLen - ends.length by omega) hcall.state
        obtain ⟨-, hwritten, hended⟩ := Reader.counts_le hat.table b
          (record.fieldsLen - out.length) (record.endsLen - ends.length)
        have heq : r.core.readRecord (r.blocks.headD []) (record.fieldsLen - out.length)
            (record.endsLen - ends.length) = r.core.readRecord b (record.fieldsLen - out.length)
            (record.endsLen - ends.length) := by
          rw [hhead]
        generalize r.core.readRecord b (record.fieldsLen - out.length)
          (record.endsLen - ends.length) = call at hcall hlen hkeep hwritten hended heq
        obtain ⟨core, x⟩ := call
        dsimp only at hcall hlen hkeep hwritten hended
        have hflat : (Csv.unread r.blocks x.nin).flatten = r.blocks.flatten.drop x.nin := by
          rw [hblocks, flatten_unread, List.flatten_cons,
            List.drop_append_of_le_length hcall.nin_le]
        have hm : x.nin ≤ r.blocks.flatten.length := by
          have hle := hcall.nin_le
          rw [hblocks, List.flatten_cons, List.length_append]
          omega
        have hrows := hcall.records out ends bs.flatten hpos
        have hlen := hlen bs.flatten
        rw [← List.drop_append_of_le_length hcall.nin_le, ← List.flatten_cons,
          ← hblocks] at hrows hlen
        rw [← hblocks]
        by_cases hrec : markOf s' = .record
        · rw [if_pos hrec] at hrows hlen
          rw [readLoop, callCore_eq heq]
          dsimp only
          rw [hcall.isRecord.mpr hrec]
          exact loopResult_of_record hlen hrows hcall.state hcall.cfg
            (pending_of_mark hrec) hcall.hasRead
            (by simp [hcall.outputPos, hrec]) (unread_nonempty hne _) hflat
        · rw [if_neg hrec] at hrows hlen
          obtain ⟨hgrowFields, hgrowEnds, -, -⟩ := record.forNext_grows x.res
          have hfull := (record.forNext x.res).fullBuffers_le (out ++ x.out).length
            (ends ++ x.ends).length
          have hpos' : (out ++ x.out).length = core.outputPos := by
            simp [hcall.outputPos, hrec, hpos]
          have hprogress := hcall.pos
          rw [readLoop_next (callCore_eq heq) (fun h => hrec (hcall.isRecord.mp h)) hcall.notEnd,
            hrows]
          apply LoopResult.of_next x.res hcall.cfg hm hflat hlen
          have hrest := @ih { r with core := core, blocks := Csv.unread r.blocks x.nin
                                     curPos := { r.curPos with byte := r.curPos.byte + x.nin } }
            (record.forNext x.res) (out ++ x.out) (ends ++ x.ends) s'
          rw [hflat, hcall.cfg] at hrest
          apply hrest
          · rw [List.length_drop]
            omega
          · exact unread_nonempty hne _
          · exact hcall.state
          · exact hcall.hasRead
          · exact hpos'
          · exact hkeep hrec out ends hpos hfresh
          · rw [List.length_append]
            omega
          · rw [List.length_append]
            omega

/-! ### Calls between records -/

/-- Nothing but the place in the source and the count of fields differs. -/
structure Same (r r' : CsvReader) : Prop where
  cfg : r'.core.cfg = r.core.cfg
  source : r'.source = r.source
  headers : r'.headers = r.headers
  hasHeaders : r'.hasHeaders = r.hasHeaders
  flexible : r'.flexible = r.flexible
  trim : r'.trim = r.trim
  first : r'.first = r.first
  seeked : r'.seeked = r.seeked

/-- The reader stands between two records. -/
structure Ready (r : CsvReader) : Prop where
  state : ∃ s, r.core.At s ∧ pendingOf s = false
  hasRead : r.core.hasRead = true
  outputPos : r.core.outputPos = 0
  blocks_ne_nil : ∀ b ∈ r.blocks, b ≠ []
  flatten : r.blocks.flatten = r.source.data.drop r.curPos.byte
  eof : r.eof = false

/-- The core has reported the end. -/
structure AtEof (r : CsvReader) : Prop where
  table : r.core.useNfa = false
  outputPos : r.core.outputPos = 0
  eof : r.eof = true

/-- No row of the given ones has another length than those before it, if that matters. -/
def Even (r : CsvReader) (rows : List (List (List UInt8))) : Prop :=
  r.flexible = true ∨
    ∃ len, (r.firstFieldCount = none ∨ r.firstFieldCount = some len) ∧
      ∀ row ∈ rows, row.length = len

theorem Even.addRecord {row : List (List UInt8)} (h : Even r (row :: rows))
    (hrow : record.fields = row) :
    ∃ count, r.addRecord record =
        ({ r with curPos := ⟨r.curPos.byte, r.curPos.record + 1⟩, firstFieldCount := count },
          .ok ()) ∧
      Even { r with curPos := ⟨r.curPos.byte, r.curPos.record + 1⟩, firstFieldCount := count }
        rows := by
  unfold CsvReader.addRecord
  by_cases hflex : r.flexible = true
  · rw [if_pos hflex]
    exact ⟨r.firstFieldCount, rfl, Or.inl hflex⟩
  · obtain ⟨len, hcount, hlen⟩ := h.resolve_left hflex
    have hrowLen : row.length = len := hlen row (List.mem_cons_self ..)
    have hrest : ∀ row ∈ rows, row.length = len := fun row hr => hlen row (List.mem_cons_of_mem _ hr)
    rw [if_neg hflex]
    rcases hcount with hnone | hsome
    · rw [hnone, hrow, hrowLen]
      exact ⟨some len, rfl, Or.inr ⟨len, Or.inr rfl, hrest⟩⟩
    · rw [hsome]
      dsimp only
      rw [if_neg (by simp [hrow, hrowLen])]
      exact ⟨some len, by simp, Or.inr ⟨len, Or.inr rfl, hrest⟩⟩

/-- The result of `read_byte_record_impl` at an offset of the source: the first row from there on,
    if there is one. Between records it is only at the end of the data that there is none. -/
def ImplResult (r : CsvReader) (start : Nat) (rows : List (List (List UInt8)))
    (res : Option (CsvReader × ByteRecord × Except UnequalLengths Bool)) : Prop :=
  (rows = [] ∧ ∃ r' record', res = some (r', record', .ok false) ∧ record'.fields = [] ∧
      record'.pos = some r.curPos ∧ Same r r' ∧ AtEof r' ∧
      (Ready r → r.source.data.length ≤ r'.curPos.byte)) ∨
    ∃ row more r' record', rows = row :: more ∧ res = some (r', record', .ok true) ∧
      record'.fields = row ∧ record'.pos = some r.curPos ∧ Same r r' ∧ Ready r' ∧ Even r' more ∧
        r'.curPos.byte = start + r.core.cfg.rowLen (r.source.data.drop start) ∧
        r.core.cfg.rows (r.source.data.drop r'.curPos.byte) = more

/-- What a loop that begins between records means for the caller. -/
theorem implResult_of_ready {r₁ : CsvReader} (h : Ready r₁) (hsame : Same r r₁)
    (heof : r.eof = false) (heven : Even r₁ (r.core.cfg.rows (r.source.data.drop r₁.curPos.byte)))
    (hle : r₁.blocks.flatten.length ≤ r.blocks.flatten.length)
    (hrun : ∀ fuel record, readLoop fuel r record [] [] = readLoop fuel r₁ record [] [])
    (record : ByteRecord) :
    ImplResult r r₁.curPos.byte (r.core.cfg.rows (r.source.data.drop r₁.curPos.byte))
      (r.readByteRecordImpl record) := by
  obtain ⟨s, hat, hp⟩ := h.state
  have hlive : r.core.cfg.Live s := hsame.cfg ▸ hat.live
  unfold readByteRecordImpl
  rw [heof, if_neg (by decide)]
  generalize hstart : { record.clear with pos := some r.curPos } = record₀
  have hfields₀ : record₀.fields = [] := by
    rw [← hstart]
    rfl
  have hpos₀ : record₀.pos = some r.curPos := by
    rw [← hstart]
  have hfuel : 3 * r₁.blocks.flatten.length + record₀.fullBuffers 0 0 + 2 ≤ r.rounds := by
    have hfull := record₀.fullBuffers_le 0 0
    unfold rounds
    omega
  have hloop : LoopResult r₁ s record₀ _ (readLoop r.rounds r₁ record₀ [] []) :=
    readLoop_spec hfuel h.blocks_ne_nil hat h.hasRead h.outputPos.symm (fun _ => ⟨rfl, rfl⟩)
      (Nat.zero_le _) (Nat.zero_le _)
  have hdata : r₁.blocks.flatten = r.source.data.drop r₁.curPos.byte := by
    rw [h.flatten, hsame.source]
  have hn : r₁.core.cfg.dfaTokenizer.firstLen s r₁.blocks.flatten =
      r.core.cfg.rowLen (r.source.data.drop r₁.curPos.byte) := by
    rw [hsame.cfg, hdata, r.core.cfg.rowLen_of_start hlive hp]
  unfold LoopResult at hloop
  dsimp only at hloop
  rw [hn, hsame.cfg, r.core.cfg.rows_of_start hlive hp, hdata] at hloop
  rw [hrun]
  rcases hloop with ⟨hrows, r', record', hres, hends, hpos, hfields⟩ |
    ⟨row, r', record', hrows, hres, hreads, hpos, hfields⟩
  · refine Or.inl ⟨hrows, r', record', ?_, hfields.trans hfields₀, hpos.trans hpos₀, ?_,
      ⟨hends.table, hends.outputPos, ?_⟩, fun _ => ?_⟩
    · rw [hres]
    · rw [hends.frame]
      exact ⟨hends.cfg.trans hsame.cfg, hsame.source, hsame.headers, hsame.hasHeaders,
        hsame.flexible, hsame.trim, hsame.first, hsame.seeked⟩
    · rw [hends.frame]
    · rw [hends.frame, List.length_drop]
      show _ ≤ r₁.curPos.byte + (r.source.data.length - r₁.curPos.byte)
      omega
  · -- the record is counted, and the reader stands behind it
    have hcount : Even r' (row :: r.core.cfg.rows ((r.source.data.drop r₁.curPos.byte).drop
        (r.core.cfg.rowLen (r.source.data.drop r₁.curPos.byte)))) := by
      rw [hreads.frame, ← hrows]
      exact heven
    obtain ⟨count, hadd, heven'⟩ := hcount.addRecord hfields
    have hbyte : r'.curPos.byte = r₁.curPos.byte +
        r.core.cfg.rowLen (r.source.data.drop r₁.curPos.byte) := by
      rw [hreads.frame]
    have hsource : r'.source = r.source := by
      rw [hreads.frame]
      exact hsame.source
    rw [List.drop_drop, ← hbyte] at hrows heven'
    refine Or.inr ⟨row, _, _, record', hrows, ?_, hfields, hpos.trans hpos₀, ?_, ?_, heven', hbyte,
      rfl⟩
    · rw [hres]
      dsimp only
      rw [hadd]
      rfl
    · rw [hreads.frame]
      exact ⟨hreads.cfg.trans hsame.cfg, hsame.source, hsame.headers, hsame.hasHeaders,
        hsame.flexible, hsame.trim, hsame.first, hsame.seeked⟩
    · refine ⟨hreads.state, hreads.hasRead, hreads.outputPos, hreads.blocks_ne_nil, ?_, ?_⟩
      · rw [hreads.flatten, hdata, hsource, List.drop_drop, hbyte]
      · rw [hreads.frame]
        exact h.eof

theorem Same.refl (r : CsvReader) : Same r r := ⟨rfl, rfl, rfl, rfl, rfl, rfl, rfl, rfl⟩

/-- **Between records**, a call returns the next row. -/
theorem readByteRecordImpl_ready (h : Ready r)
    (heven : Even r (r.core.cfg.rows (r.source.data.drop r.curPos.byte))) (record : ByteRecord) :
    ImplResult r r.curPos.byte (r.core.cfg.rows (r.source.data.drop r.curPos.byte))
      (r.readByteRecordImpl record) :=
  implResult_of_ready h (Same.refl r) h.eof heven (Nat.le_refl _) (fun _ _ => rfl) record

/-- Behind the end, a call returns no row. -/
theorem readByteRecordImpl_eof (h : AtEof r) (start : Nat) (record : ByteRecord) :
    ImplResult r start [] (r.readByteRecordImpl record) := by
  unfold readByteRecordImpl
  rw [h.eof, if_pos rfl]
  refine Or.inl ⟨rfl, r, _, rfl, rfl, rfl, Same.refl r, h, fun hready => ?_⟩
  exact absurd (h.eof.symm.trans hready.eof) (by decide)

/-! ### The first call at an offset -/

/-- The reader stands at an offset, from which it has read nothing: it is new, or was sought. -/
structure AtOffset (r : CsvReader) : Prop where
  state : r.core.At startRecord
  hasRead : r.core.hasRead = false
  outputPos : r.core.outputPos = 0
  blocks : r.blocks = r.source.blocks r.curPos.byte
  eof : r.eof = false

end CsvReader

namespace Source

variable (src : Source)

/-- Where reading from an offset begins: behind a byte order mark at the front of the first
    block. -/
def start (n : Nat) : Nat := if Reader.utf8Bom <+: (src.blocks n).headD [] then n + 3 else n

/-- The rows that a reader gets from an offset on. When the first block is a byte order mark and
    nothing else, the core takes the rest of it for the end of the data. -/
def rowsFrom (cfg : Config) (n : Nat) : List (List (List UInt8)) :=
  if (src.blocks n).head? = some Reader.utf8Bom then [] else cfg.rows (src.data.drop (src.start n))

end Source

namespace CsvReader

variable {r r' : CsvReader}

/-- The reader with the byte order mark behind it. -/
def skipBom (r : CsvReader) : CsvReader :=
  let r := { r with core := { r.core with hasRead := true } }
  if Reader.utf8Bom <+: r.blocks.headD [] then
    { r with blocks := (r.blocks.headD []).drop 3 :: r.blocks.tail
             curPos := { r.curPos with byte := r.curPos.byte + 3 } }
  else r

/-- The first call is a later one behind the byte order mark. -/
theorem callCore_skipBom (hread : r.core.hasRead = false) (outLen endsLen : Nat) :
    let y := r.callCore outLen endsLen
    let z := r.skipBom.callCore outLen endsLen
    y.1 = z.1 ∧ y.2.res = z.2.res ∧ y.2.out = z.2.out ∧ y.2.ends = z.2.ends := by
  unfold callCore skipBom
  rw [Reader.readRecord_first, stripUtf8Bom_fresh hread]
  by_cases hbom : Reader.utf8Bom <+: r.blocks.headD []
  · rw [if_pos hbom, if_pos hbom]
    cases hblocks : r.blocks with
    | nil =>
      rw [hblocks] at hbom
      exact absurd hbom (by decide)
    | cons b bs =>
      rw [hblocks] at hbom
      obtain ⟨c, rfl⟩ := hbom
      have hdrop : (Reader.utf8Bom ++ c).drop 3 = c := rfl
      simp [hdrop, unread_bom, Nat.add_assoc, Nat.add_comm 3]
  · rw [if_neg hbom, if_neg hbom]
    exact ⟨rfl, rfl, rfl, rfl⟩

theorem readLoop_skipBom (hread : r.core.hasRead = false) (fuel : Nat) (record : ByteRecord)
    (out : List UInt8) (ends : List Nat) :
    readLoop fuel r record out ends = readLoop fuel r.skipBom record out ends := by
  cases fuel with
  | zero => rfl
  | succ fuel =>
    obtain ⟨hr, hres, hout, hends⟩ := callCore_skipBom hread (record.fieldsLen - out.length)
      (record.endsLen - ends.length)
    rw [readLoop, readLoop]
    generalize r.callCore (record.fieldsLen - out.length) (record.endsLen - ends.length) = y at *
    generalize r.skipBom.callCore (record.fieldsLen - out.length) (record.endsLen - ends.length) = z
      at *
    dsimp only at hr hres hout hends ⊢
    rw [hr, hres, hout, hends]

/-- **At an offset**, a call returns the first row from there on. -/
theorem readByteRecordImpl_atOffset (h : AtOffset r)
    (heven : Even r (r.source.rowsFrom r.core.cfg r.curPos.byte)) (record : ByteRecord) :
    ImplResult r (r.source.start r.curPos.byte) (r.source.rowsFrom r.core.cfg r.curPos.byte)
      (r.readByteRecordImpl record) := by
  have hrun := readLoop_skipBom h.hasRead
  have hat : ({ r.core with hasRead := true } : Reader).At startRecord := h.state.hasRead true
  have hne := r.source.blocks_ne_nil r.curPos.byte
  have hflat := r.source.flatten_blocks r.curPos.byte
  rw [← h.blocks] at hne hflat
  unfold Source.rowsFrom Source.start at heven ⊢
  rw [← h.blocks] at heven ⊢
  by_cases hbom : Reader.utf8Bom <+: r.blocks.headD []
  · obtain ⟨c, bs, hblocks⟩ : ∃ c bs, r.blocks = (Reader.utf8Bom ++ c) :: bs := by
      cases hblocks : r.blocks with
      | nil =>
        rw [hblocks] at hbom
        exact absurd hbom (by decide)
      | cons b bs =>
        rw [hblocks] at hbom
        obtain ⟨c, hc⟩ := hbom
        exact ⟨c, bs, by rw [hc, List.headD_cons]⟩
    have hskip : r.skipBom = { r with core := { r.core with hasRead := true }, blocks := c :: bs
                                      curPos := { r.curPos with byte := r.curPos.byte + 3 } } := by
      unfold skipBom
      rw [if_pos hbom, hblocks]
      rfl
    by_cases hc : c = []
    · -- the rest of the first block is empty, as at the end of the data
      subst hc
      have hhead : r.blocks.head? = some Reader.utf8Bom := by
        simp [hblocks]
      have hend : ∀ record, ∃ r', readLoop r.rounds r record [] [] = some (r', record, false) ∧
          Same r r' ∧ AtEof r' := by
        intro record
        rw [hrun, hskip]
        exact ⟨_, readLoop_end hat rfl rfl rfl, ⟨rfl, rfl, rfl, rfl, rfl, rfl, rfl, rfl⟩,
          ⟨h.state.table, h.outputPos, rfl⟩⟩
      rw [if_pos hhead, readByteRecordImpl, h.eof]
      obtain ⟨r', hloop, hsame, hatEof⟩ := hend { record.clear with pos := some r.curPos }
      rw [hloop]
      refine Or.inl ⟨rfl, r', _, rfl, rfl, rfl, hsame, hatEof, fun hready => ?_⟩
      exact absurd (h.hasRead.symm.trans hready.hasRead) (by decide)
    · rw [if_pos hbom] at heven ⊢
      rw [if_neg (by rw [hblocks]; simpa using hc)] at heven ⊢
      have hready : Ready { r with core := { r.core with hasRead := true }, blocks := c :: bs
                                   curPos := { r.curPos with byte := r.curPos.byte + 3 } } := by
        refine ⟨⟨startRecord, hat, rfl⟩, rfl, h.outputPos, ?_, ?_, h.eof⟩
        · intro b hb
          rcases List.mem_cons.mp hb with rfl | hb
          · exact hc
          · exact hne b (by rw [hblocks]; exact List.mem_cons_of_mem _ hb)
        · rw [← List.drop_drop, ← hflat, hblocks, List.flatten_cons, List.flatten_cons,
            List.append_assoc]
          rfl
      have hsame : Same r { r with core := { r.core with hasRead := true }, blocks := c :: bs
                                   curPos := { r.curPos with byte := r.curPos.byte + 3 } } :=
        ⟨rfl, rfl, rfl, rfl, rfl, rfl, rfl, rfl⟩
      refine implResult_of_ready hready hsame h.eof heven ?_ ?_ record
      · simp [hblocks]
      · intro fuel record
        rw [hrun, hskip]
  · have hhead : ¬r.blocks.head? = some Reader.utf8Bom := by
      intro hh
      apply hbom
      rw [List.headD_eq_head?_getD, hh]
      exact List.prefix_refl _
    have hskip : r.skipBom = { r with core := { r.core with hasRead := true } } := by
      unfold skipBom
      rw [if_neg hbom]
    rw [if_neg hbom, if_neg hhead] at heven ⊢
    have hready : Ready { r with core := { r.core with hasRead := true } } :=
      ⟨⟨startRecord, hat, rfl⟩, rfl, h.outputPos, hne, hflat, h.eof⟩
    have hsame : Same r { r with core := { r.core with hasRead := true } } :=
      ⟨rfl, rfl, rfl, rfl, rfl, rfl, rfl, rfl⟩
    refine implResult_of_ready hready hsame h.eof heven (Nat.le_refl _) ?_ record
    intro fuel record
    rw [hrun, hskip]

variable {record' : ByteRecord}

/-- Behind the first row a record is read and trimmed. -/
theorem readByteRecord_direct (hheld : r.heldHeaders = none)
    (hdirect : (!r.seeked && r.headers.isNone) = false) {record : ByteRecord} {ok : Bool}
    (hres : r.readByteRecordImpl record = some (r', record', .ok ok)) (hsame : Same r r') :
    r.readByteRecord record =
      some ({ r' with first := true }, { r' with first := true }.trimFields record', .ok ok) := by
  rw [← hsame.seeked, ← hsame.headers] at hdirect
  unfold readByteRecord
  simp [hheld, hres, hdirect]

/-- The first row is read for the caller and kept as the headers. -/
theorem readByteRecord_first (hheaders : r.headers = none) (hseeked : r.seeked = false)
    (hhas : r.hasHeaders = false) {record : ByteRecord} {ok : Bool}
    (hres : r.readByteRecordImpl record = some (r', record', .ok ok)) (hsame : Same r r') :
    r.readByteRecord record =
      some ({ r' with first := true }.setHeadersImpl record', record', .ok ok) := by
  have hheld : r.heldHeaders = none := by simp [heldHeaders, hheaders]
  have hfirst : (!r'.seeked && r'.headers.isNone) = true := by
    simp [hsame.seeked, hsame.headers, hseeked, hheaders]
  have hhas' : ¬({ r' with first := true }.setHeadersImpl record').hasHeaders = true := by
    rw [hsame.hasHeaders, hhas]
    exact Bool.false_ne_true
  simp [readByteRecord, hheld, hres, hfirst, hhas']

/-- The first row is read as the headers. -/
theorem byteHeaders_first (hheaders : r.headers = none) {ok : Bool}
    (hres : r.readByteRecordImpl ByteRecord.new = some (r', record', .ok ok)) :
    r.byteHeaders = some (r'.setHeadersImpl record', .ok ()) := by
  unfold byteHeaders
  rw [if_pos (by rw [hheaders]; rfl), hres]

/-- Later calls find the headers. -/
theorem byteHeaders_known (hheaders : r.headers.isSome = true) :
    r.byteHeaders = some (r, .ok ()) := by
  unfold byteHeaders
  rw [if_neg (by simpa [Option.isSome_iff_ne_none] using hheaders)]

end CsvReader

end TeaclaveCrates.Csv
