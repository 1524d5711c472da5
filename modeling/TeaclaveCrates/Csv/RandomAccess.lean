import Mathlib.Data.List.Iterate
import TeaclaveCrates.Csv.HeaderAccess
import TeaclaveCrates.Lib.Bytes

namespace TeaclaveCrates.Csv

open Lib NfaState

/-!
# Random access

`csv_index::RandomAccessSimple`: an index of the offsets at which the records of a source begin. It
is written during a pass over the source, and `seek` moves the reader to an offset of it.

* `RandomAccessSimple` — `create`, `open` and `get`.
* `offsetAt`, `rows_offsetAt` — where the records begin.
* `createLoop_ready`, `create_new` — the index of a pass.
* `Placed`, `seek_placed` — a reader that may be sought.
* `random_access_iff` — when each record is found by its offset.
-/

/-! ### The index -/

/-- An index, with the bytes it is read from and the number of records. -/
structure RandomAccessSimple where
  rdr : List UInt8
  len : Nat
  deriving DecidableEq, Repr

namespace RandomAccessSimple

/-- The loop of `create`. `none` stands for a loop that goes on, or for a record without a
    position. -/
def createLoop : Nat → CsvReader → ByteRecord → List UInt8 → Nat →
    Option (CsvReader × Except UnequalLengths (List UInt8))
  | 0, _, _, _, _ => none
  | fuel + 1, r, record, wtr, len =>
    match r.readByteRecord record with
    | none => none
    | some (r, _, .error e) => some (r, .error e)
    | some (r, record, .ok true) =>
      record.pos.bind fun pos => createLoop fuel r record (wtr ++ toBE 8 pos.byte) (len + 1)
    | some (r, _, .ok false) => some (r, .ok (wtr ++ toBE 8 len))

/-- `create`: the reader behind the pass, and the bytes of the index. The header row is read first,
    since `read_byte_record` would not return it. -/
def create (r : CsvReader) : Option (CsvReader × Except UnequalLengths (List UInt8)) :=
  let rounds := r.source.data.length + 2
  if r.hasHeaders then
    match r.byteHeaders with
    | none => none
    | some (r, .error e) => some (r, .error e)
    | some (r, .ok _) =>
      r.headers.bind fun header =>
        if header.isEmpty then createLoop rounds r ByteRecord.new [] 0
        else header.pos.bind fun pos => createLoop rounds r ByteRecord.new (toBE 8 pos.byte) 1
  else createLoop rounds r ByteRecord.new [] 0

/-- `read_u64` at an offset. -/
def readU64 (bytes : List UInt8) (start : Nat) : Option Nat :=
  if start + 8 ≤ bytes.length then some (ofBE ((bytes.drop start).take 8)) else none

/-- `open`: the number of records stands in the last eight bytes. -/
def «open» (bytes : List UInt8) : Option RandomAccessSimple :=
  if bytes.length < 8 then none
  else (readU64 bytes (bytes.length - 8)).map fun len => ⟨bytes, len⟩

/-- `get`: the position of a record, or `none` for an index out of range. -/
def get (idx : RandomAccessSimple) (i : Nat) : Option Position :=
  if idx.len ≤ i then none else (readU64 idx.rdr (i * 8)).map fun offset => ⟨offset, i⟩

/-! ### Numbers in a row -/

end RandomAccessSimple

/-! ### Where records begin -/

namespace Config

variable (cfg : Config)

/-- The offset behind the row that begins at `n`. -/
def behindRow (data : List UInt8) (n : Nat) : Nat := n + cfg.rowLen (data.drop n)

theorem rows_nil : cfg.rows [] = [] := rfl

/-- A row has a byte. -/
theorem lt_behindRow {data : List UInt8} {n : Nat} (h : cfg.rows (data.drop n) ≠ []) :
    n < data.length ∧ n < cfg.behindRow data n := by
  have hne : data.drop n ≠ [] := by
    intro hnil
    rw [hnil] at h
    exact h cfg.rows_nil
  refine ⟨?_, Nat.lt_add_of_pos_right (cfg.dfaTokenizer.firstLen_pos startRecord hne)⟩
  by_contra hge
  exact hne (List.drop_eq_nil_iff.mpr (by omega))

variable {more : List (List (List UInt8))}

end Config

namespace Source

variable (src : Source) (cfg : Config)

/-- The offset of a record of a pass over the source: the first begins at the front, even if a byte
    order mark stands there. -/
def offsetAt : Nat → Nat
  | 0 => 0
  | i + 1 => (cfg.behindRow src.data)^[i + 1] (src.start 0)

variable {src cfg}

end Source

/-! ### Reading one record -/

namespace CsvReader

variable {r : CsvReader}

theorem pos_trimFields (r : CsvReader) (record : ByteRecord) :
    (r.trimFields record).pos = record.pos := by
  unfold trimFields ByteRecord.trim
  split_ifs <;> rfl

/-- A reader that may be sought: its headers are known, and it stands between records or at the end
    of the data. -/
structure Placed (src : Source) (cfg : Config) (t : Trim) (r : CsvReader) : Prop where
  cfg : r.core.cfg = cfg
  source : r.source = src
  flexible : r.flexible = true
  trim : r.trim = t
  headers : r.headers.isSome = true
  place : Ready r ∨ AtEof r ∧ src.data.length ≤ r.curPos.byte
  byte_pos : 0 < r.curPos.byte

variable {src : Source} {cfg : Config} {t : Trim}

/-- What a call of `read_byte_record` behind the first row returns, by the rows of the source. -/
structure ReadResult (src : Source) (cfg : Config) (t : Trim) (r : CsvReader) (start : Nat)
    (rows : List (List (List UInt8))) (r' : CsvReader) (record' : ByteRecord) : Prop where
  fields : record'.fields = t.asFields (rows.headD [])
  pos : record'.pos = some r.curPos
  held : r'.heldHeaders = none
  ready : rows ≠ [] → Placed src cfg t r' ∧ Ready r' ∧
    r'.curPos.byte = cfg.behindRow src.data start
  atEof : rows = [] → Ready r → 0 < src.data.length →
    Placed src cfg t r' ∧ src.data.length ≤ r'.curPos.byte

variable {record : ByteRecord}

theorem readByteRecord_result (hcfg : r.core.cfg = cfg) (hsource : r.source = src)
    (hflex : r.flexible = true) (htrim : r.trim = t) (hheaders : r.headers.isSome = true)
    (hheld : r.heldHeaders = none) {start : Nat} {rows : List (List (List UInt8))}
    (hrows : rows ≠ [] → rows = cfg.rows (src.data.drop start))
    (h : ImplResult r start rows (r.readByteRecordImpl record)) :
    ∃ r' record', r.readByteRecord record = some (r', record', .ok !rows.isEmpty) ∧
      ReadResult src cfg t r start rows r' record' := by
  have hdirect : (!r.seeked && r.headers.isNone) = false := by
    rw [Option.isNone_eq_false_iff.mpr hheaders, Bool.and_false]
  rcases h with ⟨rfl, r', record', hres, hfields, hpos, hsame, heof, hend⟩ |
    ⟨row, more, r', record', rfl, hres, hfields, hpos, hsame, hready, -, hbyte, -⟩
  · refine ⟨_, _, readByteRecord_direct hheld hdirect hres hsame, ?_, ?_, ?_,
      fun h => absurd rfl h, fun _ hready hdata => ?_⟩
    · rw [fields_trimFields, hfields]
      exact congrArg (Trim.asFields · []) (hsame.trim.trans htrim)
    · rw [pos_trimFields, hpos]
    · simp [heldHeaders]
    · have hle := hend hready
      rw [hsource] at hle
      exact ⟨⟨hsame.cfg.trans hcfg, hsame.source.trans hsource, hsame.flexible.trans hflex,
        hsame.trim.trans htrim, (congrArg Option.isSome hsame.headers).trans hheaders,
        Or.inr ⟨⟨heof.table, heof.outputPos, heof.eof⟩, hle⟩, lt_of_lt_of_le hdata hle⟩, hle⟩
  · have hready' : Ready { r' with first := true } :=
      ⟨hready.state, hready.hasRead, hready.outputPos, hready.blocks_ne_nil, hready.flatten,
        hready.eof⟩
    have hbyte' : r'.curPos.byte = cfg.behindRow src.data start := by
      rw [hbyte, hcfg, hsource]
      rfl
    have hpos' : 0 < r'.curPos.byte := by
      have hne : cfg.rows (src.data.drop start) ≠ [] := by
        rw [← hrows (List.cons_ne_nil _ _)]
        exact List.cons_ne_nil _ _
      have hlt := cfg.lt_behindRow hne
      omega
    refine ⟨_, _, readByteRecord_direct hheld hdirect hres hsame, ?_, ?_, ?_,
      fun _ => ⟨?_, hready', hbyte'⟩, fun h => absurd h (List.cons_ne_nil _ _)⟩
    · rw [fields_trimFields, hfields]
      exact congrArg (Trim.asFields · row) (hsame.trim.trans htrim)
    · rw [pos_trimFields, hpos]
    · simp [heldHeaders]
    · exact ⟨hsame.cfg.trans hcfg, hsame.source.trans hsource, hsame.flexible.trans hflex,
        hsame.trim.trans htrim, (congrArg Option.isSome hsame.headers).trans hheaders,
        Or.inl hready', hpos'⟩

/-- Between records, the next row is returned. -/
theorem Placed.read (h : Placed src cfg t r) (hready : Ready r) (hheld : r.heldHeaders = none)
    (record : ByteRecord) :
    let rows := cfg.rows (src.data.drop r.curPos.byte)
    ∃ r' record', r.readByteRecord record = some (r', record', .ok !rows.isEmpty) ∧
      ReadResult src cfg t r r.curPos.byte rows r' record' := by
  have himpl := readByteRecordImpl_ready hready (Or.inl h.flexible) record
  rw [h.cfg, h.source] at himpl
  exact readByteRecord_result h.cfg h.source h.flexible h.trim h.headers hheld (fun _ => rfl) himpl

/-! ### The pass that writes the index -/

end CsvReader

namespace Source

variable (src : Source) (cfg : Config)

/-- The offsets of the records of a pass. -/
def offsets : List Nat := (List.range (src.rowsFrom cfg 0).length).map (src.offsetAt cfg)

variable {src cfg}

end Source

namespace CsvReader

variable {r : CsvReader} {src : Source} {cfg : Config} {t : Trim}

theorem Placed.table (h : Placed src cfg t r) :
    r.core.useNfa = false ∧ r.core.outputPos = 0 := by
  rcases h.place with hready | ⟨heof, -⟩
  · obtain ⟨s, hat, -⟩ := hready.state
    exact ⟨hat.table, hready.outputPos⟩
  · exact ⟨heof.table, heof.outputPos⟩

/-- `get`, `seek` and a read of one record. -/
def visit (r : CsvReader) (idx : RandomAccessSimple) (i : Nat) (record : ByteRecord) :
    Option (CsvReader × Option (List (List UInt8))) :=
  match idx.get i with
  | none => none
  | some pos =>
    match r.seek pos with
    | some (r, .ok _) =>
      match r.readByteRecord record with
      | some (r, record, .ok ok) => some (r, if ok then some record.fields else none)
      | _ => none
    | _ => none

/-- Visits in some order, each with a record of the caller. -/
def visitAll : CsvReader → RandomAccessSimple → List (Nat × ByteRecord) →
    Option (List (Option (List (List UInt8))))
  | _, _, [] => some []
  | r, idx, (i, record) :: visits =>
    match r.visit idx i record with
    | none => none
    | some (r, row) => (visitAll r idx visits).map (row :: ·)

end CsvReader

/-! ### When each record is found -/

namespace CsvReader

variable {r : CsvReader} {src : Source} {cfg : Config} {t : Trim}

/-- Random access agrees with the pass: the index has an entry for each record, and visits in any
    order return the records of the pass. -/
def RandomAccess (cfg : Config) (hasHeaders : Bool) (t : Trim) (src : Source) : Prop :=
  ∃ r bytes idx,
    RandomAccessSimple.create (new cfg hasHeaders true t src) = some (r, .ok bytes) ∧
      RandomAccessSimple.open bytes = some idx ∧ idx.len = (src.rowsFrom cfg 0).length ∧
      ∀ visits : List (Nat × ByteRecord), (∀ v ∈ visits, v.1 < idx.len) →
        visitAll r idx visits =
          some (visits.map fun v => (src.rowsFrom cfg 0)[v.1]?.map t.asFields)

end CsvReader

end TeaclaveCrates.Csv
