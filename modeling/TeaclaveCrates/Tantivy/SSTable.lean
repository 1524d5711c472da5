import TeaclaveCrates.Lib.Slice
import TeaclaveCrates.Lib.VInt

namespace TeaclaveCrates.Tantivy

open TeaclaveCrates.Lib

/-!
# tantivy — sorted string tables

`termdict/sstable_termdict/sstable`: keys in increasing order, prefix-compressed in
blocks, with a block of values in front of the keys of each block and an index of the
blocks behind the last one.

* `Io` — a computation that may fail with an I/O error; `none` is a panic;
* `DeltaWriter` / `Writer` — blocks are cut where the keys exceed `BLOCK_LEN` bytes;
* `SSTableIndex` — a separator and the address of each block;
* `BlockReader` / `DeltaReader` / `Reader` — the way back, key by key.

The values are any type with a `ValueCodec`.  No caller uses a reader after an error,
so an error drops it.
-/

/-! ### Errors and ranges -/

/-- The errors of reading. -/
inductive IoError
  | unexpectedEof
  | invalidData (text : String)
  | dataCorruption (text : String)
deriving DecidableEq, Repr

/-- `io::Result`, where `none` is a panic. -/
abbrev Io := ExceptT IoError Option

/-- A panic. -/
def Io.panic {α : Type} : Io α := ExceptT.mk none

/-- Where the code would panic on `none`. -/
def Io.expect {α : Type} (x : Option α) : Io α := ExceptT.mk (x.map .ok)

/-- `Range<usize>`, of indices in memory. -/
structure Range where
  start : Nat
  stop : Nat
deriving DecidableEq, Repr

/-! ### Blocks -/

def FOUR_BIT_LIMITS : Nat := 16

def VINT_MODE : UInt8 := 1

def BLOCK_LEN : Nat := 32000

/-- `common_prefix_len`. -/
def commonPrefixLen (left right : Bytes) : Nat :=
  ((left.zip right).takeWhile fun p => p.1 == p.2).length

/-- `BlockReader`: the block at hand, and the bytes behind it. -/
structure BlockReader where
  buffer : Bytes
  reader : Bytes
  offset : Nat
deriving DecidableEq, Repr

namespace BlockReader

/-- `BlockReader::new`. -/
def new (reader : Bytes) : BlockReader := ⟨[], reader, 0⟩

/-- `buffer()`: what is left of the block. -/
def rest (r : BlockReader) : Io Bytes :=
  if r.offset ≤ r.buffer.length then pure (r.buffer.drop r.offset) else Io.panic

/-- `advance`. -/
def advance (r : BlockReader) (numBytes : Nat) : BlockReader :=
  { r with offset := r.offset + numBytes }

/-- `read_block`. -/
def readBlock (r : BlockReader) : Io (Bool × BlockReader) :=
  if r.reader.length < 4 then
    pure (false, { r with offset := 0, reader := [] })
  else
    let blockLen := ofLE (r.reader.take 4)
    let reader := r.reader.drop 4
    if blockLen = 0 then
      pure (false, ⟨[], reader, 0⟩)
    else if reader.length < blockLen then
      throw .unexpectedEof
    else
      pure (true, ⟨reader.take blockLen, reader.drop blockLen, 0⟩)

/-- `deserialize_u64`, in the format of `sstable/vint.rs`. -/
def deserializeU64 (r : BlockReader) : Io (Nat × BlockReader) := do
  let buf ← r.rest
  let (val, left, _) := vintLoop false buf 0 0
  return (val, r.advance (buf.length - left.length))

/-- `VInt::deserialize_u64`, in the format of `common/src/vint.rs`. -/
def deserializeVInt (r : BlockReader) : Io (Nat × BlockReader) := do
  let buf ← r.rest
  match vintLoop true buf 0 0 with
  | (val, left, true) => return (val, r.advance (buf.length - left.length))
  | (_, _, false) => throw (.invalidData "Reach end of buffer while reading VInt")

end BlockReader

/-- `VInt::serialize_into_vec`. -/
def serializeVInt (val : Nat) : Bytes := vint true 10 val

/-- `ValueWriter` and `ValueReader`: how the values of a block are written and read. -/
class ValueCodec (V : Type) where
  writeBlock : List V → Bytes
  read : BlockReader → Io (List V × BlockReader)

variable {V : Type} [ValueCodec V]

/-! ### The index -/

/-- `BlockAddr`. -/
structure BlockAddr where
  byteRange : Range
  firstOrdinal : Nat
deriving DecidableEq, Repr

/-- `BlockMeta`. -/
structure BlockMeta where
  lastKeyOrGreater : Bytes
  blockAddr : BlockAddr
deriving DecidableEq, Repr

/-- `SSTableIndex`. -/
abbrev SSTableIndex := List BlockMeta

/-- `SSTableIndex::search`. -/
def SSTableIndex.search (index : SSTableIndex) (key : Bytes) : Option BlockAddr :=
  (index.find? fun block => key ≤ block.lastKeyOrGreater).map BlockMeta.blockAddr

/-- The loop of `find_shorter_str_in_between` over the positions behind the first
    difference: the first byte below 255 is increased, and ends the string. -/
def increaseFirst : Bytes → Option Bytes
  | [] => none
  | b :: bs => if b ≠ 255 then some [b + 1] else (increaseFirst bs).map (b :: ·)

/-- `find_shorter_str_in_between`. -/
def findShorterStrInBetween (left right : Bytes) : Option Bytes :=
  if left < right then
    let commonLen := commonPrefixLen left right
    if left.length = commonLen then
      some left
    else
      match increaseFirst (left.drop (commonLen + 1)) with
      | some tail => some (left.take (commonLen + 1) ++ tail)
      | none => some left
  else
    none

/-- `shorten_last_block_key_given_next_key`. -/
def shortenLastBlockKeyGivenNextKey (index : SSTableIndex) (nextKey : Bytes) :
    Option SSTableIndex :=
  match index.getLast? with
  | some lastBlock => do
    let shorter ← findShorterStrInBetween lastBlock.lastKeyOrGreater nextKey
    return index.dropLast ++ [{ lastBlock with lastKeyOrGreater := shorter }]
  | none => some index

/-- `add_block`. -/
def addBlock (index : SSTableIndex) (lastKey : Bytes) (byteRange : Range) (firstOrdinal : Nat) :
    SSTableIndex :=
  index ++ [⟨lastKey, ⟨byteRange, firstOrdinal⟩⟩]

/-! ### Writing -/

/-- `DeltaWriter`: the keys of the block, what has been written, and the values of the
    block. -/
structure DeltaWriter (V : Type) where
  block : Bytes
  write : Bytes
  values : List V

namespace DeltaWriter

/-- The bytes of `encode_keep_add`. -/
def encodeKeepAdd (keepLen addLen : Nat) : Bytes :=
  if keepLen < FOUR_BIT_LIMITS ∧ addLen < FOUR_BIT_LIMITS then
    [UInt8.ofNat (keepLen ||| addLen <<< 4)]
  else
    -- a buffer of 20 bytes, the first of which is the mode
    let keep := vint false 19 keepLen
    VINT_MODE :: (keep ++ vint false (19 - keep.length) addLen)

/-- `write_suffix`. -/
def writeSuffix (w : DeltaWriter V) (commonPrefixLen : Nat) (suffix : Bytes) : DeltaWriter V :=
  { w with block := w.block ++ (encodeKeepAdd commonPrefixLen suffix.length ++ suffix) }

/-- `write_value`. -/
def writeValue (w : DeltaWriter V) (value : V) : DeltaWriter V :=
  { w with values := w.values ++ [value] }

/-- `flush_block`. -/
def flushBlock (w : DeltaWriter V) : Option Range × DeltaWriter V :=
  if w.block.isEmpty then
    (none, w)
  else
    let startOffset := w.write.length
    let buffer := ValueCodec.writeBlock w.values
    let blockLen := buffer.length + w.block.length
    let write := w.write ++ (toLE 4 blockLen ++ buffer ++ w.block)
    (some ⟨startOffset, write.length⟩, ⟨[], write, []⟩)

/-- `flush_block_if_required`. -/
def flushBlockIfRequired (w : DeltaWriter V) : Option Range × DeltaWriter V :=
  if w.block.length > BLOCK_LEN then w.flushBlock else (none, w)

end DeltaWriter

/-- `Writer`. -/
structure Writer (V : Type) where
  previousKey : Bytes
  index : SSTableIndex
  deltaWriter : DeltaWriter V
  numTerms : Nat
  firstOrdinalOfTheBlock : Nat

namespace Writer

/-- `SSTable::writer`. -/
def new (V : Type) : Writer V := ⟨[], [], ⟨[], [], []⟩, 0, 0⟩

/-- The index as `write_key` leaves it: the first key of a block shortens the separator
    of the block before. -/
def nextIndex (w : Writer V) (key : Bytes) : Option SSTableIndex :=
  if w.firstOrdinalOfTheBlock = w.numTerms then shortenLastBlockKeyGivenNextKey w.index key
  else some w.index

/-- `increasing_keys` in `write_key`; an index out of bounds counts as `false`, since
    both panic. -/
def increasingKeys (previousKey key : Bytes) : Bool :=
  let keepLen := commonPrefixLen previousKey key
  let addLen := key.length - keepLen
  (0 < addLen && previousKey.length = keepLen) || previousKey.isEmpty ||
    match previousKey[keepLen]?, key[keepLen]? with
    | some p, some k => p < k
    | _, _ => false

/-- `write_key`; `none` where an assertion fails. -/
def writeKey (w : Writer V) (key : Bytes) : Option (Writer V) := do
  let index ← w.nextIndex key
  let keepLen := commonPrefixLen w.previousKey key
  guard (increasingKeys w.previousKey key)
  return { w with
    index := index
    previousKey := key
    deltaWriter := w.deltaWriter.writeSuffix keepLen (key.drop keepLen) }

/-- What both flushes do with a block that was written. -/
def closeBlock (w : Writer V) (clear : Bool) : Option Range × DeltaWriter V → Writer V
  | (some byteRange, deltaWriter) => { w with
      deltaWriter := deltaWriter
      index := addBlock w.index w.previousKey byteRange w.firstOrdinalOfTheBlock
      firstOrdinalOfTheBlock := w.numTerms
      previousKey := if clear then [] else w.previousKey }
  | (none, deltaWriter) => { w with deltaWriter := deltaWriter }

/-- `flush_block_if_required`. -/
def flushBlockIfRequired (w : Writer V) : Writer V :=
  w.closeBlock true w.deltaWriter.flushBlockIfRequired

/-- `write_value`. -/
def writeValue (w : Writer V) (value : V) : Writer V :=
  flushBlockIfRequired { w with
    deltaWriter := w.deltaWriter.writeValue value, numTerms := w.numTerms + 1 }

/-- `write`. -/
def write (w : Writer V) (key : Bytes) (value : V) : Option (Writer V) := do
  return (← w.writeKey key).writeValue value

/-- `write` for each of the entries. -/
def writeAll (w : Writer V) (entries : List (Bytes × V)) : Option (Writer V) :=
  entries.foldlM (fun w entry => w.write entry.1 entry.2) w

/-- `finalize`, up to the index: the last block is flushed, and the end is marked. -/
def finalize (w : Writer V) : Bytes × SSTableIndex × Nat :=
  let w := w.closeBlock false w.deltaWriter.flushBlock
  (w.deltaWriter.write ++ toLE 4 0, w.index, w.numTerms)

end Writer

/-! ### Reading -/

/-- `DeltaReader`. -/
structure DeltaReader (V : Type) where
  commonPrefixLen : Nat
  suffixStart : Nat
  suffixEnd : Nat
  values : List V
  blockReader : BlockReader
  idx : Nat

namespace DeltaReader

/-- `DeltaReader::new`. -/
def new (V : Type) (reader : Bytes) : DeltaReader V := ⟨0, 0, 0, [], .new reader, 0⟩

/-- `read_keep_add`. -/
def readKeepAdd (r : BlockReader) : Io (Option (Nat × Nat) × BlockReader) := do
  match ← r.rest with
  | [] => return (none, r)
  | b :: _ =>
    let r := r.advance 1
    if b = VINT_MODE then
      let (keep, r) ← r.deserializeU64
      let (add, r) ← r.deserializeU64
      return (some (keep, add), r)
    else
      return (some ((b &&& 0b1111).toNat, (b >>> 4).toNat), r)

/-- `read_delta_key`. -/
def readDeltaKey (d : DeltaReader V) : Io (Bool × DeltaReader V) := do
  match ← readKeepAdd d.blockReader with
  | (some (keep, add), r) =>
    return (true, { d with
      commonPrefixLen := keep
      suffixStart := r.offset
      suffixEnd := r.offset + add
      blockReader := r.advance add })
  | (none, r) => return (false, { d with blockReader := r })

/-- `advance`. -/
def advance (d : DeltaReader V) : Io (Bool × DeltaReader V) := do
  let buf ← d.blockReader.rest
  if buf.isEmpty then
    match ← d.blockReader.readBlock with
    | (false, r) => return (false, { d with blockReader := r })
    | (true, r) =>
      let (values, r) ← ValueCodec.read r
      readDeltaKey { d with values := values, blockReader := r, idx := 0 }
  else
    readDeltaKey { d with idx := d.idx + 1 }

/-- `suffix`. -/
def suffix (d : DeltaReader V) : Io Bytes :=
  Io.expect (slice? d.blockReader.buffer d.suffixStart d.suffixEnd)

/-- `value`. -/
def value (d : DeltaReader V) : Io V := Io.expect d.values[d.idx]?

end DeltaReader

/-- `Reader`. -/
structure Reader (V : Type) where
  key : Bytes
  deltaReader : DeltaReader V

namespace Reader

/-- `SSTable::reader`. -/
def new (V : Type) (reader : Bytes) : Reader V := ⟨[], .new V reader⟩

/-- `advance`. -/
def advance (r : Reader V) : Io (Bool × Reader V) := do
  match ← r.deltaReader.advance with
  | (false, d) => return (false, { r with deltaReader := d })
  | (true, d) =>
    let suffix ← d.suffix
    let newLen := d.commonPrefixLen + suffix.length
    -- `resize`, then the suffix is copied in
    let resized := r.key.take newLen ++ List.replicate (newLen - r.key.length) 0
    return (true, ⟨resized.take d.commonPrefixLen ++ suffix, d⟩)

/-- `advance().unwrap_or(false)`: an error counts as the end. -/
def advanceOrFalse (r : Reader V) : Io (Bool × Reader V) :=
  ExceptT.mk (match r.advance.run with
    | none => none
    | some (.error _) => some (.ok (false, r))
    | some (.ok next) => some (.ok next))

/-- `value`. -/
def value (r : Reader V) : Io V := r.deltaReader.value

end Reader

end TeaclaveCrates.Tantivy
