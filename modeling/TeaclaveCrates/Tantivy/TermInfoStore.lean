import TeaclaveCrates.Tantivy.BitPacker
import TeaclaveCrates.Tantivy.TermDictionary

namespace TeaclaveCrates.Tantivy.FstTermDict

open Lib
open FastFieldCodecs (computeNumBits)

/-!
# The term infos of the term dictionary

`termdict/fst_termdict/term_info_store.rs`: the term infos by their ordinals, in blocks of 256. The
first of a block is stored in full. Of the others only the starts of the two ranges are, relative
to the first, with the document frequency, in bits of a width that each block has for itself: a
range ends where the next one starts, and the ends of the last ranges come behind the last entry.

* `TermInfoBlockMeta` — the first entry of a block, the widths, and where the bits begin;
* `TermInfoStoreWriter`, `TermInfoStore` — the writer and the reader.

`usize` has 64 bits and wraps around; `none` is an error or a panic.
-/

def BLOCK_LEN : Nat := 256

/-! ### Term infos in full -/

/-- `posting_num_bytes` and `positions_num_bytes`. -/
def numBytes (range : FileRange) : Option Nat :=
  if range.len.toNat ≤ 2 ^ 32 - 1 then some range.len.toNat else none

def serializeTermInfo (termInfo : TermInfo) : Option Bytes := do
  let postingNumBytes ← numBytes termInfo.postingsRange
  let positionsNumBytes ← numBytes termInfo.positionsRange
  some (toLE 4 termInfo.docFreq.toNat ++ toLE 8 termInfo.postingsRange.start.toNat ++
    toLE 4 postingNumBytes ++ toLE 8 termInfo.positionsRange.start.toNat ++
    toLE 4 positionsNumBytes)

/-- A number of `width` bytes, and what is left of the reader. -/
def readNumber (width : Nat) (reader : Bytes) : Option (Nat × Bytes) :=
  if width ≤ reader.length then some (ofLE (reader.take width), reader.drop width) else none

def deserializeTermInfo (reader : Bytes) : Option (TermInfo × Bytes) := do
  let (docFreq, reader) ← readNumber 4 reader
  let (postingsStartOffset, reader) ← readNumber 8 reader
  let (postingsNumBytes, reader) ← readNumber 4 reader
  let (positionsStartOffset, reader) ← readNumber 8 reader
  let (positionsNumBytes, reader) ← readNumber 4 reader
  let postingsStartOffset := UInt64.ofNat postingsStartOffset
  let positionsStartOffset := UInt64.ofNat positionsStartOffset
  some (⟨UInt32.ofNat docFreq,
    ⟨postingsStartOffset, postingsStartOffset + UInt64.ofNat postingsNumBytes⟩,
    ⟨positionsStartOffset, positionsStartOffset + UInt64.ofNat positionsNumBytes⟩⟩, reader)

/-! ### Blocks -/

/-- `val_unshifted_unmasked`: eight bytes, or those that are left and zeros. -/
def readWord (data : Bytes) (addrByte : Nat) : Option Nat :=
  if addrByte + 8 ≤ data.length then
    some (ofLE ((data.drop addrByte).take 8))
  else if addrByte ≤ data.length then
    some (ofLE (overwrite (List.replicate 8 0) 0 (data.drop addrByte)))
  else
    none

def extractBits (data : Bytes) (addrBits numBits : Nat) : Option Nat :=
  if numBits ≤ 56 then do
    let valUnshiftedUnmasked ← readWord data (addrBits / 8)
    some ((valUnshiftedUnmasked >>> (addrBits % 8)) &&& (1 <<< numBits - 1))
  else
    none

structure TermInfoBlockMeta where
  offset : UInt64
  refTermInfo : TermInfo
  docFreqNbits : Nat
  postingsOffsetNbits : Nat
  positionsOffsetNbits : Nat
  deriving DecidableEq

namespace TermInfoBlockMeta

/-- `SIZE_IN_BYTES`. -/
def SIZE_IN_BYTES : Nat := 8 + (3 * 4 + 2 * 8) + 3

def serialize (blockMeta : TermInfoBlockMeta) : Option Bytes := do
  let refTermInfo ← serializeTermInfo blockMeta.refTermInfo
  some (toLE 8 blockMeta.offset.toNat ++ refTermInfo ++
    [UInt8.ofNat blockMeta.docFreqNbits, UInt8.ofNat blockMeta.postingsOffsetNbits,
      UInt8.ofNat blockMeta.positionsOffsetNbits])

def deserialize (reader : Bytes) : Option (TermInfoBlockMeta × Bytes) := do
  let (offset, reader) ← readNumber 8 reader
  let (refTermInfo, reader) ← deserializeTermInfo reader
  match reader with
  | docFreqNbits :: postingsOffsetNbits :: positionsOffsetNbits :: reader =>
    some (⟨UInt64.ofNat offset, refTermInfo, docFreqNbits.toNat, postingsOffsetNbits.toNat,
      positionsOffsetNbits.toNat⟩, reader)
  | _ => none

def numBits (blockMeta : TermInfoBlockMeta) : Nat :=
  blockMeta.docFreqNbits + blockMeta.postingsOffsetNbits + blockMeta.positionsOffsetNbits

/-- `inner_offset` is counted without the first entry, which is not packed. -/
def deserializeTermInfo (blockMeta : TermInfoBlockMeta) (data : Bytes) (innerOffset : Nat) :
    Option TermInfo :=
  if innerOffset < BLOCK_LEN - 1 then do
    let numBits := blockMeta.numBits
    let postingStartAddr := numBits * innerOffset
    -- the end of a range is the start of the next one
    let postingEndAddr := postingStartAddr + numBits
    let positionsStartAddr := postingStartAddr + blockMeta.postingsOffsetNbits
    let positionsEndAddr := positionsStartAddr + numBits
    let docFreqAddr := positionsStartAddr + blockMeta.positionsOffsetNbits
    let postingsStart ← extractBits data postingStartAddr blockMeta.postingsOffsetNbits
    let postingsEnd ← extractBits data postingEndAddr blockMeta.postingsOffsetNbits
    let positionsStart ← extractBits data positionsStartAddr blockMeta.positionsOffsetNbits
    let positionsEnd ← extractBits data positionsEndAddr blockMeta.positionsOffsetNbits
    let docFreq ← extractBits data docFreqAddr blockMeta.docFreqNbits
    let refPostings := blockMeta.refTermInfo.postingsRange.start
    let refPositions := blockMeta.refTermInfo.positionsRange.start
    some ⟨UInt32.ofNat docFreq,
      ⟨refPostings + UInt64.ofNat postingsStart, refPostings + UInt64.ofNat postingsEnd⟩,
      ⟨refPositions + UInt64.ofNat positionsStart, refPositions + UInt64.ofNat positionsEnd⟩⟩
  else
    none

end TermInfoBlockMeta

/-! ### The writer -/

structure TermInfoStoreWriter where
  bufferBlockMetas : Bytes
  bufferTermInfos : Bytes
  termInfos : List TermInfo
  numTerms : UInt64

/-- The numbers that `bitpack_serialize` writes, with their widths. -/
def bitpackSerialize (blockMeta : TermInfoBlockMeta) (termInfo : TermInfo) : List (Nat × Nat) :=
  [(termInfo.postingsRange.start.toNat, blockMeta.postingsOffsetNbits),
    (termInfo.positionsRange.start.toNat, blockMeta.positionsOffsetNbits),
    (termInfo.docFreq.toNat, blockMeta.docFreqNbits)]

/-! `flush_block`, for a block of `refTermInfo` and `termInfos`. -/

section FlushBlock

variable (refTermInfo : TermInfo) (termInfos : List TermInfo)

/-- `last_term_info`. -/
def lastTermInfo : TermInfo := (refTermInfo :: termInfos).getLast (List.cons_ne_nil _ _)

def postingsEndOffset : UInt64 :=
  (lastTermInfo refTermInfo termInfos).postingsRange.stop - refTermInfo.postingsRange.start

def positionsEndOffset : UInt64 :=
  (lastTermInfo refTermInfo termInfos).positionsRange.stop - refTermInfo.positionsRange.start

/-- `max_doc_freq`, which is not about the first entry. -/
def maxDocFreq : Nat :=
  termInfos.foldl (fun maxDocFreq termInfo => max maxDocFreq termInfo.docFreq.toNat) 0

/-- `term_info_block_meta`. -/
def blockMetaOf (offset : UInt64) : TermInfoBlockMeta where
  offset
  refTermInfo
  docFreqNbits := computeNumBits (maxDocFreq termInfos)
  postingsOffsetNbits := computeNumBits (postingsEndOffset refTermInfo termInfos).toNat
  positionsOffsetNbits := computeNumBits (positionsEndOffset refTermInfo termInfos).toNat

/-- The starts of the ranges from those of the first entry on. -/
def relativeTo (termInfo : TermInfo) : TermInfo :=
  { termInfo with
    postingsRange := { termInfo.postingsRange with
      start := termInfo.postingsRange.start - refTermInfo.postingsRange.start }
    positionsRange := { termInfo.positionsRange with
      start := termInfo.positionsRange.start - refTermInfo.positionsRange.start } }

/-- What the bit packer is given: the entries, and the ends of the last ranges. -/
def blockNumbers (blockMeta : TermInfoBlockMeta) : List (Nat × Nat) :=
  (termInfos.map (relativeTo refTermInfo)).flatMap (bitpackSerialize blockMeta) ++
    [((postingsEndOffset refTermInfo termInfos).toNat, blockMeta.postingsOffsetNbits),
      ((positionsEndOffset refTermInfo termInfos).toNat, blockMeta.positionsOffsetNbits)]

end FlushBlock

/-- The bytes of a bit packer that writes the numbers and is flushed. -/
def flushed (numbers : List (Nat × Nat)) : Bytes :=
  let packer := FastFieldCodecs.BitPacker.new.writeAll numbers
  packer.2 ++ packer.1.flush

namespace TermInfoStoreWriter

def new : TermInfoStoreWriter := ⟨[], [], [], 0⟩

def flushBlock (w : TermInfoStoreWriter) : Option TermInfoStoreWriter :=
  match w.termInfos with
  | [] => none
  | refTermInfo :: termInfos => do
    let blockMeta :=
      blockMetaOf refTermInfo termInfos (UInt64.ofNat w.bufferTermInfos.length)
    let metaBytes ← blockMeta.serialize
    some { w with
      bufferBlockMetas := w.bufferBlockMetas ++ metaBytes
      bufferTermInfos :=
        w.bufferTermInfos ++ flushed (blockNumbers refTermInfo termInfos blockMeta)
      termInfos := [] }

def writeTermInfo (w : TermInfoStoreWriter) (termInfo : TermInfo) : Option TermInfoStoreWriter :=
  let w := { w with
    numTerms := w.numTerms + 1
    termInfos := w.termInfos ++ [termInfo] }
  if BLOCK_LEN ≤ w.termInfos.length then w.flushBlock else some w

def serialize (w : TermInfoStoreWriter) : Option Bytes := do
  let w ← (if w.termInfos ≠ [] then w.flushBlock else some w)
  some (toLE 8 w.bufferBlockMetas.length ++ toLE 8 w.numTerms.toNat ++ w.bufferBlockMetas ++
    w.bufferTermInfos)

/-- The term infos, one after the other, and the bytes of the store. -/
def write (w : TermInfoStoreWriter) : List TermInfo → Option Bytes
  | [] => w.serialize
  | termInfo :: termInfos => do
    let w ← w.writeTermInfo termInfo
    w.write termInfos

end TermInfoStoreWriter

/-! ### The reader -/

structure TermInfoStore where
  numTerms : UInt64
  blockMetaBytes : Bytes
  termInfoBytes : Bytes

namespace TermInfoStore

def «open» (file : Bytes) : Option TermInfoStore := do
  let (len, file) ← readNumber 8 file
  let (numTerms, mainSlice) ← readNumber 8 file
  if len ≤ mainSlice.length then
    some ⟨UInt64.ofNat numTerms, mainSlice.take len, mainSlice.drop len⟩
  else
    none

def get (store : TermInfoStore) (termOrd : Nat) : Option TermInfo := do
  let blockId := termOrd / BLOCK_LEN
  let start := blockId * TermInfoBlockMeta.SIZE_IN_BYTES
  let blockData ← if start ≤ store.blockMetaBytes.length then
    some (store.blockMetaBytes.drop start) else none
  let (blockMeta, _) ← TermInfoBlockMeta.deserialize blockData
  let innerOffset := termOrd % BLOCK_LEN
  if innerOffset = 0 then
    some blockMeta.refTermInfo
  else if blockMeta.offset.toNat ≤ store.termInfoBytes.length then
    blockMeta.deserializeTermInfo (store.termInfoBytes.drop blockMeta.offset.toNat)
      (innerOffset - 1)
  else
    none

end TermInfoStore

end TeaclaveCrates.Tantivy.FstTermDict
