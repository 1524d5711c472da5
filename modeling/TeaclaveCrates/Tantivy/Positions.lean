import TeaclaveCrates.Tantivy.Compression
import TeaclaveCrates.Tantivy.VIntDecoding

namespace TeaclaveCrates.Tantivy

open Lib Common

/-!
# Positions

`positions`: the position deltas of a term, in blocks of 128 that are packed, each with a bit
width of its own, and a shorter tail of variable-length integers. What is written of a term is the
number of packed blocks, their bit widths, the blocks and the tail.

* `PositionSerializer` — the writer;
* `PositionReader` — the reader, with the block it has decoded and an anchor it skips from.

Lengths and offsets in memory are numbers; `none` is a panic.
-/

variable (packer : BitPacker)

/-! ### The writer -/

structure PositionSerializer where
  positionsWrt : Bytes
  positionsBuffer : Bytes
  block : List Nat
  bitWidths : Bytes
  length_block : block.length ≤ COMPRESSION_BLOCK_SIZE

namespace PositionSerializer

def new (positionsWrt : Bytes) : PositionSerializer := ⟨positionsWrt, [], [], [], Nat.zero_le _⟩

def remainingBlockLen (s : PositionSerializer) : Nat := COMPRESSION_BLOCK_SIZE - s.block.length

def flushBlock (s : PositionSerializer) : Option PositionSerializer :=
  if s.block = [] then
    some s
  else if s.block.length = COMPRESSION_BLOCK_SIZE then
    let (bitWidth, blockEncoded) := packer.compressBlockUnsorted s.block
    some ⟨s.positionsWrt, s.positionsBuffer ++ blockEncoded, [],
      s.bitWidths ++ [UInt8.ofNat bitWidth], Nat.zero_le _⟩
  else do
    let blockVintEncoded ← compressUnsorted s.block
    some ⟨s.positionsWrt, s.positionsBuffer ++ blockVintEncoded, [], s.bitWidths, Nat.zero_le _⟩

/-- The block with the first elements, as many as fit. -/
def extendBlock (s : PositionSerializer) (positionsDelta : List Nat) : PositionSerializer where
  positionsWrt := s.positionsWrt
  positionsBuffer := s.positionsBuffer
  block := s.block ++ positionsDelta.take s.remainingBlockLen
  bitWidths := s.bitWidths
  length_block := by
    have := s.length_block
    rw [List.length_append, List.length_take, remainingBlockLen]
    omega

@[simp] theorem block_extendBlock (s : PositionSerializer) (positionsDelta : List Nat) :
    (s.extendBlock positionsDelta).block =
      s.block ++ positionsDelta.take s.remainingBlockLen := rfl

theorem block_flushBlock {s s' : PositionSerializer} (h : s.flushBlock packer = some s') :
    s'.block = [] := by
  rw [flushBlock] at h
  split at h
  · rename_i hblock
    cases h
    exact hblock
  · split at h
    · cases h
      rfl
    · obtain ⟨_, -, h⟩ := Option.bind_eq_some_iff.mp h
      cases h
      rfl

def writePositionsDelta (s : PositionSerializer) (positionsDelta : List Nat) :
    Option PositionSerializer :=
  if _hdelta : positionsDelta = [] then
    some s
  else
    let rest := positionsDelta.drop s.remainingBlockLen
    if (s.extendBlock positionsDelta).remainingBlockLen = 0 then
      match _h : (s.extendBlock positionsDelta).flushBlock packer with
      | none => none
      | some s' => s'.writePositionsDelta rest
    else
      (s.extendBlock positionsDelta).writePositionsDelta rest
-- a block that is full at the start takes nothing, but is flushed
termination_by (positionsDelta.length, s.block.length)
decreasing_by
  · have hblock := block_flushBlock packer _h
    have hpos := List.length_pos_iff.mpr _hdelta
    rcases Nat.eq_zero_or_pos s.remainingBlockLen with hfull | hroom
    · rw [Prod.lex_def]
      right
      have := s.length_block
      have hC : COMPRESSION_BLOCK_SIZE = 128 := rfl
      rw [remainingBlockLen] at hfull
      constructor
      · rw [remainingBlockLen, hfull, List.drop_zero]
      · rw [hblock, List.length_nil]
        omega
    · apply Prod.Lex.left
      rw [List.length_drop]
      omega
  · have hpos := List.length_pos_iff.mpr _hdelta
    rename_i hroom
    apply Prod.Lex.left
    rw [List.length_drop]
    have : s.remainingBlockLen ≠ 0 := by
      intro hfull
      apply hroom
      rw [remainingBlockLen] at hfull ⊢
      rw [block_extendBlock, List.length_append]
      omega
    omega

def closeTerm (s : PositionSerializer) : Option PositionSerializer := do
  let s ← s.flushBlock packer
  let numBlocks ← VInt.serialize (s.bitWidths.length % 2 ^ 64)
  some ⟨s.positionsWrt ++ numBlocks ++ s.bitWidths ++ s.positionsBuffer, [], s.block, [],
    s.length_block⟩

/-- The slices of a term, and its end. -/
def writeTerm (s : PositionSerializer) : List (List Nat) → Option PositionSerializer
  | [] => s.closeTerm packer
  | positionsDelta :: slices => do
    let s ← s.writePositionsDelta packer positionsDelta
    s.writeTerm slices

end PositionSerializer

/-! ### The reader -/

namespace BlockDecoder

def outputArray (decoder : BlockDecoder) : List Nat := decoder.output.take decoder.outputLen

/-- The integers up to the end of the data, as many as there is room for. -/
def untilEndLoop : Nat → Bytes → Option (List Nat)
  | 0, _ => some []
  | room + 1, data =>
    if data = [] then
      some []
    else do
      let (result, data) ← uncompressOne data 0 0
      let results ← untilEndLoop room data
      some (result :: results)

def uncompressVintUnsortedUntilEnd (decoder : BlockDecoder) (data : Bytes) :
    Option BlockDecoder := do
  let results ← untilEndLoop decoder.output.length data
  some ⟨results ++ decoder.output.drop results.length, results.length⟩

end BlockDecoder

structure PositionReader where
  bitWidths : Bytes
  positions : Bytes
  blockDecoder : BlockDecoder
  blockOffset : Nat
  anchorOffset : Nat
  originalBitWidths : Bytes
  originalPositions : Bytes

namespace PositionReader

/-- `i64::MAX`, where no block is loaded. -/
def NO_BLOCK : Nat := 2 ^ 63 - 1

def «open» (positionsData : Bytes) : Option PositionReader :=
  match VInt.deserialize positionsData with
  | .error _ => none
  | .ok (numPositionsBitpackedBlocks, positionsData) =>
    if numPositionsBitpackedBlocks ≤ positionsData.length then
      let bitWidths := positionsData.take numPositionsBitpackedBlocks
      let positions := positionsData.drop numPositionsBitpackedBlocks
      some ⟨bitWidths, positions, .withVal 0, NO_BLOCK, 0, bitWidths, positions⟩
    else
      none

def reset (r : PositionReader) : PositionReader :=
  { r with
    positions := r.originalPositions
    bitWidths := r.originalBitWidths
    blockOffset := NO_BLOCK
    anchorOffset := 0 }

/-- The bytes of packed blocks with the given widths. -/
def blocksLen (bitWidths : Bytes) : Nat :=
  (bitWidths.map UInt8.toNat).sum * COMPRESSION_BLOCK_SIZE / 8

def advanceNumBlocks (r : PositionReader) (numBlocks : Nat) : Option PositionReader :=
  let numBytesToSkip := blocksLen (r.bitWidths.take numBlocks)
  if numBlocks ≤ r.bitWidths.length ∧ numBytesToSkip ≤ r.positions.length then
    some { r with
      bitWidths := r.bitWidths.drop numBlocks
      positions := r.positions.drop numBytesToSkip
      anchorOffset := r.anchorOffset + numBlocks * COMPRESSION_BLOCK_SIZE }
  else
    none

/-- A block that has a bit width is bitpacked; the one behind them is vint encoded. -/
def decodeBlock (r : PositionReader) (bitWidth : Option UInt8) (compressedData : Bytes) :
    Option BlockDecoder :=
  match bitWidth with
  | some bitWidth =>
    (BlockDecoder.uncompressBlockUnsorted packer compressedData bitWidth.toNat).map Prod.fst
  | none => r.blockDecoder.uncompressVintUnsortedUntilEnd compressedData

def loadBlock (r : PositionReader) (blockRelId : Nat) : Option PositionReader := do
  let byteOffset := blocksLen (r.bitWidths.take blockRelId)
  let compressedData ←
    if blockRelId ≤ r.bitWidths.length ∧ byteOffset ≤ r.positions.length then
      some (r.positions.drop byteOffset)
    else
      none
  let blockDecoder ← r.decodeBlock packer r.bitWidths[blockRelId]? compressedData
  some { r with
    blockDecoder
    blockOffset := r.anchorOffset + blockRelId * COMPRESSION_BLOCK_SIZE }

/-- The loop of `read`, with the number of positions that the output still has room for. -/
def readLoop (r : PositionReader) (i offset room : Nat) : Option (PositionReader × List Nat) :=
  let offsetInBlock := offset % COMPRESSION_BLOCK_SIZE
  let remainingInBlock := COMPRESSION_BLOCK_SIZE - offsetInBlock
  let outputArray := r.blockDecoder.outputArray
  if room ≤ remainingInBlock then do
    let part ← slice? outputArray offsetInBlock (offsetInBlock + room)
    some (r, part)
  else do
    -- both sides of the copy have the same length
    let part ← if outputArray.length = COMPRESSION_BLOCK_SIZE then
      slice? outputArray offsetInBlock COMPRESSION_BLOCK_SIZE else none
    let r ← r.loadBlock packer i
    let (r, rest) ← r.readLoop (i + 1) (offset + remainingInBlock) (room - remainingInBlock)
    some (r, part ++ rest)
termination_by room
decreasing_by
  have := Nat.mod_lt offset (show 0 < COMPRESSION_BLOCK_SIZE by decide)
  omega

/-- `(offset as i64 - self.block_offset as i64)`, which wraps around. -/
def deltaToBlockOffset (r : PositionReader) (offset : Nat) : Int :=
  Int.bmod ((offset : Int) - r.blockOffset) (2 ^ 64)

/-- The first half of `read`: the anchor moves to the block of the offset, which is loaded where it
is not at hand. -/
def moveTo (r : PositionReader) (offset : Nat) : Option PositionReader :=
  if ¬(0 ≤ r.deltaToBlockOffset offset ∧ r.deltaToBlockOffset offset < 128) then do
    let deltaToAnchorOffset := offset - r.anchorOffset
    let r ← r.advanceNumBlocks (deltaToAnchorOffset / COMPRESSION_BLOCK_SIZE)
    r.loadBlock packer 0
  else
    r.advanceNumBlocks ((r.blockOffset - r.anchorOffset) / COMPRESSION_BLOCK_SIZE)

/-- The reader, and an output of length `len`. -/
def read (r : PositionReader) (offset len : Nat) : Option (PositionReader × List Nat) := do
  let r ← (if offset < r.anchorOffset then r.reset else r).moveTo packer offset
  r.readLoop packer 1 offset len

/-- Calls of `read`, each an offset and the length of a buffer, with what they fill in. -/
def run (r : PositionReader) : List (Nat × Nat) → Option (List (List Nat))
  | [] => some []
  | (offset, len) :: reads => do
    let (r, output) ← r.read packer offset len
    let outputs ← r.run reads
    some (output :: outputs)

end PositionReader

end TeaclaveCrates.Tantivy
