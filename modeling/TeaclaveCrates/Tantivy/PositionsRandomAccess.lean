import TeaclaveCrates.Lib.Blocks
import TeaclaveCrates.Tantivy.Positions

namespace TeaclaveCrates.Tantivy

open Lib Common

/-!
# Random access to positions

* `termData` — the bytes of a term, by its full blocks and its tail;
* `PositionSerializer.writeTerm_eq` — what is written, whatever slices the positions come in;
* `PositionReader.Anchored`, `PositionReader.Loaded` — where the anchor of a reader is, and which
  block it has decoded;
* `Ready.read` — a read, from any place in the term;
* `positions_random_access_iff` — the terms whose positions can be read in any order.

The tail is encoded in a buffer of 512 bytes, which up to 127 integers of five bytes do not fit.
-/

variable {packer : BitPacker}

/-! ### The bytes of a term -/

/-- A block as it is packed. -/
def packed (packer : BitPacker) (block : List Nat) : Bytes :=
  packer.compress block (packer.numBits block)

/-- The byte for the width of a block. -/
def bitWidth (packer : BitPacker) (block : List Nat) : UInt8 := UInt8.ofNat (packer.numBits block)

/-- The blocks of 128. -/
def blocksOf (vals : List Nat) : List (List Nat) := fullBlocks COMPRESSION_BLOCK_SIZE vals

/-- The positions behind the packed blocks, as they are encoded. -/
def tailBytes (vals : List Nat) : Bytes :=
  (tailBlock COMPRESSION_BLOCK_SIZE vals).flatMap (vint true 5)

/-- The tail fits the buffer of the encoder. -/
def PositionsTailFits (vals : List Nat) : Prop :=
  (tailBytes vals).length ≤ COMPRESSED_BLOCK_MAX_SIZE

instance (vals : List Nat) : Decidable (PositionsTailFits vals) := Nat.decLe _ _

/-- The number of blocks, their widths, and the data. -/
def termData (packer : BitPacker) (vals : List Nat) : Bytes :=
  vint true 10 ((blocksOf vals).length % 2 ^ 64) ++ (blocksOf vals).map (bitWidth packer) ++
    ((blocksOf vals).flatMap (packed packer) ++ tailBytes vals)

theorem isBlock_of_mem {vals b : List Nat} (hvals : ∀ v ∈ vals, v < 2 ^ 32)
    (hb : b ∈ blocksOf vals) : IsBlock b where
  length := (mem_fullBlocks hb).1
  lt v hv := hvals v ((mem_fullBlocks hb).2 v hv)

/-! ### Writing -/

namespace PositionSerializer

/-- The positions that were written since the last term ended. -/
structure Written (packer : BitPacker) (s : PositionSerializer) (wrt : Bytes) (vals : List Nat) :
    Prop where
  positionsWrt : s.positionsWrt = wrt
  block : s.block = tailBlock COMPRESSION_BLOCK_SIZE vals
  bitWidths : s.bitWidths = (blocksOf vals).map (bitWidth packer)
  positionsBuffer : s.positionsBuffer = (blocksOf vals).flatMap (packed packer)

variable {s : PositionSerializer} {wrt : Bytes} {vals : List Nat}

theorem written_new (wrt : Bytes) : Written packer (new wrt) wrt [] where
  positionsWrt := rfl
  block := by simp [new]
  bitWidths := by simp [new, blocksOf]
  positionsBuffer := by simp [new, blocksOf]

theorem Written.length_block (h : Written packer s wrt vals) :
    s.block.length = vals.length % COMPRESSION_BLOCK_SIZE := by
  rw [h.block, length_tailBlock]

theorem Written.remainingBlockLen_pos (h : Written packer s wrt vals) :
    0 < s.remainingBlockLen := by
  have hlt := Nat.mod_lt vals.length (show 0 < COMPRESSION_BLOCK_SIZE by decide)
  rw [remainingBlockLen, h.length_block]
  omega

/-- Elements that do not fill the block. -/
theorem Written.extend (h : Written packer s wrt vals) {xs : List Nat}
    (hxs : xs.length < s.remainingBlockLen) :
    Written packer (s.extendBlock xs) wrt (vals ++ xs) := by
  have hlen := h.length_block
  rw [remainingBlockLen, hlen] at hxs
  have hroom : vals.length % COMPRESSION_BLOCK_SIZE + xs.length < COMPRESSION_BLOCK_SIZE := by omega
  obtain ⟨hblocks, htail⟩ := fullBlocks_append hroom
  have htake : xs.take s.remainingBlockLen = xs :=
    List.take_of_length_le (by rw [remainingBlockLen, hlen]; omega)
  constructor
  · exact h.positionsWrt
  · rw [htail, ← h.block, block_extendBlock, htake]
  · rw [blocksOf, hblocks]
    exact h.bitWidths
  · rw [blocksOf, hblocks]
    exact h.positionsBuffer

/-- Elements that fill the block, which is then packed. -/
theorem Written.flush (h : Written packer s wrt vals) {xs : List Nat}
    (hxs : s.remainingBlockLen ≤ xs.length) :
    ∃ s', (s.extendBlock xs).flushBlock packer = some s' ∧
      Written packer s' wrt (vals ++ xs.take s.remainingBlockLen) := by
  have hlen := h.length_block
  set front := xs.take s.remainingBlockLen with hfront
  have hfrontLen : front.length = s.remainingBlockLen := by
    rw [hfront, List.length_take]
    omega
  have hfull : vals.length % COMPRESSION_BLOCK_SIZE + front.length = COMPRESSION_BLOCK_SIZE := by
    rw [hfrontLen, remainingBlockLen, hlen]
    have := Nat.mod_lt vals.length (show 0 < COMPRESSION_BLOCK_SIZE by decide)
    omega
  obtain ⟨hblocks, htail⟩ := fullBlocks_append_full (by decide) hfull
  have hblock : (s.extendBlock xs).block = tailBlock COMPRESSION_BLOCK_SIZE vals ++ front := by
    rw [block_extendBlock, h.block]
  have hblockLen : (s.extendBlock xs).block.length = COMPRESSION_BLOCK_SIZE := by
    rw [hblock, List.length_append, length_tailBlock, hfull]
  have hne : (s.extendBlock xs).block ≠ [] := by
    intro hnil
    rw [hnil] at hblockLen
    cases hblockLen
  refine ⟨_, by rw [flushBlock, if_neg hne, if_pos hblockLen], ?_⟩
  constructor
  · exact h.positionsWrt
  · exact htail.symm
  · rw [blocksOf, hblocks, List.map_append, ← blocksOf, ← h.bitWidths, ← hblock]
    rfl
  · rw [blocksOf, hblocks, List.flatMap_append, ← blocksOf, ← h.positionsBuffer, ← hblock,
      List.flatMap_singleton]
    rfl

/-- A slice is added to what was written, however long it is. -/
theorem Written.writePositionsDelta (h : Written packer s wrt vals) (xs : List Nat) :
    ∃ s', s.writePositionsDelta packer xs = some s' ∧ Written packer s' wrt (vals ++ xs) := by
  -- on what is left of the slice
  induction hn : xs.length using Nat.strong_induction_on generalizing s vals xs with
  | _ n ih =>
    by_cases hxs : xs = []
    · subst hxs
      refine ⟨s, ?_, by rwa [List.append_nil]⟩
      simp [PositionSerializer.writePositionsDelta]
    · have hpos := h.remainingBlockLen_pos
      rcases Nat.lt_or_ge xs.length s.remainingBlockLen with hlt | hge
      · have hext := h.extend hlt
        refine ⟨_, ?_, hext⟩
        simp [PositionSerializer.writePositionsDelta, hxs, hext.remainingBlockLen_pos.ne',
          List.drop_eq_nil_of_le hlt.le]
      · obtain ⟨s₁, hflush, hwritten⟩ := h.flush hge
        obtain ⟨s', hrest, hwritten'⟩ := ih (xs.drop s.remainingBlockLen).length
          (by rw [List.length_drop]; omega) hwritten _ rfl
        refine ⟨s', ?_, by rwa [List.append_assoc, List.take_append_drop] at hwritten'⟩
        have hfull : (s.extendBlock xs).remainingBlockLen = 0 := by
          rw [remainingBlockLen] at hge ⊢
          rw [block_extendBlock, List.length_append, List.length_take, remainingBlockLen]
          omega
        rw [PositionSerializer.writePositionsDelta, dif_neg hxs]
        rw [if_pos hfull]
        split
        · rename_i hnone
          rw [hflush] at hnone
          cases hnone
        · rename_i hsome
          rw [hflush] at hsome
          cases hsome
          exact hrest

theorem serialize_numBlocks (n : Nat) :
    VInt.serialize (n % 2 ^ 64) = some (vint true 10 (n % 2 ^ 64)) :=
  VInt.serialize_eq (Nat.mod_lt _ (by decide))

/-- The end of a term: its bytes, or a panic where the tail does not fit. -/
theorem Written.closeTerm (h : Written packer s wrt vals) :
    s.closeTerm packer =
      if PositionsTailFits vals then some (new (wrt ++ termData packer vals)) else none := by
  have hlen := h.length_block
  have hmod := Nat.mod_lt vals.length (show 0 < COMPRESSION_BLOCK_SIZE by decide)
  by_cases hblock : s.block = []
  · have htail : tailBytes vals = [] := by rw [tailBytes, ← h.block, hblock, List.flatMap_nil]
    have hfits : PositionsTailFits vals := by simp [PositionsTailFits, htail]
    have hflush : s.flushBlock packer = some s := by simp [flushBlock, hblock]
    rw [if_pos hfits, PositionSerializer.closeTerm, hflush]
    simp only [Option.bind_eq_bind, Option.bind_some, serialize_numBlocks, h.positionsWrt,
      h.bitWidths, h.positionsBuffer, List.length_map, hblock, new, termData, htail,
      List.append_nil, List.append_assoc]
  · have hshort : s.block.length ≠ COMPRESSION_BLOCK_SIZE := by omega
    by_cases hfits : PositionsTailFits vals
    · have hcompress : compressUnsorted s.block = some (tailBytes vals) := by
        rw [h.block]
        exact if_pos hfits
      rw [if_pos hfits, PositionSerializer.closeTerm, flushBlock, if_neg hblock, if_neg hshort,
        hcompress]
      simp only [Option.bind_eq_bind, Option.bind_some, serialize_numBlocks, h.positionsWrt,
        h.bitWidths, h.positionsBuffer, List.length_map, new, termData, List.append_assoc]
    · have hcompress : compressUnsorted s.block = none := by
        rw [h.block]
        exact if_neg hfits
      simp [hfits, PositionSerializer.closeTerm, flushBlock, hblock, hshort, hcompress]

/-- **What is written of a term** depends on its positions only, not on the slices. -/
theorem writeTerm_eq (packer : BitPacker) (wrt : Bytes) (slices : List (List Nat)) :
    (new wrt).writeTerm packer slices =
      if PositionsTailFits slices.flatten then
        some (new (wrt ++ termData packer slices.flatten))
      else none := by
  have hrun : ∀ slices vals s, Written packer s wrt vals →
      s.writeTerm packer slices =
        if PositionsTailFits (vals ++ slices.flatten) then
          some (new (wrt ++ termData packer (vals ++ slices.flatten)))
        else none := by
    intro slices
    induction slices with
    | nil =>
      intro vals s h
      rw [List.flatten_nil, List.append_nil]
      exact h.closeTerm
    | cons xs slices ih =>
      intro vals s h
      obtain ⟨s₁, hwrite, hwritten⟩ := h.writePositionsDelta xs
      have hrest := ih _ _ hwritten
      rw [List.append_assoc] at hrest
      rw [writeTerm, hwrite, List.flatten_cons]
      exact hrest
  exact hrun slices [] (new wrt) (written_new wrt)

end PositionSerializer

/-! ### Blocks read back -/

theorem toNat_bitWidth (hlaw : packer.Lawful) {b : List Nat} (hb : IsBlock b) :
    (bitWidth packer b).toNat = packer.numBits b := by
  have := hlaw.numBits_le hb
  exact Nat.mod_eq_of_lt (by omega)

/-- The bit widths tell how long the packed blocks are. -/
theorem blocksLen_eq (hlaw : packer.Lawful) {bs : List (List Nat)} (hbs : ∀ b ∈ bs, IsBlock b) :
    PositionReader.blocksLen (bs.map (bitWidth packer)) = (bs.flatMap (packed packer)).length := by
  induction bs with
  | nil => simp [PositionReader.blocksLen]
  | cons b bs ih =>
    rw [List.forall_mem_cons] at hbs
    have hlen : (packed packer b).length = packer.numBits b * COMPRESSION_BLOCK_SIZE / 8 :=
      hlaw.length_compress hbs.1
    have hrest := ih hbs.2
    have hC : COMPRESSION_BLOCK_SIZE = 128 := rfl
    rw [PositionReader.blocksLen, hC] at hrest ⊢
    rw [hC] at hlen
    rw [List.map_cons, List.map_cons, List.sum_cons, toNat_bitWidth hlaw hbs.1, List.flatMap_cons,
      List.length_append, hlen, ← hrest]
    omega

/-- The loop over the tail ends with the data. -/
theorem untilEndLoop_eq {vals : List Nat} (hvals : ∀ v ∈ vals, v < 2 ^ 32) :
    ∀ room, vals.length ≤ room →
      BlockDecoder.untilEndLoop room (vals.flatMap (vint true 5)) = some vals := by
  induction vals with
  | nil =>
    intro room _
    cases room <;> simp [BlockDecoder.untilEndLoop]
  | cons v vals ih =>
    intro room hroom
    rw [List.forall_mem_cons] at hvals
    obtain ⟨room, rfl⟩ : ∃ n, room = n + 1 := ⟨room - 1, by rw [List.length_cons] at hroom; omega⟩
    have hone : uncompressOne (vint true 5 v ++ vals.flatMap (vint true 5)) 0 0 =
        some (v, vals.flatMap (vint true 5)) := by
      rw [uncompressOne_vint_five _ (by omega), Nat.zero_add]
    have hne : vint true 5 v ++ vals.flatMap (vint true 5) ≠ [] := by
      intro hnil
      rw [hnil] at hone
      cases hone
    simp [BlockDecoder.untilEndLoop, hne, hone, ih hvals.2 room (by simpa using hroom)]

namespace PositionReader

/-- The anchor of the reader is at block `k` of the term. -/
structure Anchored (packer : BitPacker) (r : PositionReader) (vals : List Nat) (k : Nat) :
    Prop where
  le : k ≤ (blocksOf vals).length
  bitWidths : r.bitWidths = ((blocksOf vals).drop k).map (bitWidth packer)
  positions : r.positions = ((blocksOf vals).drop k).flatMap (packed packer) ++ tailBytes vals
  anchorOffset : r.anchorOffset = k * COMPRESSION_BLOCK_SIZE
  originalBitWidths : r.originalBitWidths = (blocksOf vals).map (bitWidth packer)
  originalPositions : r.originalPositions =
    (blocksOf vals).flatMap (packed packer) ++ tailBytes vals
  room : r.blockDecoder.output.length = COMPRESSION_BLOCK_SIZE

/-- The reader has decoded block `j`, which may be the tail. -/
structure Loaded (r : PositionReader) (vals : List Nat) (j : Nat) : Prop where
  le : j ≤ (blocksOf vals).length
  blockOffset : r.blockOffset = j * COMPRESSION_BLOCK_SIZE
  outputArray : r.blockDecoder.outputArray = block COMPRESSION_BLOCK_SIZE vals j

variable {r : PositionReader} {vals : List Nat} {k : Nat}

theorem Anchored.reset (h : Anchored packer r vals k) : Anchored packer r.reset vals 0 where
  le := Nat.zero_le _
  bitWidths := h.originalBitWidths
  positions := h.originalPositions
  anchorOffset := (Nat.zero_mul _).symm
  originalBitWidths := h.originalBitWidths
  originalPositions := h.originalPositions
  room := h.room

theorem isBlock_of_mem_drop (hvals : ∀ v ∈ vals, v < 2 ^ 32) {b : List Nat}
    (hb : b ∈ (blocksOf vals).drop k) : IsBlock b :=
  isBlock_of_mem hvals (List.mem_of_mem_drop hb)

/-- The blocks that are skipped, and what is behind them. -/
theorem Anchored.skip (hlaw : packer.Lawful) (hvals : ∀ v ∈ vals, v < 2 ^ 32)
    (h : Anchored packer r vals k) (m : Nat) :
    blocksLen (r.bitWidths.take m) ≤ r.positions.length ∧
      r.positions.drop (blocksLen (r.bitWidths.take m)) =
        ((blocksOf vals).drop (k + m)).flatMap (packed packer) ++ tailBytes vals := by
  have hlen : blocksLen (r.bitWidths.take m) =
      (((blocksOf vals).drop k).take m |>.flatMap (packed packer)).length := by
    rw [h.bitWidths, ← List.map_take]
    apply blocksLen_eq hlaw
    exact fun b hb => isBlock_of_mem_drop hvals (List.mem_of_mem_take hb)
  have hsplit : r.positions = (((blocksOf vals).drop k).take m).flatMap (packed packer) ++
      (((blocksOf vals).drop (k + m)).flatMap (packed packer) ++ tailBytes vals) := by
    rw [h.positions, ← List.append_assoc, ← List.flatMap_append, ← List.drop_drop,
      List.take_append_drop]
  rw [hlen, hsplit]
  constructor
  · rw [List.length_append]
    omega
  · simp

/-- The anchor moves forward; what is decoded stays. -/
theorem Anchored.advanceNumBlocks (hlaw : packer.Lawful) (hvals : ∀ v ∈ vals, v < 2 ^ 32)
    (h : Anchored packer r vals k) {m : Nat} (hm : k + m ≤ (blocksOf vals).length) :
    ∃ r', r.advanceNumBlocks m = some r' ∧ Anchored packer r' vals (k + m) ∧
      r'.blockDecoder = r.blockDecoder ∧ r'.blockOffset = r.blockOffset := by
  obtain ⟨hle, hdrop⟩ := h.skip hlaw hvals m
  have hwidths : m ≤ r.bitWidths.length := by
    rw [h.bitWidths, List.length_map, List.length_drop]
    omega
  refine ⟨{ r with
    bitWidths := r.bitWidths.drop m
    positions := r.positions.drop (blocksLen (r.bitWidths.take m))
    anchorOffset := r.anchorOffset + m * COMPRESSION_BLOCK_SIZE },
    if_pos ⟨hwidths, hle⟩, ?_, rfl, rfl⟩
  constructor
  · exact hm
  · simp [h.bitWidths]
  · exact hdrop
  · rw [h.anchorOffset, Nat.add_mul]
  · exact h.originalBitWidths
  · exact h.originalPositions
  · exact h.room

/-- What is decoded of the bytes behind the blocks that are skipped. -/
theorem Anchored.decodeBlock (hlaw : packer.Lawful) (hvals : ∀ v ∈ vals, v < 2 ^ 32)
    (h : Anchored packer r vals k) {i : Nat} (hi : k + i ≤ (blocksOf vals).length) :
    ∃ decoder, r.decodeBlock packer r.bitWidths[i]?
        (((blocksOf vals).drop (k + i)).flatMap (packed packer) ++ tailBytes vals) = some decoder ∧
      decoder.output.length = COMPRESSION_BLOCK_SIZE ∧
      decoder.outputArray = block COMPRESSION_BLOCK_SIZE vals (k + i) := by
  have hlength : (blocksOf vals).length = vals.length / COMPRESSION_BLOCK_SIZE := length_fullBlocks
  rcases Nat.lt_or_ge (k + i) (blocksOf vals).length with hlt | hge
  · -- a packed block
    set b := block COMPRESSION_BLOCK_SIZE vals (k + i) with hb
    have hget : (blocksOf vals)[k + i]? = some b := getElem?_fullBlocks (by rwa [← hlength])
    have hblock : IsBlock b := isBlock_of_mem hvals (List.mem_of_getElem? hget)
    have hwidth : r.bitWidths[i]? = some (bitWidth packer b) := by
      rw [h.bitWidths, List.getElem?_map, List.getElem?_drop, hget, Option.map_some]
    have hcons : (blocksOf vals).drop (k + i) = b :: (blocksOf vals).drop (k + i + 1) := by
      rw [List.drop_eq_getElem?_toList_append, hget]
      rfl
    refine ⟨⟨b, COMPRESSION_BLOCK_SIZE⟩, ?_, hblock.length, ?_⟩
    · simp [hwidth, hcons, PositionReader.decodeBlock, toNat_bitWidth hlaw hblock, packed,
        BlockDecoder.uncompressBlockUnsorted, hlaw.decompress_compress hblock]
    · rw [BlockDecoder.outputArray, List.take_of_length_le hblock.length.le]
  · -- the tail
    have heq : k + i = (blocksOf vals).length := Nat.le_antisymm hi hge
    have hnone : r.bitWidths[i]? = none := by
      simp [h.bitWidths, List.getElem?_eq_none hge]
    set tail := tailBlock COMPRESSION_BLOCK_SIZE vals with htail
    have htailLt : ∀ v ∈ tail, v < 2 ^ 32 := fun v hv => hvals v (List.mem_of_mem_drop hv)
    have hshort : tail.length ≤ r.blockDecoder.output.length := by
      rw [h.room]
      exact (length_tailBlock_lt (by decide)).le
    have hloop := untilEndLoop_eq htailLt _ hshort
    rw [heq, List.drop_length, List.flatMap_nil, List.nil_append, hlength,
      block_length_div (by decide), hnone]
    refine ⟨⟨tail ++ r.blockDecoder.output.drop tail.length, tail.length⟩, ?_, ?_, ?_⟩
    · simp [PositionReader.decodeBlock, BlockDecoder.uncompressVintUnsortedUntilEnd, tailBytes,
        ← htail, hloop]
    · rw [h.room] at hshort
      rw [List.length_append, List.length_drop, h.room]
      omega
    · rw [BlockDecoder.outputArray, List.take_left]

/-- A block behind the anchor is decoded; the anchor stays. -/
theorem Anchored.loadBlock (hlaw : packer.Lawful) (hvals : ∀ v ∈ vals, v < 2 ^ 32)
    (h : Anchored packer r vals k) {i : Nat} (hi : k + i ≤ (blocksOf vals).length) :
    ∃ r', r.loadBlock packer i = some r' ∧ Anchored packer r' vals k ∧ Loaded r' vals (k + i) := by
  obtain ⟨hle, hdrop⟩ := h.skip hlaw hvals i
  obtain ⟨decoder, hdecode, hroom, houtput⟩ := h.decodeBlock hlaw hvals hi
  have hwidths : i ≤ r.bitWidths.length := by
    rw [h.bitWidths, List.length_map, List.length_drop]
    omega
  refine ⟨{ r with
    blockDecoder := decoder
    blockOffset := r.anchorOffset + i * COMPRESSION_BLOCK_SIZE }, ?_, ?_, ?_⟩
  · rw [PositionReader.loadBlock, if_pos ⟨hwidths, hle⟩]
    simp [hdrop, hdecode]
  · exact ⟨h.le, h.bitWidths, h.positions, h.anchorOffset, h.originalBitWidths,
      h.originalPositions, hroom⟩
  · refine ⟨hi, ?_, houtput⟩
    rw [h.anchorOffset, Nat.add_mul]

/-! ### Reading -/

/-- A part of the block at hand, which lies within the term. -/
theorem Loaded.slice {j o m : Nat} (h : Loaded r vals j) (hm : o + m ≤ COMPRESSION_BLOCK_SIZE)
    (hlen : COMPRESSION_BLOCK_SIZE * j + o + m ≤ vals.length) :
    slice? r.blockDecoder.outputArray o (o + m) =
      some ((vals.drop (COMPRESSION_BLOCK_SIZE * j + o)).take m) := by
  have hblock : o + m ≤ (block COMPRESSION_BLOCK_SIZE vals j).length := by
    rw [block, List.length_take, List.length_drop]
    omega
  rw [h.outputArray, slice?_eq (by omega) hblock, Lib.slice, Nat.add_sub_cancel_left,
    slice_block hm]

variable {offset : Nat}

/-- **The loop** copies from the block at hand, and loads the next one where it has to go on. -/
theorem Anchored.readLoop (hlaw : packer.Lawful) (hvals : ∀ v ∈ vals, v < 2 ^ 32)
    (h : Anchored packer r vals k) {i room : Nat} (hi : 0 < i) (hload : Loaded r vals (k + (i - 1)))
    (hoffset : offset / COMPRESSION_BLOCK_SIZE = k + (i - 1))
    (hlen : offset + room ≤ vals.length) :
    ∃ r', r.readLoop packer i offset room = some (r', (vals.drop offset).take room) ∧
      Anchored packer r' vals k ∧ ∃ j, k ≤ j ∧ Loaded r' vals j := by
  -- on the room that is left
  induction hn : room using Nat.strong_induction_on generalizing r i offset room with
  | _ n ih =>
    subst hn
    set o := offset % COMPRESSION_BLOCK_SIZE with ho
    have hmod := Nat.mod_lt offset (show 0 < COMPRESSION_BLOCK_SIZE by decide)
    have hsplit : COMPRESSION_BLOCK_SIZE * (k + (i - 1)) + o = offset := by
      rw [← hoffset, ho]
      exact Nat.div_add_mod offset _
    by_cases hroom : room ≤ COMPRESSION_BLOCK_SIZE - o
    · have hpart := hload.slice (o := o) (m := room) (by omega) (by omega)
      rw [hsplit] at hpart
      refine ⟨r, ?_, h, _, Nat.le_add_right k _, hload⟩
      simp [PositionReader.readLoop, ← ho, hroom, hpart]
    · -- the block at hand is full
      have hlength : (blocksOf vals).length = vals.length / COMPRESSION_BLOCK_SIZE :=
        length_fullBlocks
      have hnext : k + i ≤ (blocksOf vals).length := by
        rw [hlength, Nat.le_div_iff_mul_le (by decide), Nat.mul_comm]
        have : k + i = k + (i - 1) + 1 := by omega
        rw [this, Nat.mul_succ]
        omega
      have hfull : r.blockDecoder.outputArray.length = COMPRESSION_BLOCK_SIZE := by
        rw [hload.outputArray]
        exact length_block_of_lt (by omega)
      have hpart := hload.slice (o := o) (m := COMPRESSION_BLOCK_SIZE - o) (by omega) (by omega)
      rw [hsplit, Nat.add_sub_cancel' (by omega)] at hpart
      obtain ⟨r₁, hrun, hanchored, hload₁⟩ := h.loadBlock hlaw hvals hnext
      have hoffset' : (offset + (COMPRESSION_BLOCK_SIZE - o)) / COMPRESSION_BLOCK_SIZE =
          k + (i + 1 - 1) := by
        have heq : offset + (COMPRESSION_BLOCK_SIZE - o) =
            COMPRESSION_BLOCK_SIZE * (k + (i + 1 - 1)) := by
          have : k + (i + 1 - 1) = k + (i - 1) + 1 := by omega
          rw [this, Nat.mul_succ]
          omega
        rw [heq, Nat.mul_div_cancel_left _ (by decide)]
      obtain ⟨r', hrest, hanchored', hloaded'⟩ := ih (room - (COMPRESSION_BLOCK_SIZE - o))
        (by omega) hanchored (Nat.succ_pos i) hload₁ hoffset' (by omega) rfl
      refine ⟨r', ?_, hanchored', hloaded'⟩
      rw [PositionReader.readLoop]
      simp only [← ho, if_neg hroom, if_pos hfull, hpart, hrun, hrest, Option.bind_eq_bind,
        Option.bind_some]
      rw [← List.drop_drop, ← List.take_add, Nat.add_sub_cancel' (by omega)]

/-- A reader of the term: its anchor is at some block, and it has decoded no block, or one that is
not in front of the anchor. -/
def Ready (packer : BitPacker) (r : PositionReader) (vals : List Nat) : Prop :=
  ∃ k, Anchored packer r vals k ∧ (r.blockOffset = NO_BLOCK ∨ ∃ j, k ≤ j ∧ Loaded r vals j)

/-- Whether a block is at hand that has the offset. -/
theorem deltaToBlockOffset_eq (r : PositionReader) (hoffset : offset < 2 ^ 63)
    (hblock : r.blockOffset < 2 ^ 63) : r.deltaToBlockOffset offset = offset - r.blockOffset := by
  rw [deltaToBlockOffset, Int.bmod_eq_iff (by decide)]
  omega

/-- The anchor moves forward to the block of the offset, which then is at hand. -/
theorem Anchored.moveTo (hlaw : packer.Lawful) (hvals : ∀ v ∈ vals, v < 2 ^ 32)
    (hshort : vals.length < NO_BLOCK) (h : Anchored packer r vals k)
    (hready : r.blockOffset = NO_BLOCK ∨ ∃ j, k ≤ j ∧ Loaded r vals j)
    (hanchor : r.anchorOffset ≤ offset) (hlen : offset ≤ vals.length) :
    ∃ r', r.moveTo packer offset = some r' ∧
      Anchored packer r' vals (offset / COMPRESSION_BLOCK_SIZE) ∧
      Loaded r' vals (offset / COMPRESSION_BLOCK_SIZE) := by
  have hC : COMPRESSION_BLOCK_SIZE = 128 := rfl
  have hN : NO_BLOCK = 2 ^ 63 - 1 := rfl
  have hlength : (blocksOf vals).length = vals.length / COMPRESSION_BLOCK_SIZE := length_fullBlocks
  have hkoffset := h.anchorOffset
  rw [hC] at hkoffset hlength
  by_cases hhand : 0 ≤ r.deltaToBlockOffset offset ∧ r.deltaToBlockOffset offset < 128
  · obtain hfresh | ⟨j, hj, hloaded⟩ := hready
    · rw [r.deltaToBlockOffset_eq (by omega) (by omega)] at hhand
      omega
    · -- the block at hand
      have hjoffset := hloaded.blockOffset
      have hjle := hloaded.le
      rw [hC] at hjoffset
      have hdelta := r.deltaToBlockOffset_eq (show offset < 2 ^ 63 by omega) (by omega)
      have hdiv : offset / COMPRESSION_BLOCK_SIZE = j := by
        rw [hC]
        omega
      have hskip : (r.blockOffset - r.anchorOffset) / COMPRESSION_BLOCK_SIZE = j - k := by
        rw [hC]
        omega
      obtain ⟨r₁, hadvance, hanchored, hdecoder, hblock⟩ :=
        h.advanceNumBlocks hlaw hvals (m := j - k) (by omega)
      rw [Nat.add_sub_cancel' hj] at hanchored
      rw [hdiv]
      refine ⟨r₁, ?_, hanchored, hloaded.le, ?_, ?_⟩
      · simp [PositionReader.moveTo, (not_not_intro hhand), hskip, hadvance]
      · rw [hblock, hloaded.blockOffset]
      · rw [hdecoder, hloaded.outputArray]
  · -- the block is decoded at the anchor
    have hskip : (offset - r.anchorOffset) / COMPRESSION_BLOCK_SIZE =
        offset / COMPRESSION_BLOCK_SIZE - k := by
      rw [hC]
      omega
    have hle : k ≤ offset / COMPRESSION_BLOCK_SIZE := by
      rw [hC]
      omega
    have hblocks : offset / COMPRESSION_BLOCK_SIZE ≤ (blocksOf vals).length := by
      rw [hC]
      omega
    obtain ⟨r₁, hadvance, hanchored, -, -⟩ :=
      h.advanceNumBlocks hlaw hvals (m := offset / COMPRESSION_BLOCK_SIZE - k) (by omega)
    rw [Nat.add_sub_cancel' hle] at hanchored
    obtain ⟨r₂, hload, hanchored₂, hloaded₂⟩ := hanchored.loadBlock hlaw hvals (i := 0) hblocks
    refine ⟨r₂, ?_, hanchored₂, hloaded₂⟩
    simp [PositionReader.moveTo, hhand, hskip, hadvance, hload]

/-- **A read**, backwards as well. -/
theorem Ready.read (hlaw : packer.Lawful) (hvals : ∀ v ∈ vals, v < 2 ^ 32)
    (hshort : vals.length < NO_BLOCK) (h : Ready packer r vals) {len : Nat}
    (hlen : offset + len ≤ vals.length) :
    ∃ r', r.read packer offset len = some (r', (vals.drop offset).take len) ∧
      Ready packer r' vals := by
  -- whether the reader is reset or not
  have hmove : ∃ r₁, (if offset < r.anchorOffset then r.reset else r).moveTo packer offset =
      some r₁ ∧ Anchored packer r₁ vals (offset / COMPRESSION_BLOCK_SIZE) ∧
      Loaded r₁ vals (offset / COMPRESSION_BLOCK_SIZE) := by
    obtain ⟨k, hanchored, hready⟩ := h
    split
    · exact hanchored.reset.moveTo hlaw hvals hshort (Or.inl rfl) (Nat.zero_le offset) (by omega)
    · exact hanchored.moveTo hlaw hvals hshort hready (by omega) (by omega)
  obtain ⟨r₁, hmove, hanchored, hloaded⟩ := hmove
  obtain ⟨r', hread, hanchored', hloaded'⟩ :=
    hanchored.readLoop hlaw hvals (i := 1) Nat.one_pos hloaded rfl hlen
  refine ⟨r', ?_, _, hanchored', Or.inr hloaded'⟩
  rw [PositionReader.read, hmove]
  exact hread

theorem Ready.run (hlaw : packer.Lawful) (hvals : ∀ v ∈ vals, v < 2 ^ 32)
    (hshort : vals.length < NO_BLOCK) (h : Ready packer r vals) {reads : List (Nat × Nat)}
    (hreads : ∀ read ∈ reads, read.1 + read.2 ≤ vals.length) :
    r.run packer reads = some (reads.map fun read => (vals.drop read.1).take read.2) := by
  induction reads generalizing r with
  | nil => rfl
  | cons read reads ih =>
    rw [List.forall_mem_cons] at hreads
    obtain ⟨r', hread, hready⟩ := h.read hlaw hvals hshort hreads.1
    simp [PositionReader.run, hread, ih hready hreads.2]

/-! ### Terms -/

theorem open_eq {n : Nat} (hn : n < 2 ^ 64) (rest : Bytes) (hrest : n ≤ rest.length) :
    PositionReader.open (vint true 10 n ++ rest) =
      some ⟨rest.take n, rest.drop n, .withVal 0, NO_BLOCK, 0, rest.take n, rest.drop n⟩ := by
  have hread : VInt.deserialize (vint true 10 n ++ rest) = .ok (n, rest) :=
    ((vint_roundTrip n rest).2.1 hn).2 _ (VInt.serialize_eq hn)
  rw [PositionReader.open, hread]
  exact if_pos hrest

/-- A reader that has just been opened on a term. -/
theorem ready_open (packer : BitPacker) (hshort : vals.length < NO_BLOCK) :
    ∃ r, PositionReader.open (termData packer vals) = some r ∧ Ready packer r vals := by
  have hN : NO_BLOCK = 2 ^ 63 - 1 := rfl
  have hlength : (blocksOf vals).length = vals.length / COMPRESSION_BLOCK_SIZE := length_fullBlocks
  have hcount : (blocksOf vals).length < 2 ^ 64 := by
    have := Nat.div_le_self vals.length COMPRESSION_BLOCK_SIZE
    omega
  set widths := (blocksOf vals).map (bitWidth packer) with hwidths
  set body := (blocksOf vals).flatMap (packed packer) ++ tailBytes vals with hbody
  have hlen : widths.length = (blocksOf vals).length := List.length_map ..
  have hopen := open_eq hcount (widths ++ body) (by rw [List.length_append]; omega)
  rw [List.take_left' hlen, List.drop_left' hlen] at hopen
  refine ⟨⟨widths, body, .withVal 0, NO_BLOCK, 0, widths, body⟩, ?_, 0, ?_, Or.inl rfl⟩
  · rw [termData, Nat.mod_eq_of_lt hcount, List.append_assoc]
    exact hopen
  · exact ⟨Nat.zero_le _, rfl, rfl, (Nat.zero_mul _).symm, rfl, rfl, List.length_replicate⟩

/-- A reader takes the offset `i64::MAX` for one of the block at hand before there is one. -/
theorem read_noBlock {data : Bytes} (hopen : PositionReader.open data = some r) :
    r.read packer NO_BLOCK 0 = none := by
  have hfields : r.blockDecoder = .withVal 0 ∧ r.blockOffset = NO_BLOCK ∧ r.anchorOffset = 0 := by
    rw [PositionReader.open] at hopen
    split at hopen
    · cases hopen
    · split at hopen
      · cases hopen
        exact ⟨rfl, rfl, rfl⟩
      · cases hopen
  obtain ⟨hdecoder, hblock, hanchor⟩ := hfields
  have hdelta : r.deltaToBlockOffset NO_BLOCK = 0 := by
    simp [deltaToBlockOffset, hblock]
  have hmove : r.moveTo packer NO_BLOCK =
      r.advanceNumBlocks ((NO_BLOCK - 0) / COMPRESSION_BLOCK_SIZE) := by
    simp [moveTo, hdelta, hblock, hanchor]
  rw [PositionReader.read, hanchor, if_neg (Nat.not_lt_zero _), hmove]
  cases hadvance : r.advanceNumBlocks ((NO_BLOCK - 0) / COMPRESSION_BLOCK_SIZE) with
  | none => rfl
  | some r₁ =>
    have hempty : r₁.blockDecoder.outputArray = [] := by
      rw [advanceNumBlocks] at hadvance
      split at hadvance
      · cases hadvance
        rw [hdecoder]
        rfl
      · cases hadvance
    show r₁.readLoop packer 1 NO_BLOCK 0 = none
    rw [readLoop]
    simp only [hempty, Nat.zero_le, if_true]
    rfl

end PositionReader

/-- The positions of a term, in any slices, can be written and then read in any order. -/
def RandomAccess (packer : BitPacker) (slices : List (List Nat)) : Prop :=
  ∀ wrt, ∃ data, (PositionSerializer.new wrt).writeTerm packer slices =
      some (.new (wrt ++ data)) ∧
    ∃ r, PositionReader.open data = some r ∧
      ∀ reads : List (Nat × Nat), (∀ read ∈ reads, read.1 + read.2 ≤ slices.flatten.length) →
        r.run packer reads =
          some (reads.map fun read => (slices.flatten.drop read.1).take read.2)

/-- **Random access to positions.** Whatever slices the positions of a term are written in, every
sequence of reads gives the positions at the offsets, if and only if the encoding of the tail fits
the buffer of the encoder (and no offset is `i64::MAX`, which stands for no block). -/
theorem positions_random_access_iff (hlaw : packer.Lawful) {slices : List (List Nat)}
    (hu32 : ∀ slice ∈ slices, ∀ v ∈ slice, v < 2 ^ 32) :
    RandomAccess packer slices ↔
      PositionsTailFits slices.flatten ∧ slices.flatten.length < PositionReader.NO_BLOCK := by
  constructor
  · intro h
    obtain ⟨data, hwrite, r, hopen, hreads⟩ := h []
    rw [PositionSerializer.writeTerm_eq] at hwrite
    constructor
    · by_contra hfits
      rw [if_neg hfits] at hwrite
      cases hwrite
    · by_contra hlong
      have hread := hreads [(PositionReader.NO_BLOCK, 0)] (by
        intro read hmem
        rw [List.mem_singleton.mp hmem]
        exact Nat.le_of_not_lt hlong)
      rw [PositionReader.run, PositionReader.read_noBlock hopen] at hread
      cases hread
  · rintro ⟨hfits, hshort⟩ wrt
    have hvals : ∀ v ∈ slices.flatten, v < 2 ^ 32 := by
      intro v hv
      obtain ⟨slice, hslice, hv⟩ := List.mem_flatten.mp hv
      exact hu32 slice hslice v hv
    obtain ⟨r, hopen, hready⟩ := PositionReader.ready_open packer hshort
    refine ⟨_, ?_, r, hopen, fun reads hreads => hready.run hlaw hvals hshort hreads⟩
    rw [PositionSerializer.writeTerm_eq, if_pos hfits]

/-- Two slices of a term, with a block of 3 bits, a block of 21 bits and a tail. -/
theorem positions_random_access_two :
    RandomAccess tightPacker [List.replicate 128 7, List.replicate 200 (2 ^ 20)] :=
  (positions_random_access_iff tightPacker_lawful (by decide +kernel)).mpr
    ⟨by decide +kernel, by decide +kernel⟩

/-- 103 positions that take five bytes each are three bytes more than the buffer has. -/
theorem positions_tail_too_long : ¬RandomAccess tightPacker [List.replicate 103 (2 ^ 28)] := by
  intro h
  obtain ⟨data, hwrite, -⟩ := h []
  have hlong : ¬PositionsTailFits [List.replicate 103 (2 ^ 28)].flatten := by decide +kernel
  rw [PositionSerializer.writeTerm_eq, if_neg hlong] at hwrite
  cases hwrite

end TeaclaveCrates.Tantivy
