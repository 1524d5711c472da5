import Mathlib.Data.List.Induction
import TeaclaveCrates.Tantivy.BitUnpacking
import TeaclaveCrates.Tantivy.FastFieldRoundTrip

namespace TeaclaveCrates.Tantivy.FastFieldCodecs

open TeaclaveCrates.Lib

/-!
# Packing in blocks

`BlockedBitpacker` collects values until there are 128 of them and packs these as one block, with a
minimum and a width of its own. A value is found by dividing its index by the size of a block.

* `EntryMetaData`, `BlockedBitpacker` — the code.
* `Cut`, `cutOf` — the blocks and the buffer that any calls lead to, as lists of values.
* `run_eq` — the packer holds what these spell.
* `get_block`, `get_eq_of_full`, `iter_eq_of_full` — reading by index and going through.
* `refinesList_iff` — the packer is the list of its values just when no block was cut short.
-/

def BLOCK_SIZE : Nat := 128

/-- `BlockedBitpackerEntryMetaData` -/
structure EntryMetaData where
  encoded : Nat
  baseValue : UInt64

namespace EntryMetaData

def new (offset numBits : Nat) (baseValue : UInt64) : EntryMetaData :=
  ⟨offset ||| (numBits <<< (64 - 8)) % 2 ^ 64, baseValue⟩

def offset (m : EntryMetaData) : Nat := ((m.encoded <<< 8) % 2 ^ 64) >>> 8

def numBits (m : EntryMetaData) : Nat := (m.encoded >>> 56) % 2 ^ 8

/-- An offset of seven bytes and a width are kept apart. -/
theorem decode_new {off bits : Nat} (hoff : off < 2 ^ 56) (hbits : bits < 2 ^ 8) (base : UInt64) :
    (new off bits base).offset = off ∧ (new off bits base).numBits = bits := by
  have hencoded : (new off bits base).encoded = off + bits * 2 ^ 56 := by
    show off ||| (bits <<< 56) % 2 ^ 64 = _
    rw [Nat.shiftLeft_eq, Nat.mod_eq_of_lt (by omega), ← Nat.shiftLeft_eq, Nat.or_comm,
      ← Nat.shiftLeft_add_eq_or_of_lt hoff, Nat.add_comm]
  unfold offset numBits
  constructor <;> omega

end EntryMetaData

structure BlockedBitpacker where
  compressedBlocks : Bytes
  buffer : List UInt64
  offsetAndBits : List EntryMetaData

namespace BlockedBitpacker

def new : BlockedBitpacker := ⟨List.replicate 8 0, [], []⟩

/-- The bytes of a block: a packer of its own writes the distances from the minimum. -/
def packBlock (minValue : UInt64) (numBits : Nat) (vals : List UInt64) : Bytes :=
  let written := BitPacker.new.writeAll (withWidth numBits (vals.map (· - minValue)))
  written.2 ++ written.1.flush

def flush (b : BlockedBitpacker) : BlockedBitpacker :=
  match minmax b.buffer with
  | none => b
  | some (minValue, maxValue) =>
    let numBitsBlock := computeNumBits (maxValue - minValue).toNat
    -- the padding of eight bytes is taken off, and put behind the new block
    let compressedBlocks := b.compressedBlocks.take (b.compressedBlocks.length - 8)
    { compressedBlocks :=
        compressedBlocks ++ packBlock minValue numBitsBlock b.buffer ++ List.replicate 8 0
      buffer := []
      offsetAndBits :=
        b.offsetAndBits ++ [EntryMetaData.new compressedBlocks.length numBitsBlock minValue] }

def add (b : BlockedBitpacker) (val : UInt64) : BlockedBitpacker :=
  let b := { b with buffer := b.buffer ++ [val] }
  if b.buffer.length = BLOCK_SIZE then b.flush else b

/-- `get`: slicing and indexing out of range panic, and an overflow of the sum does with checks. -/
def get (profile : Profile) (b : BlockedBitpacker) (idx : Nat) : Option UInt64 :=
  let metadataPos := idx / BLOCK_SIZE
  let posInBlock := idx % BLOCK_SIZE
  match b.offsetAndBits[metadataPos]? with
  | some metadata =>
    if b.compressedBlocks.length < metadata.offset then none
    else
      match (BitUnpacker.new metadata.numBits).getIn profile posInBlock
          (b.compressedBlocks.drop metadata.offset) with
      | none => none
      | some unpacked =>
        let sum := unpacked + metadata.baseValue.toNat
        if profile = .test ∧ 2 ^ 64 ≤ sum then none else some (UInt64.ofNat sum)
  | none => b.buffer[posInBlock]?

/-- `iter`, gone through to its end. -/
def iter (profile : Profile) (b : BlockedBitpacker) : Option (List UInt64) :=
  ((List.range (b.offsetAndBits.length * BLOCK_SIZE)).mapM (b.get profile)).map (· ++ b.buffer)

end BlockedBitpacker

/-! ### Calls -/

inductive Op where
  | add (val : UInt64)
  | flush

namespace Op

def apply (b : BlockedBitpacker) : Op → BlockedBitpacker
  | .add val => b.add val
  | .flush => b.flush

/-- The value that a call adds. -/
def added : Op → List UInt64
  | .add val => [val]
  | .flush => []

end Op

/-- The packer that some calls lead to. -/
def BlockedBitpacker.run (ops : List Op) : BlockedBitpacker := ops.foldl Op.apply .new

/-- The values that some calls add. -/
def addsOf (ops : List Op) : List UInt64 := ops.flatMap Op.added

/-- The values of the packer: the blocks that were cut, and what is still in the buffer. -/
structure Cut where
  blocks : List (List UInt64)
  buffer : List UInt64

namespace Cut

def vals (c : Cut) : List UInt64 := c.blocks.flatten ++ c.buffer

def flush (c : Cut) : Cut := if c.buffer = [] then c else ⟨c.blocks ++ [c.buffer], []⟩

def add (c : Cut) (val : UInt64) : Cut :=
  if (c.buffer ++ [val]).length = BLOCK_SIZE then ⟨c.blocks ++ [c.buffer ++ [val]], []⟩
  else ⟨c.blocks, c.buffer ++ [val]⟩

def step (c : Cut) : Op → Cut
  | .add val => c.add val
  | .flush => c.flush

/-- What holds of the blocks and the buffer after any calls. -/
structure Sized (c : Cut) : Prop where
  block : ∀ block ∈ c.blocks, block ≠ [] ∧ block.length ≤ BLOCK_SIZE
  buffer : c.buffer.length < BLOCK_SIZE

theorem Sized.step {c : Cut} (h : c.Sized) (op : Op) : (c.step op).Sized := by
  have happend : ∀ new : List UInt64, new ≠ [] → new.length ≤ BLOCK_SIZE →
      ∀ block ∈ c.blocks ++ [new], block ≠ [] ∧ block.length ≤ BLOCK_SIZE := by
    intro new hne hle block hmem
    rcases List.mem_append.mp hmem with hmem | hmem
    · exact h.block block hmem
    · rw [List.mem_singleton.mp hmem]
      exact ⟨hne, hle⟩
  cases op with
  | add val =>
    have hlength : (c.buffer ++ [val]).length = c.buffer.length + 1 := List.length_append
    have hbuffer := h.buffer
    show (c.add val).Sized
    rw [add]
    split
    · rename_i hfull
      refine ⟨happend _ ?_ hfull.le, Nat.succ_pos 127⟩
      exact List.append_ne_nil_of_right_ne_nil _ (List.cons_ne_nil _ _)
    · rename_i hmore
      exact ⟨h.block, by rw [hlength] at hmore ⊢; omega⟩
  | flush =>
    show c.flush.Sized
    rw [flush]
    split
    · exact h
    · rename_i hne
      exact ⟨happend _ hne h.buffer.le, Nat.succ_pos 127⟩

theorem vals_step (c : Cut) (op : Op) : (c.step op).vals = c.vals ++ op.added := by
  cases op with
  | add val =>
    show (c.add val).vals = _
    rw [add, vals, vals, Op.added]
    split <;> simp
  | flush =>
    show c.flush.vals = _
    rw [flush, vals, Op.added]
    split <;> simp [vals]

end Cut

/-- The blocks and the buffer that some calls lead to. -/
def cutOf (ops : List Op) : Cut := ops.foldl Cut.step ⟨[], []⟩

theorem cutOf_append (ops : List Op) (op : Op) : cutOf (ops ++ [op]) = (cutOf ops).step op := by
  simp [cutOf]

theorem sized_cutOf (ops : List Op) : (cutOf ops).Sized := by
  induction ops using List.reverseRecOn with
  | nil => exact ⟨fun block h => absurd h List.not_mem_nil, Nat.succ_pos 127⟩
  | append_singleton ops op ih =>
    rw [cutOf_append]
    exact ih.step op

theorem vals_cutOf (ops : List Op) : (cutOf ops).vals = addsOf ops := by
  induction ops using List.reverseRecOn with
  | nil => rfl
  | append_singleton ops op ih =>
    simp [cutOf_append, Cut.vals_step, ih, addsOf]

/-! ### What the packer holds -/

/-- The least and the greatest value of a block. -/
def boundsOf (block : List UInt64) : UInt64 × UInt64 := (minmax block).getD (0, 0)

def widthOfBlock (block : List UInt64) : Nat :=
  computeNumBits ((boundsOf block).2 - (boundsOf block).1).toNat

def bytesOf (block : List UInt64) : Bytes :=
  BlockedBitpacker.packBlock (boundsOf block).1 (widthOfBlock block) block

/-- The bytes of all blocks. -/
def bytesOfAll (blocks : List (List UInt64)) : Bytes := blocks.flatMap bytesOf

/-- The entries of all blocks, from an offset on. -/
def entriesFrom : Nat → List (List UInt64) → List EntryMetaData
  | _, [] => []
  | offset, block :: blocks =>
    EntryMetaData.new offset (widthOfBlock block) (boundsOf block).1 ::
      entriesFrom (offset + (bytesOf block).length) blocks

theorem entriesFrom_append (offset : Nat) (blocks : List (List UInt64)) (block : List UInt64) :
    entriesFrom offset (blocks ++ [block]) = entriesFrom offset blocks ++
      [EntryMetaData.new (offset + (bytesOfAll blocks).length) (widthOfBlock block)
        (boundsOf block).1] := by
  induction blocks generalizing offset with
  | nil => rfl
  | cons first blocks ih =>
    simp [entriesFrom, ih, bytesOfAll, Nat.add_assoc]

theorem length_entriesFrom (offset : Nat) (blocks : List (List UInt64)) :
    (entriesFrom offset blocks).length = blocks.length := by
  induction blocks generalizing offset with
  | nil => rfl
  | cons block blocks ih => simp [entriesFrom, ih]

/-- The packer that holds some blocks and a buffer. -/
def holding (c : Cut) : BlockedBitpacker :=
  ⟨bytesOfAll c.blocks ++ List.replicate 8 0, c.buffer, entriesFrom 0 c.blocks⟩

theorem flush_holding (c : Cut) : (holding c).flush = holding c.flush := by
  obtain ⟨blocks, buffer⟩ := c
  cases buffer with
  | nil => rfl
  | cons v buffer =>
    have htake : (bytesOfAll blocks ++ List.replicate 8 0).take
        ((bytesOfAll blocks ++ List.replicate 8 (0 : UInt8)).length - 8) = bytesOfAll blocks := by
      simp
    rw [Cut.flush, if_neg (List.cons_ne_nil _ _)]
    show BlockedBitpacker.mk _ _ _ = BlockedBitpacker.mk _ _ _
    dsimp only [holding]
    rw [htake, entriesFrom_append, Nat.zero_add, bytesOfAll, bytesOfAll, List.flatMap_append,
      List.flatMap_singleton]
    rfl

theorem add_holding (c : Cut) (val : UInt64) : (holding c).add val = holding (c.add val) := by
  rw [BlockedBitpacker.add, Cut.add]
  show (if (c.buffer ++ [val]).length = BLOCK_SIZE then
    (holding ⟨c.blocks, c.buffer ++ [val]⟩).flush else holding ⟨c.blocks, c.buffer ++ [val]⟩) = _
  split
  · rw [flush_holding, Cut.flush, if_neg]
    exact List.append_ne_nil_of_right_ne_nil _ (List.cons_ne_nil _ _)
  · rfl

/-- **Any calls.** The packer holds the blocks that were cut and the buffer. -/
theorem run_eq (ops : List Op) : BlockedBitpacker.run ops = holding (cutOf ops) := by
  induction ops using List.reverseRecOn with
  | nil => rfl
  | append_singleton ops op ih =>
    rw [cutOf_append, BlockedBitpacker.run, List.foldl_append]
    show Op.apply (BlockedBitpacker.run ops) op = _
    rw [ih]
    cases op with
    | add val => exact add_holding _ val
    | flush => exact flush_holding _

/-! ### Reading -/

/-- Up to this size the packer reads its blocks: an entry has seven bytes for an offset, and the
    assertion compares with the length of the data as a `u32`. -/
def sizeLimit : Profile → Nat
  | .release => 2 ^ 56
  | .test => 2 ^ 32

variable {block : List UInt64}

theorem bounds_spec (hne : block ≠ []) :
    ∀ v ∈ block, (boundsOf block).1 ≤ v ∧ v ≤ (boundsOf block).2 :=
  (minmax_spec hne).2.2

/-- The distances of a block fit its width. -/
theorem packable_block (hne : block ≠ []) :
    Packable (widthOfBlock block) (block.map (· - (boundsOf block).1)) := by
  refine Packable.of_le_max (UInt64.toNat_lt _) ?_
  intro distance hmem
  obtain ⟨v, hv, rfl⟩ := List.mem_map.mp hmem
  obtain ⟨hmin, hmax⟩ := bounds_spec hne v hv
  rw [UInt64.toNat_sub_of_le _ _ hmin, UInt64.toNat_sub_of_le _ _
    (UInt64.le_trans hmin hmax)]
  have hle := UInt64.le_iff_toNat_le.mp hmax
  omega

/-- What the bytes of a block spell, and how many there are. -/
theorem bytesOf_spec (hne : block ≠ []) :
    ofLE (bytesOf block) =
      packed (withWidth (widthOfBlock block) (block.map (· - (boundsOf block).1))) ∧
    (bytesOf block).length = (block.length * widthOfBlock block + 7) / 8 := by
  obtain ⟨hspell, hlength⟩ := BitPacker.pack_spec (packable_block hne).mem_withWidth
  have hclose : BitPacker.pack (withWidth (widthOfBlock block)
      (block.map (· - (boundsOf block).1))) = bytesOf block ++ List.replicate 7 0 :=
    (List.append_assoc _ _ _).symm
  rw [hclose, ofLE_append, ofLE_replicate_zero, Nat.mul_zero, Nat.add_zero] at hspell
  rw [hclose, List.length_append, List.length_replicate, totalBits_withWidth,
    List.length_map] at hlength
  exact ⟨hspell, by omega⟩

/-- No block was cut short. -/
def Cut.Full (c : Cut) : Prop := ∀ block ∈ c.blocks, block.length = BLOCK_SIZE

theorem Cut.Sized.length_flatten {c : Cut} (h : c.Sized) :
    c.blocks.flatten.length ≤ c.blocks.length * BLOCK_SIZE ∧
      (c.blocks.flatten.length = c.blocks.length * BLOCK_SIZE ↔ c.Full) :=
  length_flatten_le fun block hblock => (h.block block hblock).2

variable {back front : List (List UInt64)}

/-- The entry of a block. -/
theorem entry_at {c : Cut} (hsplit : c.blocks = front ++ block :: back) :
    (holding c).offsetAndBits[front.length]? =
      some (EntryMetaData.new (bytesOfAll front).length (widthOfBlock block)
        (boundsOf block).1) := by
  have happend : ∀ (offset : Nat) (xs ys : List (List UInt64)),
      ∃ rest, entriesFrom offset (xs ++ ys) = entriesFrom offset xs ++ rest := by
    intro offset xs ys
    induction xs generalizing offset with
    | nil => exact ⟨_, rfl⟩
    | cons x xs ih =>
      obtain ⟨rest, hrest⟩ := ih (offset + (bytesOf x).length)
      exact ⟨rest, by simp [entriesFrom, hrest]⟩
  have hsplit' : c.blocks = (front ++ [block]) ++ back := by
    simp [hsplit]
  obtain ⟨rest, hrest⟩ := happend 0 (front ++ [block]) back
  have hlength := length_entriesFrom 0 front
  show (entriesFrom 0 c.blocks)[front.length]? = _
  rw [hsplit', hrest, entriesFrom_append, List.append_assoc, List.getElem?_append_right hlength.le,
    hlength, Nat.sub_self, Nat.zero_add]
  rfl

theorem data_at {c : Cut} (hsplit : c.blocks = front ++ block :: back) :
    (holding c).compressedBlocks =
      bytesOfAll front ++ (bytesOf block ++ (bytesOfAll back ++ List.replicate 8 0)) := by
  show bytesOfAll c.blocks ++ List.replicate 8 0 = _
  simp [hsplit, bytesOfAll]

/-- **An index of a block** is read from the bytes behind the offset of the block. -/
theorem get_at {c : Cut} (profile : Profile) (hsplit : c.blocks = front ++ block :: back)
    (hoffset : (bytesOfAll front).length < 2 ^ 56) {i : Nat} (hi : i < BLOCK_SIZE) :
    (holding c).get profile (front.length * BLOCK_SIZE + i) =
      match (BitUnpacker.new (widthOfBlock block)).getIn profile i
          (bytesOf block ++ (bytesOfAll back ++ List.replicate 8 0)) with
      | none => none
      | some unpacked =>
        if profile = .test ∧ 2 ^ 64 ≤ unpacked + (boundsOf block).1.toNat then none
        else some (UInt64.ofNat (unpacked + (boundsOf block).1.toNat)) := by
  have hdiv : (front.length * BLOCK_SIZE + i) / BLOCK_SIZE = front.length := by
    unfold BLOCK_SIZE at hi ⊢
    omega
  have hmod : (front.length * BLOCK_SIZE + i) % BLOCK_SIZE = i := by
    unfold BLOCK_SIZE at hi ⊢
    omega
  have hwidth : widthOfBlock block ≤ 64 := computeNumBits_le _
  obtain ⟨hoff, hbits⟩ := EntryMetaData.decode_new hoffset (by omega : widthOfBlock block < 2 ^ 8)
    (boundsOf block).1
  unfold BlockedBitpacker.get
  dsimp only
  rw [hdiv, hmod, entry_at hsplit]
  have hbase : (EntryMetaData.new (bytesOfAll front).length (widthOfBlock block)
    (boundsOf block).1).baseValue = (boundsOf block).1 := rfl
  simp [hoff, hbits, hbase, data_at hsplit]

section Reading

variable {profile : Profile} {c : Cut} (hsized : c.Sized)
  (hlimit : (holding c).compressedBlocks.length < sizeLimit profile)

include hsized hlimit

/-- **A value of a block** is read, whether the block is full or not. -/
theorem get_block {front back : List (List UInt64)} {block : List UInt64}
    (hsplit : c.blocks = front ++ block :: back) {i : Nat} {v : UInt64} (hv : block[i]? = some v) :
    (holding c).get profile (front.length * BLOCK_SIZE + i) = some v := by
  have hmem : block ∈ c.blocks := hsplit ▸ List.mem_append_right _ List.mem_cons_self
  obtain ⟨hne, hle⟩ := hsized.block block hmem
  obtain ⟨hi, -⟩ := List.getElem?_eq_some_iff.mp hv
  obtain ⟨hspell, hbytes⟩ := bytesOf_spec hne
  have hwidth : widthOfBlock block ≤ 64 := computeNumBits_le _
  have hlength := congrArg List.length (data_at hsplit)
  rw [List.length_append, List.length_append, List.length_append, List.length_replicate] at hlength
  have hoffset : (bytesOfAll front).length < 2 ^ 56 := by
    have hsmall : sizeLimit profile ≤ 2 ^ 56 := by cases profile <;> decide
    omega
  rw [get_at profile hsplit hoffset (hi.trans_le hle)]
  generalize hrest : bytesOfAll back ++ List.replicate 8 0 = rest
  have hpad : (bytesOfAll back).length + 8 = rest.length := by
    rw [← hrest, List.length_append, List.length_replicate]
  have htotal : totalBits (withWidth (widthOfBlock block) (block.map (· - (boundsOf block).1))) =
      block.length * widthOfBlock block := by
    rw [totalBits_withWidth, List.length_map]
  -- the block and what follows it read as one packed stream with a tail
  obtain ⟨post, hpacked⟩ := exists_packed_append hspell (by omega) rest
  have hsmall : i * widthOfBlock block ≤ 128 * 64 :=
    Nat.mul_le_mul (hi.le.trans hle) hwidth
  have hread : (BitUnpacker.new (widthOfBlock block)).getIn profile i (bytesOf block ++ rest) =
      some (v - (boundsOf block).1).toNat := by
    rw [withWidth_eq_map] at hpacked
    refine BitUnpacker.getIn_pack (packable_block hne).width ?_ post hpacked ?_ ?_ ?_
    · intro n hn
      obtain ⟨w, hw, rfl⟩ := List.mem_map.mp hn
      exact (packable_block hne).fits w hw
    · simp [hv]
    · exact Or.inr (by omega)
    -- at width zero nothing is read; otherwise the entry ends inside the block
    · by_cases hzero : widthOfBlock block = 0
      · exact Or.inl hzero
      · have hnext : (i + 1) * widthOfBlock block ≤ block.length * widthOfBlock block :=
          Nat.mul_le_mul_right _ hi
        rw [Nat.succ_mul] at hnext
        right
        -- the test profile keeps the length of the buffer in 32 bits
        cases profile with
        | release =>
          show _ ≤ (bytesOf block ++ rest).length
          rw [List.length_append]
          omega
        | test =>
          have hfit : (holding c).compressedBlocks.length < 2 ^ 32 := hlimit
          show _ ≤ (bytesOf block ++ rest).length % 2 ^ 32
          rw [List.length_append, Nat.mod_eq_of_lt (by omega)]
          omega
  obtain ⟨hmin, -⟩ := bounds_spec hne v (List.mem_of_getElem? hv)
  -- the stored entry is the distance to the minimum, so adding it back does not wrap
  have hsum : (v - (boundsOf block).1).toNat + (boundsOf block).1.toNat = v.toNat := by
    rw [UInt64.toNat_sub_of_le _ _ hmin]
    have hle := UInt64.le_iff_toNat_le.mp hmin
    omega
  have hv64 := v.toNat_lt
  rw [hread]
  dsimp only
  rw [hsum, if_neg (by omega), UInt64.ofNat_toNat]

omit hlimit in
/-- A value that is still in the buffer. -/
theorem get_buffer {i : Nat} {v : UInt64} (hv : c.buffer[i]? = some v) :
    (holding c).get profile (c.blocks.length * BLOCK_SIZE + i) = some v := by
  obtain ⟨hi, -⟩ := List.getElem?_eq_some_iff.mp hv
  have hbuffer := hsized.buffer
  have hdiv : (c.blocks.length * BLOCK_SIZE + i) / BLOCK_SIZE = c.blocks.length := by
    unfold BLOCK_SIZE at hbuffer ⊢
    omega
  have hmod : (c.blocks.length * BLOCK_SIZE + i) % BLOCK_SIZE = i := by
    unfold BLOCK_SIZE at hbuffer ⊢
    omega
  have hnone : (holding c).offsetAndBits[c.blocks.length]? = none := by
    rw [List.getElem?_eq_none_iff]
    exact (length_entriesFrom 0 c.blocks).le
  unfold BlockedBitpacker.get
  dsimp only
  rw [hdiv, hmod, hnone]
  exact hv

/-! ### The packer as a list -/

/-- **Reading by index**, when all blocks are full. -/
theorem get_eq_of_full (hfull : c.Full) {i : Nat} {v : UInt64} (hv : c.vals[i]? = some v) :
    (holding c).get profile i = some v := by
  have hpos : 0 < BLOCK_SIZE := Nat.succ_pos 127
  have hflat := hsized.length_flatten.2.mpr hfull
  by_cases hi : i < c.blocks.flatten.length
  · have hv' : c.blocks.flatten[i]? = some v := by
      rwa [Cut.vals, List.getElem?_append_left hi] at hv
    obtain ⟨block, hblock, hvalue⟩ := getElem?_chunks hpos hv'
    rw [chunks_flatten hpos hfull] at hblock
    obtain ⟨hk, heq⟩ := List.getElem?_eq_some_iff.mp hblock
    have hsplit : c.blocks = c.blocks.take (i / BLOCK_SIZE) ++
        block :: c.blocks.drop (i / BLOCK_SIZE + 1) := by
      conv_lhs => rw [← List.take_append_drop (i / BLOCK_SIZE) c.blocks,
        List.drop_eq_getElem_cons hk,
        heq]
    have hget := get_block hsized hlimit hsplit hvalue
    rwa [List.length_take, Nat.min_eq_left hk.le, Nat.div_add_mod'] at hget
  · have hv' : c.buffer[i - c.blocks.flatten.length]? = some v := by
      rwa [Cut.vals, List.getElem?_append_right (Nat.le_of_not_lt hi)] at hv
    have hget := @get_buffer profile _ hsized _ _ hv'
    rwa [← hflat, Nat.add_sub_cancel' (Nat.le_of_not_lt hi)] at hget

omit hlimit in
/-- Of a block that is shorter, 128 values would be read as well. -/
theorem full_of_iter (h : (holding c).iter profile = some c.vals) : c.Full := by
  obtain ⟨read, hread, happend⟩ := Option.map_eq_some_iff.mp h
  have hlength := ((mapM_range_eq_some_iff _ _ _).mp hread).1
  have hentries : (holding c).offsetAndBits.length = c.blocks.length := length_entriesFrom 0 c.blocks
  rw [List.append_cancel_right happend, hentries] at hlength
  exact hsized.length_flatten.2.mp hlength

/-- **Iterating**, when all blocks are full. -/
theorem iter_eq_of_full (hfull : c.Full) : (holding c).iter profile = some c.vals := by
  have hentries : (holding c).offsetAndBits.length = c.blocks.length := length_entriesFrom 0 c.blocks
  have hflat := hsized.length_flatten.2.mpr hfull
  have hread : (List.range (c.blocks.length * BLOCK_SIZE)).mapM ((holding c).get profile) =
      some c.blocks.flatten := by
    rw [mapM_range_eq_some_iff]
    refine ⟨hflat, fun i v hv => get_eq_of_full hsized hlimit hfull ?_⟩
    obtain ⟨hi, -⟩ := List.getElem?_eq_some_iff.mp hv
    rwa [Cut.vals, List.getElem?_append_left hi]
  rw [BlockedBitpacker.iter, hentries, hread]
  rfl

end Reading

/-! ### Whole blocks -/

/-- Each `flush` is called when the number of values added is a multiple of the size of a block. -/
def FlushesWhole (ops : List Op) : Prop :=
  ∀ front back, ops = front ++ .flush :: back → (addsOf front).length % BLOCK_SIZE = 0

theorem flushesWhole_append_add (ops : List Op) (val : UInt64) :
    FlushesWhole (ops ++ [.add val]) ↔ FlushesWhole ops := by
  constructor
  · intro h front back hops
    exact h front (back ++ [.add val]) (by rw [hops, List.append_assoc, List.cons_append])
  · intro h front back hops
    rcases List.eq_nil_or_concat back with rfl | ⟨back, last, rfl⟩
    · have hlast := (List.append_inj' hops rfl).2
      exact absurd (List.cons.inj hlast).1 Op.noConfusion
    · rw [List.concat_eq_append, ← List.cons_append, ← List.append_assoc] at hops
      exact h front back (List.append_inj' hops rfl).1

theorem flushesWhole_append_flush (ops : List Op) :
    FlushesWhole (ops ++ [.flush]) ↔
      FlushesWhole ops ∧ (addsOf ops).length % BLOCK_SIZE = 0 := by
  constructor
  · intro h
    refine ⟨fun front back hops => ?_, h ops [] rfl⟩
    exact h front (back ++ [.flush]) (by rw [hops, List.append_assoc, List.cons_append])
  · rintro ⟨h, hlast⟩ front back hops
    rcases List.eq_nil_or_concat back with rfl | ⟨back, last, rfl⟩
    · rwa [(List.append_inj' hops rfl).1] at hlast
    · rw [List.concat_eq_append, ← List.cons_append, ← List.append_assoc] at hops
      exact h front back (List.append_inj' hops rfl).1

/-- When no block is short, the buffer holds what is left over from whole blocks. -/
theorem Cut.Sized.length_buffer {c : Cut} (h : c.Sized) (hfull : c.Full) :
    c.vals.length % BLOCK_SIZE = c.buffer.length := by
  have hflat := h.length_flatten.2.mpr hfull
  rw [Cut.vals, List.length_append, hflat, Nat.mul_comm, Nat.mul_add_mod,
    Nat.mod_eq_of_lt h.buffer]

theorem full_add (c : Cut) (val : UInt64) : (c.add val).Full ↔ c.Full := by
  rw [Cut.add]
  split
  · constructor
    · exact fun h block hblock => h block (List.mem_append_left _ hblock)
    · intro h block hblock
      rcases List.mem_append.mp hblock with hblock | hblock
      · exact h block hblock
      · rwa [List.mem_singleton.mp hblock]
  · exact Iff.rfl

theorem full_flush {c : Cut} (hsized : c.Sized) :
    c.flush.Full ↔ c.Full ∧ c.buffer.length = 0 := by
  rw [Cut.flush]
  split
  · rename_i hempty
    rw [hempty]
    exact (and_iff_left rfl).symm
  · rename_i hne
    have hbuffer := hsized.buffer
    constructor
    · intro h
      -- the buffer is a block now, and it is too short
      have hlength := h c.buffer (List.mem_append_right _ (List.mem_singleton_self _))
      omega
    · rintro ⟨-, hlength⟩
      exact absurd (List.length_eq_zero_iff.mp hlength) hne

/-- **Blocks of full size.** They are what calls lead to that flush at whole blocks only. -/
theorem full_cutOf (ops : List Op) : (cutOf ops).Full ↔ FlushesWhole ops := by
  induction ops using List.reverseRecOn with
  | nil =>
    constructor
    · intro _ front back hops
      exact absurd hops.symm (List.append_ne_nil_of_right_ne_nil _ (List.cons_ne_nil _ _))
    · exact fun _ block hblock => absurd hblock List.not_mem_nil
  | append_singleton ops op ih =>
    rw [cutOf_append]
    cases op with
    | add val => rw [flushesWhole_append_add, ← ih]; exact full_add _ val
    | flush =>
      rw [flushesWhole_append_flush, ← ih]
      refine (full_flush (sized_cutOf ops)).trans (and_congr_right fun hfull => ?_)
      rw [← (sized_cutOf ops).length_buffer hfull, vals_cutOf]

/-! ### The size of the data -/

/-- How many bytes some values take when all blocks are whole: 16 bytes for each bit of a width. -/
def packedSize (vals : List UInt64) : Nat :=
  ((chunks BLOCK_SIZE (vals.take (vals.length / BLOCK_SIZE * BLOCK_SIZE))).map
    (16 * widthOfBlock ·)).sum + 8

variable {blocks : List (List UInt64)}

theorem length_bytesOfAll (hfull : ∀ block ∈ blocks, block.length = BLOCK_SIZE) :
    (bytesOfAll blocks).length = (blocks.map (16 * widthOfBlock ·)).sum := by
  induction blocks with
  | nil => rfl
  | cons block blocks ih =>
    have hlength := hfull block List.mem_cons_self
    have hne : block ≠ [] := by
      rintro rfl
      exact absurd hlength (by decide)
    have hbytes : (bytesOf block).length = 16 * widthOfBlock block := by
      rw [(bytesOf_spec hne).2, hlength, BLOCK_SIZE]
      omega
    rw [bytesOfAll, List.flatMap_cons, List.length_append, List.map_cons, List.sum_cons, hbytes]
    exact congrArg _ (ih fun block hblock => hfull block (List.mem_cons_of_mem _ hblock))

theorem Cut.Sized.packedSize_eq {c : Cut} (h : c.Sized) (hfull : c.Full) :
    packedSize c.vals = (holding c).compressedBlocks.length := by
  have hpos : 0 < BLOCK_SIZE := Nat.succ_pos 127
  have hflat := h.length_flatten.2.mpr hfull
  have hwhole : c.vals.length / BLOCK_SIZE * BLOCK_SIZE = c.blocks.flatten.length := by
    simp [Cut.vals, hflat, Nat.mul_comm c.blocks.length, Nat.mul_add_div hpos,
      Nat.div_eq_of_lt h.buffer]
  rw [packedSize, hwhole, Cut.vals, List.take_left, chunks_flatten hpos hfull]
  show _ = (bytesOfAll c.blocks ++ List.replicate 8 0).length
  rw [List.length_append, List.length_replicate, length_bytesOfAll hfull]

/-- The block that a byte of the data belongs to. -/
theorem exists_block_of_lt {t : Nat} (ht : t < (bytesOfAll blocks).length) :
    ∃ front block back, blocks = front ++ block :: back ∧ (bytesOfAll front).length ≤ t ∧
      t < (bytesOfAll front).length + (bytesOf block).length := by
  induction blocks generalizing t with
  | nil => exact absurd ht (Nat.not_lt_zero _)
  | cons block blocks ih =>
    have hcons : ∀ rest, (bytesOfAll (block :: rest)).length =
        (bytesOf block).length + (bytesOfAll rest).length := fun rest => by
      simp [bytesOfAll]
    by_cases hlt : t < (bytesOf block).length
    · exact ⟨[], block, blocks, rfl, Nat.zero_le _, by exact hlt.trans_le (by omega)⟩
    · rw [hcons] at ht
      obtain ⟨front, found, back, rfl, hle, hbelow⟩ :=
        @ih (t - (bytesOf block).length) (by omega)
      exact ⟨block :: front, found, back, rfl, by rw [hcons]; omega, by rw [hcons]; omega⟩

/-- From 2^32 bytes on there is a block behind whose offset so many bytes follow that their number
    as a `u32` is too small for its last value. -/
theorem exists_get_none {c : Cut} (hfull : c.Full)
    (hlarge : 2 ^ 32 ≤ (holding c).compressedBlocks.length) :
    ∃ i v, c.vals[i]? = some v ∧ (holding c).get .test i = none := by
  have htotal : (holding c).compressedBlocks.length = (bytesOfAll c.blocks).length + 8 := by
    show (bytesOfAll c.blocks ++ List.replicate 8 0).length = _
    simp
  obtain ⟨front, block, back, hsplit, hle, hlt⟩ :=
    @exists_block_of_lt c.blocks ((holding c).compressedBlocks.length % 2 ^ 32) (by omega)
  have hlength := hfull block (hsplit ▸ List.mem_append_right _ List.mem_cons_self)
  have hne : block ≠ [] := by
    rintro rfl
    exact absurd hlength (by decide)
  have hbytes : (bytesOf block).length = 16 * widthOfBlock block := by
    rw [(bytesOf_spec hne).2, hlength, BLOCK_SIZE]
    omega
  have hwidth : widthOfBlock block ≤ 64 := computeNumBits_le _
  have hdata := congrArg List.length (data_at hsplit)
  rw [List.length_append] at hdata
  -- the last value of the block
  have hfront : front.flatten.length = front.length * BLOCK_SIZE :=
    (length_flatten_le fun l hl =>
      (hfull l (hsplit ▸ List.mem_append_left _ hl)).le).2.mpr
        fun l hl => hfull l (hsplit ▸ List.mem_append_left _ hl)
  have hlast : (127 : Nat) < block.length := by
    rw [hlength, BLOCK_SIZE]
    omega
  refine ⟨front.length * BLOCK_SIZE + 127, block[127], ?_, ?_⟩
  · rw [Cut.vals, hsplit, List.flatten_append, List.flatten_cons, List.append_assoc,
      List.getElem?_append_right (by omega), hfront, Nat.add_sub_cancel_left, List.append_assoc,
      List.getElem?_append_left hlast, List.getElem?_eq_getElem hlast]
  · rw [get_at .test hsplit (by omega) (by decide)]
    cases hread : (BitUnpacker.new (widthOfBlock block)).getIn .test 127
        (bytesOf block ++ (bytesOfAll back ++ List.replicate 8 0)) with
    | none => rfl
    | some unpacked =>
      have hroom := (BitUnpacker.of_getIn_test hread).2
      rcases hroom with hzero | hroom
      · omega
      · change _ ≤ (bytesOf block ++ (bytesOfAll back ++ List.replicate 8 0)).length % 2 ^ 32
          at hroom
        omega

/-- A packer reads like a list: each index, and going through it. -/
def BlockedBitpacker.RefinesList (profile : Profile) (b : BlockedBitpacker) (vals : List UInt64) :
    Prop :=
  (∀ i v, vals[i]? = some v → b.get profile i = some v) ∧ b.iter profile = some vals

/-- **The packer as a list of the values added.** With the checks it is just when each `flush` is
    called at a whole number of blocks and the data stays below 2^32 bytes: a block that is cut short
    moves the values behind it, and is read as if it had 128. Without the checks the data may have as
    many bytes as the seven bytes of an offset count. -/
theorem refinesList_iff (ops : List Op) :
    ((BlockedBitpacker.run ops).RefinesList .test (addsOf ops) ↔
      FlushesWhole ops ∧ packedSize (addsOf ops) < 2 ^ 32) ∧
    (packedSize (addsOf ops) < 2 ^ 56 →
      ((BlockedBitpacker.run ops).RefinesList .release (addsOf ops) ↔ FlushesWhole ops)) := by
  have hsized := sized_cutOf ops
  have hiff := full_cutOf ops
  have hread : ∀ profile : Profile, FlushesWhole ops → packedSize (addsOf ops) < sizeLimit profile →
      (BlockedBitpacker.run ops).RefinesList profile (addsOf ops) := by
    intro profile hwhole hlimit
    have hfull := hiff.mpr hwhole
    rw [← vals_cutOf, hsized.packedSize_eq hfull] at hlimit
    rw [run_eq, ← vals_cutOf]
    exact ⟨fun i v hv => get_eq_of_full hsized hlimit hfull hv,
      iter_eq_of_full hsized hlimit hfull⟩
  have hwhole : ∀ profile : Profile,
      (BlockedBitpacker.run ops).RefinesList profile (addsOf ops) → FlushesWhole ops := by
    intro profile h
    rw [run_eq, ← vals_cutOf] at h
    exact hiff.mp (full_of_iter hsized h.2)
  refine ⟨⟨fun h => ⟨hwhole .test h, ?_⟩, fun h => hread .test h.1 h.2⟩,
    fun hsmall => ⟨hwhole .release, fun h => hread .release h hsmall⟩⟩
  have hfull := hiff.mpr (hwhole .test h)
  by_contra hlarge
  rw [← vals_cutOf, hsized.packedSize_eq hfull, Nat.not_lt] at hlarge
  obtain ⟨i, v, hv, hnone⟩ := exists_get_none hfull hlarge
  rw [run_eq, ← vals_cutOf] at h
  rw [h.1 i v hv] at hnone
  cases hnone

theorem flushesWhole_map_add (vals : List UInt64) : FlushesWhole (vals.map .add) := by
  rintro front back hops
  have hmem : Op.flush ∈ vals.map Op.add := by
    rw [hops]
    exact List.mem_append_right _ List.mem_cons_self
  obtain ⟨_, -, hop⟩ := List.mem_map.mp hmem
  cases hop

/-- A whole block, a `flush`, and a value behind it. -/
theorem refinesList_iff_flush :
    let ops := (List.replicate 128 7).map .add ++ [.flush] ++ [.add 9]
    (BlockedBitpacker.run ops).RefinesList .test (addsOf ops) ∧
      (BlockedBitpacker.run ops).RefinesList .release (addsOf ops) := by
  intro ops
  have hwhole : FlushesWhole ops :=
    (flushesWhole_append_add _ 9).mpr
      ((flushesWhole_append_flush _).mpr ⟨flushesWhole_map_add _, by decide +kernel⟩)
  have hsize : packedSize (addsOf ops) < 2 ^ 32 := by decide +kernel
  obtain ⟨htest, hrelease⟩ := refinesList_iff ops
  exact ⟨htest.mpr ⟨hwhole, hsize⟩, (hrelease (hsize.trans (by decide))).mpr hwhole⟩

/-- One value and a `flush`: the block is gone through as if it had 128 values. -/
theorem flush_cuts_block :
    ¬ (BlockedBitpacker.run [.add 5, .flush]).RefinesList .release (addsOf [.add 5, .flush]) := by
  rintro ⟨-, hiter⟩
  obtain ⟨read, hread, happend⟩ := Option.map_eq_some_iff.mp hiter
  have hlength := ((mapM_range_eq_some_iff _ _ _).mp hread).1
  have htotal := congrArg List.length happend
  rw [List.length_append, hlength] at htotal
  exact absurd htotal (by decide)

end TeaclaveCrates.Tantivy.FastFieldCodecs
