import TeaclaveCrates.Lib.BitStream
import TeaclaveCrates.Tantivy.SSTable

namespace TeaclaveCrates.Tantivy

open TeaclaveCrates.Lib

/-!
# tantivy — blocks of numbers

`postings/compression`: full blocks of 128 numbers are packed, what is left behind them is written in
variable-length integers.

* `compressInto`, `uncompressOne` — the variable-length integers;
* `BitPacker` — `BitPacker4x`, which packs the full blocks; a parameter;
* `BitPacker.Lawful` — what is relied on of it;
* `tightPacker` — a packer of this kind.

`u32` (as `DocId`) and `usize` values are numbers, with the wrapping of a release build where an
operation could overflow; `none` is a panic.
-/

/-- `TERMINATED`, the sentinel behind the last document. -/
def TERMINATED : Nat := 2 ^ 31 - 1

def COMPRESSION_BLOCK_SIZE : Nat := 128

def COMPRESSED_BLOCK_MAX_SIZE : Nat := COMPRESSION_BLOCK_SIZE * 4

/-- `IndexRecordOption`. -/
inductive IndexRecordOption
  | basic
  | withFreqs
  | withFreqsAndPositions
deriving DecidableEq, Repr

/-- `a - b` on `u32`. -/
def wrappingSub (a b : Nat) : Nat := (a + 2 ^ 32 - b) % 2 ^ 32

/-! ### Variable-length integers -/

/-- The integers one after the other, where they fit into the buffer of the encoder. -/
def compressInto (input : List Nat) : Option Bytes :=
  let written := input.flatMap (vint true 5)
  if written.length ≤ COMPRESSED_BLOCK_MAX_SIZE then some written else none

/-- `vint::compress_unsorted`. -/
def compressUnsorted (input : List Nat) : Option Bytes := compressInto input

/-- The inner loop of both readers: an integer is added to `result`. -/
def uncompressOne : Bytes → Nat → Nat → Option (Nat × Bytes)
  | [], _, _ => none
  | b :: bs, shift, result =>
    let result := (result + (b.toNat % 128) <<< (shift % 32) % 2 ^ 32) % 2 ^ 32
    if 128 ≤ b.toNat then some (result, bs) else uncompressOne bs (shift + 7) result

/-- Reading from the middle: the digits of `n` on top of the bits that are there. -/
theorem uncompressOne_vint (rest : Bytes) (len : Nat) : ∀ n shift result, n < 128 ^ (len + 1) →
    shift + 7 * len < 32 → result + n * 2 ^ shift < 2 ^ 32 →
      uncompressOne (vint true (len + 1) n ++ rest) shift result =
        some (result + n * 2 ^ shift, rest) := by
  -- one digit, whatever its flag
  have hstep : ∀ (flag : Bool) (n shift result : Nat) (bs : Bytes), shift < 32 →
      result + n % 128 * 2 ^ shift < 2 ^ 32 →
      uncompressOne (vintByte flag n :: bs) shift result =
        if flag then some (result + n % 128 * 2 ^ shift, bs)
        else uncompressOne bs (shift + 7) (result + n % 128 * 2 ^ shift) := by
    intro flag n shift result bs hshift hfit
    have hdigit : (vintByte flag n).toNat % 128 = n % 128 := by
      rw [toNat_vintByte]
      split <;> omega
    have hflag : 128 ≤ (vintByte flag n).toNat ↔ flag = true := by
      rw [toNat_vintByte]
      cases flag
      · simp
        omega
      · simp
    have hsum : (result + (n % 128) <<< (shift % 32) % 2 ^ 32) % 2 ^ 32 =
        result + n % 128 * 2 ^ shift := by
      rw [Nat.mod_eq_of_lt hshift, Nat.shiftLeft_eq, Nat.mod_eq_of_lt (a := _ * _) (by omega),
        Nat.mod_eq_of_lt hfit]
    rw [uncompressOne]
    simp only [hdigit, hsum, hflag]
  induction len with
  | zero =>
    intro n shift result hn hshift hfit
    have hmod : n % 128 = n := Nat.mod_eq_of_lt (by omega)
    rw [vint, if_pos (by omega), List.cons_append, List.nil_append,
      hstep true n shift result rest (by omega) (by rw [hmod]; exact hfit), if_pos rfl, hmod]
  | succ len ih =>
    intro n shift result hn hshift hfit
    rw [mul_two_pow_eq] at hfit ⊢
    rw [vint]
    by_cases hlast : n / 128 = 0
    · simp [hstep true n shift result rest (by omega) (by omega), hlast]
    · rw [if_neg hlast, List.cons_append, hstep _ n shift result _ (by omega) (by omega),
        if_neg (by decide), ih (n / 128) (shift + 7) _ ?_ (by omega) (by omega), Nat.add_assoc]
      exact Nat.div_lt_of_lt_mul (by omega)

/-- A `u32` on top of `result`. -/
theorem uncompressOne_vint_five (rest : Bytes) {n result : Nat} (h : result + n < 2 ^ 32) :
    uncompressOne (vint true 5 n ++ rest) 0 result = some (result + n, rest) := by
  have hread := uncompressOne_vint rest 4 n 0 result (by omega) (by decide) (by omega)
  rwa [Nat.pow_zero, Nat.mul_one] at hread

/-! ### Blocks -/

/-- `BitPacker4x`: the number of bits a block needs, the packed block, and the block
    with the number of bytes it took. -/
structure BitPacker where
  numBits : List Nat → Nat
  numBitsSorted : Nat → List Nat → Nat
  compress : List Nat → Nat → Bytes
  compressSorted : Nat → List Nat → Nat → Bytes
  decompress : Bytes → Nat → Option (List Nat × Nat)
  decompressSorted : Nat → Bytes → Nat → Option (List Nat × Nat)

/-- `compressed_block_size`. -/
def compressedBlockSize (numBits : Nat) : Nat := numBits * COMPRESSION_BLOCK_SIZE / 8

/-- `compress_block_unsorted`. -/
def BitPacker.compressBlockUnsorted (packer : BitPacker) (block : List Nat) : Nat × Bytes :=
  let numBits := packer.numBits block
  (numBits, packer.compress block numBits)

/-- `BlockDecoder`. -/
structure BlockDecoder where
  output : List Nat
  outputLen : Nat
deriving DecidableEq, Repr

namespace BlockDecoder

/-- `with_val`. -/
def withVal (val : Nat) : BlockDecoder := ⟨List.replicate COMPRESSION_BLOCK_SIZE val, 0⟩

/-- `uncompress_block_unsorted`. -/
def uncompressBlockUnsorted (packer : BitPacker) (data : Bytes) (numBits : Nat) :
    Option (BlockDecoder × Nat) := do
  let (output, consumed) ← packer.decompress data numBits
  return (⟨output, COMPRESSION_BLOCK_SIZE⟩, consumed)

end BlockDecoder

/-! ### What is relied on of the packer -/

/-- A block of `u32` values. -/
structure IsBlock (block : List Nat) : Prop where
  length : block.length = COMPRESSION_BLOCK_SIZE
  lt : ∀ v ∈ block, v < 2 ^ 32

/-- `BitPacker4x` inverts its own compression: at the number of bits it computes for a
    block it writes that many bits for each value, and reads the block back, whatever
    follows.  For a sorted block every delta fits in its number of bits. -/
structure BitPacker.Lawful (packer : BitPacker) : Prop where
  numBits_le : ∀ {block}, IsBlock block → packer.numBits block ≤ 32
  length_compress : ∀ {block}, IsBlock block →
    (packer.compress block (packer.numBits block)).length =
      compressedBlockSize (packer.numBits block)
  decompress_compress : ∀ {block}, IsBlock block → ∀ rest,
    packer.decompress (packer.compress block (packer.numBits block) ++ rest)
      (packer.numBits block) = some (block, compressedBlockSize (packer.numBits block))
  numBitsSorted_le : ∀ {offset block}, IsBlock block → (offset :: block).Pairwise (· ≤ ·) →
    packer.numBitsSorted offset block ≤ 32
  delta_lt : ∀ {offset block}, IsBlock block → (offset :: block).Pairwise (· ≤ ·) →
    (offset :: block).IsChain fun a b => b - a < 2 ^ packer.numBitsSorted offset block
  length_compressSorted : ∀ {offset block}, IsBlock block → (offset :: block).Pairwise (· ≤ ·) →
    (packer.compressSorted offset block (packer.numBitsSorted offset block)).length =
      compressedBlockSize (packer.numBitsSorted offset block)
  decompressSorted_compressSorted : ∀ {offset block}, IsBlock block →
    (offset :: block).Pairwise (· ≤ ·) → ∀ rest,
    packer.decompressSorted offset
      (packer.compressSorted offset block (packer.numBitsSorted offset block) ++ rest)
      (packer.numBitsSorted offset block) =
        some (block, compressedBlockSize (packer.numBitsSorted offset block))

/-! ### A packer with the fewest bits -/

/-- The fewest bits, up to 32, that all values fit in. -/
def width (block : List Nat) : Nat :=
  ((List.range 32).find? fun b => block.all (· < 2 ^ b)).getD 32

theorem width_le (block : List Nat) : width block ≤ 32 := by
  rw [width]
  cases h : (List.range 32).find? fun b => block.all (· < 2 ^ b) with
  | none => exact Nat.le_refl _
  | some b => exact (List.mem_range.mp (List.mem_of_find?_eq_some h)).le

variable {block : List Nat}

theorem lt_two_pow_width (h : ∀ v ∈ block, v < 2 ^ 32) :
    ∀ v ∈ block, v < 2 ^ width block := by
  rw [width]
  cases hfind : (List.range 32).find? fun b => block.all (· < 2 ^ b) with
  | none => exact h
  | some b => simpa using List.find?_some hfind

/-- `n` values of `b` bits each, the first in the lowest bits. -/
def unpackBits (b : Nat) : Nat → Nat → List Nat
  | 0, _ => []
  | n + 1, x => x % 2 ^ b :: unpackBits b n (x / 2 ^ b)

theorem unpackBits_packed {b : Nat} (h : ∀ v ∈ block, v < 2 ^ b) :
    unpackBits b block.length (packed (block.map (·, b))) = block := by
  induction block with
  | nil => rfl
  | cons v rest ih =>
    have hv := h v List.mem_cons_self
    rw [List.length_cons, List.map_cons, unpackBits, packed_mod hv, packed,
      Nat.add_mul_div_left _ _ (Nat.two_pow_pos _), Nat.div_eq_of_lt hv, Nat.zero_add,
      ih fun w hw => h w (List.mem_cons_of_mem _ hw)]

/-- A block of 128 values of `b` bits each takes `16 * b` bytes. -/
def packBlock (block : List Nat) (b : Nat) : Bytes := toLE (16 * b) (packed (block.map (·, b)))

/-- The 128 values again. -/
def unpackBlock (data : Bytes) (b : Nat) : List Nat := unpackBits b 128 (ofLE (data.take (16 * b)))

theorem compressedBlockSize_eq (b : Nat) : compressedBlockSize b = 16 * b := by
  rw [compressedBlockSize, COMPRESSION_BLOCK_SIZE]
  omega

theorem unpackBlock_packBlock {b : Nat} (hlen : block.length = 128) (h : ∀ v ∈ block, v < 2 ^ b)
    (rest : Bytes) :
    unpackBlock (packBlock block b ++ rest) b = block := by
  have hfits : Fits (block.map (·, b)) := by
    simpa [Fits] using h
  have hlt := packed_lt hfits
  rw [totalBits_map_const, hlen, show 128 * b = 8 * (16 * b) by omega, two_pow_eight_mul] at hlt
  have hunpack := unpackBits_packed h
  rw [unpackBlock, packBlock, List.take_left' (length_toLE _ _), ofLE_toLE hlt]
  rwa [hlen] at hunpack

/-- The distances of the values of a block, the first one from the value in front of it. -/
def deltas : Nat → List Nat → List Nat
  | _, [] => []
  | offset, v :: rest => (v - offset) :: deltas v rest

/-- The values that have these distances. -/
def undoDeltas : Nat → List Nat → List Nat
  | _, [] => []
  | offset, d :: rest => (offset + d) :: undoDeltas (offset + d) rest

variable {offset : Nat}

theorem undoDeltas_deltas (h : (offset :: block).Pairwise (· ≤ ·)) :
    undoDeltas offset (deltas offset block) = block := by
  induction block generalizing offset with
  | nil => rfl
  | cons v rest ih =>
    obtain ⟨hle, hrest⟩ := List.pairwise_cons.mp h
    have hv := hle v List.mem_cons_self
    rw [deltas, undoDeltas, Nat.add_sub_cancel' hv, ih hrest]

theorem length_deltas (offset : Nat) (block : List Nat) :
    (deltas offset block).length = block.length := by
  induction block generalizing offset with
  | nil => rfl
  | cons v rest ih => rw [deltas, List.length_cons, ih, List.length_cons]

theorem deltas_lt {n : Nat} (h : ∀ v ∈ block, v < n) :
    ∀ d ∈ deltas offset block, d < n := by
  induction block generalizing offset with
  | nil => simp [deltas]
  | cons v rest ih =>
    have hv := h v List.mem_cons_self
    rintro d (_ | ⟨_, hd⟩)
    · omega
    · exact ih (fun w hw => h w (List.mem_cons_of_mem _ hw)) d hd

theorem isChain_of_deltas {n : Nat} (h : ∀ d ∈ deltas offset block, d < n) :
    (offset :: block).IsChain fun a b => b - a < n := by
  induction block generalizing offset with
  | nil => exact .singleton _
  | cons v rest ih =>
    exact .cons_cons (h _ List.mem_cons_self) (ih fun d hd => h d (List.mem_cons_of_mem _ hd))

/-- A packer that takes the fewest bits for a block, and for a sorted block the fewest for its
    deltas. -/
def tightPacker : BitPacker where
  numBits := width
  numBitsSorted offset block := width (deltas offset block)
  compress := packBlock
  compressSorted offset block := packBlock (deltas offset block)
  decompress data b := some (unpackBlock data b, 16 * b)
  decompressSorted offset data b := some (undoDeltas offset (unpackBlock data b), 16 * b)

theorem tightPacker_lawful : tightPacker.Lawful := by
  have hfits : ∀ {offset block}, IsBlock block →
      ∀ d ∈ deltas offset block, d < 2 ^ width (deltas offset block) := fun h =>
    lt_two_pow_width (deltas_lt h.lt)
  constructor
  · intro block _
    exact width_le block
  · intro block _
    rw [compressedBlockSize_eq]
    exact length_toLE _ _
  · intro block h rest
    rw [compressedBlockSize_eq]
    exact congrArg (fun l => some (l, _))
      (unpackBlock_packBlock h.length (lt_two_pow_width h.lt) rest)
  · intro offset block _ _
    exact width_le _
  · intro offset block h _
    exact isChain_of_deltas (hfits h)
  · intro offset block _ _
    rw [compressedBlockSize_eq]
    exact length_toLE _ _
  · intro offset block h hsorted rest
    rw [compressedBlockSize_eq]
    have hunpack := unpackBlock_packBlock ((length_deltas offset block).trans h.length) (hfits h)
      rest
    have hundo := undoDeltas_deltas hsorted
    rw [← hunpack] at hundo
    exact congrArg (fun l => some (l, _)) hundo

end TeaclaveCrates.Tantivy
