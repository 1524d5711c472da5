import TeaclaveCrates.Lib.VInt
import TeaclaveCrates.Tantivy.BitPacker

namespace TeaclaveCrates.Tantivy.FastFieldCodecs

open TeaclaveCrates.Lib

/-!
# Fast field columns

The columns of `fastfield_codecs`: values are mapped to `u64`, shifted by their minimum, divided by
their greatest common divisor, and then written with one of three codecs.

* `VecColumn`, `DynColumn` — a column to write, and a column that was opened.
* `MonotonicallyMappableToU64` — values that are kept as `u64`, in their order.
* `findGcd`, `Header`, `normalizeColumn` — the normalization.
* `Line` — a line in fixed-point arithmetic, all of it modulo 2^64.
* `serializeGivenCodec`, `openSpecificCodec` — the codecs.

A call that panics returns `none`. The exact division of the library for dividers is a parameter.
-/

/-! ### Columns -/

/-- A column over a slice, with its bounds. -/
structure VecColumn (T : Type) where
  vals : List T
  minValue : T
  maxValue : T

/-- `minmax` -/
def minmax {T : Type} [LE T] [DecidableLE T] : List T → Option (T × T)
  | [] => none
  | first :: vals =>
    some (vals.foldl
      (fun b el => (if b.1 ≤ el then b.1 else el, if b.2 ≤ el then el else b.2)) (first, first))

namespace VecColumn

variable {T U : Type}

/-- `VecColumn::from` -/
def ofList [LE T] [DecidableLE T] [Inhabited T] (vals : List T) : VecColumn T :=
  let bounds := (minmax vals).getD (default, default)
  ⟨vals, bounds.1, bounds.2⟩

/-- `monotonic_map_column` -/
def map (c : VecColumn T) (mapping : T → U) : VecColumn U :=
  ⟨c.vals.map mapping, mapping c.minValue, mapping c.maxValue⟩

/-- `num_vals`: a `u32`. -/
def numVals (c : VecColumn T) : Nat := c.vals.length % 2 ^ 32

end VecColumn

/-- A column behind `dyn Column`; reading out of range panics. -/
structure DynColumn (T : Type) where
  getVal : Nat → Option T
  minValue : T
  maxValue : T
  numVals : Nat

/-- `monotonic_map_column` -/
def DynColumn.map {T U : Type} (c : DynColumn T) (mapping : T → U) : DynColumn U :=
  ⟨fun idx => (c.getVal idx).map mapping, mapping c.minValue, mapping c.maxValue, c.numVals⟩

/-- `trait MonotonicallyMappableToU64`, with what the mapping promises. -/
class MonotonicallyMappableToU64 (T : Type) [LE T] where
  toU64 : T → UInt64
  fromU64 : UInt64 → T
  from_to : ∀ v, fromU64 (toU64 v) = v
  to_le_to : ∀ v w, toU64 v ≤ toU64 w ↔ v ≤ w

/-- `i64_to_u64` -/
def i64ToU64 (val : Int64) : UInt64 := val.toUInt64 ^^^ 0x8000000000000000

/-- `u64_to_i64` -/
def u64ToI64 (val : UInt64) : Int64 := (val ^^^ 0x8000000000000000).toInt64

theorem u64ToI64_i64ToU64 (val : Int64) : u64ToI64 (i64ToU64 val) = val := by
  rw [u64ToI64, i64ToU64, UInt64.xor_assoc, UInt64.xor_self, UInt64.xor_zero]
  rfl

/-- Flipping the highest bit adds it, and what overflows is lost. -/
theorem toNat_xor_highestBit (x : UInt64) :
    (x ^^^ 0x8000000000000000).toNat = (x.toNat + 2 ^ 63) % 2 ^ 64 := by
  show x.toNat ^^^ 2 ^ 63 = _
  have hlt := x.toNat_lt
  have hdiv : (x.toNat ^^^ 2 ^ 63) / 2 ^ 63 = x.toNat / 2 ^ 63 ^^^ 1 := Nat.xor_div_two_pow
  have hmod : (x.toNat ^^^ 2 ^ 63) % 2 ^ 63 = x.toNat % 2 ^ 63 := by
    rw [Nat.xor_mod_two_pow, Nat.mod_self, Nat.xor_zero]
  have hsplit := Nat.div_add_mod (x.toNat ^^^ 2 ^ 63) (2 ^ 63)
  rw [hdiv, hmod] at hsplit
  rcases (by omega : x.toNat / 2 ^ 63 = 0 ∨ x.toNat / 2 ^ 63 = 1) with hbit | hbit
  · rw [hbit, Nat.zero_xor] at hsplit
    omega
  · rw [hbit, Nat.xor_self] at hsplit
    omega

/-- The mapping of signed numbers adds 2^63. -/
theorem toNat_i64ToU64 (val : Int64) : ((i64ToU64 val).toNat : Int) = val.toInt + 2 ^ 63 := by
  have hlt := val.toUInt64.toNat_lt
  have hint : val.toInt =
      if 2 * val.toUInt64.toNat < 2 ^ 64 then (val.toUInt64.toNat : Int)
      else (val.toUInt64.toNat : Int) - ((2 ^ 64 : Nat) : Int) :=
    BitVec.toInt_eq_toNat_cond val.toBitVec
  rw [i64ToU64, toNat_xor_highestBit, hint]
  split <;> omega

instance : MonotonicallyMappableToU64 UInt64 where
  toU64 := id
  fromU64 := id
  from_to _ := rfl
  to_le_to _ _ := Iff.rfl

instance : MonotonicallyMappableToU64 Int64 where
  toU64 := i64ToU64
  fromU64 := u64ToI64
  from_to := u64ToI64_i64ToU64
  to_le_to v w := by
    have hv := toNat_i64ToU64 v
    have hw := toNat_i64ToU64 w
    rw [UInt64.le_iff_toNat_le, Int64.le_iff_toInt_le]
    omega

/-! ### Normalization -/

/-- `compute_gcd`; the remainders get smaller, so the smaller number bounds the rounds. -/
def computeGcd : Nat → UInt64 → UInt64 → UInt64
  | 0, _, small => small
  | fuel + 1, large, small =>
    let rem := large % small
    if rem = 0 then small else computeGcd fuel small rem

section Divide

-- `divide d v` stands for `DividerU64::divide_by(d).divide(v)`
variable (divide : UInt64 → UInt64 → UInt64)

/-- The loop of `find_gcd` over the values behind the first. -/
def findGcdLoop (gcd : UInt64) : List UInt64 → UInt64
  | [] => gcd
  | val :: vals =>
    let remainder := val - divide gcd val * gcd
    if remainder = 0 then findGcdLoop gcd vals
    else
      let gcd := computeGcd gcd.toNat val gcd
      if gcd = 1 then gcd else findGcdLoop gcd vals

/-- `find_gcd` -/
def findGcd (numbers : List UInt64) : Option UInt64 :=
  match numbers.filter (· ≠ 0) with
  | [] => none
  | gcd :: vals => if gcd = 1 then some gcd else some (findGcdLoop divide gcd vals)

inductive FastFieldCodecType where
  | bitpacked
  | linear
  | blockwiseLinear
  deriving DecidableEq, Repr

structure Header where
  numVals : Nat
  minValue : UInt64
  maxValue : UInt64
  gcd : Option UInt64
  codecType : FastFieldCodecType

structure NormalizedHeader where
  numVals : Nat
  maxValue : UInt64

/-- `compute_header`, for a codec that is given. -/
def computeHeader (column : VecColumn UInt64) (codecType : FastFieldCodecType) : Header where
  numVals := column.numVals
  minValue := column.minValue
  maxValue := column.maxValue
  gcd := (findGcd divide (column.vals.map (· - column.minValue))).filter (1 < ·)
  codecType := codecType

/-- The mapping of `StrictlyMonotonicMappingToInternalGCDBaseval`. -/
def gcdBaseval (gcd minValue val : UInt64) : UInt64 := divide gcd (val - minValue)

namespace Header

def normalized (h : Header) : NormalizedHeader :=
  ⟨h.numVals, gcdBaseval divide (h.gcd.getD 1) h.minValue h.maxValue⟩

def normalizeColumn (h : Header) (column : VecColumn UInt64) : VecColumn UInt64 :=
  column.map (gcdBaseval divide (h.gcd.getD 1) h.minValue)

end Header

end Divide

/-! ### Lines -/

structure Line where
  slope : UInt64
  intercept : UInt64
  deriving DecidableEq, Repr

/-- `compute_slope`, from one value to another that is `numVals` positions away. -/
def computeSlope (y0 y1 : UInt64) (numVals : UInt32) : UInt64 :=
  let dy := y1 - y0
  let sign := decide (dy ≤ (1 : UInt64) <<< 63)
  let absDy := if sign then y1 - y0 else y0 - y1
  if (1 : UInt64) <<< 32 ≤ absDy then 0
  else
    let absSlope := (absDy <<< 32) / numVals.toUInt64
    if sign then absSlope else 0xFFFFFFFFFFFFFFFF - absSlope

namespace Line

/-- `eval`: `as i32 as u64` cuts to 32 bits and extends their sign. -/
def eval (line : Line) (x : UInt32) : UInt64 :=
  let linearPart := ((x.toUInt64 * line.slope) >>> 32).toUInt32.toInt32.toInt64.toUInt64
  line.intercept + linearPart

/-- The first element with the least key. -/
def minByKey {α : Type} (key : α → UInt64) : List α → Option α
  | [] => none
  | x :: xs => some (xs.foldl (fun best y => if key y < key best then y else best) x)

/-- What is left of values when those of the line are taken away. -/
def residuals (line : Line) (ys : List UInt64) : List UInt64 :=
  ys.zipIdx.map fun p => p.1 - line.eval (UInt32.ofNat p.2)

/-- `train_from`, on all positions of `train`. -/
def trainFrom (firstVal lastVal : UInt64) (ys : List UInt64) : Line :=
  if ys.length - 1 = 0 then ⟨0, 0⟩
  else
    let slope := computeSlope firstVal lastVal (UInt32.ofNat (ys.length - 1))
    let heuristicShift := firstVal - 0xFFFFFFFF
    let intercept := (minByKey (· - heuristicShift) (residuals ⟨slope, 0⟩ ys)).getD 0
    ⟨slope, intercept⟩

/-- `train` -/
def train (ys : List UInt64) : Option Line :=
  match ys.head?, ys[ys.length - 1]? with
  | some firstVal, some lastVal => some (trainFrom firstVal lastVal ys)
  | _, _ => none

def serialize (line : Line) : Bytes :=
  vint true 10 line.slope.toNat ++ vint true 10 line.intercept.toNat

end Line

/-! ### The codecs -/

/-- `VInt::deserialize` -/
def readVInt (bytes : Bytes) : Option (UInt64 × Bytes) :=
  match vintLoop true bytes 0 0 with
  | (val, rest, true) => some (UInt64.ofNat val, rest)
  | (_, _, false) => none

/-- A line and the width of what is left of the values. -/
structure LinearParams where
  line : Line
  numBits : Nat

namespace LinearParams

def serialize (p : LinearParams) : Bytes := p.line.serialize ++ [UInt8.ofNat p.numBits]

def deserialize (bytes : Bytes) : Option (LinearParams × Bytes) :=
  match readVInt bytes with
  | none => none
  | some (slope, bytes) =>
    match readVInt bytes with
    | none => none
    | some (intercept, bytes) =>
      match bytes with
      | [] => none
      | bitWidth :: bytes => some (⟨⟨slope, intercept⟩, bitWidth.toNat⟩, bytes)

/-- The value at a position of some packed data. -/
def getVal (p : LinearParams) (idx : Nat) (data : Bytes) : Option UInt64 :=
  ((BitUnpacker.new p.numBits).get idx data).map fun bitpackedDiff =>
    p.line.eval (UInt32.ofNat idx) + UInt64.ofNat bitpackedDiff

end LinearParams

/-- Values as the bit packer takes them. -/
def withWidth (numBits : Nat) (vals : List UInt64) : List (Nat × Nat) :=
  vals.map fun val => (val.toNat, numBits)

namespace BitpackedCodec

def serialize (column : VecColumn UInt64) : Option Bytes :=
  if column.minValue ≠ 0 then none
  else some (BitPacker.pack (withWidth (computeNumBits column.maxValue.toNat) column.vals))

def openFromBytes (data : Bytes) (header : NormalizedHeader) : Option (DynColumn UInt64) :=
  let bitUnpacker := BitUnpacker.new (computeNumBits header.maxValue.toNat)
  some
    { getVal := fun doc => (bitUnpacker.get doc data).map UInt64.ofNat
      minValue := 0
      maxValue := header.maxValue
      numVals := header.numVals }

end BitpackedCodec

namespace LinearCodec

def serialize (column : VecColumn UInt64) : Option Bytes :=
  if column.minValue ≠ 0 then none
  else
    match Line.train column.vals with
    | none => none
    | some line =>
      match ((line.residuals column.vals).map UInt64.toNat).max? with
      | none => none
      | some maxOffsetFromLine =>
        let numBits := computeNumBits maxOffsetFromLine
        some (LinearParams.serialize ⟨line, numBits⟩ ++
          BitPacker.pack (withWidth numBits (line.residuals column.vals)))

def openFromBytes (data : Bytes) (header : NormalizedHeader) : Option (DynColumn UInt64) :=
  match LinearParams.deserialize data with
  | none => none
  | some (linearParams, data) =>
    some
      { getVal := fun doc => linearParams.getVal doc data
        minValue := 0
        maxValue := header.maxValue
        numVals := header.numVals }

end LinearCodec

namespace BlockwiseLinearCodec

def CHUNK_SIZE : Nat := 512

def computeNumBlocks (numVals : Nat) : Nat := (numVals + CHUNK_SIZE - 1) / CHUNK_SIZE

/-- A block: its parameters, and what is packed for it. -/
structure TrainedBlock where
  params : LinearParams
  residuals : List UInt64

/-- One round of the loop of `serialize`. -/
def trainBlock (buffer : List UInt64) : Option TrainedBlock :=
  match Line.train buffer with
  | none => none
  | some line =>
    let residuals := line.residuals buffer
    match (residuals.map fun val => computeNumBits val.toNat).max? with
    | none => none
    | some bitWidth => some ⟨⟨line, bitWidth⟩, residuals⟩

/-- The rounds over all blocks. -/
def trainBlocks : List (List UInt64) → Option (List TrainedBlock)
  | [] => some []
  | buffer :: buffers =>
    match trainBlock buffer with
    | none => none
    | some block => (trainBlocks buffers).map (block :: ·)

/-- `serialize`; one bit packer goes through all blocks. -/
def serialize (column : VecColumn UInt64) : Option Bytes :=
  if column.minValue ≠ 0 then none
  else
    let buffers := (chunks CHUNK_SIZE column.vals).take (computeNumBlocks column.numVals)
    (trainBlocks buffers).map fun blocks =>
      let footer := blocks.flatMap fun block => block.params.serialize
      BitPacker.pack (blocks.flatMap fun b => withWidth b.params.numBits b.residuals) ++
        footer ++ toLE 4 footer.length

/-- `Block`, with the offset at which its data starts. -/
structure Block where
  params : LinearParams
  dataStartOffset : Nat

/-- The blocks of the footer, one after the other. -/
def deserializeBlocks : Nat → Bytes → Option (List LinearParams)
  | 0, _ => some []
  | n + 1, footer =>
    match LinearParams.deserialize footer with
    | none => none
    | some (params, footer) => (deserializeBlocks n footer).map (params :: ·)

/-- The loop that sets the offsets. -/
def withOffsets : Nat → List LinearParams → List Block
  | _, [] => []
  | startOffset, params :: rest =>
    ⟨params, startOffset⟩ :: withOffsets (startOffset + params.numBits * CHUNK_SIZE / 8) rest

/-- `BlockwiseLinearReader::get_val` -/
def getVal (blocks : List Block) (data : Bytes) (idx : Nat) : Option UInt64 :=
  match blocks[idx / CHUNK_SIZE]? with
  | none => none
  | some block =>
    if data.length < block.dataStartOffset then none
    else block.params.getVal (idx % CHUNK_SIZE) (data.drop block.dataStartOffset)

def openFromBytes (bytes : Bytes) (header : NormalizedHeader) : Option (DynColumn UInt64) :=
  if bytes.length < 4 then none
  else
    let footerLen := ofLE (bytes.drop (bytes.length - 4))
    if bytes.length - 4 < footerLen then none
    else
      let footerOffset := bytes.length - 4 - footerLen
      let data := bytes.take footerOffset
      (deserializeBlocks (computeNumBlocks header.numVals) (bytes.drop footerOffset)).map
        fun blocks =>
          { getVal := getVal (withOffsets 0 blocks) data
            minValue := 0
            maxValue := header.maxValue
            numVals := header.numVals }

end BlockwiseLinearCodec

/-- `serialize_given_codec` -/
def serializeGivenCodec (column : VecColumn UInt64) : FastFieldCodecType → Option Bytes
  | .bitpacked => BitpackedCodec.serialize column
  | .linear => LinearCodec.serialize column
  | .blockwiseLinear => BlockwiseLinearCodec.serialize column

/-- `open_from_bytes` of a codec. -/
def openFromBytes (bytes : Bytes) (header : NormalizedHeader) :
    FastFieldCodecType → Option (DynColumn UInt64)
  | .bitpacked => BitpackedCodec.openFromBytes bytes header
  | .linear => LinearCodec.openFromBytes bytes header
  | .blockwiseLinear => BlockwiseLinearCodec.openFromBytes bytes header

/-- `open_specific_codec`: without a common divisor the mapping only adds the minimum. -/
def openSpecificCodec {T : Type} [LE T] [MonotonicallyMappableToU64 T]
    (divide : UInt64 → UInt64 → UInt64) (bytes : Bytes) (header : Header) : Option (DynColumn T) :=
  (openFromBytes bytes (header.normalized divide) header.codecType).map fun reader =>
    match header.gcd with
    | some gcd => reader.map fun out =>
        MonotonicallyMappableToU64.fromU64 (header.minValue + out * gcd)
    | none => reader.map fun val => MonotonicallyMappableToU64.fromU64 (header.minValue + val)

end TeaclaveCrates.Tantivy.FastFieldCodecs
