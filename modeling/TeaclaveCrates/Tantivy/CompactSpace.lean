import Mathlib.Data.List.Dedup
import Mathlib.Data.List.Sort
import TeaclaveCrates.Lib.BinarySearch
import TeaclaveCrates.Tantivy.FastField

namespace TeaclaveCrates.Tantivy.FastFieldCodecs

open TeaclaveCrates.Lib

/-!
# The compact space codec

Columns of `u128` values, such as addresses: large stretches without values, the blanks, are cut
out, and what is left is numbered from 1 on.

* `getCompactSpace` — the choice of the blanks, and `CompactSpaceBuilder.finish`.
* `CompactSpace` — the ranges that are left, with both directions of the numbering.
* `trainFrom`, `compressInto`, `CompactSpaceDecompressor` — the codec.

Arithmetic is that of a release build.  The pops of a `BinaryHeap` are a parameter: all blanks, the
greatest first.  A call that panics or fails returns `none`.
-/

/-! ### Machine integers -/

/-- `a + b` on `w` bits. -/
def wrapAdd (w a b : Nat) : Nat := (a + b) % 2 ^ w

/-- `a - b` on `w` bits. -/
def wrapSub (w a b : Nat) : Nat := (a + (2 ^ w - b)) % 2 ^ w

theorem wrapAdd_eq {w a b : Nat} (h : a + b < 2 ^ w) : wrapAdd w a b = a + b := Nat.mod_eq_of_lt h

theorem wrapSub_eq {w a b : Nat} (h : b ≤ a) (ha : a < 2 ^ w) : wrapSub w a b = a - b := by
  have hsum : a + (2 ^ w - b) = a - b + 2 ^ w := by omega
  rw [wrapSub, hsum, Nat.add_mod_right, Nat.mod_eq_of_lt (by omega)]

def u128Max : Nat := 2 ^ 128 - 1

/-- `num_bits` -/
def numBits (val : Nat) : Nat := if val = 0 then 0 else Nat.log2 val + 1

/-! ### Ranges -/

/-- `RangeMapping`: a range of values, and the number of its first one. -/
structure RangeMapping where
  valueRange : Nat × Nat
  compactStart : Nat
  deriving DecidableEq

namespace RangeMapping

def rangeLength (r : RangeMapping) : Nat :=
  wrapAdd 64 (wrapSub 128 r.valueRange.2 r.valueRange.1 % 2 ^ 64) 1

def compactEnd (r : RangeMapping) : Nat :=
  wrapSub 64 (wrapAdd 64 r.compactStart r.rangeLength) 1

end RangeMapping

structure CompactSpace where
  rangesMapping : List RangeMapping
  deriving DecidableEq

/-! ### Choosing the blanks -/

/-- `BlankRange`, of at least three values. -/
structure BlankRange where
  blankRange : Nat × Nat
  deriving DecidableEq

namespace BlankRange

/-- `try_from` -/
def tryFrom (range : Nat × Nat) : Option BlankRange :=
  if range.2 - range.1 < 2 then none else some ⟨range⟩

def blankSize (b : BlankRange) : Nat :=
  wrapAdd 128 (wrapSub 128 b.blankRange.2 b.blankRange.1) 1

end BlankRange

/-- `BTreeSet`, from the values that are put into it. -/
def btreeSet (vals : List Nat) : List Nat := vals.dedup.insertionSort (· ≤ ·)

/-- `get_blanks`: what is pushed onto the heap. -/
def getBlanks : List Nat → List BlankRange
  | first :: second :: rest =>
    (BlankRange.tryFrom (first + 1, second - 1)).toList ++ getBlanks (second :: rest)
  | _ => []

/-- The pops of a `BinaryHeap`: all that was pushed, the greatest first. -/
def HeapOrder (pops : List BlankRange → List BlankRange) : Prop :=
  ∀ blanks, (pops blanks).Perm blanks ∧
    (pops blanks).Pairwise fun a b => b.blankSize ≤ a.blankSize

/-- The variables of the loop: `staged` and `stagedSum` are the `BlankCollector`, `builder` has the
    blanks of the `CompactSpaceBuilder`. -/
structure Choice where
  amplitude : Nat
  amplitudeBits : Nat
  staged : List BlankRange
  stagedSum : Nat
  builder : List (Nat × Nat)

/-- One round of the loop. -/
def Choice.step (totalNumValues costPerBlank : Nat) (s : Choice) (blank : BlankRange) : Choice :=
  let staged := s.staged ++ [blank]
  let stagedSum := wrapAdd 128 s.stagedSum blank.blankSize
  let amplitudeNew := wrapSub 128 s.amplitude stagedSum
  let amplitudeNewBits := numBits amplitudeNew
  if s.amplitudeBits = amplitudeNewBits then { s with staged := staged, stagedSum := stagedSum }
  else
    let savedBits := wrapSub 8 s.amplitudeBits amplitudeNewBits * totalNumValues
    let cost := staged.length * costPerBlank
    if savedBits ≤ cost then { s with staged := staged, stagedSum := stagedSum }
    else
      ⟨amplitudeNew, amplitudeNewBits, [], 0, s.builder ++ staged.map BlankRange.blankRange⟩

namespace CompactSpaceBuilder

/-- The ranges between the blanks; a blank has to end before the next one starts. -/
def betweenBlanks : List (Nat × Nat) → Option (List (Nat × Nat))
  | left :: right :: rest =>
    if left.2 < right.1 then
      (betweenBlanks (right :: rest)).map ((left.2 + 1, right.1 - 1) :: ·)
    else none
  | _ => some []

/-- The covered ranges, for blanks that are sorted. -/
def coveredSpace (blanks : List (Nat × Nat)) : Option (List (Nat × Nat)) :=
  (betweenBlanks blanks).map fun between =>
    let before := match blanks.head? with
      | some first => if first.1 ≠ 0 then [(0, first.1 - 1)] else []
      | none => []
    let after := match blanks.getLast? with
      | some last => if last.2 ≠ u128Max then [(last.2 + 1, u128Max)] else []
      | none => []
    before ++ between ++ after

/-- The ranges with their numbers. -/
def withStarts : Nat → List (Nat × Nat) → List RangeMapping
  | _, [] => []
  | compactStart, range :: ranges =>
    let r : RangeMapping := ⟨range, compactStart⟩
    r :: withStarts (wrapAdd 64 compactStart r.rangeLength) ranges

/-- `finish`; 0 is reserved for `null`. -/
def finish (blanks : List (Nat × Nat)) : Option CompactSpace :=
  (coveredSpace (blanks.insertionSort fun a b => a.1 ≤ b.1)).map fun covered =>
    ⟨withStarts 1 (if covered = [] then [(0, 0)] else covered)⟩

end CompactSpaceBuilder

/-- The blanks before the first and behind the last value. -/
def outerBlanks (valuesSorted : List Nat) : List (Nat × Nat) :=
  let minValue := valuesSorted.head?.getD 0
  let maxValue := valuesSorted.getLast?.getD 0
  (if minValue ≠ 0 then [(0, minValue - 1)] else []) ++
    (if maxValue ≠ u128Max then [(maxValue + 1, u128Max)] else [])

/-- The variables before the loop. -/
def Choice.init (valuesSorted : List Nat) : Choice :=
  let minValue := valuesSorted.head?.getD 0
  let maxValue := valuesSorted.getLast?.getD 0
  let amplitude := min (maxValue - minValue + 1) u128Max
  ⟨amplitude, numBits amplitude, [], 0, outerBlanks valuesSorted⟩

/-- The blanks of the builder behind the loop: a space without any is that of the empty set. -/
def Choice.blanks (s : Choice) : List (Nat × Nat) :=
  if s.builder = [] then (s.staged.map BlankRange.blankRange).take 1 else s.builder

section Heap

variable (pops : List BlankRange → List BlankRange)

/-- `get_compact_space` up to the call of `finish`. -/
def chosenBlanks (valuesSorted : List Nat) (totalNumValues costPerBlank : Nat) :
    List (Nat × Nat) :=
  ((pops (getBlanks valuesSorted)).foldl (Choice.step totalNumValues costPerBlank)
    (Choice.init valuesSorted)).blanks

/-- `get_compact_space` -/
def getCompactSpace (valuesSorted : List Nat) (totalNumValues costPerBlank : Nat) :
    Option CompactSpace :=
  if valuesSorted = [] then CompactSpaceBuilder.finish []
  else CompactSpaceBuilder.finish (chosenBlanks pops valuesSorted totalNumValues costPerBlank)

end Heap

/-! ### The compact space -/

/-- `VIntU128`; 19 bytes are enough. -/
def vintU128 (val : Nat) : Bytes := vint true 19 val

/-- `VIntU128::deserialize` -/
def readVIntU128 (bytes : Bytes) : Option (Nat × Bytes) :=
  match vintLoopBits 128 true bytes 0 0 with
  | (val, rest, true) => some (val, rest)
  | (_, _, false) => none

namespace CompactSpace

/-- The loop of `serialize`. -/
def serializeRanges : Nat → List RangeMapping → Bytes
  | _, [] => []
  | prevValue, r :: rs =>
    vintU128 (wrapSub 128 r.valueRange.1 prevValue) ++
      (vintU128 (wrapSub 128 r.valueRange.2 r.valueRange.1) ++ serializeRanges r.valueRange.2 rs)

def serialize (space : CompactSpace) : Bytes :=
  vint true 10 space.rangesMapping.length ++ serializeRanges 0 space.rangesMapping

/-- The loop of `deserialize`. -/
def deserializeRanges : Nat → Nat → Nat → Bytes → Option (List RangeMapping × Bytes)
  | 0, _, _, bytes => some ([], bytes)
  | n + 1, value, compactStart, bytes =>
    match readVIntU128 bytes with
    | none => none
    | some (blankDeltaStart, bytes) =>
      let blankStart := wrapAdd 128 value blankDeltaStart
      match readVIntU128 bytes with
      | none => none
      | some (blankDeltaEnd, bytes) =>
        let blankEnd := wrapAdd 128 blankStart blankDeltaEnd
        let r : RangeMapping := ⟨(blankStart, blankEnd), compactStart⟩
        (deserializeRanges n blankEnd (wrapAdd 64 compactStart r.rangeLength) bytes).map
          fun ranges => (r :: ranges.1, ranges.2)

def deserialize (bytes : Bytes) : Option (CompactSpace × Bytes) :=
  match readVInt bytes with
  | none => none
  | some (numRanges, bytes) =>
    (deserializeRanges numRanges.toNat 0 1 bytes).map fun ranges => (⟨ranges.1⟩, ranges.2)

/-- `amplitude_compact_space` -/
def amplitude (space : CompactSpace) : Nat :=
  match space.rangesMapping.getLast? with
  | some lastRange => lastRange.compactEnd
  | none => 1

/-- The comparison of `u128_to_compact`. -/
def compareValue (value : Nat) (probe : RangeMapping) : Ordering :=
  if value < probe.valueRange.1 then .gt
  else if probe.valueRange.2 < value then .lt
  else .eq

/-- `u128_to_compact` -/
def u128ToCompact (space : CompactSpace) (value : Nat) : Except Nat Nat :=
  match binarySearchBy (compareValue value) space.rangesMapping with
  | .error pos => .error pos
  | .ok pos =>
    match space.rangesMapping[pos]? with
    | none => .error pos
    | some r =>
      let posInRange := wrapSub 128 value r.valueRange.1 % 2 ^ 64
      .ok (wrapAdd 64 r.compactStart posInRange)

/-- The index of the range itself, or of the one in front of the place. -/
def floorIndex : Except Nat Nat → Option Nat
  | .ok pos => some pos
  | .error 0 => none
  | .error (pos + 1) => some pos

/-- `compact_to_u128` -/
def compactToU128 (space : CompactSpace) (compact : Nat) : Option Nat :=
  let found := binarySearchBy (fun r => compare r.compactStart compact) space.rangesMapping
  match (floorIndex found).bind (space.rangesMapping[·]?) with
  | none => none
  | some r => some (wrapAdd 128 r.valueRange.1 (wrapSub 64 compact r.compactStart))

end CompactSpace

/-! ### The codec -/

/-- `COST_PER_BLANK_IN_BITS` -/
def costPerBlankInBits : Nat := 36

structure IPCodecParams where
  compactSpace : CompactSpace
  bitUnpacker : BitUnpacker
  minValue : Nat
  maxValue : Nat
  numVals : Nat
  numBits : Nat

namespace IPCodecParams

def serialize (p : IPCodecParams) : Bytes :=
  toLE 8 0 ++ (vintU128 p.minValue ++ (vintU128 p.maxValue ++ (vintU128 p.numVals ++
    (UInt8.ofNat p.numBits :: p.compactSpace.serialize))))

def deserialize (bytes : Bytes) : Option IPCodecParams :=
  if bytes.length < 8 then none
  else
    match readVIntU128 (bytes.drop 8) with
    | none => none
    | some (minValue, bytes) =>
      match readVIntU128 bytes with
      | none => none
      | some (maxValue, bytes) =>
        match readVIntU128 bytes with
        | none => none
        | some (numVals, bytes) =>
          match bytes with
          | [] => none
          | numBits :: bytes =>
            (CompactSpace.deserialize bytes).map fun space =>
              ⟨space.1, BitUnpacker.new numBits.toNat, minValue, maxValue, numVals % 2 ^ 32,
                numBits.toNat⟩

end IPCodecParams

/-- `CompactSpaceCompressor::train_from` -/
def trainFrom (pops : List BlankRange → List BlankRange) (vals : List Nat) (numVals : Nat) :
    Option IPCodecParams :=
  let valuesSorted := btreeSet vals
  match getCompactSpace pops valuesSorted numVals costPerBlankInBits with
  | none => none
  | some compactSpace =>
    let amplitude := compactSpace.amplitude
    if 2 ^ 64 - 1 < amplitude then none
    else
      let numBits := computeNumBits amplitude
      let minValue := valuesSorted.head?.getD 0
      let maxValue := valuesSorted.getLast?.getD 0
      match compactSpace.u128ToCompact maxValue with
      | .error _ => none
      | .ok compact =>
        if compact ≠ amplitude then none
        else some ⟨compactSpace, BitUnpacker.new numBits, minValue, maxValue, numVals, numBits⟩

/-- The numbers of some values, when all of them are covered. -/
def toCompacts (space : CompactSpace) : List Nat → Option (List Nat)
  | [] => some []
  | val :: vals =>
    match space.u128ToCompact val with
    | .error _ => none
    | .ok compact => (toCompacts space vals).map (compact :: ·)

/-- `compress_into` -/
def compressInto (params : IPCodecParams) (vals : List Nat) : Option Bytes :=
  (toCompacts params.compactSpace vals).map fun compacts =>
    let footer := params.serialize
    BitPacker.pack (compacts.map fun compact => (compact, params.numBits)) ++
      (footer ++ toLE 4 footer.length)

/-- `CompactSpaceDecompressor` -/
structure CompactSpaceDecompressor where
  data : Bytes
  params : IPCodecParams

namespace CompactSpaceDecompressor

/-- `open` -/
def openFrom (data : Bytes) : Option CompactSpaceDecompressor :=
  if data.length < 4 then none
  else
    let footerLen := ofLE (data.drop (data.length - 4))
    let dataSlice := data.take (data.length - 4)
    if dataSlice.length < footerLen then none
    else (IPCodecParams.deserialize (dataSlice.drop (dataSlice.length - footerLen))).map (⟨data, ·⟩)

def get (d : CompactSpaceDecompressor) (idx : Nat) : Option Nat :=
  (d.params.bitUnpacker.get idx d.data).bind d.params.compactSpace.compactToU128

end CompactSpaceDecompressor

end TeaclaveCrates.Tantivy.FastFieldCodecs
