import Mathlib.Data.Finset.Card
import TeaclaveCrates.Lib.BitList
import TeaclaveCrates.Tantivy.BitUnpacking

namespace TeaclaveCrates.Tantivy.Common

open TeaclaveCrates.Lib
open FastFieldCodecs (Profile)

/-!
# Bit sets

A `BitSet` keeps the numbers below a maximum in words of 64 bits, with a count of them beside. A
`ReadOnlyBitSet` looks at the bytes of one that was serialised.

* `TinySet`, `BitSet`, `ReadOnlyBitSet` — the code.
* `TinySet.elements_eq`, `TinySet.contains_eq` — what a word holds.
* `BitSetOp` — the calls that change a set, on the code and on plain sets.
-/

/-! ### Words -/

/-- The elements of one word. -/
structure TinySet where
  bits : BitVec 64
  deriving DecidableEq

namespace TinySet

/-- `TinySet::EMPTY`. -/
def empty : TinySet := ⟨0#64⟩

/-- The elements below 64 that are not there. -/
def complement (t : TinySet) : TinySet := ⟨~~~t.bits⟩

/-- All 64 elements. -/
def full : TinySet := empty.complement

/-- No bit is set. -/
def isEmpty (t : TinySet) : Bool := t.bits == 0#64

/-- The elements of both. -/
def intersect (t other : TinySet) : TinySet := ⟨t.bits &&& other.bits⟩

/-- The elements of either. -/
def union (t other : TinySet) : TinySet := ⟨t.bits ||| other.bits⟩

/-- `singleton`, within `[0; 64[`. -/
def singleton (el : Nat) : TinySet := ⟨1#64 <<< el⟩

/-- Whether the bit is set. -/
def contains (t : TinySet) (el : Nat) : Bool := !(t.intersect (singleton el)).isEmpty

/-- The number of set bits. -/
def len (t : TinySet) : Nat := t.bits.cpop.toNat

/-- The set with the element. -/
def insert (t : TinySet) (el : Nat) : TinySet := t.union (singleton el)

/-- The set without the element. -/
def remove (t : TinySet) (el : Nat) : TinySet := t.intersect (singleton el).complement

/-- `insert_mut`: whether the set changed, and the set. -/
def insertMut (t : TinySet) (el : Nat) : Bool × TinySet := (t ≠ t.insert el, t.insert el)

/-- `remove_mut`: likewise. -/
def removeMut (t : TinySet) (el : Nat) : Bool × TinySet := (t ≠ t.remove el, t.remove el)

/-- The lowest element, and the rest. -/
def popLowest (t : TinySet) : Option (Nat × TinySet) :=
  if t.isEmpty then none
  else
    let lowest := t.bits.ctz.toNat
    some (lowest, ⟨t.bits ^^^ (singleton lowest).bits⟩)

/-- `range_lower`: the elements below a bound below 64. -/
def rangeLower (upperBound : Nat) : TinySet := ⟨(1#64 <<< (upperBound % 64)) - 1#64⟩

/-- The word in little-endian order. -/
def intoBytes (t : TinySet) : Bytes := toLE 8 t.bits.toNat

/-- A word from its bytes. -/
def deserialize (data : Bytes) : TinySet := ⟨BitVec.ofNat 64 (ofLE data)⟩

/-- `TinySetIterator`, gone through to its end. -/
def elementsFuel : Nat → TinySet → List Nat
  | 0, _ => []
  | fuel + 1, t =>
    match t.popLowest with
    | none => []
    | some (lowest, rest) => lowest :: elementsFuel fuel rest

/-- The elements as they are popped; a word has 64 at most. -/
def elements (t : TinySet) : List Nat := elementsFuel 64 t

theorem elementsFuel_eq {fuel : Nat} {t : TinySet} (hfuel : (bitList t.bits).length ≤ fuel) :
    elementsFuel fuel t = bitList t.bits := by
  induction fuel generalizing t with
  | zero => exact (List.length_eq_zero_iff.mp (Nat.le_zero.mp hfuel)).symm
  | succ fuel ih =>
    rw [elementsFuel, popLowest]
    by_cases hzero : t.bits = 0#64
    · have hempty : t.isEmpty = true := beq_iff_eq.mpr hzero
      simp [hempty, hzero]
    · have hpop := bitList_pop hzero
      rw [hpop, List.length_cons] at hfuel
      have hnonempty : ¬t.isEmpty = true := fun h => hzero (beq_iff_eq.mp h)
      rw [if_neg hnonempty, hpop]
      exact congrArg _ (@ih ⟨_⟩ (Nat.le_of_succ_le_succ hfuel))

variable (t : TinySet)

/-- **Popping** yields the positions of the bits. -/
theorem elements_eq : t.elements = bitList t.bits := by
  apply elementsFuel_eq
  rw [length_bitList]
  exact BitVec.toNat_cpop_le _

variable {el : Nat}

theorem getLsbD_singleton (i : Nat) (hel : el < 64) :
    (singleton el).bits.getLsbD i = decide (el = i) := by
  rw [singleton, ← BitVec.twoPow_eq, BitVec.getLsbD_twoPow]
  by_cases h : el = i
  · simp [decide_eq_true hel]
  · rw [decide_eq_false h, Bool.and_false]

/-- **Membership** is the bit. -/
theorem contains_eq (hel : el < 64) :
    t.contains el = t.bits.getLsbD el := by
  have hmask := and_one_shiftLeft_eq_zero t.bits hel
  show (!(t.bits &&& (1#64 <<< el) == 0#64)) = _
  cases hbit : t.bits.getLsbD el with
  | true =>
    have hne : t.bits &&& (1#64 <<< el) ≠ 0#64 := fun hzero =>
      Bool.false_ne_true ((hmask.mp hzero).symm.trans hbit)
    simp [beq_eq_false_iff_ne.mpr hne]
  | false =>
    simp [hmask.mpr hbit]

theorem getLsbD_insert (hel : el < 64) (i : Nat) :
    (t.insert el).bits.getLsbD i = (t.bits.getLsbD i || decide (el = i)) := by
  rw [insert, union, BitVec.getLsbD_or, getLsbD_singleton i hel]

theorem getLsbD_remove (hel : el < 64) (i : Nat) :
    (t.remove el).bits.getLsbD i = (t.bits.getLsbD i && !decide (el = i)) := by
  rw [remove, intersect, complement, BitVec.getLsbD_and, BitVec.getLsbD_not,
    getLsbD_singleton i hel]
  by_cases hi : i < 64
  · rw [decide_eq_true hi, Bool.true_and]
  · simp [BitVec.getLsbD_of_ge _ _ (Nat.le_of_not_lt hi)]

/-- An insertion changes a set just when the element was not there. -/
theorem insert_ne_iff (hel : el < 64) :
    t ≠ t.insert el ↔ t.bits.getLsbD el = false := by
  constructor
  · intro hne
    by_contra hbit
    apply hne
    apply congrArg TinySet.mk
    apply BitVec.eq_of_getLsbD_eq
    intro i _
    refine Eq.trans ?_ (getLsbD_insert t hel i).symm
    by_cases h : el = i
    · rw [← h, Bool.eq_true_of_not_eq_false hbit, Bool.true_or]
    · rw [decide_eq_false h, Bool.or_false]
  · intro hbit heq
    have hnew := getLsbD_insert t hel el
    rw [← heq, hbit, decide_eq_true rfl] at hnew
    exact Bool.false_ne_true hnew

theorem remove_ne_iff (hel : el < 64) :
    t ≠ t.remove el ↔ t.bits.getLsbD el = true := by
  constructor
  · intro hne
    by_contra hbit
    apply hne
    apply congrArg TinySet.mk
    apply BitVec.eq_of_getLsbD_eq
    intro i _
    refine Eq.trans ?_ (getLsbD_remove t hel i).symm
    by_cases h : el = i
    · rw [← h, Bool.eq_false_of_not_eq_true hbit, Bool.false_and]
    · rw [decide_eq_false h, Bool.not_false, Bool.and_true]
  · intro hbit heq
    have hnew := getLsbD_remove t hel el
    rw [← heq, hbit, decide_eq_true rfl] at hnew
    exact Bool.false_ne_true hnew.symm

theorem getLsbD_rangeLower (upperBound i : Nat) :
    (rangeLower upperBound).bits.getLsbD i = decide (i < upperBound % 64) := by
  have hlt : upperBound % 64 < 64 := Nat.mod_lt _ (by decide)
  have hpow : 2 ^ (upperBound % 64) < 2 ^ 64 := Nat.pow_lt_pow_right (by decide) hlt
  have hpos := Nat.two_pow_pos (upperBound % 64)
  have hnat : (rangeLower upperBound).bits.toNat = 2 ^ (upperBound % 64) - 1 := by
    rw [rangeLower, BitVec.toNat_sub, BitVec.toNat_shiftLeft, BitVec.toNat_ofNat, Nat.shiftLeft_eq]
    omega
  show (rangeLower upperBound).bits.toNat.testBit i = _
  rw [hnat, Nat.testBit_two_pow_sub_one]

theorem deserialize_intoBytes : deserialize t.intoBytes = t := by
  have hlt : t.bits.toNat < 256 ^ 8 := t.bits.isLt
  rw [deserialize, intoBytes, ofLE_toLE hlt, BitVec.ofNat_toNat, BitVec.setWidth_eq]

end TinySet

/-! ### `BitSet` -/

/-- The words, the count of their elements, and the maximum. -/
structure BitSet where
  tinysets : List TinySet
  len : Nat
  maxValue : Nat

/-- The number of words that the numbers below a maximum take. -/
def numBuckets (profile : Profile) (maxVal : Nat) : Option Nat :=
  (profile.fit 32 (maxVal + 63)).map (· / 64)

/-- Serialised: bytes in groups of eight behind the maximum. -/
structure ReadOnlyBitSet where
  data : Bytes
  maxValue : Nat
  /-- asserted by `open` -/
  aligned : data.length % 8 = 0

namespace ReadOnlyBitSet

/-- `open`: splitting a shorter string panics. -/
def «open» (data : Bytes) : Option ReadOnlyBitSet :=
  if data.length < 4 then none
  else if haligned : (data.drop 4).length % 8 = 0 then
    some ⟨data.drop 4, ofLE (data.take 4), haligned⟩
  else none

/-- The words that the bytes are. -/
def iterTinysets (r : ReadOnlyBitSet) : List TinySet := (chunks 8 r.data).map TinySet.deserialize

/-- The elements are counted word by word. -/
def len (r : ReadOnlyBitSet) : Nat := (r.iterTinysets.map TinySet.len).sum

/-- `iter` from a chunk on, gone through to its end. -/
def iterFrom (profile : Profile) (maxValue : Nat) : Nat → List TinySet → Option (List Nat)
  | _, [] => some []
  | chunkNum, tinyset :: rest => do
    let chunkBaseVal ← profile.fit 32 (chunkNum % 2 ^ 32 * 64)
    let others ← iterFrom profile maxValue (chunkNum + 1) rest
    some ((tinyset.elements.map (· + chunkBaseVal)).takeWhile (· < maxValue) ++ others)

/-- All elements, as the iterator yields them. -/
def iter (profile : Profile) (r : ReadOnlyBitSet) : Option (List Nat) :=
  iterFrom profile r.maxValue 0 r.iterTinysets

/-- A bit of a byte; behind the end the index panics. -/
def contains (r : ReadOnlyBitSet) (el : Nat) : Option Bool :=
  r.data[el / 8]?.map fun b => b &&& (1 <<< UInt8.ofNat (el % 8)) != 0

/-- The set that the bytes stand for. -/
def toFinset (r : ReadOnlyBitSet) : Finset Nat :=
  (Finset.range r.maxValue).filter fun el => (ofLE r.data).testBit el

end ReadOnlyBitSet

namespace BitSet

/-- The maximum and the words. -/
def serialize (b : BitSet) : Bytes := toLE 4 b.maxValue ++ b.tinysets.flatMap TinySet.intoBytes

/-- `with_max_value`: the empty set. -/
def withMaxValue (profile : Profile) (maxValue : Nat) : Option BitSet :=
  (numBuckets profile maxValue).map fun n => ⟨List.replicate n TinySet.empty, 0, maxValue⟩

/-- `with_max_value_and_full`: the last word is fixed where there are bits behind the maximum, and
    without a word that panics. -/
def withMaxValueAndFull (profile : Profile) (maxValue : Nat) : Option BitSet :=
  match numBuckets profile maxValue with
  | none => none
  | some n =>
    let lower := maxValue % 64
    if lower = 0 then some ⟨List.replicate n TinySet.full, maxValue, maxValue⟩
    else if n = 0 then none
    else
      some ⟨(List.replicate n TinySet.full).set (n - 1) (TinySet.rangeLower lower), maxValue,
        maxValue⟩

/-- `clear`: the words are emptied; the count is not touched. -/
def clear (b : BitSet) : BitSet := { b with tinysets := b.tinysets.map fun _ => TinySet.empty }

/-- The loop of `intersect_update_with_iter`: the words, and the sum of their lengths. It stops
    where the other words end. -/
def intersectLoop : List TinySet → List TinySet → List TinySet × Nat
  | left :: ls, right :: rs =>
    let both := left.intersect right
    let rest := intersectLoop ls rs
    (both :: rest.1, both.len + rest.2)
  | ls, _ => (ls, 0)

/-- `intersect_update`. -/
def intersectUpdate (b : BitSet) (other : ReadOnlyBitSet) : BitSet :=
  let result := intersectLoop b.tinysets other.iterTinysets
  { b with tinysets := result.1, len := result.2 }

/-- The count goes up when the word changes. -/
def insert (profile : Profile) (b : BitSet) (el : Nat) : Option BitSet :=
  let higher := el / 64
  let lower := el % 64
  match b.tinysets[higher]? with
  | none => none
  | some tinyset =>
    let (changed, tinyset) := tinyset.insertMut lower
    (profile.fit 64 (b.len + changed.toNat)).map fun len =>
      { b with tinysets := b.tinysets.set higher tinyset, len := len }

/-- The count goes down when the word changes. -/
def remove (profile : Profile) (b : BitSet) (el : Nat) : Option BitSet :=
  let higher := el / 64
  let lower := el % 64
  match b.tinysets[higher]? with
  | none => none
  | some tinyset =>
    let (changed, tinyset) := tinyset.removeMut lower
    (profile.fitSub 64 b.len changed.toNat).map fun len =>
      { b with tinysets := b.tinysets.set higher tinyset, len := len }

/-- The word of a bucket. -/
def tinyset (b : BitSet) (bucket : Nat) : Option TinySet := b.tinysets[bucket]?

/-- Whether the word of the element has it. -/
def contains (b : BitSet) (el : Nat) : Option Bool :=
  (b.tinyset (el / 64)).map (·.contains (el % 64))

/-- `first_non_empty_bucket`: the slice panics behind the end. -/
def firstNonEmptyBucket (b : BitSet) (bucket : Nat) : Option (Option Nat) :=
  if b.tinysets.length < bucket then none
  else some (((b.tinysets.drop bucket).findIdx? (! ·.isEmpty)).map (bucket + ·))

/-- Going through a set from a bucket on: the next bucket with elements, and these as they are
    popped. -/
def walk (b : BitSet) : Nat → Nat → Option (List Nat)
  | 0, _ => none
  | fuel + 1, bucket =>
    match b.firstNonEmptyBucket bucket with
    | none => none
    | some none => some []
    | some (some cursorBucket) =>
      match b.tinyset cursorBucket, b.walk fuel (cursorBucket + 1) with
      | some tinyset, some rest => some (tinyset.elements.map (cursorBucket * 64 ||| ·) ++ rest)
      | _, _ => none

/-- Going through all of a set, which takes at most one round for each bucket and one more. -/
def elements (b : BitSet) : Option (List Nat) := b.walk (b.tinysets.length + 1) 0

end BitSet

/-! ### Calls -/

/-- A call that changes a set: an element is below the maximum, and another set has the same. -/
inductive BitSetOp (maxValue : Nat) where
  | insert (el : Fin maxValue)
  | remove (el : Fin maxValue)
  | clear
  | intersectUpdate (other : ReadOnlyBitSet) (same : other.maxValue = maxValue)

/-- What a set is made with. -/
inductive Start where
  | withMaxValue
  | withMaxValueAndFull

namespace BitSetOp

variable {maxValue : Nat}

/-- One operation; `none` is a panic. -/
def apply (profile : Profile) (b : BitSet) : BitSetOp maxValue → Option BitSet
  | .insert el => b.insert profile el
  | .remove el => b.remove profile el
  | .clear => some b.clear
  | .intersectUpdate other _ => some (b.intersectUpdate other)

/-- The same call on a plain set. -/
def onSet (s : Finset Nat) : BitSetOp maxValue → Finset Nat
  | .insert el => Insert.insert el.val s
  | .remove el => s.erase el
  | .clear => ∅
  | .intersectUpdate other _ => s ∩ other.toFinset

end BitSetOp

namespace Start

/-- The bit set at the start. -/
def make (profile : Profile) (maxValue : Nat) : Start → Option BitSet
  | .withMaxValue => BitSet.withMaxValue profile maxValue
  | .withMaxValueAndFull => BitSet.withMaxValueAndFull profile maxValue

/-- What it holds then. -/
def set (maxValue : Nat) : Start → Finset Nat
  | .withMaxValue => ∅
  | .withMaxValueAndFull => Finset.range maxValue

end Start

/-- The set that some calls lead to; a call that panics ends the run. -/
def BitSet.run (profile : Profile) {maxValue : Nat} (start : Start)
    (ops : List (BitSetOp maxValue)) : Option BitSet :=
  ops.foldl (fun b op => b.bind (op.apply profile ·)) (start.make profile maxValue)

/-- The plain set that the same calls lead to. -/
def setOf {maxValue : Nat} (start : Start) (ops : List (BitSetOp maxValue)) : Finset Nat :=
  ops.foldl BitSetOp.onSet (start.set maxValue)

end TeaclaveCrates.Tantivy.Common
