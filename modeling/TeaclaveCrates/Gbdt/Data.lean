import Mathlib.Algebra.Field.Rat
import Mathlib.Algebra.Order.Ring.Rat
import Mathlib.Data.List.Sort

namespace TeaclaveCrates.Gbdt

/-!
# Samples and arithmetic

The values of `gbdt` are of the type `f32`, and sums are taken in `f64`. The model leaves both types
open: `V` stands for `ValueType` and `F` for `f64`, with the operations as they are and no law about
them. What the standard library and `rand` leave open is a parameter too.

* `Arith` — the constants and the conversions between the two types.
* `Arith.rat` — both types read as exact rationals.
* `UnstableSort`, `Shuffler` — `sort_unstable_by` and `shuffle`.
* `Data`, `Loss` — a sample, and the loss to be minimised.
* `almostEqual` — values that count as equal.
-/

/-! ### Arithmetic -/

/-- What is used of `f32` and `f64` besides their operators. -/
structure Arith (V F : Type) where
  /-- `VALUE_TYPE_UNKNOWN` -/
  unknown : V
  /-- `ValueType::abs` -/
  absV : V → V
  /-- `f64::abs` -/
  absF : F → F
  /-- `f64::MAX` -/
  maxF : F
  /-- `f64::from` -/
  ofValue : V → F
  /-- `as ValueType` -/
  asValue : F → V
  /-- The literal `1.0e-5`. -/
  close : F
  /-- The literal `1e-10`. -/
  tiny : F
  /-- `as f64` of a `usize` -/
  ofUsize : Nat → F
  /-- `as usize` of an `f64` -/
  asUsize : F → Nat

/-- Both types read as exact rationals, with the constants of `f32` and `f64`. -/
def Arith.rat : Arith ℚ ℚ where
  unknown := -(2 ^ 128 - 2 ^ 104)
  absV := abs
  absF := abs
  maxF := 2 ^ 1024 - 2 ^ 971
  ofValue := id
  asValue := id
  close := 1 / 100000
  tiny := 1 / 10 ^ 10
  ofUsize := Nat.cast
  asUsize q := q.floor.toNat

section

variable {V F : Type} [LinearOrder V] [Sub V] [LT F] [DecidableLT F]

/-- `almost_equal` -/
def Arith.almostEqual (A : Arith V F) (a b : V) : Bool :=
  decide (A.ofValue (A.absV (a - b)) < A.close)

end

/-! ### Sorting and shuffling -/

/-- `sort_unstable_by` on pairs of an index and a value, by the value. Pairs with the same value may
    come in any order, but the same input is sorted in the same way. -/
structure UnstableSort (V : Type) [LinearOrder V] where
  run : List (Nat × V) → List (Nat × V)
  perm : ∀ l, (run l).Perm l
  sorted : ∀ l, (run l).Pairwise fun a b => a.2 ≤ b.2

/-- A sort that keeps the order of pairs with the same value. -/
def UnstableSort.stable {V : Type} [LinearOrder V] : UnstableSort V where
  run := List.insertionSort fun a b => a.2 ≤ b.2
  perm := List.perm_insertionSort _
  sorted l := by
    have : Std.Total fun a b : Nat × V => a.2 ≤ b.2 := ⟨fun a b => le_total a.2 b.2⟩
    have : IsTrans (Nat × V) fun a b => a.2 ≤ b.2 := ⟨fun _ _ _ hab hbc => le_trans hab hbc⟩
    exact List.pairwise_insertionSort _ l

/-- `shuffle` with a generator in the state `R`. -/
structure Shuffler (R : Type) where
  run : List Nat → R → List Nat × R
  perm : ∀ l g, (run l g).1.Perm l

/-- A shuffle that leaves everything in its place. -/
def Shuffler.still : Shuffler Unit := ⟨fun l g => (l, g), fun l _ => List.Perm.refl l⟩

/-! ### Samples -/

/-- A sample. -/
structure Data (V : Type) where
  feature : List V
  target : V
  weight : V
  label : V
  residual : V
  initialGuess : V
  deriving DecidableEq, Repr

/-- The loss. -/
inductive Loss
  | squaredError
  | logLikelyhood
  | lad
  | regLinear
  | regLogistic
  | binaryLogistic
  | binaryLogitraw
  | multiSoftprob
  | multiSoftmax
  | rankPairwise
  deriving DecidableEq, Repr

/-- `feature[index]`. The index is within range wherever the training reads it. -/
def Data.value {V : Type} [Zero V] (x : Data V) (index : Nat) : V := x.feature.getD index 0

/-- A training set, whose samples have at least the features that are trained on. -/
structure TrainingSet (V : Type) (featureSize : Nat) where
  samples : List (Data V)
  valid : ∀ x ∈ samples, featureSize ≤ x.feature.length

end TeaclaveCrates.Gbdt
