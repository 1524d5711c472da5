import Mathlib.Algebra.Group.Nat.Defs

namespace TeaclaveCrates.Lib

/-!
# Checked arithmetic

The operations of an unsigned machine type that panic where their result does not fit.

* `checkedAdd`, `checkedSub`, `checkedMul`, `checkedRem`, `checkedShl` — `none` is a panic.
* `Represents` — the value of an operation that did not panic.
-/

variable {w : Nat}

/-- A sum that fits. -/
def checkedAdd (x y : BitVec w) : Option (BitVec w) :=
  if x.uaddOverflow y then none else some (x + y)

/-- A difference that is not negative. -/
def checkedSub (x y : BitVec w) : Option (BitVec w) :=
  if x.usubOverflow y then none else some (x - y)

/-- A product that fits. -/
def checkedMul (x y : BitVec w) : Option (BitVec w) :=
  if x.umulOverflow y then none else some (x * y)

/-- A remainder by something else than zero. -/
def checkedRem (x y : BitVec w) : Option (BitVec w) := if y = 0 then none else some (x % y)

/-- A shift by less than the width; what is pushed out is lost. -/
def checkedShl (x : BitVec w) (n : Nat) : Option (BitVec w) :=
  if n < w then some (x <<< n) else none

/-- The operation gives this number. -/
def Represents (o : Option (BitVec w)) (n : Nat) : Prop := ∃ x, o = some x ∧ x.toNat = n

variable {y x : BitVec w}

/-- Sums below the bound of the type fit. -/
theorem checkedAdd_represents (h : x.toNat + y.toNat < 2 ^ w) :
    Represents (checkedAdd x y) (x.toNat + y.toNat) := by
  refine ⟨x + y, if_neg ?_, BitVec.toNat_add_of_lt h⟩
  simpa [BitVec.uaddOverflow] using h

theorem checkedSub_represents (h : y.toNat ≤ x.toNat) :
    Represents (checkedSub x y) (x.toNat - y.toNat) := by
  refine ⟨x - y, if_neg ?_, BitVec.toNat_sub_of_le (BitVec.le_def.mpr h)⟩
  simpa [BitVec.usubOverflow] using h

theorem checkedMul_represents (h : x.toNat * y.toNat < 2 ^ w) :
    Represents (checkedMul x y) (x.toNat * y.toNat) := by
  refine ⟨x * y, if_neg ?_, BitVec.toNat_mul_of_lt h⟩
  simpa [BitVec.umulOverflow] using h

theorem checkedRem_represents (h : y ≠ 0) :
    Represents (checkedRem x y) (x.toNat % y.toNat) :=
  ⟨x % y, if_neg h, BitVec.toNat_umod⟩

/-- A shift multiplies by a power of two. -/
theorem checkedShl_represents {n : Nat} (hn : n < w) (h : x.toNat * 2 ^ n < 2 ^ w) :
    Represents (checkedShl x n) (x.toNat * 2 ^ n) := by
  refine ⟨x <<< n, if_pos hn, ?_⟩
  rw [BitVec.toNat_shiftLeft, Nat.shiftLeft_eq, Nat.mod_eq_of_lt h]

end TeaclaveCrates.Lib
