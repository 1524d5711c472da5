import Mathlib.Tactic.Ring
import Mathlib.Tactic.Linarith

namespace TeaclaveCrates.Lib

/-!
# Fixed-width integers on byte strings

Unsigned integers of a given number of bytes, in both byte orders:

* `toBE` / `ofBE` — most significant byte first;
* `toLE` / `ofLE` — least significant byte first;
* `ofBE_toBE`, `toBE_ofBE` (and the `LE` pair) — writing and reading are inverse,
  in one direction for the numbers that fit, in the other for the byte strings of
  the right length.

Writing truncates: a number that needs more than `w` bytes loses its high bytes,
as a cast to a narrower machine integer does.
-/

/-- A string of bytes. -/
abbrev Bytes := List UInt8

/-! ### Big endian -/

/-- The `w` low bytes of `n`, most significant first. -/
def toBE : Nat → Nat → Bytes
  | 0, _ => []
  | w + 1, n => UInt8.ofNat (n / 256 ^ w) :: toBE w n

/-- The number a byte string spells, most significant byte first. -/
def ofBE : Bytes → Nat
  | [] => 0
  | b :: bs => b.toNat * 256 ^ bs.length + ofBE bs

@[simp] theorem length_toBE (w n : Nat) : (toBE w n).length = w := by
  induction w with
  | zero => rfl
  | succ w ih => simp [toBE, ih]

theorem ofBE_lt (bs : Bytes) : ofBE bs < 256 ^ bs.length := by
  induction bs with
  | nil => simp [ofBE]
  | cons b bs ih =>
    have hb : b.toNat ≤ 255 := by have := b.toNat_lt; omega
    calc ofBE (b :: bs) < b.toNat * 256 ^ bs.length + 256 ^ bs.length :=
          Nat.add_lt_add_left ih _
      _ = (b.toNat + 1) * 256 ^ bs.length := by ring
      _ ≤ 256 * 256 ^ bs.length := Nat.mul_le_mul_right _ (by omega)
      _ = 256 ^ (b :: bs).length := by rw [List.length_cons, pow_succ, Nat.mul_comm]

/-- Reading what was written gives the number back, modulo the width. -/
theorem ofBE_toBE_mod (w n : Nat) : ofBE (toBE w n) = n % 256 ^ w := by
  induction w with
  | zero => simp [toBE, ofBE, Nat.mod_one]
  | succ w ih =>
    have hdiv : (UInt8.ofNat (n / 256 ^ w)).toNat = n / 256 ^ w % 256 := by simp
    rw [toBE, ofBE, ih, length_toBE, hdiv, pow_succ, Nat.mod_mul]
    ring

theorem ofBE_toBE {w n : Nat} (h : n < 256 ^ w) : ofBE (toBE w n) = n := by
  rw [ofBE_toBE_mod, Nat.mod_eq_of_lt h]

/-- Only the low `w` bytes of a number are written. -/
theorem toBE_add_mul (w n k : Nat) : toBE w (n + k * 256 ^ w) = toBE w n := by
  induction w generalizing k with
  | zero => rfl
  | succ w ih =>
    have hk : n + k * 256 ^ (w + 1) = n + (k * 256) * 256 ^ w := by ring
    have hpos : 0 < 256 ^ w := Nat.pow_pos (by decide)
    rw [toBE, hk, ih, Nat.add_mul_div_right _ _ hpos]
    congr 1
    simp

/-- Writing what was read gives the byte string back. -/
theorem toBE_ofBE (bs : Bytes) : toBE bs.length (ofBE bs) = bs := by
  induction bs with
  | nil => rfl
  | cons b bs ih =>
    have hpos : 0 < 256 ^ bs.length := Nat.pow_pos (by decide)
    have hdiv : ofBE (b :: bs) / 256 ^ bs.length = b.toNat := by
      rw [ofBE, Nat.add_comm, Nat.add_mul_div_right _ _ hpos, Nat.div_eq_of_lt (ofBE_lt bs)]
      omega
    have hlow : toBE bs.length (ofBE (b :: bs)) = bs := by
      rw [ofBE, Nat.add_comm, toBE_add_mul, ih]
    simp [toBE, hdiv, hlow]

/-! ### Little endian -/

/-- The `w` low bytes of `n`, least significant first. -/
def toLE : Nat → Nat → Bytes
  | 0, _ => []
  | w + 1, n => UInt8.ofNat n :: toLE w (n / 256)

/-- The number a byte string spells, least significant byte first. -/
def ofLE : Bytes → Nat
  | [] => 0
  | b :: bs => b.toNat + 256 * ofLE bs

@[simp] theorem length_toLE (w n : Nat) : (toLE w n).length = w := by
  induction w generalizing n with
  | zero => rfl
  | succ w ih => simp [toLE, ih]

theorem ofLE_toLE {w n : Nat} (h : n < 256 ^ w) : ofLE (toLE w n) = n := by
  induction w generalizing n with
  | zero => simp at h; simp [toLE, ofLE, h]
  | succ w ih =>
    have hdiv : n / 256 < 256 ^ w := by
      rw [pow_succ] at h
      exact Nat.div_lt_of_lt_mul (by rwa [Nat.mul_comm] at h)
    have hb : (UInt8.ofNat n).toNat = n % 256 := by simp
    rw [toLE, ofLE, ih hdiv, hb]
    omega

end TeaclaveCrates.Lib
