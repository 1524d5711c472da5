import Mathlib.Algebra.BigOperators.Group.List.Basic
import TeaclaveCrates.Lib.Bytes

namespace TeaclaveCrates.Lib

/-!
# Numbers packed bit by bit

A sequence of numbers, each with a width in bits, spells one number with the first in the lowest
bits.  Bytes in little-endian order are such a sequence of width 8, so that a byte string and the
numbers packed into it are compared as one number.

* `packed` — the number a sequence of pairs (value, width) spells.
* `packed_append`, `packed_div`, `packed_mod` — how it is put together and taken apart.
* `ofLE_append`, `ofLE_drop`, `ofLE_take` — the same for byte strings.
-/

/-- The widths of a sequence, added up. -/
def totalBits (xs : List (Nat × Nat)) : Nat := (xs.map Prod.snd).sum

/-- The number that a sequence of values with their widths spells, the first lowest. -/
def packed : List (Nat × Nat) → Nat
  | [] => 0
  | (v, b) :: rest => v + 2 ^ b * packed rest

/-- Every value fits its width. -/
def Fits (xs : List (Nat × Nat)) : Prop := ∀ p ∈ xs, p.1 < 2 ^ p.2

@[simp] theorem totalBits_nil : totalBits [] = 0 := rfl

@[simp] theorem totalBits_cons (p : Nat × Nat) (xs : List (Nat × Nat)) :
    totalBits (p :: xs) = p.2 + totalBits xs := by
  simp [totalBits]

@[simp] theorem totalBits_append (xs ys : List (Nat × Nat)) :
    totalBits (xs ++ ys) = totalBits xs + totalBits ys := by
  simp [totalBits]

theorem totalBits_map_const (vals : List Nat) (b : Nat) :
    totalBits (vals.map fun v => (v, b)) = vals.length * b := by
  induction vals with
  | nil => simp
  | cons v rest ih =>
    rw [List.map_cons, totalBits_cons, ih, List.length_cons, Nat.succ_mul, Nat.add_comm]

theorem packed_append (xs ys : List (Nat × Nat)) :
    packed (xs ++ ys) = packed xs + 2 ^ totalBits xs * packed ys := by
  induction xs with
  | nil => simp [packed]
  | cons p rest ih =>
    rw [List.cons_append, packed, packed, ih, totalBits_cons, pow_add]
    ring

variable {xs : List (Nat × Nat)}

theorem packed_lt (h : Fits xs) : packed xs < 2 ^ totalBits xs := by
  induction xs with
  | nil => simp [packed]
  | cons p rest ih =>
    have hp : p.1 < 2 ^ p.2 := h p (by simp)
    have hrest := ih fun q hq => h q (List.mem_cons_of_mem _ hq)
    rw [packed, totalBits_cons, pow_add]
    calc p.1 + 2 ^ p.2 * packed rest < 2 ^ p.2 + 2 ^ p.2 * packed rest :=
          Nat.add_lt_add_right hp _
      _ = 2 ^ p.2 * (packed rest + 1) := by ring
      _ ≤ 2 ^ p.2 * 2 ^ totalBits rest := Nat.mul_le_mul_left _ hrest

/-- Behind some values come the others. -/
theorem packed_div (h : Fits xs) (ys : List (Nat × Nat)) :
    packed (xs ++ ys) / 2 ^ totalBits xs = packed ys := by
  rw [packed_append, Nat.add_mul_div_left _ _ (Nat.two_pow_pos _),
    Nat.div_eq_of_lt (packed_lt h), Nat.zero_add]

/-- The lowest bits are the first value. -/
theorem packed_mod {v b : Nat} (h : v < 2 ^ b) (xs : List (Nat × Nat)) :
    packed ((v, b) :: xs) % 2 ^ b = v := by
  rw [packed, Nat.add_mul_mod_self_left, Nat.mod_eq_of_lt h]

/-! ### Byte strings -/

theorem ofLE_append (as bs : Bytes) : ofLE (as ++ bs) = ofLE as + 256 ^ as.length * ofLE bs := by
  induction as with
  | nil => simp [ofLE]
  | cons a as ih =>
    rw [List.cons_append, ofLE, ofLE, ih, List.length_cons, pow_succ]
    ring

theorem ofLE_lt (bs : Bytes) : ofLE bs < 256 ^ bs.length := by
  induction bs with
  | nil => simp [ofLE]
  | cons b bs ih =>
    have hb := b.toNat_lt
    rw [ofLE, List.length_cons, pow_succ]
    omega

theorem ofLE_replicate_zero (n : Nat) : ofLE (List.replicate n 0) = 0 := by
  induction n with
  | zero => rfl
  | succ n ih => rw [List.replicate_succ, ofLE, ih]; rfl

/-- Leaving bytes out divides. -/
theorem ofLE_drop (bs : Bytes) {k : Nat} (hk : k ≤ bs.length) :
    ofLE (bs.drop k) = ofLE bs / 256 ^ k := by
  have hlen : (bs.take k).length = k := by rw [List.length_take]; omega
  have hlt := ofLE_lt (bs.take k)
  have hsplit := ofLE_append (bs.take k) (bs.drop k)
  rw [List.take_append_drop, hlen] at hsplit
  rw [hlen] at hlt
  rw [hsplit, Nat.add_mul_div_left _ _ (Nat.pow_pos (by decide)), Nat.div_eq_of_lt hlt,
    Nat.zero_add]

/-- Keeping the first bytes is a remainder. -/
theorem ofLE_take (bs : Bytes) {k : Nat} (hk : k ≤ bs.length) :
    ofLE (bs.take k) = ofLE bs % 256 ^ k := by
  have hlen : (bs.take k).length = k := by rw [List.length_take]; omega
  have hlt := ofLE_lt (bs.take k)
  have hsplit := ofLE_append (bs.take k) (bs.drop k)
  rw [List.take_append_drop, hlen] at hsplit
  rw [hlen] at hlt
  rw [hsplit, Nat.add_mul_mod_self_left, Nat.mod_eq_of_lt hlt]

theorem two_pow_eight_mul (k : Nat) : 2 ^ (8 * k) = 256 ^ k := by
  rw [pow_mul]
  norm_num

/-- What follows some bytes is one more value behind theirs, after a gap that fills the bytes. -/
theorem exists_packed_append {bytes : Bytes} (h : ofLE bytes = packed xs)
    (hroom : totalBits xs ≤ 8 * bytes.length) (rest : Bytes) :
    ∃ post, ofLE (bytes ++ rest) = packed (xs ++ post) := by
  refine ⟨[(0, 8 * bytes.length - totalBits xs), (ofLE rest, 0)], ?_⟩
  have hsum : 8 * bytes.length = totalBits xs + (8 * bytes.length - totalBits xs) := by omega
  rw [ofLE_append, h, packed_append, packed, packed, packed, ← two_pow_eight_mul, hsum, pow_add,
    ← hsum]
  ring

/-- The low bits of a number are not touched by a remainder above them. -/
theorem mod_div_mod {n w s b : Nat} (h : s + b ≤ w) :
    n % 2 ^ w / 2 ^ s % 2 ^ b = n / 2 ^ s % 2 ^ b := by
  obtain ⟨k, rfl⟩ := Nat.exists_eq_add_of_le (show s ≤ w by omega)
  rw [pow_add, Nat.mod_mul_right_div_self, Nat.mod_mod_of_dvd]
  exact Nat.pow_dvd_pow 2 (by omega)

/-- Setting bits above those of the buffer is an addition, of which the width keeps the low bits. -/
theorem or_shiftLeft_mod {buffer val written width : Nat} (hbuffer : buffer < 2 ^ written)
    (hwritten : written < width) :
    buffer ||| (val <<< written) % 2 ^ width = (buffer + 2 ^ written * val) % 2 ^ width := by
  obtain ⟨k, hk⟩ : ∃ k, width = written + k := ⟨width - written, by omega⟩
  have hmod : (val <<< written) % 2 ^ width = (val % 2 ^ k) <<< written := by
    simp [Nat.shiftLeft_eq, hk, pow_add, Nat.mul_comm (2 ^ written) (2 ^ k), Nat.mul_mod_mul_right]
  have hlt : buffer + 2 ^ written * (val % 2 ^ k) < 2 ^ width := by
    have hval : val % 2 ^ k + 1 ≤ 2 ^ k := Nat.mod_lt _ (Nat.two_pow_pos k)
    calc buffer + 2 ^ written * (val % 2 ^ k) < 2 ^ written + 2 ^ written * (val % 2 ^ k) := by
          omega
      _ = 2 ^ written * (val % 2 ^ k + 1) := by ring
      _ ≤ 2 ^ written * 2 ^ k := Nat.mul_le_mul_left _ hval
      _ = 2 ^ width := by rw [← pow_add, ← hk]
  rw [hmod, Nat.or_comm, ← Nat.shiftLeft_add_eq_or_of_lt hbuffer, Nat.shiftLeft_eq]
  have hval : val = val % 2 ^ k + 2 ^ k * (val / 2 ^ k) := (Nat.mod_add_div _ _).symm
  have hsum : buffer + 2 ^ written * val =
      (buffer + 2 ^ written * (val % 2 ^ k)) + 2 ^ width * (val / 2 ^ k) := by
    calc buffer + 2 ^ written * val
        = buffer + 2 ^ written * (val % 2 ^ k + 2 ^ k * (val / 2 ^ k)) := by rw [← hval]
      _ = (buffer + 2 ^ written * (val % 2 ^ k)) + (2 ^ written * 2 ^ k) * (val / 2 ^ k) := by ring
      _ = _ := by rw [← pow_add, ← hk]
  rw [hsum, Nat.add_mul_mod_self_left, Nat.mod_eq_of_lt hlt]
  ring

end TeaclaveCrates.Lib
