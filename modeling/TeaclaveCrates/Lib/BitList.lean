import Mathlib.Data.List.Range
import Mathlib.Data.List.Flatten
import Mathlib.Data.Nat.Bitwise

namespace TeaclaveCrates.Lib

/-!
# The bits of a word as a list

* `bitList` — the positions of the bits of a bit vector, in increasing order.
* `bitList_pop` — the lowest of them is at `ctz`, and the others are left when it is flipped.
* `length_bitList` — there are `cpop` of them.
* `bitAt`, `bitsFrom` — the same for several words, one after the other (`bitsFrom_eq`).
* `ofWords`, `testBit_ofWords` — the bits of the number that the words spell.
-/

variable {w : Nat}

/-- The positions of the bits that are set, from the lowest on. -/
def bitList (x : BitVec w) : List Nat := (List.range w).filter x.getLsbD

@[simp] theorem bitList_zero : bitList 0#w = [] := by
  rw [bitList, List.filter_eq_nil_iff]
  intro i _
  rw [BitVec.getLsbD_zero]
  exact Bool.false_ne_true

variable {x : BitVec w}

theorem mem_bitList {i : Nat} : i ∈ bitList x ↔ x.getLsbD i = true := by
  rw [bitList, List.mem_filter, List.mem_range]
  constructor
  · exact And.right
  · exact fun h => ⟨BitVec.lt_of_getLsbD h, h⟩

theorem length_bitList (x : BitVec w) : (bitList x).length = x.cpop.toNat := by
  have hprefix : ∀ k, ((List.range k).filter x.getLsbD).length = x.cpopNatRec k 0 := by
    intro k
    induction k with
    | zero => rfl
    | succ k ih =>
      rw [List.range_succ, List.filter_append, List.length_append, ih, BitVec.cpopNatRec_succ,
        BitVec.cpopNatRec_add, List.filter_singleton]
      cases x.getLsbD k <;> rfl
  rw [BitVec.toNat_cpop, ← hprefix]
  rfl

/-- The test of a bit by a mask. -/
theorem and_one_shiftLeft_eq_zero (x : BitVec w) {i : Nat} (hi : i < w) :
    x &&& (1#w <<< i) = 0#w ↔ x.getLsbD i = false := by
  rw [← BitVec.twoPow_eq, BitVec.and_twoPow]
  cases hbit : x.getLsbD i with
  | true =>
    rw [if_pos rfl]
    constructor
    · intro hzero
      have hone := congrArg (BitVec.getLsbD · i) hzero
      simp only [BitVec.getLsbD_twoPow, hi, decide_true, Bool.and_true, BitVec.getLsbD_zero] at hone
      exact hone
    · exact fun h => absurd h.symm Bool.false_ne_true
  | false =>
    exact ⟨fun _ => rfl, fun _ => rfl⟩

theorem ctz_lt (hx : x ≠ 0#w) : x.ctz.toNat < w :=
  BitVec.lt_of_getLsbD (BitVec.getLsbD_true_ctz_of_ne_zero hx)

/-- Flipping the lowest bit leaves the others. -/
theorem getLsbD_flip_ctz (hx : x ≠ 0#w) (i : Nat) :
    (x ^^^ (1#w <<< x.ctz.toNat)).getLsbD i = (x.getLsbD i && decide (i ≠ x.ctz.toNat)) := by
  have hlow := BitVec.getLsbD_true_ctz_of_ne_zero hx
  have hlt := ctz_lt hx
  rw [BitVec.getLsbD_xor, ← BitVec.twoPow_eq, BitVec.getLsbD_twoPow]
  by_cases hi : i = x.ctz.toNat
  · simp [hi, hlow, decide_eq_true hlt]
  · have hne : ¬x.ctz.toNat = i := fun h => hi h.symm
    rw [decide_eq_false hne, decide_eq_true hi, Bool.and_false, Bool.xor_false, Bool.and_true]

theorem range_eq_append_range' {m n : Nat} (h : m ≤ n) :
    List.range n = List.range m ++ List.range' m (n - m) := by
  have happend := @List.range'_append_1 0 m (n - m)
  rw [Nat.zero_add, Nat.add_sub_cancel' h] at happend
  simp [List.range_eq_range', happend]

/-- **Popping the lowest bit.** -/
theorem bitList_pop (hx : x ≠ 0#w) :
    bitList x = x.ctz.toNat :: bitList (x ^^^ (1#w <<< x.ctz.toNat)) := by
  have hlt := ctz_lt hx
  have hsplit : List.range w = List.range x.ctz.toNat ++
      x.ctz.toNat :: (List.range' (x.ctz.toNat + 1) (w - x.ctz.toNat - 1)) := by
    rw [← List.range'_succ, range_eq_append_range' hlt.le]
    congr 2
    omega
  have hlow : ∀ y : BitVec w, (∀ i < x.ctz.toNat, y.getLsbD i = false) →
      (List.range x.ctz.toNat).filter y.getLsbD = [] := by
    intro y hy
    rw [List.filter_eq_nil_iff]
    intro i hi
    rw [hy i (List.mem_range.mp hi)]
    exact Bool.false_ne_true
  have hflip := getLsbD_flip_ctz hx
  rw [bitList, bitList, hsplit, List.filter_append, List.filter_append,
    hlow x fun i hi => BitVec.getLsbD_false_of_lt_ctz hi, hlow _ ?_, List.nil_append,
    List.filter_cons_of_pos (BitVec.getLsbD_true_ctz_of_ne_zero hx), List.filter_cons_of_neg]
  · congr 1
    refine List.filter_congr fun i hi => ?_
    have hgt := (List.mem_range'_1.mp hi).1
    rw [hflip, decide_eq_true (by omega), Bool.and_true]
  · rw [hflip, decide_eq_false (not_not_intro rfl), Bool.and_false]
    exact Bool.false_ne_true
  · intro i hi
    rw [hflip, BitVec.getLsbD_false_of_lt_ctz hi, Bool.false_and]

/-! ### The bits of several words -/

/-- The bit at a position of several words, one after the other. -/
def bitAt (xs : List (BitVec w)) (i : Nat) : Bool :=
  match xs[i / w]? with
  | some x => x.getLsbD (i % w)
  | none => false

/-- The positions of the bits of several words, the first of which has the number `n`. -/
def bitsFrom : Nat → List (BitVec w) → List Nat
  | _, [] => []
  | n, x :: xs => (bitList x).map (n * w + ·) ++ bitsFrom (n + 1) xs

theorem bitAt_cons_of_lt (x : BitVec w) (xs : List (BitVec w)) {i : Nat} (hi : i < w) :
    bitAt (x :: xs) i = x.getLsbD i := by
  simp [bitAt, Nat.div_eq_of_lt hi, Nat.mod_eq_of_lt hi]

theorem bitAt_cons_add (hw : 0 < w) (x : BitVec w) (xs : List (BitVec w)) (i : Nat) :
    bitAt (x :: xs) (w + i) = bitAt xs i := by
  simp [bitAt, Nat.add_div_left _ hw]

/-- The number that several words spell, the lowest one first. -/
def ofWords : List (BitVec w) → Nat
  | [] => 0
  | x :: xs => 2 ^ w * ofWords xs + x.toNat

theorem testBit_ofWords (hw : 0 < w) (xs : List (BitVec w)) (i : Nat) :
    (ofWords xs).testBit i = bitAt xs i := by
  induction xs generalizing i with
  | nil => exact Nat.zero_testBit i
  | cons x xs ih =>
    rw [ofWords, Nat.testBit_two_pow_mul_add _ x.isLt]
    by_cases hi : i < w
    · rw [if_pos hi, bitAt_cons_of_lt x xs hi]
      rfl
    · obtain ⟨j, rfl⟩ := Nat.exists_eq_add_of_le (Nat.le_of_not_lt hi)
      simp [hi, ih, bitAt_cons_add hw]

theorem length_bitsFrom (n : Nat) (xs : List (BitVec w)) :
    (bitsFrom n xs).length = (xs.map fun x => x.cpop.toNat).sum := by
  induction xs generalizing n with
  | nil => rfl
  | cons x xs ih =>
    simp [bitsFrom, length_bitList, ih]

/-- Words without bits in front count for nothing. -/
theorem bitsFrom_append_zeros (n : Nat) {zeros : List (BitVec w)} (hzeros : ∀ x ∈ zeros, x = 0#w)
    (xs : List (BitVec w)) : bitsFrom n (zeros ++ xs) = bitsFrom (n + zeros.length) xs := by
  induction zeros generalizing n with
  | nil => rfl
  | cons zero zeros ih =>
    have hrest := ih (n + 1) fun x hx => hzeros x (List.mem_cons_of_mem _ hx)
    simp [bitsFrom, hzeros zero List.mem_cons_self, hrest, Nat.add_assoc, Nat.add_comm 1]

/-- **The bits of several words** are the positions below their total width whose bit is set, in
    increasing order. -/
theorem bitsFrom_eq (hw : 0 < w) (n : Nat) (xs : List (BitVec w)) :
    bitsFrom n xs =
      ((List.range (xs.length * w)).filter (bitAt xs)).map (n * w + ·) := by
  induction xs generalizing n with
  | nil => rw [List.length_nil, Nat.zero_mul]; rfl
  | cons x xs ih =>
    have hsplit : List.range ((x :: xs).length * w) =
        List.range w ++ (List.range (xs.length * w)).map (w + ·) := by
      rw [List.length_cons, Nat.succ_mul, Nat.add_comm, List.range_add]
    have hfirst : (List.range w).filter (bitAt (x :: xs)) = bitList x :=
      List.filter_congr fun i hi => bitAt_cons_of_lt x xs (List.mem_range.mp hi)
    have hrest : (bitAt (x :: xs)) ∘ (w + ·) = bitAt xs := funext (bitAt_cons_add hw x xs)
    rw [hsplit, List.filter_append, List.map_append, hfirst, List.filter_map, hrest, List.map_map,
      bitsFrom, ih]
    congr 2
    funext i
    rw [Function.comp_apply, Nat.succ_mul, Nat.add_assoc]

end TeaclaveCrates.Lib
