import Mathlib.Data.List.Basic
import Mathlib.Data.Nat.Basic

namespace TeaclaveCrates.Lib

/-!
# Full blocks and a tail

A list that is stored in blocks of `n` elements, with a shorter tail behind them.

* `block` — the elements of one block, the last of which may be the tail;
* `fullBlocks`, `tailBlock` — the blocks that are full, and what is behind them;
* `fullBlocks_append`, `fullBlocks_append_full` — how they grow with the list;
* `slice_block` — what is read from a block is read from the list.
-/

variable {α : Type*} {n : Nat} {l xs : List α} {j : Nat}

/-- The elements from `n * j` on, `n` at most. -/
def block (n : Nat) (l : List α) (j : Nat) : List α := (l.drop (n * j)).take n

/-- The blocks of `n` elements. -/
def fullBlocks (n : Nat) (l : List α) : List (List α) :=
  (List.range (l.length / n)).map (block n l)

/-- The elements behind the full blocks. -/
def tailBlock (n : Nat) (l : List α) : List α := l.drop (n * (l.length / n))

@[simp] theorem fullBlocks_nil : fullBlocks n ([] : List α) = [] := by simp [fullBlocks]

@[simp] theorem tailBlock_nil : tailBlock n ([] : List α) = [] := by simp [tailBlock]

@[simp] theorem length_fullBlocks : (fullBlocks n l).length = l.length / n := by simp [fullBlocks]

@[simp] theorem length_tailBlock : (tailBlock n l).length = l.length % n := by
  rw [tailBlock, List.length_drop, Nat.mod_eq_sub]

theorem length_tailBlock_lt (hn : 0 < n) : (tailBlock n l).length < n := by
  rw [length_tailBlock]
  exact Nat.mod_lt _ hn

theorem mul_succ_le_of_lt_div (h : j < l.length / n) : n * (j + 1) ≤ l.length :=
  le_trans (Nat.mul_le_mul_left n h) (Nat.mul_div_le l.length n)

theorem length_block_of_lt (h : j < l.length / n) : (block n l j).length = n := by
  have hle := mul_succ_le_of_lt_div h
  rw [Nat.mul_succ] at hle
  rw [block, List.length_take, List.length_drop]
  omega

theorem mem_fullBlocks {b : List α} (h : b ∈ fullBlocks n l) :
    b.length = n ∧ ∀ a ∈ b, a ∈ l := by
  obtain ⟨j, hj, rfl⟩ := List.mem_map.mp h
  exact ⟨length_block_of_lt (List.mem_range.mp hj),
    fun a ha => List.mem_of_mem_drop (List.mem_of_mem_take ha)⟩

theorem getElem?_fullBlocks (h : j < l.length / n) :
    (fullBlocks n l)[j]? = some (block n l j) := by
  rw [fullBlocks, List.getElem?_map, List.getElem?_range h, Option.map_some]

/-- The block behind the full ones is the tail. -/
theorem block_length_div (hn : 0 < n) : block n l (l.length / n) = tailBlock n l := by
  rw [block, ← tailBlock, List.take_of_length_le (Nat.le_of_lt (length_tailBlock_lt hn))]

theorem block_append (h : j < l.length / n) : block n (l ++ xs) j = block n l j := by
  have hle := mul_succ_le_of_lt_div h
  rw [Nat.mul_succ] at hle
  rw [block, block, List.drop_append_of_le_length (by omega),
    List.take_append_of_le_length (by rw [List.length_drop]; omega)]

/-- Elements that do not fill the tail are added to it. -/
theorem fullBlocks_append (h : l.length % n + xs.length < n) :
    fullBlocks n (l ++ xs) = fullBlocks n l ∧ tailBlock n (l ++ xs) = tailBlock n l ++ xs := by
  have hdiv : (l ++ xs).length / n = l.length / n := by
    have hsum := Nat.div_add_mod l.length n
    rw [List.length_append]
    apply Nat.div_eq_of_lt_le
    · rw [Nat.mul_comm]
      omega
    · rw [Nat.succ_mul, Nat.mul_comm (l.length / n) n]
      omega
  constructor
  · rw [fullBlocks, hdiv]
    apply List.map_congr_left
    intro j hj
    exact block_append (List.mem_range.mp hj)
  · rw [tailBlock, tailBlock, hdiv, List.drop_append_of_le_length (Nat.mul_div_le _ _)]

/-- Elements that fill the tail make it a block. -/
theorem fullBlocks_append_full (hn : 0 < n) (h : l.length % n + xs.length = n) :
    fullBlocks n (l ++ xs) = fullBlocks n l ++ [tailBlock n l ++ xs] ∧
      tailBlock n (l ++ xs) = [] := by
  have hsum := Nat.div_add_mod l.length n
  have hlen : (l ++ xs).length = n * (l.length / n + 1) := by
    rw [List.length_append, Nat.mul_succ]
    omega
  have hdiv : (l ++ xs).length / n = l.length / n + 1 := by
    rw [hlen, Nat.mul_div_cancel_left _ hn]
  constructor
  · rw [fullBlocks, hdiv, List.range_succ, List.map_append, List.map_singleton]
    congr 1
    · apply List.map_congr_left
      intro j hj
      exact block_append (List.mem_range.mp hj)
    · rw [block, List.drop_append_of_le_length (Nat.mul_div_le _ _), ← tailBlock,
        List.take_of_length_le]
      rw [List.length_append, length_tailBlock]
      omega
  · rw [tailBlock, hdiv, ← hlen, List.drop_length]

/-- A part of a block is a part of the list. -/
theorem slice_block {o m : Nat} (h : o + m ≤ n) :
    ((block n l j).drop o).take m = (l.drop (n * j + o)).take m := by
  rw [block, List.drop_take, List.drop_drop, List.take_take, min_eq_left (by omega)]

end TeaclaveCrates.Lib
