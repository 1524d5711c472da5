import TeaclaveCrates.Lib.Layers

namespace TeaclaveCrates.Lib

/-!
# Distance layers in the order of discovery

The layers of a relation that is given by lists of successors, as lists: a point stands where it is
found first when the layer before it is gone through in order.

* `fresh` — the points of a list that are new, in order.
* `sweep` — what is found in the first layers, and the last of them.
* `Bottleneck`, `bottlenecks` — layers of which only the last point finds something new.
* `Walk` — walks by their length; `mem_ball_iff_walk`.
-/

universe u

variable {α : Type u} [DecidableEq α]

/-! ### New points -/

/-- The points of a list that were not seen before, each where it stands first. -/
def fresh : List α → List α → List α
  | _, [] => []
  | seen, x :: xs => if x ∈ seen then fresh seen xs else x :: fresh (x :: seen) xs

theorem mem_fresh {seen l : List α} {y : α} : y ∈ fresh seen l ↔ y ∈ l ∧ y ∉ seen := by
  induction l generalizing seen with
  | nil => simp [fresh]
  | cons x xs ih =>
    rw [fresh]
    by_cases hx : x ∈ seen
    · rw [if_pos hx, ih, List.mem_cons]
      constructor
      · rintro ⟨hy, hseen⟩
        exact ⟨Or.inr hy, hseen⟩
      · rintro ⟨rfl | hy, hseen⟩
        · exact absurd hx hseen
        · exact ⟨hy, hseen⟩
    · rw [if_neg hx, List.mem_cons, ih]
      by_cases hyx : y = x
      · simp [hyx, hx]
      · simp [hyx]

theorem nodup_fresh (seen l : List α) : (fresh seen l).Nodup := by
  induction l generalizing seen with
  | nil => exact List.nodup_nil
  | cons x xs ih =>
    rw [fresh]
    split
    · exact ih seen
    · rw [List.nodup_cons]
      exact ⟨fun hx => (mem_fresh.mp hx).2 List.mem_cons_self, ih (x :: seen)⟩

theorem fresh_append (seen l m : List α) :
    fresh seen (l ++ m) = fresh seen l ++ fresh ((fresh seen l).reverse ++ seen) m := by
  induction l generalizing seen with
  | nil => rfl
  | cons x xs ih =>
    rw [List.cons_append, fresh, fresh]
    split
    · exact ih seen
    · simp [ih (x :: seen)]

theorem fresh_eq_nil_iff {seen l : List α} : fresh seen l = [] ↔ ∀ y ∈ l, y ∈ seen := by
  rw [List.eq_nil_iff_forall_not_mem]
  constructor
  · intro h y hy
    by_contra hseen
    exact h y (mem_fresh.mpr ⟨hy, hseen⟩)
  · intro h y hy
    exact (mem_fresh.mp hy).2 (h y (mem_fresh.mp hy).1)

/-! ### Layers -/

section Sweep

variable (succs : α → List α) (a : α)

/-- What is found in the layers up to the `k`-th, the latest first, and that layer in order. -/
def sweep : ℕ → List α × List α
  | 0 => ([a], [a])
  | k + 1 =>
    let new := fresh (sweep k).1 ((sweep k).2.flatMap succs)
    (new.reverse ++ (sweep k).1, new)

/-- The relation between a point and its successors. -/
def succRel (x y : α) : Prop := y ∈ succs x

/-- Only the last point of the layer finds something new. -/
def Bottleneck (k : ℕ) : Prop :=
  ∀ x ∈ (sweep succs a k).2.dropLast, ∀ y ∈ succs x, y ∈ (sweep succs a k).1

instance : DecidablePred (Bottleneck succs a) := fun k =>
  inferInstanceAs
    (Decidable (∀ x ∈ (sweep succs a k).2.dropLast, ∀ y ∈ succs x, y ∈ (sweep succs a k).1))

/-- How many of the first `k` layers are bottlenecks. -/
def bottlenecks (k : ℕ) : ℕ := Nat.count (Bottleneck succs a) k

variable {succs a}

theorem bottlenecks_mono {i j : ℕ} (h : i ≤ j) :
    bottlenecks succs a i ≤ bottlenecks succs a j := Nat.count_monotone _ h

theorem bottlenecks_le (k : ℕ) : bottlenecks succs a k ≤ k := Nat.count_le _

theorem bottlenecks_succ (k : ℕ) :
    bottlenecks succs a (k + 1) =
      if Bottleneck succs a k then bottlenecks succs a k + 1 else bottlenecks succs a k := by
  unfold bottlenecks
  rw [Nat.count_succ]
  split <;> rfl

/-- The two lists are the ball and the layer. -/
theorem mem_sweep (k : ℕ) (y : α) :
    (y ∈ (sweep succs a k).1 ↔ y ∈ ball (succRel succs) a k) ∧
      (y ∈ (sweep succs a k).2 ↔ y ∈ layer (succRel succs) a k) := by
  induction k generalizing y with
  | zero => simp [sweep, ball, layer]
  | succ k ih =>
    have hnew : y ∈ (sweep succs a (k + 1)).2 ↔ y ∈ layer (succRel succs) a (k + 1) := by
      rw [sweep, mem_fresh, (ih y).1, mem_layer_succ_iff, List.mem_flatMap, and_comm]
      constructor
      · rintro ⟨hball, x, hx, hxy⟩
        exact ⟨hball, x, (ih x).2.mp hx, hxy⟩
      · rintro ⟨hball, x, hx, hxy⟩
        exact ⟨hball, x, (ih x).2.mpr hx, hxy⟩
    refine ⟨?_, hnew⟩
    rw [mem_ball_succ_iff, ← hnew, ← (ih y).1, sweep, List.mem_append, List.mem_reverse, or_comm]

theorem nodup_sweep (k : ℕ) : (sweep succs a k).1.Nodup := by
  induction k with
  | zero => exact List.nodup_singleton a
  | succ k ih =>
    rw [sweep, List.nodup_append]
    refine ⟨List.nodup_reverse.mpr (nodup_fresh _ _), ih, ?_⟩
    intro x hx y hy hxy
    exact (mem_fresh.mp (List.mem_reverse.mp hx)).2 (hxy ▸ hy)

end Sweep

/-! ### Walks -/

omit [DecidableEq α]

/-- A walk of `n` steps. -/
def Walk (R : α → α → Prop) : ℕ → α → α → Prop
  | 0, x, y => x = y
  | n + 1, x, y => ∃ z, Walk R n x z ∧ R z y

theorem mem_ball_iff_walk {R : α → α → Prop} {a : α} (k : ℕ) (y : α) :
    y ∈ ball R a k ↔ ∃ n ≤ k, Walk R n a y := by
  induction k generalizing y with
  | zero =>
    constructor
    · intro h
      exact ⟨0, Nat.le_refl 0, Eq.symm h⟩
    · rintro ⟨n, hn, h⟩
      obtain rfl : n = 0 := by omega
      exact Eq.symm h
  | succ k ih =>
    constructor
    · rintro (h | ⟨x, hx, hxy⟩)
      · obtain ⟨n, hn, hwalk⟩ := (ih y).mp h
        exact ⟨n, by omega, hwalk⟩
      · obtain ⟨n, hn, hwalk⟩ := (ih x).mp hx
        exact ⟨n + 1, by omega, x, hwalk, hxy⟩
    · rintro ⟨n, hn, hwalk⟩
      cases n with
      | zero => exact Or.inl ((ih y).mpr ⟨0, Nat.zero_le k, hwalk⟩)
      | succ n =>
        obtain ⟨x, hx, hxy⟩ := hwalk
        exact Or.inr ⟨x, (ih x).mpr ⟨n, by omega, hx⟩, hxy⟩

end TeaclaveCrates.Lib
