import Mathlib.Data.Nat.Count

namespace TeaclaveCrates.Lib

/-!
# Distance layers of a relation

The points that a relation reaches from a start, sorted by how many steps they need.

* `ball R a k` — reached in at most `k` steps; `layer R a k` — in exactly `k`, not fewer.
* `Leads` — the points of a layer that lead on to the next one.
* `Narrow`, `Single` — one point of the layer leads on; the layer is one point.
* `narrowCount`, `singleCount`, `Settled` — how many such layers come before a layer, and the
  starts for which a bound lies on one side of both counts.
-/

universe u

variable {α : Type u} (R : α → α → Prop) (a : α)

/-- The points reached from `a` in at most `k` steps. -/
def ball : ℕ → Set α
  | 0 => {a}
  | k + 1 => ball k ∪ {y | ∃ x ∈ ball k, R x y}

/-- The points that need exactly `k` steps. -/
def layer : ℕ → Set α
  | 0 => {a}
  | k + 1 => ball R a (k + 1) \ ball R a k

variable {R a}

theorem ball_subset_succ (k : ℕ) : ball R a k ⊆ ball R a (k + 1) := Set.subset_union_left

theorem ball_mono {i j : ℕ} (h : i ≤ j) : ball R a i ⊆ ball R a j := by
  induction h with
  | refl => exact subset_rfl
  | step _ ih => exact ih.trans (ball_subset_succ _)

theorem layer_subset_ball (k : ℕ) : layer R a k ⊆ ball R a k := by
  cases k with
  | zero => exact subset_rfl
  | succ k => exact Set.sdiff_subset

variable {k : ℕ}

/-- A point of a layer is in no smaller ball. -/
theorem le_of_mem_layer_of_mem_ball {i : ℕ} {y : α} (hl : y ∈ layer R a k) (hb : y ∈ ball R a i) :
    k ≤ i := by
  by_contra hlt
  cases k with
  | zero => omega
  | succ k => exact hl.2 (ball_mono (by omega) hb)

/-- Every point of a ball lies in one of the layers up to it. -/
theorem exists_layer_of_mem_ball {y : α} (h : y ∈ ball R a k) :
    ∃ j ≤ k, y ∈ layer R a j := by
  induction k with
  | zero => exact ⟨0, le_rfl, h⟩
  | succ k ih =>
    by_cases hk : y ∈ ball R a k
    · obtain ⟨j, hj, hy⟩ := ih hk
      exact ⟨j, by omega, hy⟩
    · exact ⟨k + 1, le_rfl, h, hk⟩

/-- The next layer: one step from the layer, and not seen before. -/
theorem mem_layer_succ_iff {y : α} :
    y ∈ layer R a (k + 1) ↔ y ∉ ball R a k ∧ ∃ x ∈ layer R a k, R x y := by
  constructor
  · rintro ⟨hy, hnot⟩
    refine ⟨hnot, ?_⟩
    rcases hy with hy | ⟨x, hx, hxy⟩
    · exact absurd hy hnot
    · -- a shorter way to `x` would give a shorter way to `y`
      obtain ⟨j, hj, hxj⟩ := exists_layer_of_mem_ball hx
      rcases Nat.lt_or_ge j k with hlt | hge
      · exact absurd (ball_mono hlt (Or.inr ⟨x, layer_subset_ball j hxj, hxy⟩)) hnot
      · obtain rfl : j = k := le_antisymm hj hge
        exact ⟨x, hxj, hxy⟩
  · rintro ⟨hnot, x, hx, hxy⟩
    exact ⟨Or.inr ⟨x, layer_subset_ball k hx, hxy⟩, hnot⟩

theorem mem_ball_succ_iff {y : α} :
    y ∈ ball R a (k + 1) ↔ y ∈ ball R a k ∨ y ∈ layer R a (k + 1) := by
  constructor
  · intro h
    by_cases hk : y ∈ ball R a k
    · exact Or.inl hk
    · exact Or.inr ⟨h, hk⟩
  · rintro (h | h)
    · exact ball_subset_succ k h
    · exact h.1

theorem layer_nonempty_of_le {j : ℕ} (h : j ≤ k) (hk : (layer R a k).Nonempty) :
    (layer R a j).Nonempty := by
  induction h with
  | refl => exact hk
  | step _ ih =>
    obtain ⟨y, hy⟩ := hk
    obtain ⟨-, x, hx, -⟩ := mem_layer_succ_iff.mp hy
    exact ih ⟨x, hx⟩

/-! ### Layers through a single point -/

variable (R a)

/-- A point of layer `k` with a step into layer `k + 1`. -/
def Leads (k : ℕ) (x : α) : Prop := x ∈ layer R a k ∧ ∃ y ∈ layer R a (k + 1), R x y

/-- Exactly one point of the layer leads on. -/
def Narrow (k : ℕ) : Prop := ∃! x, Leads R a k x

/-- The layer is one point. -/
def Single (k : ℕ) : Prop := ∃! x, x ∈ layer R a k

open Classical in
/-- How many of the first `k` layers are narrow. -/
noncomputable def narrowCount (k : ℕ) : ℕ := Nat.count (Narrow R a) k

open Classical in
/-- How many of the first `k` layers are single. -/
noncomputable def singleCount (k : ℕ) : ℕ := Nat.count (Single R a) k

/-- Before every layer there are fewer than `bound` narrow layers, or at least `bound` single
    ones. -/
def Settled (bound : ℕ) : Prop :=
  ∀ k, (layer R a k).Nonempty → narrowCount R a k < bound ∨ bound ≤ singleCount R a k

variable {R a}

theorem narrowCount_mono {i j : ℕ} (h : i ≤ j) : narrowCount R a i ≤ narrowCount R a j := by
  classical
  exact Nat.count_monotone _ h

theorem narrowCount_succ_of_narrow (h : Narrow R a k) :
    narrowCount R a (k + 1) = narrowCount R a k + 1 := by
  classical
  simp [narrowCount, Nat.count_succ, h]

theorem singleCount_succ_le (k : ℕ) : singleCount R a (k + 1) ≤ singleCount R a k + 1 := by
  classical
  rw [singleCount, Nat.count_succ]
  split <;> simp [singleCount]

theorem singleCount_succ_of_not (h : ¬Single R a k) :
    singleCount R a (k + 1) = singleCount R a k := by
  classical
  simp [singleCount, Nat.count_succ, h]

theorem narrowCount_le (k : ℕ) : narrowCount R a k ≤ k := by
  classical
  exact Nat.count_le _

/-- A start whose layers end before the bound is settled. -/
theorem settled_of_lt {bound : ℕ} (h : ∀ k, (layer R a k).Nonempty → k < bound) :
    Settled R a bound :=
  fun k hk => Or.inl ((narrowCount_le k).trans_lt (h k hk))

/-- Where no two steps follow each other, there are at most two layers. -/
theorem le_one_of_layer_nonempty (h : ∀ x y z, R x y → ¬R y z) (hk : (layer R a k).Nonempty) :
    k ≤ 1 := by
  by_contra hcon
  obtain ⟨z, hz⟩ := layer_nonempty_of_le (show 2 ≤ k by omega) hk
  obtain ⟨-, y, hy, hyz⟩ := mem_layer_succ_iff.mp hz
  obtain ⟨-, x, -, hxy⟩ := mem_layer_succ_iff.mp hy
  exact h x y z hxy hyz

end TeaclaveCrates.Lib
