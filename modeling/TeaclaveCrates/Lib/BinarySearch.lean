import Mathlib.Data.List.Basic

namespace TeaclaveCrates.Lib

/-!
# Binary search

* `binarySearchBy` — the search over a list whose elements compare below, equal to and above what
  is looked for, in this order.
* `Partitioned` — this order.
* `Located`, `binarySearchBy_located` — what the two kinds of results say.
* `binarySearchBy_of_unique` — the one element that compares equal is found.
-/

variable {α : Type*}

/-- The loop over the window from `left` up to, and without, `right`. -/
def binarySearchLoop (f : α → Ordering) (l : List α) : Nat → Nat → Nat → Except Nat Nat
  | 0, left, _ => .error left
  | fuel + 1, left, right =>
    if left < right then
      let mid := left + (right - left) / 2
      match (l[mid]?).map f with
      | some .lt => binarySearchLoop f l fuel (mid + 1) right
      | some .gt => binarySearchLoop f l fuel left mid
      | some .eq => .ok mid
      | none => .error left
    else .error left

/-- `binary_search_by`: the index of an element that compares equal, or the index at which such an
    element could be inserted. -/
def binarySearchBy (f : α → Ordering) (l : List α) : Except Nat Nat :=
  binarySearchLoop f l l.length 0 l.length

/-- First the elements below, then those that are equal, then those above. -/
def Partitioned (f : α → Ordering) (l : List α) : Prop :=
  l.Pairwise fun a b => (f b = .lt → f a = .lt) ∧ (f a = .gt → f b = .gt)

/-- What a search returns. -/
def Located (f : α → Ordering) (l : List α) : Except Nat Nat → Prop
  | .ok pos => ∃ x, l[pos]? = some x ∧ f x = .eq
  | .error pos => pos ≤ l.length ∧ (∀ i x, i < pos → l[i]? = some x → f x = .lt) ∧
      ∀ i x, pos ≤ i → l[i]? = some x → f x = .gt

variable {f : α → Ordering} {l : List α}

theorem Partitioned.lt_of_le (h : Partitioned f l) {i j : Nat} {x y : α} (hij : i ≤ j)
    (hx : l[i]? = some x) (hy : l[j]? = some y) (hlt : f y = .lt) :
    f x = .lt := by
  obtain ⟨hi, rfl⟩ := List.getElem?_eq_some_iff.mp hx
  obtain ⟨hj, rfl⟩ := List.getElem?_eq_some_iff.mp hy
  rcases Nat.eq_or_lt_of_le hij with rfl | hij
  · exact hlt
  · exact (List.pairwise_iff_getElem.mp h i j hi hj hij).1 hlt

theorem Partitioned.gt_of_le (h : Partitioned f l) {i j : Nat} {x y : α} (hij : i ≤ j)
    (hx : l[i]? = some x) (hy : l[j]? = some y) (hgt : f x = .gt) :
    f y = .gt := by
  obtain ⟨hi, rfl⟩ := List.getElem?_eq_some_iff.mp hx
  obtain ⟨hj, rfl⟩ := List.getElem?_eq_some_iff.mp hy
  rcases Nat.eq_or_lt_of_le hij with rfl | hij
  · exact hgt
  · exact (List.pairwise_iff_getElem.mp h i j hi hj hij).2 hgt

/-- The loop, with everything in front of its window below, and everything behind it above. -/
theorem binarySearchLoop_located (h : Partitioned f l) {fuel left right : Nat}
    (hfuel : right - left ≤ fuel) (hle : left ≤ right) (hright : right ≤ l.length)
    (hbelow : ∀ i x, i < left → l[i]? = some x → f x = .lt)
    (habove : ∀ i x, right ≤ i → l[i]? = some x → f x = .gt) :
    Located f l (binarySearchLoop f l fuel left right) := by
  induction fuel generalizing left right with
  | zero =>
    obtain rfl : left = right := by omega
    exact ⟨hright, hbelow, habove⟩
  | succ fuel ih =>
    rw [binarySearchLoop]
    by_cases hlt : left < right
    · rw [if_pos hlt]
      dsimp only
      have hmid : left + (right - left) / 2 < l.length := by omega
      have hget := List.getElem?_eq_getElem hmid
      rw [hget, Option.map_some]
      cases hcmp : f (l[left + (right - left) / 2]) with
      | lt =>
        refine ih (by omega) (by omega) hright ?_ habove
        intro i x hi hx
        exact h.lt_of_le (by omega) hx hget hcmp
      | gt =>
        refine ih (by omega) (by omega) (by omega) hbelow ?_
        intro i x hi hx
        exact h.gt_of_le hi hget hx hcmp
      | eq => exact ⟨_, hget, hcmp⟩
    · rw [if_neg hlt]
      obtain rfl : left = right := by omega
      exact ⟨hright, hbelow, habove⟩

theorem binarySearchBy_located (h : Partitioned f l) :
    Located f l (binarySearchBy f l) := by
  refine binarySearchLoop_located h (by omega) (Nat.zero_le _) (Nat.le_refl _) ?_ ?_
  · omega
  · intro i x hi hx
    obtain ⟨hlt, -⟩ := List.getElem?_eq_some_iff.mp hx
    omega

/-- An element that compares equal is found, when no other one does. -/
theorem binarySearchBy_of_unique (h : Partitioned f l) {pos : Nat} {x : α} (hx : l[pos]? = some x)
    (heq : f x = .eq) (hunique : ∀ i y, l[i]? = some y → f y = .eq → i = pos) :
    binarySearchBy f l = .ok pos := by
  have hlocated := binarySearchBy_located h
  cases hsearch : binarySearchBy f l with
  | ok found =>
    rw [hsearch] at hlocated
    obtain ⟨y, hy, hyeq⟩ := hlocated
    rw [hunique found y hy hyeq]
  | error insert =>
    rw [hsearch] at hlocated
    obtain ⟨-, hbelow, habove⟩ := hlocated
    -- the element would be in front of the place or behind it
    rcases Nat.lt_or_ge pos insert with hpos | hpos
    · rw [hbelow pos x hpos hx] at heq
      cases heq
    · rw [habove pos x hpos hx] at heq
      cases heq

end TeaclaveCrates.Lib
