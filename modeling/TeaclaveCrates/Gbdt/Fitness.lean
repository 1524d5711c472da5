import Mathlib.Algebra.BigOperators.Group.List.Basic
import Mathlib.Tactic.Linarith
import TeaclaveCrates.Gbdt.DecisionTree

namespace TeaclaveCrates.Gbdt

open Arith (rat)

/-!
# The first prediction

`GBDT::init` takes the mean of the labels as the first prediction, or their weighted median when the
loss is the least absolute deviation. The median of the residuals in a leaf is taken by another loop
in `decision_tree.rs`.

* `labelAverage`, `weightedLabelMedian` — the two functions of `fitness.rs`.
* `labelOrder` — labels and their indices, as `lad_optimal_value` is given the residuals.
* `labelRule` — the loop of `lad_optimal_value`, over samples.
* `weightedLabelMedian_iff` — when the two medians agree.
-/

section

variable {V F : Type} [LinearOrder V] [Zero V] [One V] [Add V] [Div V]
  [Zero F] [One F] [Add F] [Mul F] [Div F] [LT F] [DecidableLT F] (A : Arith V F)

/-- `label_average` -/
def labelAverage (dv : List (Data V)) : V :=
  let s := dv.foldl (fun s d => s + A.ofValue d.label * A.ofValue d.weight) 0
  let c := dv.foldl (fun c d => c + A.ofValue d.weight) 0
  if A.absF c < A.tiny then 0 else A.asValue (s / c)

/-- The loop of `weighted_label_median` at the index `i`, with the sample in front of the rest. The
    index is unsigned: `i - 1` ends the program when `i` is 0. -/
def medianLoop (allWeight : F) : Nat → Option (Data V) → F → List (Data V) → Option V
  | _, _, _, [] => some 0
  | i, prev, weight, x :: rest =>
    let weight := weight + A.ofValue x.weight
    if allWeight < weight * (1 + 1) then
      if i = 0 then none
      else if 0 < i - 1 then prev.map fun before => (x.label + before.label) / (1 + 1)
      else some x.label
    else medianLoop allWeight (i + 1) (some x) weight rest

/-- The samples in the order of their labels. -/
def byLabel (dv : List (Data V)) : List (Data V) :=
  dv.insertionSort fun a b => a.label ≤ b.label

/-- `weighted_label_median` -/
def weightedLabelMedian (dv : List (Data V)) (len : Nat) : Option V :=
  if len ≤ dv.length then
    let dvCopy := byLabel dv
    let allWeight := dvCopy.foldl (fun acc d => acc + A.ofValue d.weight) 0
    medianLoop A allWeight 0 none 0 (dvCopy.take len)
  else none

/-! ### The rule of the leaves -/

/-- The labels with the indices of their samples, in order. -/
def labelOrder (dv : List (Data V)) : List (Nat × V) :=
  UnstableSort.stable.run (dv.mapIdx fun i x => (i, x.label))

/-- The loop of `lad_optimal_value` over samples, with the labels in place of the residuals. -/
def labelRule (allWeight : F) : Option (Data V) → F → List (Data V) → F
  | _, _, [] => 0
  | prev, weight, x :: rest =>
    let weight := weight + A.ofValue x.weight
    if allWeight < weight * (1 + 1) then
      match prev with
      | some before => A.ofValue ((x.label + before.label) / (1 + 1))
      | none => A.ofValue x.label
    else labelRule allWeight (some x) weight rest

variable {A}

omit [LinearOrder V] [Zero V] [Div F] in
/-- The loop over pairs is the loop over the samples that they stand for. -/
theorem ladLoop_eq {valueAt : Nat → CacheValue F} {f : Nat × V → Data V} {l : List (Nat × V)}
    (hlabel : ∀ p ∈ l, (f p).label = p.2)
    (hweight : ∀ p ∈ l, (valueAt p.1).c = A.ofValue (f p).weight) (allWeight : F)
    {prev : Option (Nat × V)} (hprev : ∀ p ∈ prev, (f p).label = p.2) (weight : F) :
    ladLoop A valueAt allWeight prev weight l =
      labelRule A allWeight (prev.map f) weight (l.map f) := by
  induction l generalizing prev weight with
  | nil => rfl
  | cons p l ih =>
    have hp := hlabel p (List.mem_cons_self ..)
    have hfirst : ∀ q ∈ some p, (f q).label = q.2 := by
      intro q hq
      rw [← Option.mem_some.mp hq]
      exact hp
    have hrest := ih (fun q hq => hlabel q (List.mem_cons_of_mem _ hq))
      (fun q hq => hweight q (List.mem_cons_of_mem _ hq)) hfirst
    have hw := hweight p (List.mem_cons_self ..)
    rw [List.map_cons]
    cases prev with
    | none =>
      simp [ladLoop, labelRule, hw, hrest, hp]
    | some q =>
      simp [ladLoop, labelRule, hw, hrest, hp, hprev q rfl]

omit [Zero V] [One V] [Add V] [Div V] in
/-- The samples that the pairs stand for are those in the order of the labels. -/
theorem map_labelOrder (dv : List (Data V)) (d : Data V) :
    (labelOrder dv).map (fun p => dv.getD p.1 d) = byLabel dv := by
  have hmap : (dv.mapIdx fun i x => (i, x.label)).map (fun p => dv.getD p.1 d) = dv := by
    apply List.ext_getElem
    · simp
    · intro i h₁ h₂
      simp [h₂]
  unfold labelOrder byLabel UnstableSort.stable
  conv_rhs => rw [← hmap]
  apply List.map_insertionSort
  intro p hp q hq
  obtain ⟨i, hi, rfl⟩ := List.mem_mapIdx.mp hp
  obtain ⟨j, hj, rfl⟩ := List.mem_mapIdx.mp hq
  simp [hi, hj]

end

/-! ### Over exact rationals -/

/-- What `lad_optimal_value` returns for the labels of some samples, with their weights. -/
def labelMedian (dv : List (Data ℚ)) : ℚ :=
  ladOptimalValue rat (labelOrder dv)
    (TrainingCache.getCache rat UnstableSort.stable 0 dv 0)

/-- The weight of all samples. -/
def totalWeight (dv : List (Data ℚ)) : ℚ := (dv.map fun x => x.weight).sum

theorem foldl_weight (dv : List (Data ℚ)) (w : ℚ) :
    dv.foldl (fun acc d => acc + rat.ofValue d.weight) w = w + totalWeight dv := by
  induction dv generalizing w with
  | nil => simp [totalWeight]
  | cons x dv ih =>
    rw [List.foldl_cons, ih]
    simp [totalWeight, rat, add_assoc]

theorem totalWeight_byLabel (dv : List (Data ℚ)) :
    totalWeight (byLabel dv) = totalWeight dv := by
  have hperm : (byLabel dv).Perm dv := List.perm_insertionSort _ dv
  exact (hperm.map fun x => x.weight).sum_eq

/-- The leaves' rule is their loop, over the samples in the order of the labels. -/
theorem labelMedian_eq (dv : List (Data ℚ)) :
    labelMedian dv = labelRule rat (totalWeight dv) none 0 (byLabel dv) := by
  let blank : Data ℚ := ⟨[], 0, 0, 0, 0, 0⟩
  have hmem : ∀ p ∈ labelOrder dv, ∃ h : p.1 < dv.length, p.2 = dv[p.1].label := by
    intro p hp
    obtain ⟨i, hi, rfl⟩ := List.mem_mapIdx.mp ((UnstableSort.stable.perm _).mem_iff.mp hp)
    exact ⟨hi, rfl⟩
  have hlabel : ∀ p ∈ labelOrder dv, (dv.getD p.1 blank).label = p.2 := by
    intro p hp
    obtain ⟨hlt, hp⟩ := hmem p hp
    simp [hp, List.getElem?_eq_getElem hlt]
  have hweight : ∀ p ∈ labelOrder dv,
      ((TrainingCache.getCache rat UnstableSort.stable 0 dv 0).valueAt p.1).c =
        rat.ofValue (dv.getD p.1 blank).weight := by
    intro p hp
    obtain ⟨hlt, -⟩ := hmem p hp
    simp [TrainingCache.valueAt, TrainingCache.getCache, hlt]
  -- the weight of all samples is summed up in the order of the labels
  have htotal : (labelOrder dv).foldl (fun acc x => acc +
      ((TrainingCache.getCache rat UnstableSort.stable 0 dv 0).valueAt x.1).c) 0 =
        totalWeight dv := by
    have hfold : (labelOrder dv).foldl (fun acc x => acc +
        ((TrainingCache.getCache rat UnstableSort.stable 0 dv 0).valueAt x.1).c) 0 =
          ((labelOrder dv).map fun p => dv.getD p.1 blank).foldl
            (fun acc d => acc + rat.ofValue d.weight) 0 := by
      rw [List.foldl_map]
      exact List.foldl_ext _ _ _ fun acc p hp => by rw [hweight p hp]
    rw [hfold, map_labelOrder, foldl_weight, totalWeight_byLabel, zero_add]
  unfold labelMedian ladOptimalValue
  dsimp only
  rw [htotal, ladLoop_eq (f := fun p => dv.getD p.1 blank) hlabel hweight _ (by simp) _,
    map_labelOrder]
  rfl

/-- From the third sample on the two loops do the same. -/
theorem medianLoop_two {total : ℚ} {i : Nat} (hi : 2 ≤ i) (prev : Data ℚ) (weight : ℚ)
    (l : List (Data ℚ)) :
    medianLoop rat total i (some prev) weight l =
      some (labelRule rat total (some prev) weight l) := by
  induction l generalizing i prev weight with
  | nil => rfl
  | cons x l ih =>
    unfold medianLoop labelRule
    dsimp only
    rw [if_neg (show ¬i = 0 by omega), if_pos (show 0 < i - 1 by omega), ih (by omega)]
    split_ifs <;> rfl

/-- **The two medians** are the same, if and only if the sample with the least label does not have
    more than half of the weight, and the two with the least labels have not either, unless their
    labels are the same. -/
theorem weightedLabelMedian_iff (dv : List (Data ℚ)) (hne : dv ≠ [])
    (hpos : ∀ x ∈ dv, 0 < x.weight) :
    weightedLabelMedian rat dv dv.length = some (labelMedian dv) ↔
      ∃ a b rest, byLabel dv = a :: b :: rest ∧ a.weight * 2 ≤ totalWeight dv ∧
        (totalWeight dv < (a.weight + b.weight) * 2 → a.label = b.label) := by
  have hlen : (byLabel dv).length = dv.length := List.length_insertionSort ..
  have hmem : ∀ x ∈ byLabel dv, 0 < x.weight := fun x hx =>
    hpos x ((List.mem_insertionSort _).mp hx)
  have htotal := totalWeight_byLabel dv
  rw [labelMedian_eq]
  unfold weightedLabelMedian
  dsimp only
  rw [if_pos le_rfl, foldl_weight, totalWeight_byLabel, zero_add, ← hlen, List.take_length]
  generalize totalWeight dv = total at htotal ⊢
  match hsorted : byLabel dv with
  | [] =>
    rw [hsorted, List.length_nil] at hlen
    exact absurd (List.length_eq_zero_iff.mp hlen.symm) hne
  | [a] =>
    rw [hsorted] at hmem htotal
    have ha := hmem a (List.mem_cons_self ..)
    have hcross : total < (0 + rat.ofValue a.weight) * (1 + 1) := by
      have hsum : a.weight = total := by simpa [totalWeight] using htotal
      show total < (0 + a.weight) * (1 + 1)
      linarith
    have hnone : medianLoop rat total 0 none 0 [a] = none := by
      unfold medianLoop
      rw [if_pos hcross, if_pos rfl]
    rw [hnone]
    simp
  | a :: b :: rest =>
    have hex : (∃ a' b' rest', a :: b :: rest = a' :: b' :: rest' ∧ a'.weight * 2 ≤ total ∧
        (total < (a'.weight + b'.weight) * 2 → a'.label = b'.label)) ↔
          a.weight * 2 ≤ total ∧ (total < (a.weight + b.weight) * 2 → a.label = b.label) := by
      constructor
      · rintro ⟨a', b', rest', heq, h⟩
        rw [List.cons.injEq, List.cons.injEq] at heq
        obtain ⟨rfl, rfl, -⟩ := heq
        exact h
      · exact fun h => ⟨a, b, rest, rfl, h⟩
    rw [hex]
    by_cases hfirst : total < (0 + rat.ofValue a.weight) * (1 + 1)
    · -- the first sample has more than half of the weight
      have hnone : medianLoop rat total 0 none 0 (a :: b :: rest) = none := by
        unfold medianLoop
        rw [if_pos hfirst, if_pos rfl]
      have hnot : ¬a.weight * 2 ≤ total := by
        have hlt : total < (0 + a.weight) * (1 + 1) := hfirst
        intro hle
        linarith
      rw [hnone]
      simp [hnot]
    · have hle : a.weight * 2 ≤ total := by
        have hge : ¬total < (0 + a.weight) * (1 + 1) := hfirst
        linarith
      unfold medianLoop labelRule
      rw [if_neg hfirst, if_neg hfirst]
      by_cases hsecond : total < (0 + rat.ofValue a.weight + rat.ofValue b.weight) *
          (1 + 1)
      · -- the first two have: the code returns the label of the second
        have hlt : total < (a.weight + b.weight) * 2 := by
          have h : total < (0 + a.weight + b.weight) * (1 + 1) := hsecond
          linarith
        unfold medianLoop labelRule
        rw [if_pos hsecond, if_neg (by omega), if_neg (by omega), if_pos hsecond,
          Option.some.injEq]
        show b.label = (b.label + a.label) / (1 + 1) ↔ _
        constructor
        · intro h
          exact ⟨hle, fun _ => by linarith⟩
        · rintro ⟨-, h⟩
          have hab := h hlt
          linarith
      · have hge : ¬total < (a.weight + b.weight) * 2 := by
          have h : ¬total < (0 + a.weight + b.weight) * (1 + 1) := hsecond
          intro hlt
          linarith
        unfold medianLoop labelRule
        rw [if_neg hsecond, if_neg hsecond, medianLoop_two (by omega)]
        exact ⟨fun _ => ⟨hle, fun hlt => absurd hlt hge⟩, fun _ => rfl⟩

/-- Samples of weight 1 with the given labels. -/
def labelled (labels : List ℚ) : List (Data ℚ) := labels.map fun y => ⟨[], 0, 1, y, 0, 0⟩

theorem weightedLabelMedian_iff_four :
    weightedLabelMedian rat (labelled [3, 1, 2, 4]) 4 =
        some (labelMedian (labelled [3, 1, 2, 4])) ↔
      ∃ a b rest, byLabel (labelled [3, 1, 2, 4]) = a :: b :: rest ∧
        a.weight * 2 ≤ totalWeight (labelled [3, 1, 2, 4]) ∧
        (totalWeight (labelled [3, 1, 2, 4]) < (a.weight + b.weight) * 2 → a.label = b.label) :=
  weightedLabelMedian_iff (labelled [3, 1, 2, 4]) (by decide +kernel) (by decide +kernel)

/-- One sample ends the program; of three, the median is the label of the second and not the mean of
    the first two. -/
theorem single_label_median :
    weightedLabelMedian rat (labelled [7]) 1 = none ∧ labelMedian (labelled [7]) = 7 ∧
      weightedLabelMedian rat (labelled [0, 1, 1]) 3 = some 1 ∧
      labelMedian (labelled [0, 1, 1]) = 1 / 2 := by decide +kernel

end TeaclaveCrates.Gbdt
