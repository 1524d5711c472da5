import Mathlib.Data.List.ProdSigma
import Mathlib.Tactic.FieldSimp
import Mathlib.Tactic.Linarith
import Mathlib.Tactic.Ring
import TeaclaveCrates.Gbdt.Data

namespace TeaclaveCrates.Gbdt

/-!
# The area under the curve

`AUC` sorts the samples by their scores, from the highest to the lowest, and sums up trapezoids
between one sample and the next. Samples with the same score are taken one after the other, in the
order of the data, and not in one step.

* `auc` — the function of `fitness.rs`.
* `ahead` — pairs of a positive and a later negative sample, which is what the sum counts.
* `ahead_sorted` — those pairs after the sort.
* `auc_iff` — when the result is the area.
-/

/-- `AucPred` -/
structure AucPred (V : Type) where
  score : V
  label : V
  deriving DecidableEq, Repr

section

variable {V F : Type} [LinearOrder V] [Zero V] [One V] [Add V] [Sub V] [Mul V] [Div V] [LT F]
  [DecidableLT F] (A : Arith V F)

/-- The labels that occur. -/
def classesOf (dv : List (Data V)) : List V :=
  dv.foldl (fun classes i => if i.label ∈ classes then classes else classes ++ [i.label]) []

/-- The loop that counts positives and negatives, with the counts before each sample and at the
    end. -/
def countLoop : V → V → List (AucPred V) → List (V × V)
  | tp, fp, [] => [(tp, fp)]
  | tp, fp, x :: rest =>
    (tp, fp) ::
      if A.almostEqual x.label 1 then countLoop (tp + 1) fp rest else countLoop tp (fp + 1) rest

/-- The loop that sums up the trapezoids, from the point before the rest on. -/
def areaLoop : V → V × V → List (V × V) → V
  | auc, _, [] => auc
  | auc, prev, point :: rest =>
    areaLoop (auc + (point.2 - prev.2) * (prev.1 + point.1) / (1 + 1)) point rest

/-- The samples by their scores, from the highest to the lowest. -/
def byScore (preds : List (AucPred V)) : List (AucPred V) :=
  preds.insertionSort fun a b => b.score ≤ a.score

/-- The scores and the labels. -/
def aucPreds (dv : List (Data V)) (predict : List V) : List (AucPred V) :=
  List.zipWith (fun x p => ⟨p, x.label⟩) dv predict

/-- `AUC`. `none` stands for an assertion that fails. -/
def auc (dv : List (Data V)) (predict : List V) (len : Nat) : Option V :=
  if dv.length = predict.length ∧ len ≤ dv.length ∧ (classesOf dv).length = 2 then
    let points := countLoop A 0 0 (byScore (aucPreds dv predict))
    let last := points.getLastD (0, 0)
    match points.map fun point => (point.1 / last.1, point.2 / last.2) with
    | [] => none
    | first :: rest => some (areaLoop 0 first rest)
  else none

end

/-! ### Pairs of samples -/

/-- A positive sample. -/
def AucPred.pos (x : AucPred ℚ) : Bool := decide (x.label = 1)

/-- The pairs of a positive sample and a negative one that stands behind it. -/
def ahead : List (AucPred ℚ) → Nat
  | [] => 0
  | x :: rest => (if x.pos then rest.countP fun y => !y.pos else 0) + ahead rest

/-- The pairs of a positive and a negative sample. -/
def mixedPairs (l : List (AucPred ℚ)) : List (AucPred ℚ × AucPred ℚ) :=
  (l.filter fun x => x.pos) ×ˢ (l.filter fun x => !x.pos)

/-- The pairs in which the positive sample has the higher score. -/
def higherPairs (l : List (AucPred ℚ)) : Nat := (mixedPairs l).countP fun p => p.2.score < p.1.score

/-- The pairs with equal scores. -/
def equalPairs (l : List (AucPred ℚ)) : Nat := (mixedPairs l).countP fun p => p.1.score = p.2.score

/-- The pairs with equal scores in which the positive sample comes first in the data. -/
def equalAhead : List (AucPred ℚ) → Nat
  | [] => 0
  | x :: rest =>
    (if x.pos then rest.countP fun y => !y.pos && decide (x.score = y.score) else 0) +
      equalAhead rest

/-- The pairs of a list with one more sample. -/
theorem countP_mixedPairs_cons (x : AucPred ℚ) (l : List (AucPred ℚ))
    (p : AucPred ℚ × AucPred ℚ → Bool) :
    (mixedPairs (x :: l)).countP p =
      (if x.pos then l.countP fun y => !y.pos && p (x, y)
        else l.countP fun y => y.pos && p (y, x)) + (mixedPairs l).countP p := by
  unfold mixedPairs
  by_cases hx : x.pos = true
  · rw [List.filter_cons_of_pos hx, List.filter_cons_of_neg (by simp [hx]), if_pos hx,
      List.product_cons, List.countP_append, List.countP_map, List.countP_filter]
    congr 1
    apply List.countP_congr
    simp [and_comm]
  · rw [List.filter_cons_of_neg hx, List.filter_cons_of_pos (by simp [hx]), if_neg hx]
    -- one more negative sample, beside each positive one
    have hgen : ∀ P N : List (AucPred ℚ), (P ×ˢ (x :: N)).countP p =
        P.countP (fun y => p (y, x)) + (P ×ˢ N).countP p := by
      intro P N
      induction P with
      | nil => rfl
      | cons y P ih =>
        rw [List.product_cons, List.product_cons, List.countP_append, List.countP_append, ih,
          List.map_cons, List.countP_cons, List.countP_cons]
        omega
    rw [hgen, List.countP_filter]
    congr 1
    apply List.countP_congr
    simp [and_comm]

theorem higherPairs_cons (x : AucPred ℚ) (l : List (AucPred ℚ)) :
    higherPairs (x :: l) =
      (if x.pos then l.countP fun y => !y.pos && decide (y.score < x.score)
        else l.countP fun y => y.pos && decide (x.score < y.score)) + higherPairs l :=
  countP_mixedPairs_cons x l _

variable {l : List (AucPred ℚ)}

/-- A sample that is inserted in its place comes behind the higher ones and ahead of the others. -/
theorem ahead_orderedInsert (x : AucPred ℚ) (h : l.Pairwise fun a b => b.score ≤ a.score) :
    ahead (l.orderedInsert (fun a b => b.score ≤ a.score) x) =
      (if x.pos then l.countP fun y => !y.pos && decide (y.score ≤ x.score)
        else l.countP fun y => y.pos && decide (x.score < y.score)) + ahead l := by
  induction l with
  | nil => simp [ahead]
  | cons y l ih =>
    rw [List.pairwise_cons] at h
    have hrest := ih h.2
    by_cases hle : y.score ≤ x.score
    · -- all that follow have lower scores too
      have hall : ∀ z ∈ y :: l, z.score ≤ x.score := by
        intro z hz
        rcases List.mem_cons.mp hz with rfl | hz
        · exact hle
        · exact le_trans (h.1 z hz) hle
      rw [List.orderedInsert_cons, if_pos hle]
      show (if x.pos then (y :: l).countP _ else 0) + _ = _
      congr 1
      by_cases hx : x.pos = true
      · rw [if_pos hx, if_pos hx]
        apply List.countP_congr
        intro z hz
        simp [hall z hz]
      · rw [if_neg hx, if_neg hx, eq_comm, List.countP_eq_zero]
        intro z hz
        have hz' := hall z hz
        simp [hz']
    · have hlt : x.score < y.score := not_le.mp hle
      have hperm : (l.orderedInsert (fun a b => b.score ≤ a.score) x).Perm (x :: l) :=
        List.perm_orderedInsert _ x l
      rw [List.orderedInsert_cons, if_neg hle]
      show (if y.pos then List.countP _ _ else 0) + ahead _ =
        _ + ((if y.pos then List.countP _ _ else 0) + ahead l)
      rw [hrest, hperm.countP_eq, List.countP_cons]
      by_cases hx : x.pos = true
      · by_cases hy : y.pos = true
        · simp [hx, hy, hle]
          omega
        · simp [hx, hy, hle]
      · by_cases hy : y.pos = true
        · simp [hx, hy, hlt]
          omega
        · simp [hx, hy, hlt]

/-- **The pairs after the sort**: those with the higher score, and those with equal scores whose
    positive sample comes first. -/
theorem ahead_sorted (l : List (AucPred ℚ)) :
    ahead (byScore l) = higherPairs l + equalAhead l := by
  unfold byScore
  induction l with
  | nil => rfl
  | cons x l ih =>
    have hsorted := List.pairwise_insertionSort (fun a b : AucPred ℚ => b.score ≤ a.score) l
    have hperm := List.perm_insertionSort (fun a b : AucPred ℚ => b.score ≤ a.score) l
    rw [List.insertionSort_cons, ahead_orderedInsert x hsorted, ih, higherPairs_cons, equalAhead,
      hperm.countP_eq, hperm.countP_eq]
    by_cases hx : x.pos = true
    · rw [if_pos hx, if_pos hx, if_pos hx]
      have hsplit : (l.countP fun y => !y.pos && decide (y.score ≤ x.score)) =
          (l.countP fun y => !y.pos && decide (y.score < x.score)) +
            l.countP fun y => !y.pos && decide (x.score = y.score) := by
        clear ih hsorted hperm
        induction l with
        | nil => rfl
        | cons y l ih =>
          rw [List.countP_cons, ih]
          by_cases hy : y.pos = true
          · simp [hy]
          · rcases lt_trichotomy y.score x.score with hlt | heq | hgt
            · simp [hy, hlt, le_of_lt hlt, ne_of_gt hlt]
              omega
            · simp [hy, heq]
              omega
            · simp [hy, not_lt_of_gt hgt, not_le_of_gt hgt, ne_of_lt hgt]
      omega
    · rw [if_neg hx, if_neg hx, if_neg hx]
      omega

/-! ### The sum of the trapezoids -/

/-- The labels are 1 and -1. -/
def Binary (l : List (AucPred ℚ)) : Prop := ∀ x ∈ l, x.label = 1 ∨ x.label = -1

theorem almostEqual_label {x : AucPred ℚ} (h : x.label = 1 ∨ x.label = -1) :
    Arith.rat.almostEqual x.label 1 = x.pos := by
  unfold AucPred.pos
  rcases h with h | h <;> rw [h] <;> decide +kernel

/-- The counts at the end. -/
theorem getLastD_countLoop (h : Binary l) (tp fp : ℚ) (d : ℚ × ℚ) :
    (countLoop Arith.rat tp fp l).getLastD d =
      (tp + l.countP (fun x => x.pos), fp + l.countP fun x => !x.pos) := by
  induction l generalizing tp fp d with
  | nil => simp [countLoop]
  | cons x l ih =>
    have hrest : Binary l := fun y hy => h y (List.mem_cons_of_mem _ hy)
    rw [countLoop, List.getLastD_cons, almostEqual_label (h x (List.mem_cons_self ..)),
      List.countP_cons, List.countP_cons]
    by_cases hx : x.pos = true
    · rw [if_pos hx, ih hrest, if_pos hx, if_neg (by simp [hx])]
      push_cast
      rw [Prod.mk.injEq]
      exact ⟨by ring, by ring⟩
    · rw [if_neg hx, ih hrest, if_neg hx, if_pos (by simp [hx])]
      push_cast
      rw [Prod.mk.injEq]
      exact ⟨by ring, by ring⟩

theorem countLoop_eq_cons (tp fp : ℚ) (l : List (AucPred ℚ)) :
    countLoop Arith.rat tp fp l = (tp, fp) :: (countLoop Arith.rat tp fp l).tail := by
  cases l <;> rfl

/-- **What the trapezoids sum up to.** A step to a positive sample adds nothing, and a step to a
    negative one a strip of the height that is reached. -/
theorem areaLoop_countLoop (h : Binary l) (P N acc tp fp : ℚ) :
    areaLoop acc (tp / P, fp / N)
        ((countLoop Arith.rat tp fp l).tail.map fun point => (point.1 / P, point.2 / N)) =
      acc + (tp * (l.countP fun x => !x.pos) + ahead l) / (P * N) := by
  induction l generalizing acc tp fp with
  | nil => simp [countLoop, areaLoop, ahead]
  | cons x l ih =>
    have hrest : Binary l := fun y hy => h y (List.mem_cons_of_mem _ hy)
    rw [countLoop, List.tail_cons, almostEqual_label (h x (List.mem_cons_self ..)),
      List.countP_cons, ahead]
    by_cases hx : x.pos = true
    · rw [if_pos hx, countLoop_eq_cons, List.map_cons, areaLoop, ih hrest, if_pos hx,
        if_neg (by simp [hx])]
      push_cast
      ring
    · rw [if_neg hx, countLoop_eq_cons, List.map_cons, areaLoop, ih hrest, if_neg hx,
        if_pos (by simp [hx])]
      push_cast
      ring

/-! ### The result -/

/-- The labels that occur, each once. -/
theorem classesOf_spec (dv : List (Data ℚ)) :
    (classesOf dv).Nodup ∧ ∀ y, y ∈ classesOf dv ↔ ∃ x ∈ dv, x.label = y := by
  have hgen : ∀ classes : List ℚ, classes.Nodup →
      (dv.foldl (fun classes i => if i.label ∈ classes then classes else classes ++ [i.label])
        classes).Nodup ∧
      ∀ y, y ∈ dv.foldl (fun classes i => if i.label ∈ classes then classes
        else classes ++ [i.label]) classes ↔ y ∈ classes ∨ ∃ x ∈ dv, x.label = y := by
    induction dv with
    | nil => simp
    | cons x dv ih =>
      intro classes hnodup
      rw [List.foldl_cons]
      by_cases hmem : x.label ∈ classes
      · rw [if_pos hmem]
        obtain ⟨hn, hiff⟩ := ih classes hnodup
        refine ⟨hn, fun y => (hiff y).trans ?_⟩
        constructor
        · rintro (hy | ⟨z, hz, hzy⟩)
          · exact Or.inl hy
          · exact Or.inr ⟨z, List.mem_cons_of_mem _ hz, hzy⟩
        · rintro (hy | ⟨z, hz, hzy⟩)
          · exact Or.inl hy
          · rcases List.mem_cons.mp hz with rfl | hz
            · exact Or.inl (hzy ▸ hmem)
            · exact Or.inr ⟨z, hz, hzy⟩
      · rw [if_neg hmem]
        have hnodup' : (classes ++ [x.label]).Nodup := by
          rw [List.nodup_append']
          refine ⟨hnodup, List.nodup_singleton _, fun y hy hyx => ?_⟩
          rw [List.mem_singleton.mp hyx] at hy
          exact hmem hy
        obtain ⟨hn, hiff⟩ := ih _ hnodup'
        refine ⟨hn, fun y => (hiff y).trans ?_⟩
        rw [List.mem_append, List.mem_singleton]
        constructor
        · rintro ((hy | hy) | ⟨z, hz, hzy⟩)
          · exact Or.inl hy
          · exact Or.inr ⟨x, List.mem_cons_self .., hy.symm⟩
          · exact Or.inr ⟨z, List.mem_cons_of_mem _ hz, hzy⟩
        · rintro (hy | ⟨z, hz, hzy⟩)
          · exact Or.inl (Or.inl hy)
          · rcases List.mem_cons.mp hz with rfl | hz
            · exact Or.inl (Or.inr hzy.symm)
            · exact Or.inr ⟨z, hz, hzy⟩
  obtain ⟨hnodup, hiff⟩ := hgen [] List.nodup_nil
  exact ⟨hnodup, fun y => (hiff y).trans (by simp)⟩

theorem length_classesOf {dv : List (Data ℚ)} (h : ∀ x ∈ dv, x.label = 1 ∨ x.label = -1)
    (hpos : ∃ x ∈ dv, x.label = 1) (hneg : ∃ x ∈ dv, x.label = -1) :
    (classesOf dv).length = 2 := by
  obtain ⟨hnodup, hiff⟩ := classesOf_spec dv
  have hperm : (classesOf dv).Perm [1, -1] := by
    rw [List.perm_ext_iff_of_nodup hnodup (by decide +kernel)]
    intro y
    rw [hiff, List.mem_cons, List.mem_singleton]
    constructor
    · rintro ⟨x, hx, rfl⟩
      exact h x hx
    · rintro (rfl | rfl)
      · exact hpos
      · exact hneg
  exact hperm.length_eq

theorem mem_aucPreds {dv : List (Data ℚ)} {predict : List ℚ} (hlen : dv.length = predict.length)
    (y : ℚ) : (∃ p ∈ aucPreds dv predict, p.label = y) ↔ ∃ x ∈ dv, x.label = y := by
  have hmap : (aucPreds dv predict).map (fun p => p.label) = dv.map fun x => x.label := by
    unfold aucPreds
    apply List.ext_getElem <;> simp [hlen]
  have hiff : y ∈ (aucPreds dv predict).map (fun p => p.label) ↔ y ∈ dv.map fun x => x.label := by
    rw [hmap]
  simpa using hiff

/-- **The area under the curve** is returned, if and only if of the pairs with equal scores half have
    their positive sample first in the data. -/
theorem auc_iff (dv : List (Data ℚ)) (predict : List ℚ) (len : Nat)
    (hlen : dv.length = predict.length) (hle : len ≤ dv.length)
    (hlabels : ∀ x ∈ dv, x.label = 1 ∨ x.label = -1) (hpos : ∃ x ∈ dv, x.label = 1)
    (hneg : ∃ x ∈ dv, x.label = -1) :
    let l := aucPreds dv predict
    ∃ a, auc Arith.rat dv predict len = some a ∧
      (a = (higherPairs l + equalPairs l / 2) /
          ((l.countP fun x => x.pos) * (l.countP fun x => !x.pos)) ↔
        2 * equalAhead l = equalPairs l) := by
  intro l
  have hbinary : Binary l := by
    intro p hp
    obtain ⟨x, hx, hlabel⟩ := (mem_aucPreds hlen p.label).mp ⟨p, hp, rfl⟩
    rw [← hlabel]
    exact hlabels x hx
  have hperm : (byScore l).Perm l := List.perm_insertionSort _ l
  have hsorted : Binary (byScore l) := fun p hp => hbinary p (hperm.mem_iff.mp hp)
  -- both classes are there, so that no division is by zero
  have hP : ((l.countP fun x => x.pos : Nat) : ℚ) ≠ 0 := by
    obtain ⟨p, hp, hlabel⟩ := (mem_aucPreds hlen 1).mpr hpos
    have hcount : 0 < l.countP fun x => x.pos :=
      List.countP_pos_iff.mpr ⟨p, hp, decide_eq_true hlabel⟩
    exact_mod_cast hcount.ne'
  have hN : ((l.countP fun x => !x.pos : Nat) : ℚ) ≠ 0 := by
    obtain ⟨p, hp, hlabel⟩ := (mem_aucPreds hlen (-1)).mpr hneg
    have hnot : ¬p.label = 1 := by
      rw [hlabel]
      decide +kernel
    have hcount : 0 < l.countP fun x => !x.pos :=
      List.countP_pos_iff.mpr ⟨p, hp, by simp [AucPred.pos, hnot]⟩
    exact_mod_cast hcount.ne'
  have hlast := getLastD_countLoop hsorted 0 0 (0, 0)
  rw [zero_add, zero_add, hperm.countP_eq, hperm.countP_eq] at hlast
  have harea := areaLoop_countLoop hsorted (l.countP fun x => x.pos) (l.countP fun x => !x.pos)
    0 0 0
  rw [ahead_sorted, zero_mul, zero_add, zero_add] at harea
  have hresult : auc Arith.rat dv predict len = some ((((higherPairs l + equalAhead l : Nat) : ℚ) /
      (((l.countP fun x => x.pos : Nat) : ℚ) * ((l.countP fun x => !x.pos : Nat) : ℚ)))) := by
    unfold auc
    rw [if_pos ⟨hlen, hle, length_classesOf hlabels hpos hneg⟩]
    dsimp only
    rw [hlast, countLoop_eq_cons, List.map_cons]
    exact congrArg some harea
  refine ⟨_, hresult, ?_⟩
  · constructor
    · intro h
      field_simp at h
      push_cast at h
      have heq : (2 * equalAhead l : ℚ) = equalPairs l := by linarith
      exact_mod_cast heq
    · intro h
      have heq : (2 * equalAhead l : ℚ) = equalPairs l := by exact_mod_cast h
      push_cast
      rw [← heq]
      congr 1
      ring

/-- Samples with the given labels. -/
def scored (labels : List ℚ) : List (Data ℚ) := labels.map fun y => ⟨[], 0, 1, y, 0, 0⟩

theorem auc_iff_three :
    ∃ a, auc Arith.rat (scored [1, -1, 1]) [2, 1, 0] 3 = some a ∧
      (a = (higherPairs (aucPreds (scored [1, -1, 1]) [2, 1, 0]) +
            equalPairs (aucPreds (scored [1, -1, 1]) [2, 1, 0]) / 2) /
          (((aucPreds (scored [1, -1, 1]) [2, 1, 0]).countP fun x => x.pos) *
            ((aucPreds (scored [1, -1, 1]) [2, 1, 0]).countP fun x => !x.pos)) ↔
        2 * equalAhead (aucPreds (scored [1, -1, 1]) [2, 1, 0]) =
          equalPairs (aucPreds (scored [1, -1, 1]) [2, 1, 0])) :=
  auc_iff (scored [1, -1, 1]) [2, 1, 0] 3 (by decide +kernel) (by decide +kernel)
    (by decide +kernel) (by decide +kernel) (by decide +kernel)

/-- Two samples with the same score: the result is 1 or 0 by their order, where the area is 1/2. -/
theorem tied_scores :
    auc Arith.rat (scored [1, -1]) [0, 0] 2 = some 1 ∧
      auc Arith.rat (scored [-1, 1]) [0, 0] 2 = some 0 ∧
      (higherPairs (aucPreds (scored [1, -1]) [0, 0]) +
          equalPairs (aucPreds (scored [1, -1]) [0, 0]) / 2 : ℚ) /
        (((aucPreds (scored [1, -1]) [0, 0]).countP fun x => x.pos) *
          ((aucPreds (scored [1, -1]) [0, 0]).countP fun x => !x.pos)) = 1 / 2 := by decide +kernel

end TeaclaveCrates.Gbdt
