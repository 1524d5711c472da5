import TeaclaveCrates.Lib.BinarySearch
import TeaclaveCrates.Rand.UniformInt

namespace TeaclaveCrates.Rand

open TeaclaveCrates.Lib

/-!
# rand — weighted indices

`distributions/weighted_index.rs`, for the unsigned integers. `None` of an outer option is a panic.

* `new`, `updateWeights`, `WeightedIndex.sample` — the operations;
* `Built` — the state that belongs to a list of weights;
* `checkLoop_fits`, `checkLoop_overflows` — the first loop of an update, and when it panics;
* `updateLoop_spec` — the second one;
* `updateWeights_iff` — when an update is the same as building anew.
-/

/-! ### The operations -/

/-- The sums of the weights, all but the last, and a sampler below the total. -/
structure WeightedIndex (w : Nat) where
  cumulativeWeights : List (BitVec w)
  totalWeight : BitVec w
  weightDistribution : UniformInt w
  deriving DecidableEq

/-- `enum WeightedError`. -/
inductive WeightedError where
  | noItem | invalidWeight | allWeightsZero | tooMany
  deriving DecidableEq

/-- `X::Sampler::new`, for a type without a sign. -/
def samplerNew (t : IntTy) (low high : BitVec t.bits) : Option (UniformInt t.bits) := do
  if low < high then newInclusive t low (← checkedSub high 1) else none

section

variable {w : Nat}

/-- The loop of `new`, over the weights after the first one. -/
def newLoop : List (BitVec w) → List (BitVec w) → BitVec w →
    Option (Except WeightedError (List (BitVec w) × BitVec w))
  | [], weights, totalWeight => some (.ok (weights, totalWeight))
  | x :: iter, weights, totalWeight =>
    if ¬ 0 ≤ x then some (.error .invalidWeight)
    else do newLoop iter (weights ++ [totalWeight]) (← checkedAdd totalWeight x)

/-- The weight of an index, out of the sums. -/
def oldWeight (self : WeightedIndex w) (i : Nat) : Option (BitVec w) :=
  let oldW := (self.cumulativeWeights[i]?).getD self.totalWeight
  if 0 < i then do checkedSub oldW (← self.cumulativeWeights[i - 1]?) else some oldW

/-- The first loop of an update, with the index before. -/
def checkLoop (self : WeightedIndex w) : Option Nat → List (Nat × BitVec w) → BitVec w →
    Option (Except WeightedError (BitVec w))
  | _, [], totalWeight => some (.ok totalWeight)
  | prevI, (i, x) :: newWeights, totalWeight =>
    if prevI.any (i ≤ ·) then some (.error .invalidWeight)
    else if ¬ 0 ≤ x then some (.error .invalidWeight)
    else if self.cumulativeWeights.length < i then some (.error .tooMany)
    else do
      let difference ← checkedSub totalWeight (← oldWeight self i)
      checkLoop self (some i) newWeights (← checkedAdd difference x)

/-- The sum after an index, and the weights that are still to come. -/
def addWeight (i : Nat) (old : BitVec w) (prevWeight cumulativeWeight : BitVec w) :
    List (Nat × BitVec w) → Option (BitVec w × List (Nat × BitVec w))
  | (j, x) :: iter =>
    if i = j then (checkedAdd cumulativeWeight x).map (·, iter)
    else do
      let tmp ← checkedSub old prevWeight
      (checkedAdd cumulativeWeight tmp).map (·, (j, x) :: iter)
  | [] => do
    let tmp ← checkedSub old prevWeight
    (checkedAdd cumulativeWeight tmp).map (·, [])

/-- The second loop, over the sums from an index on. -/
def updateLoop : Nat → List (BitVec w) → List (Nat × BitVec w) → BitVec w → BitVec w →
    Option (List (BitVec w))
  | _, [], _, _, _ => some []
  | i, old :: sums, nextNewWeight, prevWeight, cumulativeWeight => do
    let (sum, iter) ← addWeight i old prevWeight cumulativeWeight nextNewWeight
    return sum :: (← updateLoop (i + 1) sums iter old sum)

/-- The sum in front of an index. -/
def sumBefore (self : WeightedIndex w) (i : Nat) : Option (BitVec w) :=
  if 0 < i then self.cumulativeWeights[i - 1]? else some 0

/-- How the search compares a sum with the chosen weight. -/
def compareSum (chosenWeight sum : BitVec w) : Ordering :=
  if sum ≤ chosenWeight then Ordering.lt else Ordering.gt

/-- The index whose sum is the first one above the chosen weight. -/
def choose (self : WeightedIndex w) (chosenWeight : BitVec w) : Option Nat :=
  match binarySearchBy (compareSum chosenWeight) self.cumulativeWeights with
  | .ok _ => none
  | .error i => some i

end

/-- The first error, or the index of the weights. -/
def new (t : IntTy) : List (BitVec t.bits) →
    Option (Except WeightedError (WeightedIndex t.bits))
  | [] => some (.error .noItem)
  | first :: iter =>
    if ¬ 0 ≤ first then some (.error .invalidWeight)
    else do
      match ← newLoop iter [] first with
      | .error e => return .error e
      | .ok (weights, totalWeight) =>
        if totalWeight = 0 then return .error .allWeightsZero
        else return .ok ⟨weights, totalWeight, ← samplerNew t 0 totalWeight⟩

/-- The result, and `self` afterwards. -/
def updateWeights (t : IntTy) (self : WeightedIndex t.bits) :
    List (Nat × BitVec t.bits) → Option (Except WeightedError Unit × WeightedIndex t.bits)
  | [] => some (.ok (), self)
  | (first, x) :: iter => do
    match ← checkLoop self none ((first, x) :: iter) self.totalWeight with
    | .error e => return (.error e, self)
    | .ok totalWeight =>
      if totalWeight ≤ 0 then return (.error .allWeightsZero, self)
      else do
        let sums ← updateLoop first (self.cumulativeWeights.drop first) ((first, x) :: iter) 0
          (← sumBefore self first)
        return (.ok (), ⟨self.cumulativeWeights.take first ++ sums, totalWeight,
          ← samplerNew t 0 totalWeight⟩)

/-- Draw below the total and search the sum above. -/
def WeightedIndex.sample (t : IntTy) (self : WeightedIndex t.bits)
    (words : List (BitVec t.large)) : Option (Option Nat) := do
  match ← self.weightDistribution.sample t words with
  | some chosenWeight => (choose self chosenWeight).map some
  | none => return none

/-! ### What they are for -/

section

variable {w : Nat}

/-- The sum of the weights, as a number. -/
def total (weights : List (BitVec w)) : Nat := (weights.map BitVec.toNat).sum

/-- The weights with some of them replaced, one after the other. -/
def updated (weights : List (BitVec w)) (newWeights : List (Nat × BitVec w)) : List (BitVec w) :=
  newWeights.foldl (fun weights u => weights.set u.1 u.2) weights

/-- The indices are strictly increasing, and below the number of weights. -/
def ValidUpdates (n : Nat) (newWeights : List (Nat × BitVec w)) : Prop :=
  (newWeights.map Prod.fst).Pairwise (· < ·) ∧ ∀ u ∈ newWeights, u.1 < n

/-- The sum is representable after each of the updates, up to the first one that is not valid. -/
def TotalsFit (weights : List (BitVec w)) (newWeights : List (Nat × BitVec w)) : Prop :=
  ∀ p, p <+: newWeights → ValidUpdates weights.length p → total (updated weights p) < 2 ^ w

end

/-- The weights that the sampler can draw: some source words lead to them. -/
def Drawable (t : IntTy) (self : WeightedIndex t.bits) (x : BitVec t.bits) : Prop :=
  ∃ words, self.weightDistribution.sample t words = some (some x)

/-- A sample is one of the indices, and each is chosen for as many of the weights that can be drawn
    as it weighs itself. -/
structure Selects (t : IntTy) (index : WeightedIndex t.bits) (weights : List (BitVec t.bits)) :
    Prop where
  sample_lt : ∀ words, ∃ r, index.sample t words = some r ∧ ∀ i ∈ r, i < weights.length
  ncard_eq : ∀ i weight, weights[i]? = some weight →
    {x | Drawable t index x ∧ choose index x = some i}.ncard = weight.toNat

/-- An update fails on what is not valid or weighs nothing, and is otherwise a rebuild. -/
structure UpdateRebuilds (t : IntTy) (index : WeightedIndex t.bits) (weights : List (BitVec t.bits))
    (newWeights : List (Nat × BitVec t.bits)) : Prop where
  selects : Selects t index weights
  error_of : ¬ ValidUpdates weights.length newWeights ∨ total (updated weights newWeights) = 0 →
    ∃ e, updateWeights t index newWeights = some (.error e, index)
  ok_of : ValidUpdates weights.length newWeights → 0 < total (updated weights newWeights) →
    total (updated weights newWeights) < 2 ^ t.bits →
    ∃ index', updateWeights t index newWeights = some (.ok (), index') ∧
      new t (updated weights newWeights) = some (.ok index') ∧
      Selects t index' (updated weights newWeights)

/-! ### Sums -/

section

variable {w : Nat} {weights : List (BitVec w)}

theorem total_cons (x : BitVec w) (weights : List (BitVec w)) :
    total (x :: weights) = x.toNat + total weights := by
  simp [total]

theorem total_take_succ {i : Nat} {x : BitVec w} (h : weights[i]? = some x) :
    total (weights.take (i + 1)) = total (weights.take i) + x.toNat := by
  rw [List.take_add_one, h]
  simp [total]

theorem total_take_mono {i j : Nat} (h : i ≤ j) :
    total (weights.take i) ≤ total (weights.take j) := by
  obtain ⟨k, rfl⟩ := Nat.exists_eq_add_of_le h
  simp [total, List.take_add]

theorem total_take_le (i : Nat) : total (weights.take i) ≤ total weights :=
  calc total (weights.take i)
      ≤ total (weights.take (max i weights.length)) := total_take_mono (Nat.le_max_left _ _)
    _ = total weights := by rw [List.take_of_length_le (Nat.le_max_right _ _)]

theorem total_set {i : Nat} {old : BitVec w} (x : BitVec w) (h : weights[i]? = some old) :
    total (weights.set i x) + old.toNat = total weights + x.toNat := by
  induction weights generalizing i with
  | nil => simp at h
  | cons y weights ih =>
    cases i with
    | zero =>
      obtain rfl : y = old := by simpa using h
      rw [List.set_cons_zero, total_cons, total_cons]
      omega
    | succ i =>
      have hrest := ih (i := i) (by simpa using h)
      rw [List.set_cons_succ, total_cons, total_cons]
      omega

/-! ### Updated weights -/

theorem updated_cons (u : Nat × BitVec w) (newWeights : List (Nat × BitVec w)) :
    updated weights (u :: newWeights) = updated (weights.set u.1 u.2) newWeights := rfl

@[simp] theorem length_updated (newWeights : List (Nat × BitVec w)) :
    (updated weights newWeights).length = weights.length := by
  induction newWeights generalizing weights with
  | nil => rfl
  | cons u newWeights ih => rw [updated_cons, ih, List.length_set]

/-- An element depends on the one that it replaces only. -/
theorem updated_getElem?_congr {a b : List (BitVec w)} {j : Nat} (h : a[j]? = b[j]?)
    (newWeights : List (Nat × BitVec w)) :
    (updated a newWeights)[j]? = (updated b newWeights)[j]? := by
  induction newWeights generalizing a b with
  | nil => exact h
  | cons u newWeights ih =>
    have hlength : j < a.length ↔ j < b.length := by
      rw [← not_le, ← not_le, ← List.getElem?_eq_none_iff, h, List.getElem?_eq_none_iff]
    rw [updated_cons, updated_cons]
    refine ih ?_
    rw [List.getElem?_set, List.getElem?_set]
    split
    · rename_i hj
      simp only [hj, hlength]
    · exact h

theorem updated_getElem?_of_ne {j : Nat} {newWeights : List (Nat × BitVec w)}
    (h : ∀ u ∈ newWeights, u.1 ≠ j) : (updated weights newWeights)[j]? = weights[j]? := by
  induction newWeights generalizing weights with
  | nil => rfl
  | cons u newWeights ih =>
    rw [updated_cons, ih fun v hv => h v (List.mem_cons_of_mem u hv),
      List.getElem?_set_ne (h u List.mem_cons_self)]

end

/-! ### The state of a list of weights -/

/-- The state that `new` makes of the weights. -/
structure Built (t : IntTy) (weights : List (BitVec t.bits)) (index : WeightedIndex t.bits) :
    Prop where
  length_eq : index.cumulativeWeights.length + 1 = weights.length
  sum_eq : ∀ i c, index.cumulativeWeights[i]? = some c → c.toNat = total (weights.take (i + 1))
  total_eq : index.totalWeight.toNat = total weights
  sampler_eq : samplerNew t 0 index.totalWeight = some index.weightDistribution

theorem Built.unique {t : IntTy} {weights : List (BitVec t.bits)} {index other : WeightedIndex t.bits}
    (h : Built t weights index) (h' : Built t weights other) : index = other := by
  have htotal : index.totalWeight = other.totalWeight :=
    BitVec.eq_of_toNat_eq (h.total_eq.trans h'.total_eq.symm)
  have hlength : index.cumulativeWeights.length = other.cumulativeWeights.length := by
    have hs := h.length_eq
    have ho := h'.length_eq
    omega
  have hsums : index.cumulativeWeights = other.cumulativeWeights := by
    refine List.ext_getElem hlength fun i hi hi' => BitVec.eq_of_toNat_eq ?_
    rw [h.sum_eq i _ (List.getElem?_eq_getElem hi), h'.sum_eq i _ (List.getElem?_eq_getElem hi')]
  have hsampler := h.sampler_eq
  rw [htotal, h'.sampler_eq] at hsampler
  cases index
  cases other
  simp only at htotal hsums hsampler
  rw [htotal, hsums, Option.some.inj hsampler]

theorem unsigned_le {width : IntWidth} {x y : BitVec (IntTy.bits ⟨false, width⟩)} :
    IntTy.le ⟨false, width⟩ x y ↔ x.toNat ≤ y.toNat :=
  BitVec.ule_iff_toNat_le

theorem bitVec_zero_le {w : Nat} (x : BitVec w) : 0 ≤ x := by
  simp [BitVec.le_def]

theorem samplerNew_unbiased {width : IntWidth} {high : BitVec (IntTy.bits ⟨false, width⟩)}
    (h : 0 < high.toNat) : ∃ s, samplerNew ⟨false, width⟩ 0 high = some s ∧
      Unbiased (s.sample ⟨false, width⟩) fun x => x.toNat < high.toNat := by
  have hpow : 1 < 2 ^ IntTy.bits ⟨false, width⟩ := by omega
  have hone : (1 : BitVec (IntTy.bits ⟨false, width⟩)).toNat = 1 := Nat.mod_eq_of_lt hpow
  obtain ⟨last, hlast, hlast'⟩ := checkedSub_represents (x := high) (y := 1) (by omega)
  have hle : IntTy.le ⟨false, width⟩ 0 last := unsigned_le.mpr (by simp)
  obtain ⟨s, hs, hunbiased⟩ := newInclusive_unbiased hle
  refine ⟨s, ?_, hunbiased.congr fun x => ?_⟩
  · simp only [samplerNew, if_pos (pos_iff_toNat.mpr h), hlast, Option.bind_eq_bind,
      Option.bind_some]
    exact hs
  · have hbetween : IntTy.Between ⟨false, width⟩ 0 last x ↔ x.toNat ≤ last.toNat :=
      ⟨fun hx => unsigned_le.mp hx.2,
        fun hx => ⟨unsigned_le.mpr (by simp), unsigned_le.mpr hx⟩⟩
    rw [hbetween, hlast', hone]
    omega

/-- The loop of `new`: each turn keeps the sum so far, and adds to it. -/
theorem newLoop_spec {w : Nat} {iter : List (BitVec w)} (weights : List (BitVec w)) {sum : BitVec w}
    (hfits : sum.toNat + total iter < 2 ^ w) : ∃ sums last,
      newLoop iter weights sum = some (.ok (weights ++ sums, last)) ∧
      last.toNat = sum.toNat + total iter ∧ sums.length = iter.length ∧
      ∀ i c, sums[i]? = some c → c.toNat = sum.toNat + total (iter.take i) := by
  induction iter generalizing weights sum with
  | nil => exact ⟨[], sum, by rw [List.append_nil, newLoop], rfl, rfl, by simp⟩
  | cons x iter ih =>
    rw [total_cons] at hfits
    obtain ⟨next, hnext, hnext'⟩ := checkedAdd_represents (x := sum) (y := x) (by omega)
    obtain ⟨sums, last, hloop, hlast, hlength, hsums⟩ :=
      ih (weights ++ [sum]) (by rwa [hnext', Nat.add_assoc] : next.toNat + total iter < 2 ^ w)
    refine ⟨sum :: sums, last, ?_, ?_, by rw [List.length_cons, List.length_cons, hlength], ?_⟩
    · rw [newLoop, if_neg (not_not_intro (bitVec_zero_le x)), hnext, Option.bind_eq_bind,
        Option.bind_some, hloop, List.append_assoc, List.singleton_append]
    · rw [hlast, hnext', total_cons, Nat.add_assoc]
    · intro i c hc
      cases i with
      | zero =>
        obtain rfl : sum = c := by simpa using hc
        simp [total]
      | succ i =>
        rw [List.take_succ_cons, total_cons, hsums i c hc, hnext', Nat.add_assoc]

/-- Weights that are representable: an error when they are all zero, and their state else. -/
theorem new_spec {width : IntWidth} {weights : List (BitVec (IntTy.bits ⟨false, width⟩))}
    (hfits : total weights < 2 ^ IntTy.bits ⟨false, width⟩) :
    (total weights = 0 → ∃ e, new ⟨false, width⟩ weights = some (.error e)) ∧
      (0 < total weights → ∃ self, new ⟨false, width⟩ weights = some (.ok self) ∧
        Built ⟨false, width⟩ weights self) := by
  cases weights with
  | nil => exact ⟨fun _ => ⟨_, rfl⟩, fun h => absurd h (Nat.lt_irrefl 0)⟩
  | cons first iter =>
    rw [total_cons] at hfits ⊢
    obtain ⟨sums, last, hloop, hlast, hlength, hsums⟩ := newLoop_spec [] hfits
    rw [List.nil_append] at hloop
    rw [new, if_neg (not_not_intro (bitVec_zero_le first)), hloop, Option.bind_eq_bind,
      Option.bind_some]
    dsimp only
    rw [← hlast]
    refine ⟨fun hzero => ⟨.allWeightsZero, if_pos (BitVec.eq_of_toNat_eq hzero)⟩, fun hpos => ?_⟩
    obtain ⟨s, hs, -⟩ := samplerNew_unbiased hpos
    have hne : last ≠ 0 := by
      rintro rfl
      exact Nat.lt_irrefl 0 hpos
    rw [if_neg hne, hs]
    refine ⟨⟨sums, last, s⟩, rfl, by rw [hlength]; rfl, ?_, by rw [hlast, total_cons], hs⟩
    intro i c hc
    rw [List.take_succ_cons, total_cons, hsums i c hc]

/-! ### The first loop -/

section

variable {t : IntTy} {weights current : List (BitVec t.bits)} {index : WeightedIndex t.bits}
  {sum : BitVec t.bits} {prev : Option Nat}

variable {i : Nat}

/-- The sum up to an index, which is the total for the last one. -/
theorem Built.sum_getD (h : Built t weights index) (hi : i < weights.length) :
    ((index.cumulativeWeights[i]?).getD index.totalWeight).toNat
      = total (weights.take (i + 1)) := by
  have hlength := h.length_eq
  cases hc : index.cumulativeWeights[i]? with
  | some c => exact h.sum_eq i c hc
  | none =>
    have hlen := List.getElem?_eq_none_iff.mp hc
    rw [List.take_of_length_le (by omega)]
    exact h.total_eq

theorem oldWeight_eq (h : Built t weights index) {old : BitVec t.bits}
    (hi : weights[i]? = some old) : oldWeight index i = some old := by
  obtain ⟨hlt, -⟩ := List.getElem?_eq_some_iff.mp hi
  have hsum := h.sum_getD hlt
  rw [total_take_succ hi] at hsum
  have hlength := h.length_eq
  rw [oldWeight]
  split
  · rename_i hpos
    have hbefore : i - 1 < index.cumulativeWeights.length := by omega
    have hget := List.getElem?_eq_getElem hbefore
    have hprev := h.sum_eq (i - 1) _ hget
    rw [Nat.sub_add_cancel hpos] at hprev
    obtain ⟨d, hd, hd'⟩ := checkedSub_represents
      (x := (index.cumulativeWeights[i]?).getD index.totalWeight)
      (y := index.cumulativeWeights[i - 1]) (by omega)
    rw [hget, Option.bind_eq_bind, Option.bind_some, hd]
    exact congrArg some (BitVec.eq_of_toNat_eq (by omega))
  · obtain rfl : i = 0 := by omega
    refine congrArg some (BitVec.eq_of_toNat_eq (hsum.trans ?_))
    simp [total]

/-- The updates that are left are valid, behind an index. -/
def ValidAfter {w : Nat} (n : Nat) (prev : Option Nat) (newWeights : List (Nat × BitVec w)) :
    Prop :=
  (∀ p ∈ prev, ∀ u ∈ newWeights, p < u.1) ∧ ValidUpdates n newWeights

theorem validAfter_cons {w n : Nat} {x : BitVec w} {newWeights : List (Nat × BitVec w)} :
    ValidAfter n prev ((i, x) :: newWeights) ↔
      ((∀ p ∈ prev, p < i) ∧ i < n) ∧ ValidAfter n (some i) newWeights := by
  simp only [ValidAfter, ValidUpdates, List.map_cons, List.pairwise_cons, List.forall_mem_cons,
    List.forall_mem_map, Option.mem_def, Option.some.injEq, forall_eq']
  constructor
  · rintro ⟨hprev, ⟨hi, hrest⟩, hlt, hall⟩
    exact ⟨⟨fun p hp => (hprev p hp).1, hlt⟩, hi, hrest, hall⟩
  · rintro ⟨⟨hprev, hlt⟩, hi, hrest, hall⟩
    exact ⟨fun p hp => ⟨hprev p hp, fun u hu => (hprev p hp).trans (hi u hu)⟩, ⟨hi, hrest⟩, hlt,
      hall⟩

/-- The weights after some turns: those behind the last index are the old ones. -/
structure Reached (weights current : List (BitVec t.bits)) (prev : Option Nat)
    (sum : BitVec t.bits) : Prop where
  length_eq : current.length = weights.length
  sum_eq : sum.toNat = total current
  get_eq : ∀ j, (∀ p ∈ prev, p < j) → current[j]? = weights[j]?

theorem checkLoop_error (h : Built t weights index) {x : BitVec t.bits}
    {newWeights : List (Nat × BitVec t.bits)}
    (hnot : ¬ ((∀ p ∈ prev, p < i) ∧ i < weights.length)) :
    ∃ e, checkLoop index prev ((i, x) :: newWeights) sum = some (.error e) := by
  have hlength := h.length_eq
  rw [checkLoop, if_neg (not_not_intro (bitVec_zero_le x))]
  split
  · exact ⟨_, rfl⟩
  · rename_i hprev
    have hlt : ∀ p ∈ prev, p < i := by
      rintro p rfl
      simpa using hprev
    have hi : ¬ i < weights.length := fun hi => hnot ⟨hlt, hi⟩
    rw [if_pos (by omega)]
    exact ⟨_, rfl⟩

/-- A turn that reaches its last addition. -/
theorem checkLoop_step (h : Built t weights index) (hr : Reached weights current prev sum)
    {x : BitVec t.bits} (newWeights : List (Nat × BitVec t.bits))
    (hi : (∀ p ∈ prev, p < i) ∧ i < weights.length) :
    (2 ^ t.bits ≤ total (current.set i x) →
      checkLoop index prev ((i, x) :: newWeights) sum = none) ∧
    (total (current.set i x) < 2 ^ t.bits →
      ∃ next, Reached weights (current.set i x) (some i) next ∧
        checkLoop index prev ((i, x) :: newWeights) sum
          = checkLoop index (some i) newWeights next) := by
  have hlength := h.length_eq
  have hold := List.getElem?_eq_getElem hi.2
  have hset := total_set x ((hr.get_eq i hi.1).trans hold)
  have hsum := hr.sum_eq
  have hle : total (current.take (i + 1)) ≤ total current := total_take_le (i + 1)
  rw [total_take_succ ((hr.get_eq i hi.1).trans hold)] at hle
  obtain ⟨d, hd, hd'⟩ := checkedSub_represents (x := sum) (y := weights[i]) (by omega)
  have hprev : prev.any (i ≤ ·) = false := by
    cases prev with
    | none => rfl
    | some p => simpa using hi.1 p rfl
  have hturn : checkLoop index prev ((i, x) :: newWeights) sum
      = (checkedAdd d x).bind (checkLoop index (some i) newWeights) := by
    rw [checkLoop, hprev, if_neg Bool.false_ne_true, if_neg (not_not_intro (bitVec_zero_le x)),
      if_neg (by omega), oldWeight_eq h hold, Option.bind_eq_bind, Option.bind_some, hd]
    rfl
  rw [hturn]
  constructor
  · intro hbig
    rw [checkedAdd, if_pos (by simp only [BitVec.uaddOverflow, decide_eq_true_eq]; omega)]
    rfl
  · intro hfits
    obtain ⟨next, hnext, hnext'⟩ := checkedAdd_represents (x := d) (y := x) (by omega)
    refine ⟨next, ⟨by rw [List.length_set, hr.length_eq], ?_, fun j hj => ?_⟩,
      by rw [hnext, Option.bind_some]⟩
    · omega
    · have hij : i < j := hj i rfl
      rw [List.getElem?_set_ne (by omega)]
      exact hr.get_eq j fun p hp => (hi.1 p hp).trans hij

/-- The loop over updates whose totals all fit. -/
theorem checkLoop_fits (h : Built t weights index) (hr : Reached weights current prev sum)
    {newWeights : List (Nat × BitVec t.bits)}
    (hfits : ∀ p, p <+: newWeights → ValidAfter weights.length prev p →
      total (updated current p) < 2 ^ t.bits) :
    (ValidAfter weights.length prev newWeights → ∃ last,
      checkLoop index prev newWeights sum = some (.ok last) ∧
        last.toNat = total (updated current newWeights)) ∧
    (¬ ValidAfter weights.length prev newWeights → ∃ e,
      checkLoop index prev newWeights sum = some (.error e)) := by
  induction newWeights generalizing prev current sum with
  | nil =>
    refine ⟨fun _ => ⟨sum, by rw [checkLoop], hr.sum_eq⟩, fun hnot => absurd ?_ hnot⟩
    simp [ValidAfter, ValidUpdates]
  | cons u newWeights ih =>
    obtain ⟨i, x⟩ := u
    by_cases hi : (∀ p ∈ prev, p < i) ∧ i < weights.length
    · have hone : ValidAfter weights.length prev [(i, x)] :=
        validAfter_cons.mpr ⟨hi, by simp [ValidAfter, ValidUpdates]⟩
      obtain ⟨next, hnext, hturn⟩ := (checkLoop_step h hr newWeights hi).2
        (hfits [(i, x)] ((List.prefix_cons_inj _).mpr List.nil_prefix) hone)
      rw [hturn, validAfter_cons, and_iff_right hi]
      refine ih hnext fun p hp hv => hfits ((i, x) :: p) ?_ (validAfter_cons.mpr ⟨hi, hv⟩)
      exact (List.prefix_cons_inj _).mpr hp
    · refine ⟨fun hv => absurd (validAfter_cons.mp hv).1 hi, fun _ => checkLoop_error h hi⟩

/-- The loop panics at the first total that does not fit. -/
theorem checkLoop_overflows (h : Built t weights index) (hr : Reached weights current prev sum)
    {newWeights p : List (Nat × BitVec t.bits)} (hp : p <+: newWeights)
    (hv : ValidAfter weights.length prev p) (hbig : 2 ^ t.bits ≤ total (updated current p)) :
    checkLoop index prev newWeights sum = none := by
  induction p generalizing prev current sum newWeights with
  | nil =>
    have hsum := hr.sum_eq
    simp only [updated, List.foldl_nil] at hbig
    omega
  | cons u p ih =>
    obtain ⟨i, x⟩ := u
    obtain ⟨newWeights, rfl⟩ := hp
    obtain ⟨hi, hrest⟩ := validAfter_cons.mp hv
    obtain ⟨hover, hstep⟩ := checkLoop_step (x := x) h hr (p ++ newWeights) hi
    rcases Nat.lt_or_ge (total (current.set i x)) (2 ^ t.bits) with hlt | hge
    · obtain ⟨next, hnext, hturn⟩ := hstep hlt
      rw [List.cons_append, hturn]
      exact ih hnext (List.prefix_append p newWeights) hrest hbig
    · exact hover hge

end

/-! ### The second loop -/

section

variable {w : Nat} {weights rebuilt : List (BitVec w)} {prevWeight cumulativeWeight : BitVec w}

/-- What the loop still has to do at an index. -/
structure Remaining (weights rebuilt : List (BitVec w)) (i : Nat)
    (nextNewWeight : List (Nat × BitVec w)) : Prop where
  length_eq : rebuilt.length = weights.length
  valid : ValidUpdates weights.length nextNewWeight
  le : ∀ u ∈ nextNewWeight, i ≤ u.1
  get_eq : ∀ j, i ≤ j → rebuilt[j]? = (updated weights nextNewWeight)[j]?

variable {next : List (Nat × BitVec w)}

theorem addWeight_spec {i : Nat} {old : BitVec w} (h : Remaining weights rebuilt i next)
    (hi : i < weights.length) (hfits : total rebuilt < 2 ^ w)
    (hold : old.toNat = total (weights.take (i + 1)))
    (hprev : (∀ u ∈ next, i < u.1) → prevWeight.toNat = total (weights.take i))
    (hcumulative : cumulativeWeight.toNat = total (rebuilt.take i)) :
    ∃ sum iter, addWeight i old prevWeight cumulativeWeight next = some (sum, iter) ∧
      sum.toNat = total (rebuilt.take (i + 1)) ∧ Remaining weights rebuilt (i + 1) iter := by
  -- the addition, for either of the two summands
  have hadd : ∀ x : BitVec w, rebuilt[i]? = some x → ∃ sum,
      checkedAdd cumulativeWeight x = some sum ∧ sum.toNat = total (rebuilt.take (i + 1)) := by
    intro x hx
    have hle : total (rebuilt.take (i + 1)) ≤ total rebuilt := total_take_le (i + 1)
    rw [total_take_succ hx] at hle ⊢
    rw [← hcumulative] at hle ⊢
    exact checkedAdd_represents (by omega)
  -- without a new weight for the index, the old one is the difference
  have hkeep : (∀ u ∈ next, i < u.1) → ∃ tmp sum, checkedSub old prevWeight = some tmp ∧
      checkedAdd cumulativeWeight tmp = some sum ∧ sum.toNat = total (rebuilt.take (i + 1)) ∧
      Remaining weights rebuilt (i + 1) next := by
    intro hnext
    have hget := List.getElem?_eq_getElem hi
    rw [total_take_succ hget, ← hprev hnext] at hold
    obtain ⟨tmp, htmp, htmp'⟩ := checkedSub_represents (x := old) (y := prevWeight) (by omega)
    have hsame : rebuilt[i]? = some tmp := by
      rw [h.get_eq i le_rfl, updated_getElem?_of_ne fun u hu => (hnext u hu).ne', hget]
      exact congrArg some (BitVec.eq_of_toNat_eq (by omega))
    obtain ⟨sum, hsum, hsum'⟩ := hadd tmp hsame
    exact ⟨tmp, sum, htmp, hsum, hsum', h.length_eq, h.valid, hnext,
      fun j hj => h.get_eq j (by omega)⟩
  cases next with
  | nil =>
    obtain ⟨tmp, sum, htmp, hsum, hsum', hr⟩ := hkeep (by simp)
    exact ⟨sum, [], by simp [addWeight, htmp, hsum], hsum', hr⟩
  | cons u iter =>
    obtain ⟨j, x⟩ := u
    have hbehind : ∀ u ∈ iter, j < u.1 := by
      have hpairwise := h.valid.1
      rw [List.map_cons, List.pairwise_cons] at hpairwise
      exact fun u hu => hpairwise.1 u.1 (List.mem_map_of_mem hu)
    by_cases hij : i = j
    · subst hij
      have hget : rebuilt[i]? = some x := by
        rw [h.get_eq i le_rfl, updated_cons, updated_getElem?_of_ne fun u hu => (hbehind u hu).ne',
          List.getElem?_set_self hi]
      obtain ⟨sum, hsum, hsum'⟩ := hadd x hget
      refine ⟨sum, iter, by simp [addWeight, hsum], hsum', h.length_eq,
        ⟨(List.pairwise_cons.mp h.valid.1).2, fun u hu => h.valid.2 u (List.mem_cons_of_mem _ hu)⟩,
        hbehind, fun k hk => ?_⟩
      rw [h.get_eq k (by omega), updated_cons]
      exact updated_getElem?_congr (List.getElem?_set_ne (by omega)) iter
    · have hlt : i < j := lt_of_le_of_ne (h.le (j, x) List.mem_cons_self) hij
      obtain ⟨tmp, sum, htmp, hsum, hsum', hr⟩ := hkeep
        (List.forall_mem_cons.mpr ⟨hlt, fun u hu => hlt.trans (hbehind u hu)⟩)
      exact ⟨sum, (j, x) :: iter, by simp [addWeight, hij, htmp, hsum], hsum', hr⟩

/-- The loop rewrites the sums from an index on. -/
theorem updateLoop_spec {i : Nat} (sums : List (BitVec w)) (prevWeight : BitVec w)
    (h : Remaining weights rebuilt i next) (hi : i + sums.length < weights.length)
    (hfits : total rebuilt < 2 ^ w)
    (hsums : ∀ k c, sums[k]? = some c → c.toNat = total (weights.take (i + k + 1)))
    (hprev : (∀ u ∈ next, i < u.1) → prevWeight.toNat = total (weights.take i))
    (hcumulative : cumulativeWeight.toNat = total (rebuilt.take i)) :
    ∃ sums', updateLoop i sums next prevWeight cumulativeWeight = some sums' ∧
      sums'.length = sums.length ∧
      ∀ k c, sums'[k]? = some c → c.toNat = total (rebuilt.take (i + k + 1)) := by
  induction sums generalizing i next prevWeight cumulativeWeight with
  | nil => exact ⟨[], rfl, rfl, by simp⟩
  | cons old sums ih =>
    rw [List.length_cons] at hi
    have hold : old.toNat = total (weights.take (i + 1)) := hsums 0 old rfl
    obtain ⟨sum, iter, hstep, hsum, hr⟩ :=
      addWeight_spec h (by omega) hfits hold hprev hcumulative
    obtain ⟨sums', hloop, hlength, hrest⟩ := ih old hr (by omega)
      (fun k c hc => by
        rw [hsums (k + 1) c hc]
        congr 2
        omega)
      (fun _ => hold) hsum
    refine ⟨sum :: sums', ?_, by rw [List.length_cons, List.length_cons, hlength], ?_⟩
    · rw [updateLoop, hstep, Option.bind_eq_bind, Option.bind_some]
      dsimp only
      rw [hloop]
      rfl
    · intro k c hc
      cases k with
      | zero =>
        obtain rfl : sum = c := by simpa using hc
        exact hsum
      | succ k =>
        rw [hrest k c hc]
        congr 2
        omega

end

/-! ### The choice -/

theorem compareSum_eq_lt {w : Nat} {x sum : BitVec w} :
    compareSum x sum = .lt ↔ sum.toNat ≤ x.toNat := by
  unfold compareSum
  rw [← BitVec.le_def]
  split <;> simp_all

theorem compareSum_eq_gt {w : Nat} {x sum : BitVec w} :
    compareSum x sum = .gt ↔ x.toNat < sum.toNat := by
  unfold compareSum
  rw [← not_le, ← BitVec.le_def]
  split <;> simp_all

/-- A weight below the total belongs to the index whose sums it lies between. -/
theorem choose_spec {t : IntTy} {weights : List (BitVec t.bits)} {index : WeightedIndex t.bits}
    (h : Built t weights index) {x : BitVec t.bits} (hx : x.toNat < total weights) :
    ∃ i, choose index x = some i ∧ i < weights.length ∧ total (weights.take i) ≤ x.toNat ∧
      x.toNat < total (weights.take (i + 1)) := by
  have hlength := h.length_eq
  have hpartitioned : Partitioned (compareSum x) index.cumulativeWeights := by
    refine List.pairwise_iff_getElem.mpr fun i j hi hj hij => ?_
    have hle : index.cumulativeWeights[i].toNat ≤ index.cumulativeWeights[j].toNat := by
      rw [h.sum_eq i _ (List.getElem?_eq_getElem hi), h.sum_eq j _ (List.getElem?_eq_getElem hj)]
      exact total_take_mono (by omega)
    rw [compareSum_eq_lt, compareSum_eq_lt, compareSum_eq_gt, compareSum_eq_gt]
    omega
  have hlocated := binarySearchBy_located hpartitioned
  unfold choose
  cases hsearch : binarySearchBy (compareSum x) index.cumulativeWeights with
  | ok i =>
    rw [hsearch] at hlocated
    obtain ⟨c, -, hc⟩ := hlocated
    unfold compareSum at hc
    split at hc <;> cases hc
  | error i =>
    rw [hsearch] at hlocated
    obtain ⟨hle, hbelow, habove⟩ := hlocated
    refine ⟨i, rfl, by omega, ?_, ?_⟩
    · cases i with
      | zero => simp [total]
      | succ i =>
        have hget := List.getElem?_eq_getElem (Nat.lt_of_succ_le hle)
        rw [← h.sum_eq i _ hget]
        exact compareSum_eq_lt.mp (hbelow i _ (Nat.lt_succ_self i) hget)
    · cases hc : index.cumulativeWeights[i]? with
      | none =>
        have hend := List.getElem?_eq_none_iff.mp hc
        rwa [List.take_of_length_le (by omega)]
      | some c =>
        rw [← h.sum_eq i c hc]
        exact compareSum_eq_gt.mp (habove i c le_rfl hc)

theorem Built.selects {width : IntWidth} {weights : List (BitVec (IntTy.bits ⟨false, width⟩))}
    {index : WeightedIndex (IntTy.bits ⟨false, width⟩)} (h : Built ⟨false, width⟩ weights index)
    (hpos : 0 < total weights) : Selects ⟨false, width⟩ index weights := by
  have hsum : 0 < index.totalWeight.toNat := by rwa [h.total_eq]
  obtain ⟨s, hs, hunbiased⟩ := samplerNew_unbiased hsum
  obtain rfl : s = index.weightDistribution := Option.some.inj (hs.symm.trans h.sampler_eq)
  rw [h.total_eq] at hunbiased
  have hdrawable : ∀ x, Drawable ⟨false, width⟩ index x ↔ x.toNat < total weights := by
    refine fun x => ⟨fun ⟨words, hx⟩ => hunbiased.none_of_not words x hx, fun hx => ?_⟩
    obtain ⟨k, hk, hcount⟩ := hunbiased.ncard_eq
    obtain ⟨v, hv⟩ := Set.nonempty_of_ncard_ne_zero ((hcount x hx).trans_ne hk.ne')
    exact ⟨[v], hv⟩
  constructor
  · intro words
    obtain ⟨r, hr⟩ := Option.isSome_iff_exists.mp (hunbiased.isSome words)
    rw [WeightedIndex.sample, hr, Option.bind_eq_bind, Option.bind_some]
    cases r with
    | none => exact ⟨none, rfl, by simp⟩
    | some x =>
      obtain ⟨i, hi, hlt, -⟩ := choose_spec h ((hdrawable x).mp ⟨words, hr⟩)
      exact ⟨some i, congrArg (Option.map some) hi, by simpa using hlt⟩
  · intro i weight hweight
    have hsucc := total_take_succ hweight
    have hle : total (weights.take (i + 1)) ≤ total weights := total_take_le (i + 1)
    have hlt := index.totalWeight.isLt
    rw [h.total_eq] at hlt
    have hchosen : ∀ x, Drawable ⟨false, width⟩ index x ∧ choose index x = some i ↔
        total (weights.take i) ≤ x.toNat ∧ x.toNat < total (weights.take (i + 1)) := by
      intro x
      rw [hdrawable]
      constructor
      · rintro ⟨hx, hi⟩
        obtain ⟨k, hk, -, hbounds⟩ := choose_spec h hx
        obtain rfl : k = i := Option.some.inj (hk.symm.trans hi)
        exact hbounds
      · rintro ⟨hge, hx⟩
        obtain ⟨k, hk, -, hge', hx'⟩ := choose_spec h (hx.trans_le hle)
        refine ⟨hx.trans_le hle, ?_⟩
        -- the intervals of two indices are disjoint
        rcases Nat.lt_trichotomy k i with hlt | rfl | hgt
        · have hmono : total (weights.take (k + 1)) ≤ total (weights.take i) :=
            total_take_mono hlt
          omega
        · exact hk
        · have hmono : total (weights.take (i + 1)) ≤ total (weights.take k) :=
            total_take_mono hgt
          omega
    have hset : {x | Drawable ⟨false, width⟩ index x ∧ choose index x = some i}
        = (fun j => BitVec.ofNat _ (total (weights.take i) + j)) '' {j | j < weight.toNat} := by
      ext x
      refine (hchosen x).trans ⟨fun ⟨hge, hx⟩ => ?_, ?_⟩
      · refine ⟨x.toNat - total (weights.take i),
          (by omega : x.toNat - total (weights.take i) < weight.toNat), ?_⟩
        dsimp only
        rw [Nat.add_sub_cancel' hge, BitVec.ofNat_toNat, BitVec.setWidth_eq]
      · rintro ⟨j, hj, rfl⟩
        change j < weight.toNat at hj
        rw [BitVec.toNat_ofNat, Nat.mod_eq_of_lt (by omega)]
        omega
    rw [hset, ncard_words (fun j k hjk => Nat.add_lt_add_left hjk _)]
    intro j hj
    omega

/-! ### Updates -/

section

variable {width : IntWidth} {weights : List (BitVec (IntTy.bits ⟨false, width⟩))}
  {index : WeightedIndex (IntTy.bits ⟨false, width⟩)}
  {newWeights : List (Nat × BitVec (IntTy.bits ⟨false, width⟩))}

/-- The sums up to the first index stay, those from it on are rewritten. -/
theorem updateWeights_ok (h : Built ⟨false, width⟩ weights index) (hpos : 0 < total weights)
    (hv : ValidUpdates weights.length newWeights) {last : BitVec (IntTy.bits ⟨false, width⟩)}
    (hcheck : checkLoop index none newWeights index.totalWeight = some (.ok last))
    (hlast : last.toNat = total (updated weights newWeights)) :
    (last.toNat = 0 → ∃ e, updateWeights ⟨false, width⟩ index newWeights = some (.error e, index)) ∧
    (0 < last.toNat → ∃ index', updateWeights ⟨false, width⟩ index newWeights
        = some (.ok (), index') ∧ Built ⟨false, width⟩ (updated weights newWeights) index') := by
  have hlength := h.length_eq
  cases newWeights with
  | nil =>
    rw [show updated weights [] = weights from rfl] at hlast ⊢
    exact ⟨fun hzero => absurd hpos (by omega), fun _ => ⟨index, rfl, h⟩⟩
  | cons u iter =>
    obtain ⟨first, x⟩ := u
    have hfirst : first < weights.length := hv.2 (first, x) List.mem_cons_self
    have hle : ∀ u ∈ (first, x) :: iter, first ≤ u.1 := by
      have hpairwise := (List.pairwise_cons.mp hv.1).1
      exact List.forall_mem_cons.mpr ⟨le_rfl, fun u hu =>
        (hpairwise u.1 (List.mem_map_of_mem hu)).le⟩
    -- the weights in front of the first index are the old ones
    have hsame : (updated weights ((first, x) :: iter)).take first = weights.take first := by
      refine List.ext_getElem? fun i => ?_
      rw [List.getElem?_take, List.getElem?_take]
      split
      · exact updated_getElem?_of_ne fun u hu => by have := hle u hu; omega
      · rfl
    obtain ⟨before, hbefore, hbefore'⟩ : ∃ before, sumBefore index first = some before ∧
        before.toNat = total ((updated weights ((first, x) :: iter)).take first) := by
      rw [hsame, sumBefore]
      by_cases hzero : 0 < first
      · have hget := List.getElem?_eq_getElem
          (show first - 1 < index.cumulativeWeights.length by omega)
        refine ⟨_, (if_pos hzero).trans hget, ?_⟩
        rw [h.sum_eq _ _ hget, Nat.sub_add_cancel hzero]
      · obtain rfl : first = 0 := by omega
        exact ⟨0, if_neg hzero, by simp [total]⟩
    obtain ⟨sums, hloop, hsumsLength, hsums⟩ :=
      updateLoop_spec (index.cumulativeWeights.drop first) 0
        ⟨length_updated _, hv, hle, fun _ _ => rfl⟩
        (by rw [List.length_drop]; omega) (hlast ▸ last.isLt)
        (fun k c hc => h.sum_eq _ c (by rwa [List.getElem?_drop] at hc))
        (fun hlt => absurd (hlt (first, x) List.mem_cons_self) (Nat.lt_irrefl first)) hbefore'
    rw [updateWeights, hcheck, Option.bind_eq_bind, Option.bind_some]
    constructor
    · intro hzero
      refine ⟨.allWeightsZero, if_pos ?_⟩
      rw [BitVec.le_def, hzero]
      exact Nat.zero_le _
    · intro hlastPos
      obtain ⟨s, hs, -⟩ := samplerNew_unbiased hlastPos
      have hnot : ¬ last ≤ 0 := by
        rw [BitVec.le_def, not_le]
        simpa using hlastPos
      refine ⟨⟨index.cumulativeWeights.take first ++ sums, last, s⟩, ?_, ?_, ?_, hlast, hs⟩
      · simp only [if_neg hnot, hbefore, hloop, hs, Option.bind_eq_bind, Option.bind_some]
        rfl
      · rw [length_updated, List.length_append, List.length_take, hsumsLength, List.length_drop]
        omega
      · intro i c hc
        rw [List.getElem?_append, List.length_take] at hc
        split at hc
        · rw [List.getElem?_take_of_lt (by omega)] at hc
          rw [h.sum_eq i c hc, ← Nat.min_eq_left (show i + 1 ≤ first by omega), ← List.take_take,
            ← List.take_take, hsame]
        · rw [hsums _ c hc]
          congr 2
          omega

theorem updateWeights_overflows (h : Built ⟨false, width⟩ weights index)
    (hnot : ¬ TotalsFit weights newWeights) :
    updateWeights ⟨false, width⟩ index newWeights = none := by
  have hlt := index.totalWeight.isLt
  have hr : Reached weights weights none index.totalWeight := ⟨rfl, h.total_eq, fun _ _ => rfl⟩
  simp only [TotalsFit, not_forall, not_lt] at hnot
  obtain ⟨p, hp, hv, hbig⟩ := hnot
  have hnone := checkLoop_overflows h hr hp ⟨by simp, hv⟩ hbig
  cases newWeights with
  | nil =>
    obtain rfl : p = [] := List.prefix_nil.mp hp
    rw [h.total_eq] at hlt
    exact absurd hbig (Nat.not_le.mpr hlt)
  | cons u iter =>
    rw [updateWeights, hnone]
    rfl

/-- What an update meets, in terms of the totals on the way: they all have to fit, unless the
    updates are valid and even their sum does not. -/
theorem updateWeights_iff (hfits : total weights < 2 ^ IntTy.bits ⟨false, width⟩)
    (hnew : new ⟨false, width⟩ weights = some (.ok index)) :
    UpdateRebuilds ⟨false, width⟩ index weights newWeights ↔
      ((ValidUpdates weights.length newWeights →
        total (updated weights newWeights) < 2 ^ IntTy.bits ⟨false, width⟩) →
          TotalsFit weights newWeights) := by
  have hpos : 0 < total weights := by
    rcases Nat.eq_zero_or_pos (total weights) with hzero | hpos
    · obtain ⟨e, he⟩ := (new_spec hfits).1 hzero
      rw [hnew] at he
      cases he
    · exact hpos
  have h : Built ⟨false, width⟩ weights index := by
    obtain ⟨index', hnew', h⟩ := (new_spec hfits).2 hpos
    rw [hnew] at hnew'
    cases hnew'
    exact h
  constructor
  · intro hmeets hsum
    by_contra hnot
    have hnone := updateWeights_overflows h hnot
    by_cases herror : ¬ ValidUpdates weights.length newWeights ∨
        total (updated weights newWeights) = 0
    · obtain ⟨e, he⟩ := hmeets.error_of herror
      rw [hnone] at he
      cases he
    · rw [not_or, not_not, ← ne_eq, ← Nat.pos_iff_ne_zero] at herror
      obtain ⟨index', hok, -⟩ := hmeets.ok_of herror.1 herror.2 (hsum herror.1)
      rw [hnone] at hok
      cases hok
  · intro hcond
    -- a valid update whose sum does not fit is not promised anything
    by_cases hsum : ValidUpdates weights.length newWeights →
        total (updated weights newWeights) < 2 ^ IntTy.bits ⟨false, width⟩
    · have hr : Reached weights weights none index.totalWeight := ⟨rfl, h.total_eq, fun _ _ => rfl⟩
      obtain ⟨hvalid, hinvalid⟩ := checkLoop_fits h hr fun p hp hv => hcond hsum p hp hv.2
      refine ⟨h.selects hpos, ?_, ?_⟩
      · intro herror
        by_cases hv : ValidUpdates weights.length newWeights
        · obtain ⟨last, hcheck, hlast⟩ := hvalid ⟨by simp, hv⟩
          exact (updateWeights_ok h hpos hv hcheck hlast).1
            (hlast.trans (herror.resolve_left (not_not_intro hv)))
        · obtain ⟨e, he⟩ := hinvalid fun hafter => hv hafter.2
          cases newWeights with
          | nil => simp [checkLoop] at he
          | cons u iter =>
            exact ⟨e, by rw [updateWeights, he]; rfl⟩
      · intro hv hnonzero hlt
        obtain ⟨last, hcheck, hlast⟩ := hvalid ⟨by simp, hv⟩
        obtain ⟨index', hok, hbuilt⟩ := (updateWeights_ok h hpos hv hcheck hlast).2 (hlast ▸ hnonzero)
        obtain ⟨rebuilt, hrebuilt, hbuilt'⟩ := (new_spec hlt).2 hnonzero
        obtain rfl := hbuilt.unique hbuilt'
        exact ⟨index', hok, hrebuilt, hbuilt.selects hnonzero⟩
    · rw [Classical.not_imp, not_lt] at hsum
      refine ⟨h.selects hpos, fun herror => ?_, fun _ _ hlt => absurd hlt (Nat.not_lt.mpr hsum.2)⟩
      exact absurd (herror.resolve_left (not_not_intro hsum.1)) (by omega)

end

/-- The weights 100 and 155 of `u8`. -/
def twoWeights : WeightedIndex 8 := ⟨[100], 255, ⟨0, 255, 1⟩⟩

theorem updateWeights_iff_two :
    UpdateRebuilds ⟨false, .w8⟩ twoWeights [100, 155] [(0, 200), (1, 10)] ↔
      ((ValidUpdates 2 [(0, (200 : BitVec 8)), (1, 10)] → total (updated [(100 : BitVec 8), 155]
        [(0, 200), (1, 10)]) < 2 ^ 8) → TotalsFit [(100 : BitVec 8), 155] [(0, 200), (1, 10)]) :=
  @updateWeights_iff .w8 [100, 155] twoWeights [(0, 200), (1, 10)] (by decide) (by decide)

/-- The weights 200 and 10 are representable together, but not 200 and 155 on the way. -/
theorem updateWeights_overflow_fails : ¬ ∀ (width : IntWidth)
    (weights : List (BitVec (IntTy.bits ⟨false, width⟩)))
    (index : WeightedIndex (IntTy.bits ⟨false, width⟩))
    (newWeights : List (Nat × BitVec (IntTy.bits ⟨false, width⟩))),
    total weights < 2 ^ IntTy.bits ⟨false, width⟩ →
      new ⟨false, width⟩ weights = some (.ok index) →
        UpdateRebuilds ⟨false, width⟩ index weights newWeights := by
  intro h
  have hmeets := h .w8 [100, 155] twoWeights [(0, 200), (1, 10)] (by decide) (by decide)
  obtain ⟨index', hok, -⟩ := hmeets.ok_of ⟨by decide, by decide⟩ (by decide) (by decide)
  have hnone : updateWeights ⟨false, .w8⟩ twoWeights [(0, 200), (1, 10)] = none := by decide
  rw [hnone] at hok
  cases hok

end TeaclaveCrates.Rand
