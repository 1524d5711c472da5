import Mathlib.Data.List.TakeWhile
import Mathlib.Tactic.Linarith
import Mathlib.Tactic.Positivity
import Mathlib.Tactic.Ring
import TeaclaveCrates.Gbdt.Routing

namespace TeaclaveCrates.Gbdt

open Arith (rat)

/-!
# The best split

Over exact rationals, `split` finds the threshold with the least impurity among all thresholds
between two neighbours of a feature that are not almost equal. The code goes through the samples with
running sums and cuts the node only afterwards, by comparing values with the threshold.

* `least` — the rule of both loops: a candidate is taken when it is strictly better.
* `thresholds` — the candidates of a feature, as the loop of `get_impurity` meets them.
* `impurity`, `knownValues`, `IsThreshold`, `cost` — what a split is to be judged by.
* `AtNode` — what holds at every node of the recursion.
* `getImpurity_spec` — the candidates of a feature are its thresholds, with their costs.
* `split_optimal` — the result of `split`.
-/

/-! ### The least candidate -/

section

variable {K α : Type} [LinearOrder K]

/-- The first candidate with the least key, or the initial one when none is below it. -/
def least (init : K × α) (candidates : List (K × α)) : K × α :=
  candidates.foldl (fun best c => if c.1 < best.1 then c else best) init

theorem least_le_init (init : K × α) (candidates : List (K × α)) :
    (least init candidates).1 ≤ init.1 := by
  unfold least
  induction candidates generalizing init with
  | nil => exact le_refl _
  | cons c candidates ih =>
    rw [List.foldl_cons]
    split_ifs with hlt
    · exact le_trans (ih c) (le_of_lt hlt)
    · exact ih init

theorem least_le_of_mem (init : K × α) {candidates : List (K × α)} {c : K × α}
    (h : c ∈ candidates) : (least init candidates).1 ≤ c.1 := by
  induction candidates generalizing init with
  | nil => exact absurd h List.not_mem_nil
  | cons d candidates ih =>
    show (least (if d.1 < init.1 then d else init) candidates).1 ≤ c.1
    rcases List.mem_cons.mp h with rfl | hmem
    · split_ifs with hlt
      · exact least_le_init c candidates
      · exact le_trans (least_le_init init candidates) (le_of_not_gt hlt)
    · exact ih _ hmem

theorem least_mem (init : K × α) (candidates : List (K × α)) :
    least init candidates = init ∨
      least init candidates ∈ candidates ∧ (least init candidates).1 < init.1 := by
  induction candidates generalizing init with
  | nil => exact Or.inl rfl
  | cons c candidates ih =>
    have hcons : least init (c :: candidates) =
        least (if c.1 < init.1 then c else init) candidates := rfl
    rw [hcons]
    split_ifs with hlt
    · rcases ih c with heq | ⟨hmem, hbelow⟩
      · rw [heq]
        exact Or.inr ⟨List.mem_cons_self .., hlt⟩
      · exact Or.inr ⟨List.mem_cons_of_mem _ hmem, lt_trans hbelow hlt⟩
    · rcases ih init with heq | ⟨hmem, hbelow⟩
      · exact Or.inl heq
      · exact Or.inr ⟨List.mem_cons_of_mem _ hmem, hbelow⟩

end

/-! ### The loops -/

section

variable {V F : Type} [LinearOrder V] [Zero V] [One V] [Add V] [Sub V] [Div V]
  [Zero F] [One F] [Add F] [Sub F] [Mul F] [Div F] [LinearOrder F] {A : Arith V F}

variable (A) in
/-- The candidates that the loop of `get_impurity` meets, each with its impurity. -/
def thresholds (valueAt : Nat → CacheValue F) (fitness0 : F) :
    CacheValue F → CacheValue F → List (Nat × V) → List (F × V)
  | l, r, a :: b :: rest =>
    let l := l.add (valueAt a.1)
    let r := r.sub (valueAt a.1)
    if A.almostEqual a.2 b.2 then thresholds valueAt fitness0 l r (b :: rest)
    else
      (fitness0 + fitness l + fitness r, (a.2 + b.2) / (1 + 1)) ::
        thresholds valueAt fitness0 l r (b :: rest)
  | _, _, _ => []

omit [LinearOrder V] [Zero V] in
/-- The loop keeps the least candidate. -/
theorem impurityLoop_eq (valueAt : Nat → CacheValue F) (fitness0 : F) (l r : CacheValue F)
    (impurity : F) (value : V) (pairs : List (Nat × V)) :
    impurityLoop A valueAt fitness0 l r impurity value pairs =
      least (impurity, value) (thresholds A valueAt fitness0 l r pairs) := by
  fun_induction impurityLoop A valueAt fitness0 l r impurity value pairs with
  | case1 l r impurity value a b rest cv l' r' hclose ih =>
    rw [ih, thresholds, if_pos hclose]
  | case2 l r impurity value a b rest cv l' r' hclose fit hlt ih =>
    rw [ih, thresholds, if_neg hclose]
    unfold least
    rw [List.foldl_cons, if_pos hlt]
  | case3 l r impurity value a b rest cv l' r' hclose fit hlt ih =>
    rw [ih, thresholds, if_neg hclose]
    unfold least
    rw [List.foldl_cons, if_neg hlt]
  | case4 l r impurity value pairs hpairs =>
    rw [thresholds]
    · rfl
    · exact hpairs

omit [Zero V] in
/-- The loop over the features does the same. -/
theorem bestLoop_eq (data : List Nat) (valueAt : Nat → CacheValue F)
    (sorted : Nat → List (Nat × V)) (bestFitness : F) (best : Option (Candidate V))
    (features : List Nat) :
    bestLoop A data valueAt sorted bestFitness best features =
      (least (bestFitness, best) (features.map fun i =>
        ((getImpurity A data (sorted i) valueAt).1,
          some ⟨i, (getImpurity A data (sorted i) valueAt).2, sorted i⟩))).2 := by
  induction features generalizing bestFitness best with
  | nil => rfl
  | cons i features ih =>
    rw [bestLoop, List.map_cons]
    unfold least
    rw [List.foldl_cons]
    dsimp only
    split_ifs with hlt
    · exact ih _ _
    · exact ih _ _

end

/-! ### Sums of rationals -/

variable (valueAt : Nat → CacheValue ℚ)

theorem sums_eq (data : List Nat) :
    sums valueAt data = ⟨(data.map fun i => (valueAt i).s).sum,
      (data.map fun i => (valueAt i).ss).sum,
      (data.map fun i => (valueAt i).c).sum⟩ := by
  have hgen : ∀ acc : CacheValue ℚ, data.foldl (fun acc i => acc.add (valueAt i)) acc =
      ⟨acc.s + (data.map fun i => (valueAt i).s).sum,
        acc.ss + (data.map fun i => (valueAt i).ss).sum,
        acc.c + (data.map fun i => (valueAt i).c).sum⟩ := by
    induction data with
    | nil => simp
    | cons i data ih =>
      intro acc
      rw [List.foldl_cons, ih]
      simp [CacheValue.add, add_assoc]
  simp [sums, hgen, CacheValue.zero]

theorem sums_append (data data' : List Nat) :
    sums valueAt (data ++ data') = (sums valueAt data).add (sums valueAt data') := by
  simp [sums_eq, CacheValue.add]

theorem sums_perm {data data' : List Nat} (h : data.Perm data') :
    sums valueAt data = sums valueAt data' := by
  simp [sums_eq, (h.map _).sum_eq]

theorem add_sub_left (a b : CacheValue ℚ) : (a.add b).sub a = b := by
  simp [CacheValue.add, CacheValue.sub]

/-- **The candidates of the loop**: a threshold between neighbours, with the samples up to it on the
    left and the others on the right. -/
theorem mem_thresholds {valueAt : Nat → CacheValue ℚ} {fitness0 : ℚ} {done : List Nat}
    {pairs : List (Nat × ℚ)} {c v : ℚ} :
    (c, v) ∈ thresholds rat valueAt fitness0 (sums valueAt done)
        (sums valueAt (pairs.map Prod.fst)) pairs ↔
      ∃ before a b behind, pairs = before ++ a :: b :: behind ∧
        rat.almostEqual a.2 b.2 = false ∧ v = (a.2 + b.2) / 2 ∧
        c = fitness0 + fitness (sums valueAt (done ++ (before ++ [a]).map Prod.fst)) +
          fitness (sums valueAt ((b :: behind).map Prod.fst)) := by
  induction pairs generalizing done with
  | nil =>
    rw [thresholds]
    · simp
    · simp
  | cons a pairs ih =>
    cases pairs with
    | nil =>
      rw [thresholds]
      · constructor
        · exact fun h => absurd h List.not_mem_nil
        · rintro ⟨before, a', b, behind, heq, -⟩
          have hlen := congrArg List.length heq
          simp at hlen
          omega
      · simp
    | cons b rest =>
      have hl : (sums valueAt done).add (valueAt a.1) = sums valueAt (done ++ [a.1]) := by
        simp [sums, CacheValue.zero, CacheValue.add]
      have hr : (sums valueAt ((a :: b :: rest).map Prod.fst)).sub (valueAt a.1) =
          sums valueAt ((b :: rest).map Prod.fst) := by
        have hone : valueAt a.1 = sums valueAt [a.1] := by
          simp [sums, CacheValue.zero, CacheValue.add]
        rw [List.map_cons, ← List.singleton_append, sums_append, hone, add_sub_left]
      -- the first two are neighbours, or the neighbours stand in the rest
      have hsplit : ∀ P : List (Nat × ℚ) → Nat × ℚ → Nat × ℚ → List (Nat × ℚ) → Prop,
          (∃ before a' b' behind, a :: b :: rest = before ++ a' :: b' :: behind ∧
            P before a' b' behind) ↔
          P [] a b rest ∨ ∃ before a' b' behind, b :: rest = before ++ a' :: b' :: behind ∧
            P (a :: before) a' b' behind := by
        intro P
        constructor
        · rintro ⟨before, a', b', behind, heq, hP⟩
          cases before with
          | nil =>
            obtain ⟨rfl, rfl, rfl⟩ := heq
            exact Or.inl hP
          | cons x before =>
            rw [List.cons_append, List.cons.injEq] at heq
            obtain ⟨rfl, heq⟩ := heq
            exact Or.inr ⟨before, a', b', behind, heq, hP⟩
        · rintro (hP | ⟨before, a', b', behind, heq, hP⟩)
          · exact ⟨[], a, b, rest, rfl, hP⟩
          · exact ⟨a :: before, a', b', behind, by rw [heq]; rfl, hP⟩
      have hrest := @ih (done ++ [a.1])
      rw [hsplit, thresholds, hl, hr]
      cases hclose : rat.almostEqual a.2 b.2 with
      | true =>
        rw [if_pos rfl, hrest]
        simp
      | false =>
        rw [if_neg Bool.false_ne_true, List.mem_cons, hrest, Prod.mk.injEq]
        have htwo : (1 + 1 : ℚ) = 2 := one_add_one_eq_two
        rw [htwo]
        apply or_congr
        · constructor
          · rintro ⟨rfl, rfl⟩
            exact ⟨rfl, rfl, rfl⟩
          · rintro ⟨-, rfl, rfl⟩
            exact ⟨rfl, rfl⟩
        · simp

/-! ### What a split is judged by -/

/-- The target of a sample of the set. -/
def sampleTarget (samples : List (Data ℚ)) (i : Nat) : ℚ := (samples[i]?.map Data.target).getD 0

/-- The weight of a sample of the set. -/
def sampleWeight (samples : List (Data ℚ)) (i : Nat) : ℚ := (samples[i]?.map Data.weight).getD 0

/-- The impurity of some samples, from their targets and weights. -/
def impurity (samples : List (Data ℚ)) (set : List Nat) : ℚ :=
  let c := (set.map fun i => sampleWeight samples i).sum
  let s := (set.map fun i => sampleTarget samples i * sampleWeight samples i).sum
  let ss := (set.map fun i => sampleTarget samples i ^ 2 * sampleWeight samples i).sum
  if 1 < c then max 0 (ss - s * s / c) else 0

/-- The values of a feature at a node that are known, in order. -/
def knownValues (samples : List (Data ℚ)) (data : List Nat) (feature : Nat) : List ℚ :=
  ((data.map (sampleValue samples feature)).filter (· ≠ rat.unknown)).insertionSort (· ≤ ·)

/-- A threshold of a feature at a node: the middle of two neighbours that are not almost equal. -/
def IsThreshold (samples : List (Data ℚ)) (data : List Nat) (feature : Nat) (v : ℚ) : Prop :=
  ∃ a b, [a, b] <:+: knownValues samples data feature ∧ rat.almostEqual a b = false ∧
    v = (a + b) / 2

/-- The summed impurity of the three groups of a node. -/
def cost (samples : List (Data ℚ)) (data : List Nat) (feature : Nat) (v : ℚ) : ℚ :=
  impurity samples (data.filter fun i => sampleValue samples feature i ≠ rat.unknown ∧
      sampleValue samples feature i < v) +
    impurity samples (data.filter fun i => sampleValue samples feature i ≠ rat.unknown ∧
      v ≤ sampleValue samples feature i) +
    impurity samples (data.filter fun i => sampleValue samples feature i = rat.unknown)

/-- The numbers of a sample are those of `f32`. -/
structure Data.InRange (x : Data ℚ) : Prop where
  feature : ∀ v ∈ x.feature, rat.unknown ≤ v
  target : |x.target| ≤ 2 ^ 128
  weight : |x.weight| ≤ 2 ^ 128

theorem impurity_perm (samples : List (Data ℚ)) {set set' : List Nat} (h : set.Perm set') :
    impurity samples set = impurity samples set' := by
  unfold impurity
  rw [(h.map _).sum_eq, (h.map _).sum_eq, (h.map _).sum_eq]

/-- The cache holds the sums of each sample. -/
def TrainingCache.Holds (cache : TrainingCache ℚ ℚ) (samples : List (Data ℚ)) : Prop :=
  ∀ i < samples.length, cache.valueAt i =
    ⟨sampleTarget samples i * sampleWeight samples i,
      sampleTarget samples i * (sampleTarget samples i * sampleWeight samples i),
      sampleWeight samples i⟩

/-- The impurity from the sums in the cache. -/
theorem fitness_sums {cache : TrainingCache ℚ ℚ} {samples : List (Data ℚ)}
    (h : cache.Holds samples) {set : List Nat} (hset : ∀ i ∈ set, i < samples.length) :
    fitness (sums cache.valueAt set) = impurity samples set := by
  have hs : (set.map fun i => (cache.valueAt i).s) =
      set.map fun i => sampleTarget samples i * sampleWeight samples i :=
    List.map_congr_left fun i hi => by rw [h i (hset i hi)]
  have hss : (set.map fun i => (cache.valueAt i).ss) =
      set.map fun i => sampleTarget samples i ^ 2 * sampleWeight samples i := by
    apply List.map_congr_left
    intro i hi
    rw [h i (hset i hi)]
    ring
  have hc : (set.map fun i => (cache.valueAt i).c) = set.map fun i => sampleWeight samples i :=
    List.map_congr_left fun i hi => by rw [h i (hset i hi)]
  unfold fitness impurity
  rw [sums_eq, hs, hss, hc]
  dsimp only
  split_ifs with hone hneg
  · rw [max_eq_left (le_of_lt hneg)]
  · rw [max_eq_right (le_of_not_gt hneg)]
  · exact absurd ‹_› (lt_irrefl _)
  · rfl

/-- The impurity of samples with bounded numbers is bounded. -/
theorem impurity_le {samples : List (Data ℚ)} (h : ∀ x ∈ samples, x.InRange) (set : List Nat) :
    impurity samples set ≤ set.length * (2 ^ 128) ^ 3 := by
  have hterm : ∀ i, sampleTarget samples i ^ 2 * sampleWeight samples i ≤ (2 ^ 128) ^ 3 := by
    intro i
    unfold sampleTarget sampleWeight
    cases hx : samples[i]? with
    | none => norm_num
    | some x =>
      have hrange := h x (List.mem_of_getElem? hx)
      have htarget : x.target ^ 2 ≤ (2 ^ 128) ^ 2 := by
        rw [← sq_abs]
        exact pow_le_pow_left₀ (abs_nonneg _) hrange.target 2
      have hweight : x.weight ≤ 2 ^ 128 := le_trans (le_abs_self _) hrange.weight
      calc x.target ^ 2 * x.weight ≤ x.target ^ 2 * 2 ^ 128 :=
            mul_le_mul_of_nonneg_left hweight (sq_nonneg _)
        _ ≤ (2 ^ 128) ^ 2 * 2 ^ 128 := mul_le_mul_of_nonneg_right htarget (by positivity)
        _ = (2 ^ 128) ^ 3 := by norm_num
  have hsum : (set.map fun i => sampleTarget samples i ^ 2 * sampleWeight samples i).sum ≤
      set.length * (2 ^ 128) ^ 3 := by
    have hle := List.sum_le_card_nsmul
      (set.map fun i => sampleTarget samples i ^ 2 * sampleWeight samples i) ((2 ^ 128) ^ 3) (by
        intro y hy
        obtain ⟨i, -, rfl⟩ := List.mem_map.mp hy
        exact hterm i)
    rwa [List.length_map, nsmul_eq_mul] at hle
  have hnonneg : (0 : ℚ) ≤ set.length * (2 ^ 128) ^ 3 := by positivity
  unfold impurity
  dsimp only
  split_ifs with hone
  · apply max_le hnonneg
    have hsquare : 0 ≤ (set.map fun i => sampleTarget samples i * sampleWeight samples i).sum *
        (set.map fun i => sampleTarget samples i * sampleWeight samples i).sum /
          (set.map fun i => sampleWeight samples i).sum :=
      div_nonneg (mul_self_nonneg _) (by linarith)
    linarith
  · exact hnonneg

/-- No cost comes near the largest `f64`, from which the search starts. -/
theorem cost_lt_maxF {samples : List (Data ℚ)} (h : ∀ x ∈ samples, x.InRange)
    (hlen : samples.length < 2 ^ 64) {data : List Nat} (hdata : IsNode samples.length data)
    (feature : Nat) (v : ℚ) : cost samples data feature v < rat.maxF := by
  have hcount : data.length < 2 ^ 64 := by
    have hsub : data ⊆ List.range samples.length := fun i hi =>
      List.mem_range.mpr (hdata.lt i hi)
    have hle := (List.subperm_of_subset hdata.nodup hsub).length_le
    rw [List.length_range] at hle
    omega
  have hgroup : ∀ p : Nat → Bool, impurity samples (data.filter p) ≤ 2 ^ 64 * (2 ^ 128) ^ 3 := by
    intro p
    have hle : ((data.filter p).length : ℚ) ≤ 2 ^ 64 := by
      have hfilter := List.length_filter_le p data
      exact_mod_cast (show (data.filter p).length ≤ 2 ^ 64 by omega)
    exact le_trans (impurity_le h _) (mul_le_mul_of_nonneg_right hle (by positivity))
  unfold cost
  have h₁ := hgroup fun i => sampleValue samples feature i ≠ rat.unknown ∧
    sampleValue samples feature i < v
  have h₂ := hgroup fun i => sampleValue samples feature i ≠ rat.unknown ∧
    v ≤ sampleValue samples feature i
  have h₃ := hgroup fun i => sampleValue samples feature i = rat.unknown
  -- the two powers of the largest number are too large to be computed
  have hmax : (2 ^ 256) ^ 2 ≤ rat.maxF := by
    have hpow : (2 : ℚ) ^ 972 ≤ 2 ^ 1024 := pow_le_pow_right₀ one_le_two (by norm_num)
    have hlow : (2 : ℚ) ^ (256 * 2) ≤ 2 ^ 971 := pow_le_pow_right₀ one_le_two (by norm_num)
    rw [pow_succ] at hpow
    rw [pow_mul] at hlow
    show (2 ^ 256) ^ 2 ≤ (2 : ℚ) ^ 1024 - 2 ^ 971
    generalize (2 : ℚ) ^ 971 = low at hpow hlow ⊢
    generalize (2 : ℚ) ^ 1024 = high at hpow ⊢
    linarith
  linarith

/-! ### The samples of a node in the order of a feature -/

/-- The samples of a node with their values of a feature, in the order of the values. -/
structure IsSorted (samples : List (Data ℚ)) (data : List Nat) (feature : Nat)
    (pairs : List (Nat × ℚ)) : Prop where
  sorted : pairs.Pairwise fun a b => a.2 ≤ b.2
  value : ∀ pair ∈ pairs, pair.2 = sampleValue samples feature pair.1
  perm : (pairs.map Prod.fst).Perm data

theorem isSorted_only (sort : UnstableSort ℚ) {samples : List (Data ℚ)} {data : List Nat}
    (hdata : IsNode samples.length data) (feature : Nat) :
    IsSorted samples data feature (only data (featureOrder sort samples feature)) := by
  refine ⟨?_, fun pair hpair => ?_, map_fst_only (isOrder_run sort samples _) hdata⟩
  · exact (sort.sorted _).sublist List.filter_sublist
  · exact ((mem_featureOrder samples feature pair).mp (List.mem_filter.mp hpair).1).2

variable {samples : List (Data ℚ)} {data : List Nat} {feature : Nat} {pairs : List (Nat × ℚ)}

/-- A group of samples, by a test of the value. -/
theorem IsSorted.filter_perm (h : IsSorted samples data feature pairs) (q : ℚ → Bool) :
    (data.filter fun i => q (sampleValue samples feature i)).Perm
      ((pairs.filter fun pair => q pair.2).map Prod.fst) := by
  have hperm := (h.perm.filter fun i => q (sampleValue samples feature i)).symm
  rw [List.filter_map] at hperm
  have hcongr : pairs.filter ((fun i => q (sampleValue samples feature i)) ∘ Prod.fst) =
      pairs.filter fun pair => q pair.2 := by
    apply List.filter_congr
    intro pair hpair
    rw [Function.comp_apply, ← h.value pair hpair]
  rwa [hcongr] at hperm

theorem le_sampleValue (hrange : ∀ x ∈ samples, x.InRange) (i : Nat) :
    rat.unknown ≤ sampleValue samples feature i := by
  have hzero : rat.unknown ≤ 0 := by
    unfold rat
    norm_num
  unfold sampleValue Data.value
  cases hx : samples[i]? with
  | none => exact hzero
  | some x =>
    rw [Option.map_some, Option.getD_some, List.getD_eq_getElem?_getD]
    cases hv : x.feature[feature]? with
    | none => exact hzero
    | some v => exact (hrange x (List.mem_of_getElem? hx)).feature v (List.mem_of_getElem? hv)

/-- The pairs without a value. -/
def unknownPairs (pairs : List (Nat × ℚ)) : List (Nat × ℚ) :=
  pairs.takeWhile fun pair => pair.2 = rat.unknown

/-- The pairs with a value. -/
def knownPairs (pairs : List (Nat × ℚ)) : List (Nat × ℚ) :=
  pairs.drop (unknownPairs pairs).length

theorem knownPairs_eq (pairs : List (Nat × ℚ)) :
    knownPairs pairs = pairs.dropWhile fun pair => pair.2 = rat.unknown := by
  unfold knownPairs unknownPairs
  induction pairs with
  | nil => rfl
  | cons a pairs ih =>
    rw [List.takeWhile_cons, List.dropWhile_cons]
    split_ifs
    · exact ih
    · rfl

theorem unknownPairs_append (pairs : List (Nat × ℚ)) :
    unknownPairs pairs ++ knownPairs pairs = pairs := by
  rw [knownPairs_eq]
  exact List.takeWhile_append_dropWhile

/-- Behind the unknown values, which are the least, all values are known. -/
theorem ne_unknown_of_mem (hsorted : pairs.Pairwise fun a b => a.2 ≤ b.2)
    (hle : ∀ pair ∈ pairs, rat.unknown ≤ pair.2) {pair : Nat × ℚ}
    (h : pair ∈ knownPairs pairs) : pair.2 ≠ rat.unknown := by
  rw [knownPairs_eq] at h
  induction pairs with
  | nil => exact absurd h List.not_mem_nil
  | cons a pairs ih =>
    obtain ⟨hfirst, hrest⟩ := List.pairwise_cons.mp hsorted
    rw [List.dropWhile_cons] at h
    split_ifs at h with ha
    · exact ih hrest (fun p hp => hle p (List.mem_cons_of_mem _ hp)) h
    · have hlt : rat.unknown < a.2 :=
        lt_of_le_of_ne (hle a (List.mem_cons_self ..)) fun heq => ha (decide_eq_true heq.symm)
      have hage : a.2 ≤ pair.2 := by
        rcases List.mem_cons.mp h with rfl | hmem
        · exact le_refl _
        · exact hfirst pair hmem
      exact ne_of_gt (lt_of_lt_of_le hlt hage)

theorem eq_unknown_of_mem {pair : Nat × ℚ} (h : pair ∈ unknownPairs pairs) :
    pair.2 = rat.unknown := by
  have hpair := List.mem_takeWhile_imp h
  exact of_decide_eq_true hpair

/-- The known values in order are those of the pairs. -/
theorem IsSorted.knownValues_eq (h : IsSorted samples data feature pairs)
    (hrange : ∀ x ∈ samples, x.InRange) :
    knownValues samples data feature = (knownPairs pairs).map Prod.snd := by
  have hle : ∀ pair ∈ pairs, rat.unknown ≤ pair.2 := by
    intro pair hpair
    rw [h.value pair hpair]
    exact le_sampleValue hrange _
  -- both are in order, and hold the same values
  have hvalues : (data.map (sampleValue samples feature)).Perm (pairs.map Prod.snd) := by
    have hmap := (h.perm.map (sampleValue samples feature)).symm
    rw [List.map_map] at hmap
    have hcongr : pairs.map (sampleValue samples feature ∘ Prod.fst) = pairs.map Prod.snd :=
      List.map_congr_left fun pair hpair => (h.value pair hpair).symm
    rwa [hcongr] at hmap
  have hfilter : (pairs.map Prod.snd).filter (· ≠ rat.unknown) =
      (knownPairs pairs).map Prod.snd := by
    conv_lhs => rw [← unknownPairs_append pairs, List.map_append, List.filter_append]
    have hunknown : ((unknownPairs pairs).map Prod.snd).filter (· ≠ rat.unknown) = [] := by
      rw [List.filter_eq_nil_iff]
      intro v hv
      obtain ⟨pair, hpair, rfl⟩ := List.mem_map.mp hv
      simp [eq_unknown_of_mem hpair]
    have hknown : ((knownPairs pairs).map Prod.snd).filter (· ≠ rat.unknown) =
        (knownPairs pairs).map Prod.snd := by
      rw [List.filter_eq_self]
      intro v hv
      obtain ⟨pair, hpair, rfl⟩ := List.mem_map.mp hv
      simp [ne_unknown_of_mem h.sorted hle hpair]
    rw [hunknown, hknown, List.nil_append]
  have hperm := (List.perm_insertionSort (· ≤ ·)
    ((data.map (sampleValue samples feature)).filter (· ≠ rat.unknown))).trans
      (hvalues.filter _)
  rw [hfilter] at hperm
  have hsorted : ((knownPairs pairs).map Prod.snd).Pairwise (· ≤ ·) := by
    rw [List.pairwise_map]
    exact h.sorted.sublist (List.drop_sublist _ _)
  exact hperm.eq_of_pairwise' (List.pairwise_insertionSort _ _) hsorted

/-! ### The candidates of a feature -/

theorem almostEqual_self (a : ℚ) : rat.almostEqual a a = true := by
  unfold Arith.almostEqual rat
  norm_num

/-- The middle of two neighbours that are not almost equal lies strictly between them. -/
theorem lt_middle {a b : ℚ} (hle : a ≤ b) (h : rat.almostEqual a b = false) :
    a < (a + b) / 2 ∧ (a + b) / 2 < b := by
  have hlt : a < b := by
    rcases lt_or_eq_of_le hle with hlt | heq
    · exact hlt
    · rw [heq, almostEqual_self] at h
      exact absurd h (by simp)
  constructor
  · linarith
  · linarith

/-- The impurity of a group of samples that stand together. -/
theorem IsSorted.impurity_group {cache : TrainingCache ℚ ℚ} (hholds : cache.Holds samples)
    (hdata : IsNode samples.length data) (h : IsSorted samples data feature pairs) (q : ℚ → Bool)
    (front group back : List (Nat × ℚ)) (hsplit : pairs = front ++ group ++ back)
    (hgroup : ∀ pair ∈ group, q pair.2 = true) (hfront : ∀ pair ∈ front, q pair.2 = false)
    (hback : ∀ pair ∈ back, q pair.2 = false) :
    impurity samples (data.filter fun i => q (sampleValue samples feature i)) =
      fitness (sums cache.valueAt (group.map Prod.fst)) := by
  have hfilter : (pairs.filter fun pair => q pair.2) = group := by
    have hnil : ∀ l : List (Nat × ℚ), (∀ pair ∈ l, q pair.2 = false) →
        (l.filter fun pair => q pair.2) = [] := by
      intro l hl
      rw [List.filter_eq_nil_iff]
      intro pair hpair
      rw [hl pair hpair]
      exact Bool.false_ne_true
    simp [hsplit, hnil front hfront, hnil back hback, List.filter_eq_self.mpr hgroup]
  have hperm := h.filter_perm q
  rw [hfilter] at hperm
  rw [impurity_perm samples hperm, fitness_sums hholds]
  intro i hi
  obtain ⟨pair, hpair, rfl⟩ := List.mem_map.mp hi
  have hmem : pair ∈ pairs := by
    rw [hsplit]
    exact List.mem_append_left _ (List.mem_append_right _ hpair)
  exact hdata.lt _ (h.perm.mem_iff.mp (List.mem_map_of_mem hmem))

/-- **The three groups at a threshold** are the unknown values, the pairs up to the first neighbour
    and those from the second one on. -/
theorem cost_eq {cache : TrainingCache ℚ ℚ} (hholds : cache.Holds samples)
    (hrange : ∀ x ∈ samples, x.InRange) (hdata : IsNode samples.length data)
    (h : IsSorted samples data feature pairs) {before behind : List (Nat × ℚ)} {a b : Nat × ℚ}
    (hpairs : knownPairs pairs = before ++ a :: b :: behind)
    (hne : rat.almostEqual a.2 b.2 = false) :
    cost samples data feature ((a.2 + b.2) / 2) =
      fitness (sums cache.valueAt ((unknownPairs pairs).map Prod.fst)) +
        fitness (sums cache.valueAt ((before ++ [a]).map Prod.fst)) +
        fitness (sums cache.valueAt ((b :: behind).map Prod.fst)) := by
  have hle : ∀ pair ∈ pairs, rat.unknown ≤ pair.2 := by
    intro pair hpair
    rw [h.value pair hpair]
    exact le_sampleValue hrange _
  -- the pairs are three stretches: the unknown values, those up to `a`, those from `b` on
  have hsplit : pairs = unknownPairs pairs ++ ((before ++ [a]) ++ (b :: behind)) := by
    conv_lhs => rw [← unknownPairs_append pairs, hpairs]
    simp
  have hsorted : (before ++ a :: b :: behind).Pairwise fun a b => a.2 ≤ b.2 := by
    rw [← hpairs]
    exact h.sorted.sublist (List.drop_sublist _ _)
  -- the threshold lies between `a` and `b`, so it cuts the known stretch there
  obtain ⟨hmid, hmid'⟩ := lt_middle
    ((List.pairwise_cons.mp (List.pairwise_append.mp hsorted).2.1).1 b (List.mem_cons_self ..)) hne
  have hknown : ∀ pair ∈ before ++ a :: b :: behind, pair.2 ≠ rat.unknown := fun pair hpair =>
    ne_unknown_of_mem h.sorted hle (hpairs ▸ hpair)
  have hleft : ∀ pair ∈ before ++ [a], pair.2 < (a.2 + b.2) / 2 := by
    intro pair hpair
    rcases List.mem_append.mp hpair with hmem | hmem
    · have hpa := (List.pairwise_append.mp hsorted).2.2 pair hmem a (List.mem_cons_self ..)
      exact lt_of_le_of_lt hpa hmid
    · rw [List.mem_singleton.mp hmem]
      exact hmid
  have hright : ∀ pair ∈ b :: behind, (a.2 + b.2) / 2 ≤ pair.2 := by
    intro pair hpair
    have hrest := (List.pairwise_cons.mp (List.pairwise_append.mp hsorted).2.1).2
    rcases List.mem_cons.mp hpair with rfl | hmem
    · exact le_of_lt hmid'
    · exact le_trans (le_of_lt hmid') ((List.pairwise_cons.mp hrest).1 pair hmem)
  have hunknown : ∀ pair ∈ unknownPairs pairs, pair.2 = rat.unknown := fun pair hpair =>
    eq_unknown_of_mem hpair
  have hknownl : ∀ pair ∈ before ++ [a], pair.2 ≠ rat.unknown := fun pair hpair =>
    hknown pair (by simp only [List.mem_append, List.mem_cons, List.not_mem_nil] at hpair ⊢; tauto)
  have hknownr : ∀ pair ∈ b :: behind, pair.2 ≠ rat.unknown := fun pair hpair =>
    hknown pair (List.mem_append_right _ (List.mem_cons_of_mem _ hpair))
  -- each group of the split is one stretch, and the other two are outside it
  have hcostl := h.impurity_group hholds hdata
    (fun v => v ≠ rat.unknown ∧ v < (a.2 + b.2) / 2)
    (unknownPairs pairs) (before ++ [a]) (b :: behind)
    (by rw [List.append_assoc]; exact hsplit)
    (fun pair hpair => by simp [hknownl pair hpair, hleft pair hpair])
    (fun pair hpair => by simp [hunknown pair hpair])
    (fun pair hpair => by simp [hright pair hpair])
  have hcostr := h.impurity_group hholds hdata
    (fun v => v ≠ rat.unknown ∧ (a.2 + b.2) / 2 ≤ v)
    (unknownPairs pairs ++ (before ++ [a])) (b :: behind) []
    (by rw [List.append_nil, List.append_assoc]; exact hsplit)
    (fun pair hpair => by simp [hknownr pair hpair, hright pair hpair])
    (fun pair hpair => by
      rcases List.mem_append.mp hpair with hmem | hmem
      · simp [hunknown pair hmem]
      · simp [hleft pair hmem])
    (by simp)
  have hcostu := h.impurity_group hholds hdata (fun v => v = rat.unknown)
    [] (unknownPairs pairs) ((before ++ [a]) ++ (b :: behind))
    (by exact hsplit)
    (fun pair hpair => by simp [hunknown pair hpair])
    (by simp)
    (fun pair hpair => by
      rcases List.mem_append.mp hpair with hmem | hmem
      · simp [hknownl pair hmem]
      · simp [hknownr pair hmem])
  unfold cost
  rw [hcostl, hcostr, hcostu]
  ring

/-- The candidates of a feature, as `get_impurity` meets them. -/
def candidates (valueAt : Nat → CacheValue ℚ) (pairs : List (Nat × ℚ)) : List (ℚ × ℚ) :=
  thresholds rat valueAt (fitness (sums valueAt ((unknownPairs pairs).map Prod.fst)))
    (sums valueAt []) (sums valueAt ((knownPairs pairs).map Prod.fst)) (knownPairs pairs)

/-- `get_impurity` takes the least candidate. -/
theorem getImpurity_eq (h : IsSorted samples data feature pairs) :
    getImpurity rat data pairs valueAt =
      least (rat.maxF, rat.unknown) (candidates valueAt pairs) := by
  have hsums : (sums valueAt data).sub (sums valueAt ((unknownPairs pairs).map Prod.fst)) =
      sums valueAt ((knownPairs pairs).map Prod.fst) := by
    have hmap : pairs.map Prod.fst =
        (unknownPairs pairs).map Prod.fst ++ (knownPairs pairs).map Prod.fst := by
      rw [← List.map_append, unknownPairs_append]
    rw [← sums_perm valueAt h.perm, hmap, sums_append, add_sub_left]
  unfold getImpurity
  dsimp only
  split_ifs with hall
  · have hnil : knownPairs pairs = [] := List.drop_eq_nil_of_le (le_of_eq hall.symm)
    unfold candidates
    rw [hnil, thresholds]
    · rfl
    · simp
  · rw [impurityLoop_eq]
    unfold candidates
    rw [← hsums]
    rfl

/-- **The candidates are the thresholds of the feature, with their costs.** -/
theorem mem_candidates {cache : TrainingCache ℚ ℚ} (hholds : cache.Holds samples)
    (hrange : ∀ x ∈ samples, x.InRange) (hdata : IsNode samples.length data)
    (h : IsSorted samples data feature pairs) {c v : ℚ} :
    (c, v) ∈ candidates cache.valueAt pairs ↔
      IsThreshold samples data feature v ∧ c = cost samples data feature v := by
  unfold candidates IsThreshold
  rw [mem_thresholds, h.knownValues_eq hrange]
  constructor
  · rintro ⟨before, a, b, behind, hpairs, hne, rfl, rfl⟩
    refine ⟨⟨a.2, b.2, ?_, hne, rfl⟩, ?_⟩
    · refine ⟨before.map Prod.snd, behind.map Prod.snd, ?_⟩
      simp [hpairs]
    · rw [cost_eq hholds hrange hdata h hpairs hne, List.nil_append]
  · rintro ⟨⟨x, y, ⟨front, back, hinfix⟩, hne, rfl⟩, rfl⟩
    rw [List.append_assoc] at hinfix
    obtain ⟨before, rest, hpairs, rfl, hrest⟩ := List.map_eq_append_iff.mp hinfix.symm
    obtain ⟨two, behind, rfl, htwo, rfl⟩ := List.map_eq_append_iff.mp hrest
    obtain ⟨a, two, rfl, rfl, hone⟩ := List.map_eq_cons_iff.mp htwo
    obtain ⟨b, nothing, rfl, rfl, hnil⟩ := List.map_eq_cons_iff.mp hone
    obtain rfl := List.map_eq_nil_iff.mp hnil
    have hpairs' : knownPairs pairs = before ++ a :: b :: behind := hpairs
    refine ⟨before, a, b, behind, hpairs', hne, rfl, ?_⟩
    rw [cost_eq hholds hrange hdata h hpairs' hne, List.nil_append]

/-- **The best threshold of a feature.** -/
theorem getImpurity_spec {cache : TrainingCache ℚ ℚ} (hholds : cache.Holds samples)
    (hrange : ∀ x ∈ samples, x.InRange) (hlen : samples.length < 2 ^ 64)
    (hdata : IsNode samples.length data) (h : IsSorted samples data feature pairs) :
    let best := getImpurity rat data pairs cache.valueAt
    (∀ v, IsThreshold samples data feature v →
      best.1 ≤ cost samples data feature v ∧ best.1 < rat.maxF) ∧
    (best.1 < rat.maxF →
      IsThreshold samples data feature best.2 ∧ best.1 = cost samples data feature best.2) := by
  intro best
  have hbest : best = least (rat.maxF, rat.unknown) (candidates cache.valueAt pairs) :=
    getImpurity_eq cache.valueAt h
  constructor
  · intro v hv
    have hmem := (mem_candidates hholds hrange hdata h).mpr ⟨hv, rfl⟩
    have hle : best.1 ≤ cost samples data feature v := by
      rw [hbest]
      exact least_le_of_mem _ hmem
    exact ⟨hle, lt_of_le_of_lt hle (cost_lt_maxF hrange hlen hdata feature v)⟩
  · intro hlt
    rcases least_mem (rat.maxF, rat.unknown) (candidates cache.valueAt pairs) with
      hinit | ⟨hmem, -⟩
    · rw [hbest, hinit] at hlt
      exact absurd hlt (lt_irrefl _)
    · rw [← hbest] at hmem
      exact (mem_candidates hholds hrange hdata h).mp hmem

/-! ### The nodes of the recursion -/

/-- What holds where `split` is called: the caches serve for the samples of the node. -/
structure AtNode (sort : UnstableSort ℚ) (samples : List (Data ℚ)) (loss : Loss)
    (cache : TrainingCache ℚ ℚ) (sub : SubCache ℚ) (data : List Nat) : Prop where
  node : IsNode samples.length data
  prepared : cache.Prepared sort samples loss
  holds : cache.Holds samples
  fits : sub.Fits sort samples loss cache data

/-- The weights are those of the samples. -/
def TrainingCache.Weighs (cache : TrainingCache ℚ ℚ) (samples : List (Data ℚ)) : Prop :=
  cache.cacheValue.map CacheValue.c = samples.map Data.weight

theorem weighs_getCache (sort : UnstableSort ℚ) (featureSize : Nat) (samples : List (Data ℚ))
    (level : Nat) : (TrainingCache.getCache rat sort featureSize samples level).Weighs
      samples := by
  simp [TrainingCache.Weighs, TrainingCache.getCache, rat]

theorem holds_initOneIteration {sort : UnstableSort ℚ} {cache : TrainingCache ℚ ℚ}
    (h : cache.Weighs samples) (loss : Loss) :
    (cache.initOneIteration rat sort samples loss).Holds samples := by
  intro i hi
  have hx : samples[i]? = some samples[i] := List.getElem?_eq_getElem hi
  obtain ⟨cv, hcv, hc⟩ : ∃ cv, cache.cacheValue[i]? = some cv ∧ cv.c = samples[i].weight := by
    have hi' := congrArg (fun l => l[i]?) h
    simp only [List.getElem?_map, hx, Option.map_some] at hi'
    exact Option.map_eq_some_iff.mp hi'
  simp [TrainingCache.valueAt, TrainingCache.initOneIteration, sampleTarget, sampleWeight,
    List.getElem?_zipWith, hcv, hx, rat, hc]

/-- The root of a tree. -/
theorem atNode_root {sort : UnstableSort ℚ} {cache : TrainingCache ℚ ℚ}
    (hbuilt : cache.Built sort samples) (hweighs : cache.Weighs samples) (loss : Loss)
    (hdata : IsNode samples.length data) :
    AtNode sort samples loss (cache.initOneIteration rat sort samples loss)
      (SubCache.getCacheFromTrainingCache sort
        (cache.initOneIteration rat sort samples loss) samples loss) data := by
  have hprepared := prepared_initOneIteration rat hbuilt loss
  exact ⟨hdata, hprepared, holds_initOneIteration hweighs loss, fits_root hprepared data⟩

/-! ### The result of `split` -/

/-- There are samples on both sides of a threshold. -/
theorem exists_of_isThreshold {v : ℚ} (h : IsThreshold samples data feature v) :
    (∃ i ∈ data, sampleValue samples feature i ≠ rat.unknown ∧
        sampleValue samples feature i < v) ∧
      ∃ i ∈ data, sampleValue samples feature i ≠ rat.unknown ∧
        ¬sampleValue samples feature i < v := by
  obtain ⟨a, b, hinfix, hne, rfl⟩ := h
  have hsorted : (knownValues samples data feature).Pairwise (· ≤ ·) :=
    List.pairwise_insertionSort _ _
  have hle : a ≤ b :=
    (List.pairwise_cons.mp (hsorted.sublist hinfix.sublist)).1 b (List.mem_cons_self ..)
  obtain ⟨hmid, hmid'⟩ := lt_middle hle hne
  have hmem : ∀ w ∈ [a, b], ∃ i ∈ data, sampleValue samples feature i = w ∧
      sampleValue samples feature i ≠ rat.unknown := by
    intro w hw
    have hknown : w ∈ knownValues samples data feature := hinfix.sublist.subset hw
    unfold knownValues at hknown
    rw [List.mem_insertionSort] at hknown
    obtain ⟨hvalue, hunknown⟩ := List.mem_filter.mp hknown
    obtain ⟨i, hi, rfl⟩ := List.mem_map.mp hvalue
    exact ⟨i, hi, rfl, of_decide_eq_true hunknown⟩
  obtain ⟨i, hi, hia, hiu⟩ := hmem a (List.mem_cons_self ..)
  obtain ⟨j, hj, hjb, hju⟩ := hmem b (List.mem_cons_of_mem _ (List.mem_cons_self ..))
  refine ⟨⟨i, hi, hiu, ?_⟩, j, hj, hju, ?_⟩
  · rw [hia]
    exact hmid
  · rw [hjb]
    exact not_lt.mpr (le_of_lt hmid')

/-- The groups of a cut are those of its cost. -/
theorem IsCut.impurity_eq {featureSize : Nat} {cut : Cut ℚ}
    (h : IsCut rat samples featureSize data cut) (hdata : data.Nodup) :
    impurity samples cut.left + impurity samples cut.right + impurity samples cut.unknown =
      cost samples data cut.featureIndex cut.featureValue := by
  have hgroup : ∀ (set : List Nat) (p : Nat → Bool), set.Nodup →
      (∀ i, i ∈ set ↔ i ∈ data ∧ p i = true) →
      impurity samples set = impurity samples (data.filter p) := by
    intro set p hnodup hmem
    apply impurity_perm
    rw [List.perm_ext_iff_of_nodup hnodup (hdata.filter p)]
    intro i
    rw [hmem i, List.mem_filter]
  have hleft := hgroup cut.left (fun i =>
    sampleValue samples cut.featureIndex i ≠ rat.unknown ∧
      sampleValue samples cut.featureIndex i < cut.featureValue) h.left_nodup
    fun i => (h.left i).trans (by simp)
  have hright := hgroup cut.right (fun i =>
    sampleValue samples cut.featureIndex i ≠ rat.unknown ∧
      cut.featureValue ≤ sampleValue samples cut.featureIndex i) h.right_nodup
    fun i => (h.right i).trans (by simp)
  have hunknown := hgroup cut.unknown (fun i =>
    sampleValue samples cut.featureIndex i = rat.unknown) h.unknown_nodup
    fun i => (h.unknown i).trans (by simp)
  simp [cost, hleft, hright, hunknown]

/-- The groups of a cut are all samples of the node. -/
theorem IsCut.partition {featureSize : Nat} {cut : Cut ℚ}
    (h : IsCut rat samples featureSize data cut) (hdata : data.Nodup) :
    (cut.left ++ cut.right ++ cut.unknown).Perm data := by
  have hnodup : (cut.left ++ cut.right ++ cut.unknown).Nodup := by
    rw [List.nodup_append', List.nodup_append']
    refine ⟨⟨h.left_nodup, h.right_nodup, fun i hl hr => h.not_mem_left hr hl⟩, h.unknown_nodup, ?_⟩
    intro i hi hu
    have hvalue := ((h.unknown i).mp hu).2
    rcases List.mem_append.mp hi with hl | hr
    · exact ((h.left i).mp hl).2.1 hvalue
    · exact ((h.right i).mp hr).2.1 hvalue
  rw [List.perm_ext_iff_of_nodup hnodup hdata]
  intro i
  rw [List.mem_append, List.mem_append, h.left, h.right, h.unknown]
  tauto

section

variable {R : Type} {sort : UnstableSort ℚ} {shuffler : Shuffler R} {loss : Loss}
  {cache : TrainingCache ℚ ℚ} {sub : SubCache ℚ} {featureSize : Nat} {ratio : ℚ}

variable (featureSize) in
/-- The candidate that the loop over the features ends with, or none. -/
theorem bestLoop_spec (h : AtNode sort samples loss cache sub data)
    (hrange : ∀ x ∈ samples, x.InRange) (hlen : samples.length < 2 ^ 64) :
    match bestLoop rat data cache.valueAt (fun i => only data (featureOrder sort samples i))
      rat.maxF none (List.range featureSize) with
    | none => ∀ f < featureSize, ∀ v, ¬IsThreshold samples data f v
    | some best => best.index < featureSize ∧
      best.sorted = only data (featureOrder sort samples best.index) ∧
      IsThreshold samples data best.index best.value ∧
      ∀ f < featureSize, ∀ v, IsThreshold samples data f v →
        cost samples data best.index best.value ≤ cost samples data f v := by
  have hspec := fun f => getImpurity_spec h.holds hrange hlen h.node (isSorted_only sort h.node f)
  rw [bestLoop_eq]
  generalize hentries : (List.range featureSize).map (fun i =>
    ((getImpurity rat data (only data (featureOrder sort samples i)) cache.valueAt).1,
      some (⟨i, (getImpurity rat data (only data (featureOrder sort samples i))
        cache.valueAt).2, only data (featureOrder sort samples i)⟩ : Candidate ℚ))) = entries
  have hmin : ∀ f < featureSize, (least (rat.maxF, none) entries).1 ≤
      (getImpurity rat data (only data (featureOrder sort samples f)) cache.valueAt).1 := by
    intro f hf
    apply least_le_of_mem (rat.maxF, none)
      (c := ((getImpurity rat data (only data (featureOrder sort samples f)) cache.valueAt).1,
        some (⟨f, (getImpurity rat data (only data (featureOrder sort samples f))
          cache.valueAt).2, only data (featureOrder sort samples f)⟩ : Candidate ℚ)))
    rw [← hentries]
    exact List.mem_map.mpr ⟨f, List.mem_range.mpr hf, rfl⟩
  rcases least_mem (rat.maxF, none) entries with hinit | ⟨hmem, hbelow⟩
  · rw [hinit]
    intro f hf v hv
    have hle := hmin f hf
    rw [hinit] at hle
    exact absurd (lt_of_lt_of_le ((hspec f).1 v hv).2 hle) (lt_irrefl _)
  · rw [← hentries] at hmem
    obtain ⟨i, hi, hentry⟩ := List.mem_map.mp hmem
    rw [hentries] at hentry
    rw [← hentry] at hbelow hmin ⊢
    obtain ⟨hthreshold, hcost⟩ := (hspec i).2 hbelow
    refine ⟨List.mem_range.mp hi, rfl, hthreshold, fun f hf v hv => ?_⟩
    calc cost samples data i _ = _ := hcost.symm
      _ ≤ _ := hmin f hf
      _ ≤ cost samples data f v := ((hspec f).1 v hv).1

variable (shuffler) in
/-- `split` where all features are looked at. -/
theorem split_eq (h : AtNode sort samples loss cache sub data)
    (hsize : featureSize = cache.featureSize) (hratio : 1 ≤ ratio) (g : R) :
    split rat shuffler data featureSize ratio cache sub g =
      match bestLoop rat data cache.valueAt
        (fun i => only data (featureOrder sort samples i)) rat.maxF none
        (List.range featureSize) with
      | none => (none, g)
      | some best =>
        if 2 ≤ [(best.cut rat).left, (best.cut rat).right,
          (best.cut rat).unknown].countP List.isEmpty then (none, g)
        else (some (best.cut rat), g) := by
  unfold split
  rw [splitBy_congr fun f hf => sortWithBoolVec_fits h.prepared h.fits h.node (by omega)]
  unfold splitBy chooseFeatures
  rw [if_neg (not_lt.mpr hratio)]
  dsimp only
  cases bestLoop rat data cache.valueAt
    (fun i => only data (featureOrder sort samples i)) rat.maxF none
    (List.range featureSize) with
  | none => rfl
  | some best => rfl

/-- The children of a node. In between the predictions of the leaves on the left are written. -/
theorem AtNode.children (h : AtNode sort samples loss cache sub data)
    (hsize : featureSize = cache.featureSize) {g g' : R} {cut : Cut ℚ}
    (hcut : split rat shuffler data featureSize ratio cache sub g = (some cut, g'))
    (preds : List ℚ) :
    AtNode sort samples loss cache (sub.splitCache cut.left cut.right cache).1 cut.left ∧
      AtNode sort samples loss { cache with preds := preds }
        (sub.splitCache cut.left cut.right cache).2 cut.right := by
  unfold split at hcut
  rw [splitBy_congr fun f hf => sortWithBoolVec_fits h.prepared h.fits h.node (by omega)] at hcut
  have hiscut := isCut_splitBy h.node hcut
  obtain ⟨hleft, hright⟩ := fits_splitCache h.prepared h.fits (hiscut.isNode_left h.node)
    (hiscut.isNode_right h.node) (fun i hi => ((hiscut.left i).mp hi).1)
    (fun i hi => ⟨((hiscut.right i).mp hi).1, hiscut.not_mem_left hi⟩)
  exact ⟨⟨hiscut.isNode_left h.node, h.prepared, h.holds, hleft⟩,
    ⟨hiscut.isNode_right h.node, prepared_preds h.prepared preds, h.holds, fits_preds hright preds⟩⟩

variable (shuffler) in
/-- **The best split.** There is none exactly if no feature has two neighbours that are not almost
    equal. Otherwise the three groups are all samples of the node, those on the left and on the right
    are not empty, and no threshold of any feature has a smaller impurity. -/
theorem split_optimal (h : AtNode sort samples loss cache sub data)
    (hrange : ∀ x ∈ samples, x.InRange) (hlen : samples.length < 2 ^ 64)
    (hsize : featureSize = cache.featureSize) (hratio : 1 ≤ ratio) (g : R) :
    ((split rat shuffler data featureSize ratio cache sub g).1 = none ↔
      ∀ f < featureSize, ∀ v, ¬IsThreshold samples data f v) ∧
    ∀ cut, (split rat shuffler data featureSize ratio cache sub g).1 = some cut →
      (cut.left ++ cut.right ++ cut.unknown).Perm data ∧ cut.left ≠ [] ∧ cut.right ≠ [] ∧
      cut.featureIndex < featureSize ∧
      IsThreshold samples data cut.featureIndex cut.featureValue ∧
      ∀ f < featureSize, ∀ v, IsThreshold samples data f v →
        impurity samples cut.left + impurity samples cut.right + impurity samples cut.unknown ≤
          cost samples data f v := by
  have hspec := bestLoop_spec featureSize h hrange hlen
  have hsplit := split_eq shuffler h hsize hratio g
  cases hbest : bestLoop rat data cache.valueAt
      (fun i => only data (featureOrder sort samples i)) rat.maxF none
      (List.range featureSize) with
  | none =>
    rw [hbest] at hspec hsplit
    rw [hsplit]
    exact ⟨iff_of_true rfl hspec, fun cut hcut => absurd hcut (by simp)⟩
  | some best =>
    rw [hbest] at hspec hsplit
    dsimp only at hspec hsplit
    obtain ⟨hindex, hsorted, hthreshold, hmin⟩ := hspec
    obtain ⟨⟨i, hi, hiu, hil⟩, j, hj, hju, hjr⟩ := exists_of_isThreshold hthreshold
    have hleft : (best.cut rat).left ≠ [] := by
      apply List.ne_nil_of_mem (a := i)
      exact (mem_cut_left h.node hsorted i).mpr ⟨hi, hiu, hil⟩
    have hright : (best.cut rat).right ≠ [] := by
      apply List.ne_nil_of_mem (a := j)
      exact (mem_cut_right h.node hsorted j).mpr ⟨hj, hju, hjr⟩
    have hcount : ¬2 ≤ [(best.cut rat).left, (best.cut rat).right,
        (best.cut rat).unknown].countP List.isEmpty := by
      rw [List.countP_cons_of_neg (by simpa using hleft),
        List.countP_cons_of_neg (by simpa using hright)]
      have hle := List.countP_le_length (p := List.isEmpty) (l := [(best.cut rat).unknown])
      rw [List.length_singleton] at hle
      omega
    rw [if_neg hcount] at hsplit
    rw [hsplit]
    refine ⟨iff_of_false (by simp) fun hnone => hnone best.index hindex best.value hthreshold, ?_⟩
    intro cut hcut
    obtain rfl : best.cut rat = cut := Option.some.inj hcut
    have hiscut := isCut_cut h.node hindex hsorted (lt_of_not_ge hcount)
    refine ⟨hiscut.partition h.node.nodup, hleft, hright, hindex, hthreshold, fun f hf v hv => ?_⟩
    rw [hiscut.impurity_eq h.node.nodup]
    exact hmin f hf v hv

end

/-- The cache of `threeSamples` in an iteration. -/
def threeCache : TrainingCache ℚ ℚ :=
  (TrainingCache.getCache rat UnstableSort.stable 1 threeSamples.samples 2).initOneIteration
    rat UnstableSort.stable threeSamples.samples .squaredError

/-- The first of the three samples is cut off from the other two. -/
theorem split_optimal_three :
    (split rat Shuffler.still [0, 1, 2] 1 1 threeCache
      (SubCache.getCacheFromTrainingCache UnstableSort.stable threeCache threeSamples.samples
        .squaredError) ()).1 = some ⟨[0], [1, 2], [], 0, 3 / 2⟩ ∧
    ∀ f < 1, ∀ v, IsThreshold threeSamples.samples [0, 1, 2] f v →
      impurity threeSamples.samples [0] + impurity threeSamples.samples [1, 2] +
        impurity threeSamples.samples [] ≤ cost threeSamples.samples [0, 1, 2] f v := by
  have hnode : AtNode UnstableSort.stable threeSamples.samples .squaredError threeCache
      (SubCache.getCacheFromTrainingCache UnstableSort.stable threeCache threeSamples.samples
        .squaredError) [0, 1, 2] :=
    atNode_root (built_getCache UnstableSort.stable rat threeSamples.samples 1 2)
      (weighs_getCache UnstableSort.stable 1 threeSamples.samples 2) .squaredError
      ⟨by decide, by decide⟩
  have hrange : ∀ x ∈ threeSamples.samples, x.InRange := by
    have hall : ∀ x ∈ threeSamples.samples, (∀ v ∈ x.feature, rat.unknown ≤ v) ∧
        |x.target| ≤ 2 ^ 128 ∧ |x.weight| ≤ 2 ^ 128 := by decide +kernel
    exact fun x hx => ⟨(hall x hx).1, (hall x hx).2.1, (hall x hx).2.2⟩
  have hsplit : (split rat Shuffler.still [0, 1, 2] 1 1 threeCache
      (SubCache.getCacheFromTrainingCache UnstableSort.stable threeCache threeSamples.samples
        .squaredError) ()).1 = some ⟨[0], [1, 2], [], 0, 3 / 2⟩ := by decide +kernel
  have hbest := (split_optimal Shuffler.still hnode hrange (by decide) rfl (le_refl 1) ()).2 _
    hsplit
  exact ⟨hsplit, hbest.2.2.2.2.2⟩

end TeaclaveCrates.Gbdt
