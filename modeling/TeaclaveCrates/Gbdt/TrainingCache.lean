import Mathlib.Data.List.Perm.Basic
import TeaclaveCrates.Gbdt.Data

namespace TeaclaveCrates.Gbdt

/-!
# The training cache

`TrainingCache` holds the samples of the training set in the order of each feature. The samples of a
node are needed in that order too, and the three optimisation levels get them in different ways: by
a filter over the whole set, or from a `SubCache` that is split together with the node.

* `TrainingCache`, `SubCache` — the two caches, and what is done with them.
* `Prepared` — the orders of the whole set, for any level.
* `Fits` — what a `SubCache` holds at a node.
* `sortWithBoolVec_fits`, `sortWithCache_fits` — the samples of a node in order.
* `fits_root`, `fits_splitCache` — the invariant at the root, and from a node to its children.
-/

/-! ### The caches -/

/-- The values of a sample that sums are taken of, and such sums. -/
structure CacheValue (F : Type) where
  s : F
  ss : F
  c : F
  deriving DecidableEq, Repr

/-- The cache of the training set. -/
structure TrainingCache (V F : Type) where
  orderedFeatures : List (List (Nat × V))
  orderedResidual : List (Nat × V)
  cacheValue : List (CacheValue F)
  cacheTarget : List V
  logitC : List V
  sampleSize : Nat
  featureSize : Nat
  preds : List V
  cacheLevel : Nat
  deriving DecidableEq, Repr

/-- The cache of a node. -/
structure SubCache (V : Type) where
  orderedFeatures : List (List (Nat × V))
  orderedResidual : List (Nat × V)
  lazy : Bool
  deriving DecidableEq, Repr

/-- A vector of booleans that is true at the given indices. -/
def boolVec (size : Nat) (indices : List Nat) : List Bool :=
  indices.foldl (fun v i => v.set i true) (List.replicate size false)

section

variable {V F : Type} [LinearOrder V] [Zero V] [Zero F] [One F] [Add F] [Sub F]
  [Mul F]

namespace TrainingCache

/-- `cache_features` -/
def cacheFeatures (sort : UnstableSort V) (wholeData : List (Data V)) (featureSize : Nat) :
    List (List (Nat × V)) :=
  (List.range featureSize).map fun index =>
    sort.run (wholeData.mapIdx fun i item => (i, item.value index))

/-- `cache_residual` -/
def cacheResidual (sort : UnstableSort V) (wholeData : List (Data V)) : List (Nat × V) :=
  sort.run (wholeData.mapIdx fun index elem => (index, elem.residual))

/-- `get_cache` -/
def getCache (A : Arith V F) (sort : UnstableSort V) (featureSize : Nat) (data : List (Data V))
    (cacheLevel : Nat) : TrainingCache V F :=
  let level := if 3 ≤ cacheLevel then 2 else cacheLevel
  { orderedFeatures :=
      if level = 0 ∨ level = 2 then cacheFeatures sort data featureSize else []
    orderedResidual := []
    cacheValue := data.map fun elem => ⟨0, 0, A.ofValue elem.weight⟩
    cacheTarget := List.replicate data.length 0
    logitC := List.replicate data.length 0
    sampleSize := data.length
    featureSize := featureSize
    preds := List.replicate data.length A.unknown
    cacheLevel := level }

/-- `init_one_iteration`, for a training set of the size of the cache. -/
def initOneIteration (A : Arith V F) (sort : UnstableSort V) (cache : TrainingCache V F)
    (wholeData : List (Data V)) (loss : Loss) : TrainingCache V F :=
  { cache with
    cacheTarget := wholeData.map fun x => x.target
    cacheValue := cache.cacheValue.zipWith (fun cv x =>
      let weight := A.ofValue x.weight
      let target := A.ofValue x.target
      let s := target * weight
      { cv with s := s, ss := target * s }) wholeData
    logitC :=
      if loss = .logLikelyhood then
        wholeData.map fun x =>
          let y := A.absF (A.ofValue x.target)
          A.asValue (y * (1 + 1 - y) * A.ofValue x.weight)
      else cache.logitC
    orderedResidual :=
      if loss = .lad then cacheResidual sort wholeData else cache.orderedResidual }

end TrainingCache

end

section

variable {V F : Type}

namespace TrainingCache

/-- The list that `sort_with_bool_vec` takes its samples from. -/
def sortedSource (cache : TrainingCache V F) (featureIndex : Nat) (isResidual : Bool)
    (sub : SubCache V) : List (Nat × V) :=
  if isResidual then
    if cache.cacheLevel = 0 ∨ sub.lazy = true then cache.orderedResidual else sub.orderedResidual
  else
    if cache.cacheLevel = 0 ∨ sub.lazy = true then cache.orderedFeatures.getD featureIndex []
    else sub.orderedFeatures.getD featureIndex []

/-- `sort_with_bool_vec` -/
def sortWithBoolVec (cache : TrainingCache V F) (featureIndex : Nat) (isResidual : Bool)
    (toSort : List Bool) (toSortSize : Nat) (sub : SubCache V) : List (Nat × V) :=
  let wholeDataSortedIndex := cache.sortedSource featureIndex isResidual sub
  if wholeDataSortedIndex.length = toSortSize then wholeDataSortedIndex
  else wholeDataSortedIndex.filter fun item => toSort.getD item.1 false

/-- `sort_with_cache` -/
def sortWithCache (cache : TrainingCache V F) (featureIndex : Nat) (isResidual : Bool)
    (toSort : List Nat) (sub : SubCache V) : List (Nat × V) :=
  let wholeDataSortedIndex :=
    if isResidual then cache.orderedResidual else cache.orderedFeatures.getD featureIndex []
  cache.sortWithBoolVec featureIndex isResidual (boolVec wholeDataSortedIndex.length toSort)
    toSort.length sub

end TrainingCache

namespace SubCache

/-- `get_empty` -/
def getEmpty : SubCache V := ⟨[], [], false⟩

/-- `get_cache_from_training_cache` -/
def getCacheFromTrainingCache [LinearOrder V] [Zero V] (sort : UnstableSort V)
    (cache : TrainingCache V F) (data : List (Data V)) (loss : Loss) : SubCache V :=
  let level := cache.cacheLevel
  if level = 2 then ⟨[], [], true⟩
  else
    { orderedFeatures :=
        if level = 0 then []
        else if level = 1 then TrainingCache.cacheFeatures sort data cache.featureSize
        else (List.range cache.featureSize).map fun index => cache.orderedFeatures.getD index []
      orderedResidual :=
        if level = 0 then []
        else if level = 1 then if loss = .lad then TrainingCache.cacheResidual sort data else []
        else if loss = .lad then cache.orderedResidual else []
      lazy := false }

/-- `split_cache` -/
def splitCache (sub : SubCache V) (leftSet rightSet : List Nat) (cache : TrainingCache V F) :
    SubCache V × SubCache V :=
  if cache.cacheLevel = 0 then (getEmpty, getEmpty)
  else
    let leftBool := boolVec cache.sampleSize leftSet
    let rightBool := boolVec cache.sampleSize rightSet
    let features := if sub.lazy then cache.orderedFeatures else sub.orderedFeatures
    let residual := if sub.lazy then cache.orderedResidual else sub.orderedResidual
    let goesLeft := fun pair : Nat × V => leftBool.getD pair.1 false
    let goesRight := fun pair : Nat × V =>
      !leftBool.getD pair.1 false && rightBool.getD pair.1 false
    ({ orderedFeatures :=
        (List.range cache.featureSize).map fun index => (features.getD index []).filter goesLeft
       orderedResidual := residual.filter goesLeft
       lazy := false },
     { orderedFeatures :=
        (List.range cache.featureSize).map fun index => (features.getD index []).filter goesRight
       orderedResidual := residual.filter goesRight
       lazy := false })

end SubCache

/-! ### Samples in order -/

theorem getD_boolVec (size : Nat) (indices : List Nat) (i : Nat) :
    (boolVec size indices).getD i false = (decide (i < size) && decide (i ∈ indices)) := by
  unfold boolVec
  have hgen : ∀ v : List Bool, (indices.foldl (fun v i => v.set i true) v).getD i false =
      (v.getD i false || decide (i < v.length) && decide (i ∈ indices)) := by
    induction indices with
    | nil => simp
    | cons j indices ih =>
      intro v
      rw [List.foldl_cons, ih (v.set j true), List.length_set]
      by_cases hij : i = j
      · subst hij
        by_cases hlt : i < v.length
        · simp [hlt]
        · simp [hlt]
      · have hji : j ≠ i := fun h => hij h.symm
        simp [hij, hji]
  have hblank : (List.replicate size false).getD i false = false := by
    by_cases hlt : i < size <;> simp [hlt]
  rw [hgen, hblank, List.length_replicate, Bool.false_or]

/-- The pairs of some samples. -/
def only (data : List Nat) (order : List (Nat × V)) : List (Nat × V) :=
  order.filter fun pair => decide (pair.1 ∈ data)

/-- An order of all samples. -/
structure IsOrder (size : Nat) (order : List (Nat × V)) : Prop where
  nodup : (order.map Prod.fst).Nodup
  mem_iff : ∀ i, i ∈ order.map Prod.fst ↔ i < size

/-- Samples of a node. -/
structure IsNode (size : Nat) (data : List Nat) : Prop where
  nodup : data.Nodup
  lt : ∀ i ∈ data, i < size

variable {size : Nat} {data : List Nat} {order : List (Nat × V)}

theorem map_fst_only (h : IsOrder size order) (hdata : IsNode size data) :
    ((only data order).map Prod.fst).Perm data := by
  have hnodup : ((only data order).map Prod.fst).Nodup :=
    h.nodup.sublist (List.filter_sublist.map Prod.fst)
  rw [List.perm_ext_iff_of_nodup hnodup hdata.nodup]
  intro i
  constructor
  · intro hi
    obtain ⟨pair, hpair, rfl⟩ := List.mem_map.mp hi
    exact of_decide_eq_true (List.mem_filter.mp hpair).2
  · intro hi
    obtain ⟨pair, hpair, rfl⟩ := List.mem_map.mp ((h.mem_iff i).mpr (hdata.lt i hi))
    exact List.mem_map.mpr ⟨pair, List.mem_filter.mpr ⟨hpair, decide_eq_true hi⟩, rfl⟩

/-- A list that samples of a node can be taken from: the order, with none of them left out. -/
def Covers (order : List (Nat × V)) (data : List Nat) (source : List (Nat × V)) : Prop :=
  ∃ p : Nat → Bool, (∀ i ∈ data, p i = true) ∧ source = order.filter fun pair => p pair.1

theorem covers_self (order : List (Nat × V)) (data : List Nat) : Covers order data order :=
  ⟨fun _ => true, fun _ _ => rfl, by simp⟩

variable {source : List (Nat × V)}

theorem Covers.filter (h : Covers order data source) {q : Nat → Bool} {data' : List Nat}
    (hsub : ∀ i ∈ data', i ∈ data) (hq : ∀ i ∈ data', q i = true) :
    Covers order data' (source.filter fun pair => q pair.1) := by
  obtain ⟨p, hp, rfl⟩ := h
  refine ⟨fun i => p i && q i, fun i hi => ?_, ?_⟩
  · show (p i && q i) = true
    simp [hp i (hsub i hi), hq i hi]
  · rw [List.filter_filter]
    apply List.filter_congr
    intro pair _
    exact Bool.and_comm _ _

theorem Covers.mono (h : Covers order data source) {data' : List Nat}
    (hsub : ∀ i ∈ data', i ∈ data) : Covers order data' source := by
  obtain ⟨p, hp, hsource⟩ := h
  exact ⟨p, fun i hi => hp i (hsub i hi), hsource⟩

theorem Covers.only_eq (h : Covers order data source) :
    only data source = only data order := by
  obtain ⟨p, hp, rfl⟩ := h
  unfold only
  rw [List.filter_filter]
  apply List.filter_congr
  intro pair _
  by_cases hmem : pair.1 ∈ data
  · simp [hmem, hp pair.1 hmem]
  · simp [hmem]

/-- A source of the length of the node holds the samples of the node and no others. -/
theorem Covers.eq_only (h : Covers order data source) (horder : IsOrder size order)
    (hdata : IsNode size data) (hlen : source.length = data.length) : source = only data order := by
  have honly : (only data source).length = source.length := by
    rw [h.only_eq, hlen, ← (map_fst_only horder hdata).length_eq, List.length_map]
  rw [← h.only_eq]
  exact (List.filter_sublist.eq_of_length honly).symm

/-- A source that is split for two children. -/
theorem covers_split (h : Covers order data source) {left right : List Nat}
    (hleft : IsNode size left) (hright : IsNode size right) (hl : ∀ i ∈ left, i ∈ data)
    (hr : ∀ i ∈ right, i ∈ data ∧ i ∉ left) :
    Covers order left
        (source.filter fun pair => (boolVec size left).getD pair.1 false) ∧
      Covers order right (source.filter fun pair =>
        !(boolVec size left).getD pair.1 false &&
          (boolVec size right).getD pair.1 false) := by
  constructor
  · apply h.filter (q := fun i => (boolVec size left).getD i false) hl
    intro i hi
    rw [getD_boolVec]
    simp [hi, hleft.lt i hi]
  · apply h.filter (q := fun i => !(boolVec size left).getD i false &&
      (boolVec size right).getD i false) fun i hi => (hr i hi).1
    intro i hi
    rw [getD_boolVec, getD_boolVec]
    simp [hi, hright.lt i hi, (hr i hi).2]

theorem isOrder_run [LinearOrder V] (sort : UnstableSort V) (samples : List (Data V)) (g : Data V → V) :
    IsOrder samples.length (sort.run (samples.mapIdx fun i x => (i, g x))) := by
  have hperm := (sort.perm (samples.mapIdx fun i x => (i, g x))).map Prod.fst
  have hfst : (samples.mapIdx fun i x => (i, g x)).map Prod.fst = List.range samples.length := by
    apply List.ext_getElem <;> simp
  rw [hfst] at hperm
  refine ⟨hperm.nodup_iff.mpr List.nodup_range, fun i => ?_⟩
  rw [hperm.mem_iff, List.mem_range]

/-- Whatever the source is, the samples of a node are taken from it in order. -/
theorem sortWithBoolVec_covers {cache : TrainingCache V F} {sub : SubCache V} {f : Nat} {r : Bool}
    (h : Covers order data (cache.sortedSource f r sub)) (horder : IsOrder size order)
    (hdata : IsNode size data) :
    cache.sortWithBoolVec f r (boolVec size data) data.length sub =
      only data order := by
  unfold TrainingCache.sortWithBoolVec
  by_cases hlen : (cache.sortedSource f r sub).length = data.length
  · rw [if_pos hlen]
    exact h.eq_only horder hdata hlen
  · rw [if_neg hlen, ← h.only_eq]
    apply List.filter_congr
    intro pair _
    rw [getD_boolVec]
    by_cases hmem : pair.1 ∈ data
    · simp [hmem, hdata.lt _ hmem]
    · simp [hmem]

end

/-! ### The invariant of the sub-caches -/

section

variable {V F : Type} [LinearOrder V] [Zero V]

/-- The samples in the order of a feature. -/
def featureOrder (sort : UnstableSort V) (samples : List (Data V)) (feature : Nat) :
    List (Nat × V) :=
  sort.run (samples.mapIdx fun i item => (i, item.value feature))

/-- A cache for the samples and a loss. What the cache holds depends on its level. -/
structure TrainingCache.Prepared (sort : UnstableSort V) (samples : List (Data V)) (loss : Loss)
    (cache : TrainingCache V F) : Prop where
  sampleSize : cache.sampleSize = samples.length
  level : cache.cacheLevel = 0 ∨ cache.cacheLevel = 1 ∨ cache.cacheLevel = 2
  features : cache.cacheLevel ≠ 1 →
    cache.orderedFeatures = TrainingCache.cacheFeatures sort samples cache.featureSize
  residual : loss = .lad → cache.orderedResidual = TrainingCache.cacheResidual sort samples

/-- What a sub-cache is for: at a node, samples can be taken from it in the order of every feature,
    and of the residual where the loss needs it. -/
structure SubCache.Fits (sort : UnstableSort V) (samples : List (Data V)) (loss : Loss)
    (cache : TrainingCache V F) (data : List Nat) (sub : SubCache V) : Prop where
  features : ∀ f < cache.featureSize,
    Covers (featureOrder sort samples f) data (cache.sortedSource f false sub)
  residual : loss = .lad →
    Covers (TrainingCache.cacheResidual sort samples) data (cache.sortedSource 0 true sub)

variable {sort : UnstableSort V} {samples : List (Data V)} {loss : Loss}
  {cache : TrainingCache V F} {data : List Nat} {sub : SubCache V}

theorem getD_cacheFeatures {featureSize f : Nat} (hf : f < featureSize) :
    (TrainingCache.cacheFeatures sort samples featureSize).getD f [] =
      featureOrder sort samples f := by
  simp [TrainingCache.cacheFeatures, featureOrder, hf]

/-- The root. -/
theorem fits_root (h : cache.Prepared sort samples loss) (data : List Nat) :
    (SubCache.getCacheFromTrainingCache sort cache samples loss).Fits sort samples loss cache
      data := by
  unfold SubCache.getCacheFromTrainingCache
  refine ⟨fun f hf => ?_, fun hlad => ?_⟩
  · have hcovers := covers_self (featureOrder sort samples f) data
    unfold TrainingCache.sortedSource
    rw [if_neg Bool.false_ne_true]
    rcases h.level with hl | hl | hl
    · rw [if_pos (Or.inl hl), h.features (by omega), getD_cacheFeatures hf]
      exact hcovers
    · rw [← getD_cacheFeatures hf] at hcovers ⊢
      simpa [hl] using hcovers
    · rw [if_pos hl, if_pos (Or.inr rfl), h.features (by omega), getD_cacheFeatures hf]
      exact hcovers
  · have hcovers := covers_self (TrainingCache.cacheResidual sort samples) data
    unfold TrainingCache.sortedSource
    rcases h.level with hl | hl | hl
    · rw [if_pos (Or.inl hl), h.residual hlad]
      exact hcovers
    · simpa [hl, hlad] using hcovers
    · rw [if_pos hl, if_pos (Or.inr rfl), h.residual hlad]
      exact hcovers

/-- From a node to its children. -/
theorem fits_splitCache (hcache : cache.Prepared sort samples loss)
    (h : sub.Fits sort samples loss cache data) {left right : List Nat}
    (hleft : IsNode samples.length left) (hright : IsNode samples.length right)
    (hl : ∀ i ∈ left, i ∈ data) (hr : ∀ i ∈ right, i ∈ data ∧ i ∉ left) :
    (sub.splitCache left right cache).1.Fits sort samples loss cache left ∧
      (sub.splitCache left right cache).2.Fits sort samples loss cache right := by
  unfold SubCache.splitCache
  by_cases hlevel : cache.cacheLevel = 0
  · -- level 0 goes on with the order of the whole set
    rw [if_pos hlevel]
    have hsource : ∀ f r, cache.sortedSource f r SubCache.getEmpty =
        cache.sortedSource f r sub := by
      simp [TrainingCache.sortedSource, hlevel]
    refine ⟨⟨fun f hf => ?_, fun hlad => ?_⟩, ⟨fun f hf => ?_, fun hlad => ?_⟩⟩
    · rw [hsource]
      exact (h.features f hf).mono hl
    · rw [hsource]
      exact (h.residual hlad).mono hl
    · rw [hsource]
      exact (h.features f hf).mono fun i hi => (hr i hi).1
    · rw [hsource]
      exact (h.residual hlad).mono fun i hi => (hr i hi).1
  · rw [if_neg hlevel, hcache.sampleSize]
    have hfeatures : ∀ f, cache.sortedSource f false sub =
        (if sub.lazy then cache.orderedFeatures else sub.orderedFeatures).getD f [] := by
      unfold TrainingCache.sortedSource
      cases sub.lazy <;> simp [hlevel]
    have hresidual : cache.sortedSource 0 true sub =
        if sub.lazy then cache.orderedResidual else sub.orderedResidual := by
      unfold TrainingCache.sortedSource
      cases sub.lazy <;> simp [hlevel]
    -- a child reads its own lists, each of them a filter of what its parent reads
    have hown : ∀ (q : Nat × V → Bool) (residual : List (Nat × V)) (f : Nat),
        f < cache.featureSize →
        cache.sortedSource f false ⟨(List.range cache.featureSize).map fun index =>
            ((if sub.lazy then cache.orderedFeatures else sub.orderedFeatures).getD index
              []).filter q, residual, false⟩ =
          (cache.sortedSource f false sub).filter q := by
      intro q residual f hf
      rw [hfeatures]
      simp [TrainingCache.sortedSource, hlevel, hf]
    refine ⟨⟨fun f hf => ?_, fun hlad => ?_⟩, ⟨fun f hf => ?_, fun hlad => ?_⟩⟩
    · rw [hown _ _ f hf]
      exact (covers_split (h.features f hf) hleft hright hl hr).1
    · have hcovers := (covers_split (h.residual hlad) hleft hright hl hr).1
      rw [hresidual] at hcovers
      unfold TrainingCache.sortedSource
      simpa [hlevel] using hcovers
    · rw [hown _ _ f hf]
      exact (covers_split (h.features f hf) hleft hright hl hr).2
    · have hcovers := (covers_split (h.residual hlad) hleft hright hl hr).2
      rw [hresidual] at hcovers
      unfold TrainingCache.sortedSource
      simpa [hlevel] using hcovers

/-- **The samples of a node in the order of a feature**, at every level. -/
theorem sortWithBoolVec_fits (hcache : cache.Prepared sort samples loss)
    (h : sub.Fits sort samples loss cache data) (hdata : IsNode samples.length data) {f : Nat}
    (hf : f < cache.featureSize) :
    cache.sortWithBoolVec f false (boolVec cache.sampleSize data) data.length sub =
      only data (featureOrder sort samples f) := by
  rw [hcache.sampleSize]
  exact sortWithBoolVec_covers (h.features f hf) (isOrder_run sort samples _) hdata

theorem sortWithCache_fits (hcache : cache.Prepared sort samples .lad)
    (h : sub.Fits sort samples .lad cache data) (hdata : IsNode samples.length data) :
    cache.sortWithCache 0 true data sub = only data (TrainingCache.cacheResidual sort samples) := by
  have horder : IsOrder samples.length (TrainingCache.cacheResidual sort samples) :=
    isOrder_run sort samples _
  have hlen : (TrainingCache.cacheResidual sort samples).length = samples.length := by
    simp [TrainingCache.cacheResidual, (sort.perm _).length_eq]
  unfold TrainingCache.sortWithCache
  dsimp only
  rw [if_pos rfl, hcache.residual rfl, hlen]
  exact sortWithBoolVec_covers (h.residual rfl) horder hdata

/-- The predictions are no part of what the invariants speak of. -/
theorem prepared_preds (hcache : cache.Prepared sort samples loss) (preds : List V) :
    ({ cache with preds := preds } : TrainingCache V F).Prepared sort samples loss :=
  ⟨hcache.sampleSize, hcache.level, hcache.features, hcache.residual⟩

theorem fits_preds (h : sub.Fits sort samples loss cache data) (preds : List V) :
    sub.Fits sort samples loss { cache with preds := preds } data :=
  ⟨h.features, h.residual⟩

/-- A cache for the features of the samples. -/
structure TrainingCache.Built (sort : UnstableSort V) (samples : List (Data V))
    (cache : TrainingCache V F) : Prop where
  sampleSize : cache.sampleSize = samples.length
  level : cache.cacheLevel = 0 ∨ cache.cacheLevel = 1 ∨ cache.cacheLevel = 2
  features : cache.cacheLevel ≠ 1 →
    cache.orderedFeatures = TrainingCache.cacheFeatures sort samples cache.featureSize

variable [Zero F] [One F] [Add F] [Sub F] [Mul F] (A : Arith V F)

omit [One F] [Add F] [Sub F] [Mul F] in
variable (sort) in
theorem built_getCache (samples : List (Data V)) (featureSize level : Nat) :
    (TrainingCache.getCache A sort featureSize samples level).Built sort samples := by
  refine ⟨rfl, ?_, fun hne => ?_⟩
  · unfold TrainingCache.getCache
    dsimp only
    split_ifs <;> omega
  · have hlevel : ∀ l, (if 3 ≤ level then 2 else level) = l → l ≠ 1 → l = 0 ∨ l = 2 := by
      intro l hl hne
      split_ifs at hl <;> omega
    unfold TrainingCache.getCache
    dsimp only
    rw [if_pos (hlevel _ rfl hne)]

omit [Zero F] in
/-- The cache of an iteration. -/
theorem prepared_initOneIteration (h : cache.Built sort samples) (loss : Loss) :
    (cache.initOneIteration A sort samples loss).Prepared sort samples loss := by
  refine ⟨h.sampleSize, h.level, h.features, fun hlad => ?_⟩
  simp [TrainingCache.initOneIteration, hlad]

end

end TeaclaveCrates.Gbdt
