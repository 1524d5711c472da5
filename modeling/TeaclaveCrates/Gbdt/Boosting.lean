import TeaclaveCrates.Gbdt.Auc
import TeaclaveCrates.Gbdt.Fitness
import TeaclaveCrates.Gbdt.Routing

namespace TeaclaveCrates.Gbdt

/-!
# Gradient boosting

`GBDT::fit` trains one tree after the other, each on what the trees before it leave over. It does not
ask the model for the predictions of the training data again: they are kept in a vector, to which
every new tree adds its own. For the samples that a tree is trained on these come from the cache of
the training, for the others from `predict_n`.

* `Config`, `GBDT` — the parameters and the model.
* `GBDT.predictN` — the predictions of some of the trees.
* `Training`, `GBDT.start`, `Training.iterate` — the state of `fit`, and one iteration.
* `Training.Follows` — the invariant: the kept predictions are those of the model.
* `boosting_invariant` — it holds at the start of every iteration.
-/

/-! ### The model -/

/-- `Config` -/
structure Config (V F : Type) where
  featureSize : Nat
  maxDepth : Nat
  iterations : Nat
  shrinkage : V
  featureSampleRatio : F
  dataSampleRatio : F
  minLeafSize : Nat
  loss : Loss
  debug : Bool
  initialGuessEnabled : Bool
  trainingOptimizationLevel : Nat

/-- `GBDT` -/
structure GBDT (V F : Type) where
  conf : Config V F
  trees : List (DecisionTree V F)
  bias : V

/-- `f32::exp` and `f32::ln` -/
structure Transcendental (V : Type) where
  exp : V → V
  ln : V → V

section

variable {V F R : Type} [LinearOrder V] [Zero V] [One V] [Add V] [Sub V] [Neg V] [Mul V] [Div V]
  [Zero F] [One F] [Add F] [Sub F] [Mul F] [Div F] [LT F] [DecidableLT F]

variable (A : Arith V F) in
/-- The prediction of one more tree is added to those of the trees before it. -/
def addTree (shrinkage : V) (testData : List (Data V)) (n : Nat) (predicted : List V)
    (tree : DecisionTree V F) : Option (List V) :=
  match tree.predictN A testData (List.range n) with
  | none => none
  | some v => some (List.zipWith (fun e v => e + shrinkage * v) predicted v)

variable (A : Arith V F) in
/-- `GBDT::predict_n`: the first `n` samples with the trees from `start` to `start + iters`. -/
def GBDT.predictN (m : GBDT V F) (testData : List (Data V)) (start iters n : Nat) :
    Option (List V) :=
  if start + iters ≤ m.trees.length ∧ n ≤ testData.length then
    if m.trees.isEmpty then some (List.replicate testData.length A.unknown)
    else
      let predicted :=
        if m.conf.initialGuessEnabled then (testData.take n).map Data.initialGuess
        else List.replicate n m.bias
      ((m.trees.drop start).take iters).foldlM (addTree A m.conf.shrinkage testData n) predicted
  else none

/-! ### Training -/

variable (A : Arith V F) (T : Transcendental V) (sort : UnstableSort V) (shuffler : Shuffler R)

/-- The tree of an iteration before it is trained. -/
def Config.tree (conf : Config V F) : DecisionTree V F :=
  ⟨BinaryTree.new, conf.featureSize, conf.maxDepth, conf.minLeafSize, conf.loss,
    conf.featureSampleRatio⟩

/-- `check_valid_data` -/
def GBDT.checkValidData (m : GBDT V F) (dv : List (Data V)) : Bool :=
  dv.all fun x => x.feature.length = m.conf.featureSize

/-- `init`: the model with its bias. -/
def GBDT.init (m : GBDT V F) (dv : List (Data V)) : Option (GBDT V F) :=
  if m.checkValidData dv then
    if m.conf.initialGuessEnabled then some m
    else
      match m.conf.loss with
      | .logLikelyhood =>
        let v := labelAverage A dv
        some { m with bias := T.ln ((1 + v) / (1 - v)) / (1 + 1) }
      | .lad => (weightedLabelMedian A dv dv.length).map fun bias => { m with bias := bias }
      | _ => some { m with bias := labelAverage A dv }
  else none

/-- The variables of `fit`. -/
structure Training (V F R : Type) where
  model : GBDT V F
  trainData : List (Data V)
  predictedCache : List V
  cache : TrainingCache V F
  rng : R

/-- `fit` up to its loop. -/
def GBDT.start (m : GBDT V F) (trainData : List (Data V)) (g : R) : Option (Training V F R) :=
  let m := { m with trees := List.replicate m.conf.iterations m.conf.tree }
  match m.init A T trainData with
  | none => none
  | some m =>
    match m.predictN A trainData 0 0 trainData.length with
    | none => none
    | some predictedCache =>
      let cache := TrainingCache.getCache A sort m.conf.featureSize trainData
        m.conf.trainingOptimizationLevel
      some ⟨m, trainData, predictedCache, cache, g⟩

/-- `nr_samples` -/
def Config.nrSamples (conf : Config V F) (len : Nat) : Nat :=
  if conf.dataSampleRatio < 1 then A.asUsize (A.ofUsize len * conf.dataSampleRatio) else len

/-- The samples that a tree is trained on, and the others. -/
def Config.subsets (conf : Config V F) (len : Nat) (g : R) : List Nat × List Nat × R :=
  let samples := List.range len
  if conf.nrSamples A len < len then
    let shuffled := shuffler.run samples g
    ((shuffled.1.take (conf.nrSamples A len)).insertionSort (· ≤ ·),
      (shuffled.1.drop (conf.nrSamples A len)).insertionSort (· ≤ ·), shuffled.2)
  else (samples, [], g)

/-- `logit_loss_gradient` -/
def logitLossGradient (y f : V) : V := (1 + 1) * y / (1 + T.exp ((1 + 1) * y * f))

/-- The target of a sample for the next tree, by `square_loss_process`, `log_loss_process` or
    `lad_loss_process`. -/
def Loss.target (loss : Loss) (x : Data V) (predicted : V) : Data V :=
  match loss with
  | .logLikelyhood => { x with target := logitLossGradient T x.label predicted }
  | .lad =>
    let residual := x.label - predicted
    { x with residual := residual, target := if 0 ≤ residual then 1 else -1 }
  | _ => { x with target := x.label - predicted }

/-- What the three functions print for debugging. `AUC` stops the program when there are not two
    labels; the other two only compare lengths. -/
def Config.debugOutput (conf : Config V F) (dv : List (Data V)) (predicted : List V) :
    Option Unit :=
  if conf.debug then
    match conf.loss with
    | .logLikelyhood =>
      let normalized := predicted.map fun x => 1 / (1 + T.exp (-(1 + 1) * x))
      (auc A dv normalized dv.length).map fun _ => ()
    | _ => if dv.length = predicted.length then some () else none
  else some ()

/-- `predicted[index] += preds[index] * shrinkage`, for some samples. -/
def addScaled (shrinkage : V) (preds : List V) (subset : List Nat) (predicted : List V) : List V :=
  subset.foldl (fun predicted index =>
    predicted.set index (predicted.getD index 0 + preds.getD index 0 * shrinkage)) predicted

/-- The iteration `i` of `fit`. -/
def Training.iterate (t : Training V F R) (i : Nat) : Option (Training V F R) :=
  let conf := t.model.conf
  let (subset, remaining, g) := conf.subsets A shuffler t.trainData.length t.rng
  let trainData := List.zipWith (conf.loss.target T) t.trainData t.predictedCache
  match conf.debugOutput A T trainData t.predictedCache with
  | none => none
  | some _ =>
    match t.model.trees[i]?.bind fun tree =>
      fitN A sort shuffler tree trainData subset t.cache g with
    | none => none
    | some (tree, cache, g) =>
      let predicted := addScaled conf.shrinkage cache.preds subset t.predictedCache
      match tree.predictN A trainData remaining with
      | none => none
      | some tmp =>
        some ⟨{ t.model with trees := t.model.trees.set i tree }, trainData,
          addScaled conf.shrinkage tmp remaining predicted, cache, g⟩

/-- The first `i` iterations. -/
def Training.run (t : Training V F R) : Nat → Option (Training V F R)
  | 0 => some t
  | i + 1 => (t.run i).bind fun t => t.iterate A T sort shuffler i

/-- The variables of `fit` at the start of the iteration `i`. -/
def GBDT.stateAt (m : GBDT V F) (trainData : List (Data V)) (g : R) (i : Nat) :
    Option (Training V F R) :=
  (m.start A T sort trainData g).bind fun t => t.run A T sort shuffler i

/-- `fit` -/
def GBDT.fit (m : GBDT V F) (trainData : List (Data V)) (g : R) : Option (GBDT V F) :=
  (m.stateAt A T sort shuffler trainData g m.conf.iterations).map Training.model

end

section

variable {V F R : Type} {A : Arith V F} {dv dv' : List (Data V)}

/-! ### What predictions depend on -/

/-- The data have the same features and the same guesses. -/
def SameInputs (dv dv' : List (Data V)) : Prop :=
  dv.map (fun x => (x.feature, x.initialGuess)) = dv'.map fun x => (x.feature, x.initialGuess)

theorem SameInputs.length (h : SameInputs dv dv') : dv.length = dv'.length := by
  have hlen := congrArg List.length h
  rwa [List.length_map, List.length_map] at hlen

theorem SameInputs.feature (h : SameInputs dv dv') :
    dv.map Data.feature = dv'.map Data.feature := by
  have hmap := congrArg (List.map Prod.fst) h
  rw [List.map_map, List.map_map] at hmap
  exact hmap

theorem SameInputs.initialGuess (h : SameInputs dv dv') :
    dv.map Data.initialGuess = dv'.map Data.initialGuess := by
  have hmap := congrArg (List.map Prod.snd) h
  rw [List.map_map, List.map_map] at hmap
  exact hmap

/-- Every sample has the features that are trained on, and knows all of them. -/
def Known (A : Arith V F) (featureSize : Nat) (dv : List (Data V)) : Prop :=
  ∀ x ∈ dv, featureSize ≤ x.feature.length ∧ ∀ v ∈ x.feature, v ≠ A.unknown

variable {featureSize : Nat}

theorem known_congr (h : SameInputs dv dv') (hknown : Known A featureSize dv) :
    Known A featureSize dv' := by
  intro y hy
  have hmem : y.feature ∈ dv'.map Data.feature := List.mem_map_of_mem hy
  rw [← h.feature] at hmem
  obtain ⟨x, hx, hfeature⟩ := List.mem_map.mp hmem
  rw [← hfeature]
  exact hknown x hx

theorem length_foldl_set (f : Nat → V) (subset : List Nat) (ret : List V) :
    (subset.foldl (fun ret i => ret.set i (f i)) ret).length = ret.length := by
  induction subset generalizing ret with
  | nil => rfl
  | cons i subset ih => rw [List.foldl_cons, ih, List.length_set]

variable {subset : List Nat}

/-- **The samples in two groups**: those that a tree is trained on, and the others. -/
theorem mem_subsets [One F] [Mul F] [LT F] [DecidableLT F] {shuffler : Shuffler R}
    (conf : Config V F) (len : Nat) (g : R) {remaining : List Nat} {g' : R}
    (h : conf.subsets A shuffler len g = (subset, remaining, g')) :
    IsNode len subset ∧ IsNode len remaining ∧
      (∀ i ∈ subset, i ∉ remaining) ∧ ∀ i < len, i ∈ subset ∨ i ∈ remaining := by
  unfold Config.subsets at h
  split_ifs at h with hlt
  · have hperm := shuffler.perm (List.range len) g
    obtain ⟨rfl, rfl, -⟩ := h
    generalize (shuffler.run (List.range len) g).1 = samples at hperm ⊢
    have hleft := List.perm_insertionSort (· ≤ ·) (samples.take (conf.nrSamples A len))
    have hright := List.perm_insertionSort (· ≤ ·) (samples.drop (conf.nrSamples A len))
    have hsplit := List.take_append_drop (conf.nrSamples A len) samples
    have hnodup : (samples.take (conf.nrSamples A len) ++
        samples.drop (conf.nrSamples A len)).Nodup := by
      rw [hsplit]
      exact hperm.nodup_iff.mpr List.nodup_range
    rw [List.nodup_append'] at hnodup
    obtain ⟨hnodupl, hnodupr, hdisjoint⟩ := hnodup
    have hmem : ∀ i, i < len ↔ i ∈ samples.take (conf.nrSamples A len) ∨
        i ∈ samples.drop (conf.nrSamples A len) := by
      intro i
      rw [← List.mem_append, hsplit, hperm.mem_iff, List.mem_range]
    refine ⟨⟨hleft.nodup_iff.mpr hnodupl, fun i hi => ?_⟩,
      ⟨hright.nodup_iff.mpr hnodupr, fun i hi => ?_⟩, fun i hi hi' => ?_, fun i hi => ?_⟩
    · exact (hmem i).mpr (Or.inl (hleft.mem_iff.mp hi))
    · exact (hmem i).mpr (Or.inr (hright.mem_iff.mp hi))
    · exact hdisjoint (hleft.mem_iff.mp hi) (hright.mem_iff.mp hi')
    · rw [hleft.mem_iff, hright.mem_iff]
      exact (hmem i).mp hi
  · obtain ⟨rfl, rfl, -⟩ := h
    refine ⟨⟨List.nodup_range, fun i hi => List.mem_range.mp hi⟩,
      ⟨List.nodup_nil, by simp⟩, by simp, fun i hi => Or.inl (List.mem_range.mpr hi)⟩

variable [LinearOrder V]

/-- A walk down a tree looks at the features only. -/
theorem predictOne_congr {x y : Data V} (h : x.feature = y.feature) (tree : BinaryTree (DTNode V))
    (fuel : Nat) (node : BinaryTreeNode (DTNode V)) :
    predictOne A tree fuel node x = predictOne A tree fuel node y := by
  induction fuel generalizing node with
  | zero => rfl
  | succ fuel ih =>
    have hturn : turn A node.value x = turn A node.value y := by
      simp [turn, h]
    simp [predictOne, hturn, ih]

theorem predictRoot_congr {x y : Data V} (h : x.feature = y.feature) (dt : DecisionTree V F) :
    dt.predictRoot A x = dt.predictRoot A y := by
  unfold DecisionTree.predictRoot
  cases dt.tree.getNode 0 with
  | none => rfl
  | some root => exact predictOne_congr h _ _ root

theorem predictLoop_congr (h : SameInputs dv dv') (dt : DecisionTree V F) (ret : List V)
    (subset : List Nat) : dt.predictLoop A dv ret subset = dt.predictLoop A dv' ret subset := by
  induction subset generalizing ret with
  | nil => rfl
  | cons i subset ih =>
    have hone : dv[i]?.bind (dt.predictRoot A) = dv'[i]?.bind (dt.predictRoot A) := by
      have hi := congrArg (fun l => l[i]?) h.feature
      simp only [List.getElem?_map] at hi
      cases hx : dv[i]? with
      | none =>
        rw [hx, Option.map_none] at hi
        rw [Option.map_eq_none_iff.mp hi.symm]
      | some x =>
        rw [hx, Option.map_some] at hi
        obtain ⟨y, hy, hfeature⟩ := Option.map_eq_some_iff.mp hi.symm
        rw [hy]
        exact predictRoot_congr hfeature.symm dt
    simp [DecisionTree.predictLoop, hone, ih]

variable [Zero V]

theorem predictN_congr (h : SameInputs dv dv') (dt : DecisionTree V F) (subset : List Nat) :
    dt.predictN A dv subset = dt.predictN A dv' subset := by
  unfold DecisionTree.predictN
  rw [h.length]
  cases dt.tree.getNode 0 with
  | none => rfl
  | some root => exact predictLoop_congr h dt _ subset

/-- A cache of the features serves for all such data. -/
theorem built_congr (h : SameInputs dv dv') {cache : TrainingCache V F}
    (hbuilt : cache.Built sort dv) : cache.Built sort dv' := by
  refine ⟨hbuilt.sampleSize.trans h.length, hbuilt.level, fun hlevel => ?_⟩
  rw [hbuilt.features hlevel]
  unfold TrainingCache.cacheFeatures
  have hvalues : ∀ (l : List (Data V)) (f : Nat), (l.mapIdx fun i x => (i, x.value f)) =
      (l.map Data.feature).mapIdx fun i feature => (i, feature.getD f 0) := by
    intro l f
    apply List.ext_getElem?
    simp [Data.value, Function.comp_def]
  simp [hvalues, h.feature]

omit [LinearOrder V] in
theorem Known.sampleValue_ne (h : Known A featureSize dv) {i f : Nat} (hi : i < dv.length)
    (hf : f < featureSize) : sampleValue dv f i ≠ A.unknown := by
  obtain ⟨hlen, hvalues⟩ := h dv[i] (List.getElem_mem _)
  have hlt : f < dv[i].feature.length := by omega
  have hvalue : sampleValue dv f i = dv[i].feature[f] := by
    simp [sampleValue, Data.value, List.getElem?_eq_getElem hi, List.getElem?_eq_getElem hlt]
  rw [hvalue]
  exact hvalues _ (List.getElem_mem _)

/-- No sample is left behind where all values are known. -/
theorem leftBehind_eq_nil (h : Known A featureSize dv) {t : Grown V} (ht : t.Sound A dv featureSize)
    (hlt : ∀ i ∈ t.data, i < dv.length) : t.leftBehind = [] := by
  induction t with
  | leaf data pred => rfl
  | node data pred cut l r ihl ihr =>
    obtain ⟨hcut, hdl, hdr, hl, hr⟩ := ht
    have hunknown : cut.unknown = [] := by
      apply List.eq_nil_iff_forall_not_mem.mpr
      intro i hi
      obtain ⟨hmem, hvalue⟩ := (hcut.unknown i).mp hi
      exact h.sampleValue_ne (hlt i hmem) hcut.feature_lt hvalue
    have hleft := ihl hl fun i hi => hlt i ((hcut.left i).mp (hdl ▸ hi)).1
    have hright := ihr hr fun i hi => hlt i ((hcut.right i).mp (hdr ▸ hi)).1
    simp [Grown.leftBehind, hunknown, hleft, hright]

variable [Add V] [Mul V]

/-- **The model looks at features and guesses only.** -/
theorem GBDT.predictN_congr (h : SameInputs dv dv') (m : GBDT V F) (start iters n : Nat) :
    m.predictN A dv start iters n = m.predictN A dv' start iters n := by
  have htree : addTree A m.conf.shrinkage dv n = addTree A m.conf.shrinkage dv' n := by
    funext predicted tree
    simp [addTree, Gbdt.predictN_congr h]
  simp [GBDT.predictN, htree, h.length, h.initialGuess]

variable {out : List V}

/-- One tree more. -/
theorem GBDT.predictN_succ {m : GBDT V F} {i : Nat} (hi : i < m.trees.length)
    (h : m.predictN A dv 0 i dv.length = some out) (tree : DecisionTree V F) :
    { m with trees := m.trees.set i tree }.predictN A dv 0 (i + 1) dv.length =
      addTree A m.conf.shrinkage dv dv.length out tree := by
  have htake : (m.trees.set i tree).take (i + 1) = m.trees.take i ++ [tree] := by
    rw [List.take_add_one, List.take_set,
      List.set_eq_of_length_le (by rw [List.length_take]; omega),
      List.getElem?_set_self hi]
    rfl
  have hne : m.trees.isEmpty = false := by
    rw [List.isEmpty_eq_false_iff]
    exact List.ne_nil_of_length_pos (by omega)
  have hne' : (m.trees.set i tree).isEmpty = false := by
    rw [List.isEmpty_eq_false_iff]
    exact List.ne_nil_of_length_pos (by rw [List.length_set]; omega)
  unfold GBDT.predictN at h ⊢
  rw [if_pos ⟨by omega, le_refl _⟩, hne, if_neg Bool.false_ne_true, List.drop_zero] at h
  rw [if_pos ⟨by rw [List.length_set]; omega, le_refl _⟩, hne', if_neg Bool.false_ne_true,
    List.drop_zero, htake, List.foldlM_append, h]
  simp

/-- The predictions without a tree are as many as asked for. -/
theorem length_predictN_zero {m : GBDT V F} (hne : m.trees ≠ [])
    (h : m.predictN A dv 0 0 dv.length = some out) : out.length = dv.length := by
  unfold GBDT.predictN at h
  rw [if_pos ⟨by omega, le_refl _⟩, if_neg (by simpa using hne)] at h
  have hout := Option.some.inj h
  rw [← hout]
  split_ifs
  · simp
  · simp

/-! ### The samples of an iteration -/

omit [LinearOrder V] in
theorem length_addScaled (shrinkage : V) (preds : List V) (subset : List Nat) (predicted : List V) :
    (addScaled shrinkage preds subset predicted).length = predicted.length := by
  unfold addScaled
  induction subset generalizing predicted with
  | nil => rfl
  | cons i subset ih => rw [List.foldl_cons, ih, List.length_set]

omit [LinearOrder V] in
/-- Each sample gets its own prediction, and only once. -/
theorem getElem?_addScaled (shrinkage : V) (preds : List V) (hnodup : subset.Nodup)
    (predicted : List V) (j : Nat) :
    (addScaled shrinkage preds subset predicted)[j]? =
      if j ∈ subset then predicted[j]?.map (· + preds.getD j 0 * shrinkage)
      else predicted[j]? := by
  unfold addScaled
  induction subset generalizing predicted with
  | nil => simp
  | cons i subset ih =>
    obtain ⟨hi, hnodup⟩ := List.nodup_cons.mp hnodup
    rw [List.foldl_cons, ih hnodup, List.getElem?_set]
    by_cases hij : i = j
    · subst hij
      rw [if_neg hi, if_pos rfl, if_pos (List.mem_cons_self ..)]
      split_ifs with hlt
      · simp [List.getElem?_eq_getElem hlt]
      · rw [List.getElem?_eq_none (by omega)]
        rfl
    · have hji : j ≠ i := fun h => hij h.symm
      simp [hij, hji]

/-- The predictions of the trees so far, and of one more: they are added sample by sample. -/
theorem addTree_eq (hcomm : ∀ a b : V, a * b = b * a) {shrinkage : V} {predicted preds tmp : List V}
    {remaining : List Nat} (hlen : predicted.length = dv.length) (hsubset : IsNode dv.length subset)
    (hremaining : IsNode dv.length remaining) (hdisjoint : ∀ i ∈ subset, i ∉ remaining)
    (hcover : ∀ i < dv.length, i ∈ subset ∨ i ∈ remaining) {pred : Nat → V}
    (hpreds : ∀ i ∈ subset, preds[i]? = some (pred i))
    (htmp : ∀ i ∈ remaining, tmp[i]? = some (pred i)) {tree : DecisionTree V F}
    (htree : tree.predictN A dv (List.range dv.length) = some out)
    (hlength : out.length = dv.length) (hout : ∀ i ∈ List.range dv.length,
      out[i]? = some (pred i)) :
    addTree A shrinkage dv dv.length predicted tree =
      some (addScaled shrinkage tmp remaining (addScaled shrinkage preds subset predicted)) := by
  unfold addTree
  rw [htree]
  rw [Option.some.injEq]
  apply List.ext_getElem?
  intro j
  rw [List.getElem?_zipWith, getElem?_addScaled shrinkage tmp hremaining.nodup,
    getElem?_addScaled shrinkage preds hsubset.nodup]
  by_cases hj : j < dv.length
  · have hpredicted : predicted[j]? = some predicted[j] :=
      List.getElem?_eq_getElem (by omega)
    rw [hout j (List.mem_range.mpr hj), hpredicted]
    by_cases hmem : j ∈ subset
    · simp [(hdisjoint j hmem), hmem, hpreds j hmem, hcomm]
    · have hrest := (hcover j hj).resolve_left hmem
      simp [hrest, hmem, htmp j hrest, hcomm]
  · have hnone : predicted[j]? = none := List.getElem?_eq_none (by omega)
    simp [hnone]

end

section

variable {V F R : Type} [LinearOrder V] [Zero V] [One V] [Add V] [Sub V] [Neg V] [Mul V] [Div V]
  [Zero F] [One F] [Add F] [Sub F] [Mul F] [Div F] [LT F] [DecidableLT F]
  {A : Arith V F} {T : Transcendental V} {sort : UnstableSort V} {shuffler : Shuffler R}
  {dv : List (Data V)}

/-! ### One tree -/

/-- A new target is no new input. -/
theorem sameInputs_target (loss : Loss) {predicted : List V} (hlen : dv.length = predicted.length) :
    SameInputs dv (List.zipWith (loss.target T) dv predicted) := by
  unfold SameInputs
  induction dv generalizing predicted with
  | nil => rfl
  | cons x dv ih =>
    cases predicted with
    | nil => exact absurd hlen (by simp)
    | cons p predicted =>
      have hx : (((loss.target T) x p).feature, ((loss.target T) x p).initialGuess) =
          (x.feature, x.initialGuess) := by
        cases loss <;> rfl
      rw [List.length_cons, List.length_cons, Nat.succ_inj] at hlen
      simp [hx, ih hlen]

omit [Neg V] [Mul V] in
/-- **One tree.** It is trained on some samples; for these the cache has its predictions, and for
    others `predict_n` gives them. -/
theorem fitN_predictions (sort : UnstableSort V) (shuffler : Shuffler R) (conf : Config V F)
    {cache : TrainingCache V F} (hknown : Known A conf.featureSize dv)
    (hbuilt : cache.Built sort dv) (hsize : conf.featureSize = cache.featureSize)
    (hpreds : cache.preds.length = dv.length) {subset : List Nat}
    (hsubset : IsNode dv.length subset) (g : R) :
    ∃ tree cache' g', ∃ pred : Nat → V,
      fitN A sort shuffler conf.tree dv subset cache g = some (tree, cache', g') ∧
      cache'.Built sort dv ∧ cache'.featureSize = cache.featureSize ∧
      cache'.preds.length = dv.length ∧ (∀ i ∈ subset, cache'.preds[i]? = some (pred i)) ∧
      ∀ others, (∀ i ∈ others, i < dv.length) → ∃ out, tree.predictN A dv others = some out ∧
        out.length = dv.length ∧ ∀ i ∈ others, out[i]? = some (pred i) := by
  have hfresh : conf.tree.tree = BinaryTree.new := rfl
  obtain ⟨tree, cache', g', hfit, hstored, hwritten, hbuilt', hsize'⟩ :=
    fitN_fresh A sort shuffler hfresh hbuilt hsize hsubset g
  obtain ⟨ht, hdata⟩ := sound_fitted A sort shuffler conf.tree cache hsubset g
  generalize (fitted A sort shuffler conf.tree dv subset cache g).1 = t at hstored hwritten ht hdata
  have hlt : ∀ i ∈ t.data, i < dv.length := fun i hi => hsubset.lt i (hdata ▸ hi)
  refine ⟨tree, cache', g', fun i => t.route A dv i, hfit, hbuilt', hsize', ?_, ?_, ?_⟩
  · rw [hwritten, length_writes, hpreds]
  · -- nothing is left behind, so every sample of the subset comes to a leaf
    have hnone := leftBehind_eq_nil hknown ht hlt
    have hwrites := (writes_iff ht (by rw [hpreds]; exact hlt)).mpr
      (by rw [hnone]; exact fun d hd => absurd hd List.not_mem_nil)
    rw [hdata] at hwrites
    rw [hwritten]
    exact hwrites
  · intro others hothers
    refine ⟨_, predictN_represents hstored ht (fun x hx => (hknown x hx).1) hothers, ?_, ?_⟩
    · rw [length_foldl_set, List.length_replicate]
    · intro i hi
      rw [getElem?_foldl_set, List.length_replicate, if_pos ⟨hi, hothers i hi⟩]

/-! ### The invariant -/

variable (A sort) in
/-- The variables at the start of the iteration `i`: the trees from `i` on are not trained yet, and
    the kept predictions are those of the trees before. -/
structure Training.Follows (conf : Config V F) (i : Nat) (t : Training V F R) : Prop where
  conf_eq : t.model.conf = conf
  known : Known A conf.featureSize t.trainData
  built : t.cache.Built sort t.trainData
  featureSize_eq : t.cache.featureSize = conf.featureSize
  preds_length : t.cache.preds.length = t.trainData.length
  trees_length : t.model.trees.length = conf.iterations
  fresh : ∀ j, i ≤ j → j < conf.iterations → t.model.trees[j]? = some conf.tree
  predicted_length : t.predictedCache.length = t.trainData.length
  predicted : t.model.predictN A t.trainData 0 i t.trainData.length = some t.predictedCache

variable {conf : Config V F}

omit [Zero F] [One F] [Add F] [Sub F] [Mul F] [Div F] in
/-- Only the output of `AUC` can stop the program. -/
theorem debugOutput_eq_some {predicted : List V} (h : dv.length = predicted.length)
    (hdebug : conf.debug = false ∨ conf.loss ≠ .logLikelyhood) :
    conf.debugOutput A T dv predicted = some () := by
  unfold Config.debugOutput
  split_ifs with hon
  · have hloss : conf.loss ≠ .logLikelyhood := by
      rcases hdebug with hoff | hloss
      · rw [hoff] at hon
        exact absurd hon (by simp)
      · exact hloss
    split
    · next hlog => exact absurd hlog hloss
    · rfl
  · rfl

variable {t : Training V F R}

/-- **One iteration** keeps the invariant. -/
theorem Training.Follows.iterate (hcomm : ∀ a b : V, a * b = b * a) {i : Nat}
    (h : t.Follows A sort conf i) (hi : i < conf.iterations) :
    (∃ t', t.iterate A T sort shuffler i = some t' ∧ t'.Follows A sort conf (i + 1)) ∨
      t.iterate A T sort shuffler i = none ∧ conf.debug = true ∧ conf.loss = .logLikelyhood := by
  obtain ⟨⟨_, trees, bias⟩, trainData, predicted, cache, g⟩ := t
  obtain ⟨rfl, hknown, hbuilt, hfeatures, hpreds, htrees, hfresh, hlen, hpredicted⟩ := h
  rename_i conf
  dsimp only at hknown hbuilt hfeatures hpreds htrees hfresh hlen hpredicted hi ⊢
  unfold Training.iterate
  dsimp only
  generalize hsplit : conf.subsets A shuffler trainData.length g = groups
  obtain ⟨subset, remaining, g₁⟩ := groups
  obtain ⟨hsubset, hremaining, hdisjoint, hcover⟩ := mem_subsets conf trainData.length g hsplit
  -- the samples with their new targets
  have hsame : SameInputs trainData (List.zipWith (conf.loss.target T) trainData predicted) :=
    sameInputs_target conf.loss hlen.symm
  generalize List.zipWith (conf.loss.target T) trainData predicted = dv at hsame
  have hlength := hsame.length
  rw [hlength] at hpreds hlen hsubset hremaining hcover
  cases hdebug : conf.debugOutput A T dv predicted with
  | none =>
    by_cases hoff : conf.debug = false ∨ conf.loss ≠ .logLikelyhood
    · rw [debugOutput_eq_some hlen.symm hoff] at hdebug
      exact absurd hdebug (by simp)
    · rw [not_or, Bool.not_eq_false, not_not] at hoff
      exact Or.inr ⟨rfl, hoff⟩
  | some _ =>
    have hdv := known_congr hsame hknown
    obtain ⟨tree, cache', g', pred, hfit, hbuilt', hsize', hpreds', hcached, hothers⟩ :=
      fitN_predictions sort shuffler conf hdv (built_congr hsame hbuilt) hfeatures.symm hpreds
        hsubset g₁
    obtain ⟨tmp, htmp, -, htmp'⟩ := hothers remaining hremaining.lt
    obtain ⟨out, hout, houtlen, hout'⟩ := hothers (List.range dv.length)
      fun i hi => List.mem_range.mp hi
    have htree : trees[i]? = some conf.tree := hfresh i (le_refl i) hi
    rw [htree, Option.bind_some, hfit]
    dsimp only
    rw [htmp]
    refine Or.inl ⟨_, rfl, rfl, hdv, hbuilt', hsize'.trans hfeatures, hpreds', ?_, ?_, ?_, ?_⟩
    · simp [htrees]
    · intro j hj hlt
      rw [List.getElem?_set_ne (by omega)]
      exact hfresh j (by omega) hlt
    · simp [length_addScaled, hlen]
    · rw [hlength, GBDT.predictN_congr hsame] at hpredicted
      have hnext := GBDT.predictN_succ (by dsimp only; omega) hpredicted tree
      rw [hnext]
      exact addTree_eq hcomm hlen hsubset hremaining hdisjoint hcover hcached htmp' hout houtlen hout'

omit [Neg V] [Mul V] [Sub F] in
/-- `init` checks the data and sets the bias. -/
theorem init_ok {m m' : GBDT V F} (h : m.init A T dv = some m') :
    m'.conf = m.conf ∧ m'.trees = m.trees ∧ ∀ x ∈ dv, x.feature.length = m.conf.featureSize := by
  unfold GBDT.init at h
  split_ifs at h with hvalid hguess
  · have hlength : ∀ x ∈ dv, x.feature.length = m.conf.featureSize := by
      simpa [GBDT.checkValidData] using hvalid
    rw [Option.some.injEq] at h
    subst h
    exact ⟨rfl, rfl, hlength⟩
  · have hlength : ∀ x ∈ dv, x.feature.length = m.conf.featureSize := by
      simpa [GBDT.checkValidData] using hvalid
    have hbias : ∃ bias, m' = { m with bias := bias } := by
      split at h
      · exact ⟨_, (Option.some.inj h).symm⟩
      · obtain ⟨bias, -, hbias⟩ := Option.map_eq_some_iff.mp h
        exact ⟨bias, hbias.symm⟩
      · exact ⟨_, (Option.some.inj h).symm⟩
    obtain ⟨bias, rfl⟩ := hbias
    exact ⟨rfl, rfl, hlength⟩

omit [Neg V] [Sub F] in
/-- The invariant holds before the first iteration. -/
theorem follows_start {m : GBDT V F} (hknown : ∀ x ∈ dv, ∀ v ∈ x.feature, v ≠ A.unknown) {g : R}
    (ht : m.start A T sort dv g = some t) (hpos : 0 < m.conf.iterations) :
    t.Follows A sort m.conf 0 := by
  unfold GBDT.start at ht
  dsimp only at ht
  split at ht
  · exact absurd ht (by simp)
  · rename_i m' hinit
    obtain ⟨hconf, htrees, hvalid⟩ := init_ok hinit
    split at ht
    · exact absurd ht (by simp)
    · rename_i predicted hpredicted
      have hne : m'.trees ≠ [] := by
        rw [htrees]
        exact List.ne_nil_of_length_pos (by rw [List.length_replicate]; exact hpos)
      rw [Option.some.injEq] at ht
      subst ht
      refine ⟨hconf, fun x hx => ⟨le_of_eq (hvalid x hx).symm, hknown x hx⟩,
        built_getCache sort A _ _ _, ?_, List.length_replicate, ?_, ?_,
        length_predictN_zero hne hpredicted, hpredicted⟩
      · show m'.conf.featureSize = m.conf.featureSize
        rw [hconf]
      · simp [htrees]
      · intro j _ hj
        simp [htrees, hj]

/-- **The iterations so far** keep the invariant. -/
theorem Training.Follows.run (hcomm : ∀ a b : V, a * b = b * a) (h : t.Follows A sort conf 0)
    {i : Nat} (hi : i ≤ conf.iterations) :
    (∃ t', t.run A T sort shuffler i = some t' ∧ t'.Follows A sort conf i) ∨
      t.run A T sort shuffler i = none ∧ conf.debug = true ∧ conf.loss = .logLikelyhood := by
  induction i with
  | zero => exact Or.inl ⟨t, rfl, h⟩
  | succ i ih =>
    rw [Training.run]
    rcases ih (by omega) with ⟨t', ht', hfollows⟩ | ⟨hnone, hstop⟩
    · rw [ht', Option.bind_some]
      exact hfollows.iterate hcomm hi
    · rw [hnone]
      exact Or.inr ⟨rfl, hstop⟩

/-- **The boosting invariant.** At the start of every iteration that is reached, the kept
    predictions are those of the trees that have been trained; and every iteration is reached,
    unless the output for debugging stops the program. -/
theorem boosting_invariant (A : Arith V F) (T : Transcendental V) (sort : UnstableSort V)
    (shuffler : Shuffler R) (hcomm : ∀ a b : V, a * b = b * a) (m : GBDT V F)
    (trainData : List (Data V)) (hknown : ∀ x ∈ trainData, ∀ v ∈ x.feature, v ≠ A.unknown) (g : R)
    (i : Nat) (hi : i < m.conf.iterations) :
    (∀ t, m.stateAt A T sort shuffler trainData g i = some t →
      t.model.predictN A t.trainData 0 i t.trainData.length = some t.predictedCache) ∧
    ((m.start A T sort trainData g).isSome → m.conf.debug = false ∨ m.conf.loss ≠ .logLikelyhood →
      (m.stateAt A T sort shuffler trainData g i).isSome) := by
  unfold GBDT.stateAt
  cases hstart : m.start A T sort trainData g with
  | none => exact ⟨fun t ht => absurd ht (by simp), fun h => absurd h (by simp)⟩
  | some t₀ =>
    have hfollows := follows_start hknown hstart (by omega)
    rw [Option.bind_some]
    rcases hfollows.run hcomm (le_of_lt hi) with ⟨t', ht', hinv⟩ | ⟨hnone, hdebug, hloss⟩
    · rw [ht']
      refine ⟨fun t ht => ?_, fun _ _ => rfl⟩
      obtain rfl := Option.some.inj ht
      exact hinv.predicted
    · rw [hnone]
      refine ⟨fun t ht => absurd ht (by simp), fun _ hoff => ?_⟩
      rcases hoff with hoff | hoff
      · rw [hdebug] at hoff
        exact absurd hoff (by simp)
      · exact absurd hloss hoff

end

/-- A model with two iterations, each on two of the samples. -/
def halfModel : GBDT ℚ ℚ where
  conf :=
    { featureSize := 1
      maxDepth := 1
      iterations := 2
      shrinkage := 1 / 2
      featureSampleRatio := 1
      dataSampleRatio := 2 / 3
      minLeafSize := 1
      loss := .squaredError
      debug := false
      initialGuessEnabled := false
      trainingOptimizationLevel := 2 }
  trees := []
  bias := 0

/-- The samples of `threeSamples`. After the first tree, half of the difference between the labels
    and their mean is left for two samples, and the third one has the prediction of the tree. -/
theorem boosting_invariant_half :
    (∀ t, halfModel.stateAt Arith.rat ⟨id, id⟩ UnstableSort.stable Shuffler.still
        threeSamples.samples () 1 = some t →
      t.model.predictN Arith.rat t.trainData 0 1 t.trainData.length = some t.predictedCache) ∧
    (halfModel.stateAt Arith.rat ⟨id, id⟩ UnstableSort.stable Shuffler.still
      threeSamples.samples () 1).map Training.predictedCache = some [5 / 3, 25 / 6, 25 / 6] := by
  refine ⟨(boosting_invariant Arith.rat ⟨id,
    id⟩ UnstableSort.stable Shuffler.still mul_comm halfModel
    threeSamples.samples (by decide +kernel) () 1 (by decide)).1, ?_⟩
  decide +kernel

end TeaclaveCrates.Gbdt
