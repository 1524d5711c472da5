import TeaclaveCrates.Gbdt.BinaryTree
import TeaclaveCrates.Gbdt.TrainingCache

namespace TeaclaveCrates.Gbdt

/-!
# Decision trees

`DecisionTree::fit_n` builds a tree from the samples of a subset: a node is split at the threshold
of a feature with the least impurity, and samples in which that feature is unknown are left behind.
`predict_one` walks down the finished tree.

* `calculatePred` — the prediction of a node, for each loss.
* `getImpurity`, `split` — the best threshold of a feature, and of all features.
* `fitNode`, `fitN` — the recursion.
* `predictOne`, `predictN` — the prediction for a sample.
-/

/-- The value at a node: how it is split, and its prediction. -/
structure DTNode (V : Type) where
  featureIndex : Nat
  featureValue : V
  pred : V
  missing : Int
  isLeaf : Bool
  deriving DecidableEq, Repr

/-- `DTNode::new` -/
def DTNode.new {V : Type} [Zero V] : DTNode V := ⟨0, 0, 0, 0, false⟩

/-- A decision tree with its parameters. -/
structure DecisionTree (V F : Type) where
  tree : BinaryTree (DTNode V)
  featureSize : Nat
  maxDepth : Nat
  minLeafSize : Nat
  loss : Loss
  featureSampleRatio : F

/-- `DecisionTree::new` -/
def DecisionTree.new {V F : Type} [One F] : DecisionTree V F :=
  ⟨BinaryTree.new, 1, 2, 1, .squaredError, 1⟩

section

variable {V F : Type} [LinearOrder V] [Zero V] [One V] [Add V] [Sub V] [Div V]
  [Zero F] [One F] [Add F] [Sub F] [Mul F] [Div F] [LT F] [DecidableLT F]
  (A : Arith V F)

/-! ### Sums -/

/-- The sums with nothing in them. -/
def CacheValue.zero : CacheValue F := ⟨0, 0, 0⟩

/-- `+=` on the three sums -/
def CacheValue.add (a b : CacheValue F) : CacheValue F := ⟨a.s + b.s, a.ss + b.ss, a.c + b.c⟩

/-- `-=` on the three sums -/
def CacheValue.sub (a b : CacheValue F) : CacheValue F := ⟨a.s - b.s, a.ss - b.ss, a.c - b.c⟩

/-- `cache.cache_value[index]` -/
def TrainingCache.valueAt (cache : TrainingCache V F) (index : Nat) : CacheValue F :=
  cache.cacheValue.getD index CacheValue.zero

/-- The sums over some samples, added up in their order. -/
def sums (valueAt : Nat → CacheValue F) (data : List Nat) : CacheValue F :=
  data.foldl (fun acc index => acc.add (valueAt index)) CacheValue.zero

/-! ### The prediction of a node -/

/-- `average` -/
def average (data : List Nat) (cache : TrainingCache V F) : V :=
  let sum := data.foldl (fun acc index => acc + (cache.valueAt index).s) 0
  let weight := data.foldl (fun acc index => acc + (cache.valueAt index).c) 0
  if A.absF weight < A.tiny then 0 else A.asValue (sum / weight)

/-- `logit_optimal_value` -/
def logitOptimalValue (data : List Nat) (cache : TrainingCache V F) : V :=
  let s := data.foldl (fun acc index => acc + (cache.valueAt index).s) 0
  let c := data.foldl (fun acc index => acc + A.ofValue (cache.logitC.getD index 0)) 0
  if A.absF c < A.tiny then 0 else A.asValue (s / c)

/-- The loop of `lad_optimal_value`, with the pair in front of the rest. -/
def ladLoop (valueAt : Nat → CacheValue F) (allWeight : F) :
    Option (Nat × V) → F → List (Nat × V) → F
  | _, _, [] => 0
  | prev, weight, pair :: rest =>
    let weight := weight + (valueAt pair.1).c
    if allWeight < weight * (1 + 1) then
      match prev with
      | some before => A.ofValue ((pair.2 + before.2) / (1 + 1))
      | none => A.ofValue pair.2
    else ladLoop valueAt allWeight (some pair) weight rest

/-- `lad_optimal_value`, on the samples in the order of their residuals. -/
def ladOptimalValue (sortedData : List (Nat × V)) (cache : TrainingCache V F) : V :=
  let allWeight := sortedData.foldl (fun acc x => acc + (cache.valueAt x.1).c) 0
  A.asValue (ladLoop A cache.valueAt allWeight none 0 sortedData)

/-- `calculate_pred` -/
def calculatePred (data : List Nat) (loss : Loss) (cache : TrainingCache V F) (sub : SubCache V) :
    V :=
  match loss with
  | .squaredError => average A data cache
  | .logLikelyhood => logitOptimalValue A data cache
  | .lad => ladOptimalValue A (cache.sortWithCache 0 true data sub) cache
  | _ => average A data cache

/-- `same` -/
def same (iv : List Nat) (cache : TrainingCache V F) : Bool :=
  match iv with
  | [] => false
  | i :: rest =>
    rest.all fun j => A.almostEqual (cache.cacheTarget.getD i 0) (cache.cacheTarget.getD j 0)

/-! ### Splitting a node -/

/-- The impurity of some samples with the given sums. -/
def fitness (sum : CacheValue F) : F :=
  let f := if 1 < sum.c then sum.ss - sum.s * sum.s / sum.c else 0
  if f < 0 then 0 else f

/-- The loop of `get_impurity` over neighbours: the sums on both sides of the threshold, and the
    least impurity with its threshold so far. -/
def impurityLoop (valueAt : Nat → CacheValue F) (fitness0 : F) :
    CacheValue F → CacheValue F → F → V → List (Nat × V) → F × V
  | l, r, impurity, value, a :: b :: rest =>
    let cv := valueAt a.1
    let l := l.add cv
    let r := r.sub cv
    if A.almostEqual a.2 b.2 then impurityLoop valueAt fitness0 l r impurity value (b :: rest)
    else
      let fitness := fitness0 + fitness l + fitness r
      if fitness < impurity then
        impurityLoop valueAt fitness0 l r fitness ((a.2 + b.2) / (1 + 1)) (b :: rest)
      else impurityLoop valueAt fitness0 l r impurity value (b :: rest)
  | _, _, impurity, value, _ => (impurity, value)

/-- `get_impurity`, on the samples in the order of the feature: the impurity and the threshold. -/
def getImpurity (trainData : List Nat) (sortedData : List (Nat × V)) (valueAt : Nat → CacheValue F) :
    F × V :=
  let unknown := sortedData.takeWhile fun pair => pair.2 = A.unknown
  if unknown.length = sortedData.length then (A.maxF, A.unknown)
  else
    let unknownSum := sums valueAt (unknown.map Prod.fst)
    let rest := (sums valueAt trainData).sub unknownSum
    impurityLoop A valueAt (fitness unknownSum) CacheValue.zero rest A.maxF A.unknown
      (sortedData.drop unknown.length)

/-- A threshold of a feature, with the samples that it is found for. -/
structure Candidate (V : Type) where
  index : Nat
  value : V
  sorted : List (Nat × V)

/-- The loop of `split` over the features: the best candidate so far, with its impurity. The samples
    of the node are given in the order of each feature. -/
def bestLoop (trainData : List Nat) (valueAt : Nat → CacheValue F) (sorted : Nat → List (Nat × V)) :
    F → Option (Candidate V) → List Nat → Option (Candidate V)
  | _, best, [] => best
  | bestFitness, best, i :: features =>
    let (impurity, v) := getImpurity A trainData (sorted i) valueAt
    if impurity < bestFitness then
      bestLoop trainData valueAt sorted impurity (some ⟨i, v, sorted i⟩) features
    else bestLoop trainData valueAt sorted bestFitness best features

/-- The samples of a node in three groups, with the feature and the threshold. -/
structure Cut (V : Type) where
  left : List Nat
  right : List Nat
  unknown : List Nat
  featureIndex : Nat
  featureValue : V
  deriving DecidableEq, Repr

/-- The samples of a candidate whose value passes a test, in the order of the feature. -/
def Candidate.group (best : Candidate V) (p : V → Bool) : List Nat :=
  (best.sorted.filter fun pair => p pair.2).map Prod.fst

/-- The groups of a candidate. -/
def Candidate.cut (best : Candidate V) : Cut V where
  left := best.group fun v => !decide (v = A.unknown) && decide (v < best.value)
  right := best.group fun v => !decide (v = A.unknown) && !decide (v < best.value)
  unknown := best.group fun v => decide (v = A.unknown)
  featureIndex := best.index
  featureValue := best.value

/-- The features that `split` looks at. -/
def chooseFeatures {R : Type} (shuffler : Shuffler R) (featureSize : Nat) (ratio : F) (g : R) :
    List Nat × R :=
  if ratio < 1 then
    let (fv, g) := shuffler.run (List.range featureSize) g
    (fv.take (A.asUsize (ratio * A.ofUsize featureSize)), g)
  else (List.range featureSize, g)

/-- The body of `split`: `none` when no threshold is found, or when two of the groups are empty. -/
def splitBy {R : Type} (shuffler : Shuffler R) (trainData : List Nat) (featureSize : Nat)
    (ratio : F) (valueAt : Nat → CacheValue F) (sorted : Nat → List (Nat × V)) (g : R) :
    Option (Cut V) × R :=
  let (features, g) := chooseFeatures A shuffler featureSize ratio g
  match bestLoop A trainData valueAt sorted A.maxF none features with
  | none => (none, g)
  | some best =>
    let cut := best.cut A
    let count := [cut.left, cut.right, cut.unknown].countP List.isEmpty
    if 2 ≤ count then (none, g) else (some cut, g)

/-- `split`, with the samples sorted by the caches. -/
def split {R : Type} (shuffler : Shuffler R) (trainData : List Nat) (featureSize : Nat) (ratio : F)
    (cache : TrainingCache V F) (sub : SubCache V) (g : R) : Option (Cut V) × R :=
  splitBy A shuffler trainData featureSize ratio cache.valueAt
    (fun i => cache.sortWithBoolVec i false (boolVec cache.sampleSize trainData) trainData.length
      sub) g

/-! ### Building a tree -/

/-- Writes the prediction of a leaf for its samples. -/
def TrainingCache.writePreds (cache : TrainingCache V F) (data : List Nat) (pred : V) :
    TrainingCache V F :=
  { cache with preds := data.foldl (fun preds index => preds.set index pred) cache.preds }

/-- A node that becomes a leaf. -/
def makeLeaf (tree : BinaryTree (DTNode V)) (node : Nat) (pred : V) : BinaryTree (DTNode V) :=
  tree.updateNode node fun n => { n with value := { n.value with pred := pred, isLeaf := true } }

variable {R : Type}

/-- `fit_node`, with the number of levels that are left (`max_depth - depth`). -/
def fitNode (shuffler : Shuffler R) (dt : DecisionTree V F) :
    Nat → BinaryTree (DTNode V) → Nat → List Nat → TrainingCache V F → SubCache V → R →
      BinaryTree (DTNode V) × TrainingCache V F × R
  | 0, tree, node, trainData, cache, sub, g =>
    let pred := calculatePred A trainData dt.loss cache sub
    (makeLeaf tree node pred, cache.writePreds trainData pred, g)
  | levels + 1, tree, node, trainData, cache, sub, g =>
    let pred := calculatePred A trainData dt.loss cache sub
    if same A trainData cache || decide (trainData.length ≤ dt.minLeafSize) then
      (makeLeaf tree node pred, cache.writePreds trainData pred, g)
    else
      match split A shuffler trainData dt.featureSize dt.featureSampleRatio cache sub g with
      | (none, g) => (makeLeaf tree node pred, cache.writePreds trainData pred, g)
      | (some cut, g) =>
        let tree := tree.updateNode node fun n =>
          { n with value := { n.value with
              pred := pred, featureIndex := cut.featureIndex, featureValue := cut.featureValue } }
        let (leftSub, rightSub) := sub.splitCache cut.left cut.right cache
        let (tree, leftIndex) := tree.addLeftNode node (BinaryTreeNode.new DTNode.new)
        let (tree, cache, g) := fitNode shuffler dt levels tree leftIndex cut.left cache leftSub g
        let (tree, rightIndex) := tree.addRightNode node (BinaryTreeNode.new DTNode.new)
        fitNode shuffler dt levels tree rightIndex cut.right cache rightSub g

/-- `fit_n`. The code stops when the sizes of the features differ. -/
def fitN (sort : UnstableSort V) (shuffler : Shuffler R) (dt : DecisionTree V F)
    (trainData : List (Data V)) (subset : List Nat) (cache : TrainingCache V F) (g : R) :
    Option (DecisionTree V F × TrainingCache V F × R) :=
  if dt.featureSize = cache.featureSize then
    let cache := cache.initOneIteration A sort trainData dt.loss
    let (tree, root) := dt.tree.addRoot (BinaryTreeNode.new DTNode.new)
    let sub := SubCache.getCacheFromTrainingCache sort cache trainData dt.loss
    let (tree, cache, g) := fitNode A shuffler dt dt.maxDepth tree root subset cache sub g
    some ({ dt with tree := tree }, cache, g)
  else none

/-! ### Prediction -/

/-- Where `predict_one` goes from a node: it stops there, or takes the left or the right child. -/
inductive Turn
  | stop
  | left
  | right
  deriving DecidableEq, Repr

/-- The turn at a node. The code stops with an error when the sample has no such feature. -/
def turn (value : DTNode V) (sample : Data V) : Option Turn :=
  if value.isLeaf then some .stop
  else
    match sample.feature[value.featureIndex]? with
    | none => none
    | some v =>
      if v = A.unknown then
        if value.missing = -1 then some .left
        else if value.missing = 0 then some .stop
        else some .right
      else if v < value.featureValue then some .left
      else some .right

/-- `predict_one`. A walk down a tree ends after at most as many steps as there are nodes; `none`
    stands for a walk that goes on, and for an error. -/
def predictOne (tree : BinaryTree (DTNode V)) :
    Nat → BinaryTreeNode (DTNode V) → Data V → Option V
  | 0, _, _ => none
  | fuel + 1, node, sample =>
    match turn A node.value sample with
    | none => none
    | some .stop => some node.value.pred
    | some .left =>
      match tree.getLeftChild node with
      | none => none
      | some left => predictOne tree fuel left sample
    | some .right =>
      match tree.getRightChild node with
      | none => none
      | some right => predictOne tree fuel right sample

/-- A prediction from the root. -/
def DecisionTree.predictRoot (dt : DecisionTree V F) (sample : Data V) : Option V :=
  match dt.tree.getNode 0 with
  | none => none
  | some root => predictOne A dt.tree dt.tree.len root sample

/-- The loop of `predict_n`. -/
def DecisionTree.predictLoop (dt : DecisionTree V F) (testData : List (Data V)) :
    List V → List Nat → Option (List V)
  | ret, [] => some ret
  | ret, index :: subset =>
    match testData[index]?.bind (dt.predictRoot A) with
    | none => none
    | some v => dt.predictLoop testData (ret.set index v) subset

/-- `predict_n` -/
def DecisionTree.predictN (dt : DecisionTree V F) (testData : List (Data V)) (subset : List Nat) :
    Option (List V) :=
  match dt.tree.getNode 0 with
  | none => none
  | some _ => dt.predictLoop A testData (List.replicate testData.length 0) subset

end

end TeaclaveCrates.Gbdt
