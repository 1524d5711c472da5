import TeaclaveCrates.Gbdt.DecisionTree

namespace TeaclaveCrates.Gbdt

/-!
# How a tree grows

A tree as a value, grown from the samples of a node, without the vector that it is stored in and
without the caches. `fit_node` is shown to write that tree, whatever the optimisation level is.

* `Learner`, `Learner.grow` — growing a tree from the prediction and the cut of a node.
* `Grown` — the tree, each node with its samples.
* `learner` — the learner of a training set.
* `IsCut`, `isCut_cut` — what a cut does to the samples of a node.
* `fitNode_eq` — `fit_node` writes the grown tree.
* `fitN_eq`, `fitN_levels` — `fit_n`, and that its result is the same at all levels.
-/

/-! ### Trees and learners -/

/-- What is done at a node, by its samples. -/
structure Learner (V R : Type) where
  pred : List Nat → V
  stops : List Nat → Bool
  cut : List Nat → R → Option (Cut V) × R

/-- A tree with the samples at each node. -/
inductive Grown (V : Type) where
  | leaf (data : List Nat) (pred : V)
  | node (data : List Nat) (pred : V) (cut : Cut V) (left right : Grown V)

namespace Grown

variable {V : Type} [Zero V]

/-- The tree as it is stored. -/
def shape : Grown V → Shape (DTNode V)
  | leaf _ pred => .leaf ⟨0, 0, pred, 0, true⟩
  | node _ pred cut left right =>
    .node ⟨cut.featureIndex, cut.featureValue, pred, 0, false⟩ left.shape right.shape

/-- The predictions that the leaves write. -/
def writes {V : Type} : Grown V → List V → List V
  | leaf data pred, preds => data.foldl (fun preds index => preds.set index pred) preds
  | node _ _ _ left right, preds => right.writes (left.writes preds)

end Grown

/-- Grows a tree with a number of levels. -/
def Learner.grow {V R : Type} (L : Learner V R) : Nat → List Nat → R → Grown V × R
  | 0, data, g => (.leaf data (L.pred data), g)
  | levels + 1, data, g =>
    if L.stops data then (.leaf data (L.pred data), g)
    else
      match L.cut data g with
      | (none, g) => (.leaf data (L.pred data), g)
      | (some cut, g) =>
        let (left, g) := L.grow levels cut.left g
        let (right, g) := L.grow levels cut.right g
        (.node data (L.pred data) cut left right, g)

/-! ### What a cut does -/

section

variable {V F : Type} [LinearOrder V] [Zero V] (A : Arith V F) (sort : UnstableSort V)

/-- The value of a feature of a sample of the set. -/
def sampleValue (samples : List (Data V)) (feature i : Nat) : V :=
  ((samples[i]?).map fun x => x.value feature).getD 0

/-- The three groups of a cut, by the value of the feature that the node is cut at. -/
structure IsCut (samples : List (Data V)) (featureSize : Nat) (data : List Nat) (cut : Cut V) :
    Prop where
  feature_lt : cut.featureIndex < featureSize
  left : ∀ i, i ∈ cut.left ↔ i ∈ data ∧
    sampleValue samples cut.featureIndex i ≠ A.unknown ∧
      sampleValue samples cut.featureIndex i < cut.featureValue
  right : ∀ i, i ∈ cut.right ↔ i ∈ data ∧
    sampleValue samples cut.featureIndex i ≠ A.unknown ∧
      ¬sampleValue samples cut.featureIndex i < cut.featureValue
  unknown : ∀ i, i ∈ cut.unknown ↔ i ∈ data ∧
    sampleValue samples cut.featureIndex i = A.unknown
  left_nodup : cut.left.Nodup
  right_nodup : cut.right.Nodup
  unknown_nodup : cut.unknown.Nodup
  two : [cut.left, cut.right, cut.unknown].countP List.isEmpty < 2

variable {A sort}

/-- The pairs of an order are the samples with their values. -/
theorem mem_featureOrder (samples : List (Data V)) (feature : Nat) (pair : Nat × V) :
    pair ∈ featureOrder sort samples feature ↔
      pair.1 < samples.length ∧ pair.2 = sampleValue samples feature pair.1 := by
  unfold featureOrder
  rw [(sort.perm _).mem_iff, List.mem_mapIdx]
  obtain ⟨i, v⟩ := pair
  constructor
  · rintro ⟨j, hj, heq⟩
    obtain ⟨rfl, rfl⟩ := heq
    refine ⟨hj, ?_⟩
    simp [sampleValue, List.getElem?_eq_getElem hj]
  · rintro ⟨hi, hv⟩
    refine ⟨i, hi, ?_⟩
    dsimp only at hi hv
    simp [hv, sampleValue, List.getElem?_eq_getElem hi]

/-- A group of the samples of a node, by a test of the value. -/
theorem mem_group {samples : List (Data V)} {data : List Nat} (hdata : IsNode samples.length data)
    {c : Candidate V} (hsorted : c.sorted = only data (featureOrder sort samples c.index))
    (p : V → Bool) (i : Nat) :
    i ∈ c.group p ↔ i ∈ data ∧ p (sampleValue samples c.index i) = true := by
  unfold Candidate.group only at *
  rw [List.mem_map, hsorted]
  constructor
  · rintro ⟨pair, hpair, rfl⟩
    obtain ⟨hmem, hp⟩ := List.mem_filter.mp hpair
    obtain ⟨horder, hin⟩ := List.mem_filter.mp hmem
    rw [((mem_featureOrder samples c.index pair).mp horder).2] at hp
    exact ⟨of_decide_eq_true hin, hp⟩
  · rintro ⟨hi, hp⟩
    refine ⟨(i, sampleValue samples c.index i), ?_, rfl⟩
    refine List.mem_filter.mpr ⟨List.mem_filter.mpr ⟨?_, decide_eq_true hi⟩, hp⟩
    exact (mem_featureOrder samples c.index _).mpr ⟨hdata.lt i hi, rfl⟩

theorem nodup_group {samples : List (Data V)} {data : List Nat} {c : Candidate V}
    (hsorted : c.sorted = only data (featureOrder sort samples c.index)) (p : V → Bool) :
    (c.group p).Nodup := by
  have horder : IsOrder samples.length (featureOrder sort samples c.index) :=
    isOrder_run sort samples _
  unfold Candidate.group
  rw [hsorted]
  exact horder.nodup.sublist ((List.filter_sublist.trans List.filter_sublist).map Prod.fst)


variable {best : Candidate V}

/-- The samples on the left of a candidate. -/
theorem mem_cut_left {samples : List (Data V)} {data : List Nat}
    (hdata : IsNode samples.length data)
    (hsorted : best.sorted = only data (featureOrder sort samples best.index)) (i : Nat) :
    i ∈ (best.cut A).left ↔ i ∈ data ∧ sampleValue samples best.index i ≠ A.unknown ∧
      sampleValue samples best.index i < best.value := by
  simp [Candidate.cut, mem_group hdata hsorted]

/-- The samples on the right of a candidate. -/
theorem mem_cut_right {samples : List (Data V)} {data : List Nat}
    (hdata : IsNode samples.length data)
    (hsorted : best.sorted = only data (featureOrder sort samples best.index)) (i : Nat) :
    i ∈ (best.cut A).right ↔ i ∈ data ∧ sampleValue samples best.index i ≠ A.unknown ∧
      ¬sampleValue samples best.index i < best.value := by
  simp [Candidate.cut, mem_group hdata hsorted]

variable {featureSize : Nat}

/-- The groups of a candidate, when two of them are not empty. -/
theorem isCut_cut {samples : List (Data V)} {data : List Nat} (hdata : IsNode samples.length data)
    (hindex : best.index < featureSize)
    (hsorted : best.sorted = only data (featureOrder sort samples best.index))
    (hcount : [(best.cut A).left, (best.cut A).right, (best.cut A).unknown].countP
      List.isEmpty < 2) : IsCut A samples featureSize data (best.cut A) := by
  have hnodup : ∀ p, (best.group p).Nodup := nodup_group hsorted
  refine ⟨hindex, mem_cut_left hdata hsorted, mem_cut_right hdata hsorted, fun i => ?_, ?_, ?_, ?_,
    hcount⟩
  · simp [Candidate.cut, mem_group hdata hsorted]
  · exact hnodup fun v => !decide (v = A.unknown) && decide (v < best.value)
  · exact hnodup fun v => !decide (v = A.unknown) && !decide (v < best.value)
  · exact hnodup fun v => decide (v = A.unknown)
variable {cut : Cut V}

/-- The children of a node are nodes, without a sample in common. -/
theorem IsCut.isNode_left {samples : List (Data V)} {data : List Nat}
    (h : IsCut A samples featureSize data cut) (hdata : IsNode samples.length data) :
    IsNode samples.length cut.left :=
  ⟨h.left_nodup, fun i hi => hdata.lt i ((h.left i).mp hi).1⟩

theorem IsCut.isNode_right {samples : List (Data V)} {data : List Nat}
    (h : IsCut A samples featureSize data cut) (hdata : IsNode samples.length data) :
    IsNode samples.length cut.right :=
  ⟨h.right_nodup, fun i hi => hdata.lt i ((h.right i).mp hi).1⟩

theorem IsCut.not_mem_left {samples : List (Data V)} {data : List Nat}
    (h : IsCut A samples featureSize data cut) {i : Nat} (hi : i ∈ cut.right) :
    i ∉ cut.left :=
  fun hl => ((h.right i).mp hi).2.2 ((h.left i).mp hl).2.2

end

theorem mem_chooseFeatures {V F R : Type} [One F] [Mul F] [LT F] [DecidableLT F] {A : Arith V F}
    {shuffler : Shuffler R} {featureSize : Nat} {ratio : F} {g : R} {f : Nat}
    (h : f ∈ (chooseFeatures A shuffler featureSize ratio g).1) : f < featureSize := by
  unfold chooseFeatures at h
  split_ifs at h
  · exact List.mem_range.mp ((shuffler.perm _ _).mem_iff.mp (List.mem_of_mem_take h))
  · exact List.mem_range.mp h

theorem updateNode_congr {T : Type} {tree : BinaryTree T} {k : Nat} {n : BinaryTreeNode T}
    (hnode : tree.getNode k = some n)
    {f : BinaryTreeNode T → BinaryTreeNode T} (f' : BinaryTreeNode T → BinaryTreeNode T)
    (h : f n = f' n) :
    tree.updateNode k f = tree.updateNode k f' := by
  unfold BinaryTree.updateNode
  unfold BinaryTree.getNode at hnode
  congr 1
  apply List.ext_getElem?
  intro i
  rw [List.getElem?_modify, List.getElem?_modify]
  by_cases hik : k = i
  · subst hik
    simp [hnode, h]
  · simp [hik]

/-- A new node that becomes a leaf. -/
theorem makeLeaf_eq {V : Type} [Zero V] {tree : BinaryTree (DTNode V)} {k : Nat}
    {n : BinaryTreeNode (DTNode V)} (hnode : tree.getNode k = some n) (hnew : n.value = DTNode.new)
    (data : List Nat) (pred : V) :
    makeLeaf tree k pred =
      BinaryTree.install DTNode.new tree k (Grown.leaf data pred).shape := by
  apply updateNode_congr hnode
  rw [hnew]
  rfl

section

variable {V F R : Type} [LinearOrder V] [Zero V] [One V] [Add V] [Sub V] [Div V]
  [Zero F] [One F] [Add F] [Sub F] [Mul F] [Div F] [LT F] [DecidableLT F]
  (A : Arith V F) (sort : UnstableSort V) (shuffler : Shuffler R)

/-- The learner of a training set. Of the cache it uses nothing that depends on the level. -/
def learner (dt : DecisionTree V F) (samples : List (Data V)) (cache : TrainingCache V F) :
    Learner V R where
  pred data :=
    match dt.loss with
    | .squaredError => average A data cache
    | .logLikelyhood => logitOptimalValue A data cache
    | .lad => ladOptimalValue A (only data (TrainingCache.cacheResidual sort samples)) cache
    | _ => average A data cache
  stops data := same A data cache || decide (data.length ≤ dt.minLeafSize)
  cut data g :=
    splitBy A shuffler data dt.featureSize dt.featureSampleRatio cache.valueAt
      (fun i => only data (featureOrder sort samples i)) g

/-! ### Which cut is made -/

variable {A sort shuffler}

variable {sorted : Nat → List (Nat × V)} {valueAt : Nat → CacheValue F}

omit [Zero V] in
/-- The best candidate is one of the features, with its samples. -/
theorem bestLoop_cases {data : List Nat} {bestFitness : F} {best : Option (Candidate V)}
    {features : List Nat} {c : Candidate V}
    (h : bestLoop A data valueAt sorted bestFitness best features = some c) :
    best = some c ∨ c.index ∈ features ∧ c.sorted = sorted c.index := by
  induction features generalizing bestFitness best with
  | nil => exact Or.inl h
  | cons i features ih =>
    rw [bestLoop] at h
    dsimp only at h
    split_ifs at h
    · rcases ih h with hbest | ⟨hmem, hsorted⟩
      · rw [Option.some.injEq] at hbest
        subst hbest
        exact Or.inr ⟨List.mem_cons_self .., rfl⟩
      · exact Or.inr ⟨List.mem_cons_of_mem _ hmem, hsorted⟩
    · rcases ih h with hbest | ⟨hmem, hsorted⟩
      · exact Or.inl hbest
      · exact Or.inr ⟨List.mem_cons_of_mem _ hmem, hsorted⟩

variable {sorted' : Nat → List (Nat × V)}

omit [Zero V] in
/-- Only the orders of the features that are looked at matter. -/
theorem bestLoop_congr {data : List Nat} {features : List Nat}
    (h : ∀ f ∈ features, sorted f = sorted' f) (bestFitness : F) (best : Option (Candidate V)) :
    bestLoop A data valueAt sorted bestFitness best features =
      bestLoop A data valueAt sorted' bestFitness best features := by
  induction features generalizing bestFitness best with
  | nil => rfl
  | cons i features ih =>
    have hrest := ih fun f hf => h f (List.mem_cons_of_mem _ hf)
    simp [bestLoop, h i (List.mem_cons_self ..), hrest]

omit [Zero V] in
theorem splitBy_congr {data : List Nat} {featureSize : Nat}
    (h : ∀ f < featureSize, sorted f = sorted' f) (ratio : F) (g : R) :
    splitBy A shuffler data featureSize ratio valueAt sorted g =
      splitBy A shuffler data featureSize ratio valueAt sorted' g := by
  unfold splitBy
  have hmem : ∀ f ∈ (chooseFeatures A shuffler featureSize ratio g).1, f < featureSize :=
    fun f hf => mem_chooseFeatures hf
  generalize chooseFeatures A shuffler featureSize ratio g = chosen at hmem ⊢
  simp [bestLoop_congr fun f hf => h f (hmem f hf)]

/-- **A cut sorts the samples of a node** by the value of one feature. -/
theorem isCut_splitBy {samples : List (Data V)} {data : List Nat}
    (hdata : IsNode samples.length data) {featureSize : Nat} {ratio : F} {g g' : R} {cut : Cut V}
    (h : splitBy A shuffler data featureSize ratio valueAt
      (fun i => only data (featureOrder sort samples i)) g = (some cut, g')) :
    IsCut A samples featureSize data cut := by
  unfold splitBy at h
  have hmem : ∀ f ∈ (chooseFeatures A shuffler featureSize ratio g).1, f < featureSize :=
    fun f hf => mem_chooseFeatures hf
  generalize chooseFeatures A shuffler featureSize ratio g = chosen at hmem h
  dsimp only at hmem h
  split at h
  · exact absurd h (by simp)
  · next best hbest =>
    split_ifs at h with hcount
    · exact absurd h (by simp)
    obtain ⟨rfl, -⟩ := h
    rcases bestLoop_cases hbest with hnone | ⟨hindex, hsorted⟩
    · exact absurd hnone (by simp)
    · exact isCut_cut hdata (hmem _ hindex) hsorted (by omega)

/-! ### `fit_node` -/

variable {dt : DecisionTree V F} {samples : List (Data V)} {data : List Nat}
  {cache : TrainingCache V F} {sub : SubCache V}

variable (A shuffler) in
theorem calculatePred_fits (hcache : cache.Prepared sort samples dt.loss)
    (h : sub.Fits sort samples dt.loss cache data) (hdata : IsNode samples.length data) :
    calculatePred A data dt.loss cache sub = (learner A sort shuffler dt samples cache).pred data := by
  unfold calculatePred learner
  cases hloss : dt.loss <;> try rfl
  · rw [hloss] at hcache h
    rw [sortWithCache_fits hcache h hdata]

variable (A shuffler) in
theorem split_fits (hcache : cache.Prepared sort samples dt.loss)
    (h : sub.Fits sort samples dt.loss cache data) (hdata : IsNode samples.length data)
    (hsize : dt.featureSize = cache.featureSize) (g : R) :
    split A shuffler data dt.featureSize dt.featureSampleRatio cache sub g =
      (learner A sort shuffler dt samples cache).cut data g := by
  apply splitBy_congr
  intro f hf
  exact sortWithBoolVec_fits hcache h hdata (by omega)

variable (A shuffler) in
/-- **`fit_node` writes the grown tree**, and the predictions of its leaves. -/
theorem fitNode_eq (hcache : cache.Prepared sort samples dt.loss)
    (hsize : dt.featureSize = cache.featureSize) (h : sub.Fits sort samples dt.loss cache data)
    (hdata : IsNode samples.length data) {tree : BinaryTree (DTNode V)} {k : Nat}
    {n : BinaryTreeNode (DTNode V)} (hnode : tree.getNode k = some n) (hnew : n.value = DTNode.new)
    (levels : Nat) (g : R) :
    let grown := (learner A sort shuffler dt samples cache).grow levels data g
    fitNode A shuffler dt levels tree k data cache sub g =
      (BinaryTree.install DTNode.new tree k grown.1.shape,
        { cache with preds := grown.1.writes cache.preds }, grown.2) := by
  induction levels generalizing data cache sub tree k n g with
  | zero =>
    have hpred := calculatePred_fits A shuffler hcache h hdata
    rw [fitNode, hpred]
    rw [makeLeaf_eq hnode hnew]
    rfl
  | succ levels ih =>
    have hpred := calculatePred_fits A shuffler hcache h hdata
    have hsplit := split_fits A shuffler hcache h hdata hsize g
    rw [fitNode, hpred, hsplit, Learner.grow]
    by_cases hstops : (learner A sort shuffler dt samples cache).stops data = true
    · rw [if_pos hstops, if_pos (show (same A data cache || decide _) = true from hstops),
        makeLeaf_eq hnode hnew data]
      rfl
    · rw [if_neg hstops, if_neg (show ¬(same A data cache || decide _) = true from hstops)]
      generalize hcut : (learner A sort shuffler dt samples cache).cut data g = p
      obtain ⟨cut | cut, g₁⟩ := p
      · rw [makeLeaf_eq hnode hnew data]
        rfl
      · have hiscut : IsCut A samples dt.featureSize data cut := isCut_splitBy hdata hcut
        obtain ⟨hfitsl, hfitsr⟩ := fits_splitCache hcache h (hiscut.isNode_left hdata)
          (hiscut.isNode_right hdata) (fun i hi => ((hiscut.left i).mp hi).1)
          (fun i hi => ⟨((hiscut.right i).mp hi).1, hiscut.not_mem_left hi⟩)
        dsimp only
        rw [updateNode_congr hnode (fun n => { n with
          value := ⟨cut.featureIndex, cut.featureValue,
            (learner A sort shuffler dt samples cache).pred data, 0, false⟩ }) (by rw [hnew]; rfl)]
        rw [Grown.shape, BinaryTree.install]
        have hk := BinaryTree.lt_len_of_getNode hnode
        have hlen₁ := BinaryTree.len_updateNode tree k fun n => { n with
          value := ⟨cut.featureIndex, cut.featureValue,
            (learner A sort shuffler dt samples cache).pred data, 0, false⟩ }
        generalize tree.updateNode k (fun n => { n with
          value := ⟨cut.featureIndex, cut.featureValue,
            (learner A sort shuffler dt samples cache).pred data, 0, false⟩ }) = t₁ at hlen₁ ⊢
        -- the left child is new, and so is the right one later
        have hnew₂ := BinaryTree.getNode_addNode_new (t := t₁) (by omega : k < t₁.len) true
          (BinaryTreeNode.new (DTNode.new (V := V)))
        have hlen₂ := BinaryTree.len_addNode t₁ k true (BinaryTreeNode.new (DTNode.new (V := V)))
        unfold BinaryTree.addLeftNode BinaryTree.addRightNode
        generalize t₁.addNode k true (BinaryTreeNode.new DTNode.new) = p₂ at hnew₂ hlen₂ ⊢
        obtain ⟨t₂, left⟩ := p₂
        obtain ⟨hlen₂, rfl⟩ := hlen₂
        dsimp only at hnew₂ hlen₂ ⊢
        rw [ih hcache hsize hfitsl (hiscut.isNode_left hdata) hnew₂ rfl g₁]
        generalize (learner A sort shuffler dt samples cache).grow levels cut.left g₁ = grownl
        obtain ⟨tl, g₂⟩ := grownl
        have hsame₃ := BinaryTree.sameBut_install DTNode.new t₂ t₁.len tl.shape
        generalize BinaryTree.install DTNode.new t₂ t₁.len tl.shape = t₃ at hsame₃ ⊢
        have hk₃ : k < t₃.len := by
          have hle := hsame₃.1
          omega
        have hnew₄ := BinaryTree.getNode_addNode_new hk₃ false
          (BinaryTreeNode.new (DTNode.new (V := V)))
        have hlen₄ := BinaryTree.len_addNode t₃ k false (BinaryTreeNode.new (DTNode.new (V := V)))
        generalize t₃.addNode k false (BinaryTreeNode.new DTNode.new) = p₄ at hnew₄ hlen₄ ⊢
        obtain ⟨t₄, right⟩ := p₄
        obtain ⟨-, rfl⟩ := hlen₄
        rw [ih (prepared_preds hcache (tl.writes cache.preds)) hsize
          (fits_preds hfitsr (tl.writes cache.preds)) (hiscut.isNode_right hdata) hnew₄ rfl g₂]
        rfl

/-- The tree that `fit_n` writes below a new root. -/
def fitted (A : Arith V F) (sort : UnstableSort V) (shuffler : Shuffler R) (dt : DecisionTree V F)
    (samples : List (Data V)) (subset : List Nat) (cache : TrainingCache V F) (g : R) :
    Grown V × R :=
  (learner A sort shuffler dt samples (cache.initOneIteration A sort samples dt.loss)).grow
    dt.maxDepth subset g

variable (A shuffler) in
/-- **`fit_n`** for a cache of the training set. -/
theorem fitN_eq (hcache : cache.Built sort samples) (hsize : dt.featureSize = cache.featureSize)
    {subset : List Nat} (hsubset : IsNode samples.length subset) (g : R) :
    let grown := fitted A sort shuffler dt samples subset cache g
    fitN A sort shuffler dt samples subset cache g =
      some ({ dt with
          tree := BinaryTree.install DTNode.new
            (dt.tree.addRoot (BinaryTreeNode.new DTNode.new)).1 dt.tree.len grown.1.shape },
        { cache.initOneIteration A sort samples dt.loss with
          preds := grown.1.writes cache.preds }, grown.2) := by
  have hprepared := prepared_initOneIteration A hcache dt.loss
  have hroot := BinaryTree.getNode_addRoot dt.tree (BinaryTreeNode.new (DTNode.new (V := V)))
  have hindex : (dt.tree.addRoot (BinaryTreeNode.new (DTNode.new (V := V)))).2 = dt.tree.len :=
    (BinaryTree.len_addNode dt.tree 0 false _).2
  have hfit := fitNode_eq A shuffler hprepared hsize
    (fits_root hprepared subset) hsubset hroot rfl dt.maxDepth g
  unfold fitN
  rw [if_pos hsize]
  dsimp only
  rw [hindex, hfit]
  rfl

/-- **The optimisation levels agree.** Whatever the level of the cache is, `fit_n` returns the same
    tree and the same predictions. -/
theorem fitN_levels (A : Arith V F) (sort : UnstableSort V) (shuffler : Shuffler R)
    (dt : DecisionTree V F) (set : TrainingSet V dt.featureSize) (subset : List Nat)
    (hsubset : IsNode set.samples.length subset) (g : R) :
    ∃ dt' preds g', ∀ level, ∃ cache',
      fitN A sort shuffler dt set.samples subset
          (TrainingCache.getCache A sort dt.featureSize set.samples level) g =
        some (dt', cache', g') ∧ cache'.preds = preds := by
  -- what a tree grows from is the same at every level
  let grown := fitted A sort shuffler dt set.samples subset
    (TrainingCache.getCache A sort dt.featureSize set.samples 0) g
  have hgrown : ∀ level, fitted A sort shuffler dt set.samples subset
      (TrainingCache.getCache A sort dt.featureSize set.samples level) g = grown := fun _ => rfl
  refine ⟨{ dt with
      tree := BinaryTree.install DTNode.new
        (dt.tree.addRoot (BinaryTreeNode.new DTNode.new)).1 dt.tree.len grown.1.shape },
    grown.1.writes (List.replicate set.samples.length A.unknown), grown.2, fun level => ?_⟩
  have hfit := fitN_eq A shuffler
    (built_getCache sort A set.samples dt.featureSize level) rfl hsubset g
  rw [hgrown] at hfit
  exact ⟨_, hfit, rfl⟩

/-- Two samples with two features, the second of which is unknown in the first sample. -/
def twoSamples : TrainingSet ℚ 2 where
  samples := [⟨[1, Arith.rat.unknown], 0, 1, 0, 0, 0⟩, ⟨[2, 3], 1, 1, 1, 1, 0⟩]
  valid := by decide

theorem fitN_levels_twoSamples :
    IsNode twoSamples.samples.length [1, 0] ∧
      ∃ dt' preds g', ∀ level, ∃ cache',
        fitN Arith.rat UnstableSort.stable Shuffler.still
            { DecisionTree.new with featureSize := 2 } twoSamples.samples [1, 0]
            (TrainingCache.getCache Arith.rat UnstableSort.stable 2 twoSamples.samples level) () =
          some (dt', cache', g') ∧ cache'.preds = preds :=
  have hsubset : IsNode twoSamples.samples.length [1, 0] := ⟨by decide, by decide⟩
  ⟨hsubset, fitN_levels Arith.rat UnstableSort.stable Shuffler.still
    { DecisionTree.new with featureSize := 2 } twoSamples [1, 0] hsubset ()⟩

end

end TeaclaveCrates.Gbdt
