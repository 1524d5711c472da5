import TeaclaveCrates.Gbdt.Growing

namespace TeaclaveCrates.Gbdt

open UnstableSort (stable)
open Arith (rat)

/-!
# Where samples go

A sample of a node goes to a leaf during the training, and `predict_one` takes it down the finished
tree. The two agree as long as the sample is not left behind by a cut at a feature that is unknown
in it.

* `Shape.predict`, `predictOne_represents` — the walk down a stored tree.
* `Grown.route`, `predict_shape` — the walk of a sample of the training set.
* `Grown.leftBehind`, `writes_iff` — the samples that no leaf writes a prediction for.
* `cached_preds_iff` — when the cached predictions are those of the tree.
* `leaf_sizes_iff` — when every leaf has the least number of samples.
-/

/-! ### Walking down a tree -/

section

variable {V F : Type} [LinearOrder V] [Zero V] (A : Arith V F)

namespace Shape

/-- The prediction of a tree. -/
def predict : Shape (DTNode V) → Data V → Option V
  | leaf v, _ => some v.pred
  | node v l r, x =>
    match turn A v x with
    | none => none
    | some .stop => some v.pred
    | some .left => l.predict x
    | some .right => r.predict x

/-- The turns that are taken. -/
def walk : Shape (DTNode V) → Data V → Option (List Turn)
  | leaf _, _ => some []
  | node v l r, x =>
    match turn A v x with
    | none => none
    | some .stop => some []
    | some .left => (l.walk x).map (Turn.left :: ·)
    | some .right => (r.walk x).map (Turn.right :: ·)

/-- The ways to the leaves. -/
def leaves {T : Type} : Shape T → List (List Turn)
  | leaf _ => [[]]
  | node _ l r => l.leaves.map (Turn.left :: ·) ++ r.leaves.map (Turn.right :: ·)

/-- The leaves are marked as leaves. -/
def Marked : Shape (DTNode V) → Prop
  | leaf v => v.isLeaf = true
  | node _ l r => l.Marked ∧ r.Marked

end Shape

variable {A}

theorem BinaryTree.Represents.height_lt {T : Type} {t : BinaryTree T} {k : Nat} {s : Shape T}
    (h : t.Represents k s) : k + s.height < t.len := by
  induction s generalizing k with
  | leaf v => exact h.lt_len
  | node v l r ihl ihr =>
    obtain ⟨n, hn, hv, hl, hr, hleft, hright⟩ := h
    have hleft' := ihl hleft
    have hright' := ihr hright
    rw [Shape.height]
    omega

omit [Zero V] in
/-- **The walk down a stored tree.** -/
theorem predictOne_represents {tree : BinaryTree (DTNode V)} {k : Nat} {s : Shape (DTNode V)}
    (h : tree.Represents k s) (hmarked : s.Marked) {n : BinaryTreeNode (DTNode V)}
    (hn : tree.getNode k = some n) {fuel : Nat} (hfuel : s.height < fuel) (x : Data V) :
    predictOne A tree fuel n x = s.predict A x := by
  induction s generalizing k n fuel with
  | leaf v =>
    obtain ⟨fuel, rfl⟩ : ∃ m, fuel = m + 1 := ⟨fuel - 1, by omega⟩
    obtain ⟨m, hm, rfl⟩ := h
    rw [hn, Option.some.injEq] at hm
    subst hm
    have hturn : turn A n.value x = some .stop := by
      simp [turn, (show n.value.isLeaf = true from hmarked)]
    rw [predictOne, hturn]
    rfl
  | node v l r ihl ihr =>
    obtain ⟨fuel, rfl⟩ : ∃ m, fuel = m + 1 := ⟨fuel - 1, by omega⟩
    obtain ⟨m, hm, rfl, hl, hr, hleft, hright⟩ := h
    rw [hn, Option.some.injEq] at hm
    subst hm
    obtain ⟨nl, hnl⟩ : ∃ m, tree.getNode n.left = some m :=
      ⟨_, List.getElem?_eq_getElem hleft.lt_len⟩
    obtain ⟨nr, hnr⟩ : ∃ m, tree.getNode n.right = some m :=
      ⟨_, List.getElem?_eq_getElem hright.lt_len⟩
    rw [Shape.height] at hfuel
    have hpl := ihl hleft hmarked.1 hnl (show l.height < fuel by omega)
    have hpr := ihr hright hmarked.2 hnr (show r.height < fuel by omega)
    have hcl : tree.getLeftChild n = some nl := by
      unfold BinaryTree.getLeftChild
      rw [if_neg (by omega), hnl]
    have hcr : tree.getRightChild n = some nr := by
      unfold BinaryTree.getRightChild
      rw [if_neg (by omega), hnr]
    rw [predictOne, Shape.predict, hcl, hcr]
    cases turn A n.value x with
    | none => rfl
    | some t =>
      cases t with
      | stop => rfl
      | left => exact hpl
      | right => exact hpr

omit [Zero V] in
/-- The prediction of a tree that hangs on the root. -/
theorem predictRoot_represents {dt : DecisionTree V F} {s : Shape (DTNode V)}
    (h : dt.tree.Represents 0 s) (hmarked : s.Marked) (x : Data V) :
    dt.predictRoot A x = s.predict A x := by
  obtain ⟨n, hn⟩ : ∃ n, dt.tree.getNode 0 = some n := ⟨_, List.getElem?_eq_getElem h.lt_len⟩
  have hheight := h.height_lt
  unfold DecisionTree.predictRoot
  rw [hn]
  exact predictOne_represents h hmarked hn (by omega) x

omit [Zero V] in
/-- The predictions for some samples, written to a vector. -/
theorem predictLoop_eq {dt : DecisionTree V F} {samples : List (Data V)} {f : Nat → V}
    {subset : List Nat} (h : ∀ i ∈ subset, samples[i]?.bind (dt.predictRoot A) = some (f i))
    (ret : List V) :
    dt.predictLoop A samples ret subset =
      some (subset.foldl (fun ret i => ret.set i (f i)) ret) := by
  induction subset generalizing ret with
  | nil => rfl
  | cons i subset ih =>
    rw [DecisionTree.predictLoop, h i (List.mem_cons_self ..)]
    exact ih (fun j hj => h j (List.mem_cons_of_mem _ hj)) _

/-- What stands in a vector after some writes. -/
theorem getElem?_foldl_set {α : Type} (f : Nat → α) (subset : List Nat) (ret : List α) (i : Nat) :
    (subset.foldl (fun ret i => ret.set i (f i)) ret)[i]? =
      if i ∈ subset ∧ i < ret.length then some (f i) else ret[i]? := by
  induction subset generalizing ret with
  | nil => simp
  | cons j subset ih =>
    rw [List.foldl_cons, ih, List.length_set]
    by_cases hlt : i < ret.length
    · by_cases hij : i = j
      · subst hij
        simp [hlt]
      · have hji : ¬j = i := fun h => hij h.symm
        simp [hlt, hij, hji]
    · simp [hlt]

/-! ### Samples of the training set -/

namespace Grown

/-- The samples at the root. -/
def data : Grown V → List Nat
  | leaf data _ => data
  | node data _ _ _ _ => data

variable (A) in
/-- Every node is cut as the samples say. -/
def Sound (samples : List (Data V)) (featureSize : Nat) : Grown V → Prop
  | leaf _ _ => True
  | node data _ cut l r =>
    IsCut A samples featureSize data cut ∧ l.data = cut.left ∧ r.data = cut.right ∧
      l.Sound samples featureSize ∧ r.Sound samples featureSize

variable (A) in
/-- The prediction for a sample: that of the leaf it comes to, or of the node that leaves it
    behind. -/
def route (samples : List (Data V)) (i : Nat) : Grown V → V
  | leaf _ pred => pred
  | node _ pred cut l r =>
    if sampleValue samples cut.featureIndex i = A.unknown then pred
    else if sampleValue samples cut.featureIndex i < cut.featureValue then l.route samples i
    else r.route samples i

variable (A) in
/-- The turns that a sample takes. -/
def way (samples : List (Data V)) (i : Nat) : Grown V → List Turn
  | leaf _ _ => []
  | node _ _ cut l r =>
    if sampleValue samples cut.featureIndex i = A.unknown then []
    else if sampleValue samples cut.featureIndex i < cut.featureValue then .left :: l.way samples i
    else .right :: r.way samples i

/-- The samples that the cuts leave behind, each with the prediction of the node. -/
def leftBehind : Grown V → List (Nat × V)
  | leaf _ _ => []
  | node _ pred cut l r => cut.unknown.map (fun i => (i, pred)) ++ l.leftBehind ++ r.leftBehind

/-- All cuts of a tree. -/
def cuts : Grown V → List (Cut V)
  | leaf _ _ => []
  | node _ _ cut l r => cut :: (l.cuts ++ r.cuts)

end Grown

variable {samples : List (Data V)} {featureSize : Nat}

omit [LinearOrder V] in
theorem marked_shape (t : Grown V) : t.shape.Marked := by
  induction t with
  | leaf data pred => rfl
  | node data pred cut l r ihl ihr => exact ⟨ihl, ihr⟩

omit [LinearOrder V] in
theorem height_shape_grow {R : Type} (L : Learner V R) (levels : Nat) (data : List Nat) (g : R) :
    (L.grow levels data g).1.shape.height ≤ levels := by
  induction levels generalizing data g with
  | zero => exact le_rfl
  | succ levels ih =>
    rw [Learner.grow]
    split_ifs
    · exact Nat.zero_le _
    · split
      · exact Nat.zero_le _
      · next cut g₁ _ =>
        have hl := ih cut.left g₁
        have hr := ih cut.right (L.grow levels cut.left g₁).2
        dsimp only [Grown.shape, Shape.height]
        omega

variable {i : Nat}

/-- The turn of a sample at a node that is cut. -/
theorem turn_cut {x : Data V} (hx : samples[i]? = some x) {f : Nat} (hf : f < x.feature.length)
    (v pred : V) :
    turn A ⟨f, v, pred, 0, false⟩ x =
      if sampleValue samples f i = A.unknown then some .stop
      else if sampleValue samples f i < v then some .left else some .right := by
  have hvalue : sampleValue samples f i = x.feature[f] := by
    simp [sampleValue, Data.value, hx, hf]
  simp [hvalue, turn, List.getElem?_eq_getElem hf]

variable {t : Grown V}

/-- The stored tree sends a sample where its values say. -/
theorem predict_shape (ht : t.Sound A samples featureSize) {x : Data V} (hx : samples[i]? = some x)
    (hvalid : featureSize ≤ x.feature.length) :
    t.shape.predict A x = some (t.route A samples i) := by
  induction t with
  | leaf data pred => rfl
  | node data pred cut l r ihl ihr =>
    obtain ⟨hcut, -, -, hl, hr⟩ := ht
    have hf : cut.featureIndex < x.feature.length := lt_of_lt_of_le hcut.feature_lt hvalid
    rw [Grown.shape, Shape.predict, turn_cut hx hf, Grown.route]
    by_cases hu : sampleValue samples cut.featureIndex i = A.unknown
    · simp [hu]
    · rw [if_neg hu, if_neg hu]
      by_cases hlt : sampleValue samples cut.featureIndex i < cut.featureValue
      · rw [if_pos hlt, if_pos hlt]
        exact ihl hl
      · rw [if_neg hlt, if_neg hlt]
        exact ihr hr

theorem walk_shape (ht : t.Sound A samples featureSize) {x : Data V} (hx : samples[i]? = some x)
    (hvalid : featureSize ≤ x.feature.length) :
    t.shape.walk A x = some (t.way A samples i) := by
  induction t with
  | leaf data pred => rfl
  | node data pred cut l r ihl ihr =>
    obtain ⟨hcut, -, -, hl, hr⟩ := ht
    have hf : cut.featureIndex < x.feature.length := lt_of_lt_of_le hcut.feature_lt hvalid
    rw [Grown.shape, Shape.walk, turn_cut hx hf, Grown.way]
    by_cases hu : sampleValue samples cut.featureIndex i = A.unknown
    · simp [hu]
    · rw [if_neg hu, if_neg hu]
      by_cases hlt : sampleValue samples cut.featureIndex i < cut.featureValue
      · simp [hlt, ihl hl]
      · simp [hlt, ihr hr]

theorem length_leaves_le {T : Type} {s : Shape T} {way : List Turn} (h : way ∈ s.leaves) :
    way.length ≤ s.height := by
  induction s generalizing way with
  | leaf v =>
    rw [List.mem_singleton.mp h]
    exact Nat.zero_le _
  | node v l r ihl ihr =>
    rw [Shape.leaves, List.mem_append] at h
    rw [Shape.height]
    rcases h with h | h
    · obtain ⟨w, hw, rfl⟩ := List.mem_map.mp h
      have hle := ihl hw
      rw [List.length_cons]
      omega
    · obtain ⟨w, hw, rfl⟩ := List.mem_map.mp h
      have hle := ihr hw
      rw [List.length_cons]
      omega

/-! ### The sizes of the leaves -/

variable {cut : Cut V} {data : List Nat}

/-- Without unknown values, a cut divides the samples of a node in two. -/
theorem IsCut.perm (h : IsCut A samples featureSize data cut) (hdata : data.Nodup)
    (hknown : ∀ i ∈ data, sampleValue samples cut.featureIndex i ≠ A.unknown) :
    data.Perm (cut.left ++ cut.right) := by
  have hnodup : (cut.left ++ cut.right).Nodup := by
    rw [List.nodup_append']
    exact ⟨h.left_nodup, h.right_nodup, fun i hl hr => h.not_mem_left hr hl⟩
  rw [List.perm_ext_iff_of_nodup hdata hnodup]
  intro i
  rw [List.mem_append, h.left, h.right]
  constructor
  · intro hi
    by_cases hlt : sampleValue samples cut.featureIndex i < cut.featureValue
    · exact Or.inl ⟨hi, hknown i hi, hlt⟩
    · exact Or.inr ⟨hi, hknown i hi, hlt⟩
  · rintro (hi | hi) <;> exact hi.1

/-- The samples of a node that come to a leaf below its left or its right child. -/
theorem countP_way (pred : V) (l r : Grown V) (h : IsCut A samples featureSize data cut)
    (hdata : data.Nodup) (hknown : ∀ i ∈ data, sampleValue samples cut.featureIndex i ≠ A.unknown)
    (w : List Turn) :
    data.countP (fun i => (Grown.node data pred cut l r).way A samples i = .left :: w) =
        cut.left.countP (fun i => l.way A samples i = w) ∧
      data.countP (fun i => (Grown.node data pred cut l r).way A samples i = .right :: w) =
        cut.right.countP (fun i => r.way A samples i = w) := by
  have hperm := h.perm hdata hknown
  have hleft : ∀ i ∈ cut.left, (Grown.node data pred cut l r).way A samples i =
      .left :: l.way A samples i := by
    intro i hi
    obtain ⟨-, hu, hlt⟩ := (h.left i).mp hi
    simp [Grown.way, hu, hlt]
  have hright : ∀ i ∈ cut.right, (Grown.node data pred cut l r).way A samples i =
      .right :: r.way A samples i := by
    intro i hi
    obtain ⟨-, hu, hlt⟩ := (h.right i).mp hi
    simp [Grown.way, hu, hlt]
  constructor
  · rw [hperm.countP_eq, List.countP_append, Nat.add_eq_left.mpr]
    · apply List.countP_congr
      intro i hi
      simp [hleft i hi]
    · rw [List.countP_eq_zero]
      intro i hi
      simp [hright i hi]
  · rw [hperm.countP_eq, List.countP_append, Nat.add_eq_right.mpr]
    · apply List.countP_congr
      intro i hi
      simp [hright i hi]
    · rw [List.countP_eq_zero]
      intro i hi
      simp [hleft i hi]

/-- Every leaf has `m` samples if and only if the root has, and both sides of every cut. -/
theorem leaves_iff (ht : t.Sound A samples featureSize) (hdata : IsNode samples.length t.data)
    (hknown : ∀ i < samples.length, ∀ f < featureSize, sampleValue samples f i ≠ A.unknown)
    (m : Nat) :
    (∀ w ∈ t.shape.leaves, m ≤ t.data.countP fun i => t.way A samples i = w) ↔
      m ≤ t.data.length ∧ ∀ cut ∈ t.cuts, m ≤ cut.left.length ∧ m ≤ cut.right.length := by
  induction t with
  | leaf data pred => simp [Grown.shape, Shape.leaves, Grown.way, Grown.data, Grown.cuts]
  | node data pred cut l r ihl ihr =>
    obtain ⟨hcut, hdl, hdr, hl, hr⟩ := ht
    have hcutKnown : ∀ i ∈ data, sampleValue samples cut.featureIndex i ≠ A.unknown :=
      fun i hi => hknown i (hdata.lt i hi) _ hcut.feature_lt
    have hcount := countP_way pred l r hcut hdata.nodup hcutKnown
    have hlen := (hcut.perm hdata.nodup hcutKnown).length_eq
    rw [List.length_append] at hlen
    have hl' := ihl hl (hdl ▸ hcut.isNode_left hdata)
    have hr' := ihr hr (hdr ▸ hcut.isNode_right hdata)
    rw [hdl] at hl'
    rw [hdr] at hr'
    have hleaves : (∀ w ∈ (Grown.node data pred cut l r).shape.leaves,
        m ≤ data.countP fun i => (Grown.node data pred cut l r).way A samples i = w) ↔
          (∀ w ∈ l.shape.leaves, m ≤ cut.left.countP fun i => l.way A samples i = w) ∧
            ∀ w ∈ r.shape.leaves, m ≤ cut.right.countP fun i => r.way A samples i = w := by
      rw [Grown.shape, Shape.leaves]
      simp only [List.mem_append, or_imp, forall_and, List.forall_mem_map, hcount]
    refine hleaves.trans ?_
    rw [hl', hr', Grown.cuts]
    simp only [List.mem_cons, List.mem_append, or_imp, forall_and, forall_eq]
    constructor
    · rintro ⟨⟨hml, hcl⟩, hmr, hcr⟩
      exact ⟨by dsimp only [Grown.data]; omega, ⟨hml, hcl.1, hcr.1⟩, hmr, hcl.2, hcr.2⟩
    · rintro ⟨-, ⟨hml, hcl, hcr⟩, hmr, hcl', hcr'⟩
      exact ⟨⟨hml, hcl, hcl'⟩, hmr, hcr, hcr'⟩

/-! ### The predictions that are written -/

omit [LinearOrder V] [Zero V] in
theorem length_writes (t : Grown V) (preds : List V) :
    (t.writes preds).length = preds.length := by
  induction t generalizing preds with
  | leaf data pred =>
    have hgen : ∀ preds : List V,
        (data.foldl (fun preds index => preds.set index pred) preds).length = preds.length := by
      induction data with
      | nil => exact fun _ => rfl
      | cons i data ih =>
        intro preds
        rw [List.foldl_cons, ih, List.length_set]
    exact hgen preds
  | node data pred cut l r ihl ihr => rw [Grown.writes, ihr, ihl]

/-- Nothing is written for other samples. -/
theorem writes_of_not_mem (ht : t.Sound A samples featureSize) (hi : i ∉ t.data) (preds : List V) :
    (t.writes preds)[i]? = preds[i]? := by
  induction t generalizing preds with
  | leaf data pred =>
    rw [Grown.writes, getElem?_foldl_set (fun _ => pred), if_neg fun h => hi h.1]
  | node data pred cut l r ihl ihr =>
    obtain ⟨hcut, hdl, hdr, hl, hr⟩ := ht
    have hil : i ∉ l.data := fun h => hi ((hcut.left i).mp (hdl ▸ h)).1
    have hir : i ∉ r.data := fun h => hi ((hcut.right i).mp (hdr ▸ h)).1
    rw [Grown.writes, ihr hr hir, ihl hl hil]

theorem mem_data_of_leftBehind (ht : t.Sound A samples featureSize) {d : Nat × V}
    (hd : d ∈ t.leftBehind) : d.1 ∈ t.data := by
  induction t with
  | leaf data pred => exact absurd hd List.not_mem_nil
  | node data pred cut l r ihl ihr =>
    obtain ⟨hcut, hdl, hdr, hl, hr⟩ := ht
    rw [Grown.leftBehind, List.mem_append, List.mem_append] at hd
    rcases hd with (hd | hd) | hd
    · obtain ⟨i, hi, rfl⟩ := List.mem_map.mp hd
      exact ((hcut.unknown i).mp hi).1
    · exact ((hcut.left _).mp (hdl ▸ ihl hl hd)).1
    · exact ((hcut.right _).mp (hdr ▸ ihr hr hd)).1

/-- A sample of a node that is cut is in one of the three groups. -/
theorem IsCut.forall_iff (h : IsCut A samples featureSize data cut) (p : Nat → Prop) :
    (∀ i ∈ data, p i) ↔
      (∀ i ∈ cut.unknown, p i) ∧ (∀ i ∈ cut.left, p i) ∧ ∀ i ∈ cut.right, p i := by
  constructor
  · intro hall
    exact ⟨fun i hi => hall i ((h.unknown i).mp hi).1, fun i hi => hall i ((h.left i).mp hi).1,
      fun i hi => hall i ((h.right i).mp hi).1⟩
  · rintro ⟨hunknown, hleft, hright⟩ i hi
    by_cases hu : sampleValue samples cut.featureIndex i = A.unknown
    · exact hunknown i ((h.unknown i).mpr ⟨hi, hu⟩)
    · by_cases hlt : sampleValue samples cut.featureIndex i < cut.featureValue
      · exact hleft i ((h.left i).mpr ⟨hi, hu, hlt⟩)
      · exact hright i ((h.right i).mpr ⟨hi, hu, hlt⟩)

/-- **What the leaves write.** The predictions of all samples of the root are those of their routes
    if and only if the vector has them already for the samples that are left behind. -/
theorem writes_iff (ht : t.Sound A samples featureSize) {preds : List V}
    (hlt : ∀ i ∈ t.data, i < preds.length) :
    (∀ i ∈ t.data, (t.writes preds)[i]? = some (t.route A samples i)) ↔
      ∀ d ∈ t.leftBehind, preds[d.1]? = some d.2 := by
  induction t generalizing preds with
  | leaf data pred =>
    refine ⟨fun _ d hd => absurd hd List.not_mem_nil, fun _ i hi => ?_⟩
    rw [Grown.writes, getElem?_foldl_set (fun _ => pred), if_pos ⟨hi, hlt i hi⟩]
    rfl
  | node data pred cut l r ihl ihr =>
    obtain ⟨hcut, hdl, hdr, hl, hr⟩ := ht
    have hltl : ∀ i ∈ l.data, i < preds.length := fun i hi =>
      hlt i ((hcut.left i).mp (hdl ▸ hi)).1
    have hltr : ∀ i ∈ r.data, i < (l.writes preds).length := fun i hi => by
      rw [length_writes]
      exact hlt i ((hcut.right i).mp (hdr ▸ hi)).1
    have hnotr : ∀ i ∈ l.data, i ∉ r.data := fun i hil hir =>
      hcut.not_mem_left (hdr ▸ hir) (hdl ▸ hil)
    -- the three groups of samples, against the three parts of the list
    have hunknown : (∀ i ∈ cut.unknown, (r.writes (l.writes preds))[i]? =
        some ((Grown.node data pred cut l r).route A samples i)) ↔
          ∀ d ∈ cut.unknown.map (fun i => (i, pred)), preds[d.1]? = some d.2 := by
      rw [List.forall_mem_map]
      refine forall_congr' fun i => forall_congr' fun hi => ?_
      have hu := ((hcut.unknown i).mp hi).2
      have hil : i ∉ l.data := fun h => ((hcut.left i).mp (hdl ▸ h)).2.1 hu
      have hir : i ∉ r.data := fun h => ((hcut.right i).mp (hdr ▸ h)).2.1 hu
      simp [writes_of_not_mem hr hir, writes_of_not_mem hl hil, Grown.route, hu]
    have hleft : (∀ i ∈ cut.left, (r.writes (l.writes preds))[i]? =
        some ((Grown.node data pred cut l r).route A samples i)) ↔
          ∀ d ∈ l.leftBehind, preds[d.1]? = some d.2 := by
      rw [← ihl hl hltl, hdl]
      refine forall_congr' fun i => forall_congr' fun hi => ?_
      obtain ⟨-, hu, hvalue⟩ := (hcut.left i).mp hi
      simp [writes_of_not_mem hr (hnotr i (hdl ▸ hi)), Grown.route, hu, hvalue]
    have hright : (∀ i ∈ cut.right, (r.writes (l.writes preds))[i]? =
        some ((Grown.node data pred cut l r).route A samples i)) ↔
          ∀ d ∈ r.leftBehind, preds[d.1]? = some d.2 := by
      have hold : (∀ d ∈ r.leftBehind, (l.writes preds)[d.1]? = some d.2) ↔
          ∀ d ∈ r.leftBehind, preds[d.1]? = some d.2 := by
        refine forall_congr' fun d => forall_congr' fun hd => ?_
        have hdl' : d.1 ∉ l.data := fun h => hnotr d.1 h (mem_data_of_leftBehind hr hd)
        rw [writes_of_not_mem hl hdl']
      rw [← hold, ← ihr hr hltr, hdr]
      refine forall_congr' fun i => forall_congr' fun hi => ?_
      obtain ⟨-, hu, hvalue⟩ := (hcut.right i).mp hi
      simp [Grown.route, hu, hvalue]
    show (∀ i ∈ data, (r.writes (l.writes preds))[i]? = _) ↔ _
    rw [hcut.forall_iff, hunknown, hleft, hright, Grown.leftBehind]
    simp only [List.mem_append, or_imp, forall_and, and_assoc]

/-- `predict_n` on a tree that is stored. -/
theorem predictN_represents {dt' : DecisionTree V F} (hstored : dt'.tree.Represents 0 t.shape)
    {featureSize : Nat} (ht : t.Sound A samples featureSize)
    (hvalid : ∀ x ∈ samples, featureSize ≤ x.feature.length) {subset : List Nat}
    (hlt : ∀ i ∈ subset, i < samples.length) :
    dt'.predictN A samples subset =
      some (subset.foldl (fun ret i => ret.set i (t.route A samples i))
        (List.replicate samples.length 0)) := by
  obtain ⟨n, hn⟩ : ∃ n, dt'.tree.getNode 0 = some n := ⟨_, List.getElem?_eq_getElem hstored.lt_len⟩
  unfold DecisionTree.predictN
  rw [hn]
  apply predictLoop_eq
  intro i hi
  have hi' := hlt i hi
  have hx : samples[i]? = some samples[i] := List.getElem?_eq_getElem hi'
  rw [hx, Option.bind_some, predictRoot_represents hstored (marked_shape t)]
  exact predict_shape ht hx (hvalid _ (List.getElem_mem _))

end

/-! ### The cached predictions -/

section

variable {V F R : Type} [LinearOrder V] [Zero V] [One V] [Add V] [Sub V] [Div V]
  [Zero F] [One F] [Add F] [Sub F] [Mul F] [Div F] [LT F] [DecidableLT F]
  {A : Arith V F} {sort : UnstableSort V} {shuffler : Shuffler R} {dt : DecisionTree V F}
  {samples : List (Data V)} {cache : TrainingCache V F}

/-- A tree that grows from samples is cut as the samples say. -/
theorem sound_grow {data : List Nat} (hdata : IsNode samples.length data) (levels : Nat) (g : R) :
    ((learner A sort shuffler dt samples cache).grow levels data g).1.Sound A samples
        dt.featureSize ∧
      ((learner A sort shuffler dt samples cache).grow levels data g).1.data = data := by
  induction levels generalizing data g with
  | zero => exact ⟨trivial, rfl⟩
  | succ levels ih =>
    rw [Learner.grow]
    split_ifs
    · exact ⟨trivial, rfl⟩
    · generalize hcut : (learner A sort shuffler dt samples cache).cut data g = p
      obtain ⟨cut | cut, g₁⟩ := p
      · exact ⟨trivial, rfl⟩
      · have hiscut : IsCut A samples dt.featureSize data cut := isCut_splitBy hdata hcut
        obtain ⟨hl, hdl⟩ := ih (hiscut.isNode_left hdata) g₁
        obtain ⟨hr, hdr⟩ := ih (hiscut.isNode_right hdata)
          ((learner A sort shuffler dt samples cache).grow levels cut.left g₁).2
        exact ⟨⟨hiscut, hdl, hdr, hl, hr⟩, rfl⟩

variable (A sort shuffler dt cache) in
theorem sound_fitted {subset : List Nat} (hsubset : IsNode samples.length subset) (g : R) :
    (fitted A sort shuffler dt samples subset cache g).1.Sound A samples dt.featureSize ∧
      (fitted A sort shuffler dt samples subset cache g).1.data = subset :=
  sound_grow hsubset dt.maxDepth g

variable (A sort shuffler) in
/-- What `fit_n` leaves on a fresh tree: the grown tree on the root, and the predictions of its
    leaves in the cache. -/
theorem fitN_fresh (hfresh : dt.tree = BinaryTree.new) (hcache : cache.Built sort samples)
    (hsize : dt.featureSize = cache.featureSize) {subset : List Nat}
    (hsubset : IsNode samples.length subset) (g : R) :
    let t := (fitted A sort shuffler dt samples subset cache g).1
    ∃ dt' cache' g', fitN A sort shuffler dt samples subset cache g = some (dt', cache', g') ∧
      dt'.tree.Represents 0 t.shape ∧ cache'.preds = t.writes cache.preds ∧
      cache'.Built sort samples ∧ cache'.featureSize = cache.featureSize := by
  have hfit := fitN_eq A shuffler hcache hsize hsubset g
  refine ⟨_, _, _, hfit, ?_, rfl, ⟨hcache.sampleSize, hcache.level, hcache.features⟩, rfl⟩
  have hlen : dt.tree.len = 0 := by
    rw [hfresh]
    rfl
  rw [hlen]
  apply BinaryTree.represents_install
  show 0 < (dt.tree.addNode 0 false _).1.len
  rw [(BinaryTree.len_addNode ..).1]
  omega

/-- **Cached predictions.** After `fit_n` on a fresh tree, the cache holds the predictions of the tree
    for the samples of the subset, if and only if it already held them for the samples that a cut
    leaves behind. -/
theorem cached_preds_iff (A : Arith V F) (sort : UnstableSort V) (shuffler : Shuffler R)
    (dt : DecisionTree V F) (hfresh : dt.tree = BinaryTree.new)
    (set : TrainingSet V dt.featureSize) (cache : TrainingCache V F)
    (hcache : cache.Built sort set.samples) (hsize : dt.featureSize = cache.featureSize)
    (hpreds : cache.preds.length = set.samples.length) (subset : List Nat)
    (hsubset : IsNode set.samples.length subset) (g : R) :
    ∃ dt' cache' g' out, fitN A sort shuffler dt set.samples subset cache g =
        some (dt', cache', g') ∧
      dt'.predictN A set.samples subset = some out ∧
      ((∀ i ∈ subset, cache'.preds[i]? = out[i]?) ↔
        ∀ d ∈ (fitted A sort shuffler dt set.samples subset cache g).1.leftBehind,
          cache.preds[d.1]? = some d.2) := by
  obtain ⟨dt', cache', g', hfit, hstored, hwritten, -⟩ := fitN_fresh A sort shuffler
    hfresh hcache hsize hsubset g
  obtain ⟨ht, hdata⟩ := sound_fitted A sort shuffler dt cache hsubset g
  refine ⟨dt', cache', g', _, hfit,
    predictN_represents hstored ht set.valid hsubset.lt, ?_⟩
  have hlt : ∀ i ∈ (fitted A sort shuffler dt set.samples subset cache g).1.data,
      i < cache.preds.length := by
    intro i hi
    rw [hpreds]
    exact hsubset.lt i (hdata ▸ hi)
  rw [← writes_iff ht hlt, hdata, hwritten]
  refine forall_congr' fun i => forall_congr' fun hi => ?_
  rw [getElem?_foldl_set, if_pos ⟨hi, by rw [List.length_replicate]; exact hsubset.lt i hi⟩]

/-- Three samples, the first of which has no value. -/
def missingSample : TrainingSet ℚ 1 where
  samples := [⟨[rat.unknown], 5, 1, 5, 5, 0⟩, ⟨[1], 0, 1, 0, 0, 0⟩, ⟨[2], 1, 1, 1, 1, 0⟩]
  valid := by decide

/-- A tree with one level below its root. -/
def stump : DecisionTree ℚ ℚ := { DecisionTree.new with maxDepth := 1 }

theorem cached_preds_iff_known :
    ∃ dt' cache' g' out, fitN rat stable Shuffler.still stump
          missingSample.samples [1, 2]
          (TrainingCache.getCache rat stable 1 missingSample.samples 2) () =
        some (dt', cache', g') ∧
      dt'.predictN rat missingSample.samples [1, 2] = some out ∧
      ((∀ i ∈ [1, 2], cache'.preds[i]? = out[i]?) ↔
        ∀ d ∈ (fitted rat stable Shuffler.still stump missingSample.samples
            [1, 2] (TrainingCache.getCache rat stable 1 missingSample.samples 2)
            ()).1.leftBehind,
          (List.replicate 3 rat.unknown)[d.1]? = some d.2) :=
  cached_preds_iff rat stable Shuffler.still stump rfl missingSample
    (TrainingCache.getCache rat stable 1 missingSample.samples 2)
    (built_getCache stable rat missingSample.samples 1 2) rfl rfl [1, 2]
    ⟨by decide, by decide⟩ ()

/-- The sample without a value is left behind: the cache holds no prediction for it, but the tree
    has one. -/
theorem missing_sample_pred :
    ((fitN rat stable Shuffler.still stump missingSample.samples [0, 1, 2]
        (TrainingCache.getCache rat stable 1 missingSample.samples 2)
        ()).map fun r => (r.2.1.preds, r.1.predictN rat missingSample.samples [0, 1, 2])) =
      some ([rat.unknown, 0, 1], some [2, 0, 1]) := by decide +kernel

/-! ### The least size of a leaf -/

/-- **The sizes of the leaves.** No leaf lies deeper than `max_depth`. Without unknown values, every
    leaf is reached by at least `min_leaf_size` samples of the subset, if and only if every cut
    that is made leaves as many on both sides. -/
theorem leaf_sizes_iff (A : Arith V F) (sort : UnstableSort V) (shuffler : Shuffler R)
    (dt : DecisionTree V F) (hfresh : dt.tree = BinaryTree.new)
    (set : TrainingSet V dt.featureSize)
    (hknown : ∀ x ∈ set.samples, ∀ v ∈ x.feature, v ≠ A.unknown) (cache : TrainingCache V F)
    (hcache : cache.Built sort set.samples) (hsize : dt.featureSize = cache.featureSize)
    (subset : List Nat) (hsubset : IsNode set.samples.length subset)
    (hmin : dt.minLeafSize ≤ subset.length) (g : R) :
    ∃ dt' cache' g' s, fitN A sort shuffler dt set.samples subset cache g =
        some (dt', cache', g') ∧
      dt'.tree.Represents 0 s ∧ s.Marked ∧ (∀ way ∈ s.leaves, way.length ≤ dt.maxDepth) ∧
      ((∀ way ∈ s.leaves, dt.minLeafSize ≤
          (subset.countP fun i => set.samples[i]?.bind (s.walk A) = some way)) ↔
        ∀ cut ∈ (fitted A sort shuffler dt set.samples subset cache g).1.cuts,
          dt.minLeafSize ≤ cut.left.length ∧ dt.minLeafSize ≤ cut.right.length) := by
  obtain ⟨dt', cache', g', hfit, hstored, -⟩ := fitN_fresh A sort shuffler hfresh
    hcache hsize hsubset g
  obtain ⟨ht, hdata⟩ := sound_fitted A sort shuffler dt cache hsubset g
  have hdepth := height_shape_grow (learner A sort shuffler dt set.samples
    (cache.initOneIteration A sort set.samples dt.loss)) dt.maxDepth subset g
  change (fitted A sort shuffler dt set.samples subset cache g).1.shape.height ≤ _ at hdepth
  refine ⟨dt', cache', g', _, hfit, hstored, marked_shape _,
    fun way hway => le_trans (length_leaves_le hway) hdepth, ?_⟩
  generalize (fitted A sort shuffler dt set.samples subset cache g).1 = t at ht hdata ⊢
  have hvalues : ∀ i < set.samples.length, ∀ f < dt.featureSize,
      sampleValue set.samples f i ≠ A.unknown := by
    intro i hi f hf
    have hlen : f < set.samples[i].feature.length :=
      lt_of_lt_of_le hf (set.valid _ (List.getElem_mem _))
    have hmem := hknown set.samples[i] (List.getElem_mem _) _ (List.getElem_mem hlen)
    unfold sampleValue Data.value
    rw [List.getElem?_eq_getElem hi]
    simpa [hlen] using hmem
  have hleaves := leaves_iff ht (hdata ▸ hsubset) hvalues dt.minLeafSize
  rw [hdata] at hleaves
  -- the walk of a sample down the stored tree is its way down the grown one
  have hcount : ∀ way, (subset.countP fun i =>
      set.samples[i]?.bind (t.shape.walk A) = some way) =
        subset.countP fun i => t.way A set.samples i = way := by
    intro way
    apply List.countP_congr
    intro i hi
    have hlt := hsubset.lt i hi
    have hx : set.samples[i]? = some set.samples[i] := List.getElem?_eq_getElem hlt
    rw [hx, Option.bind_some, walk_shape ht hx (set.valid _ (List.getElem_mem _))]
    simp
  simp only [hcount]
  exact ⟨fun h => (hleaves.mp h).2, fun h => hleaves.mpr ⟨hmin, h⟩⟩

/-- Three samples, of which the first is apart from the other two. -/
def threeSamples : TrainingSet ℚ 1 where
  samples := [⟨[1], 0, 1, 0, 0, 0⟩, ⟨[2], 5, 1, 5, 5, 0⟩, ⟨[3], 5, 1, 5, 5, 0⟩]
  valid := by decide

/-- A stump whose leaves are to have two samples. -/
def pairedStump : DecisionTree ℚ ℚ := { stump with minLeafSize := 2 }

theorem leaf_sizes_iff_three :
    ∃ dt' cache' g' s, fitN rat stable Shuffler.still pairedStump
          threeSamples.samples [0, 1, 2]
          (TrainingCache.getCache rat stable 1 threeSamples.samples 2) () =
        some (dt', cache', g') ∧
      dt'.tree.Represents 0 s ∧ s.Marked ∧ (∀ way ∈ s.leaves, way.length ≤ 1) ∧
      ((∀ way ∈ s.leaves, 2 ≤ ([0, 1, 2].countP fun i =>
          threeSamples.samples[i]?.bind (s.walk rat) = some way)) ↔
        ∀ cut ∈ (fitted rat stable Shuffler.still pairedStump
            threeSamples.samples [0, 1, 2]
            (TrainingCache.getCache rat stable 1 threeSamples.samples 2)
            ()).1.cuts,
          2 ≤ cut.left.length ∧ 2 ≤ cut.right.length) :=
  leaf_sizes_iff rat stable Shuffler.still pairedStump rfl threeSamples
    (by decide +kernel)
    (TrainingCache.getCache rat stable 1 threeSamples.samples 2)
    (built_getCache stable rat threeSamples.samples 1 2) rfl [0, 1,
      2] ⟨by decide, by decide⟩
    (by decide) ()

/-- The three samples are cut in one and two, so that one leaf is too small. -/
theorem small_leaf :
    ∃ dt' cache' g' s, fitN rat stable Shuffler.still pairedStump
          threeSamples.samples [0, 1, 2]
          (TrainingCache.getCache rat stable 1 threeSamples.samples 2) () =
        some (dt', cache', g') ∧
      dt'.tree.Represents 0 s ∧ [Turn.left] ∈ s.leaves ∧
      ([0, 1, 2].countP fun i =>
        threeSamples.samples[i]?.bind (s.walk rat) = some [Turn.left]) = 1 := by
  have hsubset : IsNode threeSamples.samples.length [0, 1, 2] := ⟨by decide, by decide⟩
  have hfresh : pairedStump.tree = BinaryTree.new := rfl
  obtain ⟨dt', cache', g', hfit, hstored, -⟩ := fitN_fresh rat stable
    Shuffler.still hfresh (built_getCache stable rat threeSamples.samples 1 2) rfl
    hsubset ()
  refine ⟨dt', cache', g', _, hfit, hstored, ?_, ?_⟩
  · decide +kernel
  · decide +kernel

end

end TeaclaveCrates.Gbdt
