import Mathlib.Algebra.Group.Nat.Defs
import Mathlib.Data.Prod.Lex
import TeaclaveCrates.Lib.Selection

namespace TeaclaveCrates.Tantivy

open TeaclaveCrates.Lib

/-!
# tantivy — the top documents

`collector/top_collector.rs`: the documents of each segment with the greatest features, kept in a
bounded heap, and the merge of what the segments harvested in another one.

The heap is a parameter: what is used of `BinaryHeap` are the rules of a priority queue, and the
capacities that one can be made with. A function that may panic has an option as its result. `usize`
additions wrap.

* `ComparableDoc` — the reversed order of the heaps;
* `TopSegmentCollector`, `TopCollector` — one segment, and the merge;
* `offer_spec` — one more document;
* `mergeFruits_eq` — the documents that are returned.
-/

/-- `DocAddress`: its order is that of the segments, and of the documents in a segment. -/
abbrev DocAddress := Nat ×ₗ Nat

/-- `ComparableDoc`. -/
structure ComparableDoc (T D : Type) where
  feature : T
  doc : D
deriving DecidableEq, Repr

namespace ComparableDoc

variable {T D : Type} [LinearOrder T] [LinearOrder D] {a b : ComparableDoc T D}

/-- `cmp`: greater features first, and then smaller addresses. -/
def cmp (a b : ComparableDoc T D) : Ordering :=
  (compare b.feature a.feature).then (compare a.doc b.doc)

/-- `a <= b`. -/
def le (a b : ComparableDoc T D) : Prop := (a.cmp b).isLE = true

instance : DecidableRel (le (T := T) (D := D)) := fun a b =>
  inferInstanceAs (Decidable ((a.cmp b).isLE = true))

theorem le_iff : a.le b ↔ b.feature < a.feature ∨ (a.feature = b.feature ∧ a.doc ≤ b.doc) := by
  unfold le cmp
  rcases lt_trichotomy b.feature a.feature with h | h | h
  · simp [compare_lt_iff_lt.mpr h, h]
  · simp [h, ← compare_le_iff_le, Ordering.isLE_iff_ne_gt]
  · simp [compare_gt_iff_gt.mpr h, h.not_gt, h.ne]

instance : IsTrans (ComparableDoc T D) le where
  trans a b c hab hbc := by
    rw [le_iff] at hab hbc ⊢
    rcases hab with hab | ⟨hab, hdoc⟩ <;> rcases hbc with hbc | ⟨hbc, hdoc'⟩
    · exact .inl (hbc.trans hab)
    · exact .inl (hbc ▸ hab)
    · exact .inl (hab ▸ hbc)
    · exact .inr ⟨hab.trans hbc, hdoc.trans hdoc'⟩

instance : Std.Total (le (T := T) (D := D)) where
  total a b := by
    rw [le_iff, le_iff]
    rcases lt_trichotomy a.feature b.feature with h | h | h
    · exact .inr (.inl h)
    · exact (le_total a.doc b.doc).imp (fun hle => .inr ⟨h, hle⟩) fun hle => .inr ⟨h.symm, hle⟩
    · exact .inl (.inl h)

instance : Std.Antisymm (le (T := T) (D := D)) where
  antisymm a b hab hba := by
    rw [le_iff] at hab hba
    obtain ⟨feature, doc⟩ := a
    obtain ⟨feature', doc'⟩ := b
    rcases hab with hab | ⟨rfl, hab⟩
    · rcases hba with hba | ⟨hba, -⟩
      · exact absurd hab hba.asymm
      · exact absurd hba hab.ne
    · rcases hba with hba | ⟨-, hba⟩
      · exact absurd hba (lt_irrefl _)
      · exact congrArg (ComparableDoc.mk feature) (le_antisymm hab hba)

end ComparableDoc

/-- A `BinaryHeap` of such documents: in front is the greatest, which has the least feature. -/
abbrev DocHeap (T D : Type) [LinearOrder T] [LinearOrder D] :=
  PriorityQueue (ComparableDoc T D) fun a b => b.le a

section Heap

variable {T D : Type} [LinearOrder T] [LinearOrder D] (heap : DocHeap T D)

/-- `into_sorted_vec`. -/
def intoSortedVec (q : heap.Queue) : List (ComparableDoc T D) :=
  (heap.items q).insertionSort ComparableDoc.le

/-- What both collectors do with a document: the test is on the feature alone. -/
def offer (limit : Nat) (q : heap.Queue) (x : ComparableDoc T D) : heap.Queue :=
  if limit ≤ (heap.items q).length then
    match heap.peek q with
    | some head => if head.feature < x.feature then heap.replace q x else q
    | none => q
  else
    heap.push q x

end Heap

section Collectors

variable {T : Type} [LinearOrder T]

/-- `TopSegmentCollector`. -/
structure TopSegmentCollector (heap : DocHeap T Nat) where
  limit : Nat
  heap : heap.Queue
  segmentOrd : Nat

namespace TopSegmentCollector

variable {heap : DocHeap T Nat}

/-- `new`: `fits` tells the capacities for which `BinaryHeap::with_capacity` does not panic. -/
def new (heap : DocHeap T Nat) (fits : Nat → Bool) (segmentOrd limit : Nat) :
    Option (TopSegmentCollector heap) :=
  if fits limit then some ⟨limit, heap.empty, segmentOrd⟩ else none

/-- `collect`. -/
def collect (c : TopSegmentCollector heap) (doc : Nat) (feature : T) : TopSegmentCollector heap :=
  { c with heap := offer heap c.limit c.heap ⟨feature, doc⟩ }

/-- `harvest`. -/
def harvest (c : TopSegmentCollector heap) : List (T × DocAddress) :=
  (intoSortedVec heap c.heap).map fun comparableDoc =>
    (comparableDoc.feature, toLex (c.segmentOrd, comparableDoc.doc))

end TopSegmentCollector

/-- `TopCollector`. -/
structure TopCollector where
  limit : Nat
  offset : Nat

namespace TopCollector

/-- `self.limit + self.offset`. -/
def capacity (c : TopCollector) : Nat := (c.limit + c.offset) % 2 ^ 64

/-- `merge_fruits`. -/
def mergeFruits (heap : DocHeap T DocAddress) (c : TopCollector)
    (children : List (List (T × DocAddress))) : List (T × DocAddress) :=
  if c.limit = 0 then
    []
  else
    let topCollector := children.foldl (fun q childFruit =>
      childFruit.foldl (fun q fruit => offer heap c.capacity q ⟨fruit.1, fruit.2⟩) q) heap.empty
    ((intoSortedVec heap topCollector).drop c.offset).map fun cdoc => (cdoc.feature, cdoc.doc)

/-- `for_segment`. -/
def forSegment (heap : DocHeap T Nat) (fits : Nat → Bool) (c : TopCollector) (segmentId : Nat) :
    Option (TopSegmentCollector heap) :=
  TopSegmentCollector.new heap fits segmentId c.capacity

/-- The documents of each segment from the ordinal on are collected and harvested. -/
def collectSegments (heap : DocHeap T Nat) (fits : Nat → Bool) (c : TopCollector) :
    Nat → List (List (Nat × T)) → Option (List (List (T × DocAddress)))
  | _, [] => some []
  | ord, docs :: segments => do
    let collector ← c.forSegment heap fits ord
    let fruit := (docs.foldl (fun s d => s.collect d.1 d.2) collector).harvest
    let fruits ← collectSegments heap fits c (ord + 1) segments
    some (fruit :: fruits)

end TopCollector

end Collectors

/-! ### One heap -/

section Heap

variable {T D : Type} [LinearOrder T] [LinearOrder D] {heap : DocHeap T D} {limit : Nat}
  {xs ys : List (ComparableDoc T D)} {x : ComparableDoc T D} {q : heap.Queue}

/-- Documents with one feature come in the order of their addresses. -/
def Tied (y x : ComparableDoc T D) : Prop := y.feature = x.feature → y.doc ≤ x.doc

/-- **One more document.** The heap keeps the best of what it was offered. -/
theorem offer_spec (h : Selected ComparableDoc.le limit xs (heap.items q))
    (htied : ∀ y ∈ xs, Tied y x) :
    Selected ComparableDoc.le limit (xs ++ [x]) (heap.items (offer heap limit q x)) := by
  unfold offer
  split
  · rename_i hcap
    have hfull : (heap.items q).length = limit := le_antisymm h.length_le hcap
    cases hpeek : heap.peek q with
    | none =>
      have hnil := heap.peek_none q hpeek
      exact h.skip hfull fun b hb => absurd (hnil ▸ hb) List.not_mem_nil
    | some head =>
      obtain ⟨rest, hperm, hlast, hreplace, -⟩ := heap.peek_some q head hpeek
      have hmem : head ∈ heap.items q := hperm.mem_iff.mpr List.mem_cons_self
      dsimp only
      split
      · rename_i hlt
        exact (h.replace hfull hperm hlast (ComparableDoc.le_iff.mpr (.inl hlt))).perm (hreplace x)
      · rename_i hge
        -- the last one that is kept has at least the feature of `x`, or a smaller address
        have hhead : head.le x := by
          rcases (not_lt.mp hge).lt_or_eq with hlt | heq
          · exact ComparableDoc.le_iff.mpr (.inl hlt)
          · exact ComparableDoc.le_iff.mpr (.inr ⟨heq.symm, htied head (h.subset hmem) heq.symm⟩)
        refine h.skip hfull fun b hb => ?_
        rcases List.mem_cons.mp (hperm.mem_iff.mp hb) with rfl | hb
        · exact hhead
        · exact trans_of ComparableDoc.le (hlast b hb) hhead
  · rename_i hroom
    exact (h.push (Nat.lt_of_not_le hroom)).perm (heap.items_push q x)

theorem foldl_offer_spec (h : Selected ComparableDoc.le limit xs (heap.items q))
    (htied : (xs ++ ys).Pairwise Tied) :
    Selected ComparableDoc.le limit (xs ++ ys) (heap.items (ys.foldl (offer heap limit) q)) := by
  induction ys generalizing xs q with
  | nil => simpa using h
  | cons x ys ih =>
    have hx := offer_spec (x := x) h fun y hy =>
      (List.pairwise_append.mp htied).2.2 y hy x List.mem_cons_self
    simpa using ih hx (by simpa using htied)

end Heap

/-! ### The segments and the merge -/

section Merge

variable {T : Type} [LinearOrder T] (segmentHeap : DocHeap T Nat)
  (heap : DocHeap T DocAddress)

/-- The documents of a segment with their addresses. -/
def addressed (ord : Nat) (docs : List (Nat × T)) : List (ComparableDoc T DocAddress) :=
  docs.map fun d => ⟨d.2, toLex (ord, d.1)⟩

/-- All documents of the segments from the ordinal on. -/
def allDocs : Nat → List (List (Nat × T)) → List (List (ComparableDoc T DocAddress))
  | _, [] => []
  | ord, docs :: segments => addressed ord docs :: allDocs (ord + 1) segments

/-- The documents of a segment, in increasing order. -/
def InOrder (docs : List (Nat × T)) : Prop := docs.Pairwise fun d e => d.1 < e.1

variable {segmentHeap heap} {c : TopCollector} {ord : Nat} {docs : List (Nat × T)}
  {segments : List (List (Nat × T))}

/-- A fruit as the merge compares it. -/
def ofFruit (fruit : T × DocAddress) : ComparableDoc T DocAddress := ⟨fruit.1, fruit.2⟩

/-- What a segment harvests, -/
def TopCollector.fruit (heap : DocHeap T Nat) (c : TopCollector) (ord : Nat)
    (docs : List (Nat × T)) : List (T × DocAddress) :=
  (docs.foldl (fun s d => s.collect d.1 d.2)
    (⟨c.capacity, heap.empty, ord⟩ : TopSegmentCollector heap)).harvest

/-- and what all of them do, if their heaps can be made. -/
def TopCollector.fruits (heap : DocHeap T Nat) (c : TopCollector) :
    Nat → List (List (Nat × T)) → List (List (T × DocAddress))
  | _, [] => []
  | ord, docs :: segments => c.fruit heap ord docs :: fruits heap c (ord + 1) segments

theorem TopCollector.collectSegments_eq (heap : DocHeap T Nat) {fits : Nat → Bool}
    {c : TopCollector} (hfits : fits c.capacity) (ord : Nat) (segments : List (List (Nat × T))) :
    c.collectSegments heap fits ord segments = some (c.fruits heap ord segments) := by
  induction segments generalizing ord with
  | nil => rfl
  | cons docs segments ih =>
    rw [collectSegments, forSegment, TopSegmentCollector.new, if_pos hfits, ih]
    rfl

/-- The best documents of a segment, the best first. -/
theorem fruit_spec (segmentHeap : DocHeap T Nat) (c : TopCollector) (ord : Nat)
    (h : InOrder docs) :
    Selected ComparableDoc.le c.capacity (addressed ord docs)
        ((c.fruit segmentHeap ord docs).map ofFruit) ∧
      ((c.fruit segmentHeap ord docs).map ofFruit).Pairwise ComparableDoc.le := by
  -- the collector is its heap
  have hrun : ∀ (docs : List (Nat × T)) (s : TopSegmentCollector segmentHeap),
      docs.foldl (fun s d => s.collect d.1 d.2) s =
        { s with heap := (docs.map fun d => ⟨d.2,
          d.1⟩).foldl (offer segmentHeap s.limit) s.heap } := by
    intro docs
    induction docs with
    | nil => intro s; rfl
    | cons d docs ih => intro s; exact ih _
  have htied : (docs.map fun d => (⟨d.2, d.1⟩ : ComparableDoc T Nat)).Pairwise Tied :=
    List.pairwise_map.mpr (h.imp fun hlt _ => hlt.le)
  have hempty : Selected ComparableDoc.le c.capacity [] (segmentHeap.items segmentHeap.empty) := by
    rw [segmentHeap.items_empty]
    exact .nil
  have hselected := (foldl_offer_spec hempty htied).perm (List.perm_insertionSort ComparableDoc.le _)
  have hmap : ∀ a b : ComparableDoc T Nat, a.le b →
      ComparableDoc.le (T := T) (D := DocAddress) ⟨a.feature, toLex (ord, a.doc)⟩
        ⟨b.feature, toLex (ord, b.doc)⟩ := by
    intro a b hab
    rw [ComparableDoc.le_iff] at hab ⊢
    exact hab.imp id fun hab => ⟨hab.1, by simp [Prod.Lex.toLex_le_toLex, hab.2]⟩
  have hfruits : (c.fruit segmentHeap ord docs).map ofFruit =
      (intoSortedVec segmentHeap ((docs.map fun d => (⟨d.2, d.1⟩ : ComparableDoc T Nat)).foldl
        (offer segmentHeap c.capacity) segmentHeap.empty)).map
          fun a => ⟨a.feature, toLex (ord, a.doc)⟩ := by
    rw [TopCollector.fruit, hrun, TopSegmentCollector.harvest, List.map_map]
    rfl
  rw [hfruits]
  refine ⟨by simpa [addressed, intoSortedVec, Function.comp_def] using hselected.map hmap, ?_⟩
  exact List.pairwise_map.mpr ((List.pairwise_insertionSort _ _).imp (hmap _ _))

theorem segment_of_mem (h : ∀ docs ∈ segments, InOrder docs) {a : ComparableDoc T DocAddress} :
    ∀ {ord : Nat}, a ∈ ((c.fruits segmentHeap ord segments).map fun s => s.map ofFruit).flatten →
      ord ≤ (ofLex a.doc).1 := by
  induction segments with
  | nil => simp [TopCollector.fruits]
  | cons docs segments ih =>
    intro ord ha
    rw [TopCollector.fruits, List.map_cons, List.flatten_cons, List.mem_append] at ha
    rcases ha with ha | ha
    · have hmem := (fruit_spec _ _ _ (h docs List.mem_cons_self)).1.subset ha
      obtain ⟨d, -, rfl⟩ := List.mem_map.mp hmem
      exact le_rfl
    · exact (Nat.le_succ _).trans (ih (fun docs hdocs => h docs (List.mem_cons_of_mem _ hdocs)) ha)

/-- What all segments harvest: selections of distinct documents, in an order in which the merge can
    take them. -/
theorem fruits_spec (segmentHeap : DocHeap T Nat) (c : TopCollector)
    (h : ∀ docs ∈ segments, InOrder docs) :
    ∀ ord : Nat,
      let fruits := (c.fruits segmentHeap ord segments).map fun s => s.map ofFruit
      List.Forall₂ (Selected ComparableDoc.le c.capacity) (allDocs ord segments) fruits ∧
        fruits.flatten.Nodup ∧ fruits.flatten.Pairwise Tied := by
  induction segments with
  | nil => simp [TopCollector.fruits, allDocs]
  | cons docs segments ih =>
    intro ord
    have hsegments : ∀ docs ∈ segments, InOrder docs := fun docs hdocs =>
      h docs (List.mem_cons_of_mem _ hdocs)
    obtain ⟨hforall, hnodup, htied⟩ := ih hsegments (ord + 1)
    obtain ⟨hselected, hsorted⟩ :=
      fruit_spec segmentHeap c ord (h docs List.mem_cons_self)
    have hdistinct : (addressed ord docs).Nodup :=
      List.pairwise_map.mpr ((h docs List.mem_cons_self).imp fun hlt heq => by simp_all)
    have hfirst : ∀ a ∈ (c.fruit segmentHeap ord docs).map ofFruit,
        (ofLex a.doc).1 = ord := by
      intro a ha
      obtain ⟨d, -, rfl⟩ := List.mem_map.mp (hselected.subset ha)
      rfl
    have hlater : ∀ a ∈ ((c.fruits segmentHeap (ord + 1) segments).map
        fun s => s.map ofFruit).flatten, ord < (ofLex a.doc).1 := fun a ha =>
      segment_of_mem hsegments ha
    refine ⟨.cons hselected hforall, ?_, ?_⟩
    · refine List.nodup_append.mpr ⟨hselected.nodup hdistinct, hnodup, fun a ha b hb heq => ?_⟩
      subst heq
      exact absurd (hfirst a ha) (hlater a hb).ne'
    · refine List.pairwise_append.mpr ⟨hsorted.imp fun hle heq => ?_, htied, fun a ha b hb _ => ?_⟩
      · exact ((ComparableDoc.le_iff.mp hle).resolve_left (by rw [heq]; exact lt_irrefl _)).2
      · exact (Prod.Lex.le_iff.mpr (.inl ((hfirst a ha).trans_lt (hlater b hb))))

/-- **The top documents.** When `limit + offset` does not overflow, and a heap of this capacity
    can be made, collecting every segment and merging the fruits gives the documents from `offset`
    on, at most `limit` of them, of all documents by descending feature and ascending address. -/
theorem mergeFruits_eq {fits : Nat → Bool} (hsum : c.limit + c.offset < 2 ^ 64)
    (hfits : fits (c.limit + c.offset)) (h : ∀ docs ∈ segments, InOrder docs) :
    (c.collectSegments segmentHeap fits 0 segments).map (c.mergeFruits heap) =
      some (((((allDocs 0 segments).flatten.insertionSort ComparableDoc.le).drop c.offset).take
        c.limit).map fun cdoc => (cdoc.feature, cdoc.doc)) := by
  have hcapacity : c.capacity = c.limit + c.offset := Nat.mod_eq_of_lt hsum
  rw [TopCollector.collectSegments_eq segmentHeap (hcapacity ▸ hfits), Option.map_some,
    Option.some.injEq]
  unfold TopCollector.mergeFruits
  split
  · rename_i hlimit
    rw [hlimit, List.take_zero, List.map_nil]
  · obtain ⟨hforall, hnodup, htied⟩ := fruits_spec segmentHeap c h 0
    have hempty : Selected ComparableDoc.le c.capacity [] (heap.items heap.empty) := by
      rw [heap.items_empty]
      exact .nil
    have hselected := (Selected.merge hforall hnodup
      (by simpa using foldl_offer_spec hempty (by simpa using htied))).sort_eq
    have hrun : (c.fruits segmentHeap 0 segments).foldl (fun q childFruit =>
        childFruit.foldl (fun q fruit => offer heap c.capacity q ⟨fruit.1, fruit.2⟩) q) heap.empty =
          ((c.fruits segmentHeap 0 segments).map fun s => s.map ofFruit).flatten.foldl
            (offer heap c.capacity) heap.empty := by
      rw [List.foldl_flatten, List.foldl_map]
      simp only [List.foldl_map]
      rfl
    dsimp only
    rw [hrun, intoSortedVec, hselected, hcapacity, List.drop_take, Nat.add_sub_cancel]

end Merge

/-- A heap that is kept in order. -/
def orderedHeap (T D : Type) [LinearOrder T] [LinearOrder D] : DocHeap T D :=
  have : Std.Total fun a b : ComparableDoc T D => b.le a := ⟨fun a b => total_of ComparableDoc.le b a⟩
  have : IsTrans (ComparableDoc T D) fun a b => b.le a :=
    ⟨fun _ _ _ hab hbc => trans_of ComparableDoc.le hbc hab⟩
  PriorityQueue.ordered fun a b : ComparableDoc T D => b.le a

/-- The capacities of a heap of elements with sixteen bytes: they are `isize::MAX` bytes at most. -/
def capacityFits (capacity : Nat) : Bool := capacity * 16 < 2 ^ 63

/-- Of three documents in two segments, two with the best feature: the second and the third. -/
theorem mergeFruits_eq_three :
    (TopCollector.collectSegments (orderedHeap Nat Nat) capacityFits ⟨2, 1⟩ 0
        [[(0, 5), (3, 7)], [(1, 7)]]).map
        ((⟨2, 1⟩ : TopCollector).mergeFruits (orderedHeap Nat DocAddress)) =
      some [(7, toLex (1, 1)), (5, toLex (0, 0))] := by
  rw [mergeFruits_eq (by decide) (by decide) (by simp [InOrder])]
  decide

/-- The greatest limit: with an offset the sum wraps to zero, and no document is kept; without one
    no heap can be made. -/
theorem limit_overflows :
    let c : TopCollector := ⟨2 ^ 64 - 1, 1⟩
    let segments := [[(0, 5), (3, 7)]]
    (c.collectSegments (orderedHeap Nat Nat) capacityFits 0 segments).map
        (c.mergeFruits (orderedHeap Nat DocAddress)) = some [] ∧
      ((((allDocs 0 segments).flatten.insertionSort ComparableDoc.le).drop c.offset).take
        c.limit).map (fun cdoc => (cdoc.feature, cdoc.doc)) = [(5, toLex (0, 0))] ∧
      (⟨2 ^ 64 - 1, 0⟩ : TopCollector).collectSegments (orderedHeap Nat Nat) capacityFits 0
        segments = none := by
  decide

end TeaclaveCrates.Tantivy
