import Mathlib.Data.List.TakeDrop

namespace TeaclaveCrates.Rayon

/-!
# rayon — the runs of the merge sort

`slice/mergesort.rs`: runs that are in order already are found from the end of the slice on and put
on a stack, where neighbours of them are merged. The comparison is any function at all.

* `collapse` — which two runs are merged next;
* `mergesort` — the whole sort, `none` when the assertion at its end fails;
* `Balanced` — the two inequalities between the lengths of the runs;
* `Processed` — what holds of the stack while runs are merged; `Processed.mergeAt` keeps it;
* `Head` — the states in which a further run is looked for;
* `runs_balanced` — the stack in all of them, and at the end.
-/

variable {α : Type*} (isLess : α → α → Bool)

/-! ### Runs and merging -/

/-- What was found of a chunk. -/
inductive MergesortResult
  | nonDescending
  | descending
  | sorted
deriving DecidableEq

/-- A sorted stretch of the slice. -/
structure Run where
  start : Nat
  len : Nat
deriving DecidableEq

/-- A slice `v[start..endAt]` is changed in place. -/
def onSlice (start endAt : Nat) (f : List α → List α) (v : List α) : List α :=
  v.take start ++ f ((v.take endAt).drop start) ++ v.drop endAt

/-- The hole goes past the elements that are less than the one that was taken out. -/
def fillHole (tmp : α) : List α → List α
  | [] => [tmp]
  | x :: v => if isLess x tmp then x :: fillHole tmp v else tmp :: x :: v

/-- Insert the first element into the sorted rest. -/
def insertHead : List α → List α
  | x :: y :: v => if isLess y x then y :: fillHole isLess x v else x :: y :: v
  | v => v

/-- The left run is in the buffer. -/
def mergeForward : List α → List α → List α
  | [], right => right
  | left, [] => left
  | l :: left, r :: right =>
    if isLess r l then r :: mergeForward (l :: left) right else l :: mergeForward left (r :: right)

/-- The right run is in the buffer. Both runs, and the result, are in reverse. -/
def mergeBackward : List α → List α → List α
  | [], right => right
  | left, [] => left
  | l :: left, r :: right =>
    if isLess r l then l :: mergeBackward left (r :: right) else r :: mergeBackward (l :: left) right

/-- Merge `v[..mid]` and `v[mid..]`; the shorter one is copied. -/
def merge (mid : Nat) (v : List α) : List α :=
  if mid ≤ v.length - mid then mergeForward isLess (v.take mid) (v.drop mid)
  else (mergeBackward isLess (v.take mid).reverse (v.drop mid).reverse).reverse

theorem length_fillHole (tmp : α) (v : List α) : (fillHole isLess tmp v).length = v.length + 1 := by
  induction v with
  | nil => rfl
  | cons x v ih =>
    rw [fillHole]
    split <;> simp [ih]

theorem length_insertHead (v : List α) : (insertHead isLess v).length = v.length := by
  unfold insertHead
  split
  · split <;> simp [length_fillHole]
  · rfl

theorem length_mergeForward (left right : List α) :
    (mergeForward isLess left right).length = left.length + right.length := by
  fun_induction mergeForward isLess left right <;> simp_all <;> omega

theorem length_mergeBackward (left right : List α) :
    (mergeBackward isLess left right).length = left.length + right.length := by
  fun_induction mergeBackward isLess left right <;> simp_all <;> omega

theorem length_merge (mid : Nat) (v : List α) : (merge isLess mid v).length = v.length := by
  unfold merge
  split <;> simp [length_mergeForward, length_mergeBackward] <;> omega

variable {v : List α}

variable {start endAt : Nat}

theorem length_onSlice {f : List α → List α} (hf : ∀ w, (f w).length = w.length)
    (h : start ≤ endAt) :
    (onSlice start endAt f v).length = v.length := by
  simp only [onSlice, List.length_append, hf, List.length_take, List.length_drop]
  omega

/-! ### The stack -/

/-- The length of the run at an index. -/
def lenAt (runs : List Run) (i : Nat) : Nat := (runs[i]?.map Run.len).getD 0

/-- Which two runs are merged next: the one at the index, and the one behind it. -/
def collapse (runs : List Run) : Option Nat :=
  let n := runs.length
  if 2 ≤ n ∧ ((runs[n - 1]?.map Run.start).getD 0 = 0 ∨ lenAt runs (n - 2) ≤ lenAt runs (n - 1) ∨
      (3 ≤ n ∧ lenAt runs (n - 3) ≤ lenAt runs (n - 2) + lenAt runs (n - 1)) ∨
      (4 ≤ n ∧ lenAt runs (n - 4) ≤ lenAt runs (n - 3) + lenAt runs (n - 2))) then
    if 3 ≤ n ∧ lenAt runs (n - 3) < lenAt runs (n - 1) then some (n - 3) else some (n - 2)
  else none

variable {runs : List Run}

variable {r : Nat}

theorem collapse_eq_some (h : collapse runs = some r) :
    r + 1 < runs.length ∧ runs.length - 3 ≤ r := by
  simp only [collapse] at h
  split at h
  · split at h <;> cases h <;> omega
  · cases h

/-- What is behind a merge: the elements, and the stack. -/
def mergeAt (v : List α) (runs : List Run) (r : Nat) : List α × List Run :=
  match runs[r + 1]?, runs[r]? with
  | some left, some right =>
    (onSlice left.start (right.start + right.len) (merge isLess left.len) v,
      (runs.set r ⟨left.start, left.len + right.len⟩).eraseIdx (r + 1))
  | _, _ => (v, runs.eraseIdx (r + 1))

theorem length_mergeAt (h : r + 1 < runs.length) :
    (mergeAt isLess v runs r).2.length + 1 = runs.length := by
  unfold mergeAt
  split <;> simp only [List.length_eraseIdx, List.length_set, h, if_true] <;> omega

/-- `while let Some(r) = collapse(&runs)`. -/
def collapseLoop (v : List α) (runs : List Run) : List α × List Run :=
  match _h : collapse runs with
  | some r => collapseLoop (mergeAt isLess v runs r).1 (mergeAt isLess v runs r).2
  | none => (v, runs)
termination_by runs.length
decreasing_by
  have := length_mergeAt isLess (v := v) (collapse_eq_some _h).1
  omega

/-! ### The sort -/

/-- Very short runs are extended to this length. -/
def MIN_RUN : Nat := 10

/-- The slice, and the runs found from its end. -/
structure Sorting (α : Type*) where
  v : List α
  runs : List Run
  endAt : Nat

/-- `is_less(v[i], v[j])`. -/
def lessAt (v : List α) (i j : Nat) : Bool :=
  match v[i]?, v[j]? with
  | some x, some y => isLess x y
  | _, _ => false

/-- How far a strictly descending run goes to the front. -/
def descend (v : List α) : Nat → Nat
  | 0 => 0
  | start + 1 => if lessAt isLess v (start + 1) start then descend v start else start + 1

/-- How far a non-descending run goes to the front. -/
def ascend (v : List α) : Nat → Nat
  | 0 => 0
  | start + 1 => if !lessAt isLess v (start + 1) start then ascend v start else start + 1

/-- The next natural run, or the result when it is the whole slice. -/
def naturalRun (v : List α) (endAt : Nat) : MergesortResult ⊕ Nat × List α :=
  let start := endAt - 1
  if start = 0 then .inr (start, v)
  else
    let start := start - 1
    if lessAt isLess v (start + 1) start then
      let start := descend isLess v start
      if start = 0 ∧ endAt = v.length then .inl .descending
      else .inr (start, onSlice start endAt List.reverse v)
    else
      let start := ascend isLess v start
      if endAt - start = v.length then .inl .nonDescending else .inr (start, v)

/-- Elements in front of a run that is too short are inserted into it. -/
def extendRun (endAt : Nat) : Nat → List α → Nat × List α
  | 0, v => (0, v)
  | start + 1, v =>
    if endAt - (start + 1) < MIN_RUN then
      extendRun endAt start (onSlice start endAt (insertHead isLess) v)
    else (start + 1, v)

/-- The body of the outer loop. -/
def nextRun (s : Sorting α) : MergesortResult ⊕ Sorting α :=
  match naturalRun isLess s.v s.endAt with
  | .inl result => .inl result
  | .inr (start, v) =>
    let (start, v) := extendRun isLess s.endAt start v
    let (v, runs) := collapseLoop isLess v (s.runs ++ [⟨start, s.endAt - start⟩])
    .inr ⟨v, runs, start⟩

theorem descend_le (v : List α) (start : Nat) : descend isLess v start ≤ start := by
  induction start with
  | zero => simp [descend]
  | succ start ih =>
    rw [descend]
    split <;> omega

theorem ascend_le (v : List α) (start : Nat) : ascend isLess v start ≤ start := by
  induction start with
  | zero => simp [ascend]
  | succ start ih =>
    rw [ascend]
    split <;> omega

theorem naturalRun_spec {v' : List α} (h : naturalRun isLess v endAt = .inr (start, v'))
    (hend : 0 < endAt) :
    start < endAt ∧ v'.length = v.length := by
  have hd := descend_le isLess v (endAt - 1 - 1)
  have ha := ascend_le isLess v (endAt - 1 - 1)
  simp only [naturalRun] at h
  split at h
  · cases h
    exact ⟨by omega, rfl⟩
  · split at h <;> split at h <;> cases h
    · exact ⟨by omega, length_onSlice (by simp) (by omega)⟩
    · exact ⟨by omega, rfl⟩

theorem extendRun_spec (h : start < endAt) :
    (extendRun isLess endAt start v).1 < endAt ∧
      (extendRun isLess endAt start v).2.length = v.length := by
  induction start generalizing v with
  | zero => exact ⟨h, rfl⟩
  | succ start ih =>
    rw [extendRun]
    split
    · have := ih (v := onSlice start endAt (insertHead isLess) v) (by omega)
      rwa [length_onSlice (length_insertHead isLess) (by omega)] at this
    · exact ⟨h, rfl⟩

variable {s : Sorting α}

theorem nextRun_endAt {s' : Sorting α} (h : nextRun isLess s = .inr s') (hend : 0 < s.endAt) :
    s'.endAt < s.endAt := by
  simp only [nextRun] at h
  split at h
  · cases h
  · next start v hrun =>
    cases h
    exact (extendRun_spec isLess (naturalRun_spec isLess hrun hend).1).1

/-- The loop over the runs, and the assertion behind it, which `none` fails. -/
def mergesortFrom (s : Sorting α) : Option (MergesortResult × List α) :=
  if _hend : s.endAt = 0 then
    if s.runs = [⟨0, s.v.length⟩] then some (.sorted, s.v) else none
  else
    match _h : nextRun isLess s with
    | .inl result => some (result, s.v)
    | .inr s' => mergesortFrom s'
termination_by s.endAt
decreasing_by exact nextRun_endAt isLess _h (Nat.pos_of_ne_zero _hend)

/-- Sort a chunk; `none` is a panic. -/
def mergesort (v : List α) : Option (MergesortResult × List α) :=
  mergesortFrom isLess ⟨v, [], v.length⟩

/-! ### The inequalities -/

/-- The inequalities between the lengths of the runs. -/
structure Balanced (runs : List Run) : Prop where
  lt : ∀ i, 1 ≤ i → i < runs.length → lenAt runs i < lenAt runs (i - 1)
  add_lt : ∀ i, 2 ≤ i → i < runs.length → lenAt runs (i - 1) + lenAt runs i < lenAt runs (i - 2)

/-- From the top of the part down to its bottom, the runs lie one behind the other, and none of them
    is empty. -/
def Adjacent : List Run → Nat → Nat → Prop
  | [], lo, hi => lo = hi
  | run :: runs, lo, hi => run.start + run.len = hi ∧ 0 < run.len ∧ Adjacent runs lo run.start

theorem lenAt_congr {runs' : List Run} {i : Nat} (h : runs[i]? = runs'[i]?) :
    lenAt runs i = lenAt runs' i := by
  rw [lenAt, lenAt, h]

/-- The inequalities of the first runs are about these runs only. -/
theorem Balanced.take_congr {runs' : List Run} {n m : Nat} (h : Balanced (runs.take n))
    (hlen : m ≤ runs.length) (hm : m ≤ n) (heq : ∀ i < m, runs[i]? = runs'[i]?) :
    Balanced (runs'.take m) := by
  have hat : ∀ i < m, lenAt (runs'.take m) i = lenAt (runs.take n) i := by
    intro i hi
    apply lenAt_congr
    rw [List.getElem?_take_of_lt hi, List.getElem?_take_of_lt (by omega), heq i hi]
  have hle : (runs'.take m).length ≤ m := List.length_take_le m runs'
  have hlen' : (runs.take n).length = min n runs.length := List.length_take
  constructor
  · intro i h1 hi
    rw [hat _ (by omega), hat _ (by omega)]
    exact h.lt i h1 (by omega)
  · intro i h2 hi
    rw [hat _ (by omega), hat _ (by omega), hat _ (by omega)]
    exact h.add_lt i h2 (by omega)

/-- When nothing is left to merge, the inequalities hold of the last runs as well. -/
theorem balanced_of_collapse (h : collapse runs = none)
    (hb : Balanced (runs.take (runs.length - 2))) : Balanced runs := by
  have hat : ∀ i < runs.length - 2, lenAt (runs.take (runs.length - 2)) i = lenAt runs i := by
    intro i hi
    exact lenAt_congr (List.getElem?_take_of_lt hi)
  have hlen : (runs.take (runs.length - 2)).length = runs.length - 2 := by simp
  have htop : 2 ≤ runs.length → lenAt runs (runs.length - 1) < lenAt runs (runs.length - 2) ∧
      (3 ≤ runs.length → lenAt runs (runs.length - 2) + lenAt runs (runs.length - 1) <
        lenAt runs (runs.length - 3)) ∧
      (4 ≤ runs.length → lenAt runs (runs.length - 3) + lenAt runs (runs.length - 2) <
        lenAt runs (runs.length - 4)) := by
    intro h2
    simp only [collapse] at h
    split at h
    · split at h <;> cases h
    · next hn =>
      simp only [not_and, not_or, Nat.not_le] at hn
      obtain ⟨-, hlt, hadd, hadd'⟩ := hn h2
      exact ⟨hlt, hadd, hadd'⟩
  constructor
  · intro i h1 hi
    by_cases hin : i < runs.length - 2
    · have := hb.lt i h1 (by omega)
      rwa [hat _ hin, hat _ (by omega)] at this
    · obtain ⟨hlt, hadd, -⟩ := htop (by omega)
      obtain rfl | hi2 : i = runs.length - 1 ∨ i = runs.length - 2 := by omega
      · exact hlt
      · have e : i - 1 = runs.length - 3 := by omega
        rw [e, hi2]
        omega
  · intro i h2 hi
    by_cases hin : i < runs.length - 2
    · have := hb.add_lt i h2 (by omega)
      rwa [hat _ hin, hat _ (by omega), hat _ (by omega)] at this
    · obtain ⟨-, hadd, hadd'⟩ := htop (by omega)
      obtain hi1 | hi2 : i = runs.length - 1 ∨ i = runs.length - 2 := by omega
      · have e1 : i - 1 = runs.length - 2 := by omega
        have e2 : i - 2 = runs.length - 3 := by omega
        rw [hi1, ← hi1, e1, e2, hi1]
        exact hadd (by omega)
      · have e1 : i - 1 = runs.length - 3 := by omega
        have e2 : i - 2 = runs.length - 4 := by omega
        rw [e1, e2, hi2]
        exact hadd' (by omega)

theorem adjacent_append {front back : List Run} {lo hi : Nat} :
    Adjacent (front ++ back) lo hi ↔ ∃ mid, Adjacent front mid hi ∧ Adjacent back lo mid := by
  induction front generalizing hi with
  | nil => simp [Adjacent]
  | cons run front ih =>
    simp only [List.cons_append, Adjacent, ih]
    constructor
    · rintro ⟨hrun, hpos, mid, hfront, hback⟩
      exact ⟨mid, ⟨hrun, hpos, hfront⟩, hback⟩
    · rintro ⟨mid, ⟨hrun, hpos, hfront⟩, hback⟩
      exact ⟨hrun, hpos, mid, hfront, hback⟩

theorem exists_split (h : r + 1 < runs.length) :
    ∃ front right left back, runs = front ++ right :: left :: back ∧ front.length = r := by
  refine ⟨runs.take r, runs[r], runs[r + 1], runs.drop (r + 2), ?_, by simp; omega⟩
  rw [List.getElem_cons_drop, List.getElem_cons_drop, List.take_append_drop]

theorem mergeAt_split {front back : List Run} {right left : Run} :
    mergeAt isLess v (front ++ right :: left :: back) front.length =
      (onSlice left.start (right.start + right.len) (merge isLess left.len) v,
        front ++ ⟨left.start, left.len + right.len⟩ :: back) := by
  unfold mergeAt
  simp [List.eraseIdx_append_of_length_le]

/-- What holds of the elements and the stack while runs are merged: only the last two runs may break
    the inequalities. -/
structure Processed (len lo : Nat) (v : List α) (runs : List Run) : Prop where
  length : v.length = len
  adjacent : Adjacent runs lo len
  balanced : Balanced (runs.take (runs.length - 2))

variable {len : Nat}

theorem Processed.mergeAt {lo : Nat} (h : Processed len lo v runs) (hr : collapse runs = some r) :
    Processed len lo (mergeAt isLess v runs r).1 (mergeAt isLess v runs r).2 := by
  obtain ⟨hlt, hle⟩ := collapse_eq_some hr
  obtain ⟨front, right, left, back, rfl, rfl⟩ := exists_split hlt
  obtain ⟨hlength, hadj, hbal⟩ := h
  rw [mergeAt_split]
  obtain ⟨mid, hfront, hright, hpos, hleft, hpos', hback⟩ := adjacent_append.mp hadj
  refine ⟨?_, ?_, ?_⟩
  · rw [length_onSlice (length_merge isLess _) (by omega)]
    exact hlength
  · refine adjacent_append.mpr ⟨mid, hfront, ?_, by simp; omega, hback⟩
    simp only
    omega
  · -- the merged run is one of the last two
    simp only [List.length_append, List.length_cons] at hbal hle ⊢
    refine hbal.take_congr (by omega) (by omega) fun i hi => ?_
    rw [List.getElem?_append_left (by omega), List.getElem?_append_left (by omega)]

theorem Processed.collapsed {lo : Nat} (h : Processed len lo v runs) :
    Processed len lo (collapseLoop isLess v runs).1 (collapseLoop isLess v runs).2 ∧
      collapse (collapseLoop isLess v runs).2 = none := by
  fun_induction collapseLoop isLess v runs with
  | case1 v runs r hr ih => exact ih (h.mergeAt isLess hr)
  | case2 v runs hnone => exact ⟨h, hnone⟩

/-! ### All runs of the sort -/

/-- The states in which the outer loop starts again. -/
inductive Head (v : List α) : Sorting α → Prop
  | start : Head v ⟨v, [], v.length⟩
  | next {s s' : Sorting α} : Head v s → 0 < s.endAt → nextRun isLess s = .inr s' → Head v s'

theorem processed_nextRun {s' : Sorting α} (h : Processed len s.endAt s.v s.runs)
    (hnone : collapse s.runs = none) (hend : 0 < s.endAt) (hs : nextRun isLess s = .inr s') :
    Processed len s'.endAt s'.v s'.runs ∧ collapse s'.runs = none := by
  simp only [nextRun] at hs
  split at hs
  · cases hs
  · next start v hrun =>
    cases hs
    obtain ⟨hstart, hv⟩ := naturalRun_spec isLess hrun hend
    obtain ⟨hstart', hv'⟩ := extendRun_spec isLess (v := v) hstart
    refine Processed.collapsed isLess ⟨by rw [hv', hv, h.length], ?_, ?_⟩
    · refine adjacent_append.mpr ⟨s.endAt, h.adjacent, ?_⟩
      simp only [Adjacent, and_true]
      omega
    · have hbal : Balanced (s.runs.take s.runs.length) := by
        rw [List.take_length]
        exact balanced_of_collapse hnone h.balanced
      simp only [List.length_append, List.length_singleton]
      refine hbal.take_congr (by omega) (by omega) fun i hi => ?_
      rw [List.getElem?_append_left (by omega)]

theorem Head.processed (h : Head isLess v s) :
    Processed v.length s.endAt s.v s.runs ∧ collapse s.runs = none := by
  induction h with
  | start => exact ⟨⟨rfl, rfl, ⟨by simp, by simp⟩⟩, rfl⟩
  | next _ hend hs ih => exact processed_nextRun isLess ih.1 ih.2 hend hs

/-- Once the front of the slice is reached, nothing but one run is left. -/
theorem runs_eq_singleton (h : Processed len 0 v runs) (hnone : collapse runs = none)
    (hlen : 0 < len) : runs = [⟨0, len⟩] := by
  have hadj := h.adjacent
  rcases List.eq_nil_or_concat runs with rfl | ⟨front, top, rfl⟩
  · simp only [Adjacent] at hadj
    omega
  · rw [List.concat_eq_append] at hadj hnone ⊢
    obtain ⟨mid, hfront, htop, -, hzero⟩ := adjacent_append.mp hadj
    simp only [Adjacent] at hzero
    -- a top run at the start of the slice always asks for a merge
    have hshort : front = [] := by
      by_contra hne
      have hpos := List.length_pos_iff.mpr hne
      simp only [collapse] at hnone
      split at hnone
      · split at hnone <;> cases hnone
      · next hn =>
        refine hn ⟨by simp; omega, Or.inl ?_⟩
        simp [← hzero]
    subst hshort
    simp only [Adjacent] at hfront
    obtain ⟨start, topLen⟩ := top
    simp only at htop hzero
    simp only [List.nil_append, List.cons.injEq, Run.mk.injEq, and_true]
    omega

theorem mergesortFrom_isSome (h : Head isLess v s) (hv : v ≠ []) :
    (mergesortFrom isLess s).isSome := by
  fun_induction mergesortFrom isLess s with
  | case1 => rfl
  | case2 s hend hne =>
    obtain ⟨hp, hnone⟩ := h.processed
    rw [hend] at hp
    refine absurd (runs_eq_singleton hp hnone (List.length_pos_iff.mpr hv)) ?_
    rwa [hp.length] at hne
  | case3 => rfl
  | case4 s hend s' hs ih => exact ih (h.next (Nat.pos_of_ne_zero hend) hs)

/-- Whenever a further run is looked for, the runs cover what was processed and are balanced. When
    all of a slice that is not empty was processed, one run is left, and the sort returns. -/
theorem runs_balanced (isLess : α → α → Bool) (v : List α) :
    (∀ s, Head isLess v s → Adjacent s.runs s.endAt v.length ∧ Balanced s.runs) ∧
      (v ≠ [] → (∀ s, Head isLess v s → s.endAt = 0 → s.runs = [⟨0, v.length⟩]) ∧
        (mergesort isLess v).isSome) := by
  refine ⟨fun s hs => ?_, fun hv => ⟨fun s hs hend => ?_, mergesortFrom_isSome isLess .start hv⟩⟩
  · obtain ⟨hp, hnone⟩ := hs.processed
    exact ⟨hp.adjacent, balanced_of_collapse hnone hp.balanced⟩
  · obtain ⟨hp, hnone⟩ := hs.processed
    rw [hend] at hp
    exact runs_eq_singleton hp hnone (List.length_pos_iff.mpr hv)

theorem runs_balanced_three : (mergesort (fun x y : Nat => decide (x < y)) [2, 3, 1]).isSome :=
  ((runs_balanced (fun x y : Nat => decide (x < y)) [2, 3, 1]).2 (by simp)).2

/-- The empty slice is exhausted with no run at all, and the assertion fails. -/
theorem mergesort_nil_fails :
    Head (fun x y : Nat => decide (x < y)) [] ⟨[], [], 0⟩ ∧
      mergesort (fun x y : Nat => decide (x < y)) [] = none := by
  refine ⟨.start, ?_⟩
  rw [mergesort, mergesortFrom]
  rfl

end TeaclaveCrates.Rayon
