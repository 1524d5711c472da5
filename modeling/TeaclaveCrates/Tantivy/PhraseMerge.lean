import Mathlib.Data.List.Basic
import Mathlib.Algebra.Order.Ring.Nat

namespace TeaclaveCrates.Tantivy.Phrase

/-!
# Intersecting lists of positions

The merge loops of `phrase_scorer.rs`. Two of them write the matches into the front of the array
that they read, two count and two only ask for a match; one of each two allows for slop.

* `Merge` — how a loop compares two positions and what it skips at a match.
* `intersection`, `intersectionCount`, `intersectionExists` and their slop versions.
* `merged` — the matches as a list; `inPlaceLoop_spec`, `countLoop_eq` and `existsLoop_iff` say
  that all loops find these.
* `mem_merged_iff` — a match takes each position on the left to the nearest one on the right.
* `phraseMatches_ne_nil_iff` — what is left after all lists have been merged.

The loops run on fuel, one unit for each round; there are at most as many rounds as positions.
-/

/-! ### The loops -/

/-- "The three conditions": the position on the left is too far in front of the one on the right,
    within the slop of it, or behind it. -/
def slopOrder (slop left right : Nat) : Ordering :=
  let rightSlop := if slop ≤ right then right - slop else 0
  if left < rightSlop then .lt
  else if rightSlop ≤ left ∧ left ≤ right then .eq
  else .gt

/-- How a loop compares, and whether "there could be a better match". -/
structure Merge where
  order : Nat → Nat → Ordering
  best : Bool

def Merge.exact : Merge := ⟨compare, false⟩

def Merge.withSlop (slop : Nat) : Merge := ⟨slopOrder slop, true⟩

/-- What is left behind a match with `right`, from the position behind the one that matched. -/
def Merge.skip (m : Merge) (right : Nat) (left : List Nat) : List Nat :=
  if m.best then left.dropWhile (· ≤ right) else left

def existsLoop (m : Merge) : Nat → List Nat → List Nat → Bool
  | fuel + 1, l :: left, r :: right =>
    match m.order l r with
    | .lt => existsLoop m fuel left (r :: right)
    | .eq => true
    | .gt => existsLoop m fuel (l :: left) right
  | _, _, _ => false

def countLoop (m : Merge) : Nat → List Nat → List Nat → Nat → Nat
  | fuel + 1, l :: left, r :: right, count =>
    match m.order l r with
    | .lt => countLoop m fuel left (r :: right) count
    | .eq => countLoop m fuel (m.skip r left) right (count + 1)
    | .gt => countLoop m fuel (l :: left) right count
  | _, _, _, count => count

/-- The inner loop on the array: "the next value is better". -/
def bestMatch (left : List Nat) (right : Nat) : Nat → Nat → Nat
  | 0, leftIndex => leftIndex
  | fuel + 1, leftIndex =>
    match left[leftIndex + 1]? with
    | none => leftIndex
    | some next => if right < next then leftIndex else bestMatch left right fuel (leftIndex + 1)

/-- The loop that "stores the match in left", whose array is read and written at once. -/
def inPlaceLoop (m : Merge) (right : List Nat) : Nat → List Nat → Nat → Nat → Nat → List Nat × Nat
  | 0, left, _, _, count => (left, count)
  | fuel + 1, left, leftIndex, rightIndex, count =>
    match left[leftIndex]?, right[rightIndex]? with
    | some l, some r =>
      match m.order l r with
      | .lt => inPlaceLoop m right fuel left (leftIndex + 1) rightIndex count
      | .eq =>
        let leftIndex := if m.best then bestMatch left r left.length leftIndex else leftIndex
        inPlaceLoop m right fuel (left.set count r) (leftIndex + 1) (rightIndex + 1) (count + 1)
      | .gt => inPlaceLoop m right fuel left leftIndex (rightIndex + 1) count
    | _, _ => (left, count)

/-- More rounds than there are positions. -/
def rounds (left right : List Nat) : Nat := left.length + right.length + 1

def intersectionExists (left right : List Nat) : Bool :=
  existsLoop .exact (rounds left right) left right

def intersectionCount (left right : List Nat) : Nat :=
  countLoop .exact (rounds left right) left right 0

def intersection (left right : List Nat) : List Nat × Nat :=
  inPlaceLoop .exact right (rounds left right) left 0 0 0

def intersectionWithSlop (left right : List Nat) (slop : Nat) : List Nat × Nat :=
  inPlaceLoop (.withSlop slop) right (rounds left right) left 0 0 0

def intersectionCountWithSlop (left right : List Nat) (slop : Nat) : Nat :=
  countLoop (.withSlop slop) (rounds left right) left right 0

def intersectionExistsWithSlop (left right : List Nat) (slop : Nat) : Bool :=
  existsLoop (.withSlop slop) (rounds left right) left right

/-! ### The matches -/

/-- The positions on the right that match. -/
def merged (m : Merge) : Nat → List Nat → List Nat → List Nat
  | fuel + 1, l :: left, r :: right =>
    match m.order l r with
    | .lt => merged m fuel left (r :: right)
    | .eq => r :: merged m fuel (m.skip r left) right
    | .gt => merged m fuel (l :: left) right
  | _, _, _ => []

variable (m : Merge)

theorem existsLoop_iff (fuel : Nat) (left right : List Nat) :
    existsLoop m fuel left right = true ↔ merged m fuel left right ≠ [] := by
  induction fuel generalizing left right with
  | zero => simp [existsLoop, merged]
  | succ fuel ih =>
    match left, right with
    | [], _ => simp [existsLoop, merged]
    | _ :: _, [] => simp [existsLoop, merged]
    | l :: left, r :: right =>
      rw [existsLoop, merged]
      cases m.order l r with
      | lt => exact ih left (r :: right)
      | eq => simp
      | gt => exact ih (l :: left) right

theorem countLoop_eq (fuel : Nat) (left right : List Nat) (count : Nat) :
    countLoop m fuel left right count = count + (merged m fuel left right).length := by
  induction fuel generalizing left right count with
  | zero => simp [countLoop, merged]
  | succ fuel ih =>
    match left, right with
    | [], _ => simp [countLoop, merged]
    | _ :: _, [] => simp [countLoop, merged]
    | l :: left, r :: right =>
      rw [countLoop, merged]
      cases m.order l r with
      | lt => exact ih left (r :: right) count
      | eq =>
        dsimp only
        rw [ih, List.length_cons]
        omega
      | gt => exact ih (l :: left) right count

/-- The inner loop goes to the last position that is not behind the match. -/
theorem bestMatch_spec (left : List Nat) (right fuel leftIndex : Nat)
    (hfuel : left.length ≤ leftIndex + fuel) :
    leftIndex ≤ bestMatch left right fuel leftIndex ∧
      left.drop (bestMatch left right fuel leftIndex + 1) =
        (left.drop (leftIndex + 1)).dropWhile (· ≤ right) := by
  induction fuel generalizing leftIndex with
  | zero =>
    refine ⟨le_refl _, ?_⟩
    rw [bestMatch, List.drop_eq_nil_of_le (by omega), List.dropWhile_nil]
  | succ fuel ih =>
    rw [bestMatch]
    cases hnext : left[leftIndex + 1]? with
    | none =>
      refine ⟨le_refl _, ?_⟩
      rw [List.drop_eq_nil_of_le (List.getElem?_eq_none_iff.mp hnext), List.dropWhile_nil]
    | some next =>
      obtain ⟨hlt, rfl⟩ := List.getElem?_eq_some_iff.mp hnext
      dsimp only
      by_cases hbehind : right < left[leftIndex + 1]
      · rw [if_pos hbehind, List.drop_eq_getElem_cons hlt, List.dropWhile_cons_of_neg]
        · exact ⟨le_refl _, rfl⟩
        · simpa using hbehind
      · rw [if_neg hbehind]
        obtain ⟨hle, hdrop⟩ := ih (leftIndex + 1) (by omega)
        refine ⟨by omega, ?_⟩
        rw [hdrop, List.drop_eq_getElem_cons hlt, List.dropWhile_cons_of_pos]
        simpa using hbehind

theorem take_set_succ (xs : List Nat) {i : Nat} (hi : i < xs.length) (x : Nat) :
    (xs.set i x).take (i + 1) = xs.take i ++ [x] := by
  simp [List.take_add_one, List.take_set_of_le (le_refl i), List.getElem?_set_self hi]

/-- **The loop in place** never reads what it has written: the matches stand at the front of the
    array, and their number is returned. -/
theorem inPlaceLoop_spec (right : List Nat) (fuel : Nat) (left : List Nat)
    (leftIndex rightIndex count : Nat) (hcount : count ≤ leftIndex) :
    let moved := inPlaceLoop m right fuel left leftIndex rightIndex count
    let matches' := merged m fuel (left.drop leftIndex) (right.drop rightIndex)
    moved.1.length = left.length ∧ moved.2 = count + matches'.length ∧
      moved.1.take moved.2 = left.take count ++ matches' := by
  induction fuel generalizing left leftIndex rightIndex count with
  | zero => simp [inPlaceLoop, merged]
  | succ fuel ih =>
    cases hl : left[leftIndex]? with
    | none =>
      have hdrop := List.drop_eq_nil_of_le (List.getElem?_eq_none_iff.mp hl)
      simp [inPlaceLoop, merged, hl, hdrop]
    | some l =>
    cases hr : right[rightIndex]? with
    | none =>
      have hdrop := List.drop_eq_nil_of_le (List.getElem?_eq_none_iff.mp hr)
      simp [inPlaceLoop, merged, hl, hr, hdrop]
    | some r =>
    obtain ⟨hltLeft, rfl⟩ := List.getElem?_eq_some_iff.mp hl
    obtain ⟨hltRight, rfl⟩ := List.getElem?_eq_some_iff.mp hr
    rw [inPlaceLoop, List.drop_eq_getElem_cons hltLeft, List.drop_eq_getElem_cons hltRight, merged,
      hl, hr]
    dsimp only
    cases m.order left[leftIndex] right[rightIndex] with
    | lt =>
      have h := ih left (leftIndex + 1) rightIndex count (by omega)
      rwa [List.drop_eq_getElem_cons hltRight] at h
    | gt =>
      have h := ih left leftIndex (rightIndex + 1) count hcount
      rwa [List.drop_eq_getElem_cons hltLeft] at h
    | eq =>
      -- where the loop goes on reading, in front of which the match is written
      set next := if m.best then bestMatch left right[rightIndex] left.length leftIndex
        else leftIndex with hnext
      have hmoved : leftIndex ≤ next ∧
          left.drop (next + 1) = m.skip right[rightIndex] (left.drop (leftIndex + 1)) := by
        rw [hnext, Merge.skip]
        split
        · exact bestMatch_spec left right[rightIndex] left.length leftIndex (by omega)
        · exact ⟨le_refl _, rfl⟩
      obtain ⟨hle, hdrop⟩ := hmoved
      obtain ⟨hlength, hreturned, htake⟩ := ih (left.set count right[rightIndex]) (next + 1)
        (rightIndex + 1) (count + 1) (by omega)
      rw [List.drop_set_of_lt (by omega), hdrop] at hreturned htake
      refine ⟨hlength.trans List.length_set, ?_, ?_⟩
      · rw [hreturned, List.length_cons]
        omega
      · rw [htake, take_set_succ _ (by omega), List.append_assoc]
        rfl

/-! ### What matches -/

/-- The nearest position on the right, not in front and within the slop. -/
structure Nearest (slop : Nat) (right : List Nat) (l r : Nat) : Prop where
  mem : r ∈ right
  le : l ≤ r
  within : r ≤ l + slop
  first : ∀ r' ∈ right, l ≤ r' → r ≤ r'

/-- A merge with a slop: the exact one has none. -/
structure Merge.HasSlop (m : Merge) (slop : Nat) : Prop where
  order : ∀ l r, m.order l r = slopOrder slop l r
  best : m.best = true ∨ slop = 0

variable {l r slop : Nat}

theorem slopOrder_eq_lt_iff : slopOrder slop l r = .lt ↔ l + slop < r := by
  simp only [slopOrder]
  split_ifs <;> simp <;> omega

theorem slopOrder_eq_eq_iff :
    slopOrder slop l r = .eq ↔ l ≤ r ∧ r ≤ l + slop := by
  simp only [slopOrder]
  split_ifs <;> simp <;> omega

theorem slopOrder_eq_gt_iff : slopOrder slop l r = .gt ↔ r < l := by
  simp only [slopOrder]
  split_ifs <;> simp <;> omega

theorem Merge.exact_hasSlop : Merge.exact.HasSlop 0 where
  order l r := by
    show compare l r = _
    rcases lt_trichotomy l r with h | h | h
    · rw [compare_lt_iff_lt.mpr h, slopOrder_eq_lt_iff.mpr (by omega)]
    · rw [compare_eq_iff_eq.mpr h, slopOrder_eq_eq_iff.mpr (by omega)]
    · rw [compare_gt_iff_gt.mpr h, slopOrder_eq_gt_iff.mpr (by omega)]
  best := .inr rfl

theorem Merge.withSlop_hasSlop (slop : Nat) : (Merge.withSlop slop).HasSlop slop where
  order _ _ := rfl
  best := .inl rfl

variable {left : List Nat}

/-- Behind a match, the positions on the left that are behind it. -/
theorem mem_skip_iff {m : Merge} (hm : m.HasSlop slop) (hsorted : (l :: left).Pairwise (· < ·))
    (hmatch : m.order l r = .eq) (x : Nat) :
    x ∈ m.skip r left ↔ x ∈ left ∧ r < x := by
  obtain ⟨hlt, hleft⟩ := List.pairwise_cons.mp hsorted
  rw [Merge.skip]
  split
  · clear hlt hsorted hmatch
    induction left with
    | nil => simp
    | cons y left ih =>
      obtain ⟨hy, hleft⟩ := List.pairwise_cons.mp hleft
      by_cases hr : y ≤ r
      · rw [List.dropWhile_cons_of_pos (by simpa using hr), ih hleft, List.mem_cons]
        constructor
        · exact fun ⟨hx, hrx⟩ => ⟨.inr hx, hrx⟩
        · rintro ⟨rfl | hx, hrx⟩
          · omega
          · exact ⟨hx, hrx⟩
      · rw [List.dropWhile_cons_of_neg (by simpa using hr)]
        refine ⟨fun hx => ⟨hx, ?_⟩, fun h => h.1⟩
        rcases List.mem_cons.mp hx with rfl | hx
        · omega
        · have := hy x hx
          omega
  · -- without slop the match is the position itself, and the others are behind it
    rename_i hbest
    have hslop : slop = 0 := hm.best.resolve_left hbest
    rw [hm.order, slopOrder_eq_eq_iff] at hmatch
    refine ⟨fun hx => ⟨hx, ?_⟩, fun h => h.1⟩
    have := hlt x hx
    omega

theorem sorted_skip (r : Nat) (h : left.Pairwise (· < ·)) :
    (m.skip r left).Pairwise (· < ·) := by
  rw [Merge.skip]
  split
  · exact h.sublist (List.dropWhile_sublist _)
  · exact h

theorem length_skip_le (r : Nat) (left : List Nat) :
    (m.skip r left).length ≤ left.length := by
  rw [Merge.skip]
  split
  · exact (List.dropWhile_sublist _).length_le
  · exact le_refl _

theorem merged_sublist (fuel : Nat) (left right : List Nat) :
    (merged m fuel left right).Sublist right := by
  induction fuel generalizing left right with
  | zero => simp [merged]
  | succ fuel ih =>
    match left, right with
    | [], _ => simp [merged]
    | _ :: _, [] => simp [merged]
    | l :: left, r :: right =>
      rw [merged]
      cases m.order l r with
      | lt => exact ih left (r :: right)
      | eq => exact (ih _ right).cons_cons r
      | gt => exact (ih (l :: left) right).cons r

variable {right : List Nat}

/-- **The matches** are the positions on the right that are nearest to one on the left. -/
theorem mem_merged_iff {m : Merge} (hm : m.HasSlop slop) (fuel : Nat)
    (hleft : left.Pairwise (· < ·)) (hright : right.Pairwise (· < ·))
    (hfuel : left.length + right.length < fuel) (x : Nat) :
    x ∈ merged m fuel left right ↔ ∃ l ∈ left, Nearest slop right l x := by
  induction fuel generalizing left right with
  | zero => exact absurd hfuel (Nat.not_lt_zero _)
  | succ fuel ih =>
    match left, right with
    | [], _ => simp [merged]
    | _ :: _, [] =>
      simp only [merged, List.not_mem_nil, false_iff]
      rintro ⟨l, -, hnearest⟩
      exact List.not_mem_nil hnearest.mem
    | l :: left, r :: right =>
      obtain ⟨hltLeft, hleft'⟩ := List.pairwise_cons.mp hleft
      obtain ⟨hltRight, hright'⟩ := List.pairwise_cons.mp hright
      simp only [List.length_cons] at hfuel
      rw [merged]
      cases horder : m.order l r with
      | lt =>
        -- the first position is too far in front of all on the right
        have hfar : l + slop < r := slopOrder_eq_lt_iff.mp (hm.order l r ▸ horder)
        rw [ih hleft' hright (by simp only [List.length_cons]; omega)]
        constructor
        · rintro ⟨l', hl', hnearest⟩
          exact ⟨l', List.mem_cons_of_mem _ hl', hnearest⟩
        · rintro ⟨l', hl', hnearest⟩
          rcases List.mem_cons.mp hl' with rfl | hl'
          · have hwithin := hnearest.within
            rcases List.mem_cons.mp hnearest.mem with rfl | hx
            · omega
            · have := hltRight x hx
              omega
          · exact ⟨l', hl', hnearest⟩
      | gt =>
        -- all positions on the left are behind the first one on the right
        have hbehind : r < l := slopOrder_eq_gt_iff.mp (hm.order l r ▸ horder)
        rw [ih hleft hright' (by simp only [List.length_cons]; omega)]
        refine exists_congr fun l' => and_congr_right fun hl' => ?_
        have hrl' : r < l' := by
          rcases List.mem_cons.mp hl' with rfl | hl'
          · exact hbehind
          · exact hbehind.trans (hltLeft l' hl')
        constructor
        · intro hnearest
          refine ⟨List.mem_cons_of_mem _ hnearest.mem, hnearest.le, hnearest.within, ?_⟩
          intro r' hr' hle
          rcases List.mem_cons.mp hr' with rfl | hr'
          · omega
          · exact hnearest.first r' hr' hle
        · intro hnearest
          refine ⟨?_, hnearest.le, hnearest.within, fun r' hr' =>
            hnearest.first r' (List.mem_cons_of_mem _ hr')⟩
          rcases List.mem_cons.mp hnearest.mem with rfl | hx
          · have := hnearest.le
            omega
          · exact hx
      | eq =>
        obtain ⟨hle, hwithin⟩ := slopOrder_eq_eq_iff.mp (hm.order l r ▸ horder)
        have hskip := mem_skip_iff hm hleft horder
        have hlen := length_skip_le m r left
        rw [List.mem_cons, ih (sorted_skip m r hleft') hright' (by omega)]
        constructor
        · rintro (rfl | ⟨l', hl', hnearest⟩)
          · refine ⟨l, List.mem_cons_self, List.mem_cons_self, hle, hwithin, ?_⟩
            intro r' hr' _
            rcases List.mem_cons.mp hr' with rfl | hr'
            · exact le_refl _
            · exact (hltRight r' hr').le
          · obtain ⟨hmem, hrl'⟩ := (hskip l').mp hl'
            refine ⟨l', List.mem_cons_of_mem _ hmem, List.mem_cons_of_mem _ hnearest.mem,
              hnearest.le, hnearest.within, fun r' hr' hle' => ?_⟩
            rcases List.mem_cons.mp hr' with rfl | hr'
            · omega
            · exact hnearest.first r' hr' hle'
        · -- a position that is not behind the match has the match nearest to it
          rintro ⟨l', hl', hnearest⟩
          rcases List.mem_cons.mp hnearest.mem with rfl | hx
          · exact .inl rfl
          · have hrx := hltRight x hx
            have hrl' : r < l' := by
              by_contra hnot
              have := hnearest.first r List.mem_cons_self (not_lt.mp hnot)
              omega
            have hmem : l' ∈ left := by
              rcases List.mem_cons.mp hl' with rfl | hl'
              · omega
              · exact hl'
            exact .inr ⟨l', (hskip l').mpr ⟨hmem, hrl'⟩, hx, hnearest.le, hnearest.within,
              fun r' hr' => hnearest.first r' (List.mem_cons_of_mem _ hr')⟩

/-! ### All lists -/

/-- The merge that a scorer with this slop uses. -/
def mergeOf (slop : Nat) : Merge := if 0 < slop then .withSlop slop else .exact

theorem mergeOf_hasSlop (slop : Nat) : (mergeOf slop).HasSlop slop := by
  rw [mergeOf]
  split
  · exact Merge.withSlop_hasSlop slop
  · obtain rfl : slop = 0 := by omega
    exact Merge.exact_hasSlop

def matchesOf (slop : Nat) (left right : List Nat) : List Nat :=
  merged (mergeOf slop) (rounds left right) left right

/-- The matches that are left when the lists of all terms are merged one after the other. -/
def phraseMatches (slop : Nat) (first : List Nat) (others : List (List Nat)) : List Nat :=
  others.foldl (matchesOf slop) first

theorem mem_matchesOf_iff (slop : Nat) (hleft : left.Pairwise (· < ·))
    (hright : right.Pairwise (· < ·)) (x : Nat) :
    x ∈ matchesOf slop left right ↔ ∃ l ∈ left, Nearest slop right l x :=
  mem_merged_iff (mergeOf_hasSlop slop) _ hleft hright (Nat.lt_succ_self _) x

theorem matchesOf_nil (slop : Nat) (right : List Nat) : matchesOf slop [] right = [] := by
  simp [matchesOf, merged, rounds]

theorem phraseMatches_nil (slop : Nat) (others : List (List Nat)) :
    phraseMatches slop [] others = [] := by
  induction others with
  | nil => rfl
  | cons right others ih =>
    exact ih

theorem sorted_matchesOf (slop : Nat) (left : List Nat) (hright : right.Pairwise (· < ·)) :
    (matchesOf slop left right).Pairwise (· < ·) :=
  hright.sublist (merged_sublist _ _ _ _)

variable {others : List (List Nat)} {first : List Nat}

theorem sorted_phraseMatches (slop : Nat) (hfirst : first.Pairwise (· < ·))
    (hothers : ∀ ps ∈ others, ps.Pairwise (· < ·)) :
    (phraseMatches slop first others).Pairwise (· < ·) := by
  induction others generalizing first with
  | nil => exact hfirst
  | cons right others ih =>
    obtain ⟨hright, hrest⟩ := List.forall_mem_cons.mp hothers
    exact ih (sorted_matchesOf slop first hright) hrest

/-- There are no more matches than positions in any of the lists. -/
theorem length_phraseMatches_le (slop bound : Nat) (hfirst : first.length < bound)
    (hothers : ∀ ps ∈ others, ps.length < bound) :
    (phraseMatches slop first others).length < bound := by
  induction others generalizing first with
  | nil => exact hfirst
  | cons right others ih =>
    obtain ⟨hright, hrest⟩ := List.forall_mem_cons.mp hothers
    exact ih ((merged_sublist _ _ _ _).length_le.trans_lt hright) hrest

/-- From a position on, one step into each of the lists. -/
def Chain (step : List Nat → Nat → Nat → Prop) : Nat → List (List Nat) → Prop
  | _, [] => True
  | l, right :: others => ∃ r, step right l r ∧ Chain step r others

/-- **The terms match** when one can go from a position of the first through all the others,
    always to the nearest position and never further than the slop. -/
theorem phraseMatches_ne_nil_iff (slop : Nat) (hfirst : first.Pairwise (· < ·))
    (hothers : ∀ ps ∈ others, ps.Pairwise (· < ·)) :
    phraseMatches slop first others ≠ [] ↔ ∃ l ∈ first, Chain (Nearest slop) l others := by
  induction others generalizing first with
  | nil =>
    constructor
    · intro hne
      obtain ⟨l, hl⟩ := List.exists_mem_of_ne_nil _ hne
      exact ⟨l, hl, trivial⟩
    · rintro ⟨l, hl, -⟩
      exact List.ne_nil_of_mem hl
  | cons right others ih =>
    obtain ⟨hright, hrest⟩ := List.forall_mem_cons.mp hothers
    refine (ih (sorted_matchesOf slop first hright) hrest).trans ⟨?_, ?_⟩
    · rintro ⟨r, hr, hchain⟩
      obtain ⟨l, hl, hnearest⟩ := (mem_matchesOf_iff slop hfirst hright r).mp hr
      exact ⟨l, hl, r, hnearest, hchain⟩
    · rintro ⟨l, hl, r, hnearest, hchain⟩
      exact ⟨r, (mem_matchesOf_iff slop hfirst hright r).mpr ⟨l, hl, hnearest⟩, hchain⟩

/-- Without slop the matches are what all lists have in common. -/
theorem mem_phraseMatches_zero (hfirst : first.Pairwise (· < ·))
    (hothers : ∀ ps ∈ others, ps.Pairwise (· < ·)) (x : Nat) :
    x ∈ phraseMatches 0 first others ↔ x ∈ first ∧ ∀ ps ∈ others, x ∈ ps := by
  induction others generalizing first with
  | nil => simp [phraseMatches]
  | cons right others ih =>
    obtain ⟨hright, hrest⟩ := List.forall_mem_cons.mp hothers
    refine (ih (sorted_matchesOf 0 first hright) hrest).trans ?_
    rw [mem_matchesOf_iff 0 hfirst hright, List.forall_mem_cons, ← and_assoc]
    refine and_congr_left fun _ => ⟨?_, ?_⟩
    · rintro ⟨l, hl, hnearest⟩
      obtain rfl : l = x := le_antisymm hnearest.le hnearest.within
      exact ⟨hl, hnearest.mem⟩
    · exact fun ⟨hx, hmem⟩ => ⟨x, hx, hmem, le_refl x, le_refl _, fun _ _ hle => hle⟩

end TeaclaveCrates.Tantivy.Phrase
