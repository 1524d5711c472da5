import TeaclaveCrates.Rand.Index
import Mathlib.Algebra.BigOperators.Ring.Finset
import Mathlib.Tactic.Ring

namespace TeaclaveCrates.Rand.IteratorRandom

open TeaclaveCrates.Lib

/-!
# rand — choosing from iterators

`seq/mod.rs`: elements of an iterator whose length is not known.

* `choose`, `chooseStable`, `chooseMultiple` — the methods of `IteratorRandom`;
* `choose_uniform` — every element is chosen equally often, whatever the size hints say;
* `chooseStable_eq` — the hints change nothing;
* `chooseMultiple_uniform` — every set of elements is chosen equally often.
-/

variable {α : Type}

/-! ### The methods -/

/-- `size_hint` of an iterator with these elements left. -/
structure SizeHint (α : Type) where
  lower : List α → Nat
  upper : List α → Option Nat
  lower_le : ∀ iter, lower iter ≤ iter.length
  le_upper : ∀ iter, ∀ u ∈ upper iter, iter.length ≤ u

/-- The loop of `choose`. -/
def chooseLoop (hint : SizeHint α) (consumed : Nat) (result : Option α) (iter : List α) :
    Draws (Option α) :=
  if h : 1 < hint.lower iter then do
    let ix ← Draws.range 0 (hint.lower iter + consumed)
    let result := if ix < hint.lower iter then iter[ix]? else result
    if hint.upper iter = some (hint.lower iter) then return result
    else chooseLoop hint (consumed + hint.lower iter) result (iter.drop (hint.lower iter))
  else match iter with
    | [] => return result
    | elem :: iter => do
      let k ← Draws.range 0 (consumed + 1)
      chooseLoop hint (consumed + 1) (if k = 0 then some elem else result) iter
termination_by iter.length
decreasing_by
  · have := hint.lower_le iter
    rw [List.length_drop]
    omega
  · exact Nat.lt_succ_self _

/-- `choose`; an exact hint needs one draw. -/
def choose (hint : SizeHint α) (iter : List α) : Draws (Option α) :=
  if hint.upper iter = some (hint.lower iter) then
    if hint.lower iter = 0 then return none
    else do
      let ix ← Draws.range 0 (hint.lower iter)
      return iter[ix]?
  else chooseLoop hint 0 none iter

/-- The last one of the indices for which the draw is zero: those left, the next, and the last. -/
def highestSelected (consumed : Nat) : Nat → Nat → Option Nat → Draws (Option Nat)
  | 0, _, last => pure last
  | n + 1, ix, last => do
    let k ← Draws.range 0 (consumed + ix + 1)
    highestSelected consumed n (ix + 1) (if k = 0 then some ix else last)

/-- The loop of `choose_stable`. -/
def chooseStableLoop (hint : SizeHint α) (consumed : Nat) (result : Option α) (iter : List α) :
    Draws (Option α) := do
  let lower := if 2 ≤ hint.lower iter then hint.lower iter else 0
  let highest ← highestSelected consumed lower 0 none
  let result := highest.elim result (iter[·]?)
  match h : iter.drop lower with
  | [] => return result
  | elem :: rest => do
    let k ← Draws.range 0 (consumed + lower + 1)
    chooseStableLoop hint (consumed + lower + 1) (if k = 0 then some elem else result) rest
termination_by iter.length
decreasing_by
  have := congrArg List.length h
  rw [List.length_drop, List.length_cons] at this
  omega

/-- `choose_stable`, on which the hint has no influence. -/
def chooseStable (hint : SizeHint α) (iter : List α) : Draws (Option α) :=
  chooseStableLoop hint 0 none iter

/-- The loop over the elements behind the first ones; `i` of them are through. -/
def slotLoop (amount : Nat) : Nat → List α → List α → Draws (List α)
  | _, [], reservoir => pure reservoir
  | i, elem :: iter, reservoir => do
    let k ← Draws.range 0 (i + 1 + amount)
    slotLoop amount (i + 1) iter (reservoir.set k elem)

/-- `choose_multiple`: a reservoir of the first elements. -/
def chooseMultiple (amount : Nat) (iter : List α) : Draws (List α) :=
  let reservoir := iter.take amount
  if reservoir.length = amount then slotLoop amount 0 (iter.drop amount) reservoir
  else return reservoir

/-- An iterator that knows nothing about its length. -/
def SizeHint.unknown : SizeHint α where
  lower _ := 0
  upper _ := none
  lower_le _ := Nat.zero_le _
  le_upper _ := by simp

/-! ### One element -/

/-- The number of outcomes in all. -/
def outcomes (m : Draws α) : Nat := m.count fun _ => True

/-- A draw for the elements of a list, and for what there is besides. -/
theorem sum_getD {β : Type} (f : β → Nat) (l : List β) (e : β) (n : Nat) :
    ∑ k ∈ Finset.Ico 0 (n + l.length), f (l[k]?.getD e) = (l.map f).sum + n * f e := by
  rw [Nat.Ico_zero_eq_range]
  induction l with
  | nil => simp
  | cons x l ih =>
    rw [List.length_cons, ← Nat.add_assoc, Finset.sum_range_succ', List.map_cons, List.sum_cons,
      Nat.add_assoc, Nat.add_comm (f x), ← ih]
    rfl

theorem sum_map_ite {β : Type} [BEq β] [LawfulBEq β] [DecidableEq β] (y : β) (a b w : Nat)
    (l : List β) :
    (l.map fun x => ((if x = y then a else 0) + b) * w).sum =
      (l.count y * a + l.length * b) * w := by
  induction l with
  | nil => simp
  | cons x l ih =>
    rw [List.map_cons, List.sum_cons, ih, List.count_cons, List.length_cons]
    by_cases h : x = y <;> simp [h] <;> ring

/-- How often a loop that has consumed some elements ends with each result: in proportion to how
    often it is left, and for the result so far to what is consumed. -/
def Chooses [DecidableEq α] (consumed : Nat) (iter : List α) (loop : Option α → Draws (Option α)) :
    Prop :=
  ∃ w, 0 < w ∧ ∀ result, outcomes (loop result) = w ∧ ∀ y,
    (loop result).count (· = y) * (consumed + iter.length) =
      ((if result = y then consumed else 0) + (iter.map some).count y) * w

theorem chooses_nil [DecidableEq α] (consumed : Nat) :
    Chooses consumed [] (pure : Option α → Draws (Option α)) := by
  refine ⟨1, Nat.one_pos, fun result => ⟨rfl, fun y => ?_⟩⟩
  change (if result = y then 1 else 0) * _ = _
  split <;> simp

/-- A turn takes some elements, and gives each the weight of one draw. -/
theorem Chooses.turn [DecidableEq α] {consumed lower : Nat} {iter : List α}
    {next : Option α → Draws (Option α)} (h : Chooses (consumed + lower) (iter.drop lower) next)
    (hlower : 0 < lower) (hle : lower ≤ iter.length) :
    Chooses consumed iter fun result => Draws.draw 0 (lower + consumed) fun ix =>
      next (if ix < lower then iter[ix]? else result) := by
  obtain ⟨w, hw, hnext⟩ := h
  have hlen : consumed + lower + (iter.drop lower).length = consumed + iter.length := by
    rw [List.length_drop]
    omega
  refine ⟨(lower + consumed) * w, Nat.mul_pos (by omega) hw, fun result => ⟨?_, fun y => ?_⟩⟩
  · change ∑ ix ∈ Finset.Ico 0 (lower + consumed), outcomes (next _) = _
    simp only [(hnext _).1, Finset.sum_const, Nat.card_Ico, Nat.sub_zero, Nat.nsmul_eq_mul]
  · change (∑ ix ∈ Finset.Ico 0 (lower + consumed), (next _).count (· = y)) * _ = _
    have htaken : ∀ ix, (if ix < lower then iter[ix]? else result) =
        ((iter.take lower).map some)[ix]?.getD result := by grind
    have htake : ((iter.take lower).map some).length = lower := by grind
    have hsplit : (iter.map some).count y =
        ((iter.take lower).map some).count y + ((iter.drop lower).map some).count y := by
      rw [← List.count_append, ← List.map_append, List.take_append_drop]
    simp only [Finset.sum_mul, ← hlen, (hnext _).2, htaken]
    have hsum := sum_getD (fun r => ((if r = y then consumed + lower else 0) +
      ((iter.drop lower).map some).count y) * w) ((iter.take lower).map some) result consumed
    rw [htake, sum_map_ite, htake, Nat.add_comm consumed lower] at hsum
    rw [Nat.add_comm consumed lower, hsum, hsplit]
    split <;> ring

theorem chooseLoop_chooses [DecidableEq α] (hint : SizeHint α) (consumed : Nat) (iter : List α) :
    Chooses consumed iter fun result => chooseLoop hint consumed result iter := by
  induction hn : iter.length using Nat.strong_induction_on generalizing consumed iter with
  | _ n ih =>
    subst hn
    have hle := hint.lower_le iter
    by_cases h : 1 < hint.lower iter
    · have hnext : Chooses (consumed + hint.lower iter) (iter.drop (hint.lower iter)) fun r =>
          if hint.upper iter = some (hint.lower iter) then pure r
          else chooseLoop hint (consumed + hint.lower iter) r (iter.drop (hint.lower iter)) := by
        split
        · next hend =>
          rw [List.drop_eq_nil_of_le (hint.le_upper iter _ hend)]
          exact chooses_nil _
        · exact ih _ (by rw [List.length_drop]; omega) _ _ rfl
      have heq : (fun result => chooseLoop hint consumed result iter) = _ := funext fun result =>
        (chooseLoop.eq_def ..).trans (dif_pos h)
      exact heq ▸ hnext.turn (by omega) hle
    · cases iter with
      | nil =>
        refine Eq.mpr (congrArg (Chooses consumed _) (funext fun r => ?_)) (chooses_nil consumed)
        rw [chooseLoop, dif_neg h]
      | cons elem iter =>
        have hle : 1 ≤ (elem :: iter).length := Nat.le_add_left 1 iter.length
        have hturn := (ih _ (Nat.lt_succ_self _) (consumed + 1) iter rfl).turn Nat.one_pos hle
        refine Eq.mpr (congrArg (Chooses consumed _) (funext fun result => ?_)) hturn
        rw [chooseLoop, dif_neg h]
        refine congrArg₂ (Draws.draw 0) (Nat.add_comm consumed 1) (funext fun k => ?_)
        cases k <;> rfl

/-- **Choosing from an iterator is uniform.** Each result is that of a part of all outcomes, in
    proportion to how often it is in the iterator, for all size hints. -/
theorem choose_uniform [DecidableEq α] (hint : SizeHint α) (iter : List α) :
    0 < outcomes (choose hint iter) ∧ ∀ y, (choose hint iter).count (· = y) * iter.length =
      (iter.map some).count y * outcomes (choose hint iter) := by
  have hloop : ∀ {loop : Option α → Draws (Option α)}, Chooses 0 iter loop →
      0 < outcomes (loop none) ∧ ∀ y, (loop none).count (· = y) * iter.length =
        (iter.map some).count y * outcomes (loop none) := by
    rintro loop ⟨w, hw, h⟩
    obtain ⟨hall, hcount⟩ := h none
    exact ⟨hall ▸ hw, fun y => by simpa [hall] using hcount y⟩
  unfold choose
  split
  · next hend =>
    have hlen : iter.length ≤ hint.lower iter := hint.le_upper iter _ hend
    split
    · next hzero =>
      obtain rfl : iter = [] := List.length_eq_zero_iff.mp (Nat.le_zero.mp (hzero ▸ hlen))
      exact hloop (chooses_nil 0)
    · next hpos =>
      have hend := chooses_nil (α := α) (0 + hint.lower iter)
      rw [← List.drop_eq_nil_of_le hlen] at hend
      have hturn := hloop (hend.turn (Nat.pos_of_ne_zero hpos) (hint.lower_le iter))
      have heq : ∀ ix, (if ix < hint.lower iter then iter[ix]? else none) = iter[ix]? := by grind
      simp only [heq] at hturn
      exact hturn
  · exact hloop (chooseLoop_chooses hint 0 iter)

/-! ### The stable choice -/

theorem chooseLoop_cons (consumed : Nat) (result : Option α) (elem : α) (iter : List α) :
    chooseLoop SizeHint.unknown consumed result (elem :: iter) =
      Draws.draw 0 (consumed + 1) fun k => chooseLoop SizeHint.unknown (consumed + 1)
        (if k = 0 then some elem else result) iter := by
  rw [chooseLoop]
  rfl

/-- The indices that are selected are those of the elements that would be taken one by one. -/
theorem highestSelected_bind (consumed : Nat) (result : Option α) {iter : List α} {n ix : Nat}
    (h : ix + n ≤ iter.length) (last : Option Nat) :
    (highestSelected consumed n ix last >>= fun r => chooseLoop SizeHint.unknown
        (consumed + (ix + n)) (r.elim result (iter[·]?)) (iter.drop (ix + n))) =
      chooseLoop SizeHint.unknown (consumed + ix) (last.elim result (iter[·]?)) (iter.drop ix) := by
  induction n generalizing ix last with
  | zero => rfl
  | succ n ih =>
    have hix : ix < iter.length := by omega
    rw [List.drop_eq_getElem_cons hix, chooseLoop_cons]
    refine congrArg (Draws.draw 0 _) (funext fun k => ?_)
    have hnext := ih (by omega : ix + 1 + n ≤ _) (if k = 0 then some ix else last)
    rw [Nat.add_right_comm ix 1 n] at hnext
    refine hnext.trans (congrArg (chooseLoop _ _ · _) ?_)
    split
    · exact List.getElem?_eq_getElem hix
    · rfl

theorem chooseStableLoop_eq (hint : SizeHint α) (consumed : Nat) (result : Option α)
    (iter : List α) : chooseStableLoop hint consumed result iter =
      chooseLoop SizeHint.unknown consumed result iter := by
  induction hn : iter.length using Nat.strong_induction_on generalizing consumed result iter with
  | _ n ih =>
    subst hn
    rw [chooseStableLoop]
    have hle := hint.lower_le iter
    generalize hlower : (if 2 ≤ hint.lower iter then hint.lower iter else 0) = lower
    replace hle : 0 + lower ≤ iter.length := by split at hlower <;> omega
    refine Eq.trans (bind_congr fun highest => ?_) (highestSelected_bind consumed result hle none)
    rw [Nat.zero_add]
    have hlen := List.length_drop (i := lower) (l := iter)
    split
    · next h =>
      rw [h, chooseLoop]
      rfl
    · next elem rest h =>
      rw [h, List.length_cons] at hlen
      rw [h, chooseLoop_cons]
      exact congrArg (Draws.draw 0 _) (funext fun k => ih _ (by omega) _ _ rest rfl)

/-- **The stable choice is stable.** With any hints, what is drawn and what is chosen for it is as
    `choose` would do without hints. -/
theorem chooseStable_eq (hint : SizeHint α) (iter : List α) :
    chooseStable hint iter = choose SizeHint.unknown iter :=
  chooseStableLoop_eq hint 0 none iter

/-! ### Several elements -/

/-- What is drawn for an element makes one go: the one in the slot, or itself. -/
theorem set_perm (R iter : List α) (elem : α) (k : Nat) :
    (R[k]?.getD elem :: (R.set k elem ++ iter)).Perm (R ++ elem :: iter) :=
  ((List.getD_set_perm_cons R k elem).append_right iter).trans List.perm_middle.symm

theorem all_slotLoop (amount i : Nat) (iter R : List α) :
    (slotLoop amount i iter R).All fun r => ∀ x ∈ r, x ∈ R ++ iter := by
  induction iter generalizing i R with
  | nil => exact fun x hx => List.mem_append_left [] hx
  | cons elem iter ih =>
    refine fun k _ _ => (ih (i + 1) (R.set k elem)).mono fun r hr x hx => ?_
    exact (set_perm R iter elem k).mem_iff.mp (List.mem_cons_of_mem _ (hr x hx))

section Fill

variable [DecidableEq α] {s iter R : List α} {i : Nat}

theorem sum_map_not_mem (s R : List α) (v : Nat) :
    (R.map fun x => if x ∈ s then 0 else v).sum = R.countP (fun x => ¬ x ∈ s) * v := by
  induction R with
  | nil => simp
  | cons x R ih =>
    rw [List.map_cons, List.sum_cons, ih, List.countP_cons]
    by_cases h : x ∈ s <;> simp [h, Nat.add_mul, Nat.add_comm]

/-- The wanted elements are here or still to come, so as many of the others are here. -/
theorem countP_reservoir (hs : s.Nodup) (hR : (R ++ iter).Nodup) (hlen : R.length = s.length)
    (hsub : ∀ x ∈ s, x ∈ R ++ iter) : R.countP (fun x => ¬ x ∈ s) = iter.countP (· ∈ s) := by
  have hperm : ((R ++ iter).filter (· ∈ s)).Perm s :=
    (List.perm_ext_iff_of_nodup (hR.filter _) hs).mpr fun x => by
      simpa [List.mem_filter, ← or_and_right] using hsub x
  have hcount := hperm.length_eq
  rw [← List.countP_eq_length_filter, List.countP_append] at hcount
  have hsplit := List.length_eq_countP_add_countP (· ∈ s) (l := R)
  simp only [decide_eq_true_eq] at hsplit
  omega

/-- Of the outcomes that are left, so many end with the wanted elements. -/
theorem count_slotLoop (hs : s.Nodup) (hR : (R ++ iter).Nodup) (hlen : R.length = s.length)
    (hsub : ∀ x ∈ s, x ∈ R ++ iter) :
    (slotLoop R.length i iter R).count (List.Perm s) * (i + iter.countP (· ∈ s)).factorial =
      (i + iter.length).factorial * (iter.countP (· ∈ s)).factorial := by
  induction iter generalizing i R with
  | nil =>
    have hperm : s.Perm R :=
      (List.subperm_of_subset hs (List.append_nil R ▸ hsub)).perm_of_length_le hlen.le
    have hone : (slotLoop R.length i [] R).count (List.Perm s) = 1 := if_pos hperm
    rw [hone]
    simp
  | cons elem iter ih =>
    let v := (i + 1 + iter.length).factorial * (iter.countP (· ∈ s)).factorial
    have hstep : ∀ k, (slotLoop R.length (i + 1) iter (R.set k elem)).count (List.Perm s) *
        (i + 1 + iter.countP (· ∈ s)).factorial = if R[k]?.getD elem ∈ s then 0 else v := by
      intro k
      have hperm := set_perm R iter elem k
      obtain ⟨hgone, hnodup⟩ := List.nodup_cons.mp (hperm.nodup_iff.mpr hR)
      split
      · next hmem =>
        rw [Draws.count_eq_zero ((all_slotLoop ..).mono fun r hr hp => ?_), Nat.zero_mul]
        exact hgone (hr _ (hp.mem_iff.mp hmem))
      · next hmem =>
        have := ih (i := i + 1) hnodup (by rwa [List.length_set]) fun x hx =>
          (List.mem_cons.mp (hperm.mem_iff.mpr (hsub x hx))).resolve_left fun h => hmem (h ▸ hx)
        rwa [List.length_set] at this
    have hcount : (slotLoop R.length i (elem :: iter) R).count (List.Perm s) *
        (i + 1 + iter.countP (· ∈ s)).factorial =
          (elem :: iter).countP (· ∈ s) * v + (i + 1) * if elem ∈ s then 0 else v := by
      rw [← countP_reservoir hs hR hlen hsub, ← sum_map_not_mem, ← sum_getD]
      change (∑ k ∈ _, _) * _ = _
      rw [Finset.sum_mul]
      exact Finset.sum_congr rfl fun k _ => hstep k
    have hadd : ∀ m, i + (m + 1) = i + 1 + m := fun m => by omega
    rw [List.length_cons, hadd]
    by_cases hmem : elem ∈ s
    · rw [List.countP_cons_of_pos (by simpa using hmem)] at hcount ⊢
      rw [hadd, hcount, if_pos hmem, Nat.factorial_succ]
      ring
    · rw [List.countP_cons_of_neg (by simpa using hmem)] at hcount ⊢
      rw [if_neg hmem, Nat.add_right_comm i 1, Nat.factorial_succ] at hcount
      refine Nat.eq_of_mul_eq_mul_left (Nat.succ_pos (i + iter.countP (· ∈ s))) ?_
      change _ = (i + iter.countP (· ∈ s) + 1) * v
      rw [Nat.mul_left_comm, hcount]
      ring

end Fill

/-- **Several elements are chosen uniformly.** Each set of so many elements of the iterator is the
    result of equally many outcomes, whatever its order. -/
theorem chooseMultiple_uniform [DecidableEq α] {s iter : List α} (hiter : iter.Nodup)
    (hs : s.Nodup) (hsub : s ⊆ iter) :
    (chooseMultiple s.length iter).count (List.Perm s) = (iter.length - s.length).factorial := by
  have hlen : (iter.take s.length).length = s.length :=
    List.length_take_of_le (List.subperm_of_subset hs hsub).length_le
  have happ := List.take_append_drop s.length iter
  have hcount := count_slotLoop (i := 0) hs (happ.symm ▸ hiter) hlen (happ.symm ▸ hsub)
  rw [hlen, Nat.zero_add, Nat.zero_add, List.length_drop] at hcount
  rw [chooseMultiple, if_pos hlen]
  exact Nat.eq_of_mul_eq_mul_right (Nat.factorial_pos _) hcount

/-- Two of the four first numbers. -/
theorem chooseMultiple_uniform_two :
    (chooseMultiple 2 [0, 1, 2, 3]).count (List.Perm [2, 0]) = 2 :=
  chooseMultiple_uniform (by decide : [0, 1, 2, 3].Nodup) (by decide : [2, 0].Nodup) (by decide)

end TeaclaveCrates.Rand.IteratorRandom
