import TeaclaveCrates.Lib.Sweep

namespace TeaclaveCrates.Lib

/-!
# Worklists

A worklist search keeps the points it has seen and those of them that it has not expanded. A point
is taken out of the list, and its successors that are new are added to both. Nothing depends on
which point is taken out, nor on the order of the successors, which may be another one each time.

* `swapRemoveFirst` — the removal of the first element that puts the last one in its place.
* `Worklist.expand`, `Worklist.run` — one point, and the search until the list is empty.
* `Worklist.Invariant` — what holds between two points; `run_spec` — what the search returns.
-/

universe u

variable {α : Type u}

/-! ### Removal -/

/-- `Vec::swap_remove(0)`: the first element, and the others with the last one in its place. -/
def swapRemoveFirst : List α → Option (α × List α)
  | [] => none
  | x :: rest =>
    match rest.getLast? with
    | none => some (x, [])
    | some last => some (x, last :: rest.dropLast)

theorem swapRemoveFirst_eq_none {l : List α} (h : swapRemoveFirst l = none) : l = [] := by
  cases l with
  | nil => rfl
  | cons x rest =>
    rw [swapRemoveFirst] at h
    split at h <;> cases h

/-- The elements are the same. -/
theorem swapRemoveFirst_perm {l rest : List α} {x : α} (h : swapRemoveFirst l = some (x, rest)) :
    l.Perm (x :: rest) := by
  cases l with
  | nil => cases h
  | cons y tail =>
    rw [swapRemoveFirst] at h
    rcases List.eq_nil_or_concat tail with rfl | ⟨init, last, rfl⟩
    · obtain ⟨rfl, rfl⟩ := Prod.mk.inj (Option.some.inj h)
      exact List.Perm.refl _
    · rw [List.concat_eq_append, List.getLast?_concat, List.dropLast_concat] at h
      obtain ⟨rfl, rfl⟩ := Prod.mk.inj (Option.some.inj h)
      rw [List.concat_eq_append]
      exact (List.perm_append_singleton last init).cons y

/-! ### The search -/

namespace Worklist

variable [DecidableEq α]

/-- The successors that were not seen before go to the list and to the seen points. -/
def expand (queue seen : List α) : List α → List α × List α
  | [] => (queue, seen)
  | y :: succs =>
    if y ∈ seen then expand queue seen succs else expand (queue ++ [y]) (y :: seen) succs

theorem expand_eq (queue seen succs : List α) :
    expand queue seen succs = (queue ++ fresh seen succs, (fresh seen succs).reverse ++ seen) := by
  induction succs generalizing queue seen with
  | nil => simp [expand, fresh]
  | cons y succs ih =>
    rw [expand, fresh]
    by_cases hy : y ∈ seen
    · simp [hy, ih]
    · simp [hy, ih]

/-- The search, with the successors as the given round finds them, within so many rounds: the seen
    points when the list gets empty. -/
def run (succs : Nat → α → List α) : Nat → Nat → List α → List α → Option (List α)
  | 0, _, _, _ => none
  | fuel + 1, round, queue, seen =>
    match swapRemoveFirst queue with
    | none => some seen
    | some (x, queue) =>
      let next := expand queue seen (succs round x)
      run succs fuel (round + 1) next.1 next.2

variable {step : α → α → Prop} {start : α}

/-- What holds between two points: only reachable points are seen, each once, and a point that is
    seen, or the first one, is in the list or has its successors among the seen ones. -/
structure Invariant (step : α → α → Prop) (start : α) (queue seen : List α) : Prop where
  nodup : seen.Nodup
  sound : ∀ y ∈ seen, Relation.TransGen step start y
  known : ∀ x ∈ queue, x = start ∨ x ∈ seen
  complete : ∀ x, x = start ∨ x ∈ seen → x ∈ queue ∨ ∀ y, step x y → y ∈ seen

omit [DecidableEq α] in
theorem invariant_start : Invariant step start [start] [] where
  nodup := List.nodup_nil
  sound := fun y hy => absurd hy List.not_mem_nil
  known := fun x hx => Or.inl (List.mem_singleton.mp hx)
  complete := by
    rintro x (rfl | hx)
    · exact Or.inl List.mem_cons_self
    · exact absurd hx List.not_mem_nil

variable {seen : List α}

/-- **One point.** -/
theorem Invariant.expand {queue rest succs : List α} {x : α} (h : Invariant step start queue seen)
    (hqueue : queue.Perm (x :: rest)) (hsuccs : ∀ y, y ∈ succs ↔ step x y) :
    Invariant step start (expand rest seen succs).1 (expand rest seen succs).2 := by
  have hseen : ∀ y, y ∈ (fresh seen succs).reverse ++ seen ↔ y ∈ succs ∨ y ∈ seen := by
    intro y
    rw [List.mem_append, List.mem_reverse, mem_fresh]
    by_cases hy : y ∈ seen <;> simp [hy]
  rw [expand_eq]
  refine ⟨?_, ?_, ?_, ?_⟩
  · rw [List.nodup_append]
    refine ⟨List.nodup_reverse.mpr (nodup_fresh seen succs), h.nodup, ?_⟩
    rintro y hy z hz rfl
    exact (mem_fresh.mp (List.mem_reverse.mp hy)).2 hz
  · intro y hy
    rcases (hseen y).mp hy with hsucc | hy
    · have hstep := (hsuccs y).mp hsucc
      rcases h.known x (hqueue.mem_iff.mpr List.mem_cons_self) with rfl | hx
      · exact Relation.TransGen.single hstep
      · exact (h.sound x hx).tail hstep
    · exact h.sound y hy
  · intro y hy
    rcases List.mem_append.mp hy with hy | hy
    · rcases h.known y (hqueue.mem_iff.mpr (List.mem_cons_of_mem x hy)) with hstart | hy
      · exact Or.inl hstart
      · exact Or.inr (List.mem_append_right _ hy)
    · exact Or.inr (List.mem_append_left _ (List.mem_reverse.mpr hy))
  · intro z hz
    -- a point that is new is in the list now
    by_cases hold : z = start ∨ z ∈ seen
    · rcases h.complete z hold with hqueued | hdone
      · rcases List.mem_cons.mp (hqueue.mem_iff.mp hqueued) with rfl | hrest
        · exact Or.inr fun y hstep => (hseen y).mpr (Or.inl ((hsuccs y).mpr hstep))
        · exact Or.inl (List.mem_append_left _ hrest)
      · exact Or.inr fun y hstep => (hseen y).mpr (Or.inr (hdone y hstep))
    · have hnew : z ∈ (fresh seen succs).reverse ++ seen := hz.resolve_left fun h => hold (Or.inl h)
      rcases List.mem_append.mp hnew with hnew | hnew
      · exact Or.inl (List.mem_append_right _ (List.mem_reverse.mp hnew))
      · exact absurd (Or.inr hnew) hold

omit [DecidableEq α] in
/-- When the list is empty, the seen points are the reachable ones. -/
theorem Invariant.mem_iff (h : Invariant step start [] seen) (y : α) :
    y ∈ seen ↔ Relation.TransGen step start y := by
  have hclosed : ∀ x, x = start ∨ x ∈ seen → ∀ y, step x y → y ∈ seen := fun x hx =>
    (h.complete x hx).resolve_left List.not_mem_nil
  refine ⟨h.sound y, fun hreach => ?_⟩
  induction hreach with
  | single hstep => exact hclosed start (Or.inl rfl) _ hstep
  | tail _ hstep ih => exact hclosed _ (Or.inr ih) _ hstep

variable {succs : Nat → α → List α}

theorem Invariant.run_eq {points : List α} (hsuccs : ∀ n x y, y ∈ succs n x ↔ step x y)
    (hpoints : ∀ x y, step x y → y ∈ points) (fuel round : Nat) {queue : List α}
    (h : Invariant step start queue seen) (hsub : seen ⊆ points)
    (hfuel : queue.length + points.length < fuel + seen.length) :
    ∃ res, run succs fuel round queue seen = some res ∧ Invariant step start [] res := by
  induction fuel generalizing round queue seen with
  | zero =>
    -- the seen points are at most all points
    have hle := (List.subperm_of_subset h.nodup hsub).length_le
    omega
  | succ fuel ih =>
    rw [run]
    cases hremove : swapRemoveFirst queue with
    | none =>
      obtain rfl := swapRemoveFirst_eq_none hremove
      exact ⟨seen, rfl, h⟩
    | some removed =>
      obtain ⟨x, rest⟩ := removed
      have hperm := swapRemoveFirst_perm hremove
      have hnext := h.expand hperm (hsuccs round x)
      have hlength := hperm.length_eq
      rw [List.length_cons] at hlength
      dsimp only
      rw [expand_eq] at hnext ⊢
      apply ih (round + 1) hnext
      · intro y hy
        rcases List.mem_append.mp hy with hy | hy
        · have hsucc := (mem_fresh.mp (List.mem_reverse.mp hy)).1
          exact hpoints x y ((hsuccs round x y).mp hsucc)
        · exact hsub hy
      · rw [List.length_append, List.length_append, List.length_reverse]
        omega

/-- **The search** ends within as many rounds as there are points, and two more, and returns the
    points that are reachable in one step or more, each once. -/
theorem run_spec (points : List α) (hsuccs : ∀ n x y, y ∈ succs n x ↔ step x y)
    (hpoints : ∀ x y, step x y → y ∈ points) (start : α) {fuel : Nat}
    (hfuel : points.length + 2 ≤ fuel) :
    ∃ res, run succs fuel 0 [start] [] = some res ∧ res.Nodup ∧
      ∀ y, y ∈ res ↔ Relation.TransGen step start y := by
  obtain ⟨res, hrun, hinv⟩ := (@invariant_start α step start).run_eq hsuccs hpoints fuel 0
    (List.nil_subset _) (by rw [List.length_singleton, List.length_nil]; omega)
  exact ⟨res, hrun, hinv.nodup, hinv.mem_iff⟩

end Worklist

end TeaclaveCrates.Lib
