import Mathlib.Algebra.BigOperators.Intervals

namespace TeaclaveCrates.Lib

/-!
# Programs that draw numbers

A program that draws numbers from given ranges, one after the other, is a tree: each draw has one
branch for each number in its range, and the way to a leaf is one sequence of outcomes.

* `Draws` — such programs, a monad;
* `Draws.All` — what holds of the result for every outcome of the draws;
* `Draws.count` — the number of outcome sequences with a result of some kind;
* `count_bind` — a program behind another one, when one result of the first alone leads on;
* `Related` — programs with the same draws;
* `count_eq_sum` — the results of some kind one by one.
-/

/-- A number from `lo` up to but without `hi` is drawn, and the program goes on with it. -/
inductive Draws (α : Type) : Type
  | pure (a : α)
  | draw (lo hi : Nat) (next : Nat → Draws α)

namespace Draws

variable {α β : Type}

def bind (m : Draws α) (f : α → Draws β) : Draws β :=
  match m with
  | pure a => f a
  | draw lo hi next => draw lo hi fun t => bind (next t) f

instance : Monad Draws where
  pure := pure
  bind := bind

/-- One draw by itself. -/
def range (lo hi : Nat) : Draws Nat := draw lo hi pure

/-- For every outcome of the draws the result has the property. -/
def All (p : α → Prop) : Draws α → Prop
  | pure a => p a
  | draw lo hi next => ∀ t, lo ≤ t → t < hi → All p (next t)

variable {m : Draws α} {p : α → Prop}

variable {q : α → Prop}

theorem All.mono (h : m.All p) (hpq : ∀ a, p a → q a) :
    m.All q := by
  induction m with
  | pure a => exact hpq a h
  | draw lo hi next ih => exact fun t hlo hhi => ih t (h t hlo hhi)

theorem All.bind {q : β → Prop} {f : α → Draws β} (h : m.All p) (hf : ∀ a, p a → (f a).All q) :
    (m >>= f).All q := by
  induction m with
  | pure a => exact hf a h
  | draw lo hi next ih => exact fun t hlo hhi => ih t (h t hlo hhi)

/-- The number of outcome sequences whose result has the property. -/
def count (p : α → Prop) [DecidablePred p] : Draws α → Nat
  | pure a => if p a then 1 else 0
  | draw lo hi next => ∑ t ∈ Finset.Ico lo hi, count p (next t)

theorem count_bind {r : β → Prop} [DecidablePred q] [DecidablePred r] {f : α → Draws β}
    (h : m.All p) (hf : ∀ a, p a → count r (f a) = if q a then 1 else 0) :
    count r (m >>= f) = count q m := by
  induction m with
  | pure a => exact hf a h
  | draw lo hi next ih =>
    refine Finset.sum_congr rfl fun t ht => ?_
    obtain ⟨hlo, hhi⟩ := Finset.mem_Ico.mp ht
    exact ih t (h t hlo hhi)

theorem count_congr [DecidablePred p] [DecidablePred q] (h : ∀ a, p a ↔ q a) :
    count p m = count q m := by
  induction m with
  | pure a => simp only [count, h]
  | draw lo hi next ih => exact Finset.sum_congr rfl fun t _ => ih t

theorem count_eq_zero [DecidablePred p] (h : m.All fun a => ¬ p a) :
    count p m = 0 := by
  induction m with
  | pure a => exact if_neg h
  | draw lo hi next ih =>
    refine Finset.sum_eq_zero fun t ht => ?_
    obtain ⟨hlo, hhi⟩ := Finset.mem_Ico.mp ht
    exact ih t (h t hlo hhi)

/-- Two programs with the same draws, whose results are related for every outcome. -/
inductive Related (R : α → β → Prop) : Draws α → Draws β → Prop
  | pure {a : α} {b : β} : R a b → Related R (pure a) (pure b)
  | draw {lo hi : Nat} {f : Nat → Draws α} {g : Nat → Draws β} :
    (∀ t, Related R (f t) (g t)) → Related R (draw lo hi f) (draw lo hi g)

theorem Related.bind {α' β' : Type} {R : α → β → Prop} {S : α' → β' → Prop} {n : Draws β}
    {f : α → Draws α'} {g : β → Draws β'} (h : Related R m n)
    (hfg : ∀ a b, R a b → Related S (f a) (g b)) : Related S (m >>= f) (n >>= g) := by
  induction h with
  | pure hab => exact hfg _ _ hab
  | draw _ ih => exact .draw ih

theorem Related.count {R : α → β → Prop} {q : β → Prop} [DecidablePred p] [DecidablePred q]
    {n : Draws β} (h : Related R m n) (hpq : ∀ a b, R a b → (p a ↔ q b)) :
    m.count p = n.count q := by
  induction h with
  | pure hab => simp only [Draws.count, hpq _ _ hab]
  | draw _ ih => exact Finset.sum_congr rfl fun t _ => ih t

/-- When the results of some kind are finitely many, they are counted one by one. -/
theorem count_eq_sum [DecidableEq α] (s : Finset α) (m : Draws α) :
    count (· ∈ s) m = ∑ a ∈ s, count (· = a) m := by
  induction m with
  | pure a => simp only [count, Finset.sum_ite_eq]
  | draw lo hi next ih =>
    simp only [count, ih]
    exact Finset.sum_comm

/-- Of a list without repetitions one index alone has an element that is there. -/
theorem sum_index [DecidableEq α] {l : List α} (hl : l.Nodup) {y : α} {i lo hi : Nat}
    (hi' : l[i]? = some y) (hlo : lo ≤ i) (hhi : i < hi) :
    ∑ t ∈ Finset.Ico lo hi, (if l[t]? = some y then 1 else 0) = 1 := by
  rw [Finset.sum_eq_single_of_mem i (Finset.mem_Ico.mpr ⟨hlo, hhi⟩), if_pos hi']
  intro t _ hne
  refine if_neg fun ht => hne ?_
  have hlen := (List.getElem?_eq_some_iff.mp hi').1
  exact ((List.getElem?_inj hlen hl).mp (hi'.trans ht.symm)).symm

end Draws

end TeaclaveCrates.Lib
