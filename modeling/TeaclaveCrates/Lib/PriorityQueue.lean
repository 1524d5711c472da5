import Mathlib.Data.List.Sort

namespace TeaclaveCrates.Lib

/-!
# Priority queues

What the user of a priority queue can rely on: what is in it, and that the item that is looked at
comes before all others. Which of several first items that is is left open.

* `PriorityQueue` — a queue with its rules;
* `PriorityQueue.ordered` — a queue that is kept in order.
-/

universe u

/-- A priority queue of `α`, with the items that are first under `le` in front. -/
structure PriorityQueue (α : Type u) (le : α → α → Prop) where
  Queue : Type u
  items : Queue → List α
  empty : Queue
  push : Queue → α → Queue
  /-- The item in front. -/
  peek : Queue → Option α
  /-- Puts an item in the place of the one in front. -/
  replace : Queue → α → Queue
  /-- Removes the item in front. -/
  pop : Queue → Queue
  items_empty : items empty = []
  items_push : ∀ q a, (items (push q a)).Perm (a :: items q)
  peek_none : ∀ q, peek q = none → items q = []
  peek_some : ∀ q a, peek q = some a → ∃ rest, (items q).Perm (a :: rest) ∧
    (∀ b ∈ rest, le a b) ∧ (∀ b, (items (replace q b)).Perm (b :: rest)) ∧
    (items (pop q)).Perm rest

namespace PriorityQueue

variable {α : Type u} (le : α → α → Prop) [DecidableRel le] [Std.Total le] [IsTrans α le]

/-- The queue as a list in order. -/
def ordered : PriorityQueue α le where
  Queue := { l : List α // l.Pairwise le }
  items q := q.1
  empty := ⟨[], List.Pairwise.nil⟩
  push q a := ⟨q.1.orderedInsert le a, q.2.orderedInsert a _⟩
  peek q := q.1.head?
  replace q a := ⟨q.1.tail.orderedInsert le a, q.2.tail.orderedInsert a _⟩
  pop q := ⟨q.1.tail, q.2.tail⟩
  items_empty := rfl
  items_push q a := List.perm_orderedInsert le a q.1
  peek_none q h := List.head?_eq_none_iff.mp h
  peek_some := by
    rintro ⟨l, hl⟩ a h
    obtain ⟨rest, rfl⟩ := List.head?_eq_some_iff.mp h
    exact ⟨rest, List.Perm.refl _, fun b hb => List.rel_of_pairwise_cons hl hb,
      fun b => List.perm_orderedInsert le b rest, List.Perm.refl _⟩

end PriorityQueue

end TeaclaveCrates.Lib
