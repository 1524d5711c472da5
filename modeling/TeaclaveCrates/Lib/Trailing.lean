import Mathlib.Data.List.Basic

namespace TeaclaveCrates.Lib

/-!
# What an encoding ends with

An encoding ends with a part of it, and what comes before knows no more of that part than how
long it is: a length prefix around such an encoding leaves it one.

* `Trails` — the part comes last;
* `Trails.prefixed` / `Trails.append_left` — encodings around it.
-/

variable {α : Type} {f : List α → List α}

/-- `f x` ends with `x`, behind something that depends on the length of `x` only. -/
def Trails (f : List α → List α) : Prop :=
  ∃ front : Nat → List α, ∀ x, f x = front x.length ++ x

namespace Trails

theorem id : Trails fun x : List α => x := ⟨fun _ => [], fun _ => rfl⟩

theorem append_left (h : Trails f) (b : List α) : Trails fun x => b ++ f x := by
  obtain ⟨front, hfront⟩ := h
  refine ⟨fun n => b ++ front n, fun x => ?_⟩
  simp [hfront]

/-- A prefix made from the length. -/
theorem prefixed (h : Trails f) (p : Nat → List α) : Trails fun x => p (f x).length ++ f x := by
  obtain ⟨front, hfront⟩ := h
  refine ⟨fun n => p ((front n).length + n) ++ front n, fun x => ?_⟩
  simp [hfront]

/-- Another part of the same length changes neither the length nor what comes before. -/
theorem congr_length (h : Trails f) {x y : List α} (hlen : x.length = y.length) :
    ∃ front, f x = front ++ x ∧ f y = front ++ y ∧ (f x).length = (f y).length := by
  obtain ⟨front, hfront⟩ := h
  refine ⟨front x.length, hfront x, by rw [hfront, hlen], ?_⟩
  simp [hfront, hlen]

end Trails

end TeaclaveCrates.Lib
