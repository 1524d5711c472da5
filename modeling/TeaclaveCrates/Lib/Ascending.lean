import Mathlib.Data.List.Sort

namespace TeaclaveCrates.Lib

/-!
# Lists of keyed values in increasing key order

A stream that hands out each of its keys once and in order is the list of its remaining
entries.  Reading it forward is taking tails, and skipping to a key is dropping the entries
below it.

* `Ascending` — strictly increasing keys.
* `skipTo` — the entries from a key on.
* `Ascending.ext` — such a list is known from its lookups alone, so two ways to enumerate
  the same entries are equal as soon as both are in order.
-/

universe u v

variable {κ : Type u} {α : Type v} [LinearOrder κ]

/-- The keys increase strictly. -/
def Ascending (xs : List (κ × α)) : Prop := xs.Pairwise fun p q => p.1 < q.1

/-- The entries from key `k` on. -/
def skipTo (xs : List (κ × α)) (k : κ) : List (κ × α) := xs.dropWhile fun p => p.1 < k

theorem skipTo_sublist (xs : List (κ × α)) (k : κ) : (skipTo xs k).Sublist xs :=
  List.dropWhile_sublist _

theorem length_skipTo_le (xs : List (κ × α)) (k : κ) : (skipTo xs k).length ≤ xs.length :=
  (skipTo_sublist xs k).length_le

/-- The first entry left after a skip is not below the key. -/
theorem le_head_skipTo {xs : List (κ × α)} {k : κ} {p : κ × α} {rest : List (κ × α)}
    (h : skipTo xs k = p :: rest) : k ≤ p.1 := by
  induction xs with
  | nil => cases h
  | cons q tail ih =>
    by_cases hq : q.1 < k
    · exact ih (by simpa [skipTo, hq] using h)
    · have hcons : q :: tail = p :: rest := by simpa [skipTo, hq] using h
      rw [← (List.cons.inj hcons).1]
      exact not_lt.mp hq

namespace Ascending

variable {xs ys : List (κ × α)} {k : κ} {v : α}

theorem nil : Ascending ([] : List (κ × α)) := List.Pairwise.nil

theorem of_sublist (hys : Ascending ys) (h : xs.Sublist ys) : Ascending xs :=
  List.Pairwise.sublist h hys

theorem tail {p : κ × α} (h : Ascending (p :: xs)) : Ascending xs := (List.pairwise_cons.mp h).2

theorem head_lt {p : κ × α} (h : Ascending (p :: xs)) : ∀ q ∈ xs, p.1 < q.1 :=
  (List.pairwise_cons.mp h).1

theorem skipTo (h : Ascending xs) (k : κ) : Ascending (skipTo xs k) :=
  h.of_sublist (skipTo_sublist xs k)

/-- A key below every entry is not found. -/
theorem lookup_eq_none_of_lt (h : ∀ p ∈ xs, k < p.1) : xs.lookup k = none := by
  rw [List.lookup_eq_none_iff]
  intro p hp
  simpa using (h p hp).ne

/-- Looking a key up finds exactly the entry that carries it. -/
theorem lookup_eq_some_iff (h : Ascending xs) : xs.lookup k = some v ↔ (k, v) ∈ xs := by
  induction xs with
  | nil => simp
  | cons p rest ih =>
    obtain ⟨key, value⟩ := p
    rw [List.lookup_cons, List.mem_cons]
    by_cases hk : k = key
    · subst hk
      have hnot : (k, v) ∉ rest := fun hmem => lt_irrefl k (h.head_lt (k, v) hmem)
      simp only [beq_self_eq_true, Option.some.injEq, Prod.mk.injEq, true_and, hnot, or_false]
      exact eq_comm
    · have hbeq : (k == key) = false := by simpa using hk
      simp only [hbeq, Prod.mk.injEq, hk, false_and, false_or]
      exact ih h.tail

theorem lookup_isSome_iff (h : Ascending xs) :
    (xs.lookup k).isSome = true ↔ ∃ v, (k, v) ∈ xs := by
  rw [Option.isSome_iff_exists]
  exact exists_congr fun _ => h.lookup_eq_some_iff

/-- **Extensionality.** Lists in key order with the same lookups are equal. -/
theorem ext (hxs : Ascending xs) (hys : Ascending ys)
    (h : ∀ k, xs.lookup k = ys.lookup k) : xs = ys := by
  have hmem : ∀ p, p ∈ xs ↔ p ∈ ys := by
    intro p
    rw [show p = (p.1, p.2) from rfl, ← hxs.lookup_eq_some_iff, h, hys.lookup_eq_some_iff]
  have hperm : xs.Perm ys := by
    refine (List.perm_ext_iff_of_nodup ?_ ?_).mpr hmem
    · exact hxs.imp fun hlt heq => (heq ▸ hlt).false
    · exact hys.imp fun hlt heq => (heq ▸ hlt).false
  exact hperm.eq_of_pairwise (fun a b _ _ hab hba => absurd hab hba.asymm) hxs hys

/-- Skipping hides the keys below and keeps the others. -/
theorem lookup_skipTo (h : Ascending xs) (t k : κ) :
    (Lib.skipTo xs t).lookup k = if k < t then none else xs.lookup k := by
  induction xs with
  | nil => simp [Lib.skipTo]
  | cons p rest ih =>
    obtain ⟨key, value⟩ := p
    by_cases hp : key < t
    · have hskip : Lib.skipTo ((key, value) :: rest) t = Lib.skipTo rest t := by
        simp [Lib.skipTo, hp]
      rw [hskip, ih h.tail, List.lookup_cons]
      by_cases hk : k < t
      · simp [hk]
      · have hne : (k == key) = false := by simpa using (lt_of_lt_of_le hp (not_lt.mp hk)).ne'
        simp [hk, hne]
    · have hskip : Lib.skipTo ((key, value) :: rest) t = (key, value) :: rest := by
        simp [Lib.skipTo, hp]
      rw [hskip]
      by_cases hk : k < t
      · rw [if_pos hk]
        apply lookup_eq_none_of_lt
        intro q hq
        have hkey : k < key := lt_of_lt_of_le hk (not_lt.mp hp)
        rcases List.mem_cons.mp hq with rfl | hq
        · exact hkey
        · exact hkey.trans (h.head_lt q hq)
      · simp [hk]

end Ascending

end TeaclaveCrates.Lib
