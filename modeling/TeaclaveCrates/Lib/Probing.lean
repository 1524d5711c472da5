import Mathlib.Data.List.NodupEquivFin
import Mathlib.Algebra.Order.Ring.Nat
import Mathlib.Data.Fintype.Card

namespace TeaclaveCrates.Lib

/-!
# Open addressing

Tables in which an item is looked for slot by slot from the slot its hash points to.

* `probeSlot` — the slot looked at in the `j`-th step;
* `Placed` — each item lies in a slot of its own, and no slot before it on its way is vacant;
* `Placed.exists_vacant` — a table that is not full has a first vacant slot on every way;
* `Placed.push` — an item put there keeps the table in order.

Nothing is ever taken out of such a table.
-/

universe u

variable {α : Type u}

/-- The slot looked at in step `j`, for the hash `h`. -/
def probeSlot (size h j : Nat) : Nat := (h + j) % size

theorem probeSlot_lt {size : Nat} (hsize : 0 < size) (h j : Nat) : probeSlot size h j < size :=
  Nat.mod_lt _ hsize

variable {s : Nat}

/-- Every slot is looked at within one turn. -/
theorem exists_step {size : Nat} (hs : s < size) (h : Nat) :
    ∃ j, 1 ≤ j ∧ j ≤ size ∧ probeSlot size h j = s := by
  have hmod := Nat.mod_lt h (show 0 < size by omega)
  have hdiv := Nat.div_add_mod h size
  rcases Nat.lt_or_ge (h % size) s with hlt | hge
  · refine ⟨s - h % size, by omega, by omega, ?_⟩
    have : h + (s - h % size) = s + size * (h / size) := by omega
    rw [probeSlot, this, Nat.add_mul_mod_self_left, Nat.mod_eq_of_lt hs]
  · -- once around
    refine ⟨size - h % size + s, by omega, by omega, ?_⟩
    have : h + (size - h % size + s) = s + size * (h / size + 1) := by
      rw [Nat.mul_succ]
      omega
    rw [probeSlot, this, Nat.add_mul_mod_self_left, Nat.mod_eq_of_lt hs]

/-- Slot `s` holds an item. -/
def Taken (vacant : α → Bool) (table : List α) (s : Nat) : Prop :=
  ∃ x, table[s]? = some x ∧ vacant x = false

/-- The items of a table, in the order they came in, and the slot of each. -/
structure Placed (vacant : α → Bool) (home : α → Nat) (table : List α) (slots : List Nat)
    (items : List α) : Prop where
  length : slots.length = items.length
  nodup : slots.Nodup
  here : ∀ (i s : Nat), slots[i]? = some s → table[s]? = items[i]?
  filled : ∀ x ∈ items, vacant x = false
  only : ∀ s, Taken vacant table s → s ∈ slots
  reach : ∀ (i s : Nat) (x : α), slots[i]? = some s → items[i]? = some x →
    ∃ j, 1 ≤ j ∧ j ≤ table.length ∧ probeSlot table.length (home x) j = s ∧
      ∀ k, 1 ≤ k → k < j → Taken vacant table (probeSlot table.length (home x) k) ∧
        probeSlot table.length (home x) k ≠ s

variable {vacant : α → Bool} {home : α → Nat} {table items : List α} {slots : List Nat}

theorem placed_nil (h : ∀ x ∈ table, vacant x = true) : Placed vacant home table [] [] where
  length := rfl
  nodup := List.nodup_nil
  here i s hs := by simp at hs
  filled x hx := by simp at hx
  only s hs := by
    obtain ⟨x, hx, hfull⟩ := hs
    have := h x (List.mem_of_getElem? hx)
    rw [hfull] at this
    cases this
  reach i s x hs := by simp at hs

/-- An item of the table is in one of the slots. -/
theorem Placed.exists_slot (h : Placed vacant home table slots items) {i : Nat} {x : α}
    (hx : items[i]? = some x) : ∃ s, slots[i]? = some s ∧ table[s]? = some x := by
  have hi : i < slots.length := by
    rw [h.length]
    exact (List.getElem?_eq_some_iff.mp hx).1
  have hs := List.getElem?_eq_getElem hi
  exact ⟨_, hs, by rw [h.here i _ hs, hx]⟩

/-- What a filled slot holds is an item. -/
theorem Placed.exists_item (h : Placed vacant home table slots items) {x : α}
    (hs : table[s]? = some x) (hx : vacant x = false) :
    ∃ i : Nat, slots[i]? = some s ∧ items[i]? = some x := by
  obtain ⟨i, hi, his⟩ := List.getElem_of_mem (h.only s ⟨x, hs, hx⟩)
  have hsi : slots[i]? = some s := by rw [List.getElem?_eq_getElem hi, his]
  exact ⟨i, hsi, by rw [← h.here i s hsi, hs]⟩

theorem Placed.slot_lt_length (h : Placed vacant home table slots items) (hs : s ∈ slots) :
    s < table.length := by
  obtain ⟨i, hi, his⟩ := List.getElem_of_mem hs
  have hsi : slots[i]? = some s := by rw [List.getElem?_eq_getElem hi, his]
  have hitem := h.here i s hsi
  have hi' : i < items.length := h.length ▸ hi
  rw [List.getElem?_eq_getElem hi'] at hitem
  exact (List.getElem?_eq_some_iff.mp hitem).1

theorem Placed.length_le (h : Placed vacant home table slots items) :
    items.length ≤ table.length := by
  have hsub : slots ⊆ List.range table.length := by
    intro s hs
    exact List.mem_range.mpr (h.slot_lt_length hs)
  have := (h.nodup.subperm hsub).length_le
  rwa [List.length_range, h.length] at this

/-- A table that is not full has a vacant slot. -/
theorem Placed.exists_vacant_slot (h : Placed vacant home table slots items)
    (hlt : items.length < table.length) : ∃ s, s < table.length ∧ s ∉ slots := by
  by_contra hall
  push Not at hall
  -- otherwise the slots are all the numbers below the size
  have hsub : List.range table.length ⊆ slots := by
    intro s hs
    exact hall s (List.mem_range.mp hs)
  have := (List.nodup_range.subperm hsub).length_le
  rw [List.length_range, h.length] at this
  omega

/-- On the way of every hash there is a first vacant slot, within one turn. -/
theorem Placed.exists_vacant (h : Placed vacant home table slots items)
    (hlt : items.length < table.length) (hash : Nat) :
    ∃ j x, 1 ≤ j ∧ j ≤ table.length ∧ table[probeSlot table.length hash j]? = some x ∧
      vacant x = true ∧
      ∀ k, 1 ≤ k → k < j → Taken vacant table (probeSlot table.length hash k) := by
  classical
  obtain ⟨s, hs, hfree⟩ := h.exists_vacant_slot hlt
  obtain ⟨j, hj, hjle, hslot⟩ := exists_step hs hash
  have hex : ∃ j, 1 ≤ j ∧ ¬ Taken vacant table (probeSlot table.length hash j) :=
    ⟨j, hj, fun hfull => hfree (hslot ▸ h.only _ hfull)⟩
  obtain ⟨hpos, hvacant⟩ := Nat.find_spec hex
  have hmin : Nat.find hex ≤ j :=
    Nat.find_min' hex ⟨hj, fun hfull => hfree (hslot ▸ h.only _ hfull)⟩
  have hget := List.getElem?_eq_getElem (probeSlot_lt (show 0 < table.length by omega) hash
    (Nat.find hex))
  refine ⟨Nat.find hex, _, hpos, by omega, hget, ?_, ?_⟩
  · by_contra hx
    exact hvacant ⟨_, hget, by simpa using hx⟩
  · intro k hk hkj
    by_contra hk'
    exact Nat.find_min hex hkj ⟨hk, hk'⟩

/-- An item put into the first vacant slot on its way. -/
theorem Placed.push (h : Placed vacant home table slots items) {x y : α} {j : Nat}
    (hx : vacant x = false) (hj : 1 ≤ j) (hjle : j ≤ table.length)
    (hs : probeSlot table.length (home x) j = s) (hy : table[s]? = some y) (hyv : vacant y = true)
    (hway : ∀ k, 1 ≤ k → k < j → Taken vacant table (probeSlot table.length (home x) k)) :
    Placed vacant home (table.set s x) (slots ++ [s]) (items ++ [x]) := by
  have hlen : (table.set s x).length = table.length := List.length_set
  have hslt : s < table.length := (List.getElem?_eq_some_iff.mp hy).1
  -- no item lay there
  have hfresh : s ∉ slots := by
    intro hmem
    obtain ⟨i, hi, his⟩ := List.getElem_of_mem hmem
    have hsi : slots[i]? = some s := by rw [List.getElem?_eq_getElem hi, his]
    have hitem := h.here i s hsi
    rw [hy] at hitem
    have := h.filled y (List.mem_of_getElem? hitem.symm)
    rw [hyv] at this
    cases this
  have hgrow : ∀ t, Taken vacant table t → Taken vacant (table.set s x) t := by
    rintro t ⟨z, hz, hzv⟩
    by_cases ht : s = t
    · subst ht
      rw [hy] at hz
      cases hz
      rw [hyv] at hzv
      cases hzv
    · exact ⟨z, by rw [List.getElem?_set_ne ht, hz], hzv⟩
  constructor
  · simp [h.length]
  · rw [List.nodup_append]
    refine ⟨h.nodup, List.nodup_singleton s, ?_⟩
    intro a ha b hb hab
    rw [List.mem_singleton] at hb
    exact hfresh (by rw [← hb, ← hab]; exact ha)
  · intro i t ht
    rcases Nat.lt_or_ge i slots.length with hi | hi
    · rw [List.getElem?_append_left hi] at ht
      have hne : s ≠ t := by
        rintro rfl
        exact hfresh (List.mem_of_getElem? ht)
      rw [List.getElem?_set_ne hne, List.getElem?_append_left (h.length ▸ hi), h.here i t ht]
    · rw [List.getElem?_append_right hi] at ht
      have hi0 : i - slots.length = 0 := by
        by_contra hne
        rw [List.getElem?_eq_none (by simp; omega)] at ht
        cases ht
      rw [hi0] at ht
      cases ht
      rw [List.getElem?_append_right (h.length ▸ hi), ← h.length, hi0,
        List.getElem?_set_self hslt]
      rfl
  · intro z hz
    rw [List.mem_append, List.mem_singleton] at hz
    rcases hz with hz | rfl
    · exact h.filled z hz
    · exact hx
  · rintro t ⟨z, hz, hzv⟩
    rw [List.mem_append, List.mem_singleton]
    by_cases ht : s = t
    · exact Or.inr ht.symm
    · rw [List.getElem?_set_ne ht] at hz
      exact Or.inl (h.only t ⟨z, hz, hzv⟩)
  · intro i t z ht hz
    rw [hlen]
    rcases Nat.lt_or_ge i slots.length with hi | hi
    · rw [List.getElem?_append_left hi] at ht
      rw [List.getElem?_append_left (h.length ▸ hi)] at hz
      obtain ⟨j', hj', hjle', hslot', hway'⟩ := h.reach i t z ht hz
      exact ⟨j', hj', hjle', hslot', fun k hk hkj =>
        ⟨hgrow _ (hway' k hk hkj).1, (hway' k hk hkj).2⟩⟩
    · rw [List.getElem?_append_right hi] at ht
      have hi0 : i - slots.length = 0 := by
        by_contra hne
        rw [List.getElem?_eq_none (by simp; omega)] at ht
        cases ht
      rw [List.getElem?_append_right (h.length ▸ hi), ← h.length, hi0] at hz
      rw [hi0] at ht
      cases ht
      cases hz
      refine ⟨j, hj, hjle, hs, fun k hk hkj => ⟨hgrow _ (hway k hk hkj), ?_⟩⟩
      -- the slot itself was vacant
      intro heq
      exact hfresh (heq ▸ h.only _ (hway k hk hkj))

end TeaclaveCrates.Lib
