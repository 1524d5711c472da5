import Mathlib.Data.List.Nodup

namespace TeaclaveCrates.Lib

/-!
# Insertion-ordered sets and maps

Hash sets and hash maps that also remember an order: iteration follows the order in which the
elements were added, and adding an element that is already there moves it to the back.

* `LinkedSet` — `insert`, `remove`, `extend`, with the membership lemma of each.
* `LinkedMap` — `get?`, in-place `modify` of one value and `mapValues` of all of them.

Both carry the fact that no key occurs twice, so a lookup never depends on which copy it finds.
-/

universe u v

/-! ### Sets -/

/-- A set that iterates in insertion order. -/
@[ext]
structure LinkedSet (α : Type u) where
  toList : List α
  nodup : toList.Nodup

namespace LinkedSet

variable {α : Type u}

instance : Membership α (LinkedSet α) := ⟨fun s a => a ∈ s.toList⟩

variable (s : LinkedSet α)

theorem mem_def (a : α) : a ∈ s ↔ a ∈ s.toList := Iff.rfl

/-- The set with no element. -/
def empty : LinkedSet α := ⟨[], List.nodup_nil⟩

@[simp]
theorem not_mem_empty (a : α) : a ∉ (empty : LinkedSet α) := List.not_mem_nil

variable [DecidableEq α]

instance (s : LinkedSet α) (a : α) : Decidable (a ∈ s) := inferInstanceAs (Decidable (a ∈ s.toList))

/-- Membership as a test. -/
def contains (s : LinkedSet α) (a : α) : Bool := decide (a ∈ s)

@[simp]
theorem contains_iff (a : α) : s.contains a = true ↔ a ∈ s := by
  simp [contains]

/-- Add `a` at the back; an `a` that is already there moves to the back. -/
def insert (s : LinkedSet α) (a : α) : LinkedSet α where
  toList := s.toList.erase a ++ [a]
  nodup := by
    rw [List.nodup_append]
    refine ⟨s.nodup.erase a, List.nodup_singleton a, ?_⟩
    intro x hx y hy hxy
    rw [List.mem_singleton] at hy
    rw [hxy, hy] at hx
    exact s.nodup.not_mem_erase hx

@[simp]
theorem mem_insert (a x : α) : x ∈ s.insert a ↔ x = a ∨ x ∈ s := by
  simp only [mem_def, insert, List.mem_append, List.mem_singleton, s.nodup.mem_erase_iff]
  tauto

/-- Take `a` out. -/
def remove (s : LinkedSet α) (a : α) : LinkedSet α where
  toList := s.toList.erase a
  nodup := s.nodup.erase a

@[simp]
theorem mem_remove (a x : α) : x ∈ s.remove a ↔ x ≠ a ∧ x ∈ s := by
  simp [mem_def, remove, s.nodup.mem_erase_iff]

/-- Insert every element of a list in turn. -/
def extend (s : LinkedSet α) (l : List α) : LinkedSet α := l.foldl insert s

@[simp]
theorem mem_extend (l : List α) (s : LinkedSet α) (x : α) : x ∈ s.extend l ↔ x ∈ l ∨ x ∈ s := by
  induction l generalizing s with
  | nil => simp [extend]
  | cons a l ih =>
    have h := ih (s.insert a)
    rw [extend] at h
    rw [extend, List.foldl_cons, h, mem_insert, List.mem_cons]
    tauto

/-- Remove every element of a list in turn. -/
def removeAll (s : LinkedSet α) (l : List α) : LinkedSet α := l.foldl remove s

@[simp]
theorem mem_removeAll (l : List α) (s : LinkedSet α) (x : α) :
    x ∈ s.removeAll l ↔ x ∉ l ∧ x ∈ s := by
  induction l generalizing s with
  | nil => simp [removeAll]
  | cons a l ih =>
    have h := ih (s.remove a)
    rw [removeAll] at h
    rw [removeAll, List.foldl_cons, h, mem_remove, List.mem_cons, not_or]
    tauto

/-- What is left keeps its order. -/
theorem toList_removeAll (l : List α) (s : LinkedSet α) :
    (s.removeAll l).toList = s.toList.filter (· ∉ l) := by
  induction l generalizing s with
  | nil => simp [removeAll]
  | cons a l ih =>
    have h := ih (s.remove a)
    rw [removeAll] at h
    rw [removeAll, List.foldl_cons, h, remove]
    show (s.toList.erase a).filter _ = _
    rw [s.nodup.erase_eq_filter, List.filter_filter]
    apply List.filter_congr
    intro x _
    by_cases hxa : x = a <;> simp [hxa]

end LinkedSet

/-! ### Maps -/

/-- A map that iterates in insertion order. -/
structure LinkedMap (κ : Type u) (ν : Type v) where
  entries : List (κ × ν)
  nodup : (entries.map Prod.fst).Nodup

namespace LinkedMap

variable {κ : Type u} {ν : Type v}

/-- Apply `f` to every value, keeping keys and order. -/
def mapEntries (m : LinkedMap κ ν) (f : κ → ν → ν) : LinkedMap κ ν where
  entries := m.entries.map fun e => (e.1, f e.1 e.2)
  nodup := by
    rw [List.map_map]
    exact m.nodup

variable (m : LinkedMap κ ν)

theorem mapEntries_mapEntries (f g : κ → ν → ν) :
    (m.mapEntries f).mapEntries g = m.mapEntries fun k v => g k (f k v) := by
  simp [mapEntries]

variable [DecidableEq κ]

/-- The value stored under `k`. -/
def get? (m : LinkedMap κ ν) (k : κ) : Option ν := m.entries.lookup k

/-- Change the value under `k` in place. -/
def modify (m : LinkedMap κ ν) (k : κ) (f : ν → ν) : LinkedMap κ ν :=
  m.mapEntries fun k' v => if k' = k then f v else v

theorem lookup_cons_eq_ite (k : κ) (e : κ × ν) (l : List (κ × ν)) :
    (e :: l).lookup k = if k = e.1 then some e.2 else l.lookup k := by
  obtain ⟨k', v⟩ := e
  rw [List.lookup_cons]
  by_cases h : k = k'
  · simp [h]
  · have hb : (k == k') = false := by simpa using h
    simp [h, hb]

private theorem lookup_map (f : κ → ν → ν) (k : κ) :
    ∀ l : List (κ × ν), (l.map fun e => (e.1, f e.1 e.2)).lookup k = (l.lookup k).map (f k)
  | [] => rfl
  | e :: l => by
    rw [List.map_cons, lookup_cons_eq_ite, lookup_cons_eq_ite, lookup_map f k l]
    by_cases h : k = e.1
    · simp [h]
    · simp [h]

@[simp]
theorem get?_mapEntries (f : κ → ν → ν) (k : κ) :
    (m.mapEntries f).get? k = (m.get? k).map (f k) :=
  lookup_map f k m.entries

@[simp]
theorem get?_modify (k k' : κ) (f : ν → ν) :
    (m.modify k f).get? k' = if k' = k then (m.get? k').map f else m.get? k' := by
  rw [modify, get?_mapEntries]
  by_cases h : k' = k
  · simp [h]
  · simp [h]

/-- A lookup finds exactly the entries, since no key occurs twice. -/
theorem get?_eq_some_iff (k : κ) (v : ν) :
    m.get? k = some v ↔ (k, v) ∈ m.entries := by
  obtain ⟨l, hl⟩ := m
  show l.lookup k = some v ↔ (k, v) ∈ l
  induction l with
  | nil => simp
  | cons e l ih =>
    rw [List.map_cons, List.nodup_cons] at hl
    by_cases h : k = e.1
    · subst h
      simp only [lookup_cons_eq_ite, ↓reduceIte, Option.some.injEq, List.mem_cons, Prod.ext_iff,
        true_and]
      refine ⟨fun h => Or.inl h.symm, ?_⟩
      rintro (h | h)
      · exact h.symm
      · exact absurd (List.mem_map_of_mem h) hl.1
    · simp only [lookup_cons_eq_ite, List.mem_cons, Prod.ext_iff, h, ↓reduceIte, false_and,
        false_or]
      exact ih hl.2

/-- Is there a value under `k`? -/
def contains (m : LinkedMap κ ν) (k : κ) : Bool := (m.get? k).isSome

theorem mem_keys_iff (k : κ) :
    k ∈ m.entries.map Prod.fst ↔ m.contains k = true := by
  rw [contains, Option.isSome_iff_exists, List.mem_map]
  constructor
  · rintro ⟨e, he, rfl⟩
    exact ⟨e.2, (m.get?_eq_some_iff e.1 e.2).mpr he⟩
  · rintro ⟨v, hv⟩
    exact ⟨(k, v), (m.get?_eq_some_iff k v).mp hv, rfl⟩

/-- Change the value under `k`, starting from `dflt` at the back when there is none. -/
def upsert (m : LinkedMap κ ν) (k : κ) (dflt : ν) (f : ν → ν) : LinkedMap κ ν :=
  if h : m.contains k then m.modify k f
  else
    { entries := m.entries ++ [(k, f dflt)]
      nodup := by
        rw [List.map_append, List.nodup_append]
        refine ⟨m.nodup, List.nodup_singleton k, ?_⟩
        intro x hx y hy hxy
        rw [List.map_cons, List.map_nil, List.mem_singleton] at hy
        rw [hxy, hy, mem_keys_iff] at hx
        exact h hx }

@[simp]
theorem get?_upsert (k k' : κ) (dflt : ν) (f : ν → ν) :
    (m.upsert k dflt f).get? k' = if k' = k then some (f ((m.get? k).getD dflt)) else m.get? k' := by
  unfold upsert
  by_cases h : m.contains k
  · rw [dif_pos h, get?_modify]
    obtain ⟨v, hv⟩ := Option.isSome_iff_exists.mp h
    by_cases hk : k' = k
    · subst hk
      simp [hv]
    · simp [hk]
  · rw [dif_neg h]
    have hnone : m.get? k = none := by simpa [contains] using h
    show (m.entries ++ [(k, f dflt)]).lookup k' = _
    rw [List.lookup_append]
    by_cases hk : k' = k
    · subst hk
      have : m.entries.lookup k' = none := hnone
      simp [this, hnone]
    · have hb : (k' == k) = false := by simpa using hk
      simp [hk, List.lookup_cons, hb, get?]

/-- The keys, in the order in which they came in. -/
def keys (m : LinkedMap κ ν) : List κ := m.entries.map Prod.fst

omit [DecidableEq κ] in
theorem length_keys : m.keys.length = m.entries.length := List.length_map ..

/-- The map with no entry. -/
def empty : LinkedMap κ ν := ⟨[], List.nodup_nil⟩

/-- Give `k` a value from the one it has, if any; a new key goes to the back. -/
def alter (m : LinkedMap κ ν) (k : κ) (f : Option ν → ν) : LinkedMap κ ν :=
  if h : m.contains k then m.modify k fun v => f (some v)
  else
    { entries := m.entries ++ [(k, f none)]
      nodup := by
        rw [List.map_append, List.nodup_append]
        refine ⟨m.nodup, List.nodup_singleton k, ?_⟩
        intro x hx y hy hxy
        rw [List.map_cons, List.map_nil, List.mem_singleton] at hy
        rw [hxy, hy, mem_keys_iff] at hx
        exact h hx }

/-- A key that is not there is put at the back. -/
theorem alter_of_none {m : LinkedMap κ ν} {k : κ} (h : m.get? k = none) (f : Option ν → ν) :
    (m.alter k f).entries = m.entries ++ [(k, f none)] := by
  have hc : ¬ m.contains k = true := by simp [contains, h]
  simp [alter, hc]

/-- A key that is there keeps its place. -/
theorem getElem?_alter_of_some {m : LinkedMap κ ν} {k : κ} {v : ν} (h : m.get? k = some v)
    (f : Option ν → ν) (i : Nat) : (m.alter k f).entries[i]? =
      m.entries[i]?.map fun e => (e.1, if e.1 = k then f (some e.2) else e.2) := by
  have hc : m.contains k = true := by simp [contains, h]
  simp [alter, hc, modify, mapEntries]

theorem keys_alter (k : κ) (f : Option ν → ν) :
    (m.alter k f).keys = if m.contains k then m.keys else m.keys ++ [k] := by
  unfold alter keys
  split
  · simp [modify, mapEntries, Function.comp_def]
  · simp

end LinkedMap

end TeaclaveCrates.Lib
