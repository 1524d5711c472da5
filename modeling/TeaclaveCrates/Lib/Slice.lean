import Mathlib.Data.List.Basic

namespace TeaclaveCrates.Lib

/-!
# Slices of a buffer

Reading and overwriting part of a fixed-size buffer.

* `slice` / `overwrite` — the part from `a` to `b`, and a copy into the buffer;
* `slice?` / `overwrite?` — the same with the bounds check of an indexed access;
* `slice_overwrite_*` — a copy changes what it covers and nothing else;
* `chunks` — a list cut into pieces of one length.
-/

variable {α : Type*}

/-- The elements from index `a` up to, and without, index `b`. -/
def slice (l : List α) (a b : Nat) : List α := (l.drop a).take (b - a)

/-- `src` copied over `l` from index `a` on. -/
def overwrite (l : List α) (a : Nat) (src : List α) : List α :=
  l.take a ++ src ++ l.drop (a + src.length)

/-- `slice`, where the bounds are in order and within `l`. -/
def slice? (l : List α) (a b : Nat) : Option (List α) :=
  if a ≤ b ∧ b ≤ l.length then some (slice l a b) else none

/-- `overwrite`, where the target is within `l`. -/
def overwrite? (l : List α) (a : Nat) (src : List α) : Option (List α) :=
  if a + src.length ≤ l.length then some (overwrite l a src) else none

variable {b a : Nat} {l : List α}

theorem slice?_eq (hab : a ≤ b) (hb : b ≤ l.length) :
    slice? l a b = some (slice l a b) :=
  if_pos ⟨hab, hb⟩

variable {src : List α}

theorem overwrite?_eq (h : a + src.length ≤ l.length) :
    overwrite? l a src = some (overwrite l a src) :=
  if_pos h

theorem getElem?_slice (l : List α) (a b i : Nat) :
    (slice l a b)[i]? = if i < b - a then l[a + i]? else none := by
  rw [slice, List.getElem?_take, List.getElem?_drop]

theorem length_slice (hb : b ≤ l.length) :
    (slice l a b).length = b - a := by
  rw [slice, List.length_take, List.length_drop]
  omega

theorem length_overwrite (h : a + src.length ≤ l.length) :
    (overwrite l a src).length = l.length := by
  simp only [overwrite, List.length_append, List.length_take, List.length_drop]
  omega

theorem getElem?_overwrite (h : a + src.length ≤ l.length) (i : Nat) :
    (overwrite l a src)[i]? =
      if i < a then l[i]? else if i < a + src.length then src[i - a]? else l[i]? := by
  have ha : (l.take a).length = a := by rw [List.length_take]; omega
  have has : (l.take a ++ src).length = a + src.length := by rw [List.length_append, ha]
  unfold overwrite
  by_cases hi : i < a
  · rw [if_pos hi, List.getElem?_append_left (by omega), List.getElem?_append_left (by omega),
      List.getElem?_take, if_pos hi]
  · rw [if_neg hi]
    by_cases hi' : i < a + src.length
    · rw [if_pos hi', List.getElem?_append_left (by omega), List.getElem?_append_right (by omega),
        ha]
    · rw [if_neg hi', List.getElem?_append_right (by omega), has, List.getElem?_drop]
      congr 1
      omega

variable {c : Nat}

/-- A copy does not change what lies before it. -/
theorem slice_overwrite_before (h : c + src.length ≤ l.length) (hb : b ≤ c) :
    slice (overwrite l c src) a b = slice l a b := by
  apply List.ext_getElem?
  intro i
  rw [getElem?_slice, getElem?_slice]
  split
  · rw [getElem?_overwrite h, if_pos (by omega)]
  · rfl

/-- A copy does not change what lies behind it. -/
theorem slice_overwrite_after (h : c + src.length ≤ l.length) (ha : c + src.length ≤ a) :
    slice (overwrite l c src) a b = slice l a b := by
  apply List.ext_getElem?
  intro i
  rw [getElem?_slice, getElem?_slice]
  split
  · rw [getElem?_overwrite h, if_neg (by omega), if_neg (by omega)]
  · rfl

/-- Where the copy went, it is found. -/
theorem slice_overwrite_self (h : c + src.length ≤ l.length) :
    slice (overwrite l c src) c (c + src.length) = src := by
  apply List.ext_getElem?
  intro i
  rw [getElem?_slice, Nat.add_sub_cancel_left]
  split
  · rw [getElem?_overwrite h, if_neg (by omega), if_pos (by omega), Nat.add_sub_cancel_left]
  · rw [List.getElem?_eq_none (by omega)]

theorem slice_append (hab : a ≤ b) (hbc : b ≤ c) (hb : b ≤ l.length) :
    slice l a b ++ slice l b c = slice l a c := by
  apply List.ext_getElem?
  intro i
  by_cases hi : i < b - a
  · rw [List.getElem?_append_left (by rw [length_slice hb]; exact hi), getElem?_slice,
      getElem?_slice, if_pos hi, if_pos (by omega)]
  · rw [List.getElem?_append_right (by rw [length_slice hb]; omega), length_slice hb,
      getElem?_slice, getElem?_slice]
    by_cases hc : i < c - a
    · rw [if_pos hc, if_pos (by omega)]
      congr 1
      omega
    · rw [if_neg hc, if_neg (by omega)]

theorem slice_of_append_left {r : List α} (hb : b ≤ l.length) :
    slice (l ++ r) a b = slice l a b := by
  apply List.ext_getElem?
  intro i
  rw [getElem?_slice, getElem?_slice]
  split
  · rw [List.getElem?_append_left (by omega)]
  · rfl

@[simp] theorem slice_self (l : List α) (a : Nat) : slice l a a = [] := by
  simp [slice]

theorem slice_zero_length (l : List α) : slice l 0 l.length = l := by
  simp [slice]

/-- A slice of a slice. -/
theorem drop_slice (l : List α) (a b k : Nat) : (slice l a b).drop k = slice l (a + k) b := by
  rw [slice, List.drop_take, List.drop_drop]
  congr 1
  omega

variable {k : Nat}

theorem take_slice (h : a + k ≤ b) :
    (slice l a b).take k = slice l a (a + k) := by
  rw [slice, List.take_take]
  congr 1
  omega

/-! ### Chunks -/

/-- `l.chunks(n)` with fuel: pieces of length `n`, the last one of what is left. -/
def chunksFuel (n : Nat) : Nat → List α → List (List α)
  | 0, _ => []
  | fuel + 1, l => if l.isEmpty then [] else l.take n :: chunksFuel n fuel (l.drop n)

/-- `l.chunks(n)`, for `0 < n`. -/
def chunks (n : Nat) (l : List α) : List (List α) := chunksFuel n l.length l

variable {n : Nat}

theorem flatten_chunksFuel (hn : 0 < n) (fuel : Nat) :
    ∀ l : List α, l.length ≤ fuel → (chunksFuel n fuel l).flatten = l := by
  induction fuel with
  | zero =>
    intro l hl
    obtain rfl : l = [] := List.eq_nil_of_length_eq_zero (by omega)
    rfl
  | succ fuel ih =>
    intro l hl
    rw [chunksFuel]
    cases l with
    | nil => rfl
    | cons a l =>
      rw [if_neg (by simp), List.flatten_cons,
        ih _ (by rw [List.length_drop]; omega),
        List.take_append_drop]

/-- The chunks are the list, cut. -/
theorem flatten_chunks (hn : 0 < n) (l : List α) : (chunks n l).flatten = l :=
  flatten_chunksFuel hn _ l (Nat.le_refl _)

/-- More fuel than elements changes nothing. -/
theorem chunksFuel_eq (hn : 0 < n) {fuel : Nat} (h : l.length ≤ fuel) :
    chunksFuel n fuel l = chunks n l := by
  unfold chunks
  induction fuel using Nat.strongRecOn generalizing l with
  | _ fuel ih =>
    cases l with
    | nil =>
      cases fuel with
      | zero => rfl
      | succ fuel => rfl
    | cons a l =>
      rw [List.length_cons] at h ⊢
      obtain ⟨fuel, rfl⟩ : ∃ f, fuel = f + 1 := ⟨fuel - 1, by omega⟩
      rw [chunksFuel, chunksFuel, if_neg (by simp), if_neg (by simp)]
      have hdrop : ((a :: l).drop n).length ≤ l.length := by
        rw [List.length_drop, List.length_cons]
        omega
      rcases Nat.eq_or_lt_of_le (show l.length ≤ fuel by omega) with heq | hlt
      · rw [heq]
      · simp [ih fuel (by omega) (show ((a :: l).drop n).length ≤ fuel by omega),
          ih l.length (by omega) hdrop]

/-- The first chunk, and those of the rest. -/
theorem chunks_cons (hn : 0 < n) (hne : l ≠ []) :
    chunks n l = l.take n :: chunks n (l.drop n) := by
  cases l with
  | nil => exact absurd rfl hne
  | cons a l =>
    have hdrop : ((a :: l).drop n).length ≤ l.length := by
      rw [List.length_drop, List.length_cons]
      omega
    rw [← chunksFuel_eq hn hdrop, chunks, List.length_cons, chunksFuel, if_neg (by simp)]

/-- A list that fits is one chunk. -/
theorem chunks_of_length_le (hne : l ≠ []) (h : l.length ≤ n) :
    chunks n l = [l] := by
  cases l with
  | nil => exact absurd rfl hne
  | cons a l =>
    rw [chunks, List.length_cons, chunksFuel, if_neg (by simp), List.take_of_length_le h,
      List.drop_eq_nil_of_le h]
    cases l with
    | nil => rfl
    | cons b l => rfl

/-- Cutting goes on behind a part of whole chunks. -/
theorem chunks_append (hn : 0 < n) {a : List α} (ha : a.length = k * n) (b : List α) :
    chunks n (a ++ b) = chunks n a ++ chunks n b := by
  induction k generalizing a with
  | zero =>
    rw [Nat.zero_mul] at ha
    obtain rfl : a = [] := List.eq_nil_of_length_eq_zero ha
    rfl
  | succ k ih =>
    rw [Nat.succ_mul] at ha
    have hne : a ≠ [] := List.ne_nil_of_length_pos (by omega)
    have hne' : a ++ b ≠ [] := List.append_ne_nil_of_left_ne_nil hne b
    have hdrop : (a.drop n).length = k * n := by
      rw [List.length_drop]
      omega
    rw [chunks_cons hn hne', chunks_cons hn hne, List.take_append_of_le_length (by omega),
      List.drop_append_of_le_length (by omega), ih hdrop]
    rfl

/-- Lists of one length are the chunks of what they make together. -/
theorem chunks_flatten (hn : 0 < n) {ls : List (List α)} (h : ∀ l ∈ ls, l.length = n) :
    chunks n ls.flatten = ls := by
  induction ls with
  | nil => rfl
  | cons l ls ih =>
    have hl := h l (List.mem_cons_self ..)
    have hone : chunks n l = [l] :=
      chunks_of_length_le (List.ne_nil_of_length_pos (by omega)) (by omega)
    have ha : l.length = 1 * n := by omega
    simp [chunks_append hn ha, hone, ih fun l' hl' => h l' (List.mem_cons_of_mem l hl')]

/-- Lists of at most one length, which their elements make up just when all of them have it. -/
theorem length_flatten_le {ls : List (List α)} (h : ∀ l ∈ ls, l.length ≤ n) :
    ls.flatten.length ≤ ls.length * n ∧
      (ls.flatten.length = ls.length * n ↔ ∀ l ∈ ls, l.length = n) := by
  induction ls with
  | nil => simp
  | cons l ls ih =>
    have hl := h l List.mem_cons_self
    obtain ⟨hle, hiff⟩ := ih fun x hx => h x (List.mem_cons_of_mem l hx)
    rw [List.flatten_cons, List.length_append, List.length_cons, Nat.succ_mul, List.forall_mem_cons,
      ← hiff]
    omega

/-- A list of whole lines: the first one, and the others. -/
theorem chunks_line (hn : 0 < n) (h : l.length = (k + 1) * n) :
    (l.take n).length = n ∧ (l.drop n).length = k * n ∧
      chunks n l = l.take n :: chunks n (l.drop n) := by
  rw [Nat.succ_mul] at h
  refine ⟨?_, ?_, chunks_cons hn (List.ne_nil_of_length_pos (by omega))⟩
  · rw [List.length_take]
    omega
  · rw [List.length_drop]
    omega

theorem chunks_map {β : Type*} (f : α → β) (n : Nat) (l : List α) :
    chunks n (l.map f) = (chunks n l).map (List.map f) := by
  have hfuel : ∀ (fuel : Nat) (l : List α),
      chunksFuel n fuel (l.map f) = (chunksFuel n fuel l).map (List.map f) := by
    intro fuel
    induction fuel with
    | zero => exact fun _ => rfl
    | succ fuel ih =>
      intro l
      rw [chunksFuel, chunksFuel, List.isEmpty_map, ← List.map_take, ← List.map_drop, ih]
      split <;> rfl
  simp [chunks, hfuel]

theorem length_le_of_mem_chunks {c : List α} (h : c ∈ chunks n l) : c.length ≤ n := by
  have hfuel : ∀ (fuel : Nat) (l : List α), c ∈ chunksFuel n fuel l → c.length ≤ n := by
    intro fuel
    induction fuel with
    | zero => intro l h; cases h
    | succ fuel ih =>
      intro l h
      rw [chunksFuel] at h
      split at h
      · cases h
      · rcases List.mem_cons.mp h with rfl | h
        · rw [List.length_take]
          exact Nat.min_le_left _ _
        · exact ih _ h
  exact hfuel _ _ h

theorem ne_nil_of_mem_chunks {c : List α} (hn : 0 < n) (h : c ∈ chunks n l) : c ≠ [] := by
  have hfuel : ∀ (fuel : Nat) (l : List α), c ∈ chunksFuel n fuel l → c ≠ [] := by
    intro fuel
    induction fuel with
    | zero => intro l h; cases h
    | succ fuel ih =>
      intro l h
      rw [chunksFuel] at h
      split at h
      · cases h
      · rename_i hne
        rcases List.mem_cons.mp h with rfl | h
        · cases l with
          | nil => exact absurd rfl hne
          | cons a l =>
            obtain ⟨n, rfl⟩ : ∃ k, n = k + 1 := ⟨n - 1, by omega⟩
            simp
        · exact ih _ h
  exact hfuel _ _ h

/-- The number of chunks, the last one counted when it is not full. -/
theorem length_chunks (hn : 0 < n) (l : List α) :
    (chunks n l).length = (l.length + n - 1) / n := by
  induction hlen : l.length using Nat.strongRecOn generalizing l with
  | _ len ih =>
    by_cases hne : l = []
    · subst hne
      obtain rfl : 0 = len := hlen
      rw [Nat.zero_add, Nat.div_eq_of_lt (by omega)]
      rfl
    · have hpos : 0 < l.length := List.length_pos_of_ne_nil hne
      rw [chunks_cons hn hne, List.length_cons,
        ih (l.drop n).length (by rw [List.length_drop]; omega) (l.drop n) rfl, List.length_drop]
      by_cases hle : l.length ≤ n
      · have hone : len + n - 1 = n + (len - 1) := by omega
        rw [Nat.sub_eq_zero_of_le hle, Nat.zero_add, Nat.div_eq_of_lt (by omega), hone,
          Nat.add_div_left _ hn, Nat.div_eq_of_lt (by omega)]
      · have hstep : len + n - 1 = l.length - n + n - 1 + n := by omega
        rw [hstep, Nat.add_div_right _ hn]

/-- The element at an index is in the chunk that division gives. -/
theorem getElem?_chunks (hn : 0 < n) {i : Nat} {v : α} (h : l[i]? = some v) :
    ∃ piece, (chunks n l)[i / n]? = some piece ∧ piece[i % n]? = some v := by
  induction hlen : l.length using Nat.strongRecOn generalizing l i with
  | _ len ih =>
    have hne : l ≠ [] := by
      rintro rfl
      cases h
    have hpos : 0 < l.length := List.length_pos_of_ne_nil hne
    rw [chunks_cons hn hne]
    by_cases hi : i < n
    · refine ⟨l.take n, ?_, ?_⟩
      · simp [Nat.div_eq_of_lt hi]
      · rw [Nat.mod_eq_of_lt hi, List.getElem?_take, if_pos hi]
        exact h
    · obtain ⟨j, rfl⟩ : ∃ j, i = j + n := ⟨i - n, by omega⟩
      have hdrop : (l.drop n)[j]? = some v := by
        rw [List.getElem?_drop, Nat.add_comm]
        exact h
      obtain ⟨piece, hpiece, hv⟩ := ih (l.drop n).length (by rw [List.length_drop]; omega) hdrop rfl
      refine ⟨piece, ?_, ?_⟩
      · rw [Nat.add_div_right _ hn, List.getElem?_cons_succ]
        exact hpiece
      · rw [Nat.add_mod_right]
        exact hv

/-- All chunks but the last are full. -/
theorem length_of_lt_chunks (hn : 0 < n) {c : List α} (hk : k + 1 < (chunks n l).length)
    (hc : (chunks n l)[k]? = some c) : c.length = n := by
  induction hlen : l.length using Nat.strongRecOn generalizing l k with
  | _ len ih =>
    have hne : l ≠ [] := by
      rintro rfl
      cases hc
    have hpos : 0 < l.length := List.length_pos_of_ne_nil hne
    rw [chunks_cons hn hne] at hk hc
    cases k with
    | zero =>
      obtain rfl : l.take n = c := Option.some.inj hc
      have hmore : chunks n (l.drop n) ≠ [] := by
        intro h0
        rw [h0] at hk
        simp at hk
      have hdrop : l.drop n ≠ [] := by
        intro h0
        rw [h0] at hmore
        exact hmore rfl
      have hlt : 0 < (l.drop n).length := List.length_pos_of_ne_nil hdrop
      rw [List.length_drop] at hlt
      rw [List.length_take]
      omega
    | succ k =>
      rw [List.length_cons] at hk
      exact ih (l.drop n).length (by rw [List.length_drop]; omega) (by omega) hc rfl

/-- A fallible function over all indices below `n`: the results are those at each index. -/
theorem mapM_range_eq_some_iff (f : Nat → Option α) (n : Nat) (l : List α) :
    (List.range n).mapM f = some l ↔ l.length = n ∧ ∀ i v, l[i]? = some v → f i = some v := by
  induction n generalizing l with
  | zero =>
    rw [List.range_zero, List.mapM_nil, List.length_eq_zero_iff]
    constructor
    · intro h
      obtain rfl := Option.some.inj h
      exact ⟨rfl, fun i v hv => nomatch hv⟩
    · rintro ⟨rfl, -⟩
      rfl
  | succ n ih =>
    rw [List.range_succ, List.mapM_append, List.mapM_cons, List.mapM_nil]
    constructor
    · intro h
      cases hread : (List.range n).mapM f with
      | none =>
        rw [hread] at h
        cases h
      | some xs =>
        obtain ⟨hlength, hall⟩ := (ih xs).mp hread
        rw [hread] at h
        cases hlast : f n with
        | none =>
          rw [hlast] at h
          cases h
        | some v =>
          rw [hlast] at h
          obtain rfl : xs ++ [v] = l := Option.some.inj h
          refine ⟨by rw [List.length_append, hlength]; rfl, fun i w hw => ?_⟩
          -- an index of the front, or the one just read
          by_cases hi : i < xs.length
          · exact hall i w (by rwa [List.getElem?_append_left hi] at hw)
          · obtain ⟨hlt, heq⟩ := List.getElem?_eq_some_iff.mp hw
            rw [List.length_append, List.length_singleton] at hlt
            obtain rfl : i = n := by omega
            rw [List.getElem_append_right (by omega)] at heq
            rw [hlast, ← heq]
            simp
    · rintro ⟨hlength, hall⟩
      rcases List.eq_nil_or_concat l with rfl | ⟨xs, v, rfl⟩
      · cases hlength
      · rw [List.concat_eq_append, List.length_append, List.length_singleton] at hlength
        rw [List.concat_eq_append] at hall ⊢
        have hxs : xs.length = n := by omega
        have hlast : f n = some v := hall n v (by rw [← hxs, List.getElem?_concat_length])
        have hfront : (List.range n).mapM f = some xs := by
          refine (ih xs).mpr ⟨hxs, fun i w hw => hall i w ?_⟩
          obtain ⟨hi, -⟩ := List.getElem?_eq_some_iff.mp hw
          rwa [List.getElem?_append_left hi]
        simp [hfront, hlast]

end TeaclaveCrates.Lib
