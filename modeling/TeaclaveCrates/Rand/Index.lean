import TeaclaveCrates.Lib.Draws
import Mathlib.Data.List.Permutation

namespace TeaclaveCrates.Rand

open TeaclaveCrates.Lib

/-!
# rand — sampling indices

`seq/index.rs`: some of the indices below a length are selected, in random order.

* `sampleFloyd`, `sampleInplace`, `sampleRejection` — the three methods;
* `IsSelection` — an ordered list of different indices;
* `exists_floydInsert` — one turn of Floyd's method, from its result;
* `count_floydLoop`, `count_shuffleLoop`, `count_inplaceLoop` — how often a result is produced;
* `sampling_uniform` — every selection is produced equally often.
-/

/-! ### The methods -/

/-- Two elements of a vector change places. -/
def swap (l : List Nat) (i j : Nat) : List Nat :=
  match l[i]?, l[j]? with
  | some x, some y => (l.set i y).set j x
  | _, _ => l

/-- The body of the loop: `t` was drawn for `j`. -/
def floydInsert (floydShuffle : Bool) (indices : List Nat) (j t : Nat) : List Nat :=
  if floydShuffle then
    match indices.findIdx? (· == t) with
    | some pos => indices.insertIdx pos j
    | none => indices ++ [t]
  else if indices.contains t then indices ++ [j]
  else indices ++ [t]

/-- The indices after some turns of the loop, which starts at `base`. -/
def floydLoop (floydShuffle : Bool) (base : Nat) : Nat → Draws (List Nat)
  | 0 => pure []
  | n + 1 => do
    let indices ← floydLoop floydShuffle base n
    let t ← Draws.range 0 (base + n + 1)
    return floydInsert floydShuffle indices (base + n) t

/-- The shuffle afterwards, from an index down to the second one. -/
def shuffleLoop : Nat → List Nat → Draws (List Nat)
  | 0, indices => pure indices
  | i + 1, indices => do
    let r ← Draws.range 0 (i + 2)
    shuffleLoop i (swap indices (i + 1) r)

def sampleFloyd (length amount : Nat) : Draws (List Nat) :=
  let floydShuffle := decide (amount < 50)
  do
    let indices ← floydLoop floydShuffle (length - amount) amount
    if floydShuffle then return indices else shuffleLoop (amount - 1) indices

/-- The turns of the loop that are left, from an index on. -/
def inplaceLoop (length : Nat) : Nat → Nat → List Nat → Draws (List Nat)
  | 0, _, indices => pure indices
  | n + 1, i, indices => do
    let j ← Draws.range i length
    inplaceLoop length n (i + 1) (swap indices i j)

def sampleInplace (length amount : Nat) : Draws (List Nat) := do
  let indices ← inplaceLoop length amount 0 (List.range length)
  return indices.take amount

/-- The turns that are left. The draws are those of the distribution, and `none` is a loop that has
    not ended with them. The cache has the same elements as the vector. -/
def rejectionLoop {length : Nat} : Nat → List Nat → List (Fin length) → Option (List Nat)
  | 0, indices, _ => some indices
  | _ + 1, _, [] => none
  | n + 1, indices, pos :: draws =>
    if indices.contains pos.val then rejectionLoop (n + 1) indices draws
    else rejectionLoop n (indices ++ [pos.val]) draws

/-- `Uniform::new(0, length)` panics without a length. -/
def sampleRejection (length amount : Nat) (draws : List (Fin length)) : Option (List Nat) :=
  if length = 0 then none else rejectionLoop amount [] draws

/-! ### Selections -/

/-- So many different indices below the length, in some order. -/
structure IsSelection (length amount : Nat) (indices : List Nat) : Prop where
  length_eq : indices.length = amount
  nodup : indices.Nodup
  lt : ∀ i ∈ indices, i < length

instance (length amount : Nat) : DecidablePred (IsSelection length amount) := fun indices =>
  decidable_of_iff (indices.length = amount ∧ indices.Nodup ∧ ∀ i ∈ indices, i < length)
    ⟨fun h => ⟨h.1, h.2.1, h.2.2⟩, fun h => ⟨h.1, h.2, h.3⟩⟩

theorem IsSelection.perm {length amount : Nat} {l l' : List Nat} (h : IsSelection length amount l)
    (hp : l.Perm l') : IsSelection length amount l' :=
  ⟨hp.length_eq ▸ h.length_eq, hp.nodup_iff.mp h.nodup, fun i hi => h.lt i (hp.mem_iff.mpr hi)⟩

/-- One index more, at the end. -/
theorem IsSelection.snoc {length length' amount x : Nat} {l : List Nat}
    (h : IsSelection length amount l) (hx : x ∉ l) (hle : length ≤ length') (hlt : x < length') :
    IsSelection length' (amount + 1) (l ++ [x]) := by
  refine ⟨by simp [h.length_eq], ?_, ?_⟩
  · refine List.nodup_append.mpr ⟨h.nodup, List.nodup_singleton x, ?_⟩
    rintro y hy z hz rfl
    exact hx (List.mem_singleton.mp hz ▸ hy)
  · exact List.forall_mem_append.mpr ⟨fun y hy => (h.lt y hy).trans_le hle, by simpa using hlt⟩

/-! ### Floyd's method -/

variable {t : Nat}

theorem findIdx?_of_notMem {l : List Nat} (h : t ∉ l) :
    l.findIdx? (· == t) = none :=
  List.findIdx?_eq_none_iff.mpr fun _ hx => beq_eq_false_iff_ne.mpr (ne_of_mem_of_not_mem hx h)

theorem insertIdx_length_append (p q : List Nat) (j : Nat) :
    (p ++ q).insertIdx p.length j = p ++ j :: q := by
  induction p with
  | nil => rfl
  | cons x p ih => simp [ih]

theorem floydInsert_of_notMem {l : List Nat} (b : Bool) (j : Nat) (h : t ∉ l) :
    floydInsert b l j t = l ++ [t] := by
  simp [floydInsert, findIdx?_of_notMem h, h]

/-- The new index is put in front of the one that was drawn. -/
theorem floydInsert_of_mem {p q : List Nat} (j : Nat) (h : t ∉ p) :
    floydInsert true (p ++ t :: q) j t = p ++ j :: t :: q := by
  have hpos : (p ++ t :: q).findIdx? (· == t) = some p.length := by
    simp [findIdx?_of_notMem h, List.findIdx?_cons]
  simp only [floydInsert, if_true, hpos, insertIdx_length_append]

/-- The two ways in which a turn ends. -/
theorem floydInsert_cases (l : List Nat) (j t : Nat) :
    (t ∉ l ∧ floydInsert true l j t = l ++ [t]) ∨
      ∃ p q, l = p ++ t :: q ∧ floydInsert true l j t = p ++ j :: t :: q := by
  by_cases h : t ∈ l
  · obtain ⟨p, q, rfl, ht⟩ := List.eq_append_cons_of_mem h
    exact Or.inr ⟨p, q, rfl, floydInsert_of_mem j ht⟩
  · exact Or.inl ⟨h, floydInsert_of_notMem true j h⟩

theorem floydInsert_perm {l l' : List Nat} (hp : l.Perm l') (j t : Nat) :
    (floydInsert false l j t).Perm (floydInsert true l' j t) := by
  rcases floydInsert_cases l' j t with ⟨h, heq⟩ | ⟨p, q, rfl, heq⟩
  · rw [floydInsert_of_notMem false j (hp.mem_iff.not.mpr h), heq]
    exact hp.append_right [t]
  · have hmem : t ∈ l := hp.mem_iff.mpr (by simp)
    have hfalse : floydInsert false l j t = l ++ [j] := by simp [floydInsert, hmem]
    rw [heq, hfalse]
    exact ((List.perm_append_singleton j l).trans (hp.cons j)).trans List.perm_middle.symm

theorem IsSelection.floydInsert {j n : Nat} {l : List Nat} (h : IsSelection j n l) (ht : t ≤ j)
    (b : Bool) : IsSelection (j + 1) (n + 1) (floydInsert b l j t) := by
  have hj : j ∉ l := fun hmem => (h.lt j hmem).false
  by_cases hmem : t ∈ l
  · have hfalse : Rand.floydInsert false l j t = l ++ [j] := by
      simp [Rand.floydInsert, hmem]
    have hsel : IsSelection (j + 1) (n + 1) (Rand.floydInsert false l j t) :=
      hfalse ▸ h.snoc hj j.le_succ j.lt_succ_self
    cases b with
    | false => exact hsel
    | true => exact hsel.perm (floydInsert_perm (.refl l) j t)
  · rw [floydInsert_of_notMem b j hmem]
    exact h.snoc hmem j.le_succ (Nat.lt_succ_of_le ht)

/-- A turn can be undone: a selection of one index more is the result of exactly one selection and
    one draw. Where the new index is not last, the one behind it was drawn. -/
theorem exists_floydInsert {j n : Nat} {x : List Nat} (hx : IsSelection (j + 1) (n + 1) x) :
    ∃ l₀ t₀, IsSelection j n l₀ ∧ t₀ ≤ j ∧
      ∀ l t, IsSelection j n l → t ≤ j → (floydInsert true l j t = x ↔ l = l₀ ∧ t = t₀) := by
  have hsmall : ∀ y ∈ x, y ≠ j → y < j := fun y hy hne =>
    lt_of_le_of_ne (Nat.le_of_lt_succ (hx.lt y hy)) hne
  have hj : ∀ l, IsSelection j n l → j ∉ l := fun l hl hmem => (hl.lt j hmem).false
  by_cases hmem : j ∈ x
  · obtain ⟨a, b, rfl⟩ := List.append_of_mem hmem
    obtain ⟨hab, hnot⟩ := List.nodup_middle.mp hx.nodup |> List.nodup_cons.mp |>.symm
    have hja : j ∉ a := fun h => hnot (List.mem_append_left b h)
    have hjb : j ∉ b := fun h => hnot (List.mem_append_right a h)
    have hlt : ∀ y ∈ a ++ b, y < j := by
      intro y hy
      refine hsmall y ?_ fun heq => hnot (heq ▸ hy)
      exact List.perm_middle.mem_iff.mpr (List.mem_cons_of_mem j hy)
    have hlen : (a ++ b).length = n := by
      have := hx.length_eq
      simp only [List.length_append, List.length_cons] at this ⊢
      omega
    cases b with
    | nil =>
      rw [List.append_nil] at hab hlt hlen
      refine ⟨a, j, ⟨hlen, hab, hlt⟩, le_rfl, fun l t hl ht => ⟨fun heq => ?_, ?_⟩⟩
      · rcases floydInsert_cases l j t with ⟨-, heq'⟩ | ⟨p, q, rfl, heq'⟩
        · obtain ⟨rfl, ht⟩ := List.append_inj' (heq'.symm.trans heq) rfl
          exact ⟨rfl, by simpa using ht⟩
        · have := (List.append_cons_inj_of_notMem hja hjb).mp (heq.symm.trans heq')
          exact absurd this.2.2 (by simp)
      · rintro ⟨rfl, rfl⟩
        exact floydInsert_of_notMem true _ hja
    | cons t₀ b =>
      refine ⟨a ++ t₀ :: b, t₀, ⟨hlen, hab, hlt⟩, (hlt t₀ (by simp)).le,
        fun l t hl ht => ⟨fun heq => ?_, ?_⟩⟩
      · rcases floydInsert_cases l j t with ⟨-, heq'⟩ | ⟨p, q, rfl, heq'⟩
        · -- the new index would be the one that was drawn, at the end
          have heq'' := heq'.symm.trans heq
          have hjt : j ∈ l ++ [t] := heq'' ▸ by simp
          obtain rfl : j = t := by simpa [hj l hl] using hjt
          have := (List.append_cons_inj_of_notMem hja hjb).mp heq''.symm
          exact absurd this.2.2 (by simp)
        · obtain ⟨rfl, -, htail⟩ :=
            (List.append_cons_inj_of_notMem hja hjb).mp (heq.symm.trans heq')
          obtain ⟨rfl, rfl⟩ := List.cons.inj htail
          exact ⟨rfl, rfl⟩
      · rintro ⟨rfl, rfl⟩
        refine floydInsert_of_mem j fun h => ?_
        exact (List.nodup_append.mp hab).2.2 t h t (List.mem_cons_self ..) rfl
  · rcases List.eq_nil_or_concat x with rfl | ⟨l₀, t₀, rfl⟩
    · exact absurd hx.length_eq (by simp)
    rw [List.concat_eq_append] at hx hsmall hmem ⊢
    have hlen : l₀.length = n := by simpa using hx.length_eq
    have hlt : ∀ y ∈ l₀ ++ [t₀], y < j := fun y hy => hsmall y hy fun heq => hmem (heq ▸ hy)
    obtain ⟨hl₀, -, hdisj⟩ := List.nodup_append.mp hx.nodup
    have ht₀ : t₀ ∉ l₀ := fun h => hdisj t₀ h t₀ (List.mem_singleton_self t₀) rfl
    refine ⟨l₀, t₀, ⟨hlen, hl₀, fun y hy => hlt y (List.mem_append_left _ hy)⟩,
      (hlt t₀ (by simp)).le, fun l t hl ht => ⟨fun heq => ?_, ?_⟩⟩
    · rcases floydInsert_cases l j t with ⟨-, heq'⟩ | ⟨p, q, rfl, heq'⟩
      · obtain ⟨rfl, ht⟩ := List.append_inj' (heq'.symm.trans heq) rfl
        exact ⟨rfl, by simpa using ht⟩
      · rw [← heq, heq'] at hmem
        simp at hmem
    · rintro ⟨rfl, rfl⟩
      exact floydInsert_of_notMem true j ht₀

theorem all_floydLoop (b : Bool) (base n : Nat) :
    (floydLoop b base n).All (IsSelection (base + n) n) := by
  induction n with
  | zero => exact ⟨rfl, List.nodup_nil, by simp⟩
  | succ n ih => exact ih.bind fun l hl t _ ht => hl.floydInsert (Nat.le_of_lt_succ ht) b

/-- Every selection is the result of one outcome of the draws. -/
theorem count_floydLoop {base n : Nat} {x : List Nat} (hx : IsSelection (base + n) n x) :
    (floydLoop true base n).count (· = x) = 1 := by
  induction n generalizing x with
  | zero => rw [List.length_eq_zero_iff.mp hx.length_eq]; rfl
  | succ n ih =>
    obtain ⟨l₀, t₀, hl₀, ht₀, hiff⟩ := exists_floydInsert (j := base + n) hx
    refine (Draws.count_bind (q := (· = l₀)) (all_floydLoop true base n) fun l hl => ?_).trans
      (ih hl₀)
    have hsum : ∀ t ∈ Finset.Ico 0 (base + n + 1),
        (if floydInsert true l (base + n) t = x then 1 else 0) =
          if t = t₀ then if l = l₀ then 1 else 0 else 0 := by
      intro t ht
      split_ifs <;> simp_all
    calc _ = ∑ t ∈ Finset.Ico 0 (base + n + 1),
          (if floydInsert true l (base + n) t = x then 1 else 0) := rfl
      _ = _ := by
        rw [Finset.sum_congr rfl hsum, Finset.sum_ite_eq', if_pos]
        exact Finset.mem_Ico.mpr ⟨Nat.zero_le _, Nat.lt_succ_of_le ht₀⟩

/-- The other way to insert finds the same indices, in another order. -/
theorem related_floydLoop (base n : Nat) :
    Draws.Related List.Perm (floydLoop false base n) (floydLoop true base n) := by
  induction n with
  | zero => exact .pure (.refl [])
  | succ n ih => exact ih.bind fun l l' hp => .draw fun t => .pure (floydInsert_perm hp _ t)

/-! ### Exchanges -/

section Swap

variable {l : List Nat} {i j k : Nat}

theorem swap_eq (hi : i < l.length) (hj : j < l.length) :
    swap l i j = (l.set i l[j]).set j l[i] := by
  simp [swap, hi, hj]

theorem getElem?_swap_left (hi : i < l.length) (hj : j < l.length) :
    (swap l i j)[i]? = l[j]? := by
  rw [swap_eq hi hj]
  by_cases h : i = j
  · subst h
    simp [hi]
  · rw [List.getElem?_set_ne (Ne.symm h)]
    simp [hi, hj]

theorem getElem?_swap_of_ne (hi : i < l.length) (hj : j < l.length) (hki : k ≠ i) (hkj : k ≠ j) :
    (swap l i j)[k]? = l[k]? := by
  rw [swap_eq hi hj, List.getElem?_set_ne (Ne.symm hkj), List.getElem?_set_ne (Ne.symm hki)]

theorem swap_perm (hi : i < l.length) (hj : j < l.length) : (swap l i j).Perm l := by
  rw [swap_eq hi hj]
  exact List.set_set_perm hi hj

end Swap

variable {x : List Nat} {n : Nat}

theorem drop_eq_iff {l : List Nat} :
    l.drop n = x.drop n ↔ ∀ k, n ≤ k → l[k]? = x[k]? := by
  constructor
  · intro h k hk
    have := congrArg (·[k - n]?) h
    simpa [Nat.add_sub_cancel' hk] using this
  · intro h
    refine List.ext_getElem? fun k => ?_
    rw [List.getElem?_drop, List.getElem?_drop]
    exact h _ (Nat.le_add_right n k)

theorem take_eq_iff {l : List Nat} :
    l.take n = x.take n ↔ ∀ k < n, l[k]? = x[k]? := by
  constructor
  · intro h k hk
    rw [← List.getElem?_take_of_lt hk, h, List.getElem?_take_of_lt hk]
  · intro h
    refine List.ext_getElem? fun k => ?_
    by_cases hk : k < n
    · rw [List.getElem?_take_of_lt hk, List.getElem?_take_of_lt hk, h k hk]
    · rw [List.getElem?_eq_none (by simp; omega), List.getElem?_eq_none (by simp; omega)]

/-! ### Shuffling afterwards -/

theorem all_shuffleLoop {i : Nat} {l : List Nat} (hi : i < l.length) :
    (shuffleLoop i l).All (List.Perm l) := by
  induction i generalizing l with
  | zero => exact .refl l
  | succ i ih =>
    intro r _ hr
    have hp : (swap l (i + 1) r).Perm l := swap_perm hi (by omega)
    exact (ih (by rw [hp.length_eq]; omega)).mono fun a ha => hp.symm.trans ha

/-- The elements behind the index are where they belong already: then every order of the others is
    the result of one outcome. -/
theorem count_shuffleLoop {i : Nat} {l : List Nat} (hx : x.Nodup) (hp : l.Perm x)
    (hi : i < x.length) :
    (shuffleLoop i l).count (· = x) = if l.drop (i + 1) = x.drop (i + 1) then 1 else 0 := by
  induction i generalizing l with
  | zero =>
    refine if_congr ⟨fun h => h ▸ rfl, fun h => ?_⟩ rfl rfl
    cases l with
    | nil => exact hp.nil_eq
    | cons a l =>
      cases x with
      | nil => exact absurd hi (by simp)
      | cons b x =>
        obtain rfl : l = x := h
        have hab : [a].Perm [b] := (List.perm_append_right_iff l).mp hp
        rw [List.singleton_perm_singleton.mp hab]
  | succ i ih =>
    have hil : i + 1 < l.length := hp.length_eq ▸ hi
    have hl : l.Nodup := hp.nodup_iff.mpr hx
    obtain ⟨y, hy⟩ : ∃ y, x[i + 1]? = some y := ⟨_, List.getElem?_eq_getElem hi⟩
    have hstep : ∀ r ∈ Finset.Ico 0 (i + 2),
        (shuffleLoop i (swap l (i + 1) r)).count (· = x) =
          if l.drop (i + 2) = x.drop (i + 2) then if l[r]? = some y then 1 else 0 else 0 := by
      intro r hr
      have hr' := (Finset.mem_Ico.mp hr).2
      have hrl : r < l.length := by omega
      rw [ih ((swap_perm hil hrl).trans hp) (by omega), ← ite_and]
      refine if_congr ?_ rfl rfl
      rw [drop_eq_iff, drop_eq_iff, ← hy, ← getElem?_swap_left hil hrl]
      have hother : ∀ k, i + 2 ≤ k → (swap l (i + 1) r)[k]? = l[k]? := fun k hk =>
        getElem?_swap_of_ne hil hrl (by omega) (by omega)
      constructor
      · intro h
        exact ⟨fun k hk => hother k hk ▸ h k (by omega), h (i + 1) le_rfl⟩
      · rintro ⟨h, hleft⟩ k hk
        obtain rfl | hk' : k = i + 1 ∨ i + 2 ≤ k := by omega
        · exact hleft
        · rw [hother k hk', h k hk']
    calc _ = ∑ r ∈ Finset.Ico 0 (i + 2), (shuffleLoop i (swap l (i + 1) r)).count (· = x) := rfl
      _ = _ := by
        rw [Finset.sum_congr rfl hstep]
        split_ifs with hd
        · obtain ⟨j, hj⟩ := List.getElem?_of_mem (hp.mem_iff.mpr (List.mem_of_getElem? hy))
          refine Draws.sum_index hl hj (Nat.zero_le j) ?_
          -- behind the index it would be there twice
          by_contra hlt
          have h := (drop_eq_iff.mp hd j (by omega)).symm.trans hj
          have := (List.getElem?_inj hi hx).mp (hy.trans h.symm)
          omega
        · exact Finset.sum_const_zero

/-! ### Sampling in place -/

theorem all_inplaceLoop {i : Nat} {l : List Nat} (h : i + n ≤ l.length) :
    (inplaceLoop l.length n i l).All (List.Perm l) := by
  induction n generalizing i l with
  | zero => exact .refl l
  | succ n ih =>
    intro j _ hj
    have hp : (swap l i j).Perm l := swap_perm (by omega) hj
    rw [← hp.length_eq]
    exact (ih (by rw [hp.length_eq]; omega)).mono fun a ha => hp.symm.trans ha

variable {amount : Nat}

/-- The elements in front of the index are as in the selection: then the others are the result of one
    outcome. -/
theorem count_inplaceLoop {i : Nat} {l : List Nat} (hl : l.Nodup) (hx : x.Nodup)
    (hlen : x.length = amount) (hn : i + n = amount) (hle : amount ≤ l.length)
    (hsub : ∀ y ∈ x, y ∈ l) :
    (inplaceLoop l.length n i l).count (fun r => r.take amount = x) =
      if l.take i = x.take i then 1 else 0 := by
  induction n generalizing i l with
  | zero =>
    obtain rfl : i = amount := hn
    rw [List.take_of_length_le (l := x) hlen.le]
    rfl
  | succ n ih =>
    have hi : i < x.length := by omega
    have hil : i < l.length := by omega
    obtain ⟨y, hy⟩ : ∃ y, x[i]? = some y := ⟨_, List.getElem?_eq_getElem hi⟩
    have hstep : ∀ j ∈ Finset.Ico i l.length,
        (inplaceLoop l.length n (i + 1) (swap l i j)).count (fun r => r.take amount = x) =
          if l.take i = x.take i then if l[j]? = some y then 1 else 0 else 0 := by
      intro j hj
      obtain ⟨hij, hjl⟩ := Finset.mem_Ico.mp hj
      have hp : (swap l i j).Perm l := swap_perm hil hjl
      have := ih (i := i + 1) (hp.nodup_iff.mpr hl) (by omega) (by rwa [hp.length_eq])
        fun y hy => hp.mem_iff.mpr (hsub y hy)
      rw [hp.length_eq] at this
      rw [this, ← ite_and]
      refine if_congr ?_ rfl rfl
      rw [take_eq_iff, take_eq_iff, ← hy, ← getElem?_swap_left hil hjl]
      have hother : ∀ k < i, (swap l i j)[k]? = l[k]? := fun k hk =>
        getElem?_swap_of_ne hil hjl (by omega) (by omega)
      constructor
      · intro h
        exact ⟨fun k hk => hother k hk ▸ h k (by omega), h i (Nat.lt_succ_self i)⟩
      · rintro ⟨h, hleft⟩ k hk
        obtain rfl | hk' : k = i ∨ k < i := by omega
        · exact hleft
        · rw [hother k hk', h k hk']
    calc _ = ∑ j ∈ Finset.Ico i l.length,
          (inplaceLoop l.length n (i + 1) (swap l i j)).count (fun r => r.take amount = x) := rfl
      _ = _ := by
        rw [Finset.sum_congr rfl hstep]
        split_ifs with hd
        · obtain ⟨j, hj⟩ := List.getElem?_of_mem (hsub y (List.mem_of_getElem? hy))
          refine Draws.sum_index hl hj ?_ (List.getElem?_eq_some_iff.mp hj).1
          -- in front of the index it would be there twice
          by_contra hlt
          have h := (take_eq_iff.mp hd j (by omega)).symm.trans hj
          have := (List.getElem?_inj hi hx).mp (hy.trans h.symm)
          omega
        · exact Finset.sum_const_zero

/-! ### Rejecting duplicates -/

variable {length : Nat}

theorem isSelection_rejectionLoop {indices result : List Nat} {draws : List (Fin length)}
    (h : IsSelection length indices.length indices)
    (hr : rejectionLoop n indices draws = some result) :
    IsSelection length (indices.length + n) result := by
  fun_induction rejectionLoop n indices draws with
  | case1 indices => exact Option.some.inj hr ▸ h
  | case2 => cases hr
  | case3 n indices pos draws hmem ih => exact ih h hr
  | case4 n indices pos draws hmem ih =>
    have hnew : IsSelection length (indices ++ [pos.val]).length (indices ++ [pos.val]) := by
      rw [List.length_append, List.length_singleton]
      exact h.snoc (by simpa using hmem) le_rfl pos.isLt
    have := ih hnew hr
    rwa [List.length_append, List.length_singleton, Nat.add_assoc, Nat.add_comm 1 n] at this

/-! ### All selections -/

theorem sampleFloyd_uniform (h : amount ≤ length) :
    (sampleFloyd length amount).All (IsSelection length amount) ∧
      ∀ x, IsSelection length amount x →
        (sampleFloyd length amount).count (· = x) = if amount < 50 then 1 else amount.factorial := by
  have hall := fun b => all_floydLoop b (length - amount) amount
  rw [Nat.sub_add_cancel h] at hall
  have hone : ∀ {x}, IsSelection length amount x →
      (floydLoop true (length - amount) amount).count (· = x) = 1 := fun hx =>
    count_floydLoop (by rwa [Nat.sub_add_cancel h])
  unfold sampleFloyd
  by_cases hshuffle : amount < 50
  · simp only [hshuffle, decide_true, if_true]
    refine ⟨(hall true).bind fun l hl => hl, fun x hx => ?_⟩
    rw [← hone hx]
    exact Draws.count_bind (q := (· = x)) (hall true) fun l _ => rfl
  · simp only [hshuffle, decide_false, Bool.false_eq_true, if_false]
    have hlast : amount - 1 < amount := by omega
    refine ⟨(hall false).bind fun l hl => ?_, fun x hx => ?_⟩
    · exact (all_shuffleLoop (by rwa [hl.length_eq])).mono fun a ha => hl.perm ha
    · have hlist : ∀ l, IsSelection length amount l →
          (shuffleLoop (amount - 1) l).count (· = x) = if l.Perm x then 1 else 0 := by
        intro l hl
        split_ifs with hp
        · rw [count_shuffleLoop hx.nodup hp (by rwa [hx.length_eq]), if_pos]
          rw [List.drop_of_length_le (by rw [hl.length_eq]; omega),
            List.drop_of_length_le (by rw [hx.length_eq]; omega)]
        · refine Draws.count_eq_zero ?_
          refine (all_shuffleLoop (by rwa [hl.length_eq])).mono fun a ha heq => hp ?_
          exact heq ▸ ha
      have hperms : ∀ y ∈ x.permutations.toFinset, IsSelection length amount y := fun y hy =>
        hx.perm (List.mem_permutations.mp (List.mem_toFinset.mp hy)).symm
      calc _ = (floydLoop false (length - amount) amount).count (List.Perm · x) :=
            Draws.count_bind (hall false) hlist
        _ = (floydLoop true (length - amount) amount).count (List.Perm · x) :=
            (related_floydLoop (length - amount) amount).count fun l l' hp =>
              ⟨fun h => hp.symm.trans h, fun h => hp.trans h⟩
        _ = (floydLoop true (length - amount) amount).count (· ∈ x.permutations.toFinset) :=
            Draws.count_congr fun l => by rw [List.mem_toFinset, List.mem_permutations]
        _ = ∑ y ∈ x.permutations.toFinset, 1 := by
            rw [Draws.count_eq_sum]
            exact Finset.sum_congr rfl fun y hy => hone (hperms y hy)
        _ = amount.factorial := by
            rw [← Finset.card_eq_sum_ones, List.toFinset_card_of_nodup
              (List.nodup_permutations_iff.mpr hx.nodup), List.length_permutations, hx.length_eq]

theorem sampleInplace_uniform (h : amount ≤ length) :
    (sampleInplace length amount).All (IsSelection length amount) ∧
      ∀ x, IsSelection length amount x → (sampleInplace length amount).count (· = x) = 1 := by
  have hlen : (List.range length).length = length := List.length_range
  have hall : (inplaceLoop length amount 0 (List.range length)).All
      (List.Perm (List.range length)) := by
    have := all_inplaceLoop (n := amount) (i := 0) (l := List.range length) (by rw [hlen]; omega)
    rwa [hlen] at this
  refine ⟨hall.bind fun l hl => ?_, fun x hx => ?_⟩
  · refine ⟨?_, (hl.nodup_iff.mp List.nodup_range).sublist (List.take_sublist _ _), fun i hi => ?_⟩
    · rw [List.length_take, ← hl.length_eq, hlen, Nat.min_eq_left h]
    · exact List.mem_range.mp (hl.mem_iff.mpr (List.mem_of_mem_take hi))
  · have := count_inplaceLoop (n := amount) (i := 0) (l := List.range length) List.nodup_range
      hx.nodup hx.length_eq (Nat.zero_add amount) (by rwa [hlen])
      fun y hy => List.mem_range.mpr (hx.lt y hy)
    rw [hlen, List.take_zero, List.take_zero, if_pos rfl] at this
    exact (Draws.count_bind hall fun l _ => rfl).trans this

/-- **Index sampling is uniform.** For every outcome of the draws the result is a selection, and
    every selection is the result of equally many. -/
theorem sampling_uniform {length amount : Nat} (h : amount ≤ length) :
    ((sampleFloyd length amount).All (IsSelection length amount) ∧
      ∀ x, IsSelection length amount x →
        (sampleFloyd length amount).count (· = x) = if amount < 50 then 1 else amount.factorial) ∧
    ((sampleInplace length amount).All (IsSelection length amount) ∧
      ∀ x, IsSelection length amount x → (sampleInplace length amount).count (· = x) = 1) ∧
    ∀ (draws : List (Fin length)) indices, sampleRejection length amount draws = some indices →
      IsSelection length amount indices := by
  refine ⟨sampleFloyd_uniform h, sampleInplace_uniform h, fun draws indices hr => ?_⟩
  have hnil : IsSelection length ([] : List Nat).length [] := ⟨rfl, List.nodup_nil, by simp⟩
  rw [sampleRejection] at hr
  split_ifs at hr
  have := isSelection_rejectionLoop hnil hr
  rwa [List.length_nil, Nat.zero_add] at this

theorem sampling_uniform_two :
    (sampleFloyd 3 2).count (· = [2, 0]) = 1 ∧ (sampleInplace 3 2).count (· = [2, 0]) = 1 := by
  have h := sampling_uniform (show 2 ≤ 3 by decide)
  exact ⟨h.1.2 [2, 0] (by decide), h.2.1.2 [2, 0] (by decide)⟩

end TeaclaveCrates.Rand
