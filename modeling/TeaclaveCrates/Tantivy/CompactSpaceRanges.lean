import TeaclaveCrates.Tantivy.CompactSpace

namespace TeaclaveCrates.Tantivy.FastFieldCodecs

open TeaclaveCrates.Lib
open BlankRange (blankRange tryFrom)

/-!
# The ranges of a compact space

* `IsBlank` — a stretch without values, between two of them or at an end of the values.
* `chosenBlanks_spec` — whatever the costs, blanks are chosen, each of them once.
* `rangesFrom` — what is left between them; `coveredSpace_eq` — the code computes it.
* `chosen_ranges` — the ranges are in order, start and end with values, and cover all of them.
-/

/-! ### The set of values -/

theorem mem_btreeSet {v : Nat} {vals : List Nat} : v ∈ btreeSet vals ↔ v ∈ vals := by
  rw [btreeSet, List.mem_insertionSort, List.mem_dedup]

theorem btreeSet_sorted (vals : List Nat) : (btreeSet vals).Pairwise (· < ·) := by
  have hsorted : (btreeSet vals).Pairwise (· ≤ ·) := List.pairwise_insertionSort _ _
  have hnodup : (btreeSet vals).Nodup :=
    (List.perm_insertionSort _ _).nodup_iff.mpr (List.nodup_dedup vals)
  refine (hsorted.and hnodup).imp ?_
  intro a b h
  exact Nat.lt_of_le_of_ne h.1 h.2

/-- The smallest value of a sorted list. -/
theorem head_le {S : List Nat} (hS : S.Pairwise (· < ·)) {v : Nat} (hv : v ∈ S) :
    S.head?.getD 0 ∈ S ∧ S.head?.getD 0 ≤ v := by
  cases S with
  | nil => cases hv
  | cons a S =>
    refine ⟨List.mem_cons_self, ?_⟩
    rcases List.mem_cons.mp hv with rfl | hv
    · exact Nat.le_refl _
    · exact ((List.pairwise_cons.mp hS).1 v hv).le

/-- The greatest value of a sorted list. -/
theorem le_getLast {S : List Nat} (hS : S.Pairwise (· < ·)) {v : Nat} (hv : v ∈ S) :
    S.getLast?.getD 0 ∈ S ∧ v ≤ S.getLast?.getD 0 := by
  induction S generalizing v with
  | nil => cases hv
  | cons a S ih =>
    obtain ⟨hlt, htail⟩ := List.pairwise_cons.mp hS
    cases S with
    | nil =>
      rcases List.mem_cons.mp hv with rfl | hv
      · exact ⟨List.mem_cons_self, Nat.le_refl _⟩
      · cases hv
    | cons b S =>
      rcases List.mem_cons.mp hv with rfl | hv
      · obtain ⟨hmem, hle⟩ := ih htail List.mem_cons_self
        exact ⟨List.mem_cons_of_mem _ hmem, (hlt _ hmem).le⟩
      · obtain ⟨hmem, hle⟩ := ih htail hv
        exact ⟨List.mem_cons_of_mem _ hmem, hle⟩

/-! ### Blanks -/

/-- A stretch without values that cannot be made longer. -/
structure IsBlank (S : List Nat) (b : Nat × Nat) : Prop where
  le : b.1 ≤ b.2
  le_max : b.2 ≤ u128Max
  free : ∀ v ∈ S, v < b.1 ∨ b.2 < v
  left : b.1 = 0 ∨ b.1 - 1 ∈ S
  right : b.2 = u128Max ∨ b.2 + 1 ∈ S

/-- Two blanks have a value between them. -/
theorem IsBlank.separated {S : List Nat} {a b : Nat × Nat} (ha : IsBlank S a) (hb : IsBlank S b)
    (hne : a ≠ b) (hle : a.1 ≤ b.1) : a.2 + 1 < b.1 := by
  have hmaxa := ha.le_max
  have hmaxb := hb.le_max
  have hleb := hb.le
  rcases Nat.eq_or_lt_of_le hle with heq | hlt
  · have hend : a.2 ≠ b.2 := fun hend => hne (Prod.ext heq hend)
    rcases Nat.lt_or_ge a.2 b.2 with hlt | hge
    · rcases ha.right with hright | hright
      · omega
      · rcases hb.free _ hright with h | h <;> omega
    · rcases hb.right with hright | hright
      · omega
      · rcases ha.free _ hright with h | h <;> omega
  · rcases hb.left with hleft | hleft
    · omega
    · rcases ha.free _ hleft with h | h <;> omega

/-- A blank between two values. -/
structure IsInner (S : List Nat) (b : Nat × Nat) : Prop where
  le : b.1 ≤ b.2
  free : ∀ v ∈ S, v < b.1 ∨ b.2 < v
  left : ∃ v ∈ S, v + 1 = b.1
  right : b.2 + 1 ∈ S

theorem IsInner.isBlank {S : List Nat} (hS : ∀ v ∈ S, v < 2 ^ 128) {b : Nat × Nat}
    (h : IsInner S b) : IsBlank S b := by
  obtain ⟨v, hv, hleft⟩ := h.left
  have hlt := hS _ h.right
  refine ⟨h.le, ?_, h.free, Or.inr ?_, Or.inr h.right⟩
  · unfold u128Max
    omega
  · rw [← hleft, Nat.add_sub_cancel]
    exact hv

theorem IsInner.cons {a : Nat} {S : List Nat} (ha : ∀ v ∈ S, a < v) {b : Nat × Nat}
    (h : IsInner S b) : IsInner (a :: S) b := by
  obtain ⟨v, hv, hleft⟩ := h.left
  refine ⟨h.le, ?_, ⟨v, List.mem_cons_of_mem a hv, hleft⟩, List.mem_cons_of_mem a h.right⟩
  intro w hw
  rcases List.mem_cons.mp hw with rfl | hw
  · have := ha v hv
    omega
  · exact h.free w hw

/-- What is pushed onto the heap: blanks between values, in their order. -/
theorem getBlanks_spec {S : List Nat} (hS : S.Pairwise (· < ·)) :
    (∀ b ∈ getBlanks S, IsInner S b.blankRange) ∧
      (getBlanks S).Pairwise fun a b => a.blankRange.1 < b.blankRange.1 := by
  induction S with
  | nil => exact ⟨by simp [getBlanks], List.Pairwise.nil⟩
  | cons first S ih =>
    obtain ⟨hlt, htail⟩ := List.pairwise_cons.mp hS
    obtain ⟨hinner, hpairwise⟩ := ih htail
    cases S with
    | nil => exact ⟨by simp [getBlanks], List.Pairwise.nil⟩
    | cons second rest =>
      rw [getBlanks]
      have hrest : ∀ b ∈ getBlanks (second :: rest), IsInner (first :: second :: rest) b.blankRange :=
        fun b hb => (hinner b hb).cons hlt
      -- a gap of fewer than two numbers is no blank
      by_cases hsize : second - 1 - (first + 1) < 2
      · have hnone : tryFrom (first + 1, second - 1) = none := if_pos hsize
        rw [hnone]
        exact ⟨hrest, hpairwise⟩
      · have hsome : tryFrom (first + 1, second - 1) =
            some ⟨(first + 1, second - 1)⟩ := if_neg hsize
        rw [hsome, Option.toList_some, List.singleton_append]
        obtain ⟨hsecond, -⟩ := List.pairwise_cons.mp htail
        refine ⟨?_, List.pairwise_cons.mpr ⟨?_, hpairwise⟩⟩
        · intro b hb
          rcases List.mem_cons.mp hb with rfl | hb
          · refine ⟨by dsimp only; omega, ?_, ⟨first, List.mem_cons_self, rfl⟩, ?_⟩
            · intro v hv
              dsimp only
              rcases List.mem_cons.mp hv with rfl | hv
              · omega
              · rcases List.mem_cons.mp hv with rfl | hv
                · omega
                · have := hsecond v hv
                  omega
            · have hend : second - 1 + 1 = second := by omega
              rw [hend]
              exact List.mem_cons_of_mem _ List.mem_cons_self
          · exact hrest b hb
        · intro b hb
          obtain ⟨v, hv, hleft⟩ := (hinner b hb).left
          dsimp only
          rcases List.mem_cons.mp hv with rfl | hv
          · omega
          · have := hsecond v hv
            omega

/-- Without blanks the values are close together. -/
theorem getLast_le_of_getBlanks_nil {S : List Nat} (h : getBlanks S = []) :
    S.getLast?.getD 0 ≤ S.head?.getD 0 + 3 * S.length := by
  induction S with
  | nil => exact Nat.le_refl _
  | cons first S ih =>
    cases S with
    | nil => exact Nat.le_add_right _ _
    | cons second rest =>
      rw [getBlanks, List.append_eq_nil_iff] at h
      obtain ⟨hnone, hrest⟩ := h
      have hstep := ih hrest
      have hsize : second - 1 - (first + 1) < 2 := by
        by_contra hsize
        have hsome : tryFrom (first + 1, second - 1) =
            some ⟨(first + 1, second - 1)⟩ := if_neg hsize
        rw [hsome] at hnone
        cases hnone
      rw [List.getLast?_cons_cons]
      rw [List.head?_cons, Option.getD_some] at hstep ⊢
      simp only [List.length_cons] at hstep ⊢
      omega

/-! ### The choice -/

section Choice

variable (totalNumValues costPerBlank : Nat)

/-- Every round puts its blank behind those of the builder and the collector. -/
theorem step_blanks (s : Choice) (blank : BlankRange) :
    (s.step totalNumValues costPerBlank blank).builder ++
        (s.step totalNumValues costPerBlank blank).staged.map blankRange =
      s.builder ++ s.staged.map blankRange ++ [blank.blankRange] := by
  unfold Choice.step
  dsimp only
  split
  · simp
  · split
    · simp
    · simp

theorem run_blanks (s : Choice) (blanks : List BlankRange) :
    (blanks.foldl (Choice.step totalNumValues costPerBlank) s).builder ++
        (blanks.foldl (Choice.step totalNumValues costPerBlank) s).staged.map
          blankRange =
      s.builder ++ s.staged.map blankRange ++ blanks.map blankRange := by
  induction blanks generalizing s with
  | nil => exact (List.append_nil _).symm
  | cons blank blanks ih =>
    simp [ih, step_blanks]

/-- The builder keeps its blanks. -/
theorem mem_run_builder {s : Choice} {blanks : List BlankRange} {b : Nat × Nat}
    (hb : b ∈ s.builder) :
    b ∈ (blanks.foldl (Choice.step totalNumValues costPerBlank) s).builder := by
  induction blanks generalizing s with
  | nil => exact hb
  | cons blank blanks ih =>
    apply ih
    unfold Choice.step
    dsimp only
    split
    · exact hb
    · split
      · exact hb
      · exact List.mem_append_left _ hb

variable {totalNumValues costPerBlank}
variable {pops : List BlankRange → List BlankRange} {S : List Nat}

/-- Blanks are chosen from the front: first the outer ones, and then as they are popped. -/
theorem chosenBlanks_front :
    ∃ rest, chosenBlanks pops S totalNumValues costPerBlank ++ rest =
      outerBlanks S ++ (pops (getBlanks S)).map blankRange := by
  have hrun := run_blanks totalNumValues costPerBlank (Choice.init S) (pops (getBlanks S))
  have hinit : (Choice.init S).builder ++ (Choice.init S).staged.map blankRange =
      outerBlanks S := List.append_nil _
  rw [hinit] at hrun
  rw [chosenBlanks, Choice.blanks, ← hrun]
  split
  · rename_i hempty
    rw [hempty, List.nil_append]
    exact ⟨_, List.take_append_drop 1 _⟩
  · exact ⟨_, rfl⟩

theorem chosenBlanks_ne_nil
    (h : outerBlanks S ++ (pops (getBlanks S)).map blankRange ≠ []) :
    chosenBlanks pops S totalNumValues costPerBlank ≠ [] := by
  have hrun := run_blanks totalNumValues costPerBlank (Choice.init S) (pops (getBlanks S))
  have hinit : (Choice.init S).builder ++ (Choice.init S).staged.map blankRange =
      outerBlanks S := List.append_nil _
  rw [hinit] at hrun
  rw [← hrun] at h
  rw [chosenBlanks, Choice.blanks]
  split
  · rename_i hempty
    rw [hempty, List.nil_append] at h
    intro hnil
    rcases List.take_eq_nil_iff.mp hnil with h1 | h1
    · cases h1
    · exact h h1
  · rename_i hne
    exact hne

theorem outerBlanks_chosen {b : Nat × Nat} (hb : b ∈ outerBlanks S) :
    b ∈ chosenBlanks pops S totalNumValues costPerBlank := by
  have hinit : b ∈ (Choice.init S).builder := hb
  have hrun := @mem_run_builder totalNumValues costPerBlank _ (pops (getBlanks S)) b hinit
  rw [chosenBlanks, Choice.blanks, if_neg (List.ne_nil_of_mem hrun)]
  exact hrun

theorem mem_outerBlanks {b : Nat × Nat} :
    b ∈ outerBlanks S ↔
      (S.head?.getD 0 ≠ 0 ∧ b = (0, S.head?.getD 0 - 1)) ∨
        (S.getLast?.getD 0 ≠ u128Max ∧ b = (S.getLast?.getD 0 + 1, u128Max)) := by
  unfold outerBlanks
  rw [List.mem_append]
  refine or_congr ?_ ?_
  · split <;> simp_all
  · split <;> simp_all

/-- All candidates are blanks, each of them listed once. -/
theorem candidates_spec (hS : S.Pairwise (· < ·)) (hlt : ∀ v ∈ S, v < 2 ^ 128) (hne : S ≠ [])
    (hpops : HeapOrder pops) :
    (∀ b ∈ outerBlanks S ++ (pops (getBlanks S)).map blankRange, IsBlank S b) ∧
      (outerBlanks S ++ (pops (getBlanks S)).map blankRange).Nodup := by
  obtain ⟨hinner, hpairwise⟩ := getBlanks_spec hS
  obtain ⟨v, hv⟩ := List.exists_mem_of_ne_nil S hne
  obtain ⟨hminMem, -⟩ := head_le hS hv
  obtain ⟨hmaxMem, -⟩ := le_getLast hS hv
  have hminLe : ∀ v ∈ S, S.head?.getD 0 ≤ v := fun v hv => (head_le hS hv).2
  have hmaxGe : ∀ v ∈ S, v ≤ S.getLast?.getD 0 := fun v hv => (le_getLast hS hv).2
  have hmaxLt := hlt _ hmaxMem
  have hu128 : u128Max = 2 ^ 128 - 1 := rfl
  -- the popped blanks lie between two values
  have hpopped : ∀ b ∈ (pops (getBlanks S)).map blankRange, IsInner S b := by
    intro b hb
    obtain ⟨x, hx, rfl⟩ := List.mem_map.mp hb
    exact hinner x ((hpops (getBlanks S)).1.mem_iff.mp hx)
  constructor
  · intro b hb
    rcases List.mem_append.mp hb with hb | hb
    · rcases mem_outerBlanks.mp hb with ⟨hmin, rfl⟩ | ⟨hmax, rfl⟩
      · refine ⟨Nat.zero_le _, ?_, ?_, Or.inl rfl, Or.inr ?_⟩
        · have := hlt _ hminMem
          omega
        · intro v hv
          have := hminLe v hv
          omega
        · rw [Nat.sub_add_cancel (Nat.one_le_iff_ne_zero.mpr hmin)]
          exact hminMem
      · refine ⟨?_, Nat.le_refl _, ?_, Or.inr ?_, Or.inl rfl⟩
        · omega
        · intro v hv
          have := hmaxGe v hv
          omega
        · exact hmaxMem
    · exact (hpopped b hb).isBlank hlt
  · apply List.Nodup.append
    · unfold outerBlanks
      dsimp only
      split <;> split <;> simp
    · have hnodup : ((getBlanks S).map blankRange).Nodup := by
        refine List.Pairwise.map _ ?_ hpairwise
        intro a b hab heq
        rw [heq] at hab
        exact Nat.lt_irrefl _ hab
      exact ((hpops (getBlanks S)).1.map _).nodup_iff.mpr hnodup
    · intro b hb hb'
      -- an outer blank has no value in front of it, or none behind it
      obtain ⟨w, hw, hleft⟩ := (hpopped b hb').left
      have hright := (hpopped b hb').right
      rcases mem_outerBlanks.mp hb with ⟨-, rfl⟩ | ⟨-, rfl⟩
      · cases hleft
      · have := hlt _ hright
        omega

/-- **The choice.** Whatever the costs, blanks are chosen, and each of them once. -/
theorem chosenBlanks_spec (hS : S.Pairwise (· < ·)) (hlt : ∀ v ∈ S, v < 2 ^ 128) (hne : S ≠ [])
    (hpops : HeapOrder pops) (hlen : S.length < 2 ^ 32) :
    chosenBlanks pops S totalNumValues costPerBlank ≠ [] ∧
      (∀ b ∈ chosenBlanks pops S totalNumValues costPerBlank, IsBlank S b) ∧
      (chosenBlanks pops S totalNumValues costPerBlank).Nodup := by
  obtain ⟨hblank, hnodup⟩ := candidates_spec hS hlt hne hpops
  obtain ⟨rest, hfront⟩ := @chosenBlanks_front totalNumValues costPerBlank pops S
  refine ⟨chosenBlanks_ne_nil ?_, ?_, ?_⟩
  · -- without any blank the values would fill all of the space
    intro hnil
    obtain ⟨houter, hinner⟩ := List.append_eq_nil_iff.mp hnil
    have hgetBlanks : getBlanks S = [] := by
      apply List.eq_nil_of_length_eq_zero
      rw [← (hpops (getBlanks S)).1.length_eq, List.map_eq_nil_iff.mp hinner]
      rfl
    -- from 0 to the largest number in steps of at most three: too many for the length
    have hlast := getLast_le_of_getBlanks_nil hgetBlanks
    have hmin : S.head?.getD 0 = 0 := by
      by_contra hmin
      have hmem := mem_outerBlanks.mpr (Or.inl ⟨hmin, rfl⟩)
      rw [houter] at hmem
      cases hmem
    have hmax : S.getLast?.getD 0 = u128Max := by
      by_contra hmax
      have hmem := mem_outerBlanks.mpr (Or.inr ⟨hmax, rfl⟩)
      rw [houter] at hmem
      cases hmem
    rw [hmin, hmax] at hlast
    unfold u128Max at hlast
    omega
  · intro b hb
    apply hblank
    rw [← hfront]
    exact List.mem_append_left rest hb
  · rw [← hfront] at hnodup
    exact (List.nodup_append.mp hnodup).1

end Choice

/-! ### What is covered -/

/-- The ranges from `p` on. -/
def rangesFrom : Nat → List (Nat × Nat) → List (Nat × Nat)
  | p, [] => if p ≤ u128Max then [(p, u128Max)] else []
  | p, b :: bs => (if p < b.1 then [(p, b.1 - 1)] else []) ++ rangesFrom (b.2 + 1) bs

/-- Blanks in order, with values between them. -/
def Separated (bs : List (Nat × Nat)) : Prop := bs.Pairwise fun a b => a.2 + 1 < b.1

variable {bs : List (Nat × Nat)}

/-- The ranges behind the first blank, as `finish` computes them. -/
theorem betweenBlanks_eq {b : Nat × Nat} (h : Separated (b :: bs))
    (hmax : ∀ x ∈ b :: bs, x.2 ≤ u128Max) :
    ∃ between, CompactSpaceBuilder.betweenBlanks (b :: bs) = some between ∧
      between ++ (if ((b :: bs).getLast?.getD b).2 ≠ u128Max
        then [(((b :: bs).getLast?.getD b).2 + 1, u128Max)] else []) =
      rangesFrom (b.2 + 1) bs := by
  induction bs generalizing b with
  | nil =>
    refine ⟨[], rfl, ?_⟩
    have hle := hmax b List.mem_cons_self
    show (if b.2 ≠ u128Max then _ else _) = rangesFrom (b.2 + 1) []
    rw [rangesFrom]
    by_cases hend : b.2 = u128Max
    · rw [if_neg (fun hne => hne hend), if_neg (by omega)]
    · rw [if_pos hend, if_pos (by omega)]
      rfl
  | cons right rest ih =>
    obtain ⟨hfirst, htail⟩ := List.pairwise_cons.mp h
    have hlt := hfirst right List.mem_cons_self
    obtain ⟨between, hbetween, hranges⟩ :=
      ih htail fun x hx => hmax x (List.mem_cons_of_mem b hx)
    have hlast : ((b :: right :: rest).getLast?.getD b) =
        ((right :: rest).getLast?.getD right) := by
      rfl
    refine ⟨(b.2 + 1, right.1 - 1) :: between, ?_, ?_⟩
    · rw [CompactSpaceBuilder.betweenBlanks, if_pos (by omega), hbetween]
      rfl
    · rw [hlast, List.cons_append, hranges, rangesFrom, if_pos hlt]
      rfl

theorem coveredSpace_eq (h : Separated bs) (hne : bs ≠ []) (hmax : ∀ x ∈ bs, x.2 ≤ u128Max) :
    CompactSpaceBuilder.coveredSpace bs = some (rangesFrom 0 bs) := by
  cases bs with
  | nil => exact absurd rfl hne
  | cons b bs =>
    obtain ⟨between, hbetween, hranges⟩ := betweenBlanks_eq h hmax
    rw [CompactSpaceBuilder.coveredSpace, hbetween, Option.map_some, rangesFrom, ← hranges]
    dsimp only [List.head?_cons, Option.getD_some]
    congr 1
    rw [List.append_assoc]
    congr 1
    by_cases h0 : b.1 = 0
    · rw [if_neg (fun hne => hne h0), if_neg (by omega)]
    · simp [h0]

/-- What is covered from `p` on, between blanks that start behind `p`. -/
structure Covers (p : Nat) (bs rs : List (Nat × Nat)) : Prop where
  bounds : ∀ r ∈ rs, p ≤ r.1 ∧ r.1 ≤ r.2 ∧ r.2 ≤ u128Max
  order : rs.Pairwise fun a b => a.2 < b.1
  covered : ∀ v, p ≤ v → v ≤ u128Max → (∀ b ∈ bs, v < b.1 ∨ b.2 < v) → ∃ r ∈ rs, r.1 ≤ v ∧ v ≤ r.2
  avoids : ∀ r ∈ rs, ∀ b ∈ bs, r.2 < b.1 ∨ b.2 < r.1
  starts : ∀ r ∈ rs, r.1 = p ∨ ∃ b ∈ bs, r.1 = b.2 + 1
  ends : ∀ r ∈ rs, r.2 = u128Max ∨ ∃ b ∈ bs, r.2 + 1 = b.1

theorem rangesFrom_covers (h : Separated bs) (hbs : ∀ b ∈ bs, b.1 ≤ b.2 ∧ b.2 ≤ u128Max) {p : Nat}
    (hp : ∀ b ∈ bs, p ≤ b.1) :
    Covers p bs (rangesFrom p bs) := by
  induction bs generalizing p with
  | nil =>
    rw [rangesFrom]
    by_cases hle : p ≤ u128Max
    · rw [if_pos hle]
      refine ⟨?_, List.pairwise_singleton _ _, ?_, by simp, ?_, ?_⟩
      · intro r hr
        obtain rfl := List.mem_singleton.mp hr
        exact ⟨Nat.le_refl _, hle, Nat.le_refl _⟩
      · intro v hpv hv _
        exact ⟨_, List.mem_singleton.mpr rfl, hpv, hv⟩
      · intro r hr
        obtain rfl := List.mem_singleton.mp hr
        exact Or.inl rfl
      · intro r hr
        obtain rfl := List.mem_singleton.mp hr
        exact Or.inl rfl
    · rw [if_neg hle]
      refine ⟨by simp, List.Pairwise.nil, ?_, by simp, by simp, by simp⟩
      omega
  | cons b bs ih =>
    obtain ⟨hfirst, htail⟩ := List.pairwise_cons.mp h
    obtain ⟨hle, hmax⟩ := hbs b List.mem_cons_self
    have hpb := hp b List.mem_cons_self
    have hrest := ih htail (fun x hx => hbs x (List.mem_cons_of_mem b hx))
      (fun x hx => (hfirst x hx).le)
    rw [rangesFrom]
    -- the range in front of the blank, if there is one
    have hfront : ∀ r ∈ (if p < b.1 then [(p, b.1 - 1)] else []), p < b.1 ∧ r = (p, b.1 - 1) := by
      intro r hr
      split at hr
      · rename_i hlt
        exact ⟨hlt, List.mem_singleton.mp hr⟩
      · cases hr
    refine ⟨?_, ?_, ?_, ?_, ?_, ?_⟩
    · intro r hr
      rcases List.mem_append.mp hr with hr | hr
      · obtain ⟨hlt, rfl⟩ := hfront r hr
        omega
      · obtain ⟨h1, h2, h3⟩ := hrest.bounds r hr
        exact ⟨by omega, h2, h3⟩
    · rw [List.pairwise_append]
      refine ⟨by split <;> simp, hrest.order, ?_⟩
      intro r hr s hs
      obtain ⟨hlt, rfl⟩ := hfront r hr
      have hs1 := (hrest.bounds s hs).1
      omega
    · intro v hpv hv hfree
      -- a number in front of the blank is in the first range, one behind it in a later one
      rcases hfree b List.mem_cons_self with hvb | hvb
      · refine ⟨(p, b.1 - 1), ?_, hpv, by omega⟩
        rw [if_pos (by omega)]
        exact List.mem_append_left _ (List.mem_singleton.mpr rfl)
      · obtain ⟨r, hr, hv1, hv2⟩ := hrest.covered v (by omega) hv
          fun x hx => hfree x (List.mem_cons_of_mem b hx)
        exact ⟨r, List.mem_append_right _ hr, hv1, hv2⟩
    · intro r hr x hx
      rcases List.mem_append.mp hr with hr | hr
      · obtain ⟨hlt, rfl⟩ := hfront r hr
        rcases List.mem_cons.mp hx with rfl | hx
        · omega
        · have hbx := hfirst x hx
          omega
      · rcases List.mem_cons.mp hx with rfl | hx
        · have hr1 := (hrest.bounds r hr).1
          omega
        · exact hrest.avoids r hr x hx
    · intro r hr
      rcases List.mem_append.mp hr with hr | hr
      · obtain ⟨hlt, rfl⟩ := hfront r hr
        exact Or.inl rfl
      · right
        rcases hrest.starts r hr with hstart | ⟨x, hx, hstart⟩
        · exact ⟨b, List.mem_cons_self, hstart⟩
        · exact ⟨x, List.mem_cons_of_mem b hx, hstart⟩
    · intro r hr
      rcases List.mem_append.mp hr with hr | hr
      · obtain ⟨hlt, rfl⟩ := hfront r hr
        exact Or.inr ⟨b, List.mem_cons_self, by omega⟩
      · rcases hrest.ends r hr with hend | ⟨x, hx, hend⟩
        · exact Or.inl hend
        · exact Or.inr ⟨x, List.mem_cons_of_mem b hx, hend⟩

/-- The ranges of a set of values. -/
structure Ranges (S : List Nat) (rs : List (Nat × Nat)) : Prop where
  bounds : ∀ r ∈ rs, r.1 ≤ r.2 ∧ r.2 ≤ u128Max
  order : rs.Pairwise fun a b => a.2 < b.1
  covered : ∀ v ∈ S, ∃ r ∈ rs, r.1 ≤ v ∧ v ≤ r.2
  starts : ∀ r ∈ rs, r.1 ∈ S
  ends : ∀ r ∈ rs, r.2 ∈ S

/-- The blanks in the order of their starts. -/
theorem sorted_blanks {S : List Nat} (hblank : ∀ b ∈ bs, IsBlank S b) (hnodup : bs.Nodup) :
    Separated (bs.insertionSort fun a b => a.1 ≤ b.1) := by
  have hperm := List.perm_insertionSort (fun a b : Nat × Nat => a.1 ≤ b.1) bs
  have hsorted : (bs.insertionSort fun a b => a.1 ≤ b.1).Pairwise fun a b => a.1 ≤ b.1 := by
    exact List.pairwise_insertionSort _ _
  have hnodup' := hperm.nodup_iff.mpr hnodup
  have hboth := hsorted.and hnodup'
  -- two blanks do not overlap, so that the order of their starts is strict
  refine List.Pairwise.imp_of_mem ?_ hboth
  intro a b ha hb hab
  exact (hblank a (hperm.mem_iff.mp ha)).separated (hblank b (hperm.mem_iff.mp hb)) hab.2 hab.1

/-- Blanks leave ranges that start and end with values. -/
theorem ranges_of_blanks {S : List Nat} (hlt : ∀ v ∈ S, v < 2 ^ 128)
    (hblank : ∀ b ∈ bs, IsBlank S b) (hnodup : bs.Nodup) (hne : bs ≠ [])
    (hmin : 0 ∈ S ∨ ∃ b ∈ bs, b.1 = 0) (hmax : u128Max ∈ S ∨ ∃ b ∈ bs, b.2 = u128Max) :
    ∃ rs, CompactSpaceBuilder.coveredSpace (bs.insertionSort fun a b => a.1 ≤ b.1) = some rs ∧
      Ranges S rs := by
  have hperm := List.perm_insertionSort (fun a b : Nat × Nat => a.1 ≤ b.1) bs
  have hseparated := sorted_blanks hblank hnodup
  have hblank' : ∀ b ∈ bs.insertionSort fun a b => a.1 ≤ b.1, IsBlank S b :=
    fun b hb => hblank b (hperm.mem_iff.mp hb)
  have hne' : (bs.insertionSort fun a b => a.1 ≤ b.1) ≠ [] := by
    intro hnil
    rw [hnil] at hperm
    exact hne (List.nil_perm.mp hperm)
  refine ⟨_, coveredSpace_eq hseparated hne' fun b hb => (hblank' b hb).le_max, ?_⟩
  have hcovers := rangesFrom_covers hseparated
    (fun b hb => ⟨(hblank' b hb).le, (hblank' b hb).le_max⟩) fun b _ => Nat.zero_le b.1
  refine ⟨fun r hr => (hcovers.bounds r hr).2, hcovers.order, ?_, ?_, ?_⟩
  · intro v hv
    have hv128 := hlt v hv
    exact hcovers.covered v (Nat.zero_le v) (by unfold u128Max; omega)
      fun b hb => (hblank' b hb).free v hv
  · intro r hr
    rcases hcovers.starts r hr with hstart | ⟨b, hb, hstart⟩
    · -- a range from 0 on, in front of all blanks
      rcases hmin with hmin | ⟨b, hb, hb0⟩
      · rw [hstart]
        exact hmin
      · have havoids := hcovers.avoids r hr b (hperm.mem_iff.mpr hb)
        omega
    · rcases (hblank' b hb).right with hright | hright
      · have hrange := hcovers.bounds r hr
        omega
      · rw [hstart]
        exact hright
  · intro r hr
    rcases hcovers.ends r hr with hend | ⟨b, hb, hend⟩
    · rcases hmax with hmax | ⟨b, hb, hbmax⟩
      · rw [hend]
        exact hmax
      · have havoids := hcovers.avoids r hr b (hperm.mem_iff.mpr hb)
        have hbounds := hcovers.bounds r hr
        have hble := (hblank b hb).le
        omega
    · rcases (hblank' b hb).left with hleft | hleft
      · omega
      · have hback : r.2 = b.1 - 1 := by omega
        rw [hback]
        exact hleft

/-- **The space of some values.** Its ranges are in order, start and end with values, and cover all
    of them. -/
theorem chosen_ranges {pops : List BlankRange → List BlankRange} {S : List Nat}
    (hS : S.Pairwise (· < ·)) (hlt : ∀ v ∈ S, v < 2 ^ 128) (hne : S ≠ []) (hpops : HeapOrder pops)
    (hlen : S.length < 2 ^ 32) (totalNumValues costPerBlank : Nat) :
    ∃ rs, getCompactSpace pops S totalNumValues costPerBlank =
        some ⟨CompactSpaceBuilder.withStarts 1 rs⟩ ∧ rs ≠ [] ∧ Ranges S rs := by
  obtain ⟨hchosen, hblank, hnodup⟩ := @chosenBlanks_spec totalNumValues costPerBlank pops S
    hS hlt hne hpops hlen
  obtain ⟨v, hv⟩ := List.exists_mem_of_ne_nil S hne
  have hmin : 0 ∈ S ∨ ∃ b ∈ chosenBlanks pops S totalNumValues costPerBlank, b.1 = 0 := by
    by_cases h0 : S.head?.getD 0 = 0
    · left
      rw [← h0]
      exact (head_le hS hv).1
    · exact Or.inr ⟨_, outerBlanks_chosen (mem_outerBlanks.mpr (Or.inl ⟨h0, rfl⟩)), rfl⟩
  have hmax : u128Max ∈ S ∨
      ∃ b ∈ chosenBlanks pops S totalNumValues costPerBlank, b.2 = u128Max := by
    by_cases hend : S.getLast?.getD 0 = u128Max
    · left
      rw [← hend]
      exact (le_getLast hS hv).1
    · exact Or.inr ⟨_, outerBlanks_chosen (mem_outerBlanks.mpr (Or.inr ⟨hend, rfl⟩)), rfl⟩
  obtain ⟨rs, hcovered, hranges⟩ := ranges_of_blanks hlt hblank hnodup hchosen hmin hmax
  have hrs : rs ≠ [] := by
    rintro rfl
    obtain ⟨r, hr, -⟩ := hranges.covered v hv
    cases hr
  refine ⟨rs, ?_, hrs, hranges⟩
  rw [getCompactSpace, if_neg hne, CompactSpaceBuilder.finish, hcovered, Option.map_some,
    if_neg hrs]

end TeaclaveCrates.Tantivy.FastFieldCodecs
