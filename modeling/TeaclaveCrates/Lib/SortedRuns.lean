import Mathlib.Algebra.GroupWithZero.Nat
import Mathlib.Algebra.BigOperators.Group.List.Basic
import Mathlib.Data.List.Perm.Lattice

namespace TeaclaveCrates.Lib

/-!
# The union of sorted runs

Runs of entries with increasing keys are merged key by key: of the runs that start with the least
key the first entry is taken, in any order, and this is repeated with what is left.

* `valueAt`, `valuesAt` — what a run, and what several runs, have at a key;
* `TakesAll` — taking the entry at a key from every run that starts with it;
* `TakesAll.spec` — what was taken, and what is left;
* `IsUnion` — the keys of the runs in order, each with its values;
* `IsUnion.cons` — the least key, in front of the union of what is left.
-/

variable {K V : Type*} [DecidableEq K]

/-- The value at a key. -/
def valueAt (key : K) (run : List (K × V)) : Option V :=
  (run.find? fun e => e.1 = key).map Prod.snd

/-- The values at a key, in the order of the runs. -/
def valuesAt (key : K) (runs : List (List (K × V))) : List V := runs.filterMap (valueAt key)

section Values

variable {key k : K} {value : V} {run : List (K × V)} {runs runs' : List (List (K × V))}

@[simp] theorem valueAt_cons_self : valueAt key ((key, value) :: run) = some value := by
  simp [valueAt]

theorem valueAt_cons_of_ne (h : key ≠ k) : valueAt k ((key, value) :: run) = valueAt k run := by
  simp [valueAt, h]

theorem valueAt_ne_none : valueAt key run ≠ none ↔ ∃ e ∈ run, e.1 = key := by
  simp [valueAt]

theorem valuesAt_ne_nil : valuesAt key runs ≠ [] ↔ ∃ run ∈ runs, ∃ e ∈ run, e.1 = key := by
  rw [valuesAt, ne_eq, List.filterMap_eq_nil_iff]
  push Not
  simp only [valueAt_ne_none]

theorem valuesAt_perm (h : runs.Perm runs') : (valuesAt key runs).Perm (valuesAt key runs') :=
  h.filterMap _

theorem valuesAt_eq_nil (h : ∀ run ∈ runs, ∀ e ∈ run, e.1 ≠ key) : valuesAt key runs = [] := by
  by_contra hne
  obtain ⟨run, hrun, e, he, hkey⟩ := valuesAt_ne_nil.mp hne
  exact h run hrun e he hkey

end Values

section Order

variable [LT K]

/-- The keys increase. -/
def Increasing (run : List (K × V)) : Prop := run.Pairwise fun a b => a.1 < b.1

omit [DecidableEq K] in
instance [DecidableLT K] (run : List (K × V)) : Decidable (Increasing run) :=
  inferInstanceAs (Decidable (run.Pairwise fun a b => a.1 < b.1))

/-- From every run that starts with the key, its first entry is taken. -/
inductive TakesAll (key : K) : List (List (K × V)) → List V → List (List (K × V)) → Prop
  | done {runs : List (List (K × V))} (h : ∀ run ∈ runs, ∀ e ∈ run.head?, e.1 ≠ key) :
      TakesAll key runs [] runs
  | next {runs others runs' : List (List (K × V))} {tail : List (K × V)} {value : V}
      {values : List V} (h : runs.Perm (((key, value) :: tail) :: others))
      (rest : TakesAll key (tail :: others) values runs') :
      TakesAll key runs (value :: values) runs'

/-- The values at the key are taken, and nothing else. -/
structure HeadsTaken (key : K) (runs : List (List (K × V))) (values : List V)
    (runs' : List (List (K × V))) : Prop where
  taken : values.Perm (valuesAt key runs)
  increasing : ∀ run ∈ runs', Increasing run
  above : ∀ run ∈ runs', ∀ e ∈ run, key < e.1
  others : ∀ k ≠ key, (valuesAt k runs').Perm (valuesAt k runs)
  count : (runs'.map List.length).sum + values.length = (runs.map List.length).sum

/-- The keys of the runs in order, each with the values of all the runs that have it. -/
structure IsUnion (runs : List (List (K × V))) (union : List (K × List V)) : Prop where
  increasing : union.Pairwise fun a b => a.1 < b.1
  values : ∀ e ∈ union, e.2 ≠ [] ∧ e.2.Perm (valuesAt e.1 runs)
  covers : ∀ run ∈ runs, ∀ e ∈ run, ∃ u ∈ union, u.1 = e.1

theorem IsUnion.nil {runs : List (List (K × V))} (h : ∀ run ∈ runs, run = []) :
    IsUnion runs [] := by
  refine ⟨List.Pairwise.nil, by simp, ?_⟩
  intro run hrun e he
  rw [h run hrun] at he
  cases he

variable [LE K] [Std.IsLinearOrder K] [Std.LawfulOrderLT K]

/-- One step takes the entry at the least key, in every run that has one. -/
theorem TakesAll.spec {key : K} {runs runs' : List (List (K × V))} {values : List V}
    (h : TakesAll key runs values runs') (hinc : ∀ run ∈ runs, Increasing run)
    (hmin : ∀ run ∈ runs, ∀ e ∈ run, key ≤ e.1) : HeadsTaken key runs values runs' := by
  induction h with
  | @done runs hdone =>
    -- a run that does not start with the key starts above it
    have habove : ∀ run ∈ runs, ∀ e ∈ run, key < e.1 := by
      intro run hrun e he
      cases run with
      | nil => cases he
      | cons first tail =>
        have hfirst : key < first.1 := by
          apply Std.lt_of_le_of_ne (hmin _ hrun first List.mem_cons_self)
          exact (hdone _ hrun first rfl).symm
        rcases List.mem_cons.mp he with rfl | he
        · exact hfirst
        · exact Std.lt_trans hfirst (List.rel_of_pairwise_cons (hinc _ hrun) he)
    refine ⟨?_, hinc, habove, fun k _ => List.Perm.refl _, rfl⟩
    rw [valuesAt_eq_nil fun run hrun e he heq => ?_]
    have hlt := habove run hrun e he
    rw [heq] at hlt
    exact Std.lt_irrefl hlt
  | @next runs others runs' tail value values hperm rest ih =>
    have hrun : (key, value) :: tail ∈ runs := hperm.mem_iff.mpr List.mem_cons_self
    have hmem : ∀ run ∈ others, run ∈ runs :=
      fun run hrun => hperm.mem_iff.mpr (List.mem_cons_of_mem _ hrun)
    have htail : ∀ e ∈ tail, key < e.1 :=
      fun e he => List.rel_of_pairwise_cons (hinc _ hrun) he
    have htaken := ih
      (by
        intro run hrun'
        rcases List.mem_cons.mp hrun' with rfl | hrun'
        · exact (List.pairwise_cons.mp (hinc _ hrun)).2
        · exact hinc run (hmem run hrun'))
      (by
        intro run hrun' e he
        rcases List.mem_cons.mp hrun' with rfl | hrun'
        · exact Std.le_of_lt (htail e he)
        · exact hmin run (hmem run hrun') e he)
    refine ⟨?_, htaken.increasing, htaken.above, ?_, ?_⟩
    · -- the run has the key only once
      have hnone : valueAt key tail = none := by
        by_contra hne
        obtain ⟨e, he, heq⟩ := valueAt_ne_none.mp hne
        have hlt := htail e he
        rw [heq] at hlt
        exact Std.lt_irrefl hlt
      have hvalues := htaken.taken
      rw [valuesAt, List.filterMap_cons_none hnone] at hvalues
      have hcons : valuesAt key (((key, value) :: tail) :: others) =
          value :: others.filterMap (valueAt key) := by
        rw [valuesAt, List.filterMap_cons_some valueAt_cons_self]
      exact ((hvalues.cons value).trans (List.Perm.of_eq hcons.symm)).trans
        (valuesAt_perm hperm).symm
    · intro k hk
      have hsame : valuesAt k (((key, value) :: tail) :: others) = valuesAt k (tail :: others) := by
        simp [valuesAt, List.filterMap_cons, valueAt_cons_of_ne hk.symm]
      exact ((htaken.others k hk).trans (List.Perm.of_eq hsame.symm)).trans
        (valuesAt_perm hperm).symm
    · have hlen := htaken.count
      have hsum := (hperm.map List.length).sum_eq
      simp only [List.map_cons, List.sum_cons, List.length_cons] at hlen hsum ⊢
      omega

variable {union : List (K × List V)}

omit [Std.IsLinearOrder K] in
/-- **The least key comes first**, in front of the union of what is left. -/
theorem IsUnion.cons {key : K} {runs runs' : List (List (K × V))} {values : List V}
    (h : HeadsTaken key runs values runs') (hne : values ≠ []) (hunion : IsUnion runs' union) :
    IsUnion runs ((key, values) :: union) := by
  have habove : ∀ u ∈ union, key < u.1 := by
    intro u hu
    obtain ⟨hne, hperm⟩ := hunion.values u hu
    obtain ⟨run, hrun, e, he, heq⟩ :=
      valuesAt_ne_nil.mp fun hnil => hne (by rw [hnil] at hperm; exact hperm.eq_nil)
    rw [← heq]
    exact h.above run hrun e he
  refine ⟨List.pairwise_cons.mpr ⟨habove, hunion.increasing⟩, ?_, ?_⟩
  · intro u hu
    rcases List.mem_cons.mp hu with rfl | hu
    · exact ⟨hne, h.taken⟩
    · obtain ⟨hne, hperm⟩ := hunion.values u hu
      refine ⟨hne, hperm.trans (h.others u.1 ?_)⟩
      intro heq
      have hlt := habove u hu
      rw [heq] at hlt
      exact Std.lt_irrefl hlt
  · intro run hrun e he
    by_cases heq : key = e.1
    · exact ⟨(key, values), List.mem_cons_self, heq⟩
    · -- another key is still there
      have hleft : valuesAt e.1 runs' ≠ [] := by
        intro hnil
        have hperm := h.others e.1 (Ne.symm heq)
        rw [hnil] at hperm
        exact valuesAt_ne_nil.mpr ⟨run, hrun, e, he, rfl⟩ hperm.symm.eq_nil
      obtain ⟨run', hrun', e', he', hkey⟩ := valuesAt_ne_nil.mp hleft
      obtain ⟨u, hu, hue⟩ := hunion.covers run' hrun' e' he'
      exact ⟨u, List.mem_cons_of_mem _ hu, hue.trans hkey⟩

/-- The keys of a union are known from those of the runs. -/
theorem IsUnion.keys_eq {runs : List (List (K × V))} (h : IsUnion runs union) {keys : List K}
    (hkeys : keys.Pairwise (· < ·))
    (hmem : ∀ key, key ∈ keys ↔ ∃ run ∈ runs, ∃ e ∈ run, e.1 = key) :
    union.map Prod.fst = keys := by
  have hinc : (union.map Prod.fst).Pairwise (· < ·) := List.pairwise_map.mpr h.increasing
  have hne : ∀ {a b : K}, a < b → a ≠ b := by
    rintro a b hlt rfl
    exact Std.lt_irrefl hlt
  have hperm : (union.map Prod.fst).Perm keys := by
    apply (List.perm_ext_iff_of_nodup (hinc.imp hne) (hkeys.imp hne)).mpr
    intro key
    rw [hmem, List.mem_map]
    constructor
    · rintro ⟨u, hu, rfl⟩
      obtain ⟨hne, hperm⟩ := h.values u hu
      exact valuesAt_ne_nil.mp fun hnil => hne (by rw [hnil] at hperm; exact hperm.eq_nil)
    · rintro ⟨run, hrun, e, he, rfl⟩
      exact h.covers run hrun e he
  exact hperm.eq_of_pairwise (fun a b _ _ hab hba => absurd (Std.lt_trans hab hba) Std.lt_irrefl)
    hinc hkeys

end Order

end TeaclaveCrates.Lib
