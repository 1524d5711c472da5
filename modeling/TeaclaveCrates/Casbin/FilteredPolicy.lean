import TeaclaveCrates.Casbin.AdapterSync

namespace TeaclaveCrates.Casbin

open Lib

/-!
# Filtered lookup and removal

`get_filtered_policy` and `remove_filtered_policy` compare the fields of every rule with the values
of the filter, from a first field on, and index the rule at each value that is not empty.

* `Matches` — a rule has every value that is not empty, at its position.
* `InBounds` — the comparison leaves a rule before it reaches a field that the rule does not have.
* `matchFields_eq` — the comparison panics unless the rule is in bounds, and else tells whether the
  rule matches.
* `filtered_exact_iff` — both operations are exact, and return, just when all rules are in bounds.
-/

namespace DefaultModel

/-- Every value that is not empty stands at its position of the rule. -/
def Matches (rule : Rule) (fieldIndex : Nat) (fieldValues : List String) : Prop :=
  ∀ i v, fieldValues[i]? = some v → v ≠ "" → rule[fieldIndex + i]? = some v

instance (rule : Rule) (fieldIndex : Nat) (fieldValues : List String) :
    Decidable (Matches rule fieldIndex fieldValues) :=
  decidable_of_iff (∀ i, (h : i < fieldValues.length) → fieldValues[i] ≠ "" →
    rule[fieldIndex + i]? = some fieldValues[i]) <| by
      constructor
      · intro h i v hv hne
        obtain ⟨hi, rfl⟩ := List.getElem?_eq_some_iff.mp hv
        exact h i hi hne
      · exact fun h i hi hne => h i fieldValues[i] (List.getElem?_eq_getElem hi) hne

/-- The rules of a type that match, in their order. -/
def matching (m : DefaultModel) (sec ptype : String) (fieldIndex : Nat)
    (fieldValues : List String) : List Rule :=
  (m.rules sec ptype).toList.filter fun r => Matches r fieldIndex fieldValues

/-- Where the rule has no field for a value, it differs from an earlier one. -/
def InBounds (rule : Rule) (fieldIndex : Nat) (fieldValues : List String) : Prop :=
  ∀ i v, fieldValues[i]? = some v → v ≠ "" → rule.length ≤ fieldIndex + i →
    ∃ j w field, j < i ∧ fieldValues[j]? = some w ∧ w ≠ "" ∧
      rule[fieldIndex + j]? = some field ∧ field ≠ w

variable {rule : Rule} {fieldIndex : Nat} {value : String} {values : List String}

theorem next_position (fieldIndex i : Nat) : fieldIndex + 1 + i = fieldIndex + (i + 1) := by omega

@[simp]
theorem matches_nil : Matches rule fieldIndex [] := by
  intro i v h
  cases h

@[simp]
theorem inBounds_nil : InBounds rule fieldIndex [] := by
  intro i v h
  cases h

theorem matches_cons :
    Matches rule fieldIndex (value :: values) ↔
      (value ≠ "" → rule[fieldIndex]? = some value) ∧ Matches rule (fieldIndex + 1) values := by
  constructor
  · intro h
    refine ⟨h 0 value rfl, fun i v hv hne => ?_⟩
    have hnext := h (i + 1) v hv hne
    rwa [← next_position] at hnext
  · rintro ⟨hfirst, hrest⟩ i v hv hne
    cases i with
    | zero =>
      obtain rfl := Option.some.inj hv
      exact hfirst hne
    | succ i =>
      have hnext := hrest i v hv hne
      rwa [next_position] at hnext

/-- A value that is compared ends the comparison or leaves it to the next ones. -/
theorem inBounds_cons_of_ne (hne : value ≠ "") :
    InBounds rule fieldIndex (value :: values) ↔
      ∃ field, rule[fieldIndex]? = some field ∧
        (field = value → InBounds rule (fieldIndex + 1) values) := by
  constructor
  · intro h
    have hlt : fieldIndex < rule.length := by
      by_contra hno
      obtain ⟨j, -, -, hj, -⟩ := h 0 value rfl hne (Nat.le_of_not_lt hno)
      exact Nat.not_lt_zero j hj
    refine ⟨rule[fieldIndex], List.getElem?_eq_getElem hlt, fun heq i v hv hne' hlen => ?_⟩
    obtain ⟨j, w, field, hj, hw, hwne, hfield, hdiff⟩ := h (i + 1) v hv hne' (by omega)
    cases j with
    | zero =>
      -- the first field agrees, so it is not the difference
      obtain rfl := Option.some.inj hw
      rw [Nat.add_zero, List.getElem?_eq_getElem hlt, heq] at hfield
      exact absurd (Option.some.inj hfield).symm hdiff
    | succ j =>
      rw [← next_position] at hfield
      exact ⟨j, w, field, by omega, hw, hwne, hfield, hdiff⟩
  · rintro ⟨field, hfield, hrest⟩ i v hv hne' hlen
    cases i with
    | zero =>
      obtain ⟨hlt, -⟩ := List.getElem?_eq_some_iff.mp hfield
      omega
    | succ i =>
      by_cases heq : field = value
      · obtain ⟨j, w, field', hj, hw, hwne, hfield', hdiff⟩ := hrest heq i v hv hne' (by omega)
        rw [next_position] at hfield'
        exact ⟨j + 1, w, field', by omega, hw, hwne, hfield', hdiff⟩
      · exact ⟨0, value, field, Nat.succ_pos i, rfl, hne, hfield, heq⟩

theorem inBounds_cons_empty :
    InBounds rule fieldIndex ("" :: values) ↔ InBounds rule (fieldIndex + 1) values := by
  constructor
  · intro h i v hv hne hlen
    obtain ⟨j, w, field, hj, hw, hwne, hfield, hdiff⟩ := h (i + 1) v hv hne (by omega)
    cases j with
    | zero => exact absurd (Option.some.inj hw).symm hwne
    | succ j =>
      rw [← next_position] at hfield
      exact ⟨j, w, field, by omega, hw, hwne, hfield, hdiff⟩
  · intro h i v hv hne hlen
    cases i with
    | zero => exact absurd (Option.some.inj hv).symm hne
    | succ i =>
      obtain ⟨j, w, field, hj, hw, hwne, hfield, hdiff⟩ := h i v hv hne (by omega)
      rw [next_position] at hfield
      exact ⟨j + 1, w, field, by omega, hw, hwne, hfield, hdiff⟩

/-- **The comparison.** It returns for the rules in bounds, and then tells which of them match. -/
theorem matchFields_eq (rule : Rule) (fieldIndex : Nat) (values : List String) :
    ((matchFields rule fieldIndex values).isSome ↔ InBounds rule fieldIndex values) ∧
      ∀ b, matchFields rule fieldIndex values = some b →
        (b = true ↔ Matches rule fieldIndex values) := by
  induction values generalizing fieldIndex with
  | nil =>
    refine ⟨⟨fun _ => inBounds_nil, fun _ => rfl⟩, fun b hb => ?_⟩
    rw [← Option.some.inj hb]
    exact ⟨fun _ => matches_nil, fun _ => rfl⟩
  | cons value values ih =>
    obtain ⟨hbounds, hmatches⟩ := ih (fieldIndex + 1)
    rw [matchFields, matches_cons]
    by_cases hempty : value = ""
    · rw [if_pos (by rw [hempty]; rfl), hempty, inBounds_cons_empty]
      exact ⟨hbounds, fun b hb => (hmatches b hb).trans
        ⟨fun h => ⟨fun hne => absurd rfl hne, h⟩, And.right⟩⟩
    · have hne : ¬value.isEmpty = true := by simpa using hempty
      rw [if_neg hne, inBounds_cons_of_ne hempty]
      cases hfield : rule[fieldIndex]? with
      | none =>
        refine ⟨⟨fun h => (by cases h), ?_⟩, fun b hb => (by cases hb)⟩
        rintro ⟨field, hsome, -⟩
        cases hsome
      | some field =>
        dsimp only
        by_cases heq : field = value
        · rw [if_neg (fun hdiff => hdiff heq)]
          constructor
          · rw [hbounds]
            refine ⟨fun h => ⟨field, rfl, fun _ => h⟩, ?_⟩
            rintro ⟨field', hsome, h⟩
            exact h ((Option.some.inj hsome).symm.trans heq)
          · exact fun b hb => (hmatches b hb).trans
              ⟨fun h => ⟨fun _ => by rw [heq], h⟩, And.right⟩
        · rw [if_pos heq]
          constructor
          · exact ⟨fun _ => ⟨field, rfl, fun h => absurd h heq⟩, fun _ => rfl⟩
          · intro b hb
            rw [← Option.some.inj hb]
            exact ⟨fun h => (by cases h), fun h => absurd (Option.some.inj (h.1 hempty)) heq⟩

/-- What is asked of the two filtered operations. -/
structure FilteredExact (m : DefaultModel) (sec ptype : String) (fieldIndex : Nat)
    (fieldValues : List String) : Prop where
  get : m.getFilteredPolicy sec ptype fieldIndex fieldValues =
    some (m.matching sec ptype fieldIndex fieldValues)
  remove : ∃ m' res removed,
    m.removeFilteredPolicy sec ptype fieldIndex fieldValues = some (m', res, removed) ∧
    (fieldValues = [] → m' = m ∧ res = false ∧ removed = []) ∧
    (fieldValues ≠ [] →
      removed = m.matching sec ptype fieldIndex fieldValues ∧
      res = !removed.isEmpty ∧
      (m'.rules sec ptype).toList =
        (m.rules sec ptype).toList.filter fun r => ¬Matches r fieldIndex fieldValues) ∧
    (∀ s t, m'.definition s t = m.definition s t) ∧
    ∀ s t, ¬(s = sec ∧ t = ptype) → m'.rules s t = m.rules s t

/-- The filter of the code, over rules that are all in bounds. -/
theorem filter_matchFields {rules : List Rule} (fieldIndex : Nat) (fieldValues : List String)
    (h : ∀ r ∈ rules, InBounds r fieldIndex fieldValues) :
    (rules.filter fun r => matchFields r fieldIndex fieldValues = some true) =
      rules.filter fun r => Matches r fieldIndex fieldValues := by
  apply List.filter_congr
  intro r hr
  obtain ⟨hbounds, hmatches⟩ := matchFields_eq r fieldIndex fieldValues
  obtain ⟨b, hb⟩ := Option.isSome_iff_exists.mp (hbounds.mpr (h r hr))
  apply decide_eq_decide.mpr
  rw [hb, Option.some.injEq]
  exact hmatches b hb

/-- **Filtered lookup and removal.** Both return, and are exact, just when the comparison stays
    within every rule of the type. -/
theorem filtered_exact_iff (m : DefaultModel) (sec ptype : String) (fieldIndex : Nat)
    (fieldValues : List String) :
    FilteredExact m sec ptype fieldIndex fieldValues ↔
      ∀ r ∈ m.rules sec ptype, InBounds r fieldIndex fieldValues := by
  cases hast : m.assertion sec ptype with
  | none =>
    -- no such definition: nothing matches and nothing is removed
    have hrules : m.rules sec ptype = LinkedSet.empty := by rw [rules, hast]; rfl
    rw [hrules]
    refine ⟨fun _ r hr => absurd hr (LinkedSet.not_mem_empty r), fun _ => ⟨?_, ?_⟩⟩
    · rw [getFilteredPolicy, hast, matching, hrules]
      rfl
    · refine ⟨m, false, [], ?_, fun _ => ⟨rfl, rfl, rfl⟩, fun _ => ?_, fun _ _ => rfl,
        fun _ _ _ => rfl⟩
      · rw [removeFilteredPolicy, hast]
        exact ite_self _
      · rw [matching, hrules]
        exact ⟨rfl, rfl, rfl⟩
  | some ast =>
    have hrules := m.rules_of_assertion sec ptype hast
    have hdef : (m.assertion sec ptype).isSome := by rw [hast]; rfl
    have hget : m.getFilteredPolicy sec ptype fieldIndex fieldValues =
        ast.policy.toList.filterM fun r => matchFields r fieldIndex fieldValues := by
      rw [getFilteredPolicy, hast]
    constructor
    -- a rule the filter reaches beyond its end panics, so an answer means none is short
    · rintro ⟨hexact, -⟩ r hr
      rw [hget, filterM_eq_some_iff] at hexact
      rw [hrules] at hr
      exact (matchFields_eq r fieldIndex fieldValues).1.mp (hexact.1 r hr)
    · intro hall
      rw [hrules] at hall
      have hsame := filter_matchFields fieldIndex fieldValues hall
      have hfilter := (filterM_eq_some_iff (fun r => matchFields r fieldIndex fieldValues)
        ast.policy.toList _).mpr
          ⟨fun r hr => (matchFields_eq r fieldIndex fieldValues).1.mpr (hall r hr), rfl⟩
      have hmatching : m.matching sec ptype fieldIndex fieldValues =
          ast.policy.toList.filter fun r => Matches r fieldIndex fieldValues := by
        rw [matching, hrules]
      rw [hsame, ← hmatching] at hfilter
      refine ⟨by rw [hget, hfilter], ?_⟩
      -- an empty filter is refused before the rules are looked at
      by_cases hempty : fieldValues = []
      · refine ⟨m, false, [], ?_, fun _ => ⟨rfl, rfl, rfl⟩, fun hne => absurd hempty hne,
          fun _ _ => rfl, fun _ _ _ => rfl⟩
        rw [removeFilteredPolicy, hempty]
        rfl
      · refine ⟨m.modifyPolicy sec ptype (·.removeAll (m.matching sec ptype fieldIndex fieldValues)),
          !(m.matching sec ptype fieldIndex fieldValues).isEmpty,
          m.matching sec ptype fieldIndex fieldValues, ?_, fun h => absurd h hempty,
          fun _ => ⟨rfl, rfl, ?_⟩, fun s t => m.definition_modifyPolicy sec ptype _ s t,
          fun s t hother => ?_⟩
        · rw [removeFilteredPolicy, if_neg (by simpa using hempty), hast]
          dsimp only
          rw [hfilter]
          rfl
        · rw [rules_modifyPolicy, if_pos ⟨rfl, rfl, hdef⟩, LinkedSet.toList_removeAll, hrules]
          apply List.filter_congr
          intro r hr
          simp [hmatching, hr]
        · rw [rules_modifyPolicy, if_neg fun h => hother ⟨h.1, h.2.1⟩]

/-- Roles of two fields, the rule of one user in it. -/
def twoFieldRoles : DefaultModel where
  model s :=
    if s = "g" then
      some ⟨[("g", ⟨"_, _", [], ⟨[["alice", "admin"]], List.nodup_singleton _⟩⟩)],
        List.nodup_singleton _⟩
    else none

/-- `delete_roles_for_user` with a domain passes three values, of which the second is empty. -/
theorem filtered_panics :
    ¬∀ (m : DefaultModel) sec ptype fieldIndex fieldValues,
      FilteredExact m sec ptype fieldIndex fieldValues := by
  intro hall
  obtain ⟨-, m', res, removed, hremove, -⟩ :=
    hall twoFieldRoles "g" "g" 0 ["alice", "", "domain1"]
  have hpanic : twoFieldRoles.removeFilteredPolicy "g" "g" 0 ["alice", "", "domain1"] = none := by
    rfl
  rw [hpanic] at hremove
  cases hremove

end DefaultModel

end TeaclaveCrates.Casbin
