import TeaclaveCrates.Casbin.Enforcer
import TeaclaveCrates.Casbin.RoleLinks

namespace TeaclaveCrates.Casbin

open Lib DefaultRoleManager

/-!
# Incremental role links against a full rebuild

With `auto_build_role_links` and the incremental feature, a grouping operation adds or deletes the
links of the rules it was given. This module compares that with `build_role_links`, which starts
again from the rules of the model.

* `ruleLink`, `inducedLinks` — the link of one rule, the links of all grouping rules of a model.
* `links_linkRules`, `links_unlinkRules` — what a whole loop does to the links.
* `InSync` — the role manager holds exactly the links of the model.
* `Run` — runs of grouping operations whose links agree with the rules that stay.
* `incremental_eq_rebuild` — along such a run the answers are those of a rebuild.
-/

variable {G : Type} [RoleGraph G]

variable {A S : Type} {rm rm' : DefaultRoleManager G} {count : Nat} {rules : List Rule}

/-! ### The links of rules -/

/-- The domain and the two roles of a rule, before the check that the roles differ. -/
def ruleTriple (count : Nat) (rule : Rule) : Option (String × String × String) :=
  match count, rule with
  | 2, name1 :: name2 :: _ => some (defaultDomain, name1, name2)
  | 3, name1 :: name2 :: domain :: _ => some (domain, name1, name2)
  | _, _ => none

/-- The link of a rule. A role is never linked to itself. -/
def ruleLink (count : Nat) (rule : Rule) : Option (String × String × String) :=
  (ruleTriple count rule).filter fun l => l.2.1 ≠ l.2.2

variable {rule : Rule}

theorem ruleLink_eq_some {l : String × String × String} :
    ruleLink count rule = some l ↔ ruleTriple count rule = some l ∧ l.2.1 ≠ l.2.2 := by
  simp [ruleLink]

/-- The links of all grouping rules of a model. -/
def inducedLinks (m : DefaultModel) : Set (String × String × String) :=
  {l | ∃ ptype ast, m.assertion "g" ptype = some ast ∧
    ∃ rule ∈ ast.policy, ruleLink ast.underscores rule = some l}

/-- A rule is long enough for a definition of two or three fields. -/
def Fitting (count : Nat) (rule : Rule) : Prop := (count = 2 ∨ count = 3) ∧ count ≤ rule.length

/-- The loop body on a fitting rule calls the role manager once. -/
theorem linkRule_of_fitting (h : Fitting count rule) (insert : Bool) (rm : DefaultRoleManager G) :
    ∃ name1 name2 domain,
      ruleTriple count rule = some (domain.getD defaultDomain, name1, name2) ∧
      linkRule insert count rm rule =
        if insert then (rm.addLink name1 name2 domain, .ok ())
        else rm.deleteLink name1 name2 domain := by
  obtain ⟨hcount | hcount, hlen⟩ := h
  · subst hcount
    match rule, hlen with
    | name1 :: name2 :: rest, hlen =>
      refine ⟨name1, name2, none, rfl, ?_⟩
      rfl
  · subst hcount
    match rule, hlen with
    | name1 :: name2 :: domain :: rest, hlen =>
      refine ⟨name1, name2, some domain, rfl, ?_⟩
      rfl

theorem fitting_of_linkRule_ok {insert : Bool} (hcount : 2 ≤ count)
    (h : linkRule insert count rm rule = (rm', .ok ())) : Fitting count rule := by
  unfold linkRule at h
  by_cases hlen : rule.length < count
  · simp [hlen] at h
  · refine ⟨?_, Nat.not_lt.mp hlen⟩
    by_contra hcon
    rw [not_or] at hcon
    rw [if_neg hlen] at h
    split at h
    · exact hcon.1 rfl
    · exact hcon.2 rfl
    · simp at h

/-! ### The loops -/

theorem eachOk_ok_cons {σ α : Type} {f : σ → α → σ × Except Fault Unit} {s s' : σ} {x : α}
    {xs : List α} (h : eachOk f s (x :: xs) = (s', .ok ())) :
    ∃ s₁, f s x = (s₁, .ok ()) ∧ eachOk f s₁ xs = (s', .ok ()) := by
  rw [eachOk] at h
  cases hx : f s x with
  | mk s₁ res =>
    rw [hx] at h
    cases res with
    | ok u => exact ⟨s₁, rfl, h⟩
    | error e => simp at h

/-- Adding the links of a list of rules. -/
theorem links_linkRules (hcount : 2 ≤ count) (hp : Plain rm)
    (h : eachOk (linkRule true count) rm rules = (rm', .ok ())) :
    Plain rm' ∧ rm'.maxHierarchyLevel = rm.maxHierarchyLevel ∧
      (∀ rule ∈ rules, Fitting count rule) ∧
      ∀ l, l ∈ rm'.links ↔ l ∈ rm.links ∨ ∃ rule ∈ rules, ruleLink count rule = some l := by
  induction rules generalizing rm with
  | nil =>
    obtain ⟨rfl, -⟩ := Prod.mk.inj h
    exact ⟨hp, rfl, by simp, by simp⟩
  | cons rule rules ih =>
    obtain ⟨rm₁, h₁, hrest⟩ := eachOk_ok_cons h
    have hfit := fitting_of_linkRule_ok hcount h₁
    obtain ⟨name1, name2, domain, htriple, hlink⟩ := linkRule_of_fitting hfit true rm
    rw [hlink, if_pos rfl] at h₁
    obtain ⟨rfl, -⟩ := Prod.mk.inj h₁
    obtain ⟨hp', hlevel, hfits, hlinks⟩ := ih (plain_addLink hp) hrest
    refine ⟨hp', by simpa using hlevel, ?_, ?_⟩
    · intro r hr
      rcases List.mem_cons.mp hr with rfl | hr
      · exact hfit
      · exact hfits r hr
    · intro l
      have hhead : (name1 ≠ name2 ∧ l = (domain.getD defaultDomain, name1, name2)) ↔
          ruleLink count rule = some l := by
        rw [ruleLink_eq_some, htriple, Option.some.injEq]
        constructor
        · rintro ⟨hne, rfl⟩
          exact ⟨rfl, hne⟩
        · rintro ⟨rfl, hne⟩
          exact ⟨hne, rfl⟩
      simp [hlinks, links_addLink hp, hhead, exists_eq_or_imp, or_assoc]

/-- Deleting the links of a list of rules. -/
theorem links_unlinkRules (hcount : 2 ≤ count) (hp : Plain rm)
    (h : eachOk (linkRule false count) rm rules = (rm', .ok ())) :
    Plain rm' ∧ rm'.maxHierarchyLevel = rm.maxHierarchyLevel ∧
      ∀ l, l ∈ rm'.links ↔ l ∈ rm.links ∧ ∀ rule ∈ rules, ruleTriple count rule ≠ some l := by
  induction rules generalizing rm with
  | nil =>
    obtain ⟨rfl, -⟩ := Prod.mk.inj h
    exact ⟨hp, rfl, by simp⟩
  | cons rule rules ih =>
    obtain ⟨rm₁, h₁, hrest⟩ := eachOk_ok_cons h
    have hfit := fitting_of_linkRule_ok hcount h₁
    obtain ⟨name1, name2, domain, htriple, hlink⟩ := linkRule_of_fitting hfit false rm
    rw [hlink, if_neg Bool.false_ne_true] at h₁
    obtain ⟨hp', hlevel, hlinks⟩ := ih (plain_deleteLink hp h₁) hrest
    refine ⟨hp', hlevel.trans (maxHierarchyLevel_deleteLink h₁), ?_⟩
    intro l
    simp [hlinks, links_deleteLink hp h₁, htriple, ne_eq, and_assoc,
      @eq_comm _ (domain.getD defaultDomain, name1, name2) l]

/-- The loop succeeds on fitting rules. -/
theorem eachOk_linkRule_ok (rm : DefaultRoleManager G) (h : ∀ rule ∈ rules, Fitting count rule) :
    ∃ rm', eachOk (linkRule true count) rm rules = (rm', .ok ()) := by
  induction rules generalizing rm with
  | nil => exact ⟨rm, rfl⟩
  | cons rule rules ih =>
    obtain ⟨name1, name2, domain, -, hlink⟩ :=
      linkRule_of_fitting (h rule List.mem_cons_self) true rm
    obtain ⟨rm', hrm'⟩ := ih (rm.addLink name1 name2 domain) fun r hr =>
      h r (List.mem_cons_of_mem rule hr)
    refine ⟨rm', ?_⟩
    rw [eachOk, hlink]
    exact hrm'

/-! ### A full rebuild -/

/-- The definitions and rules of every grouping type fit together. -/
def GroupingsFit (m : DefaultModel) : Prop :=
  ∀ ptype ast, m.assertion "g" ptype = some ast →
    (ast.underscores = 2 ∨ ast.underscores = 3) ∧
      ∀ rule ∈ ast.policy, ast.underscores ≤ rule.length

variable {es : List (String × Assertion)}

/-- The loop over the assertions adds the links of each. -/
theorem links_buildAssertions (hp : Plain rm)
    (h : eachOk (fun (rm : DefaultRoleManager G) (e : String × Assertion) => e.2.buildRoleLinks rm)
      rm es = (rm', .ok ())) :
    Plain rm' ∧ rm'.maxHierarchyLevel = rm.maxHierarchyLevel ∧
      (∀ e ∈ es, ∀ rule ∈ e.2.policy, Fitting e.2.underscores rule) ∧
      ∀ l, l ∈ rm'.links ↔ l ∈ rm.links ∨
        ∃ e ∈ es, ∃ rule ∈ e.2.policy, ruleLink e.2.underscores rule = some l := by
  induction es generalizing rm with
  | nil =>
    obtain ⟨rfl, -⟩ := Prod.mk.inj h
    exact ⟨hp, rfl, by simp, by simp⟩
  | cons e es ih =>
    obtain ⟨rm₁, h₁, hrest⟩ := eachOk_ok_cons h
    rw [Assertion.buildRoleLinks, Assertion.linkRules] at h₁
    by_cases hcount : e.2.underscores < 2
    · simp [hcount] at h₁
    · rw [if_neg hcount] at h₁
      obtain ⟨hp₁, hlevel₁, hfit₁, hlinks₁⟩ := links_linkRules (Nat.not_lt.mp hcount) hp h₁
      obtain ⟨hp', hlevel', hfit', hlinks'⟩ := ih hp₁ hrest
      refine ⟨hp', hlevel'.trans hlevel₁, ?_, ?_⟩
      · intro e' he'
        rcases List.mem_cons.mp he' with rfl | he'
        · exact hfit₁
        · exact hfit' e' he'
      · intro l
        rw [hlinks', hlinks₁]
        simp only [List.mem_cons, exists_eq_or_imp, or_assoc, LinkedSet.mem_def]

theorem eachOk_buildAssertions_ok (rm : DefaultRoleManager G)
    (h : ∀ e ∈ es, (e.2.underscores = 2 ∨ e.2.underscores = 3) ∧
      ∀ rule ∈ e.2.policy, e.2.underscores ≤ rule.length) :
    ∃ rm', eachOk
      (fun (rm : DefaultRoleManager G) (e : String × Assertion) => e.2.buildRoleLinks rm)
      rm es = (rm', .ok ()) := by
  induction es generalizing rm with
  | nil => exact ⟨rm, rfl⟩
  | cons e es ih =>
    obtain ⟨hcount, hlen⟩ := h e List.mem_cons_self
    obtain ⟨rm₁, h₁⟩ := eachOk_linkRule_ok rm fun rule hrule => ⟨hcount, hlen rule hrule⟩
    obtain ⟨rm', h'⟩ := ih rm₁ fun e' he' => h e' (List.mem_cons_of_mem e he')
    refine ⟨rm', ?_⟩
    have hbuild : e.2.buildRoleLinks rm = (rm₁, .ok ()) := by
      rw [Assertion.buildRoleLinks, Assertion.linkRules, if_neg (by omega)]
      exact h₁
    simp only [eachOk, hbuild]
    exact h'

/-- The assertions of the grouping section, found by looking up or by walking through. -/
theorem assertion_g_iff {m : DefaultModel} {asts : AssertionMap} (hm : m.model "g" = some asts)
    (ptype : String) (ast : Assertion) :
    m.assertion "g" ptype = some ast ↔ (ptype, ast) ∈ asts.entries := by
  simp [DefaultModel.assertion, hm, LinkedMap.get?_eq_some_iff]

/-- `build_role_links` adds exactly the links of the model. -/
theorem links_buildRoleLinks {m : DefaultModel} (hp : Plain rm)
    (h : m.buildRoleLinks rm = (rm', .ok ())) :
    Plain rm' ∧ rm'.maxHierarchyLevel = rm.maxHierarchyLevel ∧
      (∀ ptype ast, m.assertion "g" ptype = some ast →
        ∀ rule ∈ ast.policy, Fitting ast.underscores rule) ∧
      ∀ l, l ∈ rm'.links ↔ l ∈ rm.links ∨ l ∈ inducedLinks m := by
  rw [DefaultModel.buildRoleLinks] at h
  cases hm : m.model "g" with
  | none =>
    rw [hm] at h
    obtain ⟨rfl, -⟩ := Prod.mk.inj h
    have hnone : ∀ ptype, m.assertion "g" ptype = none := by
      simp [DefaultModel.assertion, hm]
    refine ⟨hp, rfl, ?_, ?_⟩
    · intro ptype ast hast
      simp [hnone] at hast
    · simp [inducedLinks, hnone]
  | some asts =>
    rw [hm] at h
    obtain ⟨hp', hlevel, hfit, hlinks⟩ := links_buildAssertions hp h
    refine ⟨hp', hlevel, ?_, ?_⟩
    · intro ptype ast hast
      exact hfit (ptype, ast) ((assertion_g_iff hm ptype ast).mp hast)
    · intro l
      rw [hlinks]
      refine or_congr_right ?_
      constructor
      · rintro ⟨⟨ptype, ast⟩, he, rule, hrule, hl⟩
        exact ⟨ptype, ast, (assertion_g_iff hm ptype ast).mpr he, rule, hrule, hl⟩
      · rintro ⟨ptype, ast, hast, rule, hrule, hl⟩
        exact ⟨(ptype, ast), (assertion_g_iff hm ptype ast).mp hast, rule, hrule, hl⟩

theorem buildRoleLinks_ok {m : DefaultModel} (rm : DefaultRoleManager G) (h : GroupingsFit m) :
    ∃ rm', m.buildRoleLinks rm = (rm', .ok ()) := by
  rw [DefaultModel.buildRoleLinks]
  cases hm : m.model "g" with
  | none => exact ⟨rm, rfl⟩
  | some asts =>
    apply eachOk_buildAssertions_ok
    intro e he
    exact h e.1 e.2 ((assertion_g_iff hm e.1 e.2).mpr he)

/-! ### One operation on the model -/

/-- A change of the rules of one grouping type: an addition keeps the rules and adds none but the
    given ones, a removal takes none but the given ones away. -/
structure RulesChange (m m' : DefaultModel) (ptype : String) (insert : Bool) (rules : List Rule) :
    Prop where
  other : ∀ t, t ≠ ptype → m'.assertion "g" t = m.assertion "g" t
  undefined : m.assertion "g" ptype = none → m'.assertion "g" ptype = none
  defined : ∀ ast, m.assertion "g" ptype = some ast →
    ∃ policy, m'.assertion "g" ptype = some { ast with policy := policy } ∧
      if insert then (∀ r ∈ ast.policy, r ∈ policy) ∧ ∀ r ∈ policy, r ∈ ast.policy ∨ r ∈ rules
      else (∀ r ∈ policy, r ∈ ast.policy) ∧ ∀ r ∈ ast.policy, r ∈ policy ∨ r ∈ rules

theorem rulesChange_refl (m : DefaultModel) (ptype : String) (insert : Bool) (rules : List Rule) :
    RulesChange m m ptype insert rules where
  other _ _ := rfl
  undefined h := h
  defined ast h := by
    refine ⟨ast.policy, h, ?_⟩
    cases insert
    · exact ⟨fun _ hr => hr, fun _ hr => Or.inl hr⟩
    · exact ⟨fun _ hr => hr, fun _ hr => Or.inl hr⟩

theorem rulesChange_modifyPolicy (m : DefaultModel) (ptype : String) (insert : Bool)
    (rules : List Rule) (f : LinkedSet Rule → LinkedSet Rule)
    (h : ∀ P : LinkedSet Rule, if insert then (∀ r ∈ P, r ∈ f P) ∧ ∀ r ∈ f P, r ∈ P ∨ r ∈ rules
      else (∀ r ∈ f P, r ∈ P) ∧ ∀ r ∈ P, r ∈ f P ∨ r ∈ rules) :
    RulesChange m (m.modifyPolicy "g" ptype f) ptype insert rules where
  other t ht := by
    rw [DefaultModel.assertion_modifyPolicy, if_neg fun hh => ht hh.2]
  undefined hnone := by
    rw [DefaultModel.assertion_modifyPolicy, if_pos ⟨rfl, rfl⟩, hnone]
    rfl
  defined ast hast := by
    refine ⟨f ast.policy, ?_, h ast.policy⟩
    rw [DefaultModel.assertion_modifyPolicy, if_pos ⟨rfl, rfl⟩, hast]
    rfl

/-- The grouping operations. -/
inductive GroupingOp where
  | add (ptype : String) (rule : Rule)
  | addAll (ptype : String) (rules : List Rule)
  | remove (ptype : String) (rule : Rule)
  | removeAll (ptype : String) (rules : List Rule)
  | removeFiltered (ptype : String) (fieldIndex : Nat) (fieldValues : List String)

namespace GroupingOp

/-- The type of the rules. -/
def ptype : GroupingOp → String
  | add ptype _ | addAll ptype _ | remove ptype _ | removeAll ptype _ | removeFiltered ptype _ _ =>
    ptype

/-- Whether rules are added. -/
def insert : GroupingOp → Bool
  | add _ _ | addAll _ _ => true
  | _ => false

/-- The model after the operation. -/
def modelAfter (op : GroupingOp) (m : DefaultModel) : DefaultModel :=
  match op with
  | add ptype rule => (m.addPolicy "g" ptype rule).1
  | addAll ptype rules => (m.addPolicies "g" ptype rules).1
  | remove ptype rule => (m.removePolicy "g" ptype rule).1
  | removeAll ptype rules => (m.removePolicies "g" ptype rules).1
  | removeFiltered ptype fieldIndex fieldValues =>
    ((m.removeFilteredPolicy "g" ptype fieldIndex fieldValues).map Prod.fst).getD m

/-- The rules whose links the operation adds or deletes, whatever it does to the model. -/
def linked (op : GroupingOp) (m : DefaultModel) : List Rule :=
  match op with
  | add _ rule | remove _ rule => [rule]
  | addAll _ rules | removeAll _ rules => rules
  | removeFiltered ptype fieldIndex fieldValues =>
    ((m.removeFilteredPolicy "g" ptype fieldIndex fieldValues).map fun x => x.2.2).getD []

private theorem removal (P : LinkedSet Rule) (rules : List Rule) :
    if false = true then (∀ r ∈ P, r ∈ P.removeAll rules) ∧
      ∀ r ∈ P.removeAll rules, r ∈ P ∨ r ∈ rules
    else (∀ r ∈ P.removeAll rules, r ∈ P) ∧ ∀ r ∈ P, r ∈ P.removeAll rules ∨ r ∈ rules := by
  simp only [LinkedSet.mem_removeAll]
  refine ⟨fun r hr => hr.2, fun r hr => ?_⟩
  by_cases h : r ∈ rules
  · exact Or.inr h
  · exact Or.inl ⟨h, hr⟩

/-- Every operation changes the rules of its type in the direction of its links. -/
theorem rulesChange (op : GroupingOp) (m : DefaultModel) :
    RulesChange m (op.modelAfter m) op.ptype op.insert (op.linked m) := by
  cases op with
  | add ptype rule =>
    show RulesChange m (m.addPolicy "g" ptype rule).1 ptype true [rule]
    unfold DefaultModel.addPolicy
    split
    · refine rulesChange_modifyPolicy m ptype true [rule] (·.insert rule) fun P => ?_
      simp only [if_true, LinkedSet.mem_insert, List.mem_singleton]
      exact ⟨fun r hr => Or.inr hr, fun r hr => hr.symm⟩
    · exact rulesChange_refl ..
  | addAll ptype rules =>
    show RulesChange m (m.addPolicies "g" ptype rules).1 ptype true rules
    unfold DefaultModel.addPolicies
    split
    · split
      · exact rulesChange_refl ..
      · refine rulesChange_modifyPolicy m ptype true rules (·.extend rules) fun P => ?_
        simp only [if_true, LinkedSet.mem_extend]
        exact ⟨fun r hr => Or.inr hr, fun r hr => hr.symm⟩
    · exact rulesChange_refl ..
  | remove ptype rule =>
    show RulesChange m (m.removePolicy "g" ptype rule).1 ptype false [rule]
    unfold DefaultModel.removePolicy
    split
    · exact rulesChange_modifyPolicy m ptype false [rule] (·.removeAll [rule]) fun P =>
        removal P [rule]
    · exact rulesChange_refl ..
  | removeAll ptype rules =>
    show RulesChange m (m.removePolicies "g" ptype rules).1 ptype false rules
    unfold DefaultModel.removePolicies
    split
    · split
      · exact rulesChange_modifyPolicy m ptype false rules (·.removeAll rules) fun P =>
          removal P rules
      · exact rulesChange_refl ..
    · exact rulesChange_refl ..
  | removeFiltered ptype fieldIndex fieldValues =>
    show RulesChange m
      (((m.removeFilteredPolicy "g" ptype fieldIndex fieldValues).map Prod.fst).getD m) ptype false
      (((m.removeFilteredPolicy "g" ptype fieldIndex fieldValues).map fun x => x.2.2).getD [])
    unfold DefaultModel.removeFilteredPolicy
    split
    · exact rulesChange_refl ..
    · split
      · exact rulesChange_refl ..
      · rename_i ast _
        cases hf : ast.policy.toList.filterM fun r =>
            DefaultModel.matchFields r fieldIndex fieldValues with
        | none => exact rulesChange_refl ..
        | some removed =>
          exact rulesChange_modifyPolicy m ptype false removed (·.removeAll removed) fun P =>
            removal P removed

/-! ### One operation on the enforcer -/

section Apply

variable [Adapter A]

/-- The operation on an enforcer with the incremental feature. -/
def apply (op : GroupingOp) (e : Enforcer A (DefaultRoleManager G) S) :
    Enforcer A (DefaultRoleManager G) S × Except Fault Unit :=
  match op with
  | add ptype rule => (addPolicyInternal true e "g" ptype rule).map id (Except.map fun _ => ())
  | addAll ptype rules =>
    (addPoliciesInternal true e "g" ptype rules).map id (Except.map fun _ => ())
  | remove ptype rule => (removePolicyInternal true e "g" ptype rule).map id (Except.map fun _ => ())
  | removeAll ptype rules =>
    (removePoliciesInternal true e "g" ptype rules).map id (Except.map fun _ => ())
  | removeFiltered ptype fieldIndex fieldValues =>
    (removeFilteredPolicyInternal true e "g" ptype fieldIndex fieldValues).map id
      (Except.map fun _ => ())

/-- The same operation on the adapter. -/
def save (op : GroupingOp) (a : A) : A × Except Fault Bool :=
  match op with
  | add ptype rule => Adapter.addPolicy a "g" ptype rule
  | addAll ptype rules => Adapter.addPolicies a "g" ptype rules
  | remove ptype rule => Adapter.removePolicy a "g" ptype rule
  | removeAll ptype rules => Adapter.removePolicies a "g" ptype rules
  | removeFiltered ptype fieldIndex fieldValues =>
    Adapter.removeFilteredPolicy a "g" ptype fieldIndex fieldValues

/-- The operation gets past the adapter: `auto_save` is off, or the adapter agrees. -/
def Accepted (op : GroupingOp) (e : Enforcer A (DefaultRoleManager G) S) : Prop :=
  e.autoSave = false ∨ (op.save e.adapter).2 = .ok true

/-- What a successful call has done: nothing but ask the adapter, or the change of the model
    followed by the links of the rules. -/
def Outcome (op : GroupingOp) (e e' : Enforcer A (DefaultRoleManager G) S) : Prop :=
  (∃ a, e' = { e with adapter := a }) ∨
    (op.Accepted e ∧ ∃ a d rm', d.parts = ("g", op.ptype, op.insert, op.linked e.model) ∧
      (op.modelAfter e.model).buildIncrementalRoleLinks (e.rms e.rm) d = (rm', .ok ()) ∧
      e' = { e with adapter := a, model := op.modelAfter e.model }.setRm rm')

variable {e e' : Enforcer A (DefaultRoleManager G) S}

omit [RoleGraph G] [Adapter A] in
/-- The three ways through the adapter. -/
theorem autoSaved_cases (e : Enforcer A (DefaultRoleManager G) S)
    (save : A → A × Except Fault Bool) :
    ∃ a res, autoSaved e save = ({ e with adapter := a }, res) ∧
      (res = .ok true → e.autoSave = false ∨ (save e.adapter).2 = .ok true) := by
  unfold autoSaved
  by_cases h : e.autoSave
  · refine ⟨(save e.adapter).1, (save e.adapter).2, ?_, fun hres => Or.inr hres⟩
    simp [IEnforcer.get, IEnforcer.set, h]
  · refine ⟨e.adapter, .ok true, ?_, fun _ => Or.inl (by simpa using h)⟩
    simp only [IEnforcer.get]
    rw [if_neg h]

omit [Adapter A] in
/-- The links after a change of the model, on a plain enforcer. -/
theorem afterChange_g (e : Enforcer A (DefaultRoleManager G) S)
    (hauto : e.autoBuildRoleLinks = true)
    (changed : Bool) (d : EventData) :
    afterChange true e "g" changed d =
      (e.setRm (e.model.buildIncrementalRoleLinks (e.rms e.rm) d).1,
        (e.model.buildIncrementalRoleLinks (e.rms e.rm) d).2) := by
  have hclear : (if changed then IEnforcer.clearCache e else e) = e := by
    split <;> rfl
  simp [afterChange, hclear, IEnforcer.get, hauto, IEnforcer.set,
    Enforcer.buildIncrementalRoleLinks]

omit [Adapter A] in
theorem changeInternal_ok {sv : A → A × Except Fault Bool}
    {change : DefaultModel → DefaultModel × Bool} {d : EventData} {r : Except Fault Bool}
    (hauto : e.autoBuildRoleLinks = true)
    (h : (changeInternal true e "g" sv change d) = (e', r)) (hr : r.map (fun _ => ()) = .ok ()) :
    (∃ a, e' = { e with adapter := a }) ∨
      ((e.autoSave = false ∨ (sv e.adapter).2 = .ok true) ∧ ∃ a rm',
        (change e.model).1.buildIncrementalRoleLinks (e.rms e.rm) d = (rm', .ok ()) ∧
        e' = { e with adapter := a, model := (change e.model).1 }.setRm rm') := by
  obtain ⟨a, res, hsaved, haccept⟩ := autoSaved_cases e sv
  rw [changeInternal, hsaved] at h
  rcases res with err | ⟨_ | _⟩
  · obtain ⟨-, rfl⟩ := Prod.mk.inj h
    simp [Except.map] at hr
  · obtain ⟨rfl, -⟩ := Prod.mk.inj h
    exact Or.inl ⟨a, rfl⟩
  · refine Or.inr ⟨haccept rfl, a, ?_⟩
    simp only [IEnforcer.get, IEnforcer.set] at h
    rw [afterChange_g _ (by exact hauto)] at h
    cases hbuild : (change e.model).1.buildIncrementalRoleLinks (e.rms e.rm) d with
    | mk rm' res =>
      rw [hbuild] at h
      cases res with
      | ok u =>
        obtain ⟨rfl, -⟩ := Prod.mk.inj h
        exact ⟨rm', rfl, rfl⟩
      | error err =>
        obtain ⟨-, rfl⟩ := Prod.mk.inj h
        simp [Except.map] at hr

theorem outcome_of_apply (op : GroupingOp) (hauto : e.autoBuildRoleLinks = true)
    (h : op.apply e = (e', .ok ())) : op.Outcome e e' := by
  have hfinish : ∀ (sv : A → A × Except Fault Bool) (change : DefaultModel → DefaultModel × Bool)
      (d : EventData), op.save = sv → op.modelAfter e.model = (change e.model).1 →
      d.parts = ("g", op.ptype, op.insert, op.linked e.model) →
      (changeInternal true e "g" sv change d).map id (Except.map fun _ => ()) = (e', .ok ()) →
      op.Outcome e e' := by
    intro sv change d hsave hafter hparts hrun
    rw [Prod.map, Prod.mk.injEq] at hrun
    rcases changeInternal_ok hauto (Prod.ext hrun.1 rfl) hrun.2 with hleft | ⟨hacc, a, rm', hb, he⟩
    · exact Or.inl hleft
    · refine Or.inr ⟨?_, a, d, rm', hparts, ?_, ?_⟩
      · rw [Accepted, hsave]
        exact hacc
      · rw [hafter]
        exact hb
      · rw [hafter]
        exact he
  cases op with
  | add ptype rule =>
    exact hfinish (fun a => Adapter.addPolicy a "g" ptype rule) (fun m => m.addPolicy "g" ptype rule)
      (.addPolicy "g" ptype rule) rfl rfl rfl h
  | addAll ptype rules =>
    exact hfinish (fun a => Adapter.addPolicies a "g" ptype rules) (fun m => m.addPolicies "g" ptype rules)
      (.addPolicies "g" ptype rules) rfl rfl rfl h
  | remove ptype rule =>
    exact hfinish (fun a => Adapter.removePolicy a "g" ptype rule) (fun m => m.removePolicy "g" ptype rule)
      (.removePolicy "g" ptype rule) rfl rfl rfl h
  | removeAll ptype rules =>
    exact hfinish (fun a => Adapter.removePolicies a "g" ptype rules) (fun m => m.removePolicies "g" ptype rules)
      (.removePolicies "g" ptype rules) rfl rfl rfl h
  | removeFiltered ptype fieldIndex fieldValues =>
    -- the filtered removal has a body of its own
    rw [apply, Prod.map, Prod.mk.injEq, removeFilteredPolicyInternal] at h
    obtain ⟨a, res, hsaved, haccept⟩ := autoSaved_cases e
      fun a => Adapter.removeFilteredPolicy a "g" ptype fieldIndex fieldValues
    rw [hsaved] at h
    rcases res with err | ⟨_ | _⟩
    · simp [Except.map] at h
    · exact Or.inl ⟨a, h.1.symm⟩
    · refine Or.inr ⟨haccept rfl, a, ?_⟩
      simp only [IEnforcer.get, IEnforcer.set] at h
      cases hrem : e.model.removeFilteredPolicy "g" ptype fieldIndex fieldValues with
      | none =>
        rw [hrem] at h
        simp [Except.map] at h
      | some x =>
        obtain ⟨m, removed, rules⟩ := x
        rw [hrem] at h
        simp only at h
        rw [afterChange_g _ (by exact hauto)] at h
        have hafter : (removeFiltered ptype fieldIndex fieldValues).modelAfter e.model = m := by
          simp [modelAfter, hrem]
        have hlinked : (removeFiltered ptype fieldIndex fieldValues).linked e.model = rules := by
          simp [linked, hrem]
        rw [hafter, hlinked]
        cases hbuild : m.buildIncrementalRoleLinks (e.rms e.rm)
            (.removeFilteredPolicy "g" ptype rules) with
        | mk rm' res =>
          rw [hbuild] at h
          cases res with
          | ok u => exact ⟨_, rm', rfl, hbuild, h.1.symm⟩
          | error err => simp [Except.map] at h

/-- The links that an operation touches agree with the rules: after an addition each of them is the
    link of a rule that is there, after a removal none of them is the link of a rule that stays. -/
def LinksAgree (op : GroupingOp) (e : Enforcer A (DefaultRoleManager G) S) : Prop :=
  op.Accepted e → ∀ ast, e.model.assertion "g" op.ptype = some ast →
    ∀ rule ∈ op.linked e.model, ∀ l, ruleLink ast.underscores rule = some l →
      if op.insert then l ∈ inducedLinks (op.modelAfter e.model)
      else l ∉ inducedLinks (op.modelAfter e.model)

omit [RoleGraph G] in
/-- Adding a single rule always agrees: the rule is there afterwards. -/
theorem linksAgree_add (ptype : String) (rule : Rule) (e : Enforcer A (DefaultRoleManager G) S) :
    (add ptype rule).LinksAgree e := by
  intro _ ast hast r hr l hl
  rw [linked, List.mem_singleton] at hr
  subst hr
  show l ∈ inducedLinks (e.model.addPolicy "g" ptype r).1
  have hast' : e.model.assertion "g" ptype = some ast := hast
  refine ⟨ptype, { ast with policy := ast.policy.insert r }, ?_, r, by simp, hl⟩
  simp [DefaultModel.addPolicy, hast', DefaultModel.assertion_modifyPolicy]

end Apply

end GroupingOp

/-! ### The invariant -/

/-- The role manager in use holds exactly the links of the grouping rules. -/
structure InSync (e : Enforcer A (DefaultRoleManager G) S) : Prop where
  auto : e.autoBuildRoleLinks = true
  plain : Plain (e.rms e.rm)
  fits : GroupingsFit e.model
  links : ∀ l, l ∈ (e.rms e.rm).links ↔ l ∈ inducedLinks e.model

section Model

variable {m m' : DefaultModel} {ptype : String} {insert : Bool}

/-- A change of rules keeps the definition of every grouping type. -/
theorem RulesChange.assertion (h : RulesChange m m' ptype insert rules) {t : String}
    {ast' : Assertion} (hast' : m'.assertion "g" t = some ast') :
    ∃ ast, m.assertion "g" t = some ast ∧ ast'.underscores = ast.underscores ∧
      ∀ r ∈ ast'.policy, r ∈ ast.policy ∨ t = ptype ∧ insert = true ∧ r ∈ rules := by
  by_cases ht : t = ptype
  · subst ht
    cases hast : m.assertion "g" t with
    | none =>
      rw [h.undefined hast] at hast'
      simp at hast'
    | some ast =>
      obtain ⟨policy, hpolicy, hmem⟩ := h.defined ast hast
      rw [hpolicy, Option.some.injEq] at hast'
      subst hast'
      refine ⟨ast, rfl, rfl, fun r hr => ?_⟩
      cases insert with
      | true =>
        rcases hmem.2 r hr with h | h
        · exact Or.inl h
        · exact Or.inr ⟨rfl, rfl, h⟩
      | false => exact Or.inl (hmem.1 r hr)
  · rw [h.other t ht] at hast'
    exact ⟨ast', hast', rfl, fun r hr => Or.inl hr⟩

/-- The other way: a rule stays, or it is one that a removal was given. -/
theorem RulesChange.kept (h : RulesChange m m' ptype insert rules) {t : String} {ast : Assertion}
    (hast : m.assertion "g" t = some ast) :
    ∃ ast', m'.assertion "g" t = some ast' ∧ ast'.underscores = ast.underscores ∧
      ∀ r ∈ ast.policy, r ∈ ast'.policy ∨ t = ptype ∧ insert = false ∧ r ∈ rules := by
  by_cases ht : t = ptype
  · subst ht
    obtain ⟨policy, hpolicy, hmem⟩ := h.defined ast hast
    refine ⟨_, hpolicy, rfl, fun r hr => ?_⟩
    cases insert with
    | true => exact Or.inl (hmem.1 r hr)
    | false =>
      rcases hmem.2 r hr with h | h
      · exact Or.inl h
      · exact Or.inr ⟨rfl, rfl, h⟩
  · exact ⟨ast, by rw [h.other t ht, hast], rfl, fun r hr => Or.inl hr⟩

variable {l : String × String × String}

/-- The links of the changed model lie between those before and those of the given rules. -/
theorem RulesChange.mem_inducedLinks (h : RulesChange m m' ptype insert rules)
    (hl : l ∈ inducedLinks m') :
    l ∈ inducedLinks m ∨ insert = true ∧ ∃ ast, m.assertion "g" ptype = some ast ∧
      ∃ rule ∈ rules, ruleLink ast.underscores rule = some l := by
  obtain ⟨t, ast', hast', rule, hrule, hlink⟩ := hl
  obtain ⟨ast, hast, hcount, hmem⟩ := h.assertion hast'
  rw [hcount] at hlink
  rcases hmem rule hrule with hr | ⟨rfl, hins, hr⟩
  · exact Or.inl ⟨t, ast, hast, rule, hr, hlink⟩
  · exact Or.inr ⟨hins, ast, hast, rule, hr, hlink⟩

theorem RulesChange.mem_inducedLinks_before (h : RulesChange m m' ptype insert rules)
    (hl : l ∈ inducedLinks m) :
    l ∈ inducedLinks m' ∨ insert = false ∧ ∃ ast, m.assertion "g" ptype = some ast ∧
      ∃ rule ∈ rules, ruleLink ast.underscores rule = some l := by
  obtain ⟨t, ast, hast, rule, hrule, hlink⟩ := hl
  obtain ⟨ast', hast', hcount, hmem⟩ := h.kept hast
  rcases hmem rule hrule with hr | ⟨rfl, hins, hr⟩
  · exact Or.inl ⟨t, ast', hast', rule, hr, hcount ▸ hlink⟩
  · exact Or.inr ⟨hins, ast, hast, rule, hr, hlink⟩

end Model

section Steps

variable [Adapter A] {e e' : Enforcer A (DefaultRoleManager G) S}

theorem ruleTriple_ne_of_induced {m : DefaultModel} {l : String × String × String}
    (hl : l ∈ inducedLinks m) : l.2.1 ≠ l.2.2 := by
  obtain ⟨_, _, _, _, _, hlink⟩ := hl
  exact (ruleLink_eq_some.mp hlink).2

omit [RoleGraph G] [Adapter A] in
theorem setRm_rms (e : Enforcer A (DefaultRoleManager G) S) (rm : DefaultRoleManager G) :
    (e.setRm rm).rms (e.setRm rm).rm = rm := by
  simp [Enforcer.setRm]

/-- **One step.** An operation whose links agree with the rules keeps the manager in sync. -/
theorem inSync_apply (op : GroupingOp) (hsync : InSync e) (hagree : op.LinksAgree e)
    (h : op.apply e = (e', .ok ())) :
    InSync e' ∧ (e'.rms e'.rm).maxHierarchyLevel = (e.rms e.rm).maxHierarchyLevel := by
  rcases op.outcome_of_apply hsync.auto h with ⟨a, rfl⟩ | ⟨hacc, a, d, rm', hparts, hbuild, rfl⟩
  · exact ⟨⟨hsync.auto, hsync.plain, hsync.fits, hsync.links⟩, rfl⟩
  have hchange := op.rulesChange e.model
  have hagree' := hagree hacc
  rw [DefaultModel.buildIncrementalRoleLinks, hparts] at hbuild
  simp only [if_true] at hbuild
  cases hast : e.model.assertion "g" op.ptype with
  | none =>
    -- an undefined type: neither rules nor links change
    rw [hchange.undefined hast] at hbuild
    obtain ⟨rfl, -⟩ := Prod.mk.inj hbuild
    refine ⟨⟨hsync.auto, ?_, ?_, ?_⟩, ?_⟩
    · rw [setRm_rms]
      exact hsync.plain
    · intro t ast' hast'
      obtain ⟨ast, hast₀, hcount, hmem⟩ := hchange.assertion hast'
      obtain ⟨hc, hlen⟩ := hsync.fits t ast hast₀
      refine ⟨hcount ▸ hc, fun r hr => ?_⟩
      rcases hmem r hr with hr | ⟨rfl, -, -⟩
      · exact hcount ▸ hlen r hr
      · simp [hast] at hast₀
    · intro l
      rw [setRm_rms, hsync.links]
      constructor
      · intro hl
        rcases hchange.mem_inducedLinks_before hl with hl | ⟨-, ast, hast₀, -⟩
        · exact hl
        · simp [hast] at hast₀
      · intro hl
        rcases hchange.mem_inducedLinks hl with hl | ⟨-, ast, hast₀, -⟩
        · exact hl
        · simp [hast] at hast₀
    · rw [setRm_rms]
  | some ast =>
    obtain ⟨policy, hpolicy, -⟩ := hchange.defined ast hast
    obtain ⟨hcount, hlen⟩ := hsync.fits _ ast hast
    rw [hpolicy] at hbuild
    have hund : ({ ast with policy := policy } : Assertion).underscores = ast.underscores := rfl
    simp only [Assertion.linkRules, hund] at hbuild
    rw [if_neg (by omega)] at hbuild
    cases hins : op.insert with
    | true =>
      rw [hins] at hbuild
      obtain ⟨hp', hlevel, hfit, hlinks⟩ := links_linkRules (by omega) hsync.plain hbuild
      refine ⟨⟨hsync.auto, ?_, ?_, ?_⟩, ?_⟩
      · rw [setRm_rms]
        exact hp'
      · intro t ast' hast'
        obtain ⟨ast₀, hast₀, hc, hmem⟩ := hchange.assertion hast'
        obtain ⟨hcount₀, hlen₀⟩ := hsync.fits t ast₀ hast₀
        refine ⟨hc ▸ hcount₀, fun r hr => ?_⟩
        rcases hmem r hr with hr | ⟨rfl, -, hr⟩
        · exact hc ▸ hlen₀ r hr
        · rw [hast, Option.some.injEq] at hast₀
          rw [hc, ← hast₀]
          exact (hfit r hr).2
      · intro l
        rw [setRm_rms, hlinks, hsync.links]
        constructor
        · rintro (hl | ⟨rule, hrule, hl⟩)
          · rcases hchange.mem_inducedLinks_before hl with hl | ⟨hfalse, -⟩
            · exact hl
            · simp [hins] at hfalse
          · have := hagree' ast hast rule hrule l hl
            rwa [hins, if_pos rfl] at this
        · intro hl
          rcases hchange.mem_inducedLinks hl with hl | ⟨-, ast₀, hast₀, rule, hrule, hlink⟩
          · exact Or.inl hl
          · rw [hast, Option.some.injEq] at hast₀
            exact Or.inr ⟨rule, hrule, hast₀ ▸ hlink⟩
      · rw [setRm_rms]
        exact hlevel
    | false =>
      rw [hins] at hbuild
      obtain ⟨hp', hlevel, hlinks⟩ := links_unlinkRules (by omega) hsync.plain hbuild
      refine ⟨⟨hsync.auto, ?_, ?_, ?_⟩, ?_⟩
      · rw [setRm_rms]
        exact hp'
      · intro t ast' hast'
        obtain ⟨ast₀, hast₀, hc, hmem⟩ := hchange.assertion hast'
        obtain ⟨hcount₀, hlen₀⟩ := hsync.fits t ast₀ hast₀
        refine ⟨hc ▸ hcount₀, fun r hr => ?_⟩
        rcases hmem r hr with hr | ⟨-, htrue, -⟩
        · exact hc ▸ hlen₀ r hr
        · simp [hins] at htrue
      · intro l
        rw [setRm_rms, hlinks, hsync.links]
        constructor
        · rintro ⟨hl, hnot⟩
          rcases hchange.mem_inducedLinks_before hl with hl' | ⟨-, ast₀, hast₀, rule, hrule, hlink⟩
          · exact hl'
          · rw [hast, Option.some.injEq] at hast₀
            exact absurd (ruleLink_eq_some.mp (hast₀ ▸ hlink)).1 (hnot rule hrule)
        · intro hl
          refine ⟨?_, fun rule hrule htriple => ?_⟩
          · rcases hchange.mem_inducedLinks hl with hl | ⟨htrue, -⟩
            · exact hl
            · simp [hins] at htrue
          · have hlink := ruleLink_eq_some.mpr ⟨htriple, ruleTriple_ne_of_induced hl⟩
            have := hagree' ast hast rule hrule l hlink
            rw [hins, if_neg Bool.false_ne_true] at this
            exact this hl
      · rw [setRm_rms]
        exact hlevel

/-! ### Whole runs -/

/-- The states reached from `e` by operations that return `Ok` and whose links agree with the
    rules. -/
inductive Run (e : Enforcer A (DefaultRoleManager G) S) : Enforcer A (DefaultRoleManager G) S → Prop
  | refl : Run e e
  | step {e₁ e₂ : Enforcer A (DefaultRoleManager G) S} (op : GroupingOp) (hrun : Run e e₁)
      (happly : op.apply e₁ = (e₂, .ok ())) (hagree : op.LinksAgree e₁) : Run e e₂

theorem inSync_run (hsync : InSync e) (hrun : Run e e') : InSync e' := by
  induction hrun with
  | refl => exact hsync
  | step op _ happly hagree ih => exact (inSync_apply op ih hagree happly).1

/-- Loading the policy with `auto_build_role_links` puts the manager in sync. -/
theorem inSync_loadPolicy (hauto : e.autoBuildRoleLinks = true)
    (hrole : (e.rms e.rm).roleMatchingFn = none) (hdomain : (e.rms e.rm).domainMatchingFn = none)
    (hload : e.loadPolicy = (e', .ok ()))
    (hcount : ∀ ptype ast, e'.model.assertion "g" ptype = some ast →
      ast.underscores = 2 ∨ ast.underscores = 3) : InSync e' := by
  rw [Enforcer.loadPolicy] at hload
  rcases hadapter : Adapter.loadPolicy e.adapter e.model.clearPolicy with ⟨m, err | u⟩
  · simp [hadapter] at hload
  · simp only [hadapter, Enforcer.autoBuild, hauto, if_true, Enforcer.buildRoleLinks] at hload
    rcases hbuild : m.buildRoleLinks (RoleManager.clear (e.rms e.rm)) with ⟨rm', res⟩
    rw [hbuild] at hload
    obtain ⟨rfl, hres⟩ := Prod.mk.inj hload
    have hok : res = .ok () := hres
    rw [hok] at hbuild
    have hclear : m.buildRoleLinks (e.rms e.rm).clear = (rm', .ok ()) := hbuild
    obtain ⟨hp', -, hfit, hlinks⟩ := links_buildRoleLinks (plain_clear hrole hdomain) hclear
    refine ⟨rfl, ?_, ?_, ?_⟩
    · rw [setRm_rms]
      exact hp'
    · intro ptype ast hast
      exact ⟨hcount ptype ast hast, fun rule hrule => (hfit ptype ast hast rule hrule).2⟩
    · intro l
      rw [setRm_rms, hlinks, links_clear]
      simp only [Set.mem_empty_iff_false, false_or]
      rfl

omit [Adapter A] in
/-- In sync, a rebuild succeeds and gives the same answers. -/
theorem hasLink_eq_rebuild (hsync : InSync e)
    (hset : AllSettled (inducedLinks e.model) (e.rms e.rm).maxHierarchyLevel) :
    ∃ e'', e.buildRoleLinks = (e'', .ok ()) ∧ ∀ a b domain,
      (e.rms e.rm).hasLink a b domain = (e''.rms e''.rm).hasLink a b domain := by
  obtain ⟨rm', hbuild⟩ := buildRoleLinks_ok (e.rms e.rm).clear hsync.fits
  refine ⟨e.setRm rm', ?_, ?_⟩
  · show (e.setRm (e.model.buildRoleLinks (e.rms e.rm).clear).1,
      (e.model.buildRoleLinks (e.rms e.rm).clear).2) = _
    rw [hbuild]
  · rw [setRm_rms]
    obtain ⟨hp', hlevel, -, hlinks⟩ :=
      links_buildRoleLinks (plain_clear hsync.plain.role hsync.plain.domain) hbuild
    have hsame : (e.rms e.rm).links = inducedLinks e.model := Set.ext hsync.links
    apply hasLink_congr hsync.plain hp'
    · rw [hsame]
      ext l
      simp [hlinks]
    · exact hlevel.symm
    · rw [hsame]
      exact hset

/-- **Incremental links equal a rebuild.** After loading, along every run of grouping operations
    whose links agree with the rules, `has_link` answers as it does after `build_role_links`, unless
    the depth limit makes the answer depend on the order of the links. -/
theorem incremental_eq_rebuild (e e₀ e' : Enforcer A (DefaultRoleManager G) S)
    (hauto : e.autoBuildRoleLinks = true) (hrole : (e.rms e.rm).roleMatchingFn = none)
    (hdomain : (e.rms e.rm).domainMatchingFn = none) (hload : e.loadPolicy = (e₀, .ok ()))
    (hcount : ∀ ptype ast, e₀.model.assertion "g" ptype = some ast →
      ast.underscores = 2 ∨ ast.underscores = 3)
    (hrun : Run e₀ e')
    (hset : AllSettled (inducedLinks e'.model) (e'.rms e'.rm).maxHierarchyLevel) :
    ∃ e'', e'.buildRoleLinks = (e'', .ok ()) ∧ ∀ a b domain,
      (e'.rms e'.rm).hasLink a b domain = (e''.rms e''.rm).hasLink a b domain :=
  hasLink_eq_rebuild (inSync_run (inSync_loadPolicy hauto hrole hdomain hload hcount) hrun) hset

end Steps

/-! ### A sample -/

/-- An enforcer with two role definitions `g` and `g2`, no rules and an empty adapter. -/
def sampleEnforcer : Enforcer MemoryAdapter (DefaultRoleManager Graph) Unit where
  model :=
    { model := fun sec =>
        if sec = "g" then
          some
            { entries :=
                [("g", { value := "_, _", tokens := [], policy := LinkedSet.empty }),
                  ("g2", { value := "_, _", tokens := [], policy := LinkedSet.empty })]
              nodup := by decide }
        else none }
  adapter := MemoryAdapter.default
  eft := { newStream := fun _ _ => .ok () }
  rm := 0
  rms := fun _ => DefaultRoleManager.new 10
  enabled := true
  autoSave := false
  autoBuildRoleLinks := true
  functions := fun _ _ => none

/-- The sample after loading, after adding two grouping rules, and after removing the first. -/
def sampleLoaded : Enforcer MemoryAdapter (DefaultRoleManager Graph) Unit :=
  sampleEnforcer.loadPolicy.1

def sampleAdded : Enforcer MemoryAdapter (DefaultRoleManager Graph) Unit :=
  ((GroupingOp.add "g" ["bob", "admin"]).apply
    ((GroupingOp.add "g" ["alice", "admin"]).apply sampleLoaded).1).1

def sampleRemoved : Enforcer MemoryAdapter (DefaultRoleManager Graph) Unit :=
  ((GroupingOp.remove "g" ["alice", "admin"]).apply sampleAdded).1

theorem sampleLoaded_underscores (ptype : String) (ast : Assertion)
    (h : sampleLoaded.model.assertion "g" ptype = some ast) :
    ast.underscores = 2 ∨ ast.underscores = 3 := by
  rw [assertion_g_iff rfl] at h
  simp only [LinkedMap.mapEntries, List.map_cons, List.map_nil, List.mem_cons, Prod.mk.injEq,
    List.not_mem_nil, or_false] at h
  rcases h with ⟨-, rfl⟩ | ⟨-, rfl⟩
  · exact Or.inl (by decide)
  · exact Or.inl (by decide)

/-- The only link that is left goes from `bob` to `admin`. -/
theorem sampleRemoved_links {l : String × String × String}
    (h : l ∈ inducedLinks sampleRemoved.model) : l = (defaultDomain, "bob", "admin") := by
  obtain ⟨ptype, ast, hast, rule, hrule, hl⟩ := h
  rw [assertion_g_iff rfl] at hast
  simp only [LinkedMap.mapEntries, LinkedMap.modify, List.map_cons, List.map_nil, List.mem_cons,
    Prod.mk.injEq, List.not_mem_nil, or_false] at hast
  rcases hast with ⟨-, rfl⟩ | ⟨-, rfl⟩
  · have hrule' : rule = ["bob", "admin"] := by
      simpa [LinkedSet.mem_def, LinkedSet.insert, LinkedSet.remove, LinkedSet.empty] using hrule
    subst hrule'
    exact (Option.some.inj hl).symm
  · exact absurd hrule (LinkedSet.not_mem_empty rule)

theorem sampleRemoved_run : Run sampleLoaded sampleRemoved := by
  have hadded : Run sampleLoaded sampleAdded :=
    Run.step (.add "g" ["bob", "admin"])
      (Run.step (.add "g" ["alice", "admin"]) Run.refl rfl (GroupingOp.linksAgree_add _ _ _)) rfl
      (GroupingOp.linksAgree_add _ _ _)
  refine Run.step (.remove "g" ["alice", "admin"]) hadded rfl ?_
  intro _ ast hast rule hrule l hl hmem
  obtain rfl := List.mem_singleton.mp hrule
  obtain rfl : _ = ast := Option.some.inj hast
  rw [sampleRemoved_links hmem] at hl
  exact absurd (congrArg (·.map fun l => l.2.1) hl) (by decide)

theorem sampleRemoved_settled :
    AllSettled (inducedLinks sampleRemoved.model)
      (sampleRemoved.rms sampleRemoved.rm).maxHierarchyLevel := by
  intro d a
  apply settled_of_lt
  intro k hk
  have hone : k ≤ 1 := by
    refine le_one_of_layer_nonempty (fun x y z hxy hyz => ?_) hk
    have h₁ := sampleRemoved_links hxy
    have h₂ := sampleRemoved_links hyz
    simp only [Prod.mk.injEq] at h₁ h₂
    exact absurd (h₁.2.2.symm.trans h₂.2.1) (by decide)
  show k < 10
  omega

theorem incremental_eq_rebuild_sample :
    sampleEnforcer.loadPolicy = (sampleLoaded, .ok ()) ∧ Run sampleLoaded sampleRemoved ∧
      ∃ e'', sampleRemoved.buildRoleLinks = (e'', .ok ()) ∧ ∀ a b domain,
        (sampleRemoved.rms sampleRemoved.rm).hasLink a b domain =
          (e''.rms e''.rm).hasLink a b domain :=
  ⟨rfl, sampleRemoved_run,
    incremental_eq_rebuild sampleEnforcer sampleLoaded sampleRemoved rfl rfl rfl rfl
      sampleLoaded_underscores sampleRemoved_run sampleRemoved_settled⟩

/-- The same link comes from a `g` rule and from a `g2` rule. Removing the second rule deletes the
    link, and `has_link` forgets what the first rule still says. -/
theorem remove_deletes_shared_link :
    ∃ e₀ e₁ e₂ e₃ e₄ : Enforcer MemoryAdapter (DefaultRoleManager Graph) Unit,
      sampleEnforcer.loadPolicy = (e₀, .ok ()) ∧
      (GroupingOp.add "g" ["alice", "admin"]).apply e₀ = (e₁, .ok ()) ∧
      (GroupingOp.add "g2" ["alice", "admin"]).apply e₁ = (e₂, .ok ()) ∧
      (GroupingOp.remove "g2" ["alice", "admin"]).apply e₂ = (e₃, .ok ()) ∧
      e₃.buildRoleLinks = (e₄, .ok ()) ∧
      (e₃.rms e₃.rm).hasLink "alice" "admin" none = false ∧
      (e₄.rms e₄.rm).hasLink "alice" "admin" none = true :=
  ⟨_, _, _, _, _, rfl, rfl, rfl, rfl, rfl, by decide, by decide⟩

end TeaclaveCrates.Casbin
