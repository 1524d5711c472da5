import TeaclaveCrates.Casbin.IncrementalLinks
import TeaclaveCrates.Casbin.RoleCache

namespace TeaclaveCrates.Casbin

open Lib
open RoleGraph (edges)
open Enforcer (getOrErr registerGFunction)

/-!
# Clearing the policy of an enforcer

`clear_policy` empties the adapter and the rules of the model. The links that the grouping rules
have put into the role manager stay there, and later decisions still follow them.

* `Enforcer.new` — how an enforcer is built, and `Addition` the calls that add rules.
* `Alike` — two enforcers that decide alike and keep doing so when the same rules are added.
* `alike_addAll` — this holds along every sequence of additions.
* `cleared_eq_fresh` — after any history, an enforcer whose role manager has no links when its
  policy is cleared decides as a newly built one.
-/

variable {G : Type} [RoleGraph G]

/-! ### Definitions without rules -/

namespace DefaultModel

variable {m m' : DefaultModel}

/-- The definitions of a model, with no rules under any of them. -/
def eraseRules (m : DefaultModel) : DefaultModel where
  model s :=
    (m.model s).map fun asts => asts.mapEntries fun _ ast => { ast with policy := LinkedSet.empty }

@[simp]
theorem eraseRules_modifyPolicy (m : DefaultModel) (sec ptype : String)
    (f : LinkedSet Rule → LinkedSet Rule) :
    (m.modifyPolicy sec ptype f).eraseRules = m.eraseRules := by
  unfold eraseRules modifyPolicy
  congr 1
  funext s
  by_cases hs : s = sec
  · simp only [hs, if_true, Option.map_map]
    congr 1
    funext asts
    simp only [Function.comp, LinkedMap.modify, LinkedMap.mapEntries_mapEntries]
    congr 1
    funext k ast
    split <;> rfl
  · simp [hs]

@[simp]
theorem eraseRules_clearPolicy (m : DefaultModel) : m.clearPolicy.eraseRules = m.eraseRules := by
  unfold eraseRules clearPolicy
  congr 1
  funext s
  by_cases hs : s = "p" ∨ s = "g"
  · simp only [hs, if_true, Option.map_map]
    congr 1
    funext asts
    simp [Function.comp, LinkedMap.mapEntries_mapEntries]
  · simp [hs]

@[simp]
theorem eraseRules_eraseRules (m : DefaultModel) : m.eraseRules.eraseRules = m.eraseRules := by
  simp [eraseRules, Function.comp_def, LinkedMap.mapEntries_mapEntries]

/-- Clearing leaves the bare definitions in the sections that it clears. -/
theorem model_clearPolicy {s : String} (hs : s = "p" ∨ s = "g") :
    m.clearPolicy.model s = m.eraseRules.model s := by
  simp [clearPolicy, eraseRules, hs]

/-- Models with the same definitions and the same rules where decisions read them. -/
structure SameRules (m m' : DefaultModel) : Prop where
  erase : m.eraseRules = m'.eraseRules
  p : m.model "p" = m'.model "p"
  g : m.model "g" = m'.model "g"

/-- A change of the rules of one section, which depends on that section only. -/
structure Sectional (sec : String) (change : DefaultModel → DefaultModel × Bool) : Prop where
  erase : ∀ m, (change m).1.eraseRules = m.eraseRules
  other : ∀ m s, s ≠ sec → (change m).1.model s = m.model s
  own : ∀ m m', m.model sec = m'.model sec → (change m).1.model sec = (change m').1.model sec

theorem SameRules.change (h : SameRules m m') {sec : String}
    {change : DefaultModel → DefaultModel × Bool} (hchange : Sectional sec change) :
    SameRules (change m).1 (change m').1 := by
  have hsection : ∀ s, m.model s = m'.model s → (change m).1.model s = (change m').1.model s := by
    intro s hs
    by_cases hsec : s = sec
    · rw [hsec] at hs ⊢
      exact hchange.own m m' hs
    · rw [hchange.other m s hsec, hchange.other m' s hsec, hs]
  refine ⟨?_, hsection "p" h.p, hsection "g" h.g⟩
  simp [hchange.erase, h.erase]

theorem assertion_congr {sec : String} (h : m.model sec = m'.model sec) (ptype : String) :
    m.assertion sec ptype = m'.assertion sec ptype := by
  simp [assertion, h]

/-- The operations change nothing, or the rules under one type. -/
theorem sectional_of_modifyPolicy {sec : String} (ptype : String)
    {change : DefaultModel → DefaultModel × Bool}
    (hcases : ∀ m, (change m).1 = m ∨ ∃ f, (change m).1 = m.modifyPolicy sec ptype f)
    (hown : ∀ m m', m.model sec = m'.model sec →
      (change m).1.model sec = (change m').1.model sec) : Sectional sec change where
  erase m := by
    rcases hcases m with h | ⟨f, h⟩
    · rw [h]
    · rw [h, eraseRules_modifyPolicy]
  other m s hs := by
    rcases hcases m with h | ⟨f, h⟩
    · rw [h]
    · rw [h, modifyPolicy]
      exact if_neg hs
  own := hown

theorem model_modifyPolicy_congr {sec : String} (h : m.model sec = m'.model sec) (ptype : String)
    (f : LinkedSet Rule → LinkedSet Rule) :
    (m.modifyPolicy sec ptype f).model sec = (m'.modifyPolicy sec ptype f).model sec := by
  simp [modifyPolicy, h]

theorem sectional_addPolicy (sec ptype : String) (rule : Rule) :
    Sectional sec fun m => m.addPolicy sec ptype rule := by
  apply sectional_of_modifyPolicy ptype
  · intro m
    unfold addPolicy
    cases m.assertion sec ptype with
    | none => exact Or.inl rfl
    | some ast => exact Or.inr ⟨(·.insert rule), rfl⟩
  · intro m m' h
    unfold addPolicy
    rw [assertion_congr h]
    cases m'.assertion sec ptype with
    | none => exact h
    | some ast => exact model_modifyPolicy_congr h ptype (·.insert rule)

theorem sectional_addPolicies (sec ptype : String) (rules : List Rule) :
    Sectional sec fun m => m.addPolicies sec ptype rules := by
  apply sectional_of_modifyPolicy ptype
  · intro m
    unfold addPolicies
    cases m.assertion sec ptype with
    | none => exact Or.inl rfl
    | some ast =>
      dsimp only
      split
      · exact Or.inl rfl
      · exact Or.inr ⟨(·.extend rules), rfl⟩
  · intro m m' h
    unfold addPolicies
    rw [assertion_congr h]
    cases m'.assertion sec ptype with
    | none => exact h
    | some ast =>
      dsimp only
      split
      · exact h
      · exact model_modifyPolicy_congr h ptype (·.extend rules)

@[simp]
theorem eraseRules_removePolicy (m : DefaultModel) (sec ptype : String) (rule : Rule) :
    (m.removePolicy sec ptype rule).1.eraseRules = m.eraseRules := by
  unfold removePolicy
  cases m.assertion sec ptype with
  | none => rfl
  | some ast => exact eraseRules_modifyPolicy m sec ptype (·.remove rule)

@[simp]
theorem eraseRules_removePolicies (m : DefaultModel) (sec ptype : String) (rules : List Rule) :
    (m.removePolicies sec ptype rules).1.eraseRules = m.eraseRules := by
  unfold removePolicies
  cases m.assertion sec ptype with
  | none => rfl
  | some ast =>
    dsimp only
    split
    · exact eraseRules_modifyPolicy m sec ptype (·.removeAll rules)
    · rfl

theorem eraseRules_removeFilteredPolicy {sec ptype : String} {fieldIndex : Nat}
    {fieldValues : List String} {removed : Bool} {rules : List Rule}
    (h : m.removeFilteredPolicy sec ptype fieldIndex fieldValues = some (m', removed, rules)) :
    m'.eraseRules = m.eraseRules := by
  unfold removeFilteredPolicy at h
  split at h
  · simp only [Option.some.injEq, Prod.mk.injEq] at h
    rw [← h.1]
  · cases hast : m.assertion sec ptype with
    | none =>
      simp only [hast, Option.some.injEq, Prod.mk.injEq] at h
      rw [← h.1]
    | some ast =>
      simp only [hast] at h
      obtain ⟨rulesRemoved, -, hsome⟩ := Option.bind_eq_some_iff.mp h
      simp only [Option.pure_def, Option.some.injEq, Prod.mk.injEq] at hsome
      rw [← hsome.1, eraseRules_modifyPolicy]

end DefaultModel

/-! ### Building, adding and managing -/

namespace Enforcer

variable {A : Type}

variable (G) in
/-- The fields as `new_raw` sets them first. The functions of `FunctionMap::default()` take two
    arguments. -/
def initial (functionMap : String → Option (String → String → Bool)) (m : DefaultModel) (a : A) :
    Enforcer A (DefaultRoleManager G) DefaultEffectStream where
  model := m
  adapter := a
  eft := DefaultEffector
  rm := 0
  rms := fun _ => DefaultRoleManager.new 10
  enabled := true
  autoSave := true
  autoBuildRoleLinks := true
  functions := fun name arity =>
    if arity = 2 then (functionMap name).map Callee.user else none

/-- `new_raw` -/
def newRaw (functionMap : String → Option (String → String → Bool)) (m : DefaultModel) (a : A) :
    Except Fault (Enforcer A (DefaultRoleManager G) DefaultEffectStream) :=
  match (initial G functionMap m a).registerGFunctions with
  | (e, .ok ()) => .ok e
  | (_, .error err) => .error err

/-- `Enforcer::new` -/
def new [Adapter A] (functionMap : String → Option (String → String → Bool)) (m : DefaultModel)
    (a : A) :
    Except Fault (Enforcer A (DefaultRoleManager G) DefaultEffectStream) :=
  match newRaw functionMap m a with
  | .ok e =>
    match e.loadPolicy with
    | (e, .ok ()) => .ok e
    | (_, .error err) => .error err
  | .error err => .error err

end Enforcer

/-- The calls that add rules. -/
inductive Addition where
  | addPolicy (sec ptype : String) (rule : Rule)
  | addPolicies (sec ptype : String) (rules : List Rule)

/-- The calls on the policy: those of `management_api.rs`, and those that load, save, clear or
    link it. -/
inductive PolicyStep where
  | add (addition : Addition)
  | removePolicy (sec ptype : String) (rule : Rule)
  | removePolicies (sec ptype : String) (rules : List Rule)
  | removeFilteredPolicy (sec ptype : String) (fieldIndex : Nat) (fieldValues : List String)
  | loadPolicy
  | loadFilteredPolicy (f : Filter)
  | savePolicy
  | clearPolicy
  | buildRoleLinks

section Steps

variable {A R S : Type} [Adapter A] [RoleManager R]

/-- What an addition asks of the adapter. -/
def Addition.save (addition : Addition) (a : A) : A × Except Fault Bool :=
  match addition with
  | addPolicy sec ptype rule => Adapter.addPolicy a sec ptype rule
  | addPolicies sec ptype rules => Adapter.addPolicies a sec ptype rules

/-- The enforcer after an addition, which may have failed. -/
def Addition.run (incremental : Bool) (addition : Addition) (e : Enforcer A R S) :
    Enforcer A R S :=
  match addition with
  | addPolicy sec ptype rule => (addPolicyInternal incremental e sec ptype rule).1
  | addPolicies sec ptype rules => (addPoliciesInternal incremental e sec ptype rules).1

def addAll (incremental : Bool) (additions : List Addition) (e : Enforcer A R S) :
    Enforcer A R S :=
  additions.foldl (fun e addition => addition.run incremental e) e

/-- The enforcer after a step, which may have failed. -/
def PolicyStep.run (incremental : Bool) (step : PolicyStep) (e : Enforcer A R S) :
    Enforcer A R S :=
  match step with
  | add addition => addition.run incremental e
  | removePolicy sec ptype rule => (removePolicyInternal incremental e sec ptype rule).1
  | removePolicies sec ptype rules => (removePoliciesInternal incremental e sec ptype rules).1
  | removeFilteredPolicy sec ptype fieldIndex fieldValues =>
    (removeFilteredPolicyInternal incremental e sec ptype fieldIndex fieldValues).1
  | loadPolicy => e.loadPolicy.1
  | loadFilteredPolicy f => (e.loadFilteredPolicy f).1
  | savePolicy => e.savePolicy.1
  | clearPolicy => e.clearPolicy.1
  | buildRoleLinks => e.buildRoleLinks.1

def runSteps (incremental : Bool) (steps : List PolicyStep) (e : Enforcer A R S) :
    Enforcer A R S :=
  steps.foldl (fun e step => step.run incremental e) e

/-! ### What is taken for granted of adapters -/

/-- What an adapter replies to additions. -/
def addReplies : A → List Addition → List (Except Fault Bool)
  | _, [] => []
  | a, addition :: rest => (addition.save a).2 :: addReplies (addition.save a).1 rest

variable (A) in
/-- Loading puts rules into a model and leaves its definitions alone. -/
structure LoadsRules : Prop where
  loadPolicy : ∀ (a : A) m, (Adapter.loadPolicy a m).1.eraseRules = m.eraseRules
  loadFilteredPolicy : ∀ (a : A) m f,
    (Adapter.loadFilteredPolicy a m f).1.2.eraseRules = m.eraseRules

/-- An empty adapter: nothing is loaded from it, and it replies to additions as any adapter does
    that was cleared. -/
structure EmptyAdapter (a₀ : A) : Prop where
  loadPolicy : ∀ m, Adapter.loadPolicy a₀ m = (m, .ok ())
  replies : ∀ a a' : A, Adapter.clearPolicy a = (a', .ok ()) →
    ∀ additions, addReplies a' additions = addReplies a₀ additions

end Steps

/-! ### Role links in two managers -/

/-- A loop keeps what its body keeps. -/
theorem eachOk_preserves {σ α : Type} {f : σ → α → σ × Except Fault Unit} {P : σ → Prop}
    (hf : ∀ s x, P s → P (f s x).1) (l : List α) (s : σ) (h : P s) : P (eachOk f s l).1 := by
  induction l generalizing s with
  | nil => exact h
  | cons x l ih =>
    have hx := hf s x h
    rw [eachOk]
    generalize f s x = y at hx
    obtain ⟨s', err | u⟩ := y
    · exact hx
    · exact ih s' hx

/-- A loop relates two states when its body does, and ends the same on both. -/
theorem eachOk_relates {σ τ α : Type} {f : σ → α → σ × Except Fault Unit}
    {f' : τ → α → τ × Except Fault Unit} {P : σ → τ → Prop}
    (hf : ∀ s t x, P s t → P (f s x).1 (f' t x).1 ∧ (f s x).2 = (f' t x).2) (l : List α) (s : σ)
    (t : τ) (h : P s t) :
    P (eachOk f s l).1 (eachOk f' t l).1 ∧ (eachOk f s l).2 = (eachOk f' t l).2 := by
  induction l generalizing s t with
  | nil => exact ⟨h, rfl⟩
  | cons x l ih =>
    obtain ⟨hx, hres⟩ := hf s t x h
    rw [eachOk, eachOk]
    generalize f s x = y at hx hres
    generalize f' t x = z at hx hres
    obtain ⟨s', r⟩ := y
    obtain ⟨t', r'⟩ := z
    obtain rfl : r = r' := hres
    cases r with
    | error err => exact ⟨hx, rfl⟩
    | ok u => exact ih s' t' hx

namespace DefaultRoleManager

variable {rm rm' : DefaultRoleManager G}

/-- What the calls of an enforcer keep of its role manager. -/
structure Regular (rm : DefaultRoleManager G) : Prop where
  plain : Plain rm
  level : rm.maxHierarchyLevel = 10

/-- Two managers with the same links, in the same order. -/
structure SameEdges (rm rm' : DefaultRoleManager G) : Prop where
  left : Regular rm
  right : Regular rm'
  edges : ∀ d, edges (rm.graph d) = edges (rm'.graph d)

theorem Regular.addLink (h : Regular rm) (name1 name2 : String) (domain : Option String) :
    Regular (rm.addLink name1 name2 domain) :=
  ⟨plain_addLink h.plain, maxHierarchyLevel_addLink.trans h.level⟩

theorem Regular.deleteLink (h : Regular rm) (name1 name2 : String) (domain : Option String) :
    Regular (rm.deleteLink name1 name2 domain).1 := by
  by_cases hroles : (rm.domainHasRole name1 domain && rm.domainHasRole name2 domain) = true
  · have hok : rm.deleteLink name1 name2 domain =
        ((rm.deleteLink name1 name2 domain).1, .ok ()) := by
      simp [DefaultRoleManager.deleteLink, hroles]
    exact ⟨plain_deleteLink h.plain hok, (maxHierarchyLevel_deleteLink hok).trans h.level⟩
  · simp only [DefaultRoleManager.deleteLink, if_neg hroles]
    exact h

theorem Regular.clear (h : Regular rm) : Regular rm.clear :=
  ⟨plain_clear h.plain.role h.plain.domain, h.level⟩

theorem regular_new : Regular (new (G := G) 10) := by
  have hp : Plain (new (G := G) 10).clear := plain_clear rfl rfl
  exact ⟨hp, rfl⟩

theorem SameEdges.clear (h : SameEdges rm rm') : SameEdges rm.clear rm'.clear :=
  ⟨h.left.clear, h.right.clear, fun _ => rfl⟩

theorem SameEdges.addLink (h : SameEdges rm rm') (name1 name2 : String) (domain : Option String) :
    SameEdges (rm.addLink name1 name2 domain) (rm'.addLink name1 name2 domain) := by
  refine ⟨h.left.addLink name1 name2 domain, h.right.addLink name1 name2 domain, fun d => ?_⟩
  by_cases hne : name1 = name2
  · rw [DefaultRoleManager.addLink, DefaultRoleManager.addLink, if_pos hne, if_pos hne]
    exact h.edges d
  · rw [edges_addLink h.left.plain hne, edges_addLink h.right.plain hne, h.edges]

theorem SameEdges.hasLink (h : SameEdges rm rm') (a b : String) (domain : Option String) :
    rm.hasLink a b domain = rm'.hasLink a b domain := by
  have hdomain : rm.domainMatchingFn = rm'.domainMatchingFn := by
    rw [h.left.plain.domain, h.right.plain.domain]
  have hlevel : rm.maxHierarchyLevel = rm'.maxHierarchyLevel := by
    rw [h.left.level, h.right.level]
  exact hasLink_eq_of_edges h.right.plain.role h.left.plain.role hdomain hlevel h.edges a b domain

/-- Without links all edges are gone: no other kind comes from rules. -/
theorem edges_of_links_empty (hp : Plain rm) (h : rm.links = ∅) (d : String) :
    edges (rm.graph d) = [] := by
  rw [List.eq_nil_iff_forall_not_mem]
  intro e he
  obtain ⟨src, tgt, variant⟩ := e
  obtain rfl : variant = .link := hp.variant d _ he
  have hmem : (d, src, tgt) ∈ rm.links := he
  rw [h] at hmem
  exact hmem

end DefaultRoleManager

open DefaultRoleManager (Regular SameEdges)

/-- The link of a rule: one call of the role manager, or an error that does not ask it. -/
theorem linkRule_cases (insert : Bool) (count : Nat) (rule : Rule) :
    (∃ name1 name2 domain, ∀ rm : DefaultRoleManager G, linkRule insert count rm rule =
        if insert then (rm.addLink name1 name2 domain, .ok ())
        else rm.deleteLink name1 name2 domain) ∨
      ∃ err, ∀ rm : DefaultRoleManager G, linkRule insert count rm rule = (rm, .error err) := by
  unfold linkRule
  by_cases hlen : rule.length < count
  · simp only [if_pos hlen]
    exact Or.inr ⟨_, fun _ => rfl⟩
  · simp only [if_neg hlen]
    split
    case h_1 name1 name2 _ => exact Or.inl ⟨name1, name2, none, fun _ => rfl⟩
    case h_2 name1 name2 domain _ => exact Or.inl ⟨name1, name2, some domain, fun _ => rfl⟩
    case h_3 => exact Or.inr ⟨_, fun _ => rfl⟩

section LinkRules

variable {rm rm' : DefaultRoleManager G}

theorem regular_linkRule (insert : Bool) (count : Nat) (rm : DefaultRoleManager G) (rule : Rule)
    (h : Regular rm) : Regular (linkRule insert count rm rule).1 := by
  rcases linkRule_cases (G := G) insert count rule with ⟨name1, name2, domain, heq⟩ | ⟨err, heq⟩
  · rw [heq]
    cases insert with
    | true => exact h.addLink name1 name2 domain
    | false => exact h.deleteLink name1 name2 domain
  · rw [heq]
    exact h

theorem sameEdges_linkRule (count : Nat) (rm rm' : DefaultRoleManager G) (rule : Rule)
    (h : SameEdges rm rm') :
    SameEdges (linkRule true count rm rule).1 (linkRule true count rm' rule).1 ∧
      (linkRule true count rm rule).2 = (linkRule true count rm' rule).2 := by
  rcases linkRule_cases (G := G) true count rule with ⟨name1, name2, domain, heq⟩ | ⟨err, heq⟩
  · rw [heq, heq]
    exact ⟨h.addLink name1 name2 domain, rfl⟩
  · rw [heq, heq]
    exact ⟨h, rfl⟩

theorem Assertion.regular_linkRules (ast : Assertion) (insert : Bool) (h : Regular rm)
    (rules : List Rule) : Regular (ast.linkRules insert rm rules).1 := by
  unfold linkRules
  split
  · exact h
  · exact eachOk_preserves (regular_linkRule insert _) rules rm h

theorem Assertion.sameEdges_linkRules (ast : Assertion) (h : SameEdges rm rm')
    (rules : List Rule) :
    SameEdges (ast.linkRules true rm rules).1 (ast.linkRules true rm' rules).1 ∧
      (ast.linkRules true rm rules).2 = (ast.linkRules true rm' rules).2 := by
  unfold linkRules
  split
  · exact ⟨h, rfl⟩
  · exact eachOk_relates (sameEdges_linkRule _) rules rm rm' h

namespace DefaultModel

variable {m m' : DefaultModel}

theorem regular_buildRoleLinks (m : DefaultModel) (h : Regular rm) :
    Regular (m.buildRoleLinks rm).1 := by
  unfold buildRoleLinks
  cases m.model "g" with
  | none => exact h
  | some asts =>
    exact eachOk_preserves (fun _ e hrm => e.2.regular_linkRules true hrm _) asts.entries rm h

theorem sameEdges_buildRoleLinks (hg : m.model "g" = m'.model "g") (h : SameEdges rm rm') :
    SameEdges (m.buildRoleLinks rm).1 (m'.buildRoleLinks rm').1 ∧
      (m.buildRoleLinks rm).2 = (m'.buildRoleLinks rm').2 := by
  unfold buildRoleLinks
  rw [hg]
  cases m'.model "g" with
  | none => exact ⟨h, rfl⟩
  | some asts =>
    exact eachOk_relates (fun _ _ e hrm => e.2.sameEdges_linkRules hrm _) asts.entries rm rm' h

theorem regular_buildIncrementalRoleLinks (m : DefaultModel) (h : Regular rm) (d : EventData) :
    Regular (m.buildIncrementalRoleLinks rm d).1 := by
  unfold buildIncrementalRoleLinks
  obtain ⟨sec, ptype, insert, rules⟩ := d.parts
  dsimp only
  split
  · cases m.assertion sec ptype with
    | none => exact h
    | some ast => exact ast.regular_linkRules insert h rules
  · exact h

theorem sameEdges_buildIncrementalRoleLinks (hg : m.model "g" = m'.model "g")
    (h : SameEdges rm rm') {d : EventData} (hinsert : d.parts.2.2.1 = true) :
    SameEdges (m.buildIncrementalRoleLinks rm d).1 (m'.buildIncrementalRoleLinks rm' d).1 ∧
      (m.buildIncrementalRoleLinks rm d).2 = (m'.buildIncrementalRoleLinks rm' d).2 := by
  unfold buildIncrementalRoleLinks
  generalize d.parts = parts at hinsert
  obtain ⟨sec, ptype, insert, rules⟩ := parts
  obtain rfl : insert = true := hinsert
  dsimp only
  by_cases hsec : sec = "g"
  · rw [if_pos hsec, if_pos hsec, hsec, assertion_congr hg]
    cases m'.assertion "g" ptype with
    | none => exact ⟨h, rfl⟩
    | some ast => exact ast.sameEdges_linkRules h rules
  · rw [if_neg hsec, if_neg hsec]
    exact ⟨h, rfl⟩

end DefaultModel

end LinkRules

/-! ### The way of a change through an enforcer -/

section Changes

variable {A R S : Type} [RoleManager R] (incremental : Bool) (e : Enforcer A R S)

/-- On a plain enforcer it does not matter whether the model has changed. -/
theorem afterChange_plain (sec : String) (changed : Bool) (d : EventData) :
    afterChange incremental e sec changed d =
      if sec ≠ "g" ∨ e.autoBuildRoleLinks = false then (e, .ok ())
      else if incremental then e.buildIncrementalRoleLinks d else e.buildRoleLinks := by
  have hclear : (if changed then IEnforcer.clearCache e else e) = e := by
    cases changed <;> rfl
  unfold afterChange
  simp only [hclear]
  rfl

theorem fst_changeInternal (sec : String) (save : A → A × Except Fault Bool)
    (change : DefaultModel → DefaultModel × Bool) (d : EventData) :
    (changeInternal incremental e sec save change d).1 =
      if (autoSaved e save).2 = .ok true then
        (afterChange incremental
          { (autoSaved e save).1 with model := (change (autoSaved e save).1.model).1 } sec
          (change (autoSaved e save).1.model).2 d).1
      else (autoSaved e save).1 := by
  unfold changeInternal
  generalize autoSaved e save = x
  obtain ⟨e₁, err | ⟨_ | _⟩⟩ := x
  · simp
  · simp
  · simp only [if_true, IEnforcer.get, IEnforcer.set]
    generalize afterChange incremental { e₁ with model := (change e₁.model).1 } sec
      (change e₁.model).2 d = y
    obtain ⟨e₂, err | u⟩ := y
    · rfl
    · rfl

end Changes

/-! ### Two enforcers side by side -/

section Alike

variable {A S : Type} [Adapter A] {e f : Enforcer A (DefaultRoleManager G) S}

/-- Two enforcers that agree on everything that decisions and later additions depend on. -/
structure Alike (e f : Enforcer A (DefaultRoleManager G) S) : Prop where
  model : e.model.SameRules f.model
  replies : ∀ additions, addReplies e.adapter additions = addReplies f.adapter additions
  eft : e.eft = f.eft
  enabled : e.enabled = f.enabled
  autoSave : e.autoSave = f.autoSave
  autoBuild : e.autoBuildRoleLinks = f.autoBuildRoleLinks
  functions : e.functions = f.functions
  rm : e.rm = f.rm
  rms : ∀ i, SameEdges (e.rms i) (f.rms i)

theorem Alike.setRm (h : Alike e f) {rm rm' : DefaultRoleManager G} (hrm : SameEdges rm rm') :
    Alike (e.setRm rm) (f.setRm rm') := by
  refine { h with rms := fun i => ?_ }
  show SameEdges (Function.update e.rms e.rm rm i) (Function.update f.rms f.rm rm' i)
  rw [← h.rm]
  by_cases hi : i = e.rm
  · rw [hi, Function.update_self, Function.update_self]
    exact hrm
  · rw [Function.update_of_ne hi, Function.update_of_ne hi]
    exact h.rms i

theorem Alike.rmInUse (h : Alike e f) : SameEdges (e.rms e.rm) (f.rms f.rm) := by
  rw [← h.rm]
  exact h.rms e.rm

theorem Alike.afterChange (h : Alike e f) (incremental : Bool) (sec : String)
    (changed changed' : Bool) {d : EventData} (hinsert : d.parts.2.2.1 = true) :
    Alike (afterChange incremental e sec changed d).1
      (Casbin.afterChange incremental f sec changed' d).1 := by
  rw [afterChange_plain, afterChange_plain, ← h.autoBuild]
  split
  · exact h
  · cases incremental with
    | true =>
      exact h.setRm (DefaultModel.sameEdges_buildIncrementalRoleLinks h.model.g h.rmInUse
        hinsert).1
    | false => exact h.setRm (DefaultModel.sameEdges_buildRoleLinks h.model.g h.rmInUse.clear).1

/-- The adapters reply the same and keep doing so. -/
theorem Alike.autoSaved (h : Alike e f) (addition : Addition) :
    Alike (autoSaved e addition.save).1 (Casbin.autoSaved f addition.save).1 ∧
      (Casbin.autoSaved e addition.save).2 = (Casbin.autoSaved f addition.save).2 := by
  unfold Casbin.autoSaved
  simp only [IEnforcer.get, IEnforcer.set]
  by_cases hsave : e.autoSave = true
  · rw [if_pos hsave, if_pos (h.autoSave ▸ hsave)]
    have hreply : ∀ rest, (addition.save e.adapter).2 ::
        addReplies (addition.save e.adapter).1 rest = (addition.save f.adapter).2 ::
        addReplies (addition.save f.adapter).1 rest := fun rest => h.replies (addition :: rest)
    exact ⟨{ h with replies := fun rest => (List.cons.inj (hreply rest)).2 },
      (List.cons.inj (hreply [])).1⟩
  · rw [if_neg hsave, if_neg (h.autoSave ▸ hsave)]
    exact ⟨h, rfl⟩

theorem Alike.changeInternal (h : Alike e f) (incremental : Bool) {sec : String}
    (addition : Addition) {change : DefaultModel → DefaultModel × Bool}
    (hchange : DefaultModel.Sectional sec change) {d : EventData}
    (hinsert : d.parts.2.2.1 = true) :
    Alike (changeInternal incremental e sec addition.save change d).1
      (Casbin.changeInternal incremental f sec addition.save change d).1 := by
  obtain ⟨hsaved, hreply⟩ := h.autoSaved addition
  rw [fst_changeInternal, fst_changeInternal, hreply]
  split
  -- the model is changed only when the adapters agree, which they do alike
  · have hchanged : Alike
        { (Casbin.autoSaved e addition.save).1 with
          model := (change (Casbin.autoSaved e addition.save).1.model).1 }
        { (Casbin.autoSaved f addition.save).1 with
          model := (change (Casbin.autoSaved f addition.save).1.model).1 } :=
      { hsaved with model := hsaved.model.change hchange }
    exact hchanged.afterChange incremental sec _ _ hinsert
  · exact hsaved

/-- **One addition** leaves them alike. -/
theorem Alike.run (h : Alike e f) (incremental : Bool) (addition : Addition) :
    Alike (addition.run incremental e) (addition.run incremental f) := by
  cases addition with
  | addPolicy sec ptype rule =>
    exact h.changeInternal incremental (.addPolicy sec ptype rule)
      (DefaultModel.sectional_addPolicy sec ptype rule) rfl
  | addPolicies sec ptype rules =>
    exact h.changeInternal incremental (.addPolicies sec ptype rules)
      (DefaultModel.sectional_addPolicies sec ptype rules) rfl

/-- **Any additions** leave them alike. -/
theorem alike_addAll (incremental : Bool) (additions : List Addition)
    (e f : Enforcer A (DefaultRoleManager G) S) (h : Alike e f) :
    Alike (addAll incremental additions e) (addAll incremental additions f) := by
  induction additions generalizing e f with
  | nil => exact h
  | cons addition rest ih => exact ih _ _ (h.run incremental addition)

end Alike

/-! ### Decisions of enforcers that are alike -/

section Decisions

variable {A S D X : Type} {e f : Enforcer A (DefaultRoleManager G) S}

/-- An assertion without its rules. -/
def Assertion.bare (ast : Assertion) : Assertion := { ast with policy := LinkedSet.empty }

/-- The rules of the section `"p"` and nothing but definitions elsewhere. -/
def DefaultModel.policyOnly (m : DefaultModel) : DefaultModel where
  model s := if s = "p" then m.model s else m.eraseRules.model s

theorem getOrErr_policyOnly (m : DefaultModel) {key : String} (hkey : key ≠ "p")
    (err : String → Error) (msg : String) :
    getOrErr m.policyOnly key err msg =
      (getOrErr m key err msg).map Assertion.bare := by
  unfold getOrErr DefaultModel.policyOnly DefaultModel.eraseRules
  simp only [if_neg hkey]
  cases m.model key with
  | none => rfl
  | some asts =>
    simp only [Option.map_some, LinkedMap.get?_mapEntries]
    cases asts.get? key with
    | none => rfl
    | some ast => rfl

/-- A decision reads the rules of the section `"p"` only. -/
theorem privateEnforce_policyOnly [EffectorStream S] [Rhai D X]
    (e : Enforcer A (DefaultRoleManager G) S) (rvals : List D) :
    e.privateEnforce X rvals = { e with model := e.model.policyOnly }.privateEnforce X rvals := by
  have hp : getOrErr e.model.policyOnly "p" .modelP "policy" =
      getOrErr e.model "p" .modelP "policy" := rfl
  unfold Enforcer.privateEnforce
  rw [hp, getOrErr_policyOnly e.model (by decide), getOrErr_policyOnly e.model (by decide),
    getOrErr_policyOnly e.model (by decide)]
  cases getOrErr e.model "r" .modelR "request" with
  | error err => rfl
  | ok rAst =>
    cases getOrErr e.model "m" .modelM "matcher" with
    | error err => rfl
    | ok mAst =>
      cases getOrErr e.model "e" .modelE "effector" with
      | error err => rfl
      | ok eAst => rfl

theorem Alike.callFn [Adapter A] (h : Alike e f) : e.callFn = f.callFn := by
  unfold Enforcer.callFn
  rw [h.functions]
  have hlink : ∀ i x y domain, RoleManager.hasLink (e.rms i) x y domain =
      RoleManager.hasLink (f.rms i) x y domain := fun i => (h.rms i).hasLink
  simp only [hlink]

/-- Enforcers that are alike decide alike. -/
theorem Alike.privateEnforce [Adapter A] [EffectorStream S] [Rhai D X] (h : Alike e f)
    (rvals : List D) :
    e.privateEnforce X rvals = f.privateEnforce X rvals := by
  have hmodel : e.model.policyOnly = f.model.policyOnly := by
    simp only [DefaultModel.policyOnly, h.model.erase]
    congr 1
    funext s
    by_cases hs : s = "p"
    · simp [hs, h.model.p]
    · simp [hs]
  have hown : ∀ key, e.model.policyOnly.ownDefinition key =
      f.model.policyOnly.ownDefinition key := by
    intro key
    rw [hmodel]
  rw [privateEnforce_policyOnly e, privateEnforce_policyOnly f]
  apply Enforcer.privateEnforce_congr
  rw [Enforcer.view, View.mk.injEq]
  exact ⟨h.enabled, hown "r", hown "p", hown "m", hown "e", h.eft, h.callFn⟩

end Decisions

/-! ### Whole histories -/

section Managed

variable {A : Type} {e : Enforcer A (DefaultRoleManager G) DefaultEffectStream}
  {definitions : DefaultModel} {functions : String → Nat → Option Callee}

/-- What every history keeps of an enforcer: its definitions, functions and switches, and role
    managers without matching functions. -/
structure Managed (definitions : DefaultModel) (functions : String → Nat → Option Callee)
    (e : Enforcer A (DefaultRoleManager G) DefaultEffectStream) : Prop where
  erase : e.model.eraseRules = definitions.eraseRules
  functions : e.functions = functions
  eft : e.eft = DefaultEffector
  rm : e.rm = 0
  enabled : e.enabled = true
  autoSave : e.autoSave = true
  autoBuild : e.autoBuildRoleLinks = true
  regular : Regular (e.rms 0)
  others : ∀ i ≠ 0, e.rms i = DefaultRoleManager.new 10

theorem Managed.setRm (h : Managed definitions functions e) {rm : DefaultRoleManager G}
    (hrm : Regular rm) : Managed definitions functions (e.setRm rm) := by
  have hrms : (e.setRm rm).rms = Function.update e.rms 0 rm := by
    rw [Enforcer.setRm, h.rm]
  refine { h with regular := ?_, others := fun i hi => ?_ }
  · rw [hrms, Function.update_self]
    exact hrm
  · rw [hrms, Function.update_of_ne hi]
    exact h.others i hi

theorem Managed.rmInUse (h : Managed definitions functions e) : Regular (e.rms e.rm) := by
  rw [h.rm]
  exact h.regular

theorem Managed.buildRoleLinks (h : Managed definitions functions e) :
    Managed definitions functions e.buildRoleLinks.1 :=
  h.setRm (e.model.regular_buildRoleLinks h.rmInUse.clear)

theorem Managed.afterChange (h : Managed definitions functions e) (incremental : Bool)
    (sec : String) (changed : Bool) (d : EventData) :
    Managed definitions functions (afterChange incremental e sec changed d).1 := by
  rw [afterChange_plain]
  split
  · exact h
  · cases incremental with
    | true => exact h.setRm (e.model.regular_buildIncrementalRoleLinks h.rmInUse d)
    | false => exact h.buildRoleLinks

theorem Managed.autoSaved (h : Managed definitions functions e)
    (save : A → A × Except Fault Bool) :
    Managed definitions functions (autoSaved e save).1 := by
  unfold Casbin.autoSaved
  simp only [IEnforcer.get, IEnforcer.set]
  split
  · exact { h with }
  · exact h

theorem Managed.changeInternal (h : Managed definitions functions e) (incremental : Bool)
    (sec : String) (save : A → A × Except Fault Bool)
    {change : DefaultModel → DefaultModel × Bool}
    (hchange : ∀ m, (change m).1.eraseRules = m.eraseRules) (d : EventData) :
    Managed definitions functions (changeInternal incremental e sec save change d).1 := by
  have hsaved := h.autoSaved save
  rw [fst_changeInternal]
  split
  · have hmodel : Managed definitions functions
        { (Casbin.autoSaved e save).1 with
          model := (change (Casbin.autoSaved e save).1.model).1 } :=
      { hsaved with erase := (hchange _).trans hsaved.erase }
    exact hmodel.afterChange incremental sec _ d
  · exact hsaved

theorem Managed.removeFiltered [Adapter A] (h : Managed definitions functions e)
    (incremental : Bool) (sec ptype : String) (fieldIndex : Nat) (fieldValues : List String) :
    Managed definitions functions
      (removeFilteredPolicyInternal incremental e sec ptype fieldIndex fieldValues).1 := by
  have hsaved := h.autoSaved fun a =>
    Adapter.removeFilteredPolicy a sec ptype fieldIndex fieldValues
  unfold removeFilteredPolicyInternal
  generalize Casbin.autoSaved e (fun a =>
    Adapter.removeFilteredPolicy a sec ptype fieldIndex fieldValues) = x at hsaved
  obtain ⟨e₁, err | ⟨_ | _⟩⟩ := x
  · exact hsaved
  · exact hsaved
  · simp only [IEnforcer.get, IEnforcer.set]
    cases hremove : e₁.model.removeFilteredPolicy sec ptype fieldIndex fieldValues with
    | none => exact hsaved
    | some r =>
      obtain ⟨m, removed, rules⟩ := r
      have hmodel : Managed definitions functions { e₁ with model := m } :=
        { hsaved with
          erase := (DefaultModel.eraseRules_removeFilteredPolicy hremove).trans hsaved.erase }
      have hafter := hmodel.afterChange incremental sec removed
        (.removeFilteredPolicy sec ptype rules)
      dsimp only
      generalize Casbin.afterChange incremental { e₁ with model := m } sec removed
        (.removeFilteredPolicy sec ptype rules) = y at hafter ⊢
      obtain ⟨e₂, err | u⟩ := y
      · exact hafter
      · exact hafter

theorem Managed.autoBuilt (h : Managed definitions functions e) :
    Managed definitions functions e.autoBuild.1 := by
  unfold Enforcer.autoBuild
  split
  · exact h.buildRoleLinks
  · exact h

theorem Managed.loadPolicy [Adapter A] (hrules : LoadsRules A)
    (h : Managed definitions functions e) : Managed definitions functions e.loadPolicy.1 := by
  have hload := hrules.loadPolicy e.adapter e.model.clearPolicy
  unfold Enforcer.loadPolicy
  generalize Adapter.loadPolicy e.adapter e.model.clearPolicy = x at hload
  obtain ⟨m, res⟩ := x
  have hmodel : Managed definitions functions { e with model := m } :=
    { h with erase := hload.trans ((e.model.eraseRules_clearPolicy).trans h.erase) }
  cases res with
  | error err => exact hmodel
  | ok u => exact hmodel.autoBuilt

theorem Managed.loadFilteredPolicy [Adapter A] (hrules : LoadsRules A)
    (h : Managed definitions functions e) (filter : Filter) :
    Managed definitions functions (e.loadFilteredPolicy filter).1 := by
  have hload := hrules.loadFilteredPolicy e.adapter e.model.clearPolicy filter
  unfold Enforcer.loadFilteredPolicy
  generalize Adapter.loadFilteredPolicy e.adapter e.model.clearPolicy filter = x at hload
  obtain ⟨⟨a, m⟩, res⟩ := x
  have hmodel : Managed definitions functions { e with adapter := a, model := m } :=
    { h with erase := hload.trans ((e.model.eraseRules_clearPolicy).trans h.erase) }
  cases res with
  | error err => exact hmodel
  | ok u => exact hmodel.autoBuilt

theorem Managed.clearPolicy [Adapter A] (h : Managed definitions functions e) :
    Managed definitions functions e.clearPolicy.1 := by
  have hclear := (e.model.eraseRules_clearPolicy).trans h.erase
  unfold Enforcer.clearPolicy
  split
  · generalize Adapter.clearPolicy e.adapter = x
    obtain ⟨a, err | u⟩ := x
    · exact { h with }
    · exact { h with erase := hclear }
  · exact { h with erase := hclear }

theorem Managed.savePolicy [Adapter A] (h : Managed definitions functions e) :
    Managed definitions functions e.savePolicy.1 := by
  unfold Enforcer.savePolicy
  split
  · exact h
  · exact { h with }

/-- **One step** of a history keeps them. -/
theorem Managed.run [Adapter A] (hrules : LoadsRules A) (incremental : Bool)
    (h : Managed definitions functions e) (step : PolicyStep) :
    Managed definitions functions (step.run incremental e) := by
  cases step with
  | add addition =>
    cases addition with
    | addPolicy sec ptype rule =>
      exact h.changeInternal incremental sec _ (DefaultModel.sectional_addPolicy sec ptype rule).erase
        _
    | addPolicies sec ptype rules =>
      exact h.changeInternal incremental sec _
        (DefaultModel.sectional_addPolicies sec ptype rules).erase _
  | removePolicy sec ptype rule =>
    exact h.changeInternal incremental sec _
      (fun m => m.eraseRules_removePolicy sec ptype rule) _
  | removePolicies sec ptype rules =>
    exact h.changeInternal incremental sec _
      (fun m => m.eraseRules_removePolicies sec ptype rules) _
  | removeFilteredPolicy sec ptype fieldIndex fieldValues =>
    exact h.removeFiltered incremental sec ptype fieldIndex fieldValues
  | loadPolicy => exact h.loadPolicy hrules
  | loadFilteredPolicy filter => exact h.loadFilteredPolicy hrules filter
  | savePolicy => exact h.savePolicy
  | clearPolicy => exact h.clearPolicy
  | buildRoleLinks => exact h.buildRoleLinks

/-- **A whole history** keeps them. -/
theorem managed_runSteps [Adapter A] (hrules : LoadsRules A) (incremental : Bool)
    (steps : List PolicyStep) (e : Enforcer A (DefaultRoleManager G) DefaultEffectStream)
    (h : Managed definitions functions e) :
    Managed definitions functions (runSteps incremental steps e) := by
  induction steps generalizing e with
  | nil => exact h
  | cons step rest ih => exact ih _ (h.run hrules incremental step)

end Managed

/-! ### A new enforcer -/

section Fresh

variable {A : Type} {functionMap : String → Option (String → String → Bool)}

theorem eachOk_map {σ α β : Type} (f : σ → β → σ × Except Fault Unit) (g : α → β) (s : σ)
    (l : List α) : eachOk f s (l.map g) = eachOk (fun s x => f s (g x)) s l := by
  induction l generalizing s with
  | nil => rfl
  | cons x l ih =>
    simp [eachOk, ih]

omit [RoleGraph G] in
/-- Registering looks at the definitions only. -/
theorem registerGFunctions_eraseRules (e : Enforcer A (DefaultRoleManager G) DefaultEffectStream) :
    e.registerGFunctions =
      match e.model.eraseRules.model "g" with
      | none => (e, .ok ())
      | some asts => eachOk registerGFunction e asts.entries := by
  unfold Enforcer.registerGFunctions DefaultModel.eraseRules
  dsimp only
  cases e.model.model "g" with
  | none => rfl
  | some asts =>
    show _ = eachOk registerGFunction e (asts.entries.map _)
    rw [eachOk_map]
    rfl

omit [RoleGraph G] in
/-- A registered function changes neither the model nor anything else. -/
theorem registerGFunctions_functions (e : Enforcer A (DefaultRoleManager G) DefaultEffectStream) :
    e.registerGFunctions.1 = { e with functions := e.registerGFunctions.1.functions } := by
  unfold Enforcer.registerGFunctions
  cases e.model.model "g" with
  | none => rfl
  | some asts =>
    refine eachOk_preserves (P := fun e' : Enforcer A (DefaultRoleManager G) DefaultEffectStream =>
      e' = { e with functions := e'.functions }) ?_ asts.entries e rfl
    intro e' entry he'
    unfold registerGFunction
    dsimp only
    split
    · rw [he']
      rfl
    · exact he'

omit [RoleGraph G] in
/-- Enforcers with the same definitions register the same functions. -/
theorem registerGFunctions_congr {e f : Enforcer A (DefaultRoleManager G) DefaultEffectStream}
    (herase : e.model.eraseRules = f.model.eraseRules) (hfunctions : e.functions = f.functions)
    (hrm : e.rm = f.rm) :
    e.registerGFunctions.1.functions = f.registerGFunctions.1.functions ∧
      e.registerGFunctions.2 = f.registerGFunctions.2 := by
  rw [registerGFunctions_eraseRules e, registerGFunctions_eraseRules f, herase]
  cases f.model.eraseRules.model "g" with
  | none => exact ⟨hfunctions, rfl⟩
  | some asts =>
    have hstep : ∀ (e f : Enforcer A (DefaultRoleManager G) DefaultEffectStream)
        (entry : String × Assertion), e.functions = f.functions ∧ e.rm = f.rm →
        ((registerGFunction e entry).1.functions =
            (registerGFunction f entry).1.functions ∧
          (registerGFunction e entry).1.rm = (registerGFunction f entry).1.rm) ∧
        (registerGFunction e entry).2 = (registerGFunction f entry).2 := by
      rintro e f entry ⟨hfun, hrm⟩
      unfold registerGFunction
      dsimp only
      split
      · simp [Enforcer.registerFn, hfun, hrm]
      · exact ⟨⟨hfun, hrm⟩, rfl⟩
    obtain ⟨⟨hfun, -⟩, hres⟩ := eachOk_relates hstep asts.entries e f ⟨hfunctions, hrm⟩
    exact ⟨hfun, hres⟩

omit [RoleGraph G] in
/-- Only definitions of two or three fields are registered. -/
theorem underscores_of_registered {e e' : Enforcer A (DefaultRoleManager G) DefaultEffectStream}
    {entries : List (String × Assertion)}
    (h : eachOk registerGFunction e entries = (e', .ok ())) :
    ∀ entry ∈ entries, entry.2.underscores = 2 ∨ entry.2.underscores = 3 := by
  induction entries generalizing e with
  | nil => simp
  | cons entry entries ih =>
    obtain ⟨e₁, hentry, hrest⟩ := eachOk_ok_cons h
    intro x hx
    rcases List.mem_cons.mp hx with rfl | hx
    · by_contra hcount
      rw [registerGFunction, if_neg hcount] at hentry
      cases hentry
    · exact ih hrest x hx

open Enforcer (initial)

theorem managed_loadPolicy_initial [Adapter A] (hrules : LoadsRules A) {m : DefaultModel} {a : A}
    {e : Enforcer A (DefaultRoleManager G) DefaultEffectStream}
    (hnew : Enforcer.new functionMap m a = .ok e) :
    (initial G functionMap m a).registerGFunctions.2 = .ok () ∧
      Managed m (initial G functionMap m a).registerGFunctions.1.functions e := by
  have hsame := registerGFunctions_functions (initial G functionMap m a)
  unfold Enforcer.new Enforcer.newRaw at hnew
  generalize (initial G functionMap m a).registerGFunctions = x at hnew hsame ⊢
  obtain ⟨e₁, err | u⟩ := x
  · cases hnew
  · have hmanaged : Managed m e₁.functions
        { initial G functionMap m a with functions := e₁.functions } :=
      ⟨rfl, rfl, rfl, rfl, rfl, rfl, rfl, DefaultRoleManager.regular_new, fun _ _ => rfl⟩
    rw [← hsame] at hmanaged
    have hloaded := hmanaged.loadPolicy hrules
    dsimp only at hnew
    generalize e₁.loadPolicy = y at hnew hloaded
    obtain ⟨e₂, err | u⟩ := y
    · cases hnew
    · obtain rfl : e₂ = e := Except.ok.inj hnew
      exact ⟨rfl, hloaded⟩

/-- Cleared rules of registered definitions build no links. -/
theorem buildRoleLinks_cleared {m : DefaultModel}
    (hcount : ∀ asts, m.clearPolicy.model "g" = some asts →
      ∀ entry ∈ asts.entries, entry.2.underscores = 2 ∨ entry.2.underscores = 3) :
    ∃ rm, m.clearPolicy.buildRoleLinks (DefaultRoleManager.new (G := G) 10).clear = (rm, .ok ()) ∧
      Regular rm ∧ rm.links = ∅ := by
  have hempty : ∀ ptype ast, m.clearPolicy.assertion "g" ptype = some ast →
      ast.policy = LinkedSet.empty := by
    intro ptype ast hast
    rw [← m.clearPolicy.rules_of_assertion "g" ptype hast]
    exact m.rules_clearPolicy "g" ptype (Or.inr rfl)
  have hfit : GroupingsFit m.clearPolicy := by
    intro ptype ast hast
    have hne : m.clearPolicy.model "g" ≠ none := by
      intro hnone
      simp [DefaultModel.assertion, hnone] at hast
    obtain ⟨asts, hasts⟩ := Option.ne_none_iff_exists'.mp hne
    refine ⟨hcount asts hasts _ ((assertion_g_iff hasts ptype ast).mp hast), ?_⟩
    intro rule hrule
    rw [hempty ptype ast hast] at hrule
    exact absurd hrule (LinkedSet.not_mem_empty rule)
  obtain ⟨rm, hbuild⟩ := buildRoleLinks_ok (DefaultRoleManager.new (G := G) 10).clear hfit
  have hclear : Regular (DefaultRoleManager.new (G := G) 10).clear :=
    DefaultRoleManager.regular_new.clear
  obtain ⟨hplain, hlevel, -, hlinks⟩ := links_buildRoleLinks hclear.plain hbuild
  refine ⟨rm, hbuild, ⟨hplain, hlevel.trans hclear.level⟩, ?_⟩
  -- a link comes from a rule, and there is none
  ext l
  rw [hlinks, DefaultRoleManager.links_clear]
  simp only [Set.mem_empty_iff_false, false_or, iff_false]
  rintro ⟨ptype, ast, hast, rule, hrule, -⟩
  rw [hempty ptype ast hast] at hrule
  exact LinkedSet.not_mem_empty rule hrule

/-- With definitions that an enforcer was built from and an empty adapter, building an enforcer
    succeeds, and its role manager has no links. -/
theorem exists_new [Adapter A] {a₀ : A} (hempty : EmptyAdapter a₀) {m m' : DefaultModel} {a : A}
    (hregister : (initial G functionMap m a).registerGFunctions.2 = .ok ())
    (herase : m'.eraseRules = m.eraseRules) :
    ∃ f : Enforcer A (DefaultRoleManager G) _, Enforcer.new functionMap m' a₀ = .ok f ∧
      f.model = m'.clearPolicy ∧ f.adapter = a₀ ∧ (f.rms 0).links = ∅ ∧
      Managed m (initial G functionMap m a).registerGFunctions.1.functions f := by
  obtain ⟨hfunctions, hres⟩ := registerGFunctions_congr (e := initial G functionMap m' a₀)
    (f := initial G functionMap m a) herase rfl rfl
  have hregistered : (initial G functionMap m' a₀).registerGFunctions =
      ({ initial G functionMap m' a₀ with
        functions := (initial G functionMap m a).registerGFunctions.1.functions }, .ok ()) := by
    rw [← hfunctions, ← registerGFunctions_functions]
    exact Prod.ext rfl (hres.trans hregister)
  -- a definition that was registered has two or three fields, so that its links can be built
  have hcount : ∀ asts, m'.clearPolicy.model "g" = some asts →
      ∀ entry ∈ asts.entries, entry.2.underscores = 2 ∨ entry.2.underscores = 3 := by
    intro asts hasts
    have hloop := registerGFunctions_eraseRules (initial G functionMap m' a₀)
    rw [hregistered, show (initial G functionMap m' a₀).model.eraseRules.model "g" = some asts from
      hasts] at hloop
    exact underscores_of_registered hloop.symm
  obtain ⟨rm, hbuild, hregular, hlinks⟩ := buildRoleLinks_cleared (G := G) hcount
  let f : Enforcer A (DefaultRoleManager G) DefaultEffectStream :=
    { initial G functionMap m' a₀ with
      model := m'.clearPolicy
      rms := Function.update (fun _ => DefaultRoleManager.new 10) 0 rm
      functions := (initial G functionMap m a).registerGFunctions.1.functions }
  -- the empty adapter adds nothing to the cleared rules
  have hload : ({ initial G functionMap m' a₀ with
      functions := (initial G functionMap m a).registerGFunctions.1.functions } :
        Enforcer A (DefaultRoleManager G) DefaultEffectStream).loadPolicy = (f, .ok ()) := by
    have hadapter : Adapter.loadPolicy a₀ m'.clearPolicy = (m'.clearPolicy, .ok ()) :=
      hempty.loadPolicy _
    unfold Enforcer.loadPolicy
    simp only [initial, hadapter, Enforcer.autoBuild, if_true, Enforcer.buildRoleLinks]
    have hbuild' : m'.clearPolicy.buildRoleLinks
        (RoleManager.clear (DefaultRoleManager.new (G := G) 10)) = (rm, .ok ()) := hbuild
    rw [hbuild']
    rfl
  have hother : ∀ i ≠ 0, f.rms i = DefaultRoleManager.new 10 := by
    intro i hi
    simp [f, Function.update_of_ne hi]
  refine ⟨f, ?_, rfl, rfl, ?_, ?_⟩
  · simp [Enforcer.new, Enforcer.newRaw, hregistered, hload]
  · exact hlinks
  · refine ⟨(m'.eraseRules_clearPolicy).trans herase, rfl, rfl, rfl, rfl, rfl, rfl, ?_, hother⟩
    exact hregular

/-- Enforcers with one history of definitions are alike once their rules and links are gone. -/
theorem alike_of_managed [Adapter A] {definitions : DefaultModel}
    {functions : String → Nat → Option Callee}
    {e f : Enforcer A (DefaultRoleManager G) DefaultEffectStream}
    (he : Managed definitions functions e) (hf : Managed definitions functions f)
    (hmodel : e.model.SameRules f.model)
    (hreplies : ∀ additions, addReplies e.adapter additions = addReplies f.adapter additions)
    (helinks : (e.rms 0).links = ∅) (hflinks : (f.rms 0).links = ∅) : Alike e f where
  model := hmodel
  replies := hreplies
  eft := he.eft.trans hf.eft.symm
  enabled := he.enabled.trans hf.enabled.symm
  autoSave := he.autoSave.trans hf.autoSave.symm
  autoBuild := he.autoBuild.trans hf.autoBuild.symm
  functions := he.functions.trans hf.functions.symm
  rm := he.rm.trans hf.rm.symm
  rms i := by
    -- managers without links have the same edges, namely none
    by_cases hi : i = 0
    · rw [hi]
      refine ⟨he.regular, hf.regular, fun d => ?_⟩
      simp [DefaultRoleManager.edges_of_links_empty he.regular.plain helinks,
        DefaultRoleManager.edges_of_links_empty hf.regular.plain hflinks]
    · rw [he.others i hi, hf.others i hi]
      exact ⟨DefaultRoleManager.regular_new, DefaultRoleManager.regular_new, fun _ => rfl⟩

omit [RoleGraph G] in
/-- What a successful `clear_policy` leaves. -/
theorem clearPolicy_ok [Adapter A] {e e' : Enforcer A (DefaultRoleManager G) DefaultEffectStream}
    (hsave : e.autoSave = true) (h : e.clearPolicy = (e', .ok ())) :
    Adapter.clearPolicy e.adapter = (e'.adapter, .ok ()) ∧ e'.model = e.model.clearPolicy ∧
      e'.rms = e.rms := by
  unfold Enforcer.clearPolicy at h
  rw [if_pos hsave] at h
  generalize Adapter.clearPolicy e.adapter = x at h
  obtain ⟨a, err | u⟩ := x
  · cases h
  · obtain ⟨rfl, -⟩ := Prod.mk.inj h
    exact ⟨rfl, rfl, rfl⟩

/-- **Clearing the policy of an enforcer without links clears its authority.** Whatever the enforcer
    did before, and whatever rules are added afterwards, it decides as an enforcer built anew from
    the same definitions and an empty adapter, given the same rules. -/
theorem cleared_eq_fresh {Q D K X : Type} [Adapter A] [EnforceArgs Q D K] [Rhai D X]
    (functionMap : String → Option (String → String → Bool)) (hrules : LoadsRules A) (a₀ : A)
    (hempty : EmptyAdapter a₀) (incremental : Bool) (m : DefaultModel) (a : A)
    (steps : List PolicyStep) (e₀ e₁ : Enforcer A (DefaultRoleManager G) DefaultEffectStream)
    (hnew : Enforcer.new functionMap m a = .ok e₀)
    (hclear : (runSteps incremental steps e₀).clearPolicy = (e₁, .ok ()))
    (hlinks : ((runSteps incremental steps e₀).rms (runSteps incremental steps e₀).rm).links = ∅) :
    ∃ f : Enforcer A (DefaultRoleManager G) _,
      Enforcer.new functionMap (runSteps incremental steps e₀).model.eraseRules a₀ = .ok f ∧
      ∀ (additions : List Addition) (q : Q),
        (addAll incremental additions e₁).enforce X q =
          (addAll incremental additions f).enforce X q := by
  obtain ⟨hregister, hmanaged₀⟩ := managed_loadPolicy_initial hrules hnew
  have hmanaged := managed_runSteps hrules incremental steps e₀ hmanaged₀
  generalize runSteps incremental steps e₀ = e at hmanaged hclear hlinks ⊢
  obtain ⟨f, hf, hfmodel, hfadapter, hflinks, hfmanaged⟩ := exists_new hempty hregister
    ((e.model.eraseRules_eraseRules).trans hmanaged.erase)
  refine ⟨f, hf, fun additions q => ?_⟩
  obtain ⟨hadapter, hmodel, hrms⟩ := clearPolicy_ok hmanaged.autoSave hclear
  have hmanaged₁ := hmanaged.clearPolicy
  rw [hclear] at hmanaged₁
  -- both models are down to their definitions
  have hsame : e₁.model.SameRules f.model := by
    rw [hmodel, hfmodel]
    refine ⟨by simp, ?_, ?_⟩
    · rw [DefaultModel.model_clearPolicy (Or.inl rfl), DefaultModel.model_clearPolicy (Or.inl rfl),
        DefaultModel.eraseRules_eraseRules]
    · rw [DefaultModel.model_clearPolicy (Or.inr rfl), DefaultModel.model_clearPolicy (Or.inr rfl),
        DefaultModel.eraseRules_eraseRules]
  have hreplies : ∀ additions, addReplies e₁.adapter additions = addReplies f.adapter additions := by
    rw [hfadapter]
    exact hempty.replies _ _ hadapter
  -- `clear_policy` does not touch the role managers: the links have to be gone before it
  have helinks : (e₁.rms 0).links = ∅ := by
    rw [hrms, ← hmanaged.rm]
    exact hlinks
  have halike := alike_addAll incremental additions e₁ f
    (alike_of_managed hmanaged₁ hfmanaged hsame hreplies helinks hflinks)
  unfold Enforcer.enforce
  cases EnforceArgs.tryIntoVec q with
  | error err => rfl
  | ok rvals => exact halike.privateEnforce rvals

end Fresh

/-! ### The in-memory adapter -/

theorem MemoryAdapter.eraseRules_loadLine (m : DefaultModel) (line : List String) :
    (loadLine m line).eraseRules = m.eraseRules := by
  match line with
  | [] => rfl
  | [_] => rfl
  | sec :: ptype :: rest =>
    exact m.eraseRules_modifyPolicy sec ptype (·.insert (ptype :: rest))

theorem MemoryAdapter.eraseRules_loadFilteredLine {f : Filter} {st st' : DefaultModel × Bool}
    {line : List String} (h : loadFilteredLine f st line = some st') :
    st'.1.eraseRules = st.1.eraseRules := by
  match line with
  | [] => cases h
  | [_] => cases h
  | sec :: ptype :: rest =>
    unfold loadFilteredLine at h
    dsimp only at h
    split at h
    · cases h
    · rw [← Option.some.inj h]
    · rw [← Option.some.inj h]
      exact st.1.eraseRules_modifyPolicy sec ptype (·.insert (ptype :: rest))

/-- The in-memory adapter loads rules only. -/
theorem loadsRules_memoryAdapter : LoadsRules MemoryAdapter where
  loadPolicy a m := by
    show (a.policy.toList.foldl MemoryAdapter.loadLine m).eraseRules = m.eraseRules
    induction a.policy.toList generalizing m with
    | nil => rfl
    | cons line rest ih => rw [List.foldl_cons, ih, MemoryAdapter.eraseRules_loadLine]
  loadFilteredPolicy a m f := by
    have hfold : ∀ (l : List (List String)) (st st' : DefaultModel × Bool),
        l.foldlM (MemoryAdapter.loadFilteredLine f) st = some st' →
        st'.1.eraseRules = st.1.eraseRules := by
      intro l
      induction l with
      | nil =>
        intro st st' h
        rw [← Option.some.inj h]
      | cons line rest ih =>
        intro st st' h
        obtain ⟨st₁, hline, hrest⟩ := Option.bind_eq_some_iff.mp h
        rw [ih st₁ st' hrest, MemoryAdapter.eraseRules_loadFilteredLine hline]
    dsimp only [Adapter.loadFilteredPolicy]
    unfold MemoryAdapter.loadFilteredPolicy
    cases hload : a.policy.toList.foldlM (MemoryAdapter.loadFilteredLine f) (m, a.isFiltered) with
    | none => rfl
    | some st => exact hfold _ _ st hload

/-- A cleared in-memory adapter is a new one. -/
theorem emptyAdapter_memoryAdapter : EmptyAdapter MemoryAdapter.default where
  loadPolicy _ := rfl
  replies a a' h := by
    obtain ⟨rfl, -⟩ := Prod.mk.inj h
    exact fun _ => rfl

/-! ### A sample -/

/-- The matcher of the model with roles. -/
structure RbacMatcher where

instance : Rhai String RbacMatcher where
  ofString s := s
  compileExpression value :=
    if value = "g(r_sub, p_sub) && r_obj == p_obj && r_act == p_act" then .ok ⟨⟩
    else .error (.err (.rhai "not the matcher with roles"))
  evalAst call _ scope :=
    let value := fun name => (scope.lookup name).getD ""
    match call "g" [value "r_sub", value "p_sub"] with
    | none => .error (.err (.rhai "Function not found: g"))
    | some linked =>
      .ok (linked && value "r_obj" == value "p_obj" && value "r_act" == value "p_act")

/-- The model with roles. -/
def rbacModel : DefaultModel where
  model sec :=
    if sec = "r" then
      some (sampleSection "r" "sub, obj, act" ["r_sub", "r_obj", "r_act"] LinkedSet.empty)
    else if sec = "p" then
      some (sampleSection "p" "sub, obj, act" ["p_sub", "p_obj", "p_act"] LinkedSet.empty)
    else if sec = "g" then some (sampleSection "g" "_, _" [] LinkedSet.empty)
    else if sec = "e" then some (sampleSection "e" someAllow [] LinkedSet.empty)
    else if sec = "m" then
      some (sampleSection "m" "g(r_sub, p_sub) && r_obj == p_obj && r_act == p_act" []
        LinkedSet.empty)
    else none

/-- An enforcer with these definitions, and one step that links two roles. -/
def rbacEnforcer : Enforcer MemoryAdapter (DefaultRoleManager Graph) DefaultEffectStream :=
  match Enforcer.new (fun _ => none) rbacModel MemoryAdapter.default with
  | .ok e => e
  | .error _ => Enforcer.initial Graph (fun _ => none) rbacModel MemoryAdapter.default

def linkAlice : PolicyStep := .add (.addPolicy "g" "g" ["alice", "admin"])

/-- With the link removed before clearing, nothing is left of it. -/
theorem cleared_eq_fresh_removed :
    ∃ f : Enforcer _ (DefaultRoleManager Graph) _, Enforcer.new (fun _ => none)
        (runSteps false [linkAlice, .removePolicy "g" "g" ["alice", "admin"]]
          rbacEnforcer).model.eraseRules MemoryAdapter.default = .ok f ∧
      ∀ (additions : List Addition) (q : List String),
        (addAll false additions (runSteps false
            [linkAlice, .removePolicy "g" "g" ["alice", "admin"]]
            rbacEnforcer).clearPolicy.1).enforce RbacMatcher q =
          (addAll false additions f).enforce RbacMatcher q := by
  have hrm : (runSteps false [linkAlice, .removePolicy "g" "g" ["alice", "admin"]]
      rbacEnforcer).rms 0 = (DefaultRoleManager.new 10).clear := rfl
  have hlinks : ((runSteps false [linkAlice, .removePolicy "g" "g" ["alice", "admin"]]
      rbacEnforcer).rms 0).links = ∅ := by
    rw [hrm, DefaultRoleManager.links_clear]
  exact cleared_eq_fresh (fun _ => none) loadsRules_memoryAdapter MemoryAdapter.default
    emptyAdapter_memoryAdapter false rbacModel MemoryAdapter.default _ rbacEnforcer _ rfl rfl hlinks

/-- Clearing forgets the rule that makes `alice` an `admin`, but not the link. -/
theorem cleared_keeps_links :
    ∃ f : Enforcer _ (DefaultRoleManager Graph) _,
      Enforcer.new (fun _ => none) rbacModel MemoryAdapter.default = .ok rbacEnforcer ∧
      (runSteps true [linkAlice] rbacEnforcer).clearPolicy.2 = .ok () ∧
      Enforcer.new (fun _ => none) (runSteps true [linkAlice] rbacEnforcer).model.eraseRules
        MemoryAdapter.default = .ok f ∧
      (addAll true [.addPolicy "p" "p" ["admin", "data1", "read"]]
        (runSteps true [linkAlice] rbacEnforcer).clearPolicy.1).enforce RbacMatcher
        ["alice", "data1", "read"] = .ok true ∧
      (addAll true [.addPolicy "p" "p" ["admin", "data1", "read"]] f).enforce RbacMatcher
        ["alice", "data1", "read"] = .ok false :=
  ⟨_, rfl, rfl, rfl, rfl, rfl⟩

end TeaclaveCrates.Casbin
