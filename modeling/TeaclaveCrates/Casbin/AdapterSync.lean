import Mathlib.Data.Set.Basic
import TeaclaveCrates.Casbin.Enforcer

namespace TeaclaveCrates.Casbin

open Lib
open MemoryAdapter (extendLines line restrict)
open LinkedSet (contains contains_iff mem_extend mem_remove mem_removeAll)

/-!
# The model and the adapter of an enforcer

With `auto_save` on, every internal operation first asks the adapter and changes the model only when
the adapter has changed. The two stores check for duplicates and match fields with code of their
own, on lines that are two fields longer in the adapter.

* `triples` — the section, type and rule of everything that a store holds.
* `PolicyOp`, `PolicyCall` — the five operations, on a section and a type.
* `stores_step` — one operation on two stores that hold the same triples.
* `stores_agree` — they hold the same triples after any sequence of calls.
-/

/-! ### What a store holds -/

/-- The section, type and rule of every rule in the model. -/
def DefaultModel.triples (m : DefaultModel) : Set (String × String × Rule) :=
  {x | x.2.2 ∈ m.rules x.1 x.2.1}

/-- The section, type and rule of every line in the adapter. -/
def MemoryAdapter.triples (a : MemoryAdapter) : Set (String × String × Rule) :=
  {x | line x.1 x.2.1 x.2.2 ∈ a.policy}

variable {t s : String} {r : Rule}

theorem DefaultModel.mem_triples {m : DefaultModel} :
    (s, t, r) ∈ m.triples ↔ r ∈ m.rules s t := Iff.rfl

theorem MemoryAdapter.mem_triples {a : MemoryAdapter} :
    (s, t, r) ∈ a.triples ↔ line s t r ∈ a.policy := Iff.rfl

/-- Two lines are the same when their sections, types and rules are. -/
theorem MemoryAdapter.line_inj {s' t' : String} {r' : Rule} :
    line s t r = line s' t' r' ↔ s = s' ∧ t = t' ∧ r = r' := by
  simp [line]

theorem MemoryAdapter.line_mem_map {s' t' : String} {rs : List Rule} :
    line s t r ∈ rs.map (line s' t') ↔ s = s' ∧ t = t' ∧ r ∈ rs := by
  rw [List.mem_map]
  constructor
  · rintro ⟨r', hr', hl⟩
    obtain ⟨rfl, rfl, rfl⟩ := line_inj.mp hl
    exact ⟨rfl, rfl, hr'⟩
  · rintro ⟨rfl, rfl, hr⟩
    exact ⟨r, hr, rfl⟩

/-- Every line in the adapter is the line of some rule. -/
theorem MemoryAdapter.exists_line (a : MemoryAdapter) {l : List String} (hl : l ∈ a.policy) :
    ∃ s t r, l = line s t r := by
  have h2 := a.two_le l hl
  match l with
  | [] => simp at h2
  | [_] => simp at h2
  | s :: t :: r => exact ⟨s, t, r, rfl⟩

/-! ### The operations -/

/-- The operations of `internal_api.rs`, on a section and a type given beside them. -/
inductive PolicyOp where
  | addPolicy (rule : Rule)
  | addPolicies (rules : List Rule)
  | removePolicy (rule : Rule)
  | removePolicies (rules : List Rule)
  | removeFilteredPolicy (fieldIndex : Nat) (fieldValues : List String)

/-- The operations on more than one rule. -/
def PolicyOp.IsBatch : PolicyOp → Prop
  | addPolicy _ | removePolicy _ => False
  | addPolicies _ | removePolicies _ | removeFilteredPolicy _ _ => True

/-- An operation with its section and type. -/
structure PolicyCall where
  sec : String
  ptype : String
  op : PolicyOp

/-- What the call does to the adapter; `none` is a panic. -/
def PolicyCall.onAdapter (c : PolicyCall) (a : MemoryAdapter) : Option (MemoryAdapter × Bool) :=
  match c.op with
  | .addPolicy rule => some (a.addPolicy c.sec c.ptype rule)
  | .addPolicies rules => some (a.addPolicies c.sec c.ptype rules)
  | .removePolicy rule => some (a.removePolicy c.sec c.ptype rule)
  | .removePolicies rules => some (a.removePolicies c.sec c.ptype rules)
  | .removeFilteredPolicy fieldIndex fieldValues =>
    a.removeFilteredPolicy c.sec c.ptype fieldIndex fieldValues

/-- What the call does to the model; `none` is a panic. -/
def PolicyCall.onModel (c : PolicyCall) (m : DefaultModel) : Option (DefaultModel × Bool) :=
  match c.op with
  | .addPolicy rule => some (m.addPolicy c.sec c.ptype rule)
  | .addPolicies rules => some (m.addPolicies c.sec c.ptype rules)
  | .removePolicy rule => some (m.removePolicy c.sec c.ptype rule)
  | .removePolicies rules => some (m.removePolicies c.sec c.ptype rules)
  | .removeFilteredPolicy fieldIndex fieldValues =>
    (m.removeFilteredPolicy c.sec c.ptype fieldIndex fieldValues).map fun x => (x.1, x.2.1)

/-! ### The filtered removal on both sides -/

private theorem filterAuxM_eq_some_iff {α : Type} (p : α → Option Bool) (l acc ls : List α) :
    l.filterAuxM p acc = some ls ↔
      (∀ x ∈ l, (p x).isSome) ∧ ls = (l.filter fun x => p x = some true).reverse ++ acc := by
  induction l generalizing acc with
  | nil =>
    simp [@eq_comm _ acc ls]
  | cons x l ih =>
    rw [List.filterAuxM]
    cases hx : p x with
    | none => simp [hx]
    | some b =>
      show l.filterAuxM p (cond b (x :: acc) acc) = some ls ↔ _
      rw [ih]
      cases b with
      | true => simp [hx]
      | false => simp [hx]

/-- A filter that may panic returns when no element makes it panic, and then keeps the elements
    that pass. -/
theorem filterM_eq_some_iff {α : Type} (p : α → Option Bool) (l ls : List α) :
    l.filterM p = some ls ↔ (∀ x ∈ l, (p x).isSome) ∧ ls = l.filter fun x => p x = some true := by
  have haux := filterAuxM_eq_some_iff p l [] ls.reverse
  rw [List.append_nil, List.reverse_inj] at haux
  rw [← haux]
  show (l.filterAuxM p []).bind (fun as => some as.reverse) = some ls ↔ _
  cases l.filterAuxM p [] with
  | none => simp
  | some as =>
    simp [List.reverse_eq_iff]

/-- The adapter compares the same fields two positions further to the right. -/
theorem matchFields_line (s t : String) (r : Rule) (i : Nat) (values : List String) :
    DefaultModel.matchFields (line s t r) (i + 2) values =
      DefaultModel.matchFields r i values := by
  induction values generalizing i with
  | nil => rfl
  | cons v vs ih =>
    have hget : (line s t r)[i + 2]? = r[i]? := rfl
    have hnext := ih (i + 1)
    simp [DefaultModel.matchFields, hget, hnext]

namespace PolicyCall

variable {a a' : MemoryAdapter} {m : DefaultModel} {sec ptype : String}

/-- When the adapter's filter returns, so does the model's, and it takes out the rules of the lines
    that the adapter takes out. -/
theorem filteredLines_rules (hsync : a.triples = m.triples) {i : Nat} {values : List String}
    {ls : List (List String)} (hls : a.filteredLines sec ptype i values = some ls) :
    ∃ rs, ((m.rules sec ptype).toList.filterM fun r => DefaultModel.matchFields r i values) =
        some rs ∧
      (∀ r, r ∈ rs ↔ line sec ptype r ∈ ls) ∧
      ∀ l ∈ ls, ∃ r, l = line sec ptype r := by
  have hmem : ∀ r, r ∈ (m.rules sec ptype).toList ↔
      line sec ptype r ∈ a.policy.toList := by
    intro r
    have h := Set.ext_iff.mp hsync (sec, ptype, r)
    exact h.symm
  rw [MemoryAdapter.filteredLines, filterM_eq_some_iff] at hls
  obtain ⟨hall, rfl⟩ := hls
  refine ⟨_, (filterM_eq_some_iff _ _ _).mpr ⟨fun r hr => ?_, rfl⟩, fun r => ?_, fun l hl => ?_⟩
  · have hline := hall _ ((hmem r).mp hr)
    rwa [if_pos ⟨rfl, rfl⟩, matchFields_line] at hline
  · rw [List.mem_filter, List.mem_filter, hmem, if_pos ⟨rfl, rfl⟩, matchFields_line]
  · obtain ⟨hl, hp⟩ := List.mem_filter.mp hl
    obtain ⟨s, t, r, rfl⟩ := a.exists_line hl
    by_cases h : s = sec ∧ t = ptype
    · exact ⟨r, by rw [h.1, h.2]⟩
    · have h' : ¬((line s t r)[0]? = some sec ∧
          (line s t r)[1]? = some ptype) := by simpa [line] using h
      rw [if_neg h'] at hp
      simp at hp

/-- Changing the rules of one type in both stores alike keeps them alike. -/
theorem triples_modify (hsync : a.triples = m.triples) (hdef : (m.assertion sec ptype).isSome)
    (f : LinkedSet Rule → LinkedSet Rule)
    (hsame : ∀ r, line sec ptype r ∈ a'.policy ↔ r ∈ f (m.rules sec ptype))
    (hother : ∀ s t r, ¬(s = sec ∧ t = ptype) →
      (line s t r ∈ a'.policy ↔ line s t r ∈ a.policy)) :
    a'.triples = (m.modifyPolicy sec ptype f).triples := by
  ext ⟨s, t, r⟩
  rw [MemoryAdapter.mem_triples, DefaultModel.mem_triples, DefaultModel.rules_modifyPolicy]
  by_cases h : s = sec ∧ t = ptype
  · obtain ⟨rfl, rfl⟩ := h
    rw [if_pos ⟨rfl, rfl, hdef⟩]
    exact hsame r
  · rw [if_neg fun hh => h ⟨hh.1, hh.2.1⟩, hother s t r h]
    exact Set.ext_iff.mp hsync (s, t, r)

/-! ### One call on two stores that hold the same triples -/

/-- An adapter that reports no change holds what it held, and a batch has not touched it at all. An
    adapter that reports a change is followed by a model that changes in the same way. -/
def Step (c : PolicyCall) (a : MemoryAdapter) (m : DefaultModel) : Prop :=
  match c.onAdapter a with
  | none => True
  | some (a', false) => a'.triples = a.triples ∧ (c.op.IsBatch → a' = a)
  | some (a', true) => ∃ m', c.onModel m = some (m', true) ∧ a'.triples = m'.triples

variable {ast : Assertion}

theorem step_addPolicy (hsync : a.triples = m.triples) (hast : m.assertion sec ptype = some ast)
    (rule : Rule) :
    Step ⟨sec, ptype, .addPolicy rule⟩ a m := by
  have hdef : (m.assertion sec ptype).isSome := by rw [hast]; rfl
  have hhas : line sec ptype rule ∈ a.policy ↔ rule ∈ ast.policy := by
    rw [← m.rules_of_assertion sec ptype hast]
    exact Set.ext_iff.mp hsync (sec, ptype, rule)
  simp only [Step, onAdapter, onModel, MemoryAdapter.addPolicy, DefaultModel.addPolicy, hast]
  by_cases h : line sec ptype rule ∈ a.policy
  · rw [(a.policy.contains_iff _).mpr h]
    refine ⟨?_, fun hb => hb.elim⟩
    ext ⟨s, t, r⟩
    simp only [MemoryAdapter.mem_triples, extendLines, mem_extend,
      MemoryAdapter.line_mem_map, List.mem_singleton]
    refine ⟨?_, Or.inr⟩
    rintro (⟨rfl, rfl, rfl⟩ | h')
    · exact h
    · exact h'
  · have hno : ast.policy.contains rule = false := by
      rw [contains, decide_eq_false_iff_not, ← hhas]
      exact h
    have hno' : a.policy.contains (line sec ptype rule) = false := by
      rw [contains, decide_eq_false_iff_not]
      exact h
    rw [hno, hno']
    refine ⟨_, rfl, triples_modify hsync hdef (·.insert rule) (fun r => ?_) fun s t r hne => ?_⟩
    · simp only [extendLines, mem_extend, MemoryAdapter.line_mem_map,
        List.mem_singleton, true_and, LinkedSet.mem_insert]
      exact or_congr Iff.rfl (Set.ext_iff.mp hsync (sec, ptype, r))
    · simp only [extendLines, mem_extend, MemoryAdapter.line_mem_map]
      exact or_iff_right fun hh => hne ⟨hh.1, hh.2.1⟩

theorem step_addPolicies (hsync : a.triples = m.triples) (hast : m.assertion sec ptype = some ast)
    (rules : List Rule) :
    Step ⟨sec, ptype, .addPolicies rules⟩ a m := by
  have hdef : (m.assertion sec ptype).isSome := by rw [hast]; rfl
  have hhas : (rules.any fun r => a.policy.contains (line sec ptype r)) =
      rules.any ast.policy.contains := by
    congr 1
    funext r
    rw [Bool.eq_iff_iff, contains_iff, contains_iff,
      ← m.rules_of_assertion sec ptype hast]
    exact Set.ext_iff.mp hsync (sec, ptype, r)
  simp only [Step, onAdapter, onModel, MemoryAdapter.addPolicies, DefaultModel.addPolicies, hast,
    hhas]
  by_cases h : rules.any ast.policy.contains
  · rw [if_pos h]
    exact ⟨rfl, fun _ => rfl⟩
  · rw [if_neg h, if_neg h]
    refine ⟨_, rfl, triples_modify hsync hdef (·.extend rules) (fun r => ?_) fun s t r hne => ?_⟩
    · simp only [extendLines, mem_extend, MemoryAdapter.line_mem_map,
        true_and]
      exact or_congr Iff.rfl (Set.ext_iff.mp hsync (sec, ptype, r))
    · simp only [extendLines, mem_extend, MemoryAdapter.line_mem_map]
      exact or_iff_right fun hh => hne ⟨hh.1, hh.2.1⟩

theorem step_removePolicy (hsync : a.triples = m.triples) (hast : m.assertion sec ptype = some ast)
    (rule : Rule) :
    Step ⟨sec, ptype, .removePolicy rule⟩ a m := by
  have hdef : (m.assertion sec ptype).isSome := by rw [hast]; rfl
  have hhas : line sec ptype rule ∈ a.policy ↔ rule ∈ ast.policy := by
    rw [← m.rules_of_assertion sec ptype hast]
    exact Set.ext_iff.mp hsync (sec, ptype, rule)
  simp only [Step, onAdapter, onModel, MemoryAdapter.removePolicy, DefaultModel.removePolicy, hast]
  by_cases h : line sec ptype rule ∈ a.policy
  · rw [(a.policy.contains_iff _).mpr h, (ast.policy.contains_iff _).mpr (hhas.mp h)]
    refine ⟨_, rfl, triples_modify hsync hdef (·.remove rule) (fun r => ?_) fun s t r hne => ?_⟩
    · simp only [restrict, mem_remove, ne_eq, MemoryAdapter.line_inj,
        true_and]
      exact and_congr Iff.rfl (Set.ext_iff.mp hsync (sec, ptype, r))
    · simp only [restrict, mem_remove, ne_eq, MemoryAdapter.line_inj]
      exact and_iff_right fun hh => hne ⟨hh.1, hh.2.1⟩
  · have hno : a.policy.contains (line sec ptype rule) = false := by
      rw [contains, decide_eq_false_iff_not]
      exact h
    rw [hno]
    refine ⟨?_, fun hb => hb.elim⟩
    ext ⟨s, t, r⟩
    simp only [MemoryAdapter.mem_triples, restrict, mem_remove]
    exact and_iff_right_of_imp fun hl hh => h (hh ▸ hl)

theorem step_removePolicies (hsync : a.triples = m.triples)
    (hast : m.assertion sec ptype = some ast) (rules : List Rule) :
    Step ⟨sec, ptype, .removePolicies rules⟩ a m := by
  have hdef : (m.assertion sec ptype).isSome := by rw [hast]; rfl
  have hhas : (rules.all fun r => a.policy.contains (line sec ptype r)) =
      rules.all ast.policy.contains := by
    congr 1
    funext r
    rw [Bool.eq_iff_iff, contains_iff, contains_iff,
      ← m.rules_of_assertion sec ptype hast]
    exact Set.ext_iff.mp hsync (sec, ptype, r)
  simp only [Step, onAdapter, onModel, MemoryAdapter.removePolicies, DefaultModel.removePolicies,
    hast, hhas]
  by_cases h : rules.all ast.policy.contains
  · rw [if_pos h, if_pos h]
    refine ⟨_, rfl, triples_modify hsync hdef (·.removeAll rules) (fun r => ?_) fun s t r hne => ?_⟩
    · simp only [restrict, mem_removeAll, MemoryAdapter.line_mem_map,
        true_and]
      exact and_congr Iff.rfl (Set.ext_iff.mp hsync (sec, ptype, r))
    · simp only [restrict, mem_removeAll, MemoryAdapter.line_mem_map]
      exact and_iff_right fun hh => hne ⟨hh.1, hh.2.1⟩
  · rw [if_neg h]
    exact ⟨rfl, fun _ => rfl⟩

theorem step_removeFilteredPolicy (hsync : a.triples = m.triples)
    (hast : m.assertion sec ptype = some ast) (i : Nat) (values : List String) :
    Step ⟨sec, ptype, .removeFilteredPolicy i values⟩ a m := by
  have hdef : (m.assertion sec ptype).isSome := by rw [hast]; rfl
  simp only [Step, onAdapter, onModel, MemoryAdapter.removeFilteredPolicy,
    DefaultModel.removeFilteredPolicy, hast]
  by_cases hv : values.isEmpty
  · rw [if_pos hv]
    exact ⟨rfl, fun _ => rfl⟩
  · rw [if_neg hv, if_neg hv]
    cases hls : a.filteredLines sec ptype i values with
    | none => trivial
    | some ls =>
      obtain ⟨rs, hrs, hmem, hline⟩ := filteredLines_rules hsync hls
      rw [m.rules_of_assertion sec ptype hast] at hrs
      cases ls with
      | nil =>
        -- nothing matched, so the adapter writes back what it has read
        exact ⟨rfl, fun _ => rfl⟩
      | cons l ls =>
        obtain ⟨r₀, hr₀⟩ := hline l List.mem_cons_self
        have hne : rs ≠ [] := by
          intro hnil
          have := (hmem r₀).mpr (hr₀ ▸ List.mem_cons_self)
          rw [hnil] at this
          simp at this
        refine ⟨m.modifyPolicy sec ptype (·.removeAll rs), ?_,
          triples_modify hsync hdef (·.removeAll rs) (fun r => ?_) fun s t r hne' => ?_⟩
        · simp [hrs, hne]
        · simp only [restrict, mem_removeAll, hmem]
          exact and_congr Iff.rfl (Set.ext_iff.mp hsync (sec, ptype, r))
        · simp only [restrict, mem_removeAll]
          refine and_iff_right fun hl => ?_
          obtain ⟨r', hr'⟩ := hline _ hl
          obtain ⟨hs, ht, -⟩ := MemoryAdapter.line_inj.mp hr'
          exact hne' ⟨hs, ht⟩

/-- **One call.** On stores that hold the same triples every operation is a `Step`. -/
theorem stores_step (c : PolicyCall) (hsync : a.triples = m.triples)
    (hdef : (m.assertion c.sec c.ptype).isSome) : c.Step a m := by
  obtain ⟨sec, ptype, op⟩ := c
  obtain ⟨ast, hast⟩ := Option.isSome_iff_exists.mp hdef
  cases op with
  | addPolicy rule => exact step_addPolicy hsync hast rule
  | addPolicies rules => exact step_addPolicies hsync hast rules
  | removePolicy rule => exact step_removePolicy hsync hast rule
  | removePolicies rules => exact step_removePolicies hsync hast rules
  | removeFilteredPolicy i values => exact step_removeFilteredPolicy hsync hast i values

/-! ### Calls on an enforcer -/

section Enforcers

variable {T R S : Type} [IEnforcer T MemoryAdapter R S] [RoleManager R]

open IEnforcer

/-- The call on an enforcer, plain or cached, with or without incremental role links. -/
def run (incremental : Bool) (c : PolicyCall) (t : T) : T × Except Fault Bool :=
  match c.op with
  | .addPolicy rule => addPolicyInternal incremental t c.sec c.ptype rule
  | .addPolicies rules => addPoliciesInternal incremental t c.sec c.ptype rules
  | .removePolicy rule => removePolicyInternal incremental t c.sec c.ptype rule
  | .removePolicies rules => removePoliciesInternal incremental t c.sec c.ptype rules
  | .removeFilteredPolicy fieldIndex fieldValues =>
    (removeFilteredPolicyInternal incremental t c.sec c.ptype fieldIndex fieldValues).map id
      (Except.map Prod.fst)

/-- A sequence of calls, each on the enforcer that the one before has left. -/
def runAll (incremental : Bool) (calls : List PolicyCall) (t : T) : T :=
  calls.foldl (fun t c => (c.run incremental t).1) t

/-- The part of an enforcer that the agreement of the stores is about. -/
def stores (t : T) : MemoryAdapter × DefaultModel × Bool :=
  ((get t).adapter, (get t).model, (get t).autoSave)

variable (incremental : Bool)

/-- Clearing the cache and building role links touch neither store. -/
theorem stores_afterChange (t : T) (sec : String) (changed : Bool) (d : EventData) :
    stores (afterChange incremental t sec changed d).1 = stores t := by
  have hclear : stores (if changed then clearCache t else t) = stores t := by
    cases changed with
    | true => simp [stores, get_clearCache]
    | false => rfl
  rw [← hclear]
  unfold afterChange
  generalize (if changed then clearCache t else t) = t'
  dsimp only
  split
  · rfl
  · cases incremental with
    | true => simp [stores, get_set, Enforcer.buildIncrementalRoleLinks, Enforcer.setRm]
    | false => simp [stores, get_set, Enforcer.buildRoleLinks, Enforcer.setRm]

theorem afterChange_set (t : T) (e : Enforcer MemoryAdapter R S) (sec : String) (changed : Bool)
    (d : EventData) :
    ∃ t' res, afterChange incremental (set t e) sec changed d = (t', res) ∧
      stores t' = (e.adapter, e.model, e.autoSave) := by
  have hst := stores_afterChange incremental (set t e) sec changed d
  refine ⟨(afterChange incremental (set t e) sec changed d).1, _, rfl, ?_⟩
  rw [hst, stores, get_set]

/-- What a call leaves in the stores and returns, by what the adapter and the model answer. -/
def Outcome (t t' : T) (res : Except Fault Bool) (onAdapter : Option (MemoryAdapter × Bool))
    (onModel : Option (DefaultModel × Bool)) : Prop :=
  match onAdapter with
  | none => stores t' = stores t ∧ res = .error .panic
  | some (a', false) => stores t' = (a', (get t).model, true) ∧ res = .ok false
  | some (a', true) =>
    match onModel with
    | none => stores t' = (a', (get t).model, true) ∧ res = .error .panic
    | some (m', changed) =>
      stores t' = (a', m', true) ∧ (res = .ok changed ∨ ∃ err, res = .error err)

theorem outcome_changeInternal (t : T) (hauto : (get t).autoSave = true) (sec : String)
    (save : MemoryAdapter → MemoryAdapter × Bool) (change : DefaultModel → DefaultModel × Bool)
    (d : EventData) :
    Outcome t (changeInternal incremental t sec (fun a => (save a).map id .ok) change d).1
      (changeInternal incremental t sec (fun a => (save a).map id .ok) change d).2
      (some (save (get t).adapter)) (some (change (get t).model)) := by
  have hsaved : autoSaved t (fun a => (save a).map id .ok) =
      (set t { get t with adapter := (save (get t).adapter).1 },
        .ok (save (get t).adapter).2) := by
    simp [autoSaved, hauto]
  unfold changeInternal
  rw [hsaved]
  cases hres : save (get t).adapter with
  | mk a' saved =>
    cases saved with
    | false =>
      refine ⟨?_, rfl⟩
      simp [stores, get_set, hauto]
    | true =>
      simp only [get_set]
      cases hch : change (get t).model with
      | mk m' changed =>
        obtain ⟨t', res, hafter, hst⟩ := afterChange_set incremental
          (set t { get t with adapter := a' }) { get t with adapter := a', model := m' }
          sec changed d
        rw [hafter]
        rw [hauto] at hst
        cases res with
        | ok u => exact ⟨hst, Or.inl rfl⟩
        | error err => exact ⟨hst, Or.inr ⟨err, rfl⟩⟩

theorem outcome_removeFiltered (t : T) (hauto : (get t).autoSave = true) (sec ptype : String)
    (i : Nat) (values : List String) :
    Outcome t (removeFilteredPolicyInternal incremental t sec ptype i values).1
      ((removeFilteredPolicyInternal incremental t sec ptype i values).2.map Prod.fst)
      ((get t).adapter.removeFilteredPolicy sec ptype i values)
      (((get t).model.removeFilteredPolicy sec ptype i values).map fun x => (x.1, x.2.1)) := by
  unfold removeFilteredPolicyInternal
  cases hres : (get t).adapter.removeFilteredPolicy sec ptype i values with
  | none =>
    have hsaved : autoSaved t (fun a => Adapter.removeFilteredPolicy a sec ptype i values) =
        (set t (get t), .error .panic) := by
      rw [autoSaved, if_pos hauto]
      simp [Adapter.removeFilteredPolicy, hres]
    rw [hsaved]
    refine ⟨?_, rfl⟩
    simp [stores, get_set]
  | some x =>
    obtain ⟨a', removed⟩ := x
    have hsaved : autoSaved t (fun a => Adapter.removeFilteredPolicy a sec ptype i values) =
        (set t { get t with adapter := a' }, .ok removed) := by
      simp [autoSaved, hauto, Adapter.removeFilteredPolicy, hres]
    rw [hsaved]
    cases removed with
    | false =>
      refine ⟨?_, rfl⟩
      simp [stores, get_set, hauto]
    | true =>
      simp only [get_set]
      cases hch : (get t).model.removeFilteredPolicy sec ptype i values with
      | none =>
        refine ⟨?_, rfl⟩
        simp [stores, get_set, hauto]
      | some y =>
        obtain ⟨m', changed, rs⟩ := y
        obtain ⟨t', res, hafter, hst⟩ := afterChange_set incremental
          (set t { get t with adapter := a' }) { get t with adapter := a', model := m' }
          sec changed (.removeFilteredPolicy sec ptype rs)
        dsimp only at hafter hst ⊢
        rw [hafter]
        rw [hauto] at hst
        cases res with
        | ok u => exact ⟨hst, Or.inl rfl⟩
        | error err => exact ⟨hst, Or.inr ⟨err, rfl⟩⟩

theorem outcome_run (c : PolicyCall) (t : T) (hauto : (get t).autoSave = true) :
    Outcome t (c.run incremental t).1 (c.run incremental t).2 (c.onAdapter (get t).adapter)
      (c.onModel (get t).model) := by
  obtain ⟨sec, ptype, op⟩ := c
  cases op with
  | addPolicy rule =>
    exact outcome_changeInternal incremental t hauto sec (fun a => a.addPolicy sec ptype rule)
      (fun m => m.addPolicy sec ptype rule) (.addPolicy sec ptype rule)
  | addPolicies rules =>
    exact outcome_changeInternal incremental t hauto sec (fun a => a.addPolicies sec ptype rules)
      (fun m => m.addPolicies sec ptype rules) (.addPolicies sec ptype rules)
  | removePolicy rule =>
    exact outcome_changeInternal incremental t hauto sec (fun a => a.removePolicy sec ptype rule)
      (fun m => m.removePolicy sec ptype rule) (.removePolicy sec ptype rule)
  | removePolicies rules =>
    exact outcome_changeInternal incremental t hauto sec (fun a => a.removePolicies sec ptype rules)
      (fun m => m.removePolicies sec ptype rules) (.removePolicies sec ptype rules)
  | removeFilteredPolicy i values =>
    exact outcome_removeFiltered incremental t hauto sec ptype i values

/-! ### Whole runs -/

/-- The stores hold the same triples, saving is on, and the types of `m₀` are still defined. -/
structure Agree (m₀ : DefaultModel) (t : T) : Prop where
  autoSave : (get t).autoSave = true
  triples : (get t).adapter.triples = (get t).model.triples
  defined : ∀ sec ptype, (m₀.assertion sec ptype).isSome →
    ((get t).model.assertion sec ptype).isSome

/-- No operation adds or removes a type. -/
theorem isSome_assertion_onModel (c : PolicyCall) {m m' : DefaultModel} {changed : Bool}
    (h : c.onModel m = some (m', changed)) (s t : String) :
    (m'.assertion s t).isSome = (m.assertion s t).isSome := by
  have hmod : m' = m ∨ ∃ f, m' = m.modifyPolicy c.sec c.ptype f := by
    obtain ⟨sec, ptype, op⟩ := c
    cases op with
    | addPolicy rule =>
      simp only [onModel, DefaultModel.addPolicy, Option.some.injEq] at h
      split at h
      · exact Or.inr ⟨(·.insert rule), (congrArg Prod.fst h).symm⟩
      · exact Or.inl (congrArg Prod.fst h).symm
    | addPolicies rules =>
      simp only [onModel, DefaultModel.addPolicies, Option.some.injEq] at h
      split at h
      · split at h
        · exact Or.inl (congrArg Prod.fst h).symm
        · exact Or.inr ⟨(·.extend rules), (congrArg Prod.fst h).symm⟩
      · exact Or.inl (congrArg Prod.fst h).symm
    | removePolicy rule =>
      simp only [onModel, DefaultModel.removePolicy, Option.some.injEq] at h
      split at h
      · exact Or.inr ⟨(·.remove rule), (congrArg Prod.fst h).symm⟩
      · exact Or.inl (congrArg Prod.fst h).symm
    | removePolicies rules =>
      simp only [onModel, DefaultModel.removePolicies, Option.some.injEq] at h
      split at h
      · split at h
        · exact Or.inr ⟨(·.removeAll rules), (congrArg Prod.fst h).symm⟩
        · exact Or.inl (congrArg Prod.fst h).symm
      · exact Or.inl (congrArg Prod.fst h).symm
    | removeFilteredPolicy i values =>
      simp only [onModel, DefaultModel.removeFilteredPolicy, Option.map_eq_some_iff] at h
      obtain ⟨x, hx, hm'⟩ := h
      obtain rfl : x.1 = m' := congrArg Prod.fst hm'
      split at hx
      · exact Or.inl (congrArg Prod.fst (Option.some.inj hx)).symm
      · split at hx
        · exact Or.inl (congrArg Prod.fst (Option.some.inj hx)).symm
        · obtain ⟨rs, -, hrs⟩ := Option.bind_eq_some_iff.mp hx
          exact Or.inr ⟨(·.removeAll rs), (congrArg Prod.fst (Option.some.inj hrs)).symm⟩
  rcases hmod with rfl | ⟨f, rfl⟩
  · rfl
  · exact DefaultModel.isSome_assertion_modifyPolicy m c.sec c.ptype f s t

/-- A call keeps the stores in agreement, and a batch that reports no change has made none. -/
theorem agree_run {m₀ : DefaultModel} (c : PolicyCall) {t : T} (h : Agree m₀ t)
    (hdef : (m₀.assertion c.sec c.ptype).isSome) :
    Agree m₀ (c.run incremental t).1 ∧
      (c.op.IsBatch → (c.run incremental t).2 = .ok false →
        stores (c.run incremental t).1 = stores t) := by
  have hstep := c.stores_step h.triples (h.defined _ _ hdef)
  have hout := outcome_run incremental c t h.autoSave
  have hagree : ∀ {t' : T} {a' m'}, stores t' = (a', m', true) → a'.triples = m'.triples →
      (∀ s p, ((get t).model.assertion s p).isSome → (m'.assertion s p).isSome) → Agree m₀ t' := by
    intro t' a' m' hst htr hd
    simp only [stores, Prod.mk.injEq] at hst
    obtain ⟨rfl, rfl, hsave⟩ := hst
    exact ⟨hsave, htr, fun s p hp => hd s p (h.defined s p hp)⟩
  revert hstep hout
  generalize (c.run incremental t).1 = t', (c.run incremental t).2 = res
  unfold Step Outcome
  match hA : c.onAdapter (get t).adapter with
  | none =>
    rintro - ⟨hst, rfl⟩
    refine ⟨hagree (hst.trans ?_) h.triples fun s p hp => hp, fun _ hres => absurd hres (by simp)⟩
    rw [stores, h.autoSave]
  | some (a', false) =>
    rintro ⟨htr, hbatch⟩ ⟨hst, -⟩
    refine ⟨hagree hst (htr.trans h.triples) fun s p hp => hp, fun hb _ => ?_⟩
    rw [hst, hbatch hb, stores, h.autoSave]
  | some (a', true) =>
    rintro ⟨m', hM, htr⟩
    rw [hM]
    rintro ⟨hst, hres⟩
    refine ⟨hagree hst htr fun s p hp => ?_, fun _ hfalse => ?_⟩
    · rw [isSome_assertion_onModel c hM]
      exact hp
    · -- the model reports the change that the adapter has reported
      rcases hres with rfl | ⟨err, rfl⟩
      · exact absurd hfalse (by simp)
      · exact absurd hfalse (by simp)

theorem agree_runAll {m₀ : DefaultModel} (calls : List PolicyCall) {t : T} (h : Agree m₀ t)
    (hdef : ∀ c ∈ calls, (m₀.assertion c.sec c.ptype).isSome) :
    Agree m₀ (runAll incremental calls t) := by
  induction calls generalizing t with
  | nil => exact h
  | cons c calls ih =>
    have hc := (agree_run incremental c h (hdef c List.mem_cons_self)).1
    exact ih hc fun c' hc' => hdef c' (List.mem_cons_of_mem c hc')

/-- **Model and adapter agree.** From empty policies and with `auto_save` on, after any calls on
    defined types the adapter and the model hold the same triples, whatever the calls have returned;
    and a batch call made then that returns `false` changes neither store. -/
theorem stores_agree (incremental : Bool) (t₀ : T) (hsave : (get t₀).autoSave = true)
    (hadapter : (get t₀).adapter.policy = LinkedSet.empty)
    (hmodel : ∀ s p, (get t₀).model.rules s p = LinkedSet.empty) (calls : List PolicyCall)
    (hdef : ∀ c ∈ calls, ((get t₀).model.assertion c.sec c.ptype).isSome) :
    (get (runAll incremental calls t₀)).adapter.triples =
        (get (runAll incremental calls t₀)).model.triples ∧
      ∀ c : PolicyCall, ((get t₀).model.assertion c.sec c.ptype).isSome → c.op.IsBatch →
        (c.run incremental (runAll incremental calls t₀)).2 = .ok false →
          stores (c.run incremental (runAll incremental calls t₀)).1 =
            stores (runAll incremental calls t₀) := by
  have hstart : Agree (get t₀).model t₀ := by
    refine ⟨hsave, ?_, fun _ _ h => h⟩
    ext ⟨s, p, r⟩
    rw [MemoryAdapter.mem_triples, DefaultModel.mem_triples, hadapter, hmodel]
    simp
  have hrun := agree_runAll incremental calls hstart hdef
  exact ⟨hrun.triples, fun c hc hb hres => (agree_run incremental c hrun hc).2 hb hres⟩

end Enforcers

/-- An enforcer that saves to an empty adapter, with one policy type and no rules. -/
def sampleSaving : Enforcer MemoryAdapter (DefaultRoleManager Graph) Unit where
  model := MemoryAdapter.sampleModel.clearPolicy
  adapter := MemoryAdapter.default
  eft := { newStream := fun _ _ => .ok () }
  rm := 0
  rms := fun _ => DefaultRoleManager.new 10
  enabled := true
  autoSave := true
  autoBuildRoleLinks := true
  functions := fun _ _ => none

theorem sampleSaving_rules (s p : String) : sampleSaving.model.rules s p = LinkedSet.empty := by
  by_cases hs : s = "p" ∨ s = "g"
  · exact DefaultModel.rules_clearPolicy _ s p hs
  · have hp : s ≠ "p" := fun h => hs (Or.inl h)
    simp [sampleSaving, DefaultModel.rules, DefaultModel.assertion, DefaultModel.clearPolicy,
      MemoryAdapter.sampleModel, hp]

/-- A batch that repeats a rule, a refused batch, and a filtered removal that leaves one rule. -/
def sampleCalls : List PolicyCall :=
  [⟨"p", "p", .addPolicies [["alice", "data1"], ["bob", "data2"], ["alice", "data1"]]⟩,
    ⟨"p", "p", .addPolicies [["carol", "data1"], ["bob", "data2"]]⟩,
    ⟨"p", "p", .removeFilteredPolicy 1 ["data1"]⟩]

theorem stores_agree_sample :
    sampleSaving.autoSave = true ∧ sampleSaving.adapter.policy = LinkedSet.empty ∧
      (∀ c ∈ sampleCalls, (sampleSaving.model.assertion c.sec c.ptype).isSome) ∧
      (runAll true sampleCalls sampleSaving).model.getPolicy "p" "p" = [["bob", "data2"]] ∧
      (runAll true sampleCalls sampleSaving).adapter.triples =
        (runAll true sampleCalls sampleSaving).model.triples :=
  ⟨rfl, rfl, by decide, by decide,
    (stores_agree true sampleSaving rfl rfl sampleSaving_rules sampleCalls (by decide)).1⟩

end PolicyCall

end TeaclaveCrates.Casbin
