import Mathlib.Data.Set.Function
import TeaclaveCrates.Casbin.Enforcer

namespace TeaclaveCrates.Casbin

open Lib

/-!
# The cached enforcer

`cached_enforcer.rs` wraps an enforcer with a cache of decisions. Only the internal add and remove
operations emit `ClearCache`; every other operation is forwarded to the enforcer inside.

* `Cache` — a cache of decisions; it may forget, but only returns what was set and not cleared.
* `CachedEnforcer` — the wrapper, with `enforce`.
* `Op`, `Op.plain`, `Op.cached` — the operations, on either kind of enforcer.
* `View` — what a decision reads of an enforcer.
* `cachedRun_eq_plainRun` — runs whose uncleared steps do not change the view give the same replies
  with and without the cache.
-/

/-! ### Caches and requests -/

/-- `trait Cache` for decisions, with what is known about it: `Holds` are the entries that were set
    and not cleared, `tick` is anything the cache does to them on its own. -/
class Cache (C : Type) (K : outParam Type) where
  get : C → K → Option Bool
  set : C → K → Bool → C
  clear : C → C
  tick : C → C
  Holds : C → K → Bool → Prop
  holds_of_get : ∀ c k v, get c k = some v → Holds c k v
  holds_set : ∀ c k v k' v', Holds (set c k v) k' v' → k' = k ∧ v' = v ∨ Holds c k' v'
  not_holds_clear : ∀ c k v, ¬Holds (clear c) k v
  holds_tick : ∀ c k v, Holds (tick c) k v → Holds c k v

/-- `trait EnforceArgs` -/
class EnforceArgs (Q : Type) (D K : outParam Type) where
  tryIntoVec : Q → Except Fault (List D)
  cacheKey : Q → K

structure CachedEnforcer (A R S C : Type) where
  enforcer : Enforcer A R S
  cache : C

variable {A R S C D K Q X : Type}

/-- `clear_cache` is registered for `ClearCache`. -/
instance [Cache C K] : IEnforcer (CachedEnforcer A R S C) A R S where
  get ce := ce.enforcer
  set ce e := { ce with enforcer := e }
  clearCache ce := { ce with cache := Cache.clear ce.cache }
  get_set _ _ := rfl
  get_clearCache _ := rfl

section Enforce

variable [RoleManager R] [EffectorStream S] [EnforceArgs Q D K] [Cache C K]

/-- `Enforcer::enforce` -/
def Enforcer.enforce (X : Type) [Rhai D X] (e : Enforcer A R S) (q : Q) : Except Fault Bool :=
  match EnforceArgs.tryIntoVec q with
  | .ok rvals => e.privateEnforce X rvals
  | .error err => .error err

namespace CachedEnforcer

/-- Only a decision that was reached is cached. -/
def privateEnforce (X : Type) [Rhai D X] (ce : CachedEnforcer A R S C) (rvals : List D)
    (cacheKey : K) : CachedEnforcer A R S C × Except Fault Bool :=
  match Cache.get ce.cache cacheKey with
  | some authorized => (ce, .ok authorized)
  | none =>
    match ce.enforcer.privateEnforce X rvals with
    | .ok authorized =>
      ({ ce with cache := Cache.set ce.cache cacheKey authorized }, .ok authorized)
    | .error err => (ce, .error err)

/-- `CachedEnforcer::enforce` -/
def enforce (X : Type) [Rhai D X] (ce : CachedEnforcer A R S C) (q : Q) :
    CachedEnforcer A R S C × Except Fault Bool :=
  match EnforceArgs.tryIntoVec q with
  | .ok rvals => ce.privateEnforce X rvals (EnforceArgs.cacheKey q)
  | .error err => (ce, .error err)

end CachedEnforcer

end Enforce

/-! ### The operations -/

/-- The operations of the core and management interfaces, and the cache's own activity. -/
inductive Op (A S Q : Type) where
  | addPolicy (sec ptype : String) (rule : Rule)
  | addPolicies (sec ptype : String) (rules : List Rule)
  | removePolicy (sec ptype : String) (rule : Rule)
  | removePolicies (sec ptype : String) (rules : List Rule)
  | removeFilteredPolicy (sec ptype : String) (fieldIndex : Nat) (fieldValues : List String)
  | loadPolicy
  | loadFilteredPolicy (f : Filter)
  | savePolicy
  | clearPolicy
  | setModel (m : Except Fault DefaultModel)
  | setAdapter (a : Except Fault A)
  | setRoleManager (rm : Nat)
  | setEffector (eft : Effector S)
  | addFunction (name : String) (f : String → String → Bool)
  | enableEnforce (enabled : Bool)
  | enableAutoSave (autoSave : Bool)
  | enableAutoBuildRoleLinks (autoBuildRoleLinks : Bool)
  | buildRoleLinks
  | enforce (q : Q)
  | tick

/-- What a call returns. -/
inductive Reply where
  | unit (r : Except Fault Unit)
  | bool (r : Except Fault Bool)
  | rules (r : Except Fault (Bool × List Rule))

section Run

variable [Adapter A] [RoleManager R]

/-- The operations that a cached enforcer forwards to the enforcer inside. -/
def Op.core (op : Op A S Q) (e : Enforcer A R S) : Enforcer A R S × Except Fault Unit :=
  match op with
  | loadPolicy => e.loadPolicy
  | loadFilteredPolicy f => e.loadFilteredPolicy f
  | savePolicy => e.savePolicy
  | clearPolicy => e.clearPolicy
  | setModel m => e.setModel m
  | setAdapter a => e.setAdapter a
  | setRoleManager rm => e.setRoleManager rm
  | setEffector eft => ({ e with eft := eft }, .ok ())
  | addFunction name f => (e.addFunction name f, .ok ())
  | enableEnforce enabled => ({ e with enabled := enabled }, .ok ())
  | enableAutoSave autoSave => ({ e with autoSave := autoSave }, .ok ())
  | enableAutoBuildRoleLinks autoBuildRoleLinks =>
    ({ e with autoBuildRoleLinks := autoBuildRoleLinks }, .ok ())
  | buildRoleLinks => e.buildRoleLinks
  | _ => (e, .ok ())

/-- An operation other than `enforce` on a plain or cached enforcer. -/
def Op.manage {T : Type} [IEnforcer T A R S] (incremental : Bool) (op : Op A S Q) (t : T) :
    T × Reply :=
  match op with
  | addPolicy sec ptype rule => (addPolicyInternal incremental t sec ptype rule).map id .bool
  | addPolicies sec ptype rules => (addPoliciesInternal incremental t sec ptype rules).map id .bool
  | removePolicy sec ptype rule => (removePolicyInternal incremental t sec ptype rule).map id .bool
  | removePolicies sec ptype rules =>
    (removePoliciesInternal incremental t sec ptype rules).map id .bool
  | removeFilteredPolicy sec ptype fieldIndex fieldValues =>
    (removeFilteredPolicyInternal incremental t sec ptype fieldIndex fieldValues).map id .rules
  | op => (op.core (IEnforcer.get t)).map (IEnforcer.set t) .unit

/-- Does the operation emit `ClearCache`? It does when it gets past the adapter and the model
    reports a change. -/
def Op.clears (op : Op A S Q) (e : Enforcer A R S) : Bool :=
  let saved (save : A → A × Except Fault Bool) : Bool :=
    match (autoSaved e save).2 with
    | .ok true => true
    | _ => false
  match op with
  | addPolicy sec ptype rule =>
    saved (fun a => Adapter.addPolicy a sec ptype rule) && (e.model.addPolicy sec ptype rule).2
  | addPolicies sec ptype rules =>
    saved (fun a => Adapter.addPolicies a sec ptype rules) && (e.model.addPolicies sec ptype rules).2
  | removePolicy sec ptype rule =>
    saved (fun a => Adapter.removePolicy a sec ptype rule) &&
      (e.model.removePolicy sec ptype rule).2
  | removePolicies sec ptype rules =>
    saved (fun a => Adapter.removePolicies a sec ptype rules) &&
      (e.model.removePolicies sec ptype rules).2
  | removeFilteredPolicy sec ptype fieldIndex fieldValues =>
    saved (fun a => Adapter.removeFilteredPolicy a sec ptype fieldIndex fieldValues) &&
      ((e.model.removeFilteredPolicy sec ptype fieldIndex fieldValues).map fun x => x.2.1).getD false
  | _ => false

variable [EffectorStream S] [EnforceArgs Q D K] [Cache C K] (X : Type) [Rhai D X]
  (incremental : Bool)

/-- One call on a plain enforcer. -/
def Op.plain (op : Op A S Q) (e : Enforcer A R S) : Enforcer A R S × Reply :=
  match op with
  | enforce q => (e, .bool (e.enforce X q))
  | op => op.manage incremental e

/-- One call on a cached enforcer. -/
def Op.cached (op : Op A S Q) (ce : CachedEnforcer A R S C) : CachedEnforcer A R S C × Reply :=
  match op with
  | enforce q => (ce.enforce X q).map id .bool
  | tick => ({ ce with cache := Cache.tick ce.cache }, .unit (.ok ()))
  | op => op.manage incremental ce

/-- The replies of a run on a plain enforcer. -/
def plainRun : Enforcer A R S → List (Op A S Q) → List Reply
  | _, [] => []
  | e, op :: ops => (op.plain X incremental e).2 :: plainRun (op.plain X incremental e).1 ops

/-- The replies of a run on a cached enforcer. -/
def cachedRun : CachedEnforcer A R S C → List (Op A S Q) → List Reply
  | _, [] => []
  | ce, op :: ops => (op.cached X incremental ce).2 :: cachedRun (op.cached X incremental ce).1 ops

end Run

/-! ### What a decision reads -/

/-- The parts of an enforcer that `private_enforce` reads: the switch, the four definitions (the
    policy one with its rules), the effector and the answers of the registered functions. -/
structure View (S : Type) where
  enabled : Bool
  request : Option (Option Assertion)
  policy : Option (Option Assertion)
  matcher : Option (Option Assertion)
  effect : Option (Option Assertion)
  eft : Effector S
  call : String → List String → Option Bool

/-- The definition of a section under the section's own name. -/
def DefaultModel.ownDefinition (m : DefaultModel) (key : String) : Option (Option Assertion) :=
  (m.model key).map fun asts => asts.get? key

def Enforcer.view [RoleManager R] (e : Enforcer A R S) : View S where
  enabled := e.enabled
  request := e.model.ownDefinition "r"
  policy := e.model.ownDefinition "p"
  matcher := e.model.ownDefinition "m"
  effect := e.model.ownDefinition "e"
  eft := e.eft
  call := e.callFn

theorem Enforcer.getOrErr_congr {m m' : DefaultModel} {key : String}
    (h : m.ownDefinition key = m'.ownDefinition key) (err : String → Error) (msg : String) :
    Enforcer.getOrErr m key err msg = Enforcer.getOrErr m' key err msg := by
  unfold Enforcer.getOrErr
  unfold DefaultModel.ownDefinition at h
  cases hm : m.model key with
  | none =>
    cases hm' : m'.model key with
    | none => rfl
    | some asts' => simp [hm, hm'] at h
  | some asts =>
    cases hm' : m'.model key with
    | none => simp [hm, hm'] at h
    | some asts' =>
      simp only [hm, hm', Option.map_some, Option.some.injEq] at h
      simp [h]

/-- Enforcers with the same view decide alike. -/
theorem Enforcer.privateEnforce_congr [RoleManager R] [EffectorStream S] [Rhai D X]
    {e e' : Enforcer A R S} (h : e.view = e'.view) (rvals : List D) :
    e.privateEnforce X rvals = e'.privateEnforce X rvals := by
  simp only [Enforcer.view, View.mk.injEq] at h
  obtain ⟨henabled, hr, hp, hm, he, heft, hcall⟩ := h
  simp only [Enforcer.privateEnforce, henabled, getOrErr_congr hr, getOrErr_congr hp,
    getOrErr_congr hm, getOrErr_congr he, heft, hcall]

/-! ### The enforcer inside a cached enforcer -/

section Inside

variable [Cache C K] (incremental : Bool) (ce : CachedEnforcer A R S C)

theorem autoSaved_cached (save : A → A × Except Fault Bool) :
    autoSaved ce save =
      ({ ce with enforcer := (autoSaved ce.enforcer save).1 }, (autoSaved ce.enforcer save).2) := by
  unfold autoSaved
  by_cases h : ce.enforcer.autoSave
  · simp [IEnforcer.get, IEnforcer.set, h]
  · simp [IEnforcer.get, h]

variable [RoleManager R]

theorem afterChange_cached (sec : String) (changed : Bool) (d : EventData) :
    afterChange incremental ce sec changed d =
      ({ enforcer := (afterChange incremental ce.enforcer sec changed d).1
         cache := if changed then Cache.clear ce.cache else ce.cache },
        (afterChange incremental ce.enforcer sec changed d).2) := by
  unfold afterChange
  by_cases h : sec ≠ "g" ∨ ce.enforcer.autoBuildRoleLinks = false
  · cases changed
    · simp [IEnforcer.get, h]
    · simp [IEnforcer.get, IEnforcer.clearCache, h]
  · cases changed
    · simp [IEnforcer.get, IEnforcer.set, h]
    · simp [IEnforcer.get, IEnforcer.set, IEnforcer.clearCache, h]

/-- An internal operation on a cached enforcer is the same operation inside, and clears the cache
    when the model reports a change. -/
theorem changeInternal_cached (sec : String) (save : A → A × Except Fault Bool)
    (change : DefaultModel → DefaultModel × Bool) (d : EventData) :
    changeInternal incremental ce sec save change d =
      ({ enforcer := (changeInternal incremental ce.enforcer sec save change d).1
         cache :=
          if (autoSaved ce.enforcer save).2 = .ok true ∧ (change ce.enforcer.model).2 = true then
            Cache.clear ce.cache
          else ce.cache },
        (changeInternal incremental ce.enforcer sec save change d).2) := by
  unfold changeInternal
  rw [autoSaved_cached]
  have hmodel : (autoSaved ce.enforcer save).1.model = ce.enforcer.model := by
    unfold autoSaved
    simp only [IEnforcer.get, IEnforcer.set]
    split <;> rfl
  generalize autoSaved ce.enforcer save = x at hmodel
  obtain ⟨e₁, res⟩ := x
  rcases res with err | ⟨_ | _⟩
  · simp
  · simp
  · simp only [IEnforcer.get, IEnforcer.set] at hmodel ⊢
    rw [afterChange_cached, hmodel]
    generalize afterChange incremental { e₁ with model := (change ce.enforcer.model).1 } sec
      (change ce.enforcer.model).2 d = y
    obtain ⟨e₂, res⟩ := y
    rcases res with err | u
    · simp
    · simp

theorem removeFilteredPolicyInternal_cached [Adapter A] (sec ptype : String) (fieldIndex : Nat)
    (fieldValues : List String) :
    removeFilteredPolicyInternal incremental ce sec ptype fieldIndex fieldValues =
      ({ enforcer :=
          (removeFilteredPolicyInternal incremental ce.enforcer sec ptype fieldIndex fieldValues).1
         cache :=
          if (autoSaved ce.enforcer fun a =>
              Adapter.removeFilteredPolicy a sec ptype fieldIndex fieldValues).2 = .ok true ∧
            ((ce.enforcer.model.removeFilteredPolicy sec ptype fieldIndex fieldValues).map
              fun x => x.2.1).getD false = true then
            Cache.clear ce.cache
          else ce.cache },
        (removeFilteredPolicyInternal incremental ce.enforcer sec ptype fieldIndex
          fieldValues).2) := by
  unfold removeFilteredPolicyInternal
  rw [autoSaved_cached]
  have hmodel : (autoSaved ce.enforcer fun a =>
      Adapter.removeFilteredPolicy a sec ptype fieldIndex fieldValues).1.model =
        ce.enforcer.model := by
    unfold autoSaved
    simp only [IEnforcer.get, IEnforcer.set]
    split <;> rfl
  generalize (autoSaved ce.enforcer fun a =>
    Adapter.removeFilteredPolicy a sec ptype fieldIndex fieldValues) = x at hmodel
  obtain ⟨e₁, res⟩ := x
  rcases res with err | ⟨_ | _⟩
  · simp
  · simp
  · simp only [IEnforcer.get, IEnforcer.set] at hmodel ⊢
    rw [hmodel]
    cases ce.enforcer.model.removeFilteredPolicy sec ptype fieldIndex fieldValues with
    | none => simp
    | some r =>
      obtain ⟨m, removed, rules⟩ := r
      simp only [Option.map_some, Option.getD_some]
      rw [afterChange_cached]
      generalize afterChange incremental { e₁ with model := m } sec removed
        (.removeFilteredPolicy sec ptype rules) = y
      obtain ⟨e₂, res⟩ := y
      rcases res with err | u
      · simp
      · simp

/-- **The inner enforcer.** Every operation but `enforce` does inside a cached enforcer what it does
    to a plain one, with the same reply, and touches the cache only to clear it. -/
theorem manage_cached [Adapter A] (op : Op A S Q) :
    op.manage incremental ce =
      ({ enforcer := (op.manage incremental ce.enforcer).1
         cache := if op.clears ce.enforcer then Cache.clear ce.cache else ce.cache },
        (op.manage incremental ce.enforcer).2) := by
  have hsaved : ∀ (save : A → A × Except Fault Bool) (b : Bool),
      (((match (autoSaved ce.enforcer save).2 with
        | .ok true => true
        | _ => false) && b) = true) ↔ (autoSaved ce.enforcer save).2 = .ok true ∧ b = true := by
    intro save b
    rcases (autoSaved ce.enforcer save).2 with err | ⟨_ | _⟩ <;> simp
  cases op with
  | addPolicy sec ptype rule =>
    simp [Op.manage, addPolicyInternal, changeInternal_cached, Op.clears, hsaved]
  | addPolicies sec ptype rules =>
    simp [Op.manage, addPoliciesInternal, changeInternal_cached, Op.clears, hsaved]
  | removePolicy sec ptype rule =>
    simp [Op.manage, removePolicyInternal, changeInternal_cached, Op.clears, hsaved]
  | removePolicies sec ptype rules =>
    simp [Op.manage, removePoliciesInternal, changeInternal_cached, Op.clears, hsaved]
  | removeFilteredPolicy sec ptype fieldIndex fieldValues =>
    simp [Op.manage, removeFilteredPolicyInternal_cached, Op.clears, hsaved]
  | _ => rfl

end Inside

/-! ### Whole runs -/

section Transparent

variable [Adapter A] [RoleManager R] [EffectorStream S] [EnforceArgs Q D K] [Cache C K]
  (X : Type) [Rhai D X] (incremental : Bool)

/-- The step cannot leave a stale decision behind: it is `enforce`, it clears the cache, the cache
    has nothing in it, or what decisions read stays as it is. -/
def Op.Harmless (op : Op A S Q) (ce : CachedEnforcer A R S C) : Prop :=
  match op with
  | .enforce _ => True
  | op =>
    op.clears ce.enforcer = true ∨ (∀ k v, ¬Cache.Holds ce.cache k v) ∨
      (op.manage incremental ce.enforcer).1.view = ce.enforcer.view

/-- All steps of a run are harmless where they happen. -/
def HarmlessRun : CachedEnforcer A R S C → List (Op A S Q) → Prop
  | _, [] => True
  | ce, op :: ops =>
    op.Harmless incremental ce ∧ HarmlessRun (op.cached X incremental ce).1 ops

/-- Every entry of the cache is what the enforcer decides now, for a request of the run. -/
def Fresh (requests : Set Q) (ce : CachedEnforcer A R S C) : Prop :=
  ∀ k v, Cache.Holds ce.cache k v → ∃ q ∈ requests, EnforceArgs.cacheKey q = k ∧
    ce.enforcer.enforce X q = .ok v

/-- **One step.** From a fresh cache, a harmless step gives the reply of the plain enforcer and
    leaves the cache fresh. -/
theorem step_fresh {requests : Set Q}
    (hkey : Set.InjOn (EnforceArgs.cacheKey : Q → K) requests) (op : Op A S Q)
    (hop : ∀ q, op = .enforce q → q ∈ requests) (ce : CachedEnforcer A R S C)
    (hfresh : Fresh X requests ce) (hharm : op.Harmless incremental ce) :
    (op.cached X incremental ce).2 = (op.plain X incremental ce.enforcer).2 ∧
      (op.cached X incremental ce).1.enforcer = (op.plain X incremental ce.enforcer).1 ∧
      Fresh X requests (op.cached X incremental ce).1 := by
  have hmanage : ∀ op : Op A S Q, (∀ q, op ≠ .enforce q) → op ≠ .tick →
      op.Harmless incremental ce →
      (op.manage incremental ce).2 = (op.manage incremental ce.enforcer).2 ∧
        (op.manage incremental ce).1.enforcer = (op.manage incremental ce.enforcer).1 ∧
        Fresh X requests (op.manage incremental ce).1 := by
    intro op hne htick hharm
    rw [manage_cached]
    refine ⟨rfl, rfl, ?_⟩
    intro k v hholds
    have hcases : op.clears ce.enforcer = true ∨ (∀ k v, ¬Cache.Holds ce.cache k v) ∨
        (op.manage incremental ce.enforcer).1.view = ce.enforcer.view := by
      cases op with
      | enforce q => exact absurd rfl (hne q)
      | _ => exact hharm
    rcases hcases with hclear | hempty | hview
    · rw [if_pos hclear] at hholds
      exact absurd hholds (Cache.not_holds_clear ce.cache k v)
    · split at hholds
      · exact absurd hholds (Cache.not_holds_clear ce.cache k v)
      · exact absurd hholds (hempty k v)
    · split at hholds
      · exact absurd hholds (Cache.not_holds_clear ce.cache k v)
      · obtain ⟨q, hq, hk, hv⟩ := hfresh k v hholds
        refine ⟨q, hq, hk, ?_⟩
        rw [← hv, Enforcer.enforce, Enforcer.enforce]
        cases EnforceArgs.tryIntoVec q with
        | error err => rfl
        | ok rvals => exact Enforcer.privateEnforce_congr hview rvals
  cases op with
  | enforce q =>
    have hq := hop q rfl
    show Reply.bool (ce.enforce X q).2 = Reply.bool (ce.enforcer.enforce X q) ∧
      (ce.enforce X q).1.enforcer = ce.enforcer ∧ Fresh X requests (ce.enforce X q).1
    rw [CachedEnforcer.enforce]
    cases hargs : EnforceArgs.tryIntoVec q with
    | error err =>
      refine ⟨?_, rfl, hfresh⟩
      simp [Enforcer.enforce, hargs]
    | ok rvals =>
      simp only [CachedEnforcer.privateEnforce]
      have hdecide : ce.enforcer.enforce X q = ce.enforcer.privateEnforce X rvals := by
        simp [Enforcer.enforce, hargs]
      cases hget : Cache.get ce.cache (EnforceArgs.cacheKey q) with
      | some v =>
        -- a cached entry with this key belongs to this request, since the key is injective
        obtain ⟨q', hq', hkey', hv⟩ := hfresh _ v (Cache.holds_of_get _ _ _ hget)
        obtain rfl : q' = q := hkey hq' hq hkey'
        exact ⟨by rw [hv], rfl, hfresh⟩
      | none =>
        cases hres : ce.enforcer.privateEnforce X rvals with
        | error err =>
          rw [hdecide, hres]
          exact ⟨rfl, rfl, hfresh⟩
        | ok authorized =>
          rw [hdecide, hres]
          refine ⟨rfl, rfl, ?_⟩
          intro k v hholds
          rcases Cache.holds_set _ _ _ _ _ hholds with ⟨rfl, rfl⟩ | hholds
          · exact ⟨q, hq, rfl, hdecide.trans hres⟩
          · exact hfresh k v hholds
  | tick => exact ⟨rfl, rfl, fun k v hholds => hfresh k v (Cache.holds_tick _ _ _ hholds)⟩
  | _ => exact hmanage _ (fun q hq => by cases hq) (by intro h; cases h) hharm

/-- **The cache is transparent.** From an empty cache, along every run whose steps are harmless,
    the cached enforcer replies exactly as the plain one. -/
theorem cachedRun_eq_plainRun (ops : List (Op A S Q)) (ce : CachedEnforcer A R S C)
    (hkey : Set.InjOn (EnforceArgs.cacheKey : Q → K) {q | Op.enforce q ∈ ops})
    (hempty : ∀ k v, ¬Cache.Holds ce.cache k v) (hharm : HarmlessRun X incremental ce ops) :
    cachedRun X incremental ce ops = plainRun X incremental ce.enforcer ops := by
  have hrun : ∀ (rest : List (Op A S Q)) (ce : CachedEnforcer A R S C),
      (∀ op ∈ rest, op ∈ ops) → Fresh X {q | Op.enforce q ∈ ops} ce →
      HarmlessRun X incremental ce rest →
      cachedRun X incremental ce rest = plainRun X incremental ce.enforcer rest := by
    intro rest
    induction rest with
    | nil => intros; rfl
    | cons op rest ih =>
      intro ce hsub hfresh hharm
      obtain ⟨hreply, hinner, hnext⟩ := step_fresh X incremental hkey op
        (fun q hq => by rw [Set.mem_ofPred_eq, ← hq]; exact hsub op List.mem_cons_self)
        ce hfresh hharm.1
      rw [cachedRun, plainRun, hreply, ← hinner,
        ih _ (fun o ho => hsub o (List.mem_cons_of_mem op ho)) hnext hharm.2]
  exact hrun ops ce (fun _ h => h) (fun k v h => absurd h (hempty k v)) hharm

end Transparent

/-! ### A sample -/

/-- A cache that keeps every entry, the latest one first. -/
structure MapCache (K : Type) where
  entries : List (K × Bool)

instance {K : Type} [DecidableEq K] : Cache (MapCache K) K where
  get c k := c.entries.lookup k
  set c k v := ⟨(k, v) :: c.entries⟩
  clear _ := ⟨[]⟩
  tick c := c
  Holds c k v := (k, v) ∈ c.entries
  holds_of_get c k v h := by
    obtain ⟨l⟩ := c
    induction l with
    | nil => simp at h
    | cons e l ih =>
      rw [LinkedMap.lookup_cons_eq_ite] at h
      by_cases hk : k = e.1
      · rw [if_pos hk, Option.some.injEq] at h
        exact h ▸ hk ▸ List.mem_cons_self
      · rw [if_neg hk] at h
        exact List.mem_cons_of_mem e (ih h)
  holds_set c k v k' v' h := by simpa using h
  not_holds_clear _ k v := by simp
  holds_tick _ _ _ h := h

/-- Requests given as a vector of strings, keyed by themselves. -/
instance : EnforceArgs (List String) String (List String) where
  tryIntoVec q := .ok q
  cacheKey q := q

/-- The matcher of the basic model, compared field by field. -/
structure BasicMatcher where

instance : Rhai String BasicMatcher where
  ofString s := s
  compileExpression value :=
    if value = "r_sub == p_sub && r_obj == p_obj && r_act == p_act" then .ok ⟨⟩
    else .error (.err (.rhai "not the basic matcher"))
  evalAst _ _ scope :=
    .ok (["sub", "obj", "act"].all fun field =>
      scope.lookup ("r_" ++ field) == scope.lookup ("p_" ++ field))

/-- One definition of a section. -/
def sampleSection (key value : String) (tokens : List String) (policy : LinkedSet Rule) :
    AssertionMap :=
  ⟨[(key, ⟨value, tokens, policy⟩)], List.nodup_singleton key⟩

/-- The basic model with the rule `alice, data1, read`, behind an empty cache. -/
def sampleCached : CachedEnforcer MemoryAdapter (DefaultRoleManager Graph) DefaultEffectStream
    (MapCache (List String)) where
  enforcer :=
    { model :=
        { model := fun sec =>
            if sec = "r" then
              some (sampleSection "r" "sub, obj, act" ["r_sub", "r_obj", "r_act"] LinkedSet.empty)
            else if sec = "p" then
              some (sampleSection "p" "sub, obj, act" ["p_sub", "p_obj", "p_act"]
                (LinkedSet.empty.insert ["alice", "data1", "read"]))
            else if sec = "e" then some (sampleSection "e" someAllow [] LinkedSet.empty)
            else if sec = "m" then
              some (sampleSection "m" "r_sub == p_sub && r_obj == p_obj && r_act == p_act" []
                LinkedSet.empty)
            else none }
      adapter := MemoryAdapter.default
      eft := DefaultEffector
      rm := 0
      rms := fun _ => DefaultRoleManager.new 10
      enabled := true
      autoSave := true
      autoBuildRoleLinks := true
      functions := fun _ _ => none }
  cache := ⟨[]⟩

/-- After `clear_policy` the cached enforcer still allows what it allowed before. -/
theorem clear_policy_stale :
    cachedRun BasicMatcher true sampleCached
        [.enforce ["alice", "data1", "read"], .clearPolicy, .enforce ["alice", "data1", "read"]] =
      [.bool (.ok true), .unit (.ok ()), .bool (.ok true)] ∧
    plainRun BasicMatcher true sampleCached.enforcer
        [.enforce ["alice", "data1", "read"], .clearPolicy, .enforce ["alice", "data1", "read"]] =
      [.bool (.ok true), .unit (.ok ()), .bool (.ok false)] :=
  ⟨rfl, rfl⟩

/-- A run that removes the rule between two requests. -/
def sampleRun : List (Op MemoryAdapter DefaultEffectStream (List String)) :=
  [.enforce ["alice", "data1", "read"], .enableAutoSave false,
    .removePolicy "p" "p" ["alice", "data1", "read"], .enforce ["alice", "data1", "read"]]

theorem sampleRun_harmless : HarmlessRun BasicMatcher true sampleCached sampleRun :=
  ⟨trivial, Or.inr (Or.inr rfl), Or.inl rfl, trivial, trivial⟩

theorem cachedRun_eq_plainRun_sample :
    HarmlessRun BasicMatcher true sampleCached sampleRun ∧
      cachedRun BasicMatcher true sampleCached sampleRun =
        plainRun BasicMatcher true sampleCached.enforcer sampleRun :=
  ⟨sampleRun_harmless,
    cachedRun_eq_plainRun BasicMatcher true sampleRun sampleCached (fun _ _ _ _ h => h)
      (fun k v => by show ¬(k, v) ∈ []; simp) sampleRun_harmless⟩

end TeaclaveCrates.Casbin
