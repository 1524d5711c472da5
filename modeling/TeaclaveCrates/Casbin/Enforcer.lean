import TeaclaveCrates.Casbin.Effector
import TeaclaveCrates.Casbin.MemoryAdapter
import TeaclaveCrates.Casbin.RoleManager

namespace TeaclaveCrates.Casbin

open Lib

/-!
# The enforcer

`enforcer.rs`, `internal_api.rs` and the role-link part of `model/assertion.rs`.

* `Adapter`, `RoleManager`, `Rhai` — the traits behind the enforcer's objects; the expression engine
  is a library and stays abstract.
* `Enforcer` — the state, with `privateEnforce` and the core operations on it.
* `IEnforcer` — what the internal operations need of an enforcer: its state and where a
  `ClearCache` event goes. `addPolicyInternal` … `removeFilteredPolicyInternal` work on any.

An operation that fails keeps what it has changed so far, so every one returns the new state beside
its result.
-/

/-! ### Traits -/

/-- `trait Adapter` -/
class Adapter (A : Type) where
  loadPolicy : A → DefaultModel → DefaultModel × Except Fault Unit
  loadFilteredPolicy : A → DefaultModel → Filter → (A × DefaultModel) × Except Fault Unit
  savePolicy : A → DefaultModel → A × Except Fault Unit
  clearPolicy : A → A × Except Fault Unit
  isFiltered : A → Bool
  addPolicy : A → String → String → Rule → A × Except Fault Bool
  addPolicies : A → String → String → List Rule → A × Except Fault Bool
  removePolicy : A → String → String → Rule → A × Except Fault Bool
  removePolicies : A → String → String → List Rule → A × Except Fault Bool
  removeFilteredPolicy : A → String → String → Nat → List String → A × Except Fault Bool

instance : Adapter MemoryAdapter where
  loadPolicy a m := (a.loadPolicy m, .ok ())
  loadFilteredPolicy a m f :=
    match a.loadFilteredPolicy m f with
    | some (m', a') => ((a', m'), .ok ())
    | none => ((a, m), .error .panic)
  savePolicy a m := (a.savePolicy m, .ok ())
  clearPolicy a := (a.clearPolicy, .ok ())
  isFiltered a := a.isFiltered
  addPolicy a sec ptype rule := (a.addPolicy sec ptype rule).map id .ok
  addPolicies a sec ptype rules := (a.addPolicies sec ptype rules).map id .ok
  removePolicy a sec ptype rule := (a.removePolicy sec ptype rule).map id .ok
  removePolicies a sec ptype rules := (a.removePolicies sec ptype rules).map id .ok
  removeFilteredPolicy a sec ptype fieldIndex fieldValues :=
    match a.removeFilteredPolicy sec ptype fieldIndex fieldValues with
    | some (a', removed) => (a', .ok removed)
    | none => (a, .error .panic)

/-- `trait RoleManager`, as far as enforcement and role links use it. -/
class RoleManager (R : Type) where
  clear : R → R
  addLink : R → String → String → Option String → R
  deleteLink : R → String → String → Option String → R × Except Fault Unit
  hasLink : R → String → String → Option String → Bool

instance {G : Type} [RoleGraph G] : RoleManager (DefaultRoleManager G) where
  clear := DefaultRoleManager.clear
  addLink := DefaultRoleManager.addLink
  deleteLink := DefaultRoleManager.deleteLink
  hasLink := DefaultRoleManager.hasLink

/-- The expression engine: values `D`, compiled expressions `X`, and evaluation with the
    registered functions. -/
class Rhai (D X : Type) where
  ofString : String → D
  compileExpression : String → Except Fault X
  evalAst : (String → List String → Option Bool) → X → List (String × D) → Except Fault Bool

/-! ### Role links of an assertion -/

/-- A loop that stops at the first error and keeps the state it has then. -/
def eachOk {σ α : Type} (f : σ → α → σ × Except Fault Unit) : σ → List α → σ × Except Fault Unit
  | s, [] => (s, .ok ())
  | s, x :: xs =>
    match f s x with
    | (s', .ok ()) => eachOk f s' xs
    | (s', .error e) => (s', .error e)

section Links

variable {R : Type} [RoleManager R]

def tooFewUnderscores : Fault :=
  .err (.modelP "the number of \"_\" in role definition should be at least 2")

/-- The body of the loops of `build_role_links` and `build_incremental_role_links`: add or delete
    the link of one rule. -/
def linkRule (insert : Bool) (count : Nat) (rm : R) (rule : Rule) : R × Except Fault Unit :=
  if rule.length < count then (rm, .error (.err (.unmatchPolicyDefinition count rule.length)))
  else
    match count, rule with
    | 2, name1 :: name2 :: _ =>
      if insert then (RoleManager.addLink rm name1 name2 none, .ok ())
      else RoleManager.deleteLink rm name1 name2 none
    | 3, name1 :: name2 :: domain :: _ =>
      if insert then (RoleManager.addLink rm name1 name2 (some domain), .ok ())
      else RoleManager.deleteLink rm name1 name2 (some domain)
    | _, _ => (rm, .error (.err (.modelP "Multiple domains are not supported")))

/-- Add or delete the links of some rules of an assertion. -/
def Assertion.linkRules (ast : Assertion) (insert : Bool) (rm : R) (rules : List Rule) :
    R × Except Fault Unit :=
  if ast.underscores < 2 then (rm, .error tooFewUnderscores)
  else eachOk (linkRule insert ast.underscores) rm rules

def Assertion.buildRoleLinks (ast : Assertion) (rm : R) : R × Except Fault Unit :=
  ast.linkRules true rm ast.policy.toList

inductive EventData where
  | addPolicy (sec ptype : String) (rule : Rule)
  | addPolicies (sec ptype : String) (rules : List Rule)
  | removePolicy (sec ptype : String) (rule : Rule)
  | removePolicies (sec ptype : String) (rules : List Rule)
  | removeFilteredPolicy (sec ptype : String) (rules : List Rule)

/-- The section, type, direction and rules of an event. -/
def EventData.parts : EventData → String × String × Bool × List Rule
  | .addPolicy sec ptype rule => (sec, ptype, true, [rule])
  | .addPolicies sec ptype rules => (sec, ptype, true, rules)
  | .removePolicy sec ptype rule => (sec, ptype, false, [rule])
  | .removePolicies sec ptype rules => (sec, ptype, false, rules)
  | .removeFilteredPolicy sec ptype rules => (sec, ptype, false, rules)

def DefaultModel.buildRoleLinks (m : DefaultModel) (rm : R) : R × Except Fault Unit :=
  match m.model "g" with
  | none => (rm, .ok ())
  | some asts => eachOk (fun rm e => e.2.buildRoleLinks rm) rm asts.entries

def DefaultModel.buildIncrementalRoleLinks (m : DefaultModel) (rm : R) (d : EventData) :
    R × Except Fault Unit :=
  let (sec, ptype, insert, rules) := d.parts
  if sec = "g" then
    match m.assertion sec ptype with
    | some ast => ast.linkRules insert rm rules
    | none => (rm, .ok ())
  else (rm, .ok ())

end Links

/-! ### The state -/

/-- A function registered with the expression engine: one of the caller's, or the `g` function
    that asks a role manager. -/
inductive Callee where
  | user (f : String → String → Bool)
  | role (rm : Nat)

/-- The fields of `Enforcer`. Role managers are shared references: `rms` holds the one behind each
    address and `rm` is the address in use, while registered functions keep the address that was in
    use when they were registered. -/
structure Enforcer (A R S : Type) where
  model : DefaultModel
  adapter : A
  eft : Effector S
  rm : Nat
  rms : Nat → R
  enabled : Bool
  autoSave : Bool
  autoBuildRoleLinks : Bool
  functions : String → Nat → Option Callee

namespace Enforcer

variable {A R S D X : Type}

/-- Change the role manager in use. -/
def setRm (e : Enforcer A R S) (rm : R) : Enforcer A R S :=
  { e with rms := Function.update e.rms e.rm rm }

section Enforce

variable [RoleManager R] [EffectorStream S] [Rhai D X]

/-- How the engine calls a registered function. -/
def callFn (e : Enforcer A R S) (name : String) (args : List String) : Option Bool :=
  match e.functions name args.length, args with
  | some (.user f), [x, y] => some (f x y)
  | some (.role i), [x, y] => some (RoleManager.hasLink (e.rms i) x y none)
  | some (.role i), [x, y, z] => some (RoleManager.hasLink (e.rms i) x y (some z))
  | _, _ => none

/-- `get_or_err!` -/
def getOrErr (m : DefaultModel) (key : String) (err : String → Error) (msg : String) :
    Except Fault Assertion :=
  match m.model key with
  | none => .error (.err (err ("Missing " ++ msg ++ " definition in conf file")))
  | some asts =>
    match asts.get? key with
    | none => .error (.err (err ("Missing " ++ msg ++ " section in conf file")))
    | some ast => .ok ast

/-- The effect of one policy rule. -/
def effectOf (tokens : List String) (pvals : Rule) (evalResult : Bool) : EffectKind :=
  match tokens.findIdx? (· = "p_eft") with
  | some j =>
    if evalResult then
      if pvals[j]? = some "deny" then .deny
      else if pvals[j]? = some "allow" then .allow
      else .indeterminate
    else .indeterminate
  | none => if evalResult then .allow else .indeterminate

/-- The loop of `private_enforce` over the policy rules. -/
def pushPolicies (call : String → List String → Option Bool) (matcher : X)
    (scope : List (String × D)) (tokens : List String) : S → List Rule → Except Fault S
  | stream, [] => .ok stream
  | stream, pvals :: rest =>
    if tokens.length ≠ pvals.length then
      .error (.err (.unmatchPolicyDefinition tokens.length pvals.length))
    else
      match Rhai.evalAst call matcher (scope ++ tokens.zip (pvals.map (Rhai.ofString X))) with
      | .error e => .error e
      | .ok evalResult =>
        match EffectorStream.pushEffect stream (effectOf tokens pvals evalResult) with
        | (stream, true) => .ok stream
        | (stream, false) => pushPolicies call matcher scope tokens stream rest

/-- `private_enforce`, without the explanation. -/
def privateEnforce (X : Type) [Rhai D X] (e : Enforcer A R S) (rvals : List D) :
    Except Fault Bool :=
  if e.enabled then do
    let rAst ← getOrErr e.model "r" .modelR "request"
    let pAst ← getOrErr e.model "p" .modelP "policy"
    let mAst ← getOrErr e.model "m" .modelM "matcher"
    let eAst ← getOrErr e.model "e" .modelE "effector"
    if rAst.tokens.length ≠ rvals.length then
      throw (.err (.unmatchRequestDefinition rAst.tokens.length rvals.length))
    let scope := rAst.tokens.zip rvals
    let policies := pAst.policy.toList
    let stream ← e.eft.newStream eAst.value (max policies.length 1)
    let matcher : X ← Rhai.compileExpression D mAst.value
    if policies.isEmpty then
      let scope := scope ++ pAst.tokens.map fun token => (token, Rhai.ofString X "")
      let evalResult ← Rhai.evalAst e.callFn matcher scope
      let kind := if evalResult then EffectKind.allow else .indeterminate
      EffectorStream.next (EffectorStream.pushEffect stream kind).1
    else
      let stream ← pushPolicies e.callFn matcher scope pAst.tokens stream policies
      EffectorStream.next stream
  else .ok true

end Enforce

/-! ### The core operations -/

section Core

variable [Adapter A] [RoleManager R]

def buildRoleLinks (e : Enforcer A R S) : Enforcer A R S × Except Fault Unit :=
  let (rm, res) := e.model.buildRoleLinks (RoleManager.clear (e.rms e.rm))
  (e.setRm rm, res)

def buildIncrementalRoleLinks (e : Enforcer A R S) (d : EventData) :
    Enforcer A R S × Except Fault Unit :=
  let (rm, res) := e.model.buildIncrementalRoleLinks (e.rms e.rm) d
  (e.setRm rm, res)

/-- `if self.auto_build_role_links { self.build_role_links()?; }` -/
def autoBuild (e : Enforcer A R S) : Enforcer A R S × Except Fault Unit :=
  if e.autoBuildRoleLinks then e.buildRoleLinks else (e, .ok ())

def loadPolicy (e : Enforcer A R S) : Enforcer A R S × Except Fault Unit :=
  match Adapter.loadPolicy e.adapter e.model.clearPolicy with
  | (m, .ok ()) => { e with model := m }.autoBuild
  | (m, .error err) => ({ e with model := m }, .error err)

def loadFilteredPolicy (e : Enforcer A R S) (f : Filter) : Enforcer A R S × Except Fault Unit :=
  match Adapter.loadFilteredPolicy e.adapter e.model.clearPolicy f with
  | ((a, m), .ok ()) => { e with adapter := a, model := m }.autoBuild
  | ((a, m), .error err) => ({ e with adapter := a, model := m }, .error err)

/-- Saving only writes to the adapter; the assertion that the policy is not filtered panics before
    it does. -/
def savePolicy (e : Enforcer A R S) : Enforcer A R S × Except Fault Unit :=
  if Adapter.isFiltered e.adapter then (e, .error .panic)
  else
    let (a, res) := Adapter.savePolicy e.adapter e.model
    ({ e with adapter := a }, res)

def clearPolicy (e : Enforcer A R S) : Enforcer A R S × Except Fault Unit :=
  if e.autoSave then
    match Adapter.clearPolicy e.adapter with
    | (a, .ok ()) => ({ e with adapter := a, model := e.model.clearPolicy }, .ok ())
    | (a, .error err) => ({ e with adapter := a }, .error err)
  else ({ e with model := e.model.clearPolicy }, .ok ())

/-- The model given to `set_model` may fail to convert, as may the adapter given to
    `set_adapter`. -/
def setModel (e : Enforcer A R S) (m : Except Fault DefaultModel) :
    Enforcer A R S × Except Fault Unit :=
  match m with
  | .ok m => { e with model := m }.loadPolicy
  | .error err => (e, .error err)

def setAdapter (e : Enforcer A R S) (a : Except Fault A) : Enforcer A R S × Except Fault Unit :=
  match a with
  | .ok a => { e with adapter := a }.loadPolicy
  | .error err => (e, .error err)

/-- Register a function under its name and number of arguments. -/
def registerFn (e : Enforcer A R S) (name : String) (arity : Nat) (f : Callee) : Enforcer A R S :=
  { e with functions := fun n k => if n = name ∧ k = arity then some f else e.functions n k }

/-- `register_g_function!` -/
def registerGFunction (e : Enforcer A R S) (entry : String × Assertion) :
    Enforcer A R S × Except Fault Unit :=
  let count := entry.2.underscores
  if count = 2 ∨ count = 3 then (e.registerFn entry.1 count (.role e.rm), .ok ())
  else (e, .error tooFewUnderscores)

def registerGFunctions (e : Enforcer A R S) : Enforcer A R S × Except Fault Unit :=
  match e.model.model "g" with
  | none => (e, .ok ())
  | some asts => eachOk registerGFunction e asts.entries

def setRoleManager (e : Enforcer A R S) (rm : Nat) : Enforcer A R S × Except Fault Unit :=
  match { e with rm := rm }.autoBuild with
  | (e, .ok ()) => e.registerGFunctions
  | (e, .error err) => (e, .error err)

def addFunction (e : Enforcer A R S) (name : String) (f : String → String → Bool) :
    Enforcer A R S :=
  e.registerFn name 2 (.user f)

end Core

end Enforcer

/-! ### The internal operations -/

/-- An enforcer, plain or cached, for the internal operations: the plain enforcer inside it and
    what emitting `ClearCache` does. -/
class IEnforcer (T : Type) (A R S : outParam Type) where
  get : T → Enforcer A R S
  set : T → Enforcer A R S → T
  clearCache : T → T
  get_set : ∀ t e, get (set t e) = e
  get_clearCache : ∀ t, get (clearCache t) = get t

/-- Nothing listens for `ClearCache` on a plain enforcer. -/
instance {A R S : Type} : IEnforcer (Enforcer A R S) A R S where
  get e := e
  set _ e := e
  clearCache e := e
  get_set _ _ := rfl
  get_clearCache _ := rfl

section Internal

variable {T A R S : Type} [IEnforcer T A R S] [Adapter A] [RoleManager R]

open IEnforcer in
/-- The first step of every internal operation: ask the adapter when `auto_save` is on. -/
def autoSaved (t : T) (op : A → A × Except Fault Bool) : T × Except Fault Bool :=
  let e := get t
  if e.autoSave then
    let (a, res) := op e.adapter
    (set t { e with adapter := a }, res)
  else (t, .ok true)

open IEnforcer in
/-- The last steps: emit `ClearCache` when the model has changed, then bring the role links up to
    date for a grouping rule. -/
def afterChange (incremental : Bool) (t : T) (sec : String) (changed : Bool) (d : EventData) :
    T × Except Fault Unit :=
  let t := if changed then clearCache t else t
  let e := get t
  if sec ≠ "g" ∨ e.autoBuildRoleLinks = false then (t, .ok ())
  else
    let (e, res) := if incremental then e.buildIncrementalRoleLinks d else e.buildRoleLinks
    (set t e, res)

open IEnforcer in
/-- The common shape of the four operations on given rules. -/
def changeInternal (incremental : Bool) (t : T) (sec : String) (save : A → A × Except Fault Bool)
    (change : DefaultModel → DefaultModel × Bool) (d : EventData) : T × Except Fault Bool :=
  match autoSaved t save with
  | (t, .ok true) =>
    let (m, changed) := change (get t).model
    match afterChange incremental (set t { get t with model := m }) sec changed d with
    | (t, .ok ()) => (t, .ok changed)
    | (t, .error err) => (t, .error err)
  | (t, .ok false) => (t, .ok false)
  | (t, .error err) => (t, .error err)

variable (incremental : Bool) (t : T) (sec ptype : String)

def addPolicyInternal (rule : Rule) : T × Except Fault Bool :=
  changeInternal incremental t sec (fun a => Adapter.addPolicy a sec ptype rule)
    (fun m => m.addPolicy sec ptype rule) (.addPolicy sec ptype rule)

def addPoliciesInternal (rules : List Rule) : T × Except Fault Bool :=
  changeInternal incremental t sec (fun a => Adapter.addPolicies a sec ptype rules)
    (fun m => m.addPolicies sec ptype rules) (.addPolicies sec ptype rules)

def removePolicyInternal (rule : Rule) : T × Except Fault Bool :=
  changeInternal incremental t sec (fun a => Adapter.removePolicy a sec ptype rule)
    (fun m => m.removePolicy sec ptype rule) (.removePolicy sec ptype rule)

def removePoliciesInternal (rules : List Rule) : T × Except Fault Bool :=
  changeInternal incremental t sec (fun a => Adapter.removePolicies a sec ptype rules)
    (fun m => m.removePolicies sec ptype rules) (.removePolicies sec ptype rules)

open IEnforcer in
/-- The filtered removal also returns the rules, and its event carries them. -/
def removeFilteredPolicyInternal (fieldIndex : Nat) (fieldValues : List String) :
    T × Except Fault (Bool × List Rule) :=
  match autoSaved t fun a => Adapter.removeFilteredPolicy a sec ptype fieldIndex fieldValues with
  | (t, .ok true) =>
    match (get t).model.removeFilteredPolicy sec ptype fieldIndex fieldValues with
    | none => (t, .error .panic)
    | some (m, removed, rules) =>
      match afterChange incremental (set t { get t with model := m }) sec removed
          (.removeFilteredPolicy sec ptype rules) with
      | (t, .ok ()) => (t, .ok (removed, rules))
      | (t, .error err) => (t, .error err)
  | (t, .ok false) => (t, .ok (false, []))
  | (t, .error err) => (t, .error err)

end Internal

end TeaclaveCrates.Casbin
