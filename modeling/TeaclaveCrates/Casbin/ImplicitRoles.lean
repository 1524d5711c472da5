import TeaclaveCrates.Casbin.RoleCache
import TeaclaveCrates.Lib.Worklist

namespace TeaclaveCrates.Casbin

open Lib RoleGraph

/-!
# Implicit roles

`get_implicit_roles_for_user` collects the roles of a user, the roles of these, and so on, with a
list of names to ask for from which `swap_remove(0)` takes the next one. Each answer of `get_roles`
comes out of a new hash set, in any order.

* `HashOrder` — the orders in which hash sets are gone through.
* `getImplicitRolesForUser` — the search.
* `mem_getRoles` — without matching functions the roles of a name are the targets of its links.
* `implicitRoles_eq` — what the search returns.
-/

variable {G : Type} [RoleGraph G]

/-- The order in which the hash set of each round is gone through. -/
structure HashOrder where
  order : Nat → List String → List String
  perm : ∀ round l, (order round l).Perm l

/-- The sets are gone through in the order in which they were filled. -/
def HashOrder.inserted : HashOrder := ⟨fun _ l => l, fun _ l => List.Perm.refl l⟩

namespace DefaultRoleManager

/-- `get_implicit_roles_for_user`, within so many rounds of its loop. -/
def getImplicitRolesForUser (rm : DefaultRoleManager G) (hash : HashOrder) (fuel : Nat)
    (name : String) (domain : Option String) : Option (List String) :=
  Worklist.run (fun round name => hash.order round (rm.getRoles name domain)) fuel 0 [name] []

section

variable {rm : DefaultRoleManager G} (hrole : rm.roleMatchingFn = none)

include hrole

/-- Without a role matching function the first role of a name is the one that it names. -/
theorem firstRole_of_role_none (g : G) (name : String) :
    rm.firstRole g name = if name ∈ nodes g then some name else none := by
  rw [firstRole, hrole]
  simp only [Option.map_none, Option.getD_none, Bool.or_false]
  by_cases hname : name ∈ nodes g
  · rw [if_pos hname, List.find?_eq_some_iff_append]
    obtain ⟨front, back, hsplit⟩ := List.append_of_mem hname
    refine ⟨decide_eq_true rfl, front, back, hsplit, ?_⟩
    intro role hmem
    have hnodup := nodup_nodes g
    rw [hsplit, List.nodup_append] at hnodup
    have hne := hnodup.2.2 role hmem name List.mem_cons_self
    simpa using hne
  · rw [if_neg hname, List.find?_eq_none]
    intro role hmem
    have hne : role ≠ name := fun heq => hname (heq ▸ hmem)
    simpa using hne

/-- **The roles of a name** are the targets of its links in the domain. -/
theorem mem_getRoles (hdomain : rm.domainMatchingFn = none) (name role : String)
    (domain : Option String) :
    role ∈ rm.getRoles name domain ↔
      linkRel rm.links (domain.getD defaultDomain) name role := by
  have hmatched : rm.matchedDomains domain =
      if rm.allDomains.contains (domain.getD defaultDomain) then [domain.getD defaultDomain]
      else [] := by
    rw [matchedDomains, hdomain]
  have hmem : role ∈ rm.getRoles name domain ↔
      ∃ d ∈ rm.matchedDomains domain, name ∈ nodes (rm.graph d) ∧
        role ∈ bfsIterator (rm.graph d) name rm.roleMatchingFn.isSome := by
    rw [getRoles, List.mem_eraseDups, List.mem_flatMap]
    apply exists_congr
    intro d
    rw [firstRole_of_role_none hrole]
    by_cases hname : name ∈ nodes (rm.graph d)
    · rw [if_pos hname]
      exact and_congr_right fun _ => (and_iff_right hname).symm
    · rw [if_neg hname]
      exact and_congr_right fun _ => ⟨fun h => absurd h List.not_mem_nil, fun h => absurd h.1 hname⟩
  have hstep := congrFun (congrFun (step_bfsIterator hrole (domain.getD defaultDomain)) name) role
  rw [hmem, hmatched]
  constructor
  · rintro ⟨d, hd, -, hrole'⟩
    split at hd
    · rw [List.mem_singleton.mp hd] at hrole'
      exact hstep.mp hrole'
    · cases hd
  · intro hlink
    have hnodes := (edges_mem (rm.graph (domain.getD defaultDomain)) _ hlink).1
    refine ⟨domain.getD defaultDomain, ?_, hnodes, hstep.mpr hlink⟩
    rw [if_pos (contains_of_mem_nodes hnodes)]
    exact List.mem_cons_self

end

/-- **Implicit roles.** Without matching functions the search ends, within as many rounds as the
    domain has roles and two more, and returns the names that are reached from the user by one or
    more links of the domain, each once, in whatever order the hash sets are gone through. -/
theorem implicitRoles_eq (rm : DefaultRoleManager G) (hrole : rm.roleMatchingFn = none)
    (hdomain : rm.domainMatchingFn = none) (hash : HashOrder) (name : String)
    (domain : Option String) (fuel : Nat)
    (hfuel : (nodes (rm.graph (domain.getD defaultDomain))).length + 2 ≤ fuel) :
    ∃ roles, rm.getImplicitRolesForUser hash fuel name domain = some roles ∧ roles.Nodup ∧
      ∀ role, role ∈ roles ↔
        Relation.TransGen (linkRel rm.links (domain.getD defaultDomain)) name role := by
  refine Worklist.run_spec (nodes (rm.graph (domain.getD defaultDomain))) ?_ ?_ name hfuel
  · intro round x y
    rw [(hash.perm round _).mem_iff]
    exact mem_getRoles hrole hdomain x y domain
  · exact fun x y hlink => (edges_mem (rm.graph (domain.getD defaultDomain)) _ hlink).2

/-- Two roles that inherit one another. -/
def twoCycle : DefaultRoleManager Graph :=
  ((new 10).addLink "admin" "root" none).addLink "root" "admin" none

theorem implicitRoles_eq_cycle :
    ∃ roles, twoCycle.getImplicitRolesForUser .inserted 4 "admin" none = some roles ∧
      roles.Nodup ∧ ∀ role, role ∈ roles ↔
        Relation.TransGen (linkRel twoCycle.links defaultDomain) "admin" role :=
  implicitRoles_eq twoCycle rfl rfl .inserted "admin" none 4 (by decide +kernel)

end DefaultRoleManager

end TeaclaveCrates.Casbin
