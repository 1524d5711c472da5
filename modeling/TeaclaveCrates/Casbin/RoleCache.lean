import TeaclaveCrates.Casbin.CachedEnforcer
import TeaclaveCrates.Casbin.MatchEdges

namespace TeaclaveCrates.Casbin

open Lib RoleGraph

/-!
# The answer cache of the role manager

With the feature `cached` the role manager keeps the answers of `has_link`. Calls that change the
graphs clear the cache where they add or remove an edge; `matching_fn` does not clear it, and
neither does a new role that matches nothing.

* `CachedRoleManager` — the manager with its cache; `hash` stands for the hash of the key.
* `RoleOp`, `replies`, `cachedReplies` — any calls, without and with the cache.
* `Kept` — a call does not leave an answer in the cache that it may change.
* `cachedReplies_eq_replies` — runs of such calls reply the same with and without the cache.
-/

variable {G : Type} [RoleGraph G]

/-! ### Queries that are not cached -/

namespace DefaultRoleManager

/-- The first role of that name, or that the name matches. -/
def firstRole (rm : DefaultRoleManager G) (g : G) (name : String) : Option String :=
  (nodes g).find? fun role =>
    decide (role = name) || (rm.roleMatchingFn.map fun f => f name role).getD false

/-- `get_roles`; the order of a hash set is not fixed. -/
def getRoles (rm : DefaultRoleManager G) (name : String) (domain : Option String) : List String :=
  ((rm.matchedDomains domain).flatMap fun d =>
    match rm.firstRole (rm.graph d) name with
    | some role => bfsIterator (rm.graph d) role rm.roleMatchingFn.isSome
    | none => []).eraseDups

/-- `get_users`: the sources of all edges to the role. -/
def getUsers (rm : DefaultRoleManager G) (name : String) (domain : Option String) : List String :=
  ((rm.matchedDomains domain).flatMap fun d =>
    match rm.firstRole (rm.graph d) name with
    | some role => incoming (rm.graph d) .link role ++ incoming (rm.graph d) .match_ role
    | none => []).eraseDups

/-- `matching_fn` -/
def matchingFn (rm : DefaultRoleManager G)
    (roleMatchingFn domainMatchingFn : Option (String → String → Bool)) : DefaultRoleManager G :=
  { rm with roleMatchingFn := roleMatchingFn, domainMatchingFn := domainMatchingFn }

end DefaultRoleManager

/-! ### What clears the cache -/

namespace RoleGraph

/-- What `link_if_matches` returns: whether it adds an edge. -/
def matchAdded (g : G) (f : String → String → Bool) (notPattern maybePattern : String) : Bool :=
  f maybePattern notPattern &&
    match findEdge g notPattern maybePattern with
    | some ⟨_, _, .match_⟩ => false
    | _ => true

/-- The body of the loop of `get_or_create_role`, with its flag `added`. -/
def linkBoth (f : String → String → Bool) (name : String) (x : G × Bool) (existing : String) :
    G × Bool :=
  let g := linkIfMatches x.1 f name existing
  (linkIfMatches g f existing name,
    x.2 || matchAdded x.1 f name existing || matchAdded g f existing name)

/-- Whether `get_or_create_role` adds an edge. -/
def roleAdded (g : G) (roleMatchingFn : Option (String → String → Bool)) (name : String) :
    Bool :=
  if name ∈ nodes g then false
  else
    match roleMatchingFn with
    | none => false
    | some f => ((nodes g).foldl (linkBoth f name) (addNode g name, false)).2

/-- Whether `add_link` adds an edge. -/
def linkAdded (g : G) (name1 name2 : String) : Bool :=
  match findEdge g name1 name2 with
  | some ⟨_, _, .link⟩ => false
  | _ => true

end RoleGraph

/-- A role manager with its cache. -/
structure CachedRoleManager (G C : Type) where
  rm : DefaultRoleManager G
  cache : C

/-- The calls, and what the cache does on its own. -/
inductive RoleOp where
  | addLink (name1 name2 : String) (domain : Option String)
  | deleteLink (name1 name2 : String) (domain : Option String)
  | clear
  | matchingFn (roleMatchingFn domainMatchingFn : Option (String → String → Bool))
  | hasLink (name1 name2 : String) (domain : Option String)
  | getRoles (name : String) (domain : Option String)
  | getUsers (name : String) (domain : Option String)
  | tick

/-- What a call returns. -/
inductive RoleReply where
  | unit
  | result (r : Except Fault Unit)
  | bool (b : Bool)
  | names (l : List String)
  deriving DecidableEq

namespace DefaultRoleManager

/-- A call of the manager without a cache. -/
def call (rm : DefaultRoleManager G) : RoleOp → DefaultRoleManager G × RoleReply
  | .addLink name1 name2 domain => (rm.addLink name1 name2 domain, .unit)
  | .deleteLink name1 name2 domain =>
    ((rm.deleteLink name1 name2 domain).1, .result (rm.deleteLink name1 name2 domain).2)
  | .clear => (rm.clear, .unit)
  | .matchingFn roleMatchingFn domainMatchingFn =>
    (rm.matchingFn roleMatchingFn domainMatchingFn, .unit)
  | .hasLink name1 name2 domain => (rm, .bool (rm.hasLink name1 name2 domain))
  | .getRoles name domain => (rm, .names (rm.getRoles name domain))
  | .getUsers name domain => (rm, .names (rm.getUsers name domain))
  | .tick => (rm, .unit)

/-- The replies to calls one after the other. -/
def replies : DefaultRoleManager G → List RoleOp → List RoleReply
  | _, [] => []
  | rm, op :: ops => (rm.call op).2 :: (rm.call op).1.replies ops

end DefaultRoleManager

namespace CachedRoleManager

variable {C K : Type} [Cache C K] (hash : String × String × String → K)

/-- `get_or_create_role` -/
def getOrCreateRole (s : CachedRoleManager G C) (name : String) (domain : Option String) :
    CachedRoleManager G C where
  rm := s.rm.getOrCreateRole name domain
  cache :=
    if roleAdded (s.rm.graph (domain.getD defaultDomain)) s.rm.roleMatchingFn name then
      Cache.clear s.cache
    else s.cache

/-- The cache behind a call that creates both roles and then, if `changes` says so of the graph,
    changes an edge. -/
def cacheAfter (s : CachedRoleManager G C) (name1 name2 : String) (domain : Option String)
    (changes : G → Bool) : C :=
  let s := (s.getOrCreateRole name1 domain).getOrCreateRole name2 domain
  if changes (s.rm.graph (domain.getD defaultDomain)) then Cache.clear s.cache else s.cache

/-- `add_link` -/
def addLink (s : CachedRoleManager G C) (name1 name2 : String) (domain : Option String) :
    CachedRoleManager G C :=
  if name1 = name2 then s
  else
    ⟨s.rm.addLink name1 name2 domain,
      s.cacheAfter name1 name2 domain fun g => linkAdded g name1 name2⟩

/-- `delete_link` -/
def deleteLink (s : CachedRoleManager G C) (name1 name2 : String) (domain : Option String) :
    CachedRoleManager G C :=
  if s.rm.domainHasRole name1 domain && s.rm.domainHasRole name2 domain then
    ⟨(s.rm.deleteLink name1 name2 domain).1,
      s.cacheAfter name1 name2 domain fun g => (findEdge g name1 name2).isSome⟩
  else s

/-- `has_link` -/
def hasLink (s : CachedRoleManager G C) (name1 name2 : String) (domain : Option String) :
    CachedRoleManager G C × Bool :=
  if name1 = name2 then (s, true)
  else
    let cacheKey := hash (name1, name2, domain.getD defaultDomain)
    match Cache.get s.cache cacheKey with
    | some res => (s, res)
    | none =>
      let res := s.rm.hasLink name1 name2 domain
      ({ s with cache := Cache.set s.cache cacheKey res }, res)

/-- A call of the manager with its cache. -/
def call (s : CachedRoleManager G C) : RoleOp → CachedRoleManager G C × RoleReply
  | .addLink name1 name2 domain => (s.addLink name1 name2 domain, .unit)
  | .deleteLink name1 name2 domain =>
    (s.deleteLink name1 name2 domain, .result (s.rm.deleteLink name1 name2 domain).2)
  | .clear => (⟨s.rm.clear, Cache.clear s.cache⟩, .unit)
  | .matchingFn roleMatchingFn domainMatchingFn =>
    ({ s with rm := s.rm.matchingFn roleMatchingFn domainMatchingFn }, .unit)
  | .hasLink name1 name2 domain =>
    ((s.hasLink hash name1 name2 domain).1, .bool (s.hasLink hash name1 name2 domain).2)
  | .getRoles name domain => (s, .names (s.rm.getRoles name domain))
  | .getUsers name domain => (s, .names (s.rm.getUsers name domain))
  | .tick => ({ s with cache := Cache.tick s.cache }, .unit)

/-- The replies to calls one after the other. -/
def cachedReplies : CachedRoleManager G C → List RoleOp → List RoleReply
  | _, [] => []
  | s, op :: ops => (s.call hash op).2 :: (s.call hash op).1.cachedReplies ops

/-! ### The calls that keep the cache right -/

/-- Nothing was cached since the cache was cleared. -/
def Unused (s : CachedRoleManager G C) : Prop := ∀ k v, ¬Cache.Holds s.cache k v

/-- `delete_link` creates a role, and the role matches nothing. -/
def createsSilently (s : CachedRoleManager G C) (name1 name2 : String) (domain : Option String) :
    Bool :=
  let g := s.rm.graph (domain.getD defaultDomain)
  s.rm.domainHasRole name1 domain && s.rm.domainHasRole name2 domain &&
    !(decide (name1 ∈ nodes g) && decide (name2 ∈ nodes g)) &&
    !roleAdded g s.rm.roleMatchingFn name1 &&
    !roleAdded ((s.getOrCreateRole name1 domain).rm.graph (domain.getD defaultDomain))
      s.rm.roleMatchingFn name2

/-- The call leaves no answer in the cache that it may change: the matching functions are changed,
    and a role that matches nothing is created by `delete_link` under a role matching function, only
    while nothing is cached. -/
def Kept (s : CachedRoleManager G C) : RoleOp → Prop
  | .matchingFn roleMatchingFn domainMatchingFn =>
    (roleMatchingFn = s.rm.roleMatchingFn ∧ domainMatchingFn = s.rm.domainMatchingFn) ∨ s.Unused
  | .deleteLink name1 name2 domain =>
    s.createsSilently name1 name2 domain = true → s.rm.roleMatchingFn = none ∨ s.Unused
  | _ => True

/-- All calls of a run are like that. -/
def KeptAll : CachedRoleManager G C → List RoleOp → Prop
  | _, [] => True
  | s, op :: ops => s.Kept op ∧ (s.call hash op).1.KeptAll ops

end CachedRoleManager

/-! ### Calls that do not clear the cache -/

namespace RoleGraph

variable {g : G} {f : String → String → Bool} {name : String}

theorem linkIfMatches_of_not_added {x y : String} (h : matchAdded g f x y = false) :
    linkIfMatches g f x y = g := by
  unfold matchAdded at h
  unfold linkIfMatches
  by_cases hf : f y x = true
  · rw [hf, Bool.true_and] at h
    rw [if_pos hf]
    cases hfind : findEdge g x y with
    | none =>
      rw [hfind] at h
      exact Bool.noConfusion h
    | some e =>
      obtain ⟨src, tgt, variant⟩ := e
      cases variant with
      | link =>
        rw [hfind] at h
        exact Bool.noConfusion h
      | match_ => rfl
  · simp [hf]

/-- The loop adds nothing when its flag stays down. -/
theorem foldl_linkBoth (f : String → String → Bool) (name : String) (l : List String) (g : G)
    (b : Bool) :
    (l.foldl (linkBoth f name) (g, b)).1 =
        l.foldl (fun g x => linkIfMatches (linkIfMatches g f name x) f x name) g ∧
      ((l.foldl (linkBoth f name) (g, b)).2 = false →
        b = false ∧ (l.foldl (linkBoth f name) (g, b)).1 = g) := by
  induction l generalizing g b with
  | nil => exact ⟨rfl, fun h => ⟨h, rfl⟩⟩
  | cons x l ih =>
    rw [List.foldl_cons]
    obtain ⟨hfst, hsnd⟩ := ih (linkIfMatches (linkIfMatches g f name x) f x name)
      (b || matchAdded g f name x || matchAdded (linkIfMatches g f name x) f x name)
    refine ⟨hfst, fun h => ?_⟩
    obtain ⟨hflag, hsame⟩ := hsnd h
    rw [Bool.or_eq_false_iff, Bool.or_eq_false_iff] at hflag
    obtain ⟨⟨hb, hto⟩, hfrom⟩ := hflag
    rw [linkIfMatches_of_not_added hto] at hfrom hsame
    rw [linkIfMatches_of_not_added hfrom] at hsame
    refine ⟨hb, ?_⟩
    rw [linkBoth, linkIfMatches_of_not_added hto, linkIfMatches_of_not_added hfrom]
    exact hsame

/-- A role that matches nothing is a node without edges. -/
theorem edges_createRole {roleMatchingFn : Option (String → String → Bool)}
    (h : roleAdded g roleMatchingFn name = false) :
    edges (DefaultRoleManager.createRole roleMatchingFn name g) = edges g := by
  unfold roleAdded at h
  unfold DefaultRoleManager.createRole
  by_cases hname : name ∈ nodes g
  · simp [hname]
  · rw [if_neg hname] at h ⊢
    cases roleMatchingFn with
    | none => exact edges_addNode hname
    | some f =>
      obtain ⟨hfst, hsnd⟩ := foldl_linkBoth f name (nodes g) (addNode g name) false
      have hsame := (hsnd h).2
      rw [hfst] at hsame
      show edges ((nodes g).foldl _ (addNode g name)) = _
      rw [hsame, edges_addNode hname]

end RoleGraph

namespace DefaultRoleManager

variable {rm rm' : DefaultRoleManager G}

/-- Whether a query looks at the domain, if there is one. -/
def LooksAt (rm : DefaultRoleManager G) (domain : Option String) (d : String) : Prop :=
  match rm.domainMatchingFn with
  | some f => f (domain.getD defaultDomain) d = true
  | none => d = domain.getD defaultDomain

variable {domain : Option String}

omit [RoleGraph G] in
theorem mem_matchedDomains {d : String} :
    d ∈ rm.matchedDomains domain ↔ rm.allDomains.contains d = true ∧ rm.LooksAt domain d := by
  unfold matchedDomains LooksAt
  cases rm.domainMatchingFn with
  | some f =>
    simp [LinkedMap.mem_keys_iff]
  | none =>
    dsimp only
    by_cases h : rm.allDomains.contains (domain.getD defaultDomain) = true
    · rw [if_pos h, List.mem_singleton]
      constructor
      · rintro rfl
        exact ⟨h, rfl⟩
      · exact fun hd => hd.2
    · rw [if_neg h]
      constructor
      · exact fun hd => absurd hd List.not_mem_nil
      · rintro ⟨hd, rfl⟩
        exact absurd hd h

/-- Managers with the same domains and graphs give the same answers. -/
theorem hasLink_eq_of_graphs (hrole : rm'.roleMatchingFn = rm.roleMatchingFn)
    (hdomain : rm'.domainMatchingFn = rm.domainMatchingFn)
    (hlevel : rm'.maxHierarchyLevel = rm.maxHierarchyLevel)
    (hcontains : ∀ d, rm'.allDomains.contains d = rm.allDomains.contains d)
    (hgraph : ∀ d, rm'.graph d = rm.graph d) (a b : String) (domain : Option String) :
    rm'.hasLink a b domain = rm.hasLink a b domain := by
  have hmem : ∀ d, d ∈ rm'.matchedDomains domain ↔ d ∈ rm.matchedDomains domain := by
    intro d
    simp [mem_matchedDomains, hcontains, LooksAt, hdomain]
  have hstart : ∀ g, rm'.startRole g a = rm.startRole g a := by
    intro g
    simp [startRole, hrole]
  unfold hasLink
  by_cases hab : a = b
  · simp [hab]
  · rw [if_neg hab, if_neg hab, Bool.eq_iff_iff, List.any_eq_true, List.any_eq_true]
    simp [hmem, hgraph, hstart, hrole, hlevel]

/-- Without a role matching function the answer depends on the edges only. -/
theorem hasLink_iff_of_role_none (hrole : rm.roleMatchingFn = none) {a b : String} (hab : a ≠ b)
    (domain : Option String) :
    rm.hasLink a b domain = true ↔ ∃ d, rm.LooksAt domain d ∧
      ∃ k, b ∈ layer (linkRel rm.links d) a k ∧
        bottlenecks (rm.linked d) a k < rm.maxHierarchyLevel := by
  rw [hasLink, if_neg hab, List.any_eq_true]
  constructor
  · rintro ⟨d, hd, hfound⟩
    refine ⟨d, (mem_matchedDomains.mp hd).2, ?_⟩
    by_cases ha : a ∈ nodes (rm.graph d)
    · simp only [startRole_of_role_none hrole, if_pos ha] at hfound
      rw [← mem_visited_linked hrole ha]
      simpa [hrole] using hfound
    · simp only [startRole_of_role_none hrole, if_neg ha] at hfound
      exact Bool.noConfusion hfound
  · rintro ⟨d, hd, k, hk, hdepth⟩
    -- a role that leads on is in the graph
    have ha : a ∈ nodes (rm.graph d) := by
      by_contra hno
      exact hab (eq_of_mem_layer_of_not_mem hno hk).symm
    have hvisited := (mem_visited_linked hrole ha b).mpr ⟨k, hk, hdepth⟩
    refine ⟨d, mem_matchedDomains.mpr ⟨contains_of_mem_nodes ha, hd⟩, ?_⟩
    simp only [startRole_of_role_none hrole, if_pos ha]
    simpa [hrole] using hvisited

/-- Then roles without edges do not change it. -/
theorem hasLink_eq_of_edges (hrole : rm.roleMatchingFn = none)
    (hrole' : rm'.roleMatchingFn = none) (hdomain : rm'.domainMatchingFn = rm.domainMatchingFn)
    (hlevel : rm'.maxHierarchyLevel = rm.maxHierarchyLevel)
    (hedges : ∀ d, edges (rm'.graph d) = edges (rm.graph d)) (a b : String)
    (domain : Option String) : rm'.hasLink a b domain = rm.hasLink a b domain := by
  by_cases hab : a = b
  · simp [hasLink, hab]
  have hlinks : rm'.links = rm.links := by
    ext l
    show _ ∈ edges (rm'.graph l.1) ↔ _ ∈ edges (rm.graph l.1)
    rw [hedges]
  have hlinked : ∀ d, rm'.linked d = rm.linked d := by
    intro d
    unfold linked outgoing
    rw [hedges]
  have hlooks : ∀ d, rm'.LooksAt domain d = rm.LooksAt domain d := by
    intro d
    simp [LooksAt, hdomain]
  simp [Bool.eq_iff_iff, hasLink_iff_of_role_none hrole' hab, hasLink_iff_of_role_none hrole hab,
    hlinks, hlinked, hlooks, hlevel]

theorem createRole_of_mem {roleMatchingFn : Option (String → String → Bool)} {name : String}
    {g : G} (h : name ∈ nodes g) : createRole roleMatchingFn name g = g := by
  simp [createRole, h]

/-- A change of one graph that changes nothing, where both roles are there. -/
theorem hasLink_eq_of_same {name1 name2 : String} {f : G → G}
    (h1 : name1 ∈ nodes (rm.graph (domain.getD defaultDomain)))
    (h2 : name2 ∈ nodes (rm.graph (domain.getD defaultDomain)))
    (hf : f (rm.graph (domain.getD defaultDomain)) = rm.graph (domain.getD defaultDomain))
    (a b : String) (domain' : Option String) :
    (((rm.getOrCreateRole name1 domain).getOrCreateRole name2 domain).modifyGraph domain f).hasLink
      a b domain' = rm.hasLink a b domain' := by
  have hrole : (((rm.getOrCreateRole name1 domain).getOrCreateRole name2 domain).modifyGraph domain
      f).roleMatchingFn = rm.roleMatchingFn := rfl
  have hdomain : (((rm.getOrCreateRole name1 domain).getOrCreateRole name2 domain).modifyGraph
      domain f).domainMatchingFn = rm.domainMatchingFn := rfl
  have hlevel : (((rm.getOrCreateRole name1 domain).getOrCreateRole name2 domain).modifyGraph domain
      f).maxHierarchyLevel = rm.maxHierarchyLevel := rfl
  refine hasLink_eq_of_graphs hrole hdomain hlevel ?_ ?_ a b domain'
  · intro d
    -- the domain is there, since it has roles
    have hd := contains_of_mem_nodes h1
    rw [contains_modifyGraph, getOrCreateRole, contains_modifyGraph, getOrCreateRole,
      contains_modifyGraph]
    by_cases hsame : d = domain.getD defaultDomain
    · simp [hsame, hd]
    · simp [hsame]
  · intro d
    rw [graph_modifyGraph, graph_getOrCreateRoles]
    by_cases hd : d = domain.getD defaultDomain
    · simp [hd, createRole_of_mem h1, createRole_of_mem h2, hf]
    · simp [hd]

/-- Two new roles that match nothing leave the edges as they are. -/
theorem edges_getOrCreateRoles {name1 name2 : String}
    (h1 : roleAdded (rm.graph (domain.getD defaultDomain)) rm.roleMatchingFn name1 = false)
    (h2 : roleAdded ((rm.getOrCreateRole name1 domain).graph (domain.getD defaultDomain))
      rm.roleMatchingFn name2 = false) (d : String) :
    edges (((rm.getOrCreateRole name1 domain).getOrCreateRole name2 domain).graph d) =
      edges (rm.graph d) := by
  rw [graph_getOrCreateRoles]
  by_cases hd : d = domain.getD defaultDomain
  · rw [getOrCreateRole, graph_modifyGraph, if_pos rfl] at h2
    simp [hd, edges_createRole h2, edges_createRole h1]
  · simp [hd]

theorem hasLink_getD (a b : String) (domain : Option String) :
    rm.hasLink a b (some (domain.getD defaultDomain)) = rm.hasLink a b domain := by
  cases domain <;> rfl

end DefaultRoleManager

/-! ### The cache stays right -/

namespace CachedRoleManager

variable {C K : Type} [Cache C K] {hash : String × String × String → K} {s : CachedRoleManager G C}

/-- What the cache holds are answers of the manager. -/
def CacheRight (hash : String × String × String → K) (s : CachedRoleManager G C) : Prop :=
  ∀ name1 name2 d v, Cache.Holds s.cache (hash (name1, name2, d)) v →
    s.rm.hasLink name1 name2 (some d) = v

theorem cacheRight_of_unused (h : s.Unused) : CacheRight hash s :=
  fun _ _ _ v hv => absurd hv (h _ v)

theorem CacheRight.of_same {s' : CachedRoleManager G C} (h : CacheRight hash s)
    (hcache : s'.cache = s.cache)
    (hsame : ∀ a b domain, s'.rm.hasLink a b domain = s.rm.hasLink a b domain) :
    CacheRight hash s' := by
  intro name1 name2 d v hv
  rw [hcache] at hv
  rw [hsame]
  exact h name1 name2 d v hv

/-- A call that creates both roles clears the cache, or it adds no edge with them. -/
theorem cacheAfter_cases (s : CachedRoleManager G C) (name1 name2 : String) (domain : Option String)
    (changes : G → Bool) :
    (∀ k v, ¬Cache.Holds (s.cacheAfter name1 name2 domain changes) k v) ∨
      s.cacheAfter name1 name2 domain changes = s.cache ∧
        roleAdded (s.rm.graph (domain.getD defaultDomain)) s.rm.roleMatchingFn name1 = false ∧
        roleAdded ((s.getOrCreateRole name1 domain).rm.graph (domain.getD defaultDomain))
          s.rm.roleMatchingFn name2 = false ∧
        changes (((s.rm.getOrCreateRole name1 domain).getOrCreateRole name2 domain).graph
          (domain.getD defaultDomain)) = false := by
  have hclear : ∀ (c : C) k v, ¬Cache.Holds (Cache.clear c) k v := Cache.not_holds_clear
  unfold cacheAfter
  by_cases hchanges : changes (((s.getOrCreateRole name1 domain).getOrCreateRole name2
      domain).rm.graph (domain.getD defaultDomain)) = true
  · rw [if_pos hchanges]
    exact Or.inl (hclear _)
  rw [if_neg hchanges]
  -- the second role comes later, and clears what the first one has left
  by_cases h2 : roleAdded ((s.getOrCreateRole name1 domain).rm.graph (domain.getD defaultDomain))
      s.rm.roleMatchingFn name2 = true
  · have hcache : ((s.getOrCreateRole name1 domain).getOrCreateRole name2 domain).cache =
        Cache.clear (s.getOrCreateRole name1 domain).cache := if_pos h2
    rw [hcache]
    exact Or.inl (hclear _)
  have hcache2 : ((s.getOrCreateRole name1 domain).getOrCreateRole name2 domain).cache =
      (s.getOrCreateRole name1 domain).cache := if_neg h2
  rw [hcache2]
  by_cases h1 : roleAdded (s.rm.graph (domain.getD defaultDomain)) s.rm.roleMatchingFn name1 = true
  · have hcache : (s.getOrCreateRole name1 domain).cache = Cache.clear s.cache := if_pos h1
    rw [hcache]
    exact Or.inl (hclear _)
  have hcache1 : (s.getOrCreateRole name1 domain).cache = s.cache := if_neg h1
  exact Or.inr ⟨hcache1, Bool.eq_false_iff.mpr h1, Bool.eq_false_iff.mpr h2,
    Bool.eq_false_iff.mpr hchanges⟩

theorem CacheRight.addLink (h : CacheRight hash s) (name1 name2 : String)
    (domain : Option String) : CacheRight hash (s.addLink name1 name2 domain) := by
  unfold CachedRoleManager.addLink
  by_cases hne : name1 = name2
  · rw [if_pos hne]
    exact h
  rw [if_neg hne]
  rcases s.cacheAfter_cases name1 name2 domain fun g => linkAdded g name1 name2 with
    hunused | ⟨hcache, h1, h2, hlink⟩
  · exact cacheRight_of_unused hunused
  refine h.of_same hcache fun a b domain' => ?_
  -- the link is there already, and so are its roles
  have hedges := DefaultRoleManager.edges_getOrCreateRoles h1 h2 (domain.getD defaultDomain)
  have hfind : ∃ x y, findEdge (s.rm.graph (domain.getD defaultDomain)) name1 name2 =
      some ⟨x, y, .link⟩ := by
    rw [linkAdded, findEdge_eq, hedges, ← findEdge_eq] at hlink
    split at hlink
    case h_1 x y hsome => exact ⟨x, y, hsome⟩
    case h_2 => exact Bool.noConfusion hlink
  obtain ⟨x, y, hsome⟩ := hfind
  have hfirst := hsome
  rw [findEdge_eq] at hfirst
  have hends := List.find?_some hfirst
  simp only [decide_eq_true_eq] at hends
  obtain ⟨rfl, rfl⟩ := hends
  have hnodes := edges_mem _ _ (List.mem_of_find?_eq_some hfirst)
  rw [DefaultRoleManager.addLink, if_neg hne]
  apply DefaultRoleManager.hasLink_eq_of_same hnodes.1 hnodes.2
  rw [hsome]

theorem CacheRight.deleteLink (h : CacheRight hash s) {name1 name2 : String}
    {domain : Option String} (hkept : s.Kept (.deleteLink name1 name2 domain)) :
    CacheRight hash (s.deleteLink name1 name2 domain) := by
  unfold CachedRoleManager.deleteLink
  by_cases hroles : (s.rm.domainHasRole name1 domain && s.rm.domainHasRole name2 domain) = true
  case neg =>
    rw [if_neg hroles]
    exact h
  rw [if_pos hroles]
  rcases s.cacheAfter_cases name1 name2 domain fun g => (findEdge g name1 name2).isSome with
    hunused | ⟨hcache, h1, h2, hedge⟩
  · exact cacheRight_of_unused hunused
  have hedges := DefaultRoleManager.edges_getOrCreateRoles h1 h2
  have hfind : ∀ d, d = domain.getD defaultDomain →
      findEdge (((s.rm.getOrCreateRole name1 domain).getOrCreateRole name2 domain).graph d) name1
        name2 = none := by
    simpa using hedge
  have hrm : (s.rm.deleteLink name1 name2 domain).1 =
      ((s.rm.getOrCreateRole name1 domain).getOrCreateRole name2 domain).modifyGraph domain
        fun g => removeEdge g name1 name2 := by
    simp [DefaultRoleManager.deleteLink, hroles]
  -- with both roles in the graph nothing changes, and without them they are created
  by_cases hnodes : name1 ∈ nodes (s.rm.graph (domain.getD defaultDomain)) ∧
      name2 ∈ nodes (s.rm.graph (domain.getD defaultDomain))
  · refine h.of_same hcache fun a b domain' => ?_
    rw [hrm]
    apply DefaultRoleManager.hasLink_eq_of_same hnodes.1 hnodes.2
    apply removeEdge_of_none
    have hnone := hfind _ rfl
    rwa [findEdge_eq, hedges, ← findEdge_eq] at hnone
  · have hsilent : s.createsSilently name1 name2 domain = true := by
      rw [createsSilently]
      simp only [hroles, h1, h2, Bool.and_eq_true, Bool.not_eq_true', Bool.and_eq_false_iff,
        decide_eq_false_iff_not, true_and, and_true]
      exact not_and_or.mp hnodes
    -- without a matching function a new role adds no edge; else the cache has nothing
    rcases hkept hsilent with hrole | hunused
    · refine h.of_same hcache fun a b domain' => ?_
      rw [hrm]
      refine DefaultRoleManager.hasLink_eq_of_edges hrole ?_ ?_ ?_ ?_ a b domain'
      · exact hrole
      · rfl
      · rfl
      intro d
      rw [DefaultRoleManager.graph_modifyGraph]
      by_cases hd : d = domain.getD defaultDomain
      · rw [if_pos hd, removeEdge_of_none (hfind d hd), hedges]
      · simp [hd, hedges]
    · refine cacheRight_of_unused fun k v => ?_
      rw [hcache]
      exact hunused k v

/-- An answer from the cache is right, and so is what is put into it. -/
theorem CacheRight.hasLink (hinj : Function.Injective hash) (h : CacheRight hash s)
    (name1 name2 : String) (domain : Option String) :
    CacheRight hash (s.hasLink hash name1 name2 domain).1 ∧
      (s.hasLink hash name1 name2 domain).2 = s.rm.hasLink name1 name2 domain ∧
      (s.hasLink hash name1 name2 domain).1.rm = s.rm := by
  unfold CachedRoleManager.hasLink
  by_cases hne : name1 = name2
  · rw [if_pos hne]
    refine ⟨h, ?_, rfl⟩
    simp [DefaultRoleManager.hasLink, hne]
  rw [if_neg hne]
  dsimp only
  cases hget : Cache.get s.cache (hash (name1, name2, domain.getD defaultDomain)) with
  | some res =>
    refine ⟨h, ?_, rfl⟩
    rw [← h name1 name2 _ res (Cache.holds_of_get _ _ _ hget), DefaultRoleManager.hasLink_getD]
  | none =>
    refine ⟨?_, rfl, rfl⟩
    intro a b d v hv
    rcases Cache.holds_set _ _ _ _ _ hv with ⟨hkey, rfl⟩ | hold
    -- no other question has this key
    · have hkeys := hinj hkey
      simp only [Prod.mk.injEq] at hkeys
      obtain ⟨rfl, rfl, rfl⟩ := hkeys
      exact DefaultRoleManager.hasLink_getD a b domain
    · exact h a b d v hold

/-- A call keeps the cache right and replies as the manager without it. -/
theorem CacheRight.call (hinj : Function.Injective hash) (h : CacheRight hash s) {op : RoleOp}
    (hkept : s.Kept op) :
    CacheRight hash (s.call hash op).1 ∧ (s.call hash op).1.rm = (s.rm.call op).1 ∧
      (s.call hash op).2 = (s.rm.call op).2 := by
  cases op with
  | addLink name1 name2 domain =>
    refine ⟨h.addLink name1 name2 domain, ?_, rfl⟩
    show (s.addLink name1 name2 domain).rm = s.rm.addLink name1 name2 domain
    unfold CachedRoleManager.addLink
    by_cases hne : name1 = name2
    · simp [hne, DefaultRoleManager.addLink]
    · simp [hne]
  | deleteLink name1 name2 domain =>
    refine ⟨h.deleteLink hkept, ?_, rfl⟩
    show (s.deleteLink name1 name2 domain).rm = (s.rm.deleteLink name1 name2 domain).1
    unfold CachedRoleManager.deleteLink
    by_cases hroles : (s.rm.domainHasRole name1 domain && s.rm.domainHasRole name2 domain) = true
    · simp [hroles]
    · simp [hroles, DefaultRoleManager.deleteLink]
  | clear => exact ⟨cacheRight_of_unused (Cache.not_holds_clear _), rfl, rfl⟩
  | matchingFn roleMatchingFn domainMatchingFn =>
    refine ⟨?_, rfl, rfl⟩
    rcases hkept with ⟨rfl, rfl⟩ | hunused
    · exact h
    · exact cacheRight_of_unused hunused
  | hasLink name1 name2 domain =>
    obtain ⟨hright, hres, hrm⟩ := h.hasLink hinj name1 name2 domain
    exact ⟨hright, hrm, congrArg RoleReply.bool hres⟩
  | getRoles name domain => exact ⟨h, rfl, rfl⟩
  | getUsers name domain => exact ⟨h, rfl, rfl⟩
  | tick =>
    refine ⟨?_, rfl, rfl⟩
    intro name1 name2 d v hv
    exact h name1 name2 d v (Cache.holds_tick _ _ _ hv)

theorem cachedReplies_of_cacheRight (hinj : Function.Injective hash) (ops : List RoleOp)
    (s : CachedRoleManager G C) (h : CacheRight hash s) (hkept : s.KeptAll hash ops) :
    s.cachedReplies hash ops = s.rm.replies ops := by
  induction ops generalizing s with
  | nil => rfl
  | cons op ops ih =>
    obtain ⟨hright, hrm, hreply⟩ := h.call hinj hkept.1
    show _ :: _ = _ :: _
    rw [hreply, ih _ hright hkept.2, hrm]

/-- **The cache does not show, in runs whose calls leave no stale answer in it.** -/
theorem cachedReplies_eq_replies (hash : String × String × String → K)
    (hinj : Function.Injective hash) (maxHierarchyLevel : Nat) (cache : C)
    (hempty : ∀ k v, ¬Cache.Holds cache k v) (ops : List RoleOp)
    (hkept : KeptAll hash ⟨DefaultRoleManager.new (G := G) maxHierarchyLevel, cache⟩ ops) :
    cachedReplies hash ⟨DefaultRoleManager.new (G := G) maxHierarchyLevel, cache⟩ ops =
      (DefaultRoleManager.new (G := G) maxHierarchyLevel).replies ops :=
  cachedReplies_of_cacheRight hinj ops _ (cacheRight_of_unused hempty) hkept

/-- A matching function: `adm*` is a pattern for `admin`. -/
def adminPattern (key1 key2 : String) : Bool := decide (key1 = "admin") && decide (key2 = "adm*")

/-- An empty cache whose keys are not hashed. -/
def emptyCache : MapCache (String × String × String) := ⟨[]⟩

/-- A function that is set before the first query does no harm, and deleted links are forgotten. -/
theorem cachedReplies_delete :
    cachedReplies (fun x => x) ⟨DefaultRoleManager.new (G := Graph) 10, emptyCache⟩
        [.matchingFn (some adminPattern) none, .addLink "alice" "admin" none,
          .hasLink "alice" "adm*" none, .deleteLink "alice" "admin" none,
          .hasLink "alice" "adm*" none] =
      (DefaultRoleManager.new (G := Graph) 10).replies
        [.matchingFn (some adminPattern) none, .addLink "alice" "admin" none,
          .hasLink "alice" "adm*" none, .deleteLink "alice" "admin" none,
          .hasLink "alice" "adm*" none] ∧
    (DefaultRoleManager.new (G := Graph) 10).replies
        [.matchingFn (some adminPattern) none, .addLink "alice" "admin" none,
          .hasLink "alice" "adm*" none, .deleteLink "alice" "admin" none,
          .hasLink "alice" "adm*" none] =
      [.unit, .unit, .bool true, .result (.ok ()), .bool false] := by
  refine ⟨cachedReplies_eq_replies _ Function.injective_id 10 _ (fun k v => List.not_mem_nil) _ ?_,
    by decide +kernel⟩
  refine ⟨Or.inr fun k v => List.not_mem_nil, trivial, trivial, fun h => ?_, trivial, trivial⟩
  exact absurd h (by decide +kernel)

/-- A pattern that is set after the first query is not seen: the cached answer stays. -/
theorem cachedReplies_matchingFn :
    ¬∀ ops : List RoleOp,
      cachedReplies (fun x => x) ⟨DefaultRoleManager.new (G := Graph) 10, emptyCache⟩ ops =
        (DefaultRoleManager.new (G := Graph) 10).replies ops := by
  intro h
  have hops := h [.addLink "alice" "admin" none, .hasLink "alice" "adm*" none,
    .matchingFn (some adminPattern) none, .hasLink "alice" "adm*" none]
  have hcached : cachedReplies (fun x => x) ⟨DefaultRoleManager.new (G := Graph) 10, emptyCache⟩
      [.addLink "alice" "admin" none, .hasLink "alice" "adm*" none,
        .matchingFn (some adminPattern) none, .hasLink "alice" "adm*" none] =
      [.unit, .bool false, .unit, .bool false] := by decide +kernel
  have hplain : (DefaultRoleManager.new (G := Graph) 10).replies
      [.addLink "alice" "admin" none, .hasLink "alice" "adm*" none,
        .matchingFn (some adminPattern) none, .hasLink "alice" "adm*" none] =
      [.unit, .bool false, .unit, .bool true] := by decide +kernel
  rw [hcached, hplain] at hops
  exact absurd hops (by decide)

end CachedRoleManager

end TeaclaveCrates.Casbin
