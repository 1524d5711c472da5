import TeaclaveCrates.Casbin.RoleSearch

namespace TeaclaveCrates.Casbin

open Lib RoleGraph

/-!
# Role managers without matching functions

Without matching functions a manager is a set of links, triples of a domain and two roles.

* `Plain` — such a manager: all edges are links and no link is stored twice.
* `links_addLink`, `links_deleteLink`, `links_clear` — the operations on the set of links.
* `hasLink_congr` — managers with the same links give the same answers, where the depth limit
  cannot make the search depend on the order of the links.
-/

variable {G : Type} [RoleGraph G]

namespace DefaultRoleManager

variable {rm : DefaultRoleManager G} {name1 name2 : String} {domain : Option String}

/-! ### The graphs of a manager -/

@[simp]
theorem graph_modifyGraph (rm : DefaultRoleManager G) (domain : Option String) (f : G → G)
    (d : String) :
    (rm.modifyGraph domain f).graph d =
      if d = domain.getD defaultDomain then f (rm.graph d) else rm.graph d := by
  unfold graph modifyGraph
  by_cases h : d = domain.getD defaultDomain
  · simp [h]
  · simp [h]

/-- Both roles exist in the domain, and the other graphs are as they were. -/
theorem graph_getOrCreateRoles (rm : DefaultRoleManager G) (name1 name2 : String)
    (domain : Option String) (d : String) :
    ((rm.getOrCreateRole name1 domain).getOrCreateRole name2 domain).graph d =
      if d = domain.getD defaultDomain then
        createRole rm.roleMatchingFn name2 (createRole rm.roleMatchingFn name1 (rm.graph d))
      else rm.graph d := by
  have hrole : (rm.getOrCreateRole name1 domain).roleMatchingFn = rm.roleMatchingFn := rfl
  rw [getOrCreateRole, hrole, graph_modifyGraph, getOrCreateRole, graph_modifyGraph]
  by_cases hd : d = domain.getD defaultDomain
  · simp [hd]
  · simp [hd]

theorem contains_modifyGraph (rm : DefaultRoleManager G) (domain : Option String) (f : G → G)
    (d : String) :
    (rm.modifyGraph domain f).allDomains.contains d =
      (decide (d = domain.getD defaultDomain) || rm.allDomains.contains d) := by
  unfold modifyGraph LinkedMap.contains
  by_cases hd : d = domain.getD defaultDomain
  · simp [hd]
  · simp [hd]

theorem contains_of_mem_nodes {name d : String} (h : name ∈ nodes (rm.graph d)) :
    rm.allDomains.contains d = true := by
  by_contra hno
  have hnone : rm.allDomains.get? d = none := by
    simpa [LinkedMap.contains] using hno
  rw [graph, hnone] at h
  simp at h

/-- A manager without matching functions, whose edges are links and stand once each. -/
structure Plain (rm : DefaultRoleManager G) : Prop where
  role : rm.roleMatchingFn = none
  domain : rm.domainMatchingFn = none
  variant : ∀ d, ∀ e ∈ edges (rm.graph d), e.variant = .link
  nodup : ∀ d, (edges (rm.graph d)).Nodup

/-- The links of a manager: domain, role and inherited role. -/
def links (rm : DefaultRoleManager G) : Set (String × String × String) :=
  {l | ⟨l.2.1, l.2.2, .link⟩ ∈ edges (rm.graph l.1)}

theorem mem_links (rm : DefaultRoleManager G) (d x y : String) :
    (d, x, y) ∈ rm.links ↔ ⟨x, y, .link⟩ ∈ edges (rm.graph d) := Iff.rfl

/-! ### The operations -/

@[simp]
theorem edges_createRole_none (name : String) (g : G) :
    edges (createRole none name g) = edges g := by
  unfold createRole
  split
  · rfl
  · rename_i hname
    exact edges_addNode hname

theorem mem_nodes_createRole_none (name : String) (g : G) (x : String) :
    x ∈ nodes (createRole none name g) ↔ x = name ∨ x ∈ nodes g := by
  unfold createRole
  split
  · constructor
    · exact Or.inr
    · rintro (rfl | h)
      · assumption
      · exact h
  · rename_i hname
    simp [nodes_addNode hname, or_comm]

/-- The graph of the domain once both roles exist. -/
theorem graph_createRoles (h : rm.roleMatchingFn = none) (d : String) :
    ((rm.getOrCreateRole name1 domain).getOrCreateRole name2 domain).graph d =
      if d = domain.getD defaultDomain then
        createRole none name2 (createRole none name1 (rm.graph d))
      else rm.graph d := by
  rw [graph_getOrCreateRoles, h]

theorem findEdge_eq_none_iff {g : G} (hlink : ∀ e ∈ edges g, e.variant = .link) (x y : String) :
    findEdge g x y = none ↔ ⟨x, y, .link⟩ ∉ edges g := by
  rw [findEdge_eq, List.find?_eq_none]
  constructor
  · intro h hmem
    simpa using h _ hmem
  · intro h e he hcon
    simp only [decide_eq_true_eq] at hcon
    obtain ⟨rfl, rfl⟩ := hcon
    exact h (by rw [← hlink e he]; exact he)

/-- The edges of the domain after `add_link`: the link in front, unless it is there already. -/
theorem edges_addLink (hp : Plain rm) (hne : name1 ≠ name2) (d : String) :
    edges ((rm.addLink name1 name2 domain).graph d) =
      if d = domain.getD defaultDomain ∧ ⟨name1, name2, .link⟩ ∉ edges (rm.graph d) then
        ⟨name1, name2, .link⟩ :: edges (rm.graph d)
      else edges (rm.graph d) := by
  rw [addLink, if_neg hne, graph_modifyGraph, graph_createRoles hp.role]
  by_cases hd : d = domain.getD defaultDomain
  · simp only [hd, if_true, true_and]
    rw [← hd]
    set g := createRole none name2 (createRole none name1 (rm.graph d)) with hg
    have hedges : edges g = edges (rm.graph d) := by simp [hg]
    have hlink : ∀ e ∈ edges g, e.variant = .link := hedges ▸ hp.variant d
    by_cases hmem : ⟨name1, name2, .link⟩ ∈ edges (rm.graph d)
    · rw [if_neg (not_not.mpr hmem)]
      have hsome : findEdge g name1 name2 ≠ none := by
        rw [Ne, findEdge_eq_none_iff hlink, hedges]
        exact not_not.mpr hmem
      obtain ⟨e, he⟩ := Option.ne_none_iff_exists'.mp hsome
      have hv := hlink e (List.mem_of_find?_eq_some (findEdge_eq g _ _ ▸ he))
      obtain ⟨src, tgt, variant⟩ := e
      subst hv
      simp [he, hedges]
    · rw [if_pos hmem]
      have hnone : findEdge g name1 name2 = none := by
        rw [findEdge_eq_none_iff hlink, hedges]
        exact hmem
      have hnodes : name1 ∈ nodes g ∧ name2 ∈ nodes g := by
        simp [hg, mem_nodes_createRole_none]
      simp [hnone, edges_addEdge hnodes.1 hnodes.2, hedges]
  · simp [hd]

theorem plain_addLink (hp : Plain rm) : Plain (rm.addLink name1 name2 domain) := by
  by_cases hne : name1 = name2
  · rw [addLink, if_pos hne]
    exact hp
  · refine ⟨?_, ?_, ?_, ?_⟩
    · rw [addLink, if_neg hne]
      exact hp.role
    · rw [addLink, if_neg hne]
      exact hp.domain
    · intro d e he
      rw [edges_addLink hp hne] at he
      split at he
      · rcases List.mem_cons.mp he with rfl | he
        · rfl
        · exact hp.variant d e he
      · exact hp.variant d e he
    · intro d
      rw [edges_addLink hp hne]
      split
      · rename_i hcond
        exact List.nodup_cons.mpr ⟨hcond.2, hp.nodup d⟩
      · exact hp.nodup d

/-- `add_link` puts the link in, except that no role is linked to itself. -/
theorem links_addLink (hp : Plain rm) (l : String × String × String) :
    l ∈ (rm.addLink name1 name2 domain).links ↔
      l ∈ rm.links ∨ name1 ≠ name2 ∧ l = (domain.getD defaultDomain, name1, name2) := by
  obtain ⟨d, x, y⟩ := l
  by_cases hne : name1 = name2
  · simp [addLink, hne]
  · rw [mem_links, edges_addLink hp hne]
    by_cases hcond : d = domain.getD defaultDomain ∧ ⟨name1, name2, .link⟩ ∉ edges (rm.graph d)
    · rw [if_pos hcond, List.mem_cons, Edge.mk.injEq, Prod.mk.injEq, Prod.mk.injEq]
      tauto
    · rw [if_neg hcond]
      refine ⟨Or.inl, ?_⟩
      rintro (h | ⟨-, hl⟩)
      · exact h
      · simp only [Prod.mk.injEq] at hl
        obtain ⟨hd, rfl, rfl⟩ := hl
        by_contra hcon
        exact hcond ⟨hd, hcon⟩

@[simp]
theorem maxHierarchyLevel_addLink :
    (rm.addLink name1 name2 domain).maxHierarchyLevel = rm.maxHierarchyLevel := by
  unfold addLink
  split <;> rfl

private theorem eraseP_congr {α : Type} {p q : α → Bool} :
    ∀ l : List α, (∀ x ∈ l, p x = q x) → l.eraseP p = l.eraseP q
  | [], _ => rfl
  | x :: l, h => by
    simp [List.eraseP_cons, h x List.mem_cons_self,
      eraseP_congr l fun y hy => h y (List.mem_cons_of_mem x hy)]

variable {rm' : DefaultRoleManager G}

/-- The edges of the domain after a successful `delete_link`. -/
theorem edges_deleteLink (hp : Plain rm) (h : rm.deleteLink name1 name2 domain = (rm', .ok ()))
    (d : String) :
    edges (rm'.graph d) =
      if d = domain.getD defaultDomain then (edges (rm.graph d)).erase ⟨name1, name2, .link⟩
      else edges (rm.graph d) := by
  rw [deleteLink] at h
  split at h
  · obtain ⟨rfl, -⟩ := Prod.mk.inj h
    rw [graph_modifyGraph, graph_createRoles hp.role]
    by_cases hd : d = domain.getD defaultDomain
    · simp only [hd, if_true]
      rw [← hd]
      rw [edges_removeEdge, edges_createRole_none, edges_createRole_none, List.erase_eq_eraseP]
      apply eraseP_congr
      intro e he
      have hv := hp.variant d e he
      obtain ⟨src, tgt, variant⟩ := e
      subst hv
      rw [Bool.eq_iff_iff]
      simp only [decide_eq_true_eq, beq_iff_eq, Edge.mk.injEq, and_true]
      exact ⟨fun h => ⟨h.1.symm, h.2.symm⟩, fun h => ⟨h.1.symm, h.2.symm⟩⟩
    · simp [hd]
  · simp at h

theorem plain_deleteLink (hp : Plain rm) (h : rm.deleteLink name1 name2 domain = (rm', .ok ())) :
    Plain rm' := by
  refine ⟨?_, ?_, ?_, ?_⟩
  · rw [deleteLink] at h
    split at h
    · obtain ⟨rfl, -⟩ := Prod.mk.inj h
      exact hp.role
    · simp at h
  · rw [deleteLink] at h
    split at h
    · obtain ⟨rfl, -⟩ := Prod.mk.inj h
      exact hp.domain
    · simp at h
  · intro d e he
    rw [edges_deleteLink hp h] at he
    split at he
    · exact hp.variant d e (List.mem_of_mem_erase he)
    · exact hp.variant d e he
  · intro d
    rw [edges_deleteLink hp h]
    split
    · exact (hp.nodup d).erase _
    · exact hp.nodup d

theorem maxHierarchyLevel_deleteLink {r : Except Fault Unit}
    (h : rm.deleteLink name1 name2 domain = (rm', r)) :
    rm'.maxHierarchyLevel = rm.maxHierarchyLevel := by
  rw [deleteLink] at h
  split at h
  · obtain ⟨rfl, -⟩ := Prod.mk.inj h
    rfl
  · obtain ⟨rfl, -⟩ := Prod.mk.inj h
    rfl

/-- `delete_link` takes the link out. -/
theorem links_deleteLink (hp : Plain rm) (h : rm.deleteLink name1 name2 domain = (rm', .ok ()))
    (l : String × String × String) :
    l ∈ rm'.links ↔ l ∈ rm.links ∧ l ≠ (domain.getD defaultDomain, name1, name2) := by
  obtain ⟨d, x, y⟩ := l
  rw [mem_links, edges_deleteLink hp h, mem_links]
  by_cases hd : d = domain.getD defaultDomain
  · rw [if_pos hd, (hp.nodup d).mem_erase_iff]
    simp [hd, and_comm]
  · simp [hd]

theorem plain_clear (hr : rm.roleMatchingFn = none) (hd : rm.domainMatchingFn = none) :
    Plain rm.clear :=
  ⟨hr, hd, fun d e he => absurd he (by simp [clear, graph, LinkedMap.get?]),
    fun d => by simp [clear, graph, LinkedMap.get?]⟩

@[simp]
theorem links_clear : rm.clear.links = ∅ := by
  simp [links, clear, graph, LinkedMap.get?]

/-! ### The answers -/

/-- The links of one domain as a relation between roles. -/
def linkRel (links : Set (String × String × String)) (d x y : String) : Prop := (d, x, y) ∈ links

/-- No role has links that make the depth limit depend on their order. -/
def AllSettled (links : Set (String × String × String)) (maxHierarchyLevel : Nat) : Prop :=
  ∀ d a, Settled (linkRel links d) a maxHierarchyLevel

theorem step_bfsIterator (hrole : rm.roleMatchingFn = none) (d : String) :
    Bfs.Step (fun n => bfsIterator (rm.graph d) n rm.roleMatchingFn.isSome) =
      linkRel rm.links d := by
  funext x y
  rw [eq_iff_iff, linkRel, mem_links, Bfs.Step, hrole]
  simp only [bfsIterator, Option.isSome_none, Bool.false_eq_true, if_false, outgoing,
    List.mem_map, List.mem_filter, decide_eq_true_eq]
  constructor
  · rintro ⟨⟨src, tgt, variant⟩, ⟨he, rfl, rfl⟩, rfl⟩
    exact he
  · intro he
    exact ⟨⟨x, y, .link⟩, ⟨he, rfl, rfl⟩, rfl⟩

/-- Only roles of the graph are reached from one of its roles. -/
theorem mem_nodes_of_mem_ball {d a y : String} {k : Nat} (ha : a ∈ nodes (rm.graph d))
    (hy : y ∈ ball (linkRel rm.links d) a k) : y ∈ nodes (rm.graph d) := by
  induction k with
  | zero =>
    obtain rfl : y = a := hy
    exact ha
  | succ k ih =>
    rcases hy with hy | ⟨x, -, hxy⟩
    · exact ih hy
    · exact (edges_mem (rm.graph d) _ hxy).2

/-- A role that is not in the graph of the domain reaches nothing else. -/
theorem eq_of_mem_layer_of_not_mem {d a y : String} {k : Nat} (ha : a ∉ nodes (rm.graph d))
    (hy : y ∈ layer (linkRel rm.links d) a k) : y = a := by
  have hball : ∀ k y, y ∈ ball (linkRel rm.links d) a k → y = a := by
    intro k
    induction k with
    | zero => exact fun y hy => hy
    | succ k ih =>
      rintro y (hy | ⟨x, hx, hxy⟩)
      · exact ih y hy
      · exact absurd (ih x hx ▸ (edges_mem (rm.graph d) _ hxy).1) ha
  exact hball k y (layer_subset_ball k hy)

/-- Without a role matching function the search starts at the role of that name. -/
theorem startRole_of_role_none (hrole : rm.roleMatchingFn = none) (g : G) (a : String) :
    rm.startRole g a = if a ∈ nodes g then some a else none := by
  unfold startRole
  by_cases ha : a ∈ nodes g
  · simp [ha]
  · simp only [ha, if_false, hrole, Option.map_none, Option.getD_none, Bool.or_false]
    rw [List.find?_eq_none]
    intro x hx hxa
    simp only [decide_eq_true_eq] at hxa
    exact ha (hxa ▸ hx)

/-- Without matching functions `has_link` searches the one graph, from the role of that name. -/
theorem hasLink_iff_visited (hp : Plain rm) {a b : String} (hab : a ≠ b) (domain : Option String) :
    rm.hasLink a b domain = true ↔ a ∈ nodes (rm.graph (domain.getD defaultDomain)) ∧
      b ∈ Bfs.visited
        (fun n => bfsIterator (rm.graph (domain.getD defaultDomain)) n rm.roleMatchingFn.isSome)
        rm.maxHierarchyLevel ((nodes (rm.graph (domain.getD defaultDomain))).length + 1)
        (Bfs.start a) := by
  set d := domain.getD defaultDomain with hd
  rw [hasLink, if_neg hab, matchedDomains, hp.domain]
  by_cases hdom : rm.allDomains.contains d
  · have hstart := startRole_of_role_none hp.role (rm.graph d) a
    simp only [← hd, hdom, if_true, List.any_cons, List.any_nil, Bool.or_false, hstart]
    by_cases ha : a ∈ nodes (rm.graph d)
    · simp [ha, hp.role]
    · simp [ha]
  · have hempty : nodes (rm.graph d) = [] := by
      have hnone : rm.allDomains.get? d = none := by
        simpa [LinkedMap.contains] using hdom
      simp [graph, hnone]
    simp [← hd, hdom, hempty]

/-- There is fuel for every role that is reached. -/
theorem length_le_of_reached {d a : String} (ha : a ∈ nodes (rm.graph d)) {l : List String}
    (hnd : l.Nodup) (hl : ∀ y ∈ l, ∃ j, y ∈ ball (linkRel rm.links d) a j) :
    l.length ≤ (nodes (rm.graph d)).length + 1 := by
  have hsub : l ⊆ nodes (rm.graph d) := by
    intro y hy
    obtain ⟨j, hj⟩ := hl y hy
    exact mem_nodes_of_mem_ball ha hj
  exact (hnd.subperm hsub).length_le.trans (Nat.le_succ _)

/-- **The answer of `has_link`.** Without matching functions, and where the depth limit cannot
    depend on the order of the links, the answer is a property of the set of links. -/
theorem hasLink_iff (hp : Plain rm) (hset : AllSettled rm.links rm.maxHierarchyLevel)
    (a b : String) (domain : Option String) :
    rm.hasLink a b domain = true ↔
      a = b ∨ ∃ k, b ∈ layer (linkRel rm.links (domain.getD defaultDomain)) a k ∧
        narrowCount (linkRel rm.links (domain.getD defaultDomain)) a k < rm.maxHierarchyLevel := by
  by_cases hab : a = b
  · simp [hasLink, hab]
  rw [hasLink_iff_visited hp hab]
  generalize domain.getD defaultDomain = d
  have hstep := step_bfsIterator hp.role d
  by_cases ha : a ∈ nodes (rm.graph d)
  · simp [Bfs.mem_visited_iff
      (by rw [hstep]; exact fun l hnd hl => length_le_of_reached ha hnd hl)
      (by rw [hstep]; exact hset d a), hstep, ha, hab]
  · constructor
    · exact fun h => absurd h.1 ha
    · rintro (h | ⟨k, hk, -⟩)
      · exact absurd h hab
      · exact absurd (eq_of_mem_layer_of_not_mem ha hk).symm hab

/-- Managers with the same links and the same limit give the same answers. -/
theorem hasLink_congr (hp : Plain rm) (hp' : Plain rm') (hlinks : rm.links = rm'.links)
    (hlevel : rm.maxHierarchyLevel = rm'.maxHierarchyLevel)
    (hset : AllSettled rm.links rm.maxHierarchyLevel) (a b : String) (domain : Option String) :
    rm.hasLink a b domain = rm'.hasLink a b domain := by
  rw [Bool.eq_iff_iff, hasLink_iff hp hset, hasLink_iff hp' (hlinks ▸ hlevel ▸ hset), hlinks,
    hlevel]

end DefaultRoleManager

end TeaclaveCrates.Casbin
