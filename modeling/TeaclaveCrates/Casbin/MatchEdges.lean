import TeaclaveCrates.Casbin.RoleDepth

namespace TeaclaveCrates.Casbin

open Lib RoleGraph

/-!
# Edges of a manager with a role matching function

Links and matches are edges of one graph, and `find_edge` does not tell them apart. A call of
`delete_link` for a link that is not there finds the match edge between the two roles, if there is
one, and removes it.

* `RoleGraph.between` — the edges from one role to another, the latest first.
* `Exact` — what these are, with the matches that were lost.
* `Tracked` — a manager with the links that were added and not deleted since.
* `edgesRight_iff` — the edges are right exactly when no call deleted a match.
-/

variable {G : Type} [RoleGraph G]

/-! ### The edges between two roles -/

namespace RoleGraph

variable {g : G} {f : String → String → Bool} {u v x y : String}

/-- The edges from one role to another, the latest first. -/
def between (g : G) (u v : String) : List EdgeVariant :=
  ((edges g).filter fun e => e.src = u ∧ e.tgt = v).map Edge.variant

theorem between_eq_nil (h : ¬(u ∈ nodes g ∧ v ∈ nodes g)) : between g u v = [] := by
  unfold between
  rw [List.map_eq_nil_iff, List.filter_eq_nil_iff]
  intro e he hends
  simp only [decide_eq_true_eq] at hends
  have hmem := edges_mem g e he
  rw [hends.1, hends.2] at hmem
  exact h hmem

theorem between_addEdge {variant : EdgeVariant} (h : x ∈ nodes g ∧ y ∈ nodes g) :
    between (addEdge g ⟨x, y, variant⟩) u v =
      if u = x ∧ v = y then variant :: between g u v else between g u v := by
  unfold between
  rw [edges_addEdge h.1 h.2]
  simp only [List.filter_cons, decide_eq_true_eq]
  by_cases heq : u = x ∧ v = y
  · rw [if_pos heq, if_pos ⟨heq.1.symm, heq.2.symm⟩]
    rfl
  · rw [if_neg heq, if_neg fun hh => heq ⟨hh.1.symm, hh.2.symm⟩]

theorem head?_between : (findEdge g x y).map Edge.variant = (between g x y).head? := by
  simp [findEdge_eq, between]

theorem between_removeEdge :
    between (removeEdge g x y) u v =
      if u = x ∧ v = y then (between g u v).tail else between g u v := by
  unfold between
  rw [edges_removeEdge]
  induction edges g with
  | nil => simp
  | cons e es ih =>
    by_cases he : e.src = x ∧ e.tgt = y
    · rw [List.eraseP_cons_of_pos (by simpa using he)]
      by_cases huv : u = x ∧ v = y
      -- the edge that goes is the first one between these roles
      · have hpos : e.src = u ∧ e.tgt = v := ⟨he.1.trans huv.1.symm, he.2.trans huv.2.symm⟩
        rw [if_pos huv, List.filter_cons_of_pos (by simpa using hpos)]
        rfl
      · have hneg : ¬(e.src = u ∧ e.tgt = v) := fun hh =>
          huv ⟨hh.1.symm.trans he.1, hh.2.symm.trans he.2⟩
        rw [if_neg huv, List.filter_cons_of_neg (by simpa using hneg)]
    · rw [List.eraseP_cons_of_neg (by simpa using he)]
      by_cases huv : e.src = u ∧ e.tgt = v
      · have hne : ¬(u = x ∧ v = y) := fun hh => he ⟨huv.1.trans hh.1, huv.2.trans hh.2⟩
        rw [if_neg hne] at ih ⊢
        rw [List.filter_cons_of_pos (by simpa using huv), List.map_cons, ih,
          List.filter_cons_of_pos (by simpa using huv), List.map_cons]
      · rw [List.filter_cons_of_neg (by simpa using huv),
          List.filter_cons_of_neg (by simpa using huv)]
        exact ih

/-! ### A new role -/

/-- The match edge from one role to another. -/
def matchPart (f : String → String → Bool) (u v : String) : List EdgeVariant :=
  if f v u then [.match_] else []

theorem nodes_linkIfMatches : nodes (linkIfMatches g f x y) = nodes g := by
  unfold linkIfMatches
  split
  · split
    · rfl
    · exact nodes_addEdge _ _
  · rfl

/-- Between roles without an edge. -/
theorem between_linkIfMatches (h : x ∈ nodes g ∧ y ∈ nodes g) (hnone : between g x y = []) :
    between (linkIfMatches g f x y) u v =
      if u = x ∧ v = y then matchPart f x y else between g u v := by
  have hfind : findEdge g x y = none := by
    have hhead := head?_between (g := g) (x := x) (y := y)
    rw [hnone] at hhead
    exact Option.map_eq_none_iff.mp hhead
  unfold linkIfMatches matchPart
  by_cases hf : f y x = true
  · rw [if_pos hf, if_pos hf, hfind, between_addEdge h]
    apply if_ctx_congr Iff.rfl
    · rintro ⟨rfl, rfl⟩
      rw [hnone]
    · exact fun _ => rfl
  · rw [if_neg hf, if_neg hf]
    by_cases huv : u = x ∧ v = y
    · simp [huv, hnone]
    · simp [huv]

/-- The loop of `get_or_create_role` over the roles that are there. -/
theorem between_foldl_linkIfMatches {name : String} (l : List String) (hnd : l.Nodup)
    (hname : name ∉ l) (hnode : name ∈ nodes g) (hl : ∀ x ∈ l, x ∈ nodes g)
    (hnone : ∀ x ∈ l, between g name x = [] ∧ between g x name = []) :
    nodes (l.foldl (fun g x => linkIfMatches (linkIfMatches g f name x) f x name) g) = nodes g ∧
      ∀ u v,
        between (l.foldl (fun g x => linkIfMatches (linkIfMatches g f name x) f x name) g) u v =
        if (u = name ∧ v ∈ l) ∨ (v = name ∧ u ∈ l) then matchPart f u v else between g u v := by
  induction l generalizing g with
  | nil => exact ⟨rfl, fun u v => by simp⟩
  | cons x l ih =>
    rw [List.nodup_cons] at hnd
    rw [List.mem_cons, not_or] at hname
    obtain ⟨hto, hfrom⟩ := hnone x List.mem_cons_self
    have hx := hl x List.mem_cons_self
    have hne : name ≠ x := hname.1
    have hnodes : nodes (linkIfMatches (linkIfMatches g f name x) f x name) = nodes g := by
      simp [nodes_linkIfMatches]
    -- the two calls for this role
    have hfrom' : between (linkIfMatches g f name x) x name = [] := by
      rw [between_linkIfMatches ⟨hnode, hx⟩ hto, if_neg fun hh => hne hh.1.symm, hfrom]
    have hstep : ∀ u v, between (linkIfMatches (linkIfMatches g f name x) f x name) u v =
        if u = x ∧ v = name then matchPart f x name
        else if u = name ∧ v = x then matchPart f name x else between g u v := by
      intro u v
      simp [between_linkIfMatches (by rw [nodes_linkIfMatches]; exact ⟨hx, hnode⟩) hfrom',
        between_linkIfMatches ⟨hnode, hx⟩ hto]
    obtain ⟨hnodes', hbetween⟩ := ih hnd.2 hname.2 (by rw [hnodes]; exact hnode)
      (fun z hz => by rw [hnodes]; exact hl z (List.mem_cons_of_mem x hz)) (fun z hz => by
        have hzx : z ≠ x := fun hh => hnd.1 (hh ▸ hz)
        rw [hstep, hstep, if_neg (by tauto), if_neg (by tauto), if_neg (by tauto),
          if_neg (by tauto)]
        exact hnone z (List.mem_cons_of_mem x hz))
    rw [List.foldl_cons]
    refine ⟨hnodes'.trans hnodes, fun u v => ?_⟩
    rw [hbetween, hstep]
    by_cases hlater : (u = name ∧ v ∈ l) ∨ (v = name ∧ u ∈ l)
    · rw [if_pos hlater, if_pos]
      rcases hlater with ⟨hu, hv⟩ | ⟨hv, hu⟩
      · exact Or.inl ⟨hu, List.mem_cons_of_mem x hv⟩
      · exact Or.inr ⟨hv, List.mem_cons_of_mem x hu⟩
    · rw [if_neg hlater]
      by_cases h1 : u = x ∧ v = name
      · rw [if_pos h1, if_pos (Or.inr ⟨h1.2, by rw [h1.1]; exact List.mem_cons_self⟩), h1.1, h1.2]
      · rw [if_neg h1]
        by_cases h2 : u = name ∧ v = x
        · rw [if_pos h2, if_pos (Or.inl ⟨h2.1, by rw [h2.2]; exact List.mem_cons_self⟩), h2.1, h2.2]
        · rw [if_neg h2, if_neg]
          simp only [List.mem_cons]
          tauto

end RoleGraph

/-! ### One graph -/

/-- Between two roles stands the link, if there is one, in front of the match, if there is one and
    it was not lost. -/
structure Exact (f linked lost : String → String → Bool) (g : G) : Prop where
  linked_mem : ∀ u v, linked u v = true → u ∈ nodes g ∧ v ∈ nodes g
  lost_mem : ∀ u v, lost u v = true → u ∈ nodes g ∧ v ∈ nodes g
  between : ∀ u v, u ∈ nodes g → v ∈ nodes g → u ≠ v → between g u v =
    (if linked u v then [.link] else []) ++ (if lost u v then [] else RoleGraph.matchPart f u v)

namespace Exact

variable {f linked lost : String → String → Bool} {g : G}

theorem mem_nodes_createRole (f : String → String → Bool) (name : String) (g : G) :
    ∀ x, x ∈ nodes (DefaultRoleManager.createRole (some f) name g) ↔ x = name ∨ x ∈ nodes g := by
  intro x
  unfold DefaultRoleManager.createRole
  by_cases hname : name ∈ nodes g
  · rw [if_pos hname]
    constructor
    · exact Or.inr
    · rintro (rfl | hx)
      · exact hname
      · exact hx
  · rw [if_neg hname]
    have hnodes : ∀ (l : List String) (g : G),
        nodes (l.foldl (fun g x => linkIfMatches (linkIfMatches g f name x) f x name) g) =
          nodes g := by
      intro l
      induction l with
      | nil => exact fun g => rfl
      | cons y l ih =>
        intro g
        simp [ih, RoleGraph.nodes_linkIfMatches]
    rw [hnodes, nodes_addNode hname, List.mem_append, List.mem_singleton, or_comm]

/-- A new role gets its matches with the roles that are there. -/
theorem createRole (h : Exact f linked lost g) (name : String) :
    Exact f linked lost (DefaultRoleManager.createRole (some f) name g) := by
  have hmem := mem_nodes_createRole f name g
  refine ⟨fun u v huv => ?_, fun u v huv => ?_, fun u v hu hv hne => ?_⟩
  · have := h.linked_mem u v huv
    rw [hmem, hmem]
    exact ⟨Or.inr this.1, Or.inr this.2⟩
  · have := h.lost_mem u v huv
    rw [hmem, hmem]
    exact ⟨Or.inr this.1, Or.inr this.2⟩
  · by_cases hname : name ∈ nodes g
    · rw [DefaultRoleManager.createRole, if_pos hname] at hu hv ⊢
      exact h.between u v hu hv hne
    rw [hmem] at hu hv
    have hedges : ∀ u v, RoleGraph.between (addNode g name) u v = RoleGraph.between g u v := by
      intro u v
      rw [RoleGraph.between, edges_addNode hname, RoleGraph.between]
    have hnode : ∀ x, x ∈ nodes (addNode g name) ↔ x ∈ nodes g ∨ x = name := by
      intro x
      rw [nodes_addNode hname, List.mem_append, List.mem_singleton]
    -- the loop over the roles meets a name without edges
    have hloop := (between_foldl_linkIfMatches (f := f) (g := addNode g name) (nodes g)
      (nodup_nodes g) hname ((hnode name).mpr (Or.inr rfl)) (fun x hx => (hnode x).mpr (Or.inl hx))
      (fun x _ => by
        rw [hedges, hedges]
        exact ⟨between_eq_nil fun hh => hname hh.1, between_eq_nil fun hh => hname hh.2⟩)).2 u v
    rw [DefaultRoleManager.createRole, if_neg hname, hloop, hedges]
    by_cases hnew : (u = name ∧ v ∈ nodes g) ∨ (v = name ∧ u ∈ nodes g)
    · -- nothing was linked or lost with a role that was not there
      have hout : ¬(u ∈ nodes g ∧ v ∈ nodes g) := by
        rintro ⟨hu', hv'⟩
        rcases hnew with ⟨rfl, -⟩ | ⟨rfl, -⟩
        · exact hname hu'
        · exact hname hv'
      have hlinked : ¬linked u v = true := fun hh => hout (h.linked_mem u v hh)
      have hlost : ¬lost u v = true := fun hh => hout (h.lost_mem u v hh)
      simp [hnew, hlinked, hlost]
    · rw [if_neg hnew]
      apply h.between u v _ _ hne
      · rcases hu with rfl | hu
        · rcases hv with rfl | hv
          · exact absurd rfl hne
          · exact absurd (Or.inl ⟨rfl, hv⟩) hnew
        · exact hu
      · rcases hv with rfl | hv
        · rcases hu with rfl | hu
          · exact absurd rfl hne
          · exact absurd (Or.inr ⟨rfl, hu⟩) hnew
        · exact hv

/-- The link that is added stands in front. -/
theorem addEdge (h : Exact f linked lost g) {x y : String} (hx : x ∈ nodes g) (hy : y ∈ nodes g)
    (hlinked : linked x y = false) :
    Exact f (fun u v => linked u v || decide (u = x ∧ v = y)) lost (addEdge g ⟨x, y, .link⟩) := by
  refine ⟨fun u v huv => ?_, fun u v huv => ?_, fun u v hu hv hne => ?_⟩
  · rw [RoleGraph.nodes_addEdge]
    simp only [Bool.or_eq_true, decide_eq_true_eq] at huv
    rcases huv with huv | ⟨rfl, rfl⟩
    · exact h.linked_mem u v huv
    · exact ⟨hx, hy⟩
  · rw [RoleGraph.nodes_addEdge]
    exact h.lost_mem u v huv
  · rw [RoleGraph.nodes_addEdge] at hu hv
    rw [RoleGraph.between_addEdge ⟨hx, hy⟩, h.between u v hu hv hne]
    by_cases huv : u = x ∧ v = y
    · simp [huv, hlinked]
    · simp [huv]

/-- What is lost between a role and itself does not count. -/
theorem congr {linked' lost' : String → String → Bool} (h : Exact f linked lost g)
    (hlinked : ∀ u v, linked' u v = linked u v) (hlost : ∀ u v, lost' u v = true → lost u v = true)
    (hlost' : ∀ u v, u ≠ v → lost u v = true → lost' u v = true) : Exact f linked' lost' g := by
  refine ⟨fun u v huv => ?_, fun u v huv => h.lost_mem u v (hlost u v huv), fun u v hu hv hne => ?_⟩
  · rw [hlinked] at huv
    exact h.linked_mem u v huv
  · have heq : lost' u v = lost u v := by
      rw [Bool.eq_iff_iff]
      exact ⟨hlost u v, hlost' u v hne⟩
    rw [h.between u v hu hv hne, hlinked, heq]

/-- `delete_link` takes the link off, and the match where there is no link. -/
theorem removeEdge (h : Exact f linked lost g) {x y : String} (hx : x ∈ nodes g)
    (hy : y ∈ nodes g) :
    Exact f (fun u v => linked u v && !decide (u = x ∧ v = y))
      (fun u v => lost u v || (decide (u = x ∧ v = y) && !linked x y && f y x))
      (removeEdge g x y) := by
  refine ⟨fun u v huv => ?_, fun u v huv => ?_, fun u v hu hv hne => ?_⟩
  · rw [Bool.and_eq_true] at huv
    rw [nodes_removeEdge]
    exact h.linked_mem u v huv.1
  · simp only [Bool.or_eq_true, Bool.and_eq_true, decide_eq_true_eq] at huv
    rw [nodes_removeEdge]
    rcases huv with huv | ⟨⟨⟨rfl, rfl⟩, -⟩, -⟩
    · exact h.lost_mem u v huv
    · exact ⟨hx, hy⟩
  · rw [nodes_removeEdge] at hu hv
    rw [between_removeEdge, h.between u v hu hv hne]
    by_cases huv : u = x ∧ v = y
    · obtain ⟨rfl, rfl⟩ := huv
      unfold RoleGraph.matchPart
      cases linked u v <;> cases lost u v <;> cases f v u <;> simp
    · simp [huv]

end Exact

/-! ### Any calls -/

/-- A manager with the links that were added and not deleted since. -/
structure Tracked (G : Type) where
  rm : DefaultRoleManager G
  links : List (String × String × String)

namespace Tracked

/-- A manager with matching functions, before the first link. -/
def new (maxHierarchyLevel : Nat) (f : String → String → Bool)
    (domainMatchingFn : Option (String → String → Bool)) : Tracked G where
  rm := { DefaultRoleManager.new maxHierarchyLevel with
    roleMatchingFn := some f
    domainMatchingFn := domainMatchingFn }
  links := []

/-- One call. A link is deleted when `delete_link` succeeds. -/
def step (s : Tracked G) : LinkOp → Tracked G
  | .addLink name1 name2 domain =>
    ⟨s.rm.addLink name1 name2 domain,
      if name1 = name2 then s.links else (domain.getD defaultDomain, name1, name2) :: s.links⟩
  | .deleteLink name1 name2 domain =>
    match s.rm.deleteLink name1 name2 domain with
    | (rm, .ok _) =>
      ⟨rm, s.links.filter fun l => l ≠ (domain.getD defaultDomain, name1, name2)⟩
    | (rm, .error _) => ⟨rm, s.links⟩

/-- One call after the other. -/
def run (s : Tracked G) (ops : List LinkOp) : Tracked G := ops.foldl step s

/-- Between any two roles of a domain there is one match edge or none, as the matching function
    says, and one link edge or none, as the calls say. -/
def EdgesRight (f : String → String → Bool) (s : Tracked G) : Prop :=
  ∀ d u v, u ∈ nodes (s.rm.graph d) → v ∈ nodes (s.rm.graph d) → u ≠ v →
    (between (s.rm.graph d) u v).count .match_ = (if f v u then 1 else 0) ∧
      (between (s.rm.graph d) u v).count .link = if (d, u, v) ∈ s.links then 1 else 0

/-- The call deletes a link that is not there, between two roles that are found and of which the
    second one matches the first. -/
def deletesMatch (f : String → String → Bool) (s : Tracked G) : LinkOp → Bool
  | .addLink _ _ _ => false
  | .deleteLink name1 name2 domain =>
    s.rm.domainHasRole name1 domain && s.rm.domainHasRole name2 domain &&
      decide (name1 ≠ name2) &&
      decide ((domain.getD defaultDomain, name1, name2) ∉ s.links) && f name2 name1

/-- No call deletes a match. -/
def KeepsMatches (f : String → String → Bool) : Tracked G → List LinkOp → Prop
  | _, [] => True
  | s, op :: ops => s.deletesMatch f op = false ∧ KeepsMatches f (s.step op) ops

/-- The matches that a call deletes. -/
def lostBy (f : String → String → Bool) (s : Tracked G) : LinkOp → List (String × String × String)
  | .addLink _ _ _ => []
  | .deleteLink name1 name2 domain =>
    if s.deletesMatch f (.deleteLink name1 name2 domain) then
      [(domain.getD defaultDomain, name1, name2)]
    else []

/-- The invariant, with the matches that were lost so far. -/
structure Inv (f : String → String → Bool) (s : Tracked G)
    (lost : List (String × String × String)) : Prop where
  role : s.rm.roleMatchingFn = some f
  exact : ∀ d, Exact f (fun u v => decide ((d, u, v) ∈ s.links))
    (fun u v => decide ((d, u, v) ∈ lost)) (s.rm.graph d)
  lost_match : ∀ d u v, (d, u, v) ∈ lost → u ≠ v ∧ f v u = true

variable {f : String → String → Bool} {s : Tracked G} {lost : List (String × String × String)}

/-- The edges are right when no match was lost. -/
theorem Inv.right_iff_none_lost (h : Inv f s lost) : EdgesRight f s ↔ lost = [] := by
  constructor
  · intro hright
    rw [List.eq_nil_iff_forall_not_mem]
    rintro ⟨d, u, v⟩ hmem
    obtain ⟨hne, hf⟩ := h.lost_match d u v hmem
    obtain ⟨hu, hv⟩ := (h.exact d).lost_mem u v (decide_eq_true hmem)
    have hcount := (hright d u v hu hv hne).1
    rw [(h.exact d).between u v hu hv hne, if_pos (decide_eq_true hmem), if_pos hf] at hcount
    split at hcount <;> simp at hcount
  · rintro rfl d u v hu hv hne
    have hlost : ¬decide ((d, u, v) ∈ ([] : List (String × String × String))) = true := by simp
    rw [(h.exact d).between u v hu hv hne, if_neg hlost]
    unfold RoleGraph.matchPart
    by_cases hlink : (d, u, v) ∈ s.links <;> cases f v u <;> simp [hlink]

/-- The graphs behind the creation of both roles of a call. -/
theorem Inv.createRoles (h : Inv f s lost) (name1 name2 : String) (domain : Option String)
    (d : String) :
    Exact f (fun u v => decide ((d, u, v) ∈ s.links)) (fun u v => decide ((d, u, v) ∈ lost))
        (((s.rm.getOrCreateRole name1 domain).getOrCreateRole name2 domain).graph d) ∧
      (d = domain.getD defaultDomain →
        name1 ∈ nodes (((s.rm.getOrCreateRole name1 domain).getOrCreateRole name2 domain).graph d) ∧
        name2 ∈
          nodes (((s.rm.getOrCreateRole name1 domain).getOrCreateRole name2 domain).graph d)) := by
  rw [DefaultRoleManager.graph_getOrCreateRoles, h.role]
  by_cases hd : d = domain.getD defaultDomain
  · rw [if_pos hd]
    refine ⟨((h.exact d).createRole name1).createRole name2, fun _ => ?_⟩
    rw [Exact.mem_nodes_createRole, Exact.mem_nodes_createRole, Exact.mem_nodes_createRole]
    exact ⟨Or.inr (Or.inl rfl), Or.inl rfl⟩
  · rw [if_neg hd]
    exact ⟨h.exact d, fun hd' => absurd hd' hd⟩

theorem Inv.addLink (h : Inv f s lost) (name1 name2 : String) (domain : Option String) :
    Inv f (s.step (.addLink name1 name2 domain)) lost := by
  show Inv f ⟨s.rm.addLink name1 name2 domain, if name1 = name2 then s.links
    else (domain.getD defaultDomain, name1, name2) :: s.links⟩ lost
  by_cases hne : name1 = name2
  · rw [DefaultRoleManager.addLink, if_pos hne, if_pos hne]
    exact h
  rw [DefaultRoleManager.addLink, if_neg hne, if_neg hne]
  refine ⟨h.role, fun d => ?_, h.lost_match⟩
  obtain ⟨hexact, hnodes⟩ := h.createRoles name1 name2 domain d
  rw [DefaultRoleManager.graph_modifyGraph]
  generalize ((s.rm.getOrCreateRole name1 domain).getOrCreateRole name2 domain).graph d = g
    at hexact hnodes ⊢
  by_cases hd : d = domain.getD defaultDomain
  · rw [if_pos hd]
    obtain ⟨h1, h2⟩ := hnodes hd
    have hbetween := hexact.between name1 name2 h1 h2 hne
    have hhead := RoleGraph.head?_between (g := g) (x := name1) (y := name2)
    by_cases hlink : (d, name1, name2) ∈ s.links
    · -- the latest edge is the link
      rw [hbetween, if_pos (decide_eq_true hlink)] at hhead
      obtain ⟨⟨src, tgt, variant⟩, hfind, hvariant⟩ := Option.map_eq_some_iff.mp hhead
      obtain rfl : variant = .link := hvariant
      rw [hfind]
      refine hexact.congr (fun u v => ?_) (fun _ _ => id) fun _ _ _ => id
      rw [decide_eq_decide, List.mem_cons, or_iff_right_of_imp]
      rintro heq
      rw [heq, ← hd]
      exact hlink
    · have hadded : Exact f
          (fun u v => decide ((d, u, v) ∈ (domain.getD defaultDomain, name1, name2) :: s.links))
          (fun u v => decide ((d, u, v) ∈ lost)) (addEdge g ⟨name1, name2, .link⟩) := by
        refine (hexact.addEdge h1 h2 (by simpa using hlink)).congr (fun u v => ?_)
          (fun _ _ => id) fun _ _ _ => id
        rw [Bool.eq_iff_iff, Bool.or_eq_true, decide_eq_true_eq, decide_eq_true_eq,
          decide_eq_true_eq, List.mem_cons, Prod.mk.injEq, Prod.mk.injEq, or_comm]
        simp [hd]
      rw [hbetween, if_neg (by simpa using hlink), List.nil_append] at hhead
      cases hfind : findEdge g name1 name2 with
      | none => exact hadded
      | some e =>
        obtain ⟨src, tgt, variant⟩ := e
        cases variant with
        | match_ => exact hadded
        | link =>
          -- there is no link to be the latest edge
          rw [hfind] at hhead
          unfold RoleGraph.matchPart at hhead
          split at hhead
          · simp at hhead
          · split at hhead <;> simp at hhead
  · rw [if_neg hd]
    refine hexact.congr (fun u v => ?_) (fun _ _ => id) fun _ _ _ => id
    rw [decide_eq_decide, List.mem_cons, or_iff_right_of_imp]
    intro heq
    exact absurd (congrArg Prod.fst heq) hd

/-- What `delete_link` does when it finds both roles, and when it does not. -/
theorem step_deleteLink (s : Tracked G) (name1 name2 : String) (domain : Option String) :
    s.step (.deleteLink name1 name2 domain) =
      if s.rm.domainHasRole name1 domain && s.rm.domainHasRole name2 domain then
        ⟨((s.rm.getOrCreateRole name1 domain).getOrCreateRole name2 domain).modifyGraph domain
            fun g => removeEdge g name1 name2,
          s.links.filter fun l => l ≠ (domain.getD defaultDomain, name1, name2)⟩
      else s := by
  simp only [step, DefaultRoleManager.deleteLink]
  by_cases hok : (s.rm.domainHasRole name1 domain && s.rm.domainHasRole name2 domain) = true
  · simp [hok]
  · simp [hok]

theorem mem_lostBy {name1 name2 : String} {domain : Option String} {l : String × String × String} :
    l ∈ s.lostBy f (.deleteLink name1 name2 domain) ↔
      l = (domain.getD defaultDomain, name1, name2) ∧
        (s.rm.domainHasRole name1 domain && s.rm.domainHasRole name2 domain) = true ∧
        name1 ≠ name2 ∧ (domain.getD defaultDomain, name1, name2) ∉ s.links ∧
        f name2 name1 = true := by
  have hdeletes : s.deletesMatch f (.deleteLink name1 name2 domain) = true ↔
      (s.rm.domainHasRole name1 domain && s.rm.domainHasRole name2 domain) = true ∧
        name1 ≠ name2 ∧ (domain.getD defaultDomain, name1, name2) ∉ s.links ∧
        f name2 name1 = true := by
    simp only [deletesMatch, Bool.and_eq_true, decide_eq_true_eq]
    tauto
  rw [← hdeletes, lostBy]
  by_cases h : s.deletesMatch f (.deleteLink name1 name2 domain) = true
  · simp [h]
  · rw [if_neg h]
    exact ⟨fun hl => absurd hl List.not_mem_nil, fun hl => absurd hl.2 h⟩

theorem Inv.deleteLink (h : Inv f s lost) (name1 name2 : String) (domain : Option String) :
    Inv f (s.step (.deleteLink name1 name2 domain))
      (lost ++ s.lostBy f (.deleteLink name1 name2 domain)) := by
  have hlost : ∀ d u v, (d, u, v) ∈ lost ++ s.lostBy f (.deleteLink name1 name2 domain) ↔
      (d, u, v) ∈ lost ∨ _ := fun d u v => List.mem_append.trans (or_congr_right mem_lostBy)
  -- a match that gets lost was one
  have hmatch : ∀ d u v, (d, u, v) ∈ lost ++ s.lostBy f (.deleteLink name1 name2 domain) →
      u ≠ v ∧ f v u = true := by
    intro d u v hmem
    rcases (hlost d u v).mp hmem with hmem | ⟨heq, -, hne, -, hf⟩
    · exact h.lost_match d u v hmem
    · simp only [Prod.mk.injEq] at heq
      rw [heq.2.1, heq.2.2]
      exact ⟨hne, hf⟩
  rw [step_deleteLink]
  by_cases hok : (s.rm.domainHasRole name1 domain && s.rm.domainHasRole name2 domain) = true
  · rw [if_pos hok]
    refine ⟨h.role, fun d => ?_, hmatch⟩
    obtain ⟨hexact, hnodes⟩ := h.createRoles name1 name2 domain d
    rw [DefaultRoleManager.graph_modifyGraph]
    by_cases hd : d = domain.getD defaultDomain
    · rw [if_pos hd]
      obtain ⟨h1, h2⟩ := hnodes hd
      -- the first edge goes: the link if there is one, and else the match
      refine (hexact.removeEdge h1 h2).congr (fun u v => ?_) (fun u v hmem => ?_)
        fun u v hne hmem => ?_
      · simp [hd]
      · simp only [decide_eq_true_eq, hlost, Prod.mk.injEq] at hmem
        simp only [Bool.or_eq_true, Bool.and_eq_true, decide_eq_true_eq, Bool.not_eq_true',
          decide_eq_false_iff_not]
        rcases hmem with hmem | ⟨⟨-, hu, hv⟩, -, -, hlink, hf⟩
        · exact Or.inl hmem
        · exact Or.inr ⟨⟨⟨hu, hv⟩, hd ▸ hlink⟩, hf⟩
      · simp only [Bool.or_eq_true, Bool.and_eq_true, decide_eq_true_eq, Bool.not_eq_true',
          decide_eq_false_iff_not] at hmem
        simp only [decide_eq_true_eq, hlost, Prod.mk.injEq]
        rcases hmem with hmem | ⟨⟨⟨hu, hv⟩, hlink⟩, hf⟩
        · exact Or.inl hmem
        · exact Or.inr ⟨⟨hd, hu, hv⟩, hok, hu ▸ hv ▸ hne, hd ▸ hlink, hf⟩
    · rw [if_neg hd]
      refine hexact.congr (fun u v => ?_) (fun u v hmem => ?_) fun u v _ hmem => ?_
      · simp [hd]
      · simp only [decide_eq_true_eq, hlost, Prod.mk.injEq] at hmem
        rcases hmem with hmem | ⟨⟨hd', -⟩, -⟩
        · exact decide_eq_true hmem
        · exact absurd hd' hd
      · rw [decide_eq_true_eq] at hmem ⊢
        exact (hlost d u v).mpr (Or.inl hmem)
  · rw [if_neg hok]
    have hnone : s.lostBy f (.deleteLink name1 name2 domain) = [] := by
      rw [List.eq_nil_iff_forall_not_mem]
      exact fun l hl => hok (mem_lostBy.mp hl).2.1
    rw [hnone, List.append_nil]
    exact h

theorem Inv.step (h : Inv f s lost) (op : LinkOp) : Inv f (s.step op) (lost ++ s.lostBy f op) := by
  cases op with
  | addLink name1 name2 domain =>
    rw [lostBy, List.append_nil]
    exact h.addLink name1 name2 domain
  | deleteLink name1 name2 domain => exact h.deleteLink name1 name2 domain

theorem lostBy_eq_nil_iff (op : LinkOp) : s.lostBy f op = [] ↔ s.deletesMatch f op = false := by
  cases op with
  | addLink name1 name2 domain => exact ⟨fun _ => rfl, fun _ => rfl⟩
  | deleteLink name1 name2 domain =>
    rw [lostBy]
    cases s.deletesMatch f (.deleteLink name1 name2 domain) <;> simp

/-- A whole run: what is lost in it besides what was lost before. -/
theorem Inv.run (h : Inv f s lost) (ops : List LinkOp) :
    ∃ more, Inv f (s.run ops) (lost ++ more) ∧ (more = [] ↔ s.KeepsMatches f ops) := by
  induction ops generalizing s lost with
  | nil => exact ⟨[], by rw [List.append_nil]; exact h, fun _ => trivial, fun _ => rfl⟩
  | cons op ops ih =>
    obtain ⟨more, hinv, hmore⟩ := ih (h.step op)
    refine ⟨s.lostBy f op ++ more, by rw [← List.append_assoc]; exact hinv, ?_⟩
    rw [List.append_eq_nil_iff, lostBy_eq_nil_iff, hmore]
    rfl

theorem inv_new (maxHierarchyLevel : Nat) (f : String → String → Bool)
    (domainMatchingFn : Option (String → String → Bool)) :
    Inv f (new (G := G) maxHierarchyLevel f domainMatchingFn) [] := by
  refine ⟨rfl, fun d => ⟨?_, ?_, ?_⟩, fun d u v hmem => absurd hmem List.not_mem_nil⟩
  · intro u v huv
    exact absurd (of_decide_eq_true huv) List.not_mem_nil
  · intro u v huv
    exact absurd (of_decide_eq_true huv) List.not_mem_nil
  · intro u v hu
    have hno : u ∈ nodes (empty : G) := hu
    simp at hno

/-- **Match edges.** Behind any calls on a manager with a role matching function, each pair of roles
    has the match edge and the link edge that it should have and no other, exactly when none of the
    calls was a `delete_link` that found both roles, but no link between them, while the second one
    matches the first. -/
theorem edgesRight_iff (maxHierarchyLevel : Nat) (f : String → String → Bool)
    (domainMatchingFn : Option (String → String → Bool)) (ops : List LinkOp) :
    ((new (G := G) maxHierarchyLevel f domainMatchingFn).run ops).EdgesRight f ↔
      (new (G := G) maxHierarchyLevel f domainMatchingFn).KeepsMatches f ops := by
  obtain ⟨lost, hinv, hlost⟩ := (inv_new (G := G) maxHierarchyLevel f domainMatchingFn).run ops
  rw [hinv.right_iff_none_lost, List.nil_append, hlost]

/-- The pattern `*` matches every role, and a link from `alice` to it that was never added is
    deleted: the match edge is gone. -/
theorem match_deleted :
    ¬((new (G := Graph) 10 (fun pattern _ => pattern == "*") none).run
      [.addLink "alice" "admin" none, .deleteLink "alice" "*" none]).EdgesRight
        (fun pattern _ => pattern == "*") := by
  intro h
  have hcount := (h defaultDomain "alice" "*" (by decide) (by decide) (by decide)).1
  exact absurd hcount (by decide)

end Tracked

end TeaclaveCrates.Casbin
