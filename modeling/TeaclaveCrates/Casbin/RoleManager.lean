import TeaclaveCrates.Casbin.Model

namespace TeaclaveCrates.Casbin

open Lib

/-!
# The default role manager

`rbac/default_role_manager.rs` keeps one directed graph of roles for each domain. An edge is a
`Link` (a grouping rule) or a `Match` (the role matching function relates two names).

* `RoleGraph` — the graph library: what its graphs show, and what its operations do to that. Nodes
  are identified with their names.
* `Graph` — the graphs as the lists of their roles and edges.
* `DefaultRoleManager` — `addLink`, `deleteLink`, `clear`, `hasLink`.
* `Bfs` — the depth-limited breadth-first search behind `hasLink`.
-/

/-! ### Graphs -/

inductive EdgeVariant where
  | link
  | match_
  deriving DecidableEq, Repr

structure Edge where
  src : String
  tgt : String
  variant : EdgeVariant
  deriving DecidableEq, Repr

/-- `petgraph::StableDiGraph`. A graph shows its roles, in index order, and its edges, the most
    recent first, which is the order in which those of a role are walked. -/
class RoleGraph (G : Type) where
  empty : G
  nodes : G → List String
  edges : G → List Edge
  addNode : G → String → G
  findEdge : G → String → String → Option Edge
  addEdge : G → Edge → G
  /-- Remove the edge that `findEdge` returns, if it returns one. -/
  removeEdge : G → String → String → G
  nodup_nodes : ∀ g, (nodes g).Nodup
  edges_mem : ∀ g, ∀ e ∈ edges g, e.src ∈ nodes g ∧ e.tgt ∈ nodes g
  nodes_empty : nodes empty = []
  nodes_addNode : ∀ {g name}, name ∉ nodes g → nodes (addNode g name) = nodes g ++ [name]
  edges_addNode : ∀ {g name}, name ∉ nodes g → edges (addNode g name) = edges g
  findEdge_eq : ∀ g src tgt,
    findEdge g src tgt = (edges g).find? fun e => e.src = src ∧ e.tgt = tgt
  nodes_addEdge : ∀ g e, nodes (addEdge g e) = nodes g
  edges_addEdge : ∀ {g src tgt variant}, src ∈ nodes g → tgt ∈ nodes g →
    edges (addEdge g ⟨src, tgt, variant⟩) = ⟨src, tgt, variant⟩ :: edges g
  nodes_removeEdge : ∀ g src tgt, nodes (removeEdge g src tgt) = nodes g
  edges_removeEdge : ∀ g src tgt,
    edges (removeEdge g src tgt) = (edges g).eraseP fun e => e.src = src ∧ e.tgt = tgt
  removeEdge_of_none : ∀ {g src tgt}, findEdge g src tgt = none → removeEdge g src tgt = g

variable {G : Type} [RoleGraph G]

attribute [simp] RoleGraph.nodes_empty

namespace RoleGraph

@[simp]
theorem edges_empty : edges (empty : G) = [] := by
  rw [List.eq_nil_iff_forall_not_mem]
  intro e he
  simpa using (edges_mem _ e he).1

/-- The targets of the outgoing edges of a node with the given variant. -/
def outgoing (g : G) (v : EdgeVariant) (node : String) : List String :=
  ((edges g).filter fun e => e.src = node ∧ e.variant = v).map Edge.tgt

/-- The sources of the incoming edges of a node with the given variant. -/
def incoming (g : G) (v : EdgeVariant) (node : String) : List String :=
  ((edges g).filter fun e => e.tgt = node ∧ e.variant = v).map Edge.src

/-- Link `notPattern` to `maybePattern` when the pattern matches it and the latest edge between
    them is not a match edge yet. -/
def linkIfMatches (g : G) (roleMatchingFn : String → String → Bool)
    (notPattern maybePattern : String) : G :=
  if roleMatchingFn maybePattern notPattern then
    match findEdge g notPattern maybePattern with
    | some ⟨_, _, .match_⟩ => g
    | _ => addEdge g ⟨notPattern, maybePattern, .match_⟩
  else g

/-- The neighbours that the search goes on to: link targets and, with pattern matching, what these
    match and the link targets of what is matched by the node. -/
def bfsIterator (g : G) (node : String) (withMatches : Bool) : List String :=
  if withMatches then
    outgoing g .link node ++ (outgoing g .link node).flatMap (outgoing g .match_) ++
      (incoming g .match_ node).flatMap (outgoing g .link)
  else outgoing g .link node

end RoleGraph

/-! ### The search -/

/-- The state of the search. `depthElementsRemaining` counts the queued nodes, and the depth goes
    up when it drops to zero. -/
structure Bfs where
  queue : List String
  discovered : List String
  depth : Nat
  depthElementsRemaining : Nat

namespace Bfs

/-- `Bfs::new` -/
def start (node : String) : Bfs := ⟨[node], [node], 0, 1⟩

/-- `discovered.visit(succ)`, and the push when it is new. -/
def visit (b : Bfs) (succ : String) : Bfs :=
  if succ ∈ b.discovered then b
  else
    { b with
      queue := b.queue ++ [succ]
      discovered := succ :: b.discovered
      depthElementsRemaining := b.depthElementsRemaining + 1 }

def updateDepth (b : Bfs) : Bfs :=
  let remaining := b.depthElementsRemaining - 1
  { b with
    depthElementsRemaining := remaining
    depth := if remaining = 0 then b.depth + 1 else b.depth }

/-- The next node of the search. The counter of new nodes is added at the end of the loop in the
    source, which nothing in between reads. -/
def next (succs : String → List String) (maxDepth : Nat) (b : Bfs) : Option (String × Bfs) :=
  if maxDepth ≤ b.depth then none
  else
    match b.queue with
    | [] => none
    | node :: rest =>
      some (node, (succs node).foldl visit (updateDepth { b with queue := rest }))

/-- All nodes that `next` returns one after the other. -/
def visited (succs : String → List String) (maxDepth : Nat) : Nat → Bfs → List String
  | 0, _ => []
  | fuel + 1, b =>
    match b.next succs maxDepth with
    | none => []
    | some (node, b') => node :: visited succs maxDepth fuel b'

end Bfs

/-! ### The manager -/

def defaultDomain : String := "DEFAULT"

structure DefaultRoleManager (G : Type) where
  allDomains : LinkedMap String G
  maxHierarchyLevel : Nat
  roleMatchingFn : Option (String → String → Bool)
  domainMatchingFn : Option (String → String → Bool)

namespace DefaultRoleManager

open RoleGraph

/-- `DefaultRoleManager::new` -/
def new (maxHierarchyLevel : Nat) : DefaultRoleManager G :=
  ⟨⟨[], List.nodup_nil⟩, maxHierarchyLevel, none, none⟩

def clear (rm : DefaultRoleManager G) : DefaultRoleManager G :=
  { rm with allDomains := ⟨[], List.nodup_nil⟩ }

/-- Change the graph of a domain, creating it first when there is none. -/
def modifyGraph (rm : DefaultRoleManager G) (domain : Option String) (f : G → G) :
    DefaultRoleManager G :=
  { rm with allDomains := rm.allDomains.upsert (domain.getD defaultDomain) empty f }

/-- The graph with the role, linked to all roles it matches or is matched by when it is new. -/
def createRole (roleMatchingFn : Option (String → String → Bool)) (name : String)
    (g : G) : G :=
  if name ∈ nodes g then g
  else
    match roleMatchingFn with
    | none => addNode g name
    | some f =>
      (nodes g).foldl
        (fun g existing => linkIfMatches (linkIfMatches g f name existing) f existing name)
        (addNode g name)

def getOrCreateRole (rm : DefaultRoleManager G) (name : String) (domain : Option String) :
    DefaultRoleManager G :=
  rm.modifyGraph domain (createRole rm.roleMatchingFn name)

/-- The domains that a query looks at. The order of a hash map's keys is not fixed; every use
    below only asks whether some domain satisfies something. -/
def matchedDomains (rm : DefaultRoleManager G) (domain : Option String) : List String :=
  let domain := domain.getD defaultDomain
  match rm.domainMatchingFn with
  | some f => (rm.allDomains.entries.map Prod.fst).filter (f domain)
  | none => if rm.allDomains.contains domain then [domain] else []

/-- The graph of a domain. -/
def graph (rm : DefaultRoleManager G) (domain : String) : G :=
  (rm.allDomains.get? domain).getD empty

def domainHasRole (rm : DefaultRoleManager G) (name : String) (domain : Option String) : Bool :=
  (rm.matchedDomains domain).any fun d =>
    decide (name ∈ nodes (rm.graph d)) ||
      match rm.roleMatchingFn with
      | some f => (nodes (rm.graph d)).any (f name)
      | none => false

def addLink (rm : DefaultRoleManager G) (name1 name2 : String) (domain : Option String) :
    DefaultRoleManager G :=
  if name1 = name2 then rm
  else
    ((rm.getOrCreateRole name1 domain).getOrCreateRole name2 domain).modifyGraph domain fun g =>
      match findEdge g name1 name2 with
      | some ⟨_, _, .link⟩ => g
      | _ => addEdge g ⟨name1, name2, .link⟩

def deleteLink (rm : DefaultRoleManager G) (name1 name2 : String) (domain : Option String) :
    DefaultRoleManager G × Except Fault Unit :=
  if rm.domainHasRole name1 domain && rm.domainHasRole name2 domain then
    (((rm.getOrCreateRole name1 domain).getOrCreateRole name2 domain).modifyGraph domain fun g =>
      removeEdge g name1 name2, .ok ())
  else (rm, .error (.err (.rbacNotFound (name1 ++ " OR " ++ name2))))

/-- The node at which the search in one domain starts. -/
def startRole (rm : DefaultRoleManager G) (g : G) (name : String) : Option String :=
  if name ∈ nodes g then some name
  else
    (nodes g).find? fun role =>
      decide (role = name) || (rm.roleMatchingFn.map fun f => f name role).getD false

/-- `has_link` without its answer cache. Every node is returned at most once, so the number of
    nodes bounds the rounds of the loop. -/
def hasLink (rm : DefaultRoleManager G) (name1 name2 : String) (domain : Option String) : Bool :=
  if name1 = name2 then true
  else
    (rm.matchedDomains domain).any fun d =>
      let g := rm.graph d
      match rm.startRole g name1 with
      | none => false
      | some role1 =>
        (Bfs.visited (fun n => bfsIterator g n rm.roleMatchingFn.isSome) rm.maxHierarchyLevel
          ((nodes g).length + 1) (Bfs.start role1)).any fun role =>
            decide (role = name2) || (rm.roleMatchingFn.map fun f => f role name2).getD false

end DefaultRoleManager

/-! ### The graph library -/

/-- A graph: its roles and, most recent first, its edges between them. -/
structure Graph where
  nodes : List String
  edges : List Edge
  nodup : nodes.Nodup
  edges_mem : ∀ e ∈ edges, e.src ∈ nodes ∧ e.tgt ∈ nodes

namespace Graph

def empty : Graph := ⟨[], [], List.nodup_nil, by simp⟩

def addNode (g : Graph) (name : String) : Graph :=
  if h : name ∈ g.nodes then g
  else
    { g with
      nodes := g.nodes ++ [name]
      nodup := by
        rw [List.nodup_append]
        refine ⟨g.nodup, List.nodup_singleton name, ?_⟩
        intro x hx y hy hxy
        rw [List.mem_singleton] at hy
        exact h (hy ▸ hxy ▸ hx)
      edges_mem := by
        intro e he
        have := g.edges_mem e he
        simp [this.1, this.2] }

/-- Add an edge between two existing nodes. -/
def addEdge (g : Graph) (e : Edge) : Graph :=
  if h : e.src ∈ g.nodes ∧ e.tgt ∈ g.nodes then
    { g with
      edges := e :: g.edges
      edges_mem := by
        intro e' he'
        rcases List.mem_cons.mp he' with rfl | he'
        · exact h
        · exact g.edges_mem e' he' }
  else g

def removeEdge (g : Graph) (src tgt : String) : Graph where
  nodes := g.nodes
  edges := g.edges.eraseP fun e => e.src = src ∧ e.tgt = tgt
  nodup := g.nodup
  edges_mem := fun e he => g.edges_mem e (List.mem_of_mem_eraseP he)

instance : RoleGraph Graph where
  empty := empty
  nodes := nodes
  edges := edges
  addNode := addNode
  findEdge g src tgt := g.edges.find? fun e => e.src = src ∧ e.tgt = tgt
  addEdge := addEdge
  removeEdge := removeEdge
  nodup_nodes := nodup
  edges_mem := edges_mem
  nodes_empty := rfl
  nodes_addNode h := by rw [addNode, dif_neg h]
  edges_addNode h := by rw [addNode, dif_neg h]
  findEdge_eq _ _ _ := rfl
  nodes_addEdge g e := by
    unfold addEdge
    split <;> rfl
  edges_addEdge hsrc htgt := by rw [addEdge, dif_pos ⟨hsrc, htgt⟩]
  nodes_removeEdge _ _ _ := rfl
  edges_removeEdge _ _ _ := rfl
  removeEdge_of_none {g src tgt} h := by
    have hedges : g.edges.eraseP (fun e => e.src = src ∧ e.tgt = tgt) = g.edges :=
      List.eraseP_of_forall_not (List.find?_eq_none.mp h)
    cases g
    simp only [removeEdge, Graph.mk.injEq, true_and]
    exact hedges

end Graph

end TeaclaveCrates.Casbin
