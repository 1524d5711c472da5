import TeaclaveCrates.Lib.Sweep
import TeaclaveCrates.Casbin.RoleLinks

namespace TeaclaveCrates.Casbin

open Lib RoleGraph

/-!
# The depth of the search

How far the search goes, in the order in which it discovers the roles. The depth goes up behind a
layer when only the last role of the layer finds something new, since the queue is empty then for a
moment. So the limit counts bottlenecks and not the length of a path.

* `mem_visited_iff_bottlenecks` — a role is visited when fewer than `maxDepth` of the layers in front
  of its own are bottlenecks.
* `LinkOp`, `currentLinks` — calls of `add_link` and `delete_link`, and the links they leave.
* `hasLink_bounded_iff` — when `has_link` tells whether there is a path of at most
  `max_hierarchy_level` links.
-/

variable {G : Type} [RoleGraph G]

namespace Bfs

variable {succs : String → List String} {a : String} {maxDepth : Nat}

/-! ### One layer, in order -/

/-- The loop over the neighbours appends the new ones in order. -/
theorem foldl_visit_eq (l : List String) (b : Bfs) :
    l.foldl visit b =
      ⟨b.queue ++ fresh b.discovered l, (fresh b.discovered l).reverse ++ b.discovered, b.depth,
        b.depthElementsRemaining + (fresh b.discovered l).length⟩ := by
  induction l generalizing b with
  | nil => simp [fresh]
  | cons x xs ih =>
    rw [List.foldl_cons, ih, visit, fresh]
    by_cases hx : x ∈ b.discovered
    · simp [hx]
    · simp [hx, Nat.add_assoc, Nat.add_comm 1]

theorem next_ofQueue {d : Nat} (hd : d < maxDepth) (q : String) (rest discovered : List String) :
    next succs maxDepth (ofQueue (q :: rest) discovered d) =
      some (q, ofQueue (rest ++ fresh discovered (succs q))
        ((fresh discovered (succs q)).reverse ++ discovered)
        (if rest = [] then d + 1 else d)) := by
  unfold next ofQueue
  rw [if_neg (by simpa using hd)]
  simp [foldl_visit_eq, updateDepth]

/-- A layer from its first pop to its last. The depth goes up when nothing new was found before
    the last pop. -/
theorem visited_layer {d : Nat} (hd : d < maxDepth) (todo new discovered : List String)
    (htodo : todo ≠ []) (fuel : Nat) (hfuel : todo.length ≤ fuel) :
    visited succs maxDepth fuel (ofQueue (todo ++ new) discovered d) =
      todo ++ visited succs maxDepth (fuel - todo.length)
        (ofQueue (new ++ fresh discovered (todo.flatMap succs))
          ((fresh discovered (todo.flatMap succs)).reverse ++ discovered)
          (if new ++ fresh discovered (todo.dropLast.flatMap succs) = [] then d + 1 else d)) := by
  induction todo generalizing new discovered fuel with
  | nil => exact absurd rfl htodo
  | cons q todo ih =>
    rw [List.length_cons] at hfuel
    obtain ⟨fuel, rfl⟩ : ∃ n, fuel = n + 1 := ⟨fuel - 1, by omega⟩
    rw [visited, List.cons_append, next_ofQueue hd]
    dsimp only
    rw [List.cons_append, List.length_cons, Nat.add_sub_add_right]
    by_cases hlast : todo = []
    · subst hlast
      simp [fresh]
    · rw [if_neg (by simp [hlast]), List.append_assoc, ih _ _ hlast fuel (by omega),
        List.flatMap_cons, fresh_append, List.dropLast_cons_of_ne_nil hlast, List.flatMap_cons,
        fresh_append]
      simp

/-! ### All layers -/

/-- The roles of the layers in front of the `k`-th. -/
def before (succs : String → List String) (a : String) : Nat → List String
  | 0 => []
  | k + 1 => (sweep succs a k).1.reverse

theorem before_succ (k : Nat) : before succs a (k + 1) = before succs a k ++ (sweep succs a k).2 := by
  cases k with
  | zero => rfl
  | succ k => simp [before, sweep]

/-- Up to a layer that the depth allows, the search goes through the layers in order. -/
theorem visited_before (fuel k : Nat)
    (hfuel : (before succs a k).length ≤ fuel)
    (hlayers : ∀ j < k, (sweep succs a j).2 ≠ [] ∧ bottlenecks succs a j < maxDepth) :
    visited succs maxDepth fuel (start a) =
      before succs a k ++ visited succs maxDepth (fuel - (before succs a k).length)
        (ofQueue (sweep succs a k).2 (sweep succs a k).1 (bottlenecks succs a k)) := by
  induction k with
  | zero => rfl
  | succ k ih =>
    obtain ⟨hne, hd⟩ := hlayers k (Nat.lt_succ_self k)
    rw [before_succ, List.length_append] at hfuel
    have hrun : visited succs maxDepth _ _ = _ := visited_layer hd (sweep succs a k).2 []
      (sweep succs a k).1 hne (fuel - (before succs a k).length) (by omega)
    have hdepth : (if [] ++ fresh (sweep succs a k).1 ((sweep succs a k).2.dropLast.flatMap succs) = []
        then bottlenecks succs a k + 1 else bottlenecks succs a k) = bottlenecks succs a (k + 1) := by
      rw [List.nil_append, bottlenecks_succ]
      apply if_congr _ rfl rfl
      rw [fresh_eq_nil_iff]
      constructor
      · intro h x hx y hy
        exact h y (List.mem_flatMap.mpr ⟨x, hx, hy⟩)
      · intro h y hy
        obtain ⟨x, hx, hxy⟩ := List.mem_flatMap.mp hy
        exact h x hx y hxy
    rw [List.append_nil, hdepth, List.nil_append] at hrun
    rw [ih (by omega) fun j hj => hlayers j (by omega), hrun, before_succ, List.length_append,
      Nat.sub_sub, List.append_assoc]
    rfl

theorem layer_sweep_ne_nil {j k : Nat} (hjk : j ≤ k) {y : String} (hy : y ∈ (sweep succs a k).2) :
    (sweep succs a j).2 ≠ [] := by
  obtain ⟨x, hx⟩ := layer_nonempty_of_le hjk ⟨y, (mem_sweep k y).2.mp hy⟩
  exact List.ne_nil_of_mem ((mem_sweep j x).2.mpr hx)

theorem mem_before_iff {k : Nat} {y : String} :
    y ∈ before succs a k ↔ ∃ j < k, y ∈ (sweep succs a j).2 := by
  induction k with
  | zero => simp [before]
  | succ k ih =>
    rw [before_succ, List.mem_append, ih]
    constructor
    · rintro (⟨j, hj, hy⟩ | hy)
      · exact ⟨j, by omega, hy⟩
      · exact ⟨k, Nat.lt_succ_self k, hy⟩
    · rintro ⟨j, hj, hy⟩
      by_cases hjk : j = k
      · exact Or.inr (hjk ▸ hy)
      · exact Or.inl ⟨j, by omega, hy⟩

section Run

variable {fuel : Nat}
  (hfuel : ∀ l : List String, l.Nodup → (∀ y ∈ l, ∃ j, y ∈ ball (Step succs) a j) →
    l.length ≤ fuel)
include hfuel

theorem length_before_le (k : Nat) : (before succs a k).length ≤ fuel := by
  cases k with
  | zero => exact Nat.zero_le _
  | succ k =>
    rw [before, List.length_reverse]
    exact hfuel _ (nodup_sweep k) fun y hy => ⟨k, (mem_sweep k y).1.mp hy⟩

/-- **The visited nodes, in any order.** A node is visited exactly when fewer than `maxDepth` of the
    layers in front of its own are bottlenecks. -/
theorem mem_visited_iff_bottlenecks (y : String) :
    y ∈ visited succs maxDepth fuel (start a) ↔
      ∃ k, y ∈ (sweep succs a k).2 ∧ bottlenecks succs a k < maxDepth := by
  constructor
  · intro hvisited
    obtain ⟨i, hi⟩ := exists_ball_of_mem_visited fuel (start a)
      (fun z hz => ⟨0, by simpa [start, ball] using hz⟩) y hvisited
    obtain ⟨k, -, hk⟩ := exists_layer_of_mem_ball hi
    have hlayer : y ∈ (sweep succs a k).2 := (mem_sweep k y).2.mpr hk
    refine ⟨k, hlayer, ?_⟩
    by_contra hdepth
    -- the search stops in front of the first layer that is too deep
    have hex : ∃ j, maxDepth ≤ bottlenecks succs a j := ⟨k, by omega⟩
    have hmin : ∀ j < Nat.find hex, bottlenecks succs a j < maxDepth := by
      intro j hj
      have := Nat.find_min hex hj
      omega
    have hle : Nat.find hex ≤ k := Nat.find_min' hex (by omega)
    have hstop : ∀ n, visited succs maxDepth n (ofQueue (sweep succs a (Nat.find hex)).2
        (sweep succs a (Nat.find hex)).1 (bottlenecks succs a (Nat.find hex))) = [] := fun n =>
      visited_of_le n (Nat.find_spec hex)
    rw [visited_before fuel (Nat.find hex) (length_before_le hfuel _) fun j hj =>
        ⟨layer_sweep_ne_nil (by omega) hlayer, hmin j hj⟩, hstop, List.append_nil,
      mem_before_iff] at hvisited
    obtain ⟨j, hj, hyj⟩ := hvisited
    have := le_of_mem_layer_of_mem_ball hk (layer_subset_ball j ((mem_sweep j y).2.mp hyj))
    omega
  · rintro ⟨k, hlayer, hdepth⟩
    rw [visited_before fuel (k + 1) (length_before_le hfuel _) fun j hj =>
      ⟨layer_sweep_ne_nil (by omega) hlayer,
        Nat.lt_of_le_of_lt (bottlenecks_mono (by omega)) hdepth⟩]
    exact List.mem_append_left _ (mem_before_iff.mpr ⟨k, Nat.lt_succ_self k, hlayer⟩)

end Run

end Bfs

/-! ### Calls that change the links -/

/-- A call of `add_link` or `delete_link`. -/
inductive LinkOp
  | addLink (name1 name2 : String) (domain : Option String)
  | deleteLink (name1 name2 : String) (domain : Option String)
  deriving DecidableEq, Repr

/-- The links that the call leaves: no role is linked to itself. -/
def LinkOp.onLinks (links : Set (String × String × String)) :
    LinkOp → Set (String × String × String)
  | .addLink name1 name2 domain =>
    {l | l ∈ links ∨ name1 ≠ name2 ∧ l = (domain.getD defaultDomain, name1, name2)}
  | .deleteLink name1 name2 domain =>
    {l | l ∈ links ∧ l ≠ (domain.getD defaultDomain, name1, name2)}

/-- The links that were added and not deleted since. -/
def currentLinks (ops : List LinkOp) : Set (String × String × String) :=
  ops.foldl LinkOp.onLinks ∅

namespace DefaultRoleManager

/-- The manager behind the call, whether it succeeds or not. -/
def linkOp (rm : DefaultRoleManager G) : LinkOp → DefaultRoleManager G
  | .addLink name1 name2 domain => rm.addLink name1 name2 domain
  | .deleteLink name1 name2 domain => (rm.deleteLink name1 name2 domain).1

/-- One call after the other. -/
def linkOps (rm : DefaultRoleManager G) (ops : List LinkOp) : DefaultRoleManager G :=
  ops.foldl linkOp rm

variable {rm : DefaultRoleManager G}

theorem plain_new (maxHierarchyLevel : Nat) : Plain (new (G := G) maxHierarchyLevel) :=
  show Plain (new maxHierarchyLevel).clear from plain_clear rfl rfl

theorem links_new (maxHierarchyLevel : Nat) : (new (G := G) maxHierarchyLevel).links = ∅ :=
  show (new maxHierarchyLevel).clear.links = ∅ from links_clear

/-- Both roles of a link are found. -/
theorem domainHasRole_of_mem_nodes (hp : Plain rm) {name : String} {domain : Option String}
    (h : name ∈ nodes (rm.graph (domain.getD defaultDomain))) :
    rm.domainHasRole name domain = true := by
  have hdomain := contains_of_mem_nodes h
  simp [domainHasRole, matchedDomains, hp.domain, hdomain, h, decide_true]

theorem linkOp_spec (hp : Plain rm) (op : LinkOp) :
    Plain (rm.linkOp op) ∧ (rm.linkOp op).links = op.onLinks rm.links ∧
      (rm.linkOp op).maxHierarchyLevel = rm.maxHierarchyLevel := by
  cases op with
  | addLink name1 name2 domain =>
    refine ⟨plain_addLink hp, ?_, maxHierarchyLevel_addLink⟩
    ext l
    exact links_addLink hp l
  | deleteLink name1 name2 domain =>
    by_cases hok : (rm.domainHasRole name1 domain && rm.domainHasRole name2 domain) = true
    · have hdelete : rm.deleteLink name1 name2 domain =
          (rm.linkOp (.deleteLink name1 name2 domain), .ok ()) := by
        simp [linkOp, deleteLink, hok]
      refine ⟨plain_deleteLink hp hdelete, ?_, maxHierarchyLevel_deleteLink hdelete⟩
      ext l
      exact links_deleteLink hp hdelete l
    · have hsame : rm.linkOp (.deleteLink name1 name2 domain) = rm := by
        simp [linkOp, deleteLink, hok]
      rw [hsame]
      refine ⟨hp, ?_, rfl⟩
      ext l
      refine ⟨fun hl => ⟨hl, ?_⟩, fun hl => hl.1⟩
      -- the roles of a link that is there would have been found
      rintro rfl
      obtain ⟨h1, h2⟩ := edges_mem (rm.graph _) _ ((mem_links rm _ _ _).mp hl)
      apply hok
      simp [domainHasRole_of_mem_nodes hp h1, domainHasRole_of_mem_nodes hp h2]

theorem linkOps_spec (hp : Plain rm) (ops : List LinkOp) :
    Plain (rm.linkOps ops) ∧ (rm.linkOps ops).links = ops.foldl LinkOp.onLinks rm.links ∧
      (rm.linkOps ops).maxHierarchyLevel = rm.maxHierarchyLevel := by
  induction ops generalizing rm with
  | nil => exact ⟨hp, rfl, rfl⟩
  | cons op ops ih =>
    obtain ⟨hplain, hlinks, hlevel⟩ := linkOp_spec hp op
    obtain ⟨hplain', hlinks', hlevel'⟩ := ih hplain
    exact ⟨hplain', by rw [List.foldl_cons, ← hlinks]; exact hlinks', hlevel'.trans hlevel⟩

/-! ### The limit -/

/-- The successors that the search goes on to, in its order. -/
def linked (rm : DefaultRoleManager G) (d : String) : String → List String :=
  outgoing (rm.graph d) .link

/-- The search in one domain, without a role matching function. -/
theorem mem_visited_linked (hrole : rm.roleMatchingFn = none) {a d : String}
    (ha : a ∈ nodes (rm.graph d)) (b : String) :
    b ∈ Bfs.visited (fun n => bfsIterator (rm.graph d) n rm.roleMatchingFn.isSome)
        rm.maxHierarchyLevel ((nodes (rm.graph d)).length + 1) (Bfs.start a) ↔
      ∃ k, b ∈ layer (linkRel rm.links d) a k ∧
        bottlenecks (rm.linked d) a k < rm.maxHierarchyLevel := by
  have hsuccs : (fun n => bfsIterator (rm.graph d) n rm.roleMatchingFn.isSome) = rm.linked d := by
    rw [hrole]
    rfl
  have hstep : Bfs.Step (rm.linked d) = linkRel rm.links d := hsuccs ▸ step_bfsIterator hrole d
  have hlayer : ∀ k y, y ∈ (sweep (rm.linked d) a k).2 ↔ y ∈ layer (linkRel rm.links d) a k := by
    intro k y
    rw [(mem_sweep k y).2, ← hstep]
    rfl
  simp [hsuccs, Bfs.mem_visited_iff_bottlenecks
    (by rw [hstep]; exact fun l hnd hl => length_le_of_reached ha hnd hl), hlayer]

/-- `has_link`, for every order of the links. -/
theorem hasLink_iff_bottlenecks (hp : Plain rm) {a b : String} (hab : a ≠ b)
    (domain : Option String) :
    rm.hasLink a b domain = true ↔
      ∃ k, b ∈ layer (linkRel rm.links (domain.getD defaultDomain)) a k ∧
        bottlenecks (rm.linked (domain.getD defaultDomain)) a k < rm.maxHierarchyLevel := by
  rw [hasLink_iff_visited hp hab]
  generalize domain.getD defaultDomain = d
  by_cases ha : a ∈ nodes (rm.graph d)
  · rw [mem_visited_linked hp.role ha, and_iff_right ha]
  · constructor
    · exact fun h => absurd h.1 ha
    · rintro ⟨k, hk, -⟩
      exact absurd (eq_of_mem_layer_of_not_mem ha hk).symm hab

/-- The limit is right for a role at distance `k`: it is nearer than the limit; or as far, with a
    layer in front of it that is no bottleneck; or farther, with as many bottlenecks in front of it
    as the limit. -/
def LimitFits (succs : String → List String) (a : String) (k limit : Nat) : Prop :=
  k < limit ∨ (k = limit ∧ ∃ j < k, ¬Bottleneck succs a j) ∨
    (limit < k ∧ limit ≤ bottlenecks succs a k)

theorem limitFits_iff {succs : String → List String} {a : String} {k limit : Nat} :
    LimitFits succs a k limit ↔ (bottlenecks succs a k < limit ↔ k ≤ limit) := by
  have hle : bottlenecks succs a k ≤ k := bottlenecks_le k
  have hall : bottlenecks succs a k = k ↔ ∀ j < k, Bottleneck succs a j := Nat.count_iff_forall
  unfold LimitFits
  rcases Nat.lt_trichotomy k limit with hlt | heq | hgt
  · omega
  · have hsome : (∃ j < k, ¬Bottleneck succs a j) ↔ bottlenecks succs a k ≠ k := by
      rw [Ne, hall]
      push Not
      rfl
    rw [hsome]
    omega
  · omega

variable {R : String → String → Prop}

/-- A path of at most `limit` links leads to the roles at distance `limit` or nearer. -/
theorem walk_iff_layer {a b : String} (hab : a ≠ b) {limit : Nat} :
    (∃ n, 1 ≤ n ∧ n ≤ limit ∧ Walk R n a b) ↔ ∃ k, b ∈ layer R a k ∧ k ≤ limit := by
  constructor
  · rintro ⟨n, -, hn, hwalk⟩
    obtain ⟨k, hk, hlayer⟩ := exists_layer_of_mem_ball ((mem_ball_iff_walk n b).mpr ⟨n, le_rfl,
      hwalk⟩)
    exact ⟨k, hlayer, by omega⟩
  · rintro ⟨k, hlayer, hk⟩
    obtain ⟨n, hn, hwalk⟩ := (mem_ball_iff_walk k b).mp (layer_subset_ball k hlayer)
    refine ⟨n, ?_, by omega, hwalk⟩
    by_contra hzero
    obtain rfl : n = 0 := by omega
    exact hab hwalk

theorem layer_unique {a b : String} {j k : Nat} (hk : b ∈ layer R a k) (hj : b ∈ layer R a j) :
    k = j :=
  le_antisymm (le_of_mem_layer_of_mem_ball hk (layer_subset_ball j hj))
    (le_of_mem_layer_of_mem_ball hj (layer_subset_ball k hk))

/-- **Bounded reachability.** Behind any calls of `add_link` and `delete_link`, `has_link` tells
    whether the roles are the same or a path of at most `max_hierarchy_level` links leads from the
    one to the other, exactly when the roles are the same, the second one is not reached at all, or
    the limit is right for its distance. -/
theorem hasLink_bounded_iff (maxHierarchyLevel : Nat) (ops : List LinkOp) (a b : String)
    (domain : Option String) :
    (((new (G := G) maxHierarchyLevel).linkOps ops).hasLink a b domain = true ↔
        a = b ∨ ∃ n, 1 ≤ n ∧ n ≤ maxHierarchyLevel ∧
          Walk (linkRel (currentLinks ops) (domain.getD defaultDomain)) n a b) ↔
      (a = b ∨ ∀ k, b ∈ layer (linkRel (currentLinks ops) (domain.getD defaultDomain)) a k →
        LimitFits
          (((new (G := G) maxHierarchyLevel).linkOps ops).linked (domain.getD defaultDomain))
          a k maxHierarchyLevel) := by
  by_cases hab : a = b
  · simp [hab, hasLink]
  obtain ⟨hp, hlinks, hlevel⟩ := linkOps_spec (plain_new (G := G) maxHierarchyLevel) ops
  have hcurrent : ((new (G := G) maxHierarchyLevel).linkOps ops).links = currentLinks ops := by
    rw [hlinks, links_new]
    rfl
  rw [hasLink_iff_bottlenecks hp hab, hcurrent, hlevel]
  simp only [hab, false_or]
  generalize linkRel (currentLinks ops) (domain.getD defaultDomain) = R
  generalize
    ((new (G := G) maxHierarchyLevel).linkOps ops).linked (domain.getD defaultDomain) = succs
  rw [show (new (G := G) maxHierarchyLevel).maxHierarchyLevel = maxHierarchyLevel from rfl,
    walk_iff_layer hab]
  by_cases hreach : ∃ k, b ∈ layer R a k
  · obtain ⟨k, hk⟩ := hreach
    have hunique : ∀ P : Nat → Prop, (∃ j, b ∈ layer R a j ∧ P j) ↔ P k := by
      intro P
      constructor
      · rintro ⟨j, hj, hP⟩
        exact layer_unique hk hj ▸ hP
      · exact fun hP => ⟨k, hk, hP⟩
    rw [hunique, hunique, ← limitFits_iff]
    constructor
    · intro h j hj
      exact layer_unique hk hj ▸ h
    · exact fun h => h k hk
  · -- neither the search nor a path gets there
    constructor
    · exact fun _ k hk => absurd ⟨k, hk⟩ hreach
    · intro _
      constructor
      · rintro ⟨k, hk, -⟩
        exact absurd ⟨k, hk⟩ hreach
      · rintro ⟨k, hk, -⟩
        exact absurd ⟨k, hk⟩ hreach

/-- One link and a limit of one: there is a path of length one, and `has_link` does not find it. -/
theorem hasLink_chain_of_one :
    ¬(((new (G := Graph) 1).linkOps [.addLink "a" "b" none]).hasLink "a" "b" none = true ↔
      "a" = "b" ∨ ∃ n, 1 ≤ n ∧ n ≤ 1 ∧
        Walk (linkRel (currentLinks [.addLink "a" "b" none]) defaultDomain) n "a" "b") := by
  have hanswer :
      ((new (G := Graph) 1).linkOps [.addLink "a" "b" none]).hasLink "a" "b" none = false := by
    decide
  have hwalk : Walk (linkRel (currentLinks [.addLink "a" "b" none]) defaultDomain) 1 "a" "b" :=
    ⟨"a", rfl, Or.inr ⟨by decide, rfl⟩⟩
  rw [hanswer]
  exact fun h => absurd (h.mpr (Or.inr ⟨1, le_rfl, le_rfl, hwalk⟩)) (by decide)

end DefaultRoleManager

end TeaclaveCrates.Casbin
