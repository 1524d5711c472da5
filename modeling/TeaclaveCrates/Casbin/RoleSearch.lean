import TeaclaveCrates.Lib.Layers
import TeaclaveCrates.Casbin.RoleManager

namespace TeaclaveCrates.Casbin

open Lib

/-!
# What the depth-limited search visits

The search works through the distance layers of its start one after the other. Its depth does not
count layers: it goes up when the queue is empty after a pop, which is when the last node of a
layer is the only one that leads on. Whether that happens depends on the order of the neighbours.

* `layer_run` — one layer: which nodes are visited, what is queued then, how the depth may change.
* `mem_visited_iff` — for a settled start the visited nodes do not depend on any order.
-/

namespace Bfs

variable {succs : String → List String} {a : String} {maxDepth : Nat}

/-! ### One round -/

/-- The loop over the neighbours queues the new ones, once each. -/
theorem foldl_visit (l : List String) (b : Bfs) :
    ∃ new : List String, new.Nodup ∧ (∀ y, y ∈ new ↔ y ∈ l ∧ y ∉ b.discovered) ∧
      (l.foldl visit b).queue = b.queue ++ new ∧
      (∀ y, y ∈ (l.foldl visit b).discovered ↔ y ∈ b.discovered ∨ y ∈ new) ∧
      (l.foldl visit b).depth = b.depth ∧
      (l.foldl visit b).depthElementsRemaining = b.depthElementsRemaining + new.length := by
  induction l generalizing b with
  | nil => exact ⟨[], List.nodup_nil, by simp⟩
  | cons x xs ih =>
    rw [List.foldl_cons]
    by_cases hx : x ∈ b.discovered
    · obtain ⟨new, hnd, hmem, hrest⟩ := ih b
      rw [visit, if_pos hx]
      refine ⟨new, hnd, fun y => ?_, hrest⟩
      rw [hmem, List.mem_cons]
      constructor
      · rintro ⟨hy, hd⟩
        exact ⟨Or.inr hy, hd⟩
      · rintro ⟨rfl | hy, hd⟩
        · exact absurd hx hd
        · exact ⟨hy, hd⟩
    · obtain ⟨new, hnd, hmem, hq, hd, hdep, hrem⟩ := ih (b.visit x)
      rw [visit, if_neg hx] at hmem hq hd hdep hrem ⊢
      refine ⟨x :: new, ?_, ?_, ?_, ?_, hdep, ?_⟩
      · rw [List.nodup_cons]
        refine ⟨fun hxn => ?_, hnd⟩
        exact ((hmem x).mp hxn).2 List.mem_cons_self
      · intro y
        rw [List.mem_cons, hmem, List.mem_cons, not_or]
        by_cases hyx : y = x
        · simp [hyx, hx]
        · simp [hyx]
      · simp [hq]
      · intro y
        rw [hd, List.mem_cons, List.mem_cons]
        tauto
      · rw [hrem, List.length_cons]
        show b.depthElementsRemaining + 1 + new.length = _
        omega

/-! ### One layer -/

/-- The relation that the search follows. -/
def Step (succs : String → List String) (x y : String) : Prop := y ∈ succs x

/-- The search inside a layer: `done` is visited, `todo` is still queued, followed by the nodes
    `new` of the next layer that have been found so far. -/
structure InLayer (succs : String → List String) (a : String) (k : Nat)
    (done todo new discovered : List String) : Prop where
  nodup : (done ++ todo).Nodup
  mem_layer : ∀ y, y ∈ done ++ todo ↔ y ∈ layer (Step succs) a k
  new_nodup : new.Nodup
  mem_new : ∀ y, y ∈ new ↔ y ∉ ball (Step succs) a k ∧ ∃ x ∈ done, Step succs x y
  mem_discovered : ∀ y, y ∈ discovered ↔ y ∈ ball (Step succs) a k ∨ y ∈ new

/-- The state of the search with that queue. -/
def ofQueue (queue discovered : List String) (depth : Nat) : Bfs :=
  ⟨queue, discovered, depth, queue.length⟩

variable {k d : Nat} {discovered : List String}

/-- A pop inside a layer. The depth goes up when nothing is queued behind the node. -/
theorem next_inLayer {done todo new : List String} {q : String}
    (h : InLayer succs a k done (q :: todo) new discovered) (hd : d < maxDepth) :
    ∃ new' discovered',
      next succs maxDepth (ofQueue (q :: todo ++ new) discovered d) =
        some (q, ofQueue (todo ++ new') discovered' (if todo ++ new = [] then d + 1 else d)) ∧
      InLayer succs a k (done ++ [q]) todo new' discovered' := by
  -- `b` is the search after the pop and before the neighbours of `q` are visited
  set b : Bfs := updateDepth { ofQueue (q :: todo ++ new) discovered d with queue := todo ++ new }
    with hb
  have hbq : b.queue = todo ++ new := rfl
  have hbd : b.discovered = discovered := rfl
  have hbr : b.depthElementsRemaining = (todo ++ new).length := by
    simp [hb, updateDepth, ofQueue]
  have hbdep : b.depth = if todo ++ new = [] then d + 1 else d := by
    simp [hb, updateDepth, ofQueue]
  obtain ⟨fresh, hnd, hmem, hq, hdisc, hdep, hrem⟩ := foldl_visit (succs q) b
  refine ⟨new ++ fresh, ((succs q).foldl visit b).discovered, ?_, ?_⟩
  · have hnext : next succs maxDepth (ofQueue (q :: todo ++ new) discovered d) =
        some (q, (succs q).foldl visit b) := by
      rw [next, if_neg (show ¬maxDepth ≤ (ofQueue (q :: todo ++ new) discovered d).depth by
        simpa [ofQueue] using hd)]
      rfl
    rw [hnext]
    -- the counter holds what is left of this layer and what the visits pushed for the next
    have hlen : ((succs q).foldl visit b).depthElementsRemaining =
        (todo ++ (new ++ fresh)).length := by
      rw [hrem, hbr]
      simp only [List.length_append]
      omega
    have hqueue : ((succs q).foldl visit b).queue = todo ++ (new ++ fresh) := by
      rw [hq, hbq, List.append_assoc]
    rw [hbdep] at hdep
    generalize (succs q).foldl visit b = b' at hdep hlen hqueue ⊢
    obtain ⟨queue', discovered', depth', remaining'⟩ := b'
    subst hdep hlen hqueue
    rfl
  · refine ⟨?_, ?_, ?_, ?_, ?_⟩
    · rw [List.append_assoc]
      exact h.nodup
    · rw [List.append_assoc]
      exact h.mem_layer
    · rw [List.nodup_append]
      refine ⟨h.new_nodup, hnd, ?_⟩
      intro x hx y hy hxy
      rw [hmem, hbd, h.mem_discovered] at hy
      exact hy.2 (Or.inr (hxy ▸ hx))
    · intro y
      -- a pushed node was undiscovered, so it is in no earlier ball and no `done` node has it
      rw [List.mem_append, h.mem_new, hmem, hbd, h.mem_discovered, h.mem_new]
      constructor
      · rintro (⟨hball, x, hx, hxy⟩ | ⟨hy, hnot⟩)
        · exact ⟨hball, x, List.mem_append_left _ hx, hxy⟩
        · exact ⟨fun hball => hnot (Or.inl hball), q, by simp, hy⟩
      · rintro ⟨hball, x, hx, hxy⟩
        rcases List.mem_append.mp hx with hx | hx
        · exact Or.inl ⟨hball, x, hx, hxy⟩
        · rw [List.mem_singleton] at hx
          rw [hx] at hxy
          by_cases hold : ∃ z ∈ done, Step succs z y
          · exact Or.inl ⟨hball, hold⟩
          · refine Or.inr ⟨hxy, ?_⟩
            rintro (hy | ⟨-, hy⟩)
            · exact hball hy
            · exact hold hy
    · intro y
      rw [hdisc, hbd, h.mem_discovered, List.mem_append, or_assoc]

/-- One layer from its first pop to its last. The depth goes up by at most one; it does when the
    layer is a single node, and it only does when one node at most leads on. -/
theorem layer_run (todo done new discovered : List String) (fuel : Nat)
    (h : InLayer succs a k done todo new discovered) (htodo : todo ≠ []) (hd : d < maxDepth)
    (hfuel : todo.length ≤ fuel) :
    ∃ new' discovered' d',
      InLayer succs a k (done ++ todo) [] new' discovered' ∧
      visited succs maxDepth fuel (ofQueue (todo ++ new) discovered d) =
        todo ++ visited succs maxDepth (fuel - todo.length) (ofQueue new' discovered' d') ∧
      d ≤ d' ∧ d' ≤ d + 1 ∧ (Single (Step succs) a k → d' = d + 1) ∧
      (d' = d + 1 → (layer (Step succs) a (k + 1)).Nonempty → Narrow (Step succs) a k) := by
  induction todo generalizing done new discovered fuel with
  | nil => exact absurd rfl htodo
  | cons q todo ih =>
    obtain ⟨fuel, rfl⟩ : ∃ n, fuel = n + 1 := Nat.exists_eq_succ_of_ne_zero (by
      rw [List.length_cons] at hfuel
      omega)
    obtain ⟨new', discovered', hnext, hin⟩ := next_inLayer h hd
    have hvisit : visited succs maxDepth (fuel + 1) (ofQueue (q :: todo ++ new) discovered d) =
        q :: visited succs maxDepth fuel
          (ofQueue (todo ++ new') discovered' (if todo ++ new = [] then d + 1 else d)) := by
      rw [visited, hnext]
    rw [hvisit, List.append_cons done q todo]
    by_cases hlast : todo = []
    · -- the last node of the layer: nothing found so far means that only it can lead on
      subst hlast
      refine ⟨new', discovered', _, by simpa using hin, rfl, ?_, ?_, ?_, ?_⟩
      · split <;> omega
      · split <;> omega
      · rintro ⟨x, hx, huniq⟩
        have hdone : done = [] := by
          rw [List.eq_nil_iff_forall_not_mem]
          intro y hy
          have hyq : y = q :=
            (huniq y ((h.mem_layer y).mp (List.mem_append_left _ hy))).trans
              (huniq q ((h.mem_layer q).mp (by simp))).symm
          exact List.disjoint_of_nodup_append h.nodup hy (by simp [hyq])
        have hnew : new = [] := by
          rw [List.eq_nil_iff_forall_not_mem]
          intro y hy
          obtain ⟨-, x, hx, -⟩ := (h.mem_new y).mp hy
          simp [hdone] at hx
        simp [hnew]
      · intro hup hne
        have hnew : new = [] := by
          by_contra hcon
          simp [hcon] at hup
        have honly : ∀ x, Leads (Step succs) a k x → x = q := by
          rintro x ⟨hx, y, hy, hxy⟩
          rw [← h.mem_layer, List.mem_append, List.mem_singleton] at hx
          rcases hx with hx | hx
          · have : y ∈ new := (h.mem_new y).mpr ⟨(mem_layer_succ_iff.mp hy).1, x, hx, hxy⟩
            simp [hnew] at this
          · exact hx
        obtain ⟨y, hy⟩ := hne
        obtain ⟨-, x, hx, hxy⟩ := mem_layer_succ_iff.mp hy
        have hleads : Leads (Step succs) a k x := ⟨hx, y, hy, hxy⟩
        exact ⟨x, hleads, fun z hz => (honly z hz).trans (honly x hleads).symm⟩
    · obtain ⟨new'', discovered'', d', hin', hrun, hrest⟩ :=
        ih (done ++ [q]) new' discovered' fuel hin hlast (by
          rw [List.length_cons] at hfuel
          omega)
      refine ⟨new'', discovered'', d', hin', ?_, hrest⟩
      have hne : todo ++ new ≠ [] := by simp [hlast]
      simp [hne, hrun, Nat.add_sub_add_right]

/-! ### All layers -/

/-- The search when it comes to layer `k`: everything nearer is visited, the layer is queued, and
    the depth is between the counts of single and of narrow layers before it. -/
structure AtLayer (succs : String → List String) (a : String) (maxDepth fuel k : Nat)
    (seen queue discovered : List String) (d : Nat) : Prop where
  split : visited succs maxDepth fuel (start a) =
    seen ++ visited succs maxDepth (fuel - seen.length) (ofQueue queue discovered d)
  nodup : (seen ++ queue).Nodup
  mem_seen : ∀ y, y ∈ seen ↔ y ∈ ball (Step succs) a k ∧ y ∉ layer (Step succs) a k
  inLayer : InLayer succs a k [] queue [] discovered
  single_le : singleCount (Step succs) a k ≤ d
  le_narrow : (layer (Step succs) a k).Nonempty → d ≤ narrowCount (Step succs) a k

theorem atLayer_zero (fuel : Nat) : AtLayer succs a maxDepth fuel 0 [] [a] [a] 0 where
  split := rfl
  nodup := by simp
  mem_seen := by simp [ball, layer]
  inLayer := by
    refine ⟨by simp, by simp [layer], List.nodup_nil, by simp, by simp [ball]⟩
  single_le := by
    classical
    simp [singleCount]
  le_narrow := fun _ => Nat.zero_le _

theorem AtLayer.queue_ne_nil {fuel : Nat} {seen queue : List String}
    (h : AtLayer succs a maxDepth fuel k seen queue discovered d)
    (hne : (layer (Step succs) a k).Nonempty) : queue ≠ [] := by
  obtain ⟨y, hy⟩ := hne
  have hmem : y ∈ queue := by simpa using (h.inLayer.mem_layer y).mpr hy
  exact List.ne_nil_of_mem hmem

/-- From one layer to the next, while the depth allows it. -/
theorem AtLayer.succ {fuel : Nat} {seen queue : List String}
    (h : AtLayer succs a maxDepth fuel k seen queue discovered d) (hd : d < maxDepth)
    (hfuel : ∀ l : List String, l.Nodup → (∀ y ∈ l, ∃ j, y ∈ ball (Step succs) a j) →
      l.length ≤ fuel) (hne : queue ≠ []) :
    ∃ queue' discovered' d',
      AtLayer succs a maxDepth fuel (k + 1) (seen ++ queue) queue' discovered' d' ∧
      ∀ y ∈ queue, y ∈ visited succs maxDepth fuel (start a) := by
  -- the nodes popped so far and the queue are distinct, so the fuel covers them
  have hlen : seen.length + queue.length ≤ fuel := by
    rw [← List.length_append]
    apply hfuel _ h.nodup
    intro y hy
    rcases List.mem_append.mp hy with hy | hy
    · exact ⟨k, ((h.mem_seen y).mp hy).1⟩
    · exact ⟨k, layer_subset_ball k ((h.inLayer.mem_layer y).mp hy)⟩
  obtain ⟨new', discovered', d', hin, hrun, hd1, hd2, hsingle, hnarrow⟩ :=
    layer_run queue [] [] discovered (fuel - seen.length)
      h.inLayer hne hd (by omega)
  rw [List.append_nil] at hrun
  have hmem : ∀ y, y ∈ new' ↔ y ∈ layer (Step succs) a (k + 1) := by
    intro y
    rw [hin.mem_new, mem_layer_succ_iff]
    refine and_congr_right fun _ => ?_
    constructor
    · rintro ⟨x, hx, hxy⟩
      exact ⟨x, (hin.mem_layer x).mp (by simpa using hx), hxy⟩
    · rintro ⟨x, hx, hxy⟩
      exact ⟨x, by simpa using (hin.mem_layer x).mpr hx, hxy⟩
  -- once the layer is popped, what was seen is the whole ball of radius `k`
  have hseen : ∀ y, y ∈ seen ++ queue ↔ y ∈ ball (Step succs) a k := by
    intro y
    have hq := h.inLayer.mem_layer y
    rw [List.nil_append] at hq
    rw [List.mem_append, h.mem_seen, hq]
    constructor
    · rintro (⟨hy, -⟩ | hy)
      · exact hy
      · exact layer_subset_ball k hy
    · intro hy
      by_cases hl : y ∈ layer (Step succs) a k
      · exact Or.inr hl
      · exact Or.inl ⟨hy, hl⟩
  refine ⟨new', discovered', d', ⟨?_, ?_, ?_, ?_, ?_, ?_⟩, ?_⟩
  · rw [h.split, hrun, List.length_append, Nat.sub_sub, List.append_assoc]
  · rw [List.nodup_append]
    refine ⟨h.nodup, hin.new_nodup, ?_⟩
    intro x hx y hy hxy
    rw [hseen] at hx
    rw [hmem, mem_layer_succ_iff] at hy
    exact hy.1 (hxy ▸ hx)
  · intro y
    rw [hseen]
    constructor
    · intro hy
      exact ⟨ball_subset_succ k hy, fun hl => (mem_layer_succ_iff.mp hl).1 hy⟩
    · rintro ⟨hy, hnot⟩
      rcases mem_ball_succ_iff.mp hy with hy | hy
      · exact hy
      · exact absurd hy hnot
  · refine ⟨by simpa using hin.new_nodup, by simpa using hmem, List.nodup_nil, by simp, ?_⟩
    intro y
    rw [hin.mem_discovered, hmem, ← mem_ball_succ_iff]
    simp
  -- the pop of a layer's only node empties the queue, so the depth goes up by one
  · by_cases hs : Single (Step succs) a k
    · rw [hsingle hs]
      exact (singleCount_succ_le k).trans (Nat.succ_le_succ h.single_le)
    · rw [singleCount_succ_of_not hs]
      exact h.single_le.trans hd1
  · intro hnext
    have hk := h.le_narrow (layer_nonempty_of_le (Nat.le_succ k) hnext)
    by_cases hup : d' = d + 1
    · rw [narrowCount_succ_of_narrow (hnarrow hup hnext)]
      omega
    · have := narrowCount_mono (R := Step succs) (a := a) (Nat.le_add_right k 1)
      omega
  · intro y hy
    simp [h.split, hrun, hy]

/-- The search stops at the depth limit. -/
theorem visited_of_le (fuel : Nat) {b : Bfs} (h : maxDepth ≤ b.depth) :
    visited succs maxDepth fuel b = [] := by
  cases fuel with
  | zero => rfl
  | succ fuel => simp [visited, next, h]

/-- Everything visited is reached by links. -/
theorem exists_ball_of_mem_visited (fuel : Nat) (b : Bfs)
    (hq : ∀ y ∈ b.queue, ∃ k, y ∈ ball (Step succs) a k) :
    ∀ y ∈ visited succs maxDepth fuel b, ∃ k, y ∈ ball (Step succs) a k := by
  induction fuel generalizing b with
  | zero => simp [visited]
  | succ fuel ih =>
    intro y hy
    rw [visited, next] at hy
    by_cases hd : maxDepth ≤ b.depth
    · simp [hd] at hy
    · cases hqueue : b.queue with
      | nil => simp [hd, hqueue] at hy
      | cons q rest =>
        simp only [hd, hqueue, if_false, List.mem_cons] at hy
        obtain ⟨k, hk⟩ := hq q (by simp [hqueue])
        rcases hy with rfl | hy
        · exact ⟨k, hk⟩
        · refine ih _ ?_ y hy
          obtain ⟨new, -, hmem, hqueue', -⟩ :=
            foldl_visit (succs q) (updateDepth { b with queue := rest })
          rw [hqueue']
          intro z hz
          rcases List.mem_append.mp hz with hz | hz
          · exact hq z (by simp only [hqueue, List.mem_cons]; exact Or.inr hz)
          · exact ⟨k + 1, Or.inr ⟨q, hk, ((hmem z).mp hz).1⟩⟩

section Run

variable {fuel : Nat}
  (hfuel : ∀ l : List String, l.Nodup → (∀ y ∈ l, ∃ j, y ∈ ball (Step succs) a j) →
    l.length ≤ fuel)
include hfuel

/-- A layer with few narrow layers before it is reached. -/
theorem exists_atLayer (k : Nat) (hne : (layer (Step succs) a k).Nonempty)
    (hk : narrowCount (Step succs) a k < maxDepth) :
    ∃ seen queue discovered d, AtLayer succs a maxDepth fuel k seen queue discovered d := by
  induction k with
  | zero => exact ⟨_, _, _, _, atLayer_zero fuel⟩
  | succ k ih =>
    have hne' := layer_nonempty_of_le (Nat.le_succ k) hne
    have hk' : narrowCount (Step succs) a k < maxDepth :=
      (narrowCount_mono (Nat.le_add_right k 1)).trans_lt hk
    obtain ⟨seen, queue, discovered, d, h⟩ := ih hne' hk'
    have hd : d < maxDepth := (h.le_narrow hne').trans_lt hk'
    obtain ⟨queue', discovered', d', h', -⟩ := h.succ hd hfuel (h.queue_ne_nil hne')
    exact ⟨_, _, _, _, h'⟩

theorem mem_visited_of_narrow {k : Nat} {y : String} (hy : y ∈ layer (Step succs) a k)
    (hk : narrowCount (Step succs) a k < maxDepth) :
    y ∈ visited succs maxDepth fuel (start a) := by
  obtain ⟨seen, queue, discovered, d, h⟩ := exists_atLayer hfuel k ⟨y, hy⟩ hk
  have hd : d < maxDepth := (h.le_narrow ⟨y, hy⟩).trans_lt hk
  obtain ⟨_, _, _, -, hvisit⟩ := h.succ hd hfuel (h.queue_ne_nil ⟨y, hy⟩)
  apply hvisit
  simpa using (h.inLayer.mem_layer y).mpr hy

/-- A layer with many single layers before it is not reached. -/
theorem not_mem_visited_of_single {k : Nat} {y : String} (hy : y ∈ layer (Step succs) a k)
    (hk : maxDepth ≤ singleCount (Step succs) a k) :
    y ∉ visited succs maxDepth fuel (start a) := by
  intro hvis
  -- if the search stops before layer `j + 1`, it has not come to layer `k`
  have hstop : ∀ j ≤ k, ∀ seen queue discovered d,
      AtLayer succs a maxDepth fuel j seen queue discovered d → maxDepth ≤ d → False := by
    intro j hj seen queue discovered d h hd
    rw [h.split, visited_of_le _ hd, List.append_nil] at hvis
    obtain ⟨hball, hlayer⟩ := (h.mem_seen y).mp hvis
    obtain rfl : j = k := le_antisymm hj (le_of_mem_layer_of_mem_ball hy hball)
    exact hlayer hy
  have hall : ∀ j ≤ k, ∃ seen queue discovered d,
      AtLayer succs a maxDepth fuel j seen queue discovered d := by
    intro j
    induction j with
    | zero => exact fun _ => ⟨_, _, _, _, atLayer_zero fuel⟩
    | succ j ih =>
      intro hj
      obtain ⟨seen, queue, discovered, d, h⟩ := ih (by omega)
      have hd : d < maxDepth := by
        by_contra hcon
        exact hstop j (by omega) _ _ _ _ h (by omega)
      have hne := h.queue_ne_nil (layer_nonempty_of_le (by omega) ⟨y, hy⟩)
      obtain ⟨queue', discovered', d', h', -⟩ := h.succ hd hfuel hne
      exact ⟨_, _, _, _, h'⟩
  obtain ⟨seen, queue, discovered, d, h⟩ := hall k le_rfl
  exact hstop k le_rfl _ _ _ _ h (hk.trans h.single_le)

/-- **The visited nodes.** For a settled start, a node is visited exactly when fewer than
    `maxDepth` narrow layers come before its own. -/
theorem mem_visited_iff (hset : Settled (Step succs) a maxDepth) (y : String) :
    y ∈ visited succs maxDepth fuel (start a) ↔
      ∃ k, y ∈ layer (Step succs) a k ∧ narrowCount (Step succs) a k < maxDepth := by
  constructor
  · intro hvis
    obtain ⟨k, hk⟩ := exists_ball_of_mem_visited fuel (start a)
      (fun z hz => ⟨0, by simpa [start, ball] using hz⟩) y hvis
    obtain ⟨j, -, hj⟩ := exists_layer_of_mem_ball hk
    refine ⟨j, hj, ?_⟩
    rcases hset j ⟨y, hj⟩ with h | h
    · exact h
    · exact absurd hvis (not_mem_visited_of_single hfuel hj h)
  · rintro ⟨k, hy, hk⟩
    exact mem_visited_of_narrow hfuel hy hk

end Run

end Bfs

end TeaclaveCrates.Casbin
