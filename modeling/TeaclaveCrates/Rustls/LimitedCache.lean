import Mathlib.Data.List.AList
import Mathlib.Data.List.Induction
import Mathlib.Order.Basic

namespace TeaclaveCrates.Rustls

/-!
# rustls — the session cache of limited size

`limited_cache.rs` keeps a map and a queue of its keys, the oldest first. When an insertion fills
the queue, the oldest key leaves both.

* `VecDequeCapacity` — how much room the standard library gives to a queue;
* `LimitedCache` — the cache, and its operations on both collections;
* `LimitedCache.InStep` — the invariant: the queue has the keys of the map, once each;
* `LimitedCache.InsertedAt` — the operation of a run that a key has been there since;
* `LimitedCache.run_inStep` — what every run keeps, and how an entry leaves.
-/

/-- The capacity of a `VecDeque` that is made for some number of elements, and of one that has to
    be moved since it is full. -/
structure VecDequeCapacity where
  withCapacity : Nat → Nat
  le_withCapacity : ∀ n, n ≤ withCapacity n
  grow : Nat → Nat
  lt_grow : ∀ n, n < grow n

variable {K V : Type} [DecidableEq K]

/-- `LimitedCache`, with the capacity of `oldest`. -/
structure LimitedCache (K V : Type) where
  map : AList fun _ : K => V
  /-- The first item is the oldest key. -/
  oldest : List K
  capacity : Nat

namespace LimitedCache

section Operations

variable (alloc : VecDequeCapacity)

/-- `new`. -/
def new (capacityOrderOfMagnitude : Nat) : LimitedCache K V :=
  ⟨∅, [], alloc.withCapacity capacityOrderOfMagnitude⟩

/-- `self.oldest.push_back`. -/
def pushBack (c : LimitedCache K V) (k : K) : LimitedCache K V :=
  { c with
    oldest := c.oldest ++ [k]
    capacity := if c.oldest.length = c.capacity then alloc.grow c.capacity else c.capacity }

/-- The end of both insertions of a new item: the next one must not reallocate. -/
def evict (c : LimitedCache K V) : LimitedCache K V :=
  if c.capacity = c.oldest.length then
    match c.oldest with
    | [] => c
    | oldestKey :: rest => { c with map := c.map.erase oldestKey, oldest := rest }
  else
    c

/-- `get_or_insert_default_and_edit`. -/
def getOrInsertDefaultAndEdit [Inhabited V] (c : LimitedCache K V) (k : K) (edit : V → V) :
    LimitedCache K V :=
  match c.map.lookup k with
  | some value => { c with map := c.map.replace k (edit value) }
  | none =>
    let c := c.pushBack alloc k
    evict { c with map := c.map.insert k (edit default) }

/-- `insert`: an entry that is there is not freshened in `oldest`. -/
def insert (c : LimitedCache K V) (k : K) (v : V) : LimitedCache K V :=
  match c.map.lookup k with
  | some _ => { c with map := c.map.replace k v }
  | none =>
    let c := c.pushBack alloc k
    evict { c with map := c.map.insert k v }

end Operations

/-- `get_mut`, and what is written through the reference. -/
def getMut (c : LimitedCache K V) (k : K) (edit : V → V) : LimitedCache K V :=
  match c.map.lookup k with
  | some value => { c with map := c.map.replace k (edit value) }
  | none => c

/-- `remove`. -/
def remove (c : LimitedCache K V) (k : K) : Option V × LimitedCache K V :=
  match c.map.lookup k with
  | some value =>
    -- the search for the index, and the removal there
    (some value, { c with map := c.map.erase k, oldest := c.oldest.erase k })
  | none => (none, c)

/-! ### Runs -/

/-- An operation, and its arguments. -/
inductive Op (K V : Type)
  | getOrInsertDefaultAndEdit (k : K) (edit : V → V)
  | insert (k : K) (v : V)
  | get (k : K)
  | getMut (k : K) (edit : V → V)
  | remove (k : K)

variable [Inhabited V] (alloc : VecDequeCapacity)

def step (c : LimitedCache K V) : Op K V → LimitedCache K V
  | .getOrInsertDefaultAndEdit k edit => c.getOrInsertDefaultAndEdit alloc k edit
  | .insert k v => c.insert alloc k v
  | .get _ => c
  | .getMut k edit => c.getMut k edit
  | .remove k => (c.remove k).2

def run (c : LimitedCache K V) (ops : List (Op K V)) : LimitedCache K V := ops.foldl (step alloc) c

/-- The key of the operation, if it inserts. -/
def Op.inserts : Op K V → Option K
  | .getOrInsertDefaultAndEdit k _ => some k
  | .insert k _ => some k
  | _ => none

/-! ### The map and the queue in step -/

/-- The queue has the keys of the map, and room for one more. -/
structure InStep (c : LimitedCache K V) : Prop where
  nodup : c.oldest.Nodup
  mem_oldest : ∀ k, k ∈ c.oldest ↔ k ∈ c.map
  room : c.oldest.length < c.capacity ∨ c.capacity = 0 ∧ c.oldest = []

variable {alloc} {c : LimitedCache K V}

omit [DecidableEq K] [Inhabited V] in
theorem InStep.new (alloc : VecDequeCapacity) (n : Nat) :
    (new alloc n : LimitedCache K V).InStep where
  nodup := List.nodup_nil
  mem_oldest k := by simp [LimitedCache.new]
  room := (Nat.eq_zero_or_pos _).symm.imp_right fun h => ⟨h, rfl⟩

omit [DecidableEq K] [Inhabited V] in
theorem InStep.length_eq (h : c.InStep) : c.map.keys.length = c.oldest.length := by
  refine List.Perm.length_eq ((List.perm_ext_iff_of_nodup c.map.keys_nodup h.nodup).mpr fun k => ?_)
  rw [h.mem_oldest, AList.mem_keys]

/-- How an operation leaves the keys: as they were, without the key it removes, or with a new key
    behind them; and if that one takes the last place, without the oldest. -/
inductive Moves (c c' : LimitedCache K V) : Op K V → Prop
  | keeps {op} (hkeys : ∀ k, k ∈ c'.map ↔ k ∈ c.map) (holdest : c'.oldest = c.oldest)
      (hcapacity : c'.capacity = c.capacity) : Moves c c' op
  | removes {k} (hkeys : ∀ k', k' ∈ c'.map ↔ k' ≠ k ∧ k' ∈ c.map)
      (holdest : c'.oldest = c.oldest.erase k) (hcapacity : c'.capacity = c.capacity) :
      Moves c c' (.remove k)
  | adds {op k} (hop : op.inserts = some k) (hnew : k ∉ c.map)
      (hkeys : ∀ k', k' ∈ c'.map ↔ k' = k ∨ k' ∈ c.map) (holdest : c'.oldest = c.oldest ++ [k])
      (hroom : c'.oldest.length < c'.capacity) : Moves c c' op
  | evicts {op k first rest} (hop : op.inserts = some k) (hnew : k ∉ c.map)
      (hfirst : c.oldest ++ [k] = first :: rest)
      (hfull : c.capacity ≠ 0 → c.oldest.length + 1 = c.capacity)
      (hkeys : ∀ k', k' ∈ c'.map ↔ k' ≠ first ∧ (k' = k ∨ k' ∈ c.map)) (holdest : c'.oldest = rest)
      (hroom : c'.oldest.length < c'.capacity) : Moves c c' op

variable {k : K}

variable {op : Op K V}

omit [Inhabited V] in
/-- The two insertions of a new item. -/
theorem moves_of_new (h : c.InStep) (hop : op.inserts = some k) (hnew : k ∉ c.map) (v : V) :
    Moves c (evict { c.pushBack alloc k with map := (c.pushBack alloc k).map.insert k v }) op := by
  have hlt : c.oldest.length + 1 ≤ (c.pushBack alloc k).capacity := by
    unfold pushBack
    have hgrow := alloc.lt_grow c.capacity
    -- the queue moves only if it had no capacity at all
    rcases h.room with hroom | ⟨hzero, hnil⟩
    · dsimp only
      rw [if_neg hroom.ne]
      omega
    · rw [hzero] at hgrow
      simp only [hnil, hzero, List.length_nil, if_true]
      omega
  unfold evict
  split
  · next hfull =>
    have hfull : (c.pushBack alloc k).capacity = (c.oldest ++ [k]).length := hfull
    split
    · next hnil => exact absurd hnil (List.append_ne_nil_of_right_ne_nil _ (List.cons_ne_nil _ _))
    · next first rest hfirst =>
      refine .evicts hop hnew hfirst (fun hpos => ?_) (fun k' => ?_) rfl ?_
      · have hroom := h.room.resolve_right fun hzero => hpos hzero.1
        rw [pushBack, List.length_append] at hfull
        rw [if_neg hroom.ne] at hfull
        exact hfull.symm
      · rw [AList.mem_erase, AList.mem_insert]
        rfl
      · have hfirst : c.oldest ++ [k] = first :: rest := hfirst
        rw [hfirst, List.length_cons] at hfull
        exact hfull ▸ Nat.lt_succ_self _
  · next hroom =>
    refine .adds hop hnew (fun k' => AList.mem_insert _) rfl (lt_of_le_of_ne ?_ (Ne.symm hroom))
    show (c.oldest ++ [k]).length ≤ _
    rwa [List.length_append]

theorem moves_step (alloc : VecDequeCapacity) (h : c.InStep) (op : Op K V) :
    Moves c (c.step alloc op) op := by
  cases op with
  | getOrInsertDefaultAndEdit k edit =>
    show Moves c (c.getOrInsertDefaultAndEdit alloc k edit) _
    unfold LimitedCache.getOrInsertDefaultAndEdit
    split
    · exact .keeps (fun _ => AList.mem_replace) rfl rfl
    · next hnone => exact moves_of_new h rfl (AList.lookup_eq_none.mp hnone) _
  | insert k v =>
    show Moves c (c.insert alloc k v) _
    unfold LimitedCache.insert
    split
    · exact .keeps (fun _ => AList.mem_replace) rfl rfl
    · next hnone => exact moves_of_new h rfl (AList.lookup_eq_none.mp hnone) _
  | get k => exact .keeps (fun _ => Iff.rfl) rfl rfl
  | getMut k edit =>
    show Moves c (c.getMut k edit) _
    unfold LimitedCache.getMut
    split
    · exact .keeps (fun _ => AList.mem_replace) rfl rfl
    · exact .keeps (fun _ => Iff.rfl) rfl rfl
  | remove k =>
    show Moves c (c.remove k).2 _
    unfold LimitedCache.remove
    split
    · exact .removes (fun _ => AList.mem_erase) rfl rfl
    · exact .keeps (fun _ => Iff.rfl) rfl rfl

omit [Inhabited V] in
theorem InStep.of_moves {c' : LimitedCache K V} (h : c.InStep) (hmoves : Moves c c' op) :
    c'.InStep := by
  have hsnoc : ∀ {k}, k ∉ c.map → (c.oldest ++ [k]).Nodup := fun hnew =>
    List.nodup_append.mpr ⟨h.nodup, List.nodup_singleton _, fun a ha b hb hab => hnew
      ((h.mem_oldest _).mp (List.mem_singleton.mp hb ▸ hab ▸ ha))⟩
  cases hmoves with
  | keeps hkeys holdest hcapacity =>
    refine ⟨holdest ▸ h.nodup, fun k => ?_, by rw [holdest, hcapacity]; exact h.room⟩
    rw [holdest, hkeys, h.mem_oldest]
  | @removes k hkeys holdest hcapacity =>
    refine ⟨holdest ▸ h.nodup.erase k, fun k' => ?_, ?_⟩
    · rw [holdest, h.nodup.mem_erase_iff, hkeys, h.mem_oldest]
    · rw [holdest, hcapacity]
      exact h.room.imp ((List.length_erase_le ..).trans_lt ·) fun ⟨hzero, hnil⟩ =>
        ⟨hzero, by rw [hnil]; rfl⟩
  | adds _ hnew hkeys holdest hroom =>
    refine ⟨holdest ▸ hsnoc hnew, fun k' => ?_, .inl hroom⟩
    rw [holdest, hkeys, List.mem_append, List.mem_singleton, h.mem_oldest, or_comm]
  | @evicts _ k first rest _ hnew hfirst _ hkeys holdest hroom =>
    obtain ⟨hnot, hrest⟩ := List.nodup_cons.mp (hfirst ▸ hsnoc hnew)
    refine ⟨holdest ▸ hrest, fun k' => ?_, .inl hroom⟩
    have hmem : k' ∈ first :: rest ↔ k' = k ∨ k' ∈ c.map := by
      rw [← hfirst, List.mem_append, List.mem_singleton, h.mem_oldest, or_comm]
    rw [holdest, hkeys, ← hmem, List.mem_cons]
    exact ⟨fun hk => ⟨fun heq => hnot (heq ▸ hk), .inr hk⟩, fun ⟨hne, hk⟩ => hk.resolve_left hne⟩

theorem InStep.step (h : c.InStep) (op : Op K V) : (c.step alloc op).InStep :=
  h.of_moves (moves_step alloc h op)

theorem InStep.run (h : c.InStep) (ops : List (Op K V)) : (c.run alloc ops).InStep := by
  induction ops generalizing c with
  | nil => exact h
  | cons op ops ih => exact ih (h.step op)

/-! ### The order of the queue -/

variable (alloc) in
/-- The `i`-th operation has put in the key, which has been there since. -/
def InsertedAt (c : LimitedCache K V) (ops : List (Op K V)) (k : K) (i : Nat) : Prop :=
  i < ops.length ∧ k ∉ (c.run alloc (ops.take i)).map ∧
    ∀ j, i < j → j ≤ ops.length → k ∈ (c.run alloc (ops.take j)).map

variable {ops : List (Op K V)}

theorem InsertedAt.snoc {i : Nat} (h : c.InsertedAt alloc ops k i)
    (hstays : k ∈ (c.run alloc (ops ++ [op])).map) :
    c.InsertedAt alloc (ops ++ [op]) k i := by
  obtain ⟨hi, habsent, hpresent⟩ := h
  refine ⟨by rw [List.length_append]; omega, ?_, fun j hij hj => ?_⟩
  · rwa [List.take_append_of_le_length hi.le]
  · by_cases hle : j ≤ ops.length
    · rw [List.take_append_of_le_length hle]
      exact hpresent j hij hle
    · rw [List.take_of_length_le (by rw [List.length_append, List.length_singleton] at *; omega)]
      exact hstays

theorem insertedAt_last (habsent : k ∉ (c.run alloc ops).map)
    (hpresent : k ∈ (c.run alloc (ops ++ [op])).map) :
    c.InsertedAt alloc (ops ++ [op]) k ops.length := by
  refine ⟨by simp, ?_, fun j hij hj => ?_⟩
  · rwa [List.take_left]
  · rwa [List.take_of_length_le (by rw [List.length_append, List.length_singleton] at *; omega)]

theorem InsertedAt.unique {i j : Nat} (h : c.InsertedAt alloc ops k i)
    (h' : c.InsertedAt alloc ops k j) : i = j := by
  rcases lt_trichotomy i j with hlt | heq | hlt
  · exact absurd (h.2.2 j hlt h'.1.le) h'.2.1
  · exact heq
  · exact absurd (h'.2.2 i hlt h.1.le) h.2.1

variable (alloc) in
/-- The queue is in the order of the insertions. -/
def Aged (c : LimitedCache K V) (ops : List (Op K V)) : Prop :=
  (∀ k ∈ (c.run alloc ops).oldest, ∃ i, c.InsertedAt alloc ops k i) ∧
    (c.run alloc ops).oldest.Pairwise fun k k' =>
      ∃ i j, c.InsertedAt alloc ops k i ∧ c.InsertedAt alloc ops k' j ∧ i < j

theorem Aged.snoc (h : c.Aged alloc ops) (hstep : (c.run alloc ops).InStep) (op : Op K V) :
    c.Aged alloc (ops ++ [op]) := by
  have hrun : c.run alloc (ops ++ [op]) = (c.run alloc ops).step alloc op := List.foldl_concat ..
  have hnext : (c.run alloc (ops ++ [op])).InStep := hrun ▸ hstep.step op
  -- those that stay keep the time of their insertion
  have hstay : ∀ {l : List K}, l.Sublist (c.run alloc ops).oldest →
      (∀ k ∈ l, k ∈ (c.run alloc (ops ++ [op])).map) →
      (∀ k ∈ l, ∃ i, c.InsertedAt alloc (ops ++ [op]) k i ∧ i < ops.length) ∧
        l.Pairwise fun k k' => ∃ i j, c.InsertedAt alloc (ops ++ [op]) k i ∧
          c.InsertedAt alloc (ops ++ [op]) k' j ∧ i < j := by
    intro l hsub hmap
    refine ⟨fun k hk => ?_, (h.2.sublist hsub).imp_of_mem fun hk hk' => ?_⟩
    · obtain ⟨i, hi⟩ := h.1 k (hsub.subset hk)
      exact ⟨i, hi.snoc (hmap k hk), hi.1⟩
    · rintro ⟨i, j, hi, hj, hlt⟩
      exact ⟨i, j, hi.snoc (hmap _ hk), hj.snoc (hmap _ hk'), hlt⟩
  -- a key behind them has the time of the operation
  have hput : ∀ {l : List K}, l.Sublist (c.run alloc ops).oldest → ∀ {k}, k ∉ (c.run alloc ops).map →
      (c.run alloc (ops ++ [op])).oldest = l ++ [k] → c.Aged alloc (ops ++ [op]) := by
    intro l hsub k hnew heq
    have hmem : ∀ k' ∈ l ++ [k], k' ∈ (c.run alloc (ops ++ [op])).map := fun k' hk =>
      (hnext.mem_oldest k').mp (heq ▸ hk)
    obtain ⟨hsome, hpairs⟩ := hstay hsub fun k' hk => hmem k' (List.mem_append_left _ hk)
    have hlast := insertedAt_last hnew (hmem k (List.mem_append_right _ (List.mem_singleton_self k)))
    unfold Aged
    rw [heq]
    refine ⟨fun k' hk => ?_, List.pairwise_append.mpr ⟨hpairs, List.pairwise_singleton _ _, ?_⟩⟩
    · rcases List.mem_append.mp hk with hk | hk
      · exact (hsome k' hk).imp fun _ hi => hi.1
      · exact ⟨_, List.mem_singleton.mp hk ▸ hlast⟩
    · intro k' hk k'' hk''
      obtain ⟨i, hi, hlt⟩ := hsome k' hk
      exact ⟨i, _, hi, List.mem_singleton.mp hk'' ▸ hlast, hlt⟩
  have hkeep : ∀ {l : List K}, l.Sublist (c.run alloc ops).oldest →
      (c.run alloc (ops ++ [op])).oldest = l → c.Aged alloc (ops ++ [op]) := by
    intro l hsub heq
    obtain ⟨hsome, hpairs⟩ := hstay hsub fun k hk => (hnext.mem_oldest k).mp (heq ▸ hk)
    unfold Aged
    rw [heq]
    exact ⟨fun k hk => (hsome k hk).imp fun _ hi => hi.1, hpairs⟩
  have hmoves := moves_step alloc hstep op
  rw [← hrun] at hmoves
  cases hmoves with
  | keeps _ holdest => exact hkeep (List.Sublist.refl _) holdest
  | removes _ holdest => exact hkeep List.erase_sublist holdest
  | adds _ hnew _ holdest => exact hput (List.Sublist.refl _) hnew holdest
  | @evicts _ k first rest _ hnew hfirst _ _ holdest =>
    cases hold : (c.run alloc ops).oldest with
    | nil =>
      -- room for one only: the new key is the oldest
      rw [hold] at hfirst
      obtain ⟨-, rfl⟩ := List.cons.inj hfirst
      exact hkeep (List.nil_sublist _) holdest
    | cons first' rest' =>
      rw [hold] at hfirst
      obtain ⟨-, rfl⟩ := List.cons.inj hfirst
      exact hput (hold ▸ List.sublist_cons_self _ _) hnew holdest

theorem aged_run (alloc : VecDequeCapacity) (n : Nat) (ops : List (Op K V)) :
    (new alloc n : LimitedCache K V).Aged alloc ops := by
  induction ops using List.reverseRecOn with
  | nil => exact ⟨fun k hk => (List.not_mem_nil hk).elim, List.Pairwise.nil⟩
  | append_singleton ops op ih => exact ih.snoc ((InStep.new alloc n).run ops) op

/-- **The map and the queue stay in step.** After every run on a new cache the queue has the keys of
    the map, once each and in the order of their insertions since they were last absent; it has room
    for one more, unless it has no capacity and nothing is inside; and an entry leaves when it is
    removed, or as the oldest one when a new key takes the last place. -/
theorem run_inStep (alloc : VecDequeCapacity) (n : Nat) (ops : List (Op K V)) :
    let c₀ : LimitedCache K V := new alloc n
    let c := c₀.run alloc ops
    c.oldest.Nodup ∧ (∀ k, k ∈ c.oldest ↔ k ∈ c.map) ∧
      (∀ k ∈ c.oldest, ∃ i, c₀.InsertedAt alloc ops k i) ∧
      (c.oldest.Pairwise fun k k' =>
        ∀ i j, c₀.InsertedAt alloc ops k i → c₀.InsertedAt alloc ops k' j → i < j) ∧
      (c.map.keys.length < c.capacity ∨ c.capacity = 0 ∧ c.map.keys.length = 0) ∧
      ∀ op k, k ∈ c.map → k ∉ (c.step alloc op).map →
        op = .remove k ∨
          ∃ new, op.inserts = some new ∧ new ∉ c.map ∧ c.oldest.head? = some k ∧
            c.oldest.length + 1 = c.capacity := by
  intro c₀ c
  have hstep : c.InStep := (InStep.new alloc n).run ops
  obtain ⟨hsome, hpairs⟩ := aged_run (K := K) (V := V) alloc n ops
  refine ⟨hstep.nodup, hstep.mem_oldest, hsome, hpairs.imp ?_, ?_, fun op k hin hout => ?_⟩
  · rintro k k' ⟨i, j, hi, hj, hlt⟩ i' j' hi' hj'
    rwa [hi'.unique hi, hj'.unique hj]
  · rw [hstep.length_eq]
    exact hstep.room.imp_right fun ⟨hzero, hnil⟩ => ⟨hzero, by rw [hnil]; rfl⟩
  · have hmoves := moves_step alloc hstep op
    generalize c.step alloc op = c' at hmoves hout
    cases hmoves with
    | keeps hkeys => exact absurd ((hkeys k).mpr hin) hout
    | @removes k' hkeys =>
      refine .inl (congrArg Op.remove ?_)
      by_contra hne
      exact hout ((hkeys k).mpr ⟨Ne.symm hne, hin⟩)
    | adds _ _ hkeys => exact absurd ((hkeys k).mpr (.inr hin)) hout
    | @evicts _ new first rest hop hnew hfirst hfull hkeys =>
      have hk : k = first := by
        by_contra hne
        exact hout ((hkeys k).mpr ⟨hne, .inr hin⟩)
      have hmem := (hstep.mem_oldest k).mpr hin
      refine .inr ⟨new, hop, hnew, ?_, hfull fun hzero => ?_⟩
      · cases hold : c.oldest with
        | nil =>
          rw [hold] at hmem
          cases hmem
        | cons first' rest' =>
          rw [hold] at hfirst
          rw [hk, ← (List.cons.inj hfirst).1]
          rfl
      · have hroom := hstep.room
        rw [hzero] at hroom
        have hnil := (hroom.resolve_left (Nat.not_lt_zero _)).2
        rw [hnil] at hmem
        cases hmem

/-- A queue as the standard library makes it: it doubles, and has room for four at least. -/
def doubling : VecDequeCapacity where
  withCapacity n := n
  le_withCapacity _ := le_rfl
  grow n := max (n * 2) 4
  lt_grow n := by omega

/-- Without a capacity, and with nothing inside, the number of entries is not below it. -/
theorem empty_not_below :
    let c : LimitedCache Nat Nat := (new doubling 0).run doubling [.get 0]
    ¬c.map.keys.length < c.capacity := by
  decide

end LimitedCache

end TeaclaveCrates.Rustls
