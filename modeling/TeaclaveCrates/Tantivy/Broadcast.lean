import TeaclaveCrates.Tantivy.DeleteQueue

namespace TeaclaveCrates.Tantivy

/-!
# The delete queue is a broadcast queue

The simulation behind `run_broadcast`. Only the blocks that a cursor can still reach matter: among
them at most one has an open end, the queue's last block, and what follows a block is what the
cursors on it have still to read.

* `Reach`, `Live` — reachability, and that `live` decides it.
* `Refines` — a queue against an abstract one.
* `refines_load` — loading a block changes nothing that can be seen.
* `refines_step`, `run_broadcast` — every call, every run.
-/

namespace DeleteQueue

variable {W : Type} {q : DeleteQueue W} {a : Broadcast W}

/-! ### Which blocks are alive -/

/-- One closed pointer leads from block to block. -/
def Next (q : DeleteQueue W) (b b' : Nat) : Prop := q.nextOf b = some b'

def Reach (q : DeleteQueue W) : Nat → Nat → Prop := Relation.ReflTransGen q.Next

/-- Some cursor reaches the block. -/
def Live (q : DeleteQueue W) (b : Nat) : Prop :=
  ∃ slot c, q.cursorAt slot = some c ∧ q.Reach c.block b

/-- Closed pointers lead to later blocks, which are never empty. -/
def Forward (q : DeleteQueue W) : Prop :=
  ∀ b b', q.nextOf b = some b' → b < b' ∧ b' < q.blocks.length ∧ q.operationsOf b' ≠ []

variable {b : Nat}

theorem reach_of_mem_chain {fuel b' : Nat} (h : b' ∈ q.chain fuel b) : q.Reach b b' := by
  induction fuel generalizing b with
  | zero =>
    rw [chain, List.mem_singleton] at h
    exact h ▸ Relation.ReflTransGen.refl
  | succ fuel ih =>
    rw [chain] at h
    cases hnext : q.nextOf b with
    | none =>
      rw [hnext] at h
      rw [List.mem_singleton] at h
      exact h ▸ Relation.ReflTransGen.refl
    | some b₁ =>
      rw [hnext] at h
      rcases List.mem_cons.mp h with rfl | h
      · exact Relation.ReflTransGen.refl
      · exact Relation.ReflTransGen.head hnext (ih h)

theorem mem_chain_of_reach (hf : q.Forward) {fuel b' : Nat} (h : q.Reach b b')
    (hfuel : q.blocks.length ≤ b + fuel) : b' ∈ q.chain fuel b := by
  induction fuel generalizing b with
  | zero =>
    rcases Relation.ReflTransGen.cases_head h with rfl | ⟨b₁, hnext, -⟩
    · simp [chain]
    · have := hf b b₁ hnext
      omega
  | succ fuel ih =>
    rw [chain]
    rcases Relation.ReflTransGen.cases_head h with rfl | ⟨b₁, hnext, hrest⟩
    · split <;> simp
    · have hb := hf b b₁ hnext
      have hnext' : q.nextOf b = some b₁ := hnext
      rw [hnext']
      exact List.mem_cons_of_mem b (ih hrest (by omega))

/-- The reference count is positive exactly for the blocks that some cursor reaches. -/
theorem live_iff (hf : q.Forward) (b : Nat) : q.live b = true ↔ q.Live b := by
  unfold live Live
  rw [List.any_eq_true]
  constructor
  · rintro ⟨slot, hmem, h⟩
    cases slot with
    | none => simp at h
    | some c =>
      obtain ⟨i, hi⟩ := List.mem_iff_getElem?.mp hmem
      exact ⟨i, c, by simp [cursorAt, hi], reach_of_mem_chain (of_decide_eq_true h)⟩
  · rintro ⟨slot, c, hc, h⟩
    unfold cursorAt at hc
    rw [Option.join_eq_some_iff] at hc
    exact ⟨some c, List.mem_of_getElem? hc, decide_eq_true (mem_chain_of_reach hf h (by omega))⟩

/-! ### The relation -/

/-- A cursor and the operations it has still to read: the rest of its block and what follows. -/
def Reads (q : DeleteQueue W) (after : Nat → List (DeleteOperation W)) :
    Option DeleteCursor → Option (List (DeleteOperation W)) → Prop
  | none, none => True
  | some c, some u =>
    c.block < q.blocks.length ∧ c.pos ≤ (q.operationsOf c.block).length ∧
      u = (q.operationsOf c.block).drop c.pos ++ after c.block
  | _, _ => False

variable {after : Nat → List (DeleteOperation W)}

/-- A cursor reads the same where its block and what follows it are the same. -/
theorem Reads.frame {q' : DeleteQueue W} {after' : Nat → List (DeleteOperation W)}
    {x : Option DeleteCursor} {u : Option (List (DeleteOperation W))} (h : q.Reads after x u)
    (hsame : ∀ b < q.blocks.length, b < q'.blocks.length ∧
      q'.operationsOf b = q.operationsOf b ∧ after' b = after b) : q'.Reads after' x u := by
  match x, u with
  | none, none => trivial
  | some c, some u =>
    obtain ⟨hblock, hpos, hu⟩ := h
    obtain ⟨hblock', hops, hafter⟩ := hsame c.block hblock
    exact ⟨hblock', hops ▸ hpos, hops ▸ hafter ▸ hu⟩
  | none, some _ => exact h.elim
  | some _, none => exact h.elim

/-- The queue holds what the abstract queue says, with `after b` the operations behind block `b`. -/
structure RefinesBy (q : DeleteQueue W) (a : Broadcast W)
    (after : Nat → List (DeleteOperation W)) : Prop where
  forward : q.Forward
  last : ∀ l, q.lastBlock = some l → l < q.blocks.length ∧ q.nextOf l = none
  pending : q.writer <:+ a.log
  closed : ∀ b b', q.Live b → q.nextOf b = some b' → after b = q.operationsOf b' ++ after b'
  opened : ∀ b, q.Live b → q.nextOf b = none → after b = q.writer ∧ q.lastBlock = some b
  length_eq : q.cursors.length = a.unread.length
  reads : ∀ slot, q.Reads after (q.cursorAt slot) (a.unreadAt slot)

def Refines (q : DeleteQueue W) (a : Broadcast W) : Prop := ∃ after, q.RefinesBy a after

/-- The state of the queue while a call works on the cursor of a slot. -/
def RefinesWith (q : DeleteQueue W) (slot : Nat) (c : DeleteCursor) (a : Broadcast W) : Prop :=
  (q.putCursor slot (some c)).Refines a

/-! ### Reading the relation -/

theorem cursorAt_putCursor (q : DeleteQueue W) (slot slot' : Nat) (x : Option DeleteCursor)
    (hs : slot < q.cursors.length) :
    (q.putCursor slot x).cursorAt slot' = if slot' = slot then x else q.cursorAt slot' := by
  unfold cursorAt putCursor
  by_cases h : slot' = slot
  · simp [h, hs]
  · simp [List.getElem?_set_ne (Ne.symm h), h]

theorem unreadAt_put (a : Broadcast W) (slot slot' : Nat) (x : Option (List (DeleteOperation W)))
    (hs : slot < a.unread.length) :
    (a.put slot x).unreadAt slot' = if slot' = slot then x else a.unreadAt slot' := by
  unfold Broadcast.unreadAt Broadcast.put
  by_cases h : slot' = slot
  · simp [h, hs]
  · simp [List.getElem?_set_ne (Ne.symm h), h]

theorem lt_of_cursorAt {slot : Nat} {c : DeleteCursor} (h : q.cursorAt slot = some c) :
    slot < q.cursors.length := by
  by_contra hs
  unfold cursorAt at h
  rw [List.getElem?_eq_none (by omega)] at h
  simp at h

theorem putCursor_self {slot : Nat} {c : DeleteCursor} (h : q.cursorAt slot = some c) :
    q.putCursor slot (some c) = q := by
  have hs := lt_of_cursorAt h
  unfold cursorAt at h
  rw [List.getElem?_eq_getElem hs] at h
  have hget : q.cursors[slot] = some c := h
  unfold putCursor
  rw [← hget, List.set_getElem_self]

/-- A cursor that exists has something to read, maybe nothing. -/
theorem RefinesBy.unreadAt (h : q.RefinesBy a after) {slot : Nat} {c : DeleteCursor}
    (hc : q.cursorAt slot = some c) :
    ∃ u, a.unreadAt slot = some u ∧ c.block < q.blocks.length ∧
      c.pos ≤ (q.operationsOf c.block).length ∧
      u = (q.operationsOf c.block).drop c.pos ++ after c.block := by
  have hreads := h.reads slot
  rw [hc] at hreads
  cases hu : a.unreadAt slot with
  | none =>
    rw [hu] at hreads
    exact hreads.elim
  | some u =>
    rw [hu] at hreads
    exact ⟨u, rfl, hreads⟩

theorem RefinesBy.unreadAt_none (h : q.RefinesBy a after) {slot : Nat}
    (hc : q.cursorAt slot = none) : a.unreadAt slot = none := by
  have hreads := h.reads slot
  rw [hc] at hreads
  cases hu : a.unreadAt slot with
  | none => rfl
  | some u =>
    rw [hu] at hreads
    exact hreads.elim

theorem getElem?_concat {α : Type} (xs : List α) (x : α) (i : Nat) :
    (xs ++ [x])[i]? = if i = xs.length then some x else xs[i]? := by
  rcases Nat.lt_trichotomy i xs.length with hlt | rfl | hgt
  · rw [List.getElem?_append_left hlt, if_neg (by omega)]
  · simp
  · rw [if_neg (by omega), List.getElem?_eq_none (by simp; omega),
      List.getElem?_eq_none (by omega)]

/-! ### Flushing -/

variable (q) in
/-- The queue after a flush that closes block `b`. -/
def flushed (b : Nat) : DeleteQueue W :=
  ({ q.allocLast q.writer with writer := [] }).close b q.blocks.length

theorem getElem?_flushed (hb : b < q.blocks.length) (x : Nat) :
    (q.flushed b).blocks[x]? =
      if x = b then q.blocks[b]?.map fun block => { block with next := some q.blocks.length }
      else if x = q.blocks.length then some ⟨q.writer, none⟩ else q.blocks[x]? := by
  unfold flushed close allocLast
  simp only [List.getElem?_modify]
  by_cases hx : x = b
  · subst hx
    simp [List.getElem?_append_left hb]
  · have hx' : ¬b = x := fun h => hx h.symm
    simp only [hx', if_false, hx, Option.map_eq_map, Option.map_id_fun', id_eq]
    exact getElem?_concat q.blocks _ x

theorem nextOf_flushed (hb : b < q.blocks.length) (x : Nat) :
    (q.flushed b).nextOf x = if x = b then some q.blocks.length
      else if x = q.blocks.length then none else q.nextOf x := by
  unfold nextOf
  rw [getElem?_flushed hb]
  by_cases hx : x = b
  · simp [hx, List.getElem?_eq_getElem hb]
  · by_cases hx' : x = q.blocks.length
    · subst hx'
      simp [hx]
    · simp [hx, hx']

theorem operationsOf_flushed (hb : b < q.blocks.length) (x : Nat) :
    (q.flushed b).operationsOf x = if x = q.blocks.length then q.writer else q.operationsOf x := by
  unfold operationsOf
  rw [getElem?_flushed hb]
  by_cases hx : x = b
  · rw [if_pos hx, if_neg (by omega), hx]
    simp [List.getElem?_eq_getElem hb]
  · by_cases hx' : x = q.blocks.length
    · rw [if_neg hx, if_pos hx', if_pos hx']
      rfl
    · simp [hx, hx']

theorem length_flushed (b : Nat) : (q.flushed b).blocks.length = q.blocks.length + 1 := by
  simp [flushed, close, allocLast]

/-- After a flush a block leads to the new one, or where it led before. -/
theorem reach_flushed {x y : Nat} (hb : b < q.blocks.length) (h : (q.flushed b).Reach x y) :
    y = q.blocks.length ∨ q.Reach x y := by
  induction h with
  | refl => exact Or.inr Relation.ReflTransGen.refl
  | @tail z y _ hstep ih =>
    have hnext : (q.flushed b).nextOf z = some y := hstep
    rw [nextOf_flushed hb] at hnext
    by_cases hz : z = b
    · rw [if_pos hz] at hnext
      exact Or.inl (Option.some.inj hnext).symm
    · rw [if_neg hz] at hnext
      by_cases hz' : z = q.blocks.length
      · rw [if_pos hz'] at hnext
        simp at hnext
      · rw [if_neg hz'] at hnext
        rcases ih with ih | ih
        · exact absurd ih hz'
        · exact Or.inr (ih.tail hnext)

/-! ### Loading a block -/

/-- A cursor moves in a queue whose blocks stay as they are, to a place from which it reads the
    given list. -/
theorem RefinesBy.moveCursor {slot : Nat} {c c' : DeleteCursor} {u' : List (DeleteOperation W)}
    (hs : slot < q.cursors.length) (h : (q.putCursor slot (some c)).RefinesBy a after)
    (hreach : q.Reach c.block c'.block) (hreads : q.Reads after (some c') (some u')) :
    (q.putCursor slot (some c')).RefinesBy (a.put slot (some u')) after := by
  have hs' : slot < a.unread.length := by
    have := h.length_eq
    rw [← this]
    simpa [putCursor] using hs
  have hlive : ∀ x, (q.putCursor slot (some c')).Live x → (q.putCursor slot (some c)).Live x := by
    rintro x ⟨slot₁, c₁, hc₁, hx⟩
    rw [cursorAt_putCursor q slot slot₁ _ hs] at hc₁
    by_cases h₁ : slot₁ = slot
    · rw [if_pos h₁, Option.some.injEq] at hc₁
      subst hc₁
      refine ⟨slot, c, ?_, hreach.trans hx⟩
      simp [cursorAt_putCursor q slot slot _ hs]
    · rw [if_neg h₁] at hc₁
      refine ⟨slot₁, c₁, ?_, hx⟩
      rw [cursorAt_putCursor q slot slot₁ _ hs, if_neg h₁]
      exact hc₁
  refine ⟨h.forward, h.last, h.pending, ?_, ?_, ?_, ?_⟩
  · exact fun b b' hb hnext => h.closed b b' (hlive b hb) hnext
  · exact fun b hb hnext => h.opened b (hlive b hb) hnext
  · have := h.length_eq
    simpa [putCursor, Broadcast.put] using this
  · intro slot₁
    have hr := h.reads slot₁
    rw [cursorAt_putCursor q slot slot₁ _ hs] at hr ⊢
    rw [unreadAt_put a slot slot₁ _ hs']
    by_cases h₁ : slot₁ = slot
    · rw [if_pos h₁, if_pos h₁]
      exact hreads
    · rw [if_neg h₁] at hr
      rw [if_neg h₁, if_neg h₁]
      exact hr

theorem put_self {slot : Nat} {u : List (DeleteOperation W)} (h : a.unreadAt slot = some u) :
    a.put slot (some u) = a := by
  unfold Broadcast.unreadAt at h
  have hs : slot < a.unread.length := by
    by_contra hs
    rw [List.getElem?_eq_none (by omega)] at h
    simp at h
  rw [List.getElem?_eq_getElem hs] at h
  have hget : a.unread[slot] = some u := h
  unfold Broadcast.put
  rw [← hget, List.set_getElem_self]

/-- The flush that a cursor asks for at the end of the list. -/
theorem RefinesBy.flushed {slot : Nat} {c : DeleteCursor} (hs : slot < q.cursors.length)
    (h : (q.putCursor slot (some c)).RefinesBy a after) (hblock : c.block < q.blocks.length)
    (hnext : q.nextOf c.block = none) (hwriter : q.writer ≠ [])
    (hu : a.unreadAt slot = some (after c.block)) :
    ((q.flushed c.block).putCursor slot (some ⟨q.blocks.length, 0⟩)).RefinesBy a
      (Function.update after q.blocks.length []) := by
  set n := q.blocks.length with hn
  have hc : (q.putCursor slot (some c)).cursorAt slot = some c := by
    simp [cursorAt_putCursor q slot slot _ hs]
  have hliveC : (q.putCursor slot (some c)).Live c.block := ⟨slot, c, hc, .refl⟩
  obtain ⟨hafter, hlast⟩ := h.opened c.block hliveC hnext
  have hs' : slot < (q.flushed c.block).cursors.length := hs
  -- the new block is the only one that has come alive
  have hlive : ∀ x, ((q.flushed c.block).putCursor slot (some ⟨n, 0⟩)).Live x →
      x = n ∨ (q.putCursor slot (some c)).Live x ∧ x ≠ n := by
    rintro x ⟨slot₁, c₁, hc₁, hx⟩
    rw [cursorAt_putCursor _ slot slot₁ _ hs'] at hc₁
    by_cases h₁ : slot₁ = slot
    · rw [if_pos h₁, Option.some.injEq] at hc₁
      subst hc₁
      rcases Relation.ReflTransGen.cases_head hx with hx | ⟨y, hy, -⟩
      · exact Or.inl hx.symm
      · have hy' : (q.flushed c.block).nextOf n = some y := hy
        rw [nextOf_flushed hblock, if_neg (by omega), if_pos rfl] at hy'
        simp at hy'
    · rw [if_neg h₁] at hc₁
      rcases reach_flushed hblock hx with hx | hx
      · exact Or.inl hx
      · by_cases hxn : x = n
        · exact Or.inl hxn
        · refine Or.inr ⟨⟨slot₁, c₁, ?_, hx⟩, hxn⟩
          rw [cursorAt_putCursor q slot slot₁ _ hs, if_neg h₁]
          exact hc₁
  refine ⟨?_, ?_, ?_, ?_, ?_, ?_, ?_⟩
  · intro b b' hb
    have hb' : (q.flushed c.block).nextOf b = some b' := hb
    rw [nextOf_flushed hblock] at hb'
    show b < b' ∧ b' < (q.flushed c.block).blocks.length ∧ (q.flushed c.block).operationsOf b' ≠ []
    rw [length_flushed, operationsOf_flushed hblock]
    by_cases hbc : b = c.block
    · rw [if_pos hbc, Option.some.injEq] at hb'
      subst hb'
      rw [if_pos rfl]
      exact ⟨by omega, by omega, hwriter⟩
    · rw [if_neg hbc] at hb'
      by_cases hbn : b = q.blocks.length
      · rw [if_pos hbn] at hb'
        simp at hb'
      · rw [if_neg hbn] at hb'
        obtain ⟨h1, h2, h3⟩ := h.forward b b' hb'
        have h2' : b' < q.blocks.length := h2
        rw [if_neg (by omega)]
        exact ⟨h1, by omega, h3⟩
  · intro l hl
    have hl' : some q.blocks.length = some l := hl
    obtain rfl := Option.some.inj hl'
    show q.blocks.length < (q.flushed c.block).blocks.length ∧
      (q.flushed c.block).nextOf q.blocks.length = none
    rw [length_flushed, nextOf_flushed hblock, if_neg (by omega), if_pos rfl]
    exact ⟨by omega, rfl⟩
  · exact List.nil_suffix
  · intro b b' hb hnext'
    have hnext'' : (q.flushed c.block).nextOf b = some b' := hnext'
    rw [nextOf_flushed hblock] at hnext''
    show _ = (q.flushed c.block).operationsOf b' ++ _
    rw [operationsOf_flushed hblock]
    rcases hlive b hb with hbn | ⟨hb, hbn⟩
    · rw [if_neg (by omega), if_pos hbn] at hnext''
      simp at hnext''
    · rw [Function.update_of_ne hbn]
      by_cases hbc : b = c.block
      · rw [if_pos hbc, Option.some.injEq] at hnext''
        subst hnext''
        rw [if_pos rfl, Function.update_self, List.append_nil, hbc]
        exact hafter
      · rw [if_neg hbc, if_neg hbn] at hnext''
        have hb' : b' < q.blocks.length := (h.forward b b' hnext'').2.1
        rw [if_neg (by omega), Function.update_of_ne (by omega)]
        exact h.closed b b' hb hnext''
  · intro b hb hnext'
    have hnext'' : (q.flushed c.block).nextOf b = none := hnext'
    rw [nextOf_flushed hblock] at hnext''
    rcases hlive b hb with hbn | ⟨hb, hbn⟩
    · subst hbn
      rw [Function.update_self]
      exact ⟨rfl, rfl⟩
    · -- the only open end before the flush was the block that is closed now
      by_cases hbc : b = c.block
      · simp [hbc] at hnext''
      · rw [if_neg hbc, if_neg hbn] at hnext''
        have hlast' := (h.opened b hb hnext'').2
        rw [hlast, Option.some.injEq] at hlast'
        exact absurd hlast'.symm hbc
  · have hlen := h.length_eq
    simpa [putCursor, DeleteQueue.flushed, close, allocLast] using hlen
  · intro slot₁
    have hr := h.reads slot₁
    rw [cursorAt_putCursor q slot slot₁ _ hs] at hr
    rw [cursorAt_putCursor _ slot slot₁ _ hs']
    by_cases h₁ : slot₁ = slot
    · rw [if_pos h₁, h₁, hu]
      show n < (q.flushed c.block).blocks.length ∧
        0 ≤ ((q.flushed c.block).operationsOf n).length ∧
        after c.block = ((q.flushed c.block).operationsOf n).drop 0 ++
          Function.update after n [] n
      rw [length_flushed, operationsOf_flushed hblock, if_pos rfl, Function.update_self,
        List.drop_zero, List.append_nil]
      exact ⟨by omega, Nat.zero_le _, hafter⟩
    · rw [if_neg h₁] at hr ⊢
      refine hr.frame fun b hb => ?_
      have hb' : b < q.blocks.length := hb
      show b < (q.flushed c.block).blocks.length ∧
        (q.flushed c.block).operationsOf b = q.operationsOf b ∧ _
      rw [length_flushed, operationsOf_flushed hblock, if_neg (by omega),
        Function.update_of_ne (by omega)]
      exact ⟨by omega, rfl, rfl⟩

/-- **Loading a block.** Whatever `load_block_if_required` does to the blocks, the cursor keeps its
    reading list; it then stands on an operation, or the list is empty. -/
theorem refines_load {slot : Nat} {c : DeleteCursor} (hs : slot < q.cursors.length)
    (h : q.RefinesWith slot c a) :
    ∃ q' c' ok, q.loadBlockIfRequired c = (q', c', ok) ∧ slot < q'.cursors.length ∧
      q'.RefinesWith slot c' a ∧
      (if ok then c'.pos < (q'.operationsOf c'.block).length else a.unreadAt slot = some []) := by
  have hwith := h
  obtain ⟨after, h⟩ := h
  have hc : (q.putCursor slot (some c)).cursorAt slot = some c := by
    simp [cursorAt_putCursor q slot slot _ hs]
  obtain ⟨u, hu, hblock, hpos, heq⟩ := h.unreadAt hc
  have hblock' : c.block < q.blocks.length := hblock
  unfold loadBlockIfRequired
  by_cases hlen : (q.operationsOf c.block).length ≤ c.pos
  · rw [if_pos hlen]
    have huafter : u = after c.block := by
      have hdrop : ((q.putCursor slot (some c)).operationsOf c.block).drop c.pos = [] :=
        List.drop_eq_nil_of_le hlen
      rw [heq, hdrop, List.nil_append]
    have hlive : (q.putCursor slot (some c)).Live c.block := ⟨slot, c, hc, .refl⟩
    cases hnext : q.nextOf c.block with
    | some b' =>
      -- the pointer is closed: go on to that block
      have hload : q.nextBlock c.block = (q, some b') := by simp [nextBlock, hnext]
      rw [hload]
      obtain ⟨-, hb', hne⟩ := h.forward c.block b' hnext
      refine ⟨q, ⟨b', 0⟩, true, rfl, hs, ⟨after, ?_⟩, List.length_pos_iff.mpr hne⟩
      rw [← put_self hu]
      refine h.moveCursor hs (Relation.ReflTransGen.single hnext) ⟨hb', Nat.zero_le _, ?_⟩
      rw [huafter, List.drop_zero]
      exact h.closed c.block b' hlive hnext
    | none =>
      obtain ⟨hafter, -⟩ := h.opened c.block hlive hnext
      by_cases hw : q.writer = []
      · -- nothing pending: the cursor has read everything
        have hload : q.nextBlock c.block = (q, none) := by simp [nextBlock, hnext, flush, hw]
        rw [hload]
        refine ⟨q, c, false, rfl, hs, hwith, ?_⟩
        rw [if_neg Bool.false_ne_true, hu, huafter, hafter]
        exact congrArg some hw
      · have hload : q.nextBlock c.block = (q.flushed c.block, some q.blocks.length) := by
          simp [nextBlock, hnext, flush, hw, flushed]
        rw [hload]
        refine ⟨_, _, true, rfl, hs,
          ⟨_, h.flushed hs hblock' hnext hw (by rw [hu, huafter])⟩, ?_⟩
        rw [if_pos rfl, operationsOf_flushed hblock', if_pos rfl]
        exact List.length_pos_iff.mpr hw
  · rw [if_neg hlen]
    exact ⟨q, c, true, rfl, hs, hwith, Nat.not_le.mp hlen⟩

/-- A cursor that stands on an operation reads it first. -/
theorem RefinesWith.onOperation {slot : Nat} {c : DeleteCursor} (hs : slot < q.cursors.length)
    (h : q.RefinesWith slot c a) (hpos : c.pos < (q.operationsOf c.block).length) :
    ∃ op u, a.unreadAt slot = some (op :: u) ∧ (q.operationsOf c.block)[c.pos]? = some op ∧
      q.RefinesWith slot { c with pos := c.pos + 1 } (a.put slot (some u)) := by
  obtain ⟨after, h⟩ := h
  have hc : (q.putCursor slot (some c)).cursorAt slot = some c := by
    simp [cursorAt_putCursor q slot slot _ hs]
  obtain ⟨u, hu, hblock, -, heq⟩ := h.unreadAt hc
  have heq' : u = (q.operationsOf c.block).drop c.pos ++ after c.block := heq
  rw [List.drop_eq_getElem_cons hpos, List.cons_append] at heq'
  refine ⟨(q.operationsOf c.block)[c.pos], _, heq' ▸ hu, List.getElem?_eq_getElem hpos, after, ?_⟩
  exact h.moveCursor hs Relation.ReflTransGen.refl ⟨hblock, hpos, rfl⟩

/-! ### The reading calls -/

section Reading

variable {slot : Nat} {c : DeleteCursor} {u : List (DeleteOperation W)}

theorem refines_get (hs : slot < q.cursors.length) (h : q.RefinesWith slot c a)
    (hu : a.unreadAt slot = some u) :
    ∃ q' c', q.get c = (q', c', u.head?) ∧ slot < q'.cursors.length ∧ q'.RefinesWith slot c' a ∧
      (u ≠ [] → c'.pos < (q'.operationsOf c'.block).length) := by
  obtain ⟨q', c', ok, hload, hs', hwith, hok⟩ := refines_load hs h
  refine ⟨q', c', ?_, hs', hwith, ?_⟩
  · rw [get, hload]
    cases ok with
    | true =>
      obtain ⟨op, u', hu', hop, -⟩ := hwith.onOperation hs' hok
      rw [hu, Option.some.injEq] at hu'
      simp [hop, hu']
    | false =>
      rw [if_neg Bool.false_ne_true, hu, Option.some.injEq] at hok
      simp [hok]
  · intro hne
    cases ok with
    | true => exact hok
    | false =>
      rw [if_neg Bool.false_ne_true, hu, Option.some.injEq] at hok
      exact absurd hok hne

theorem refines_advance (hs : slot < q.cursors.length) (h : q.RefinesWith slot c a)
    (hu : a.unreadAt slot = some u) :
    ∃ q' c', q.advance c = (q', c', !u.isEmpty) ∧ slot < q'.cursors.length ∧
      q'.RefinesWith slot c' (a.put slot (some u.tail)) := by
  obtain ⟨q', c', ok, hload, hs', hwith, hok⟩ := refines_load hs h
  rw [advance, hload]
  cases ok with
  | true =>
    obtain ⟨op, u', hu', -, hnext⟩ := hwith.onOperation hs' hok
    rw [hu, Option.some.injEq] at hu'
    subst hu'
    exact ⟨q', _, rfl, hs', hnext⟩
  | false =>
    rw [if_neg Bool.false_ne_true, hu, Option.some.injEq] at hok
    subst hok
    refine ⟨q', c', rfl, hs', ?_⟩
    rw [List.tail_nil, put_self hu]
    exact hwith

/-- One round of `skip_to` passes an operation with a smaller opstamp, or stops. -/
theorem refines_skipRound (targetOpstamp : Nat) (hs : slot < q.cursors.length)
    (h : q.RefinesWith slot c a) (hu : a.unreadAt slot = some u) :
    ∃ q' c' more, q.skipRound c targetOpstamp = (q', c', more) ∧ slot < q'.cursors.length ∧
      if more then ∃ op rest, u = op :: rest ∧ op.opstamp < targetOpstamp ∧
        q'.RefinesWith slot c' (a.put slot (some rest))
      else (∀ op ∈ u.head?, targetOpstamp ≤ op.opstamp) ∧ q'.RefinesWith slot c' a := by
  obtain ⟨q₁, c₁, hget, hs₁, hwith₁, hpos₁⟩ := refines_get hs h hu
  rw [skipRound, hget]
  cases u with
  | nil => exact ⟨q₁, c₁, false, rfl, hs₁, by simp, hwith₁⟩
  | cons op rest =>
    by_cases hop : op.opstamp < targetOpstamp
    · obtain ⟨q₂, c₂, hadv, hs₂, hwith₂⟩ := refines_advance hs₁ hwith₁ hu
      refine ⟨q₂, c₂, true, ?_, hs₂, op, rest, rfl, hop, hwith₂⟩
      simp [hop, hadv]
    · refine ⟨q₁, c₁, false, ?_, hs₁, ?_, hwith₁⟩
      · simp [hop]
      · intro op' hop'
        rw [List.head?_cons, Option.mem_some_iff] at hop'
        exact hop' ▸ Nat.not_lt.mp hop

theorem unreadAt_put_self {x : Option (List (DeleteOperation W))} (hu : a.unreadAt slot = some u) :
    (a.put slot x).unreadAt slot = x := by
  have hs : slot < a.unread.length := by
    by_contra hs
    unfold Broadcast.unreadAt at hu
    rw [List.getElem?_eq_none (by omega)] at hu
    simp at hu
  simp [unreadAt_put a slot slot x hs]

theorem put_put (a : Broadcast W) (x y : Option (List (DeleteOperation W))) :
    (a.put slot x).put slot y = a.put slot y := by
  simp [Broadcast.put]

/-- The loop of `skip_to` drops the operations below the target. -/
theorem refines_skipLoop (targetOpstamp fuel : Nat) (hs : slot < q.cursors.length)
    (h : q.RefinesWith slot c a) (hu : a.unreadAt slot = some u) (hfuel : u.length < fuel) :
    ∃ q' c', skipLoop targetOpstamp fuel q c = (q', c') ∧ slot < q'.cursors.length ∧
      q'.RefinesWith slot c'
        (a.put slot (some (u.dropWhile fun op => op.opstamp < targetOpstamp))) := by
  induction fuel generalizing q c a u with
  | zero => omega
  | succ fuel ih =>
    obtain ⟨q₁, c₁, more, hround, hs₁, hres⟩ := refines_skipRound targetOpstamp hs h hu
    rw [skipLoop, hround]
    cases more with
    | true =>
      obtain ⟨op, rest, rfl, hop, hwith⟩ := hres
      obtain ⟨q₂, c₂, hloop, hs₂, hwith₂⟩ := ih hs₁ hwith (unreadAt_put_self hu) (by
        rw [List.length_cons] at hfuel
        omega)
      refine ⟨q₂, c₂, hloop, hs₂, ?_⟩
      rw [put_put] at hwith₂
      rw [List.dropWhile_cons_of_pos (by simpa using hop)]
      exact hwith₂
    | false =>
      obtain ⟨hstop, hwith⟩ := hres
      refine ⟨q₁, c₁, rfl, hs₁, ?_⟩
      have hdrop : (u.dropWhile fun op => decide (op.opstamp < targetOpstamp)) = u := by
        cases u with
        | nil => rfl
        | cons op rest =>
          have := hstop op rfl
          rw [List.dropWhile_cons_of_neg (by simpa using this)]
      rw [hdrop, put_self hu]
      exact hwith

/-- What follows a live block is no longer than the later blocks and the buffer together. -/
theorem RefinesBy.length_after_le {after : Nat → List (DeleteOperation W)}
    (h : q.RefinesBy a after) (k : Nat) {b : Nat} (hb : q.Live b) (hk : q.blocks.length ≤ b + k) :
    (after b).length ≤
      ((q.blocks.drop (b + 1)).map fun block => block.operations.length).sum + q.writer.length := by
  induction k generalizing b with
  | zero =>
    cases hnext : q.nextOf b with
    | none =>
      rw [(h.opened b hb hnext).1]
      omega
    | some b' =>
      have := h.forward b b' hnext
      omega
  | succ k ih =>
    cases hnext : q.nextOf b with
    | none =>
      rw [(h.opened b hb hnext).1]
      omega
    | some b' =>
      obtain ⟨hlt, hlen, -⟩ := h.forward b b' hnext
      have hlive : q.Live b' := by
        obtain ⟨slot, c, hc, hreach⟩ := hb
        exact ⟨slot, c, hc, hreach.tail hnext⟩
      have hrest := ih hlive (by omega)
      have hsplit : q.blocks.drop (b + 1) =
          (q.blocks.drop (b + 1)).take (b' - (b + 1)) ++ q.blocks[b'] :: q.blocks.drop (b' + 1) := by
        rw [← List.drop_eq_getElem_cons hlen]
        nth_rewrite 1 [← List.take_append_drop (b' - (b + 1)) (q.blocks.drop (b + 1))]
        rw [List.drop_drop]
        congr 2
        omega
      have hops : q.operationsOf b' = q.blocks[b'].operations := by
        simp [operationsOf, List.getElem?_eq_getElem hlen]
      rw [h.closed b b' hb hnext, hsplit, List.map_append, List.sum_append, List.map_cons,
        List.sum_cons, List.length_append, hops]
      omega

/-- So a cursor never has more to read than the queue holds. -/
theorem RefinesWith.length_le_size (hs : slot < q.cursors.length) (h : q.RefinesWith slot c a)
    (hu : a.unreadAt slot = some u) : u.length ≤ q.size := by
  obtain ⟨after, h⟩ := h
  have hc : (q.putCursor slot (some c)).cursorAt slot = some c := by
    simp [cursorAt_putCursor q slot slot _ hs]
  obtain ⟨u', hu', hblock, -, heq⟩ := h.unreadAt hc
  rw [hu, Option.some.injEq] at hu'
  subst hu'
  have hblock' : c.block < q.blocks.length := hblock
  have hafter := h.length_after_le q.blocks.length (b := c.block) ⟨slot, c, hc, .refl⟩
    (Nat.le_add_left _ _)
  have hafter' : (after c.block).length ≤
      ((q.blocks.drop (c.block + 1)).map fun block => block.operations.length).sum +
        q.writer.length := hafter
  have hops : q.operationsOf c.block = (q.blocks[c.block]).operations := by
    simp [operationsOf, List.getElem?_eq_getElem hblock']
  have hsum : ((q.blocks[c.block]).operations.length) +
      ((q.blocks.drop (c.block + 1)).map fun block => block.operations.length).sum ≤
        (q.blocks.map fun block => block.operations.length).sum := by
    conv_rhs => rw [← List.take_append_drop c.block q.blocks]
    rw [List.drop_eq_getElem_cons hblock', List.map_append, List.sum_append, List.map_cons,
      List.sum_cons]
    omega
  have hdrop : ((q.operationsOf c.block).drop c.pos).length ≤
      (q.blocks[c.block]).operations.length := by
    rw [List.length_drop, hops]
    omega
  have heq' : u.length = ((q.operationsOf c.block).drop c.pos).length + (after c.block).length := by
    rw [heq, List.length_append]
    rfl
  unfold size
  omega

end Reading

/-! ### New cursors -/

theorem cursorAt_append (q : DeleteQueue W) (x : Option DeleteCursor) (slot : Nat) :
    ({ q with cursors := q.cursors ++ [x] } : DeleteQueue W).cursorAt slot =
      if slot = q.cursors.length then x else q.cursorAt slot := by
  unfold cursorAt
  rw [getElem?_concat]
  split <;> rfl

theorem unreadAt_append (a : Broadcast W) (x : Option (List (DeleteOperation W))) (slot : Nat) :
    ({ a with unread := a.unread ++ [x] } : Broadcast W).unreadAt slot =
      if slot = a.unread.length then x else a.unreadAt slot := by
  unfold Broadcast.unreadAt
  rw [getElem?_concat]
  split <;> rfl

variable {after : Nat → List (DeleteOperation W)}

/-- A new cursor on a block that is alive. -/
theorem RefinesBy.addCursor (h : q.RefinesBy a after) {c : DeleteCursor}
    {u : List (DeleteOperation W)} (hlive : q.Live c.block)
    (hreads : q.Reads after (some c) (some u)) :
    ({ q with cursors := q.cursors ++ [some c] } : DeleteQueue W).RefinesBy
      { a with unread := a.unread ++ [some u] } after := by
  have hsub : ∀ x, ({ q with cursors := q.cursors ++ [some c] } : DeleteQueue W).Live x →
      q.Live x := by
    rintro x ⟨slot, c₁, hc₁, hx⟩
    rw [cursorAt_append] at hc₁
    by_cases hs : slot = q.cursors.length
    · rw [if_pos hs, Option.some.injEq] at hc₁
      subst hc₁
      obtain ⟨slot₂, c₂, hc₂, hreach⟩ := hlive
      exact ⟨slot₂, c₂, hc₂, hreach.trans hx⟩
    · rw [if_neg hs] at hc₁
      exact ⟨slot, c₁, hc₁, hx⟩
  refine ⟨h.forward, h.last, h.pending, ?_, ?_, ?_, ?_⟩
  · exact fun b b' hb hnext => h.closed b b' (hsub b hb) hnext
  · exact fun b hb hnext => h.opened b (hsub b hb) hnext
  · simp [h.length_eq]
  · intro slot
    rw [cursorAt_append, unreadAt_append, h.length_eq]
    by_cases hs : slot = a.unread.length
    · rw [if_pos hs, if_pos hs]
      exact hreads
    · rw [if_neg hs, if_neg hs]
      exact h.reads slot

theorem nextOf_allocLast (q : DeleteQueue W) (operations : List (DeleteOperation W)) (x : Nat) :
    (q.allocLast operations).nextOf x = q.nextOf x := by
  unfold nextOf allocLast
  rw [getElem?_concat]
  by_cases hx : x = q.blocks.length
  · rw [if_pos hx, List.getElem?_eq_none (by omega)]
    rfl
  · simp [hx]

theorem operationsOf_allocLast_nil (q : DeleteQueue W) (x : Nat) :
    (q.allocLast []).operationsOf x = q.operationsOf x := by
  unfold operationsOf allocLast
  rw [getElem?_concat]
  by_cases hx : x = q.blocks.length
  · rw [if_pos hx, List.getElem?_eq_none (by omega)]
    rfl
  · simp [hx]

theorem nextOf_length (q : DeleteQueue W) : q.nextOf q.blocks.length = none := by
  simp [nextOf]

theorem reach_allocLast {operations : List (DeleteOperation W)} {x y : Nat}
    (h : (q.allocLast operations).Reach x y) : q.Reach x y := by
  induction h with
  | refl => exact .refl
  | @tail z y _ hstep ih =>
    have hz : (q.allocLast operations).nextOf z = some y := hstep
    exact ih.tail ((q.nextOf_allocLast operations z).symm.trans hz)

/-- A block that is alive once there is a cursor on a new one is the new one, or was alive. -/
theorem RefinesBy.live_allocLast (h : q.RefinesBy a after) {x : Nat}
    (hx : ({ q.allocLast [] with
      cursors := q.cursors ++ [some ⟨q.blocks.length, 0⟩] } : DeleteQueue W).Live x) :
    x = q.blocks.length ∨ q.Live x ∧ x < q.blocks.length := by
  obtain ⟨slot, c, hc, hreach⟩ := hx
  have hreach' : q.Reach c.block x := reach_allocLast hreach
  have hc' := (cursorAt_append (q.allocLast []) (some ⟨q.blocks.length, 0⟩) slot).symm.trans hc
  split at hc'
  · -- nothing is behind the new block
    obtain rfl := Option.some.inj hc'
    rcases Relation.ReflTransGen.cases_head hreach' with hx | ⟨y, hy, -⟩
    · exact .inl hx.symm
    · exact absurd (q.nextOf_length.symm.trans hy) (Option.some_ne_none y).symm
  · obtain ⟨-, -, hblock, -⟩ := h.unreadAt hc'
    refine .inr ⟨⟨slot, c, hc', hreach'⟩, ?_⟩
    rcases Relation.ReflTransGen.cases_tail hreach' with hx | ⟨y, -, hy⟩
    · exact hx ▸ hblock
    · exact (h.forward y x hy).2.1

/-- A new empty block as the last one, while the old last block is dead. -/
theorem RefinesBy.allocLast (h : q.RefinesBy a after)
    (hdead : ∀ l, q.lastBlock = some l → ¬q.Live l) :
    ({ q.allocLast [] with
        cursors := q.cursors ++ [some ⟨q.blocks.length, 0⟩] } : DeleteQueue W).RefinesBy
      { a with unread := a.unread ++ [some q.writer] }
      (Function.update after q.blocks.length q.writer) := by
  set n := q.blocks.length with hn
  set q' : DeleteQueue W := { q.allocLast [] with cursors := q.cursors ++ [some ⟨n, 0⟩] } with hq'
  have hnext : ∀ x, q'.nextOf x = q.nextOf x := q.nextOf_allocLast []
  have hops : ∀ x, q'.operationsOf x = q.operationsOf x := q.operationsOf_allocLast_nil
  have hnextN : q.nextOf n = none := q.nextOf_length
  have hlen : q'.blocks.length = n + 1 := List.length_append
  have hlive : ∀ x, q'.Live x → x = n ∨ q.Live x ∧ x < n := fun x => h.live_allocLast
  refine ⟨?_, ?_, h.pending, ?_, ?_, ?_, ?_⟩
  · intro b b' hb
    rw [hnext] at hb
    obtain ⟨h1, h2, h3⟩ := h.forward b b' hb
    rw [hlen, hops]
    exact ⟨h1, by omega, h3⟩
  · intro l hl
    have hl' : some n = some l := hl
    obtain rfl := Option.some.inj hl'
    rw [hlen, hnext]
    exact ⟨by omega, hnextN⟩
  · -- a closed block is an old one
    intro b b' hb hb'
    rw [hnext] at hb'
    rw [hops]
    rcases hlive b hb with rfl | ⟨hb, hlt⟩
    · rw [hnextN] at hb'
      cases hb'
    · have := (h.forward b b' hb').2.1
      rw [Function.update_of_ne (by omega), Function.update_of_ne (by omega)]
      exact h.closed b b' hb hb'
  · -- the open block is the new one, since the old last block is dead
    intro b hb hb'
    rw [hnext] at hb'
    rcases hlive b hb with rfl | ⟨hb, hlt⟩
    · rw [Function.update_self]
      exact ⟨rfl, rfl⟩
    · exact absurd hb (hdead b (h.opened b hb hb').2)
  · show (q.cursors ++ [_]).length = (a.unread ++ [_]).length
    simp [h.length_eq]
  · intro slot
    have hcur : q'.cursorAt slot =
        if slot = q.cursors.length then some ⟨n, 0⟩ else q.cursorAt slot :=
      cursorAt_append (q.allocLast []) (some ⟨n, 0⟩) slot
    rw [hcur, unreadAt_append, h.length_eq]
    by_cases hs : slot = a.unread.length
    · rw [if_pos hs, if_pos hs]
      refine ⟨by rw [hlen]; exact Nat.lt_succ_self n, Nat.zero_le _, ?_⟩
      have hnone : q.operationsOf n = [] := by
        unfold operationsOf
        rw [List.getElem?_eq_none (by omega)]
        rfl
      simp [hops, hnone]
    · rw [if_neg hs, if_neg hs]
      refine (h.reads slot).frame fun b hb => ?_
      rw [hlen, hops, Function.update_of_ne (by omega)]
      exact ⟨by omega, rfl, rfl⟩

/-- `cursor()` gives a cursor that still sees exactly the operations in the buffer. -/
theorem refines_cursor (h : q.Refines a) :
    ∃ u, u <:+ a.log ∧ q.cursor.2 = a.unread.length ∧
      q.cursor.1.Refines { a with unread := a.unread ++ [some u] } := by
  obtain ⟨after, h⟩ := h
  refine ⟨q.writer, h.pending, ?_⟩
  unfold cursor getLastBlock
  cases hup : q.upgradeLast with
  | some l =>
    refine ⟨h.length_eq, after, ?_⟩
    obtain ⟨hl, hlive⟩ := Option.filter_eq_some_iff.mp hup
    have hlive' : q.Live l := (live_iff h.forward l).mp hlive
    obtain ⟨hlen, hnext⟩ := h.last l hl
    refine h.addCursor hlive' ⟨hlen, le_rfl, ?_⟩
    rw [List.drop_length, List.nil_append]
    exact ((h.opened l hlive' hnext).1).symm
  | none =>
    have hempty : (q.allocLast []).operationsOf q.blocks.length = [] := by
      simp [operationsOf, DeleteQueue.allocLast]
    refine ⟨h.length_eq, Function.update after q.blocks.length q.writer, ?_⟩
    simp only [hempty, List.length_nil]
    apply h.allocLast
    intro l hl hlive
    have hlive' := (live_iff h.forward l).mpr hlive
    rw [upgradeLast, hl] at hup
    simp [hlive'] at hup

/-! ### Every call -/

theorem refines_push (h : q.Refines a) (op : DeleteOperation W) :
    (q.push op).Refines ⟨a.log ++ [op], a.unread.map (Option.map (· ++ [op]))⟩ := by
  obtain ⟨after, h⟩ := h
  refine ⟨fun b => after b ++ [op], h.forward, h.last, ?_, ?_, ?_, ?_, ?_⟩
  · obtain ⟨t, ht⟩ := h.pending
    exact ⟨t, by rw [← ht, push, List.append_assoc]⟩
  · intro b b' hb hnext
    rw [h.closed b b' hb hnext, List.append_assoc]
    rfl
  · intro b hb hnext
    obtain ⟨hafter, hlast⟩ := h.opened b hb hnext
    exact ⟨by rw [hafter]; rfl, hlast⟩
  · rw [List.length_map]
    exact h.length_eq
  · intro slot
    have hr := h.reads slot
    have hu : (⟨a.log ++ [op], a.unread.map (Option.map (· ++ [op]))⟩ : Broadcast W).unreadAt slot =
        (a.unreadAt slot).map (· ++ [op]) := by
      unfold Broadcast.unreadAt
      rw [List.getElem?_map]
      rcases a.unread[slot]? with _ | _ | u <;> rfl
    have hc : (q.push op).cursorAt slot = q.cursorAt slot := rfl
    rw [hu, hc]
    cases hcur : q.cursorAt slot with
    | none =>
      rw [hcur] at hr
      cases hun : a.unreadAt slot with
      | none => trivial
      | some u =>
        rw [hun] at hr
        exact hr.elim
    | some c =>
      rw [hcur] at hr
      cases hun : a.unreadAt slot with
      | none =>
        rw [hun] at hr
        exact hr.elim
      | some u =>
        rw [hun] at hr
        obtain ⟨hblock, hpos, heq⟩ := hr
        refine ⟨hblock, hpos, ?_⟩
        rw [heq]
        exact List.append_assoc _ _ _

theorem refines_drop {slot : Nat} {c : DeleteCursor} (h : q.Refines a)
    (hc : q.cursorAt slot = some c) : (q.putCursor slot none).Refines (a.put slot none) := by
  obtain ⟨after, h⟩ := h
  have hs := lt_of_cursorAt hc
  have hs' : slot < a.unread.length := h.length_eq ▸ hs
  have hsub : ∀ x, (q.putCursor slot none).Live x → q.Live x := by
    rintro x ⟨slot₁, c₁, hc₁, hx⟩
    rw [cursorAt_putCursor q slot slot₁ _ hs] at hc₁
    by_cases h₁ : slot₁ = slot
    · simp [h₁] at hc₁
    · rw [if_neg h₁] at hc₁
      exact ⟨slot₁, c₁, hc₁, hx⟩
  refine ⟨after, h.forward, h.last, h.pending, ?_, ?_, ?_, ?_⟩
  · exact fun b b' hb hnext => h.closed b b' (hsub b hb) hnext
  · exact fun b hb hnext => h.opened b (hsub b hb) hnext
  · simpa [putCursor, Broadcast.put] using h.length_eq
  · intro slot₁
    rw [cursorAt_putCursor q slot slot₁ _ hs, unreadAt_put a slot slot₁ _ hs']
    by_cases h₁ : slot₁ = slot
    · rw [if_pos h₁, if_pos h₁]
      trivial
    · rw [if_neg h₁, if_neg h₁]
      exact h.reads slot₁

/-- **One call.** Every call of the delete queue is a call of the abstract queue with the same
    reply. -/
theorem refines_step (h : q.Refines a) (call : Call W) :
    ∃ a', Broadcast.Step a call (q.step call).2 a' ∧ (q.step call).1.Refines a' := by
  obtain ⟨after, hby⟩ := id h
  -- a call on a slot: the slot is empty on both sides, or holds a cursor and its reading list
  have hslot : ∀ slot, (q.cursorAt slot = none ∧ a.unreadAt slot = none) ∨
      ∃ c u, q.cursorAt slot = some c ∧ a.unreadAt slot = some u ∧ slot < q.cursors.length ∧
        q.RefinesWith slot c a := by
    intro slot
    cases hc : q.cursorAt slot with
    | none => exact Or.inl ⟨rfl, hby.unreadAt_none hc⟩
    | some c =>
      obtain ⟨u, hu, -⟩ := hby.unreadAt hc
      refine Or.inr ⟨c, u, rfl, hu, lt_of_cursorAt hc, ?_⟩
      rw [RefinesWith, putCursor_self hc]
      exact h
  cases call with
  | push op => exact ⟨_, .push op, refines_push h op⟩
  | cursor =>
    obtain ⟨u, hu, hslot', hnew⟩ := refines_cursor h
    refine ⟨_, ?_, hnew⟩
    show Broadcast.Step a .cursor (.slot q.cursor.2) _
    rw [hslot']
    exact .cursor u hu
  | clone slot =>
    rcases hslot slot with ⟨hc, hu⟩ | ⟨c, u, hc, hu, -, -⟩
    · simp only [step, hc]
      exact ⟨a, .dangling _ slot rfl hu, h⟩
    · simp only [step, hc, hby.length_eq]
      refine ⟨_, .clone slot u hu, after, hby.addCursor ⟨slot, c, hc, .refl⟩ ?_⟩
      have hr := hby.reads slot
      rw [hc, hu] at hr
      exact hr
  | drop slot =>
    rcases hslot slot with ⟨hc, hu⟩ | ⟨c, u, hc, hu, -, -⟩
    · simp only [step, hc]
      exact ⟨a, .dangling _ slot rfl hu, h⟩
    · simp only [step, hc]
      exact ⟨_, .drop slot u hu, refines_drop h hc⟩
  | get slot =>
    rcases hslot slot with ⟨hc, hu⟩ | ⟨c, u, hc, hu, hs, hwith⟩
    · simp only [step, hc]
      exact ⟨a, .dangling _ slot rfl hu, h⟩
    · obtain ⟨q', c', hget, -, hwith', -⟩ := refines_get hs hwith hu
      simp only [step, hc, hget]
      exact ⟨a, .get slot u hu, hwith'⟩
  | advance slot =>
    rcases hslot slot with ⟨hc, hu⟩ | ⟨c, u, hc, hu, hs, hwith⟩
    · simp only [step, hc]
      exact ⟨a, .dangling _ slot rfl hu, h⟩
    · obtain ⟨q', c', hadv, -, hwith'⟩ := refines_advance hs hwith hu
      simp only [step, hc, hadv]
      exact ⟨_, .advance slot u hu, hwith'⟩
  | skipRound slot targetOpstamp =>
    rcases hslot slot with ⟨hc, hu⟩ | ⟨c, u, hc, hu, hs, hwith⟩
    · simp only [step, hc]
      exact ⟨a, .dangling _ slot rfl hu, h⟩
    · obtain ⟨q', c', more, hround, -, hres⟩ := refines_skipRound targetOpstamp hs hwith hu
      simp only [step, hc, hround]
      cases more with
      | true =>
        obtain ⟨op, rest, rfl, hop, hwith'⟩ := hres
        exact ⟨_, .skipOver slot targetOpstamp op rest hu hop, hwith'⟩
      | false => exact ⟨a, .skipStop slot targetOpstamp u hu hres.1, hres.2⟩
  | skipTo slot targetOpstamp =>
    rcases hslot slot with ⟨hc, hu⟩ | ⟨c, u, hc, hu, hs, hwith⟩
    · simp only [step, hc]
      exact ⟨a, .dangling _ slot rfl hu, h⟩
    · have hsize := hwith.length_le_size hs hu
      obtain ⟨q', c', hloop, -, hwith'⟩ :=
        refines_skipLoop targetOpstamp (q.size + 1) hs hwith hu (by omega)
      simp only [step, hc, skipTo, hloop]
      exact ⟨_, .skipTo slot targetOpstamp u hu, hwith'⟩

theorem refines_new : (new : DeleteQueue W).Refines Broadcast.empty := by
  refine ⟨fun _ => [], ?_, ?_, List.nil_suffix, ?_, ?_, rfl, ?_⟩
  · intro b b' hb
    simp [nextOf, new] at hb
  · intro l hl
    simp [new] at hl
  · rintro b b' ⟨slot, c, hc, -⟩
    simp [cursorAt, new] at hc
  · rintro b ⟨slot, c, hc, -⟩
    simp [cursorAt, new] at hc
  · intro slot
    trivial

/-- A run from any queue that refines an abstract one. -/
theorem run_refines_from (calls : List (Call W)) :
    ∀ {q : DeleteQueue W} {a : Broadcast W}, q.Refines a → Broadcast.Run a calls (q.run calls) := by
  induction calls with
  | nil => exact fun _ => .nil _
  | cons call calls ih =>
    intro q a h
    obtain ⟨a', hstep, hnext⟩ := refines_step h call
    exact .cons hstep (ih hnext)

/-- **Nothing lost, nothing twice.** Every interleaving of calls on a new delete queue gets the
    replies of the broadcast queue: a cursor starts with some suffix of the operations pushed before
    it was created, every later push is added to what it has to read, and it reads that list in
    order. -/
theorem run_broadcast (calls : List (Call W)) :
    Broadcast.Run Broadcast.empty calls ((new : DeleteQueue W).run calls) :=
  run_refines_from calls refines_new

end DeleteQueue

end TeaclaveCrates.Tantivy
