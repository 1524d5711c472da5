import Mathlib.Data.List.TakeDrop

namespace TeaclaveCrates.Rayon

/-!
# rayon — bridging a producer to a consumer

`iter/plumbing/mod.rs`: how a parallel iterator is split, and what is made of the pieces.

* `Splitter`, `LengthSplitter` — when a job is split again;
* `bridgeProducerConsumer` — the recursion, whichever jobs are stolen;
* `reduce_eq` — reducing in parallel is the sequential fold;
* `pieces_spec` — the pieces, their order and their lengths.
-/

/-! ### Splitters -/

/-- How many splits are left. -/
structure Splitter where
  splits : Nat

/-- `none` is a splitter that is done. -/
def Splitter.trySplit (threads : Nat) (stolen : Bool) (s : Splitter) : Option Splitter :=
  if stolen then some ⟨max threads (s.splits / 2)⟩
  else if 0 < s.splits then some ⟨s.splits / 2⟩
  else none

/-- The same, with the least length of a piece. -/
structure LengthSplitter where
  inner : Splitter
  min : Nat
  one_le : 1 ≤ min

def LengthSplitter.new (threads min max len : Nat) : LengthSplitter :=
  let minSplits := len / Nat.max max 1
  ⟨⟨if threads < minSplits then minSplits else threads⟩, Nat.max min 1, Nat.le_max_right ..⟩

def LengthSplitter.trySplit (threads len : Nat) (stolen : Bool) (s : LengthSplitter) :
    Option LengthSplitter :=
  if s.min ≤ len / 2 then (s.inner.trySplit threads stolen).map ({ s with inner := · }) else none

/-- Only what has two items is split. The number of splits is halved at most. -/
theorem LengthSplitter.trySplit_some {threads len : Nat} {stolen : Bool} {s s' : LengthSplitter}
    (h : s.trySplit threads len stolen = some s') :
    0 < len / 2 ∧ s.min ≤ len / 2 ∧ s'.min = s.min ∧ s.inner.splits / 2 ≤ s'.inner.splits := by
  have := s.one_le
  unfold trySplit Splitter.trySplit at h
  split_ifs at h <;> cases h <;> simp <;> omega

theorem LengthSplitter.trySplit_none {threads len : Nat} {stolen : Bool} {s : LengthSplitter}
    (h : s.trySplit threads len stolen = none) : len / 2 < s.min ∨ s.inner.splits = 0 := by
  unfold trySplit Splitter.trySplit at h
  split_ifs at h <;> simp at h <;> omega

/-! ### The bridge -/

/-- What is split with the items: parts, the results of their folders, and the reducer. -/
structure Consumer (C α ρ : Type) where
  splitAt : C → Nat → C × C
  reduce : C → ρ → ρ → ρ
  full : C → Bool
  fold : C → List α → ρ

section Bridge

variable {C α ρ : Type} (ops : Consumer C α ρ) (threads : Nat) (migrated : List Bool → Bool)

/-- A producer is the items that it has left. `migrated` says for the way to a job whether the job
    was stolen. -/
def helper (path : List Bool) (stolen : Bool) (splitter : LengthSplitter) (producer : List α)
    (consumer : C) : ρ :=
  if ops.full consumer then ops.fold consumer []
  else match _h : splitter.trySplit threads producer.length stolen with
  | some splitter =>
    let mid := producer.length / 2
    let (left, right) := ops.splitAt consumer mid
    ops.reduce consumer
      (helper (false :: path) (migrated (false :: path)) splitter (producer.take mid) left)
      (helper (true :: path) (migrated (true :: path)) splitter (producer.drop mid) right)
  | none => ops.fold consumer producer
termination_by producer.length
decreasing_by
  all_goals
    have := (LengthSplitter.trySplit_some _h).1
    simp only [List.length_take, List.length_drop]
    omega

/-- `bridge_producer_consumer`. -/
def bridgeProducerConsumer (min max : Nat) (producer : List α) (consumer : C) : ρ :=
  helper ops threads migrated [] false (.new threads min max producer.length) producer consumer

end Bridge

/-- `iter/reduce.rs` -/
def reduceConsumer {α : Type} (identity : α) (op : α → α → α) : Consumer Unit α α where
  splitAt _ _ := ((), ())
  reduce _ := op
  full _ := false
  fold _ iter := iter.foldl op identity

/-- **Reducing in parallel.** Whatever is stolen, on any number of threads and with any bounds on
    the pieces, the result is that of the sequential fold. -/
theorem reduce_eq {α : Type} (op : α → α → α) [Std.Associative op] (identity : α)
    (hid : ∀ a, op a identity = a) (threads : Nat) (migrated : List Bool → Bool) (min max : Nat)
    (items : List α) :
    bridgeProducerConsumer (reduceConsumer identity op) threads migrated min max items () =
      items.foldl op identity := by
  unfold bridgeProducerConsumer
  fun_induction helper (reduceConsumer identity op) threads migrated [] false
      (LengthSplitter.new threads min max items.length) items () with
  | case1 => contradiction
  | case2 path stolen splitter items _ _ splitter' _ mid left right _ ihl ihr =>
    change op _ _ = _
    rw [ihl, ihr]
    refine List.foldl_assoc.symm.trans ?_
    rw [hid, ← List.foldl_append, List.take_append_drop]
  | case3 => rfl

/-- Joining lists, with every job stolen. -/
theorem reduce_eq_join : bridgeProducerConsumer (reduceConsumer [] (· ++ ·)) 2 (fun _ => true) 1 2
    [[1], [2, 3], [4]] () = [1, 2, 3, 4] :=
  reduce_eq (· ++ ·) [] List.append_nil 2 _ 1 2 [[1], [2, 3], [4]]

/-- The pieces by themselves. -/
def piecesConsumer (α : Type) : Consumer Unit α (List (List α)) where
  splitAt _ _ := ((), ())
  reduce _ := (· ++ ·)
  full _ := false
  fold _ iter := [iter]

/-- **The pieces.** They are the items in order. None of several is shorter than the least length,
    and one is longer than the greatest only where its halves would be too short. -/
theorem pieces_spec {α : Type} (threads : Nat) (migrated : List Bool → Bool) (min max : Nat)
    (items : List α) :
    let pieces := bridgeProducerConsumer (piecesConsumer α) threads migrated min max items ()
    pieces.flatten = items ∧ ∀ p ∈ pieces, (p = items ∨ Nat.max min 1 ≤ p.length) ∧
      (p.length ≤ Nat.max max 1 ∨ p.length / 2 < Nat.max min 1) := by
  have hmax : 1 ≤ Nat.max max 1 := Nat.le_max_right ..
  have hstart : items.length ≤ Nat.max max 1 *
      ((LengthSplitter.new threads min max items.length).inner.splits + 1) := by
    refine Nat.le_trans (Nat.le_of_lt (Nat.lt_mul_div_succ items.length hmax))
      (Nat.mul_le_mul_left _ (Nat.succ_le_succ ?_))
    dsimp only [LengthSplitter.new]
    split <;> omega
  have hmin : (LengthSplitter.new threads min max items.length).min = Nat.max min 1 := rfl
  unfold bridgeProducerConsumer
  generalize LengthSplitter.new threads min max items.length = splitter at *
  generalize Nat.max max 1 = m at *
  rw [← hmin]
  fun_induction helper (piecesConsumer α) threads migrated [] false splitter items () with
  | case1 => contradiction
  | case2 path stolen splitter items _ _ splitter' h mid left right _ ihl ihr =>
    obtain ⟨hpos, hle, hsame, hsplits⟩ := LengthSplitter.trySplit_some h
    -- twice the splits that are left suffice for the items, so the splits do for a half
    have htwice := Nat.mul_le_mul_left m (by omega :
      splitter.inner.splits + 1 ≤ 2 * (splitter'.inner.splits + 1))
    rw [Nat.mul_left_comm] at htwice
    have hl : (items.take mid).length = items.length / 2 := by grind
    have hr : (items.drop mid).length = items.length - items.length / 2 := by grind
    obtain ⟨hleft, hlefts⟩ := ihl (hsame.trans hmin) (by omega)
    obtain ⟨hright, hrights⟩ := ihr (hsame.trans hmin) (by omega)
    refine ⟨?_, fun p hp => ?_⟩
    · refine List.flatten_append.trans ?_
      rw [hleft, hright, List.take_append_drop]
    · rw [← hsame]
      refine (List.mem_append.mp hp).elim (fun hp => ?_) (fun hp => ?_)
      · exact (hlefts p hp).imp_left fun h => .inr (h.elim (by rintro rfl; omega) id)
      · exact (hrights p hp).imp_left fun h => .inr (h.elim (by rintro rfl; omega) id)
  | case3 path stolen splitter items _ _ h =>
    refine ⟨List.flatten_singleton, fun p hp => ?_⟩
    obtain rfl := List.mem_singleton.mp hp
    refine ⟨.inl rfl, (LengthSplitter.trySplit_none h).symm.imp_left fun hzero => ?_⟩
    rwa [hzero, Nat.zero_add, Nat.mul_one] at hstart

end TeaclaveCrates.Rayon
