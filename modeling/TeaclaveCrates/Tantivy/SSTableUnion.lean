import TeaclaveCrates.Lib.SortedRuns
import TeaclaveCrates.Tantivy.SSTableReading
import TeaclaveCrates.Tantivy.SSTableMerge

namespace TeaclaveCrates.Tantivy

open TeaclaveCrates.Lib

/-!
# tantivy — a merged table is the union

The heap of readers is a collection of sorted runs, and a round of the loop takes the least key out
of them.

* `mergedEntries` — the entries of a union, with the values of each key merged;
* `Held` — the runs that the readers in the heap stand in;
* `Held.head` — what looking at the head, taking its value and advancing it does to the runs;
* `addValues_spec`, `mergeLoop_spec` — the two loops;
* `IsTable`, `merge_spec` — tables, and what the merge of tables writes;
* `sstable_merge` — the stream of the merged table.
-/

variable {V : Type} [ValueCodec V] {M : Type} [ValueMerger M V]

/-! ### The merged entries -/

omit [ValueCodec V] in
/-- The entries of a union, with the values of each key merged. -/
def mergedEntries : M → List (Bytes × List V) → List (Bytes × V)
  | _, [] => []
  | merger, (_, []) :: union => mergedEntries merger union
  | merger, (key, value :: values) :: union =>
    let (valueMerger, merger) := ValueMerger.newValue merger value
    (key, ValueMerger.finish (M := M) (values.foldl ValueMerger.add valueMerger)) ::
      mergedEntries merger union

omit [ValueCodec V] in
theorem map_fst_mergedEntries (union : List (Bytes × List V)) :
    ∀ merger : M, (∀ u ∈ union, u.2 ≠ []) →
      (mergedEntries merger union).map Prod.fst = union.map Prod.fst := by
  induction union with
  | nil => intro merger _; rfl
  | cons u union ih =>
    intro merger hne
    obtain ⟨key, values⟩ := u
    obtain ⟨value, values, rfl⟩ := List.exists_cons_of_ne_nil (hne _ List.mem_cons_self)
    rw [mergedEntries, List.map_cons, List.map_cons,
      ih _ fun u hu => hne u (List.mem_cons_of_mem _ hu)]

/-! ### The heap -/

/-- The reader has taken the first entry of the run. -/
def Reader.Ahead (r : Reader V) : List (Bytes × V) → Prop
  | [] => False
  | e :: rest => r.key = e.1 ∧ r.value = pure e.2 ∧ r.At rest

/-- The runs that are not empty. -/
def liveRuns (runs : List (List (Bytes × V))) : List (List (Bytes × V)) :=
  runs.filter fun run => !run.isEmpty

section Heap

variable {heap : BinaryHeap V} {q : heap.Queue} {runs : List (List (Bytes × V))}

/-- The heap has a reader in each run that is not empty. -/
def Held (q : heap.Queue) (runs : List (List (Bytes × V))) : Prop :=
  ∃ runs', List.Forall₂ Reader.Ahead (heap.items q) runs' ∧ runs'.Perm (liveRuns runs)

theorem held_empty : Held heap.empty [] := by
  refine ⟨[], ?_, List.Perm.refl _⟩
  rw [heap.items_empty]
  exact List.Forall₂.nil

variable {readers : List (Reader V)} {runs' : List (List (Bytes × V))}

/-- The readers in any order. -/
theorem held_of_items (hitems : (heap.items q).Perm readers)
    (hahead : List.Forall₂ Reader.Ahead readers runs') (hruns : runs'.Perm (liveRuns runs)) :
    Held q runs := by
  obtain ⟨runs'', hahead', hperm⟩ := List.perm_comp_forall₂ hitems hahead
  exact ⟨runs'', hahead', hperm.trans hruns⟩

theorem Held.perm (h : Held q runs) (hperm : runs.Perm runs') :
    Held q runs' := by
  obtain ⟨readers, hahead, hruns⟩ := h
  exact ⟨readers, hahead, hruns.trans (hperm.filter _)⟩

/-- One reader more. -/
theorem Held.push {r : Reader V} {run : List (Bytes × V)} (h : Held q runs) (hr : r.Ahead run) :
    Held (heap.push q r) (run :: runs) := by
  obtain ⟨runs', hahead, hruns⟩ := h
  have hne : (!run.isEmpty) = true := by
    cases run with
    | nil => exact absurd hr id
    | cons e rest => rfl
  apply held_of_items (heap.items_push q r) (List.Forall₂.cons hr hahead)
  rw [liveRuns, List.filter_cons, if_pos hne]
  exact hruns.cons run

/-- A run that has nothing left. -/
theorem Held.push_nil (h : Held q runs) : Held q ([] :: runs) := h

theorem Held.eq_nil_of_peek (h : Held q runs) (hpeek : heap.peek q = none) :
    ∀ run ∈ runs, run = [] := by
  obtain ⟨runs', hahead, hruns⟩ := h
  rw [heap.peek_none q hpeek] at hahead
  cases hahead
  have hnil : liveRuns runs = [] := hruns.symm.eq_nil
  intro run hrun
  have hnot := List.filter_eq_nil_iff.mp hnil run hrun
  simpa using hnot

/-- **The head.** Its entry is at the least key, and when it is advanced its run loses it. -/
theorem Held.head {head : Reader V} (h : Held q runs) (hpeek : heap.peek q = some head) :
    ∃ key value tail others, runs.Perm (((key, value) :: tail) :: others) ∧
      head.key = key ∧ head.value = pure value ∧
      (∀ run ∈ runs, ∀ e ∈ run.head?, key ≤ e.1) ∧
      (heap.items q).length = (liveRuns others).length + 1 ∧
      ∃ q', advanceHead heap q head = pure q' ∧ Held q' (tail :: others) := by
  obtain ⟨runs', hahead, hruns⟩ := h
  obtain ⟨rest, hitems, hleast, hreplace, hpop⟩ := heap.peek_some q head hpeek
  -- the readers, the head in front
  obtain ⟨runs'', hahead', hperm⟩ := List.perm_comp_forall₂ hitems.symm hahead
  have hlive := hperm.trans hruns
  obtain ⟨run, others', hhead, hrest, rfl⟩ := List.forall₂_cons_left_iff.mp hahead'
  obtain ⟨⟨key, value⟩, tail, rfl⟩ : ∃ e tail, run = e :: tail := by
    cases run with
    | nil => exact absurd hhead id
    | cons e tail => exact ⟨e, tail, rfl⟩
  obtain ⟨hkey, hvalue, hat⟩ := hhead
  -- its run, in front of the others
  have hmem : (key, value) :: tail ∈ runs :=
    List.mem_of_mem_filter (hlive.mem_iff.mp List.mem_cons_self)
  obtain ⟨before, after, hsplit⟩ := List.append_of_mem hmem
  have hothers : runs.Perm (((key, value) :: tail) :: (before ++ after)) := by
    rw [hsplit]
    exact List.perm_middle
  have hlive' : others'.Perm (liveRuns (before ++ after)) :=
    (hlive.trans (hothers.filter _)).cons_inv
  refine ⟨key, value, tail, before ++ after, hothers, hkey, hvalue, ?_, ?_, ?_⟩
  · intro run hrun e he
    obtain ⟨rest', rfl⟩ := List.head?_eq_some_iff.mp he
    have hin : e :: rest' ∈ ((key, value) :: tail) :: others' :=
      hlive.mem_iff.mpr (List.mem_filter.mpr ⟨hrun, rfl⟩)
    rcases List.mem_cons.mp hin with heq | hin
    · rw [(List.cons.inj heq).1]
      exact List.le_refl key
    · -- the reader in this run is behind the head
      obtain ⟨r, hr, hahead⟩ : ∃ r ∈ rest, r.Ahead (e :: rest') := by
        obtain ⟨i, hi, hget⟩ := List.getElem_of_mem hin
        have hi' : i < rest.length := by rwa [hrest.length_eq]
        refine ⟨rest[i], List.getElem_mem hi', ?_⟩
        rw [← hget]
        exact hrest.get hi' hi
      have hle := hleast r hr
      rw [HeapItem.le, hkey, hahead.1] at hle
      exact hle
  · rw [hitems.length_eq, List.length_cons, hrest.length_eq, hlive'.length_eq]
  · unfold advanceHead
    cases tail with
    | nil =>
      obtain ⟨r', hstep⟩ := hat.step_end
      refine ⟨heap.pop q, by rw [hstep]; rfl, ?_⟩
      exact held_of_items hpop hrest hlive'
    | cons e tail =>
      obtain ⟨r', hstep, hat', hkey', hvalue'⟩ := hat.step
      have hahead : r'.Ahead (e :: tail) := ⟨hkey', hvalue', hat'⟩
      refine ⟨heap.replace q r', by rw [hstep]; rfl, ?_⟩
      exact held_of_items (hreplace r') (List.Forall₂.cons hahead hrest) (hlive'.cons _)

/-! ### The loops -/

/-- The runs that start with the key. -/
def countStarts (key : Bytes) (runs : List (List (Bytes × V))) : Nat :=
  runs.countP fun run => run.head?.map Prod.fst = some key

omit [ValueCodec V] in
theorem countStarts_cons (key : Bytes) (value : V) (tail : List (Bytes × V))
    (runs : List (List (Bytes × V))) :
    countStarts key (((key, value) :: tail) :: runs) = countStarts key runs + 1 := by
  simp [countStarts]

variable {key : Bytes}

omit [ValueCodec V] in
/-- Behind a key that was taken comes a greater one. -/
theorem countStarts_tail {value : V} {tail : List (Bytes × V)}
    (h : Increasing ((key, value) :: tail)) (runs : List (List (Bytes × V))) :
    countStarts key (tail :: runs) = countStarts key runs := by
  apply List.countP_cons_of_neg
  cases tail with
  | nil => simp
  | cons e tail =>
    have hlt := List.rel_of_pairwise_cons h List.mem_cons_self
    simp only [List.head?_cons, Option.map_some, Option.some_inj, decide_eq_true_eq]
    intro heq
    rw [heq] at hlt
    exact Std.lt_irrefl hlt

omit [ValueCodec V] in
theorem countStarts_le (key : Bytes) (runs : List (List (Bytes × V))) :
    countStarts key runs ≤ (liveRuns runs).length := by
  rw [countStarts, liveRuns, ← List.countP_eq_length_filter]
  apply List.countP_mono_left
  intro run _ hstart
  cases run with
  | nil => simp at hstart
  | cons e rest => rfl

omit [ValueCodec V] in
theorem no_start_of_countStarts (h : countStarts key runs = 0) :
    ∀ run ∈ runs, ∀ e ∈ run.head?, e.1 ≠ key := by
  intro run hrun e he heq
  have hnot := List.countP_eq_zero.mp h run hrun
  rw [Option.mem_def.mp he] at hnot
  exact hnot (by simp [heq])

omit [ValueCodec V] in
/-- The least first key is the least of all. -/
theorem le_of_le_head (hinc : ∀ run ∈ runs, Increasing run)
    (hhead : ∀ run ∈ runs, ∀ e ∈ run.head?, key ≤ e.1) : ∀ run ∈ runs, ∀ e ∈ run, key ≤ e.1 := by
  intro run hrun e he
  cases run with
  | nil => cases he
  | cons first rest =>
    have hfirst := hhead _ hrun first rfl
    rcases List.mem_cons.mp he with rfl | he
    · exact hfirst
    · exact List.le_trans hfirst
        (List.le_of_lt (List.rel_of_pairwise_cons (hinc _ hrun) he))

/-- **The values of a key.** There are no more of them than other readers, so that the loop ends
    with all of them taken. -/
theorem addValues_spec : ∀ (n : Nat) (q : heap.Queue)
    (runs : List (List (Bytes × V))) (valueMerger : ValueMerger.SingleValueMerger M V),
    Held q runs → (∀ run ∈ runs, Increasing run) → (∀ run ∈ runs, ∀ e ∈ run, key ≤ e.1) →
    countStarts key runs ≤ n →
    ∃ values q' runs', addValues (M := M) heap key n q valueMerger =
        pure (values.foldl ValueMerger.add valueMerger, q') ∧
      Held q' runs' ∧ TakesAll key runs values runs' := by
  intro n
  induction n with
  | zero =>
    intro q runs valueMerger hheld _ _ hcount
    exact ⟨[], q, runs, rfl, hheld, .done (no_start_of_countStarts (Nat.le_zero.mp hcount))⟩
  | succ n ih =>
    intro q runs valueMerger hheld hinc hmin hcount
    rw [addValues]
    cases hpeek : heap.peek q with
    | none =>
      refine ⟨[], q, runs, rfl, hheld, .done ?_⟩
      intro run hrun e he
      rw [hheld.eq_nil_of_peek hpeek run hrun] at he
      cases he
    | some head =>
      obtain ⟨key', value, tail, others, hperm, hkey, hvalue, hleast, -, q', hadvance, hheld'⟩ :=
        hheld.head hpeek
      have hrun : (key', value) :: tail ∈ runs := hperm.mem_iff.mpr List.mem_cons_self
      by_cases heq : head.key = key
      · -- another table has the key
        obtain rfl : key' = key := hkey.symm.trans heq
        have hmem : ∀ run ∈ tail :: others, run = tail ∨ run ∈ runs := by
          intro run hin
          rcases List.mem_cons.mp hin with rfl | hin
          · exact .inl rfl
          · exact .inr (hperm.mem_iff.mpr (List.mem_cons_of_mem _ hin))
        have htail := List.pairwise_cons.mp (hinc _ hrun)
        have hcount' : countStarts key' (tail :: others) ≤ n := by
          rw [countStarts_tail (hinc _ hrun)]
          rw [countStarts, hperm.countP_eq, ← countStarts, countStarts_cons] at hcount
          omega
        obtain ⟨values, q'', runs', hloop, hheld'', htakes⟩ :=
          ih q' (tail :: others) (ValueMerger.add valueMerger value) hheld'
            (fun run hin => by
              rcases hmem run hin with rfl | hin
              · exact htail.2
              · exact hinc run hin)
            (fun run hin e he => by
              rcases hmem run hin with rfl | hin
              · exact List.le_of_lt (htail.1 e he)
              · exact hmin run hin e he)
            hcount'
        refine ⟨value :: values, q'', runs', ?_, hheld'', .next hperm htakes⟩
        simp only [if_pos heq, hvalue, hadvance, pure_bind]
        exact hloop
      · -- the least key is a greater one
        refine ⟨[], q, runs, ?_, hheld, .done ?_⟩
        · simp only [if_neg heq]
          rfl
        · intro run hrun' e he hstart
          have h₁ := hleast run hrun' e he
          have h₂ := hmin _ hrun _ List.mem_cons_self
          rw [hstart] at h₁
          exact heq (hkey.trans (List.le_antisymm h₁ h₂))

theorem Writer.flush_of_le {w : Writer V}
    (h : w.deltaWriter.block.length ≤ BLOCK_LEN) : w.flushBlockIfRequired = w := by
  unfold Writer.flushBlockIfRequired DeltaWriter.flushBlockIfRequired
  rw [if_neg (Nat.not_lt.mpr h)]
  rfl

/-- The flush of `write_value` leaves nothing to flush. -/
theorem Writer.flush_writeValue (w : Writer V) (value : V) :
    (w.writeValue value).flushBlockIfRequired = w.writeValue value := by
  unfold Writer.writeValue
  generalize ({ w with
    deltaWriter := w.deltaWriter.writeValue value, numTerms := w.numTerms + 1 } : Writer V) = w'
  by_cases hfull : w'.deltaWriter.block.length ≤ BLOCK_LEN
  · rw [Writer.flush_of_le hfull, Writer.flush_of_le hfull]
  · -- the block that was flushed is empty
    apply Writer.flush_of_le
    have hne : w'.deltaWriter.block ≠ [] := by
      intro hnil
      rw [hnil] at hfull
      exact hfull (Nat.zero_le _)
    unfold Writer.flushBlockIfRequired DeltaWriter.flushBlockIfRequired
    rw [if_pos (Nat.lt_of_not_le hfull)]
    simp only [DeltaWriter.flushBlock, List.isEmpty_eq_false_iff.mpr hne, Bool.false_eq_true,
      ↓reduceIte, Writer.closeBlock]
    exact Nat.zero_le _

/-- A greater key can be written, whatever its value will be. -/
theorem Writer.At.writeKey {w : Writer V} {bs : List (List (Bytes × V))} {cur : List (Bytes × V)}
    (h : w.At bs cur) (hkey : ∀ e ∈ bs.flatten ++ cur, e.1 < key) (value : V) :
    ∃ w', w.writeKey key = some w' ∧ w'.previousKey = key ∧
      w.write key value = some (w'.writeValue value) ∧
      ∃ bs' cur', (w'.writeValue value).At bs' cur' ∧
        bs'.flatten ++ cur' = bs.flatten ++ cur ++ [(key, value)] := by
  obtain ⟨w', hwrite, hat⟩ := h.write value hkey
  rw [Writer.write] at hwrite
  obtain ⟨w₁, hkey₁, hvalue⟩ := Option.bind_eq_some_iff.mp hwrite
  obtain rfl := Option.some.inj hvalue
  have hprevious : w₁.previousKey = key := by
    rw [Writer.writeKey] at hkey₁
    obtain ⟨index, -, hguard⟩ := Option.bind_eq_some_iff.mp hkey₁
    obtain ⟨-, -, hrest⟩ := Option.bind_eq_some_iff.mp hguard
    rw [← Option.some.inj hrest]
  refine ⟨w₁, hkey₁, hprevious, ?_, ?_⟩
  · rw [Writer.write, hkey₁]
    rfl
  · split at hat
    · exact ⟨_, _, hat, by simp⟩
    · exact ⟨_, _, hat, by simp⟩

/-- **The merge loop** writes the entries of a union of the runs. By induction on the rounds, each
    of which takes an entry at least. -/
theorem mergeLoop_spec : ∀ (fuel : Nat) (q : heap.Queue) (runs : List (List (Bytes × V)))
    (merger : M) (w : Writer V) (bs : List (List (Bytes × V))) (cur : List (Bytes × V)),
    Held q runs → (∀ run ∈ runs, Increasing run) → w.At bs cur →
    (∀ e ∈ bs.flatten ++ cur, ∀ run ∈ runs, ∀ e' ∈ run, e.1 < e'.1) →
    (runs.map List.length).sum < fuel →
    ∃ union w', IsUnion runs union ∧ mergeLoop heap fuel q merger w = pure w' ∧
      w.writeAll (mergedEntries merger union) = some w' := by
  intro fuel
  induction fuel with
  | zero => intro q runs merger w bs cur _ _ _ _ hfuel; exact absurd hfuel (Nat.not_lt_zero _)
  | succ fuel ih =>
    intro q runs merger w bs cur hheld hinc hat hkeys hfuel
    rw [mergeLoop]
    cases hpeek : heap.peek q with
    | none => exact ⟨[], w, IsUnion.nil (hheld.eq_nil_of_peek hpeek), rfl, rfl⟩
    | some head =>
      obtain ⟨key, value, tail, others, hperm, hkey, hvalue, hleast, hlen, q₁, hadvance, hheld₁⟩ :=
        hheld.head hpeek
      have hrun : (key, value) :: tail ∈ runs := hperm.mem_iff.mpr List.mem_cons_self
      have htail := List.pairwise_cons.mp (hinc _ hrun)
      have hmin := le_of_le_head hinc hleast
      have hmem : ∀ run ∈ tail :: others, run = tail ∨ run ∈ runs := by
        intro run hin
        rcases List.mem_cons.mp hin with rfl | hin
        · exact .inl rfl
        · exact .inr (hperm.mem_iff.mpr (List.mem_cons_of_mem _ hin))
      -- the values of the key
      have hcount : countStarts key (tail :: others) ≤ (heap.items q).length - 1 := by
        have hle := countStarts_le key others
        rw [countStarts_tail (hinc _ hrun), hlen]
        omega
      obtain ⟨values, q₂, runs', hvalues, hheld₂, htakes⟩ :=
        addValues_spec _ q₁ (tail :: others) (ValueMerger.newValue merger value).1 hheld₁
          (fun run hin => by
            rcases hmem run hin with rfl | hin
            · exact htail.2
            · exact hinc run hin)
          (fun run hin e he => by
            rcases hmem run hin with rfl | hin
            · exact List.le_of_lt (htail.1 e he)
            · exact hmin run hin e he)
          hcount
      have htaken := (TakesAll.next hperm htakes).spec hinc hmin
      -- the entry is written behind those before
      obtain ⟨w₁, hwriteKey, hprevious, hwrite, bs', cur', hat', hflat⟩ :=
        hat.writeKey (fun e he => hkeys e he _ hrun _ List.mem_cons_self)
          (ValueMerger.finish (M := M)
            (values.foldl ValueMerger.add (ValueMerger.newValue merger value).1))
      obtain ⟨union, w', hunion, hloop, hall⟩ :=
        ih q₂ runs' (ValueMerger.newValue merger value).2 _ bs' cur' hheld₂ htaken.increasing hat'
          (by
            intro e he run hin e' he'
            rw [hflat] at he
            have habove := htaken.above run hin e' he'
            rcases List.mem_append.mp he with he | he
            · exact List.lt_trans (hkeys e he _ hrun _ List.mem_cons_self) habove
            · rw [List.mem_singleton.mp he]
              exact habove)
          (by
            have hsum := htaken.count
            rw [List.length_cons] at hsum
            omega)
      refine ⟨(key, value :: values) :: union, w',
        hunion.cons htaken (List.cons_ne_nil _ _), ?_, ?_⟩
      · have hexpect : Io.expect (some w₁) = pure w₁ := rfl
        simp only [hkey, hwriteKey, hexpect, hvalue, hadvance, hprevious, hvalues, pure_bind,
          Writer.flush_writeValue]
        exact hloop
      · rw [mergedEntries, Writer.writeAll, List.foldlM_cons, hwrite]
        exact hall

/-- The readers are put where they stand before their first entries. -/
theorem pushReaders_spec {tables : List (List (Bytes × V))}
    (hat : List.Forall₂ Reader.At readers tables) : ∀ (q : heap.Queue)
    (runs : List (List (Bytes × V))), Held q runs →
    ∃ q', pushReaders heap q readers = pure q' ∧ Held q' (tables ++ runs) := by
  induction hat with
  | nil => exact fun q runs hheld => ⟨q, rfl, hheld⟩
  | @cons reader table readers tables hat _ ih =>
    intro q runs hheld
    rw [pushReaders]
    have hmiddle : (tables ++ table :: runs).Perm (table :: tables ++ runs) := List.perm_middle
    cases table with
    | nil =>
      obtain ⟨r', hstep⟩ := hat.step_end
      obtain ⟨q', hpush, hheld'⟩ := ih q ([] :: runs) hheld.push_nil
      refine ⟨q', ?_, hheld'.perm hmiddle⟩
      rw [hstep, pure_bind]
      exact hpush
    | cons e rest =>
      obtain ⟨r', hstep, hat', hkey, hvalue⟩ := hat.step
      have hahead : r'.Ahead (e :: rest) := ⟨hkey, hvalue, hat'⟩
      obtain ⟨q', hpush, hheld'⟩ := ih _ _ (hheld.push hahead)
      refine ⟨q', ?_, hheld'.perm hmiddle⟩
      rw [hstep, pure_bind]
      exact hpush

end Heap

/-! ### Tables -/

/-- A block that can be read back. -/
def BlockFits (b : List (Bytes × V)) : Prop :=
  (blockBytes b).length < 2 ^ 32 ∧ ReadsBack (b.map Prod.snd)

/-- The bytes of blocks that can be read back, up to the mark of the end. -/
def IsTable (table : Bytes) (entries : List (Bytes × V)) : Prop :=
  ∃ (bs : List (List (Bytes × V))) (tail : Bytes),
    table = bs.flatMap encodeBlock ++ tail ∧ bs.flatten = entries ∧
    (∀ b ∈ bs, BlockOk b) ∧ AtEnd tail

section Tables

variable {table : Bytes} {entries : List (Bytes × V)}

theorem IsTable.reader_at (h : IsTable table entries) : (Reader.new V table).At entries := by
  obtain ⟨bs, tail, rfl, rfl, hblocks, htail⟩ := h
  exact Reader.at_new hblocks htail

theorem IsTable.length_le (h : IsTable table entries) : entries.length ≤ table.length := by
  obtain ⟨bs, tail, rfl, rfl, -, -⟩ := h
  have hle := length_flatten_le_encodeBlock bs
  rw [List.length_append]
  omega

/-- The blocks that increasing entries are cut into, with the mark of the end. -/
theorem isTable_cutBlocks (hinc : Increasing entries)
    (hfits : ∀ b ∈ cutBlocks [] entries, BlockFits b) (footer : Bytes) :
    IsTable ((cutBlocks [] entries).flatMap encodeBlock ++ (toLE 4 0 ++ footer)) entries := by
  have hflat := flatten_cutBlocks entries []
  rw [List.nil_append] at hflat
  refine ⟨cutBlocks [] entries, _, rfl, hflat, ?_, .inr ⟨footer, rfl⟩⟩
  intro b hb
  refine ⟨ne_nil_of_mem_cutBlocks entries [] b hb, ?_, (hfits b hb).1, (hfits b hb).2⟩
  have hpart : b.Sublist entries := by
    rw [← hflat]
    exact (List.infix_of_mem_flatten hb).sublist
  rw [List.pairwise_map]
  exact List.Pairwise.sublist hpart hinc

/-- What is written entry by entry is a table. -/
theorem write_isTable (hinc : Increasing entries) (hfits : ∀ b ∈ cutBlocks [] entries, BlockFits b)
    (footer : Bytes) :
    ∃ table, SSTable.write entries = some table ∧ IsTable (table ++ footer) entries := by
  obtain ⟨w, index, hall, hfinal, -⟩ := writeAll_finalize hinc
  refine ⟨w.finalize.1, ?_, ?_⟩
  · rw [SSTable.write, hall]
    rfl
  · rw [hfinal, List.append_assoc]
    exact isTable_cutBlocks hinc hfits footer

theorem stream_at : ∀ (fuel : Nat) (r : Reader V) (entries : List (Bytes × V)), r.At entries →
    entries.length < fuel → Reader.stream fuel r = pure entries := by
  intro fuel
  induction fuel with
  | zero => intro r entries _ hfuel; exact absurd hfuel (Nat.not_lt_zero _)
  | succ fuel ih =>
    intro r entries hat hfuel
    rw [Reader.stream]
    cases entries with
    | nil =>
      obtain ⟨r', hstep⟩ := hat.step_end
      rw [hstep, pure_bind]
    | cons e rest =>
      obtain ⟨r', hstep, hat', hkey, hvalue⟩ := hat.step
      rw [hstep, pure_bind]
      simp only
      rw [hvalue, pure_bind, ih r' rest hat' (Nat.lt_of_succ_lt_succ hfuel), pure_bind, hkey]

theorem IsTable.stream (h : IsTable table entries) : SSTable.stream V table = pure entries :=
  stream_at _ _ _ h.reader_at (Nat.lt_succ_of_le h.length_le)

end Tables

/-! ### The merge -/

/-- What the merge of tables writes. -/
theorem merge_spec (heap : BinaryHeap V) (merger : M) {ioReaders : List Bytes}
    {tables : List (List (Bytes × V))} (htables : List.Forall₂ IsTable ioReaders tables)
    (hinc : ∀ table ∈ tables, Increasing table) :
    ∃ union index, IsUnion tables union ∧ Increasing (mergedEntries merger union) ∧
      SSTable.merge heap ioReaders merger =
        pure ((cutBlocks [] (mergedEntries merger union)).flatMap encodeBlock ++ toLE 4 0, index,
          (mergedEntries merger union).length) ∧
      Indexed (cutBlocks [] (mergedEntries merger union)) index := by
  have hreaders : List.Forall₂ Reader.At (ioReaders.map (Reader.new V)) tables :=
    List.forall₂_map_left_iff.mpr (htables.imp fun _ _ h => h.reader_at)
  have hlen : (tables.map List.length).sum ≤ (ioReaders.map List.length).sum := by
    induction htables with
    | nil => exact Nat.le_refl _
    | @cons table entries _ _ h _ ih =>
      have hle := h.length_le
      have hrest := ih (fun table htable => hinc table (List.mem_cons_of_mem _ htable))
        (List.forall₂_cons.mp hreaders).2
      simp only [List.map_cons, List.sum_cons]
      omega
  obtain ⟨q, hpush, hheld⟩ := pushReaders_spec hreaders heap.empty [] held_empty
  rw [List.append_nil] at hheld
  have hnew : (Writer.new V).At [] [] :=
    ⟨rfl, rfl, rfl, rfl, rfl, rfl, .nil, fun _ m hm => (by cases hm), fun m hm => (by cases hm)⟩
  obtain ⟨union, w, hunion, hloop, hall⟩ :=
    mergeLoop_spec ((ioReaders.map List.length).sum + 1) q tables merger (Writer.new V) [] [] hheld
      hinc hnew (fun e he => by cases he) (Nat.lt_succ_of_le hlen)
  -- the keys of the entries are those of the union
  have hincreasing : Increasing (mergedEntries merger union) := by
    have hkeys := hunion.increasing
    rw [← List.pairwise_map, ← map_fst_mergedEntries union merger
      fun u hu => (hunion.values u hu).1, List.pairwise_map] at hkeys
    exact hkeys
  obtain ⟨w', index, hall', hfinal, hindexed⟩ := writeAll_finalize hincreasing
  obtain rfl : w = w' := Option.some.inj (hall.symm.trans hall')
  refine ⟨union, index, hunion, hincreasing, ?_, hindexed⟩
  rw [SSTable.merge, mergeSSTable, hpush, pure_bind, hloop, pure_bind, hfinal]

/-- **The merge of tables is their union.** Its keys are those of the tables in increasing order,
    each with the merge of the values of all the tables that have it, in the order the heap gives
    them. The length of a block is stored as a `u32`. -/
theorem sstable_merge (heap : BinaryHeap V) (merger : M) {ioReaders : List Bytes}
    {tables : List (List (Bytes × V))} (htables : List.Forall₂ IsTable ioReaders tables)
    (hinc : ∀ table ∈ tables, Increasing table) :
    ∃ union table index, IsUnion tables union ∧
      SSTable.merge heap ioReaders merger = pure (table, index, union.length) ∧
      Indexed (cutBlocks [] (mergedEntries merger union)) index ∧
      ((∀ b ∈ cutBlocks [] (mergedEntries merger union), BlockFits b) → ∀ footer : Bytes,
        IsTable (table ++ footer) (mergedEntries merger union) ∧
          SSTable.stream V (table ++ footer) = pure (mergedEntries merger union)) := by
  obtain ⟨union, index, hunion, hincreasing, hmerge, hindexed⟩ :=
    merge_spec heap merger htables hinc
  have hlen : (mergedEntries merger union).length = union.length := by
    have hkeys := map_fst_mergedEntries union merger fun u hu => (hunion.values u hu).1
    have hcount := congrArg List.length hkeys
    rwa [List.length_map, List.length_map] at hcount
  rw [hlen] at hmerge
  refine ⟨union, _, index, hunion, hmerge, hindexed, ?_⟩
  intro hfits footer
  have htable := isTable_cutBlocks hincreasing hfits footer
  rw [← List.append_assoc] at htable
  exact ⟨htable, htable.stream⟩

/-! ### The two plain tables -/

/-- Values of `VoidSSTable` are read back. -/
theorem readsBack_unit (values : List Unit) : ReadsBack values := by
  intro r y hlen hleft
  have hroom : values.length ≤ r.buffer.length := by
    have hy : r.buffer.drop r.offset = y := hleft.drop
    have hdrop := congrArg List.length hy
    rw [List.length_drop] at hdrop
    omega
  refine ⟨List.replicate (r.buffer.length - values.length) (), ?_⟩
  have hvalues : values ++ List.replicate (r.buffer.length - values.length) () =
      List.replicate r.buffer.length () := by
    apply List.eq_replicate_iff.mpr
    refine ⟨?_, fun _ _ => rfl⟩
    rw [List.length_append, List.length_replicate]
    omega
  rw [hvalues]
  rfl

theorem readDeltas_left (vals : List UInt64) : ∀ (prevVal : UInt64) (r : BlockReader) (y : Bytes),
    r.Left (U64MonotonicWriter.writeDeltas prevVal vals ++ y) →
    U64MonotonicReader.readDeltas vals.length prevVal r =
      pure (vals, r.advance (U64MonotonicWriter.writeDeltas prevVal vals).length) := by
  induction vals with
  | nil => intro prevVal r y _; rfl
  | cons val vals ih =>
    intro prevVal r y hleft
    rw [U64MonotonicWriter.writeDeltas, List.append_assoc] at hleft
    have hdelta : (val - prevVal).toNat < 2 ^ 64 := UInt64.toNat_lt _
    rw [List.length_cons, U64MonotonicReader.readDeltas,
      hleft.deserializeU64 (by decide) (hdelta.trans (by norm_num)) hdelta, pure_bind]
    simp only
    rw [UInt64.ofNat_toNat, UInt64.add_comm, UInt64.sub_add_cancel, ih val _ y hleft.advance,
      pure_bind, advance_advance, U64MonotonicWriter.writeDeltas, List.length_append]

/-- Values of `SSTableMonotonicU64` are read back. -/
theorem readsBack_u64 {values : List UInt64} (hlen : values.length < 2 ^ 64) :
    ReadsBack values := by
  intro r y _ hleft
  have hwrite : ValueCodec.writeBlock values =
      vint false 10 values.length ++ U64MonotonicWriter.writeDeltas 0 values := rfl
  rw [hwrite, List.append_assoc] at hleft
  refine ⟨[], ?_⟩
  dsimp only [ValueCodec.read]
  rw [hleft.deserializeU64 (by decide) (hlen.trans (by norm_num)) hlen, pure_bind]
  rw [readDeltas_left values 0 _ y hleft.advance, advance_advance, hwrite, List.append_nil,
    List.length_append]

theorem blockFits_u64 {b : List (Bytes × UInt64)} (hsize : (blockBytes b).length < 2 ^ 32) :
    BlockFits b := by
  refine ⟨hsize, readsBack_u64 ?_⟩
  have hlen := length_le_length_encodeKeys b []
  rw [blockBytes, List.length_append] at hsize
  rw [List.length_map]
  exact lt_of_le_of_lt (by omega : b.length ≤ _) (hsize.trans (by norm_num))

/-- The sum of the values of a key, in whatever order the heap gives them. -/
theorem mergedEntries_u64 {tables : List (List (Bytes × UInt64))}
    {union : List (Bytes × List UInt64)} (h : IsUnion tables union) :
    mergedEntries U64Merge.u64Merge union =
      (union.map Prod.fst).map fun key => (key, (valuesAt key tables).foldl (· + ·) 0) := by
  have hsum : ∀ union : List (Bytes × List UInt64), (∀ u ∈ union, u.2 ≠ []) →
      mergedEntries U64Merge.u64Merge union = union.map fun u => (u.1, u.2.foldl (· + ·) 0) := by
    intro union
    induction union with
    | nil => intro _; rfl
    | cons u union ih =>
      intro hne
      obtain ⟨key, values⟩ := u
      obtain ⟨value, values, rfl⟩ := List.exists_cons_of_ne_nil (hne _ List.mem_cons_self)
      rw [mergedEntries, List.map_cons, List.foldl_cons, UInt64.zero_add,
        ← ih fun u hu => hne u (List.mem_cons_of_mem _ hu)]
      rfl
  rw [hsum union fun u hu => (h.values u hu).1, List.map_map]
  apply List.map_congr_left
  intro u hu
  have heq := (h.values u hu).2.foldl_eq (f := fun a b : UInt64 => a + b) (0 : UInt64)
  rw [heq]
  rfl

/-- Three tables, of which two have the key `b`. -/
def threeTables : List (List (Bytes × UInt64)) :=
  [[([97], 1), ([98], 3)], [([97, 98], 2)], [([98], 4)]]

theorem sstable_merge_three :
    ∃ ioReaders table index, threeTables.map SSTable.write = ioReaders.map some ∧
      SSTable.merge (V := UInt64) (PriorityQueue.ordered HeapItem.le) ioReaders
        U64Merge.u64Merge = pure (table, index, 3) ∧
      SSTable.stream UInt64 table = pure [([97], 1), ([97, 98], 2), ([98], 7)] := by
  have hwrite : ∀ entries ∈ threeTables, ∃ table, SSTable.write entries = some table ∧
      IsTable table entries := by
    intro entries hentries
    have hinc : ∀ entries ∈ threeTables, Increasing entries := by decide
    have hsize : ∀ entries ∈ threeTables, ∀ b ∈ cutBlocks [] entries,
        (blockBytes b).length < 2 ^ 32 := by decide
    obtain ⟨table, hwrite, htable⟩ := write_isTable (hinc entries hentries)
      (fun b hb => blockFits_u64 (hsize entries hentries b hb)) []
    rw [List.append_nil] at htable
    exact ⟨table, hwrite, htable⟩
  obtain ⟨t₁, hwrite₁, h₁⟩ := hwrite [([97], 1), ([98], 3)] (by decide)
  obtain ⟨t₂, hwrite₂, h₂⟩ := hwrite [([97, 98], 2)] (by decide)
  obtain ⟨t₃, hwrite₃, h₃⟩ := hwrite [([98], 4)] (by decide)
  have htables : List.Forall₂ IsTable [t₁, t₂, t₃] threeTables :=
    .cons h₁ (.cons h₂ (.cons h₃ .nil))
  obtain ⟨union, table, index, hunion, hmerge, -, hstream⟩ :=
    sstable_merge (PriorityQueue.ordered HeapItem.le) U64Merge.u64Merge htables (by decide)
  -- the keys, and the sums of the values
  have hkeys : union.map Prod.fst = [[97], [97, 98], [98]] := by
    apply hunion.keys_eq (by decide)
    intro key
    simp only [threeTables, List.mem_cons, List.not_mem_nil, or_false, exists_eq_or_imp,
      exists_eq_left]
    tauto
  have hcount : union.length = 3 := by
    rw [← List.length_map (f := Prod.fst), hkeys]
    rfl
  rw [hcount] at hmerge
  rw [mergedEntries_u64 hunion, hkeys] at hstream
  have hentries : [[97], [97, 98], [98]].map
      (fun key : Bytes => (key, (valuesAt key threeTables).foldl (· + ·) 0)) =
        [([97], 1), ([97, 98], 2), ([98], 7)] := by decide
  rw [hentries] at hstream
  have hfits : ∀ b ∈ cutBlocks [] [([97], (1 : UInt64)), ([97, 98], 2), ([98], 7)],
      (blockBytes b).length < 2 ^ 32 := by decide
  obtain ⟨-, hread⟩ := hstream (fun b hb => blockFits_u64 (hfits b hb)) []
  rw [List.append_nil] at hread
  refine ⟨[t₁, t₂, t₃], table, index, ?_, hmerge, hread⟩
  simp only [threeTables, List.map_cons, List.map_nil, hwrite₁, hwrite₂, hwrite₃]

/-! ### Blocks of 4 GiB -/

/-- A key that takes a block to itself. -/
def hugeKey : Bytes := List.replicate 4294967287 1

section HugeKey

variable {n : Nat}

theorem commonPrefixLen_replicate : commonPrefixLen [0] (List.replicate n 1) = 0 := by
  cases n with
  | zero => rfl
  | succ n => rw [List.replicate_succ, commonPrefixLen_cons, if_neg (by decide)]

theorem lt_replicate (hn : 0 < n) : ([0] : Bytes) < List.replicate n 1 := by
  obtain ⟨m, rfl⟩ := Nat.exists_eq_succ_of_ne_zero (Nat.ne_of_gt hn)
  rw [List.replicate_succ]
  exact List.cons_lt_cons_iff.mpr (.inl (by decide))

/-- The bytes of a block with the key alone. -/
theorem length_blockBytes_alone :
    (blockBytes [(List.replicate n 1, ())]).length =
      (DeltaWriter.encodeKeepAdd 0 n).length + n := by
  have hshared : commonPrefixLen [] (List.replicate n (1 : UInt8)) = 0 := rfl
  have hbytes : blockBytes [(List.replicate n 1, ())] =
      encodeKeys [] [(List.replicate n (1 : UInt8), ())] := rfl
  rw [hbytes, encodeKeys, encodeKeys]
  simp only [hshared, List.drop_zero, List.length_replicate, List.append_nil, List.length_append]

/-- The bytes of a block with a small key before it. -/
theorem length_blockBytes_both :
    (blockBytes [([0], ()), (List.replicate n 1, ())]).length =
      (DeltaWriter.encodeKeepAdd 0 n).length + n + 2 := by
  have hbytes : blockBytes [([0], ()), (List.replicate n 1, ())] =
      [16, 0] ++ (DeltaWriter.encodeKeepAdd (commonPrefixLen [0] (List.replicate n 1))
        ((List.replicate n (1 : UInt8)).drop
          (commonPrefixLen [0] (List.replicate n 1))).length ++
        (List.replicate n (1 : UInt8)).drop (commonPrefixLen [0] (List.replicate n 1)) ++ []) :=
    rfl
  rw [hbytes]
  simp only [commonPrefixLen_replicate, List.drop_zero, List.length_replicate, List.append_nil,
    List.length_append, List.length_cons, List.length_nil]
  omega

end HugeKey

theorem length_encodeKeepAdd_huge : (DeltaWriter.encodeKeepAdd 0 4294967287).length = 7 := by
  decide

omit [ValueCodec V] in
theorem cutBlocks_singleton (e : Bytes × V) : cutBlocks [] [e] = [[e]] := by
  rw [cutBlocks]
  split
  · rfl
  · rfl

theorem cutBlocks_huge :
    cutBlocks [] [([0], ()), (hugeKey, ())] = [[([0], ()), (hugeKey, ())]] := by
  have hbytes : ∀ entries : List (Bytes × Unit), blockBytes entries = encodeKeys [] entries :=
    fun _ => rfl
  have hboth : (encodeKeys [] [([0], ()), (hugeKey, ())]).length = 7 + 4294967287 + 2 := by
    rw [← hbytes, hugeKey, length_blockBytes_both, length_encodeKeepAdd_huge]
  have hfirst : ¬ (encodeKeys [] ([] ++ [(([0] : Bytes), ())])).length > BLOCK_LEN := by decide
  rw [cutBlocks, if_neg hfirst, List.nil_append, cutBlocks, List.singleton_append, hboth,
    if_pos (by decide)]
  rfl

/-- The length of the block is the mark of the end. -/
theorem encodeBlock_huge : encodeBlock [([0], ()), (hugeKey, ())] =
    toLE 4 0 ++ blockBytes [([0], ()), (hugeKey, ())] := by
  have hlen : (blockBytes [([0], ()), (hugeKey, ())]).length = 7 + 4294967287 + 2 := by
    rw [hugeKey, length_blockBytes_both, length_encodeKeepAdd_huge]
  have hmark : toLE 4 (7 + 4294967287 + 2) = toLE 4 0 := by decide
  unfold encodeBlock
  rw [hlen, hmark]

/-- **A block of 4 GiB ends the table.** The two tables can be read, and what is merged from them
    has a block whose length is 0 modulo 2^32. -/
theorem sstable_merge_overflows :
    (∀ values : List Unit, ReadsBack values) ∧
      ∃ t₁ t₂ table index,
        SSTable.write [([0], ())] = some t₁ ∧ SSTable.write [(hugeKey, ())] = some t₂ ∧
        IsTable t₁ [([0], ())] ∧ IsTable t₂ [(hugeKey, ())] ∧
        SSTable.merge (V := Unit) (PriorityQueue.ordered HeapItem.le) [t₁, t₂]
          VoidMerge.voidMerge = pure (table, index, 2) ∧
        SSTable.stream Unit table = pure [] ∧
        ∀ union, IsUnion [[([0], ())], [(hugeKey, ())]] union →
          mergedEntries VoidMerge.voidMerge union ≠ [] := by
  refine ⟨readsBack_unit, ?_⟩
  have hwrite : ∀ key : Bytes, (blockBytes [(key, ())]).length < 2 ^ 32 →
      ∃ table, SSTable.write [(key, ())] = some table ∧ IsTable table [(key, ())] := by
    intro key hsize
    have hfits : ∀ b ∈ cutBlocks [] [(key, ())], BlockFits b := by
      intro b hb
      rw [cutBlocks_singleton, List.mem_singleton] at hb
      rw [hb]
      exact ⟨hsize, readsBack_unit _⟩
    obtain ⟨table, hwrite, htable⟩ := write_isTable (List.pairwise_singleton _ _) hfits []
    rw [List.append_nil] at htable
    exact ⟨table, hwrite, htable⟩
  have halone : (blockBytes [(hugeKey, ())]).length < 2 ^ 32 := by
    rw [hugeKey, length_blockBytes_alone, length_encodeKeepAdd_huge]
    decide
  obtain ⟨t₁, hwrite₁, h₁⟩ := hwrite [0] (by decide)
  obtain ⟨t₂, hwrite₂, h₂⟩ := hwrite hugeKey halone
  have hkeys : ∀ union, IsUnion [[([0], ())], [(hugeKey, ())]] union →
      union.map Prod.fst = [[0], hugeKey] := by
    intro union hunion
    apply hunion.keys_eq
    · rw [List.pairwise_pair]
      exact lt_replicate (by decide)
    · intro key
      simp only [List.mem_cons, List.not_mem_nil, or_false, exists_eq_or_imp, exists_eq_left]
      exact or_congr eq_comm eq_comm
  obtain ⟨union, index, hunion, -, hmerge, -⟩ :=
    merge_spec (PriorityQueue.ordered HeapItem.le) VoidMerge.voidMerge
      (List.Forall₂.cons h₁ (List.Forall₂.cons h₂ List.Forall₂.nil)) (by
        intro entries hentries
        rcases List.mem_pair.mp hentries with rfl | rfl
        · exact List.pairwise_singleton _ _
        · exact List.pairwise_singleton _ _)
  have hne := fun u hu => (hunion.values u hu).1
  have hentries : mergedEntries VoidMerge.voidMerge union = [([0], ()), (hugeKey, ())] := by
    have hfst := map_fst_mergedEntries union VoidMerge.voidMerge hne
    rw [hkeys union hunion] at hfst
    have hunit : ∀ l : List (Bytes × Unit), l = (l.map Prod.fst).map fun key => (key, ()) := by
      intro l
      rw [List.map_map]
      exact (List.map_id l).symm
    rw [hunit (mergedEntries _ _), hfst]
    rfl
  rw [hentries, cutBlocks_huge, List.flatMap_cons, List.flatMap_nil, List.append_nil,
    encodeBlock_huge, List.append_assoc] at hmerge
  refine ⟨t₁, t₂, _, index, hwrite₁, hwrite₂, h₁, h₂, hmerge, ?_, ?_⟩
  · have htail : AtEnd (toLE 4 0 ++ (blockBytes [([0], ()), (hugeKey, ())] ++ toLE 4 0)) :=
      .inr ⟨_, rfl⟩
    apply IsTable.stream
    exact ⟨[], _, rfl, rfl, by simp, htail⟩
  · intro union hunion hnil
    have hfst := map_fst_mergedEntries union VoidMerge.voidMerge
      fun u hu => (hunion.values u hu).1
    rw [hnil, hkeys union hunion] at hfst
    cases hfst

end TeaclaveCrates.Tantivy
