import TeaclaveCrates.Lib.PriorityQueue
import TeaclaveCrates.Tantivy.SSTable

namespace TeaclaveCrates.Tantivy

open TeaclaveCrates.Lib

/-!
# tantivy — merging sorted string tables

`termdict/sstable_termdict/sstable/merge`: the tables are read side by side, from a heap with the
least key in front, and written to one table. The values of a key that several tables have are
merged into one.

* `ValueMerger` — how values are merged, with `KeepFirst`, `VoidMerge` and `U64Merge`;
* `U64MonotonicWriter.writeDeltas`, `U64MonotonicReader.readDeltas` — the codec of the values of
  a table of numbers;
* `mergeSSTable` — the loop, and `SSTable.merge` around it;
* `SSTable.write`, `SSTable.stream` — a table from its entries, and its entries.

Which of several readers with the same key the heap gives first is not documented, so the heap is
any `PriorityQueue`. `loop` takes fuel, of which a table needs at most its length in bytes.
-/

/-! ### Merging values -/

/-- `ValueMerger`, with the `SingleValueMerger` that it makes for a key. -/
class ValueMerger (M V : Type) where
  SingleValueMerger : Type
  newValue : M → V → SingleValueMerger × M
  add : SingleValueMerger → V → SingleValueMerger
  finish : SingleValueMerger → V

/-- `KeepFirst`. -/
inductive KeepFirst
  | keepFirst

instance (V : Type) : ValueMerger KeepFirst V where
  SingleValueMerger := V
  newValue m v := (v, m)
  add first _ := first
  finish first := first

/-- `VoidMerge`. -/
inductive VoidMerge
  | voidMerge

instance : ValueMerger VoidMerge Unit where
  SingleValueMerger := Unit
  newValue m _ := ((), m)
  add _ _ := ()
  finish _ := ()

/-- `U64Merge`, which wraps around. -/
inductive U64Merge
  | u64Merge

instance : ValueMerger U64Merge UInt64 where
  SingleValueMerger := UInt64
  newValue m val := (val, m)
  add sum val := sum + val
  finish sum := sum

/-! ### The values of the two plain tables -/

/-- `VoidWriter` and `VoidReader`. The reader has `()` at every index, of which a block has no more
    than bytes. -/
instance : ValueCodec Unit where
  writeBlock _ := []
  read r := pure (List.replicate r.buffer.length (), r)

/-- The loop of `U64MonotonicWriter::write_block`, which wraps around. -/
def U64MonotonicWriter.writeDeltas : UInt64 → List UInt64 → Bytes
  | _, [] => []
  | prevVal, val :: vals => vint false 10 (val - prevVal).toNat ++ writeDeltas val vals

/-- The loop of `U64MonotonicReader::read`. -/
def U64MonotonicReader.readDeltas : Nat → UInt64 → BlockReader → Io (List UInt64 × BlockReader)
  | 0, _, r => return ([], r)
  | len + 1, prevVal, r => do
    let (delta, r) ← r.deserializeU64
    let val := prevVal + UInt64.ofNat delta
    let (vals, r) ← readDeltas len val r
    return (val :: vals, r)

/-- `U64MonotonicWriter` and `U64MonotonicReader`. -/
instance : ValueCodec UInt64 where
  writeBlock vals := vint false 10 vals.length ++ U64MonotonicWriter.writeDeltas 0 vals
  read r := do
    let (len, r) ← r.deserializeU64
    U64MonotonicReader.readDeltas len 0 r

/-! ### The merge -/

variable {V : Type} [ValueCodec V] {M : Type} [ValueMerger M V]

/-- The order of `HeapItem`: the greatest item is one with the least key. -/
def HeapItem.le (a b : Reader V) : Prop := a.key ≤ b.key

instance : DecidableRel (HeapItem.le : Reader V → Reader V → Prop) :=
  fun a b => inferInstanceAs (Decidable (a.key ≤ b.key))

instance : Std.Total (HeapItem.le : Reader V → Reader V → Prop) := ⟨fun _ _ => Std.le_total⟩

instance : IsTrans (Reader V) HeapItem.le := ⟨fun _ _ _ hab hbc => Std.le_trans hab hbc⟩

/-- `BinaryHeap<HeapItem<Reader>>`. -/
abbrev BinaryHeap (V : Type) := PriorityQueue (Reader V) HeapItem.le

variable (heap : BinaryHeap V)

/-- The readers that have an entry, each standing at its first. -/
def pushReaders (q : heap.Queue) : List (Reader V) → Io heap.Queue
  | [] => return q
  | reader :: readers => do
    match ← reader.advance with
    | (true, reader) => pushReaders (heap.push q reader) readers
    | (false, _) => pushReaders q readers

/-- What is done with the head once its value is taken. -/
def advanceHead (q : heap.Queue) (head : Reader V) : Io heap.Queue := do
  match ← head.advance with
  | (true, head) => return heap.replace q head
  | (false, _) => return heap.pop q

/-- `for _ in 0..len - 1`: the values of the same key in other tables. -/
def addValues (currentKey : Bytes) : Nat → heap.Queue → ValueMerger.SingleValueMerger M V →
    Io (ValueMerger.SingleValueMerger M V × heap.Queue)
  | 0, q, valueMerger => return (valueMerger, q)
  | n + 1, q, valueMerger =>
    match heap.peek q with
    | some head =>
      if head.key = currentKey then do
        let value ← head.value
        let q ← advanceHead heap q head
        addValues currentKey n q (ValueMerger.add valueMerger value)
      else
        return (valueMerger, q)
    | none => return (valueMerger, q)

/-- `loop`, a round for each key. -/
def mergeLoop : Nat → heap.Queue → M → Writer V → Io (Writer V)
  | 0, _, _, _ => Io.panic
  | fuel + 1, q, merger, writer =>
    let len := (heap.items q).length
    match heap.peek q with
    | some head => do
      let writer ← Io.expect (writer.writeKey head.key)
      let value ← head.value
      let (valueMerger, merger) := ValueMerger.newValue merger value
      let q ← advanceHead heap q head
      let (valueMerger, q) ← addValues heap writer.previousKey (len - 1) q valueMerger
      let writer := writer.writeValue (ValueMerger.finish (M := M) valueMerger)
      -- `write_value` has done this already
      mergeLoop fuel q merger writer.flushBlockIfRequired
    | none => return writer

/-- `merge_sstable`: the table up to the index, the index and the number of the terms. -/
def mergeSSTable (fuel : Nat) (readers : List (Reader V)) (writer : Writer V) (merger : M) :
    Io (Bytes × SSTableIndex × Nat) := do
  let q ← pushReaders heap heap.empty readers
  let writer ← mergeLoop heap fuel q merger writer
  return writer.finalize

/-- `SSTable::merge`. -/
def SSTable.merge (ioReaders : List Bytes) (merger : M) : Io (Bytes × SSTableIndex × Nat) :=
  let fuel := (ioReaders.map List.length).sum + 1
  mergeSSTable heap fuel (ioReaders.map (Reader.new V)) (Writer.new V) merger

/-! ### Tables as a whole -/

/-- A table that is written entry by entry, up to the index. -/
def SSTable.write (entries : List (Bytes × V)) : Option Bytes := do
  let writer ← (Writer.new V).writeAll entries
  return writer.finalize.1

/-- `advance`, `key` and `value` until the end. -/
def Reader.stream : Nat → Reader V → Io (List (Bytes × V))
  | 0, _ => Io.panic
  | fuel + 1, r => do
    match ← r.advance with
    | (true, r) =>
      let value ← r.value
      let entries ← Reader.stream fuel r
      return (r.key, value) :: entries
    | (false, _) => return []

/-- The entries of a table. -/
def SSTable.stream (V : Type) [ValueCodec V] (table : Bytes) : Io (List (Bytes × V)) :=
  Reader.stream (table.length + 1) (Reader.new V table)

end TeaclaveCrates.Tantivy
