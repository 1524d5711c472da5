import Mathlib.Algebra.GroupWithZero.Nat
import Mathlib.Data.List.Infix
import Mathlib.Logic.Relation

namespace TeaclaveCrates.Tantivy

/-!
# The delete queue

`indexer/delete_queue.rs`: a broadcast queue with one buffer of pending operations and a linked list
of read-only blocks. A cursor that has read its block asks for the next one, and the buffer becomes
a block only when somebody asks at the end of the list. The queue itself keeps a weak reference to
the last block, so the list lives as long as cursors point into it.

* `Block`, `DeleteCursor`, `DeleteQueue` — the heap of blocks, the cursors, the buffer.
* `cursor`, `push`, `flush`, `nextBlock`, `get`, `advance`, `skipTo` — the operations.
* `Call`, `step`, `run` — any interleaving of calls by any number of cursors.
* `Broadcast` — the abstract queue: every cursor owns the list of what it has still to read.
  That every run of the delete queue is one of the abstract queue is proved in `Broadcast`.

A call holds the lock of a block's `next` pointer from the look at it to the write to it, and the
lock of the buffer while it flushes, so each call below is one step. The loop of `skip_to` takes the
locks anew in each round; `skipRound` is one round, to be interleaved with other calls.
-/

/-! ### Data -/

/-- What to delete, and when it was asked for. -/
structure DeleteOperation (W : Type) where
  opstamp : Nat
  target : W
  deriving DecidableEq, Repr

/-- A read-only block. `next` is `none` while it is `InnerNextBlock::Writer`, and the address of the
    following block once it is `Closed`. -/
structure DeleteQueue.Block (W : Type) where
  operations : List (DeleteOperation W)
  next : Option Nat

/-- A block of the queue and a position in it. -/
structure DeleteCursor where
  block : Nat
  pos : Nat
  deriving DecidableEq, Repr

/-- The queue and everything that hangs on it. Blocks stay in the list at their address; whether a
    block is still allocated is decided by `live`. The cursors that exist have a slot each, which is
    empty once the cursor is dropped. -/
structure DeleteQueue (W : Type) where
  writer : List (DeleteOperation W)
  lastBlock : Option Nat
  blocks : List (DeleteQueue.Block W)
  cursors : List (Option DeleteCursor)

namespace DeleteQueue

variable {W : Type}

/-- `DeleteQueue::new` -/
def new : DeleteQueue W := ⟨[], none, [], []⟩

/-! ### Reference counts -/

/-- The block behind a closed `next` pointer. -/
def nextOf (q : DeleteQueue W) (b : Nat) : Option Nat := (q.blocks[b]?).bind Block.next

/-- The blocks that a strong reference to `b` keeps alive. -/
def chain (q : DeleteQueue W) : Nat → Nat → List Nat
  | 0, b => [b]
  | fuel + 1, b =>
    match q.nextOf b with
    | none => [b]
    | some b' => b :: q.chain fuel b'

/-- Does a strong reference to the block exist? Closed pointers lead from a block to a later one, so
    the number of blocks bounds the length of every chain. -/
def live (q : DeleteQueue W) (b : Nat) : Bool :=
  q.cursors.any fun slot =>
    match slot with
    | some c => decide (b ∈ q.chain q.blocks.length c.block)
    | none => false

/-- `last_block.upgrade()` -/
def upgradeLast (q : DeleteQueue W) : Option Nat := q.lastBlock.filter fun b => q.live b

/-! ### Operations -/

/-- Put a new block on the heap, as the last one. -/
def allocLast (q : DeleteQueue W) (operations : List (DeleteOperation W)) : DeleteQueue W :=
  { q with
    blocks := q.blocks ++ [⟨operations, none⟩]
    lastBlock := some q.blocks.length }

/-- `get_last_block`. The second look under the write lock decides; a first look that fails has no
    effect. -/
def getLastBlock (q : DeleteQueue W) : DeleteQueue W × Nat :=
  match q.upgradeLast with
  | some b => (q, b)
  | none => (q.allocLast [], q.blocks.length)

/-- The operations of a block. -/
def operationsOf (q : DeleteQueue W) (b : Nat) : List (DeleteOperation W) :=
  ((q.blocks[b]?).map Block.operations).getD []

/-- `DeleteQueue::cursor`, with the slot of the new cursor. -/
def cursor (q : DeleteQueue W) : DeleteQueue W × Nat :=
  let (q, lastBlock) := q.getLastBlock
  let operationsLen := (q.operationsOf lastBlock).length
  ({ q with cursors := q.cursors ++ [some ⟨lastBlock, operationsLen⟩] }, q.cursors.length)

/-- Append an operation to the writer. -/
def push (q : DeleteQueue W) (op : DeleteOperation W) : DeleteQueue W :=
  { q with writer := q.writer ++ [op] }

/-- Move the writer to a block of its own, if it holds anything. -/
def flush (q : DeleteQueue W) : DeleteQueue W × Option Nat :=
  if q.writer.isEmpty then (q, none)
  else ({ q.allocLast q.writer with writer := [] }, some q.blocks.length)

/-- Set the `next` pointer of a block to `Closed`. -/
def close (q : DeleteQueue W) (b b' : Nat) : DeleteQueue W :=
  { q with blocks := q.blocks.modify b fun block => { block with next := some b' } }

/-- `NextBlock::next_block` of block `b`. -/
def nextBlock (q : DeleteQueue W) (b : Nat) : DeleteQueue W × Option Nat :=
  match q.nextOf b with
  | some b' => (q, some b')
  | none =>
    match q.flush with
    | (q, none) => (q, none)
    | (q, some b') => (q.close b b', some b')

/-- `load_block_if_required` -/
def loadBlockIfRequired (q : DeleteQueue W) (c : DeleteCursor) : DeleteQueue W × DeleteCursor × Bool :=
  if (q.operationsOf c.block).length ≤ c.pos then
    match q.nextBlock c.block with
    | (q, some b') => (q, ⟨b', 0⟩, true)
    | (q, none) => (q, c, false)
  else (q, c, true)

/-- `DeleteCursor::get`; indexing past the end of a block would panic. -/
def get (q : DeleteQueue W) (c : DeleteCursor) :
    DeleteQueue W × DeleteCursor × Option (DeleteOperation W) :=
  match q.loadBlockIfRequired c with
  | (q, c, true) => (q, c, (q.operationsOf c.block)[c.pos]?)
  | (q, c, false) => (q, c, none)

/-- `DeleteCursor::advance` -/
def advance (q : DeleteQueue W) (c : DeleteCursor) : DeleteQueue W × DeleteCursor × Bool :=
  match q.loadBlockIfRequired c with
  | (q, c, true) => (q, { c with pos := c.pos + 1 }, true)
  | (q, c, false) => (q, c, false)

/-- One round of the loop of `skip_to`; does the loop go on? -/
def skipRound (q : DeleteQueue W) (c : DeleteCursor) (targetOpstamp : Nat) :
    DeleteQueue W × DeleteCursor × Bool :=
  match q.get c with
  | (q, c, some operation) =>
    if operation.opstamp < targetOpstamp then
      let (q, c, _) := q.advance c
      (q, c, true)
    else (q, c, false)
  | (q, c, none) => (q, c, false)

/-- The loop of `skip_to` without other calls in between. -/
def skipLoop (targetOpstamp : Nat) : Nat → DeleteQueue W → DeleteCursor → DeleteQueue W × DeleteCursor
  | 0, q, c => (q, c)
  | fuel + 1, q, c =>
    match q.skipRound c targetOpstamp with
    | (q, c, true) => skipLoop targetOpstamp fuel q c
    | (q, c, false) => (q, c)

/-- The number of operations in the queue bounds the rounds. -/
def size (q : DeleteQueue W) : Nat :=
  (q.blocks.map fun block => block.operations.length).sum + q.writer.length

/-- Advance to the first operation from a stamp on. -/
def skipTo (q : DeleteQueue W) (c : DeleteCursor) (targetOpstamp : Nat) :
    DeleteQueue W × DeleteCursor :=
  skipLoop targetOpstamp (q.size + 1) q c

end DeleteQueue

/-! ### Runs -/

/-- A call. Cursors are named by their slot. -/
inductive DeleteQueue.Call (W : Type) where
  | push (op : DeleteOperation W)
  | cursor
  | clone (slot : Nat)
  | drop (slot : Nat)
  | get (slot : Nat)
  | advance (slot : Nat)
  | skipRound (slot : Nat) (targetOpstamp : Nat)
  | skipTo (slot : Nat) (targetOpstamp : Nat)

/-- What a call returns; `dangling` when there is no such cursor. -/
inductive DeleteQueue.Reply (W : Type) where
  | unit
  | slot (slot : Nat)
  | operation (op : Option (DeleteOperation W))
  | bool (b : Bool)
  | dangling
  deriving DecidableEq

namespace DeleteQueue

variable {W : Type}

/-- Write a cursor back to its slot. -/
def putCursor (q : DeleteQueue W) (slot : Nat) (c : Option DeleteCursor) : DeleteQueue W :=
  { q with cursors := q.cursors.set slot c }

/-- The cursor in a slot. -/
def cursorAt (q : DeleteQueue W) (slot : Nat) : Option DeleteCursor := (q.cursors[slot]?).join

/-- One call and its reply. -/
def step (q : DeleteQueue W) : Call W → DeleteQueue W × Reply W
  | .push op => (q.push op, .unit)
  | .cursor =>
    let (q, slot) := q.cursor
    (q, .slot slot)
  | .clone slot =>
    match q.cursorAt slot with
    | none => (q, .dangling)
    | some c => ({ q with cursors := q.cursors ++ [some c] }, .slot q.cursors.length)
  | .drop slot =>
    match q.cursorAt slot with
    | none => (q, .dangling)
    | some _ => (q.putCursor slot none, .unit)
  | .get slot =>
    match q.cursorAt slot with
    | none => (q, .dangling)
    | some c =>
      let (q, c, op) := q.get c
      (q.putCursor slot (some c), .operation op)
  | .advance slot =>
    match q.cursorAt slot with
    | none => (q, .dangling)
    | some c =>
      let (q, c, b) := q.advance c
      (q.putCursor slot (some c), .bool b)
  | .skipRound slot targetOpstamp =>
    match q.cursorAt slot with
    | none => (q, .dangling)
    | some c =>
      let (q, c, b) := q.skipRound c targetOpstamp
      (q.putCursor slot (some c), .bool b)
  | .skipTo slot targetOpstamp =>
    match q.cursorAt slot with
    | none => (q, .dangling)
    | some c =>
      let (q, c) := q.skipTo c targetOpstamp
      (q.putCursor slot (some c), .unit)

/-- The replies of a run. -/
def run : DeleteQueue W → List (Call W) → List (Reply W)
  | _, [] => []
  | q, call :: calls => (q.step call).2 :: (q.step call).1.run calls

end DeleteQueue

/-! ### The abstract queue -/

/-- The operations pushed so far and, for each cursor, what it has still to read. -/
structure Broadcast (W : Type) where
  log : List (DeleteOperation W)
  unread : List (Option (List (DeleteOperation W)))

namespace Broadcast

variable {W : Type}

open DeleteQueue (Call Reply)

/-- Nothing was pushed. -/
def empty : Broadcast W := ⟨[], []⟩

/-- What the cursor in a slot has still to read. -/
def unreadAt (a : Broadcast W) (slot : Nat) : Option (List (DeleteOperation W)) :=
  (a.unread[slot]?).join

/-- Set what a cursor has not read yet. -/
def put (a : Broadcast W) (slot : Nat) (u : Option (List (DeleteOperation W))) : Broadcast W :=
  { a with unread := a.unread.set slot u }

/-- The slot that a call needs to be occupied. -/
def slotOf : Call W → Option Nat
  | .push _ | .cursor => none
  | .clone slot | .drop slot | .get slot | .advance slot | .skipRound slot _ | .skipTo slot _ =>
    some slot

/-- The calls of the abstract queue. A push reaches every cursor; a new cursor starts with some
    suffix of the past; a read takes what comes next. -/
inductive Step (a : Broadcast W) : Call W → Reply W → Broadcast W → Prop
  | push (op : DeleteOperation W) :
      Step a (.push op) .unit ⟨a.log ++ [op], a.unread.map (Option.map (· ++ [op]))⟩
  | cursor (u : List (DeleteOperation W)) (hu : u <:+ a.log) :
      Step a .cursor (.slot a.unread.length) { a with unread := a.unread ++ [some u] }
  | clone (slot : Nat) (u : List (DeleteOperation W)) (hu : a.unreadAt slot = some u) :
      Step a (.clone slot) (.slot a.unread.length) { a with unread := a.unread ++ [some u] }
  | drop (slot : Nat) (u : List (DeleteOperation W)) (hu : a.unreadAt slot = some u) :
      Step a (.drop slot) .unit (a.put slot none)
  | get (slot : Nat) (u : List (DeleteOperation W)) (hu : a.unreadAt slot = some u) :
      Step a (.get slot) (.operation u.head?) a
  | advance (slot : Nat) (u : List (DeleteOperation W)) (hu : a.unreadAt slot = some u) :
      Step a (.advance slot) (.bool !u.isEmpty) (a.put slot (some u.tail))
  | skipOver (slot targetOpstamp : Nat) (op : DeleteOperation W) (u : List (DeleteOperation W))
      (hu : a.unreadAt slot = some (op :: u)) (hop : op.opstamp < targetOpstamp) :
      Step a (.skipRound slot targetOpstamp) (.bool true) (a.put slot (some u))
  | skipStop (slot targetOpstamp : Nat) (u : List (DeleteOperation W))
      (hu : a.unreadAt slot = some u) (hop : ∀ op ∈ u.head?, targetOpstamp ≤ op.opstamp) :
      Step a (.skipRound slot targetOpstamp) (.bool false) a
  | skipTo (slot targetOpstamp : Nat) (u : List (DeleteOperation W))
      (hu : a.unreadAt slot = some u) :
      Step a (.skipTo slot targetOpstamp) .unit
        (a.put slot (some (u.dropWhile fun op => op.opstamp < targetOpstamp)))
  | dangling (call : Call W) (slot : Nat) (hcall : slotOf call = some slot)
      (hu : a.unreadAt slot = none) : Step a call .dangling a

/-- The runs of the abstract queue. -/
inductive Run : Broadcast W → List (Call W) → List (Reply W) → Prop
  | nil (a : Broadcast W) : Run a [] []
  | cons {a a' : Broadcast W} {call : Call W} {reply : Reply W} {calls : List (Call W)}
      {replies : List (Reply W)} (hstep : Step a call reply a') (hrun : Run a' calls replies) :
      Run a (call :: calls) (reply :: replies)

end Broadcast

end TeaclaveCrates.Tantivy
