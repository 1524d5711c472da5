import TeaclaveCrates.Rustls.CommonState

namespace TeaclaveCrates.Rustls

open TeaclaveCrates.Lib

/-!
# rustls — the chunked buffer as a queue of bytes

The operations of `vecbuf.rs` that the sending half leaves out, and what any sequence of
operations on a `ChunkVecBuffer` does: the bytes that left it and those that are inside are the
bytes that came in.

* `Writer` — a sink of `write_to`, which accepts some of the bytes or fails;
* `ChunkVecBuffer.Op`, `ChunkVecBuffer.run` — sequences of operations;
* `ChunkVecBuffer.Solid` — the invariant: no chunk is empty;
* `ChunkVecBuffer.run_queue` — a run from a new buffer.
-/

/-- An `io::Write`: `write_vectored` takes some number of the bytes it is offered, or fails. -/
structure Writer (ε : Type) where
  writeVectored : List Bytes → Except ε Nat
  le_offered : ∀ bufs n, writeVectored bufs = .ok n → n ≤ bufs.flatten.length

namespace ChunkVecBuffer

variable {ε : Type} {b : ChunkVecBuffer} {chunks : List Bytes} {used : Nat}

/-- `new`. -/
def new (limit : Option Nat) : ChunkVecBuffer := ⟨[], limit⟩

/-- `set_limit`. -/
def setLimit (b : ChunkVecBuffer) (newLimit : Option Nat) : ChunkVecBuffer :=
  { b with limit := newLimit }

/-- `is_empty`. -/
def isEmpty (b : ChunkVecBuffer) : Bool := b.chunks.isEmpty

/-- `pop`. -/
def pop (b : ChunkVecBuffer) : Option Bytes × ChunkVecBuffer :=
  (b.chunks.head?, { b with chunks := b.chunks.tail })

/-- The chunks that `write_to` offers. -/
def offered (b : ChunkVecBuffer) : List Bytes := b.chunks.take 64

/-- `write_to` a writer, with the bytes that it took. -/
def writeToWriter (b : ChunkVecBuffer) (wr : Writer ε) : Except ε Bytes × ChunkVecBuffer :=
  if b.isEmpty then
    (.ok [], b)
  else
    match wr.writeVectored b.offered with
    | .error e => (.error e, b)
    | .ok used => (.ok (b.offered.flatten.take used), b.consume used)

theorem length_consumeChunks_le (chunks : List Bytes) (used : Nat) :
    (consumeChunks chunks used).length ≤ chunks.length := by
  induction chunks generalizing used with
  | nil => simp [consumeChunks]
  | cons buf rest ih =>
    rw [consumeChunks]
    split
    · simp
    · exact (ih _).trans (Nat.le_succ _)

/-- The loop of `read`, with `room` bytes of the caller's buffer left. -/
def readChunks : List Bytes → Nat → Bytes × List Bytes
  | [], _ => ([], [])
  | chunk :: rest, room =>
    if room = 0 then
      ([], chunk :: rest)
    else
      let used := min chunk.length room
      let r := readChunks (consumeChunks (chunk :: rest) used) (room - used)
      (chunk.take used ++ r.1, r.2)
termination_by chunks room => chunks.length + room
decreasing_by
  have hle := length_consumeChunks_le (chunk :: rest) (min chunk.length room)
  by_cases hempty : chunk.length = 0
  · -- an empty chunk is taken off
    have hle := length_consumeChunks_le rest 0
    rw [hempty, Nat.zero_min, consumeChunks, hempty, if_neg (Nat.lt_irrefl 0), Nat.sub_self,
      List.length_cons]
    omega
  · omega

/-- `read` into a buffer of `size` bytes. -/
def read (b : ChunkVecBuffer) (size : Nat) : Bytes × ChunkVecBuffer :=
  let r := readChunks b.chunks size
  (r.1, { b with chunks := r.2 })

/-! ### Sequences of operations -/

/-- An operation, and its arguments. -/
inductive Op (ε : Type)
  | append (bytes : Bytes)
  | appendLimitedCopy (bytes : Bytes)
  | setLimit (newLimit : Option Nat)
  | read (size : Nat)
  | pop
  | writeTo (wr : Writer ε)

/-- One operation: the bytes that were accepted, those that left, and the buffer after it. -/
def step (b : ChunkVecBuffer) : Op ε → Bytes × Bytes × ChunkVecBuffer
  | .append bytes => (bytes, [], b.append bytes)
  | .appendLimitedCopy bytes =>
    let r := b.appendLimitedCopy bytes
    (bytes.take r.1, [], r.2)
  | .setLimit newLimit => ([], [], b.setLimit newLimit)
  | .read size =>
    let r := b.read size
    ([], r.1, r.2)
  | .pop =>
    let r := b.pop
    ([], r.1.getD [], r.2)
  | .writeTo wr =>
    match b.writeToWriter wr with
    | (.ok written, b) => ([], written, b)
    | (.error _, b) => ([], [], b)

/-- Operations one after the other: all that was accepted, all that left, and the buffer. -/
def run : List (Op ε) → ChunkVecBuffer → Bytes × Bytes × ChunkVecBuffer
  | [], b => ([], [], b)
  | op :: ops, b =>
    let s := b.step op
    let r := run ops s.2.2
    (s.1 ++ r.1, s.2.1 ++ r.2.1, r.2.2)

/-! ### What an operation keeps -/

/-- No chunk is empty. -/
def Solid (b : ChunkVecBuffer) : Prop := ∀ chunk ∈ b.chunks, chunk ≠ []

theorem Solid.append (h : b.Solid) (bytes : Bytes) : (b.append bytes).Solid := by
  unfold ChunkVecBuffer.append
  split
  · exact h
  · rename_i hne
    intro chunk hchunk
    rcases List.mem_append.mp hchunk with hold | hnew
    · exact h chunk hold
    · rw [List.mem_singleton.mp hnew]
      simpa using hne

theorem solid_consumeChunks (h : ∀ chunk ∈ chunks, chunk ≠ []) :
    ∀ chunk ∈ consumeChunks chunks used, chunk ≠ [] := by
  induction chunks generalizing used with
  | nil => simp [consumeChunks]
  | cons buf rest ih =>
    rw [consumeChunks]
    split
    · rename_i hlt
      intro chunk hchunk
      rcases List.mem_cons.mp hchunk with rfl | hold
      · simpa using hlt
      · exact h chunk (List.mem_cons_of_mem _ hold)
    · exact ih fun chunk hchunk => h chunk (List.mem_cons_of_mem _ hchunk)

theorem Solid.isEmpty_iff (h : b.Solid) : b.isEmpty = true ↔ b.len = 0 := by
  obtain ⟨chunks, limit⟩ := b
  cases chunks with
  | nil => simp [isEmpty, len]
  | cons chunk rest => simp [isEmpty, len, h chunk List.mem_cons_self]

theorem len_eq (b : ChunkVecBuffer) : b.len = b.bytes.length := by
  simp [len, bytes]

/-- The bytes of a read are the first of the buffer. -/
theorem readChunks_spec (room : Nat) (h : ∀ chunk ∈ chunks, chunk ≠ []) :
    (readChunks chunks room).1 = chunks.flatten.take room ∧
      (readChunks chunks room).2.flatten = chunks.flatten.drop room ∧
      ∀ chunk ∈ (readChunks chunks room).2, chunk ≠ [] := by
  induction chunks, room using readChunks.induct with
  | case1 room => simp [readChunks]
  | case2 chunk rest => simpa [readChunks] using h
  | case3 chunk rest room hroom used ih =>
    obtain ⟨hread, hrest, hsolid⟩ := ih (solid_consumeChunks h)
    have hused : used ≤ room := Nat.min_le_right _ _
    have htake : chunk.take used = (chunk :: rest).flatten.take used := by
      rw [List.flatten_cons, List.take_append_of_le_length (Nat.min_le_left _ _)]
    rw [flatten_consumeChunks] at hread hrest
    rw [readChunks, if_neg hroom]
    refine ⟨?_, ?_, hsolid⟩
    · show chunk.take used ++ (readChunks _ (room - used)).1 = _
      rw [hread, htake, ← List.take_add, Nat.add_sub_cancel' hused]
    · show (readChunks _ (room - used)).2.flatten = _
      rw [hrest, List.drop_drop, Nat.add_sub_cancel' hused]

theorem writeToWriter_error (wr : Writer ε) {e : ε} (h : (b.writeToWriter wr).1 = .error e) :
    (b.writeToWriter wr).2 = b := by
  unfold writeToWriter at h ⊢
  split
  · rfl
  · split
    · rfl
    · rename_i hne _ _ hok
      simp [hok, hne] at h

/-- **One operation.** What was inside and what was accepted is what left and what is inside. -/
theorem step_spec (h : b.Solid) (op : Op ε) :
    b.bytes ++ (b.step op).1 = (b.step op).2.1 ++ (b.step op).2.2.bytes ∧
      (b.step op).2.2.Solid := by
  cases op with
  | append bytes => exact ⟨(bytes_append b bytes).symm, h.append bytes⟩
  | appendLimitedCopy bytes => exact ⟨(bytes_append b _).symm, h.append _⟩
  | setLimit newLimit => exact ⟨by simp [step, setLimit, bytes], h⟩
  | read size =>
    obtain ⟨hread, hrest, hsolid⟩ := readChunks_spec size h
    refine ⟨?_, hsolid⟩
    show b.bytes ++ [] = (readChunks b.chunks size).1 ++ (readChunks b.chunks size).2.flatten
    rw [hread, hrest, List.append_nil, List.take_append_drop, bytes]
  | pop =>
    obtain ⟨chunks, limit⟩ := b
    cases chunks with
    | nil => exact ⟨rfl, h⟩
    | cons chunk rest =>
      exact ⟨by simp [step, pop, bytes], fun c hc => h c (List.mem_cons_of_mem _ hc)⟩
  | writeTo wr =>
    simp only [step, writeToWriter]
    cases hempty : b.isEmpty with
    | true => exact ⟨List.append_nil _, h⟩
    | false =>
      cases hwrite : wr.writeVectored b.offered with
      | error e => exact ⟨List.append_nil _, h⟩
      | ok used =>
        refine ⟨?_, solid_consumeChunks h⟩
        have hsplit : b.bytes = b.offered.flatten ++ (b.chunks.drop 64).flatten := by
          rw [offered, ← List.flatten_append, List.take_append_drop, bytes]
        have htake : b.offered.flatten.take used = b.bytes.take used := by
          rw [hsplit, List.take_append_of_le_length (wr.le_offered _ _ hwrite)]
        show b.bytes ++ [] = b.offered.flatten.take used ++ (consumeChunks b.chunks used).flatten
        rw [htake, flatten_consumeChunks, List.append_nil]
        exact (List.take_append_drop used b.bytes).symm

theorem run_spec (ops : List (Op ε)) (h : b.Solid) :
    b.bytes ++ (run ops b).1 = (run ops b).2.1 ++ (run ops b).2.2.bytes ∧ (run ops b).2.2.Solid := by
  induction ops generalizing b with
  | nil => exact ⟨List.append_nil _, h⟩
  | cons op ops ih =>
    obtain ⟨hstep, hsolid⟩ := step_spec h op
    obtain ⟨hrun, hend⟩ := ih hsolid
    refine ⟨?_, hend⟩
    show b.bytes ++ ((b.step op).1 ++ _) = ((b.step op).2.1 ++ _) ++ _
    rw [← List.append_assoc, hstep, List.append_assoc, hrun, ← List.append_assoc]
    rfl

/-- A limited copy fills the buffer up to its limit. -/
theorem len_appendLimitedCopy_le (bytes : Bytes) {limit : Nat} (hlimit : b.limit = some limit) :
    (b.appendLimitedCopy bytes).2.len ≤ max limit b.len := by
  have hlen : (b.appendLimitedCopy bytes).2.len =
      b.len + (bytes.take (b.applyLimit bytes.length)).length := by
    rw [len_eq, len_eq, appendLimitedCopy, bytes_append, List.length_append]
  rw [hlen, applyLimit, hlimit, List.length_take]
  dsimp only
  omega

/-- **The buffer is a queue of bytes.** In every run from a new buffer the bytes that left, and
    behind them those inside, are the bytes that were accepted; a failed write changes nothing, and
    a limited copy does not exceed the limit. -/
theorem run_queue (limit : Option Nat) (ops : List (Op ε)) :
    let r := run ops (new limit)
    let b := r.2.2
    r.1 = r.2.1 ++ b.bytes ∧
      b.len = b.bytes.length ∧
      (b.isEmpty = true ↔ b.len = 0) ∧
      (∀ size, (b.read size).1 = b.bytes.take size) ∧
      (∀ (wr : Writer ε) (e : ε), (b.writeToWriter wr).1 = .error e → (b.writeToWriter wr).2 = b) ∧
      (∀ bytes l, b.limit = some l → (b.appendLimitedCopy bytes).2.len ≤ max l b.len) := by
  have hnew : (new limit).Solid := fun _ h => nomatch h
  obtain ⟨hrun, hsolid⟩ := run_spec ops hnew
  exact ⟨hrun, len_eq _, hsolid.isEmpty_iff, fun size => (readChunks_spec size hsolid).1,
    fun wr _ h => writeToWriter_error wr h, fun bytes _ h => len_appendLimitedCopy_le bytes h⟩

end ChunkVecBuffer

end TeaclaveCrates.Rustls
