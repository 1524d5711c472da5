import TeaclaveCrates.Tantivy.MemoryArena
import Mathlib.Data.Nat.Size

namespace TeaclaveCrates.Tantivy

open Lib

/-!
# Exponential unrolled linked lists

The byte lists in which the recorders keep the postings of a term. The first 16 bytes of a list
lie in the list itself; the others in blocks of an arena, each twice as large as the one before
up to 32 KB, with the address of the next block stored behind the block.

* `lenToCapacity` — what is left of the block that ends a list of a given length;
* `ensureCapacity`, `extendFromSlice`, `readToEnd` — the operations of a list;
* `lenToCapacity_add`, `lenToCapacity_block` — how the capacity moves on as a list grows.
-/

/-! ### Capacities -/

/-- Blocks do not grow beyond 32 KB. -/
def MAX_BLOCK_LEN : Nat := 1 <<< 15

theorem MAX_BLOCK_LEN_eq : MAX_BLOCK_LEN = 32768 := rfl

/-- The bytes that a list has inline. -/
def FIRST_BLOCK : Nat := 16

/-- The first block, and the address behind it. -/
def INLINED_BLOCK_LEN : Nat := FIRST_BLOCK + 4

/-- What `len_to_capacity` tells of a length. -/
inductive CapacityResult
  | available (len : Nat)
  | needAlloc (len : Nat)
  deriving DecidableEq

/-- `32 - (len - 1).leading_zeros()` is the number of binary digits of `len - 1`. -/
def lenToCapacity (len : Nat) : CapacityResult :=
  if len ≤ 15 then
    .available (FIRST_BLOCK - len)
  else if len ≤ MAX_BLOCK_LEN then
    let cap := 1 <<< (len - 1).size
    let available := cap - len
    if available = 0 then .needAlloc len else .available available
  else
    let available := len % MAX_BLOCK_LEN
    if available = 0 then .needAlloc MAX_BLOCK_LEN else .available (MAX_BLOCK_LEN - available)

namespace CapacityResult

/-- The number of bytes, of the block at hand or of the one to allocate. -/
def bytes : CapacityResult → Nat
  | available len => len
  | needAlloc len => len

/-- What is left of the block at hand. -/
def rest : CapacityResult → Nat
  | available len => len
  | needAlloc _ => 0

end CapacityResult

/-- Up to the largest block the capacity is the next power of two. -/
theorem lenToCapacity_of_pow {len s : Nat} (hlo : 2 ^ s < len) (hhi : len ≤ 2 ^ (s + 1))
    (h16 : 16 ≤ len) (hs : s ≤ 14) :
    lenToCapacity len =
      if len = 2 ^ (s + 1) then .needAlloc len else .available (2 ^ (s + 1) - len) := by
  have hpow : 2 ^ (s + 1) ≤ 2 ^ 15 := Nat.pow_le_pow_right (by decide) (by omega)
  have hmax : len ≤ MAX_BLOCK_LEN := le_trans hhi hpow
  have hsize : (len - 1).size = s + 1 := by
    apply le_antisymm
    · rw [Nat.size_le]
      omega
    · rw [Nat.succ_le_iff, Nat.lt_size]
      omega
  rw [lenToCapacity, if_neg (by omega), if_pos hmax, hsize, Nat.one_shiftLeft]
  by_cases heq : len = 2 ^ (s + 1)
  · simp [heq]
  · have : 2 ^ (s + 1) - len ≠ 0 := by omega
    simp [heq, this]

/-- The power of two below a length. -/
theorem exists_pow {len : Nat} (h16 : 16 ≤ len) (hmax : len ≤ 32768) :
    ∃ s, 2 ^ s < len ∧ len ≤ 2 ^ (s + 1) ∧ s ≤ 14 := by
  have hpos : 3 < (len - 1).size := by
    rw [Nat.lt_size]
    omega
  have hle : (len - 1).size ≤ 15 := by
    rw [Nat.size_le]
    omega
  refine ⟨(len - 1).size - 1, ?_, ?_, by omega⟩
  · have : 2 ^ ((len - 1).size - 1) ≤ len - 1 := by
      rw [← Nat.lt_size]
      omega
    omega
  · rw [Nat.sub_add_cancel (by omega)]
    have := (Nat.size_le (m := len - 1)).mp le_rfl
    omega

theorem lenToCapacity_of_max {len : Nat} (h : 32768 < len) : lenToCapacity len =
    if len % 32768 = 0 then .needAlloc 32768 else .available (32768 - len % 32768) := by
  rw [lenToCapacity, if_neg (by omega), if_neg (by rw [MAX_BLOCK_LEN_eq]; omega)]
  rfl

/-- A block that is begun is used up from its front. -/
theorem lenToCapacity_add {len k n : Nat} (h : lenToCapacity len = .available k) (h16 : 16 ≤ len)
    (hn : n < k) : lenToCapacity (len + n) = .available (k - n) := by
  rcases Nat.lt_or_ge 32768 len with hmax | hmax
  · rw [lenToCapacity_of_max hmax] at h
    split at h
    · cases h
    · cases h
      rw [lenToCapacity_of_max (by omega), if_neg (by omega)]
      congr 1
      omega
  · obtain ⟨s, hlo, hhi, hs⟩ := exists_pow h16 hmax
    rw [lenToCapacity_of_pow hlo hhi h16 hs] at h
    split at h
    · cases h
    · cases h
      rw [lenToCapacity_of_pow (s := s) (by omega) (by omega) (by omega) hs, if_neg (by omega)]
      congr 1
      omega

/-- Behind a block there is another. -/
theorem lenToCapacity_add_self {len k : Nat} (h : lenToCapacity len = .available k)
    (h16 : 16 ≤ len) : ∃ c, lenToCapacity (len + k) = .needAlloc c := by
  rcases Nat.lt_or_ge 32768 len with hmax | hmax
  · rw [lenToCapacity_of_max hmax] at h
    split at h
    · cases h
    · cases h
      exact ⟨_, by rw [lenToCapacity_of_max (by omega), if_pos (by omega)]⟩
  · obtain ⟨s, hlo, hhi, hs⟩ := exists_pow h16 hmax
    rw [lenToCapacity_of_pow hlo hhi h16 hs] at h
    split at h
    · cases h
    · cases h
      have heq : len + (2 ^ (s + 1) - len) = 2 ^ (s + 1) := by omega
      rw [heq]
      exact ⟨_, by rw [lenToCapacity_of_pow (s := s) (by omega) le_rfl (by omega) hs, if_pos rfl]⟩

/-- A block to allocate has from 16 bytes to 32 KB, and its first byte leaves one less. -/
theorem lenToCapacity_first {len c : Nat} (h : lenToCapacity len = .needAlloc c) :
    16 ≤ len ∧ 16 ≤ c ∧ c ≤ MAX_BLOCK_LEN ∧
      lenToCapacity (len + 1) = .available (c - 1) := by
  rcases Nat.lt_or_ge len 16 with hlt | h16
  · rw [lenToCapacity, if_pos (by omega)] at h
    cases h
  rcases Nat.lt_or_ge 32768 len with hmax | hmax
  · rw [lenToCapacity_of_max hmax] at h
    split at h
    · cases h
      refine ⟨h16, by decide, le_rfl, ?_⟩
      rw [lenToCapacity_of_max (by omega), if_neg (by omega)]
      congr 1
      omega
    · cases h
  · obtain ⟨s, hlo, hhi, hs⟩ := exists_pow h16 hmax
    rw [lenToCapacity_of_pow hlo hhi h16 hs] at h
    split at h
    · rename_i heq
      cases h
      refine ⟨h16, h16, hmax, ?_⟩
      rcases Nat.lt_or_ge s 14 with hlt | hge
      · -- twice as large
        rw [lenToCapacity_of_pow (s := s + 1) (by omega) (by omega) (by omega) (by omega),
          if_neg (by omega)]
        congr 1
        omega
      · -- the largest block
        have : s = 14 := by omega
        subst this
        have : len = 32768 := heq
        rw [this]
        rfl
    · cases h

/-- Within a block of `c` bytes. -/
theorem lenToCapacity_block {len c n : Nat} (h : lenToCapacity len = .needAlloc c) (hpos : 0 < n)
    (hn : n < c) : lenToCapacity (len + n) = .available (c - n) := by
  obtain ⟨h16, -, -, hfirst⟩ := lenToCapacity_first h
  have := lenToCapacity_add (n := n - 1) hfirst (by omega) (by omega)
  rw [show len + 1 + (n - 1) = len + n by omega] at this
  rw [this]
  congr 1
  omega

theorem lenToCapacity_block_self {len c : Nat} (h : lenToCapacity len = .needAlloc c) :
    ∃ c', lenToCapacity (len + c) = .needAlloc c' := by
  obtain ⟨h16, hc, -, hfirst⟩ := lenToCapacity_first h
  have := lenToCapacity_add_self hfirst (by omega)
  rwa [show len + 1 + (c - 1) = len + c by omega] at this

theorem bytes_lenToCapacity_pos (len : Nat) : 0 < (lenToCapacity len).bytes := by
  rcases Nat.lt_or_ge len 16 with hlt | h16
  · rw [lenToCapacity, if_pos (by omega)]
    simp [CapacityResult.bytes, FIRST_BLOCK]
    omega
  · cases hcap : lenToCapacity len with
    | available k =>
      by_contra hk
      have hk0 : k = 0 := by simpa [CapacityResult.bytes] using hk
      subst hk0
      obtain ⟨c, hc⟩ := lenToCapacity_add_self hcap h16
      rw [Nat.add_zero, hcap] at hc
      cases hc
    | needAlloc c =>
      have := (lenToCapacity_first hcap).2.1
      simp [CapacityResult.bytes]
      omega

/-- A list fits 32 bits up to the end of its last block. -/
theorem add_rest_le {len k : Nat} (h : lenToCapacity len = .available k) (hlen : len < 2 ^ 32) :
    len + k ≤ 2 ^ 32 := by
  rcases Nat.lt_or_ge len 16 with hlt | h16
  · rw [lenToCapacity, if_pos (by omega)] at h
    cases h
    simp [FIRST_BLOCK]
    omega
  rcases Nat.lt_or_ge 32768 len with hmax | hmax
  · rw [lenToCapacity_of_max hmax] at h
    split at h
    · cases h
    · cases h
      omega
  · obtain ⟨s, hlo, hhi, hs⟩ := exists_pow h16 hmax
    rw [lenToCapacity_of_pow hlo hhi h16 hs] at h
    split at h
    · cases h
    · cases h
      omega

theorem add_block_le {len c : Nat} (h : lenToCapacity len = .needAlloc c) (hlen : len < 2 ^ 32) :
    len + c ≤ 2 ^ 32 := by
  obtain ⟨h16, hc, hmax, hfirst⟩ := lenToCapacity_first h
  rcases Nat.lt_or_ge (len + 1) (2 ^ 32) with hlt | hge
  · have := add_rest_le hfirst hlt
    omega
  · -- the last length is not the end of a block
    have : len = 2 ^ 32 - 1 := by omega
    subst this
    cases h

/-- What is left of the block at hand, `n` bytes on. -/
theorem rest_lenToCapacity_add {len k n : Nat} (h : lenToCapacity len = .available k)
    (h16 : 16 ≤ len) (hn : n ≤ k) : (lenToCapacity (len + n)).rest = k - n := by
  rcases Nat.lt_or_ge n k with hlt | hge
  · rw [lenToCapacity_add h h16 hlt]
    rfl
  · obtain rfl : n = k := by omega
    obtain ⟨c, hc⟩ := lenToCapacity_add_self h h16
    simp [hc, CapacityResult.rest]

/-- What is left of a block of `c` bytes, `n` bytes in. -/
theorem rest_lenToCapacity_block {len c n : Nat} (h : lenToCapacity len = .needAlloc c)
    (hpos : 0 < n) (hn : n ≤ c) : (lenToCapacity (len + n)).rest = c - n := by
  rcases Nat.lt_or_ge n c with hlt | hge
  · rw [lenToCapacity_block h hpos hlt]
    rfl
  · obtain rfl : n = c := by omega
    obtain ⟨c', hc⟩ := lenToCapacity_block_self h
    simp [hc, CapacityResult.rest]

example : [16, 32, 64, 128, 32768, 65536].map lenToCapacity =
    [.needAlloc 16, .needAlloc 32, .needAlloc 64, .needAlloc 128, .needAlloc 32768,
      .needAlloc 32768] := by decide

/-! ### The list -/

/-- The list: its length, the address to write to, and the inline bytes. -/
structure ExpUnrolledLinkedList where
  len : UInt32
  tail : Addr
  inlinedData : Bytes
  length_inlinedData : inlinedData.length = INLINED_BLOCK_LEN

/-- The bytes `ensure_capacity` lends: a part of the inlined block, or of the arena. -/
inductive OutputBuf
  | inlined (start len : Nat)
  | inArena (addr : Addr) (len : Nat)

/-- The bytes that fit. -/
def OutputBuf.len : OutputBuf → Nat
  | inlined _ len => len
  | inArena _ len => len

namespace ExpUnrolledLinkedList

/-- An empty list. -/
def new : ExpUnrolledLinkedList :=
  ⟨0, Addr.nullPointer, List.replicate INLINED_BLOCK_LEN 0, List.length_replicate⟩

/-- `bs` written to the inlined block from `start` on. -/
def writeInlined (eull : ExpUnrolledLinkedList) (start : Nat) (bs : Bytes) :
    Option ExpUnrolledLinkedList :=
  if h : start + bs.length ≤ eull.inlinedData.length then
    some { eull with
      inlinedData := overwrite eull.inlinedData start bs
      length_inlinedData := (length_overwrite h).trans eull.length_inlinedData }
  else
    none

/-- Where to write next. At the end of a block another is allocated and linked. -/
def ensureCapacity (eull : ExpUnrolledLinkedList) (arena : MemoryArena) :
    Option (ExpUnrolledLinkedList × MemoryArena × OutputBuf) :=
  if eull.len.toNat ≤ FIRST_BLOCK then
    if eull.len.toNat < FIRST_BLOCK then
      some (eull, arena, .inlined eull.len.toNat (FIRST_BLOCK - eull.len.toNat))
    else do
      let (arena, newBlockAddr) ← arena.allocateSpace (FIRST_BLOCK + 4)
      let eull ← eull.writeInlined FIRST_BLOCK newBlockAddr.toBytes
      let eull := { eull with tail := newBlockAddr }
      let _ ← arena.slice eull.tail FIRST_BLOCK
      some (eull, arena, .inArena eull.tail FIRST_BLOCK)
  else
    match lenToCapacity eull.len.toNat with
    | .needAlloc newBlockLen => do
      let (arena, newBlockAddr) ← arena.allocateSpace (newBlockLen + 4)
      let arena ← arena.write eull.tail newBlockAddr.toBytes
      let eull := { eull with tail := newBlockAddr }
      let _ ← arena.slice eull.tail newBlockLen
      some (eull, arena, .inArena eull.tail newBlockLen)
    | .available available => do
      let _ ← arena.slice eull.tail available
      some (eull, arena, .inArena eull.tail available)

/-- `bs` copied to the front of what `ensure_capacity` lent. -/
def copyTo (eull : ExpUnrolledLinkedList) (arena : MemoryArena) (bs : Bytes) :
    OutputBuf → Option (ExpUnrolledLinkedList × MemoryArena)
  | .inlined start _ => do
    let eull ← eull.writeInlined start bs
    some (eull, arena)
  | .inArena addr _ => do
    let arena ← arena.write addr bs
    some (eull, arena)

/-- One round of the loop of `extend_from_slice`, with the number of bytes it took. -/
def fill (eull : ExpUnrolledLinkedList) (arena : MemoryArena) (buf : Bytes) :
    Option (ExpUnrolledLinkedList × MemoryArena × Nat) := do
  let (eull, arena, outputBuf) ← eull.ensureCapacity arena
  let addLen := min buf.length outputBuf.len
  let (eull, arena) ← eull.copyTo arena (buf.take addLen) outputBuf
  let eull := { eull with
    len := eull.len + UInt32.ofNat addLen
    tail := eull.tail.offset (UInt32.ofNat addLen) }
  some (eull, arena, addLen)

/-- What `ensure_capacity` lends is never empty. -/
theorem len_ensureCapacity_pos {eull eull' : ExpUnrolledLinkedList} {arena arena' : MemoryArena}
    {outputBuf : OutputBuf} (h : eull.ensureCapacity arena = some (eull', arena', outputBuf)) :
    0 < outputBuf.len := by
  have hbytes := bytes_lenToCapacity_pos eull.len.toNat
  unfold ensureCapacity at h
  split at h
  · split at h
    · cases h
      simp only [OutputBuf.len]
      omega
    · simp only [Option.bind_eq_bind, Option.bind_eq_some_iff, Option.some.injEq,
        Prod.mk.injEq] at h
      obtain ⟨_, -, _, -, _, -, -, -, rfl⟩ := h
      exact Nat.zero_lt_succ 15
  · split at h
    · rename_i hcap
      simp only [Option.bind_eq_bind, Option.bind_eq_some_iff, Option.some.injEq,
        Prod.mk.injEq] at h
      obtain ⟨_, -, _, -, _, -, -, -, rfl⟩ := h
      rwa [hcap] at hbytes
    · rename_i hcap
      simp only [Option.bind_eq_bind, Option.bind_eq_some_iff, Option.some.injEq,
        Prod.mk.injEq] at h
      obtain ⟨_, -, -, -, rfl⟩ := h
      rwa [hcap] at hbytes

theorem fill_pos {eull eull' : ExpUnrolledLinkedList} {arena arena' : MemoryArena} {buf : Bytes}
    {addLen : Nat} (h : eull.fill arena buf = some (eull', arena', addLen)) (hbuf : buf ≠ []) :
    0 < addLen := by
  unfold fill at h
  simp only [Option.bind_eq_bind, Option.bind_eq_some_iff, Option.some.injEq,
    Prod.mk.injEq] at h
  obtain ⟨⟨_, _, outputBuf⟩, hcap, _, -, -, -, rfl⟩ := h
  have hlen := len_ensureCapacity_pos hcap
  have := List.length_pos_iff.mpr hbuf
  exact Nat.lt_min.mpr ⟨this, hlen⟩

/-- Append bytes. -/
def extendFromSlice (eull : ExpUnrolledLinkedList) (arena : MemoryArena) (buf : Bytes) :
    Option (ExpUnrolledLinkedList × MemoryArena) :=
  if _hbuf : buf = [] then
    some (eull, arena)
  else
    match _h : eull.fill arena buf with
    | none => none
    | some (eull, arena, addLen) => eull.extendFromSlice arena (buf.drop addLen)
termination_by buf.length
decreasing_by
  have := fill_pos _h _hbuf
  have := List.length_pos_iff.mpr _hbuf
  rw [List.length_drop]
  omega

/-- The blocks behind the inlined one, from the block at `addr` on. -/
def readBlocks (arena : MemoryArena) (len cur : Nat) (addr : Addr) (output : Bytes) :
    Option Bytes :=
  let cap := (lenToCapacity cur).bytes
  match arena.slice addr cap with
  | none => none
  | some data =>
    if len ≤ cur + cap then
      some (output ++ data.take (len - cur))
    else
      match arena.readAddr (addr.offset (UInt32.ofNat cap)) with
      | none => none
      | some addr => readBlocks arena len (cur + cap) addr (output ++ data)
termination_by len - cur
decreasing_by
  have := bytes_lenToCapacity_pos cur
  omega

/-- All bytes, block after block. -/
def readToEnd (eull : ExpUnrolledLinkedList) (arena : MemoryArena) : Option Bytes :=
  let len := eull.len.toNat
  if len ≤ FIRST_BLOCK then
    some (eull.inlinedData.take len)
  else
    readBlocks arena len FIRST_BLOCK (Addr.ofBytes (eull.inlinedData.drop FIRST_BLOCK))
      (eull.inlinedData.take FIRST_BLOCK)

end ExpUnrolledLinkedList

end TeaclaveCrates.Tantivy
