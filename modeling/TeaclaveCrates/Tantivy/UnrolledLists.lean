import TeaclaveCrates.Tantivy.ExpUnrolledLinkedList

namespace TeaclaveCrates.Tantivy

open Lib
open MemoryArena (exists_slice growLens length_lens memUsage)

/-!
# Unrolled lists that share an arena

What a list of `ExpUnrolledLinkedList` holds, and that writing to one list changes no other.

* `Filled` — everything one round of `extend_from_slice` can do: write to the inlined block, to a
  first block, to the block at hand or to a new one;
* `Chain` — the blocks of a list, with a ghost map from the places of the arena to their owners;
* `Lists` — any number of lists over one arena; `Lists.Inv` is kept by every write.

An address has 12 bits for the page, so the lists hold what was written to them as long as the
arena has no more than 4096 pages. Pages are not always full: an allocation that does not fit the
last page begins a new one, and what is left of the last page is lost.
-/

namespace ExpUnrolledLinkedList

variable {eull eull' : ExpUnrolledLinkedList} {arena arena' : MemoryArena} {buf : Bytes}

/-! ### One round of writing -/

/-- The block at hand lies within a page, with the address behind it. -/
def Fits (eull : ExpUnrolledLinkedList) (arena : MemoryArena) : Prop :=
  FIRST_BLOCK < eull.len.toNat →
    arena.Room eull.tail.toNat ((lenToCapacity eull.len.toNat).rest + 4)

/-- What a round does that writes the bytes `new`. -/
inductive Filled (eull : ExpUnrolledLinkedList) (arena : MemoryArena) (new : Bytes)
    (eull' : ExpUnrolledLinkedList) (arena' : MemoryArena) : Prop
  | inlined (hlen : eull.len.toNat + new.length ≤ FIRST_BLOCK)
      (hdata : eull'.inlinedData = overwrite eull.inlinedData eull.len.toNat new)
      (harena : arena' = arena)
  | firstBlock {arena₁ : MemoryArena} {addr : Addr} (hlen : eull.len.toNat = FIRST_BLOCK)
      (hnew : new.length ≤ FIRST_BLOCK)
      (halloc : arena.Allocates (FIRST_BLOCK + 4) arena₁ addr)
      (hdata : eull'.inlinedData = overwrite eull.inlinedData FIRST_BLOCK addr.toBytes)
      (htail : eull'.tail = addr.offset (UInt32.ofNat new.length))
      (hlens : arena'.lens = arena₁.lens)
      (hwrite : Overwrites arena₁.cell arena'.cell addr.toNat new)
  | inBlock {k : Nat} (hlen : FIRST_BLOCK < eull.len.toNat)
      (hcap : lenToCapacity eull.len.toNat = .available k) (hnew : new.length ≤ k)
      (hdata : eull'.inlinedData = eull.inlinedData)
      (htail : eull'.tail = eull.tail.offset (UInt32.ofNat new.length))
      (hlens : arena'.lens = arena.lens)
      (hwrite : Overwrites arena.cell arena'.cell eull.tail.toNat new)
  | newBlock {k : Nat} {arena₁ arena₂ : MemoryArena} {addr : Addr}
      (hlen : FIRST_BLOCK < eull.len.toNat)
      (hcap : lenToCapacity eull.len.toNat = .needAlloc k) (hnew : new.length ≤ k)
      (halloc : arena.Allocates (k + 4) arena₁ addr)
      (hdata : eull'.inlinedData = eull.inlinedData)
      (htail : eull'.tail = addr.offset (UInt32.ofNat new.length))
      (hlens : arena'.lens = arena₁.lens)
      (hlink : Overwrites arena₁.cell arena₂.cell eull.tail.toNat addr.toBytes)
      (hwrite : Overwrites arena₂.cell arena'.cell addr.toNat new)

theorem writeInlined_eq (eull : ExpUnrolledLinkedList) (start : Nat) (bs : Bytes)
    (h : start + bs.length ≤ INLINED_BLOCK_LEN) :
    ∃ eull', eull.writeInlined start bs = some eull' ∧
      eull'.inlinedData = overwrite eull.inlinedData start bs ∧ eull'.len = eull.len ∧
        eull'.tail = eull.tail := by
  have hfits : start + bs.length ≤ eull.inlinedData.length := by rwa [eull.length_inlinedData]
  exact ⟨_, dif_pos hfits, rfl, rfl, rfl⟩

/-- A round always succeeds, takes what fits the block and does what `Filled` says. -/
theorem fill_spec (hfits : eull.Fits arena) (buf : Bytes) :
    ∃ eull' arena' addLen, eull.fill arena buf = some (eull', arena', addLen) ∧
      addLen = min buf.length (lenToCapacity eull.len.toNat).bytes ∧
      eull'.len = eull.len + UInt32.ofNat addLen ∧
      Filled eull arena (buf.take addLen) eull' arena' := by
  have hPS := PAGE_SIZE_eq
  rcases Nat.lt_trichotomy eull.len.toNat FIRST_BLOCK with hlt | heq | hgt
  · -- the inlined block
    set n := min buf.length (FIRST_BLOCK - eull.len.toNat) with hn
    have hlen : (buf.take n).length = n := by rw [List.length_take]; omega
    have hcap : lenToCapacity eull.len.toNat = .available (FIRST_BLOCK - eull.len.toNat) := by
      simp [lenToCapacity, (Nat.le_of_lt_succ hlt)]
    obtain ⟨eull₁, hwrite, hdata, hl, -⟩ := writeInlined_eq eull
      eull.len.toNat (buf.take n) (by rw [hlen, INLINED_BLOCK_LEN]; omega)
    refine ⟨{ eull₁ with
        len := eull₁.len + UInt32.ofNat n
        tail := eull₁.tail.offset (UInt32.ofNat n) }, arena, n, ?_, by rw [hcap]; rfl, ?_, ?_⟩
    · simp [fill, ensureCapacity, hlt.le, hlt, OutputBuf.len, copyTo, ← hn, hwrite]
    · rw [← hl]
    · exact .inlined (by omega) hdata rfl
  · -- the first block of the arena
    set n := min buf.length FIRST_BLOCK with hn
    have hlen : (buf.take n).length = n := by rw [List.length_take]; omega
    have hn16 : n ≤ 16 := by simp only [hn, FIRST_BLOCK]; omega
    obtain ⟨arena₁, addr, halloc, hspec⟩ := arena.allocateSpace_spec (FIRST_BLOCK + 4)
      (by decide) (by decide)
    obtain ⟨eull₁, hlink, hdata, hl, -⟩ := writeInlined_eq eull FIRST_BLOCK
      addr.toBytes (by simp [INLINED_BLOCK_LEN])
    have hroom : arena₁.Room addr.toNat FIRST_BLOCK :=
      hspec.room.mono le_rfl (by omega) (by simp [FIRST_BLOCK])
    obtain ⟨dest, hslice, -, -⟩ := exists_slice hroom
    obtain ⟨arena₂, hwrite, hover, hlens⟩ := arena₁.write_spec addr
      (buf.take n) (hroom.mono le_rfl (by omega)
        (by simp [FIRST_BLOCK]))
    refine ⟨{ eull₁ with
        len := eull₁.len + UInt32.ofNat n
        tail := addr.offset (UInt32.ofNat n) }, arena₂, n, ?_, by rw [heq]; rfl, ?_, ?_⟩
    · simp [fill, ensureCapacity, heq.le, heq.not_lt, halloc, hlink, hslice, OutputBuf.len, copyTo,
        ← hn, hwrite]
    · rw [← hl]
    · exact .firstBlock heq (by rw [hlen]; exact hn16) hspec hdata (by rw [hlen]) hlens hover
  · have hroom := hfits hgt
    cases hcap : lenToCapacity eull.len.toNat with
    | available k =>
      -- the block at hand
      have hk := bytes_lenToCapacity_pos eull.len.toNat
      rw [hcap] at hroom hk
      simp only [CapacityResult.rest, CapacityResult.bytes] at hroom hk
      set n := min buf.length k with hn
      have hlen : (buf.take n).length = n := by rw [List.length_take]; omega
      have hblock : arena.Room eull.tail.toNat k := hroom.mono le_rfl (by omega) (by omega)
      obtain ⟨dest, hslice, -, -⟩ := exists_slice hblock
      obtain ⟨arena₁, hwrite, hover, hlens⟩ := arena.write_spec eull.tail
        (buf.take n) (hblock.mono le_rfl (by omega) (by omega))
      refine ⟨{ eull with
          len := eull.len + UInt32.ofNat n
          tail := eull.tail.offset (UInt32.ofNat n) }, arena₁, n, ?_, rfl, rfl, ?_⟩
      · simp [fill, ensureCapacity, hgt.not_ge, hcap, hslice, OutputBuf.len, copyTo, ← hn, hwrite]
      · exact .inBlock hgt hcap (by omega) rfl (by rw [hlen]) hlens hover
    | needAlloc k =>
      -- a new block, and its address behind the one that is full
      obtain ⟨-, hk16, hkmax, -⟩ := lenToCapacity_first hcap
      rw [MAX_BLOCK_LEN_eq] at hkmax
      rw [hcap] at hroom
      set n := min buf.length k with hn
      have hlen : (buf.take n).length = n := by rw [List.length_take]; omega
      obtain ⟨arena₁, addr, halloc, hspec⟩ := arena.allocateSpace_spec (k + 4)
        (by omega) (by omega)
      obtain ⟨arena₂, hlink, hoverLink, hlens₂⟩ := arena₁.write_spec eull.tail
        addr.toBytes (by exact hroom.grow hspec.length_le)
      have hblock : arena₂.Room addr.toNat k :=
        (hspec.room.grow (by rw [hlens₂])).mono le_rfl (by omega) (by omega)
      obtain ⟨dest, hslice, -, -⟩ := exists_slice hblock
      obtain ⟨arena₃, hwrite, hover, hlens₃⟩ := arena₂.write_spec addr
        (buf.take n) (hblock.mono le_rfl (by omega) (by omega))
      refine ⟨{ eull with
          len := eull.len + UInt32.ofNat n
          tail := addr.offset (UInt32.ofNat n) }, arena₃, n, ?_, rfl, rfl, ?_⟩
      · simp [fill, ensureCapacity, hgt.not_ge, hcap, halloc, hlink, hslice, OutputBuf.len, copyTo,
          ← hn, hwrite]
      · exact .newBlock hgt hcap (by omega) hspec rfl (by rw [hlen]) (hlens₃.trans hlens₂)
          hoverLink hover

/-- The loop goes on with what a round left. -/
theorem extendFromSlice_of_fill {addLen : Nat} (hbuf : buf ≠ [])
    (hfill : eull.fill arena buf = some (eull', arena', addLen)) :
    eull.extendFromSlice arena buf = eull'.extendFromSlice arena' (buf.drop addLen) := by
  rw [extendFromSlice, dif_neg hbuf]
  split
  · rename_i hnone
    rw [hfill] at hnone
    cases hnone
  · rename_i hsome
    rw [hfill] at hsome
    cases hsome
    rfl

theorem extendFromSlice_nil : eull.extendFromSlice arena [] = some (eull, arena) := by
  simp [extendFromSlice]

theorem lenToCapacity_firstBlock : lenToCapacity FIRST_BLOCK = .needAlloc FIRST_BLOCK := by decide

theorem toNat_add_len {n : Nat} (h : eull'.len = eull.len + UInt32.ofNat n) :
    eull'.len.toNat = (eull.len.toNat + n) % 2 ^ 32 := by
  simp [h]

theorem Filled.lens_le {new : Bytes} (h : Filled eull arena new eull' arena') :
    arena.lens.length ≤ arena'.lens.length := by
  cases h with
  | inlined _ _ harena => rw [harena]
  | firstBlock _ _ halloc _ _ hlens => rw [hlens]; exact halloc.length_le
  | inBlock _ _ _ _ _ hlens => rw [hlens]
  | newBlock _ _ _ halloc _ _ hlens => rw [hlens]; exact halloc.length_le

/-- After a round the block at hand lies within a page again, however large the arena is. -/
theorem Filled.fits {new : Bytes} (h : Filled eull arena new eull' arena')
    (hlen' : eull'.len = eull.len + UInt32.ofNat new.length) (hpos : 0 < new.length)
    (hfits : eull.Fits arena) : eull'.Fits arena' := by
  intro hgt
  have hlt := eull.len.toNat_lt
  have h16 : FIRST_BLOCK = 16 := rfl
  cases h with
  | inlined hlen =>
    rw [toNat_add_len hlen'] at hgt
    omega
  | @firstBlock arena₁ addr hlen hnew halloc _ htail hlens =>
    have hroom : arena'.Room _ _ := halloc.room.grow (by rw [hlens])
    have hle := hroom.add_le
    rw [toNat_add_len hlen', hlen, Nat.mod_eq_of_lt (by omega),
      rest_lenToCapacity_block lenToCapacity_firstBlock hpos hnew, htail,
      Addr.toNat_offset (by omega)]
    exact hroom.mono (by omega) (by omega) (by omega)
  | @inBlock k hlen hcap hnew _ htail hlens =>
    have hroom := hfits hlen
    rw [hcap] at hroom
    have hk := add_rest_le hcap hlt
    have hroom : arena'.Room _ _ := hroom.grow (by rw [hlens])
    have hle := hroom.add_le
    simp only [CapacityResult.rest] at hroom hle
    rw [toNat_add_len hlen'] at hgt ⊢
    -- the length does not wrap: otherwise it would be 0
    have hwrap : eull.len.toNat + new.length < 2 ^ 32 := by omega
    rw [Nat.mod_eq_of_lt hwrap, rest_lenToCapacity_add hcap (by omega) hnew, htail,
      Addr.toNat_offset (by omega)]
    exact hroom.mono (by omega) (by omega) (by omega)
  | @newBlock k arena₁ arena₂ addr hlen hcap hnew halloc _ htail hlens =>
    have hk := add_block_le hcap hlt
    have hroom : arena'.Room _ _ := halloc.room.grow (by rw [hlens])
    have hle := hroom.add_le
    rw [toNat_add_len hlen'] at hgt ⊢
    have hwrap : eull.len.toNat + new.length < 2 ^ 32 := by omega
    rw [Nat.mod_eq_of_lt hwrap, rest_lenToCapacity_block hcap hpos hnew, htail,
      Addr.toNat_offset (by omega)]
    exact hroom.mono (by omega) (by omega) (by omega)

/-! ### The blocks of a list -/

variable {ι : Type*} {owner owner' : Nat → Option ι} {i : ι}

/-- The blocks from the one at `addr` on, which begins at byte `cur` of the list, hold `bs` and
end at `tail`. Each belongs to `i`, with the address behind it; a later block has a later place. -/
inductive Chain (arena : MemoryArena) (owner : Nat → Option ι) (i : ι) :
    Nat → Addr → Nat → Bytes → Prop
  | last {cur c : Nat} {addr : Addr} {bs : Bytes} (hcap : lenToCapacity cur = .needAlloc c)
      (hroom : arena.Room addr.toNat (c + 4)) (hown : Owns owner i addr.toNat (c + 4))
      (hpos : 0 < bs.length) (hle : bs.length ≤ c) (hbs : Spells arena.cell addr.toNat bs) :
      Chain arena owner i cur addr (addr.toNat + bs.length) bs
  | more {cur c tail : Nat} {addr next : Addr} {bs rest : Bytes}
      (hcap : lenToCapacity cur = .needAlloc c)
      (hroom : arena.Room addr.toNat (c + 4)) (hown : Owns owner i addr.toNat (c + 4))
      (hlen : bs.length = c) (hbs : Spells arena.cell addr.toNat bs)
      (hlink : Spells arena.cell (addr.toNat + c) next.toBytes)
      (hnext : addr.toNat + c + 4 ≤ next.toNat)
      (hrest : Chain arena owner i (cur + c) next tail rest) :
      Chain arena owner i cur addr tail (bs ++ rest)

variable {cur tail tail' : Nat} {addr addr' : Addr} {bs new : Bytes}

theorem Chain.length_pos (h : Chain arena owner i cur addr tail bs) : 0 < bs.length := by
  induction h with
  | last _ _ _ hpos => exact hpos
  | more _ _ _ _ _ _ _ _ ih =>
    rw [List.length_append]
    omega

theorem Chain.lt_tail (h : Chain arena owner i cur addr tail bs) : addr.toNat < tail := by
  induction h with
  | last _ _ _ hpos => omega
  | more _ _ _ _ _ _ hnext _ ih => omega

/-- A list takes more space than it has bytes: four for the address behind each block. -/
theorem Chain.length_le (h : Chain arena owner i cur addr tail bs) :
    ∃ links, bs.length ≤ MAX_BLOCK_LEN * (links + 1) ∧
      addr.toNat + bs.length + 4 * links ≤ tail := by
  induction h with
  | last hcap _ _ _ hle =>
    have := (lenToCapacity_first hcap).2.2.1
    exact ⟨0, by omega, by omega⟩
  | more hcap _ _ hlen _ _ hnext _ ih =>
    have := (lenToCapacity_first hcap).2.2.1
    obtain ⟨links, hmax, htail⟩ := ih
    refine ⟨links + 1, ?_, ?_⟩
    · rw [List.length_append, Nat.mul_succ]
      omega
    · rw [List.length_append]
      omega

/-- What is left of the last block belongs to the list, with the place of the next address. -/
theorem Chain.room (h : Chain arena owner i cur addr tail bs) :
    Owns owner i tail ((lenToCapacity (cur + bs.length)).rest + 4) ∧
      arena.Room tail ((lenToCapacity (cur + bs.length)).rest + 4) := by
  induction h with
  | last hcap hroom hown hpos hle =>
    rw [rest_lenToCapacity_block hcap hpos hle]
    exact ⟨hown.mono (by omega) (by omega), hroom.mono (by omega) (by omega) (by omega)⟩
  | more hcap _ _ hlen _ _ _ _ ih =>
    rwa [List.length_append, hlen, ← Nat.add_assoc]

/-- A list reads its own cells only. -/
theorem Chain.frame (h : Chain arena owner i cur addr tail bs)
    (hlens : arena.lens.length ≤ arena'.lens.length)
    (hcell : ∀ x, owner x = some i → arena'.cell x = arena.cell x)
    (howner : ∀ x, owner x = some i → owner' x = some i) :
    Chain arena' owner' i cur addr tail bs := by
  induction h with
  | last hcap hroom hown hpos hle hbs =>
    apply Chain.last hcap (hroom.grow hlens) (fun x hx hxc => howner x (hown x hx hxc)) hpos hle
    exact hbs.congr fun x hx hxb => hcell x (hown x hx (by omega))
  | more hcap hroom hown hlen hbs hlink hnext _ ih =>
    apply Chain.more hcap (hroom.grow hlens) (fun x hx hxc => howner x (hown x hx hxc)) hlen
      (hbs.congr fun x hx hxb => hcell x (hown x hx (by omega))) _ hnext ih
    apply hlink.congr
    intro x hx hxb
    rw [Addr.length_toBytes] at hxb
    exact hcell x (hown x (by omega) (by omega))

/-- Bytes written to the rest of the last block. -/
theorem Chain.appendInBlock (h : Chain arena owner i cur addr tail bs) {k : Nat}
    (hcap : lenToCapacity (cur + bs.length) = .available k) (hnew : new.length ≤ k)
    (hlens : arena.lens.length ≤ arena'.lens.length)
    (hcell : ∀ x, x < tail → arena'.cell x = arena.cell x)
    (hwrite : Spells arena'.cell tail new) :
    Chain arena' owner i cur addr (tail + new.length) (bs ++ new) := by
  induction h with
  | @last cur c addr bs hcap' hroom hown hpos hle hbs =>
    have hrest := rest_lenToCapacity_block hcap' hpos hle
    rw [hcap] at hrest
    simp only [CapacityResult.rest] at hrest
    rw [Nat.add_assoc, ← List.length_append]
    apply Chain.last hcap' (hroom.grow hlens) hown
    · rw [List.length_append]
      omega
    · rw [List.length_append]
      omega
    · exact spells_append.mpr ⟨hbs.congr fun x _ hx => hcell x hx, hwrite⟩
  | more hcap' hroom hown hlen hbs hlink hnext hrest ih =>
    have htail := hrest.lt_tail
    rw [List.length_append, hlen, ← Nat.add_assoc] at hcap
    rw [List.append_assoc]
    apply Chain.more hcap' (hroom.grow hlens) hown hlen
      (hbs.congr fun x _ hx => hcell x (by omega)) _ hnext (ih hcap hcell hwrite)
    apply hlink.congr
    intro x _ hx
    rw [Addr.length_toBytes] at hx
    exact hcell x (by omega)

/-- A new block behind a full one. -/
theorem Chain.appendBlock (h : Chain arena owner i cur addr tail bs) {k : Nat}
    (hcap : lenToCapacity (cur + bs.length) = .needAlloc k)
    (hlens : arena.lens.length ≤ arena'.lens.length)
    (hcell : ∀ x, x < tail → arena'.cell x = arena.cell x)
    (howner : ∀ x, owner x = some i → owner' x = some i)
    (hlink : Spells arena'.cell tail addr'.toBytes) (hafter : tail + 4 ≤ addr'.toNat)
    (hblock : Chain arena' owner' i (cur + bs.length) addr' tail' new) :
    Chain arena' owner' i cur addr tail' (bs ++ new) := by
  induction h with
  | @last cur c addr bs hcap' hroom hown hpos hle hbs =>
    -- the last block is full: otherwise no block would be needed
    have hfull : bs.length = c := by
      by_contra hne
      rw [lenToCapacity_block hcap' hpos (by omega)] at hcap
      cases hcap
    rw [hfull] at hlink hafter hblock hcell
    exact Chain.more hcap' (hroom.grow hlens) (fun x hx hxc => howner x (hown x hx hxc)) hfull
      (hbs.congr fun x _ hx => hcell x (by omega)) hlink hafter hblock
  | more hcap' hroom hown hlen hbs hlink' hnext hrest ih =>
    have htail := hrest.lt_tail
    rw [List.length_append, hlen, ← Nat.add_assoc] at hcap hblock
    rw [List.append_assoc]
    apply Chain.more hcap' (hroom.grow hlens) (fun x hx hxc => howner x (hown x hx hxc)) hlen
      (hbs.congr fun x _ hx => hcell x (by omega)) _ hnext (ih hcap hcell hlink hafter hblock)
    apply hlink'.congr
    intro x _ hx
    rw [Addr.length_toBytes] at hx
    exact hcell x (by omega)

/-- Reading the blocks gives what they hold. -/
theorem Chain.readBlocks (h : Chain arena owner i cur addr tail bs) (output : Bytes) :
    ExpUnrolledLinkedList.readBlocks arena (cur + bs.length) cur addr output =
      some (output ++ bs) := by
  induction h generalizing output with
  | @last cur c addr bs hcap hroom hown hpos hle hbs =>
    have hslice : ∃ data, arena.slice addr c = some data ∧ data.length = c ∧
        Spells arena.cell addr.toNat data :=
      exists_slice (hroom.mono le_rfl (by omega) (by omega))
    obtain ⟨data, hslice, hlen, hdata⟩ := hslice
    -- the block is read whole, and the first bytes of it are the list's
    have htake : data.take bs.length = bs := by
      have hsplit : Spells arena.cell addr.toNat (data.take bs.length) := by
        rw [← List.take_append_drop bs.length data, spells_append] at hdata
        exact hdata.1
      exact hsplit.unique hbs (by rw [List.length_take]; omega)
    simp [ExpUnrolledLinkedList.readBlocks, hcap, CapacityResult.bytes, hslice,
      (Nat.add_le_add_left hle cur), htake]
  | @more cur c tail addr next bs rest hcap hroom hown hlen hbs hlink hnext hrest ih =>
    have hpos := hrest.length_pos
    have hlt := next.toNat_lt
    have hslice := MemoryArena.slice_of_spells
      (hroom.mono (k := bs.length) le_rfl (by omega) (by omega)) hbs
    rw [hlen] at hslice
    have hoff : (addr.offset (UInt32.ofNat c)).toNat = addr.toNat + c :=
      Addr.toNat_offset (by omega)
    have hread : arena.readAddr (addr.offset (UInt32.ofNat c)) = some next := by
      have hlinkRoom := hroom.mono (k := next.toBytes.length) (Nat.le_add_right _ c)
        (by rw [Addr.length_toBytes]; omega) (by omega)
      rw [← hoff] at hlinkRoom
      have hspells : Spells arena.cell (addr.offset (UInt32.ofNat c)).toNat next.toBytes := by
        rwa [hoff]
      have hread := MemoryArena.slice_of_spells hlinkRoom hspells
      rw [Addr.length_toBytes] at hread
      rw [MemoryArena.readAddr, hread, Option.map_some, Addr.ofBytes_toBytes]
    rw [ExpUnrolledLinkedList.readBlocks]
    rw [List.length_append, hlen, ← Nat.add_assoc, ← List.append_assoc]
    simp only [hcap, CapacityResult.bytes, hslice, hread]
    rw [if_neg (by omega)]
    exact ih (output ++ bs)

/-! ### A whole list -/

/-- The list `i` holds the bytes `w`: the first 16 inlined, the others in blocks of its own. -/
structure Holds (eull : ExpUnrolledLinkedList) (arena : MemoryArena) (owner : Nat → Option ι)
    (i : ι) (w : Bytes) : Prop where
  len : eull.len.toNat = w.length
  inlined : eull.inlinedData.take (min FIRST_BLOCK w.length) = w.take FIRST_BLOCK
  blocks : FIRST_BLOCK < w.length → Chain arena owner i FIRST_BLOCK
    (Addr.ofBytes (eull.inlinedData.drop FIRST_BLOCK)) eull.tail.toNat (w.drop FIRST_BLOCK)

variable {w : Bytes}

theorem holds_new (arena : MemoryArena) (owner : Nat → Option ι) (i : ι) :
    ExpUnrolledLinkedList.new.Holds arena owner i [] where
  len := rfl
  inlined := rfl
  blocks h := absurd h (Nat.not_lt_zero _)

/-- Reading a list gives what it holds. -/
theorem Holds.readToEnd (h : eull.Holds arena owner i w) : eull.readToEnd arena = some w := by
  have hinlined := h.inlined
  rw [ExpUnrolledLinkedList.readToEnd]
  simp only [h.len]
  by_cases hle : w.length ≤ FIRST_BLOCK
  · rw [if_pos hle]
    rw [min_eq_right hle, List.take_of_length_le hle] at hinlined
    rw [hinlined]
  · rw [if_neg hle]
    have hlt : FIRST_BLOCK < w.length := by omega
    have hread := (h.blocks hlt).readBlocks (eull.inlinedData.take FIRST_BLOCK)
    rw [List.length_drop, Nat.add_sub_cancel' hlt.le] at hread
    rw [min_eq_left hlt.le] at hinlined
    rw [hread, hinlined, List.take_append_drop]

theorem Holds.frame (h : eull.Holds arena owner i w)
    (hlens : arena.lens.length ≤ arena'.lens.length)
    (hcell : ∀ x, owner x = some i → arena'.cell x = arena.cell x)
    (howner : ∀ x, owner x = some i → owner' x = some i) : eull.Holds arena' owner' i w where
  len := h.len
  inlined := h.inlined
  blocks hlt := (h.blocks hlt).frame hlens hcell howner

/-- What is owned lies below the frontier. -/
theorem lt_frontier (hfresh : ∀ x, arena.frontier ≤ x → owner x = none) {x : Nat}
    (hx : owner x = some i) : x < arena.frontier := by
  by_contra hge
  rw [hfresh x (by omega)] at hx
  cases hx

/-- The length of a list within 4 GB does not wrap. -/
theorem Chain.length_lt (h : Chain arena owner i FIRST_BLOCK addr tail bs)
    (hfresh : ∀ x, arena.frontier ≤ x → owner x = none) (hmem : arena.memUsage ≤ 2 ^ 32) :
    FIRST_BLOCK + bs.length < 2 ^ 32 := by
  obtain ⟨links, hmax, htail⟩ := h.length_le
  have hown := lt_frontier hfresh (h.room.1 tail le_rfl (by omega))
  have hle := arena.frontier_le
  rw [length_lens] at hle
  unfold memUsage at hmem
  rw [MAX_BLOCK_LEN_eq] at hmax
  have h16 : FIRST_BLOCK = 16 := rfl
  omega

/-- A list that ends in blocks, from its parts. -/
theorem holds_of_chain (hdata : eull'.inlinedData.take FIRST_BLOCK = w.take FIRST_BLOCK)
    (hlen : FIRST_BLOCK < w.length) (hlen' : eull'.len.toNat = w.length % 2 ^ 32)
    (hfresh : ∀ x, arena'.frontier ≤ x → owner' x = none) (hmem : arena'.memUsage ≤ 2 ^ 32)
    (hchain : Chain arena' owner' i FIRST_BLOCK
      (Addr.ofBytes (eull'.inlinedData.drop FIRST_BLOCK)) eull'.tail.toNat (w.drop FIRST_BLOCK)) :
    eull'.Holds arena' owner' i w where
  len := by
    have hlt := hchain.length_lt hfresh hmem
    rw [List.length_drop] at hlt
    rw [hlen', Nat.mod_eq_of_lt (by omega)]
  inlined := by rw [min_eq_left hlen.le, hdata]
  blocks _ := hchain

/-- What a round that writes to list `i` leaves to the other lists. -/
def Spares (arena : MemoryArena) (owner : Nat → Option ι) (i : ι) (arena' : MemoryArena)
    (owner' : Nat → Option ι) : Prop :=
  ∀ j, j ≠ i → ∀ x, owner x = some j → arena'.cell x = arena.cell x ∧ owner' x = some j

theorem mod_page_lt (hfresh : ∀ x, arena.frontier ≤ x → owner x = none) {x : Nat}
    (hx : owner x = some i) : x / PAGE_SIZE < arena.lens.length := by
  have hlt := lt_frontier hfresh hx
  have hle := arena.frontier_le
  rw [Nat.div_lt_iff_lt_mul PAGE_SIZE_pos]
  omega

/-- A round adds what it wrote to its list and spares all others. -/
theorem Filled.holds (h : Filled eull arena new eull' arena')
    (hlen' : eull'.len = eull.len + UInt32.ofNat new.length) (hpos : 0 < new.length)
    (hmem : arena'.memUsage ≤ 2 ^ 32) (hfresh : ∀ x, arena.frontier ≤ x → owner x = none)
    (hholds : eull.Holds arena owner i w) :
    ∃ owner', (∀ x, arena'.frontier ≤ x → owner' x = none) ∧
      eull'.Holds arena' owner' i (w ++ new) ∧ Spares arena owner i arena' owner' := by
  have hlen := hholds.len
  have hinlined := hholds.inlined
  have hwrap := toNat_add_len hlen'
  rw [hlen, ← List.length_append] at hwrap
  have hldata := eull.length_inlinedData
  have h16 : FIRST_BLOCK = 16 := rfl
  have h20 : INLINED_BLOCK_LEN = 20 := rfl
  cases h with
  | inlined hle hdata harena =>
    subst harena
    rw [hlen] at hle hdata
    refine ⟨owner, hfresh, ⟨?_, ?_, ?_⟩, fun j _ x hx => ⟨rfl, hx⟩⟩
    · rw [hwrap, Nat.mod_eq_of_lt (by rw [List.length_append]; omega)]
    · -- the bytes before stay, the new ones follow
      rw [min_eq_right (by omega), List.take_of_length_le (l := w) (by omega)] at hinlined
      have hle' : (w ++ new).length ≤ FIRST_BLOCK := by rwa [List.length_append]
      rw [min_eq_right hle', List.take_of_length_le hle', hdata, overwrite, hinlined]
      exact List.take_left' rfl
    · intro hgt
      rw [List.length_append] at hgt
      omega
  | @firstBlock arena₁ addr hl hnew halloc hdata htail hlens hwrite =>
    have hmem₁ : arena₁.memUsage ≤ 2 ^ 32 := by
      unfold memUsage at *
      rwa [← length_lens, ← hlens, length_lens]
    have hfront : arena'.frontier = arena₁.frontier := by
      simp [MemoryArena.frontier, hlens]
    obtain ⟨hge, hend⟩ := halloc.fresh (by omega) hmem₁
    have hroom : arena'.Room _ _ := halloc.room.grow (by rw [hlens])
    have hle := hroom.add_le
    rw [hlen] at hl
    refine ⟨give owner i addr.toNat (FIRST_BLOCK + 4), ?_, ?_, ?_⟩
    · intro x hx
      rw [hfront] at hx
      rw [give, if_neg (by omega), hfresh x (by omega)]
    · have hdrop : eull'.inlinedData.drop FIRST_BLOCK = addr.toBytes := by
        rw [hdata, overwrite, List.append_assoc, List.drop_left' (by rw [List.length_take]; omega),
          List.drop_eq_nil_of_le (by rw [Addr.length_toBytes]; omega), List.append_nil]
      have hwdrop : (w ++ new).drop FIRST_BLOCK = new := List.drop_left' hl
      apply holds_of_chain _ (by rw [List.length_append]; omega) hwrap _ hmem
      · rw [hdrop, Addr.ofBytes_toBytes, hwdrop, htail, Addr.toNat_offset (by omega)]
        apply Chain.last lenToCapacity_firstBlock hroom (owns_give _ _ _ _) hpos hnew hwrite.spells
      · rw [hl, min_eq_left le_rfl, List.take_of_length_le hl.le] at hinlined
        rw [List.take_left' hl, hdata, overwrite, List.append_assoc,
          List.take_left' (by rw [List.length_take]; omega), hinlined]
      · intro x hx
        rw [hfront] at hx
        rw [give, if_neg (by omega), hfresh x (by omega)]
    · intro j hj x hx
      have hlt := lt_frontier hfresh hx
      refine ⟨?_, give_eq_of_fresh (fun y hy => hfresh y (by omega)) hx⟩
      rw [hwrite.frame x (by omega), halloc.cells x (mod_page_lt hfresh hx)]
  | @inBlock k hgt hcap hnew hdata htail hlens hwrite =>
    have hfront : arena'.frontier = arena.frontier := by
      unfold MemoryArena.frontier
      rw [hlens]
    rw [hlen] at hgt hcap
    have hblocks := hholds.blocks hgt
    have hcap' : lenToCapacity (FIRST_BLOCK + (w.drop FIRST_BLOCK).length) = .available k := by
      rwa [List.length_drop, Nat.add_sub_cancel' hgt.le]
    obtain ⟨hown, hroom⟩ := hblocks.room
    rw [hcap'] at hown hroom
    simp only [CapacityResult.rest] at hown hroom
    have hle := hroom.add_le
    refine ⟨owner, by rwa [hfront], ?_, ?_⟩
    · have hfresh' : ∀ x, arena'.frontier ≤ x → owner x = none := by rwa [hfront]
      apply holds_of_chain _ (by rw [List.length_append]; omega) hwrap hfresh' hmem
      · rw [hdata, htail, Addr.toNat_offset (by omega), List.drop_append_of_le_length hgt.le]
        apply hblocks.appendInBlock hcap' hnew (by rw [hlens])
        · exact fun x hx => hwrite.frame x (Or.inl hx)
        · exact hwrite.spells
      · rw [min_eq_left hgt.le] at hinlined
        rw [hdata, hinlined, List.take_append_of_le_length hgt.le]
    · intro j hj x hx
      exact ⟨hwrite.frame_owner (hown.mono le_rfl (by omega)) hx hj.symm, hx⟩
  | @newBlock k arena₁ arena₂ addr hgt hcap hnew halloc hdata htail hlens hlink hwrite =>
    have hmem₁ : arena₁.memUsage ≤ 2 ^ 32 := by
      unfold memUsage at *
      rwa [← length_lens, ← hlens, length_lens]
    have hfront : arena'.frontier = arena₁.frontier := by
      unfold MemoryArena.frontier
      rw [hlens]
    obtain ⟨hge, hend⟩ := halloc.fresh (by omega) hmem₁
    have hroom' : arena'.Room _ _ := halloc.room.grow (by rw [hlens])
    have hle := hroom'.add_le
    rw [hlen] at hgt hcap
    have hblocks := hholds.blocks hgt
    have hcap' : lenToCapacity (FIRST_BLOCK + (w.drop FIRST_BLOCK).length) = .needAlloc k := by
      rwa [List.length_drop, Nat.add_sub_cancel' hgt.le]
    obtain ⟨hown, hroom⟩ := hblocks.room
    rw [hcap'] at hown hroom
    have htailLt := lt_frontier hfresh (hown (eull.tail.toNat + 3) (by omega) (by omega))
    have hfresh' : ∀ x, arena'.frontier ≤ x → give owner i addr.toNat (k + 4) x = none := by
      intro x hx
      rw [hfront] at hx
      rw [give, if_neg (by omega), hfresh x (by omega)]
    have howner : ∀ j x, owner x = some j → give owner i addr.toNat (k + 4) x = some j :=
      fun j x hx => give_eq_of_fresh (fun y hy => hfresh y (by omega)) hx
    refine ⟨give owner i addr.toNat (k + 4), hfresh', ?_, ?_⟩
    · apply holds_of_chain _ (by rw [List.length_append]; omega) hwrap hfresh' hmem
      · rw [hdata, htail, Addr.toNat_offset (by omega), List.drop_append_of_le_length hgt.le]
        apply hblocks.appendBlock hcap' (by rw [hlens]; exact halloc.length_le) _ (howner i) _ _
          (Chain.last hcap' hroom' (owns_give _ _ _ _) hpos hnew hwrite.spells)
        · intro x hx
          rw [hwrite.frame x (by omega), hlink.frame x (by omega)]
          apply halloc.cells
          have hf := arena.frontier_le
          rw [Nat.div_lt_iff_lt_mul PAGE_SIZE_pos]
          omega
        · exact hwrite.spells_disjoint hlink.spells
            (Or.inl (by rw [Addr.length_toBytes]; omega))
        · omega
      · rw [min_eq_left hgt.le] at hinlined
        rw [hdata, hinlined, List.take_append_of_le_length hgt.le]
    · intro j hj x hx
      have hlt := lt_frontier hfresh hx
      refine ⟨?_, howner j x hx⟩
      have hownLink : Owns owner i eull.tail.toNat addr.toBytes.length := by
        rwa [Addr.length_toBytes]
      rw [hwrite.frame x (by omega), hlink.frame_owner hownLink hx hj.symm,
        halloc.cells x (mod_page_lt hfresh hx)]

end ExpUnrolledLinkedList

/-! ### Any number of lists -/

open ExpUnrolledLinkedList

variable {ι : Type}

/-- Lists over one arena. -/
structure Lists (ι : Type) where
  arena : MemoryArena
  lists : ι → ExpUnrolledLinkedList

namespace Lists

/-- An empty arena, and every list new. -/
def new : Lists ι := ⟨MemoryArena.new, fun _ => ExpUnrolledLinkedList.new⟩

/-- No write can fail; and while the arena fits 32 bits, each list holds what was written to it,
in places of its own. -/
structure Inv (s : Lists ι) (w : ι → Bytes) : Prop where
  fits : ∀ i, (s.lists i).Fits s.arena
  holds : s.arena.memUsage ≤ 2 ^ 32 → ∃ owner : Nat → Option ι,
    (∀ x, s.arena.frontier ≤ x → owner x = none) ∧ ∀ i, (s.lists i).Holds s.arena owner i (w i)

variable {s : Lists ι} {w : ι → Bytes}

theorem inv_new : (new : Lists ι).Inv fun _ => [] where
  fits _ h := absurd h (Nat.not_lt_zero _)
  holds _ := ⟨fun _ => none, fun _ _ => rfl, fun i => holds_new _ _ i⟩

/-- What is read from a list is what was written to it. -/
theorem Inv.readToEnd (h : s.Inv w) (hmem : s.arena.memUsage ≤ 2 ^ 32) (i : ι) :
    (s.lists i).readToEnd s.arena = some (w i) := by
  obtain ⟨owner, -, hholds⟩ := h.holds hmem
  exact (hholds i).readToEnd

/-! ### Writes -/

variable [DecidableEq ι]

/-- `self.lists[i].writer(&mut arena).extend_from_slice(buf)`. -/
def extend (s : Lists ι) (i : ι) (buf : Bytes) : Option (Lists ι) := do
  let (eull, arena) ← (s.lists i).extendFromSlice s.arena buf
  some ⟨arena, Function.update s.lists i eull⟩

/-- Writes to the lists, one after the other. -/
def run (s : Lists ι) : List (ι × Bytes) → Option (Lists ι)
  | [] => some s
  | (i, buf) :: writes => do
    let s ← s.extend i buf
    s.run writes

/-- The bytes written to list `i`, in order. -/
def written (writes : List (ι × Bytes)) (i : ι) : Bytes :=
  writes.flatMap fun write => if write.1 = i then write.2 else []

/-- One round of a write keeps the invariant. -/
theorem Inv.filled {i : ι} {new : Bytes} {eull' : ExpUnrolledLinkedList} {arena' : MemoryArena}
    (h : s.Inv w) (hfill : Filled (s.lists i) s.arena new eull' arena')
    (hlen : eull'.len = (s.lists i).len + UInt32.ofNat new.length) (hpos : 0 < new.length) :
    (⟨arena', Function.update s.lists i eull'⟩ : Lists ι).Inv
      (Function.update w i (w i ++ new)) := by
  have hlens := hfill.lens_le
  constructor
  · intro j
    show (Function.update s.lists i eull' j).Fits arena'
    by_cases hj : j = i
    · subst hj
      rw [Function.update_self]
      exact hfill.fits hlen hpos (h.fits j)
    · rw [Function.update_of_ne hj]
      exact fun hgt => (h.fits j hgt).grow hlens
  · intro hmem
    have hmemOld : s.arena.memUsage ≤ 2 ^ 32 := by
      rw [length_lens, length_lens] at hlens
      exact le_trans (Nat.mul_le_mul_right _ hlens) hmem
    obtain ⟨owner, hfresh, hholds⟩ := h.holds hmemOld
    obtain ⟨owner', hfresh', hself, hspares⟩ := hfill.holds hlen hpos hmem hfresh (hholds i)
    refine ⟨owner', hfresh', fun j => ?_⟩
    by_cases hj : j = i
    · subst hj
      simpa only [Function.update_self] using hself
    · simp only [Function.update_of_ne hj]
      exact (hholds j).frame hlens (fun x hx => (hspares j hj x hx).1)
        (fun x hx => (hspares j hj x hx).2)

/-- A write of any length succeeds and adds its bytes to its list. -/
theorem Inv.extendFromSlice (h : s.Inv w) (i : ι) (buf : Bytes) :
    ∃ eull' arena', (s.lists i).extendFromSlice s.arena buf = some (eull', arena') ∧
      (⟨arena', Function.update s.lists i eull'⟩ : Lists ι).Inv
        (Function.update w i (w i ++ buf)) := by
  -- on what is left of the bytes
  induction hn : buf.length using Nat.strong_induction_on generalizing s w buf with
  | _ n ih =>
    by_cases hbuf : buf = []
    · rw [hbuf]
      refine ⟨s.lists i, s.arena, extendFromSlice_nil, ?_⟩
      rwa [List.append_nil, Function.update_eq_self, Function.update_eq_self]
    · obtain ⟨eull₁, arena₁, addLen, hfill, hadd, hlen, hfilled⟩ := fill_spec (h.fits i) buf
      have hbytes := bytes_lenToCapacity_pos (s.lists i).len.toNat
      have hbufPos := List.length_pos_iff.mpr hbuf
      have hpos : 0 < addLen := by omega
      have htake : (buf.take addLen).length = addLen := by
        rw [List.length_take]
        omega
      have hinv := h.filled hfilled (by rwa [htake]) (by rwa [htake])
      obtain ⟨eull', arena', hrest, hinv'⟩ := ih (buf.drop addLen).length
        (by rw [List.length_drop]; omega) hinv (buf.drop addLen) rfl
      refine ⟨eull', arena', ?_, ?_⟩
      · rw [extendFromSlice_of_fill hbuf hfill]
        simpa only [Function.update_self] using hrest
      · rwa [Function.update_idem, Function.update_idem, Function.update_self, List.append_assoc,
          List.take_append_drop] at hinv'

theorem Inv.extend (h : s.Inv w) (i : ι) (buf : Bytes) :
    ∃ s', s.extend i buf = some s' ∧ s'.Inv (Function.update w i (w i ++ buf)) := by
  obtain ⟨eull', arena', hext, hinv⟩ := h.extendFromSlice i buf
  exact ⟨_, by rw [Lists.extend, hext]; rfl, hinv⟩

theorem Inv.run (h : s.Inv w) (writes : List (ι × Bytes)) :
    ∃ s', s.run writes = some s' ∧ s'.Inv fun i => w i ++ written writes i := by
  induction writes generalizing s w with
  | nil => exact ⟨s, rfl, by simpa [written] using h⟩
  | cons write writes ih =>
    obtain ⟨i, buf⟩ := write
    obtain ⟨s₁, hext, hinv⟩ := h.extend i buf
    obtain ⟨s', hrun, hinv'⟩ := ih hinv
    refine ⟨s', by rw [Lists.run, hext]; exact hrun, ?_⟩
    convert hinv' using 2 with j
    by_cases hj : j = i
    · subst hj
      rw [Function.update_self]
      simp [written]
    · rw [Function.update_of_ne hj]
      have : ¬ i = j := fun hij => hj hij.symm
      simp [written, this]

/-- **Lists do not interfere.** However many lists share an arena, and however writes to them
interleave, no write fails, and as long as the pages of the arena take up no more than `2 ^ 32`
bytes each list reads back as what was written to it. -/
theorem interleaved_lists (writes : List (ι × Bytes)) :
    ∃ s, (new : Lists ι).run writes = some s ∧
      (s.arena.memUsage ≤ 2 ^ 32 →
        ∀ i, (s.lists i).readToEnd s.arena = some (written writes i)) := by
  obtain ⟨s, hrun, hinv⟩ := inv_new.run writes
  refine ⟨s, hrun, fun hmem i => ?_⟩
  have := hinv.readToEnd hmem i
  rwa [List.nil_append] at this

/-! ### Pages that are not full -/

/-- How many blocks of 20 bytes fit a page; 16 bytes are left. -/
def perPage : Nat := 52428

/-- `n` lists of 17 bytes each: the 17th byte of each takes up a block of 20 bytes. -/
def crowd (n : Nat) : List (Nat × Bytes) :=
  (List.range n).map fun j => (j, List.replicate 17 0)

/-- The first write of 17 bytes to a list. -/
theorem extend_fresh (arena : MemoryArena) (buf : Bytes) (hbuf : buf.length = 17) :
    ∃ eull' arena' arena₁ addr,
      ExpUnrolledLinkedList.new.extendFromSlice arena buf = some (eull', arena') ∧
      arena.Allocates 20 arena₁ addr ∧ arena'.lens = arena₁.lens ∧
      eull'.len.toNat = 17 ∧ eull'.inlinedData.drop FIRST_BLOCK = addr.toBytes ∧
      Overwrites arena₁.cell arena'.cell addr.toNat (buf.drop 16) := by
  have hne : buf ≠ [] := List.ne_nil_of_length_pos (by omega)
  have hfits : ExpUnrolledLinkedList.new.Fits arena := fun h => absurd h (Nat.not_lt_zero _)
  -- 16 bytes are inlined
  obtain ⟨eull₁, arena₁, addLen₁, hfill₁, hadd₁, hlen₁, hfilled₁⟩ := fill_spec hfits buf
  have hcap₁ : (lenToCapacity ExpUnrolledLinkedList.new.len.toNat).bytes = 16 := by decide
  obtain rfl : addLen₁ = 16 := by omega
  have htake : (buf.take 16).length = 16 := by rw [List.length_take]; omega
  have hfits₁ := hfilled₁.fits (by rwa [htake]) (by omega) hfits
  have hl₁ := toNat_add_len hlen₁
  rw [show ExpUnrolledLinkedList.new.len.toNat = 0 from rfl] at hl₁
  have hrest : buf.drop 16 ≠ [] := List.ne_nil_of_length_pos (by rw [List.length_drop]; omega)
  -- the last one goes to a block
  obtain ⟨eull₂, arena₂, addLen₂, hfill₂, hadd₂, hlen₂, hfilled₂⟩ := fill_spec hfits₁ (buf.drop 16)
  have hcap₂ : (lenToCapacity eull₁.len.toNat).bytes = 16 := by
    rw [hl₁]
    decide
  rw [List.length_drop] at hadd₂
  obtain rfl : addLen₂ = 1 := by omega
  have hl₂ := toNat_add_len hlen₂
  have htake₂ : (buf.drop 16).take 1 = buf.drop 16 :=
    List.take_of_length_le (by rw [List.length_drop]; omega)
  have h16 : FIRST_BLOCK = 16 := rfl
  have harena : arena₁ = arena := by
    cases hfilled₁ with
    | inlined _ _ harena => exact harena
    | firstBlock hlen => cases hlen
    | inBlock hlen => exact absurd hlen (Nat.not_lt_zero _)
    | newBlock hlen => exact absurd hlen (Nat.not_lt_zero _)
  subst harena
  rw [htake₂] at hfilled₂
  cases hfilled₂ with
  | inlined hlen => rw [List.length_drop] at hlen; omega
  | @firstBlock arena' addr _ _ halloc hdata _ hlens hwrite =>
    refine ⟨eull₂, arena₂, arena', addr, ?_, halloc, hlens, by omega, ?_, hwrite⟩
    · rw [extendFromSlice_of_fill hne hfill₁, extendFromSlice_of_fill hrest hfill₂,
        List.drop_eq_nil_of_le (by simp [hbuf]), extendFromSlice_nil]
    · have hldata := eull₁.length_inlinedData
      have h20 : INLINED_BLOCK_LEN = 20 := rfl
      rw [hdata, overwrite, List.append_assoc, List.drop_left' (by rw [List.length_take]; omega),
        List.drop_eq_nil_of_le (by rw [Addr.length_toBytes]; omega), List.append_nil]
  | inBlock hlen => omega
  | newBlock hlen => omega

/-- After `n` of these writes. -/
structure Crowded (n : Nat) (s : Lists Nat) : Prop where
  pages : s.arena.lens.length = (n - 1) / perPage + 1
  last : s.arena.lens.getLastD 0 = 20 * ((n - 1) % perPage + 1)
  allocated : s.arena.allocated = 20 * n
  fresh : ∀ j, n ≤ j → s.lists j = ExpUnrolledLinkedList.new
  first : (s.lists 0).len.toNat = 17 ∧
    ∃ addr : Addr, (s.lists 0).inlinedData.drop FIRST_BLOCK = addr.toBytes ∧ addr.toNat = 0

theorem getLastD_growLens (lens : List Nat) (len : Nat) :
    (growLens lens len).getLastD 0 =
    if len + lens.getLastD 0 ≤ PAGE_SIZE then lens.getLastD 0 + len else len := by
  unfold growLens
  split <;> simp

theorem length_growLens_eq {lens : List Nat} {len : Nat} (h : lens ≠ []) :
    (growLens lens len).length =
      if len + lens.getLastD 0 ≤ PAGE_SIZE then lens.length else lens.length + 1 := by
  have hpos := List.length_pos_iff.mpr h
  unfold growLens
  split
  · simp
    omega
  · simp

theorem crowd_succ (n : Nat) : crowd (n + 1) = crowd n ++ [(n, List.replicate 17 0)] := by
  rw [crowd, List.range_succ, List.map_append]
  rfl

theorem run_append (s : Lists Nat) (writes writes' : List (Nat × Bytes)) :
    s.run (writes ++ writes') = (s.run writes).bind fun s => s.run writes' := by
  induction writes generalizing s with
  | nil => rfl
  | cons write writes ih =>
    obtain ⟨i, buf⟩ := write
    show (s.extend i buf).bind (fun s => s.run (writes ++ writes')) = _
    cases hext : s.extend i buf with
    | none =>
      rw [Lists.run, hext]
      rfl
    | some s₁ =>
      rw [Lists.run, hext]
      exact ih s₁

/-- Where the frontier is after a write of one more list. -/
theorem Crowded.grow {n : Nat} {s : Lists Nat} (h : Crowded n s) (hn : 0 < n) :
    (growLens s.arena.lens 20).length = n / perPage + 1 ∧
      (growLens s.arena.lens 20).getLastD 0 = 20 * (n % perPage + 1) := by
  rw [length_growLens_eq s.arena.lens_ne, getLastD_growLens, h.pages, h.last, PAGE_SIZE_eq, perPage]
  split <;> constructor <;> omega

theorem crowded (n : Nat) (hn : 0 < n) :
    ∃ s, (new : Lists Nat).run (crowd n) = some s ∧ Crowded n s := by
  induction n, hn using Nat.le_induction with
  | base =>
    obtain ⟨eull', arena', arena₁, addr, hext, halloc, hlens, hlen, hlink, -⟩ :=
      extend_fresh MemoryArena.new (List.replicate 17 0) List.length_replicate
    have hold : MemoryArena.new.lens = [0] := rfl
    have hgrow : arena'.lens = [20] := by
      rw [hlens, halloc.lens, hold]
      rfl
    refine ⟨⟨arena', Function.update (fun _ => ExpUnrolledLinkedList.new) 0 eull'⟩, ?_,
      ⟨?_, ?_, ?_, ?_, ?_⟩⟩
    · show ((new : Lists Nat).extend 0 (List.replicate 17 0)).bind _ = _
      rw [Lists.extend]
      show (((ExpUnrolledLinkedList.new.extendFromSlice MemoryArena.new _).bind _).bind _) = _
      rw [hext]
      rfl
    · show arena'.lens.length = _
      rw [hgrow]
      rfl
    · show arena'.lens.getLastD 0 = _
      rw [hgrow]
      rfl
    · show arena'.lens.sum = _
      rw [hgrow]
      rfl
    · intro j hj
      have hne : j ≠ 0 := Nat.pos_iff_ne_zero.mp hj
      show Function.update (fun _ => ExpUnrolledLinkedList.new) 0 eull' j = _
      rw [Function.update_of_ne hne]
    · refine ⟨hlen, addr, hlink, ?_⟩
      rw [halloc.addr, MemoryArena.frontier, ← hlens, hgrow]
      rfl
  | succ n hn ih =>
    obtain ⟨s, hrun, hs⟩ := ih
    obtain ⟨eull', arena', arena₁, addr, hext, halloc, hlens, hlen, hlink, -⟩ :=
      extend_fresh s.arena (List.replicate 17 0) List.length_replicate
    obtain ⟨hpages, hlast⟩ := hs.grow hn
    rw [← halloc.lens, ← hlens] at hpages hlast
    refine ⟨⟨arena', Function.update s.lists n eull'⟩, ?_, ⟨hpages, hlast, ?_, ?_, ?_⟩⟩
    · rw [crowd_succ, run_append, hrun]
      show (s.extend n (List.replicate 17 0)).bind _ = _
      rw [Lists.extend, hs.fresh n le_rfl, hext]
      rfl
    · show arena'.lens.sum = _
      rw [hlens, halloc.lens, MemoryArena.sum_growLens s.arena.lens_ne]
      have : s.arena.lens.sum = 20 * n := hs.allocated
      omega
    · intro j hj
      show Function.update s.lists n eull' j = _
      rw [Function.update_of_ne (by omega)]
      exact hs.fresh j (by omega)
    · show (Function.update s.lists n eull' 0).len.toNat = 17 ∧ ∃ addr : Addr,
        (Function.update s.lists n eull' 0).inlinedData.drop FIRST_BLOCK = addr.toBytes ∧ _
      rw [Function.update_of_ne (by omega)]
      exact hs.first

/-- Three lists, and one page of the arena. -/
theorem interleaved_lists_three : ∃ s, (new : Lists Nat).run (crowd 3) = some s ∧
    ∀ i, (s.lists i).readToEnd s.arena = some (written (crowd 3) i) := by
  obtain ⟨s, hrun, hread⟩ := interleaved_lists (crowd 3)
  refine ⟨s, hrun, hread ?_⟩
  obtain ⟨s', hrun', hs'⟩ := crowded 3 (by decide)
  obtain rfl : s' = s := Option.some.inj (hrun'.symm.trans hrun)
  rw [memUsage, ← length_lens, hs'.pages]
  decide

/-- The bytes handed out can stay below `2 ^ 32` and the pages not: after 4096 pages of blocks of
20 bytes, each with 16 bytes left, the next address is the first one again. -/
theorem interleaved_lists_pages_not_full :
    ¬ ∀ writes : List (Nat × Bytes), ∃ s, (new : Lists Nat).run writes = some s ∧
      (s.arena.allocated < 2 ^ 32 →
        ∀ i, (s.lists i).readToEnd s.arena = some (written writes i)) := by
  intro hall
  obtain ⟨s, hrun, hs⟩ := crowded (4096 * perPage) (by decide)
  obtain ⟨eull', arena', arena₁, addr, hext, halloc, hlens, hlen, hlink, hwrite⟩ :=
    extend_fresh s.arena (List.replicate 17 1) List.length_replicate
  obtain ⟨s', hrun', hread⟩ :=
    hall (crowd (4096 * perPage) ++ [(4096 * perPage, List.replicate 17 1)])
  have hs' : s' = ⟨arena', Function.update s.lists (4096 * perPage) eull'⟩ := by
    rw [run_append, hrun] at hrun'
    change (s.extend (4096 * perPage) (List.replicate 17 1)).bind _ = _ at hrun'
    rw [Lists.extend, hs.fresh _ le_rfl, hext] at hrun'
    exact (Option.some.inj hrun').symm
  subst hs'
  have hlt : arena'.allocated < 2 ^ 32 := by
    rw [MemoryArena.allocated, hlens, halloc.lens, MemoryArena.sum_growLens s.arena.lens_ne]
    have : s.arena.lens.sum = 20 * (4096 * perPage) := hs.allocated
    rw [this, perPage]
    decide
  have hfirst := hread hlt 0
  change (Function.update s.lists (4096 * perPage) eull' 0).readToEnd arena' = _ at hfirst
  rw [Function.update_of_ne (by decide)] at hfirst
  obtain ⟨hlen0, addr0, hlink0, haddr0⟩ := hs.first
  -- the new block lies over the first one
  have haddr : addr.toNat = 0 := by
    obtain ⟨hpages, hlast⟩ := hs.grow (by decide)
    rw [← halloc.lens] at hpages hlast
    rw [halloc.addr, MemoryArena.frontier, hpages, hlast]
    rfl
  have hcell : arena'.cell 0 = some 1 := by
    have := hwrite.spells 0 (by decide)
    rwa [haddr] at this
  have hroom : arena'.Room addr0.toNat 16 := by
    rw [haddr0]
    refine ⟨?_, by decide⟩
    rw [Nat.zero_div]
    exact List.length_pos_iff.mpr arena'.lens_ne
  obtain ⟨data, hslice, hdlen, hdata⟩ := exists_slice hroom
  have hhead : data.take 1 = [1] := by
    have := hdata 0 (by omega)
    rw [haddr0, hcell] at this
    cases data with
    | nil => simp at hdlen
    | cons d data => simpa using this.symm
  have hcap : lenToCapacity 16 = .needAlloc 16 := by decide
  rw [ExpUnrolledLinkedList.readToEnd] at hfirst
  simp only [hlen0, FIRST_BLOCK] at hfirst hlink0
  rw [if_neg (by decide), ExpUnrolledLinkedList.readBlocks, hlink0, Addr.ofBytes_toBytes] at hfirst
  simp only [hcap, CapacityResult.bytes, hslice] at hfirst
  rw [if_pos (by decide), hhead, Option.some.injEq] at hfirst
  -- list 0 was only ever given zeros
  have hmem : (1 : UInt8) ∈ written (crowd (4096 * perPage) ++
      [(4096 * perPage, List.replicate 17 1)]) 0 := by
    rw [← hfirst]
    simp
  simp only [written, crowd, List.flatMap_append, List.mem_append, List.mem_flatMap, List.mem_map,
    List.mem_singleton] at hmem
  rcases hmem with ⟨_, ⟨j, -, rfl⟩, hone⟩ | ⟨_, rfl, hone⟩
  · split at hone
    · rw [List.mem_replicate] at hone
      exact absurd hone.2 (by decide)
    · cases hone
  · rw [if_neg (by decide)] at hone
    cases hone

end Lists

end TeaclaveCrates.Tantivy
