import TeaclaveCrates.Lib.Memory
import TeaclaveCrates.Lib.Bytes
import Mathlib.Data.Nat.Bitwise

namespace TeaclaveCrates.Tantivy

open Lib

/-!
# The memory arena

The 32-bit arena in which the indexer keeps its posting lists and its terms: pages of 1 MB, one
after the other, from which space is handed out and never taken back.

* `Addr` — a `u32`, the page in its first 12 bits and the place within the page in the last 20;
* `Page`, `MemoryArena` — the pages and the operations on them;
* `MemoryArena.cell` — the arena as one memory. Up to the 4096th page an address is its place in
  that memory;
* `slice_of_spells`, `write_spec`, `allocateSpace_spec` — what each operation does to it.

A byte is written through the slice that `slice_mut` lends; here `write` takes the bytes.
-/

def NUM_BITS_PAGE_ADDR : Nat := 20

/-- Pages are 1 MB large. -/
def PAGE_SIZE : Nat := 1 <<< NUM_BITS_PAGE_ADDR

theorem PAGE_SIZE_eq : PAGE_SIZE = 2 ^ 20 := rfl

theorem PAGE_SIZE_pos : 0 < PAGE_SIZE := by decide

/-! ### Addresses -/

/-- A pointer into the arena. -/
structure Addr where
  bits : UInt32
  deriving DecidableEq

namespace Addr

/-- `u32::MAX`. -/
def nullPointer : Addr := ⟨UInt32.ofNat (2 ^ 32 - 1)⟩

/-- The address `offset` further on; the sum wraps. -/
def offset (addr : Addr) (offset : UInt32) : Addr := ⟨addr.bits + offset⟩

/-- A page id of more than 12 bits is cut off by the cast. -/
def new (pageId localAddr : Nat) : Addr :=
  ⟨UInt32.ofNat (pageId <<< NUM_BITS_PAGE_ADDR ||| localAddr)⟩

def pageId (addr : Addr) : Nat := addr.bits.toNat >>> NUM_BITS_PAGE_ADDR

def pageLocalAddr (addr : Addr) : Nat := addr.bits.toNat &&& (PAGE_SIZE - 1)

def isNull (addr : Addr) : Bool := addr == nullPointer

def toNat (addr : Addr) : Nat := addr.bits.toNat

/-- What `store` writes for an address. -/
def toBytes (addr : Addr) : Bytes := toLE 4 addr.toNat

/-- What `load` makes of four bytes. -/
def ofBytes (bs : Bytes) : Addr := ⟨UInt32.ofNat (ofLE bs)⟩

theorem toNat_lt (addr : Addr) : addr.toNat < 2 ^ 32 := addr.bits.toNat_lt

@[simp] theorem length_toBytes (addr : Addr) : addr.toBytes.length = 4 := length_toLE 4 _

@[simp] theorem ofBytes_toBytes (addr : Addr) : ofBytes addr.toBytes = addr := by
  rw [ofBytes, toBytes, ofLE_toLE (by have := addr.toNat_lt; omega)]
  simp [toNat]

@[simp] theorem pageId_eq (addr : Addr) : addr.pageId = addr.toNat / PAGE_SIZE := by
  rw [pageId, Nat.shiftRight_eq_div_pow]
  rfl

@[simp] theorem pageLocalAddr_eq (addr : Addr) : addr.pageLocalAddr = addr.toNat % PAGE_SIZE := by
  rw [pageLocalAddr, PAGE_SIZE_eq, Nat.and_two_pow_sub_one_eq_mod]
  rfl

theorem toNat_new {pageId localAddr : Nat} (h : localAddr < PAGE_SIZE) :
    (new pageId localAddr).toNat = (pageId * PAGE_SIZE + localAddr) % 2 ^ 32 := by
  have hor : pageId <<< NUM_BITS_PAGE_ADDR ||| localAddr = pageId * PAGE_SIZE + localAddr := by
    rw [← Nat.shiftLeft_add_eq_or_of_lt (by exact h), Nat.shiftLeft_eq]
    rfl
  simp [new, toNat, hor]

theorem toNat_offset {addr : Addr} {n : Nat} (h : addr.toNat + n < 2 ^ 32) :
    (addr.offset (UInt32.ofNat n)).toNat = addr.toNat + n := by
  have : addr.toNat = addr.bits.toNat := rfl
  simp [offset, toNat]
  omega

theorem isNull_iff (addr : Addr) : addr.isNull = true ↔ addr.toNat = 2 ^ 32 - 1 := by
  rw [isNull, beq_iff_eq]
  constructor
  · rintro rfl
    rfl
  · intro h
    cases addr
    congr 1
    apply UInt32.toNat_inj.mp
    exact h

end Addr

/-! ### Pages -/

/-- A page: what is handed out of it lies below `len`. -/
structure Page where
  pageId : Nat
  len : Nat
  data : Bytes
  length_data : data.length = PAGE_SIZE
  len_le : len ≤ PAGE_SIZE

namespace Page

def new (pageId : Nat) : Page :=
  ⟨pageId, 0, List.replicate PAGE_SIZE 0, List.length_replicate, Nat.zero_le _⟩

def isAvailable (page : Page) (len : Nat) : Prop := len + page.len ≤ PAGE_SIZE

instance (page : Page) (len : Nat) : Decidable (page.isAvailable len) := Nat.decLe _ _

def sliceFrom (page : Page) (localAddr : Nat) : Option Bytes :=
  slice? page.data localAddr page.data.length

def slice (page : Page) (localAddr len : Nat) : Option Bytes :=
  slice? page.data localAddr (localAddr + len)

/-- `bs` written through `slice_mut(local_addr, bs.len())`. -/
def write (page : Page) (localAddr : Nat) (bs : Bytes) : Option Page :=
  if h : localAddr + bs.length ≤ page.data.length then
    some { page with
      data := overwrite page.data localAddr bs
      length_data := (length_overwrite h).trans page.length_data }
  else
    none

def allocateSpace (page : Page) (len : Nat) : Option (Page × Addr) :=
  if h : page.isAvailable len then
    some ({ page with
      len := page.len + len
      len_le := by rwa [Nat.add_comm] }, Addr.new page.pageId page.len)
  else
    none

variable {page page' : Page} {addr : Addr} {bs : Bytes} {localAddr len : Nat}

/-- Writing within the page copies the bytes there. -/
theorem write_spec (page : Page) (h : localAddr + bs.length ≤ PAGE_SIZE) :
    ∃ page', page.write localAddr bs = some page' ∧
      page'.data = overwrite page.data localAddr bs := by
  have hfits : localAddr + bs.length ≤ page.data.length := by rwa [page.length_data]
  exact ⟨_, dif_pos hfits, rfl⟩

theorem write_keeps (h : page.write localAddr bs = some page') :
    page'.pageId = page.pageId ∧ page'.len = page.len := by
  unfold write at h
  split at h
  · cases h
    exact ⟨rfl, rfl⟩
  · cases h

theorem allocateSpace_of_available (h : page.isAvailable len) :
    ∃ page', page.allocateSpace len = some (page', Addr.new page.pageId page.len) ∧
      page'.len = page.len + len ∧ page'.data = page.data :=
  ⟨_, dif_pos h, rfl, rfl⟩

theorem allocateSpace_of_not (h : ¬ page.isAvailable len) : page.allocateSpace len = none :=
  dif_neg h

theorem pageId_of_allocateSpace (h : page.allocateSpace len = some (page', addr)) :
    page'.pageId = page.pageId := by
  unfold allocateSpace at h
  split at h
  · cases h
    rfl
  · cases h

end Page

/-! ### The arena -/

/-- The pages, numbered from 0; there is always one. -/
structure MemoryArena where
  pages : List Page
  pages_ne : pages ≠ []
  numbered : ∀ (i : Nat) (page : Page), pages[i]? = some page → page.pageId = i

namespace MemoryArena

def new : MemoryArena where
  pages := [Page.new 0]
  pages_ne := by simp
  numbered := by
    rintro (_ | i) page h
    · cases h
      rfl
    · simp at h

theorem numbered_append (arena : MemoryArena) (i : Nat) (page : Page)
    (h : (arena.pages ++ [Page.new arena.pages.length])[i]? = some page) : page.pageId = i := by
  rcases Nat.lt_trichotomy i arena.pages.length with hi | rfl | hi
  · rw [List.getElem?_append_left hi] at h
    exact arena.numbered i page h
  · simp at h
    rw [← h]
    rfl
  · rw [List.getElem?_eq_none (by simp; omega)] at h
    simp at h

def addPage (arena : MemoryArena) : MemoryArena where
  pages := arena.pages ++ [Page.new arena.pages.length]
  pages_ne := List.concat_ne_nil _ _
  numbered := arena.numbered_append

/-- `self.pages[page_id]` after a call that changed it. -/
def setPage (arena : MemoryArena) (pageId : Nat) (page : Page) (h : page.pageId = pageId) :
    MemoryArena where
  pages := arena.pages.set pageId page
  pages_ne := by simp [arena.pages_ne]
  numbered i p hp := by
    rw [List.getElem?_set] at hp
    split at hp
    · split at hp
      · cases hp
        omega
      · simp at hp
    · exact arena.numbered i p hp

/-- The bytes of resident memory, by whole pages. -/
def memUsage (arena : MemoryArena) : Nat := arena.pages.length * PAGE_SIZE

def slice (arena : MemoryArena) (addr : Addr) (len : Nat) : Option Bytes := do
  let page ← arena.pages[addr.pageId]?
  page.slice addr.pageLocalAddr len

def sliceFrom (arena : MemoryArena) (addr : Addr) : Option Bytes := do
  let page ← arena.pages[addr.pageId]?
  page.sliceFrom addr.pageLocalAddr

/-- `bs` written through `slice_mut(addr, bs.len())`; `write_at` does it for an item. -/
def write (arena : MemoryArena) (addr : Addr) (bs : Bytes) : Option MemoryArena :=
  match hpage : arena.pages[addr.pageId]? with
  | none => none
  | some page =>
    match hp : page.write addr.pageLocalAddr bs with
    | none => none
    | some page' => some (arena.setPage addr.pageId page'
        ((Page.write_keeps hp).1.trans (arena.numbered _ _ hpage)))

/-- `self.pages[page_id].allocate_space(len)`. -/
def allocateIn (arena : MemoryArena) (pageId len : Nat) : Option (MemoryArena × Addr) :=
  match hpage : arena.pages[pageId]? with
  | none => none
  | some page =>
    match hp : page.allocateSpace len with
    | none => none
    | some (page', addr) => some (arena.setPage pageId page'
        ((Page.pageId_of_allocateSpace hp).trans (arena.numbered _ _ hpage)), addr)

def allocateSpace (arena : MemoryArena) (len : Nat) : Option (MemoryArena × Addr) :=
  match arena.allocateIn (arena.pages.length - 1) len with
  | some allocated => some allocated
  | none => arena.addPage.allocateIn arena.pages.length len

/-- An address, read and written as an item. -/
def readAddr (arena : MemoryArena) (addr : Addr) : Option Addr :=
  (arena.slice addr 4).map Addr.ofBytes

/-! ### The arena as one memory -/

variable {arena arena' : MemoryArena} {addr : Addr} {bs : Bytes} {a n x : Nat}

/-- The byte of the arena at place `x`, the pages laid side by side. -/
def cell (arena : MemoryArena) : Memory UInt8 := fun x => do
  let page ← arena.pages[x / PAGE_SIZE]?
  page.data[x % PAGE_SIZE]?

/-- How much of each page is handed out. -/
def lens (arena : MemoryArena) : List Nat := arena.pages.map Page.len

/-- All the bytes handed out. -/
def allocated (arena : MemoryArena) : Nat := arena.lens.sum

/-- The place behind everything handed out. -/
def frontier (arena : MemoryArena) : Nat :=
  (arena.lens.length - 1) * PAGE_SIZE + arena.lens.getLastD 0

/-- The `n` bytes from place `a` on lie within one page of the arena. -/
structure Room (arena : MemoryArena) (a n : Nat) : Prop where
  page : a / PAGE_SIZE < arena.lens.length
  within : a % PAGE_SIZE + n ≤ PAGE_SIZE

@[simp] theorem length_lens (arena : MemoryArena) : arena.lens.length = arena.pages.length :=
  List.length_map ..

theorem pages_pos (arena : MemoryArena) : 0 < arena.pages.length :=
  List.length_pos_iff.mpr arena.pages_ne

/-- Moving on within a page changes the place in the page only. -/
theorem div_mod_add {i : Nat} (hi : a % PAGE_SIZE + i < PAGE_SIZE) :
    (a + i) / PAGE_SIZE = a / PAGE_SIZE ∧ (a + i) % PAGE_SIZE = a % PAGE_SIZE + i := by
  have hdiv : (a + i) / PAGE_SIZE = a / PAGE_SIZE := by
    have := Nat.div_add_mod a PAGE_SIZE
    rw [Nat.mul_comm] at this
    apply Nat.div_eq_of_lt_le
    · omega
    · rw [Nat.add_mul]
      omega
  have h1 := Nat.div_add_mod a PAGE_SIZE
  have h2 := Nat.div_add_mod (a + i) PAGE_SIZE
  rw [hdiv] at h2
  exact ⟨hdiv, by omega⟩

theorem cell_of_page {page : Page} (h : arena.pages[x / PAGE_SIZE]? = some page) :
    arena.cell x = page.data[x % PAGE_SIZE]? := by
  simp [cell, h]

theorem Room.mono {b k : Nat} (h : arena.Room a n) (hab : a ≤ b) (hk : b + k ≤ a + n)
    (hb : b < a + n) : arena.Room b k := by
  obtain ⟨hpage, hwithin⟩ := h
  obtain ⟨hdiv, hmod⟩ := div_mod_add (a := a) (i := b - a) (by omega)
  rw [Nat.add_sub_cancel' hab] at hdiv hmod
  exact ⟨hdiv ▸ hpage, by omega⟩

/-- An address and what is behind it in its page fit 32 bits. -/
theorem Room.add_le (h : arena.Room addr.toNat n) : addr.toNat + n ≤ 2 ^ 32 := by
  have hlt := addr.toNat_lt
  have hwithin := h.within
  rw [PAGE_SIZE_eq] at hwithin
  omega

theorem Room.grow (h : arena.Room a n) (hle : arena.lens.length ≤ arena'.lens.length) :
    arena'.Room a n :=
  ⟨lt_of_lt_of_le h.page hle, h.within⟩

/-- The page of a region, and its bytes as the cells of the arena. -/
theorem Room.exists_page (h : arena.Room addr.toNat n) :
    ∃ page, arena.pages[addr.pageId]? = some page ∧
      ∀ i < n, arena.cell (addr.toNat + i) = page.data[addr.toNat % PAGE_SIZE + i]? := by
  have hpage := h.page
  have hwithin := h.within
  rw [length_lens] at hpage
  have hget := List.getElem?_eq_getElem hpage
  refine ⟨_, by rw [Addr.pageId_eq]; exact hget, ?_⟩
  intro i hi
  obtain ⟨hdiv, hmod⟩ := div_mod_add (a := addr.toNat) (i := i) (by omega)
  rw [cell_of_page (by rw [hdiv]; exact hget), hmod]

/-- A slice of a region within one page exists. -/
theorem exists_slice (h : arena.Room addr.toNat n) :
    ∃ bs, arena.slice addr n = some bs ∧ bs.length = n ∧ Spells arena.cell addr.toNat bs := by
  obtain ⟨page, hpage, hcell⟩ := h.exists_page
  have hwithin := h.within
  have hlen := page.length_data
  refine ⟨Lib.slice page.data addr.pageLocalAddr (addr.pageLocalAddr + n), ?_, ?_, ?_⟩
  · rw [slice, hpage]
    apply slice?_eq (by omega)
    rw [Addr.pageLocalAddr_eq]
    omega
  · rw [length_slice (by rw [Addr.pageLocalAddr_eq]; omega), Nat.add_sub_cancel_left]
  · intro i hi
    rw [length_slice (by rw [Addr.pageLocalAddr_eq]; omega), Nat.add_sub_cancel_left] at hi
    simp [hcell i hi, getElem?_slice, hi]

/-- What is left of the page of a region. -/
theorem exists_sliceFrom (h : arena.Room addr.toNat n) :
    ∃ bs, arena.sliceFrom addr = some bs ∧ n ≤ bs.length ∧ Spells arena.cell addr.toNat bs := by
  have hwithin := h.within
  have hfull : arena.Room addr.toNat (PAGE_SIZE - addr.toNat % PAGE_SIZE) :=
    ⟨h.page, by omega⟩
  obtain ⟨bs, hslice, hlen, hbs⟩ := exists_slice hfull
  refine ⟨bs, ?_, by omega, hbs⟩
  obtain ⟨page, hpage, -⟩ := h.exists_page
  have hdata := page.length_data
  rw [slice, hpage] at hslice
  rw [sliceFrom, hpage]
  show page.sliceFrom addr.pageLocalAddr = some bs
  rw [← hslice]
  show _ = page.slice addr.pageLocalAddr _
  rw [Page.sliceFrom, Page.slice, Addr.pageLocalAddr_eq, hdata]
  congr 1
  omega

/-- Within its room a slice is what the cells spell. -/
theorem slice_of_spells (h : arena.Room addr.toNat bs.length)
    (hbs : Spells arena.cell addr.toNat bs) : arena.slice addr bs.length = some bs := by
  obtain ⟨cs, hslice, hlen, hcs⟩ := exists_slice h
  rw [hslice, hcs.unique hbs hlen]

variable {pageId : Nat}

theorem cell_setPage {page : Page} {h : page.pageId = pageId} (hlt : pageId < arena.pages.length) :
    (arena.setPage pageId page h).cell x =
      if x / PAGE_SIZE = pageId then page.data[x % PAGE_SIZE]? else arena.cell x := by
  unfold cell setPage
  by_cases hx : x / PAGE_SIZE = pageId
  · simp [hx, hlt]
  · simp [hx, List.getElem?_set_ne (fun heq => hx heq.symm)]

theorem lens_setPage {page : Page} {h : page.pageId = pageId} :
    (arena.setPage pageId page h).lens = arena.lens.set pageId page.len := by
  simp [lens, setPage]

theorem write_of_page {page page' : Page} (hpage : arena.pages[addr.pageId]? = some page)
    (hp : page.write addr.pageLocalAddr bs = some page') :
    ∃ h, arena.write addr bs = some (arena.setPage addr.pageId page' h) := by
  have hid := (Page.write_keeps hp).1.trans (arena.numbered _ _ hpage)
  refine ⟨hid, ?_⟩
  unfold write
  split
  · rename_i hnone
    rw [hpage] at hnone
    cases hnone
  · rename_i page₁ hsome
    rw [hpage] at hsome
    cases hsome
    split
    · rename_i hnone
      rw [hp] at hnone
      cases hnone
    · rename_i page₂ hsome
      rw [hp] at hsome
      cases hsome
      rfl

/-- Writing within one page overwrites the cells there, and hands nothing out. -/
theorem write_spec (arena : MemoryArena) (addr : Addr) (bs : Bytes)
    (h : arena.Room addr.toNat bs.length) :
    ∃ arena', arena.write addr bs = some arena' ∧
      Overwrites arena.cell arena'.cell addr.toNat bs ∧ arena'.lens = arena.lens := by
  obtain ⟨page, hpage, -⟩ := h.exists_page
  have hlt := h.page
  have hwithin := h.within
  have hlen := page.length_data
  rw [length_lens, ← Addr.pageId_eq] at hlt
  rw [← Addr.pageLocalAddr_eq] at hwithin
  obtain ⟨page', hwrite, hdata⟩ := page.write_spec hwithin
  have hfits : addr.pageLocalAddr + bs.length ≤ page.data.length := by omega
  obtain ⟨hid, harena⟩ := write_of_page hpage hwrite
  refine ⟨_, harena, ⟨?_, ?_⟩, ?_⟩
  · -- the bytes written are read back
    intro i hi
    rw [Addr.pageLocalAddr_eq] at hwithin
    obtain ⟨hdiv, hmod⟩ := div_mod_add (a := addr.toNat) (i := i) (by omega)
    rw [cell_setPage hlt, Addr.pageId_eq, if_pos hdiv, hmod, hdata, getElem?_overwrite hfits,
      Addr.pageLocalAddr_eq, if_neg (by omega), if_pos (by omega), Nat.add_sub_cancel_left]
  · -- nothing else of the page changes
    intro y hy
    rw [cell_setPage hlt]
    split
    · rename_i hdiv
      rw [cell_of_page (by rw [hdiv]; exact hpage), hdata, getElem?_overwrite hfits]
      have h1 := Nat.div_add_mod addr.toNat PAGE_SIZE
      have h2 := Nat.div_add_mod y PAGE_SIZE
      rw [hdiv, Addr.pageId_eq] at h2
      rw [Addr.pageLocalAddr_eq]
      split
      · rfl
      · rw [if_neg (by omega)]
    · rfl
  · rw [lens_setPage, (Page.write_keeps hwrite).2]
    have hget : arena.lens[addr.pageId]? = some page.len := by
      rw [lens, List.getElem?_map, hpage]
      rfl
    obtain ⟨hi, hget⟩ := List.getElem?_eq_some_iff.mp hget
    rw [← hget, List.set_getElem_self]

/-! ### Allocation -/

/-- `lens` after `len` bytes were handed out of the last page, or of a new one. -/
def growLens (lens : List Nat) (len : Nat) : List Nat :=
  if len + lens.getLastD 0 ≤ PAGE_SIZE then lens.dropLast ++ [lens.getLastD 0 + len]
  else lens ++ [len]

theorem allocateIn_of_page {len : Nat} {page page' : Page}
    (hpage : arena.pages[pageId]? = some page) (hp : page.allocateSpace len = some (page', addr)) :
    ∃ h, arena.allocateIn pageId len = some (arena.setPage pageId page' h, addr) := by
  have hid := (Page.pageId_of_allocateSpace hp).trans (arena.numbered _ _ hpage)
  refine ⟨hid, ?_⟩
  unfold allocateIn
  split
  · rename_i hnone
    rw [hpage] at hnone
    cases hnone
  · rename_i page₁ hsome
    rw [hpage] at hsome
    cases hsome
    split
    · rename_i hnone
      rw [hp] at hnone
      cases hnone
    · rename_i page₂ addr₂ hsome
      rw [hp] at hsome
      cases hsome
      rfl

theorem allocateIn_of_not {len : Nat} {page : Page} (hpage : arena.pages[pageId]? = some page)
    (hp : ¬ page.isAvailable len) :
    arena.allocateIn pageId len = none := by
  unfold allocateIn
  split
  · rfl
  · rename_i page₁ hsome
    rw [hpage] at hsome
    cases hsome
    split
    · rfl
    · rename_i page₂ addr₂ hsome
      rw [Page.allocateSpace_of_not hp] at hsome
      cases hsome

theorem lens_ne (arena : MemoryArena) : arena.lens ≠ [] := by
  simp [lens, arena.pages_ne]

/-- The last page. -/
theorem exists_last (arena : MemoryArena) :
    ∃ page, arena.pages[arena.pages.length - 1]? = some page ∧
      page.len = arena.lens.getLastD 0 := by
  have hpos := arena.pages_pos
  refine ⟨_, List.getElem?_eq_getElem (by omega), ?_⟩
  rw [List.getLastD_eq_getLast?, List.getLast?_eq_getElem?, length_lens, lens, List.getElem?_map,
    List.getElem?_eq_getElem (by omega)]
  rfl

theorem cell_addPage (hx : x / PAGE_SIZE < arena.lens.length) :
    arena.addPage.cell x = arena.cell x := by
  rw [length_lens] at hx
  simp [cell, addPage, List.getElem?_append_left hx]

/-- What allocating `len` bytes at `addr` does to an arena. -/
structure Allocates (arena : MemoryArena) (len : Nat) (arena' : MemoryArena) (addr : Addr) :
    Prop where
  lens : arena'.lens = growLens arena.lens len
  room : arena'.Room addr.toNat len
  cells : ∀ x, x / PAGE_SIZE < arena.lens.length → arena'.cell x = arena.cell x
  addr : addr.toNat = (arena'.frontier - len) % 2 ^ 32

theorem length_growLens (lens : List Nat) (len : Nat) :
    lens.length ≤ (growLens lens len).length ∧ (growLens lens len).length ≤ lens.length + 1 := by
  unfold growLens
  split
  · simp
    omega
  · simp

theorem sum_growLens {lens : List Nat} {len : Nat} (h : lens ≠ []) :
    (growLens lens len).sum = lens.sum + len := by
  unfold growLens
  split
  · have hsplit := List.dropLast_append_getLast h
    have hlast : lens.getLastD 0 = lens.getLast h := by
      simp [List.getLast?_eq_some_getLast h]
    rw [hlast]
    conv_rhs => rw [← hsplit]
    simp [Nat.add_assoc]
  · simp

/-- The arena never runs out of space for a piece that fits a page. -/
theorem allocateSpace_spec (len : Nat) (hpos : 0 < len) (hle : len ≤ PAGE_SIZE) :
    ∃ arena' addr, arena.allocateSpace len = some (arena', addr) ∧
      arena.Allocates len arena' addr := by
  obtain ⟨page, hpage, hlast⟩ := arena.exists_last
  have hpages := arena.pages_pos
  have hnum := arena.numbered _ _ hpage
  unfold allocateSpace
  by_cases havail : page.isAvailable len
  · -- there is space in the last page
    have hfit : len + page.len ≤ PAGE_SIZE := havail
    obtain ⟨page', halloc, hlen, hdata⟩ := Page.allocateSpace_of_available havail
    obtain ⟨hid, harena⟩ := allocateIn_of_page hpage halloc
    rw [harena]
    have hlens : (arena.setPage _ page' hid).lens = growLens arena.lens len := by
      rw [lens_setPage, growLens, if_pos (by rwa [← hlast]), hlen, hlast]
      apply List.ext_getElem?
      intro i
      rw [List.getElem?_set]
      have hlength := arena.length_lens
      split
      · rename_i hi
        rw [← hi, List.getElem?_append_right (by simp), if_pos (by omega)]
        simp
      · rcases Nat.lt_or_ge i (arena.pages.length - 1) with hlt | hge
        · rw [List.getElem?_append_left (by simpa using hlt), List.getElem?_dropLast,
            if_pos (by omega)]
        · rw [List.getElem?_eq_none (by omega), List.getElem?_eq_none (by simp; omega)]
    have haddr : (Addr.new page.pageId page.len).toNat =
        ((arena.pages.length - 1) * PAGE_SIZE + page.len) % 2 ^ 32 := by
      rw [Addr.toNat_new (by omega), hnum]
    refine ⟨_, _, rfl, hlens, ⟨?_, ?_⟩, ?_, ?_⟩
    · rw [haddr, hlens]
      have := (length_growLens arena.lens len).1
      have hlength := arena.length_lens
      rw [PAGE_SIZE_eq] at *
      omega
    · rw [PAGE_SIZE_eq] at *
      omega
    · intro x _
      rw [cell_setPage (by omega)]
      split
      · rename_i hx
        rw [cell_of_page (by rw [hx]; exact hpage), hdata]
      · rfl
    · rw [haddr, frontier, hlens, growLens, if_pos (by rwa [← hlast]), hlast]
      congr 1
      simp
      omega
  · -- a new page
    rw [allocateIn_of_not hpage havail]
    have hnew : arena.addPage.pages[arena.pages.length]? =
        some (Page.new arena.pages.length) := by
      simp [addPage]
    have havail' : (Page.new arena.pages.length).isAvailable len := by
      show len + 0 ≤ PAGE_SIZE
      omega
    obtain ⟨page', halloc, hlen, hdata⟩ := Page.allocateSpace_of_available havail'
    obtain ⟨hid, harena⟩ := allocateIn_of_page hnew halloc
    show ∃ arena' addr, arena.addPage.allocateIn arena.pages.length len = some (arena', addr) ∧ _
    rw [harena]
    have hlens : (arena.addPage.setPage _ page' hid).lens = growLens arena.lens len := by
      rw [lens_setPage, growLens, if_neg (by rwa [← hlast]), hlen]
      simp [lens, addPage, Page.new]
    have haddr : (Addr.new arena.pages.length 0).toNat =
        (arena.pages.length * PAGE_SIZE) % 2 ^ 32 := by
      rw [Addr.toNat_new PAGE_SIZE_pos, Nat.add_zero]
    refine ⟨_, _, rfl, hlens, ⟨?_, ?_⟩, ?_, ?_⟩
    · show (Addr.new arena.pages.length 0).toNat / PAGE_SIZE < _
      have hlength := arena.length_lens
      rw [haddr, hlens, growLens, if_neg (by rwa [← hlast]), List.length_append,
        List.length_singleton]
      rw [PAGE_SIZE_eq] at *
      omega
    · show (Addr.new arena.pages.length 0).toNat % PAGE_SIZE + len ≤ PAGE_SIZE
      rw [haddr]
      rw [PAGE_SIZE_eq] at *
      omega
    · intro x hx
      have hx' : x / PAGE_SIZE < arena.pages.length := by rwa [length_lens] at hx
      rw [cell_setPage (by simp [addPage]), if_neg (by omega), cell_addPage hx]
    · show (Addr.new arena.pages.length 0).toNat = _
      rw [haddr, frontier, hlens, growLens, if_neg (by rwa [← hlast])]
      congr 1
      simp

theorem Allocates.length_le {len : Nat} (h : arena.Allocates len arena' addr) :
    arena.lens.length ≤ arena'.lens.length := by
  rw [h.lens]
  exact (length_growLens _ _).1

theorem getLastD_lens_le (arena : MemoryArena) : arena.lens.getLastD 0 ≤ PAGE_SIZE := by
  obtain ⟨page, -, hlen⟩ := arena.exists_last
  rw [← hlen]
  exact page.len_le

theorem frontier_le (arena : MemoryArena) : arena.frontier ≤ arena.lens.length * PAGE_SIZE := by
  have hlast := arena.getLastD_lens_le
  have hpos := arena.pages_pos
  rw [← length_lens] at hpos
  have hmul : (arena.lens.length - 1) * PAGE_SIZE + PAGE_SIZE = arena.lens.length * PAGE_SIZE := by
    rw [← Nat.succ_mul]
    congr 1
    omega
  rw [frontier]
  omega

/-- As long as the pages fit 32 bits, space is handed out behind everything handed out before. -/
theorem Allocates.fresh {len : Nat} (h : arena.Allocates len arena' addr) (hpos : 0 < len)
    (hmem : arena'.memUsage ≤ 2 ^ 32) :
    arena.frontier ≤ addr.toNat ∧ addr.toNat + len = arena'.frontier := by
  have hle := arena'.frontier_le
  have hold := arena.frontier_le
  rw [length_lens] at hle
  unfold memUsage at hmem
  have hgrow : arena.frontier + len ≤ arena'.frontier := by
    have hnew : arena'.frontier = (arena'.lens.length - 1) * PAGE_SIZE +
        arena'.lens.getLastD 0 := rfl
    rw [hnew, h.lens, growLens]
    split
    · rw [frontier]
      simp
      omega
    · have : (arena.lens ++ [len]).length - 1 = arena.lens.length := by simp
      rw [this, List.getLastD_concat]
      omega
  have haddr := h.addr
  rw [Nat.mod_eq_of_lt (by omega)] at haddr
  omega

end MemoryArena

end TeaclaveCrates.Tantivy
