import TeaclaveCrates.Tantivy.TermHashMap
import TeaclaveCrates.Lib.Linked

namespace TeaclaveCrates.Tantivy

open Lib
open LinkedMap (contains keys keys_alter length_keys)

/-!
# The term hash map is a map

`TermHashMap` against the map that remembers the order in which its keys came in.

* `emptyLoop_spec`, `probeLoop_spec` — where the loops over the buckets end;
* `resize_spec` — a resize puts every item in place again, from its hash alone;
* `Stored` — what lies in the arena for an entry: its key behind the length, then its value;
* `Refines` — the map in the table and the arena; `Refines.mutateOrCreate` is the step.

A probe always ends because the table is never full when a key is looked for: it is saturated
from a third on, and a resize doubles it.
-/

namespace TermHashMap

/-- The hash an item is placed by. -/
def home (kv : KeyValue) : Nat := kv.hash.toNat

/-- The table, its buckets in use and what lies in them. -/
abbrev PlacedIn (table : List KeyValue) (occupied : List Nat) (kvs : List KeyValue) : Prop :=
  Placed KeyValue.isEmpty home table occupied kvs

variable {table table' kvs kvs' : List KeyValue} {occupied occupied' : List Nat} {k mask : Nat}

/-! ### Probing -/

/-- The bucket of a probe is the next slot on the way of its hash. -/
theorem nextProbe_eq (hmask : mask = 2 ^ k - 1) (hash i : Nat) :
    (⟨hash, i, mask⟩ : QuadraticProbing).nextProbe =
      (⟨hash, i + 1, mask⟩, probeSlot (2 ^ k) hash (i + 1)) := by
  rw [QuadraticProbing.nextProbe, hmask, probeSlot, Nat.and_two_pow_sub_one_eq_mod]

/-- The search for an empty bucket ends at the first one. -/
theorem emptyLoop_spec (hmask : mask = 2 ^ k - 1) (hash j : Nat)
    {kv : KeyValue} (hkv : table[probeSlot (2 ^ k) hash j]? = some kv) (hempty : kv.isEmpty = true)
    (fuel i : Nat) (hij : i < j) (hfuel : j ≤ i + fuel)
    (hway : ∀ n, i < n → n < j → Taken KeyValue.isEmpty table (probeSlot (2 ^ k) hash n)) :
    emptyLoop table fuel ⟨hash, i, mask⟩ = some (probeSlot (2 ^ k) hash j) := by
  induction fuel generalizing i with
  | zero => omega
  | succ fuel ih =>
    rw [emptyLoop, nextProbe_eq hmask]
    simp only [Option.bind_eq_bind]
    rcases Nat.lt_or_ge (i + 1) j with hlt | hge
    · obtain ⟨kv', hkv', hfull⟩ := hway (i + 1) (by omega) hlt
      rw [hkv']
      simp only [Option.bind_some, hfull, Bool.false_eq_true, if_false]
      exact ih (i + 1) hlt (by omega) fun n hn => hway n (by omega)
    · obtain rfl : j = i + 1 := by omega
      simp [hkv, hempty]

/-- A search passes a bucket whose item has another key. -/
def Passes (map : TermHashMap) (key : Bytes) (hash : UInt32) (bucket : Nat) : Prop :=
  ∃ kv, map.table[bucket]? = some kv ∧ kv.isEmpty = false ∧
    (kv.hash = hash → map.getValueAddrIfKeyMatch key kv.keyValueAddr = some none)

/-- What a search makes of the bucket where it ends. -/
inductive Ends (map : TermHashMap) (key : Bytes) (hash : UInt32) (bucket : Nat) : Probed → Prop
  | vacant {kv : KeyValue} (hkv : map.table[bucket]? = some kv) (hempty : kv.isEmpty = true) :
      Ends map key hash bucket (.vacant bucket)
  | found {kv : KeyValue} {valAddr : Addr} (hkv : map.table[bucket]? = some kv)
      (hempty : kv.isEmpty = false) (hhash : kv.hash = hash)
      (hkey : map.getValueAddrIfKeyMatch key kv.keyValueAddr = some (some valAddr)) :
      Ends map key hash bucket (.found kv valAddr)

theorem probeLoop_spec {map : TermHashMap} {key : Bytes} {hash : UInt32} {j : Nat} {r : Probed}
    (hmask : map.mask = 2 ^ k - 1) (hend : Ends map key hash (probeSlot (2 ^ k) hash.toNat j) r)
    (fuel i : Nat) (hij : i < j) (hfuel : j ≤ i + fuel)
    (hway : ∀ n, i < n → n < j → Passes map key hash (probeSlot (2 ^ k) hash.toNat n)) :
    map.probeLoop key hash fuel ⟨hash.toNat, i, map.mask⟩ = some r := by
  induction fuel generalizing i with
  | zero => omega
  | succ fuel ih =>
    rw [probeLoop, nextProbe_eq hmask]
    simp only [Option.bind_eq_bind]
    rcases Nat.lt_or_ge (i + 1) j with hlt | hge
    · obtain ⟨kv, hkv, hfull, hother⟩ := hway (i + 1) (by omega) hlt
      have hnext := ih (i + 1) hlt (by omega) fun n hn => hway n (by omega)
      rw [hkv]
      simp only [Option.bind_some, hfull, Bool.false_eq_true, if_false]
      split
      · rename_i hhash
        rw [hother hhash]
        exact hnext
      · exact hnext
    · obtain rfl : j = i + 1 := by omega
      cases hend with
      | vacant hkv hempty =>
        simp [hkv, hempty]
      | found hkv hempty hhash hkey =>
        simp [hkv, hempty, hhash, hkey]

/-! ### Resizing -/

/-- The loop puts the items that are left behind the ones that are placed. -/
theorem resizeLoop_spec {oldTable : List KeyValue} (hk : table.length = 2 ^ k)
    (hmask : mask = 2 ^ k - 1) (hplaced : PlacedIn table occupied kvs) (rest : List KeyValue)
    (oldPos : List Nat) (hlen : oldPos.length = rest.length)
    (hold : ∀ i : Nat, ∀ s, oldPos[i]? = some s → oldTable[s]? = rest[i]?)
    (hfull : ∀ kv ∈ rest, kv.isEmpty = false) (hroom : kvs.length + rest.length ≤ table.length) :
    ∃ table' newPos, resizeLoop oldTable mask oldPos table = some (table', newPos) ∧
      PlacedIn table' (occupied ++ newPos) (kvs ++ rest) ∧ table'.length = 2 ^ k := by
  induction rest generalizing oldPos table occupied kvs with
  | nil =>
    obtain rfl := List.length_eq_zero_iff.mp hlen
    exact ⟨table, [], rfl, by simpa using hplaced, hk⟩
  | cons kv rest ih =>
    obtain _ | ⟨pos, oldPos⟩ := oldPos
    · cases hlen
    have hget : oldTable[pos]? = some kv := hold 0 pos rfl
    have hkv := hfull kv (by simp)
    rw [List.length_cons] at hroom
    -- the new table has more buckets than items
    obtain ⟨j, y, hj, hjle, hy, hyv, hway⟩ := hplaced.exists_vacant (by omega) (home kv)
    have hloop := emptyLoop_spec hmask kv.hash.toNat j (by rw [← hk]; exact hy)
      hyv table.length 0 (by omega) (by omega) (fun n hn hnj => by rw [← hk]; exact hway n hn hnj)
    have hpush := hplaced.push hkv hj hjle rfl hy hyv hway
    obtain ⟨table', newPos, hrest, hplaced', hlen'⟩ := ih (by rw [List.length_set, hk]) hpush oldPos
      (by simpa using hlen) (fun i s hs => hold (i + 1) s hs)
      (fun x hx => hfull x (List.mem_cons_of_mem _ hx))
      (by rw [List.length_append, List.length_set, List.length_singleton]; omega)
    refine ⟨table', probeSlot table.length (home kv) j :: newPos, ?_, ?_, hlen'⟩
    · rw [resizeLoop, hget]
      simp only [Option.bind_eq_bind, Option.bind_some, QuadraticProbing.compute, hloop]
      rw [← hk, show kv.hash.toNat = home kv from rfl, hrest]
      rfl
    · simpa using hplaced'

theorem isEmpty_default : KeyValue.default.isEmpty = true := by decide

theorem placed_replicate (n : Nat) : PlacedIn (List.replicate n KeyValue.default) [] [] := by
  apply placed_nil
  intro x hx
  rw [List.eq_of_mem_replicate hx]
  exact isEmpty_default

/-- A resize doubles the table and changes nothing else. -/
theorem resize_spec {map : TermHashMap} (hk : map.table.length = 2 ^ k)
    (hplaced : PlacedIn map.table map.occupied kvs) :
    ∃ map', map.resize = some map' ∧ PlacedIn map'.table map'.occupied kvs ∧
      map'.table.length = 2 ^ (k + 1) ∧ map'.mask = 2 ^ (k + 1) - 1 ∧
      map'.memoryArena = map.memoryArena ∧ map'.len = map.len := by
  have hdouble : map.table.length * 2 = 2 ^ (k + 1) := by rw [hk, Nat.pow_succ]
  have hle := hplaced.length_le
  have hlenNew : (List.replicate (map.table.length * 2) KeyValue.default).length = 2 ^ (k + 1) := by
    rw [List.length_replicate, hdouble]
  have hmaskNew : map.table.length * 2 - 1 = 2 ^ (k + 1) - 1 := by rw [hdouble]
  obtain ⟨table', newPos, hloop, hplaced', hlen'⟩ :=
    resizeLoop_spec hlenNew hmaskNew (placed_replicate _) kvs
      map.occupied hplaced.length hplaced.here hplaced.filled
      (by rw [List.length_replicate, List.length_nil]; omega)
  refine ⟨⟨table', map.memoryArena, map.table.length * 2 - 1, newPos, map.len⟩, ?_, ?_, hlen', ?_,
    rfl, rfl⟩
  · simp [resize, hloop]
  · simpa using hplaced'
  · rw [hdouble]

/-! ### Entries in the arena -/

variable {V : Type} {item : Item V} {murmurhash2 : Bytes → UInt32} {map : TermHashMap}
  {arena arena' : MemoryArena} {owner owner' : Nat → Option Nat} {i : Nat} {kv : KeyValue}
  {key : Bytes} {v : V}

/-- The `i`-th entry: its bytes, in places of its own. -/
structure Stored (item : Item V) (murmurhash2 : Bytes → UInt32) (arena : MemoryArena)
    (owner : Nat → Option Nat) (i : Nat) (kv : KeyValue) (key : Bytes) (v : V) : Prop where
  id : kv.unorderedTermId = i
  hash : kv.hash = murmurhash2 key
  short : key.length ≤ 65535
  room : arena.Room kv.keyValueAddr.toNat (2 + key.length + item.size)
  owns : Owns owner i kv.keyValueAddr.toNat (2 + key.length + item.size)
  spells : Spells arena.cell kv.keyValueAddr.toNat
    (toLE 2 key.length ++ key ++ item.toBytes v)

/-- The place of the value, behind the key. -/
def valueAddr (kv : KeyValue) (key : Bytes) : Addr :=
  kv.keyValueAddr.offset (UInt32.ofNat (2 + key.length))

theorem Stored.toNat_valueAddr (h : Stored item murmurhash2 arena owner i kv key v) :
    (valueAddr kv key).toNat = kv.keyValueAddr.toNat + (2 + key.length) := by
  have hle := h.room.add_le
  have hpos := item.size_pos
  exact Addr.toNat_offset (by omega)

/-- The key of an entry is read back, with the address of its value. -/
theorem Stored.getKeyValue (h : Stored item murmurhash2 map.memoryArena owner i kv key v) :
    map.getKeyValue kv.keyValueAddr = some (key, valueAddr kv key) := by
  obtain ⟨data, hslice, hlen, hdata⟩ := MemoryArena.exists_sliceFrom h.room
  have hspells := h.spells
  have hshort := h.short
  set bytes := toLE 2 key.length ++ key ++ item.toBytes v with hbytes
  have hblen : bytes.length = 2 + key.length + item.size := by
    rw [hbytes, List.length_append, List.length_append, length_toLE, item.length_toBytes]
  -- the page goes on behind the entry
  have hfront : data.take bytes.length = bytes := by
    rw [← List.take_append_drop bytes.length data, spells_append] at hdata
    exact hdata.1.unique hspells (by rw [List.length_take]; omega)
  obtain ⟨more, hsplit⟩ : ∃ more, data = toLE 2 key.length ++ (key ++ more) := by
    refine ⟨item.toBytes v ++ data.drop bytes.length, ?_⟩
    calc data = data.take bytes.length ++ data.drop bytes.length :=
          (List.take_append_drop bytes.length data).symm
      _ = bytes ++ data.drop bytes.length := by rw [hfront]
      _ = _ := by simp [hbytes]
  have hlen2 := length_toLE 2 key.length
  have hprefix : slice? data 0 2 = some (toLE 2 key.length) := by
    rw [slice?_eq (by omega) (by omega), slice, List.drop_zero, hsplit,
      List.take_left' (by omega)]
  have hkey : slice? data 2 (2 + key.length) = some key := by
    rw [slice?_eq (by omega) (by omega), slice, hsplit, List.drop_left' hlen2,
      List.take_left' (by omega)]
  rw [TermHashMap.getKeyValue]
  simp only [Option.bind_eq_bind, hslice, Option.bind_some, hprefix,
    ofLE_toLE (show key.length < 256 ^ 2 by omega), hkey]
  rfl

theorem Stored.getValueAddr (h : Stored item murmurhash2 map.memoryArena owner i kv key v)
    (target : Bytes) : map.getValueAddrIfKeyMatch target kv.keyValueAddr =
      some (if key = target then some (valueAddr kv key) else none) := by
  simp [getValueAddrIfKeyMatch, h.getKeyValue]

theorem Stored.spells_value (h : Stored item murmurhash2 arena owner i kv key v) :
    Spells arena.cell (valueAddr kv key).toNat (item.toBytes v) := by
  have hsplit := (spells_append.mp h.spells).2
  rw [List.length_append, length_toLE] at hsplit
  rwa [h.toNat_valueAddr]

theorem Stored.room_value (h : Stored item murmurhash2 arena owner i kv key v) :
    arena.Room (valueAddr kv key).toNat item.size := by
  have hpos := item.size_pos
  rw [h.toNat_valueAddr]
  exact h.room.mono (by omega) (by omega) (by omega)

theorem Stored.owns_value (h : Stored item murmurhash2 arena owner i kv key v) :
    Owns owner i (valueAddr kv key).toNat item.size := by
  rw [h.toNat_valueAddr]
  exact h.owns.mono (by omega) (by omega)

theorem Stored.slice_value (h : Stored item murmurhash2 arena owner i kv key v) :
    (arena.slice (valueAddr kv key) item.size).map item.ofBytes = some v := by
  have hlen := item.length_toBytes v
  have := MemoryArena.slice_of_spells (by rw [hlen]; exact h.room_value) h.spells_value
  rw [hlen] at this
  rw [this, Option.map_some, item.ofBytes_toBytes]

/-- An entry is in its own cells only. -/
theorem Stored.frame (h : Stored item murmurhash2 arena owner i kv key v)
    (hlens : arena.lens.length ≤ arena'.lens.length)
    (hcell : ∀ x, owner x = some i → arena'.cell x = arena.cell x)
    (howner : ∀ x, owner x = some i → owner' x = some i) :
    Stored item murmurhash2 arena' owner' i kv key v where
  id := h.id
  hash := h.hash
  short := h.short
  room := h.room.grow hlens
  owns x hx hxn := howner x (h.owns x hx hxn)
  spells := by
    apply h.spells.congr
    intro x hx hxn
    apply hcell x (h.owns x hx _)
    rwa [List.length_append, List.length_append, length_toLE, item.length_toBytes] at hxn

/-- A value is written over the one before. -/
theorem Stored.writeValue (h : Stored item murmurhash2 arena owner i kv key v) (v' : V)
    (hlens : arena'.lens = arena.lens)
    (hwrite : Overwrites arena.cell arena'.cell (valueAddr kv key).toNat (item.toBytes v')) :
    Stored item murmurhash2 arena' owner i kv key v' where
  id := h.id
  hash := h.hash
  short := h.short
  room := h.room.grow (by rw [hlens])
  owns := h.owns
  spells := by
    have hsplit := spells_append.mp h.spells
    have hnew := hwrite.spells
    rw [h.toNat_valueAddr] at hnew
    apply spells_append.mpr
    constructor
    · apply hwrite.spells_disjoint hsplit.1
      left
      rw [h.toNat_valueAddr, List.length_append, length_toLE]
    · rwa [List.length_append, length_toLE]

/-! ### The map -/

/-- How much of each page the entries of the keys take up, one after the other. -/
def entryLens (item : Item V) (keys : List Bytes) : List Nat :=
  keys.foldl (fun lens key => MemoryArena.growLens lens (2 + key.length + item.size)) [0]

theorem entryLens_append (item : Item V) (keys : List Bytes) (key : Bytes) :
    entryLens item (keys ++ [key]) =
      MemoryArena.growLens (entryLens item keys) (2 + key.length + item.size) := by
  simp [entryLens]

/-- The table and its arena hold the entries of `m`. -/
structure Refines (item : Item V) (murmurhash2 : Bytes → UInt32) (map : TermHashMap)
    (m : LinkedMap Bytes V) : Prop where
  table : ∃ k, map.table.length = 2 ^ k ∧ map.mask = 2 ^ k - 1
  len : map.len = m.entries.length
  lens : map.memoryArena.lens = entryLens item m.keys
  memory : map.memoryArena.memUsage ≤ 2 ^ 32
  entries : ∃ kvs, PlacedIn map.table map.occupied kvs ∧ kvs.length = m.entries.length ∧
    ∃ owner : Nat → Option Nat, (∀ x, map.memoryArena.frontier ≤ x → owner x = none) ∧
      ∀ (i : Nat) (kv : KeyValue) (key : Bytes) (v : V), kvs[i]? = some kv →
        m.entries[i]? = some (key, v) →
        Stored item murmurhash2 map.memoryArena owner i kv key v

variable {m : LinkedMap Bytes V}

theorem exists_get? {m : LinkedMap Bytes V} {key : Bytes} {v : V} (h : m.get? key = some v) :
    ∃ i : Nat, m.entries[i]? = some (key, v) := by
  rw [m.get?_eq_some_iff] at h
  obtain ⟨i, hi, hget⟩ := List.getElem_of_mem h
  exact ⟨i, by rw [List.getElem?_eq_getElem hi, hget]⟩

/-- The place of a key among the keys is the place of its entry. -/
theorem idxOf_key {m : LinkedMap Bytes V} {i : Nat} {key : Bytes} {v : V}
    (h : m.entries[i]? = some (key, v)) : m.keys.idxOf key = i := by
  have hi := (List.getElem?_eq_some_iff.mp h).1
  have hlen : i < m.keys.length := by rwa [keys, List.length_map]
  have hget : m.keys[i] = key := by
    rw [← Option.some.injEq, ← List.getElem?_eq_getElem hlen, keys, List.getElem?_map, h]
    rfl
  rw [← hget]
  exact m.nodup.idxOf_getElem i hlen

/-- A search for a key that is not there ends at a vacant bucket, with room for an item. -/
theorem probe_of_none {kvs : List KeyValue} (hk : map.table.length = 2 ^ k)
    (hmask : map.mask = 2 ^ k - 1) (hplaced : PlacedIn map.table map.occupied kvs)
    (hroom : kvs.length < map.table.length) (hash : UInt32)
    (hother : ∀ kv ∈ kvs, kv.hash = hash →
      map.getValueAddrIfKeyMatch key kv.keyValueAddr = some none) :
    ∃ bucket, map.probeLoop key hash map.table.length (map.probe hash) = some (.vacant bucket) ∧
      ∀ kv : KeyValue, kv.hash = hash → kv.isEmpty = false →
        PlacedIn (map.table.set bucket kv) (map.occupied ++ [bucket]) (kvs ++ [kv]) := by
  obtain ⟨j, y, hj, hjle, hy, hyv, hway⟩ := hplaced.exists_vacant hroom hash.toNat
  refine ⟨probeSlot map.table.length hash.toNat j, ?_, ?_⟩
  · rw [hk] at hy hway
    have hends : Ends map key hash (probeSlot (2 ^ k) hash.toNat j)
        (.vacant (probeSlot (2 ^ k) hash.toNat j)) := .vacant hy hyv
    have := probeLoop_spec hmask hends map.table.length 0
      (by omega) (by omega) (fun n hn hnj => ?_)
    · rwa [hk] at this ⊢
    · obtain ⟨kv, hkv, hfull⟩ := hway n hn hnj
      obtain ⟨i, -, hitem⟩ := hplaced.exists_item hkv hfull
      exact ⟨kv, hkv, hfull, hother kv (List.mem_of_getElem? hitem)⟩
  · intro kv hhash hfull
    have hhome : home kv = hash.toNat := by rw [home, hhash]
    exact hplaced.push hfull hj hjle (by rw [hhome]) hy hyv (by rwa [hhome])

/-- A search for a key that is there ends at its item. -/
theorem probe_of_some {kvs : List KeyValue} (hk : map.table.length = 2 ^ k)
    (hmask : map.mask = 2 ^ k - 1) (hplaced : PlacedIn map.table map.occupied kvs)
    {valAddr : Addr} (hkv : kvs[i]? = some kv)
    (hfound : map.getValueAddrIfKeyMatch key kv.keyValueAddr = some (some valAddr))
    (hother : ∀ (j : Nat) kv', j ≠ i → kvs[j]? = some kv' → kv'.hash = kv.hash →
      map.getValueAddrIfKeyMatch key kv'.keyValueAddr = some none) :
    map.probeLoop key kv.hash map.table.length (map.probe kv.hash) = some (.found kv valAddr) := by
  obtain ⟨s, hs, hts⟩ := hplaced.exists_slot hkv
  obtain ⟨j, hj, hjle, hslot, hway⟩ := hplaced.reach i s kv hs hkv
  have hfull := hplaced.filled kv (List.mem_of_getElem? hkv)
  rw [hk] at hslot hway
  apply probeLoop_spec (j := j) hmask (Ends.found (by rw [← hts, ← hslot]; rfl) hfull rfl hfound)
    map.table.length 0 (by omega) (by omega)
  intro n hn hnj
  obtain ⟨⟨kv', hkv', hfull'⟩, hne⟩ := hway n hn hnj
  obtain ⟨i', hs', hitem⟩ := hplaced.exists_item hkv' hfull'
  refine ⟨kv', hkv', hfull', hother i' kv' ?_ hitem⟩
  -- the item of another bucket is another item
  rintro rfl
  rw [hs] at hs'
  exact hne (Option.some.inj hs').symm

/-- Before a key is looked for the table is made large enough. -/
theorem Refines.makeRoom (h : Refines item murmurhash2 map m) :
    ∃ map', (if map.isSaturated then map.resize else some map) = some map' ∧
      Refines item murmurhash2 map' m ∧ m.entries.length < map'.table.length := by
  obtain ⟨k, hk, hmask⟩ := h.table
  obtain ⟨kvs, hplaced, hlen, howner⟩ := h.entries
  have hpos : 0 < map.table.length := by
    rw [hk]
    exact Nat.two_pow_pos k
  have hocc := hplaced.length
  by_cases hsat : map.isSaturated = true
  · obtain ⟨map', hresize, hplaced', hk', hmask', harena, hlen'⟩ := resize_spec hk hplaced
    have hle := hplaced.length_le
    refine ⟨map', by simp [hsat, hresize], ⟨⟨k + 1, hk', hmask'⟩, ?_, ?_, ?_, ?_⟩, ?_⟩
    · rw [hlen', h.len]
    · rw [harena, h.lens]
    · rw [harena]
      exact h.memory
    · rw [harena]
      exact ⟨kvs, hplaced', hlen, howner⟩
    · omega
  · refine ⟨map, if_neg hsat, h, ?_⟩
    simp only [isSaturated, decide_eq_true_eq] at hsat
    omega

/-- The item of an entry. -/
theorem getElem?_item {kvs : List KeyValue} (hlen : kvs.length = m.entries.length) {i : Nat}
    {key : Bytes} {v : V} (h : m.entries[i]? = some (key, v)) : ∃ kv, kvs[i]? = some kv := by
  have hi := (List.getElem?_eq_some_iff.mp h).1
  exact ⟨_, List.getElem?_eq_getElem (hlen ▸ hi)⟩

theorem getElem?_entry {kvs : List KeyValue} (hlen : kvs.length = m.entries.length) {i : Nat}
    {kv : KeyValue} (h : kvs[i]? = some kv) : ∃ key v, m.entries[i]? = some (key, v) := by
  have hi := (List.getElem?_eq_some_iff.mp h).1
  exact ⟨_, _, List.getElem?_eq_getElem (hlen ▸ hi)⟩

/-- A new key: an entry behind all others in the arena, and a bucket that was vacant. -/
theorem Refines.create (h : Refines item murmurhash2 map m)
    (hroom : m.entries.length < map.table.length) (hshort : key.length ≤ 65535)
    (updater : Option V → V) (hnone : m.get? key = none)
    (hpages : (entryLens item (m.alter key updater).keys).length * PAGE_SIZE ≤ 2 ^ 32) :
    ∃ bucket arena₁ keyAddr arena₂,
      map.probeLoop key (murmurhash2 key) map.table.length (map.probe (murmurhash2 key)) =
        some (.vacant bucket) ∧
      map.memoryArena.allocateSpace (2 + key.length + item.size) = some (arena₁, keyAddr) ∧
      arena₁.write keyAddr (toLE 2 key.length ++ key ++ item.toBytes (updater none)) =
        some arena₂ ∧
      Refines item murmurhash2
        ({ map with memoryArena := arena₂ }.setBucket (murmurhash2 key) keyAddr bucket).1
        (m.alter key updater) := by
  obtain ⟨k, hk, hmask⟩ := h.table
  obtain ⟨kvs, hplaced, hlen, owner, hfresh, hstored⟩ := h.entries
  have hentries := LinkedMap.alter_of_none hnone updater
  have hkeys : (m.alter key updater).keys = m.keys ++ [key] := by
    simp [keys, hentries]
  -- every item has another key
  have hother : ∀ kv ∈ kvs, kv.hash = murmurhash2 key →
      map.getValueAddrIfKeyMatch key kv.keyValueAddr = some none := by
    intro kv hkv _
    obtain ⟨i, hi, hget⟩ := List.getElem_of_mem hkv
    have hget : kvs[i]? = some kv := by rw [List.getElem?_eq_getElem hi, hget]
    obtain ⟨key', v', hentry⟩ := getElem?_entry hlen hget
    have hne : key' ≠ key := by
      rintro rfl
      rw [(m.get?_eq_some_iff key' v').mpr (List.mem_of_getElem? hentry)] at hnone
      cases hnone
    simp [(hstored i kv key' v' hget hentry).getValueAddr, hne]
  obtain ⟨bucket, hprobe, hpush⟩ :=
    probe_of_none hk hmask hplaced (by omega) (murmurhash2 key) hother
  have hsize := item.size_le
  obtain ⟨arena₁, keyAddr, halloc, hspec⟩ :=
    map.memoryArena.allocateSpace_spec (2 + key.length + item.size) (by omega) (by omega)
  set bytes := toLE 2 key.length ++ key ++ item.toBytes (updater none) with hbytes
  have hblen : bytes.length = 2 + key.length + item.size := by
    rw [hbytes, List.length_append, List.length_append, length_toLE, item.length_toBytes]
  obtain ⟨arena₂, hwrite, hover, hlens⟩ := arena₁.write_spec keyAddr bytes
    (by rw [hblen]; exact hspec.room)
  have hmem : arena₂.memUsage ≤ 2 ^ 32 := by
    rw [hkeys, entryLens_append, ← h.lens, ← hspec.lens, ← hlens, MemoryArena.length_lens] at hpages
    exact hpages
  have hmem₁ : arena₁.memUsage ≤ 2 ^ 32 := by
    unfold MemoryArena.memUsage at *
    rwa [← MemoryArena.length_lens, ← hlens, MemoryArena.length_lens]
  have hfront : arena₂.frontier = arena₁.frontier := by
    simp [MemoryArena.frontier, hlens]
  obtain ⟨hge, hend⟩ := hspec.fresh (by omega) hmem₁
  have hroomAddr := hspec.room.add_le
  have hnull : (⟨keyAddr, murmurhash2 key, map.len⟩ : KeyValue).isEmpty = false := by
    rw [KeyValue.isEmpty, Bool.eq_false_iff, ne_eq, Addr.isNull_iff]
    show ¬ keyAddr.toNat = _
    omega
  refine ⟨bucket, arena₁, keyAddr, arena₂, hprobe, halloc, hwrite,
    ⟨⟨k, by simp [setBucket, hk], hmask⟩, ?_, ?_, hmem, ?_⟩⟩
  · simp [hentries, setBucket, h.len]
  · rw [hkeys, entryLens_append, ← h.lens, ← hspec.lens, ← hlens]
    rfl
  · have hplaced' := hpush ⟨keyAddr, murmurhash2 key, map.len⟩ rfl hnull
    refine ⟨kvs ++ [(⟨keyAddr, murmurhash2 key, map.len⟩ : KeyValue)], hplaced', ?_,
      give owner m.entries.length keyAddr.toNat (2 + key.length + item.size), ?_, ?_⟩
    · simp [hentries, hlen]
    · intro x hx
      have hx : arena₁.frontier ≤ x := by
        rw [← hfront]
        exact hx
      rw [give, if_neg (by omega), hfresh x (by omega)]
    · intro i kv key' v' hkv hentry
      rw [hentries] at hentry
      show Stored item murmurhash2 arena₂ _ i kv key' v'
      rcases Nat.lt_or_ge i kvs.length with hi | hi
      · -- an entry from before
        rw [List.getElem?_append_left hi] at hkv
        rw [List.getElem?_append_left (hlen ▸ hi)] at hentry
        apply (hstored i kv key' v' hkv hentry).frame
        · rw [hlens]
          exact hspec.length_le
        · intro x hx
          have hlt : x < map.memoryArena.frontier := by
            by_contra hge
            rw [hfresh x (by omega)] at hx
            cases hx
          have hle := map.memoryArena.frontier_le
          rw [hover.frame x (by omega), hspec.cells x]
          rw [Nat.div_lt_iff_lt_mul PAGE_SIZE_pos]
          omega
        · exact fun x hx => give_eq_of_fresh (fun y hy => hfresh y (by omega)) hx
      · -- the new one
        have hi0 : i - kvs.length = 0 := by
          by_contra hne
          rw [List.getElem?_eq_none (by simp; omega)] at hkv
          cases hkv
        rw [List.getElem?_append_right hi, hi0] at hkv
        rw [List.getElem?_append_right (hlen ▸ hi), ← hlen, hi0] at hentry
        cases hkv
        cases hentry
        obtain rfl : i = m.entries.length := by omega
        exact ⟨h.len, rfl, hshort, hspec.room.grow (by rw [hlens]), owns_give _ _ _ _,
          hover.spells⟩

/-- A key that is there: its value is read and written over. -/
theorem Refines.mutate (h : Refines item murmurhash2 map m) (updater : Option V → V)
    (hsome : m.get? key = some v) :
    ∃ kv valAddr bytes arena',
      map.probeLoop key (murmurhash2 key) map.table.length (map.probe (murmurhash2 key)) =
        some (.found kv valAddr) ∧
      map.memoryArena.slice valAddr item.size = some bytes ∧ item.ofBytes bytes = v ∧
      map.memoryArena.write valAddr (item.toBytes (updater (some v))) = some arena' ∧
      kv.unorderedTermId = m.keys.idxOf key ∧
      Refines item murmurhash2 { map with memoryArena := arena' } (m.alter key updater) := by
  obtain ⟨k, hk, hmask⟩ := h.table
  obtain ⟨kvs, hplaced, hlen, owner, hfresh, hstored⟩ := h.entries
  obtain ⟨i, hentry⟩ := exists_get? hsome
  obtain ⟨kv, hkv⟩ := getElem?_item hlen hentry
  have hst := hstored i kv key v hkv hentry
  have hfound : map.getValueAddrIfKeyMatch key kv.keyValueAddr = some (some (valueAddr kv key)) := by
    simp [hst.getValueAddr]
  have hprobe := probe_of_some hk hmask hplaced hkv hfound (by
      intro j kv' hne hkv' _
      obtain ⟨key', v', hentry'⟩ := getElem?_entry hlen hkv'
      have hkey : key' ≠ key := by
        rintro rfl
        exact hne ((idxOf_key hentry').symm.trans (idxOf_key hentry))
      simp [(hstored j kv' key' v' hkv' hentry').getValueAddr, hkey])
  rw [hst.hash] at hprobe
  obtain ⟨bytes, hslice, hbytes⟩ := Option.map_eq_some_iff.mp hst.slice_value
  have hlenBytes := item.length_toBytes (updater (some v))
  obtain ⟨arena', hwrite, hover, hlens⟩ := map.memoryArena.write_spec
    (valueAddr kv key) (item.toBytes (updater (some v)))
    (by rw [hlenBytes]; exact hst.room_value)
  have hkeys : (m.alter key updater).keys = m.keys := by
    rw [keys_alter, if_pos (by rw [contains, hsome]; rfl)]
  have hmem : arena'.memUsage ≤ 2 ^ 32 := by
    have := h.memory
    unfold MemoryArena.memUsage at *
    rwa [← MemoryArena.length_lens, hlens, MemoryArena.length_lens]
  refine ⟨kv, valueAddr kv key, bytes, arena', hprobe, hslice, hbytes, hwrite, ?_,
    ⟨⟨k, hk, hmask⟩, ?_, ?_, hmem, ?_⟩⟩
  · rw [hst.id, idxOf_key hentry]
  · rw [h.len, ← length_keys, ← length_keys, hkeys]
  · rw [hkeys, ← h.lens, ← hlens]
  · refine ⟨kvs, hplaced, ?_, owner, ?_, ?_⟩
    · rw [hlen, ← length_keys, ← length_keys, hkeys]
    · intro x hx
      apply hfresh
      unfold MemoryArena.frontier at *
      rwa [← hlens]
    · intro j kv' key' v' hkv' hentry'
      rw [LinkedMap.getElem?_alter_of_some hsome] at hentry'
      obtain ⟨⟨key₀, v₀⟩, hold, hnew⟩ := Option.map_eq_some_iff.mp hentry'
      cases hnew
      have hst' := hstored j kv' key₀ v₀ hkv' hold
      by_cases hkey : key₀ = key
      · -- this is the entry
        subst hkey
        obtain rfl : j = i := (idxOf_key hold).symm.trans (idxOf_key hentry)
        rw [hkv] at hkv'
        cases hkv'
        rw [hentry] at hold
        cases hold
        rw [if_pos rfl]
        exact hst.writeValue _ hlens hover
      · rw [if_neg hkey]
        have hji : i ≠ j := by
          rintro rfl
          rw [hentry] at hold
          cases hold
          exact hkey rfl
        apply hst'.frame (by rw [hlens]) _ fun x hx => hx
        intro x hx
        exact hover.frame_owner (by rw [hlenBytes]; exact hst.owns_value) hx hji

/-- A call sees the value its key has, returns the place of the key, and sets its value. -/
theorem Refines.mutateOrCreate (h : Refines item murmurhash2 map m)
    (hshort : key.length ≤ 65535) (updater : Option V → V)
    (hpages : (entryLens item (m.alter key updater).keys).length * PAGE_SIZE ≤ 2 ^ 32) :
    ∃ map', TermHashMap.mutateOrCreate item murmurhash2 map key updater =
        some (map', m.keys.idxOf key, m.get? key) ∧
      Refines item murmurhash2 map' (m.alter key updater) := by
  obtain ⟨map₁, hroom, h₁, hlt⟩ := h.makeRoom
  rw [TermHashMap.mutateOrCreate, hroom]
  simp only [Option.bind_eq_bind, Option.bind_some]
  cases hget : m.get? key with
  | none =>
    obtain ⟨bucket, arena₁, keyAddr, arena₂, hprobe, halloc, hwrite, href⟩ :=
      h₁.create hlt hshort updater hget hpages
    refine ⟨_, ?_, href⟩
    simp only [hprobe, Option.bind_some, halloc, hwrite]
    -- the id is the number of keys
    have hnot : key ∉ m.keys := by
      rw [keys, m.mem_keys_iff, contains, hget]
      exact Bool.false_ne_true
    rw [List.idxOf_eq_length hnot, keys, List.length_map, ← h₁.len]
    rfl
  | some v =>
    obtain ⟨kv, valAddr, bytes, arena', hprobe, hslice, hbytes, hwrite, hid, href⟩ :=
      h₁.mutate updater hget
    refine ⟨_, ?_, href⟩
    simp [hprobe, hslice, hbytes, hwrite, hid]

/-! ### Iterating -/

/-- What the iterator yields for one item. -/
def yielded (kv : KeyValue) (entry : Bytes × V) : Bytes × Addr × Nat :=
  (entry.1, valueAddr kv entry.1, kv.unorderedTermId)

/-- The iterator yields the keys in order, each with its id and an address at which its value is
read. -/
structure Shows (item : Item V) (map : TermHashMap) (m : LinkedMap Bytes V)
    (yields : List (Bytes × Addr × Nat)) : Prop where
  iter : map.iter = some yields
  keys : yields.map (·.1) = m.keys
  ids : yields.map (·.2.2) = List.range m.entries.length
  values : yields.map (fun e => (map.memoryArena.slice e.2.1 item.size).map item.ofBytes) =
    m.entries.map fun e => some e.2

theorem mapM_eq_some_of_forall {α β : Type} {f : α → Option β} {l : List α} {r : List β}
    (hlen : l.length = r.length)
    (h : ∀ (i : Nat) (a : α) (b : β), l[i]? = some a → r[i]? = some b → f a = some b) :
    l.mapM f = some r := by
  induction l generalizing r with
  | nil =>
    obtain rfl := List.length_eq_zero_iff.mp hlen.symm
    rfl
  | cons a l ih =>
    obtain _ | ⟨b, r⟩ := r
    · cases hlen
    simp [h 0 a b rfl rfl, ih (by simpa using hlen) fun i x y hx hy => h (i + 1) x y hx hy]

theorem Refines.shows (h : Refines item murmurhash2 map m) :
    ∃ yields, map.Shows item m yields := by
  obtain ⟨kvs, hplaced, hlen, owner, -, hstored⟩ := h.entries
  have hget : ∀ (i : Nat) (e : Bytes × Addr × Nat),
      (List.zipWith yielded kvs m.entries)[i]? = some e →
      ∃ kv key v, kvs[i]? = some kv ∧ m.entries[i]? = some (key, v) ∧ e = yielded kv (key, v) ∧
        Stored item murmurhash2 map.memoryArena owner i kv key v := by
    intro i e he
    obtain ⟨kv, ⟨key, v⟩, hkv, hentry, rfl⟩ := List.getElem?_zipWith_eq_some.mp he
    exact ⟨kv, key, v, hkv, hentry, rfl, hstored i kv key v hkv hentry⟩
  refine ⟨List.zipWith yielded kvs m.entries, ?_, ?_, ?_, ?_⟩
  · apply mapM_eq_some_of_forall
    · rw [List.length_zipWith, hplaced.length, hlen, min_self]
    · intro i bucket e hbucket he
      obtain ⟨kv, key, v, hkv, hentry, rfl, hst⟩ := hget i e he
      have htable := hplaced.here i bucket hbucket
      rw [hkv] at htable
      simp only [Option.bind_eq_bind, htable, Option.bind_some, hst.getKeyValue]
      rfl
  · rw [keys, List.map_zipWith]
    apply List.ext_getElem?
    intro i
    rw [List.getElem?_zipWith, List.getElem?_map]
    cases hentry : m.entries[i]? with
    | none => cases kvs[i]? <;> rfl
    | some entry =>
      obtain ⟨kv, hkv⟩ := getElem?_item hlen hentry
      rw [hkv]
      rfl
  · apply List.ext_getElem?
    intro i
    rw [List.getElem?_map]
    cases he : (List.zipWith yielded kvs m.entries)[i]? with
    | none =>
      rw [List.getElem?_eq_none_iff, List.length_zipWith, hlen, min_self] at he
      rw [Option.map_none, List.getElem?_eq_none (by rwa [List.length_range])]
    | some e =>
      obtain ⟨kv, key, v, hkv, hentry, rfl, hst⟩ := hget i e he
      have hi := (List.getElem?_eq_some_iff.mp hentry).1
      rw [List.getElem?_range hi, Option.map_some, yielded, hst.id]
  · apply List.ext_getElem?
    intro i
    rw [List.getElem?_map, List.getElem?_map]
    cases he : (List.zipWith yielded kvs m.entries)[i]? with
    | none =>
      rw [List.getElem?_eq_none_iff, List.length_zipWith, hlen, min_self] at he
      simp [List.getElem?_eq_none he]
    | some e =>
      obtain ⟨kv, key, v, hkv, hentry, rfl, hst⟩ := hget i e he
      simp [hentry, yielded, hst.slice_value]

/-! ### Runs -/

/-- A call: the key and the updater. -/
abbrev Call (V : Type) := Bytes × (Option V → V)

/-- The calls one after the other, with what each returns and what its updater was given. -/
def run (item : Item V) (murmurhash2 : Bytes → UInt32) (map : TermHashMap) :
    List (Call V) → Option (TermHashMap × List (Nat × Option V))
  | [] => some (map, [])
  | (key, updater) :: calls => do
    let (map, id, given) ← map.mutateOrCreate item murmurhash2 key updater
    let (map, answers) ← run item murmurhash2 map calls
    some (map, (id, given) :: answers)

/-- The same on a map: a key has its place among the keys as its id. -/
def mapRun (m : LinkedMap Bytes V) :
    List (Call V) → LinkedMap Bytes V × List (Nat × Option V)
  | [] => (m, [])
  | (key, updater) :: calls =>
    ((mapRun (m.alter key updater) calls).1,
      (m.keys.idxOf key, m.get? key) :: (mapRun (m.alter key updater) calls).2)

/-- The calls terminate, each sees what the call before with the same key left, and the iterator
shows the map they make. -/
def Agrees (item : Item V) (murmurhash2 : Bytes → UInt32) (tableSize : Nat)
    (calls : List (Call V)) : Prop :=
  ∃ map yields, (new tableSize).bind (fun map => map.run item murmurhash2 calls) =
      some (map, (mapRun LinkedMap.empty calls).2) ∧
    map.Shows item (mapRun LinkedMap.empty calls).1 yields

theorem length_entryLens_le (item : Item V) (keys keys' : List Bytes) :
    (entryLens item keys).length ≤ (entryLens item (keys ++ keys')).length := by
  induction keys' using List.reverseRecOn with
  | nil => simp
  | append_singleton keys' key ih =>
    rw [← List.append_assoc, entryLens_append]
    apply le_trans ih
    unfold MemoryArena.growLens
    split
    · rw [List.length_append, List.length_dropLast, List.length_singleton]
      omega
    · simp

theorem exists_keys_mapRun (m : LinkedMap Bytes V) (calls : List (Call V)) :
    ∃ keys, (mapRun m calls).1.keys = m.keys ++ keys := by
  induction calls generalizing m with
  | nil => exact ⟨[], by simp [mapRun]⟩
  | cons call calls ih =>
    obtain ⟨key, updater⟩ := call
    obtain ⟨keys, hkeys⟩ := ih (m.alter key updater)
    rw [keys_alter] at hkeys
    split at hkeys
    · exact ⟨keys, hkeys⟩
    · exact ⟨key :: keys, by rw [List.append_cons]; exact hkeys⟩

theorem Refines.run (h : Refines item murmurhash2 map m) (calls : List (Call V))
    (hshort : ∀ call ∈ calls, call.1.length ≤ 65535)
    (hpages : (entryLens item (mapRun m calls).1.keys).length * PAGE_SIZE ≤ 2 ^ 32) :
    ∃ map', map.run item murmurhash2 calls = some (map', (mapRun m calls).2) ∧
      Refines item murmurhash2 map' (mapRun m calls).1 := by
  induction calls generalizing map m with
  | nil => exact ⟨map, rfl, h⟩
  | cons call calls ih =>
    obtain ⟨key, updater⟩ := call
    have hstep : mapRun m ((key, updater) :: calls) = ((mapRun (m.alter key updater) calls).1,
        (m.keys.idxOf key, m.get? key) :: (mapRun (m.alter key updater) calls).2) := rfl
    rw [hstep] at hpages ⊢
    -- the pages never become fewer
    obtain ⟨keys, hkeys⟩ := exists_keys_mapRun (m.alter key updater) calls
    have hfirst : (entryLens item (m.alter key updater).keys).length * PAGE_SIZE ≤ 2 ^ 32 := by
      have hle := length_entryLens_le item (m.alter key updater).keys keys
      rw [← hkeys] at hle
      exact le_trans (Nat.mul_le_mul_right _ hle) hpages
    have hkey : key.length ≤ 65535 := hshort (key, updater) List.mem_cons_self
    obtain ⟨map₁, hcall, h₁⟩ := h.mutateOrCreate hkey updater hfirst
    obtain ⟨map', hrun, h'⟩ := ih h₁ (fun call hmem => hshort call (List.mem_cons_of_mem _ hmem))
      hpages
    refine ⟨map', ?_, h'⟩
    simp [TermHashMap.run, hcall, hrun]

/-- A new map has no entry. -/
theorem refines_new (item : Item V) (murmurhash2 : Bytes → UInt32) {tableSize : Nat}
    (hsize : 1 ≤ tableSize) :
    ∃ map, new tableSize = some map ∧ Refines item murmurhash2 map LinkedMap.empty := by
  have hmem : MemoryArena.new.memUsage ≤ 2 ^ 32 := by
    decide
  refine ⟨_, if_pos hsize, ⟨⟨Nat.log2 tableSize, ?_, ?_⟩, rfl, rfl, hmem, ?_⟩⟩
  · rw [List.length_replicate, computePreviousPowerOfTwo, Nat.one_shiftLeft]
  · rw [computePreviousPowerOfTwo, Nat.one_shiftLeft]
  · exact ⟨[], placed_replicate _, rfl, fun _ => none, fun _ _ => rfl, by simp⟩

/-- **The term hash map is a map.** For every table size, hash function and sequence of calls, as
long as the entries of the keys fit the pages that a 32-bit address reaches. -/
theorem term_hash_map_refines {tableSize : Nat} (hsize : 1 ≤ tableSize) (calls : List (Call V))
    (hshort : ∀ call ∈ calls, call.1.length ≤ 65535)
    (hpages : (entryLens item (mapRun LinkedMap.empty calls).1.keys).length * PAGE_SIZE ≤ 2 ^ 32) :
    Agrees item murmurhash2 tableSize calls := by
  obtain ⟨map, hnew, h⟩ := refines_new item murmurhash2 hsize
  obtain ⟨map', hrun, h'⟩ := h.run calls hshort hpages
  obtain ⟨yields, hshows⟩ := h'.shows
  exact ⟨map', yields, by rw [hnew]; exact hrun, hshows⟩

/-- One byte as a value. -/
def byteItem : Item UInt8 where
  size := 1
  size_pos := by decide
  size_le := by decide
  toBytes v := [v]
  ofBytes bs := bs.headD 0
  length_toBytes _ := rfl
  ofBytes_toBytes _ := rfl

/-- Three keys with one hash in a table of one bucket, and a second call for the first. -/
theorem term_hash_map_refines_collisions : Agrees byteItem (fun _ => 7) 1
    [([1], fun _ => 5), ([2], fun _ => 6), ([1, 2], fun _ => 7), ([1], fun v => v.getD 0 + 1)] :=
  term_hash_map_refines (by decide) _ (by decide) (by decide)

/-! ### More keys than addresses -/

theorem forall₂_of_mapM {α β : Type} {f : α → Option β} {l : List α} {r : List β}
    (h : l.mapM f = some r) : List.Forall₂ (fun a b => f a = some b) l r := by
  induction l generalizing r with
  | nil =>
    cases h
    exact .nil
  | cons a l ih =>
    rw [List.mapM_cons] at h
    simp only [Option.bind_eq_bind, Option.bind_eq_some_iff] at h
    obtain ⟨b, hb, r, hr, h⟩ := h
    cases h
    exact .cons hb (ih hr)

/-- Keys that are read from different places are read from different addresses. -/
theorem length_le_of_shows {yields : List (Bytes × Addr × Nat)} (h : map.Shows item m yields) :
    m.entries.length ≤ 2 ^ 32 := by
  have hall := forall₂_of_mapM h.iter
  -- the address of the bucket determines the key
  have hread : ∀ (buckets : List Nat) (ys : List (Bytes × Addr × Nat)),
      List.Forall₂ (fun bucket y => (map.table[bucket]?.bind fun kv =>
        (map.getKeyValue kv.keyValueAddr).bind fun read =>
          some (read.1, read.2, kv.unorderedTermId)) = some y) buckets ys →
      ∃ addrs : List Addr, addrs.map (fun addr => (map.getKeyValue addr).map Prod.fst) =
        ys.map fun y => some y.1 := by
    intro buckets ys hys
    induction hys with
    | nil => exact ⟨[], rfl⟩
    | @cons bucket y buckets ys hy _ ih =>
      obtain ⟨addrs, haddrs⟩ := ih
      simp only [Option.bind_eq_some_iff] at hy
      obtain ⟨kv, -, ⟨key, offset⟩, hkey, hy⟩ := hy
      cases hy
      exact ⟨kv.keyValueAddr :: addrs, by simp [hkey, haddrs]⟩
  obtain ⟨addrs, haddrs⟩ := hread _ _ hall
  have hkeys : (m.keys.map some).Nodup := m.nodup.map fun _ _ heq => Option.some.inj heq
  have hlen : addrs.length = m.entries.length := by
    have := congrArg List.length haddrs
    rw [List.length_map, List.length_map] at this
    rw [this, ← length_keys, ← h.keys, List.length_map]
  have hnodup : addrs.Nodup := by
    apply List.Nodup.of_map (f := fun addr => (map.getKeyValue addr).map Prod.fst)
    have hmap : (yields.map fun y => some y.1) = m.keys.map some := by
      rw [← h.keys, List.map_map]
      rfl
    rwa [haddrs, hmap]
  -- there are only `2 ^ 32` addresses
  have hfin : (addrs.map fun addr => (⟨addr.toNat, addr.toNat_lt⟩ : Fin (2 ^ 32))).Nodup := by
    apply hnodup.map
    intro a b heq
    cases a
    rw [Fin.mk.injEq] at heq
    congr 1
    exact UInt32.toNat_inj.mp heq
  have := hfin.length_le_card
  rw [List.length_map, Fintype.card_fin] at this
  omega

/-- New keys are put behind the ones that are there. -/
theorem keys_mapRun_of_new (calls : List (Call V)) (m : LinkedMap Bytes V)
    (hnodup : (m.keys ++ calls.map Prod.fst).Nodup) :
    (mapRun m calls).1.keys = m.keys ++ calls.map Prod.fst := by
  induction calls generalizing m with
  | nil => simp [mapRun]
  | cons call calls ih =>
    obtain ⟨key, updater⟩ := call
    have hnot : ¬ m.contains key = true := by
      rw [← m.mem_keys_iff]
      intro hmem
      rw [List.nodup_append] at hnodup
      exact hnodup.2.2 key hmem key (by simp) rfl
    have hkeys : (m.alter key updater).keys = m.keys ++ [key] := by
      simp [keys_alter, hnot]
    simp [mapRun, ih _ (by rw [hkeys, List.append_assoc]; exact hnodup), hkeys]

/-- One key more than there are addresses. -/
def tooManyCalls : List (Call UInt8) :=
  (List.range (2 ^ 32 + 1)).map fun n => (toLE 5 n, fun _ => 0)

/-- The keys of an iterator are read from 32-bit addresses, so there are not more of them. -/
theorem term_hash_map_too_many_keys :
    ¬ ∀ calls : List (Call UInt8), (∀ call ∈ calls, call.1.length ≤ 65535) →
      Agrees byteItem (fun _ => 0) 1 calls := by
  intro hall
  have hnodup : (tooManyCalls.map Prod.fst).Nodup := by
    rw [tooManyCalls, List.map_map]
    apply List.Nodup.map_on _ List.nodup_range
    intro a ha b hb heq
    have ha := List.mem_range.mp ha
    have hb := List.mem_range.mp hb
    have h := congrArg ofLE (show toLE 5 a = toLE 5 b from heq)
    rwa [ofLE_toLE (by omega), ofLE_toLE (by omega)] at h
  have hlen : tooManyCalls.length = 2 ^ 32 + 1 := by
    rw [tooManyCalls, List.length_map, List.length_range]
  have hshort : ∀ call ∈ tooManyCalls, call.1.length ≤ 65535 := by
    intro call hcall
    rw [tooManyCalls, List.mem_map] at hcall
    obtain ⟨n, -, rfl⟩ := hcall
    rw [length_toLE]
    decide
  obtain ⟨map, yields, -, hshows⟩ := hall tooManyCalls hshort
  have hle := length_le_of_shows hshows
  have hempty : (LinkedMap.empty : LinkedMap Bytes UInt8).keys = [] := rfl
  have hkeys := keys_mapRun_of_new tooManyCalls LinkedMap.empty
    (by rw [hempty, List.nil_append]; exact hnodup)
  have hcount : (mapRun LinkedMap.empty tooManyCalls).1.entries.length = 2 ^ 32 + 1 := by
    rw [← length_keys, hkeys, hempty, List.nil_append, List.length_map, hlen]
  rw [hcount] at hle
  omega

end TermHashMap

end TeaclaveCrates.Tantivy
