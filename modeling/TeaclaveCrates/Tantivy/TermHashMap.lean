import TeaclaveCrates.Tantivy.MemoryArena
import TeaclaveCrates.Lib.Probing

namespace TeaclaveCrates.Tantivy

open Lib

/-!
# The term hash map

The hash map of the indexer, from the bytes of a term to the recorder of its postings. The table
is open addressed, and holds addresses: keys and values lie in an arena, a key behind its length
and in front of its value.

* `Item` — a value type by its bytes, as `store` and `load` see it;
* `TermHashMap` — the table, the arena and the list of the buckets in use;
* `probeLoop`, `resize`, `mutateOrCreate`, `iter` — the operations.

The loop over the buckets has no end of its own in the source. Here it goes around the table
once; `none` stands for a loop that does not end, and for an index out of bounds.
-/

/-- A value type `V: Copy`: the number of its bytes, and the bytes. The arena works for objects
much smaller than a page: a value fits one with the longest key. -/
structure Item (V : Type) where
  size : Nat
  size_pos : 0 < size
  size_le : 2 + 65535 + size ≤ PAGE_SIZE
  toBytes : V → Bytes
  ofBytes : Bytes → V
  length_toBytes : ∀ v, (toBytes v).length = size
  ofBytes_toBytes : ∀ v, ofBytes (toBytes v) = v

/-- What lies in a bucket. -/
structure KeyValue where
  keyValueAddr : Addr
  hash : UInt32
  unorderedTermId : Nat

namespace KeyValue

def default : KeyValue := ⟨Addr.nullPointer, 0, 0⟩

def isEmpty (kv : KeyValue) : Bool := kv.keyValueAddr.isNull

end KeyValue

structure QuadraticProbing where
  hash : Nat
  i : Nat
  mask : Nat

namespace QuadraticProbing

def compute (hash mask : Nat) : QuadraticProbing := ⟨hash, 0, mask⟩

def nextProbe (probe : QuadraticProbing) : QuadraticProbing × Nat :=
  ({ probe with i := probe.i + 1 }, (probe.hash + (probe.i + 1)) &&& probe.mask)

end QuadraticProbing

structure TermHashMap where
  table : List KeyValue
  memoryArena : MemoryArena
  mask : Nat
  occupied : List Nat
  len : Nat

/-- The greatest power of two lower or equal to `n`; `63 - n.leading_zeros()` is the place of the
highest bit. -/
def computePreviousPowerOfTwo (n : Nat) : Nat := 1 <<< Nat.log2 n

/-- Where a search for a key ends. -/
inductive Probed
  | vacant (bucket : Nat)
  | found (kv : KeyValue) (valAddr : Addr)

namespace TermHashMap

def new (tableSize : Nat) : Option TermHashMap :=
  if 0 < tableSize then
    let tableSizePowerOf2 := computePreviousPowerOfTwo tableSize
    some {
      table := List.replicate tableSizePowerOf2 KeyValue.default
      memoryArena := MemoryArena.new
      mask := tableSizePowerOf2 - 1
      occupied := []
      len := 0 }
  else
    none

def probe (map : TermHashMap) (hash : UInt32) : QuadraticProbing :=
  QuadraticProbing.compute hash.toNat map.mask

def isSaturated (map : TermHashMap) : Bool := map.table.length < map.occupied.length * 3

/-- The key stored at an address, and the address of its value. -/
def getKeyValue (map : TermHashMap) (addr : Addr) : Option (Bytes × Addr) := do
  let data ← map.memoryArena.sliceFrom addr
  let prefixBytes ← slice? data 0 2
  let keyBytesLen := ofLE prefixBytes
  let keyBytes ← slice? data 2 (2 + keyBytesLen)
  some (keyBytes, addr.offset (UInt32.ofNat (2 + keyBytesLen)))

def getValueAddrIfKeyMatch (map : TermHashMap) (targetKey : Bytes) (addr : Addr) :
    Option (Option Addr) := do
  let (storedKey, valueAddr) ← map.getKeyValue addr
  some (if storedKey = targetKey then some valueAddr else none)

def setBucket (map : TermHashMap) (hash : UInt32) (keyValueAddr : Addr) (bucket : Nat) :
    TermHashMap × Nat :=
  let unorderedTermId := map.len
  ({ map with
    occupied := map.occupied ++ [bucket]
    len := map.len + 1
    table := map.table.set bucket ⟨keyValueAddr, hash, unorderedTermId⟩ }, unorderedTermId)

/-- What the iterator yields for the buckets in use. -/
def iter (map : TermHashMap) : Option (List (Bytes × Addr × Nat)) :=
  map.occupied.mapM fun bucket => do
    let kv ← map.table[bucket]?
    let (key, offset) ← map.getKeyValue kv.keyValueAddr
    some (key, offset, kv.unorderedTermId)

/-- The first empty bucket of a table, in at most `fuel` steps. -/
def emptyLoop (table : List KeyValue) : Nat → QuadraticProbing → Option Nat
  | 0, _ => none
  | fuel + 1, probe => do
    let (probe, bucket) := probe.nextProbe
    let kv ← table[bucket]?
    if kv.isEmpty then some bucket else emptyLoop table fuel probe

/-- The loop of `resize` over the buckets in use, with the new bucket of each. -/
def resizeLoop (oldTable : List KeyValue) (mask : Nat) :
    List Nat → List KeyValue → Option (List KeyValue × List Nat)
  | [], table => some (table, [])
  | oldPos :: occupied, table => do
    let keyValue ← oldTable[oldPos]?
    let bucket ← emptyLoop table table.length
      (QuadraticProbing.compute keyValue.hash.toNat mask)
    let (table, occupied) ← resizeLoop oldTable mask occupied (table.set bucket keyValue)
    some (table, bucket :: occupied)

def resize (map : TermHashMap) : Option TermHashMap := do
  let newLen := map.table.length * 2
  let mask := newLen - 1
  let newTable := List.replicate newLen KeyValue.default
  let (table, occupied) ← resizeLoop map.table mask map.occupied newTable
  some { map with
    table := table
    mask := mask
    occupied := occupied }

/-- The loop of `mutate_or_create` up to the bucket where it ends, in at most `fuel` steps. -/
def probeLoop (map : TermHashMap) (key : Bytes) (hash : UInt32) :
    Nat → QuadraticProbing → Option Probed
  | 0, _ => none
  | fuel + 1, probe => do
    let (probe, bucket) := probe.nextProbe
    let kv ← map.table[bucket]?
    if kv.isEmpty then
      some (.vacant bucket)
    else if kv.hash = hash then
      match ← map.getValueAddrIfKeyMatch key kv.keyValueAddr with
      | some valAddr => some (.found kv valAddr)
      | none => probeLoop map key hash fuel probe
    else
      probeLoop map key hash fuel probe

/-- The call, with the id it returns and what the updater was given. `murmurhash2` is a
parameter. -/
def mutateOrCreate {V : Type} (item : Item V) (murmurhash2 : Bytes → UInt32) (map : TermHashMap)
    (key : Bytes) (updater : Option V → V) : Option (TermHashMap × Nat × Option V) := do
  let map ← (if map.isSaturated then map.resize else some map)
  let hash := murmurhash2 key
  match ← map.probeLoop key hash map.table.length (map.probe hash) with
  | .vacant bucket => do
    let val := updater none
    let numBytes := 2 + key.length + item.size
    let (arena, keyAddr) ← map.memoryArena.allocateSpace numBytes
    -- the length is cut to 16 bits
    let arena ← arena.write keyAddr (toLE 2 key.length ++ key ++ item.toBytes val)
    let (map, unorderedTermId) := { map with memoryArena := arena }.setBucket hash keyAddr bucket
    some (map, unorderedTermId, none)
  | .found kv valAddr => do
    let v := item.ofBytes (← map.memoryArena.slice valAddr item.size)
    let newV := updater (some v)
    let arena ← map.memoryArena.write valAddr (item.toBytes newV)
    some ({ map with memoryArena := arena }, kv.unorderedTermId, some v)

end TermHashMap

end TeaclaveCrates.Tantivy
