import TeaclaveCrates.Lib.BitStream

namespace TeaclaveCrates.Rand

open TeaclaveCrates.Lib

/-!
# rand — generators that work in blocks

`rand_core/src/block.rs` and `fill_via_chunks` of `impls.rs`: words are taken from a buffer, which
the core of the generator fills with one block after the other.

* `BlockRng`, `BlockRng64` — the two generators; `none` is a panic, or a loop without an end;
* `words` — the words of all blocks, one after the other;
* `Reader`, `Reader64` — what each call reads from them, and where the next one goes on;
* `At` — a generator stands at a word; `At.word`, `At.generate`, `At.advance` keep it;
* `blockRng_calls`, `blockRng64_calls` — whole sequences of calls.
-/

/-! ### Words as bytes -/

/-- The items of a block. -/
class Observable (W : Type) where
  size : Nat
  toLeBytes : W → Bytes
  size_pos : 0 < size
  length_toLeBytes : ∀ x, (toLeBytes x).length = size

open Observable

instance : Observable UInt32 := ⟨4, fun x => toLE 4 x.toNat, by decide, fun _ => length_toLE 4 _⟩

instance : Observable UInt64 := ⟨8, fun x => toLE 8 x.toNat, by decide, fun _ => length_toLE 8 _⟩

/-- What the bytes of a target look like in memory. -/
inductive TargetEndian
  | little
  | big

section Chunks

variable {W : Type} [Observable W]

/-- The bytes of some words, one behind the other. -/
def bytesOf (src : List W) : Bytes := src.flatMap toLeBytes

/-- The destination, the number of words that were consumed and of bytes that were filled. -/
def fillViaChunks (target : TargetEndian) (src : List W) (dest : Bytes) : Bytes × Nat × Nat :=
  let byteLen := min (src.length * size W) dest.length
  let numChunks := (byteLen + size W - 1) / size W
  let filled := match target with
    | .little => (bytesOf (src.take numChunks)).take byteLen
    | .big =>
      -- whole chunks, and the remainder from one word more
      bytesOf (src.take (byteLen / size W)) ++
        (bytesOf (src[byteLen / size W]?.toList)).take (byteLen % size W)
  (filled ++ dest.drop byteLen, numChunks, byteLen)

@[simp] theorem bytesOf_append (src src' : List W) :
    bytesOf (src ++ src') = bytesOf src ++ bytesOf src' := List.flatMap_append

theorem length_bytesOf (src : List W) : (bytesOf src).length = src.length * size W := by
  induction src with
  | nil => simp [bytesOf]
  | cons x src ih =>
    rw [bytesOf, List.flatMap_cons, List.length_append, length_toLeBytes, List.length_cons,
      Nat.succ_mul, Nat.add_comm]
    exact congrArg (· + size W) ih

/-- Words behind those that are needed change nothing. -/
theorem take_bytesOf_take (src : List W) {n k : Nat} (h : n ≤ k * size W) :
    (bytesOf (src.take k)).take n = (bytesOf src).take n := by
  by_cases hk : src.length ≤ k
  · rw [List.take_of_length_le hk]
  · conv_rhs => rw [← List.take_append_drop k src, bytesOf_append]
    rw [List.take_append_of_le_length]
    rw [length_bytesOf, List.length_take, Nat.min_eq_left (by omega)]
    exact h

/-- On every target the same bytes are filled. -/
theorem fillViaChunks_eq (target : TargetEndian) (src : List W) (dest : Bytes) :
    fillViaChunks target src dest =
      ((bytesOf src).take (min (src.length * size W) dest.length) ++
          dest.drop (min (src.length * size W) dest.length),
        (min (src.length * size W) dest.length + size W - 1) / size W,
        min (src.length * size W) dest.length) := by
  have hpos := size_pos (W := W)
  simp only [fillViaChunks]
  generalize hn : min (src.length * size W) dest.length = n
  cases target with
  | little =>
    rw [take_bytesOf_take]
    have := Nat.lt_mul_div_succ (n + size W - 1) hpos
    rw [Nat.mul_succ, Nat.mul_comm] at this
    omega
  | big =>
    congr 2
    have hle : n / size W ≤ src.length := by
      rw [← Nat.mul_div_cancel src.length hpos]
      exact Nat.div_le_div_right (by omega)
    have hfull : (bytesOf (src.take (n / size W))).length = n / size W * size W := by
      rw [length_bytesOf, List.length_take, Nat.min_eq_left hle]
    have hone : src.take (n / size W) ++ src[n / size W]?.toList = src.take (n / size W + 1) :=
      List.take_add_one.symm
    have hsplit : n = n / size W * size W + n % size W := by
      rw [Nat.mul_comm, Nat.div_add_mod]
    rw [← take_bytesOf_take src (n := n) (k := n / size W + 1), ← hone, bytesOf_append]
    · rw [List.take_append, hfull, Nat.sub_eq_of_eq_add' hsplit,
        List.take_of_length_le (l := bytesOf (src.take (n / size W))) (by omega)]
    · rw [Nat.succ_mul]
      have := Nat.mod_lt n hpos
      omega

end Chunks

/-! ### The generators -/

variable {σ W : Type} {n : Nat}

/-- The core of a generator, with blocks of `n` words. A block may depend on the one before it, and
    the first on what the buffer is filled with. -/
structure BlockRngCore (σ W : Type) (n : Nat) where
  default : Vector W n
  generate : σ → Vector W n → σ × Vector W n

structure BlockRng (σ W : Type) (n : Nat) where
  core : σ
  results : Vector W n
  index : Nat

namespace BlockRng

variable (R : BlockRngCore σ W n)

def new (core : σ) : BlockRng σ W n := ⟨core, R.default, n⟩

/-- A new block, from which an index is the next. -/
def generate (rng : BlockRng σ W n) (index : Nat) : BlockRng σ W n :=
  ⟨(R.generate rng.core rng.results).1, (R.generate rng.core rng.results).2, index⟩

def generateAndSet (rng : BlockRng σ W n) (index : Nat) : Option (BlockRng σ W n) :=
  if index < n then some (rng.generate R index) else none

/-- Before a word is read, an empty buffer is filled. -/
def refilled (refill : BlockRng σ W n → Option (BlockRng σ W n)) (rng : BlockRng σ W n) :
    Option (BlockRng σ W n) :=
  if n ≤ rng.index then refill rng else some rng

/-- The loop of `fill_bytes` over what is left of the destination, and how it refills the buffer. -/
def fillLoop [Observable W] (target : TargetEndian)
    (refill : BlockRng σ W n → Option (BlockRng σ W n)) :
    Nat → BlockRng σ W n → Bytes → Option (Bytes × BlockRng σ W n)
  | _, rng, [] => some ([], rng)
  | 0, _, _ :: _ => none
  | fuel + 1, rng, dest => do
    let rng ← refilled refill rng
    let (dest, consumed, filled) := fillViaChunks target (rng.results.toList.drop rng.index) dest
    let (rest, rng) ← fillLoop target refill fuel { rng with index := rng.index + consumed }
      (dest.drop filled)
    return (dest.take filled ++ rest, rng)

def nextU32 (R : BlockRngCore σ UInt32 n) (rng : BlockRng σ UInt32 n) :
    Option (UInt32 × BlockRng σ UInt32 n) := do
  let rng ← refilled (·.generateAndSet R 0) rng
  let value ← rng.results[rng.index]?
  return (value, { rng with index := rng.index + 1 })

/-- Two words as one number. -/
def join (x y : UInt32) : UInt64 := y.toUInt64 <<< 32 ||| x.toUInt64

def readU64 (results : Vector UInt32 n) (index : Nat) : Option UInt64 := do
  return join (← results[index]?) (← results[index + 1]?)

def nextU64 (R : BlockRngCore σ UInt32 n) (rng : BlockRng σ UInt32 n) :
    Option (UInt64 × BlockRng σ UInt32 n) :=
  if rng.index < n - 1 then do
    let value ← readU64 rng.results rng.index
    return (value, { rng with index := rng.index + 2 })
  else if n ≤ rng.index then do
    let rng ← rng.generateAndSet R 2
    return (← readU64 rng.results 0, rng)
  else do
    let x ← rng.results[n - 1]?
    let rng ← rng.generateAndSet R 1
    let y ← rng.results[0]?
    return (join x y, rng)

/-- Every turn of the loop fills a byte at least. -/
def fillBytes (R : BlockRngCore σ UInt32 n) (target : TargetEndian) (rng : BlockRng σ UInt32 n)
    (dest : Bytes) : Option (Bytes × BlockRng σ UInt32 n) :=
  fillLoop target (·.generateAndSet R 0) dest.length rng dest

end BlockRng

/-- `halfUsed` stands for one half of the word before the index. -/
structure BlockRng64 (σ : Type) (n : Nat) extends BlockRng σ UInt64 n where
  halfUsed : Bool

namespace BlockRng64

variable (R : BlockRngCore σ UInt64 n)

def new (core : σ) : BlockRng64 σ n := ⟨.new R core, false⟩

def nextU32 (rng : BlockRng64 σ n) : Option (UInt32 × BlockRng64 σ n) := do
  let index ← if rng.halfUsed.toNat ≤ rng.index then some (rng.index - rng.halfUsed.toNat) else none
  let (rng, index) := if n ≤ index then (⟨rng.generate R 0, false⟩, 0) else (rng, index)
  let shift : UInt64 := if rng.halfUsed then 32 else 0
  let word ← rng.results[index]?
  let halfUsed := !rng.halfUsed
  return ((word >>> shift).toUInt32,
    ⟨{ rng.toBlockRng with index := rng.index + halfUsed.toNat }, halfUsed⟩)

def nextU64 (rng : BlockRng64 σ n) : Option (UInt64 × BlockRng64 σ n) := do
  let rng ← rng.refilled fun rng => some (rng.generate R 0)
  let value ← rng.results[rng.index]?
  return (value, ⟨{ rng with index := rng.index + 1 }, false⟩)

def fillBytes (target : TargetEndian) (rng : BlockRng64 σ n) (dest : Bytes) :
    Option (Bytes × BlockRng64 σ n) := do
  let (dest, rng) ← BlockRng.fillLoop target (fun rng => some (rng.generate R 0)) dest.length
    rng.toBlockRng dest
  return (dest, ⟨rng, false⟩)

end BlockRng64

/-! ### The words of all blocks -/

/-- The core and the buffer after some blocks. -/
def BlockRngCore.after (R : BlockRngCore σ W n) (core : σ) : Nat → σ × Vector W n
  | 0 => (core, R.default)
  | g + 1 => R.generate (R.after core g).1 (R.after core g).2

/-- The blocks, one after the other. -/
def words (R : BlockRngCore σ W n) (hn : 0 < n) (core : σ) (p : Nat) : W :=
  (R.after core (p / n + 1)).2.get ⟨p % n, Nat.mod_lt p hn⟩

/-- The words from one on, as bytes. -/
def bytesAt [Observable W] (ws : Nat → W) (p count : Nat) : Bytes :=
  bytesOf ((List.range' p count).map ws)

inductive Call
  | nextU32
  | nextU64
  | fillBytes (dest : Bytes)

inductive Output
  | u32 (value : UInt32)
  | u64 (value : UInt64)
  | bytes (dest : Bytes)
deriving DecidableEq

/-- What a call reads from words of 32 bits, and the word after the last one it has touched. -/
def Reader (ws : Nat → UInt32) (p : Nat) : Call → Output × Nat
  | .nextU32 => (.u32 (UInt32.ofNat (ofLE (bytesAt ws p 1))), p + 1)
  | .nextU64 => (.u64 (UInt64.ofNat (ofLE (bytesAt ws p 2))), p + 2)
  | .fillBytes dest =>
    let count := (dest.length + 3) / 4
    (.bytes ((bytesAt ws p count).take dest.length), p + count)

/-- On words of 64 bits a half of the word before the next one may be left as well. -/
def Reader64 (ws : Nat → UInt64) (p : Nat) (half : Bool) : Call → Output × Nat × Bool
  | .nextU32 =>
    if half then
      (.u32 (UInt32.ofNat (ofLE ((bytesAt ws (p - 1) 1).drop 4))), p, false)
    else (.u32 (UInt32.ofNat (ofLE ((bytesAt ws p 1).take 4))), p + 1, true)
  | .nextU64 => (.u64 (UInt64.ofNat (ofLE (bytesAt ws p 1))), p + 1, false)
  | .fillBytes dest =>
    let count := (dest.length + 7) / 8
    (.bytes ((bytesAt ws p count).take dest.length), p + count, false)

/-! ### Where a generator stands -/

/-- So many blocks were generated, and the next word is the one at `p`. -/
def At (R : BlockRngCore σ W n) (core : σ) (rng : BlockRng σ W n) (p : Nat) : Prop :=
  rng.index ≤ n ∧ ∃ g, R.after core g = (rng.core, rng.results) ∧ p + n = g * n + rng.index

section At

variable {R : BlockRngCore σ W n} {core : σ} {rng : BlockRng σ W n} {p : Nat}

theorem At.new : At R core (.new R core) 0 := ⟨le_rfl, 0, rfl, by simp [BlockRng.new]⟩

/-- What is in the buffer from the index on is the next words. -/
theorem At.word (h : At R core rng p) (hn : 0 < n) {k : Nat} (hk : rng.index + k < n) :
    rng.results[rng.index + k]? = some (words R hn core (p + k)) := by
  obtain ⟨-, g, hg, hp⟩ := h
  cases g with
  | zero => omega
  | succ g =>
    have hpos : p + k = rng.index + k + n * g := by
      rw [Nat.succ_mul, Nat.mul_comm] at hp
      omega
    have hdiv : (p + k) / n = g := by
      rw [hpos, Nat.add_mul_div_left _ _ hn, Nat.div_eq_of_lt hk, Nat.zero_add]
    have hmod : (p + k) % n = rng.index + k := by
      rw [hpos, Nat.add_mul_mod_self_left, Nat.mod_eq_of_lt hk]
    rw [words, Vector.getElem?_eq_getElem hk]
    simp only [hdiv, hmod, hg]
    rfl

theorem At.head (h : At R core rng p) (hn : 0 < n) (hlt : rng.index < n) :
    rng.results[rng.index]? = some (words R hn core p) :=
  h.word hn (k := 0) hlt

theorem At.generate (h : At R core rng p) (hend : rng.index = n) {i : Nat} (hi : i ≤ n) :
    At R core (rng.generate R i) (p + i) := by
  obtain ⟨-, g, hg, hp⟩ := h
  refine ⟨hi, g + 1, ?_, ?_⟩
  · rw [BlockRngCore.after, hg]
    rfl
  · rw [Nat.succ_mul]
    simp only [BlockRng.generate]
    omega

theorem At.advance (h : At R core rng p) {k : Nat} (hk : rng.index + k ≤ n) :
    At R core { rng with index := rng.index + k } (p + k) := by
  obtain ⟨-, g, hg, hp⟩ := h
  exact ⟨hk, g, hg, by simp only; omega⟩

/-- The buffer has a word, after it was refilled if need be. -/
theorem At.refilled (h : At R core rng p) (hn : 0 < n)
    (refill : BlockRng σ W n → Option (BlockRng σ W n))
    (hrefill : ∀ rng, refill rng = some (rng.generate R 0)) :
    ∃ rng', rng.refilled refill = some rng' ∧ rng'.index < n ∧ At R core rng' p := by
  unfold BlockRng.refilled
  split_ifs with hend
  · exact ⟨_, hrefill rng, hn, h.generate (le_antisymm h.1 hend) (Nat.zero_le n)⟩
  · exact ⟨rng, rfl, Nat.lt_of_not_le hend, h⟩

theorem At.drop_index (h : At R core rng p) (hn : 0 < n) :
    rng.results.toList.drop rng.index = (List.range' p (n - rng.index)).map (words R hn core) := by
  refine List.ext_getElem? fun k => ?_
  by_cases hk : rng.index + k < n
  · rw [List.getElem?_drop, Vector.getElem?_toList, h.word hn hk, List.getElem?_map,
      List.getElem?_range' (by omega)]
    simp
  · rw [List.getElem?_eq_none (by simp; omega), List.getElem?_eq_none (by simp; omega)]

theorem length_bytesAt [Observable W] (ws : Nat → W) (p count : Nat) :
    (bytesAt ws p count).length = count * size W := by
  rw [bytesAt, length_bytesOf, List.length_map, List.length_range']

theorem bytesAt_add [Observable W] (ws : Nat → W) (p a b : Nat) :
    bytesAt ws p (a + b) = bytesAt ws p a ++ bytesAt ws (p + a) b := by
  rw [bytesAt, ← List.range'_append_1, List.map_append, bytesOf_append]
  rfl

/-- The number of words that hold so many bytes. -/
def wordCount (W : Type) [Observable W] (len : Nat) : Nat := (len + size W - 1) / size W

theorem wordCount_mul_add [Observable W] (a b : Nat) :
    wordCount W (a * size W + b) = a + wordCount W b := by
  have hpos := size_pos (W := W)
  have heq : a * size W + b + size W - 1 = b + size W - 1 + a * size W := by omega
  rw [wordCount, heq, Nat.add_mul_div_right _ _ hpos, Nat.add_comm, wordCount]

theorem wordCount_zero [Observable W] : wordCount W 0 = 0 :=
  Nat.div_eq_of_lt (by have := size_pos (W := W); omega)

theorem le_wordCount_mul [Observable W] (len : Nat) : len ≤ wordCount W len * size W := by
  have := Nat.lt_mul_div_succ (len + size W - 1) (size_pos (W := W))
  rw [Nat.mul_succ, Nat.mul_comm] at this
  rw [wordCount]
  omega

theorem wordCount_le [Observable W] {len m : Nat} (h : len ≤ m * size W) : wordCount W len ≤ m := by
  have hpos := size_pos (W := W)
  exact Nat.le_of_lt_succ ((Nat.div_lt_iff_lt_mul hpos).mpr (by rw [Nat.succ_mul]; omega))

theorem bytesAt_take_of_le [Observable W] (ws : Nat → W) (p : Nat) {len m : Nat}
    (h : len ≤ m * size W) :
    (bytesAt ws p m).take len = (bytesAt ws p (wordCount W len)).take len := by
  obtain ⟨k, rfl⟩ := Nat.exists_eq_add_of_le (wordCount_le h)
  rw [bytesAt_add, List.take_append_of_le_length]
  rw [length_bytesAt]
  exact le_wordCount_mul len

/-- One turn of the loop: the buffer fills what it can. -/
theorem At.fillLoop_step [Observable W] (h : At R core rng p) (hn : 0 < n) (target : TargetEndian)
    (refill : BlockRng σ W n → Option (BlockRng σ W n))
    (hrefill : ∀ rng, refill rng = some (rng.generate R 0)) (fuel : Nat) {dest : Bytes}
    (hdest : dest ≠ []) :
    ∃ rng' m, 0 < m ∧ At R core rng' (p + wordCount W (min (m * size W) dest.length)) ∧
      BlockRng.fillLoop target refill (fuel + 1) rng dest =
        (BlockRng.fillLoop target refill fuel rng' (dest.drop (min (m * size W) dest.length))).map
          fun rest => ((bytesAt (words R hn core) p m).take (min (m * size W) dest.length) ++ rest.1,
            rest.2) := by
  obtain ⟨rng', hrng', hlt, hat⟩ := h.refilled hn refill hrefill
  obtain ⟨m, hm⟩ : ∃ m, m = n - rng'.index := ⟨_, rfl⟩
  have hbytes : bytesOf (rng'.results.toList.drop rng'.index) =
      bytesAt (words R hn core) p m := by
    rw [hat.drop_index hn, hm]
    rfl
  have hsrc : (rng'.results.toList.drop rng'.index).length = m := by simp [hm]
  have hle : wordCount W (min (m * size W) dest.length) ≤ m := wordCount_le (Nat.min_le_left ..)
  refine ⟨_, m, by omega, hat.advance (by omega), ?_⟩
  obtain ⟨d, ds, rfl⟩ := List.exists_cons_of_ne_nil hdest
  rw [BlockRng.fillLoop]
  · rw [hrng']
    simp only [Option.bind_eq_bind, Option.bind_some, fillViaChunks_eq, hbytes, hsrc]
    generalize hb : min (m * size W) (d :: ds).length = b
    have hfilled : ((bytesAt (words R hn core) p m).take b).length = b := by
      rw [List.length_take, length_bytesAt]
      omega
    rw [List.drop_left' hfilled, List.take_left' hfilled, wordCount, Option.map_eq_bind]
    rfl
  · simp

/-- The loop fills the whole destination. -/
theorem At.fillLoop [Observable W] (h : At R core rng p) (hn : 0 < n) (target : TargetEndian)
    (refill : BlockRng σ W n → Option (BlockRng σ W n))
    (hrefill : ∀ rng, refill rng = some (rng.generate R 0)) {fuel : Nat} (dest : Bytes)
    (hfuel : dest.length ≤ fuel) :
    ∃ rng', BlockRng.fillLoop target refill fuel rng dest =
        some ((bytesAt (words R hn core) p (wordCount W dest.length)).take dest.length, rng') ∧
      At R core rng' (p + wordCount W dest.length) := by
  have hpos := size_pos (W := W)
  by_cases hdest : dest = []
  · subst hdest
    refine ⟨rng, by cases fuel <;> rfl, ?_⟩
    rwa [List.length_nil, wordCount_zero]
  induction fuel generalizing rng p dest with
  | zero => exact absurd (List.length_eq_zero_iff.mp (Nat.le_zero.mp hfuel)) hdest
  | succ fuel ih =>
    obtain ⟨rng', m, hm, hat, hstep⟩ :=
      h.fillLoop_step hn target refill hrefill fuel hdest
    rw [hstep]
    by_cases hlast : dest.length ≤ m * size W
    · -- the buffer has all that is left to fill
      rw [Nat.min_eq_right hlast] at hat ⊢
      have hnil : BlockRng.fillLoop target refill fuel rng' [] = some ([], rng') := by
        cases fuel <;> rfl
      refine ⟨rng', ?_, hat⟩
      rw [List.drop_length, hnil, Option.map_some, List.append_nil, bytesAt_take_of_le _ _ hlast]
    · rw [Nat.min_eq_left (by omega)] at hat ⊢
      have hrest : dest.drop (m * size W) ≠ [] := by simpa using hlast
      have hlen : (dest.drop (m * size W)).length = dest.length - m * size W := List.length_drop
      have hmpos : 0 < m * size W := Nat.mul_pos hm hpos
      obtain ⟨rng'', hloop, hat'⟩ := ih hat (dest.drop (m * size W)) (by omega) hrest
      have hm' : wordCount W (m * size W) = m := by
        simpa [wordCount_zero] using wordCount_mul_add (W := W) m 0
      have hcount : wordCount W dest.length = m + wordCount W (dest.length - m * size W) := by
        rw [← wordCount_mul_add, Nat.add_sub_cancel' (by omega)]
      refine ⟨rng'', ?_, ?_⟩
      · rw [hloop, hm', hlen, hcount, Option.map_some, bytesAt_add, List.take_append,
          length_bytesAt, List.take_of_length_le (length_bytesAt _ _ _).le,
          List.take_of_length_le (l := bytesAt _ p m) (by rw [length_bytesAt]; omega)]
      · rw [hcount, ← Nat.add_assoc]
        rwa [hm', hlen] at hat'

end At

/-! ### Words of 32 bits -/

theorem join_toNat (x y : UInt32) : (BlockRng.join x y).toNat = x.toNat + 2 ^ 32 * y.toNat := by
  have hx := x.toNat_lt
  have hy := y.toNat_lt
  have hshift : (y.toNat <<< 32) % 2 ^ 64 = y.toNat <<< 32 := by
    rw [Nat.shiftLeft_eq]
    omega
  rw [BlockRng.join, UInt64.toNat_or, UInt64.toNat_shiftLeft]
  simp only [UInt32.toNat_toUInt64]
  rw [show (32 : UInt64).toNat % 64 = 32 from rfl, hshift, ← Nat.shiftLeft_add_eq_or_of_lt hx,
    Nat.shiftLeft_eq]
  omega

theorem ofLE_bytesAt_one (ws : Nat → UInt32) (p : Nat) :
    UInt32.ofNat (ofLE (bytesAt ws p 1)) = ws p := by
  have h : bytesAt ws p 1 = toLE 4 (ws p).toNat := by simp [bytesAt, bytesOf, toLeBytes]
  rw [h, ofLE_toLE (ws p).toNat_lt, UInt32.ofNat_toNat]

theorem ofLE_bytesAt_two (ws : Nat → UInt32) (p : Nat) :
    UInt64.ofNat (ofLE (bytesAt ws p 2)) = BlockRng.join (ws p) (ws (p + 1)) := by
  have h : bytesAt ws p 2 = toLE 4 (ws p).toNat ++ toLE 4 (ws (p + 1)).toNat := by
    simp [bytesAt, bytesOf, toLeBytes, List.range'_succ]
  rw [h, ofLE_append, ofLE_toLE (ws p).toNat_lt, ofLE_toLE (ws (p + 1)).toNat_lt, length_toLE,
    ← UInt64.ofNat_toNat (x := BlockRng.join _ _), join_toNat]
  rfl

section Calls32

variable (R : BlockRngCore σ UInt32 n) (target : TargetEndian)

namespace BlockRng

def call (rng : BlockRng σ UInt32 n) : Call → Option (Output × BlockRng σ UInt32 n)
  | .nextU32 => (rng.nextU32 R).map (Prod.map .u32 id)
  | .nextU64 => (rng.nextU64 R).map (Prod.map .u64 id)
  | .fillBytes dest => (rng.fillBytes R target dest).map (Prod.map .bytes id)

/-- What the calls return, one after the other. -/
def calls : BlockRng σ UInt32 n → List Call → Option (List Output)
  | _, [] => some []
  | rng, c :: cs => do
    let (output, rng) ← rng.call R target c
    return output :: (← rng.calls cs)

end BlockRng

/-- What the calls read from the words, each behind the word that the one before touched last. -/
def Reader.run (ws : Nat → UInt32) : Nat → List Call → List Output
  | _, [] => []
  | p, c :: cs => (Reader ws p c).1 :: run ws (Reader ws p c).2 cs

variable {R} {core : σ} {rng : BlockRng σ UInt32 n} {p : Nat}

/-- A number of two words, which may lie in two blocks. -/
theorem At.nextU64 (h : At R core rng p) (hn : 3 ≤ n) :
    ∃ rng', rng.nextU64 R = some (BlockRng.join (words R (by omega) core p)
        (words R (by omega) core (p + 1)), rng') ∧ At R core rng' (p + 2) := by
  have hpos : 0 < n := by omega
  unfold BlockRng.nextU64
  split_ifs with hboth hend
  · refine ⟨{ rng with index := rng.index + 2 }, ?_, h.advance (by omega)⟩
    rw [BlockRng.readU64, h.head hpos (by omega), h.word hpos (k := 1) (by omega)]
    rfl
  · have hend' : rng.index = n := le_antisymm h.1 hend
    have hat := h.generate hend' (Nat.zero_le n)
    refine ⟨rng.generate R 2, ?_, h.generate hend' (by omega)⟩
    have hx' : (rng.generate R 2).results[0]? = some (words R hpos core p) :=
      hat.head hpos hpos
    have hy : (rng.generate R 2).results[0 + 1]? = some (words R hpos core (p + 1)) :=
      hat.word hpos (k := 1) (by simp only [BlockRng.generate]; omega)
    rw [BlockRng.generateAndSet, if_pos (by omega), Option.bind_eq_bind, Option.bind_some,
      BlockRng.readU64, hx', hy]
    rfl
  · -- the last word of this block, and the first of the next one
    have hlast : rng.index = n - 1 := by omega
    have hat := h.advance (k := 1) (by omega)
    have hend' : rng.index + 1 = n := by omega
    refine ⟨rng.generate R 1, ?_, hat.generate hend' (by omega)⟩
    have hy : (rng.generate R 1).results[0]? = some (words R hpos core (p + 1)) :=
      (hat.generate hend' (Nat.zero_le n)).head hpos hpos
    rw [← hlast, h.head hpos (by omega), Option.bind_eq_bind, Option.bind_some, BlockRng.generateAndSet,
      if_pos (by omega), Option.bind_eq_bind, Option.bind_some, hy]
    rfl

/-- Every call reads what comes next. -/
theorem At.call (h : At R core rng p) (hn : 3 ≤ n) (c : Call) :
    ∃ rng', rng.call R target c = some ((Reader (words R (by omega) core) p c).1, rng') ∧
      At R core rng' (Reader (words R (by omega) core) p c).2 := by
  have hpos : 0 < n := by omega
  cases c with
  | nextU32 =>
    obtain ⟨rng', hrng', hlt, hat⟩ :=
      h.refilled hpos (·.generateAndSet R 0) fun _ => if_pos hpos
    refine ⟨{ rng' with index := rng'.index + 1 }, ?_, hat.advance hlt⟩
    rw [BlockRng.call, BlockRng.nextU32, hrng', Option.bind_eq_bind, Option.bind_some,
      hat.head hpos hlt, Reader, ofLE_bytesAt_one]
    rfl
  | nextU64 =>
    obtain ⟨rng', hcall, hat⟩ := h.nextU64 hn
    refine ⟨rng', ?_, hat⟩
    rw [BlockRng.call, hcall, Reader, ofLE_bytesAt_two]
    rfl
  | fillBytes dest =>
    obtain ⟨rng', hcall, hat⟩ :=
      h.fillLoop hpos target (·.generateAndSet R 0) (fun _ => if_pos hpos) dest le_rfl
    refine ⟨rng', ?_, hat⟩
    rw [BlockRng.call, BlockRng.fillBytes, hcall]
    rfl

/-- **The calls of a generator read the words of its blocks in order.** -/
theorem blockRng_calls (R : BlockRngCore σ UInt32 n) (core : σ) (target : TargetEndian)
    (hn : 3 ≤ n) (cs : List Call) :
    (BlockRng.new R core).calls R target cs =
      some (Reader.run (words R (by omega) core) 0 cs) := by
  have hrun : ∀ (cs : List Call) (rng : BlockRng σ UInt32 n) (p : Nat), At R core rng p →
      rng.calls R target cs = some (Reader.run (words R (by omega) core) p cs) := by
    intro cs
    induction cs with
    | nil => exact fun _ _ _ => rfl
    | cons c cs ih =>
      intro rng p h
      obtain ⟨rng', hcall, hat⟩ := h.call target hn c
      rw [BlockRng.calls, hcall, Option.bind_eq_bind, Option.bind_some]
      dsimp only
      rw [ih rng' _ hat]
      rfl
  exact hrun cs _ 0 .new

end Calls32

/-! ### Words of 64 bits -/

variable (ws : Nat → UInt64)

theorem bytesAt_one (p : Nat) : bytesAt ws p 1 = toLE 8 (ws p).toNat := by
  simp [bytesAt, bytesOf, toLeBytes]

theorem low_half (p : Nat) :
    UInt32.ofNat (ofLE ((bytesAt ws p 1).take 4)) = (ws p >>> 0).toUInt32 := by
  rw [bytesAt_one, ofLE_take _ (by simp), ofLE_toLE (ws p).toNat_lt]
  apply UInt32.toNat_inj.mp
  simp

theorem high_half (p : Nat) :
    UInt32.ofNat (ofLE ((bytesAt ws p 1).drop 4)) = (ws p >>> 32).toUInt32 := by
  rw [bytesAt_one, ofLE_drop _ (by simp), ofLE_toLE (ws p).toNat_lt]
  apply UInt32.toNat_inj.mp
  simp [Nat.shiftRight_eq_div_pow]

theorem whole_word (p : Nat) :
    UInt64.ofNat (ofLE (bytesAt ws p 1)) = ws p := by
  rw [bytesAt_one, ofLE_toLE (ws p).toNat_lt, UInt64.ofNat_toNat]

section Calls64

variable (R : BlockRngCore σ UInt64 n) (target : TargetEndian)

namespace BlockRng64

def call (rng : BlockRng64 σ n) : Call → Option (Output × BlockRng64 σ n)
  | .nextU32 => (rng.nextU32 R).map (Prod.map .u32 id)
  | .nextU64 => (rng.nextU64 R).map (Prod.map .u64 id)
  | .fillBytes dest => (rng.fillBytes R target dest).map (Prod.map .bytes id)

/-- What the calls return, one after the other. -/
def calls : BlockRng64 σ n → List Call → Option (List Output)
  | _, [] => some []
  | rng, c :: cs => do
    let (output, rng) ← rng.call R target c
    return output :: (← rng.calls cs)

end BlockRng64

/-- What the calls read from the words, and from the half that is left. -/
def Reader64.run (ws : Nat → UInt64) : Nat → Bool → List Call → List Output
  | _, _, [] => []
  | p, half, c :: cs =>
    (Reader64 ws p half c).1 :: run ws (Reader64 ws p half c).2.1 (Reader64 ws p half c).2.2 cs

variable {R} {core : σ} {rng : BlockRng64 σ n} {p : Nat} {half : Bool}

/-- A generator with a half that is left has the word in its buffer. -/
structure At64 (R : BlockRngCore σ UInt64 n) (core : σ) (rng : BlockRng64 σ n) (p : Nat)
    (half : Bool) : Prop where
  standing : At R core rng.toBlockRng p
  half_eq : rng.halfUsed = half
  word : half = true → 1 ≤ rng.index ∧ 1 ≤ p

/-- One step back, to a word that is in the buffer still. -/
theorem At.back {W : Type} {R : BlockRngCore σ W n} {rng : BlockRng σ W n} (h : At R core rng p)
    (hindex : 1 ≤ rng.index) (hp : 1 ≤ p) :
    At R core { rng with index := rng.index - 1 } (p - 1) := by
  obtain ⟨hle, g, hg, heq⟩ := h
  exact ⟨by simp only; omega, g, hg, by simp only; omega⟩

/-- Without a half that is left, the first half of the next word is taken. -/
theorem nextU32_whole (R : BlockRngCore σ UInt64 n) (rng : BlockRng σ UInt64 n) :
    BlockRng64.nextU32 R ⟨rng, false⟩ =
      (rng.refilled fun rng => some (rng.generate R 0)).bind fun rng =>
        rng.results[rng.index]?.map fun word : UInt64 =>
          ((word >>> 0).toUInt32, ⟨{ rng with index := rng.index + 1 }, true⟩) := by
  simp only [BlockRng64.nextU32, BlockRng.refilled, Option.map_eq_bind]
  by_cases hend : n ≤ rng.index
  · simp [hend]
    rfl
  · simp [hend]

theorem At64.nextU32 (h : At64 R core rng p half) (hn : 1 ≤ n) :
    ∃ rng', rng.call R target .nextU32 =
        some ((Reader64 (words R hn core) p half .nextU32).1, rng') ∧
      At64 R core rng' (Reader64 (words R hn core) p half .nextU32).2.1
        (Reader64 (words R hn core) p half .nextU32).2.2 := by
  obtain ⟨hat, hhalf, hword⟩ := h
  obtain ⟨⟨c, results, index⟩, halfUsed⟩ := rng
  obtain rfl : halfUsed = half := hhalf
  cases halfUsed with
  | true =>
    obtain ⟨hindex, hp⟩ := hword rfl
    have hlt : index - 1 < n := by
      have := hat.1
      simp only at this hindex
      omega
    have hprev := (hat.back hindex hp).head hn hlt
    refine ⟨⟨⟨c, results, index⟩, false⟩, ?_, hat, rfl, by simp [Reader64]⟩
    simp [BlockRng64.call, BlockRng64.nextU32, hindex, Nat.not_le.mpr hlt, hprev, Reader64,
      high_half]
  | false =>
    obtain ⟨rng', hrng', hlt, hat'⟩ := hat.refilled hn (fun rng => some (rng.generate R 0))
      fun _ => rfl
    refine ⟨⟨{ rng' with index := rng'.index + 1 }, true⟩, ?_, hat'.advance hlt, rfl, ?_⟩
    · rw [BlockRng64.call, nextU32_whole, hrng', Option.bind_some, hat'.head hn hlt, Reader64,
        low_half]
      rfl
    · exact fun _ => ⟨Nat.le_add_left 1 _, Nat.le_add_left 1 _⟩

/-- Every call reads what comes next. -/
theorem At64.call (h : At64 R core rng p half) (hn : 1 ≤ n) (c : Call) :
    ∃ rng', rng.call R target c = some ((Reader64 (words R hn core) p half c).1, rng') ∧
      At64 R core rng' (Reader64 (words R hn core) p half c).2.1
        (Reader64 (words R hn core) p half c).2.2 := by
  cases c with
  | nextU32 => exact h.nextU32 target hn
  | nextU64 =>
    obtain ⟨rng', hrng', hlt, hat⟩ := h.standing.refilled hn (fun rng => some (rng.generate R 0))
      fun _ => rfl
    refine ⟨⟨{ rng' with index := rng'.index + 1 }, false⟩, ?_, hat.advance hlt, rfl, ?_⟩
    · rw [BlockRng64.call, BlockRng64.nextU64, hrng', Option.bind_eq_bind, Option.bind_some,
        hat.head hn hlt, Reader64, whole_word]
      rfl
    · simp [Reader64]
  | fillBytes dest =>
    obtain ⟨rng', hcall, hat⟩ :=
      h.standing.fillLoop hn target (fun rng => some (rng.generate R 0)) (fun _ => rfl) dest le_rfl
    refine ⟨⟨rng', false⟩, ?_, hat, rfl, by simp [Reader64]⟩
    rw [BlockRng64.call, BlockRng64.fillBytes, hcall]
    rfl

theorem blockRng64_calls (R : BlockRngCore σ UInt64 n) (core : σ) (target : TargetEndian)
    (hn : 1 ≤ n) (cs : List Call) :
    (BlockRng64.new R core).calls R target cs =
      some (Reader64.run (words R hn core) 0 false cs) := by
  have hrun : ∀ (cs : List Call) (rng : BlockRng64 σ n) (p : Nat) (half : Bool),
      At64 R core rng p half →
        rng.calls R target cs = some (Reader64.run (words R hn core) p half cs) := by
    intro cs
    induction cs with
    | nil => exact fun _ _ _ _ => rfl
    | cons c cs ih =>
      intro rng p half h
      obtain ⟨rng', hcall, hat⟩ := h.call target hn c
      rw [BlockRng64.calls, hcall, Option.bind_eq_bind, Option.bind_some]
      dsimp only
      rw [ih rng' _ _ hat]
      rfl
  exact hrun cs _ 0 false ⟨.new, rfl, by simp⟩

end Calls64

/-- **Block generators consume the words in order**, those of 32 bits and those of 64. -/
theorem block_calls {n : Nat} {σ : Type} (target : TargetEndian) (cs : List Call) :
    (∀ (R : BlockRngCore σ UInt32 n) (core : σ) (hn : 3 ≤ n),
      (BlockRng.new R core).calls R target cs =
        some (Reader.run (words R (by omega) core) 0 cs)) ∧
    ∀ (R : BlockRngCore σ UInt64 n) (core : σ) (hn : 1 ≤ n),
      (BlockRng64.new R core).calls R target cs =
        some (Reader64.run (words R hn core) 0 false cs) :=
  ⟨fun R core hn => blockRng_calls R core target hn cs,
    fun R core hn => blockRng64_calls R core target hn cs⟩

/-- A core that counts. -/
def counting : BlockRngCore UInt32 UInt32 3 where
  default := #v[0, 0, 0]
  generate core _ := (core + 3, #v[core, core + 1, core + 2])

theorem block_calls_counting :
    (BlockRng.new counting 7).calls counting .little [.nextU32, .nextU64, .nextU64] =
      some (Reader.run (words counting (by decide) 7) 0 [.nextU32, .nextU64, .nextU64]) :=
  (block_calls .little [.nextU32, .nextU64, .nextU64]).1 counting 7 (by decide)

end TeaclaveCrates.Rand
