import Mathlib.Data.Nat.Log
import TeaclaveCrates.Lib.BitStream
import TeaclaveCrates.Lib.Slice

namespace TeaclaveCrates.Tantivy.FastFieldCodecs

open TeaclaveCrates.Lib

/-!
# Bit packing

`BitPacker` writes numbers of up to 64 bits one behind the other, through a buffer of 64 bits that
goes out when it is full.  `BitUnpacker` reads the number at an index out of 8 bytes, which is
enough as long as no number has 57 to 63 bits: `compute_num_bits` takes 64 for these.

* `BitPacker.write`, `flush`, `close`, `BitUnpacker.get`, `computeNumBits` — the code.
* `BitPacker.Holds` — what the bytes written so far and the buffer spell.
* `pack_spec` — the bytes of a whole sequence.
* `BitUnpacker.get_eq`, `get_pack` — reading one number back.
-/

/-- `compute_num_bits`; `64 - n.leading_zeros()` is the number of binary digits. -/
def computeNumBits (n : Nat) : Nat :=
  let amplitude := if n = 0 then 0 else Nat.log2 n + 1
  if amplitude ≤ 64 - 8 then amplitude else 64

theorem computeNumBits_cases (n : Nat) : computeNumBits n ≤ 56 ∨ computeNumBits n = 64 := by
  unfold computeNumBits
  dsimp only
  generalize (if n = 0 then 0 else Nat.log2 n + 1) = amplitude
  split <;> omega

theorem computeNumBits_le (n : Nat) : computeNumBits n ≤ 64 := by
  have := computeNumBits_cases n
  omega

/-- A number fits the width computed for it, and for any greater number. -/
theorem lt_two_pow_computeNumBits {m n : Nat} (hm : m ≤ n) (hn : n < 2 ^ 64) :
    m < 2 ^ computeNumBits n := by
  have hlt : n < 2 ^ (if n = 0 then 0 else Nat.log2 n + 1) := by
    split
    · omega
    · exact Nat.lt_log2_self
  unfold computeNumBits
  dsimp only
  generalize (if n = 0 then 0 else Nat.log2 n + 1) = amplitude at hlt
  split
  · exact hm.trans_lt hlt
  · exact hm.trans_lt hn

/-! ### Writing -/

/-- `BitPacker`. -/
structure BitPacker where
  miniBuffer : Nat
  miniBufferWritten : Nat

namespace BitPacker

def new : BitPacker := ⟨0, 0⟩

/-- `write`: the packer behind the number, and the bytes that go out. -/
def write (p : BitPacker) (val numBits : Nat) : BitPacker × Bytes :=
  if 64 < p.miniBufferWritten + numBits then
    let miniBuffer := p.miniBuffer ||| (val <<< p.miniBufferWritten) % 2 ^ 64
    (⟨val >>> (64 - p.miniBufferWritten), p.miniBufferWritten + numBits - 64⟩, toLE 8 miniBuffer)
  else
    let miniBuffer := p.miniBuffer ||| (val <<< p.miniBufferWritten) % 2 ^ 64
    let written := p.miniBufferWritten + numBits
    if written = 64 then (⟨0, 0⟩, toLE 8 miniBuffer) else (⟨miniBuffer, written⟩, [])

/-- `flush`. -/
def flush (p : BitPacker) : Bytes :=
  if 0 < p.miniBufferWritten then (toLE 8 p.miniBuffer).take ((p.miniBufferWritten + 7) / 8)
  else []

/-- `close`, which pads for the reads of 8 bytes. -/
def close (p : BitPacker) : Bytes := p.flush ++ List.replicate 7 0

/-- Writes one number after the other. -/
def writeAll (p : BitPacker) : List (Nat × Nat) → BitPacker × Bytes
  | [] => (p, [])
  | (val, numBits) :: rest =>
    let w := p.write val numBits
    let r := writeAll w.1 rest
    (r.1, w.2 ++ r.2)

/-- A sequence of numbers with their widths, written by a new packer that is then closed. -/
def pack (xs : List (Nat × Nat)) : Bytes :=
  let r := new.writeAll xs
  r.2 ++ r.1.close

/-- The bytes that are out and the buffer spell the numbers written so far. -/
structure Holds (p : BitPacker) (out : Bytes) (xs : List (Nat × Nat)) : Prop where
  value : ofLE out + 2 ^ (8 * out.length) * p.miniBuffer = packed xs
  bits : 8 * out.length + p.miniBufferWritten = totalBits xs
  buffer_lt : p.miniBuffer < 2 ^ p.miniBufferWritten
  written_lt : p.miniBufferWritten < 64

theorem holds_new : Holds new [] [] := ⟨rfl, rfl, by decide, by decide⟩

variable {xs : List (Nat × Nat)}

/-- One number more. -/
theorem Holds.write {p : BitPacker} {out : Bytes} (h : Holds p out xs) {val numBits : Nat}
    (hval : val < 2 ^ numBits) (hbits : numBits ≤ 64) :
    Holds (p.write val numBits).1 (out ++ (p.write val numBits).2) (xs ++ [(val, numBits)]) := by
  obtain ⟨buffer, written⟩ := p
  obtain ⟨hvalue, htotal, hbuffer, hwritten⟩ := h
  dsimp only at hvalue htotal hbuffer hwritten
  -- the buffer with the number on top of it
  set B := buffer + 2 ^ written * val with hB
  have hpacked : packed (xs ++ [(val, numBits)]) = ofLE out + 2 ^ (8 * out.length) * B := by
    rw [packed_append, ← htotal, ← hvalue, hB, packed, packed, pow_add]
    ring
  have hbits' : totalBits (xs ++ [(val, numBits)]) = 8 * out.length + (written + numBits) := by
    rw [totalBits_append, ← htotal, totalBits_cons, totalBits_nil]
    omega
  have hBlt : B < 2 ^ (written + numBits) := by
    rw [pow_add, hB]
    calc buffer + 2 ^ written * val < 2 ^ written + 2 ^ written * val := by omega
      _ = 2 ^ written * (val + 1) := by ring
      _ ≤ 2 ^ written * 2 ^ numBits := Nat.mul_le_mul_left _ hval
  have hor := @or_shiftLeft_mod buffer val written 64 hbuffer hwritten
  have hout : ∀ n, n < 2 ^ 64 → ofLE (out ++ toLE 8 n) = ofLE out + 2 ^ (8 * out.length) * n := by
    intro n hn
    rw [ofLE_append, ofLE_toLE (lt_of_lt_of_eq hn (by norm_num)), two_pow_eight_mul]
  have hlen : ∀ n, 8 * (out ++ toLE 8 n).length = 8 * out.length + 64 := by
    intro n
    rw [List.length_append, length_toLE]
    omega
  unfold BitPacker.write
  rw [hor, ← hB]
  by_cases hfull : 64 < written + numBits
  · rw [if_pos hfull]
    have hhigh : val >>> (64 - written) = B / 2 ^ 64 := by
      have h64 : 2 ^ 64 = 2 ^ written * 2 ^ (64 - written) := by
        rw [← pow_add]
        congr 1
        omega
      rw [Nat.shiftRight_eq_div_pow, h64, ← Nat.div_div_eq_div_mul, hB,
        Nat.add_mul_div_left _ _ (Nat.two_pow_pos _), Nat.div_eq_of_lt hbuffer, Nat.zero_add]
    have hmod : B % 2 ^ 64 < 2 ^ 64 := Nat.mod_lt _ (by decide)
    refine ⟨?_, ?_, ?_, ?_⟩
    · rw [hout _ hmod, hlen, hhigh, hpacked, pow_add]
      calc _ = ofLE out + 2 ^ (8 * out.length) * (B % 2 ^ 64 + 2 ^ 64 * (B / 2 ^ 64)) := by ring
        _ = _ := by rw [Nat.mod_add_div]
    · show 8 * (out ++ toLE 8 (B % 2 ^ 64)).length + (written + numBits - 64) = _
      rw [hlen, hbits']
      omega
    · show val >>> (64 - written) < 2 ^ (written + numBits - 64)
      rw [hhigh]
      apply Nat.div_lt_of_lt_mul
      rw [← pow_add]
      exact lt_of_lt_of_eq hBlt (by congr 1; omega)
    · show written + numBits - 64 < 64
      omega
  · rw [if_neg hfull]
    have hB64 : B < 2 ^ 64 := hBlt.trans_le (Nat.pow_le_pow_right (by decide) (by omega))
    rw [Nat.mod_eq_of_lt hB64]
    by_cases hexact : written + numBits = 64
    · rw [if_pos hexact]
      refine ⟨?_, ?_, Nat.zero_lt_one, Nat.zero_lt_succ 63⟩
      · rw [hout _ hB64, hpacked, Nat.mul_zero, Nat.add_zero]
      · show 8 * (out ++ toLE 8 B).length + 0 = _
        rw [hlen, hbits']
        omega
    · rw [if_neg hexact]
      refine ⟨?_, ?_, hBlt, ?_⟩
      · show ofLE (out ++ []) + 2 ^ (8 * (out ++ []).length) * B = _
        rw [List.append_nil, hpacked]
      · show 8 * (out ++ []).length + (written + numBits) = _
        rw [List.append_nil, hbits']
      · show written + numBits < 64
        omega

theorem Holds.writeAll {p : BitPacker} {out : Bytes} (h : Holds p out xs) {ys : List (Nat × Nat)}
    (hys : ∀ y ∈ ys, y.1 < 2 ^ y.2 ∧ y.2 ≤ 64) :
    Holds (p.writeAll ys).1 (out ++ (p.writeAll ys).2) (xs ++ ys) := by
  induction ys generalizing p out xs with
  | nil =>
    show Holds p (out ++ []) (xs ++ [])
    rwa [List.append_nil, List.append_nil]
  | cons y rest ih =>
    obtain ⟨val, numBits⟩ := y
    obtain ⟨hval, hbits⟩ := hys (val, numBits) (by simp)
    have hrest := ih (h.write hval hbits) fun z hz => hys z (List.mem_cons_of_mem _ hz)
    rw [List.append_assoc, List.append_assoc] at hrest
    exact hrest

/-- **A packed sequence.** The bytes spell the numbers, and 7 bytes follow the last one. -/
theorem pack_spec (hxs : ∀ x ∈ xs, x.1 < 2 ^ x.2 ∧ x.2 ≤ 64) :
    ofLE (pack xs) = packed xs ∧ (pack xs).length = (totalBits xs + 7) / 8 + 7 := by
  have h := holds_new.writeAll hxs
  rw [List.nil_append, List.nil_append] at h
  unfold pack
  generalize new.writeAll xs = r at h ⊢
  obtain ⟨⟨buffer, written⟩, out⟩ := r
  obtain ⟨hvalue, htotal, hbuffer, hwritten⟩ := h
  dsimp only at hvalue htotal hbuffer hwritten ⊢
  have hbuffer64 : buffer < 256 ^ 8 :=
    hbuffer.trans_le ((Nat.pow_le_pow_right (by decide) hwritten.le).trans (by norm_num))
  -- the last bytes of the buffer hold no bits
  have hflush : ofLE (flush ⟨buffer, written⟩) = buffer ∧
      (flush ⟨buffer, written⟩).length = (written + 7) / 8 := by
    unfold flush
    dsimp only
    by_cases hpos : 0 < written
    · rw [if_pos hpos]
      refine ⟨?_, by rw [List.length_take, length_toLE]; omega⟩
      rw [ofLE_take _ (by rw [length_toLE]; omega), ofLE_toLE hbuffer64]
      apply Nat.mod_eq_of_lt
      rw [← two_pow_eight_mul]
      exact hbuffer.trans_le (Nat.pow_le_pow_right (by decide) (by omega))
    · rw [if_neg hpos]
      have h0 : written = 0 := by omega
      subst h0
      refine ⟨?_, rfl⟩
      rw [pow_zero] at hbuffer
      show 0 = buffer
      omega
  unfold close
  constructor
  · rw [ofLE_append, ofLE_append, ofLE_replicate_zero, hflush.1, ← hvalue, two_pow_eight_mul]
    ring
  · rw [List.length_append, List.length_append, hflush.2, List.length_replicate]
    omega

end BitPacker

/-! ### Reading -/

/-- `BitUnpacker`. -/
structure BitUnpacker where
  numBits : Nat
  mask : Nat

namespace BitUnpacker

/-- `new`. -/
def new (numBits : Nat) : BitUnpacker where
  numBits := numBits
  mask := if numBits = 64 then 2 ^ 64 - 1 else 2 ^ numBits - 1

/-- `get`; the position is computed in 32 bits, and a read behind the data panics. -/
def get (u : BitUnpacker) (idx : Nat) (data : Bytes) : Option Nat :=
  if u.numBits = 0 then some 0
  else
    let addrInBits := idx * u.numBits % 2 ^ 32
    let addr := addrInBits >>> 3
    let bitShift := addrInBits &&& 7
    (slice? data addr (addr + 8)).map fun bytes => (ofLE bytes >>> bitShift) &&& u.mask

variable {numBits : Nat}

/-- **Reading a number.** As long as it lies within 8 bytes it is read from the bits at its
    position, which is computed modulo 2^32. -/
theorem get_eq {idx : Nat} {data : Bytes} (hbits : numBits ≤ 56 ∨ numBits = 64)
    (hdata : numBits = 0 ∨ idx * numBits % 2 ^ 32 / 8 + 8 ≤ data.length) :
    (new numBits).get idx data =
      some (ofLE data / 2 ^ (idx * numBits % 2 ^ 32) % 2 ^ numBits) := by
  unfold get new
  dsimp only
  by_cases h0 : numBits = 0
  · rw [if_pos h0, h0, pow_zero, Nat.mod_one]
  · have hdata := hdata.resolve_left h0
    have hmask : (if numBits = 64 then 2 ^ 64 - 1 else 2 ^ numBits - 1) = 2 ^ numBits - 1 := by
      split
      · rename_i h
        rw [h]
      · rfl
    rw [if_neg h0, hmask, Nat.shiftRight_eq_div_pow]
    -- numbers of 64 bits start with a byte
    have hwithin : idx * numBits % 2 ^ 32 % 8 + numBits ≤ 64 := by
      rcases hbits with hbits | hbits
      · omega
      · rw [hbits]
        omega
    generalize idx * numBits % 2 ^ 32 = bit at hdata hwithin ⊢
    have hshift : bit &&& 7 = bit % 8 := Nat.and_two_pow_sub_one_eq_mod bit 3
    have haddr : bit / 2 ^ 3 = bit / 8 := rfl
    rw [hshift, haddr, slice?_eq (by omega) hdata, Option.map_some]
    congr 1
    rw [Nat.shiftRight_eq_div_pow, Nat.and_two_pow_sub_one_eq_mod]
    -- eight bytes from the position on
    have hslice : ofLE (slice data (bit / 8) (bit / 8 + 8)) =
        ofLE data / 2 ^ (8 * (bit / 8)) % 2 ^ 64 := by
      rw [slice, show bit / 8 + 8 - bit / 8 = 8 by omega,
        ofLE_take _ (by rw [List.length_drop]; omega), ofLE_drop _ (by omega), two_pow_eight_mul]
      norm_num
    rw [hslice, mod_div_mod hwithin, Nat.div_div_eq_div_mul, ← pow_add, Nat.div_add_mod]

/-- A number of a sequence that has one width, in front of others. -/
theorem packed_at {vals : List Nat} (hvals : ∀ v ∈ vals, v < 2 ^ numBits) (post : List (Nat × Nat))
    {i v : Nat} (hv : vals[i]? = some v) :
    packed (vals.map (fun v => (v, numBits)) ++ post) / 2 ^ (i * numBits) % 2 ^ numBits = v := by
  obtain ⟨hi, hvi⟩ := List.getElem?_eq_some_iff.mp hv
  -- the values before it, itself, and what follows
  have hsplit : vals.map (fun v => (v, numBits)) ++ post =
      (vals.take i).map (fun v => (v, numBits)) ++
        ((v, numBits) :: ((vals.drop (i + 1)).map (fun v => (v, numBits)) ++ post)) := by
    conv_lhs => rw [← List.take_append_drop i vals, List.drop_eq_getElem_cons hi, hvi]
    rw [List.map_append, List.map_cons, List.append_assoc, List.cons_append]
  have hbefore : totalBits ((vals.take i).map fun v => (v, numBits)) = i * numBits := by
    rw [totalBits_map_const, List.length_take, Nat.min_eq_left hi.le]
  have hfits : Fits ((vals.take i).map fun v => (v, numBits)) := by
    intro p hp
    obtain ⟨w, hw, rfl⟩ := List.mem_map.mp hp
    exact hvals w (List.mem_of_mem_take hw)
  rw [hsplit, ← hbefore, packed_div hfits, packed_mod (hvals v (List.mem_of_getElem? hv))]

/-- Reading a number of a sequence that has one width. -/
theorem get_pack {vals : List Nat} {data : Bytes} (hbits : numBits ≤ 56 ∨ numBits = 64)
    (hvals : ∀ v ∈ vals, v < 2 ^ numBits) (hlen : vals.length * numBits < 2 ^ 32)
    (post : List (Nat × Nat))
    (hdata : ofLE data = packed (vals.map (fun v => (v, numBits)) ++ post))
    (hpad : (vals.length * numBits + 7) / 8 + 7 ≤ data.length) {i v : Nat}
    (hv : vals[i]? = some v) : (new numBits).get i data = some v := by
  obtain ⟨hi, -⟩ := List.getElem?_eq_some_iff.mp hv
  have hidx : i * numBits < 2 ^ 32 :=
    (Nat.mul_le_mul_right numBits hi.le).trans_lt hlen
  have hroom : numBits = 0 ∨ i * numBits / 8 + 8 ≤ data.length := by
    rcases Nat.eq_zero_or_pos numBits with h0 | hpos
    · exact Or.inl h0
    · have hnext : (i + 1) * numBits ≤ vals.length * numBits := Nat.mul_le_mul_right _ hi
      rw [Nat.succ_mul] at hnext
      right
      omega
  have hget := @get_eq numBits i data hbits
  rw [Nat.mod_eq_of_lt hidx] at hget
  rw [hget hroom, hdata, packed_at hvals post hv]

end BitUnpacker

end TeaclaveCrates.Tantivy.FastFieldCodecs
