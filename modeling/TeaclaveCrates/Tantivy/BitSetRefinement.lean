import Mathlib.Data.List.TakeWhile
import Mathlib.Tactic.IntervalCases
import TeaclaveCrates.Tantivy.BitSet

namespace TeaclaveCrates.Tantivy.Common

open TeaclaveCrates.Lib
open FastFieldCodecs (Profile)

/-!
# Bit sets as finite sets

* `Holds` — the words of a `BitSet` are those of a finite set; `Agrees` — so are its answers.
* `Holds.contains_eq`, `Holds.elements_eq`, `Holds.sum_len` — reading a set.
* `Holds.opened` — reading what was serialised.
* `Counted.step` — a call keeps the words, and the count where the call does not lose it.
* `refines_iff` — all answers of a run are those of the plain set just when the words are enough for
  the maximum and no call loses the count.
-/

def words (tinysets : List TinySet) : List (BitVec 64) := tinysets.map TinySet.bits

@[simp] theorem length_words (tinysets : List TinySet) : (words tinysets).length = tinysets.length :=
  List.length_map _

/-- The elements of a set below a maximum, in increasing order. -/
def increasing (maxValue : Nat) (s : Finset Nat) : List Nat :=
  (List.range maxValue).filter (· ∈ s)

theorem length_increasing {maxValue : Nat} {s : Finset Nat} (hbelow : ∀ el ∈ s, el < maxValue) :
    (increasing maxValue s).length = s.card := by
  have hnodup : (increasing maxValue s).Nodup := List.nodup_range.filter _
  rw [← List.toFinset_card_of_nodup hnodup]
  congr 1
  ext el
  rw [List.mem_toFinset, increasing, List.mem_filter, List.mem_range, decide_eq_true_iff]
  exact ⟨And.right, fun h => ⟨hbelow el h, h⟩⟩

/-- Numbers behind the last one with a property can be left out. -/
theorem filter_range_of_lt {p : Nat → Bool} {m n : Nat} (hmn : m ≤ n) (hp : ∀ i, p i → i < m) :
    (List.range n).filter p = (List.range m).filter p := by
  obtain ⟨k, rfl⟩ := Nat.exists_eq_add_of_le hmn
  have hrest : ((List.range k).map (m + ·)).filter p = [] := by
    rw [List.filter_eq_nil_iff]
    intro i hi hpi
    obtain ⟨j, -, rfl⟩ := List.mem_map.mp hi
    exact absurd (hp _ hpi) (by omega)
  rw [List.range_add, List.filter_append, hrest, List.append_nil]

/-- The words of a `BitSet` are those of a set of numbers below the maximum. -/
structure Holds (b : BitSet) (maxValue : Nat) (s : Finset Nat) : Prop where
  buckets : b.tinysets.length = (maxValue + 63) / 64
  maxValue_eq : b.maxValue = maxValue
  mem : ∀ el, bitAt (words b.tinysets) el = decide (el ∈ s)
  below : ∀ el ∈ s, el < maxValue

theorem bitAt_words (tinysets : List TinySet) (el : Nat) :
    bitAt (words tinysets) el =
      match tinysets[el / 64]? with
      | some tinyset => tinyset.bits.getLsbD (el % 64)
      | none => false := by
  rw [bitAt, words, List.getElem?_map]
  cases tinysets[el / 64]? <;> rfl

/-- The bits of a word that is replaced. -/
theorem bitAt_set {tinysets : List TinySet} {el : Nat} {old new : TinySet}
    (hold : tinysets[el / 64]? = some old) (i : Nat) :
    bitAt (words (tinysets.set (el / 64) new)) i =
      if i / 64 = el / 64 then new.bits.getLsbD (i % 64) else bitAt (words tinysets) i := by
  obtain ⟨hlt, -⟩ := List.getElem?_eq_some_iff.mp hold
  rw [bitAt_words, bitAt_words]
  by_cases h : i / 64 = el / 64
  · simp [h, List.getElem?_set_self hlt]
  · simp [h, List.getElem?_set_ne fun heq => h heq.symm]

namespace Holds

variable {b : BitSet} {maxValue : Nat} {s : Finset Nat} (h : Holds b maxValue s)

include h

/-- There is a word for each element below the maximum. -/
theorem exists_word {el : Nat} (hel : el < maxValue) :
    ∃ tinyset, b.tinysets[el / 64]? = some tinyset ∧
      tinyset.bits.getLsbD (el % 64) = decide (el ∈ s) := by
  have hlt : el / 64 < b.tinysets.length := by
    rw [h.buckets]
    omega
  have hword := List.getElem?_eq_getElem hlt
  have hmem := h.mem el
  rw [bitAt_words, hword] at hmem
  exact ⟨_, hword, hmem⟩

theorem contains_eq {el : Nat} (hel : el < maxValue) :
    b.contains el = some (decide (el ∈ s)) := by
  obtain ⟨tinyset, hword, hbit⟩ := h.exists_word hel
  rw [BitSet.contains, BitSet.tinyset, hword, Option.map_some,
    TinySet.contains_eq _ (Nat.mod_lt _ (by decide)), hbit]

/-- The bits in front of the maximum are all there are. -/
theorem bitsFrom_words : bitsFrom 0 (words b.tinysets) = increasing maxValue s := by
  have hdecide : bitAt (words b.tinysets) = fun el => decide (el ∈ s) := funext h.mem
  have hwide : maxValue ≤ b.tinysets.length * 64 := by
    rw [h.buckets]
    omega
  have hshift : (0 * 64 + · : Nat → Nat) = id := by
    funext i
    simp
  rw [bitsFrom_eq (by decide), hdecide, length_words, hshift, List.map_id]
  exact filter_range_of_lt hwide fun el hel => h.below el (of_decide_eq_true hel)

theorem sum_len : (b.tinysets.map TinySet.len).sum = s.card := by
  rw [← length_increasing h.below, ← h.bitsFrom_words, length_bitsFrom, words, List.map_map]
  rfl

end Holds

theorem bits_of_not_isEmpty {tinyset : TinySet} (h : (!tinyset.isEmpty) = false) :
    tinyset.bits = 0#64 := by
  cases hempty : tinyset.isEmpty with
  | true => exact beq_iff_eq.mp hempty
  | false =>
    rw [hempty] at h
    cases h

theorem mul_or_of_lt {n i : Nat} (hi : i < 64) : n * 64 ||| i = n * 64 + i := by
  have hor := @Nat.shiftLeft_add_eq_or_of_lt 6 i hi n
  rw [Nat.shiftLeft_eq] at hor
  exact hor.symm

/-- **Going through a set** from a bucket on. -/
theorem walk_eq (b : BitSet) {fuel bucket : Nat} (hbucket : bucket ≤ b.tinysets.length)
    (hfuel : b.tinysets.length < fuel + bucket) :
    b.walk fuel bucket = some (bitsFrom bucket (words (b.tinysets.drop bucket))) := by
  induction fuel generalizing bucket with
  | zero => omega
  | succ fuel ih =>
    rw [BitSet.walk, BitSet.firstNonEmptyBucket, if_neg (Nat.not_lt.mpr hbucket)]
    cases hfind : (b.tinysets.drop bucket).findIdx? (! ·.isEmpty) with
    | none =>
      -- the words left over are empty
      have hempty : ∀ x ∈ words (b.tinysets.drop bucket), x = 0#64 := by
        intro x hx
        obtain ⟨tinyset, hmem, rfl⟩ := List.mem_map.mp hx
        exact bits_of_not_isEmpty (List.findIdx?_eq_none_iff.mp hfind tinyset hmem)
      have hnil := bitsFrom_append_zeros bucket hempty []
      rw [List.append_nil] at hnil
      rw [hnil]
      rfl
    | some delta =>
      obtain ⟨hlt, hfound, hbefore⟩ := List.findIdx?_eq_some_iff_getElem.mp hfind
      have hlength : (b.tinysets.drop bucket).length = b.tinysets.length - bucket :=
        List.length_drop
      have hin : bucket + delta < b.tinysets.length := by omega
      have hword : b.tinyset (bucket + delta) = some b.tinysets[bucket + delta] :=
        List.getElem?_eq_getElem hin
      have hrest := @ih (bucket + delta + 1) hin (by omega)
      have hempty : ∀ x ∈ words ((b.tinysets.drop bucket).take delta), x = 0#64 := by
        intro x hx
        obtain ⟨tinyset, hmem, rfl⟩ := List.mem_map.mp hx
        obtain ⟨i, hi, rfl⟩ := List.getElem_of_mem hmem
        rw [List.length_take] at hi
        rw [List.getElem_take]
        exact bits_of_not_isEmpty (Bool.eq_false_of_not_eq_true (hbefore i (by omega)))
      have hsplit : b.tinysets.drop bucket = (b.tinysets.drop bucket).take delta ++
          b.tinysets[bucket + delta] :: b.tinysets.drop (bucket + delta + 1) := by
        conv_lhs => rw [← List.take_append_drop delta (b.tinysets.drop bucket), List.drop_drop,
          List.drop_eq_getElem_cons hin]
      have hbits : ∀ tinyset : TinySet, tinyset.elements.map ((bucket + delta) * 64 ||| ·) =
          (bitList tinyset.bits).map ((bucket + delta) * 64 + ·) := by
        intro tinyset
        rw [TinySet.elements_eq]
        exact List.map_congr_left fun i hi =>
          mul_or_of_lt (BitVec.lt_of_getLsbD (mem_bitList.mp hi))
      have hskip := bitsFrom_append_zeros bucket hempty
        (words (b.tinysets[bucket + delta] :: b.tinysets.drop (bucket + delta + 1)))
      have htake : (words ((b.tinysets.drop bucket).take delta)).length = delta := by
        rw [length_words, List.length_take]
        omega
      rw [htake] at hskip
      simp only [Option.map_some, hword, hrest]
      conv_rhs => rw [hsplit, words, List.map_append]
      refine congrArg some (Eq.trans ?_ hskip.symm)
      rw [hbits]
      rfl

namespace Holds

variable {b : BitSet} {maxValue : Nat} {s : Finset Nat} (h : Holds b maxValue s)

include h

theorem elements_eq : b.elements = some (increasing maxValue s) := by
  rw [BitSet.elements, walk_eq b (Nat.zero_le _) (by omega), List.drop_zero, h.bitsFrom_words]

end Holds

/-! ### Serialised sets -/

theorem ofLE_eq_ofWords_bytes (bs : Bytes) : ofLE bs = ofWords (bs.map UInt8.toBitVec) := by
  induction bs with
  | nil => rfl
  | cons b bs ih =>
    simp [ofLE, ofWords, ih, Nat.add_comm]

/-- Eight bytes are a word. -/
theorem ofLE_eq_ofWords {data : Bytes} (haligned : data.length % 8 = 0) :
    ofLE data = ofWords (words ((chunks 8 data).map TinySet.deserialize)) := by
  induction hlen : data.length using Nat.strongRecOn generalizing data with
  | _ len ih =>
    by_cases hne : data = []
    · subst hne
      rfl
    · have hpos := List.length_pos_of_ne_nil hne
      have hlt : ofLE (data.take 8) < 2 ^ 64 := by
        have hbound := ofLE_lt (data.take 8)
        have hlength : (data.take 8).length = 8 := by
          rw [List.length_take]
          omega
        rw [hlength] at hbound
        exact hbound.trans_le (by decide)
      have hrest := @ih (data.drop 8).length (by rw [List.length_drop]; omega) (data.drop 8)
        (by rw [List.length_drop]; omega) rfl
      have hword : (TinySet.deserialize (data.take 8)).bits.toNat = ofLE (data.take 8) := by
        rw [TinySet.deserialize, BitVec.toNat_ofNat, Nat.mod_eq_of_lt hlt]
      have hlength : (data.take 8).length = 8 := by
        rw [List.length_take]
        omega
      have hpow : 256 ^ 8 = 2 ^ 64 := by norm_num
      rw [chunks_cons (by decide) hne, List.map_cons, words, List.map_cons, ofWords, hword]
      change _ = 2 ^ 64 * ofWords (words ((chunks 8 (data.drop 8)).map TinySet.deserialize)) + _
      rw [← hrest]
      conv_lhs => rw [← List.take_append_drop 8 data, ofLE_append, hlength, hpow, Nat.add_comm]

namespace ReadOnlyBitSet

/-- The bit of an element, in the words that are iterated. -/
theorem testBit_data (r : ReadOnlyBitSet) (el : Nat) :
    (ofLE r.data).testBit el = bitAt (words r.iterTinysets) el := by
  rw [ofLE_eq_ofWords r.aligned, testBit_ofWords (by decide)]
  rfl

/-- The test of a bit of a byte. -/
theorem byte_test (byte : UInt8) {i : Nat} (hi : i < 8) :
    (byte &&& (1 <<< UInt8.ofNat i) != 0) = byte.toBitVec.getLsbD i := by
  have hshift : (1 <<< UInt8.ofNat i : UInt8).toBitVec = 1#8 <<< i := by
    interval_cases i <;> rfl
  have hmask : byte &&& (1 <<< UInt8.ofNat i) = 0 ↔ byte.toBitVec.getLsbD i = false := by
    rw [← and_one_shiftLeft_eq_zero byte.toBitVec hi, ← hshift, ← UInt8.toBitVec_and,
      ← UInt8.toBitVec_inj]
    rfl
  cases hbit : byte.toBitVec.getLsbD i with
  | true =>
    rw [hbit] at hmask
    exact bne_iff_ne.mpr fun hzero => Bool.false_ne_true (hmask.mp hzero).symm
  | false =>
    simp [hmask.mpr hbit]

/-- The bit of an element, in its byte. -/
theorem contains_eq (r : ReadOnlyBitSet) {el : Nat} (hel : el / 8 < r.data.length) :
    r.contains el = some ((ofLE r.data).testBit el) := by
  have hget := List.getElem?_eq_getElem hel
  have hmod : el % 8 < 8 := Nat.mod_lt _ (by decide)
  rw [contains, hget, Option.map_some, byte_test _ hmod, ofLE_eq_ofWords_bytes,
    testBit_ofWords (by decide), bitAt, List.getElem?_map, hget]
  rfl

/-- **Iterating** words whose bits are below the maximum, as many as there are for a `u32`. -/
theorem iterFrom_eq {profile : Profile} {maxValue n : Nat} {tinysets : List TinySet}
    (hsmall : (n + tinysets.length) * 64 ≤ 2 ^ 32)
    (hbelow : ∀ el ∈ bitsFrom n (words tinysets), el < maxValue) :
    iterFrom profile maxValue n tinysets = some (bitsFrom n (words tinysets)) := by
  induction tinysets generalizing n with
  | nil => rfl
  | cons tinyset rest ih =>
    rw [List.length_cons] at hsmall
    have hbase : profile.fit 32 (n % 2 ^ 32 * 64) = some (n * 64) := by
      rw [Nat.mod_eq_of_lt (by omega)]
      exact Profile.fit_of_lt (by omega)
    have hothers := @ih (n + 1) (by omega) fun el hel => hbelow el (List.mem_append_right _ hel)
    have hwhole : (tinyset.elements.map (· + n * 64)).takeWhile (· < maxValue) =
        (bitList tinyset.bits).map (n * 64 + ·) := by
      have hmap : tinyset.elements.map (· + n * 64) = (bitList tinyset.bits).map (n * 64 + ·) := by
        rw [TinySet.elements_eq]
        exact List.map_congr_left fun i _ => Nat.add_comm _ _
      rw [hmap, List.takeWhile_eq_self_iff]
      exact fun el hel => decide_eq_true (hbelow el (List.mem_append_left _ hel))
    rw [iterFrom, hbase, hothers]
    show some ((tinyset.elements.map (· + n * 64)).takeWhile (· < maxValue) ++ _) = _
    rw [hwhole]
    rfl

end ReadOnlyBitSet

/-- The answers of a `ReadOnlyBitSet` are those of a set. -/
structure ReadOnlyBitSet.Agrees (profile : Profile) (r : ReadOnlyBitSet) (s : Finset Nat) :
    Prop where
  contains : ∀ el < r.maxValue, r.contains el = some (decide (el ∈ s))
  iter : r.iter profile = some (increasing r.maxValue s)
  len : r.len = s.card

/-- **Opening what was serialised.** -/
theorem Holds.opened {b : BitSet} {maxValue : Nat} {s : Finset Nat} (h : Holds b maxValue s)
    (hmax : maxValue + 63 < 2 ^ 32) (profile : Profile) :
    ∃ r, ReadOnlyBitSet.open b.serialize = some r ∧ r.maxValue = maxValue ∧ r.Agrees profile s := by
  have hbytes : ∀ bytes ∈ b.tinysets.map TinySet.intoBytes, bytes.length = 8 := by
    intro bytes hmem
    obtain ⟨tinyset, -, rfl⟩ := List.mem_map.mp hmem
    exact length_toLE _ _
  have hdata : b.tinysets.flatMap TinySet.intoBytes = (b.tinysets.map TinySet.intoBytes).flatten :=
    List.flatMap_def
  have hlength : (b.tinysets.flatMap TinySet.intoBytes).length = b.tinysets.length * 8 := by
    rw [hdata, (length_flatten_le fun l hl => (hbytes l hl).le).2.mpr hbytes, List.length_map]
  have hdrop : b.serialize.drop 4 = b.tinysets.flatMap TinySet.intoBytes :=
    List.drop_left' (length_toLE _ _)
  have htake : ofLE (b.serialize.take 4) = maxValue := by
    rw [BitSet.serialize, List.take_left' (length_toLE _ _), h.maxValue_eq]
    exact ofLE_toLE (by omega)
  have haligned : (b.serialize.drop 4).length % 8 = 0 := by
    rw [hdrop, hlength]
    omega
  have hshort : ¬b.serialize.length < 4 := by
    rw [BitSet.serialize, List.length_append, length_toLE]
    omega
  refine ⟨⟨b.serialize.drop 4, maxValue, haligned⟩, ?_, rfl, ?_⟩
  · rw [ReadOnlyBitSet.open, if_neg hshort, dif_pos haligned]
    congr 2
  · have htinysets : ReadOnlyBitSet.iterTinysets ⟨b.serialize.drop 4, maxValue, haligned⟩ =
        b.tinysets := by
      show (chunks 8 (b.serialize.drop 4)).map TinySet.deserialize = _
      rw [hdrop, hdata, chunks_flatten (by decide) hbytes, List.map_map]
      conv_rhs => rw [← List.map_id b.tinysets]
      exact List.map_congr_left fun tinyset _ => TinySet.deserialize_intoBytes tinyset
    constructor
    · intro el hel
      have hbyte : el / 8 < (b.serialize.drop 4).length := by
        change el < maxValue at hel
        rw [hdrop, hlength, h.buckets]
        omega
      rw [ReadOnlyBitSet.contains_eq _ hbyte, ReadOnlyBitSet.testBit_data, htinysets, h.mem]
    · rw [ReadOnlyBitSet.iter, htinysets, ReadOnlyBitSet.iterFrom_eq, h.bitsFrom_words]
      · rw [Nat.zero_add, h.buckets]
        omega
      · intro el hel
        rw [h.bitsFrom_words, increasing, List.mem_filter, List.mem_range] at hel
        exact hel.1
    · rw [ReadOnlyBitSet.len, htinysets, h.sum_len]

/-! ### Calls -/

/-- The words of a `BitSet` are those of a set, and so is the count. -/
structure Counted (b : BitSet) (maxValue : Nat) (s : Finset Nat) : Prop
    extends Holds b maxValue s where
  len : b.len = s.card

/-- The answers of a `BitSet` are those of a set, also after writing and opening it. -/
structure BitSet.Agrees (profile : Profile) (b : BitSet) (s : Finset Nat) : Prop where
  contains : ∀ el < b.maxValue, b.contains el = some (decide (el ∈ s))
  elements : b.elements = some (increasing b.maxValue s)
  len : b.len = s.card
  opened : ∃ r, ReadOnlyBitSet.open b.serialize = some r ∧ r.maxValue = b.maxValue ∧
    r.Agrees profile s

theorem Counted.agrees {b : BitSet} {maxValue : Nat} {s : Finset Nat} (h : Counted b maxValue s)
    (hmax : maxValue + 63 < 2 ^ 32) (profile : Profile) : b.Agrees profile s where
  contains el hel := h.contains_eq (h.maxValue_eq ▸ hel)
  elements := by rw [h.elements_eq, h.maxValue_eq]
  len := h.len
  opened := by
    obtain ⟨r, hopen, hmaxValue, hagrees⟩ := h.toHolds.opened hmax profile
    exact ⟨r, hopen, hmaxValue.trans h.maxValue_eq.symm, hagrees⟩

theorem bitAt_replicate (n : Nat) (tinyset : TinySet) (el : Nat) :
    bitAt (words (List.replicate n tinyset)) el =
      (decide (el / 64 < n) && tinyset.bits.getLsbD (el % 64)) := by
  rw [bitAt_words, List.getElem?_replicate]
  by_cases h : el / 64 < n
  · simp [h]
  · simp [h]

theorem getLsbD_full {i : Nat} (hi : i < 64) : TinySet.full.bits.getLsbD i = true := by
  show (~~~(0#64)).getLsbD i = true
  rw [BitVec.getLsbD_not, BitVec.getLsbD_zero, decide_eq_true hi]
  rfl

/-- **A new set.** -/
theorem counted_make {maxValue : Nat} (hmax : maxValue + 63 < 2 ^ 32) (profile : Profile)
    (start : Start) :
    ∃ b, start.make profile maxValue = some b ∧ Counted b maxValue (start.set maxValue) := by
  have hbuckets : numBuckets profile maxValue = some ((maxValue + 63) / 64) := by
    rw [numBuckets, Profile.fit_of_lt hmax, Option.map_some]
  cases start with
  | withMaxValue =>
    refine ⟨⟨List.replicate ((maxValue + 63) / 64) TinySet.empty, 0, maxValue⟩, ?_,
      ⟨List.length_replicate, rfl, ?_, ?_⟩, rfl⟩
    · show (numBuckets profile maxValue).map _ = _
      simp [hbuckets]
    · intro el
      rw [bitAt_replicate]
      show (_ && (0#64).getLsbD _) = decide (el ∈ (∅ : Finset Nat))
      simp
    · exact fun el hel => absurd hel (Finset.notMem_empty el)
  | withMaxValueAndFull =>
    have hfull : ∀ n el, bitAt (words (List.replicate n TinySet.full)) el = decide (el / 64 < n) := by
      intro n el
      rw [bitAt_replicate, getLsbD_full (Nat.mod_lt _ (by decide)), Bool.and_true]
    have hbelow : ∀ el ∈ Finset.range maxValue, el < maxValue := fun el => Finset.mem_range.mp
    have hcard : maxValue = (Finset.range maxValue).card := (Finset.card_range _).symm
    show ∃ b, BitSet.withMaxValueAndFull profile maxValue = some b ∧ _
    rw [BitSet.withMaxValueAndFull, hbuckets]
    dsimp only
    by_cases hlower : maxValue % 64 = 0
    · rw [if_pos hlower]
      refine ⟨_, rfl, ⟨List.length_replicate, rfl, ?_, hbelow⟩, hcard⟩
      intro el
      rw [hfull]
      exact decide_eq_decide.mpr (Iff.trans (by omega) Finset.mem_range.symm)
    · have hlast : (List.replicate ((maxValue + 63) / 64) TinySet.full)[(maxValue + 63) / 64 - 1]? =
          some TinySet.full := by
        rw [List.getElem?_replicate, if_pos (by omega)]
      have hindex : (maxValue + 63) / 64 - 1 = maxValue / 64 := by omega
      rw [hindex] at hlast
      rw [if_neg hlower, if_neg (by omega), hindex]
      refine ⟨_, rfl, ⟨?_, rfl, ?_, hbelow⟩, hcard⟩
      · simp
      · intro el
        -- the bits of the last word are those in front of the maximum
        rw [bitAt_set hlast, hfull, TinySet.getLsbD_rangeLower, Nat.mod_mod]
        split
        · exact decide_eq_decide.mpr (Iff.trans (by omega) Finset.mem_range.symm)
        · exact decide_eq_decide.mpr (Iff.trans (by omega) Finset.mem_range.symm)

namespace Counted

variable {b : BitSet} {maxValue : Nat} {s : Finset Nat} (h : Counted b maxValue s)

include h

theorem insert {el : Nat} (hel : el < maxValue) (hmax : maxValue < 2 ^ 32) (profile : Profile) :
    ∃ b', b.insert profile el = some b' ∧ Counted b' maxValue (Insert.insert el s) := by
  obtain ⟨tinyset, hword, hbit⟩ := h.exists_word hel
  have hlower : el % 64 < 64 := Nat.mod_lt _ (by decide)
  have hchanged : decide (tinyset ≠ tinyset.insert (el % 64)) = decide (el ∉ s) := by
    rw [decide_eq_decide, TinySet.insert_ne_iff _ hlower, hbit, decide_eq_false_iff_not]
  have hcard : b.len + (decide (el ∉ s)).toNat = (Insert.insert el s).card := by
    rw [h.len]
    by_cases hmem : el ∈ s
    · simp [decide_eq_false (not_not_intro hmem), Finset.insert_eq_of_mem hmem]
    · simp [decide_eq_true hmem, Finset.card_insert_of_notMem hmem]
  have hbelow : ∀ i ∈ Insert.insert el s, i < maxValue := by
    intro i hi
    rcases Finset.mem_insert.mp hi with rfl | hi
    · exact hel
    · exact h.below i hi
  have hsmall : (Insert.insert el s).card < 2 ^ 64 := by
    have hle := length_increasing hbelow
    have hrange : (increasing maxValue (Insert.insert el s)).length ≤ maxValue :=
      (List.length_filter_le _ _).trans_eq List.length_range
    omega
  refine ⟨⟨b.tinysets.set (el / 64) (tinyset.insert (el % 64)), (Insert.insert el s).card,
    b.maxValue⟩, ?_, ⟨?_, h.maxValue_eq, ?_, hbelow⟩, rfl⟩
  · rw [BitSet.insert]
    rw [hword]
    show (profile.fit 64 (b.len + (decide (tinyset ≠ tinyset.insert (el % 64))).toNat)).map _ = _
    rw [hchanged, hcard, Profile.fit_of_lt hsmall]
    rfl
  · rw [List.length_set, h.buckets]
  · intro i
    rw [bitAt_set hword, TinySet.getLsbD_insert _ hlower, h.mem]
    by_cases hword' : i / 64 = el / 64
    · have hold := h.mem i
      rw [bitAt_words, hword', hword] at hold
      dsimp only at hold
      rw [if_pos hword', hold, ← Bool.decide_or, decide_eq_decide, Finset.mem_insert]
      constructor
      · exact fun hi => hi.symm.imp_left fun _ => by omega
      · exact fun hi => hi.symm.imp_right fun heq => by rw [heq]
    · rw [if_neg hword', decide_eq_decide, Finset.mem_insert]
      exact ⟨Or.inr, fun hi => hi.resolve_left fun heq => hword' (by rw [heq])⟩

theorem remove {el : Nat} (hel : el < maxValue) (profile : Profile) :
    ∃ b', b.remove profile el = some b' ∧ Counted b' maxValue (s.erase el) := by
  obtain ⟨tinyset, hword, hbit⟩ := h.exists_word hel
  have hlower : el % 64 < 64 := Nat.mod_lt _ (by decide)
  have hchanged : decide (tinyset ≠ tinyset.remove (el % 64)) = decide (el ∈ s) := by
    rw [decide_eq_decide, TinySet.remove_ne_iff _ hlower, hbit, decide_eq_true_iff]
  have hcard : (decide (el ∈ s)).toNat ≤ b.len ∧
      b.len - (decide (el ∈ s)).toNat = (s.erase el).card := by
    rw [h.len]
    by_cases hmem : el ∈ s
    · rw [decide_eq_true hmem, Finset.card_erase_of_mem hmem]
      exact ⟨Finset.card_pos.mpr ⟨el, hmem⟩, rfl⟩
    · rw [decide_eq_false hmem, Finset.erase_eq_of_notMem hmem]
      exact ⟨Nat.zero_le _, rfl⟩
  refine ⟨⟨b.tinysets.set (el / 64) (tinyset.remove (el % 64)), (s.erase el).card, b.maxValue⟩, ?_,
    ⟨?_, h.maxValue_eq, ?_, fun i hi => h.below i (Finset.mem_of_mem_erase hi)⟩, rfl⟩
  · rw [BitSet.remove]
    rw [hword]
    show (profile.fitSub 64 b.len (decide (tinyset ≠ tinyset.remove (el % 64))).toNat).map _ = _
    simp [hchanged, Profile.fitSub_of_le hcard.1, hcard.2]
  · rw [List.length_set, h.buckets]
  · intro i
    rw [bitAt_set hword, TinySet.getLsbD_remove _ hlower, h.mem]
    by_cases hword' : i / 64 = el / 64
    · have hold := h.mem i
      rw [bitAt_words, hword', hword] at hold
      dsimp only at hold
      rw [if_pos hword', hold, ← decide_not, ← Bool.decide_and, decide_eq_decide, Finset.mem_erase]
      constructor
      · exact fun hi => ⟨fun heq => hi.2 (by rw [heq]), hi.1⟩
      · exact fun hi => ⟨hi.2, fun heq => hi.1 (by omega)⟩
    · rw [if_neg hword', decide_eq_decide, Finset.mem_erase]
      exact ⟨fun hi => ⟨fun heq => hword' (by rw [heq]), hi⟩, And.right⟩

end Counted

/-! ### Intersections -/

theorem getElem?_intersectLoop (ls rs : List TinySet) (i : Nat) :
    (BitSet.intersectLoop ls rs).1[i]? =
      ls[i]?.map fun left =>
        match rs[i]? with
        | some right => left.intersect right
        | none => left := by
  induction ls generalizing rs i with
  | nil => rfl
  | cons left ls ih =>
    cases rs with
    | nil =>
      show (left :: ls)[i]? = (left :: ls)[i]?.map fun left => left
      simp
    | cons right rs =>
      cases i with
      | zero => rfl
      | succ i => exact ih rs i

/-- The words of an intersection have the bits of both, as far as the other words go. -/
theorem bitAt_intersectLoop (ls rs : List TinySet) (el : Nat) :
    bitAt (words (BitSet.intersectLoop ls rs).1) el =
      (bitAt (words ls) el && (decide (rs.length ≤ el / 64) || bitAt (words rs) el)) := by
  rw [bitAt_words, bitAt_words, bitAt_words, getElem?_intersectLoop]
  cases ls[el / 64]? with
  | none => rfl
  | some left =>
    cases hright : rs[el / 64]? with
    | none =>
      simp [decide_eq_true (List.getElem?_eq_none_iff.mp hright)]
    | some right =>
      obtain ⟨hlt, -⟩ := List.getElem?_eq_some_iff.mp hright
      rw [decide_eq_false (Nat.not_le.mpr hlt), Bool.false_or]
      show (left.bits &&& right.bits).getLsbD _ = _
      simp

theorem length_intersectLoop (ls rs : List TinySet) :
    (BitSet.intersectLoop ls rs).1.length = ls.length := by
  induction ls generalizing rs with
  | nil => rfl
  | cons left ls ih =>
    cases rs with
    | nil => rfl
    | cons right rs => exact congrArg Nat.succ (ih rs)

/-- The sum is that of all words when those that are left out are empty. -/
theorem sum_intersectLoop {ls rs : List TinySet}
    (hrest : ∀ tinyset ∈ ls.drop rs.length, tinyset.len = 0) :
    (BitSet.intersectLoop ls rs).2 = ((BitSet.intersectLoop ls rs).1.map TinySet.len).sum := by
  induction ls generalizing rs with
  | nil => rfl
  | cons left ls ih =>
    cases rs with
    | nil =>
      refine (List.sum_eq_zero fun n hn => ?_).symm
      obtain ⟨tinyset, hmem, rfl⟩ := List.mem_map.mp hn
      exact hrest tinyset hmem
    | cons right rs => exact congrArg _ (ih hrest)

theorem length_iterTinysets (r : ReadOnlyBitSet) : r.iterTinysets.length = r.data.length / 8 := by
  have haligned := r.aligned
  rw [ReadOnlyBitSet.iterTinysets, List.length_map, length_chunks (by decide)]
  omega

/-- The calls that do not lose the count: `clear` on an empty set, and an intersection with data
    that goes as far as the set. -/
def BitSetOp.Keeps {maxValue : Nat} (s : Finset Nat) : BitSetOp maxValue → Prop
  | .insert _ => True
  | .remove _ => True
  | .clear => s = ∅
  | .intersectUpdate other _ => ∀ el ∈ s, el / 8 < other.data.length

namespace Counted

variable {b : BitSet} {maxValue : Nat} {s : Finset Nat} (h : Counted b maxValue s)

include h

theorem clear (hempty : s = ∅) : Counted b.clear maxValue ∅ := by
  refine ⟨⟨(List.length_map _).trans h.buckets, h.maxValue_eq, ?_,
    fun el hel => absurd hel (Finset.notMem_empty el)⟩, by rw [← hempty]; exact h.len⟩
  intro el
  rw [bitAt_words, decide_eq_false (Finset.notMem_empty el)]
  show (match (b.tinysets.map fun _ => TinySet.empty)[el / 64]? with
    | some tinyset => tinyset.bits.getLsbD (el % 64)
    | none => false) = false
  rw [List.getElem?_map]
  cases b.tinysets[el / 64]? with
  | none => rfl
  | some tinyset => exact BitVec.getLsbD_zero

/-- The words behind those of another set are empty when the set does not go so far. -/
theorem len_of_mem_drop {k : Nat} (hk : ∀ el ∈ s, el / 64 < k) :
    ∀ tinyset ∈ b.tinysets.drop k, tinyset.len = 0 := by
  intro tinyset hmem
  obtain ⟨i, hi, rfl⟩ := List.getElem_of_mem hmem
  have hzero : (b.tinysets.drop k)[i].bits = 0#64 := by
    apply BitVec.eq_of_getLsbD_eq
    intro j hj
    have hbit := h.mem ((k + i) * 64 + j)
    have hdiv : ((k + i) * 64 + j) / 64 = k + i := by omega
    have hmod : ((k + i) * 64 + j) % 64 = j := by omega
    have hword := List.getElem?_eq_getElem hi
    rw [List.getElem?_drop] at hword
    rw [bitAt_words, hdiv, hword, hmod] at hbit
    dsimp only at hbit
    rw [hbit, BitVec.getLsbD_zero, decide_eq_false_iff_not]
    intro hel
    have hlt := hk _ hel
    omega
  rw [TinySet.len, hzero, BitVec.cpop_zero]
  rfl

theorem intersectUpdate {other : ReadOnlyBitSet} (hsame : other.maxValue = maxValue)
    (hdata : ∀ el ∈ s, el / 8 < other.data.length) :
    Counted (b.intersectUpdate other) maxValue (s ∩ other.toFinset) := by
  have hfar : ∀ el ∈ s, el / 64 < other.iterTinysets.length := by
    intro el hel
    have hlt := hdata el hel
    have haligned := other.aligned
    rw [length_iterTinysets]
    omega
  have hholds : Holds (b.intersectUpdate other) maxValue (s ∩ other.toFinset) := by
    refine ⟨(length_intersectLoop _ _).trans h.buckets, h.maxValue_eq, ?_,
      fun el hel => h.below el (Finset.mem_inter.mp hel).1⟩
    intro el
    show bitAt (words (BitSet.intersectLoop b.tinysets other.iterTinysets).1) el = _
    rw [bitAt_intersectLoop, h.mem, ← ReadOnlyBitSet.testBit_data]
    by_cases hel : el ∈ s
    · have hin : el ∈ other.toFinset ↔ (ofLE other.data).testBit el = true := by
        rw [ReadOnlyBitSet.toFinset, Finset.mem_filter, Finset.mem_range, hsame]
        exact and_iff_right (h.below el hel)
      rw [decide_eq_true hel, decide_eq_false (Nat.not_le.mpr (hfar el hel)), Bool.false_or,
        Bool.true_and, Bool.eq_iff_iff, decide_eq_true_iff, Finset.mem_inter, hin]
      exact (and_iff_right hel).symm
    · simp [decide_eq_false hel]
  refine ⟨hholds, ?_⟩
  rw [← hholds.sum_len]
  exact sum_intersectLoop (h.len_of_mem_drop hfar)

/-- **One call** that does not lose the count. -/
theorem step {op : BitSetOp maxValue} (hkeeps : op.Keeps s) (hmax : maxValue < 2 ^ 32)
    (profile : Profile) :
    ∃ b', op.apply profile b = some b' ∧ Counted b' maxValue (op.onSet s) := by
  cases op with
  | insert el => exact h.insert el.isLt hmax profile
  | remove el => exact h.remove el.isLt profile
  | clear => exact ⟨b.clear, rfl, h.clear hkeeps⟩
  | intersectUpdate other hsame =>
    exact ⟨b.intersectUpdate other, rfl, h.intersectUpdate hsame hkeeps⟩

end Counted

/-! ### Runs -/

section Runs

variable {maxValue : Nat} (profile : Profile) (start : Start)

variable (ops : List (BitSetOp maxValue))

theorem run_append (op : BitSetOp maxValue) :
    BitSet.run profile start (ops ++ [op]) =
      (BitSet.run profile start ops).bind (op.apply profile ·) := by
  simp [BitSet.run]

theorem setOf_append (op : BitSetOp maxValue) :
    setOf start (ops ++ [op]) = op.onSet (setOf start ops) := by
  simp [setOf]

/-- No call of a run loses the count. -/
def KeepsAll (start : Start) (ops : List (BitSetOp maxValue)) : Prop :=
  ∀ front op back, ops = front ++ op :: back → op.Keeps (setOf start front)

/-- **Any calls** that do not lose the count. -/
theorem counted_run (hmax : maxValue + 63 < 2 ^ 32) {ops : List (BitSetOp maxValue)}
    (hkeeps : KeepsAll start ops) :
    ∃ b, BitSet.run profile start ops = some b ∧ Counted b maxValue (setOf start ops) := by
  induction ops using List.reverseRecOn with
  | nil => exact counted_make hmax profile start
  | append_singleton ops op ih =>
    obtain ⟨b, hrun, hcounted⟩ := ih fun front op' back hops =>
      hkeeps front op' (back ++ [op]) (by rw [hops, List.append_assoc, List.cons_append])
    obtain ⟨b', happly, hcounted'⟩ :=
      hcounted.step (hkeeps ops op [] rfl) (by omega) profile
    refine ⟨b', ?_, ?_⟩
    · rw [run_append, hrun]
      exact happly
    · rwa [setOf_append]

theorem below_setOf : ∀ el ∈ setOf start ops, el < maxValue := by
  induction ops using List.reverseRecOn with
  | nil =>
    cases start with
    | withMaxValue => exact fun el hel => absurd hel (Finset.notMem_empty el)
    | withMaxValueAndFull => exact fun el => Finset.mem_range.mp
  | append_singleton ops op ih =>
    rw [setOf_append]
    cases op with
    | insert el =>
      intro i hi
      rcases Finset.mem_insert.mp hi with rfl | hi
      · exact el.isLt
      · exact ih i hi
    | remove el => exact fun i hi => ih i (Finset.mem_of_mem_erase hi)
    | clear => exact fun i hi => absurd hi (Finset.notMem_empty i)
    | intersectUpdate other hsame => exact fun i hi => ih i (Finset.mem_inter.mp hi).1

/-- In every state of a run the answers are those of the plain set. -/
def AgreesThroughout (ops : List (BitSetOp maxValue)) : Prop :=
  ∀ front back, ops = front ++ back →
    ∃ b, BitSet.run profile start front = some b ∧ b.maxValue = maxValue ∧
      b.Agrees profile (setOf start front)

/-- Where the number of words overflows there is no word for the first element. -/
theorem lt_of_agrees_make {b : BitSet} (hmax : maxValue < 2 ^ 32)
    (hmake : start.make profile maxValue = some b) (hmaxValue : b.maxValue = maxValue)
    (hagrees : b.Agrees profile (start.set maxValue)) : maxValue + 63 < 2 ^ 32 := by
  by_contra hlarge
  have hbuckets : numBuckets profile maxValue = none ∨ numBuckets profile maxValue = some 0 := by
    unfold numBuckets Profile.fit
    rw [if_neg hlarge]
    cases profile with
    | test => exact Or.inl rfl
    | release =>
      right
      show some ((maxValue + 63) % 2 ^ 32 / 64) = some 0
      congr 1
      omega
  have hcontains := hagrees.contains 0 (by omega)
  cases start with
  | withMaxValue =>
    change (numBuckets profile maxValue).map _ = some b at hmake
    rcases hbuckets with hnone | hzero
    · rw [hnone] at hmake
      cases hmake
    · rw [hzero] at hmake
      cases hmake
      cases hcontains
  | withMaxValueAndFull =>
    change BitSet.withMaxValueAndFull profile maxValue = some b at hmake
    rw [BitSet.withMaxValueAndFull] at hmake
    rcases hbuckets with hnone | hzero
    · rw [hnone] at hmake
      cases hmake
    · rw [hzero] at hmake
      dsimp only at hmake
      rw [if_neg (by omega), if_pos rfl] at hmake
      cases hmake

/-- A call whose outcome agrees does not lose the count. -/
theorem keeps_of_agrees {b b' : BitSet} {op : BitSetOp maxValue} {s : Finset Nat}
    (hbelow : ∀ el ∈ s, el < maxValue) (hmaxValue : b.maxValue = maxValue)
    (hmaxValue' : b'.maxValue = maxValue) (happly : op.apply profile b = some b')
    (hagrees : b.Agrees profile s) (hagrees' : b'.Agrees profile (op.onSet s)) : op.Keeps s := by
  cases op with
  | insert el => trivial
  | remove el => trivial
  | clear =>
    -- the count is the one from before, and should be zero
    obtain rfl : b.clear = b' := Option.some.inj happly
    have hlen : b.len = 0 := hagrees'.len
    rw [hagrees.len] at hlen
    exact Finset.card_eq_zero.mp hlen
  | intersectUpdate other hsame =>
    obtain rfl : b.intersectUpdate other = b' := Option.some.inj happly
    intro el hel
    by_contra hfar
    have hnot : el ∉ s ∩ other.toFinset := by
      intro hin
      have hbit := (Finset.mem_filter.mp (Finset.mem_inter.mp hin).2).2
      have hlt : ofLE other.data < 2 ^ el := by
        refine (ofLE_lt other.data).trans_le ?_
        rw [← two_pow_eight_mul]
        exact Nat.pow_le_pow_right (by decide) (by omega)
      rw [Nat.testBit_lt_two_pow hlt] at hbit
      exact Bool.false_ne_true hbit
    -- the word of the element is left as it was
    have hword : (b.intersectUpdate other).tinyset (el / 64) = b.tinyset (el / 64) := by
      have hnone : other.iterTinysets[el / 64]? = none := by
        rw [List.getElem?_eq_none_iff, length_iterTinysets]
        omega
      show (BitSet.intersectLoop b.tinysets other.iterTinysets).1[el / 64]? = b.tinysets[el / 64]?
      rw [getElem?_intersectLoop, hnone]
      exact Option.map_id'
    have hbefore := hagrees.contains el (hmaxValue ▸ hbelow el hel)
    have hafter := hagrees'.contains el (hmaxValue' ▸ hbelow el hel)
    rw [BitSet.contains, hword] at hafter
    rw [BitSet.contains, hafter, decide_eq_true hel] at hbefore
    exact hnot (of_decide_eq_true (Option.some.inj hbefore))

/-- **Bit sets.** In a run, `contains`, the elements and `len` are those of the plain set in every
    state, and so are those of the set that is written and opened, just when the words of the maximum
    can be counted and no call loses the count: `clear` does not set it back, and `intersect_update`
    stops where the other data ends. -/
theorem refines_iff (hmax : maxValue < 2 ^ 32) (ops : List (BitSetOp maxValue)) :
    AgreesThroughout profile start ops ↔ maxValue + 63 < 2 ^ 32 ∧ KeepsAll start ops := by
  constructor
  · intro h
    constructor
    · obtain ⟨b, hrun, hmaxValue, hagrees⟩ := h [] ops rfl
      exact lt_of_agrees_make profile start hmax hrun hmaxValue hagrees
    · intro front op back hops
      obtain ⟨b, hrun, hmaxValue, hagrees⟩ := h front (op :: back) hops
      obtain ⟨b', hrun', hmaxValue', hagrees'⟩ :=
        h (front ++ [op]) back (by rw [hops, List.append_assoc, List.singleton_append])
      rw [run_append, hrun] at hrun'
      rw [setOf_append] at hagrees'
      exact keeps_of_agrees profile (below_setOf start front) hmaxValue hmaxValue' hrun' hagrees
        hagrees'
  · rintro ⟨hwords, hkeeps⟩ front back hops
    have hfront : KeepsAll start front := fun front' op back' hops' =>
      hkeeps front' op (back' ++ back) (by rw [hops, hops', List.append_assoc, List.cons_append])
    obtain ⟨b, hrun, hcounted⟩ := counted_run profile start hwords hfront
    exact ⟨b, hrun, hcounted.maxValue_eq, hcounted.agrees hwords profile⟩

end Runs

/-- A set of numbers below 100, after one is put in and taken out. -/
theorem refines_iff_hundred :
    AgreesThroughout .test .withMaxValue [BitSetOp.insert (70 : Fin 100), .remove 70, .clear] ↔
      100 + 63 < 2 ^ 32 ∧
        KeepsAll .withMaxValue [BitSetOp.insert (70 : Fin 100), .remove 70, .clear] :=
  refines_iff .test .withMaxValue (by decide) [BitSetOp.insert (70 : Fin 100), .remove 70, .clear]

/-- After `clear` the count is still that of the elements from before. -/
theorem clear_keeps_len :
    ¬ AgreesThroughout .release .withMaxValue [BitSetOp.insert (3 : Fin 100), .clear] := by
  intro h
  obtain ⟨b, hrun, -, hagrees⟩ := h [BitSetOp.insert 3, .clear] [] rfl
  have hlen : (BitSet.run .release .withMaxValue [BitSetOp.insert (3 : Fin 100), .clear]).map
      BitSet.len = some 1 := by decide
  rw [hrun] at hlen
  have hset : setOf .withMaxValue [BitSetOp.insert (3 : Fin 100), .clear] = ∅ := rfl
  have hzero := hagrees.len
  rw [hset, Option.some.inj hlen] at hzero
  cases hzero

end TeaclaveCrates.Tantivy.Common
