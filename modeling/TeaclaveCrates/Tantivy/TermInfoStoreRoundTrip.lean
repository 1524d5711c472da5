import TeaclaveCrates.Lib.Blocks
import TeaclaveCrates.Tantivy.RoundTrip
import TeaclaveCrates.Tantivy.TermInfoStore

namespace TeaclaveCrates.Tantivy.FstTermDict

open Lib
open FastFieldCodecs (computeNumBits lt_two_pow_computeNumBits)

/-!
# The store gives back the term infos it was given

* `extractBits_packed` — a number is read where it was packed, at any address;
* `deserializeTermInfo_eq`, `TermInfoBlockMeta.deserialize_eq` — what is stored in full is read
  back;
* `blockNumbers_split` — behind the numbers of an entry come the ends of its ranges, as those of
  the next entry or as the last two numbers;
* `Stored`, `Inv` — a block that is in the two buffers, and the writer between two term infos;
* `term_info_store_round_trip` — `get` on the bytes of the writer.
-/

/-! ### Bits at an address -/

variable {data : Bytes}

theorem readWord_eq {addrByte : Nat} (h : addrByte ≤ data.length) :
    readWord data addrByte = some (ofLE (data.drop addrByte) % 2 ^ 64) := by
  unfold readWord
  by_cases hfull : addrByte + 8 ≤ data.length
  · rw [if_pos hfull, ofLE_take _ (by rw [List.length_drop]; omega)]
    norm_num
  · rw [if_neg hfull, if_pos h]
    have hlen : (data.drop addrByte).length < 8 := by
      rw [List.length_drop]
      omega
    -- the bytes that are left, in front of zeros
    have hpadded : overwrite (List.replicate 8 0) 0 (data.drop addrByte) =
        data.drop addrByte ++ List.replicate (8 - (data.drop addrByte).length) 0 := by
      rw [overwrite, List.take_zero, List.nil_append, Nat.zero_add, List.drop_replicate]
    have hlt : ofLE (data.drop addrByte) < 2 ^ 64 :=
      (ofLE_lt _).trans_le ((Nat.pow_le_pow_right (by decide) hlen.le).trans (by norm_num))
    rw [hpadded, ofLE_append, ofLE_replicate_zero, Nat.mul_zero, Nat.add_zero,
      Nat.mod_eq_of_lt hlt]

theorem extractBits_eq {addrBits numBits : Nat} (hbits : numBits ≤ 56)
    (hdata : addrBits / 8 ≤ data.length) :
    extractBits data addrBits numBits =
      some (ofLE data / 2 ^ addrBits % 2 ^ numBits) := by
  unfold extractBits
  rw [if_pos hbits, readWord_eq hdata]
  show some ((ofLE (data.drop (addrBits / 8)) % 2 ^ 64) >>> (addrBits % 8) &&&
    (1 <<< numBits - 1)) = _
  -- the shift is by 7 bits at most, so that 57 bits of the word are left
  have hwithin : addrBits % 8 + numBits ≤ 64 := by omega
  rw [Nat.shiftRight_eq_div_pow, Nat.one_shiftLeft, Nat.and_two_pow_sub_one_eq_mod,
    mod_div_mod hwithin, ofLE_drop _ hdata, ← two_pow_eight_mul, Nat.div_div_eq_div_mul, ← pow_add,
    Nat.div_add_mod]

/-- **A number is read where it was packed.** -/
theorem extractBits_packed {xs ys : List (Nat × Nat)} {val numBits : Nat}
    (hdata : ofLE data = packed (xs ++ (val, numBits) :: ys)) (hxs : Lib.Fits xs)
    (hval : val < 2 ^ numBits) (hbits : numBits ≤ 56) (hroom : totalBits xs ≤ 8 * data.length) :
    extractBits data (totalBits xs) numBits = some val := by
  rw [extractBits_eq hbits (by omega), hdata, packed_div hxs, packed_mod hval]

/-- The numbers of an entry and the first two behind it, each at its address. -/
theorem extractBits_entry {entries rest : List (Nat × Nat)} {a b c a' b' p q d addr : Nat}
    (hdata : ofLE data =
      packed (entries ++ (a, p) :: (b, q) :: (c, d) :: (a', p) :: (b', q) :: rest))
    (hfits : Lib.Fits (entries ++ [(a, p), (b, q), (c, d), (a', p), (b', q)]))
    (haddr : totalBits entries = addr) (hp : p ≤ 56) (hq : q ≤ 56) (hd : d ≤ 56)
    (hroom : totalBits (entries ++ [(a, p), (b, q), (c, d), (a', p), (b', q)]) ≤
      8 * data.length) :
    extractBits data addr p = some a ∧ extractBits data (addr + p) q = some b ∧
      extractBits data (addr + p + q) d = some c ∧
      extractBits data (addr + (d + p + q)) p = some a' ∧
      extractBits data (addr + p + (d + p + q)) q = some b' := by
  simp only [totalBits_append, totalBits_cons, totalBits_nil, haddr] at hroom
  -- `mid` is what comes between the entries and the number
  have hread : ∀ {val numBits bit : Nat} (mid ys : List (Nat × Nat)),
      mid ++ (val, numBits) :: ys = [(a, p), (b, q), (c, d), (a', p), (b', q)] →
      addr + totalBits mid = bit → numBits ≤ 56 → extractBits data bit numBits = some val := by
    intro val numBits bit mid ys hmid hbit hbits
    have hpacked : ofLE data = packed ((entries ++ mid) ++ (val, numBits) :: (ys ++ rest)) := by
      have hlist : (entries ++ mid) ++ (val, numBits) :: (ys ++ rest) =
          entries ++ ((mid ++ (val, numBits) :: ys) ++ rest) := by simp
      simp [hdata, hlist, hmid]
    have hfits' : ∀ x ∈ (entries ++ mid) ++ [(val, numBits)], x.1 < 2 ^ x.2 := by
      intro x hx
      apply hfits x
      rw [← hmid]
      simp only [List.mem_append, List.mem_cons, List.not_mem_nil, or_false] at hx ⊢
      tauto
    have htotal : totalBits (entries ++ mid) = bit := by rw [totalBits_append, haddr, hbit]
    have hlen : addr + (totalBits mid + (numBits + totalBits ys)) ≤ 8 * data.length := by
      have hbits' := congrArg totalBits hmid
      simp only [totalBits_append, totalBits_cons, totalBits_nil] at hbits'
      omega
    rw [← htotal]
    apply extractBits_packed hpacked
    · exact fun x hx => hfits' x (List.mem_append_left _ hx)
    · exact hfits' (val, numBits) (by simp)
    · exact hbits
    · omega
  refine ⟨hread [] _ rfl rfl hp, hread [(a, p)] _ rfl rfl hq,
    hread [(a, p), (b, q)] _ rfl ?_ hd, hread [(a, p), (b, q), (c, d)] _ rfl ?_ hp,
    hread [(a, p), (b, q), (c, d), (a', p)] _ rfl ?_ hq⟩
  · simp only [totalBits_cons, totalBits_nil]
    omega
  · simp only [totalBits_cons, totalBits_nil]
    omega
  · simp only [totalBits_cons, totalBits_nil]
    omega

/-- Numbers below 2^56 are packed in their own width. -/
theorem computeNumBits_le_of_lt {n : Nat} (h : n < 2 ^ 56) : computeNumBits n ≤ 56 := by
  unfold computeNumBits
  have hlog : (if n = 0 then 0 else Nat.log2 n + 1) ≤ 56 := by
    split
    · omega
    · rename_i hn
      exact (Nat.log2_lt hn).mpr h
  rw [if_pos hlog]
  exact hlog

/-- The bytes of a packer that is flushed spell the numbers. -/
theorem flushed_spec {xs : List (Nat × Nat)} (hxs : ∀ x ∈ xs, x.1 < 2 ^ x.2 ∧ x.2 ≤ 64) :
    ofLE (flushed xs) = packed xs ∧ totalBits xs ≤ 8 * (flushed xs).length := by
  obtain ⟨hvalue, hlength⟩ := FastFieldCodecs.BitPacker.pack_spec hxs
  -- `close` differs in the bytes of padding
  have hpack : FastFieldCodecs.BitPacker.pack xs = flushed xs ++ List.replicate 7 0 := by
    rw [flushed, List.append_assoc]
    rfl
  rw [hpack] at hvalue hlength
  constructor
  · rw [← hvalue, ofLE_append, ofLE_replicate_zero, Nat.mul_zero, Nat.add_zero]
  · rw [List.length_append, List.length_replicate] at hlength
    omega

/-! ### What is stored in full -/

theorem readNumber_append {width n : Nat} (h : n < 256 ^ width) (reader : Bytes) :
    readNumber width (toLE width n ++ reader) = some (n, reader) := by
  simp [readNumber, List.take_left' (length_toLE width n), List.drop_left' (length_toLE width n),
    ofLE_toLE h]

/-- A term info with offsets and lengths that the store has room for. -/
structure Storable (termInfo : TermInfo) : Prop where
  postings_ordered : termInfo.postingsRange.Ordered
  positions_ordered : termInfo.positionsRange.Ordered
  postings_stop : termInfo.postingsRange.stop.toNat < 2 ^ 56
  positions_stop : termInfo.positionsRange.stop.toNat < 2 ^ 56
  postings_len : termInfo.postingsRange.len.toNat < 2 ^ 32
  positions_len : termInfo.positionsRange.len.toNat < 2 ^ 32

instance (termInfo : TermInfo) : Decidable (Storable termInfo) :=
  decidable_of_iff
    ((termInfo.postingsRange.Ordered ∧ termInfo.positionsRange.Ordered) ∧
      (termInfo.postingsRange.stop.toNat < 2 ^ 56 ∧ termInfo.positionsRange.stop.toNat < 2 ^ 56) ∧
      termInfo.postingsRange.len.toNat < 2 ^ 32 ∧ termInfo.positionsRange.len.toNat < 2 ^ 32)
    ⟨fun h => ⟨h.1.1, h.1.2, h.2.1.1, h.2.1.2, h.2.2.1, h.2.2.2⟩,
      fun h => ⟨⟨h.postings_ordered, h.positions_ordered⟩, ⟨h.postings_stop, h.positions_stop⟩,
        h.postings_len, h.positions_len⟩⟩

/-- The bytes of a term info. -/
def termInfoBytes (termInfo : TermInfo) : Bytes :=
  toLE 4 termInfo.docFreq.toNat ++ toLE 8 termInfo.postingsRange.start.toNat ++
    toLE 4 termInfo.postingsRange.len.toNat ++ toLE 8 termInfo.positionsRange.start.toNat ++
    toLE 4 termInfo.positionsRange.len.toNat

theorem serializeTermInfo_eq {termInfo : TermInfo} (h : Storable termInfo) :
    serializeTermInfo termInfo = some (termInfoBytes termInfo) := by
  have hpostings : numBytes termInfo.postingsRange = some termInfo.postingsRange.len.toNat :=
    if_pos (Nat.le_sub_one_of_lt h.postings_len)
  have hpositions : numBytes termInfo.positionsRange = some termInfo.positionsRange.len.toNat :=
    if_pos (Nat.le_sub_one_of_lt h.positions_len)
  unfold serializeTermInfo
  rw [hpostings, hpositions]
  rfl

theorem deserializeTermInfo_eq {termInfo : TermInfo} (h : Storable termInfo) (reader : Bytes) :
    deserializeTermInfo (termInfoBytes termInfo ++ reader) = some (termInfo, reader) := by
  have h32 : ∀ {n : Nat}, n < 2 ^ 32 → n < 256 ^ 4 := fun hn => lt_of_lt_of_eq hn (by norm_num)
  have h64 : ∀ n : UInt64, n.toNat < 256 ^ 8 := fun n => lt_of_lt_of_eq n.toNat_lt (by norm_num)
  unfold deserializeTermInfo termInfoBytes
  simp only [List.append_assoc]
  rw [readNumber_append (h32 termInfo.docFreq.toNat_lt), Option.bind_eq_bind, Option.bind_some]
  rw [readNumber_append (h64 _), Option.bind_some]
  rw [readNumber_append (h32 h.postings_len), Option.bind_some]
  rw [readNumber_append (h64 _), Option.bind_some]
  rw [readNumber_append (h32 h.positions_len), Option.bind_some]
  rw [@UInt64.ofNat_toNat termInfo.postingsRange.start,
    @UInt64.ofNat_toNat termInfo.positionsRange.start, UInt32.ofNat_toNat,
    FileRange.start_add_len h.postings_ordered, FileRange.start_add_len h.positions_ordered]

/-- The bytes of the first entry of a block and of its widths. -/
def metaBytes (blockMeta : TermInfoBlockMeta) : Bytes :=
  toLE 8 blockMeta.offset.toNat ++ termInfoBytes blockMeta.refTermInfo ++
    [UInt8.ofNat blockMeta.docFreqNbits, UInt8.ofNat blockMeta.postingsOffsetNbits,
      UInt8.ofNat blockMeta.positionsOffsetNbits]

theorem length_metaBytes (blockMeta : TermInfoBlockMeta) :
    (metaBytes blockMeta).length = TermInfoBlockMeta.SIZE_IN_BYTES := by
  simp [metaBytes, termInfoBytes, TermInfoBlockMeta.SIZE_IN_BYTES]

namespace TermInfoBlockMeta

variable {blockMeta : TermInfoBlockMeta}

theorem serialize_eq (h : Storable blockMeta.refTermInfo) :
    blockMeta.serialize = some (metaBytes blockMeta) := by
  unfold serialize
  rw [serializeTermInfo_eq h]
  rfl

theorem deserialize_eq (h : Storable blockMeta.refTermInfo) (hdocFreq : blockMeta.docFreqNbits ≤ 56)
    (hpostings : blockMeta.postingsOffsetNbits ≤ 56)
    (hpositions : blockMeta.positionsOffsetNbits ≤ 56) (reader : Bytes) :
    deserialize (metaBytes blockMeta ++ reader) = some (blockMeta, reader) := by
  have hoffset : blockMeta.offset.toNat < 256 ^ 8 :=
    lt_of_lt_of_eq blockMeta.offset.toNat_lt (by norm_num)
  have hbyte : ∀ {n : Nat}, n ≤ 56 → (UInt8.ofNat n).toNat = n := by
    intro n hn
    rw [UInt8.toNat_ofNat', Nat.mod_eq_of_lt (by omega)]
  unfold deserialize metaBytes
  simp only [List.append_assoc]
  rw [readNumber_append hoffset, Option.bind_eq_bind, Option.bind_some]
  rw [deserializeTermInfo_eq h, Option.bind_eq_bind, Option.bind_some]
  simp [hbyte hdocFreq, hbyte hpostings, hbyte hpositions]

end TermInfoBlockMeta

/-! ### Blocks -/

/-- Both ranges of `a` start and end before those of `b`. -/
def Before (a b : TermInfo) : Prop :=
  (a.postingsRange.start ≤ b.postingsRange.start ∧
      a.postingsRange.stop ≤ b.postingsRange.stop) ∧
    a.positionsRange.start ≤ b.positionsRange.start ∧
      a.positionsRange.stop ≤ b.positionsRange.stop

instance : Std.Refl Before where
  refl _ := ⟨⟨UInt64.le_refl _, UInt64.le_refl _⟩, UInt64.le_refl _, UInt64.le_refl _⟩

instance : Trans Before Before Before where
  trans h h' :=
    ⟨⟨UInt64.le_trans h.1.1 h'.1.1, UInt64.le_trans h.1.2 h'.1.2⟩,
      UInt64.le_trans h.2.1 h'.2.1, UInt64.le_trans h.2.2 h'.2.2⟩

section Block

variable {refTermInfo : TermInfo} {termInfos : List TermInfo}

theorem pairwise_before {l : List TermInfo} (hchain : l.IsChain Follows)
    (hstorable : ∀ t ∈ l, Storable t) : l.Pairwise Before := by
  apply List.isChain_iff_pairwise.mp
  apply hchain.imp_of_mem_imp
  intro a b ha hb hfollows
  have hstop := hfollows.1
  have hstop' := hfollows.2
  refine ⟨⟨?_, ?_⟩, ?_, ?_⟩
  · rw [hstop]
    exact (hstorable a ha).postings_ordered
  · rw [← hstop]
    exact (hstorable b hb).postings_ordered
  · rw [hstop']
    exact (hstorable a ha).positions_ordered
  · rw [← hstop']
    exact (hstorable b hb).positions_ordered

variable {t : TermInfo}

/-- A term info of a block lies between the first and the last one. -/
theorem before_of_mem (hchain : (refTermInfo :: termInfos).IsChain Follows)
    (hstorable : ∀ t ∈ refTermInfo :: termInfos, Storable t) (ht : t ∈ refTermInfo :: termInfos) :
    Before refTermInfo t ∧ Before t (lastTermInfo refTermInfo termInfos) := by
  have hpairwise := pairwise_before hchain hstorable
  refine ⟨?_, hpairwise.rel_getLast ht⟩
  rcases List.mem_cons.mp ht with rfl | ht
  · exact refl_of Before t
  · exact List.rel_of_pairwise_cons hpairwise ht

theorem lastTermInfo_mem (refTermInfo : TermInfo) (termInfos : List TermInfo) :
    lastTermInfo refTermInfo termInfos ∈ refTermInfo :: termInfos :=
  List.getLast_mem _

theorem maxDocFreq_spec (l : List TermInfo) :
    maxDocFreq l < 2 ^ 32 ∧ ∀ t ∈ l, t.docFreq.toNat ≤ maxDocFreq l := by
  -- the maximum so far is kept
  have hfold : ∀ (l : List TermInfo) (m : Nat), m < 2 ^ 32 →
      let max' := l.foldl (fun maxDocFreq termInfo => max maxDocFreq termInfo.docFreq.toNat) m
      max' < 2 ^ 32 ∧ m ≤ max' ∧ ∀ t ∈ l, t.docFreq.toNat ≤ max' := by
    intro l
    induction l with
    | nil => exact fun m hm => ⟨hm, le_rfl, fun t ht => absurd ht (List.not_mem_nil)⟩
    | cons u l ih =>
      intro m hm
      obtain ⟨hlt, hle, hall⟩ := ih (max m u.docFreq.toNat) (max_lt hm u.docFreq.toNat_lt)
      refine ⟨hlt, (le_max_left _ _).trans hle, ?_⟩
      intro t ht
      rcases List.mem_cons.mp ht with rfl | ht
      · exact (le_max_right _ _).trans hle
      · exact hall t ht
  obtain ⟨hlt, -, hall⟩ := hfold l 0 (by decide)
  exact ⟨hlt, hall⟩

/-- The widths of a block. -/
theorem blockMetaOf_nbits (hchain : (refTermInfo :: termInfos).IsChain Follows)
    (hstorable : ∀ t ∈ refTermInfo :: termInfos, Storable t) (offset : UInt64) :
    (blockMetaOf refTermInfo termInfos offset).docFreqNbits ≤ 56 ∧
      (blockMetaOf refTermInfo termInfos offset).postingsOffsetNbits ≤ 56 ∧
      (blockMetaOf refTermInfo termInfos offset).positionsOffsetNbits ≤ 56 := by
  have hlast := hstorable _ (lastTermInfo_mem refTermInfo termInfos)
  obtain ⟨hbefore, -⟩ := before_of_mem hchain hstorable (lastTermInfo_mem _ _)
  have hpostings := UInt64.le_trans hbefore.1.1 hlast.postings_ordered
  have hpositions := UInt64.le_trans hbefore.2.1 hlast.positions_ordered
  refine ⟨computeNumBits_le_of_lt ((maxDocFreq_spec termInfos).1.trans (by norm_num)),
    computeNumBits_le_of_lt ?_, computeNumBits_le_of_lt ?_⟩
  · rw [postingsEndOffset, UInt64.toNat_sub_of_le _ _ hpostings]
    exact (Nat.sub_le _ _).trans_lt hlast.postings_stop
  · rw [positionsEndOffset, UInt64.toNat_sub_of_le _ _ hpositions]
    exact (Nat.sub_le _ _).trans_lt hlast.positions_stop

theorem toNat_sub_le_sub {a b c : UInt64} (hab : a ≤ b) (hbc : b ≤ c) :
    (b - a).toNat ≤ (c - a).toNat := by
  rw [UInt64.toNat_sub_of_le _ _ hab, UInt64.toNat_sub_of_le _ _ (UInt64.le_trans hab hbc)]
  exact Nat.sub_le_sub_right (UInt64.le_iff_toNat_le.mp hbc) _

/-- The numbers of a block fit the widths. -/
theorem blockNumbers_fit (hchain : (refTermInfo :: termInfos).IsChain Follows)
    (hstorable : ∀ t ∈ refTermInfo :: termInfos, Storable t) (offset : UInt64) :
    ∀ x ∈ blockNumbers refTermInfo termInfos (blockMetaOf refTermInfo termInfos offset),
      x.1 < 2 ^ x.2 ∧ x.2 ≤ 64 := by
  obtain ⟨hdocFreq, hpostings, hpositions⟩ := blockMetaOf_nbits hchain hstorable offset
  have hwidth : ∀ {m n : Nat}, m ≤ n → n < 2 ^ 64 → m < 2 ^ computeNumBits n :=
    fun hm hn => lt_two_pow_computeNumBits hm hn
  intro x hx
  rcases List.mem_append.mp hx with hx | hx
  · obtain ⟨u, hu, hx⟩ := List.mem_flatMap.mp hx
    obtain ⟨t, ht, rfl⟩ := List.mem_map.mp hu
    obtain ⟨hfirst, hlast⟩ := before_of_mem hchain hstorable (List.mem_cons_of_mem _ ht)
    have hstorable' := hstorable t (List.mem_cons_of_mem _ ht)
    simp only [bitpackSerialize, relativeTo, List.mem_cons, List.not_mem_nil, or_false] at hx
    rcases hx with rfl | rfl | rfl
    · refine ⟨hwidth ?_ (UInt64.toNat_lt _), by omega⟩
      exact toNat_sub_le_sub hfirst.1.1 (UInt64.le_trans hstorable'.postings_ordered hlast.1.2)
    · refine ⟨hwidth ?_ (UInt64.toNat_lt _), by omega⟩
      exact toNat_sub_le_sub hfirst.2.1 (UInt64.le_trans hstorable'.positions_ordered hlast.2.2)
    · exact ⟨hwidth ((maxDocFreq_spec termInfos).2 t ht)
        ((maxDocFreq_spec termInfos).1.trans (by norm_num)), by omega⟩
  · simp only [List.mem_cons, List.not_mem_nil, or_false] at hx
    rcases hx with rfl | rfl
    · exact ⟨hwidth le_rfl (UInt64.toNat_lt _), by omega⟩
    · exact ⟨hwidth le_rfl (UInt64.toNat_lt _), by omega⟩

/-- Behind the numbers of an entry come the ends of its ranges. -/
theorem blockNumbers_split (refTermInfo : TermInfo) (blockMeta : TermInfoBlockMeta)
    (as : List TermInfo) {bs : List TermInfo} (hchain : (t :: bs).IsChain Follows) :
    ∃ rest, blockNumbers refTermInfo (as ++ t :: bs) blockMeta =
      (as.map (relativeTo refTermInfo)).flatMap (bitpackSerialize blockMeta) ++
        (bitpackSerialize blockMeta (relativeTo refTermInfo t) ++
          ((t.postingsRange.stop - refTermInfo.postingsRange.start).toNat,
              blockMeta.postingsOffsetNbits) ::
            ((t.positionsRange.stop - refTermInfo.positionsRange.start).toNat,
              blockMeta.positionsOffsetNbits) :: rest) := by
  unfold blockNumbers
  rw [List.map_append, List.flatMap_append, List.map_cons, List.flatMap_cons, List.append_assoc]
  cases bs with
  | nil =>
    -- the last entry
    have hlast : lastTermInfo refTermInfo (as ++ [t]) = t := by simp [lastTermInfo]
    refine ⟨[], ?_⟩
    simp [postingsEndOffset, positionsEndOffset, hlast]
  | cons u bs =>
    -- the next entry starts where this one ends
    obtain ⟨hpostings, hpositions⟩ := (List.isChain_cons_cons.mp hchain).1
    refine ⟨(u.docFreq.toNat, blockMeta.docFreqNbits) ::
      ((bs.map (relativeTo refTermInfo)).flatMap (bitpackSerialize blockMeta) ++
        [((postingsEndOffset refTermInfo (as ++ t :: u :: bs)).toNat,
            blockMeta.postingsOffsetNbits),
          ((positionsEndOffset refTermInfo (as ++ t :: u :: bs)).toNat,
            blockMeta.positionsOffsetNbits)]), ?_⟩
    rw [← hpostings, ← hpositions]
    rfl

theorem totalBits_entries (blockMeta : TermInfoBlockMeta) (as : List TermInfo) :
    totalBits (as.flatMap (bitpackSerialize blockMeta)) = blockMeta.numBits * as.length := by
  induction as with
  | nil => rfl
  | cons t as ih =>
    rw [List.flatMap_cons, totalBits_append, ih, List.length_cons, Nat.mul_succ, Nat.add_comm]
    simp only [bitpackSerialize, totalBits_cons, totalBits_nil, TermInfoBlockMeta.numBits]
    omega

/-- **An entry is read from the bits of its block**, whatever comes behind them. -/
theorem TermInfoBlockMeta.deserializeTermInfo_eq
    (hchain : (refTermInfo :: termInfos).IsChain Follows)
    (hstorable : ∀ t ∈ refTermInfo :: termInfos, Storable t) (offset : UInt64)
    (hlen : termInfos.length < BLOCK_LEN) (rest : Bytes) {j : Nat} (ht : termInfos[j]? = some t) :
    (blockMetaOf refTermInfo termInfos offset).deserializeTermInfo
      (flushed (blockNumbers refTermInfo termInfos (blockMetaOf refTermInfo termInfos offset)) ++
        rest) j = some t := by
  obtain ⟨hdocFreq, hpostings, hpositions⟩ := blockMetaOf_nbits hchain hstorable offset
  have hfit := blockNumbers_fit hchain hstorable offset
  set blockMeta := blockMetaOf refTermInfo termInfos offset with hblockMeta
  -- the numbers, and others behind them
  obtain ⟨hvalue, hroom⟩ := flushed_spec hfit
  obtain ⟨post, hdata⟩ := exists_packed_append hvalue hroom rest
  have hroom' : totalBits (blockNumbers refTermInfo termInfos blockMeta) ≤
      8 * (flushed (blockNumbers refTermInfo termInfos blockMeta) ++ rest).length := by
    rw [List.length_append]
    omega
  generalize flushed (blockNumbers refTermInfo termInfos blockMeta) ++ rest = data
    at hdata hroom' ⊢
  obtain ⟨hj, hget⟩ := List.getElem?_eq_some_iff.mp ht
  have hsplit : termInfos = termInfos.take j ++ t :: termInfos.drop (j + 1) := by
    conv_lhs => rw [← List.take_append_drop j termInfos, List.drop_eq_getElem_cons hj, hget]
  have hchain' : (t :: termInfos.drop (j + 1)).IsChain Follows := by
    rw [hsplit, ← List.cons_append] at hchain
    exact hchain.right_of_append
  obtain ⟨tail, hnumbers⟩ :=
    blockNumbers_split refTermInfo blockMeta (termInfos.take j) hchain'
  rw [← hsplit] at hnumbers
  have hbefore := totalBits_entries blockMeta ((termInfos.take j).map (relativeTo refTermInfo))
  rw [List.length_map, List.length_take, Nat.min_eq_left hj.le] at hbefore
  simp only [bitpackSerialize, relativeTo, List.cons_append, List.nil_append] at hnumbers
  rw [hnumbers] at hdata hfit hroom'
  rw [List.append_assoc, List.cons_append] at hdata
  obtain ⟨h₁, h₂, h₃, h₄, h₅⟩ := extractBits_entry hdata
    (fun x hx => (hfit x (by
      simp only [List.mem_append, List.mem_cons, List.not_mem_nil, or_false] at hx ⊢
      tauto)).1) hbefore hpostings hpositions hdocFreq (by
      simp only [totalBits_append, totalBits_cons, totalBits_nil] at hroom' ⊢
      omega)
  have hadd : ∀ x y : UInt64, x + UInt64.ofNat (y - x).toNat = y := by
    intro x y
    rw [UInt64.ofNat_toNat, UInt64.add_comm, UInt64.sub_add_cancel]
  unfold TermInfoBlockMeta.deserializeTermInfo
  rw [if_pos (by omega)]
  have href : blockMeta.refTermInfo = refTermInfo := rfl
  simp only [TermInfoBlockMeta.numBits] at h₁ h₂ h₃ h₄ h₅ ⊢
  simp only [h₁, h₂, h₃, h₄, h₅, href, hadd, Option.bind_eq_bind, Option.bind_some,
    UInt32.ofNat_toNat]

end Block

/-! ### What the writer keeps -/

/-- Block `j` of the two buffers. -/
def Stored (metas bits : Bytes) (j : Nat) (block : List TermInfo) : Prop :=
  ∃ refTermInfo termInfos offset, block = refTermInfo :: termInfos ∧
    (∃ before after, before.length = j * TermInfoBlockMeta.SIZE_IN_BYTES ∧
      metas = before ++
        (metaBytes (blockMetaOf refTermInfo termInfos (UInt64.ofNat offset)) ++ after)) ∧
    ∃ before after, before.length = offset ∧
      bits = before ++ (flushed (blockNumbers refTermInfo termInfos
        (blockMetaOf refTermInfo termInfos (UInt64.ofNat offset))) ++ after)

theorem Stored.append {metas bits : Bytes} {j : Nat} {block : List TermInfo}
    (h : Stored metas bits j block) (metas' bits' : Bytes) :
    Stored (metas ++ metas') (bits ++ bits') j block := by
  obtain ⟨refTermInfo, termInfos, offset, rfl, ⟨before, after, hbefore, rfl⟩, before', after',
    hbefore', rfl⟩ := h
  exact ⟨refTermInfo, termInfos, offset, rfl,
    ⟨before, after ++ metas', hbefore, by simp only [List.append_assoc]⟩,
    before', after' ++ bits', hbefore', by simp only [List.append_assoc]⟩

namespace TermInfoStoreWriter

/-- The blocks are in the two buffers. -/
structure Holds (w : TermInfoStoreWriter) (blocks : List (List TermInfo)) : Prop where
  metas_length : w.bufferBlockMetas.length = blocks.length * TermInfoBlockMeta.SIZE_IN_BYTES
  stored : ∀ j block, blocks[j]? = some block →
    Stored w.bufferBlockMetas w.bufferTermInfos j block

variable {w : TermInfoStoreWriter}

theorem flushBlock_spec {blocks : List (List TermInfo)} (h : Holds w blocks)
    (hne : w.termInfos ≠ []) (hstorable : ∀ t ∈ w.termInfos, Storable t) :
    ∃ w', w.flushBlock = some w' ∧ Holds w' (blocks ++ [w.termInfos]) ∧ w'.termInfos = [] ∧
      w'.numTerms = w.numTerms := by
  obtain ⟨metas, bits, block, numTerms⟩ := w
  obtain ⟨refTermInfo, termInfos, rfl⟩ := List.exists_cons_of_ne_nil hne
  set blockMeta := blockMetaOf refTermInfo termInfos (UInt64.ofNat bits.length) with hblockMeta
  have hserialize : blockMeta.serialize = some (metaBytes blockMeta) :=
    TermInfoBlockMeta.serialize_eq (hstorable refTermInfo List.mem_cons_self)
  have hflush : flushBlock ⟨metas, bits, refTermInfo :: termInfos, numTerms⟩ =
      some ⟨metas ++ metaBytes blockMeta,
        bits ++ flushed (blockNumbers refTermInfo termInfos blockMeta), [], numTerms⟩ := by
    unfold flushBlock
    dsimp only
    rw [← hblockMeta, hserialize]
    rfl
  refine ⟨_, hflush, ⟨?_, ?_⟩, rfl, rfl⟩
  · show (metas ++ metaBytes blockMeta).length = _
    rw [List.length_append, h.metas_length, length_metaBytes, List.length_append,
      List.length_singleton, Nat.succ_mul]
  · intro j block hblock
    rcases Nat.lt_or_ge j blocks.length with hj | hj
    · rw [List.getElem?_append_left hj] at hblock
      exact (h.stored j block hblock).append _ _
    · -- the block that comes in
      rw [List.getElem?_append_right hj, List.getElem?_singleton] at hblock
      obtain ⟨hzero, hblock⟩ := Option.ite_none_right_eq_some.mp hblock
      cases hblock
      have hlast : j = blocks.length := by omega
      refine ⟨refTermInfo, termInfos, bits.length, rfl, ⟨metas, [], ?_, ?_⟩, bits, [], rfl, ?_⟩
      · rw [h.metas_length, hlast]
      · rw [List.append_nil]
      · rw [List.append_nil]

/-- The writer between two term infos. -/
structure Inv (w : TermInfoStoreWriter) (written : List TermInfo) : Prop where
  holds : Holds w (fullBlocks BLOCK_LEN written)
  termInfos : w.termInfos = tailBlock BLOCK_LEN written
  numTerms : w.numTerms = UInt64.ofNat written.length

theorem inv_new : Inv new [] where
  holds := ⟨by simp [new], fun j block hblock => by simp at hblock⟩
  termInfos := by simp [new]
  numTerms := rfl

variable {written : List TermInfo}

/-- One term info more. -/
theorem Inv.writeTermInfo (h : Inv w written) {termInfo : TermInfo}
    (hstorable : ∀ t ∈ written ++ [termInfo], Storable t) :
    ∃ w', w.writeTermInfo termInfo = some w' ∧ Inv w' (written ++ [termInfo]) := by
  have hlt : (tailBlock BLOCK_LEN written).length < BLOCK_LEN := length_tailBlock_lt (by decide)
  have hnum : w.numTerms + 1 = UInt64.ofNat (written ++ [termInfo]).length := by
    rw [h.numTerms, List.length_append, List.length_singleton, UInt64.ofNat_add]
    rfl
  unfold TermInfoStoreWriter.writeTermInfo
  rw [h.termInfos]
  by_cases hfull : BLOCK_LEN ≤ (tailBlock BLOCK_LEN written ++ [termInfo]).length
  · rw [if_pos hfull]
    -- the block is full and goes out
    have hlen : written.length % BLOCK_LEN + [termInfo].length = BLOCK_LEN := by
      rw [List.length_append, length_tailBlock, List.length_singleton] at hfull
      rw [length_tailBlock] at hlt
      rw [List.length_singleton]
      omega
    obtain ⟨hblocks, htail⟩ := fullBlocks_append_full (by decide) hlen
    have hholds : Holds { w with
        numTerms := w.numTerms + 1
        termInfos := tailBlock BLOCK_LEN written ++ [termInfo] } (fullBlocks BLOCK_LEN written) :=
      ⟨h.holds.metas_length, h.holds.stored⟩
    obtain ⟨w', hflush, hholds', hempty, hnum'⟩ := flushBlock_spec hholds (by simp)
      (fun t ht => hstorable t (by
        rcases List.mem_append.mp ht with ht | ht
        · exact List.mem_append_left _ (List.mem_of_mem_drop ht)
        · exact List.mem_append_right _ ht))
    refine ⟨w', hflush, ?_, ?_, ?_⟩
    · rwa [hblocks]
    · rw [hempty, htail]
    · rw [hnum', hnum]
  · rw [if_neg hfull]
    have hlen : written.length % BLOCK_LEN + [termInfo].length < BLOCK_LEN := by
      rw [List.length_append, length_tailBlock] at hfull
      omega
    obtain ⟨hblocks, htail⟩ := fullBlocks_append hlen
    refine ⟨_, rfl, ⟨?_, ?_⟩, ?_, hnum⟩
    · rw [hblocks]
      exact h.holds.metas_length
    · rw [hblocks]
      exact h.holds.stored
    · rw [htail]

/-- The bytes of the writer, with every block in them. -/
theorem Inv.serialize (h : Inv w written) (hstorable : ∀ t ∈ written, Storable t) :
    ∃ metas bits, w.serialize = some (toLE 8 metas.length ++
        toLE 8 (UInt64.ofNat written.length).toNat ++ metas ++ bits) ∧
      ∀ i < written.length, Stored metas bits (i / BLOCK_LEN)
        (block BLOCK_LEN written (i / BLOCK_LEN)) := by
  have hpos : 0 < BLOCK_LEN := by decide
  -- a term info is in a full block or in the tail
  have hdiv : ∀ i < written.length, i / BLOCK_LEN < written.length / BLOCK_LEN ∨
      i / BLOCK_LEN = written.length / BLOCK_LEN := by
    intro i hi
    exact Nat.lt_or_eq_of_le (Nat.div_le_div_right hi.le)
  unfold TermInfoStoreWriter.serialize
  by_cases hempty : w.termInfos = []
  · rw [if_neg (by simpa using hempty)]
    refine ⟨w.bufferBlockMetas, w.bufferTermInfos, ?_, ?_⟩
    · rw [← h.numTerms]
      rfl
    · intro i hi
      have htail : written.length % BLOCK_LEN = 0 := by
        rw [← length_tailBlock, ← h.termInfos, hempty, List.length_nil]
      have hlt : i / BLOCK_LEN < written.length / BLOCK_LEN := by
        apply (Nat.div_lt_iff_lt_mul hpos).mpr
        have hsum := Nat.div_add_mod' written.length BLOCK_LEN
        omega
      exact h.holds.stored _ _ (getElem?_fullBlocks hlt)
  · rw [if_pos hempty]
    obtain ⟨w', hflush, hholds, -, hnum⟩ := flushBlock_spec h.holds hempty (fun t ht =>
      hstorable t (by rw [h.termInfos] at ht; exact List.mem_of_mem_drop ht))
    refine ⟨w'.bufferBlockMetas, w'.bufferTermInfos, ?_, ?_⟩
    · rw [hflush, ← h.numTerms, ← hnum]
      rfl
    · intro i hi
      apply hholds.stored
      rcases hdiv i hi with hlt | heq
      · rw [List.getElem?_append_left (by rwa [length_fullBlocks]), getElem?_fullBlocks hlt]
      · rw [heq, block_length_div hpos, ← h.termInfos, ← length_fullBlocks,
          List.getElem?_concat_length]

/-- **What is written.** One block behind the other, with the number of the term infos. -/
theorem Inv.write (h : Inv w written) (infos : List TermInfo)
    (hstorable : ∀ t ∈ written ++ infos, Storable t) :
    ∃ metas bits, w.write infos = some (toLE 8 metas.length ++
        toLE 8 (UInt64.ofNat (written ++ infos).length).toNat ++ metas ++ bits) ∧
      ∀ i < (written ++ infos).length, Stored metas bits (i / BLOCK_LEN)
        (block BLOCK_LEN (written ++ infos) (i / BLOCK_LEN)) := by
  induction infos generalizing w written with
  | nil =>
    rw [List.append_nil] at hstorable ⊢
    exact h.serialize hstorable
  | cons termInfo infos ih =>
    rw [List.append_cons] at hstorable ⊢
    have hnext : ∀ t ∈ written ++ [termInfo], Storable t :=
      fun t ht => hstorable t (List.mem_append_left _ ht)
    obtain ⟨w', hwrite, hinv⟩ := h.writeTermInfo hnext
    obtain ⟨metas, bits, hrest, hstored⟩ := ih hinv hstorable
    refine ⟨metas, bits, ?_, hstored⟩
    rw [TermInfoStoreWriter.write, hwrite]
    exact hrest

end TermInfoStoreWriter

/-! ### What the reader finds -/

section Read

variable {metas bits : Bytes}

theorem open_eq (n : Nat) (hmetas : metas.length < 2 ^ 64) :
    TermInfoStore.open (toLE 8 metas.length ++ toLE 8 (UInt64.ofNat n).toNat ++ metas ++ bits) =
      some ⟨UInt64.ofNat n, metas, bits⟩ := by
  have h64 : ∀ {m : Nat}, m < 2 ^ 64 → m < 256 ^ 8 := fun hm => lt_of_lt_of_eq hm (by norm_num)
  unfold TermInfoStore.open
  simp only [List.append_assoc]
  rw [readNumber_append (h64 hmetas), Option.bind_eq_bind, Option.bind_some]
  rw [readNumber_append (h64 (UInt64.toNat_lt _)), Option.bind_some]
  rw [if_pos (by rw [List.length_append]; omega), List.take_left, List.drop_left,
    UInt64.ofNat_toNat]

/-- Reading an entry of a block that is stored. -/
theorem get_stored {n : UInt64} {block : List TermInfo} {i : Nat}
    (hstored : Stored metas bits (i / BLOCK_LEN) block) (hbits : bits.length < 2 ^ 64)
    (hchain : block.IsChain Follows) (hstorable : ∀ t ∈ block, Storable t)
    (hlen : block.length ≤ BLOCK_LEN) {t : TermInfo} (ht : block[i % BLOCK_LEN]? = some t) :
    TermInfoStore.get ⟨n, metas, bits⟩ i = some t := by
  obtain ⟨refTermInfo, termInfos, offset, rfl, ⟨before, after, hbefore, rfl⟩, before', after',
    hbefore', rfl⟩ := hstored
  obtain ⟨hdocFreq, hpostings, hpositions⟩ :=
    blockMetaOf_nbits hchain hstorable (UInt64.ofNat offset)
  have hmeta := TermInfoBlockMeta.deserialize_eq
    (hstorable refTermInfo List.mem_cons_self) hdocFreq hpostings hpositions after
  unfold TermInfoStore.get
  dsimp only
  rw [← hbefore, if_pos (by rw [List.length_append]; omega), List.drop_left,
    Option.bind_eq_bind, Option.bind_some, hmeta, Option.bind_eq_bind, Option.bind_some]
  by_cases hzero : i % BLOCK_LEN = 0
  · -- the first entry is not packed
    rw [if_pos hzero]
    rw [hzero] at ht
    exact ht
  · rw [if_neg hzero]
    obtain ⟨j, hj⟩ := Nat.exists_eq_succ_of_ne_zero hzero
    rw [hj, List.getElem?_cons_succ] at ht
    have hoffset : (blockMetaOf refTermInfo termInfos (UInt64.ofNat offset)).offset.toNat =
        before'.length := by
      rw [hbefore']
      apply UInt64.toNat_ofNat_of_lt
      rw [List.length_append] at hbits
      exact lt_of_le_of_lt (by omega) hbits
    have hlen' : termInfos.length < BLOCK_LEN := hlen
    rw [hoffset, if_pos (by rw [List.length_append]; omega), List.drop_left, hj, Nat.succ_sub_one]
    exact TermInfoBlockMeta.deserializeTermInfo_eq hchain hstorable _ hlen' after' ht

end Read

/-- **The store gives back the term infos.** Their ranges are contiguous, and the store has room
    for their offsets and lengths. -/
theorem term_info_store_round_trip (infos : List TermInfo) (hchain : infos.IsChain Follows)
    (hstorable : ∀ t ∈ infos, Storable t) (hnum : infos.length < 2 ^ 64) :
    ∃ bytes, TermInfoStoreWriter.new.write infos = some bytes ∧
      (bytes.length < 2 ^ 64 →
        ∃ store, TermInfoStore.open bytes = some store ∧
          store.numTerms.toNat = infos.length ∧
          ∀ i t, infos[i]? = some t → store.get i = some t) := by
  obtain ⟨metas, bits, hwrite, hstored⟩ := TermInfoStoreWriter.inv_new.write infos
    (by rwa [List.nil_append])
  rw [List.nil_append] at hwrite hstored
  refine ⟨_, hwrite, ?_⟩
  intro hbytes
  rw [List.length_append, List.length_append] at hbytes
  have hmetas : metas.length < 2 ^ 64 := lt_of_le_of_lt (by omega) hbytes
  have hbits : bits.length < 2 ^ 64 := lt_of_le_of_lt (by omega) hbytes
  refine ⟨_, open_eq infos.length hmetas, UInt64.toNat_ofNat_of_lt hnum, ?_⟩
  intro i t ht
  obtain ⟨hi, -⟩ := List.getElem?_eq_some_iff.mp ht
  have hmem : ∀ u ∈ block BLOCK_LEN infos (i / BLOCK_LEN), u ∈ infos :=
    fun u hu => List.mem_of_mem_drop (List.mem_of_mem_take hu)
  have hlen : (block BLOCK_LEN infos (i / BLOCK_LEN)).length ≤ BLOCK_LEN := by
    rw [block, List.length_take]
    exact min_le_left _ _
  apply get_stored (hstored i hi) hbits
  · exact (hchain.drop _).take _
  · exact fun u hu => hstorable u (hmem u hu)
  · exact hlen
  · have hmod : i % BLOCK_LEN < BLOCK_LEN := Nat.mod_lt _ (by decide)
    rw [block, List.getElem?_take_of_lt hmod, List.getElem?_drop, Nat.div_add_mod]
    exact ht

/-- Three terms, of which the second has no positions. -/
def threeTermInfos : List TermInfo :=
  [⟨1, ⟨0, 10⟩, ⟨0, 4⟩⟩, ⟨2, ⟨10, 25⟩, ⟨4, 4⟩⟩, ⟨1, ⟨25, 26⟩, ⟨4, 9⟩⟩]

theorem term_info_store_round_trip_three :
    ∃ bytes store, TermInfoStoreWriter.new.write threeTermInfos = some bytes ∧
      TermInfoStore.open bytes = some store ∧ store.numTerms.toNat = 3 ∧
      ∀ i t, threeTermInfos[i]? = some t → store.get i = some t := by
  obtain ⟨bytes, hwrite, hread⟩ :=
    term_info_store_round_trip threeTermInfos (by decide) (by decide) (by decide)
  have hlen : (TermInfoStoreWriter.new.write threeTermInfos).map List.length = some 59 := by
    decide +kernel
  rw [hwrite, Option.map_some, Option.some_inj] at hlen
  obtain ⟨store, hopen, hnum, hget⟩ := hread (by rw [hlen]; decide)
  exact ⟨bytes, store, hwrite, hopen, hnum, hget⟩

end TeaclaveCrates.Tantivy.FstTermDict
