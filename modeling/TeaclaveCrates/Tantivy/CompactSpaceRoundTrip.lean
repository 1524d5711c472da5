import TeaclaveCrates.Tantivy.CompactSpaceNumbers

namespace TeaclaveCrates.Tantivy.FastFieldCodecs

open TeaclaveCrates.Lib
open CompactSpaceBuilder (withStarts)

/-!
# Columns in a compact space

Positions within the packed numbers are computed on 32 bits, so that the columns that are read back
are those whose numbers end before 2^32 bits, and those where the reads that wrap around happen to
find the right bits.

* `spaceOf`, `paramsOf` — what is trained for some values.
* `trainFrom_eq`, `compressInto_eq`, `openFrom_eq` — writing and opening.
* `roundTrip_iff_bitsRead` — reading back; `length_footer_lt` — a short column has a short footer.
* `compactSpace_roundTrip` — both together.
-/

variable (pops : List BlankRange → List BlankRange) (vals : List Nat)

/-- Bits below a position do not depend on what is added from this position on. -/
theorem add_mul_div_mod {a b n pos w : Nat} (h : pos + w ≤ n) :
    (a + 2 ^ n * b) / 2 ^ pos % 2 ^ w = a / 2 ^ pos % 2 ^ w := by
  obtain ⟨k, rfl⟩ : ∃ k, n = pos + (w + k) := ⟨n - pos - w, by omega⟩
  have hsum : a + 2 ^ (pos + (w + k)) * b = a + 2 ^ pos * (2 ^ w * (2 ^ k * b)) := by
    rw [Nat.pow_add, Nat.pow_add]
    ring
  rw [hsum, Nat.add_mul_div_left _ _ (Nat.two_pow_pos pos), Nat.add_mul_mod_self_left]

/-- The space of some values. -/
def spaceOf : CompactSpace :=
  (getCompactSpace pops (btreeSet vals) vals.length costPerBlankInBits).getD ⟨[]⟩

/-- The number of a value, 0 for one that is not covered. -/
def CompactSpace.compactOf (space : CompactSpace) (value : Nat) : Nat :=
  match space.u128ToCompact value with
  | .ok compact => compact
  | .error _ => 0

/-- The width of the packed numbers. -/
def widthOf : Nat := computeNumBits (spaceOf pops vals).amplitude

def paramsOf : IPCodecParams where
  compactSpace := spaceOf pops vals
  bitUnpacker := BitUnpacker.new (widthOf pops vals)
  minValue := (btreeSet vals).head?.getD 0
  maxValue := (btreeSet vals).getLast?.getD 0
  numVals := vals.length
  numBits := widthOf pops vals

/-- The numbers of the values, as they are packed. -/
def packedOf : List (Nat × Nat) :=
  (vals.map (spaceOf pops vals).compactOf).map fun compact => (compact, widthOf pops vals)

/-- The bits that are read for a position. -/
def bitsRead (idx : Nat) : Nat :=
  packed (packedOf pops vals) / 2 ^ (idx * widthOf pops vals % 2 ^ 32) % 2 ^ widthOf pops vals

/-- What is promised of a column. -/
structure RoundTrip (params : IPCodecParams) (reader : CompactSpaceDecompressor) : Prop where
  trained : trainFrom pops vals vals.length = some params
  opened : ∃ bytes, compressInto params vals = some bytes ∧
    CompactSpaceDecompressor.openFrom bytes = some reader
  get : ∀ i v, vals[i]? = some v → reader.get i = some v
  built : getCompactSpace pops (btreeSet vals) vals.length costPerBlankInBits =
    some params.compactSpace
  space_eq : reader.params.compactSpace = params.compactSpace
  same_bounds : reader.params.minValue = params.minValue ∧
    reader.params.maxValue = params.maxValue
  bounds : ∀ v ∈ vals, reader.params.minValue ∈ vals ∧ reader.params.minValue ≤ v ∧
    reader.params.maxValue ∈ vals ∧ v ≤ reader.params.maxValue
  covered : ∀ v ∈ vals, ∃ c, params.compactSpace.u128ToCompact v = .ok c
  increasing : ∀ x y c d, params.compactSpace.u128ToCompact x = .ok c →
    params.compactSpace.u128ToCompact y = .ok d → x < y → c < d

section Space

variable {pops vals} (hpops : HeapOrder pops) (hlt : ∀ v ∈ vals, v < 2 ^ 128)
  (hlen : vals.length < 2 ^ 32)

/-- What is known of the ranges. -/
structure SpaceRanges (rs : List (Nat × Nat)) : Prop where
  built : getCompactSpace pops (btreeSet vals) vals.length costPerBlankInBits =
    some (spaceOf pops vals)
  eq : spaceOf pops vals = ⟨withStarts 1 rs⟩
  ne_nil : rs ≠ []
  bounds : ∀ r ∈ rs, r.1 ≤ r.2 ∧ r.2 ≤ u128Max
  order : rs.Pairwise fun a b => a.2 < b.1
  covered : ∀ v ∈ vals, ∃ r ∈ rs, r.1 ≤ v ∧ v ≤ r.2
  last : ∀ r, rs.getLast? = some r → r.2 = (btreeSet vals).getLast?.getD 0
  length_le : rs.length ≤ vals.length + 1

theorem length_btreeSet_le : (btreeSet vals).length ≤ vals.length := by
  rw [btreeSet, List.length_insertionSort]
  exact (List.dedup_sublist vals).length_le

/-- Ranges that start with values are at most as many. -/
theorem Ranges.length_le {S : List Nat} {rs : List (Nat × Nat)} (h : Ranges S rs) :
    rs.length ≤ S.length := by
  have hnodup : (rs.map Prod.fst).Nodup := by
    apply List.pairwise_map.mpr
    refine h.order.imp_of_mem ?_
    intro a b ha _ hab
    exact Nat.ne_of_lt ((h.bounds a ha).1.trans_lt hab)
  have hsub : rs.map Prod.fst ⊆ S := by
    intro v hv
    obtain ⟨r, hr, rfl⟩ := List.mem_map.mp hv
    exact h.starts r hr
  have hle := (List.subperm_of_subset hnodup hsub).length_le
  rwa [List.length_map] at hle

/-- The greatest value is the end of the last range. -/
theorem Ranges.last_eq {S : List Nat} (hS : S.Pairwise (· < ·)) {rs : List (Nat × Nat)}
    (h : Ranges S rs) {r : Nat × Nat} (hr : rs.getLast? = some r) :
    r.2 = S.getLast?.getD 0 := by
  have hmem := List.mem_of_getLast? hr
  obtain ⟨hmaxMem, hle⟩ := le_getLast hS (h.ends r hmem)
  obtain ⟨s, hs, hmax⟩ := h.covered _ hmaxMem
  -- the range of the greatest value is not behind the last one
  have hsr : s.2 ≤ r.2 := by
    obtain ⟨front, rfl⟩ := List.getLast?_eq_some_iff.mp hr
    rcases List.mem_append.mp hs with hfront | hlast
    · have hlt := (List.pairwise_append.mp h.order).2.2 s hfront r (List.mem_singleton.mpr rfl)
      have hbounds := h.bounds r hmem
      omega
    · rw [List.mem_singleton.mp hlast]
  omega

include hpops hlt hlen in
theorem exists_spaceRanges : ∃ rs, @SpaceRanges pops vals rs := by
  by_cases hne : btreeSet vals = []
  · -- the space of the empty set
    have hnil : vals = [] := by
      rw [List.eq_nil_iff_forall_not_mem]
      intro v hv
      rw [← mem_btreeSet, hne] at hv
      cases hv
    have hget : getCompactSpace pops (btreeSet vals) vals.length costPerBlankInBits =
        some ⟨withStarts 1 [(0, 0)]⟩ := by
      rw [getCompactSpace, if_pos hne]
      rfl
    refine ⟨[(0, 0)], ?_, ?_, List.cons_ne_nil _ _, ?_, List.pairwise_singleton _ _, ?_, ?_, ?_⟩
    · rw [spaceOf, hget, Option.getD_some]
    · rw [spaceOf, hget, Option.getD_some]
    · intro r hr
      rw [List.mem_singleton.mp hr]
      exact ⟨Nat.le_refl _, Nat.zero_le _⟩
    · rw [hnil]
      intro v hv
      cases hv
    · intro r hr
      rw [← Option.some.inj hr, hne]
      rfl
    · rw [hnil]
      exact Nat.le_refl _
  -- the space that the blanks leave
  · have hlt' : ∀ v ∈ btreeSet vals, v < 2 ^ 128 := fun v hv => hlt v (mem_btreeSet.mp hv)
    have hle := @length_btreeSet_le vals
    obtain ⟨rs, hget, hrs, hranges⟩ := chosen_ranges (btreeSet_sorted vals) hlt' hne hpops
      (by omega) vals.length costPerBlankInBits
    refine ⟨rs, ?_, ?_, hrs, hranges.bounds, hranges.order, ?_, ?_, ?_⟩
    · rw [spaceOf, hget, Option.getD_some]
    · rw [spaceOf, hget, Option.getD_some]
    · exact fun v hv => hranges.covered v (mem_btreeSet.mpr hv)
    · exact fun r hr => hranges.last_eq (btreeSet_sorted vals) hr
    · have := hranges.length_le
      omega

include hlt in
theorem bound_lt :
    (paramsOf pops vals).minValue < 2 ^ 128 ∧ (paramsOf pops vals).maxValue < 2 ^ 128 := by
  have hpos : 0 < 2 ^ 128 := by decide
  show (btreeSet vals).head?.getD 0 < _ ∧ (btreeSet vals).getLast?.getD 0 < _
  by_cases hne : btreeSet vals = []
  · rw [hne]
    exact ⟨hpos, hpos⟩
  · obtain ⟨v, hv⟩ := List.exists_mem_of_ne_nil _ hne
    have hmin := (head_le (btreeSet_sorted vals) hv).1
    have hmax := (le_getLast (btreeSet_sorted vals) hv).1
    exact ⟨hlt _ (mem_btreeSet.mp hmin), hlt _ (mem_btreeSet.mp hmax)⟩

variable {rs : List (Nat × Nat)} (h : @SpaceRanges pops vals rs)
  (hcovered : (spaceOf pops vals).numCovered ≤ 2 ^ 64 - 1)

include h

theorem SpaceRanges.numCovered_eq : (spaceOf pops vals).numCovered = (rs.map rangeSize).sum := by
  have hmap : ∀ c, (withStarts c rs).map RangeMapping.valueRange = rs := by
    intro c
    clear h
    induction rs generalizing c with
    | nil => rfl
    | cons r rs ih => rw [withStarts, List.map_cons, ih]
  rw [CompactSpace.numCovered, h.eq]
  conv_rhs => rw [← hmap 1]
  rw [List.map_map]
  rfl

include hlt hlen in
/-- The parameters are read back from the footer. -/
theorem deserialize_params :
    IPCodecParams.deserialize (paramsOf pops vals).serialize = some (paramsOf pops vals) := by
  obtain ⟨hmin, hmax⟩ := @bound_lt pops vals hlt
  have hwidth : widthOf pops vals ≤ 64 := computeNumBits_le _
  have hbits : (UInt8.ofNat (widthOf pops vals)).toNat = widthOf pops vals := by
    rw [UInt8.toNat_ofNat', Nat.mod_eq_of_lt (by omega)]
  have hranges : rs.length < 2 ^ 64 := by
    have := h.length_le
    omega
  have hspace := deserialize_serialize_space h.bounds h.order hranges []
  rw [← h.eq, List.append_nil] at hspace
  have hflags : (toLE 8 0).length = 8 := length_toLE 8 0
  unfold IPCodecParams.deserialize IPCodecParams.serialize
  have hlong : ¬(toLE 8 0 ++ (vintU128 (paramsOf pops vals).minValue ++
      (vintU128 (paramsOf pops vals).maxValue ++ (vintU128 (paramsOf pops vals).numVals ++
        (UInt8.ofNat (paramsOf pops vals).numBits ::
          (paramsOf pops vals).compactSpace.serialize))))).length < 8 := by
    rw [List.length_append, hflags]
    omega
  rw [if_neg hlong, List.drop_left' hflags, readVIntU128_vintU128 hmin]
  dsimp only
  rw [readVIntU128_vintU128 hmax]
  dsimp only
  have hnum : (paramsOf pops vals).numVals < 2 ^ 128 := hlen.trans (by decide)
  rw [readVIntU128_vintU128 hnum]
  show Option.map _ (CompactSpace.deserialize (spaceOf pops vals).serialize) = _
  rw [hspace, Option.map_some]
  have hbits' : (UInt8.ofNat (paramsOf pops vals).numBits).toNat = widthOf pops vals := hbits
  have hnumMod : (paramsOf pops vals).numVals % 2 ^ 32 = vals.length := Nat.mod_eq_of_lt hlen
  rw [hbits', hnumMod]
  rfl

include hlt hlen in
/-- Opening, as long as the length of the footer fits 32 bits. -/
theorem openFrom_eq
    (hfooter : (paramsOf pops vals).serialize.length < 2 ^ 32) (data : Bytes) :
    CompactSpaceDecompressor.openFrom (data ++
        ((paramsOf pops vals).serialize ++ toLE 4 (paramsOf pops vals).serialize.length)) =
      some ⟨data ++ ((paramsOf pops vals).serialize ++
        toLE 4 (paramsOf pops vals).serialize.length), paramsOf pops vals⟩ := by
  have hparams := deserialize_params hlt hlen h
  generalize (paramsOf pops vals).serialize = footer at *
  have hbytes : (data ++ (footer ++ toLE 4 footer.length)).length =
      data.length + footer.length + 4 := by
    rw [List.length_append, List.length_append, length_toLE]
    omega
  have hsplit : data ++ (footer ++ toLE 4 footer.length) =
      (data ++ footer) ++ toLE 4 footer.length := (List.append_assoc _ _ _).symm
  have hfront : (data ++ footer).length = (data ++ (footer ++ toLE 4 footer.length)).length - 4 := by
    rw [hbytes, List.length_append]
    omega
  -- the last four bytes hold the length of the footer
  have hlast : (data ++ (footer ++ toLE 4 footer.length)).drop
      ((data ++ (footer ++ toLE 4 footer.length)).length - 4) = toLE 4 footer.length := by
    rw [← hfront, hsplit]
    exact List.drop_left
  have hslice : (data ++ (footer ++ toLE 4 footer.length)).take
      ((data ++ (footer ++ toLE 4 footer.length)).length - 4) = data ++ footer := by
    rw [← hfront, hsplit]
    exact List.take_left
  unfold CompactSpaceDecompressor.openFrom
  rw [if_neg (by omega)]
  rw [hlast, hslice, ofLE_toLE (by omega), if_neg (by rw [List.length_append]; omega)]
  have hstart : (data ++ footer).length - footer.length = data.length := by
    rw [List.length_append]
    omega
  rw [hstart, List.drop_left, hparams]
  rfl

include hcovered

theorem SpaceRanges.sum_lt : (rs.map rangeSize).sum < 2 ^ 64 := by
  rw [h.numCovered_eq] at hcovered
  omega

theorem SpaceRanges.eq_numbered : spaceOf pops vals = ⟨numbered 1 rs⟩ := by
  have hsum := h.sum_lt hcovered
  rw [h.eq, withStarts_eq h.bounds (by decide) (by omega)]

theorem SpaceRanges.layout : Layout (spaceOf pops vals) := by
  have hsum := h.sum_lt hcovered
  rw [h.eq_numbered hcovered]
  exact numbered_layout h.bounds h.order (by omega)

theorem SpaceRanges.amplitude : (spaceOf pops vals).amplitude = (rs.map rangeSize).sum := by
  rw [h.eq_numbered hcovered]
  exact amplitude_eq h.ne_nil h.bounds (h.sum_lt hcovered)

/-- Every value of a range has a number, up to the amplitude. -/
theorem SpaceRanges.compact_spec {r : Nat × Nat} (hr : r ∈ rs) {v : Nat} (hv1 : r.1 ≤ v)
    (hv2 : v ≤ r.2) :
    ∃ c, (spaceOf pops vals).u128ToCompact v = .ok c ∧ c ≤ (spaceOf pops vals).amplitude ∧
      (spaceOf pops vals).compactToU128 c = some v := by
  have hmap := map_valueRange_numbered 1 rs
  rw [← hmap] at hr
  obtain ⟨m, hm, rfl⟩ := List.mem_map.mp hr
  have hmem : m ∈ (spaceOf pops vals).rangesMapping := by
    rw [h.eq_numbered hcovered]
    exact hm
  have hcontains : m.Contains v := ⟨hv1, hv2⟩
  have hlayout := h.layout hcovered
  refine ⟨m.number v, hlayout.u128ToCompact_eq hmem hcontains, ?_,
    hlayout.compactToU128_number hmem hcontains⟩
  have hhi := (mem_numbered hm).2.2
  have hsize : rangeSize m.valueRange = m.valueRange.2 - m.valueRange.1 + 1 := rfl
  rw [h.amplitude hcovered]
  unfold RangeMapping.number
  omega

/-- The greatest value has the last number. -/
theorem SpaceRanges.compact_max :
    (spaceOf pops vals).u128ToCompact ((btreeSet vals).getLast?.getD 0) =
      .ok (spaceOf pops vals).amplitude := by
  obtain ⟨m, hm, hlast, hnumber⟩ := getLast_numbered h.ne_nil 1
  have hmem : m ∈ (spaceOf pops vals).rangesMapping := by
    rw [h.eq_numbered hcovered]
    exact List.mem_of_getLast? hm
  have hle := (h.bounds _ (List.mem_of_getLast? hlast)).1
  have hsize : rangeSize m.valueRange = m.valueRange.2 - m.valueRange.1 + 1 := rfl
  rw [← h.last _ hlast, (h.layout hcovered).u128ToCompact_eq hmem ⟨hle, Nat.le_refl _⟩,
    h.amplitude hcovered]
  unfold RangeMapping.number
  congr 1
  omega

theorem trainFrom_eq : trainFrom pops vals vals.length = some (paramsOf pops vals) := by
  have hamplitude := h.amplitude hcovered
  have hsum := h.sum_lt hcovered
  unfold trainFrom
  dsimp only
  rw [h.built]
  dsimp only
  rw [if_neg (by omega), h.compact_max hcovered]
  dsimp only
  rw [if_neg (fun hne => hne rfl)]
  rfl

/-- Every value of the column is covered. -/
theorem SpaceRanges.value_spec {v : Nat} (hv : v ∈ vals) :
    (spaceOf pops vals).u128ToCompact v = .ok ((spaceOf pops vals).compactOf v) ∧
      (spaceOf pops vals).compactOf v < 2 ^ widthOf pops vals ∧
      (spaceOf pops vals).compactToU128 ((spaceOf pops vals).compactOf v) = some v := by
  obtain ⟨r, hr, hv1, hv2⟩ := h.covered v hv
  obtain ⟨c, hc, hle, hback⟩ := h.compact_spec hcovered hr hv1 hv2
  have hof : (spaceOf pops vals).compactOf v = c := by
    rw [CompactSpace.compactOf, hc]
  have hamplitude := h.amplitude hcovered
  have hsum := h.sum_lt hcovered
  rw [hof]
  exact ⟨hc, lt_two_pow_computeNumBits hle (by omega), hback⟩

theorem compressInto_eq :
    compressInto (paramsOf pops vals) vals =
      some (BitPacker.pack (packedOf pops vals) ++
        ((paramsOf pops vals).serialize ++ toLE 4 (paramsOf pops vals).serialize.length)) := by
  have htoCompacts : ∀ vs : List Nat, (∀ v ∈ vs, v ∈ vals) →
      toCompacts (spaceOf pops vals) vs = some (vs.map (spaceOf pops vals).compactOf) := by
    intro vs hvs
    induction vs with
    | nil => rfl
    | cons v vs ih =>
      rw [toCompacts, (h.value_spec hcovered (hvs v List.mem_cons_self)).1]
      rw [ih fun w hw => hvs w (List.mem_cons_of_mem v hw)]
      rfl
  unfold compressInto
  show Option.map _ (toCompacts (spaceOf pops vals) vals) = _
  rw [htoCompacts vals fun v hv => hv]
  rfl

/-- What is read at a position. -/
theorem get_eq_bitsRead {i : Nat} (hi : i < vals.length) (rest : Bytes) :
    CompactSpaceDecompressor.get ⟨BitPacker.pack (packedOf pops vals) ++ rest,
      paramsOf pops vals⟩ i =
      (spaceOf pops vals).compactToU128 (bitsRead pops vals i) := by
  have hfits : ∀ x ∈ packedOf pops vals, x.1 < 2 ^ x.2 ∧ x.2 ≤ 64 := by
    intro x hx
    obtain ⟨c, hc, rfl⟩ := List.mem_map.mp hx
    obtain ⟨v, hv, rfl⟩ := List.mem_map.mp hc
    exact ⟨(h.value_spec hcovered hv).2.1, computeNumBits_le _⟩
  obtain ⟨hvalue, hlength⟩ := BitPacker.pack_spec hfits
  have hbits : totalBits (packedOf pops vals) = vals.length * widthOf pops vals := by
    rw [packedOf, totalBits_map_const, List.length_map]
  rw [hbits] at hlength
  -- the position is within the packed numbers
  have hpos : i * widthOf pops vals % 2 ^ 32 + widthOf pops vals ≤
      vals.length * widthOf pops vals := by
    have hnext : (i + 1) * widthOf pops vals ≤ vals.length * widthOf pops vals :=
      Nat.mul_le_mul_right _ hi
    rw [Nat.succ_mul] at hnext
    omega
  have hroom : widthOf pops vals = 0 ∨ i * widthOf pops vals % 2 ^ 32 / 8 + 8 ≤
      (BitPacker.pack (packedOf pops vals) ++ rest).length := by
    rw [List.length_append]
    omega
  have hcases : widthOf pops vals ≤ 56 ∨ widthOf pops vals = 64 := computeNumBits_cases _
  have hread := BitUnpacker.get_eq hcases hroom
  show ((BitUnpacker.new (widthOf pops vals)).get i
    (BitPacker.pack (packedOf pops vals) ++ rest)).bind (spaceOf pops vals).compactToU128 = _
  have hsame : ofLE (BitPacker.pack (packedOf pops vals) ++ rest) /
      2 ^ (i * widthOf pops vals % 2 ^ 32) % 2 ^ widthOf pops vals = bitsRead pops vals i := by
    rw [ofLE_append, hvalue, ← two_pow_eight_mul]
    exact add_mul_div_mod (by omega)
  rw [hread]
  show (spaceOf pops vals).compactToU128 _ = _
  rw [hsame]

/-! ### Reading back -/

/-- A number that starts before 2^32 bits is read from where it was written. -/
theorem bitsRead_eq {i v : Nat} (hidx : i * widthOf pops vals < 2 ^ 32)
    (hv : vals[i]? = some v) : bitsRead pops vals i = (spaceOf pops vals).compactOf v := by
  have hcompacts : ∀ c ∈ vals.map (spaceOf pops vals).compactOf, c < 2 ^ widthOf pops vals := by
    intro c hc
    obtain ⟨w, hw, rfl⟩ := List.mem_map.mp hc
    exact (h.value_spec hcovered hw).2.1
  have hget : (vals.map (spaceOf pops vals).compactOf)[i]? =
      some ((spaceOf pops vals).compactOf v) := by
    rw [List.getElem?_map, hv, Option.map_some]
  have hat := BitUnpacker.packed_at hcompacts [] hget
  rw [List.append_nil] at hat
  rw [bitsRead, Nat.mod_eq_of_lt hidx]
  exact hat

include hlt hlen in
/-- The reader of a column, and what it returns. -/
theorem roundTrip_iff_bitsRead (hfooter : (paramsOf pops vals).serialize.length < 2 ^ 32) :
    (∃ params reader, RoundTrip pops vals params reader) ↔
      ∀ i v, vals[i]? = some v →
        (spaceOf pops vals).compactToU128 (bitsRead pops vals i) = some v := by
  have htrain := trainFrom_eq h hcovered
  have hcompress := compressInto_eq h hcovered
  have hopen := openFrom_eq hlt hlen h hfooter (BitPacker.pack (packedOf pops vals))
  constructor
  · rintro ⟨params, reader, hround⟩ i v hv
    obtain ⟨hi, -⟩ := List.getElem?_eq_some_iff.mp hv
    obtain ⟨bytes, hbytes, hreader⟩ := hround.opened
    have hparams := hround.trained
    rw [htrain] at hparams
    obtain rfl := Option.some.inj hparams
    rw [hcompress] at hbytes
    obtain rfl := Option.some.inj hbytes
    rw [hopen] at hreader
    obtain rfl := Option.some.inj hreader
    have hget := hround.get i v hv
    rw [get_eq_bitsRead h hcovered hi] at hget
    exact hget
  · intro hreads
    refine ⟨_, _, htrain, ⟨_, hcompress, hopen⟩, ?_, h.built, rfl, ⟨rfl, rfl⟩, ?_, ?_, ?_⟩
    · intro i v hv
      obtain ⟨hi, -⟩ := List.getElem?_eq_some_iff.mp hv
      rw [get_eq_bitsRead h hcovered hi]
      exact hreads i v hv
    -- the bounds are values of the column
    · intro v hv
      have hmem := mem_btreeSet.mpr hv
      obtain ⟨hminMem, hmin⟩ := head_le (btreeSet_sorted vals) hmem
      obtain ⟨hmaxMem, hmax⟩ := le_getLast (btreeSet_sorted vals) hmem
      exact ⟨mem_btreeSet.mp hminMem, hmin, mem_btreeSet.mp hmaxMem, hmax⟩
    · exact fun v hv => ⟨_, (h.value_spec hcovered hv).1⟩
    · exact fun x y c d hx hy hxy => (h.layout hcovered).u128ToCompact_lt hx hy hxy

end Space

/-! ### The footer -/

theorem length_vintU128_le (k : Nat) {v : Nat} (hv : v < 128 ^ (k + 1)) :
    (vintU128 v).length ≤ k + 1 := by
  rw [vintU128]
  exact length_vint_le true k 19 v hv

/-- A range takes at most 25 bytes, and more only where it is very long. -/
theorem length_serializeRanges_le {rs : List (Nat × Nat)}
    (hrs : ∀ r ∈ rs, r.1 ≤ r.2 ∧ r.2 ≤ u128Max) (hsum : (rs.map rangeSize).sum < 2 ^ 64)
    (prev compactStart : Nat) :
    (CompactSpace.serializeRanges prev (withStarts compactStart rs)).length ≤
      25 * rs.length + (rs.map rangeSize).sum / 2 ^ 40 := by
  induction rs generalizing prev compactStart with
  | nil =>
    rw [withStarts, CompactSpace.serializeRanges, List.length_nil]
    omega
  | cons r rs ih =>
    obtain ⟨hle, hmax⟩ := hrs r List.mem_cons_self
    rw [List.map_cons, List.sum_cons] at hsum ⊢
    have hrest := ih (fun x hx => hrs x (List.mem_cons_of_mem r hx)) (by omega) r.2
      (wrapAdd 64 compactStart (RangeMapping.rangeLength ⟨r, compactStart⟩))
    rw [withStarts, CompactSpace.serializeRanges, List.length_append,
      List.length_append, List.length_cons]
    have hsize : rangeSize r = r.2 - r.1 + 1 := rfl
    unfold u128Max at hmax
    have hstart : (vintU128 (wrapSub 128 r.1 prev)).length ≤ 19 := by
      apply length_vintU128_le 18
      exact (Nat.mod_lt _ (Nat.two_pow_pos 128)).trans (by norm_num)
    have hend : (vintU128 (wrapSub 128 r.2 r.1)).length ≤ 6 + rangeSize r / 2 ^ 40 := by
      rw [wrapSub_eq hle (by omega)]
      -- up to 42 bits take six bytes, and longer ranges count for the four bytes more
      by_cases hshort : r.2 - r.1 < 2 ^ 42
      · have hlen := length_vintU128_le 5 (hshort.trans_le (by norm_num))
        omega
      · have hfits : r.2 - r.1 < 2 ^ 64 := by omega
        have hlen := length_vintU128_le 9 (hfits.trans_le (by norm_num))
        omega
    dsimp only at hrest ⊢
    omega

section Footer

variable {pops vals} (hlt : ∀ v ∈ vals, v < 2 ^ 128) {rs : List (Nat × Nat)}
  (h : @SpaceRanges pops vals rs) (hcovered : (spaceOf pops vals).numCovered ≤ 2 ^ 64 - 1)

include hlt h hcovered

/-- **Short columns have short footers.** A footer of 2^32 bytes needs more ranges than there can be
    numbers of their width within 2^32 bits. -/
theorem length_footer_lt (hlen : vals.length < 2 ^ 32)
    (hshort : vals.length * widthOf pops vals < 2 ^ 32) :
    (paramsOf pops vals).serialize.length < 2 ^ 32 := by
  have hsum := h.sum_lt hcovered
  have hamplitude := h.amplitude hcovered
  have hranges := length_serializeRanges_le h.bounds hsum 0 1
  have hvint : ∀ v : Nat, v < 2 ^ 128 → (vintU128 v).length ≤ 19 :=
    fun v hv => length_vintU128_le 18 (hv.trans_le (by norm_num))
  -- as many numbers as ranges
  have hcount : rs.length ≤ (rs.map rangeSize).sum := by
    have hle : (rs.map rangeSize).length ≤ (rs.map rangeSize).sum := by
      apply List.length_le_sum_of_one_le
      intro n hn
      obtain ⟨r, -, rfl⟩ := List.mem_map.mp hn
      exact Nat.succ_pos _
    rwa [List.length_map] at hle
  have hfooter : (paramsOf pops vals).serialize.length ≤ 76 + (25 * rs.length + 2 ^ 24) := by
    obtain ⟨hmin, hmax⟩ := @bound_lt pops vals hlt
    have hminLen := hvint _ hmin
    have hmaxLen := hvint _ hmax
    have hnumLen := hvint (paramsOf pops vals).numVals (hlen.trans (by decide))
    have hcountLen : (vint true 10 (spaceOf pops vals).rangesMapping.length).length ≤ 10 := by
      apply length_vint_le true 9 10
      rw [h.eq, length_withStarts]
      omega
    have hspace : (paramsOf pops vals).compactSpace.serialize.length ≤
        10 + (25 * rs.length + 2 ^ 24) := by
      show (vint true 10 (spaceOf pops vals).rangesMapping.length ++
        CompactSpace.serializeRanges 0 (spaceOf pops vals).rangesMapping).length ≤ _
      rw [List.length_append]
      have hmapping : (spaceOf pops vals).rangesMapping = withStarts 1 rs := by
        rw [h.eq]
      rw [hmapping] at hcountLen ⊢
      omega
    unfold IPCodecParams.serialize
    simp only [List.length_append, length_toLE, List.length_cons]
    omega
  by_cases hfew : rs.length < 2 ^ 26
  · omega
  · -- many ranges need wide numbers, and there are as many values
    have hwide : 27 ≤ widthOf pops vals := by
      by_contra hnarrow
      have hfits : (spaceOf pops vals).amplitude < 2 ^ widthOf pops vals :=
        lt_two_pow_computeNumBits (Nat.le_refl _) (by omega)
      have hpow : 2 ^ widthOf pops vals ≤ 2 ^ 26 := Nat.pow_le_pow_right (by decide) (by omega)
      omega
    have hmul : vals.length * 27 ≤ vals.length * widthOf pops vals := Nat.mul_le_mul_left _ hwide
    have hle := h.length_le
    omega

end Footer

/-! ### Columns -/

/-- **A column in a compact space.** It is read back when its numbers end before 2^32 bits.  Behind
    that the positions wrap around, and as long as the length of the footer fits 32 bits, the column
    is read back just when the bits that are found there are those of the right values. -/
theorem compactSpace_roundTrip {pops : List BlankRange → List BlankRange} {vals : List Nat}
    (hpops : HeapOrder pops) (hlt : ∀ v ∈ vals, v < 2 ^ 128) (hlen : vals.length < 2 ^ 32)
    (hcovered : (spaceOf pops vals).numCovered ≤ 2 ^ 64 - 1) :
    (vals.length * widthOf pops vals < 2 ^ 32 →
      ∃ params reader, RoundTrip pops vals params reader) ∧
    ((paramsOf pops vals).serialize.length < 2 ^ 32 →
      ((∃ params reader, RoundTrip pops vals params reader) ↔
        ∀ i v, vals[i]? = some v →
          (spaceOf pops vals).compactToU128 (bitsRead pops vals i) = some v)) := by
  obtain ⟨rs, h⟩ := exists_spaceRanges hpops hlt hlen
  constructor
  · intro hshort
    have hfooter := length_footer_lt hlt h hcovered hlen hshort
    rw [roundTrip_iff_bitsRead hlt hlen h hcovered hfooter]
    intro i v hv
    obtain ⟨hi, -⟩ := List.getElem?_eq_some_iff.mp hv
    have hidx : i * widthOf pops vals < 2 ^ 32 := (Nat.mul_le_mul_right _ hi.le).trans_lt hshort
    rw [bitsRead_eq h hcovered hidx hv]
    exact (h.value_spec hcovered (List.mem_of_getElem? hv)).2.2
  · exact roundTrip_iff_bitsRead hlt hlen h hcovered

/-- A heap that gives out equal blanks in the order in which they were pushed. -/
def popsDescending (blanks : List BlankRange) : List BlankRange :=
  blanks.insertionSort fun a b => b.blankSize ≤ a.blankSize

theorem heapOrder_popsDescending : HeapOrder popsDescending := by
  intro blanks
  exact ⟨List.perm_insertionSort _ _, List.pairwise_insertionSort _ _⟩

/-- Two values that are far apart. -/
theorem compactSpace_roundTrip_two :
    ∃ params reader, RoundTrip popsDescending [1, 2 ^ 127, 1] params reader :=
  (compactSpace_roundTrip heapOrder_popsDescending (by decide) (by decide)
    (by decide +kernel)).1 (by decide +kernel)

/-- So many zeros that the position of the last value wraps around to that of the first one. -/
def manyZeros : List Nat := 0 :: (List.replicate (2 ^ 31 - 1) 0 ++ [2])

theorem btreeSet_manyZeros : btreeSet manyZeros = [0, 2] := by
  have hmem : ∀ v, v ∈ btreeSet manyZeros ↔ v ∈ [0, 2] := by
    intro v
    rw [mem_btreeSet, manyZeros]
    simp only [List.mem_cons, List.mem_append, List.mem_replicate, List.not_mem_nil, or_false]
    omega
  have hperm : (btreeSet manyZeros).Perm [0, 2] := by
    rw [List.perm_ext_iff_of_nodup
      ((btreeSet_sorted manyZeros).imp fun hab => Nat.ne_of_lt hab) (by decide)]
    exact hmem
  exact hperm.eq_of_pairwise (fun a b _ _ hab hba => absurd hab (Nat.lt_asymm hba))
    (btreeSet_sorted manyZeros) (by decide)

theorem length_manyZeros : manyZeros.length = 2 ^ 31 + 1 := by
  rw [manyZeros, List.length_cons, List.length_append, List.length_replicate]
  rfl

theorem spaceOf_manyZeros : spaceOf popsDescending manyZeros = ⟨[⟨(0, 2), 1⟩]⟩ := by
  rw [spaceOf, btreeSet_manyZeros, length_manyZeros]
  decide +kernel

/-- The last value is read at the position of the first one. -/
theorem compactSpace_wraps :
    ¬∀ (pops : List BlankRange → List BlankRange) (vals : List Nat), HeapOrder pops →
      (∀ v ∈ vals, v < 2 ^ 128) → vals.length < 2 ^ 32 →
      (spaceOf pops vals).numCovered ≤ 2 ^ 64 - 1 →
      ∃ params reader, RoundTrip pops vals params reader := by
  intro hall
  have hlt : ∀ v ∈ manyZeros, v < 2 ^ 128 := by
    intro v hv
    rw [← mem_btreeSet, btreeSet_manyZeros] at hv
    have hsmall : v ≤ 2 := by
      simp only [List.mem_cons, List.not_mem_nil, or_false] at hv
      omega
    omega
  have hlen : manyZeros.length < 2 ^ 32 := by
    rw [length_manyZeros]
    decide
  have hcovered : (spaceOf popsDescending manyZeros).numCovered ≤ 2 ^ 64 - 1 := by
    rw [spaceOf_manyZeros]
    decide
  have hwidth : widthOf popsDescending manyZeros = 2 := by
    rw [widthOf, spaceOf_manyZeros]
    decide +kernel
  have hround := hall popsDescending manyZeros heapOrder_popsDescending hlt hlen hcovered
  obtain ⟨rs, h⟩ := exists_spaceRanges heapOrder_popsDescending hlt hlen
  have hparams : paramsOf popsDescending manyZeros =
      ⟨⟨[⟨(0, 2), 1⟩]⟩, BitUnpacker.new 2, 0, 2, 2 ^ 31 + 1, 2⟩ := by
    rw [paramsOf, spaceOf_manyZeros, hwidth, btreeSet_manyZeros, length_manyZeros]
    rfl
  have hfooter : (paramsOf popsDescending manyZeros).serialize.length < 2 ^ 32 := by
    rw [hparams]
    decide +kernel
  rw [roundTrip_iff_bitsRead hlt hlen h hcovered hfooter] at hround
  have hlast : ∀ n, (0 :: (List.replicate n 0 ++ [2]))[n + 1]? = some 2 := by
    intro n
    rw [List.getElem?_cons_succ, List.getElem?_append_right (by rw [List.length_replicate]),
      List.length_replicate, Nat.sub_self]
    rfl
  have hread := hround (2 ^ 31 - 1 + 1) 2 (hlast (2 ^ 31 - 1))
  -- both positions are at the first bit
  have hsame : bitsRead popsDescending manyZeros (2 ^ 31 - 1 + 1) =
      bitsRead popsDescending manyZeros 0 := by
    have hwraps : (2 ^ 31 - 1 + 1) * 2 % 2 ^ 32 = 0 * 2 % 2 ^ 32 := by norm_num
    rw [bitsRead, bitsRead, hwidth, hwraps]
  have hfirst : manyZeros[0]? = some 0 := rfl
  rw [hsame, bitsRead_eq h hcovered (by rw [hwidth]; decide) hfirst,
    (h.value_spec hcovered (List.mem_of_getElem? hfirst)).2.2] at hread
  exact absurd (Option.some.inj hread) (by decide)

end TeaclaveCrates.Tantivy.FastFieldCodecs
