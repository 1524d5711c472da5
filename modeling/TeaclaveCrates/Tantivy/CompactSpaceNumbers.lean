import TeaclaveCrates.Tantivy.CompactSpaceRanges
import TeaclaveCrates.Tantivy.FastFieldCodecs

namespace TeaclaveCrates.Tantivy.FastFieldCodecs

open TeaclaveCrates.Lib
open FastFieldCodecs.CompactSpace (amplitude compareValue deserialize deserializeRanges serialize
  serializeRanges u128ToCompact)
open CompactSpaceBuilder (withStarts)

/-!
# The numbering of a compact space

* `Layout` — ranges in order, with numbers in order.
* `u128ToCompact_eq`, `compactToU128_number`, `u128ToCompact_lt` — values to numbers and back.
* `numbered_layout`, `amplitude_eq` — the numbers of the code, when they fit 64 bits.
* `deserialize_serialize_space` — the ranges are read back.
-/

/-- The number of values of a range. -/
def rangeSize (r : Nat × Nat) : Nat := r.2 - r.1 + 1

/-- The number of values that are covered, which is the amplitude without its limit. -/
def CompactSpace.numCovered (space : CompactSpace) : Nat :=
  (space.rangesMapping.map fun r => rangeSize r.valueRange).sum

/-- Ranges in order, with numbers in order. -/
structure Layout (space : CompactSpace) : Prop where
  bounds : ∀ m ∈ space.rangesMapping, m.valueRange.1 ≤ m.valueRange.2 ∧
    m.valueRange.2 ≤ u128Max ∧ m.compactStart + (m.valueRange.2 - m.valueRange.1) < 2 ^ 64
  order : space.rangesMapping.Pairwise fun a b => a.valueRange.2 < b.valueRange.1 ∧
    a.compactStart + (a.valueRange.2 - a.valueRange.1) < b.compactStart

/-- The value lies in the range. -/
def RangeMapping.Contains (m : RangeMapping) (v : Nat) : Prop :=
  m.valueRange.1 ≤ v ∧ v ≤ m.valueRange.2

/-- The number of a value of the range. -/
def RangeMapping.number (m : RangeMapping) (v : Nat) : Nat :=
  m.compactStart + (v - m.valueRange.1)

theorem compareValue_eq_iff {v : Nat} {m : RangeMapping} :
    compareValue v m = .eq ↔ m.Contains v := by
  unfold compareValue RangeMapping.Contains
  split
  · simp
    omega
  · split
    · simp
      omega
    · simp
      omega

namespace Layout

variable {space : CompactSpace} (h : Layout space)

include h

theorem partitioned_values (v : Nat) :
    Partitioned (compareValue v) space.rangesMapping := by
  refine List.Pairwise.imp_of_mem ?_ h.order
  intro a b ha hb hab
  have hboundsa := h.bounds a ha
  unfold compareValue
  constructor
  · intro hlt
    split at hlt
    · cases hlt
    · rw [if_neg (by omega), if_pos (by omega)]
  · intro hgt
    split at hgt
    · rw [if_pos (by omega)]
    · split at hgt <;> cases hgt

theorem partitioned_numbers (compact : Nat) :
    Partitioned (fun m : RangeMapping => compare m.compactStart compact) space.rangesMapping := by
  refine h.order.imp ?_
  intro a b hab
  constructor
  · intro hlt
    rw [Nat.compare_eq_lt] at hlt ⊢
    omega
  · intro hgt
    rw [Nat.compare_eq_gt] at hgt ⊢
    omega

/-- Two ranges of the list are the same one, or in order. -/
theorem trichotomy {i j : Nat} {a b : RangeMapping} (ha : space.rangesMapping[i]? = some a)
    (hb : space.rangesMapping[j]? = some b) :
    (i < j ∧ a.valueRange.2 < b.valueRange.1 ∧
        a.compactStart + (a.valueRange.2 - a.valueRange.1) < b.compactStart) ∨
      (i = j ∧ a = b) ∨
      (j < i ∧ b.valueRange.2 < a.valueRange.1 ∧
        b.compactStart + (b.valueRange.2 - b.valueRange.1) < a.compactStart) := by
  obtain ⟨hi, rfl⟩ := List.getElem?_eq_some_iff.mp ha
  obtain ⟨hj, rfl⟩ := List.getElem?_eq_some_iff.mp hb
  rcases Nat.lt_trichotomy i j with hij | rfl | hij
  · exact Or.inl ⟨hij, List.pairwise_iff_getElem.mp h.order i j hi hj hij⟩
  · exact Or.inr (Or.inl ⟨rfl, rfl⟩)
  · exact Or.inr (Or.inr ⟨hij, List.pairwise_iff_getElem.mp h.order j i hj hi hij⟩)

variable {v : Nat} {m : RangeMapping}

theorem number_lt (hm : m ∈ space.rangesMapping) (hv : m.Contains v) : m.number v < 2 ^ 64 := by
  have hbounds := h.bounds m hm
  unfold RangeMapping.Contains at hv
  unfold RangeMapping.number
  omega

/-- A covered value has the number of its range. -/
theorem u128ToCompact_eq (hm : m ∈ space.rangesMapping) (hv : m.Contains v) :
    space.u128ToCompact v = .ok (m.number v) := by
  obtain ⟨pos, hpos⟩ := List.mem_iff_getElem?.mp hm
  have hsearch := binarySearchBy_of_unique (h.partitioned_values v) hpos
    (compareValue_eq_iff.mpr hv) ?_
  · obtain ⟨hle, hmax, -⟩ := h.bounds m hm
    have hnumber := h.number_lt hm hv
    have hv128 : v < 2 ^ 128 := by
      unfold RangeMapping.Contains u128Max at *
      omega
    unfold RangeMapping.number at hnumber
    unfold u128ToCompact
    rw [hsearch]
    dsimp only
    rw [hpos]
    dsimp only
    rw [wrapSub_eq hv.1 hv128, Nat.mod_eq_of_lt (by omega), wrapAdd_eq hnumber]
    rfl
  · intro i y hy heq
    have hy' := compareValue_eq_iff.mp heq
    unfold RangeMapping.Contains at hv hy'
    rcases h.trichotomy hy hpos with hlt | hsame | hlt
    · omega
    · exact hsame.1
    · omega

/-- What is numbered is covered. -/
theorem exists_of_u128ToCompact_ok {c : Nat} (hc : space.u128ToCompact v = .ok c) :
    ∃ m ∈ space.rangesMapping, m.Contains v ∧ c = m.number v := by
  have hlocated := binarySearchBy_located (h.partitioned_values v)
  cases hsearch : binarySearchBy (compareValue v) space.rangesMapping with
  | error pos =>
    rw [u128ToCompact, hsearch] at hc
    cases hc
  | ok pos =>
    rw [hsearch] at hlocated
    obtain ⟨m, hm, heq⟩ := hlocated
    have hmem := List.mem_of_getElem? hm
    have hcontains := compareValue_eq_iff.mp heq
    have hvalue := h.u128ToCompact_eq hmem hcontains
    rw [hvalue] at hc
    exact ⟨m, hmem, hcontains, (Except.ok.inj hc).symm⟩

/-- The numbers increase with the values. -/
theorem u128ToCompact_lt {x y c d : Nat} (hx : space.u128ToCompact x = .ok c)
    (hy : space.u128ToCompact y = .ok d) (hxy : x < y) : c < d := by
  obtain ⟨a, ha, hax, rfl⟩ := h.exists_of_u128ToCompact_ok hx
  obtain ⟨b, hb, hby, rfl⟩ := h.exists_of_u128ToCompact_ok hy
  obtain ⟨i, hi⟩ := List.mem_iff_getElem?.mp ha
  obtain ⟨j, hj⟩ := List.mem_iff_getElem?.mp hb
  unfold RangeMapping.Contains at hax hby
  unfold RangeMapping.number
  rcases h.trichotomy hi hj with hlt | ⟨-, rfl⟩ | hlt
  · omega
  · omega
  · omega

/-- **The way back.** A number is mapped to the value that has it. -/
theorem compactToU128_number (hm : m ∈ space.rangesMapping) (hv : m.Contains v) :
    space.compactToU128 (m.number v) = some v := by
  obtain ⟨p, hp⟩ := List.mem_iff_getElem?.mp hm
  obtain ⟨hle, hmax, hfit⟩ := h.bounds m hm
  have hnumber := h.number_lt hm hv
  have hlocated := binarySearchBy_located (h.partitioned_numbers (m.number v))
  unfold RangeMapping.Contains at hv
  -- the search ends at the range, or right behind it
  have hpos : CompactSpace.floorIndex
      (binarySearchBy (fun r => compare r.compactStart (m.number v)) space.rangesMapping) =
        some p := by
    cases hsearch : binarySearchBy (fun r : RangeMapping => compare r.compactStart (m.number v))
        space.rangesMapping with
    | ok pos =>
      rw [hsearch] at hlocated
      obtain ⟨y, hy, heq⟩ := hlocated
      have hstart := Nat.compare_eq_eq.mp heq
      unfold RangeMapping.number at hstart
      rcases h.trichotomy hy hp with hlt | ⟨rfl, -⟩ | hlt
      · omega
      · rfl
      · omega
    | error pos =>
      rw [hsearch] at hlocated
      obtain ⟨hlen, hbelow, habove⟩ := hlocated
      -- the ranges in front of the insertion point start below the number, the others above it
      have hlt : p < pos := by
        by_contra hge
        have hgt := Nat.compare_eq_gt.mp (habove p m (by omega) hp)
        unfold RangeMapping.number at hgt
        omega
      have heq : pos = p + 1 := by
        by_contra hne
        have hnext : p + 1 < space.rangesMapping.length := by omega
        have hget := List.getElem?_eq_getElem hnext
        have hless := Nat.compare_eq_lt.mp (hbelow (p + 1) _ (by omega) hget)
        unfold RangeMapping.number at hless
        rcases h.trichotomy hp hget with hord | hord | hord <;> omega
      rw [heq]
      rfl
  unfold CompactSpace.compactToU128
  dsimp only
  rw [hpos, Option.bind_some, hp]
  dsimp only
  unfold RangeMapping.number u128Max at *
  rw [wrapSub_eq (by omega) hnumber, wrapAdd_eq (by omega)]
  congr 1
  omega

end Layout

/-! ### The numbers of the code -/

/-- Ranges with their numbers, without the limit of 64 bits. -/
def numbered : Nat → List (Nat × Nat) → List RangeMapping
  | _, [] => []
  | compactStart, r :: rs => ⟨r, compactStart⟩ :: numbered (compactStart + rangeSize r) rs

variable {compactStart : Nat}

theorem rangeLength_eq {r : Nat × Nat} (hle : r.1 ≤ r.2) (hmax : r.2 ≤ u128Max)
    (hsize : rangeSize r < 2 ^ 64) :
    RangeMapping.rangeLength ⟨r, compactStart⟩ = rangeSize r := by
  unfold rangeSize u128Max at *
  unfold RangeMapping.rangeLength
  rw [wrapSub_eq hle (by omega), Nat.mod_eq_of_lt (by omega), wrapAdd_eq hsize]

variable {rs : List (Nat × Nat)}

/-- The numbers are exact up to the last range. -/
theorem withStarts_eq (hrs : ∀ r ∈ rs, r.1 ≤ r.2 ∧ r.2 ≤ u128Max) (hpos : 0 < compactStart)
    (hsum : compactStart + (rs.map rangeSize).sum ≤ 2 ^ 64) :
    withStarts compactStart rs = numbered compactStart rs := by
  induction rs generalizing compactStart with
  | nil => rfl
  | cons r rs ih =>
    rw [List.map_cons, List.sum_cons] at hsum
    obtain ⟨hle, hmax⟩ := hrs r List.mem_cons_self
    rw [withStarts, numbered, rangeLength_eq hle hmax (by omega)]
    congr 1
    cases rs with
    | nil => rfl
    | cons s rs =>
      -- another range follows, so that its first number fits
      have hsize : 0 < rangeSize s := Nat.succ_pos _
      have hfits : compactStart + rangeSize r < 2 ^ 64 := by
        rw [List.map_cons, List.sum_cons] at hsum
        omega
      rw [wrapAdd_eq hfits]
      exact ih (fun x hx => hrs x (List.mem_cons_of_mem r hx)) (by omega) (by omega)

theorem map_valueRange_numbered (compactStart : Nat) (rs : List (Nat × Nat)) :
    (numbered compactStart rs).map RangeMapping.valueRange = rs := by
  induction rs generalizing compactStart with
  | nil => rfl
  | cons r rs ih => rw [numbered, List.map_cons, ih]

theorem mem_numbered {m : RangeMapping} (hm : m ∈ numbered compactStart rs) :
    m.valueRange ∈ rs ∧ compactStart ≤ m.compactStart ∧
      m.compactStart + rangeSize m.valueRange ≤ compactStart + (rs.map rangeSize).sum := by
  induction rs generalizing compactStart with
  | nil => cases hm
  | cons r rs ih =>
    rw [List.map_cons, List.sum_cons]
    rcases List.mem_cons.mp hm with rfl | hm
    · exact ⟨List.mem_cons_self, Nat.le_refl _, by dsimp only; omega⟩
    · obtain ⟨hmem, hlo, hhi⟩ := ih hm
      exact ⟨List.mem_cons_of_mem r hmem, by omega, by omega⟩

/-- **The numbers.** They increase with the ranges, as long as they fit 64 bits. -/
theorem numbered_layout (hrs : ∀ r ∈ rs, r.1 ≤ r.2 ∧ r.2 ≤ u128Max)
    (horder : rs.Pairwise fun a b => a.2 < b.1)
    (hsum : compactStart + (rs.map rangeSize).sum ≤ 2 ^ 64) :
    Layout ⟨numbered compactStart rs⟩ := by
  constructor
  · intro m hm
    obtain ⟨hmem, -, hhi⟩ := mem_numbered hm
    obtain ⟨hle, hmax⟩ := hrs _ hmem
    have hsize : rangeSize m.valueRange = m.valueRange.2 - m.valueRange.1 + 1 := rfl
    exact ⟨hle, hmax, by omega⟩
  · clear hrs hsum
    induction rs generalizing compactStart with
    | nil => exact List.Pairwise.nil
    | cons r rs ih =>
      obtain ⟨hfirst, htail⟩ := List.pairwise_cons.mp horder
      refine List.pairwise_cons.mpr ⟨?_, ih htail⟩
      intro m hm
      obtain ⟨hmem, hlo, -⟩ := mem_numbered hm
      unfold rangeSize at hlo
      exact ⟨hfirst _ hmem, by dsimp only; omega⟩

/-- The last range ends with the last number. -/
theorem getLast_numbered (hne : rs ≠ []) (compactStart : Nat) :
    ∃ m, (numbered compactStart rs).getLast? = some m ∧ rs.getLast? = some m.valueRange ∧
      m.compactStart + rangeSize m.valueRange = compactStart + (rs.map rangeSize).sum := by
  induction rs generalizing compactStart with
  | nil => exact absurd rfl hne
  | cons r rs ih =>
    rw [List.map_cons, List.sum_cons]
    cases rs with
    | nil => exact ⟨⟨r, compactStart⟩, rfl, rfl, rfl⟩
    | cons s rs =>
      obtain ⟨m, hm, hr, hsum⟩ := ih (List.cons_ne_nil s rs) (compactStart + rangeSize r)
      refine ⟨m, ?_, ?_, by omega⟩
      · rw [numbered]
        rw [numbered] at hm ⊢
        exact hm
      · exact hr

/-- The amplitude is the number of covered values. -/
theorem amplitude_eq (hne : rs ≠ []) (hrs : ∀ r ∈ rs, r.1 ≤ r.2 ∧ r.2 ≤ u128Max)
    (hsum : (rs.map rangeSize).sum < 2 ^ 64) :
    amplitude ⟨numbered 1 rs⟩ = (rs.map rangeSize).sum := by
  obtain ⟨m, hm, hlast, hnumber⟩ := getLast_numbered hne 1
  obtain ⟨hle, hmax⟩ := hrs _ (List.mem_of_getLast? hlast)
  have hstart := (mem_numbered (List.mem_of_getLast? hm)).2.1
  have hlength : m.rangeLength = rangeSize m.valueRange := rangeLength_eq hle hmax (by omega)
  unfold amplitude
  rw [hm]
  dsimp only
  rw [RangeMapping.compactEnd, hlength, wrapAdd, hnumber, wrapSub]
  omega

/-! ### The bytes of a space -/

theorem readVIntU128_vintU128 {v : Nat} (hv : v < 2 ^ 128) (rest : Bytes) :
    readVIntU128 (vintU128 v ++ rest) = some (v, rest) := by
  have h19 : v < 128 ^ 19 := hv.trans_le (by norm_num)
  rw [readVIntU128, vintU128, vintLoopBits_vint true (by decide) h19 hv]

theorem deserializeRanges_serializeRanges (hrs : ∀ r ∈ rs, r.1 ≤ r.2 ∧ r.2 ≤ u128Max)
    (horder : rs.Pairwise fun a b => a.2 < b.1) {prev : Nat} (hprev : ∀ r ∈ rs, prev ≤ r.1)
    (compactStart : Nat) (rest : Bytes) :
    deserializeRanges rs.length prev compactStart
        (serializeRanges prev (withStarts compactStart rs) ++
          rest) =
      some (withStarts compactStart rs, rest) := by
  induction rs generalizing prev compactStart with
  | nil => rfl
  | cons r rs ih =>
    obtain ⟨hfirst, htail⟩ := List.pairwise_cons.mp horder
    obtain ⟨hle, hmax⟩ := hrs r List.mem_cons_self
    have hprevr := hprev r List.mem_cons_self
    unfold u128Max at hmax
    have hrest := ih (fun x hx => hrs x (List.mem_cons_of_mem r hx)) htail
      (fun x hx => (hfirst x hx).le)
      (wrapAdd 64 compactStart (RangeMapping.rangeLength ⟨r, compactStart⟩))
    rw [withStarts, serializeRanges, List.length_cons,
      deserializeRanges]
    rw [wrapSub_eq hprevr (by omega), wrapSub_eq hle (by omega), List.append_assoc,
      List.append_assoc, readVIntU128_vintU128 (by omega)]
    dsimp only
    rw [readVIntU128_vintU128 (by omega)]
    -- the differences add up to the bounds again
    have hstart : wrapAdd 128 prev (r.1 - prev) = r.1 := by
      rw [wrapAdd_eq (by omega)]
      omega
    have hend : wrapAdd 128 r.1 (r.2 - r.1) = r.2 := by
      rw [wrapAdd_eq (by omega)]
      omega
    simp [hstart, hend, hrest]

theorem length_withStarts (compactStart : Nat) (rs : List (Nat × Nat)) :
    (withStarts compactStart rs).length = rs.length := by
  induction rs generalizing compactStart with
  | nil => rfl
  | cons r rs ih => simp [withStarts, ih]

/-- **The ranges are read back.** -/
theorem deserialize_serialize_space (hrs : ∀ r ∈ rs, r.1 ≤ r.2 ∧ r.2 ≤ u128Max)
    (horder : rs.Pairwise fun a b => a.2 < b.1) (hlen : rs.length < 2 ^ 64) (rest : Bytes) :
    deserialize
        (serialize ⟨withStarts 1 rs⟩ ++ rest) =
      some (⟨withStarts 1 rs⟩, rest) := by
  have hcount : (UInt64.ofNat rs.length).toNat = rs.length := by
    rw [UInt64.toNat_ofNat', Nat.mod_eq_of_lt hlen]
  have hread := readVInt_vint (UInt64.ofNat rs.length)
    (serializeRanges 0 (withStarts 1 rs) ++ rest)
  rw [hcount] at hread
  unfold deserialize serialize
  simp [length_withStarts, hread, hcount,
    deserializeRanges_serializeRanges hrs horder (fun r _ => Nat.zero_le r.1)]

end TeaclaveCrates.Tantivy.FastFieldCodecs
