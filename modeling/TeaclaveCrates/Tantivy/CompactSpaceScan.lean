import TeaclaveCrates.Tantivy.BitUnpacking
import TeaclaveCrates.Tantivy.CompactSpaceRoundTrip

namespace TeaclaveCrates.Tantivy.FastFieldCodecs

open TeaclaveCrates.Lib

/-!
# Ranges of values in a compact space

A range of `u128` values is looked up by numbering its bounds; a bound that is not covered is moved
to the next range that is. The positions are gone through four at a time.

* `visitAll`, `unrolledLoop`, `scan` — the loop.
* `getPositionsForValueRange` — the query.
* `scan_eq_visitAll`, `of_scan_test` — the loop reads each position once.
* `Layout.fromBound_spec`, `Layout.toBound_spec` — the bounds select the right numbers.
* `Stored`, `columnOf` — the decompressor of some values.
* `positions_iff` — a query is exact and does not panic just when the positions are in order and the
  last one can be read.
-/

/-! ### The loop -/

section Loop

variable (read : Nat → Option Nat) (range : Nat × Nat)

/-- `push_if_in_range` -/
def pushIfInRange (idx val : Nat) : List Nat :=
  if range.1 ≤ val ∧ val ≤ range.2 then [idx] else []

/-- One position: it is read, and kept when its number is in the range. -/
def visit (idx : Nat) : Option (List Nat) := (read idx).map (pushIfInRange range idx)

/-- Positions one after the other. -/
def visitAll : List Nat → Option (List Nat)
  | [] => some []
  | idx :: rest =>
    match visit read range idx, visitAll rest with
    | some front, some back => some (front ++ back)
    | _, _ => none

/-- The body of the unrolled loop: four positions are read, and then looked at. -/
def unrolledStep (profile : Profile) (idx : Nat) : Option (List Nat) := do
  let idx1 := idx
  let idx2 ← profile.fit 32 (idx + 1)
  let idx3 ← profile.fit 32 (idx + 2)
  let idx4 ← profile.fit 32 (idx + 3)
  let val1 ← read idx1
  let val2 ← read idx2
  let val3 ← read idx3
  let val4 ← read idx4
  some (pushIfInRange range idx1 val1 ++ (pushIfInRange range idx2 val2 ++
    (pushIfInRange range idx3 val3 ++ pushIfInRange range idx4 val4)))

/-- `step_by`: as many rounds, four positions apart. -/
def unrolledLoop (profile : Profile) : Nat → Nat → Option (List Nat)
  | 0, _ => some []
  | n + 1, idx =>
    match unrolledStep read range profile idx, unrolledLoop profile n (idx + 4) with
    | some front, some back => some (front ++ back)
    | _, _ => none

/-- The positions from `start` to `stop`: whole rounds of four, and the rest. -/
def scan (profile : Profile) (start stop : Nat) : Option (List Nat) := do
  let scanNumDocs ← profile.fitSub 32 stop start
  let sum ← profile.fit 32 (start + scanNumDocs)
  let cutoff ← profile.fitSub 32 sum (scanNumDocs % 4)
  let unrolled ← unrolledLoop read range profile ((cutoff - start + 3) / 4) start
  let rest ← visitAll read range (List.range' cutoff (stop - cutoff))
  some (unrolled ++ rest)

variable {read range}

theorem visitAll_append (front back : List Nat) :
    visitAll read range (front ++ back) =
      match visitAll read range front, visitAll read range back with
      | some xs, some ys => some (xs ++ ys)
      | _, _ => none := by
  induction front with
  | nil =>
    show visitAll read range back = _
    cases visitAll read range back <;> rfl
  | cons idx front ih =>
    rw [List.cons_append, visitAll, visitAll, ih]
    cases visit read range idx with
    | none => cases visitAll read range front <;> rfl
    | some xs =>
      cases visitAll read range front with
      | none => rfl
      | some ys =>
        cases visitAll read range back with
        | none => rfl
        | some zs => exact congrArg some (List.append_assoc xs ys zs).symm

variable {profile : Profile}

/-- A round of the unrolled loop visits its four positions. -/
theorem unrolledStep_eq {idx : Nat} (hidx : idx + 3 < 2 ^ 32) :
    unrolledStep read range profile idx =
      visitAll read range [idx, idx + 1, idx + 2, idx + 3] := by
  unfold unrolledStep
  rw [Profile.fit_of_lt (by omega), Profile.fit_of_lt (by omega), Profile.fit_of_lt hidx]
  unfold visitAll visitAll visitAll visitAll visitAll visit
  dsimp only [Option.bind_eq_bind, Option.bind_some]
  -- the four reads come first, and one that fails ends the round
  cases read idx with
  | none => rfl
  | some val1 =>
    cases read (idx + 1) with
    | none => rfl
    | some val2 =>
      cases read (idx + 2) with
      | none => rfl
      | some val3 =>
        cases read (idx + 3) with
        | none => rfl
        | some val4 => simp

theorem unrolledLoop_eq {n idx : Nat} (hidx : idx + 4 * n ≤ 2 ^ 32) :
    unrolledLoop read range profile n idx = visitAll read range (List.range' idx (4 * n)) := by
  induction n generalizing idx with
  | zero => rfl
  | succ n ih =>
    -- a round takes the next four positions
    have hsplit : List.range' idx (4 * (n + 1)) =
        [idx, idx + 1, idx + 2, idx + 3] ++ List.range' (idx + 4) (4 * n) := by
      rfl
    rw [unrolledLoop, hsplit, visitAll_append, unrolledStep_eq (by omega), ih (by omega)]

/-- **The loop** visits each position once, in order. -/
theorem scan_eq_visitAll {start stop : Nat} (hle : start ≤ stop) (hstop : stop < 2 ^ 32) :
    scan read range profile start stop = visitAll read range (List.range' start (stop - start)) := by
  -- the rounds take a multiple of four positions, and the rest is visited one by one
  have hrounds : (start + (stop - start) - (stop - start) % 4 - start + 3) / 4 =
      (stop - start) / 4 := by omega
  have hcutoff : start + (stop - start) - (stop - start) % 4 =
      start + 4 * ((stop - start) / 4) := by omega
  have hsplit : List.range' start (stop - start) = List.range' start (4 * ((stop - start) / 4)) ++
      List.range' (start + 4 * ((stop - start) / 4))
        (stop - (start + 4 * ((stop - start) / 4))) := by
    rw [List.range'_append_1]
    congr 1
    omega
  rw [scan, Profile.fitSub_of_le hle]
  dsimp only [Option.bind_eq_bind, Option.bind_some]
  rw [Profile.fit_of_lt (by omega), Option.bind_some, Profile.fitSub_of_le (by omega),
    Option.bind_some, hrounds, hcutoff, unrolledLoop_eq (by omega), hsplit, visitAll_append]
  cases visitAll read range (List.range' start (4 * ((stop - start) / 4))) with
  | none => rfl
  | some xs =>
    cases visitAll read range (List.range' (start + 4 * ((stop - start) / 4))
      (stop - (start + 4 * ((stop - start) / 4)))) <;> rfl

/-- Positions that can be read are kept when their number is in the range. -/
theorem visitAll_eq {idxs : List Nat} {number : Nat → Nat}
    (hread : ∀ idx ∈ idxs, read idx = some (number idx)) :
    visitAll read range idxs =
      some (idxs.filter fun idx => decide (range.1 ≤ number idx ∧ number idx ≤ range.2)) := by
  induction idxs with
  | nil => rfl
  | cons idx idxs ih =>
    rw [visitAll, visit, hread idx List.mem_cons_self,
      ih fun i hi => hread i (List.mem_cons_of_mem _ hi), List.filter_cons]
    show some (pushIfInRange range idx (number idx) ++ _) = _
    rw [pushIfInRange]
    by_cases hin : range.1 ≤ number idx ∧ number idx ≤ range.2
    · simp [hin]
    · simp [hin]

/-- Positions that were visited could be read. -/
theorem read_of_visitAll {idxs positions : List Nat}
    (hvisit : visitAll read range idxs = some positions) :
    ∀ idx ∈ idxs, ∃ val, read idx = some val := by
  induction idxs generalizing positions with
  | nil => exact fun idx hidx => absurd hidx List.not_mem_nil
  | cons first idxs ih =>
    rw [visitAll] at hvisit
    split at hvisit
    · rename_i front back hfront hback
      intro idx hidx
      rcases List.mem_cons.mp hidx with rfl | hidx
      · obtain ⟨val, hval, -⟩ := Option.map_eq_some_iff.mp hfront
        exact ⟨val, hval⟩
      · exact ih hback idx hidx
    · cases hvisit

/-- With the checks, the positions are in order and can all be read. -/
theorem of_scan_test {start stop : Nat} {positions : List Nat} (hstop : stop < 2 ^ 32)
    (hscan : scan read range .test start stop = some positions) :
    start ≤ stop ∧ ∀ idx, start ≤ idx → idx < stop → ∃ val, read idx = some val := by
  -- otherwise the difference underflows
  have hle : start ≤ stop := by
    by_contra hgt
    have hsub : Profile.test.fitSub 32 stop start = none := if_neg hgt
    rw [scan, hsub] at hscan
    cases hscan
  refine ⟨hle, fun idx hstart hidx => ?_⟩
  rw [scan_eq_visitAll hle hstop] at hscan
  exact read_of_visitAll hscan idx (List.mem_range'_1.mpr ⟨hstart, by omega⟩)

end Loop

/-! ### The query -/

namespace CompactSpace

/-- The number of the lower bound; a bound that is not covered is moved up. -/
def fromBound (space : CompactSpace) (fromValue : Nat) : Option Nat :=
  match space.u128ToCompact fromValue with
  | .ok compact => some compact
  | .error pos => space.rangesMapping[pos]?.map RangeMapping.compactStart

/-- The number of the upper bound; a bound that is not covered is moved down. -/
def toBound (space : CompactSpace) (toValue : Nat) : Option Nat :=
  match space.u128ToCompact toValue with
  | .ok compact => some compact
  | .error 0 => none
  | .error (pos + 1) => space.rangesMapping[pos]?.map RangeMapping.compactEnd

/-- Both bounds are in the same gap between the ranges. -/
def SameGap (space : CompactSpace) (fromValue toValue : Nat) : Prop :=
  ∃ pos, space.u128ToCompact fromValue = .error pos ∧ space.u128ToCompact toValue = .error pos

instance (space : CompactSpace) (fromValue toValue : Nat) :
    Decidable (space.SameGap fromValue toValue) :=
  match hfrom : space.u128ToCompact fromValue, hto : space.u128ToCompact toValue with
  | .error pos, .error pos' =>
    if h : pos = pos' then isTrue ⟨pos, hfrom, h ▸ hto⟩
    else isFalse fun ⟨p, hp, hp'⟩ => h (by
      rw [hfrom] at hp
      rw [hto] at hp'
      exact (Except.error.inj hp).trans (Except.error.inj hp').symm)
  | .ok _, _ => isFalse fun ⟨_, hp, _⟩ => by rw [hfrom] at hp; cases hp
  | .error _, .ok _ => isFalse fun ⟨_, _, hp⟩ => by rw [hto] at hp; cases hp

end CompactSpace

/-- `get_positions_for_value_range`: the positions that are appended. -/
def CompactSpaceDecompressor.getPositionsForValueRange (profile : Profile)
    (d : CompactSpaceDecompressor) (fromValue toValue start stop : Nat) : Option (List Nat) :=
  if toValue < fromValue then some []
  else
    let stop := min stop d.params.numVals
    let space := d.params.compactSpace
    if space.SameGap fromValue toValue then some []
    else
      match space.fromBound fromValue, space.toBound toValue with
      | some compactFrom, some compactTo =>
        scan (d.params.bitUnpacker.getIn profile · d.data) (compactFrom,
          compactTo) profile start stop
      | _, _ => none

/-! ### The bounds -/

namespace Layout

variable {space : CompactSpace} (h : Layout space)

include h

/-- A value that is not covered lies in front of the range at its place, and behind those before. -/
theorem of_error {v pos : Nat} (herror : space.u128ToCompact v = .error pos) :
    pos ≤ space.rangesMapping.length ∧
      (∀ i m, i < pos → space.rangesMapping[i]? = some m → m.valueRange.2 < v) ∧
      ∀ i m, pos ≤ i → space.rangesMapping[i]? = some m → v < m.valueRange.1 := by
  have hlocated := binarySearchBy_located (h.partitioned_values v)
  -- the error of the query is the error of the search
  cases hsearch : binarySearchBy (CompactSpace.compareValue v) space.rangesMapping with
  | ok found =>
    rw [hsearch] at hlocated
    obtain ⟨m, hm, heq⟩ := hlocated
    have hok := h.u128ToCompact_eq (List.mem_of_getElem? hm) (compareValue_eq_iff.mp heq)
    rw [hok] at herror
    cases herror
  | error found =>
    have hfound : space.u128ToCompact v = .error found := by
      simp [CompactSpace.u128ToCompact, hsearch]
    obtain rfl : found = pos := Except.error.inj (hfound.symm.trans herror)
    rw [hsearch] at hlocated
    obtain ⟨hlen, hbelow, habove⟩ := hlocated
    refine ⟨hlen, fun i m hi hm => ?_, fun i m hi hm => ?_⟩
    · have hlt := hbelow i m hi hm
      unfold CompactSpace.compareValue at hlt
      split at hlt
      · cases hlt
      · split at hlt
        · assumption
        · cases hlt
    · have hgt := habove i m hi hm
      unfold CompactSpace.compareValue at hgt
      split at hgt
      · assumption
      · split at hgt <;> cases hgt

theorem u128ToCompact_le_iff {x y c d : Nat} (hx : space.u128ToCompact x = .ok c)
    (hy : space.u128ToCompact y = .ok d) : c ≤ d ↔ x ≤ y := by
  constructor
  · intro hle
    by_contra hlt
    have := h.u128ToCompact_lt hy hx (Nat.lt_of_not_le hlt)
    omega
  · intro hle
    rcases Nat.lt_or_eq_of_le hle with hlt | rfl
    · exact (h.u128ToCompact_lt hx hy hlt).le
    · rw [hx] at hy
      exact (Except.ok.inj hy).le

theorem compactEnd_eq {m : RangeMapping} (hm : m ∈ space.rangesMapping) :
    m.compactEnd = m.number m.valueRange.2 := by
  obtain ⟨hle, hmax, hfits⟩ := h.bounds m hm
  unfold u128Max at hmax
  unfold RangeMapping.compactEnd RangeMapping.rangeLength RangeMapping.number
  unfold wrapAdd wrapSub
  omega

/-- **The lower bound.** Unless it lies behind all ranges, its number is that of a value that is
    below the same covered values. -/
theorem fromBound_spec (lo : Nat) :
    space.u128ToCompact lo = .error space.rangesMapping.length ∨
      ∃ w c, space.fromBound lo = some c ∧ space.u128ToCompact w = .ok c ∧
        ∀ v d, space.u128ToCompact v = .ok d → (lo ≤ v ↔ w ≤ v) := by
  cases hlo : space.u128ToCompact lo with
  | ok c =>
    right
    refine ⟨lo, c, ?_, hlo, fun v d _ => Iff.rfl⟩
    rw [CompactSpace.fromBound, hlo]
  | error pos =>
    obtain ⟨hlen, hbelow, habove⟩ := h.of_error hlo
    by_cases hend : pos = space.rangesMapping.length
    · left
      rw [hend]
    right
    have hpos := List.getElem?_eq_getElem (Nat.lt_of_le_of_ne hlen hend)
    -- the bound is moved up to the start of the range at its place
    generalize space.rangesMapping[pos] = m at hpos
    have hmem := List.mem_of_getElem? hpos
    have hfirst := habove pos m (Nat.le_refl _) hpos
    have hordered := (h.bounds m hmem).1
    have hcontains : m.Contains m.valueRange.1 := ⟨Nat.le_refl _, hordered⟩
    refine ⟨m.valueRange.1, m.number m.valueRange.1, ?_, h.u128ToCompact_eq hmem hcontains, ?_⟩
    · simp [CompactSpace.fromBound, hlo, hpos, RangeMapping.number]
    · intro v d hv
      obtain ⟨r, hr, hin, -⟩ := h.exists_of_u128ToCompact_ok hv
      obtain ⟨j, hj⟩ := List.mem_iff_getElem?.mp hr
      unfold RangeMapping.Contains at hin
      constructor
      · intro hle
        -- the range of `v` is not in front of the place
        have hge : pos ≤ j := by
          by_contra hlt
          have := hbelow j r (Nat.lt_of_not_le hlt) hj
          omega
        rcases h.trichotomy hpos hj with hord | ⟨-, rfl⟩ | hord <;> omega
      · exact fun hle => (hfirst.trans_le hle).le

/-- **The upper bound.** Unless it lies in front of all ranges, its number is that of a value that
    is above the same covered values. -/
theorem toBound_spec (hi : Nat) :
    space.u128ToCompact hi = .error 0 ∨
      ∃ w c, space.toBound hi = some c ∧ space.u128ToCompact w = .ok c ∧
        ∀ v d, space.u128ToCompact v = .ok d → (v ≤ hi ↔ v ≤ w) := by
  cases hhi : space.u128ToCompact hi with
  | ok c =>
    right
    refine ⟨hi, c, ?_, hhi, fun v d _ => Iff.rfl⟩
    rw [CompactSpace.toBound, hhi]
  | error place =>
    obtain ⟨hlen, hbelow, habove⟩ := h.of_error hhi
    cases place with
    | zero => exact Or.inl rfl
    | succ pos =>
      right
      have hpos := List.getElem?_eq_getElem hlen
      -- the bound is moved down to the end of the range in front of its place
      generalize space.rangesMapping[pos] = m at hpos
      have hmem := List.mem_of_getElem? hpos
      have hlast := hbelow pos m (Nat.lt_succ_self _) hpos
      have hordered := (h.bounds m hmem).1
      have hcontains : m.Contains m.valueRange.2 := ⟨hordered, Nat.le_refl _⟩
      refine ⟨m.valueRange.2, m.number m.valueRange.2, ?_, h.u128ToCompact_eq hmem hcontains, ?_⟩
      · simp [CompactSpace.toBound, hhi, hpos, h.compactEnd_eq hmem]
      · intro v d hv
        obtain ⟨r, hr, hin, -⟩ := h.exists_of_u128ToCompact_ok hv
        obtain ⟨j, hj⟩ := List.mem_iff_getElem?.mp hr
        unfold RangeMapping.Contains at hin
        constructor
        · intro hle
          -- the range of `v` is not behind the place
          have hlt : j < pos + 1 := by
            by_contra hge
            have := habove j r (Nat.le_of_not_lt hge) hj
            omega
          rcases h.trichotomy hpos hj with hord | ⟨-, rfl⟩ | hord <;> omega
        · exact fun hle => (hle.trans_lt hlast).le

/-- In a gap there are no covered values. -/
theorem not_covered_of_sameGap {lo hi : Nat} (hgap : space.SameGap lo hi) {v c : Nat}
    (hv : space.u128ToCompact v = .ok c) : ¬(lo ≤ v ∧ v ≤ hi) := by
  obtain ⟨pos, hlo, hhi⟩ := hgap
  obtain ⟨r, hr, hin, -⟩ := h.exists_of_u128ToCompact_ok hv
  obtain ⟨j, hj⟩ := List.mem_iff_getElem?.mp hr
  unfold RangeMapping.Contains at hin
  -- the range of `v` is on one side of the gap
  rcases Nat.lt_or_ge j pos with hlt | hpos
  · have := (h.of_error hlo).2.1 j r hlt hj
    omega
  · have := (h.of_error hhi).2.2 j r hpos hj
    omega

/-- **Both bounds.** Outside of a common gap they have numbers, and the numbers between these are
    those of the covered values between the bounds. -/
theorem bounds_spec {lo hi : Nat} (hle : lo ≤ hi) (hgap : ¬space.SameGap lo hi) :
    ∃ compactFrom compactTo, space.fromBound lo = some compactFrom ∧
      space.toBound hi = some compactTo ∧
      ∀ v c, space.u128ToCompact v = .ok c →
        (compactFrom ≤ c ∧ c ≤ compactTo ↔ lo ≤ v ∧ v ≤ hi) := by
  rcases h.fromBound_spec lo with hbehind | ⟨w, compactFrom, hfrom, hw, hlower⟩
  · -- behind all ranges the upper bound is in the same gap
    refine absurd ⟨_, hbehind, ?_⟩ hgap
    obtain ⟨-, hbelow, -⟩ := h.of_error hbehind
    cases hhi : space.u128ToCompact hi with
    | ok c =>
      obtain ⟨r, hr, hin, -⟩ := h.exists_of_u128ToCompact_ok hhi
      obtain ⟨j, hj⟩ := List.mem_iff_getElem?.mp hr
      obtain ⟨hlt, -⟩ := List.getElem?_eq_some_iff.mp hj
      have := hbelow j r hlt hj
      unfold RangeMapping.Contains at hin
      omega
    | error pos =>
      obtain ⟨hlen, -, habove⟩ := h.of_error hhi
      by_contra hne
      have hlt : pos < space.rangesMapping.length :=
        Nat.lt_of_le_of_ne hlen fun heq => hne (by rw [heq])
      have hpos := List.getElem?_eq_getElem hlt
      have hstart := habove pos _ (Nat.le_refl _) hpos
      have hstop := hbelow pos _ hlt hpos
      have hbounds := h.bounds _ (List.mem_of_getElem? hpos)
      omega
  · rcases h.toBound_spec hi with hfront | ⟨w', compactTo, hto, hw', hupper⟩
    · -- in front of all ranges the lower bound is in the same gap
      refine absurd ⟨0, ?_, hfront⟩ hgap
      obtain ⟨-, -, habove⟩ := h.of_error hfront
      cases hlo : space.u128ToCompact lo with
      | ok c =>
        obtain ⟨r, hr, hin, -⟩ := h.exists_of_u128ToCompact_ok hlo
        obtain ⟨j, hj⟩ := List.mem_iff_getElem?.mp hr
        have := habove j r (Nat.zero_le _) hj
        unfold RangeMapping.Contains at hin
        omega
      | error pos =>
        obtain ⟨hlen, hbelow, -⟩ := h.of_error hlo
        cases pos with
        | zero => rfl
        | succ pos =>
          have hpos := List.getElem?_eq_getElem hlen
          have hstart := habove pos _ (Nat.zero_le _) hpos
          have hstop := hbelow pos _ (Nat.lt_succ_self _) hpos
          have hbounds := h.bounds _ (List.mem_of_getElem? hpos)
          omega
    · refine ⟨compactFrom, compactTo, hfrom, hto, fun v c hv => ?_⟩
      rw [h.u128ToCompact_le_iff hw hv, h.u128ToCompact_le_iff hv hw', ← hlower v c hv,
        ← hupper v c hv]

end Layout

/-! ### Queries -/

/-- The decompressor of some values: the parameters that are trained for them, with an amplitude
    within `u64`, and the data that is written with these. -/
structure Stored (pops : List BlankRange → List BlankRange) (vals : List Nat)
    (d : CompactSpaceDecompressor) : Prop where
  trained : trainFrom pops vals vals.length = some d.params
  covered : (spaceOf pops vals).numCovered ≤ 2 ^ 64 - 1
  written : compressInto d.params vals = some d.data

/-- The positions whose value is in the range. -/
def positionsOf (vals : List Nat) (lo hi start stop : Nat) : List Nat :=
  (List.range' start (min stop vals.length - start)).filter fun idx =>
    match vals[idx]? with
    | some v => decide (lo ≤ v ∧ v ≤ hi)
    | none => false

/-- Where a query is exact: there is nothing to look at, or the positions are in order and the last
    of them can be read. -/
def Scannable (d : CompactSpaceDecompressor) (lo hi start stop : Nat) : Prop :=
  hi < lo ∨ d.params.compactSpace.SameGap lo hi ∨
    start ≤ min stop d.params.numVals ∧
      (start < min stop d.params.numVals →
        BitUnpacker.Fits d.params.numBits (min stop d.params.numVals - 1) ∧
          BitUnpacker.InData .test d.params.numBits (min stop d.params.numVals - 1) d.data)

/-- The decompressor that training and writing give. -/
def columnOf (pops : List BlankRange → List BlankRange) (vals : List Nat) :
    CompactSpaceDecompressor where
  data := BitPacker.pack (packedOf pops vals) ++
    ((paramsOf pops vals).serialize ++ toLE 4 (paramsOf pops vals).serialize.length)
  params := paramsOf pops vals

section Query

variable {pops : List BlankRange → List BlankRange} {vals : List Nat}
  {d : CompactSpaceDecompressor} (hpops : HeapOrder pops) (hlt : ∀ v ∈ vals, v < 2 ^ 128)
  (hlen : vals.length < 2 ^ 32) (hstored : Stored pops vals d)

include hpops hlt hlen hstored

/-- There is no other one. -/
theorem Stored.eq_columnOf : d = columnOf pops vals := by
  obtain ⟨rs, h⟩ := exists_spaceRanges hpops hlt hlen
  obtain ⟨data, params⟩ := d
  have htrained := hstored.trained
  rw [trainFrom_eq h hstored.covered] at htrained
  obtain rfl := Option.some.inj htrained
  have hwritten := hstored.written
  rw [compressInto_eq h hstored.covered] at hwritten
  obtain rfl := Option.some.inj hwritten
  rfl

omit hstored in
theorem stored_columnOf (hcovered : (spaceOf pops vals).numCovered ≤ 2 ^ 64 - 1) :
    Stored pops vals (columnOf pops vals) := by
  obtain ⟨rs, h⟩ := exists_spaceRanges hpops hlt hlen
  exact ⟨trainFrom_eq h hcovered, hcovered, compressInto_eq h hcovered⟩

/-- What is known of a decompressor: its space has the layout, its values have numbers, and these are
    read where their position fits. -/
theorem Stored.spec :
    d.params.numVals = vals.length ∧ d.params.bitUnpacker = BitUnpacker.new d.params.numBits ∧
      Layout d.params.compactSpace ∧
      ∃ number : Nat → Nat,
        (∀ v ∈ vals, d.params.compactSpace.u128ToCompact v = .ok (number v)) ∧
        ∀ profile idx v, vals[idx]? = some v → BitUnpacker.Fits d.params.numBits idx →
          BitUnpacker.InData profile d.params.numBits idx d.data →
          d.params.bitUnpacker.getIn profile idx d.data = some (number v) := by
  obtain ⟨rs, h⟩ := exists_spaceRanges hpops hlt hlen
  obtain rfl := hstored.eq_columnOf hpops hlt hlen
  have hcovered := hstored.covered
  refine ⟨rfl, rfl, h.layout hcovered, (spaceOf pops vals).compactOf,
    fun v hv => (h.value_spec hcovered hv).1, ?_⟩
  intro profile idx v hv hfits hdata
  -- the numbers fit in the width they are packed with
  have hcompacts : ∀ c ∈ vals.map (spaceOf pops vals).compactOf, c < 2 ^ widthOf pops vals := by
    intro c hc
    obtain ⟨w, hw, rfl⟩ := List.mem_map.mp hc
    exact (h.value_spec hcovered hw).2.1
  have hwidth : ∀ x ∈ packedOf pops vals, x.1 < 2 ^ x.2 ∧ x.2 ≤ 64 := by
    intro x hx
    obtain ⟨c, hc, rfl⟩ := List.mem_map.mp hx
    exact ⟨hcompacts c hc, computeNumBits_le _⟩
  obtain ⟨hvalue, hlength⟩ := BitPacker.pack_spec hwidth
  have hget : (vals.map (spaceOf pops vals).compactOf)[idx]? =
      some ((spaceOf pops vals).compactOf v) := by
    rw [List.getElem?_map, hv, Option.map_some]
  -- the footer follows the numbers
  obtain ⟨post, hpacked⟩ := exists_packed_append hvalue (by omega)
    ((paramsOf pops vals).serialize ++ toLE 4 (paramsOf pops vals).serialize.length)
  exact BitUnpacker.getIn_pack (computeNumBits_cases _) hcompacts post hpacked hget hfits hdata

omit hpops hlt hlen hstored in
/-- Without a value in the range there is no position. -/
theorem positionsOf_eq_nil {lo hi : Nat} (hout : ∀ v ∈ vals,
    ¬(lo ≤ v ∧ v ≤ hi)) (start stop : Nat) :
    positionsOf vals lo hi start stop = [] := by
  rw [positionsOf, List.filter_eq_nil_iff]
  intro idx _
  cases hv : vals[idx]? with
  | none => exact Bool.false_ne_true
  | some v => exact fun hin => hout v (List.mem_of_getElem? hv) (of_decide_eq_true hin)

/-- A query is exact where the positions can be read, and with overflow checks it returns nowhere
    else. -/
theorem scannable_spec (lo hi start stop : Nat) :
    (Scannable d lo hi start stop → ∀ profile,
      d.getPositionsForValueRange profile lo hi start stop =
        some (positionsOf vals lo hi start stop)) ∧
      ∀ positions, d.getPositionsForValueRange .test lo hi start stop = some positions →
        Scannable d lo hi start stop := by
  obtain ⟨hnum, hunpacker, hlayout, number, hnumber, hread⟩ := hstored.spec hpops hlt hlen
  unfold CompactSpaceDecompressor.getPositionsForValueRange Scannable
  -- the two early returns
  by_cases hreversed : hi < lo
  · refine ⟨fun _ profile => ?_, fun _ _ => Or.inl hreversed⟩
    rw [if_pos hreversed, positionsOf_eq_nil fun v _ => by omega]
  by_cases hgap : d.params.compactSpace.SameGap lo hi
  · refine ⟨fun _ profile => ?_, fun _ _ => Or.inr (Or.inl hgap)⟩
    rw [if_neg hreversed, if_pos hgap, positionsOf_eq_nil]
    exact fun v hv => hlayout.not_covered_of_sameGap hgap (hnumber v hv)
  obtain ⟨compactFrom, compactTo, hfrom, hto, hbetween⟩ :=
    hlayout.bounds_spec (Nat.le_of_not_lt hreversed) hgap
  -- what is left is the loop between the numbers of the bounds
  simp only [hreversed, hgap, hfrom, hto, hunpacker, hnum, if_false, false_or]
  have hend : min stop vals.length < 2 ^ 32 := (Nat.min_le_right _ _).trans_lt hlen
  constructor
  · rintro ⟨hle, hlast⟩ profile
    -- the last position can be read, so those in front of it can
    have hvisit : ∀ idx ∈ List.range' start (min stop vals.length - start),
        (BitUnpacker.new d.params.numBits).getIn profile idx d.data =
          some (number (vals[idx]?.getD 0)) := by
      intro idx hidx
      have hmem := List.mem_range'_1.mp hidx
      obtain ⟨hfits, hdata⟩ := hlast (by omega)
      have hv := List.getElem?_eq_getElem (show idx < vals.length by omega)
      have hprofile : BitUnpacker.InData profile d.params.numBits (min stop vals.length - 1)
          d.data := by
        cases profile with
        | release => exact hdata.release
        | test => exact hdata
      rw [hv, Option.getD_some, ← hunpacker]
      exact hread profile idx _ hv (hfits.mono (by omega)) (hprofile.mono (by omega))
    rw [scan_eq_visitAll hle hend, visitAll_eq hvisit, positionsOf]
    refine congrArg some (List.filter_congr fun idx hidx => ?_)
    have hmem := List.mem_range'_1.mp hidx
    have hv := List.getElem?_eq_getElem (show idx < vals.length by omega)
    rw [hv, Option.getD_some]
    exact decide_eq_decide.mpr (hbetween _ _ (hnumber _ (List.getElem_mem _)))
  · intro positions h
    obtain ⟨hle, hreads⟩ := of_scan_test hend h
    refine ⟨hle, fun hmore => ?_⟩
    obtain ⟨val, hval⟩ := hreads (min stop vals.length - 1) (by omega) (by omega)
    exact BitUnpacker.of_getIn_test hval

/-- **Range filtering.** A query returns exactly the positions whose value is in the range, in both
    profiles, just when there is nothing to look at, or the positions are in order and the last of
    them can be read: positions that start behind the end underflow, and so far behind that the bits
    before it need more than 32 bits to count, a position is not found. -/
theorem positions_iff (lo hi start stop : Nat) :
    (∀ profile, d.getPositionsForValueRange profile lo hi start stop =
      some (positionsOf vals lo hi start stop)) ↔ Scannable d lo hi start stop :=
  have h := scannable_spec hpops hlt hlen hstored lo hi start stop
  ⟨fun hall => h.2 _ (hall .test), h.1⟩

end Query

/-- Three values, of which two are in a range whose upper bound is in a gap. -/
theorem positions_iff_three :
    Stored popsDescending [1, 2 ^ 127, 1] (columnOf popsDescending [1, 2 ^ 127, 1]) ∧
      ∀ profile, (columnOf popsDescending [1, 2 ^ 127, 1]).getPositionsForValueRange profile
        0 100 0 7 = some [0, 2] := by
  have hlt : ∀ v ∈ [1, 2 ^ 127, 1], v < 2 ^ 128 := by decide
  have hstored := stored_columnOf heapOrder_popsDescending hlt (by decide) (by decide +kernel)
  refine ⟨hstored,
    (positions_iff heapOrder_popsDescending hlt (by decide) hstored 0 100 0 7).mpr ?_⟩
  exact Or.inr (Or.inr ⟨by decide +kernel, fun _ => ⟨by decide +kernel,
    Or.inr (by decide +kernel)⟩⟩)

/-- The positions 2 to 3 of a column with one value: `position_range.end` is cut to 1, and the
    difference underflows. -/
theorem positions_underflow :
    Stored popsDescending [5] (columnOf popsDescending [5]) ∧
      ¬∀ profile, (columnOf popsDescending [5]).getPositionsForValueRange profile 0 10 2 3 =
        some (positionsOf [5] 0 10 2 3) := by
  refine ⟨stored_columnOf heapOrder_popsDescending (by decide) (by decide) (by decide +kernel), ?_⟩
  intro hall
  have hnone : (columnOf popsDescending [5]).getPositionsForValueRange .test 0 10 2 3 = none := by
    decide +kernel
  rw [hall .test] at hnone
  cases hnone

end TeaclaveCrates.Tantivy.FastFieldCodecs
