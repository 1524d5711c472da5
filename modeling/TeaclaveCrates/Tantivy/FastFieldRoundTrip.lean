import TeaclaveCrates.Tantivy.FastFieldCodecs

namespace TeaclaveCrates.Tantivy.FastFieldCodecs

open TeaclaveCrates.Lib

/-!
# Fast fields are read back

* `minmax_spec` — the bounds of a column.
* `findGcd_dvd`, `gcdBaseval_inverse` — the normalization and its inverse.
* `fastField_roundTrip` — a whole column, with its bounds.
-/

/-! ### Bounds -/

section Bounds

variable {T : Type} [LE T] [MonotonicallyMappableToU64 T]

open MonotonicallyMappableToU64

theorem mappable_le_refl (v : T) : v ≤ v := (to_le_to v v).mp (UInt64.le_refl _)

theorem mappable_le_trans {u v w : T} (huv : u ≤ v) (hvw : v ≤ w) : u ≤ w :=
  (to_le_to u w).mp (UInt64.le_trans ((to_le_to u v).mpr huv) ((to_le_to v w).mpr hvw))

theorem mappable_le_of_not_le {v w : T} (h : ¬v ≤ w) : w ≤ v := by
  rw [← to_le_to] at h ⊢
  rw [UInt64.le_iff_toNat_le] at h ⊢
  omega

variable [DecidableLE T]

/-- The loop of `minmax` returns bounds that are among the values it has seen. -/
theorem minmax_foldl (vals : List T) (b : T × T) :
    let r := vals.foldl
      (fun b el => (if b.1 ≤ el then b.1 else el, if b.2 ≤ el then el else b.2)) b
    (r.1 = b.1 ∨ r.1 ∈ vals) ∧ (r.2 = b.2 ∨ r.2 ∈ vals) ∧ r.1 ≤ b.1 ∧ b.2 ≤ r.2 ∧
      ∀ v ∈ vals, r.1 ≤ v ∧ v ≤ r.2 := by
  induction vals generalizing b with
  | nil => exact ⟨Or.inl rfl, Or.inl rfl, mappable_le_refl _, mappable_le_refl _, by simp⟩
  | cons el vals ih =>
    rw [List.foldl_cons]
    obtain ⟨hlo, hhi, hloLe, hhiLe, hall⟩ :=
      ih (if b.1 ≤ el then b.1 else el, if b.2 ≤ el then el else b.2)
    have hmin : (if b.1 ≤ el then b.1 else el) ≤ b.1 ∧ (if b.1 ≤ el then b.1 else el) ≤ el := by
      by_cases h : b.1 ≤ el
      · rw [if_pos h]
        exact ⟨mappable_le_refl _, h⟩
      · rw [if_neg h]
        exact ⟨mappable_le_of_not_le h, mappable_le_refl _⟩
    have hmax : b.2 ≤ (if b.2 ≤ el then el else b.2) ∧ el ≤ (if b.2 ≤ el then el else b.2) := by
      by_cases h : b.2 ≤ el
      · rw [if_pos h]
        exact ⟨h, mappable_le_refl _⟩
      · rw [if_neg h]
        exact ⟨mappable_le_refl _, mappable_le_of_not_le h⟩
    have hminMem : (if b.1 ≤ el then b.1 else el) = b.1 ∨ (if b.1 ≤ el then b.1 else el) = el := by
      split
      · exact Or.inl rfl
      · exact Or.inr rfl
    have hmaxMem : (if b.2 ≤ el then el else b.2) = b.2 ∨ (if b.2 ≤ el then el else b.2) = el := by
      split
      · exact Or.inr rfl
      · exact Or.inl rfl
    -- a bound is the one so far or the new value, and the rest of the column moves it on
    refine ⟨?_, ?_, mappable_le_trans hloLe hmin.1, mappable_le_trans hmax.1 hhiLe, ?_⟩
    · rcases hlo with hlo | hlo
      · rw [hlo, List.mem_cons]
        exact hminMem.imp_right Or.inl
      · exact Or.inr (List.mem_cons_of_mem el hlo)
    · rcases hhi with hhi | hhi
      · rw [hhi, List.mem_cons]
        exact hmaxMem.imp_right Or.inl
      · exact Or.inr (List.mem_cons_of_mem el hhi)
    · intro v hv
      rcases List.mem_cons.mp hv with rfl | hv
      · exact ⟨mappable_le_trans hloLe hmin.2, mappable_le_trans hmax.2 hhiLe⟩
      · exact hall v hv

/-- The bounds of a column are among its values. -/
theorem minmax_spec [Inhabited T] {vals : List T} (h : vals ≠ []) :
    (VecColumn.ofList vals).minValue ∈ vals ∧ (VecColumn.ofList vals).maxValue ∈ vals ∧
      ∀ v ∈ vals, (VecColumn.ofList vals).minValue ≤ v ∧ v ≤ (VecColumn.ofList vals).maxValue := by
  cases vals with
  | nil => exact absurd rfl h
  | cons first vals =>
    obtain ⟨hlo, hhi, hloLe, hhiLe, hall⟩ := minmax_foldl vals (first, first)
    refine ⟨List.mem_cons.mpr hlo, List.mem_cons.mpr hhi, ?_⟩
    · intro v hv
      rcases List.mem_cons.mp hv with rfl | hv
      · exact ⟨hloLe, hhiLe⟩
      · exact hall v hv

end Bounds

/-! ### The common divisor -/

theorem toNat_computeGcd {fuel : Nat} {large small : UInt64} (hpos : 0 < small.toNat)
    (hfuel : small.toNat ≤ fuel) :
    (computeGcd fuel large small).toNat = Nat.gcd large.toNat small.toNat := by
  induction fuel generalizing large small with
  | zero => omega
  | succ fuel ih =>
    rw [computeGcd]
    have hrem : (large % small).toNat = large.toNat % small.toNat := UInt64.toNat_mod large small
    by_cases h : large % small = 0
    · rw [if_pos h]
      rw [h] at hrem
      exact (Nat.gcd_eq_right (Nat.dvd_of_mod_eq_zero hrem.symm)).symm
    · rw [if_neg h]
      have hne : (large % small).toNat ≠ 0 := fun h0 => h (UInt64.toNat_inj.mp h0)
      have hlt := Nat.mod_lt large.toNat hpos
      rw [ih (by omega) (by omega), hrem, Nat.gcd_comm large.toNat small.toNat,
        Nat.gcd_rec small.toNat large.toNat, Nat.gcd_comm]

section Divide

variable {divide : UInt64 → UInt64 → UInt64}

/-- What is assumed of the library for dividers. -/
def ExactDivide (divide : UInt64 → UInt64 → UInt64) : Prop := ∀ d v, d ≠ 0 → divide d v = v / d

theorem toNat_div_mul (v d : UInt64) : (v / d * d).toNat = v.toNat / d.toNat * d.toNat := by
  rw [UInt64.toNat_mul, UInt64.toNat_div, Nat.mod_eq_of_lt]
  exact (Nat.div_mul_le_self _ _).trans_lt v.toNat_lt

/-- The remainder as `find_gcd` computes it. -/
theorem sub_div_mul_eq_zero_iff {v d : UInt64} :
    v - v / d * d = 0 ↔ d.toNat ∣ v.toNat := by
  have hle : (v / d * d).toNat ≤ v.toNat := by
    rw [toNat_div_mul]
    exact Nat.div_mul_le_self _ _
  rw [← UInt64.toNat_inj, UInt64.toNat_sub_of_le v _ (UInt64.le_iff_toNat_le.mpr hle),
    toNat_div_mul]
  show v.toNat - v.toNat / d.toNat * d.toNat = 0 ↔ _
  rw [Nat.dvd_iff_mod_eq_zero, Nat.mod_eq_sub_div_mul]

variable {gcd : UInt64}

theorem findGcdLoop_dvd (hdivide : ExactDivide divide) (vals : List UInt64) (hgcd : gcd ≠ 0) :
    findGcdLoop divide gcd vals ≠ 0 ∧ (findGcdLoop divide gcd vals).toNat ∣ gcd.toNat ∧
      ∀ v ∈ vals, (findGcdLoop divide gcd vals).toNat ∣ v.toNat := by
  induction vals generalizing gcd with
  | nil => exact ⟨hgcd, Nat.dvd_refl _, by simp⟩
  | cons val vals ih =>
    rw [findGcdLoop, hdivide gcd val hgcd]
    have hpos : 0 < gcd.toNat :=
      Nat.pos_of_ne_zero fun h0 => hgcd (UInt64.toNat_inj.mp h0)
    by_cases hrem : val - val / gcd * gcd = 0
    · rw [if_pos hrem]
      obtain ⟨hne, hdvd, hall⟩ := ih hgcd
      refine ⟨hne, hdvd, ?_⟩
      intro v hv
      rcases List.mem_cons.mp hv with rfl | hv
      · exact hdvd.trans (sub_div_mul_eq_zero_iff.mp hrem)
      · exact hall v hv
    · rw [if_neg hrem]
      have hto := @toNat_computeGcd gcd.toNat val gcd hpos (Nat.le_refl gcd.toNat)
      generalize computeGcd gcd.toNat val gcd = next at hto ⊢
      have hdvdVal : next.toNat ∣ val.toNat := hto ▸ Nat.gcd_dvd_left _ _
      have hdvdGcd : next.toNat ∣ gcd.toNat := hto ▸ Nat.gcd_dvd_right _ _
      have hne : next ≠ 0 := by
        rintro rfl
        exact absurd (Nat.eq_zero_of_zero_dvd hdvdGcd) (by omega)
      -- the loop stops at 1, which divides what it has not seen
      by_cases hone : next = 1
      · rw [if_pos hone, hone]
        exact ⟨by decide, Nat.one_dvd _, fun v _ => Nat.one_dvd _⟩
      · rw [if_neg hone]
        obtain ⟨hne', hdvd, hall⟩ := ih hne
        refine ⟨hne', hdvd.trans hdvdGcd, ?_⟩
        intro v hv
        rcases List.mem_cons.mp hv with rfl | hv
        · exact hdvd.trans hdvdVal
        · exact hall v hv

theorem findGcd_dvd (hdivide : ExactDivide divide) {numbers : List UInt64}
    (h : findGcd divide numbers = some gcd) : gcd ≠ 0 ∧ ∀ v ∈ numbers, gcd.toNat ∣ v.toNat := by
  have hzero : ∀ v ∈ numbers, v ∉ numbers.filter (· ≠ 0) → gcd.toNat ∣ v.toNat := by
    intro v hv hno
    have h0 : v = 0 := by simpa [hv] using hno
    rw [h0]
    exact Nat.dvd_zero _
  unfold findGcd at h
  cases hfilter : numbers.filter (· ≠ 0) with
  | nil =>
    rw [hfilter] at h
    cases h
  | cons first vals =>
    rw [hfilter] at h hzero
    have hfirst : first ≠ 0 := by
      have hmem : first ∈ numbers.filter (· ≠ 0) := hfilter ▸ List.mem_cons_self
      simpa using (List.mem_filter.mp hmem).2
    dsimp only at h
    have hboth : gcd ≠ 0 ∧ ∀ v ∈ first :: vals, gcd.toNat ∣ v.toNat := by
      by_cases hone : first = 1
      · rw [if_pos hone] at h
        obtain rfl : first = gcd := Option.some.inj h
        rw [hone]
        exact ⟨by decide, fun v _ => Nat.one_dvd _⟩
      · rw [if_neg hone] at h
        obtain ⟨hne, hdvd, hall⟩ := findGcdLoop_dvd hdivide vals hfirst
        rw [← Option.some.inj h]
        refine ⟨hne, fun v hv => ?_⟩
        rcases List.mem_cons.mp hv with rfl | hv
        · exact hdvd
        · exact hall v hv
    refine ⟨hboth.1, fun v hv => ?_⟩
    -- the zeros are left out of the search, and everything divides them
    by_cases hmem : v ∈ first :: vals
    · exact hboth.2 v hmem
    · exact hzero v hv hmem

/-- The mapping by which a column was normalized is undone. -/
theorem gcdBaseval_inverse (hdivide : ExactDivide divide) {minValue val : UInt64} (hgcd : gcd ≠ 0)
    (hdvd : gcd.toNat ∣ (val - minValue).toNat) :
    minValue + gcdBaseval divide gcd minValue val * gcd = val := by
  rw [gcdBaseval, hdivide gcd _ hgcd]
  have hmul : (val - minValue) / gcd * gcd = val - minValue := by
    apply UInt64.toNat_inj.mp
    rw [toNat_div_mul, Nat.div_mul_cancel hdvd]
  rw [hmul, UInt64.add_comm, UInt64.sub_add_cancel]

end Divide

/-! ### Whole columns -/

section RoundTrip

variable {T : Type} [LE T] [MonotonicallyMappableToU64 T]

open MonotonicallyMappableToU64

/-- The divisor of a header, one where the header has none. -/
theorem header_gcd {divide : UInt64 → UInt64 → UInt64} (hdivide : ExactDivide divide)
    (column : VecColumn UInt64) (codec : FastFieldCodecType) :
    (computeHeader divide column codec).gcd.getD 1 ≠ 0 ∧
      ∀ v ∈ column.vals,
        ((computeHeader divide column codec).gcd.getD 1).toNat ∣ (v - column.minValue).toNat := by
  show ((findGcd divide (column.vals.map (· - column.minValue))).filter (1 < ·)).getD 1 ≠ 0 ∧ _
  cases hgcd : findGcd divide (column.vals.map (· - column.minValue)) with
  | none =>
    have hnone : (computeHeader divide column codec).gcd = none := by
      simp [computeHeader, hgcd]
    rw [hnone]
    exact ⟨by decide, fun v _ => Nat.one_dvd _⟩
  | some gcd =>
    obtain ⟨hne, hdvd⟩ := findGcd_dvd hdivide hgcd
    by_cases hone : 1 < gcd
    · have hsome : (computeHeader divide column codec).gcd = some gcd := by
        simp [computeHeader, hgcd, Option.filter_some, (decide_eq_true hone)]
      rw [hsome, Option.filter_some, if_pos (decide_eq_true hone)]
      exact ⟨hne, fun v hv => hdvd _ (List.mem_map_of_mem hv)⟩
    · have hnone : (computeHeader divide column codec).gcd = none := by
        rw [computeHeader, hgcd, Option.filter_some, if_neg (by simp [hone])]
      rw [hnone, Option.filter_some, if_neg (by simp [hone])]
      exact ⟨by decide, fun v _ => Nat.one_dvd _⟩

/-- Both ways of opening undo the normalization. -/
theorem openSpecificCodec_eq (divide : UInt64 → UInt64 → UInt64) (bytes : Bytes) (header : Header) :
    (openSpecificCodec divide bytes header : Option (DynColumn T)) =
      (openFromBytes bytes (header.normalized divide) header.codecType).map fun reader =>
        reader.map fun out => fromU64 (header.minValue + out * header.gcd.getD 1) := by
  unfold openSpecificCodec
  cases header.gcd with
  | some gcd => rfl
  | none =>
    simp

theorem normalized_eq (divide : UInt64 → UInt64 → UInt64) (column : VecColumn UInt64)
    (codec : FastFieldCodecType) :
    (computeHeader divide column codec).normalized divide =
      headerOf ((computeHeader divide column codec).normalizeColumn divide column) := by
  have hnum : column.numVals =
      ((computeHeader divide column codec).normalizeColumn divide column).numVals := by
    show column.vals.length % 2 ^ 32 = (column.vals.map _).length % 2 ^ 32
    simp
  rw [headerOf, ← hnum]
  rfl

/-- Division keeps the order of the values behind the minimum. -/
theorem gcdBaseval_le {divide : UInt64 → UInt64 → UInt64} (hdivide : ExactDivide divide)
    {gcd minValue v w : UInt64} (hgcd : gcd ≠ 0) (hv : minValue ≤ v) (hvw : v ≤ w) :
    gcdBaseval divide gcd minValue v ≤ gcdBaseval divide gcd minValue w := by
  have hw : minValue ≤ w := UInt64.le_trans hv hvw
  rw [gcdBaseval, gcdBaseval, hdivide gcd _ hgcd, hdivide gcd _ hgcd, UInt64.le_iff_toNat_le,
    UInt64.toNat_div, UInt64.toNat_div, UInt64.toNat_sub_of_le _ _ hv,
    UInt64.toNat_sub_of_le _ _ hw]
  apply Nat.div_le_div_right
  exact Nat.sub_le_sub_right (UInt64.le_iff_toNat_le.mp hvw) _

variable [Inhabited T] [DecidableLE T]

/-- The column of some values, as it is normalized. -/
def mappedColumn (vals : List T) : VecColumn UInt64 := (VecColumn.ofList vals).map toU64

theorem mappedColumn_bounds (vals : List T) :
    ∀ v ∈ (mappedColumn vals).vals,
      (mappedColumn vals).minValue ≤ v ∧ v ≤ (mappedColumn vals).maxValue := by
  intro v hv
  obtain ⟨w, hw, rfl⟩ := List.mem_map.mp hv
  have hne : vals ≠ [] := by
    rintro rfl
    cases hw
  obtain ⟨-, -, hall⟩ := minmax_spec hne
  exact ⟨(to_le_to _ _).mpr (hall w hw).1, (to_le_to _ _).mpr (hall w hw).2⟩

/-- What a codec reads of a column that was normalized and written with it. -/
theorem normalized_decodes {divide : UInt64 → UInt64 → UInt64} (hdivide : ExactDivide divide)
    (vals : List T) (codec : FastFieldCodecType) (hlen : vals.length < 2 ^ 32)
    (hlinear : codec = .linear → vals ≠ [])
    (hshort : ShortSections
      ((computeHeader divide (mappedColumn vals) codec).normalizeColumn divide (mappedColumn vals))
      codec) :
    let header := computeHeader divide (mappedColumn vals) codec
    let column := header.normalizeColumn divide (mappedColumn vals)
    ∃ bytes inner, serializeGivenCodec column codec = some bytes ∧
      openFromBytes bytes (header.normalized divide) codec = some inner ∧ Decodes column inner ∧
      column.minValue = 0 ∧ inner.numVals = vals.length ∧
      ∀ i v, vals[i]? = some v → inner.getVal i =
        some (gcdBaseval divide (header.gcd.getD 1) header.minValue (toU64 v)) := by
  intro header column
  obtain ⟨hgcd, hdvd⟩ := header_gcd hdivide (mappedColumn vals) codec
  have hbounds := mappedColumn_bounds vals
  have hnormLen : column.vals.length = vals.length := by
    show ((vals.map toU64).map _).length = vals.length
    simp
  have hnormMin : column.minValue = 0 := by
    show gcdBaseval divide (header.gcd.getD 1) header.minValue header.minValue = 0
    rw [gcdBaseval, hdivide _ _ hgcd, UInt64.sub_self, UInt64.zero_div]
  have hnormMax : ∀ v ∈ column.vals, v ≤ column.maxValue := by
    intro v hv
    obtain ⟨w, hw, rfl⟩ := List.mem_map.mp hv
    exact gcdBaseval_le hdivide hgcd (hbounds w hw).1 (hbounds w hw).2
  have hnormLinear : codec = .linear → column.vals ≠ [] := by
    intro hcodec
    have hpos := List.length_pos_of_ne_nil (hlinear hcodec)
    exact List.ne_nil_of_length_pos (by omega)
  obtain ⟨bytes, inner, hserialize, hopen, hdecodes⟩ :=
    codec_decodes codec hnormMin hnormMax (by omega) hnormLinear hshort
  refine ⟨bytes, inner, hserialize, ?_, hdecodes, hnormMin, ?_, ?_⟩
  · rw [normalized_eq]
    exact hopen
  · rw [hdecodes.numVals, VecColumn.numVals, hnormLen, Nat.mod_eq_of_lt hlen]
  · intro i v hv
    refine hdecodes.getVal i _ ?_
    show ((vals.map toU64).map _)[i]? = _
    simp [hv]

/-- **Fast fields are read back.** A column that is normalized, written with a codec and opened
    again has the values that were written, their number and their bounds. -/
theorem fastField_roundTrip {divide : UInt64 → UInt64 → UInt64} (hdivide : ExactDivide divide)
    (vals : List T) (codec : FastFieldCodecType) (hlen : vals.length < 2 ^ 32)
    (hlinear : codec = .linear → vals ≠ [])
    (hshort : ShortSections
      ((computeHeader divide (mappedColumn vals) codec).normalizeColumn divide (mappedColumn vals))
      codec) :
    let header := computeHeader divide (mappedColumn vals) codec
    ∃ bytes, ∃ reader : DynColumn T,
      serializeGivenCodec (header.normalizeColumn divide (mappedColumn vals)) codec = some bytes ∧
        openSpecificCodec divide bytes header = some reader ∧ reader.numVals = vals.length ∧
        (∀ i v, vals[i]? = some v → reader.getVal i = some v) ∧
        (vals ≠ [] → reader.minValue ∈ vals ∧ reader.maxValue ∈ vals ∧
          ∀ v ∈ vals, reader.minValue ≤ v ∧ v ≤ reader.maxValue) := by
  intro header
  obtain ⟨hgcd, hdvd⟩ := header_gcd hdivide (mappedColumn vals) codec
  obtain ⟨bytes, inner, hserialize, hopen, hdecodes, hnormMin, hnum, hread⟩ :=
    normalized_decodes hdivide vals codec hlen hlinear hshort
  -- what is read is mapped back to what was written
  have hback : ∀ v : T, v ∈ vals →
      fromU64 (header.minValue + gcdBaseval divide (header.gcd.getD 1) header.minValue (toU64 v) *
        header.gcd.getD 1) = v := by
    intro v hv
    have hinverse := gcdBaseval_inverse hdivide hgcd (hdvd _ (List.mem_map_of_mem hv))
    exact (congrArg fromU64 hinverse).trans (from_to v)
  refine ⟨bytes, inner.map fun out => fromU64 (header.minValue + out * header.gcd.getD 1),
    hserialize, ?_, ?_, ?_, ?_⟩
  · rw [openSpecificCodec_eq]
    show Option.map _ (openFromBytes bytes _ codec) = _
    rw [hopen]
    rfl
  · exact hnum
  · intro i v hv
    show (inner.getVal i).map _ = some v
    rw [hread i v hv, Option.map_some, hback v (List.mem_of_getElem? hv)]
  · intro hne
    -- the bounds of the column are values of it, and read back like them
    obtain ⟨hminMem, hmaxMem, hall⟩ := minmax_spec hne
    have hreadMin : fromU64 (header.minValue + inner.minValue * header.gcd.getD 1) =
        (VecColumn.ofList vals).minValue := by
      rw [hdecodes.minValue, ← hnormMin]
      exact hback _ hminMem
    have hreadMax : fromU64 (header.minValue + inner.maxValue * header.gcd.getD 1) =
        (VecColumn.ofList vals).maxValue := by
      rw [hdecodes.maxValue]
      exact hback _ hmaxMem
    show fromU64 _ ∈ vals ∧ fromU64 _ ∈ vals ∧ ∀ v ∈ vals, fromU64 _ ≤ v ∧ v ≤ fromU64 _
    rw [hreadMin, hreadMax]
    exact ⟨hminMem, hmaxMem, hall⟩

end RoundTrip

/-- Signed values on a line, which are written in steps of 100. -/
theorem fastField_roundTrip_signed :
    let vals : List Int64 := [-300, 100, -100]
    let divide : UInt64 → UInt64 → UInt64 := fun d v => v / d
    let header := computeHeader divide (mappedColumn vals) .linear
    ∃ bytes, ∃ reader : DynColumn Int64,
      serializeGivenCodec (header.normalizeColumn divide (mappedColumn vals)) .linear =
          some bytes ∧
        openSpecificCodec divide bytes header = some reader ∧ reader.numVals = 3 ∧
        reader.getVal 2 = some (-100) := by
  intro vals divide header
  have hshort : ShortSections (header.normalizeColumn divide (mappedColumn vals)) .linear := by
    show _ < _
    decide +kernel
  obtain ⟨bytes, reader, hserialize, hopen, hnum, hval, -⟩ :=
    fastField_roundTrip (fun _ _ _ => rfl) vals .linear (by decide) (fun _ => by decide) hshort
  exact ⟨bytes, reader, hserialize, hopen, hnum, hval 2 (-100) rfl⟩

end TeaclaveCrates.Tantivy.FastFieldCodecs
