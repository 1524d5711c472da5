import TeaclaveCrates.Tantivy.FastField

namespace TeaclaveCrates.Tantivy.FastFieldCodecs

open TeaclaveCrates.Lib

/-!
# The codecs of fast fields are read back

* `deserialize_serialize` — the parameters of a line.
* `Packable`, `getVal_residuals` — packed values, and values on a line.
* `Decodes` — a reader returns the values of a column.
* `bitpacked_decodes`, `linear_decodes`, `BlockwiseLinearCodec.decodes` — the codecs, on normalized
  columns.
* `codec_decodes` — all of them.
-/

/-! ### Parameters -/

theorem readVInt_vint (v : UInt64) (rest : Bytes) :
    readVInt (vint true 10 v.toNat ++ rest) = some (v, rest) := by
  have hlt : v.toNat < 128 ^ 10 := v.toNat_lt.trans (by norm_num)
  simp [readVInt, vintLoop_vint true (by decide) hlt v.toNat_lt]

theorem deserialize_serialize {p : LinearParams} (h : p.numBits ≤ 64) (rest : Bytes) :
    LinearParams.deserialize (p.serialize ++ rest) = some (p, rest) := by
  have hbits : (UInt8.ofNat p.numBits).toNat = p.numBits := by
    rw [UInt8.toNat_ofNat', Nat.mod_eq_of_lt (by omega)]
  rw [LinearParams.deserialize, LinearParams.serialize, Line.serialize, List.append_assoc,
    List.append_assoc, readVInt_vint]
  simp [readVInt_vint, hbits]

theorem length_serialize_le (p : LinearParams) : p.serialize.length ≤ 21 := by
  have hvint : ∀ v : UInt64, (vint true 10 v.toNat).length ≤ 10 :=
    fun v => length_vint_le true 9 10 v.toNat (v.toNat_lt.trans (by norm_num))
  have hslope := hvint p.line.slope
  have hintercept := hvint p.line.intercept
  rw [LinearParams.serialize, Line.serialize, List.length_append, List.length_append]
  simp only [List.length_cons, List.length_nil]
  omega

/-! ### Packed values -/

/-- What the bit packer gets: widths it can read, and values that fit. -/
structure Packable (numBits : Nat) (vals : List UInt64) : Prop where
  width : numBits ≤ 56 ∨ numBits = 64
  fits : ∀ v ∈ vals, v.toNat < 2 ^ numBits

variable {vals : List UInt64}

theorem Packable.of_le_max {m : Nat} (hm : m < 2 ^ 64) (h : ∀ v ∈ vals, v.toNat ≤ m) :
    Packable (computeNumBits m) vals :=
  ⟨computeNumBits_cases m, fun v hv => lt_two_pow_computeNumBits (h v hv) hm⟩

theorem Packable.mem_withWidth {numBits : Nat} (h : Packable numBits vals) :
    ∀ x ∈ withWidth numBits vals, x.1 < 2 ^ x.2 ∧ x.2 ≤ 64 := by
  intro x hx
  obtain ⟨v, hv, rfl⟩ := List.mem_map.mp hx
  have hwidth := h.width
  exact ⟨h.fits v hv, by omega⟩

theorem withWidth_eq_map (numBits : Nat) (vals : List UInt64) :
    withWidth numBits vals = (vals.map UInt64.toNat).map fun v => (v, numBits) := by
  simp [withWidth]

theorem totalBits_withWidth (numBits : Nat) (vals : List UInt64) :
    totalBits (withWidth numBits vals) = vals.length * numBits := by
  rw [withWidth_eq_map, totalBits_map_const, List.length_map]

variable {post : List (Nat × Nat)}

/-- A value of packed data, in front of other data. -/
theorem Packable.get {numBits : Nat} (h : Packable numBits vals)
    (hshort : vals.length * numBits < 2 ^ 32) {data : Bytes}
    (hdata : ofLE data = packed (withWidth numBits vals ++ post))
    (hpad : (vals.length * numBits + 7) / 8 + 7 ≤ data.length) {i : Nat} {v : UInt64}
    (hv : vals[i]? = some v) : (BitUnpacker.new numBits).get i data = some v.toNat := by
  rw [withWidth_eq_map] at hdata
  refine BitUnpacker.get_pack h.width ?_ ?_ post hdata ?_ ?_
  · intro n hn
    obtain ⟨w, hw, rfl⟩ := List.mem_map.mp hn
    exact h.fits w hw
  · rw [List.length_map]
    exact hshort
  · rw [List.length_map]
    exact hpad
  · rw [List.getElem?_map, hv, Option.map_some]

/-- The residual of a value is put on the line again. -/
theorem getElem?_residuals (line : Line) {i : Nat} {v : UInt64} (hv : vals[i]? = some v) :
    (line.residuals vals)[i]? = some (v - line.eval (UInt32.ofNat i)) := by
  simp [Line.residuals, hv]

theorem length_residuals (line : Line) (vals : List UInt64) :
    (line.residuals vals).length = vals.length := by
  rw [Line.residuals, List.length_map, List.length_zipIdx]

theorem getVal_residuals {p : LinearParams} (h : Packable p.numBits (p.line.residuals vals))
    (hshort : vals.length * p.numBits < 2 ^ 32) {data : Bytes}
    (hdata : ofLE data = packed (withWidth p.numBits (p.line.residuals vals) ++ post))
    (hpad : (vals.length * p.numBits + 7) / 8 + 7 ≤ data.length) {i : Nat} {v : UInt64}
    (hv : vals[i]? = some v) : p.getVal i data = some v := by
  have hlen := length_residuals p.line vals
  rw [← hlen] at hshort hpad
  rw [LinearParams.getVal, h.get hshort hdata hpad (getElem?_residuals p.line hv), Option.map_some,
    UInt64.ofNat_toNat, UInt64.add_comm, UInt64.sub_add_cancel]

theorem train_isSome (h : vals ≠ []) : ∃ line, Line.train vals = some line := by
  cases vals with
  | nil => exact absurd rfl h
  | cons v vals =>
    obtain ⟨lastVal, hlast⟩ : ∃ w, (v :: vals)[(v :: vals).length - 1]? = some w :=
      Option.isSome_iff_exists.mp (by simp)
    refine ⟨Line.trainFrom v lastVal (v :: vals), ?_⟩
    rw [Line.train, hlast]
    rfl

/-- The largest of some numbers. -/
theorem max?_spec {l : List Nat} (h : l ≠ []) : ∃ m, l.max? = some m ∧ m ∈ l ∧ ∀ n ∈ l, n ≤ m := by
  obtain ⟨m, hm⟩ := Option.isSome_iff_exists.mp (List.isSome_max?_of_ne_nil h)
  obtain ⟨hmem, hle⟩ := List.max?_eq_some_iff.mp hm
  exact ⟨m, hm, hmem, hle⟩

/-! ### The codecs -/

/-- The reader returns the values of the column, under the header's bound. -/
structure Decodes (column : VecColumn UInt64) (reader : DynColumn UInt64) : Prop where
  getVal : ∀ i v, column.vals[i]? = some v → reader.getVal i = some v
  minValue : reader.minValue = 0
  maxValue : reader.maxValue = column.maxValue
  numVals : reader.numVals = column.numVals

/-- The header of a normalized column. -/
def headerOf (column : VecColumn UInt64) : NormalizedHeader := ⟨column.numVals, column.maxValue⟩

variable {column : VecColumn UInt64}

theorem bitpacked_decodes (hmin : column.minValue = 0)
    (hmax : ∀ v ∈ column.vals, v ≤ column.maxValue)
    (hshort : column.vals.length * computeNumBits column.maxValue.toNat < 2 ^ 32) :
    ∃ bytes reader, BitpackedCodec.serialize column = some bytes ∧
      BitpackedCodec.openFromBytes bytes (headerOf column) = some reader ∧
      Decodes column reader := by
  have hpack : Packable (computeNumBits column.maxValue.toNat) column.vals :=
    Packable.of_le_max column.maxValue.toNat_lt
      fun v hv => UInt64.le_iff_toNat_le.mp (hmax v hv)
  obtain ⟨hvalue, hlength⟩ := BitPacker.pack_spec hpack.mem_withWidth
  rw [totalBits_withWidth] at hlength
  refine ⟨_, _, by rw [BitpackedCodec.serialize, if_neg (by simp [hmin])], rfl, ?_, rfl, rfl, rfl⟩
  intro i v hv
  dsimp only [headerOf]
  have hdata : ofLE (BitPacker.pack
      (withWidth (computeNumBits column.maxValue.toNat) column.vals)) =
      packed (withWidth (computeNumBits column.maxValue.toNat) column.vals ++ []) := by
    rw [hvalue, List.append_nil]
  rw [hpack.get hshort hdata (by omega) hv, Option.map_some, UInt64.ofNat_toNat]

/-- The width of a linear column, zero for one without values. -/
def linearWidth (column : VecColumn UInt64) : Nat :=
  match Line.train column.vals with
  | none => 0
  | some line => computeNumBits ((((line.residuals column.vals).map UInt64.toNat).max?).getD 0)

theorem linear_decodes (hmin : column.minValue = 0) (hne : column.vals ≠ [])
    (hshort : column.vals.length * linearWidth column < 2 ^ 32) :
    ∃ bytes reader, LinearCodec.serialize column = some bytes ∧
      LinearCodec.openFromBytes bytes (headerOf column) = some reader ∧
      Decodes column reader := by
  obtain ⟨line, hline⟩ := train_isSome hne
  have hres : (line.residuals column.vals).map UInt64.toNat ≠ [] := by
    rw [← List.length_pos_iff_ne_nil, List.length_map, length_residuals]
    exact List.length_pos_of_ne_nil hne
  obtain ⟨m, hm, hmem, hle⟩ := max?_spec hres
  have hm64 : m < 2 ^ 64 := by
    obtain ⟨v, -, rfl⟩ := List.mem_map.mp hmem
    exact v.toNat_lt
  have hpack : Packable (computeNumBits m) (line.residuals column.vals) :=
    Packable.of_le_max hm64 fun v hv => hle _ (List.mem_map.mpr ⟨v, hv, rfl⟩)
  have hwidth : linearWidth column = computeNumBits m := by
    simp [linearWidth, hline, hm]
  rw [hwidth] at hshort
  obtain ⟨hvalue, hlength⟩ := BitPacker.pack_spec hpack.mem_withWidth
  rw [totalBits_withWidth, length_residuals] at hlength
  have hserialize : LinearCodec.serialize column =
      some (LinearParams.serialize ⟨line, computeNumBits m⟩ ++
        BitPacker.pack (withWidth (computeNumBits m) (line.residuals column.vals))) := by
    simp [LinearCodec.serialize, hmin, ne_eq, hline, hm]
  have hopen : ∀ data, LinearCodec.openFromBytes
      (LinearParams.serialize ⟨line, computeNumBits m⟩ ++ data) (headerOf column) =
      some
        { getVal := fun doc => LinearParams.getVal ⟨line, computeNumBits m⟩ doc data
          minValue := 0
          maxValue := column.maxValue
          numVals := column.numVals } := by
    intro data
    rw [LinearCodec.openFromBytes, deserialize_serialize (computeNumBits_le m)]
    rfl
  -- the packer pads its output, so that the last value can be read in one piece
  have hpad : (column.vals.length * computeNumBits m + 7) / 8 + 7 ≤
      (BitPacker.pack (withWidth (computeNumBits m) (line.residuals column.vals))).length := by
    omega
  refine ⟨_, _, hserialize, hopen _, ?_, rfl, rfl, rfl⟩
  intro i v hv
  have hdata : ofLE (BitPacker.pack (withWidth (computeNumBits m) (line.residuals column.vals))) =
      packed (withWidth (computeNumBits m) (line.residuals column.vals) ++ []) := by
    rw [hvalue, List.append_nil]
  exact getVal_residuals (p := ⟨line, computeNumBits m⟩) hpack hshort hdata hpad hv

/-! ### Blocks -/

namespace BlockwiseLinearCodec

/-- What training a block gives. -/
structure Trained (buffer : List UInt64) (block : TrainedBlock) : Prop where
  residuals : block.residuals = block.params.line.residuals buffer
  packable : Packable block.params.numBits block.residuals

theorem trainBlock_spec {buffer : List UInt64} (h : buffer ≠ []) :
    ∃ block, trainBlock buffer = some block ∧ Trained buffer block := by
  obtain ⟨line, hline⟩ := train_isSome h
  have hne : (line.residuals buffer).map (fun val => computeNumBits val.toNat) ≠ [] := by
    rw [← List.length_pos_iff_ne_nil, List.length_map, length_residuals]
    exact List.length_pos_of_ne_nil h
  obtain ⟨w, hw, hmem, hle⟩ := max?_spec hne
  refine ⟨⟨⟨line, w⟩, line.residuals buffer⟩, ?_, rfl, ?_, ?_⟩
  · simp [trainBlock, hline, hw]
  · obtain ⟨v, -, rfl⟩ := List.mem_map.mp hmem
    exact computeNumBits_cases _
  · intro v hv
    have hwidth : computeNumBits v.toNat ≤ w := hle _ (List.mem_map.mpr ⟨v, hv, rfl⟩)
    exact (lt_two_pow_computeNumBits (Nat.le_refl _) v.toNat_lt).trans_le
      (Nat.pow_le_pow_right (by decide) hwidth)

variable {buffers : List (List UInt64)}

theorem trainBlocks_spec (h : ∀ b ∈ buffers, b ≠ []) :
    ∃ blocks, trainBlocks buffers = some blocks ∧ List.Forall₂ Trained buffers blocks := by
  induction buffers with
  | nil => exact ⟨[], rfl, List.Forall₂.nil⟩
  | cons buffer buffers ih =>
    obtain ⟨block, hblock, htrained⟩ := trainBlock_spec (h buffer List.mem_cons_self)
    obtain ⟨blocks, hblocks, hall⟩ := ih fun b hb => h b (List.mem_cons_of_mem buffer hb)
    refine ⟨block :: blocks, ?_, List.Forall₂.cons htrained hall⟩
    simp [trainBlocks, hblock, hblocks]

/-- What the bit packer gets for a block. -/
def blockBits (b : TrainedBlock) : List (Nat × Nat) := withWidth b.params.numBits b.residuals

variable {blocks : List TrainedBlock}

theorem deserializeBlocks_serialize (h : List.Forall₂ Trained buffers blocks) (rest : Bytes) :
    deserializeBlocks blocks.length
      ((blocks.flatMap fun block => block.params.serialize) ++ rest) =
        some (blocks.map TrainedBlock.params) := by
  induction h with
  | nil => rfl
  | @cons buffer block buffers blocks htrained _ ih =>
    have hbits : block.params.numBits ≤ 64 := by
      have hwidth := htrained.packable.width
      omega
    simp [deserializeBlocks, deserialize_serialize hbits, ih]

theorem mem_blockBits (h : List.Forall₂ Trained buffers blocks) :
    ∀ x ∈ blocks.flatMap blockBits, x.1 < 2 ^ x.2 ∧ x.2 ≤ 64 := by
  induction h with
  | nil => simp
  | cons htrained _ ih =>
    intro x hx
    rw [List.flatMap_cons, List.mem_append] at hx
    rcases hx with hx | hx
    · exact htrained.packable.mem_withWidth x hx
    · exact ih x hx

/-- Reading behind the blocks in front: a full block ends with a byte. -/
theorem getVal_block (h : List.Forall₂ Trained buffers blocks)
    (hle : ∀ b ∈ buffers, b.length ≤ CHUNK_SIZE)
    (hfull : ∀ k b, k + 1 < buffers.length → buffers[k]? = some b → b.length = CHUNK_SIZE)
    (data : Bytes) (hdata : ofLE data = packed (blocks.flatMap blockBits))
    (hpad : (totalBits (blocks.flatMap blockBits) + 7) / 8 + 7 ≤ data.length) {k i : Nat}
    {buffer : List UInt64} {v : UInt64} (hk : buffers[k]? = some buffer) (hi : buffer[i]? = some v)
    (start : Nat) :
    ∃ block, (withOffsets start (blocks.map TrainedBlock.params))[k]? = some block ∧
      start ≤ block.dataStartOffset ∧ block.dataStartOffset - start ≤ data.length ∧
      block.params.getVal i (data.drop (block.dataStartOffset - start)) = some v := by
  induction h generalizing data k start with
  | nil => cases hk
  | @cons buffer₀ block₀ buffers blocks htrained _ ih =>
    have hbits : totalBits (blockBits block₀) = buffer₀.length * block₀.params.numBits := by
      rw [blockBits, totalBits_withWidth, htrained.residuals, length_residuals]
    have hwidth : block₀.params.numBits ≤ 64 := by
      have hcases := htrained.packable.width
      omega
    rw [List.flatMap_cons] at hdata hpad
    rw [totalBits_append, hbits] at hpad
    rw [List.map_cons, withOffsets]
    cases k with
    | zero =>
      obtain rfl : buffer₀ = buffer := Option.some.inj hk
      refine ⟨⟨block₀.params, start⟩, rfl, Nat.le_refl _, by dsimp only; omega, ?_⟩
      have hlen := hle buffer₀ List.mem_cons_self
      -- a block is too short for an offset of 32 bits to wrap
      have hshort : buffer₀.length * block₀.params.numBits < 2 ^ 32 :=
        (Nat.mul_le_mul hlen hwidth).trans_lt (by decide)
      rw [Nat.sub_self, List.drop_zero]
      rw [blockBits, htrained.residuals] at hdata
      exact getVal_residuals (htrained.residuals ▸ htrained.packable) hshort hdata (by omega) hi
    | succ k =>
      have hmore : k + 1 < (buffer₀ :: buffers).length := (List.getElem?_eq_some_iff.mp hk).1
      rw [List.length_cons] at hmore
      have hlen : buffer₀.length = CHUNK_SIZE :=
        hfull 0 buffer₀ (by rw [List.length_cons]; omega) rfl
      -- the bytes of the first block
      have hoffset : block₀.params.numBits * CHUNK_SIZE / 8 = 64 * block₀.params.numBits := by
        rw [CHUNK_SIZE]
        omega
      have hblock : buffer₀.length * block₀.params.numBits = 8 * (64 * block₀.params.numBits) := by
        rw [hlen, CHUNK_SIZE]
        omega
      have hroom : 64 * block₀.params.numBits ≤ data.length := by omega
      have hrest : ofLE (data.drop (64 * block₀.params.numBits)) =
          packed (blocks.flatMap blockBits) := by
        have hfits : Fits (blockBits block₀) :=
          fun x hx => (htrained.packable.mem_withWidth x hx).1
        rw [ofLE_drop _ hroom, hdata, ← two_pow_eight_mul, ← hblock, ← hbits, packed_div hfits]
      obtain ⟨block, hget, hstart, hend, hval⟩ := ih
        (fun b hb => hle b (List.mem_cons_of_mem buffer₀ hb))
        (fun j b hj hb => hfull (j + 1) b (by rw [List.length_cons]; omega) hb)
        (data.drop (64 * block₀.params.numBits)) hrest
        (by rw [List.length_drop]; omega) hk
        (start + block₀.params.numBits * CHUNK_SIZE / 8)
      rw [hoffset] at hstart hend hval hget ⊢
      rw [List.length_drop] at hend
      refine ⟨block, hget, by omega, by omega, ?_⟩
      rw [List.drop_drop] at hval
      have hsum : 64 * block₀.params.numBits +
          (block.dataStartOffset - (start + 64 * block₀.params.numBits)) =
          block.dataStartOffset - start := by omega
      rw [hsum] at hval
      exact hval

theorem length_footer_le (blocks : List TrainedBlock) :
    (blocks.flatMap fun block => block.params.serialize).length ≤ 21 * blocks.length := by
  induction blocks with
  | nil => exact Nat.le_refl _
  | cons block blocks ih =>
    have hblock := length_serialize_le block.params
    rw [List.flatMap_cons, List.length_append, List.length_cons]
    omega

theorem decodes {column : VecColumn UInt64} (hmin : column.minValue = 0)
    (hlen : column.vals.length < 2 ^ 32) :
    ∃ bytes reader, serialize column = some bytes ∧
      openFromBytes bytes (headerOf column) = some reader ∧ Decodes column reader := by
  have hpos : 0 < CHUNK_SIZE := by decide
  have hbuffers : ∀ b ∈ chunks CHUNK_SIZE column.vals, b ≠ [] :=
    fun b hb => ne_nil_of_mem_chunks hpos hb
  obtain ⟨blocks, htrain, hblocks⟩ := trainBlocks_spec hbuffers
  have hnumVals : column.numVals = column.vals.length := Nat.mod_eq_of_lt hlen
  have hnumBlocks : (chunks CHUNK_SIZE column.vals).length = computeNumBlocks column.numVals := by
    rw [length_chunks hpos, computeNumBlocks, hnumVals]
  have hcount : blocks.length = computeNumBlocks column.numVals := by
    rw [← hblocks.length_eq, hnumBlocks]
  obtain ⟨hvalue, hlength⟩ := BitPacker.pack_spec (mem_blockBits hblocks)
  have hall : (chunks CHUNK_SIZE column.vals).take (computeNumBlocks column.numVals) =
      chunks CHUNK_SIZE column.vals := by
    apply List.take_of_length_le
    rw [hnumBlocks]
  have hserialize : serialize column = some (BitPacker.pack (blocks.flatMap blockBits) ++
      (blocks.flatMap fun block => block.params.serialize) ++
        toLE 4 (blocks.flatMap fun block => block.params.serialize).length) := by
    rw [serialize, if_neg (by simp [hmin]), hall]
    dsimp only
    rw [htrain]
    rfl
  -- the footer and its length
  have hfooter := length_footer_le blocks
  have hfooter32 : (blocks.flatMap fun block => block.params.serialize).length < 256 ^ 4 := by
    have hnum : blocks.length ≤ 2 ^ 23 := by
      rw [hcount, computeNumBlocks, hnumVals, CHUNK_SIZE]
      omega
    omega
  have hdeserialize := deserializeBlocks_serialize hblocks
    (toLE 4 (blocks.flatMap fun block => block.params.serialize).length)
  rw [hcount] at hdeserialize
  generalize (blocks.flatMap fun block => block.params.serialize) = footer at *
  generalize BitPacker.pack (blocks.flatMap blockBits) = data at *
  have hbytes : (data ++ footer ++ toLE 4 footer.length).length =
      data.length + footer.length + 4 := by
    rw [List.length_append, List.length_append, length_toLE]
  have hlast : (data ++ footer ++ toLE 4 footer.length).drop
      ((data ++ footer ++ toLE 4 footer.length).length - 4) = toLE 4 footer.length := by
    apply List.drop_left'
    rw [hbytes, List.length_append]
    omega
  -- the last four bytes tell where the footer begins
  have hopen : openFromBytes (data ++ footer ++ toLE 4 footer.length) (headerOf column) =
      some
        { getVal := getVal (withOffsets 0 (blocks.map TrainedBlock.params)) data
          minValue := 0
          maxValue := column.maxValue
          numVals := column.numVals } := by
    unfold openFromBytes
    rw [if_neg (by omega), hlast, ofLE_toLE hfooter32]
    dsimp only
    rw [if_neg (by omega)]
    have hoffset : (data ++ footer ++ toLE 4 footer.length).length - 4 - footer.length =
        data.length := by omega
    rw [hoffset, List.append_assoc, List.take_left, List.drop_left]
    show Option.map _ (deserializeBlocks (computeNumBlocks column.numVals) _) = _
    rw [hdeserialize]
    rfl
  refine ⟨_, _, hserialize, hopen, ?_, rfl, rfl, rfl⟩
  intro i v hv
  obtain ⟨buffer, hbuffer, hval⟩ := getElem?_chunks hpos hv
  obtain ⟨block, hblock, -, hend, hget⟩ := getVal_block hblocks
    (fun b hb => length_le_of_mem_chunks hb)
    (fun k b hk hb => length_of_lt_chunks hpos hk hb) data hvalue (by omega) hbuffer hval 0
  dsimp only
  rw [getVal, hblock]
  dsimp only
  rw [if_neg (by omega)]
  exact hget

end BlockwiseLinearCodec

/-! ### All codecs -/

/-- The data sections that are shorter than 2^32 bits; a block has at most 512 values of 64 bits. -/
def ShortSections (column : VecColumn UInt64) : FastFieldCodecType → Prop
  | .bitpacked => column.vals.length * computeNumBits column.maxValue.toNat < 2 ^ 32
  | .linear => column.vals.length * linearWidth column < 2 ^ 32
  | .blockwiseLinear => True

/-- **The codecs.** A normalized column is read back. -/
theorem codec_decodes {column : VecColumn UInt64} (codec : FastFieldCodecType)
    (hmin : column.minValue = 0) (hmax : ∀ v ∈ column.vals, v ≤ column.maxValue)
    (hlen : column.vals.length < 2 ^ 32) (hlinear : codec = .linear → column.vals ≠ [])
    (hshort : ShortSections column codec) :
    ∃ bytes reader, serializeGivenCodec column codec = some bytes ∧
      openFromBytes bytes (headerOf column) codec = some reader ∧ Decodes column reader := by
  cases codec with
  | bitpacked => exact bitpacked_decodes hmin hmax hshort
  | linear => exact linear_decodes hmin (hlinear rfl) hshort
  | blockwiseLinear => exact BlockwiseLinearCodec.decodes hmin hlen

end TeaclaveCrates.Tantivy.FastFieldCodecs
