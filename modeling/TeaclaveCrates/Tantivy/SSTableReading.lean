import TeaclaveCrates.Tantivy.SSTableFormat

namespace TeaclaveCrates.Tantivy

open TeaclaveCrates.Lib

/-!
# tantivy — reading a sorted string table

The readers follow the layout of a table.

* `BlockReader.Left` — what is left of the block at hand;
* `ReadsBack` — values that are read back from what is written for them;
* `DeltaReader.At` / `Reader.At` — the entries that are still to come;
* `DeltaReader.At.advance`, `Reader.At.step` — one step takes the next entry, or
  finds the end.
-/

variable {V : Type} [ValueCodec V]

/-! ### Blocks and integers -/

/-- The reader stands before `bytes` in its block. -/
structure BlockReader.Left (r : BlockReader) (bytes : Bytes) : Prop where
  le : r.offset ≤ r.buffer.length
  drop : r.buffer.drop r.offset = bytes

namespace BlockReader.Left

variable {r : BlockReader} {x y : Bytes}

theorem rest (h : r.Left x) : r.rest = pure x := by
  simp [BlockReader.rest, h.le, h.drop]

theorem advance (h : r.Left (x ++ y)) : (r.advance x.length).Left y := by
  have hlen := congrArg List.length h.drop
  rw [List.length_drop, List.length_append] at hlen
  have hle := h.le
  refine ⟨?_, ?_⟩
  · show r.offset + x.length ≤ r.buffer.length
    omega
  · show r.buffer.drop (r.offset + x.length) = y
    rw [← List.drop_drop, h.drop, List.drop_left]

/-- The bytes before what is left, as a slice of the block. -/
theorem slice_eq (h : r.Left (x ++ y)) :
    slice? r.buffer r.offset (r.offset + x.length) = some x := by
  have hlen := congrArg List.length h.drop
  rw [List.length_drop, List.length_append] at hlen
  have hle := h.le
  rw [slice?_eq (by omega) (by omega), slice, h.drop, Nat.add_sub_cancel_left, List.take_left]

theorem deserializeU64 {len n : Nat} (h : r.Left (vint false len n ++ y)) (hlen : 0 < len)
    (hn : n < 128 ^ len) (h64 : n < 2 ^ 64) :
    r.deserializeU64 = pure (n, r.advance (vint false len n).length) := by
  simp [BlockReader.deserializeU64, h.rest, vintLoop_vint false hlen hn h64]

theorem deserializeVInt {n : Nat} (h : r.Left (serializeVInt n ++ y)) (h64 : n < 2 ^ 64) :
    r.deserializeVInt = pure (n, r.advance (serializeVInt n).length) := by
  unfold BlockReader.deserializeVInt
  rw [h.rest, pure_bind, serializeVInt, vintLoop_vint true (by decide) (by omega) h64]
  simp

end BlockReader.Left

theorem advance_advance (r : BlockReader) (a b : Nat) :
    (r.advance a).advance b = r.advance (a + b) := by
  simp [BlockReader.advance, Nat.add_assoc]

/-- A pair of small lengths in one byte. -/
theorem keepAdd_byte : ∀ keep < 16, ∀ add < 16, ¬ (keep = 1 ∧ add = 0) →
    UInt8.ofNat (keep ||| add <<< 4) ≠ VINT_MODE ∧
      (UInt8.ofNat (keep ||| add <<< 4) &&& 0b1111).toNat = keep ∧
      (UInt8.ofNat (keep ||| add <<< 4) >>> 4).toNat = add := by
  decide

/-- The two lengths of a key are read back.  The one pair that would be taken for the
    mode byte does not occur: a key that keeps a byte adds one. -/
theorem readKeepAdd_left {r : BlockReader} {keep add : Nat} {y : Bytes}
    (h : r.Left (DeltaWriter.encodeKeepAdd keep add ++ y)) (hmode : ¬ (keep = 1 ∧ add = 0))
    (hkeep : keep < 2 ^ 63) (hadd : add < 2 ^ 63) :
    DeltaReader.readKeepAdd r =
      pure (some (keep, add), r.advance (DeltaWriter.encodeKeepAdd keep add).length) := by
  unfold DeltaReader.readKeepAdd
  rw [h.rest, pure_bind]
  unfold DeltaWriter.encodeKeepAdd at h ⊢
  by_cases hsmall : keep < FOUR_BIT_LIMITS ∧ add < FOUR_BIT_LIMITS
  · obtain ⟨hne, hk, ha⟩ := keepAdd_byte keep hsmall.1 add hsmall.2 hmode
    simp only [if_pos hsmall, List.cons_append, hk, ha, if_neg hne, List.length_singleton]
  · rw [if_neg hsmall] at h
    -- the mode byte, then two integers
    have hlen : (vint false 19 keep).length ≤ 9 :=
      length_vint_le false 8 19 keep (lt_of_lt_of_eq hkeep (by norm_num))
    have h₁ : (r.advance 1).Left (vint false 19 keep ++
        (vint false (19 - (vint false 19 keep).length) add ++ y)) := by
      have := BlockReader.Left.advance (x := [VINT_MODE]) (y := vint false 19 keep ++
        (vint false (19 - (vint false 19 keep).length) add ++ y)) (r := r) (by simpa using h)
      exact this
    have h₂ := h₁.advance
    have hwide : 2 ^ 63 ≤ 128 ^ (19 - (vint false 19 keep).length) :=
      calc 2 ^ 63 = 128 ^ 9 := by norm_num
        _ ≤ 128 ^ (19 - (vint false 19 keep).length) := Nat.pow_le_pow_right (by decide) (by omega)
    simp only [if_neg hsmall, List.cons_append]
    rw [h₁.deserializeU64 (by decide) (by omega) (by omega), pure_bind]
    rw [h₂.deserializeU64 (by omega) (by omega) (by omega), pure_bind]
    simp only [advance_advance, List.length_cons, List.length_append]
    have hsum : ∀ a b : Nat, 1 + a + b = a + b + 1 := fun a b => by omega
    simp [hsum]

/-! ### Keys -/

/-- Values that are read back from what is written for them, in front of as many keys. What the
    reader has behind them is not asked for. -/
def ReadsBack (values : List V) : Prop :=
  ∀ (r : BlockReader) (y : Bytes), values.length ≤ y.length →
    r.Left (ValueCodec.writeBlock values ++ y) →
    ∃ more, ValueCodec.read r =
      pure (values ++ more, r.advance (ValueCodec.writeBlock values).length)

omit [ValueCodec V] in
theorem length_le_encodeKeys (entries : List (Bytes × V)) :
    ∀ prev, ∀ e ∈ entries, e.1.length ≤ prev.length + (encodeKeys prev entries).length := by
  induction entries with
  | nil => intro prev e he; cases he
  | cons e₀ entries ih =>
    intro prev e he
    obtain ⟨hprev, hkey, -⟩ := commonPrefixLen_spec prev e₀.1
    rw [encodeKeys, List.length_append, List.length_append, List.length_drop]
    rcases List.mem_cons.mp he with rfl | he
    · omega
    · have := ih e₀.1 e he
      omega

omit [ValueCodec V] in
/-- An entry takes a byte at least. -/
theorem length_le_length_encodeKeys (entries : List (Bytes × V)) :
    ∀ prev, entries.length ≤ (encodeKeys prev entries).length := by
  induction entries with
  | nil => intro prev; exact Nat.le_refl _
  | cons e entries ih =>
    intro prev
    have hpos : 0 < (DeltaWriter.encodeKeepAdd (commonPrefixLen prev e.1)
        (e.1.drop (commonPrefixLen prev e.1)).length).length := by
      unfold DeltaWriter.encodeKeepAdd
      split
      · exact Nat.one_pos
      · exact Nat.succ_pos _
    have hrest := ih e.1
    rw [encodeKeys, List.length_cons, List.length_append, List.length_append]
    omega

theorem length_flatten_le_encodeBlock (bs : List (List (Bytes × V))) :
    bs.flatten.length ≤ (bs.flatMap encodeBlock).length := by
  induction bs with
  | nil => exact Nat.le_refl _
  | cons b bs ih =>
    have hb := length_le_length_encodeKeys b []
    rw [List.flatten_cons, List.flatMap_cons, List.length_append, List.length_append, encodeBlock,
      blockBytes, List.length_append, List.length_append]
    omega

/-- What a block must satisfy to be read back. -/
structure BlockOk (b : List (Bytes × V)) : Prop where
  ne_nil : b ≠ []
  sorted : (b.map Prod.fst).Pairwise (· < ·)
  size : (blockBytes b).length < 2 ^ 32
  values : ReadsBack (b.map Prod.snd)

/-- The bytes behind the last block: none, or the mark of the end. -/
def AtEnd (tail : Bytes) : Prop := tail = [] ∨ ∃ t, tail = toLE 4 0 ++ t

/-- The reader has read `key`; of its block `entries` are left, and the blocks `bs`
    follow. -/
structure DeltaReader.At (d : DeltaReader V) (key : Bytes) (entries : List (Bytes × V))
    (bs : List (List (Bytes × V))) (tail : Bytes) : Prop where
  left : d.blockReader.Left (encodeKeys key entries)
  values : entries.map Prod.snd <+: d.values.drop (d.idx + 1)
  reader : d.blockReader.reader = bs.flatMap encodeBlock ++ tail
  sorted : (key :: entries.map Prod.fst).Pairwise (· < ·)
  lengths : ∀ e ∈ entries, e.1.length < 2 ^ 63
  blocks : ∀ b ∈ bs, BlockOk b
  atEnd : AtEnd tail

/-- What a step leaves behind: the key, in a common prefix with the one before and a
    suffix, and the value. -/
structure DeltaReader.Reads (d : DeltaReader V) (prev key : Bytes) (value : V) : Prop where
  le : d.commonPrefixLen ≤ prev.length
  suffix : ∃ suffix, d.suffix = pure suffix ∧ prev.take d.commonPrefixLen ++ suffix = key
  value : d.value = pure value

variable {key : Bytes} {entries : List (Bytes × V)}

variable {value : V} {d : DeltaReader V} {prev : Bytes}

omit [ValueCodec V] in
/-- `read_delta_key` before the key of the next entry. -/
theorem readDeltaKey_left (h : d.blockReader.Left (encodeKeys prev ((key, value) :: entries)))
    (hlt : prev = [] ∨ prev < key) (hlen : key.length < 2 ^ 63) :
    ∃ d', d.readDeltaKey = pure (true, d') ∧ d'.blockReader.Left (encodeKeys key entries) ∧
      d'.values = d.values ∧ d'.idx = d.idx ∧ d'.blockReader.reader = d.blockReader.reader ∧
      d'.commonPrefixLen = commonPrefixLen prev key ∧
      d'.suffix = pure (key.drop (commonPrefixLen prev key)) := by
  obtain ⟨hprev, hkey, -⟩ := commonPrefixLen_spec prev key
  have hmode : ¬ (commonPrefixLen prev key = 1 ∧ (key.drop (commonPrefixLen prev key)).length = 0) := by
    rintro ⟨hone, hzero⟩
    rw [List.length_drop] at hzero
    rcases hlt with rfl | hlt
    · simp only [List.length_nil] at hprev
      omega
    · have := commonPrefixLen_lt hlt
      omega
  rw [encodeKeys, List.append_assoc] at h
  have hread := readKeepAdd_left h hmode (by omega) (by rw [List.length_drop]; omega)
  have h₁ := h.advance
  unfold DeltaReader.readDeltaKey
  rw [hread, pure_bind]
  refine ⟨_, rfl, h₁.advance, rfl, rfl, rfl, rfl, ?_⟩
  simp only [DeltaReader.suffix]
  have hslice := h₁.slice_eq
  simp only [BlockReader.advance] at hslice ⊢
  rw [hslice]
  rfl

/-! ### One step -/

variable {tail : Bytes}

/-- A block that is there is read as it was written. -/
theorem readBlock_encodeBlock {r : BlockReader} {b : List (Bytes × V)} (h : BlockOk b)
    (hreader : r.reader = encodeBlock b ++ tail) :
    r.readBlock = pure (true, ⟨blockBytes b, tail, 0⟩) := by
  have hfour : (toLE 4 (blockBytes b).length).length = 4 := length_toLE _ _
  have hsize := h.size
  have hpos : 0 < (blockBytes b).length := by
    have := List.length_pos_iff.mpr (encodeKeys_ne_nil [] h.ne_nil)
    rw [blockBytes, List.length_append]
    omega
  have htake : r.reader.take 4 = toLE 4 (blockBytes b).length := by
    rw [hreader, encodeBlock, List.append_assoc, List.take_left' hfour]
  have hdrop : r.reader.drop 4 = blockBytes b ++ tail := by
    rw [hreader, encodeBlock, List.append_assoc, List.drop_left' hfour]
  have hlen : ¬ r.reader.length < 4 := by
    rw [hreader, encodeBlock, List.length_append, List.length_append, hfour]
    omega
  have hvalue : ofLE (toLE 4 (blockBytes b).length) = (blockBytes b).length :=
    ofLE_toLE (lt_of_lt_of_eq hsize (by norm_num))
  unfold BlockReader.readBlock
  simp only [if_neg hlen, htake, hdrop, hvalue]
  rw [if_neg (by omega), if_neg (by rw [List.length_append]; omega), List.take_left,
    List.drop_left]

/-- Behind the last block reading ends. -/
theorem readBlock_atEnd {r : BlockReader} (h : AtEnd r.reader) :
    ∃ r', r.readBlock = pure (false, r') := by
  unfold BlockReader.readBlock
  rcases h with hnil | ⟨t, ht⟩
  · exact ⟨_, if_pos (by rw [hnil]; decide)⟩
  · have hlen : ¬ r.reader.length < 4 := by
      rw [ht, List.length_append, length_toLE]
      omega
    have hzero : ofLE (r.reader.take 4) = 0 := by
      rw [ht, List.take_left' (length_toLE _ _)]
      rfl
    refine ⟨⟨[], r.reader.drop 4, 0⟩, ?_⟩
    simp [hlen, hzero]

variable {bs : List (List (Bytes × V))}

/-- A key that has been read: the reader stands behind it. -/
theorem at_of_read {d' : DeltaReader V} (prev : Bytes) {common : Nat}
    (hleft : d'.blockReader.Left (encodeKeys key entries))
    (hvalues : value :: entries.map Prod.snd <+: d'.values.drop d'.idx)
    (hreader : d'.blockReader.reader = bs.flatMap encodeBlock ++ tail)
    (hsorted : (key :: entries.map Prod.fst).Pairwise (· < ·))
    (hlengths : ∀ e ∈ entries, e.1.length < 2 ^ 63) (hblocks : ∀ b ∈ bs, BlockOk b)
    (htail : AtEnd tail) (hcommon : d'.commonPrefixLen = common)
    (hsplit : common ≤ prev.length ∧ prev.take common ++ key.drop common = key)
    (hsuffix : d'.suffix = pure (key.drop common)) :
    d'.At key entries bs tail ∧ d'.Reads prev key value := by
  obtain ⟨more, hvalues⟩ := hvalues
  refine ⟨⟨hleft, ?_, hreader, hsorted, hlengths, hblocks, htail⟩, ⟨?_, ?_, ?_⟩⟩
  · rw [← List.drop_drop, ← hvalues, List.cons_append, List.drop_one, List.tail_cons]
    exact List.prefix_append _ _
  · rw [hcommon]
    exact hsplit.1
  · exact ⟨_, hsuffix, by rw [hcommon]; exact hsplit.2⟩
  · have hhead : d'.values[d'.idx]? = some value := by
      rw [← List.head?_drop, ← hvalues, List.cons_append, List.head?_cons]
    rw [DeltaReader.value, hhead]
    rfl

/-- The common prefix of the key before and the key, and the rest of the key. -/
theorem take_commonPrefixLen_append (prev key : Bytes) :
    prev.take (commonPrefixLen prev key) ++ key.drop (commonPrefixLen prev key) = key := by
  obtain ⟨-, -, htake⟩ := commonPrefixLen_spec prev key
  rw [htake, List.take_append_drop]

variable {rest : List (Bytes × V)}

/-- **One step of the delta reader** takes the next entry, in this block or the next. -/
theorem DeltaReader.At.advance (h : d.At prev entries bs tail)
    (hnext : entries ++ bs.flatten = (key, value) :: rest) :
    ∃ d' entries' bs', d.advance = pure (true, d') ∧ d'.At key entries' bs' tail ∧
      entries' ++ bs'.flatten = rest ∧ d'.Reads prev key value := by
  unfold DeltaReader.advance
  rw [h.left.rest, pure_bind]
  cases entries with
  | cons e entries =>
    -- within the block
    obtain ⟨rfl, hrest⟩ := List.cons.inj hnext
    have hne : ¬ (encodeKeys prev ((key, value) :: entries)).isEmpty := by
      rw [List.isEmpty_iff]
      exact encodeKeys_ne_nil _ (List.cons_ne_nil _ _)
    rw [if_neg hne]
    have hsorted := h.sorted
    rw [List.map_cons, List.pairwise_cons] at hsorted
    obtain ⟨d', hread, hleft, hvalues, hidx, hreader, hcommon, hsuffix⟩ :=
      readDeltaKey_left (d := { d with idx := d.idx + 1 }) h.left
        (.inr (hsorted.1 key List.mem_cons_self)) (h.lengths _ List.mem_cons_self)
    have hsplit := take_commonPrefixLen_append prev key
    obtain ⟨hat, hreads⟩ := at_of_read prev hleft
      (by rw [hvalues, hidx]; exact h.values) (hreader.trans h.reader) hsorted.2
      (fun e he => h.lengths e (List.mem_cons_of_mem _ he)) h.blocks h.atEnd hcommon
      ⟨(commonPrefixLen_spec prev key).1, hsplit⟩ hsuffix
    exact ⟨d', entries, bs, hread, hat, hrest, hreads⟩
  | nil =>
    -- the next block, whose first key is written in full
    cases bs with
    | nil => simp only [List.flatten_nil, List.append_nil, reduceCtorEq] at hnext
    | cons b bs =>
      have hok := h.blocks b List.mem_cons_self
      obtain ⟨e, entries, rfl⟩ := List.exists_cons_of_ne_nil hok.ne_nil
      obtain ⟨rfl, hrest⟩ := List.cons.inj hnext
      have hreader := h.reader
      rw [List.flatMap_cons, List.append_assoc] at hreader
      rw [encodeKeys, List.isEmpty_nil, if_pos rfl, readBlock_encodeBlock hok hreader, pure_bind]
      have hblock : BlockReader.Left ⟨blockBytes ((key, value) :: entries),
          bs.flatMap encodeBlock ++ tail, 0⟩
          (ValueCodec.writeBlock (((key, value) :: entries).map Prod.snd) ++
            encodeKeys [] ((key, value) :: entries)) := ⟨Nat.zero_le _, rfl⟩
      have hcount : (((key, value) :: entries).map Prod.snd).length ≤
          (encodeKeys [] ((key, value) :: entries)).length := by
        rw [List.length_map]
        exact length_le_length_encodeKeys _ _
      obtain ⟨more, hread⟩ := hok.values _ _ hcount hblock
      simp only
      rw [hread, pure_bind]
      have hlengths : ∀ e ∈ (key, value) :: entries, e.1.length < 2 ^ 63 := by
        intro e he
        have hle := length_le_encodeKeys _ [] e he
        have hsize := hok.size
        rw [blockBytes, List.length_append] at hsize
        rw [List.length_nil] at hle
        omega
      obtain ⟨d', hread, hleft, hvalues, hidx, hreader', hcommon, hsuffix⟩ :=
        readDeltaKey_left (d := { d with
          values := ((key, value) :: entries).map Prod.snd ++ more, idx := 0, blockReader := _ })
          hblock.advance (.inl rfl) (hlengths _ List.mem_cons_self)
      obtain ⟨hat, hreads⟩ := at_of_read prev hleft
        (by rw [hvalues, hidx]; exact List.prefix_append _ _) (hreader'.trans rfl) hok.sorted
        (fun e he => hlengths e (List.mem_cons_of_mem _ he))
        (fun b hb => h.blocks b (List.mem_cons_of_mem _ hb)) h.atEnd hcommon
        ⟨Nat.zero_le _, rfl⟩ hsuffix
      exact ⟨d', entries, bs, hread, hat, hrest, hreads⟩

/-- Behind the last entry a step finds the end. -/
theorem DeltaReader.At.advance_end (h : d.At prev entries bs tail)
    (hnext : entries ++ bs.flatten = []) :
    ∃ d', d.advance = pure (false, d') := by
  obtain ⟨rfl, hbs⟩ := List.append_eq_nil_iff.mp hnext
  -- no block is empty, so there is none
  have hnil : bs = [] := by
    by_contra hne
    obtain ⟨b, bs', rfl⟩ := List.exists_cons_of_ne_nil hne
    exact (h.blocks b List.mem_cons_self).ne_nil
      (List.flatten_eq_nil_iff.mp hbs b List.mem_cons_self)
  subst hnil
  have hreader := h.reader
  obtain ⟨r, hr⟩ := readBlock_atEnd (r := d.blockReader) (hreader ▸ h.atEnd)
  unfold DeltaReader.advance
  rw [h.left.rest, pure_bind, encodeKeys, List.isEmpty_nil, if_pos rfl, hr]
  exact ⟨_, rfl⟩

/-- A new reader stands before the first block. -/
theorem DeltaReader.at_new (hblocks : ∀ b ∈ bs, BlockOk b) (htail : AtEnd tail) :
    (DeltaReader.new V (bs.flatMap encodeBlock ++ tail)).At [] [] bs tail where
  left := ⟨Nat.le_refl _, rfl⟩
  values := List.nil_prefix
  reader := rfl
  sorted := List.pairwise_singleton _ _
  lengths := fun _ he => by cases he
  blocks := hblocks
  atEnd := htail

/-! ### The reader -/

/-- The reader has read `r.key`, and `rest` is still to come. -/
def Reader.At (r : Reader V) (rest : List (Bytes × V)) : Prop :=
  ∃ entries bs tail, r.deltaReader.At r.key entries bs tail ∧ entries ++ bs.flatten = rest

/-- One step of the reader takes the next entry. -/
theorem Reader.At.step {r : Reader V} (h : r.At ((key, value) :: rest)) :
    ∃ r', r.advance = pure (true, r') ∧ r'.At rest ∧ r'.key = key ∧ r'.value = pure value := by
  obtain ⟨entries, bs, tail, hat, hnext⟩ := h
  obtain ⟨d', entries', bs', hadv, hat', hrest, hreads⟩ := hat.advance hnext
  obtain ⟨suffix, hsuffix, hkey⟩ := hreads.suffix
  have hle := hreads.le
  -- what `resize` keeps of the key before is at least the common prefix
  have htake : ((r.key.take (d'.commonPrefixLen + suffix.length) ++
      List.replicate (d'.commonPrefixLen + suffix.length - r.key.length) 0).take
        d'.commonPrefixLen) = r.key.take d'.commonPrefixLen := by
    rw [List.take_append_of_le_length (by rw [List.length_take]; omega), List.take_take,
      Nat.min_eq_left (by omega)]
  have hstep : r.advance = pure (true, ⟨key, d'⟩) := by
    unfold Reader.advance
    rw [hadv, pure_bind]
    simp only
    rw [hsuffix, pure_bind, htake, hkey]
  exact ⟨⟨key, d'⟩, hstep, ⟨entries', bs', tail, hat', hrest⟩, rfl, hreads.value⟩

theorem Reader.At.advance {r : Reader V} (h : r.At ((key, value) :: rest)) :
    ∃ r', r.advanceOrFalse = pure (true, r') ∧ r'.At rest ∧ r'.key = key ∧
      r'.value = pure value := by
  obtain ⟨r', hstep, hrest⟩ := h.step
  refine ⟨r', ?_, hrest⟩
  rw [Reader.advanceOrFalse, hstep]
  rfl

/-- Behind the last entry the reader finds the end. -/
theorem Reader.At.step_end {r : Reader V} (h : r.At []) :
    ∃ r', r.advance = pure (false, r') := by
  obtain ⟨entries, bs, tail, hat, hnext⟩ := h
  obtain ⟨d', hadv⟩ := hat.advance_end hnext
  refine ⟨{ r with deltaReader := d' }, ?_⟩
  unfold Reader.advance
  rw [hadv, pure_bind]

theorem Reader.At.advance_end {r : Reader V} (h : r.At []) :
    ∃ r', r.advanceOrFalse = pure (false, r') := by
  obtain ⟨r', hstep⟩ := h.step_end
  refine ⟨r', ?_⟩
  rw [Reader.advanceOrFalse, hstep]
  rfl

/-- A new reader stands before all the entries of its blocks. -/
theorem Reader.at_new (hblocks : ∀ b ∈ bs, BlockOk b) (htail : AtEnd tail) :
    (Reader.new V (bs.flatMap encodeBlock ++ tail)).At bs.flatten :=
  ⟨[], bs, tail, DeltaReader.at_new hblocks htail, rfl⟩

end TeaclaveCrates.Tantivy
