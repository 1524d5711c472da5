import TeaclaveCrates.Tantivy.CompactSpaceScan

namespace TeaclaveCrates.Tantivy

open TeaclaveCrates.Lib FastFieldCodecs

/-!
# tantivy — range lookups in a multi-valued column

`fastfield/multivalued`: the values of all documents in one column, the start of the values of each
document in another, and the lookup of the documents with a value in a range: their positions are
looked up among the values, and turned into documents by a walk over the starts.

`none` is a panic; a profile says whether arithmetic that overflows does.

* `MultiValueIndex` — the starts, and both ways between documents and positions;
* `MultiValuedU128FastFieldReader` — the reader of both columns;
* `positionsLoop_spec` — the walk over the starts;
* `docids_iff` — when a lookup returns the documents of its range.
-/

/-- `MultiValueIndex`: the column of the starts, with the number of all values behind them. -/
structure MultiValueIndex where
  idx : List Nat

namespace MultiValueIndex

/-- `self.idx.get_val(doc) as u32`. -/
def getVal (index : MultiValueIndex) (doc : Nat) : Option Nat := index.idx[doc]?.map (· % 2 ^ 32)

/-- `num_docs`. -/
def numDocs (profile : Profile) (index : MultiValueIndex) : Option Nat :=
  profile.fitSub 32 index.idx.length 1

/-- `docid_range_to_position_range`. -/
def docidRangeToPositionRange (profile : Profile) (index : MultiValueIndex) (start stop : Nat) :
    Option (Nat × Nat) := do
  let last ← profile.fitSub 32 (← index.numDocs profile) 1
  let endDocid ← profile.fit 32 (min stop last + 1)
  let startDocid := min start endDocid
  let start ← index.getVal startDocid
  let stop ← index.getVal endDocid
  guard (start ≤ stop)
  return (start, stop)

/-- The inner loop of `positions_to_docids`: the document of a position. -/
def docOf (index : MultiValueIndex) (curDoc pos : Nat) : Option Nat :=
  match h : index.getVal (curDoc + 1) with
  | none => none
  | some stop => if stop > pos then some curDoc else docOf index (curDoc + 1) pos
termination_by index.idx.length - curDoc
decreasing_by
  obtain ⟨v, hv, -⟩ := Option.map_eq_some_iff.mp h
  have := (List.getElem?_eq_some_iff.mp hv).1
  omega

/-- The outer loop of `positions_to_docids`. A position is read before its slot is written, so the
    vector is what is written so far and what is still to be read. -/
def positionsLoop (index : MultiValueIndex) : List Nat → Nat → Option Nat → Option (List Nat)
  | [], _, _ => some []
  | pos :: positions, curDoc, lastDoc => do
    let curDoc ← index.docOf curDoc pos
    let docs ← positionsLoop index positions curDoc (some curDoc)
    return if lastDoc = some curDoc then docs else curDoc :: docs

/-- `positions_to_docids`. -/
def positionsToDocids (index : MultiValueIndex) (start : Nat) (positions : List Nat) :
    Option (List Nat) :=
  match positions with
  | [] => some []
  | pos :: _ => do
    guard ((← index.getVal start) ≤ pos)
    positionsLoop index positions start none

end MultiValueIndex

/-- `MultiValuedU128FastFieldReader`. -/
structure MultiValuedU128FastFieldReader where
  idxReader : MultiValueIndex
  valsReader : CompactSpaceDecompressor

namespace MultiValuedU128FastFieldReader

/-- `get_docids_for_value_range` of the column of values, a `MonotonicMappingColumn` over the
    decompressor. -/
def positionsForValueRange (profile : Profile) (d : CompactSpaceDecompressor)
    (lo hi start stop : Nat) : Option (List Nat) :=
  if d.params.maxValue < lo ∨ hi < d.params.minValue then some []
  else if hi < lo then some []
  else d.getPositionsForValueRange profile lo hi start stop

/-- `get_docids_for_value_range`. -/
def getDocidsForValueRange (profile : Profile) (r : MultiValuedU128FastFieldReader)
    (lo hi start stop : Nat) : Option (List Nat) := do
  let range ← r.idxReader.docidRangeToPositionRange profile start stop
  let positions ← positionsForValueRange profile r.valsReader lo hi range.1 range.2
  r.idxReader.positionsToDocids start positions

end MultiValuedU128FastFieldReader

/-! ### The starts -/

/-- The number of values in front of a document. -/
def offset (docs : List (List Nat)) (d : Nat) : Nat := (docs.take d).flatten.length

/-- The starts of the documents. -/
def offsets (docs : List (List Nat)) : List Nat := (List.range (docs.length + 1)).map (offset docs)

/-- The document has a value in the range. -/
def HasValue (docs : List (List Nat)) (lo hi d : Nat) : Prop :=
  ∃ v ∈ docs[d]?.getD [], lo ≤ v ∧ v ≤ hi

instance (docs : List (List Nat)) (lo hi : Nat) : DecidablePred (HasValue docs lo hi) := fun _ =>
  inferInstanceAs (Decidable (∃ v ∈ _, _))

/-- The documents from `start` on, in front of `stop`, that have a value in the range. -/
def docsOf (docs : List (List Nat)) (lo hi start stop : Nat) : List Nat :=
  (List.range' start (min stop docs.length - start)).filter fun d => HasValue docs lo hi d

section Starts

variable {docs : List (List Nat)} {d p : Nat}

theorem offset_succ (h : d < docs.length) : offset docs (d + 1) = offset docs d + docs[d].length := by
  rw [offset, offset, List.take_add_one, List.getElem?_eq_getElem h, Option.toList_some,
    List.flatten_append, List.length_append, List.flatten_singleton]

theorem offset_mono (docs : List (List Nat)) : Monotone (offset docs) := by
  refine monotone_nat_of_le_succ fun d => ?_
  by_cases h : d < docs.length
  · rw [offset_succ h]
    exact Nat.le_add_right _ _
  · rw [offset, offset, List.take_of_length_le (by omega), List.take_of_length_le (by omega)]

theorem offset_length : offset docs docs.length = docs.flatten.length := by simp [offset]

theorem offset_le : offset docs d ≤ docs.flatten.length := by
  rw [← offset_length]
  by_cases h : d ≤ docs.length
  · exact offset_mono docs h
  · rw [offset, offset, List.take_of_length_le (by omega), List.take_of_length_le le_rfl]

/-- A position is among the values of one document. -/
theorem doc_unique {e : Nat} (hd : offset docs d ≤ p ∧ p < offset docs (d + 1))
    (he : offset docs e ≤ p ∧ p < offset docs (e + 1)) : d = e := by
  rcases lt_trichotomy d e with h | h | h
  · have := offset_mono docs (show d + 1 ≤ e from h)
    omega
  · exact h
  · have := offset_mono docs (show e + 1 ≤ d from h)
    omega

theorem getElem?_flatten_offset {i : Nat} (hd : d < docs.length) (hi : i < docs[d].length) :
    docs.flatten[offset docs d + i]? = some docs[d][i] := by
  have hsplit : docs.flatten = (docs.take d).flatten ++ (docs[d] ++ (docs.drop (d + 1)).flatten) := by
    rw [← List.flatten_cons, ← List.drop_eq_getElem_cons hd, ← List.flatten_append,
      List.take_append_drop]
  rw [hsplit, offset, List.getElem?_append_right (Nat.le_add_right _ _), Nat.add_sub_cancel_left,
    List.getElem?_append_left hi, List.getElem?_eq_getElem hi]

variable {index : MultiValueIndex} (hidx : index.idx = offsets docs)
  (hlen : docs.flatten.length < 2 ^ 32)

include hidx hlen

theorem getVal_eq (h : d ≤ docs.length) : index.getVal d = some (offset docs d) := by
  rw [MultiValueIndex.getVal, hidx, offsets, List.getElem?_map,
    List.getElem?_range (Nat.lt_succ_of_le h), Option.map_some, Option.map_some,
    Nat.mod_eq_of_lt (offset_le.trans_lt hlen)]

theorem docOf_spec {curDoc : Nat} (hcur : offset docs curDoc ≤ p) (hp : p < docs.flatten.length) :
    ∃ d, index.docOf curDoc p = some d ∧ curDoc ≤ d ∧ offset docs d ≤ p ∧
      p < offset docs (d + 1) := by
  have hdoc : curDoc < docs.length := by
    by_contra hge
    have := offset_mono docs (Nat.le_of_not_lt hge)
    rw [offset_length] at this
    omega
  rw [MultiValueIndex.docOf]
  split
  · rename_i hnone
    rw [getVal_eq hidx hlen hdoc] at hnone
    cases hnone
  · rename_i stop hstop
    rw [getVal_eq hidx hlen hdoc] at hstop
    obtain rfl := Option.some.inj hstop
    by_cases hmore : offset docs (curDoc + 1) > p
    · exact ⟨curDoc, if_pos hmore, le_rfl, hcur, hmore⟩
    · obtain ⟨d, hd, hle, hspec⟩ := docOf_spec (Nat.le_of_not_lt hmore) hp
      exact ⟨d, by rw [if_neg hmore, hd], (Nat.le_succ _).trans hle, hspec⟩
termination_by docs.length - curDoc

/-- **The walk over the starts** turns positions in order into their documents, without the one that
    was written last. -/
theorem positionsLoop_spec {positions : List Nat} (hsorted : positions.Pairwise (· < ·))
    (curDoc : Nat) (lastDoc : Option Nat) (hlast : ∀ d, lastDoc = some d → d = curDoc)
    (h : ∀ p ∈ positions, offset docs curDoc ≤ p ∧ p < docs.flatten.length) :
    ∃ ds, index.positionsLoop positions curDoc lastDoc = some ds ∧ ds.Pairwise (· < ·) ∧
      ∀ d, d ∈ ds ↔ lastDoc ≠ some d ∧ ∃ p ∈ positions, offset docs d ≤ p ∧
        p < offset docs (d + 1) := by
  induction positions generalizing curDoc lastDoc with
  | nil => exact ⟨[], rfl, .nil, by simp⟩
  | cons pos positions ih =>
    obtain ⟨hpos, hsorted⟩ := List.pairwise_cons.mp hsorted
    obtain ⟨hle, hlt⟩ := h pos List.mem_cons_self
    obtain ⟨doc, hdoc, hcur, hspec⟩ := docOf_spec hidx hlen hle hlt
    obtain ⟨ds, hds, hincreasing, hmem⟩ := ih hsorted doc (some doc)
      (fun d hd => (Option.some.inj hd).symm) fun p hp =>
        ⟨hspec.1.trans (hpos p hp).le, (h p (List.mem_cons_of_mem _ hp)).2⟩
    -- the documents behind this one
    have hafter : ∀ d ∈ ds, doc < d := by
      intro d hd
      obtain ⟨hne, p, hp, -, hpd⟩ := (hmem d).mp hd
      have hge : doc ≤ d := by
        by_contra hgt
        have := offset_mono docs (show d + 1 ≤ doc by omega)
        have := hpos p hp
        omega
      exact lt_of_le_of_ne hge fun heq => hne (congrArg some heq)
    rw [MultiValueIndex.positionsLoop, hdoc]
    simp only [Option.bind_eq_bind, Option.bind_some, hds]
    by_cases hsame : lastDoc = some doc
    · refine ⟨ds, by simp [hsame], hincreasing, fun d => ?_⟩
      rw [hmem, hsame]
      simp only [List.mem_cons, exists_eq_or_imp]
      refine and_congr_right fun hne => ⟨.inr, fun hor => hor.resolve_left fun hd => ?_⟩
      exact hne (congrArg some (doc_unique hspec hd))
    · refine ⟨doc :: ds, by simp [hsame], List.pairwise_cons.mpr ⟨hafter, hincreasing⟩, fun d => ?_⟩
      simp only [List.mem_cons, exists_eq_or_imp]
      constructor
      · rintro (rfl | hd)
        · exact ⟨hsame, .inl hspec⟩
        · refine ⟨fun hlastd => ?_, .inr ((hmem d).mp hd).2⟩
          have := hlast d hlastd
          have := hafter d hd
          omega
      · rintro ⟨-, hd | hd⟩
        · exact .inl (doc_unique hspec hd).symm
        · by_cases heq : d = doc
          · exact .inl heq
          · exact .inr ((hmem d).mpr ⟨fun hsome => heq (Option.some.inj hsome).symm, hd⟩)

end Starts

/-! ### Lookups -/

section Lookup

open MultiValuedU128FastFieldReader

variable {pops : List BlankRange → List BlankRange} {docs : List (List Nat)}
  {r : MultiValuedU128FastFieldReader} (lo hi start stop : Nat)

/-- The reader of the documents: the starts, and the values one document after the other. -/
structure Reads (pops : List BlankRange → List BlankRange) (docs : List (List Nat))
    (r : MultiValuedU128FastFieldReader) : Prop where
  starts : r.idxReader.idx = offsets docs
  values : Stored pops docs.flatten r.valsReader

/-- The document behind the last one that is looked at. -/
def lookupEnd (docs : List (List Nat)) (stop : Nat) : Nat := min stop (docs.length - 1) + 1

/-- The positions of the documents that are looked at can be read. -/
def Readable (docs : List (List Nat)) (d : CompactSpaceDecompressor) (lo hi start stop : Nat) :
    Prop :=
  d.params.maxValue < lo ∨ hi < d.params.minValue ∨
    Scannable d lo hi (offset docs (min start (lookupEnd docs stop)))
      (offset docs (lookupEnd docs stop))

variable (hpops : HeapOrder pops) (hlt : ∀ v ∈ docs.flatten, v < 2 ^ 128)
  (hlen : docs.flatten.length < 2 ^ 32)

include hpops hlt hlen

omit hpops hlt hlen in
theorem FastFieldCodecs.Stored.bounds {d : CompactSpaceDecompressor} {vals : List Nat} (hpops : HeapOrder pops)
    (hlt : ∀ v ∈ vals, v < 2 ^ 128) (hlen : vals.length < 2 ^ 32) (hstored : Stored pops vals d) :
    ∀ v ∈ vals, d.params.minValue ≤ v ∧ v ≤ d.params.maxValue := by
  obtain rfl := hstored.eq_columnOf hpops hlt hlen
  intro v hv
  have hmem := mem_btreeSet.mpr hv
  show (btreeSet vals).head?.getD 0 ≤ v ∧ v ≤ (btreeSet vals).getLast?.getD 0
  obtain ⟨pre, post, hsplit⟩ := List.append_of_mem hmem
  have hsorted := btreeSet_sorted vals
  rw [hsplit] at hsorted ⊢
  obtain ⟨-, hpost, hcross⟩ := List.pairwise_append.mp hsorted
  constructor
  · cases pre with
    | nil => exact le_rfl
    | cons w pre => exact (hcross w List.mem_cons_self v List.mem_cons_self).le
  · rw [List.getLast?_append, List.getLast?_cons]
    cases hlast : post.getLast? with
    | none => exact le_rfl
    | some w => exact ((List.pairwise_cons.mp hpost).1 w (List.mem_of_getLast? hlast)).le

/-- The column of values finds the positions that can be read, and no others. -/
theorem positionsForValueRange_spec {d : CompactSpaceDecompressor}
    (hstored : Stored pops docs.flatten d) :
    (d.params.maxValue < lo ∨ hi < d.params.minValue ∨ Scannable d lo hi start stop →
      ∀ profile, positionsForValueRange profile d lo hi start stop =
        some (positionsOf docs.flatten lo hi start stop)) ∧
      ∀ positions, positionsForValueRange .test d lo hi start stop = some positions →
        d.params.maxValue < lo ∨ hi < d.params.minValue ∨ Scannable d lo hi start stop := by
  obtain ⟨hexact, htest⟩ := scannable_spec hpops hlt hlen hstored lo hi start stop
  unfold positionsForValueRange
  by_cases hout : d.params.maxValue < lo ∨ hi < d.params.minValue
  · refine ⟨fun _ profile => ?_, fun _ _ => hout.imp_right .inl⟩
    have hbounds := hstored.bounds hpops hlt hlen
    rw [if_pos hout, positionsOf_eq_nil fun v hv => ?_]
    have := hbounds v hv
    omega
  · by_cases hreversed : hi < lo
    · refine ⟨fun _ profile => ?_, fun _ _ => .inr (.inr (.inl hreversed))⟩
      rw [if_neg hout, if_pos hreversed, positionsOf_eq_nil fun v _ => by omega]
    · simp only [if_neg hout, if_neg hreversed]
      refine ⟨fun h => hexact ?_, fun positions h => .inr (.inr (htest positions h))⟩
      rcases h with h | h | h
      · exact absurd (.inl h) hout
      · exact absurd (.inr h) hout
      · exact h

omit hpops hlt hlen in
/-- The documents of the positions. -/
theorem exists_position_iff {s e d : Nat} (he : e ≤ docs.length) :
    (∃ p ∈ positionsOf docs.flatten lo hi (offset docs s) (offset docs e),
        offset docs d ≤ p ∧ p < offset docs (d + 1)) ↔ (s ≤ d ∧ d < e) ∧ HasValue docs lo hi d := by
  have hmono := offset_mono docs
  have hend : min (offset docs e) docs.flatten.length = offset docs e := Nat.min_eq_left offset_le
  constructor
  · rintro ⟨p, hp, hle, hlt⟩
    obtain ⟨hrange, hvalue⟩ := List.mem_filter.mp hp
    obtain ⟨hs, hstop⟩ := List.mem_range'_1.mp hrange
    rw [hend] at hstop
    have hsd : s ≤ d := by
      by_contra hgt
      have := hmono (show d + 1 ≤ s by omega)
      omega
    have hde : d < e := by
      by_contra hge
      have := hmono (Nat.le_of_not_lt hge)
      omega
    have hd : d < docs.length := by omega
    rw [offset_succ hd] at hlt
    have hget := getElem?_flatten_offset hd (show p - offset docs d < docs[d].length by omega)
    rw [Nat.add_sub_cancel' hle] at hget
    rw [hget] at hvalue
    refine ⟨⟨hsd, hde⟩, docs[d][p - offset docs d], ?_, of_decide_eq_true hvalue⟩
    rw [List.getElem?_eq_getElem hd]
    exact List.getElem_mem _
  · rintro ⟨⟨hsd, hde⟩, v, hv, hin⟩
    have hd : d < docs.length := by omega
    rw [List.getElem?_eq_getElem hd, Option.getD_some] at hv
    obtain ⟨i, hlen, rfl⟩ := List.mem_iff_getElem.mp hv
    have hsucc := offset_succ hd
    have hs := hmono hsd
    have hstop := hmono (show d + 1 ≤ e from hde)
    refine ⟨offset docs d + i, List.mem_filter.mpr ⟨List.mem_range'_1.mpr ⟨by omega, ?_⟩, ?_⟩,
      Nat.le_add_right _ _, by omega⟩
    · rw [hend]
      omega
    · rw [getElem?_flatten_offset hd hlen]
      exact decide_eq_true hin

omit hpops hlt in
/-- The documents of the positions that were found. -/
theorem positionsToDocids_spec {index : MultiValueIndex} (hidx : index.idx = offsets docs) {e : Nat}
    (he : e ≤ docs.length) :
    index.positionsToDocids start
        (positionsOf docs.flatten lo hi (offset docs (min start e)) (offset docs e)) =
      some ((List.range' start (e - start)).filter fun d => HasValue docs lo hi d) := by
  have hexists := fun d => exists_position_iff (d := d) lo hi (s := min start e) he
  have hsorted : (positionsOf docs.flatten lo hi (offset docs (min start e))
      (offset docs e)).Pairwise (· < ·) := List.Pairwise.filter _ List.pairwise_lt_range'
  obtain ⟨ds, hds, hincreasing, hmem⟩ : ∃ ds, index.positionsToDocids start
      (positionsOf docs.flatten lo hi (offset docs (min start e)) (offset docs e)) = some ds ∧
        ds.Pairwise (· < ·) ∧ ∀ d, d ∈ ds ↔ (min start e ≤ d ∧ d < e) ∧ HasValue docs lo hi d := by
    have hbounds : ∀ p ∈ positionsOf docs.flatten lo hi (offset docs (min start e)) (offset docs e),
        offset docs (min start e) ≤ p ∧ p < offset docs e := by
      intro p hp
      obtain ⟨hle, hlt⟩ := List.mem_range'_1.mp (List.mem_filter.mp hp).1
      have hend := Nat.min_le_left (offset docs e) docs.flatten.length
      omega
    cases hpositions : positionsOf docs.flatten lo hi (offset docs (min start e)) (offset docs e) with
    | nil =>
      refine ⟨[], rfl, .nil, fun d => ?_⟩
      rw [← hexists, hpositions]
      simp
    | cons pos positions =>
      rw [hpositions] at hsorted hbounds
      obtain ⟨hle, hlt⟩ := hbounds pos List.mem_cons_self
      -- there is a position, so the range does not start behind its end
      have hstart : min start e = start := by
        by_contra hne
        rw [show min start e = e by omega] at hle
        omega
      rw [hstart] at hbounds hle hexists
      obtain ⟨ds, hds, hincreasing, hmem⟩ := positionsLoop_spec hidx hlen hsorted start none
        (fun _ h => nomatch h) fun p hp => ⟨(hbounds p hp).1, (hbounds p hp).2.trans_le offset_le⟩
      refine ⟨ds, ?_, hincreasing, fun d => ?_⟩
      · rw [MultiValueIndex.positionsToDocids, getVal_eq hidx hlen (by omega)]
        simpa [hle] using hds
      · rw [hmem, hstart, ← hexists, ← hstart, hpositions]
        simp
  rw [hds, hincreasing.eq_of_mem_iff (List.Pairwise.filter _ List.pairwise_lt_range') fun d => ?_]
  rw [hmem, List.mem_filter, List.mem_range'_1, decide_eq_true_eq]
  refine and_congr_left fun _ => ?_
  omega

omit hpops hlt hlen in
theorem numDocs_eq (hr : Reads pops docs r) (profile : Profile) :
    r.idxReader.numDocs profile = some docs.length := by
  rw [MultiValueIndex.numDocs, hr.starts]
  simp [offsets, Profile.fitSub]

omit hpops hlt in
/-- The positions of the documents that are looked at. -/
theorem docidRange_eq (hdocs : docs.length < 2 ^ 32) (hr : Reads pops docs r) (hempty : docs ≠ [])
    (profile : Profile) :
    r.idxReader.docidRangeToPositionRange profile start stop =
      some (offset docs (min start (lookupEnd docs stop)), offset docs (lookupEnd docs stop)) := by
  have hpos := List.length_pos_iff.mpr hempty
  have hend : lookupEnd docs stop ≤ docs.length := by
    unfold lookupEnd
    omega
  have hfit : profile.fit 32 (min stop (docs.length - 1) + 1) = some (lookupEnd docs stop) :=
    Profile.fit_of_lt (hend.trans_lt hdocs)
  simp only [MultiValueIndex.docidRangeToPositionRange, numDocs_eq hr, Option.bind_eq_bind,
    Option.bind_some, Profile.fitSub_of_le hpos, hfit, getVal_eq hr.starts hlen hend,
    getVal_eq hr.starts hlen ((Nat.min_le_right _ _).trans hend)]
  simp [offset_mono docs (Nat.min_le_right start (lookupEnd docs stop))]

/-- What is found where the positions can be read. -/
theorem getDocids_eq (hdocs : docs.length < 2 ^ 32) (hr : Reads pops docs r) (hempty : docs ≠ [])
    (hreadable : Readable docs r.valsReader lo hi start stop) (profile : Profile) :
    r.getDocidsForValueRange profile lo hi start stop =
      some ((List.range' start (lookupEnd docs stop - start)).filter fun d =>
        HasValue docs lo hi d) := by
  have hpos := List.length_pos_iff.mpr hempty
  have hend : lookupEnd docs stop ≤ docs.length := by
    unfold lookupEnd
    omega
  rw [getDocidsForValueRange, docidRange_eq start stop hlen hdocs hr hempty]
  simp only [Option.bind_eq_bind, Option.bind_some,
    (positionsForValueRange_spec lo hi _ _ hpops hlt hlen hr.values).1 hreadable profile]
  exact positionsToDocids_spec lo hi start hlen hr.starts hend

/-- **Lookups of documents.** A lookup returns the documents of its range that have a value in the
    range of values, in both profiles, just when there is a document, the positions can be read, and
    the document behind the range, which is looked at as well, does not match. -/
theorem docids_iff (hdocs : docs.length < 2 ^ 32) (hr : Reads pops docs r) :
    (∀ profile, r.getDocidsForValueRange profile lo hi start stop =
        some (docsOf docs lo hi start stop)) ↔
      docs ≠ [] ∧ Readable docs r.valsReader lo hi start stop ∧
        ¬(start ≤ stop ∧ stop < docs.length ∧ HasValue docs lo hi stop) := by
  by_cases hempty : docs = []
  · refine iff_of_false (fun h => ?_) fun h => h.1 hempty
    have htest := h .test
    simp [getDocidsForValueRange, MultiValueIndex.docidRangeToPositionRange, numDocs_eq hr, hempty,
      Profile.fitSub] at htest
  have hpos := List.length_pos_iff.mpr hempty
  have hgets := fun h => getDocids_eq lo hi start stop hpops hlt hlen hdocs hr hempty h
  have hsame : (List.range' start (lookupEnd docs stop - start)).filter (fun d =>
        HasValue docs lo hi d) = docsOf docs lo hi start stop ↔
      ¬(start ≤ stop ∧ stop < docs.length ∧ HasValue docs lo hi stop) := by
    unfold docsOf lookupEnd
    by_cases hin : start ≤ stop ∧ stop < docs.length
    · rw [show min stop (docs.length - 1) + 1 - start = (stop - start) + 1 by omega,
        show min stop docs.length - start = stop - start by omega, List.range'_concat,
        List.filter_append, List.append_right_eq_self, List.filter_eq_nil_iff]
      simp [hin, Nat.add_sub_cancel' hin.1]
    · rw [show min stop (docs.length - 1) + 1 - start = min stop docs.length - start by omega]
      exact iff_of_true rfl fun h => hin ⟨h.1, h.2.1⟩
  constructor
  · intro h
    have hreadable : Readable docs r.valsReader lo hi start stop := by
      have hrun := h .test
      rw [getDocidsForValueRange, docidRange_eq start stop hlen hdocs hr hempty] at hrun
      simp only [Option.bind_eq_bind, Option.bind_some] at hrun
      obtain ⟨positions, hpositions, -⟩ := Option.bind_eq_some_iff.mp hrun
      exact (positionsForValueRange_spec lo hi _ _ hpops hlt hlen hr.values).2 positions hpositions
    refine ⟨hempty, hreadable, hsame.mp ?_⟩
    have hrun := h .test
    rw [hgets hreadable] at hrun
    exact Option.some.inj hrun
  · rintro ⟨-, hreadable, hextra⟩ profile
    rw [hgets hreadable, hsame.mpr hextra]

end Lookup

/-- Three documents, of which only the last has a value in the range. -/
theorem docids_iff_three :
    let docs := [[1, 2 ^ 127], [], [5]]
    let r : MultiValuedU128FastFieldReader :=
      ⟨⟨offsets docs⟩, columnOf popsDescending docs.flatten⟩
    Reads popsDescending docs r ∧
      ∀ profile, r.getDocidsForValueRange profile 5 100 0 7 = some [2] := by
  intro docs r
  have hlt : ∀ v ∈ docs.flatten, v < 2 ^ 128 := by decide
  have hreads : Reads popsDescending docs r :=
    ⟨rfl, stored_columnOf heapOrder_popsDescending hlt (by decide) (by decide +kernel)⟩
  refine ⟨hreads, (docids_iff 5 100 0 7 heapOrder_popsDescending hlt (by decide) (by decide)
    hreads).mpr ⟨by decide, ?_, by decide⟩⟩
  exact .inr (.inr (.inr (.inr ⟨by decide +kernel, fun _ => ⟨by decide +kernel,
    .inr (by decide +kernel)⟩⟩)))

/-- The document behind the range has the value, and is returned. -/
theorem doc_behind_range :
    let docs := [[1], [5]]
    let r : MultiValuedU128FastFieldReader :=
      ⟨⟨offsets docs⟩, columnOf popsDescending docs.flatten⟩
    Reads popsDescending docs r ∧ r.getDocidsForValueRange .release 5 5 0 1 = some [1] ∧
      docsOf docs 5 5 0 1 = [] := by
  refine ⟨⟨rfl, ?_⟩, by decide +kernel, by decide⟩
  exact stored_columnOf heapOrder_popsDescending (by decide) (by decide) (by decide +kernel)

end TeaclaveCrates.Tantivy
