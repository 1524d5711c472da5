import TeaclaveCrates.Tantivy.MultiValueIndex
import TeaclaveCrates.Tantivy.ScorerMachine

namespace TeaclaveCrates.Tantivy

open TeaclaveCrates.Lib FastFieldCodecs

/-!
# tantivy — range queries on IP columns

`query/range_query_ip_fastfield.rs`: the documents with an address between two bounds, looked up in
the column block by block. The blocks grow while nothing is found and start small again behind a far
seek.

* `boundToValueRange` — the bounds as a range of values;
* `IpFastFieldCardinality` — a column with one value or several for a document;
* `IpRangeDocSet`, `IPFastFieldRangeWeight.scorer` — the documents, and the scorer over them;
* `fetchDocs_spec`, `advance_spec`, `seek_spec` — what is left after a block and after a call;
* `ipRange_behaves` — every sequence of calls goes through the documents within the bounds.

Addresses are their numbers of 128 bits. `none` is a panic, or a loop that does not end.
-/

/-! ### The source -/

/-- `Bound<Ipv6Addr>`. -/
inductive IpBound where
  | included (value : Nat)
  | excluded (value : Nat)
  | unbounded

/-- `bound_to_value_range`. -/
def boundToValueRange (profile : Profile) (leftBound rightBound : IpBound) (minValue maxValue : Nat) :
    Option (Nat × Nat) := do
  let startValue ← match leftBound with
    | .included ipAddr => some ipAddr
    | .excluded ipAddr => profile.fit 128 (ipAddr + 1)
    | .unbounded => some minValue
  let endValue ← match rightBound with
    | .included ipAddr => some ipAddr
    | .excluded ipAddr => profile.fitSub 128 ipAddr 1
    | .unbounded => some maxValue
  return (startValue, endValue)

/-- `VecCursor`. -/
structure VecCursor where
  docs : List Nat
  currentPos : Nat

namespace VecCursor

def current (c : VecCursor) : Option Nat := c.docs[c.currentPos]?

def next (c : VecCursor) : VecCursor := { c with currentPos := c.currentPos + 1 }

def lastValue (c : VecCursor) : Option Nat := c.docs.getLast?

def isEmpty (c : VecCursor) : Bool := decide (c.docs.length ≤ c.currentPos)

/-- The loop of `fetch_horizon` that passes a document that was there before. -/
def skip (c : VecCursor) (value : Nat) : VecCursor :=
  if _h : c.current = some value then skip c.next value else c
termination_by c.docs.length - c.currentPos
decreasing_by
  have := (List.getElem?_eq_some_iff.mp _h).1
  show c.docs.length - (c.currentPos + 1) < c.docs.length - c.currentPos
  omega

end VecCursor

/-- `IpFastFieldCardinality`. -/
inductive IpFastFieldCardinality where
  | singleValue (column : CompactSpaceDecompressor)
  | multiValue (reader : MultiValuedU128FastFieldReader)

namespace IpFastFieldCardinality

def numDocs (profile : Profile) : IpFastFieldCardinality → Option Nat
  | singleValue column => some column.params.numVals
  | multiValue reader => reader.idxReader.numDocs profile

/-- The column of the values. -/
def values : IpFastFieldCardinality → CompactSpaceDecompressor
  | singleValue column => column
  | multiValue reader => reader.valsReader

/-- `get_docids_for_value_range` of the column or of the reader. -/
def getDocids (profile : Profile) (field : IpFastFieldCardinality) (lo hi start stop : Nat) :
    Option (List Nat) :=
  match field with
  | singleValue column =>
    MultiValuedU128FastFieldReader.positionsForValueRange profile column lo hi start stop
  | multiValue reader => reader.getDocidsForValueRange profile lo hi start stop

/-- With several values for a document, the one at the end of a block comes again in the next block. -/
def skipOverlap : IpFastFieldCardinality → Option Nat → VecCursor → VecCursor
  | multiValue _, some lastValue, cursor => cursor.skip lastValue
  | _, _, cursor => cursor

end IpFastFieldCardinality

/-- `IpRangeDocSet`. -/
structure IpRangeDocSet where
  valueRange : Nat × Nat
  ipAddrFastField : IpFastFieldCardinality
  nextFetchStart : Nat
  fetchHorizon : Nat
  loadedDocs : VecCursor
  lastSeekPosOpt : Option Nat

namespace IpRangeDocSet

def DEFAULT_FETCH_HORIZON : Nat := 128

def MAX_HORIZON : Nat := 100000

/-- `fetch_horizon`: the next documents, and whether they were the last ones. -/
def fetchDocs (profile : Profile) (s : IpRangeDocSet) (horizon : Nat) :
    Option (Bool × IpRangeDocSet) := do
  let limit ← s.ipAddrFastField.numDocs profile
  let stop ← profile.fit 32 (s.nextFetchStart + horizon)
  let finishedToEnd := decide (limit ≤ stop)
  let stop := if limit ≤ stop then limit else stop
  let docs ← s.ipAddrFastField.getDocids profile s.valueRange.1 s.valueRange.2 s.nextFetchStart stop
  let cursor := s.ipAddrFastField.skipOverlap s.loadedDocs.lastValue ⟨docs, 0⟩
  return (finishedToEnd, { s with loadedDocs := cursor, nextFetchStart := stop })

/-- The loop of `fetch_block`. -/
def fetchLoop (profile : Profile) : Nat → IpRangeDocSet → Option IpRangeDocSet
  | 0, _ => none
  | fuel + 1, s =>
    if s.loadedDocs.isEmpty then do
      let (finishedToEnd, s) ← s.fetchDocs profile s.fetchHorizon
      if finishedToEnd then return s
      else fetchLoop profile fuel { s with fetchHorizon := min (s.fetchHorizon * 2) MAX_HORIZON }
    else some s

/-- `fetch_block`, with a round for every document. -/
def fetchBlock (profile : Profile) (s : IpRangeDocSet) : Option IpRangeDocSet := do
  fetchLoop profile ((← s.ipAddrFastField.numDocs profile) + 1) s

def new (profile : Profile) (valueRange : Nat × Nat) (field : IpFastFieldCardinality) :
    Option IpRangeDocSet :=
  fetchBlock profile ⟨valueRange, field, 0, DEFAULT_FETCH_HORIZON, ⟨[], 0⟩, none⟩

def doc (s : IpRangeDocSet) : Nat := s.loadedDocs.current.getD TERMINATED

def advance (profile : Profile) (s : IpRangeDocSet) : Option (Nat × IpRangeDocSet) :=
  let s := { s with loadedDocs := s.loadedDocs.next }
  match s.loadedDocs.current with
  | some docid => some (docid, s)
  | none => do
    if (← s.ipAddrFastField.numDocs profile) ≤ s.nextFetchStart then return (TERMINATED, s)
    else
      let s ← s.fetchBlock profile
      return (s.doc, s)

/-- `is_last_seek_distance_large`. -/
def isLastSeekDistanceLarge (profile : Profile) (s : IpRangeDocSet) (newSeek : Nat) : Option Bool :=
  match s.lastSeekPosOpt with
  | some lastSeekPos => do return decide (128 ≤ (← profile.fitSub 32 newSeek lastSeekPos))
  | none => some true

/-- The loop of `seek`. -/
def seekLoop (profile : Profile) (target : Nat) : Nat → Nat → IpRangeDocSet →
    Option (Nat × IpRangeDocSet)
  | 0, _, _ => none
  | fuel + 1, doc, s =>
    if doc < target then do
      let (doc, s) ← s.advance profile
      seekLoop profile target fuel doc s
    else some (doc, s)

/-- `seek`, with a round for every document in front of the target. -/
def seek (profile : Profile) (s : IpRangeDocSet) (target : Nat) : Option (Nat × IpRangeDocSet) := do
  let s := if ← s.isLastSeekDistanceLarge profile target then
      { s with fetchHorizon := DEFAULT_FETCH_HORIZON } else s
  let s := if s.nextFetchStart < target then { s with nextFetchStart := target } else s
  guard (profile = .test → s.doc ≤ target)
  let (doc, s) ← seekLoop profile target (target + 1) s.doc s
  return (doc, { s with lastSeekPosOpt := some target })

end IpRangeDocSet

/-- `ConstScorer` over the documents of the range. -/
structure ConstScorer (profile : Profile) where
  docset : IpRangeDocSet
  score : Score

instance (profile : Profile) : ScorerMachine (ConstScorer profile) where
  doc s := s.docset.doc
  advance s := (s.docset.advance profile).map fun moved => (moved.1, { s with docset := moved.2 })
  seek s target :=
    (s.docset.seek profile target).map fun moved => (moved.1, { s with docset := moved.2 })
  score s := some (s.score, s)

/-- `IPFastFieldRangeWeight`, with its field opened. -/
structure IPFastFieldRangeWeight where
  field : IpFastFieldCardinality
  leftBound : IpBound
  rightBound : IpBound

/-- `scorer`. -/
def IPFastFieldRangeWeight.scorer (profile : Profile) (w : IPFastFieldRangeWeight) (boost : Score) :
    Option (ConstScorer profile) := do
  let params := w.field.values.params
  let valueRange ← boundToValueRange profile w.leftBound w.rightBound params.minValue params.maxValue
  let docset ← IpRangeDocSet.new profile valueRange w.field
  return ⟨docset, boost⟩

/-! ### Blocks -/

/-- The cursor passes the document, where it is the first one. -/
theorem VecCursor.skip_spec {docs : List Nat} (hsorted : docs.Pairwise (· < ·)) {value : Nat}
    (hge : ∀ d ∈ docs, value ≤ d) :
    ((⟨docs, 0⟩ : VecCursor).skip value).docs = docs ∧
      docs.drop ((⟨docs, 0⟩ : VecCursor).skip value).currentPos = docs.filter (· ≠ value) := by
  have hall : ∀ {ds : List Nat}, (∀ d ∈ ds, value < d) → ds.filter (· ≠ value) = ds := fun h =>
    List.filter_eq_self.mpr fun d hd => decide_eq_true (h d hd).ne'
  cases docs with
  | nil =>
    rw [skip, dif_neg (fun h => by cases h)]
    exact ⟨rfl, rfl⟩
  | cons d ds =>
    have hlt := (List.pairwise_cons.mp hsorted).1
    have hcurrent : (⟨d :: ds, 0⟩ : VecCursor).current = some d := rfl
    by_cases heq : d = value
    · subst heq
      rw [skip, dif_pos hcurrent, skip, dif_neg]
      · refine ⟨rfl, ?_⟩
        rw [List.filter_cons_of_neg (by simp), hall hlt]
        rfl
      · intro h
        exact lt_irrefl _ (hlt d (List.mem_of_getElem? (show ds[0]? = some d from h)))
    · rw [skip, dif_neg fun h => heq (Option.some.inj (hcurrent.symm.trans h))]
      refine ⟨rfl, (hall fun e he => ?_).symm⟩
      have hd := lt_of_le_of_ne (hge d List.mem_cons_self) (Ne.symm heq)
      rcases List.mem_cons.mp he with rfl | he
      · exact hd
      · exact hd.trans (hlt e he)

/-- Lookups in a column of `n` documents find those of `matching`. In a column with several values for a
    document the one behind the range is looked at as well. -/
structure Finds (profile : Profile) (field : IpFastFieldCardinality) (range : Nat × Nat) (n : Nat)
    (matching : List Nat) : Prop where
  numDocs : field.numDocs profile = some n
  increasing : matching.Pairwise (· < ·)
  lt : ∀ d ∈ matching, d < n
  docids : ∀ {start stop : Nat}, start ≤ stop → stop ≤ n → ∃ reach,
    (reach = stop ∨ reach = stop + 1 ∧ ∃ r, field = .multiValue r) ∧
      field.getDocids profile range.1 range.2 start stop =
        some (matching.filter fun d => start ≤ d ∧ d < reach)

namespace IpRangeDocSet

/-- The documents that are left: those that are loaded, and those of the blocks that are not. -/
def left (s : IpRangeDocSet) (matching : List Nat) : List Nat :=
  s.loadedDocs.docs.drop s.loadedDocs.currentPos ++
    matching.filter fun d => s.nextFetchStart ≤ d ∧ s.loadedDocs.lastValue ≠ some d

/-- The invariant of the loops. -/
structure Stands (profile : Profile) (n : Nat) (matching : List Nat) (s : IpRangeDocSet) : Prop where
  finds : Finds profile s.ipAddrFastField s.valueRange n matching
  horizon : 0 < s.fetchHorizon ∧ s.fetchHorizon ≤ MAX_HORIZON
  loaded : ∀ d ∈ s.loadedDocs.docs, d ≤ s.nextFetchStart ∧
    (d = s.nextFetchStart → ∃ r, s.ipAddrFastField = .multiValue r)

/-- The invariant between two calls: when no document is loaded, there is none left. -/
structure Ready (profile : Profile) (n : Nat) (matching : List Nat) (s : IpRangeDocSet) : Prop
    extends Stands profile n matching s where
  fetched : s.loadedDocs.docs.length ≤ s.loadedDocs.currentPos → n ≤ s.nextFetchStart

variable {profile : Profile} {n : Nat} {matching : List Nat} {s : IpRangeDocSet}

theorem default_horizon : 0 < DEFAULT_FETCH_HORIZON ∧ DEFAULT_FETCH_HORIZON ≤ MAX_HORIZON := by
  decide

theorem Stands.last_le (h : Stands profile n matching s) {d : Nat}
    (hd : s.loadedDocs.lastValue = some d) : d ≤ s.nextFetchStart ∧
      (d = s.nextFetchStart → ∃ r, s.ipAddrFastField = .multiValue r) :=
  h.loaded d (List.mem_of_getLast? hd)

/-- **Block.** Where no loaded document is left, the next block has the next ones of those that are
    left. -/
theorem fetchDocs_spec (h : Stands profile n matching s) (hn : n ≤ TERMINATED)
    (hempty : s.loadedDocs.docs.length ≤ s.loadedDocs.currentPos) (hstart : s.nextFetchStart ≤ n) :
    ∃ s', s.fetchDocs profile s.fetchHorizon =
        some (decide (n ≤ s.nextFetchStart + s.fetchHorizon), s') ∧
      Stands profile n matching s' ∧ s'.left matching = s.left matching ∧
      s'.nextFetchStart = min n (s.nextFetchStart + s.fetchHorizon) ∧
      s'.lastSeekPosOpt = s.lastSeekPosOpt := by
  obtain ⟨hpos, hmax⟩ := h.horizon
  have hfit : profile.fit 32 (s.nextFetchStart + s.fetchHorizon) =
      some (s.nextFetchStart + s.fetchHorizon) := by
    refine Profile.fit_of_lt ?_
    simp only [MAX_HORIZON, TERMINATED] at hmax hn
    omega
  set stop := min n (s.nextFetchStart + s.fetchHorizon) with hstop
  have hif : (if n ≤ s.nextFetchStart + s.fetchHorizon then n
      else s.nextFetchStart + s.fetchHorizon) = stop := by
    rw [hstop, min_def]
  have hle : s.nextFetchStart ≤ stop := by omega
  obtain ⟨reach, hreach, hdocs⟩ := h.finds.docids hle (min_le_left _ _)
  obtain ⟨docs, hdocsdef⟩ : ∃ docs, docs = matching.filter fun d =>
      s.nextFetchStart ≤ d ∧ d < reach := ⟨_, rfl⟩
  rw [← hdocsdef] at hdocs
  have hmem : ∀ {d}, d ∈ docs ↔ d ∈ matching ∧ s.nextFetchStart ≤ d ∧ d < reach := fun {d} => by
    rw [hdocsdef, List.mem_filter, decide_eq_true_eq]
  have hsorted : docs.Pairwise (· < ·) := hdocsdef ▸ h.finds.increasing.filter _
  -- what is loaded behind the document that was there before
  obtain ⟨cursor, hcursor, hcursordocs, hdrop⟩ : ∃ cursor,
      s.ipAddrFastField.skipOverlap s.loadedDocs.lastValue ⟨docs, 0⟩ = cursor ∧
      cursor.docs = docs ∧
      docs.drop cursor.currentPos = docs.filter fun d => s.loadedDocs.lastValue ≠ some d := by
    cases hlast : s.loadedDocs.lastValue with
    | none =>
      refine ⟨⟨docs, 0⟩, by cases s.ipAddrFastField <;> rfl, rfl, ?_⟩
      simp
    | some value =>
      obtain ⟨hvalue, hoverlap⟩ := h.last_le hlast
      have hsome : (docs.filter fun d => some value ≠ some d) = docs.filter (· ≠ value) :=
        List.filter_congr fun d _ => by simp [eq_comm]
      rw [hsome]
      cases hfield : s.ipAddrFastField with
      | singleValue column =>
        refine ⟨⟨docs, 0⟩, rfl, rfl, (List.filter_eq_self.mpr fun d hd => ?_).symm⟩
        -- the last one lies in front of the block
        refine decide_eq_true fun heq => ?_
        have hge := (hmem.mp hd).2.1
        obtain ⟨r, hr⟩ := hoverlap (by omega)
        rw [hfield] at hr
        cases hr
      | multiValue r =>
        have hge : ∀ d ∈ docs, value ≤ d := fun d hd => hvalue.trans (hmem.mp hd).2.1
        obtain ⟨hskip, hskipdrop⟩ := VecCursor.skip_spec hsorted hge
        exact ⟨_, rfl, hskip, hskipdrop⟩
  refine ⟨{ s with loadedDocs := cursor, nextFetchStart := stop }, ?_, ⟨h.finds, h.horizon, ?_⟩, ?_,
    rfl, rfl⟩
  · rw [fetchDocs, h.finds.numDocs]
    simp only [Option.bind_eq_bind, Option.bind_some, hfit, hif, hdocs, Option.pure_def]
    rw [← hcursor]
  · intro d hd
    rw [show cursor.docs = docs from hcursordocs] at hd
    have hlt := (hmem.mp hd).2.2
    refine ⟨by show d ≤ stop; omega, fun heq => ?_⟩
    have heq : d = stop := heq
    rcases hreach with rfl | ⟨-, hr⟩
    · omega
    · exact hr
  · -- both have the same documents in order
    have hleft : s.left matching = matching.filter fun d =>
        s.nextFetchStart ≤ d ∧ s.loadedDocs.lastValue ≠ some d := by
      rw [left, List.drop_of_length_le hempty, List.nil_append]
    have hlast : ∀ {d}, d ∈ docs → stop ≤ d → docs.getLast? = some d := by
      intro d hd hge
      obtain ⟨pre, post, hsplit⟩ := List.append_of_mem hd
      rw [hsplit] at hsorted
      have hpost := (List.pairwise_cons.mp (List.pairwise_append.mp hsorted).2.1).1
      cases post with
      | nil => rw [hsplit, List.getLast?_concat]
      | cons e post =>
        have hlt := hpost e List.mem_cons_self
        have he := (hmem.mp (hsplit ▸ List.mem_append_right _
          (List.mem_cons_of_mem _ List.mem_cons_self) : e ∈ docs)).2.2
        omega
    rw [hleft]
    show cursor.docs.drop cursor.currentPos ++
      (matching.filter fun d => stop ≤ d ∧ cursor.docs.getLast? ≠ some d) = _
    rw [hcursordocs, hdrop]
    refine List.Pairwise.eq_of_mem_iff (r := (· < ·)) ?_ (h.finds.increasing.filter _) fun d => ?_
    · refine List.pairwise_append.mpr ⟨hsorted.filter _, h.finds.increasing.filter _, ?_⟩
      intro d hd e he
      have hdin := (List.mem_filter.mp hd).1
      obtain ⟨hge, hne⟩ := of_decide_eq_true (List.mem_filter.mp he).2
      refine lt_of_le_of_ne (by have := (hmem.mp hdin).2.2; omega) ?_
      rintro rfl
      exact hne (hlast hdin hge)
    · rw [List.mem_append, List.mem_filter, List.mem_filter, List.mem_filter, hmem,
        decide_eq_true_eq, decide_eq_true_eq, decide_eq_true_eq]
      constructor
      · rintro (⟨⟨hd, hge, -⟩, hne⟩ | ⟨hd, hge, hne⟩)
        · exact ⟨hd, hge, hne⟩
        · refine ⟨hd, hle.trans hge, fun hsome => ?_⟩
          have := (h.last_le hsome).1
          have := h.finds.lt d hd
          omega
      · rintro ⟨hd, hge, hne⟩
        by_cases hlt : d < reach
        · exact .inl ⟨⟨hd, hge, hlt⟩, hne⟩
        · refine .inr ⟨hd, by omega, fun hsome => ?_⟩
          exact hlt (hmem.mp (List.mem_of_getLast? hsome)).2.2

/-- **Fetching** ends with a loaded document, unless there is none left. -/
theorem fetchLoop_spec (hn : n ≤ TERMINATED) {fuel : Nat} (h : Stands profile n matching s)
    (hstart : s.nextFetchStart ≤ n) (hfuel : n - s.nextFetchStart < fuel) :
    ∃ s', fetchLoop profile fuel s = some s' ∧ Ready profile n matching s' ∧
      s'.left matching = s.left matching ∧ s'.lastSeekPosOpt = s.lastSeekPosOpt := by
  induction fuel generalizing s with
  | zero => omega
  | succ fuel ih =>
    rw [fetchLoop]
    by_cases hempty : s.loadedDocs.docs.length ≤ s.loadedDocs.currentPos
    · obtain ⟨s₁, hfetch, hstands, hleft, hnext, hseek⟩ := fetchDocs_spec h hn hempty hstart
      have hloaded : s.loadedDocs.isEmpty = true := decide_eq_true hempty
      rw [if_pos hloaded, hfetch]
      simp only [Option.bind_eq_bind, Option.bind_some, Option.pure_def]
      by_cases hend : n ≤ s.nextFetchStart + s.fetchHorizon
      · rw [if_pos (decide_eq_true hend)]
        exact ⟨s₁, rfl, ⟨hstands, fun _ => by rw [hnext]; omega⟩, hleft, hseek⟩
      · rw [if_neg (by simpa using hend)]
        have hpos := h.horizon.1
        have hgrow : Stands profile n matching
            { s₁ with fetchHorizon := min (s₁.fetchHorizon * 2) MAX_HORIZON } :=
          ⟨hstands.finds, ⟨by have := hstands.horizon; simp only [MAX_HORIZON] at *; omega,
            min_le_right _ _⟩, hstands.loaded⟩
        obtain ⟨s', hloop, hready, hleft', hseek'⟩ := ih hgrow
          (show s₁.nextFetchStart ≤ n by omega) (show n - s₁.nextFetchStart < fuel by omega)
        exact ⟨s', hloop, hready, hleft'.trans hleft, hseek'.trans hseek⟩
    · rw [if_neg (by simpa [VecCursor.isEmpty] using hempty)]
      exact ⟨s, rfl, ⟨h, fun hle => absurd hle hempty⟩, rfl, rfl⟩

theorem Stands.fetchBlock (h : Stands profile n matching s) (hn : n ≤ TERMINATED)
    (hstart : s.nextFetchStart ≤ n) :
    ∃ s', s.fetchBlock profile = some s' ∧ Ready profile n matching s' ∧
      s'.left matching = s.left matching ∧ s'.lastSeekPosOpt = s.lastSeekPosOpt := by
  rw [IpRangeDocSet.fetchBlock, h.finds.numDocs]
  exact fetchLoop_spec hn h hstart (by omega)

/-! ### Calls -/

theorem Ready.doc_eq (h : Ready profile n matching s) :
    s.doc = (s.left matching).head?.getD TERMINATED := by
  rw [doc, VecCursor.current, left]
  by_cases hpos : s.loadedDocs.currentPos < s.loadedDocs.docs.length
  · rw [List.getElem?_eq_getElem hpos, List.drop_eq_getElem_cons hpos]
    rfl
  · have hle := Nat.le_of_not_lt hpos
    have hend := h.fetched hle
    have hnil : (matching.filter fun d =>
        s.nextFetchStart ≤ d ∧ s.loadedDocs.lastValue ≠ some d) = [] := by
      refine List.filter_eq_nil_iff.mpr fun d hd hdec => ?_
      have := (of_decide_eq_true hdec).1
      have := h.finds.lt d hd
      omega
    rw [List.getElem?_eq_none hle, List.drop_of_length_le hle, hnil]
    rfl

/-- `advance` drops the current document. -/
theorem advance_spec (hn : n ≤ TERMINATED) (h : Ready profile n matching s) :
    ∃ s', s.advance profile = some ((s.left matching).tail.head?.getD TERMINATED, s') ∧
      Ready profile n matching s' ∧ s'.left matching = (s.left matching).tail ∧
      s'.lastSeekPosOpt = s.lastSeekPosOpt := by
  have hnext : Stands profile n matching { s with loadedDocs := s.loadedDocs.next } :=
    ⟨h.finds, h.horizon, h.loaded⟩
  unfold advance
  by_cases hmore : s.loadedDocs.currentPos + 1 < s.loadedDocs.docs.length
  · -- the next document is loaded
    have hcurrent : s.loadedDocs.next.current =
        some s.loadedDocs.docs[s.loadedDocs.currentPos + 1] := List.getElem?_eq_getElem hmore
    have hleft : ({ s with loadedDocs := s.loadedDocs.next } : IpRangeDocSet).left matching =
        (s.left matching).tail := by
      rw [left, left, List.drop_eq_getElem_cons (by omega : s.loadedDocs.currentPos < _)]
      rfl
    simp only [hcurrent]
    refine ⟨_, ?_, ⟨hnext, fun hle => absurd hmore (Nat.not_lt.mpr hle)⟩, hleft, rfl⟩
    rw [← hleft, left]
    show _ = some (((List.drop (s.loadedDocs.currentPos + 1) s.loadedDocs.docs ++ _).head?).getD
      TERMINATED, _)
    rw [List.drop_eq_getElem_cons hmore]
    rfl
  · have hle := Nat.le_of_not_lt hmore
    have hcurrent : s.loadedDocs.next.current = none := List.getElem?_eq_none hle
    simp only [hcurrent, h.finds.numDocs, Option.bind_eq_bind, Option.bind_some, Option.pure_def]
    have hdrop : s.loadedDocs.docs.drop (s.loadedDocs.currentPos + 1) = [] :=
      List.drop_of_length_le hle
    have hleft : ({ s with loadedDocs := s.loadedDocs.next } : IpRangeDocSet).left matching =
        matching.filter fun d => s.nextFetchStart ≤ d ∧ s.loadedDocs.lastValue ≠ some d := by
      show s.loadedDocs.docs.drop (s.loadedDocs.currentPos + 1) ++ _ = _
      rw [hdrop]
      rfl
    by_cases hend : n ≤ s.nextFetchStart
    · rw [if_pos hend]
      have hnil : (matching.filter fun d =>
          s.nextFetchStart ≤ d ∧ s.loadedDocs.lastValue ≠ some d) = [] := by
        refine List.filter_eq_nil_iff.mpr fun d hd hdec => ?_
        have := (of_decide_eq_true hdec).1
        have := h.finds.lt d hd
        omega
      have htail : (s.left matching).tail = [] := by
        rw [left, hnil, List.append_nil, List.tail_drop, hdrop]
      exact ⟨_, by rw [htail]; rfl, ⟨hnext, fun _ => hend⟩, by rw [hleft, hnil, htail], rfl⟩
    · rw [if_neg hend]
      have hpos : s.loadedDocs.currentPos < s.loadedDocs.docs.length := by
        by_contra hge
        exact hend (h.fetched (Nat.le_of_not_lt hge))
      have htail : (s.left matching).tail = matching.filter fun d =>
          s.nextFetchStart ≤ d ∧ s.loadedDocs.lastValue ≠ some d := by
        rw [left, List.drop_eq_getElem_cons hpos, hdrop]
        rfl
      obtain ⟨s', hfetch, hready, hleft', hseek⟩ :=
        hnext.fetchBlock hn (show s.nextFetchStart ≤ n by omega)
      rw [hfetch]
      refine ⟨s', ?_, hready, by rw [hleft', hleft, htail], hseek⟩
      rw [Option.bind_some, hready.doc_eq, hleft', hleft, htail]

/-- The documents that are left are those of a stream. -/
def Streams (matching : List Nat) (score : Score) (s : IpRangeDocSet) (t : Scorer) : Prop :=
  t.hits = (s.left matching).map fun d => (d, score)

variable {score : Score}

variable {t : Scorer}

theorem Streams.doc_eq (ht : Streams matching score s t) (h : Ready profile n matching s) :
    s.doc = t.doc := by
  rw [h.doc_eq, Scorer.doc, ht]
  cases s.left matching <;> rfl

theorem Streams.advance (ht : Streams matching score s t) (hn : n ≤ TERMINATED)
    (h : Ready profile n matching s) :
    ∃ s', s.advance profile = some (t.advance.doc, s') ∧ Ready profile n matching s' ∧
      Streams matching score s' t.advance ∧ s'.lastSeekPosOpt = s.lastSeekPosOpt := by
  obtain ⟨s', hadvance, hready, hleft, hseek⟩ := advance_spec hn h
  have ht' : Streams matching score s' t.advance := by
    rw [Streams, hleft, List.map_tail, ← ht]
    rfl
  refine ⟨s', ?_, hready, ht', hseek⟩
  rw [hadvance, ← hleft, ← hready.doc_eq, ht'.doc_eq hready]

variable {target : Nat}

theorem seekLoop_spec (htarget : target ≤ TERMINATED) (hn : n ≤ TERMINATED) {fuel : Nat}
    (h : Ready profile n matching s) (ht : Streams matching score s t)
    (hfuel : target - t.doc < fuel) :
    ∃ s', seekLoop profile target fuel t.doc s = some ((t.seek target).doc, s') ∧
      Ready profile n matching s' ∧ Streams matching score s' (t.seek target) := by
  induction fuel generalizing s t with
  | zero => omega
  | succ fuel ih =>
    rw [seekLoop]
    by_cases hlt : t.doc < target
    · have hne : t.doc ≠ TERMINATED := by omega
      obtain ⟨s₁, hadvance, hready, ht₁, -⟩ := ht.advance hn h
      have hnext := Intersection.lt_doc_advance t hne
      rw [if_pos hlt, hadvance, ← Scorer.seek_advance hne hlt]
      exact ih hready ht₁ (by omega)
    · rw [if_neg hlt, Scorer.seek_doc_self t (Nat.le_of_not_lt hlt)]
      exact ⟨s, rfl, h, ht⟩

/-- Documents in front of the target need not be fetched. -/
theorem Streams.skipTo (ht : Streams matching score s t) (hlt : s.nextFetchStart < target) :
    ∃ t' : Scorer, Streams matching score { s with nextFetchStart := target } t' ∧
      t'.seek target = t.seek target := by
  have hsub : (({ s with nextFetchStart := target } : IpRangeDocSet).left matching).Sublist
      (s.left matching) := by
    refine List.Sublist.append (List.Sublist.refl _) (List.monotone_filter_right matching ?_)
    intro d hd
    obtain ⟨hge, hne⟩ := of_decide_eq_true hd
    exact decide_eq_true ⟨hlt.le.trans hge, hne⟩
  obtain ⟨t', ht'⟩ : ∃ t', Streams matching score { s with nextFetchStart := target } t' := by
    have hhits := hsub.map fun d => (d, score)
    rw [← show t.hits = _ from ht] at hhits
    exact ⟨⟨_, t.ascending.of_sublist hhits, fun p hp => t.lt_terminated p (hhits.subset hp)⟩, rfl⟩
  refine ⟨t', ht', Scorer.ext_find fun d => ?_⟩
  rw [Scorer.find_seek, Scorer.find_seek]
  by_cases hd : d < target
  · rw [if_pos hd, if_pos hd]
  · rw [if_neg hd, if_neg hd]
    refine Option.ext fun v => ?_
    rw [Scorer.find_eq_some_iff, Scorer.find_eq_some_iff, ht, ht']
    simp only [List.mem_map, left, List.mem_append, List.mem_filter, decide_eq_true_eq]
    have hge := Nat.le_of_not_lt hd
    refine exists_congr fun e => and_congr_left fun heq => or_congr_right (and_congr_right fun _ =>
      and_congr_left fun _ => ?_)
    obtain rfl : e = d := (Prod.mk.inj heq).1
    exact iff_of_true hge (hlt.le.trans hge)

/-- `seek` drops the documents in front of the target. -/
theorem seek_spec (hn : n ≤ TERMINATED) (h : Ready profile n matching s)
    (ht : Streams matching score s t) (hseek : ∀ p, s.lastSeekPosOpt = some p → p ≤ t.doc)
    (hle : t.doc ≤ target) (htarget : target ≤ TERMINATED) :
    ∃ s', s.seek profile target = some ((t.seek target).doc, s') ∧ Ready profile n matching s' ∧
      Streams matching score s' (t.seek target) ∧ s'.lastSeekPosOpt = some target := by
  obtain ⟨large, hlarge⟩ : ∃ large, s.isLastSeekDistanceLarge profile target = some large := by
    unfold isLastSeekDistanceLarge
    cases hlast : s.lastSeekPosOpt with
    | none => exact ⟨true, rfl⟩
    | some p =>
      exact ⟨decide (128 ≤ target - p), by simp [Profile.fitSub_of_le ((hseek p hlast).trans hle)]⟩
  -- the horizon
  set s₁ := if large then { s with fetchHorizon := DEFAULT_FETCH_HORIZON } else s with hs₁
  have hready₁ : Ready profile n matching s₁ ∧ Streams matching score s₁ t := by
    rw [hs₁]
    split
    · exact ⟨⟨⟨h.finds, default_horizon, h.loaded⟩, h.fetched⟩, ht⟩
    · exact ⟨h, ht⟩
  -- the start of the next block
  set s₂ := if s₁.nextFetchStart < target then { s₁ with nextFetchStart := target } else s₁ with hs₂
  obtain ⟨t₂, hready₂, ht₂, hsame⟩ : ∃ t₂ : Scorer, Ready profile n matching s₂ ∧
      Streams matching score s₂ t₂ ∧ t₂.seek target = t.seek target := by
    rw [hs₂]
    split
    · next hlt =>
      obtain ⟨t₂, ht₂, hsame⟩ := hready₁.2.skipTo hlt
      refine ⟨t₂, ⟨⟨hready₁.1.finds, hready₁.1.horizon, fun d hd => ?_⟩, fun hend => ?_⟩, ht₂, hsame⟩
      · have hle := (hready₁.1.loaded d hd).1
        refine ⟨hle.trans hlt.le, fun heq => ?_⟩
        have heq : d = target := heq
        omega
      · exact (hready₁.1.fetched hend).trans hlt.le
    · exact ⟨t, hready₁.1, hready₁.2, rfl⟩
  have hdoc : s₂.doc = t.doc := by
    rw [← ht.doc_eq h]
    rw [hs₂, hs₁]
    split <;> split <;> rfl
  obtain ⟨s', hloop, hready, ht'⟩ := seekLoop_spec htarget hn hready₂ ht₂
    (show target - t₂.doc < target + 1 by omega)
  rw [hsame] at hloop ht'
  refine ⟨{ s' with lastSeekPosOpt := some target }, ?_, ⟨⟨hready.finds, hready.horizon,
    hready.loaded⟩, hready.fetched⟩, ht', rfl⟩
  rw [seek, hlarge]
  simp only [Option.bind_eq_bind, Option.bind_some, ← hs₁, ← hs₂, hdoc, hle, implies_true, guard,
    ↓reduceIte, Option.pure_def]
  rw [← hdoc, ht₂.doc_eq hready₂, hloop]
  rfl

end IpRangeDocSet

open IpRangeDocSet

/-- The stream of the documents that are left. -/
structure ConstScorer.Represents {profile : Profile} (m : ConstScorer profile) (t : Scorer) : Prop where
  intro ::
  stands : ∃ n matching, n ≤ TERMINATED ∧ Ready profile n matching m.docset ∧
    Streams matching m.score m.docset t
  lastSeek : ∀ p, m.docset.lastSeekPosOpt = some p → p ≤ t.doc

instance (profile : Profile) : LawfulScorerMachine (ConstScorer profile) where
  Represents := ConstScorer.Represents
  doc_eq h := by
    obtain ⟨⟨n, matching, hn, hready, ht⟩, -⟩ := h
    exact ht.doc_eq hready
  advance_spec {m t} h := by
    obtain ⟨⟨n, matching, hn, hready, ht⟩, hlast⟩ := h
    obtain ⟨s', hadvance, hready', ht', hseek⟩ := ht.advance hn hready
    refine ⟨⟨s', m.score⟩, ?_, ⟨n, matching, hn, hready', ht'⟩, fun p hp => ?_⟩
    · show (m.docset.advance profile).map _ = _
      rw [hadvance]
      rfl
    · have hle := hlast p (hseek ▸ hp)
      by_cases hend : t.doc = TERMINATED
      · rwa [Scorer.advance_of_ended hend]
      · exact hle.trans (Intersection.lt_doc_advance t hend).le
  seek_spec {m t target} h hle htarget := by
    obtain ⟨⟨n, matching, hn, hready, ht⟩, hlast⟩ := h
    obtain ⟨s', hrun, hready', ht', hseek⟩ := seek_spec hn hready ht hlast hle htarget
    refine ⟨⟨s', m.score⟩, ?_, ⟨n, matching, hn, hready', ht'⟩, fun p hp => ?_⟩
    · show (m.docset.seek profile target).map _ = _
      rw [hrun]
      rfl
    · rw [show s'.lastSeekPosOpt = some target from hseek] at hp
      rw [← Option.some.inj hp]
      exact t.le_doc_seek htarget
  score_spec {m t} h hne := by
    obtain ⟨⟨n, matching, hn, hready, ht⟩, hlast⟩ := h
    refine ⟨m, ?_, ⟨n, matching, hn, hready, ht⟩, hlast⟩
    have hscore : t.score = m.score := by
      rw [Scorer.score, ht]
      cases hleft : m.docset.left matching with
      | nil =>
        rw [Scorer.doc, ht, hleft] at hne
        exact absurd rfl hne
      | cons d rest => rfl
    show some (m.score, m) = _
    rw [hscore]

/-! ### Columns -/

/-- The inclusive bounds. -/
def IpBound.start (minValue : Nat) : IpBound → Nat
  | .included ipAddr => ipAddr
  | .excluded ipAddr => ipAddr + 1
  | .unbounded => minValue

def IpBound.stop (maxValue : Nat) : IpBound → Nat
  | .included ipAddr => ipAddr
  | .excluded ipAddr => ipAddr - 1
  | .unbounded => maxValue

/-- The address is on the right side of a left or a right bound. -/
def IpBound.Above (v : Nat) : IpBound → Prop
  | .included ipAddr => ipAddr ≤ v
  | .excluded ipAddr => ipAddr < v
  | .unbounded => True

def IpBound.Below (v : Nat) : IpBound → Prop
  | .included ipAddr => v ≤ ipAddr
  | .excluded ipAddr => v < ipAddr
  | .unbounded => True

instance (v : Nat) : (b : IpBound) → Decidable (b.Above v)
  | .included ipAddr => inferInstanceAs (Decidable (ipAddr ≤ v))
  | .excluded ipAddr => inferInstanceAs (Decidable (ipAddr < v))
  | .unbounded => inferInstanceAs (Decidable True)

instance (v : Nat) : (b : IpBound) → Decidable (b.Below v)
  | .included ipAddr => inferInstanceAs (Decidable (v ≤ ipAddr))
  | .excluded ipAddr => inferInstanceAs (Decidable (v < ipAddr))
  | .unbounded => inferInstanceAs (Decidable True)

namespace IPFastFieldRangeWeight

/-- The document has an address within the bounds. -/
def Matches (w : IPFastFieldRangeWeight) (docs : List (List Nat)) (d : Nat) : Prop :=
  ∃ v ∈ docs[d]?.getD [], w.leftBound.Above v ∧ w.rightBound.Below v

instance (w : IPFastFieldRangeWeight) (docs : List (List Nat)) (d : Nat) :
    Decidable (w.Matches docs d) := inferInstanceAs (Decidable (∃ v ∈ _, _))

/-- **The abstract cursor**, over the documents that match, in order. -/
def stream (w : IPFastFieldRangeWeight) (docs : List (List Nat)) (boost : Score)
    (h : docs.length ≤ TERMINATED) : Scorer where
  hits := ((List.range docs.length).filter fun d => w.Matches docs d).map fun d => (d, boost)
  ascending := List.pairwise_map.mpr (List.pairwise_lt_range.filter _)
  lt_terminated := by
    intro p hp
    obtain ⟨d, hd, rfl⟩ := List.mem_map.mp hp
    exact (List.mem_range.mp (List.mem_filter.mp hd).1).trans_le h

/-- The range of values that is looked up. -/
def valueRange (w : IPFastFieldRangeWeight) : Nat × Nat :=
  (w.leftBound.start w.field.values.params.minValue, w.rightBound.stop w.field.values.params.maxValue)

/-- No bound leaves the addresses, a column with several values has a document, and the whole column
    can be read, where the range meets its values. -/
structure Answerable (w : IPFastFieldRangeWeight) (docs : List (List Nat)) : Prop where
  left : ∀ ipAddr, w.leftBound = .excluded ipAddr → ipAddr + 1 < 2 ^ 128
  right : ∀ ipAddr, w.rightBound = .excluded ipAddr → 0 < ipAddr
  documents : ∀ r, w.field = .multiValue r → docs ≠ []
  readable : w.field.values.params.maxValue < w.valueRange.1 ∨
    w.valueRange.2 < w.field.values.params.minValue ∨
    Scannable w.field.values w.valueRange.1 w.valueRange.2 0 w.field.values.params.numVals

end IPFastFieldRangeWeight

/-- The column has the values of the documents. -/
inductive Column (pops : List BlankRange → List BlankRange) (docs : List (List Nat)) :
    IpFastFieldCardinality → Prop
  | singleValue {column : CompactSpaceDecompressor} (hone : ∀ values ∈ docs, values.length = 1)
      (h : Stored pops docs.flatten column) : Column pops docs (.singleValue column)
  | multiValue {reader : MultiValuedU128FastFieldReader} (h : Reads pops docs reader) :
      Column pops docs (.multiValue reader)

section Columns

variable {pops : List BlankRange → List BlankRange} {docs : List (List Nat)} {lo hi : Nat}

variable {field : IpFastFieldCardinality}

theorem Column.stored (h : Column pops docs field) :
    Stored pops docs.flatten field.values := by
  cases h with
  | singleValue _ h => exact h
  | multiValue h => exact h.values

theorem offset_of_single (hone : ∀ values ∈ docs, values.length = 1) (d : Nat) :
    offset docs d = min d docs.length := by
  have hlen : ∀ l : List (List Nat), (∀ values ∈ l, values.length = 1) →
      l.flatten.length = l.length := by
    intro l hl
    rw [List.length_flatten, List.map_congr_left hl]
    simp
  rw [offset, hlen _ fun values h => hone values (List.mem_of_mem_take h), List.length_take]

/-- What can be read of a whole column can be read of a part. -/
theorem FastFieldCodecs.Scannable.part {d : CompactSpaceDecompressor} {start stop : Nat}
    (h : Scannable d lo hi 0 d.params.numVals) (hle : start ≤ stop) (hstop : stop ≤ d.params.numVals) :
    Scannable d lo hi start stop := by
  rcases h with h | h | ⟨-, h⟩
  · exact .inl h
  · exact .inr (.inl h)
  · refine .inr (.inr ⟨by omega, fun hlt => ?_⟩)
    obtain ⟨hfits, hdata⟩ := h (by omega)
    have hidx : min stop d.params.numVals - 1 ≤ min d.params.numVals d.params.numVals - 1 := by omega
    have hmul := Nat.mul_le_mul_right d.params.numBits hidx
    refine ⟨hfits.imp_right fun hlt => hmul.trans_lt hlt, hdata.imp_right fun hle => ?_⟩
    omega

variable (hpops : HeapOrder pops) (hlt : ∀ v ∈ docs.flatten, v < 2 ^ 128)
  (hlen : docs.flatten.length < 2 ^ 32)

include hpops hlt hlen

/-- Lookups in the column find the documents with a value in the range. -/
theorem Column.finds {profile : Profile} (h : Column pops docs field)
    (hdocs : docs.length ≤ TERMINATED) (hne : ∀ r, field = .multiValue r → docs ≠ [])
    (hread : field.values.params.maxValue < lo ∨ hi < field.values.params.minValue ∨
      Scannable field.values lo hi 0 field.values.params.numVals) :
    Finds profile field (lo, hi) docs.length
      ((List.range docs.length).filter fun d => HasValue docs lo hi d) := by
  have hnum : field.values.params.numVals = docs.flatten.length :=
    (h.stored.spec hpops hlt hlen).1
  have hpart : ∀ {start stop : Nat}, start ≤ stop → stop ≤ docs.flatten.length →
      field.values.params.maxValue < lo ∨ hi < field.values.params.minValue ∨
        Scannable field.values lo hi start stop := fun hle hstop =>
    hread.imp_right (Or.imp_right fun hs => hs.part hle (hnum ▸ hstop))
  refine ⟨?_, List.pairwise_lt_range.filter _, fun d hd =>
    List.mem_range.mp (List.mem_filter.mp hd).1, fun {start stop} hle hstop => ?_⟩
  · cases h with
    | singleValue hone _ =>
      rw [IpFastFieldCardinality.numDocs]
      have hoffset := offset_of_single hone docs.length
      rw [offset_length, min_self] at hoffset
      exact congrArg some (hnum.trans hoffset)
    | multiValue h => exact numDocs_eq h profile
  · cases h with
    | singleValue hone h =>
      have hoffset := offset_of_single hone
      have hflat : docs.flatten.length = docs.length := by
        rw [← offset_length, hoffset, min_self]
      refine ⟨stop, .inl rfl, ((positionsForValueRange_spec lo hi start stop hpops hlt hlen h).1
        (hpart hle (by omega)) profile).trans (congrArg some ?_)⟩
      have hexists : ∀ d, (∃ p ∈ positionsOf docs.flatten lo hi start stop,
          min d docs.length ≤ p ∧ p < min (d + 1) docs.length) ↔
            (start ≤ d ∧ d < stop) ∧ HasValue docs lo hi d := by
        intro d
        have hiff := @exists_position_iff docs lo hi start stop d hstop
        simpa only [hoffset, min_eq_left hstop, min_eq_left (hle.trans hstop)] using hiff
      refine List.Pairwise.eq_of_mem_iff (r := (· < ·)) (.filter _ List.pairwise_lt_range')
        ((List.pairwise_lt_range.filter _).filter _) fun d => ?_
      have hbound : ∀ p ∈ positionsOf docs.flatten lo hi start stop, p < docs.length := by
        intro p hp
        have := List.mem_range'_1.mp (List.mem_filter.mp hp).1
        omega
      have hmem : d ∈ positionsOf docs.flatten lo hi start stop ↔
          (start ≤ d ∧ d < stop) ∧ HasValue docs lo hi d := by
        rw [← hexists]
        constructor
        · intro hd
          have := hbound d hd
          exact ⟨d, hd, by omega, by omega⟩
        · rintro ⟨p, hp, hge, hlt⟩
          obtain rfl : p = d := by omega
          exact hp
      rw [hmem, List.mem_filter, List.mem_filter, List.mem_range,
        decide_eq_true_eq, decide_eq_true_eq]
      constructor
      · rintro ⟨hin, hvalue⟩
        exact ⟨⟨by omega, hvalue⟩, hin⟩
      · rintro ⟨⟨-, hvalue⟩, hin⟩
        exact ⟨hin, hvalue⟩
    | multiValue h =>
      have hpos := List.length_pos_iff.mpr (hne _ rfl)
      have hend : lookupEnd docs stop ≤ docs.length := by
        unfold lookupEnd
        omega
      refine ⟨lookupEnd docs stop, ?_, (getDocids_eq lo hi start stop hpops hlt hlen
        (hdocs.trans_lt (by decide)) h (hne _ rfl) ?_ profile).trans (congrArg some ?_)⟩
      · unfold lookupEnd
        by_cases hin : stop < docs.length
        · exact .inr ⟨by omega, _, rfl⟩
        · exact .inl (by omega)
      · exact hpart (offset_mono docs (Nat.min_le_right _ _)) offset_le
      · refine List.Pairwise.eq_of_mem_iff (r := (· < ·)) (.filter _ List.pairwise_lt_range')
          ((List.pairwise_lt_range.filter _).filter _) fun d => ?_
        rw [List.mem_filter, List.mem_filter, List.mem_filter, List.mem_range'_1, List.mem_range,
          decide_eq_true_eq, decide_eq_true_eq]
        constructor
        · rintro ⟨hin, hvalue⟩
          exact ⟨⟨by omega, hvalue⟩, by omega⟩
        · rintro ⟨⟨-, hvalue⟩, hin⟩
          exact ⟨by omega, hvalue⟩

variable {w : IPFastFieldRangeWeight}

omit hpops hlt hlen in
theorem boundToValueRange_eq {profile : Profile} (h : w.Answerable docs) :
    boundToValueRange profile w.leftBound w.rightBound w.field.values.params.minValue
      w.field.values.params.maxValue = some w.valueRange := by
  obtain ⟨field, leftBound, rightBound⟩ := w
  have hstart : ∀ a, leftBound = .excluded a → profile.fit 128 (a + 1) = some (a + 1) := fun a ha =>
    Profile.fit_of_lt (h.left a ha)
  have hstop : ∀ a, rightBound = .excluded a → profile.fitSub 128 a 1 = some (a - 1) := fun a ha =>
    Profile.fitSub_of_le (h.right a ha)
  cases leftBound <;> cases rightBound <;>
    simp [boundToValueRange, IPFastFieldRangeWeight.valueRange, IpBound.start, IpBound.stop,
      hstart, hstop]

/-- The values within the bounds are those of the range. -/
theorem matches_iff (hcolumn : Column pops docs w.field) (h : w.Answerable docs) (d : Nat) :
    w.Matches docs d ↔ HasValue docs w.valueRange.1 w.valueRange.2 d := by
  have hbounds := hcolumn.stored.bounds hpops hlt hlen
  refine exists_congr fun v => and_congr_right fun hv => ?_
  have hmem : v ∈ docs.flatten := by
    cases hget : docs[d]? with
    | none =>
      rw [hget] at hv
      cases hv
    | some values =>
      rw [hget] at hv
      exact List.mem_flatten.mpr ⟨values, List.mem_of_getElem? hget, hv⟩
  obtain ⟨hmin, hmax⟩ := hbounds v hmem
  have hright := h.right
  obtain ⟨field, leftBound, rightBound⟩ := w
  refine and_congr ?_ ?_
  · cases leftBound with
    | included a => exact Iff.rfl
    | excluded a => exact Iff.rfl
    | unbounded => exact iff_of_true trivial hmin
  · cases rightBound with
    | included a => exact Iff.rfl
    | excluded a =>
      have := hright a rfl
      show v < a ↔ v ≤ a - 1
      omega
    | unbounded => exact iff_of_true trivial hmax

/-- **IP range queries.** Where the bounds stay within the addresses and the column can be read, the
    scorer is built, and every sequence of calls returns, as the cursor over the documents with an
    address within the bounds. -/
theorem ipRange_behaves {w : IPFastFieldRangeWeight} (hdocs : docs.length ≤ TERMINATED)
    (hcolumn : Column pops docs w.field) (hw : w.Answerable docs) (profile : Profile)
    (boost : Score) :
    ∃ m, w.scorer profile boost = some m ∧ Behaves m (w.stream docs boost hdocs) := by
  have hfinds : Finds profile w.field w.valueRange docs.length _ :=
    hcolumn.finds hpops hlt hlen hdocs hw.documents hw.readable
  set matching := (List.range docs.length).filter fun d =>
    HasValue docs w.valueRange.1 w.valueRange.2 d
  have hstands : Stands profile docs.length matching
      ⟨w.valueRange, w.field, 0, DEFAULT_FETCH_HORIZON, ⟨[], 0⟩, none⟩ :=
    ⟨hfinds, default_horizon, fun d hd => by cases hd⟩
  obtain ⟨s, hnew, hready, hleft, hseek⟩ := hstands.fetchBlock hdocs (Nat.zero_le _)
  refine ⟨⟨s, boost⟩, ?_, LawfulScorerMachine.Represents.behaves
    (⟨⟨docs.length, matching, hdocs, hready, ?_⟩, fun p hp => ?_⟩ : ConstScorer.Represents _ _)⟩
  · rw [IPFastFieldRangeWeight.scorer, boundToValueRange_eq hw]
    simp only [Option.bind_eq_bind, Option.bind_some, IpRangeDocSet.new, hnew]
    rfl
  · have hall : s.left matching = (List.range docs.length).filter fun d => w.Matches docs d := by
      rw [hleft, left, List.drop_nil, List.nil_append, List.filter_eq_self.mpr fun d _ => by
        simp [VecCursor.lastValue]]
      exact List.filter_congr fun d _ => decide_eq_decide.mpr
        (matches_iff hpops hlt hlen hcolumn hw d).symm
    rw [Streams, hall]
    rfl
  · rw [show s.lastSeekPosOpt = none from hseek] at hp
    cases hp

end Columns

/-- Three documents of a column with several values, of which the last one matches. -/
theorem ipRange_behaves_three :
    let docs := [[1, 2 ^ 127], [], [5]]
    let w : IPFastFieldRangeWeight :=
      ⟨.multiValue ⟨⟨offsets docs⟩, columnOf popsDescending docs.flatten⟩, .excluded 1, .included 100⟩
    ∃ m, w.scorer .test 1 = some m ∧ Behaves m (w.stream docs 1 (by decide)) := by
  intro docs w
  have hlt : ∀ v ∈ docs.flatten, v < 2 ^ 128 := by decide
  have hreads : Reads popsDescending docs ⟨⟨offsets docs⟩, columnOf popsDescending docs.flatten⟩ :=
    ⟨rfl, stored_columnOf heapOrder_popsDescending hlt (by decide) (by decide +kernel)⟩
  refine ipRange_behaves heapOrder_popsDescending hlt (by decide) (by decide) (.multiValue hreads)
    ⟨fun a ha => ?_, fun a ha => (by cases ha), fun _ _ => (by decide), ?_⟩ .test 1
  · cases ha
    decide
  · exact .inr (.inr (.inr (.inr ⟨by decide +kernel, fun _ => ⟨by decide +kernel,
      .inr (by decide +kernel)⟩⟩)))

/-- Behind the greatest address there is none, but the bound panics or wraps around to the least one,
    and then every document is found. -/
theorem excluded_greatest_overflows :
    let docs := [[5]]
    let w : IPFastFieldRangeWeight :=
      ⟨.singleValue (columnOf popsDescending docs.flatten), .excluded (2 ^ 128 - 1), .unbounded⟩
    Column popsDescending docs w.field ∧ ¬w.Matches docs 0 ∧ w.scorer .test 1 = none ∧
      (w.scorer .release 1).map (·.docset.doc) = some 0 := by
  refine ⟨.singleValue (by decide) ?_, by decide, rfl, by decide +kernel⟩
  exact stored_columnOf heapOrder_popsDescending (by decide) (by decide) (by decide +kernel)

end TeaclaveCrates.Tantivy
