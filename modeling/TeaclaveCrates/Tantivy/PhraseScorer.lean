import TeaclaveCrates.Tantivy.IntersectionScorer
import TeaclaveCrates.Tantivy.PhraseMerge

namespace TeaclaveCrates.Tantivy

open TeaclaveCrates.Lib
open LawfulScoredDocSet (stream)
open Phrase
open IntersectionScorer (traits view)

/-!
# The phrase scorer

`PhraseScorer` walks over the documents that all terms of a phrase have in common and keeps those
in which the positions of the terms match.

* `PositionPostings` — postings with positions; `PostingsWithOffset` — shifted by the distance of
  the term from the last one of the phrase.
* `PhraseScorer` — the state, with `new`, `advance`, `seek` and the steps of `phrase_match`.
* `computePhraseMatch_spec` — what the buffers hold: the matches of all terms but the last, and
  the positions of the last.
* `PhraseScorer.Stands` — a scorer stands for the documents with a match; `Stands.runAll` — and
  so it does behind any sequence of calls.

`none` is a call that does not return: a panic, or a loop without an end.
-/

/-! ### Postings with positions -/

/-- `Postings`: for each document the positions of the term, in increasing order, which no call
    changes. They are read into a buffer with a number added, in 32 bits, and a `u32` counts
    them. -/
class PositionPostings (P : Type) extends LawfulScoredDocSet P where
  positionsWithOffset : P → Nat → List Nat × P
  positionsOf : P → Nat → List Nat
  sorted_positionsOf : ∀ p d, (positionsOf p d).Pairwise (· < ·)
  length_positionsOf : ∀ p d, (positionsOf p d).length < 2 ^ 32
  positionsOf_advance : ∀ p, positionsOf (advance p).2 = positionsOf p
  positionsOf_seek : ∀ p t, positionsOf (seek p t).2 = positionsOf p
  positionsWithOffset_fst : ∀ p offset, doc p ≠ TERMINATED →
    (positionsWithOffset p offset).1 =
      (positionsOf p (doc p)).map fun position => (offset + position) % 2 ^ 32
  stream_positionsWithOffset : ∀ p offset, stream (positionsWithOffset p offset).2 = stream p
  positionsOf_positionsWithOffset : ∀ p offset,
    positionsOf (positionsWithOffset p offset).2 = positionsOf p

/-- `PostingsWithOffset`. -/
structure PostingsWithOffset (P : Type) where
  offset : Nat
  postings : P

namespace PostingsWithOffset

variable {P : Type} [PositionPostings P]

instance : LawfulScoredDocSet (PostingsWithOffset P) where
  doc q := ScoredDocSet.doc q.postings
  advance q :=
    let (doc, postings) := ScoredDocSet.advance q.postings
    (doc, { q with postings := postings })
  seek q target :=
    let (doc, postings) := ScoredDocSet.seek q.postings target
    (doc, { q with postings := postings })
  score q := ScoredDocSet.score q.postings
  stream q := stream q.postings
  doc_eq q := LawfulScoredDocSet.doc_eq q.postings
  score_eq q := LawfulScoredDocSet.score_eq q.postings
  advance_fst q := LawfulScoredDocSet.advance_fst q.postings
  stream_advance q := LawfulScoredDocSet.stream_advance q.postings
  seek_fst q := LawfulScoredDocSet.seek_fst q.postings
  stream_seek q := LawfulScoredDocSet.stream_seek q.postings

def positions (q : PostingsWithOffset P) : List Nat × PostingsWithOffset P :=
  let (output, postings) := PositionPostings.positionsWithOffset q.postings q.offset
  (output, { q with postings := postings })

/-- The shifted positions in a document. -/
def shifted (q : PostingsWithOffset P) (d : Nat) : List Nat :=
  (PositionPostings.positionsOf q.postings d).map fun position => (q.offset + position) % 2 ^ 32

variable (q : PostingsWithOffset P)

theorem shifted_advance :
    (ScoredDocSet.advance q).2.shifted = q.shifted := by
  funext d
  show (PositionPostings.positionsOf (ScoredDocSet.advance q.postings).2 d).map _ = _
  rw [PositionPostings.positionsOf_advance]
  rfl

theorem shifted_seek (t : Nat) :
    (ScoredDocSet.seek q t).2.shifted = q.shifted := by
  funext d
  show (PositionPostings.positionsOf (ScoredDocSet.seek q.postings t).2 d).map _ = _
  rw [PositionPostings.positionsOf_seek]
  rfl

theorem positions_spec :
    (ScoredDocSet.doc q ≠ TERMINATED → q.positions.1 = q.shifted (ScoredDocSet.doc q)) ∧
      stream q.positions.2 = stream q ∧ q.positions.2.shifted = q.shifted := by
  refine ⟨fun hdoc => PositionPostings.positionsWithOffset_fst _ _ hdoc,
    PositionPostings.stream_positionsWithOffset _ _, ?_⟩
  funext d
  show (PositionPostings.positionsOf
    (PositionPostings.positionsWithOffset q.postings q.offset).2 d).map _ = _
  rw [PositionPostings.positionsOf_positionsWithOffset]
  rfl

end PostingsWithOffset

/-! ### The scorer -/

/-- `PhraseScorer`. Of the similarity weight only the score of a document with a field norm and a
    phrase count is used. -/
structure PhraseScorer (P : Type) where
  intersectionDocset : IntersectionScorer (PostingsWithOffset P) (PostingsWithOffset P)
  numTerms : Nat
  left : List Nat
  right : List Nat
  phraseCount : Nat
  fieldnormReader : Nat → Nat
  similarityWeightOpt : Option (Nat → Nat → Score)
  slop : Nat

namespace PhraseScorer

variable {P : Type} [PositionPostings P]

/-- `docset_mut_specialized(ord).positions(..)`. -/
def positionsAt (docset : IntersectionScorer (PostingsWithOffset P) (PostingsWithOffset P)) :
    Nat → Option (List Nat × IntersectionScorer (PostingsWithOffset P) (PostingsWithOffset P))
  | 0 =>
    let (output, left) := docset.left.positions
    some (output, { docset with left := left })
  | 1 =>
    let (output, right) := docset.right.positions
    some (output, { docset with right := right })
  | n + 2 => do
    let other ← docset.others[n]?
    let (output, other) := other.positions
    some (output, { docset with others := docset.others.set n other })

def readLeft (m : PhraseScorer P) (ord : Nat) : Option (PhraseScorer P) := do
  let (output, docset) ← positionsAt m.intersectionDocset ord
  some { m with intersectionDocset := docset, left := output }

def readRight (m : PhraseScorer P) (ord : Nat) : Option (PhraseScorer P) := do
  let (output, docset) ← positionsAt m.intersectionDocset ord
  some { m with intersectionDocset := docset, right := output }

def hasSlop (m : PhraseScorer P) : Bool := decide (0 < m.slop)

/-- The step of the loop in `compute_phrase_match`, on the first `len` entries of the buffer. -/
def intersectLeft (m : PhraseScorer P) (len : Nat) : Nat × PhraseScorer P :=
  let (left, count) :=
    if m.hasSlop then intersectionWithSlop (m.left.take len) m.right m.slop
    else intersection (m.left.take len) m.right
  (count, { m with left := left ++ m.left.drop len })

/-- The loop of `compute_phrase_match`; `none` as its length is the early return. -/
def matchTerms : List Nat → Nat → PhraseScorer P → Option (Option Nat × PhraseScorer P)
  | [], len, m => some (some len, m)
  | ord :: ords, len, m => do
    let m ← m.readRight ord
    let (len, m) := m.intersectLeft len
    if len = 0 then some (none, m) else matchTerms ords len m

def computePhraseMatch (m : PhraseScorer P) : Option (Nat × PhraseScorer P) := do
  let m ← m.readLeft 0
  let (len, m) ← matchTerms (List.range' 1 (m.numTerms - 2)) m.left.length m
  match len with
  | none => some (0, m)
  | some len => do
    let m ← m.readRight (m.numTerms - 1)
    some (len, m)

def phraseExists (m : PhraseScorer P) : Option (Bool × PhraseScorer P) := do
  let (len, m) ← m.computePhraseMatch
  if m.hasSlop then some (intersectionExistsWithSlop (m.left.take len) m.right m.slop, m)
  else some (intersectionExists (m.left.take len) m.right, m)

/-- The count is cast to a `u32`. -/
def computePhraseCount (m : PhraseScorer P) : Option (Nat × PhraseScorer P) := do
  let (len, m) ← m.computePhraseMatch
  if m.hasSlop then
    some (intersectionCountWithSlop (m.left.take len) m.right m.slop % 2 ^ 32, m)
  else some (intersectionCount (m.left.take len) m.right % 2 ^ 32, m)

def phraseMatch (m : PhraseScorer P) : Option (Bool × PhraseScorer P) :=
  if m.similarityWeightOpt.isSome then do
    let (count, m) ← m.computePhraseCount
    some (decide (0 < count), { m with phraseCount := count })
  else m.phraseExists

def doc (m : PhraseScorer P) : Nat := ScoredDocSet.doc m.intersectionDocset.left

/-- The loop of `advance`. -/
def advanceLoop : Nat → PhraseScorer P → Option (Nat × PhraseScorer P)
  | 0, _ => none
  | fuel + 1, m => do
    let (doc, docset) ← m.intersectionDocset.advance
    let m := { m with intersectionDocset := docset }
    if doc = TERMINATED then some (doc, m)
    else
      let (found, m) ← m.phraseMatch
      if found then some (doc, m) else advanceLoop fuel m

def advance (m : PhraseScorer P) : Option (Nat × PhraseScorer P) := advanceLoop ROUNDS m

def seek (m : PhraseScorer P) (target : Nat) : Option (Nat × PhraseScorer P) := do
  let (doc, docset) ← m.intersectionDocset.seek target
  let m := { m with intersectionDocset := docset }
  if doc = TERMINATED then some (doc, m)
  else
    let (found, m) ← m.phraseMatch
    if found then some (doc, m) else m.advance

/-- The largest offset of a term. -/
def maxOffset (termPostings : List (Nat × P)) : Nat := (termPostings.map Prod.fst).foldr max 0

/-- The distance of a term from the last one is cast to a `u32`. -/
def withOffset (maxOffset : Nat) (term : Nat × P) : PostingsWithOffset P :=
  ⟨(maxOffset - term.1) % 2 ^ 32, term.2⟩

/-- `PhraseScorer::new`. -/
def new (sizeHint : P → Nat) (termPostings : List (Nat × P))
    (similarityWeightOpt : Option (Nat → Nat → Score)) (fieldnormReader : Nat → Nat) (slop : Nat) :
    Option (PhraseScorer P) := do
  let postingsWithOffsets := termPostings.map (withOffset (maxOffset termPostings))
  let docset ← IntersectionScorer.new (fun q => sizeHint q.postings) postingsWithOffsets
  let scorer : PhraseScorer P :=
    { intersectionDocset := docset
      numTerms := termPostings.length
      left := []
      right := []
      phraseCount := 0
      fieldnormReader := fieldnormReader
      similarityWeightOpt := similarityWeightOpt
      slop := slop }
  if scorer.doc ≠ TERMINATED then
    let (found, scorer) ← scorer.phraseMatch
    if found then some scorer
    else do
      let (_, scorer) ← scorer.advance
      some scorer
  else some scorer

/-- `score`, with the field norm and the phrase count of the document. -/
def score (m : PhraseScorer P) : Score :=
  match m.similarityWeightOpt with
  | some similarityWeight => similarityWeight (m.fieldnormReader m.doc) m.phraseCount
  | none => 1

instance : ScorerMachine (PhraseScorer P) where
  doc := doc
  advance := advance
  seek := seek
  score m := some (m.score, m)

/-! ### The positions of one document -/

/-- The shifted positions of all terms in a document, in the order of the intersection. -/
def lists (m : PhraseScorer P) (d : Nat) : List (List Nat) :=
  (m.intersectionDocset.traits PostingsWithOffset.shifted).map fun shifted => shifted d

/-- The matches of lists of positions. -/
def matchesIn (slop : Nat) : List (List Nat) → List Nat
  | [] => []
  | first :: others => phraseMatches slop first others

/-- The matches in a document. -/
def matchesAt (m : PhraseScorer P) (d : Nat) : List Nat := matchesIn m.slop (m.lists d)

/-- What no call changes: the positions of the terms and what `new` was given. -/
structure Same (m m' : PhraseScorer P) : Prop where
  traits : m'.intersectionDocset.traits PostingsWithOffset.shifted =
    m.intersectionDocset.traits PostingsWithOffset.shifted
  numTerms : m'.numTerms = m.numTerms
  fieldnormReader : m'.fieldnormReader = m.fieldnormReader
  similarityWeightOpt : m'.similarityWeightOpt = m.similarityWeightOpt
  slop : m'.slop = m.slop

/-- What reading positions does not change either: the documents that are left. -/
structure Reads (m m' : PhraseScorer P) : Prop extends Same m m' where
  view : m'.intersectionDocset.view = m.intersectionDocset.view

variable {m m' m'' : PhraseScorer P} {d : Nat}

theorem Same.refl (m : PhraseScorer P) : Same m m := ⟨rfl, rfl, rfl, rfl, rfl⟩

theorem Same.trans (h : Same m m') (h' : Same m' m'') : Same m m'' where
  traits := h'.traits.trans h.traits
  numTerms := h'.numTerms.trans h.numTerms
  fieldnormReader := h'.fieldnormReader.trans h.fieldnormReader
  similarityWeightOpt := h'.similarityWeightOpt.trans h.similarityWeightOpt
  slop := h'.slop.trans h.slop

theorem Reads.refl (m : PhraseScorer P) : Reads m m := ⟨Same.refl m, rfl⟩

theorem Reads.trans (h : Reads m m') (h' : Reads m' m'') : Reads m m'' :=
  ⟨h.toSame.trans h'.toSame, h'.view.trans h.view⟩

theorem Same.lists (h : Same m m') (d : Nat) : m'.lists d = m.lists d := by
  simp [PhraseScorer.lists, h.traits]

theorem Same.matchesAt (h : Same m m') (d : Nat) : m'.matchesAt d = m.matchesAt d := by
  simp [PhraseScorer.matchesAt, h.lists, h.slop]

/-- All terms stand on a document. -/
structure On (m : PhraseScorer P) (d : Nat) : Prop where
  aligned : m.intersectionDocset.view.Aligned
  doc : (stream m.intersectionDocset.left).doc = d
  ne : d ≠ TERMINATED

theorem On.reads (h : On m d) (hreads : Reads m m') : On m' d where
  aligned := hreads.view ▸ h.aligned
  doc := by
    have hleft : stream m'.intersectionDocset.left = stream m.intersectionDocset.left :=
      congrArg Intersection.left hreads.view
    rw [hleft]
    exact h.doc
  ne := h.ne

theorem map_set_of_eq {α β : Type} (f : α → β) {xs : List α} {n : Nat} {x x' : α}
    (hx : xs[n]? = some x) (hf : f x' = f x) : (xs.set n x').map f = xs.map f := by
  obtain ⟨hlt, rfl⟩ := List.getElem?_eq_some_iff.mp hx
  rw [List.map_set, hf]
  apply List.ext_getElem
  · simp
  · intro i hi hi'
    rw [List.getElem_set]
    split
    · rename_i heq
      subst heq
      simp
    · rfl

variable {ps : List Nat}

/-- Reading the positions of one term. -/
theorem positionsAt_spec (h : On m d) {ord : Nat} (hps : (m.lists d)[ord]? = some ps) :
    ∃ docset, positionsAt m.intersectionDocset ord = some (ps, docset) ∧
      docset.view = m.intersectionDocset.view ∧
      docset.traits PostingsWithOffset.shifted =
        m.intersectionDocset.traits PostingsWithOffset.shifted := by
  -- each docset stands on the document
  have hread : ∀ q : PostingsWithOffset P, stream q ∈ m.intersectionDocset.view.docsets →
      q.positions.1 = q.shifted d := by
    intro q hq
    have hdoc : ScoredDocSet.doc q = d := by
      rw [LawfulScoredDocSet.doc_eq, h.aligned _ hq]
      exact h.doc
    rw [← hdoc]
    exact q.positions_spec.1 (hdoc ▸ h.ne)
  match ord with
  | 0 =>
    obtain ⟨-, hstream, hshifted⟩ := m.intersectionDocset.left.positions_spec
    have hleft := hread m.intersectionDocset.left List.mem_cons_self
    obtain rfl : m.intersectionDocset.left.shifted d = ps := by
      simpa [lists, traits] using hps
    refine ⟨{ m.intersectionDocset with left := m.intersectionDocset.left.positions.2 }, ?_, ?_, ?_⟩
    · rw [← hleft]
      rfl
    · simp [view, hstream]
    · simp [traits, hshifted]
  | 1 =>
    obtain ⟨-, hstream, hshifted⟩ := m.intersectionDocset.right.positions_spec
    have hright := hread m.intersectionDocset.right (List.mem_cons_of_mem _ List.mem_cons_self)
    obtain rfl : m.intersectionDocset.right.shifted d = ps := by
      simpa [lists, traits] using hps
    refine ⟨{ m.intersectionDocset with right := m.intersectionDocset.right.positions.2 },
      ?_, ?_, ?_⟩
    · rw [← hright]
      rfl
    · simp [view, hstream]
    · simp [traits, hshifted]
  | n + 2 =>
    obtain ⟨q, hq, rfl⟩ : ∃ q, m.intersectionDocset.others[n]? = some q ∧ q.shifted d = ps := by
      simpa [lists, traits] using hps
    obtain ⟨-, hstream, hshifted⟩ := q.positions_spec
    have hother := hread q (List.mem_cons_of_mem _ (List.mem_cons_of_mem _
      (List.mem_map_of_mem (List.mem_of_getElem? hq))))
    refine ⟨{ m.intersectionDocset with others := m.intersectionDocset.others.set n q.positions.2 },
      ?_, ?_, ?_⟩
    · rw [positionsAt, hq, ← hother]
      rfl
    · simp [view, map_set_of_eq _ hq hstream]
    · simp [traits, map_set_of_eq _ hq hshifted]

theorem readRight_spec (h : On m d) {ord : Nat} (hps : (m.lists d)[ord]? = some ps) :
    ∃ m', m.readRight ord = some m' ∧ Reads m m' ∧ m'.right = ps ∧ m'.left = m.left ∧
      m'.phraseCount = m.phraseCount := by
  obtain ⟨docset, hread, hview, htraits⟩ := positionsAt_spec h hps
  refine ⟨{ m with intersectionDocset := docset, right := ps }, ?_,
    ⟨⟨htraits, rfl, rfl, rfl, rfl⟩, hview⟩, rfl, rfl, rfl⟩
  simp [readRight, hread]

theorem readLeft_spec (h : On m d) {ord : Nat} (hps : (m.lists d)[ord]? = some ps) :
    ∃ m', m.readLeft ord = some m' ∧ Reads m m' ∧ m'.left = ps := by
  obtain ⟨docset, hread, hview, htraits⟩ := positionsAt_spec h hps
  refine ⟨{ m with intersectionDocset := docset, left := ps }, ?_,
    ⟨⟨htraits, rfl, rfl, rfl, rfl⟩, hview⟩, rfl⟩
  simp [readLeft, hread]

/-! ### The steps of a match -/

omit [PositionPostings P] in
theorem hasSlop_iff (m : PhraseScorer P) : m.hasSlop = true ↔ 0 < m.slop := by
  simp [hasSlop]

/-- The matches are at the front of the buffer. -/
theorem intersectLeft_spec (m : PhraseScorer P) (len : Nat) :
    let matches' := matchesOf m.slop (m.left.take len) m.right
    ∃ m', m.intersectLeft len = (matches'.length, m') ∧ Reads m m' ∧
      m'.left.take matches'.length = matches' := by
  intro matches'
  have hspec : ∃ left, (if m.hasSlop then intersectionWithSlop (m.left.take len) m.right m.slop
      else intersection (m.left.take len) m.right) = (left, matches'.length) ∧
      left.take matches'.length = matches' ∧ left.length = (m.left.take len).length := by
    by_cases hslop : 0 < m.slop
    · obtain ⟨hlength, hreturned, htake⟩ := inPlaceLoop_spec (.withSlop m.slop) m.right
        (rounds (m.left.take len) m.right) (m.left.take len) 0 0 0 (le_refl 0)
      have hmatches : matches' = merged (.withSlop m.slop)
          (rounds (m.left.take len) m.right) (m.left.take len) m.right := by
        show matchesOf m.slop _ _ = _
        simp [matchesOf, mergeOf, hslop]
      simp only [List.drop_zero, List.take_zero, List.nil_append, Nat.zero_add, ← hmatches]
        at hreturned htake
      rw [if_pos ((hasSlop_iff m).mpr hslop)]
      exact ⟨_, Prod.ext rfl hreturned, hreturned ▸ htake, hlength⟩
    · obtain ⟨hlength, hreturned, htake⟩ := inPlaceLoop_spec .exact m.right
        (rounds (m.left.take len) m.right) (m.left.take len) 0 0 0 (le_refl 0)
      have hmatches : matches' = merged .exact
          (rounds (m.left.take len) m.right) (m.left.take len) m.right := by
        show matchesOf m.slop _ _ = _
        simp [matchesOf, mergeOf, hslop]
      simp only [List.drop_zero, List.take_zero, List.nil_append, Nat.zero_add, ← hmatches]
        at hreturned htake
      rw [if_neg (mt (hasSlop_iff m).mp hslop)]
      exact ⟨_, Prod.ext rfl hreturned, hreturned ▸ htake, hlength⟩
  obtain ⟨left, hrun, htake, hlength⟩ := hspec
  have hcount : matches'.length ≤ left.length := by
    rw [← htake, List.length_take]
    exact min_le_right _ _
  refine ⟨{ m with left := left ++ m.left.drop len }, ?_, ⟨⟨rfl, rfl, rfl, rfl, rfl⟩, rfl⟩, ?_⟩
  · rw [intersectLeft, hrun]
  · rw [List.take_append_of_le_length hcount]
    exact htake

/-- **The loop over the terms** leaves the matches of the terms it has gone through at the front
    of the buffer, or has found that there are none. -/
theorem matchTerms_spec {lists : List (List Nat)} {ords : List Nat} {pss : List (List Nat)}
    (len : Nat) (h : On m d) (hlists : m.lists d = lists)
    (hpss : List.Forall₂ (fun ord ps => lists[ord]? = some ps) ords pss) :
    ∃ len' m', matchTerms ords len m = some (len', m') ∧ Reads m m' ∧
      match len' with
      | none => phraseMatches m.slop (m.left.take len) pss = []
      | some len' => m'.left.take len' = phraseMatches m.slop (m.left.take len) pss := by
  induction hpss generalizing m len with
  | nil => exact ⟨some len, m, rfl, Reads.refl m, rfl⟩
  | cons hps hrest ih =>
    rename_i ord ps ords pss
    obtain ⟨m₁, hread, hreads, hright, hleft, -⟩ := readRight_spec h (hlists ▸ hps)
    obtain ⟨m₂, hrun, hreads', htake⟩ := m₁.intersectLeft_spec len
    rw [hright, hleft, hreads.slop] at hrun htake
    have hreads₂ := hreads.trans hreads'
    by_cases hzero : (matchesOf m.slop (m.left.take len) ps).length = 0
    · refine ⟨none, m₂, ?_, hreads₂, ?_⟩
      · simp [matchTerms, hread, hrun, hzero]
      · show phraseMatches m.slop (matchesOf m.slop (m.left.take len) ps) pss = []
        rw [List.eq_nil_of_length_eq_zero hzero]
        exact phraseMatches_nil _ _
    · obtain ⟨len', m', hloop, hreads'', hmatches⟩ := ih
        (matchesOf m.slop (m.left.take len) ps).length (h.reads hreads₂)
        ((hreads₂.lists d).trans hlists)
      rw [htake, hreads₂.slop] at hmatches
      refine ⟨len', m', ?_, hreads₂.trans hreads'', hmatches⟩
      rw [matchTerms, hread]
      simp only [Option.bind_eq_bind, Option.bind_some, hrun, if_neg hzero]
      exact hloop

/-- **`compute_phrase_match`**: merging what is at the front of the left buffer with the right one
    gives the matches of all terms. -/
theorem computePhraseMatch_spec (h : On m d)
    (hterms : m.numTerms = m.intersectionDocset.others.length + 2) :
    ∃ len m', m.computePhraseMatch = some (len, m') ∧ Reads m m' ∧
      matchesOf m.slop (m'.left.take len) m'.right = m.matchesAt d := by
  set first := m.intersectionDocset.left.shifted d with hfirst
  set others := m.intersectionDocset.right.shifted d ::
    m.intersectionDocset.others.map fun q => q.shifted d with hothers
  have hlists : m.lists d = first :: others := by
    simp [lists, traits, hfirst, hothers]
  have hlength : others.length = m.numTerms - 1 := by
    simp [hothers, hterms]
  have hpos : 0 < others.length := Nat.succ_pos _
  -- the terms of the loop, and the last one
  set last := others.getLast (List.ne_nil_of_length_pos hpos) with hlast
  have hsplit : others = others.dropLast ++ [last] :=
    (List.dropLast_append_getLast _).symm
  obtain ⟨m₁, hread, hreads, hleft⟩ := readLeft_spec h
    (show (m.lists d)[0]? = some first by rfl)
  have hpss : List.Forall₂ (fun ord ps => (first :: others)[ord]? = some ps)
      (List.range' 1 (m.numTerms - 2)) others.dropLast := by
    rw [List.forall₂_iff_get]
    refine ⟨by simp only [List.length_range', List.length_dropLast]; omega, fun i hi hi' => ?_⟩
    simp only [List.get_eq_getElem, List.getElem_range', List.getElem_dropLast]
    rw [show 1 + 1 * i = i + 1 by omega, List.getElem?_cons_succ, List.getElem?_eq_getElem]
  obtain ⟨len, m₂, hloop, hreads', hmatches⟩ :=
    matchTerms_spec m₁.left.length (h.reads hreads) ((hreads.lists d).trans hlists) hpss
  rw [List.take_length, hleft, hreads.slop] at hmatches
  have hreads₂ := hreads.trans hreads'
  have hall : m.matchesAt d =
      matchesOf m.slop (phraseMatches m.slop first others.dropLast) last := by
    rw [matchesAt, hlists, matchesIn, phraseMatches, hsplit, List.foldl_append, ← hsplit]
    rfl
  have hnum : m₁.numTerms = m.numTerms := hreads.numTerms
  cases len with
  | none =>
    refine ⟨0, m₂, ?_, hreads₂, ?_⟩
    · simp [computePhraseMatch, hread, hnum, hloop]
    · simp [matchesOf_nil, hall, hmatches]
  | some len =>
    have hget : (m₂.lists d)[m₂.numTerms - 1]? = some last := by
      rw [hreads₂.lists, hreads₂.numTerms, hlists, ← hlength, hlast,
        List.getLast_eq_getElem, ← List.getElem?_eq_getElem]
      rfl
    obtain ⟨m', hread', hreads'', hright, hleft', -⟩ := readRight_spec (h.reads hreads₂) hget
    refine ⟨len, m', ?_, hreads₂.trans hreads'', ?_⟩
    · simp [computePhraseMatch, hread, hnum, hloop, hread']
    · rw [hleft', hright, hmatches, hall]

/-- A `u32` counts the matches. -/
theorem length_matchesAt_lt (m : PhraseScorer P) (d : Nat) :
    (m.matchesAt d).length < 2 ^ 32 := by
  have hbound : ∀ q : PostingsWithOffset P, (q.shifted d).length < 2 ^ 32 := fun q => by
    rw [PostingsWithOffset.shifted, List.length_map]
    exact PositionPostings.length_positionsOf _ _
  have hlists : m.lists d = m.intersectionDocset.left.shifted d ::
      (m.intersectionDocset.right :: m.intersectionDocset.others).map fun q => q.shifted d := by
    simp [lists, traits]
  rw [matchesAt, hlists, matchesIn]
  refine length_phraseMatches_le _ _ (hbound _) fun ps hps => ?_
  obtain ⟨q, -, rfl⟩ := List.mem_map.mp hps
  exact hbound q

/-- A document matches when there is a match of all terms, and with scoring these are counted. -/
theorem phraseMatch_spec (h : On m d)
    (hterms : m.numTerms = m.intersectionDocset.others.length + 2) :
    ∃ m', m.phraseMatch = some (decide (m.matchesAt d ≠ []), m') ∧ Reads m m' ∧
      (m.similarityWeightOpt.isSome = true → m'.phraseCount = (m.matchesAt d).length) := by
  obtain ⟨len, m', hrun, hreads, hmatches⟩ := computePhraseMatch_spec h hterms
  have hslop : m'.hasSlop = m.hasSlop := by simp [hasSlop, hreads.slop]
  by_cases hscoring : m.similarityWeightOpt.isSome = true
  · -- the count is that of the merge of the two buffers
    have hcount : m.computePhraseCount = some ((m.matchesAt d).length, m') := by
      have hlt := length_matchesAt_lt m d
      rw [computePhraseCount, hrun]
      simp only [Option.bind_eq_bind, Option.bind_some, hslop]
      rw [← hmatches, matchesOf, mergeOf] at hlt ⊢
      by_cases hpos : 0 < m.slop
      · rw [if_pos hpos] at hlt ⊢
        rw [if_pos ((hasSlop_iff m).mpr hpos), intersectionCountWithSlop, countLoop_eq,
          Nat.zero_add, hreads.slop, Nat.mod_eq_of_lt hlt]
      · rw [if_neg hpos] at hlt ⊢
        rw [if_neg (mt (hasSlop_iff m).mp hpos), intersectionCount, countLoop_eq, Nat.zero_add,
          Nat.mod_eq_of_lt hlt]
    refine ⟨{ m' with phraseCount := (m.matchesAt d).length }, ?_, ⟨⟨hreads.traits,
      hreads.numTerms, hreads.fieldnormReader, hreads.similarityWeightOpt, hreads.slop⟩,
      hreads.view⟩, fun _ => rfl⟩
    simp [phraseMatch, hscoring, hcount, List.length_pos_iff]
  · refine ⟨m', ?_, hreads, fun hsome => absurd hsome hscoring⟩
    rw [phraseMatch, if_neg hscoring, phraseExists, hrun]
    simp only [Option.bind_eq_bind, Option.bind_some, hslop]
    rw [← hmatches, matchesOf, mergeOf]
    by_cases hpos : 0 < m.slop
    · rw [if_pos ((hasSlop_iff m).mpr hpos), if_pos hpos, intersectionExistsWithSlop, hreads.slop]
      congr 2
      rw [Bool.eq_iff_iff, existsLoop_iff, decide_eq_true_iff]
    · rw [if_neg (mt (hasSlop_iff m).mp hpos), if_neg hpos, intersectionExists]
      congr 2
      rw [Bool.eq_iff_iff, existsLoop_iff, decide_eq_true_iff]

/-! ### The documents that match -/

/-- The score of a matching document. -/
def scoreAt (m : PhraseScorer P) (d : Nat) : Score :=
  match m.similarityWeightOpt with
  | some similarityWeight => similarityWeight (m.fieldnormReader d) (m.matchesAt d).length
  | none => 1

/-- Whether a document is kept, and its score. -/
def keep (m : PhraseScorer P) (d : Nat) : Option Score :=
  if m.matchesAt d ≠ [] then some (m.scoreAt d) else none

theorem Same.keep (h : Same m m') : m'.keep = m.keep := by
  funext d
  simp [PhraseScorer.keep, scoreAt, h.matchesAt, h.similarityWeightOpt, h.fieldnormReader]

end PhraseScorer

/-- The documents of a stream that are kept, with new scores. -/
def Scorer.choose (s : Scorer) (keep : Nat → Option Score) : Scorer where
  hits := s.hits.filterMap fun p => (keep p.1).map fun v => (p.1, v)
  ascending := by
    refine List.Pairwise.filterMap _ ?_ s.ascending
    intro p q hpq a ha b hb
    obtain ⟨v, -, rfl⟩ := Option.map_eq_some_iff.mp ha
    obtain ⟨w, -, rfl⟩ := Option.map_eq_some_iff.mp hb
    exact hpq
  lt_terminated p hp := by
    obtain ⟨q, hq, hsome⟩ := List.mem_filterMap.mp hp
    obtain ⟨v, -, rfl⟩ := Option.map_eq_some_iff.mp hsome
    exact s.lt_terminated q hq

namespace Scorer

variable (s : Scorer) (keep : Nat → Option Score)

theorem find_choose (d : Nat) :
    (s.choose keep).find d = if (s.find d).isSome then keep d else none := by
  apply Option.ext
  intro v
  rw [find_eq_some_iff]
  show (d, v) ∈ s.hits.filterMap _ ↔ _
  rw [List.mem_filterMap]
  constructor
  · rintro ⟨q, hq, hsome⟩
    obtain ⟨w, hw, heq⟩ := Option.map_eq_some_iff.mp hsome
    obtain ⟨rfl, rfl⟩ := Prod.mk.inj heq
    simp [((s.mem_docs_iff q.1).mp (List.mem_map_of_mem hq)), hw]
  · intro hfind
    split at hfind
    · rename_i hmem
      obtain ⟨q, hq, rfl⟩ := List.mem_map.mp ((s.mem_docs_iff d).mpr hmem)
      exact ⟨q, hq, by rw [hfind]; rfl⟩
    · cases hfind

theorem mem_docs_choose (d : Nat) :
    d ∈ (s.choose keep).docs ↔ d ∈ s.docs ∧ (keep d).isSome = true := by
  rw [mem_docs_iff, find_choose, mem_docs_iff]
  split
  · exact ⟨fun h => ⟨‹_›, h⟩, fun h => h.2⟩
  · exact iff_of_false Bool.false_ne_true fun h => absurd h.1 ‹_›

/-- The first document is kept. -/
theorem doc_choose_of_some (hdoc : s.doc ≠ TERMINATED) (hkeep : (keep s.doc).isSome = true) :
    (s.choose keep).doc = s.doc := by
  rw [doc_eq_iff _ hdoc, find_choose, s.find_doc hdoc]
  refine ⟨hkeep, fun e he => ?_⟩
  simp [find_choose, s.find_eq_none_of_lt_doc he]

theorem doc_choose_of_ended (hdoc : s.doc = TERMINATED) : (s.choose keep).doc = TERMINATED := by
  have hempty : s.choose keep = empty := by
    apply ext_find
    intro d
    simp [find_choose, find_eq_none_of_ended hdoc]
  rw [hempty]
  rfl

/-- The first document is not kept. -/
theorem choose_advance_of_none (hdoc : s.doc ≠ TERMINATED) (hkeep : keep s.doc = none) :
    s.advance.choose keep = s.choose keep := by
  apply ext_find
  intro d
  rw [find_choose, find_choose, s.find_advance hdoc]
  by_cases hd : d ≤ s.doc
  · rw [if_pos hd]
    rcases Nat.lt_or_eq_of_le hd with hd | rfl
    · rw [s.find_eq_none_of_lt_doc hd]
    · simp [hkeep]
  · simp [hd]

theorem choose_seek (t : Nat) : (s.seek t).choose keep = (s.choose keep).seek t := by
  apply ext_find
  intro d
  rw [find_choose, find_seek, find_seek, find_choose]
  by_cases hd : d < t
  · simp [hd]
  · simp [hd]

/-- Moving on from a document that is kept. -/
theorem choose_advance (hdoc : (s.choose keep).doc = s.doc) :
    s.advance.choose keep = (s.choose keep).advance := by
  by_cases hended : s.doc = TERMINATED
  · rw [advance_of_ended hended, advance_of_ended (hdoc.trans hended)]
  · apply ext_find
    intro d
    rw [find_choose, find_advance _ hended, find_advance _ (hdoc ▸ hended), hdoc, find_choose]
    by_cases hd : d ≤ s.doc
    · simp [hd]
    · simp [hd]

end Scorer

namespace PhraseScorer

variable {P : Type} [PositionPostings P] {m m' : PhraseScorer P} {d : Nat} {s w : Scorer}

/-- A scorer stands on a document that matches, with its phrase count, and the documents that
    match are left of those the terms have in common. -/
structure Stands (m : PhraseScorer P) (s w : Scorer) : Prop where
  docset : m.intersectionDocset.Stands w
  numTerms : m.numTerms = m.intersectionDocset.others.length + 2
  rest : s = w.choose m.keep
  doc : s.doc = w.doc
  phraseCount : w.doc ≠ TERMINATED → m.similarityWeightOpt.isSome = true →
    m.phraseCount = (m.matchesAt w.doc).length

omit [PositionPostings P] in
theorem length_traits {G : Type} (g : PostingsWithOffset P → G)
    (docset : IntersectionScorer (PostingsWithOffset P) (PostingsWithOffset P)) :
    (docset.traits g).length = docset.others.length + 2 := by
  simp [traits]

theorem Same.length_others (h : Same m m') :
    m'.intersectionDocset.others.length = m.intersectionDocset.others.length := by
  have hlength := congrArg List.length h.traits
  rw [length_traits, length_traits] at hlength
  omega

theorem on_of_stands (hdocset : m.intersectionDocset.Stands w) (hdoc : w.doc ≠ TERMINATED) :
    On m w.doc where
  aligned := hdocset.1
  doc := by
    rw [← LawfulScoredDocSet.doc_eq]
    exact hdocset.doc_eq
  ne := hdoc

/-- Looking at a document of the terms: it matches, or it is passed over. -/
theorem found_or_none (hdocset : m.intersectionDocset.Stands w) (hdoc : w.doc ≠ TERMINATED)
    (hterms : m.numTerms = m.intersectionDocset.others.length + 2) :
    ∃ m', Same m m' ∧ m'.intersectionDocset.Stands w ∧
      (m.phraseMatch = some (true, m') ∧ Stands m' (w.choose m.keep) w ∨
        m.phraseMatch = some (false, m') ∧ m.keep w.doc = none) := by
  obtain ⟨m', hrun, hreads, hcount⟩ := phraseMatch_spec (on_of_stands hdocset hdoc) hterms
  have hstands : m'.intersectionDocset.Stands w := by
    unfold IntersectionScorer.Stands
    rw [hreads.view]
    exact hdocset
  refine ⟨m', hreads.toSame, hstands, ?_⟩
  by_cases hmatch : m.matchesAt w.doc = []
  · exact .inr ⟨hrun.trans (by rw [decide_eq_false (not_not.mpr hmatch)]),
      if_neg (not_not.mpr hmatch)⟩
  · refine .inl ⟨hrun.trans (by rw [decide_eq_true hmatch]), hstands, ?_, ?_, ?_, ?_⟩
    · rw [hreads.numTerms, hterms, hreads.toSame.length_others]
    · rw [hreads.toSame.keep]
    · exact w.doc_choose_of_some m.keep hdoc (by simp [keep, hmatch])
    · intro _ hsome
      rw [hreads.similarityWeightOpt] at hsome
      rw [hreads.toSame.matchesAt]
      exact hcount hsome

theorem same_of_traits {docset : IntersectionScorer (PostingsWithOffset P) (PostingsWithOffset P)}
    (h : docset.traits PostingsWithOffset.shifted =
      m.intersectionDocset.traits PostingsWithOffset.shifted) :
    Same m { m with intersectionDocset := docset } := ⟨h, rfl, rfl, rfl, rfl⟩

theorem stands_of_ended (hdocset : m.intersectionDocset.Stands w)
    (hterms : m.numTerms = m.intersectionDocset.others.length + 2) (hdoc : w.doc = TERMINATED) :
    Stands m (w.choose m.keep) w where
  docset := hdocset
  numTerms := hterms
  rest := rfl
  doc := (w.doc_choose_of_ended m.keep hdoc).trans hdoc.symm
  phraseCount hne := absurd hdoc hne

/-- **The loop of `advance`** goes to the next document that matches. -/
theorem advanceLoop_spec (fuel : Nat) (hdocset : m.intersectionDocset.Stands w)
    (hterms : m.numTerms = m.intersectionDocset.others.length + 2)
    (hfuel : TERMINATED - w.doc < fuel) :
    ∃ m' w', advanceLoop fuel m = some (w'.doc, m') ∧ Same m m' ∧
      Stands m' (w.advance.choose m.keep) w' := by
  induction fuel generalizing m w with
  | zero => exact absurd hfuel (Nat.not_lt_zero _)
  | succ fuel ih =>
    obtain ⟨docset, hrun, hdocset'⟩ := IntersectionScorer.advance_spec hdocset
    have hsame := same_of_traits (IntersectionScorer.advance_traits
      PostingsWithOffset.shifted_advance PostingsWithOffset.shifted_seek hrun)
    rw [hdocset'.doc_eq] at hrun
    have hterms' : m.numTerms = docset.others.length + 2 := by
      rw [hterms]
      exact congrArg (· + 2) hsame.length_others.symm
    by_cases hdoc : w.advance.doc = TERMINATED
    · refine ⟨{ m with intersectionDocset := docset }, w.advance, ?_, hsame,
        hsame.keep ▸ stands_of_ended hdocset' hterms' hdoc⟩
      simp [advanceLoop, hrun, hdoc]
    obtain ⟨m', hsame', hstands, ⟨hmatch, hfound⟩ | ⟨hmatch, hnone⟩⟩ :=
      found_or_none (m := { m with intersectionDocset := docset }) hdocset' hdoc hterms'
    · refine ⟨m', w.advance, ?_, hsame.trans hsame', hsame.keep ▸ hfound⟩
      simp [advanceLoop, hrun, hdoc, hmatch]
    · -- the document does not match, and the loop goes on behind it
      have hlt : w.doc < w.advance.doc := by
        refine Intersection.lt_doc_advance w fun hended => hdoc ?_
        rw [Scorer.advance_of_ended hended, hended]
      have hterm := w.advance.doc_le_terminated
      have hsame₂ := hsame.trans hsame'
      obtain ⟨m'', w', hloop, hsame'', hstands'⟩ := ih hstands
        (by rw [hsame₂.numTerms, hsame₂.length_others, hterms]) (by omega)
      rw [hsame₂.keep, Scorer.choose_advance_of_none _ _ hdoc (hsame.keep ▸ hnone)] at hstands'
      refine ⟨m'', w', ?_, hsame₂.trans hsame'', hstands'⟩
      rw [advanceLoop, hrun]
      simp only [Option.bind_eq_bind, Option.bind_some, if_neg hdoc, hmatch, Bool.false_eq_true,
        if_false]
      exact hloop

theorem advance_spec (hdocset : m.intersectionDocset.Stands w)
    (hterms : m.numTerms = m.intersectionDocset.others.length + 2) :
    ∃ m' w', m.advance = some (w'.doc, m') ∧ Same m m' ∧
      Stands m' (w.advance.choose m.keep) w' := by
  apply advanceLoop_spec _ hdocset hterms
  have hrounds : ROUNDS = TERMINATED + 1 := rfl
  omega

theorem seek_spec (hdocset : m.intersectionDocset.Stands w)
    (hterms : m.numTerms = m.intersectionDocset.others.length + 2) {t : Nat} (hle : w.doc ≤ t)
    (ht : t ≤ TERMINATED) :
    ∃ m' w', m.seek t = some (w'.doc, m') ∧ Same m m' ∧
      Stands m' ((w.seek t).choose m.keep) w' := by
  obtain ⟨docset, hrun, hdocset'⟩ := IntersectionScorer.seek_spec hdocset hle ht
  have hsame := same_of_traits (IntersectionScorer.seek_traits PostingsWithOffset.shifted_seek hrun)
  rw [hdocset'.doc_eq] at hrun
  have hterms' : m.numTerms = docset.others.length + 2 := by
    rw [hterms]
    exact congrArg (· + 2) hsame.length_others.symm
  by_cases hdoc : (w.seek t).doc = TERMINATED
  · refine ⟨{ m with intersectionDocset := docset }, w.seek t, ?_, hsame,
      hsame.keep ▸ stands_of_ended hdocset' hterms' hdoc⟩
    simp [seek, hrun, hdoc]
  obtain ⟨m', hsame', hstands, ⟨hmatch, hfound⟩ | ⟨hmatch, hnone⟩⟩ :=
    found_or_none (m := { m with intersectionDocset := docset }) hdocset' hdoc hterms'
  · refine ⟨m', w.seek t, ?_, hsame.trans hsame', hsame.keep ▸ hfound⟩
    simp [seek, hrun, hdoc, hmatch]
  · have hsame₂ := hsame.trans hsame'
    obtain ⟨m'', w', hloop, hsame'', hstands'⟩ := advance_spec hstands
      (by rw [hsame₂.numTerms, hsame₂.length_others, hterms])
    rw [hsame₂.keep, Scorer.choose_advance_of_none _ _ hdoc (hsame.keep ▸ hnone)] at hstands'
    refine ⟨m'', w', ?_, hsame₂.trans hsame'', hstands'⟩
    rw [seek, hrun]
    simp only [Option.bind_eq_bind, Option.bind_some, if_neg hdoc, hmatch, Bool.false_eq_true,
      if_false]
    exact hloop

theorem Stands.score_eq (h : Stands m s w) (hne : s.doc ≠ TERMINATED) : m.score = s.score := by
  have hdoc : w.doc ≠ TERMINATED := h.doc ▸ hne
  have hcur : m.doc = w.doc := h.docset.doc_eq
  have hfind := s.find_doc hne
  rw [h.doc, h.rest, Scorer.find_choose, w.find_doc hdoc, Option.isSome_some, if_pos rfl, keep]
    at hfind
  split at hfind
  · rw [← h.rest] at hfind
    rw [← Option.some.inj hfind, score, scoreAt, hcur]
    cases hweight : m.similarityWeightOpt with
    | none => rfl
    | some weight => rw [h.phraseCount hdoc (by rw [hweight]; rfl)]
  · cases hfind

/-- **One call** goes along with the documents that match, and keeps what was given to `new`. -/
theorem Stands.run (h : Stands m s w) (call : ScorerCall) (hallowed : call.Allowed s) :
    ∃ m' w', call.run m = some ((call.step s).1, m') ∧ Same m m' ∧
      Stands m' (call.step s).2 w' := by
  cases call with
  | advance =>
    obtain ⟨m', w', hrun, hsame, hstands⟩ := advance_spec h.docset h.numTerms
    rw [Scorer.choose_advance _ _ (h.rest ▸ h.doc), ← h.rest] at hstands
    refine ⟨m', w', ?_, hsame, hstands⟩
    show m.advance.map _ = _
    rw [hrun, ← hstands.doc]
    rfl
  | seek t =>
    obtain ⟨m', w', hrun, hsame, hstands⟩ := seek_spec h.docset h.numTerms
      (h.doc ▸ hallowed.1) hallowed.2
    rw [Scorer.choose_seek, ← h.rest] at hstands
    refine ⟨m', w', ?_, hsame, hstands⟩
    show (m.seek t).map _ = _
    rw [hrun, ← hstands.doc]
    rfl
  | score =>
    refine ⟨m, w, ?_, Same.refl m, h⟩
    show some (Answer.score m.score, m) = _
    rw [h.score_eq hallowed]
    rfl

/-- Any sequence of calls. -/
theorem Stands.runAll (h : Stands m s w) (calls : List ScorerCall)
    (hallowed : ScorerCall.AllowedAll calls s) :
    ∃ m' w', ScorerCall.runAll calls m = some ((ScorerCall.stepAll calls s).1, m') ∧ Same m m' ∧
      Stands m' (ScorerCall.stepAll calls s).2 w' := by
  obtain ⟨m', hrun, hsame, w', hstands⟩ := ScorerCall.runAll_of_step
    (R := fun m' s => Same m m' ∧ ∃ w, Stands m' s w)
    (fun call hrep hallowed => by
      obtain ⟨hsame, w, hstands⟩ := hrep
      obtain ⟨m', w', hrun, hsame', hstands'⟩ := hstands.run call hallowed
      exact ⟨m', hrun, hsame.trans hsame', w', hstands'⟩)
    calls ⟨Same.refl m, w, h⟩ hallowed
  exact ⟨m', w', hrun, hsame, hstands⟩

/-- **`PhraseScorer::new`** stands on the first document with a match. -/
theorem new_spec (sizeHint : P → Nat) (termPostings : List (Nat × P))
    (similarityWeightOpt : Option (Nat → Nat → Score)) (fieldnormReader : Nat → Nat) (slop : Nat)
    (hlen : 2 ≤ termPostings.length) :
    let postingsWithOffsets := termPostings.map (withOffset (maxOffset termPostings))
    ∃ (m : PhraseScorer P) (w w' : Scorer),
      new sizeHint termPostings similarityWeightOpt fieldnormReader slop = some m ∧
      Stands m (w.choose m.keep) w' ∧
      (∀ d, d ∈ w.docs ↔ ∀ term ∈ termPostings, d ∈ (stream term.2).docs) ∧
      m.slop = slop ∧ m.similarityWeightOpt = similarityWeightOpt ∧
      m.intersectionDocset.traits PostingsWithOffset.shifted =
        (postingsWithOffsets.mergeSort fun a b =>
          sizeHint a.postings ≤ sizeHint b.postings).map PostingsWithOffset.shifted := by
  intro postingsWithOffsets
  have hlen' : 2 ≤ postingsWithOffsets.length := by rwa [List.length_map]
  obtain ⟨docset, hnew, hdocset⟩ := IntersectionScorer.new_spec
    (fun q : PostingsWithOffset P => sizeHint q.postings) postingsWithOffsets hlen'
  have htraits := IntersectionScorer.new_traits PostingsWithOffset.shifted_seek hnew
  set w := intersectScorers (fun _ => 0) (postingsWithOffsets.map stream) with hw
  have hdocs : ∀ d, d ∈ w.docs ↔ ∀ term ∈ termPostings, d ∈ (stream term.2).docs := by
    intro d
    have hne : postingsWithOffsets.map stream ≠ [] := by
      rw [Ne, List.map_eq_nil_iff]
      exact List.ne_nil_of_length_pos (by omega)
    rw [Scorer.mem_docs_iff, hw, find_intersectScorers _ hne]
    simp only [postingsWithOffsets, Intersection.AllHave, List.forall_mem_map,
      ← Scorer.mem_docs_iff]
    split
    · exact iff_of_true rfl ‹_›
    · exact iff_of_false Bool.false_ne_true ‹_›
  set m : PhraseScorer P := ⟨docset, termPostings.length, [], [], 0, fieldnormReader,
    similarityWeightOpt, slop⟩ with hm
  have hterms : m.numTerms = m.intersectionDocset.others.length + 2 := by
    have hlength := congrArg List.length htraits
    rw [length_traits, List.length_map, List.length_mergeSort, List.length_map] at hlength
    exact hlength.symm
  have hcur : m.doc = w.doc := hdocset.doc_eq
  by_cases hdoc : w.doc = TERMINATED
  · refine ⟨m, w, w, ?_, stands_of_ended hdocset hterms hdoc, hdocs, rfl, rfl, htraits⟩
    rw [new, hnew]
    simp [← hm, (not_not.mpr (hcur.trans hdoc))]
  obtain ⟨m', hsame, hstands, ⟨hmatch, hfound⟩ | ⟨hmatch, hnone⟩⟩ :=
    found_or_none (m := m) hdocset hdoc hterms
  · refine ⟨m', w, w, ?_, hsame.keep ▸ hfound, hdocs, hsame.slop, hsame.similarityWeightOpt,
      hsame.traits.trans htraits⟩
    rw [new, hnew]
    simp [← hm, (hcur ▸ hdoc), hmatch]
  · -- the first document of the terms does not match
    obtain ⟨m'', w', hrun, hsame', hstands'⟩ := advance_spec hstands
      (by rw [hsame.numTerms, hsame.length_others, hterms])
    have hsame₂ := hsame.trans hsame'
    rw [hsame.keep, Scorer.choose_advance_of_none _ _ hdoc hnone, ← hsame₂.keep] at hstands'
    refine ⟨m'', w, w', ?_, hstands', hdocs, hsame₂.slop, hsame₂.similarityWeightOpt,
      hsame₂.traits.trans htraits⟩
    rw [new, hnew]
    simp [← hm, (hcur ▸ hdoc), hmatch, hrun]

end PhraseScorer

end TeaclaveCrates.Tantivy
