import Mathlib.Data.Set.Card
import TeaclaveCrates.Tantivy.PhraseScorer

namespace TeaclaveCrates.Tantivy

open TeaclaveCrates.Lib
open LawfulScoredDocSet (stream)
open Phrase
open PhraseScorer (matchesIn maxOffset new withOffset)

/-!
# What a phrase matches

The documents and the counts of a phrase scorer, in terms of the positions of its terms.

* `PhraseTerm`, `documentMatches` — the terms of a phrase in one document, and what the scorer
  makes of them; `scorer_behaves` — a scorer stands for the documents with a match.
* `exact_phrases` — without slop the matches are the places of the phrase, if the shifted
  positions fit into 32 bits.
* `sloppy_phrases` — with slop the matches depend on the order of the postings, and a merge keeps
  one candidate only.
-/

/-! ### The terms in one document -/

/-- A term of a phrase: its offset, the size hint of its postings, and its positions in one
    document. -/
structure PhraseTerm where
  offset : Nat
  sizeHint : Nat
  positions : List Nat
deriving DecidableEq

/-- The largest offset of the terms. -/
def lastOffset (terms : List PhraseTerm) : Nat := (terms.map PhraseTerm.offset).foldr max 0

namespace PhraseTerm

/-- The positions with the distance to the last offset added, in 32 bits as the scorer does. -/
def wrapped (last : Nat) (term : PhraseTerm) : List Nat :=
  term.positions.map fun position => ((last - term.offset) % 2 ^ 32 + position) % 2 ^ 32

/-- The shifted positions, `q_i = p_i + max_offset - offset_i`. -/
def shifted (last : Nat) (term : PhraseTerm) : List Nat :=
  term.positions.map fun position => position + (last - term.offset)

end PhraseTerm

/-- The matches of a phrase in a document. The postings are intersected in the order of their size
    hints. -/
def documentMatches (slop : Nat) (terms : List PhraseTerm) : List Nat :=
  matchesIn slop
    ((terms.mergeSort fun a b => a.sizeHint ≤ b.sizeHint).map
      (PhraseTerm.wrapped (lastOffset terms)))

/-- A document that has positions in increasing order, which fit into 32 bits when they are
    shifted. -/
structure Fits (terms : List PhraseTerm) : Prop where
  sorted : ∀ term ∈ terms, term.positions.Pairwise (· < ·)
  lt : ∀ term ∈ terms, ∀ position ∈ term.positions,
    position + (lastOffset terms - term.offset) < 2 ^ 32

section Scorer

variable {P : Type} [PositionPostings P]

/-- The terms of a phrase in a document. -/
def termsAt (sizeHint : P → Nat) (termPostings : List (Nat × P)) (d : Nat) : List PhraseTerm :=
  termPostings.map fun term => ⟨term.1, sizeHint term.2, PositionPostings.positionsOf term.2 d⟩

theorem lastOffset_termsAt (sizeHint : P → Nat) (termPostings : List (Nat × P)) (d : Nat) :
    lastOffset (termsAt sizeHint termPostings d) = maxOffset termPostings := by
  rw [lastOffset, termsAt, List.map_map]
  rfl

/-- Sorting the postings sorts the terms. -/
theorem lists_eq (sizeHint : P → Nat) (termPostings : List (Nat × P)) (d : Nat) :
    (((termPostings.map (withOffset (maxOffset termPostings))).mergeSort
        fun a b => sizeHint a.postings ≤ sizeHint b.postings).map
      fun q => q.shifted d) =
    ((termsAt sizeHint termPostings d).mergeSort fun a b => a.sizeHint ≤ b.sizeHint).map
      (PhraseTerm.wrapped (lastOffset (termsAt sizeHint termPostings d))) := by
  have hleft := List.map_mergeSort (r := fun a b => decide (sizeHint a.2 ≤ sizeHint b.2))
    (s := fun a b => decide (sizeHint a.postings ≤ sizeHint b.postings))
    (f := withOffset (maxOffset termPostings)) (l := termPostings)
    fun a _ b _ => rfl
  have hright := List.map_mergeSort (r := fun a b => decide (sizeHint a.2 ≤ sizeHint b.2))
    (s := fun a b => decide (a.sizeHint ≤ b.sizeHint)) (l := termPostings)
    (f := fun term =>
      (⟨term.1, sizeHint term.2, PositionPostings.positionsOf term.2 d⟩ : PhraseTerm))
    fun a _ b _ => rfl
  rw [lastOffset_termsAt, termsAt, ← hleft, ← hright, List.map_map, List.map_map]
  rfl

/-- **A phrase scorer** answers every sequence of calls as the cursor over the documents in which
    the terms match, and on such a document it has counted the matches. -/
theorem scorer_behaves (sizeHint : P → Nat) (termPostings : List (Nat × P))
    (similarityWeightOpt : Option (Nat → Nat → Score)) (fieldnormReader : Nat → Nat) (slop : Nat)
    (hlen : 2 ≤ termPostings.length) :
    ∃ (m : PhraseScorer P) (whole : Scorer),
      new sizeHint termPostings similarityWeightOpt fieldnormReader slop = some m ∧
      (∀ d, d ∈ whole.docs ↔ (∀ term ∈ termPostings, d ∈ (stream term.2).docs) ∧
        documentMatches slop (termsAt sizeHint termPostings d) ≠ []) ∧
      ∀ calls, ScorerCall.AllowedAll calls whole →
        ∃ m', ScorerCall.runAll calls m = some ((ScorerCall.stepAll calls whole).1, m') ∧
          m'.doc = (ScorerCall.stepAll calls whole).2.doc ∧
          (m'.doc ≠ TERMINATED → similarityWeightOpt.isSome = true →
            m'.phraseCount =
              (documentMatches slop (termsAt sizeHint termPostings m'.doc)).length) := by
  obtain ⟨m, w, w', hnew, hstands, hdocs, hslop, hweight, htraits⟩ := PhraseScorer.new_spec sizeHint
    termPostings similarityWeightOpt fieldnormReader slop hlen
  have hmatches : ∀ d, m.matchesAt d =
      documentMatches slop (termsAt sizeHint termPostings d) := by
    intro d
    rw [PhraseScorer.matchesAt, PhraseScorer.lists, htraits, hslop, List.map_map, documentMatches,
      ← lists_eq]
    rfl
  refine ⟨m, w.choose m.keep, hnew, fun d => ?_, fun calls hallowed => ?_⟩
  · rw [Scorer.mem_docs_choose, hdocs, ← hmatches, PhraseScorer.keep]
    refine and_congr_right fun _ => ?_
    split
    · exact iff_of_true rfl ‹_›
    · exact iff_of_false Bool.false_ne_true ‹_›
  · obtain ⟨m', w'', hrun, hsame, hstands'⟩ := hstands.runAll calls hallowed
    have hdoc : m'.doc = w''.doc := hstands'.docset.doc_eq
    refine ⟨m', hrun, hdoc.trans hstands'.doc.symm, fun hne hscoring => ?_⟩
    rw [hdoc] at hne ⊢
    simp [hstands'.phraseCount hne (by rw [hsame.similarityWeightOpt, hweight]; exact hscoring),
      hsame.matchesAt, hmatches]

end Scorer

/-! ### Positions that fit -/

section Fits

variable {slop : Nat} {terms : List PhraseTerm}

/-- In the order of the size hints. -/
def sortedTerms (terms : List PhraseTerm) : List PhraseTerm :=
  terms.mergeSort fun a b => a.sizeHint ≤ b.sizeHint

theorem sortedTerms_perm (terms : List PhraseTerm) : (sortedTerms terms).Perm terms :=
  List.mergeSort_perm _ _

variable {term : PhraseTerm}

theorem Fits.wrapped_eq (h : Fits terms) (hterm : term ∈ terms) :
    term.wrapped (lastOffset terms) = term.shifted (lastOffset terms) := by
  refine List.map_congr_left fun position hposition => ?_
  have hlt := h.lt term hterm position hposition
  have hshift : (lastOffset terms - term.offset) % 2 ^ 32 = lastOffset terms - term.offset :=
    Nat.mod_eq_of_lt (by omega)
  rw [hshift, Nat.add_comm, Nat.mod_eq_of_lt hlt]

theorem Fits.sorted_shifted (h : Fits terms) (hterm : term ∈ terms) :
    (term.shifted (lastOffset terms)).Pairwise (· < ·) :=
  List.pairwise_map.mpr ((h.sorted term hterm).imp fun hlt => Nat.add_lt_add_right hlt _)

/-- Without overflow, the lists that are merged are the shifted positions. -/
theorem Fits.documentMatches_eq (h : Fits terms) (slop : Nat) :
    documentMatches slop terms =
      matchesIn slop
        ((sortedTerms terms).map (PhraseTerm.shifted (lastOffset terms))) := by
  rw [documentMatches, ← sortedTerms]
  congr 1
  refine List.map_congr_left fun term hterm => ?_
  exact h.wrapped_eq ((sortedTerms_perm terms).mem_iff.mp hterm)

theorem Fits.sorted_lists (h : Fits terms) :
    ∀ ps ∈ (sortedTerms terms).map (PhraseTerm.shifted (lastOffset terms)),
      ps.Pairwise (· < ·) := by
  intro ps hps
  obtain ⟨term, hterm, rfl⟩ := List.mem_map.mp hps
  exact h.sorted_shifted ((sortedTerms_perm terms).mem_iff.mp hterm)

/-! ### Exact phrases -/

/-- The places of a phrase in a document: the positions `p` such that each term occurs at `p` plus
    its offset. With offsets that do not start at zero a place may lie in front of the document. -/
def places (terms : List PhraseTerm) : Set ℤ :=
  {p | ∀ term ∈ terms, ∃ position ∈ term.positions, (position : ℤ) = p + term.offset}

theorem le_lastOffset (hterm : term ∈ terms) :
    term.offset ≤ lastOffset terms :=
  IntersectionScorer.le_foldr_max _ _ (List.mem_map_of_mem hterm)

theorem Fits.mem_documentMatches_zero (h : Fits terms) (hne : terms ≠ []) (x : Nat) :
    x ∈ documentMatches 0 terms ↔ ∀ term ∈ terms, x ∈ term.shifted (lastOffset terms) := by
  have hlists := h.sorted_lists
  have hmem : (∀ term ∈ terms, x ∈ term.shifted (lastOffset terms)) ↔
      ∀ ps ∈ (sortedTerms terms).map (PhraseTerm.shifted (lastOffset terms)), x ∈ ps := by
    rw [List.forall_mem_map]
    exact forall_congr' fun term => by rw [(sortedTerms_perm terms).mem_iff]
  rw [h.documentMatches_eq, hmem]
  cases hsorted : sortedTerms terms with
  | nil =>
    have hperm := sortedTerms_perm terms
    rw [hsorted] at hperm
    exact absurd hperm.nil_eq.symm hne
  | cons first others =>
    rw [hsorted, List.map_cons] at hlists
    obtain ⟨hfirst, hothers⟩ := List.forall_mem_cons.mp hlists
    rw [List.map_cons, matchesIn, mem_phraseMatches_zero hfirst hothers,
      List.forall_mem_cons]

theorem Fits.sorted_documentMatches (h : Fits terms) (slop : Nat) :
    (documentMatches slop terms).Pairwise (· < ·) := by
  have hlists := h.sorted_lists
  rw [h.documentMatches_eq]
  revert hlists
  cases (sortedTerms terms).map (PhraseTerm.shifted (lastOffset terms)) with
  | nil => exact fun _ => List.Pairwise.nil
  | cons first others =>
    intro hlists
    obtain ⟨hfirst, hothers⟩ := List.forall_mem_cons.mp hlists
    exact sorted_phraseMatches slop hfirst hothers

/-- A match is a place of the phrase, moved by the last offset. -/
theorem Fits.mem_places_iff (h : Fits terms) (hne : terms ≠ []) (p : ℤ) :
    p ∈ places terms ↔ ∃ x ∈ documentMatches 0 terms, (x : ℤ) - lastOffset terms = p := by
  constructor
  · intro hp
    -- the place moved by the last offset is where the positions of a term are moved to
    have hall : ∀ term ∈ terms,
        (p + lastOffset terms).toNat ∈ term.shifted (lastOffset terms) ∧
          0 ≤ p + lastOffset terms := by
      intro term hterm
      obtain ⟨position, hposition, heq⟩ := hp term hterm
      have hle := le_lastOffset hterm
      refine ⟨List.mem_map.mpr ⟨position, hposition, ?_⟩, by omega⟩
      omega
    obtain ⟨first, hfirst⟩ := List.exists_mem_of_ne_nil _ hne
    refine ⟨(p + lastOffset terms).toNat,
      (h.mem_documentMatches_zero hne _).mpr fun term hterm => (hall term hterm).1, ?_⟩
    have hnonneg := (hall first hfirst).2
    omega
  · rintro ⟨x, hx, rfl⟩ term hterm
    obtain ⟨position, hposition, heq⟩ :=
      List.mem_map.mp ((h.mem_documentMatches_zero hne x).mp hx term hterm)
    have hle := le_lastOffset hterm
    exact ⟨position, hposition, by omega⟩

/-- The matches of an exact phrase are counted by its places. -/
theorem Fits.length_documentMatches_zero (h : Fits terms) (hne : terms ≠ []) :
    (documentMatches 0 terms).length = (places terms).ncard := by
  have himage : places terms =
      (fun x : Nat => (x : ℤ) - lastOffset terms) ''
        ((documentMatches 0 terms).toFinset : Set Nat) := by
    ext p
    simp [h.mem_places_iff hne]
  have hnodup : (documentMatches 0 terms).Nodup :=
    (h.sorted_documentMatches 0).imp fun hlt => hlt.ne
  rw [himage, Set.ncard_image_of_injective _ fun x y hxy => ?_, Set.ncard_coe_finset,
    List.toFinset_card_of_nodup hnodup]
  omega

end Fits

section Exact

variable {P : Type} [PositionPostings P]

/-- Whether the shifted positions of a document fit into 32 bits. -/
def FitsAt (termPostings : List (Nat × P)) (d : Nat) : Prop :=
  ∀ term ∈ termPostings, ∀ position ∈ PositionPostings.positionsOf term.2 d,
    position + (maxOffset termPostings - term.1) < 2 ^ 32

theorem FitsAt.fits {termPostings : List (Nat × P)} {d : Nat} (h : FitsAt termPostings d)
    (sizeHint : P → Nat) : Fits (termsAt sizeHint termPostings d) where
  sorted := by
    rw [termsAt, List.forall_mem_map]
    exact fun term _ => PositionPostings.sorted_positionsOf _ _
  lt := by
    rw [lastOffset_termsAt, termsAt, List.forall_mem_map]
    exact h

/-- **Exact phrases.** In the documents whose shifted positions fit into 32 bits, a phrase scorer
    without slop finds those that have a place of the phrase, whatever the order of its postings,
    and its phrase count is the number of places. -/
theorem exact_phrases (sizeHint : P → Nat) (termPostings : List (Nat × P))
    (similarityWeightOpt : Option (Nat → Nat → Score)) (fieldnormReader : Nat → Nat)
    (hlen : 2 ≤ termPostings.length) :
    ∃ (m : PhraseScorer P) (whole : Scorer),
      new sizeHint termPostings similarityWeightOpt fieldnormReader 0 = some m ∧
      (∀ d, FitsAt termPostings d →
        (d ∈ whole.docs ↔ (∀ term ∈ termPostings, d ∈ (stream term.2).docs) ∧
          0 < (places (termsAt sizeHint termPostings d)).ncard)) ∧
      ∀ calls, ScorerCall.AllowedAll calls whole →
        ∃ m', ScorerCall.runAll calls m = some ((ScorerCall.stepAll calls whole).1, m') ∧
          m'.doc = (ScorerCall.stepAll calls whole).2.doc ∧
          (m'.doc ≠ TERMINATED → similarityWeightOpt.isSome = true → FitsAt termPostings m'.doc →
            m'.phraseCount = (places (termsAt sizeHint termPostings m'.doc)).ncard) := by
  obtain ⟨m, whole, hnew, hdocs, hcalls⟩ := scorer_behaves sizeHint termPostings
    similarityWeightOpt fieldnormReader 0 hlen
  have hne : ∀ d, termsAt sizeHint termPostings d ≠ [] := by
    intro d
    rw [termsAt, Ne, List.map_eq_nil_iff]
    exact List.ne_nil_of_length_pos (by omega)
  refine ⟨m, whole, hnew, fun d hfits => ?_, fun calls hallowed => ?_⟩
  · rw [hdocs, ← (hfits.fits sizeHint).length_documentMatches_zero (hne d), List.length_pos_iff]
  · obtain ⟨m', hrun, hdoc, hcount⟩ := hcalls calls hallowed
    refine ⟨m', hrun, hdoc, fun hterm hscoring hfits => ?_⟩
    rw [hcount hterm hscoring, (hfits.fits sizeHint).length_documentMatches_zero (hne _)]

end Exact

/-- Postings as a list of documents, with a function that gives the positions. -/
structure ListPostings where
  scorer : Scorer
  sizeHint : Nat
  positions : Nat → List Nat
  sorted : ∀ d, (positions d).Pairwise (· < ·)
  length_lt : ∀ d, (positions d).length < 2 ^ 32

instance : PositionPostings ListPostings where
  doc p := p.scorer.doc
  advance p := (p.scorer.advance.doc, { p with scorer := p.scorer.advance })
  seek p t := ((p.scorer.seek t).doc, { p with scorer := p.scorer.seek t })
  score p := p.scorer.score
  stream := ListPostings.scorer
  doc_eq _ := rfl
  score_eq _ _ := rfl
  advance_fst _ := rfl
  stream_advance _ := rfl
  seek_fst _ _ _ _ := rfl
  stream_seek _ _ _ _ := rfl
  positionsWithOffset p offset :=
    ((p.positions p.scorer.doc).map fun position => (offset + position) % 2 ^ 32, p)
  positionsOf := ListPostings.positions
  sorted_positionsOf := ListPostings.sorted
  length_positionsOf := ListPostings.length_lt
  positionsOf_advance _ := rfl
  positionsOf_seek _ _ := rfl
  positionsWithOffset_fst _ _ _ := rfl
  stream_positionsWithOffset _ _ := rfl
  positionsOf_positionsWithOffset _ _ := rfl

/-- A term that occurs in the first documents, at one position. -/
def ListPostings.inFirst (docs : Nat) (hdocs : docs ≤ TERMINATED) (position : Nat) :
    ListPostings where
  scorer :=
    { hits := (List.range docs).map fun d => (d, 1)
      ascending := List.pairwise_map.mpr List.pairwise_lt_range
      lt_terminated := by
        rw [List.forall_mem_map]
        exact fun d hd => (List.mem_range.mp hd).trans_le hdocs }
  sizeHint := docs
  positions d := if d < docs then [position] else []
  sorted d := by
    split
    · exact List.pairwise_singleton _ _
    · exact List.Pairwise.nil
  length_lt d := by split <;> simp

/-- A term at position 4 and one two positions behind it. -/
def nearPhrase : List (Nat × ListPostings) :=
  [(0, .inFirst 1 (by decide) 4), (2, .inFirst 1 (by decide) 6)]

theorem exact_phrases_at_zero :
    ∃ (m : PhraseScorer ListPostings) (whole : Scorer),
      new ListPostings.sizeHint nearPhrase none (fun _ => 1) 0 = some m ∧
      (0 ∈ whole.docs ↔ (∀ term ∈ nearPhrase, 0 ∈ (stream term.2).docs) ∧
        0 < (places [⟨0, 1, [4]⟩, ⟨2, 1, [6]⟩]).ncard) := by
  obtain ⟨m, whole, hnew, hdocs, -⟩ := exact_phrases ListPostings.sizeHint nearPhrase none
    (fun _ => 1) (by decide)
  have hfits : FitsAt nearPhrase 0 := by
    unfold FitsAt
    decide
  exact ⟨m, whole, hnew, hdocs 0 hfits⟩

/-- Two terms next to each other, in a phrase that has the second 2^32 + 1 positions behind the
    first. -/
def farPhrase : List (Nat × ListPostings) :=
  [(0, .inFirst 1 (by decide) 0), (2 ^ 32 + 1, .inFirst 1 (by decide) 1)]

/-- An offset that does not fit into 32 bits: the document is found, without a place of the
    phrase. -/
theorem exact_phrases_wrapped :
    ∃ m : PhraseScorer ListPostings, new ListPostings.sizeHint farPhrase
        (some fun _ count => count) (fun _ => 1) 0 = some m ∧
      m.doc = 0 ∧ m.phraseCount = 1 ∧
      places (termsAt ListPostings.sizeHint farPhrase 0) = ∅ := by
  obtain ⟨m, whole, hnew, hdocs, hcalls⟩ := scorer_behaves ListPostings.sizeHint farPhrase
    (some fun _ count => count) (fun _ => 1) 0 (by decide)
  obtain ⟨m', hrun, hdoc, hcount⟩ := hcalls [] trivial
  obtain rfl : m = m' := (Prod.mk.inj (Option.some.inj hrun)).2
  have hmatches : documentMatches 0 (termsAt ListPostings.sizeHint farPhrase 0) = [1] := by
    rw [documentMatches, List.mergeSort_of_pairwise (by decide)]
    decide
  -- the document is the first one that is found
  have hfirst : m.doc = 0 := by
    rw [hdoc]
    refine (whole.doc_eq_iff (by decide)).mpr ⟨?_, fun e he => absurd he (Nat.not_lt_zero e)⟩
    rw [← Scorer.mem_docs_iff, hdocs, hmatches]
    exact ⟨by decide, List.cons_ne_nil _ _⟩
  refine ⟨m, hnew, hfirst, ?_, ?_⟩
  · rw [hcount (by rw [hfirst]; decide) rfl, hfirst, hmatches]
    rfl
  · rw [Set.eq_empty_iff_forall_notMem]
    intro p hp
    obtain ⟨first, hmem, hplace⟩ := hp _ List.mem_cons_self
    obtain ⟨last, hmem', hplace'⟩ := hp _ (List.mem_cons_of_mem _ List.mem_cons_self)
    obtain rfl : first = 0 := List.mem_singleton.mp hmem
    obtain rfl : last = 1 := List.mem_singleton.mp hmem'
    have hzero : ((0 : Nat) : ℤ) = p + (0 : Nat) := hplace
    have hone : ((1 : Nat) : ℤ) = p + (2 ^ 32 + 1 : Nat) := hplace'
    omega

/-! ### Sloppy phrases -/

section Sloppy

/-- One step of a phrase: forward, and not further than the slop. -/
def Step (slop q q' : Nat) : Prop := q ≤ q' ∧ q' ≤ q + slop

/-- The terms can be placed in the order of the phrase: shifted positions, one of each term, each
    within the slop of the one in front of it. -/
def SloppyPlaced (slop : Nat) (terms : List PhraseTerm) : Prop :=
  ∃ qs, List.Forall₂ (fun term q => q ∈ term.shifted (lastOffset terms)) terms qs ∧
    qs.IsChain (Step slop)

/-- A chain through lists is a list of its positions. -/
theorem chain_iff {step : List Nat → Nat → Nat → Prop} {R : Nat → Nat → Prop}
    (hstep : ∀ right l r, step right l r → r ∈ right ∧ R l r) (l : Nat) (others : List (List Nat))
    (h : Chain step l others) :
    ∃ rs, List.Forall₂ (fun ps r => r ∈ ps) others rs ∧ (l :: rs).IsChain R := by
  induction others generalizing l with
  | nil => exact ⟨[], .nil, List.isChain_singleton _⟩
  | cons right others ih =>
    obtain ⟨r, hr, hrest⟩ := h
    obtain ⟨rs, hrs, hchain⟩ := ih r hrest
    obtain ⟨hmem, hlr⟩ := hstep right l r hr
    exact ⟨r :: rs, .cons hmem hrs, List.isChain_cons_cons.mpr ⟨hlr, hchain⟩⟩

variable {slop : Nat} {terms : List PhraseTerm}

/-- What the scorer finds can be placed, but in the order of the size hints. -/
theorem Fits.placed_of_matches (h : Fits terms) (hne : documentMatches slop terms ≠ []) :
    ∃ qs, List.Forall₂ (fun term q => q ∈ term.shifted (lastOffset terms)) (sortedTerms terms) qs ∧
      qs.IsChain (Step slop) := by
  have hlists := h.sorted_lists
  rw [h.documentMatches_eq] at hne
  cases hsorted : sortedTerms terms with
  | nil => exact ⟨[], .nil, List.isChain_nil⟩
  | cons first others =>
    rw [hsorted, List.map_cons] at hlists hne
    obtain ⟨hfirst, hothers⟩ := List.forall_mem_cons.mp hlists
    obtain ⟨q, hq, hchain⟩ := (phraseMatches_ne_nil_iff slop hfirst hothers).mp hne
    obtain ⟨qs, hqs, hstep⟩ := chain_iff (R := Step slop)
      (fun right l r hnearest => ⟨hnearest.mem, hnearest.le, hnearest.within⟩) q _ hchain
    rw [List.forall₂_map_left_iff] at hqs
    exact ⟨q :: qs, .cons hq hqs, hstep⟩

/-! #### Two terms -/

theorem nearest_of_step {right : List Nat} {q r : Nat} (hr : r ∈ right) (hstep : Step slop q r) :
    ∃ r', Nearest slop right q r' := by
  -- the first position on the right that is not in front
  have hex : ∃ r, r ∈ right ∧ q ≤ r := ⟨r, hr, hstep.1⟩
  classical
  obtain ⟨hmem, hle⟩ := Nat.find_spec hex
  refine ⟨Nat.find hex, hmem, hle, ?_, fun r' hr' hle' => Nat.find_min' hex ⟨hr', hle'⟩⟩
  exact (Nat.find_min' hex ⟨hr, hstep.1⟩).trans hstep.2

/-- Two terms whose postings are in the order of the phrase are found whenever they can be
    placed. -/
theorem Fits.matches_iff_of_two {first second : PhraseTerm} (h : Fits [first, second])
    (hhint : first.sizeHint ≤ second.sizeHint) :
    documentMatches slop [first, second] ≠ [] ↔ SloppyPlaced slop [first, second] := by
  have hsorted : sortedTerms [first, second] = [first, second] :=
    List.mergeSort_of_pairwise (by simpa using hhint)
  constructor
  · intro hne
    obtain ⟨qs, hqs, hchain⟩ := h.placed_of_matches hne
    rw [hsorted] at hqs
    exact ⟨qs, hqs, hchain⟩
  · rintro ⟨qs, hqs, hchain⟩
    have hlists := h.sorted_lists
    rw [h.documentMatches_eq, hsorted]
    rw [hsorted, List.map_cons, List.map_cons, List.map_nil] at *
    obtain ⟨hfirst, hothers⟩ := List.forall_mem_cons.mp hlists
    cases hqs with
    | cons hq hrest =>
    cases hrest with
    | cons hr hnil =>
    obtain ⟨hstep, -⟩ := List.isChain_cons_cons.mp hchain
    obtain ⟨r', hnearest⟩ := nearest_of_step hr hstep
    exact (phraseMatches_ne_nil_iff slop hfirst hothers).mpr ⟨_, hq, r', hnearest, trivial⟩

/-! #### More terms, and postings in another order -/

/-- A phrase without its document: the offset and the size hint of each term. -/
abbrev Profile := List (Nat × Nat)

def profileOf (terms : List PhraseTerm) : Profile :=
  terms.map fun term => (term.offset, term.sizeHint)

def Profile.last (profile : Profile) : Nat := (profile.map Prod.fst).foldr max 0

/-- The postings are at least in the order of the phrase. -/
def Profile.InOrder (profile : Profile) : Prop := profile.Pairwise fun a b => a.2 ≤ b.2

/-- In every document whose positions fit, the terms are found exactly if they can be placed. -/
def FindsAll (slop : Nat) (profile : Profile) : Prop :=
  ∀ terms, profileOf terms = profile → Fits terms →
    (documentMatches slop terms ≠ [] ↔ SloppyPlaced slop terms)

/-- The terms of a profile at some shifted positions. -/
def placedAt (last : Nat) (xs : List ((Nat × Nat) × List Nat)) : List PhraseTerm :=
  xs.map fun x => ⟨x.1.1, x.1.2, x.2.map fun q => q - (last - x.1.1)⟩

section PlacedAt

variable {last : Nat} {xs : List ((Nat × Nat) × List Nat)}

theorem profileOf_placedAt : profileOf (placedAt last xs) = xs.map Prod.fst := by
  simp [profileOf, placedAt]

theorem lastOffset_placedAt : lastOffset (placedAt last xs) = Profile.last (xs.map Prod.fst) := by
  rw [lastOffset, placedAt, List.map_map, Profile.last, List.map_map]
  rfl

/-- Behind the last offset every shifted position is one of a document. -/
theorem shifted_placedAt (x : (Nat × Nat) × List Nat) (hge : ∀ q ∈ x.2, last ≤ q) :
    PhraseTerm.shifted last ⟨x.1.1, x.1.2, x.2.map fun q => q - (last - x.1.1)⟩ = x.2 := by
  show (x.2.map fun q => q - (last - x.1.1)).map (fun position => position + (last - x.1.1)) = x.2
  rw [List.map_map]
  refine (List.map_congr_left fun q hq => ?_).trans (List.map_id _)
  have hle := hge q hq
  show q - (last - x.1.1) + (last - x.1.1) = q
  omega

theorem fits_placedAt (hlast : Profile.last (xs.map Prod.fst) = last)
    (hsorted : ∀ x ∈ xs, x.2.Pairwise (· < ·))
    (hbound : ∀ x ∈ xs, ∀ q ∈ x.2, last ≤ q ∧ q < 2 ^ 32) : Fits (placedAt last xs) where
  sorted := by
    rw [placedAt, List.forall_mem_map]
    intro x hx
    rw [List.pairwise_map]
    refine (hsorted x hx).imp_of_mem fun {q q'} hq hq' hlt => ?_
    have hle := (hbound x hx q hq).1
    omega
  lt := by
    rw [lastOffset_placedAt, hlast, placedAt, List.forall_mem_map]
    intro x hx position hposition
    obtain ⟨q, hq, rfl⟩ := List.mem_map.mp hposition
    obtain ⟨hle, hlt⟩ := hbound x hx q hq
    show q - (last - x.1.1) + (last - x.1.1) < 2 ^ 32
    omega

/-- Choosing a shifted position of each term places the phrase. -/
theorem placed_placedAt {slop : Nat} (hlast : Profile.last (xs.map Prod.fst) = last)
    (hbound : ∀ x ∈ xs, ∀ q ∈ x.2, last ≤ q ∧ q < 2 ^ 32) (qs : List Nat)
    (hqs : List.Forall₂ (fun x q => q ∈ x.2) xs qs) (hchain : qs.IsChain (Step slop)) :
    SloppyPlaced slop (placedAt last xs) := by
  refine ⟨qs, ?_, hchain⟩
  rw [lastOffset_placedAt, hlast, placedAt, List.forall₂_map_left_iff]
  clear hchain hlast
  induction hqs with
  | nil => exact .nil
  | cons hq hrest ih =>
    obtain ⟨hfirst, hothers⟩ := List.forall_mem_cons.mp hbound
    refine .cons ?_ (ih hothers)
    rw [shifted_placedAt _ fun q hq => (hfirst q hq).1]
    exact hq

end PlacedAt

/-- Where each term has one position only, the positions are in the order of the terms. -/
theorem pairwise_of_chain {slop last : Nat} {terms : List PhraseTerm} {qs : List Nat}
    (value : PhraseTerm → Nat)
    (hqs : List.Forall₂ (fun term q => q ∈ PhraseTerm.shifted last term) terms qs)
    (hvalue : ∀ term ∈ terms, ∀ q ∈ term.shifted last, q = value term)
    (hchain : qs.IsChain (Step slop)) :
    terms.Pairwise fun a b => value a ≤ value b := by
  have hmap : qs = terms.map value := by
    clear hchain
    induction hqs with
    | nil => rfl
    | cons hq _ ih =>
      obtain ⟨hfirst, hothers⟩ := List.forall_mem_cons.mp hvalue
      rw [List.map_cons, ← hfirst _ hq, ← ih hothers]
  have hle : qs.IsChain (· ≤ ·) := hchain.imp fun _ _ hstep => hstep.1
  rw [hmap, List.isChain_iff_pairwise, List.pairwise_map] at hle
  exact hle

/-- Postings that are not in the order of the phrase: with the terms in front of a long one at one
    place and those behind it at the next, they are not found. -/
theorem not_findsAll_of_not_inOrder {slop : Nat} (hslop : 1 ≤ slop) {profile : Profile}
    (hfits : profile.last + slop + 1 < 2 ^ 32) (horder : ¬profile.InOrder) :
    ¬FindsAll slop profile := by
  intro hfinds
  -- a term of `as` has longer postings than one of `bs` behind it
  obtain ⟨as, bs, a, b, hprofile, ha, hb, hlt⟩ : ∃ as bs a b, profile = as ++ bs ∧ a ∈ as ∧
      b ∈ bs ∧ b.2 < a.2 := by
    rw [Profile.InOrder, List.pairwise_iff_getElem] at horder
    push Not at horder
    obtain ⟨i, j, hi, hj, hij, hlt⟩ := horder
    refine ⟨profile.take (i + 1), profile.drop (i + 1), profile[i], profile[j],
      (List.take_append_drop _ _).symm, ?_, ?_, hlt⟩
    · rw [List.mem_take_iff_getElem]
      exact ⟨i, by omega, rfl⟩
    · rw [List.mem_drop_iff_getElem]
      exact ⟨j - (i + 1), by omega, by congr 1; omega⟩
  set last := profile.last with hlast
  set xs := as.map (fun x => (x, [last])) ++ bs.map fun x => (x, [last + 1]) with hxs
  have hprofile' : xs.map Prod.fst = profile := by
    rw [hxs, List.map_append, List.map_map, List.map_map, hprofile]
    exact congrArg₂ _ (List.map_id _) (List.map_id _)
  have hone : ∀ x ∈ xs, x.2 = [last] ∨ x.2 = [last + 1] := by
    rw [hxs, List.forall_mem_append, List.forall_mem_map, List.forall_mem_map]
    exact ⟨fun _ _ => .inl rfl, fun _ _ => .inr rfl⟩
  have hbound : ∀ x ∈ xs, ∀ q ∈ x.2, last ≤ q ∧ q < 2 ^ 32 := by
    intro x hx q hq
    rcases hone x hx with h | h
    · rw [h, List.mem_singleton] at hq
      omega
    · rw [h, List.mem_singleton] at hq
      omega
  have hsorted : ∀ x ∈ xs, x.2.Pairwise (· < ·) := by
    intro x hx
    rcases hone x hx with h | h <;> rw [h] <;> exact List.pairwise_singleton _ _
  have hlast' : Profile.last (xs.map Prod.fst) = last := by rw [hprofile']
  have hfit := fits_placedAt hlast' hsorted hbound
  have hplaced : SloppyPlaced slop (placedAt last xs) := by
    refine placed_placedAt hlast' hbound
      (as.map (fun _ => last) ++ bs.map fun _ => last + 1) ?_ ?_
    · refine List.rel_append ?_ ?_
      · rw [List.forall₂_map_left_iff, List.forall₂_map_right_iff, List.forall₂_same]
        exact fun _ _ => List.mem_cons_self
      · rw [List.forall₂_map_left_iff, List.forall₂_map_right_iff, List.forall₂_same]
        exact fun _ _ => List.mem_cons_self
    · refine List.Pairwise.isChain (List.pairwise_append.mpr ⟨?_, ?_, ?_⟩)
      · rw [List.pairwise_map]
        exact List.pairwise_of_forall fun _ _ => ⟨le_refl _, by omega⟩
      · rw [List.pairwise_map]
        exact List.pairwise_of_forall fun _ _ => ⟨le_refl _, by omega⟩
      · intro q hq q' hq'
        obtain ⟨_, -, rfl⟩ := List.mem_map.mp hq
        obtain ⟨_, -, rfl⟩ := List.mem_map.mp hq'
        exact ⟨by omega, by omega⟩
  have hfound := (hfinds _ (profileOf_placedAt.trans hprofile') hfit).mpr hplaced
  obtain ⟨qs, hqs, hchain⟩ := hfit.placed_of_matches hfound
  rw [lastOffset_placedAt, hlast'] at hqs
  -- in the order of the size hints neither of the two terms may come first
  set value : PhraseTerm → Nat := fun term => (term.shifted last).headD 0 with hvalue
  have hshifted : ∀ x ∈ xs, PhraseTerm.shifted last
      ⟨x.1.1, x.1.2, x.2.map fun q => q - (last - x.1.1)⟩ = x.2 := fun x hx =>
    shifted_placedAt x fun q hq => (hbound x hx q hq).1
  have hsingle : ∀ term ∈ sortedTerms (placedAt last xs), ∀ q ∈ term.shifted last,
      q = value term := by
    intro term hterm q hq
    rw [(sortedTerms_perm _).mem_iff, placedAt, List.mem_map] at hterm
    obtain ⟨x, hx, rfl⟩ := hterm
    rw [hvalue]
    rcases hone x hx with h | h
    · rw [h] at hq ⊢
      exact List.mem_singleton.mp hq
    · rw [h] at hq ⊢
      exact List.mem_singleton.mp hq
  have hvalues := pairwise_of_chain value hqs hsingle hchain
  have hhints : (sortedTerms (placedAt last xs)).Pairwise fun s t => s.sizeHint ≤ t.sizeHint :=
    (List.pairwise_mergeSort (fun _ _ _ h h' => by simp only [decide_eq_true_iff] at *; omega)
      (fun s t => by simpa using Nat.le_total _ _) _).imp fun h => by simpa using h
  let Ordered (s t : PhraseTerm) : Prop := s.sizeHint ≤ t.sizeHint ∧ value s ≤ value t
  have hordered : (sortedTerms (placedAt last xs)).Pairwise fun s t => Ordered s t ∨ Ordered t s :=
    (hhints.and hvalues).imp fun h => .inl h
  have : Std.Symm fun s t => Ordered s t ∨ Ordered t s := ⟨fun _ _ h => h.symm⟩
  have hmem : ∀ x ∈ xs, (⟨x.1.1, x.1.2, x.2.map fun q => q - (last - x.1.1)⟩ : PhraseTerm) ∈
      sortedTerms (placedAt last xs) := fun x hx =>
    (sortedTerms_perm _).mem_iff.mpr (List.mem_map_of_mem hx)
  have hxa : (a, [last]) ∈ xs := List.mem_append_left _ (List.mem_map_of_mem ha)
  have hxb : (b, [last + 1]) ∈ xs := List.mem_append_right _ (List.mem_map_of_mem hb)
  have hva : value ⟨a.1, a.2, [last].map fun q => q - (last - a.1)⟩ = last := by
    rw [hvalue]
    dsimp only
    rw [hshifted _ hxa]
    rfl
  have hvb : value ⟨b.1, b.2, [last + 1].map fun q => q - (last - b.1)⟩ = last + 1 := by
    rw [hvalue]
    dsimp only
    rw [hshifted _ hxb]
    rfl
  rcases hordered.forall (hmem _ hxa) (hmem _ hxb) (fun heq => by
    rw [heq, hvb] at hva
    omega) with ⟨hhint, -⟩ | ⟨-, hle⟩
  · exact absurd hhint (not_le.mpr hlt)
  · rw [hva, hvb] at hle
    omega

/-- Three terms: the merge takes the position of the second that is nearest to the first, and
    the one further on is lost that reaches the third. -/
theorem not_findsAll_of_three {slop : Nat} (hslop : 1 ≤ slop) {profile : Profile}
    (hfits : profile.last + slop + 1 < 2 ^ 32) (horder : profile.InOrder)
    (hlen : 3 ≤ profile.length) : ¬FindsAll slop profile := by
  intro hfinds
  obtain ⟨a, b, c, rest, rfl⟩ : ∃ a b c rest, profile = a :: b :: c :: rest := by
    match profile, hlen with
    | a :: b :: c :: rest, _ => exact ⟨a, b, c, rest, rfl⟩
  set last := Profile.last (a :: b :: c :: rest) with hlast
  set far := last + slop + 1 with hfar
  set xs := (a, [last]) :: (b, [last, last + 1]) :: (c :: rest).map (fun x => (x, [far])) with hxs
  have hprofile : xs.map Prod.fst = a :: b :: c :: rest := by
    rw [hxs, List.map_cons, List.map_cons, List.map_map]
    exact congrArg (a :: b :: ·) (List.map_id _)
  have hlast' : Profile.last (xs.map Prod.fst) = last := by rw [hprofile]
  have hbound : ∀ x ∈ xs, ∀ q ∈ x.2, last ≤ q ∧ q < 2 ^ 32 := by
    intro x hx q hq
    rcases List.mem_cons.mp hx with rfl | hx
    · rw [List.mem_singleton.mp hq]
      omega
    rcases List.mem_cons.mp hx with rfl | hx
    · rcases List.mem_pair.mp hq with rfl | rfl <;> omega
    · obtain ⟨_, -, rfl⟩ := List.mem_map.mp hx
      rw [List.mem_singleton.mp hq]
      omega
  have hsorted : ∀ x ∈ xs, x.2.Pairwise (· < ·) := by
    rw [hxs, List.forall_mem_cons, List.forall_mem_cons, List.forall_mem_map]
    exact ⟨List.pairwise_singleton _ _, by simp, fun _ _ => List.pairwise_singleton _ _⟩
  have hfit := fits_placedAt hlast' hsorted hbound
  have hplaced : SloppyPlaced slop (placedAt last xs) := by
    refine placed_placedAt hlast' hbound (last :: (last + 1) :: (c :: rest).map fun _ => far) ?_ ?_
    · refine .cons List.mem_cons_self (.cons (List.mem_cons_of_mem _ List.mem_cons_self) ?_)
      rw [List.forall₂_map_left_iff, List.forall₂_map_right_iff, List.forall₂_same]
      exact fun _ _ => List.mem_cons_self
    · have hconst : ((c :: rest).map fun _ => far).Pairwise (Step slop) := by
        rw [List.pairwise_map]
        exact List.pairwise_of_forall fun _ _ => ⟨le_refl _, by omega⟩
      rw [List.isChain_cons_cons, List.map_cons, List.isChain_cons_cons]
      exact ⟨⟨by omega, by omega⟩, ⟨by omega, by omega⟩, hconst.isChain⟩
  have hfound := (hfinds _ (profileOf_placedAt.trans hprofile) hfit).mpr hplaced
  -- the postings are in order, and the lists are merged as they stand
  have hids : sortedTerms (placedAt last xs) = placedAt last xs := by
    refine List.mergeSort_of_pairwise ?_
    have hpairwise : (xs.map Prod.fst).Pairwise fun a b => a.2 ≤ b.2 := hprofile ▸ horder
    rw [List.pairwise_map] at hpairwise
    rw [placedAt, List.pairwise_map]
    exact hpairwise.imp fun h => by simpa using h
  have hlists : (placedAt last xs).map (PhraseTerm.shifted last) = xs.map Prod.snd := by
    rw [placedAt, List.map_map]
    exact List.map_congr_left fun x hx => shifted_placedAt x fun q hq => (hbound x hx q hq).1
  have hsortedLists : ∀ ps ∈ xs.map Prod.snd, ps.Pairwise (· < ·) := by
    rw [List.forall_mem_map]
    exact hsorted
  rw [hfit.documentMatches_eq, hids, lastOffset_placedAt, hlast', hlists] at hfound
  obtain ⟨hfirst, hothers⟩ := List.forall_mem_cons.mp hsortedLists
  obtain ⟨q, hq, r, hnearest, t, hnearest', -⟩ :=
    (phraseMatches_ne_nil_iff slop hfirst hothers).mp hfound
  have hq' := List.mem_singleton.mp hq
  have hr : r ≤ last := hnearest.first last List.mem_cons_self hq'.le
  have ht := List.mem_singleton.mp hnearest'.mem
  have hwithin := hnearest'.within
  omega

/-- **Sloppy phrases.** A phrase scorer finds the documents in which the lists of positions, merged
    in the order of the size hints, have a match. In every document these are the ones in which
    the terms can be placed if there are two terms whose postings are in the order of the phrase,
    and for no other phrase. -/
theorem sloppy_phrases {P : Type} [PositionPostings P] {slop : Nat} (hslop : 1 ≤ slop) :
    (∀ (sizeHint : P → Nat) (termPostings : List (Nat × P))
      (similarityWeightOpt : Option (Nat → Nat → Score)) (fieldnormReader : Nat → Nat),
      2 ≤ termPostings.length → ∃ (m : PhraseScorer P) (whole : Scorer),
        new sizeHint termPostings similarityWeightOpt fieldnormReader slop = some m ∧
        Behaves m whole ∧
        ∀ d, d ∈ whole.docs ↔ (∀ term ∈ termPostings, d ∈ (stream term.2).docs) ∧
          documentMatches slop (termsAt sizeHint termPostings d) ≠ []) ∧
    ∀ profile : Profile, 2 ≤ profile.length →
      (profile.length = 2 ∧ profile.InOrder → FindsAll slop profile) ∧
      (profile.last + slop + 1 < 2 ^ 32 → FindsAll slop profile →
        profile.length = 2 ∧ profile.InOrder) := by
  refine ⟨fun sizeHint termPostings weight fieldnorm hlen => ?_, fun profile hlen => ⟨?_, ?_⟩⟩
  · obtain ⟨m, whole, hnew, hdocs, hcalls⟩ := scorer_behaves sizeHint termPostings weight fieldnorm
      slop hlen
    refine ⟨m, whole, hnew, ⟨?_, fun calls hallowed => ?_⟩, hdocs⟩
    · obtain ⟨m', hrun, hdoc, -⟩ := hcalls [] trivial
      obtain rfl : m = m' := (Prod.mk.inj (Option.some.inj hrun)).2
      exact hdoc
    · obtain ⟨m', hrun, hdoc, -⟩ := hcalls calls hallowed
      exact ⟨m', hrun, hdoc⟩
  · rintro ⟨htwo, horder⟩ terms rfl hfits
    match terms, htwo with
    | [first, second], _ =>
      refine hfits.matches_iff_of_two ?_
      simpa [Profile.InOrder, profileOf] using horder
  · intro hbound hfinds
    by_cases horder : profile.InOrder
    · refine ⟨?_, horder⟩
      by_contra hne
      exact not_findsAll_of_three hslop hbound horder (by omega) hfinds
    · exact absurd hfinds (not_findsAll_of_not_inOrder hslop hbound horder)

theorem sloppy_phrases_two_terms :
    FindsAll 1 [(0, 1), (1, 2)] ∧ ¬FindsAll 1 [(0, 2), (1, 1)] := by
  have h := (sloppy_phrases (P := ListPostings) (le_refl 1)).2
  refine ⟨(h [(0, 1), (1, 2)] (by decide)).1 ⟨rfl, by simp [Profile.InOrder]⟩, fun hfinds => ?_⟩
  have horder := ((h [(0, 2), (1, 1)] (by decide)).2 (by decide) hfinds).2
  exact absurd horder (by simp [Profile.InOrder])

/-- "a x b" for the phrase "a b" with a slop of one, in a segment where "a" has two documents: the
    terms can be placed in document 0, which is not found. -/
theorem sloppy_phrases_other_order :
    let a := ListPostings.inFirst 2 (by decide) 0
    let b := ListPostings.inFirst 1 (by decide) 2
    ∃ m : PhraseScorer ListPostings,
      new ListPostings.sizeHint [(0, a), (1, b)] none (fun _ => 1) 1 = some m ∧
      m.doc = TERMINATED ∧ 0 ∈ a.scorer.docs ∧ 0 ∈ b.scorer.docs ∧
      SloppyPlaced 1 (termsAt ListPostings.sizeHint [(0, a), (1, b)] 0) := by
  intro a b
  obtain ⟨m, whole, hnew, hdocs, hcalls⟩ := scorer_behaves ListPostings.sizeHint
    [(0, a), (1, b)] none (fun _ => 1) 1 (by decide)
  obtain ⟨m', hrun, hdoc, -⟩ := hcalls [] trivial
  obtain rfl : m = m' := (Prod.mk.inj (Option.some.inj hrun)).2
  refine ⟨m, hnew, ?_, by decide, by decide, [1, 2], ?_, ?_⟩
  · -- document 0 is the only one that both have
    rw [hdoc]
    by_contra hne
    have hmem := (whole.mem_docs_iff whole.doc).mpr (by rw [whole.find_doc hne]; rfl)
    obtain ⟨hall, hmatch⟩ := (hdocs whole.doc).mp hmem
    have hb : whole.doc ∈ [0] := hall (1, b) (List.mem_cons_of_mem _ List.mem_cons_self)
    rw [List.mem_singleton.mp hb] at hmatch
    refine hmatch ?_
    have hsorted : (termsAt ListPostings.sizeHint [(0, a), (1, b)] 0).mergeSort
        (fun s t => s.sizeHint ≤ t.sizeHint) = [⟨1, 1, [2]⟩, ⟨0, 2, [0]⟩] := by
      show [(⟨0, 2, [0]⟩ : PhraseTerm), ⟨1, 1, [2]⟩].mergeSort _ = _
      simp [List.mergeSort, List.MergeSort.Internal.splitInTwo]
    rw [documentMatches, hsorted]
    decide
  · exact .cons (by decide) (.cons (by decide) .nil)
  · exact List.isChain_cons_cons.mpr ⟨⟨by decide, by decide⟩, List.isChain_singleton _⟩

end Sloppy

end TeaclaveCrates.Tantivy
