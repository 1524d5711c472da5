import Mathlib.Tactic.IntervalCases
import TeaclaveCrates.Tantivy.Combinators

namespace TeaclaveCrates.Tantivy

open TeaclaveCrates.Lib
open LawfulScoredDocSet (stream)
open LawfulScoredDocSet (doc_eq doc_le_terminated doc_seek le_doc_seek score_eq stream_seek)
open ScoredDocSet (doc)
open ScoringDocSet (scoreMut scoreMut_fst stream_scoreMut)

/-!
# Intersections, and the combinators on sets

The leapfrog loops of `intersection.rs` over doc sets of two kinds.

* `IntersectionScorer` — the state, with `new`, `advance`, `seek` and `score`.
* `goToFirstDoc_spec`, `chase_spec`, `settle_spec` — where the loops stop.
* `common` — the documents that all streams have; an intersection is a `LawfulScorerMachine` that
  stands for them.
* `traits` — what no call changes about the docsets.
* `combinators_refine` — any sequence of calls behaves as on the intersection, the difference and
  the required set.
-/

/-- `Intersection`: the two rarest doc sets and the others, which may be of another kind. -/
structure IntersectionScorer (S O : Type) where
  left : S
  right : S
  others : List O

namespace IntersectionScorer

variable {S O X : Type}

/-! ### The calls -/

/-- `seek` in the loops: the docset, and if it goes past the candidate what the call returned and
    the document it stands on. -/
def seekOne [ScoredDocSet S] (candidate : Nat) (docset : S) : S × Option (Nat × Nat) :=
  let (seekDoc, docset) := ScoredDocSet.seek docset candidate
  (docset, if candidate < seekDoc then some (seekDoc, doc docset) else none)

/-- One pass over a list of doc sets, up to the first that goes past the candidate. -/
def seekEach [ScoredDocSet S] (candidate : Nat) : List S → List S × Option (Nat × Nat)
  | [] => ([], none)
  | docset :: docsets =>
    match seekOne candidate docset with
    | (docset, some past) => (docset :: docsets, some past)
    | (docset, none) =>
      let (docsets, past) := seekEach candidate docsets
      (docset :: docsets, past)

/-- The loop of `go_to_first_doc`, over any collection that one pass goes through. -/
def goToFirstDoc (pass : Nat → X → X × Option (Nat × Nat)) : Nat → Nat → X → Option (Nat × X)
  | 0, _, _ => none
  | fuel + 1, candidate, docsets =>
    match pass candidate docsets with
    | (docsets, none) => some (candidate, docsets)
    | (docsets, some (_, doc)) => goToFirstDoc pass fuel doc docsets

/-- `Intersection::new`, which sorts by the size hints. -/
def new [ScoredDocSet S] (sizeHint : S → Nat) (docsets : List S) :
    Option (IntersectionScorer S S) :=
  if docsets.length < 2 then none
  else
    let docsets := docsets.mergeSort fun a b => sizeHint a ≤ sizeHint b
    let candidate := (docsets.map doc).foldr max 0
    match goToFirstDoc seekEach ROUNDS candidate docsets with
    | some (_, left :: right :: others) => some ⟨left, right, others⟩
    | _ => none

section Calls

variable [ScoredDocSet S] [ScoredDocSet O]

/-- "In the first part we look for a document in the intersection of the two rarest `DocSet`". -/
def chase : Nat → Nat → S → S → Option (Nat × S × S)
  | 0, _, _, _ => none
  | fuel + 1, candidate, left, right =>
    let (rightDoc, right) := ScoredDocSet.seek right candidate
    let (candidate, left) := ScoredDocSet.seek left rightDoc
    if candidate = rightDoc then some (candidate, left, right)
    else chase fuel candidate left right

/-- The outer loop of `advance`. -/
def settle : Nat → Nat → IntersectionScorer S O → Option (Nat × IntersectionScorer S O)
  | 0, _, _ => none
  | fuel + 1, candidate, m => do
    let (candidate, left, right) ← chase ROUNDS candidate m.left m.right
    match seekEach candidate m.others with
    | (others, none) => some (candidate, ⟨left, right, others⟩)
    | (others, some (seekDoc, _)) =>
      let (candidate, left) := ScoredDocSet.seek left seekDoc
      settle fuel candidate ⟨left, right, others⟩

/-- To the next document that all have. -/
def advance (m : IntersectionScorer S O) : Option (Nat × IntersectionScorer S O) :=
  let (candidate, left) := ScoredDocSet.advance m.left
  settle ROUNDS candidate { m with left := left }

/-- One pass over all doc sets of the intersection, in `seek`. -/
def seekAll (candidate : Nat) (m : IntersectionScorer S O) :
    IntersectionScorer S O × Option (Nat × Nat) :=
  match seekOne candidate m.left with
  | (left, some past) => ({ m with left := left }, some past)
  | (left, none) =>
    match seekOne candidate m.right with
    | (right, some past) => (⟨left, right, m.others⟩, some past)
    | (right, none) =>
      let (others, past) := seekEach candidate m.others
      (⟨left, right, others⟩, past)

/-- The documents that the doc sets stand on. -/
def docs (m : IntersectionScorer S O) : List Nat :=
  doc m.left :: doc m.right :: m.others.map doc

/-- To the first document from the target on that all have. -/
def seek (m : IntersectionScorer S O) (target : Nat) : Option (Nat × IntersectionScorer S O) :=
  let m := { m with left := (ScoredDocSet.seek m.left target).2 }
  goToFirstDoc seekAll ROUNDS (m.docs.foldr max 0) m

end Calls

/-- The scores of a list of scorers, added up. -/
def scoreEach [ScoringDocSet O] : List O → Score × List O
  | [] => (0, [])
  | scorer :: scorers =>
    let (score, scorer) := scoreMut scorer
    let (sum, scorers) := scoreEach scorers
    (score + sum, scorer :: scorers)

/-- The sum of all scores. -/
def score [ScoringDocSet S] [ScoringDocSet O] (m : IntersectionScorer S O) :
    Score × IntersectionScorer S O :=
  let (leftScore, left) := scoreMut m.left
  let (rightScore, right) := scoreMut m.right
  let (otherScores, others) := scoreEach m.others
  (leftScore + rightScore + otherScores, ⟨left, right, others⟩)

instance [ScoringDocSet S] [ScoringDocSet O] : ScorerMachine (IntersectionScorer S O) where
  doc m := doc m.left
  advance := advance
  seek := seek
  score m := some m.score

/-! ### The loops on what is left of the streams -/

section Loops

open Intersection (seekPass AllHave AgreeFrom)

variable [LawfulScoredDocSet S] [LawfulScoredDocSet O]

/-- What a pass reports, from what the pass over the streams reports. -/
def reported (past : Option Nat) : Option (Nat × Nat) := past.map fun doc => (doc, doc)

variable {c : Nat}

theorem seekOne_spec (hc : c ≤ TERMINATED) (docset : S) (hle : (stream docset).doc ≤ c) :
    stream (seekOne c docset).1 = (stream docset).seek c ∧
      (seekOne c docset).2 = reported
        (if c < ((stream docset).seek c).doc then some ((stream docset).seek c).doc else none) := by
  have hle' : doc docset ≤ c := doc_eq docset ▸ hle
  have hdoc := doc_seek docset hle' hc
  have hfst := LawfulScoredDocSet.seek_fst docset c hle' hc
  refine ⟨stream_seek docset c hle' hc, ?_⟩
  show (if c < (ScoredDocSet.seek docset c).1 then
    some ((ScoredDocSet.seek docset c).1, doc (ScoredDocSet.seek docset c).2)
      else none) = _
  rw [hdoc, hfst]
  split <;> rfl

/-- A pass over doc sets is the pass over the streams they stand for. -/
theorem seekEach_spec (hc : c ≤ TERMINATED) (docsets : List S)
    (hle : ∀ t ∈ docsets.map stream, t.doc ≤ c) :
    (seekEach c docsets).1.map stream = (seekPass c (docsets.map stream)).1 ∧
      (seekEach c docsets).2 = reported (seekPass c (docsets.map stream)).2 := by
  induction docsets with
  | nil => exact ⟨rfl, rfl⟩
  | cons docset docsets ih =>
    obtain ⟨hstream, hpast⟩ := seekOne_spec hc docset (hle _ List.mem_cons_self)
    obtain ⟨hrest, hreported⟩ := ih fun t ht => hle t (List.mem_cons_of_mem _ ht)
    rcases hone : seekOne c docset with ⟨moved, past⟩
    rw [hone] at hstream hpast
    rw [List.map_cons, seekEach, seekPass, hone]
    by_cases hlt : c < ((stream docset).seek c).doc
    · subst hpast
      simp [hlt, reported, hstream]
    · subst hpast
      simp only [if_neg hlt, reported, Option.map_none, List.map_cons, hstream, hrest, true_and]
      exact hreported

variable {ts ss : List Scorer}

/-- Behind a pass, no stream is in front of where the next one starts. -/
theorem doc_le_of_seekPass {n : Nat} (hle : ∀ t ∈ ss, t.doc ≤ c)
    (h : seekPass c ss = (ts, some n)) : ∀ t ∈ ts, t.doc ≤ n := by
  have hcn := (Intersection.lt_of_seekPass_eq h).1
  induction ss generalizing ts with
  | nil => cases h
  | cons s rest ih =>
    have hrest : ∀ t ∈ rest, t.doc ≤ c := fun t ht => hle t (List.mem_cons_of_mem _ ht)
    rw [seekPass] at h
    by_cases hlt : c < (s.seek c).doc
    · simp only [if_pos hlt, Prod.mk.injEq, Option.some.injEq] at h
      obtain ⟨rfl, hn⟩ := h
      intro t ht
      rcases List.mem_cons.mp ht with rfl | ht
      · exact hn.le
      · exact (hrest t ht).trans hcn.le
    · simp only [if_neg hlt, Prod.mk.injEq] at h
      obtain ⟨rfl, hn⟩ := h
      intro t ht
      rcases List.mem_cons.mp ht with rfl | ht
      · exact (not_lt.mp hlt).trans hcn.le
      · exact ih hrest (Prod.ext rfl hn) t ht

/-- **The loop of `go_to_first_doc`** returns, and moves the streams as the one over lists does. -/
theorem goToFirstDoc_spec (view : X → List Scorer) (pass : Nat → X → X × Option (Nat × Nat))
    (hpass : ∀ c x, c ≤ TERMINATED → (∀ t ∈ view x, t.doc ≤ c) →
      view (pass c x).1 = (seekPass c (view x)).1 ∧
        (pass c x).2 = reported (seekPass c (view x)).2)
    (fuel c : Nat) (x : X) (hc : c ≤ TERMINATED) (hle : ∀ t ∈ view x, t.doc ≤ c)
    (hfuel : TERMINATED - c < fuel) :
    ∃ x', goToFirstDoc pass fuel c x = some ((Intersection.goToFirstDoc (view x) c).2, x') ∧
      view x' = (Intersection.goToFirstDoc (view x) c).1 := by
  induction fuel generalizing c x with
  | zero => exact absurd hfuel (Nat.not_lt_zero _)
  | succ fuel ih =>
    obtain ⟨hview, hreported⟩ := hpass c x hc hle
    cases hnext : (seekPass c (view x)).2 with
    | none =>
      have hsplit : seekPass c (view x) = (view (pass c x).1, none) := Prod.ext hview.symm hnext
      rw [hnext] at hreported
      refine ⟨(pass c x).1, ?_, ?_⟩
      · rw [goToFirstDoc, show pass c x = ((pass c x).1, none) from Prod.ext rfl hreported,
          Intersection.goToFirstDoc_of_none hsplit]
      · rw [Intersection.goToFirstDoc_of_none hsplit]
    | some n =>
      -- a stream went past the candidate, and the loop starts over at its document
      have hsplit : seekPass c (view x) = (view (pass c x).1, some n) := Prod.ext hview.symm hnext
      rw [hnext] at hreported
      obtain ⟨hcn, hn⟩ := Intersection.lt_of_seekPass_eq hsplit
      obtain ⟨x', hrun, hview'⟩ := ih n (pass c x).1 hn (doc_le_of_seekPass hle hsplit)
        (by omega)
      rw [← Intersection.goToFirstDoc_of_some hsplit] at hrun hview'
      refine ⟨x', ?_, hview'⟩
      rw [goToFirstDoc, show pass c x = ((pass c x).1, some (n, n)) from Prod.ext rfl hreported]
      exact hrun

/-! ### The documents that all streams have -/

/-- What an intersection gives to a document. -/
def common (ss : List Scorer) (d : Nat) : Option Score :=
  if AllHave ss d then some (Intersection.total ss d) else none

/-- Moving the streams to a document that is not behind a common one keeps the common ones. -/
theorem common_of_reached (hagree : AgreeFrom c ss ts) (hreached : ∃ t ∈ ts, t.doc = c)
    (hgap : ∀ e < c, ¬AllHave ss e) (d : Nat) :
    common ts d = common ss d := by
  by_cases hd : d < c
  · obtain ⟨t, ht, hdoc⟩ := hreached
    have hnone : ¬AllHave ts d := by
      intro hall
      have hsome := hall t ht
      rw [t.find_eq_none_of_lt_doc (by rw [hdoc]; exact hd)] at hsome
      cases hsome
    simp [common, hnone, (hgap d hd)]
  · rw [common, hagree.total_eq (not_lt.mp hd)]
    exact if_congr (hagree.allHave_iff (not_lt.mp hd)) rfl rfl

/-- Nothing is common in front of the first stream. -/
theorem not_allHave_of_lt_doc {s : Scorer} (hs : s ∈ ss) {e : Nat} (he : e < s.doc) :
    ¬AllHave ss e := by
  intro hall
  have hsome := hall s hs
  rw [s.find_eq_none_of_lt_doc he] at hsome
  cases hsome

theorem common_seek (s : Scorer) (ss : List Scorer) (t d : Nat) :
    common (s.seek t :: ss) d = if d < t then none else common (s :: ss) d := by
  by_cases hd : d < t
  · have hnone : ¬AllHave (s.seek t :: ss) d := by
      intro hall
      have hsome := hall _ List.mem_cons_self
      rw [Scorer.find_seek, if_pos hd] at hsome
      cases hsome
    simp [hd, common, hnone]
  · have hagree : AgreeFrom d (s :: ss) (s.seek t :: ss) := by
      refine .cons (fun e he => ?_) (AgreeFrom.refl _ _)
      rw [Scorer.find_seek, if_neg (by omega)]
    rw [if_neg hd, common, hagree.total_eq (le_refl d)]
    exact if_congr (hagree.allHave_iff (le_refl d)) rfl rfl

theorem common_advance (s : Scorer) (ss : List Scorer) (hdoc : s.doc ≠ TERMINATED) (d : Nat) :
    common (s.advance :: ss) d = if d ≤ s.doc then none else common (s :: ss) d := by
  by_cases hd : d ≤ s.doc
  · have hnone : ¬AllHave (s.advance :: ss) d := by
      intro hall
      have hsome := hall _ List.mem_cons_self
      rw [Scorer.find_advance _ hdoc, if_pos hd] at hsome
      cases hsome
    simp [hd, common, hnone]
  · have hagree : AgreeFrom d (s :: ss) (s.advance :: ss) := by
      refine .cons (fun e he => ?_) (AgreeFrom.refl _ _)
      rw [Scorer.find_advance _ hdoc, if_neg (by omega)]
    rw [if_neg hd, common, hagree.total_eq (le_refl d)]
    exact if_congr (hagree.allHave_iff (le_refl d)) rfl rfl

theorem common_perm (h : ss.Perm ts) (d : Nat) :
    common ss d = common ts d := by
  rw [common, Intersection.total_perm h]
  exact if_congr (Intersection.allHave_perm h d) rfl rfl

/-! ### One call -/

/-- What is left of the streams. -/
def view (m : IntersectionScorer S O) : Intersection :=
  ⟨stream m.left, stream m.right, m.others.map stream⟩

/-- A pass in `seek` goes through the two rarest doc sets and then through the others. -/
theorem seekAll_spec (c : Nat) (m : IntersectionScorer S O) (hc : c ≤ TERMINATED)
    (hle : ∀ t ∈ m.view.docsets, t.doc ≤ c) :
    (seekAll c m).1.view.docsets = (seekPass c m.view.docsets).1 ∧
      (seekAll c m).2 = reported (seekPass c m.view.docsets).2 := by
  obtain ⟨hleft, hpastLeft⟩ := seekOne_spec hc m.left (hle _ List.mem_cons_self)
  obtain ⟨hright, hpastRight⟩ := seekOne_spec hc m.right
    (hle _ (List.mem_cons_of_mem _ List.mem_cons_self))
  obtain ⟨hothers, hpast⟩ := seekEach_spec hc m.others fun t ht =>
    hle t (List.mem_cons_of_mem _ (List.mem_cons_of_mem _ ht))
  rcases honeLeft : seekOne c m.left with ⟨left, pastLeft⟩
  rcases honeRight : seekOne c m.right with ⟨right, pastRight⟩
  rw [honeLeft] at hleft hpastLeft
  rw [honeRight] at hright hpastRight
  have hdocsets : m.view.docsets = stream m.left :: stream m.right :: m.others.map stream := rfl
  rw [hdocsets, seekAll, honeLeft, seekPass]
  by_cases hlt : c < ((stream m.left).seek c).doc
  · subst hpastLeft
    simp [hlt, reported, view, Intersection.docsets, hleft]
  · subst hpastLeft
    simp only [if_neg hlt, reported, Option.map_none]
    rw [honeRight, seekPass]
    by_cases hlt' : c < ((stream m.right).seek c).doc
    · subst hpastRight
      simp [hlt', reported, view, Intersection.docsets, hleft, hright]
    · subst hpastRight
      simp only [if_neg hlt', reported, Option.map_none, view, Intersection.docsets, hleft, hright,
        hothers, true_and]
      exact hpast

/-- **The inner loop of `advance`** brings the two rarest doc sets to their next common
    document. -/
theorem chase_spec (fuel : Nat) (left right : S)
    (hle : doc right ≤ doc left)
    (hfuel : TERMINATED - doc left < fuel) :
    ∃ left' right', chase fuel (doc left) left right =
        some (doc left', left', right') ∧
      Intersection.Settled ⟨stream left, stream right, []⟩ ⟨stream left', stream right', []⟩ := by
  induction fuel generalizing left right with
  | zero => exact absurd hfuel (Nat.not_lt_zero _)
  | succ fuel ih =>
    set right' := (ScoredDocSet.seek right (doc left)).2 with hright'
    set left' := (ScoredDocSet.seek left (doc right')).2 with hleft'
    -- what the two calls return is where the doc sets stand behind them
    have hterm := doc_le_terminated left
    have htermRight := doc_le_terminated right'
    have hdocRight := doc_seek right hle hterm
    have hchase := le_doc_seek right hle hterm
    rw [← hdocRight, ← hright'] at hchase
    have hdocLeft := doc_seek left hchase htermRight
    have hchaseLeft := le_doc_seek left hchase htermRight
    rw [← hdocLeft, ← hleft'] at hchaseLeft
    have hstreamRight : stream right' = (stream right).seek (stream left).doc := by
      rw [hright', stream_seek right _ hle hterm, doc_eq]
    have hstreamLeft : stream left' = (stream left).seek
        ((stream right).seek (stream left).doc).doc := by
      rw [hleft', stream_seek left _ hchase htermRight,
        doc_eq, hstreamRight]
    have hgap := Intersection.not_allHave_chase ⟨stream left, stream right, []⟩
    have hlen := (stream left).length_seek_le ((stream right).seek (stream left).doc).doc
    have hagree : AgreeFrom (doc left') [stream left, stream right]
        [stream left', stream right'] := by
      refine .cons (fun e he => ?_) (.cons (fun e he => ?_) .nil)
      · rw [hstreamLeft]
        refine Intersection.agree_seek _ _ e ?_
        rw [← hstreamRight, ← doc_eq]
        omega
      · rw [hstreamRight]
        refine Intersection.agree_seek _ _ e ?_
        rw [← doc_eq]
        omega
    have hrun : chase (fuel + 1) (doc left) left right =
        if doc left' = doc right' then
          some (doc left', left', right')
        else chase fuel (doc left') left' right' := by
      simp [chase, ← hdocRight, ← hdocLeft, ← hright', ← hleft']
    rw [hrun]
    rw [← hstreamLeft] at hgap hlen
    by_cases heq : doc left' = doc right'
    · refine ⟨left', right', if_pos heq, ?_, hlen, ?_, ?_, hgap⟩
      · rw [← doc_eq, ← doc_eq]
        omega
      · rw [← doc_eq]
        exact hagree
      · intro t ht
        have ht' : t = stream left' ∨ t = stream right' := by simpa [Intersection.docsets] using ht
        rcases ht' with rfl | rfl
        · rfl
        · rw [← doc_eq, ← doc_eq, heq]
    · -- the left docset went past the right one, which is sent after it
      rw [if_neg heq]
      have htermLeft := doc_le_terminated left'
      obtain ⟨left'', right'', hrun', hsettled⟩ := ih left' right' hchaseLeft (by omega)
      refine ⟨left'', right'', hrun', hsettled.step ?_ hlen ?_ hgap⟩
      · rw [← doc_eq, ← doc_eq]
        omega
      · rw [← doc_eq]
        exact hagree

/-- **The loop of `advance`** brings all doc sets to their next common document. -/
theorem settle_spec (fuel : Nat) (m : IntersectionScorer S O)
    (hle : ∀ t ∈ stream m.right :: m.others.map stream, t.doc ≤ doc m.left)
    (hfuel : TERMINATED - doc m.left < fuel) :
    ∃ m', settle fuel (doc m.left) m = some (doc m'.left, m') ∧
      Intersection.Settled m.view m'.view := by
  induction fuel generalizing m with
  | zero => exact absurd hfuel (Nat.not_lt_zero _)
  | succ fuel ih =>
    have hright := hle _ List.mem_cons_self
    rw [← doc_eq] at hright
    obtain ⟨left, right, hchase, hpair⟩ := chase_spec ROUNDS m.left m.right hright
      (by have hrounds : ROUNDS = TERMINATED + 1 := rfl; omega)
    have htermLeft := doc_le_terminated left
    -- the two rarest doc sets stand on a common document, and none in front of it is one
    have hahead : doc m.left ≤ doc left := by
      rw [doc_eq, doc_eq]
      exact hpair.le_doc
    have hdocRight : (stream right).doc = doc left := by
      rw [doc_eq]
      exact hpair.aligned _ (List.mem_cons_of_mem _ List.mem_cons_self)
    have hagree : AgreeFrom (doc left) [stream m.left, stream m.right]
        [stream left, stream right] := by
      rw [doc_eq]
      exact hpair.agree
    have hgap : ∀ e, doc m.left ≤ e → e < doc left →
        ¬AllHave m.view.docsets e := by
      intro e hme hel hall
      rw [doc_eq] at hme hel
      refine hpair.gap e hme hel fun t ht => hall t ?_
      have ht' : t = stream m.left ∨ t = stream m.right := by
        simpa [Intersection.docsets] using ht
      rcases ht' with rfl | rfl
      · exact List.mem_cons_self
      · exact List.mem_cons_of_mem _ List.mem_cons_self
    obtain ⟨hothers, hpast⟩ := seekEach_spec htermLeft m.others fun t ht =>
      (hle t (List.mem_cons_of_mem _ ht)).trans hahead
    have hpass := Intersection.seekPass_spec htermLeft (m.others.map stream)
    cases hagree with
    | cons hleft hrest =>
    cases hrest with
    | cons hright' _ =>
    rcases hsplit : seekPass (doc left) (m.others.map stream) with ⟨ts, past⟩
    rw [hsplit] at hothers hpast hpass
    rcases hrun : seekEach (doc left) m.others with ⟨others, past'⟩
    rw [hrun] at hothers hpast
    cases past with
    | none =>
      -- every other docset stops at the candidate
      subst hpast
      refine ⟨⟨left, right, others⟩, ?_, ?_, hpair.length_le, ?_, ?_, ?_⟩
      · rw [settle, hchase]
        simp only [Option.bind_eq_bind, Option.bind_some, hrun]
        rfl
      · exact hpair.le_doc
      · show AgreeFrom (stream left).doc _ (stream left :: stream right :: others.map stream)
        rw [hothers, ← doc_eq]
        exact .cons hleft (.cons hright' hpass.1)
      · intro t ht
        show t.doc = (stream left).doc
        rw [← doc_eq]
        rcases List.mem_cons.mp ht with rfl | ht
        · exact (doc_eq left).symm
        rcases List.mem_cons.mp ht with rfl | ht
        · exact hdocRight
        · exact hpass.2 t (hothers ▸ ht)
      · intro e hme hel
        refine hgap e ?_ ?_
        · rw [doc_eq]
          exact hme
        · rw [doc_eq]
          exact hel
    | some n =>
      -- one of the others went past the candidate, and the left docset is sent after it
      obtain ⟨hagreeOthers, hcn, hn, hnone⟩ := hpass
      subst hpast
      have hdoc := doc_seek left hcn.le hn
      have hahead' := le_doc_seek left hcn.le hn
      rw [← hdoc] at hahead'
      have hstream := stream_seek left n hcn.le hn
      set left' := (ScoredDocSet.seek left n).2 with hleft'
      have hle' : ∀ t ∈ stream right :: others.map stream, t.doc ≤ doc left' := by
        intro t ht
        rcases List.mem_cons.mp ht with rfl | ht
        · omega
        · rw [hothers] at ht
          refine (doc_le_of_seekPass (fun u hu => ?_) hsplit t ht).trans hahead'
          exact (hle u (List.mem_cons_of_mem _ hu)).trans hahead
      obtain ⟨m', hsettle, hsettled⟩ := ih ⟨left', right, others⟩ hle'
        (by show TERMINATED - doc left' < fuel; omega)
      refine ⟨m', ?_, hsettled.step ?_ ?_ ?_ ?_⟩
      · rw [settle, hchase]
        simp only [Option.bind_eq_bind, Option.bind_some, hrun, reported, Option.map_some]
        rw [← hdoc]
        exact hsettle
      · show (stream m.left).doc ≤ (stream left').doc
        rw [← doc_eq, ← doc_eq]
        omega
      · show (stream left').hits.length ≤ (stream m.left).hits.length
        rw [hstream]
        exact ((stream left).length_seek_le n).trans hpair.length_le
      · show AgreeFrom (stream left').doc _ (stream left' :: stream right :: others.map stream)
        rw [hothers, ← doc_eq]
        refine .cons (fun e he => ?_) (.cons (fun e he => ?_) (hagreeOthers.mono (by omega)))
        · rw [hstream, Scorer.find_seek, if_neg (by omega)]
          exact hleft e (by omega)
        · exact hright' e (by omega)
      · intro e hme hel hall
        have hme' : doc m.left ≤ e := by
          rw [doc_eq]
          exact hme
        by_cases hec : e < doc left
        · exact hgap e hme' hec hall
        by_cases hen : e < n
        · refine hnone e (not_lt.mp hec) hen fun t ht => hall t ?_
          exact List.mem_cons_of_mem _ (List.mem_cons_of_mem _ ht)
        · -- the left docset has nothing between the candidate and where it was sent
          have hsome := hall (stream m.left) List.mem_cons_self
          have hel' : e < ((stream left).seek n).doc := hstream ▸ hel
          rw [← hleft e (not_lt.mp hec),
            Intersection.find_eq_none_of_lt_seek _ (not_lt.mp hen) hel'] at hsome
          cases hsome

/-! ### The intersection and its stream -/

/-- All doc sets stand on one document, and what is common to them is left. -/
def Stands (m : IntersectionScorer S O) (s : Scorer) : Prop :=
  m.view.Aligned ∧ ∀ d, s.find d = common m.view.docsets d

variable {m : IntersectionScorer S O} {s : Scorer}

theorem Stands.doc_eq (h : Stands m s) : doc m.left = s.doc := by
  obtain ⟨haligned, hfind⟩ := h
  rw [LawfulScoredDocSet.doc_eq, eq_comm]
  by_cases hdoc : (stream m.left).doc = TERMINATED
  · -- a stream at its end has nothing in common with the others
    by_contra hne
    rw [hdoc] at hne
    have hsome := s.find_doc hne
    have hnone : ¬AllHave m.view.docsets s.doc := by
      intro hall
      have hleft := hall (stream m.left) List.mem_cons_self
      rw [Scorer.find_eq_none_of_ended hdoc] at hleft
      cases hleft
    rw [hfind, common, if_neg hnone] at hsome
    cases hsome
  · have hall : AllHave m.view.docsets (stream m.left).doc := haligned.allHave hdoc
    rw [Scorer.doc_eq_iff _ hdoc, hfind, common, if_pos hall]
    refine ⟨rfl, fun e he => ?_⟩
    have hnone : ¬AllHave m.view.docsets e :=
      not_allHave_of_lt_doc (s := stream m.left) List.mem_cons_self he
    simp [hfind, common, hnone]

theorem Stands.score_eq (h : Stands m s) (hne : s.doc ≠ TERMINATED) :
    m.view.score = s.score := by
  have hdoc : (stream m.left).doc ≠ TERMINATED := by
    rw [← LawfulScoredDocSet.doc_eq, h.doc_eq]
    exact hne
  have hall : AllHave m.view.docsets (stream m.left).doc := h.1.allHave hdoc
  have hfind := s.find_doc hne
  rw [h.2, ← h.doc_eq, LawfulScoredDocSet.doc_eq, common, if_pos hall] at hfind
  rw [h.1.score_eq hdoc]
  exact Option.some.inj hfind

theorem advance_spec (h : Stands m s) :
    ∃ m', m.advance = some (doc m'.left, m') ∧ Stands m' s.advance := by
  have hstream := LawfulScoredDocSet.stream_advance m.left
  have hdoc := LawfulScoredDocSet.doc_advance m.left
  set left := (ScoredDocSet.advance m.left).2 with hleft
  have hdocLeft := h.doc_eq
  -- the left docset moves on, and no other one is in front of it
  have hahead : doc m.left ≤ doc left := by
    rw [doc_eq, doc_eq, hstream]
    by_cases hended : (stream m.left).doc = TERMINATED
    · rw [Scorer.advance_of_ended hended]
    · exact (Intersection.lt_doc_advance _ hended).le
  obtain ⟨m', hrun, hsettled⟩ := settle_spec ROUNDS { m with left := left }
    (fun t ht => by
      rw [h.1 t (List.mem_cons_of_mem _ ht)]
      show (stream m.left).doc ≤ _
      rw [← doc_eq]
      exact hahead)
    (by have hrounds : ROUNDS = TERMINATED + 1 := rfl; omega)
  refine ⟨m', ?_, hsettled.aligned, fun d => ?_⟩
  · rw [advance, ← hrun]
    show settle ROUNDS (ScoredDocSet.advance m.left).1 { m with left := left } = _
    rw [← hdoc]
  have hcommon := common_of_reached hsettled.agree ⟨m'.view.left, List.mem_cons_self, rfl⟩
    (fun e he => by
      by_cases hlt : e < (stream left).doc
      · exact not_allHave_of_lt_doc (s := stream left) List.mem_cons_self hlt
      · exact hsettled.gap e (not_lt.mp hlt) he) d
  rw [hcommon]
  show _ = common (stream left :: stream m.right :: m.others.map stream) d
  by_cases hended : s.doc = TERMINATED
  · have hended' : (stream m.left).doc = TERMINATED := by
      rw [← doc_eq, hdocLeft]
      exact hended
    rw [Scorer.advance_of_ended hended, hstream, Scorer.advance_of_ended hended', h.2]
    rfl
  · rw [Scorer.find_advance _ hended, h.2, hstream, ← hdocLeft, doc_eq,
      common_advance]
    · rfl
    · rw [← doc_eq, hdocLeft]
      exact hended

/-- The largest document of a list of doc sets, where `go_to_first_doc` starts. -/
theorem le_foldr_max (docs : List Nat) : ∀ d ∈ docs, d ≤ docs.foldr max 0 := by
  induction docs with
  | nil => exact fun d hd => absurd hd List.not_mem_nil
  | cons doc docs ih =>
    intro d hd
    rcases List.mem_cons.mp hd with rfl | hd
    · exact le_max_left _ _
    · exact (ih d hd).trans (le_max_right _ _)

theorem foldr_max_docs (docsets : List S) :
    (docsets.map doc).foldr max 0 = maxDoc (docsets.map stream) := by
  rw [maxDoc, List.map_map]
  congr 1
  exact List.map_congr_left fun s _ => doc_eq s

/-- Where `go_to_first_doc` stops, what is common is what was common before. -/
theorem common_goToFirstDoc (ss : List Scorer) (hne : ss ≠ []) (d : Nat) :
    common (Intersection.goToFirstDoc ss (maxDoc ss)).1 d = common ss d := by
  obtain ⟨-, -, hagree, hdocs, hgap⟩ :=
    Intersection.goToFirstDoc_spec (maxDoc_le_terminated ss) ss
  refine common_of_reached hagree ?_ (fun e he => ?_) d
  · obtain ⟨t, ts, hcons⟩ : ∃ t ts, (Intersection.goToFirstDoc ss (maxDoc ss)).1 = t :: ts := by
      apply List.exists_cons_of_ne_nil
      intro hnil
      rw [hnil] at hagree
      cases hagree
      exact hne rfl
    exact ⟨t, hcons ▸ List.mem_cons_self, hdocs t (hcons ▸ List.mem_cons_self)⟩
  · by_cases hmax : e < maxDoc ss
    · exact not_allHave_of_lt_maxDoc hmax
    · exact hgap e (not_lt.mp hmax) he

theorem seek_spec (h : Stands m s) {t : Nat} (hle : s.doc ≤ t) (ht : t ≤ TERMINATED) :
    ∃ m', m.seek t = some (doc m'.left, m') ∧ Stands m' (s.seek t) := by
  have hle' : doc m.left ≤ t := h.doc_eq.le.trans hle
  set m₁ : IntersectionScorer S O := { m with left := (ScoredDocSet.seek m.left t).2 } with hm₁
  have hdocs : m₁.docs.foldr max 0 = maxDoc m₁.view.docsets := by
    congr 1
    simp only [docs, view, Intersection.docsets, List.map_cons, List.map_map, List.cons.injEq,
      doc_eq, true_and]
    exact List.map_congr_left fun s _ => doc_eq s
  have hmax := maxDoc_le_terminated m₁.view.docsets
  obtain ⟨m', hrun, hview⟩ := goToFirstDoc_spec (fun m : IntersectionScorer S O => m.view.docsets)
    seekAll seekAll_spec ROUNDS _ m₁ hmax
    (fun u hu => le_foldr_max _ _ (List.mem_map_of_mem hu))
    (by have hrounds : ROUNDS = TERMINATED + 1 := rfl; omega)
  obtain ⟨-, -, -, hreached, -⟩ := Intersection.goToFirstDoc_spec hmax m₁.view.docsets
  rw [← hview] at hreached
  have hdoc : doc m'.left =
      (Intersection.goToFirstDoc m₁.view.docsets (maxDoc m₁.view.docsets)).2 := by
    rw [doc_eq]
    exact hreached _ List.mem_cons_self
  refine ⟨m', ?_, fun u hu => ?_, fun d => ?_⟩
  · show goToFirstDoc seekAll ROUNDS (m₁.docs.foldr max 0) m₁ = _
    rw [hdocs, hrun, hdoc]
  · show u.doc = (stream m'.left).doc
    rw [hreached u hu, ← doc_eq, hdoc]
  · have hcommon := common_goToFirstDoc m₁.view.docsets (List.cons_ne_nil _ _) d
    rw [← hview] at hcommon
    rw [hcommon]
    show _ = common (stream (ScoredDocSet.seek m.left t).2 :: _) d
    rw [stream_seek _ _ hle' ht, common_seek, Scorer.find_seek, h.2]
    rfl

/-- `Intersection::new` returns an intersection of all the streams. -/
theorem new_spec (sizeHint : S → Nat) (docsets : List S) (hlen : 2 ≤ docsets.length) :
    ∃ m, new sizeHint docsets = some m ∧
      Stands m (intersectScorers (fun _ => 0) (docsets.map stream)) := by
  set sorted := docsets.mergeSort fun a b => sizeHint a ≤ sizeHint b with hsorted
  have hperm : sorted.Perm docsets := List.mergeSort_perm _ _
  have hmax := maxDoc_le_terminated (sorted.map stream)
  obtain ⟨moved, hrun, hview⟩ := goToFirstDoc_spec (List.map stream) seekEach
    (fun c docsets hc hle => seekEach_spec hc docsets hle) ROUNDS _ sorted hmax
    (fun u hu => le_foldr_max _ _ (List.mem_map_of_mem hu))
    (by have hrounds : ROUNDS = TERMINATED + 1 := rfl; omega)
  obtain ⟨-, -, hagree, hreached, -⟩ := Intersection.goToFirstDoc_spec hmax (sorted.map stream)
  rw [← hview] at hreached hagree
  obtain ⟨left, right, others, rfl⟩ : ∃ left right others, moved = left :: right :: others := by
    have hcount := hagree.length_eq
    rw [List.length_map, List.length_map, hperm.length_eq] at hcount
    match moved with
    | left :: right :: others => exact ⟨left, right, others, rfl⟩
    | [] | [_] =>
      simp only [List.length_cons, List.length_nil] at hcount
      omega
  refine ⟨⟨left, right, others⟩, ?_, fun u hu => ?_, fun d => ?_⟩
  · rw [new, if_neg (by omega)]
    show (match goToFirstDoc seekEach ROUNDS ((sorted.map doc).foldr max 0) sorted
      with | some (_, left :: right :: others) => _ | _ => _) = _
    rw [foldr_max_docs, hrun]
  · rw [hreached u hu]
    exact (hreached _ List.mem_cons_self).symm
  · have hne : sorted.map stream ≠ [] := by
      intro hnil
      have hzero := congrArg List.length hnil
      rw [List.length_map, hperm.length_eq, List.length_nil] at hzero
      omega
    have hcommon := common_goToFirstDoc (sorted.map stream) hne d
    rw [← hview, common_perm (hperm.map stream)] at hcommon
    have hne' : docsets.map stream ≠ [] := by
      intro hnil
      have hzero := congrArg List.length hnil
      rw [List.length_map, List.length_nil] at hzero
      omega
    rw [find_intersectScorers _ hne']
    exact hcommon.symm

end Loops

/-! ### What no call changes -/

section Traits

variable [ScoredDocSet S] {G : Type} {g : S → G}
  (hadvance : ∀ s, g (ScoredDocSet.advance s).2 = g s)
  (hseek : ∀ s t, g (ScoredDocSet.seek s t).2 = g s)

theorem goToFirstDoc_traits (view : X → List G) {pass : Nat → X → X × Option (Nat × Nat)}
    (hpass : ∀ c x, view (pass c x).1 = view x) (fuel : Nat) {c c' : Nat} {x x' : X}
    (h : goToFirstDoc pass fuel c x = some (c', x')) : view x' = view x := by
  induction fuel generalizing c x with
  | zero => cases h
  | succ fuel ih =>
    have hkeep := hpass c x
    rcases hmoved : pass c x with ⟨moved, past⟩
    rw [hmoved] at hkeep
    rw [goToFirstDoc, hmoved] at h
    cases past with
    | none =>
      obtain ⟨-, rfl⟩ := Prod.mk.inj (Option.some.inj h)
      exact hkeep
    | some past => rw [ih h, hkeep]

/-- Something about each docset, in the order of the intersection. -/
def traits (g : S → G) (m : IntersectionScorer S S) : List G :=
  g m.left :: g m.right :: m.others.map g

include hseek

theorem seekEach_traits (c : Nat) (docsets : List S) :
    (seekEach c docsets).1.map g = docsets.map g := by
  induction docsets with
  | nil => rfl
  | cons docset docsets ih =>
    have hone : g (seekOne c docset).1 = g docset := hseek docset c
    rcases hmoved : seekOne c docset with ⟨moved, past⟩
    rw [hmoved] at hone
    rw [seekEach, hmoved]
    cases past with
    | some past => simp [hone]
    | none =>
      show g moved :: (seekEach c docsets).1.map g = _
      rw [hone, ih, List.map_cons]

theorem seekAll_traits (c : Nat) (m : IntersectionScorer S S) :
    (seekAll c m).1.traits g = m.traits g := by
  have hleft : g (seekOne c m.left).1 = g m.left := hseek m.left c
  have hright : g (seekOne c m.right).1 = g m.right := hseek m.right c
  have hothers := seekEach_traits hseek c m.others
  rcases hmovedLeft : seekOne c m.left with ⟨left, pastLeft⟩
  rcases hmovedRight : seekOne c m.right with ⟨right, pastRight⟩
  rw [hmovedLeft] at hleft
  rw [hmovedRight] at hright
  rw [seekAll, hmovedLeft]
  cases pastLeft with
  | some past => simp [traits, hleft]
  | none =>
    rw [hmovedRight]
    cases pastRight with
    | some past => simp [traits, hleft, hright]
    | none => simp [traits, hleft, hright, hothers]

theorem chase_traits (fuel : Nat) {c c' : Nat} {left right left' right' : S}
    (h : chase fuel c left right = some (c', left', right')) :
    g left' = g left ∧ g right' = g right := by
  induction fuel generalizing c left right with
  | zero => cases h
  | succ fuel ih =>
    rw [chase] at h
    dsimp only at h
    split at h
    · obtain ⟨-, rfl, rfl⟩ : _ ∧ _ ∧ _ := by simpa using h
      exact ⟨hseek _ _, hseek _ _⟩
    · obtain ⟨hleft, hright⟩ := ih h
      rw [hseek] at hleft hright
      exact ⟨hleft, hright⟩

variable {m' : IntersectionScorer S S}

theorem settle_traits (fuel : Nat) {c c' : Nat} {m : IntersectionScorer S S}
    (h : settle fuel c m = some (c', m')) : m'.traits g = m.traits g := by
  induction fuel generalizing c m with
  | zero => cases h
  | succ fuel ih =>
    rw [settle, Option.bind_eq_bind, Option.bind_eq_some_iff] at h
    obtain ⟨⟨d, left, right⟩, hchase, hrest⟩ := h
    obtain ⟨hleft, hright⟩ := chase_traits hseek _ hchase
    have hothers := seekEach_traits hseek d m.others
    rcases hmoved : seekEach d m.others with ⟨others, past⟩
    rw [hmoved] at hothers
    dsimp only at hrest hothers
    rw [hmoved] at hrest
    cases past with
    | none =>
      obtain ⟨-, rfl⟩ := Prod.mk.inj (Option.some.inj hrest)
      simp [traits, hleft, hright, hothers]
    | some past =>
      rw [ih hrest, traits, traits, hseek, hleft, hright, hothers]

theorem seek_traits {m : IntersectionScorer S S} {t d : Nat} (h : m.seek t = some (d, m')) :
    m'.traits g = m.traits g := by
  have hkeep := goToFirstDoc_traits (traits g) (seekAll_traits hseek) _ h
  rw [hkeep, traits, traits]
  rw [hseek]

theorem new_traits {sizeHint : S → Nat} {docsets : List S} {m : IntersectionScorer S S}
    (h : new sizeHint docsets = some m) :
    m.traits g = (docsets.mergeSort fun a b => sizeHint a ≤ sizeHint b).map g := by
  rw [new] at h
  split at h
  · cases h
  dsimp only at h
  split at h
  · rename_i c left right others hgo
    cases h
    exact goToFirstDoc_traits (List.map g) (seekEach_traits hseek) _ hgo
  · cases h

include hadvance

theorem advance_traits {m : IntersectionScorer S S} {d : Nat} (h : m.advance = some (d, m')) :
    m'.traits g = m.traits g := by
  have hkeep := settle_traits hseek _ h
  rw [hkeep, traits, traits]
  show g (ScoredDocSet.advance m.left).2 :: _ = _
  rw [hadvance]

end Traits

section Scores

variable [ScoringDocSet S] [ScoringDocSet O]

theorem scoreEach_spec (scorers : List O)
    (hne : ∀ scorer ∈ scorers, doc scorer ≠ TERMINATED) :
    (scoreEach scorers).1 = ((scorers.map stream).map Scorer.score).sum ∧
      (scoreEach scorers).2.map stream = scorers.map stream := by
  induction scorers with
  | nil => exact ⟨rfl, rfl⟩
  | cons scorer scorers ih =>
    obtain ⟨hsum, hrest⟩ := ih fun scorer h => hne scorer (List.mem_cons_of_mem _ h)
    have hdoc := hne scorer List.mem_cons_self
    have hfst := scoreMut_fst scorer hdoc
    have hkeep := stream_scoreMut scorer hdoc
    rw [score_eq _ hdoc] at hfst
    constructor
    · show (scoreMut scorer).1 + (scoreEach scorers).1 = _
      simp [hfst, hsum]
    · show stream (scoreMut scorer).2 :: (scoreEach scorers).2.map stream = _
      simp [hkeep, hrest]

/-- Asking for the score changes nothing that is left. -/
theorem score_spec (m : IntersectionScorer S O) (h : m.view.Aligned)
    (hdoc : (stream m.left).doc ≠ TERMINATED) :
    m.score.1 = m.view.score ∧ m.score.2.view = m.view := by
  have hcur : ∀ t ∈ m.view.docsets, t.doc ≠ TERMINATED := by
    intro t ht
    rw [h t ht]
    exact hdoc
  have hleft : doc m.left ≠ TERMINATED := by
    rw [doc_eq]
    exact hdoc
  have hright : doc m.right ≠ TERMINATED := by
    rw [doc_eq]
    exact hcur _ (List.mem_cons_of_mem _ List.mem_cons_self)
  obtain ⟨hsum, hkeep⟩ := scoreEach_spec m.others fun scorer hs => by
    rw [doc_eq]
    exact hcur _ (List.mem_cons_of_mem _ (List.mem_cons_of_mem _ (List.mem_map_of_mem hs)))
  constructor
  · show (scoreMut m.left).1 + (scoreMut m.right).1 + _ = _
    rw [scoreMut_fst _ hleft, scoreMut_fst _ hright, hsum,
      score_eq _ hleft, score_eq _ hright]
    rfl
  · show (⟨stream (scoreMut m.left).2, stream (scoreMut m.right).2,
      (scoreEach m.others).2.map stream⟩ : Intersection) = _
    rw [stream_scoreMut _ hleft, stream_scoreMut _ hright, hkeep]
    rfl

/-- **Intersection** stands for what is common to all streams. -/
instance : LawfulScorerMachine (IntersectionScorer S O) where
  Represents := Stands
  doc_eq h := h.doc_eq
  advance_spec h := by
    obtain ⟨m', hrun, hstands⟩ := advance_spec h
    exact ⟨m', hstands.doc_eq ▸ hrun, hstands⟩
  seek_spec h hle ht := by
    obtain ⟨m', hrun, hstands⟩ := seek_spec h hle ht
    exact ⟨m', hstands.doc_eq ▸ hrun, hstands⟩
  score_spec {m s} h hne := by
    have hdoc : (stream m.left).doc ≠ TERMINATED := by
      rw [← doc_eq, h.doc_eq]
      exact hne
    obtain ⟨hscore, hview⟩ := score_spec m h.1 hdoc
    refine ⟨m.score.2, ?_, ?_⟩
    · rw [← h.score_eq hne, ← hscore]
      rfl
    · unfold Stands
      rw [hview]
      exact h

end Scores

end IntersectionScorer

/-! ### The set operations -/

section SetOperations

variable {S E C : Type} [ScoringDocSet S] [ScoringDocSet E] [ScoreCombiner C]

/-- **The combinators refine the operations on sets.** Whatever the calls, an intersection of two
    or more doc sets, an exclusion and a required and optional scorer return what the cursor over
    the intersection, the difference and the required set returns. The score of the last takes in
    the optional score exactly when the optional set has the document. -/
theorem combinators_refine :
    (∀ (sizeHint : S → Nat) (docsets : List S), 2 ≤ docsets.length →
      ∃ m whole, IntersectionScorer.new sizeHint docsets = some m ∧
        (∀ d, d ∈ whole.docs ↔ ∀ docset ∈ docsets, d ∈ (stream docset).docs) ∧
        Behaves m whole) ∧
    (∀ (underlying : S) (excluding : E), ∃ m whole,
      ExcludeScorer.new underlying excluding = some m ∧
      (∀ d, d ∈ whole.docs ↔ d ∈ (stream underlying).docs ∧ d ∉ (stream excluding).docs) ∧
      Behaves m whole) ∧
    (∀ (req : S) (opt : E), ∃ whole : Scorer,
      (∀ d, whole.find d = ((stream req).find d).map fun reqScore =>
        let combiner : C := ScoreCombiner.update ScoreCombiner.default reqScore
        match (stream opt).find d with
        | none => ScoreCombiner.score combiner
        | some optScore => ScoreCombiner.score (ScoreCombiner.update combiner optScore)) ∧
      Behaves (RequiredOptionalScorer.new req opt : RequiredOptionalScorer S E C) whole) := by
  refine ⟨fun sizeHint docsets hlen => ?_, fun underlying excluding => ?_, fun req opt => ?_⟩
  · obtain ⟨m, hnew, hstands⟩ := IntersectionScorer.new_spec sizeHint docsets hlen
    refine ⟨m, _, hnew, fun d => ?_, LawfulScorerMachine.Represents.behaves hstands⟩
    have hne : docsets.map stream ≠ [] := by
      intro hnil
      rw [List.map_eq_nil_iff] at hnil
      rw [hnil, List.length_nil] at hlen
      omega
    rw [Scorer.mem_docs_iff, find_intersectScorers _ hne]
    simp only [Intersection.AllHave, List.forall_mem_map, ← Scorer.mem_docs_iff]
    split
    · exact iff_of_true rfl ‹_›
    · exact iff_of_false Bool.false_ne_true ‹_›
  · obtain ⟨m, hnew, hstands⟩ := ExcludeScorer.new_spec underlying excluding
    refine ⟨m, _, hnew, fun d => ?_, LawfulScorerMachine.Represents.behaves hstands⟩
    rw [Scorer.mem_docs_iff, Scorer.mem_docs_iff, Scorer.mem_docs_iff, ExcludeScorer.find_rest]
    split
    · exact iff_of_false Bool.false_ne_true fun h => h.2 ‹_›
    · exact ⟨fun h => ⟨h, ‹_›⟩, fun h => h.1⟩
  · exact ⟨_, fun d => RequiredOptional.find_build _ _ d,
      LawfulScorerMachine.Represents.behaves (RequiredOptionalScorer.new_spec req opt)⟩

end SetOperations

theorem combinators_refine_two_streams :
    ∃ m, IntersectionScorer.new (fun s : Scorer => s.hits.length)
        [⟨[(3, 1), (4, 1), (9, 1), (18, 1)], by simp [Ascending], by decide⟩,
          ⟨[(1, 1), (3, 1), (9, 1)], by simp [Ascending], by decide⟩] = some m ∧
      ScorerMachine.doc m = 3 := by
  obtain ⟨m, whole, hnew, hdocs, hdoc, -⟩ :=
    (combinators_refine (S := Scorer) (E := Scorer) (C := SumCombiner)).1 (fun s => s.hits.length)
      [⟨[(3, 1), (4, 1), (9, 1), (18, 1)], by simp [Ascending], by decide⟩,
        ⟨[(1, 1), (3, 1), (9, 1)], by simp [Ascending], by decide⟩] (by decide)
  refine ⟨m, hnew, hdoc.trans ?_⟩
  rw [whole.doc_eq_iff (by decide), ← Scorer.mem_docs_iff, hdocs]
  refine ⟨by decide, fun e he => ?_⟩
  rw [← Option.not_isSome_iff_eq_none, ← Scorer.mem_docs_iff, hdocs]
  interval_cases e <;> decide

end TeaclaveCrates.Tantivy
