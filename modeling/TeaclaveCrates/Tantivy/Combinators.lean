import TeaclaveCrates.Tantivy.ScorerMachine

namespace TeaclaveCrates.Tantivy

open LawfulScoredDocSet (stream)
open LawfulScoredDocSet (doc_advance doc_eq doc_le_terminated doc_seek score_eq seek_fst
  stream_advance stream_seek)
open RequiredOptional (build find_build)
open ScoredDocSet (doc)
open Scorer (advance_of_ended ext_find find_advance find_doc find_eq_none_of_ended find_seek)
open ScoringDocSet (scoreMut scoreMut_fst stream_scoreMut)

/-!
# Exclusion, and required and optional scorers

The doc sets of `exclude.rs` and `reqopt_scorer.rs` with their loops and their caches, over any
streams that keep the contract.

* `ExcludeScorer`, `RequiredOptionalScorer` — the states and the calls.
* Each is a `LawfulScorerMachine`: it stands for the stream that the list operation of the same
  name makes of the streams that are left.

A loop has one round more than there are documents; `none` is a loop that is still running then.
-/

/-- More rounds than there are documents. -/
def ROUNDS : Nat := TERMINATED + 1

/-! ### Exclusion -/

/-- `Exclude`. -/
structure ExcludeScorer (S E : Type) where
  underlyingDocset : S
  excludingDocset : E

namespace ExcludeScorer

variable {S E : Type}

/-- `is_within`: whether `doc` is in the docset, which is moved up to it. -/
def isWithin [ScoredDocSet E] (docset : E) (doc : Nat) : Bool × E :=
  if ScoredDocSet.doc docset ≤ doc then
    let (seekDoc, docset) := ScoredDocSet.seek docset doc
    (seekDoc == doc, docset)
  else (false, docset)

section Calls

variable [ScoredDocSet S] [ScoredDocSet E]

/-- The loop of `Exclude::new`. -/
def skipWithin : Nat → S → E → Option (ExcludeScorer S E)
  | 0, _, _ => none
  | fuel + 1, underlying, excluding =>
    if doc underlying ≠ TERMINATED then
      let target := doc underlying
      let (within, excluding) := isWithin excluding target
      if ¬within then some ⟨underlying, excluding⟩
      else skipWithin fuel (ScoredDocSet.advance underlying).2 excluding
    else some ⟨underlying, excluding⟩

/-- `Exclude::new`. -/
def new (underlying : S) (excluding : E) : Option (ExcludeScorer S E) :=
  skipWithin ROUNDS underlying excluding

/-- The loop of `advance`. -/
def advanceLoop : Nat → ExcludeScorer S E → Option (Nat × ExcludeScorer S E)
  | 0, _ => none
  | fuel + 1, m =>
    let (candidate, underlying) := ScoredDocSet.advance m.underlyingDocset
    if candidate = TERMINATED then some (TERMINATED, { m with underlyingDocset := underlying })
    else
      let (within, excluding) := isWithin m.excludingDocset candidate
      if ¬within then some (candidate, ⟨underlying, excluding⟩)
      else advanceLoop fuel ⟨underlying, excluding⟩

/-- To the next document that is not excluded. -/
def advance (m : ExcludeScorer S E) : Option (Nat × ExcludeScorer S E) := advanceLoop ROUNDS m

/-- To the first one from the target on. -/
def seek (m : ExcludeScorer S E) (target : Nat) : Option (Nat × ExcludeScorer S E) :=
  let (candidate, underlying) := ScoredDocSet.seek m.underlyingDocset target
  if candidate = TERMINATED then some (TERMINATED, { m with underlyingDocset := underlying })
  else
    let (within, excluding) := isWithin m.excludingDocset candidate
    if ¬within then some (candidate, ⟨underlying, excluding⟩)
    else advance ⟨underlying, excluding⟩

end Calls

/-- "The excluding docset has no impact on scoring." -/
def score [ScoringDocSet S] (m : ExcludeScorer S E) : Score × ExcludeScorer S E :=
  let (score, underlying) := scoreMut m.underlyingDocset
  (score, { m with underlyingDocset := underlying })

instance [ScoringDocSet S] [ScoredDocSet E] : ScorerMachine (ExcludeScorer S E) where
  doc m := doc m.underlyingDocset
  advance := advance
  seek := seek
  score m := some m.score

section Refinement

variable [LawfulScoredDocSet S] [LawfulScoredDocSet E]

/-- The docset may lie in front of the document, on it or behind it. -/
theorem isWithin_fst (docset : E) {d : Nat} (hd : d < TERMINATED) :
    (isWithin docset d).1 = ((stream docset).find d).isSome ∧
      ∀ e, d ≤ e → (stream (isWithin docset d).2).find e = (stream docset).find e := by
  unfold isWithin
  split
  · rename_i hle
    refine ⟨?_, fun e he => ?_⟩
    · show ((ScoredDocSet.seek docset d).1 == d) = _
      rw [seek_fst _ _ hle hd.le, Bool.eq_iff_iff, beq_iff_eq]
      exact (stream docset).doc_seek_eq_iff hd
    · rw [stream_seek _ _ hle hd.le, find_seek, if_neg (by omega)]
  · rename_i hlt
    refine ⟨?_, fun _ _ => rfl⟩
    rw [doc_eq, not_le] at hlt
    simp [(stream docset).find_eq_none_of_lt_doc hlt]

/-- The documents that are left, by the list operation. -/
def rest (underlying : S) (excluding : E) : Scorer :=
  Exclude.build (stream underlying) (stream excluding)

theorem find_rest (underlying : S) (excluding : E) (d : Nat) :
    (rest underlying excluding).find d =
      if ((stream excluding).find d).isSome then none else (stream underlying).find d :=
  Exclude.find_build _ _ d

variable {underlying : S}

variable {excluding : E}

/-- Only the documents from the underlying one on are asked for. -/
theorem rest_congr {excluding' : E}
    (h : ∀ d, doc underlying ≤ d →
      (stream excluding').find d = (stream excluding).find d) :
    rest underlying excluding' = rest underlying excluding := by
  apply ext_find
  intro d
  rw [find_rest, find_rest]
  by_cases hd : doc underlying ≤ d
  · rw [h d hd]
  · rw [doc_eq, not_le] at hd
    simp [(stream underlying).find_eq_none_of_lt_doc hd]

/-- A machine stands on the first document that is left. -/
def Stands (m : ExcludeScorer S E) (s : Scorer) : Prop :=
  s = rest m.underlyingDocset m.excludingDocset ∧ doc m.underlyingDocset = s.doc

/-- A document that is not excluded is the first one that is left. -/
theorem stands_of_not_within (hdoc : doc underlying ≠ TERMINATED)
    (hwithin : (isWithin excluding (doc underlying)).1 = false) :
    Stands ⟨underlying, (isWithin excluding (doc underlying)).2⟩
      (rest underlying excluding) := by
  have hlt := lt_of_le_of_ne (doc_le_terminated underlying) hdoc
  obtain ⟨hfst, hsnd⟩ := isWithin_fst excluding hlt
  refine ⟨(rest_congr hsnd).symm, ?_⟩
  rw [hwithin] at hfst
  rw [eq_comm, Scorer.doc_eq_iff _ hdoc, find_rest, ← hfst]
  rw [doc_eq] at hdoc ⊢
  refine ⟨by simp [(stream underlying).find_doc hdoc], ?_⟩
  intro e he
  rw [find_rest, (stream underlying).find_eq_none_of_lt_doc he, ite_self]

/-- A document that is excluded is passed over. -/
theorem rest_advance_of_within (hdoc : doc underlying ≠ TERMINATED)
    (hwithin : (isWithin excluding (doc underlying)).1 = true) :
    rest (ScoredDocSet.advance underlying).2
      (isWithin excluding (doc underlying)).2 = rest underlying excluding := by
  have hlt := lt_of_le_of_ne (doc_le_terminated underlying) hdoc
  obtain ⟨hfst, hsnd⟩ := isWithin_fst excluding hlt
  rw [hwithin] at hfst
  rw [← rest_congr hsnd]
  apply ext_find
  intro d
  rw [doc_eq] at *
  rw [find_rest, find_rest, stream_advance, find_advance _ hdoc]
  by_cases hd : d ≤ (stream underlying).doc
  · rw [if_pos hd, ite_self]
    -- in front of the document there is nothing, and it is excluded itself
    rcases Nat.lt_or_eq_of_le hd with hd | rfl
    · rw [(stream underlying).find_eq_none_of_lt_doc hd, ite_self]
    · rw [hsnd _ (le_refl _), ← hfst, if_pos rfl]
  · simp [hd]

theorem stands_of_ended (hdoc : doc underlying = TERMINATED) :
    Stands ⟨underlying, excluding⟩ (rest underlying excluding) := by
  refine ⟨rfl, ?_⟩
  have hempty : rest underlying excluding = Scorer.empty := by
    apply ext_find
    intro d
    rw [doc_eq] at hdoc
    simp [find_rest, find_eq_none_of_ended hdoc]
  rw [hempty]
  exact hdoc

/-- How far a stream is from its end. -/
theorem lt_doc_advance (hdoc : doc underlying ≠ TERMINATED) :
    doc underlying < (ScoredDocSet.advance underlying).1 := by
  rw [doc_eq] at hdoc ⊢
  rw [LawfulScoredDocSet.advance_fst]
  exact Intersection.lt_doc_advance _ hdoc

theorem skipWithin_spec (fuel : Nat) (underlying : S) (excluding : E)
    (hfuel : TERMINATED - doc underlying < fuel) :
    ∃ m, skipWithin fuel underlying excluding = some m ∧ Stands m (rest underlying excluding) := by
  induction fuel generalizing underlying excluding with
  | zero => exact absurd hfuel (Nat.not_lt_zero _)
  | succ fuel ih =>
    by_cases hdoc : doc underlying = TERMINATED
    · refine ⟨⟨underlying, excluding⟩, ?_, stands_of_ended hdoc⟩
      simp [skipWithin, (not_not.mpr hdoc)]
    cases hwithin : (isWithin excluding (doc underlying)).1 with
    | false =>
      refine ⟨_, ?_, stands_of_not_within hdoc hwithin⟩
      simp [skipWithin, hdoc, hwithin]
    | true =>
      -- the document is excluded, and the loop goes on behind it
      have hlt := lt_doc_advance hdoc
      rw [← doc_advance] at hlt
      have hterm := doc_le_terminated underlying
      obtain ⟨m, hrun, hstands⟩ := ih (ScoredDocSet.advance underlying).2
        (isWithin excluding (doc underlying)).2 (by omega)
      refine ⟨m, ?_, rest_advance_of_within hdoc hwithin ▸ hstands⟩
      rw [skipWithin, if_pos hdoc]
      simp only [hwithin, not_true_eq_false, if_false]
      exact hrun

theorem new_spec (underlying : S) (excluding : E) :
    ∃ m, new underlying excluding = some m ∧ Stands m (rest underlying excluding) := by
  apply skipWithin_spec
  have hrounds : ROUNDS = TERMINATED + 1 := rfl
  omega

/-- The loop of `advance` reaches the first document behind the current one that is left. -/
theorem advanceLoop_spec (fuel : Nat) (m : ExcludeScorer S E)
    (hfuel : TERMINATED - doc m.underlyingDocset < fuel) :
    ∃ m', advanceLoop fuel m = some (doc m'.underlyingDocset, m') ∧
      Stands m' (rest (ScoredDocSet.advance m.underlyingDocset).2 m.excludingDocset) := by
  induction fuel generalizing m with
  | zero => exact absurd hfuel (Nat.not_lt_zero _)
  | succ fuel ih =>
    have hadv := doc_advance m.underlyingDocset
    rw [advanceLoop]
    by_cases hdoc : (ScoredDocSet.advance m.underlyingDocset).1 = TERMINATED
    · refine ⟨{ m with underlyingDocset := (ScoredDocSet.advance m.underlyingDocset).2 }, ?_,
        stands_of_ended (hadv.trans hdoc)⟩
      simp [hdoc, hadv]
    simp only [hdoc, if_false]
    rw [← hadv] at hdoc ⊢
    cases hwithin : (isWithin m.excludingDocset
        (doc (ScoredDocSet.advance m.underlyingDocset).2)).1 with
    | false =>
      refine ⟨_, ?_, stands_of_not_within hdoc hwithin⟩
      simp
    | true =>
      have hcur : doc m.underlyingDocset ≠ TERMINATED := by
        intro hended
        apply hdoc
        rw [doc_eq] at hended ⊢
        rw [stream_advance, advance_of_ended hended, hended]
      have hlt := lt_doc_advance hcur
      have hterm := doc_le_terminated m.underlyingDocset
      have hleft : TERMINATED - doc (ScoredDocSet.advance m.underlyingDocset).2 <
          fuel := by
        omega
      obtain ⟨m', hrun, hstands⟩ := ih ⟨(ScoredDocSet.advance m.underlyingDocset).2,
        (isWithin m.excludingDocset _).2⟩ hleft
      refine ⟨m', ?_, rest_advance_of_within hdoc hwithin ▸ hstands⟩
      exact hrun

theorem advance_spec (m : ExcludeScorer S E) :
    ∃ m', m.advance = some (doc m'.underlyingDocset, m') ∧
      Stands m' (rest (ScoredDocSet.advance m.underlyingDocset).2 m.excludingDocset) := by
  apply advanceLoop_spec
  have hrounds : ROUNDS = TERMINATED + 1 := rfl
  omega

theorem seek_spec (m : ExcludeScorer S E) {t : Nat}
    (hle : doc m.underlyingDocset ≤ t) (ht : t ≤ TERMINATED) :
    ∃ m', m.seek t = some (doc m'.underlyingDocset, m') ∧
      Stands m' (rest (ScoredDocSet.seek m.underlyingDocset t).2 m.excludingDocset) := by
  have hseek := doc_seek m.underlyingDocset hle ht
  unfold seek
  by_cases hdoc : (ScoredDocSet.seek m.underlyingDocset t).1 = TERMINATED
  · refine ⟨{ m with underlyingDocset := (ScoredDocSet.seek m.underlyingDocset t).2 }, ?_,
      stands_of_ended (hseek.trans hdoc)⟩
    simp [hdoc, hseek]
  simp only [hdoc, if_false]
  rw [← hseek] at hdoc ⊢
  cases hwithin : (isWithin m.excludingDocset
      (doc (ScoredDocSet.seek m.underlyingDocset t).2)).1 with
  | false =>
    refine ⟨_, ?_, stands_of_not_within hdoc hwithin⟩
    simp
  | true =>
    obtain ⟨m', hrun, hstands⟩ := advance_spec
      ⟨(ScoredDocSet.seek m.underlyingDocset t).2, (isWithin m.excludingDocset _).2⟩
    refine ⟨m', ?_, rest_advance_of_within hdoc hwithin ▸ hstands⟩
    simp only [not_true_eq_false, if_false]
    exact hrun

/-- Moving the underlying stream moves what is left. -/
theorem rest_advance {m : ExcludeScorer S E} {s : Scorer} (h : Stands m s) :
    rest (ScoredDocSet.advance m.underlyingDocset).2 m.excludingDocset = s.advance := by
  obtain ⟨hrest, hdoc⟩ := h
  rw [doc_eq] at hdoc
  apply ext_find
  intro d
  rw [find_rest, stream_advance]
  by_cases hended : s.doc = TERMINATED
  · simp [advance_of_ended hended, advance_of_ended (hdoc.trans hended),
      find_eq_none_of_ended hended, find_eq_none_of_ended (hdoc.trans hended)]
  · rw [find_advance _ hended, find_advance _ (hdoc ▸ hended), hdoc]
    by_cases hd : d ≤ s.doc
    · simp [hd]
    · rw [if_neg hd, if_neg hd, hrest, find_rest]

theorem rest_seek {m : ExcludeScorer S E} {s : Scorer} (h : Stands m s) {t : Nat}
    (hle : s.doc ≤ t) (ht : t ≤ TERMINATED) :
    rest (ScoredDocSet.seek m.underlyingDocset t).2 m.excludingDocset = s.seek t := by
  obtain ⟨hrest, hdoc⟩ := h
  apply ext_find
  intro d
  rw [find_rest, stream_seek _ _ (hdoc.le.trans hle) ht, find_seek,
    find_seek, hrest, find_rest]
  by_cases hd : d < t
  · simp [hd]
  · simp [hd]

end Refinement

/-- **Exclusion** stands for the difference of what is left of the two streams. -/
instance [ScoringDocSet S] [LawfulScoredDocSet E] : LawfulScorerMachine (ExcludeScorer S E) where
  Represents := Stands
  doc_eq h := h.2
  advance_spec {m s} h := by
    obtain ⟨m', hrun, hstands⟩ := m.advance_spec
    rw [rest_advance h] at hstands
    exact ⟨m', hstands.2 ▸ hrun, hstands⟩
  seek_spec {m s t} h hle ht := by
    obtain ⟨m', hrun, hstands⟩ := m.seek_spec (h.2.le.trans hle) ht
    rw [rest_seek h hle ht] at hstands
    exact ⟨m', hstands.2 ▸ hrun, hstands⟩
  score_spec {m s} h hne := by
    obtain ⟨hrest, hdoc⟩ := h
    have hcur : doc m.underlyingDocset ≠ TERMINATED := by rwa [hdoc]
    -- the document that is left has the score of the underlying stream
    have hscore : s.score = (stream m.underlyingDocset).score := by
      have hfind := s.find_doc hne
      rw [← hdoc, doc_eq] at hfind
      rw [doc_eq] at hcur
      rw [hrest, find_rest] at hfind
      split at hfind
      · cases hfind
      · rw [find_doc _ hcur, ← hrest] at hfind
        exact (Option.some.inj hfind).symm
    have hstream := stream_scoreMut m.underlyingDocset hcur
    refine ⟨m.score.2, ?_, ?_, ?_⟩
    · rw [hscore, ← score_eq _ hcur, ← scoreMut_fst _ hcur]
      rfl
    · show s = Exclude.build (stream (scoreMut m.underlyingDocset).2) _
      rw [hstream]
      exact hrest
    · show doc (scoreMut m.underlyingDocset).2 = s.doc
      rw [doc_eq, hstream, ← doc_eq]
      exact hdoc

end ExcludeScorer

/-! ### Required and optional clauses -/

/-- `RequiredOptionalScorer`. -/
structure RequiredOptionalScorer (S O C : Type) where
  reqScorer : S
  optScorer : O
  scoreCache : Option Score

namespace RequiredOptionalScorer

variable {S O C : Type}

/-- `RequiredOptionalScorer::new`. -/
def new (reqScorer : S) (optScorer : O) : RequiredOptionalScorer S O C where
  reqScorer := reqScorer
  optScorer := optScorer
  scoreCache := none

def advance [ScoredDocSet S] (m : RequiredOptionalScorer S O C) :
    Nat × RequiredOptionalScorer S O C :=
  let (doc, req) := ScoredDocSet.advance m.reqScorer
  (doc, { m with reqScorer := req, scoreCache := none })

def seek [ScoredDocSet S] (m : RequiredOptionalScorer S O C) (target : Nat) :
    Nat × RequiredOptionalScorer S O C :=
  let (doc, req) := ScoredDocSet.seek m.reqScorer target
  (doc, { m with reqScorer := req, scoreCache := none })

variable [ScoreCombiner C]

/-- The optional part of `score`: the optional scorer is moved up to the document, never back. -/
def complement [ScoringDocSet O] (combiner : C) (opt : O) (doc : Nat) : C × O :=
  if ScoredDocSet.doc opt ≤ doc then
    let (seekDoc, opt) := ScoredDocSet.seek opt doc
    if seekDoc = doc then
      let (score, opt) := scoreMut opt
      (ScoreCombiner.update combiner score, opt)
    else (combiner, opt)
  else (combiner, opt)

/-- The required score with the optional one; it is kept for later calls. -/
def score [ScoringDocSet S] [ScoringDocSet O] (m : RequiredOptionalScorer S O C) :
    Score × RequiredOptionalScorer S O C :=
  match m.scoreCache with
  | some score => (score, m)
  | none =>
    let doc := ScoredDocSet.doc m.reqScorer
    let (reqScore, req) := scoreMut m.reqScorer
    let combiner : C := ScoreCombiner.update ScoreCombiner.default reqScore
    let (combiner, opt) := complement combiner m.optScorer doc
    let score := ScoreCombiner.score combiner
    (score, ⟨req, opt, some score⟩)

instance [ScoringDocSet S] [ScoringDocSet O] :
    ScorerMachine (RequiredOptionalScorer S O C) where
  doc m := doc m.reqScorer
  advance m := some m.advance
  seek m target := some (m.seek target)
  score m := some m.score

variable [ScoringDocSet S] [ScoringDocSet O]

/-- The optional score is taken exactly when the optional scorer has the document. -/
theorem complement_spec (combiner : C) (opt : O) {doc : Nat} (hdoc : doc < TERMINATED) :
    (complement combiner opt doc).1 =
        (match (stream opt).find doc with
          | none => combiner
          | some score => ScoreCombiner.update combiner score) ∧
      ∀ e, doc ≤ e → (stream (complement combiner opt doc).2).find e = (stream opt).find e := by
  unfold complement
  by_cases hle : ScoredDocSet.doc opt ≤ doc
  · have hstream := stream_seek opt doc hle hdoc.le
    have hkeep : ∀ e, doc ≤ e →
        (stream (ScoredDocSet.seek opt doc).2).find e = (stream opt).find e := by
      intro e he
      rw [hstream, find_seek, if_neg (by omega)]
    simp only [if_pos hle]
    by_cases heq : (ScoredDocSet.seek opt doc).1 = doc
    · have hcur : ScoredDocSet.doc (ScoredDocSet.seek opt doc).2 = doc := by
        rw [doc_seek _ hle hdoc.le, heq]
      have hne : ScoredDocSet.doc (ScoredDocSet.seek opt doc).2 ≠ TERMINATED := by omega
      have hscore := scoreMut_fst _ hne
      rw [score_eq _ hne] at hscore
      -- what `score` returns is what the stream has at the document
      have hfind := (stream (ScoredDocSet.seek opt doc).2).find_doc
        (doc_eq (ScoredDocSet.seek opt doc).2 ▸ hne)
      rw [← doc_eq, hcur, hkeep doc (le_refl _)] at hfind
      simp only [if_pos heq, hfind, hscore, true_and]
      intro e he
      rw [stream_scoreMut _ hne]
      exact hkeep e he
    · have hnone : (stream opt).find doc = none := by
        rw [seek_fst _ _ hle hdoc.le, Scorer.doc_seek_eq_iff _ hdoc] at heq
        simpa using heq
      simp only [if_neg heq, hnone, true_and]
      exact hkeep
  · rw [if_neg hle]
    rw [doc_eq, not_le] at hle
    rw [(stream opt).find_eq_none_of_lt_doc hle]
    exact ⟨rfl, fun _ _ => rfl⟩

/-- A machine stands for the required stream with the combined scores, and its cache is empty or
    right. -/
def Stands (m : RequiredOptionalScorer S O C) (s : Scorer) : Prop :=
  s = build C (stream m.reqScorer) (stream m.optScorer) ∧
    ∀ v, m.scoreCache = some v → v = s.score

theorem doc_build (req opt : Scorer) : (build C req opt).doc = req.doc := by
  obtain ⟨hits, hasc, hlt⟩ := req
  cases hits with
  | nil => rfl
  | cons p rest => rfl

theorem new_spec (req : S) (opt : O) :
    Stands (new req opt : RequiredOptionalScorer S O C)
      (build C (stream req) (stream opt)) :=
  ⟨rfl, fun _ h => by cases h⟩

/-- What the optional stream has in front of the required one is never asked for. -/
theorem build_congr {req opt opt' : Scorer} (h : ∀ d, req.doc ≤ d → opt'.find d = opt.find d) :
    build C req opt' = build C req opt := by
  apply ext_find
  intro d
  rw [find_build, find_build]
  by_cases hd : req.doc ≤ d
  · rw [h d hd]
  · simp [req.find_eq_none_of_lt_doc (not_le.mp hd)]

/-- **Required and optional clauses** stand for the required stream. -/
instance : LawfulScorerMachine (RequiredOptionalScorer S O C) where
  Represents := Stands
  doc_eq {m s} h := by
    rw [h.1, doc_build]
    exact doc_eq _
  advance_spec {m s} h := by
    have hstream : build C (stream m.advance.2.reqScorer) (stream m.optScorer) =
        s.advance := by
      apply ext_find
      intro d
      show (build C (stream (ScoredDocSet.advance m.reqScorer).2) _).find d = _
      rw [find_build, stream_advance]
      have hdoc : s.doc = (stream m.reqScorer).doc := by rw [h.1, doc_build]
      by_cases hended : s.doc = TERMINATED
      · rw [advance_of_ended hended, advance_of_ended (hdoc.symm.trans hended),
          find_eq_none_of_ended hended,
          find_eq_none_of_ended (hdoc.symm.trans hended)]
        rfl
      · rw [find_advance _ hended, find_advance _ (hdoc ▸ hended), hdoc]
        by_cases hd : d ≤ (stream m.reqScorer).doc
        · rw [if_pos hd, if_pos hd]
          rfl
        · rw [if_neg hd, if_neg hd, h.1, find_build]
    refine ⟨m.advance.2, ?_, hstream.symm, fun v hv => by cases hv⟩
    rw [← hstream, doc_build, ← doc_eq]
    show some m.advance = some (doc (ScoredDocSet.advance m.reqScorer).2, _)
    rw [doc_advance]
    rfl
  seek_spec {m s t} h hle ht := by
    have hdoc : s.doc = (stream m.reqScorer).doc := by rw [h.1, doc_build]
    rw [hdoc, ← doc_eq] at hle
    have hstream : build C (stream (m.seek t).2.reqScorer) (stream m.optScorer) =
        s.seek t := by
      apply ext_find
      intro d
      show (build C (stream (ScoredDocSet.seek m.reqScorer t).2) _).find d = _
      rw [find_build, stream_seek _ _ hle ht, h.1,
        find_seek, find_seek, find_build]
      by_cases hd : d < t
      · rw [if_pos hd, if_pos hd]
        rfl
      · rw [if_neg hd, if_neg hd]
    refine ⟨(m.seek t).2, ?_, hstream.symm, fun v hv => by cases hv⟩
    rw [← hstream, doc_build, ← doc_eq]
    show some (m.seek t) = some (doc (ScoredDocSet.seek m.reqScorer t).2, _)
    rw [doc_seek _ hle ht]
    rfl
  score_spec {m s} h hne := by
    obtain ⟨hbuild, hcache⟩ := h
    cases hcached : m.scoreCache with
    | some v =>
      refine ⟨m, ?_, hbuild, hcache⟩
      show some m.score = _
      rw [score, hcached, hcache v hcached]
    | none =>
      have hdoc : s.doc = doc m.reqScorer := by
        rw [hbuild, doc_build, doc_eq]
      have hcur : doc m.reqScorer ≠ TERMINATED := hdoc ▸ hne
      have hlt := lt_of_le_of_ne (doc_le_terminated m.reqScorer) hcur
      have hreq := scoreMut_fst m.reqScorer hcur
      have hkeepReq := stream_scoreMut m.reqScorer hcur
      obtain ⟨hcomb, hkeep⟩ := complement_spec (ScoreCombiner.update ScoreCombiner.default
        (scoreMut m.reqScorer).1 : C) m.optScorer hlt
      have hfind : (build C (stream m.reqScorer) (stream m.optScorer)).find
          (stream m.reqScorer).doc = some s.score := by
        rw [← hbuild, ← doc_eq, ← hdoc]
        exact s.find_doc hne
      rw [find_build,
        find_doc _ (doc_eq m.reqScorer ▸ hcur), Option.map_some,
        Option.some.injEq, ← doc_eq] at hfind
      have hscore : m.score.1 = s.score := by
        rw [← hfind, score, hcached]
        dsimp only
        rw [hcomb, hreq, score_eq _ hcur]
        cases (stream m.optScorer).find (doc m.reqScorer) with
        | none => rfl
        | some v => rfl
      refine ⟨m.score.2, ?_, ?_, ?_⟩
      · rw [← hscore]
        rfl
      · rw [score, hcached]
        show s = build C (stream (scoreMut m.reqScorer).2) _
        rw [hkeepReq]
        refine hbuild.trans (build_congr ?_).symm
        rw [← doc_eq]
        exact hkeep
      · intro v hv
        rw [← hscore]
        rw [score, hcached] at hv ⊢
        exact (Option.some.inj hv).symm

end RequiredOptionalScorer

end TeaclaveCrates.Tantivy
