import TeaclaveCrates.Tantivy.Scorer

namespace TeaclaveCrates.Tantivy

/-!
# Scorers as state machines

A scorer of the source is moved by `advance` and `seek`, and `score` may change it too. Its loops
need not end by themselves, so a call of a machine may fail to return.

* `ScoredDocSet`, `LawfulScoredDocSet` — the traits of a stream, and their contract: a stream
  behaves as the list of its remaining documents.
* `ScoringDocSet` — a stream that keeps the contract of `DocSet`, with its mutable `score`.
* `ScorerMachine`, `ScorerCall.runAll` — the calls of a machine, and a sequence of them.
* `LawfulScorerMachine`, `Behaves` — a machine that stands for a stream answers every sequence of
  calls as the stream does.
-/

/-! ### The streams -/

/-- The traits `Scorer` and `DocSet`, as far as a union calls them. A call that changes the
    stream returns what the source returns, and the stream behind it. -/
class ScoredDocSet (S : Type) where
  doc : S → Nat
  advance : S → Nat × S
  seek : S → Nat → Nat × S
  score : S → Score

/-- The contract of `DocSet`: a stream stands on the first of its remaining documents, `advance`
    goes to the next one and `seek` to the first from the target on. A target is a document or
    `TERMINATED`, and not in front of the current document. -/
class LawfulScoredDocSet (S : Type) extends ScoredDocSet S where
  stream : S → Scorer
  doc_eq : ∀ s, doc s = (stream s).doc
  score_eq : ∀ s, doc s ≠ TERMINATED → score s = (stream s).score
  advance_fst : ∀ s, (advance s).1 = (stream s).advance.doc
  stream_advance : ∀ s, stream (advance s).2 = (stream s).advance
  seek_fst : ∀ s t, doc s ≤ t → t ≤ TERMINATED → (seek s t).1 = ((stream s).seek t).doc
  stream_seek : ∀ s t, doc s ≤ t → t ≤ TERMINATED → stream (seek s t).2 = (stream s).seek t

/-- A list of documents keeps the contract. -/
instance : LawfulScoredDocSet Scorer where
  doc := Scorer.doc
  advance s := (s.advance.doc, s.advance)
  seek s t := ((s.seek t).doc, s.seek t)
  score := Scorer.score
  stream s := s
  doc_eq _ := rfl
  score_eq _ _ := rfl
  advance_fst _ := rfl
  stream_advance _ := rfl
  seek_fst _ _ _ _ := rfl
  stream_seek _ _ _ _ := rfl

open LawfulScoredDocSet (stream)

/-- `Scorer::score` takes its scorer mutably: what it changes is not seen in the documents and
    the scores that are left. -/
class ScoringDocSet (S : Type) extends LawfulScoredDocSet S where
  scoreMut : S → Score × S
  scoreMut_fst : ∀ s, doc s ≠ TERMINATED → (scoreMut s).1 = score s
  stream_scoreMut : ∀ s, doc s ≠ TERMINATED → stream (scoreMut s).2 = stream s

/-- A list of documents has nothing to change. -/
instance : ScoringDocSet Scorer where
  scoreMut s := (s.score, s)
  scoreMut_fst _ _ := rfl
  stream_scoreMut _ _ := rfl

namespace LawfulScoredDocSet

open ScoredDocSet (doc advance seek)

variable {S : Type} [LawfulScoredDocSet S]

theorem doc_le_terminated (s : S) : doc s ≤ TERMINATED := by
  rw [doc_eq]
  exact (stream s).doc_le_terminated

theorem doc_advance (s : S) : doc (advance s).2 = (advance s).1 := by
  rw [doc_eq, stream_advance, advance_fst]

theorem doc_seek (s : S) {t : Nat} (hle : doc s ≤ t) (ht : t ≤ TERMINATED) :
    doc (seek s t).2 = (seek s t).1 := by
  rw [doc_eq, stream_seek s t hle ht, seek_fst s t hle ht]

theorem le_doc_seek (s : S) {t : Nat} (hle : doc s ≤ t) (ht : t ≤ TERMINATED) :
    t ≤ (seek s t).1 := by
  rw [seek_fst s t hle ht]
  exact (stream s).le_doc_seek ht

end LawfulScoredDocSet

/-! ### Machines and their calls -/

/-- `DocSet` and `Scorer` as the source implements them; `none` is a call that does not return. -/
class ScorerMachine (M : Type) where
  doc : M → Nat
  advance : M → Option (Nat × M)
  seek : M → Nat → Option (Nat × M)
  score : M → Option (Score × M)

/-- A call on a scorer. -/
inductive ScorerCall where
  | advance
  | seek (target : Nat)
  | score
deriving DecidableEq

/-- What a call returns: the document that is reached, or a score. -/
inductive Answer where
  | doc (doc : Nat)
  | score (score : Score)
deriving DecidableEq

namespace ScorerCall

/-! ### The calls of the abstract cursor -/

/-- A call on the list of the remaining documents and their scores. -/
def step : ScorerCall → Scorer → Answer × Scorer
  | advance, s => (.doc s.advance.doc, s.advance)
  | seek target, s => (.doc (s.seek target).doc, s.seek target)
  | score, s => (.score s.score, s)

/-- A target is not in front of the current document and `TERMINATED` is the last one; a score is
    asked for on a document only. -/
def Allowed : ScorerCall → Scorer → Prop
  | advance, _ => True
  | seek target, s => s.doc ≤ target ∧ target ≤ TERMINATED
  | score, s => s.doc ≠ TERMINATED

/-- A sequence of calls on a stream. -/
def stepAll : List ScorerCall → Scorer → List Answer × Scorer
  | [], s => ([], s)
  | call :: calls, s =>
    let (answer, s) := call.step s
    let (answers, s) := stepAll calls s
    (answer :: answers, s)

/-- Each call is allowed where it is made. -/
def AllowedAll : List ScorerCall → Scorer → Prop
  | [], _ => True
  | call :: calls, s => call.Allowed s ∧ AllowedAll calls (call.step s).2

/-! ### The calls of a machine -/

variable {M : Type} [ScorerMachine M]

/-- A call on a machine. -/
def run : ScorerCall → M → Option (Answer × M)
  | advance, m => (ScorerMachine.advance m).map fun moved => (.doc moved.1, moved.2)
  | seek target, m => (ScorerMachine.seek m target).map fun moved => (.doc moved.1, moved.2)
  | score, m => (ScorerMachine.score m).map fun scored => (.score scored.1, scored.2)

/-- A sequence of calls on a machine. -/
def runAll : List ScorerCall → M → Option (List Answer × M)
  | [], m => some ([], m)
  | call :: calls, m => do
    let (answer, m) ← call.run m
    let (answers, m) ← runAll calls m
    some (answer :: answers, m)

/-- A relation to the stream that is left which one call keeps is kept by all calls, and they
    return what the stream answers. -/
theorem runAll_of_step {R : M → Scorer → Prop}
    (hstep : ∀ {m s} (call : ScorerCall), R m s → call.Allowed s →
      ∃ m', call.run m = some ((call.step s).1, m') ∧ R m' (call.step s).2)
    (calls : List ScorerCall) {m : M} {s : Scorer} (h : R m s) (hallowed : AllowedAll calls s) :
    ∃ m', runAll calls m = some ((stepAll calls s).1, m') ∧ R m' (stepAll calls s).2 := by
  induction calls generalizing m s with
  | nil => exact ⟨m, rfl, h⟩
  | cons call calls ih =>
    obtain ⟨m₁, hrun, h₁⟩ := hstep call h hallowed.1
    obtain ⟨m', hrunAll, h'⟩ := ih h₁ hallowed.2
    refine ⟨m', ?_, h'⟩
    rw [runAll, hrun]
    simp only [Option.bind_eq_bind, Option.bind_some]
    rw [hrunAll]
    rfl

end ScorerCall

/-- **Behaving as a stream.** Every sequence of calls returns, with the answers of the abstract
    cursor over the stream. -/
def Behaves {M : Type} [ScorerMachine M] (m : M) (s : Scorer) : Prop :=
  ScorerMachine.doc m = s.doc ∧ ∀ calls, ScorerCall.AllowedAll calls s →
    ∃ m', ScorerCall.runAll calls m = some ((ScorerCall.stepAll calls s).1, m') ∧
      ScorerMachine.doc m' = (ScorerCall.stepAll calls s).2.doc

/-- A machine with a relation to the stream that is left, which one call keeps. -/
class LawfulScorerMachine (M : Type) extends ScorerMachine M where
  Represents : M → Scorer → Prop
  doc_eq : ∀ {m s}, Represents m s → doc m = s.doc
  advance_spec : ∀ {m s}, Represents m s →
    ∃ m', advance m = some (s.advance.doc, m') ∧ Represents m' s.advance
  seek_spec : ∀ {m s t}, Represents m s → s.doc ≤ t → t ≤ TERMINATED →
    ∃ m', seek m t = some ((s.seek t).doc, m') ∧ Represents m' (s.seek t)
  score_spec : ∀ {m s}, Represents m s → s.doc ≠ TERMINATED →
    ∃ m', score m = some (s.score, m') ∧ Represents m' s

namespace LawfulScorerMachine

variable {M : Type} [LawfulScorerMachine M] {m : M} {s : Scorer}

/-- One call goes along with the stream. -/
theorem run_spec (call : ScorerCall) (h : Represents m s) (hallowed : call.Allowed s) :
    ∃ m', call.run m = some ((call.step s).1, m') ∧ Represents m' (call.step s).2 := by
  cases call with
  | advance =>
    obtain ⟨m', hrun, h'⟩ := advance_spec h
    exact ⟨m', by rw [ScorerCall.run, hrun]; rfl, h'⟩
  | seek target =>
    obtain ⟨m', hrun, h'⟩ := seek_spec h hallowed.1 hallowed.2
    exact ⟨m', by rw [ScorerCall.run, hrun]; rfl, h'⟩
  | score =>
    obtain ⟨m', hrun, h'⟩ := score_spec h hallowed
    exact ⟨m', by rw [ScorerCall.run, hrun]; rfl, h'⟩

theorem Represents.behaves (h : Represents m s) : Behaves m s := by
  refine ⟨doc_eq h, fun calls hallowed => ?_⟩
  obtain ⟨m', hrun, h'⟩ := ScorerCall.runAll_of_step run_spec calls h hallowed
  exact ⟨m', hrun, doc_eq h'⟩

end LawfulScorerMachine

end TeaclaveCrates.Tantivy
