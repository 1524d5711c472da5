import TeaclaveCrates.Lib.Ascending
import TeaclaveCrates.Tantivy.Compression

namespace TeaclaveCrates.Tantivy

open TeaclaveCrates.Lib

/-!
# Scorers and the ways to combine them

A scorer walks through documents in increasing order and gives each a score.  The combinators
below are the ones a boolean query is evaluated with.

* `Scorer` — a positioned document stream: `doc`, `advance`, `seek`, `score`.
* `ScoreCombiner` — how the scores of one document are put together.
* `Exclude.build`, `RequiredOptional.build`, `Intersection.build` — each with the equation that
  says which documents come out, and with which score.

Scores are exact rationals.  A scorer is its list of remaining documents, as the contract of the
`DocSet` trait has it: `doc` is the first of them and `TERMINATED` behind the last, `advance`
drops it and `seek` drops the documents below the target.
-/

abbrev Score := ℚ

/-! ### Document streams -/

/-- A positioned `Scorer`: the documents still to come, with their scores. -/
@[ext]
structure Scorer where
  hits : List (Nat × Score)
  ascending : Ascending hits
  lt_terminated : ∀ p ∈ hits, p.1 < TERMINATED

namespace Scorer

/-- `EmptyScorer`. -/
def empty : Scorer := ⟨[], Ascending.nil, fun _ h => nomatch h⟩

/-- The current document. -/
def doc (s : Scorer) : Nat :=
  match s.hits with
  | [] => TERMINATED
  | p :: _ => p.1

/-- The score of the current document; the source never asks for it behind the end. -/
def score (s : Scorer) : Score :=
  match s.hits with
  | [] => 0
  | p :: _ => p.2

/-- Drop the first document. -/
def advance (s : Scorer) : Scorer where
  hits := s.hits.tail
  ascending := s.ascending.of_sublist (List.tail_sublist _)
  lt_terminated p hp := s.lt_terminated p (List.mem_of_mem_tail hp)

/-- Drop the documents in front of the target. -/
def seek (s : Scorer) (target : Nat) : Scorer where
  hits := skipTo s.hits target
  ascending := s.ascending.skipTo target
  lt_terminated p hp := s.lt_terminated p ((skipTo_sublist _ _).subset hp)

/-- The score the stream gives to a document, if it has it. -/
def find (s : Scorer) (d : Nat) : Option Score := s.hits.lookup d

/-- The documents of the stream. -/
def docs (s : Scorer) : List Nat := s.hits.map Prod.fst

variable {s : Scorer}

theorem ext_find {t : Scorer} (h : ∀ d, s.find d = t.find d) : s = t :=
  Scorer.ext (s.ascending.ext t.ascending h)

variable {d : Nat}

theorem find_eq_some_iff (s : Scorer) {v : Score} :
    s.find d = some v ↔ (d, v) ∈ s.hits :=
  s.ascending.lookup_eq_some_iff

theorem mem_docs_iff (s : Scorer) (d : Nat) : d ∈ s.docs ↔ (s.find d).isSome = true := by
  rw [docs, find, s.ascending.lookup_isSome_iff, List.mem_map]
  constructor
  · rintro ⟨p, hp, rfl⟩
    exact ⟨p.2, hp⟩
  · rintro ⟨v, hv⟩
    exact ⟨(d, v), hv, rfl⟩

@[simp]
theorem find_empty (d : Nat) : empty.find d = none := rfl

theorem find_seek (s : Scorer) (t d : Nat) :
    (s.seek t).find d = if d < t then none else s.find d :=
  s.ascending.lookup_skipTo t d

theorem doc_le_terminated (s : Scorer) : s.doc ≤ TERMINATED := by
  unfold doc
  split
  · exact le_refl _
  · rename_i p rest h
    exact (s.lt_terminated p (by simp [h])).le

variable {t : Nat}

/-- Behind a seek the document is at the target or past it, unless the target is past the
    end. -/
theorem le_doc_seek (s : Scorer) (ht : t ≤ TERMINATED) : t ≤ (s.seek t).doc := by
  unfold doc
  split
  · exact ht
  · rename_i p rest h
    have hskip : skipTo s.hits t = p :: rest := h
    exact le_head_skipTo hskip

theorem find_eq_none_of_lt_doc (s : Scorer) (h : d < s.doc) : s.find d = none := by
  apply Ascending.lookup_eq_none_of_lt
  intro p hp
  unfold doc at h
  split at h
  · rename_i hnil
    rw [hnil] at hp
    cases hp
  · rename_i q rest hcons
    rw [hcons] at hp
    rcases List.mem_cons.mp hp with rfl | hp
    · exact h
    · exact h.trans ((hcons ▸ s.ascending).head_lt p hp)

/-- The current document is in the stream, with the current score. -/
theorem find_doc (s : Scorer) (h : s.doc ≠ TERMINATED) : s.find s.doc = some s.score := by
  unfold find doc score at *
  split at h
  · exact absurd rfl h
  · rename_i p rest hcons
    rw [hcons]
    exact List.lookup_cons_self

theorem doc_eq_iff (s : Scorer) (hd : d ≠ TERMINATED) :
    s.doc = d ↔ (s.find d).isSome = true ∧ ∀ e < d, s.find e = none := by
  constructor
  · rintro rfl
    exact ⟨by rw [s.find_doc hd]; rfl, fun e he => s.find_eq_none_of_lt_doc he⟩
  · rintro ⟨hsome, hnone⟩
    by_contra hne
    rcases Nat.lt_or_gt_of_ne hne with hlt | hgt
    · have hnt : s.doc ≠ TERMINATED := by
        have hmem := (s.mem_docs_iff d).mpr hsome
        obtain ⟨p, hp, rfl⟩ := List.mem_map.mp hmem
        have := s.lt_terminated p hp
        omega
      have := hnone s.doc hlt
      rw [s.find_doc hnt] at this
      cases this
    · rw [s.find_eq_none_of_lt_doc hgt] at hsome
      cases hsome

/-- A seek stands on its target exactly when the stream has it. -/
theorem doc_seek_eq_iff (s : Scorer) (ht : t < TERMINATED) :
    (s.seek t).doc = t ↔ (s.find t).isSome = true := by
  rw [doc_eq_iff _ ht.ne, find_seek, if_neg (lt_irrefl t)]
  constructor
  · exact fun h => h.1
  · refine fun h => ⟨h, fun e he => ?_⟩
    simp [find_seek, he]

theorem score_seek (s : Scorer) (ht : t < TERMINATED) {v : Score} (h : s.find t = some v) :
    (s.seek t).score = v := by
  have hdoc : (s.seek t).doc = t := (s.doc_seek_eq_iff ht).mpr (by simp [h])
  have hfind := (s.seek t).find_doc (by omega)
  rw [hdoc, find_seek, if_neg (lt_irrefl t), h] at hfind
  exact (Option.some.inj hfind).symm

theorem seek_doc_self (s : Scorer) (h : t ≤ s.doc) : s.seek t = s := by
  apply ext_find
  intro d
  rw [find_seek]
  split
  · rename_i hd
    exact (s.find_eq_none_of_lt_doc (hd.trans_le h)).symm
  · rfl

theorem find_lt_terminated (s : Scorer) (h : (s.find d).isSome = true) :
    d < TERMINATED := by
  obtain ⟨p, hp, rfl⟩ := List.mem_map.mp ((s.mem_docs_iff d).mpr h)
  exact s.lt_terminated p hp

theorem find_advance (s : Scorer) (h : s.doc ≠ TERMINATED) (d : Nat) :
    s.advance.find d = if d ≤ s.doc then none else s.find d := by
  obtain ⟨hits, hasc, hlt⟩ := s
  cases hits with
  | nil => exact absurd rfl h
  | cons p rest =>
    show rest.lookup d = if d ≤ p.1 then none else (p :: rest).lookup d
    obtain ⟨key, value⟩ := p
    by_cases hd : d ≤ key
    · rw [if_pos hd]
      exact Ascending.lookup_eq_none_of_lt fun q hq => lt_of_le_of_lt hd (hasc.head_lt q hq)
    · have hne : (d == key) = false := by simpa using (by omega : d ≠ key)
      simp [hd, List.lookup_cons, hne]

theorem length_seek_le (s : Scorer) (t : Nat) : (s.seek t).hits.length ≤ s.hits.length :=
  length_skipTo_le _ _

theorem length_advance (s : Scorer) (h : s.doc ≠ TERMINATED) :
    s.advance.hits.length < s.hits.length := by
  unfold doc at h
  split at h
  · exact absurd rfl h
  · rename_i p rest hcons
    simp [advance, hcons]

/-- A stream at its end has nothing. -/
theorem find_eq_none_of_ended (h : s.doc = TERMINATED) (d : Nat) : s.find d = none := by
  by_contra hne
  have hlt := s.find_lt_terminated (Option.isSome_iff_ne_none.mpr hne)
  exact hne (s.find_eq_none_of_lt_doc (by omega))

theorem advance_of_ended (h : s.doc = TERMINATED) : s.advance = s := by
  obtain ⟨hits, hasc, hlt⟩ := s
  cases hits with
  | nil => rfl
  | cons p rest => exact absurd h (hlt p List.mem_cons_self).ne

/-- On the way to a target, one step changes nothing. -/
theorem seek_advance (hdoc : s.doc ≠ TERMINATED) (h : s.doc < t) :
    s.advance.seek t = s.seek t := by
  apply ext_find
  intro d
  rw [find_seek, find_seek]
  by_cases hd : d < t
  · simp [hd]
  · rw [if_neg hd, if_neg hd, s.find_advance hdoc, if_neg (by omega)]

end Scorer

/-! ### Score combiners -/

/-- `ScoreCombiner`: an accumulator for the scores of one document. -/
class ScoreCombiner (C : Type) where
  default : C
  update : C → Score → C
  clear : C → C
  score : C → Score

/-- Scores are added up. -/
structure SumCombiner where
  score : Score
deriving DecidableEq

instance : ScoreCombiner SumCombiner where
  default := ⟨0⟩
  update c s := ⟨c.score + s⟩
  clear _ := ⟨0⟩
  score c := c.score

/-! ### Exclusion -/

/-- `is_within`: whether `doc` is in the stream, which is moved up to it. -/
def isWithin (docset : Scorer) (doc : Nat) : Bool × Scorer :=
  if docset.doc ≤ doc then
    let docset := docset.seek doc
    (docset.doc == doc, docset)
  else (false, docset)

/-- Moving the stream up to a document loses nothing from there on. -/
theorem isWithin_spec (s : Scorer) {d : Nat} (hd : d < TERMINATED) :
    (isWithin s d).1 = (s.find d).isSome ∧
      ∀ e, d ≤ e → (isWithin s d).2.find e = s.find e := by
  unfold isWithin
  split
  · refine ⟨?_, fun e he => ?_⟩
    · rw [Bool.eq_iff_iff, beq_iff_eq]
      exact s.doc_seek_eq_iff hd
    · rw [Scorer.find_seek, if_neg (by omega)]
  · rename_i hlt
    refine ⟨?_, fun _ _ => rfl⟩
    simp [s.find_eq_none_of_lt_doc (not_le.mp hlt)]

namespace Exclude

/-- What `Exclude` hands out when it is advanced to its end: the documents of the underlying
    stream that the excluding one, moved along with it, is not on. -/
def hits : List (Nat × Score) → Scorer → List (Nat × Score)
  | [], _ => []
  | p :: rest, excluding =>
    let within := isWithin excluding p.1
    if within.1 then hits rest within.2 else p :: hits rest within.2

theorem hits_eq {xs : List (Nat × Score)} (hasc : Ascending xs)
    (hlt : ∀ p ∈ xs, p.1 < TERMINATED) (excluding : Scorer) :
    hits xs excluding = xs.filter fun p => (excluding.find p.1).isNone := by
  induction xs generalizing excluding with
  | nil => rfl
  | cons p rest ih =>
    obtain ⟨hfst, hsnd⟩ := isWithin_spec excluding (hlt p (by simp))
    -- the rest of the underlying stream lies behind `p`, where the moved stream is unchanged
    have hrest : hits rest (isWithin excluding p.1).2 =
        rest.filter fun q => (excluding.find q.1).isNone := by
      rw [ih hasc.tail fun q hq => hlt q (List.mem_cons_of_mem _ hq)]
      apply List.filter_congr
      intro q hq
      rw [hsnd q.1 (hasc.head_lt q hq).le]
    simp only [hits, List.filter_cons, hfst, hrest]
    cases excluding.find p.1 <;> simp

/-- `Exclude::new`. -/
def build (underlying excluding : Scorer) : Scorer where
  hits := hits underlying.hits excluding
  ascending := by
    rw [hits_eq underlying.ascending underlying.lt_terminated]
    exact underlying.ascending.of_sublist List.filter_sublist
  lt_terminated p hp := by
    rw [hits_eq underlying.ascending underlying.lt_terminated] at hp
    exact underlying.lt_terminated p (List.mem_of_mem_filter hp)

/-- **Exclusion** keeps the scores of the documents that the other stream does not have. -/
theorem find_build (underlying excluding : Scorer) (d : Nat) :
    (build underlying excluding).find d =
      if (excluding.find d).isSome then none else underlying.find d := by
  have hbuild := hits_eq underlying.ascending underlying.lt_terminated excluding
  apply Option.ext
  intro v
  rw [Scorer.find_eq_some_iff]
  show (d, v) ∈ hits underlying.hits excluding ↔ _
  rw [hbuild, List.mem_filter]
  by_cases h : (excluding.find d).isSome = true
  · simp [h, Option.isSome_iff_ne_none.mp h]
  · rw [if_neg h, Scorer.find_eq_some_iff]
    simp only [Bool.not_eq_true, Option.isSome_eq_false_iff] at h
    simp [h]

end Exclude

/-! ### Required and optional clauses -/

namespace RequiredOptional

variable {C : Type} [ScoreCombiner C]

/-- `RequiredOptionalScorer::score` on the current document of the required stream: the score
    and the optional stream, moved up to that document. -/
def scoreAt (C : Type) [ScoreCombiner C] (p : Nat × Score) (opt : Scorer) : Score × Scorer :=
  let combiner : C := ScoreCombiner.update ScoreCombiner.default p.2
  if opt.doc ≤ p.1 then
    let opt := opt.seek p.1
    if opt.doc = p.1 then (ScoreCombiner.score (ScoreCombiner.update combiner opt.score), opt)
    else (ScoreCombiner.score combiner, opt)
  else (ScoreCombiner.score combiner, opt)

/-- The combined score of a document with required score `r` and optional score `o`. -/
def combined (C : Type) [ScoreCombiner C] (r : Score) (o : Option Score) : Score :=
  let combiner : C := ScoreCombiner.update ScoreCombiner.default r
  match o with
  | none => ScoreCombiner.score combiner
  | some o => ScoreCombiner.score (ScoreCombiner.update combiner o)

theorem scoreAt_spec {p : Nat × Score} (hp : p.1 < TERMINATED) (opt : Scorer) :
    (scoreAt C p opt).1 = combined C p.2 (opt.find p.1) ∧
      ∀ e, p.1 ≤ e → (scoreAt C p opt).2.find e = opt.find e := by
  have hkeep : ∀ e, p.1 ≤ e → (opt.seek p.1).find e = opt.find e := fun e he => by
    rw [Scorer.find_seek, if_neg (by omega)]
  unfold scoreAt combined
  by_cases hle : opt.doc ≤ p.1
  · simp only [if_pos hle]
    by_cases hdoc : (opt.seek p.1).doc = p.1
    · obtain ⟨v, hv⟩ := Option.isSome_iff_exists.mp ((opt.doc_seek_eq_iff hp).mp hdoc)
      rw [if_pos hdoc, hv, opt.score_seek hp hv]
      exact ⟨rfl, hkeep⟩
    · have hnone : opt.find p.1 = none := by
        rw [opt.doc_seek_eq_iff hp] at hdoc
        simpa using hdoc
      rw [if_neg hdoc, hnone]
      exact ⟨rfl, hkeep⟩
  · rw [if_neg hle, opt.find_eq_none_of_lt_doc (not_le.mp hle)]
    exact ⟨rfl, fun _ _ => rfl⟩

/-- What `RequiredOptionalScorer` hands out: the documents of the required stream, each scored
    as it is reached. -/
def hits (C : Type) [ScoreCombiner C] : List (Nat × Score) → Scorer → List (Nat × Score)
  | [], _ => []
  | p :: rest, opt =>
    let scored := scoreAt C p opt
    (p.1, scored.1) :: hits C rest scored.2

theorem hits_eq {xs : List (Nat × Score)} (hasc : Ascending xs)
    (hlt : ∀ p ∈ xs, p.1 < TERMINATED) (opt : Scorer) :
    hits C xs opt = xs.map fun p => (p.1, combined C p.2 (opt.find p.1)) := by
  induction xs generalizing opt with
  | nil => rfl
  | cons p rest ih =>
    obtain ⟨hfst, hsnd⟩ := scoreAt_spec (C := C) (hlt p (by simp)) opt
    have hrest : hits C rest (scoreAt C p opt).2 =
        rest.map fun q => (q.1, combined C q.2 (opt.find q.1)) := by
      rw [ih hasc.tail fun q hq => hlt q (List.mem_cons_of_mem _ hq)]
      apply List.map_congr_left
      intro q hq
      rw [hsnd q.1 (hasc.head_lt q hq).le]
    simp [hits, hfst, hrest]

/-- `RequiredOptionalScorer::new`. -/
def build (C : Type) [ScoreCombiner C] (req opt : Scorer) : Scorer where
  hits := hits C req.hits opt
  ascending := by
    rw [hits_eq req.ascending req.lt_terminated]
    exact req.ascending.map _ fun _ _ h => h
  lt_terminated p hp := by
    rw [hits_eq req.ascending req.lt_terminated] at hp
    obtain ⟨q, hq, rfl⟩ := List.mem_map.mp hp
    exact req.lt_terminated q hq

/-- The documents are those of the required stream; the optional one only adds to scores. -/
theorem find_build (req opt : Scorer) (d : Nat) :
    (build C req opt).find d = (req.find d).map fun r => combined C r (opt.find d) := by
  apply Option.ext
  intro v
  rw [Scorer.find_eq_some_iff]
  show (d, v) ∈ hits C req.hits opt ↔ _
  rw [hits_eq req.ascending req.lt_terminated, List.mem_map, Option.map_eq_some_iff]
  constructor
  · rintro ⟨p, hp, heq⟩
    obtain ⟨rfl, rfl⟩ := Prod.mk.inj heq
    exact ⟨p.2, req.find_eq_some_iff.mpr hp, rfl⟩
  · rintro ⟨r, hr, rfl⟩
    exact ⟨(d, r), req.find_eq_some_iff.mp hr, rfl⟩

end RequiredOptional

/-! ### Intersection -/

namespace Intersection

/-- One pass over the streams, in `go_to_first_doc` and behind the two rarest streams in
    `advance`: each is moved to the candidate, up to the first one that goes past it. -/
def seekPass (candidate : Nat) : List Scorer → List Scorer × Option Nat
  | [] => ([], none)
  | s :: rest =>
    let s := s.seek candidate
    if candidate < s.doc then (s :: rest, some s.doc)
    else
      let pass := seekPass candidate rest
      (s :: pass.1, pass.2)

/-- Both lists of streams have the same documents and scores from `c` on. -/
def AgreeFrom (c : Nat) (ss ts : List Scorer) : Prop :=
  List.Forall₂ (fun s t => ∀ e, c ≤ e → t.find e = s.find e) ss ts

/-- Every stream has the document. -/
def AllHave (ss : List Scorer) (e : Nat) : Prop := ∀ s ∈ ss, (s.find e).isSome = true

/-- The sum of the scores the streams give to a document. -/
def total (ss : List Scorer) (e : Nat) : Score := (ss.map fun s => (s.find e).getD 0).sum

instance (ss : List Scorer) (e : Nat) : Decidable (AllHave ss e) :=
  inferInstanceAs (Decidable (∀ s ∈ ss, (s.find e).isSome = true))

theorem AgreeFrom.refl (c : Nat) (ss : List Scorer) : AgreeFrom c ss ss :=
  List.forall₂_same.mpr fun _ _ _ _ => rfl

variable {ss ts : List Scorer}

theorem AgreeFrom.mono {a b : Nat} (h : AgreeFrom a ss ts) (hab : a ≤ b) :
    AgreeFrom b ss ts :=
  List.Forall₂.imp (fun _ _ hst e he => hst e (hab.trans he)) h

variable {c : Nat}

theorem AgreeFrom.trans {us : List Scorer} (hst : AgreeFrom c ss ts) (htu : AgreeFrom c ts us) :
    AgreeFrom c ss us := by
  induction hst generalizing us with
  | nil => cases htu; exact .nil
  | cons h _ ih =>
    cases htu with
    | cons h' hrest => exact .cons (fun e he => (h' e he).trans (h e he)) (ih hrest)

theorem AgreeFrom.allHave_iff (h : AgreeFrom c ss ts) {e : Nat} (he : c ≤ e) :
    AllHave ts e ↔ AllHave ss e := by
  unfold AllHave
  induction h with
  | nil => simp
  | cons hst _ ih =>
    simp [ih, hst e he]

theorem AgreeFrom.total_eq (h : AgreeFrom c ss ts) {e : Nat} (he : c ≤ e) :
    total ts e = total ss e := by
  unfold total
  induction h with
  | nil => rfl
  | cons hst _ ih => simp [ih, hst e he]

theorem agree_seek (s : Scorer) (c : Nat) : ∀ e, c ≤ e → (s.seek c).find e = s.find e :=
  fun e he => by rw [Scorer.find_seek, if_neg (by omega)]

/-- A stream that a seek leaves past `e` does not have `e`. -/
theorem find_eq_none_of_lt_seek (s : Scorer) {e : Nat} (hc : c ≤ e) (he : e < (s.seek c).doc) :
    s.find e = none := by
  rw [← agree_seek s c e hc]
  exact (s.seek c).find_eq_none_of_lt_doc he

theorem seekPass_spec (hc : c ≤ TERMINATED) (ss : List Scorer) :
    AgreeFrom c ss (seekPass c ss).1 ∧
      match (seekPass c ss).2 with
      | none => ∀ s ∈ (seekPass c ss).1, s.doc = c
      | some n => c < n ∧ n ≤ TERMINATED ∧ ∀ e, c ≤ e → e < n → ¬AllHave ss e := by
  induction ss with
  | nil => exact ⟨.nil, fun s hs => nomatch hs⟩
  | cons s rest ih =>
    unfold seekPass
    by_cases hlt : c < (s.seek c).doc
    · simp only [if_pos hlt]
      refine ⟨.cons (agree_seek s c) (AgreeFrom.refl c rest), hlt, (s.seek c).doc_le_terminated, ?_⟩
      intro e hce hen hall
      have hsome := hall s (by simp)
      rw [find_eq_none_of_lt_seek s hce hen] at hsome
      cases hsome
    · simp only [if_neg hlt]
      refine ⟨.cons (agree_seek s c) ih.1, ?_⟩
      have hdoc : (s.seek c).doc = c := le_antisymm (not_lt.mp hlt) (s.le_doc_seek hc)
      have hpass := ih.2
      split at hpass
      · intro t ht
        rcases List.mem_cons.mp ht with rfl | ht
        · exact hdoc
        · exact hpass t ht
      · refine ⟨hpass.1, hpass.2.1, fun e hce hen hall => hpass.2.2 e hce hen ?_⟩
        exact fun t ht => hall t (List.mem_cons_of_mem _ ht)

theorem lt_of_seekPass_eq {n : Nat} (h : seekPass c ss = (ts, some n)) :
    c < n ∧ n ≤ TERMINATED := by
  induction ss generalizing ts with
  | nil => simp [seekPass] at h
  | cons s rest ih =>
    unfold seekPass at h
    by_cases hlt : c < (s.seek c).doc
    · simp only [if_pos hlt, Prod.mk.injEq, Option.some.injEq] at h
      rw [← h.2]
      exact ⟨hlt, (s.seek c).doc_le_terminated⟩
    · simp only [if_neg hlt, Prod.mk.injEq] at h
      exact ih (Prod.ext rfl h.2 : seekPass c rest = ((seekPass c rest).1, some n))

/-- The outer loop of `go_to_first_doc`. -/
def goToFirstDoc (docsets : List Scorer) (candidate : Nat) : List Scorer × Nat :=
  match h : seekPass candidate docsets with
  | (docsets, none) => (docsets, candidate)
  | (docsets, some next) =>
    have := lt_of_seekPass_eq h
    goToFirstDoc docsets next
termination_by TERMINATED - candidate

/-- A pass that no stream goes past is the last one. -/
theorem goToFirstDoc_of_none (h : seekPass c ss = (ts, none)) :
    goToFirstDoc ss c = (ts, c) := by
  rw [goToFirstDoc]
  split
  · rename_i ts' h'
    obtain ⟨rfl, -⟩ := Prod.mk.inj (h.symm.trans h')
    rfl
  · rename_i h'
    rw [h] at h'
    cases h'

theorem goToFirstDoc_of_some {n : Nat} (h : seekPass c ss = (ts, some n)) :
    goToFirstDoc ss c = goToFirstDoc ts n := by
  rw [goToFirstDoc]
  split
  · rename_i h'
    rw [h] at h'
    cases h'
  · rename_i ts' n' h'
    rw [h] at h'
    obtain ⟨rfl, heq⟩ := Prod.mk.inj h'
    cases heq
    rfl

theorem goToFirstDoc_spec (hc : c ≤ TERMINATED) (ss : List Scorer) :
    let r := goToFirstDoc ss c
    c ≤ r.2 ∧ r.2 ≤ TERMINATED ∧ AgreeFrom r.2 ss r.1 ∧ (∀ s ∈ r.1, s.doc = r.2) ∧
      ∀ e, c ≤ e → e < r.2 → ¬AllHave ss e := by
  induction ss, c using goToFirstDoc.induct with
  | case1 ss c ts h =>
    have hpass := seekPass_spec hc ss
    rw [h] at hpass
    rw [goToFirstDoc_of_none h]
    exact ⟨le_refl _, hc, hpass.1, hpass.2, fun e he hlt => absurd hlt (by omega)⟩
  | case2 ss c ts n h _ ih =>
    have hpass := seekPass_spec hc ss
    rw [h] at hpass
    obtain ⟨hagree, hcn, hn, hnone⟩ := hpass
    obtain ⟨hle, hterm, hagree', hdocs, hgap⟩ := ih hn
    rw [goToFirstDoc_of_some h]
    refine ⟨by omega, hterm, (hagree.mono (by omega)).trans hagree', hdocs, ?_⟩
    intro e hce hlt hall
    by_cases hen : e < n
    · exact hnone e hce hen hall
    · exact hgap e (not_lt.mp hen) hlt ((hagree.allHave_iff hce).mpr hall)

end Intersection

/-- `Intersection`: the two rarest streams and the others. -/
structure Intersection where
  left : Scorer
  right : Scorer
  others : List Scorer

namespace Intersection

def docsets (s : Intersection) : List Scorer := s.left :: s.right :: s.others

/-- All streams stand on the document of the first. -/
def Aligned (s : Intersection) : Prop := ∀ t ∈ s.docsets, t.doc = s.left.doc

/-- The left stream is moved behind the right one, never back. -/
theorem le_doc_chase (left right : Scorer) :
    left.doc ≤ (right.seek left.doc).doc ∧
      (right.seek left.doc).doc ≤ (left.seek (right.seek left.doc).doc).doc :=
  ⟨right.le_doc_seek left.doc_le_terminated,
    left.le_doc_seek (right.seek left.doc).doc_le_terminated⟩

/-- When the two rarest streams differ, the left one has moved. -/
theorem lt_doc_of_ne {left right : Scorer}
    (hne : (left.seek (right.seek left.doc).doc).doc ≠ (right.seek left.doc).doc) :
    TERMINATED - (left.seek (right.seek left.doc).doc).doc < TERMINATED - left.doc := by
  have hchase := le_doc_chase left right
  have hterm := (left.seek (right.seek left.doc).doc).doc_le_terminated
  omega

/-- When one of the others goes past the candidate, the left stream follows it. -/
theorem lt_doc_of_seekPass {left right : Scorer} {others ts : List Scorer} {n : Nat}
    (h : seekPass (left.seek (right.seek left.doc).doc).doc others = (ts, some n)) :
    TERMINATED - ((left.seek (right.seek left.doc).doc).seek n).doc < TERMINATED - left.doc := by
  have hchase := le_doc_chase left right
  have hn := lt_of_seekPass_eq h
  have hseek := (left.seek (right.seek left.doc).doc).le_doc_seek hn.2
  omega

/-- `advance`, behind the step of the left stream.  The two rarest streams chase each other to a
    common document, which the others then confirm or refuse. -/
def settle (s : Intersection) : Intersection :=
  let right := s.right.seek s.left.doc
  let left := s.left.seek right.doc
  if hne : left.doc ≠ right.doc then
    have := lt_doc_of_ne hne
    settle ⟨left, right, s.others⟩
  else
    match h : seekPass left.doc s.others with
    | (others, none) => ⟨left, right, others⟩
    | (others, some next) =>
      have := lt_doc_of_seekPass h
      settle ⟨left.seek next, right, others⟩
termination_by TERMINATED - s.left.doc

/-- What `settle` reaches: the first document from the left one's on that all streams have. -/
structure Settled (s t : Intersection) : Prop where
  le_doc : s.left.doc ≤ t.left.doc
  length_le : t.left.hits.length ≤ s.left.hits.length
  agree : AgreeFrom t.left.doc s.docsets t.docsets
  aligned : t.Aligned
  gap : ∀ e, s.left.doc ≤ e → e < t.left.doc → ¬AllHave s.docsets e

variable {s : Intersection}

/-- One round of the loop that ends further on is a round of the whole loop. -/
theorem Settled.step {m t : Intersection} (hm : Settled m t) (hle : s.left.doc ≤ m.left.doc)
    (hlen : m.left.hits.length ≤ s.left.hits.length)
    (hagree : AgreeFrom m.left.doc s.docsets m.docsets)
    (hgap : ∀ e, s.left.doc ≤ e → e < m.left.doc → ¬AllHave s.docsets e) : Settled s t where
  le_doc := hle.trans hm.le_doc
  length_le := hm.length_le.trans hlen
  agree := (hagree.mono hm.le_doc).trans hm.agree
  aligned := hm.aligned
  gap e hse het hall := by
    by_cases hem : e < m.left.doc
    · exact hgap e hse hem hall
    · have hme := not_lt.mp hem
      exact hm.gap e hme het ((hagree.allHave_iff hme).mpr hall)

/-- The documents between the left stream's and the one it is moved to are not in both. -/
theorem not_allHave_chase (s : Intersection) (e : Nat) (hse : s.left.doc ≤ e)
    (hlt : e < (s.left.seek (s.right.seek s.left.doc).doc).doc) : ¬AllHave s.docsets e := by
  intro hall
  by_cases her : e < (s.right.seek s.left.doc).doc
  · have hsome := hall s.right (by simp [docsets])
    rw [find_eq_none_of_lt_seek s.right hse her] at hsome
    cases hsome
  · have hsome := hall s.left (by simp [docsets])
    rw [find_eq_none_of_lt_seek s.left (not_lt.mp her) hlt] at hsome
    cases hsome

theorem settle_spec (s : Intersection) : Settled s s.settle := by
  induction s using settle.induct with
  | case1 s right left hne _ ih =>
    -- the two leading streams disagree and the loop starts over
    have hstep : s.settle = settle ⟨left, right, s.others⟩ := by
      rw [settle]
      exact dif_pos hne
    rw [hstep]
    obtain ⟨hr, hl⟩ := le_doc_chase s.left s.right
    refine ih.step (hr.trans hl) (s.left.length_seek_le _) ?_ (not_allHave_chase s)
    refine .cons (fun e he => agree_seek s.left _ e (hl.trans he)) (.cons ?_ (AgreeFrom.refl _ _))
    exact fun e he => agree_seek s.right _ e ((hr.trans hl).trans he)
  | case2 s right left heq others h =>
    -- every other stream stops at the candidate
    have hstep : s.settle = ⟨left, right, others⟩ := by
      rw [settle, dif_neg heq]
      split
      · rename_i others' h'
        obtain ⟨rfl, -⟩ := Prod.mk.inj (h.symm.trans h')
        rfl
      · rename_i h'
        have := h.symm.trans h'
        cases this
    rw [hstep]
    obtain ⟨hr, hl⟩ := le_doc_chase s.left s.right
    have hpass := seekPass_spec left.doc_le_terminated s.others
    rw [h] at hpass
    refine ⟨hr.trans hl, s.left.length_seek_le _, ?_, ?_, not_allHave_chase s⟩
    · refine .cons (fun e he => agree_seek s.left _ e (hl.trans he)) (.cons ?_ hpass.1)
      exact fun e he => agree_seek s.right _ e ((hr.trans hl).trans he)
    · intro t ht
      rcases List.mem_cons.mp ht with rfl | ht
      · rfl
      · rcases List.mem_cons.mp ht with rfl | ht
        · exact (not_not.mp heq).symm
        · exact hpass.2 t ht
  | case3 s right left heq others next h _ ih =>
    -- one of the others is past the candidate, and the left stream is sent after it
    have hstep : s.settle = settle ⟨left.seek next, right, others⟩ := by
      rw [settle, dif_neg heq]
      split
      · rename_i h'
        have := h.symm.trans h'
        cases this
      · rename_i others' next' h'
        obtain ⟨rfl, hnext⟩ := Prod.mk.inj (h.symm.trans h')
        cases hnext
        rfl
    rw [hstep]
    obtain ⟨hr, hl⟩ := le_doc_chase s.left s.right
    have hpass := seekPass_spec left.doc_le_terminated s.others
    rw [h] at hpass
    obtain ⟨hagree, hcn, hn, hnone⟩ := hpass
    have hseek : next ≤ (left.seek next).doc := left.le_doc_seek hn
    have hleft : s.left.doc ≤ left.doc := hr.trans hl
    refine ih.step (by show s.left.doc ≤ (left.seek next).doc; omega)
      ((left.length_seek_le next).trans (s.left.length_seek_le _)) ?_ ?_
    · show AgreeFrom (left.seek next).doc s.docsets _
      refine .cons (fun e he => ?_) (.cons (fun e he => ?_) (hagree.mono (by omega)))
      · rw [agree_seek left next e (by omega)]
        exact agree_seek s.left _ e (by omega)
      · exact agree_seek s.right _ e (by omega)
    · intro e hse het hall
      by_cases hel : e < left.doc
      · exact not_allHave_chase s e hse hel hall
      -- what lies between the candidate and `next` misses the stream that refused it
      · by_cases hen : e < next
        · exact hnone e (not_lt.mp hel) hen fun t ht => hall t (by simp [docsets, ht])
        · have hsome := hall s.left (by simp [docsets])
          have hagr := agree_seek s.left _ e (hl.trans (not_lt.mp hel))
          rw [← hagr, find_eq_none_of_lt_seek left (not_lt.mp hen) het] at hsome
          cases hsome

/-- `score`: the sum over all streams. -/
def score (s : Intersection) : Score :=
  s.left.score + s.right.score + (s.others.map Scorer.score).sum

/-- What an intersection hands out when it is advanced to its end. -/
def hits (s : Intersection) : List (Nat × Score) :=
  if hdoc : s.left.doc = TERMINATED then []
  else
    have := lt_of_le_of_lt (settle_spec { s with left := s.left.advance }).length_le
      (s.left.length_advance hdoc)
    (s.left.doc, s.score) :: hits (settle { s with left := s.left.advance })
termination_by s.left.hits.length

/-- On a document they all stand on, the current scores of the streams add up to the total. -/
theorem Aligned.score_eq (h : s.Aligned) (hdoc : s.left.doc ≠ TERMINATED) :
    s.score = total s.docsets s.left.doc := by
  have hscore : ∀ t ∈ s.docsets, t.score = (t.find s.left.doc).getD 0 := by
    intro t ht
    rw [← h t ht, t.find_doc (by rw [h t ht]; exact hdoc)]
    rfl
  have hmap : s.docsets.map Scorer.score = s.docsets.map fun t => (t.find s.left.doc).getD 0 :=
    List.map_congr_left hscore
  rw [total, ← hmap]
  simp [docsets, score, add_assoc]

theorem Aligned.allHave (h : s.Aligned) (hdoc : s.left.doc ≠ TERMINATED) :
    AllHave s.docsets s.left.doc := by
  intro t ht
  rw [← h t ht, t.find_doc (by rw [h t ht]; exact hdoc)]
  rfl

/-- Past the current document, stepping the left stream changes nothing. -/
theorem agree_advance (s : Intersection) (hdoc : s.left.doc ≠ TERMINATED) :
    AgreeFrom (s.left.doc + 1) s.docsets ({ s with left := s.left.advance } : Intersection).docsets := by
  refine .cons (fun e he => ?_) (AgreeFrom.refl _ _)
  rw [s.left.find_advance hdoc, if_neg (by omega)]

/-- The next document of the left stream lies behind the current one. -/
theorem lt_doc_advance (s : Scorer) (hdoc : s.doc ≠ TERMINATED) : s.doc < s.advance.doc := by
  by_contra hle
  have hne : s.advance.doc ≠ TERMINATED := by
    have := s.doc_le_terminated
    omega
  have hfind := s.advance.find_doc hne
  rw [s.find_advance hdoc, if_pos (not_lt.mp hle)] at hfind
  cases hfind

/-- **Leapfrog.** From an aligned state on, an intersection enumerates the documents all its
    streams have, in order and each with the sum of its scores. -/
theorem hits_spec (s : Intersection) (h : s.Aligned) :
    Ascending s.hits ∧ (∀ p ∈ s.hits, s.left.doc ≤ p.1 ∧ p.1 < TERMINATED) ∧
      ∀ e, s.hits.lookup e = if AllHave s.docsets e then some (total s.docsets e) else none := by
  induction s using hits.induct with
  | case1 s hdoc =>
    rw [hits, dif_pos hdoc]
    refine ⟨Ascending.nil, fun p hp => (nomatch hp), fun e => ?_⟩
    rw [if_neg]
    · rfl
    · intro hall
      have hsome := hall s.left (by simp [docsets])
      rw [Scorer.find_eq_none_of_ended hdoc] at hsome
      cases hsome
  | case2 s hdoc _ ih =>
    set t := settle { s with left := s.left.advance } with ht
    have hset : Settled { s with left := s.left.advance } t := settle_spec _
    obtain ⟨hasc, hge, hlook⟩ := ih hset.aligned
    have hlt : s.left.doc < t.left.doc := (lt_doc_advance s.left hdoc).trans_le hset.le_doc
    have hterm := s.left.doc_le_terminated
    have hhits : s.hits = (s.left.doc, s.score) :: t.hits := by
      rw [hits, dif_neg hdoc]
    -- what the settled state knows about a document, in terms of the state before the step
    have hfrom : AgreeFrom t.left.doc s.docsets t.docsets :=
      ((agree_advance s hdoc).mono hlt).trans hset.agree
    rw [hhits]
    refine ⟨List.pairwise_cons.mpr ⟨fun p hp => hlt.trans_le (hge p hp).1, hasc⟩, ?_, ?_⟩
    · intro p hp
      rcases List.mem_cons.mp hp with rfl | hp
      · exact ⟨le_refl _, by omega⟩
      · exact ⟨hlt.le.trans (hge p hp).1, (hge p hp).2⟩
    · intro e
      rw [List.lookup_cons]
      by_cases he : e = s.left.doc
      · subst he
        rw [if_pos (h.allHave hdoc), ← h.score_eq hdoc]
        simp
      · have hbeq : (e == s.left.doc) = false := by simpa using he
        rw [hbeq]
        by_cases het : e < t.left.doc
        · rw [Ascending.lookup_eq_none_of_lt fun p hp => het.trans_le (hge p hp).1, if_neg]
          intro hall
          by_cases hel : e < s.left.doc
          · have hsome := hall s.left (by simp [docsets])
            rw [s.left.find_eq_none_of_lt_doc hel] at hsome
            cases hsome
          · have hle : s.left.doc + 1 ≤ e := by omega
            have hall' := ((agree_advance s hdoc).allHave_iff hle).mpr hall
            by_cases hadv : e < s.left.advance.doc
            · have hsome := hall' s.left.advance (by simp [docsets])
              rw [s.left.advance.find_eq_none_of_lt_doc hadv] at hsome
              cases hsome
            · exact hset.gap e (not_lt.mp hadv) het hall'
        · have hte := not_lt.mp het
          simp only [hlook, hfrom.total_eq hte]
          exact if_congr (hfrom.allHave_iff hte) rfl rfl

/-- The stream of an aligned intersection. -/
def build (s : Intersection) (h : s.Aligned) : Scorer where
  hits := s.hits
  ascending := (hits_spec s h).1
  lt_terminated p hp := ((hits_spec s h).2.1 p hp).2

end Intersection

/-- The documents behind the ones `go_to_first_doc` stops at; the first two streams become the
    two sides of the intersection. -/
theorem Intersection.aligned_goToFirstDoc {c : Nat} (hc : c ≤ TERMINATED) {ss : List Scorer}
    {left right : Scorer} {others : List Scorer} {doc : Nat}
    (h : goToFirstDoc ss c = (left :: right :: others, doc)) :
    (⟨left, right, others⟩ : Intersection).Aligned ∧ left.doc = doc := by
  have hspec := goToFirstDoc_spec hc ss
  simp only [h] at hspec
  obtain ⟨-, -, -, hdocs, -⟩ := hspec
  have hleft := hdocs left (by simp)
  exact ⟨fun t ht => (hdocs t ht).trans hleft.symm, hleft⟩

section Intersect

-- `size_hint` is a best-effort guess and only orders the streams
variable (sizeHint : Scorer → Nat)

/-- The largest current document, where `go_to_first_doc` starts. -/
def maxDoc (ss : List Scorer) : Nat := (ss.map Scorer.doc).foldr max 0

theorem maxDoc_le_terminated (ss : List Scorer) : maxDoc ss ≤ TERMINATED := by
  induction ss with
  | nil => exact Nat.zero_le _
  | cons s rest ih => exact max_le s.doc_le_terminated ih

/-- `intersect_scorers`. -/
def intersectScorers (scorers : List Scorer) : Scorer :=
  match scorers with
  | [] => Scorer.empty
  | [scorer] => scorer
  | scorers =>
    let scorers := scorers.mergeSort fun a b => sizeHint a ≤ sizeHint b
    match h : Intersection.goToFirstDoc scorers (maxDoc scorers) with
    | (left :: right :: others, doc) =>
      if doc = TERMINATED then Scorer.empty
      else
        Intersection.build ⟨left, right, others⟩
          (Intersection.aligned_goToFirstDoc (maxDoc_le_terminated _) h).1
    | _ => Scorer.empty

theorem Intersection.allHave_perm {ss ts : List Scorer} (h : ss.Perm ts) (e : Nat) :
    AllHave ss e ↔ AllHave ts e :=
  forall_congr' fun s => by rw [h.mem_iff]

theorem Intersection.total_perm {ss ts : List Scorer} (h : ss.Perm ts) (e : Nat) :
    total ss e = total ts e :=
  (h.map _).sum_eq

theorem length_goToFirstDoc {c : Nat} (hc : c ≤ TERMINATED) (ss : List Scorer) :
    (Intersection.goToFirstDoc ss c).1.length = ss.length :=
  (Intersection.goToFirstDoc_spec hc ss).2.2.1.length_eq.symm

/-- A document below the largest current one is not in every stream. -/
theorem not_allHave_of_lt_maxDoc {ss : List Scorer} {e : Nat} (h : e < maxDoc ss) :
    ¬Intersection.AllHave ss e := by
  induction ss with
  | nil => exact absurd h (Nat.not_lt_zero e)
  | cons s rest ih =>
    intro hall
    rcases lt_max_iff.mp (show e < max s.doc (maxDoc rest) from h) with hs | hrest
    · have hsome := hall s (by simp)
      rw [s.find_eq_none_of_lt_doc hs] at hsome
      cases hsome
    · exact ih hrest fun t ht => hall t (List.mem_cons_of_mem _ ht)

/-- **Intersection** finds the documents that every stream has, with the sum of their scores. -/
theorem find_intersectScorers {scorers : List Scorer} (hne : scorers ≠ []) (d : Nat) :
    (intersectScorers sizeHint scorers).find d =
      if Intersection.AllHave scorers d then some (Intersection.total scorers d) else none := by
  match scorers, hne with
  | [s], _ =>
    show s.find d = _
    cases h : s.find d <;> simp [Intersection.AllHave, Intersection.total, h]
  | s :: t :: rest, _ =>
    set sorted := (s :: t :: rest).mergeSort fun a b => sizeHint a ≤ sizeHint b with hsorted
    have hperm : sorted.Perm (s :: t :: rest) := List.mergeSort_perm _ _
    have hmax := maxDoc_le_terminated sorted
    have hlen := length_goToFirstDoc hmax sorted
    have hspec := Intersection.goToFirstDoc_spec hmax sorted
    rw [hperm.length_eq] at hlen
    rw [← if_congr (Intersection.allHave_perm hperm d) rfl rfl, ← Intersection.total_perm hperm]
    unfold intersectScorers
    dsimp only
    split
    · rename_i left right others doc h
      have h' : Intersection.goToFirstDoc sorted (maxDoc sorted) = (left :: right :: others, doc) :=
        h
      simp only [h'] at hspec
      obtain ⟨-, hterm, hagree, hdocs, hgap⟩ := hspec
      -- below the document the streams were moved to, none is in all of them
      have hbelow : ∀ e, e < doc → ¬Intersection.AllHave sorted e := by
        intro e he
        by_cases hmx : e < maxDoc sorted
        · exact not_allHave_of_lt_maxDoc hmx
        · exact hgap e (not_lt.mp hmx) he
      split
      · rw [if_neg]
        · rfl
        · intro hall
          have hmem : s ∈ sorted := hperm.mem_iff.mpr (by simp)
          have hlt := s.find_lt_terminated (hall s hmem)
          exact hbelow d (by omega) hall
      · have hal := Intersection.aligned_goToFirstDoc hmax h
        have hfind := (Intersection.hits_spec ⟨left, right, others⟩ hal.1).2.2 d
        show (Intersection.hits ⟨left, right, others⟩).lookup d = _
        rw [hfind]
        show (if Intersection.AllHave (left :: right :: others) d then _ else _) = _
        by_cases hd : d < doc
        · rw [if_neg (hbelow d hd), if_neg]
          intro hall
          have hsome := hall left (by simp)
          rw [left.find_eq_none_of_lt_doc (by rw [hal.2]; exact hd)] at hsome
          cases hsome
        · have hle := not_lt.mp hd
          rw [← if_congr (hagree.allHave_iff hle) rfl rfl]
          congr 2
          exact hagree.total_eq hle
    · rename_i x hx
      exfalso
      match hgo : Intersection.goToFirstDoc sorted (maxDoc sorted) with
      | ([], doc) => simp [hgo] at hlen
      | ([_], doc) => simp [hgo] at hlen
      | (left :: right :: others, doc) => exact hx left right others doc hgo

end Intersect

end TeaclaveCrates.Tantivy
