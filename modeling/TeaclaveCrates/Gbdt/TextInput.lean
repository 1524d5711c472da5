import TeaclaveCrates.Lib.Ascii
import TeaclaveCrates.Gbdt.Input

namespace TeaclaveCrates.Gbdt

open Lib

/-!
# Loading samples in LibSVM format

`load_txt` reads a sample from each line: a token without a colon is the label, a token
`index:value` is a feature. The variables for the label, the index and the value are declared
outside of the loop over the lines, so that a line can see what an earlier one has left in them.

* `TxtVars`, `txtToken`, `loadTxt` — the function of `input.rs`.
* `features` — the features that the tokens of a line name, all others unknown.
* `loadTxt_eq_some_iff` — what is loaded: the features are those of the line, the label is the last
  one read.
* `loadTxt_append_iff` — when the lines of two files together load as the files do one by one.
-/

/-- The settings that `load_txt` reads. -/
structure TxtFormat where
  featureSize : Nat
  delimeter : Char
  deriving DecidableEq, Repr

/-- The variables that live outside of the loop over the lines. -/
structure TxtVars (V : Type) where
  label : V
  idx : Nat
  val : V
  deriving DecidableEq, Repr

/-- `parse::<usize>` -/
def parseUsize (s : List Char) : Except ParseIntError Nat := parseUnsigned (2 ^ 64) s

section

variable {V : Type} [Zero V] [One V] (unknown : V) (parse : List Char → Option V) (fmt : TxtFormat)

/-! ### The code -/

/-- A token of a line. A label that is no number ends the program, other malformed tokens are
    skipped. -/
def txtToken (vars : TxtVars V) (v : List V) (token : List Char) : Option (TxtVars V × List V) :=
  match token.splitOn ':' with
  | [index, value] =>
    let (idx, err) :=
      match parseUsize index with
      | .ok kk => (kk, false)
      | .error _ => (vars.idx, true)
    let (val, err) :=
      match parse value with
      | some vv => (vv, err)
      | none => (vars.val, true)
    let err := err || decide (fmt.featureSize ≤ idx)
    some ({ vars with idx := idx, val := val }, if err then v else v.set idx val)
  | [label] => (parse label).map fun label => ({ vars with label := label }, v)
  | _ => some (vars, v)

/-- The loop over the tokens of a line. -/
def txtTokens : TxtVars V → List V → List (List Char) → Option (TxtVars V × List V)
  | vars, v, [] => some (vars, v)
  | vars, v, token :: tokens =>
    (txtToken parse fmt vars v token).bind fun (vars, v) => txtTokens vars v tokens

/-- The loop over the lines. -/
def txtLines : TxtVars V → List (List Char) → Option (TxtVars V × List (Data V))
  | vars, [] => some (vars, [])
  | vars, line :: lines =>
    (txtTokens parse fmt vars (List.replicate fmt.featureSize unknown)
      (line.splitOn fmt.delimeter)).bind fun (vars, v) =>
        (txtLines vars lines).map fun (vars', dv) => (vars', sampleOf vars.label v :: dv)

/-- `load_txt` -/
def loadTxt (text : List Char) : Option (List (Data V)) :=
  (txtLines unknown parse fmt ⟨0, 0, 0⟩ (bufLines text)).map Prod.snd

/-! ### What a line says -/

/-- The feature that a token sets. -/
def entry (token : List Char) : Option (Nat × V) :=
  match token.splitOn ':' with
  | [index, value] =>
    match parseUsize index, parse value with
    | .ok idx, some val => if idx < fmt.featureSize then some (idx, val) else none
    | _, _ => none
  | _ => none

/-- The features that a line sets, in their order. -/
def entries (line : List Char) : List (Nat × V) :=
  (line.splitOn fmt.delimeter).filterMap (entry parse fmt)

/-- The features of a line: the last value that is given for each, and unknown for all others. -/
def features (line : List Char) : List V :=
  (List.range fmt.featureSize).map fun j =>
    (((entries parse fmt line).filter fun e => e.1 = j).getLast?.map Prod.snd).getD unknown

/-- The text of a token that is a label. -/
def labelText (token : List Char) : Option (List Char) :=
  match token.splitOn ':' with
  | [label] => some label
  | _ => none

/-- The texts of the labels of a line. -/
def labelTexts (line : List Char) : List (List Char) :=
  (line.splitOn fmt.delimeter).filterMap labelText

/-- The labels of a line. -/
def labels (line : List Char) : List V := (labelTexts fmt line).filterMap parse

/-- The label that a line leaves, when the one before it left `label`. -/
def nextLabel (label : V) (line : List Char) : V := ((labels parse fmt line).getLast?).getD label

/-- The samples of some lines, when the line before them left `label`. -/
def samplesFrom (label : V) : List (List Char) → List (Data V)
  | [] => []
  | line :: lines =>
    sampleOf (nextLabel parse fmt label line) (features unknown parse fmt line) ::
      samplesFrom (nextLabel parse fmt label line) lines

/-- The last label of some lines. -/
def lastLabel (lines : List (List Char)) : V := lines.foldl (nextLabel parse fmt) 0

end

/-! ### One line -/

section

variable {V : Type} {parse : List Char → Option V} {fmt : TxtFormat}

/-- Setting features one after the other. -/
def setAll (v : List V) (es : List (Nat × V)) : List V := es.foldl (fun v e => v.set e.1 e.2) v

theorem length_setAll (v : List V) (es : List (Nat × V)) : (setAll v es).length = v.length := by
  induction es generalizing v with
  | nil => rfl
  | cons e es ih => exact (ih (v.set e.1 e.2)).trans List.length_set

/-- The last value that is set for a place stays in it. -/
theorem getElem?_setAll (v : List V) (es : List (Nat × V)) (j : Nat) :
    (setAll v es)[j]? =
      v[j]?.map fun x => ((es.filter fun e => e.1 = j).getLast?.map Prod.snd).getD x := by
  induction es using List.reverseRecOn with
  | nil => simp [setAll]
  | append_singleton es e ih =>
    have hlast : setAll v (es ++ [e]) = (setAll v es).set e.1 e.2 := List.foldl_concat ..
    rw [hlast, List.getElem?_set, List.filter_append]
    by_cases hj : e.1 = j
    · subst hj
      rw [if_pos rfl, length_setAll]
      by_cases hlt : e.1 < v.length
      · simp [hlt]
      · simp [hlt]
    · simp [ih, hj]

/-- The features of a line are those that its tokens set. -/
theorem features_eq (unknown : V) (line : List Char) :
    features unknown parse fmt line =
      setAll (List.replicate fmt.featureSize unknown) (entries parse fmt line) := by
  apply List.ext_getElem?
  intro j
  rw [getElem?_setAll, features, List.getElem?_map]
  by_cases hj : j < fmt.featureSize
  · simp [hj]
  · simp [hj]

/-- A token is a label, or it sets a feature, or it changes nothing that is loaded. -/
theorem txtToken_eq (parse : List Char → Option V) (fmt : TxtFormat) (vars : TxtVars V)
    (v : List V) (token : List Char) :
    ∃ idx val, txtToken parse fmt vars v token =
      match labelText token with
      | some text => (parse text).map fun label => (⟨label, vars.idx, vars.val⟩, v)
      | none => some (⟨vars.label, idx, val⟩, setAll v (entry parse fmt token).toList) := by
  unfold txtToken labelText entry
  rcases token.splitOn ':' with _ | ⟨a, _ | ⟨b, _ | ⟨c, rest⟩⟩⟩
  · exact ⟨vars.idx, vars.val, rfl⟩
  · exact ⟨vars.idx, vars.val, rfl⟩
  · cases hidx : parseUsize a with
    | error e =>
      cases hval : parse b with
      | none => exact ⟨vars.idx, vars.val, by simp [hidx, hval, setAll]⟩
      | some val => exact ⟨vars.idx, val, by simp [hidx, hval, setAll]⟩
    | ok idx =>
      cases hval : parse b with
      | none => exact ⟨idx, vars.val, by simp [hidx, hval, setAll]⟩
      | some val =>
        by_cases hlt : idx < fmt.featureSize
        · simp [hidx, hval, hlt, setAll]
        · simp [hidx, hval, hlt, setAll]
  · exact ⟨vars.idx, vars.val, rfl⟩

/-- The tokens of a line: the last label stays, and the features are set one after the other. -/
theorem txtTokens_eq (parse : List Char → Option V) (fmt : TxtFormat)
    (tokens : List (List Char)) (vars : TxtVars V) (v : List V) :
    ((∀ text ∈ tokens.filterMap labelText, (parse text).isSome = true) ∧
      ∃ idx val, txtTokens parse fmt vars v tokens =
        some (⟨(((tokens.filterMap labelText).filterMap parse).getLast?).getD vars.label, idx, val⟩,
          setAll v (tokens.filterMap (entry parse fmt)))) ∨
    ((∃ text ∈ tokens.filterMap labelText, parse text = none) ∧
      txtTokens parse fmt vars v tokens = none) := by
  induction tokens generalizing vars v with
  | nil => exact Or.inl ⟨by simp, vars.idx, vars.val, rfl⟩
  | cons token tokens ih =>
    obtain ⟨idx, val, htoken⟩ := txtToken_eq parse fmt vars v token
    rw [txtTokens, htoken]
    cases hlabel : labelText token with
    | none =>
      rw [List.filterMap_cons_none hlabel]
      have hentry : setAll v ((token :: tokens).filterMap (entry parse fmt)) =
          setAll (setAll v (entry parse fmt token).toList) (tokens.filterMap (entry parse fmt)) := by
        cases hentry : entry parse fmt token with
        | none => simp [hentry, setAll]
        | some e => simp [hentry, setAll]
      rw [hentry]
      exact ih ⟨vars.label, idx, val⟩ (setAll v (entry parse fmt token).toList)
    | some text =>
      rw [List.filterMap_cons_some hlabel]
      -- a label is no entry of the features
      have hentry : entry parse fmt token = none := by
        unfold labelText at hlabel
        unfold entry
        split at hlabel
        · rename_i hsplit
          rw [hsplit]
        · exact absurd hlabel (by simp)
      rw [List.filterMap_cons_none hentry]
      dsimp only
      -- a label that is no number stops the loading
      cases hparse : parse text with
      | none => exact Or.inr ⟨⟨text, List.mem_cons_self .., hparse⟩, rfl⟩
      | some label =>
        rw [Option.map_some, Option.bind_some]
        rcases ih ⟨label, vars.idx, vars.val⟩ v with ⟨hall, idx', val', hrest⟩ | ⟨⟨bad, hbad,
          hnone⟩, hrest⟩
        · refine Or.inl ⟨?_, idx', val', ?_⟩
          · intro t ht
            rcases List.mem_cons.mp ht with rfl | ht
            · simp [hparse]
            · exact hall t ht
          · simp [hrest, List.filterMap_cons_some hparse, List.getLast?_cons]
        · exact Or.inr ⟨⟨bad, List.mem_cons_of_mem _ hbad, hnone⟩, hrest⟩

/-! ### The lines of a file -/

/-- All labels of a line are numbers. -/
def Readable (parse : List Char → Option V) (fmt : TxtFormat) (line : List Char) : Prop :=
  ∀ text ∈ labelTexts fmt line, (parse text).isSome = true

theorem labels_ne_nil_iff {line : List Char} (h : Readable parse fmt line) :
    labels parse fmt line ≠ [] ↔ labelTexts fmt line ≠ [] := by
  unfold Readable at h
  unfold labels
  cases hlabels : labelTexts fmt line with
  | nil => simp
  | cons text texts =>
    rw [hlabels] at h
    obtain ⟨label, hlabel⟩ := Option.isSome_iff_exists.mp (h text (List.mem_cons_self ..))
    simp [List.filterMap_cons_some hlabel]

variable [Zero V] [One V] {unknown : V}

/-- The lines are loaded if and only if their labels are numbers, and then to their samples. -/
theorem txtLines_eq (unknown : V) (parse : List Char → Option V) (fmt : TxtFormat)
    (lines : List (List Char)) (vars : TxtVars V) :
    ((∀ line ∈ lines, Readable parse fmt line) ∧
      ∃ idx val, txtLines unknown parse fmt vars lines =
        some (⟨lines.foldl (nextLabel parse fmt) vars.label, idx, val⟩,
          samplesFrom unknown parse fmt vars.label lines)) ∨
    ((∃ line ∈ lines, ¬Readable parse fmt line) ∧
      txtLines unknown parse fmt vars lines = none) := by
  induction lines generalizing vars with
  | nil => exact Or.inl ⟨by simp, vars.idx, vars.val, rfl⟩
  | cons line lines ih =>
    rw [txtLines]
    rcases txtTokens_eq parse fmt (line.splitOn fmt.delimeter) vars
      (List.replicate fmt.featureSize unknown) with
      ⟨hall, idx, val, htokens⟩ | ⟨⟨text, htext, hnone⟩, htokens⟩
    · have hlabel : (((line.splitOn fmt.delimeter).filterMap labelText).filterMap parse).getLast?.getD
          vars.label = nextLabel parse fmt vars.label line := rfl
      have hfeature : setAll (List.replicate fmt.featureSize unknown)
          ((line.splitOn fmt.delimeter).filterMap (entry parse fmt)) =
          features unknown parse fmt line := (features_eq unknown line).symm
      rw [htokens, hlabel, hfeature, Option.bind_some]
      -- the label of this line stays for the lines that have none
      rcases ih ⟨nextLabel parse fmt vars.label line, idx, val⟩ with
        ⟨hlines, idx', val', hrest⟩ | ⟨⟨bad, hbad, hnot⟩, hrest⟩
      · refine Or.inl ⟨?_, idx', val', ?_⟩
        · intro l hl
          rcases List.mem_cons.mp hl with rfl | hl
          · exact hall
          · exact hlines l hl
        · dsimp only
          rw [hrest]
          rfl
      · refine Or.inr ⟨⟨bad, List.mem_cons_of_mem _ hbad, hnot⟩, ?_⟩
        simp [hrest]
    · refine Or.inr ⟨⟨line, List.mem_cons_self .., ?_⟩, ?_⟩
      · intro hread
        have hsome := hread text htext
        rw [hnone] at hsome
        exact absurd hsome (by simp)
      · simp [htokens]

/-- **What is loaded.** The features of a sample are those of its line, and its label is the last
    one that has been read, in this line or before it. -/
theorem loadTxt_eq_some_iff {text : List Char} {dv : List (Data V)} :
    loadTxt unknown parse fmt text = some dv ↔
      (∀ line ∈ bufLines text, Readable parse fmt line) ∧
        dv = samplesFrom unknown parse fmt 0 (bufLines text) := by
  unfold loadTxt
  rcases txtLines_eq unknown parse fmt (bufLines text) ⟨0, 0, 0⟩ with ⟨hall, idx, val,
    hload⟩ | ⟨⟨line, hline, hnot⟩, hload⟩
  · rw [hload, Option.map_some, Option.some.injEq]
    exact ⟨fun h => ⟨hall, h.symm⟩, fun h => h.2.symm⟩
  · rw [hload]
    exact ⟨fun h => absurd h (by simp), fun h => absurd (h.1 line hline) hnot⟩

theorem samplesFrom_append (label : V) (a b : List (List Char)) :
    samplesFrom unknown parse fmt label (a ++ b) =
      samplesFrom unknown parse fmt label a ++
        samplesFrom unknown parse fmt (a.foldl (nextLabel parse fmt) label) b := by
  induction a generalizing label with
  | nil => rfl
  | cons line a ih => simp [samplesFrom, ih]

/-- Lines that start with a label do not depend on what was left before them. -/
theorem samplesFrom_eq_iff (label label' : V) (lines : List (List Char)) :
    samplesFrom unknown parse fmt label lines = samplesFrom unknown parse fmt label' lines ↔
      label = label' ∨ ∀ line ∈ lines.head?, labels parse fmt line ≠ [] := by
  cases lines with
  | nil => simp [samplesFrom]
  | cons line lines =>
    rw [samplesFrom, samplesFrom, List.head?_cons]
    simp only [Option.mem_some_iff, forall_eq']
    by_cases hnone : labels parse fmt line = []
    · -- the label is the one from before
      have hleft : ∀ l : V, nextLabel parse fmt l line = l := by
        intro l
        simp [nextLabel, hnone]
      rw [hleft, hleft]
      constructor
      · intro h
        left
        have hhead := (List.cons.inj h).1
        exact congrArg Data.label hhead
      · rintro (rfl | h)
        · rfl
        · exact absurd hnone h
    · have hsame : nextLabel parse fmt label line = nextLabel parse fmt label' line := by
        simp [nextLabel, List.getLast?_eq_some_getLast hnone]
      rw [hsame]
      exact ⟨fun _ => Or.inr hnone, fun _ => rfl⟩

theorem samplesFrom_feature (label : V) (lines : List (List Char)) :
    (samplesFrom unknown parse fmt label lines).map Data.feature =
      lines.map (features unknown parse fmt) := by
  induction lines generalizing label with
  | nil => rfl
  | cons line lines ih =>
    rw [samplesFrom, List.map_cons, ih]
    rfl

/-- **Lines are independent except for labels.** The lines of two files that can be loaded can be
    loaded together, and every sample has the features of its line. They give the samples of the
    two files, one behind the other, if and only if the last label of the first file is zero or the
    first line of the second one has a label. -/
theorem loadTxt_append_iff {textA textB textC : List Char} {dvA dvB : List (Data V)}
    (hA : loadTxt unknown parse fmt textA = some dvA)
    (hB : loadTxt unknown parse fmt textB = some dvB)
    (hC : bufLines textC = bufLines textA ++ bufLines textB) :
    ∃ dvC, loadTxt unknown parse fmt textC = some dvC ∧
      dvC.map Data.feature = (bufLines textC).map (features unknown parse fmt) ∧
      (dvC = dvA ++ dvB ↔ lastLabel parse fmt (bufLines textA) = 0 ∨
        ∀ line ∈ (bufLines textB).head?, labelTexts fmt line ≠ []) := by
  obtain ⟨hreadA, rfl⟩ := loadTxt_eq_some_iff.mp hA
  obtain ⟨hreadB, rfl⟩ := loadTxt_eq_some_iff.mp hB
  refine ⟨samplesFrom unknown parse fmt 0 (bufLines textC), loadTxt_eq_some_iff.mpr ⟨?_, rfl⟩,
    samplesFrom_feature 0 _, ?_⟩
  · intro line hline
    rw [hC, List.mem_append] at hline
    rcases hline with hline | hline
    · exact hreadA line hline
    · exact hreadB line hline
  · have hlabels : ∀ line ∈ (bufLines textB).head?,
        (labels parse fmt line ≠ [] ↔ labelTexts fmt line ≠ []) := by
      intro line hline
      have hread := hreadB line (List.mem_of_mem_head? hline)
      exact labels_ne_nil_iff hread
    rw [hC, samplesFrom_append, List.append_cancel_left_eq, samplesFrom_eq_iff]
    exact or_congr Iff.rfl (forall₂_congr hlabels)

end

/-- Two files of a line each, both with a label. -/
theorem loadTxt_append_iff_labels :
    ∃ dvC, loadTxt (-1) parseDigit ⟨2, ' '⟩ "1 0:2\n0 1:3\n".toList = some dvC ∧
      dvC.map Data.feature =
        (bufLines "1 0:2\n0 1:3\n".toList).map (features (-1) parseDigit ⟨2, ' '⟩) ∧
      (dvC = [sampleOf 1 [2, -1]] ++ [sampleOf 0 [-1, 3]] ↔
        lastLabel parseDigit ⟨2, ' '⟩ (bufLines "1 0:2\n".toList) = 0 ∨
          ∀ line ∈ (bufLines "0 1:3\n".toList).head?, labelTexts ⟨2, ' '⟩ line ≠ []) :=
  have hA : loadTxt (-1) parseDigit ⟨2, ' '⟩ "1 0:2\n".toList = some [sampleOf 1 [2, -1]] := by
    decide +kernel
  have hB : loadTxt (-1) parseDigit ⟨2, ' '⟩ "0 1:3\n".toList = some [sampleOf 0 [-1, 3]] := by
    decide +kernel
  loadTxt_append_iff hA hB (by decide +kernel)

/-- A line without a label takes the one of the line before it. -/
theorem label_left_over :
    loadTxt (-1) parseDigit ⟨2, ' '⟩ "1 0:2\n".toList = some [sampleOf 1 [2, -1]] ∧
      loadTxt (-1) parseDigit ⟨2, ' '⟩ "1:3\n".toList = some [sampleOf 0 [-1, 3]] ∧
      bufLines "1 0:2\n1:3\n".toList =
        bufLines "1 0:2\n".toList ++ bufLines "1:3\n".toList ∧
      loadTxt (-1) parseDigit ⟨2, ' '⟩ "1 0:2\n1:3\n".toList ≠
        some ([sampleOf 1 [2, -1]] ++ [sampleOf 0 [-1, 3]]) := by decide +kernel

end TeaclaveCrates.Gbdt
