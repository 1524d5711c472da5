import TeaclaveCrates.Gbdt.Data

namespace TeaclaveCrates.Gbdt

/-!
# Loading samples

`load_csv` reads a sample from each line of a file. The label is taken out of the columns by
`swap_remove`, which moves the last column into its place.

* `bufLines` — the lines of a text, as `BufRead::lines` gives them.
* `swapRemove` — `Vec::swap_remove`.
* `loadCsv` — the function of `input.rs`.
* `swapRemove_eq_eraseIdx_iff` — when the order of the other columns is kept.
* `loadCsv_iff` — when all samples have their features in the order of the columns.
-/

/-- The settings that `load_csv` reads. -/
structure InputFormat where
  header : Bool
  labelIdx : Nat
  enableUnknownValue : Bool
  delimeter : Char
  deriving DecidableEq, Repr

/-- `InputFormat::csv_format` -/
def InputFormat.csvFormat : InputFormat := ⟨false, 0, false, ','⟩

/-! ### The code -/

/-- The lines of a text, from the part of a line that is read already. The end of a line is a line
    feed, with a carriage return in front of it or not; the last line may go without. -/
def linesLoop : List Char → List Char → List (List Char)
  | [], [] => []
  | line, [] => [line]
  | line, c :: rest =>
    if c = '\n' then
      (if line.getLast? = some '\r' then line.dropLast else line) :: linesLoop [] rest
    else linesLoop (line ++ [c]) rest

/-- `BufRead::lines` -/
def bufLines (text : List Char) : List (List Char) := linesLoop [] text

/-- `Vec::swap_remove`: the element, and the vector with its last element in that place. -/
def swapRemove {α : Type} (v : List α) (index : Nat) : Option (α × List α) :=
  match v[index]?, v.getLast? with
  | some x, some last => some (x, if index + 1 = v.length then v.dropLast
      else v.dropLast.set index last)
  | _, _ => none

section

variable {V : Type} [Zero V] [One V] (unknown : V) (parse : List Char → Option V)

/-- The columns of a line. A column that is no number is unknown where that is allowed, and ends the
    program otherwise. -/
def parseLine (fmt : InputFormat) (content : List Char) : Option (List V) :=
  if fmt.enableUnknownValue then
    some ((content.splitOn fmt.delimeter).map fun x => (parse x).getD unknown)
  else (content.splitOn fmt.delimeter).mapM parse

/-- The lines that hold samples. -/
def dataLines (fmt : InputFormat) (text : List Char) : List (List Char) :=
  if fmt.header then (bufLines text).drop 1 else bufLines text

/-- The sample of a line. -/
def sampleOf (label : V) (feature : List V) : Data V := ⟨feature, 0, 1, label, 0, 0⟩

/-- The loop of `load_csv` over the lines. -/
def loadLoop (fmt : InputFormat) : List (List Char) → Option (List (Data V))
  | [] => some []
  | content :: rest =>
    match (parseLine unknown parse fmt content).bind fun v => swapRemove v fmt.labelIdx with
    | none => none
    | some (label, feature) => (loadLoop fmt rest).map (sampleOf label feature :: ·)

/-- `load_csv`. The number of a text is read by `parse`; `none` stands for a column or a label that
    is not there. -/
def loadCsv (fmt : InputFormat) (text : List Char) : Option (List (Data V)) :=
  loadLoop unknown parse fmt (dataLines fmt text)

end

/-! ### The order of the columns -/

variable {α : Type}

/-- A list is its own rotation by one when all its elements are the same. -/
theorem cons_eq_append_iff (z : α) (l : List α) :
    z :: l = l ++ [z] ↔ ∀ y ∈ l, y = z := by
  induction l with
  | nil => simp
  | cons y l ih =>
    rw [List.cons_append, List.cons.injEq, List.forall_mem_cons]
    constructor
    · rintro ⟨rfl, h⟩
      exact ⟨rfl, ih.mp h⟩
    · rintro ⟨rfl, h⟩
      exact ⟨rfl, ih.mpr h⟩

theorem swapRemove_append (a b : List α) (x z : α) :
    swapRemove (a ++ x :: (b ++ [z])) a.length = some (x, a ++ z :: b) := by
  have hsplit : a ++ x :: (b ++ [z]) = (a ++ x :: b) ++ [z] := by simp
  unfold swapRemove
  rw [List.getElem?_append_right le_rfl, Nat.sub_self, List.getElem?_cons_zero, hsplit,
    List.getLast?_concat, List.dropLast_concat]
  simp

theorem swapRemove_last (a : List α) (x : α) :
    swapRemove (a ++ [x]) a.length = some (x, a) := by
  simp [swapRemove]

/-- `swap_remove` takes the label out, and keeps the order of the other columns if and only if all
    that stand behind it are the same. -/
theorem swapRemove_eq_eraseIdx_iff (v : List α) {i : Nat} (hi : i < v.length) :
    ∃ rest, swapRemove v i = some (v[i], rest) ∧
      (rest = v.eraseIdx i ↔ ∀ x ∈ v.drop (i + 1), ∀ y ∈ v.drop (i + 1), x = y) := by
  obtain ⟨a, b, x, hv, ha⟩ : ∃ a b x, v = a ++ x :: b ∧ a.length = i :=
    ⟨v.take i, v.drop (i + 1), v[i], by simp,
      List.length_take_of_le hi.le⟩
  subst ha
  subst hv
  have hget : (a ++ x :: b)[a.length] = x := by simp
  have herase : (a ++ x :: b).eraseIdx a.length = a ++ b := by
    rw [List.eraseIdx_append_of_length_le le_rfl, Nat.sub_self, List.eraseIdx_cons_zero]
  have hdrop : (a ++ x :: b).drop (a.length + 1) = b := by
    simp [List.drop_append]
  rw [hget, herase, hdrop]
  rcases List.eq_nil_or_concat b with rfl | ⟨b, z, rfl⟩
  · refine ⟨a, swapRemove_last a x, ?_⟩
    simp
  · rw [List.concat_eq_append]
    refine ⟨a ++ z :: b, swapRemove_append a b x z, ?_⟩
    rw [List.append_cancel_left_eq, cons_eq_append_iff]
    constructor
    · intro h y hy y' hy'
      have hall : ∀ y ∈ b ++ [z], y = z := by
        intro y hy
        rcases List.mem_append.mp hy with hy | hy
        · exact h y hy
        · exact List.mem_singleton.mp hy
      rw [hall y hy, hall y' hy']
    · intro h y hy
      exact h y (List.mem_append_left _ hy) z (by simp)

/-! ### The samples of a file -/

section

variable {V : Type} [Zero V] [One V] {unknown : V} {parse : List Char → Option V}

/-- The sample of a line whose features are the columns without the label. -/
def wantedSample (unknown : V) (parse : List Char → Option V) (fmt : InputFormat)
    (content : List Char) : Option (Data V) :=
  (parseLine unknown parse fmt content).bind fun v =>
    v[fmt.labelIdx]?.map fun label => sampleOf label (v.eraseIdx fmt.labelIdx)

/-- Behind the label all columns of a line are the same. -/
def SameBehind (unknown : V) (parse : List Char → Option V) (fmt : InputFormat)
    (content : List Char) : Prop :=
  ∀ v ∈ parseLine unknown parse fmt content,
    ∀ x ∈ v.drop (fmt.labelIdx + 1), ∀ y ∈ v.drop (fmt.labelIdx + 1), x = y

theorem loadLoop_iff {fmt : InputFormat} {lines : List (List Char)}
    (h : ∀ line ∈ lines, ∃ v, parseLine unknown parse fmt line = some v ∧ fmt.labelIdx < v.length) :
    ∃ dv, loadLoop unknown parse fmt lines = some dv ∧
      (dv.map some = lines.map (wantedSample unknown parse fmt) ↔
        ∀ line ∈ lines, SameBehind unknown parse fmt line) := by
  induction lines with
  | nil => exact ⟨[], rfl, by simp⟩
  | cons line lines ih =>
    obtain ⟨dv, hload, hiff⟩ := ih fun l hl => h l (List.mem_cons_of_mem _ hl)
    obtain ⟨v, hparse, hlt⟩ := h line (List.mem_cons_self ..)
    obtain ⟨rest, hswap, hrest⟩ := swapRemove_eq_eraseIdx_iff v hlt
    refine ⟨sampleOf v[fmt.labelIdx] rest :: dv, ?_, ?_⟩
    · simp [loadLoop, hparse, hswap, hload]
    · have hwanted : wantedSample unknown parse fmt line =
          some (sampleOf v[fmt.labelIdx] (v.eraseIdx fmt.labelIdx)) := by
        simp [wantedSample, hparse, List.getElem?_eq_getElem hlt]
      have hsame : SameBehind unknown parse fmt line ↔ rest = v.eraseIdx fmt.labelIdx := by
        simp [SameBehind, hrest, hparse, forall_eq']
      have hsample : sampleOf v[fmt.labelIdx] rest =
          sampleOf v[fmt.labelIdx] (v.eraseIdx fmt.labelIdx) ↔ rest = v.eraseIdx fmt.labelIdx := by
        simp [sampleOf]
      simp [hiff, hwanted, hsample, hsame]

/-- **The order of the columns.** For a file whose lines all have a label, `load_csv` returns the
    samples of its lines with the features in the order of the columns, if and only if in each line
    the columns behind the label are all the same. -/
theorem loadCsv_iff (unknown : V) (parse : List Char → Option V) (fmt : InputFormat)
    (text : List Char)
    (h : ∀ line ∈ dataLines fmt text, ∃ v, parseLine unknown parse fmt line = some v ∧
      fmt.labelIdx < v.length) :
    ∃ dv, loadCsv unknown parse fmt text = some dv ∧
      (dv.map some = (dataLines fmt text).map (wantedSample unknown parse fmt) ↔
        ∀ line ∈ dataLines fmt text, SameBehind unknown parse fmt line) :=
  loadLoop_iff h

end

/-- Numbers of one digit. -/
def parseDigit : List Char → Option ℚ
  | [c] => if c.isDigit then some (c.toNat - 48) else none
  | _ => none

theorem loadCsv_iff_last :
    ∃ dv, loadCsv 0 parseDigit { InputFormat.csvFormat with labelIdx := 2 } "1,2,3\n".toList =
        some dv ∧
      (dv.map some = (dataLines { InputFormat.csvFormat with labelIdx := 2 } "1,2,3\n".toList).map
          (wantedSample 0 parseDigit { InputFormat.csvFormat with labelIdx := 2 }) ↔
        ∀ line ∈ dataLines { InputFormat.csvFormat with labelIdx := 2 } "1,2,3\n".toList,
          SameBehind 0 parseDigit { InputFormat.csvFormat with labelIdx := 2 } line) :=
  loadCsv_iff 0 parseDigit { InputFormat.csvFormat with labelIdx := 2 } "1,2,3\n".toList (by
    intro line hline
    have hlines : dataLines { InputFormat.csvFormat with labelIdx := 2 } "1,2,3\n".toList =
        ["1,2,3".toList] := by decide
    rw [hlines, List.mem_singleton] at hline
    subst hline
    exact ⟨[1, 2, 3], by decide +kernel, by decide⟩)

/-- With the label in front, the last column becomes the first feature. -/
theorem label_in_front :
    loadCsv 0 parseDigit InputFormat.csvFormat "1,2,3,4\n".toList =
        some [sampleOf 1 [4, 2, 3]] ∧
      wantedSample 0 parseDigit InputFormat.csvFormat "1,2,3,4".toList =
        some (sampleOf 1 [2, 3, 4]) := by decide +kernel

end TeaclaveCrates.Gbdt
