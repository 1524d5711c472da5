import Mathlib.Data.List.Basic

namespace TeaclaveCrates.Lib

/-!
# Machines that split a sequence into records of fields

A tokenizer reads one symbol at a time, may copy it, and its state says whether a field or a record
has just ended.

* `Tokenizer` — the machine.
* `slices` — the fields of a record that is given as one sequence with the end of each field.
* `records` — the records of an input, collected as one sequence with ends.
* `fieldRecords` — the records of an input, collected field by field.
* `records_eq_fieldRecords` — both ways of collecting give the same.
* `firstLen` — the symbols up to the end of the first record.
-/

universe u v

/-- What has just ended when a machine is in a state. -/
inductive Mark where
  | inside
  | field
  | record
  deriving DecidableEq, Repr

/-- A machine that reads symbols: the next state with whether the symbol is copied, what a state
    ends, and whether the end of the input ends a record in a state. -/
structure Tokenizer (σ : Type u) (α : Type v) where
  step : σ → α → σ × Bool
  mark : σ → Mark
  pending : σ → Bool

/-! ### Fields by their ends -/

section Slices

variable {α : Type v}

/-- The fields between the given ends, from `start` on. -/
def slicesFrom (out : List α) : Nat → List Nat → List (List α)
  | _, [] => []
  | start, stop :: ends => (out.drop start).take (stop - start) :: slicesFrom out stop ends

/-- The fields of a record stored as one sequence with the end of each field. -/
def slices (out : List α) (ends : List Nat) : List (List α) := slicesFrom out 0 ends

/-- The ends of fields that are stored one behind the other from `start` on. -/
def endsFrom : Nat → List (List α) → List Nat
  | _, [] => []
  | start, f :: fs => (start + f.length) :: endsFrom (start + f.length) fs

theorem slicesFrom_endsFrom (before after : List α) (fs : List (List α)) :
    slicesFrom (before ++ fs.flatten ++ after) before.length (endsFrom before.length fs) = fs := by
  induction fs generalizing before with
  | nil => rfl
  | cons f fs ih =>
    have hrest := ih (before ++ f)
    simp only [List.length_append, List.append_assoc] at hrest
    simp [endsFrom, slicesFrom, hrest]

/-- Fields that are stored one behind the other are found again. -/
theorem slices_endsFrom (fs : List (List α)) : slices fs.flatten (endsFrom 0 fs) = fs := by
  have h := slicesFrom_endsFrom [] [] fs
  rwa [List.append_nil, List.nil_append] at h

theorem endsFrom_concat (start : Nat) (fs : List (List α)) (f : List α) :
    endsFrom start (fs ++ [f]) = endsFrom start fs ++ [start + (fs ++ [f]).flatten.length] := by
  induction fs generalizing start with
  | nil => simp [endsFrom]
  | cons g fs ih =>
    simp [endsFrom, ih, Nat.add_assoc]

end Slices

/-! ### Records -/

namespace Tokenizer

variable {σ : Type u} {α : Type v} (T : Tokenizer σ α)

/-- What a step adds to the output. -/
def copied (s : σ) (c : α) : List α := if (T.step s c).2 then [c] else []

/-- The records of the input, when the current one has the output `out` and the ends `ends` so
    far. -/
def records (s : σ) (out : List α) (ends : List Nat) : List α → List (List (List α))
  | [] => if T.pending s then [slices out (ends ++ [out.length])] else []
  | c :: rest =>
    let s' := (T.step s c).1
    let out' := out ++ T.copied s c
    match T.mark s' with
    | .inside => records s' out' ends rest
    | .field => records s' out' (ends ++ [out'.length]) rest
    | .record => slices out' (ends ++ [out'.length]) :: records s' [] [] rest

/-- The records of the input, when the current one has the fields `fields` and the beginning
    `field` of one more. -/
def fieldRecords (s : σ) (field : List α) (fields : List (List α)) :
    List α → List (List (List α))
  | [] => if T.pending s then [fields ++ [field]] else []
  | c :: rest =>
    let s' := (T.step s c).1
    let field' := field ++ T.copied s c
    match T.mark s' with
    | .inside => fieldRecords s' field' fields rest
    | .field => fieldRecords s' [] (fields ++ [field']) rest
    | .record => (fields ++ [field']) :: fieldRecords s' [] [] rest

/-- The end that a step adds, when `pos` symbols are stored. -/
def endOf (s : σ) (pos : Nat) : List Nat := if T.mark s = .inside then [] else [pos]

/-- One symbol of a record that does not end with it. -/
theorem records_cons_of_ne {s : σ} {c : α} (h : T.mark (T.step s c).1 ≠ .record) (out : List α)
    (ends : List Nat) (rest : List α) :
    T.records s out ends (c :: rest) =
      T.records (T.step s c).1 (out ++ T.copied s c)
        (ends ++ T.endOf (T.step s c).1 (out.length + (T.copied s c).length)) rest := by
  rw [records]
  unfold endOf
  cases hmark : T.mark (T.step s c).1 with
  | inside => simp
  | field => simp
  | record => exact absurd hmark h

/-- The symbol with which a record ends. -/
theorem records_cons_of_record {s : σ} {c : α} (h : T.mark (T.step s c).1 = .record)
    (out : List α) (ends : List Nat) (rest : List α) :
    T.records s out ends (c :: rest) =
      slices (out ++ T.copied s c)
          (ends ++ T.endOf (T.step s c).1 (out.length + (T.copied s c).length)) ::
        T.records (T.step s c).1 [] [] rest := by
  simp [records, h, endOf]

/-- **Two ways of collecting.** One sequence with ends, or field by field. -/
theorem records_eq_fieldRecords (s : σ) (field : List α) (fields : List (List α))
    (input : List α) :
    T.records s (fields.flatten ++ field) (endsFrom 0 fields) input =
      T.fieldRecords s field fields input := by
  -- one more field is stored as its bytes and its end
  have hend : ∀ (fields : List (List α)) (field : List α),
      endsFrom 0 fields ++ [(fields.flatten ++ field).length] = endsFrom 0 (fields ++ [field]) := by
    intro fields field
    simp [endsFrom_concat]
  have hflat : ∀ (fields : List (List α)) (field : List α),
      fields.flatten ++ field = (fields ++ [field]).flatten := by simp
  induction input generalizing s field fields with
  | nil =>
    rw [records, fieldRecords, hend, hflat, slices_endsFrom]
  | cons c rest ih =>
    rw [records, fieldRecords, List.append_assoc, hend, hflat]
    cases T.mark (T.step s c).1 with
    | inside =>
      rw [← hflat]
      exact ih _ _ _
    | field =>
      have h := ih (T.step s c).1 [] (fields ++ [field ++ T.copied s c])
      rw [List.append_nil] at h
      exact h
    | record =>
      rw [slices_endsFrom]
      exact congrArg _ (ih _ [] [])

/-- Every record has a field. -/
theorem ne_nil_of_mem_records {s : σ} {out : List α} {ends : List Nat} {input : List α}
    {row : List (List α)} (h : row ∈ T.records s out ends input) : row ≠ [] := by
  have hslices : ∀ (out : List α) (ends : List Nat) (stop : Nat), slices out (ends ++ [stop]) ≠ [] := by
    intro out ends stop
    cases ends <;> exact List.cons_ne_nil _ _
  induction input generalizing s out ends with
  | nil =>
    rw [records] at h
    split_ifs at h with hp
    · rw [List.mem_singleton.mp h]
      exact hslices _ _ _
    · exact absurd h List.not_mem_nil
  | cons c rest ih =>
    rw [records] at h
    cases hmark : T.mark (T.step s c).1 with
    | inside =>
      rw [hmark] at h
      exact ih h
    | field =>
      rw [hmark] at h
      exact ih h
    | record =>
      rw [hmark] at h
      rcases List.mem_cons.mp h with rfl | h
      · exact hslices _ _ _
      · exact ih h

/-! ### Where records end -/

/-- The symbols up to the one that ends the first record, or all of them. -/
def firstLen (s : σ) : List α → Nat
  | [] => 0
  | c :: rest =>
    if T.mark (T.step s c).1 = .record then 1 else firstLen (T.step s c).1 rest + 1

theorem firstLen_pos (s : σ) {input : List α} (h : input ≠ []) : 0 < T.firstLen s input := by
  cases input with
  | nil => exact absurd rfl h
  | cons c rest =>
    rw [firstLen]
    split_ifs <;> omega

end Tokenizer

end TeaclaveCrates.Lib
