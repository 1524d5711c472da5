import TeaclaveCrates.Csv.Reader

namespace TeaclaveCrates.Csv

open Lib NfaState NfaInputAction

/-!
# Reading in pieces

A caller may hand over the input in chunks and give a call as little room as it likes. Whatever it
does, a call moves along the records of one machine on the whole input.

* `dfaTokenizer` — the machine that the table implements.
* `recordLoop_spec`, `fieldLoop_spec` — what a loop adds to the records.
* `readRecord_call`, `readField_call` — what a call on input adds to them.
* `readRecord_nil`, `readField_nil` — what a call at the end of the input does.
-/

/-! ### Bounds -/

namespace Dfa

variable (d : Dfa)

theorem length_scanAndCopy_fst (input : List UInt8) (room : Nat) :
    (d.scanAndCopy input room).1.length ≤ room := by
  induction input generalizing room with
  | nil => exact Nat.zero_le _
  | cons c rest ih =>
    cases room with
    | zero => exact Nat.le_refl _
    | succ room =>
      rw [scanAndCopy]
      split
      · exact Nat.succ_le_succ (ih room)
      · exact Nat.zero_le _

theorem scanFrom_bounds (s : Nat) (rest : List UInt8) (room : Nat) :
    (d.scanFrom s rest room).1.length ≤ room ∧ (d.scanFrom s rest room).2 <:+ rest := by
  unfold scanFrom
  split
  · exact ⟨d.length_scanAndCopy_fst rest room, _, d.scanAndCopy_append rest room⟩
  · exact ⟨Nat.zero_le _, List.suffix_refl rest⟩

theorem length_copied_le (state : Nat) (c : UInt8) : (d.copied state c).length ≤ 1 := by
  unfold copied
  split <;> simp

/-- A loop stays within its buffers, leaves an end of the input unread, and reads something when
    there is something to read and room in the buffers. -/
theorem recordLoop_bounds (pos state : Nat) (input : List UInt8) (room endsRoom : Nat) :
    let l := d.recordLoop pos state input room endsRoom
    l.out.length ≤ room ∧ l.ends.length ≤ endsRoom ∧ l.rest <:+ input ∧
      (input ≠ [] → 0 < room → 0 < endsRoom → l.rest.length < input.length) := by
  induction hn : input.length using Nat.strong_induction_on
    generalizing pos state input room endsRoom with
  | _ n ih =>
    subst hn
    cases input with
    | nil =>
      rw [recordLoop]
      exact ⟨Nat.zero_le _, Nat.zero_le _, List.suffix_refl _, fun h => absurd rfl h⟩
    | cons c rest =>
      rw [recordLoop]
      by_cases hroom : room = 0 ∨ endsRoom = 0
      · rw [if_pos hroom]
        exact ⟨Nat.zero_le _, Nat.zero_le _, List.suffix_refl _, fun _ _ _ => by omega⟩
      · rw [if_neg hroom]
        dsimp only
        have hcopied := d.length_copied_le state c
        have hend : (if d.finalField ≤ (d.getOutput state c).1 then
            [pos + (d.copied state c).length] else []).length ≤ 1 := by
          split <;> simp
        split
        · exact ⟨by dsimp only; omega, by dsimp only; omega, List.suffix_cons c rest,
            fun _ _ _ => Nat.lt_succ_self _⟩
        · obtain ⟨hscan, hsuffix⟩ := d.scanFrom_bounds (d.getOutput state c).1 rest
            (room - (d.copied state c).length)
          have hlen := hsuffix.length_le
          generalize d.scanFrom (d.getOutput state c).1 rest (room - (d.copied state c).length) =
            scan at hscan hsuffix hlen ⊢
          generalize (if d.finalField ≤ (d.getOutput state c).1 then
            [pos + (d.copied state c).length] else []) = ends at hend ⊢
          obtain ⟨hout, hends, hrest,
            -⟩ := ih scan.2.length (by simp only [List.length_cons]; omega)
            (pos + (d.copied state c).length + scan.1.length) (d.getOutput state c).1 scan.2
            (room - (d.copied state c).length - scan.1.length) (endsRoom - ends.length) rfl
          have hle := hrest.length_le
          refine ⟨?_, ?_, (hrest.trans hsuffix).trans (List.suffix_cons c rest), fun _ _ _ => ?_⟩
          · simp only [List.length_append]
            omega
          · simp only [List.length_append]
            omega
          · simp only [List.length_cons]
            omega

theorem fieldLoop_bounds (state : Nat) (input : List UInt8) (room : Nat) :
    let l := d.fieldLoop state input room
    l.out.length ≤ room ∧ l.rest <:+ input ∧
      (input ≠ [] → 0 < room → l.rest.length < input.length) := by
  induction input generalizing state room with
  | nil => exact ⟨Nat.zero_le _, List.suffix_refl _, fun h => absurd rfl h⟩
  | cons c rest ih =>
    rw [fieldLoop]
    by_cases hroom : room = 0
    · rw [if_pos hroom]
      exact ⟨Nat.zero_le _, List.suffix_refl _, fun _ _ => by omega⟩
    · rw [if_neg hroom]
      dsimp only
      have hcopied := d.length_copied_le state c
      split
      · exact ⟨by dsimp only; omega, List.suffix_cons c rest, fun _ _ => Nat.lt_succ_self _⟩
      · obtain ⟨hout, hrest, -⟩ := ih (d.getOutput state c).1 (room - (d.copied state c).length)
        have hle := hrest.length_le
        refine ⟨?_, hrest.trans (List.suffix_cons c rest), fun _ _ => ?_⟩
        · simp only [List.length_append]
          omega
        · simp only [List.length_cons]
          omega

end Dfa

/-! ### The machine of the table -/

/-- What a state ends. -/
def markOf : NfaState → Mark
  | endFieldDelim => .field
  | endRecord | crlf | .end => .record
  | _ => .inside

/-- Whether the end of the input ends a record for the table: in every state but those at the start
    of a record, the inside of a comment among them. -/
def pendingOf : NfaState → Bool
  | startRecord | endRecord | crlf | .end => false
  | _ => true

namespace Config

variable (cfg : Config)

/-- The machine that the table implements. -/
def dfaTokenizer : Tokenizer NfaState UInt8 where
  step s c := ((cfg.dfaStep s c).1, decide ((cfg.dfaStep s c).2 = copyToOutput))
  mark := markOf
  pending := pendingOf

@[simp]
theorem dfaTokenizer_mark : cfg.dfaTokenizer.mark = markOf := rfl

@[simp]
theorem dfaTokenizer_pending : cfg.dfaTokenizer.pending = pendingOf := rfl

theorem dfaTokenizer_endOf (s : NfaState) (pos : Nat) :
    cfg.dfaTokenizer.endOf s pos = if markOf s = .inside then [] else [pos] := rfl

/-- The width of a row. -/
def width : Nat := cfg.classes.numClasses

theorem width_pos : 0 < cfg.width :=
  Nat.lt_of_le_of_lt (Nat.zero_le _) (cfg.added_classes.lt_next 0)

theorem buildDfa_classes : cfg.buildDfa.classes = cfg.classes := by
  have hnew : (Dfa.new cfg.classes).classes = cfg.classes := rfl
  rw [buildDfa_eq, Dfa.finish_classes, fillCells_classes, hnew]

theorem newState_eq (s : NfaState) : cfg.buildDfa.newState s = s.number * cfg.width := by
  rw [Dfa.newState, buildDfa_classes]
  rfl

theorem finish_fields (d : Dfa) :
    d.finish.inField = d.newState .inField ∧ d.finish.inQuoted = d.newState .inQuotedField ∧
      d.finish.finalField = d.newState .endFieldDelim ∧
      d.finish.finalRecord = d.newState .endRecord :=
  ⟨rfl, rfl, rfl, rfl⟩

/-- The four states that `finish` stores. -/
theorem buildDfa_states :
    cfg.buildDfa.inField = inField.number * cfg.width ∧
      cfg.buildDfa.inQuoted = inQuotedField.number * cfg.width ∧
      cfg.buildDfa.finalField = endFieldDelim.number * cfg.width ∧
      cfg.buildDfa.finalRecord = endRecord.number * cfg.width := by
  have hstate : ∀ s : NfaState,
      (cfg.fillCells (Dfa.new cfg.classes) cells).newState s = s.number * cfg.width := by
    intro s
    have hnew : (Dfa.new cfg.classes).classes = cfg.classes := rfl
    rw [Dfa.newState, fillCells_classes, hnew]
    rfl
  obtain ⟨h1, h2, h3, h4⟩ := finish_fields (cfg.fillCells (Dfa.new cfg.classes) cells)
  rw [buildDfa_eq, h1, h2, h3, h4]
  exact ⟨hstate _, hstate _, hstate _, hstate _⟩

/-- States compare as their numbers do. -/
theorem number_mul_le {a b : Nat} : a * cfg.width ≤ b * cfg.width ↔ a ≤ b :=
  Nat.mul_le_mul_right_iff cfg.width_pos

theorem number_mul_lt {a b : Nat} : a * cfg.width < b * cfg.width ↔ a < b :=
  Nat.mul_lt_mul_right cfg.width_pos

theorem number_mul_inj {s s' : NfaState} : s.number * cfg.width = s'.number * cfg.width ↔ s = s' :=
  ⟨fun h => number_inj (Nat.eq_of_mul_eq_mul_right cfg.width_pos h), fun h => by rw [h]⟩

theorem finalField_le_iff {s : NfaState} (hs : cfg.Live s) :
    cfg.buildDfa.finalField ≤ s.number * cfg.width ↔ markOf s ≠ .inside := by
  rw [cfg.buildDfa_states.2.2.1, number_mul_le]
  have := cfg.live_mem_dfaStates hs
  revert this
  cases s <;> decide

theorem finalField_lt_iff {s : NfaState} (hs : cfg.Live s) :
    cfg.buildDfa.finalField < s.number * cfg.width ↔ markOf s = .record := by
  rw [cfg.buildDfa_states.2.2.1, number_mul_lt]
  have := cfg.live_mem_dfaStates hs
  revert this
  cases s <;> decide

theorem finalRecord_le_iff {s : NfaState} (hs : cfg.Live s) :
    cfg.buildDfa.finalRecord ≤ s.number * cfg.width ↔ markOf s = .record := by
  rw [cfg.buildDfa_states.2.2.2, number_mul_le]
  have := cfg.live_mem_dfaStates hs
  revert this
  cases s <;> decide

theorem isStart_iff {s : NfaState} : s.number * cfg.width = 0 ↔ s = startRecord := by
  have h := @number_mul_inj cfg s startRecord
  rwa [show startRecord.number * cfg.width = 0 from Nat.zero_mul _] at h

theorem copied_eq {s : NfaState} (hs : cfg.Live s) (c : UInt8) :
    cfg.buildDfa.copied (s.number * cfg.width) c = cfg.dfaTokenizer.copied s c := by
  unfold Dfa.copied Tokenizer.copied
  rw [show s.number * cfg.width = s.number * cfg.classes.numClasses from rfl, cfg.getOutput_eq hs]
  rfl

theorem state_eq {s : NfaState} (hs : cfg.Live s) (c : UInt8) :
    (cfg.buildDfa.getOutput (s.number * cfg.width) c).1 =
      (cfg.dfaTokenizer.step s c).1.number * cfg.width := by
  rw [show s.number * cfg.width = s.number * cfg.classes.numClasses from rfl, cfg.getOutput_eq hs]
  rfl

/-! ### Runs of ordinary bytes -/

/-- Inside a field a byte of the common class is copied, and the state stays. -/
theorem dfaStep_scan {s : NfaState} (hs : s = inField ∨ s = inQuotedField) {c : UInt8}
    (hc : cfg.buildDfa.classes.classes c = 0) : cfg.dfaStep s c = (s, copyToOutput) := by
  rw [buildDfa_classes, cfg.added_classes.zero_iff] at hc
  rcases hs with rfl | rfl
  · exact cfg.afterField_common hc
  · exact cfg.nextByte_inQuotedField_common hc

theorem records_scan {s : NfaState} (hs : s = inField ∨ s = inQuotedField) (input : List UInt8)
    (room : Nat) (out : List UInt8) (ends : List Nat) (more : List UInt8) :
    cfg.dfaTokenizer.records s out ends (input ++ more) =
      cfg.dfaTokenizer.records s (out ++ (cfg.buildDfa.scanAndCopy input room).1) ends
        ((cfg.buildDfa.scanAndCopy input room).2 ++ more) := by
  induction input generalizing room out with
  | nil => simp [Dfa.scanAndCopy]
  | cons c rest ih =>
    cases room with
    | zero => simp [Dfa.scanAndCopy]
    | succ room =>
      rw [Dfa.scanAndCopy]
      split
      · rename_i hc
        have hstep := cfg.dfaStep_scan hs hc
        have hmark : markOf s = .inside := by rcases hs with rfl | rfl <;> rfl
        have hcopied : cfg.dfaTokenizer.copied s c = [c] := by
          simp [Tokenizer.copied, dfaTokenizer, hstep]
        have hnext : (cfg.dfaTokenizer.step s c).1 = s := by
          simp [dfaTokenizer, hstep]
        rw [List.cons_append, Tokenizer.records]
        simp [hcopied, hnext, hmark, ih room (out ++ [c])]
      · simp

/-- The run behind a step, whether the step is inside a field or not. -/
theorem records_scanFrom (s : NfaState) (rest : List UInt8) (room : Nat) (out : List UInt8)
    (ends : List Nat) (more : List UInt8) :
    cfg.dfaTokenizer.records s out ends (rest ++ more) =
      cfg.dfaTokenizer.records s
        (out ++ (cfg.buildDfa.scanFrom (s.number * cfg.width) rest room).1) ends
        ((cfg.buildDfa.scanFrom (s.number * cfg.width) rest room).2 ++ more) := by
  unfold Dfa.scanFrom
  simp only [cfg.buildDfa_states.1, cfg.buildDfa_states.2.1, number_mul_inj]
  split
  · rename_i hs
    exact cfg.records_scan hs rest room out ends more
  · simp

/-! ### One call -/

/-- What a loop that reads records leaves, started in `s` with `pos` bytes of the record. -/
structure RecordSpec (s : NfaState) (pos : Nat) (input : List UInt8) (l : Dfa.LoopEnd Nat)
    (s' : NfaState) : Prop where
  live : cfg.Live s'
  state : l.state = s'.number * cfg.width
  records : ∀ out ends more, out.length = pos →
    cfg.dfaTokenizer.records s out ends (input ++ more) =
      if markOf s' = .record then
        slices (out ++ l.out) (ends ++ l.ends) ::
          cfg.dfaTokenizer.records s' [] [] (l.rest ++ more)
      else cfg.dfaTokenizer.records s' (out ++ l.out) (ends ++ l.ends) (l.rest ++ more)

/-- One round of the loop, on states of the automaton. -/
theorem recordLoop_cons {s : NfaState} (hs : cfg.Live s) (pos : Nat) (c : UInt8) (rest : List UInt8)
    {room endsRoom : Nat} (hroom : ¬(room = 0 ∨ endsRoom = 0)) :
    cfg.buildDfa.recordLoop pos (s.number * cfg.width) (c :: rest) room endsRoom =
      let s₁ := (cfg.dfaTokenizer.step s c).1
      let out := cfg.dfaTokenizer.copied s c
      let ends := cfg.dfaTokenizer.endOf s₁ (pos + out.length)
      if markOf s₁ = .record then ⟨s₁.number * cfg.width, rest, out, ends⟩
      else
        let scan := cfg.buildDfa.scanFrom (s₁.number * cfg.width) rest (room - out.length)
        let r := cfg.buildDfa.recordLoop (pos + out.length + scan.1.length) (s₁.number * cfg.width)
          scan.2 (room - out.length - scan.1.length) (endsRoom - ends.length)
        { r with out := out ++ scan.1 ++ r.out, ends := ends ++ r.ends } := by
  have hs₁ : cfg.Live (cfg.dfaTokenizer.step s c).1 := cfg.live_dfaStep hs c
  simp [Dfa.recordLoop, hroom, cfg.state_eq hs, cfg.copied_eq hs, cfg.finalField_le_iff hs₁,
    cfg.finalField_lt_iff hs₁, dfaTokenizer_endOf, ne_eq, ite_not]

/-- The rounds of the loop of `read_record_dfa`: it stops where it is, ends a record, or goes on
    behind the ordinary bytes that it scans. Where it starts right behind a record, it must read
    something, since it would else report that record again. -/
theorem recordLoop_rounds {P : NfaState → Nat → List UInt8 → Dfa.LoopEnd Nat → NfaState → Prop}
    (here : ∀ s pos input, markOf s ≠ .record →
      P s pos input ⟨s.number * cfg.width, input, [], []⟩ s)
    (record : ∀ s pos c rest, let s₁ := (cfg.dfaTokenizer.step s c).1
      let out := cfg.dfaTokenizer.copied s c
      markOf s₁ = .record → P s pos (c :: rest)
        ⟨s₁.number * cfg.width, rest, out, cfg.dfaTokenizer.endOf s₁ (pos + out.length)⟩ s₁)
    (scan : ∀ s pos c rest room l s', let s₁ := (cfg.dfaTokenizer.step s c).1
      let out := cfg.dfaTokenizer.copied s c
      let scan := cfg.buildDfa.scanFrom (s₁.number * cfg.width) rest room
      markOf s₁ ≠ .record → l.rest.length ≤ scan.2.length →
      P s₁ (pos + out.length + scan.1.length) scan.2 l s' →
      P s pos (c :: rest) ⟨l.state, l.rest, out ++ scan.1 ++ l.out,
        cfg.dfaTokenizer.endOf s₁ (pos + out.length) ++ l.ends⟩ s')
    {s : NfaState} (hs : cfg.Live s) (pos : Nat) (input : List UInt8) (room endsRoom : Nat)
    (hstart : markOf s ≠ .record ∨ (input ≠ [] ∧ 0 < room ∧ 0 < endsRoom)) :
    let l := cfg.buildDfa.recordLoop pos (s.number * cfg.width) input room endsRoom
    ∃ s', cfg.Live s' ∧ l.state = s'.number * cfg.width ∧ P s pos input l s' := by
  induction hn : input.length using Nat.strong_induction_on
    generalizing s pos input room endsRoom with
  | _ n ih =>
    subst hn
    cases input with
    | nil =>
      have hmark : markOf s ≠ .record := hstart.resolve_right fun h => h.1 rfl
      rw [Dfa.recordLoop]
      exact ⟨s, hs, rfl, here s pos [] hmark⟩
    | cons c rest =>
      by_cases hroom : room = 0 ∨ endsRoom = 0
      · have hmark : markOf s ≠ .record := hstart.resolve_right fun h => by omega
        rw [Dfa.recordLoop, if_pos hroom]
        exact ⟨s, hs, rfl, here s pos (c :: rest) hmark⟩
      · rw [cfg.recordLoop_cons hs pos c rest hroom]
        have hs₁ : cfg.Live (cfg.dfaTokenizer.step s c).1 := cfg.live_dfaStep hs c
        by_cases hrec : markOf (cfg.dfaTokenizer.step s c).1 = .record
        · rw [if_pos hrec]
          exact ⟨_, hs₁, rfl, record s pos c rest hrec⟩
        · rw [if_neg hrec]
          have hscan := (cfg.buildDfa.scanFrom_bounds
            ((cfg.dfaTokenizer.step s c).1.number * cfg.width) rest
            (room - (cfg.dfaTokenizer.copied s c).length)).2.length_le
          obtain ⟨s', hlive, hstate, hP⟩ :=
            ih _ (Nat.lt_succ_of_le hscan) hs₁ _ _ _ _ (Or.inl hrec) rfl
          exact ⟨s', hlive, hstate, scan s pos c rest _ _ s' hrec
            (cfg.buildDfa.recordLoop_bounds ..).2.2.1.length_le hP⟩

/-- The loop of `read_record_dfa` in terms of the machine. -/
theorem recordLoop_spec {s : NfaState} (hs : cfg.Live s) (pos : Nat) (input : List UInt8)
    (room endsRoom : Nat)
    (hstart : markOf s ≠ .record ∨ (input ≠ [] ∧ 0 < room ∧ 0 < endsRoom)) :
    ∃ s', cfg.RecordSpec s pos input
      (cfg.buildDfa.recordLoop pos (s.number * cfg.width) input room endsRoom) s' := by
  obtain ⟨s', hlive, hstate, h⟩ := cfg.recordLoop_rounds
    (P := fun s pos input l s' => ∀ out ends more, out.length = pos →
      cfg.dfaTokenizer.records s out ends (input ++ more) =
        if markOf s' = .record then
          slices (out ++ l.out) (ends ++ l.ends) ::
            cfg.dfaTokenizer.records s' [] [] (l.rest ++ more)
        else cfg.dfaTokenizer.records s' (out ++ l.out) (ends ++ l.ends) (l.rest ++ more))
    (fun s pos input hmark out ends more _ => by simp [hmark])
    (fun s pos c rest hrec out ends more hpos => by
      simp [hrec, cfg.dfaTokenizer.records_cons_of_record hrec, hpos])
    (fun s pos c rest room l s' hrec _ h out ends more hpos => by
      rw [List.cons_append, cfg.dfaTokenizer.records_cons_of_ne hrec, cfg.records_scanFrom _ _ room,
        h]
      · simp [hpos]
      · simp only [List.length_append, hpos])
    hs pos input room endsRoom hstart
  exact ⟨s', hlive, hstate, h⟩

/-- What a loop that reads fields leaves, started in `s`. -/
structure FieldSpec (s : NfaState) (input : List UInt8) (l : Dfa.LoopEnd Nat) (s' : NfaState) :
    Prop where
  live : cfg.Live s'
  state : l.state = s'.number * cfg.width
  records : ∀ field fields,
    cfg.dfaTokenizer.fieldRecords s field fields input =
      match markOf s' with
      | .inside => cfg.dfaTokenizer.fieldRecords s' (field ++ l.out) fields l.rest
      | .field => cfg.dfaTokenizer.fieldRecords s' [] (fields ++ [field ++ l.out]) l.rest
      | .record => (fields ++ [field ++ l.out]) :: cfg.dfaTokenizer.fieldRecords s' [] [] l.rest

/-- The loop of `read_field_dfa` in terms of the machine. -/
theorem fieldLoop_spec {s : NfaState} (hs : cfg.Live s) (input : List UInt8) (room : Nat)
    (hstart : markOf s = .inside ∨ (input ≠ [] ∧ 0 < room)) :
    ∃ s', cfg.FieldSpec s input (cfg.buildDfa.fieldLoop (s.number * cfg.width) input room) s' := by
  induction input generalizing s room with
  | nil =>
    have hmark : markOf s = .inside := hstart.resolve_right fun h => h.1 rfl
    exact ⟨s, hs, rfl, fun field fields => by simp [hmark, Dfa.fieldLoop]⟩
  | cons c rest ih =>
    by_cases hroom : room = 0
    · have hmark : markOf s = .inside := hstart.resolve_right fun h => by omega
      rw [Dfa.fieldLoop, if_pos hroom]
      exact ⟨s, hs, rfl, fun field fields => by simp [hmark]⟩
    · have hs₁ : cfg.Live (cfg.dfaTokenizer.step s c).1 := cfg.live_dfaStep hs c
      rw [Dfa.fieldLoop, if_neg hroom]
      simp only [cfg.state_eq hs, cfg.copied_eq hs, cfg.finalField_le_iff hs₁]
      by_cases hmark : markOf (cfg.dfaTokenizer.step s c).1 = .inside
      · rw [if_neg fun h => h hmark]
        obtain ⟨s', h⟩ := ih hs₁ (room - (cfg.dfaTokenizer.copied s c).length) (Or.inl hmark)
        refine ⟨s', h.live, h.state, fun field fields => ?_⟩
        simp [Tokenizer.fieldRecords, hmark, h.records]
      · rw [if_pos hmark]
        refine ⟨_, hs₁, rfl, fun field fields => ?_⟩
        rewrite [Tokenizer.fieldRecords, dfaTokenizer_mark]
        cases h : markOf (cfg.dfaTokenizer.step s c).1 with
        | inside => exact absurd h hmark
        | field => rfl
        | record => rfl

end Config

namespace Reader

/-! ### Calls on a reader -/

/-- The reader uses the table and its state is that of `s`. -/
structure At (r : Reader) (s : NfaState) : Prop where
  table : r.useNfa = false
  live : r.cfg.Live s
  state : r.dfaState = s.number * r.cfg.width

theorem at_build (cfg : Config) : (build cfg false).At startRecord :=
  ⟨rfl, cfg.live_of_ne (by decide), cfg.newState_eq startRecord⟩

variable {r : Reader} {s : NfaState}

theorem At.move (h : r.At s) {s' : NfaState} (hlive : r.cfg.Live s') {state : Nat}
    (hstate : state = s'.number * r.cfg.width) (hasRead : Bool) (pos : Nat) :
    At { r with dfaState := state, hasRead := hasRead, outputPos := pos } s' where
  table := h.table
  live := hlive
  state := hstate

theorem At.hasRead (h : r.At s) (b : Bool) : At { r with hasRead := b } s :=
  ⟨h.table, h.live, h.state⟩

/-- What a call of `read_record` on input that is left and with room in both buffers does. -/
structure RecordCall (r : Reader) (s : NfaState) (input : List UInt8) (r' : Reader)
    (x : RecordRead) (s' : NfaState) : Prop where
  state : r'.At s'
  cfg : r'.cfg = r.cfg
  hasRead : r'.hasRead = true
  outputPos : r'.outputPos = if markOf s' = .record then 0 else r.outputPos + x.out.length
  outStart : x.outStart = 0
  isRecord : x.res = .record ↔ markOf s' = .record
  notEnd : x.res ≠ .end
  pos : 0 < x.nin
  nin_le : x.nin ≤ input.length
  records : ∀ out ends more, out.length = r.outputPos →
    r.cfg.dfaTokenizer.records s out ends (input ++ more) =
      if markOf s' = .record then
        slices (out ++ x.out) (ends ++ x.ends) ::
          r.cfg.dfaTokenizer.records s' [] [] (input.drop x.nin ++ more)
      else
        r.cfg.dfaTokenizer.records s' (out ++ x.out) (ends ++ x.ends) (input.drop x.nin ++ more)

theorem newReadRecordResult_eq (d : Dfa) (state : Nat) (inpdone outdone endsdone : Bool) :
    (d.newReadRecordResult state false inpdone outdone endsdone = .record ↔
        d.finalRecord ≤ state) ∧
      d.newReadRecordResult state false inpdone outdone endsdone ≠ .end := by
  unfold Dfa.newReadRecordResult
  split_ifs with h1 h2
  · exact ⟨⟨fun _ => h1, fun _ => rfl⟩, by decide⟩
  · exact absurd h2.1 (by decide)
  all_goals exact ⟨⟨fun h => absurd h (by decide), fun h => absurd h h1⟩, by decide⟩

/-- The bytes behind those that were read. -/
theorem drop_of_suffix {α : Type} {l rest : List α} (h : rest <:+ l) :
    l.drop (l.length - rest.length) = rest :=
  (List.suffix_iff_eq_drop.mp h).symm

variable {outLen endsLen : Nat} {input : List UInt8}

/-- A call with input and with room in both buffers runs the loop. -/
theorem readRecordDfa_loop (r : Reader) (hin : input ≠ []) (hout : 0 < outLen)
    (hends : 0 < endsLen) :
    r.readRecordDfa input outLen endsLen =
      let l := r.dfa.recordLoop r.outputPos r.dfaState input outLen endsLen
      let res := r.dfa.newReadRecordResult l.state false (l.rest.isEmpty) (outLen ≤ l.out.length)
        (endsLen ≤ l.ends.length)
      ({ r with dfaState := l.state
                outputPos := if res = .record then 0 else r.outputPos + l.out.length },
        ⟨res, input.length - l.rest.length, 0, l.out, l.ends⟩) := by
  rw [readRecordDfa, if_neg hin, if_neg (by omega), if_neg (by omega)]

theorem readRecord_call (h : r.At s) (hread : r.hasRead = true) (hin : input ≠ [])
    (hout : 0 < outLen) (hends : 0 < endsLen) :
    ∃ s', RecordCall r s input (r.readRecord input outLen endsLen).1
      (r.readRecord input outLen endsLen).2 s' := by
  have hstrip : r.stripUtf8Bom input = (input, 0) := by
    rw [stripUtf8Bom, if_neg fun hh => by simp [hread] at hh]
  obtain ⟨s', hspec⟩ := r.cfg.recordLoop_spec h.live r.outputPos input outLen endsLen
    (Or.inr ⟨hin, hout, hends⟩)
  obtain ⟨-, -, hsuffix, hprogress⟩ := r.dfa.recordLoop_bounds r.outputPos r.dfaState input outLen
    endsLen
  have hprogress := hprogress hin hout hends
  rw [← h.state] at hspec
  change r.cfg.RecordSpec s r.outputPos input
    (r.dfa.recordLoop r.outputPos r.dfaState input outLen endsLen) s' at hspec
  refine ⟨s', ?_⟩
  unfold readRecord
  rw [hstrip]
  dsimp only
  rw [h.table, if_neg (by decide), readRecordDfa_loop r hin hout hends]
  dsimp only
  generalize r.dfa.recordLoop r.outputPos r.dfaState input outLen endsLen = l at *
  obtain ⟨hrec, hnotEnd⟩ := newReadRecordResult_eq r.dfa l.state l.rest.isEmpty
    (outLen ≤ l.out.length) (endsLen ≤ l.ends.length)
  have hfinal : r.dfa.finalRecord ≤ l.state ↔ markOf s' = .record := by
    rw [hspec.state]
    exact r.cfg.finalRecord_le_iff hspec.live
  generalize r.dfa.newReadRecordResult l.state false l.rest.isEmpty (outLen ≤ l.out.length)
    (endsLen ≤ l.ends.length) = res at *
  exact
    { state := h.move hspec.live hspec.state _ _
      cfg := rfl
      hasRead := rfl
      outputPos := by
        simp [hrec.trans hfinal]
      outStart := rfl
      isRecord := hrec.trans hfinal
      notEnd := hnotEnd
      pos := by
        show 0 < input.length - l.rest.length + 0
        omega
      nin_le := by
        show input.length - l.rest.length + 0 ≤ input.length
        omega
      records := fun out ends more hpos => by
        show _ = if _ then _ :: r.cfg.dfaTokenizer.records s' [] []
            (input.drop (input.length - l.rest.length) ++ more) else
          r.cfg.dfaTokenizer.records s' _ _ (input.drop (input.length - l.rest.length) ++ more)
        rw [drop_of_suffix hsuffix]
        exact hspec.records out ends more hpos }

/-- The state behind the end of the input. -/
theorem At.transitionFinalDfa_eq (h : r.At s) :
    r.dfa.transitionFinalDfa r.dfaState =
      (if pendingOf s then endRecord else startRecord).number * r.cfg.width := by
  have hrec : r.dfa.finalRecord ≤ r.dfaState ↔ markOf s = .record := by
    rw [h.state]
    exact r.cfg.finalRecord_le_iff h.live
  have hstart : r.dfaState = 0 ↔ s = startRecord := by
    rw [h.state]
    exact r.cfg.isStart_iff
  have hpending : pendingOf s = true ↔
      ¬(r.dfa.finalRecord ≤ r.dfaState ∨ r.dfaState = 0) := by
    rw [hrec, hstart]
    cases s <;> decide
  have hnew : ∀ s : NfaState, r.dfa.newState s = s.number * r.cfg.width := r.cfg.newState_eq
  rw [Dfa.transitionFinalDfa]
  by_cases hp : pendingOf s = true
  · simp [(hpending.mp hp), hp, hnew]
  · rw [if_pos (by_contra fun hh => hp (hpending.mpr hh)), if_neg hp, hnew]

/-- Two states that the end of the input leads to. -/
theorem final_le (r : Reader) :
    r.dfa.finalRecord ≤ endRecord.number * r.cfg.width ∧
      ¬r.dfa.finalRecord ≤ startRecord.number * r.cfg.width := by
  constructor
  · exact (r.cfg.finalRecord_le_iff (r.cfg.live_of_ne (by decide))).mpr rfl
  · intro hle
    exact absurd ((r.cfg.finalRecord_le_iff (r.cfg.live_of_ne (by decide))).mp hle) (by decide)

theorem stripUtf8Bom_nil (r : Reader) : r.stripUtf8Bom [] = ([], 0) := by
  rw [stripUtf8Bom, if_neg fun h => absurd h.2.1 (by simp)]

/-- A call at the end of the input: it ends a record that has begun, and says so otherwise. -/
theorem readRecord_nil (h : r.At s) (outLen : Nat) (hends : 0 < endsLen) :
    if pendingOf s then
      (r.readRecord [] outLen endsLen).1.At endRecord ∧
        (r.readRecord [] outLen endsLen).2 = ⟨.record, 0, 0, [], [r.outputPos]⟩
    else (r.readRecord [] outLen endsLen).2 = ⟨.end, 0, 0, [], []⟩ := by
  unfold readRecord
  rw [stripUtf8Bom_nil]
  dsimp only
  rw [h.table, if_neg (by decide : ¬false = true), readRecordDfa, if_pos rfl,
    h.transitionFinalDfa_eq]
  by_cases hp : pendingOf s = true
  · have hres : r.dfa.newReadRecordResult (endRecord.number * r.cfg.width) true false false false =
        .record := by
      simp [Dfa.newReadRecordResult, r.final_le.1]
    simp only [hp, if_true, hres, if_neg (by omega : ¬endsLen = 0)]
    exact ⟨⟨h.table, r.cfg.live_of_ne (by decide), rfl⟩, trivial⟩
  · have hres : r.dfa.newReadRecordResult (startRecord.number * r.cfg.width) true false false
        false = .end := by
      rw [Dfa.newReadRecordResult, if_neg r.final_le.2, if_pos ⟨rfl, Nat.zero_mul _⟩]
    simp [hp, hres]

/-- The same for a call that reads a field. -/
theorem readField_nil (h : r.At s) (outLen : Nat) :
    if pendingOf s then
      (r.readField [] outLen).1.At endRecord ∧
        (r.readField [] outLen).2 = ⟨.field true, 0, []⟩
    else (r.readField [] outLen).2 = ⟨.end, 0, []⟩ := by
  unfold readField
  rw [stripUtf8Bom_nil]
  dsimp only
  rw [h.table, if_neg (by decide : ¬false = true), readFieldDfa, if_pos rfl,
    h.transitionFinalDfa_eq]
  by_cases hp : pendingOf s = true
  · have hres : r.dfa.newReadFieldResult (endRecord.number * r.cfg.width) true false false =
        .field true := by
      simp [Dfa.newReadFieldResult, r.final_le.1]
    simp only [hp, if_true, hres]
    exact ⟨⟨h.table, r.cfg.live_of_ne (by decide), rfl⟩, trivial⟩
  · have hfield : ¬startRecord.number * r.cfg.width = r.dfa.finalField := by
      rw [show r.dfa.finalField = endFieldDelim.number * r.cfg.width from
        r.cfg.buildDfa_states.2.2.1, r.cfg.number_mul_inj]
      decide
    have hres : r.dfa.newReadFieldResult (startRecord.number * r.cfg.width) true false false =
        .end := by
      rw [Dfa.newReadFieldResult, if_neg r.final_le.2, if_neg hfield,
        if_pos ⟨rfl, Nat.zero_mul _⟩]
    simp [hp, hres]

theorem newReadFieldResult_eq {cfg : Config} {s : NfaState} (hs : cfg.Live s)
    (inpdone outdone : Bool) :
    let res := cfg.buildDfa.newReadFieldResult (s.number * cfg.width) false inpdone outdone
    (res = .field true ↔ markOf s = .record) ∧ (res = .field false ↔ markOf s = .field) ∧
      res ≠ .end := by
  have hfield : s.number * cfg.width = cfg.buildDfa.finalField ↔ markOf s = .field := by
    rw [cfg.buildDfa_states.2.2.1, cfg.number_mul_inj]
    cases s <;> decide
  unfold Dfa.newReadFieldResult
  simp only [cfg.finalRecord_le_iff hs, hfield]
  cases markOf s with
  | record => simp
  | field => simp
  | inside =>
    split_ifs <;> simp_all

/-- What a call of `read_field` on input that is left and with room in the buffer does. -/
structure FieldCall (r : Reader) (s : NfaState) (input : List UInt8) (r' : Reader)
    (x : FieldRead) (s' : NfaState) : Prop where
  state : r'.At s'
  cfg : r'.cfg = r.cfg
  hasRead : r'.hasRead = true
  isRecord : x.res = .field true ↔ markOf s' = .record
  isField : x.res = .field false ↔ markOf s' = .field
  notEnd : x.res ≠ .end
  pos : 0 < x.nin
  nin_le : x.nin ≤ input.length
  records : ∀ field fields,
    r.cfg.dfaTokenizer.fieldRecords s field fields input =
      match markOf s' with
      | .inside => r.cfg.dfaTokenizer.fieldRecords s' (field ++ x.out) fields (input.drop x.nin)
      | .field =>
        r.cfg.dfaTokenizer.fieldRecords s' [] (fields ++ [field ++ x.out]) (input.drop x.nin)
      | .record =>
        (fields ++ [field ++ x.out]) ::
          r.cfg.dfaTokenizer.fieldRecords s' [] [] (input.drop x.nin)

theorem readField_call (h : r.At s) (hread : r.hasRead = true) (hin : input ≠ [])
    (hout : 0 < outLen) :
    ∃ s', FieldCall r s input (r.readField input outLen).1 (r.readField input outLen).2 s' := by
  have hstrip : r.stripUtf8Bom input = (input, 0) := by
    rw [stripUtf8Bom, if_neg fun hh => by simp [hread] at hh]
  obtain ⟨s', hspec⟩ := r.cfg.fieldLoop_spec h.live input outLen (Or.inr ⟨hin, hout⟩)
  obtain ⟨-, hsuffix, hprogress⟩ := r.dfa.fieldLoop_bounds r.dfaState input outLen
  have hprogress := hprogress hin hout
  rw [← h.state] at hspec
  change r.cfg.FieldSpec s input (r.dfa.fieldLoop r.dfaState input outLen) s' at hspec
  refine ⟨s', ?_⟩
  unfold readField
  rw [hstrip]
  dsimp only
  rw [h.table, if_neg (by decide), readFieldDfa, if_neg hin, if_neg (by omega)]
  dsimp only
  generalize r.dfa.fieldLoop r.dfaState input outLen = l at *
  obtain ⟨hrec, hfield, hnotEnd⟩ := newReadFieldResult_eq hspec.live l.rest.isEmpty
    (outLen ≤ l.out.length)
  rw [← hspec.state] at hrec hfield hnotEnd
  change (r.dfa.newReadFieldResult l.state false l.rest.isEmpty _ = _ ↔ _) at hrec hfield
  change r.dfa.newReadFieldResult l.state false l.rest.isEmpty _ ≠ _ at hnotEnd
  generalize r.dfa.newReadFieldResult l.state false l.rest.isEmpty (outLen ≤ l.out.length) = res
    at *
  exact
    { state := h.move hspec.live hspec.state _ _
      cfg := rfl
      hasRead := rfl
      isRecord := hrec
      isField := hfield
      notEnd := hnotEnd
      pos := by
        show 0 < input.length - l.rest.length + 0
        omega
      nin_le := by
        show input.length - l.rest.length + 0 ≤ input.length
        omega
      records := fun field fields => by
        show _ = match markOf s' with
          | .inside => r.cfg.dfaTokenizer.fieldRecords s' (field ++ l.out) fields
              (input.drop (input.length - l.rest.length))
          | .field => r.cfg.dfaTokenizer.fieldRecords s' [] (fields ++ [field ++ l.out])
              (input.drop (input.length - l.rest.length))
          | .record => (fields ++ [field ++ l.out]) ::
              r.cfg.dfaTokenizer.fieldRecords s' [] []
                (input.drop (input.length - l.rest.length))
        rw [drop_of_suffix hsuffix]
        exact hspec.records field fields }

end Reader

end TeaclaveCrates.Csv
