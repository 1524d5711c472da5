import TeaclaveCrates.Csv.Writer
import TeaclaveCrates.Lib.Resumable

namespace TeaclaveCrates.Csv

open Lib Writer

/-!
# Writing into buffers of any size

A call of the writer that runs out of room has written a part of its bytes, and its state says from
where the next call has to go on.

* `WriterOp`, `WriterOp.attempt` — the calls, and one attempt of a call.
* `WriterOp.output`, `WriterOp.final` — what a call has still to write, and the state it ends in.
* `resumes` — an attempt writes all of the output or the front of it.
* `chains_eq_oneBuffer` — the bytes do not depend on the sizes of the buffers.
-/

/-! ### Attempts -/

/-- A call of the writer, with what is left of its input. -/
inductive WriterOp
  | field (input : List UInt8)
  | delimiter
  | terminator
  | finish
  deriving DecidableEq, Repr

/-- One attempt. -/
def WriterOp.attempt (w : Writer) (op : WriterOp) (room : Nat) :
    Option (Writer × Bool × WriterOp × List UInt8) :=
  match op with
  | .field input =>
    let (w', res, nin, out) := w.field input room
    some (w', res == .inputEmpty, .field (input.drop nin), out)
  | .delimiter =>
    let (w', res, out) := w.delimiter room
    some (w', res == .inputEmpty, .delimiter, out)
  | .terminator =>
    (w.terminator room).map fun x => (x.1, x.2.1 == .inputEmpty, .terminator, x.2.2)
  | .finish => (w.finish room).map fun x => (x.1, x.2.1 == .inputEmpty, .finish, x.2.2)

/-! ### What a call writes -/

namespace Writer

variable (w : Writer)

/-- Whether the field is quoted. -/
def quotes (input : List UInt8) : Bool :=
  if w.state.inField then w.state.quoting else w.shouldQuote input

/-- The opening quote. -/
def opening (input : List UInt8) : List UInt8 :=
  if w.state.inField = false ∧ w.quotes input then [w.cfg.quote] else []

/-- The bytes of the field. -/
def body (quoting : Bool) (input : List UInt8) : List UInt8 :=
  if quoting then w.cfg.escaped input else input

/-- The pair of quotes for an empty field. -/
def emptyField (isEmpty : Bool) : List UInt8 :=
  if isEmpty then [w.cfg.quote, w.cfg.quote] else []

end Writer

namespace WriterOp

/-- What the call has still to write. -/
def output (w : Writer) : WriterOp → List UInt8
  | .field input => w.opening input ++ w.body (w.quotes input) input
  | .delimiter => closeBytes w.cfg w.state.quoting ++ [w.cfg.delimiter]
  | .terminator =>
    w.emptyField (w.state.recordBytes == 0) ++ closeBytes w.cfg w.state.quoting ++ w.termBytes
  | .finish =>
    w.emptyField (w.state.recordBytes == 0 && w.state.inField) ++ closeBytes w.cfg w.state.quoting

/-- The writer behind the call. -/
def final (w : Writer) : WriterOp → Writer
  | .field input =>
    w.setState ⟨true, w.quotes input,
      w.state.recordBytes + (w.opening input).length + (w.body (w.quotes input) input).length⟩
  | .delimiter =>
    w.setState ⟨false, false,
      w.state.recordBytes + (closeBytes w.cfg w.state.quoting).length + 1⟩
  | .terminator => w.setState WriterState.default
  | .finish =>
    if w.state.quoting then w.setState WriterState.default
    else
      w.setState { w.state with
        recordBytes := w.state.recordBytes +
          (w.emptyField (w.state.recordBytes == 0 && w.state.inField)).length }

/-- The quote that was opened was counted. Behind a failed attempt to open it `quoting` is set
    already, but the field is not begun. -/
def Ready (w : Writer) : WriterOp → Prop
  | .field _ => w.state.inField = true → w.state.quoting = true → w.state.recordBytes ≠ 0
  | _ => w.state.quoting = true → w.state.recordBytes ≠ 0

end WriterOp

/-! ### Copying a part -/

/-- All of the input was copied, or, without room for it, a front of it. -/
def CopiesFront (f : List UInt8 → List UInt8) (input : List UInt8) (room : Nat)
    (x : WriteResult × Nat × List UInt8) : Prop :=
  x = (.inputEmpty, input.length, f input) ∨
    ∃ i, x = (.outputFull, i, f (input.take i)) ∧ room < (f input).length ∧
      (2 ≤ room → f (input.take i) ≠ [])

theorem copiesFront_writeOptimistic (input : List UInt8) (room : Nat) :
    CopiesFront id input room (writeOptimistic input room) := by
  unfold writeOptimistic
  by_cases h : room < input.length
  · rw [if_pos h]
    refine Or.inr ⟨room, rfl, h, fun hroom hnil => ?_⟩
    have hlen : (input.take room).length = room := List.length_take_of_le (Nat.le_of_lt h)
    rw [id, List.eq_nil_iff_length_eq_zero] at hnil
    omega
  · rw [if_neg h]
    exact Or.inl rfl

variable {input : List UInt8}

theorem writePessimistic_full {room : Nat} (h : room < input.length) :
    writePessimistic input room = (.outputFull, []) := by
  simp [writePessimistic, h]

variable (b : WriterBuilder)

theorem length_escapePair :
    (if b.doubleQuote then [b.quote, b.quote] else [b.escape, b.quote]).length = 2 := by
  split_ifs <;> rfl

/-- The bytes up to the first quote, its escape, and the rest. -/
theorem escaped_split {pre rest : List UInt8} (h : b.quote ∉ pre) :
    b.escaped (pre ++ b.quote :: rest) =
      pre ++ (if b.doubleQuote then [b.quote, b.quote] else [b.escape, b.quote]) ++
        b.escaped rest := by
  have hprefix := b.escaped_of_not_mem h
  unfold WriterBuilder.escaped at hprefix ⊢
  rw [List.flatMap_append, List.flatMap_cons, hprefix, if_pos rfl, List.append_assoc]
  cases b.doubleQuote <;> rfl

theorem copiesFront_quoteInto (input : List UInt8) (room : Nat) :
    CopiesFront b.escaped input room
      (quoteInto b.quote b.escape b.doubleQuote input room) := by
  induction hn : input.length using Nat.strong_induction_on generalizing input room with
  | _ n ih =>
    subst hn
    rw [quoteInto]
    split
    · rename_i hnone
      -- no quote: everything is copied as it stands
      have hnot := memchr_eq_none hnone
      have hpart : ∀ i, b.escaped (input.take i) = input.take i := fun i =>
        b.escaped_of_not_mem fun hmem => hnot (List.mem_of_mem_take hmem)
      have hall := b.escaped_of_not_mem hnot
      rcases copiesFront_writeOptimistic input room with hcopy | ⟨i, hcopy, hroom, hsome⟩
      · exact Or.inl (by rw [hcopy, hall]; rfl)
      · exact Or.inr ⟨i, by rw [hcopy, hpart]; rfl, by rw [hall]; exact hroom, by
          rw [hpart]
          exact hsome⟩
    · rename_i next hsome
      obtain ⟨pre, rest, htake, hdrop, rfl, hnot, hinput⟩ : ∃ pre rest, input.take next = pre ∧
          input.drop (next + 1) = rest ∧ pre.length = next ∧ b.quote ∉ pre ∧
            input = pre ++ b.quote :: rest :=
        ⟨_, _, rfl, rfl, List.length_take_of_le (Nat.le_of_lt (memchr_lt hsome)),
          (memchr_eq_some hsome).1, (memchr_eq_some hsome).2⟩
      -- behind the quote and its escape the loop begins anew with what is left
      have hrest := ih rest.length (by rw [hinput]; simp; omega) rest (room - pre.length - 2) rfl
      have hpair := length_escapePair b
      have hsplit : b.escaped (pre ++ b.quote :: rest) = _ := escaped_split b hnot
      rw [htake, hdrop, hinput]
      have hlen : (b.escaped (pre ++ b.quote :: rest)).length =
          pre.length + 2 + (b.escaped rest).length := by
        rw [hsplit, List.length_append, List.length_append, hpair]
      by_cases hroom : room < pre.length
      · -- there is no room for the bytes in front of the quote
        have hpart : b.escaped ((pre ++ b.quote :: rest).take room) = pre.take room := by
          rw [List.take_append_of_le_length (Nat.le_of_lt hroom)]
          exact b.escaped_of_not_mem fun hmem => hnot (List.mem_of_mem_take hmem)
        rw [writeOptimistic, if_pos hroom]
        refine Or.inr ⟨room, by rw [hpart]; rfl, by omega, fun htwo hnil => ?_⟩
        have := List.length_take_of_le (Nat.le_of_lt hroom)
        rw [hpart, List.eq_nil_iff_length_eq_zero] at hnil
        omega
      rw [writeOptimistic_eq (by omega)]
      dsimp only
      rw [if_neg (by decide)]
      by_cases hescape : room - pre.length < 2
      · -- the escape is written as a whole or not at all
        have hpart : b.escaped ((pre ++ b.quote :: rest).take pre.length) = pre := by
          rw [List.take_append_length]
          exact b.escaped_of_not_mem hnot
        rw [writePessimistic_full (by rw [hpair]; exact hescape)]
        refine Or.inr ⟨pre.length, by rw [hpart]; rfl, by omega, fun htwo hnil => ?_⟩
        rw [hpart, List.eq_nil_iff_length_eq_zero] at hnil
        omega
      rw [writePessimistic_eq (by omega)]
      dsimp only
      rw [if_neg (by decide), hpair]
      rcases hrest with hdone | ⟨i, hfull, hless, -⟩
      · rw [hdone]
        refine Or.inl ?_
        rw [hsplit, List.length_append, List.length_cons, Nat.add_assoc, Nat.add_comm 1]
      -- the room ends behind the escape
      · have hpart : b.escaped ((pre ++ b.quote :: rest).take (pre.length + 1 + i)) = pre ++
            (if b.doubleQuote then [b.quote, b.quote] else [b.escape, b.quote]) ++
              b.escaped (rest.take i) := by
          simp [Nat.add_assoc, List.take_length_add_append, Nat.add_comm 1, escaped_split b hnot]
        rw [hfull]
        refine Or.inr ⟨pre.length + 1 + i, by rw [hpart], by omega, fun _ hnil => ?_⟩
        rw [hpart, List.eq_nil_iff_length_eq_zero, List.length_append, List.length_append,
          hpair] at hnil
        omega

theorem copiesFront_body (w : Writer) (quoting : Bool) (input : List UInt8) (room : Nat) :
    CopiesFront (w.body quoting) input room
      (if quoting then quoteInto w.cfg.quote w.cfg.escape w.cfg.doubleQuote input room
        else writeOptimistic input room) := by
  cases quoting with
  | false => exact copiesFront_writeOptimistic input room
  | true => exact copiesFront_quoteInto w.cfg input room

theorem body_append (w : Writer) (quoting : Bool) (a c : List UInt8) :
    w.body quoting (a ++ c) = w.body quoting a ++ w.body quoting c := by
  unfold Writer.body WriterBuilder.escaped
  split
  · simp
  · rfl

/-! ### One attempt -/

/-- What the library asks of an attempt. -/
def Steps (w : Writer) (op : WriterOp) (room : Nat) : Prop :=
  (∃ op', op.attempt w room = some (op.final w, true, op', op.output w)) ∨
    ∃ w' op' out, op.attempt w room = some (w', false, op', out) ∧
      room < (op.output w).length ∧ op.output w = out ++ op'.output w' ∧
      op'.final w' = op.final w ∧ op'.Ready w' ∧ (2 ≤ room → out ≠ [])

variable {w : Writer} {room : Nat}

theorem field_eq_opening (w : Writer) (input : List UInt8) (room : Nat) :
    w.field input room =
      let x := writePessimistic (w.opening input) room
      if x.1 = .outputFull then
        (w.setState { w.state with quoting := w.quotes input }, x.1, 0, [])
      else
        let y := if w.quotes input then
            quoteInto w.cfg.quote w.cfg.escape w.cfg.doubleQuote input (room - x.2.length)
          else writeOptimistic input (room - x.2.length)
        (w.setState ⟨true, w.quotes input, w.state.recordBytes + x.2.length + y.2.2.length⟩, y.1,
          y.2.1, x.2 ++ y.2.2) := rfl

theorem shouldQuote_setState (w : Writer) (s : WriterState) (input : List UInt8) :
    (w.setState s).shouldQuote input = w.shouldQuote input := by
  unfold Writer.shouldQuote
  rw [needsQuotes_eq, needsQuotes_eq]
  rfl

/-- A field that is begun has its opening quote. -/
theorem begun_setState (w : Writer) (quoting : Bool) (n : Nat) (input : List UInt8) :
    (w.setState ⟨true, quoting, n⟩).quotes input = quoting ∧
      (w.setState ⟨true, quoting, n⟩).opening input = [] := by
  refine ⟨rfl, ?_⟩
  rw [Writer.opening, if_neg fun h => Bool.noConfusion h.1]

/-- The opening quote is counted, by this call or by one before it. -/
theorem counted_of_quotes (h : (WriterOp.field input).Ready w) (hq : w.quotes input = true)
    (n : Nat) :
    w.state.recordBytes + (w.opening input).length + n ≠ 0 := by
  cases hbegun : w.state.inField with
  | false =>
    rw [Writer.opening, if_pos ⟨hbegun, hq⟩, List.length_singleton]
    omega
  | true =>
    have hstate : w.state.quoting = true := by
      rw [← hq, Writer.quotes, hbegun, if_pos rfl]
    have := h hbegun hstate
    omega

theorem steps_field (h : (WriterOp.field input).Ready w) :
    Steps w (.field input) room := by
  unfold Steps
  simp only [WriterOp.attempt]
  rw [field_eq_opening]
  by_cases hopen : room < (w.opening input).length
  · -- no room for the opening quote: the next attempt begins the field anew
    rw [writePessimistic_full hopen]
    have hnew : w.state.inField = false ∧ w.quotes input = true := by
      by_contra hno
      rw [Writer.opening, if_neg hno] at hopen
      exact absurd hopen (Nat.not_lt_zero _)
    have hone : (w.opening input).length = 1 := by
      simp [Writer.opening, hnew]
    have hquotes : (w.setState { w.state with quoting := w.quotes input }).quotes input =
        w.quotes input := by
      simp [Writer.quotes, hnew.1, shouldQuote_setState]
    have hopening : (w.setState { w.state with quoting := w.quotes input }).opening input =
        w.opening input := by
      unfold Writer.opening
      rw [hquotes]
      rfl
    refine Or.inr ⟨w.setState { w.state with quoting := w.quotes input }, .field (input.drop 0), [],
      rfl, ?_, ?_, ?_, fun hbegun => ?_, fun htwo => by omega⟩
    · rw [WriterOp.output, List.length_append]
      omega
    · rw [List.drop_zero, List.nil_append, WriterOp.output, WriterOp.output, hquotes, hopening]
      rfl
    · rw [List.drop_zero, WriterOp.final, hquotes, hopening]
      rfl
    · rw [setState_state, hnew.1] at hbegun
      exact absurd hbegun (by decide)
  · rw [writePessimistic_eq (by omega)]
    dsimp only
    rw [if_neg (by decide)]
    rcases copiesFront_body w (w.quotes input) input (room - (w.opening input).length) with hdone |
      ⟨i, hfull, hless, hsome⟩
    · rw [hdone]
      exact Or.inl ⟨_, rfl⟩
    · rw [hfull]
      -- the next attempt goes on behind the bytes that were consumed
      have hsplit : w.body (w.quotes input) input =
          w.body (w.quotes input) (input.take i) ++ w.body (w.quotes input) (input.drop i) := by
        rw [← body_append, List.take_append_drop]
      obtain ⟨hquotes, hopening⟩ := begun_setState w (w.quotes input) (w.state.recordBytes +
        (w.opening input).length + (w.body (w.quotes input) (input.take i)).length) (input.drop i)
      refine Or.inr ⟨_, _, _, rfl, ?_, ?_, ?_, fun _ hquoting => ?_, fun htwo hnil => ?_⟩
      · rw [WriterOp.output, List.length_append]
        omega
      · rw [WriterOp.output, WriterOp.output, hquotes, hopening, hsplit, List.nil_append,
          List.append_assoc]
        rfl
      · rw [WriterOp.final, WriterOp.final, hquotes, hopening, hsplit, List.length_append]
        simp only [setState_setState, setState_state, List.length_nil, Nat.add_zero, Nat.add_assoc]
        rfl
      · exact counted_of_quotes h hquoting _
      · rw [List.append_eq_nil_iff] at hnil
        apply hsome _ hnil.2
        rw [hnil.1]
        exact htwo

theorem length_closeBytes (quoting : Bool) :
    (closeBytes b quoting).length = if quoting then 1 else 0 := by
  cases quoting <;> rfl

theorem length_emptyField (w : Writer) (isEmpty : Bool) :
    (w.emptyField isEmpty).length = if isEmpty then 2 else 0 := by
  cases isEmpty <;> rfl

theorem length_termBytes_le (w : Writer) : w.termBytes.length ≤ 2 := by
  unfold termBytes
  split
  · exact Nat.le_refl 2
  · exact Nat.le_succ 1

/-- An attempt that leaves the writer as it is, for want of room. -/
theorem steps_again {op : WriterOp} (hattempt : op.attempt w room = some (w, false, op, []))
    (hroom : room < (op.output w).length) (hready : op.Ready w) (hless : room < 2) :
    Steps w op room :=
  Or.inr ⟨w, op, [], hattempt, hroom, rfl, rfl, hready, fun htwo => by omega⟩

theorem steps_delimiter (h : WriterOp.delimiter.Ready w) : Steps w .delimiter room := by
  have hlen := length_closeBytes w.cfg w.state.quoting
  have hle : (closeBytes w.cfg w.state.quoting).length ≤ 1 := by
    rw [hlen]
    split <;> omega
  have hunfold : w.delimiter room =
      let x := writePessimistic (closeBytes w.cfg w.state.quoting) room
      if x.1 = .outputFull then (w, x.1, [])
      else
        let s : WriterState :=
          { w.state with recordBytes := w.state.recordBytes + x.2.length, quoting := false }
        let y := writePessimistic [w.cfg.delimiter] (room - x.2.length)
        if y.1 = .outputFull then (w.setState s, y.1, x.2)
        else
          (w.setState { s with recordBytes := s.recordBytes + y.2.length, inField := false }, y.1,
            x.2 ++ y.2) := rfl
  by_cases hclose : room < (closeBytes w.cfg w.state.quoting).length
  · rw [writePessimistic_full hclose] at hunfold
    refine steps_again ?_ ?_ h (by omega)
    · simp [WriterOp.attempt, hunfold]
    · rw [WriterOp.output, List.length_append]
      omega
  rw [writePessimistic_eq (by omega)] at hunfold
  dsimp only at hunfold
  by_cases hdelim : room - (closeBytes w.cfg w.state.quoting).length < 1
  · -- between the closing quote and the delimiter
    rw [writePessimistic_full hdelim, if_pos rfl] at hunfold
    refine Or.inr ⟨w.setState ⟨w.state.inField, false,
        w.state.recordBytes + (closeBytes w.cfg w.state.quoting).length⟩, .delimiter,
      closeBytes w.cfg w.state.quoting, ?_, ?_, ?_, ?_, ?_, fun htwo => by omega⟩
    · simp [WriterOp.attempt, hunfold]
    · rw [WriterOp.output, List.length_append, List.length_singleton]
      omega
    · rfl
    · rfl
    · exact fun hquoting => Bool.noConfusion hquoting
  · rw [writePessimistic_eq (by rw [List.length_singleton]; omega)] at hunfold
    refine Or.inl ⟨.delimiter, ?_⟩
    simp only [WriterOp.attempt, hunfold]
    rfl

theorem steps_terminator (h : WriterOp.terminator.Ready w) : Steps w .terminator room := by
  have hready : w.state.quoting = true → w.state.recordBytes ≠ 0 := h
  -- the assertion at the head of `terminator` does not fail
  have hassert : ¬(w.state.recordBytes = 0 ∧ w.state.quoting = true) := fun hboth =>
    hready hboth.2 hboth.1
  have hpairLen := length_emptyField w (w.state.recordBytes == 0)
  have hcloseLen := length_closeBytes w.cfg w.state.quoting
  have htermLen := length_termBytes_le w
  have hpairEq : (if w.state.recordBytes = 0 then [w.cfg.quote, w.cfg.quote] else []) =
      w.emptyField (w.state.recordBytes == 0) := by
    simp [Writer.emptyField, beq_iff_eq]
  have hunfold : w.terminator room =
      let x := writePessimistic (w.emptyField (w.state.recordBytes == 0)) room
      if x.1 = .outputFull then some (w, x.1, [])
      else
        let s : WriterState := { w.state with recordBytes := w.state.recordBytes + x.2.length }
        let y := writePessimistic (closeBytes w.cfg w.state.quoting) (room - x.2.length)
        if y.1 = .outputFull then some (w.setState s, y.1, [])
        else
          let s := { s with recordBytes := s.recordBytes + y.2.length, quoting := false }
          let z := writePessimistic w.termBytes (room - x.2.length - y.2.length)
          if z.1 = .outputFull then some (w.setState s, z.1, x.2 ++ y.2)
          else
            some (w.setState { s with recordBytes := 0, inField := false }, z.1,
              x.2 ++ y.2 ++ z.2) := by
    rw [← hpairEq, Writer.terminator]
    simp only [if_neg hassert]
    rfl
  by_cases hpair : room < (w.emptyField (w.state.recordBytes == 0)).length
  · rw [writePessimistic_full hpair] at hunfold
    refine steps_again ?_ ?_ h (by split at hpairLen <;> omega)
    · simp [WriterOp.attempt, hunfold]
    · rw [WriterOp.output, List.length_append, List.length_append]
      omega
  rw [writePessimistic_eq (by omega)] at hunfold
  dsimp only at hunfold
  by_cases hclose : room - (w.emptyField (w.state.recordBytes == 0)).length <
      (closeBytes w.cfg w.state.quoting).length
  · -- a closing quote is missing, so that the record is not empty
    have hquoting : w.state.quoting = true := by
      by_contra hno
      rw [hcloseLen, if_neg hno] at hclose
      exact absurd hclose (Nat.not_lt_zero _)
    have hzero : (w.emptyField (w.state.recordBytes == 0)).length = 0 := by
      rw [hpairLen, if_neg (by simpa using hready hquoting)]
    rw [if_pos hquoting] at hcloseLen
    rw [writePessimistic_full hclose, if_pos rfl, hzero] at hunfold
    refine steps_again ?_ ?_ h (by omega)
    · simp only [WriterOp.attempt, hunfold]
      rfl
    · rw [WriterOp.output, List.length_append, List.length_append]
      omega
  rw [writePessimistic_eq (by omega)] at hunfold
  dsimp only at hunfold
  rw [if_neg (by decide)] at hunfold
  by_cases hterm : room - (w.emptyField (w.state.recordBytes == 0)).length -
      (closeBytes w.cfg w.state.quoting).length < w.termBytes.length
  · -- what was written is counted, so that no second pair of quotes follows
    have hcounted : (w.state.recordBytes + (w.emptyField (w.state.recordBytes == 0)).length +
        (closeBytes w.cfg w.state.quoting).length == 0) = false := by
      rw [beq_eq_false_iff_ne]
      by_cases hrecord : w.state.recordBytes = 0
      · rw [hpairLen, if_pos (by simpa using hrecord)]
        omega
      · omega
    rw [writePessimistic_full hterm, if_pos rfl] at hunfold
    refine Or.inr ⟨w.setState ⟨w.state.inField, false, w.state.recordBytes +
        (w.emptyField (w.state.recordBytes == 0)).length +
          (closeBytes w.cfg w.state.quoting).length⟩, .terminator,
      w.emptyField (w.state.recordBytes == 0) ++ closeBytes w.cfg w.state.quoting, ?_, ?_, ?_, rfl,
      fun hquoting => Bool.noConfusion hquoting, fun htwo hnil => ?_⟩
    · simp only [WriterOp.attempt, hunfold]
      rfl
    · rw [WriterOp.output, List.length_append, List.length_append]
      omega
    · rw [WriterOp.output, WriterOp.output, setState_state, hcounted]
      rfl
    · rw [List.append_eq_nil_iff] at hnil
      rw [hnil.1, hnil.2] at hterm
      simp only [List.length_nil] at hterm
      omega
  · rw [writePessimistic_eq (by omega)] at hunfold
    refine Or.inl ⟨.terminator, ?_⟩
    simp only [WriterOp.attempt, hunfold]
    rfl

theorem steps_finish (h : WriterOp.finish.Ready w) : Steps w .finish room := by
  have hready : w.state.quoting = true → w.state.recordBytes ≠ 0 := h
  have hassert : ¬(w.state.recordBytes = 0 ∧ w.state.inField = true ∧ w.state.quoting = true) :=
    fun hall => hready hall.2.2 hall.1
  have hpairLen := length_emptyField w (w.state.recordBytes == 0 && w.state.inField)
  have hpairEq : (if w.state.recordBytes = 0 ∧ w.state.inField = true then
      [w.cfg.quote, w.cfg.quote] else []) =
        w.emptyField (w.state.recordBytes == 0 && w.state.inField) := by
    unfold Writer.emptyField
    simp only [Bool.and_eq_true, beq_iff_eq]
  have hunfold : w.finish room =
      let x := writePessimistic
        (w.emptyField (w.state.recordBytes == 0 && w.state.inField)) room
      if x.1 = .outputFull then some (w, x.1, [])
      else
        let s : WriterState := { w.state with recordBytes := w.state.recordBytes + x.2.length }
        if s.quoting = false then some (w.setState s, .inputEmpty, x.2)
        else
          let y := writePessimistic [w.cfg.quote] (room - x.2.length)
          if y.1 = .outputFull then some (w.setState s, y.1, x.2)
          else some (w.setState WriterState.default, y.1, x.2 ++ y.2) := by
    rw [← hpairEq, Writer.finish]
    simp only [if_neg hassert]
  by_cases hpair : room < (w.emptyField (w.state.recordBytes == 0 && w.state.inField)).length
  · rw [writePessimistic_full hpair] at hunfold
    refine steps_again ?_ ?_ h (by split at hpairLen <;> omega)
    · simp only [WriterOp.attempt, hunfold]
      rfl
    · rw [WriterOp.output, List.length_append]
      omega
  rw [writePessimistic_eq (by omega)] at hunfold
  dsimp only at hunfold
  rw [if_neg (by decide)] at hunfold
  cases hquoting : w.state.quoting with
  | false =>
    rw [if_pos hquoting] at hunfold
    refine Or.inl ⟨.finish, ?_⟩
    simp only [WriterOp.attempt, hunfold, WriterOp.final, WriterOp.output, hquoting]
    simp [closeBytes]
  | true =>
    -- an open quote was counted, so that the record is not empty
    have hnone : w.emptyField (w.state.recordBytes == 0 && w.state.inField) = [] := by
      unfold Writer.emptyField
      rw [if_neg (by simp [hready hquoting])]
    rw [if_neg (by rw [hquoting]; decide), hnone] at hunfold
    have houtput : WriterOp.finish.output w = [w.cfg.quote] := by
      rw [WriterOp.output, hnone, hquoting]
      rfl
    by_cases hroom : room < 1
    · rw [writePessimistic_full (by simpa using hroom), if_pos rfl] at hunfold
      refine steps_again ?_ ?_ h (by omega)
      · simp only [WriterOp.attempt, hunfold]
        rfl
      · rw [houtput]
        exact hroom
    · rw [writePessimistic_eq (by rw [List.length_singleton, List.length_nil]; omega)] at hunfold
      refine Or.inl ⟨.finish, ?_⟩
      rw [houtput, WriterOp.final, if_pos hquoting]
      simp only [WriterOp.attempt, hunfold]
      rfl

/-! ### All calls -/

/-- Behind a call a quote that is open was counted. -/
theorem ready_final {op : WriterOp} (h : op.Ready w) :
    (op.final w).state.quoting = true → (op.final w).state.recordBytes ≠ 0 := by
  intro hquoting
  cases op with
  | field input =>
    have hq : w.quotes input = true := hquoting
    show w.state.recordBytes + (w.opening input).length + _ ≠ 0
    exact counted_of_quotes h hq _
  | delimiter => exact absurd hquoting Bool.false_ne_true
  | terminator => exact absurd hquoting Bool.false_ne_true
  | finish =>
    rw [WriterOp.final] at hquoting
    split at hquoting
    · exact absurd hquoting Bool.false_ne_true
    · rename_i hno
      exact absurd hquoting hno

/-- **Every attempt can be resumed.** -/
theorem resumes :
    Resumes WriterOp.attempt 2 (fun w op => op.Ready w) (fun w op => op.output w)
      (fun w op => op.final w) where
  step w op room h := by
    cases op with
    | field input => exact steps_field h
    | delimiter => exact steps_delimiter h
    | terminator => exact steps_terminator h
    | finish => exact steps_finish h
  ready_final w op h op' := by
    cases op' with
    | field input => exact fun _ => ready_final h
    | delimiter | terminator | finish => exact ready_final h

/-- **The output of the writer does not depend on the sizes of its buffers.** For any settings and
    any calls there are bytes that the calls write into any one buffer with room for them; and when
    each call is tried again, on a buffer of any size of at least two bytes, for as long as it runs
    out of room, then no assertion fails, every call comes to an end, and the bytes are the same. The
    first attempt of a call may have any room, such as what the call before it has left. -/
theorem chains_eq_oneBuffer (b : WriterBuilder) (ops : List WriterOp) :
    ∃ w out, (∀ room, out.length ≤ room →
        oneBuffer WriterOp.attempt room b.build ops = some (w, out)) ∧
      ∀ rooms : Nat → Nat → Nat, (∀ i j, 0 < j → 2 ≤ rooms i j) →
        ∃ fuel, chains WriterOp.attempt rooms fuel 0 b.build ops = some (w, out) := by
  have hready : ∀ op : WriterOp, op.Ready b.build := by
    intro op
    cases op with
    | field input => exact fun hbegun => Bool.noConfusion hbegun
    | delimiter | terminator | finish => exact fun hquoting => Bool.noConfusion hquoting
  refine ⟨_, _, fun room hroom => resumes.oneBuffer_eq hready hroom, fun rooms hrooms => ?_⟩
  exact ⟨_, resumes.chains_eq hready hrooms (Nat.lt_succ_self _) 0⟩

end TeaclaveCrates.Csv
