import Mathlib.Data.Fintype.Card
import TeaclaveCrates.Csv.Nfa

namespace TeaclaveCrates.Csv

open Lib

/-!
# The table of the CSV parser

`build_dfa` of `csv_core` writes the automaton into a table with one row for each state and one
column for each class of bytes.

* `DfaClasses` — the class of each byte; all bytes that were not added share class `0`.
* `Dfa`, `buildDfa` — the table and the loops that fill it.
* `dfaStep` — what the table says, without the table: the automaton itself, except that a line feed
  which has no class of its own does not end a comment.
* `getOutput_eq` — a lookup gives `dfaStep`.
-/

/-! ### Classes of bytes -/

structure DfaClasses where
  classes : UInt8 → Nat
  nextClass : Nat

namespace DfaClasses

def new : DfaClasses where
  classes := fun _ => 0
  nextClass := 1

def add (k : DfaClasses) (b : UInt8) : DfaClasses where
  classes := Function.update k.classes b k.nextClass
  nextClass := k.nextClass + 1

def numClasses (k : DfaClasses) : Nat := k.nextClass

/-- What is known of the classes after the bytes `bs` were added. -/
structure Added (k : DfaClasses) (bs : List UInt8) : Prop where
  next : k.nextClass = bs.length + 1
  zero_iff : ∀ b, k.classes b = 0 ↔ b ∉ bs
  lt_next : ∀ b, k.classes b < k.nextClass
  inj : ∀ b b', k.classes b = k.classes b' → k.classes b ≠ 0 → b = b'

theorem added_new : Added new [] :=
  ⟨rfl, fun b => by simp [new], fun _ => Nat.one_pos, fun _ _ _ h => absurd rfl h⟩

/-- A byte that is added again moves to the new class, so no class ever has two bytes. -/
theorem Added.add {k : DfaClasses} {bs : List UInt8} (h : Added k bs) (b : UInt8) :
    Added (k.add b) (bs ++ [b]) := by
  have hpos : k.nextClass ≠ 0 := by
    rw [h.next]
    omega
  refine ⟨?_, fun x => ?_, fun x => ?_, fun x y hxy hx => ?_⟩
  · simp [DfaClasses.add, h.next]
  · by_cases hx : x = b
    · subst hx
      simp [DfaClasses.add, hpos]
    · simp [DfaClasses.add, hx, h.zero_iff]
  · by_cases hx : x = b
    · subst hx
      simp [DfaClasses.add]
    · have := h.lt_next x
      simp only [DfaClasses.add, Function.update_of_ne hx]
      omega
  · have hlt := h.lt_next
    by_cases hxb : x = b
    · by_cases hyb : y = b
      · rw [hxb, hyb]
      · have := hlt y
        simp only [DfaClasses.add, hxb, Function.update_self, Function.update_of_ne hyb] at hxy
        omega
    · by_cases hyb : y = b
      · have := hlt x
        simp only [DfaClasses.add, hyb, Function.update_self, Function.update_of_ne hxb] at hxy
        omega
      · simp only [DfaClasses.add, Function.update_of_ne hxb, Function.update_of_ne hyb] at hxy hx
        exact h.inj x y hxy hx

theorem added_foldl (bs : List UInt8) : Added (bs.foldl DfaClasses.add new) bs := by
  induction bs using List.reverseRecOn with
  | nil => exact added_new
  | append_singleton bs b ih =>
    rw [List.foldl_concat]
    exact ih.add b

end DfaClasses

namespace Config

variable (cfg : Config)

/-- The bytes that get a class of their own, in the order in which `build_dfa` adds them. -/
def classBytes : List UInt8 :=
  cfg.delimiter :: (if cfg.quoting then cfg.quote :: cfg.escape.toList else []) ++
    cfg.comment.toList ++
    (match cfg.term with
      | .any b => [b]
      | .crlf => [CR, LF])

def classes : DfaClasses := cfg.classBytes.foldl DfaClasses.add DfaClasses.new

theorem added_classes : DfaClasses.Added cfg.classes cfg.classBytes :=
  DfaClasses.added_foldl cfg.classBytes

/-- At most seven classes, the common one included. -/
theorem length_classBytes : cfg.classBytes.length ≤ 6 := by
  unfold classBytes
  cases cfg.quoting <;> cases cfg.escape <;> cases cfg.comment <;> cases cfg.term <;> simp

end Config

/-! ### The table -/

structure Dfa where
  trans : Nat → Nat
  hasOutput : Nat → Bool
  classes : DfaClasses
  inField : Nat
  inQuoted : Nat
  finalField : Nat
  finalRecord : Nat

namespace Dfa

/-- A DFA state is the index of its row. -/
def newState (d : Dfa) (s : NfaState) : Nat := s.number * d.classes.numClasses

def getOutput (d : Dfa) (state : Nat) (c : UInt8) : Nat × Bool :=
  let idx := state + d.classes.classes c
  (d.trans idx, d.hasOutput idx)

theorem getOutput_entry (d : Dfa) (state : Nat) (c : UInt8) :
    d.getOutput state c =
      (d.trans (state + d.classes.classes c), d.hasOutput (state + d.classes.classes c)) := rfl

def set (d : Dfa) (src : Nat) (c : UInt8) (dst : Nat) (output : Bool) : Dfa :=
  let idx := src + d.classes.classes c
  { d with trans := Function.update d.trans idx dst
           hasOutput := Function.update d.hasOutput idx output }

def finish (d : Dfa) : Dfa :=
  { d with inField := d.newState .inField
           inQuoted := d.newState .inQuotedField
           finalField := d.newState .endFieldDelim
           finalRecord := d.newState .endRecord }

@[simp]
theorem finish_classes (d : Dfa) : d.finish.classes = d.classes := rfl

@[simp]
theorem finish_trans (d : Dfa) : d.finish.trans = d.trans := rfl

@[simp]
theorem finish_hasOutput (d : Dfa) : d.finish.hasOutput = d.hasOutput := rfl

/-- `Dfa::new()` with the classes added. -/
def new (k : DfaClasses) : Dfa where
  trans := fun _ => 0
  hasOutput := fun _ => false
  classes := k
  inField := 0
  inQuoted := 0
  finalField := 0
  finalRecord := 0

end Dfa

namespace Config

variable (cfg : Config)

open NfaState NfaInputAction

/-- More rounds than any chain of transitions without input has. -/
def epsilonRounds : Nat := 6

/-- The body of the loops of `build_dfa`. -/
def fillCell (d : Dfa) (s : NfaState) (c : UInt8) : Dfa :=
  let r := cfg.consume c epsilonRounds (s, epsilon)
  d.set (d.newState s) c (d.newState r.1) (r.2 = copyToOutput)

/-- The loop over the bytes for one state. -/
def fillRow (d : Dfa) (s : NfaState) : Dfa :=
  (List.range 256).foldl (fun d c => cfg.fillCell d s (UInt8.ofNat c)) d

def buildDfa : Dfa := (dfaStates.foldl cfg.fillRow (Dfa.new cfg.classes)).finish

/-! ### What the loops leave in a cell -/

/-- The cells in the order in which they are filled. -/
def rowCells (s : NfaState) : List (NfaState × UInt8) :=
  (List.range 256).map fun c => (s, UInt8.ofNat c)

def cells : List (NfaState × UInt8) := dfaStates.flatMap rowCells

def fillCells (d : Dfa) (l : List (NfaState × UInt8)) : Dfa :=
  l.foldl (fun d x => cfg.fillCell d x.1 x.2) d

theorem buildDfa_eq : cfg.buildDfa = (cfg.fillCells (Dfa.new cfg.classes) cells).finish := by
  have hrow : cfg.fillRow = fun d s => (rowCells s).foldl (fun d x => cfg.fillCell d x.1 x.2) d := by
    funext d s
    rw [fillRow, rowCells, List.foldl_map]
  rw [buildDfa, hrow, fillCells, cells, List.foldl_flatMap]

theorem mem_rowCells (s : NfaState) (c : UInt8) : (s, c) ∈ rowCells s := by
  rw [rowCells, List.mem_map]
  refine ⟨c.toNat, List.mem_range.mpr c.toNat_lt, ?_⟩
  simp

variable {s : NfaState}

theorem fst_of_mem_rowCells {x : NfaState × UInt8} (h : x ∈ rowCells s) :
    x.1 = s := by
  obtain ⟨c, -, rfl⟩ := List.mem_map.mp h
  rfl

/-- The place of a cell in the table. -/
def index (s : NfaState) (c : UInt8) : Nat :=
  s.number * cfg.classes.numClasses + cfg.classes.classes c

/-- What is written into a cell. -/
def value (s : NfaState) (c : UInt8) : Nat × Bool :=
  ((cfg.nextByte s c).1.number * cfg.classes.numClasses,
    decide ((cfg.nextByte s c).2 = copyToOutput))

theorem fillCells_classes (d : Dfa) (l : List (NfaState × UInt8)) :
    (cfg.fillCells d l).classes = d.classes := by
  induction l generalizing d with
  | nil => rfl
  | cons x l ih => exact ih _

theorem rank_lt_epsilonRounds (s : NfaState) : s.rank < epsilonRounds := by
  cases s <;> decide

/-- Cells that agree on what they write into a place leave that in it. -/
theorem fillCells_agree {d : Dfa} (hd : d.classes = cfg.classes) {l : List (NfaState × UInt8)}
    (hl : ∀ x ∈ l, x.1 ≠ .end) {idx : Nat} {v : Nat × Bool}
    (hall : ∀ x ∈ l, cfg.index x.1 x.2 = idx → cfg.value x.1 x.2 = v)
    (hsome : (∃ x ∈ l, cfg.index x.1 x.2 = idx) ∨ (d.trans idx, d.hasOutput idx) = v) :
    ((cfg.fillCells d l).trans idx, (cfg.fillCells d l).hasOutput idx) = v := by
  induction l generalizing d with
  | nil =>
    rcases hsome with ⟨x, hx, -⟩ | h
    · simp at hx
    · exact h
  | cons x l ih =>
    have hx := hl x List.mem_cons_self
    have hfill : cfg.fillCell d x.1 x.2 =
        d.set (x.1.number * cfg.classes.numClasses) x.2 (cfg.value x.1 x.2).1
          (cfg.value x.1 x.2).2 := by
      simp [fillCell, value, cfg.consume_eq hx x.2 epsilonRounds (rank_lt_epsilonRounds x.1),
        Dfa.newState, hd]
    show ((cfg.fillCells (cfg.fillCell d x.1 x.2) l).trans idx,
      (cfg.fillCells (cfg.fillCell d x.1 x.2) l).hasOutput idx) = v
    rw [hfill]
    apply ih
    · exact hd
    · exact fun y hy => hl y (List.mem_cons_of_mem x hy)
    · exact fun y hy => hall y (List.mem_cons_of_mem x hy)
    · by_cases hidx : cfg.index x.1 x.2 = idx
      · right
        have hidx' : x.1.number * cfg.classes.numClasses + d.classes.classes x.2 = idx := by
          rw [hd]
          exact hidx
        simp only [Dfa.set, hidx', Function.update_self]
        exact hall x List.mem_cons_self hidx
      · rcases hsome with ⟨y, hy, hyidx⟩ | h
        · rcases List.mem_cons.mp hy with rfl | hy
          · exact absurd hyidx hidx
          · exact Or.inl ⟨y, hy, hyidx⟩
        · right
          have hidx' : idx ≠ x.1.number * cfg.classes.numClasses + d.classes.classes x.2 := by
            rw [hd]
            exact Ne.symm hidx
          simp only [Dfa.set, Function.update_of_ne hidx']
          exact h

theorem number_inj {s' : NfaState} (h : s.number = s'.number) : s = s' := by
  revert h
  cases s <;> cases s' <;> decide

variable {c : UInt8}

/-- Different states and classes have different places. -/
theorem index_inj {s' : NfaState} {c' : UInt8} (h : cfg.index s c = cfg.index s' c') :
    s = s' ∧ cfg.classes.classes c = cfg.classes.classes c' := by
  have hc := cfg.added_classes.lt_next c
  have hc' := cfg.added_classes.lt_next c'
  have hpos : 0 < cfg.classes.numClasses := Nat.lt_of_le_of_lt (Nat.zero_le _) hc
  unfold index at h
  have hdiv := congrArg (· / cfg.classes.numClasses) h
  simp only [Nat.mul_comm _ cfg.classes.numClasses, Nat.mul_add_div hpos,
    Nat.div_eq_of_lt (show cfg.classes.classes c < cfg.classes.numClasses from hc),
    Nat.div_eq_of_lt (show cfg.classes.classes c' < cfg.classes.numClasses from hc'),
    Nat.add_zero] at hdiv
  have hs := number_inj hdiv
  subst hs
  exact ⟨rfl, Nat.add_left_cancel h⟩

/-! ### Bytes of the common class -/

/-- A byte without a class of its own is none of the configured ones. -/
theorem plain_of_not_mem (h : c ∉ cfg.classBytes) :
    cfg.delimiter ≠ c ∧ cfg.term.equals c = false ∧ cfg.comment ≠ some c ∧
      (cfg.quoting = true → cfg.quote ≠ c ∧ cfg.escape ≠ some c) := by
  simp only [classBytes, List.cons_append, List.mem_cons, List.mem_append, not_or] at h
  obtain ⟨hd, ⟨hq, hc⟩, ht⟩ := h
  refine ⟨fun h => hd h.symm, ?_, fun h => hc (by simp [h]), fun hquoting => ?_⟩
  · cases hterm : cfg.term with
    | crlf =>
      rw [hterm] at ht
      simpa [Terminator.equals] using ht
    | any b =>
      rw [hterm] at ht
      simpa [Terminator.equals] using ht
  · rw [if_pos hquoting, List.mem_cons, not_or] at hq
    exact ⟨fun h => hq.1 h.symm, fun h => hq.2 (by simp [h])⟩

theorem afterField_common (hc : c ∉ cfg.classBytes) :
    cfg.afterField c = (inField, copyToOutput) := by
  obtain ⟨hd, ht, -, -⟩ := cfg.plain_of_not_mem hc
  simp [afterField, hd, ht]

theorem firstOfField_common (hc : c ∉ cfg.classBytes) :
    cfg.firstOfField c = (inField, copyToOutput) := by
  obtain ⟨-, -, -, hq⟩ := cfg.plain_of_not_mem hc
  rw [firstOfField, if_neg fun h => (hq h.1).1 h.2, cfg.afterField_common hc]

theorem firstOfRecord_common (hc : c ∉ cfg.classBytes) :
    cfg.firstOfRecord c = (inField, copyToOutput) := by
  obtain ⟨-, ht, hcm, -⟩ := cfg.plain_of_not_mem hc
  simp [firstOfRecord, ht, hcm, cfg.firstOfField_common hc]

theorem nextByte_inQuotedField_common (hc : c ∉ cfg.classBytes) :
    cfg.nextByte inQuotedField c = (inQuotedField, copyToOutput) := by
  obtain ⟨-, -, -, hq⟩ := cfg.plain_of_not_mem hc
  simp only [nextByte]
  rw [if_neg fun h => (hq h.1).1 h.2, if_neg fun h => (hq h.1).2 h.2]

theorem nextByte_inDoubleEscapedQuote_common (hc : c ∉ cfg.classBytes) :
    cfg.nextByte inDoubleEscapedQuote c = (inField, copyToOutput) := by
  obtain ⟨-, -, -, hq⟩ := cfg.plain_of_not_mem hc
  simp only [nextByte]
  rw [if_neg fun h => (hq h.1).1 h.2.2, cfg.afterField_common hc]

/-- The automaton treats all bytes of the common class alike, line feeds in comments apart. -/
theorem nextByte_common (hs : cfg.Live s) {c' : UInt8} (hc : c ∉ cfg.classBytes)
    (hc' : c' ∉ cfg.classBytes) (hcomment : s = inComment → (c = LF ↔ c' = LF)) :
    cfg.nextByte s c = cfg.nextByte s c' := by
  have hrecord := (cfg.firstOfRecord_common hc).trans (cfg.firstOfRecord_common hc').symm
  have hfield := (cfg.firstOfField_common hc).trans (cfg.firstOfField_common hc').symm
  cases s with
  | endFieldTerm => exact absurd rfl hs.1
  | inRecordTerm => exact absurd rfl hs.2.1
  | «end» => exact absurd rfl hs.2.2.1
  | startRecord | endRecord => exact hrecord
  | startField | endFieldDelim => exact hfield
  | inField => exact (cfg.afterField_common hc).trans (cfg.afterField_common hc').symm
  | inQuotedField =>
    exact (cfg.nextByte_inQuotedField_common hc).trans
      (cfg.nextByte_inQuotedField_common hc').symm
  | inEscapedQuote => rfl
  | inDoubleEscapedQuote =>
    exact (cfg.nextByte_inDoubleEscapedQuote_common hc).trans
      (cfg.nextByte_inDoubleEscapedQuote_common hc').symm
  | inComment =>
    have h := hcomment rfl
    simp [nextByte, h]
  | crlf =>
    -- the line feed of a `\r\n` has a class of its own
    have hterm := hs.2.2.2 rfl
    have hlf : ∀ b, b ∉ cfg.classBytes → b ≠ LF := by
      intro b hb hlf
      apply hb
      simp [classBytes, hterm, hlf]
    simp only [nextByte, hlf c hc, hlf c' hc', if_false]
    exact hrecord

/-! ### What the table says -/

/-- A line feed has no class of its own, so that a comment does not end in the table. -/
def LineFeedCommon : Prop := LF ∉ cfg.classBytes

instance : Decidable cfg.LineFeedCommon := inferInstanceAs (Decidable (LF ∉ cfg.classBytes))

/-- One step of the DFA on states of the NFA. -/
def dfaStep (s : NfaState) (c : UInt8) : NfaState × NfaInputAction :=
  if s = inComment ∧ c = LF ∧ cfg.LineFeedCommon then (inComment, discard) else cfg.nextByte s c

/-- Some byte above the line feed has no class of its own. -/
theorem exists_common : ∃ n, n < 245 ∧ UInt8.ofNat (11 + n) ∉ cfg.classBytes := by
  by_contra hno
  push Not at hno
  have hsub : ((List.range 7).map fun n => UInt8.ofNat (11 + n)) ⊆ cfg.classBytes := by
    intro b hb
    obtain ⟨n, hn, rfl⟩ := List.mem_map.mp hb
    exact hno n (by have := List.mem_range.mp hn; omega)
  have hnodup : ((List.range 7).map fun n => UInt8.ofNat (11 + n)).Nodup := by decide
  have hle := (hnodup.subperm hsub).length_le
  have := cfg.length_classBytes
  simp only [List.length_map, List.length_range] at hle
  omega

theorem live_mem_dfaStates (hs : cfg.Live s) : s ∈ dfaStates := by
  obtain ⟨h1, h2, h3, -⟩ := hs
  cases s <;> first | decide | exact absurd rfl h1 | exact absurd rfl h2 | exact absurd rfl h3

theorem ne_end_of_mem_cells : ∀ x ∈ cells, x.1 ≠ .end := by
  intro x hx
  obtain ⟨s, hs, hxs⟩ := List.mem_flatMap.mp hx
  rw [fst_of_mem_rowCells hxs]
  intro h
  rw [h] at hs
  exact absurd hs (by decide)

/-- The row of comments from byte 11 on, with what the loop fills in before it and after it. -/
theorem cells_eq_append : ∃ before after : List (NfaState × UInt8),
    cells = before ++ ((List.range 245).map fun n => (inComment, UInt8.ofNat (11 + n))) ++ after ∧
      ∀ x ∈ after, x.1 = endRecord ∨ x.1 = crlf := by
  have hrange : List.range 256 = List.range 11 ++ (List.range 245).map (11 + ·) :=
    List.range_add (n := 11) (m := 245)
  have hrow : rowCells inComment = ((List.range 11).map fun n => (inComment, UInt8.ofNat n)) ++
      (List.range 245).map fun n => (inComment, UInt8.ofNat (11 + n)) := by
    simp [rowCells, hrange]
  refine ⟨[startRecord, startField, endFieldDelim, inField, inQuotedField, inEscapedQuote,
    inDoubleEscapedQuote].flatMap rowCells ++
      ((List.range 11).map fun n => (inComment, UInt8.ofNat n)),
    rowCells endRecord ++ rowCells crlf, ?_, fun x hx => ?_⟩
  · simp [cells, dfaStates, hrow]
  · rcases List.mem_append.mp hx with hx | hx
    · exact Or.inl (fst_of_mem_rowCells hx)
    · exact Or.inr (fst_of_mem_rowCells hx)

/-- None of those bytes is the line feed. -/
theorem ofNat_add_ne_LF {n : Nat} (hn : n < 245) : UInt8.ofNat (11 + n) ≠ LF := by
  intro h
  have hbyte := congrArg UInt8.toNat h
  simp only [UInt8.toNat_ofNat', LF] at hbyte
  rw [Nat.mod_eq_of_lt (by omega)] at hbyte
  change 11 + n = 10 at hbyte
  omega

/-- In the row of comments the bytes above the line feed overwrite what it has put there. -/
theorem fillCells_comment (hlf : cfg.LineFeedCommon) :
    let d := cfg.fillCells (Dfa.new cfg.classes) cells
    (d.trans (cfg.index inComment LF), d.hasOutput (cfg.index inComment LF)) =
      (inComment.number * cfg.classes.numClasses, false) := by
  obtain ⟨before, after, hsplit, hafter⟩ := cells_eq_append
  have hends := ne_end_of_mem_cells
  rw [hsplit] at hends ⊢
  have happ : ∀ d l l', cfg.fillCells d (l ++ l') = cfg.fillCells (cfg.fillCells d l) l' :=
    fun d l l' => List.foldl_append
  rw [List.append_assoc, happ]
  apply cfg.fillCells_agree
  · exact cfg.fillCells_classes _ _
  · exact fun x hx => hends x (by rw [List.append_assoc]; exact List.mem_append_right _ hx)
  · intro x hx hidx
    rcases List.mem_append.mp hx with hx | hx
    · obtain ⟨n, hn, rfl⟩ := List.mem_map.mp hx
      -- no byte of that stretch is the line feed, so each writes the way back to the comment
      have hne := ofNat_add_ne_LF (List.mem_range.mp hn)
      simp only [value, nextByte, if_neg hne]
      rfl
    · have := (cfg.index_inj hidx).1
      rcases hafter x hx with h | h
      · exact absurd (h.symm.trans this) (by decide)
      · exact absurd (h.symm.trans this) (by decide)
  · left
    -- and one of them shares the class of the line feed
    obtain ⟨n, hn, hcommon⟩ := cfg.exists_common
    refine ⟨(inComment, UInt8.ofNat (11 + n)),
      List.mem_append_left _ (List.mem_map.mpr ⟨n, List.mem_range.mpr hn, rfl⟩), ?_⟩
    have h0 := (cfg.added_classes.zero_iff _).mpr hcommon
    have h0' := (cfg.added_classes.zero_iff LF).mpr hlf
    simp only [index, h0, h0']

/-- **The table.** In a state that can occur, a lookup gives `dfaStep`. -/
theorem getOutput_eq (hs : cfg.Live s) (c : UInt8) :
    cfg.buildDfa.getOutput (s.number * cfg.classes.numClasses) c =
      ((cfg.dfaStep s c).1.number * cfg.classes.numClasses,
        decide ((cfg.dfaStep s c).2 = copyToOutput)) := by
  have hlookup : cfg.buildDfa.getOutput (s.number * cfg.classes.numClasses) c =
      ((cfg.fillCells (Dfa.new cfg.classes) cells).trans (cfg.index s c),
        (cfg.fillCells (Dfa.new cfg.classes) cells).hasOutput (cfg.index s c)) := by
    have hnew : (Dfa.new cfg.classes).classes = cfg.classes := rfl
    rw [buildDfa_eq, Dfa.getOutput_entry, Dfa.finish_classes, fillCells_classes, Dfa.finish_trans,
      Dfa.finish_hasOutput, hnew, index]
  rw [hlookup]
  by_cases hlf : s = inComment ∧ cfg.LineFeedCommon ∧ c ∉ cfg.classBytes
  · -- the row of comments, where the bytes of the common class disagree
    obtain ⟨rfl, hcommon, hc⟩ := hlf
    have hidx : cfg.index inComment c = cfg.index inComment LF := by
      have h0 := (cfg.added_classes.zero_iff c).mpr hc
      have h0' := (cfg.added_classes.zero_iff LF).mpr hcommon
      simp [index, h0, h0']
    have hstep : cfg.dfaStep inComment c = (inComment, discard) := by
      by_cases h : c = LF
      · rw [dfaStep, if_pos ⟨rfl, h, hcommon⟩]
      · rw [dfaStep, if_neg fun hh => h hh.2.1]
        simp [nextByte, h]
    rw [hidx, hstep]
    exact cfg.fillCells_comment hcommon
  · have hstep : cfg.dfaStep s c = cfg.nextByte s c := by
      rw [dfaStep, if_neg]
      rintro ⟨rfl, rfl, hcommon⟩
      exact hlf ⟨rfl, hcommon, hcommon⟩
    rw [hstep]
    apply cfg.fillCells_agree rfl ne_end_of_mem_cells (v := cfg.value s c)
    · intro x hx hidx
      obtain ⟨s', c'⟩ := x
      obtain ⟨rfl, hclass⟩ := cfg.index_inj hidx
      by_cases hc : c ∈ cfg.classBytes
      · -- a class of its own
        have h0 : cfg.classes.classes c' ≠ 0 := by
          rw [hclass]
          exact fun h => absurd hc ((cfg.added_classes.zero_iff c).mp h)
        rw [cfg.added_classes.inj c' c hclass h0]
      · have hc' : c' ∉ cfg.classBytes := by
          rw [← cfg.added_classes.zero_iff, hclass, cfg.added_classes.zero_iff]
          exact hc
        unfold value
        rw [cfg.nextByte_common hs hc' hc]
        intro hcomment
        have hcommon : ¬cfg.LineFeedCommon := fun h => hlf ⟨hcomment, h, hc⟩
        have hne : ∀ b, b ∉ cfg.classBytes → b ≠ LF := by
          rintro b hb rfl
          exact hcommon hb
        exact ⟨fun h => absurd h (hne c' hc'), fun h => absurd h (hne c hc)⟩
    · left
      exact ⟨(s, c), List.mem_flatMap.mpr ⟨s, cfg.live_mem_dfaStates hs, mem_rowCells s c⟩, rfl⟩

theorem live_dfaStep (hs : cfg.Live s) (c : UInt8) : cfg.Live (cfg.dfaStep s c).1 := by
  unfold dfaStep
  split
  · exact cfg.live_of_ne (by decide)
  · exact (cfg.live_nextByte hs.2.2.1 c).1

end Config

end TeaclaveCrates.Csv
