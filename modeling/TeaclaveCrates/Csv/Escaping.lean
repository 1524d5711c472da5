import TeaclaveCrates.Csv.RoundTrip

namespace TeaclaveCrates.Csv

open Lib NfaState NfaInputAction

/-!
# Round trips with an escape byte

Without doubled quotes, the writer puts the escape byte before a quote and leaves an escape byte of
the field as it is. The reader takes every escape byte inside quotes away and copies what follows.

* `Survives` — the fields that come back all the same.
* `walk` — what the reader makes of the inside of a quoted field, byte by byte.
* `csv_roundTrip_escape_iff` — records come back just when all of their fields survive.
-/

/-! ### Fields that survive -/

/-- The bytes behind the first quote of a field that survives with escape bytes in it. -/
def escapeTail (e q : UInt8) : Nat → List UInt8
  | 0 => []
  | k + 1 => List.replicate k e ++ q :: escapeTail e q k

/-- A field without escape bytes, or one in which the bytes that the reader takes away are those that
    the writer adds: the field is closed too early by its first quote, and the escape bytes and the
    last quote that the writer adds make up for what is lost. -/
def Survives (e q : UInt8) (f : List UInt8) : Prop :=
  e ∉ f ∨ ∃ u k, e ∉ u ∧ f = u ++ List.replicate (2 * k + 1) e ++ q :: escapeTail e q k

/-- The same by the bytes of the field, when `k` escape bytes were taken away before it. -/
def survives (e q : UInt8) (k : Nat) : List UInt8 → Prop
  | [] => k = 0
  | [c] => c ≠ e ∧ k = 0
  | c :: d :: f =>
    if c = e then
      if d = e then survives e q (k + 1) f else d = q ∧ f = escapeTail e q k
    else k = 0 ∧ survives e q 0 (d :: f)

theorem cons_replicate_append (e : UInt8) (k : Nat) (f : List UInt8) :
    e :: (List.replicate k e ++ f) = List.replicate k e ++ e :: f := by
  rw [← List.cons_append, ← List.replicate_succ, List.replicate_succ', List.append_assoc]
  rfl

/-- Fields of the second kind when `k` escape bytes were taken away before. -/
def Tailed (e q : UInt8) (k : Nat) (f : List UInt8) : Prop :=
  ∃ u j, e ∉ u ∧ (u ≠ [] → k = 0) ∧
    f = u ++ List.replicate (2 * j + 1) e ++ q :: escapeTail e q (k + j)

section Tailed

variable {e q : UInt8} {k : Nat} {f : List UInt8}

theorem not_tailed_nil : ¬Tailed e q k [] := by
  rintro ⟨u, j, -, -, h⟩
  have hlen := congrArg List.length h
  simp at hlen

theorem not_tailed_singleton (c : UInt8) : ¬Tailed e q k [c] := by
  rintro ⟨u, j, -, -, h⟩
  have hlen := congrArg List.length h
  simp at hlen
  omega

/-- A field that starts with an escape byte has nothing in front of its run of them. -/
theorem tailed_escape_iff :
    Tailed e q k (e :: f) ↔
      ∃ j, f = List.replicate (2 * j) e ++ q :: escapeTail e q (k + j) := by
  constructor
  · rintro ⟨u, j, hu, -, hf⟩
    cases u with
    | cons x u =>
      exact absurd (List.mem_cons_self ..) ((List.cons.inj hf).1 ▸ hu)
    | nil =>
      exact ⟨j, (List.cons.inj hf).2⟩
  · rintro ⟨j, rfl⟩
    refine ⟨[], j, List.not_mem_nil, fun h => absurd rfl h, ?_⟩
    rfl

/-- Two escape bytes in front make one more that was taken away. -/
theorem tailed_escape_escape_iff (hqe : q ≠ e) :
    Tailed e q k (e :: e :: f) ↔ Tailed e q (k + 1) f := by
  rw [tailed_escape_iff]
  constructor
  · rintro ⟨j, hf⟩
    cases j with
    | zero => exact absurd (List.cons.inj hf).1.symm hqe
    | succ j =>
      refine ⟨[], j, List.not_mem_nil, fun h => absurd rfl h, ?_⟩
      rw [show k + 1 + j = k + (j + 1) by omega]
      exact (List.cons.inj hf).2
  · rintro ⟨u, j, -, huk, rfl⟩
    -- nothing can stand in front of the run, since escape bytes were taken away before
    have hnil : u = [] := by
      by_contra hne
      exact absurd (huk hne) (Nat.succ_ne_zero k)
    subst hnil
    refine ⟨j + 1, ?_⟩
    simp [show 2 * (j + 1) = (2 * j + 1) + 1 by omega, List.replicate_succ,
      show k + (j + 1) = k + 1 + j by omega]

/-- An escape byte in front of another byte is the last of its run. -/
theorem tailed_escape_cons_iff {d : UInt8} (hd : d ≠ e) :
    Tailed e q k (e :: d :: f) ↔ d = q ∧ f = escapeTail e q k := by
  rw [tailed_escape_iff]
  constructor
  · rintro ⟨j, hf⟩
    cases j with
    | zero => exact List.cons.inj hf
    | succ j =>
      exact absurd (List.cons.inj hf).1 hd
  · rintro ⟨rfl, rfl⟩
    exact ⟨0, rfl⟩

/-- Any other byte in front belongs to the plain part of the field. -/
theorem tailed_cons_iff {c : UInt8} (hc : c ≠ e) :
    Tailed e q k (c :: f) ↔ k = 0 ∧ Tailed e q 0 f := by
  constructor
  · rintro ⟨u, j, hu, huk, hf⟩
    cases u with
    | nil =>
      exact absurd (List.cons.inj hf).1 hc
    | cons x u =>
      obtain rfl := huk (List.cons_ne_nil _ _)
      rw [List.mem_cons, not_or] at hu
      exact ⟨rfl, u, j, hu.2, fun _ => rfl, (List.cons.inj hf).2⟩
  · rintro ⟨rfl, u, j, hu, -, rfl⟩
    refine ⟨c :: u, j, ?_, fun _ => rfl, rfl⟩
    rw [List.mem_cons, not_or]
    exact ⟨fun h => hc h.symm, hu⟩

theorem survives_iff (hqe : q ≠ e) (k : Nat) (f : List UInt8) :
    survives e q k f ↔ k = 0 ∧ e ∉ f ∨ Tailed e q k f := by
  induction hn : f.length using Nat.strong_induction_on generalizing k f with
  | _ n ih =>
    subst hn
    match f with
    | [] => simp [survives, not_tailed_nil]
    | [c] => simp [survives, not_tailed_singleton, and_comm, eq_comm]
    | c :: d :: f =>
      rw [survives]
      by_cases hc : c = e
      · subst hc
        have hmem : ¬(k = 0 ∧ c ∉ c :: d :: f) := fun h => h.2 (List.mem_cons_self ..)
        rw [if_pos rfl, or_iff_right hmem]
        by_cases hd : d = c
        · subst hd
          rw [if_pos rfl, ih f.length (by simp only [List.length_cons]; omega) (k + 1) f rfl,
            or_iff_right (fun h => absurd h.1 (Nat.succ_ne_zero k)), tailed_escape_escape_iff hqe]
        · simp [hd, tailed_escape_cons_iff hd]
      · have hmem : e ∉ c :: d :: f ↔ e ∉ d :: f := by
          rw [List.mem_cons, or_iff_right fun h => hc h.symm]
        rw [if_neg hc, ih (d :: f).length (by simp only [List.length_cons]; omega) 0 (d :: f) rfl,
          tailed_cons_iff hc, hmem, and_or_left, and_iff_right (rfl : (0 : Nat) = 0)]

end Tailed

theorem survives_zero_iff {e q : UInt8} (hqe : q ≠ e) (f : List UInt8) :
    survives e q 0 f ↔ Survives e q f := by
  simp [survives_iff hqe, Survives, Tailed]

/-! ### The tail of such a field -/

section Tail

variable {b : WriterBuilder}

theorem escaped_append (f g : List UInt8) : b.escaped (f ++ g) = b.escaped f ++ b.escaped g :=
  List.flatMap_append

theorem escaped_quote (hb : b.doubleQuote = false) (f : List UInt8) :
    b.escaped (b.quote :: f) = b.escape :: b.quote :: b.escaped f := by
  simp [b.escaped_cons, hb]

theorem escaped_other {c : UInt8} (hc : c ≠ b.quote) (f : List UInt8) :
    b.escaped (c :: f) = c :: b.escaped f := by
  simp [b.escaped_cons, hc]

/-- Outside quotes the tail is read as it is written, with the closing quote. -/
theorem escaped_escapeTail (hb : b.doubleQuote = false) (hqe : b.quote ≠ b.escape) (k : Nat) :
    b.escaped (escapeTail b.escape b.quote k) ++ [b.quote] =
      List.replicate k b.escape ++ b.quote :: escapeTail b.escape b.quote k := by
  induction k with
  | zero => rfl
  | succ k ih =>
    have hrun : b.escaped (List.replicate k b.escape) = List.replicate k b.escape :=
      b.escaped_of_not_mem fun h => hqe (List.eq_of_mem_replicate h)
    simp [escapeTail, escaped_append, hrun, escaped_quote hb, ih, List.replicate_succ']

/-- The escape bytes in front of what is written come from escape bytes and one quote. -/
theorem eq_of_escaped_eq (hb : b.doubleQuote = false) (hqe : b.quote ≠ b.escape) (k : Nat)
    {f g : List UInt8} (hg : g ≠ [])
    (h : b.escaped f ++ [b.quote] = List.replicate (k + 1) b.escape ++ b.quote :: g) :
    ∃ f', f = List.replicate k b.escape ++ b.quote :: f' ∧ b.escaped f' ++ [b.quote] = g := by
  induction k generalizing f with
  | zero =>
    cases f with
    | nil => exact absurd (List.cons.inj h).1 hqe
    | cons c f =>
      by_cases hc : c = b.quote
      · subst hc
        rw [escaped_quote hb] at h
        exact ⟨f, rfl, (List.cons.inj (List.cons.inj h).2).2⟩
      · -- behind the one escape byte comes the quote, so that nothing is left
        rw [escaped_other hc] at h
        have hrest : b.escaped f ++ [b.quote] = b.quote :: g := (List.cons.inj h).2
        cases f with
        | nil => exact absurd (List.cons.inj hrest).2.symm hg
        | cons d f =>
          by_cases hd : d = b.quote
          · subst hd
            rw [escaped_quote hb] at hrest
            exact absurd (List.cons.inj hrest).1.symm hqe
          · rw [escaped_other hd] at hrest
            exact absurd (List.cons.inj hrest).1 hd
  | succ k ih =>
    rw [List.replicate_succ, List.cons_append] at h
    cases f with
    | nil => exact absurd (List.cons.inj h).1 hqe
    | cons c f =>
      by_cases hc : c = b.quote
      · subst hc
        rw [escaped_quote hb] at h
        have hnext := (List.cons.inj h).2
        exact absurd (List.cons.inj hnext).1 hqe
      · rw [escaped_other hc] at h
        obtain ⟨hce, hrest⟩ := List.cons.inj h
        obtain ⟨f', hf, hf'⟩ := ih hrest
        exact ⟨f', by rw [hce, hf]; rfl, hf'⟩

theorem eq_escapeTail (hb : b.doubleQuote = false) (hqe : b.quote ≠ b.escape) (k : Nat)
    {f : List UInt8}
    (h : b.escaped f ++ [b.quote] = List.replicate k b.escape ++ b.quote :: f) :
    f = escapeTail b.escape b.quote k := by
  induction k generalizing f with
  | zero =>
    cases f with
    | nil => rfl
    | cons c f =>
      by_cases hc : c = b.quote
      · subst hc
        rw [escaped_quote hb] at h
        exact absurd (List.cons.inj h).1.symm hqe
      · rw [escaped_other hc] at h
        exact absurd (List.cons.inj h).1 hc
  | succ k ih =>
    have hne : f ≠ [] := by
      rintro rfl
      exact absurd (List.cons.inj h).1 hqe
    obtain ⟨f', hf, hf'⟩ := eq_of_escaped_eq hb hqe k hne h
    rw [hf] at hf'
    rw [hf, ih hf', escapeTail]

end Tail

/-! ### The inside of a quoted field -/

/-- The settings of a round trip with an escape byte. -/
structure ReadsEscape (b : WriterBuilder) (cfg : Config) : Prop extends Reads b cfg where
  single : b.doubleQuote = false
  double : cfg.doubleQuote = false
  escape : cfg.escape = some b.escape
  quote_escape : b.quote ≠ b.escape
  escape_delimiter : b.escape ≠ b.delimiter
  escape_term : cfg.term.equals b.escape = false

section Walk

variable {b : WriterBuilder} {cfg : Config}

/-- Reading has gone wrong in the field at hand: the record has another one in its place. -/
def Bad (x : List (List (List UInt8))) (fs : List (List UInt8)) (f : List UInt8) : Prop :=
  ∃ g more later, x = (fs ++ g :: more) :: later ∧ g ≠ f

theorem bad_of_not_prefix {s : NfaState} (hs : Config.inRecord s = true) {f g : List UInt8}
    (hg : ¬g <+: f) (fs : List (List UInt8)) (input : List UInt8) :
    Bad (cfg.nfaTokenizer.fieldRecords s g fs input) fs f := by
  obtain ⟨more, others, later, heq⟩ := cfg.fieldRecords_begun hs g fs input
  refine ⟨g ++ more, others, later, heq, ?_⟩
  rintro rfl
  exact hg (List.prefix_append ..)

/-- A byte that ends a field outside quotes. -/
def IsSeparator (cfg : Config) (c : UInt8) : Prop :=
  cfg.delimiter = c ∨ cfg.term.equals c = true

variable {c : UInt8}

theorem bad_of_separator (h : Reads b cfg) {s : NfaState} (hs : Closing s) (hc : IsSeparator cfg c)
    {f g : List UInt8} (hg : g ≠ f) (fs : List (List UInt8)) (rest : List UInt8) :
    Bad (cfg.nfaTokenizer.fieldRecords s g fs (c :: rest)) fs f := by
  by_cases hd : cfg.delimiter = c
  · have hdelim := fieldRecords_delimiter h hs g fs rest
    rw [← h.delimiter, hd] at hdelim
    obtain ⟨more, others, later, heq⟩ := cfg.fieldRecords_begun
      (show Config.inRecord startField = true from rfl) [] (fs ++ [g]) rest
    refine ⟨g, ([] ++ more) :: others, later, ?_, hg⟩
    simp [hdelim, heq]
  · exact ⟨g, [], _, fieldRecords_terminator h hs (hc.resolve_left hd) g fs rest, hg⟩

/-- An ordinary byte inside quotes. -/
theorem fieldRecords_copy (h : ReadsEscape b cfg) (hq : c ≠ b.quote) (he : c ≠ b.escape)
    (g : List UInt8) (fs : List (List UInt8)) (rest : List UInt8) :
    cfg.nfaTokenizer.fieldRecords inQuotedField g fs (c :: rest) =
      cfg.nfaTokenizer.fieldRecords inQuotedField (g ++ [c]) fs rest := by
  have hstep : cfg.nextByte inQuotedField c = (inQuotedField, copyToOutput) := by
    simp only [Config.nextByte]
    rw [if_neg fun hh => hq (by rw [← hh.2, h.quote]),
      if_neg fun hh => he (by rw [h.escape] at hh; exact (Option.some.inj hh.2).symm)]
  rw [cfg.fieldRecords_step hstep]
  rfl

/-- An escape byte inside quotes, with what follows it. -/
theorem fieldRecords_pair (h : ReadsEscape b cfg) (c : UInt8) (g : List UInt8)
    (fs : List (List UInt8)) (rest : List UInt8) :
    cfg.nfaTokenizer.fieldRecords inQuotedField g fs (b.escape :: c :: rest) =
      cfg.nfaTokenizer.fieldRecords inQuotedField (g ++ [c]) fs rest := by
  have hstep : cfg.nextByte inQuotedField b.escape = (inEscapedQuote, NfaInputAction.discard) := by
    simp only [Config.nextByte]
    rw [if_neg fun hh => h.quote_escape (by rw [← hh.2, h.quote]), if_pos ⟨h.quoting, h.escape⟩]
  have hcopy : cfg.nextByte inEscapedQuote c = (inQuotedField, copyToOutput) := rfl
  rw [cfg.fieldRecords_step hstep]
  show cfg.nfaTokenizer.fieldRecords inEscapedQuote (g ++ []) fs (c :: rest) = _
  rw [List.append_nil, cfg.fieldRecords_step hcopy]
  rfl

/-- Bytes behind a quote that closed the field too early. -/
theorem fieldRecords_raw (h : ReadsEscape b cfg) {f : List UInt8} (hne : f ≠ [])
    (hf : ∀ c ∈ f, ¬IsSeparator cfg c) (g : List UInt8) (fs : List (List UInt8))
    (rest : List UInt8) :
    cfg.nfaTokenizer.fieldRecords inDoubleEscapedQuote g fs (f ++ rest) =
      cfg.nfaTokenizer.fieldRecords inField (g ++ f) fs rest := by
  cases f with
  | nil => exact absurd rfl hne
  | cons c f =>
    have hplain : ∀ c' ∈ c :: f, cfg.delimiter ≠ c' ∧ cfg.term.equals c' = false := by
      intro c' hc'
      have hsep := hf c' hc'
      exact ⟨fun hd => hsep (Or.inl hd), Bool.eq_false_iff.mpr fun ht => hsep (Or.inr ht)⟩
    obtain ⟨hd, ht⟩ := hplain c (List.mem_cons_self ..)
    have hstep : cfg.nextByte inDoubleEscapedQuote c = (inField, copyToOutput) := by
      simp only [Config.nextByte]
      rw [h.double, if_neg fun hh => absurd hh.2.1 (by decide), Config.afterField, if_neg hd, ht,
        if_neg (by decide)]
    rw [List.cons_append, cfg.fieldRecords_step hstep]
    rw [fieldRecords_plain fun c' hc' => hplain c' (List.mem_cons_of_mem _ hc'), List.append_assoc]
    rfl

theorem not_separator (h : ReadsEscape b cfg) (hc : c = b.escape ∨ c = b.quote) :
    ¬IsSeparator cfg c := by
  rintro (hd | ht)
  · rw [h.delimiter] at hd
    rcases hc with rfl | rfl
    · exact h.escape_delimiter hd.symm
    · exact h.quote_ne hd.symm
  · rcases hc with rfl | rfl
    · rw [h.escape_term] at ht
      exact (nomatch ht)
    · rw [h.quote_term] at ht
      exact (nomatch ht)

theorem mem_escapeTail {e q : UInt8} (k : Nat) (hc : c ∈ escapeTail e q k) : c = e ∨ c = q := by
  induction k with
  | zero => exact absurd hc List.not_mem_nil
  | succ k ih =>
    rw [escapeTail, List.mem_append, List.mem_cons] at hc
    rcases hc with hc | hc | hc
    · exact Or.inl (List.eq_of_mem_replicate hc)
    · exact Or.inr hc
    · exact ih hc

theorem mem_escaped (hb : b.doubleQuote = false) {f : List UInt8} (hc : c ∈ b.escaped f) :
    c ∈ f ∨ c = b.escape ∨ c = b.quote := by
  induction f with
  | nil => exact absurd hc List.not_mem_nil
  | cons d f ih =>
    by_cases hd : d = b.quote
    · subst hd
      rw [escaped_quote hb, List.mem_cons, List.mem_cons] at hc
      rcases hc with hc | hc | hc
      · exact Or.inr (Or.inl hc)
      · exact Or.inr (Or.inr hc)
      · exact (ih hc).imp_left (List.mem_cons_of_mem _)
    · rw [escaped_other hd, List.mem_cons] at hc
      rcases hc with hc | hc
      · exact Or.inl (List.mem_cons.mpr (Or.inl hc))
      · exact (ih hc).imp_left (List.mem_cons_of_mem _)

/-- Reading a byte of the field inside quotes, whether it is a quote or not. -/
theorem fieldRecords_byte (h : ReadsEscape b cfg) (hc : c ≠ b.escape) (f g : List UInt8)
    (fs : List (List UInt8)) (rest : List UInt8) :
    cfg.nfaTokenizer.fieldRecords inQuotedField g fs (b.escaped (c :: f) ++ rest) =
      cfg.nfaTokenizer.fieldRecords inQuotedField (g ++ [c]) fs (b.escaped f ++ rest) := by
  by_cases hq : c = b.quote
  · subst hq
    simp [escaped_quote h.single, fieldRecords_pair h]
  · rw [escaped_other hq, List.cons_append, fieldRecords_copy h hq hc]

/-- The inside of a field that survives. -/
theorem walk_survives (h : ReadsEscape b cfg) {k : Nat} {f : List UInt8}
    (hf : survives b.escape b.quote k f) :
    ∃ s, Closing s ∧ ∀ g fs rest,
      cfg.nfaTokenizer.fieldRecords inQuotedField g fs (b.escaped f ++ b.quote :: rest) =
        cfg.nfaTokenizer.fieldRecords s (g ++ List.replicate k b.escape ++ f) fs rest := by
  have hclosing : Closing inDoubleEscapedQuote := Or.inr (Or.inl rfl)
  have heq : b.escape ≠ b.quote := h.quote_escape.symm
  induction hn : f.length using Nat.strong_induction_on generalizing k f with
  | _ n ih =>
    subst hn
    match f with
    | [] =>
      subst hf
      refine ⟨inDoubleEscapedQuote, hclosing, fun g fs rest => ?_⟩
      show cfg.nfaTokenizer.fieldRecords inQuotedField g fs (b.quote :: rest) = _
      simp [fieldRecords_close h.toReads]
    | [c] =>
      obtain ⟨hc, rfl⟩ := hf
      refine ⟨inDoubleEscapedQuote, hclosing, fun g fs rest => ?_⟩
      rw [fieldRecords_byte h hc]
      show cfg.nfaTokenizer.fieldRecords inQuotedField (g ++ [c]) fs (b.quote :: rest) = _
      simp [fieldRecords_close h.toReads]
    | c :: d :: f =>
      rw [survives] at hf
      by_cases hc : c = b.escape
      · subst hc
        rw [if_pos rfl] at hf
        by_cases hd : d = b.escape
        -- a pair of escapes is read as one, and the count of those still owed goes up
        · subst hd
          rw [if_pos rfl] at hf
          obtain ⟨s, hs, hread⟩ := ih f.length (by simp only [List.length_cons]; omega) hf rfl
          refine ⟨s, hs, fun g fs rest => ?_⟩
          simp [escaped_other heq, fieldRecords_pair h, hread, List.replicate_succ,
            cons_replicate_append]
        · rw [if_neg hd] at hf
          obtain ⟨rfl, hf⟩ := hf
          -- the writer meant the quote as content; the reader takes it for the closing quote
          have hwritten := escaped_escapeTail h.single h.quote_escape k
          have hraw : ∀ x ∈ b.escaped f ++ [b.quote], ¬IsSeparator cfg x := by
            intro x hx
            apply not_separator h
            rw [hf, hwritten, List.mem_append, List.mem_cons] at hx
            rcases hx with hx | hx | hx
            · exact Or.inl (List.eq_of_mem_replicate hx)
            · exact Or.inr hx
            · exact mem_escapeTail k hx
          -- what follows is read as the bytes of an unquoted field, and happens to spell the rest
          refine ⟨inField, Or.inl rfl, fun g fs rest => ?_⟩
          rw [escaped_other heq, escaped_quote h.single, List.cons_append, List.cons_append,
            List.cons_append, fieldRecords_pair h, fieldRecords_close h.toReads,
            show b.escaped f ++ b.quote :: rest = (b.escaped f ++ [b.quote]) ++ rest by simp,
            fieldRecords_raw h (by simp) hraw, hf, hwritten]
          simp [cons_replicate_append]
      · rw [if_neg hc] at hf
        obtain ⟨rfl, hf⟩ := hf
        obtain ⟨s, hs, hread⟩ := ih (d :: f).length (by simp only [List.length_cons]; omega) hf rfl
        refine ⟨s, hs, fun g fs rest => ?_⟩
        simp [fieldRecords_byte h hc, hread]

/-- The byte that should come next was not read. -/
theorem not_prefix_of_head {e : UInt8} (hc : c ≠ e) (g f : List UInt8) :
    ¬(g ++ [c]) <+: g ++ e :: f := by
  rw [List.prefix_append_right_inj, List.cons_prefix_cons]
  exact fun h => hc h.1

/-- Where escape bytes are missing, any other byte is wrong. -/
theorem not_prefix_missing {e : UInt8} (hc : c ≠ e) {k : Nat} (hk : k ≠ 0) (g f : List UInt8) :
    ¬(g ++ [c]) <+: g ++ (List.replicate k e ++ f) := by
  obtain ⟨j, rfl⟩ := Nat.exists_eq_succ_of_ne_zero hk
  exact not_prefix_of_head hc g _

/-- So it is when an escape byte of the field was taken away. -/
theorem not_prefix_lost {e : UInt8} (hc : c ≠ e) (k : Nat) (g f : List UInt8) :
    ¬(g ++ [c]) <+: g ++ (List.replicate k e ++ e :: f) := by
  rw [← cons_replicate_append]
  exact not_prefix_of_head hc g _

/-- A list in which some element has a property, split at the first of them. -/
theorem exists_first {p : UInt8 → Prop} {l : List UInt8} (h : ∃ c ∈ l, p c) :
    ∃ l₁ c l₂, l = l₁ ++ c :: l₂ ∧ p c ∧ ∀ d ∈ l₁, ¬p d := by
  induction l with
  | nil =>
    obtain ⟨c, hc, -⟩ := h
    exact absurd hc List.not_mem_nil
  | cons x l ih =>
    by_cases hx : p x
    · exact ⟨[], x, l, rfl, hx, fun d hd => absurd hd List.not_mem_nil⟩
    · obtain ⟨c, hc, hp⟩ := h
      have hmem : c ∈ l := by
        rcases List.mem_cons.mp hc with rfl | hc
        · exact absurd hp hx
        · exact hc
      obtain ⟨l₁, d, l₂, hl, hd, hl₁⟩ := ih ⟨c, hmem, hp⟩
      refine ⟨x :: l₁, d, l₂, by rw [hl]; rfl, hd, fun y hy => ?_⟩
      rcases List.mem_cons.mp hy with rfl | hy
      · exact hx
      · exact hl₁ y hy

/-- Behind a quote that closed the field too early, only one tail comes back. -/
theorem bad_raw (h : ReadsEscape b cfg) {k : Nat} {f : List UInt8}
    (hf : f ≠ escapeTail b.escape b.quote k) (hc : IsSeparator cfg c) (g : List UInt8)
    (fs : List (List UInt8)) (rest : List UInt8) :
    Bad (cfg.nfaTokenizer.fieldRecords inDoubleEscapedQuote g fs
      (b.escaped f ++ b.quote :: c :: rest)) fs
      (g ++ (List.replicate k b.escape ++ b.quote :: f)) := by
  by_cases hsep : ∃ d ∈ f, IsSeparator cfg d
  · -- the field ends at its first separator, which it should hold
    obtain ⟨f₁, d, f₂, rfl, hd, hf₁⟩ := exists_first hsep
    have hdq : d ≠ b.quote := fun hh => not_separator h (Or.inr hh) hd
    have hnot : ∀ x ∈ b.escaped f₁, ¬IsSeparator cfg x := by
      intro x hx
      rcases mem_escaped h.single hx with hx | hx
      · exact hf₁ x hx
      · exact not_separator h hx
    have hne : g ++ b.escaped f₁ ≠
        g ++ (List.replicate k b.escape ++ b.quote :: (f₁ ++ d :: f₂)) := by
      intro hh
      have hmem : d ∈ b.escaped f₁ := by
        simp [List.append_cancel_left hh]
      exact hnot d hmem hd
    rw [escaped_append, escaped_other hdq, List.append_assoc, List.cons_append]
    by_cases hnil : b.escaped f₁ = []
    · rw [hnil, List.append_nil] at hne
      rw [hnil, List.nil_append]
      exact bad_of_separator h.toReads (Or.inr (Or.inl rfl)) hd hne fs _
    · rw [fieldRecords_raw h hnil hnot]
      exact bad_of_separator h.toReads (Or.inl rfl) hd hne fs _
  · push Not at hsep
    have hnot : ∀ x ∈ b.escaped f ++ [b.quote], ¬IsSeparator cfg x := by
      intro x hx
      rcases List.mem_append.mp hx with hx | hx
      · rcases mem_escaped h.single hx with hx | hx
        · exact hsep x hx
        · exact not_separator h hx
      · exact not_separator h (Or.inr (List.mem_singleton.mp hx))
    have hne : g ++ (b.escaped f ++ [b.quote]) ≠
        g ++ (List.replicate k b.escape ++ b.quote :: f) := by
      intro hh
      exact hf (eq_escapeTail h.single h.quote_escape k (List.append_cancel_left hh))
    rw [show b.escaped f ++ b.quote :: c :: rest = (b.escaped f ++ [b.quote]) ++ c :: rest by simp,
      fieldRecords_raw h (by simp) hnot]
    exact bad_of_separator h.toReads (Or.inl rfl) hc hne fs rest

/-- The inside of a field that does not survive. -/
theorem walk_bad (h : ReadsEscape b cfg) {k : Nat} {f : List UInt8}
    (hf : ¬survives b.escape b.quote k f) (hc : IsSeparator cfg c) (g : List UInt8)
    (fs : List (List UInt8)) (rest : List UInt8) :
    Bad (cfg.nfaTokenizer.fieldRecords inQuotedField g fs (b.escaped f ++ b.quote :: c :: rest)) fs
      (g ++ (List.replicate k b.escape ++ f)) := by
  have heq : b.escape ≠ b.quote := h.quote_escape.symm
  have hquoted : Config.inRecord inQuotedField = true := rfl
  induction hn : f.length using Nat.strong_induction_on generalizing k f g with
  | _ n ih =>
    subst hn
    match f with
    | [] =>
      -- the field closes with `k` escapes missing
      have hne : g ≠ g ++ (List.replicate k b.escape ++ []) := by
        intro hh
        have hlen := congrArg List.length hh
        simp at hlen
        exact hf hlen
      show Bad (cfg.nfaTokenizer.fieldRecords inQuotedField g fs (b.quote :: c :: rest)) fs _
      rw [fieldRecords_close h.toReads]
      exact bad_of_separator h.toReads (Or.inr (Or.inl rfl)) hc hne fs rest
    | [x] =>
      by_cases hx : x = b.escape
      · subst hx
        -- the escape takes the closing quote with it, and the field runs on
        rw [escaped_other heq]
        show Bad (cfg.nfaTokenizer.fieldRecords inQuotedField g fs
          (b.escape :: b.quote :: c :: rest)) fs _
        rw [fieldRecords_pair h]
        exact bad_of_not_prefix hquoted (not_prefix_lost h.quote_escape k g []) fs _
      · have hk : k ≠ 0 := fun hk => hf ⟨hx, hk⟩
        rw [fieldRecords_byte h hx]
        exact bad_of_not_prefix hquoted (not_prefix_missing hx hk g [x]) fs _
    | x :: d :: f =>
      rw [survives] at hf
      by_cases hx : x = b.escape
      · subst hx
        rw [if_pos rfl] at hf
        by_cases hd : d = b.escape
        · subst hd
          rw [if_pos rfl] at hf
          have hbad := ih f.length (by simp only [List.length_cons]; omega) hf (g ++ [b.escape]) rfl
          rw [escaped_other heq, escaped_other heq, List.cons_append, List.cons_append,
            fieldRecords_pair h]
          rw [List.append_assoc, List.singleton_append, List.replicate_succ, List.cons_append,
            cons_replicate_append, cons_replicate_append] at hbad
          exact hbad
        · rw [if_neg hd] at hf
          by_cases hdq : d = b.quote
          · subst hdq
            -- the reader closed the field at the escaped quote: only one tail reads back from there
            have htail : f ≠ escapeTail b.escape b.quote k := fun hh => hf ⟨rfl, hh⟩
            rw [escaped_other heq, escaped_quote h.single, List.cons_append, List.cons_append,
              List.cons_append, fieldRecords_pair h, fieldRecords_close h.toReads]
            have hbad := bad_raw h htail hc (g ++ [b.escape]) fs rest
            rw [List.append_assoc, List.singleton_append, cons_replicate_append] at hbad
            exact hbad
          -- the byte after the escape is taken for a literal and the escape is lost
          · rw [escaped_other heq, escaped_other hdq, List.cons_append, List.cons_append,
              fieldRecords_pair h]
            exact bad_of_not_prefix hquoted (not_prefix_lost hd k g (d :: f)) fs _
      · rw [if_neg hx] at hf
        rw [fieldRecords_byte h hx]
        by_cases hk : k = 0
        · subst hk
          have hrest : ¬survives b.escape b.quote 0 (d :: f) := fun hh => hf ⟨rfl, hh⟩
          have hbad := ih (d :: f).length (by simp only [List.length_cons]; omega) hrest (g ++ [x])
            rfl
          rw [List.append_assoc] at hbad
          exact hbad
        · exact bad_of_not_prefix hquoted (not_prefix_missing hx hk g (x :: d :: f)) fs _

end Walk

/-! ### Fields, records and runs -/

section Records

variable {b : WriterBuilder} {cfg : Config}

theorem readsBack_of_survives (h : ReadsEscape b cfg) {f : List UInt8}
    (hf : Survives b.escape b.quote f) : ReadsBack b cfg f := by
  cases hq : b.build.shouldQuote f with
  | false => exact readsBack_of_plain h.toReads hq
  | true =>
    obtain ⟨s, hs, hread⟩ := walk_survives h ((survives_zero_iff h.quote_escape f).mpr hf)
    refine ⟨s, hs, fun fs rest => ?_⟩
    simp [WriterBuilder.fieldBytes, hq, fieldRecords_open h.toReads, hread]

/-- A field with an escape byte is quoted. -/
theorem shouldQuote_of_mem (h : ReadsEscape b cfg) {f : List UInt8} (hf : b.escape ∈ f) :
    b.build.shouldQuote f = true := by
  have hstyle : b.build.cfg.style = b.style := rfl
  rcases h.style with hs | hs
  · rw [Writer.shouldQuote, hstyle, hs]
  · have hspecial : b.requiresQuotes b.escape = true := by
      simp [WriterBuilder.requiresQuotes, h.single]
    rw [Writer.shouldQuote, hstyle, hs]
    rw [Writer.needsQuotes_eq]
    exact List.any_eq_true.mpr ⟨b.escape, hf, hspecial⟩

theorem bad_fieldBytes (h : ReadsEscape b cfg) {f : List UInt8}
    (hf : ¬Survives b.escape b.quote f) {c : UInt8} (hc : IsSeparator cfg c)
    (fs : List (List UInt8)) (rest : List UInt8) :
    Bad (cfg.nfaTokenizer.fieldRecords startField [] fs (b.fieldBytes f ++ c :: rest)) fs f := by
  have hmem : b.escape ∈ f := by
    by_contra hnot
    exact hf (Or.inl hnot)
  have hwalk := walk_bad h (mt (survives_zero_iff h.quote_escape f).mp hf) hc [] fs rest
  rw [WriterBuilder.fieldBytes, shouldQuote_of_mem h hmem, if_pos rfl]
  simp only [List.cons_append, List.append_assoc, List.nil_append]
  rw [fieldRecords_open h.toReads]
  exact hwalk

theorem Bad.ne {x : List (List (List UInt8))} {gs : List (List UInt8)} {f : List UInt8}
    (h : Bad x gs f) (fs : List (List UInt8)) (later : List (List (List UInt8))) :
    x ≠ (gs ++ f :: fs) :: later := by
  obtain ⟨g, more, later', rfl, hg⟩ := h
  intro hh
  have hrecord := List.append_cancel_left (List.cons.inj hh).1
  exact hg (List.cons.inj hrecord).1

/-- The terminator begins with a separator. -/
theorem exists_termBytes (h : Reads b cfg) :
    ∃ t more, b.build.termBytes = t :: more ∧ IsSeparator cfg t := by
  rw [Writer.termBytes, show b.build.cfg.term = b.term from rfl]
  rcases h.term with ht | ⟨ht, hb⟩
  · cases hb : b.term with
    | crlf => exact ⟨CR, [LF], rfl, Or.inr (by rw [ht, hb]; rfl)⟩
    | any t => exact ⟨t, [], rfl, Or.inr (by rw [ht, hb]; exact beq_self_eq_true t)⟩
  · rcases hb with hb | hb
    · rw [hb]
      exact ⟨LF, [], rfl, Or.inr (by rw [ht]; rfl)⟩
    · rw [hb]
      exact ⟨CR, [], rfl, Or.inr (by rw [ht]; rfl)⟩

/-- A record with a field that does not survive is read as another one. -/
theorem fieldRecords_fieldsBytes_ne (h : ReadsEscape b cfg) {fs : List (List UInt8)}
    (hfs : ∃ f ∈ fs, ¬Survives b.escape b.quote f) (gs : List (List UInt8)) (rest : List UInt8)
    (later : List (List (List UInt8))) :
    cfg.nfaTokenizer.fieldRecords startField [] gs
        (b.fieldsBytes fs ++ (b.build.termBytes ++ rest)) ≠ (gs ++ fs) :: later := by
  induction fs generalizing gs with
  | nil =>
    obtain ⟨f, hf, -⟩ := hfs
    exact absurd hf List.not_mem_nil
  | cons f fs ih =>
    by_cases hf : Survives b.escape b.quote f
    · -- the first field is read as it was, so that another one is wrong
      have hmore : ∃ f' ∈ fs, ¬Survives b.escape b.quote f' := by
        obtain ⟨f', hf', hnot⟩ := hfs
        rcases List.mem_cons.mp hf' with rfl | hf'
        · exact absurd hf hnot
        · exact ⟨f', hf', hnot⟩
      obtain ⟨s, hs, hread⟩ := readsBack_of_survives h hf
      cases fs with
      | nil =>
        obtain ⟨f', hf', -⟩ := hmore
        exact absurd hf' List.not_mem_nil
      | cons g more =>
        have hrest := ih hmore (gs ++ [f])
        rw [WriterBuilder.fieldsBytes]
        · rw [List.append_assoc, hread, List.cons_append, fieldRecords_delimiter h.toReads hs]
          rw [List.append_assoc] at hrest
          exact hrest
        · simp
    · cases fs with
      | nil =>
        obtain ⟨t, more, hbytes, ht⟩ := exists_termBytes h.toReads
        rw [WriterBuilder.fieldsBytes, hbytes, List.cons_append]
        exact (bad_fieldBytes h hf ht gs (more ++ rest)).ne [] later
      | cons g more =>
        rw [WriterBuilder.fieldsBytes]
        · rw [List.append_assoc, List.cons_append]
          exact (bad_fieldBytes h hf (Or.inl h.delimiter) gs _).ne _ later
        · simp

theorem fieldRecords_recordBytes_ne (h : ReadsEscape b cfg) {fs : List (List UInt8)}
    (hne : fs ≠ []) (hfs : ∃ f ∈ fs, ¬Survives b.escape b.quote f) {s : NfaState}
    (hs : AtStart cfg s) (rest : List UInt8) (later : List (List (List UInt8))) :
    cfg.nfaTokenizer.fieldRecords s [] [] (b.recordBytes fs ++ rest) ≠ fs :: later := by
  have hnil : b.fieldsBytes fs ≠ [] := by
    intro hnil
    obtain ⟨f, hf, hnot⟩ := hfs
    rw [eq_of_fieldsBytes_nil hne hnil, List.mem_singleton] at hf
    rw [hf] at hnot
    exact hnot (Or.inl List.not_mem_nil)
  obtain ⟨c, more, hhead, hc⟩ :=
    exists_head_recordBytes h.toReads fs (b.build.termBytes ++ rest)
  rw [WriterBuilder.recordBytes, List.append_assoc, hhead, fieldRecords_atStart h.toReads hs hc,
    ← hhead, if_neg hnil]
  exact fieldRecords_fieldsBytes_ne h hfs [] rest later

/-- **Records come back just when their fields survive.** -/
theorem fieldRecords_csv_iff (h : ReadsEscape b cfg) {rs : List (List (List UInt8))}
    (hne : ∀ r ∈ rs, r ≠ []) {s : NfaState} (hs : AtStart cfg s) :
    cfg.nfaTokenizer.fieldRecords s [] [] (b.csv rs) = rs ↔
      ∀ r ∈ rs, ∀ f ∈ r, Survives b.escape b.quote f := by
  constructor
  · intro heq
    induction rs generalizing s with
    | nil => exact fun r hr => absurd hr List.not_mem_nil
    | cons r rs ih =>
      have hr : ∀ f ∈ r, Survives b.escape b.quote f := by
        by_contra hnot
        push Not at hnot
        exact fieldRecords_recordBytes_ne h (hne r (List.mem_cons_self ..)) hnot hs _ _ heq
      obtain ⟨s', hs', hrecord⟩ := fieldRecords_recordBytes h.toReads
        (hne r (List.mem_cons_self ..)) (fun f hf => readsBack_of_survives h (hr f hf)) hs
        (rs.flatMap b.recordBytes)
      have htail := (List.cons.inj (hrecord.symm.trans heq)).2
      intro r' hr'
      rcases List.mem_cons.mp hr' with rfl | hr'
      · exact hr
      · exact ih (fun r'' hr'' => hne r'' (List.mem_cons_of_mem _ hr'')) hs' htail r' hr'
  · intro hall
    exact fieldRecords_csv h.toReads hne
      (fun r hr f hf => readsBack_of_survives h (hall r hr f hf)) hs

end Records

/-- **Round trip with an escape byte.** In a buffer that is large enough the writer writes bytes from
    which the reader gets the records again just when all fields survive. -/
theorem csv_roundTrip_escape_iff {b : WriterBuilder} {cfg : Config} (h : ReadsEscape b cfg)
    {rs : List (List (List UInt8))} (hne : ∀ r ∈ rs, r ≠ [])
    (hbom : ∃ size, ∀ room, size ≤ room → ∀ bytes, Writer.writeAll b.build room rs = some bytes →
      ¬Reader.utf8Bom <+: bytes) :
    (∃ size, ∀ room, size ≤ room → ∃ bytes, Writer.writeAll b.build room rs = some bytes ∧
        ∀ chunks : List (List UInt8), chunks.flatten = bytes → (∀ c ∈ chunks, c ≠ []) →
        ∀ bufs : Nat → Nat × Nat, (∀ i, 0 < (bufs i).1 ∧ 0 < (bufs i).2) →
        ∀ fuel, bytes.length + 2 ≤ fuel →
          streamRecords bufs fuel 0 (Reader.build cfg false) [] [] chunks = some rs) ↔
      ∀ r ∈ rs, ∀ f ∈ r, Survives b.escape b.quote f := by
  have hwrite : ∀ room, (b.csv rs).length ≤ room →
      Writer.writeAll b.build room rs = some (b.csv rs) :=
    fun room hroom => Writer.writeAll_eq hne hroom
  have hbytes : ¬Reader.utf8Bom <+: b.csv rs := by
    obtain ⟨size, hsize⟩ := hbom
    exact hsize (max size (b.csv rs).length) (Nat.le_max_left ..) _
      (hwrite _ (Nat.le_max_right ..))
  have hread : cfg.tableRecords (b.csv rs) = rs ↔
      ∀ r ∈ rs, ∀ f ∈ r, Survives b.escape b.quote f := by
    rw [Config.tableRecords_eq h.comment, withoutBom, if_neg hbytes,
      fieldRecords_csv_iff h hne (Or.inl rfl)]
  rw [← hread]
  constructor
  · rintro ⟨size, hsize⟩
    -- enough room for both, and all bytes in one chunk
    obtain ⟨bytes, hbytes', hall⟩ := hsize (max size (b.csv rs).length) (Nat.le_max_left ..)
    rw [hwrite _ (Nat.le_max_right ..), Option.some.injEq] at hbytes'
    subst hbytes'
    obtain ⟨chunks, hchunks, hnonempty⟩ :
        ∃ chunks : List (List UInt8), chunks.flatten = b.csv rs ∧ ∀ c ∈ chunks, c ≠ [] := by
      by_cases hnil : b.csv rs = []
      · exact ⟨[], hnil.symm, fun c hc => absurd hc List.not_mem_nil⟩
      · exact ⟨[b.csv rs], List.flatten_singleton, fun c hc => by
          rw [List.mem_singleton.mp hc]
          exact hnil⟩
    have hrun := hall chunks hchunks hnonempty (fun _ => (1, 1)) (fun _ => ⟨Nat.one_pos,
      Nat.one_pos⟩)
      _ (Nat.le_refl _)
    rw [streamRecords_of_not_bom cfg hbytes hchunks hnonempty
      (fun _ => ⟨Nat.one_pos, Nat.one_pos⟩) (Nat.le_refl _), Option.some.injEq] at hrun
    exact hrun
  · intro heq
    refine ⟨(b.csv rs).length, fun room hroom => ⟨b.csv rs, hwrite room hroom, ?_⟩⟩
    intro chunks hchunks hnonempty bufs hbufs fuel hfuel
    rw [streamRecords_of_not_bom cfg hbytes hchunks hnonempty hbufs hfuel, heq]

/-- Settings with a backslash before quotes. -/
def WriterBuilder.backslash : WriterBuilder :=
  { WriterBuilder.default with style := .always, doubleQuote := false }

/-- A reader for them. -/
def Config.backslash : Config :=
  { Config.default with term := .any LF, escape := some 92, doubleQuote := false }

theorem readsEscape_backslash : ReadsEscape WriterBuilder.backslash Config.backslash where
  delimiter := rfl
  quote := rfl
  quoting := rfl
  comment := rfl
  term := Or.inl rfl
  quote_ne := by decide
  delimiter_term := by decide
  quote_term := by decide
  style := Or.inl rfl
  single := rfl
  double := rfl
  escape := rfl
  quote_escape := by decide
  escape_delimiter := by decide
  escape_term := by decide

/-- A field with a quote comes back. -/
theorem csv_roundTrip_escape_quote :
    ∃ size, ∀ room, size ≤ room →
      ∃ bytes, Writer.writeAll WriterBuilder.backslash.build room [[[97, 34]]] = some bytes ∧
        ∀ chunks : List (List UInt8), chunks.flatten = bytes → (∀ c ∈ chunks, c ≠ []) →
        ∀ bufs : Nat → Nat × Nat, (∀ i, 0 < (bufs i).1 ∧ 0 < (bufs i).2) →
        ∀ fuel, bytes.length + 2 ≤ fuel →
          streamRecords bufs fuel 0 (Reader.build Config.backslash false) [] [] chunks =
            some [[[97, 34]]] := by
  refine (csv_roundTrip_escape_iff readsEscape_backslash (by decide) ?_).mpr ?_
  · refine ⟨6, fun room hroom bytes hwrite => ?_⟩
    have hroom' : (WriterBuilder.backslash.csv [[[97, 34]]]).length ≤ room := hroom
    rw [Writer.writeAll_eq (by decide) hroom', Option.some.injEq] at hwrite
    rw [← hwrite]
    decide
  · intro r hr f hf
    rw [List.mem_singleton.mp hr, List.mem_singleton] at hf
    rw [hf]
    exact Or.inl (by decide)

/-- A field that is the escape byte: its closing quote is taken for an escaped one. -/
theorem csv_escape_lost :
    Writer.writeAll WriterBuilder.backslash.build 4 [[[92]]] = some [34, 92, 34, 10] ∧
      streamRecords (fun _ => (8, 8)) 8 0 (Reader.build Config.backslash false) [] []
        [[34, 92, 34, 10]] = some [[[34, 10]]] := by
  constructor
  · rw [Writer.writeAll_eq (by decide) (by decide)]
    decide
  · rw [streamRecords_one _ _ (by decide) (by decide) (by decide)]
    decide

end TeaclaveCrates.Csv
