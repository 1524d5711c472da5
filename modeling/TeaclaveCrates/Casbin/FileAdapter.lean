import TeaclaveCrates.Casbin.CsvLine
import TeaclaveCrates.Casbin.MemoryAdapter

namespace TeaclaveCrates.Casbin

open Lib

/-!
# The file adapter

`adapter/file_adapter.rs` writes a rule as `ptype, field,field,…` and reads it back with
`parse_csv_line`. The writer joins the fields as they are, while the reader trims every column and
takes quotes for a way to protect commas.

* `savePolicy`, `loadPolicyLine`, `loadPolicy` — the operations, on the text of the file.
* `parse_lineText` — a line whose rule is storable is read back.
* `keptAsWritten_of_parse` — a rule that has itself been read from such a line is storable.
* `save_load_iff` — saving and loading restores the rules exactly when every one is storable.
-/

/-! ### Saving and loading -/

structure FileAdapter where
  filePath : String
  isFiltered : Bool

/-- The errors of `save_policy`. -/
inductive SaveError where
  | io (msg : String)
  | model (e : Error)
  deriving DecidableEq, Repr

/-- `"{}, {}"` with the type and the fields joined with commas. -/
def writeLine (ptype : String) (rule : Rule) : String := ptype ++ ", " ++ ",".intercalate rule

/-- The types and rules of one section, in the order in which they are written. -/
def sectionRules (m : DefaultModel) (sec : String) : List (String × Rule) :=
  match m.model sec with
  | none => []
  | some asts => asts.entries.flatMap fun e => e.2.policy.toList.map fun rule => (e.1, rule)

/-- `writeln!` for every rule. -/
def writeLines (rules : List (String × Rule)) : String :=
  String.join (rules.map fun x => writeLine x.1 x.2 ++ "\n")

/-- The text that `save_policy` writes to the file. A missing grouping section has no rules, a
    missing policy section is an error. -/
def FileAdapter.savePolicy (a : FileAdapter) (m : DefaultModel) : Except SaveError String :=
  if a.filePath = "" then .error (.io "save policy failed, file path is empty")
  else
    match m.model "p" with
    | none => .error (.model (.modelP "Missing policy definition in conf file"))
    | some _ => .ok (writeLines (sectionRules m "p") ++ writeLines (sectionRules m "g"))

/-- `load_policy_line`: the section is the first character of the first column. -/
def loadPolicyLine [EscC] (m : DefaultModel) (line : String) : DefaultModel :=
  if line = "" ∨ line.toList.head? = some '#' then m
  else
    match parseCsvLine line with
    | some (key :: rule) =>
      match key.toList.head? with
      | some c => m.modifyPolicy c.toString key (·.insert rule)
      | none => m
    | _ => m

/-- `load_policy` on the text of the file. -/
def FileAdapter.loadPolicy [EscC] (text : String) (m : DefaultModel) : DefaultModel :=
  ((lines text.toList).map String.ofList).foldl loadPolicyLine m

/-! ### What a load puts into a model -/

variable {m : DefaultModel} {s t : String} {r : Rule}

/-- A line that has columns is neither empty nor a comment. -/
theorem not_comment_of_parse [EscC] {line : String} {cols : List String}
    (h : parseCsvLine line = some cols) : ¬(line = "" ∨ line.toList.head? = some '#') := by
  unfold parseCsvLine at h
  dsimp only at h
  split at h
  · exact absurd h (by simp)
  · rename_i hline
    rintro (rfl | hhead)
    · exact hline (Or.inl rfl)
    · obtain ⟨rest, hrest⟩ := List.head?_eq_some_iff.mp hhead
      -- a `#` in front is not trimmed away
      rw [hrest, trim_cons (by decide)] at hline
      exact hline (Or.inr rfl)

/-- A line adds the rule of its columns to the type that its first column names. -/
theorem mem_rules_loadPolicyLine [EscC] (m : DefaultModel) (line : String) :
    r ∈ (loadPolicyLine m line).rules s t ↔
      r ∈ m.rules s t ∨ (m.assertion s t).isSome ∧ (t.toList.head?.map Char.toString = some s) ∧
        parseCsvLine line = some (t :: r) := by
  unfold loadPolicyLine
  by_cases hc : line = "" ∨ line.toList.head? = some '#'
  · rw [if_pos hc]
    refine ⟨Or.inl, ?_⟩
    rintro (h | ⟨-, -, h⟩)
    · exact h
    · exact absurd hc (not_comment_of_parse h)
  · rw [if_neg hc]
    match hp : parseCsvLine line with
    | none => simp
    | some [] => simp
    | some (key :: rule) =>
      dsimp only
      cases hk : key.toList.head? with
      | none =>
        refine ⟨Or.inl, ?_⟩
        rintro (h | ⟨-, hsec, h⟩)
        · exact h
        · simp only [Option.some.injEq, List.cons.injEq] at h
          rw [← h.1, hk] at hsec
          exact absurd hsec (by simp)
      | some c =>
        rw [DefaultModel.rules_modifyPolicy]
        by_cases h : s = c.toString ∧ t = key ∧ (m.assertion c.toString key).isSome
        · obtain ⟨rfl, rfl, hsome⟩ := h
          rw [if_pos ⟨rfl, rfl, hsome⟩, LinkedSet.mem_insert, hk]
          simp only [Option.map_some, true_and, Option.some.injEq, List.cons.injEq, hsome]
          rw [or_comm, @eq_comm _ rule r]
        · rw [if_neg h]
          refine ⟨Or.inl, ?_⟩
          rintro (hr | ⟨hsome, hsec, hcols⟩)
          · exact hr
          · obtain ⟨rfl, -⟩ := hcols
            rw [hk, Option.map_some, Option.some.injEq] at hsec
            exact absurd ⟨hsec.symm, rfl, hsec ▸ hsome⟩ h

theorem isSome_assertion_loadPolicyLine [EscC] (m : DefaultModel) (line : String) (s t : String) :
    ((loadPolicyLine m line).assertion s t).isSome = (m.assertion s t).isSome := by
  unfold loadPolicyLine
  split
  · rfl
  · split
    · split
      · exact DefaultModel.isSome_assertion_modifyPolicy ..
      · rfl
    · rfl

theorem mem_rules_loadPolicyLines [EscC] (ls : List String) (m : DefaultModel) :
    r ∈ (ls.foldl loadPolicyLine m).rules s t ↔
      r ∈ m.rules s t ∨ (m.assertion s t).isSome ∧ (t.toList.head?.map Char.toString = some s) ∧
        ∃ line ∈ ls, parseCsvLine line = some (t :: r) := by
  induction ls generalizing m with
  | nil => simp
  | cons l ls ih =>
    rw [List.foldl_cons, ih, mem_rules_loadPolicyLine, isSome_assertion_loadPolicyLine]
    simp only [List.mem_cons, exists_eq_or_imp]
    tauto

/-! ### The written lines -/

theorem toList_writeLine (t : String) (r : Rule) :
    (writeLine t r).toList = t.toList ++ ',' :: ' ' :: join (r.map String.toList) := by
  rw [writeLine, String.toList_append, String.toList_append, String.toList_intercalate,
    List.append_assoc]
  rfl

/-- The types and rules in the order in which they are written. -/
def written (m : DefaultModel) : List (String × Rule) := sectionRules m "p" ++ sectionRules m "g"

theorem mem_sectionRules (m : DefaultModel) (sec : String) :
    (t, r) ∈ sectionRules m sec ↔ r ∈ m.rules sec t := by
  unfold sectionRules DefaultModel.rules DefaultModel.assertion
  cases hm : m.model sec with
  | none => simp
  | some asts =>
    simp only [Option.bind_some, List.mem_flatMap, List.mem_map, Prod.mk.injEq]
    constructor
    · rintro ⟨e, he, r', hr', rfl, rfl⟩
      rw [(asts.get?_eq_some_iff e.1 e.2).mpr he]
      exact hr'
    · intro hr
      cases hast : asts.get? t with
      | none =>
        rw [hast] at hr
        exact absurd hr (LinkedSet.not_mem_empty r)
      | some ast =>
        rw [hast] at hr
        exact ⟨(t, ast), (asts.get?_eq_some_iff t ast).mp hast, r, hr, rfl, rfl⟩

theorem mem_written (m : DefaultModel) :
    (t, r) ∈ written m ↔ ∃ s, (s = "p" ∨ s = "g") ∧ r ∈ m.rules s t := by
  rw [written, List.mem_append, mem_sectionRules, mem_sectionRules]
  constructor
  · rintro (h | h)
    · exact ⟨"p", Or.inl rfl, h⟩
    · exact ⟨"g", Or.inr rfl, h⟩
  · rintro ⟨s, rfl | rfl, h⟩
    · exact Or.inl h
    · exact Or.inr h

theorem toList_writeLines (rules : List (String × Rule)) :
    (writeLines rules).toList =
      (rules.map fun x => (writeLine x.1 x.2).toList).flatMap (· ++ ['\n']) := by
  rw [writeLines, String.toList_join, List.flatMap_map, List.flatMap_map]
  congr 1
  funext x
  simp

/-- Saving writes the lines of all rules. -/
theorem savePolicy_ok {a : FileAdapter} {text : String} :
    a.savePolicy m = .ok text ↔
      a.filePath ≠ "" ∧ (m.model "p").isSome ∧ text = writeLines (written m) := by
  have happ : writeLines (sectionRules m "p") ++ writeLines (sectionRules m "g") =
      writeLines (written m) := by
    apply String.toList_injective
    simp [toList_writeLines, written]
  unfold FileAdapter.savePolicy
  by_cases hp : a.filePath = ""
  · simp [hp]
  · rw [if_neg hp]
    cases m.model "p" with
    | none => simp
    | some asts =>
      simp [happ, @eq_comm _ text, hp]

/-- The fields of every rule are free of line breaks. -/
def NoBreaks (m : DefaultModel) : Prop :=
  ∀ s t r f, s = "p" ∨ s = "g" → r ∈ m.rules s t → f ∈ r → '\n' ∉ f.toList ∧ '\r' ∉ f.toList

theorem not_mem_join {c : Char} (hc : c ≠ ',') {xs : List (List Char)} (h : ∀ x ∈ xs, c ∉ x) :
    c ∉ join xs := by
  induction xs with
  | nil => simp [join_nil]
  | cons x xs ih =>
    have hx := h x List.mem_cons_self
    have hxs := ih fun y hy => h y (List.mem_cons_of_mem x hy)
    cases xs with
    | nil =>
      rw [join_singleton]
      exact hx
    | cons y ys =>
      rw [join_cons_cons, List.mem_append, List.mem_cons, not_or, not_or]
      exact ⟨hx, hc, hxs⟩

/-- When no type has a line feed in it, the lines of the text are those that were written. -/
theorem lines_written (hb : NoBreaks m) (ht : ∀ x ∈ written m, '\n' ∉ x.1.toList) :
    lines (writeLines (written m)).toList =
      (written m).map fun x => (writeLine x.1 x.2).toList := by
  have hfields : ∀ x ∈ written m, ∀ c, c = '\n' ∨ c = '\r' →
      c ∉ ',' :: ' ' :: join (x.2.map String.toList) := by
    intro x hx c hc
    obtain ⟨s, hs, hr⟩ := (mem_written m).mp (show (x.1, x.2) ∈ written m from hx)
    have hjoin : c ∉ join (x.2.map String.toList) := by
      apply not_mem_join
      · rcases hc with rfl | rfl <;> decide
      · intro y hy
        obtain ⟨f, hf, rfl⟩ := List.mem_map.mp hy
        rcases hc with rfl | rfl
        · exact (hb s x.1 x.2 f hs hr hf).1
        · exact (hb s x.1 x.2 f hs hr hf).2
    rw [List.mem_cons, List.mem_cons, not_or, not_or]
    refine ⟨?_, ?_, hjoin⟩
    · rcases hc with rfl | rfl <;> decide
    · rcases hc with rfl | rfl <;> decide
  rw [toList_writeLines]
  apply lines_flatMap
  · intro l hl
    obtain ⟨x, hx, rfl⟩ := List.mem_map.mp hl
    rw [toList_writeLine, List.mem_append, not_or]
    exact ⟨ht x hx, hfields x hx '\n' (Or.inl rfl)⟩
  · intro l hl hlast
    obtain ⟨x, hx, rfl⟩ := List.mem_map.mp hl
    rw [toList_writeLine, List.getLast?_append_of_ne_nil _ (by simp)] at hlast
    exact hfields x hx '\r' (Or.inr rfl) (List.mem_of_getLast? hlast)

/-! ### Reading a written line -/

theorem columns_of_parse [EscC] {line : String} {cols : List String}
    (h : parseCsvLine line = some cols) :
    columns (trim line.toList) = cols.map String.toList := by
  unfold parseCsvLine at h
  dsimp only at h
  split at h
  · exact absurd h (by simp)
  · split at h
    · exact absurd h (by simp)
    · rw [← Option.some.inj h, List.map_map]
      simp

/-- The rule and its type can be read back from the line that is written for them: the type has no
    comma, line feed or whitespace at its ends; there is a field; no field has a comma, whitespace
    at its ends or a quote in front, except that the last one may have one quote if that stands in
    front. -/
def KeptAsWritten (t : String) (r : Rule) : Prop :=
  '\n' ∉ t.toList ∧ PlainColumn t.toList ∧ r ≠ [] ∧ Storable (r.map String.toList)

instance (t : String) (r : Rule) : Decidable (KeptAsWritten t r) :=
  inferInstanceAs
    (Decidable ('\n' ∉ t.toList ∧ PlainColumn t.toList ∧ r ≠ [] ∧ Storable (r.map String.toList)))

/-- The first character of a type: a letter, so no whitespace, quote or `#`. -/
def Lettered (t : String) : Prop := t.toList.head? = some 'p' ∨ t.toList.head? = some 'g'

theorem Lettered.head {t : String} (h : Lettered t) :
    ∃ c rest, t.toList = c :: rest ∧ isWhitespace c = false ∧ c ≠ '#' ∧ c ≠ '"' := by
  rcases h with h | h
  · obtain ⟨rest, hrest⟩ := List.head?_eq_some_iff.mp h
    exact ⟨'p', rest, hrest, by decide, by decide, by decide⟩
  · obtain ⟨rest, hrest⟩ := List.head?_eq_some_iff.mp h
    exact ⟨'g', rest, hrest, by decide, by decide, by decide⟩

theorem parse_lineText [EscC] (ht : Lettered t) (h : KeptAsWritten t r) :
    parseCsvLine (writeLine t r) = some (t :: r) := by
  obtain ⟨-, hplain, hne, hst⟩ := h
  obtain ⟨c, rest, hrest, hwhite, hcomment, -⟩ := ht.head
  have hcols := columns_joined hplain (by simp [hrest]) (by simpa using hne) hst
  have hhead : ∃ z, trim (writeLine t r).toList = c :: z := by
    rw [toList_writeLine, hrest, List.cons_append, trim_cons hwhite]
    exact ⟨_, rfl⟩
  obtain ⟨z, hz⟩ := hhead
  rw [← toList_writeLine] at hcols
  unfold parseCsvLine
  rw [if_neg, hcols, if_neg (by simp), ← List.map_cons, List.map_map]
  · simp
  · rw [hz]
    simpa using hcomment

/-- What is read from the line of a rule that could itself be read is storable. -/
theorem keptAsWritten_of_parse [EscC] {t' : String} {r' : Rule} (ht : Lettered t)
    (hfeed : '\n' ∉ (writeLine t r).toList) (hread : Readable (t.toList :: r.map String.toList))
    (h : parseCsvLine (writeLine t r) = some (t' :: r')) : KeptAsWritten t' r' := by
  obtain ⟨c, rest, hrest, hwhite, -, hquote⟩ := ht.head
  have hread' : (PlainColumn t.toList ∨ '"' ∉ t.toList) ∧ Readable (r.map String.toList) := by
    rcases hread with h | ⟨-, hopen⟩
    · exact h
    · rw [hrest] at hopen
      exact absurd (Option.some.inj hopen.1) hquote
  have hcols := columns_of_parse h
  -- trimming only cuts the end off
  have htrim : trim (writeLine t r).toList =
      c :: (rest ++ ',' :: trimEnd (' ' :: join (r.map String.toList))) := by
    rw [toList_writeLine, hrest, List.cons_append, trim_cons hwhite,
      trimEnd_append_cons (by decide)]
  have htame : Tame (trim (writeLine t r).toList) := by
    have hline := tame_joined hread'.1 hread'.2
    obtain ⟨z, hz⟩ := trimEnd_isPrefix (' ' :: join (r.map String.toList))
    rw [hrest, ← hz] at hline
    rw [htrim]
    apply Tame.of_append (z := z)
    simpa using hline
  have hq : ¬StartsQuote (trim (writeLine t r).toList) := by
    rintro ⟨rest', hrest'⟩
    rw [htrim, List.dropWhile_cons_of_neg (by simp [hwhite]), List.cons.injEq] at hrest'
    exact hquote hrest'.1
  obtain ⟨k, rs, hk, hplain, hne⟩ := columns_of_comma hq (by simp [htrim])
  have hst := storable_columns false htame
  rw [← columns_eq, hcols] at hst
  rw [hcols, List.map_cons, List.cons.injEq] at hk
  have hne' : r'.map String.toList ≠ [] := hk.2 ▸ hne
  refine ⟨fun hmem => hfeed ?_, hk.1 ▸ hplain, by simpa using hne', ?_⟩
  · apply mem_of_mem_trim
    apply mem_of_mem_columns (x := t'.toList) _ hmem
    rw [hcols]
    exact List.mem_cons_self
  · rcases hst with ⟨-, hst⟩ | ⟨hnil, -⟩
    · exact hst
    · exact absurd hnil hne'

/-! ### Saving and loading again -/

/-- Saving succeeds, and loading the text into the model with cleared policies gives every policy
    and grouping type the rules that it had. -/
def FileAdapter.Restores [EscC] (a : FileAdapter) (m : DefaultModel) : Prop :=
  ∃ text, a.savePolicy m = .ok text ∧ ∀ s t r, s = "p" ∨ s = "g" →
    (r ∈ (loadPolicy text m.clearPolicy).rules s t ↔ r ∈ m.rules s t)

theorem lettered_of_rule (hm : MemoryAdapter.TypesNamed m) (hs : s = "p" ∨ s = "g")
    (hr : r ∈ m.rules s t) :
    Lettered t ∧ t.toList.head?.map Char.toString = some s ∧ (m.assertion s t).isSome := by
  have hsome : (m.assertion s t).isSome := by
    cases h : m.assertion s t with
    | none =>
      rw [DefaultModel.rules, h] at hr
      exact absurd hr (LinkedSet.not_mem_empty r)
    | some ast => rfl
  rcases hs with rfl | rfl
  · have hhead := hm.1 t hsome
    exact ⟨Or.inl hhead, by rw [hhead]; rfl, hsome⟩
  · have hhead := hm.2 t hsome
    exact ⟨Or.inr hhead, by rw [hhead]; rfl, hsome⟩

/-- The rules after a load are those whose columns some line of the text has. -/
theorem mem_rules_loadPolicy_cleared [EscC] (hm : MemoryAdapter.TypesNamed m)
    (hs : s = "p" ∨ s = "g")
    (text : String) :
    r ∈ (FileAdapter.loadPolicy text m.clearPolicy).rules s t ↔
      (m.assertion s t).isSome ∧
        ∃ l ∈ lines text.toList, parseCsvLine (String.ofList l) = some (t :: r) := by
  rw [FileAdapter.loadPolicy, mem_rules_loadPolicyLines, DefaultModel.rules_clearPolicy m s t hs,
    DefaultModel.isSome_assertion_clearPolicy]
  simp only [LinkedSet.not_mem_empty, false_or, List.mem_map, exists_exists_and_eq_and]
  refine and_congr_right fun hsome => and_iff_right ?_
  rcases hs with rfl | rfl
  · simp [hm.1 t hsome]
  · simp [hm.2 t hsome]

theorem restores_of_kept [EscC] (a : FileAdapter) (hm : MemoryAdapter.TypesNamed m)
    (hb : NoBreaks m)
    (hpath : a.filePath ≠ "") (hsec : (m.model "p").isSome)
    (hkept : ∀ s t r, s = "p" ∨ s = "g" → r ∈ m.rules s t → KeptAsWritten t r) :
    a.Restores m := by
  have hfeed : ∀ x ∈ written m, '\n' ∉ x.1.toList := by
    intro x hx
    obtain ⟨s, hs, hr⟩ := (mem_written m).mp (show (x.1, x.2) ∈ written m from hx)
    exact (hkept s x.1 x.2 hs hr).1
  refine ⟨_, savePolicy_ok.mpr ⟨hpath, hsec, rfl⟩, fun s t r hs => ?_⟩
  rw [mem_rules_loadPolicy_cleared hm hs, lines_written hb hfeed]
  constructor
  · rintro ⟨hsome, l, hl, hparse⟩
    obtain ⟨x, hx, rfl⟩ := List.mem_map.mp hl
    obtain ⟨s', hs', hr⟩ := (mem_written m).mp (show (x.1, x.2) ∈ written m from hx)
    obtain ⟨hletter, hsec', -⟩ := lettered_of_rule hm hs' hr
    rw [String.ofList_toList, parse_lineText hletter (hkept s' x.1 x.2 hs' hr), Option.some.injEq,
      List.cons.injEq] at hparse
    obtain ⟨rfl, rfl⟩ := hparse
    -- a type belongs to one section only, that of its first letter
    have hsame : s' = s := by
      rcases hs with rfl | rfl
      · rw [hm.1 _ hsome] at hsec'
        exact (Option.some.inj hsec').symm
      · rw [hm.2 _ hsome] at hsec'
        exact (Option.some.inj hsec').symm
    exact hsame ▸ hr
  · intro hr
    obtain ⟨hletter, -, hsome⟩ := lettered_of_rule hm hs hr
    refine ⟨hsome, _, List.mem_map.mpr ⟨(t, r), (mem_written m).mpr ⟨s, hs, hr⟩, rfl⟩, ?_⟩
    rw [String.ofList_toList]
    exact parse_lineText hletter (hkept s t r hs hr)

theorem kept_of_restores [EscC] {a : FileAdapter} (hm : MemoryAdapter.TypesNamed m)
    (hb : NoBreaks m)
    (h : a.Restores m) :
    ∀ s t r, s = "p" ∨ s = "g" → r ∈ m.rules s t → KeptAsWritten t r := by
  obtain ⟨text, htext, hrestore⟩ := h
  obtain ⟨-, -, rfl⟩ := savePolicy_ok.mp htext
  have hline : ∀ s t r, s = "p" ∨ s = "g" → r ∈ m.rules s t →
      ∃ l ∈ lines (writeLines (written m)).toList,
        parseCsvLine (String.ofList l) = some (t :: r) := by
    intro s t r hs hr
    exact ((mem_rules_loadPolicy_cleared hm hs _).mp ((hrestore s t r hs).mpr hr)).2
  -- every rule has been read from some line, so none has a line feed in its type
  have hfeed : ∀ x ∈ written m, '\n' ∉ x.1.toList := by
    intro x hx hmem
    obtain ⟨s, hs, hr⟩ := (mem_written m).mp (show (x.1, x.2) ∈ written m from hx)
    obtain ⟨l, hl, hparse⟩ := hline s x.1 x.2 hs hr
    have hcols := columns_of_parse hparse
    rw [String.toList_ofList] at hcols
    refine lineFeed_not_mem_linesFrom List.not_mem_nil hl (mem_of_mem_trim ?_)
    apply mem_of_mem_columns (x := x.1.toList) _ hmem
    rw [hcols]
    exact List.mem_cons_self
  have hlines := lines_written hb hfeed
  have hread : ∀ s t r, s = "p" ∨ s = "g" → r ∈ m.rules s t →
      Readable (t.toList :: r.map String.toList) := by
    intro s t r hs hr
    obtain ⟨l, -, hparse⟩ := hline s t r hs hr
    have hcols := columns_of_parse hparse
    rw [List.map_cons] at hcols
    rw [← hcols]
    exact readable_columns false _
  intro s t r hs hr
  obtain ⟨l, hl, hparse⟩ := hline s t r hs hr
  have hnofeed := lineFeed_not_mem_linesFrom List.not_mem_nil hl
  rw [hlines] at hl
  obtain ⟨x, hx, rfl⟩ := List.mem_map.mp hl
  obtain ⟨s', hs', hr'⟩ := (mem_written m).mp (show (x.1, x.2) ∈ written m from hx)
  rw [String.ofList_toList] at hparse
  exact keptAsWritten_of_parse (lettered_of_rule hm hs' hr').1 hnofeed
    (hread s' x.1 x.2 hs' hr') hparse

/-- **Save and load.** For types named after their section and fields without line breaks, saving
    and loading restores the rules exactly when the file has a path, the model has policies, and
    every rule can be read back from the line that is written for it. -/
theorem save_load_iff [EscC] (a : FileAdapter) (m : DefaultModel) (hm : MemoryAdapter.TypesNamed m)
    (hb : NoBreaks m) :
    a.Restores m ↔ a.filePath ≠ "" ∧ (m.model "p").isSome ∧
      ∀ s t r, s = "p" ∨ s = "g" → r ∈ m.rules s t → KeptAsWritten t r := by
  constructor
  · intro h
    have hpath_sec : a.filePath ≠ "" ∧ (m.model "p").isSome := by
      obtain ⟨text, htext, -⟩ := h
      exact ⟨(savePolicy_ok.mp htext).1, (savePolicy_ok.mp htext).2.1⟩
    obtain ⟨hpath, hsec⟩ := hpath_sec
    exact ⟨hpath, hsec, kept_of_restores hm hb h⟩
  · rintro ⟨hpath, hsec, hkept⟩
    exact restores_of_kept a hm hb hpath hsec hkept

/-- A model with one policy type and one rule. -/
def oneRule (rule : Rule) : DefaultModel where
  model sec :=
    if sec = "p" then
      some
        { entries :=
            [("p", { value := "sub, dom, act", tokens := ["p_sub", "p_dom", "p_act"],
                     policy := LinkedSet.empty.insert rule })]
          nodup := List.nodup_singleton "p" }
    else none

theorem rules_oneRule (rule : Rule) :
    r ∈ (oneRule rule).rules s t ↔ s = "p" ∧ t = "p" ∧ r = rule := by
  unfold oneRule DefaultModel.rules DefaultModel.assertion
  by_cases hs : s = "p"
  · by_cases ht : t = "p"
    · simp [hs, ht, LinkedMap.get?]
    · have hb : (t == "p") = false := by simpa using ht
      simp [hs, ht, LinkedMap.get?, List.lookup_cons, hb]
  · simp [hs]

theorem oneRule_typesNamed (rule : Rule) : MemoryAdapter.TypesNamed (oneRule rule) := by
  constructor
  · intro t ht
    by_cases h : t = "p"
    · subst h
      decide
    · have hb : (t == "p") = false := by simpa using h
      simp [oneRule, DefaultModel.assertion, LinkedMap.get?, List.lookup_cons, hb] at ht
  · intro t ht
    simp [oneRule, DefaultModel.assertion] at ht

theorem oneRule_noBreaks {rule : Rule}
    (h : ∀ f ∈ rule, '\n' ∉ f.toList ∧ '\r' ∉ f.toList) : NoBreaks (oneRule rule) := by
  intro s t r f _ hr hf
  obtain ⟨-, -, rfl⟩ := (rules_oneRule rule).mp hr
  exact h f hf

/-- The rule `alice, #1, "x` is restored, although its last field is an unclosed quote. -/
theorem save_load_iff_open_quote :
    MemoryAdapter.TypesNamed (oneRule ["alice", "#1", "\"x"]) ∧
      NoBreaks (oneRule ["alice", "#1", "\"x"]) ∧
      FileAdapter.Restores ⟨"policy.csv", false⟩ (oneRule ["alice", "#1", "\"x"]) := by
  have hb : NoBreaks (oneRule ["alice", "#1", "\"x"]) := oneRule_noBreaks (by decide)
  refine ⟨oneRule_typesNamed _, hb, ?_⟩
  refine (save_load_iff ⟨"policy.csv", false⟩ _ (oneRule_typesNamed _) hb).mpr
    ⟨by decide, rfl, fun s t r _ hr => ?_⟩
  obtain ⟨-, rfl, rfl⟩ := (rules_oneRule _).mp hr
  decide

/-- A field with a comma, which the reader would take in quotes, is written without them and comes
    back as two fields. -/
theorem save_splits_comma :
    MemoryAdapter.TypesNamed (oneRule ["alice", "domain1, domain2", "read"]) ∧
      NoBreaks (oneRule ["alice", "domain1, domain2", "read"]) ∧
      ¬FileAdapter.Restores ⟨"policy.csv", false⟩ (oneRule ["alice", "domain1, domain2",
        "read"]) := by
  have hb : NoBreaks (oneRule ["alice", "domain1, domain2", "read"]) := oneRule_noBreaks (by decide)
  refine ⟨oneRule_typesNamed _, hb, fun h => ?_⟩
  have hkept := kept_of_restores (oneRule_typesNamed _) hb h "p" "p" _ (Or.inl rfl)
    ((rules_oneRule _).mpr ⟨rfl, rfl, rfl⟩)
  revert hkept
  decide

end TeaclaveCrates.Casbin
