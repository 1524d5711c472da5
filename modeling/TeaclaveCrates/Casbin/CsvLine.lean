import TeaclaveCrates.Lib.Text

namespace TeaclaveCrates.Casbin

open Lib

/-!
# Splitting a policy line into columns

`parse_csv_line` of `util.rs`: the columns are the successive matches of the regular expression
`(\s*"[^"]*"?|\s*[^,]*)`, each trimmed and without the quotes around it.

* `EscC` — the match of the expression at the start of a text.
* `findIter` — all matches, where an empty match right behind another one is passed over.
* `parseCsvLine` — the columns.
* `PlainColumn`, `Open`, `Readable`, `Storable` — the kinds of columns.
* `readable_columns` — what the columns of any line look like.
* `storable_columns` — what they look like when no column of the line is quoted.
* `columns_joined` — storable columns, joined with commas, are found again.
-/

/-! ### The texts that a search can meet -/

/-- The text starts with whitespace and a quote. -/
def StartsQuote (s : List Char) : Prop := ∃ rest, s.dropWhile isWhitespace = '"' :: rest

variable {s : List Char}

theorem not_startsQuote_nil : ¬StartsQuote [] := by
  rintro ⟨rest, h⟩
  simp at h

theorem not_startsQuote_comma (s : List Char) : ¬StartsQuote (',' :: s) := by
  rintro ⟨rest, h⟩
  have hc : isWhitespace ',' = false := by decide
  simp [hc] at h

variable {m : List Char}

variable {c : Char}

theorem takeWhile_ne (hm : c ∉ m) (s : List Char) :
    (m ++ c :: s).takeWhile (· ≠ c) = m ∧ (m ++ c :: s).dropWhile (· ≠ c) = c :: s := by
  have hpos : ∀ x ∈ m, decide (x ≠ c) = true := by
    intro x hx
    simpa using fun h : x = c => hm (h ▸ hx)
  rw [List.takeWhile_append_of_pos hpos, List.dropWhile_append_of_pos hpos]
  simp

theorem takeWhile_ne_self (hm : c ∉ m) :
    m.takeWhile (· ≠ c) = m ∧ m.dropWhile (· ≠ c) = [] := by
  have hpos : ∀ x ∈ m, decide (x ≠ c) = true := by
    intro x hx
    simpa using fun h : x = c => hm (h ▸ hx)
  exact ⟨List.takeWhile_eq_self_iff.mpr hpos, List.dropWhile_eq_nil_iff.mpr hpos⟩

variable {ws : List Char}

theorem takeWhile_whitespace (hws : ∀ c ∈ ws, isWhitespace c = true) (s : List Char) :
    (ws ++ '"' :: s).takeWhile isWhitespace = ws ∧
      (ws ++ '"' :: s).dropWhile isWhitespace = '"' :: s := by
  have hq : isWhitespace '"' = false := by decide
  simp [List.takeWhile_append_of_pos hws, List.dropWhile_append_of_pos hws, hq]

/-- The four kinds of text that a search can meet. -/
theorem text_cases (s : List Char) :
    (∃ ws body rest, (∀ c ∈ ws, isWhitespace c = true) ∧ '"' ∉ body ∧
        s = ws ++ '"' :: body ++ '"' :: rest) ∨
      (∃ ws body, (∀ c ∈ ws, isWhitespace c = true) ∧ '"' ∉ body ∧ s = ws ++ '"' :: body) ∨
      (¬StartsQuote s ∧ ∃ m rest, ',' ∉ m ∧ s = m ++ ',' :: rest) ∨
      (¬StartsQuote s ∧ ',' ∉ s) := by
  by_cases hq : StartsQuote s
  · obtain ⟨rest, hrest⟩ := hq
    have hs : s = s.takeWhile isWhitespace ++ '"' :: rest := by
      rw [← hrest, List.takeWhile_append_dropWhile]
    have hws : ∀ c ∈ s.takeWhile isWhitespace, isWhitespace c = true := fun c hc =>
      List.mem_takeWhile_imp hc
    by_cases hclose : '"' ∈ rest
    · obtain ⟨body, rest', hsplit, hbody⟩ := List.eq_append_cons_of_mem hclose
      refine Or.inl ⟨_, body, rest', hws, hbody, ?_⟩
      rw [List.append_assoc, List.cons_append, ← hsplit]
      exact hs
    · exact Or.inr (Or.inl ⟨_, rest, hws, hclose, hs⟩)
  · by_cases hcomma : ',' ∈ s
    · obtain ⟨m, rest, hsplit, hm⟩ := List.eq_append_cons_of_mem hcomma
      exact Or.inr (Or.inr (Or.inl ⟨hq, m, rest, hm, hsplit⟩))
    · exact Or.inr (Or.inr (Or.inr ⟨hq, hcomma⟩))

/-- Induction along a search: a column that is read leaves the text behind it. -/
theorem search_induction {P : Bool → List Char → Prop}
    (quoted : ∀ adjacent ws body rest, (∀ c ∈ ws, isWhitespace c = true) → '"' ∉ body →
      P true rest → P adjacent (ws ++ '"' :: body ++ '"' :: rest))
    (opened : ∀ adjacent ws body, (∀ c ∈ ws, isWhitespace c = true) → '"' ∉ body →
      P adjacent (ws ++ '"' :: body))
    (comma : ∀ adjacent m rest, ',' ∉ m → ¬StartsQuote (m ++ ',' :: rest) → P false rest →
      P adjacent (m ++ ',' :: rest))
    (last : ∀ adjacent m, ',' ∉ m → ¬StartsQuote m → P adjacent m) (adjacent : Bool)
    (s : List Char) : P adjacent s := by
  induction hn : s.length using Nat.strong_induction_on generalizing adjacent s with
  | _ n ih =>
    subst hn
    rcases text_cases s with ⟨ws, body, rest, hws, hbody, rfl⟩ | ⟨ws, body, hws, hbody, rfl⟩ |
      ⟨hq, m, rest, hm, rfl⟩ | ⟨hq, hm⟩
    · exact quoted adjacent ws body rest hws hbody (ih _ (by simp; omega) true rest rfl)
    · exact opened adjacent ws body hws hbody
    · exact comma adjacent m rest hm hq (ih _ (by simp; omega) false rest rfl)
    · exact last adjacent s hm hq

/-! ### The splitter -/

/-- `ESC_C`: the match at the start of a text, and what comes behind it. The first alternative takes
    a column that starts with a quote up to the next one or the end, else the second takes what is
    in front of a comma or the end. -/
class EscC where
  escC : List Char → List Char × List Char
  escC_quoted : ∀ {ws body}, (∀ c ∈ ws, isWhitespace c = true) → '"' ∉ body → ∀ rest,
    escC (ws ++ '"' :: body ++ '"' :: rest) = (ws ++ '"' :: body ++ ['"'], rest)
  escC_open : ∀ {ws body}, (∀ c ∈ ws, isWhitespace c = true) → '"' ∉ body →
    escC (ws ++ '"' :: body) = (ws ++ '"' :: body, [])
  escC_comma : ∀ {m}, ',' ∉ m → ∀ rest, ¬StartsQuote (m ++ ',' :: rest) →
    escC (m ++ ',' :: rest) = (m, ',' :: rest)
  escC_end : ∀ {m}, ',' ∉ m → ¬StartsQuote m → escC m = (m, [])

open EscC (escC)

theorem escC_append [EscC] (s : List Char) : (escC s).1 ++ (escC s).2 = s := by
  rcases text_cases s with ⟨ws, body, rest, hws, hbody, rfl⟩ | ⟨ws, body, hws, hbody, rfl⟩ |
    ⟨hq, m, rest, hm, rfl⟩ | ⟨hq, hm⟩
  · rw [EscC.escC_quoted hws hbody]
    simp
  · rw [EscC.escC_open hws hbody, List.append_nil]
  · rw [EscC.escC_comma hm rest hq]
  · rw [EscC.escC_end hm hq, List.append_nil]

/-- `find_iter`; `adjacent` says that the last match ended here. An empty match is followed by a
    search behind the next character. -/
def findIter [EscC] (adjacent : Bool) (s : List Char) : List (List Char) :=
  if _h : (escC s).1 = [] then
    let found := if adjacent then [] else [[]]
    match s with
    | [] => found
    | _ :: rest => found ++ findIter false rest
  else (escC s).1 :: findIter true (escC s).2
termination_by s.length
decreasing_by
  · simp
  · have hlen := congrArg List.length (escC_append s)
    rw [List.length_append] at hlen
    have := List.length_pos_iff.mpr _h
    omega

/-- Take the quotes off a column that has one at each end. -/
def unquote (col : List Char) : List Char :=
  if 2 ≤ col.length ∧ col.head? = some '"' ∧ col.getLast? = some '"' then col.tail.dropLast else col

def columns [EscC] (s : List Char) : List (List Char) :=
  (findIter false s).map fun m => unquote (trim m)

def parseCsvLine [EscC] (line : String) : Option (List String) :=
  let line := trim line.toList
  if line = [] ∨ line.head? = some '#' then none
  else
    let res := columns line
    if res = [] then none else some (res.map String.ofList)

/-! ### The matches, one at a time -/

/-- A match that is not empty is found, and the search goes on right behind it. -/
theorem findIter_match [EscC] {rest : List Char} (h : escC s = (m, rest)) (hm : m ≠ [])
    (adjacent : Bool) : findIter adjacent s = m :: findIter true rest := by
  have hne : ¬(escC s).1 = [] := by
    rw [h]
    exact hm
  rw [findIter, dif_neg hne, h]

/-- The columns that an unquoted stretch without a comma gives: none when it is empty and right
    behind another match. -/
def stretch (adjacent : Bool) (m : List Char) : List (List Char) :=
  if m = [] ∧ adjacent = true then [] else [m]

theorem stretch_false (m : List Char) : stretch false m = [m] := by
  simp [stretch]

/-- Behind a match that a comma ends, the search goes on behind the comma. -/
theorem findIter_true_comma [EscC] (s : List Char) :
    findIter true (',' :: s) = findIter false s := by
  have hesc : escC (',' :: s) = ([], ',' :: s) :=
    EscC.escC_comma List.not_mem_nil s (not_startsQuote_comma s)
  rw [findIter, dif_pos (by rw [hesc])]
  rfl

theorem findIter_true_nil [EscC] : findIter true [] = [] := by
  have hesc := EscC.escC_end List.not_mem_nil not_startsQuote_nil
  rw [findIter, dif_pos (by rw [hesc])]
  rfl

/-- An unquoted stretch that ends with a comma. -/
theorem findIter_stretch_comma [EscC] (hm : ',' ∉ m) (s : List Char)
    (hq : ¬StartsQuote (m ++ ',' :: s)) (adjacent : Bool) :
    findIter adjacent (m ++ ',' :: s) = stretch adjacent m ++ findIter false s := by
  have hesc := EscC.escC_comma hm s hq
  by_cases hnil : m = []
  · subst hnil
    rw [List.nil_append, findIter, dif_pos (by rw [show escC (',' :: s) = ([],
      ',' :: s) from hesc])]
    cases adjacent <;> rfl
  · simp [findIter_match hesc hnil, findIter_true_comma, stretch, hnil]

/-- An unquoted stretch that ends the text. -/
theorem findIter_stretch_end [EscC] (hm : ',' ∉ m) (hq : ¬StartsQuote m) (adjacent : Bool) :
    findIter adjacent m = stretch adjacent m := by
  have hesc := EscC.escC_end hm hq
  by_cases hnil : m = []
  · subst hnil
    rw [findIter, dif_pos (by rw [hesc])]
    cases adjacent <;> rfl
  · simp [findIter_match hesc hnil, findIter_true_nil, stretch, hnil]

variable {body : List Char}

/-- A quoted column: whitespace, a quote, no further quote, a closing quote. -/
theorem findIter_quoted [EscC] (hws : ∀ c ∈ ws, isWhitespace c = true) (hbody : '"' ∉ body)
    (s : List Char) (adjacent : Bool) :
    findIter adjacent (ws ++ '"' :: body ++ '"' :: s) =
      (ws ++ '"' :: body ++ ['"']) :: findIter true s :=
  findIter_match (EscC.escC_quoted hws hbody s) (by simp) adjacent

/-- A quote that is never closed takes the rest of the text. -/
theorem findIter_open [EscC] (hws : ∀ c ∈ ws, isWhitespace c = true) (hbody : '"' ∉ body)
    (adjacent : Bool) :
    findIter adjacent (ws ++ '"' :: body) = [ws ++ '"' :: body] := by
  rw [findIter_match (EscC.escC_open hws hbody) (by simp), findIter_true_nil]

/-! ### Kinds of columns -/

/-- A column that is read back when it is written as it is. -/
def PlainColumn (x : List Char) : Prop := ',' ∉ x ∧ x.head? ≠ some '"' ∧ Trimmed x

/-- A column with a quote in front and no other one; it takes the rest of a line with it. -/
def Open (x : List Char) : Prop := x.head? = some '"' ∧ '"' ∉ x.tail ∧ Trimmed x

instance (x : List Char) : Decidable (PlainColumn x) :=
  inferInstanceAs (Decidable (',' ∉ x ∧ x.head? ≠ some '"' ∧ Trimmed x))

instance (x : List Char) : Decidable (Open x) :=
  inferInstanceAs (Decidable (x.head? = some '"' ∧ '"' ∉ x.tail ∧ Trimmed x))

/-- Every column satisfies `P`, except that the last one may be open instead. -/
def AllButOpen (P : List Char → Prop) : List (List Char) → Prop
  | [] => True
  | x :: xs => P x ∧ AllButOpen P xs ∨ xs = [] ∧ Open x

/-- The columns of a line in which nothing is quoted. -/
def Storable (xs : List (List Char)) : Prop := AllButOpen PlainColumn xs

/-- The columns of any line. -/
def Readable (xs : List (List Char)) : Prop := AllButOpen (fun x => PlainColumn x ∨ '"' ∉ x) xs

instance decidableStorable : (xs : List (List Char)) → Decidable (Storable xs)
  | [] => isTrue trivial
  | x :: xs =>
    have := decidableStorable xs
    inferInstanceAs (Decidable (PlainColumn x ∧ Storable xs ∨ xs = [] ∧ Open x))

variable {x : List Char}

theorem unquote_of_head (h : x.head? ≠ some '"') : unquote x = x :=
  if_neg fun hh => h hh.2.1

theorem unquote_of_open (h : Open x) : unquote x = x := by
  refine if_neg fun hh => ?_
  obtain ⟨hlen, -, hlast⟩ := hh
  match x with
  | [] => simp at hlen
  | [_] => simp at hlen
  | a :: b :: x =>
    exact h.2.1 (List.mem_of_getLast? hlast)

theorem not_startsQuote_of_append (h : ¬StartsQuote (m ++ s)) :
    ¬StartsQuote m := by
  rintro ⟨rest, hm⟩
  apply h
  refine ⟨rest ++ s, ?_⟩
  simp [List.dropWhile_append, hm]

theorem startsQuote_iff : StartsQuote s ↔ (trimStart s).head? = some '"' := by
  rw [StartsQuote, trimStart]
  cases s.dropWhile isWhitespace with
  | nil => simp
  | cons a l => simp

/-- An unquoted stretch gives a plain column. -/
theorem plain_trim (hm : ',' ∉ m) (hq : ¬StartsQuote m) :
    PlainColumn (trim m) ∧ unquote (trim m) = trim m := by
  have hhead : (trim m).head? ≠ some '"' := fun h => hq (startsQuote_iff.mpr (head?_trimEnd h))
  exact ⟨⟨fun h => hm (mem_of_mem_trim h), hhead, trimmed_trim m⟩, unquote_of_head hhead⟩

theorem trimStart_whitespace (hws : ∀ c ∈ ws, isWhitespace c = true) (s : List Char) :
    trimStart (ws ++ s) = trimStart s :=
  List.dropWhile_append_of_pos hws

theorem trimStart_quote (s : List Char) : trimStart ('"' :: s) = '"' :: s := by
  have hq : isWhitespace '"' = false := by decide
  simp [trimStart, hq]

/-- A quoted column loses its quotes. -/
theorem unquote_quoted (hws : ∀ c ∈ ws, isWhitespace c = true) :
    unquote (trim (ws ++ '"' :: body ++ ['"'])) = body := by
  have htrim : trim (ws ++ '"' :: body ++ ['"']) = '"' :: body ++ ['"'] := by
    have hlast : ∀ c ∈ ('"' :: body ++ ['"']).getLast?, isWhitespace c = false := by
      intro c hc
      rw [List.getLast?_concat] at hc
      obtain rfl : '"' = c := by simpa using hc
      decide
    rw [trim, List.append_assoc, trimStart_whitespace hws, List.cons_append, trimStart_quote]
    exact trimEnd_of_getLast hlast
  rw [htrim, unquote, if_pos]
  · simp
  · refine ⟨by simp, rfl, ?_⟩
    rw [List.getLast?_concat]

/-- An unclosed quote gives an open column. -/
theorem open_trim (hws : ∀ c ∈ ws, isWhitespace c = true) (hbody : '"' ∉ body) :
    Open (trim (ws ++ '"' :: body)) ∧
      unquote (trim (ws ++ '"' :: body)) = trim (ws ++ '"' :: body) := by
  have hopen : Open (trim (ws ++ '"' :: body)) := by
    have htr := trimmed_trim (ws ++ '"' :: body)
    have hq : isWhitespace '"' = false := by decide
    have htrim : trim (ws ++ '"' :: body) = '"' :: trimEnd body := by
      rw [trim, trimStart_whitespace hws, trimStart_quote]
      exact trimEnd_append_cons hq [] body
    rw [htrim] at htr ⊢
    refine ⟨rfl, fun h => hbody ?_, htr⟩
    exact (trimEnd_isPrefix body).subset h
  exact ⟨hopen, unquote_of_open hopen⟩

/-! ### The columns of a text -/

/-- The columns found from one place on. -/
def tokens [EscC] (adjacent : Bool) (s : List Char) : List (List Char) :=
  (findIter adjacent s).map fun m => unquote (trim m)

theorem columns_eq [EscC] (s : List Char) : columns s = tokens false s := rfl

theorem findIter_false_ne_nil [EscC] (s : List Char) : findIter false s ≠ [] := by
  rcases text_cases s with ⟨ws, body, rest, hws, hbody, rfl⟩ | ⟨ws, body, hws, hbody, rfl⟩ |
    ⟨hq, m, rest, hm, rfl⟩ | ⟨hq, hm⟩
  · rw [findIter_quoted hws hbody]
    simp
  · simp [findIter_open hws hbody]
  · simp [findIter_stretch_comma hm rest hq, stretch_false]
  · simp [findIter_stretch_end hm hq, stretch_false]

theorem tokens_false_ne_nil [EscC] (s : List Char) : tokens false s ≠ [] := by
  simpa [tokens] using findIter_false_ne_nil s

variable {xs : List (List Char)}

theorem allButOpen_stretch {P : List Char → Prop} (adjacent : Bool) (hm : P (unquote (trim m)))
    (hxs : AllButOpen P xs) :
    AllButOpen P ((stretch adjacent m).map (fun m => unquote (trim m)) ++ xs) := by
  unfold stretch
  split
  · exact hxs
  · exact Or.inl ⟨hm, hxs⟩

/-- **Any line.** A column is plain, or has no quote at all, or is an open last one. -/
theorem readable_columns [EscC] (adjacent : Bool) (s : List Char) :
    Readable (tokens adjacent s) := by
  induction adjacent, s using search_induction with
  | quoted adjacent ws body rest hws hbody ih =>
    rw [tokens, findIter_quoted hws hbody, List.map_cons, unquote_quoted hws]
    exact Or.inl ⟨Or.inr hbody, ih⟩
  | opened adjacent ws body hws hbody =>
    rw [tokens, findIter_open hws hbody, List.map_singleton, (open_trim hws hbody).2]
    exact Or.inr ⟨rfl, (open_trim hws hbody).1⟩
  | comma adjacent m rest hm hq ih =>
    rw [tokens, findIter_stretch_comma hm rest hq, List.map_append]
    obtain ⟨hp, hu⟩ := plain_trim hm (not_startsQuote_of_append hq)
    exact allButOpen_stretch adjacent (Or.inl (hu.symm ▸ hp)) ih
  | last adjacent m hm hq =>
    rw [tokens, findIter_stretch_end hm hq, ← List.append_nil (List.map _ _)]
    obtain ⟨hp, hu⟩ := plain_trim hm hq
    exact allButOpen_stretch adjacent (Or.inl (hu.symm ▸ hp)) trivial

theorem eq_of_mem_stretch {adjacent : Bool} (h : x ∈ stretch adjacent m) : x = m := by
  unfold stretch at h
  split at h
  · cases h
  · exact List.mem_singleton.mp h

theorem mem_of_mem_findIter [EscC] {adjacent : Bool} (hm : m ∈ findIter adjacent s) (hc : c ∈ m) :
    c ∈ s := by
  induction adjacent, s using search_induction with
  | quoted adjacent ws body rest hws hbody ih =>
    rw [findIter_quoted hws hbody] at hm
    rcases List.mem_cons.mp hm with rfl | hm
    · simp only [List.mem_append, List.mem_cons, List.not_mem_nil, or_false] at hc ⊢
      tauto
    · exact List.mem_append_right _ (List.mem_cons_of_mem _ (ih hm))
  | opened adjacent ws body hws hbody =>
    rw [findIter_open hws hbody, List.mem_singleton] at hm
    exact hm ▸ hc
  | comma adjacent m' rest hm' hq ih =>
    rw [findIter_stretch_comma hm' rest hq, List.mem_append] at hm
    rcases hm with hm | hm
    · exact List.mem_append_left _ (eq_of_mem_stretch hm ▸ hc)
    · exact List.mem_append_right _ (List.mem_cons_of_mem _ (ih hm))
  | last adjacent m' hm' hq =>
    rw [findIter_stretch_end hm' hq] at hm
    exact eq_of_mem_stretch hm ▸ hc

theorem mem_of_mem_unquote (h : c ∈ unquote x) : c ∈ x := by
  unfold unquote at h
  split at h
  · exact List.mem_of_mem_tail (List.dropLast_subset _ h)
  · exact h

/-- The characters of a column stand in the text. -/
theorem mem_of_mem_columns [EscC] (hx : x ∈ columns s) (hc : c ∈ x) :
    c ∈ s := by
  obtain ⟨m, hm, rfl⟩ := List.mem_map.mp hx
  exact mem_of_mem_findIter hm (mem_of_mem_trim (mem_of_mem_unquote hc))

/-- A text with a comma that does not start with a quote has a plain column and further ones. -/
theorem columns_of_comma [EscC] (hq : ¬StartsQuote s) (hc : ',' ∈ s) :
    ∃ k r, columns s = k :: r ∧ PlainColumn k ∧ r ≠ [] := by
  obtain ⟨m, rest, rfl, hm⟩ := List.eq_append_cons_of_mem hc
  obtain ⟨hp, hu⟩ := plain_trim hm (not_startsQuote_of_append hq)
  refine ⟨trim m, tokens false rest, ?_, hp, tokens_false_ne_nil rest⟩
  simp [columns_eq, tokens, findIter_stretch_comma hm rest hq, stretch_false, hu]

/-- A column that starts here is not quoted: no quote follows a quote in front of it. -/
def ColumnTame (s : List Char) : Prop := ∀ rest, s.dropWhile isWhitespace = '"' :: rest → '"' ∉ rest

/-- No column that starts here or behind a comma is quoted. -/
def Tame (s : List Char) : Prop := ColumnTame s ∧ ∀ w v, s = w ++ ',' :: v → ColumnTame v

/-- **Tame lines.** Without quoted columns every column is plain, or an open last one. -/
theorem storable_columns [EscC] (adjacent : Bool) (h : Tame s) :
    Storable (tokens adjacent s) := by
  induction adjacent, s using search_induction with
  | quoted adjacent ws body rest hws hbody ih =>
    -- a quoted column is what a tame text does not have
    have hd := (takeWhile_whitespace hws (body ++ '"' :: rest)).2
    rw [List.append_assoc, List.cons_append] at h
    exact absurd (List.mem_append_right body List.mem_cons_self) (h.1 _ hd)
  | opened adjacent ws body hws hbody =>
    rw [tokens, findIter_open hws hbody, List.map_singleton, (open_trim hws hbody).2]
    exact Or.inr ⟨rfl, (open_trim hws hbody).1⟩
  | comma adjacent m rest hm hq ih =>
    rw [tokens, findIter_stretch_comma hm rest hq, List.map_append]
    obtain ⟨hp, hu⟩ := plain_trim hm (not_startsQuote_of_append hq)
    have hrest : Tame rest := by
      refine ⟨h.2 m rest rfl, fun w v hv => h.2 (m ++ ',' :: w) v ?_⟩
      simp [hv]
    exact allButOpen_stretch adjacent (hu.symm ▸ hp) (ih hrest)
  | last adjacent m hm hq =>
    rw [tokens, findIter_stretch_end hm hq, ← List.append_nil (List.map _ _)]
    obtain ⟨hp, hu⟩ := plain_trim hm hq
    exact allButOpen_stretch adjacent (hu.symm ▸ hp) trivial

/-! ### Joined columns -/

/-- Columns with commas between them. -/
def join (xs : List (List Char)) : List Char := [','].intercalate xs

theorem join_cons_cons (x y : List Char) (xs : List (List Char)) :
    join (x :: y :: xs) = x ++ ',' :: join (y :: xs) := by
  simp [join, List.intercalate]

theorem join_singleton (x : List Char) : join [x] = x := by
  simp [join, List.intercalate]

theorem join_nil : join [] = [] := rfl

theorem comma_not_whitespace (hws : ∀ c ∈ ws, isWhitespace c = true) :
    ',' ∉ ws := by
  intro h
  have hc : isWhitespace ',' = false := by decide
  rw [hws ',' h] at hc
  exact absurd hc (by simp)

theorem trim_whitespace (hws : ∀ c ∈ ws, isWhitespace c = true) (hx : Trimmed x) :
    trim (ws ++ x) = x := by
  rw [trim, trimStart_whitespace hws]
  exact trim_of_trimmed hx

/-- Whitespace in front of a plain column, or behind it a comma, does not make it quoted. -/
theorem not_startsQuote_plain (hws : ∀ c ∈ ws, isWhitespace c = true) (hx : PlainColumn x)
    (hs : s = [] ∨ s.head? = some ',') :
    ¬StartsQuote (ws ++ x ++ s) := by
  rw [startsQuote_iff, List.append_assoc, trimStart_whitespace hws]
  intro h
  cases x with
  | nil =>
    rcases hs with rfl | hs
    · simp [trimStart] at h
    · obtain ⟨s', rfl⟩ := List.head?_eq_some_iff.mp hs
      exact not_startsQuote_comma s' (startsQuote_iff.mpr h)
  | cons a x =>
    rw [trimStart_of_head (by simpa using hx.2.2.1)] at h
    exact hx.2.1 (by simpa using h)

/-- Storable columns are found again, also behind whitespace. -/
theorem tokens_join [EscC] (hws : ∀ c ∈ ws, isWhitespace c = true) (hne : xs ≠ [])
    (h : Storable xs) :
    tokens false (ws ++ join xs) = xs := by
  induction xs generalizing ws with
  | nil => exact absurd rfl hne
  | cons x xs ih =>
    rcases h with ⟨hx, hxs⟩ | ⟨rfl, hx⟩
    · have hcomma : ',' ∉ ws ++ x := by
        rw [List.mem_append, not_or]
        exact ⟨comma_not_whitespace hws, hx.1⟩
      cases xs with
      | nil =>
        have hq := not_startsQuote_plain hws hx (Or.inl rfl)
        rw [List.append_nil] at hq
        rw [join_singleton, tokens, findIter_stretch_end hcomma hq, stretch_false]
        show [unquote (trim (ws ++ x))] = [x]
        rw [trim_whitespace hws hx.2.2, unquote_of_head hx.2.1]
      | cons y ys =>
        have hq := not_startsQuote_plain hws hx (s := ',' :: join (y :: ys)) (Or.inr rfl)
        have hrest := ih (show ∀ c ∈ ([] : List Char), isWhitespace c = true by simp) (by simp) hxs
        rw [join_cons_cons, ← List.append_assoc, tokens, findIter_stretch_comma hcomma _ hq,
          stretch_false]
        show unquote (trim (ws ++ x)) :: tokens false (join (y :: ys)) = x :: y :: ys
        rw [trim_whitespace hws hx.2.2, unquote_of_head hx.2.1]
        exact congrArg (x :: ·) hrest
    · obtain ⟨body, rfl⟩ := List.head?_eq_some_iff.mp hx.1
      have hbody : '"' ∉ body := hx.2.1
      rw [join_singleton, tokens, findIter_open hws hbody]
      show [unquote (trim (ws ++ '"' :: body))] = ['"' :: body]
      rw [trim_whitespace hws hx.2.2, unquote_of_open hx]

/-! ### Whole lines -/

theorem getLast?_join (h : Storable xs) :
    ∀ c ∈ (join xs).getLast?, isWhitespace c = false := by
  induction xs with
  | nil => simp [join_nil]
  | cons x xs ih =>
    have htrimmed : Trimmed x := by
      rcases h with ⟨hx, -⟩ | ⟨-, hx⟩
      · exact hx.2.2
      · exact hx.2.2
    cases xs with
    | nil =>
      rw [join_singleton]
      exact htrimmed.2
    | cons y ys =>
      rcases h with ⟨-, hys⟩ | ⟨hnil, -⟩
      · intro c hc
        rw [join_cons_cons, List.getLast?_append_of_ne_nil _ (by simp)] at hc
        cases hj : join (y :: ys) with
        | nil =>
          rw [hj] at hc
          obtain rfl : ',' = c := by simpa using hc
          decide
        | cons a l =>
          exact ih hys c (hj ▸ hc)
      · exact absurd hnil (by simp)

/-- **Storable lines.** The columns of a line `ptype, field,…` are its type and its fields when the
    type is plain and the fields are storable. -/
theorem columns_joined [EscC] (hx : PlainColumn x) (hx' : x ≠ []) (hne : xs ≠ [])
    (h : Storable xs) :
    columns (trim (x ++ ',' :: ' ' :: join xs)) = x :: xs := by
  -- trimming takes at most the blank behind the comma
  have htrim : trim (x ++ ',' :: ' ' :: join xs) = x ++ ',' :: trimEnd (' ' :: join xs) := by
    have hstart : trimStart (x ++ ',' :: ' ' :: join xs) = x ++ ',' :: ' ' :: join xs := by
      apply trimStart_of_head
      cases x with
      | nil => exact absurd rfl hx'
      | cons c x => exact hx.2.2.1
    rw [trim, hstart, trimEnd_append_cons (by decide)]
  have hblank : ∃ ws, (∀ c ∈ ws, isWhitespace c = true) ∧
      trimEnd (' ' :: join xs) = ws ++ join xs := by
    cases hj : join xs with
    | nil => exact ⟨[], by simp, by decide⟩
    | cons a l =>
      refine ⟨[' '], fun c hc => ?_, trimEnd_of_getLast fun c hc => ?_⟩
      · rw [List.mem_singleton.mp hc]
        decide
      · rw [List.getLast?_cons_cons, ← hj] at hc
        exact getLast?_join h c hc
  obtain ⟨ws, hws, hend⟩ := hblank
  have hq := not_startsQuote_plain (show ∀ c ∈ ([] : List Char),
    isWhitespace c = true by simp) hx (s := ',' :: (ws ++ join xs)) (Or.inr rfl)
  rw [htrim, hend, columns_eq, tokens, findIter_stretch_comma hx.1 _ hq, stretch_false]
  show unquote (trim x) :: tokens false (ws ++ join xs) = x :: xs
  rw [trim_of_trimmed hx.2.2, unquote_of_head hx.2.1, tokens_join hws hne h]

theorem columnTame_of_not_startsQuote (h : ¬StartsQuote s) : ColumnTame s :=
  fun rest hrest => absurd ⟨rest, hrest⟩ h

/-- A text without quotes, up to its end or a comma, does not start a quoted column. -/
theorem not_startsQuote_of_not_mem {g : List Char} (hg : '"' ∉ g)
    (hs : s = [] ∨ s.head? = some ',') : ¬StartsQuote (g ++ s) := by
  induction g with
  | nil =>
    rcases hs with rfl | hs
    · exact not_startsQuote_nil
    · obtain ⟨s', rfl⟩ := List.head?_eq_some_iff.mp hs
      exact not_startsQuote_comma s'
  | cons a g ih =>
    rintro ⟨rest, hrest⟩
    rw [List.cons_append] at hrest
    by_cases ha : isWhitespace a
    · rw [List.dropWhile_cons_of_pos ha] at hrest
      exact ih (fun h => hg (List.mem_cons_of_mem a h)) ⟨rest, hrest⟩
    · rw [List.dropWhile_cons_of_neg ha, List.cons.injEq] at hrest
      exact hg (hrest.1 ▸ List.mem_cons_self)

/-- A tame text stays tame when its end is cut off. -/
theorem Tame.of_append {z : List Char} (h : Tame (s ++ z)) : Tame s := by
  have hcol : ∀ v, ColumnTame (v ++ z) → ColumnTame v := by
    intro v hv rest hrest hmem
    have hrest' : (v ++ z).dropWhile isWhitespace = '"' :: (rest ++ z) := by
      simp [List.dropWhile_append, hrest]
    exact hv _ hrest' (List.mem_append_left z hmem)
  refine ⟨hcol s h.1, fun w v hv => hcol v (h.2 w (v ++ z) ?_)⟩
  simp [hv]

/-- A column that is plain or has no quote, in front of a comma and a tame text. -/
theorem tame_append_comma {v : List Char} (hx : PlainColumn x ∨ '"' ∉ x) (hv : Tame v) :
    Tame (x ++ ',' :: v) := by
  have hfirst : ColumnTame (x ++ ',' :: v) := by
    apply columnTame_of_not_startsQuote
    rcases hx with hx | hx
    · exact not_startsQuote_plain (show ∀ c ∈ ([] : List Char),
        isWhitespace c = true by simp) hx (Or.inr rfl)
    · exact not_startsQuote_of_not_mem hx (Or.inr rfl)
  refine ⟨hfirst, fun w u h => ?_⟩
  rw [List.append_eq_append_iff] at h
  rcases h with ⟨a, rfl, ha⟩ | ⟨a, rfl, ha⟩
  · -- the comma stands at or behind the end of the column
    cases a with
    | nil =>
      rw [List.nil_append, List.cons.injEq] at ha
      exact ha.2 ▸ hv.1
    | cons b a =>
      rw [List.cons_append, List.cons.injEq] at ha
      exact hv.2 a u ha.2
  · cases a with
    | nil =>
      rw [List.nil_append, List.cons.injEq] at ha
      exact ha.2 ▸ hv.1
    | cons b a =>
      -- the comma stands inside the column, which then has no quote
      obtain ⟨rfl, rfl⟩ := ha
      apply columnTame_of_not_startsQuote
      rcases hx with hx | hx
      · exact absurd (List.mem_append_right w List.mem_cons_self) hx.1
      · exact not_startsQuote_of_not_mem
          (fun h => hx (List.mem_append_right w (List.mem_cons_of_mem _ h))) (Or.inr rfl)

theorem tame_of_not_mem (hx : '"' ∉ x) : Tame x := by
  have hcol : ∀ g : List Char, '"' ∉ g → ColumnTame g := by
    intro g hg
    apply columnTame_of_not_startsQuote
    have := not_startsQuote_of_not_mem hg (s := []) (Or.inl rfl)
    rwa [List.append_nil] at this
  refine ⟨hcol x hx, fun w v h => hcol v fun hv => hx ?_⟩
  rw [h]
  exact List.mem_append_right w (List.mem_cons_of_mem _ hv)

theorem tame_join (h : Readable xs) : Tame (join xs) := by
  induction xs with
  | nil => exact tame_of_not_mem (by simp [join_nil])
  | cons x xs ih =>
    rcases h with ⟨hx, hxs⟩ | ⟨rfl, hx⟩
    · cases xs with
      | nil =>
        have htame : Tame (x ++ ',' :: []) := tame_append_comma hx (tame_of_not_mem (by simp))
        rw [join_singleton]
        exact htame.of_append
      | cons y ys =>
        exact tame_append_comma hx (ih hxs)
    · obtain ⟨body, rfl⟩ := List.head?_eq_some_iff.mp hx.1
      have hbody : '"' ∉ body := hx.2.1
      rw [join_singleton]
      refine ⟨fun rest hrest => ?_, fun w v h => (tame_of_not_mem fun hv => hbody ?_).1⟩
      · have hq : isWhitespace '"' = false := by decide
        rw [List.dropWhile_cons_of_neg (by simp [hq]), List.cons.injEq] at hrest
        exact hrest.2 ▸ hbody
      · cases w with
        | nil => exact absurd h (by simp)
        | cons b w =>
          rw [List.cons_append, List.cons.injEq] at h
          rw [h.2]
          exact List.mem_append_right w (List.mem_cons_of_mem _ hv)

/-- **Lines of readable columns** have no quoted column. -/
theorem tame_joined (hx : PlainColumn x ∨ '"' ∉ x) (h : Readable xs) :
    Tame (x ++ ',' :: ' ' :: join xs) := by
  have hj := tame_join h
  refine tame_append_comma hx ⟨fun rest hrest => ?_, fun w v hv => ?_⟩
  · exact hj.1 rest hrest
  · cases w with
    | nil => exact absurd hv (by simp)
    | cons b w =>
      rw [List.cons_append, List.cons.injEq] at hv
      exact hj.2 w v hv.2

/-! ### The regular expression -/

/-- The match at the start of a text. The whitespace that the second alternative skips is matched by
    `[^,]*` as well. -/
def firstMatch (s : List Char) : List Char × List Char :=
  match s.dropWhile isWhitespace with
  | '"' :: rest =>
    let open' := s.takeWhile isWhitespace ++ '"' :: rest.takeWhile (· ≠ '"')
    match rest.dropWhile (· ≠ '"') with
    | [] => (open', [])
    | close :: rest' => (open' ++ [close], rest')
  | _ => (s.takeWhile (· ≠ ','), s.dropWhile (· ≠ ','))

theorem firstMatch_of_not_startsQuote (h : ¬StartsQuote s) :
    firstMatch s = (s.takeWhile (· ≠ ','), s.dropWhile (· ≠ ',')) := by
  unfold firstMatch
  split
  · rename_i rest hs
    exact absurd ⟨rest, hs⟩ h
  · rfl

instance : EscC where
  escC := firstMatch
  escC_quoted hws hbody rest := by
    rw [List.append_assoc, List.cons_append, firstMatch]
    simp only [takeWhile_whitespace hws, takeWhile_ne hbody]
  escC_open hws hbody := by
    simp only [firstMatch, takeWhile_whitespace hws, takeWhile_ne_self hbody]
  escC_comma hm rest hq := by
    rw [firstMatch_of_not_startsQuote hq, (takeWhile_ne hm rest).1, (takeWhile_ne hm rest).2]
  escC_end hm hq := by
    rw [firstMatch_of_not_startsQuote hq, (takeWhile_ne_self hm).1, (takeWhile_ne_self hm).2]

end TeaclaveCrates.Casbin
