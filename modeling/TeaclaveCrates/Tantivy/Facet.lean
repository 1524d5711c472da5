import Mathlib.Data.List.Basic
import Mathlib.Data.Set.Function

namespace TeaclaveCrates.Tantivy

/-!
# tantivy — the text of a facet

`schema/facet.rs`: a facet as a path, the text that is printed for it, and the parser of such texts.
Texts are lists of characters: all that the parser and the printer look for are ASCII characters,
whose bytes stand for nothing else.

* `Facet.fromText` — the parser;
* `Facet.toPathString` — the printer;
* `Facet.fromText_text` — the parser on a printed text;
* `Facet.text_iff` — the facets whose text is read back.
-/

def SLASH_BYTE : Char := '/'
def ESCAPE_BYTE : Char := '\\'
def FACET_SEP_CHAR : Char := '\x00'

/-- `FacetParseError`. -/
inductive FacetParseError
  | facetParseError (text : List Char)
deriving DecidableEq, Repr

/-- `Facet`. -/
structure Facet where
  encodedStr : List Char
deriving DecidableEq, Repr

namespace Facet

/-- The `State` of `from_text`. -/
inductive State
  | escaped
  | idle
deriving DecidableEq, Repr

/-- The variables of the loop of `from_text`. -/
structure Parsing where
  facetEncoded : List Char
  state : State
  lastOffset : Nat

/-- `&path_ref[start..stop]`. -/
def slice (path : List Char) (start stop : Nat) : List Char := (path.drop start).take (stop - start)

/-- One round of the loop of `from_text`. -/
def fromTextStep (path : List Char) (p : Parsing) (i : Nat) : Parsing :=
  match p.state with
  | .idle =>
    if path[i]? = some ESCAPE_BYTE then
      ⟨p.facetEncoded ++ slice path p.lastOffset i, .escaped, i + 1⟩
    else if path[i]? = some SLASH_BYTE then
      ⟨p.facetEncoded ++ slice path p.lastOffset i ++ [FACET_SEP_CHAR], .idle, i + 1⟩
    else
      p
  | .escaped => { p with state := .idle }

/-- `from_text`. -/
def fromText (path : List Char) : Except FacetParseError Facet :=
  if path.isEmpty then
    .error (.facetParseError path)
  else if path.head? ≠ some SLASH_BYTE then
    .error (.facetParseError path)
  else
    let p := (List.range' 1 (path.length - 1)).foldl (fromTextStep path) ⟨[], .idle, 1⟩
    .ok ⟨p.facetEncoded ++ path.drop p.lastOffset⟩

/-- `from_path`. -/
def fromPath : List (List Char) → Facet
  | [] => ⟨[]⟩
  | step :: steps => ⟨step ++ steps.flatMap fun step => FACET_SEP_CHAR :: step⟩

/-- `escape_slashes`: a match of `[\\/]` is replaced by `\/`. -/
def escapeSlashes (s : List Char) : List Char :=
  s.flatMap fun c => if c = ESCAPE_BYTE ∨ c = SLASH_BYTE then [ESCAPE_BYTE, SLASH_BYTE] else [c]

/-- `to_path_string`, by `Display`. -/
def toPathString (f : Facet) : List Char :=
  (f.encodedStr.splitOn FACET_SEP_CHAR).flatMap fun step => SLASH_BYTE :: escapeSlashes step

/-! ### The parser -/

/-- What `from_text` makes of a text behind its first slash. -/
def unescape : State → List Char → List Char
  | _, [] => []
  | .escaped, c :: rest => c :: unescape .idle rest
  | .idle, c :: rest =>
    if c = ESCAPE_BYTE then unescape .escaped rest
    else if c = SLASH_BYTE then FACET_SEP_CHAR :: unescape .idle rest
    else c :: unescape .idle rest

theorem slice_succ {done rest : List Char} {c : Char} {start : Nat} (h : start ≤ done.length) :
    slice (done ++ c :: rest) start (done.length + 1) =
      slice (done ++ c :: rest) start done.length ++ [c] := by
  unfold slice
  rw [Nat.succ_sub h, List.drop_append_of_le_length h, List.take_append, List.take_append]
  simp

theorem slice_self (path : List Char) (i : Nat) : slice path i i = [] := by simp [slice]

/-- The loop, with the characters before `i` in `done`. -/
theorem foldl_fromTextStep (rest done : List Char) (p : Parsing) (h : p.lastOffset ≤ done.length) :
    let path := done ++ rest
    let q := (List.range' done.length rest.length).foldl (fromTextStep path) p
    q.facetEncoded ++ path.drop q.lastOffset =
      p.facetEncoded ++ slice path p.lastOffset done.length ++ unescape p.state rest := by
  induction rest generalizing done p with
  | nil =>
    have hall : (done.drop p.lastOffset).take (done.length - p.lastOffset) =
        done.drop p.lastOffset := List.take_of_length_le (by simp)
    cases hstate : p.state <;> simp [slice, unescape, hall]
  | cons c rest ih =>
    have hnext := ih (done ++ [c]) (fromTextStep (done ++ c :: rest) p done.length)
    simp only [List.append_assoc, List.singleton_append, List.length_append, List.length_singleton]
      at hnext
    simp only [List.length_cons, List.range'_succ, List.foldl_cons]
    cases hstate : p.state with
    | escaped =>
      have hstep : fromTextStep (done ++ c :: rest) p done.length = { p with state := .idle } := by
        simp [fromTextStep, hstate]
      rw [hstep] at hnext ⊢
      rw [hnext (Nat.le_succ_of_le h), slice_succ h]
      simp [unescape]
    | idle =>
      by_cases hescape : c = ESCAPE_BYTE
      · have hstep : fromTextStep (done ++ c :: rest) p done.length =
            ⟨p.facetEncoded ++ slice (done ++ c :: rest) p.lastOffset done.length, .escaped,
              done.length + 1⟩ := by
          simp [fromTextStep, hstate, hescape]
        rw [hstep] at hnext ⊢
        rw [hnext (Nat.le_refl _), slice_self]
        simp [unescape, hescape]
      · by_cases hslash : c = SLASH_BYTE
        · have hstep : fromTextStep (done ++ c :: rest) p done.length =
              ⟨p.facetEncoded ++ slice (done ++ c :: rest) p.lastOffset done.length ++
                [FACET_SEP_CHAR], .idle, done.length + 1⟩ := by
            simp [fromTextStep, hstate, hslash, SLASH_BYTE, ESCAPE_BYTE]
          rw [hstep] at hnext ⊢
          rw [hnext (Nat.le_refl _), slice_self]
          simp [unescape, hslash, SLASH_BYTE, ESCAPE_BYTE]
        · have hstep : fromTextStep (done ++ c :: rest) p done.length = p := by
            simp [fromTextStep, hstate, hescape, hslash]
          rw [hstep] at hnext ⊢
          rw [hnext (Nat.le_succ_of_le h), slice_succ h, hstate]
          simp [unescape, hescape, hslash]

/-- **The parser** reads a text behind its first slash character by character. -/
theorem fromText_cons (text : List Char) :
    fromText (SLASH_BYTE :: text) = .ok ⟨unescape .idle text⟩ := by
  have h := foldl_fromTextStep text [SLASH_BYTE] ⟨[], .idle, 1⟩ (Nat.le_refl 1)
  simp only [List.singleton_append, List.length_singleton, slice_self, List.nil_append] at h
  simp [fromText, h]

/-! ### The printer -/

/-- The text of one character of the encoded facet. -/
def charText (c : Char) : List Char :=
  if c = FACET_SEP_CHAR then [SLASH_BYTE] else escapeSlashes [c]

theorem toPathString_eq (l : List Char) :
    toPathString ⟨l⟩ = SLASH_BYTE :: l.flatMap charText := by
  unfold toPathString
  induction l with
  | nil => simp [escapeSlashes]
  | cons c rest ih =>
    rw [List.splitOn_eq_splitOnP] at ih ⊢
    rw [List.splitOnP_cons_eq_if_modifyHead]
    by_cases hsep : c = FACET_SEP_CHAR
    · rw [if_pos (by simpa using hsep), List.flatMap_cons, List.flatMap_cons, charText, if_pos hsep]
      simpa [escapeSlashes] using ih
    · rw [if_neg (by simpa using hsep), List.flatMap_cons, charText, if_neg hsep]
      cases hsplit : List.splitOnP (fun x => x == FACET_SEP_CHAR) rest with
      | nil => exact absurd hsplit (List.splitOnP_ne_nil _ _)
      | cons step steps =>
        simp only [hsplit, List.flatMap_cons, List.cons_append, List.cons.injEq, true_and] at ih
        simp [escapeSlashes, ← ih]

/-- What is read back for a character. -/
def unescaped (c : Char) : Char := if c = ESCAPE_BYTE then SLASH_BYTE else c

theorem unescape_charText (c : Char) (text : List Char) :
    unescape .idle (charText c ++ text) = unescaped c :: unescape .idle text := by
  by_cases hsep : c = FACET_SEP_CHAR
  · simp [charText, unescaped, hsep, unescape, FACET_SEP_CHAR, SLASH_BYTE, ESCAPE_BYTE]
  · by_cases hescape : c = ESCAPE_BYTE
    · simp [charText, escapeSlashes, unescaped, hescape, unescape, FACET_SEP_CHAR, SLASH_BYTE,
        ESCAPE_BYTE]
    · by_cases hslash : c = SLASH_BYTE
      · simp [charText, escapeSlashes, unescaped, hslash, unescape, FACET_SEP_CHAR, SLASH_BYTE,
          ESCAPE_BYTE]
      · simp [charText, escapeSlashes, unescaped, hescape, hslash, hsep, unescape]

theorem unescape_flatMap (l : List Char) :
    unescape .idle (l.flatMap charText) = l.map unescaped := by
  induction l with
  | nil => simp [unescape]
  | cons c rest ih => rw [List.flatMap_cons, unescape_charText, ih, List.map_cons]

/-- **A printed text** is read as the facet with its backslashes turned into slashes. -/
theorem fromText_text (f : Facet) :
    fromText f.toPathString = .ok ⟨f.encodedStr.map unescaped⟩ := by
  rw [toPathString_eq, fromText_cons, unescape_flatMap]

theorem map_unescaped_iff (l : List Char) : l.map unescaped = l ↔ ESCAPE_BYTE ∉ l := by
  have hchar : ∀ c, unescaped c = c ↔ c ≠ ESCAPE_BYTE := by
    intro c
    by_cases hescape : c = ESCAPE_BYTE
    · simp [unescaped, hescape, SLASH_BYTE, ESCAPE_BYTE]
    · simp [unescaped, hescape]
  have hmap := List.map_inj_left (l := l) (f := unescaped) (g := id)
  rw [List.map_id] at hmap
  rw [hmap]
  exact ⟨fun h hmem => (hchar _).mp (h _ hmem) rfl,
    fun h c hc => (hchar c).mpr fun heq => h (heq ▸ hc)⟩

theorem mem_fromPath (path : List (List Char)) :
    ESCAPE_BYTE ∈ (fromPath path).encodedStr ↔ ∃ step ∈ path, ESCAPE_BYTE ∈ step := by
  cases path with
  | nil => simp [fromPath]
  | cons step steps => simp [fromPath, ESCAPE_BYTE, FACET_SEP_CHAR]

/-- **The text of a facet.** In a set of paths, all facets are read back from their texts, and no
    two have the same text, if and only if no segment has a backslash. -/
theorem text_iff (paths : Set (List (List Char))) :
    ((∀ path ∈ paths, fromText (fromPath path).toPathString = .ok (fromPath path)) ∧
        Set.InjOn toPathString (fromPath '' paths)) ↔
      ∀ path ∈ paths, ∀ step ∈ path, ESCAPE_BYTE ∉ step := by
  have hread : ∀ path, fromText (fromPath path).toPathString = .ok (fromPath path) ↔
      ∀ step ∈ path, ESCAPE_BYTE ∉ step := by
    intro path
    have hpath := map_unescaped_iff (fromPath path).encodedStr
    rw [mem_fromPath] at hpath
    rw [fromText_text, Except.ok.injEq, Facet.mk.injEq, hpath]
    push Not
    rfl
  simp only [hread, and_iff_left_iff_imp]
  rintro hpaths - ⟨path, hp, rfl⟩ - ⟨path', hp', rfl⟩ heq
  -- two facets that are read back from one text
  have hfacet := (hread path).mpr (hpaths path hp)
  rw [heq, (hread path').mpr (hpaths path' hp')] at hfacet
  exact (Except.ok.inj hfacet).symm

/-- A segment that is a backslash has the text of one that is a slash. -/
theorem backslash_lost :
    fromText (fromPath [[ESCAPE_BYTE]]).toPathString = .ok (fromPath [[SLASH_BYTE]]) ∧
      fromPath [[SLASH_BYTE]] ≠ fromPath [[ESCAPE_BYTE]] ∧
      (fromPath [[SLASH_BYTE]]).toPathString = (fromPath [[ESCAPE_BYTE]]).toPathString := by
  refine ⟨?_, by decide, ?_⟩
  · rw [fromText_text]
    rfl
  · rw [toPathString_eq, fromPath, toPathString_eq]
    rfl

end Facet

end TeaclaveCrates.Tantivy
