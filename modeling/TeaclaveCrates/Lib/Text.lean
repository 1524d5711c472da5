import Mathlib.Data.List.DropRight

namespace TeaclaveCrates.Lib

/-!
# Text as lists of characters

* `isWhitespace` — the characters with the Unicode property `White_Space`.
* `trim` — a text without the whitespace at its two ends, with `Trimmed` for a text that has none.
* `lines` — the lines of a text, as a buffered reader returns them.
-/

/-- The Unicode property `White_Space`. -/
def isWhitespace (c : Char) : Bool :=
  let n := c.toNat
  (9 ≤ n ∧ n ≤ 0xD) ∨ n = 0x20 ∨ n = 0x85 ∨ n = 0xA0 ∨ n = 0x1680 ∨ (0x2000 ≤ n ∧ n ≤ 0x200A) ∨
    n = 0x2028 ∨ n = 0x2029 ∨ n = 0x202F ∨ n = 0x205F ∨ n = 0x3000

/-! ### Trimming -/

def trimStart (s : List Char) : List Char := s.dropWhile isWhitespace

def trimEnd (s : List Char) : List Char := s.rdropWhile isWhitespace

def trim (s : List Char) : List Char := trimEnd (trimStart s)

/-- No whitespace at either end. -/
def Trimmed (s : List Char) : Prop :=
  (∀ c ∈ s.head?, isWhitespace c = false) ∧ ∀ c ∈ s.getLast?, isWhitespace c = false

-- the instance for options, not the one that tries every character
instance (s : List Char) : Decidable (Trimmed s) :=
  @instDecidableAnd (∀ c ∈ s.head?, isWhitespace c = false)
    (∀ c ∈ s.getLast?, isWhitespace c = false) (Option.decidableForallMem _)
    (Option.decidableForallMem _)

variable {s : List Char}

theorem trimStart_of_head (h : ∀ c ∈ s.head?, isWhitespace c = false) :
    trimStart s = s := by
  cases s with
  | nil => rfl
  | cons c s =>
    have hc := h c rfl
    simp [trimStart, hc]

theorem trimEnd_of_getLast (h : ∀ c ∈ s.getLast?, isWhitespace c = false) :
    trimEnd s = s := by
  rw [trimEnd, List.rdropWhile_eq_self_iff]
  intro hne
  have := h _ (List.getLast?_eq_some_getLast hne)
  simp [this]

variable {c : Char}

/-- A character that is not whitespace stays, and so does all before it. -/
theorem trimEnd_append_cons (h : isWhitespace c = false) (s z : List Char) :
    trimEnd (s ++ c :: z) = s ++ c :: trimEnd z := by
  have hrev : (s ++ c :: z).reverse = z.reverse ++ c :: s.reverse := by simp
  rw [trimEnd, trimEnd, List.rdropWhile, List.rdropWhile, hrev, List.dropWhile_append]
  split
  · rename_i hz
    rw [List.isEmpty_iff] at hz
    rw [hz, List.dropWhile_cons_of_neg (by simp [h])]
    simp
  · simp

theorem trim_cons (h : isWhitespace c = false) (s : List Char) :
    trim (c :: s) = c :: trimEnd s := by
  rw [trim, trimStart_of_head (by simpa using h)]
  exact trimEnd_append_cons h [] s

theorem trim_of_trimmed (h : Trimmed s) : trim s = s := by
  rw [trim, trimStart_of_head h.1, trimEnd_of_getLast h.2]

theorem head?_trimStart (s : List Char) : ∀ c ∈ (trimStart s).head?, isWhitespace c = false := by
  induction s with
  | nil => simp [trimStart]
  | cons a s ih =>
    by_cases ha : isWhitespace a
    · rw [trimStart, List.dropWhile_cons_of_pos ha]
      exact ih
    · rw [trimStart, List.dropWhile_cons_of_neg ha]
      intro c hc
      obtain rfl : a = c := by simpa using hc
      simpa using ha

theorem getLast?_trimEnd (s : List Char) : ∀ c ∈ (trimEnd s).getLast?, isWhitespace c = false := by
  intro c hc
  have hne : trimEnd s ≠ [] := by
    intro h
    simp [h] at hc
  have hlast := List.rdropWhile_last_not isWhitespace s hne
  have hc' : (trimEnd s).getLast hne = c := by
    rw [List.getLast?_eq_some_getLast hne] at hc
    exact Option.some.inj hc
  rw [← hc']
  exact (Bool.not_eq_true _).mp hlast

open List in
theorem trimEnd_isPrefix (s : List Char) : trimEnd s <+: s :=
  rdropWhile_prefix isWhitespace s

/-- Dropping the end of a text keeps its first character, if anything is left. -/
theorem head?_trimEnd (h : c ∈ (trimEnd s).head?) : c ∈ s.head? := by
  obtain ⟨z, hz⟩ := trimEnd_isPrefix s
  rw [← hz]
  cases hs : trimEnd s with
  | nil =>
    rw [hs] at h
    simp at h
  | cons a s' =>
    rw [hs] at h
    exact h

theorem trimmed_trim (s : List Char) : Trimmed (trim s) :=
  ⟨fun c hc => head?_trimStart s c (head?_trimEnd hc), getLast?_trimEnd (trimStart s)⟩

theorem mem_of_mem_trim (h : c ∈ trim s) : c ∈ s :=
  (List.dropWhile_sublist _).subset ((trimEnd_isPrefix _).subset h)

/-! ### Lines -/

/-- The characters of a line without the carriage return before its line feed. -/
def stripReturn (line : List Char) : List Char :=
  if line.getLast? = some '\r' then line.dropLast else line

/-- The lines of a text, behind the characters `cur` that the current line already has. -/
def linesFrom (cur : List Char) : List Char → List (List Char)
  | [] => if cur = [] then [] else [cur]
  | c :: rest =>
    if c = '\n' then stripReturn cur :: linesFrom [] rest else linesFrom (cur ++ [c]) rest

/-- The lines of a text. A last line without a line feed counts when it is not empty. -/
def lines (text : List Char) : List (List Char) := linesFrom [] text

variable {line : List Char}

/-- A line without a line feed inside it is read back. -/
theorem linesFrom_append (h : '\n' ∉ line) (cur rest : List Char) :
    linesFrom cur (line ++ '\n' :: rest) = stripReturn (cur ++ line) :: linesFrom [] rest := by
  induction line generalizing cur with
  | nil => simp [linesFrom]
  | cons c line ih =>
    have hc : c ≠ '\n' := fun hc => h (hc ▸ List.mem_cons_self)
    have hline : '\n' ∉ line := fun hl => h (List.mem_cons_of_mem c hl)
    simp [linesFrom, hc, ih hline]

theorem mem_of_mem_stripReturn (h : c ∈ stripReturn line) :
    c ∈ line := by
  unfold stripReturn at h
  split at h
  · exact List.dropLast_subset line h
  · exact h

/-- No line has a line feed. -/
theorem lineFeed_not_mem_linesFrom {cur text : List Char} (hcur : '\n' ∉ cur)
    (h : line ∈ linesFrom cur text) : '\n' ∉ line := by
  induction text generalizing cur with
  | nil =>
    unfold linesFrom at h
    split at h
    · simp at h
    · obtain rfl := List.mem_singleton.mp h
      exact hcur
  | cons c rest ih =>
    unfold linesFrom at h
    split at h
    · rcases List.mem_cons.mp h with rfl | h
      · exact fun hl => hcur (mem_of_mem_stripReturn hl)
      · exact ih List.not_mem_nil h
    · rename_i hc
      refine ih (fun hmem => ?_) h
      rcases List.mem_append.mp hmem with hmem | hmem
      · exact hcur hmem
      · exact hc (List.mem_singleton.mp hmem).symm

/-- A text of whole lines, none with a line feed in it or a carriage return at its end, has these
    lines. -/
theorem lines_flatMap {ls : List (List Char)} (hfeed : ∀ l ∈ ls, '\n' ∉ l)
    (hreturn : ∀ l ∈ ls, l.getLast? ≠ some '\r') : lines (ls.flatMap (· ++ ['\n'])) = ls := by
  unfold lines
  induction ls with
  | nil => rfl
  | cons l ls ih =>
    have ih := ih (fun l' hl' => hfeed l' (List.mem_cons_of_mem l hl'))
      (fun l' hl' => hreturn l' (List.mem_cons_of_mem l hl'))
    rw [List.flatMap_cons, List.append_assoc]
    show linesFrom [] (l ++ '\n' :: ls.flatMap (· ++ ['\n'])) = l :: ls
    simp [linesFrom_append (hfeed l List.mem_cons_self), ih, stripReturn,
      (hreturn l List.mem_cons_self)]

end TeaclaveCrates.Lib
