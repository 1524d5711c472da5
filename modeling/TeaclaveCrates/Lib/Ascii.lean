import TeaclaveCrates.Lib.Text
import TeaclaveCrates.Lib.Bytes

namespace TeaclaveCrates.Lib

/-!
# Text in byte strings

* `decodeUtf8` — the characters of a byte string, with a mark for what is no UTF-8; with
  `fromUtf8Lossy`.
* `fromUtf8`, `utf8Bytes` — a string and its bytes; `fromUtf8_eq_ok_iff`, they fit together.
* `asciiBytes` — the bytes of a text of ASCII characters; `decodeUtf8_asciiBytes` reads it back.
* `splitWhitespace` — the words of a text.
* `decimal`, `parseUnsigned` — a number as text; `parseUnsigned_decimal` reads it back;
  `IsNumber` — what can be read.
-/

/-! ### UTF-8 -/

/-- The number of bytes that follow a first byte, and what the first of them may be. -/
def trailing (b : Nat) : Nat × Nat × Nat :=
  if 0xC2 ≤ b ∧ b ≤ 0xDF then (1, 0x80, 0xBF)
  else if b = 0xE0 then (2, 0xA0, 0xBF)
  else if b = 0xED then (2, 0x80, 0x9F)
  else if 0xE1 ≤ b ∧ b ≤ 0xEF then (2, 0x80, 0xBF)
  else if b = 0xF0 then (3, 0x90, 0xBF)
  else if 0xF1 ≤ b ∧ b ≤ 0xF3 then (3, 0x80, 0xBF)
  else if b = 0xF4 then (3, 0x80, 0x8F)
  else (0, 0x80, 0xBF)

/-- How many of the following bytes are there. -/
def continues : Nat → Nat → Nat → Bytes → Nat
  | 0, _, _, _ => 0
  | _ + 1, _, _, [] => 0
  | n + 1, lo, hi, c :: rest =>
    if lo ≤ c.toNat ∧ c.toNat ≤ hi then continues n 0x80 0xBF rest + 1 else 0

/-- The number that a first byte with `n` following ones spells. -/
def codePoint (b n : Nat) (following : Bytes) : Nat :=
  following.foldl (fun v c => v * 64 + c.toNat % 64) (b % 2 ^ (6 - n))

/-- The characters of a byte string. A part that is no UTF-8, as long as it starts like a character,
    is one `none`. -/
def decodeUtf8Fuel : Nat → Bytes → List (Option Char)
  | 0, _ => []
  | _ + 1, [] => []
  | fuel + 1, b :: rest =>
    if b.toNat < 0x80 then some (Char.ofNat b.toNat) :: decodeUtf8Fuel fuel rest
    else
      let (n, lo, hi) := trailing b.toNat
      let k := continues n lo hi rest
      (if 0 < n ∧ k = n then some (Char.ofNat (codePoint b.toNat n (rest.take n))) else none) ::
        decodeUtf8Fuel fuel (rest.drop k)

def decodeUtf8 (bytes : Bytes) : List (Option Char) := decodeUtf8Fuel bytes.length bytes

/-- The text with a replacement character for what is no UTF-8. -/
def fromUtf8Lossy (bytes : Bytes) : List Char :=
  (decodeUtf8 bytes).map fun c => c.getD (Char.ofNat 0xFFFD)

/-- Where bytes are no UTF-8 any more, and the length of the part that is wrong, unless they only end
    inside of a character. -/
structure Utf8Error where
  validUpTo : Nat
  errorLen : Option Nat
  deriving DecidableEq, Repr

def Utf8Error.display (err : Utf8Error) : String :=
  match err.errorLen with
  | some len => "invalid utf-8 sequence of " ++ toString len ++ " bytes from index " ++
      toString err.validUpTo
  | none => "incomplete utf-8 byte sequence from index " ++ toString err.validUpTo

/-- The first part that is no UTF-8; the end of the bytes if there is none. -/
def utf8ErrorFuel : Nat → Nat → Bytes → Utf8Error
  | 0, index, _ => ⟨index, none⟩
  | _ + 1, index, [] => ⟨index, none⟩
  | fuel + 1, index, b :: rest =>
    if b.toNat < 0x80 then utf8ErrorFuel fuel (index + 1) rest
    else
      let (n, lo, hi) := trailing b.toNat
      let k := continues n lo hi rest
      if 0 < n ∧ k = n then utf8ErrorFuel fuel (index + 1 + k) (rest.drop k)
      else ⟨index, if 0 < n ∧ k = rest.length then none else some (k + 1)⟩

/-- The bytes of a string. -/
def utf8Bytes (s : String) : Bytes := s.toByteArray.data.toList

/-- The string of the bytes. -/
def fromUtf8 (bytes : Bytes) : Except Utf8Error String :=
  match String.fromUTF8? ⟨bytes.toArray⟩ with
  | some s => .ok s
  | none => .error (utf8ErrorFuel bytes.length 0 bytes)

theorem utf8Bytes_append (s t : String) : utf8Bytes (s ++ t) = utf8Bytes s ++ utf8Bytes t := by
  simp [utf8Bytes]

theorem fromUtf8_eq_ok_iff {bytes : Bytes} {s : String} :
    fromUtf8 bytes = .ok s ↔ utf8Bytes s = bytes := by
  unfold fromUtf8 String.fromUTF8? utf8Bytes
  constructor
  · intro h
    split at h
    · next heq =>
      cases h
      split at heq
      · cases heq
        rfl
      · cases heq
    · cases h
  · rintro rfl
    have hvalid : (⟨s.toByteArray.data.toList.toArray⟩ : ByteArray).IsValidUTF8 := s.isValidUTF8
    rw [dif_pos hvalid]
    rfl

/-! ### ASCII -/

/-- The bytes of a text of ASCII characters. -/
def asciiBytes (s : List Char) : Bytes := s.map fun c => UInt8.ofNat c.toNat

/-- All characters are ASCII. -/
def Ascii (s : List Char) : Prop := ∀ c ∈ s, c.toNat < 128

/-- A test of all elements of a list. -/
theorem forall_of_all {α : Type} {P : α → Prop} [DecidablePred P] {l : List α}
    (h : (l.all fun x => decide (P x)) = true) : ∀ x ∈ l, P x := by
  simpa using h

variable {s : List Char}

theorem ascii_append {t : List Char} : Ascii (s ++ t) ↔ Ascii s ∧ Ascii t := by
  simp [Ascii, or_imp, forall_and]

variable {c : Char}

theorem ascii_cons : Ascii (c :: s) ↔ c.toNat < 128 ∧ Ascii s := by
  simp [Ascii, or_imp, forall_and, forall_eq]

theorem asciiBytes_append (s t : List Char) : asciiBytes (s ++ t) = asciiBytes s ++ asciiBytes t :=
  List.map_append

theorem toNat_asciiByte (h : c.toNat < 128) : (UInt8.ofNat c.toNat).toNat = c.toNat := by
  rw [UInt8.toNat_ofNat']
  omega

theorem mem_asciiBytes (h : Ascii s) {b : UInt8} (hb : b ∈ asciiBytes s) :
    ∃ c ∈ s, b = UInt8.ofNat c.toNat ∧ b.toNat = c.toNat := by
  obtain ⟨c, hc, rfl⟩ := List.mem_map.mp hb
  exact ⟨c, hc, rfl, toNat_asciiByte (h c hc)⟩

/-- Text of ASCII characters is read back. -/
theorem decodeUtf8_asciiBytes (h : Ascii s) :
    decodeUtf8 (asciiBytes s) = s.map some := by
  unfold decodeUtf8
  have hlen : (asciiBytes s).length = s.length := List.length_map _
  rw [hlen]
  clear hlen
  induction s with
  | nil => rfl
  | cons c s ih =>
    obtain ⟨hc, hs⟩ := ascii_cons.mp h
    have hbyte := toNat_asciiByte hc
    show decodeUtf8Fuel (s.length + 1) (UInt8.ofNat c.toNat :: asciiBytes s) = _
    simp [decodeUtf8Fuel, hbyte, hc, ih hs]

theorem fromUtf8Lossy_asciiBytes (h : Ascii s) :
    fromUtf8Lossy (asciiBytes s) = s := by
  unfold fromUtf8Lossy
  rw [decodeUtf8_asciiBytes h, List.map_map]
  exact List.map_id s

theorem utf8Bytes_ofList (h : Ascii s) :
    utf8Bytes (String.ofList s) = asciiBytes s := by
  have hchars : s.flatMap String.utf8EncodeChar = asciiBytes s := by
    induction s with
    | nil => rfl
    | cons c s ih =>
      obtain ⟨hc, hs⟩ := ascii_cons.mp h
      have hchar : String.utf8EncodeChar c = [UInt8.ofNat c.toNat] := by
        have hle : c.val.toNat ≤ 127 := Nat.le_of_lt_succ hc
        unfold String.utf8EncodeChar
        exact if_pos hle
      rw [List.flatMap_cons, hchar, ih hs]
      rfl
  rw [utf8Bytes, String.toByteArray_ofList, List.utf8Encode, hchars]
  simp

/-! ### Words -/

/-- The words of a text: what is between whitespace. -/
def splitWhitespace (s : List Char) : List (List Char) :=
  (s.splitOnP isWhitespace).filter fun word => !word.isEmpty

/-- A word is not empty and has no whitespace. -/
def IsWord (s : List Char) : Prop := s ≠ [] ∧ ∀ c ∈ s, isWhitespace c = false

theorem splitWhitespace_word {word : List Char} (h : IsWord word) :
    splitWhitespace word = [word] := by
  simp [splitWhitespace, List.splitOnP_eq_singleton h.2, h.1]

/-- The first word, with the space behind it. -/
theorem splitWhitespace_cons {word : List Char} (h : IsWord word) {space : Char}
    (hspace : isWhitespace space = true) (rest : List Char) :
    splitWhitespace (word ++ space :: rest) = word :: splitWhitespace rest := by
  simp [splitWhitespace, List.splitOnP_append_cons_of_forall_mem h.2 space hspace, h.1]

/-! ### Numbers -/

/-- A number in decimal digits. -/
def decimal (n : Nat) : List Char := Nat.toDigits 10 n

/-- What is wrong with a text that is to be a number. -/
inductive ParseIntError
  | empty
  | invalidDigit
  | posOverflow
  deriving DecidableEq, Repr

/-- The value of a digit. -/
def toDigit (c : Char) : Option Nat := if c.isDigit then some (c.toNat - 48) else none

/-- The digits of a number below `bound`, behind those that spell `value`. -/
def parseDigits (bound : Nat) : Nat → List Char → Except ParseIntError Nat
  | value, [] => .ok value
  | value, c :: rest =>
    match toDigit c with
    | none => .error .invalidDigit
    | some d =>
      if value * 10 + d < bound then parseDigits bound (value * 10 + d) rest
      else .error .posOverflow

/-- A number below `bound`, perhaps behind a plus sign. -/
def parseUnsigned (bound : Nat) (s : List Char) : Except ParseIntError Nat :=
  match s with
  | [] => .error .empty
  | ['+'] | ['-'] => .error .invalidDigit
  | '+' :: rest => parseDigits bound 0 rest
  | _ => parseDigits bound 0 s

variable {n : Nat}

theorem isDigit_of_mem_decimal (h : c ∈ decimal n) : c.isDigit = true :=
  Nat.isDigit_of_mem_toDigits (by decide) (by decide) h

theorem toNat_of_isDigit (h : c.isDigit = true) : 48 ≤ c.toNat ∧ c.toNat ≤ 57 := by
  have hd : 48 ≤ c.val ∧ c.val ≤ 57 := by simpa [Char.isDigit] using h
  exact ⟨UInt32.le_iff_toNat_le.mp hd.1, UInt32.le_iff_toNat_le.mp hd.2⟩

theorem ascii_decimal (n : Nat) : Ascii (decimal n) := by
  intro c hc
  have hdigit := toNat_of_isDigit (isDigit_of_mem_decimal hc)
  omega

theorem isWord_decimal (n : Nat) : IsWord (decimal n) := by
  refine ⟨Nat.toDigits_ne_nil, fun c hc => ?_⟩
  have hdigit := toNat_of_isDigit (isDigit_of_mem_decimal hc)
  unfold isWhitespace
  rw [decide_eq_false_iff_not]
  omega

variable {bound : Nat}

/-- The digits of a part of a number. -/
theorem parseDigits_append {v w : Nat} (h : parseDigits bound v s = .ok w) (rest : List Char) :
    parseDigits bound v (s ++ rest) = parseDigits bound w rest := by
  induction s generalizing v with
  | nil =>
    rw [parseDigits, Except.ok.injEq] at h
    rw [h, List.nil_append]
  | cons c s ih =>
    rw [parseDigits] at h
    rw [List.cons_append, parseDigits]
    cases hd : toDigit c with
    | none =>
      rw [hd] at h
      exact absurd h (by simp)
    | some d =>
      rw [hd] at h
      dsimp only at h ⊢
      split_ifs at h with hlt
      · simp [hlt, ih h]

theorem toDigit_digitChar {d : Nat} (h : d < 10) : toDigit d.digitChar = some d := by
  have hcases : ∀ d < 10, toDigit d.digitChar = some d := by decide
  exact hcases d h

theorem parseDigits_decimal (h : n < bound) :
    parseDigits bound 0 (decimal n) = .ok n := by
  induction n using Nat.strong_induction_on with
  | _ n ih =>
    unfold decimal
    rw [Nat.toDigits_eq_if (by omega)]
    split_ifs with hten
    · rw [parseDigits, toDigit_digitChar hten]
      dsimp only
      rw [if_pos (by omega), parseDigits, Nat.zero_mul, Nat.zero_add]
    · have hfront := ih (n / 10) (by omega) (by omega)
      unfold decimal at hfront
      rw [parseDigits_append hfront, parseDigits, toDigit_digitChar (Nat.mod_lt n (by omega))]
      dsimp only
      rw [if_pos (by omega), parseDigits]
      congr 1
      omega

/-- Digits are read as a number when there is room for all that are as many. -/
theorem parseDigits_of_isDigit {v : Nat} (hs : ∀ c ∈ s, c.isDigit)
    (h : (v + 1) * 10 ^ s.length ≤ bound) :
    ∃ n, parseDigits bound v s = .ok n ∧ n < (v + 1) * 10 ^ s.length := by
  induction s generalizing v with
  | nil => exact ⟨v, rfl, by simp⟩
  | cons c s ih =>
    have hc := hs c (List.mem_cons_self ..)
    have hd := toNat_of_isDigit hc
    rw [List.length_cons, pow_succ'] at h ⊢
    have hpos : 0 < 10 ^ s.length := Nat.pow_pos (by decide)
    have hle : (v * 10 + (c.toNat - 48) + 1) * 10 ^ s.length ≤ (v + 1) * (10 * 10 ^ s.length) := by
      rw [← Nat.mul_assoc]
      exact Nat.mul_le_mul_right _ (by omega)
    obtain ⟨n, hn, hlt⟩ := ih (fun x hx => hs x (List.mem_cons_of_mem _ hx)) (hle.trans h)
    refine ⟨n, ?_, hlt.trans_le hle⟩
    rw [parseDigits, toDigit, if_pos hc]
    dsimp only
    rw [if_pos, hn]
    have := Nat.le_mul_of_pos_right (v * 10 + (c.toNat - 48) + 1) hpos
    omega

theorem isDigit_of_parseDigits {v : Nat} (h : parseDigits bound v s = .ok n) :
    ∀ c ∈ s, c.isDigit := by
  induction s generalizing v with
  | nil => simp
  | cons c s ih =>
    rw [parseDigits, toDigit] at h
    by_cases hc : c.isDigit
    · rw [if_pos hc] at h
      dsimp only at h
      split_ifs at h
      exact List.forall_mem_cons.mpr ⟨hc, ih h⟩
    · rw [if_neg hc] at h
      cases h

/-- What can be read as a number: digits, perhaps behind a plus sign. -/
def IsNumber (s : List Char) : Prop :=
  (s ≠ [] ∧ ∀ c ∈ s, c.isDigit) ∨ ∃ t, s = '+' :: t ∧ t ≠ [] ∧ ∀ c ∈ t, c.isDigit

theorem isNumber_of_parseUnsigned (h : parseUnsigned bound s = .ok n) : IsNumber s := by
  unfold parseUnsigned at h
  split at h
  · cases h
  · cases h
  · cases h
  · next rest hne =>
    refine Or.inr ⟨rest, rfl, ?_, isDigit_of_parseDigits h⟩
    rintro rfl
    exact hne rfl
  · next hne _ _ _ => exact Or.inl ⟨hne, isDigit_of_parseDigits h⟩

/-- Without a sign the digits are read as they are. -/
theorem parseUnsigned_of_isDigit (hne : s ≠ []) (hs : ∀ c ∈ s, c.isDigit) :
    parseUnsigned bound s = parseDigits bound 0 s := by
  unfold parseUnsigned
  split
  · exact absurd rfl hne
  · exact absurd (hs '+' (List.mem_cons_self ..)) (by decide)
  · exact absurd (hs '-' (List.mem_cons_self ..)) (by decide)
  · exact absurd (hs '+' (List.mem_cons_self ..)) (by decide)
  · rfl

theorem IsNumber.parseUnsigned (h : IsNumber s) (hbound : 10 ^ s.length ≤ bound) :
    ∃ n, parseUnsigned bound s = .ok n ∧ n < 10 ^ s.length := by
  rcases h with ⟨hne, hs⟩ | ⟨t, rfl, hne, ht⟩
  · obtain ⟨n, hn, hlt⟩ := parseDigits_of_isDigit (v := 0) hs (by simpa using hbound)
    exact ⟨n, by rw [parseUnsigned_of_isDigit hne hs, hn], by simpa using hlt⟩
  · have hle : 10 ^ t.length ≤ 10 ^ ('+' :: t).length :=
      Nat.pow_le_pow_right (by decide) (by simp)
    have hroom : (0 + 1) * 10 ^ t.length ≤ bound := by omega
    obtain ⟨n, hn, hlt⟩ := parseDigits_of_isDigit ht hroom
    refine ⟨n, ?_, by omega⟩
    obtain ⟨c, t, rfl⟩ := List.exists_cons_of_ne_nil hne
    exact hn

/-- **A number in decimal digits is read back.** -/
theorem parseUnsigned_decimal (h : n < bound) :
    parseUnsigned bound (decimal n) = .ok n := by
  have hne : decimal n ≠ [] := Nat.toDigits_ne_nil
  rw [parseUnsigned_of_isDigit hne fun c hc => isDigit_of_mem_decimal hc, parseDigits_decimal h]

end TeaclaveCrates.Lib
