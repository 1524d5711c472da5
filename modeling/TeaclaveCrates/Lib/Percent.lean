import TeaclaveCrates.Lib.Bytes

namespace TeaclaveCrates.Lib

/-!
# Percent encoding

A byte as a percent sign and two hexadecimal digits. The encoder does so with the bytes of a set, and
the decoder wherever it finds one; if the percent sign is not in the set, they only fit together as
far as the bytes have no escapes of their own.

* `percentEncode`, `percentDecode`;
* `NoEscape` — no percent sign is followed by two digits;
* `percentDecode_eq_self_iff` — such bytes are those that the decoder leaves alone;
* `percentDecode_percentEncode` — encoding changes nothing of what is decoded;
* `PercentEncoding` — the two functions of the `percent_encoding` crate; `PercentEncoding.standard`
  are such functions.
-/

/-- An uppercase digit. -/
def hexDigit (n : Nat) : UInt8 := if n < 10 then .ofNat (n + 48) else .ofNat (n + 55)

/-- The value of a hexadecimal digit, with letters of either case. -/
def hexValue (b : UInt8) : Option Nat :=
  let n := b.toNat
  if 48 ≤ n ∧ n ≤ 57 then some (n - 48)
  else if 65 ≤ n ∧ n ≤ 70 then some (n - 55)
  else if 97 ≤ n ∧ n ≤ 102 then some (n - 87)
  else none

/-- Encode the bytes of a set. -/
def percentEncode (set : UInt8 → Bool) : Bytes → Bytes
  | [] => []
  | b :: bytes =>
    if set b then
      37 :: hexDigit (b.toNat / 16) :: hexDigit (b.toNat % 16) :: percentEncode set bytes
    else
      b :: percentEncode set bytes

/-- The byte that a percent sign and two digits stand for. -/
def unescape (p h l : UInt8) : Option UInt8 :=
  if p = 37 then
    (hexValue h).bind fun h => (hexValue l).map fun l => .ofNat (h * 16 + l)
  else
    none

/-- A percent sign without two digits stays. -/
def percentDecode : Bytes → Bytes
  | p :: h :: l :: rest =>
    match unescape p h l with
    | some b => b :: percentDecode rest
    | none => p :: percentDecode (h :: l :: rest)
  | bytes => bytes

/-- No percent sign is followed by two digits. -/
def NoEscape (bytes : Bytes) : Prop :=
  ∀ front p h l rest, bytes = front ++ p :: h :: l :: rest → unescape p h l = none

variable {set : UInt8 → Bool} {bytes : Bytes}

theorem NoEscape.cons_iff {p h l : UInt8} {rest : Bytes} :
    NoEscape (p :: h :: l :: rest) ↔ unescape p h l = none ∧ NoEscape (h :: l :: rest) := by
  constructor
  · exact fun hno => ⟨hno [] p h l rest rfl, fun front p' h' l' rest' heq =>
      hno (p :: front) p' h' l' rest' (by rw [heq]; rfl)⟩
  · rintro ⟨hnone, hno⟩ front p' h' l' rest' heq
    cases front with
    | nil =>
      cases heq
      exact hnone
    | cons b front => exact hno front p' h' l' rest' (List.cons.inj heq).2

theorem length_percentDecode_le (bytes : Bytes) : (percentDecode bytes).length ≤ bytes.length := by
  fun_induction percentDecode bytes with
  | case1 p h l rest b hsome ih =>
    simp only [List.length_cons]
    omega
  | case2 p h l rest hnone ih =>
    simp only [List.length_cons] at ih ⊢
    omega
  | case3 => exact le_rfl

/-- The decoder leaves alone what has no escapes, and nothing else. -/
theorem percentDecode_eq_self_iff : percentDecode bytes = bytes ↔ NoEscape bytes := by
  fun_induction percentDecode bytes with
  | case1 p h l rest b hsome ih =>
    refine iff_of_false (fun heq => ?_) (fun hno => ?_)
    · have hlen := congrArg List.length heq
      have hle := length_percentDecode_le rest
      simp only [List.length_cons] at hlen
      omega
    · rw [(NoEscape.cons_iff.mp hno).1] at hsome
      cases hsome
  | case2 p h l rest hnone ih =>
    rw [NoEscape.cons_iff, and_iff_right hnone, ← ih, List.cons.injEq, and_iff_right rfl]
  | case3 bytes hshort =>
    refine iff_of_true rfl fun front p h l rest heq => ?_
    have hlen := congrArg List.length heq
    simp only [List.length_append, List.length_cons] at hlen
    rcases bytes with _ | ⟨b₀, _ | ⟨b₁, _ | ⟨b₂, bytes⟩⟩⟩
    · simp at hlen
    · simp only [List.length_cons, List.length_nil] at hlen
      omega
    · simp only [List.length_cons, List.length_nil] at hlen
      omega
    · exact (hshort b₀ b₁ b₂ bytes rfl).elim

/-! ### Encoded bytes -/

theorem hexValue_hexDigit {n : Nat} (hn : n < 16) : hexValue (hexDigit n) = some n := by
  revert n
  decide

theorem unescape_hexDigit (b : UInt8) :
    unescape 37 (hexDigit (b.toNat / 16)) (hexDigit (b.toNat % 16)) = some b := by
  have hb := b.toNat_lt
  have hsplit : b.toNat / 16 * 16 + b.toNat % 16 = b.toNat := by omega
  rw [unescape, if_pos rfl, hexValue_hexDigit (by omega), hexValue_hexDigit (by omega),
    Option.bind_some, Option.map_some, hsplit, UInt8.ofNat_toNat]

/-- A byte that begins no escape stays. -/
theorem percentDecode_cons {p : UInt8}
    (h : ∀ h l rest, bytes = h :: l :: rest → unescape p h l = none) :
    percentDecode (p :: bytes) = p :: percentDecode bytes := by
  rcases bytes with _ | ⟨b₀, _ | ⟨b₁, rest⟩⟩
  · rfl
  · rfl
  · rw [percentDecode, h b₀ b₁ rest rfl]

theorem unescape_none {p h l : UInt8} (hne : p = 37 → hexValue h = none ∨ hexValue l = none) :
    unescape p h l = none := by
  unfold unescape
  split
  · next hp =>
    rcases hne hp with hh | hl
    · rw [hh]
      rfl
    · rw [hl]
      cases hexValue h <;> rfl
  · rfl

/-- The first byte of what is encoded is the same digit as before, or none. -/
theorem percentEncode_head (hset : ∀ b, set b → b ≠ 37 ∧ hexValue b = none) (b : UInt8)
    (bytes : Bytes) :
    (∃ rest, percentEncode set (b :: bytes) = 37 :: rest ∧ hexValue b = none) ∨
      percentEncode set (b :: bytes) = b :: percentEncode set bytes := by
  rw [percentEncode]
  by_cases hb : set b
  · exact .inl ⟨_, if_pos hb, (hset b hb).2⟩
  · exact .inr (if_neg hb)

theorem percentDecode_percentEncode_cons (hset : ∀ b, set b → b ≠ 37 ∧ hexValue b = none) {b : UInt8}
    (h : ∀ h l rest, bytes = h :: l :: rest → unescape b h l = none) :
    percentDecode (percentEncode set (b :: bytes)) =
      b :: percentDecode (percentEncode set bytes) := by
  rw [percentEncode]
  split
  · rw [percentDecode, unescape_hexDigit]
  · refine percentDecode_cons fun h' l' rest' heq => ?_
    -- behind it are the same digits as before, or none
    rcases bytes with _ | ⟨x, bytes⟩
    · cases heq
    · rcases percentEncode_head hset x bytes with ⟨rest, hhead, -⟩ | hhead
      · cases hhead.symm.trans heq
        exact unescape_none fun _ => .inl rfl
      · obtain ⟨rfl, hrest⟩ := List.cons.inj (hhead.symm.trans heq)
        rcases bytes with _ | ⟨y, bytes⟩
        · cases hrest
        · rcases percentEncode_head hset y bytes with ⟨rest, hhead, -⟩ | hhead
          · cases hhead.symm.trans hrest
            exact unescape_none fun _ => .inr rfl
          · obtain ⟨rfl, -⟩ := List.cons.inj (hhead.symm.trans hrest)
            exact h x y bytes rfl

/-- **Encoding** changes nothing of what is decoded, when neither percent signs nor digits are
    encoded. -/
theorem percentDecode_percentEncode (hset : ∀ b, set b → b ≠ 37 ∧ hexValue b = none) :
    percentDecode (percentEncode set bytes) = percentDecode bytes := by
  fun_induction percentDecode bytes with
  | case1 p h l rest b hsome ih =>
    -- an escape is left as it is
    have hp : p = 37 := by
      by_contra hne
      rw [unescape_none fun heq => absurd heq hne] at hsome
      cases hsome
    have hdigits : ¬(hexValue h = none ∨ hexValue l = none) := fun hnone => by
      rw [unescape_none fun _ => hnone] at hsome
      cases hsome
    rw [not_or] at hdigits
    rw [percentEncode, if_neg fun hmem => (hset p hmem).1 hp, percentEncode,
      if_neg fun hmem => hdigits.1 (hset h hmem).2, percentEncode,
      if_neg fun hmem => hdigits.2 (hset l hmem).2, percentDecode, hsome, ← ih]
  | case2 p h l rest hnone ih =>
    rw [percentDecode_percentEncode_cons hset, ih]
    intro h' l' rest' heq
    cases heq
    exact hnone
  | case3 bytes hshort =>
    rcases bytes with _ | ⟨b₀, _ | ⟨b₁, _ | ⟨b₂, bytes⟩⟩⟩
    · rfl
    · rw [percentDecode_percentEncode_cons hset (by simp)]
      rfl
    · rw [percentDecode_percentEncode_cons hset (by simp),
        percentDecode_percentEncode_cons hset (by simp)]
      rfl
    · exact (hshort b₀ b₁ b₂ bytes rfl).elim

/-- What is written are escapes, and bytes that are not in the set. -/
theorem mem_percentEncode {c : UInt8} (h : c ∈ percentEncode set bytes) :
    c = 37 ∨ (hexValue c).isSome ∨ ¬set c := by
  have hdigit : ∀ n < 16, (hexValue (hexDigit n)).isSome := by decide
  induction bytes with
  | nil => cases h
  | cons b bytes ih =>
    have hb := b.toNat_lt
    rw [percentEncode] at h
    split at h
    · simp only [List.mem_cons] at h
      rcases h with rfl | rfl | rfl | h
      · exact .inl rfl
      · exact .inr (.inl (hdigit _ (by omega)))
      · exact .inr (.inl (hdigit _ (by omega)))
      · exact ih h
    · next hset =>
      rcases List.mem_cons.mp h with rfl | h
      · exact .inr (.inr hset)
      · exact ih h

/-! ### The crate -/

/-- `utf8_percent_encode` of the bytes of a set, and `percent_decode`, with what is relied on of
    them. -/
class PercentEncoding where
  encode : (UInt8 → Bool) → Bytes → Bytes
  decode : Bytes → Bytes
  mem_encode : ∀ {set bytes c}, c ∈ encode set bytes → c = 37 ∨ (hexValue c).isSome ∨ ¬set c
  decode_encode : ∀ {set bytes}, (∀ b, set b → b ≠ 37 ∧ hexValue b = none) →
    decode (encode set bytes) = decode bytes
  decode_eq_self_iff : ∀ {bytes}, decode bytes = bytes ↔ NoEscape bytes

/-- The functions above. -/
@[reducible] def PercentEncoding.standard : PercentEncoding where
  encode := percentEncode
  decode := percentDecode
  mem_encode := mem_percentEncode
  decode_encode := percentDecode_percentEncode
  decode_eq_self_iff := percentDecode_eq_self_iff

end TeaclaveCrates.Lib
