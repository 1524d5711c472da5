import TeaclaveCrates.Lib.Bytes

namespace TeaclaveCrates.Lib

/-!
# Base64

Three bytes as four symbols, over any alphabet. At the end one byte is two symbols and two are
three, with or without padding.

* `Alphabet` — the symbols, the padding, and how to read a symbol;
* `encode`, `decode` — the decoder takes the padding or does without it, but no bits that are left
  over;
* `decode_encode` — what was encoded is decoded again;
* `decode_append` — padding ends a string: what is decoded in front of other symbols are whole
  groups;
* `Base64` — an engine of the `base64` crate; `Base64.standard` is one.
-/

/-- The symbols of the numbers below 64. -/
structure Alphabet where
  symbol : Nat → UInt8
  value : UInt8 → Option Nat
  pad : UInt8
  value_symbol : ∀ n < 64, value (symbol n) = some n
  value_pad : value pad = none

namespace Alphabet

variable (a : Alphabet)

/-- The padding behind a last group that is not full. -/
def padding (padded : Bool) (n : Nat) : Bytes := if padded then List.replicate n a.pad else []

/-- Three bytes to four symbols. -/
def encode (padded : Bool) : Bytes → Bytes
  | [] => []
  | [x] => a.symbol (x.toNat / 4) :: a.symbol (x.toNat % 4 * 16) :: a.padding padded 2
  | [x, y] => a.symbol (x.toNat / 4) :: a.symbol (x.toNat % 4 * 16 + y.toNat / 16) ::
      a.symbol (y.toNat % 16 * 4) :: a.padding padded 1
  | x :: y :: z :: rest => a.symbol (x.toNat / 4) :: a.symbol (x.toNat % 4 * 16 + y.toNat / 16) ::
      a.symbol (y.toNat % 16 * 4 + z.toNat / 64) :: a.symbol (z.toNat % 64) :: encode padded rest

/-- Two symbols, of which the last has four bits too many. -/
def decodeTwo (c₀ c₁ : UInt8) : Option Bytes := do
  let n₀ ← a.value c₀
  let n₁ ← a.value c₁
  if n₁ % 16 = 0 then some [.ofNat (n₀ * 4 + n₁ / 16)] else none

/-- Three symbols, of which the last has two bits too many. -/
def decodeThree (c₀ c₁ c₂ : UInt8) : Option Bytes := do
  let n₀ ← a.value c₀
  let n₁ ← a.value c₁
  let n₂ ← a.value c₂
  if n₂ % 4 = 0 then some [.ofNat (n₀ * 4 + n₁ / 16), .ofNat (n₁ % 16 * 16 + n₂ / 4)] else none

/-- Four symbols to three bytes. -/
def decodeFour (c₀ c₁ c₂ c₃ : UInt8) : Option Bytes := do
  let n₀ ← a.value c₀
  let n₁ ← a.value c₁
  let n₂ ← a.value c₂
  let n₃ ← a.value c₃
  some [.ofNat (n₀ * 4 + n₁ / 16), .ofNat (n₁ % 16 * 16 + n₂ / 4), .ofNat (n₂ % 4 * 64 + n₃)]

/-- The last group: at least two symbols, and padding up to four. -/
def decodeLast : Bytes → Option Bytes
  | [c₀, c₁] => a.decodeTwo c₀ c₁
  | [c₀, c₁, c₂] => if c₂ = a.pad then a.decodeTwo c₀ c₁ else a.decodeThree c₀ c₁ c₂
  | [c₀, c₁, c₂, c₃] =>
    if c₃ = a.pad then
      if c₂ = a.pad then a.decodeTwo c₀ c₁ else a.decodeThree c₀ c₁ c₂
    else
      a.decodeFour c₀ c₁ c₂ c₃
  | _ => none

/-- Only the last group may be short or padded. -/
def decode : Bytes → Option Bytes
  | [] => some []
  | c₀ :: c₁ :: c₂ :: c₃ :: c₄ :: rest => do
    let bytes ← a.decodeFour c₀ c₁ c₂ c₃
    let more ← decode (c₄ :: rest)
    some (bytes ++ more)
  | last => a.decodeLast last

/-- Full groups and nothing else. -/
def decodeGroups : Bytes → Option Bytes
  | [] => some []
  | c₀ :: c₁ :: c₂ :: c₃ :: rest => do
    let bytes ← a.decodeFour c₀ c₁ c₂ c₃
    let more ← decodeGroups rest
    some (bytes ++ more)
  | _ => none

variable {a} {padded : Bool} {bytes : Bytes}

/-! ### Encoded bytes -/

theorem symbol_ne_pad {n : Nat} (hn : n < 64) : a.symbol n ≠ a.pad := fun h => by
  have hvalue := a.value_symbol n hn
  rw [h, a.value_pad] at hvalue
  cases hvalue

theorem ofNat_eq {b : UInt8} {n : Nat} (h : n = b.toNat) : UInt8.ofNat n = b := by
  rw [h, UInt8.ofNat_toNat]

/-- A full group in front is decoded on its own. -/
theorem decode_four {c₀ c₁ c₂ c₃ : UInt8} (rest : Bytes)
    (h : a.decodeFour c₀ c₁ c₂ c₃ = some bytes) :
    a.decode (c₀ :: c₁ :: c₂ :: c₃ :: rest) = (a.decode rest).map (bytes ++ ·) := by
  cases rest with
  | nil =>
    have hpad : c₃ ≠ a.pad := by
      rintro rfl
      simp [decodeFour, a.value_pad] at h
    simp [decode, decodeLast, hpad, h]
  | cons c₄ rest =>
    -- it is not the last group, which alone may have padding
    simp only [decode, h, Option.bind_eq_bind, Option.bind_some]
    cases a.decode (c₄ :: rest) <;> rfl

theorem decodeFour_symbols (x y z : UInt8) :
    a.decodeFour (a.symbol (x.toNat / 4)) (a.symbol (x.toNat % 4 * 16 + y.toNat / 16))
      (a.symbol (y.toNat % 16 * 4 + z.toNat / 64)) (a.symbol (z.toNat % 64)) = some [x, y, z] := by
  have hx := x.toNat_lt
  have hy := y.toNat_lt
  have hz := z.toNat_lt
  simp only [decodeFour, a.value_symbol (x.toNat / 4) (by omega),
    a.value_symbol (x.toNat % 4 * 16 + y.toNat / 16) (by omega),
    a.value_symbol (y.toNat % 16 * 4 + z.toNat / 64) (by omega),
    a.value_symbol (z.toNat % 64) (by omega), Option.bind_eq_bind, Option.bind_some]
  rw [ofNat_eq (b := x) (by omega), ofNat_eq (b := y) (by omega), ofNat_eq (b := z) (by omega)]

theorem decode_encode (padded : Bool) (bytes : Bytes) :
    a.decode (a.encode padded bytes) = some bytes := by
  fun_induction encode a padded bytes with
  | case1 => rfl
  | case2 x =>
    have hx := x.toNat_lt
    have h₀ := a.value_symbol (x.toNat / 4) (by omega)
    have h₁ := a.value_symbol (x.toNat % 4 * 16) (by omega)
    have htwo : a.decodeTwo (a.symbol (x.toNat / 4)) (a.symbol (x.toNat % 4 * 16)) = some [x] := by
      simp only [decodeTwo, h₀, h₁, Option.bind_eq_bind, Option.bind_some]
      rw [if_pos (by omega), ofNat_eq (b := x) (by omega)]
    cases padded
    · simpa [padding, decode, decodeLast] using htwo
    · simpa [padding, decode, decodeLast, List.replicate] using htwo
  | case3 x y =>
    have hx := x.toNat_lt
    have hy := y.toNat_lt
    have h₀ := a.value_symbol (x.toNat / 4) (by omega)
    have h₁ := a.value_symbol (x.toNat % 4 * 16 + y.toNat / 16) (by omega)
    have h₂ := a.value_symbol (y.toNat % 16 * 4) (by omega)
    have hpad := symbol_ne_pad (a := a) (n := y.toNat % 16 * 4) (by omega)
    have hthree : a.decodeThree (a.symbol (x.toNat / 4)) (a.symbol (x.toNat % 4 * 16 + y.toNat / 16))
        (a.symbol (y.toNat % 16 * 4)) = some [x, y] := by
      simp only [decodeThree, h₀, h₁, h₂, Option.bind_eq_bind, Option.bind_some]
      rw [if_pos (by omega), ofNat_eq (b := x) (by omega), ofNat_eq (b := y) (by omega)]
    cases padded
    · simpa [padding, decode, decodeLast, hpad] using hthree
    · simpa [padding, decode, decodeLast, hpad, List.replicate] using hthree
  | case4 x y z rest ih =>
    rw [decode_four _ (decodeFour_symbols x y z), ih]
    rfl

/-- What is written are symbols and padding. -/
theorem mem_encode {c : UInt8} (h : c ∈ a.encode padded bytes) :
    c = a.pad ∨ ∃ n < 64, c = a.symbol n := by
  have hpadding : ∀ {n}, c ∈ a.padding padded n → c = a.pad := by
    intro n hc
    unfold padding at hc
    split at hc
    · exact List.eq_of_mem_replicate hc
    · cases hc
  fun_induction encode a padded bytes with
  | case1 => cases h
  | case2 x =>
    have hx := x.toNat_lt
    simp only [List.mem_cons] at h
    rcases h with rfl | rfl | h
    · exact .inr ⟨_, by omega, rfl⟩
    · exact .inr ⟨_, by omega, rfl⟩
    · exact .inl (hpadding h)
  | case3 x y =>
    have hx := x.toNat_lt
    have hy := y.toNat_lt
    simp only [List.mem_cons] at h
    rcases h with rfl | rfl | rfl | h
    · exact .inr ⟨_, by omega, rfl⟩
    · exact .inr ⟨_, by omega, rfl⟩
    · exact .inr ⟨_, by omega, rfl⟩
    · exact .inl (hpadding h)
  | case4 x y z rest ih =>
    have hx := x.toNat_lt
    have hy := y.toNat_lt
    have hz := z.toNat_lt
    simp only [List.mem_cons] at h
    rcases h with rfl | rfl | rfl | rfl | h
    · exact .inr ⟨_, by omega, rfl⟩
    · exact .inr ⟨_, by omega, rfl⟩
    · exact .inr ⟨_, by omega, rfl⟩
    · exact .inr ⟨_, by omega, rfl⟩
    · exact ih h

/-- With padding the groups are full ones. -/
theorem length_encode_mod (bytes : Bytes) : (a.encode true bytes).length % 4 = 0 := by
  fun_induction encode a true bytes with
  | case1 => rfl
  | case2 x => simp [padding]
  | case3 x y => simp [padding]
  | case4 x y z rest ih =>
    simp only [List.length_cons]
    omega

@[simp] theorem encode_eq_nil : a.encode padded bytes = [] ↔ bytes = [] := by
  fun_cases encode a padded bytes <;> simp

/-! ### Strings one after the other -/

theorem decode_of_groups {u : Bytes} (v : Bytes) (h : a.decodeGroups u = some bytes) :
    a.decode (u ++ v) = (a.decode v).map (bytes ++ ·) := by
  fun_induction decodeGroups a u generalizing bytes with
  | case1 =>
    cases h
    simp
  | case2 c₀ c₁ c₂ c₃ rest ih =>
    simp only [Option.bind_eq_bind, Option.bind_eq_some_iff, Option.some.injEq] at h
    obtain ⟨b, hfour, more, hmore, rfl⟩ := h
    rw [List.cons_append, List.cons_append, List.cons_append, List.cons_append,
      decode_four _ hfour, ih hmore, Option.map_map]
    simp [Function.comp_def]
  | case3 => cases h

/-- In front of other symbols only full groups are decoded. -/
theorem decode_append_groups {u v : Bytes} (hu : u.length % 4 = 0) (hv : v ≠ []) :
    a.decode (u ++ v) = (a.decodeGroups u).bind fun bytes => (a.decode v).map (bytes ++ ·) := by
  cases hgroups : a.decodeGroups u with
  | some bytes => exact decode_of_groups v hgroups
  | none =>
    fun_induction decodeGroups a u with
    | case1 => cases hgroups
    | case2 c₀ c₁ c₂ c₃ rest ih =>
      obtain ⟨c₄, more, hmore⟩ :=
        List.exists_cons_of_ne_nil (List.append_ne_nil_of_right_ne_nil rest hv)
      have hrest : rest.length % 4 = 0 := by
        simp only [List.length_cons] at hu
        omega
      simp only [List.cons_append, hmore, decode, Option.bind_eq_bind]
      cases hfour : a.decodeFour c₀ c₁ c₂ c₃ with
      | none => rfl
      | some bytes =>
        have hnone : a.decodeGroups rest = none := by
          cases hmore : a.decodeGroups rest with
          | none => rfl
          | some more => simp [hfour, hmore] at hgroups
        rw [← hmore, ih hrest hnone]
        rfl
    | case3 u hnil hcons =>
      -- the length leaves no group that is not full
      exfalso
      rcases u with _ | ⟨c₀, _ | ⟨c₁, _ | ⟨c₂, _ | ⟨c₃, rest⟩⟩⟩⟩
      · exact hnil rfl
      · simp at hu
      · simp at hu
      · simp at hu
      · exact hcons _ _ _ _ _ rfl

theorem decodeFour_of_pad {c₀ c₁ c₂ c₃ : UInt8} (h : a.pad ∈ [c₀, c₁, c₂, c₃]) :
    a.decodeFour c₀ c₁ c₂ c₃ = none := by
  by_contra hsome
  obtain ⟨bytes, hbytes⟩ := Option.ne_none_iff_exists'.mp hsome
  simp only [decodeFour, Option.bind_eq_bind, Option.bind_eq_some_iff] at hbytes
  obtain ⟨n₀, h₀, n₁, h₁, n₂, h₂, n₃, h₃, -⟩ := hbytes
  simp only [List.mem_cons, List.not_mem_nil, or_false] at h
  have hpad := a.value_pad
  rcases h with h | h | h | h <;> simp_all

/-- Without padding, groups are decoded as a string of its own is. -/
theorem decodeGroups_eq {u : Bytes} (hu : u.length % 4 = 0) :
    a.decodeGroups u = if a.pad ∈ u then none else a.decode u := by
  fun_induction decodeGroups a u with
  | case1 => rfl
  | case2 c₀ c₁ c₂ c₃ rest ih =>
    have hrest : rest.length % 4 = 0 := by
      simp only [List.length_cons] at hu
      omega
    rw [ih hrest]
    have hmem : a.pad ∈ c₀ :: c₁ :: c₂ :: c₃ :: rest ↔ a.pad ∈ [c₀, c₁, c₂, c₃] ∨ a.pad ∈ rest := by
      rw [← List.mem_append]
      rfl
    by_cases hfour : a.pad ∈ [c₀, c₁, c₂, c₃]
    · rw [decodeFour_of_pad hfour, if_pos (hmem.mpr (.inl hfour))]
      rfl
    · simp only [hmem, or_iff_right hfour]
      cases hdecode : a.decodeFour c₀ c₁ c₂ c₃ with
      | some bytes =>
        rw [decode_four rest hdecode]
        split
        · rfl
        · cases a.decode rest <;> rfl
      | none =>
        have hlast : c₃ ≠ a.pad := fun h => hfour (by simp [h])
        cases rest with
        | nil => simp [decode, decodeLast, hlast, hdecode]
        | cons c₄ rest => simp [decode, hdecode]
  | case3 u hnil hcons =>
    -- the length leaves no group that is not full
    exfalso
    rcases u with _ | ⟨c₀, _ | ⟨c₁, _ | ⟨c₂, _ | ⟨c₃, rest⟩⟩⟩⟩
    · exact hnil rfl
    · simp at hu
    · simp at hu
    · simp at hu
    · exact hcons _ _ _ _ _ rfl

/-- Padding ends a string, and what is in front of other symbols is decoded on its own. -/
theorem decode_append {u v : Bytes} (hu : u.length % 4 = 0) (hv : v ≠ []) :
    a.decode (u ++ v) = if a.pad ∈ u then none else
      (a.decode u).bind fun bytes => (a.decode v).map (bytes ++ ·) := by
  rw [decode_append_groups hu hv, decodeGroups_eq hu]
  split <;> rfl

/-- The last group has padding unless the string is one of threes. -/
theorem pad_mem_encode (bytes : Bytes) : a.pad ∈ a.encode true bytes ↔ bytes.length % 3 ≠ 0 := by
  fun_induction encode a true bytes with
  | case1 => simp
  | case2 x => simp [padding]
  | case3 x y => simp [padding]
  | case4 x y z rest ih =>
    have hx := x.toNat_lt
    have hy := y.toNat_lt
    have hz := z.toNat_lt
    have hsymbol : ∀ n < 64, a.pad ≠ a.symbol n := fun n hn => (symbol_ne_pad hn).symm
    have hlen : (x :: y :: z :: rest).length % 3 = rest.length % 3 := by
      simp only [List.length_cons]
      omega
    rw [hlen, ← ih]
    simp only [List.mem_cons]
    rw [or_iff_right (hsymbol _ (by omega)), or_iff_right (hsymbol _ (by omega)),
      or_iff_right (hsymbol _ (by omega)), or_iff_right (hsymbol _ (by omega))]

/-- A group stands for one byte at least. -/
theorem decode_ne_nil {w : Bytes} (hw : w ≠ []) : a.decode w ≠ some [] := by
  have htwo : ∀ c₀ c₁, a.decodeTwo c₀ c₁ ≠ some [] := fun c₀ c₁ => by
    simp [decodeTwo, Option.bind_eq_some_iff]
  have hthree : ∀ c₀ c₁ c₂, a.decodeThree c₀ c₁ c₂ ≠ some [] := fun c₀ c₁ c₂ => by
    simp [decodeThree, Option.bind_eq_some_iff]
  have hfour : ∀ c₀ c₁ c₂ c₃, a.decodeFour c₀ c₁ c₂ c₃ ≠ some [] := fun c₀ c₁ c₂ c₃ => by
    simp [decodeFour, Option.bind_eq_some_iff]
  fun_cases decode a w with
  | case1 => exact absurd rfl hw
  | case2 c₀ c₁ c₂ c₃ c₄ rest =>
    simp only [Option.bind_eq_bind, ne_eq, Option.bind_eq_some_iff, not_exists, not_and]
    intro bytes hbytes more _ hnil
    rw [Option.some.injEq, List.append_eq_nil_iff] at hnil
    exact hfour _ _ _ _ (hbytes.trans (by rw [hnil.1]))
  | case3 =>
    unfold decodeLast
    split
    · exact htwo _ _
    · split
      · exact htwo _ _
      · exact hthree _ _ _
    · split
      · split
        · exact htwo _ _
        · exact hthree _ _ _
      · exact hfour _ _ _ _
    · simp

/-- The standard alphabet: `A` to `Z`, `a` to `z`, `0` to `9`, `+` and `/`. -/
def standard : Alphabet where
  symbol n :=
    if n < 26 then .ofNat (n + 65)
    else if n < 52 then .ofNat (n + 71)
    else if n < 62 then .ofNat (n - 4)
    else if n = 62 then 43
    else 47
  value c :=
    let n := c.toNat
    if 65 ≤ n ∧ n ≤ 90 then some (n - 65)
    else if 97 ≤ n ∧ n ≤ 122 then some (n - 71)
    else if 48 ≤ n ∧ n ≤ 57 then some (n + 4)
    else if n = 43 then some 62
    else if n = 47 then some 63
    else none
  pad := 61
  value_symbol := by decide
  value_pad := rfl

example : standard.encode true [102, 111, 111, 98] = [90, 109, 57, 118, 89, 103, 61, 61] := by decide

end Alphabet

/-! ### An engine -/

/-- The symbols of the standard alphabet. -/
def isSymbol (c : UInt8) : Bool :=
  let n := c.toNat
  (65 ≤ n && n ≤ 90) || (97 ≤ n && n ≤ 122) || (48 ≤ n && n ≤ 57) || n == 43 || n == 47

/-- An engine for the standard alphabet, which writes padding or none and reads both, with what is
    relied on of it. Padding, a `=`, stands only at the end of a string. -/
class Base64 where
  encode : Bool → Bytes → Bytes
  decode : Bytes → Option Bytes
  mem_encode : ∀ {padded bytes c}, c ∈ encode padded bytes → c = 61 ∨ isSymbol c
  encode_eq_nil : ∀ {padded bytes}, encode padded bytes = [] ↔ bytes = []
  length_encode_mod : ∀ bytes, (encode true bytes).length % 4 = 0
  pad_mem_encode : ∀ bytes, 61 ∈ encode true bytes ↔ bytes.length % 3 ≠ 0
  decode_encode : ∀ padded bytes, decode (encode padded bytes) = some bytes
  decode_eq_nil : ∀ {w}, decode w = some [] ↔ w = []
  decode_append : ∀ {u v}, u.length % 4 = 0 → v ≠ [] →
    decode (u ++ v) = if 61 ∈ u then none else
      (decode u).bind fun bytes => (decode v).map (bytes ++ ·)

attribute [simp] Base64.encode_eq_nil

namespace Base64

@[simp] theorem decode_nil [Base64] : decode [] = some [] := decode_eq_nil.mpr rfl

/-- What can be decoded begins with a group that can. -/
theorem decode_take [Base64] {w bytes : Bytes} (hw : 4 ≤ w.length) (h : decode w = some bytes) :
    ∃ b, decode (w.take 4) = some b := by
  have hlen : (w.take 4).length % 4 = 0 := by
    rw [List.length_take_of_le hw]
  rw [← List.take_append_drop 4 w] at h
  by_cases hrest : w.drop 4 = []
  · rw [hrest, List.append_nil] at h
    exact ⟨bytes, h⟩
  · rw [decode_append hlen hrest] at h
    split at h
    · cases h
    · obtain ⟨b, hb, -⟩ := Option.bind_eq_some_iff.mp h
      exact ⟨b, hb⟩

/-- The engine of the definitions above. -/
@[reducible] def standard : Base64 where
  encode := Alphabet.standard.encode
  decode := Alphabet.standard.decode
  mem_encode h := by
    have hsymbol : ∀ n < 64, isSymbol (Alphabet.standard.symbol n) := by decide
    rcases Alphabet.mem_encode h with rfl | ⟨n, hn, rfl⟩
    · exact .inl rfl
    · exact .inr (hsymbol n hn)
  encode_eq_nil := Alphabet.encode_eq_nil
  length_encode_mod := Alphabet.length_encode_mod
  pad_mem_encode := Alphabet.pad_mem_encode
  decode_encode := Alphabet.decode_encode
  decode_eq_nil :=
    ⟨fun h => by_contra fun hw => Alphabet.decode_ne_nil hw h, fun h => by rw [h]; rfl⟩
  decode_append := Alphabet.decode_append

end Base64

end TeaclaveCrates.Lib
