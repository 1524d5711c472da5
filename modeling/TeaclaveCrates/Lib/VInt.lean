import TeaclaveCrates.Lib.Bytes

namespace TeaclaveCrates.Lib

/-!
# Variable-length integers

Base-128 digits, the lowest first, with a flag in the top bit of each byte.  There
are two conventions: the flag marks the last byte (`stop = true`), or all the others
(`stop = false`).

* `vint` — the digits of a number, in a buffer of at most `len` bytes;
* `vintLoop` — the reading loop, on a 64-bit accumulator;
* `vintLoopBits` — the same on an accumulator of any width;
* `vintLoop_vint`, `vintLoopBits_vint` — a number that fits the accumulator is read back, and
  nothing behind it is touched.
* `ofDigits`, `stopIndex` — what any byte string spells, and where its first flag stands;
  `stopIndex_vint` and `ofDigits_vint` say this of the digits of a number.
-/

/-- Seven bits and a flag. -/
def vintByte (flag : Bool) (n : Nat) : UInt8 := UInt8.ofNat (n % 128 + if flag then 128 else 0)

/-- The digits of `n`, where they fit into `len` bytes. -/
def vint (stop : Bool) : Nat → Nat → Bytes
  | 0, _ => []
  | len + 1, n =>
    if n / 128 = 0 then [vintByte stop n] else vintByte (!stop) n :: vint stop len (n / 128)

/-- Reads digits until one carries the mark of the last byte: the number, what is
    left, and whether the last byte was seen. -/
def vintLoop (stop : Bool) : Bytes → Nat → Nat → Nat × Bytes × Bool
  | [], _, result => (result, [], false)
  | b :: bs, shift, result =>
    let result := result ||| ((b.toNat % 128) <<< shift) % 2 ^ 64
    if (128 ≤ b.toNat) = stop then (result, bs, true) else vintLoop stop bs (shift + 7) result

/-- `vintLoop`, on an accumulator of `bits` bits. -/
def vintLoopBits (bits : Nat) (stop : Bool) : Bytes → Nat → Nat → Nat × Bytes × Bool
  | [], _, result => (result, [], false)
  | b :: bs, shift, result =>
    let result := result ||| ((b.toNat % 128) <<< shift) % 2 ^ bits
    if (128 ≤ b.toNat) = stop then (result, bs, true)
    else vintLoopBits bits stop bs (shift + 7) result

theorem toNat_vintByte (flag : Bool) (n : Nat) :
    (vintByte flag n).toNat = n % 128 + if flag then 128 else 0 := by
  rw [vintByte, UInt8.toNat_ofNat', Nat.mod_eq_of_lt]
  split <;> omega

/-- A number below `128 ^ (k + 1)` has at most `k + 1` digits. -/
theorem length_vint_le (stop : Bool) (k : Nat) :
    ∀ len n, n < 128 ^ (k + 1) → (vint stop len n).length ≤ k + 1 := by
  induction k with
  | zero =>
    intro len n hn
    cases len with
    | zero => exact Nat.zero_le _
    | succ len =>
      rw [vint, if_pos (by omega)]
      exact Nat.le_refl 1
  | succ k ih =>
    intro len n hn
    cases len with
    | zero => exact Nat.zero_le _
    | succ len =>
      rw [vint]
      split
      · simp
      · have := ih len (n / 128) (Nat.div_lt_of_lt_mul (by omega))
        rw [List.length_cons]
        omega

variable {bits : Nat}

/-- Adding a digit above the bits that have been read. -/
theorem or_digit {shift result d : Nat} (hresult : result < 2 ^ shift)
    (hfit : result + d * 2 ^ shift < 2 ^ bits) :
    result ||| (d <<< shift) % 2 ^ bits = result + d * 2 ^ shift := by
  have hd : d <<< shift = d * 2 ^ shift := Nat.shiftLeft_eq d shift
  rw [Nat.mod_eq_of_lt (by omega), Nat.or_comm, ← Nat.shiftLeft_add_eq_or_of_lt hresult, hd]
  omega

theorem vintLoopBits_cons (stop flag : Bool) (n : Nat) (bs : Bytes) {shift result : Nat}
    (hresult : result < 2 ^ shift) (hfit : result + n % 128 * 2 ^ shift < 2 ^ bits) :
    vintLoopBits bits stop (vintByte flag n :: bs) shift result =
      if flag = stop then (result + n % 128 * 2 ^ shift, bs, true)
      else vintLoopBits bits stop bs (shift + 7) (result + n % 128 * 2 ^ shift) := by
  have hdigit : (vintByte flag n).toNat % 128 = n % 128 := by
    rw [toNat_vintByte]
    split <;> omega
  have hflag : ((128 ≤ (vintByte flag n).toNat) = (stop = true)) ↔ flag = stop := by
    rw [toNat_vintByte]
    cases flag <;> cases stop <;> simp <;> omega
  simp [vintLoopBits, hdigit, or_digit hresult hfit, hflag]

/-- The lowest digit of `n` and the others, at the position `shift`. -/
theorem mul_two_pow_eq (n shift : Nat) :
    n * 2 ^ shift = n % 128 * 2 ^ shift + n / 128 * 2 ^ (shift + 7) := by
  have hn := Nat.mod_add_div n 128
  calc n * 2 ^ shift = (n % 128 + 128 * (n / 128)) * 2 ^ shift := by rw [hn]
    _ = n % 128 * 2 ^ shift + n / 128 * (2 ^ shift * 2 ^ 7) := by ring
    _ = n % 128 * 2 ^ shift + n / 128 * 2 ^ (shift + 7) := by rw [Nat.pow_add]

/-- Reading from the middle: the digits of `n` on top of the bits of `result`. -/
theorem vintLoopBits_vint_aux (stop : Bool) (rest : Bytes) (len : Nat) :
    ∀ n shift result, n < 128 ^ (len + 1) → result < 2 ^ shift →
      result + n * 2 ^ shift < 2 ^ bits →
      vintLoopBits bits stop (vint stop (len + 1) n ++ rest) shift result =
        (result + n * 2 ^ shift, rest, true) := by
  have hdigits : ∀ {n shift result : Nat}, result < 2 ^ shift →
      result + n % 128 * 2 ^ shift < 2 ^ (shift + 7) := by
    intro n shift result hresult
    have hd : n % 128 + 1 ≤ 128 := Nat.mod_lt n (by decide)
    calc result + n % 128 * 2 ^ shift < 2 ^ shift + n % 128 * 2 ^ shift := by omega
      _ = (n % 128 + 1) * 2 ^ shift := by ring
      _ ≤ 128 * 2 ^ shift := Nat.mul_le_mul_right _ hd
      _ = 2 ^ (shift + 7) := by rw [Nat.pow_add, Nat.mul_comm]
  induction len with
  | zero =>
    intro n shift result hn hresult hfit
    have hmod : n % 128 = n := Nat.mod_eq_of_lt (by omega)
    rw [vint, if_pos (by omega), List.cons_append, List.nil_append,
      vintLoopBits_cons stop stop n rest hresult (by rw [hmod]; exact hfit), if_pos rfl, hmod]
  | succ len ih =>
    intro n shift result hn hresult hfit
    rw [mul_two_pow_eq] at hfit ⊢
    rw [vint]
    by_cases hlast : n / 128 = 0
    · rw [if_pos hlast, List.cons_append, List.nil_append,
        vintLoopBits_cons stop stop n rest hresult (by omega), if_pos rfl, hlast, Nat.zero_mul,
        Nat.add_zero]
    · rw [if_neg hlast, List.cons_append,
        vintLoopBits_cons stop (!stop) n _ hresult (by omega), if_neg (by cases stop <;> simp),
        ih (n / 128) (shift + 7) _ ?_ (hdigits hresult) (by omega), Nat.add_assoc]
      exact Nat.div_lt_of_lt_mul (by omega)

/-- A number that fits the width is read back. -/
theorem vintLoopBits_vint (stop : Bool) {len n : Nat} (hlen : 0 < len) (hn : n < 128 ^ len)
    (hbits : n < 2 ^ bits) (rest : Bytes) :
    vintLoopBits bits stop (vint stop len n ++ rest) 0 0 = (n, rest, true) := by
  obtain ⟨len, rfl⟩ : ∃ k, len = k + 1 := ⟨len - 1, by omega⟩
  have hread := @vintLoopBits_vint_aux bits stop rest len n 0 0 hn (by decide) (by omega)
  rw [Nat.zero_add, Nat.pow_zero, Nat.mul_one] at hread
  exact hread

theorem vintLoopBits_eq (stop : Bool) (bs : Bytes) (shift result : Nat) :
    vintLoopBits 64 stop bs shift result = vintLoop stop bs shift result := by
  induction bs generalizing shift result with
  | nil => rfl
  | cons b bs ih =>
    simp [vintLoopBits, vintLoop, ih]

/-- A number below 2^64 is read back. -/
theorem vintLoop_vint (stop : Bool) {len n : Nat} (hlen : 0 < len) (hn : n < 128 ^ len)
    (h64 : n < 2 ^ 64) (rest : Bytes) :
    vintLoop stop (vint stop len n ++ rest) 0 0 = (n, rest, true) := by
  rw [← vintLoopBits_eq]
  exact vintLoopBits_vint stop hlen hn h64 rest

/-! ### Any byte string -/

/-- The number that the digits spell, whatever their flags are. -/
def ofDigits : Bytes → Nat
  | [] => 0
  | b :: bs => b.toNat % 128 + 128 * ofDigits bs

/-- The position of the first byte that carries the flag. -/
def stopIndex (bs : Bytes) : Option Nat := bs.findIdx? fun b => decide (128 ≤ b.toNat)

theorem stopIndex_cons (b : UInt8) (bs : Bytes) :
    stopIndex (b :: bs) = if 128 ≤ b.toNat then some 0 else (stopIndex bs).map (· + 1) := by
  simp [stopIndex, List.findIdx?_cons, decide_eq_true_eq]

theorem stopIndex_lt {bs : Bytes} {k : Nat} (h : stopIndex bs = some k) : k < bs.length :=
  (List.findIdx?_eq_some_iff_getElem.mp h).1

/-- The digits of a number up to its last byte. -/
theorem stopIndex_vint (rest : Bytes) (len : Nat) :
    ∀ n, n < 128 ^ (len + 1) → ∃ k, stopIndex (vint true (len + 1) n ++ rest) = some k ∧
      (vint true (len + 1) n).length = k + 1 := by
  have hstop : ∀ n, 128 ≤ (vintByte true n).toNat := by
    intro n
    rw [toNat_vintByte, if_pos rfl]
    exact Nat.le_add_left _ _
  have hmore : ∀ n, ¬128 ≤ (vintByte (!true) n).toNat := by
    intro n
    rw [toNat_vintByte, if_neg (by decide)]
    omega
  induction len with
  | zero =>
    intro n hn
    rw [vint, if_pos (by omega), List.cons_append, stopIndex_cons, if_pos (hstop n)]
    exact ⟨0, rfl, rfl⟩
  | succ len ih =>
    intro n hn
    rw [vint]
    by_cases hlast : n / 128 = 0
    · rw [if_pos hlast, List.cons_append, stopIndex_cons, if_pos (hstop n)]
      exact ⟨0, rfl, rfl⟩
    · obtain ⟨k, hk, hlen⟩ := ih (n / 128) (Nat.div_lt_of_lt_mul (by omega))
      rw [if_neg hlast, List.cons_append, stopIndex_cons, if_neg (hmore n), hk, List.length_cons,
        hlen]
      exact ⟨k + 1, rfl, rfl⟩

theorem ofDigits_vint (stop : Bool) (len : Nat) :
    ∀ n, n < 128 ^ (len + 1) → ofDigits (vint stop (len + 1) n) = n := by
  have hdigit : ∀ flag n, (vintByte flag n).toNat % 128 = n % 128 := by
    intro flag n
    rw [toNat_vintByte]
    split <;> omega
  induction len with
  | zero =>
    intro n hn
    rw [vint, if_pos (by omega), ofDigits, hdigit, ofDigits]
    omega
  | succ len ih =>
    intro n hn
    rw [vint]
    by_cases hlast : n / 128 = 0
    · rw [if_pos hlast, ofDigits, hdigit, ofDigits]
      omega
    · rw [if_neg hlast, ofDigits, hdigit, ih (n / 128) (Nat.div_lt_of_lt_mul (by omega))]
      omega

end TeaclaveCrates.Lib
