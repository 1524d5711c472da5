import TeaclaveCrates.Lib.BitStream
import TeaclaveCrates.Tantivy.VInt

namespace TeaclaveCrates.Tantivy.Common

open TeaclaveCrates.Lib

/-!
# Decoding variable-length integers

* `deserializeLoop_eq`, `deserializeVintU128Loop_eq`, `readU32VintNoAdvance_eq` — what each decoder
  does with any byte string, by the position of its first stop bit.
* `vint_roundTrip` — the encoders agree, and every decoder undoes them.
* `decoders_spec` — the byte strings on which each decoder returns the groups, and an error.
-/

/-! ### Any byte string -/

theorem stopIndex_stopBit (b : UInt8) (bytes : Bytes) :
    stopIndex (b :: bytes) =
      if STOP_BIT ≤ b.toNat then some 0 else (stopIndex bytes).map (· + 1) :=
  stopIndex_cons b bytes

variable {shift width : Nat}

theorem addGroup_of_le (h : width ≤ shift) (result : Nat) (b : UInt8) :
    addGroup width result shift b = .error .panic :=
  if_pos h

variable {result : Nat}

/-- A group that starts within the width loses the bits above it. -/
theorem addGroup_of_lt (hresult : result < 2 ^ shift) (h : shift < width) (b : UInt8) :
    addGroup width result shift b =
      .ok ((result + 2 ^ shift * (b.toNat % 128)) % 2 ^ width) := by
  simp [addGroup, (Nat.not_le_of_lt h), or_shiftLeft_mod hresult h]

/-- One group more does not reach the next one. -/
theorem group_lt (hresult : result < 2 ^ shift) (b : UInt8) (width : Nat) :
    (result + 2 ^ shift * (b.toNat % 128)) % 2 ^ width < 2 ^ (shift + 7) := by
  have hdigit : b.toNat % 128 + 1 ≤ 128 := Nat.mod_lt _ (by decide)
  calc (result + 2 ^ shift * (b.toNat % 128)) % 2 ^ width
      ≤ result + 2 ^ shift * (b.toNat % 128) := Nat.mod_le _ _
    _ < 2 ^ shift + 2 ^ shift * (b.toNat % 128) := by omega
    _ = 2 ^ shift * (b.toNat % 128 + 1) := by ring
    _ ≤ 2 ^ shift * 128 := Nat.mul_le_mul_left _ hdigit
    _ = 2 ^ (shift + 7) := by rw [Nat.pow_add]

/-- Cutting to the width group by group, or once. -/
theorem groups_mod (result shift width digit rest : Nat) :
    ((result + 2 ^ shift * digit) % 2 ^ width + 2 ^ (shift + 7) * rest) % 2 ^ width =
      (result + 2 ^ shift * (digit + 128 * rest)) % 2 ^ width := by
  have hsum : result + 2 ^ shift * digit + 2 ^ (shift + 7) * rest =
      result + 2 ^ shift * (digit + 128 * rest) := by ring
  rw [Nat.mod_add_mod, hsum]

theorem deserializeLoop_none (width : Nat) {bytes : Bytes} (h : stopIndex bytes = none)
    (hresult : result < 2 ^ shift) :
    deserializeLoop width bytes result shift =
      if bytes ≠ [] ∧ width + 7 ≤ shift + 7 * bytes.length then .error .panic
      else .error (.invalidData "Reach end of buffer while reading VInt") := by
  induction bytes generalizing result shift with
  | nil => rfl
  | cons b bytes ih =>
    rw [stopIndex_stopBit] at h
    have hmore : ¬STOP_BIT ≤ b.toNat := by
      intro hstop
      rw [if_pos hstop] at h
      cases h
    rw [if_neg hmore, Option.map_eq_none_iff] at h
    rw [deserializeLoop, List.length_cons]
    by_cases hwidth : width ≤ shift
    · rw [addGroup_of_le hwidth, if_pos ⟨List.cons_ne_nil _ _, by omega⟩]
    · rw [addGroup_of_lt hresult (by omega)]
      dsimp only
      rw [if_neg hmore, ih h (group_lt hresult b width)]
      -- the first byte of the rest is the one that can overflow now
      have hiff : (bytes ≠ [] ∧ width + 7 ≤ shift + 7 + 7 * bytes.length) ↔
          b :: bytes ≠ [] ∧ width + 7 ≤ shift + 7 * (bytes.length + 1) := by
        constructor
        · exact fun hboth => ⟨List.cons_ne_nil _ _, by omega⟩
        · rintro ⟨-, hle⟩
          refine ⟨?_, by omega⟩
          rintro rfl
          rw [List.length_nil] at hle
          omega
      simp [hiff]

variable {k : Nat}

/-- **The loop of `deserialize`.** The groups up to the first stop bit, cut to the width. -/
theorem deserializeLoop_eq (width : Nat) {bytes : Bytes} (h : stopIndex bytes = some k)
    (hresult : result < 2 ^ shift) :
    deserializeLoop width bytes result shift =
      if width ≤ shift + 7 * k then .error .panic
      else .ok ((result + 2 ^ shift * ofDigits (bytes.take (k + 1))) % 2 ^ width,
        bytes.drop (k + 1)) := by
  induction bytes generalizing k result shift with
  | nil => cases h
  | cons b bytes ih =>
    rw [stopIndex_stopBit] at h
    rw [deserializeLoop]
    by_cases hwidth : width ≤ shift
    · rw [addGroup_of_le hwidth, if_pos (by omega)]
    rw [addGroup_of_lt hresult (by omega)]
    dsimp only
    by_cases hstop : STOP_BIT ≤ b.toNat
    · rw [if_pos hstop] at h
      obtain rfl := Option.some.inj h
      have hdigits : ofDigits ((b :: bytes).take 1) = b.toNat % 128 := rfl
      rw [if_pos hstop, if_neg (by omega), hdigits]
      rfl
    · rw [if_neg hstop] at h
      obtain ⟨j, hj, rfl⟩ := Option.map_eq_some_iff.mp h
      have hsame : width ≤ shift + 7 + 7 * j ↔ width ≤ shift + 7 * (j + 1) := by omega
      rw [if_neg hstop, ih hj (group_lt hresult b width), List.take_succ_cons, List.drop_succ_cons,
        ofDigits, groups_mod]
      simp [hsame]

variable {data : Bytes}

variable {rounds : Nat}

/-- **The loop of `deserialize_vint_u128`.** Its rounds end before a shift overflows. -/
theorem deserializeVintU128Loop_eq (hresult : result < 2 ^ shift)
    (hshift : shift + 7 * rounds ≤ 133) :
    deserializeVintU128Loop rounds data result shift =
      match stopIndex data with
      | some k =>
        if k < rounds then
          .ok ((result + 2 ^ shift * ofDigits (data.take (k + 1))) % 2 ^ 128, data.drop (k + 1))
        else .error (.invalidData "Failed to deserialize u128 vint")
      | none =>
        if rounds ≤ data.length then .error (.invalidData "Failed to deserialize u128 vint")
        else .error .panic := by
  induction rounds generalizing data result shift with
  | zero =>
    cases stopIndex data <;> rfl
  | succ rounds ih =>
    cases data with
    | nil => rfl
    | cons b data =>
      rw [deserializeVintU128Loop, addGroup_of_lt hresult (by omega), stopIndex_stopBit]
      dsimp only
      by_cases hstop : STOP_BIT ≤ b.toNat
      · rw [if_pos hstop, if_pos hstop]
        rfl
      · rw [if_neg hstop, if_neg hstop, ih (group_lt hresult b 128) (by omega), List.length_cons]
        cases stopIndex data with
        | none =>
          simp
        | some j =>
          dsimp only [Option.map_some]
          simp only [Nat.add_lt_add_iff_right, List.take_succ_cons, List.drop_succ_cons, ofDigits,
            groups_mod]

theorem readGroups_eq (hresult : result < 2 ^ shift) (hshift : shift + 7 * data.length ≤ 35)
    (hlt : result < 2 ^ 32) :
    readGroups data result shift = .ok ((result + 2 ^ shift * ofDigits data) % 2 ^ 32) := by
  induction data generalizing result shift with
  | nil =>
    rw [readGroups, ofDigits, Nat.mul_zero, Nat.add_zero, Nat.mod_eq_of_lt hlt]
  | cons b data ih =>
    rw [List.length_cons] at hshift
    rw [readGroups, addGroup_of_lt hresult (by omega)]
    dsimp only
    rw [ih (group_lt hresult b 32) (by omega) (Nat.mod_lt _ (by decide)), ofDigits, groups_mod]

/-- **The decoder of 32 bits.** -/
theorem readU32VintNoAdvance_eq (data : Bytes) :
    readU32VintNoAdvance data =
      match stopIndex data with
      | some k =>
        if k < 5 then .ok (ofDigits (data.take (k + 1)) % 2 ^ 32, k + 1) else .error .panic
      | none => .error .panic := by
  have hlen : vintLen data =
      match stopIndex data with
      | some k => if k < 5 then .ok (k + 1) else .error .panic
      | none => .error .panic := by
    have hfind : ((data.take 5).findIdx? fun b => STOP_BIT ≤ b.toNat) =
        (stopIndex data).bind (Option.guard fun i => i < 5) := List.findIdx?_take
    rw [vintLen, hfind]
    cases stopIndex data with
    | none => rfl
    | some k =>
      by_cases hk : k < 5
      · simp [Option.guard, hk]
      · simp [Option.guard, hk]
  rw [readU32VintNoAdvance, hlen]
  cases hstop : stopIndex data with
  | none => rfl
  | some k =>
    dsimp only
    by_cases hk : k < 5
    · have hle : (data.take (k + 1)).length ≤ 5 := by
        rw [List.length_take]
        omega
      rw [if_pos hk, if_pos hk]
      dsimp only
      rw [readGroups_eq (by decide) (by omega) (by decide), Nat.zero_add, Nat.pow_zero, Nat.one_mul]
    · simp [hk]

/-! ### The decoders undo the encoders -/

variable {val : Nat}

/-- What is read back from the digits of a number. -/
theorem deserializeLoop_vint {len : Nat} (hval : val < 128 ^ (len + 1)) (hlen : 7 * len < width)
    (hwidth : val < 2 ^ width) (rest : Bytes) :
    deserializeLoop width (vint true (len + 1) val ++ rest) 0 0 = .ok (val, rest) := by
  obtain ⟨k, hk, hlength⟩ := stopIndex_vint rest len val hval
  have hkle := length_vint_le true len (len + 1) val hval
  rw [deserializeLoop_eq width hk Nat.zero_lt_one, if_neg (by omega), ← hlength, List.take_left,
    List.drop_left, ofDigits_vint true len val hval, Nat.zero_add, Nat.pow_zero, Nat.one_mul,
    Nat.mod_eq_of_lt hwidth]

theorem deserializeVintU128_vint {len : Nat} (hval : val < 128 ^ (len + 1)) (hlen : len < 19)
    (hwidth : val < 2 ^ 128) (rest : Bytes) :
    deserializeVintU128 (vint true (len + 1) val ++ rest) = .ok (val, rest) := by
  obtain ⟨k, hk, hlength⟩ := stopIndex_vint rest len val hval
  have hkle := length_vint_le true len (len + 1) val hval
  rw [deserializeVintU128, deserializeVintU128Loop_eq Nat.zero_lt_one (by omega), hk]
  dsimp only
  rw [if_pos (by omega), ← hlength, List.take_left, List.drop_left, ofDigits_vint true len val hval,
    Nat.zero_add, Nat.pow_zero, Nat.one_mul, Nat.mod_eq_of_lt hwidth]

/-- The number of digits that a buffer has room for does not show. -/
theorem vint_eq_of_lt (k m : Nat) :
    ∀ val, val < 128 ^ (k + 1) → vint true (k + 1 + m) val = vint true (k + 1) val := by
  induction k with
  | zero =>
    intro val hval
    have hlast : val / 128 = 0 := by omega
    simp [show 0 + 1 + m = m + 1 by omega, vint, hlast]
  | succ k ih =>
    intro val hval
    rw [show k + 1 + 1 + m = k + 1 + m + 1 by omega, vint, vint,
      ih _ (Nat.div_lt_of_lt_mul (by omega))]

theorem readU32Vint_vint (hval : val < 2 ^ 32) (rest : Bytes) :
    readU32Vint (vint true 10 val ++ rest) = .ok (val, rest) := by
  have h5 : val < 128 ^ (4 + 1) := hval.trans_le (by norm_num)
  have hsame : vint true 10 val = vint true 5 val := vint_eq_of_lt 4 5 val h5
  obtain ⟨k, hk, hlength⟩ := stopIndex_vint rest 4 val h5
  have hkle := length_vint_le true 4 (4 + 1) val h5
  rw [hsame, readU32Vint, readU32VintNoAdvance_eq, hk]
  dsimp only
  rw [if_pos (by omega), ← hlength]
  dsimp only
  rw [List.take_left, List.drop_left, ofDigits_vint true 4 val h5, Nat.mod_eq_of_lt hval]

/-- **The encoders agree and the decoders undo them**, whatever follows the encoding. A number that
    fits a narrower type is read back by the decoders of the wider ones too. -/
theorem vint_roundTrip (val : Nat) (rest : Bytes) :
    (val < 2 ^ 32 →
      (∀ buffer, buffer.length = 10 →
        (VInt.serializeInto val buffer).map (fun written => written.1.take written.2) =
          some (serializeVintU32 val)) ∧
      readU32Vint (serializeVintU32 val ++ rest) = .ok (val, rest)) ∧
    (val < 2 ^ 64 →
      VInt.serialize val = some (serializeVintU128 val) ∧
      ∀ bytes, VInt.serialize val = some bytes →
        VInt.deserialize (bytes ++ rest) = .ok (val, rest)) ∧
    (val < 2 ^ 128 →
      VIntU128.serialize val = serializeVintU128 val ∧
      deserializeVintU128 (serializeVintU128 val ++ rest) = .ok (val, rest) ∧
      VIntU128.deserialize (VIntU128.serialize val ++ rest) = .ok (val, rest)) := by
  refine ⟨fun h32 => ?_, fun h64 => ?_, fun h128 => ?_⟩
  · rw [serializeVintU32_eq h32]
    refine ⟨fun buffer hlen => ?_, readU32Vint_vint h32 rest⟩
    rw [VInt.serializeInto_eq (h32.trans (by norm_num)) hlen, Option.map_some, List.take_left]
  · have h10 : val < 128 ^ (9 + 1) := h64.trans_le (by norm_num)
    rw [VInt.serialize_eq h64, serializeVintU128_eq 9 val h10]
    refine ⟨rfl, ?_⟩
    rintro bytes hbytes
    rw [← Option.some.inj hbytes]
    exact deserializeLoop_vint h10 (by decide) h64 rest
  · have h19 : val < 128 ^ (18 + 1) := h128.trans_le (by norm_num)
    rw [VIntU128.serialize, serializeVintU128_eq 18 val h19]
    exact ⟨rfl, deserializeVintU128_vint h19 (by decide) h128 rest,
      deserializeLoop_vint h19 (by decide) h128 rest⟩

/-- A closed instance, with each of the three widths. -/
theorem vint_roundTrip_300 :
    readU32Vint (serializeVintU32 300 ++ [7]) = .ok (300, [7]) ∧
      (∀ bytes, VInt.serialize 300 = some bytes → VInt.deserialize (bytes ++ [7]) = .ok (300,
        [7])) ∧
      deserializeVintU128 (serializeVintU128 (2 ^ 127) ++ [7]) = .ok (2 ^ 127, [7]) :=
  ⟨((vint_roundTrip 300 [7]).1 (by decide)).2, ((vint_roundTrip 300 [7]).2.1 (by decide)).2,
    ((vint_roundTrip (2 ^ 127) [7]).2.2 (by decide)).2.1⟩

/-! ### Which byte strings are decoded -/

/-- A number at the front of the data: the bytes up to the first stop bit are consumed, and their
    groups spell it. -/
structure Decoded (data : Bytes) (val consumed : Nat) : Prop where
  within : consumed ≤ data.length
  stops : ∃ k, stopIndex data = some k ∧ consumed = k + 1
  sum : val = ofDigits (data.take consumed)

/-- A decoder returns a value, and a good one. -/
def Returns {α : Type} (Good : α → Prop) (res : Except Fault α) : Prop :=
  ∃ a, res = .ok a ∧ Good a

/-- A decoder returns a good value or an error. -/
def Total {α : Type} (Good : α → Prop) (res : Except Fault α) : Prop :=
  Returns Good res ∨ ∃ message, res = .error (.invalidData message)

/-- The first stop bit is within so many bytes, and the groups up to it fit the width. -/
def FitsWithin (width rounds : Nat) (data : Bytes) : Prop :=
  ∃ k, stopIndex data = some k ∧ k < rounds ∧ ofDigits (data.take (k + 1)) < 2 ^ width

/-- What is asked of a decoder that returns the data behind the number. -/
def GoodRest (data : Bytes) (r : Nat × Bytes) : Prop :=
  ∃ consumed, r.2 = data.drop consumed ∧ Decoded data r.1 consumed

/-- What is asked of a decoder that returns the length of the number. -/
def GoodLength (data : Bytes) (r : Nat × Nat) : Prop := Decoded data r.1 r.2

theorem decoded_iff (hk : stopIndex data = some k) :
    Decoded data val (k + 1) ↔ val = ofDigits (data.take (k + 1)) := by
  constructor
  · exact fun h => h.sum
  · exact fun h => ⟨stopIndex_lt hk, ⟨k, hk, rfl⟩, h⟩

/-- Nothing is lost by cutting to the width just when the sum fits. -/
theorem mod_eq_self_iff {n : Nat} : n % 2 ^ width = n ↔ n < 2 ^ width :=
  ⟨fun h => h ▸ Nat.mod_lt n (Nat.two_pow_pos width), Nat.mod_eq_of_lt⟩

theorem goodRest_iff (hk : stopIndex data = some k) :
    GoodRest data (val, data.drop (k + 1)) ↔ val = ofDigits (data.take (k + 1)) := by
  constructor
  · rintro ⟨consumed, -, hdecoded⟩
    obtain ⟨j, hj, rfl⟩ := hdecoded.stops
    obtain rfl := Option.some.inj (hj.symm.trans hk)
    exact hdecoded.sum
  · exact fun h => ⟨k + 1, rfl, (decoded_iff hk).mpr h⟩

theorem fitsWithin_iff (hk : stopIndex data = some k) (width rounds : Nat) :
    FitsWithin width rounds data ↔ k < rounds ∧ ofDigits (data.take (k + 1)) < 2 ^ width := by
  constructor
  · rintro ⟨j, hj, h⟩
    obtain rfl := Option.some.inj (hj.symm.trans hk)
    exact h
  · exact fun h => ⟨k, hk, h⟩

theorem not_fitsWithin (h : stopIndex data = none) (width rounds : Nat) :
    ¬FitsWithin width rounds data := by
  rintro ⟨k, hk, -⟩
  rw [h] at hk
  cases hk

theorem not_returns_error {α : Type} {Good : α → Prop} {fault : Fault} :
    ¬Returns Good (.error fault) := by
  rintro ⟨a, h, -⟩
  cases h

theorem returns_ok_iff {α : Type} {Good : α → Prop} {a : α} : Returns Good (.ok a) ↔ Good a := by
  constructor
  · rintro ⟨b, h, hb⟩
    cases h
    exact hb
  · exact fun h => ⟨a, rfl, h⟩

/-- The decoders that read from a stream return the groups in the rounds in which no shift reaches
    the width, -/
theorem returns_deserializeLoop (hrounds : ∀ k, width ≤ 7 * k ↔ rounds ≤ k) (data : Bytes) :
    Returns (GoodRest data) (deserializeLoop width data 0 0) ↔ FitsWithin width rounds data := by
  cases hstop : stopIndex data with
  | none =>
    rw [deserializeLoop_none width hstop Nat.zero_lt_one]
    refine iff_of_false ?_ (not_fitsWithin hstop width rounds)
    split
    · exact not_returns_error
    · exact not_returns_error
  | some k =>
    rw [deserializeLoop_eq width hstop Nat.zero_lt_one, fitsWithin_iff hstop, Nat.zero_add,
      Nat.pow_zero, Nat.one_mul, Nat.zero_add]
    by_cases hk : width ≤ 7 * k
    · have hge := (hrounds k).mp hk
      rw [if_pos hk]
      exact iff_of_false not_returns_error fun hfit => by omega
    · have hlt : k < rounds := Nat.lt_of_not_le fun hge => hk ((hrounds k).mpr hge)
      rw [if_neg hk, returns_ok_iff, goodRest_iff hstop, mod_eq_self_iff, and_iff_right hlt]

/-- and report the end of the data if it comes in these rounds. -/
theorem deserializeLoop_eq_error (hrounds : ∀ k, width ≤ 7 * k ↔ rounds ≤ k) (data : Bytes) :
    deserializeLoop width data 0 0 =
        .error (.invalidData "Reach end of buffer while reading VInt") ↔
      stopIndex data = none ∧ data.length ≤ rounds := by
  cases hstop : stopIndex data with
  | none =>
    rw [deserializeLoop_none width hstop Nat.zero_lt_one, Nat.zero_add, and_iff_right rfl]
    by_cases hlong : data ≠ [] ∧ width + 7 ≤ 7 * data.length
    · -- the byte behind the last round
      have hover := (hrounds (data.length - 1)).mp (by omega)
      rw [if_pos hlong]
      exact iff_of_false (by simp) (by omega)
    · rw [if_neg hlong]
      refine iff_of_true rfl ?_
      by_contra hmany
      have hover := (hrounds (data.length - 1)).mpr (by omega)
      exact hlong ⟨List.ne_nil_of_length_pos (by omega), by omega⟩
  | some k =>
    rw [deserializeLoop_eq width hstop Nat.zero_lt_one]
    split
    · simp
    · simp

theorem returns_deserializeVintU128 (data : Bytes) :
    Returns (GoodRest data) (deserializeVintU128 data) ↔ FitsWithin 128 19 data := by
  rw [deserializeVintU128, deserializeVintU128Loop_eq Nat.zero_lt_one (by decide)]
  cases hstop : stopIndex data with
  | none =>
    refine iff_of_false ?_ (not_fitsWithin hstop 128 19)
    dsimp only
    split
    · exact not_returns_error
    · exact not_returns_error
  | some k =>
    rw [fitsWithin_iff hstop]
    dsimp only
    by_cases hk : k < 19
    · rw [if_pos hk, Nat.zero_add, Nat.pow_zero, Nat.one_mul, returns_ok_iff, goodRest_iff hstop,
        mod_eq_self_iff, and_iff_right hk]
    · rw [if_neg hk]
      exact iff_of_false not_returns_error fun hfit => hk hfit.1

theorem deserializeVintU128_eq_error (data : Bytes) :
    deserializeVintU128 data = .error (.invalidData "Failed to deserialize u128 vint") ↔
      (∀ k, stopIndex data = some k → 19 ≤ k) ∧ 19 ≤ data.length := by
  rw [deserializeVintU128, deserializeVintU128Loop_eq Nat.zero_lt_one (by decide)]
  cases hstop : stopIndex data with
  | none =>
    dsimp only
    by_cases hlong : 19 ≤ data.length
    · simp [hlong]
    · simp [hlong]
  | some k =>
    have hlt := stopIndex_lt hstop
    dsimp only
    by_cases hk : k < 19
    · rw [if_pos hk]
      refine iff_of_false (by simp) fun hfar => ?_
      have := hfar.1 k rfl
      omega
    · rw [if_neg hk]
      refine iff_of_true rfl ⟨fun j hj => ?_, by omega⟩
      rw [← Option.some.inj hj]
      omega

theorem returns_readU32VintNoAdvance (data : Bytes) :
    Returns (GoodLength data) (readU32VintNoAdvance data) ↔ FitsWithin 32 5 data := by
  rw [readU32VintNoAdvance_eq]
  cases hstop : stopIndex data with
  | none => exact iff_of_false not_returns_error (not_fitsWithin hstop 32 5)
  | some k =>
    rw [fitsWithin_iff hstop]
    dsimp only
    by_cases hk : k < 5
    · rw [if_pos hk, returns_ok_iff, GoodLength, decoded_iff hstop, mod_eq_self_iff,
        and_iff_right hk]
    · rw [if_neg hk]
      exact iff_of_false not_returns_error fun hfit => hk hfit.1

theorem readU32VintNoAdvance_panics (data : Bytes) :
    readU32VintNoAdvance data = .error .panic ↔ ∀ k, stopIndex data = some k → 5 ≤ k := by
  rw [readU32VintNoAdvance_eq]
  cases hstop : stopIndex data with
  | none => exact ⟨fun _ k hk => (nomatch hk), fun _ => rfl⟩
  | some k =>
    dsimp only
    by_cases hk : k < 5
    · rw [if_pos hk]
      refine ⟨fun h => (nomatch h), fun h => ?_⟩
      have := h k rfl
      omega
    · rw [if_neg hk]
      refine ⟨fun _ j hj => ?_, fun _ => rfl⟩
      rw [← Option.some.inj hj]
      omega

/-- **What the decoders do.** The 32-bit decoder panics, as it is documented to, just when none of
    the first five bytes has the stop bit. Each decoder returns the sum of the groups up to the stop
    bit just when no shift reaches its width and no group is cut. Two of them return an error where
    the data ends too early, and `deserialize_vint_u128` does so behind nineteen groups. -/
theorem decoders_spec (data : Bytes) :
    (readU32VintNoAdvance data = .error .panic ↔ ∀ k, stopIndex data = some k → 5 ≤ k) ∧
    (Returns (GoodLength data) (readU32VintNoAdvance data) ↔ FitsWithin 32 5 data) ∧
    (Returns (GoodRest data) (VInt.deserialize data) ↔ FitsWithin 64 10 data) ∧
    (VInt.deserialize data = .error (.invalidData "Reach end of buffer while reading VInt") ↔
      stopIndex data = none ∧ data.length ≤ 10) ∧
    (Returns (GoodRest data) (VIntU128.deserialize data) ↔ FitsWithin 128 19 data) ∧
    (VIntU128.deserialize data = .error (.invalidData "Reach end of buffer while reading VInt") ↔
      stopIndex data = none ∧ data.length ≤ 19) ∧
    (Returns (GoodRest data) (deserializeVintU128 data) ↔ FitsWithin 128 19 data) ∧
    (deserializeVintU128 data = .error (.invalidData "Failed to deserialize u128 vint") ↔
      (∀ k, stopIndex data = some k → 19 ≤ k) ∧ 19 ≤ data.length) :=
  ⟨readU32VintNoAdvance_panics data, returns_readU32VintNoAdvance data,
    returns_deserializeLoop (fun k => by omega) data,
    deserializeLoop_eq_error (fun k => by omega) data,
    returns_deserializeLoop (fun k => by omega) data,
    deserializeLoop_eq_error (fun k => by omega) data,
    returns_deserializeVintU128 data, deserializeVintU128_eq_error data⟩

/-- Five groups in front of the stop bit: the 32-bit decoder panics, as it is documented to. -/
theorem decoders_not_total :
    ¬∀ data, Total (GoodLength data) (readU32VintNoAdvance data) ∧
      Total (GoodRest data) (VInt.deserialize data) ∧
      Total (GoodRest data) (VIntU128.deserialize data) ∧
      Total (GoodRest data) (deserializeVintU128 data) := by
  intro hall
  have hpanic : readU32VintNoAdvance [0, 0, 0, 0, 0, 128] = .error .panic := by decide
  have htotal := (hall [0, 0, 0, 0, 0, 128]).1
  rw [hpanic] at htotal
  rcases htotal with hreturns | ⟨message, hmessage⟩
  · exact not_returns_error hreturns
  · cases hmessage

end TeaclaveCrates.Tantivy.Common
