import TeaclaveCrates.Tantivy.BitPacker

namespace TeaclaveCrates.Tantivy.FastFieldCodecs

open TeaclaveCrates.Lib

/-!
# Packed numbers in both profiles

`Cargo.toml` turns overflow checks and debug assertions on for the test profile and leaves them out
of the release profile. `BitUnpacker::get` computes the position of a number in bits on 32 bits, so
the profiles differ where it overflows.

* `Profile`, `Profile.fit`, `Profile.fitSub` — the profiles, and arithmetic in each.
* `BitUnpacker.getIn` — `get` in a profile.
* `BitUnpacker.Fits` — the position is within 32 bits.
* `bitPacker_roundTrip_iff` — packed numbers are read back, without overflow, just when the position
  of the last one fits.
-/

inductive Profile where
  | release
  | test
  deriving DecidableEq, Repr

namespace Profile

/-- A sum or product on integers of some bits: what needs more of them panics with overflow checks and
    is cut without. -/
def fit (profile : Profile) (bits n : Nat) : Option Nat :=
  if n < 2 ^ bits then some n
  else
    match profile with
    | .test => none
    | .release => some (n % 2 ^ bits)

/-- A difference on integers of some bits. -/
def fitSub (profile : Profile) (bits a b : Nat) : Option Nat :=
  if b ≤ a then some (a - b)
  else
    match profile with
    | .test => none
    | .release => some (a + 2 ^ bits - b)

theorem fit_of_lt {profile : Profile} {bits n : Nat} (h : n < 2 ^ bits) :
    profile.fit bits n = some n := if_pos h

theorem fitSub_of_le {profile : Profile} {bits a b : Nat} (h : b ≤ a) :
    profile.fitSub bits a b = some (a - b) := if_pos h

end Profile

namespace BitUnpacker

/-- The position in bits of a number fits 32 bits; without bits there is no position. -/
def Fits (numBits idx : Nat) : Prop := numBits = 0 ∨ idx * numBits < 2 ^ 32

instance (numBits idx : Nat) : Decidable (Fits numBits idx) := inferInstanceAs (Decidable (_ ∨ _))

/-- `get` in a profile. With its checks `idx * self.num_bits as u32` panics when it overflows, and the
    assertion compares with the length of the data as a `u32`. -/
def getIn (profile : Profile) (u : BitUnpacker) (idx : Nat) (data : Bytes) : Option Nat :=
  match profile with
  | .release => u.get idx data
  | .test =>
    if ¬Fits u.numBits idx then none
    else if u.numBits ≠ 0 ∧ data.length % 2 ^ 32 < idx * u.numBits / 8 + 8 then none
    else u.get idx data

variable {numBits : Nat}

theorem Fits.mono {i j : Nat} (h : Fits numBits j) (hij : i ≤ j) : Fits numBits i :=
  h.imp_right fun hlt => (Nat.mul_le_mul_right numBits hij).trans_lt hlt

/-- The data has the eight bytes that are read, by its length as a `u32` where this is compared. -/
def InData (profile : Profile) (numBits idx : Nat) (data : Bytes) : Prop :=
  numBits = 0 ∨ idx * numBits / 8 + 8 ≤
    match profile with
    | .release => data.length
    | .test => data.length % 2 ^ 32

variable {profile : Profile} {data : Bytes}

variable {idx : Nat}

theorem InData.release (h : InData profile numBits idx data) :
    InData .release numBits idx data := by
  cases profile with
  | release => exact h
  | test => exact h.imp_right fun hle => hle.trans (Nat.mod_le _ _)

theorem InData.mono {i j : Nat} (h : InData profile numBits j data) (hij : i ≤ j) :
    InData profile numBits i data := by
  refine h.imp_right fun hle => le_trans ?_ hle
  have := Nat.div_le_div_right (c := 8) (Nat.mul_le_mul_right numBits hij)
  omega

/-- Where the position fits, and the data is there, the checks pass. -/
theorem getIn_eq_get (hfits : Fits numBits idx) (hdata : InData profile numBits idx data) :
    (new numBits).getIn profile idx data = (new numBits).get idx data := by
  cases profile with
  | release => rfl
  | test =>
    have hassert : ¬(numBits ≠ 0 ∧ data.length % 2 ^ 32 < idx * numBits / 8 + 8) := by
      rintro ⟨hne, hlt⟩
      have hle : idx * numBits / 8 + 8 ≤ data.length % 2 ^ 32 := hdata.resolve_left hne
      omega
    show (if ¬Fits numBits idx then none else
      if numBits ≠ 0 ∧ data.length % 2 ^ 32 < idx * numBits / 8 + 8 then none else _) = _
    rw [if_neg (not_not_intro hfits), if_neg hassert]

/-- With the checks a number is only read where its position fits and the data is there. -/
theorem of_getIn_test {val : Nat} (h : (new numBits).getIn .test idx data = some val) :
    Fits numBits idx ∧ InData .test numBits idx data := by
  change (if ¬Fits numBits idx then none else
    if numBits ≠ 0 ∧ data.length % 2 ^ 32 < idx * numBits / 8 + 8 then none else _) = _ at h
  split at h
  · cases h
  · rename_i hfits
    split at h
    · cases h
    · rename_i hassert
      refine ⟨not_not.mp hfits, ?_⟩
      by_cases hzero : numBits = 0
      · exact Or.inl hzero
      · exact Or.inr (Nat.le_of_not_lt fun hlt => hassert ⟨hzero, hlt⟩)

/-- **Reading a number in either profile.** -/
theorem getIn_eq (hbits : numBits ≤ 56 ∨ numBits = 64) (hfits : Fits numBits idx)
    (hdata : InData profile numBits idx data) :
    (new numBits).getIn profile idx data =
      some (ofLE data / 2 ^ (idx * numBits) % 2 ^ numBits) := by
  rw [getIn_eq_get hfits hdata]
  rcases hfits with rfl | hlt
  · rw [Nat.mul_zero, Nat.pow_zero, Nat.mod_one]
    rfl
  · have hread := @get_eq numBits idx data hbits
    rw [Nat.mod_eq_of_lt hlt] at hread
    exact hread hdata.release

/-- The numbers of one width in the data of a packer, whatever follows them. -/
theorem getIn_pack {vals : List Nat} (hbits : numBits ≤ 56 ∨ numBits = 64)
    (hvals : ∀ v ∈ vals, v < 2 ^ numBits) (post : List (Nat × Nat))
    (hpacked : ofLE data = packed (vals.map (fun v => (v, numBits)) ++ post)) {i v : Nat}
    (hv : vals[i]? = some v) (hfits : Fits numBits i) (hdata : InData profile numBits i data) :
    (new numBits).getIn profile i data = some v := by
  rw [getIn_eq hbits hfits hdata, hpacked, packed_at hvals post hv]

end BitUnpacker

/-- **Bit packing.** The numbers up to a maximum are read back from what a packer writes for them, in
    both profiles and without overflow of a position, just when the position of the last one fits. -/
theorem bitPacker_roundTrip_iff {max : Nat} (hmax : max < 2 ^ 64) {vals : List Nat}
    (hvals : ∀ v ∈ vals, v ≤ max) (hlen : vals.length < 2 ^ 32) :
    (∀ (profile : Profile) i v, vals[i]? = some v →
      BitUnpacker.Fits (computeNumBits max) i ∧
      (BitUnpacker.new (computeNumBits max)).getIn profile i
        (BitPacker.pack (vals.map fun v => (v, computeNumBits max))) = some v) ↔
      BitUnpacker.Fits (computeNumBits max) (vals.length - 1) := by
  have hle := computeNumBits_le max
  constructor
  · intro hread
    cases hlast : vals.getLast? with
    | none =>
      rw [List.getLast?_eq_none_iff.mp hlast]
      exact Or.inr (by rw [List.length_nil, Nat.zero_sub, Nat.zero_mul]; decide)
    | some v =>
      rw [List.getLast?_eq_getElem?] at hlast
      exact (hread .release _ v hlast).1
  · intro hfits profile i v hv
    obtain ⟨hi, -⟩ := List.getElem?_eq_some_iff.mp hv
    have hfitsI := hfits.mono (Nat.le_sub_one_of_lt hi)
    refine ⟨hfitsI, ?_⟩
    have hwidth : ∀ v ∈ vals, v < 2 ^ computeNumBits max := fun v hv =>
      lt_two_pow_computeNumBits (hvals v hv) hmax
    have hpairs : ∀ x ∈ vals.map (fun v => (v, computeNumBits max)), x.1 < 2 ^ x.2 ∧ x.2 ≤ 64 := by
      intro x hx
      obtain ⟨v, hv, rfl⟩ := List.mem_map.mp hx
      exact ⟨hwidth v hv, hle⟩
    obtain ⟨hspell, hlength⟩ := BitPacker.pack_spec hpairs
    rw [totalBits_map_const] at hlength
    refine BitUnpacker.getIn_pack (computeNumBits_cases max) hwidth [] ?_ hv hfitsI ?_
    · rw [List.append_nil, hspell]
    -- the numbers take fewer than 2^29 + 8 bytes, and seven bytes follow them
    · by_cases hzero : computeNumBits max = 0
      · exact Or.inl hzero
      · have hbound := hfits.resolve_left hzero
        have hnext : (i + 1) * computeNumBits max ≤ vals.length * computeNumBits max :=
          Nat.mul_le_mul_right _ hi
        have htotal : vals.length * computeNumBits max =
            (vals.length - 1) * computeNumBits max + computeNumBits max := by
          rw [← Nat.succ_mul]
          congr 1
          omega
        rw [Nat.succ_mul] at hnext
        right
        cases profile with
        | release =>
          show _ ≤ (BitPacker.pack _).length
          omega
        | test =>
          show _ ≤ (BitPacker.pack _).length % 2 ^ 32
          rw [Nat.mod_eq_of_lt (by omega)]
          omega

/-- Three numbers up to 5, of three bits each. -/
theorem bitPacker_roundTrip_three :
    (∀ (profile : Profile) i v, [5, 0, 3][i]? = some v →
      BitUnpacker.Fits (computeNumBits 5) i ∧
      (BitUnpacker.new (computeNumBits 5)).getIn profile i
        (BitPacker.pack ([5, 0, 3].map fun v => (v, computeNumBits 5))) = some v) ↔
      BitUnpacker.Fits (computeNumBits 5) 2 :=
  bitPacker_roundTrip_iff (by decide) (by decide) (by decide)

/-- The last of 2^31 + 1 numbers of two bits starts at bit 2^32. -/
theorem bitPacker_overflows :
    ¬∀ (max : Nat) (vals : List Nat), max < 2 ^ 64 → (∀ v ∈ vals, v ≤ max) → vals.length < 2 ^ 32 →
      ∀ (profile : Profile) i v, vals[i]? = some v →
        BitUnpacker.Fits (computeNumBits max) i ∧
        (BitUnpacker.new (computeNumBits max)).getIn profile i
          (BitPacker.pack (vals.map fun v => (v, computeNumBits max))) = some v := by
  intro hall
  have hget : (List.replicate (2 ^ 31 + 1) 3)[2 ^ 31]? = some 3 := by
    rw [List.getElem?_replicate, if_pos (by decide)]
  have hread := hall 3 (List.replicate (2 ^ 31 + 1) 3) (by decide)
    (fun v hv => (List.eq_of_mem_replicate hv).le) (by rw [List.length_replicate]; decide)
    .test (2 ^ 31) 3 hget
  have hno : ¬BitUnpacker.Fits (computeNumBits 3) (2 ^ 31) := by decide
  exact hno hread.1

end TeaclaveCrates.Tantivy.FastFieldCodecs
