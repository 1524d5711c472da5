import TeaclaveCrates.Lib.Checked
import Mathlib.Data.Set.Card
import Mathlib.Tactic.Linarith
import Mathlib.Tactic.Ring
import Mathlib.Tactic.LinearCombination

namespace TeaclaveCrates.Rand

open TeaclaveCrates.Lib

/-!
# rand — uniform integers

`uniform_int_impl!` of `distributions/uniform.rs`, and `wmul` of `distributions/utils.rs`. A value of
a type is its bit pattern, and `None` of an outer option is a panic.

* `wmul`, `wmul_exact` — the product of double width;
* `newInclusive`, `UniformInt.sample`, `sampleSingleInclusive` — the samplers;
* `Unbiased` — a sampler returns each value of a range for equally many source words;
* `ncard_accepted` — how many words are accepted for a value;
* `uniform_unbiased` — both samplers are unbiased.
-/

/-! ### The widening product -/

/-- `wmul_impl!`, through the type of double width. -/
def wmulImpl {W : Nat} (x y : BitVec W) : Option (BitVec W × BitVec W) := do
  let tmp ← checkedMul (x.setWidth (W + W)) (y.setWidth (W + W))
  return ((tmp >>> W).setWidth W, tmp.setWidth W)

/-- `wmul_impl_large!`, through the halves. -/
def wmulImplLarge {W : Nat} (half : Nat) (x y : BitVec W) : Option (BitVec W × BitVec W) := do
  let lowerMask := BitVec.allOnes W >>> half
  let low := (x &&& lowerMask) * (y &&& lowerMask)
  let t := low >>> half
  let low := low &&& lowerMask
  let t ← checkedAdd t ((x >>> half) * (y &&& lowerMask))
  let low ← checkedAdd low ((t &&& lowerMask) <<< half)
  let high := t >>> half
  let t := low >>> half
  let low := low &&& lowerMask
  let t ← checkedAdd t ((y >>> half) * (x &&& lowerMask))
  let low ← checkedAdd low ((t &&& lowerMask) <<< half)
  let high ← checkedAdd high (t >>> half)
  let high ← checkedAdd high ((x >>> half) * (y >>> half))
  return (high, low)

/-- `usize` takes the product of the type of its width. -/
def wmul {W : Nat} (x y : BitVec W) : Option (BitVec W × BitVec W) :=
  if W = 128 then wmulImplLarge 64 x y else wmulImpl x y

/-! ### The samplers -/

/-- The widths of the integer types; the target has the one of a pointer. -/
inductive IntWidth where
  | w8 | w16 | w32 | w64 | w128 | pointer16 | pointer32 | pointer64
  deriving DecidableEq

/-- An integer type: its width, that of the numbers drawn, and its sign. -/
structure IntTy where
  signed : Bool
  width : IntWidth

/-- The bits of `$ty` and of `$unsigned`. -/
def IntTy.bits (t : IntTy) : Nat :=
  match t.width with
  | .w8 => 8
  | .w16 | .pointer16 => 16
  | .w32 | .pointer32 => 32
  | .w64 | .pointer64 => 64
  | .w128 => 128

/-- The bits of `$u_large`. -/
def IntTy.large (t : IntTy) : Nat :=
  match t.width with
  | .w8 | .w16 | .w32 | .pointer32 => 32
  | .pointer16 => 16
  | .w64 | .pointer64 => 64
  | .w128 => 128

/-- The order of `$ty`. -/
def IntTy.le (t : IntTy) (x y : BitVec t.bits) : Bool :=
  if t.signed then x.sle y else x.ule y

/-- The least number. -/
def IntTy.minValue (t : IntTy) : BitVec t.bits :=
  if t.signed then BitVec.intMin t.bits else 0

/-- The greatest number. -/
def IntTy.maxValue (t : IntTy) : BitVec t.bits :=
  if t.signed then BitVec.intMax t.bits else BitVec.allOnes t.bits

/-- A range: where it starts, how many numbers it has, and those to reject. -/
structure UniformInt (w : Nat) where
  low : BitVec w
  range : BitVec w
  z : BitVec w
  deriving DecidableEq

/-- The words that have to be rejected: `(unsigned_max - range + 1) % range`. -/
def intsToReject {W : Nat} (range : BitVec W) : Option (BitVec W) := do
  let difference ← checkedSub (BitVec.allOnes W) range
  checkedRem (← checkedAdd difference 1) range

/-- The assertion on the bounds, and the range of them. -/
def wrappedRange (t : IntTy) (low high : BitVec t.bits) : Option (BitVec t.bits) :=
  if t.le low high then some (high - low + 1) else none

/-- `new_inclusive`; `none` is a panic. -/
def newInclusive (t : IntTy) (low high : BitVec t.bits) : Option (UniformInt t.bits) := do
  let range ← wrappedRange t low high
  let rejected ← if 0 < range then intsToReject (range.setWidth t.large) else some 0
  return ⟨low, range, rejected.setWidth t.bits⟩

/-- The body of the loop: without a value the word is rejected. -/
def turn {w W : Nat} (low : BitVec w) (range zone v : BitVec W) : Option (Option (BitVec w)) := do
  let (hi, lo) ← wmul v range
  return if lo ≤ zone then some (low + hi.setWidth w) else none

/-- The loop over the source words, which does not end when none of them is accepted. -/
def turns {w W : Nat} (low : BitVec w) (range zone : BitVec W) :
    List (BitVec W) → Option (Option (BitVec w))
  | [] => some none
  | v :: words => do
    match ← turn low range zone v with
    | some x => return some x
    | none => turns low range zone words

/-- `rng.gen()` of a type takes the low bits of a source word. -/
def gen {W : Nat} (w : Nat) : List (BitVec W) → Option (BitVec w)
  | [] => none
  | v :: _ => some (v.setWidth w)

/-- Draw until the low half is in the zone. -/
def UniformInt.sample (t : IntTy) (self : UniformInt t.bits) (words : List (BitVec t.large)) :
    Option (Option (BitVec t.bits)) := do
  let range := self.range.setWidth t.large
  if 0 < range then
    let zone ← checkedSub (BitVec.allOnes t.large) (self.z.setWidth t.large)
    turns self.low range zone words
  else return gen t.bits words

/-- The zone of a single sample, by the modulus or by a shift. -/
def singleZone (t : IntTy) (range : BitVec t.large) : Option (BitVec t.large) :=
  if BitVec.allOnes t.bits ≤ BitVec.ofNat t.bits 65535 then do
    checkedSub (BitVec.allOnes t.large) (← intsToReject range)
  else do
    return (← checkedShl range range.clz.toNat) - 1

/-- The same for a single sample, which has a zone of its own. -/
def sampleSingleInclusive (t : IntTy) (low high : BitVec t.bits) (words : List (BitVec t.large)) :
    Option (Option (BitVec t.bits)) := do
  let range := (← wrappedRange t low high).setWidth t.large
  if range = 0 then return gen t.bits words
  else turns low range (← singleZone t range) words

/-! ### What the samplers are for -/

/-- There is no overflow, each word is accepted or passed over, and the values with the property,
    and no others, are returned for so many words each, which are not zero. -/
structure Unbiased {w W : Nat} (sample : List (BitVec W) → Option (Option (BitVec w)))
    (inRange : BitVec w → Prop) : Prop where
  isSome : ∀ words, (sample words).isSome
  accepted : ∀ v x words, sample [v] = some (some x) → sample (v :: words) = some (some x)
  rejected : ∀ v words, sample [v] = some none → sample (v :: words) = sample words
  none_of_not : ∀ words x, sample words = some (some x) → inRange x
  ncard_eq : ∃ k, 0 < k ∧ ∀ x, inRange x → {v | sample [v] = some (some x)}.ncard = k

theorem Unbiased.congr {w W : Nat} {sample : List (BitVec W) → Option (Option (BitVec w))}
    {p q : BitVec w → Prop} (h : Unbiased sample p) (hpq : ∀ x, p x ↔ q x) : Unbiased sample q := by
  obtain rfl : p = q := funext fun x => propext (hpq x)
  exact h

/-! ### The product is exact -/

/-- The sums of the halves, with the carries taken where the source takes them. -/
theorem halves_product (B x₁ x₀ y₁ y₀ : Nat) :
    let t := x₀ * y₀ / B + x₁ * y₀
    let u := t % B + y₁ * x₀
    (t / B + u / B + x₁ * y₁) * (B * B) + (x₀ * y₀ % B + u % B * B)
      = (B * x₁ + x₀) * (B * y₁ + y₀) := by
  intro t u
  have hp := Nat.div_add_mod (x₀ * y₀) B
  have ht := Nat.div_add_mod t B
  have hu := Nat.div_add_mod u B
  generalize x₀ * y₀ % B = p₀ at *
  generalize hp₁ : x₀ * y₀ / B = p₁ at *
  have htdef : t = p₁ + x₁ * y₀ := by simp only [t, hp₁]
  have hudef : u = t % B + y₁ * x₀ := rfl
  generalize t % B = t₀ at *
  generalize t / B = t₁ at *
  generalize u % B = u₀ at *
  generalize u / B = u₁ at *
  zify at *
  linear_combination hp + (B : ℤ) * ht + (B : ℤ) * hu + (B : ℤ) * htdef + (B : ℤ) * hudef

theorem add_mul_lt {B x y c : Nat} (hx : x < B) (hy : y ≤ B) (hc : c < B) : c + x * y < B * B := by
  have hxy : x * y ≤ x * B := Nat.mul_le_mul_left x hy
  have hsq : (x + 1) * B ≤ B * B := Nat.mul_le_mul_right B hx
  rw [Nat.add_mul, Nat.one_mul] at hsq
  omega

/-- The high and the low half of the product. -/
def Product {W : Nat} (x y : BitVec W) (o : Option (BitVec W × BitVec W)) : Prop :=
  ∃ hi lo, o = some (hi, lo) ∧ hi.toNat * 2 ^ W + lo.toNat = x.toNat * y.toNat

theorem mul_toNat_lt {W : Nat} (x y : BitVec W) : x.toNat * y.toNat < 2 ^ (W + W) := by
  rw [Nat.pow_add]
  exact Nat.mul_lt_mul'' x.isLt y.isLt

theorem wmulImpl_product {W : Nat} (x y : BitVec W) : Product x y (wmulImpl x y) := by
  have hx : (x.setWidth (W + W)).toNat = x.toNat :=
    BitVec.toNat_setWidth_of_le (Nat.le_add_left W W)
  have hy : (y.setWidth (W + W)).toNat = y.toNat :=
    BitVec.toNat_setWidth_of_le (Nat.le_add_left W W)
  have hlt := mul_toNat_lt x y
  obtain ⟨tmp, hmul, htmp⟩ := checkedMul_represents (x := x.setWidth (W + W))
    (y := y.setWidth (W + W)) (by rwa [hx, hy])
  rw [hx, hy] at htmp
  refine ⟨(tmp >>> W).setWidth W, tmp.setWidth W, by simp only [wmulImpl, hmul]; rfl, ?_⟩
  have hdiv : tmp.toNat / 2 ^ W < 2 ^ W := by
    rw [Nat.div_lt_iff_lt_mul (Nat.two_pow_pos W), ← Nat.pow_add]
    exact tmp.isLt
  rw [BitVec.toNat_setWidth, BitVec.toNat_setWidth, BitVec.toNat_ushiftRight,
    Nat.shiftRight_eq_div_pow, Nat.mod_eq_of_lt hdiv, ← htmp, Nat.mul_comm]
  exact Nat.div_add_mod _ _

section

variable {half : Nat}

variable (x : BitVec (half + half))

theorem lowerMask_toNat :
    (x &&& BitVec.allOnes (half + half) >>> half).toNat = x.toNat % 2 ^ half := by
  have hmask : (2 ^ (half + half) - 1) / 2 ^ half = 2 ^ half - 1 := by
    have hpos := Nat.two_pow_pos half
    rw [Nat.pow_add]
    refine Nat.div_eq_of_lt_le ?_ ?_
    · rw [Nat.sub_mul, Nat.one_mul]
      omega
    · rw [Nat.sub_add_cancel hpos]
      exact Nat.sub_lt (Nat.mul_pos hpos hpos) Nat.one_pos
  rw [BitVec.toNat_and, BitVec.toNat_ushiftRight, BitVec.toNat_allOnes, Nat.shiftRight_eq_div_pow,
    hmask, Nat.and_two_pow_sub_one_eq_mod]

theorem shiftRight_toNat : (x >>> half).toNat = x.toNat / 2 ^ half := by
  rw [BitVec.toNat_ushiftRight, Nat.shiftRight_eq_div_pow]

theorem div_two_pow_lt : x.toNat / 2 ^ half < 2 ^ half := by
  rw [Nat.div_lt_iff_lt_mul (Nat.two_pow_pos half), ← Nat.pow_add]
  exact x.isLt

theorem mod_two_pow_lt (half x : Nat) : x % 2 ^ half < 2 ^ half :=
  Nat.mod_lt _ (Nat.two_pow_pos half)

/-- The product of two halves does not wrap. -/
theorem mul_toNat_of_lt {x y : BitVec (half + half)} (hx : x.toNat < 2 ^ half)
    (hy : y.toNat < 2 ^ half) : (x * y).toNat = x.toNat * y.toNat := by
  refine BitVec.toNat_mul_of_lt ?_
  rw [Nat.pow_add]
  exact Nat.mul_lt_mul'' hx hy

/-- A half that is put into the upper place. -/
theorem shiftLeft_toNat {x : BitVec (half + half)} (hx : x.toNat < 2 ^ half) :
    (x <<< half).toNat = x.toNat * 2 ^ half := by
  rw [BitVec.toNat_shiftLeft, Nat.shiftLeft_eq]
  refine Nat.mod_eq_of_lt ?_
  rw [Nat.pow_add]
  exact Nat.mul_lt_mul_of_pos_right hx (Nat.two_pow_pos half)

theorem wmulImplLarge_product (y : BitVec (half + half)) :
    Product x y (wmulImplLarge half x y) := by
  have hsq : (2 : Nat) ^ (half + half) = 2 ^ half * 2 ^ half := Nat.pow_add 2 half half
  have hmask := @lowerMask_toNat half
  have hx₁ := div_two_pow_lt x
  have hy₁ := div_two_pow_lt y
  have hx₀ := mod_two_pow_lt half x.toNat
  have hy₀ := mod_two_pow_lt half y.toNat
  have hsum := halves_product (2 ^ half) (x.toNat / 2 ^ half) (x.toNat % 2 ^ half)
    (y.toNat / 2 ^ half) (y.toNat % 2 ^ half)
  rw [Nat.div_add_mod, Nat.div_add_mod] at hsum
  dsimp only at hsum
  have hlt := mul_toNat_lt x y
  unfold wmulImplLarge
  generalize BitVec.allOnes (half + half) >>> half = lowerMask at *
  -- the four products of the halves
  have hlow : ((x &&& lowerMask) * (y &&& lowerMask)).toNat
      = x.toNat % 2 ^ half * (y.toNat % 2 ^ half) := by
    rw [mul_toNat_of_lt (by rwa [hmask]) (by rwa [hmask]), hmask, hmask]
  have hmid : ((x >>> half) * (y &&& lowerMask)).toNat
      = x.toNat / 2 ^ half * (y.toNat % 2 ^ half) := by
    rw [mul_toNat_of_lt (by rwa [shiftRight_toNat]) (by rwa [hmask]), shiftRight_toNat, hmask]
  have hmid' : ((y >>> half) * (x &&& lowerMask)).toNat
      = y.toNat / 2 ^ half * (x.toNat % 2 ^ half) := by
    rw [mul_toNat_of_lt (by rwa [shiftRight_toNat]) (by rwa [hmask]), shiftRight_toNat, hmask]
  have hhigh : ((x >>> half) * (y >>> half)).toNat
      = x.toNat / 2 ^ half * (y.toNat / 2 ^ half) := by
    rw [mul_toNat_of_lt (by rwa [shiftRight_toNat]) (by rwa [shiftRight_toNat]),
      shiftRight_toNat, shiftRight_toNat]
  -- the sums, as `t` and `low` are overwritten
  obtain ⟨t, ht, ht'⟩ := checkedAdd_represents
    (x := ((x &&& lowerMask) * (y &&& lowerMask)) >>> half) (y := (x >>> half) * (y &&& lowerMask))
    (by
      rw [hmid, hsq]
      exact add_mul_lt hx₁ hy₀.le (shiftRight_toNat _ ▸ div_two_pow_lt _))
  rw [shiftRight_toNat, hlow, hmid] at ht'
  obtain ⟨low, hl, hl'⟩ := checkedAdd_represents
    (x := ((x &&& lowerMask) * (y &&& lowerMask)) &&& lowerMask) (y := (t &&& lowerMask) <<< half)
    (by
      rw [shiftLeft_toNat (by rw [hmask]; exact mod_two_pow_lt half _), hmask, hmask, hsq]
      exact add_mul_lt (mod_two_pow_lt half _) le_rfl (mod_two_pow_lt half _))
  rw [shiftLeft_toNat (by rw [hmask]; exact mod_two_pow_lt half _), hmask, hmask, hlow] at hl'
  have hl₁ : (low >>> half).toNat = t.toNat % 2 ^ half := by
    rw [shiftRight_toNat, hl', Nat.add_mul_div_right _ _ (Nat.two_pow_pos half),
      Nat.div_eq_of_lt (mod_two_pow_lt half _), Nat.zero_add]
  have hl₀ : (low &&& lowerMask).toNat = x.toNat % 2 ^ half * (y.toNat % 2 ^ half) % 2 ^ half := by
    rw [hmask, hl', Nat.add_mul_mod_self_right, Nat.mod_mod]
  obtain ⟨u, hu, hu'⟩ := checkedAdd_represents (x := low >>> half)
    (y := (y >>> half) * (x &&& lowerMask))
    (by
      rw [hmid', hl₁, hsq]
      exact add_mul_lt hy₁ hx₀.le (mod_two_pow_lt half _))
  rw [hl₁, hmid'] at hu'
  obtain ⟨lo, hlo, hlo'⟩ := checkedAdd_represents (x := low &&& lowerMask)
    (y := (u &&& lowerMask) <<< half)
    (by
      rw [shiftLeft_toNat (by rw [hmask]; exact mod_two_pow_lt half _), hl₀, hmask, hsq]
      exact add_mul_lt (mod_two_pow_lt half _) le_rfl (mod_two_pow_lt half _))
  rw [shiftLeft_toNat (by rw [hmask]; exact mod_two_pow_lt half _), hl₀, hmask] at hlo'
  -- the high half is part of a product that fits
  rw [← ht', ← hu', ← hlo', ← hsq] at hsum
  have hfits : t.toNat / 2 ^ half + u.toNat / 2 ^ half
      + x.toNat / 2 ^ half * (y.toNat / 2 ^ half) < 2 ^ (half + half) := by
    refine Nat.lt_of_mul_lt_mul_right (a := 2 ^ (half + half)) ?_
    rw [← Nat.pow_add]
    omega
  obtain ⟨h₁, hh₁, hh₁'⟩ := checkedAdd_represents (x := t >>> half) (y := u >>> half)
    (by
      rw [shiftRight_toNat, shiftRight_toNat]
      omega)
  rw [shiftRight_toNat, shiftRight_toNat] at hh₁'
  obtain ⟨hi, hhi, hhi'⟩ := checkedAdd_represents (x := h₁) (y := (x >>> half) * (y >>> half))
    (by rwa [hh₁', hhigh])
  rw [hh₁', hhigh] at hhi'
  refine ⟨hi, lo, ?_, by rw [hhi', hsum]⟩
  simp only [ht, hl, hu, hlo, hh₁, hhi, Option.bind_eq_bind, Option.bind_some]
  rfl

end

theorem wmul_exact {W : Nat} (x y : BitVec W) : Product x y (wmul x y) := by
  by_cases h : W = 128
  · subst h
    exact @wmulImplLarge_product 64 x y
  · rw [wmul, if_neg h]
    exact wmulImpl_product x y

/-- The halves are the quotient and the remainder. -/
theorem wmul_eq {W : Nat} (x y : BitVec W) : ∃ hi lo, wmul x y = some (hi, lo) ∧
    hi.toNat = x.toNat * y.toNat / 2 ^ W ∧ lo.toNat = x.toNat * y.toNat % 2 ^ W := by
  obtain ⟨hi, lo, hmul, hprod⟩ := wmul_exact x y
  refine ⟨hi, lo, hmul, ?_, ?_⟩
  · rw [← hprod, Nat.mul_comm, Nat.mul_add_div (Nat.two_pow_pos W), Nat.div_eq_of_lt lo.isLt,
      Nat.add_zero]
  · rw [← hprod, Nat.mul_add_mod_self_right, Nat.mod_eq_of_lt lo.isLt]

/-! ### Counting the words -/

/-- So many words are the values of a strictly monotone function. -/
theorem ncard_words {W k : Nat} {f : Nat → Nat} (hf : StrictMono f)
    (hlt : ∀ j < k, f j < 2 ^ W) : ((fun j => BitVec.ofNat W (f j)) '' {j | j < k}).ncard = k := by
  rw [Set.InjOn.ncard_image]
  · have hset : {j | j < k} = ↑(Finset.range k) := by ext j; simp
    rw [hset, Set.ncard_coe_finset, Finset.card_range]
  · intro i hi j hj heq
    have hval := congrArg BitVec.toNat heq
    rw [BitVec.toNat_ofNat, BitVec.toNat_ofNat, Nat.mod_eq_of_lt (hlt i hi),
      Nat.mod_eq_of_lt (hlt j hj)] at hval
    exact hf.injective hval

/-- The multiples of the range in an interval whose length is one: there are as many of them
    wherever it starts. -/
theorem ncard_accepted {W R Z h : Nat} (hZ : R ∣ Z + 1) (hZW : Z < 2 ^ W) (hh : h < R) :
    {v : BitVec W | v.toNat * R % 2 ^ W ≤ Z ∧ v.toNat * R / 2 ^ W = h}.ncard = (Z + 1) / R := by
  obtain ⟨k, hk⟩ := hZ
  have hR : 0 < R := by omega
  -- the first of the words
  obtain ⟨c, hc, hc'⟩ : ∃ c, h * 2 ^ W ≤ c * R ∧ c * R < h * 2 ^ W + R := by
    refine ⟨(h * 2 ^ W + R - 1) / R, ?_, ?_⟩
    · have hmod := Nat.mod_lt (h * 2 ^ W + R - 1) hR
      have hdiv := Nat.div_add_mod' (h * 2 ^ W + R - 1) R
      omega
    · have hle := Nat.div_mul_le_self (h * 2 ^ W + R - 1) R
      omega
  have hle : (h + 1) * 2 ^ W ≤ R * 2 ^ W := Nat.mul_le_mul_right _ hh
  rw [Nat.add_mul, Nat.one_mul] at hle
  have hend : (c + k) * R = c * R + (Z + 1) := by rw [hk, Nat.add_mul, Nat.mul_comm k]
  have hlast : ∀ j < k, c + j < 2 ^ W := by
    intro j hj
    have hstep : (c + j + 1) * R ≤ (c + k) * R := Nat.mul_le_mul_right R (by omega)
    rw [Nat.add_mul _ 1, Nat.one_mul] at hstep
    refine Nat.lt_of_mul_lt_mul_right (a := R) ?_
    rw [Nat.mul_comm (2 ^ W)]
    omega
  have hset : {v : BitVec W | v.toNat * R % 2 ^ W ≤ Z ∧ v.toNat * R / 2 ^ W = h}
      = (fun j => BitVec.ofNat W (c + j)) '' {j | j < k} := by
    ext v
    constructor
    · rintro ⟨hmod, rfl⟩
      have hdiv := Nat.div_add_mod' (v.toNat * R) (2 ^ W)
      have hcv : c ≤ v.toNat := by
        by_contra hlt
        have hstep : (v.toNat + 1) * R ≤ c * R := Nat.mul_le_mul_right R (by omega)
        rw [Nat.add_mul, Nat.one_mul] at hstep
        omega
      have hvk : v.toNat < c + k := Nat.lt_of_mul_lt_mul_right (a := R) (by omega)
      refine ⟨v.toNat - c, (by omega : v.toNat - c < k), ?_⟩
      show BitVec.ofNat W (c + (v.toNat - c)) = v
      rw [Nat.add_sub_cancel' hcv, BitVec.ofNat_toNat, BitVec.setWidth_eq]
    · rintro ⟨j, hj, rfl⟩
      change j < k at hj
      show _ ∧ _
      rw [BitVec.toNat_ofNat, Nat.mod_eq_of_lt (hlast j hj)]
      have hstep : (c + j + 1) * R ≤ (c + k) * R := Nat.mul_le_mul_right R (by omega)
      have hfirst : c * R ≤ (c + j) * R := Nat.mul_le_mul_right R (by omega)
      rw [Nat.add_mul _ 1, Nat.one_mul] at hstep
      have hquot : (c + j) * R / 2 ^ W = h := by
        refine Nat.div_eq_of_lt_le (by omega) ?_
        rw [Nat.add_mul h, Nat.one_mul]
        omega
      have hdiv := Nat.div_add_mod' ((c + j) * R) (2 ^ W)
      rw [hquot] at hdiv
      exact ⟨by omega, hquot⟩
  rw [hset, ncard_words (fun i j hij => Nat.add_lt_add_left hij c) hlast, hk,
    Nat.mul_div_cancel_left k hR]

/-! ### The loop -/

section

variable {w W : Nat} {low : BitVec w} {range zone : BitVec W}

theorem turn_eq (v : BitVec W) : turn low range zone v = some
    (if v.toNat * range.toNat % 2 ^ W ≤ zone.toNat then
      some (low + BitVec.ofNat w (v.toNat * range.toNat / 2 ^ W)) else none) := by
  obtain ⟨hi, lo, hmul, hhi, hlo⟩ := wmul_eq v range
  rw [turn, hmul, Option.bind_eq_bind, Option.bind_some]
  rw [← hhi, ← hlo, BitVec.ofNat_toNat]
  rfl

theorem turns_cons (v : BitVec W) (words : List (BitVec W)) :
    turns low range zone (v :: words) =
      if v.toNat * range.toNat % 2 ^ W ≤ zone.toNat then
        some (some (low + BitVec.ofNat w (v.toNat * range.toNat / 2 ^ W)))
      else turns low range zone words := by
  rw [turns, turn_eq, Option.bind_eq_bind, Option.bind_some]
  by_cases h : v.toNat * range.toNat % 2 ^ W ≤ zone.toNat
  · simp only [if_pos h]
    rfl
  · simp only [if_neg h]

/-- An accepted word gives an offset below the range, which the type can represent. -/
theorem turns_singleton_iff (hrange : range.toNat < 2 ^ w) {v : BitVec W} {x : BitVec w} :
    turns low range zone [v] = some (some x) ↔
      v.toNat * range.toNat % 2 ^ W ≤ zone.toNat ∧
        v.toNat * range.toNat / 2 ^ W = (x - low).toNat := by
  have hlt : v.toNat * range.toNat / 2 ^ W < 2 ^ w := by
    refine lt_of_le_of_lt (Nat.div_le_of_le_mul ?_) hrange
    exact Nat.mul_le_mul_right _ v.isLt.le
  rw [turns_cons]
  split
  · rename_i h
    simp only [Option.some.injEq, h, true_and]
    constructor
    · rintro rfl
      rw [BitVec.add_comm, BitVec.add_sub_cancel, BitVec.toNat_ofNat, Nat.mod_eq_of_lt hlt]
    · intro hx
      rw [hx, BitVec.ofNat_toNat, BitVec.setWidth_eq, BitVec.add_comm, BitVec.sub_add_cancel]
  · rename_i h
    simp [h, turns]

/-- The loop of a zone that ends with a multiple of the range. -/
theorem turns_unbiased (hpos : 0 < range.toNat) (hrange : range.toNat < 2 ^ w)
    (hzone : range.toNat ∣ zone.toNat + 1) :
    Unbiased (turns low range zone) fun x => (x - low).toNat < range.toNat := by
  refine ⟨?_, ?_, ?_, ?_, (zone.toNat + 1) / range.toNat, ?_, ?_⟩
  · intro words
    induction words with
    | nil => rfl
    | cons v words ih =>
      rw [turns_cons]
      split
      · rfl
      · exact ih
  · intro v x words h
    rw [turns_cons] at h ⊢
    split at h
    · rename_i hv
      rwa [if_pos hv]
    · simp [turns] at h
  · intro v words h
    rw [turns_cons] at h ⊢
    split at h
    · simp at h
    · rename_i hv
      rw [if_neg hv]
  · intro words x h
    induction words with
    | nil => simp [turns] at h
    | cons v words ih =>
      rw [turns_cons] at h
      split at h
      · rename_i hv
        have hsingle : turns low range zone [v] = some (some x) := by
          rw [turns_cons, if_pos hv]
          exact h
        rw [← ((turns_singleton_iff hrange).mp hsingle).2]
        exact (Nat.div_lt_iff_lt_mul (Nat.two_pow_pos W)).mpr <| by
          rw [Nat.mul_comm]
          exact Nat.mul_lt_mul_of_pos_left v.isLt hpos
      · exact ih h
  · exact Nat.div_pos (Nat.le_of_dvd (Nat.succ_pos _) hzone) hpos
  · intro x hx
    simp only [turns_singleton_iff hrange]
    exact ncard_accepted hzone zone.isLt hx

/-- The whole type: the words are passed on. -/
theorem gen_unbiased (hw : w ≤ W) :
    Unbiased (fun words : List (BitVec W) => some (gen w words)) fun _ => True := by
  refine ⟨fun _ => rfl, ?_, ?_, fun _ _ _ => trivial, 2 ^ (W - w), Nat.two_pow_pos _, ?_⟩
  · rintro v x words h
    exact h
  · rintro v words h
    simp [gen] at h
  · intro x _
    have hpow : 2 ^ (W - w) * 2 ^ w = 2 ^ W := by rw [← Nat.pow_add, Nat.sub_add_cancel hw]
    have hlt : ∀ j < 2 ^ (W - w), j * 2 ^ w + x.toNat < 2 ^ W := by
      intro j hj
      have hle : (j + 1) * 2 ^ w ≤ 2 ^ (W - w) * 2 ^ w := Nat.mul_le_mul_right _ hj
      rw [Nat.add_mul, Nat.one_mul] at hle
      omega
    have hset : {v : BitVec W | some (gen w [v]) = some (some x)}
        = (fun j => BitVec.ofNat W (j * 2 ^ w + x.toNat)) '' {j | j < 2 ^ (W - w)} := by
      ext v
      constructor
      · intro hv
        obtain rfl : v.setWidth w = x := by simpa [gen] using hv
        refine ⟨v.toNat / 2 ^ w, ?_, ?_⟩
        · exact (Nat.div_lt_iff_lt_mul (Nat.two_pow_pos w)).mpr (hpow.symm ▸ v.isLt)
        · dsimp only
          rw [BitVec.toNat_setWidth, Nat.div_add_mod', BitVec.ofNat_toNat, BitVec.setWidth_eq]
      · rintro ⟨j, hj, rfl⟩
        refine congrArg (some ∘ some) (BitVec.eq_of_toNat_eq ?_)
        rw [BitVec.toNat_setWidth, BitVec.toNat_ofNat, Nat.mod_eq_of_lt (hlt j hj),
          Nat.mul_add_mod_self_right, Nat.mod_eq_of_lt x.isLt]
    rw [hset, ncard_words (fun i j hij => ?_) hlt]
    exact Nat.add_lt_add_right (Nat.mul_lt_mul_of_pos_right hij (Nat.two_pow_pos w)) _

end

/-! ### The zones -/

/-- The number of words is a multiple of the range after these are taken away. -/
theorem dvd_sub_mod {N R : Nat} (hle : R ≤ N) : R ∣ N - (N - R) % R := by
  have hdiv := Nat.div_add_mod (N - R) R
  refine ⟨(N - R) / R + 1, ?_⟩
  rw [Nat.mul_add, Nat.mul_one]
  omega

theorem intsToReject_represents {W : Nat} {range : BitVec W} (hpos : 0 < range.toNat) :
    Represents (intsToReject range) ((2 ^ W - range.toNat) % range.toNat) := by
  have hone : (1 : BitVec W).toNat = 1 := by
    refine Nat.mod_eq_of_lt (Nat.one_lt_two_pow ?_)
    rintro rfl
    omega
  obtain ⟨d, hd, hd'⟩ := checkedSub_represents (x := BitVec.allOnes W) (y := range)
    (by rw [BitVec.toNat_allOnes]; omega)
  rw [BitVec.toNat_allOnes] at hd'
  obtain ⟨s, hs, hs'⟩ := checkedAdd_represents (x := d) (y := 1) (by rw [hone]; omega)
  have hne : range ≠ 0 := by
    rintro rfl
    simp at hpos
  obtain ⟨r, hr, hr'⟩ := checkedRem_represents (x := s) hne
  refine ⟨r, ?_, ?_⟩
  · simp only [intsToReject, hd, hs, hr, Option.bind_eq_bind, Option.bind_some]
  · rw [hr', hs', hd', hone]
    congr 1
    omega

theorem maxSub_represents {W R : Nat} {r : BitVec W} (hR : 0 < R) (hle : R ≤ 2 ^ W)
    (hr : r.toNat = (2 ^ W - R) % R) :
    ∃ zone, checkedSub (BitVec.allOnes W) r = some zone ∧ R ∣ zone.toNat + 1 := by
  obtain ⟨zone, hz, hz'⟩ := checkedSub_represents (x := BitVec.allOnes W) (y := r)
    (by rw [BitVec.toNat_allOnes]; omega)
  rw [BitVec.toNat_allOnes] at hz'
  refine ⟨zone, hz, ?_⟩
  rw [hz', show 2 ^ W - 1 - r.toNat + 1 = 2 ^ W - r.toNat by omega, hr]
  exact dvd_sub_mod hle

variable {t : IntTy}

theorem singleZone_spec {range : BitVec t.large} (hpos : 0 < range.toNat) :
    ∃ zone, singleZone t range = some zone ∧ range.toNat ∣ zone.toNat + 1 := by
  unfold singleZone
  split
  · obtain ⟨r, hr, hr'⟩ := intsToReject_represents hpos
    obtain ⟨zone, hz, hdvd⟩ := maxSub_represents hpos range.isLt.le hr'
    exact ⟨zone, by simp only [hr, hz, Option.bind_eq_bind, Option.bind_some], hdvd⟩
  · have hclz : range.clz.toNat < t.large := by
      have hub := range.toNat_lt_two_pow_sub_clz
      by_contra hge
      rw [Nat.sub_eq_zero_of_le (by omega), Nat.pow_zero] at hub
      omega
    have hfits : range.toNat * 2 ^ range.clz.toNat < 2 ^ t.large := by
      have hmul := Nat.mul_lt_mul_of_pos_right range.toNat_lt_two_pow_sub_clz
        (Nat.two_pow_pos range.clz.toNat)
      rwa [← Nat.pow_add, Nat.sub_add_cancel hclz.le] at hmul
    obtain ⟨s, hs, hs'⟩ := checkedShl_represents hclz hfits
    have hs₁ : 1 ≤ s.toNat := by
      rw [hs']
      exact Nat.mul_pos hpos (Nat.two_pow_pos _)
    refine ⟨s - 1, by simp only [hs]; rfl, ?_⟩
    have hone : (1 : BitVec t.large).toNat = 1 :=
      Nat.mod_eq_of_lt (Nat.one_lt_two_pow (Nat.ne_zero_of_lt hclz))
    rw [BitVec.toNat_sub_of_le (BitVec.le_def.mpr (by rwa [hone])), hone, Nat.sub_add_cancel hs₁,
      hs']
    exact Nat.dvd_mul_right _ _

/-! ### The types -/

theorem IntTy.bits_le_large (t : IntTy) : t.bits ≤ t.large := by
  rcases t with ⟨signed, width⟩
  cases width <;> simp [IntTy.bits, IntTy.large]

theorem sub_toNat {w : Nat} (x y : BitVec w) :
    (x - y).toNat = if y.toNat ≤ x.toNat then x.toNat - y.toNat else 2 ^ w + x.toNat - y.toNat := by
  rw [BitVec.toNat_sub]
  split
  · rw [show 2 ^ w - y.toNat + x.toNat = x.toNat - y.toNat + 2 ^ w by omega, Nat.add_mod_right,
      Nat.mod_eq_of_lt (by omega)]
  · rw [show 2 ^ w - y.toNat + x.toNat = 2 ^ w + x.toNat - y.toNat by omega,
      Nat.mod_eq_of_lt (by omega)]

/-- The values from the lower bound up to the upper one. -/
def IntTy.Between (t : IntTy) (low high x : BitVec t.bits) : Prop := t.le low x ∧ t.le x high

variable {high : BitVec t.bits}

/-- With bounds in order, signed or not, the offset tells which values are between them. -/
theorem IntTy.between_iff {low x : BitVec t.bits} (h : t.le low high) :
    t.Between low high x ↔ (x - low).toNat ≤ (high - low).toNat := by
  have hlow := low.isLt
  have hhigh := high.isLt
  have hx := x.isLt
  rw [sub_toNat, sub_toNat]
  unfold IntTy.Between IntTy.le at *
  cases hs : t.signed with
  | true =>
    simp only [hs, if_true, BitVec.sle_iff_toInt_le, BitVec.toInt_eq_toNat_cond] at h ⊢
    generalize 2 ^ t.bits = n at *
    grind
  | false =>
    simp only [hs, Bool.false_eq_true, if_false, BitVec.ule_iff_toNat_le] at h ⊢
    rw [if_pos h]
    split <;> omega

/-- The range is zero when it is the whole type, and otherwise the number of values. -/
theorem wrappedRange_cases {low : BitVec t.bits} (h : t.le low high) :
    ∃ range, wrappedRange t low high = some range ∧
      ((range = 0 ∧ ∀ x, t.Between low high x) ∨
        0 < range.toNat ∧
          ∀ x, t.Between low high x ↔ (x - low).toNat < range.toNat) := by
  refine ⟨high - low + 1, if_pos h, ?_⟩
  have hrange : (high - low + 1).toNat = ((high - low).toNat + 1) % 2 ^ t.bits := by
    rw [BitVec.toNat_add]
    exact Nat.add_mod_mod _ _ _
  rcases Nat.lt_or_ge ((high - low).toNat + 1) (2 ^ t.bits) with hfits | hwraps
  · rw [Nat.mod_eq_of_lt hfits] at hrange
    refine Or.inr ⟨by omega, fun x => ?_⟩
    rw [IntTy.between_iff h, hrange, Nat.lt_succ_iff]
  · have hall : (high - low).toNat + 1 = 2 ^ t.bits := by omega
    refine Or.inl ⟨BitVec.eq_of_toNat_eq (by rw [hrange, hall, Nat.mod_self]; rfl), fun x => ?_⟩
    rw [IntTy.between_iff h]
    omega

theorem setWidth_large_toNat (x : BitVec t.bits) :
    (x.setWidth t.large).toNat = x.toNat :=
  BitVec.toNat_setWidth_of_le t.bits_le_large

theorem pos_iff_toNat {w : Nat} {x : BitVec w} : 0 < x ↔ 0 < x.toNat := BitVec.lt_def

theorem setWidth_zero_large : ¬ 0 < (0 : BitVec t.bits).setWidth t.large := by
  rw [pos_iff_toNat, setWidth_large_toNat]
  exact Nat.lt_irrefl 0

/-- What `sample` does with the sampler that `new_inclusive` makes. -/
theorem newInclusive_sample {low range : BitVec t.bits}
    (h : wrappedRange t low high = some range) :
    ∃ self, newInclusive t low high = some self ∧
      (range = 0 → self.sample t = fun words => some (gen t.bits words)) ∧
      (0 < range.toNat → ∃ zone : BitVec t.large, range.toNat ∣ zone.toNat + 1 ∧
        self.sample t = turns low (range.setWidth t.large) zone) := by
  unfold newInclusive
  rw [h, Option.bind_eq_bind, Option.bind_some]
  by_cases hpos : 0 < range
  · have hwide : 0 < (range.setWidth t.large).toNat := by
      rwa [setWidth_large_toNat, ← pos_iff_toNat]
    obtain ⟨r, hr, hr'⟩ := intsToReject_represents hwide
    rw [if_pos hpos, hr]
    refine ⟨_, rfl, ?_, ?_⟩
    · rintro rfl
      exact absurd hpos (BitVec.lt_irrefl 0)
    · intro hrange
      -- fewer words than the range are rejected, and the narrow type holds the number
      have hnarrow : (r.setWidth t.bits).setWidth t.large = r := by
        have hlt : r.toNat < 2 ^ t.bits := by
          rw [hr', setWidth_large_toNat]
          exact (Nat.mod_lt _ hrange).trans range.isLt
        refine BitVec.eq_of_toNat_eq ?_
        rw [setWidth_large_toNat, BitVec.toNat_setWidth, Nat.mod_eq_of_lt hlt]
      obtain ⟨zone, hz, hdvd⟩ := maxSub_represents hwide (range.setWidth t.large).isLt.le hr'
      rw [setWidth_large_toNat] at hdvd
      refine ⟨zone, hdvd, funext fun words => ?_⟩
      unfold UniformInt.sample
      rw [if_pos (pos_iff_toNat.mpr hwide), hnarrow, hz]
      rfl
  · rw [if_neg hpos]
    refine ⟨_, rfl, ?_, fun hrange => absurd (pos_iff_toNat.mpr hrange) hpos⟩
    rintro rfl
    funext words
    exact if_neg setWidth_zero_large

/-- A single sample is the loop with a zone of its own. -/
theorem single_of_pos {low range : BitVec t.bits} (h : wrappedRange t low high = some range)
    (hpos : 0 < range.toNat) :
    ∃ zone : BitVec t.large, range.toNat ∣ zone.toNat + 1 ∧
      sampleSingleInclusive t low high = turns low (range.setWidth t.large) zone := by
  have hwide : 0 < (range.setWidth t.large).toNat := by rwa [setWidth_large_toNat]
  have hne : range.setWidth t.large ≠ 0 := by
    intro heq
    rw [heq] at hwide
    exact Nat.lt_irrefl 0 hwide
  obtain ⟨zone, hz, hdvd⟩ := singleZone_spec hwide
  rw [setWidth_large_toNat] at hdvd
  refine ⟨zone, hdvd, funext fun words => ?_⟩
  unfold sampleSingleInclusive
  rw [h, Option.bind_eq_bind, Option.bind_some]
  rw [if_neg hne, hz]
  rfl

theorem single_of_zero {low : BitVec t.bits} (h : wrappedRange t low high = some 0) :
    sampleSingleInclusive t low high = fun words => some (gen t.bits words) := by
  funext words
  unfold sampleSingleInclusive
  rw [h, Option.bind_eq_bind, Option.bind_some]
  refine if_pos (BitVec.eq_of_toNat_eq ?_)
  rw [setWidth_large_toNat]
  rfl

theorem wide_turns_unbiased {low range : BitVec t.bits} {zone : BitVec t.large}
    (hpos : 0 < range.toNat) (hdvd : range.toNat ∣ zone.toNat + 1) :
    Unbiased (turns low (range.setWidth t.large) zone)
      fun x => (x - low).toNat < range.toNat := by
  have hwide := setWidth_large_toNat range
  have hloop : Unbiased (turns low (range.setWidth t.large) zone)
      fun x => (x - low).toNat < (range.setWidth t.large).toNat :=
    turns_unbiased (by rwa [hwide]) (by rw [hwide]; exact range.isLt) (by rwa [hwide])
  rwa [hwide] at hloop

theorem IntTy.whole (t : IntTy) : wrappedRange t t.minValue t.maxValue = some 0 := by
  rcases t with ⟨signed, width⟩
  cases signed <;> cases width <;> rfl

theorem newInclusive_unbiased {low : BitVec t.bits} (h : t.le low high) :
    ∃ self, newInclusive t low high = some self ∧
      Unbiased (self.sample t) (t.Between low high) := by
  obtain ⟨range, hrange, hcases⟩ := wrappedRange_cases h
  obtain ⟨self, hself, hzero, hpos⟩ := newInclusive_sample hrange
  refine ⟨self, hself, ?_⟩
  rcases hcases with ⟨hr, hall⟩ | ⟨hr, hiff⟩
  · rw [hzero hr]
    exact (gen_unbiased t.bits_le_large).congr fun x => ⟨fun _ => hall x, fun _ => trivial⟩
  · obtain ⟨zone, hdvd, hsample⟩ := hpos hr
    rw [hsample]
    exact (wide_turns_unbiased hr hdvd).congr fun x => (hiff x).symm

/-- Both samplers are unbiased, the whole type passes the words on, and the products are exact. -/
theorem uniform_unbiased {t : IntTy} {low high : BitVec t.bits} (h : t.le low high) :
    (∃ self, newInclusive t low high = some self ∧
      Unbiased (self.sample t) (t.Between low high)) ∧
    Unbiased (sampleSingleInclusive t low high) (t.Between low high) ∧
    (low = t.minValue → high = t.maxValue → ∃ self, newInclusive t low high = some self ∧
      ∀ v words, self.sample t (v :: words) = some (some (v.setWidth t.bits)) ∧
        sampleSingleInclusive t low high (v :: words) = some (some (v.setWidth t.bits))) ∧
    ∀ W, ∀ x y : BitVec W, Product x y (wmul x y) := by
  obtain ⟨range, hrange, hcases⟩ := wrappedRange_cases h
  obtain ⟨self, hself, hzero, -⟩ := newInclusive_sample hrange
  refine ⟨newInclusive_unbiased h, ?_, ?_, fun W x y => wmul_exact x y⟩
  · rcases hcases with ⟨hr, hall⟩ | ⟨hr, hiff⟩
    · rw [single_of_zero (hr ▸ hrange)]
      exact (gen_unbiased t.bits_le_large).congr fun x => ⟨fun _ => hall x, fun _ => trivial⟩
    · obtain ⟨zone, hdvd, hsample⟩ := single_of_pos hrange hr
      rw [hsample]
      exact (wide_turns_unbiased hr hdvd).congr fun x => (hiff x).symm
  · rintro rfl rfl
    have hr : range = 0 := Option.some.inj (hrange.symm.trans t.whole)
    refine ⟨self, hself, fun v words => ⟨by rw [hzero hr]; rfl, ?_⟩⟩
    rw [single_of_zero (hr ▸ hrange)]
    rfl

theorem uniform_unbiased_die :
    ∃ self, newInclusive ⟨false, .w8⟩ 1 6 = some self ∧
      Unbiased (self.sample ⟨false, .w8⟩) (IntTy.Between ⟨false, .w8⟩ 1 6) :=
  (uniform_unbiased (t := ⟨false, .w8⟩) (by decide)).1

end TeaclaveCrates.Rand
