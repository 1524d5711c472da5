import Mathlib.Tactic.IntervalCases
import TeaclaveCrates.Tantivy.BitUnpacking
import TeaclaveCrates.Tantivy.FastFieldRoundTrip

namespace TeaclaveCrates.Tantivy.FastFieldCodecs

open TeaclaveCrates.Lib

/-!
# Ranges of values

A range of values is looked up in a column that was normalized by mapping its bounds as the values
were mapped, so the bounds have to be rounded to the values of the column.

* `Profile.sub`, `Profile.add`, `Profile.mul` — the operators on `u64` in both profiles.
* `InternalMapping`, `MonotonicMappingColumn` — the mappings, and a column behind one.
* `mappingCoerce_spec` — the values between the mapped bounds are those whose originals are between
  the bounds.
* `MonotonicMappingColumn.getDocids_eq` — a query returns the positions with a value in the range;
  `rangeQuery_exact` says so of columns that were opened, `rangeQuery_written` of written ones.
-/

namespace Profile

def sub (profile : Profile) (a b : UInt64) : Option UInt64 :=
  if profile = .test ∧ a < b then none else some (a - b)

def add (profile : Profile) (a b : UInt64) : Option UInt64 :=
  if profile = .test ∧ 2 ^ 64 ≤ a.toNat + b.toNat then none else some (a + b)

def mul (profile : Profile) (a b : UInt64) : Option UInt64 :=
  if profile = .test ∧ 2 ^ 64 ≤ a.toNat * b.toNat then none else some (a * b)

variable {profile : Profile} {a b : UInt64}

theorem sub_eq (h : b ≤ a) : profile.sub a b = some (a - b) :=
  if_neg fun hlt => absurd h (UInt64.not_le.mpr hlt.2)

theorem add_eq (h : a.toNat + b.toNat < 2 ^ 64) : profile.add a b = some (a + b) :=
  if_neg fun hle => absurd h (Nat.not_lt.mpr hle.2)

theorem mul_eq (h : a.toNat * b.toNat < 2 ^ 64) : profile.mul a b = some (a * b) :=
  if_neg fun hle => absurd h (Nat.not_lt.mpr hle.2)

end Profile

/-- The default of `get_docids_for_value_range`, from a position on. -/
def DynColumn.scan (c : DynColumn UInt64) (lo hi : UInt64) : Nat → Nat → Option (List Nat)
  | _, 0 => some []
  | idx, n + 1 =>
    match c.getVal idx with
    | none => none
    | some val =>
      (c.scan lo hi (idx + 1) n).map fun positions =>
        if lo ≤ val ∧ val ≤ hi then idx :: positions else positions

/-- `get_docids_for_value_range`, where a column does not have its own: the positions it appends. -/
def DynColumn.getDocidsForValueRange (c : DynColumn UInt64) (lo hi : UInt64) (start stop : Nat) :
    Option (List Nat) :=
  c.scan lo hi start (min stop c.numVals - start)

/-- The mappings to internal values: `StrictlyMonotonicMappingToInternalGCDBaseval` and
    `StrictlyMonotonicMappingToInternalBaseval`. -/
inductive InternalMapping where
  | gcdBaseval (gcd minValue : UInt64)
  | baseval (minValue : UInt64)

namespace InternalMapping

variable (divide : UInt64 → UInt64 → UInt64) (profile : Profile)

def mapping (inp : UInt64) : InternalMapping → Option UInt64
  | .gcdBaseval gcd minValue => (profile.sub inp minValue).map (divide gcd)
  | .baseval minValue => profile.sub inp minValue

def inverse (out : UInt64) : InternalMapping → Option UInt64
  | .gcdBaseval gcd minValue => (profile.mul out gcd).bind (profile.add minValue ·)
  | .baseval minValue => profile.add minValue out

/-- The closure `map_coerce`. -/
def mapCoerce (gcd minValue inp : UInt64) (coerceUp : Bool) : Option UInt64 := do
  let inpLowerBound ← (gcdBaseval gcd minValue).inverse profile 0
  let val := if inp < inpLowerBound then inpLowerBound else inp
  let distance ← profile.sub val minValue
  let needCoercion := coerceUp && decide (distance % gcd ≠ 0)
  let mappedVal ← (gcdBaseval gcd minValue).mapping divide profile val
  if needCoercion then profile.add mappedVal 1 else some mappedVal

def mappingCoerce (lo hi : UInt64) : InternalMapping → Option (UInt64 × UInt64)
  | .gcdBaseval gcd minValue =>
    if hi < minValue ∨ hi < lo then some (1, 0)
    else do
      let start ← mapCoerce divide profile gcd minValue lo true
      let stop ← mapCoerce divide profile gcd minValue hi false
      some (start, stop)
  | .baseval minValue =>
    if hi < minValue then some (1, 0)
    else do
      let start ← (baseval minValue).mapping divide profile (if lo < minValue then minValue else lo)
      let stop ← (baseval minValue).mapping divide profile hi
      some (start, stop)

def gcd : InternalMapping → UInt64
  | .gcdBaseval gcd _ => gcd
  | .baseval _ => 1

def minValue : InternalMapping → UInt64
  | .gcdBaseval _ minValue => minValue
  | .baseval minValue => minValue

end InternalMapping

/-- A column behind the inverse of a mapping. -/
structure MonotonicMappingColumn where
  fromColumn : DynColumn UInt64
  orig : InternalMapping

namespace MonotonicMappingColumn

variable (divide : UInt64 → UInt64 → UInt64) (profile : Profile) (c : MonotonicMappingColumn)

def getVal (idx : Nat) : Option UInt64 :=
  (c.fromColumn.getVal idx).bind fun fromVal => c.orig.inverse profile fromVal

def minValue : Option UInt64 := c.orig.inverse profile c.fromColumn.minValue

def maxValue : Option UInt64 := c.orig.inverse profile c.fromColumn.maxValue

def numVals : Nat := c.fromColumn.numVals

def getDocidsForValueRange (lo hi : UInt64) (start stop : Nat) : Option (List Nat) := do
  let maxValue ← c.maxValue profile
  if maxValue < lo then some []
  else
    let minValue ← c.minValue profile
    if hi < minValue then some []
    else
      let (rangeStart, rangeEnd) ← c.orig.mappingCoerce divide profile lo hi
      if rangeEnd < rangeStart then some []
      else c.fromColumn.getDocidsForValueRange rangeStart rangeEnd start stop

end MonotonicMappingColumn

/-- The mapping of a header. -/
def Header.mapping (h : Header) : InternalMapping :=
  match h.gcd with
  | some gcd => .gcdBaseval gcd h.minValue
  | none => .baseval h.minValue

/-- `open_specific_codec`, for `u64`: the reader and its mapping. -/
def openMapped (divide : UInt64 → UInt64 → UInt64) (bytes : Bytes) (header : Header) :
    Option MonotonicMappingColumn :=
  (openFromBytes bytes (header.normalized divide) header.codecType).map (⟨·, header.mapping⟩)

/-! ### Rounding the bounds -/

/-- Dividing and rounding up. -/
theorem ceil_le_iff {d g q : Nat} (hg : 0 < g) :
    (if d % g ≠ 0 then d / g + 1 else d / g) ≤ q ↔ d ≤ q * g := by
  by_cases hrem : d % g = 0
  · have hexact : d / g * g = d := Nat.div_mul_cancel (Nat.dvd_of_mod_eq_zero hrem)
    rw [if_neg (not_not_intro hrem), ← Nat.mul_le_mul_right_iff hg, hexact]
  · rw [if_pos hrem, Nat.succ_le_iff, Nat.div_lt_iff_lt_mul hg]
    constructor
    · exact Nat.le_of_lt
    · intro hle
      refine Nat.lt_of_le_of_ne hle ?_
      rintro rfl
      exact hrem (Nat.mul_mod_left _ _)

namespace InternalMapping

/-- The original of an internal value, as a number. -/
def original (m : InternalMapping) (out : UInt64) : Nat :=
  m.minValue.toNat + out.toNat * m.gcd.toNat

/-- **The inverse** adds and multiplies without an overflow where the original is a `u64`. -/
theorem inverse_eq {m : InternalMapping} {out : UInt64} (profile : Profile)
    (hroom : m.original out < 2 ^ 64) :
    m.inverse profile out = some (UInt64.ofNat (m.original out)) := by
  have hof : UInt64.ofNat (m.original out) = m.minValue + out * m.gcd := by
    simp [original, UInt64.ofNat_add, UInt64.ofNat_mul, UInt64.ofNat_toNat]
  rw [hof]
  cases m with
  | gcdBaseval gcd minValue =>
    change minValue.toNat + out.toNat * gcd.toNat < 2 ^ 64 at hroom
    have hmul : (out * gcd).toNat = out.toNat * gcd.toNat := by
      rw [UInt64.toNat_mul, Nat.mod_eq_of_lt (by omega)]
    show (profile.mul out gcd).bind (profile.add minValue ·) = some (minValue + out * gcd)
    rw [Profile.mul_eq (by omega), Option.bind_some, Profile.add_eq (by omega)]
  | baseval minValue =>
    change minValue.toNat + out.toNat * 1 < 2 ^ 64 at hroom
    show profile.add minValue out = some (minValue + out * 1)
    rw [Profile.add_eq (by omega), UInt64.mul_one]

/-- A bound below the minimum is moved to it. -/
theorem raise_spec (inp minValue : UInt64) :
    minValue ≤ (if inp < minValue then minValue else inp) ∧
      (if inp < minValue then minValue else inp).toNat = max inp.toNat minValue.toNat := by
  by_cases hlt : inp < minValue
  · have hnat := UInt64.lt_iff_toNat_lt.mp hlt
    rw [if_pos hlt]
    exact ⟨UInt64.le_refl _, by omega⟩
  · have hnat := UInt64.le_iff_toNat_le.mp (UInt64.not_lt.mp hlt)
    rw [if_neg hlt]
    exact ⟨UInt64.not_lt.mp hlt, by omega⟩

variable {divide : UInt64 → UInt64 → UInt64} (hdivide : ExactDivide divide)

include hdivide

/-- **One bound.** It is moved to the minimum where it is below, and divided with the rounding that
    is asked for. -/
theorem mapCoerce_eq (profile : Profile) {gcd : UInt64} (hgcd : gcd ≠ 0) (minValue inp : UInt64)
    (coerceUp : Bool) :
    ∃ out : UInt64, mapCoerce divide profile gcd minValue inp coerceUp = some out ∧
      out.toNat =
        if coerceUp ∧ (max inp.toNat minValue.toNat - minValue.toNat) % gcd.toNat ≠ 0 then
          (max inp.toNat minValue.toNat - minValue.toNat) / gcd.toNat + 1
        else (max inp.toNat minValue.toNat - minValue.toNat) / gcd.toNat := by
  -- the mapping takes zero to the minimum
  have hinverse : (gcdBaseval gcd minValue).inverse profile 0 = some minValue := by
    have hzero : (gcdBaseval gcd minValue).original 0 = minValue.toNat := by
      show minValue.toNat + 0 * gcd.toNat = _
      simp
    rw [inverse_eq profile (by rw [hzero]; exact minValue.toNat_lt), hzero, UInt64.ofNat_toNat]
  obtain ⟨hle, hnat⟩ := raise_spec inp minValue
  generalize hval : (if inp < minValue then minValue else inp) = val at hle hnat
  have hdistance : (val - minValue).toNat = max inp.toNat minValue.toNat - minValue.toNat := by
    rw [UInt64.toNat_sub_of_le _ _ hle, hnat]
  have hmapping : (gcdBaseval gcd minValue).mapping divide profile val =
      some ((val - minValue) / gcd) := by
    show (profile.sub val minValue).map (divide gcd) = _
    rw [Profile.sub_eq hle, Option.map_some, hdivide gcd _ hgcd]
  have hquotient : ((val - minValue) / gcd).toNat =
      (max inp.toNat minValue.toNat - minValue.toNat) / gcd.toNat := by
    rw [UInt64.toNat_div, hdistance]
  -- words leave the remainder that their numbers leave
  have hrem : (val - minValue) % gcd ≠ 0 ↔
      (max inp.toNat minValue.toNat - minValue.toNat) % gcd.toNat ≠ 0 := by
    rw [ne_eq, ← UInt64.toNat_inj, UInt64.toNat_mod, hdistance]
    rfl
  -- none of the subtractions underflows
  have hstep : mapCoerce divide profile gcd minValue inp coerceUp =
      if coerceUp && decide ((val - minValue) % gcd ≠ 0) then
        profile.add ((val - minValue) / gcd) 1 else some ((val - minValue) / gcd) := by
    unfold mapCoerce
    simp [hinverse, Option.bind_eq_bind, Option.bind_some, hval, Profile.sub_eq hle, hmapping]
  rw [hstep, ← hquotient]
  by_cases hup : coerceUp = true ∧ (val - minValue) % gcd ≠ 0
  · -- a remainder is left by a divisor of two at least, so the quotient is no greatest number
    have hsmall : ((val - minValue) / gcd).toNat + 1 < 2 ^ 64 := by
      have hne : gcd.toNat ≠ 1 := by
        intro hone
        rw [hrem, hone, Nat.mod_one] at hup
        exact hup.2 rfl
      have hne0 : gcd.toNat ≠ 0 := fun h => hgcd (UInt64.toNat_inj.mp h)
      have hhalf : (val - minValue).toNat / gcd.toNat ≤ (val - minValue).toNat / 2 :=
        Nat.div_le_div_left (by omega) (by decide)
      have hlt := (val - minValue).toNat_lt
      rw [UInt64.toNat_div]
      omega
    have hone : (1 : UInt64).toNat = 1 := rfl
    refine ⟨(val - minValue) / gcd + 1, ?_, ?_⟩
    · rw [if_pos (by rw [hup.1, decide_eq_true hup.2]; rfl), Profile.add_eq (by exact hsmall)]
    · rw [if_pos ⟨hup.1, hrem.mp hup.2⟩, UInt64.toNat_add, hone, Nat.mod_eq_of_lt hsmall]
  · refine ⟨(val - minValue) / gcd, if_neg ?_, ?_⟩
    · rw [Bool.and_eq_true, decide_eq_true_iff]
      exact hup
    · rw [if_neg fun h => hup ⟨h.1, hrem.mpr h.2⟩]

/-- **Both bounds.** The values between the mapped bounds are those whose originals are between the
    bounds. -/
theorem mappingCoerce_spec (profile : Profile) {m : InternalMapping} (hgcd : m.gcd ≠ 0)
    (lo hi : UInt64) :
    ∃ start stop, m.mappingCoerce divide profile lo hi = some (start, stop) ∧
      ∀ out : UInt64, start ≤ out ∧ out ≤ stop ↔
        lo.toNat ≤ m.original out ∧ m.original out ≤ hi.toNat := by
  -- `1..=0` is how the source returns that there is nothing
  have hempty : ∀ out : UInt64, ¬((1 : UInt64) ≤ out ∧ out ≤ 0) := by
    rintro out ⟨hone, hzero⟩
    exact absurd (UInt64.le_trans hone hzero) (by decide)
  cases m with
  | gcdBaseval gcd minValue =>
    change gcd ≠ 0 at hgcd
    have horiginal : ∀ out : UInt64,
        (gcdBaseval gcd minValue).original out = minValue.toNat + out.toNat * gcd.toNat :=
      fun out => rfl
    rw [mappingCoerce]
    by_cases hnone : hi < minValue ∨ hi < lo
    · rw [if_pos hnone]
      refine ⟨1, 0, rfl, fun out => iff_of_false (hempty out) ?_⟩
      rw [horiginal]
      rw [UInt64.lt_iff_toNat_lt, UInt64.lt_iff_toNat_lt] at hnone
      omega
    · obtain ⟨start, hstart, hstartNat⟩ := mapCoerce_eq hdivide profile hgcd minValue lo true
      obtain ⟨stop, hstop, hstopNat⟩ := mapCoerce_eq hdivide profile hgcd minValue hi false
      rw [if_neg hnone, hstart, hstop]
      refine ⟨start, stop, rfl, fun out => ?_⟩
      have hpos : 0 < gcd.toNat :=
        Nat.pos_of_ne_zero fun h => hgcd (UInt64.toNat_inj.mp h)
      have hle : minValue.toNat ≤ hi.toNat := by
        rw [not_or, UInt64.not_lt, UInt64.le_iff_toNat_le] at hnone
        exact hnone.1
      -- the lower bound is rounded up
      have hlower : start ≤ out ↔ lo.toNat ≤ minValue.toNat + out.toNat * gcd.toNat := by
        have hceil := @ceil_le_iff (max lo.toNat minValue.toNat - minValue.toNat) gcd.toNat
          out.toNat hpos
        simp only [true_and] at hstartNat
        rw [← hstartNat] at hceil
        rw [UInt64.le_iff_toNat_le, hceil]
        omega
      -- the upper bound is rounded down
      have hupper : out ≤ stop ↔ minValue.toNat + out.toNat * gcd.toNat ≤ hi.toNat := by
        simp only [Bool.false_eq_true, false_and, if_false] at hstopNat
        rw [UInt64.le_iff_toNat_le, hstopNat, Nat.le_div_iff_mul_le hpos]
        omega
      rw [hlower, hupper, horiginal]
  | baseval minValue =>
    have horiginal : ∀ out : UInt64,
        (baseval minValue).original out = minValue.toNat + out.toNat := fun out => by
      show minValue.toNat + out.toNat * 1 = _
      simp
    rw [mappingCoerce]
    by_cases hnone : hi < minValue
    · rw [if_pos hnone]
      refine ⟨1, 0, rfl, fun out => iff_of_false (hempty out) ?_⟩
      rw [horiginal]
      rw [UInt64.lt_iff_toNat_lt] at hnone
      omega
    · have hhi : minValue ≤ hi := UInt64.not_lt.mp hnone
      obtain ⟨hle, hnat⟩ := raise_spec lo minValue
      generalize hval : (if lo < minValue then minValue else lo) = val at hle hnat
      rw [if_neg hnone]
      refine ⟨val - minValue, hi - minValue, ?_, fun out => ?_⟩
      · show ((profile.sub val minValue).bind fun start =>
          (profile.sub hi minValue).bind fun stop => some (start, stop)) = _
        simp [Profile.sub_eq hle, Profile.sub_eq hhi]
      · rw [UInt64.le_iff_toNat_le, UInt64.le_iff_toNat_le, UInt64.toNat_sub_of_le _ _ hle,
          UInt64.toNat_sub_of_le _ _ hhi, hnat, horiginal]
        have := UInt64.le_iff_toNat_le.mp hhi
        omega

end InternalMapping

/-! ### Queries -/

/-- A value is there and in the range. -/
def inRange (lo hi : UInt64) : Option UInt64 → Bool
  | some val => decide (lo ≤ val ∧ val ≤ hi)
  | none => false

/-- The positions from `start` up to `stop` with a value in the range, of `numVals` positions. -/
def positionsInRange (getVal : Nat → Option UInt64) (numVals : Nat) (lo hi : UInt64)
    (start stop : Nat) : List Nat :=
  (List.range' start (min stop numVals - start)).filter fun idx => inRange lo hi (getVal idx)

/-- What a column promises: there is a value at each of its positions, and it is between the
    bounds. -/
structure DynColumn.Bounded (c : DynColumn UInt64) : Prop where
  ordered : c.minValue ≤ c.maxValue
  read : ∀ idx < c.numVals, ∃ val, c.getVal idx = some val ∧ c.minValue ≤ val ∧ val ≤ c.maxValue

/-- **The default query** on a column with its values. -/
theorem DynColumn.Bounded.getDocids_eq {c : DynColumn UInt64} (h : c.Bounded) (lo hi : UInt64)
    (start stop : Nat) :
    c.getDocidsForValueRange lo hi start stop =
      some (positionsInRange c.getVal c.numVals lo hi start stop) := by
  -- by induction on the number of positions that are left
  have hscan : ∀ n idx, idx + n ≤ c.numVals → c.scan lo hi idx n =
      some ((List.range' idx n).filter fun idx => inRange lo hi (c.getVal idx)) := by
    intro n
    induction n with
    | zero => exact fun idx _ => rfl
    | succ n ih =>
      intro idx hidx
      obtain ⟨val, hval, -, -⟩ := h.read idx (by omega)
      rw [DynColumn.scan, hval]
      dsimp only
      rw [ih (idx + 1) (by omega), Option.map_some, List.range'_succ, List.filter_cons, hval]
      by_cases hin : lo ≤ val ∧ val ≤ hi
      · have htrue : inRange lo hi (some val) = true := decide_eq_true hin
        simp [hin, htrue]
      · have hout : ¬inRange lo hi (some val) = true := fun htrue => hin (of_decide_eq_true htrue)
        simp [hin, hout]
  rw [DynColumn.getDocidsForValueRange, positionsInRange]
  by_cases hle : start ≤ min stop c.numVals
  · exact hscan _ start (by omega)
  · rw [Nat.sub_eq_zero_of_le (by omega)]
    rfl

theorem positionsInRange_congr {f g : Nat → Option UInt64} {numVals start stop : Nat}
    {lo hi lo' hi' : UInt64}
    (h : ∀ idx < numVals, inRange lo hi (f idx) = inRange lo' hi' (g idx)) :
    positionsInRange f numVals lo hi start stop = positionsInRange g numVals lo' hi' start stop := by
  refine List.filter_congr fun idx hidx => h idx ?_
  have hmem := List.mem_range'_1.mp hidx
  omega

theorem positionsInRange_eq_nil {f : Nat → Option UInt64} {numVals start stop : Nat}
    {lo hi : UInt64} (h : ∀ idx < numVals, inRange lo hi (f idx) = false) :
    positionsInRange f numVals lo hi start stop = [] := by
  rw [positionsInRange, List.filter_eq_nil_iff]
  intro idx hidx
  have hmem := List.mem_range'_1.mp hidx
  rw [h idx (by omega)]
  exact Bool.false_ne_true

namespace MonotonicMappingColumn

variable {divide : UInt64 → UInt64 → UInt64} (hdivide : ExactDivide divide)
  {c : MonotonicMappingColumn} (hgcd : c.orig.gcd ≠ 0) (hbounded : c.fromColumn.Bounded)
  (hroom : c.orig.original c.fromColumn.maxValue < 2 ^ 64)

theorem original_mono (m : InternalMapping) {out out' : UInt64} (h : out ≤ out') :
    m.original out ≤ m.original out' :=
  Nat.add_le_add_left (Nat.mul_le_mul_right _ (UInt64.le_iff_toNat_le.mp h)) _

include hdivide hgcd hbounded hroom

/-- **Queries behind a mapping.** They return the positions with a value in the range. -/
theorem getDocids_eq (profile : Profile) (lo hi : UInt64) (start stop : Nat) :
    c.getDocidsForValueRange divide profile lo hi start stop =
      some (positionsInRange (c.getVal profile) c.numVals lo hi start stop) := by
  have hinverse : ∀ out ≤ c.fromColumn.maxValue,
      c.orig.inverse profile out = some (UInt64.ofNat (c.orig.original out)) ∧
        (UInt64.ofNat (c.orig.original out)).toNat = c.orig.original out := by
    intro out hout
    have hlt := (original_mono c.orig hout).trans_lt hroom
    exact ⟨InternalMapping.inverse_eq profile hlt, UInt64.toNat_ofNat_of_lt' hlt⟩
  -- a value of the column, and its number
  have hvalue : ∀ idx < c.numVals, ∃ out val, c.fromColumn.getVal idx = some out ∧
      c.getVal profile idx = some val ∧ val.toNat = c.orig.original out ∧
      c.fromColumn.minValue ≤ out ∧ out ≤ c.fromColumn.maxValue := by
    intro idx hidx
    obtain ⟨out, hout, hmin, hmax⟩ := hbounded.read idx hidx
    obtain ⟨hval, hnat⟩ := hinverse out hmax
    exact ⟨out, _, hout, by rw [getVal, hout, Option.bind_some, hval], hnat, hmin, hmax⟩
  -- there is nothing to return where no value can be in the range
  have hempty : (∀ idx < c.numVals, ∀ val, c.getVal profile idx = some val →
      ¬(lo ≤ val ∧ val ≤ hi)) →
      some [] = some (positionsInRange (c.getVal profile) c.numVals lo hi start stop) := by
    intro hout
    rw [positionsInRange_eq_nil]
    intro idx hidx
    obtain ⟨out, val, -, hval, -⟩ := hvalue idx hidx
    rw [hval]
    exact decide_eq_false (hout idx hidx val hval)
  obtain ⟨rangeStart, rangeEnd, hcoerce, hbetween⟩ :=
    InternalMapping.mappingCoerce_spec hdivide profile hgcd lo hi
  obtain ⟨hmax, hmaxNat⟩ := hinverse c.fromColumn.maxValue (UInt64.le_refl _)
  obtain ⟨hmin, hminNat⟩ := hinverse c.fromColumn.minValue hbounded.ordered
  rw [getDocidsForValueRange, maxValue, minValue, hmax, hmin, hcoerce]
  dsimp only [Option.bind_eq_bind, Option.bind_some]
  -- the two early returns, and bounds that have nothing between them once they are mapped
  by_cases habove : UInt64.ofNat (c.orig.original c.fromColumn.maxValue) < lo
  · rw [if_pos habove]
    rw [UInt64.lt_iff_toNat_lt, hmaxNat] at habove
    apply hempty
    rintro idx hidx val hval ⟨hlo, -⟩
    obtain ⟨out, val', -, hval', hnat, -, hle⟩ := hvalue idx hidx
    obtain rfl : val' = val := Option.some.inj (hval'.symm.trans hval)
    have hmono := original_mono c.orig hle
    rw [UInt64.le_iff_toNat_le] at hlo
    omega
  · rw [if_neg habove]
    by_cases hbelow : hi < UInt64.ofNat (c.orig.original c.fromColumn.minValue)
    · rw [if_pos hbelow]
      rw [UInt64.lt_iff_toNat_lt, hminNat] at hbelow
      apply hempty
      rintro idx hidx val hval ⟨-, hhi⟩
      obtain ⟨out, val', -, hval', hnat, hle, -⟩ := hvalue idx hidx
      obtain rfl : val' = val := Option.some.inj (hval'.symm.trans hval)
      have hmono := original_mono c.orig hle
      rw [UInt64.le_iff_toNat_le] at hhi
      omega
    · rw [if_neg hbelow]
      by_cases hreversed : rangeEnd < rangeStart
      · rw [if_pos hreversed]
        apply hempty
        rintro idx hidx val hval ⟨hlo, hhi⟩
        obtain ⟨out, val', -, hval', hnat, -, -⟩ := hvalue idx hidx
        obtain rfl : val' = val := Option.some.inj (hval'.symm.trans hval)
        rw [UInt64.le_iff_toNat_le, hnat] at hlo hhi
        have hmapped := (hbetween out).mpr ⟨hlo, hhi⟩
        exact UInt64.not_lt.mpr (UInt64.le_trans hmapped.1 hmapped.2) hreversed
      · rw [if_neg hreversed, hbounded.getDocids_eq]
        refine congrArg some (positionsInRange_congr fun idx hidx => ?_)
        obtain ⟨out, val, hout, hval, hnat, -, -⟩ := hvalue idx hidx
        rw [hout, hval]
        refine decide_eq_decide.mpr ?_
        rw [hbetween, UInt64.le_iff_toNat_le, UInt64.le_iff_toNat_le, hnat]

end MonotonicMappingColumn

/-! ### Opened columns -/

/-- The readers of all codecs have the bounds of the normalized header. -/
theorem openFromBytes_bounds {bytes : Bytes} {header : NormalizedHeader}
    {codec : FastFieldCodecType} {reader : DynColumn UInt64}
    (hopen : openFromBytes bytes header codec = some reader) :
    reader.minValue = 0 ∧ reader.maxValue = header.maxValue := by
  cases codec with
  | bitpacked =>
    obtain rfl := Option.some.inj hopen
    exact ⟨rfl, rfl⟩
  | linear =>
    change LinearCodec.openFromBytes bytes header = some reader at hopen
    unfold LinearCodec.openFromBytes at hopen
    split at hopen
    · cases hopen
    · obtain rfl := Option.some.inj hopen
      exact ⟨rfl, rfl⟩
  | blockwiseLinear =>
    change BlockwiseLinearCodec.openFromBytes bytes header = some reader at hopen
    unfold BlockwiseLinearCodec.openFromBytes at hopen
    split at hopen
    · cases hopen
    · dsimp only at hopen
      split at hopen
      · cases hopen
      · obtain ⟨blocks, -, rfl⟩ := Option.map_eq_some_iff.mp hopen
        exact ⟨rfl, rfl⟩

theorem Header.mapping_gcd (h : Header) : h.mapping.gcd = h.gcd.getD 1 := by
  unfold Header.mapping
  cases h.gcd <;> rfl

theorem Header.mapping_minValue (h : Header) : h.mapping.minValue = h.minValue := by
  unfold Header.mapping
  cases h.gcd <;> rfl

/-- **Range queries.** For a column that was opened, whose reader gives a value up to its maximum at
    each position, a range of values selects the positions with a value in it: whether its bounds
    are values of the column or not, and without an overflow. -/
theorem rangeQuery_exact {divide : UInt64 → UInt64 → UInt64} (hdivide : ExactDivide divide)
    (profile : Profile) {bytes : Bytes} {header : Header} {c : MonotonicMappingColumn}
    (hgcd : header.gcd ≠ some 0) (hordered : header.minValue ≤ header.maxValue)
    (hopen : openMapped divide bytes header = some c)
    (hread : ∀ idx < c.numVals, ∃ out, c.fromColumn.getVal idx = some out ∧
      out ≤ c.fromColumn.maxValue) (lo hi : UInt64) (start stop : Nat) :
    c.getDocidsForValueRange divide profile lo hi start stop =
      some (positionsInRange (c.getVal profile) c.numVals lo hi start stop) := by
  obtain ⟨reader, hreader, rfl⟩ := Option.map_eq_some_iff.mp hopen
  obtain ⟨hmin, hmax⟩ := openFromBytes_bounds hreader
  -- a missing divisor stands for one
  have hne : header.gcd.getD 1 ≠ 0 := by
    cases hcase : header.gcd with
    | none => exact (by decide : (1 : UInt64) ≠ 0)
    | some gcd => exact fun hzero => hgcd (by rw [hcase]; exact congrArg some hzero)
  refine MonotonicMappingColumn.getDocids_eq hdivide ?_ ⟨?_, ?_⟩ ?_ profile lo hi start stop
  · show header.mapping.gcd ≠ 0
    rw [header.mapping_gcd]
    exact hne
  · show reader.minValue ≤ reader.maxValue
    rw [hmin]
    exact UInt64.zero_le
  · intro idx hidx
    obtain ⟨out, hout, hle⟩ := hread idx hidx
    refine ⟨out, hout, ?_, hle⟩
    show reader.minValue ≤ out
    rw [hmin]
    exact UInt64.zero_le
  · -- the greatest value was divided, so it is no greater than it was
    show header.mapping.original reader.maxValue < 2 ^ 64
    rw [InternalMapping.original, header.mapping_gcd, header.mapping_minValue, hmax]
    show header.minValue.toNat + (divide (header.gcd.getD 1)
      (header.maxValue - header.minValue)).toNat * _ < _
    have hle := UInt64.le_iff_toNat_le.mp hordered
    have hlt := header.maxValue.toNat_lt
    have hmul := Nat.div_mul_le_self (header.maxValue.toNat - header.minValue.toNat)
      (header.gcd.getD 1).toNat
    rw [hdivide _ _ hne, UInt64.toNat_div, UInt64.toNat_sub_of_le _ _ hordered]
    omega

/-- The values 100, 130 and 190 in steps of 30: between 101 and 189 there is the one at position 1,
    although neither bound is in step. -/
theorem rangeQuery_exact_steps :
    (openMapped (fun d v => v / d) (0x34 :: List.replicate 7 0)
        ⟨3, 100, 190, some 30, .bitpacked⟩).bind
      (·.getDocidsForValueRange (fun d v => v / d) .test 101 189 0 10) = some [1] := by
  obtain ⟨c, hopen⟩ : ∃ c, openMapped (fun d v => v / d) (0x34 :: List.replicate 7 0)
      ⟨3, 100, 190, some 30, .bitpacked⟩ = some c := ⟨_, rfl⟩
  have hread : ∀ idx < c.numVals, ∃ out, c.fromColumn.getVal idx = some out ∧
      out ≤ c.fromColumn.maxValue := by
    obtain rfl := Option.some.inj hopen
    intro idx hidx
    change idx < 3 at hidx
    interval_cases idx
    · exact ⟨0, by decide, by decide⟩
    · exact ⟨1, by decide, by decide⟩
    · exact ⟨3, by decide, by decide⟩
  rw [hopen, Option.bind_some,
    rangeQuery_exact (fun _ _ _ => rfl) .test (by decide) (by decide) hopen hread 101 189 0 10]
  obtain rfl := Option.some.inj hopen
  decide

end TeaclaveCrates.Tantivy.FastFieldCodecs
