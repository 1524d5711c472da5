import TeaclaveCrates.Lib.Slice
import Mathlib.Algebra.Order.Ring.Nat

namespace TeaclaveCrates.Lib

/-!
# Memories, and who owns their cells

A memory maps an address to the cell stored there, if there is one.

* `Spells m a bs` — the cells from address `a` on are `bs`;
* `Overwrites m m' a bs` — `m'` is `m` with `bs` copied to address `a`;
* `Owns owner o a n` — a ghost map gives the `n` cells from address `a` on to `o`.

`Overwrites.spells` and `Overwrites.frame` say what a copy does: it spells what was copied, and
a cell outside of it, hence a cell with another owner, keeps its value.
-/

universe u v

variable {β : Type u} {ω : Type v}

/-- The cell at an address, where there is one. -/
abbrev Memory (β : Type u) := Nat → Option β

/-- From address `a` on, `m` holds `bs`. -/
def Spells (m : Memory β) (a : Nat) (bs : List β) : Prop :=
  ∀ i < bs.length, m (a + i) = bs[i]?

/-- `m'` is `m` with `bs` copied to address `a`. -/
structure Overwrites (m m' : Memory β) (a : Nat) (bs : List β) : Prop where
  spells : Spells m' a bs
  frame : ∀ x, x < a ∨ a + bs.length ≤ x → m' x = m x

/-- The `n` cells from address `a` on belong to `o`. -/
def Owns (owner : Nat → Option ω) (o : ω) (a n : Nat) : Prop :=
  ∀ x, a ≤ x → x < a + n → owner x = some o

variable {m m' m'' : Memory β} {a b n k : Nat} {bs cs : List β}

theorem spells_append :
    Spells m a (bs ++ cs) ↔ Spells m a bs ∧ Spells m (a + bs.length) cs := by
  constructor
  · intro h
    constructor
    · intro i hi
      rw [h i (by simp; omega), List.getElem?_append_left hi]
    · intro i hi
      rw [Nat.add_assoc, h (bs.length + i) (by simp; omega),
        List.getElem?_append_right (by omega), Nat.add_sub_cancel_left]
  · rintro ⟨hb, hc⟩ i hi
    by_cases hib : i < bs.length
    · rw [hb i hib, List.getElem?_append_left hib]
    · -- past `bs`, counted from its end
      have hlen : i - bs.length < cs.length := by
        rw [List.length_append] at hi
        omega
      have := hc (i - bs.length) hlen
      rw [show a + bs.length + (i - bs.length) = a + i by omega] at this
      rw [this, List.getElem?_append_right (by omega)]

/-- What a memory spells is determined by the cells it covers. -/
theorem Spells.congr (h : Spells m a bs) (hm : ∀ x, a ≤ x → x < a + bs.length → m' x = m x) :
    Spells m' a bs := by
  intro i hi
  rw [hm (a + i) (by omega) (by omega), h i hi]

theorem Spells.unique (hb : Spells m a bs) (hc : Spells m a cs) (hlen : bs.length = cs.length) :
    bs = cs := by
  apply List.ext_getElem?
  intro i
  by_cases hi : i < bs.length
  · rw [← hb i hi, ← hc i (by omega)]
  · rw [List.getElem?_eq_none (by omega), List.getElem?_eq_none (by omega)]

/-- A copy that stays clear of a region leaves what the region spells. -/
theorem Overwrites.spells_disjoint (h : Overwrites m m' a bs) (hc : Spells m b cs)
    (hdis : b + cs.length ≤ a ∨ a + bs.length ≤ b) : Spells m' b cs := by
  apply hc.congr
  intro x hbx hxc
  apply h.frame
  omega

variable {owner : Nat → Option ω}

theorem Owns.mono {o : ω} (h : Owns owner o a n) (hab : a ≤ b) (hn : b + k ≤ a + n) :
    Owns owner o b k :=
  fun x hx hxk => h x (by omega) (by omega)

/-- A copy within the cells of one owner does not change a cell of another. -/
theorem Overwrites.frame_owner {o o' : ω} (h : Overwrites m m' a bs) (ho : Owns owner o a bs.length)
    {x : Nat} (hx : owner x = some o') (hne : o ≠ o') :
    m' x = m x := by
  apply h.frame
  by_contra hin
  have := ho x (by omega) (by omega)
  rw [hx, Option.some.injEq] at this
  exact hne this.symm

/-- The owners after `o` was given the `n` cells from address `a` on. -/
def give (owner : Nat → Option ω) (o : ω) (a n : Nat) : Nat → Option ω :=
  fun x => if a ≤ x ∧ x < a + n then some o else owner x

theorem owns_give (owner : Nat → Option ω) (o : ω) (a n : Nat) : Owns (give owner o a n) o a n :=
  fun _ ha hn => if_pos ⟨ha, hn⟩

/-- Cells that had an owner before keep it when fresh cells are given away. -/
theorem give_eq_of_fresh {o o' : ω} {x : Nat} (hfresh : ∀ y, a ≤ y → owner y = none)
    (hx : owner x = some o') :
    give owner o a n x = some o' := by
  have hxa : ¬ a ≤ x := fun hax => by simp [hfresh x hax] at hx
  rw [give, if_neg (by omega), hx]

end TeaclaveCrates.Lib
