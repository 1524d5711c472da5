import TeaclaveCrates.Casbin.Model

namespace TeaclaveCrates.Casbin

/-!
# Effects

`effector.rs`: the effects of the policy rules are pushed one by one into a stream that decides,
for the effect expression of the model, whether the request is allowed.

* `EffectorStream`, `Effector` — the traits.
* `DefaultEffectStream`, `DefaultEffector` — their implementation.
* `declaredEffect` — what an effect expression says about all effects.
* `pushAll_eq_declaredEffect` — the stream, which stops early, decides the same.
-/

/-- What a rule says. -/
inductive EffectKind where
  | allow
  | indeterminate
  | deny
  deriving DecidableEq, Repr

/-- `trait EffectorStream`; `next` panics before the stream is done. -/
class EffectorStream (S : Type) where
  pushEffect : S → EffectKind → S × Bool
  next : S → Except Fault Bool

/-- `trait Effector`: how a stream is made for an effect expression and a number of policies. -/
structure Effector (S : Type) where
  newStream : String → Nat → Except Fault S

/-- The result so far, and how many of the rules have been seen. -/
structure DefaultEffectStream where
  done : Bool
  res : Bool
  expr : String
  idx : Nat
  cap : Nat
  deriving DecidableEq, Repr

def someAllow : String := "some(where (p_eft == allow))"

def someAllowNoDeny : String := "some(where (p_eft == allow)) && !some(where (p_eft == deny))"

def noDeny : String := "!some(where (p_eft == deny))"

def priority : String := "priority(p_eft) || deny"

/-- `DefaultEffector`; an expression outside these four panics, as does a capacity of zero. -/
def DefaultEffector : Effector DefaultEffectStream where
  newStream expr cap :=
    if cap = 0 then .error .panic
    else if expr = someAllow ∨ expr = someAllowNoDeny ∨ expr = priority then
      .ok ⟨false, false, expr, 0, cap⟩
    else if expr = noDeny then .ok ⟨false, true, expr, 0, cap⟩
    else .error .panic

namespace DefaultEffectStream

/-- The part of `push_effect` that looks at the effect. -/
def decideEffect (s : DefaultEffectStream) (eft : EffectKind) : DefaultEffectStream :=
  if s.expr = someAllow then
    if eft = .allow then { s with done := true, res := true } else s
  else if s.expr = someAllowNoDeny then
    if eft = .allow then { s with res := true }
    else if eft = .deny then { s with done := true, res := false }
    else s
  else if s.expr = noDeny then
    if eft = .deny then { s with done := true, res := false } else s
  else if s.expr = priority ∧ eft ≠ .indeterminate then
    { s with res := decide (eft = .allow), done := true }
  else s

/-- One rule more; `true` ends the stream. -/
def pushEffect (s : DefaultEffectStream) (eft : EffectKind) : DefaultEffectStream × Bool :=
  let s := s.decideEffect eft
  let s :=
    if s.idx + 1 = s.cap then { s with done := true, idx := s.cap } else { s with idx := s.idx + 1 }
  (s, s.done)

end DefaultEffectStream

instance : EffectorStream DefaultEffectStream where
  pushEffect := DefaultEffectStream.pushEffect
  next s := if s.done then .ok s.res else .error .panic

/-! ### The declared effect -/

/-- What an effect expression says about the effects of all rules. -/
def declaredEffect (expr : String) (efts : List EffectKind) : Bool :=
  if expr = someAllow then decide (.allow ∈ efts)
  else if expr = someAllowNoDeny then decide (.allow ∈ efts ∧ .deny ∉ efts)
  else if expr = noDeny then decide (.deny ∉ efts)
  else decide (efts.find? (· ≠ .indeterminate) = some .allow)

namespace DefaultEffectStream

/-- Push the effects until the stream is done or there are no more. -/
def pushAll (s : DefaultEffectStream) : List EffectKind → DefaultEffectStream
  | [] => s
  | eft :: efts =>
    if (s.pushEffect eft).2 then (s.pushEffect eft).1 else pushAll (s.pushEffect eft).1 efts

/-- What the stream is to decide when its result is `res` so far. -/
def verdict (expr : String) (res : Bool) (efts : List EffectKind) : Bool :=
  if expr = someAllow then res || decide (.allow ∈ efts)
  else if expr = someAllowNoDeny then (res || decide (.allow ∈ efts)) && decide (.deny ∉ efts)
  else if expr = noDeny then res && decide (.deny ∉ efts)
  else
    match efts.find? (· ≠ .indeterminate) with
    | some eft => decide (eft = .allow)
    | none => res

/-- One of the four expressions. -/
def Supported (expr : String) : Prop :=
  expr = someAllow ∨ expr = someAllowNoDeny ∨ expr = noDeny ∨ expr = priority

variable {s : DefaultEffectStream}

/-- One effect: the stream is done only with the verdict on any list that goes on from here, and
    otherwise the verdict on the rest is the verdict on all. -/
theorem verdict_decideEffect (hexpr : Supported s.expr) (hdone : s.done = false) (eft : EffectKind)
    (efts : List EffectKind) :
    (s.decideEffect eft).expr = s.expr ∧ (s.decideEffect eft).idx = s.idx ∧
      (s.decideEffect eft).cap = s.cap ∧
      verdict s.expr s.res (eft :: efts) =
        if (s.decideEffect eft).done then (s.decideEffect eft).res
        else verdict s.expr (s.decideEffect eft).res efts := by
  obtain ⟨done, res, expr, idx, cap⟩ := s
  obtain rfl : done = false := hdone
  rcases hexpr with rfl | rfl | rfl | rfl <;> cases eft <;> cases res <;>
    simp [decideEffect, verdict, someAllow, someAllowNoDeny, noDeny, priority]

/-- The verdict when no effect is left is the result. -/
theorem verdict_nil (expr : String) (res : Bool) : verdict expr res [] = res := by
  unfold verdict
  split_ifs <;> simp

/-- The effect that fills the stream. -/
theorem pushEffect_last {eft : EffectKind}
    (h : (s.decideEffect eft).idx + 1 = (s.decideEffect eft).cap) :
    s.pushEffect eft = ({ s.decideEffect eft with done := true, idx := (s.decideEffect eft).cap },
      true) := by
  simp [pushEffect, h]

theorem pushEffect_more {eft : EffectKind}
    (h : ¬(s.decideEffect eft).idx + 1 = (s.decideEffect eft).cap) :
    s.pushEffect eft = ({ s.decideEffect eft with idx := (s.decideEffect eft).idx + 1 },
      (s.decideEffect eft).done) := by
  simp [pushEffect, h]

/-- With as many effects left as the stream expects, it ends done and with the verdict. -/
theorem pushAll_verdict (efts : List EffectKind) (hexpr : Supported s.expr) (hdone : s.done = false)
    (hne : efts ≠ []) (hcap : s.idx + efts.length = s.cap) :
    (s.pushAll efts).done = true ∧ (s.pushAll efts).res = verdict s.expr s.res efts := by
  induction efts generalizing s with
  | nil => exact absurd rfl hne
  | cons eft efts ih =>
    obtain ⟨hexpr', hidx, hcap', hverdict⟩ := verdict_decideEffect hexpr hdone eft efts
    rw [List.length_cons] at hcap
    rw [hverdict, pushAll]
    by_cases hlast : efts = []
    · -- the last effect: the index reaches the capacity
      subst hlast
      rw [List.length_nil] at hcap
      rw [pushEffect_last (by omega), verdict_nil]
      simp
    · have hpos : 0 < efts.length := List.length_pos_of_ne_nil hlast
      rw [pushEffect_more (by omega)]
      by_cases hearly : (s.decideEffect eft).done = true
      · simp [hearly]
      · rw [Bool.not_eq_true] at hearly
        have hnext := @ih { s.decideEffect eft with idx := (s.decideEffect eft).idx + 1 }
          (by rw [← hexpr'] at hexpr; exact hexpr) hearly hlast (by dsimp only; omega)
        rw [← hexpr', if_neg (by simp [hearly]), if_neg (by simp [hearly])]
        exact hnext

end DefaultEffectStream

open DefaultEffectStream in
/-- **Stopping early decides what the expression says.** A stream for as many effects as there are
    ends done, and its result is the declared effect of the whole list. -/
theorem pushAll_eq_declaredEffect {expr : String} (hexpr : Supported expr) {efts : List EffectKind}
    (hne : efts ≠ []) :
    ∃ s, DefaultEffector.newStream expr efts.length = .ok s ∧ (s.pushAll efts).done = true ∧
      EffectorStream.next (s.pushAll efts) = .ok (declaredEffect expr efts) := by
  have hlen : efts.length ≠ 0 := fun h => hne (List.length_eq_zero_iff.mp h)
  obtain ⟨res, hnew, hres⟩ : ∃ res, DefaultEffector.newStream expr efts.length =
      .ok ⟨false, res, expr, 0,
        efts.length⟩ ∧ verdict expr res efts = declaredEffect expr efts := by
    -- all expressions but `noDeny` start from `false`
    rcases hexpr with rfl | rfl | rfl | rfl
    · exact ⟨false, by simp [DefaultEffector, hlen], by simp [verdict, declaredEffect]⟩
    · refine ⟨false, by simp [DefaultEffector, hlen], ?_⟩
      simp [verdict, declaredEffect, someAllow, someAllowNoDeny]
    · refine ⟨true, ?_, by simp [verdict, declaredEffect, someAllow, someAllowNoDeny, noDeny]⟩
      simp [DefaultEffector, hlen, someAllow, someAllowNoDeny, noDeny, priority]
    · refine ⟨false, by simp [DefaultEffector, hlen], ?_⟩
      simp only [verdict, declaredEffect, someAllow, someAllowNoDeny, noDeny, priority]
      cases efts.find? (· ≠ .indeterminate) <;> simp
  obtain ⟨hdone, hverdict⟩ := pushAll_verdict (s := ⟨false, res, expr, 0, efts.length⟩) efts hexpr
    rfl hne (Nat.zero_add _)
  refine ⟨_, hnew, hdone, ?_⟩
  show (if _ then _ else _) = _
  rw [if_pos hdone, hverdict, hres]

theorem pushAll_eq_declaredEffect_priority :
    ∃ s, DefaultEffector.newStream priority
        [EffectKind.indeterminate, .deny, .allow].length = .ok s ∧
      (s.pushAll [.indeterminate, .deny, .allow]).done = true ∧
      EffectorStream.next (s.pushAll [.indeterminate, .deny, .allow]) =
        .ok (declaredEffect priority [.indeterminate, .deny, .allow]) :=
  pushAll_eq_declaredEffect (Or.inr (Or.inr (Or.inr rfl))) (by decide)

end TeaclaveCrates.Casbin
