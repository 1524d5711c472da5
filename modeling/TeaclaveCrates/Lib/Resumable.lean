import Mathlib.Data.List.Basic

namespace TeaclaveCrates.Lib

/-!
# Operations that stop when a buffer is full

An operation writes into a buffer. When the buffer is full it stops, and is tried again, with what is
left of it, on another buffer.

* `chain`, `chains` — one operation, and one after the other, with a new buffer for each attempt.
* `oneBuffer` — the operations into one buffer, which must not get full.
* `Resumes` — an attempt writes all that is to be written, or the front of it.
* `Resumes.chains_eq` — then the bytes do not depend on the buffers.
-/

universe u v w

variable {σ : Type u} {ι : Type v} {α : Type w}

/-- An attempt of an operation, with the room in the buffer: the new state, whether the operation is
    done, what is left of it, and the bytes. Nothing is returned where the code would panic. -/
abbrev Attempt (σ : Type u) (ι : Type v) (α : Type w) :=
  σ → ι → Nat → Option (σ × Bool × ι × List α)

variable (attempt : Attempt σ ι α)

/-- The attempts of one operation, from the `j`-th on. -/
def chain (rooms : Nat → Nat) : Nat → Nat → σ → ι → Option (σ × List α)
  | 0, _, _, _ => none
  | fuel + 1, j, s, op =>
    match attempt s op (rooms j) with
    | none => none
    | some (s', true, _, out) => some (s', out)
    | some (s', false, op', out) =>
      (chain rooms fuel (j + 1) s' op').map fun x => (x.1, out ++ x.2)

/-- The chains of one operation after the other; the `i`-th has the buffers `rooms i`. -/
def chains (rooms : Nat → Nat → Nat) (fuel : Nat) : Nat → σ → List ι → Option (σ × List α)
  | _, s, [] => some (s, [])
  | i, s, op :: ops =>
    (chain attempt (rooms i) fuel 0 s op).bind fun x =>
      (chains rooms fuel (i + 1) x.1 ops).map fun y => (y.1, x.2 ++ y.2)

/-- The operations into one buffer, each done with one attempt. -/
def oneBuffer : Nat → σ → List ι → Option (σ × List α)
  | _, s, [] => some (s, [])
  | room, s, op :: ops =>
    match attempt s op room with
    | some (s', true, _, out) =>
      (oneBuffer (room - out.length) s' ops).map fun y => (y.1, out ++ y.2)
    | _ => none

/-- In a state that is ready for an operation, an attempt writes its output and leaves its final
    state; or, with less room than that takes, it writes the front of the output and leaves the rest
    to be written. With room for `least` bytes it writes something. -/
structure Resumes (least : Nat) (ready : σ → ι → Prop) (output : σ → ι → List α)
    (final : σ → ι → σ) : Prop where
  step : ∀ s op room, ready s op →
    (∃ op', attempt s op room = some (final s op, true, op', output s op)) ∨
      ∃ s' op' out, attempt s op room = some (s', false, op', out) ∧
        room < (output s op).length ∧ output s op = out ++ output s' op' ∧
        final s' op' = final s op ∧ ready s' op' ∧ (least ≤ room → out ≠ [])
  ready_final : ∀ s op, ready s op → ∀ op', ready (final s op) op'

namespace Resumes

variable {attempt} {least : Nat} {ready : σ → ι → Prop} {output : σ → ι → List α} {final : σ → ι → σ}

/-- Attempts that all write something come to an end. -/
theorem chain_of_least (h : Resumes attempt least ready output final) {rooms : Nat → Nat}
    {j : Nat} (hrooms : ∀ k ≥ j,
      least ≤ rooms k) {s : σ} {op : ι} (hready : ready s op) {fuel : Nat}
    (hfuel : (output s op).length < fuel) :
    chain attempt rooms fuel j s op = some (final s op, output s op) := by
  induction fuel generalizing j s op with
  | zero => omega
  | succ fuel ih =>
    rw [chain]
    rcases h.step s op (rooms j) hready with ⟨op', hdone⟩ |
      ⟨s', op', out, hfull, -, houtput, hfinal, hready', hprogress⟩
    · rw [hdone]
    · have hout : 0 < out.length := List.length_pos_iff.mpr (hprogress (hrooms j (Nat.le_refl j)))
      have hlength : (output s op).length = out.length + (output s' op').length := by
        rw [houtput, List.length_append]
      have hrest := ih (j := j + 1) (fun k hk => hrooms k (by omega)) hready'
        (show (output s' op').length < fuel by omega)
      rw [hfull]
      dsimp only
      rw [hrest, Option.map_some, hfinal, ← houtput]

/-- The first attempt may have any room. -/
theorem chain_eq (h : Resumes attempt least ready output final) {rooms : Nat → Nat}
    (hrooms : ∀ k, 0 < k → least ≤ rooms k) {s : σ} {op : ι} (hready : ready s op) {fuel : Nat}
    (hfuel : (output s op).length + 1 < fuel) :
    chain attempt rooms fuel 0 s op = some (final s op, output s op) := by
  obtain ⟨fuel, rfl⟩ : ∃ n, fuel = n + 1 := ⟨fuel - 1, by omega⟩
  rw [chain]
  rcases h.step s op (rooms 0) hready with ⟨op', hdone⟩ |
    ⟨s', op', out, hfull, -, houtput, hfinal, hready', -⟩
  · rw [hdone]
  · have hlength : (output s op).length = out.length + (output s' op').length := by
      rw [houtput, List.length_append]
    have hrest := h.chain_of_least (j := 1) (fun k hk => hrooms k hk) hready'
      (show (output s' op').length < fuel by omega)
    rw [hfull]
    dsimp only
    rw [Nat.zero_add, hrest, Option.map_some, hfinal, ← houtput]

/-- The output of operations one after the other. -/
def outputs (output : σ → ι → List α) (final : σ → ι → σ) : σ → List ι → List α
  | _, [] => []
  | s, op :: ops => output s op ++ outputs output final (final s op) ops

theorem oneBuffer_eq (h : Resumes attempt least ready output final) {s : σ} {ops : List ι}
    (hready : ∀ op, ready s op) {room : Nat}
    (hroom : (outputs output final s ops).length ≤ room) :
    oneBuffer attempt room s ops = some (ops.foldl final s, outputs output final s ops) := by
  induction ops generalizing s room with
  | nil => rfl
  | cons op ops ih =>
    rw [outputs, List.length_append] at hroom
    rw [oneBuffer]
    rcases h.step s op room (hready op) with ⟨op', hdone⟩ | ⟨s', op', out, -, hlt, -⟩
    · rw [hdone]
      dsimp only
      rw [ih (h.ready_final s op (hready op)) (by omega), Option.map_some]
      rfl
    · omega

/-- **The bytes do not depend on the buffers.** With any buffers the chains end, with the bytes that
    one buffer gets that is long enough. -/
theorem chains_eq (h : Resumes attempt least ready output final) {s : σ} {ops : List ι}
    (hready : ∀ op, ready s op) {rooms : Nat → Nat → Nat}
    (hrooms : ∀ i j, 0 < j → least ≤ rooms i j) {fuel : Nat}
    (hfuel : (outputs output final s ops).length + 1 < fuel) (i : Nat) :
    chains attempt rooms fuel i s ops =
      some (ops.foldl final s, outputs output final s ops) := by
  induction ops generalizing s i with
  | nil => rfl
  | cons op ops ih =>
    rw [outputs, List.length_append] at hfuel
    rw [chains, h.chain_eq (hrooms i) (hready op) (by omega), Option.bind_some,
      ih (h.ready_final s op (hready op)) (by omega) (i + 1), Option.map_some]
    rfl

end Resumes

end TeaclaveCrates.Lib
