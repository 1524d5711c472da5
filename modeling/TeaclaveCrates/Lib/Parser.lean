import TeaclaveCrates.Lib.Bytes

namespace TeaclaveCrates.Lib

/-!
# Exact byte parsers

A parser consumes a prefix of a byte string or fails.  It is *exact* for an
encoder when what it consumed is always the encoding of the value it returns, so
that no byte is lost and no two byte strings mean the same.

* `ByteParser` and its primitives `take`, `rest`, `anyLeft`, `runOn`;
* `ByteParser.bind_ok` — what a successful sequence of parsers did;
* `Consumes` — exactness with the bytes consumed so far as an accumulator, for
  inputs up to a given length; its rules follow the structure of a `do` block;
* `Incremental` — more input never changes a result, other than to complete a
  value that was cut short.
-/

/-- A parser: the bytes not yet read are its state. -/
abbrev ByteParser (ε : Type) := StateT Bytes (Except ε)

namespace ByteParser

variable {ε α β : Type}

/-- The next `n` bytes; `e` where there are fewer. -/
def take (e : ε) (n : Nat) : ByteParser ε Bytes := fun r =>
  if r.length < n then .error e else .ok (r.take n, r.drop n)

/-- `take`, with the number of bytes in the type. -/
def takeExact (e : ε) (n : Nat) : ByteParser ε { b : Bytes // b.length = n } := fun r =>
  if h : r.length < n then .error e
  else .ok (⟨r.take n, by rw [List.length_take]; omega⟩, r.drop n)

/-- All bytes that are left. -/
def rest : ByteParser ε Bytes := fun r => .ok (r, [])

/-- Whether any byte is left. -/
def anyLeft : ByteParser ε Bool := fun r => .ok (!r.isEmpty, r)

/-- Runs `m` on the bytes `sub`, beside the input; also returns what `m` left of
    them. -/
def runOn (sub : Bytes) (m : ByteParser ε α) : ByteParser ε (α × Bytes) := fun r =>
  match m sub with
  | .error e => .error e
  | .ok (a, left) => .ok ((a, left), r)

/-- Replaces the error of `m`. -/
def mapErr {ε' : Type} (e : ε) (m : ByteParser ε' α) : ByteParser ε α := fun r =>
  match m r with
  | .error _ => .error e
  | .ok p => .ok p

variable {r' r : Bytes}

theorem mapErr_ok {ε' : Type} {e : ε} {m : ByteParser ε' α} {a : α} :
    mapErr e m r = .ok (a, r') ↔ m r = .ok (a, r') := by
  unfold mapErr
  cases m r with
  | error _ => simp
  | ok p => simp

theorem bind_ok {m : ByteParser ε α} {f : α → ByteParser ε β} {r'' : Bytes} {b : β} :
    (m >>= f) r = .ok (b, r'') ↔ ∃ a r', m r = .ok (a, r') ∧ f a r' = .ok (b, r'') := by
  show (m r >>= fun p => f p.1 p.2) = _ ↔ _
  cases h : m r with
  | error e => simp [bind, Except.bind]
  | ok p => exact ⟨fun hf => ⟨p.1, p.2, rfl, hf⟩, fun ⟨a, r', he, hf⟩ => by cases he; exact hf⟩

theorem pure_ok {a b : α} :
    (pure a : ByteParser ε α) r = .ok (b, r') ↔ a = b ∧ r = r' := by
  show Except.ok (a, r) = _ ↔ _
  simp

theorem throw_ok {e : ε} {b : α} :
    (throw e : ByteParser ε α) r ≠ .ok (b, r') := by
  show Except.error e ≠ _
  simp

theorem take_ok {e : ε} {n : Nat} {x : Bytes} :
    take e n r = .ok (x, r') ↔ r = x ++ r' ∧ x.length = n := by
  unfold take
  constructor
  · intro h
    split at h
    · cases h
    · cases h
      exact ⟨(List.take_append_drop n r).symm, by rw [List.length_take]; omega⟩
  · rintro ⟨rfl, rfl⟩
    simp

theorem runOn_ok {m : ByteParser ε α} {sub left : Bytes} {a : α} :
    runOn sub m r = .ok ((a, left), r') ↔ m sub = .ok (a, left) ∧ r = r' := by
  unfold runOn
  cases h : m sub with
  | error e => simp
  | ok p => simp

end ByteParser

open ByteParser

variable {ε α β : Type}

/-- On inputs of at most `n` bytes: after `before` has been consumed, the value
    `m` returns encodes to all that has been consumed then. -/
def Consumes (n : Nat) (before : Bytes) (m : ByteParser ε α) (encode : α → Bytes) : Prop :=
  ∀ r x r', r.length ≤ n → m r = .ok (x, r') → before ++ r = encode x ++ r'

namespace Consumes

variable {n : Nat} {before : Bytes} {m : ByteParser ε α} {f : α → ByteParser ε β} {encode : β → Bytes}

/-- A parser that is exact on its own, followed by one that accounts for what the
    first consumed. -/
theorem bind {encodeA : α → Bytes} (hm : Consumes n [] m encodeA)
    (hf : ∀ a, Consumes n (before ++ encodeA a) (f a) encode) :
    Consumes n before (m >>= f) encode := by
  intro r x r'' hlen h
  obtain ⟨a, r', ha, hb⟩ := bind_ok.mp h
  have hr : r = encodeA a ++ r' := hm r a r' hlen ha
  have hlen' : r'.length ≤ n := by
    rw [hr, List.length_append] at hlen
    omega
  have hx := hf a r' x r'' hlen' hb
  rw [hr, ← hx, List.append_assoc]

theorem pure {b : β} (h : before = encode b) :
    Consumes n before (Pure.pure b : ByteParser ε β) encode := by
  intro r x r' _ hok
  obtain ⟨rfl, rfl⟩ := pure_ok.mp hok
  rw [h]

theorem throw (e : ε) : Consumes n before (MonadExcept.throw e : ByteParser ε β) encode := by
  intro r x r' _ hok
  exact absurd hok throw_ok

/-- Looking whether anything is left consumes nothing. -/
theorem anyLeft {g : Bool → ByteParser ε β} (hg : ∀ b, Consumes n before (g b) encode) :
    Consumes n before (ByteParser.anyLeft >>= g) encode := by
  intro r x r' hlen h
  obtain ⟨b, r₁, hb, hx⟩ := bind_ok.mp h
  cases hb
  exact hg _ r x r' hlen hx

theorem rest : Consumes n [] (ByteParser.rest : ByteParser ε Bytes) id := by
  intro r x r' _ h
  cases h
  simp

theorem takeExact (e : ε) (k : Nat) :
    Consumes n [] (ByteParser.takeExact e k) Subtype.val := by
  intro r x r' _ h
  unfold ByteParser.takeExact at h
  split at h
  · cases h
  · cases h
    exact (List.take_append_drop k r).symm

theorem ite {p : Prop} [Decidable p] {m₁ m₂ : ByteParser ε β} (h₁ : p → Consumes n before m₁ encode)
    (h₂ : ¬ p → Consumes n before m₂ encode) :
    Consumes n before (if p then m₁ else m₂) encode := by
  split
  · exact h₁ ‹_›
  · exact h₂ ‹_›

/-- An exact parser whose values have a non-empty encoding makes progress. -/
theorem length_lt {m : ByteParser ε β} (hm : ∀ n, Consumes n [] m encode)
    (hpos : ∀ b, 0 < (encode b).length) {r r' : Bytes} {b : β} (h : m r = .ok (b, r')) :
    r'.length < r.length := by
  have hr : [] ++ r = encode b ++ r' := hm r.length r b r' le_rfl h
  have hlen := congrArg List.length hr
  rw [List.nil_append, List.length_append] at hlen
  have := hpos b
  omega

end Consumes

/-! ### Input that arrives in pieces -/

/-- On more input, a success stays the same and so does a failure, unless it is
    one that says the input was too short. -/
structure Incremental (short : ε → Prop) (m : ByteParser ε α) : Prop where
  ok : ∀ r x a r', m r = .ok (a, r') → m (r ++ x) = .ok (a, r' ++ x)
  error : ∀ r x e, m r = .error e → short e ∨ m (r ++ x) = .error e

namespace Incremental

variable {short : ε → Prop} {m : ByteParser ε α} {f : α → ByteParser ε β}

theorem bind (hm : Incremental short m) (hf : ∀ a, Incremental short (f a)) :
    Incremental short (m >>= f) := by
  have hrun : ∀ r, (m >>= f) r = (m r >>= fun p => f p.1 p.2) := fun r => rfl
  constructor
  · intro r x b r'' h
    obtain ⟨a, r', ha, hb⟩ := bind_ok.mp h
    exact bind_ok.mpr ⟨a, r' ++ x, hm.ok r x a r' ha, (hf a).ok r' x b r'' hb⟩
  · intro r x e h
    rw [hrun] at h ⊢
    cases ha : m r with
    | error e' =>
      rw [ha] at h
      cases h
      rcases hm.error r x e ha with hs | he
      · exact .inl hs
      · rw [he]
        exact .inr rfl
    | ok p =>
      rw [ha] at h
      rw [hm.ok r x p.1 p.2 ha]
      exact (hf p.1).error p.2 x e h

theorem pure (a : α) : Incremental short (Pure.pure a : ByteParser ε α) where
  ok r x b r' h := by
    obtain ⟨rfl, rfl⟩ := pure_ok.mp h
    rfl
  error r x e h := by cases h

theorem throw (e : ε) : Incremental short (MonadExcept.throw e : ByteParser ε α) where
  ok _ _ _ _ h := absurd h throw_ok
  error _ _ _ h := .inr h

/-- Taking bytes fails only for want of input. -/
theorem take {e : ε} (he : short e) (n : Nat) : Incremental short (ByteParser.take e n) where
  ok r x b r' h := by
    obtain ⟨rfl, hn⟩ := take_ok.mp h
    exact take_ok.mpr ⟨List.append_assoc .., hn⟩
  error r x e' h := by
    unfold ByteParser.take at h
    split at h
    · cases h
      exact .inl he
    · cases h

/-- An error that is replaced by one for want of input need not be looked at. -/
theorem mapErr {ε' : Type} {short' : ε' → Prop} {m : ByteParser ε' α} {e : ε} (he : short e)
    (hm : Incremental short' m) : Incremental short (ByteParser.mapErr e m) where
  ok r x a r' h := mapErr_ok.mpr (hm.ok r x a r' (mapErr_ok.mp h))
  error r x e' h := by
    unfold ByteParser.mapErr at h
    split at h
    · cases h
      exact .inl he
    · cases h

theorem ite {p : Prop} [Decidable p] {m₁ m₂ : ByteParser ε β} (h₁ : Incremental short m₁)
    (h₂ : Incremental short m₂) : Incremental short (if p then m₁ else m₂) := by
  split
  · exact h₁
  · exact h₂

/-- What is missing from an exact incremental parser's input is reported as missing:
    where `p ++ x` starts with the encoding of `a` and `p` is too short for it, `p`
    alone fails for want of input. -/
theorem short_of_lt {encode : α → Bytes} (hm : Incremental short m)
    (hexact : ∀ n, Consumes n [] m encode) {p x t : Bytes} {a : α}
    (h : m (p ++ x) = .ok (a, t)) (hlt : p.length < (encode a).length) :
    ∃ e, m p = .error e ∧ short e := by
  cases hp : m p with
  | error e =>
    rcases hm.error p x e hp with hs | he
    · exact ⟨e, rfl, hs⟩
    · rw [he] at h
      cases h
  | ok q =>
    obtain ⟨b, r'⟩ := q
    have hmore := hm.ok p x b r' hp
    rw [h] at hmore
    cases hmore
    have hlen := congrArg List.length (hexact _ p a r' le_rfl hp)
    simp only [List.nil_append, List.length_append] at hlen
    omega

end Incremental

end TeaclaveCrates.Lib
