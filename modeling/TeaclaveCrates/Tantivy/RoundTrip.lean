import Mathlib.Data.List.Chain
import TeaclaveCrates.Tantivy.SSTableReading
import TeaclaveCrates.Tantivy.TermDictionary

namespace TeaclaveCrates.Tantivy

open TeaclaveCrates.Lib

/-!
# tantivy — a term dictionary answers exactly

What is built is read back, and every lookup and every stream answers as the list of
entries does.

* `Follows` / `WellFormed` — contiguous ranges, and what a table must fit in;
* `readsBack_termInfos` — the values of a block;
* `termOrdLoop_at`, `advanceBy_at`, `getLoop_at` — the loops, by the entries to come;
* `TermStreamer.At` — where a stream is; `advance_at` takes it to the next match;
* `open_build` — **the round trip**.
-/

/-! ### Term infos -/

/-- A range that does not end before it starts. -/
def FileRange.Ordered (r : FileRange) : Prop := r.start ≤ r.stop

instance (r : FileRange) : Decidable r.Ordered := inferInstanceAs (Decidable (r.start ≤ r.stop))

/-- The ranges of `b` start where those of `a` end. -/
def Follows (a b : TermInfo) : Prop :=
  b.postingsRange.start = a.postingsRange.stop ∧ b.positionsRange.start = a.positionsRange.stop

instance (a b : TermInfo) : Decidable (Follows a b) := inferInstanceAs (Decidable (_ ∧ _))

theorem FileRange.start_add_len {r : FileRange} (h : r.Ordered) :
    r.start + UInt64.ofNat r.len.toNat = r.stop := by
  rw [UInt64.ofNat_toNat, FileRange.len]
  by_cases hlt : r.start < r.stop
  · rw [if_pos hlt, UInt64.add_comm, UInt64.sub_add_cancel]
  · rw [if_neg hlt, UInt64.add_zero]
    exact UInt64.le_antisymm h (UInt64.not_lt.mp hlt)

/-- Three integers in a row. -/
theorem BlockReader.Left.deserializeVInt₃ {r : BlockReader} {a b c : Nat} {y : Bytes}
    (h : r.Left (serializeVInt a ++ serializeVInt b ++ serializeVInt c ++ y)) (ha : a < 2 ^ 64)
    (hb : b < 2 ^ 64) (hc : c < 2 ^ 64) :
    ∃ r₁ r₂, r.deserializeVInt = pure (a, r₁) ∧ r₁.deserializeVInt = pure (b, r₂) ∧
      r₂.deserializeVInt = pure (c,
        r.advance (serializeVInt a ++ serializeVInt b ++ serializeVInt c).length) := by
  rw [List.append_assoc, List.append_assoc] at h
  have h₁ := h.advance
  have h₂ := h₁.advance
  refine ⟨_, _, h.deserializeVInt ha, h₁.deserializeVInt hb, ?_⟩
  rw [h₂.deserializeVInt hc, advance_advance, advance_advance, List.length_append,
    List.length_append, Nat.add_assoc]

/-- The loop reads the term infos back, as long as their ranges are contiguous. -/
theorem readLoop_left (termInfos : List TermInfo) : ∀ (postings positions : UInt64)
    (r : BlockReader) (y : Bytes),
    (∀ t ∈ termInfos, t.postingsRange.Ordered ∧ t.positionsRange.Ordered) →
    (∀ t ∈ termInfos.head?, t.postingsRange.start = postings ∧ t.positionsRange.start = positions) →
    termInfos.IsChain Follows → r.Left (termInfos.flatMap TermInfo.serialize ++ y) →
    TermInfoReader.readLoop termInfos.length postings positions r =
      pure (termInfos, r.advance (termInfos.flatMap TermInfo.serialize).length) := by
  induction termInfos with
  | nil => intro postings positions r y _ _ _ _; rfl
  | cons t termInfos ih =>
    intro postings positions r y hordered hstart hchain hleft
    obtain ⟨rfl, rfl⟩ := hstart t rfl
    rw [List.flatMap_cons, List.append_assoc] at hleft
    obtain ⟨hpostings, hpositions⟩ := hordered t List.mem_cons_self
    have hnext : ∀ u ∈ termInfos.head?, u.postingsRange.start = t.postingsRange.stop ∧
        u.positionsRange.start = t.positionsRange.stop := by
      intro u hu
      obtain ⟨rest, rfl⟩ := List.head?_eq_some_iff.mp hu
      exact (List.isChain_cons_cons.mp hchain).1
    have hrest := ih _ _ _ y (fun u hu => hordered u (List.mem_cons_of_mem _ hu)) hnext
      (List.IsChain.of_cons hchain) hleft.advance
    have h64 : t.docFreq.toNat < 2 ^ 64 := Nat.lt_trans t.docFreq.toNat_lt (by decide)
    obtain ⟨r₁, r₂, h₁, h₂, h₃⟩ := BlockReader.Left.deserializeVInt₃ hleft h64
      (UInt64.toNat_lt t.postingsRange.len) (UInt64.toNat_lt t.positionsRange.len)
    rw [List.length_cons, TermInfoReader.readLoop, h₁, pure_bind]
    simp only
    rw [h₂, pure_bind]
    rw [h₃, pure_bind]
    rw [FileRange.start_add_len hpostings, FileRange.start_add_len hpositions,
      show serializeVInt t.docFreq.toNat ++ serializeVInt t.postingsRange.len.toNat ++
        serializeVInt t.positionsRange.len.toNat = t.serialize from rfl, hrest, pure_bind]
    simp [advance_advance]

/-- **Values.** The term infos of a block are read back, if their ranges are
    contiguous. -/
theorem readsBack_termInfos {termInfos : List TermInfo} (hne : termInfos ≠ [])
    (hlen : termInfos.length < 2 ^ 64)
    (hordered : ∀ t ∈ termInfos, t.postingsRange.Ordered ∧ t.positionsRange.Ordered)
    (hchain : termInfos.IsChain Follows) : ReadsBack termInfos := by
  intro r y _ hleft
  obtain ⟨t, rest, rfl⟩ := List.exists_cons_of_ne_nil hne
  have hwrite : ValueCodec.writeBlock (t :: rest) = serializeVInt (t :: rest).length ++
      serializeVInt t.postingsRange.start.toNat ++ serializeVInt t.positionsRange.start.toNat ++
        (t :: rest).flatMap TermInfo.serialize := rfl
  rw [hwrite, List.append_assoc _ _ y] at hleft
  refine ⟨[], ?_⟩
  rw [List.append_nil]
  show TermInfoReader.read r = _
  obtain ⟨r₁, r₂, h₁, h₂, h₃⟩ := BlockReader.Left.deserializeVInt₃ hleft hlen
    (UInt64.toNat_lt t.postingsRange.start) (UInt64.toNat_lt t.positionsRange.start)
  rw [TermInfoReader.read, h₁, pure_bind]
  simp only
  rw [h₂, pure_bind]
  rw [h₃, pure_bind]
  rw [UInt64.ofNat_toNat, UInt64.ofNat_toNat]
  have hstart : ∀ u ∈ (t :: rest).head?, u.postingsRange.start = t.postingsRange.start ∧
      u.positionsRange.start = t.positionsRange.start := by
    intro u hu
    cases hu
    exact ⟨rfl, rfl⟩
  rw [readLoop_left _ _ _ _ y hordered hstart hchain hleft.advance, advance_advance, hwrite,
    ← List.length_append]

/-! ### Blocks -/

/-- Entries a dictionary can be built from. -/
structure WellFormed (entries : List (Bytes × TermInfo)) : Prop where
  sorted : entries.Pairwise fun a b => a.1 < b.1
  ordered : ∀ e ∈ entries, e.2.postingsRange.Ordered ∧ e.2.positionsRange.Ordered
  contiguous : (entries.map Prod.snd).IsChain Follows
  /-- The length of a block is stored as a `u32`. -/
  blocks : ∀ b ∈ cutBlocks [] entries, (blockBytes b).length < 2 ^ 32
  /-- The length of the table is stored as a `u64`. -/
  size : ((cutBlocks [] entries).flatMap encodeBlock).length + 4 < 2 ^ 64

/-- Every block of the table can be read back. -/
theorem WellFormed.blockOk {entries : List (Bytes × TermInfo)} (h : WellFormed entries) :
    ∀ b ∈ cutBlocks [] entries, BlockOk b := by
  intro b hb
  have hpart : b <:+: entries := by
    have hflat := flatten_cutBlocks entries []
    rw [List.nil_append] at hflat
    rw [← hflat]
    exact List.infix_of_mem_flatten hb
  have hne := ne_nil_of_mem_cutBlocks entries [] b hb
  have hsize := h.blocks b hb
  have hlen : b.length < 2 ^ 64 := by
    have := length_le_length_encodeKeys b []
    rw [blockBytes, List.length_append] at hsize
    omega
  refine ⟨hne, ?_, hsize, readsBack_termInfos ?_ ?_ ?_ ?_⟩
  · rw [List.pairwise_map]
    exact h.sorted.sublist hpart.sublist
  · simpa using hne
  · rwa [List.length_map]
  · intro t ht
    obtain ⟨e, he, rfl⟩ := List.mem_map.mp ht
    exact h.ordered e (hpart.subset he)
  · exact h.contiguous.infix (hpart.map Prod.snd)

/-! ### Lookups -/

namespace TermDictionary

theorem termOrdLoop_at (key : Bytes) (rest : List (Bytes × TermInfo)) :
    ∀ (fuel ord : Nat) (r : Reader TermInfo), r.At rest → rest.length < fuel →
      termOrdLoop key fuel ord r =
        pure ((rest.findIdx? fun e => e.1 = key).map (ord + ·)) := by
  induction rest with
  | nil =>
    intro fuel ord r hat hfuel
    obtain ⟨fuel, rfl⟩ := Nat.exists_eq_succ_of_ne_zero (Nat.ne_of_gt hfuel)
    obtain ⟨r', hadv⟩ := hat.advance_end
    simp [termOrdLoop, hadv, pure_bind]
  | cons e rest ih =>
    intro fuel ord r hat hfuel
    obtain ⟨fuel, rfl⟩ := Nat.exists_eq_succ_of_ne_zero (Nat.ne_of_gt (Nat.zero_lt_of_lt hfuel))
    obtain ⟨r', hadv, hat', hkey, -⟩ := hat.advance
    rw [termOrdLoop, hadv, pure_bind]
    simp only [hkey, List.findIdx?_cons]
    by_cases heq : e.1 = key
    · simp [heq]
    · rw [if_neg heq, ih fuel (ord + 1) r' hat' (by simpa using hfuel)]
      simp only [heq, decide_false, Bool.false_eq_true, ↓reduceIte, Option.map_map]
      congr 2
      funext i
      simp only [Function.comp_apply]
      omega

theorem advanceBy_at (n : Nat) : ∀ (rest : List (Bytes × TermInfo)) (r : Reader TermInfo),
    r.At rest →
      match rest[n]? with
      | some e => ∃ r', advanceBy (n + 1) r = pure (some r') ∧ r'.key = e.1 ∧ r'.value = pure e.2
      | none => advanceBy (n + 1) r = pure none := by
  induction n with
  | zero =>
    intro rest r hat
    cases rest with
    | nil =>
      obtain ⟨r', hadv⟩ := hat.advance_end
      simp [advanceBy, hadv, pure_bind]
    | cons e rest =>
      obtain ⟨r', hadv, -, hkey, hvalue⟩ := hat.advance
      refine ⟨r', ?_, hkey, hvalue⟩
      simp [advanceBy, hadv, pure_bind]
  | succ n ih =>
    intro rest r hat
    cases rest with
    | nil =>
      obtain ⟨r', hadv⟩ := hat.advance_end
      rw [List.getElem?_nil, advanceBy, hadv, pure_bind]
    | cons e rest =>
      obtain ⟨r', hadv, hat', -, -⟩ := hat.advance
      have hnext := ih rest r' hat'
      rw [List.getElem?_cons_succ, advanceBy, hadv, pure_bind]
      exact hnext

theorem getLoop_at (key : Bytes) (rest : List (Bytes × TermInfo)) :
    ∀ (fuel : Nat) (r : Reader TermInfo), r.At rest → rest.length < fuel →
      getLoop key fuel r = pure ((rest.find? fun e => e.1 = key).map Prod.snd) := by
  induction rest with
  | nil =>
    intro fuel r hat hfuel
    obtain ⟨fuel, rfl⟩ := Nat.exists_eq_succ_of_ne_zero (Nat.ne_of_gt hfuel)
    obtain ⟨r', hadv⟩ := hat.advance_end
    simp [getLoop, hadv, pure_bind]
  | cons e rest ih =>
    intro fuel r hat hfuel
    obtain ⟨fuel, rfl⟩ := Nat.exists_eq_succ_of_ne_zero (Nat.ne_of_gt (Nat.zero_lt_of_lt hfuel))
    obtain ⟨r', hadv, hat', hkey, hvalue⟩ := hat.advance
    rw [getLoop, hadv, pure_bind]
    simp only [hkey, List.find?_cons]
    by_cases heq : e.1 = key
    · simp [heq, hvalue, decide_true]
    · simp [ih fuel r' hat' (by simpa using hfuel), heq, decide_false]

end TermDictionary

/-! ### Streams -/

section Streams

variable {σ : Type}

/-- The state an automaton reaches by a key. -/
def Automaton.run (automaton : Automaton σ) (key : Bytes) : σ :=
  key.foldl automaton.accept automaton.start

theorem Bound.matchLower_of_lt {lower : Bound} {a b : Bytes} (h : lower.matchLower a = true)
    (hab : a < b) : lower.matchLower b = true := by
  cases lower with
  | unbounded => rfl
  | included bound =>
    exact decide_eq_true (List.le_trans (of_decide_eq_true h) (List.le_of_lt hab))
  | excluded bound => exact decide_eq_true (List.lt_trans (of_decide_eq_true h) hab)

theorem Bound.matchUpper_of_lt {upper : Bound} {a b : Bytes} (h : upper.matchUpper a = false)
    (hab : a < b) : upper.matchUpper b = false := by
  cases upper with
  | unbounded => exact h
  | included bound =>
    refine decide_eq_false fun hb => of_decide_eq_false h ?_
    exact List.le_trans (List.le_of_lt hab) hb
  | excluded bound =>
    exact decide_eq_false fun hb => of_decide_eq_false h (List.lt_trans hab hb)

namespace TermStreamer

theorem take_acceptAll (automaton : Automaton σ) (l : Bytes) : ∀ (n : Nat) (state : σ),
    (acceptAll automaton state l).take n = acceptAll automaton state (l.take n) := by
  induction l with
  | nil => intro n state; rw [List.take_nil]; exact List.take_nil
  | cons b l ih =>
    intro n state
    cases n with
    | zero => rfl
    | succ n => simp [acceptAll, ih]

theorem acceptAll_append (automaton : Automaton σ) (x y : Bytes) : ∀ state : σ,
    acceptAll automaton state (x ++ y) = acceptAll automaton state x ++
      acceptAll automaton (x.foldl automaton.accept state) y := by
  induction x with
  | nil => intro state; rfl
  | cons b x ih =>
    intro state
    simp [acceptAll, ih]

theorem getLast?_acceptAll (automaton : Automaton σ) (l : Bytes) : ∀ state : σ,
    (state :: acceptAll automaton state l).getLast? = some (l.foldl automaton.accept state) := by
  induction l with
  | nil => intro state; rfl
  | cons b l ih =>
    intro state
    rw [acceptAll, List.getLast?_cons_cons, ih, List.foldl_cons]

/-- The stream has come to `s.key`; `rest` is to come, from the ordinal `ord` on. -/
structure At (s : TermStreamer σ) (ord : Nat) (rest : List (Bytes × TermInfo)) : Prop where
  reader : ∃ entries bs tail, s.deltaReader.At s.key entries bs tail ∧ entries ++ bs.flatten = rest
  states : s.states = s.automaton.start :: acceptAll s.automaton s.automaton.start s.key
  ord : (match s.termOrd with | some ord => ord + 1 | none => 0) = ord

/-- What the stream is to yield of `rest`. -/
def selected (automaton : Automaton σ) (lower upper : Bound) (ord : Nat)
    (rest : List (Bytes × TermInfo)) : List (Nat × Bytes × TermInfo) :=
  ((rest.zipIdx ord).filter fun p => lower.matchLower p.1.1 && upper.matchUpper p.1.1 &&
    automaton.isMatch (automaton.run p.1.1)).map fun p => (p.2, p.1.1, p.1.2)

/-- The stream once it has taken the next key. -/
def taken (s : TermStreamer σ) (d : DeltaReader TermInfo) (key : Bytes) (ord : Nat) :
    TermStreamer σ :=
  { s with
    deltaReader := d
    termOrd := some ord
    states := s.automaton.start :: acceptAll s.automaton s.automaton.start key
    key := key }

variable {rest : List (Bytes × TermInfo)}

variable {ord : Nat} {key : Bytes}

/-- One round of the loop: the next key is taken, and looked at. -/
theorem At.round {s : TermStreamer σ} {value : TermInfo} (h : s.At ord ((key, value) :: rest)) :
    ∃ d, d.value = pure value ∧ (s.taken d key ord).At (ord + 1) rest ∧
      ∀ fuel, s.advance (fuel + 1) =
        if !s.lowerBound.matchLower key then advance fuel (s.taken d key ord)
        else if !s.upperBound.matchUpper key then
          pure (false, { s.taken d key ord with lowerBound := .unbounded })
        else if s.automaton.isMatch (s.automaton.run key) then
          pure (true, { s.taken d key ord with lowerBound := .unbounded })
        else advance fuel { s.taken d key ord with lowerBound := .unbounded } := by
  obtain ⟨⟨entries, bs, tail, hat, hnext⟩, hstates, rfl⟩ := h
  obtain ⟨d, entries', bs', hadv, hat', hrest, hreads⟩ := hat.advance hnext
  obtain ⟨suffix, hsuffix, hkey⟩ := hreads.suffix
  refine ⟨d, hreads.value, ⟨⟨entries', bs', tail, hat', hrest⟩, rfl, rfl⟩, fun fuel => ?_⟩
  have hdelta : advanceDelta s.deltaReader = pure (true, d) := by
    rw [advanceDelta, hadv]
    rfl
  -- the states of the common prefix are kept
  have htake : s.states.take (d.commonPrefixLen + 1) = s.automaton.start ::
      acceptAll s.automaton s.automaton.start (s.key.take d.commonPrefixLen) := by
    rw [hstates, List.take_succ_cons, take_acceptAll]
  have haccept : (s.automaton.start :: acceptAll s.automaton s.automaton.start
      (s.key.take d.commonPrefixLen)) ++ acceptAll s.automaton
        ((s.key.take d.commonPrefixLen).foldl s.automaton.accept s.automaton.start) suffix =
      s.automaton.start :: acceptAll s.automaton s.automaton.start key := by
    rw [List.cons_append, ← acceptAll_append, hkey]
  have hlast : ∀ state : σ, state =
      (s.key.take d.commonPrefixLen).foldl s.automaton.accept s.automaton.start →
      ∀ hne, (state :: acceptAll s.automaton state suffix).getLast hne = s.automaton.run key := by
    rintro state rfl hne
    rw [← Option.some_inj, ← List.getLast?_eq_some_getLast, getLast?_acceptAll, ← List.foldl_append,
      hkey, Automaton.run]
  rw [advance, hdelta, pure_bind]
  simp only
  rw [hsuffix, pure_bind, htake, getLast?_acceptAll]
  show (pure _ >>= _) = _
  rw [pure_bind]
  simp only [haccept, hkey, hlast _ rfl]
  rfl

/-- Behind the last entry the stream ends. -/
theorem At.advance_end {s : TermStreamer σ} (h : s.At ord []) (fuel : Nat) :
    ∃ s', s.advance (fuel + 1) = pure (false, s') := by
  obtain ⟨entries, bs, tail, hat, hnext⟩ := h.reader
  obtain ⟨d, hadv⟩ := hat.advance_end hnext
  refine ⟨{ s with deltaReader := d }, ?_⟩
  rw [advance, advanceDelta, hadv]
  rfl

theorem selected_cons (automaton : Automaton σ) (lower upper : Bound) (ord : Nat) (key : Bytes)
    (value : TermInfo) (rest : List (Bytes × TermInfo)) :
    selected automaton lower upper ord ((key, value) :: rest) =
      if lower.matchLower key && upper.matchUpper key && automaton.isMatch (automaton.run key) then
        (ord, key, value) :: selected automaton lower upper (ord + 1) rest
      else selected automaton lower upper (ord + 1) rest := by
  rw [selected, List.zipIdx_cons, List.filter_cons]
  split
  · rfl
  · rfl

variable {automaton : Automaton σ}

/-- Once the lower bound is met it is met for good. -/
theorem selected_unbounded {lower upper : Bound} (hlower : lower.matchLower key = true)
    (hlt : ∀ e ∈ rest, key < e.1) :
    selected automaton lower upper ord rest = selected automaton .unbounded upper ord rest := by
  unfold selected
  congr 1
  apply List.filter_congr
  intro p hp
  rw [Bound.matchLower_of_lt hlower (hlt p.1 (List.fst_mem_of_mem_zipIdx hp))]
  rfl

/-- Beyond the upper bound nothing is yielded. -/
theorem selected_eq_nil {lower upper : Bound} (hupper : upper.matchUpper key = false)
    (hlt : ∀ e ∈ rest, key < e.1) :
    selected automaton lower upper ord rest = [] := by
  unfold selected
  rw [List.map_eq_nil_iff, List.filter_eq_nil_iff]
  intro p hp
  simp [Bound.matchUpper_of_lt hupper (hlt p.1 (List.fst_mem_of_mem_zipIdx hp))]

/-- A result of `advance` where `items` are to be yielded: the end, or the first item,
    with the others to come from fewer than `n` entries. -/
def Yields (result : Io (Bool × TermStreamer σ)) (n : Nat) :
    List (Nat × Bytes × TermInfo) → Prop
  | [] => ∃ s', result = pure (false, s')
  | (i, key, value) :: more => ∃ s' rest, result = pure (true, s') ∧ s'.At (i + 1) rest ∧
      (rest.Pairwise fun a b => a.1 < b.1) ∧ rest.length < n ∧ s'.termOrd = some i ∧
      s'.key = key ∧ s'.deltaReader.value = pure value ∧
      selected s'.automaton s'.lowerBound s'.upperBound (i + 1) rest = more

theorem Yields.mono {result : Io (Bool × TermStreamer σ)} {m n : Nat}
    {items : List (Nat × Bytes × TermInfo)} (h : Yields result m items) (hmn : m ≤ n) :
    Yields result n items := by
  cases items with
  | nil => exact h
  | cons item more =>
    obtain ⟨s', rest, hresult, hat, hsorted, hlen, hitem⟩ := h
    exact ⟨s', rest, hresult, hat, hsorted, Nat.lt_of_lt_of_le hlen hmn, hitem⟩

/-- **`advance`** takes the stream to the next entry that is selected, or to the end. -/
theorem advance_at (rest : List (Bytes × TermInfo)) : ∀ (fuel : Nat) (s : TermStreamer σ) (ord : Nat),
    s.At ord rest → (rest.Pairwise fun a b => a.1 < b.1) → rest.length < fuel →
      Yields (s.advance fuel) rest.length
        (selected s.automaton s.lowerBound s.upperBound ord rest) := by
  induction rest with
  | nil =>
    intro fuel s ord hat _ hfuel
    obtain ⟨fuel, rfl⟩ := Nat.exists_eq_succ_of_ne_zero (Nat.ne_of_gt hfuel)
    exact hat.advance_end fuel
  | cons e rest ih =>
    intro fuel s ord hat hsorted hfuel
    obtain ⟨fuel, rfl⟩ := Nat.exists_eq_succ_of_ne_zero (Nat.ne_of_gt (Nat.zero_lt_of_lt hfuel))
    obtain ⟨key, value⟩ := e
    obtain ⟨d, hvalue, hat', hround⟩ := hat.round
    obtain ⟨hlt, hrest⟩ := List.pairwise_cons.mp hsorted
    have hfuel' : rest.length < fuel := by simpa using hfuel
    have hle : rest.length ≤ ((key, value) :: rest).length := Nat.le_succ _
    rw [hround, selected_cons]
    cases hlower : s.lowerBound.matchLower key with
    | false =>
      exact (ih fuel (s.taken d key ord) (ord + 1) hat' hrest hfuel').mono hle
    | true =>
      -- from here on the stream has no lower bound
      have hopen : TermStreamer.At { s.taken d key ord with lowerBound := .unbounded } (ord + 1)
          rest := ⟨hat'.reader, hat'.states, hat'.ord⟩
      have hclear : selected s.automaton s.lowerBound s.upperBound (ord + 1) rest =
          selected s.automaton .unbounded s.upperBound (ord + 1) rest :=
        selected_unbounded hlower hlt
      cases hupper : s.upperBound.matchUpper key with
      | false =>
        simp only [Bool.not_true, Bool.not_false, Bool.and_false, Bool.false_and,
          Bool.false_eq_true, ↓reduceIte, selected_eq_nil hupper hlt]
        exact ⟨_, rfl⟩
      | true =>
        rw [hclear]
        cases hmatch : s.automaton.isMatch (s.automaton.run key) with
        | false =>
          exact (ih fuel _ (ord + 1) hopen hrest hfuel').mono hle
        | true =>
          exact ⟨_, rest, rfl, hopen, hrest, Nat.lt_succ_self _, rfl, rfl, hvalue, rfl⟩

/-- **A stream** yields what is selected of the entries to come, each with its ordinal. -/
theorem collect_at (fuel : Nat) : ∀ (rounds : Nat) (s : TermStreamer σ) (ord : Nat)
    (rest : List (Bytes × TermInfo)), s.At ord rest → (rest.Pairwise fun a b => a.1 < b.1) →
      rest.length < fuel → rest.length < rounds →
      s.collect fuel rounds =
        pure (selected s.automaton s.lowerBound s.upperBound ord rest) := by
  intro rounds
  induction rounds with
  | zero => intro s ord rest _ _ _ h; exact absurd h (Nat.not_lt_zero _)
  | succ rounds ih =>
    intro s ord rest hat hsorted hfuel hrounds
    have hadv := advance_at rest fuel s ord hat hsorted hfuel
    cases hsel : selected s.automaton s.lowerBound s.upperBound ord rest with
    | nil =>
      rw [hsel] at hadv
      obtain ⟨s', hs'⟩ := hadv
      rw [collect, hs', pure_bind]
    | cons item more =>
      rw [hsel] at hadv
      obtain ⟨s', rest', hs', hat', hsorted', hlen, hord, hkey, hvalue, hmore⟩ := hadv
      simp [collect, hs', pure_bind, hvalue, ih s' _ rest' hat' hsorted' (by omega) (by omega),
        hmore, hord, hkey]

end TermStreamer

end Streams

/-! ### The round trip -/

/-- A dictionary that answers as the list of entries does. -/
structure TermDictionary.Answers (dict : TermDictionary) (entries : List (Bytes × TermInfo)) :
    Prop where
  numTerms : dict.numTerms = entries.length
  stream : dict.streamAll alwaysMatch .unbounded .unbounded =
    pure (entries.zipIdx.map fun p => (p.2, p.1.1, p.1.2))
  get : ∀ key, dict.get key = pure ((entries.find? fun e => e.1 = key).map Prod.snd)
  termOrd : ∀ key, dict.termOrd key = pure (entries.findIdx? fun e => e.1 = key)
  ordToTerm : ∀ ord < 2 ^ 64 - 1, dict.ordToTerm ord =
    pure (match entries[ord]? with | some e => (true, e.1) | none => (false, []))
  termInfoFromOrd : ∀ ord < 2 ^ 64 - 1, dict.termInfoFromOrd ord =
    pure (match entries[ord]? with | some e => e.2 | none => TermInfo.default)
  range : ∀ lower upper, dict.streamAll alwaysMatch lower upper =
    pure ((entries.zipIdx.filter fun p =>
      lower.matchLower p.1.1 && upper.matchUpper p.1.1).map fun p => (p.2, p.1.1, p.1.2))

/-- A dictionary over the blocks of the entries. -/
structure TermDictionary.Holds (dict : TermDictionary) (entries : List (Bytes × TermInfo)) :
    Prop where
  table : dict.sstableSlice = (cutBlocks [] entries).flatMap encodeBlock ++ toLE 4 0
  index : Indexed (cutBlocks [] entries) dict.sstableIndex
  numTerms : dict.numTerms = entries.length

namespace TermDictionary.Holds

variable {dict : TermDictionary} {entries : List (Bytes × TermInfo)}

theorem length_lt (h : dict.Holds entries) : entries.length < dict.sstableSlice.length + 1 := by
  have hflat := flatten_cutBlocks entries []
  have hle := length_flatten_le_encodeBlock (cutBlocks [] entries)
  rw [hflat, List.nil_append] at hle
  rw [h.table, List.length_append]
  omega

/-- A reader of the whole table stands before all the entries. -/
theorem reader_at (h : dict.Holds entries) (hwf : WellFormed entries) :
    dict.sstableReader.At entries := by
  have hat := Reader.at_new hwf.blockOk (.inr ⟨[], (List.append_nil _).symm⟩ : AtEnd (toLE 4 0))
  rw [flatten_cutBlocks, List.nil_append, ← h.table] at hat
  exact hat

/-- **Streams.** A stream yields the entries within its bounds that its automaton
    accepts, with their ordinals. -/
theorem streamAll_eq {σ : Type} (h : dict.Holds entries) (hwf : WellFormed entries)
    (automaton : Automaton σ) (lower upper : Bound) :
    dict.streamAll automaton lower upper =
      pure (TermStreamer.selected automaton lower upper 0 entries) := by
  have hat : (dict.streamer automaton lower upper).At 0 entries := by
    refine ⟨⟨[], cutBlocks [] entries, toLE 4 0, ?_, ?_⟩, rfl, rfl⟩
    · have hnew := DeltaReader.at_new hwf.blockOk
        (.inr ⟨[], (List.append_nil _).symm⟩ : AtEnd (toLE 4 0))
      rw [← h.table] at hnew
      exact hnew
    · simp [flatten_cutBlocks]
  exact TermStreamer.collect_at _ _ _ 0 entries hat hwf.sorted h.length_lt h.length_lt

theorem range (h : dict.Holds entries) (hwf : WellFormed entries) (lower upper : Bound) :
    dict.streamAll alwaysMatch lower upper =
      pure ((entries.zipIdx.filter fun p =>
        lower.matchLower p.1.1 && upper.matchUpper p.1.1).map fun p => (p.2, p.1.1, p.1.2)) := by
  simp [h.streamAll_eq hwf, TermStreamer.selected, alwaysMatch]

/-- With increasing keys a key leads to its entry. -/
theorem find?_eq_of_mem {l : List (Bytes × TermInfo)} (hsorted : l.Pairwise fun a b => a.1 < b.1)
    {e : Bytes × TermInfo} (he : e ∈ l) : l.find? (fun e' => e'.1 = e.1) = some e := by
  induction l with
  | nil => cases he
  | cons a l ih =>
    obtain ⟨hlt, hrest⟩ := List.pairwise_cons.mp hsorted
    rcases List.mem_cons.mp he with rfl | he
    · exact List.find?_cons_of_pos (decide_eq_true rfl)
    · have hne : decide (a.1 = e.1) = false := by
        apply decide_eq_false
        intro heq
        have hae := hlt e he
        rw [heq] at hae
        exact List.lt_irrefl _ hae
      rw [List.find?_cons, hne]
      exact ih hrest he

/-- **`get`** reads the one block that can hold the key. -/
theorem get_eq (h : dict.Holds entries) (hwf : WellFormed entries) (key : Bytes) :
    dict.get key = pure ((entries.find? fun e => e.1 = key).map Prod.snd) := by
  have hsearch := search_indexed h.index key
  have hflat := flatten_cutBlocks entries []
  rw [List.nil_append] at hflat
  rw [hflat] at hsearch
  unfold TermDictionary.get
  cases hfound : dict.sstableIndex.search key with
  | none =>
    rw [hfound] at hsearch
    have hnone : entries.find? (fun e => e.1 = key) = none := by
      rw [List.find?_eq_none]
      intro e he
      simpa using hsearch.1 e he
    simp [hnone]
  | some addr =>
    rw [hfound] at hsearch
    obtain ⟨pre, b, post, hbs, haddr, honly, -⟩ := hsearch
    have hmem : b ∈ cutBlocks [] entries := by simp [hbs]
    have hpart : b <:+: entries := by
      rw [← hflat]
      exact List.infix_of_mem_flatten hmem
    -- the bytes of the block
    have hslice : slice? dict.sstableSlice addr.byteRange.start addr.byteRange.stop =
        some (encodeBlock b) := by
      rw [haddr, h.table, hbs]
      simp only [List.flatMap_append, List.flatMap_cons, List.flatMap_nil, List.append_nil,
        List.append_assoc, List.length_append]
      rw [slice?_eq (by omega) (by simp only [List.length_append]; omega), slice,
        List.drop_left, Nat.add_sub_cancel_left, List.take_left]
    have hat : (Reader.new TermInfo (encodeBlock b)).At b := by
      have hok : ∀ b' ∈ [b], BlockOk b' := by
        intro b' hb'
        rw [List.mem_singleton.mp hb']
        exact hwf.blockOk b hmem
      have hnew := Reader.at_new hok (.inl rfl : AtEnd [])
      simpa using hnew
    have hlen : b.length < dict.sstableSlice.length + 1 := by
      have hlt := h.length_lt
      have hle := hpart.length_le
      omega
    have hfind : entries.find? (fun e => e.1 = key) = b.find? (fun e => e.1 = key) := by
      by_cases hex : ∃ e ∈ entries, e.1 = key
      · obtain ⟨e, he, rfl⟩ := hex
        simp [find?_eq_of_mem hwf.sorted he,
          find?_eq_of_mem (hwf.sorted.sublist hpart.sublist) (honly e he rfl)]
      · have hall : ∀ e ∈ entries, ¬ decide (e.1 = key) = true := by
          intro e he hkey
          exact hex ⟨e, he, of_decide_eq_true hkey⟩
        simp [List.find?_eq_none.mpr hall,
          List.find?_eq_none.mpr fun e he => hall e (hpart.subset he)]
    simp only [TermDictionary.sstableReaderBlock, hslice]
    show (pure _ >>= _) = _
    rw [pure_bind, getLoop_at key b _ _ hat hlen, hfind]

/-- A dictionary over the blocks of the entries answers exactly. -/
theorem answers (h : dict.Holds entries) (hwf : WellFormed entries) : dict.Answers entries where
  numTerms := h.numTerms
  stream := by
    simp [h.range hwf, Bound.matchLower, Bound.matchUpper]
  get := h.get_eq hwf
  termOrd := fun key => by
    simp [TermDictionary.termOrd, termOrdLoop_at key entries _ 0 _ (h.reader_at hwf) h.length_lt]
  ordToTerm := fun ord _ => by
    have hadv := advanceBy_at ord entries _ (h.reader_at hwf)
    unfold TermDictionary.ordToTerm
    cases hget : entries[ord]? with
    | none =>
      rw [hget] at hadv
      rw [hadv, pure_bind]
    | some e =>
      rw [hget] at hadv
      obtain ⟨r, hr, hkey, -⟩ := hadv
      simp [hr, pure_bind, hkey]
  termInfoFromOrd := fun ord _ => by
    have hadv := advanceBy_at ord entries _ (h.reader_at hwf)
    unfold TermDictionary.termInfoFromOrd
    cases hget : entries[ord]? with
    | none =>
      rw [hget] at hadv
      rw [hadv, pure_bind]
    | some e =>
      rw [hget] at hadv
      obtain ⟨r, hr, -, hvalue⟩ := hadv
      rw [hr, pure_bind]
      exact hvalue
  range := h.range hwf

end TermDictionary.Holds

/-- The index the builder comes to. -/
def TermDictionary.builtIndex (entries : List (Bytes × TermInfo)) : Option SSTableIndex :=
  ((Writer.new TermInfo).writeAll entries).map fun w => w.finalize.2.1

/-- **Round trip.** What is built from entries with increasing keys and contiguous
    ranges opens as a dictionary that answers exactly as the entries do. -/
theorem open_build (codec : IndexCodec) {entries : List (Bytes × TermInfo)}
    (hwf : WellFormed entries)
    (hcodec : ∀ index ∈ TermDictionary.builtIndex entries,
      codec.load (codec.serialize index) = some index) :
    ∃ file dict, TermDictionary.build codec entries = some file ∧
      TermDictionary.open codec file = pure dict ∧ dict.Answers entries := by
  obtain ⟨w, index, hall, hfinal, hindexed⟩ := writeAll_finalize hwf.sorted
  have hbuilt : TermDictionary.builtIndex entries = some index := by
    rw [TermDictionary.builtIndex, hall, Option.map_some, hfinal]
  have hload := hcodec index hbuilt
  obtain ⟨sstable, hsstable⟩ :
      ∃ sstable, sstable = (cutBlocks [] entries).flatMap encodeBlock ++ toLE 4 0 := ⟨_, rfl⟩
  rw [← hsstable] at hfinal
  have hlen : sstable.length < 256 ^ 8 := by
    have hsize := hwf.size
    rw [hsstable, List.length_append, length_toLE]
    exact lt_of_lt_of_eq hsize (by norm_num)
  let dict : TermDictionary := ⟨sstable, index, entries.length⟩
  have hholds : dict.Holds entries := ⟨hsstable, hindexed, rfl⟩
  have hcount : entries.length < 256 ^ 8 := by
    have hflat := flatten_cutBlocks entries []
    have hle := length_flatten_le_encodeBlock (cutBlocks [] entries)
    have hsize := hwf.size
    rw [hflat, List.nil_append] at hle
    exact lt_of_lt_of_eq (by omega : entries.length < 2 ^ 64) (by norm_num)
  refine ⟨sstable ++ codec.serialize index ++ toLE 8 sstable.length ++ toLE 8 entries.length, dict,
    ?_, ?_, hholds.answers hwf⟩
  · simp only [TermDictionary.build, hall, Option.bind_eq_bind, Option.bind_some, hfinal,
      Option.pure_def]
  · -- the footer takes the last 16 bytes
    have hfile : sstable ++ codec.serialize index ++ toLE 8 sstable.length ++
        toLE 8 entries.length = (sstable ++ codec.serialize index) ++
          (toLE 8 sstable.length ++ toLE 8 entries.length) := by
      rw [List.append_assoc _ (toLE 8 sstable.length)]
    have hfooter : (toLE 8 sstable.length ++ toLE 8 entries.length).length = 16 := by
      rw [List.length_append, length_toLE, length_toLE]
    have hsub : ((sstable ++ codec.serialize index) ++
        (toLE 8 sstable.length ++ toLE 8 entries.length)).length - 16 =
          (sstable ++ codec.serialize index).length := by
      rw [List.length_append, hfooter, Nat.add_sub_cancel]
    rw [hfile, TermDictionary.open, if_neg (by rw [List.length_append, hfooter]; omega)]
    simp only [hsub, List.take_left, List.drop_left]
    rw [List.take_left' (length_toLE _ _), List.drop_left' (length_toLE _ _), ofLE_toLE hlen,
      ofLE_toLE hcount, if_neg (by rw [List.length_append]; omega), List.drop_left, List.take_left,
      hload]

/-- Two terms. -/
def sampleEntries : List (Bytes × TermInfo) :=
  [([17], ⟨2, ⟨0, 5⟩, ⟨0, 3⟩⟩), ([17, 20], ⟨1, ⟨5, 9⟩, ⟨3, 3⟩⟩)]

/-- The index of their one block. -/
def sampleIndex : SSTableIndex := [⟨[17, 20], ⟨⟨0, 17⟩, 0⟩⟩]

/-- The index in CBOR. -/
def sampleCbor : Bytes :=
  [161, 102, 98, 108, 111, 99, 107, 115, 129, 162, 115, 108, 97, 115, 116, 95, 107, 101, 121, 95,
    111, 114, 95, 103, 114, 101, 97, 116, 101, 114, 130, 17, 20, 106, 98, 108, 111, 99, 107, 95,
    97, 100, 100, 114, 162, 106, 98, 121, 116, 101, 95, 114, 97, 110, 103, 101, 162, 101, 115, 116,
    97, 114, 116, 0, 99, 101, 110, 100, 17, 109, 102, 105, 114, 115, 116, 95, 111, 114, 100, 105,
    110, 97, 108, 0]

/-- The bytes of their table. -/
def sampleTable : Bytes :=
  [13, 0, 0, 0, 130, 128, 128, 130, 133, 131, 129, 132, 128, 16, 17, 17, 20, 0, 0, 0, 0]

/-- The codec, as far as the two terms need it. -/
def sampleCodec : IndexCodec where
  serialize := fun index => if index = sampleIndex then sampleCbor else []
  load := fun bytes => if bytes = sampleCbor then some sampleIndex else none

theorem open_build_sample :
    ∃ file dict, TermDictionary.build sampleCodec sampleEntries = some file ∧
      TermDictionary.open sampleCodec file = pure dict ∧ dict.Answers sampleEntries :=
  open_build sampleCodec ⟨by decide, by decide, by decide, by decide, by decide⟩ (by decide)

set_option maxRecDepth 4000 in
/-- Past the end `term_info_from_ord` answers with the default, and not with an error. -/
theorem termInfoFromOrd_past_end :
    ∃ file dict, TermDictionary.build sampleCodec sampleEntries = some file ∧
      TermDictionary.open sampleCodec file = pure dict ∧ sampleEntries.length ≤ 2 ∧
      dict.termInfoFromOrd 2 = pure TermInfo.default ∧ ¬ ∃ e, dict.termInfoFromOrd 2 = throw e := by
  have hinfo : TermDictionary.termInfoFromOrd ⟨sampleTable, sampleIndex, 2⟩ 2 =
      pure TermInfo.default := by rfl
  refine ⟨sampleTable ++ sampleCbor ++ toLE 8 21 ++ toLE 8 2, ⟨sampleTable, sampleIndex, 2⟩, by rfl,
    by rfl, by decide, hinfo, ?_⟩
  rw [hinfo]
  rintro ⟨e, he⟩
  cases he

end TeaclaveCrates.Tantivy
