import TeaclaveCrates.Tantivy.SSTable

namespace TeaclaveCrates.Tantivy

open TeaclaveCrates.Lib

/-!
# tantivy — what a sorted string table holds

The layout of a table, and that the writer produces it.

* `cutBlocks` / `encodeBlock` — how entries are cut into blocks, and the bytes of a
  block;
* `Indexed` — an index whose separators keep the blocks apart;
* `search_indexed` — a search leads to the only block that can hold a key;
* `Writer.At` — what the writer has written so far;
* `writeAll_finalize` — what it writes for increasing keys.
-/

variable {V : Type} [ValueCodec V]

/-! ### Layout -/

/-- The keys of a block, each against the one before. -/
def encodeKeys : Bytes → List (Bytes × V) → Bytes
  | _, [] => []
  | prev, (key, _) :: entries =>
    let keepLen := commonPrefixLen prev key
    DeltaWriter.encodeKeepAdd keepLen (key.drop keepLen).length ++ key.drop keepLen ++
      encodeKeys key entries

/-- The values and the keys of a block. -/
def blockBytes (entries : List (Bytes × V)) : Bytes :=
  ValueCodec.writeBlock (entries.map Prod.snd) ++ encodeKeys [] entries

/-- A block with its length in front. -/
def encodeBlock (entries : List (Bytes × V)) : Bytes :=
  toLE 4 (blockBytes entries).length ++ blockBytes entries

/-- How entries are cut into blocks: behind the entry whose key takes the block beyond
    `BLOCK_LEN`.  `cur` is the block that is being filled. -/
def cutBlocks (cur : List (Bytes × V)) : List (Bytes × V) → List (List (Bytes × V))
  | [] => if cur.isEmpty then [] else [cur]
  | entry :: entries =>
    if (encodeKeys [] (cur ++ [entry])).length > BLOCK_LEN then
      (cur ++ [entry]) :: cutBlocks [] entries
    else
      cutBlocks (cur ++ [entry]) entries

omit [ValueCodec V] in
theorem flatten_cutBlocks (entries : List (Bytes × V)) :
    ∀ cur, (cutBlocks cur entries).flatten = cur ++ entries := by
  induction entries with
  | nil =>
    intro cur
    rw [cutBlocks]
    cases cur with
    | nil => rfl
    | cons e cur => simp
  | cons entry entries ih =>
    intro cur
    rw [cutBlocks]
    split
    · simp [ih]
    · simp [ih]

omit [ValueCodec V] in
theorem ne_nil_of_mem_cutBlocks (entries : List (Bytes × V)) :
    ∀ cur, ∀ b ∈ cutBlocks cur entries, b ≠ [] := by
  induction entries with
  | nil =>
    intro cur b hb
    rw [cutBlocks] at hb
    cases cur with
    | nil => cases hb
    | cons e cur =>
      rw [if_neg (by simp), List.mem_singleton] at hb
      rw [hb]
      exact List.cons_ne_nil _ _
  | cons entry entries ih =>
    intro cur b hb
    rw [cutBlocks] at hb
    split at hb
    · rcases List.mem_cons.mp hb with rfl | hb
      · simp
      · exact ih [] b hb
    · exact ih _ b hb

/-! ### Common prefixes -/

theorem commonPrefixLen_cons (a b : UInt8) (l r : Bytes) :
    commonPrefixLen (a :: l) (b :: r) = if a = b then commonPrefixLen l r + 1 else 0 := by
  unfold commonPrefixLen
  by_cases h : a = b <;> simp [h]

theorem commonPrefixLen_spec (l : Bytes) :
    ∀ r, commonPrefixLen l r ≤ l.length ∧ commonPrefixLen l r ≤ r.length ∧
      l.take (commonPrefixLen l r) = r.take (commonPrefixLen l r) := by
  induction l with
  | nil => simp [commonPrefixLen]
  | cons a l ih =>
    intro r
    cases r with
    | nil => simp [commonPrefixLen]
    | cons b r =>
      rw [commonPrefixLen_cons]
      obtain ⟨hl, hr, heq⟩ := ih r
      by_cases hab : a = b
      · subst hab
        rw [if_pos rfl, List.length_cons, List.length_cons, List.take_succ_cons, heq]
        exact ⟨by omega, by omega, rfl⟩
      · simp [if_neg hab]

/-- Behind the common prefix a greater key goes on with a greater byte. -/
theorem lt_iff_commonPrefixLen (l : Bytes) :
    ∀ r, l < r →
      (l.length = commonPrefixLen l r ∧ commonPrefixLen l r < r.length) ∨
      ∃ a b l' r', l.drop (commonPrefixLen l r) = a :: l' ∧ r.drop (commonPrefixLen l r) = b :: r' ∧
        a < b := by
  induction l with
  | nil =>
    intro r h
    cases r with
    | nil => exact absurd h (List.not_lt_nil _)
    | cons b r => exact .inl (by simp [commonPrefixLen])
  | cons a l ih =>
    intro r h
    cases r with
    | nil => exact absurd h (List.not_lt_nil _)
    | cons b r =>
      rw [commonPrefixLen_cons]
      rcases List.cons_lt_cons_iff.mp h with hlt | ⟨rfl, hlt⟩
      · have hne : a ≠ b := fun heq => absurd hlt (by rw [heq]; exact UInt8.lt_irrefl b)
        rw [if_neg hne]
        exact .inr ⟨a, b, l, r, rfl, rfl, hlt⟩
      · rw [if_pos rfl]
        rcases ih r hlt with ⟨hlen, hlt'⟩ | ⟨x, y, l', r', hl', hr', hxy⟩
        · exact .inl ⟨by rw [List.length_cons, hlen], by rw [List.length_cons]; omega⟩
        · exact .inr ⟨x, y, l', r', hl', hr', hxy⟩

/-- A greater key adds at least a byte. -/
theorem commonPrefixLen_lt {l r : Bytes} (h : l < r) : commonPrefixLen l r < r.length := by
  rcases lt_iff_commonPrefixLen l r h with ⟨-, hlt⟩ | ⟨a, b, l', r', -, hr, -⟩
  · exact hlt
  · have hlen := congrArg List.length hr
    rw [List.length_drop, List.length_cons] at hlen
    omega

/-! ### Separators -/

theorem lt_increaseFirst (l : Bytes) : ∀ t, increaseFirst l = some t → l < t := by
  induction l with
  | nil => intro t h; cases h
  | cons b l ih =>
    intro t h
    rw [increaseFirst] at h
    split at h
    · next hb =>
      cases h
      refine List.cons_lt_cons_iff.mpr (.inl ?_)
      have hlt : b.toNat < 255 := by
        have := b.toNat_lt
        have hne : b.toNat ≠ 255 := fun heq => hb (UInt8.toNat_inj.mp heq)
        omega
      rw [UInt8.lt_iff_toNat_lt, UInt8.toNat_add, show (1 : UInt8).toNat = 1 from rfl]
      omega
    · obtain ⟨t', ht', rfl⟩ := Option.map_eq_some_iff.mp h
      exact List.cons_lt_cons_iff.mpr (.inr ⟨rfl, ih t' ht'⟩)

/-- The shorter string lies between its arguments. -/
theorem findShorterStrInBetween_spec {left right : Bytes} (h : left < right) :
    ∃ sep, findShorterStrInBetween left right = some sep ∧ left ≤ sep ∧ sep < right := by
  unfold findShorterStrInBetween
  simp only [if_pos h]
  by_cases hlen : left.length = commonPrefixLen left right
  · exact ⟨left, if_pos hlen, List.le_refl left, h⟩
  · simp only [if_neg hlen]
    cases hinc : increaseFirst (left.drop (commonPrefixLen left right + 1)) with
    | none => exact ⟨left, rfl, List.le_refl left, h⟩
    | some tail =>
      rcases lt_iff_commonPrefixLen left right h with ⟨heq, -⟩ | ⟨a, b, l', r', hl, hr, hab⟩
      · exact absurd heq hlen
      · -- both start with the common prefix; the first difference is kept
        have htake := (commonPrefixLen_spec left right).2.2
        have hdrop : left.drop (commonPrefixLen left right + 1) = l' := by
          rw [← List.drop_drop, hl]
          rfl
        have hfirst : left.take (commonPrefixLen left right + 1) =
            left.take (commonPrefixLen left right) ++ [a] := by
          simp [List.take_add, hl]
        have hleft : left = left.take (commonPrefixLen left right) ++ a :: l' := by
          rw [← hl, List.take_append_drop]
        have hright : right = left.take (commonPrefixLen left right) ++ b :: r' := by
          rw [htake, ← hr, List.take_append_drop]
        rw [hdrop] at hinc
        refine ⟨_, rfl, ?_, ?_⟩
        · rw [hfirst, List.append_assoc, List.singleton_append]
          refine List.le_of_lt ?_
          conv_lhs => rw [hleft]
          exact List.append_left_lt (List.cons_lt_cons_iff.mpr
            (.inr ⟨rfl, lt_increaseFirst l' tail hinc⟩))
        · rw [hfirst, List.append_assoc, List.singleton_append]
          conv_rhs => rw [hright]
          exact List.append_left_lt (List.cons_lt_cons_iff.mpr (.inl hab))

/-! ### The index -/

/-- The first key of the block is at least `key`. -/
def StartsAbove (key : Bytes) (b : List (Bytes × V)) : Prop := ∀ e ∈ b, key < e.1

/-- An index of the blocks: each separator is not below the keys of its block and
    below those of the next, and each address is that of the block. -/
inductive Indexed : List (List (Bytes × V)) → SSTableIndex → Prop
  | nil : Indexed [] []
  | snoc {bs : List (List (Bytes × V))} {index : SSTableIndex} {b : List (Bytes × V)} {sep : Bytes}
      {firstOrdinal : Nat} (h : Indexed bs index) (hne : b ≠ []) (hsep : ∀ e ∈ b, e.1 ≤ sep)
      (hprev : ∀ m ∈ index.getLast?, StartsAbove m.lastKeyOrGreater b) :
      Indexed (bs ++ [b]) (index ++ [⟨sep, ⟨⟨(bs.flatMap encodeBlock).length,
        ((bs ++ [b]).flatMap encodeBlock).length⟩, firstOrdinal⟩⟩])

variable {bs : List (List (Bytes × V))}

variable {index : SSTableIndex}

/-- Separators increase. -/
theorem Indexed.le_getLast (h : Indexed bs index) :
    ∀ m ∈ index, ∀ l ∈ index.getLast?,
      m.lastKeyOrGreater ≤ l.lastKeyOrGreater := by
  induction h with
  | nil => intro m hm; cases hm
  | @snoc bs index b sep firstOrdinal h hne hsep hprev ih =>
    intro m hm l hl
    rw [List.getLast?_append, List.getLast?_singleton] at hl
    cases hl
    rcases List.mem_append.mp hm with hm | hm
    · obtain ⟨e, he⟩ := List.exists_mem_of_ne_nil b hne
      cases hlast : index.getLast? with
      | none =>
        rw [List.getLast?_eq_none_iff.mp hlast] at hm
        cases hm
      | some l =>
        have h₁ := ih m hm l (by rw [hlast]; rfl)
        have h₂ := hprev l (by rw [hlast]; rfl) e he
        exact List.le_trans h₁ (List.le_trans (List.le_of_lt h₂) (hsep e he))
    · rw [List.mem_singleton.mp hm]
      exact List.le_refl _

/-- **Search.** A search leads to the only block that can hold the key, at its
    address; without a block no key is that great. -/
theorem search_indexed (h : Indexed bs index) (key : Bytes) :
    match index.search key with
    | some addr => ∃ pre b post, bs = pre ++ b :: post ∧
        addr.byteRange = ⟨(pre.flatMap encodeBlock).length,
          ((pre ++ [b]).flatMap encodeBlock).length⟩ ∧
        (∀ e ∈ bs.flatten, e.1 = key → e ∈ b) ∧
        ∃ m ∈ index, key ≤ m.lastKeyOrGreater
    | none => (∀ e ∈ bs.flatten, e.1 ≠ key) ∧ ∀ m ∈ index, m.lastKeyOrGreater < key := by
  induction h with
  | nil =>
    show (∀ e ∈ ([] : List (Bytes × V)), e.1 ≠ key) ∧
      ∀ m ∈ ([] : SSTableIndex), m.lastKeyOrGreater < key
    simp
  | @snoc bs index b sep firstOrdinal h hne hsep hprev ih =>
    unfold SSTableIndex.search at ih ⊢
    rw [List.find?_append]
    cases hfind : index.find? fun block => key ≤ block.lastKeyOrGreater with
    | some m =>
      rw [hfind] at ih
      obtain ⟨pre, b', post, hbs, haddr, honly, m', hm', hle⟩ := ih
      refine ⟨pre, b', post ++ [b], by simp [hbs], haddr, ?_,
        m', List.mem_append_left _ hm', hle⟩
      intro e he hkey
      rw [List.flatten_append, List.mem_append] at he
      rcases he with he | he
      · exact honly e he hkey
      · -- the keys of a later block are above the separator
        exfalso
        rw [List.flatten_cons, List.flatten_nil, List.append_nil] at he
        cases hlast : index.getLast? with
        | none =>
          rw [List.getLast?_eq_none_iff.mp hlast] at hm'
          cases hm'
        | some l =>
          have h₁ := h.le_getLast m' hm' l (by rw [hlast]; rfl)
          have h₂ := hprev l (by rw [hlast]; rfl) e he
          rw [hkey] at h₂
          exact List.le_trans hle h₁ h₂
    | none =>
      rw [hfind] at ih
      obtain ⟨hnone, hall⟩ := ih
      by_cases hle : key ≤ sep
      · simp only [Option.none_or, List.find?_cons, hle, decide_true, Option.map_some]
        refine ⟨bs, b, [], rfl, rfl, ?_, _, List.mem_append_right _ (List.mem_singleton_self _),
          hle⟩
        intro e he hkey
        rw [List.flatten_append, List.mem_append] at he
        rcases he with he | he
        · exact absurd hkey (hnone e he)
        · simpa using he
      · have hlt : sep < key := List.not_le.mp hle
        simp only [Option.none_or, List.find?_cons, hle, decide_false, List.find?_nil,
          Option.map_none]
        refine ⟨?_, ?_⟩
        · intro e he hkey
          rw [List.flatten_append, List.mem_append] at he
          rcases he with he | he
          · exact hnone e he hkey
          · have hsepe := hsep e (by simpa using he)
            rw [hkey] at hsepe
            exact hle hsepe
        · intro m hm
          rcases List.mem_append.mp hm with hm | hm
          · exact hall m hm
          · rw [List.mem_singleton.mp hm]
            exact hlt

/-! ### What the writer writes -/

/-- The last key, or `prev` before the first one. -/
def lastKey (prev : Bytes) (entries : List (Bytes × V)) : Bytes :=
  (entries.getLast?.map Prod.fst).getD prev

omit [ValueCodec V] in
theorem lastKey_cons (prev : Bytes) (e : Bytes × V) (entries : List (Bytes × V)) :
    lastKey prev (e :: entries) = lastKey e.1 entries := by
  cases entries with
  | nil => rfl
  | cons e' entries => simp [lastKey, List.getLast?_cons]

omit [ValueCodec V] in
theorem le_lastKey (entries : List (Bytes × V)) :
    ∀ prev, entries.Pairwise (fun a b => a.1 < b.1) → ∀ e ∈ entries, e.1 ≤ lastKey prev entries := by
  induction entries with
  | nil => intro prev _ e he; cases he
  | cons e₀ entries ih =>
    intro prev hsorted e he
    obtain ⟨hfirst, hrest⟩ := List.pairwise_cons.mp hsorted
    rw [lastKey_cons]
    rcases List.mem_cons.mp he with rfl | he
    · cases entries with
      | nil => exact List.le_refl _
      | cons e₁ entries =>
        have hle := ih e.1 hrest e₁ (List.mem_cons_self ..)
        exact List.le_trans (List.le_of_lt (hfirst e₁ (List.mem_cons_self ..))) hle
    · exact ih e₀.1 hrest e he

omit [ValueCodec V] in
theorem encodeKeys_append (entries : List (Bytes × V)) (key : Bytes) (value : V) :
    ∀ prev, encodeKeys prev (entries ++ [(key, value)]) =
      encodeKeys prev entries ++
        (DeltaWriter.encodeKeepAdd (commonPrefixLen (lastKey prev entries) key)
            (key.drop (commonPrefixLen (lastKey prev entries) key)).length ++
          key.drop (commonPrefixLen (lastKey prev entries) key)) := by
  induction entries with
  | nil => simp [encodeKeys, lastKey]
  | cons e entries ih =>
    intro prev
    simp [encodeKeys, ih, lastKey_cons]

variable {entries : List (Bytes × V)}

omit [ValueCodec V] in
theorem encodeKeys_ne_nil (prev : Bytes) (h : entries ≠ []) :
    encodeKeys prev entries ≠ [] := by
  cases entries with
  | nil => exact absurd rfl h
  | cons e entries =>
    rw [encodeKeys, DeltaWriter.encodeKeepAdd]
    split <;> simp

/-- A new separator that is not below the old one. -/
theorem Indexed.reseparate {m : BlockMeta} {sep : Bytes} (h : Indexed bs index)
    (hlast : index.getLast? = some m) (hsep : m.lastKeyOrGreater ≤ sep) :
    Indexed bs (index.dropLast ++ [{ m with lastKeyOrGreater := sep }]) := by
  cases h with
  | nil => cases hlast
  | snoc h hne hsepOld hprev =>
    rw [List.getLast?_append, List.getLast?_singleton] at hlast
    cases hlast
    rw [List.dropLast_concat]
    exact .snoc h hne (fun e he => List.le_trans (hsepOld e he) hsep) hprev

variable {cur : List (Bytes × V)}

/-- Flushing writes the block that has been filled behind the others. -/
theorem flushBlock_eq (bs : List (List (Bytes × V))) (h : cur ≠ []) :
    (DeltaWriter.mk (encodeKeys [] cur) (bs.flatMap encodeBlock) (cur.map Prod.snd)).flushBlock =
      (some ⟨(bs.flatMap encodeBlock).length, ((bs ++ [cur]).flatMap encodeBlock).length⟩,
        ⟨[], (bs ++ [cur]).flatMap encodeBlock, []⟩) := by
  have hwritten : bs.flatMap encodeBlock ++ (toLE 4 ((ValueCodec.writeBlock (cur.map Prod.snd)).length +
        (encodeKeys [] cur).length) ++ ValueCodec.writeBlock (cur.map Prod.snd) ++
        encodeKeys [] cur) = (bs ++ [cur]).flatMap encodeBlock := by
    simp [encodeBlock, blockBytes]
  simp only [DeltaWriter.flushBlock, List.isEmpty_eq_false_iff.mpr (encodeKeys_ne_nil _ h),
    Bool.false_eq_true, ↓reduceIte, hwritten]

/-- The writer has written the blocks `bs` and is filling `cur`. -/
structure Writer.At (w : Writer V) (bs : List (List (Bytes × V))) (cur : List (Bytes × V)) :
    Prop where
  written : w.deltaWriter.write = bs.flatMap encodeBlock
  block : w.deltaWriter.block = encodeKeys [] cur
  values : w.deltaWriter.values = cur.map Prod.snd
  previousKey : w.previousKey = lastKey [] cur
  numTerms : w.numTerms = bs.flatten.length + cur.length
  firstOrdinal : w.firstOrdinalOfTheBlock = bs.flatten.length
  indexed : Indexed bs w.index
  /-- Before the next key is known, the last separator is the last key. -/
  lastSeparator : cur = [] → ∀ m ∈ w.index.getLast?, ∃ e ∈ bs.flatten, e.1 = m.lastKeyOrGreater
  separated : ∀ m ∈ w.index.getLast?, StartsAbove m.lastKeyOrGreater cur

/-- The assertion of `write_key` holds for a greater key. -/
theorem increasingKeys_of_lt {prev key : Bytes} (h : prev = [] ∨ prev < key) :
    Writer.increasingKeys prev key = true := by
  unfold Writer.increasingKeys
  rcases h with rfl | hlt
  · simp
  · rcases lt_iff_commonPrefixLen prev key hlt with ⟨hlen, hmore⟩ | ⟨a, b, l', r', hl, hr, hab⟩
    · simp only [hlen, decide_true, Bool.and_true, Bool.or_eq_true, decide_eq_true_eq]
      exact .inl (.inl (by omega))
    · have ha : prev[commonPrefixLen prev key]? = some a := by
        rw [← List.head?_drop, hl]
        rfl
      have hb : key[commonPrefixLen prev key]? = some b := by
        rw [← List.head?_drop, hr]
        rfl
      simp [ha, hb, hab, decide_true]

/-- The separator of the last block, once the next key is known. -/
theorem Writer.At.shorten {w : Writer V} (key : Bytes) (h : w.At bs cur)
    (hkey : ∀ e ∈ bs.flatten, e.1 < key) :
    ∃ index, w.nextIndex key = some index ∧ Indexed bs index ∧
      ∀ m ∈ index.getLast?, (cur = [] → m.lastKeyOrGreater < key) ∧
        StartsAbove m.lastKeyOrGreater cur := by
  unfold Writer.nextIndex
  by_cases hcur : cur = []
  · -- the first key of a block
    subst hcur
    rw [if_pos (by rw [h.firstOrdinal, h.numTerms]; rfl)]
    unfold shortenLastBlockKeyGivenNextKey
    cases hlast : w.index.getLast? with
    | none =>
      refine ⟨w.index, rfl, h.indexed, ?_⟩
      intro m hm
      rw [hlast] at hm
      cases hm
    | some m =>
      obtain ⟨e, he, hm⟩ := h.lastSeparator rfl m hlast
      have hlt : m.lastKeyOrGreater < key := by
        rw [← hm]
        exact hkey e he
      obtain ⟨sep, hsep, hle, hlt'⟩ := findShorterStrInBetween_spec hlt
      simp only [hsep, Option.bind_eq_bind, Option.bind_some, Option.pure_def]
      refine ⟨_, rfl, h.indexed.reseparate hlast hle, ?_⟩
      intro m' hm'
      rw [List.getLast?_append, List.getLast?_singleton] at hm'
      cases hm'
      exact ⟨fun _ => hlt', fun e he => by cases he⟩
  · have hpos := List.length_pos_iff.mpr hcur
    rw [if_neg (by rw [h.firstOrdinal, h.numTerms]; omega)]
    exact ⟨w.index, rfl, h.indexed, fun m hm => ⟨fun hnil => absurd hnil hcur, h.separated m hm⟩⟩

/-- **Writing.** An entry with a greater key is added to the block that is being
    filled, and closes it where the keys exceed `BLOCK_LEN` bytes. -/
theorem Writer.At.write {w : Writer V} {key : Bytes} (value : V) (h : w.At bs cur)
    (hkey : ∀ e ∈ bs.flatten ++ cur, e.1 < key) :
    ∃ w', w.write key value = some w' ∧
      if (encodeKeys [] (cur ++ [(key, value)])).length > BLOCK_LEN then
        w'.At (bs ++ [cur ++ [(key, value)]]) []
      else
        w'.At bs (cur ++ [(key, value)]) := by
  obtain ⟨index, hindex, hindexed, hsep⟩ :=
    h.shorten key fun e he => hkey e (List.mem_append_left _ he)
  have hprev : w.previousKey = [] ∨ w.previousKey < key := by
    rw [h.previousKey, lastKey]
    cases hlast : cur.getLast? with
    | none => exact .inl rfl
    | some e => exact .inr (hkey e (List.mem_append_right _ (List.mem_of_getLast? hlast)))
  let cur' := cur ++ [(key, value)]
  let keepLen := commonPrefixLen w.previousKey key
  have hblock : w.deltaWriter.block ++
      (DeltaWriter.encodeKeepAdd keepLen (key.drop keepLen).length ++ key.drop keepLen) =
        encodeKeys [] cur' := by
    rw [encodeKeys_append, h.block, ← h.previousKey]
  have hvalues : w.deltaWriter.values ++ [value] = cur'.map Prod.snd := by
    rw [h.values, List.map_append]
    rfl
  have hlast : lastKey [] cur' = key := by simp [lastKey, cur']
  have habove : ∀ m ∈ index.getLast?, StartsAbove m.lastKeyOrGreater cur' := by
    intro m hm e he
    obtain ⟨hnil, hcur⟩ := hsep m hm
    rcases List.mem_append.mp he with he | he
    · exact hcur e he
    · rw [List.mem_singleton.mp he]
      cases cur with
      | nil => exact hnil rfl
      | cons e' cur =>
        have h₁ := hcur e' (List.mem_cons_self ..)
        have h₂ := hkey e' (List.mem_append_right _ (List.mem_cons_self ..))
        exact List.lt_trans h₁ h₂
  have hne : cur' ≠ [] := by simp [cur']
  have hwrite : w.write key value = some (Writer.writeValue { w with
      index := index
      previousKey := key
      deltaWriter := { w.deltaWriter with block := encodeKeys [] cur' } } value) := by
    simp [Writer.write, Writer.writeKey, hindex, increasingKeys_of_lt hprev, guard,
      DeltaWriter.writeSuffix, ← hblock, keepLen]
  refine ⟨_, hwrite, ?_⟩
  simp only [Writer.writeValue, Writer.flushBlockIfRequired, DeltaWriter.flushBlockIfRequired,
    DeltaWriter.writeValue, hvalues]
  by_cases hfull : (encodeKeys [] cur').length > BLOCK_LEN
  · -- the block is written, and its last key is its separator
    have hmax : ∀ e ∈ cur', e.1 ≤ key := by
      intro e he
      rcases List.mem_append.mp he with he | he
      · exact List.le_of_lt (hkey e (List.mem_append_right _ he))
      · rw [List.mem_singleton.mp he]
        exact List.le_refl key
    rw [if_pos hfull, if_pos hfull, h.written, flushBlock_eq bs hne]
    refine ⟨rfl, rfl, rfl, rfl, ?_, ?_, .snoc hindexed hne hmax habove, ?_, ?_⟩
    · simp only [Writer.closeBlock, h.numTerms, List.flatten_append, List.length_append,
        List.flatten_cons, List.flatten_nil, List.append_nil, List.length_cons, List.length_nil]
      omega
    · simp only [Writer.closeBlock, h.numTerms, List.flatten_append, List.length_append,
        List.flatten_cons, List.flatten_nil, List.append_nil, List.length_cons, List.length_nil]
      omega
    · intro _ m hm
      simp only [Writer.closeBlock, addBlock, List.getLast?_append, List.getLast?_singleton] at hm
      cases hm
      exact ⟨(key, value), by simp, rfl⟩
    · intro m _ e he
      cases he
  · rw [if_neg hfull, if_neg hfull]
    refine ⟨h.written, rfl, rfl, hlast.symm, ?_, h.firstOrdinal, hindexed, ?_, habove⟩
    · simp only [Writer.closeBlock, h.numTerms, cur', List.length_append, List.length_singleton]
      omega
    · intro hnil
      exact absurd hnil hne

/-- A run of the writer cuts the entries into blocks.  By induction on the entries. -/
theorem Writer.At.writeAll (entries : List (Bytes × V)) :
    ∀ (w : Writer V) (bs : List (List (Bytes × V))) (cur : List (Bytes × V)), w.At bs cur →
      (bs.flatten ++ cur ++ entries).Pairwise (fun a b => a.1 < b.1) →
      ∃ w' bs' cur', w.writeAll entries = some w' ∧ w'.At bs' cur' ∧
        bs' ++ (if cur'.isEmpty then [] else [cur']) = bs ++ cutBlocks cur entries := by
  induction entries with
  | nil =>
    intro w bs cur h _
    exact ⟨w, bs, cur, rfl, h, by rw [cutBlocks]⟩
  | cons entry entries ih =>
    intro w bs cur h hsorted
    obtain ⟨key, value⟩ := entry
    have hkey : ∀ e ∈ bs.flatten ++ cur, e.1 < key := fun e he =>
      (List.pairwise_append.mp hsorted).2.2 e he (key, value) (List.mem_cons_self ..)
    obtain ⟨w₁, hwrite, hat⟩ := h.write value hkey
    have hsorted' : (bs.flatten ++ (cur ++ [(key, value)]) ++ entries).Pairwise
        fun a b => a.1 < b.1 := by simpa using hsorted
    rw [cutBlocks]
    split at hat
    · next hfull =>
      obtain ⟨w', bs', cur', hall, hat', hcut⟩ := ih w₁ _ [] hat (by simpa using hsorted')
      refine ⟨w', bs', cur', ?_, hat', ?_⟩
      · rw [Writer.writeAll, List.foldlM_cons, hwrite]
        exact hall
      · rw [hcut, if_pos hfull, List.append_assoc]
        rfl
    · next hfull =>
      obtain ⟨w', bs', cur', hall, hat', hcut⟩ := ih w₁ _ _ hat hsorted'
      refine ⟨w', bs', cur', ?_, hat', ?_⟩
      · rw [Writer.writeAll, List.foldlM_cons, hwrite]
        exact hall
      · rw [hcut, if_neg hfull]

/-- **The table.** For increasing keys the writer writes the blocks the entries are cut
    into, and an index that keeps them apart. -/
theorem writeAll_finalize (hsorted : entries.Pairwise fun a b => a.1 < b.1) :
    ∃ w index, (Writer.new V).writeAll entries = some w ∧
      w.finalize = ((cutBlocks [] entries).flatMap encodeBlock ++ toLE 4 0, index,
        entries.length) ∧
      Indexed (cutBlocks [] entries) index := by
  have hnew : (Writer.new V).At [] [] :=
    ⟨rfl, rfl, rfl, rfl, rfl, rfl, .nil, fun _ m hm => (by cases hm), fun m hm => (by cases hm)⟩
  obtain ⟨w, bs, cur, hall, h, hcut⟩ :=
    Writer.At.writeAll entries (Writer.new V) [] [] hnew (by simpa using hsorted)
  rw [List.nil_append] at hcut
  have hflat := flatten_cutBlocks entries []
  rw [List.nil_append] at hflat
  have hcount : w.numTerms = entries.length := by
    rw [h.numTerms, ← hflat, ← hcut]
    cases cur <;> simp
  have hdelta : w.deltaWriter = ⟨encodeKeys [] cur, bs.flatMap encodeBlock, cur.map Prod.snd⟩ := by
    rw [← h.block, ← h.written, ← h.values]
  rw [← hcut]
  cases cur with
  | nil =>
    -- nothing is left to flush
    refine ⟨w, w.index, hall, ?_, ?_⟩
    · simp [Writer.finalize, hdelta, encodeKeys, DeltaWriter.flushBlock, Writer.closeBlock, hcount]
    · simpa using h.indexed
  | cons e cur =>
    have hcur : (e :: cur).Pairwise fun a b => a.1 < b.1 := by
      rw [← hflat, ← hcut] at hsorted
      simp only [List.isEmpty_cons, Bool.false_eq_true, ↓reduceIte, List.flatten_append,
        List.flatten_cons, List.flatten_nil, List.append_nil] at hsorted
      exact (List.pairwise_append.mp hsorted).2.1
    have hmax : ∀ e' ∈ e :: cur, e'.1 ≤ w.previousKey := by
      rw [h.previousKey]
      exact le_lastKey _ [] hcur
    refine ⟨w, _, hall, ?_, @Indexed.snoc _ _ _ _ _ _ w.firstOrdinalOfTheBlock h.indexed
      (List.cons_ne_nil e cur) hmax h.separated⟩
    simp only [Writer.finalize, hdelta, flushBlock_eq bs (List.cons_ne_nil e cur),
      Writer.closeBlock, hcount, addBlock, List.isEmpty_cons, Bool.false_eq_true, ↓reduceIte]

end TeaclaveCrates.Tantivy
