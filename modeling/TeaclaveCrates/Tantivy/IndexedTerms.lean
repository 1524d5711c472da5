import TeaclaveCrates.Tantivy.JsonTermWriter

namespace TeaclaveCrates.Tantivy.Indexing

open Lib

/-!
# How long the indexed terms are

The keys the indexer subscribes to, by their lengths.

* `keyLens_indexText` — the keys of a text: what was in the buffer, and a token;
* `leaves`, `valueSizes` — the values of a JSON object with their paths, and the bytes of each;
* `indexJsonValue_spec` — the keys of a JSON value: the metadata, the path, a type code and the
  bytes of the value.

The hash map keeps the length of a key in 16 bits. A token is dropped where it does not fit them
with the metadata, a path is not looked at.
-/

/-- The lengths of the keys. -/
def keyLens (subscriptions : List Subscription) : List Nat :=
  subscriptions.map fun s => s.key.length

@[simp] theorem keyLens_append (xs ys : List Subscription) :
    keyLens (xs ++ ys) = keyLens xs ++ keyLens ys := List.map_append

/-! ### Texts -/

/-- The lengths of the tokens that are not dropped. -/
def tokenSizes (tokens : List Token) : List Nat :=
  (tokens.map fun token => token.text.length).filter (· ≤ MAX_TOKEN_LEN)

variable {term : TermBuffer}

variable {n : Nat}

theorem length_truncate (h : TERM_METADATA_LENGTH + n ≤ term.bytes.length) :
    (term.truncateValueBytes n).bytes.length = TERM_METADATA_LENGTH + n := by
  rw [TermBuffer.truncateValueBytes, List.length_take]
  omega

theorem lenBytes_eq (h : term.bytes.length = TERM_METADATA_LENGTH + n) :
    term.lenBytes = n := by
  rw [TermBuffer.lenBytes, h, Nat.add_sub_cancel_left]

theorem indexToken_foldl (position : IndexingPosition) (tokens : List Token) (st : TextIndexing)
    (h : TERM_METADATA_LENGTH + n ≤ st.termBuffer.bytes.length) :
    TERM_METADATA_LENGTH + n ≤ (tokens.foldl (indexToken n position) st).termBuffer.bytes.length ∧
      keyLens (tokens.foldl (indexToken n position) st).subscriptions =
        keyLens st.subscriptions ++
          (tokenSizes tokens).map (TERM_METADATA_LENGTH + n + ·) := by
  induction tokens generalizing st with
  | nil => exact ⟨h, by simp [tokenSizes]⟩
  | cons token tokens ih =>
    rw [List.foldl_cons]
    by_cases hmax : MAX_TOKEN_LEN < token.text.length
    · -- the token is dropped
      have hskip : indexToken n position st token = st := if_pos hmax
      have hsizes : tokenSizes (token :: tokens) = tokenSizes tokens := by
        simp [tokenSizes, hmax]
      rw [hskip, hsizes]
      exact ih st h
    · have hsizes : tokenSizes (token :: tokens) = token.text.length :: tokenSizes tokens := by
        simp [tokenSizes, Nat.le_of_not_lt hmax]
      have hlen : (indexToken n position st token).termBuffer.bytes.length =
          TERM_METADATA_LENGTH + n + token.text.length := by
        rw [indexToken, if_neg hmax]
        show ((st.termBuffer.truncateValueBytes n).bytes ++ token.text).length = _
        rw [List.length_append, length_truncate h]
      have hkeys : keyLens (indexToken n position st token).subscriptions =
          keyLens st.subscriptions ++ [TERM_METADATA_LENGTH + n + token.text.length] := by
        rw [← hlen, indexToken, if_neg hmax]
        simp [keyLens]
      obtain ⟨hle, hrest⟩ := ih (indexToken n position st token) (by omega)
      refine ⟨hle, ?_⟩
      simp [hrest, hkeys, hsizes]

/-- The keys of a text; the buffer is left as it was. -/
theorem keyLens_indexText (h : term.bytes.length = TERM_METADATA_LENGTH + n) (tokens : List Token)
    (position : IndexingPosition) :
    (indexText tokens term position).1.bytes.length = TERM_METADATA_LENGTH + n ∧
      keyLens (indexText tokens term position).2.2 =
        (tokenSizes tokens).map (TERM_METADATA_LENGTH + n + ·) := by
  have hlen := lenBytes_eq h
  obtain ⟨hle, hkeys⟩ := indexToken_foldl position tokens
    ⟨term, 0, position.endPosition, []⟩ (n := n) (by rw [h])
  constructor
  · rw [indexText]
    simp only [hlen]
    exact length_truncate hle
  · rw [indexText]
    simp only [hlen]
    rw [hkeys]
    rfl

theorem length_withTypeAndField (typ : ValueType) (field : UInt32) :
    (TermBuffer.withTypeAndField typ field).bytes.length = TERM_METADATA_LENGTH := by
  simp [TermBuffer.withTypeAndField, TERM_METADATA_LENGTH]

/-- The keys of a text field fit 16 bits. -/
theorem indexTextValues_short (h : term.bytes.length = TERM_METADATA_LENGTH)
    (position : IndexingPosition) (values : List (List Token)) :
    ∀ s ∈ indexTextValues term position values, s.key.length ≤ 65535 := by
  induction values generalizing term position with
  | nil => simp [indexTextValues]
  | cons tokens values ih =>
    obtain ⟨hlen, hkeys⟩ := keyLens_indexText (n := 0) h tokens position
    intro s hs
    rcases List.mem_append.mp hs with hs | hs
    · have hmem : s.key.length ∈ keyLens (indexText tokens term position).2.2 :=
        List.mem_map.mpr ⟨s, hs, rfl⟩
      rw [hkeys] at hmem
      obtain ⟨size, hsize, heq⟩ := List.mem_map.mp hmem
      have hmax := of_decide_eq_true (List.mem_filter.mp hsize).2
      have hmeta : TERM_METADATA_LENGTH = 5 := rfl
      have hM : MAX_TOKEN_LEN = 65530 := rfl
      omega
    · exact ih hlen _ s hs

/-! ### JSON -/

variable (tokenStream : Bytes → List Token) (parseRfc3339 : Bytes → Option Int64)
  (murmurhash2 : Bytes → UInt32)

mutual

/-- The values that are no containers, each with the segments that lead to it. -/
def leaves (path : List Bytes) : Value → List (List Bytes × Value)
  | .null => [(path, .null)]
  | .bool val => [(path, .bool val)]
  | .number number => [(path, .number number)]
  | .string text => [(path, .string text)]
  | .array values => leavesArray path values
  | .object members => leavesObject path members

def leavesArray (path : List Bytes) : List Value → List (List Bytes × Value)
  | [] => []
  | value :: values => leaves path value ++ leavesArray path values

def leavesObject (path : List Bytes) : List (Bytes × Value) → List (List Bytes × Value)
  | [] => []
  | (segment, value) :: members =>
    leaves (path ++ [segment]) value ++ leavesObject path members

end

/-- The bytes of the terms of a leaf: a number or a date has 8, a text those of its tokens. -/
def valueSizes : Value → List Nat
  | .bool _ => [8]
  | .number _ => [8]
  | .string text =>
    match parseRfc3339 text with
    | none => tokenSizes (tokenStream text)
    | some _ => [8]
  | _ => []

/-- The bytes of a path: a segment and the byte behind it. -/
def pathLen (path : List Bytes) : Nat := (path.map fun segment => segment.length + 1).sum

@[simp] theorem pathLen_concat (path : List Bytes) (segment : Bytes) :
    pathLen (path ++ [segment]) = pathLen path + (segment.length + 1) := by
  simp [pathLen]

theorem pathLen_pos {path : List Bytes} (h : path ≠ []) : 0 < pathLen path := by
  cases path with
  | nil => exact absurd rfl h
  | cons segment path =>
    simp only [pathLen, List.map_cons, List.sum_cons]
    omega

/-- The metadata, the path, a type code and the bytes of the value. -/
def termLens (leaf : List Bytes × Value) : List Nat :=
  (valueSizes tokenStream parseRfc3339 leaf.2).map
    (TERM_METADATA_LENGTH + pathLen leaf.1 + 1 + ·)

/-- The stack of a writer that is at a path. -/
inductive Opens : List Nat → List Bytes → Prop
  | root : Opens [0] []
  | push {stack : List Nat} {path : List Bytes} (h : Opens stack path) (segment : Bytes) :
      Opens (pathLen (path ++ [segment]) :: stack) (path ++ [segment])

theorem Opens.head {stack : List Nat} {path : List Bytes} (h : Opens stack path) :
    stack.head? = some (pathLen path) ∧ stack.length = path.length + 1 := by
  induction h with
  | root => exact ⟨rfl, rfl⟩
  | push _ segment ih => exact ⟨rfl, by simp [ih.2]⟩

/-- The writer is at the path, with the path in its buffer. -/
structure At (writer : JsonTermWriter) (stack : List Nat) (path : List Bytes) : Prop where
  opens : Opens stack path
  stack : writer.pathStack = stack
  buffer : TERM_METADATA_LENGTH + pathLen path ≤ writer.termBuffer.bytes.length

variable {writer : JsonTermWriter} {stack : List Nat} {path : List Bytes}

theorem At.trim (h : At writer stack path) : ∃ writer',
    writer.trimToEndOfPath = some writer' ∧ At writer' stack path ∧
      writer'.termBuffer.bytes.length = TERM_METADATA_LENGTH + pathLen path := by
  have hlen := length_truncate h.buffer
  refine ⟨{ writer with termBuffer := writer.termBuffer.truncateValueBytes (pathLen path) }, ?_,
    ⟨h.opens, h.stack, hlen.ge⟩, hlen⟩
  simp [JsonTermWriter.trimToEndOfPath, h.stack, h.opens.head.1]

theorem setLast_spec {term : TermBuffer} {n : Nat} (byte : UInt8)
    (h : term.bytes.length = TERM_METADATA_LENGTH + n) (hn : 0 < n) :
    ∃ term', term.setLast byte = some term' ∧ term'.bytes.length = term.bytes.length := by
  have hpos : 0 < term.lenBytes := by rwa [lenBytes_eq h]
  exact ⟨_, if_pos hpos, List.length_set⟩

theorem At.closePath (h : At writer stack path) (hpath : path ≠ []) (typ : ValueType) :
    ∃ writer', writer.closePathAndSetType typ = some writer' ∧ At writer' stack path ∧
      writer'.termBuffer.bytes.length = TERM_METADATA_LENGTH + (pathLen path + 1) := by
  obtain ⟨writer₁, htrim, h₁, hlen₁⟩ := h.trim
  obtain ⟨buffer, hset, hlen⟩ := setLast_spec JSON_END_OF_PATH hlen₁ (pathLen_pos hpath)
  have hlen' : (buffer.appendBytes [toCode typ]).bytes.length =
      TERM_METADATA_LENGTH + (pathLen path + 1) := by
    rw [TermBuffer.appendBytes, List.length_append, hlen, hlen₁]
    rfl
  refine ⟨{ writer₁ with termBuffer := buffer.appendBytes [toCode typ] }, ?_,
    ⟨h.opens, h₁.stack, ?_⟩, hlen'⟩
  · simp [JsonTermWriter.closePathAndSetType, htrim, hset]
  · rw [hlen']
    omega

theorem At.push (h : At writer stack path) (segment : Bytes) : ∃ writer',
    writer.pushPathSegment segment = some writer' ∧
      At writer' (pathLen (path ++ [segment]) :: stack) (path ++ [segment]) := by
  obtain ⟨writer₁, htrim, h₁, hlen₁⟩ := h.trim
  -- the separator of the segment before is there, unless this is the first one
  have hsep : ∃ buffer, (if 1 < writer₁.pathStack.length then
      writer₁.termBuffer.setLast JSON_PATH_SEGMENT_SEP else some writer₁.termBuffer) =
        some buffer ∧ buffer.bytes.length = writer₁.termBuffer.bytes.length := by
    split
    · rename_i hlt
      rw [h₁.stack, h.opens.head.2] at hlt
      exact setLast_spec _ hlen₁ (pathLen_pos (List.ne_nil_of_length_pos (by omega)))
    · exact ⟨_, rfl, rfl⟩
  obtain ⟨buffer, hbuffer, hlen⟩ := hsep
  set buffer₂ := (if writer₁.expandDotsEnabled && segment.contains 46 then
      buffer.appendBytes
        (segment.map fun byte => if byte = 46 then JSON_PATH_SEGMENT_SEP else byte)
    else buffer.appendBytes segment).pushByte JSON_PATH_SEGMENT_SEP with hbuffer₂
  have hlen₂ : buffer₂.bytes.length = TERM_METADATA_LENGTH + pathLen (path ++ [segment]) := by
    rw [hbuffer₂, TermBuffer.pushByte, List.length_append, pathLen_concat]
    split <;> simp [TermBuffer.appendBytes, hlen, hlen₁] <;> omega
  refine ⟨{ writer₁ with
      termBuffer := buffer₂
      pathStack := buffer₂.lenBytes :: writer₁.pathStack }, ?_, ⟨.push h.opens segment, ?_, ?_⟩⟩
  · rw [JsonTermWriter.pushPathSegment]
    simp only [Option.bind_eq_bind, htrim, Option.bind_some, hbuffer]
    rfl
  · rw [lenBytes_eq hlen₂, h₁.stack]
  · rw [hlen₂]

theorem At.pop {segment : Bytes} (hopens : Opens stack path)
    (h : At writer (pathLen (path ++ [segment]) :: stack) (path ++ [segment])) : ∃ writer',
    writer.popPathSegment = some writer' ∧ At writer' stack path := by
  have hbuffer := h.buffer
  rw [pathLen_concat] at hbuffer
  have hat : At { writer with pathStack := writer.pathStack.tail } stack path :=
    ⟨hopens, by rw [h.stack]; rfl, le_trans (by omega) hbuffer⟩
  obtain ⟨writer', htrim, h', -⟩ := hat.trim
  exact ⟨writer', htrim, h'⟩

/-- What indexing a part of a value adds. -/
structure Adds (st st' : JsonIndexing) (stack : List Nat) (path : List Bytes) (lens : List Nat) :
    Prop where
  at' : At st'.writer stack path
  keys : keyLens st'.subscriptions = keyLens st.subscriptions ++ lens

variable {st : JsonIndexing}

theorem indexFastValue_spec (h : At st.writer stack path) (hpath : path ≠ []) (val : FastValue) :
    ∃ st', indexFastValue st val = some st' ∧
      Adds st st' stack path [TERM_METADATA_LENGTH + pathLen path + 1 + 8] := by
  obtain ⟨writer', hclose, h', hlen⟩ := h.closePath hpath val.toType
  have hlen' : (writer'.termBuffer.appendBytes
      (toBE 8 val.truncateDate.toU64.toNat)).bytes.length =
        TERM_METADATA_LENGTH + pathLen path + 1 + 8 := by
    rw [TermBuffer.appendBytes, List.length_append, hlen, length_toBE]
    omega
  refine ⟨_, by
    rw [indexFastValue, JsonTermWriter.setFastValue]
    simp only [Option.bind_eq_bind, hclose, Option.bind_some]
    rfl, ⟨h'.opens, h'.stack, ?_⟩, ?_⟩
  · rw [hlen']
    omega
  · rw [keyLens_append]
    show _ ++ [(writer'.termBuffer.appendBytes _).bytes.length] = _
    rw [hlen']

theorem indexString_spec (h : At st.writer stack path) (hpath : path ≠ []) (text : Bytes) :
    ∃ st', indexString tokenStream parseRfc3339 murmurhash2 st text = some st' ∧
      Adds st st' stack path (termLens tokenStream parseRfc3339 (path, .string text)) := by
  cases hdate : parseRfc3339 text with
  | none =>
    obtain ⟨writer', hclose, h', hlen⟩ := h.closePath hpath .str
    have htext := fun position =>
      keyLens_indexText hlen (tokenStream text) position
    refine ⟨_, by
      rw [indexString, hdate]
      simp only [Option.bind_eq_bind, hclose, Option.bind_some]
      rfl, ⟨h'.opens, h'.stack, ?_⟩, ?_⟩
    · rw [(htext _).1]
      omega
    · rw [keyLens_append, (htext _).2, termLens, valueSizes, hdate]
      rfl
  | some dt =>
    obtain ⟨st', hrun, hadds⟩ := indexFastValue_spec h hpath (.date dt)
    refine ⟨st', by rw [indexString, hdate]; exact hrun, hadds.at', ?_⟩
    simp [hadds.keys, termLens, valueSizes, hdate]

/-- The lengths of the terms of some leaves. -/
def allLens (ls : List (List Bytes × Value)) : List Nat :=
  ls.flatMap (termLens tokenStream parseRfc3339)

theorem Adds.trans {st st₁ st₂ : JsonIndexing} {stack₁ : List Nat} {path₁ : List Bytes}
    {lens₁ lens₂ : List Nat} (h₁ : Adds st st₁ stack₁ path₁ lens₁)
    (h₂ : Adds st₁ st₂ stack path lens₂) : Adds st st₂ stack path (lens₁ ++ lens₂) :=
  ⟨h₂.at', by rw [h₂.keys, h₁.keys, List.append_assoc]⟩

mutual

/-- The keys of a value are those of its leaves. -/
theorem indexJsonValue_spec {st : JsonIndexing} {stack : List Nat} {path : List Bytes}
    (h : At st.writer stack path) (hpath : path ≠ []) : (value : Value) →
    ∃ st', indexJsonValue tokenStream parseRfc3339 murmurhash2 st value = some st' ∧
      Adds st st' stack path (allLens tokenStream parseRfc3339 (leaves path value))
  | .null => ⟨st, by rw [indexJsonValue], h, by simp [leaves, allLens, termLens, valueSizes]⟩
  | .bool val => by
    obtain ⟨st', hrun, hadds⟩ := indexFastValue_spec h hpath (.bool val)
    refine ⟨st', by rw [indexJsonValue, hrun], ?_⟩
    simpa [leaves, allLens, termLens, valueSizes] using hadds
  | .number number => by
    obtain ⟨st', hrun, hadds⟩ := indexFastValue_spec h hpath number.fastValue
    refine ⟨st', by rw [indexJsonValue, hrun], ?_⟩
    simpa [leaves, allLens, termLens, valueSizes] using hadds
  | .string text => by
    obtain ⟨st', hrun, hadds⟩ :=
      indexString_spec tokenStream parseRfc3339 murmurhash2 h hpath text
    refine ⟨st', by rw [indexJsonValue, hrun], ?_⟩
    simpa [leaves, allLens] using hadds
  | .array values => by
    obtain ⟨st', hrun, hadds⟩ := indexJsonArray_spec h hpath values
    exact ⟨st', by rw [indexJsonValue, hrun], by rwa [leaves]⟩
  | .object members => by
    obtain ⟨st', hrun, hadds⟩ := indexJsonObject_spec h members
    exact ⟨st', by rw [indexJsonValue, hrun], by rwa [leaves]⟩

theorem indexJsonArray_spec {st : JsonIndexing} {stack : List Nat} {path : List Bytes}
    (h : At st.writer stack path) (hpath : path ≠ []) : (values : List Value) →
    ∃ st', indexJsonArray tokenStream parseRfc3339 murmurhash2 st values = some st' ∧
      Adds st st' stack path (allLens tokenStream parseRfc3339 (leavesArray path values))
  | [] => ⟨st, by rw [indexJsonArray], h, by simp [leavesArray, allLens]⟩
  | value :: values => by
    obtain ⟨st₁, hvalue, h₁⟩ := indexJsonValue_spec h hpath value
    obtain ⟨st', hrest, h'⟩ := indexJsonArray_spec h₁.at' hpath values
    refine ⟨st', ?_, ?_⟩
    · simp [indexJsonArray, hvalue, hrest]
    · rw [leavesArray, allLens, List.flatMap_append]
      exact h₁.trans h'

theorem indexJsonObject_spec {st : JsonIndexing} {stack : List Nat} {path : List Bytes}
    (h : At st.writer stack path) : (members : List (Bytes × Value)) →
    ∃ st', indexJsonObject tokenStream parseRfc3339 murmurhash2 st members = some st' ∧
      Adds st st' stack path (allLens tokenStream parseRfc3339 (leavesObject path members))
  | [] => ⟨st, by rw [indexJsonObject], h, by simp [leavesObject, allLens]⟩
  | (segment, value) :: members => by
    obtain ⟨writer₁, hpush, hat₁⟩ := h.push segment
    obtain ⟨st₂, hvalue, h₂⟩ := @indexJsonValue_spec { st with writer := writer₁ } _ _ hat₁
      (by simp) value
    obtain ⟨writer₃, hpop, hat₃⟩ := h₂.at'.pop h.opens
    obtain ⟨st', hrest, h'⟩ := @indexJsonObject_spec { st₂ with writer := writer₃ } _ _ hat₃
      members
    refine ⟨st', ?_, h'.at', ?_⟩
    · simp [indexJsonObject, hpush, hvalue, hpop, hrest]
    · rw [leavesObject, allLens, List.flatMap_append, h'.keys]
      rw [h₂.keys, List.append_assoc]
      rfl

end

/-- The objects in front of the first error. -/
def objects {ε : Type} : List (Except ε (List (Bytes × Value))) → List (List (Bytes × Value))
  | [] => []
  | .error _ :: _ => []
  | .ok members :: values => members :: objects values

theorem indexJsonObjects_spec {ε : Type} {st : JsonIndexing} {stack : List Nat}
    (h : At st.writer stack []) (values : List (Except ε (List (Bytes × Value)))) :
    ∃ st' res, indexJsonObjects tokenStream parseRfc3339 murmurhash2 st values = some (st', res) ∧
      Adds st st' stack []
        (allLens tokenStream parseRfc3339 ((objects values).flatMap (leavesObject []))) := by
  induction values generalizing st with
  | nil => exact ⟨st, .ok (), rfl, h, by simp [objects, allLens]⟩
  | cons value values ih =>
    cases value with
    | error e => exact ⟨st, .error e, rfl, h, by simp [objects, allLens]⟩
    | ok members =>
      obtain ⟨st₁, hmembers, h₁⟩ :=
        indexJsonObject_spec tokenStream parseRfc3339 murmurhash2 h members
      obtain ⟨st', res, hrest, h'⟩ := ih h₁.at'
      refine ⟨st', res, ?_, ?_⟩
      · simp [indexJsonObjects, hmembers, hrest]
      · rw [objects, List.flatMap_cons, allLens, List.flatMap_append]
        exact h₁.trans h'

theorem at_wrap {term : TermBuffer} (h : term.bytes.length = TERM_METADATA_LENGTH)
    (expandDotsEnabled : Bool) : At (JsonTermWriter.wrap term expandDotsEnabled) [0] [] := by
  refine ⟨.root, rfl, ?_⟩
  show TERM_METADATA_LENGTH + 0 ≤ ((term.truncateValueBytes 0).bytes.set 4 _).length
  rw [List.length_set, length_truncate (n := 0) h.ge]

/-- The keys of JSON values, all of them. -/
theorem keyLens_indexJsonValues {ε : Type} {term : TermBuffer}
    (h : term.bytes.length = TERM_METADATA_LENGTH) (expandDotsEnabled : Bool)
    (values : List (Except ε (List (Bytes × Value)))) :
    ∃ subscriptions res, indexJsonValues tokenStream parseRfc3339 murmurhash2 values
        expandDotsEnabled term = some (subscriptions, res) ∧
      keyLens subscriptions =
        allLens tokenStream parseRfc3339 ((objects values).flatMap (leavesObject [])) := by
  obtain ⟨st', res, hrun, hadds⟩ := @indexJsonObjects_spec tokenStream parseRfc3339 murmurhash2 ε
    ⟨JsonTermWriter.wrap term expandDotsEnabled, fun _ => none,
      []⟩ _ (at_wrap h expandDotsEnabled) values
  refine ⟨st'.subscriptions, res, ?_, hadds.keys⟩
  simp [indexJsonValues, hrun]

/-- Every key fits the 16 bits of its length in the hash map. -/
def ShortKeys (subscriptions : List Subscription) : Prop :=
  ∀ s ∈ subscriptions, s.key.length ≤ 65535

theorem shortKeys_iff (subscriptions : List Subscription) :
    ShortKeys subscriptions ↔ ∀ len ∈ keyLens subscriptions, len ≤ 65535 := by
  unfold ShortKeys keyLens
  rw [List.forall_mem_map]

/-- **Which keys fit.** The keys of a text field always do; those of JSON values exactly if no
leaf has a path, and a token or 8 bytes behind it, of more than 65529 bytes. -/
theorem indexed_keys_short_iff {ε : Type} (typ : ValueType) (field : UInt32)
    (texts : List (List Token)) (expandDotsEnabled : Bool)
    (values : List (Except ε (List (Bytes × Value)))) :
    ∃ subscriptions res, indexJsonValues tokenStream parseRfc3339 murmurhash2 values
        expandDotsEnabled (TermBuffer.withTypeAndField .json field) =
          some (subscriptions, res) ∧
      ((ShortKeys (indexTextValues (TermBuffer.withTypeAndField typ field)
          IndexingPosition.default texts) ∧ ShortKeys subscriptions) ↔
        ∀ leaf ∈ (objects values).flatMap (leavesObject []),
          ∀ size ∈ valueSizes tokenStream parseRfc3339 leaf.2,
            pathLen leaf.1 + size ≤ 65529) := by
  obtain ⟨subscriptions, res, hrun, hkeys⟩ := keyLens_indexJsonValues tokenStream parseRfc3339
    murmurhash2 (length_withTypeAndField .json field) expandDotsEnabled values
  have htext := indexTextValues_short (length_withTypeAndField typ field)
    IndexingPosition.default texts
  have hmeta : TERM_METADATA_LENGTH = 5 := rfl
  refine ⟨subscriptions, res, hrun, ?_⟩
  rw [shortKeys_iff subscriptions, hkeys]
  constructor
  · rintro ⟨-, hall⟩ leaf hleaf size hsize
    have := hall _ (List.mem_flatMap.mpr ⟨leaf, hleaf, List.mem_map.mpr ⟨size, hsize, rfl⟩⟩)
    omega
  · intro hall
    refine ⟨htext, ?_⟩
    intro len hlen
    obtain ⟨leaf, hleaf, hlen⟩ := List.mem_flatMap.mp hlen
    obtain ⟨size, hsize, rfl⟩ := List.mem_map.mp hlen
    have := hall leaf hleaf size hsize
    omega

/-- A JSON object with one key of 65536 bytes, and the text of one token. -/
def longPath : List (Except Unit (List (Bytes × Value))) :=
  [.ok [(List.replicate 65536 107, .string [97])]]

/-- The path of a JSON value is not looked at when a token is checked. -/
theorem indexed_keys_long_path :
    ¬ ∀ (tokenStream : Bytes → List Token) (parseRfc3339 : Bytes → Option Int64)
      (murmurhash2 : Bytes → UInt32) (values : List (Except Unit (List (Bytes × Value)))),
      ∃ subscriptions res, indexJsonValues tokenStream parseRfc3339 murmurhash2 values false
          (TermBuffer.withTypeAndField .json 0) = some (subscriptions, res) ∧
        ShortKeys subscriptions := by
  intro hall
  obtain ⟨subscriptions, res, hrun, hshort⟩ :=
    hall (fun text => [⟨0, text, 1⟩]) (fun _ => none) (fun _ => 0) longPath
  obtain ⟨subscriptions', res', hrun', hkeys⟩ := keyLens_indexJsonValues
    (fun text => [⟨0, text, 1⟩]) (fun _ => none) (fun _ => 0)
    (length_withTypeAndField .json 0) false longPath
  rw [hrun] at hrun'
  cases hrun'
  rw [shortKeys_iff, hkeys] at hshort
  have hlen : ∀ segment : Bytes, allLens (fun text => [⟨0, text, 1⟩]) (fun _ => none)
      (leavesObject [] [(segment, .string [97])]) = [5 + (segment.length + 1) + 1 + 1] := by
    intro segment
    simp [leavesObject, leaves, allLens, termLens, valueSizes, tokenSizes, pathLen, MAX_TOKEN_LEN,
      TERM_METADATA_LENGTH]
  have hmem : 5 + (65536 + 1) + 1 + 1 ∈ allLens (fun text => [⟨0, text, 1⟩]) (fun _ => none)
      ((objects longPath).flatMap (leavesObject [])) := by
    rw [longPath, objects, objects, List.flatMap_singleton, hlen, List.length_replicate]
    exact List.mem_singleton_self _
  exact absurd (hshort _ hmem) (by decide)

end TeaclaveCrates.Tantivy.Indexing
