import TeaclaveCrates.Tantivy.SSTable

namespace TeaclaveCrates.Tantivy

open TeaclaveCrates.Lib

/-!
# tantivy — the term dictionary over a sorted string table

`termdict/sstable_termdict`: term infos as values, the builder, the dictionary and
its streams.

* `TermInfo` — its `ValueCodec` stores the lengths of the ranges and where the first
  ones start;
* `TermDictionary.build` / `TermDictionary.open` — the table, its index and a footer;
  the CBOR codec of the index is a parameter;
* `get`, `termOrd`, `ordToTerm`, `termInfoFromOrd` — the lookups;
* `TermStreamer` — the stream of a range of terms, under an automaton.

A `while` loop over the terms takes fuel: a term takes at least a byte, so the bytes
of the table are enough.
-/

/-! ### Term infos -/

/-- `Range<usize>` of file positions, on a 64-bit machine. -/
structure FileRange where
  start : UInt64
  stop : UInt64
deriving DecidableEq, Repr

/-- `Range::len`. -/
def FileRange.len (r : FileRange) : UInt64 := if r.start < r.stop then r.stop - r.start else 0

/-- `TermInfo`. -/
structure TermInfo where
  docFreq : UInt32
  postingsRange : FileRange
  positionsRange : FileRange
deriving DecidableEq, Repr

/-- `TermInfo::default`. -/
def TermInfo.default : TermInfo := ⟨0, ⟨0, 0⟩, ⟨0, 0⟩⟩

/-- What `TermInfoWriter::write_block` writes for one term info. -/
def TermInfo.serialize (termInfo : TermInfo) : Bytes :=
  serializeVInt termInfo.docFreq.toNat ++ serializeVInt termInfo.postingsRange.len.toNat ++
    serializeVInt termInfo.positionsRange.len.toNat

/-- `TermInfoWriter::write_block`. -/
def TermInfoWriter.writeBlock : List TermInfo → Bytes
  | [] => serializeVInt 0
  | termInfo :: termInfos =>
    serializeVInt (termInfo :: termInfos).length ++
      serializeVInt termInfo.postingsRange.start.toNat ++
      serializeVInt termInfo.positionsRange.start.toNat ++
      (termInfo :: termInfos).flatMap TermInfo.serialize

/-- The loop of `TermInfoReader::read`. -/
def TermInfoReader.readLoop : Nat → UInt64 → UInt64 → BlockReader →
    Io (List TermInfo × BlockReader)
  | 0, _, _, r => return ([], r)
  | numEls + 1, postingsStart, positionsStart, r => do
    let (docFreq, r) ← r.deserializeVInt
    let (postingsNumBytes, r) ← r.deserializeVInt
    let (positionsNumBytes, r) ← r.deserializeVInt
    let postingsEnd := postingsStart + UInt64.ofNat postingsNumBytes
    let positionsEnd := positionsStart + UInt64.ofNat positionsNumBytes
    let termInfo : TermInfo :=
      ⟨UInt32.ofNat docFreq, ⟨postingsStart, postingsEnd⟩, ⟨positionsStart, positionsEnd⟩⟩
    let (termInfos, r) ← readLoop numEls postingsEnd positionsEnd r
    return (termInfo :: termInfos, r)

/-- `TermInfoReader::read`. -/
def TermInfoReader.read (r : BlockReader) : Io (List TermInfo × BlockReader) := do
  let (numEls, r) ← r.deserializeVInt
  let (postingsStart, r) ← r.deserializeVInt
  let (positionsStart, r) ← r.deserializeVInt
  readLoop numEls (UInt64.ofNat postingsStart) (UInt64.ofNat positionsStart) r

instance : ValueCodec TermInfo where
  writeBlock := TermInfoWriter.writeBlock
  read := TermInfoReader.read

/-! ### The dictionary -/

/-- The codec of the block index (`ciborium`). -/
structure IndexCodec where
  serialize : SSTableIndex → Bytes
  load : Bytes → Option SSTableIndex

/-- `TermDictionary`. -/
structure TermDictionary where
  sstableSlice : Bytes
  sstableIndex : SSTableIndex
  numTerms : Nat
deriving DecidableEq, Repr

namespace TermDictionary

/-- The file a `TermDictionaryBuilder` writes: `insert` for each of the entries, and
    `finish`. -/
def build (codec : IndexCodec) (entries : List (Bytes × TermInfo)) : Option Bytes := do
  let w ← (Writer.new TermInfo).writeAll entries
  let (sstable, index, numTerms) := w.finalize
  return sstable ++ codec.serialize index ++ toLE 8 sstable.length ++ toLE 8 numTerms

/-- `TermDictionary::open`. -/
def «open» (codec : IndexCodec) (file : Bytes) : Io TermDictionary :=
  if file.length < 16 then
    Io.panic
  else
    let main := file.take (file.length - 16)
    let footer := file.drop (file.length - 16)
    let indexOffset := ofLE (footer.take 8)
    let numTerms := ofLE (footer.drop 8)
    if main.length < indexOffset then
      Io.panic
    else
      match codec.load (main.drop indexOffset) with
      | some index => pure ⟨main.take indexOffset, index, numTerms⟩
      | none => throw (.dataCorruption "SSTable index is corrupted")

/-- `sstable_reader`. -/
def sstableReader (dict : TermDictionary) : Reader TermInfo := .new TermInfo dict.sstableSlice

/-- `sstable_reader_block`. -/
def sstableReaderBlock (dict : TermDictionary) (addr : BlockAddr) : Io (Reader TermInfo) := do
  let data ← Io.expect (slice? dict.sstableSlice addr.byteRange.start addr.byteRange.stop)
  return .new TermInfo data

/-- The loop of `term_ord`. -/
def termOrdLoop (key : Bytes) : Nat → Nat → Reader TermInfo → Io (Option Nat)
  | 0, _, _ => Io.panic
  | fuel + 1, termOrd, r => do
    match ← r.advanceOrFalse with
    | (false, _) => return none
    | (true, r) => if r.key = key then return some termOrd else termOrdLoop key fuel (termOrd + 1) r

/-- `term_ord`. -/
def termOrd (dict : TermDictionary) (key : Bytes) : Io (Option Nat) :=
  termOrdLoop key (dict.sstableSlice.length + 1) 0 dict.sstableReader

/-- `for _ in 0..n`, leaving where the terms end. -/
def advanceBy : Nat → Reader TermInfo → Io (Option (Reader TermInfo))
  | 0, r => return some r
  | n + 1, r => do
    match ← r.advanceOrFalse with
    | (false, _) => return none
    | (true, r) => advanceBy n r

/-- `ord_to_term`: whether there is such a term, and the buffer. -/
def ordToTerm (dict : TermDictionary) (ord : Nat) : Io (Bool × Bytes) := do
  match ← advanceBy (ord + 1) dict.sstableReader with
  | none => return (false, [])
  | some r => return (true, r.key)

/-- `term_info_from_ord`. -/
def termInfoFromOrd (dict : TermDictionary) (ord : Nat) : Io TermInfo := do
  match ← advanceBy (ord + 1) dict.sstableReader with
  | none => return TermInfo.default
  | some r => r.value

/-- The loop of `get`. -/
def getLoop (key : Bytes) : Nat → Reader TermInfo → Io (Option TermInfo)
  | 0, _ => Io.panic
  | fuel + 1, r => do
    match ← r.advanceOrFalse with
    | (false, _) => return none
    | (true, r) => if r.key = key then return some (← r.value) else getLoop key fuel r

/-- `get`. -/
def get (dict : TermDictionary) (key : Bytes) : Io (Option TermInfo) := do
  match dict.sstableIndex.search key with
  | some addr => getLoop key (dict.sstableSlice.length + 1) (← dict.sstableReaderBlock addr)
  | none => return none

end TermDictionary

/-! ### Streams -/

/-- `tantivy_fst::Automaton`, as far as the streamer uses it. -/
structure Automaton (σ : Type) where
  start : σ
  isMatch : σ → Bool
  accept : σ → UInt8 → σ

/-- `AlwaysMatch`. -/
def alwaysMatch : Automaton Unit := ⟨(), fun _ => true, fun _ _ => ()⟩

/-- `ops::Bound`. -/
inductive Bound
  | unbounded
  | included (key : Bytes)
  | excluded (key : Bytes)
deriving DecidableEq, Repr

/-- Whether `key` meets a lower bound. -/
def Bound.matchLower (key : Bytes) : Bound → Bool
  | .unbounded => true
  | .included bound => bound ≤ key
  | .excluded bound => bound < key

/-- Whether `key` meets an upper bound. -/
def Bound.matchUpper (key : Bytes) : Bound → Bool
  | .unbounded => true
  | .included bound => key ≤ bound
  | .excluded bound => key < bound

/-- `TermStreamer`. -/
structure TermStreamer (σ : Type) where
  automaton : Automaton σ
  states : List σ
  deltaReader : DeltaReader TermInfo
  key : Bytes
  termOrd : Option Nat
  lowerBound : Bound
  upperBound : Bound

variable {σ : Type}

/-- `TermStreamerBuilder::into_stream`, with the bounds its builder has come to. -/
def TermDictionary.streamer (dict : TermDictionary) (automaton : Automaton σ)
    (lower upper : Bound) : TermStreamer σ :=
  ⟨automaton, [automaton.start], .new TermInfo dict.sstableSlice, [], none, lower, upper⟩

namespace TermStreamer

/-- `advance().unwrap()` of the delta reader: an error is a panic. -/
def advanceDelta (d : DeltaReader TermInfo) : Io (Bool × DeltaReader TermInfo) :=
  ExceptT.mk (match d.advance.run with
    | some (.ok next) => some (.ok next)
    | _ => none)

/-- The states after each byte of `suffix`, from `state` on. -/
def acceptAll (automaton : Automaton σ) (state : σ) : Bytes → List σ
  | [] => []
  | b :: bs => automaton.accept state b :: acceptAll automaton (automaton.accept state b) bs

/-- `advance`. -/
def advance : Nat → TermStreamer σ → Io (Bool × TermStreamer σ)
  | 0, _ => Io.panic
  | fuel + 1, s => do
    match ← advanceDelta s.deltaReader with
    | (false, d) => return (false, { s with deltaReader := d })
    | (true, d) =>
      let suffix ← d.suffix
      let states := s.states.take (d.commonPrefixLen + 1)
      let state ← Io.expect states.getLast?
      let accepted := acceptAll s.automaton state suffix
      let s := { s with
        deltaReader := d
        termOrd := some (match s.termOrd with | some ord => ord + 1 | none => 0)
        states := states ++ accepted
        key := s.key.take d.commonPrefixLen ++ suffix }
      if !s.lowerBound.matchLower s.key then
        advance fuel s
      else
        -- later keys are greater: the lower bound has been met once and for all
        let s := { s with lowerBound := .unbounded }
        if !s.upperBound.matchUpper s.key then
          return (false, s)
        else if s.automaton.isMatch ((state :: accepted).getLast (List.cons_ne_nil _ _)) then
          return (true, s)
        else
          advance fuel s

/-- `next` until it returns `None`: ordinal, key and value of each term. -/
def collect (fuel : Nat) : Nat → TermStreamer σ → Io (List (Nat × Bytes × TermInfo))
  | 0, _ => Io.panic
  | rounds + 1, s => do
    match ← s.advance fuel with
    | (false, _) => return []
    | (true, s) =>
      let value ← s.deltaReader.value
      let rest ← collect fuel rounds s
      return (s.termOrd.getD 0, s.key, value) :: rest

end TermStreamer

/-- All that a stream yields. -/
def TermDictionary.streamAll (dict : TermDictionary) (automaton : Automaton σ)
    (lower upper : Bound) : Io (List (Nat × Bytes × TermInfo)) :=
  (dict.streamer automaton lower upper).collect (dict.sstableSlice.length + 1)
    (dict.sstableSlice.length + 1)

end TeaclaveCrates.Tantivy
