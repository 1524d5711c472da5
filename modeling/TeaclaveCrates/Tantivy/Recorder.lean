import TeaclaveCrates.Tantivy.Compression
import TeaclaveCrates.Tantivy.UnrolledLists
import TeaclaveCrates.Tantivy.VIntDecoding

namespace TeaclaveCrates.Tantivy

open Lib Common

/-!
# Recorders

What the indexer keeps of a term while it reads the documents: a list of variable-length numbers
in the arena, and the document at hand.

* `DocIdMapping` — the new ids of the documents when the index is sorted;
* `DocIdRecorder`, `TermFrequencyRecorder`, `TfAndPositionRecorder` — the three recorders;
* `Recorder` — the trait they implement, and `subscribe`, which calls it;
* `IndexingContext` — the recorders of all terms, over one arena.

The numbers are 32 bits wide and wrap around. A recorder that panics is `none`.
-/

/-! ### Numbers in the arena -/

/-- `write_u32_vint` of a list. -/
def ExpUnrolledLinkedList.writeU32Vint (eull : ExpUnrolledLinkedList) (arena : MemoryArena)
    (val : Nat) : Option (ExpUnrolledLinkedList × MemoryArena) :=
  eull.extendFromSlice arena (serializeVintU32 val)

theorem length_readU32Vint {data rest : Bytes} {val : Nat}
    (h : readU32Vint data = .ok (val, rest)) (hdata : data ≠ []) : rest.length < data.length := by
  have hpos := List.length_pos_iff.mpr hdata
  rw [readU32Vint, readU32VintNoAdvance_eq] at h
  split at h
  · cases h
  · rename_i heq
    cases h
    split at heq
    · split at heq
      · cases heq
        rw [List.length_drop]
        omega
      · cases heq
    · cases heq

/-- `VInt32Reader`, run to its end. -/
def vint32Reader (data : Bytes) : Option (List Nat) :=
  if _hdata : data = [] then
    some []
  else
    match _h : readU32Vint data with
    | .error _ => none
    | .ok (val, rest) => (vint32Reader rest).map (val :: ·)
termination_by data.length
decreasing_by exact length_readU32Vint _h _hdata

/-! ### Document ids of a sorted index -/

/-- The old id of every new one, and the other way round. -/
structure DocIdMapping where
  newDocIdToOld : List Nat
  oldDocIdToNew : List Nat

namespace DocIdMapping

/-- `old_doc_id_to_new[new_doc_id_to_old[i]] = i`, from the new id `i` on. -/
def assign (oldDocIdToNew : List Nat) (i : Nat) : List Nat → Option (List Nat)
  | [] => some oldDocIdToNew
  | old :: newDocIdToOld =>
    if old < oldDocIdToNew.length then
      assign (oldDocIdToNew.set old (i % 2 ^ 32)) (i + 1) newDocIdToOld
    else
      none

/-- `from_new_id_to_old_id`. -/
def fromNewIdToOldId (newDocIdToOld : List Nat) : Option DocIdMapping := do
  let oldMaxDoc := (newDocIdToOld.max?.map fun n => (n + 1) % 2 ^ 32).getD 0
  let oldDocIdToNew ← assign (List.replicate oldMaxDoc 0) 0 newDocIdToOld
  some ⟨newDocIdToOld, oldDocIdToNew⟩

/-- `get_new_doc_id`. -/
def getNewDocId (map : DocIdMapping) (docId : Nat) : Option Nat := map.oldDocIdToNew[docId]?

end DocIdMapping

/-- A call of `FieldSerializer::write_doc`. -/
structure WriteDoc where
  docId : Nat
  termFreq : Nat
  positionDeltas : List Nat
  deriving DecidableEq

/-- The calls under the new ids, sorted by them. -/
def remap (map : DocIdMapping) (calls : List WriteDoc) : Option (List WriteDoc) := do
  let calls ← calls.mapM fun call => do
    let docId ← map.getNewDocId call.docId
    some { call with docId }
  some (calls.mergeSort fun a b => a.docId ≤ b.docId)

/-- The calls, under new ids if the index is sorted. -/
def remapWith (docIdMap : Option DocIdMapping) (calls : List WriteDoc) : Option (List WriteDoc) :=
  match docIdMap with
  | some map => remap map calls
  | none => some calls

/-! ### The recorders -/

/-- The trait; what it needs of the arena is passed along. -/
class Recorder (R : Type) where
  default : R
  currentDoc : R → Nat
  newDoc : R → Nat → MemoryArena → Option (R × MemoryArena)
  recordPosition : R → Nat → MemoryArena → Option (R × MemoryArena)
  closeDoc : R → MemoryArena → Option (R × MemoryArena)
  serialize : R → MemoryArena → Option DocIdMapping → Option (List WriteDoc)
  termDocFreq : R → Option Nat

/-- Only records the doc ids. -/
structure DocIdRecorder where
  stack : ExpUnrolledLinkedList
  currentDoc : Nat

namespace DocIdRecorder

/-- No document is current. -/
def default : DocIdRecorder := ⟨.new, 2 ^ 32 - 1⟩

/-- The id is written. -/
def newDoc (recorder : DocIdRecorder) (doc : Nat) (arena : MemoryArena) :
    Option (DocIdRecorder × MemoryArena) := do
  let (stack, arena) ← recorder.stack.writeU32Vint arena doc
  some (⟨stack, doc⟩, arena)

/-- The ids are read back, with no frequencies. -/
def serialize (recorder : DocIdRecorder) (arena : MemoryArena) (docIdMap : Option DocIdMapping) :
    Option (List WriteDoc) := do
  let buffer ← recorder.stack.readToEnd arena
  let docIds ← vint32Reader buffer
  remapWith docIdMap (docIds.map fun doc => ⟨doc, 0, []⟩)

instance : Recorder DocIdRecorder where
  default := default
  currentDoc := currentDoc
  newDoc := newDoc
  recordPosition recorder _ arena := some (recorder, arena)
  closeDoc recorder arena := some (recorder, arena)
  serialize := serialize
  termDocFreq _ := none

end DocIdRecorder

/-- Recorder encoding document ids, and term frequencies. -/
structure TermFrequencyRecorder where
  stack : ExpUnrolledLinkedList
  currentDoc : Nat
  currentTf : Nat
  termDocFreq : Nat

namespace TermFrequencyRecorder

/-- Document zero is current. -/
def default : TermFrequencyRecorder := ⟨.new, 0, 0, 0⟩

/-- The id is written, and the document counted. -/
def newDoc (recorder : TermFrequencyRecorder) (doc : Nat) (arena : MemoryArena) :
    Option (TermFrequencyRecorder × MemoryArena) := do
  let (stack, arena) ← recorder.stack.writeU32Vint arena doc
  let termDocFreq := (recorder.termDocFreq + 1) % 2 ^ 32
  some ({ recorder with stack, currentDoc := doc, termDocFreq }, arena)

/-- The frequency goes up. -/
def recordPosition (recorder : TermFrequencyRecorder) (_position : Nat) (arena : MemoryArena) :
    Option (TermFrequencyRecorder × MemoryArena) :=
  some ({ recorder with currentTf := (recorder.currentTf + 1) % 2 ^ 32 }, arena)

/-- The frequency is written. -/
def closeDoc (recorder : TermFrequencyRecorder) (arena : MemoryArena) :
    Option (TermFrequencyRecorder × MemoryArena) := do
  let (stack, arena) ← recorder.stack.writeU32Vint arena recorder.currentTf
  some ({ recorder with stack, currentTf := 0 }, arena)

/-- The document that is not closed has its frequency in the recorder. -/
def readDocs (currentTf : Nat) : List Nat → List WriteDoc
  | [] => []
  | [doc] => [⟨doc, currentTf, []⟩]
  | doc :: termFreq :: u32It => ⟨doc, termFreq, []⟩ :: readDocs currentTf u32It

/-- The documents and their frequencies are read back. -/
def serialize (recorder : TermFrequencyRecorder) (arena : MemoryArena)
    (docIdMap : Option DocIdMapping) : Option (List WriteDoc) := do
  let buffer ← recorder.stack.readToEnd arena
  let u32It ← vint32Reader buffer
  remapWith docIdMap (readDocs recorder.currentTf u32It)

instance : Recorder TermFrequencyRecorder where
  default := default
  currentDoc := currentDoc
  newDoc := newDoc
  recordPosition := recordPosition
  closeDoc := closeDoc
  serialize := serialize
  termDocFreq recorder := some recorder.termDocFreq

end TermFrequencyRecorder

/-- What ends the positions of a document. -/
def POSITION_END : Nat := 0

/-- Recorder encoding term frequencies as well as positions. -/
structure TfAndPositionRecorder where
  stack : ExpUnrolledLinkedList
  currentDoc : Nat
  termDocFreq : Nat

namespace TfAndPositionRecorder

/-- No document is current. -/
def default : TfAndPositionRecorder := ⟨.new, 2 ^ 32 - 1, 0⟩

/-- The id is written, and the document counted. -/
def newDoc (recorder : TfAndPositionRecorder) (doc : Nat) (arena : MemoryArena) :
    Option (TfAndPositionRecorder × MemoryArena) := do
  let termDocFreq := (recorder.termDocFreq + 1) % 2 ^ 32
  let (stack, arena) ← recorder.stack.writeU32Vint arena doc
  some (⟨stack, doc, termDocFreq⟩, arena)

/-- The position is written, plus one. -/
def recordPosition (recorder : TfAndPositionRecorder) (position : Nat) (arena : MemoryArena) :
    Option (TfAndPositionRecorder × MemoryArena) := do
  let (stack, arena) ← recorder.stack.writeU32Vint arena ((position + 1) % 2 ^ 32)
  some ({ recorder with stack }, arena)

/-- The end mark is written. -/
def closeDoc (recorder : TfAndPositionRecorder) (arena : MemoryArena) :
    Option (TfAndPositionRecorder × MemoryArena) := do
  let (stack, arena) ← recorder.stack.writeU32Vint arena POSITION_END
  some ({ recorder with stack }, arena)

/-- The inner loop of `serialize`: the deltas up to the end mark, and what is behind it. -/
def readPositions (prevPositionPlusOne : Nat) : List Nat → List Nat × List Nat
  | [] => ([], [])
  | positionPlusOne :: u32It =>
    if positionPlusOne = POSITION_END then
      ([], u32It)
    else
      let (bufferPositions, u32It) := readPositions positionPlusOne u32It
      (wrappingSub positionPlusOne prevPositionPlusOne :: bufferPositions, u32It)

theorem length_readPositions (prev : Nat) (u32It : List Nat) :
    (readPositions prev u32It).2.length ≤ u32It.length := by
  induction u32It generalizing prev with
  | nil => simp [readPositions]
  | cons n u32It ih =>
    rw [readPositions]
    split
    · simp
    · have := ih n
      simp only [List.length_cons]
      omega

/-- Each id with the positions behind it. -/
def readDocs : List Nat → List WriteDoc
  | [] => []
  | doc :: u32It =>
    let bufferPositions := (readPositions 1 u32It).1
    ⟨doc, bufferPositions.length % 2 ^ 32, bufferPositions⟩ ::
      readDocs (readPositions 1 u32It).2
termination_by u32It => u32It.length
decreasing_by
  have := length_readPositions 1 u32It
  rw [List.length_cons]
  omega

/-- The documents and their positions are read back. -/
def serialize (recorder : TfAndPositionRecorder) (arena : MemoryArena)
    (docIdMap : Option DocIdMapping) : Option (List WriteDoc) := do
  let bufferU8 ← recorder.stack.readToEnd arena
  let u32It ← vint32Reader bufferU8
  remapWith docIdMap (readDocs u32It)

instance : Recorder TfAndPositionRecorder where
  default := default
  currentDoc := currentDoc
  newDoc := newDoc
  recordPosition := recordPosition
  closeDoc := closeDoc
  serialize := serialize
  termDocFreq recorder := some recorder.termDocFreq

end TfAndPositionRecorder

/-! ### Subscribing -/

/-- What `subscribe` does to the recorder of its term. -/
def Recorder.subscribe {R : Type} [Recorder R] (optRecorder : Option R) (doc position : Nat)
    (arena : MemoryArena) : Option (R × MemoryArena) :=
  match optRecorder with
  | some recorder =>
    if currentDoc recorder ≠ doc then do
      let (recorder, arena) ← closeDoc recorder arena
      let (recorder, arena) ← newDoc recorder doc arena
      recordPosition recorder position arena
    else
      recordPosition recorder position arena
  | none => do
    let (recorder, arena) ← newDoc default doc arena
    recordPosition recorder position arena

/-- The recorder that a field of the given option has. -/
abbrev IndexRecordOption.Rec : IndexRecordOption → Type
  | .basic => DocIdRecorder
  | .withFreqs => TermFrequencyRecorder
  | .withFreqsAndPositions => TfAndPositionRecorder

instance (mode : IndexRecordOption) : Recorder mode.Rec :=
  match mode with
  | .basic => inferInstanceAs (Recorder DocIdRecorder)
  | .withFreqs => inferInstanceAs (Recorder TermFrequencyRecorder)
  | .withFreqsAndPositions => inferInstanceAs (Recorder TfAndPositionRecorder)

/-- A call of `subscribe`. -/
structure Subscribe (ι : Type) where
  term : ι
  doc : Nat
  position : Nat

/-- The arena and, by their terms, the recorders; `modes` has the option of each term's field. -/
structure IndexingContext {ι : Type} (modes : ι → IndexRecordOption) where
  arena : MemoryArena
  recorders : ∀ i, Option (modes i).Rec

namespace IndexingContext

variable {ι : Type} [DecidableEq ι] {modes : ι → IndexRecordOption}

/-- An arena without recorders. -/
def new (modes : ι → IndexRecordOption) : IndexingContext modes := ⟨MemoryArena.new, fun _ => none⟩

/-- A call on the recorder of its term. -/
def subscribe (ctx : IndexingContext modes) (call : Subscribe ι) :
    Option (IndexingContext modes) := do
  let (recorder, arena) ←
    Recorder.subscribe (ctx.recorders call.term) call.doc call.position ctx.arena
  some ⟨arena, Function.update ctx.recorders call.term (some recorder)⟩

/-- Calls one after the other. -/
def run (ctx : IndexingContext modes) : List (Subscribe ι) → Option (IndexingContext modes)
  | [] => some ctx
  | call :: calls => do
    let ctx ← ctx.subscribe call
    ctx.run calls

end IndexingContext

end TeaclaveCrates.Tantivy
