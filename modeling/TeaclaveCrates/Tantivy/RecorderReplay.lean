import TeaclaveCrates.Tantivy.Recorder

namespace TeaclaveCrates.Tantivy

open Lib Common
open Recorder (recordPosition serialize)

/-!
# What the recorders replay

* `vint32Reader_spell` — numbers are read back from the bytes that spell them;
* `DocEntry`, `RecordOf` — a term in a document, and the entries that a sequence of calls makes;
* `Writes` — what an operation on one recorder leaves in the arena, with a rule for each way to
  build an operation;
* `LawfulRecorder` — what each method of a recorder does to its entries;
* `IndexingContext.recorders_replay` — every recorder replays the calls for its term.
-/

/-! ### Numbers read back -/

/-- The bytes of the numbers. -/
def spell (vals : List Nat) : Bytes := vals.flatMap serializeVintU32

@[simp] theorem spell_nil : spell [] = [] := rfl

@[simp] theorem spell_append (xs ys : List Nat) : spell (xs ++ ys) = spell xs ++ spell ys :=
  List.flatMap_append

@[simp] theorem spell_singleton (val : Nat) : spell [val] = serializeVintU32 val := by
  simp [spell]

theorem vint32Reader_cons {val : Nat} (hval : val < 2 ^ 32) (rest : Bytes) :
    vint32Reader (serializeVintU32 val ++ rest) = (vint32Reader rest).map (val :: ·) := by
  have hread : readU32Vint (serializeVintU32 val ++ rest) = .ok (val, rest) :=
    ((vint_roundTrip val rest).1 hval).2
  have hne : serializeVintU32 val ++ rest ≠ [] := by
    intro hnil
    rw [hnil] at hread
    cases hread
  rw [vint32Reader, dif_neg hne]
  split
  · rename_i herr
    rw [hread] at herr
    cases herr
  · rename_i hok
    rw [hread] at hok
    cases hok
    rfl

theorem vint32Reader_spell {vals : List Nat} (h : ∀ val ∈ vals, val < 2 ^ 32) :
    vint32Reader (spell vals) = some vals := by
  induction vals with
  | nil => simp [vint32Reader]
  | cons val vals ih =>
    rw [List.forall_mem_cons] at h
    have hcons : spell (val :: vals) = serializeVintU32 val ++ spell vals := List.flatMap_cons
    simp [hcons, vint32Reader_cons h.1, ih h.2]

/-! ### Entries -/

/-- A document in which the term occurs. -/
structure DocEntry where
  docId : Nat
  positions : List Nat

/-- The positions are kept with a number added, and 0 behind the last. -/
structure DocEntry.Valid (e : DocEntry) : Prop where
  docId : e.docId < 2 ^ 32
  ordered : e.positions.Pairwise (· ≤ ·)
  bound : ∀ p ∈ e.positions, p < 2 ^ 32 - 1

/-- How far each position is from the one before. -/
def gaps : Nat → List Nat → List Nat
  | _, [] => []
  | prev, position :: positions => (position - prev) :: gaps position positions

theorem length_gaps (positions : List Nat) : ∀ prev, (gaps prev positions).length =
    positions.length := by
  induction positions with
  | nil => simp [gaps]
  | cons position positions ih => simp [gaps, ih]

/-- The entries that the calls make: a document and a position each. -/
structure RecordOf (calls : List (Nat × Nat)) (entries : List DocEntry) : Prop where
  calls_eq : entries.flatMap (fun e => e.positions.map fun p => (e.docId, p)) = calls
  ascending : entries.Pairwise fun a b => a.docId < b.docId
  nonempty : ∀ e ∈ entries, e.positions ≠ []

/-- Documents come in increasing order, and the positions of a document are not decreasing. -/
def CallOrder (calls : List (Nat × Nat)) : Prop :=
  calls.Pairwise fun a b => a.1 < b.1 ∨ a.1 = b.1 ∧ a.2 ≤ b.2

section RecordOf

variable {calls : List (Nat × Nat)} {entries : List DocEntry} {e : DocEntry} {doc position : Nat}

theorem recordOf_nil : RecordOf [] [] := ⟨rfl, .nil, by simp⟩

/-- One more position of the last document. -/
theorem RecordOf.again (h : RecordOf calls (entries ++ [e])) (position : Nat) :
    RecordOf (calls ++ [(e.docId, position)])
      (entries ++ [{ e with positions := e.positions ++ [position] }]) where
  calls_eq := by
    rw [← h.calls_eq]
    simp
  ascending := by
    have := h.ascending
    rw [List.pairwise_append] at this ⊢
    exact ⟨this.1, List.pairwise_singleton _ _, by simpa using this.2.2⟩
  nonempty := by
    have := h.nonempty
    simp only [List.mem_append, List.mem_singleton] at this ⊢
    rintro e' (he' | rfl)
    · exact this e' (Or.inl he')
    · simp

/-- The first position of a document behind the others. -/
theorem RecordOf.next (h : RecordOf calls entries) (hdoc : ∀ e ∈ entries, e.docId < doc)
    (position : Nat) :
    RecordOf (calls ++ [(doc, position)]) (entries ++ [⟨doc, [position]⟩]) where
  calls_eq := by
    rw [← h.calls_eq]
    simp
  ascending := by
    rw [List.pairwise_append]
    exact ⟨h.ascending, List.pairwise_singleton _ _, by simpa using hdoc⟩
  nonempty := by
    simp only [List.mem_append, List.mem_singleton]
    rintro e' (he' | rfl)
    · exact h.nonempty e' he'
    · simp

theorem RecordOf.sublist (h : RecordOf calls entries) (he : e ∈ entries) :
    (e.positions.map fun p => (e.docId, p)).Sublist calls := by
  rw [← h.calls_eq, List.flatMap_def]
  exact List.sublist_flatten_of_mem (List.mem_map_of_mem he)

/-- The calls for an entry that is there. -/
theorem RecordOf.exists_mem (h : RecordOf calls entries) (he : e ∈ entries) :
    ∃ position, (e.docId, position) ∈ calls := by
  obtain ⟨position, hmem⟩ := List.exists_mem_of_ne_nil _ (h.nonempty e he)
  exact ⟨position, (h.sublist he).subset (List.mem_map_of_mem hmem)⟩

theorem RecordOf.valid (h : RecordOf calls entries) (horder : CallOrder calls)
    (hbound : ∀ call ∈ calls, call.1 < 2 ^ 32 ∧ call.2 < 2 ^ 32 - 1) (he : e ∈ entries) :
    e.Valid where
  docId := by
    obtain ⟨position, hmem⟩ := h.exists_mem he
    exact (hbound _ hmem).1
  ordered := by
    have := horder.sublist (h.sublist he)
    rw [List.pairwise_map] at this
    exact this.imp fun hle => by simpa using hle
  bound p hp := (hbound _ ((h.sublist he).subset (List.mem_map_of_mem hp))).2

/-- An entry has no more positions than there are calls for its document. -/
theorem RecordOf.length_le (h : RecordOf calls entries) (he : e ∈ entries) :
    e.positions.length ≤ calls.countP fun call => call.1 = e.docId := by
  have hcount := (h.sublist he).countP_le (p := fun call => call.1 = e.docId)
  have hall : (e.positions.map fun p => (e.docId, p)).countP (fun call => call.1 = e.docId) =
      (e.positions.map fun p => (e.docId, p)).length := by
    simp
  rwa [hall, List.length_map] at hcount

end RecordOf

/-! ### New document ids -/

namespace DocIdMapping

/-- Each old id is assigned its place in the list, and the others keep what they had. -/
theorem assign_spec (newDocIdToOld : List Nat) (hnodup : newDocIdToOld.Nodup) (ids : List Nat)
    (k : Nat) (hold : ∀ old ∈ newDocIdToOld, old < ids.length)
    (hk : k + newDocIdToOld.length ≤ 2 ^ 32) :
    ∃ ids', assign ids k newDocIdToOld = some ids' ∧
      (∀ old ∈ newDocIdToOld, ids'[old]? = some (k + newDocIdToOld.idxOf old)) ∧
      ∀ old ∉ newDocIdToOld, ids'[old]? = ids[old]? := by
  induction newDocIdToOld generalizing ids k with
  | nil => exact ⟨ids, rfl, by simp, fun _ _ => rfl⟩
  | cons old olds ih =>
    rw [List.nodup_cons] at hnodup
    rw [List.forall_mem_cons] at hold
    rw [List.length_cons] at hk
    obtain ⟨ids', hassign, hmem, hnot⟩ := ih hnodup.2 (ids.set old (k % 2 ^ 32)) (k + 1)
      (by simpa using hold.2) (by omega)
    refine ⟨ids', by rw [assign, if_pos hold.1, hassign], ?_, ?_⟩
    · rw [List.forall_mem_cons]
      constructor
      · rw [hnot old hnodup.1, List.getElem?_set_self hold.1, Nat.mod_eq_of_lt (by omega),
          List.idxOf_cons_self, Nat.add_zero]
      · intro old' hold'
        have hne : old ≠ old' := fun heq => hnodup.1 (heq ▸ hold')
        rw [hmem old' hold', List.idxOf_cons_ne _ hne]
        congr 1
        omega
    · intro old' hold'
      rw [List.mem_cons, not_or] at hold'
      rw [hnot old' hold'.2, List.getElem?_set_ne (Ne.symm hold'.1)]

/-- The mapping of a sorted index: the new id of a document is its place in the order. -/
theorem fromNewIdToOldId_spec {newDocIdToOld : List Nat} {maxDoc : Nat}
    (hperm : newDocIdToOld.Perm (List.range maxDoc)) (hmax : maxDoc < 2 ^ 32) :
    ∃ map, fromNewIdToOldId newDocIdToOld = some map ∧
      ∀ docId < maxDoc, map.getNewDocId docId = some (newDocIdToOld.idxOf docId) := by
  have hmem : ∀ old, old ∈ newDocIdToOld ↔ old < maxDoc := by simp [hperm.mem_iff]
  have hlen : newDocIdToOld.length = maxDoc := by simp [hperm.length_eq]
  have hold : (newDocIdToOld.max?.map fun n => (n + 1) % 2 ^ 32).getD 0 = maxDoc := by
    cases maxDoc with
    | zero => simp [List.length_eq_zero_iff.mp hlen]
    | succ n =>
      have hmaxOf : newDocIdToOld.max? = some n := by
        rw [List.max?_eq_some_iff]
        refine ⟨(hmem n).mpr (Nat.lt_succ_self n), fun b hb => ?_⟩
        exact Nat.le_of_lt_succ ((hmem b).mp hb)
      rw [hmaxOf, Option.map_some, Option.getD_some, Nat.mod_eq_of_lt hmax]
  obtain ⟨ids, hassign, hids, -⟩ := assign_spec newDocIdToOld
    (hperm.nodup_iff.mpr List.nodup_range) (List.replicate maxDoc 0) 0
    (by simpa using fun old h => (hmem old).mp h) (by omega)
  refine ⟨⟨newDocIdToOld, ids⟩, ?_, fun docId hdoc => ?_⟩
  · rw [fromNewIdToOldId]
    simp only [hold, hassign]
    rfl
  · rw [getNewDocId, hids docId ((hmem docId).mpr hdoc), Nat.zero_add]

end DocIdMapping

/-- What is written under the new ids is what was there under the old ones, sorted. -/
theorem remap_spec (map : DocIdMapping) (calls : List WriteDoc) (newId : Nat → Nat)
    (hget : ∀ call ∈ calls, map.getNewDocId call.docId = some (newId call.docId))
    (hnodup : (calls.map fun call => newId call.docId).Nodup) :
    ∃ writes, remap map calls = some writes ∧
      writes.Perm (calls.map fun call => { call with docId := newId call.docId }) ∧
      writes.Pairwise fun a b => a.docId < b.docId := by
  set mapped := calls.map fun call => { call with docId := newId call.docId } with hmapped
  have hmapM : (calls.mapM fun call => do
      let docId ← map.getNewDocId call.docId
      some { call with docId }) = some mapped := by
    clear hnodup hmapped
    induction calls with
    | nil => rfl
    | cons call calls ih =>
      rw [List.forall_mem_cons] at hget
      rw [List.mapM_cons, ih hget.2, hget.1]
      rfl
  have hperm := List.mergeSort_perm mapped fun a b => a.docId ≤ b.docId
  refine ⟨_, by rw [remap, hmapM]; rfl, hperm, ?_⟩
  have hle := @List.pairwise_mergeSort _ (fun a b : WriteDoc => a.docId ≤ b.docId)
    (by simpa using fun a b c => Nat.le_trans) (by simpa using fun a b => Nat.le_total _ _) mapped
  have hne : (mapped.mergeSort fun a b => a.docId ≤ b.docId).Pairwise
      fun a b => a.docId ≠ b.docId := by
    rw [← List.pairwise_map (f := WriteDoc.docId) (R := (· ≠ ·))]
    apply (hperm.map WriteDoc.docId).nodup_iff.mpr
    rwa [hmapped, List.map_map]
  exact (hle.and hne).imp fun h => Nat.lt_of_le_of_ne (of_decide_eq_true h.1) h.2

/-! ### Operations on one recorder -/

/-- From a stack that holds `w`, the operation succeeds whatever else is in the arena, leaves the
other lists as they are, and ends with a recorder and bytes that satisfy `Post`. -/
structure Writes {R : Type} (stackOf : R → ExpUnrolledLinkedList) (stack : ExpUnrolledLinkedList)
    (w : Bytes) (op : MemoryArena → Option (R × MemoryArena)) (Post : R → Bytes → Prop) :
    Prop where
  run {ι : Type} [DecidableEq ι] {s : Lists ι} {ws : ι → Bytes} (i : ι) : s.Inv ws →
    s.lists i = stack → ws i = w →
      ∃ r arena w', op s.arena = some (r, arena) ∧
        (⟨arena, Function.update s.lists i (stackOf r)⟩ : Lists ι).Inv
          (Function.update ws i w') ∧ Post r w'

section Writes

variable {R : Type} {stackOf : R → ExpUnrolledLinkedList} {stack : ExpUnrolledLinkedList}
  {w : Bytes} {Post Post' : R → Bytes → Prop}

variable {op : MemoryArena → Option (R × MemoryArena)}

theorem Writes.imp (h : Writes stackOf stack w op Post) (himp : ∀ r w, Post r w → Post' r w) :
    Writes stackOf stack w op Post' := by
  constructor
  intro ι _ s ws i hinv hstack hw
  obtain ⟨r, arena, w', hop, hinv', hpost⟩ := h.run i hinv hstack hw
  exact ⟨r, arena, w', hop, hinv', himp r w' hpost⟩

/-- A recorder that writes nothing. -/
theorem writes_pure (r : R) (hop : ∀ arena, op arena = some (r, arena)) (hstack : stackOf r = stack)
    (hpost : Post r w) :
    Writes stackOf stack w op Post := by
  constructor
  intro ι _ s ws i hinv hs hw
  refine ⟨r, s.arena, w, hop _, ?_, hpost⟩
  rwa [hstack, ← hs, ← hw, Function.update_eq_self, Function.update_eq_self]

/-- A recorder that writes a number. -/
theorem writes_write (val : Nat) (f : ExpUnrolledLinkedList → R)
    (hop : ∀ arena, op arena =
      (stack.writeU32Vint arena val).bind fun written => some (f written.1, written.2))
    (hf : ∀ eull, stackOf (f eull) = eull)
    (hpost : ∀ eull, Post (f eull) (w ++ serializeVintU32 val)) :
    Writes stackOf stack w op Post := by
  constructor
  intro ι _ s ws i hinv hs hw
  obtain ⟨eull, arena, hwrite, hinv'⟩ := hinv.extendFromSlice i (serializeVintU32 val)
  rw [hs] at hwrite
  refine ⟨f eull, arena, w ++ serializeVintU32 val, ?_, ?_, hpost eull⟩
  · simp [hop, show stack.writeU32Vint s.arena val = some (eull, arena) from hwrite]
  · rwa [hf, ← hw]

/-- One operation after another. -/
theorem Writes.bind {op' : MemoryArena → Option (R × MemoryArena)}
    (h : Writes stackOf stack w op Post) (next : R → MemoryArena → Option (R × MemoryArena))
    (hop : ∀ arena, op' arena = (op arena).bind fun written => next written.1 written.2)
    (hnext : ∀ r w, Post r w → Writes stackOf (stackOf r) w (next r) Post') :
    Writes stackOf stack w op' Post' := by
  constructor
  intro ι _ s ws i hinv hs hw
  obtain ⟨r, arena, w₁, hrun, hinv₁, hpost⟩ := h.run i hinv hs hw
  obtain ⟨r', arena', w', hrun', hinv', hpost'⟩ :=
    (hnext r w₁ hpost).run i hinv₁ (Function.update_self ..) (Function.update_self ..)
  refine ⟨r', arena', w', ?_, ?_, hpost'⟩
  · rw [hop, hrun]
    exact hrun'
  · simpa only [Function.update_idem] using hinv'

end Writes

/-! ### The recorders -/

/-- What the methods of a recorder do to its entries. -/
class LawfulRecorder (R : Type) [Recorder R] where
  stack : R → ExpUnrolledLinkedList
  /-- What is kept of an entry. -/
  kept : DocEntry → WriteDoc
  /-- Every entry is closed. -/
  Closed : R → Bytes → List DocEntry → Prop
  /-- The last entry is not closed. -/
  Open : R → Bytes → List DocEntry → DocEntry → Prop
  docId_kept (e : DocEntry) : (kept e).docId = e.docId
  stack_default : stack Recorder.default = .new
  closed_default : Closed Recorder.default [] []
  currentDoc_eq {r : R} {w : Bytes} {closed : List DocEntry} {last : DocEntry} :
    Open r w closed last → Recorder.currentDoc r = last.docId
  newDoc_spec {r : R} {w : Bytes} {closed : List DocEntry} (doc : Nat) : Closed r w closed →
    Writes stack (stack r) w (Recorder.newDoc r doc) fun r w => Open r w closed ⟨doc, []⟩
  recordPosition_spec {r : R} {w : Bytes} {closed : List DocEntry} {last : DocEntry}
    (position : Nat) : Open r w closed last →
      Writes stack (stack r) w (recordPosition r position) fun r w =>
        Open r w closed { last with positions := last.positions ++ [position] }
  closeDoc_spec {r : R} {w : Bytes} {closed : List DocEntry} {last : DocEntry} :
    Open r w closed last →
      Writes stack (stack r) w (Recorder.closeDoc r) fun r w => Closed r w (closed ++ [last])
  serialize_spec {r : R} {w : Bytes} {closed : List DocEntry} {last : DocEntry}
    {arena : MemoryArena} (docIdMap : Option DocIdMapping) : Open r w closed last →
      (∀ e ∈ closed ++ [last], e.Valid) → (stack r).readToEnd arena = some w →
        serialize r arena docIdMap =
          remapWith docIdMap ((closed ++ [last]).map kept)

namespace DocIdRecorder

theorem writes_newDoc (r : DocIdRecorder) (w : Bytes) (doc : Nat) :
    Writes stack r.stack w (r.newDoc doc) fun r' w' =>
      w' = w ++ spell [doc] ∧ r'.currentDoc = doc := by
  apply writes_write doc (DocIdRecorder.mk · doc)
  · exact fun _ => rfl
  · exact fun _ => rfl
  · simp

theorem serialize_eq {r : DocIdRecorder} {arena : MemoryArena} {vals : List Nat}
    (hread : r.stack.readToEnd arena = some (spell vals)) (hvals : ∀ val ∈ vals, val < 2 ^ 32)
    (docIdMap : Option DocIdMapping) :
    r.serialize arena docIdMap = remapWith docIdMap (vals.map fun doc => ⟨doc, 0, []⟩) := by
  simp [serialize, hread, vint32Reader_spell hvals]

instance : LawfulRecorder DocIdRecorder where
  stack := stack
  kept e := ⟨e.docId, 0, []⟩
  Closed _ w entries := w = spell (entries.map DocEntry.docId)
  Open r w closed last :=
    w = spell ((closed ++ [last]).map DocEntry.docId) ∧ r.currentDoc = last.docId
  docId_kept _ := rfl
  stack_default := rfl
  closed_default := rfl
  currentDoc_eq h := h.2
  newDoc_spec doc h := by
    apply (writes_newDoc _ _ doc).imp
    rintro r w ⟨rfl, hdoc⟩
    simp [h, hdoc]
  recordPosition_spec position h := by
    apply writes_pure _ (fun _ => rfl) rfl
    simpa using h
  closeDoc_spec h := by
    apply writes_pure _ (fun _ => rfl) rfl
    exact h.1
  serialize_spec docIdMap h hvalid hread := by
    rw [h.1] at hread
    apply (serialize_eq hread _ docIdMap).trans
    · rw [List.map_map]
      rfl
    · intro val hval
      obtain ⟨e, he, rfl⟩ := List.mem_map.mp hval
      exact (hvalid e he).docId

end DocIdRecorder

namespace TermFrequencyRecorder

/-- What is written of an entry once it is closed. -/
def docWords (e : DocEntry) : List Nat := [e.docId, e.positions.length % 2 ^ 32]

variable (r : TermFrequencyRecorder)

theorem writes_newDoc (w : Bytes) (doc : Nat) :
    Writes stack r.stack w (r.newDoc doc) fun r' w' =>
      w' = w ++ spell [doc] ∧ r'.currentDoc = doc ∧ r'.currentTf = r.currentTf := by
  apply writes_write doc
    (TermFrequencyRecorder.mk · doc r.currentTf ((r.termDocFreq + 1) % 2 ^ 32))
  · exact fun _ => rfl
  · exact fun _ => rfl
  · simp

theorem writes_closeDoc (w : Bytes) :
    Writes stack r.stack w r.closeDoc fun r' w' =>
      w' = w ++ spell [r.currentTf] ∧ r'.currentTf = 0 := by
  apply writes_write r.currentTf (TermFrequencyRecorder.mk · r.currentDoc 0 r.termDocFreq)
  · exact fun _ => rfl
  · exact fun _ => rfl
  · simp

theorem writes_recordPosition (w : Bytes) (position : Nat) :
    Writes stack r.stack w (r.recordPosition position) fun r' w' =>
      w' = w ∧ r'.currentDoc = r.currentDoc ∧ r'.currentTf = (r.currentTf + 1) % 2 ^ 32 := by
  apply writes_pure { r with currentTf := (r.currentTf + 1) % 2 ^ 32 }
  · exact fun _ => rfl
  · rfl
  · simp

theorem readDocs_docWords (currentTf doc : Nat) (closed : List DocEntry) :
    readDocs currentTf (closed.flatMap docWords ++ [doc]) =
      closed.map (fun e => ⟨e.docId, e.positions.length % 2 ^ 32, []⟩) ++
        [⟨doc, currentTf, []⟩] := by
  induction closed with
  | nil => rfl
  | cons e closed ih =>
    rw [List.map_cons, List.cons_append, ← ih]
    rfl

theorem serialize_eq {r : TermFrequencyRecorder} {arena : MemoryArena} {vals : List Nat}
    (hread : r.stack.readToEnd arena = some (spell vals)) (hvals : ∀ val ∈ vals, val < 2 ^ 32)
    (docIdMap : Option DocIdMapping) :
    r.serialize arena docIdMap = remapWith docIdMap (readDocs r.currentTf vals) := by
  simp [serialize, hread, vint32Reader_spell hvals]

instance : LawfulRecorder TermFrequencyRecorder where
  stack := stack
  kept e := ⟨e.docId, e.positions.length % 2 ^ 32, []⟩
  Closed r w entries := w = spell (entries.flatMap docWords) ∧ r.currentTf = 0
  Open r w closed last :=
    w = spell (closed.flatMap docWords ++ [last.docId]) ∧ r.currentDoc = last.docId ∧
      r.currentTf = last.positions.length % 2 ^ 32
  docId_kept _ := rfl
  stack_default := rfl
  closed_default := ⟨rfl, rfl⟩
  currentDoc_eq h := h.2.1
  newDoc_spec doc h := by
    apply (writes_newDoc _ _ doc).imp
    rintro r w ⟨rfl, hdoc, htf⟩
    simp [h.1, hdoc, htf, h.2]
  recordPosition_spec position h := by
    apply (writes_recordPosition _ _ position).imp
    rintro r w ⟨rfl, hdoc, htf⟩
    obtain ⟨hw, hcurrent, hfreq⟩ := h
    refine ⟨hw, hdoc.trans hcurrent, ?_⟩
    rw [List.length_append, List.length_singleton, htf, hfreq, Nat.mod_add_mod]
  closeDoc_spec h := by
    apply (writes_closeDoc _ _).imp
    rintro r w ⟨rfl, htf⟩
    obtain ⟨hw, -, hcurrent⟩ := h
    refine ⟨?_, htf⟩
    rw [hw, hcurrent, ← spell_append]
    simp [docWords]
  serialize_spec docIdMap h hvalid hread := by
    obtain ⟨hw, -, htf⟩ := h
    rw [hw] at hread
    apply (serialize_eq hread _ docIdMap).trans
    · rw [readDocs_docWords, htf, List.map_append]
      rfl
    · simp only [List.mem_append, List.mem_flatMap, List.mem_singleton] at hvalid ⊢
      rintro val (⟨e, he, hval⟩ | rfl)
      · simp only [docWords, List.mem_cons, List.not_mem_nil, or_false] at hval
        rcases hval with rfl | rfl
        · exact (hvalid e (Or.inl he)).docId
        · exact Nat.mod_lt _ (by decide)
      · exact (hvalid _ (Or.inr rfl)).docId

end TermFrequencyRecorder

namespace TfAndPositionRecorder

/-- The positions as they are written. -/
def positionWords (positions : List Nat) : List Nat := positions.map fun p => (p + 1) % 2 ^ 32

/-- What is written of an entry once it is closed. -/
def docWords (e : DocEntry) : List Nat :=
  e.docId :: positionWords e.positions ++ [POSITION_END]

variable (r : TfAndPositionRecorder)

theorem writes_newDoc (w : Bytes) (doc : Nat) :
    Writes stack r.stack w (r.newDoc doc) fun r' w' =>
      w' = w ++ spell [doc] ∧ r'.currentDoc = doc := by
  apply writes_write doc (TfAndPositionRecorder.mk · doc ((r.termDocFreq + 1) % 2 ^ 32))
  · exact fun _ => rfl
  · exact fun _ => rfl
  · simp

theorem writes_recordPosition (w : Bytes) (position : Nat) :
    Writes stack r.stack w (r.recordPosition position) fun r' w' =>
      w' = w ++ spell [(position + 1) % 2 ^ 32] ∧ r'.currentDoc = r.currentDoc := by
  apply writes_write ((position + 1) % 2 ^ 32)
    (TfAndPositionRecorder.mk · r.currentDoc r.termDocFreq)
  · exact fun _ => rfl
  · exact fun _ => rfl
  · simp

theorem writes_closeDoc (w : Bytes) :
    Writes stack r.stack w r.closeDoc fun _ w' => w' = w ++ spell [POSITION_END] := by
  apply writes_write POSITION_END (TfAndPositionRecorder.mk · r.currentDoc r.termDocFreq)
  · exact fun _ => rfl
  · exact fun _ => rfl
  · simp

/-- The positions up to the end mark or to the end of the numbers are read as their gaps. -/
theorem readPositions_positionWords (rest tail : List Nat)
    (htail : ∀ prev, readPositions prev tail = ([], rest)) (positions : List Nat) (prev : Nat)
    (hordered : positions.Pairwise (· ≤ ·)) (hprev : ∀ p ∈ positions, prev ≤ p)
    (hbound : ∀ p ∈ positions, p < 2 ^ 32 - 1) :
    readPositions (prev + 1) (positionWords positions ++ tail) = (gaps prev positions, rest) := by
  induction positions generalizing prev with
  | nil => exact htail _
  | cons position positions ih =>
    rw [List.pairwise_cons] at hordered
    rw [List.forall_mem_cons] at hprev hbound
    have hword : (position + 1) % 2 ^ 32 = position + 1 := Nat.mod_eq_of_lt (by omega)
    have hsub : wrappingSub (position + 1) (prev + 1) = position - prev := by
      unfold wrappingSub
      omega
    have hne : position + 1 ≠ POSITION_END := Nat.succ_ne_zero position
    have hrest := ih position hordered.2 hordered.1 hbound.2
    simp only [positionWords, List.map_cons, List.cons_append, hword] at hrest ⊢
    rw [readPositions, if_neg hne, hrest, hsub, gaps]

theorem readDocs_docWords {closed : List DocEntry} {last : DocEntry}
    (hvalid : ∀ e ∈ closed ++ [last], e.Valid) :
    readDocs (closed.flatMap docWords ++ last.docId :: positionWords last.positions) =
      (closed ++ [last]).map fun e =>
        ⟨e.docId, e.positions.length % 2 ^ 32, gaps 0 e.positions⟩ := by
  induction closed with
  | nil =>
    have hlast := hvalid last (by simp)
    have hread := readPositions_positionWords [] [] (fun _ => rfl)
      last.positions 0 hlast.ordered (fun _ _ => Nat.zero_le _) hlast.bound
    rw [List.append_nil, Nat.zero_add] at hread
    simp [readDocs, hread, length_gaps]
  | cons e closed ih =>
    rw [List.cons_append, List.forall_mem_cons] at hvalid
    have hread := readPositions_positionWords _
      (POSITION_END :: (closed.flatMap docWords ++ last.docId ::
        positionWords last.positions)) (fun _ => rfl)
      e.positions 0 hvalid.1.ordered (fun _ _ => Nat.zero_le _) hvalid.1.bound
    simp only [List.flatMap_cons, docWords, List.cons_append, List.append_assoc,
      List.nil_append] at hread ⊢
    rw [readDocs, hread, length_gaps, List.map_cons]
    exact congrArg _ (ih hvalid.2)

theorem serialize_eq {r : TfAndPositionRecorder} {arena : MemoryArena} {vals : List Nat}
    (hread : r.stack.readToEnd arena = some (spell vals)) (hvals : ∀ val ∈ vals, val < 2 ^ 32)
    (docIdMap : Option DocIdMapping) :
    r.serialize arena docIdMap = remapWith docIdMap (readDocs vals) := by
  simp [serialize, hread, vint32Reader_spell hvals]

theorem positionWords_lt {positions : List Nat} {val : Nat} (h : val ∈ positionWords positions) :
    val < 2 ^ 32 := by
  obtain ⟨p, -, rfl⟩ := List.mem_map.mp h
  exact Nat.mod_lt _ (by decide)

instance : LawfulRecorder TfAndPositionRecorder where
  stack := stack
  kept e := ⟨e.docId, e.positions.length % 2 ^ 32, gaps 0 e.positions⟩
  Closed _ w entries := w = spell (entries.flatMap docWords)
  Open r w closed last :=
    w = spell (closed.flatMap docWords ++ last.docId :: positionWords last.positions) ∧
      r.currentDoc = last.docId
  docId_kept _ := rfl
  stack_default := rfl
  closed_default := rfl
  currentDoc_eq h := h.2
  newDoc_spec doc h := by
    apply (writes_newDoc _ _ doc).imp
    rintro r w ⟨rfl, hdoc⟩
    simp [h, hdoc, positionWords]
  recordPosition_spec position h := by
    apply (writes_recordPosition _ _ position).imp
    rintro r w ⟨rfl, hdoc⟩
    obtain ⟨hw, hcurrent⟩ := h
    refine ⟨?_, hdoc.trans hcurrent⟩
    rw [hw, ← spell_append]
    simp [positionWords]
  closeDoc_spec h := by
    apply (writes_closeDoc _ _).imp
    rintro r w rfl
    rw [h.1, ← spell_append]
    simp [docWords]
  serialize_spec docIdMap h hvalid hread := by
    rw [h.1] at hread
    apply (serialize_eq hread _ docIdMap).trans
    · rw [readDocs_docWords hvalid]
    · simp only [List.mem_append, List.mem_flatMap, List.mem_cons, List.not_mem_nil, or_false,
        docWords] at hvalid ⊢
      rintro val (⟨e, he, (rfl | hval) | rfl⟩ | rfl | hval)
      · exact (hvalid e (Or.inl he)).docId
      · exact positionWords_lt hval
      · decide
      · exact (hvalid _ (Or.inr rfl)).docId
      · exact positionWords_lt hval

end TfAndPositionRecorder

/-! ### Subscribing -/

section Subscribe

open LawfulRecorder

variable {R : Type} [Recorder R] [LawfulRecorder R] {w : Bytes} {calls : List (Nat × Nat)}

/-- The recorder has recorded the calls; its last entry is not closed. -/
def Recording (r : R) (w : Bytes) (calls : List (Nat × Nat)) : Prop :=
  ∃ closed last, Open r w closed last ∧ RecordOf calls (closed ++ [last])

/-- A term without calls has no recorder. -/
def Records (optRecorder : Option R) (w : Bytes) (calls : List (Nat × Nat)) : Prop :=
  match optRecorder with
  | some r => Recording r w calls
  | none => w = [] ∧ calls = []

def stackOrNew (optRecorder : Option R) : ExpUnrolledLinkedList :=
  (optRecorder.map stack).getD .new

/-- The first call for a document, behind the entries that are closed. -/
theorem writes_newDoc_recordPosition {r : R} {closed : List DocEntry} {doc : Nat}
    (h : Closed r w closed) (hrecord : RecordOf calls closed)
    (hdoc : ∀ e ∈ closed, e.docId < doc) (position : Nat) :
    Writes stack (stack r) w
      (fun arena => (Recorder.newDoc r doc arena).bind fun written =>
        recordPosition written.1 position written.2)
      fun r w => Recording r w (calls ++ [(doc, position)]) := by
  apply (newDoc_spec doc h).bind (recordPosition · position) fun _ => rfl
  intro r₁ w₁ hopen
  apply (recordPosition_spec position hopen).imp
  intro r₂ w₂ hopen₂
  exact ⟨closed, ⟨doc, [position]⟩, hopen₂, hrecord.next hdoc position⟩

/-- **A call.** Whatever the recorder has recorded, it then has recorded the call as well. -/
theorem subscribe_spec {optRecorder : Option R} (h : Records optRecorder w calls)
    {doc position : Nat} (horder : CallOrder (calls ++ [(doc, position)])) :
    Writes stack (stackOrNew optRecorder) w (Recorder.subscribe optRecorder doc position)
      fun r w => Recording r w (calls ++ [(doc, position)]) := by
  cases optRecorder with
  | none =>
    obtain ⟨rfl, rfl⟩ := h
    have hnone : ∀ e ∈ ([] : List DocEntry), e.docId < doc := by simp
    have hnew := writes_newDoc_recordPosition (closed_default (R := R)) recordOf_nil hnone position
    rwa [stack_default] at hnew
  | some r =>
    obtain ⟨closed, last, hopen, hrecord⟩ := h
    have hcurrent := currentDoc_eq hopen
    -- the call is behind those for the entries that are there
    have hbehind : ∀ e ∈ closed ++ [last], e.docId ≤ doc := by
      intro e he
      obtain ⟨p, hp⟩ := hrecord.exists_mem he
      have hlex := (List.pairwise_append.mp horder).2.2 _ hp _ (List.mem_singleton_self _)
      omega
    by_cases hdoc : last.docId = doc
    · have hsame : Recorder.subscribe (some r) doc position =
          recordPosition r position := by
        funext arena
        simp [Recorder.subscribe, hcurrent, (not_not_intro hdoc)]
      rw [hsame]
      apply (recordPosition_spec position hopen).imp
      intro r' w' hopen'
      refine ⟨closed, _, hopen', ?_⟩
      rw [← hdoc]
      exact hrecord.again position
    · -- documents before the last come before it
      have hlt : ∀ e ∈ closed ++ [last], e.docId < doc := by
        intro e he
        have hlast := hbehind last (by simp)
        rcases List.mem_append.mp he with he' | he'
        · have := (List.pairwise_append.mp hrecord.ascending).2.2 e he' last (by simp)
          omega
        · rw [List.mem_singleton] at he'
          subst he'
          omega
      apply (closeDoc_spec hopen).bind fun r₁ arena =>
        (Recorder.newDoc r₁ doc arena).bind fun written =>
          recordPosition written.1 position written.2
      · intro arena
        simp [Recorder.subscribe, hcurrent, hdoc]
      · intro r₁ w₁ hclosed
        exact writes_newDoc_recordPosition hclosed hrecord hlt position

end Subscribe

/-! ### All terms -/

/-- What is written of an entry, as far as the option of its field keeps it. -/
def IndexRecordOption.writeDoc (mode : IndexRecordOption) (e : DocEntry) : WriteDoc :=
  match mode with
  | .basic => ⟨e.docId, 0, []⟩
  | .withFreqs => ⟨e.docId, e.positions.length, []⟩
  | .withFreqsAndPositions => ⟨e.docId, e.positions.length, gaps 0 e.positions⟩

instance (mode : IndexRecordOption) : LawfulRecorder mode.Rec :=
  match mode with
  | .basic => inferInstanceAs (LawfulRecorder DocIdRecorder)
  | .withFreqs => inferInstanceAs (LawfulRecorder TermFrequencyRecorder)
  | .withFreqsAndPositions => inferInstanceAs (LawfulRecorder TfAndPositionRecorder)

theorem kept_eq_writeDoc (mode : IndexRecordOption) {e : DocEntry}
    (h : e.positions.length < 2 ^ 32) :
    LawfulRecorder.kept (R := mode.Rec) e = mode.writeDoc e := by
  cases mode with
  | basic => rfl
  | withFreqs => exact congrArg (WriteDoc.mk e.docId · []) (Nat.mod_eq_of_lt h)
  | withFreqsAndPositions =>
    exact congrArg (WriteDoc.mk e.docId · (gaps 0 e.positions)) (Nat.mod_eq_of_lt h)

namespace IndexingContext

variable {ι : Type} [DecidableEq ι] {modes : ι → IndexRecordOption}

/-- The documents and positions of the calls for a term. -/
def callsOf (calls : List (Subscribe ι)) (i : ι) : List (Nat × Nat) :=
  (calls.filter fun call => call.term = i).map fun call => (call.doc, call.position)

theorem callsOf_append (xs ys : List (Subscribe ι)) (i : ι) :
    callsOf (xs ++ ys) i = callsOf xs i ++ callsOf ys i := by
  simp [callsOf]

theorem callsOf_singleton_self (call : Subscribe ι) :
    callsOf [call] call.term = [(call.doc, call.position)] := by
  simp [callsOf]

theorem callsOf_singleton_of_ne {call : Subscribe ι} {i : ι} (h : i ≠ call.term) :
    callsOf [call] i = [] := by
  simp [callsOf, Ne.symm h]

/-- Each recorder has recorded the calls for its term, in bytes of its own. -/
def Inv (ctx : IndexingContext modes) (calls : List (Subscribe ι)) : Prop :=
  ∃ ws : ι → Bytes, (⟨ctx.arena, fun i => stackOrNew (ctx.recorders i)⟩ : Lists ι).Inv ws ∧
    ∀ i, Records (ctx.recorders i) (ws i) (callsOf calls i)

theorem inv_new (modes : ι → IndexRecordOption) : (new modes).Inv [] :=
  ⟨fun _ => [], Lists.inv_new, fun _ => ⟨rfl, rfl⟩⟩

variable {ctx : IndexingContext modes}

theorem Inv.subscribe {calls : List (Subscribe ι)} (h : ctx.Inv calls) {call : Subscribe ι}
    (horder : CallOrder (callsOf (calls ++ [call]) call.term)) :
    ∃ ctx', ctx.subscribe call = some ctx' ∧ ctx'.Inv (calls ++ [call]) := by
  obtain ⟨ws, hlists, hrecords⟩ := h
  rw [callsOf_append, callsOf_singleton_self] at horder
  obtain ⟨r, arena, w, hop, hinv, hrecording⟩ :=
    (subscribe_spec (hrecords call.term) horder).run call.term hlists rfl rfl
  refine ⟨_, by simp only [IndexingContext.subscribe, hop]; rfl, Function.update ws call.term w,
    ?_, fun i => ?_⟩
  · have hstacks : (fun i => stackOrNew (Function.update ctx.recorders call.term (some r) i)) =
        Function.update (fun i => stackOrNew (ctx.recorders i)) call.term
          (LawfulRecorder.stack r) := by
      funext i
      exact Function.apply_update (fun i => stackOrNew (R := (modes i).Rec)) ctx.recorders
        call.term (some r) i
    simpa only [hstacks] using hinv
  · by_cases hi : i = call.term
    · subst hi
      simp only [Function.update_self, callsOf_append, callsOf_singleton_self]
      exact hrecording
    · simp only [Function.update_of_ne hi, callsOf_append, callsOf_singleton_of_ne hi,
        List.append_nil]
      exact hrecords i

theorem Inv.run {before : List (Subscribe ι)} (h : ctx.Inv before) (calls : List (Subscribe ι))
    (horder : ∀ i, CallOrder (callsOf (before ++ calls) i)) :
    ∃ ctx', ctx.run calls = some ctx' ∧ ctx'.Inv (before ++ calls) := by
  induction calls generalizing ctx before with
  | nil => exact ⟨ctx, rfl, by rwa [List.append_nil]⟩
  | cons call calls ih =>
    rw [List.append_cons] at horder ⊢
    have hcall : CallOrder (callsOf (before ++ [call]) call.term) := by
      have := horder call.term
      rw [callsOf_append] at this
      exact (List.pairwise_append.mp this).1
    obtain ⟨ctx₁, hsubscribe, hinv⟩ := h.subscribe hcall
    obtain ⟨ctx', hrun, hinv'⟩ := ih hinv horder
    exact ⟨ctx', by rw [IndexingContext.run, hsubscribe]; exact hrun, hinv'⟩

/-- What the recorder of a term writes at the end. -/
theorem Inv.serialize {calls : List (Subscribe ι)} (h : ctx.Inv calls)
    (hmem : ctx.arena.memUsage ≤ 2 ^ 32) {i : ι} (hi : callsOf calls i ≠ [])
    (horder : CallOrder (callsOf calls i))
    (hbound : ∀ call ∈ callsOf calls i, call.1 < 2 ^ 32 ∧ call.2 < 2 ^ 32 - 1) :
    ∃ recorder entries, ctx.recorders i = some recorder ∧
      RecordOf (callsOf calls i) entries ∧
      ∀ docIdMap, serialize recorder ctx.arena docIdMap =
        remapWith docIdMap (entries.map (LawfulRecorder.kept (R := (modes i).Rec))) := by
  obtain ⟨ws, hlists, hrecords⟩ := h
  have hread := hlists.readToEnd hmem i
  have hrecord := hrecords i
  cases hrecorder : ctx.recorders i with
  | none =>
    rw [hrecorder] at hrecord
    exact absurd hrecord.2 hi
  | some recorder =>
    rw [hrecorder] at hrecord
    simp only [hrecorder] at hread
    obtain ⟨closed, last, hopen, hentries⟩ := hrecord
    refine ⟨recorder, closed ++ [last], rfl, hentries, fun docIdMap => ?_⟩
    apply LawfulRecorder.serialize_spec docIdMap hopen _ hread
    exact fun e he => hentries.valid horder hbound he

/-- **Recorders replay what was recorded.** For every sequence of calls in which the documents of
each term come in increasing order and the positions of a document do not decrease, no call fails;
and while the arena has no more than `2 ^ 32` bytes the recorder of a term writes exactly the
documents of its calls, with the frequencies and the gaps of the positions as far as its field
keeps them. With new document ids it writes the same entries under the new ids, in their order. -/
theorem recorders_replay (modes : ι → IndexRecordOption) (calls : List (Subscribe ι))
    (hbound : ∀ call ∈ calls, call.doc < 2 ^ 32 ∧ call.position < 2 ^ 32 - 1)
    (horder : ∀ i, CallOrder (callsOf calls i))
    (hfreq : ∀ i doc, ((callsOf calls i).countP fun call => call.1 = doc) < 2 ^ 32) :
    ∃ ctx, (new modes).run calls = some ctx ∧ (ctx.arena.memUsage ≤ 2 ^ 32 →
      ∀ i, callsOf calls i ≠ [] →
        ∃ recorder entries, ctx.recorders i = some recorder ∧
          RecordOf (callsOf calls i) entries ∧
          serialize recorder ctx.arena none =
            some (entries.map (modes i).writeDoc) ∧
          ∀ newDocIdToOld maxDoc, newDocIdToOld.Perm (List.range maxDoc) → maxDoc < 2 ^ 32 →
            (∀ e ∈ entries, e.docId < maxDoc) →
            ∃ docIdMap writes, DocIdMapping.fromNewIdToOldId newDocIdToOld = some docIdMap ∧
              serialize recorder ctx.arena (some docIdMap) = some writes ∧
              writes.Perm (entries.map fun e =>
                { (modes i).writeDoc e with docId := newDocIdToOld.idxOf e.docId }) ∧
              writes.Pairwise fun a b => a.docId < b.docId) := by
  obtain ⟨ctx, hrun, hinv⟩ := (inv_new modes).run calls horder
  rw [List.nil_append] at hinv
  refine ⟨ctx, hrun, fun hmem i hi => ?_⟩
  have hboundOf : ∀ call ∈ callsOf calls i, call.1 < 2 ^ 32 ∧ call.2 < 2 ^ 32 - 1 := by
    simp only [callsOf, List.mem_map, List.mem_filter]
    rintro _ ⟨call, ⟨hcall, -⟩, rfl⟩
    exact hbound call hcall
  obtain ⟨recorder, entries, hrecorder, hrecord, hserialize⟩ :=
    hinv.serialize hmem hi (horder i) hboundOf
  have hkept : entries.map (LawfulRecorder.kept (R := (modes i).Rec)) =
      entries.map (modes i).writeDoc := by
    apply List.map_congr_left
    intro e he
    exact kept_eq_writeDoc (modes i) (lt_of_le_of_lt (hrecord.length_le he) (hfreq i e.docId))
  rw [hkept] at hserialize
  refine ⟨recorder, entries, hrecorder, hrecord, hserialize none, ?_⟩
  intro newDocIdToOld maxDoc hperm hmax hdocs
  obtain ⟨docIdMap, hmap, hget⟩ := DocIdMapping.fromNewIdToOldId_spec hperm hmax
  have hdocId : ∀ e, ((modes i).writeDoc e).docId = e.docId := by
    intro e
    cases modes i <;> rfl
  have hremap := remap_spec docIdMap (entries.map (modes i).writeDoc)
    newDocIdToOld.idxOf ?_ ?_
  · obtain ⟨writes, hwrites, hperm', hsorted⟩ := hremap
    refine ⟨docIdMap, writes, hmap, (hserialize (some docIdMap)).trans hwrites, ?_, hsorted⟩
    simpa only [List.map_map, Function.comp_def, hdocId] using hperm'
  · simp only [List.mem_map, forall_exists_index, and_imp, forall_apply_eq_imp_iff₂, hdocId]
    exact fun e he => hget e.docId (hdocs e he)
  · -- different documents have different places
    simp only [List.map_map, Function.comp_def, hdocId]
    rw [List.nodup_iff_pairwise_ne, List.pairwise_map]
    apply hrecord.ascending.imp_of_mem
    intro a b ha hb hlt heq
    have hmem : ∀ e ∈ entries, e.docId ∈ newDocIdToOld := fun e he => by
      rw [hperm.mem_iff, List.mem_range]
      exact hdocs e he
    exact hlt.ne ((List.idxOf_inj (hmem a ha)).mp heq)

/-- Three terms, one for each option, in documents 0 and 2 of three. -/
def threeTerms : List (Subscribe IndexRecordOption) :=
  [⟨.basic, 0, 4⟩, ⟨.withFreqs, 0, 4⟩, ⟨.withFreqsAndPositions, 0, 4⟩,
    ⟨.withFreqsAndPositions, 0, 9⟩, ⟨.withFreqs, 2, 1⟩, ⟨.withFreqs, 2, 1⟩, ⟨.basic, 2, 1⟩,
    ⟨.withFreqsAndPositions, 2, 1⟩]

/-- With the documents in the opposite order. -/
theorem recorders_replay_three :
    ∃ ctx, (new id).run threeTerms = some ctx ∧ (ctx.arena.memUsage ≤ 2 ^ 32 →
      ∀ mode, ∃ recorder entries docIdMap writes, ctx.recorders mode = some recorder ∧
        RecordOf (callsOf threeTerms mode) entries ∧
        serialize recorder ctx.arena none = some (entries.map mode.writeDoc) ∧
        DocIdMapping.fromNewIdToOldId [2, 1, 0] = some docIdMap ∧
        serialize recorder ctx.arena (some docIdMap) = some writes ∧
        writes.Pairwise fun a b => a.docId < b.docId) := by
  obtain ⟨ctx, hrun, hreplay⟩ := recorders_replay id threeTerms (by decide)
    (fun mode => by
      show List.Pairwise _ _
      cases mode <;> decide)
    (fun mode doc => by
      have hle : (callsOf threeTerms mode).length ≤ 8 := by cases mode <;> decide
      exact lt_of_le_of_lt List.countP_le_length (lt_of_le_of_lt hle (by decide)))
  refine ⟨ctx, hrun, fun hmem mode => ?_⟩
  obtain ⟨recorder, entries, hrecorder, hrecord, hserialize, hremap⟩ :=
    hreplay hmem mode (by cases mode <;> decide)
  have hdocs : ∀ e ∈ entries, e.docId < 3 := by
    intro e he
    obtain ⟨position, hmem⟩ := hrecord.exists_mem he
    have hall : ∀ call ∈ callsOf threeTerms mode, call.1 < 3 := by cases mode <;> decide
    exact hall _ hmem
  obtain ⟨docIdMap, writes, hmap, hwrites, -, hsorted⟩ :=
    hremap [2, 1, 0] 3 (by decide) (by decide) hdocs
  exact ⟨recorder, entries, docIdMap, writes, hrecorder, hrecord, hserialize, hmap, hwrites,
    hsorted⟩

/-! ### A document with too many positions -/

/-- A few bytes in a new list do not need the arena. -/
theorem extendFromSlice_short (arena : MemoryArena) (buf : Bytes) (hpos : buf ≠ [])
    (hlen : buf.length ≤ 16) :
    ∃ eull, ExpUnrolledLinkedList.new.extendFromSlice arena buf = some (eull, arena) := by
  have hfits : ExpUnrolledLinkedList.new.Fits arena := fun h => absurd h (Nat.not_lt_zero _)
  obtain ⟨eull, arena', addLen, hfill, hadd, -, hfilled⟩ :=
    ExpUnrolledLinkedList.fill_spec hfits buf
  have hcap : (lenToCapacity ExpUnrolledLinkedList.new.len.toNat).bytes = 16 := by decide
  obtain rfl : addLen = buf.length := by omega
  have harena : arena' = arena := by
    cases hfilled with
    | inlined _ _ harena => exact harena
    | firstBlock hlen => cases hlen
    | inBlock hlen => exact absurd hlen (Nat.not_lt_zero _)
    | newBlock hlen => exact absurd hlen (Nat.not_lt_zero _)
  subst harena
  refine ⟨eull, ?_⟩
  rw [ExpUnrolledLinkedList.extendFromSlice_of_fill hpos hfill, List.drop_length,
    ExpUnrolledLinkedList.extendFromSlice_nil]

/-- A call for document 0 that comes again and again, for a term that has frequencies. -/
def sameCall : Subscribe Unit := ⟨(), 0, 0⟩

abbrev FrequencyContext := IndexingContext fun _ : Unit => .withFreqs

/-- Document 0 is at hand. -/
def AtDoc (ctx : FrequencyContext) : Prop :=
  ∃ r : TermFrequencyRecorder, ctx.recorders () = some r ∧ r.currentDoc = 0

theorem AtDoc.subscribe {ctx : FrequencyContext} (h : AtDoc ctx) :
    ∃ ctx', ctx.subscribe sameCall = some ctx' ∧ ctx'.arena = ctx.arena ∧ AtDoc ctx' := by
  obtain ⟨r, hr, hdoc⟩ := h
  have hop : Recorder.subscribe (some r) 0 0 ctx.arena =
      some ({ r with currentTf := (r.currentTf + 1) % 2 ^ 32 }, ctx.arena) := by
    exact if_neg (not_not_intro hdoc)
  refine ⟨⟨ctx.arena, Function.update ctx.recorders ()
    (some { r with currentTf := (r.currentTf + 1) % 2 ^ 32 })⟩, ?_, rfl, ?_⟩
  · show (Recorder.subscribe (ctx.recorders ()) 0 0 ctx.arena).bind _ = _
    simp [hr, hop]
  · exact ⟨{ r with currentTf := (r.currentTf + 1) % 2 ^ 32 }, rfl, hdoc⟩

theorem AtDoc.run (n : Nat) {ctx : FrequencyContext} (h : AtDoc ctx) :
    ∃ ctx', ctx.run (List.replicate n sameCall) = some ctx' ∧ ctx'.arena = ctx.arena := by
  induction n generalizing ctx with
  | zero => exact ⟨ctx, rfl, rfl⟩
  | succ n ih =>
    obtain ⟨ctx₁, hsubscribe, harena, hat⟩ := h.subscribe
    obtain ⟨ctx', hrun, harena'⟩ := ih hat
    refine ⟨ctx', ?_, harena'.trans harena⟩
    rw [List.replicate_succ, IndexingContext.run, hsubscribe]
    exact hrun

/-- The first call writes the document to the list of the term itself. -/
theorem subscribe_new : ∃ ctx : FrequencyContext,
    (new _).subscribe sameCall = some ctx ∧ ctx.arena = MemoryArena.new ∧ AtDoc ctx := by
  obtain ⟨eull, hwrite⟩ := extendFromSlice_short MemoryArena.new (serializeVintU32 0)
    (by decide) (by decide)
  refine ⟨⟨MemoryArena.new, Function.update (fun _ => none) ()
    (some (TermFrequencyRecorder.mk eull 0 1 1))⟩, ?_, rfl, ?_⟩
  · have hnew : TermFrequencyRecorder.default.newDoc 0 MemoryArena.new =
        some (TermFrequencyRecorder.mk eull 0 0 1, MemoryArena.new) := by
      show (ExpUnrolledLinkedList.new.extendFromSlice _ _).bind _ = _
      rw [hwrite]
      rfl
    show (((TermFrequencyRecorder.default.newDoc 0 MemoryArena.new).bind _).bind _) = _
    rw [hnew]
    rfl
  · exact ⟨TermFrequencyRecorder.mk eull 0 1 1, rfl, rfl⟩

theorem callsOf_replicate (n : Nat) :
    callsOf (List.replicate n sameCall) () = List.replicate n (0, 0) := by
  simp [callsOf, sameCall]

theorem callOrder_replicate (n : Nat) : CallOrder (List.replicate n (0, 0)) := by
  simp [CallOrder]

/-- Calls for one document make one entry. -/
theorem recordOf_replicate {n : Nat} {entries : List DocEntry}
    (h : RecordOf (List.replicate (n + 1) (0, 0)) entries) :
    ∃ e, entries = [e] ∧ e.positions.length = n + 1 := by
  have hdoc : ∀ e ∈ entries, e.docId = 0 := by
    intro e he
    obtain ⟨position, hmem⟩ := h.exists_mem he
    exact congrArg Prod.fst (List.eq_of_mem_replicate hmem)
  have hcalls := congrArg List.length h.calls_eq
  rcases entries with _ | ⟨e, _ | ⟨e', entries⟩⟩
  · cases hcalls
  · simpa using hcalls
  · have hlt := (List.pairwise_cons.mp h.ascending).1 e' (by simp)
    rw [hdoc e (by simp), hdoc e' (by simp)] at hlt
    exact absurd hlt (Nat.lt_irrefl 0)

/-- A term that occurs `2 ^ 32` times in a document is written with another frequency: the one that
is kept is 0. -/
theorem recorders_frequency_wraps : ∃ ctx : FrequencyContext,
    (new _).run (List.replicate (2 ^ 32) sameCall) = some ctx ∧ ctx.arena.memUsage ≤ 2 ^ 32 ∧
      CallOrder (callsOf (List.replicate (2 ^ 32) sameCall) ()) ∧
      ∀ recorder entries, ctx.recorders () = some recorder →
        RecordOf (callsOf (List.replicate (2 ^ 32) sameCall) ()) entries →
        serialize recorder ctx.arena none ≠
          some (entries.map IndexRecordOption.withFreqs.writeDoc) := by
  obtain ⟨n, hn⟩ : ∃ n, 2 ^ 32 = n + 1 := ⟨2 ^ 32 - 1, rfl⟩
  obtain ⟨ctx₁, hsubscribe, harena₁, hat⟩ := subscribe_new
  obtain ⟨ctx, hrest, harena⟩ := hat.run n
  have hrun : (new _).run (List.replicate (n + 1) sameCall) = some ctx := by
    rw [List.replicate_succ, IndexingContext.run, hsubscribe]
    exact hrest
  have hmem : ctx.arena.memUsage ≤ 2 ^ 32 := by
    rw [harena, harena₁]
    decide
  have horder : ∀ i, CallOrder (callsOf (List.replicate (n + 1) sameCall) i) := fun i => by
    rw [callsOf_replicate]
    exact callOrder_replicate _
  rw [hn]
  refine ⟨ctx, hrun, by rwa [← hn], horder (), ?_⟩
  obtain ⟨ctx', hrun', hinv⟩ := (inv_new _).run (List.replicate (n + 1) sameCall) horder
  rw [hrun] at hrun'
  cases hrun'
  obtain ⟨recorder, kept, hrecorder, -, hserialize⟩ := hinv.serialize hmem (i := ())
    (by rw [List.nil_append, callsOf_replicate]; exact List.cons_ne_nil _ _) (horder ())
    (by
      rw [List.nil_append, callsOf_replicate]
      intro call hcall
      rw [List.eq_of_mem_replicate hcall]
      decide)
  intro recorder' entries hrecorder' hrecord heq
  rw [hrecorder] at hrecorder'
  cases hrecorder'
  rw [callsOf_replicate] at hrecord
  obtain ⟨e, rfl, hlen⟩ := recordOf_replicate hrecord
  rw [hserialize] at heq
  -- the frequency that is kept has 32 bits
  have hmem : IndexRecordOption.withFreqs.writeDoc e ∈
      kept.map (LawfulRecorder.kept (R := TermFrequencyRecorder)) := by
    rw [show kept.map _ = [IndexRecordOption.withFreqs.writeDoc e] from Option.some.inj heq]
    exact List.mem_singleton_self _
  obtain ⟨e', -, he'⟩ := List.mem_map.mp hmem
  have hfreq : e'.positions.length % 2 ^ 32 = e.positions.length :=
    congrArg WriteDoc.termFreq he'
  omega

end IndexingContext

end TeaclaveCrates.Tantivy
