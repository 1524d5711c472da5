import TeaclaveCrates.Lib.Slice

namespace TeaclaveCrates.Csv

open Lib

/-!
# Byte records

`byte_record.rs`: the fields of a record stand one behind the other in a buffer, and their ends in
a second one. Both buffers can be longer than what they hold, and keep what was in them before.

* `Bounds`, `ByteRecordInner` — the two buffers; `none` stands for an index out of bounds.
* `ByteRecordIter` — the iterator, which goes on from both ends.
* `Holds` — the record holds a list of fields.
* `runOps_refines` — after any operations the record holds the list that they give on lists, and an
  iterator over it yields each field once, from whichever ends it is asked.
-/

/-! ### The code -/

/-- `Bounds` -/
structure Bounds where
  ends : List Nat
  len : Nat
  deriving DecidableEq, Repr

namespace Bounds

/-- `with_capacity` -/
def withCapacity (capacity : Nat) : Bounds := ⟨List.replicate capacity 0, 0⟩

/-- `get` -/
def get (b : Bounds) (i : Nat) : Option (Nat × Nat) :=
  if b.len ≤ i then none
  else
    match b.ends[i]? with
    | none => none
    | some «end» =>
      -- the field before it ends where this one starts
      let start := if i = 0 then 0 else (b.ends[i - 1]?).getD 0
      some (start, «end»)

/-- `ends`: the part of the buffer that is in use. -/
def used (b : Bounds) : Option (List Nat) := slice? b.ends 0 b.len

/-- `end` -/
def «end» (b : Bounds) : Option Nat := b.used.map fun ends => ends.getLast?.getD 0

/-- `expand` -/
def expand (b : Bounds) : Bounds :=
  { b with ends := b.ends ++ List.replicate (max 4 (b.ends.length * 2) - b.ends.length) 0 }

/-- `add` -/
def add (b : Bounds) (pos : Nat) : Option Bounds :=
  let b := if b.ends.length ≤ b.len then b.expand else b
  if b.len < b.ends.length then some ⟨b.ends.set b.len pos, b.len + 1⟩ else none

end Bounds

/-- `ByteRecordInner`, without the position. -/
structure ByteRecordInner where
  fields : List UInt8
  bounds : Bounds
  deriving DecidableEq, Repr

/-- The loop of `push_field` that calls `expand_fields`. -/
def expandFieldsTo (e : Nat) (fields : List UInt8) : List UInt8 :=
  if fields.length < e then
    expandFieldsTo e
      (fields ++ List.replicate (max 4 (fields.length * 2) - fields.length) 0)
  else fields
termination_by e - fields.length
decreasing_by
  rw [List.length_append, List.length_replicate]
  omega

namespace ByteRecordInner

/-- `with_capacity` -/
def withCapacity (buffer fields : Nat) : ByteRecordInner :=
  ⟨List.replicate buffer 0, Bounds.withCapacity fields⟩

/-- `len` -/
def len (r : ByteRecordInner) : Nat := r.bounds.len

/-- `truncate` -/
def truncate (r : ByteRecordInner) (n : Nat) : ByteRecordInner :=
  if n ≤ r.len then { r with bounds := { r.bounds with len := n } } else r

/-- `clear` -/
def clear (r : ByteRecordInner) : ByteRecordInner := r.truncate 0

/-- `push_field` -/
def pushField (r : ByteRecordInner) (field : List UInt8) : Option ByteRecordInner := do
  let s ← r.bounds.end
  let e := s + field.length
  let fields ← overwrite? (expandFieldsTo e r.fields) s field
  let bounds ← r.bounds.add e
  some ⟨fields, bounds⟩

/-- `range` -/
def range (r : ByteRecordInner) (i : Nat) : Option (Nat × Nat) := r.bounds.get i

/-- `get`: the field, if there is one. -/
def get (r : ByteRecordInner) (i : Nat) : Option (Option (List UInt8)) :=
  match r.bounds.get i with
  | none => some none
  | some (start, «end») => (slice? r.fields start «end»).map some

/-- `as_slice` -/
def asSlice (r : ByteRecordInner) : Option (List UInt8) := do
  let e ← r.bounds.end
  slice? r.fields 0 e

end ByteRecordInner

/-- `ByteRecordIter` -/
structure ByteRecordIter where
  r : ByteRecordInner
  lastStart : Nat
  lastEnd : Nat
  iForward : Nat
  iReverse : Nat
  deriving DecidableEq, Repr

/-- `into_iter` -/
def ByteRecordInner.iter (r : ByteRecordInner) : Option ByteRecordIter :=
  r.asSlice.map fun slice => ⟨r, slice.length, 0, 0, r.len⟩

namespace ByteRecordIter

/-- `next` -/
def next (it : ByteRecordIter) : Option (ByteRecordIter × Option (List UInt8)) :=
  if it.iForward = it.iReverse then some (it, none)
  else do
    let ends ← it.r.bounds.used
    let e ← ends[it.iForward]?
    let field ← slice? it.r.fields it.lastEnd e
    some ({ it with iForward := it.iForward + 1, lastEnd := e }, some field)

/-- Where the field at `i` starts, as `next_back` looks it up. -/
def backStart (it : ByteRecordIter) : Nat → Option Nat
  | 0 => some 0
  | i + 1 => it.r.bounds.used.bind fun ends => ends[i]?

/-- `next_back` -/
def nextBack (it : ByteRecordIter) : Option (ByteRecordIter × Option (List UInt8)) :=
  if it.iForward = it.iReverse then some (it, none)
  else if it.iReverse = 0 then none
  else do
    let iReverse := it.iReverse - 1
    let start ← it.backStart iReverse
    let field ← slice? it.r.fields start it.lastStart
    some ({ it with iReverse := iReverse, lastStart := start }, some field)

/-- `size_hint`; the subtraction must not overflow. -/
def sizeHint (it : ByteRecordIter) : Option (Nat × Option Nat) :=
  if it.iForward ≤ it.iReverse then
    some (it.iReverse - it.iForward, some (it.iReverse - it.iForward))
  else none

end ByteRecordIter

/-! ### Fields one behind the other -/

/-- Where field `i` starts. -/
def offset (fs : List (List UInt8)) (i : Nat) : Nat := (fs.take i).flatten.length

variable {i : Nat}

theorem offset_succ {fs : List (List UInt8)} (h : i < fs.length) :
    offset fs (i + 1) = offset fs i + fs[i].length := by
  unfold offset
  rw [List.take_succ_eq_append_getElem h, List.flatten_append, List.length_append,
    List.flatten_singleton]

theorem offset_length (fs : List (List UInt8)) : offset fs fs.length = fs.flatten.length := by
  rw [offset, List.take_length]

theorem offset_le (fs : List (List UInt8)) (i : Nat) : offset fs i ≤ fs.flatten.length := by
  have hsplit := congrArg (fun l => (List.flatten l).length) (List.take_append_drop i fs)
  simp only [List.flatten_append, List.length_append] at hsplit
  unfold offset
  omega

theorem offset_take {fs : List (List UInt8)} {n : Nat} (h : i ≤ n) :
    offset (fs.take n) i = offset fs i := by
  simp [offset, List.take_take, Nat.min_eq_left h]

theorem offset_append {fs : List (List UInt8)} (gs : List (List UInt8)) (h : i ≤ fs.length) :
    offset (fs ++ gs) i = offset fs i := by
  simp [offset, List.take_append_of_le_length h]

/-- A field is what stands between its start and its end. -/
theorem slice_flatten {fs : List (List UInt8)} (h : i < fs.length) (rest : List UInt8) :
    slice (fs.flatten ++ rest) (offset fs i) (offset fs (i + 1)) = fs[i] := by
  have hsplit : fs.flatten ++ rest =
      (fs.take i).flatten ++ (fs[i] ++ ((fs.drop (i + 1)).flatten ++ rest)) := by
    conv_lhs => rw [← List.take_append_drop i fs, List.drop_eq_getElem_cons h]
    simp only [List.flatten_append, List.flatten_cons, List.append_assoc]
  rw [offset_succ h, hsplit]
  simp [slice, offset]

/-- **The record holds the fields.** Behind them the buffers may hold anything. -/
structure Holds (r : ByteRecordInner) (fs : List (List UInt8)) : Prop where
  len : r.bounds.len = fs.length
  length_le : fs.length ≤ r.bounds.ends.length
  ends : ∀ i < fs.length, r.bounds.ends[i]? = some (offset fs (i + 1))
  bytes : fs.flatten <+: r.fields

namespace Holds

variable {r : ByteRecordInner} {fs : List (List UInt8)}

theorem used (h : Holds r fs) : r.bounds.used = some (r.bounds.ends.take fs.length) := by
  have hle := h.length_le
  unfold Bounds.used
  rw [h.len, slice?_eq (Nat.zero_le _) hle]
  rfl

theorem used_getElem (h : Holds r fs) {i : Nat} (hi : i < fs.length) :
    (r.bounds.ends.take fs.length)[i]? = some (offset fs (i + 1)) := by
  rw [List.getElem?_take_of_lt hi, h.ends i hi]

theorem «end» (h : Holds r fs) : r.bounds.end = some fs.flatten.length := by
  unfold Bounds.end
  rw [h.used, Option.map_some, Option.some.injEq]
  rcases Nat.eq_zero_or_pos fs.length with hzero | hpos
  · simp [List.length_eq_zero_iff.mp hzero]
  · have hlast : (r.bounds.ends.take fs.length).getLast? = some (offset fs fs.length) := by
      rw [List.getLast?_eq_getElem?, List.length_take, Nat.min_eq_left h.length_le,
        h.used_getElem (by omega), Nat.sub_add_cancel hpos]
    simp [hlast, offset_length]

theorem length_bytes (h : Holds r fs) : fs.flatten.length ≤ r.fields.length := h.bytes.length_le

/-- Indexing the buffer by the bounds of a field gives the field. -/
theorem slice_field (h : Holds r fs) {i : Nat} (hi : i < fs.length) :
    slice? r.fields (offset fs i) (offset fs (i + 1)) = some fs[i] := by
  have hle := Nat.le_trans (offset_le fs (i + 1)) h.length_bytes
  have hstart : offset fs i ≤ offset fs (i + 1) := by
    rw [offset_succ hi]
    omega
  obtain ⟨rest, hrest⟩ := h.bytes
  rw [slice?_eq hstart hle, ← hrest, slice_flatten hi]

theorem asSlice (h : Holds r fs) : r.asSlice = some fs.flatten := by
  unfold ByteRecordInner.asSlice
  rw [h.end]
  show slice? r.fields 0 fs.flatten.length = _
  rw [slice?_eq (Nat.zero_le _) h.length_bytes]
  obtain ⟨rest, hrest⟩ := h.bytes
  rw [← hrest]
  simp [slice]

theorem range (h : Holds r fs) (i : Nat) :
    r.range i = if i < fs.length then some (offset fs i, offset fs (i + 1)) else none := by
  unfold ByteRecordInner.range Bounds.get
  rw [h.len]
  by_cases hi : i < fs.length
  · rw [if_neg (by omega), if_pos hi, h.ends i hi]
    cases i with
    | zero => rfl
    | succ i =>
      have hprev := h.ends i (by omega)
      simp [hprev]
  · simp [hi]

theorem get (h : Holds r fs) (i : Nat) : r.get i = some fs[i]? := by
  have hrange := h.range i
  unfold ByteRecordInner.range at hrange
  unfold ByteRecordInner.get
  rw [hrange]
  by_cases hi : i < fs.length
  · rw [if_pos hi]
    show (slice? r.fields (offset fs i) (offset fs (i + 1))).map some = _
    simp [h.slice_field hi, List.getElem?_eq_getElem hi]
  · rw [if_neg hi, List.getElem?_eq_none (by omega)]

end Holds

/-! ### Operations -/

theorem holds_withCapacity (buffer fields : Nat) :
    Holds (ByteRecordInner.withCapacity buffer fields) [] :=
  ⟨rfl, Nat.zero_le _, fun i hi => absurd hi (Nat.not_lt_zero i), List.nil_prefix⟩

theorem Holds.truncate {r : ByteRecordInner} {fs : List (List UInt8)} (h : Holds r fs) (n : Nat) :
    Holds (r.truncate n) (fs.take n) := by
  unfold ByteRecordInner.truncate ByteRecordInner.len
  rw [h.len]
  by_cases hn : n ≤ fs.length
  · rw [if_pos hn]
    have hlen : (fs.take n).length = n := List.length_take_of_le hn
    refine ⟨hlen.symm, ?_, fun i hi => ?_, ?_⟩
    · rw [hlen]
      exact Nat.le_trans hn h.length_le
    · rw [offset_take (by omega)]
      exact h.ends i (by omega)
    · -- the bytes of the dropped fields stay in the buffer
      have hkept : (fs.take n).flatten <+: fs.flatten :=
        ⟨(fs.drop n).flatten, by rw [← List.flatten_append, List.take_append_drop]⟩
      exact hkept.trans h.bytes
  · rw [if_neg hn, List.take_of_length_le (by omega)]
    exact h

theorem expandFieldsTo_spec (e : Nat) (fields : List UInt8) :
    fields <+: expandFieldsTo e fields ∧ e ≤ (expandFieldsTo e fields).length := by
  fun_induction expandFieldsTo e fields with
  | case1 fields hlt ih => exact ⟨(List.prefix_append _ _).trans ih.1, ih.2⟩
  | case2 fields hge => exact ⟨List.prefix_rfl, by omega⟩

/-- The ends with one more. -/
theorem Bounds.add_spec (b : Bounds) (pos : Nat) (h : b.len ≤ b.ends.length) :
    ∃ ends, b.add pos = some ⟨ends, b.len + 1⟩ ∧ b.len + 1 ≤ ends.length ∧
      ends[b.len]? = some pos ∧ ∀ i < b.len, ends[i]? = b.ends[i]? := by
  have hstore : ∀ l : List Nat, b.len < l.length → (∀ i < b.len, l[i]? = b.ends[i]?) →
      b.len + 1 ≤ (l.set b.len pos).length ∧ (l.set b.len pos)[b.len]? = some pos ∧
        ∀ i < b.len, (l.set b.len pos)[i]? = b.ends[i]? := by
    intro l hl hsame
    refine ⟨?_, ?_, fun i hi => ?_⟩
    · rw [List.length_set]
      omega
    · rw [List.getElem?_set_self hl]
    · rw [List.getElem?_set_ne (by omega), hsame i hi]
  unfold Bounds.add
  by_cases hfull : b.ends.length ≤ b.len
  · have hroom : b.len < b.expand.ends.length := by
      simp only [Bounds.expand, List.length_append, List.length_replicate]
      omega
    simp only [if_pos hfull]
    refine ⟨b.expand.ends.set b.len pos, if_pos hroom, hstore b.expand.ends hroom fun i hi => ?_⟩
    exact List.getElem?_append_left (by omega)
  · simp only [if_neg hfull]
    exact ⟨b.ends.set b.len pos, if_pos (by omega), hstore b.ends (by omega) fun i _ => rfl⟩

theorem Holds.pushField {r : ByteRecordInner} {fs : List (List UInt8)} (h : Holds r fs)
    (field : List UInt8) : ∃ r', r.pushField field = some r' ∧ Holds r' (fs ++ [field]) := by
  have hflat : (fs ++ [field]).flatten = fs.flatten ++ field := by
    simp
  obtain ⟨hkept, hroom⟩ := expandFieldsTo_spec (fs.flatten.length + field.length) r.fields
  obtain ⟨ends, hadd, hlen, hlast, hbefore⟩ :=
    r.bounds.add_spec (fs.flatten.length + field.length) (by rw [h.len]; exact h.length_le)
  rw [h.len] at hadd hlen hlast hbefore
  refine ⟨⟨overwrite (expandFieldsTo (fs.flatten.length + field.length) r.fields)
    fs.flatten.length field, ⟨ends, fs.length + 1⟩⟩, ?_, ?_, ?_, ?_, ?_⟩
  · unfold ByteRecordInner.pushField
    rw [h.end]
    show (overwrite? (expandFieldsTo (fs.flatten.length + field.length) r.fields)
      fs.flatten.length field >>= _) = _
    rw [overwrite?_eq hroom]
    rw [hadd]
    rfl
  · simp
  · simpa using hlen
  · intro i hi
    rw [List.length_append, List.length_singleton] at hi
    -- the ends of the earlier fields stay, the new one is the length of all
    by_cases hlt : i < fs.length
    · rw [hbefore i hlt, h.ends i hlt, offset_append _ (by omega)]
    · obtain rfl : i = fs.length := by omega
      have hall : offset (fs ++ [field]) (fs.length + 1) = fs.flatten.length + field.length := by
        have := offset_length (fs ++ [field])
        rw [List.length_append, List.length_singleton, hflat, List.length_append] at this
        exact this
      rw [hlast, hall]
  · -- what was in front of the new field stays there
    obtain ⟨rest, hrest⟩ := h.bytes.trans hkept
    rw [hflat, ← hrest]
    unfold overwrite
    rw [List.take_left]
    exact List.prefix_append _ _

/-! ### Iteration from both ends -/

/-- The iterator has still to yield the fields from `lo` on, up to `hi`. -/
structure IterAt (it : ByteRecordIter) (fs : List (List UInt8)) (lo hi : Nat) : Prop where
  holds : Holds it.r fs
  le : lo ≤ hi
  hi_le : hi ≤ fs.length
  forward : it.iForward = lo
  reverse : it.iReverse = hi
  lastEnd : it.lastEnd = offset fs lo
  lastStart : it.lastStart = offset fs hi

theorem Holds.iter {r : ByteRecordInner} {fs : List (List UInt8)} (h : Holds r fs) :
    ∃ it, r.iter = some it ∧ IterAt it fs 0 fs.length := by
  refine ⟨⟨r, fs.flatten.length, 0, 0, r.len⟩, ?_, h, Nat.zero_le _, Nat.le_refl _,
    rfl, h.len, rfl, ?_⟩
  · simp [ByteRecordInner.iter, h.asSlice]
  · rw [offset_length]

namespace IterAt

variable {it : ByteRecordIter} {fs : List (List UInt8)} {lo hi : Nat}

theorem sizeHint (h : IterAt it fs lo hi) : it.sizeHint = some (hi - lo, some (hi - lo)) := by
  simp [ByteRecordIter.sizeHint, h.forward, h.reverse, h.le]

theorem next (h : IterAt it fs lo hi) (hlt : lo < hi) :
    ∃ it', it.next = some (it', fs[lo]?) ∧ IterAt it' fs (lo + 1) hi := by
  have hlo : lo < fs.length := by
    have := h.hi_le
    omega
  refine ⟨{ it with iForward := lo + 1, lastEnd := offset fs (lo + 1) }, ?_, h.holds, by omega,
    h.hi_le, rfl, h.reverse, rfl, h.lastStart⟩
  unfold ByteRecordIter.next
  rw [if_neg (by rw [h.forward, h.reverse]; omega), h.holds.used]
  show ((it.r.bounds.ends.take fs.length)[it.iForward]? >>= _) = _
  rw [h.forward, h.holds.used_getElem hlo]
  show (slice? it.r.fields it.lastEnd (offset fs (lo + 1)) >>= _) = _
  simp [h.lastEnd, h.holds.slice_field hlo, List.getElem?_eq_getElem hlo]

theorem backStart (h : IterAt it fs lo hi) {i : Nat} (hi' : i < fs.length) :
    it.backStart i = some (offset fs i) := by
  cases i with
  | zero => rfl
  | succ i =>
    show (it.r.bounds.used.bind fun ends => ends[i]?) = _
    rw [h.holds.used, Option.bind_some, h.holds.used_getElem (by omega)]

theorem nextBack (h : IterAt it fs lo hi) (hlt : lo < hi) :
    ∃ it', it.nextBack = some (it', fs[hi - 1]?) ∧ IterAt it' fs lo (hi - 1) := by
  have hlast : hi - 1 < fs.length := by
    have := h.hi_le
    omega
  have hfield := h.holds.slice_field hlast
  rw [Nat.sub_add_cancel (by omega)] at hfield
  refine ⟨{ it with iReverse := hi - 1, lastStart := offset fs (hi - 1) }, ?_, h.holds, by omega,
    by omega, h.forward, rfl, h.lastEnd, rfl⟩
  unfold ByteRecordIter.nextBack
  rw [if_neg (by rw [h.forward, h.reverse]; omega), if_neg (by rw [h.reverse]; omega)]
  dsimp only
  rw [h.reverse, h.backStart hlast]
  show (slice? it.r.fields (offset fs (hi - 1)) it.lastStart >>= _) = _
  simp [h.lastStart, hfield, List.getElem?_eq_getElem hlast]

/-- Nothing is left. -/
theorem done (h : IterAt it fs lo lo) : it.next = some (it, none) ∧ it.nextBack = some (it,
    none) := by
  have heq : it.iForward = it.iReverse := by rw [h.forward, h.reverse]
  unfold ByteRecordIter.next ByteRecordIter.nextBack
  rw [if_pos heq, if_pos heq]
  exact ⟨rfl, rfl⟩

end IterAt

/-- A call of the iterator. -/
inductive IterCall
  | next
  | nextBack
  deriving DecidableEq, Repr

/-- What a sequence of calls yields: the items from the front, those from the back, and the size
    hint behind each call. -/
structure Yielded where
  front : List (List UInt8)
  back : List (List UInt8)
  hints : List (Nat × Option Nat)
  deriving DecidableEq, Repr

/-- One call after the other. -/
def ByteRecordIter.run : ByteRecordIter → List IterCall → Option Yielded
  | _, [] => some ⟨[], [], []⟩
  | it, call :: calls => do
    let (it, item) ← match call with
      | .next => it.next
      | .nextBack => it.nextBack
    let hint ← it.sizeHint
    let rest ← it.run calls
    match call with
    | .next => some ⟨item.toList ++ rest.front, rest.back, hint :: rest.hints⟩
    | .nextBack => some ⟨rest.front, item.toList ++ rest.back, hint :: rest.hints⟩

/-- The size hints that are right: one field less behind each call, until none is left. -/
def remaining (n : Nat) : List IterCall → List (Nat × Option Nat)
  | [] => []
  | _ :: calls => (n - 1, some (n - 1)) :: remaining (n - 1) calls

/-- **Every field once.** What comes from the front, what is left and what comes from the back,
    turned around, are the fields; a call yields nothing only when none is left. -/
theorem IterAt.run {it : ByteRecordIter} {fs : List (List UInt8)} {lo hi : Nat}
    (h : IterAt it fs lo hi) (calls : List IterCall) :
    ∃ y rest, it.run calls = some y ∧ y.front ++ rest ++ y.back.reverse = slice fs lo hi ∧
      rest.length = hi - lo - calls.length ∧ y.hints = remaining (hi - lo) calls := by
  induction calls generalizing it lo hi with
  | nil =>
    refine ⟨⟨[], [], []⟩, slice fs lo hi, rfl, ?_, length_slice h.hi_le, rfl⟩
    simp
  | cons call calls ih =>
    by_cases hlt : lo < hi
    · cases call with
      | next =>
        obtain ⟨it', hnext, h'⟩ := h.next hlt
        obtain ⟨y, rest, hrun, hall, hrest, hhints⟩ := ih h'
        have hlo : lo < fs.length := Nat.lt_of_lt_of_le hlt h.hi_le
        refine ⟨⟨fs[lo] :: y.front, y.back, (hi - (lo + 1), some (hi - (lo + 1))) :: y.hints⟩, rest,
          ?_, ?_, ?_, ?_⟩
        · simp [ByteRecordIter.run, hnext, List.getElem?_eq_getElem hlo, h'.sizeHint, hrun]
        · -- the first of the fields that are left, and what the later calls yield
          rw [List.cons_append, List.cons_append, hall]
          unfold slice
          rw [List.drop_eq_getElem_cons hlo, show hi - lo = hi - (lo + 1) + 1 by omega,
            List.take_succ_cons]
        · rw [hrest, List.length_cons]
          omega
        · rw [hhints, remaining, Nat.sub_sub]
      | nextBack =>
        obtain ⟨it', hback, h'⟩ := h.nextBack hlt
        obtain ⟨y, rest, hrun, hall, hrest, hhints⟩ := ih h'
        have hlast : hi - 1 < fs.length := by
          have := h.hi_le
          omega
        refine ⟨⟨y.front, fs[hi - 1] :: y.back, (hi - 1 - lo, some (hi - 1 - lo)) :: y.hints⟩, rest,
          ?_, ?_, ?_, ?_⟩
        · simp [ByteRecordIter.run, hback, List.getElem?_eq_getElem hlast, h'.sizeHint, hrun]
        -- the last of them, behind what the later calls yield
        · rw [List.reverse_cons, ← List.append_assoc, hall]
          simp [slice, show hi - lo = hi - 1 - lo + 1 by omega, List.take_add_one,
            show lo + (hi - 1 - lo) = hi - 1 by omega, List.getElem?_eq_getElem hlast]
        · rw [hrest, List.length_cons]
          omega
        · rw [hhints, remaining, show hi - lo - 1 = hi - 1 - lo by omega]
    -- nothing is left, and both ends say so
    · obtain rfl : lo = hi := Nat.le_antisymm h.le (by omega)
      obtain ⟨hnext, hback⟩ := h.done
      obtain ⟨y, rest, hrun, hall, hrest, hhints⟩ := ih h
      have hhint := h.sizeHint
      refine ⟨⟨y.front, y.back, (lo - lo, some (lo - lo)) :: y.hints⟩, rest, ?_, hall, ?_, ?_⟩
      · unfold ByteRecordIter.run
        cases call with
        | next =>
          simp [hnext, hhint, hrun]
        | nextBack =>
          simp [hback, hhint, hrun]
      · omega
      · rw [hhints, remaining, show lo - lo - 1 = lo - lo by omega]

/-! ### Any operations -/

/-- A change of a record. -/
inductive RecordOp
  | pushField (field : List UInt8)
  | truncate (n : Nat)
  | clear
  deriving DecidableEq, Repr

/-- The change, on a record. -/
def RecordOp.run (r : ByteRecordInner) : RecordOp → Option ByteRecordInner
  | .pushField field => r.pushField field
  | .truncate n => some (r.truncate n)
  | .clear => some r.clear

/-- The change, on a plain list. -/
def RecordOp.onList (fs : List (List UInt8)) : RecordOp → List (List UInt8)
  | .pushField field => fs ++ [field]
  | .truncate n => fs.take n
  | .clear => []

/-- One change after the other. -/
def runOps (r : ByteRecordInner) (ops : List RecordOp) : Option ByteRecordInner :=
  ops.foldlM RecordOp.run r

theorem Holds.run {r : ByteRecordInner} {fs : List (List UInt8)} (h : Holds r fs) (op : RecordOp) :
    ∃ r', op.run r = some r' ∧ Holds r' (op.onList fs) := by
  cases op with
  | pushField field => exact h.pushField field
  | truncate n => exact ⟨r.truncate n, rfl, h.truncate n⟩
  | clear => exact ⟨r.truncate 0, rfl, h.truncate 0⟩

theorem Holds.runOps {r : ByteRecordInner} {fs : List (List UInt8)} (h : Holds r fs)
    (ops : List RecordOp) :
    ∃ r', Csv.runOps r ops = some r' ∧ Holds r' (ops.foldl RecordOp.onList fs) := by
  induction ops generalizing r fs with
  | nil => exact ⟨r, rfl, h⟩
  | cons op ops ih =>
    obtain ⟨r₁, hop, h₁⟩ := h.run op
    obtain ⟨r', hops, h'⟩ := ih h₁
    refine ⟨r', ?_, h'⟩
    unfold Csv.runOps
    rw [List.foldlM_cons, hop]
    exact hops

/-- **A byte record is a list of byte strings.** After any operations on a record made with any
    capacities nothing was out of bounds, the record shows the list that the same operations give on
    lists, and any calls of its iterator yield every field once, in order from the front and in
    reverse order from the back, with the number of fields that are left as the size hint. -/
theorem runOps_refines (buffer fields : Nat) (ops : List RecordOp) :
    ∃ r fs, runOps (ByteRecordInner.withCapacity buffer fields) ops = some r ∧
      fs = ops.foldl RecordOp.onList [] ∧ r.len = fs.length ∧ (∀ i, r.get i = some fs[i]?) ∧
      (∀ i, r.range i =
        if i < fs.length then some (offset fs i, offset fs (i + 1)) else none) ∧
      r.asSlice = some fs.flatten ∧
      ∃ it, r.iter = some it ∧ it.sizeHint = some (fs.length, some fs.length) ∧
        ∀ calls, ∃ y rest, it.run calls = some y ∧ y.front ++ rest ++ y.back.reverse = fs ∧
          rest.length = fs.length - calls.length ∧ y.hints = remaining fs.length calls := by
  obtain ⟨r, hrun, h⟩ := (holds_withCapacity buffer fields).runOps ops
  obtain ⟨it, hiter, hat⟩ := h.iter
  refine ⟨r, ops.foldl RecordOp.onList [], hrun, rfl, h.len, h.get, h.range, h.asSlice, it, hiter,
    hat.sizeHint, fun calls => ?_⟩
  obtain ⟨y, rest, hcalls, hall, hrest, hhints⟩ := hat.run calls
  rw [slice_zero_length] at hall
  exact ⟨y, rest, hcalls, hall, hrest, hhints⟩

end TeaclaveCrates.Csv
