import TeaclaveCrates.Tantivy.FastField

namespace TeaclaveCrates.Tantivy.Indexing

open Lib FastFieldCodecs

/-!
# Building the terms of a document

How the indexer puts together the bytes of a term, and which terms it subscribes to.

* `TermBuffer` — the term that is built: four bytes of the field, one of the type, and the value;
* `indexText` — the tokens of a text, one term after the other in the same buffer;
* `JsonTermWriter` — the path of a JSON value in front of its terms;
* `indexJsonValues` — the terms of JSON objects.

A subscription is what is passed on to the hash map of the terms: the position and the key. The
tokenizer, the parser for dates and the hash function are parameters. `none` is a panic.
-/

/-! ### Terms -/

/-- `schema::Type`. -/
inductive ValueType
  | str
  | u64
  | i64
  | f64
  | bool
  | date
  | facet
  | bytes
  | json
  | ipAddr
deriving DecidableEq

def TERM_METADATA_LENGTH : Nat := 5

def JSON_PATH_SEGMENT_SEP : UInt8 := 1

def JSON_END_OF_PATH : UInt8 := 0

/-- `Type::to_code`. -/
def toCode : ValueType → UInt8
  | .str => 115
  | .u64 => 117
  | .i64 => 105
  | .f64 => 102
  | .bool => 111
  | .date => 100
  | .facet => 104
  | .bytes => 98
  | .json => 106
  | .ipAddr => 112

/-- `Term`, by its bytes. -/
structure TermBuffer where
  bytes : Bytes

namespace TermBuffer

/-- `Term::with_type_and_field`. -/
def withTypeAndField (typ : ValueType) (field : UInt32) : TermBuffer :=
  ⟨toBE 4 field.toNat ++ [toCode typ]⟩

/-- The number of value bytes. -/
def lenBytes (term : TermBuffer) : Nat := term.bytes.length - TERM_METADATA_LENGTH

/-- Keep `len` bytes of the value. -/
def truncateValueBytes (term : TermBuffer) (len : Nat) : TermBuffer :=
  ⟨term.bytes.take (len + TERM_METADATA_LENGTH)⟩

/-- Append bytes to the value. -/
def appendBytes (term : TermBuffer) (bytes : Bytes) : TermBuffer := ⟨term.bytes ++ bytes⟩

/-- Append one byte. -/
def pushByte (term : TermBuffer) (byte : UInt8) : TermBuffer := ⟨term.bytes ++ [byte]⟩

/-- `term.value_bytes_mut()[term.len_bytes() - 1] = byte`. -/
def setLast (term : TermBuffer) (byte : UInt8) : Option TermBuffer :=
  if 0 < term.lenBytes then some ⟨term.bytes.set (term.bytes.length - 1) byte⟩ else none

/-- Removes the value bytes and sets the type code. -/
def clearWithType (term : TermBuffer) (typ : ValueType) : TermBuffer :=
  ⟨(term.truncateValueBytes 0).bytes.set 4 (toCode typ)⟩

end TermBuffer

/-- A call of `subscribe` for the document at hand. -/
structure Subscription where
  position : UInt32
  key : Bytes

/-! ### Texts -/

/-- A token of a text. -/
structure Token where
  position : Nat
  text : Bytes
  positionLength : Nat

/-- `u16::MAX as usize - 5`: larger tokens are ignored. -/
def MAX_TOKEN_LEN : Nat := 65535 - 5

def POSITION_GAP : UInt32 := 1

/-- The tokens counted and the next position of a path. -/
structure IndexingPosition where
  numTokens : UInt32
  endPosition : UInt32

def IndexingPosition.default : IndexingPosition := ⟨0, 0⟩

/-- What the closure over the tokens changes. -/
structure TextIndexing where
  termBuffer : TermBuffer
  numTokens : UInt32
  endPosition : UInt32
  subscriptions : List Subscription

/-- The closure of `index_text`, for one token. -/
def indexToken (endOfPathIdx : Nat) (indexingPosition : IndexingPosition) (st : TextIndexing)
    (token : Token) : TextIndexing :=
  if MAX_TOKEN_LEN < token.text.length then
    st
  else
    let termBuffer := (st.termBuffer.truncateValueBytes endOfPathIdx).appendBytes token.text
    let startPosition := indexingPosition.endPosition + UInt32.ofNat token.position
    { termBuffer := termBuffer
      numTokens := st.numTokens + 1
      endPosition := max st.endPosition (startPosition + UInt32.ofNat token.positionLength)
      subscriptions := st.subscriptions ++ [⟨startPosition, termBuffer.bytes⟩] }

/-- The buffer and the position after the text, and the subscriptions. -/
def indexText (tokens : List Token) (termBuffer : TermBuffer)
    (indexingPosition : IndexingPosition) :
    TermBuffer × IndexingPosition × List Subscription :=
  let endOfPathIdx := termBuffer.lenBytes
  let st := tokens.foldl (indexToken endOfPathIdx indexingPosition)
    ⟨termBuffer, 0, indexingPosition.endPosition, []⟩
  (st.termBuffer.truncateValueBytes endOfPathIdx,
    ⟨indexingPosition.numTokens + st.numTokens, st.endPosition + POSITION_GAP⟩,
    st.subscriptions)

/-- The values of a text field, one after the other, each by its tokens. -/
def indexTextValues (termBuffer : TermBuffer) (indexingPosition : IndexingPosition) :
    List (List Token) → List Subscription
  | [] => []
  | tokens :: values =>
    let (termBuffer, indexingPosition, subscriptions) :=
      indexText tokens termBuffer indexingPosition
    subscriptions ++ indexTextValues termBuffer indexingPosition values

/-! ### JSON -/

/-- A `FastValue`; a float is given by its bits, a date by its microseconds. -/
inductive FastValue
  | u64 (val : UInt64)
  | i64 (val : Int64)
  | f64 (bits : UInt64)
  | bool (val : Bool)
  | date (timestampMicros : Int64)

namespace FastValue

/-- The type byte. -/
def toType : FastValue → ValueType
  | u64 _ => .u64
  | i64 _ => .i64
  | f64 _ => .f64
  | bool _ => .bool
  | date _ => .date

/-- The value as a number in the order of its type. -/
def toU64 : FastValue → UInt64
  | u64 val => val
  | i64 val => i64ToU64 val
  | f64 bits =>
    -- the sign bit
    if bits < 0x8000000000000000 then bits ^^^ 0x8000000000000000 else ~~~bits
  | bool val => if val then 1 else 0
  | date timestampMicros => i64ToU64 timestampMicros

/-- `DateTime::truncate(DatePrecision::Seconds)`, and nothing for another type. -/
def truncateDate : FastValue → FastValue
  | date timestampMicros => date (timestampMicros / 1000000 * 1000000)
  | val => val

end FastValue

/-- `serde_json::Number`. -/
inductive Number
  | posInt (n : UInt64)
  | negInt (n : Int64)
  | float (bits : UInt64)

/-- The first of `as_u64`, `as_i64` and `as_f64` that has a value. -/
def Number.fastValue : Number → FastValue
  | posInt n => .u64 n
  | negInt n => .i64 n
  | float bits => .f64 bits

/-- `serde_json::Value`. -/
inductive Value
  | null
  | bool (val : Bool)
  | number (number : Number)
  | string (text : Bytes)
  | array (values : List Value)
  | object (members : List (Bytes × Value))

/-- The end of the path of each open segment, the innermost first. -/
structure JsonTermWriter where
  termBuffer : TermBuffer
  pathStack : List Nat
  expandDotsEnabled : Bool

namespace JsonTermWriter

/-- A writer on an empty path. -/
def wrap (termBuffer : TermBuffer) (expandDotsEnabled : Bool) : JsonTermWriter :=
  ⟨termBuffer.clearWithType .json, [0], expandDotsEnabled⟩

/-- Cut off what stands behind the path. -/
def trimToEndOfPath (writer : JsonTermWriter) : Option JsonTermWriter := do
  let endOfPath ← writer.pathStack.head?
  some { writer with termBuffer := writer.termBuffer.truncateValueBytes endOfPath }

/-- End the path and write the type. -/
def closePathAndSetType (writer : JsonTermWriter) (typ : ValueType) : Option JsonTermWriter := do
  let writer ← writer.trimToEndOfPath
  let buffer ← writer.termBuffer.setLast JSON_END_OF_PATH
  some { writer with termBuffer := buffer.appendBytes [toCode typ] }

/-- The dots of an expanded segment become separators. -/
def pushPathSegment (writer : JsonTermWriter) (segment : Bytes) : Option JsonTermWriter := do
  let writer ← writer.trimToEndOfPath
  let buffer ← (if 1 < writer.pathStack.length then
    writer.termBuffer.setLast JSON_PATH_SEGMENT_SEP else some writer.termBuffer)
  let buffer :=
    if writer.expandDotsEnabled && segment.contains 46 then
      buffer.appendBytes
        (segment.map fun byte => if byte = 46 then JSON_PATH_SEGMENT_SEP else byte)
    else
      buffer.appendBytes segment
  let buffer := buffer.pushByte JSON_PATH_SEGMENT_SEP
  some { writer with
    termBuffer := buffer
    pathStack := buffer.lenBytes :: writer.pathStack }

/-- Go back to the path in front. -/
def popPathSegment (writer : JsonTermWriter) : Option JsonTermWriter :=
  { writer with pathStack := writer.pathStack.tail }.trimToEndOfPath

/-- The path, the type and a number. -/
def setFastValue (writer : JsonTermWriter) (val : FastValue) : Option JsonTermWriter := do
  let writer ← writer.closePathAndSetType val.toType
  let value := val.truncateDate.toU64
  some { writer with termBuffer := writer.termBuffer.appendBytes (toBE 8 value.toNat) }

end JsonTermWriter

/-- The writer, the last position of each path and the subscriptions so far. -/
structure JsonIndexing where
  writer : JsonTermWriter
  positionsPerPath : UInt32 → Option IndexingPosition
  subscriptions : List Subscription

variable (tokenStream : Bytes → List Token) (parseRfc3339 : Bytes → Option Int64)
  (murmurhash2 : Bytes → UInt32)

/-- `set_fast_value` and `subscribe`. -/
def indexFastValue (st : JsonIndexing) (val : FastValue) : Option JsonIndexing := do
  let writer ← st.writer.setFastValue val
  some { st with
    writer := writer
    subscriptions := st.subscriptions ++ [⟨0, writer.termBuffer.bytes⟩] }

/-- The arm of a string; a string that reads as a date is one. -/
def indexString (st : JsonIndexing) (text : Bytes) : Option JsonIndexing :=
  match parseRfc3339 text with
  | none => do
    let writer ← st.writer.closePathAndSetType .str
    let path := murmurhash2 writer.termBuffer.bytes
    let indexingPosition := (st.positionsPerPath path).getD IndexingPosition.default
    let (termBuffer, indexingPosition, subscriptions) :=
      indexText (tokenStream text) writer.termBuffer indexingPosition
    some {
      writer := { writer with termBuffer := termBuffer }
      positionsPerPath := fun p =>
        if p = path then some indexingPosition else st.positionsPerPath p
      subscriptions := st.subscriptions ++ subscriptions }
  | some dt => indexFastValue st (.date dt)

mutual

/-- Index a value under the current path. -/
def indexJsonValue (st : JsonIndexing) : Value → Option JsonIndexing
  | .null => some st
  | .bool val => indexFastValue st (.bool val)
  | .number number => indexFastValue st number.fastValue
  | .string text => indexString tokenStream parseRfc3339 murmurhash2 st text
  | .array values => indexJsonArray st values
  | .object members => indexJsonObject st members

/-- Index the elements under the same path. -/
def indexJsonArray (st : JsonIndexing) : List Value → Option JsonIndexing
  | [] => some st
  | value :: values => do
    let st ← indexJsonValue st value
    indexJsonArray st values

/-- Index each field under its own path. -/
def indexJsonObject (st : JsonIndexing) : List (Bytes × Value) → Option JsonIndexing
  | [] => some st
  | (segment, value) :: members => do
    let writer ← st.writer.pushPathSegment segment
    let st ← indexJsonValue { st with writer := writer } value
    let writer ← st.writer.popPathSegment
    indexJsonObject { st with writer := writer } members

end

/-- The objects up to the first error. -/
def indexJsonObjects {ε : Type} (st : JsonIndexing) :
    List (Except ε (List (Bytes × Value))) → Option (JsonIndexing × Except ε Unit)
  | [] => some (st, .ok ())
  | .error e :: _ => some (st, .error e)
  | .ok members :: values => do
    let st ← indexJsonObject tokenStream parseRfc3339 murmurhash2 st members
    indexJsonObjects st values

/-- What the values of a JSON field subscribe to. -/
def indexJsonValues {ε : Type} (jsonValues : List (Except ε (List (Bytes × Value))))
    (expandDotsEnabled : Bool) (termBuffer : TermBuffer) :
    Option (List Subscription × Except ε Unit) := do
  let writer := JsonTermWriter.wrap termBuffer expandDotsEnabled
  let (st, res) ← indexJsonObjects tokenStream parseRfc3339 murmurhash2
    ⟨writer, fun _ => none, []⟩ jsonValues
  some (st.subscriptions, res)

end TeaclaveCrates.Tantivy.Indexing
