import TeaclaveCrates.Tonic.Codec
import TeaclaveCrates.Lib.Ascii
import TeaclaveCrates.Lib.Base64
import TeaclaveCrates.Lib.Percent
import Mathlib.Algebra.BigOperators.Group.Finset.Basic

namespace TeaclaveCrates.Tonic

open TeaclaveCrates.Lib

/-!
# tonic — statuses in headers

`status.rs`: a `Status` is written into three headers and its metadata, and read from them again.

* `HeaderMap` — the headers of the `http` crate, each name with its values;
* `FullStatus` — a status with its details and metadata;
* `addHeader`, `toHeaderMap`, `fromHeaderMap` — the two directions;
* `written` — what is in the headers of a status;
* `fromHeaderMap_toHeaderMap_iff` — which statuses come back;
* `fromHeaderMap_returns_iff` — which headers can be read at all.

A function that panics on some input has an option as its result, and `none` is the panic.
-/

/-! ### Headers -/

/-- `HeaderName`, in lower case. -/
abbrev HeaderName := String

/-- The bytes of header values: what can be seen, spaces, tabs and whatever is not ASCII. -/
def HeaderValue.isValid (b : UInt8) : Bool := (32 ≤ b.toNat && b.toNat != 127) || b == 9

/-- `http::HeaderValue`. -/
structure HeaderValue where
  bytes : Bytes
  valid : bytes.all HeaderValue.isValid

/-- `HeaderValue::from_maybe_shared`. -/
def HeaderValue.fromMaybeShared (bytes : Bytes) : Option HeaderValue :=
  if h : bytes.all isValid then some ⟨bytes, h⟩ else none

/-- `HeaderMap` of the `http` crate: the values of every name in their order, with what is relied on
    of its methods. Maps with the same values are equal. -/
class HeaderMap (H : Type) where
  empty : H
  getAll : H → HeaderName → List HeaderValue
  /-- The number of values. -/
  len : H → Nat
  /-- The value takes the place of all others of the name. -/
  insert : H → HeaderName → HeaderValue → H
  remove : H → HeaderName → H
  /-- The values of other headers take the place of those of their names. -/
  extend : H → H → H
  getAll_empty : ∀ name, getAll empty name = []
  getAll_insert : ∀ headers name value other, getAll (insert headers name value) other =
    if other = name then [value] else getAll headers other
  getAll_remove : ∀ headers name other, getAll (remove headers name) other =
    if other = name then [] else getAll headers other
  getAll_extend : ∀ headers others name, getAll (extend headers others) name =
    if getAll others name = [] then getAll headers name else getAll others name
  ext : ∀ {headers others}, (∀ name, getAll headers name = getAll others name) → headers = others

namespace HeaderMap

variable {H : Type} [HeaderMap H] {headers : H} {name other : HeaderName} {value : HeaderValue}

/-- The first value. -/
def get (headers : H) (name : HeaderName) : Option HeaderValue := (getAll headers name).head?

@[simp] theorem getAll_insert_self : getAll (insert headers name value) name = [value] := by
  rw [getAll_insert, if_pos rfl]

@[simp] theorem getAll_insert_of_ne (h : other ≠ name) :
    getAll (insert headers name value) other = getAll headers other := by
  rw [getAll_insert, if_neg h]

@[simp] theorem getAll_remove_self : getAll (remove headers name) name = [] := by
  rw [getAll_remove, if_pos rfl]

@[simp] theorem getAll_remove_of_ne (h : other ≠ name) :
    getAll (remove headers name) other = getAll headers other := by
  rw [getAll_remove, if_neg h]

theorem remove_of_absent (h : getAll headers name = []) : remove headers name = headers := by
  apply ext
  intro other
  by_cases hother : other = name
  · rw [hother, getAll_remove_self, h]
  · rw [getAll_remove_of_ne hother]

theorem empty_extend : extend empty headers = headers := by
  apply ext
  intro name
  rw [getAll_extend, getAll_empty]
  split
  · next h => rw [h]
  · rfl

end HeaderMap

/-! ### Statuses -/

def GRPC_STATUS_HEADER_CODE : HeaderName := "grpc-status"

def GRPC_STATUS_MESSAGE_HEADER : HeaderName := "grpc-message"

def GRPC_STATUS_DETAILS_HEADER : HeaderName := "grpc-status-details-bin"

/-- `MetadataMap::GRPC_RESERVED_HEADERS`. -/
def GRPC_RESERVED_HEADERS : List HeaderName :=
  ["te", "user-agent", "content-type", "grpc-message", "grpc-message-type", "grpc-status"]

/-- `MetadataMap::into_sanitized_headers`. -/
def intoSanitizedHeaders {H : Type} [HeaderMap H] (headers : H) : H :=
  GRPC_RESERVED_HEADERS.foldl HeaderMap.remove headers

/-- `ENCODING_SET`: the control characters, a few others, and what is not ASCII. -/
def ENCODING_SET (b : UInt8) : Bool :=
  -- behind them a space, a quotation mark, #, <, >, a backtick, ?, and the two braces
  b.toNat < 32 || 127 ≤ b.toNat || [32, 34, 35, 60, 62, 96, 63, 123, 125].contains b

/-- `Status`, less its source. -/
structure FullStatus (H : Type) extends Status where
  details : Bytes
  metadata : H

/-- `Code::from_bytes`, of one digit or two. -/
def Code.fromBytes (bytes : Bytes) : Code :=
  match bytes.map fun b => Char.ofNat b.toNat with
  | ['0'] => .ok
  | ['1'] => .cancelled
  | ['2'] => .unknown
  | ['3'] => .invalidArgument
  | ['4'] => .deadlineExceeded
  | ['5'] => .notFound
  | ['6'] => .alreadyExists
  | ['7'] => .permissionDenied
  | ['8'] => .resourceExhausted
  | ['9'] => .failedPrecondition
  | ['1', '0'] => .aborted
  | ['1', '1'] => .outOfRange
  | ['1', '2'] => .unimplemented
  | ['1', '3'] => .internal
  | ['1', '4'] => .unavailable
  | ['1', '5'] => .dataLoss
  | ['1', '6'] => .unauthenticated
  | _ => .unknown

/-- The text of `Code::to_header_value`. -/
def Code.digits : Code → List Char
  | ok => ['0']
  | cancelled => ['1']
  | unknown => ['2']
  | invalidArgument => ['3']
  | deadlineExceeded => ['4']
  | notFound => ['5']
  | alreadyExists => ['6']
  | permissionDenied => ['7']
  | resourceExhausted => ['8']
  | failedPrecondition => ['9']
  | aborted => ['1', '0']
  | outOfRange => ['1', '1']
  | unimplemented => ['1', '2']
  | internal => ['1', '3']
  | unavailable => ['1', '4']
  | dataLoss => ['1', '5']
  | unauthenticated => ['1', '6']

/-- `Code::to_header_value`. -/
def Code.toHeaderValue (code : Code) : HeaderValue :=
  ⟨asciiBytes code.digits, by cases code <;> decide⟩

/-! ### Names and values -/

theorem names_ne : GRPC_STATUS_HEADER_CODE ≠ GRPC_STATUS_MESSAGE_HEADER ∧
    GRPC_STATUS_HEADER_CODE ≠ GRPC_STATUS_DETAILS_HEADER ∧
    GRPC_STATUS_MESSAGE_HEADER ≠ GRPC_STATUS_DETAILS_HEADER := by
  decide

theorem intoSanitizedHeaders_of_absent {H : Type} [HeaderMap H] {headers : H}
    (h : ∀ name ∈ GRPC_RESERVED_HEADERS, HeaderMap.getAll headers name = []) :
    intoSanitizedHeaders headers = headers := by
  unfold intoSanitizedHeaders
  generalize GRPC_RESERVED_HEADERS = reserved at h
  induction reserved with
  | nil => rfl
  | cons name reserved ih =>
    rw [List.foldl_cons, HeaderMap.remove_of_absent (h name List.mem_cons_self)]
    exact ih fun other hother => h other (List.mem_cons_of_mem _ hother)

theorem HeaderValue.fromMaybeShared_of_valid {bytes : Bytes} (h : bytes.all isValid) :
    fromMaybeShared bytes = some ⟨bytes, h⟩ := dif_pos h

theorem Code.fromBytes_toHeaderValue (code : Code) : fromBytes code.toHeaderValue.bytes = code := by
  cases code <;> rfl

/-- A byte that is encoded is neither a percent sign nor a digit. -/
theorem encodingSet_spec (b : UInt8) (h : ENCODING_SET b) : b ≠ 37 ∧ hexValue b = none := by
  have hall : ∀ n < 256, ENCODING_SET (.ofNat n) →
      UInt8.ofNat n ≠ 37 ∧ hexValue (.ofNat n) = none := by
    decide +kernel
  have hb := hall b.toNat b.toNat_lt
  rw [UInt8.ofNat_toNat] at hb
  exact hb h

/-- What is encoded is a header value. -/
theorem isValid_percentEncode [PercentEncoding] (bytes : Bytes) :
    (PercentEncoding.encode ENCODING_SET bytes).all HeaderValue.isValid := by
  have hall : ∀ n < 256, UInt8.ofNat n = 37 ∨ (hexValue (.ofNat n)).isSome ∨
      ¬ENCODING_SET (.ofNat n) → HeaderValue.isValid (.ofNat n) := by
    decide +kernel
  rw [List.all_eq_true]
  intro b hb
  have hbyte := hall b.toNat b.toNat_lt
  rw [UInt8.ofNat_toNat] at hbyte
  exact hbyte (PercentEncoding.mem_encode hb)

theorem isValid_base64 [Base64] (bytes : Bytes) :
    (Base64.encode false bytes).all HeaderValue.isValid := by
  have hall : ∀ n < 256, UInt8.ofNat n = 61 ∨ isSymbol (.ofNat n) →
      HeaderValue.isValid (.ofNat n) := by
    decide +kernel
  rw [List.all_eq_true]
  intro b hb
  have hbyte := hall b.toNat b.toNat_lt
  rw [UInt8.ofNat_toNat] at hbyte
  exact hbyte (Base64.mem_encode hb)

theorem noEscape_of_not_mem {bytes : Bytes} (h : 37 ∉ bytes) : NoEscape bytes := by
  rintro front p h' l rest rfl
  refine unescape_none fun hp => absurd ?_ h
  rw [hp]
  exact List.mem_append_right _ List.mem_cons_self

/-- The text about a message that cannot be read has no percent signs. -/
theorem percent_not_mem_error (err : Utf8Error) :
    37 ∉ utf8Bytes ("Error deserializing status message header: " ++ err.display) := by
  have hnat : ∀ n : Nat, 37 ∉ utf8Bytes (toString n) := by
    intro n hmem
    have heq : utf8Bytes (toString n) = asciiBytes (decimal n) := utf8Bytes_ofList (ascii_decimal n)
    rw [heq] at hmem
    obtain ⟨c, hc, -, hcode⟩ := mem_asciiBytes (ascii_decimal n) hmem
    have hdigit := toNat_of_isDigit (isDigit_of_mem_decimal hc)
    rw [← hcode] at hdigit
    exact absurd hdigit.1 (by decide)
  unfold Utf8Error.display
  split
  · simp only [utf8Bytes_append, List.mem_append, not_or]
    exact ⟨by decide, ⟨⟨by decide, hnat _⟩, by decide⟩, hnat _⟩
  · simp only [utf8Bytes_append, List.mem_append, not_or]
    exact ⟨by decide, by decide, hnat _⟩

/-! ### Reading and writing -/

section Crates

variable {H : Type} [HeaderMap H] [Base64] [PercentEncoding]

/-- `invalid_header_value_byte`. -/
def invalidHeaderValueByte : FullStatus H :=
  ⟨⟨.internal, "Couldn't serialize non-text grpc status header"⟩, [], HeaderMap.empty⟩

namespace FullStatus

open HeaderMap (get insert remove)

/-- `Status::add_header`. -/
def addHeader (status : FullStatus H) (headers : H) : H × Except (FullStatus H) Unit :=
  let headers := insert (HeaderMap.extend headers (intoSanitizedHeaders status.metadata))
    GRPC_STATUS_HEADER_CODE status.code.toHeaderValue
  -- without details, or without a message, there is no header for them
  let addDetails (headers : H) : H × Except (FullStatus H) Unit :=
    if status.details ≠ [] then
      match HeaderValue.fromMaybeShared (Base64.encode false status.details) with
      | some value => (insert headers GRPC_STATUS_DETAILS_HEADER value, .ok ())
      | none => (headers, .error invalidHeaderValueByte)
    else
      (headers, .ok ())
  if status.message ≠ "" then
    match HeaderValue.fromMaybeShared
        (PercentEncoding.encode ENCODING_SET (utf8Bytes status.message)) with
    | some value => addDetails (insert headers GRPC_STATUS_MESSAGE_HEADER value)
    | none => (headers, .error invalidHeaderValueByte)
  else
    addDetails headers

/-- `Status::to_header_map`: `fits` tells the capacities that a header map can be made with, without
    a panic. -/
def toHeaderMap (fits : Nat → Bool) (status : FullStatus H) : Option (Except (FullStatus H) H) :=
  if fits (3 + HeaderMap.len status.metadata) then
    match status.addHeader HeaderMap.empty with
    | (headers, .ok ()) => some (.ok headers)
    | (_, .error err) => some (.error err)
  else
    none

/-- The `error_message` of `from_header_map`. -/
def errorMessage (headers : H) : Except Utf8Error String :=
  match get headers GRPC_STATUS_MESSAGE_HEADER with
  | some value => fromUtf8 (PercentEncoding.decode value.bytes)
  | none => .ok ""

/-- The `details` of `from_header_map`, with the panic of `expect` on what is no base64. -/
def detailsOf (headers : H) : Option Bytes :=
  match get headers GRPC_STATUS_DETAILS_HEADER with
  | some value => Base64.decode value.bytes
  | none => some []

/-- `Status::from_header_map`. -/
def fromHeaderMap (headers : H) : Option (Option (FullStatus H)) :=
  match get headers GRPC_STATUS_HEADER_CODE with
  | none => some none
  | some value => do
    let code := Code.fromBytes value.bytes
    let details ← detailsOf headers
    -- the rest is the metadata
    let otherHeaders := remove (remove (remove headers GRPC_STATUS_HEADER_CODE)
      GRPC_STATUS_MESSAGE_HEADER) GRPC_STATUS_DETAILS_HEADER
    match errorMessage headers with
    | .ok message => some (some ⟨⟨code, message⟩, details, otherHeaders⟩)
    | .error err => some (some ⟨⟨.unknown, "Error deserializing status message header: " ++
        err.display⟩, details, otherHeaders⟩)

end FullStatus

/-- `infer_grpc_status` of a response. -/
def inferResponseStatus (trailers : Option H) (statusCode : StatusCode) :
    Option (Except (Option Status) Unit) :=
  match trailers with
  | none => some (inferGrpcStatus (fun _ : H => none) none statusCode)
  | some headers => (FullStatus.fromHeaderMap headers).map fun status =>
      inferGrpcStatus (fun _ => status.map FullStatus.toStatus) (some headers) statusCode

/-! ### What is written -/

/-- The headers of a status whose metadata has no reserved names. -/
def FullStatus.written (status : FullStatus H) : H :=
  let headers :=
    HeaderMap.insert status.metadata GRPC_STATUS_HEADER_CODE status.code.toHeaderValue
  let headers := if status.message = "" then headers else
    HeaderMap.insert headers GRPC_STATUS_MESSAGE_HEADER
      ⟨_, isValid_percentEncode (utf8Bytes status.message)⟩
  if status.details = [] then headers else
    HeaderMap.insert headers GRPC_STATUS_DETAILS_HEADER ⟨_, isValid_base64 status.details⟩

section Written

open HeaderMap (get remove)

variable {status : FullStatus H}
  (hreserved : ∀ name ∈ GRPC_RESERVED_HEADERS, HeaderMap.getAll status.metadata name = [])

include hreserved

theorem addHeader_empty : status.addHeader HeaderMap.empty = (status.written, .ok ()) := by
  have hmessage := HeaderValue.fromMaybeShared_of_valid
    (isValid_percentEncode (utf8Bytes status.message))
  have hdetails := HeaderValue.fromMaybeShared_of_valid (isValid_base64 status.details)
  unfold FullStatus.addHeader FullStatus.written
  rw [intoSanitizedHeaders_of_absent hreserved, HeaderMap.empty_extend, hmessage, hdetails]
  by_cases hm : status.message = "" <;> by_cases hd : status.details = [] <;> simp [hm, hd]

theorem written_others :
    remove (remove (remove status.written GRPC_STATUS_HEADER_CODE) GRPC_STATUS_MESSAGE_HEADER)
      GRPC_STATUS_DETAILS_HEADER = remove status.metadata GRPC_STATUS_DETAILS_HEADER := by
  have hcode := hreserved GRPC_STATUS_HEADER_CODE (by decide)
  have hmessage := hreserved GRPC_STATUS_MESSAGE_HEADER (by decide)
  apply HeaderMap.ext
  intro name
  by_cases hd : name = GRPC_STATUS_DETAILS_HEADER
  · rw [hd, HeaderMap.getAll_remove_self, HeaderMap.getAll_remove_self]
  rw [HeaderMap.getAll_remove_of_ne hd, HeaderMap.getAll_remove_of_ne hd]
  by_cases hm : name = GRPC_STATUS_MESSAGE_HEADER
  · rw [hm, HeaderMap.getAll_remove_self, hmessage]
  rw [HeaderMap.getAll_remove_of_ne hm]
  by_cases hc : name = GRPC_STATUS_HEADER_CODE
  · rw [hc, HeaderMap.getAll_remove_self, hcode]
  rw [HeaderMap.getAll_remove_of_ne hc]
  unfold FullStatus.written
  split <;> split <;> simp [hd, hm, hc]

omit hreserved in
theorem written_code :
    get status.written GRPC_STATUS_HEADER_CODE = some status.code.toHeaderValue := by
  obtain ⟨hcm, hcd, -⟩ := names_ne
  unfold FullStatus.written HeaderMap.get
  dsimp only
  split <;> split <;> simp [hcm, hcd]

theorem written_message :
    get status.written GRPC_STATUS_MESSAGE_HEADER = if status.message = "" then none else
      some ⟨_, isValid_percentEncode (utf8Bytes status.message)⟩ := by
  obtain ⟨hcm, -, hmd⟩ := names_ne
  have hmessage := hreserved GRPC_STATUS_MESSAGE_HEADER (by decide)
  unfold FullStatus.written HeaderMap.get
  split <;> split <;> simp [hcm.symm, hmd, hmessage]

omit hreserved in
theorem written_details :
    get status.written GRPC_STATUS_DETAILS_HEADER = if status.details = [] then
      get status.metadata GRPC_STATUS_DETAILS_HEADER else
        some ⟨_, isValid_base64 status.details⟩ := by
  obtain ⟨-, hcd, hmd⟩ := names_ne
  unfold FullStatus.written HeaderMap.get
  dsimp only
  split <;> split <;> simp [hcd.symm, hmd.symm]

end Written

/-! ### What is read -/

variable {status : FullStatus H}

theorem written_errorMessage
    (hreserved : ∀ name ∈ GRPC_RESERVED_HEADERS, HeaderMap.getAll status.metadata name = []) :
    FullStatus.errorMessage status.written =
      fromUtf8 (PercentEncoding.decode (utf8Bytes status.message)) := by
  unfold FullStatus.errorMessage
  rw [written_message hreserved]
  by_cases hm : status.message = ""
  · have hempty : PercentEncoding.decode (utf8Bytes "") = utf8Bytes "" :=
      PercentEncoding.decode_eq_self_iff.mpr (noEscape_of_not_mem (by decide))
    rw [if_pos hm, hm, hempty]
    exact (fromUtf8_eq_ok_iff.mpr rfl).symm
  · rw [if_neg hm]
    dsimp only
    rw [PercentEncoding.decode_encode encodingSet_spec]

theorem written_detailsOf
    (habsent : HeaderMap.getAll status.metadata GRPC_STATUS_DETAILS_HEADER = []) :
    FullStatus.detailsOf status.written = some status.details := by
  unfold FullStatus.detailsOf
  rw [written_details]
  by_cases hd : status.details = []
  · rw [if_pos hd, HeaderMap.get, habsent, hd]
    rfl
  · rw [if_neg hd]
    exact Base64.decode_encode false status.details

/-- **Statuses in headers.** A status without reserved names in its metadata is written and comes
    back, if and only if no percent sign of its message is followed by two hexadecimal digits, its
    metadata has no details of their own, and there is room for the headers. -/
theorem fromHeaderMap_toHeaderMap_iff {fits : Nat → Bool} {status : FullStatus H}
    (hreserved : ∀ name ∈ GRPC_RESERVED_HEADERS, HeaderMap.getAll status.metadata name = []) :
    (∃ headers, status.toHeaderMap fits = some (.ok headers) ∧
        FullStatus.fromHeaderMap headers = some (some status)) ↔
      NoEscape (utf8Bytes status.message) ∧
        HeaderMap.getAll status.metadata GRPC_STATUS_DETAILS_HEADER = [] ∧
        fits (3 + HeaderMap.len status.metadata) := by
  have hmessage := written_errorMessage hreserved
  unfold FullStatus.toHeaderMap
  rw [addHeader_empty hreserved]
  constructor
  · rintro ⟨headers, hheaders, hread⟩
    split_ifs at hheaders with hfits
    cases hheaders
    unfold FullStatus.fromHeaderMap at hread
    rw [written_code, hmessage, written_others hreserved] at hread
    simp only [Option.bind_eq_bind, Option.bind_eq_some_iff, Code.fromBytes_toHeaderValue] at hread
    obtain ⟨details, -, hread⟩ := hread
    have hmetadata : HeaderMap.remove status.metadata GRPC_STATUS_DETAILS_HEADER =
        status.metadata := by
      split at hread <;>
        exact congrArg (FullStatus.metadata ∘ (·.getD status)) (Option.some.inj hread)
    refine ⟨?_, ?_, hfits⟩
    · split at hread
      · next message hok =>
        have hmessage : message = status.message :=
          congrArg (fun s => (s.getD status).message) (Option.some.inj hread)
        rw [hmessage, fromUtf8_eq_ok_iff] at hok
        exact PercentEncoding.decode_eq_self_iff.mp hok.symm
      · next err herr =>
        -- the text about the error has no percent signs, and it is the message
        have hmessage : "Error deserializing status message header: " ++ err.display =
            status.message := congrArg (fun s => (s.getD status).message) (Option.some.inj hread)
        rw [← hmessage]
        exact noEscape_of_not_mem (percent_not_mem_error err)
    · rw [← hmetadata, HeaderMap.getAll_remove_self]
  · rintro ⟨hescape, habsent, hfits⟩
    refine ⟨status.written, if_pos hfits, ?_⟩
    unfold FullStatus.fromHeaderMap
    rw [written_code, hmessage, written_others hreserved, written_detailsOf habsent,
      HeaderMap.remove_of_absent habsent, PercentEncoding.decode_eq_self_iff.mpr hescape,
      fromUtf8_eq_ok_iff.mpr rfl]
    simp only [Code.fromBytes_toHeaderValue]
    rfl

/-! ### What a peer sends -/

/-- **Received headers** are read without a panic, and so are the trailers of a response, if and only
    if there is no status among them, or no details, or the details are base64. -/
theorem fromHeaderMap_returns_iff (headers : H) :
    (FullStatus.fromHeaderMap headers).isSome ∧
        (∀ trailers ∈ [none, some headers], ∀ statusCode,
          (inferResponseStatus trailers statusCode).isSome) ↔
      HeaderMap.get headers GRPC_STATUS_HEADER_CODE = none ∨
        ∀ value, HeaderMap.get headers GRPC_STATUS_DETAILS_HEADER = some value →
          (Base64.decode value.bytes).isSome := by
  have hinfer : (∀ trailers ∈ [none, some headers], ∀ statusCode,
      (inferResponseStatus trailers statusCode).isSome) ↔
        (FullStatus.fromHeaderMap headers).isSome := by
    have : Nonempty StatusCode := ⟨⟨200, "200 OK"⟩⟩
    simp [inferResponseStatus]
  have hdetails : (FullStatus.detailsOf headers).isSome ↔
      ∀ value, HeaderMap.get headers GRPC_STATUS_DETAILS_HEADER = some value →
        (Base64.decode value.bytes).isSome := by
    unfold FullStatus.detailsOf
    cases HeaderMap.get headers GRPC_STATUS_DETAILS_HEADER <;> simp
  rw [hinfer, and_self_iff, ← hdetails]
  unfold FullStatus.fromHeaderMap
  cases HeaderMap.get headers GRPC_STATUS_HEADER_CODE with
  | none => simp
  | some value =>
    -- whatever the message is, there is a status
    cases FullStatus.detailsOf headers with
    | none => simp
    | some details => cases FullStatus.errorMessage headers <;> simp

end Crates

/-! ### The crates -/

/-- The values of every name, in their order, and the names that have values. -/
structure Headers where
  getAll : HeaderName → List HeaderValue
  names : Finset HeaderName
  mem_names : ∀ name, name ∈ names ↔ getAll name ≠ []

instance : HeaderMap Headers where
  empty := ⟨fun _ => [], ∅, by simp⟩
  getAll := Headers.getAll
  len headers := ∑ name ∈ headers.names, (headers.getAll name).length
  insert headers name value :=
    { getAll := Function.update headers.getAll name [value]
      names := Insert.insert name headers.names
      mem_names := fun other => by by_cases h : other = name <;> simp [h, headers.mem_names] }
  remove headers name :=
    { getAll := Function.update headers.getAll name []
      names := headers.names.erase name
      mem_names := fun other => by by_cases h : other = name <;> simp [h, headers.mem_names] }
  extend headers others :=
    { getAll := fun name =>
        if others.getAll name = [] then headers.getAll name else others.getAll name
      names := headers.names ∪ others.names
      mem_names := fun name => by
        by_cases h : others.getAll name = [] <;> simp [h, headers.mem_names, others.mem_names] }
  getAll_empty _ := rfl
  getAll_insert _ _ _ _ := Function.update_apply ..
  getAll_remove _ _ _ := Function.update_apply ..
  getAll_extend _ _ _ := rfl
  ext := by
    rintro ⟨getAll, names, hnames⟩ ⟨getAll', names', hnames'⟩ h
    obtain rfl : getAll = getAll' := funext h
    obtain rfl : names = names' :=
      Finset.ext fun name => (hnames name).trans (hnames' name).symm
    rfl

instance : Base64 := Base64.standard

instance : PercentEncoding := PercentEncoding.standard

/-- The capacities that the `http` crate makes a header map with: a quarter of the places stays free,
    and there are `2 ^ 15` of them. -/
def capacityFits (capacity : Nat) : Bool := capacity + capacity / 3 ≤ 2 ^ 15

/-- A status with a percent sign in its message, details and a value in its metadata. -/
def discountStatus : FullStatus Headers where
  code := .notFound
  message := "50% off"
  details := [1, 2]
  metadata := HeaderMap.insert HeaderMap.empty "x-id" ⟨[55], by decide⟩

theorem discountStatus_iff :
    (∃ headers, discountStatus.toHeaderMap capacityFits = some (.ok headers) ∧
        FullStatus.fromHeaderMap headers = some (some discountStatus)) ↔
      NoEscape (utf8Bytes discountStatus.message) ∧
        HeaderMap.getAll discountStatus.metadata GRPC_STATUS_DETAILS_HEADER = [] ∧
        capacityFits (3 + HeaderMap.len discountStatus.metadata) :=
  fromHeaderMap_toHeaderMap_iff fun name hname => HeaderMap.getAll_insert_of_ne (by
    rintro rfl
    exact absurd hname (by decide))

/-- A message that looks encoded. -/
def escapedStatus : FullStatus Headers := ⟨⟨.unknown, "%41"⟩, [], HeaderMap.empty⟩

/-- It is decoded although it was never encoded. -/
theorem escapedStatus_decoded :
    ∃ headers, escapedStatus.toHeaderMap capacityFits = some (.ok headers) ∧
      FullStatus.fromHeaderMap headers = some (some ⟨⟨.unknown, "A"⟩, [], HeaderMap.empty⟩) ∧
      escapedStatus.message ≠ "A" := by
  have hreserved : ∀ name ∈ GRPC_RESERVED_HEADERS,
      HeaderMap.getAll escapedStatus.metadata name = [] :=
    fun _ _ => rfl
  have hmessage : FullStatus.errorMessage escapedStatus.written = .ok "A" := by
    rw [written_errorMessage hreserved, fromUtf8_eq_ok_iff]
    decide
  refine ⟨escapedStatus.written, ?_, ?_, by decide⟩
  · unfold FullStatus.toHeaderMap
    rw [addHeader_empty hreserved]
    rfl
  · unfold FullStatus.fromHeaderMap
    rw [written_code, hmessage, written_others hreserved, written_detailsOf rfl,
      HeaderMap.remove_of_absent rfl]
    rfl

/-- A status with details that are no base64. -/
def brokenDetails : Headers :=
  HeaderMap.insert (HeaderMap.insert HeaderMap.empty GRPC_STATUS_HEADER_CODE ⟨[48], by decide⟩)
    GRPC_STATUS_DETAILS_HEADER ⟨[33], by decide⟩

theorem brokenDetails_panics :
    FullStatus.fromHeaderMap brokenDetails = none ∧
      inferResponseStatus (some brokenDetails) ⟨200, "200 OK"⟩ = none :=
  ⟨rfl, rfl⟩

end TeaclaveCrates.Tonic
