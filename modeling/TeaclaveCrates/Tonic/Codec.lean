import TeaclaveCrates.Lib.Bytes

namespace TeaclaveCrates.Tonic

open TeaclaveCrates.Lib

/-!
# tonic — statuses, message codecs and compression

What the framing code of `tonic/src/codec` is built from:

* `Code`, `Status` and `inferGrpcStatus` — the outcome of a call (`status.rs`);
* `Encoder` / `Decoder` — the two traits a message codec implements, as state
  transformers that see the buffer only through `EncodeBuf` and `DecodeBuf`;
* `Gzip` — the `flate2` compressor and decompressor, which live outside the
  repository, with `compress` / `decompress` around them (`compression.rs`).

A header map is a parameter of the model: the framing code only asks
`Status::from_header_map` what status it holds.
-/

/-! ### Statuses -/

/-- The gRPC status codes of `enum Code`. -/
inductive Code
  | ok | cancelled | unknown | invalidArgument | deadlineExceeded | notFound
  | alreadyExists | permissionDenied | resourceExhausted | failedPrecondition
  | aborted | outOfRange | unimplemented | internal | unavailable | dataLoss
  | unauthenticated
deriving DecidableEq, Repr

/-- A gRPC status: its code and its message. -/
structure Status where
  code : Code
  message : String
deriving DecidableEq, Repr

/-- `Status::internal`. -/
def Status.internal (message : String) : Status := ⟨.internal, message⟩

/-- `Status::resource_exhausted`. -/
def Status.resourceExhausted (message : String) : Status := ⟨.resourceExhausted, message⟩

/-- An HTTP status code: its number, and how the `http` crate prints it. -/
structure StatusCode where
  asU16 : Nat
  display : String
deriving DecidableEq, Repr

/-- `infer_grpc_status`: the outcome of a response from its trailers, or from
    the HTTP status where the trailers carry no `grpc-status`.  The error
    `none` means "finished, without a status". -/
def inferGrpcStatus {HeaderMap : Type} (fromHeaderMap : HeaderMap → Option Status)
    (trailers : Option HeaderMap) (statusCode : StatusCode) : Except (Option Status) Unit :=
  match trailers.bind fromHeaderMap with
  | some status => if status.code = .ok then .ok () else .error (some status)
  | none =>
    let missing (code : Code) : Except (Option Status) Unit :=
      .error (some ⟨code, "grpc-status header missing, mapped from HTTP status code " ++
        toString statusCode.asU16⟩)
    match statusCode.asU16 with
    | 400 => missing .internal
    | 401 => missing .unauthenticated
    | 403 => missing .permissionDenied
    | 404 => missing .unimplemented
    | 429 | 502 | 503 | 504 => missing .unavailable
    -- a 200 without trailers: the response is finished
    | 200 => .error none
    | _ => missing .unknown

/-! ### Message codecs -/

/-- The size of a frame header: the compression flag and a `u32` length. -/
def HEADER_SIZE : Nat := 5

def DEFAULT_MAX_RECV_MESSAGE_SIZE : Nat := 4 * 1024 * 1024

def DEFAULT_MAX_SEND_MESSAGE_SIZE : Nat := 2 ^ 64 - 1

/-- `trait Encoder`: `encode` appends to the buffer it is given (`EncodeBuf` only
    offers `BufMut`), and may have appended something before it fails. -/
structure Encoder (E Item : Type) where
  encode : E → Item → E × Bytes × Except Status Unit

/-- `trait Decoder`: `decode` sees the bytes of one message and says how many of
    them it took. -/
structure Decoder (D Item : Type) where
  decode : D → Bytes → D × Nat × Except Status (Option Item)
  /-- `DecodeBuf::advance` asserts that no more is taken than there is. -/
  consumed_le : ∀ d src, (decode d src).2.1 ≤ src.length

/-- The decoder reads back exactly what the encoder wrote and takes the whole
    message, as long as their states are related by `R`. -/
structure Inverts {E D Item : Type} (encoder : Encoder E Item) (decoder : Decoder D Item)
    (R : E → D → Prop) : Prop where
  roundTrip : ∀ e d item, R e d →
    ∃ e' written d', encoder.encode e item = (e', written, .ok ()) ∧
      decoder.decode d written = (d', written.length, .ok (some item)) ∧ R e' d'

/-! ### Compression -/

/-- `enum CompressionEncoding`. -/
inductive CompressionEncoding
  | gzip
deriving DecidableEq, Repr

/-- `enum SingleMessageCompressionOverride`. -/
inductive SingleMessageCompressionOverride
  | inherit
  | disable
deriving DecidableEq, Repr

/-- `flate2`'s gzip over a whole input: the bytes copied to the output, and how
    the copy ended (the text is the one of the `io::Error`). -/
structure Gzip where
  compress : Bytes → Bytes × Except String Unit
  decompress : Bytes → Bytes × Except String Unit

/-- The decompressor inverts the compressor. -/
def Gzip.Inverts (gz : Gzip) : Prop :=
  ∀ input, ∃ output, gz.compress input = (output, .ok ()) ∧
    gz.decompress output = (input, .ok ())

/-- `compress`: compresses the first `len` bytes of `decompressedBuf` onto
    `outBuf`.  Returns the two buffers and the result. -/
def compress (gz : Gzip) (encoding : CompressionEncoding) (decompressedBuf outBuf : Bytes)
    (len : Nat) : Bytes × Bytes × Except String Unit :=
  match encoding with
  | .gzip =>
    match gz.compress (decompressedBuf.take len) with
    | (output, .error err) => (decompressedBuf, outBuf ++ output, .error err)
    | (output, .ok ()) => (decompressedBuf.drop len, outBuf ++ output, .ok ())

/-- `decompress`: decompresses the first `len` bytes of `compressedBuf` onto
    `outBuf`.  Returns the two buffers and the result. -/
def decompress (gz : Gzip) (encoding : CompressionEncoding) (compressedBuf outBuf : Bytes)
    (len : Nat) : Bytes × Bytes × Except String Unit :=
  match encoding with
  | .gzip =>
    match gz.decompress (compressedBuf.take len) with
    | (output, .error err) => (compressedBuf, outBuf ++ output, .error err)
    | (output, .ok ()) => (compressedBuf.drop len, outBuf ++ output, .ok ())

end TeaclaveCrates.Tonic
