import TeaclaveCrates.Image.Color
import TeaclaveCrates.Lib.Ascii
import TeaclaveCrates.Lib.Slice

namespace TeaclaveCrates.Image.Hdr

open Lib

/-!
# Radiance HDR images

The encoder writes a text header and then the pixels, line by line. Lines of a width from 8 to 32768
are written component by component, in runs and in pieces that are no runs; others pixel by pixel.
The decoder tells the two by the first four bytes of a line.

* `Rgbe8Pixel` — a pixel with a common exponent.
* `rleCompress` — one component of a line, by `runs` and `combine`.
* `encode` — `HdrEncoder::encode`.
* `HdrDecoder.new` — reading the header, in strict mode.
* `decodeComponent`, `decodeOldRle`, `readScanline`, `readImageNative` — reading the pixels.
-/

/-- `Rgbe8Pixel` -/
structure Rgbe8Pixel where
  r : UInt8
  g : UInt8
  b : UInt8
  e : UInt8
  deriving DecidableEq, Repr

namespace Rgbe8Pixel

/-- The bytes of a pixel, as `write_rgbe8` writes them. -/
def bytes (p : Rgbe8Pixel) : Bytes := [p.r, p.g, p.b, p.e]

end Rgbe8Pixel

/-! ### Runs -/

/-- `RunOrNot`: a byte that is repeated, or a part of the data by its index and length. -/
inductive RunOrNot
  | run (c : UInt8) (len : Nat)
  | norun (idx len : Nat)
  deriving DecidableEq, Repr

def runMaxLen : Nat := 127

def norunMaxLen : Nat := 128

/-- The number of times that the first byte is repeated, up to the longest run. -/
def runLength (cv : UInt8) (data : Bytes) : Nat := ((data.takeWhile (· = cv)).take runMaxLen).length

/-- What `RunIterator` yields from the index `curidx` on, where the bytes `rest` are. -/
def runsFrom : Nat → Nat → Bytes → List RunOrNot
  | 0, _, _ => []
  | _ + 1, _, [] => []
  | fuel + 1, curidx, cv :: rest =>
    let crun := runLength cv (cv :: rest)
    (if crun > 2 then .run cv crun else .norun curidx crun) ::
      runsFrom fuel (curidx + crun) ((cv :: rest).drop crun)

/-- What `RunIterator` yields. Every item takes at least one byte. -/
def runs (data : Bytes) : List RunOrNot := runsFrom data.length 0 data

/-- What `NorunCombineIterator` yields: it joins what is no run, and keeps one item back in `prev`. -/
def combine (prev : Option RunOrNot) (items : List RunOrNot) : List RunOrNot :=
  match prev, items with
  | some (.run c len), items => .run c len :: combine none items
  | some (.norun idx len), .norun _ len₁ :: items =>
    if len + len₁ = norunMaxLen then .norun idx (len + len₁) :: combine none items
    else if len + len₁ > norunMaxLen then
      .norun idx norunMaxLen ::
        combine (some (.norun (idx + norunMaxLen) (len + len₁ - norunMaxLen))) items
    else combine (some (.norun idx (len + len₁))) items
  | some (.norun idx len), .run c len₁ :: items =>
    .norun idx len :: combine (some (.run c len₁)) items
  | some (.norun idx len), [] => .norun idx len :: combine none []
  | none, .norun idx len :: items => combine (some (.norun idx len)) items
  | none, .run c len :: items => .run c len :: combine none items
  | none, [] => []
termination_by (items.length, match prev with
  | none => 0
  | some (.norun _ _) => 1
  | some (.run _ _) => 2)

/-- The bytes of an item. The lengths are asserted, and so is the range of the data. -/
def rlePiece (data : Bytes) : RunOrNot → Option Bytes
  | .run c len => if len ≤ 127 then some [UInt8.ofNat (128 + len), c] else none
  | .norun idx len =>
    if len ≤ 128 then (slice? data idx (idx + len)).map (UInt8.ofNat len :: ·) else none

/-- `rle_compress` -/
def rleCompress (data : Bytes) : Option Bytes :=
  if data = [] then some [0]
  else ((combine none (runs data)).mapM (rlePiece data)).map List.flatten

/-! ### Encoding -/

/-- The header: signature, comment, format, and the dimensions. -/
def headerText (width height : Nat) : List Char :=
  "#?RADIANCE\n# Rust HDR encoder\nFORMAT=32-bit_rle_rgbe\n\n-Y ".toList ++ decimal height ++
    " +X ".toList ++ decimal width ++ ['\n']

/-- The marker of a line that is written by components: it holds the width. -/
def scanlineMarker (width : Nat) : Rgbe8Pixel :=
  ⟨2, 2, UInt8.ofNat (width / 256), UInt8.ofNat (width % 256)⟩

/-- The lines by components. The buffers keep what a shorter line does not overwrite. -/
def encodeScanlines (width : Nat) (buf : List Rgbe8Pixel) :
    List (List Rgbe8Pixel) → Option Bytes
  | [] => some []
  | scanline :: rest => do
    let buf := scanline ++ buf.drop scanline.length
    let r ← rleCompress (buf.map Rgbe8Pixel.r)
    let g ← rleCompress (buf.map Rgbe8Pixel.g)
    let b ← rleCompress (buf.map Rgbe8Pixel.b)
    let e ← rleCompress (buf.map Rgbe8Pixel.e)
    let tail ← encodeScanlines width buf rest
    some ((scanlineMarker width).bytes ++ r ++ g ++ b ++ e ++ tail)

section

variable {P : Type} (toRgbe8 : P → Rgbe8Pixel)

/-- `HdrEncoder::encode`. The number of pixels is asserted. -/
def encode (data : List P) (width height : Nat) : Option Bytes :=
  if width * height ≤ data.length then
    let header := asciiBytes (headerText width height)
    if width < 8 ∨ 32768 < width then
      some (header ++ data.flatMap fun pix => (toRgbe8 pix).bytes)
    else
      (encodeScanlines width (List.replicate width ⟨0, 0, 0, 0⟩)
        ((chunks width data).map fun scanline => scanline.map toRgbe8)).map (header ++ ·)
  else none

end

/-! ### Errors -/

/-- `LineType` -/
inductive LineType
  | exposure
  | pixaspect
  | colorcorr
  | dimensionsHeight
  | dimensionsWidth
  deriving DecidableEq, Repr

/-- The errors of the decoder. `overflow` stands for the check of machine arithmetic. -/
inductive HdrError
  | unexpectedEof
  | radianceHdrSignatureInvalid
  | truncatedHeader
  | truncatedDimensions
  | unparsableF32 (line : LineType)
  | unparsableU32 (line : LineType) (error : ParseIntError)
  | lineTooShort (line : LineType)
  | extraneousColorcorrNumbers
  | dimensionsLineTooShort (elements expected : Nat)
  | dimensionsLineTooLong (expected : Nat)
  | wrongScanlineLength (len expected : Nat)
  | firstPixelRlMarker
  | unsupportedFormat (name : List Char)
  | unsupportedFeature (text : List Char)
  | overflow
  deriving DecidableEq, Repr

/-! ### The header -/

/-- `SIGNATURE` -/
def signature : Bytes := asciiBytes "#?RADIANCE".toList

/-- `read_line_u8`: the bytes up to a line feed or the end, without the line feed. -/
def readLineU8 (r : Bytes) : Option Bytes × Bytes :=
  match r with
  | [] => (none, [])
  | _ => (some (r.takeWhile (· ≠ 10)), (r.dropWhile (· ≠ 10)).drop 1)

/-- `HdrMetadata`, with floats of the type `F`. -/
structure HdrMetadata (F : Type) where
  width : Nat
  height : Nat
  orientation : (Int × Int) × (Int × Int)
  exposure : Option F
  colorCorrection : Option (F × F × F)
  pixelAspectRatio : Option F
  customAttributes : List (List Char × List Char)
  deriving DecidableEq, Repr

/-- `HdrMetadata::new` -/
def HdrMetadata.new {F : Type} : HdrMetadata F :=
  ⟨0, 0, ((1, 0), (0, 1)), none, none, none, []⟩

/-- `split_at_first`, for one character: the text before it and behind it, both not empty. -/
def splitAtFirst (s : List Char) (separator : Char) : Option (List Char × List Char) :=
  let before := s.takeWhile (· ≠ separator)
  let behind := (s.dropWhile (· ≠ separator)).drop 1
  if before = [] ∨ behind = [] then none else some (before, behind)

/-- `limit_string_len` -/
def limitStringLen (s : List Char) (len : Nat) : List Char :=
  if len < s.length then s.take len ++ "...".toList else s

section

variable {F : Type} [One F] [Mul F] (parseF32 : List Char → Option F)

/-- `parse_space_separated_f32`, for a number of values; with whether more follow. -/
def parseSpaceSeparatedF32 (lineTp : LineType) : Nat → List (List Char) → Except HdrError (List F × Bool)
  | 0, nums => .ok ([], !nums.isEmpty)
  | _ + 1, [] => .error (.lineTooShort lineTp)
  | n + 1, num :: nums =>
    match parseF32 num with
    | none => .error (.unparsableF32 lineTp)
    | some v => (parseSpaceSeparatedF32 lineTp n nums).map fun (vs, extra) => (v :: vs, extra)

/-- `update_header_info`, in strict mode. -/
def HdrMetadata.updateHeaderInfo (meta' : HdrMetadata F) (line : List Char) :
    Except HdrError (HdrMetadata F) :=
  match (splitAtFirst line '=').map fun (key, value) => (trim key, value) with
  | none => .ok { meta' with customAttributes := meta'.customAttributes ++ [([], line)] }
  | some (key, val) =>
    let meta' := { meta' with customAttributes := meta'.customAttributes ++ [(key, val)] }
    if key = "FORMAT".toList then
      if trim val = "32-bit_rle_rgbe".toList then .ok meta'
      else .error (.unsupportedFormat (limitStringLen val 20))
    else if key = "EXPOSURE".toList then
      match parseF32 (trim val) with
      | some v => .ok { meta' with exposure := some (meta'.exposure.getD 1 * v) }
      | none => .error (.unparsableF32 .exposure)
    else if key = "PIXASPECT".toList then
      match parseF32 (trim val) with
      | some v => .ok { meta' with pixelAspectRatio := some (meta'.pixelAspectRatio.getD 1 * v) }
      | none => .error (.unparsableF32 .pixaspect)
    else if key = "COLORCORR".toList then
      match parseSpaceSeparatedF32 parseF32 .colorcorr 3 (splitWhitespace val) with
      | .error e => .error e
      | .ok (vs, extra) =>
        if extra then .error .extraneousColorcorrNumbers
        else
          let (rc, gc, bc) := meta'.colorCorrection.getD (1, 1, 1)
          .ok { meta' with
            colorCorrection := some (rc * vs.getD 0 1, gc * vs.getD 1 1, bc * vs.getD 2 1) }
    else .ok meta'

/-- The lines of the header, up to an empty one. -/
def readHeader (meta' : HdrMetadata F) (r : Bytes) : Except HdrError (HdrMetadata F × Bytes) :=
  match _h : readLineU8 r with
  | (none, _) => .error .truncatedHeader
  | (some [], rest) => .ok (meta', rest)
  | (some (c :: line), rest) =>
    -- the byte of `#` starts a comment
    if c = 35 then readHeader meta' rest
    else
      match meta'.updateHeaderInfo parseF32 (fromUtf8Lossy (c :: line)) with
      | .error e => .error e
      | .ok meta' => readHeader meta' rest
termination_by r.length
decreasing_by
  all_goals
    cases r with
    | nil => simp [readLineU8] at _h
    | cons b r =>
      simp only [readLineU8, Prod.mk.injEq] at _h
      obtain ⟨-, rfl⟩ := _h
      have hle := List.length_dropWhile_le (fun x => decide (x ≠ 10)) (b :: r)
      simp only [List.length_drop, List.length_cons] at hle ⊢
      omega

/-- `parse_dimensions_line`, in strict mode: the width and the height. -/
def parseDimensionsLine (line : List Char) : Except HdrError (Nat × Nat) :=
  match splitWhitespace line with
  | [] => .error (.dimensionsLineTooShort 0 4)
  | [_] => .error (.dimensionsLineTooShort 1 4)
  | [_, _] => .error (.dimensionsLineTooShort 2 4)
  | [_, _, _] => .error (.dimensionsLineTooShort 3 4)
  | [c1Tag, c1Str, c2Tag, c2Str] =>
    if c1Tag = "-Y".toList ∧ c2Tag = "+X".toList then
      match parseUnsigned (2 ^ 32) c1Str with
      | .error e => .error (.unparsableU32 .dimensionsHeight e)
      | .ok height =>
        match parseUnsigned (2 ^ 32) c2Str with
        | .error e => .error (.unparsableU32 .dimensionsWidth e)
        | .ok width => .ok (width, height)
    else .error (.unsupportedFeature ("Orientation ".toList ++ limitStringLen c1Tag 4 ++ [' '] ++
      limitStringLen c2Tag 4))
  | _ => .error (.dimensionsLineTooLong 4)

/-- `HdrDecoder` -/
structure HdrDecoder (F : Type) where
  r : Bytes
  width : Nat
  height : Nat
  meta' : HdrMetadata F
  deriving DecidableEq, Repr

/-- `HdrDecoder::new` -/
def HdrDecoder.new (r : Bytes) : Except HdrError (HdrDecoder F) :=
  if r.length < signature.length then .error .unexpectedEof
  else if r.take signature.length ≠ signature then .error .radianceHdrSignatureInvalid
  else
    match readHeader parseF32 HdrMetadata.new (readLineU8 (r.drop signature.length)).2 with
    | .error e => .error e
    | .ok (attributes, r) =>
      match readLineU8 r with
      | (none, _) => .error .truncatedDimensions
      | (some dimensions, r) =>
        match parseDimensionsLine (fromUtf8Lossy dimensions) with
        | .error e => .error e
        | .ok (width, height) =>
          if checkDimensionOverflow width height ColorType.rgb8.bytesPerPixel then
            .error (.unsupportedFeature ("Image dimensions (".toList ++ decimal width ++ ['x'] ++
              decimal height ++ ") are too large".toList))
          else .ok ⟨r, width, height, { attributes with width := width, height := height }⟩

end

/-! ### The pixels -/

/-- `read_rgbe` -/
def readRgbe : Bytes → Except HdrError (Rgbe8Pixel × Bytes)
  | r :: g :: b :: e :: rest => .ok (⟨r, g, b, e⟩, rest)
  | _ => .error .unexpectedEof

/-- `decode_component`: the values are set one behind the other, and `out` are those that have been
    set. -/
def decodeComponent (width : Nat) (out : Bytes) (r : Bytes) : Except HdrError (Bytes × Bytes) :=
  if out.length < width then
    match r with
    | [] => .error .unexpectedEof
    | rl :: r =>
      if rl.toNat ≤ 128 then
        if width < out.length + rl.toNat then
          .error (.wrongScanlineLength (out.length + rl.toNat) width)
        else if r.length < rl.toNat then .error .unexpectedEof
        else decodeComponent width (out ++ r.take rl.toNat) (r.drop rl.toNat)
      else
        if width < out.length + (rl.toNat - 128) then
          .error (.wrongScanlineLength (out.length + (rl.toNat - 128)) width)
        else
          match r with
          | [] => .error .unexpectedEof
          | value :: r => decodeComponent width (out ++ List.replicate (rl.toNat - 128) value) r
  else if out.length ≠ width then .error (.wrongScanlineLength out.length width)
  else .ok (out, r)
termination_by r.length
decreasing_by
  · rw [List.length_drop, List.length_cons]
    exact Nat.lt_succ_of_le (Nat.sub_le _ _)
  · rw [List.length_cons, List.length_cons]
    exact Nat.lt_succ_of_lt (Nat.lt_succ_self _)

/-- `rl_marker`: the length of a run, if the pixel is a marker. -/
def rlMarker (pix : Rgbe8Pixel) : Option Nat :=
  if pix.r = 1 ∧ pix.g = 1 ∧ pix.b = 1 then some pix.e.toNat else none

/-- The loop of `decode_old_rle`, with the pixels that have been set. -/
def decodeOldRleLoop (width : Nat) (out : List Rgbe8Pixel) (rlMult : Nat) (prevPixel : Rgbe8Pixel)
    (r : Bytes) : Except HdrError (List Rgbe8Pixel × Bytes) :=
  if out.length < width then
    match _h : readRgbe r with
    | .error e => .error e
    | .ok (pix, r') =>
      match rlMarker pix with
      | some rl =>
        if 2 ^ 64 ≤ out.length + rl * rlMult ∨ 2 ^ 64 ≤ rlMult * 256 then .error .overflow
        else if out.length + rl * rlMult ≤ width then
          decodeOldRleLoop width (out ++ List.replicate (rl * rlMult) prevPixel) (rlMult * 256)
            prevPixel r'
        else .error (.wrongScanlineLength (out.length + rl * rlMult) width)
      | none => decodeOldRleLoop width (out ++ [pix]) 1 pix r'
  else if out.length ≠ width then .error (.wrongScanlineLength out.length width)
  else .ok (out, r)
termination_by r.length
decreasing_by
  all_goals
    unfold readRgbe at _h
    split at _h
    · rw [Except.ok.injEq, Prod.mk.injEq] at _h
      obtain ⟨-, rfl⟩ := _h
      simp only [List.length_cons]
      omega
    · exact absurd _h (by simp)

/-- `decode_old_rle` -/
def decodeOldRle (width : Nat) (fb : Rgbe8Pixel) (r : Bytes) :
    Except HdrError (List Rgbe8Pixel × Bytes) :=
  if (rlMarker fb).isSome then .error .firstPixelRlMarker
  else decodeOldRleLoop width [fb] 1 fb r

/-- The pixels of a line from its components. -/
def zipComponents : Bytes → Bytes → Bytes → Bytes → List Rgbe8Pixel
  | r :: rs, g :: gs, b :: bs, e :: es => ⟨r, g, b, e⟩ :: zipComponents rs gs bs es
  | _, _, _, _ => []

/-- `read_scanline`, for a line that is not empty. -/
def readScanline (width : Nat) (r : Bytes) : Except HdrError (List Rgbe8Pixel × Bytes) := do
  let (fb, r) ← readRgbe r
  if fb.r = 2 ∧ fb.g = 2 ∧ fb.b < 128 then
    let (rs, r) ← decodeComponent width [] r
    let (gs, r) ← decodeComponent width [] r
    let (bs, r) ← decodeComponent width [] r
    let (es, r) ← decodeComponent width [] r
    .ok (zipComponents rs gs bs es, r)
  else decodeOldRle width fb r

/-- Some lines. -/
def readScanlines (width : Nat) : Nat → Bytes → Except HdrError (List Rgbe8Pixel)
  | 0, _ => .ok []
  | lines + 1, r => do
    let (scanline, r) ← readScanline width r
    let rest ← readScanlines width lines r
    .ok (scanline ++ rest)

/-- `read_image_native` -/
def HdrDecoder.readImageNative {F : Type} (decoder : HdrDecoder F) :
    Except HdrError (List Rgbe8Pixel) :=
  if decoder.width = 0 ∨ decoder.height = 0 then .ok []
  else readScanlines decoder.width decoder.height decoder.r

end TeaclaveCrates.Image.Hdr
