import TeaclaveCrates.Lib.Bytes

namespace TeaclaveCrates.Image

/-!
# Colour types

* `ColorType` — what a pixel is made of in memory.
* `checkDimensionOverflow` — whether the bytes of an image cannot be counted.
-/

/-- `ColorType` -/
inductive ColorType
  | l8
  | la8
  | rgb8
  | rgba8
  | l16
  | la16
  | rgb16
  | rgba16
  | bgr8
  | bgra8
  deriving DecidableEq, Repr

/-- `bytes_per_pixel` -/
def ColorType.bytesPerPixel : ColorType → Nat
  | .l8 => 1
  | .l16 | .la8 => 2
  | .rgb8 | .bgr8 => 3
  | .rgba8 | .bgra8 | .la16 => 4
  | .rgb16 => 6
  | .rgba16 => 8

/-- `check_dimension_overflow` -/
def checkDimensionOverflow (width height bytesPerPixel : Nat) : Bool :=
  decide ((2 ^ 64 - 1) / bytesPerPixel < width * height)

end TeaclaveCrates.Image
