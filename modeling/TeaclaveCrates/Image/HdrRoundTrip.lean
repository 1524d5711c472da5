import TeaclaveCrates.Image.Hdr

namespace TeaclaveCrates.Image.Hdr

open Lib

/-!
# Reading back an encoded HDR image

* `Tiles` — items that cover the data of a component one behind the other; `tiles_combine` keeps it.
* `decodeComponent_tiles`, `decodeComponent_rleCompress` — a component is read back.
* `readScanline_marked`, `readScanline_plain` — a line is read back, in either format.
* `new_headerText` — the header is read back.
* `head?_readScanlines_wide` — a line of width 32768 is taken for the other format.
* `roundTrip_iff` — images are read back for every width but one.
-/

/-! ### Items that cover the data -/

/-- The items cover the data from the index `i` on, each with a length that fits into its byte. -/
def Tiles (data : Bytes) : Nat → List RunOrNot → Prop
  | i, [] => i = data.length
  | i, .run c len :: items =>
    (0 < len ∧ len ≤ 127 ∧ i + len ≤ data.length) ∧
      slice data i (i + len) = List.replicate len c ∧ Tiles data (i + len) items
  | i, .norun idx len :: items =>
    (0 < len ∧ len ≤ 128 ∧ i + len ≤ data.length) ∧ idx = i ∧ Tiles data (i + len) items

/-- The first bytes of a run are the same, and there is at least one. -/
theorem runLength_spec (cv : UInt8) (rest : Bytes) :
    0 < runLength cv (cv :: rest) ∧ runLength cv (cv :: rest) ≤ 127 ∧
      runLength cv (cv :: rest) ≤ (cv :: rest).length ∧
      (cv :: rest).take (runLength cv (cv :: rest)) =
        List.replicate (runLength cv (cv :: rest)) cv := by
  have hprefix : ((cv :: rest).takeWhile (· = cv)).take runMaxLen <+: cv :: rest :=
    (List.take_prefix _ _).trans (List.takeWhile_prefix _)
  have htake := List.prefix_iff_eq_take.mp hprefix
  unfold runLength
  refine ⟨?_, ?_, hprefix.length_le, ?_⟩
  · simp [runMaxLen]
  · rw [List.length_take]
    exact Nat.min_le_left _ _
  · rw [← htake, List.eq_replicate_iff]
    refine ⟨rfl, fun b hb => ?_⟩
    have hmem := List.mem_takeWhile_imp (List.mem_of_mem_take hb)
    exact of_decide_eq_true hmem

variable {i : Nat}

theorem tiles_runsFrom {data : Bytes} {fuel : Nat} (hi : i ≤ data.length)
    (hfuel : data.length ≤ i + fuel) : Tiles data i (runsFrom fuel i (data.drop i)) := by
  induction fuel generalizing i with
  | zero =>
    show i = data.length
    omega
  | succ fuel ih =>
    cases hdrop : data.drop i with
    | nil =>
      have hend := List.drop_eq_nil_iff.mp hdrop
      show i = data.length
      omega
    | cons cv rest =>
      obtain ⟨hpos, hmax, hlen, htake⟩ := runLength_spec cv rest
      have hsize : (cv :: rest).length = data.length - i := by
        rw [← hdrop, List.length_drop]
      rw [runsFrom]
      generalize runLength cv (cv :: rest) = crun at hpos hmax hlen htake ⊢
      have hrest : (cv :: rest).drop crun = data.drop (i + crun) := by
        rw [← hdrop, List.drop_drop]
      have htiles := ih (show i + crun ≤ data.length by omega) (by omega)
      rw [hrest]
      split_ifs with hrun
      · refine ⟨⟨hpos, hmax, by omega⟩, ?_, htiles⟩
        rw [slice, Nat.add_sub_cancel_left, hdrop, htake]
      · exact ⟨⟨hpos, by omega, by omega⟩, rfl, htiles⟩

/-- Joining items keeps the cover; the item that is kept back counts as the first one. -/
theorem tiles_combine {data : Bytes} (prev : Option RunOrNot) (items : List RunOrNot)
    (h : Tiles data i (prev.toList ++ items)) : Tiles data i (combine prev items) := by
  fun_induction combine prev items generalizing i with
  | case1 items c len ih =>
    obtain ⟨hlen, hslice, hrest⟩ := h
    exact ⟨hlen, hslice, ih hrest⟩
  | case2 idx len idx₁ len₁ items hsum ih =>
    obtain ⟨⟨hpos, hmax, hlen⟩, rfl, ⟨hpos₁, hmax₁, hlen₁⟩, -, hrest⟩ := h
    unfold norunMaxLen at hsum
    rw [Nat.add_assoc] at hrest hlen₁
    exact ⟨⟨by omega, by omega, hlen₁⟩, rfl, ih hrest⟩
  | case3 idx len idx₁ len₁ items hne hmore ih =>
    obtain ⟨⟨hpos, hmax, hlen⟩, rfl, ⟨hpos₁, hmax₁, hlen₁⟩, -, hrest⟩ := h
    unfold norunMaxLen at hmore ih ⊢
    refine ⟨⟨by omega, by omega, by omega⟩, rfl, ih ⟨⟨by omega, by omega, by omega⟩, rfl, ?_⟩⟩
    have hend : idx + 128 + (len + len₁ - 128) = idx + len + len₁ := by omega
    rw [hend]
    exact hrest
  | case4 idx len idx₁ len₁ items hne hless ih =>
    obtain ⟨⟨hpos, hmax, hlen⟩, rfl, ⟨hpos₁, hmax₁, hlen₁⟩, -, hrest⟩ := h
    unfold norunMaxLen at hne hless
    apply ih
    rw [Nat.add_assoc] at hrest hlen₁
    exact ⟨⟨by omega, by omega, hlen₁⟩, rfl, hrest⟩
  | case5 idx len c len₁ items ih =>
    obtain ⟨hlen, hidx, hrest⟩ := h
    exact ⟨hlen, hidx, ih hrest⟩
  | case6 idx len ih =>
    obtain ⟨hlen, hidx, hrest⟩ := h
    exact ⟨hlen, hidx, ih hrest⟩
  | case7 idx len items ih => exact ih h
  | case8 c len items ih =>
    obtain ⟨hlen, hslice, hrest⟩ := h
    exact ⟨hlen, hslice, ih hrest⟩
  | case9 => exact h

/-! ### One component -/

theorem take_append_slice {data : Bytes} {len : Nat} :
    data.take i ++ slice data i (i + len) = data.take (i + len) := by
  rw [slice, Nat.add_sub_cancel_left, List.take_add]

/-- **Items that cover the data are read back.** -/
theorem decodeComponent_tiles {data : Bytes} {items : List RunOrNot} (h : Tiles data i items)
    (tail : Bytes) :
    ∃ pieces, items.mapM (rlePiece data) = some pieces ∧
      decodeComponent data.length (data.take i) (pieces.flatten ++ tail) = .ok (data, tail) := by
  induction items generalizing i with
  | nil =>
    obtain rfl : i = data.length := h
    unfold decodeComponent
    simp
  | cons item items ih =>
    cases item with
    | run c len =>
      obtain ⟨⟨hpos, hmax, hlen⟩, hslice, hrest⟩ := h
      obtain ⟨pieces, hpieces, hdecode⟩ := ih hrest
      refine ⟨[UInt8.ofNat (128 + len), c] :: pieces, ?_, ?_⟩
      · simp [hpieces, rlePiece, hmax]
      -- a length byte above 128 announces a run of the byte after it
      · have hrl : (UInt8.ofNat (128 + len)).toNat = 128 + len := by
          rw [UInt8.toNat_ofNat']
          omega
        have hout : (data.take i).length = i := by
          rw [List.length_take]
          omega
        show decodeComponent data.length (data.take i)
          (UInt8.ofNat (128 + len) :: c :: (pieces.flatten ++ tail)) = _
        rw [decodeComponent.eq_def]
        dsimp only
        rw [hrl, hout, if_pos (by omega)]
        rw [if_neg (by omega), if_neg (by omega), Nat.add_sub_cancel_left, ← hslice,
          take_append_slice, hdecode]
    | norun idx len =>
      obtain ⟨⟨hpos, hmax, hlen⟩, rfl, hrest⟩ := h
      obtain ⟨pieces, hpieces, hdecode⟩ := ih hrest
      refine ⟨(UInt8.ofNat len :: slice data idx (idx + len)) :: pieces, ?_, ?_⟩
      · simp [hpieces, rlePiece, hmax, slice?_eq (Nat.le_add_right idx len) hlen]
      -- one of at most 128 announces that many bytes as they are
      · have hrl : (UInt8.ofNat len).toNat = len := by
          rw [UInt8.toNat_ofNat']
          omega
        have hout : (data.take idx).length = idx := by
          rw [List.length_take]
          omega
        have hslice : (slice data idx (idx + len)).length = len := by
          rw [length_slice hlen]
          omega
        rw [List.flatten_cons, List.append_assoc]
        show decodeComponent data.length (data.take idx)
          (UInt8.ofNat len :: (slice data idx (idx + len) ++ (pieces.flatten ++ tail))) = _
        rw [decodeComponent.eq_def]
        dsimp only
        rw [hrl, hout, if_pos (by omega)]
        rw [if_pos hmax, if_neg (by omega), if_neg (by rw [List.length_append]; omega),
          List.take_left' hslice, List.drop_left' hslice, take_append_slice, hdecode]

/-- **A component is read back.** -/
theorem decodeComponent_rleCompress {data : Bytes} (hne : data ≠ []) :
    ∃ bytes, rleCompress data = some bytes ∧
      ∀ tail, decodeComponent data.length [] (bytes ++ tail) = .ok (data, tail) := by
  have htiles : Tiles data 0 (combine none (runs data)) :=
    tiles_combine none (runs data) (tiles_runsFrom (Nat.zero_le _) (by omega))
  unfold rleCompress
  rw [if_neg hne]
  obtain ⟨pieces, hpieces, -⟩ := decodeComponent_tiles htiles []
  refine ⟨pieces.flatten, by rw [hpieces]; rfl, fun tail => ?_⟩
  obtain ⟨pieces', hpieces', hdecode⟩ := decodeComponent_tiles htiles tail
  rw [hpieces, Option.some.injEq] at hpieces'
  rw [hpieces']
  exact hdecode

/-! ### One line -/

theorem zipComponents_map (scanline : List Rgbe8Pixel) :
    zipComponents (scanline.map Rgbe8Pixel.r) (scanline.map Rgbe8Pixel.g)
      (scanline.map Rgbe8Pixel.b) (scanline.map Rgbe8Pixel.e) = scanline := by
  induction scanline with
  | nil => rfl
  | cons p scanline ih =>
    simp [zipComponents, ih]

theorem readRgbe_bytes (p : Rgbe8Pixel) (tail : Bytes) : readRgbe (p.bytes ++ tail) = .ok (p,
    tail) :=
  rfl

variable {scanline : List Rgbe8Pixel}

/-- A component of a line, written and read back. -/
theorem decodeComponent_map (hne : scanline ≠ []) (component : Rgbe8Pixel → UInt8) :
    ∃ bytes, rleCompress (scanline.map component) = some bytes ∧
      ∀ tail, decodeComponent scanline.length [] (bytes ++ tail) =
        .ok (scanline.map component, tail) := by
  obtain ⟨bytes, hbytes, hdecode⟩ :=
    decodeComponent_rleCompress (show scanline.map component ≠ [] by simpa using hne)
  rw [List.length_map] at hdecode
  exact ⟨bytes, hbytes, hdecode⟩

/-- A line that is written by components, of a width that the marker can tell. -/
theorem readScanline_marked (hwidth : scanline.length < 32768) {r g b e : Bytes} (tail : Bytes)
    (hr : ∀ tail, decodeComponent scanline.length [] (r ++ tail) =
      .ok (scanline.map Rgbe8Pixel.r, tail))
    (hg : ∀ tail, decodeComponent scanline.length [] (g ++ tail) =
      .ok (scanline.map Rgbe8Pixel.g, tail))
    (hb : ∀ tail, decodeComponent scanline.length [] (b ++ tail) =
      .ok (scanline.map Rgbe8Pixel.b, tail))
    (he : ∀ tail, decodeComponent scanline.length [] (e ++ tail) =
      .ok (scanline.map Rgbe8Pixel.e, tail)) :
    readScanline scanline.length
      ((scanlineMarker scanline.length).bytes ++ (r ++ (g ++ (b ++ (e ++ tail))))) =
      .ok (scanline, tail) := by
  have hmarker : (scanlineMarker scanline.length).r = 2 ∧ (scanlineMarker scanline.length).g = 2 ∧
      (scanlineMarker scanline.length).b < 128 := by
    refine ⟨rfl, rfl, ?_⟩
    show (UInt8.ofNat (scanline.length / 256)).toNat < 128
    rw [UInt8.toNat_ofNat']
    omega
  unfold readScanline
  rw [readRgbe_bytes]
  dsimp only [bind, Except.bind]
  rw [if_pos hmarker, hr]
  dsimp only
  rw [hg]
  dsimp only
  rw [hb]
  simp [he, zipComponents_map]

/-- A pixel that is neither a marker of a line nor one of a run: black, or with a bright component. -/
def Rgbe8Pixel.Normal (p : Rgbe8Pixel) : Prop :=
  p = ⟨0, 0, 0, 0⟩ ∨ 128 ≤ p.r ∨ 128 ≤ p.g ∨ 128 ≤ p.b

theorem Rgbe8Pixel.Normal.not_marker {p : Rgbe8Pixel} (h : p.Normal) :
    rlMarker p = none ∧ ¬(p.r = 2 ∧ p.g = 2 ∧ p.b < 128) := by
  constructor
  · unfold rlMarker
    rw [if_neg]
    rintro ⟨hr, hg, hb⟩
    rcases h with rfl | h | h | h
    · exact absurd hr (by decide)
    · exact absurd (hr ▸ h) (by decide)
    · exact absurd (hg ▸ h) (by decide)
    · exact absurd (hb ▸ h) (by decide)
  · rintro ⟨hr, hg, hb⟩
    rcases h with rfl | h | h | h
    · exact absurd hr (by decide)
    · exact absurd (hr ▸ h) (by decide)
    · exact absurd (hg ▸ h) (by decide)
    · exact absurd h (UInt8.not_le.mpr hb)

/-- Pixels that are no markers are read one by one. -/
theorem decodeOldRleLoop_normal {pixels : List Rgbe8Pixel} (h : ∀ p ∈ pixels, p.Normal)
    (out : List Rgbe8Pixel) (rlMult : Nat) (prevPixel : Rgbe8Pixel) (tail : Bytes) :
    decodeOldRleLoop (out.length + pixels.length) out rlMult prevPixel
      (pixels.flatMap Rgbe8Pixel.bytes ++ tail) = .ok (out ++ pixels, tail) := by
  induction pixels generalizing out rlMult prevPixel with
  | nil =>
    simp [decodeOldRleLoop.eq_def]
  | cons p pixels ih =>
    have hp := (h p (List.mem_cons_self ..)).not_marker.1
    have hrest := ih (fun q hq => h q (List.mem_cons_of_mem _ hq)) (out ++ [p]) 1 p
    rw [List.flatMap_cons, List.append_assoc, List.length_cons, decodeOldRleLoop.eq_def,
      if_pos (by omega)]
    have hlen : out.length + (pixels.length + 1) = (out ++ [p]).length + pixels.length := by
      rw [List.length_append, List.length_singleton]
      omega
    split
    · rename_i e herror
      rw [readRgbe_bytes] at herror
      exact absurd herror (by simp)
    · rename_i pix r' hread
      rw [readRgbe_bytes, Except.ok.injEq, Prod.mk.injEq] at hread
      obtain ⟨rfl, rfl⟩ := hread
      rw [hp]
      rw [hlen, hrest, List.append_assoc]
      rfl

/-- A line that is written pixel by pixel. -/
theorem readScanline_plain (hne : scanline ≠ []) (h : ∀ p ∈ scanline, p.Normal) (tail : Bytes) :
    readScanline scanline.length (scanline.flatMap Rgbe8Pixel.bytes ++ tail) =
      .ok (scanline, tail) := by
  cases scanline with
  | nil => exact absurd rfl hne
  | cons p pixels =>
    obtain ⟨hmarker, hnew⟩ := (h p (List.mem_cons_self ..)).not_marker
    have hloop := decodeOldRleLoop_normal (fun q hq => h q (List.mem_cons_of_mem _ hq)) [p] 1 p tail
    rw [List.length_singleton, Nat.add_comm] at hloop
    unfold readScanline
    rw [List.flatMap_cons, List.append_assoc, readRgbe_bytes]
    dsimp only [bind, Except.bind]
    simp [hnew, decodeOldRle, hmarker, hloop]

/-! ### All lines -/

variable {lines : Nat}

/-- The first line of an image, and the others. -/
theorem readScanlines_cons {width : Nat} {rest : List Rgbe8Pixel} {r r' : Bytes}
    (h : readScanline width r = .ok (scanline,
      r')) (hrest : readScanlines width lines r' = .ok rest) :
    readScanlines width (lines + 1) r = .ok (scanline ++ rest) := by
  simp [readScanlines, h, bind, Except.bind, hrest]

theorem readScanlines_plain {width : Nat} (hw : 0 < width) {q : List Rgbe8Pixel}
    (hlen : q.length = lines * width) (h : ∀ p ∈ q, p.Normal) (tail : Bytes) :
    readScanlines width lines (q.flatMap Rgbe8Pixel.bytes ++ tail) = .ok q := by
  induction lines generalizing q with
  | zero =>
    rw [Nat.zero_mul] at hlen
    obtain rfl : q = [] := List.eq_nil_of_length_eq_zero hlen
    rfl
  | succ lines ih =>
    obtain ⟨hline, hrest, -⟩ := chunks_line hw hlen
    have hne : q.take width ≠ [] := List.ne_nil_of_length_pos (by omega)
    have hread := readScanline_plain hne
      (fun p hp => h p (List.mem_of_mem_take hp)) ((q.drop width).flatMap Rgbe8Pixel.bytes ++ tail)
    rw [hline, ← List.append_assoc, ← List.flatMap_append, List.take_append_drop] at hread
    have hlines := readScanlines_cons hread (ih hrest fun p hp => h p (List.mem_of_mem_drop hp))
    rw [List.take_append_drop] at hlines
    exact hlines

/-- Lines by components are written, and read back when the marker can tell their width. -/
theorem readScanlines_marked {width : Nat} (hw : 0 < width) (hw' : width < 32768)
    {q : List Rgbe8Pixel} (hlen : q.length = lines * width) (buf : List Rgbe8Pixel)
    (hbuf : buf.length = width) :
    ∃ bytes, encodeScanlines width buf (chunks width q) = some bytes ∧
      ∀ tail, readScanlines width lines (bytes ++ tail) = .ok q := by
  induction lines generalizing q buf with
  | zero =>
    rw [Nat.zero_mul] at hlen
    obtain rfl : q = [] := List.eq_nil_of_length_eq_zero hlen
    exact ⟨[], rfl, fun _ => rfl⟩
  | succ lines ih =>
    obtain ⟨hline, hrest, hchunks⟩ := chunks_line hw hlen
    have hne : q.take width ≠ [] := List.ne_nil_of_length_pos (by omega)
    -- the whole buffer is overwritten
    have hover : q.take width ++ buf.drop (q.take width).length = q.take width := by
      rw [hline, List.drop_eq_nil_of_le (le_of_eq hbuf), List.append_nil]
    obtain ⟨r, hr, hr'⟩ := decodeComponent_map hne Rgbe8Pixel.r
    obtain ⟨g, hg, hg'⟩ := decodeComponent_map hne Rgbe8Pixel.g
    obtain ⟨b, hb, hb'⟩ := decodeComponent_map hne Rgbe8Pixel.b
    obtain ⟨e, he, he'⟩ := decodeComponent_map hne Rgbe8Pixel.e
    obtain ⟨bytes, hbytes, hread⟩ := ih hrest (q.take width) hline
    refine ⟨(scanlineMarker width).bytes ++ r ++ g ++ b ++ e ++ bytes, ?_, fun tail => ?_⟩
    · rw [hchunks, encodeScanlines]
      rw [hover, hr, hg, hb, he, hbytes]
      rfl
    · have hfirst := readScanline_marked (by omega) (bytes ++ tail) hr' hg' hb' he'
      rw [hline] at hfirst
      have hlines := readScanlines_cons hfirst (hread tail)
      rw [List.take_append_drop] at hlines
      simpa only [List.append_assoc] using hlines

/-! ### The header -/

theorem readLineU8_append (line : Bytes) (h : ∀ b ∈ line, b ≠ 10) (rest : Bytes) :
    readLineU8 (line ++ 10 :: rest) = (some line, rest) := by
  have htake : (line ++ 10 :: rest).takeWhile (fun b => decide (b ≠ 10)) = line := by
    rw [List.takeWhile_append_of_pos (by simpa using h), List.takeWhile_cons_of_neg (by simp),
      List.append_nil]
  have hdrop : (line ++ 10 :: rest).dropWhile (fun b => decide (b ≠ 10)) = 10 :: rest := by
    rw [List.dropWhile_append_of_pos (by simpa using h), List.dropWhile_cons_of_neg (by simp)]
  unfold readLineU8
  split
  · rename_i hnil
    exact absurd hnil (by simp)
  · rw [htake, hdrop]
    rfl

section

variable {F : Type} [One F] [Mul F] {parseF32 : List Char → Option F}

variable {attributes : HdrMetadata F}

/-- A line of the header that is not empty. -/
theorem readHeader_line {r rest : Bytes} {c : UInt8} {line : Bytes}
    (h : readLineU8 r = (some (c :: line), rest)) :
    readHeader parseF32 attributes r =
      if c = 35 then readHeader parseF32 attributes rest
      else
        match attributes.updateHeaderInfo parseF32 (fromUtf8Lossy (c :: line)) with
        | .error e => .error e
        | .ok attributes => readHeader parseF32 attributes rest := by
  rw [readHeader.eq_def]
  split
  · rename_i heq
    exact absurd (h.symm.trans heq) (by simp)
  · rename_i heq
    exact absurd (h.symm.trans heq) (by simp)
  · rename_i c' line' rest' heq
    rw [h, Prod.mk.injEq, Option.some.injEq, List.cons.injEq] at heq
    obtain ⟨⟨rfl, rfl⟩, rfl⟩ := heq
    rfl

/-- The empty line at the end of the header. -/
theorem readHeader_end {r rest : Bytes} (h : readLineU8 r = (some [], rest)) :
    readHeader parseF32 attributes r = .ok (attributes, rest) := by
  rw [readHeader.eq_def]
  split
  · rename_i heq
    exact absurd (h.symm.trans heq) (by simp)
  · rename_i rest' heq
    rw [h, Prod.mk.injEq] at heq
    rw [heq.2]
  · rename_i heq
    exact absurd (h.symm.trans heq) (by simp)

/-- The line of the dimensions. -/
def dimensionsText (width height : Nat) : List Char :=
  "-Y ".toList ++ decimal height ++ " +X ".toList ++ decimal width

theorem parseDimensionsLine_text {width height : Nat} (hw : width < 2 ^ 32) (hh : height < 2 ^ 32) :
    parseDimensionsLine (dimensionsText width height) = .ok (width, height) := by
  have hspace : isWhitespace ' ' = true := by decide
  have hy : IsWord "-Y".toList := ⟨by decide, forall_of_all (by decide)⟩
  have hx : IsWord "+X".toList := ⟨by decide, forall_of_all (by decide)⟩
  have hwords : splitWhitespace (dimensionsText width height) =
      ["-Y".toList, decimal height, "+X".toList, decimal width] := by
    have htext : dimensionsText width height = "-Y".toList ++ ' ' ::
        (decimal height ++ ' ' :: ("+X".toList ++ ' ' :: decimal width)) := by
      simp [dimensionsText]
    rw [htext, splitWhitespace_cons hy hspace, splitWhitespace_cons (isWord_decimal height) hspace,
      splitWhitespace_cons hx hspace, splitWhitespace_word (isWord_decimal width)]
  unfold parseDimensionsLine
  rw [hwords]
  dsimp only
  rw [if_pos ⟨rfl, rfl⟩, parseUnsigned_decimal hh]
  rw [parseUnsigned_decimal hw]

theorem ascii_dimensionsText (width height : Nat) : Ascii (dimensionsText width height) := by
  unfold dimensionsText
  rw [ascii_append, ascii_append, ascii_append]
  exact ⟨⟨⟨forall_of_all (by decide), ascii_decimal height⟩, forall_of_all (by decide)⟩,
    ascii_decimal width⟩

/-- There is no line feed in the line of the dimensions. -/
theorem dimensionsText_ne_lineFeed {width height : Nat} {b : UInt8}
    (h : b ∈ asciiBytes (dimensionsText width height)) : b ≠ 10 := by
  obtain ⟨c, hc, -, hb⟩ := mem_asciiBytes (ascii_dimensionsText width height) h
  have hc' : c.toNat ≠ 10 := by
    unfold dimensionsText at hc
    rw [List.mem_append, List.mem_append, List.mem_append] at hc
    have hdecimal : ∀ n, c ∈ decimal n → c.toNat ≠ 10 := by
      intro n hn
      have hdigit := toNat_of_isDigit (isDigit_of_mem_decimal hn)
      omega
    have hy : ∀ c ∈ "-Y ".toList, c.toNat ≠ 10 := forall_of_all (by decide)
    have hx : ∀ c ∈ " +X ".toList, c.toNat ≠ 10 := forall_of_all (by decide)
    rcases hc with ((hc | hc) | hc) | hc
    · exact hy c hc
    · exact hdecimal height hc
    · exact hx c hc
    · exact hdecimal width hc
  intro h10
  rw [h10] at hb
  exact hc' hb.symm

/-- The line of the format is an attribute like others. -/
theorem updateHeaderInfo_format (parseF32 : List Char → Option F) :
    (HdrMetadata.new : HdrMetadata F).updateHeaderInfo parseF32
      (fromUtf8Lossy (70 :: asciiBytes "ORMAT=32-bit_rle_rgbe".toList)) =
        .ok { (HdrMetadata.new : HdrMetadata F) with
          customAttributes := [("FORMAT".toList, "32-bit_rle_rgbe".toList)] } := by
  have hascii : Ascii "FORMAT=32-bit_rle_rgbe".toList := forall_of_all (by decide)
  have hbytes : 70 :: asciiBytes "ORMAT=32-bit_rle_rgbe".toList =
    asciiBytes "FORMAT=32-bit_rle_rgbe".toList := by decide
  have hsplit : splitAtFirst "FORMAT=32-bit_rle_rgbe".toList '=' =
      some ("FORMAT".toList, "32-bit_rle_rgbe".toList) := by decide
  rw [hbytes, fromUtf8Lossy_asciiBytes hascii]
  unfold HdrMetadata.updateHeaderInfo
  rw [hsplit, Option.map_some]
  rfl

variable (parseF32) in
/-- **The header is read back.** What follows is left to be read. -/
theorem new_headerText {width height : Nat} (hw : width < 2 ^ 32) (hh : height < 2 ^ 32)
    (hdim : checkDimensionOverflow width height 3 = false) (body : Bytes) :
    ∃ attributes : HdrMetadata F,
      HdrDecoder.new parseF32 (asciiBytes (headerText width height) ++ body) =
        .ok ⟨body, width, height, attributes⟩ := by
  have hbytes : asciiBytes (headerText width height) ++ body =
      signature ++ ([] ++ 10 :: (35 :: asciiBytes " Rust HDR encoder".toList ++ 10 ::
        (70 :: asciiBytes "ORMAT=32-bit_rle_rgbe".toList ++ 10 :: ([] ++ 10 ::
          (asciiBytes (dimensionsText width height) ++ 10 :: body))))) := by
    unfold headerText dimensionsText
    simp only [asciiBytes_append, List.append_assoc, List.nil_append]
    rfl
  -- the lines, from the last one to the first
  have hdims := readLineU8_append (asciiBytes (dimensionsText width height))
    (fun b hb => dimensionsText_ne_lineFeed hb) body
  generalize asciiBytes (dimensionsText width height) ++ 10 :: body = r₁ at hbytes hdims
  have hempty := readLineU8_append [] (by simp) r₁
  generalize [] ++ 10 :: r₁ = r₂ at hbytes hempty
  have hformat := readLineU8_append (70 :: asciiBytes "ORMAT=32-bit_rle_rgbe".toList)
    (forall_of_all (by decide)) r₂
  generalize 70 :: asciiBytes "ORMAT=32-bit_rle_rgbe".toList ++ 10 :: r₂ = r₃ at hbytes hformat
  have hcomment := readLineU8_append (35 :: asciiBytes " Rust HDR encoder".toList)
    (forall_of_all (by decide)) r₃
  generalize 35 :: asciiBytes " Rust HDR encoder".toList ++ 10 :: r₃ = r₄ at hbytes hcomment
  have hfirst := readLineU8_append [] (by simp) r₄
  have hheader : readHeader parseF32 (HdrMetadata.new : HdrMetadata F) r₄ =
      .ok ({ (HdrMetadata.new : HdrMetadata F) with
        customAttributes := [("FORMAT".toList, "32-bit_rle_rgbe".toList)] }, r₁) := by
    rw [readHeader_line hcomment, if_pos rfl, readHeader_line hformat, if_neg (by decide),
      updateHeaderInfo_format]
    exact readHeader_end hempty
  have hlen : ¬(signature ++ ([] ++ 10 :: r₄)).length < signature.length := by
    rw [List.length_append]
    omega
  have htake : (signature ++ ([] ++ 10 :: r₄)).take signature.length = signature :=
    List.take_left' rfl
  have hdrop : (signature ++ ([] ++ 10 :: r₄)).drop signature.length = [] ++ 10 :: r₄ :=
    List.drop_left' rfl
  rw [hbytes]
  refine ⟨{ (HdrMetadata.new : HdrMetadata F) with
    customAttributes := [("FORMAT".toList, "32-bit_rle_rgbe".toList)]
    width := width
    height := height }, ?_⟩
  unfold HdrDecoder.new
  rw [if_neg hlen, htake, if_neg (not_not_intro rfl), hdrop, hfirst, hheader]
  dsimp only
  rw [hdims]
  dsimp only
  rw [fromUtf8Lossy_asciiBytes (ascii_dimensionsText width height), parseDimensionsLine_text hw hh]
  dsimp only
  rw [if_neg]
  rw [show ColorType.rgb8.bytesPerPixel = 3 from rfl, hdim]
  exact Bool.false_ne_true

end

/-! ### The width that the marker cannot tell -/

/-- Pixels that have been set stay. -/
theorem prefix_decodeOldRleLoop {width : Nat} {out : List Rgbe8Pixel} {rlMult : Nat}
    {prevPixel : Rgbe8Pixel} {r r' : Bytes} {out' : List Rgbe8Pixel}
    (h : decodeOldRleLoop width out rlMult prevPixel r = .ok (out', r')) : out <+: out' := by
  fun_induction decodeOldRleLoop width out rlMult prevPixel r with
  | case1 => exact absurd h (by simp)
  | case2 => exact absurd h (by simp)
  | case3 out rlMult prevPixel r hlt pix rest hread rl hrl hsmall hfits ih =>
    exact (List.prefix_append _ _).trans (ih h)
  | case4 => exact absurd h (by simp)
  | case5 out rlMult prevPixel r hlt pix rest hread hrl ih =>
    exact (List.prefix_append _ _).trans (ih h)
  | case6 => exact absurd h (by simp)
  | case7 out rlMult prevPixel r hlt hne =>
    rw [Except.ok.injEq, Prod.mk.injEq] at h
    exact h.1 ▸ List.prefix_rfl

/-- **A marker that cannot be told** is read as the first pixel of a line. -/
theorem head?_readScanlines_wide {lines : Nat} {tail : Bytes} {q : List Rgbe8Pixel}
    (h : readScanlines 32768 (lines + 1) ((scanlineMarker 32768).bytes ++ tail) = .ok q) :
    q.head? = some ⟨2, 2, 128, 0⟩ := by
  have hmarker : scanlineMarker 32768 = ⟨2, 2, 128, 0⟩ := by decide
  rw [readScanlines] at h
  unfold readScanline at h
  rw [readRgbe_bytes, hmarker] at h
  dsimp only [bind, Except.bind] at h
  rw [if_neg (by decide)] at h
  unfold decodeOldRle at h
  rw [if_neg (by decide)] at h
  cases hline : decodeOldRleLoop 32768 [⟨2, 2, 128, 0⟩] 1 ⟨2, 2, 128, 0⟩ tail with
  | error e =>
    rw [hline] at h
    exact absurd h (by simp)
  | ok result =>
    obtain ⟨scanline, r⟩ := result
    rw [hline] at h
    dsimp only at h
    cases hrest : readScanlines 32768 lines r with
    | error e =>
      rw [hrest] at h
      exact absurd h (by simp)
    | ok rest =>
      rw [hrest, Except.ok.injEq] at h
      obtain ⟨more, hmore⟩ := prefix_decodeOldRleLoop hline
      rw [← h, ← hmore]
      rfl

/-- What is written for lines starts with the marker. -/
theorem encodeScanlines_marker {width : Nat} {buf scanline : List Rgbe8Pixel}
    {rest : List (List Rgbe8Pixel)} {bytes : Bytes}
    (h : encodeScanlines width buf (scanline :: rest) = some bytes) :
    ∃ tail, bytes = (scanlineMarker width).bytes ++ tail := by
  rw [encodeScanlines] at h
  simp only [Option.bind_eq_bind, Option.bind_eq_some_iff, Option.some.injEq] at h
  obtain ⟨r, -, g, -, b, -, e, -, tail, -, rfl⟩ := h
  exact ⟨r ++ (g ++ (b ++ (e ++ tail))), by simp only [List.append_assoc]⟩

/-! ### The round trip -/

section

variable {F P : Type} [One F] [Mul F]

/-- The bytes that are written for an image are accepted, and its pixels are read back. -/
def RoundTrip (parseF32 : List Char → Option F) (toRgbe8 : P → Rgbe8Pixel) (data : List P)
    (width height : Nat) : Prop :=
  ∃ bytes, encode toRgbe8 data width height = some bytes ∧
    ∃ decoder, HdrDecoder.new parseF32 bytes = .ok decoder ∧
      decoder.readImageNative = .ok (data.map toRgbe8)

variable {parseF32 : List Char → Option F} {toRgbe8 : P → Rgbe8Pixel} {data : List P}
  {width height : Nat}

/-- The body that is written behind the header, and what it is read back as. -/
theorem roundTrip_of_body {body : Bytes} (hw : 1 ≤ width) (hh : 1 ≤ height) (hw' : width < 2 ^ 32)
    (hh' : height < 2 ^ 32) (hdim : checkDimensionOverflow width height 3 = false)
    (hencode : encode toRgbe8 data width height =
      some (asciiBytes (headerText width height) ++ body)) :
    RoundTrip parseF32 toRgbe8 data width height ↔
      readScanlines width height body = .ok (data.map toRgbe8) := by
  obtain ⟨attributes, hnew⟩ := new_headerText parseF32 hw' hh' hdim body
  have hread : (⟨body, width, height, attributes⟩ : HdrDecoder F).readImageNative =
      readScanlines width height body := by
    unfold HdrDecoder.readImageNative
    rw [if_neg (by dsimp only; omega)]
  constructor
  · rintro ⟨bytes, hbytes, decoder, hdecoder, himage⟩
    rw [hencode, Option.some.injEq] at hbytes
    rw [← hbytes, hnew, Except.ok.injEq] at hdecoder
    rw [← hdecoder, hread] at himage
    exact himage
  · intro h
    exact ⟨_, hencode, _, hnew, hread.trans h⟩

/-- An image of another width is read back. -/
theorem roundTrip_of_ne (hw : 1 ≤ width) (hh : 1 ≤ height) (hw' : width < 2 ^ 32)
    (hh' : height < 2 ^ 32) (hdim : checkDimensionOverflow width height 3 = false)
    (hne : width ≠ 32768) (hlen : data.length = width * height)
    (hnormal : ∀ p ∈ data, (toRgbe8 p).Normal) :
    RoundTrip parseF32 toRgbe8 data width height := by
  have hlen' : (data.map toRgbe8).length = height * width := by
    rw [List.length_map, hlen, Nat.mul_comm]
  by_cases hplain : width < 8 ∨ 32768 < width
  · have hencode : encode toRgbe8 data width height =
        some (asciiBytes (headerText width height) ++
          ((data.map toRgbe8).flatMap Rgbe8Pixel.bytes ++ [])) := by
      unfold encode
      rw [if_pos (le_of_eq hlen.symm), List.append_nil, List.flatMap_map]
      rw [if_pos hplain]
    apply (roundTrip_of_body hw hh hw' hh' hdim hencode).mpr
    apply readScanlines_plain hw hlen'
    intro p hp
    obtain ⟨x, hx, rfl⟩ := List.mem_map.mp hp
    exact hnormal x hx
  · obtain ⟨bytes, hbytes, hread⟩ := readScanlines_marked hw (by omega) hlen'
      (List.replicate width ⟨0, 0, 0, 0⟩) (List.length_replicate ..)
    have hencode : encode toRgbe8 data width height =
        some (asciiBytes (headerText width height) ++ bytes) := by
      unfold encode
      rw [if_pos (le_of_eq hlen.symm)]
      rw [if_neg hplain, ← chunks_map, hbytes]
      rfl
    apply (roundTrip_of_body hw hh hw' hh' hdim hencode).mpr
    have hall := hread []
    rw [List.append_nil] at hall
    exact hall

/-- An image of that one width is read back only if its first pixel is like the marker. -/
theorem head?_of_roundTrip_wide (hh : 1 ≤ height) (hh' : height < 2 ^ 32)
    (hdim : checkDimensionOverflow 32768 height 3 = false) (hlen : data.length = 32768 * height)
    (h : RoundTrip parseF32 toRgbe8 data 32768 height) :
    (data.map toRgbe8).head? = some ⟨2, 2, 128, 0⟩ := by
  obtain ⟨bytes, hbytes, -⟩ := id h
  obtain ⟨lines, rfl⟩ : ∃ lines, height = lines + 1 := ⟨height - 1, by omega⟩
  have hlen' : (data.map toRgbe8).length = (lines + 1) * 32768 := by
    rw [List.length_map, hlen, Nat.mul_comm]
  obtain ⟨-, -, hchunks⟩ := chunks_line (by omega) hlen'
  -- the marker is the first thing behind the header
  have hbody : ∃ tail, bytes = asciiBytes (headerText 32768 (lines + 1)) ++
      ((scanlineMarker 32768).bytes ++ tail) := by
    unfold encode at hbytes
    rw [if_pos (le_of_eq hlen.symm)] at hbytes
    rw [if_neg (by omega), ← chunks_map, hchunks, Option.map_eq_some_iff] at hbytes
    obtain ⟨body, hbody, rfl⟩ := hbytes
    obtain ⟨tail, rfl⟩ := encodeScanlines_marker hbody
    exact ⟨tail, rfl⟩
  obtain ⟨tail, rfl⟩ := hbody
  have hread := (roundTrip_of_body (by omega) hh (by omega) hh' hdim hbytes).mp h
  exact head?_readScanlines_wide hread

/-- **Images are read back for every width but one.** For dimensions that the decoder accepts, the
    round trip holds for all pixels that are no markers if and only if the width is not 32768. -/
theorem roundTrip_iff (parseF32 : List Char → Option F) (toRgbe8 : P → Rgbe8Pixel)
    (hblack : ∃ p, toRgbe8 p = ⟨0, 0, 0, 0⟩) (width height : Nat) (hw : 1 ≤ width)
    (hh : 1 ≤ height) (hw' : width < 2 ^ 32) (hh' : height < 2 ^ 32)
    (hdim : checkDimensionOverflow width height 3 = false) :
    (∀ data : List P, data.length = width * height → (∀ p ∈ data, (toRgbe8 p).Normal) →
      RoundTrip parseF32 toRgbe8 data width height) ↔ width ≠ 32768 := by
  constructor
  · rintro h rfl
    obtain ⟨black, hblack⟩ := hblack
    have hlen : (List.replicate (32768 * height) black).length = 32768 * height :=
      List.length_replicate ..
    have htrip := h (List.replicate (32768 * height) black) hlen fun p hp => by
      rw [List.eq_of_mem_replicate hp]
      exact Or.inl hblack
    have hhead := head?_of_roundTrip_wide hh hh' hdim hlen htrip
    rw [List.map_replicate, List.head?_replicate, if_neg (by omega), hblack] at hhead
    exact absurd hhead (by decide)
  · intro hne data hlen hnormal
    exact roundTrip_of_ne hw hh hw' hh' hdim hne hlen hnormal

theorem roundTrip_iff_three :
    (∀ data : List Rgbe8Pixel, data.length = 3 * 1 → (∀ p ∈ data, p.Normal) →
      RoundTrip (fun _ => none : List Char → Option Nat) id data 3 1) ↔ 3 ≠ 32768 :=
  roundTrip_iff (fun _ => none : List Char → Option Nat) id ⟨⟨0, 0, 0, 0⟩, rfl⟩ 3 1 (by decide)
    (by decide) (by decide) (by decide) (by decide)

/-- A black image of that width is not read back. -/
theorem wide_black_image : ¬RoundTrip (fun _ => none : List Char → Option Nat) id
    (List.replicate 32768 (⟨0, 0, 0, 0⟩ : Rgbe8Pixel)) 32768 1 := by
  intro h
  have hlen : (List.replicate 32768 (⟨0, 0, 0, 0⟩ : Rgbe8Pixel)).length = 32768 * 1 := by
    rw [List.length_replicate]
  have hhead := head?_of_roundTrip_wide (le_refl 1) (by decide) (by decide) hlen h
  rw [List.map_replicate, List.head?_replicate, if_neg (by decide)] at hhead
  exact absurd hhead (by decide)

end

end TeaclaveCrates.Image.Hdr
