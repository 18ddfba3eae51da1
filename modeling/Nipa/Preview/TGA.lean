import Nipa.Preview.Image

/-!
# TGA

A header of 18 bytes, an identification, a colour map and the pixels, plain or in packets of
runs.
-/

namespace Nipa

open Support Faulty

namespace Preview

def tgaHeaderSize : ℕ := 18

def tgaColorMapped : ℕ := 1
def tgaTrueColor : ℕ := 2
def tgaGray : ℕ := 3
def tgaRLEColorMapped : ℕ := 9
def tgaRLETrueColor : ℕ := 10
def tgaRLEGray : ℕ := 11

structure TGAHeader where
  idLength : ℕ
  colorMapType : ℕ
  imageType : ℕ
  cmFirst : ℕ
  cmLength : ℕ
  cmDepth : ℕ
  width : ℕ
  height : ℕ
  depth : ℕ
  descriptor : ℕ

namespace TGAHeader

variable (h : TGAHeader)

def ColorMapped : Prop :=
  h.imageType = tgaColorMapped ∨ h.imageType = tgaRLEColorMapped
  deriving Decidable

def TrueColor : Prop :=
  h.imageType = tgaTrueColor ∨ h.imageType = tgaRLETrueColor
  deriving Decidable

def Gray : Prop :=
  h.imageType = tgaGray ∨ h.imageType = tgaRLEGray
  deriving Decidable

end TGAHeader

def ValidTGADepth (depth : ℕ) : Prop :=
  depth = 15 ∨ depth = 16 ∨ depth = 24 ∨ depth = 32
  deriving Decidable

/-- The header without the checks. -/
def readTGAHeader (data : Bytes) : Decoder TGAHeader := do
  return {
    idLength := (← elem data 0).toNat
    colorMapType := (← elem data 1).toNat
    imageType := (← elem data 2).toNat
    cmFirst := ← littleEndian 2 (← sliceFrom data 3)
    cmLength := ← littleEndian 2 (← sliceFrom data 5)
    cmDepth := (← elem data 7).toNat
    width := ← littleEndian 2 (← sliceFrom data 12)
    height := ← littleEndian 2 (← sliceFrom data 14)
    depth := (← elem data 16).toNat
    descriptor := (← elem data 17).toNat }

def checkTGAHeader (h : TGAHeader) : Decoder Unit :=
  if h.ColorMapped then do
    failIf (h.colorMapType ≠ 1 ∨ h.depth ≠ 8) (.unsupported [])
    failIf (¬ ValidTGADepth h.cmDepth) (.unsupported [])
  else if h.TrueColor then failIf (¬ ValidTGADepth h.depth) (.unsupported [])
  else if h.Gray then failIf (h.depth ≠ 8 ∧ h.depth ≠ 16) (.unsupported [])
  else fail (.unsupported [])

def parseTGAHeader (data : Bytes) : Decoder TGAHeader := do
  failIf (data.length < tgaHeaderSize) .tgaTruncated
  let h ← readTGAHeader data
  checkTGAHeader h
  checkSize h.width h.height
  return h

def expand5 (v : ℕ) : UInt8 :=
  let v := v &&& 0x1f
  UInt8.ofNat (v <<< 3 ||| v >>> 2)

def tgaColor (px : Bytes) (depth alphaBits : ℕ) : Decoder (UInt8 × UInt8 × UInt8 × UInt8) :=
  if depth = 15 ∨ depth = 16 then do
    let v ← littleEndian 2 px
    return (expand5 (v >>> 10), expand5 (v >>> 5), expand5 v,
      if depth = 16 ∧ alphaBits > 0 ∧ v &&& 0x8000 = 0 then 0 else 0xff)
  else if depth = 24 then do
    return (← elem px 2, ← elem px 1, ← elem px 0, 0xff)
  else do
    return (← elem px 2, ← elem px 1, ← elem px 0, ← elem px 3)

/-- One packet: a run of one pixel, or that many pixels. -/
def tgaPacket (data : Bytes) (bpp total : ℕ) (s : Bytes × ℕ) :
    Decoder (Bytes ⊕ Bytes × ℕ) :=
  if s.1.length < total then do
    failIf (s.2 ≥ data.length) .tgaTruncated
    let packet ← elem data s.2
    let pos := s.2 + 1
    let count := (packet &&& 0x7f).toNat + 1
    if packet &&& 0x80 ≠ 0 then
      failIf (pos + bpp > data.length) .tgaTruncated
      let out ← forRange count s.1 fun out _ => do return out ++ (← slice data pos (pos + bpp))
      return .inr (out, pos + bpp)
    else
      failIf (pos + count * bpp > data.length) .tgaTruncated
      return .inr (s.1 ++ (← slice data pos (pos + count * bpp)), pos + count * bpp)
  else return .inl s.1

def tgaPixels (data : Bytes) (h : TGAHeader) (bpp : ℕ) : Decoder Bytes :=
  let total := h.width * h.height * bpp
  if h.imageType ≥ tgaRLEColorMapped then do
    let out ← loop (tgaPacket data bpp total) (data.length + 1) ([], 0)
    if out.length > total then slice out 0 total else return out
  else do
    failIf (data.length < total) .tgaTruncated
    slice data 0 total

/-- The entries of the colour map, when the pixels need them. -/
def tgaEntries (data : Bytes) (h : TGAHeader) (pos entry alphaBits : ℕ) :
    Decoder (List (UInt8 × UInt8 × UInt8 × UInt8)) :=
  if h.ColorMapped then
    (List.range h.cmLength).mapM fun i => do
      tgaColor (← sliceFrom data (pos + i * entry)) h.cmDepth alphaBits
  else return []

/-- The colour map, and where the pixels start. -/
def tgaPalette (data : Bytes) (h : TGAHeader) (pos alphaBits : ℕ) :
    Decoder (List (UInt8 × UInt8 × UInt8 × UInt8) × ℕ) :=
  if h.colorMapType = 1 then do
    let entry := (h.cmDepth + 7) / 8
    let size := h.cmLength * entry
    failIf (pos + size > data.length) .tgaTruncated
    let palette ← tgaEntries data h pos entry alphaBits
    return (palette, pos + size)
  else return ([], pos)

def tgaPixel (h : TGAHeader) (palette : List (UInt8 × UInt8 × UInt8 × UInt8)) (bpp alphaBits : ℕ)
    (px : Bytes) : Decoder (UInt8 × UInt8 × UInt8 × UInt8) :=
  if h.ColorMapped then do
    let idx : ℤ := (← elem px 0).toNat - h.cmFirst
    if idx ≥ 0 ∧ idx < palette.length then elem palette idx.toNat else return (0, 0, 0, 0)
  else if h.Gray then do
    let v ← elem px 0
    if bpp = 2 then return (v, v, v, ← elem px 1) else return (v, v, v, 0xff)
  else tgaColor px h.depth alphaBits

def decodeTGA {F : Type} (data : Bytes) : Decoder (Image F) := do
  let h ← parseTGAHeader data
  let pos := tgaHeaderSize + h.idLength
  failIf (pos > data.length) .tgaTruncated
  let alphaBits := h.descriptor &&& 0x0f
  let (palette, pos) ← tgaPalette data h pos alphaBits
  let bpp := (h.depth + 7) / 8
  let raw ← tgaPixels (← sliceFrom data pos) h bpp
  let topDown := h.descriptor &&& 0x20 ≠ 0
  let rightToLeft := h.descriptor &&& 0x10 ≠ 0
  let img ← forRange (h.width * h.height) (Raster.blank h.width h.height 0) fun img i => do
    let x := if rightToLeft then h.width - 1 - i % h.width else i % h.width
    let y := if topDown then i / h.width else h.height - 1 - i / h.width
    let c ← tgaPixel h palette bpp alphaBits (← slice raw (i * bpp) (i * bpp + bpp))
    img.putPixel ((y * h.width + x) * 4) c
  return ⟨img, none, ascii "tga", [], 8, hasAlpha img, []⟩

/-! ## Headers -/

/-- The depths that fit the kind of image. -/
structure TGAHeader.Checked (h : TGAHeader) : Prop where
  colorMapped : h.ColorMapped → h.depth = 8 ∧ ValidTGADepth h.cmDepth
  gray : ¬ h.ColorMapped → h.Gray → h.depth = 8 ∨ h.depth = 16
  trueColor : ¬ h.ColorMapped → ¬ h.Gray → ValidTGADepth h.depth

variable {h : TGAHeader}

theorem TGAHeader.not_gray_of_trueColor (htrue : h.TrueColor) : ¬ h.Gray := by
  unfold TrueColor tgaTrueColor tgaRLETrueColor at htrue
  unfold Gray tgaGray tgaRLEGray
  omega

theorem safe_readTGAHeader {data : Bytes} (hlen : tgaHeaderSize ≤ data.length) :
    Safe (readTGAHeader data) fun _ => True := by
  have hsize : 18 ≤ data.length := hlen
  have hbyte : ∀ i < 18, Safe (elem data i : Decoder UInt8) fun _ => True :=
    fun i hi => (Safe.elem (by omega)).mono fun _ _ => trivial
  have hword : ∀ i < 17, Safe (sliceFrom data i >>= littleEndian 2) fun _ => True := by
    intro i hi
    refine (Safe.sliceFrom (by omega)).bind fun px hpx => ?_
    exact (safe_littleEndian (by omega)).mono fun _ _ => trivial
  unfold readTGAHeader
  refine (hbyte 0 (by omega)).bind fun _ _ => (hbyte 1 (by omega)).bind fun _ _ => ?_
  refine (hbyte 2 (by omega)).bind fun _ _ => ?_
  refine (Safe.sliceFrom (by omega)).bind fun w₁ h₁ => (safe_littleEndian (by omega)).bind
    fun _ _ => ?_
  refine (Safe.sliceFrom (by omega)).bind fun w₂ h₂ => (safe_littleEndian (by omega)).bind
    fun _ _ => ?_
  refine (hbyte 7 (by omega)).bind fun _ _ => ?_
  refine (Safe.sliceFrom (by omega)).bind fun w₃ h₃ => (safe_littleEndian (by omega)).bind
    fun _ _ => ?_
  refine (Safe.sliceFrom (by omega)).bind fun w₄ h₄ => (safe_littleEndian (by omega)).bind
    fun _ _ => ?_
  exact (hbyte 16 (by omega)).bind fun _ _ => (hbyte 17 (by omega)).bind fun _ _ =>
    Safe.pure trivial

theorem safe_checkTGAHeader (h : TGAHeader) :
    Safe (checkTGAHeader h) fun _ => h.Checked := by
  unfold checkTGAHeader
  refine Safe.ite (fun hmapped => ?_) fun hmapped => ?_
  · refine Safe.failIf_bind fun hdepth => (Safe.failIf _ _).mono fun _ hcm => ?_
    exact ⟨fun _ => ⟨by omega, not_not.mp hcm⟩, fun hnot => absurd hmapped hnot,
      fun hnot => absurd hmapped hnot⟩
  refine Safe.ite (fun htrue => ?_) fun htrue => ?_
  · refine (Safe.failIf _ _).mono fun _ hdepth => ?_
    exact ⟨fun h => absurd h hmapped,
      fun _ hgray => absurd hgray (TGAHeader.not_gray_of_trueColor htrue),
      fun _ _ => not_not.mp hdepth⟩
  refine Safe.ite (fun hgray => ?_) fun hgray => ?_
  · refine (Safe.failIf _ _).mono fun _ hdepth => ?_
    exact ⟨fun h => absurd h hmapped, fun _ _ => by omega, fun _ hnot => absurd hgray hnot⟩
  · exact Safe.fail _

theorem safe_parseTGAHeader (data : Bytes) :
    Safe (parseTGAHeader data) fun h => h.Checked ∧ Fits MaxPixels h.width h.height := by
  unfold parseTGAHeader
  refine Safe.failIf_bind fun hlen => (safe_readTGAHeader (not_lt.mp hlen)).bind fun h _ => ?_
  refine (safe_checkTGAHeader h).bind fun _ hchecked => ?_
  exact (safe_checkSize _ _).bind fun _ hfits => Safe.pure ⟨hchecked, hfits⟩

/-! ## Pixels -/

theorem safe_tgaColor {px : Bytes} {depth : ℕ} (hdepth : ValidTGADepth depth)
    (hpx : (depth + 7) / 8 ≤ px.length) (alphaBits : ℕ) :
    Safe (tgaColor px depth alphaBits) fun _ => True := by
  unfold ValidTGADepth at hdepth
  have hbyte : ∀ i < px.length, Safe (elem px i : Decoder UInt8) fun _ => True :=
    fun i hi => (Safe.elem hi).mono fun _ _ => trivial
  unfold tgaColor
  refine Safe.ite (fun hshort => ?_) fun hshort => ?_
  · exact (safe_littleEndian (by omega)).bind fun _ _ => Safe.pure trivial
  refine Safe.ite (fun hthree => ?_) fun hfour => ?_
  · refine (hbyte 2 (by omega)).bind fun _ _ => (hbyte 1 (by omega)).bind fun _ _ => ?_
    exact (hbyte 0 (by omega)).bind fun _ _ => Safe.pure trivial
  · refine (hbyte 2 (by omega)).bind fun _ _ => (hbyte 1 (by omega)).bind fun _ _ => ?_
    refine (hbyte 0 (by omega)).bind fun _ _ => (hbyte 3 (by omega)).bind fun _ _ => ?_
    exact Safe.pure trivial

theorem safe_tgaPacket (data : Bytes) (bpp total : ℕ) (s : Bytes × ℕ) :
    Safe (tgaPacket data bpp total s)
      (Sum.elim (fun out => total ≤ out.length) fun s' =>
        True ∧ data.length - s'.2 < data.length - s.2) := by
  unfold tgaPacket
  refine Safe.ite (fun _ => ?_) fun hdone => Safe.pure (not_lt.mp hdone)
  refine Safe.failIf_bind fun hpos => ?_
  refine (Safe.elem (not_le.mp hpos)).bind fun packet _ => ?_
  refine Safe.ite (fun _ => ?_) fun _ => ?_
  · refine Safe.failIf_bind fun hrun => ?_
    refine (Safe.forRange (I := fun _ _ => True) trivial fun _ _ out _ => ?_).bind fun out _ => ?_
    · exact (Safe.slice (by omega) (by omega)).bind fun _ _ => Safe.pure trivial
    · exact Safe.pure ⟨trivial, by dsimp only; omega⟩
  · refine Safe.failIf_bind fun hraw => ?_
    refine (Safe.slice (by omega) (by omega)).bind fun px _ => ?_
    exact Safe.pure ⟨trivial, by dsimp only; omega⟩

theorem safe_tgaPixels (data : Bytes) (h : TGAHeader) (bpp : ℕ) :
    Safe (tgaPixels data h bpp) fun raw => raw.length = h.width * h.height * bpp := by
  unfold tgaPixels
  refine Safe.ite (fun _ => ?_) fun _ => ?_
  · have hloop := Safe.loop (I := fun _ => True) (fun s : Bytes × ℕ => data.length - s.2)
      (s := ([], 0)) (n := data.length + 1) trivial (by dsimp only; omega)
      fun s _ => safe_tgaPacket data bpp (h.width * h.height * bpp) s
    refine hloop.bind fun out hout => Safe.ite (fun _ => ?_) fun hexact => ?_
    · exact Safe.slice (Nat.zero_le _) hout
    · exact Safe.pure (le_antisymm (not_lt.mp hexact) hout)
  · refine Safe.failIf_bind fun hlen => ?_
    exact Safe.slice (Nat.zero_le _) (not_lt.mp hlen)

theorem safe_tgaEntries {data : Bytes} (hchecked : h.Checked) {pos : ℕ}
    (hend : pos + h.cmLength * ((h.cmDepth + 7) / 8) ≤ data.length) (alphaBits : ℕ) :
    Safe (tgaEntries data h pos ((h.cmDepth + 7) / 8) alphaBits) fun _ => True := by
  unfold tgaEntries
  refine Safe.ite (fun hmapped => ?_) fun _ => Safe.pure trivial
  refine (Safe.mapM (T := fun _ => True) fun i hi => ?_).mono fun _ _ => trivial
  -- the entry lies before the end of the colour map
  have hentry : i * ((h.cmDepth + 7) / 8) + (h.cmDepth + 7) / 8
      ≤ h.cmLength * ((h.cmDepth + 7) / 8) := by
    rw [← Nat.succ_mul]
    exact Nat.mul_le_mul_right _ (List.mem_range.mp hi)
  refine (Safe.sliceFrom (by omega)).bind fun px hpx => ?_
  exact safe_tgaColor (hchecked.colorMapped hmapped).2 (by omega) alphaBits

theorem safe_tgaPalette {data : Bytes} (hchecked : h.Checked) {pos : ℕ} (hpos : pos ≤ data.length)
    (alphaBits : ℕ) : Safe (tgaPalette data h pos alphaBits) fun r => r.2 ≤ data.length := by
  unfold tgaPalette
  refine Safe.ite (fun _ => ?_) fun _ => Safe.pure hpos
  refine Safe.failIf_bind fun hsize => ?_
  refine (safe_tgaEntries hchecked (not_lt.mp hsize) alphaBits).bind fun palette _ => ?_
  exact Safe.pure (not_lt.mp hsize)

theorem safe_tgaPixel (hchecked : h.Checked) (palette : List (UInt8 × UInt8 × UInt8 × UInt8))
    (alphaBits : ℕ) {px : Bytes} (hpx : px.length = (h.depth + 7) / 8) :
    Safe (tgaPixel h palette ((h.depth + 7) / 8) alphaBits px) fun _ => True := by
  unfold tgaPixel
  refine Safe.ite (fun hmapped => ?_) fun hmapped => ?_
  · have hdepth := (hchecked.colorMapped hmapped).1
    refine (Safe.elem (by omega)).bind fun b _ => ?_
    refine Safe.ite (fun hidx => ?_) fun _ => Safe.pure trivial
    exact (Safe.elem (by omega)).mono fun _ _ => trivial
  refine Safe.ite (fun hgray => ?_) fun hgray => ?_
  · have hdepth := hchecked.gray hmapped hgray
    refine (Safe.elem (by omega)).bind fun v _ => ?_
    refine Safe.ite (fun htwo => ?_) fun _ => Safe.pure trivial
    exact (Safe.elem (by omega)).bind fun a _ => Safe.pure trivial
  · exact safe_tgaColor (hchecked.trueColor hmapped hgray) hpx.ge alphaBits

/-! ## Images -/

theorem mirrored_lt {n i : ℕ} (hi : i < n) (flip : Prop) [Decidable flip] :
    (if flip then n - 1 - i else i) < n ∧ (if flip then i else n - 1 - i) < n := by
  split
  · exact ⟨by omega, hi⟩
  · exact ⟨hi, by omega⟩

theorem safe_decodeTGA {F : Type} (data : Bytes) :
    Safe (decodeTGA data : Decoder (Image F)) Image.Sound := by
  unfold decodeTGA
  refine (safe_parseTGAHeader data).bind fun h hh => ?_
  obtain ⟨hchecked, hfits⟩ := hh
  refine Safe.failIf_bind fun hpos => ?_
  refine (safe_tgaPalette hchecked (not_lt.mp hpos) _).bind fun r hr => ?_
  refine (Safe.sliceFrom hr).bind fun rest _ => ?_
  refine (safe_tgaPixels rest h _).bind fun raw hraw => ?_
  refine (Safe.forRange (I := fun _ => Raster.Sized h.width h.height)
    (Raster.blank_sized h.width h.height 0) fun i hi img himg => ?_).bind fun img himg => ?_
  · have hwidth : 0 < h.width := Int.natCast_pos.mp hfits.width_pos
    have hx : i % h.width < h.width := Nat.mod_lt i hwidth
    have hy : i / h.width < h.height := Nat.div_lt_of_lt_mul hi
    have hend : i * ((h.depth + 7) / 8) + (h.depth + 7) / 8 ≤ raw.length := by
      rw [hraw, ← Nat.succ_mul]
      exact Nat.mul_le_mul_right _ hi
    refine (Safe.slice (by omega) hend).bind fun px hpx => ?_
    refine (safe_tgaPixel hchecked r.1 _ (by omega)).bind fun c _ => ?_
    exact Raster.safe_putPixel himg
      (Raster.sample_lt (mirrored_lt hx _).1 (mirrored_lt hy _).2 (by omega)) c
  · refine Safe.pure (Image.sound_of_fits hfits ?_ fun f hf => ?_)
    · exact ⟨himg.width_eq, himg.height_eq⟩
    · cases hf

end Preview

end Nipa
