import Mathlib.Algebra.Order.Field.Rat
import Mathlib.Data.Rat.Floor
import Nipa.Preview.EXRBlocks
import Nipa.Preview.PSDLayers
import Nipa.Preview.Radiance
import Nipa.Preview.TGA

/-!
# Image decoders never stop in the middle

Whatever the bytes are, a decoder ends with an error of its own or with an image whose samples
are those of its width and height; it never leaves a slice and no loop of it is endless.
-/

namespace Nipa

open Support Faulty

namespace Preview

namespace EXRHeader

variable {h : EXRHeader}

/-- A header whose image may be read from `n` bytes. -/
structure Ready (h : EXRHeader) (n : ℕ) : Prop where
  checked : h.Checked n
  size_le : n ≤ 2 ^ 40
  fits : Fits (MaxPixels / 2) h.width h.height
  lines_ne : h.linesPerBlock ≠ 0

theorem Ready.area {n w lines : ℕ} (hready : h.Ready n) (hw : w ≤ h.width.toNat)
    (hlines : lines ≤ h.height.toNat) : Area w lines :=
  (Nat.mul_le_mul hw hlines).trans hready.fits.nat.2

theorem safe_blocks {n : ℕ} (hready : h.Ready n) : Safe h.blocks fun _ => True :=
  (safe_quotient hready.lines_ne).mono fun _ _ => trivial

theorem tile_lt {side tile count t : ℕ} (hcount : count = (side + tile - 1) / tile)
    (htile : tile ≠ 0) (ht : t < count) : t * tile < side := by
  have hend : (t + 1) * tile ≤ side + tile - 1 := by
    rw [← Nat.le_div_iff_mul_le (Nat.pos_of_ne_zero htile), ← hcount]
    exact ht
  rw [Nat.succ_mul] at hend
  omega

theorem safe_chunks {n : ℕ} (hready : h.Ready n) : Safe h.chunks fun _ => True := by
  unfold chunks
  refine (safe_blocks hready).bind fun blocks _ => Safe.ite (fun htiled => ?_) fun _ => ?_
  · obtain ⟨hx, hy⟩ := hready.checked.tiles htiled
    exact (safe_quotient hx).bind fun tx _ => (safe_quotient hy).bind fun ty _ =>
      Safe.pure trivial
  · exact Safe.pure trivial

theorem safe_plausibleSize {n : ℕ} (hready : h.Ready n) (size : ℕ) :
    Safe (h.plausibleSize size) fun _ => True := by
  unfold plausibleSize
  exact (safe_chunks hready).bind fun _ _ => (Safe.failIf _ _).mono fun _ _ => trivial

theorem safe_offset (data : Bytes) (i : ℕ) :
    Safe (h.offset data i) fun off => off ≤ data.length := by
  unfold offset
  refine Safe.failIf_bind fun hroom => (Safe.sliceFrom (by omega)).bind fun rest hrest => ?_
  refine (safe_littleEndian (by omega)).bind fun off _ => ?_
  exact Safe.failIf_bind fun hoff => Safe.pure (not_lt.mp hoff)

section Read

variable {F : Type} (fl : Floats F) (inflate : Inflate) {data : Bytes}
  {pick : List (Option ℕ)} {img : FloatImage F}

theorem safe_readBlock (hready : h.Ready data.length) (hpick : h.Picked pick)
    (himg : img.Sized h.width.toNat h.height.toNat) (b : ℕ) :
    Safe (h.readBlock fl inflate data pick img b)
      (Raster.Sized h.width.toNat h.height.toNat) := by
  unfold readBlock
  refine (safe_offset data b).bind fun off hoff => Safe.failIf_bind fun hroom => ?_
  refine (safe_exrInt32 (by omega)).bind fun v _ => ?_
  refine (Safe.sliceFrom (by omega)).bind fun rest hrest => ?_
  refine (safe_littleEndian (by omega)).bind fun size _ => ?_
  dsimp only
  generalize v - h.minY = y
  refine Safe.failIf_bind fun hblock => ?_
  have hlines := hready.lines_ne
  have hpos : 0 < min h.linesPerBlock (h.height - y).toNat := by omega
  refine (Safe.slice (by omega) (by omega)).bind fun src _ => ?_
  refine (safe_uncompress hready.checked.channels hready.size_le
    (hready.area le_rfl (by omega)) hpos inflate src).bind fun raw hraw => ?_
  exact safe_place fl hready.checked.channels hpick ⟨by omega, by omega, hraw⟩ himg

theorem safe_readTile (hready : h.Ready data.length) (htiled : h.tiled = true)
    (hpick : h.Picked pick) (himg : img.Sized h.width.toNat h.height.toNat)
    {tilesX tilesY : ℕ} (hx : tilesX = (h.width.toNat + h.tileWidth - 1) / h.tileWidth)
    (hy : tilesY = (h.height.toNat + h.tileHeight - 1) / h.tileHeight) (i : ℕ) :
    Safe (h.readTile fl inflate data pick tilesX tilesY img i)
      (Raster.Sized h.width.toNat h.height.toNat) := by
  obtain ⟨hwidth, hheight⟩ := hready.checked.tiles htiled
  unfold readTile
  refine (safe_offset data i).bind fun off hoff => Safe.failIf_bind fun hroom => ?_
  refine (safe_exrInt32 (by omega)).bind fun tx _ => ?_
  refine (safe_exrInt32 (by omega)).bind fun ty _ => ?_
  refine (safe_exrInt32 (by omega)).bind fun lx _ => ?_
  refine (safe_exrInt32 (by omega)).bind fun ly _ => ?_
  refine (safe_exrInt32 (by omega)).bind fun size _ => Safe.failIf_bind fun htile => ?_
  dsimp only
  have hleft := tile_lt hx hwidth (t := tx.toNat) (by omega)
  have htop := tile_lt hy hheight (t := ty.toNat) (by omega)
  generalize tx.toNat * h.tileWidth = x0 at hleft ⊢
  generalize ty.toNat * h.tileHeight = y0 at htop ⊢
  refine (Safe.slice (by omega) (by omega)).bind fun src _ => ?_
  refine (safe_uncompress hready.checked.channels hready.size_le
    (hready.area (by omega) (by omega)) (by omega) inflate src).bind fun raw hraw => ?_
  exact safe_place fl hready.checked.channels hpick ⟨by omega, by omega, hraw⟩ himg

theorem safe_readPixels (hready : h.Ready data.length) (hpick : h.Picked pick)
    (himg : img.Sized h.width.toNat h.height.toNat) :
    Safe (h.readPixels fl inflate data img pick)
      (Raster.Sized h.width.toNat h.height.toNat) := by
  unfold readPixels
  refine Safe.ite (fun htiled => ?_) fun _ => ?_
  · obtain ⟨hwidth, hheight⟩ := hready.checked.tiles htiled
    refine (safe_quotient hwidth).bind fun tilesX hx => ?_
    refine (safe_quotient hheight).bind fun tilesY hy => ?_
    exact Safe.forRange (I := fun _ => Raster.Sized h.width.toNat h.height.toNat) himg
      fun i _ img himg => safe_readTile fl inflate hready htiled hpick himg hx hy i
  · refine (safe_blocks hready).bind fun blocks _ => ?_
    exact Safe.forRange (I := fun _ => Raster.Sized h.width.toNat h.height.toNat) himg
      fun b _ img himg => safe_readBlock fl inflate hready hpick himg b

end Read

end EXRHeader

section Decode

variable {F : Type} (fl : Floats F)

theorem safe_exrCompressionName {compression : ℤ} (h : 0 ≤ compression) :
    Safe (exrCompressionName compression) fun _ => True := by
  unfold exrCompressionName
  refine Safe.ite (fun hlt => ?_) fun _ => Safe.pure trivial
  exact (Safe.elem (by omega)).mono fun _ _ => trivial

theorem linesPerBlock_spec {compression : ℤ} (h : exrLinesPerBlock compression ≠ none) :
    (exrLinesPerBlock compression).getD 0 ≠ 0 ∧
      compression.toNat < exrCompressions.length := by
  have hlength : exrCompressions.length = 12 := rfl
  unfold exrLinesPerBlock at h ⊢
  rw [hlength]
  split
  case isTrue hone => exact ⟨Nat.one_ne_zero, by omega⟩
  case isFalse hone =>
      rw [if_neg hone] at h
      split
      case isTrue hsixteen => exact ⟨by simp, by omega⟩
      case isFalse hnone =>
          rw [if_neg hnone] at h
          exact absurd rfl h

theorem safe_opaqueBlank (w h : ℕ) : Safe (opaqueBlank fl w h) (Raster.Sized w h) := by
  unfold opaqueBlank
  exact Safe.forRange (I := fun _ => Raster.Sized w h) (Raster.blank_sized w h _)
    fun k hk img himg => Raster.safe_put himg (by omega) _

theorem safe_decodeEXR (inflate : Inflate) {data : Bytes} (hsize : data.length ≤ 2 ^ 40) :
    Safe (decodeEXR fl inflate data) Image.Sound := by
  unfold decodeEXR
  refine (safe_parseEXRHeader data).bind fun h hchecked => ?_
  refine (safe_exrCompressionName hchecked.compression_nonneg).bind fun name _ => ?_
  refine Safe.failIf_bind fun hlines => ?_
  obtain ⟨hlpb, hname⟩ := linesPerBlock_spec hlines
  refine (safe_checkFloatSize _ _).bind fun _ hfits => ?_
  have hready : h.Ready data.length := ⟨hchecked, hsize, hfits, hlpb⟩
  refine (EXRHeader.safe_displayChannels hchecked.channels_ne).bind fun r hpick => ?_
  refine (EXRHeader.safe_plausibleSize hready _).bind fun _ _ => ?_
  refine (safe_opaqueBlank fl _ _).bind fun img himg => ?_
  refine (EXRHeader.safe_readPixels fl inflate hready hpick himg).bind fun img himg => ?_
  exact (Safe.elem hname).bind fun name _ => safe_ofHDR fl hfits himg _ _ _ _

/-- The decoders of hostile files: for all bytes they end with an error of their own or with
an image that has the samples of its sides and at most as many pixels as are allowed; no
index is out of range, no loop goes on without an end.  Below a tebibyte no size that the
OpenEXR decoder computes leaves 64 bits. -/
theorem decoders_total (inflate : Inflate) (data : Bytes) :
    Safe (decodeTGA data : Decoder (Image F)) Image.Sound ∧
      Safe (decodePSD fl data) Image.Sound ∧
      Safe (decodeRadiance fl data) Image.Sound ∧
      (data.length ≤ 2 ^ 40 → Safe (decodeEXR fl inflate data) Image.Sound) :=
  ⟨safe_decodeTGA data, safe_decodePSD fl data, safe_decodeRadiance fl data,
    safe_decodeEXR fl inflate⟩

end Decode

def fractions : Floats ℚ where
  zero := 0
  one := 1
  above v w := decide (w < v)
  neg v := -v
  float32frombits n := n
  ofNat n := n
  subnormal m := m / 2 ^ 24
  ldexp m e := (m.toNat + 1 / 2) * 2 ^ ((e.toNat : ℤ) - 136)
  step v := ⌊v * srgbSteps + 1 / 2⌋.toNat
  level v := UInt8.ofNat ⌊v * 255 + 1 / 2⌋.toNat
  srgbTable := (List.range (srgbSteps + 1)).map fun i => UInt8.ofNat (i * 255 / srgbSteps)
  length_srgbTable := by rw [List.length_map, List.length_range]
  step_zero := by
    have hhalf : ⌊(0 : ℚ) * srgbSteps + 1 / 2⌋ = 0 := by
      rw [Int.floor_eq_zero_iff]
      norm_num
    rw [hhalf]
    rfl
  step_one := by
    have hhalf : ⌊(1 : ℚ) * srgbSteps + 1 / 2⌋ = srgbSteps := by
      rw [Int.floor_eq_iff]
      norm_num
    rw [hhalf]
    rfl
  step_le := by
    intro v hone _
    have hv : v ≤ 1 := not_lt.mp (of_decide_eq_false hone)
    have hlt : ⌊v * srgbSteps + 1 / 2⌋ < (srgbSteps : ℤ) + 1 := by
      rw [Int.floor_lt]
      have hscaled : v * (srgbSteps : ℚ) ≤ 1 * srgbSteps :=
        mul_le_mul_of_nonneg_right hv (Nat.cast_nonneg _)
      push_cast
      linarith
    omega

def runTGA : Bytes :=
  [0, 0, 10, 0, 0, 0, 0, 0, 0, 0, 0, 0, 2, 0, 1, 0, 24, 32, 0x81, 1, 2, 3]

theorem decoders_total_run :
    (∃ img : Image ℚ, decodeTGA runTGA = .ok img ∧ img.Sound) ∧
      Safe (decodeEXR fractions (fun src limit => .ok (src.take limit)) runTGA) Image.Sound := by
  obtain ⟨htga, -, -, hexr⟩ :=
    decoders_total fractions (fun src limit => .ok (src.take limit)) runTGA
  exact ⟨⟨_, rfl, htga⟩, hexr (by decide)⟩

end Preview

end Nipa
