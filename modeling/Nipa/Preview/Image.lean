import Mathlib.Algebra.Order.Ring.Int
import Mathlib.Algebra.Order.Ring.Nat
import Nipa.Support.Faults
import Nipa.Support.Strings

/-!
# Decoded images

A decoder reads an image from bytes that anybody may have written.  What comes out has the
number of samples that its width and height say; sizes are checked before anything of that
size is made.
-/

namespace Nipa

open Support Faulty

namespace Preview

abbrev Bytes := List UInt8

def ascii (s : String) : Bytes :=
  s.toList.map fun c => UInt8.ofNat c.toNat

inductive PreviewError where
  | unsupported (what : Bytes)
  /-- an unsupported orientation; the line is quoted in the message -/
  | orientation (line : Bytes)
  | tooLarge
  | invalidDimensions (w h : ℤ)
  | tgaTruncated
  | psdHeader
  | psdTruncated
  | exrHeader
  | exrTruncated
  | exrZlib (what : Bytes)
  | hdrHeader
  | hdrTruncated

abbrev Decoder := Faulty PreviewError

/-! ## Numbers -/

def littleEndianValue : Bytes → ℕ
  | [] => 0
  | b :: bs => b.toNat + 256 * littleEndianValue bs

/-- The number in the first `n` bytes, the lowest byte first. -/
def littleEndian (n : ℕ) (data : Bytes) : Decoder ℕ :=
  if n ≤ data.length then .ok (littleEndianValue (data.take n)) else .error .outOfRange

/-- The number in the first `n` bytes, the highest byte first. -/
def bigEndian (n : ℕ) (data : Bytes) : Decoder ℕ :=
  if n ≤ data.length then .ok (littleEndianValue (data.take n).reverse)
  else .error .outOfRange

/-- The signed number with the same 32 bits. -/
def int32 (v : ℕ) : ℤ :=
  (v : ℤ).bmod (2 ^ 32)

/-- What is left of a number in 64 bits. -/
def int64 (v : ℤ) : ℤ :=
  v.bmod (2 ^ 64)

theorem safe_littleEndian {n : ℕ} {data : Bytes} (h : n ≤ data.length) :
    Safe (littleEndian n data) fun v => v < 256 ^ n := by
  unfold littleEndian
  rw [if_pos h]
  change littleEndianValue (data.take n) < 256 ^ n
  have hvalue : ∀ bs : Bytes, littleEndianValue bs < 256 ^ bs.length := by
    intro bs
    induction bs with
    | nil => exact Nat.one_pos
    | cons b bs ih =>
        have hb := b.toNat_lt
        rw [littleEndianValue, List.length_cons, Nat.pow_succ]
        omega
  have hlt := hvalue (data.take n)
  rwa [List.length_take, min_eq_left h] at hlt

theorem safe_bigEndian {n : ℕ} {data : Bytes} (h : n ≤ data.length) :
    Safe (bigEndian n data) fun _ => True := by
  unfold bigEndian
  rw [if_pos h]
  exact trivial

/-! ## Sizes -/

/-- Images are at most 8192 by 8192. -/
def MaxPixels : ℕ :=
  8192 * 8192

def checkSize (w h : ℤ) : Decoder Unit := do
  failIf (w ≤ 0 ∨ h ≤ 0) (.invalidDimensions w h)
  failIf (w > (MaxPixels : ℤ) / h) .tooLarge

/-- Float sources get half the pixels. -/
def checkFloatSize (w h : ℤ) : Decoder Unit := do
  checkSize w h
  failIf (w > (MaxPixels : ℤ) / 2 / h) .tooLarge

/-- Both sides are there, and the image is not larger than `limit`. -/
structure Fits (limit : ℕ) (w h : ℤ) : Prop where
  width_pos : 0 < w
  height_pos : 0 < h
  size_le : w * h ≤ limit

theorem safe_checkSize (w h : ℤ) : Safe (checkSize w h) fun _ => Fits MaxPixels w h := by
  unfold checkSize
  refine Safe.failIf_bind fun hpos => (Safe.failIf _ _).mono fun _ hsize => ?_
  rw [not_or, not_le, not_le] at hpos
  rw [gt_iff_lt, not_lt] at hsize
  exact ⟨hpos.1, hpos.2, (Int.le_ediv_iff_mul_le hpos.2).mp hsize⟩

theorem safe_checkFloatSize (w h : ℤ) :
    Safe (checkFloatSize w h) fun _ => Fits (MaxPixels / 2) w h := by
  unfold checkFloatSize
  refine (safe_checkSize w h).bind fun _ hfits => (Safe.failIf _ _).mono fun _ hsize => ?_
  rw [gt_iff_lt, not_lt] at hsize
  exact ⟨hfits.width_pos, hfits.height_pos, (Int.le_ediv_iff_mul_le hfits.height_pos).mp hsize⟩

theorem Fits.mono {limit limit' : ℕ} {w h : ℤ} (hfits : Fits limit w h) (hle : limit ≤ limit') :
    Fits limit' w h :=
  ⟨hfits.width_pos, hfits.height_pos, hfits.size_le.trans (Int.ofNat_le.mpr hle)⟩

/-! ## Samples -/

/-- Four samples for each pixel, row by row. -/
structure Raster (α : Type) where
  width : ℕ
  height : ℕ
  pix : List α
  length_pix : pix.length = width * height * 4

namespace Raster

variable {α : Type}

def blank (w h : ℕ) (a : α) : Raster α where
  width := w
  height := h
  pix := List.replicate (w * h * 4) a
  length_pix := List.length_replicate

/-- Write one sample. -/
def put (r : Raster α) (i : ℕ) (a : α) : Decoder (Raster α) :=
  if i < r.pix.length then
    .ok { r with pix := r.pix.set i a, length_pix := by rw [List.length_set, r.length_pix] }
  else .error .outOfRange

/-- Write the four samples of a pixel. -/
def putPixel (r : Raster α) (i : ℕ) (c : α × α × α × α) : Decoder (Raster α) := do
  let r ← r.put i c.1
  let r ← r.put (i + 1) c.2.1
  let r ← r.put (i + 2) c.2.2.1
  r.put (i + 3) c.2.2.2

/-- The raster has the given sides. -/
structure Sized (w h : ℕ) (r : Raster α) : Prop where
  width_eq : r.width = w
  height_eq : r.height = h

variable {w h : ℕ} {r : Raster α}

theorem blank_sized (w h : ℕ) (a : α) : (blank w h a).Sized w h :=
  ⟨rfl, rfl⟩

theorem Sized.length_eq (hr : r.Sized w h) : r.pix.length = w * h * 4 := by
  rw [r.length_pix, hr.width_eq, hr.height_eq]

theorem safe_put {i : ℕ} (hr : r.Sized w h) (hi : i < w * h * 4) (a : α) :
    Safe (r.put i a) (Sized w h) := by
  unfold put
  rw [if_pos (by rw [hr.length_eq]; exact hi)]
  exact ⟨hr.width_eq, hr.height_eq⟩

theorem sample_lt {x y c : ℕ} (hx : x < w) (hy : y < h) (hc : c < 4) :
    (y * w + x) * 4 + c < w * h * 4 := by
  have hrow : y * w + x < w * h := by
    calc y * w + x < y * w + w := by omega
      _ = (y + 1) * w := by rw [Nat.succ_mul]
      _ ≤ h * w := Nat.mul_le_mul_right w hy
      _ = w * h := Nat.mul_comm h w
  omega

theorem safe_putPixel {i : ℕ} (hr : r.Sized w h) (hi : i + 3 < w * h * 4)
    (c : α × α × α × α) : Safe (r.putPixel i c) (Sized w h) := by
  unfold putPixel
  refine (safe_put hr (by omega) _).bind fun r₁ h₁ => ?_
  refine (safe_put h₁ (by omega) _).bind fun r₂ h₂ => ?_
  refine (safe_put h₂ (by omega) _).bind fun r₃ h₃ => ?_
  exact safe_put h₃ hi _

end Raster

abbrev NRGBA := Raster UInt8

abbrev FloatImage (F : Type) := Raster F

def hasAlpha (img : NRGBA) : Bool :=
  (List.range (img.pix.length / 4)).any fun k => img.pix[4 * k + 3]?.any fun a => a != 0xff

/-! ## Floats -/

def srgbSteps : ℕ :=
  4096

/-- What the decoders use of 32-bit floats, and the table of sRGB values. -/
structure Floats (F : Type) where
  zero : F
  one : F
  /-- `v > w`, false when one of them is no number -/
  above : F → F → Bool
  neg : F → F
  float32frombits : ℕ → F
  /-- the nearest float to a number -/
  ofNat : ℕ → F
  /-- `m / 2 ^ 24` -/
  subnormal : ℕ → F
  /-- the value of a mantissa and an exponent byte -/
  ldexp : UInt8 → UInt8 → F
  /-- `int(v * srgbSteps + 0.5)` -/
  step : F → ℕ
  /-- `uint8(v * 255 + 0.5)` -/
  level : F → UInt8
  srgbTable : List UInt8
  length_srgbTable : srgbTable.length = srgbSteps + 1
  step_zero : step zero = 0
  step_one : step one = srgbSteps
  step_le : ∀ v, above v one = false → above v zero = true → step v ≤ srgbSteps

section Display

variable {F : Type} (fl : Floats F)

def clamp01 (v : F) : F :=
  if fl.above v fl.one then fl.one else if fl.above v fl.zero then v else fl.zero

def linearToSRGB (v : F) : Decoder UInt8 :=
  elem fl.srgbTable (fl.step (clamp01 fl v))

theorem safe_linearToSRGB (v : F) : Safe (linearToSRGB fl v) fun _ => True := by
  have hstep : fl.step (clamp01 fl v) ≤ srgbSteps := by
    unfold clamp01
    split
    case isTrue => exact fl.step_one.le
    case isFalse hone =>
        split
        case isTrue hzero => exact fl.step_le v (by simpa using hone) hzero
        case isFalse => exact fl.step_zero.le.trans (Nat.zero_le _)
  refine (Safe.elem ?_).mono fun _ _ => trivial
  rw [fl.length_srgbTable]
  omega

/-- The linear samples as 8-bit sRGB. -/
def display (f : FloatImage F) : Decoder NRGBA :=
  forRange (f.pix.length / 4) (Raster.blank f.width f.height 0) fun dst k => do
    let r ← linearToSRGB fl (← elem f.pix (4 * k))
    let g ← linearToSRGB fl (← elem f.pix (4 * k + 1))
    let b ← linearToSRGB fl (← elem f.pix (4 * k + 2))
    let a ← elem f.pix (4 * k + 3)
    dst.putPixel (4 * k) (r, g, b, fl.level (clamp01 fl a))

def floatHasAlpha (f : FloatImage F) : Bool :=
  (List.range (f.pix.length / 4)).any fun k =>
    f.pix[4 * k + 3]?.any fun a => fl.above fl.one a

theorem safe_display {w h : ℕ} {f : FloatImage F} (hf : f.Sized w h) :
    Safe (display fl f) (Raster.Sized w h) := by
  unfold display
  rw [hf.width_eq, hf.height_eq]
  refine Safe.forRange (I := fun _ => Raster.Sized w h) (Raster.blank_sized w h 0)
    fun k hk dst hdst => ?_
  have hlen : 4 * k + 3 < f.pix.length := by omega
  refine (Safe.elem (by omega)).bind fun v₁ _ => (safe_linearToSRGB fl v₁).bind fun r _ => ?_
  refine (Safe.elem (by omega)).bind fun v₂ _ => (safe_linearToSRGB fl v₂).bind fun g _ => ?_
  refine (Safe.elem (by omega)).bind fun v₃ _ => (safe_linearToSRGB fl v₃).bind fun b _ => ?_
  refine (Safe.elem hlen).bind fun a _ => ?_
  rw [hf.length_eq] at hlen
  exact Raster.safe_putPixel hdst hlen _

end Display

/-! ## Images -/

structure Layer where
  name : Bytes
  kind : Bytes
  depth : ℕ
  visible : Bool
  opacity : ℕ
  blend : Bytes
  x : ℤ
  y : ℤ
  width : ℤ
  height : ℤ
  hash : Bytes

structure Image (F : Type) where
  pixels : NRGBA
  hdr : Option (FloatImage F)
  format : Bytes
  encoding : Bytes
  bitDepth : ℕ
  hasAlpha : Bool
  layers : List Layer

/-- The image of linear samples. -/
def Image.ofHDR {F : Type} (fl : Floats F) (f : FloatImage F) (format encoding : Bytes)
    (bitDepth : ℕ) (layers : List Layer) : Decoder (Image F) := do
  let pixels ← display fl f
  return ⟨pixels, some f, format, encoding, bitDepth, floatHasAlpha fl f, layers⟩

/-- The image has pixels, not too many, four samples for each of them, and linear samples of
the same size if it has linear samples. -/
structure Image.Sound {F : Type} (img : Image F) : Prop where
  nonempty : 0 < img.pixels.width * img.pixels.height
  size_le : img.pixels.width * img.pixels.height ≤ MaxPixels
  samples : img.pixels.pix.length = 4 * (img.pixels.width * img.pixels.height)
  linear : ∀ f, img.hdr = some f → f.width = img.pixels.width ∧ f.height = img.pixels.height ∧
    f.pix.length = 4 * (img.pixels.width * img.pixels.height)

variable {F : Type}

theorem Fits.nat {limit : ℕ} {w h : ℤ} (hfits : Fits limit w h) :
    0 < w.toNat * h.toNat ∧ w.toNat * h.toNat ≤ limit := by
  obtain ⟨hw, hh, hsize⟩ := hfits
  obtain ⟨m, rfl⟩ := Int.eq_ofNat_of_zero_le hw.le
  obtain ⟨n, rfl⟩ := Int.eq_ofNat_of_zero_le hh.le
  rw [Int.toNat_natCast, Int.toNat_natCast]
  exact ⟨Nat.mul_pos (by omega) (by omega), by exact_mod_cast hsize⟩

theorem Image.sound_of_fits {img : Image F} {w h : ℤ} (hfits : Fits MaxPixels w h)
    (hpixels : img.pixels.Sized w.toNat h.toNat)
    (hhdr : ∀ f, img.hdr = some f → f.Sized w.toNat h.toNat) : img.Sound where
  nonempty := by
    rw [hpixels.width_eq, hpixels.height_eq]
    exact hfits.nat.1
  size_le := by
    rw [hpixels.width_eq, hpixels.height_eq]
    exact hfits.nat.2
  samples := by
    rw [img.pixels.length_pix, Nat.mul_comm]
  linear := by
    intro f hf
    rw [hpixels.width_eq, hpixels.height_eq, (hhdr f hf).length_eq, Nat.mul_comm]
    exact ⟨(hhdr f hf).width_eq, (hhdr f hf).height_eq, rfl⟩

theorem safe_ofHDR (fl : Floats F) {f : FloatImage F} {w h : ℤ}
    (hfits : Fits (MaxPixels / 2) w h) (hf : f.Sized w.toNat h.toNat)
    (format encoding : Bytes) (bitDepth : ℕ) (layers : List Layer) :
    Safe (Image.ofHDR fl f format encoding bitDepth layers) Image.Sound := by
  unfold Image.ofHDR
  refine (safe_display fl hf).bind fun pixels hpixels => Safe.pure ?_
  refine Image.sound_of_fits (hfits.mono (Nat.div_le_self _ _)) hpixels ?_
  rintro _ ⟨⟩
  exact hf

end Preview

end Nipa
