import Nipa.Preview.Image

/-!
# Photoshop

A header, three sections of the length they give themselves, and the planes of the merged
image, plain or packed.  Layers are read from the third section for what they are worth:
unusual layers do not fail the image.
-/

namespace Nipa

open Support Faulty

namespace Preview

def psdModeBitmap : ℕ := 0
def psdModeGray : ℕ := 1
def psdModeIndexed : ℕ := 2
def psdModeRGB : ℕ := 3
def psdModeCMYK : ℕ := 4
def psdModeMulti : ℕ := 7
def psdModeDuotone : ℕ := 8
def psdMaxChannels : ℕ := 56
def psdDecodedPlanes : ℕ := 5

/-! ## Readers -/

structure PSDReader where
  data : Bytes
  pos : ℕ
  big : Bool

namespace PSDReader

def need (r : PSDReader) (n : ℕ) : Decoder Unit :=
  failIf ((n : ℤ) > r.data.length - r.pos) .psdTruncated

def bytes (r : PSDReader) (n : ℕ) : Decoder (Bytes × PSDReader) := do
  r.need n
  let b ← slice r.data r.pos (r.pos + n)
  return (b, { r with pos := r.pos + n })

def u16 (r : PSDReader) : Decoder (ℕ × PSDReader) := do
  let (b, r) ← r.bytes 2
  return (← bigEndian 2 b, r)

def u32 (r : PSDReader) : Decoder (ℕ × PSDReader) := do
  let (b, r) ← r.bytes 4
  return (← bigEndian 4 b, r)

def length (r : PSDReader) (wide : Bool) : Decoder (ℕ × PSDReader) :=
  if wide then do
    let (b, r) ← r.bytes 8
    let v ← bigEndian 8 b
    failIf (v > r.data.length) .psdTruncated
    return (v, r)
  else r.u32

/-- A reader of what comes next, and the reader behind it. -/
def nextSection (r : PSDReader) (wide : Bool) : Decoder (PSDReader × PSDReader) := do
  let (n, r) ← r.length wide
  let (b, r) ← r.bytes n
  return (⟨b, 0, r.big⟩, r)

end PSDReader

structure PSDHeader where
  channels : ℕ
  height : ℕ
  width : ℕ
  depth : ℕ
  mode : ℕ

def decimal (n : ℕ) : Bytes :=
  (Nat.toDigits 10 n).map fun c => UInt8.ofNat c.toNat

def psdModeName (mode : ℕ) : Bytes :=
  if mode = psdModeBitmap then ascii "Bitmap"
  else if mode = psdModeGray then ascii "Grayscale"
  else if mode = psdModeIndexed then ascii "Indexed"
  else if mode = psdModeRGB then ascii "RGB"
  else if mode = psdModeCMYK then ascii "CMYK"
  else if mode = psdModeMulti then ascii "Multichannel"
  else if mode = psdModeDuotone then ascii "Duotone"
  else ascii "mode " ++ decimal mode

def PSDHeader.rowBytes (h : PSDHeader) : ℕ :=
  if h.depth = 1 then (h.width + 7) / 8 else h.width * h.depth / 8

/-! ## Planes -/

/-- The signed number with the same 8 bits. -/
def int8 (b : UInt8) : ℤ :=
  (b.toNat : ℤ).bmod (2 ^ 8)

/-- One packet: plain bytes, a run, or nothing. -/
def unpackPacket (full : ℕ) (s : Bytes × Bytes) : Decoder (Bytes ⊕ Bytes × Bytes) :=
  let dst := s.1
  if s.2.length > 0 ∧ dst.length < full then do
    let n := int8 (← elem s.2 0)
    let src ← sliceFrom s.2 1
    if n ≥ 0 then
      let count := n.toNat + 1
      failIf (count > src.length) .psdTruncated
      return .inr (dst ++ (← slice src 0 count), ← sliceFrom src count)
    else if n > -128 then
      failIf (src.length = 0) .psdTruncated
      let b ← elem src 0
      return .inr (dst ++ List.replicate (1 - n).toNat b, ← sliceFrom src 1)
    else return .inr (dst, src)
  else return .inl dst

def unpackBits (dst src : Bytes) (want : ℕ) : Decoder Bytes := do
  let start := dst.length
  let dst ← loop (unpackPacket (start + want)) (src.length + 1) (dst, src)
  failIf (dst.length < start + want) .psdTruncated
  slice dst 0 (start + want)

/-- The first planes as they are. -/
def rawPlanes (r : PSDReader) (h : PSDHeader) (n : ℕ) : Decoder (List Bytes) := do
  let s ← forRange n ([], r) fun s _ => do
    let (b, r) ← s.2.bytes (h.rowBytes * h.height)
    return (s.1 ++ [b], r)
  return s.1

/-- The lengths of the packed rows. -/
def rowCounts (r : PSDReader) (n : ℕ) : Decoder (List ℕ × PSDReader) :=
  forRange n ([], r) fun s _ => do
    let (v, r) ← if s.2.big then s.2.u32 else s.2.u16
    return (s.1 ++ [v], r)

def packedPlane (r : PSDReader) (h : PSDHeader) (counts : List ℕ) (c : ℕ) :
    Decoder (Bytes × PSDReader) :=
  forRange h.height ([], r) fun s y => do
    let (src, r) ← s.2.bytes (← elem counts (c * h.height + y))
    return (← unpackBits s.1 src h.rowBytes, r)

def packedPlanes (r : PSDReader) (h : PSDHeader) (n : ℕ) : Decoder (List Bytes) := do
  let entry := if r.big then 4 else 2
  r.need (h.channels * h.height * entry)
  let (counts, r) ← rowCounts r (n * h.height)
  let r := { r with pos := r.pos + (h.channels - n) * h.height * entry }
  let s ← forRange n ([], r) fun s c => do
    let (plane, r) ← packedPlane s.2 h counts c
    return (s.1 ++ [plane], r)
  return s.1

def readPSDPlanes (r : PSDReader) (h : PSDHeader) : Decoder (List Bytes) := do
  let (compression, r) ← r.u16
  let n := min h.channels psdDecodedPlanes
  if compression = 0 then rawPlanes r h n
  else if compression = 1 then packedPlanes r h n
  else fail (.unsupported (ascii "PSD image compression " ++ decimal compression))

/-! ## The merged image -/

def psdSample (plane : Bytes) (i depth : ℕ) : Decoder UInt8 :=
  if depth = 1 then do
    let b ← elem plane (i / 8)
    return if b &&& UInt8.ofNat (0x80 >>> (i % 8)) ≠ 0 then 0 else 0xff
  else if depth = 16 then elem plane (i * 2)
  else elem plane i

def psdColors (mode : ℕ) : ℕ :=
  if mode = psdModeRGB then 3 else if mode = psdModeCMYK then 4 else 1

def checkPSDMode (mode : ℕ) (colorData : Bytes) : Decoder Unit :=
  if mode = psdModeRGB ∨ mode = psdModeCMYK then return ()
  else if mode = psdModeIndexed then failIf (colorData.length < 768) .psdHeader
  else failIf (¬ (mode = psdModeGray ∨ mode = psdModeBitmap ∨ mode = psdModeDuotone ∨
      mode = psdModeMulti))
    (.unsupported (ascii "PSD " ++ psdModeName mode ++ ascii " colour mode"))

/-- The colours of a pixel, from the samples of its planes. -/
def psdColor (mode : ℕ) (colorData : Bytes) (s : ℕ → Decoder UInt8) :
    Decoder (UInt8 × UInt8 × UInt8) :=
  if mode = psdModeRGB then do
    return (← s 0, ← s 1, ← s 2)
  else if mode = psdModeCMYK then do
    let k := (← s 3).toNat
    let ink := fun v : UInt8 => UInt8.ofNat (v.toNat * k / 255)
    return (ink (← s 0), ink (← s 1), ink (← s 2))
  else if mode = psdModeIndexed then do
    let v := (← s 0).toNat
    return (← elem colorData v, ← elem colorData (256 + v), ← elem colorData (512 + v))
  else do
    let v ← s 0
    return (v, v, v)

/-- The sample of a plane. -/
def psdPlaneSample (planes : List Bytes) (depth i c : ℕ) : Decoder UInt8 := do
  psdSample (← elem planes c) i depth

def psdComposite (h : PSDHeader) (planes : List Bytes) (colorData : Bytes)
    (mergedAlpha : Bool) : Decoder NRGBA := do
  checkPSDMode h.mode colorData
  let colors := psdColors h.mode
  failIf (planes.length < colors) .psdHeader
  let alpha := mergedAlpha ∧ planes.length > colors ∧ h.mode ≠ psdModeBitmap ∧
    h.mode ≠ psdModeIndexed
  forRange h.height (Raster.blank h.width h.height 0) fun dst y =>
    forRange h.width dst fun dst x => do
      let i := if h.depth = 1 then y * h.rowBytes * 8 + x else y * h.width + x
      let (r, g, b) ← psdColor h.mode colorData (psdPlaneSample planes h.depth i)
      if alpha then
        dst.putPixel ((y * h.width + x) * 4) (r, g, b, ← psdPlaneSample planes h.depth i colors)
      else dst.putPixel ((y * h.width + x) * 4) (r, g, b, 0xff)

section Float

variable {F : Type} (fl : Floats F)

def psdFloatSample (planes : List Bytes) (c i : ℕ) : Decoder F := do
  let plane ← elem planes c
  let v ← bigEndian 4 (← sliceFrom plane (i * 4))
  return fl.float32frombits v

def psdFloatComposite (h : PSDHeader) (planes : List Bytes) (mergedAlpha : Bool) :
    Decoder (FloatImage F) := do
  failIf (h.mode ≠ psdModeRGB ∧ h.mode ≠ psdModeGray)
    (.unsupported (ascii "32-bit PSD " ++ psdModeName h.mode))
  let colors := if h.mode = psdModeRGB then 3 else 1
  failIf (planes.length < colors) .psdHeader
  forRange (h.width * h.height) (Raster.blank h.width h.height fl.zero) fun f i => do
    let r ← psdFloatSample fl planes (min 0 (colors - 1)) i
    let g ← psdFloatSample fl planes (min 1 (colors - 1)) i
    let b ← psdFloatSample fl planes (min 2 (colors - 1)) i
    if mergedAlpha ∧ planes.length > colors then
      f.putPixel (i * 4) (r, g, b, ← psdFloatSample fl planes colors i)
    else f.putPixel (i * 4) (r, g, b, fl.one)

end Float

/-! ## Readers stay in their data -/

namespace PSDReader

variable (r : PSDReader)

theorem safe_need (n : ℕ) : Safe (r.need n) fun _ => r.pos + n ≤ r.data.length :=
  (Safe.failIf _ _).mono fun _ hn => by omega

/-- A reader that has read on is behind the old one in the same data. -/
structure Behind (r' : PSDReader) (n : ℕ) : Prop where
  data_eq : r'.data = r.data
  pos_eq : r'.pos = r.pos + n

theorem safe_bytes (n : ℕ) : Safe (r.bytes n) fun s => s.1.length = n ∧ r.Behind s.2 n := by
  unfold bytes
  refine (r.safe_need n).bind fun _ hn => (Safe.slice (by omega) hn).bind fun b hb => ?_
  exact Safe.pure ⟨by dsimp only; omega, rfl, rfl⟩

theorem safe_u16 : Safe r.u16 fun s => r.Behind s.2 2 := by
  unfold u16
  refine (r.safe_bytes 2).bind fun s hs => ?_
  exact (safe_bigEndian hs.1.ge).bind fun _ _ => Safe.pure hs.2

theorem safe_u32 : Safe r.u32 fun s => r.Behind s.2 4 := by
  unfold u32
  refine (r.safe_bytes 4).bind fun s hs => ?_
  exact (safe_bigEndian hs.1.ge).bind fun _ _ => Safe.pure hs.2

theorem safe_length (wide : Bool) :
    Safe (r.length wide) fun s => s.2.data = r.data ∧ r.pos ≤ s.2.pos := by
  unfold length
  refine Safe.ite (fun _ => ?_) fun _ => ?_
  · refine (r.safe_bytes 8).bind fun s hs => (safe_bigEndian hs.1.ge).bind fun v _ => ?_
    refine Safe.failIf_bind fun _ => Safe.pure ⟨hs.2.data_eq, ?_⟩
    rw [hs.2.pos_eq]
    exact Nat.le_add_right _ _
  · refine r.safe_u32.mono fun s hs => ⟨hs.data_eq, ?_⟩
    rw [hs.pos_eq]
    exact Nat.le_add_right _ _

theorem safe_nextSection (wide : Bool) :
    Safe (r.nextSection wide) fun s => s.2.data = r.data ∧ r.pos ≤ s.2.pos := by
  unfold nextSection
  refine (r.safe_length wide).bind fun s hs => ?_
  refine (s.2.safe_bytes s.1).bind fun t ht => Safe.pure ⟨?_, ?_⟩
  · exact ht.2.data_eq.trans hs.1
  · have hpos := ht.2.pos_eq
    dsimp only
    omega

end PSDReader

/-! ## Planes have all their rows -/

theorem safe_unpackPacket (full : ℕ) (s : Bytes × Bytes) :
    Safe (unpackPacket full s) (Sum.elim (fun _ => True) fun s' =>
      True ∧ s'.2.length < s.2.length) := by
  unfold unpackPacket
  refine Safe.ite (fun hmore => ?_) fun _ => Safe.pure trivial
  refine (Safe.elem hmore.1).bind fun b _ => (Safe.sliceFrom hmore.1).bind fun src hsrc => ?_
  have hshort : src.length < s.2.length := by omega
  generalize int8 b = n
  refine Safe.ite (fun _ => ?_) fun _ => Safe.ite (fun _ => ?_) fun _ => ?_
  · refine Safe.failIf_bind fun hcount => ?_
    refine (Safe.slice (Nat.zero_le _) (not_lt.mp hcount)).bind fun plain _ => ?_
    refine (Safe.sliceFrom (not_lt.mp hcount)).bind fun rest hrest => ?_
    exact Safe.pure ⟨trivial, by dsimp only; omega⟩
  · refine Safe.failIf_bind fun hempty => ?_
    refine (Safe.elem (by omega)).bind fun b _ => ?_
    refine (Safe.sliceFrom (by omega)).bind fun rest hrest => ?_
    exact Safe.pure ⟨trivial, by dsimp only; omega⟩
  · exact Safe.pure ⟨trivial, hshort⟩

theorem safe_unpackBits (dst src : Bytes) (want : ℕ) :
    Safe (unpackBits dst src want) fun out => out.length = dst.length + want := by
  unfold unpackBits
  have hloop := Safe.loop (I := fun _ => True) (fun s : Bytes × Bytes => s.2.length)
    (s := (dst, src)) (n := src.length + 1) trivial (Nat.lt_succ_self _)
    fun s _ => safe_unpackPacket (dst.length + want) s
  refine hloop.bind fun out _ => Safe.failIf_bind fun hlen => ?_
  exact Safe.slice (Nat.zero_le _) (not_lt.mp hlen)

/-- There are `n` planes of the size that the header gives. -/
structure Planes (h : PSDHeader) (n : ℕ) (planes : List Bytes) : Prop where
  count : planes.length = n
  size : ∀ p ∈ planes, p.length = h.rowBytes * h.height

theorem Planes.concat {h : PSDHeader} {n : ℕ} {planes : List Bytes} (hplanes : Planes h n planes)
    {p : Bytes} (hp : p.length = h.rowBytes * h.height) : Planes h (n + 1) (planes ++ [p]) where
  count := by rw [List.length_append, hplanes.count, List.length_singleton]
  size := by
    intro q hq
    cases List.mem_append.mp hq with
    | inl hmem => exact hplanes.size q hmem
    | inr hlast =>
        rw [List.mem_singleton.mp hlast]
        exact hp

theorem planes_nil (h : PSDHeader) : Planes h 0 [] :=
  ⟨rfl, fun _ hp => absurd hp List.not_mem_nil⟩

variable (h : PSDHeader)

theorem safe_rawPlanes (r : PSDReader) (n : ℕ) : Safe (rawPlanes r h n) (Planes h n) := by
  unfold rawPlanes
  refine (Safe.forRange (I := fun c (s : List Bytes × PSDReader) => Planes h c s.1)
    (planes_nil h) fun c _ s hs => ?_).bind fun s hs => Safe.pure hs
  exact (s.2.safe_bytes _).bind fun t ht => Safe.pure (hs.concat ht.1)

theorem safe_rowCounts (r : PSDReader) (n : ℕ) :
    Safe (rowCounts r n) fun s => s.1.length = n := by
  unfold rowCounts
  refine Safe.forRange (I := fun c (s : List ℕ × PSDReader) => s.1.length = c) rfl
    fun c _ s hs => ?_
  have hlen : ∀ v, (s.1 ++ [v]).length = c + 1 := by
    intro v
    rw [List.length_append, hs, List.length_singleton]
  refine Safe.ite (fun _ => ?_) fun _ => ?_
  · exact s.2.safe_u32.bind fun t _ => Safe.pure (hlen t.1)
  · exact s.2.safe_u16.bind fun t _ => Safe.pure (hlen t.1)

theorem safe_packedPlane (r : PSDReader) {counts : List ℕ} {c : ℕ}
    (hcounts : c * h.height + h.height ≤ counts.length) :
    Safe (packedPlane r h counts c) fun s => s.1.length = h.rowBytes * h.height := by
  unfold packedPlane
  refine (Safe.forRange (I := fun y (s : Bytes × PSDReader) => s.1.length = h.rowBytes * y)
    rfl fun y hy s hs => ?_)
  refine (Safe.elem (by omega)).bind fun n _ => (s.2.safe_bytes n).bind fun t _ => ?_
  refine (safe_unpackBits s.1 t.1 h.rowBytes).bind fun plane hplane => Safe.pure ?_
  rw [hplane, hs, Nat.mul_succ]

theorem safe_packedPlanes (r : PSDReader) (n : ℕ) :
    Safe (packedPlanes r h n) (Planes h n) := by
  unfold packedPlanes
  refine (r.safe_need _).bind fun _ _ => ?_
  refine (safe_rowCounts r (n * h.height)).bind fun s hcounts => ?_
  refine (Safe.forRange (I := fun c (s : List Bytes × PSDReader) => Planes h c s.1)
    (planes_nil h) fun c hc t ht => ?_).bind fun s hs => Safe.pure hs
  have hrows : c * h.height + h.height ≤ s.1.length := by
    rw [hcounts, ← Nat.succ_mul]
    exact Nat.mul_le_mul_right _ hc
  exact (safe_packedPlane h t.2 hrows).bind fun u hu => Safe.pure (ht.concat hu)

theorem safe_readPSDPlanes (r : PSDReader) :
    Safe (readPSDPlanes r h) (Planes h (min h.channels psdDecodedPlanes)) := by
  unfold readPSDPlanes
  refine r.safe_u16.bind fun s _ => ?_
  refine Safe.ite (fun _ => safe_rawPlanes h s.2 _) fun _ => ?_
  exact Safe.ite (fun _ => safe_packedPlanes h s.2 _) fun _ => Safe.fail _

/-! ## Samples stay in their planes -/

variable {h}

theorem safe_psdSample {x y : ℕ} (hx : x < h.width) (hy : y < h.height)
    (hdepth : h.depth = 1 ∨ h.depth = 8 ∨ h.depth = 16) {plane : Bytes}
    (hplane : plane.length = h.rowBytes * h.height) :
    Safe (psdSample plane (if h.depth = 1 then y * h.rowBytes * 8 + x else y * h.width + x)
      h.depth) fun _ => True := by
  have hrow : ∀ k < h.rowBytes, y * h.rowBytes + k < plane.length := by
    intro k hk
    calc y * h.rowBytes + k < y * h.rowBytes + h.rowBytes := by omega
      _ = (y + 1) * h.rowBytes := by rw [Nat.succ_mul]
      _ ≤ h.height * h.rowBytes := Nat.mul_le_mul_right _ hy
      _ = plane.length := by rw [hplane, Nat.mul_comm]
  unfold psdSample
  rcases hdepth with hone | height | hsixteen
  · -- eight pixels share a byte
    rw [if_pos hone, if_pos hone]
    have hbyte : (y * h.rowBytes * 8 + x) / 8 = y * h.rowBytes + x / 8 := by omega
    have hk : x / 8 < h.rowBytes := by
      rw [PSDHeader.rowBytes, if_pos hone]
      omega
    rw [hbyte]
    exact (Safe.elem (hrow _ hk)).bind fun _ _ => Safe.pure trivial
  · have hbytes : h.rowBytes = h.width := by
      rw [PSDHeader.rowBytes, height, if_neg (by omega)]
      omega
    rw [height, if_neg (by omega), if_neg (by omega), if_neg (by omega), ← hbytes]
    exact (Safe.elem (hrow x (by omega))).mono fun _ _ => trivial
  · have hbytes : h.rowBytes = h.width * 2 := by
      rw [PSDHeader.rowBytes, hsixteen, if_neg (by omega)]
      omega
    have hindex : (y * h.width + x) * 2 = y * h.rowBytes + x * 2 := by
      rw [hbytes, Nat.add_mul, Nat.mul_assoc]
    rw [hsixteen, if_neg (by omega), if_pos rfl, if_neg (by omega), hindex]
    exact (Safe.elem (hrow _ (by omega))).mono fun _ _ => trivial

theorem safe_checkPSDMode (mode : ℕ) (colorData : Bytes) :
    Safe (checkPSDMode mode colorData) fun _ =>
      mode = psdModeIndexed → 768 ≤ colorData.length := by
  unfold checkPSDMode
  refine Safe.ite (fun hcolor => ?_) fun _ => Safe.ite (fun _ => ?_) fun hnot => ?_
  · refine Safe.pure fun hindexed => ?_
    unfold psdModeRGB psdModeCMYK at hcolor
    unfold psdModeIndexed at hindexed
    omega
  · exact (Safe.failIf _ _).mono fun _ hlen _ => not_lt.mp hlen
  · exact (Safe.failIf _ _).mono fun _ _ hindexed => absurd hindexed hnot

theorem safe_psdColor {mode : ℕ} {colorData : Bytes}
    (hindexed : mode = psdModeIndexed → 768 ≤ colorData.length) {s : ℕ → Decoder UInt8}
    (hs : ∀ c < psdColors mode, Safe (s c) fun _ => True) :
    Safe (psdColor mode colorData s) fun _ => True := by
  unfold psdColors at hs
  unfold psdColor
  refine Safe.ite (fun hrgb => ?_) fun hrgb => ?_
  · rw [if_pos hrgb] at hs
    refine (hs 0 (by omega)).bind fun _ _ => (hs 1 (by omega)).bind fun _ _ => ?_
    exact (hs 2 (by omega)).bind fun _ _ => Safe.pure trivial
  rw [if_neg hrgb] at hs
  refine Safe.ite (fun hcmyk => ?_) fun hcmyk => ?_
  · rw [if_pos hcmyk] at hs
    refine (hs 3 (by omega)).bind fun _ _ => (hs 0 (by omega)).bind fun _ _ => ?_
    refine (hs 1 (by omega)).bind fun _ _ => (hs 2 (by omega)).bind fun _ _ => ?_
    exact Safe.pure trivial
  rw [if_neg hcmyk] at hs
  refine Safe.ite (fun hmode => ?_) fun _ => ?_
  · have hlen := hindexed hmode
    refine (hs 0 (by omega)).bind fun v _ => ?_
    have hv := v.toNat_lt
    refine (Safe.elem (by omega)).bind fun _ _ => (Safe.elem (by omega)).bind fun _ _ => ?_
    exact (Safe.elem (by omega)).bind fun _ _ => Safe.pure trivial
  · exact (hs 0 (by omega)).bind fun _ _ => Safe.pure trivial

theorem safe_psdComposite (hdepth : h.depth = 1 ∨ h.depth = 8 ∨ h.depth = 16) {n : ℕ}
    {planes : List Bytes} (hplanes : Planes h n planes) (colorData : Bytes)
    (mergedAlpha : Bool) :
    Safe (psdComposite h planes colorData mergedAlpha)
      (Raster.Sized h.width h.height) := by
  unfold psdComposite
  refine (safe_checkPSDMode h.mode colorData).bind fun _ hindexed => ?_
  refine Safe.failIf_bind fun hcolors => ?_
  refine Safe.forRange (I := fun _ => Raster.Sized h.width h.height)
    (Raster.blank_sized _ _ _) fun y hy dst hdst => ?_
  refine Safe.forRange (I := fun _ => Raster.Sized h.width h.height) hdst fun x hx dst hdst => ?_
  have hsample : ∀ c < planes.length, Safe (psdPlaneSample planes h.depth
      (if h.depth = 1 then y * h.rowBytes * 8 + x else y * h.width + x) c) fun _ => True := by
    intro c hc
    refine (Safe.elem hc).bind fun plane hplane => ?_
    exact safe_psdSample hx hy hdepth (hplanes.size plane hplane)
  have hin : (y * h.width + x) * 4 + 3 < h.width * h.height * 4 :=
    Raster.sample_lt hx hy (by omega)
  refine (safe_psdColor hindexed fun c hc => hsample c (by omega)).bind fun rgb _ => ?_
  refine Safe.ite (fun halpha => ?_) fun _ => Raster.safe_putPixel hdst hin _
  exact (hsample _ halpha.2.1).bind fun a _ => Raster.safe_putPixel hdst hin _

section Float

variable {F : Type} (fl : Floats F)

theorem safe_psdFloatSample (hdepth : h.depth = 32) {n : ℕ} {planes : List Bytes}
    (hplanes : Planes h n planes) {c i : ℕ} (hc : c < planes.length)
    (hi : i < h.width * h.height) : Safe (psdFloatSample fl planes c i) fun _ => True := by
  unfold psdFloatSample
  refine (Safe.elem hc).bind fun plane hplane => ?_
  have hlen : plane.length = h.width * h.height * 4 := by
    have hbytes : h.rowBytes = h.width * 4 := by
      rw [PSDHeader.rowBytes, hdepth, if_neg (by omega)]
      omega
    rw [hplanes.size plane hplane, hbytes, Nat.mul_right_comm]
  refine (Safe.sliceFrom (by omega)).bind fun rest hrest => ?_
  exact (safe_bigEndian (by omega)).bind fun _ _ => Safe.pure trivial

theorem safe_psdFloatComposite (hdepth : h.depth = 32) {n : ℕ} {planes : List Bytes}
    (hplanes : Planes h n planes) (mergedAlpha : Bool) :
    Safe (psdFloatComposite fl h planes mergedAlpha) (Raster.Sized h.width h.height) := by
  unfold psdFloatComposite
  refine Safe.failIf_bind fun _ => Safe.failIf_bind fun hcolors => ?_
  have hpos : 0 < if h.mode = psdModeRGB then 3 else 1 := by
    split
    · omega
    · omega
  generalize (if h.mode = psdModeRGB then 3 else 1) = colors at *
  refine Safe.forRange (I := fun _ => Raster.Sized h.width h.height)
    (Raster.blank_sized _ _ _) fun i hi f hf => ?_
  have hsample : ∀ c < planes.length, Safe (psdFloatSample fl planes c i) fun _ => True :=
    fun c hc => safe_psdFloatSample fl hdepth hplanes hc hi
  have hin : i * 4 + 3 < h.width * h.height * 4 := by omega
  refine (hsample _ (by omega)).bind fun r _ => (hsample _ (by omega)).bind fun g _ => ?_
  refine (hsample _ (by omega)).bind fun b _ => ?_
  refine Safe.ite (fun halpha => ?_) fun _ => Raster.safe_putPixel hf hin _
  exact (hsample _ halpha.2).bind fun a _ => Raster.safe_putPixel hf hin _

end Float

end Preview

end Nipa
