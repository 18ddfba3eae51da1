import Nipa.Preview.PSD

/-!
# Photoshop layers

The layer records name their channels and carry blocks of further data; the pixel data of all
channels follows the records.  A record that makes no sense leaves the image without layers.
-/

namespace Nipa

open Support Faulty

namespace Preview

def psdWideKeys : List Bytes :=
  ["LMsk", "Lr16", "Lr32", "Layr", "Mt16", "Mt32", "Mtrn", "Alph", "FMsk", "lnk2", "FEid",
    "FXid", "PxSD"].map ascii

structure PSDRecord where
  layer : Layer
  divider : ℕ
  channels : List ℕ

/-! ## Names and hashes -/

def trimZeros (units : List ℕ) : List ℕ :=
  units.rdropWhile fun u => u = 0

/-- The characters of UTF-16 units; a lone surrogate is no character. -/
def utf16Decode : List ℕ → List Char
  | [] => []
  | [u] => [if 0xd800 ≤ u ∧ u < 0xe000 then Char.ofNat 0xfffd else Char.ofNat u]
  | u :: v :: units =>
      if 0xd800 ≤ u ∧ u < 0xdc00 ∧ 0xdc00 ≤ v ∧ v < 0xe000 then
        Char.ofNat ((u - 0xd800) * 0x400 + (v - 0xdc00) + 0x10000) :: utf16Decode units
      else
        (if 0xd800 ≤ u ∧ u < 0xe000 then Char.ofNat 0xfffd else Char.ofNat u) ::
          utf16Decode (v :: units)

def psdUnicodeName (b : Bytes) : Decoder (Option Bytes) :=
  if b.length < 4 then return none
  else do
    let n ← bigEndian 4 b
    if n > (b.length - 4) / 2 then return none
    else
      let units ← (List.range n).mapM fun i => do bigEndian 2 (← sliceFrom b (4 + i * 2))
      return some ((utf16Decode (trimZeros units)).flatMap String.utf8EncodeChar)

/-- FNV-1a in 64 bits. -/
def fnv64a (data : Bytes) : UInt64 :=
  data.foldl (fun h b => (h ^^^ b.toUInt64) * 1099511628211) 14695981039346656037

def hexDigit (n : ℕ) : UInt8 :=
  UInt8.ofNat (if n < 10 then 48 + n else 87 + n)

/-- The sixteen digits of a hash. -/
def hexString (h : UInt64) : Bytes :=
  (List.range 16).map fun k => hexDigit (h.toNat / 16 ^ (15 - k) % 16)

/-! ## Records -/

/-- The signature and the key of a block. -/
def psdBlockHead (r : PSDReader) : Decoder ((Bytes × Bytes) × PSDReader) := do
  let (sig, r) ← r.bytes 4
  let (key, r) ← r.bytes 4
  return ((sig, key), r)

/-- A block of further data; an unusual one is the last. -/
def psdBlock (s : PSDRecord × PSDReader) : Decoder (PSDRecord ⊕ PSDRecord × PSDReader) := do
  let rec' := s.1
  match ← settle (s.2.need 12) with
  | none => return .inl rec'
  | some () =>
      let ((sig, key), r) ← psdBlockHead s.2
      if sig ≠ ascii "8BIM" ∧ sig ≠ ascii "8B64" then return .inl rec'
      else
        match ← settle (r.nextSection (r.big && psdWideKeys.contains key)) with
        | none => return .inl rec'
        | some (block, r) =>
            if key = ascii "luni" then
              match ← psdUnicodeName block.data with
              | some name => return .inr ({ rec' with layer.name := name }, r)
              | none => return .inr (rec', r)
            else if (key = ascii "lsct" ∨ key = ascii "lsdk") ∧ block.data.length ≥ 4 then
              return .inr ({ rec' with divider := ← bigEndian 4 block.data }, r)
            else return .inr (rec', r)

/-- The lengths of the channels of a layer. -/
def psdChannels (r : PSDReader) (n : ℕ) : Decoder (List ℕ × PSDReader) :=
  forRange n ([], r) fun s _ => do
    let (_, r) ← s.2.u16
    let (size, r) ← r.length r.big
    return (s.1 ++ [size], r)

def readPSDRecord (r : PSDReader) : Decoder (PSDRecord × PSDReader) := do
  let (top, r) ← r.u32
  let (left, r) ← r.u32
  let (bottom, r) ← r.u32
  let (right, r) ← r.u32
  let (n, r) ← r.u16
  failIf (n > psdMaxChannels) .psdHeader
  let (channels, r) ← psdChannels r n
  let (head, r) ← r.bytes 12
  failIf ((← slice head 0 4) ≠ ascii "8BIM") .psdHeader
  let blend ← slice head 4 8
  let opacity ← elem head 8
  let flags ← elem head 10
  let (extra, r) ← r.nextSection false
  let (_, extra) ← extra.nextSection false
  let (_, extra) ← extra.nextSection false
  let (nameLen, extra) ← extra.bytes 1
  let (name, extra) ← extra.bytes (← elem nameLen 0).toNat
  let extra := { extra with pos := extra.pos + (4 - (1 + name.length) % 4) % 4 }
  let layer : Layer :=
    { name := name, kind := [], depth := 0, visible := flags &&& 2 = 0,
      opacity := opacity.toNat, blend := blend, x := int32 left, y := int32 top,
      width := max (int32 right - int32 left) 0, height := max (int32 bottom - int32 top) 0,
      hash := [] }
  let rec' ← loop psdBlock (extra.data.length + 1) (⟨layer, 0, channels⟩, extra)
  return (rec', r)

/-! ## Layers -/

/-- The records with the hashes of their pixel data. -/
def hashedRecords (r : PSDReader) (count : ℕ) : Decoder (List PSDRecord) := do
  let s ← forRange count ([], r) fun s _ => do
    let (rec', r) ← readPSDRecord s.2
    return (s.1 ++ [rec'], r)
  let s ← s.1.foldlM (fun t rec' => do
    let u ← rec'.channels.foldlM (fun u n => do
      let (b, r) ← u.2.bytes n
      return (u.1 ++ b, r)) ([], t.2)
    return (t.1 ++ [{ rec' with layer.hash := hexString (fnv64a u.1) }], u.2)) ([], s.2)
  return s.1

/-- The layers from the last record to the first; groups end before they begin. -/
def nestLayers (records : List PSDRecord) : List Layer :=
  (records.reverse.foldl (fun (s : List Layer × ℕ) rec' =>
    if rec'.divider = 3 then (s.1, s.2 - 1)
    else if rec'.divider = 1 ∨ rec'.divider = 2 then
      (s.1 ++ [{ rec'.layer with
        kind := ascii "group", depth := s.2, x := 0, y := 0, width := 0, height := 0,
        hash := [] }], s.2 + 1)
    else (s.1 ++ [{ rec'.layer with kind := ascii "layer", depth := s.2 }], s.2)) ([], 0)).1

/-- The signed number with the same 16 bits. -/
def int16 (v : ℕ) : ℤ :=
  (v : ℤ).bmod (2 ^ 16)

def readPSDLayerInfo (r : PSDReader) : Decoder (List Layer × Bool) := do
  match ← settle r.u16 with
  | none => return ([], false)
  | some (raw, r) =>
      let count := int16 raw
      let mergedAlpha : Bool := count < 0
      match ← settle (hashedRecords r count.natAbs) with
      | none => return ([], mergedAlpha)
      | some records => return (nestLayers records, mergedAlpha)

/-- A block behind the layer section, which may hold the layers. -/
def psdLayerBlock (r : PSDReader) : Decoder ((List Layer × Bool) ⊕ PSDReader) := do
  match ← settle (r.need 12) with
  | none => return .inl ([], false)
  | some () =>
      let ((sig, key), r) ← psdBlockHead r
      if sig ≠ ascii "8BIM" ∧ sig ≠ ascii "8B64" then return .inl ([], false)
      else
        match ← settle (r.nextSection (r.big && psdWideKeys.contains key)) with
        | none => return .inl ([], false)
        | some (block, r) =>
            if key = ascii "Lr16" ∨ key = ascii "Lr32" ∨ key = ascii "Layr" then
              return .inl (← readPSDLayerInfo block)
            else return .inr { r with pos := r.pos + r.pos % 2 }

/-- The layers, and whether the merged image has a transparency channel. -/
def parsePSDLayers (r : PSDReader) : Decoder (List Layer × Bool) :=
  if r.data.length = 0 then return ([], false)
  else do
    match ← settle (r.nextSection r.big) with
    | none => return ([], false)
    | some (info, r) =>
        if info.data.length > 0 then readPSDLayerInfo info
        else
          match ← settle (r.nextSection false) with
          | none => return ([], false)
          | some (_, r) => loop psdLayerBlock (r.data.length + 1) r

/-! ## The decoder -/

/-- The header, and the reader behind it. -/
def readPSDHeader (data : Bytes) : Decoder (PSDHeader × PSDReader) := do
  let r : PSDReader := ⟨data, 0, false⟩
  match ← settle (r.bytes 4) with
  | none => fail .psdHeader
  | some (sig, r) =>
      failIf (sig ≠ ascii "8BPS") .psdHeader
      let (version, r) := (← settle r.u16).getD (0, r)
      failIf (version ≠ 1 ∧ version ≠ 2) .psdHeader
      let r := { r with big := version = 2 }
      let (_, r) ← r.bytes 6
      let (channels, r) ← r.u16
      let (height, r) ← r.u32
      let (width, r) ← r.u32
      let (depth, r) ← r.u16
      let (mode, r) ← r.u16
      failIf (channels < 1 ∨ channels > psdMaxChannels ∨
        depth ≠ 1 ∧ depth ≠ 8 ∧ depth ≠ 16 ∧ depth ≠ 32) .psdHeader
      checkSize width height
      return (⟨channels, height, width, depth, mode⟩, r)

def decodePSD {F : Type} (fl : Floats F) (data : Bytes) : Decoder (Image F) := do
  let (h, r) ← readPSDHeader data
  let (colorData, r) ← r.nextSection false
  let (_, r) ← r.nextSection false
  let (layerSection, r) ← r.nextSection r.big
  let (layers, mergedAlpha) ← parsePSDLayers layerSection
  let planes ← readPSDPlanes r h
  let format := if r.big then ascii "psb" else ascii "psd"
  if h.depth = 32 then
    checkFloatSize h.width h.height
    let f ← psdFloatComposite fl h planes mergedAlpha
    Image.ofHDR fl f format (psdModeName h.mode) h.depth layers
  else
    let pixels ← psdComposite h planes colorData.data mergedAlpha
    return ⟨pixels, none, format, psdModeName h.mode, h.depth, hasAlpha pixels, layers⟩

/-! ## Layers stay in their section -/

theorem safe_psdUnicodeName (b : Bytes) : Safe (psdUnicodeName b) fun _ => True := by
  unfold psdUnicodeName
  refine Safe.ite (fun _ => Safe.pure trivial) fun hlen => ?_
  refine (safe_bigEndian (by omega)).bind fun n _ => ?_
  refine Safe.ite (fun _ => Safe.pure trivial) fun hn => ?_
  refine (Safe.mapM (T := fun _ => True) fun i hi => ?_).bind fun units _ => Safe.pure trivial
  have hi' := List.mem_range.mp hi
  refine (Safe.sliceFrom (by omega)).bind fun rest hrest => ?_
  exact safe_bigEndian (by omega)

theorem safe_psdBlockHead (r : PSDReader) :
    Safe (psdBlockHead r) fun s => s.2.data = r.data ∧ r.pos < s.2.pos := by
  unfold psdBlockHead
  refine (r.safe_bytes 4).bind fun s hs => (s.2.safe_bytes 4).bind fun t ht => ?_
  refine Safe.pure ⟨ht.2.data_eq.trans hs.2.data_eq, ?_⟩
  have hpos := ht.2.pos_eq
  have hpos' := hs.2.pos_eq
  dsimp only
  omega

theorem safe_psdBlock {data : Bytes} {s : PSDRecord × PSDReader} (hdata : s.2.data = data) :
    Safe (psdBlock s) (Sum.elim (fun _ => True) fun s' =>
      s'.2.data = data ∧ data.length - s'.2.pos < data.length - s.2.pos) := by
  unfold psdBlock
  refine (s.2.safe_need 12).settle.bind fun o ho => ?_
  cases o with
  | none => exact Safe.pure trivial
  | some u =>
      have hroom := ho u rfl
      rw [hdata] at hroom
      refine (safe_psdBlockHead s.2).bind fun head hhead => ?_
      obtain ⟨hr, hpos⟩ := hhead
      rw [hdata] at hr
      refine Safe.ite (fun _ => Safe.pure trivial) fun _ => ?_
      refine (head.2.safe_nextSection _).settle.bind fun o ho => ?_
      cases o with
      | none => exact Safe.pure trivial
      | some t =>
          obtain ⟨hsame, hle⟩ := ho t rfl
          have hnext : t.2.data = data ∧ data.length - t.2.pos < data.length - s.2.pos :=
            ⟨hsame.trans hr, by omega⟩
          refine Safe.ite (fun _ => ?_) fun _ => Safe.ite (fun hfour => ?_) fun _ => ?_
          · refine (safe_psdUnicodeName t.1.data).bind fun name _ => ?_
            cases name with
            | none => exact Safe.pure hnext
            | some name => exact Safe.pure hnext
          · exact (safe_bigEndian hfour.2).bind fun v _ => Safe.pure hnext
          · exact Safe.pure hnext

theorem safe_psdChannels (r : PSDReader) (n : ℕ) : Safe (psdChannels r n) fun _ => True := by
  unfold psdChannels
  refine Safe.forRange (I := fun _ _ => True) trivial fun _ _ s _ => ?_
  refine s.2.safe_u16.bind fun t _ => (t.2.safe_length _).bind fun u _ => ?_
  exact Safe.pure trivial

theorem safe_readPSDRecord (r : PSDReader) : Safe (readPSDRecord r) fun _ => True := by
  unfold readPSDRecord
  refine r.safe_u32.bind fun top _ => top.2.safe_u32.bind fun left _ => ?_
  refine left.2.safe_u32.bind fun bottom _ => bottom.2.safe_u32.bind fun right _ => ?_
  refine right.2.safe_u16.bind fun n _ => Safe.failIf_bind fun _ => ?_
  refine (safe_psdChannels n.2 n.1).bind fun channels _ => ?_
  refine (channels.2.safe_bytes 12).bind fun head hhead => ?_
  have hlen := hhead.1
  refine (Safe.slice (by omega) (by omega)).bind fun sig _ => Safe.failIf_bind fun _ => ?_
  refine (Safe.slice (by omega) (by omega)).bind fun blend _ => ?_
  refine (Safe.elem (by omega)).bind fun opacity _ => (Safe.elem (by omega)).bind fun flags _ => ?_
  refine (head.2.safe_nextSection false).bind fun extra _ => ?_
  refine (extra.1.safe_nextSection false).bind fun mask _ => ?_
  refine (mask.2.safe_nextSection false).bind fun ranges _ => ?_
  refine (ranges.2.safe_bytes 1).bind fun nameLen hnameLen => ?_
  have hone := hnameLen.1
  refine (Safe.elem (by omega)).bind fun len _ => ?_
  refine (nameLen.2.safe_bytes len.toNat).bind fun name _ => ?_
  refine (Safe.loop (Q := fun _ => True) (I := fun s : PSDRecord × PSDReader =>
      s.2.data = name.2.data)
    (fun s => name.2.data.length - s.2.pos) rfl ?_ fun s hs => safe_psdBlock hs).bind
    fun record _ => Safe.pure trivial
  dsimp only
  omega

theorem safe_hashedRecords (r : PSDReader) (count : ℕ) :
    Safe (hashedRecords r count) fun _ => True := by
  unfold hashedRecords
  refine (Safe.forRange (I := fun _ _ => True) trivial fun _ _ s _ => ?_).bind fun s _ => ?_
  · exact (safe_readPSDRecord s.2).bind fun t _ => Safe.pure trivial
  refine (Safe.foldlM (I := fun _ => True) trivial fun record _ t _ => ?_).bind
    fun t _ => Safe.pure trivial
  refine (Safe.foldlM (I := fun _ => True) trivial fun n _ u _ => ?_).bind
    fun u _ => Safe.pure trivial
  exact (u.2.safe_bytes n).bind fun v _ => Safe.pure trivial

theorem safe_readPSDLayerInfo (r : PSDReader) : Safe (readPSDLayerInfo r) fun _ => True := by
  unfold readPSDLayerInfo
  refine r.safe_u16.settle.bind fun o _ => ?_
  cases o with
  | none => exact Safe.pure trivial
  | some t =>
      dsimp only
      generalize int16 t.1 = count
      refine (safe_hashedRecords t.2 count.natAbs).settle.bind fun o _ => ?_
      cases o with
      | none => exact Safe.pure trivial
      | some records => exact Safe.pure trivial

theorem safe_psdLayerBlock {data : Bytes} {r : PSDReader} (hdata : r.data = data) :
    Safe (psdLayerBlock r) (Sum.elim (fun _ => True) fun r' =>
      r'.data = data ∧ data.length - r'.pos < data.length - r.pos) := by
  unfold psdLayerBlock
  refine (r.safe_need 12).settle.bind fun o ho => ?_
  cases o with
  | none => exact Safe.pure trivial
  | some u =>
      have hroom := ho u rfl
      rw [hdata] at hroom
      refine (safe_psdBlockHead r).bind fun head hhead => ?_
      obtain ⟨hr, hpos⟩ := hhead
      rw [hdata] at hr
      refine Safe.ite (fun _ => Safe.pure trivial) fun _ => ?_
      refine (head.2.safe_nextSection _).settle.bind fun o ho => ?_
      cases o with
      | none => exact Safe.pure trivial
      | some t =>
          obtain ⟨hsame, hle⟩ := ho t rfl
          refine Safe.ite (fun _ => ?_) fun _ => ?_
          · exact (safe_readPSDLayerInfo t.1).bind fun _ _ => Safe.pure trivial
          · exact Safe.pure ⟨hsame.trans hr, by dsimp only; omega⟩

theorem safe_parsePSDLayers (r : PSDReader) : Safe (parsePSDLayers r) fun _ => True := by
  unfold parsePSDLayers
  refine Safe.ite (fun _ => Safe.pure trivial) fun _ => ?_
  refine (r.safe_nextSection _).settle.bind fun o _ => ?_
  cases o with
  | none => exact Safe.pure trivial
  | some s =>
      refine Safe.ite (fun _ => safe_readPSDLayerInfo s.1) fun _ => ?_
      refine (s.2.safe_nextSection false).settle.bind fun o _ => ?_
      cases o with
      | none => exact Safe.pure trivial
      | some t =>
          exact Safe.loop (I := fun r : PSDReader => r.data = t.2.data)
            (fun r => t.2.data.length - r.pos) rfl (by omega) fun r hr => safe_psdLayerBlock hr

/-! ## Images -/

theorem safe_readPSDHeader (data : Bytes) :
    Safe (readPSDHeader data) fun s => Fits MaxPixels s.1.width s.1.height ∧
      (s.1.depth = 1 ∨ s.1.depth = 8 ∨ s.1.depth = 16 ∨ s.1.depth = 32) := by
  unfold readPSDHeader
  refine (PSDReader.safe_bytes _ 4).settle.bind fun o _ => ?_
  cases o with
  | none => exact Safe.fail _
  | some s =>
      refine Safe.failIf_bind fun _ => s.2.safe_u16.settle.bind fun o _ => ?_
      refine Safe.failIf_bind fun _ => ?_
      refine (PSDReader.safe_bytes _ 6).bind fun reserved _ => ?_
      refine reserved.2.safe_u16.bind fun channels _ => channels.2.safe_u32.bind fun height _ => ?_
      refine height.2.safe_u32.bind fun width _ => width.2.safe_u16.bind fun depth _ => ?_
      refine depth.2.safe_u16.bind fun mode _ => Safe.failIf_bind fun hdepth => ?_
      refine (safe_checkSize _ _).bind fun _ hfits => Safe.pure ⟨hfits, ?_⟩
      dsimp only
      omega

theorem safe_decodePSD {F : Type} (fl : Floats F) (data : Bytes) :
    Safe (decodePSD fl data) Image.Sound := by
  unfold decodePSD
  refine (safe_readPSDHeader data).bind fun s hs => ?_
  obtain ⟨hfits, hdepth⟩ := hs
  refine (s.2.safe_nextSection false).bind fun color _ => ?_
  refine (color.2.safe_nextSection false).bind fun resources _ => ?_
  refine (resources.2.safe_nextSection _).bind fun layerSection _ => ?_
  refine (safe_parsePSDLayers layerSection.1).bind fun layers _ => ?_
  refine (safe_readPSDPlanes s.1 layerSection.2).bind fun planes hplanes => ?_
  refine Safe.ite (fun hfloat => ?_) fun hplain => ?_
  · refine (safe_checkFloatSize _ _).bind fun _ hsmall => ?_
    refine (safe_psdFloatComposite fl hfloat hplanes layers.2).bind fun f hf => ?_
    exact safe_ofHDR fl hsmall ⟨hf.width_eq, hf.height_eq⟩ _ _ _ _
  · refine (safe_psdComposite (by omega) hplanes color.1.data layers.2).bind
      fun pixels hpixels => Safe.pure ?_
    refine Image.sound_of_fits hfits ⟨hpixels.width_eq, hpixels.height_eq⟩ fun f hf => ?_
    cases hf

end Preview

end Nipa
