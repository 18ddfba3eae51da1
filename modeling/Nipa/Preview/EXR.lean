import Nipa.Preview.PSD

/-!
# OpenEXR

Attributes up to an empty name, a table of offsets, and blocks of lines or tiles, each
compressed on its own.  Numbers that are made from several attributes are taken modulo 2 ^ 64,
as the code computes them.
-/

namespace Nipa

open Support Faulty

namespace Preview

def exrMagic : ℕ := 20000630
def exrFlagTiled : ℕ := 0x200
def exrFlagDeep : ℕ := 0x800
def exrFlagMultipart : ℕ := 0x1000
def exrUint : ℕ := 0
def exrHalf : ℕ := 1
def exrFloat : ℕ := 2

def exrCompressions : List Bytes :=
  ["NONE", "RLE", "ZIPS", "ZIP", "PIZ", "PXR24", "B44", "B44A", "DWAA", "DWAB", "HTJ2K256",
    "HTJ2K32"].map ascii

def exrMaxBlockBytes : ℕ :=
  256 * 2 ^ 20

/-- The lines of a block, for the compressions that are supported. -/
def exrLinesPerBlock (compression : ℤ) : Option ℕ :=
  if compression = 0 ∨ compression = 1 ∨ compression = 2 then some 1
  else if compression = 3 ∨ compression = 5 then some 16
  else none

structure EXRChannel where
  name : Bytes
  kind : ℕ
  size : ℕ
  sampling : Bool

structure EXRHeader where
  channels : List EXRChannel
  compression : ℤ
  minX : ℤ
  minY : ℤ
  width : ℤ
  height : ℤ
  tiled : Bool
  tileWidth : ℕ
  tileHeight : ℕ
  offsetTable : ℕ

/-- What inflates a compressed block, up to a number of bytes. -/
abbrev Inflate := Bytes → ℕ → Except Bytes Bytes

/-- A quotient; there is none by zero. -/
def quotient (a b : ℕ) : Decoder ℕ :=
  if b = 0 then .error .outOfRange else .ok (a / b)

/-! ## Headers -/

/-- The text up to the next zero byte, and the position behind it. -/
def cstring (data : Bytes) (pos : ℕ) : Decoder (Bytes × ℕ) := do
  let rest ← sliceFrom data pos
  match rest.idxOf? 0 with
  | none => fail .exrHeader
  | some stop => return (← slice data pos (pos + stop), pos + stop + 1)

def exrChannelSize (kind : ℕ) : Decoder ℕ :=
  if kind = exrHalf then return 2
  else if kind = exrUint ∨ kind = exrFloat then return 4
  else fail .exrHeader

/-- One channel of the list; an empty name ends it. -/
def exrChannelEntry (s : List EXRChannel × Bytes) :
    Decoder (List EXRChannel ⊕ List EXRChannel × Bytes) :=
  match s.2.idxOf? 0 with
  | some 0 => return .inl s.1
  | none => if s.2 = [] then return .inl s.1 else fail .exrHeader
  | some stop => do
      failIf (s.2.length < stop + 17) .exrHeader
      let name ← slice s.2 0 stop
      let kind ← littleEndian 4 (← sliceFrom s.2 (stop + 1))
      let xs ← littleEndian 4 (← sliceFrom s.2 (stop + 9))
      let ys ← littleEndian 4 (← sliceFrom s.2 (stop + 13))
      let size ← exrChannelSize kind
      let rest ← sliceFrom s.2 (stop + 17)
      return .inr (s.1 ++ [⟨name, kind, size, xs != 1 || ys != 1⟩], rest)

def parseEXRChannels (v : Bytes) : Decoder (List EXRChannel) :=
  loop exrChannelEntry (v.length + 1) ([], v)

/-- The signed number at a position. -/
def exrInt32 (data : Bytes) (o : ℕ) : Decoder ℤ := do
  return int32 (← littleEndian 4 (← sliceFrom data o))

/-- What an attribute says; `true` when it is the data window. -/
def exrAttribute (h : EXRHeader) (name value : Bytes) : Decoder (EXRHeader × Bool) :=
  if name = ascii "channels" then do
    return ({ h with channels := ← parseEXRChannels value }, false)
  else if name = ascii "compression" then do
    failIf (value.length ≠ 1) .exrHeader
    return ({ h with compression := (← elem value 0).toNat }, false)
  else if name = ascii "dataWindow" then do
    failIf (value.length ≠ 16) .exrHeader
    let minX ← exrInt32 value 0
    let minY ← exrInt32 value 4
    let maxX ← exrInt32 value 8
    let maxY ← exrInt32 value 12
    return ({ h with
      minX := minX, minY := minY, width := maxX - minX + 1, height := maxY - minY + 1 }, true)
  else if name = ascii "tiles" then do
    failIf (value.length ≠ 9) .exrHeader
    return ({ h with
      tileWidth := ← littleEndian 4 (← sliceFrom value 0)
      tileHeight := ← littleEndian 4 (← sliceFrom value 4) }, false)
  else return (h, false)

/-- One attribute; an empty name ends them. -/
def exrAttributeEntry (data : Bytes) (s : EXRHeader × Bool × ℕ) :
    Decoder ((EXRHeader × Bool × ℕ) ⊕ (EXRHeader × Bool × ℕ)) := do
  let (name, pos) ← cstring data s.2.2
  if name = [] then return .inl (s.1, s.2.1, pos)
  else
    let (_, pos) ← cstring data pos
    failIf (pos + 4 > data.length) .exrHeader
    let size ← littleEndian 4 (← sliceFrom data pos)
    let pos := pos + 4
    failIf ((size : ℤ) > data.length - pos) .exrHeader
    let value ← slice data pos (pos + size)
    let (h, isWindow) ← exrAttribute s.1 name value
    return .inr (h, s.2.1 || isWindow, pos + size)

def parseEXRHeader (data : Bytes) : Decoder EXRHeader := do
  failIf (data.length < 8) .exrHeader
  failIf ((← littleEndian 4 data) ≠ exrMagic) .exrHeader
  let flags ← littleEndian 4 (← sliceFrom data 4)
  failIf (flags &&& 0xff ≠ 2) .exrHeader
  failIf (flags &&& (exrFlagDeep ||| exrFlagMultipart) ≠ 0)
    (.unsupported (ascii "multi-part or deep EXR"))
  let h : EXRHeader := ⟨[], -1, 0, 0, 0, 0, flags &&& exrFlagTiled ≠ 0, 0, 0, 0⟩
  let (h, haveWindow, pos) ← loop (exrAttributeEntry data) (data.length + 1) (h, false, 8)
  failIf (h.channels.length = 0 ∨ h.compression < 0 ∨ ¬ haveWindow ∨
    h.tiled ∧ (h.tileWidth ≤ 0 ∨ h.tileHeight ≤ 0)) .exrHeader
  return { h with offsetTable := pos }

/-! ## Channels -/

def dot : UInt8 := 46

/-- The layer that a channel name gives, before its last dot. -/
def exrLayer (name : Bytes) : Bytes :=
  if dot ∈ name then ((name.reverse.dropWhile (· ≠ dot)).drop 1).reverse else []

/-- The rest of the name in capital letters. -/
def exrBase (name : Bytes) : Bytes :=
  (name.reverse.takeWhile (· ≠ dot)).reverse.map fun b =>
    if 97 ≤ b ∧ b ≤ 122 then b - 32 else b

namespace EXRHeader

variable (h : EXRHeader)

/-- The channel of a layer with a name, the last one if there are several. -/
def channelOf (layer : Bytes) (base : String) : Option ℕ :=
  (List.range h.channels.length).reverse.find? fun i =>
    h.channels[i]?.any fun ch => exrLayer ch.name == layer && exrBase ch.name == ascii base

/-- The layer to show: the first one with colour, or the unnamed one with luminance. -/
def chosenLayer : Option Bytes :=
  ((h.channels.map fun ch => exrLayer ch.name).mergeSort fun a b => a ≤ b).find? fun layer =>
    (h.channelOf layer "R").isSome || (h.channelOf layer "Y").isSome && layer = []

/-- The channels of the layer to show, with the sample that each of them feeds. -/
def slots : List (ℕ × ℕ) :=
  match h.chosenLayer with
  | none => [(0, 4)]
  | some layer =>
      (if (h.channelOf layer "R").isSome then [("R", 0), ("G", 1), ("B", 2), ("A", 3)]
        else [("Y", 4), ("A", 3)]).filterMap fun slot =>
          (h.channelOf layer slot.1).map fun i => (i, slot.2)

/-- For each channel the sample it feeds, 4 for gray; and the depth of the samples. -/
def displayChannels : Decoder (List (Option ℕ) × ℕ) := do
  let pick ← h.slots.foldlM (fun pick slot => store pick slot.1 (some slot.2))
    (List.replicate h.channels.length none)
  let depth ← forRange pick.length 0 fun depth i => do
    match ← elem pick i with
    | none => return depth
    | some _ =>
        let ch ← elem h.channels i
        failIf ch.sampling (.unsupported (ascii "subsampled EXR channels"))
        return max depth (ch.size * 8)
  return (pick, depth)

/-! ## Blocks -/

def linesPerBlock : ℕ :=
  (exrLinesPerBlock h.compression).getD 0

def tilesX : Decoder ℕ :=
  quotient (h.width.toNat + h.tileWidth - 1) h.tileWidth

def tilesY : Decoder ℕ :=
  quotient (h.height.toNat + h.tileHeight - 1) h.tileHeight

def blocks : Decoder ℕ :=
  quotient (h.height.toNat + h.linesPerBlock - 1) h.linesPerBlock

/-- The blocks or tiles of the file. -/
def chunks : Decoder ℕ := do
  let blocks ← h.blocks
  if h.tiled then return (← h.tilesX) * (← h.tilesY) else return blocks

/-- Files too short for the offset table are refused. -/
def plausibleSize (size : ℕ) : Decoder Unit := do
  failIf ((← h.chunks) > (size - h.offsetTable) / 16) .exrTruncated

def lineBytes (width : ℕ) : ℤ :=
  h.channels.foldl (fun n ch => int64 (n + int64 (ch.size * width))) 0

def offset (data : Bytes) (i : ℕ) : Decoder ℕ := do
  let start := h.offsetTable + i * 8
  failIf (start + 8 > data.length) .exrTruncated
  let off ← littleEndian 8 (← sliceFrom data start)
  failIf (off > data.length) .exrTruncated
  return off

end EXRHeader

/-! ## Compression -/

def exrInflate (inflate : Inflate) (src : Bytes) (limit : ℕ) : Decoder Bytes :=
  match inflate src limit with
  | .ok out => return out
  | .error what => fail (.exrZlib what)

/-- One packet: plain bytes or a run. -/
def exrPacket (limit : ℕ) (s : Bytes × Bytes) : Decoder (Bytes ⊕ Bytes × Bytes) :=
  let out := s.1
  if s.2.length > 0 ∧ out.length < limit then do
    let n := int8 (← elem s.2 0)
    let src ← sliceFrom s.2 1
    if n < 0 then
      let count := min (-n).toNat src.length
      return .inr (out ++ (← slice src 0 count), ← sliceFrom src count)
    else if src.length = 0 then return .inl out
    else
      let b ← elem src 0
      let run := List.replicate (min (n.toNat + 1) (limit - out.length)) b
      return .inr (out ++ run, ← sliceFrom src 1)
  else return .inl out

def exrRLE (src : Bytes) (limit : ℕ) : Decoder Bytes :=
  loop (exrPacket limit) (src.length + 1) ([], src)

/-- Undo the differences, then put the two halves together again. -/
def exrUnpredict (t : Bytes) (want : ℕ) : Decoder Bytes := do
  failIf (t.length ≠ want) .exrTruncated
  let t ← forRange (t.length - 1) t fun t k => do
    store t (k + 1) ((← elem t k) + (← elem t (k + 1)) - 128)
  let half := (t.length + 1) / 2
  (List.range t.length).mapM fun i =>
    if i % 2 = 0 then elem t (i / 2) else elem t (half + i / 2)

/-- How a channel is stored: its byte planes, the place of the first one in a sample, and the
bytes of a sample. -/
def pxrLayout (kind : ℕ) : ℕ × ℕ × ℕ :=
  if kind = exrHalf then (2, 8, 2) else if kind = exrFloat then (3, 24, 4) else (4, 24, 4)

def littleEndianBytes : ℕ → ℕ → Bytes
  | 0, _ => []
  | n + 1, v => UInt8.ofNat v :: littleEndianBytes n (v / 256)

/-- The samples of one channel in one line. -/
def pxrChannel (tmp : Bytes) (width : ℕ) (layout : ℕ × ℕ × ℕ) (s : Bytes × ℕ) :
    Decoder (Bytes × ℕ) := do
  let planes ← (List.range layout.1).mapM fun i =>
    slice tmp (s.2 + i * width) (s.2 + i * width + width)
  let line ← forRange width (0, s.1) fun t x => do
    let delta ← forRange layout.1 0 fun d i => do
      return d ||| (← elem (← elem planes i) x).toNat <<< (layout.2.1 - 8 * i)
    let pixel := (t.1 + delta) % 2 ^ 32
    return (pixel, t.2 ++ littleEndianBytes layout.2.2 pixel)
  return (line.2, s.2 + layout.1 * width)

namespace EXRHeader

variable (h : EXRHeader)

def pxr24 (inflate : Inflate) (src : Bytes) (width lines : ℕ) : Decoder Bytes := do
  let planes := h.channels.foldl (fun n ch => n + (pxrLayout ch.kind).1) 0
  let size := int64 (planes * width * lines)
  let tmp ← exrInflate inflate src size.toNat
  failIf ((tmp.length : ℤ) ≠ size) .exrTruncated
  let s ← forRange lines ([], 0) fun s _ =>
    h.channels.foldlM (fun s ch => pxrChannel tmp width (pxrLayout ch.kind) s) s
  return s.1

/-- The bytes before a position that may be negative. -/
def sliceTo (src : Bytes) (n : ℤ) : Decoder Bytes :=
  if 0 ≤ n then slice src 0 n.toNat else .error .outOfRange

def uncompress (inflate : Inflate) (src : Bytes) (width lines : ℕ) : Decoder Bytes := do
  let want := int64 (h.lineBytes width * lines)
  failIf (want > exrMaxBlockBytes) .tooLarge
  if (src.length : ℤ) ≥ want ∨ h.compression = 0 then
    failIf ((src.length : ℤ) < want) .exrTruncated
    sliceTo src want
  else if h.compression = 1 then exrUnpredict (← exrRLE src want.toNat) want.toNat
  else if h.compression = 2 ∨ h.compression = 3 then
    exrUnpredict (← exrInflate inflate src want.toNat) want.toNat
  else h.pxr24 inflate src width lines

end EXRHeader

/-! ## Samples -/

section Samples

variable {F : Type} (fl : Floats F)

def halfToFloat (v : ℕ) : F :=
  let sign := v >>> 15 <<< 31
  let exp := v >>> 10 &&& 0x1f
  let mant := v &&& 0x3ff
  if exp = 0 ∧ mant = 0 then fl.float32frombits sign
  else if exp = 0 then
    let m := fl.subnormal mant
    if sign ≠ 0 then fl.neg m else m
  else if exp = 31 then fl.float32frombits (sign ||| 0x7f800000 ||| mant <<< 13)
  else fl.float32frombits (sign ||| (exp + 112) <<< 23 ||| mant <<< 13)

def exrSample (b : Bytes) (kind : ℕ) : Decoder F :=
  if kind = exrHalf then do return halfToFloat fl (← littleEndian 2 b)
  else if kind = exrFloat then do return fl.float32frombits (← littleEndian 4 b)
  else do return fl.ofNat (← littleEndian 4 b)

/-- Write a sample to the slot it feeds, 4 for gray. -/
def putSlot (img : FloatImage F) (i slot : ℕ) (v : F) : Decoder (FloatImage F) :=
  if slot = 4 then do
    let img ← img.put i v
    let img ← img.put (i + 1) v
    img.put (i + 2) v
  else img.put (i + slot) v

namespace EXRHeader

variable (h : EXRHeader)

/-- The samples of a block, line by line and channel by channel. -/
def place (raw : Bytes) (img : FloatImage F) (pick : List (Option ℕ)) (x0 y0 w lines : ℕ) :
    Decoder (FloatImage F) := do
  let s ← forRange lines (0, img) fun s line => do
    let row := (y0 + line) * s.2.width
    forRange h.channels.length s fun s ci => do
      let ch ← elem h.channels ci
      let slot ← elem pick ci
      forRange w s fun s x => do
        match slot with
        | none => return (s.1 + ch.size, s.2)
        | some slot =>
            let v ← exrSample fl (← sliceFrom raw s.1) ch.kind
            let img ← putSlot s.2 ((row + x0 + x) * 4) slot v
            return (s.1 + ch.size, img)
  return s.2

def readBlock (inflate : Inflate) (data : Bytes) (pick : List (Option ℕ)) (img : FloatImage F)
    (b : ℕ) : Decoder (FloatImage F) := do
  let off ← h.offset data b
  failIf (off + 8 > data.length) .exrTruncated
  let y := (← exrInt32 data off) - h.minY
  let size ← littleEndian 4 (← sliceFrom data (off + 4))
  failIf (y < 0 ∨ y ≥ h.height ∨ (size : ℤ) > (data.length : ℤ) - off - 8) .exrTruncated
  let lines := min h.linesPerBlock (h.height - y).toNat
  let src ← slice data (off + 8) (off + 8 + size)
  let raw ← h.uncompress inflate src h.width.toNat lines
  h.place fl raw img pick 0 y.toNat h.width.toNat lines

def readScanlines (inflate : Inflate) (data : Bytes) (img : FloatImage F)
    (pick : List (Option ℕ)) : Decoder (FloatImage F) := do
  forRange (← h.blocks) img fun img b => h.readBlock fl inflate data pick img b

def readTile (inflate : Inflate) (data : Bytes) (pick : List (Option ℕ)) (tilesX tilesY : ℕ)
    (img : FloatImage F) (i : ℕ) : Decoder (FloatImage F) := do
  let off ← h.offset data i
  failIf (off + 20 > data.length) .exrTruncated
  let tx ← exrInt32 data off
  let ty ← exrInt32 data (off + 4)
  let lx ← exrInt32 data (off + 8)
  let ly ← exrInt32 data (off + 12)
  let size ← exrInt32 data (off + 16)
  failIf (lx ≠ 0 ∨ ly ≠ 0 ∨ tx < 0 ∨ ty < 0 ∨ tx ≥ tilesX ∨ ty ≥ tilesY ∨ size < 0 ∨
    size > (data.length : ℤ) - off - 20) .exrTruncated
  let x0 := tx.toNat * h.tileWidth
  let y0 := ty.toNat * h.tileHeight
  let w := min h.tileWidth (h.width.toNat - x0)
  let lines := min h.tileHeight (h.height.toNat - y0)
  let src ← slice data (off + 20) (off + 20 + size.toNat)
  let raw ← h.uncompress inflate src w lines
  h.place fl raw img pick x0 y0 w lines

def readTiles (inflate : Inflate) (data : Bytes) (img : FloatImage F)
    (pick : List (Option ℕ)) : Decoder (FloatImage F) := do
  let tilesX ← h.tilesX
  let tilesY ← h.tilesY
  forRange (tilesX * tilesY) img fun img i =>
    h.readTile fl inflate data pick tilesX tilesY img i

def readPixels (inflate : Inflate) (data : Bytes) (img : FloatImage F)
    (pick : List (Option ℕ)) : Decoder (FloatImage F) :=
  if h.tiled then h.readTiles fl inflate data img pick
  else h.readScanlines fl inflate data img pick

end EXRHeader

/-- The name of a compression in a message. -/
def exrCompressionName (compression : ℤ) : Decoder Bytes :=
  if compression < exrCompressions.length then elem exrCompressions compression.toNat
  else return decimal compression.toNat

/-- An image without colour that nothing shines through. -/
def opaqueBlank (w h : ℕ) : Decoder (FloatImage F) :=
  forRange (w * h) (Raster.blank w h fl.zero) fun img k => img.put (4 * k + 3) fl.one

def decodeEXR (inflate : Inflate) (data : Bytes) : Decoder (Image F) := do
  let h ← parseEXRHeader data
  let name ← exrCompressionName h.compression
  failIf (exrLinesPerBlock h.compression = none)
    (.unsupported (ascii "EXR " ++ name ++ ascii " compression"))
  checkFloatSize h.width h.height
  let (pick, depth) ← h.displayChannels
  h.plausibleSize data.length
  let img ← opaqueBlank fl h.width.toNat h.height.toNat
  let img ← h.readPixels fl inflate data img pick
  Image.ofHDR fl img (ascii "exr") (← elem exrCompressions h.compression.toNat) depth []

end Samples

end Preview

end Nipa
