import Nipa.Chunker.Boundaries
import Nipa.Push.Validate

/-!
# Encoding content for storage

Text is compressed, as one chunk where that stays small and chunk by chunk where
it does not; binary content is stored as it is, cut with sizes that depend on
the kind of file.  The compressor is a parameter.
-/

namespace Nipa

namespace Chunker

open Support

/-! ## Profiles -/

def textSingleBlobRawMax : ℕ := 8 <<< 20

def textSingleBlobMax : ℕ := 4 <<< 20

def textLargeConfig : Config :=
  ⟨(64 : Int64) <<< 10, (256 : Int64) <<< 10, (1 : Int64) <<< 20⟩

def defaultBinaryConfig : Config :=
  ⟨(256 : Int64) <<< 10, (1 : Int64) <<< 20, (4 : Int64) <<< 20⟩

def packedAssetConfig : Config :=
  ⟨(1 : Int64) <<< 20, (4 : Int64) <<< 20, (16 : Int64) <<< 20⟩

/-- The sizes a file is cut with. -/
def configForFile (path : Str) (isBinary : Bool) : Config :=
  if isBinary = false then defaultConfig
  else
    let e := toLower (ext path)
    if editableBinaryExtensions.any (fun x => x.toList = e) then defaultConfig
    else if packedAssetExtensions.any (fun x => x.toList = e) then packedAssetConfig
    else defaultBinaryConfig

/-! ## Encoding -/

/-- The compressor; `decodeAll` appends what it decodes to its second argument. -/
structure Zstd where
  encodeAll : List UInt8 → List UInt8
  decodeAll : List UInt8 → List UInt8 → Except DomainError (List UInt8)

/-- Decoding inverts encoding, and frames that follow each other are decoded one
after the other. -/
def Zstd.Inverts (z : Zstd) : Prop :=
  ∀ (contents : List (List UInt8)) (dst : List UInt8),
    z.decodeAll (contents.flatMap z.encodeAll) dst = .ok (dst ++ contents.flatten)

/-- A stored object; its hash and size are those of the stored bytes. -/
structure EncodedChunk (H : Type) where
  hash : H
  data : List UInt8
  sizeBytes : ℕ
  rawSize : ℕ

def defaultEncoding (isBinary : Bool) : Str :=
  if isBinary then encodingRaw else encodingZstd

/-- The bytes up to a limit, and whether the content ended there. -/
def readUpTo (r : Reader) (limit : ℕ) : List UInt8 × Bool :=
  let raw := r.rest.take (limit + 1)
  if raw.length > limit then (raw.take limit, false) else (raw, true)

section Encode

variable {H : Type} [HashScheme H] (z : Zstd)

def storedRaw (c : Chunk H) : EncodedChunk H :=
  ⟨c.hash, c.data, c.data.length, c.data.length⟩

def storedCompressed (raw : List UInt8) : EncodedChunk H :=
  let compressed := z.encodeAll raw
  ⟨HashScheme.sum compressed, compressed, compressed.length, raw.length⟩

def scanChunks (r : Reader) (cfg : Config) : Except String (List (EncodedChunk H)) := do
  let chunks ← scan r cfg
  return chunks.map storedRaw

/-- Encode text; where it is not stored as one chunk the reader is set back to
its start. -/
def encodeText (r : Reader) : Except String (List (EncodedChunk H)) :=
  let (raw, complete) := readUpTo r textSingleBlobRawMax
  if raw = [] then .ok []
  else if complete ∧ (z.encodeAll raw).length ≤ textSingleBlobMax then
    .ok [storedCompressed z raw]
  else do
    let chunks : List (Chunk H) ← scan r textLargeConfig
    return chunks.map fun c => storedCompressed z c.data

/-- The encoding used and the chunks, in order. -/
def encode (r : Reader) (path : Str) (isBinary : Bool) (encoding : Str) :
    Except String (Str × List (EncodedChunk H)) :=
  let encoding := if encoding = [] then defaultEncoding isBinary else encoding
  if encoding ≠ encodingZstd ∨ isBinary then do
    let chunks ← scanChunks r (configForFile path isBinary)
    return (encodingRaw, chunks)
  else do
    let chunks ← encodeText z r
    return (encodingZstd, chunks)

/-- `bytes.NewReader(data)`: a read returns as much as fits. -/
def newReader (data : List UInt8) : Reader :=
  ⟨data, fun _ => data.length + 1, fun _ => false, 0⟩

def encodeBytes (data : List UInt8) (path : Str) (isBinary : Bool) (encoding : Str) :
    Except String (Str × List (EncodedChunk H)) :=
  encode z (newReader data) path isBinary encoding

end Encode

/-! ## Decoding -/

/-- `fmt.Errorf` around an error. -/
def wrapError (format : String) (args : List Str) (e : DomainError) : DomainError :=
  { e with format := format ++ e.format, args := args ++ e.args }

section Decode

variable {H : Type} [HashScheme H] (z : Zstd)

/-- Append the plaintext of a stored chunk to `dst`. -/
def decodeAppend (dst : List UInt8) (encoding : Str) (data : List UInt8) :
    Except DomainError (List UInt8) :=
  if encoding ≠ encodingZstd then .ok (dst ++ data)
  else (z.decodeAll data dst).mapError (wrapError "decode zstd chunk: " [])

def decode (encoding : Str) (data : List UInt8) : Except DomainError (List UInt8) :=
  if encoding ≠ encodingZstd then .ok data else decodeAppend z [] encoding data

/-- The content of a diff's entry, put together from its cached chunks. -/
def loadContent (loadChunk : H → Except DomainError (List UInt8)) (path : Str)
    (encoding : Str) (chunkHashes : List H) : Except DomainError (List UInt8) :=
  chunkHashes.foldlM (fun out h => do
    let data ← (loadChunk h).mapError
      (wrapError "load chunk %s for %s: " [hashString h, path])
    (decodeAppend z out encoding data).mapError
      (wrapError "decode chunk %s for %s: " [hashString h, path])) []

end Decode

end Chunker

end Nipa
