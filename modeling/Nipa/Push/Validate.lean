import Nipa.Push.Paths
import Nipa.Support.Checks

/-!
# Checks on a push request

What the server does with the files and removals of a request before it looks
at any branch: the binary flag of known asset extensions is forced on, paths
are validated one by one, and encodings are normalised.  Duplicates are
detected on the path exactly as it was sent.
-/

namespace Nipa

open Support

/-! ## Asset extensions -/

/-- Lower case of a character, as far as an ASCII table can tell: two
characters outside ASCII have an ASCII letter as their lower case. -/
def toLowerChar (c : Char) : Char :=
  if c = Char.ofNat 0x212A then 'k'
  else if c = Char.ofNat 0x130 then 'i'
  else c.toLower

def toLower (s : Str) : Str :=
  s.map toLowerChar

/-- The extension of the last path element, with its dot. -/
def ext (path : Str) : Str :=
  let base := afterLast '/' path
  if '.' ∈ base then '.' :: afterLast '.' base else []

def editableBinaryExtensions : List String :=
  [".blend", ".blend1", ".psd", ".psb", ".mb", ".max", ".kra", ".sqlite",
    ".sqlite3", ".db"]

def packedAssetExtensions : List String :=
  [".png", ".jpg", ".jpeg", ".gif", ".webp", ".tga", ".bmp", ".tif", ".tiff",
    ".dds", ".ktx", ".ktx2", ".exr", ".hdr", ".wav", ".ogg", ".mp3", ".flac",
    ".aiff", ".wem", ".bnk", ".mp4", ".mov", ".avi", ".webm", ".mkv", ".fbx",
    ".glb", ".usd", ".usdc", ".usdz", ".pak", ".zip", ".7z", ".rar", ".gz",
    ".unitypackage"]

def isLockablePath (path : Str) : Bool :=
  let e := toLower (ext path)
  editableBinaryExtensions.any (fun x => x.toList = e) ||
    packedAssetExtensions.any (fun x => x.toList = e)

def encodingRaw : Str := "raw".toList

def encodingZstd : Str := "zstd".toList

def normalizeEncoding (encoding : Str) : Option Str :=
  if encoding = [] then some encodingRaw
  else if encoding = encodingRaw ∨ encoding = encodingZstd then some encoding
  else none

section Files

variable {H : Type}

/-- The flag may only be added: a text flag on an asset extension is overruled. -/
def markLockableBinaries (files : List (PushFile H)) : List (PushFile H) :=
  files.map fun f => if isLockablePath f.path then { f with isBinary := true } else f

/-! ## Validation -/

/-- The validation loop after the paths in `seen`; the files come back with
their encodings normalised. -/
def validatePushFilesFrom (seen : List Str) :
    List (PushFile H) → Except DomainError (List (PushFile H))
  | [] => .ok []
  | f :: rest => do
      validateRepoPath f.path
      refuseIf (f.path ∈ seen) (errUser "duplicate file path %q" [f.path])
      refuseIf (f.sizeBytes < 0)
        (errUser "invalid size %d for %q" [(toString f.sizeBytes).toList, f.path])
      refuseIf (f.sizeBytes = 0 ∧ f.chunkHashes ≠ [])
        (errUser "file %q has chunks but zero size" [f.path])
      refuseIf (f.sizeBytes > 0 ∧ f.chunkHashes = [])
        (errUser "file %q has no chunks" [f.path])
      let encoding ← orError (normalizeEncoding f.encoding)
        (errUser "invalid encoding %q for %q" [f.encoding, f.path])
      let rest' ← validatePushFilesFrom (f.path :: seen) rest
      return { f with encoding := encoding } :: rest'

def validatePushFiles (files : List (PushFile H)) :
    Except DomainError (List (PushFile H)) :=
  validatePushFilesFrom [] files

def validateRemovedFilesFrom (changed seen : List Str) :
    List Str → Except DomainError Unit
  | [] => .ok ()
  | r :: rest => do
      validateRepoPath r
      refuseIf (r ∈ changed) (errUser "path %q is both pushed and removed" [r])
      refuseIf (r ∈ seen) (errUser "duplicate removed path %q" [r])
      validateRemovedFilesFrom changed (r :: seen) rest

def validateRemovedFiles (removed : List Str) (files : List (PushFile H)) :
    Except DomainError Unit :=
  validateRemovedFilesFrom (files.map PushFile.path) [] removed

/-- Each file's hash must be the hash of its chunk list. -/
def checkFileHashes [DecidableEq H] [HashScheme H] :
    List (PushFile H) → Except DomainError Unit
  | [] => .ok ()
  | f :: rest => do
      refuseIf (fileHash f.chunkHashes ≠ f.fileHash)
        (errUser "file hash mismatch for %q" [f.path])
      checkFileHashes rest

/-! ## What the checks guarantee -/

/-- The normalised form of one accepted file. -/
def normalizeFile (f : PushFile H) : PushFile H :=
  { f with encoding := (normalizeEncoding f.encoding).getD [] }

/-- What the loop guarantees of one accepted file. -/
structure FileAccepted (f : PushFile H) : Prop where
  path_ok : validateRepoPath f.path = .ok ()
  size_nonneg : 0 ≤ f.sizeBytes
  size_iff : f.sizeBytes = 0 ↔ f.chunkHashes = []
  encoding_ok : (normalizeEncoding f.encoding).isSome

theorem validatePushFilesFrom_ok {seen : List Str} {files out : List (PushFile H)}
    (h : validatePushFilesFrom seen files = .ok out) :
    out = files.map normalizeFile ∧ (∀ f ∈ files, FileAccepted f) ∧
      (files.map PushFile.path).Nodup ∧ ∀ f ∈ files, f.path ∉ seen := by
  induction files generalizing seen out with
  | nil =>
      obtain rfl := Except.ok.inj h
      simp
  | cons f rest ih =>
      rw [validatePushFilesFrom] at h
      simp only [bind_eq_ok, refuseIf_eq_ok, orError_eq_ok, pure_eq_ok] at h
      obtain ⟨_, hpath, _, hseen, _, hneg, _, hzero, _, hpos, enc, henc, rest', hrest,
        rfl⟩ := h
      obtain ⟨rfl, hall, hnodup, hnew⟩ := ih hrest
      have hf : FileAccepted f := by
        refine ⟨hpath, by omega, ?_, by rw [henc]; rfl⟩
        by_cases hc : f.chunkHashes = []
        · simp only [hc, and_true] at hpos
          simp only [hc, iff_true]
          omega
        · simp only [hc, iff_false]
          intro h0
          exact hzero ⟨h0, hc⟩
      refine ⟨?_, ?_, ?_, ?_⟩
      · rw [List.map_cons, normalizeFile, henc]
        rfl
      · intro g hg
        rcases List.mem_cons.mp hg with rfl | hg
        · exact hf
        · exact hall g hg
      · rw [List.map_cons, List.nodup_cons]
        refine ⟨?_, hnodup⟩
        intro hmem
        obtain ⟨g, hg, heq⟩ := List.mem_map.mp hmem
        exact hnew g hg (by simp [heq])
      · intro g hg
        rcases List.mem_cons.mp hg with rfl | hg
        · exact hseen
        · intro hmem
          exact hnew g hg (by simp [hmem])

theorem validatePushFiles_ok {files out : List (PushFile H)}
    (h : validatePushFiles files = .ok out) :
    out = files.map normalizeFile ∧ (∀ f ∈ files, FileAccepted f) ∧
      (files.map PushFile.path).Nodup := by
  obtain ⟨hout, hall, hnodup, -⟩ := validatePushFilesFrom_ok h
  exact ⟨hout, hall, hnodup⟩

theorem validateRemovedFilesFrom_ok {changed seen removed : List Str}
    (h : validateRemovedFilesFrom changed seen removed = .ok ()) :
    (∀ r ∈ removed, validateRepoPath r = .ok () ∧ r ∉ changed ∧ r ∉ seen) ∧
      removed.Nodup := by
  induction removed generalizing seen with
  | nil => simp
  | cons r rest ih =>
      rw [validateRemovedFilesFrom] at h
      simp only [bind_eq_ok, refuseIf_eq_ok] at h
      obtain ⟨_, hpath, _, hch, _, hseen, hrest⟩ := h
      obtain ⟨hall, hnodup⟩ := ih hrest
      constructor
      · intro x hx
        rcases List.mem_cons.mp hx with rfl | hx
        · exact ⟨hpath, hch, hseen⟩
        · obtain ⟨h1, h2, h3⟩ := hall x hx
          exact ⟨h1, h2, fun hmem => h3 (by simp [hmem])⟩
      · rw [List.nodup_cons]
        refine ⟨?_, hnodup⟩
        intro hmem
        exact (hall r hmem).2.2 (by simp)

theorem validateRemovedFiles_ok {removed : List Str} {files : List (PushFile H)}
    (h : validateRemovedFiles removed files = .ok ()) :
    (∀ r ∈ removed, validateRepoPath r = .ok () ∧ ∀ f ∈ files, f.path ≠ r) ∧
      removed.Nodup := by
  obtain ⟨hall, hnodup⟩ := validateRemovedFilesFrom_ok h
  refine ⟨?_, hnodup⟩
  intro r hr
  obtain ⟨hpath, hch, -⟩ := hall r hr
  refine ⟨hpath, ?_⟩
  rintro f hf rfl
  exact hch (List.mem_map_of_mem hf)

theorem checkFileHashes_ok [DecidableEq H] [HashScheme H] {files : List (PushFile H)}
    (h : checkFileHashes files = .ok ()) :
    ∀ f ∈ files, fileHash f.chunkHashes = f.fileHash := by
  induction files with
  | nil => simp
  | cons f rest ih =>
      rw [checkFileHashes] at h
      simp only [bind_eq_ok, refuseIf_eq_ok, not_not] at h
      obtain ⟨_, hf, hrest⟩ := h
      intro g hg
      rcases List.mem_cons.mp hg with rfl | hg
      · exact hf
      · exact ih hrest g hg

end Files

end Nipa
