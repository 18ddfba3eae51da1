import Nipa.Store.Read
import Nipa.Push.Validate

/-!
# The working copy

A client keeps the files of a branch in a directory and remembers what it last
got from the server as a snapshot.  Bringing the directory to another tree
writes the files whose snapshot entry differs from the tree and removes the
files that are gone from it, unless their content is no longer the snapshot's.

The working tree is the map of its regular files.  An operation the file system
refuses, for instance because a directory is in the way, ends the command with
an error; commands that end with an error are not followed further.  Cutting
content into chunks, compressing it and merging it as text are fields of
`Codec`.
-/

namespace Nipa.Client

open Support

/-! ## Files -/

/-- A regular file of the working tree. -/
structure WorkFile where
  content : List UInt8
  perm : ℕ
  deriving DecidableEq

abbrev Disk := GoMap WorkFile

/-- What the client does with content; `fetch` takes a chunk from the local
cache or from the server. -/
structure Codec (H : Type) where
  isBinary : List UInt8 → Bool
  encode : Str → Bool → Str → List UInt8 → Str × List (Chunk H)
  decode : Str → List UInt8 → Except DomainError (List UInt8)
  fetch : H → Except DomainError (List UInt8)
  mergeText : List UInt8 → List UInt8 → List UInt8 → List UInt8 × Bool

/-- A tracked file as the snapshot has it. -/
structure SnapshotFile (H : Type) where
  path : Str
  hash : H
  mode : ℕ
  isBinary : Bool
  encoding : Str
  sizeBytes : ℤ
  chunks : List H
  deriving DecidableEq

structure Snapshot (H : Type) where
  treeHash : Str
  files : GoMap (SnapshotFile H)

def snapshotFile {H : Type} (f : Entry H) : SnapshotFile H where
  path := f.path
  hash := f.hash
  mode := f.mode
  isBinary := f.isBinary
  encoding := f.encoding
  sizeBytes := f.sizeBytes
  chunks := f.chunkHashes

/-- Save a tree as the snapshot, given by its hash and its flattened files. -/
def saveTree {H : Type} (treeHash : Str) (files : GoMap (Entry H)) : Snapshot H where
  treeHash := treeHash
  files := ⟨files.entries.map fun e => ⟨e.1, snapshotFile e.2⟩, by
    rw [List.NodupKeys, List.keys, List.map_map]
    exact files.nodupKeys⟩

theorem saveTree_lookup {H : Type} (treeHash : Str) (files : GoMap (Entry H)) (p : Str) :
    (saveTree treeHash files).files.lookup p = (files.lookup p).map snapshotFile := by
  ext f
  rw [Option.map_eq_some_iff]
  constructor
  · intro h
    obtain ⟨e, he, heq⟩ := List.mem_map.mp (AList.mem_lookup_iff.mp h)
    obtain ⟨rfl, hf⟩ := Sigma.mk.inj heq
    exact ⟨e.2, AList.mem_lookup_iff.mpr he, eq_of_heq hf⟩
  · rintro ⟨e, he, rfl⟩
    exact AList.mem_lookup_iff.mpr
      (List.mem_map.mpr ⟨⟨p, e⟩, AList.mem_lookup_iff.mp he, rfl⟩)

def storedEncoding (encoding : Str) : Str :=
  if encoding = [] then encodingRaw else encoding

def materializedMode : ℕ → ℕ
  | 3 => 0o755
  | 1 => 0o444
  | _ => 0o644

section Content

variable {H : Type}

/-- The content of a file put together from its chunks. -/
def loadFileContent (codec : Codec H) (encoding : Str) (chunkHashes : List H) :
    Except DomainError (List UInt8) := do
  let parts ← chunkHashes.mapM fun h => do
    let data ← codec.fetch h
    codec.decode encoding data
  return parts.flatten

/-- The working file that stands for a tree's file. -/
def materializedFile (codec : Codec H) (f : Entry H) : Except DomainError WorkFile := do
  let content ← loadFileContent codec f.encoding f.chunkHashes
  refuseIf ((content.length : ℤ) ≠ f.sizeBytes)
    (errInternalServer "content length mismatch for %s: got %d want %d"
      [f.path, (toString content.length).toList, (toString f.sizeBytes).toList])
  return ⟨content, materializedMode f.mode⟩

def materializeFile (codec : Codec H) (disk : Disk) (p : Str) (f : Entry H) :
    Except DomainError Disk := do
  let w ← materializedFile codec f
  return disk.insert p w

variable [HashScheme H]

/-- The hash of content at a path under a tracked encoding. -/
def contentHash (codec : Codec H) (p encoding : Str) (content : List UInt8) : H :=
  fileHash ((codec.encode p (codec.isBinary content) (storedEncoding encoding) content).2.map
    Chunk.hash)

variable [DecidableEq H]

/-- Remove a tracked file unless its content is no longer the tracked one; a
file that is gone counts as removed. -/
def guardedRemove (codec : Codec H) (disk : Disk) (p : Str) (base : SnapshotFile H) :
    Disk × Bool :=
  match disk.lookup p with
  | none => (disk, true)
  | some w =>
      if contentHash codec p base.encoding w.content = base.hash then (disk.erase p, true)
      else (disk, false)

/-- Whether the file at a path is missing or has its tracked content. -/
def Removable (codec : Codec H) (disk : Disk) (p : Str) (base : SnapshotFile H) : Prop :=
  ∀ w ∈ disk.lookup p, contentHash codec p base.encoding w.content = base.hash

instance (codec : Codec H) (disk : Disk) (p : Str) (base : SnapshotFile H) :
    Decidable (Removable codec disk p base) :=
  match h : disk.lookup p with
  | none => isTrue (by simp [Removable, h])
  | some w => decidable_of_iff (contentHash codec p base.encoding w.content = base.hash)
      (by simp [Removable, h])

omit [DecidableEq H] in
theorem removable_congr {disk disk' : Disk} {p : Str} (h : disk'.lookup p = disk.lookup p)
    (codec : Codec H) (base : SnapshotFile H) :
    Removable codec disk' p base ↔ Removable codec disk p base := by
  rw [Removable, Removable, h]

theorem guardedRemove_removed (codec : Codec H) (disk : Disk) (p : Str)
    (base : SnapshotFile H) :
    (guardedRemove codec disk p base).2 = true ↔ Removable codec disk p base := by
  rw [guardedRemove, Removable]
  rcases disk.lookup p with _ | w
  · simp
  · simp only [Option.mem_some_iff, forall_eq']
    split
    next hhash => simp [hhash]
    next hhash => simp [hhash]

theorem guardedRemove_lookup (codec : Codec H) (disk : Disk) (p : Str)
    (base : SnapshotFile H) (q : Str) :
    (guardedRemove codec disk p base).1.lookup q =
      if q = p ∧ Removable codec disk p base then none else disk.lookup q := by
  rw [guardedRemove]
  split
  next hnone =>
    split
    next hq => rw [hq.1, hnone]
    · rfl
  next w hsome =>
    have hrem : Removable codec disk p base ↔
        contentHash codec p base.encoding w.content = base.hash := by
      simp [Removable, hsome]
    split
    next hhash =>
      rw [GoMap.lookup_erase_eq]
      simp [hrem, hhash]
    next hhash => simp [hrem, hhash]

/-- Whether the path is tracked and its file missing or with its tracked content. -/
def Deletable (codec : Codec H) (snapshot : Snapshot H) (disk : Disk) (p : Str) : Prop :=
  ∃ base ∈ snapshot.files.lookup p, Removable codec disk p base

instance (codec : Codec H) (snapshot : Snapshot H) (disk : Disk) (p : Str) :
    Decidable (Deletable codec snapshot disk p) :=
  match h : snapshot.files.lookup p with
  | none => isFalse (by simp [Deletable, h])
  | some base => decidable_of_iff (Removable codec disk p base) (by simp [Deletable, h])

omit [DecidableEq H] in
theorem deletable_congr {disk disk' : Disk} {p : Str} (h : disk'.lookup p = disk.lookup p)
    (codec : Codec H) (snapshot : Snapshot H) :
    Deletable codec snapshot disk' p ↔ Deletable codec snapshot disk p := by
  simp only [Deletable, removable_congr h]

/-- Whether the snapshot has a path as a tree has it. -/
def Recorded (snapshot : Snapshot H) (p : Str) (f : Entry H) : Prop :=
  ∃ base ∈ snapshot.files.lookup p, base.hash = f.hash ∧ base.mode = f.mode

instance (snapshot : Snapshot H) (p : Str) (f : Entry H) : Decidable (Recorded snapshot p f) :=
  match h : snapshot.files.lookup p with
  | none => isFalse (by simp [Recorded, h])
  | some base => decidable_of_iff (base.hash = f.hash ∧ base.mode = f.mode)
      (by simp [Recorded, h])

/-- Bring one file of the tree to the disk.  A file that the snapshot has already
and that exists is left as it is. -/
def syncFile (codec : Codec H) (snapshot : Snapshot H) (disk : Disk) (p : Str) (f : Entry H) :
    Except DomainError Disk :=
  if Recorded snapshot p f ∧ (disk.lookup p).isSome then .ok disk
  else materializeFile codec disk p f

def syncWorkingCopy (codec : Codec H) (snapshot : Snapshot H) (disk : Disk)
    (tree : GoMap (Entry H)) : Except DomainError Disk := do
  let disk ← tree.entries.foldlM (fun d e => syncFile codec snapshot d e.1 e.2) disk
  return (snapshot.files.entries.filter fun b => (tree.lookup b.1).isNone).foldl
    (fun d b => (guardedRemove codec d b.1 b.2).1) disk

end Content

/-! ## What the operations do to one path -/

section Effects

variable {H : Type} [HashScheme H] [DecidableEq H] {codec : Codec H} {snapshot : Snapshot H}

omit [HashScheme H] [DecidableEq H] in
theorem materializedFile_content {codec : Codec H} {f : Entry H} {w : WorkFile}
    (h : materializedFile codec f = .ok w) :
    loadFileContent codec f.encoding f.chunkHashes = .ok w.content := by
  rw [materializedFile] at h
  simp only [bind_eq_ok, refuseIf_eq_ok, pure_eq_ok] at h
  obtain ⟨content, hcontent, _, -, rfl⟩ := h
  exact hcontent

variable {disk disk' : Disk}

omit [HashScheme H] [DecidableEq H] in
theorem materializeFile_ok {p : Str} {f : Entry H}
    (h : materializeFile codec disk p f = .ok disk') :
    ∃ w, materializedFile codec f = .ok w ∧
      ∀ q, disk'.lookup q = if q = p then some w else disk.lookup q := by
  rw [materializeFile] at h
  obtain ⟨w, hw, h⟩ := bind_eq_ok.mp h
  obtain rfl := pure_eq_ok.mp h
  exact ⟨w, hw, fun q => GoMap.lookup_insert_eq disk q p w⟩

/-- The disk after one file of the tree. -/
def SyncedAt (codec : Codec H) (snapshot : Snapshot H) (p : Str) (f : Entry H)
    (old new : Option WorkFile) : Prop :=
  if Recorded snapshot p f ∧ old.isSome then new = old
  else ∃ w, materializedFile codec f = .ok w ∧ new = some w

omit [HashScheme H] in
theorem syncFile_ok {p : Str} {f : Entry H} (h : syncFile codec snapshot disk p f = .ok disk') :
    SyncedAt codec snapshot p f (disk.lookup p) (disk'.lookup p) ∧
      ∀ q, q ≠ p → disk'.lookup q = disk.lookup q := by
  rw [syncFile] at h
  split at h
  next hskip =>
    obtain rfl := Except.ok.inj h
    exact ⟨by rw [SyncedAt, if_pos hskip], fun _ _ => rfl⟩
  next hwrite =>
    obtain ⟨w, hw, hlookup⟩ := materializeFile_ok h
    refine ⟨?_, fun q hq => by rw [hlookup, if_neg hq]⟩
    rw [SyncedAt, if_neg hwrite]
    exact ⟨w, hw, by rw [hlookup, if_pos rfl]⟩

omit [HashScheme H] in
theorem foldlM_syncFile_ok {l : List (Sigma fun _ : Str => Entry H)} (hl : l.NodupKeys)
    (h : l.foldlM (fun d e => syncFile codec snapshot d e.1 e.2) disk = .ok disk') :
    (∀ e ∈ l, SyncedAt codec snapshot e.1 e.2 (disk.lookup e.1) (disk'.lookup e.1)) ∧
      ∀ q, q ∉ l.keys → disk'.lookup q = disk.lookup q := by
  refine GoMap.foldlM_entries
    (D := fun e (disk disk' : Disk) =>
      SyncedAt codec snapshot e.1 e.2 (disk.lookup e.1) (disk'.lookup e.1))
    (R := fun q disk disk' => disk'.lookup q = disk.lookup q)
    (fun _ _ => rfl) (fun _ _ _ _ h h' => h'.trans h) ?_ ?_ (fun _ _ _ h => syncFile_ok h) hl h
  · intro e disk mid disk' hsame hdone
    rwa [← hsame]
  · intro e disk mid disk' hdone hsame
    rwa [hsame]

theorem foldl_guardedRemove {l : List (Sigma fun _ : Str => SnapshotFile H)}
    (hl : l.NodupKeys) (disk : Disk) (q : Str) :
    (l.foldl (fun d b => (guardedRemove codec d b.1 b.2).1) disk).lookup q =
      if ∃ b ∈ l, b.1 = q ∧ Removable codec disk q b.2 then none else disk.lookup q := by
  induction l generalizing disk with
  | nil => simp
  | cons b rest ih =>
      rw [List.nodupKeys_cons] at hl
      rw [List.foldl_cons, ih hl.2, guardedRemove_lookup]
      by_cases hq : q = b.1
      · subst hq
        have hnone : ¬ ∃ b' ∈ rest, b'.1 = b.1 ∧
            Removable codec (guardedRemove codec disk b.1 b.2).1 b.1 b'.2 := by
          rintro ⟨b', hb', heq, -⟩
          exact hl.1 (heq ▸ List.mem_keys_of_mem hb')
        rw [if_neg hnone]
        refine if_congr ?_ rfl rfl
        constructor
        · rintro ⟨-, hrem⟩
          exact ⟨b, List.mem_cons_self, rfl, hrem⟩
        · rintro ⟨b', hb', heq, hrem⟩
          rcases List.mem_cons.mp hb' with rfl | hb'
          · exact ⟨rfl, hrem⟩
          · exact absurd (heq ▸ List.mem_keys_of_mem hb') hl.1
      · have hsame : (guardedRemove codec disk b.1 b.2).1.lookup q = disk.lookup q := by
          rw [guardedRemove_lookup, if_neg fun h => hq h.1]
        rw [if_neg fun h : q = b.1 ∧ _ => hq h.1]
        refine if_congr ?_ rfl rfl
        constructor
        · rintro ⟨b', hb', heq, hrem⟩
          exact ⟨b', List.mem_cons_of_mem _ hb', heq, (removable_congr hsame codec b'.2).mp hrem⟩
        · rintro ⟨b', hb', heq, hrem⟩
          rcases List.mem_cons.mp hb' with rfl | hb'
          · exact absurd heq.symm hq
          · exact ⟨b', hb', heq, (removable_congr hsame codec b'.2).mpr hrem⟩

theorem syncWorkingCopy_ok {tree : GoMap (Entry H)}
    (h : syncWorkingCopy codec snapshot disk tree = .ok disk') (p : Str) :
    match tree.lookup p with
    | some f => SyncedAt codec snapshot p f (disk.lookup p) (disk'.lookup p)
    | none => disk'.lookup p =
        if Deletable codec snapshot disk p then none else disk.lookup p := by
  rw [syncWorkingCopy] at h
  obtain ⟨mid, hmid, h⟩ := bind_eq_ok.mp h
  obtain rfl := pure_eq_ok.mp h
  obtain ⟨hsynced, hleft⟩ := foldlM_syncFile_ok tree.nodupKeys hmid
  have hkeys : (snapshot.files.entries.filter fun b =>
      (tree.lookup b.1).isNone).NodupKeys :=
    snapshot.files.nodupKeys.sublist List.filter_sublist
  rw [foldl_guardedRemove hkeys]
  rcases htree : tree.lookup p with _ | f
  · have hmem : p ∉ tree.entries.keys := AList.lookup_eq_none.mp htree
    rw [hleft p hmem]
    refine if_congr ?_ rfl rfl
    constructor
    · rintro ⟨b, hb, rfl, hrem⟩
      obtain ⟨hb, -⟩ := List.mem_filter.mp hb
      refine ⟨b.2, AList.mem_lookup_iff.mpr hb, ?_⟩
      rwa [Removable, hleft b.1 hmem] at hrem
    · rintro ⟨base, hbase, hrem⟩
      refine ⟨⟨p, base⟩, ?_, rfl, ?_⟩
      · rw [List.mem_filter]
        exact ⟨AList.mem_lookup_iff.mp hbase, by simp [htree]⟩
      · rwa [Removable, hleft p hmem]
  · rw [if_neg]
    · exact hsynced ⟨p, f⟩ (AList.mem_lookup_iff.mp htree)
    · rintro ⟨b, hb, rfl, -⟩
      have hnone := (List.mem_filter.mp hb).2
      rw [htree] at hnone
      simp at hnone

end Effects

end Nipa.Client
