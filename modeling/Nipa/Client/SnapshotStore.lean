import Nipa.TreeHash
import Nipa.Support.TableSync

/-!
# The stored snapshot

The client keeps the tree it last got from the server in two tables, one row for
a directory and one for a file, next to the hash of the tree and a cache of file
stats.  `SaveTree` writes only the rows that differ from the stored ones, and
drops the stat rows of paths that are gone; `Snapshot` reads the files back.

Hashes are 32 bytes, and text columns compare as their characters do.  A save is
one transaction; a statement that the database refuses makes it fail, which the
foreign key of the files table is the only reason for here.  The order in which
a map is ranged over is a parameter of every save.  Tables that no save reads or
writes are left out.
-/

namespace Nipa.LocalRepo

open Support

/-! ## Trees -/

def hashSize : ℕ := 32

abbrev Hash := { b : List UInt8 // b.length = hashSize }

def Hash.text (h : Hash) : Str :=
  h.val.flatMap hexByte

/-- A file of a tree; its chunks are given by their hashes. -/
structure File where
  hash : Hash
  name : Str
  mode : ℤ
  sizeBytes : ℤ
  isBinary : Bool
  encoding : Str
  chunks : List Hash
  deriving DecidableEq

inductive TreeNode where
  | mk (hash : Hash) (name : Str) (mode : ℤ) (treeChildren : List TreeNode)
      (fileChildren : List File)

namespace TreeNode

def hash : TreeNode → Hash
  | mk hash .. => hash

def name : TreeNode → Str
  | mk _ name .. => name

end TreeNode

/-! ## Rows -/

structure NodeRow where
  parentPath : Str
  hash : List UInt8
  mode : ℤ
  snapshotID : Str
  deriving DecidableEq

structure FileRow where
  treePath : Str
  hash : List UInt8
  sizeBytes : ℤ
  mode : ℤ
  isBinary : Bool
  encoding : Str
  chunks : List UInt8
  snapshotID : Str
  deriving DecidableEq

structure StatRow where
  sizeBytes : ℤ
  mtimeNS : ℤ
  mode : ℤ
  hash : List UInt8
  cachedAt : ℤ
  deriving DecidableEq

/-- Tables under their primary keys. -/
structure Store where
  treeNodes : GoMap NodeRow
  files : GoMap FileRow
  metaRows : GoMap Str
  statCache : GoMap StatRow

def Store.empty : Store where
  treeNodes := ∅
  files := ∅
  metaRows := ∅
  statCache := ∅

def encodeChunkHashes (hashes : List Hash) : List UInt8 :=
  hashes.flatMap Subtype.val

/-- The first bytes, filled up with zeros. -/
def hashFromBytes (b : List UInt8) : Hash :=
  ⟨(b ++ List.replicate hashSize 0).take hashSize, by simp [hashSize]⟩

def decodeHashes : ℕ → List UInt8 → List Hash
  | 0, _ => []
  | n + 1, data => hashFromBytes (data.take hashSize) :: decodeHashes n (data.drop hashSize)

def decodeChunkHashes (data : List UInt8) : Except Str (List Hash) :=
  if data = [] then .ok []
  else if data.length % hashSize ≠ 0 then
    .error ("invalid local chunk hash data (length ".toList ++
      (toString data.length).toList ++ ")".toList)
  else .ok (decodeHashes (data.length / hashSize) data)

/-! ## Flattening -/

def fileRow (token path : Str) (file : File) : Str × FileRow :=
  (path ++ '/' :: file.name,
    { treePath := path
      hash := file.hash.val
      sizeBytes := file.sizeBytes
      mode := file.mode
      isBinary := file.isBinary
      encoding := file.encoding
      chunks := encodeChunkHashes file.chunks
      snapshotID := token })

mutual

/-- The rows of a directory, its files and everything below it. -/
def walk (token : Str) : TreeNode → Str → Str → List (Str × NodeRow) × List (Str × FileRow)
  | .mk hash _ mode treeChildren fileChildren, parentPath, path =>
      let below := walkAll token treeChildren path
      ((path, { parentPath, hash := hash.val, mode, snapshotID := token }) :: below.1,
        fileChildren.map (fileRow token path) ++ below.2)

def walkAll (token : Str) :
    List TreeNode → Str → List (Str × NodeRow) × List (Str × FileRow)
  | [], _ => ([], [])
  | child :: rest, path =>
      let first := walk token child path (path ++ '/' :: child.name)
      let others := walkAll token rest path
      (first.1 ++ others.1, first.2 ++ others.2)

end

def flattenTree (root : Option TreeNode) (token : Str) :
    List (Str × NodeRow) × List (Str × FileRow) :=
  match root with
  | none => ([], [])
  | some root => walk token root [] []

/-! ## Statements -/

namespace Store

def metaSet (s : Store) (key value : Str) : Store :=
  { s with metaRows := s.metaRows.insert key value }

def treeNodeUpsert (s : Store) (row : Str × NodeRow) : Store :=
  { s with treeNodes := s.treeNodes.insert row.1 row.2 }

/-- A file row refers to the row of its directory. -/
def fileUpsert (s : Store) (row : Str × FileRow) : Option Store :=
  if (s.treeNodes.lookup row.2.treePath).isSome then
    some { s with files := s.files.insert row.1 row.2 }
  else none

def fileDelete (s : Store) (path : Str) : Store :=
  { s with files := s.files.erase path }

/-- Deleting a directory's row deletes the rows that refer to it. -/
def treeNodeDelete (s : Store) (path : Str) : Store :=
  { s with
    treeNodes := s.treeNodes.erase path
    files := s.files.filter fun _ f => f.treePath ≠ path }

def statCacheUpsert (s : Store) (row : Str × StatRow) : Store :=
  { s with statCache := s.statCache.insert row.1 row.2 }

end Store

/-- `ltrim(s, '/')`. -/
def ltrimSlashes (s : Str) : Str :=
  s.dropWhile (· = '/')

def Store.statCacheSweep (s : Store) : Store :=
  { s with
    statCache := s.statCache.filter fun path _ =>
      path ∈ s.files.keys.map ltrimSlashes }

/-! ## Saving a tree -/

def sameNode (stored want : NodeRow) : Bool :=
  stored.parentPath = want.parentPath && stored.mode = want.mode && stored.hash = want.hash

def sameFile (stored want : FileRow) : Bool :=
  stored.treePath = want.treePath && stored.sizeBytes = want.sizeBytes &&
    stored.mode = want.mode && stored.isBinary = want.isBinary &&
    stored.encoding = want.encoding && stored.hash = want.hash && stored.chunks = want.chunks

/-- The order in which a loop ranges over the keys of a map. -/
structure RangeOrder where
  order : List Str → List Str
  perm : ∀ l, (order l).Perm l

/-- One turn of the loop over the wanted directories. -/
def syncNode (s : GoMap NodeRow × Store) (want : Str × NodeRow) : GoMap NodeRow × Store :=
  (s.1.erase want.1,
    if (s.1.lookup want.1).any (sameNode · want.2) then s.2 else s.2.treeNodeUpsert want)

/-- One turn of the loop over the wanted files. -/
def syncFile (s : GoMap FileRow × Store) (want : Str × FileRow) :
    Option (GoMap FileRow × Store) :=
  if (s.1.lookup want.1).any (sameFile · want.2) then some (s.1.erase want.1, s.2)
  else (s.2.fileUpsert want).map fun s' => (s.1.erase want.1, s')

def syncRows (s : Store) (nodes : List (Str × NodeRow)) (files : List (Str × FileRow))
    (ofFiles ofNodes : RangeOrder) : Option Store := do
  let (nodeByPath, s') := nodes.foldl syncNode (s.treeNodes, s)
  let (fileByPath, s'') ← files.foldlM syncFile (s.files, s')
  let s₃ := (ofFiles.order fileByPath.keys).foldl Store.fileDelete s''
  return (ofNodes.order nodeByPath.keys).foldl Store.treeNodeDelete s₃

def treeHashKey : Str :=
  "tree_hash".toList

def tokenOf (root : Option TreeNode) : Str :=
  match root with
  | none => []
  | some root => root.hash.text

def saveTree (s : Store) (root : Option TreeNode) (ofFiles ofNodes : RangeOrder) :
    Option Store := do
  let token := tokenOf root
  let rows := flattenTree root token
  let s' ← syncRows (s.metaSet treeHashKey token) rows.1 rows.2 ofFiles ofNodes
  return s'.statCacheSweep

/-- The entries come in the order in which their map is ranged over. -/
def saveStatEntries (s : Store) (entries : List (Str × StatRow)) : Store :=
  entries.foldl Store.statCacheUpsert s

/-! ## Reading the snapshot -/

structure SnapshotFile where
  path : Str
  hash : Hash
  mode : ℤ
  isBinary : Bool
  encoding : Str
  sizeBytes : ℤ
  chunks : List Hash
  deriving DecidableEq

structure Snapshot where
  treeHash : Str
  files : List SnapshotFile
  deriving DecidableEq

def stripRoot (path : Str) : Str :=
  trimPrefix path ['/']

def readFile (row : Str × FileRow) : Except Str SnapshotFile := do
  let chunks ← decodeChunkHashes row.2.chunks
  return {
    path := stripRoot row.1
    hash := hashFromBytes row.2.hash
    mode := row.2.mode
    isBinary := row.2.isBinary
    encoding := row.2.encoding
    sizeBytes := row.2.sizeBytes
    chunks }

def Store.snapshot (s : Store) : Except Str Snapshot := do
  let files ← s.files.sorted.mapM readFile
  return { treeHash := (s.metaRows.lookup treeHashKey).getD [], files }

/-! ## What a saved tree reads as -/

mutual

/-- The files of a tree under their stored paths, with the paths of their directories. -/
def filesBelow : TreeNode → Str → List (Str × Str × File)
  | .mk _ _ _ treeChildren fileChildren, path =>
      fileChildren.map (fun file => (path ++ '/' :: file.name, path, file)) ++
        filesBelowAll treeChildren path

def filesBelowAll : List TreeNode → Str → List (Str × Str × File)
  | [], _ => []
  | child :: rest, path =>
      filesBelow child (path ++ '/' :: child.name) ++ filesBelowAll rest path

end

def treeFiles : Option TreeNode → List (Str × Str × File)
  | none => []
  | some root => filesBelow root []

def snapshotFileOf (row : Str × Str × File) : SnapshotFile where
  path := stripRoot row.1
  hash := row.2.2.hash
  mode := row.2.2.mode
  isBinary := row.2.2.isBinary
  encoding := row.2.2.encoding
  sizeBytes := row.2.2.sizeBytes
  chunks := row.2.2.chunks

/-- The snapshot a tree stands for: its files in the order of their paths, the last
file of a path counting. -/
def snapshotOf (root : Option TreeNode) : Snapshot where
  treeHash := tokenOf root
  files := (GoMap.ofRows (treeFiles root)).sorted.map snapshotFileOf

mutual

theorem walk_files (token : Str) : ∀ (node : TreeNode) (parentPath path : Str),
    (walk token node parentPath path).2 =
      (filesBelow node path).map fun row => (row.1, (fileRow token row.2.1 row.2.2).2)
  | .mk hash name mode treeChildren fileChildren, parentPath, path => by
      rw [walk, filesBelow, List.map_append, walkAll_files token treeChildren path]
      simp [fileRow]

theorem walkAll_files (token : Str) : ∀ (nodes : List TreeNode) (path : Str),
    (walkAll token nodes path).2 =
      (filesBelowAll nodes path).map fun row => (row.1, (fileRow token row.2.1 row.2.2).2)
  | [], path => by simp [walkAll, filesBelowAll]
  | child :: rest, path => by
      rw [walkAll, filesBelowAll, List.map_append, ← walkAll_files token rest path,
        ← walk_files token child path (path ++ '/' :: child.name)]

end

theorem flattenTree_files (root : Option TreeNode) (token : Str) :
    (flattenTree root token).2 =
      (treeFiles root).map fun row => (row.1, (fileRow token row.2.1 row.2.2).2) := by
  cases root with
  | none => rfl
  | some root => exact walk_files token root [] []

mutual

theorem walk_treePath (token : Str) : ∀ (node : TreeNode) (parentPath path : Str),
    path ∈ (walk token node parentPath path).1.map Prod.fst ∧
      ∀ f ∈ (walk token node parentPath path).2,
        f.2.treePath ∈ (walk token node parentPath path).1.map Prod.fst
  | .mk hash name mode treeChildren fileChildren, parentPath, path => by
      rw [walk]
      refine ⟨by simp, fun f hf => ?_⟩
      rcases List.mem_append.mp hf with hf | hf
      · obtain ⟨file, -, rfl⟩ := List.mem_map.mp hf
        simp [fileRow]
      · exact List.mem_cons_of_mem _ (walkAll_treePath token treeChildren path f hf)

theorem walkAll_treePath (token : Str) : ∀ (nodes : List TreeNode) (path : Str),
    ∀ f ∈ (walkAll token nodes path).2,
      f.2.treePath ∈ (walkAll token nodes path).1.map Prod.fst
  | [], path => by simp [walkAll]
  | child :: rest, path => by
      intro f hf
      rw [walkAll] at hf ⊢
      rw [List.map_append, List.mem_append]
      rcases List.mem_append.mp hf with hf | hf
      · exact Or.inl ((walk_treePath token child path (path ++ '/' :: child.name)).2 f hf)
      · exact Or.inr (walkAll_treePath token rest path f hf)

end

theorem flattenTree_treePath (root : Option TreeNode) (token : Str) :
    ∀ f ∈ (flattenTree root token).2,
      f.2.treePath ∈ (flattenTree root token).1.map Prod.fst := by
  cases root with
  | none => intro f hf; cases hf
  | some root => exact (walk_treePath token root [] []).2

/-! ## Bytes -/

theorem hashFromBytes_val (h : Hash) (rest : List UInt8) :
    hashFromBytes ((h.val ++ rest).take hashSize) = h := by
  apply Subtype.ext
  simp [hashFromBytes, List.take_append_of_le_length h.property.ge, h.property]

theorem decodeHashes_encode (hashes : List Hash) :
    decodeHashes hashes.length (encodeChunkHashes hashes) = hashes := by
  induction hashes with
  | nil => rfl
  | cons h hashes ih =>
      have hcons : encodeChunkHashes (h :: hashes) = h.val ++ encodeChunkHashes hashes := rfl
      rw [hcons, List.length_cons, decodeHashes, hashFromBytes_val]
      congr 1
      rw [List.drop_append_of_le_length h.property.ge, List.drop_of_length_le h.property.le,
        List.nil_append, ih]

theorem length_encode (hashes : List Hash) :
    (encodeChunkHashes hashes).length = hashes.length * hashSize := by
  induction hashes with
  | nil => simp [encodeChunkHashes]
  | cons h hashes ih =>
      have hcons : encodeChunkHashes (h :: hashes) = h.val ++ encodeChunkHashes hashes := rfl
      rw [hcons, List.length_append, h.property, ih, List.length_cons, Nat.succ_mul, Nat.add_comm]

theorem decodeChunkHashes_encode (hashes : List Hash) :
    decodeChunkHashes (encodeChunkHashes hashes) = .ok hashes := by
  unfold decodeChunkHashes
  have hlength := length_encode hashes
  split
  · rename_i hnil
    rw [hnil] at hlength
    have hzero : hashes.length = 0 := by
      simp only [List.length_nil, hashSize] at hlength
      omega
    rw [List.length_eq_zero_iff.mp hzero]
  · rw [if_neg (by rw [hlength]; simp), hlength,
      Nat.mul_div_cancel _ (show 0 < hashSize by decide), decodeHashes_encode]

/-! ## What a save leaves -/

theorem sameNode_iff {a b : NodeRow} : sameNode a b = true ↔
    a.parentPath = b.parentPath ∧ a.mode = b.mode ∧ a.hash = b.hash := by
  simp [sameNode, and_assoc]

theorem sameFile_iff {a b : FileRow} : sameFile a b = true ↔
    a.treePath = b.treePath ∧ a.sizeBytes = b.sizeBytes ∧ a.mode = b.mode ∧
      a.isBinary = b.isBinary ∧ a.encoding = b.encoding ∧ a.hash = b.hash ∧
      a.chunks = b.chunks := by
  simp [sameFile, and_assoc]

theorem foldl_syncNode (nodes : List (Str × NodeRow)) (rest : GoMap NodeRow) (s : Store) :
    nodes.foldl syncNode (rest, s) =
      ((nodes.foldl (GoMap.syncRow sameNode) (rest, s.treeNodes)).1,
        { s with
          treeNodes := (nodes.foldl (GoMap.syncRow sameNode) (rest, s.treeNodes)).2 }) := by
  induction nodes generalizing rest s with
  | nil => rfl
  | cons want nodes ih =>
      rw [List.foldl_cons, List.foldl_cons, syncNode, ih]
      dsimp only [GoMap.syncRow]
      split <;> rfl

theorem foldlM_syncFile (files : List (Str × FileRow)) (rest : GoMap FileRow) (s : Store)
    (hrefs : ∀ f ∈ files, (s.treeNodes.lookup f.2.treePath).isSome) :
    files.foldlM syncFile (rest, s) =
      some ((files.foldl (GoMap.syncRow sameFile) (rest, s.files)).1,
        { s with files := (files.foldl (GoMap.syncRow sameFile) (rest, s.files)).2 }) := by
  induction files generalizing rest s with
  | nil => rfl
  | cons want files ih =>
      rw [List.forall_mem_cons] at hrefs
      rw [List.foldlM_cons, List.foldl_cons, syncFile]
      dsimp only [GoMap.syncRow]
      split
      · exact ih (rest.erase want.1) s hrefs.2
      · rw [Store.fileUpsert, if_pos hrefs.1]
        exact ih (rest.erase want.1) { s with files := s.files.insert want.1 want.2 } hrefs.2

theorem foldl_fileDelete (paths : List Str) (s : Store) :
    paths.foldl Store.fileDelete s =
      { s with files := paths.foldl (fun m k => m.erase k) s.files } := by
  induction paths generalizing s with
  | nil => rfl
  | cons path paths ih =>
      rw [List.foldl_cons, List.foldl_cons, ih]
      rfl

theorem foldl_treeNodeDelete (paths : List Str) (s : Store) :
    let s' := paths.foldl Store.treeNodeDelete s
    s'.treeNodes = paths.foldl (fun m k => m.erase k) s.treeNodes ∧
      s'.metaRows = s.metaRows ∧ s'.statCache = s.statCache ∧
      ∀ k, s'.files.lookup k =
        (s.files.lookup k).filter fun f => decide (f.treePath ∉ paths) := by
  induction paths generalizing s with
  | nil =>
      refine ⟨rfl, rfl, rfl, fun k => ?_⟩
      rcases hfile : s.files.lookup k with _ | f <;> simp [hfile, Option.filter]
  | cons path paths ih =>
      obtain ⟨hnodes, hmeta, hstat, hfiles⟩ := ih (s.treeNodeDelete path)
      refine ⟨hnodes, hmeta, hstat, fun k => ?_⟩
      rw [List.foldl_cons, hfiles]
      simp only [Store.treeNodeDelete, GoMap.lookup_filter, Option.filter_filter]
      congr 1
      ext f
      simp [not_or]

/-- The tables hold a tree. -/
structure Holds (s : Store) (root : Option TreeNode) : Prop where
  nodes : ∀ k, Option.Rel (fun v w => sameNode v w = true) (s.treeNodes.lookup k)
    ((GoMap.ofRows (flattenTree root (tokenOf root)).1).lookup k)
  files : ∀ k, Option.Rel (fun v w => sameFile v w = true) (s.files.lookup k)
    ((GoMap.ofRows (flattenTree root (tokenOf root)).2).lookup k)
  treeHash : (s.metaRows.lookup treeHashKey).getD [] = tokenOf root

/-- A save succeeds, holds its tree, and keeps the stat rows whose paths are those of
stored files without their leading slashes. -/
theorem saveTree_spec (s : Store) (root : Option TreeNode) (ofFiles ofNodes : RangeOrder) :
    ∃ s', saveTree s root ofFiles ofNodes = some s' ∧ Holds s' root ∧
      ∀ p, s'.statCache.lookup p =
        (s.statCache.lookup p).filter fun _ => p ∈ s'.files.keys.map ltrimSlashes := by
  generalize htoken : tokenOf root = token
  generalize hrows : flattenTree root token = rows
  have hrefs := flattenTree_treePath root token
  rw [hrows] at hrefs
  have hnode : ∀ v : NodeRow, sameNode v v = true := fun v => by simp [sameNode]
  have hfile : ∀ v : FileRow, sameFile v v = true := fun v => by simp [sameFile]
  -- the two passes
  set nodePass := rows.1.foldl (GoMap.syncRow sameNode) (s.treeNodes, s.treeNodes) with hnodePass
  set filePass := rows.2.foldl (GoMap.syncRow sameFile) (s.files, s.files) with hfilePass
  have hwritten : ∀ k ∈ rows.1.map Prod.fst, (nodePass.2.lookup k).isSome := by
    intro k hk
    have hrel := ((GoMap.foldl_syncRow hnode s.treeNodes rows.1 k).2 hk).2
    rw [← hnodePass] at hrel
    rw [isSome_of_option_rel hrel]
    exact GoMap.lookup_ofRows_isSome.mpr hk
  have hpass := foldlM_syncFile rows.2 s.files
    { s.metaSet treeHashKey token with treeNodes := nodePass.2 }
    (fun f hf => hwritten _ (hrefs f hf))
  -- the deletions
  have hnodeKeys := ofNodes.perm nodePass.1.keys
  have hfileKeys := ofFiles.perm filePass.1.keys
  obtain ⟨hnodes, hmeta, hstat, hfiles⟩ := foldl_treeNodeDelete
    (ofNodes.order nodePass.1.keys)
    { s.metaSet treeHashKey token with
      treeNodes := nodePass.2
      files := (ofFiles.order filePass.1.keys).foldl (fun m k => m.erase k) filePass.2 }
  set final := (ofNodes.order nodePass.1.keys).foldl Store.treeNodeDelete
    { s.metaSet treeHashKey token with
      treeNodes := nodePass.2
      files := (ofFiles.order filePass.1.keys).foldl (fun m k => m.erase k) filePass.2 }
    with hfinal
  have hsave : saveTree s root ofFiles ofNodes = some final.statCacheSweep := by
    simp only [saveTree, syncRows, htoken, hrows]
    rw [foldl_syncNode]
    simp only [Option.bind_eq_bind]
    have hpass' : rows.2.foldlM syncFile ((s.metaSet treeHashKey token).files,
        { s.metaSet treeHashKey token with treeNodes := nodePass.2 }) = some (filePass.1,
          { s.metaSet treeHashKey token with treeNodes := nodePass.2, files := filePass.2 }) :=
      hpass
    have hnodePass' : rows.1.foldl (GoMap.syncRow sameNode)
        ((s.metaSet treeHashKey token).treeNodes, (s.metaSet treeHashKey token).treeNodes) =
          nodePass := rfl
    rw [hnodePass', hpass', Option.bind_some]
    simp only [foldl_fileDelete]
    rfl
  have hfileRel : ∀ k, Option.Rel (fun v w => sameFile v w = true) (final.files.lookup k)
      ((GoMap.ofRows rows.2).lookup k) := by
    intro k
    have hrel := GoMap.sync_lookup hfile s.files rows.2 hfileKeys k
    rw [hfiles]
    dsimp only
    revert hrel
    rw [← hfilePass]
    generalize ((ofFiles.order filePass.1.keys).foldl (fun m k => m.erase k)
      filePass.2).lookup k = stored
    rcases hwant : (GoMap.ofRows rows.2).lookup k with _ | w <;> intro hrel
    · cases hrel
      exact Option.Rel.none
    · cases hrel with
      | some hsame =>
          rename_i v
          -- the directory of a wanted file is wanted, so its row is not deleted
          have hdir := hrefs _ (GoMap.mem_of_lookup_ofRows hwant)
          rw [← (sameFile_iff.mp hsame).1] at hdir
          have hkept : v.treePath ∉ ofNodes.order nodePass.1.keys := fun hin =>
            ((GoMap.mem_leftover hnode s.treeNodes rows.1).mp (hnodeKeys.mem_iff.mp hin)).2 hdir
          rw [Option.filter_some, if_pos (by simpa using hkept)]
          exact Option.Rel.some hsame
  refine ⟨final.statCacheSweep, hsave, ⟨?_, ?_, ?_⟩, fun p => ?_⟩
  · rw [htoken, hrows]
    intro k
    have hrel := GoMap.sync_lookup hnode s.treeNodes rows.1 hnodeKeys k
    rw [show final.statCacheSweep.treeNodes = final.treeNodes from rfl, hnodes]
    exact hrel
  · rw [htoken, hrows]
    exact hfileRel
  · rw [htoken, show final.statCacheSweep.metaRows = final.metaRows from rfl, hmeta]
    simp [Store.metaSet]
  · rw [show final.statCacheSweep.files = final.files from rfl]
    rw [Store.statCacheSweep, GoMap.lookup_filter, hstat]
    rfl

/-! ## Reading back -/

theorem readFile_ok {k : Str} {v : FileRow} {token : Str} {dir : Str} {file : File}
    (h : sameFile v (fileRow token dir file).2 = true) :
    readFile (k, v) = .ok (snapshotFileOf (k, dir, file)) := by
  obtain ⟨-, hsize, hmode, hbinary, hencoding, hhash, hchunks⟩ := sameFile_iff.mp h
  have hbytes : hashFromBytes file.hash.val = file.hash := by
    have hval := hashFromBytes_val file.hash []
    rwa [List.append_nil, List.take_of_length_le file.hash.property.le] at hval
  rw [readFile]
  dsimp only
  rw [hchunks, hhash, hsize, hmode, hbinary, hencoding]
  simp only [fileRow, decodeChunkHashes_encode, hbytes]
  rfl

variable {root : Option TreeNode}

theorem Holds.snapshot {s : Store} (h : Holds s root) : s.snapshot = .ok (snapshotOf root) := by
  have hrel : ∀ k, Option.Rel (fun (v : FileRow) (row : Str × File) =>
      sameFile v (fileRow (tokenOf root) row.1 row.2).2 = true) (s.files.lookup k)
      ((GoMap.ofRows (treeFiles root)).lookup k) := by
    intro k
    have hk := h.files k
    rwa [flattenTree_files, GoMap.lookup_ofRows_map
      (fun row : Str × Str × File => (fileRow (tokenOf root) row.2.1 row.2.2).2),
      option_rel_map_right] at hk
  have hlist : ∀ {rows : List (Str × FileRow)} {wanted : List (Str × Str × File)},
      List.Forall₂ (fun a b => a.1 = b.1 ∧
        sameFile a.2 (fileRow (tokenOf root) b.2.1 b.2.2).2 = true) rows wanted →
      rows.mapM readFile = .ok (wanted.map snapshotFileOf) := by
    intro rows wanted hrows
    induction hrows with
    | nil => rfl
    | cons hrow _ ih =>
        rename_i row want _ _ _
        have hread : readFile row = .ok (snapshotFileOf want) := by
          obtain ⟨k, v⟩ := row
          obtain ⟨k', dir, file⟩ := want
          obtain ⟨rfl, hsame⟩ := hrow
          exact readFile_ok hsame
        rw [List.mapM_cons, hread, ih]
        rfl
  rw [Store.snapshot, hlist (GoMap.forall₂_sorted hrel), h.treeHash]
  rfl

theorem ltrimSlashes_stripRoot (p : Str) : ltrimSlashes (stripRoot p) = ltrimSlashes p := by
  cases p with
  | nil => rfl
  | cons c p =>
      by_cases hc : c = '/'
      · subst hc
        rfl
      · have hstrip : stripRoot (c :: p) = c :: p := by
          simp [stripRoot, trimPrefix, Ne.symm hc]
        rw [hstrip]

theorem Holds.tracked {s : Store} (h : Holds s root) {p : Str}
    (hp : p ∈ s.files.keys.map ltrimSlashes) :
    ∃ f ∈ (snapshotOf root).files, ltrimSlashes f.path = p := by
  obtain ⟨k, hk, rfl⟩ := List.mem_map.mp hp
  have hsome := GoMap.mem_keys_iff.mp hk
  rw [isSome_of_option_rel (h.files k), flattenTree_files, GoMap.lookup_ofRows_map
    (fun row : Str × Str × File => (fileRow (tokenOf root) row.2.1 row.2.2).2),
    Option.isSome_map] at hsome
  obtain ⟨row, hrow⟩ := Option.isSome_iff_exists.mp hsome
  exact ⟨snapshotFileOf (k, row), List.mem_map.mpr ⟨_, GoMap.mem_sorted.mpr hrow, rfl⟩,
    ltrimSlashes_stripRoot k⟩

/-! ## Histories -/

/-- What is done to the store; saves of stat rows and sweeps leave the tree alone. -/
inductive Event where
  | saveTree (root : Option TreeNode) (ofFiles ofNodes : RangeOrder)
  | saveStatEntries (entries : List (Str × StatRow))
  | sweepStatCache

def step (s : Store) : Event → Option Store
  | .saveTree root ofFiles ofNodes => saveTree s root ofFiles ofNodes
  | .saveStatEntries entries => some (saveStatEntries s entries)
  | .sweepStatCache => some s.statCacheSweep

/-- The last tree saved. -/
def lastSaved (events : List Event) : Option TreeNode :=
  events.foldl (fun last e => match e with
    | .saveTree root .. => root
    | _ => last) none

/-- Two stores with the same rows, but for the save that wrote them. -/
structure SameRows (s s' : Store) : Prop where
  nodes : ∀ k, Option.Rel (fun v w => sameNode v w = true) (s.treeNodes.lookup k)
    (s'.treeNodes.lookup k)
  files : ∀ k, Option.Rel (fun v w => sameFile v w = true) (s.files.lookup k)
    (s'.files.lookup k)

theorem saveStatEntries_tables (s : Store) (entries : List (Str × StatRow)) :
    (saveStatEntries s entries).treeNodes = s.treeNodes ∧
      (saveStatEntries s entries).files = s.files ∧
      (saveStatEntries s entries).metaRows = s.metaRows := by
  unfold saveStatEntries
  induction entries generalizing s with
  | nil => exact ⟨rfl, rfl, rfl⟩
  | cons row entries ih => exact ih (s.statCacheUpsert row)

theorem Holds.of_tables {s s' : Store} (h : Holds s root) (hnodes : s'.treeNodes = s.treeNodes)
    (hfiles : s'.files = s.files) (hmeta : s'.metaRows = s.metaRows) : Holds s' root :=
  ⟨hnodes ▸ h.nodes, hfiles ▸ h.files, hmeta ▸ h.treeHash⟩

theorem holds_empty : Holds Store.empty none :=
  ⟨fun _ => Option.Rel.none, fun _ => Option.Rel.none, rfl⟩

theorem run_holds (events : List Event) :
    ∃ s, events.foldlM step Store.empty = some s ∧ Holds s (lastSaved events) := by
  induction events using List.reverseRecOn with
  | nil => exact ⟨Store.empty, rfl, holds_empty⟩
  | append_singleton events e ih =>
      obtain ⟨s, hrun, hholds⟩ := ih
      have hlast : lastSaved (events ++ [e]) = match e with
          | .saveTree root .. => root
          | _ => lastSaved events := by
        unfold lastSaved
        rw [List.foldl_append]
        rfl
      rw [List.foldlM_append, hrun, hlast]
      cases e with
      | saveTree root ofFiles ofNodes =>
          obtain ⟨s', hsave, hholds', -⟩ := saveTree_spec s root ofFiles ofNodes
          exact ⟨s', by simpa [step] using hsave, hholds'⟩
      | saveStatEntries entries =>
          obtain ⟨hnodes, hfiles, hmeta⟩ := saveStatEntries_tables s entries
          exact ⟨_, by simp [step], hholds.of_tables hnodes hfiles hmeta⟩
      | sweepStatCache =>
          exact ⟨s.statCacheSweep, by simp [step], hholds.of_tables rfl rfl rfl⟩

theorem Holds.sameRows {s s' : Store} (h : Holds s root) (h' : Holds s' root) : SameRows s s' := by
  constructor
  · intro k
    refine option_rel_join (h.nodes k) (h'.nodes k) fun v w row hv hw => ?_
    rw [sameNode_iff] at hv hw ⊢
    exact ⟨hv.1.trans hw.1.symm, hv.2.1.trans hw.2.1.symm, hv.2.2.trans hw.2.2.symm⟩
  · intro k
    refine option_rel_join (h.files k) (h'.files k) fun v w row hv hw => ?_
    rw [sameFile_iff] at hv hw ⊢
    obtain ⟨h₁, h₂, h₃, h₄, h₅, h₆, h₇⟩ := hv
    obtain ⟨h₁', h₂', h₃', h₄', h₅', h₆', h₇'⟩ := hw
    exact ⟨h₁.trans h₁'.symm, h₂.trans h₂'.symm, h₃.trans h₃'.symm, h₄.trans h₄'.symm,
      h₅.trans h₅'.symm, h₆.trans h₆'.symm, h₇.trans h₇'.symm⟩

/-- After any history the store reads as the last tree saved and has the rows of a
fresh save; a further save succeeds, and the stat rows it leaves belong to tracked
paths when no tracked path begins with a slash. -/
theorem store_reads_last_saved (events : List Event) :
    ∃ s, events.foldlM step Store.empty = some s ∧
      s.snapshot = .ok (snapshotOf (lastSaved events)) ∧
      (∀ ofFiles ofNodes, ∃ fresh,
        saveTree Store.empty (lastSaved events) ofFiles ofNodes = some fresh ∧
          fresh.snapshot = s.snapshot ∧ SameRows s fresh) ∧
      ∀ root ofFiles ofNodes, ∃ s', step s (.saveTree root ofFiles ofNodes) = some s' ∧
        s'.snapshot = .ok (snapshotOf root) ∧
        (∀ p ∈ s'.statCache.keys, ∃ f ∈ (snapshotOf root).files, ltrimSlashes f.path = p) ∧
        ((∀ f ∈ (snapshotOf root).files, f.path.head? ≠ some '/') →
          ∀ p ∈ s'.statCache.keys, p ∈ (snapshotOf root).files.map SnapshotFile.path) := by
  obtain ⟨s, hrun, hholds⟩ := run_holds events
  refine ⟨s, hrun, hholds.snapshot, fun ofFiles ofNodes => ?_, fun root ofFiles ofNodes => ?_⟩
  · obtain ⟨fresh, hsave, hfresh, -⟩ :=
      saveTree_spec Store.empty (lastSaved events) ofFiles ofNodes
    exact ⟨fresh, hsave, by rw [hfresh.snapshot, hholds.snapshot], hholds.sameRows hfresh⟩
  · obtain ⟨s', hsave, hholds', hstat⟩ := saveTree_spec s root ofFiles ofNodes
    have htracked : ∀ p ∈ s'.statCache.keys,
        ∃ f ∈ (snapshotOf root).files, ltrimSlashes f.path = p := by
      intro p hp
      rw [GoMap.mem_keys_iff, hstat] at hp
      obtain ⟨row, hrow⟩ := Option.isSome_iff_exists.mp hp
      exact hholds'.tracked (by simpa using (Option.filter_eq_some_iff.mp hrow).2)
    refine ⟨s', hsave, hholds'.snapshot, htracked, fun hslash p hp => ?_⟩
    obtain ⟨f, hf, rfl⟩ := htracked p hp
    have hself : ltrimSlashes f.path = f.path := by
      have hhead := hslash f hf
      unfold ltrimSlashes
      rcases hpath : f.path with _ | ⟨c, path⟩
      · rfl
      · rw [List.dropWhile_cons_of_neg]
        simpa [hpath] using hhead
    rw [hself]
    exact List.mem_map.mpr ⟨f, hf, rfl⟩

/-! ## A path that begins with a slash -/

def plainHash : Hash :=
  ⟨List.replicate hashSize 0, List.length_replicate⟩

/-- One file at the top, with a name of its own choice. -/
def oneFile (name : Str) : TreeNode :=
  .mk plainHash "root".toList 0 []
    [{ hash := plainHash, name, mode := 0, sizeBytes := 0, isBinary := false
       encoding := "raw".toList, chunks := [] }]

def keptOrder : RangeOrder :=
  ⟨id, fun _ => List.Perm.refl _⟩

def statRow : StatRow where
  sizeBytes := 0
  mtimeNS := 0
  mode := 0
  hash := plainHash.val
  cachedAt := 0

/-- The stat row of `x` stays behind when the only tracked path is `/x`. -/
theorem stat_row_of_no_tracked_path : ¬ ∀ (events : List Event) (root : Option TreeNode)
    (ofFiles ofNodes : RangeOrder) (s : Store),
    (events ++ [Event.saveTree root ofFiles ofNodes]).foldlM step Store.empty = some s →
    ∀ p ∈ s.statCache.keys, p ∈ (snapshotOf root).files.map SnapshotFile.path := by
  intro hall
  have hsaved := hall [.saveStatEntries [("x".toList, statRow)]] (some (oneFile "/x".toList))
    keptOrder keptOrder _ rfl "x".toList
  revert hsaved
  decide +kernel

end Nipa.LocalRepo
