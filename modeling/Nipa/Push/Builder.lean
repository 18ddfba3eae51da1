import Nipa.Push.Validate
import Nipa.Store.Tables

/-!
# Building the new tree of a push

The copy-on-write tree builder.  Only the directories on the way to a touched
path are rebuilt; every other directory of the head tree is kept as a bare row
that carries nothing but its hash.  Logical row numbers are handed out in the
order the builder visits directories.
-/

namespace Nipa

open Support

/-- A file of a directory being built. -/
structure NodeFile (H : Type) where
  name : Str
  mode : ℕ
  sizeBytes : ℤ
  isBinary : Bool
  encoding : Str
  hash : H
  chunkHashes : List H
  deriving DecidableEq

/-- A directory taken over unchanged. -/
structure KeptDir (H : Type) where
  id : ID
  hash : H
  name : Str
  mode : ℕ
  deriving DecidableEq

/-- A rebuilt directory.  Its hash is not stored, `finalize` computes it. -/
inductive PushTreeNode (H : Type) where
  | mk (id : ID) (name : Str) (mode : ℕ) (files : List (NodeFile H))
      (children : List (PushTreeNode H)) (keepDirs : List (KeptDir H))

namespace PushTreeNode

variable {H : Type}

def id : PushTreeNode H → ID
  | mk i _ _ _ _ _ => i

def name : PushTreeNode H → Str
  | mk _ n _ _ _ _ => n

def mode : PushTreeNode H → ℕ
  | mk _ _ m _ _ _ => m

def files : PushTreeNode H → List (NodeFile H)
  | mk _ _ _ fs _ _ => fs

def children : PushTreeNode H → List (PushTreeNode H)
  | mk _ _ _ _ cs _ => cs

def keepDirs : PushTreeNode H → List (KeptDir H)
  | mk _ _ _ _ _ ks => ks

end PushTreeNode

section Finalize

variable {H : Type} [HashScheme H]

def nodeFileEntry (f : NodeFile H) : FileEntry H :=
  ⟨utf8 f.name, f.hash, f.mode⟩

def keptEntry (k : KeptDir H) : TreeEntry H :=
  ⟨utf8 k.name, k.hash⟩

mutual

/-- The hash of a rebuilt directory, from its files, its kept directories and
its rebuilt children. -/
def finalize : PushTreeNode H → H
  | .mk _ _ _ files children keepDirs =>
      treeHash (files.map nodeFileEntry)
        (keepDirs.map keptEntry ++ finalizeChildren children)

def finalizeChildren : List (PushTreeNode H) → List (TreeEntry H)
  | [] => []
  | c :: cs => ⟨utf8 c.name, finalize c⟩ :: finalizeChildren cs

end

theorem finalizeChildren_eq_map (cs : List (PushTreeNode H)) :
    finalizeChildren cs = cs.map fun c => ⟨utf8 c.name, finalize c⟩ := by
  induction cs with
  | nil => rw [finalizeChildren, List.map_nil]
  | cons c cs ih => rw [finalizeChildren, List.map_cons, ih]

theorem finalize_eq (t : PushTreeNode H) :
    finalize t = treeHash (t.files.map nodeFileEntry)
      (t.keepDirs.map keptEntry ++ t.children.map fun c => ⟨utf8 c.name, finalize c⟩) := by
  rcases t with ⟨i, n, m, fs, cs, ks⟩
  rw [finalize, finalizeChildren_eq_map]
  rfl

end Finalize

/-- What a request touches, by directory. -/
structure TreeBuilder (H : Type) where
  changed : Str → List (PushFile H)
  removed : Str → List Str
  rebuildDirs : List Str

namespace TreeBuilder

variable {H : Type} [DecidableEq H]

/-- Collect the touched names of each directory and every directory above a
touched path. -/
def ofRequest (files : List (PushFile H)) (removed : List Str) : TreeBuilder H where
  changed d := files.filter fun f => dirOf f.path = d
  removed d := (removed.filter fun r => dirOf r = d).map baseOf
  rebuildDirs :=
    [] :: (files.flatMap (fun f => addAncestors (dirOf f.path)) ++
      removed.flatMap fun r => addAncestors (dirOf r))

def nodeFileOfPush (f : PushFile H) : NodeFile H where
  name := baseOf f.path
  mode := f.mode
  sizeBytes := f.sizeBytes
  isBinary := f.isBinary
  encoding := f.encoding
  hash := f.fileHash
  chunkHashes := f.chunkHashes

def nodeFileOfBase (f : File H) : NodeFile H where
  name := f.name
  mode := f.mode
  sizeBytes := f.sizeBytes
  isBinary := f.isBinary
  encoding := f.encoding
  hash := f.hash
  chunkHashes := f.chunks.map Chunk.hash

/-- The files of a rebuilt directory by name: the pushed ones, then those of
the head directory that are neither removed nor overridden. -/
def byName (b : TreeBuilder H) (dirPath : Str) (baseFiles : List (File H)) :
    GoMap (NodeFile H) :=
  let pushed := GoMap.insertAll (fun f => baseOf f.path) nodeFileOfPush ∅
    (b.changed dirPath)
  baseFiles.foldl (fun m f =>
    if f.name ∈ b.removed dirPath ∨ (m.lookup f.name).isSome then m
    else m.insert f.name (nodeFileOfBase f)) pushed

def nodeFiles (b : TreeBuilder H) (dirPath : Str) (baseFiles : List (File H)) :
    List (NodeFile H) :=
  (b.byName dirPath baseFiles).values.insertionSort fun f g => f.name ≤ g.name

/-- The files of the head directory; a new directory has none. -/
def baseFilesOf (db : DB H) : Option (TreeRow H) → List (File H)
  | none => []
  | some node => db.listFilesByTree node.id

/-- The subdirectories of the head directory; a new directory has none. -/
def baseChildrenOf (db : DB H) : Option (TreeRow H) → List (TreeRow H)
  | none => []
  | some node => db.listTreeChildren node.id

def childByName (baseChildren : List (TreeRow H)) : GoMap (TreeRow H) :=
  GoMap.insertAll TreeRow.name (fun c => c) ∅ baseChildren

/-- Build the listed subdirectories in turn, threading the row counter. -/
def buildChildren (build : Str → Option (TreeRow H) → ID → PushTreeNode H × ID)
    (dirPath : Str) (baseChildByName : GoMap (TreeRow H)) :
    List Str → ID → List (PushTreeNode H) × ID
  | [], nextID => ([], nextID)
  | sub :: subs, nextID =>
      let (child, next1) := build (joinPath dirPath sub) (baseChildByName.lookup sub) nextID
      let (rest, next2) := buildChildren build dirPath baseChildByName subs next1
      (child :: rest, next2)

/-- Rows for the head directories that are not rebuilt. -/
def keepChildren (b : TreeBuilder H) (dirPath : Str) :
    List (TreeRow H) → ID → List (KeptDir H) × ID
  | [], nextID => ([], nextID)
  | c :: cs, nextID =>
      if joinPath dirPath c.name ∈ b.rebuildDirs then b.keepChildren dirPath cs nextID
      else
        let (rest, next) := b.keepChildren dirPath cs (nextID + 1)
        (⟨nextID + 1, c.hash, c.name, 0o444⟩ :: rest, next)

/-- Build one directory.  A rebuilt subdirectory has a longer path than the
directory it is in, so the recursion is at most as deep as the longest touched
path; `depth` counts down from there and is never exhausted. -/
def build (b : TreeBuilder H) (db : DB H) :
    ℕ → Str → Option (TreeRow H) → ID → PushTreeNode H × ID
  | 0, dirPath, _, nextID =>
      (.mk (nextID + 1) (nodeName dirPath) 0o444 [] [] [], nextID + 1)
  | depth + 1, dirPath, baseNode, nextID =>
      let baseChildren := baseChildrenOf db baseNode
      let files := b.nodeFiles dirPath (baseFilesOf db baseNode)
      let baseChildByName := childByName baseChildren
      let (children, next1) := buildChildren (b.build db depth) dirPath baseChildByName
        (immediateSubdirs b.rebuildDirs dirPath) (nextID + 1)
      let (kept, next2) := b.keepChildren dirPath baseChildren next1
      (.mk (nextID + 1) (nodeName dirPath) 0o444 files
        (children.insertionSort fun c c' => c.name ≤ c'.name) kept, next2)

/-- A depth no path of the rebuilt directories reaches. -/
def depthBound (b : TreeBuilder H) : ℕ :=
  b.rebuildDirs.foldr (fun d n => max d.length n) 0 + 1

end TreeBuilder

section NewTree

variable {H : Type} [DecidableEq H]

def getTreeNode (db : DB H) (id : ID) : Except DomainError (TreeRow H) :=
  orError (db.treeNodeGet id) (errNotFound "record not found" [])

/-- The root row to build on; the first commit of a branch has none. -/
def baseRootOf (db : DB H) : Option (Commit H) → Except DomainError (Option (TreeRow H))
  | none => .ok none
  | some c => do
      let row ← getTreeNode db c.treeID
      return some row

/-- The tree of the next commit on top of `headCommit`. -/
def buildNewTree (db : DB H) (headCommit : Option (Commit H))
    (files : List (PushFile H)) (removed : List Str) :
    Except DomainError (PushTreeNode H) := do
  let baseRoot ← baseRootOf db headCommit
  let b := TreeBuilder.ofRequest files removed
  return (b.build db b.depthBound [] baseRoot 0).1

end NewTree

end Nipa
