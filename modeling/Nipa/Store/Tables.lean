import Nipa.Domain
import Nipa.Support.Hierarchy

/-!
# The tables and their queries

The rows the server stores and the statements it reads them with.  A file row
carries its chunk list, the join of the file, link and chunk tables, which are
only ever appended to.  Directory content is looked up by hash: the listing
queries first resolve a row to the lowest-numbered row with the same hash that
has content of its own.
-/

namespace Nipa

open Support

structure TreeRow (H : Type) where
  id : ID
  hash : H
  name : Str
  mode : ℕ
  parentTreeID : Option ID
  deriving DecidableEq

structure FileRow (H : Type) where
  treeID : ID
  file : File H
  deriving DecidableEq

structure DB (H : Type) where
  treeNodes : List (TreeRow H)
  files : List (FileRow H)
  chunks : List (Chunk H)
  projectChunkUploads : List (ID × H)
  commits : List (Commit H)
  branches : List Branch
  fileLocks : List FileLock
  deriving DecidableEq

namespace DB

variable {H : Type} [DecidableEq H]

def hasFiles (db : DB H) (id : ID) : Bool :=
  db.files.any fun f => f.treeID = id

def hasChildren (db : DB H) (id : ID) : Bool :=
  db.treeNodes.any fun t => t.parentTreeID = some id

/-- Whether anything is stored under the row itself. -/
def hasContent (db : DB H) (id : ID) : Bool :=
  db.hasFiles id || db.hasChildren id

/-- The files stored under one row, whatever its hash. -/
def ownFiles (db : DB H) (id : ID) : List (File H) :=
  (db.files.filter fun f => f.treeID = id).map FileRow.file

/-- The rows stored under one row, whatever its hash. -/
def ownChildren (db : DB H) (id : ID) : List (TreeRow H) :=
  db.treeNodes.filter fun t => t.parentTreeID = some id

/-- The lowest row with the given hash that satisfies `p`. -/
def contentRow (db : DB H) (p : ID → Bool) (h : H) : Option ID :=
  ((db.treeNodes.filter fun t => t.hash = h && p t.id).map TreeRow.id).min?

def treeNodeGet (db : DB H) (id : ID) : Option (TreeRow H) :=
  db.treeNodes.find? fun t => t.id = id

/-- Files held by the content row of a hash, ordered by name. -/
def filesByHash (db : DB H) (h : H) : List (File H) :=
  match db.contentRow db.hasFiles h with
  | none => []
  | some id => (db.ownFiles id).insertionSort fun a b => a.name ≤ b.name

/-- Subdirectory rows held by the content row of a hash, ordered by name. -/
def childrenByHash (db : DB H) (h : H) : List (TreeRow H) :=
  match db.contentRow db.hasContent h with
  | none => []
  | some id => (db.ownChildren id).insertionSort fun a b => a.name ≤ b.name

def listFilesByTree (db : DB H) (treeID : ID) : List (File H) :=
  match db.treeNodeGet treeID with
  | none => []
  | some ref => db.filesByHash ref.hash

def listTreeChildren (db : DB H) (parentTreeID : ID) : List (TreeRow H) :=
  match db.treeNodeGet parentTreeID with
  | none => []
  | some ref => db.childrenByHash ref.hash

def getTreeChildByName (db : DB H) (parentTreeID : ID) (name : Str) :
    Option (TreeRow H) :=
  match db.treeNodeGet parentTreeID with
  | none => none
  | some ref =>
      match db.contentRow db.hasContent ref.hash with
      | none => none
      | some id => (db.ownChildren id).find? fun t => t.name = name

def getCommit (db : DB H) (id : ID) : Option (Commit H) :=
  db.commits.find? fun c => c.id = id

def getCommitByHash (db : DB H) (h : H) : Option (Commit H) :=
  db.commits.find? fun c => c.hash = h

def getBranchByName (db : DB H) (projectID : ID) (name : Str) : Option Branch :=
  db.branches.find? fun b => b.projectID = projectID && b.name = name && !b.deleted

def getByProjectIDAndID (db : DB H) (projectID branchID : ID) : Option Branch :=
  db.branches.find? fun b => b.projectID = projectID && b.id = branchID && !b.deleted

/-- The project's locks, ordered by path. -/
def listProject (db : DB H) (projectID : ID) : List FileLock :=
  (db.fileLocks.filter fun l => l.projectID = projectID).insertionSort
    fun a b => a.path ≤ b.path

/-- The directories of the store, addressed by hash. -/
def storeTree (db : DB H) : Hierarchy Str H (File H) where
  files h := (db.filesByHash h).map fun f => (f.name, f)
  subs h := (db.childrenByHash h).map fun t => (t.name, t.hash)

end DB

end Nipa
