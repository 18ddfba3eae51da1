import Mathlib.Data.Nat.Digits.Defs
import Nipa.TreeHash
import Nipa.Support.Maps

/-!
# Domain values

The records the server passes around: files, directory manifests, commits,
branches, locks and push payloads, together with the domain errors.  An error
keeps its kind, the format string it is printed with and the arguments of that
format.  Timestamps and display names are left out; nothing modelled reads
them.
-/

namespace Nipa

open Support

inductive ErrorKind where
  | noPermission
  | user
  | notFound
  | conflict
  | forbidden
  | database
  | internalServer
  deriving DecidableEq

structure DomainError where
  kind : ErrorKind
  format : String
  args : List Str
  deriving DecidableEq

def errNoPermission : DomainError := ⟨.noPermission, "no permission", []⟩

def errUser (format : String) (args : List Str) : DomainError := ⟨.user, format, args⟩

def errNotFound (format : String) (args : List Str) : DomainError :=
  ⟨.notFound, format, args⟩

def errConflict (format : String) (args : List Str) : DomainError :=
  ⟨.conflict, format, args⟩

def errForbidden (format : String) (args : List Str) : DomainError :=
  ⟨.forbidden, format, args⟩

def errDatabase (format : String) (args : List Str) : DomainError :=
  ⟨.database, format, args⟩

def errInternalServer (format : String) (args : List Str) : DomainError :=
  ⟨.internalServer, format, args⟩

abbrev ID := ℕ

instance {H : Type} [DecidableEq H] : LawfulBEq (ID × H) := inferInstance

/-- The digits of a row number in messages. -/
def base36 (id : ID) : Str :=
  if id = 0 then ['0']
  else ((Nat.digits 36 id).map fun d =>
    if d < 10 then Char.ofNat (48 + d) else Char.ofNat (87 + d)).reverse

structure Chunk (H : Type) where
  hash : H
  sizeBytes : ℤ
  deriving DecidableEq

/-- A file row with its chunks in order. -/
structure File (H : Type) where
  name : Str
  mode : ℕ
  sizeBytes : ℤ
  isBinary : Bool
  encoding : Str
  hash : H
  chunks : List (Chunk H)
  deriving DecidableEq

/-- A directory manifest: a tree row with the children loaded below it. -/
inductive TreeNode (H : Type) where
  | mk (id : ID) (hash : H) (name : Str) (mode : ℕ)
      (fileChildren : List (File H)) (treeChildren : List (TreeNode H))

namespace TreeNode

variable {H : Type}

def hash : TreeNode H → H
  | mk _ h _ _ _ _ => h

def name : TreeNode H → Str
  | mk _ _ n _ _ _ => n

def fileChildren : TreeNode H → List (File H)
  | mk _ _ _ _ fs _ => fs

def treeChildren : TreeNode H → List (TreeNode H)
  | mk _ _ _ _ _ ts => ts

end TreeNode

structure Commit (H : Type) where
  id : ID
  hash : H
  projectID : ID
  treeID : ID
  parent1ID : Option ID
  parent2ID : Option ID
  userID : ID
  message : Str
  deriving DecidableEq

structure Branch where
  id : ID
  projectID : ID
  name : Str
  isProtected : Bool
  isDefault : Bool
  commitID : Option ID
  deleted : Bool
  deriving DecidableEq

structure FileLock where
  id : ID
  projectID : ID
  branchID : Option ID
  path : Str
  heldBy : ID
  mergeRequestID : Option ID
  deriving DecidableEq

/-- A file of a push request. -/
structure PushFile (H : Type) where
  path : Str
  mode : ℕ
  sizeBytes : ℤ
  isBinary : Bool
  encoding : Str
  fileHash : H
  chunkHashes : List H
  deriving DecidableEq

inductive Permission where
  | read
  | write
  deriving DecidableEq

/-- The permission answers for one caller on one project. -/
structure PermissionUsecase where
  hasProjectAccess : Permission → Bool
  hasPathAccess : Str → Permission → Bool
  adminHasProject : Bool

/-- The caller: permission answers and the user the request is authenticated as. -/
structure Caller where
  perm : PermissionUsecase
  claim : Option ID

/-- A compiled read filter: which paths are allowed, and below which
directories some path could be. -/
structure PathFilter where
  allow : Str → Bool
  canDescend : Str → Bool

def allowAllFilter : PathFilter where
  allow _ := true
  canDescend _ := true

/-! ## Path prefixes -/

/-- Whether a normalised prefix covers a path. -/
def prefixCovers (pre path : Str) : Bool :=
  if pre = [] then true
  else
    let path := trimChar '/' path
    if path = [] then false
    else if path = pre then true
    else (pre ++ ['/']).isPrefixOf path

/-- Whether something below a directory could be covered by the prefix. -/
def prefixCanDescend (pre dir : Str) : Bool :=
  if pre = [] then true
  else
    let dir := trimChar '/' dir
    if dir = [] then true
    else if prefixCovers pre dir then true
    else (dir ++ ['/']).isPrefixOf pre

/-- A sparse set; the empty set stands for the whole tree. -/
abbrev PrefixSet := List Str

def PrefixSet.covers (s : PrefixSet) (path : Str) : Bool :=
  s.isEmpty || s.any fun pre => prefixCovers pre path

def PrefixSet.canDescend (s : PrefixSet) (dir : Str) : Bool :=
  s.isEmpty || s.any fun pre => prefixCanDescend pre dir

end Nipa
