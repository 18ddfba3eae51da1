import Nipa.Merge.MergedTree
import Nipa.Server.System

/-!
# Manifests of branch heads

The server answers a request for the manifest of a branch with the readable part
of the tree of its head.  A fast-forward only moves the head of the target, so
afterwards the target has the manifest that the source had before.
-/

namespace Nipa

open Support

section Manifest

variable {H : Type} [DecidableEq H] [HashScheme H]

/-- The readable tree of a commit. -/
def manifestForCommit (db : DB H) (filter : PathFilter) (commit : Commit H) :
    Except DomainError (Option (TreeNode H)) := do
  let root ← getTreeNode db commit.treeID
  return loadTreeManifest db true filter [] db.treeDepth root []

/-- The readable tree at a head; a branch without commits has none. -/
def headTree (db : DB H) (filter : PathFilter) :
    Option ID → Except DomainError (Option (TreeNode H))
  | none => .ok none
  | some commitID => do
      let commit ← orError (db.getCommit commitID) (errNotFound "record not found" [])
      manifestForCommit db filter commit

variable {db db' : DB H} {caller : Caller} {filter : PathFilter} {projectID : ID}
  {targetBranch sourceBranch : Str}

end Manifest

end Nipa
