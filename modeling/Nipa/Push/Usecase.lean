import Nipa.Push.Step
import Nipa.Store.Read
import Nipa.Locks

/-!
# The push use case

A push as the server runs it: the request is checked on its own, the branch
row is read, the lock plan and the new tree are worked out against the head that
row names, and the result is written in one transaction.  The stages are separate
functions because other requests can run between them.  Review and webhook
notifications follow the write and cannot change its outcome; they are left
out.
-/

namespace Nipa

open Support

/-- A request field that arrives as text: left empty, not parsable, or parsed. -/
inductive TextField (α : Type) where
  | empty
  | invalid (raw : Str)
  | value (raw : Str) (a : α)

/-- A push request.  It arrives in one message whose length is a 32-bit number,
so no path in it is longer than that. -/
structure PushRequest (H : Type) where
  projectID : ID
  branchName : Str
  baseTreeHash : Str
  message : Str
  files : List (PushFile H)
  removed : List Str
  parent2CommitHash : TextField H
  baseCommitID : TextField ID
  paths_fit : ∀ p ∈ files.map PushFile.path ++ removed, (utf8 p).length < 2 ^ 32

section Request

variable {H : Type} [DecidableEq H] [HashScheme H]

def ensurePathWrites (perm : PermissionUsecase) : List Str → Except DomainError Unit
  | [] => .ok ()
  | p :: rest => do
      refuseIf (perm.hasPathAccess p .write = false) errNoPermission
      ensurePathWrites perm rest

/-- The checks that need no database; the files come back normalised. -/
def acceptPush (caller : Caller) (req : PushRequest H) :
    Except DomainError (List (PushFile H)) := do
  let marked := markLockableBinaries req.files
  refuseIf (caller.perm.hasProjectAccess .write = false) errNoPermission
  refuseIf (trimSpace req.message = []) (errUser "commit message is required" [])
  let files ← validatePushFiles marked
  validateRemovedFiles req.removed files
  checkFileHashes files
  ensurePathWrites caller.perm (files.map PushFile.path ++ req.removed)
  return files

/-- The branch a push goes to. -/
def openBranch (db : DB H) (req : PushRequest H) : Except DomainError Branch := do
  let branch ← orError (db.getBranchByName req.projectID req.branchName)
    (errNotFound "branch %q not found" [req.branchName])
  refuseIf (branch.isProtected = true)
    (errForbidden "branch %q is protected; push through a merge request" [req.branchName])
  return branch

/-! ## The lock plan -/

def touchedPushPaths (files : List (PushFile H)) (removed : List Str) : List Str :=
  (files.map PushFile.path ++ removed).foldl
    (fun seen p => if p ∈ seen then seen else seen ++ [p]) []

/-- The touched directories: every directory above a touched path. -/
def touchedDirs (paths : List Str) : List Str :=
  [] :: paths.flatMap fun p => addAncestors (dirOf p)

/-- The binary flags of the touched files of one head directory and those below
it.  The directories are visited depth first instead of through a queue; each
writes its own paths only. -/
def headBinaryFrom (db : DB H) (paths : List Str) : ℕ → Str → TreeRow H → List (Str × Bool)
  | 0, _, _ => []
  | depth + 1, dir, tree =>
      ((db.listFilesByTree tree.id).filter fun f =>
        paths.any fun p => dirOf p = dir && baseOf p = f.name).map
          (fun f => (joinPath dir f.name, f.isBinary)) ++
      (immediateSubdirs (touchedDirs paths) dir).flatMap fun sub =>
        match db.getTreeChildByName tree.id sub with
        | none => []
        | some child => headBinaryFrom db paths depth (joinPath dir sub) child

/-- A depth no touched directory reaches. -/
def touchedDepth (paths : List Str) : ℕ :=
  (touchedDirs paths).foldr (fun d n => max d.length n) 0 + 1

/-- The head's binary flag of every touched path that is tracked there. -/
def headBinaryPaths (db : DB H) (headCommit : Option (Commit H)) (paths : List Str) :
    Except DomainError (GoMap Bool) :=
  match headCommit with
  | none => .ok ∅
  | some c =>
      if paths = [] then .ok ∅
      else do
        let root ← getTreeNode db c.treeID
        return GoMap.insertAll Prod.fst Prod.snd ∅
          (headBinaryFrom db paths (touchedDepth paths) [] root)

structure PushLockPlan where
  required : List Str
  checked : List Str
  deriving DecidableEq

namespace PushLockPlan

def addRequired (plan : PushLockPlan) (path : Str) : PushLockPlan :=
  if path ∈ plan.required then plan else { plan with required := plan.required ++ [path] }

def addChecked (plan : PushLockPlan) (path : Str) : PushLockPlan :=
  if path ∈ plan.checked then plan else { plan with checked := plan.checked ++ [path] }

def landed (plan : PushLockPlan) : List Str :=
  plan.required ++ plan.checked

end PushLockPlan

/-- Changed or removed tracked binaries need a lock; a new binary is only
checked against other users' locks. -/
def planPushLocks (files : List (PushFile H)) (removed : List Str)
    (headBinary : GoMap Bool) : PushLockPlan :=
  let plan := files.foldl (fun plan f =>
    match headBinary.lookup f.path with
    | none => if f.isBinary then plan.addChecked f.path else plan
    | some oldBinary =>
        if oldBinary || f.isBinary then plan.addRequired f.path else plan) ⟨[], []⟩
  removed.foldl (fun plan p =>
    if headBinary.lookup p = some true then plan.addRequired p else plan) plan

/-! ## Planning the write -/

def getCommit (db : DB H) (id : ID) : Except DomainError (Commit H) :=
  orError (db.getCommit id) (errNotFound "record not found" [])

def headCommitOf (db : DB H) (branch : Branch) : Except DomainError (Option (Commit H)) :=
  match branch.commitID with
  | none => .ok none
  | some id => do
      let c ← getCommit db id
      return some c

def parent2CommitOf (db : DB H) (req : PushRequest H) :
    Except DomainError (Option (Commit H)) :=
  match req.parent2CommitHash with
  | .empty => .ok none
  | .invalid raw => .error (errUser "invalid parent_2 commit hash %q" [raw])
  | .value raw h => do
      let c ← orError (db.getCommitByHash h)
        (errNotFound "parent_2 commit %s not found" [raw])
      refuseIf (c.projectID ≠ req.projectID)
        (errNotFound "parent_2 commit %s not found" [raw])
      return some c

def headTreeHash (db : DB H) : Option (Commit H) → Except DomainError H
  | none => .ok (treeHash [] [])
  | some c => do
      let root ← getTreeNode db c.treeID
      return root.hash

/-- The optimistic check that the pusher worked on the current head. -/
def checkBase (db : DB H) (req : PushRequest H) (branch : Branch)
    (headCommit : Option (Commit H)) : Except DomainError Unit :=
  match req.baseCommitID with
  | .invalid _ => .error (errUser "invalid base commit id" [])
  | .value raw id =>
      refuseIf (branch.commitID ≠ some id)
        (errConflict "branch %q has moved: expected base commit %s, current head is %s"
          [req.branchName, raw, (branch.commitID.map base36).getD []])
  | .empty => do
      let head ← headTreeHash db headCommit
      let base := if req.baseTreeHash = [] then hashString (treeHash [] [] : H)
        else req.baseTreeHash
      refuseIf (equalFold base (hashString head) = false)
        (errConflict "branch %q has moved: expected base tree hash %s, current head is %s"
          [req.branchName, base, hashString head])

def toApplyRequest (commitID : ID) (req : PushRequest H) (branch : Branch)
    (headCommit parent2Commit : Option (Commit H)) (userID : ID) (root : PushTreeNode H) :
    ApplyPushRequest H :=
  match headCommit with
  | none => buildApplyRequest commitID req.projectID branch.id none none [] userID
      req.message root
  | some head =>
      match parent2Commit with
      | none => buildApplyRequest commitID req.projectID branch.id branch.commitID none
          [head.hash] userID req.message root
      | some p2 => buildApplyRequest commitID req.projectID branch.id branch.commitID
          (some p2.id) [head.hash, p2.hash] userID req.message root

/-- The gate of a push: the locks that the touched binaries of the head need. -/
def lockPush (db : DB H) (caller : Caller) (req : PushRequest H) (files : List (PushFile H))
    (branch : Branch) : Except DomainError (ID × Option (Commit H) × PushLockPlan) := do
  let userID ← orError caller.claim errNoPermission
  let headCommit ← headCommitOf db branch
  let headFlags ← headBinaryPaths db headCommit (touchedPushPaths files req.removed)
  let lockPlan := planPushLocks files req.removed headFlags
  ensureLocks db req.projectID branch lockPlan.required lockPlan.checked userID
  return (userID, headCommit, lockPlan)

/-- The rest of the planning: second parent, base check and the new tree. -/
def planApply (db : DB H) (commitID : ID) (req : PushRequest H) (files : List (PushFile H))
    (branch : Branch) (userID : ID) (headCommit : Option (Commit H)) :
    Except DomainError (ApplyPushRequest H) := do
  let parent2Commit ← parent2CommitOf db req
  checkBase db req branch headCommit
  let root ← buildNewTree db headCommit files req.removed
  return toApplyRequest commitID req branch headCommit parent2Commit userID root

/-- A push that runs without interruption. -/
def push (db : DB H) (caller : Caller) (commitID : ID) (req : PushRequest H) :
    Except DomainError (DB H) := do
  let files ← acceptPush caller req
  let branch ← openBranch db req
  let (userID, headCommit, lockPlan) ← lockPush db caller req files branch
  let apply ← planApply db commitID req files branch userID headCommit
  let db' ← applyPush db apply
  return releaseLanded db' req.projectID branch lockPlan.landed userID

end Request

end Nipa
