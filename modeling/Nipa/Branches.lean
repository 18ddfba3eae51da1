import Nipa.LockTable
import Nipa.Store.Invariant

/-!
# Managing branches

Creating, renaming and deleting branches and choosing the default one.  Deleting a
branch releases the locks of its scope; the other operations leave the lock table
alone, also when they change which scope a branch's locks are looked up in.

Whether a branch has open merge requests is an input of the deletion.  Webhooks
that announce a created or deleted branch are left out.
-/

namespace Nipa

open Support

/-! ## Rows -/

section Rows

variable {H : Type}

/-- Insert a branch row; names of live branches and the default of a project are
unique. -/
def insertBranch (db : DB H) (b : Branch) : Except DomainError (DB H) := do
  refuseIf (∃ x ∈ db.branches, x.id = b.id ∨
      (x.projectID = b.projectID ∧ x.name = b.name ∧ x.deleted = false) ∨
      (x.projectID = b.projectID ∧ x.isDefault = true ∧ b.isDefault = true))
    (errConflict "record already exists" [])
  return { db with branches := db.branches ++ [b] }

/-- Change the live row with an id. -/
def updateBranch (db : DB H) (projectID branchID : ID) (f : Branch → Branch) : DB H :=
  { db with
    branches := db.branches.map fun b =>
      if b.projectID = projectID ∧ b.id = branchID ∧ b.deleted = false then f b else b }

def removeDefault (db : DB H) (projectID : ID) : DB H :=
  { db with
    branches := db.branches.map fun b =>
      if b.projectID = projectID then { b with isDefault := false } else b }

def setDefaultBranch (db : DB H) (projectID branchID : ID) : DB H :=
  updateBranch (removeDefault db projectID) projectID branchID fun b =>
    { b with isDefault := true }

def liveBranches (db : DB H) (projectID : ID) : List Branch :=
  db.branches.filter fun b => b.projectID = projectID && !b.deleted

end Rows

/-! ## Operations -/

def validateBranchName (name : Str) : Except DomainError Unit :=
  if name = [] then .error (errUser "branch name must not be empty" [])
  else if '/' ∈ name then .error (errUser "invalid branch name %q" [name])
  else if name = ['.'] ∨ name = ['.', '.'] then .error (errUser "invalid branch name %q" [name])
  else if name.any fun c => c.val ≤ 0x20 || c.val = 0x7f then
    .error (errUser "invalid branch name %q" [name])
  else .ok ()

/-- Where a new branch starts: a commit, or the head of a branch. -/
structure BranchForkPoint (H : Type) where
  branchName : Str
  commitID : Option ID
  commitHash : Option H

section Operations

variable {H : Type}

def branchByName (db : DB H) (projectID : ID) (name : Str) : Except DomainError Branch :=
  orError (db.getBranchByName projectID name) (errNotFound "branch %q not found" [name])

/-- Protected branches are managed by admins. -/
def requireBranchManage (caller : Caller) (branch : Branch) : Except DomainError Unit :=
  if branch.isProtected then refuseIf (caller.perm.adminHasProject = false) errNoPermission
  else refuseIf (caller.perm.hasProjectAccess .write = false) errNoPermission

def resolveForkPoint [DecidableEq H] [HashScheme H] (db : DB H) (projectID : ID)
    (fork : BranchForkPoint H) :
    Except DomainError (Option ID) :=
  match fork.commitID with
  | some id => do
      let notFound := errNotFound "commit %s not found" [base36 id]
      let commit ← orError (db.getCommit id) notFound
      refuseIf (commit.projectID ≠ projectID) notFound
      return some commit.id
  | none =>
      match fork.commitHash with
      | some h => do
          let notFound := errNotFound "commit %s not found" [hashString h]
          let commit ← orError (db.getCommitByHash h) notFound
          refuseIf (commit.projectID ≠ projectID) notFound
          return some commit.id
      | none =>
          if fork.branchName ≠ [] then do
            let branch ← branchByName db projectID fork.branchName
            return branch.commitID
          else
            match getDefaultBranch db projectID with
            | none => .ok none
            | some branch => .ok branch.commitID

def createBranch [DecidableEq H] [HashScheme H] (db : DB H) (caller : Caller) (newID projectID : ID)
    (name : Str) (fork : BranchForkPoint H) : Except DomainError (DB H) := do
  refuseIf (caller.perm.hasProjectAccess .write = false) errNoPermission
  let name := trimSpace name
  validateBranchName name
  refuseIf (db.getBranchByName projectID name ≠ none)
    (errConflict "branch %q already exists" [name])
  let fromCommitID ← resolveForkPoint db projectID fork
  insertBranch db
    { id := newID
      projectID := projectID
      name := name
      isProtected := false
      isDefault := decide (liveBranches db projectID = [])
      commitID := fromCommitID
      deleted := false }

def renameBranch (db : DB H) (caller : Caller) (projectID : ID) (name newName : Str) :
    Except DomainError (DB H) := do
  let branch ← branchByName db projectID name
  requireBranchManage caller branch
  let newName := trimSpace newName
  validateBranchName newName
  if newName = branch.name then return db
  else
    refuseIf (db.getBranchByName projectID newName ≠ none)
      (errConflict "branch %q already exists" [newName])
    return updateBranch db projectID branch.id fun b => { b with name := newName }

def deleteBranch (db : DB H) (caller : Caller) (projectID : ID) (name : Str)
    (hasOpen : Bool) : Except DomainError (DB H) := do
  let branch ← branchByName db projectID name
  requireBranchManage caller branch
  refuseIf (branch.isDefault = true) (errConflict "cannot delete the default branch %q" [name])
  refuseIf (branch.isProtected = true)
    (errConflict "branch %q is protected; unprotect it before deleting" [name])
  refuseIf ((liveBranches db projectID).length ≤ 1)
    (errConflict "cannot delete the last branch" [])
  refuseIf (hasOpen = true) (errConflict "branch %q has open merge requests" [name])
  return releaseBranch
    (updateBranch db projectID branch.id fun b => { b with deleted := true })
    projectID branch.id

def setDefault (db : DB H) (caller : Caller) (projectID : ID) (name : Str) :
    Except DomainError (DB H) := do
  refuseIf (caller.perm.adminHasProject = false) errNoPermission
  let branch ← branchByName db projectID name
  if branch.isDefault then return db
  else return setDefaultBranch db projectID branch.id

end Operations

/-! ## What the operations leave alone -/

/-- Only branches differ. -/
structure BranchesOnly {H : Type} (db db' : DB H) : Prop extends DB.SameTrees db db' where
  fileLocks_eq : db'.fileLocks = db.fileLocks

section Spec

variable {H : Type} {db db' : DB H} {caller : Caller} {newID projectID : ID} {name : Str}

theorem createBranch_branchesOnly [DecidableEq H] [HashScheme H] {fork : BranchForkPoint H}
    (h : createBranch db caller newID projectID name fork = .ok db') : BranchesOnly db db' := by
  rw [createBranch] at h
  simp only [bind_eq_ok, insertBranch, pure_eq_ok] at h
  obtain ⟨_, -, _, -, _, -, _, -, _, -, rfl⟩ := h
  exact ⟨⟨rfl, rfl, rfl⟩, rfl⟩

theorem renameBranch_branchesOnly {newName : Str}
    (h : renameBranch db caller projectID name newName = .ok db') : BranchesOnly db db' := by
  rw [renameBranch] at h
  simp only [bind_eq_ok] at h
  obtain ⟨_, -, _, -, _, -, h⟩ := h
  split at h
  · obtain rfl := pure_eq_ok.mp h
    exact ⟨⟨rfl, rfl, rfl⟩, rfl⟩
  · simp only [bind_eq_ok, pure_eq_ok] at h
    obtain ⟨_, -, rfl⟩ := h
    exact ⟨⟨rfl, rfl, rfl⟩, rfl⟩

theorem deleteBranch_ok {hasOpen : Bool}
    (h : deleteBranch db caller projectID name hasOpen = .ok db') :
    DB.SameTrees db db' ∧ ∃ branch, branchByName db projectID name = .ok branch ∧
      db'.fileLocks = (releaseBranch db projectID branch.id).fileLocks := by
  rw [deleteBranch] at h
  simp only [bind_eq_ok, pure_eq_ok] at h
  obtain ⟨branch, hbranch, _, -, _, -, _, -, _, -, _, -, rfl⟩ := h
  exact ⟨⟨rfl, rfl, rfl⟩, branch, hbranch, rfl⟩

theorem setDefault_branchesOnly (h : setDefault db caller projectID name = .ok db') :
    BranchesOnly db db' := by
  rw [setDefault] at h
  simp only [bind_eq_ok] at h
  obtain ⟨_, -, branch, -, h⟩ := h
  split at h
  · obtain rfl := pure_eq_ok.mp h
    exact ⟨⟨rfl, rfl, rfl⟩, rfl⟩
  · obtain rfl := pure_eq_ok.mp h
    exact ⟨⟨rfl, rfl, rfl⟩, rfl⟩

end Spec

end Nipa
