import Nipa.Store.Tables
import Nipa.Support.Checks

/-!
# File locks

The lock table and the gates that consult it.  A lock is scoped to a branch, or
to the whole project when the branch is the default one, and covers its path
and everything below it.  A conflict error carries the path it is about; the
holder's display name and the time of the lock are left out.
-/

namespace Nipa

open Support

/-- The scope of a branch's locks: none stands for the mainline. -/
def branchScopeID (branch : Branch) : Option ID :=
  if branch.isDefault then none else some branch.id

def findCoveringLock (locks : List FileLock) (scopeID : Option ID) (path : Str) :
    Option FileLock :=
  locks.find? fun l => l.branchID = scopeID && prefixCovers l.path path

def lockConflictError (path : Str) : DomainError :=
  errConflict "%q is locked by %s on %s%s since %s" [path]

/-- Every required path is covered by a lock of the holder. -/
def ensureRequired (locks : List FileLock) (scopeID : Option ID) (holder : ID) :
    List Str → Except DomainError Unit
  | [] => .ok ()
  | path :: rest => do
      let lock ← orError (findCoveringLock locks scopeID path)
        (errConflict "binary file %q requires a lock; run `nipa lock %s` first"
          [path, path])
      refuseIf (lock.heldBy ≠ holder) (lockConflictError path)
      ensureRequired locks scopeID holder rest

/-- No checked path is covered by a lock of somebody else. -/
def ensureChecked (locks : List FileLock) (scopeID : Option ID) (holder : ID) :
    List Str → Except DomainError Unit
  | [] => .ok ()
  | path :: rest => do
      refuseIf (∃ lock ∈ findCoveringLock locks scopeID path, lock.heldBy ≠ holder)
        (lockConflictError path)
      ensureChecked locks scopeID holder rest

section Gates

variable {H : Type}

/-- The gate of pushes and fast-forwards. -/
def ensureLocks (db : DB H) (projectID : ID) (branch : Branch)
    (required checked : List Str) (holder : ID) : Except DomainError Unit :=
  if required = [] ∧ checked = [] then .ok ()
  else do
    let locks := db.listProject projectID
    ensureRequired locks (branchScopeID branch) holder required
    ensureChecked locks (branchScopeID branch) holder checked

/-- Drop the holder's own locks on exactly the landed paths. -/
def releaseLanded (db : DB H) (projectID : ID) (branch : Branch) (paths : List Str)
    (holder : ID) : DB H :=
  { db with
    fileLocks := db.fileLocks.filter fun l =>
      !(l.projectID = projectID && l.branchID = branchScopeID branch &&
        l.heldBy = holder && l.mergeRequestID = none && paths.contains l.path) }

end Gates

theorem ensureRequired_ok {locks : List FileLock} {scopeID : Option ID} {holder : ID}
    {paths : List Str} (h : ensureRequired locks scopeID holder paths = .ok ()) :
    ∀ p ∈ paths, ∃ l ∈ locks, l.branchID = scopeID ∧ prefixCovers l.path p ∧
      l.heldBy = holder := by
  induction paths with
  | nil => simp
  | cons p rest ih =>
      rw [ensureRequired] at h
      simp only [bind_eq_ok, refuseIf_eq_ok, orError_eq_ok, not_not] at h
      obtain ⟨l, hl, _, hholder, hrest⟩ := h
      intro q hq
      rcases List.mem_cons.mp hq with rfl | hq
      · have hcond := List.find?_some hl
        rw [Bool.and_eq_true, decide_eq_true_eq] at hcond
        exact ⟨l, List.mem_of_find?_eq_some hl, hcond.1, hcond.2, hholder⟩
      · exact ih hrest q hq

theorem ensureChecked_ok {locks : List FileLock} {scopeID : Option ID} {holder : ID}
    {paths : List Str} (h : ensureChecked locks scopeID holder paths = .ok ()) :
    ∀ p ∈ paths, ∀ l ∈ findCoveringLock locks scopeID p, l.heldBy = holder := by
  induction paths with
  | nil => simp
  | cons p rest ih =>
      rw [ensureChecked] at h
      simp only [bind_eq_ok, refuseIf_eq_ok] at h
      obtain ⟨_, hfree, hrest⟩ := h
      intro q hq l hl
      rcases List.mem_cons.mp hq with rfl | hq
      · by_contra hne
        exact hfree ⟨l, hl, hne⟩
      · exact ih hrest q hq l hl

end Nipa
