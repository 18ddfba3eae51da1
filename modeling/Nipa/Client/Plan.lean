import Nipa.Manifests
import Nipa.Store.Rehash
import Nipa.Client.DryRun

/-!
# Merge and revert commands, dry or not

The real commands go on from the applied merge: they save a snapshot and the
pending state, fast-forward, or push and start the next round on what they
computed.  A dry run stops after the computation, or goes on to the next round of
a revert with the file map it computed, and returns a plan of the changes.

Each command is an attempt on the local state.  Beside what the source returns, it
returns the file map it came to and the calls that the server accepted.  What the
server answers is an input of the command; a command asks for the head of the branch
only before it moves it.
-/

namespace Nipa.Client

open Support Merge

/-! ## Plans -/

inductive PlanStatus where
  | added
  | modified
  | deleted
  deriving DecidableEq

structure PlanChange where
  path : Str
  status : PlanStatus
  binary : Bool
  sizeBytes : ℤ
  deriving DecidableEq

section Plans

variable {H : Type} [DecidableEq H]

def planChange (path : Str) (status : PlanStatus) (f : Entry H) : PlanChange :=
  ⟨path, status, f.isBinary, f.sizeBytes⟩

/-- How a file of the new state differs from the old one. -/
def changeAt (oldFiles : GoMap (Entry H)) (path : Str) (f : Entry H) : Option PlanChange :=
  match oldFiles.lookup path with
  | none => some (planChange path .added f)
  | some old =>
      if old.hash ≠ f.hash ∨ old.mode ≠ f.mode then some (planChange path .modified f) else none

end Plans

/-! ## What the server answers -/

section Answers

variable {H : Type} [HashScheme H]

/-- The commit ids among some texts. -/
def commitIDs (ids : List Str) : List Str :=
  ids.filter fun id => id ≠ []

/-- The answers to a merge command; `forward` moves the target and reads its head. -/
structure MergeAnswers (H : Type) where
  session : Except DomainError Unit
  info : Except DomainError (MergeBaseInfo H)
  target : Except DomainError (Manifest H)
  source : Except DomainError (Manifest H)
  forward : Except DomainError (Manifest H × TextField ID)
  push : PushServer H

structure CommitDetail (H : Type) where
  id : Str
  parent1ID : Str
  parent2ID : Str
  tree : GoMap (Entry H)

/-- The answers to a revert command. -/
structure RevertAnswers (H : Type) where
  session : Except DomainError Unit
  branch : Except DomainError (TextField ID)
  headTree : Except DomainError (Option (Manifest H))
  getCommit : Str → Except DomainError (CommitDetail H)
  push : CommitRef → PushServer H

def parentIDOf (detail : CommitDetail H) (mainline : ℕ) : Str :=
  if detail.parent1ID = [] ∧ detail.parent2ID = [] then []
  else if detail.parent2ID = [] then detail.parent1ID
  else if mainline = 2 then detail.parent2ID
  else detail.parent1ID

def parentTree (a : RevertAnswers H) (detail : CommitDetail H) (mainline : ℕ) :
    Except DomainError (GoMap (Entry H)) :=
  if parentIDOf detail mainline = [] then .ok ∅
  else do
    let parent ← a.getCommit (parentIDOf detail mainline)
    return parent.tree

/-- The base of a round, the tree it goes back to and the commits whose chunks it
needs. -/
structure RoundTrees (H : Type) where
  tree : GoMap (Entry H)
  theirs : GoMap (Entry H)
  scope : List Str

def roundTrees (a : RevertAnswers H) (headID : Str) (mainline : ℕ) (target : CommitRef) :
    Except DomainError (RoundTrees H) := do
  let detail ← a.getCommit target.id
  let theirs ← parentTree a detail mainline
  return ⟨detail.tree, theirs, commitIDs [detail.id, parentIDOf detail mainline, headID]⟩

variable [DecidableEq H]

end Answers

/-! ## Pushing and fetching on the local state -/

section Local

variable {H S : Type} [HashScheme H] [DecidableEq H]

end Local

/-! ## Merges -/

section Merges

variable {H S : Type} [HashScheme H] [DecidableEq H]

/-- What a merge command came to; `files` is the resulting file map. -/
inductive MergeResult (H : Type) where
  | upToDate
  | forwarded (files : GoMap (Entry H))
  | merged (files : GoMap (Entry H)) (conflicts : List Str)

def MergeResult.conflicts : MergeResult H → List Str
  | .merged _ conflicts => conflicts
  | _ => []

def planFastForward (a : MergeAnswers H) :
    Attempt (LocalState H S) DomainError (GoMap (Entry H) × MergeResult H) := do
  let target ← Attempt.lift a.target
  let source ← Attempt.lift a.source
  return (target.files, .forwarded source.files)

end Merges

/-! ## Reverts -/

section Reverts

variable {H S : Type} [HashScheme H] [DecidableEq H]

/-- How a round ends: stopped on conflicts, or ready for the next. -/
inductive RoundEnd (H : Type) where
  | stopped (files : GoMap (Entry H)) (conflicts : List Str)
  | next (st : RevertState) (files : GoMap (Entry H)) (changed : Bool)
      (sent : Option (PushCall H))

end Reverts

end Nipa.Client
