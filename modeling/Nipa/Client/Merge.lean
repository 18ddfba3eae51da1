import Nipa.Client.Push

/-!
# Merging in the working copy

A merge of a branch into the checked out one is up to date, a fast-forward or a
true merge.  A true merge that stops on conflicts saves the merged files as the
snapshot and leaves the rest to the user; one without conflicts is pushed at
once, on the snapshot from before the merge.  An abort brings the working copy
back to the branch head.

What the server answers is an input of each command: the merge base and the two
heads, the outcome of the push, the head at the time of an abort.
-/

namespace Nipa.Client

open Support Merge

/-- The text of a field. -/
def fieldText {α : Type} : TextField α → Str
  | .empty => []
  | .invalid raw => raw
  | .value raw _ => raw

/-- The server's answer about the two heads and their merge base. -/
structure MergeBaseInfo (H : Type) where
  mergeBaseCommitID : TextField ID
  targetCommitID : TextField ID
  sourceCommitID : TextField ID
  sourceCommitHash : TextField H
  mergeBase : GoMap (Entry H)

structure MergeOptions where
  ffOnly : Bool
  noFF : Bool
  message : Str

/-- How a merge command ended; a failed push leaves the merge pending. -/
inductive MergeOutcome (H : Type) where
  | upToDate
  | fastForwarded (c : Repo H)
  | conflicts (c : Repo H)
  | committed (c : Repo H)
  | pushFailed (c : Repo H) (e : DomainError)

section Merge

variable {H : Type} [HashScheme H]

/-- The hash text of a tree that was put together locally. -/
def localTreeHash (H : Type) [HashScheme H] : Str :=
  hashString (HashScheme.zero : H)

def mergeMessage (sourceBranch targetBranch message : Str) : Str :=
  if trimSpace message = [] then
    "Merge branch '".toList ++ sourceBranch ++ "' into '".toList ++ targetBranch ++ "'".toList
  else message

/-- The working copy after a merge without conflicts was applied; the snapshot is the
one from before the merge. -/
def mergedCopy (c : Repo H) (info : MergeBaseInfo H) (target : Manifest H) (disk : Disk)
    (applied : ThreeWayResult H) : Repo H :=
  { c with
    disk := disk
    staged := stageAddMany c.staged applied.staged
    merge := some
      { sourceCommitHash := info.sourceCommitHash
        targetTreeHash := target.hash
        targetCommitID := info.targetCommitID
        conflicts := applied.conflicted
        conflictKinds := ∅
        conflictBinary := []
        resolved := [] } }

/-- The working copy after a merge stopped on conflicts. -/
def stoppedCopy (c : Repo H) (info : MergeBaseInfo H) (target : Manifest H) (disk : Disk)
    (applied : ThreeWayResult H) : Repo H :=
  { c with
    disk := disk
    staged := stageAddMany c.staged applied.staged
    snapshot := saveTree (localTreeHash H) applied.files
    merge := some
      { sourceCommitHash := info.sourceCommitHash
        targetTreeHash := target.hash
        targetCommitID := info.targetCommitID
        conflicts := applied.conflicted
        conflictKinds := applied.kinds
        conflictBinary := applied.binary
        resolved := [] } }

variable [DecidableEq H]

def trueMerge (codec : Codec H) (session : Except DomainError Unit) (server : PushServer H)
    (c : Repo H) (info : MergeBaseInfo H) (target : Manifest H) (source : GoMap (Entry H))
    (message : Str) : Except DomainError (MergeOutcome H) := do
  let (disk, applied) ← applyThreeWay codec c.snapshot c.disk target.files
    (threeWay info.mergeBase target.files source)
  if applied.conflicted ≠ [] then
    return .conflicts (stoppedCopy c info target disk applied)
  else
    let c := mergedCopy c info target disk applied
    match runPush codec session server c message with
    | .ok c => return .committed c
    | .error e => return .pushFailed c e

/-- Bring the working copy to a head after the server moved the branch there. -/
def fastForward (codec : Codec H) (c : Repo H) (head : Manifest H) (commit : TextField ID) :
    Except DomainError (Repo H) := do
  let disk ← syncWorkingCopy codec c.snapshot c.disk head.files
  return { c with
    disk := disk
    snapshot := saveTree head.hash head.files
    commit := commit }

/-- A merge command up to the true merge, which is carried out by `carryOut`. -/
def mergeWith (codec : Codec H) (session : Except DomainError Unit)
    (forward : Except DomainError (Manifest H × TextField ID)) (c : Repo H)
    (sourceBranch : Str) (info : MergeBaseInfo H) (opts : MergeOptions)
    (carryOut : Except DomainError (MergeOutcome H)) :
    Except DomainError (MergeOutcome H) := do
  refuseIf (trimSpace sourceBranch = []) (errUser "a source branch is required to merge" [])
  refuseIf (opts.ffOnly = true ∧ opts.noFF = true)
    (errUser "--ff-only and --no-ff are mutually exclusive" [])
  session
  refuseIf (c.merge.isSome = true) (errUser ("a merge is already in progress; " ++
    "resolve the conflicts and push, or run nipa merge --abort") [])
  refuseIf (c.staged ≠ [])
    (errUser "cannot merge with staged changes; push or reset them first" [])
  refuseIf (fieldText info.sourceCommitID = [])
    (errUser "branch %q has no commits to merge" [sourceBranch])
  if fieldText info.mergeBaseCommitID = fieldText info.sourceCommitID then
    return .upToDate
  let ffPossible := fieldText info.mergeBaseCommitID = fieldText info.targetCommitID
  refuseIf (opts.ffOnly = true ∧ ¬ ffPossible) (errUser ("cannot fast-forward; " ++
    "the target branch has moved since the branches diverged") [])
  if ffPossible ∧ opts.noFF = false then
    let (head, commit) ← forward
    let c ← fastForward codec c head commit
    return .fastForwarded c
  else carryOut

def runMerge (codec : Codec H) (session : Except DomainError Unit) (server : PushServer H)
    (forward : Except DomainError (Manifest H × TextField ID)) (c : Repo H)
    (sourceBranch targetBranch : Str) (info : MergeBaseInfo H) (target : Manifest H)
    (source : GoMap (Entry H)) (opts : MergeOptions) :
    Except DomainError (MergeOutcome H) :=
  mergeWith codec session forward c sourceBranch info opts
    (trueMerge codec session server c info target source
      (mergeMessage sourceBranch targetBranch opts.message))

def abortMerge (codec : Codec H) (session : Except DomainError Unit) (c : Repo H)
    (head : Manifest H) : Except DomainError (Repo H) := do
  refuseIf (c.merge.isNone = true) (errUser "no merge in progress to abort" [])
  session
  let disk ← syncWorkingCopy codec c.snapshot c.disk head.files
  return { c with
    disk := disk
    snapshot := saveTree head.hash head.files
    staged := []
    merge := none
    commit := .empty }

/-! ## How a merge ends -/

variable {codec : Codec H} {session : Except DomainError Unit} {server : PushServer H}
  {c : Repo H} {info : MergeBaseInfo H} {target : Manifest H} {source : GoMap (Entry H)}
  {message : Str} {outcome : MergeOutcome H}

theorem trueMerge_ok
    (h : trueMerge codec session server c info target source message = .ok outcome) :
    ∃ disk applied, applyThreeWay codec c.snapshot c.disk target.files
        (threeWay info.mergeBase target.files source) = .ok (disk, applied) ∧
      ((applied.conflicted ≠ [] ∧
          outcome = .conflicts (stoppedCopy c info target disk applied)) ∨
        (applied.conflicted = [] ∧
          ((∃ c', runPush codec session server (mergedCopy c info target disk applied)
              message = .ok c' ∧ outcome = .committed c') ∨
            ∃ e, outcome = .pushFailed (mergedCopy c info target disk applied) e))) := by
  rw [trueMerge] at h
  obtain ⟨⟨disk, applied⟩, happlied, h⟩ := bind_eq_ok.mp h
  refine ⟨disk, applied, happlied, ?_⟩
  dsimp only at h
  split at h
  next hconflicts => exact Or.inl ⟨hconflicts, (pure_eq_ok.mp h).symm⟩
  next hnone =>
    refine Or.inr ⟨by simpa using hnone, ?_⟩
    split at h
    next c' hpush => exact Or.inl ⟨c', hpush, (pure_eq_ok.mp h).symm⟩
    next e hpush => exact Or.inr ⟨e, (pure_eq_ok.mp h).symm⟩

theorem runMerge_ok {forward : Except DomainError (Manifest H × TextField ID)}
    {sourceBranch targetBranch : Str} {opts : MergeOptions}
    (h : runMerge codec session server forward c sourceBranch targetBranch info target source
      opts = .ok outcome) :
    outcome = .upToDate ∨ (∃ c', outcome = .fastForwarded c') ∨
      (c.staged = [] ∧ trueMerge codec session server c info target source
        (mergeMessage sourceBranch targetBranch opts.message) = .ok outcome) := by
  rw [runMerge, mergeWith] at h
  simp only [bind_eq_ok, refuseIf_eq_ok] at h
  obtain ⟨_, -, _, -, _, -, _, -, _, hstaged, _, -, h⟩ := h
  split at h
  · exact Or.inl (pure_eq_ok.mp h).symm
  · simp only [bind_eq_ok] at h
    obtain ⟨_, -, h⟩ := h
    split at h
    · obtain ⟨_, -, h⟩ := bind_eq_ok.mp h
      obtain ⟨c', -, h⟩ := bind_eq_ok.mp h
      exact Or.inr (Or.inl ⟨c', (pure_eq_ok.mp h).symm⟩)
    · exact Or.inr (Or.inr ⟨by simpa using hstaged, h⟩)

end Merge

end Nipa.Client
