import Nipa.Branches
import Nipa.Merge.ThreeWay
import Nipa.Merge.MergeBase
import Nipa.TreeWalk

/-!
# Landing a branch on another

The server lands a source branch on a target branch by moving the target head
(fast-forward) or by authoring commits on it: one for a merge or a squash, one
for every replayed commit of a rebase.  The new commits are built from the
target head and written in one transaction.  As with a push, the stages are
separate functions because other requests can run between them.

Chunk content is outside the database; reading, merging as text and encoding
it are fields of `ContentStore`.
-/

namespace Nipa

open Support Merge

/-- Chunk content and what the server does with it. -/
structure ContentStore (H : Type) where
  get : H → Except DomainError (List UInt8)
  put : Chunk H → Except DomainError Unit
  decode : Str → List UInt8 → Except DomainError (List UInt8)
  encodeBytes : List UInt8 → Str → Except DomainError (Str × List (Chunk H))
  mergeText : List UInt8 → List UInt8 → List UInt8 → List UInt8 × Bool

inductive MergeStrategy where
  | ff
  | merge
  | squash
  | rebase
  deriving DecidableEq

/-- The strategy a request names; an empty one is a fast-forward. -/
def parseStrategy (s : Str) : Except DomainError MergeStrategy :=
  if s = [] ∨ s = "ff".toList then .ok .ff
  else if s = "merge".toList then .ok .merge
  else if s = "squash".toList then .ok .squash
  else if s = "rebase".toList then .ok .rebase
  else .error (errUser "strategy must be one of ff, merge, squash, rebase" [])

structure MergeCommitOptions where
  strategy : MergeStrategy
  message : Str
  author : ID
  sourceCommitID : Option ID

def rebaseCommitLimit : ℕ := 1000

def mergeConflictLimit : ℕ := 10

def conflictError (paths : List Str) (pre : Str) : DomainError :=
  let paths := paths.insertionSort (· ≤ ·)
  let pre := if pre = [] then [] else pre ++ ": ".toList
  if paths.length > mergeConflictLimit then
    errConflict "%smerge conflicts in %s (+%d more)"
      [pre, (", ".toList).intercalate (paths.take mergeConflictLimit),
        (toString (paths.length - mergeConflictLimit)).toList]
  else
    errConflict "%smerge conflicts in %s" [pre, (", ".toList).intercalate paths]

def errSourceChanged (sourceBranch : Str) : DomainError :=
  errConflict "source branch %q changed since the merge request was checked; review it again"
    [sourceBranch]

section Branches

variable {H : Type}

/-- Move a live branch from one commit to another; unlike the write of a push
this fails when the branch has moved. -/
def updateCommitIf (db : DB H) (branchID fromCommitID toCommitID : ID) :
    Except DomainError (DB H) := do
  refuseIf (¬ ∃ b ∈ db.branches,
      b.id = branchID ∧ b.deleted = false ∧ b.commitID = some fromCommitID)
    (errConflict "branch has moved; refresh and try again" [])
  return { db with
    branches := db.branches.map fun b =>
      if b.id = branchID ∧ b.deleted = false ∧ b.commitID = some fromCommitID then
        { b with commitID := some toCommitID }
      else b }

end Branches

/-! ## Fast-forward -/

section FastForward

variable {H : Type} [DecidableEq H] [HashScheme H]

def binaryChanges (db : DB H) (projectID : ID) (fromCommitID toCommitID : Option ID) :
    Except DomainError (List (Diff.Change H)) := do
  let all ← commitChanges db projectID fromCommitID toCommitID
  return all.filter fun c => c.old.isBinary || c.new.isBinary

def binaryChangesBetween (db : DB H) (projectID : ID) (fromCommitID toCommitID : Option ID) :
    Except DomainError (List Str) := do
  let changes ← binaryChanges db projectID fromCommitID toCommitID
  return changes.map Diff.Change.path

/-- Changed and removed binaries need a lock, added ones are checked. -/
def binaryLockPlan (db : DB H) (projectID : ID) (fromCommitID toCommitID : Option ID) :
    Except DomainError PushLockPlan := do
  let changes ← binaryChanges db projectID fromCommitID toCommitID
  return ⟨(changes.filter fun c => c.status ≠ .added).map Diff.Change.path,
    (changes.filter fun c => c.status = .added).map Diff.Change.path⟩

/-- A landing between two branch rows, as it was read. -/
structure Landing where
  projectID : ID
  targetBranch : Str
  sourceBranch : Str
  target : Branch
  targetHead : ID
  sourceHead : ID
  deriving DecidableEq

/-- The first read of a fast-forward and of a landing: the target row. -/
def readTarget (db : DB H) (caller : Caller) (projectID : ID) (targetBranch : Str) :
    Except DomainError Branch := do
  refuseIf (caller.perm.hasProjectAccess .write = false) errNoPermission
  branchByName db projectID targetBranch

/-- Read the source row and check the two rows. -/
def openFastForward (db : DB H) (caller : Caller) (projectID : ID)
    (targetBranch sourceBranch : Str) (allowProtected : Bool) (pinnedSource : Option ID)
    (target : Branch) : Except DomainError Landing := do
  let source ← branchByName db projectID sourceBranch
  refuseIf (target.isProtected = true ∧ allowProtected = false)
    (errForbidden "branch %q is protected; land changes through a merge request"
      [targetBranch])
  refuseIf (target.isProtected = true ∧ caller.perm.adminHasProject = false) errNoPermission
  let sourceHead ← orError source.commitID
    (errConflict "cannot fast-forward branch %q: source branch %q has no commits"
      [targetBranch, sourceBranch])
  let targetHead ← orError target.commitID
    (errConflict "cannot fast-forward empty branch %q" [targetBranch])
  refuseIf (∃ pinned ∈ pinnedSource, sourceHead ≠ pinned) (errSourceChanged sourceBranch)
  return ⟨projectID, targetBranch, sourceBranch, target, targetHead, sourceHead⟩

/-- The checks of a fast-forward; a landing of a merge request takes its locks
elsewhere. -/
def planFastForward (db : DB H) (caller : Caller) (land : Landing) (allowProtected : Bool) :
    Except DomainError (PushLockPlan × ID) := do
  let base ← findMergeBase db (some land.targetHead) (some land.sourceHead)
  refuseIf (base ≠ some land.targetHead)
    (errConflict "cannot fast-forward branch %q: branches have diverged" [land.targetBranch])
  ensureTreeWrites db caller.perm land.projectID land.targetHead land.sourceHead
  if allowProtected then return (⟨[], []⟩, 0)
  else
    let actor ← orError caller.claim errNoPermission
    let plan ← binaryLockPlan db land.projectID (some land.targetHead) (some land.sourceHead)
    ensureLocks db land.projectID land.target plan.required plan.checked actor
    return (plan, actor)

/-- A fast-forward that runs without interruption. -/
def fastForward (db : DB H) (caller : Caller) (projectID : ID)
    (targetBranch sourceBranch : Str) (allowProtected : Bool) (pinnedSource : Option ID) :
    Except DomainError (DB H) := do
  let target ← readTarget db caller projectID targetBranch
  let land ← openFastForward db caller projectID targetBranch sourceBranch allowProtected
    pinnedSource target
  let (plan, actor) ← planFastForward db caller land allowProtected
  let db' ← updateCommitIf db land.target.id land.targetHead land.sourceHead
  return releaseLanded db' projectID land.target plan.landed actor

end FastForward

/-! ## Merged file sets -/

section Content

variable {H : Type} [HashScheme H]

def loadMergedContent (store : ContentStore H) (file : Entry H) :
    Except DomainError (List UInt8) := do
  let parts ← file.chunkHashes.mapM store.get
  store.decode file.encoding parts.flatten

variable [DecidableEq H]

/-- Store content the server produced; its row is recorded once. -/
def upload (store : ContentStore H) (db : DB H) (c : Chunk H) : Except DomainError (DB H) := do
  store.put c
  return if ∃ c' ∈ db.chunks, c'.hash = c.hash then db
    else { db with chunks := db.chunks ++ [c] }

def storeMergedContent (store : ContentStore H) (db : DB H) (path : Str) (mode : ℕ)
    (content : List UInt8) : Except DomainError (DB H × Entry H × List (Chunk H)) := do
  let (encoding, chunks) ← store.encodeBytes content path
  let db' ← chunks.foldlM (upload store) db
  let hashes := chunks.map Chunk.hash
  return (db', ⟨path, mode, content.length, false, encoding, fileHash hashes, hashes,
    chunks.map Chunk.sizeBytes⟩, chunks)

/-- Apply one decision to the file set. -/
def materializeEntry (store : ContentStore H)
    (acc : DB H × GoMap (Entry H) × List (Chunk H)) (path : Str) (entry : Decided H) :
    Except DomainError (DB H × GoMap (Entry H) × List (Chunk H)) :=
  let (db, merged, stored) := acc
  match entry.decision with
  | .keepTheirs => .ok (db, merged.insert path entry.theirs, stored)
  | .textMerge => do
      let baseData ← loadMergedContent store entry.base
      let oursData ← loadMergedContent store entry.ours
      let theirsData ← loadMergedContent store entry.theirs
      let (content, conflicted) := store.mergeText baseData oursData theirsData
      refuseIf (conflicted = true) (conflictError [path] [])
      let (db', file, chunks) ← storeMergedContent store db path entry.theirs.mode content
      return (db', merged.insert path file, stored ++ chunks)
  | _ => .ok acc

/-- Apply a three-way result to the current file set.  The decisions are at
different paths, so their order does not matter. -/
def materialize (store : ContentStore H) (db : DB H) (result : Result H)
    (current : GoMap (Entry H)) :
    Except DomainError (DB H × GoMap (Entry H) × List (Chunk H)) := do
  let (db', merged, stored) ← result.entries.entries.foldlM
    (fun acc e => materializeEntry store acc e.1 e.2) (db, current, [])
  return (db', result.deleted.foldl (fun m p => m.erase p) merged, stored)

/-- A commit's complete tree. -/
def mergeTree (db : DB H) (projectID commitID : ID) :
    Except DomainError (GoMap (Entry H)) := do
  let commit ← commitByIDInProject db projectID commitID
  let root ← getTreeNode db commit.treeID
  return (loadTreeManifest db true allowAllFilter [] db.treeDepth root []).elim ∅ fromTree

def mergeTreeOf (db : DB H) (projectID : ID) : Option ID →
    Except DomainError (GoMap (Entry H))
  | none => .ok ∅
  | some commitID => mergeTree db projectID commitID

def conflictPaths (result : Result H) : List Str :=
  result.conflicts.map Conflict.path

/-- One three-way merge onto the current file set. -/
def mergeOnto (store : ContentStore H) (db : DB H) (base ours theirs : GoMap (Entry H))
    (pre : Str) : Except DomainError (DB H × GoMap (Entry H) × List (Chunk H)) := do
  let result := threeWay base ours theirs
  refuseIf (result.conflicts ≠ []) (conflictError (conflictPaths result) pre)
  materialize store db result ours

/-- A merged file set as changed files and removed paths of the target. -/
def mergeDelta (target merged : GoMap (Entry H)) : List (PushFile H) × List Str :=
  let changed := merged.entries.filter fun e =>
    !(target.lookup e.1).any fun old => old.hash = e.2.hash && old.mode = e.2.mode
  (changed.map fun e => ⟨e.1, e.2.mode, e.2.sizeBytes, e.2.isBinary, e.2.encoding, e.2.hash,
      e.2.chunkHashes⟩,
    (target.keys.filter fun p => (merged.lookup p).isNone).insertionSort (· ≤ ·))

/-- Both file sets are walked: added and changed files, then removed ones. -/
def ensureMergedWrites (perm : PermissionUsecase) (target merged : GoMap (Entry H)) :
    Except DomainError Unit := do
  merged.entries.forM fun e =>
    if (target.lookup e.1).any fun old => old.hash = e.2.hash && old.mode = e.2.mode then
      .ok ()
    else refuseIf (perm.hasPathAccess e.1 .write = false) errNoPermission
  target.keys.forM fun p =>
    if (merged.lookup p).isSome then .ok ()
    else refuseIf (perm.hasPathAccess p .write = false) errNoPermission

end Content

/-! ## The commits of a landing -/

section Plan

variable {H : Type}

/-- Every commit reachable over both parents.  Each commit is expanded once and
puts at most two more on the stack, which bounds the number of rounds. -/
def reachLoop (db : DB H) (projectID : ID) :
    ℕ → List ID → List ID → Except DomainError (List ID)
  | 0, _, reached => .ok reached
  | _ + 1, [], reached => .ok reached
  | rounds + 1, id :: stack, reached =>
      if id ∈ reached then reachLoop db projectID rounds stack reached
      else do
        let commit ← commitByIDInProject db projectID id
        reachLoop db projectID rounds
          (commit.parent2ID.toList ++ commit.parent1ID.toList ++ stack) (id :: reached)

def reachableFrom (db : DB H) (projectID : ID) : Option ID → Except DomainError (List ID)
  | none => .ok []
  | some start => reachLoop db projectID (2 * db.commits.length + 2) [start] []

/-- The first-parent commits from a head down to a contained one, newest first;
`left` more of them may be taken. -/
def rebaseWalk (db : DB H) (projectID : ID) (contained : List ID) :
    ℕ → List ID → ID → Except DomainError (List (Commit H))
  | left, seen, current =>
      if current ∈ contained then .ok []
      else if current ∈ seen then .error (errInternalServer "commit graph cycle" [])
      else do
        let commit ← commitByIDInProject db projectID current
        match left with
        | 0 => .error (errUser "cannot rebase more than %d commits"
            [(toString rebaseCommitLimit).toList])
        | left + 1 =>
            match commit.parent1ID with
            | none => return [commit]
            | some parent =>
                let older ← rebaseWalk db projectID contained left (current :: seen) parent
                return commit :: older

/-- The commits to replay, oldest first. -/
def rebaseCommits (db : DB H) (projectID head : ID) (base : Option ID) :
    Except DomainError (List (Commit H)) := do
  let contained ← reachableFrom db projectID base
  let commits ← rebaseWalk db projectID contained rebaseCommitLimit [] head
  return commits.reverse

variable [DecidableEq H] [HashScheme H]

/-- A commit that is worked out but not written yet: the changes it makes to the
head it is built on, and the write request. -/
structure PlannedCommit (H : Type) where
  files : List (PushFile H)
  removed : List Str
  request : ApplyPushRequest H

/-- What a landing that is no fast-forward writes. -/
structure MergeWrite (H : Type) where
  commits : List (PlannedCommit H)
  merged : GoMap (Entry H)
  stored : List (Chunk H)

/-- One commit on the target with the merged file set as its tree. -/
def landingCommit (db : DB H) (projectID : ID) (target : Branch) (targetHead : Commit H)
    (targetTree merged : GoMap (Entry H)) (commitID : ID) (parentID parent2ID : Option ID)
    (parentHashes : List H) (userID : ID) (message : Str) :
    Except DomainError (PlannedCommit H) := do
  let (files, removed) := mergeDelta targetTree merged
  let root ← buildNewTree db (some targetHead) files removed
  return ⟨files, removed, buildApplyRequest commitID projectID target.id parentID parent2ID
    parentHashes userID message root⟩

/-- The commit of a merge or a squash. -/
def planMergeCommit (store : ContentStore H) (db : DB H) (land : Landing)
    (opts : MergeCommitOptions) (newID : ℕ → ID) (base : Option ID) (targetHead : Commit H)
    (targetTree : GoMap (Entry H)) : Except DomainError (DB H × MergeWrite H) := do
  let sourceHead ← commitByIDInProject db land.projectID land.sourceHead
  let baseTree ← mergeTreeOf db land.projectID base
  let theirs ← mergeTree db land.projectID land.sourceHead
  let (db', merged, stored) ← mergeOnto store db baseTree targetTree theirs []
  let message :=
    if trimSpace opts.message = [] then
      "Merge branch '".toList ++ land.sourceBranch ++ "' into ".toList ++ land.targetBranch
    else trimSpace opts.message
  let commit ← landingCommit db' land.projectID land.target targetHead targetTree merged
    (newID 0) (some land.targetHead)
    (if opts.strategy = .merge then some sourceHead.id else none)
    (if opts.strategy = .merge then [targetHead.hash, sourceHead.hash] else [targetHead.hash])
    opts.author message
  return (db', ⟨[commit], merged, stored⟩)

/-- Replay the commits one by one; every new commit is expressed as a delta
against the target head, not against the commit before it. -/
def replayCommits (store : ContentStore H) (land : Landing) (newID : ℕ → ID)
    (targetHead : Commit H) (targetTree : GoMap (Entry H)) :
    List (Commit H) → ℕ → ID → H → DB H → MergeWrite H → Except DomainError (DB H × MergeWrite H)
  | [], _, _, _, db, write => .ok (db, write)
  | commit :: rest, n, parentID, parentHash, db, write => do
      let commitBase ← mergeTreeOf db land.projectID commit.parent1ID
      let commitTree ← mergeTree db land.projectID commit.id
      let (db', current, added) ← mergeOnto store db commitBase write.merged commitTree
        ("commit ".toList ++ (hashString commit.hash).take 10)
      let next ← landingCommit db' land.projectID land.target targetHead targetTree current
        (newID n) (some parentID) none [parentHash] commit.userID commit.message
      replayCommits store land newID targetHead targetTree rest (n + 1) next.request.commitID
        next.request.commitHash db' ⟨write.commits ++ [next], current, write.stored ++ added⟩

/-- How a landing goes on after its planning. -/
inductive MergePlan (H : Type) where
  | fastForward
  | nothing
  | write (db : DB H) (w : MergeWrite H)

/-- Read the source row and check the two rows. -/
def openMerge (db : DB H) (caller : Caller) (projectID : ID)
    (targetBranch sourceBranch : Str) (opts : MergeCommitOptions) (target : Branch) :
    Except DomainError Landing := do
  let source ← branchByName db projectID sourceBranch
  refuseIf (target.isProtected = true ∧ caller.perm.adminHasProject = false) errNoPermission
  let sourceHead ← orError source.commitID
    (errConflict "cannot merge branch %q: source branch %q has no commits"
      [targetBranch, sourceBranch])
  refuseIf (∃ pinned ∈ opts.sourceCommitID, sourceHead ≠ pinned)
    (errSourceChanged sourceBranch)
  let targetHead ← orError target.commitID
    (errConflict "cannot merge into empty branch %q" [targetBranch])
  refuseIf (sourceHead = targetHead)
    (errConflict "source branch is already up to date with the target" [])
  return ⟨projectID, targetBranch, sourceBranch, target, targetHead, sourceHead⟩

/-- Work out the commits of a landing. -/
def planMerge (store : ContentStore H) (db : DB H) (caller : Caller) (land : Landing)
    (opts : MergeCommitOptions) (newID : ℕ → ID) : Except DomainError (MergePlan H) := do
  if opts.strategy = .ff then return .fastForward
  let base ← findMergeBase db (some land.targetHead) (some land.sourceHead)
  let targetHead ← commitByIDInProject db land.projectID land.targetHead
  let targetTree ← mergeTree db land.projectID land.targetHead
  if opts.strategy = .rebase then
    if base = some land.targetHead then return .fastForward
    let commits ← rebaseCommits db land.projectID land.sourceHead base
    if commits = [] then return .nothing
    let (db', write) ← replayCommits store land newID targetHead targetTree commits 0
      land.targetHead targetHead.hash db ⟨[], targetTree, []⟩
    ensureMergedWrites caller.perm targetTree write.merged
    return .write db' write
  else
    let (db', write) ← planMergeCommit store db land opts newID base targetHead targetTree
    ensureMergedWrites caller.perm targetTree write.merged
    return .write db' write

/-- Link the stored chunks to the project. -/
def attributeProjectChunks (db : DB H) (projectID : ID) (chunks : List (Chunk H)) : DB H :=
  { db with
    projectChunkUploads := chunks.foldl (fun links c =>
      if (projectID, c.hash) ∈ links then links else links ++ [(projectID, c.hash)])
      db.projectChunkUploads }

end Plan

end Nipa
