import Nipa.Chunker.RoundTrip
import Nipa.Review.Gate
import Nipa.Support.Programs
import Nipa.Text.Merge

/-!
# A landing as it runs

A landing that is no fast-forward merges files as text while it goes through the
changed paths, and stores each of them before it looks at the next.  Here it is a
program that acts on the chunk store and on the links of the project, so that what it
has stored is there when it is refused later.

The paths of a merge are in a Go map, which is gone through in any order.
-/

namespace Nipa.Merging

open Support Merge Chunker

/-- The database and the content of the chunks. -/
@[ext]
structure Repository (H : Type) where
  db : DB H
  content : H → Option (List UInt8)

inductive Action (H : Type) where
  | upload (hash : H) (data : List UInt8)
  | linkProjectChunk (projectID : ID) (hash : H)

/-- The orders in which the `n`-th merge of a landing goes through its entries. -/
structure MapOrder (H : Type) where
  entries : ℕ → GoMap (Decided H) → List (Σ _ : Str, Decided H)
  perm : ∀ n m, (entries n m).Perm m.entries

/-- What the landings of a server rest on. -/
structure Services (H : Type) where
  zstd : Zstd
  ledger : ID → List (Nipa.Chunk H) → Except DomainError Unit
  order : MapOrder H

section Run

variable {H : Type} [HashScheme H] [DecidableEq H]

/-! ## Actions -/

/-- Store content under its hash, with a row; what is there already stays. -/
def upload (hash : H) (data : List UInt8) (r : Repository H) :
    Except DomainError (Repository H) := do
  refuseIf (HashScheme.sum data ≠ hash)
    (errUser "chunk hash mismatch for %s" [hashString hash])
  return {
    db :=
      if ∃ c ∈ r.db.chunks, c.hash = hash then r.db
      else { r.db with chunks := r.db.chunks ++ [⟨hash, data.length⟩] }
    content :=
      if (r.content hash).isSome then r.content
      else Function.update r.content hash (some data) }

def linkProjectChunk (projectID : ID) (hash : H) (r : Repository H) : Repository H :=
  if (projectID, hash) ∈ r.db.projectChunkUploads then r
  else
    { r with
      db := { r.db with
        projectChunkUploads := r.db.projectChunkUploads ++ [(projectID, hash)] } }

def effect : Action H → Repository H → Except DomainError (Repository H)
  | .upload hash data, r => upload hash data r
  | .linkProjectChunk projectID hash, r => .ok (linkProjectChunk projectID hash r)

abbrev Run (H α : Type) : Type :=
  Program (Repository H) (Action H) DomainError α

/-! ## Merging -/

/-- The content there is, with the encoder and the text merge of the server. -/
def contentStore (z : Zstd) (r : Repository H) : ContentStore H where
  get h := orError (r.content h) (errNotFound "record not found" [])
  put _ := .ok ()
  decode := decode z
  encodeBytes content path :=
    ((encodeBytes z content path false []).mapError fun e =>
      errInternalServer "%v" [e.toList]).map fun (used, chunks) =>
        (used, chunks.map fun c : EncodedChunk H => ⟨c.hash, c.sizeBytes⟩)
  mergeText base ours theirs := (Text.mergeText base ours theirs).getD ([], true)

def storeMergedContent (z : Zstd) (path : Str) (mode : ℕ) (content : List UInt8) :
    Run H (Entry H × List (Nipa.Chunk H)) := do
  let (encoding, chunks) ← Program.lift
    ((encodeBytes z content path false []).mapError fun e => errInternalServer "%v" [e.toList])
  chunks.forM fun c : EncodedChunk H => Program.perform (.upload c.hash c.data)
  let hashes := chunks.map EncodedChunk.hash
  let sizes := chunks.map fun c => (c.sizeBytes : ℤ)
  return (⟨path, mode, content.length, false, encoding, fileHash hashes, hashes, sizes⟩,
    chunks.map fun c => ⟨c.hash, c.sizeBytes⟩)

/-- Apply one decision to the file set. -/
def materializeEntry (z : Zstd) (acc : GoMap (Entry H) × List (Nipa.Chunk H))
    (e : Σ _ : Str, Decided H) : Run H (GoMap (Entry H) × List (Nipa.Chunk H)) := do
  let ⟨path, entry⟩ := e
  let (merged, stored) := acc
  match entry.decision with
  | .keepTheirs => return (merged.insert path entry.theirs, stored)
  | .textMerge =>
      let content := contentStore z (← Program.get)
      let baseData ← Program.lift (loadMergedContent content entry.base)
      let oursData ← Program.lift (loadMergedContent content entry.ours)
      let theirsData ← Program.lift (loadMergedContent content entry.theirs)
      let (data, conflicted) := content.mergeText baseData oursData theirsData
      Program.lift (refuseIf (conflicted = true) (conflictError [path] []))
      let (file, chunks) ← storeMergedContent z path entry.theirs.mode data
      return (merged.insert path file, stored ++ chunks)
  | _ => return acc

variable (svc : Services H)

/-- Apply a three-way result to the current file set. -/
def materialize (n : ℕ) (result : Result H) (current : GoMap (Entry H)) :
    Run H (GoMap (Entry H) × List (Nipa.Chunk H)) := do
  let (merged, stored) ← (svc.order.entries n result.entries).foldlM
    (materializeEntry svc.zstd) (current, [])
  return (result.deleted.foldl (fun m p => m.erase p) merged, stored)

def mergeOnto (n : ℕ) (base ours theirs : GoMap (Entry H)) (pre : Str) :
    Run H (GoMap (Entry H) × List (Nipa.Chunk H)) := do
  let result := threeWay base ours theirs
  Program.lift (refuseIf (result.conflicts ≠ []) (conflictError (conflictPaths result) pre))
  materialize svc n result ours

/-! ## Planning -/

/-- The commit of a merge or a squash. -/
def planMergeCommit (land : Landing) (opts : MergeCommitOptions) (newID : ℕ → ID)
    (base : Option ID) (targetHead : Commit H) (targetTree : GoMap (Entry H)) :
    Run H (MergeWrite H) := do
  let db := (← Program.get).db
  let sourceHead ← Program.lift (commitByIDInProject db land.projectID land.sourceHead)
  let baseTree ← Program.lift (mergeTreeOf db land.projectID base)
  let theirs ← Program.lift (mergeTree db land.projectID land.sourceHead)
  let (merged, stored) ← mergeOnto svc 0 baseTree targetTree theirs []
  let message :=
    if trimSpace opts.message = [] then
      "Merge branch '".toList ++ land.sourceBranch ++ "' into ".toList ++ land.targetBranch
    else trimSpace opts.message
  let commit ← Program.lift (landingCommit db land.projectID land.target targetHead targetTree
    merged (newID 0) (some land.targetHead)
    (if opts.strategy = .merge then some sourceHead.id else none)
    (if opts.strategy = .merge then [targetHead.hash, sourceHead.hash] else [targetHead.hash])
    opts.author message)
  return ⟨[commit], merged, stored⟩

/-- Replay the commits one by one. -/
def replayCommits (land : Landing) (newID : ℕ → ID) (targetHead : Commit H)
    (targetTree : GoMap (Entry H)) :
    List (Commit H) → ℕ → ID → H → MergeWrite H → Run H (MergeWrite H)
  | [], _, _, _, write => return write
  | commit :: rest, n, parentID, parentHash, write => do
      let db := (← Program.get).db
      let commitBase ← Program.lift (mergeTreeOf db land.projectID commit.parent1ID)
      let commitTree ← Program.lift (mergeTree db land.projectID commit.id)
      let (current, added) ← mergeOnto svc n commitBase write.merged commitTree
        ("commit ".toList ++ (hashString commit.hash).take 10)
      let next ← Program.lift (landingCommit db land.projectID land.target targetHead targetTree
        current (newID n) (some parentID) none [parentHash] commit.userID commit.message)
      replayCommits land newID targetHead targetTree rest (n + 1) next.request.commitID
        next.request.commitHash ⟨write.commits ++ [next], current, write.stored ++ added⟩

/-- The checks of a fast-forward, with the branch rows read again. -/
def forwardMerge (caller : Caller) (projectID : ID) (targetBranch sourceBranch : Str)
    (opts : MergeCommitOptions) : Run H (Landing × LandingWrite H) := do
  let db := (← Program.get).db
  let target ← Program.lift (readTarget db caller projectID targetBranch)
  let land ← Program.lift (openFastForward db caller projectID targetBranch sourceBranch true
    opts.sourceCommitID target)
  let _ ← Program.lift (planFastForward db caller land true)
  return (land, .forward)

/-- Link the stored chunks to the project and charge them. -/
def attributeProjectChunks (projectID : ID) (chunks : List (Nipa.Chunk H)) : Run H Unit := do
  chunks.forM fun c => Program.perform (.linkProjectChunk projectID c.hash)
  if chunks = [] then return () else Program.lift (svc.ledger projectID chunks)

/-- Check the write permissions of merged commits and link their chunks. -/
def finishMerge (caller : Caller) (land : Landing) (targetTree : GoMap (Entry H))
    (write : MergeWrite H) : Run H (Landing × LandingWrite H) := do
  Program.lift (ensureMergedWrites caller.perm targetTree write.merged)
  attributeProjectChunks svc land.projectID write.stored
  return (land, .commits write)

/-- Everything a landing does before it writes to the target branch. -/
def planMerge (caller : Caller) (projectID : ID) (targetBranch sourceBranch : Str)
    (opts : MergeCommitOptions) (newID : ℕ → ID) : Run H (Landing × LandingWrite H) := do
  let db := (← Program.get).db
  let target ← Program.lift (readTarget db caller projectID targetBranch)
  let land ← Program.lift (openMerge db caller projectID targetBranch sourceBranch opts target)
  if opts.strategy = .ff then forwardMerge caller projectID targetBranch sourceBranch opts
  else do
    let base ← Program.lift (findMergeBase db (some land.targetHead) (some land.sourceHead))
    let targetHead ← Program.lift (commitByIDInProject db projectID land.targetHead)
    let targetTree ← Program.lift (mergeTree db projectID land.targetHead)
    if opts.strategy = .rebase then
      if base = some land.targetHead then
        forwardMerge caller projectID targetBranch sourceBranch opts
      else do
        let commits ← Program.lift (rebaseCommits db projectID land.sourceHead base)
        if commits = [] then return (land, .nothing)
        else do
          let write ← replayCommits svc land newID targetHead targetTree commits 0
            land.targetHead targetHead.hash ⟨[], targetTree, []⟩
          finishMerge svc caller land targetTree write
    else do
      let write ← planMergeCommit svc land opts newID base targetHead targetTree
      finishMerge svc caller land targetTree write

/-! ## Landing -/

/-- A landing, up to its write. -/
def planRequest (seen : ℕ → RequestStore H) (caller : Caller) (projectID : ID) (number : ℤ)
    (strategy : Str) (lockID newID : ℕ → ID) : Run H (Landing × LandingWrite H) := do
  let (mr, opts) ← Program.lift (mergeGate seen caller projectID number strategy lockID)
  planMerge svc caller projectID mr.targetBranch mr.sourceBranch opts newID

/-- Write to the target branch, and read its row again. -/
def writeMerge (r : Repository H) (land : Landing) (w : LandingWrite H) :
    Except DomainError Branch × Repository H :=
  match writeLanding r.db land w with
  | .error e => (.error e, r)
  | .ok db =>
      (orError (db.getByProjectIDAndID land.projectID land.target.id)
        (errNotFound "record not found" []), { r with db := db })

/-- Merge a request, up to its landing. -/
def mergeRequest (seen : ℕ → RequestStore H) (caller : Caller) (projectID : ID) (number : ℤ)
    (strategy : Str) (lockID newID : ℕ → ID) (r : Repository H) :
    Except DomainError Branch × Repository H :=
  match (planRequest svc seen caller projectID number strategy lockID newID).exec effect r with
  | (.error e, r') => (.error e, r')
  | (.ok (land, w), r') => writeMerge r' land w

end Run

end Nipa.Merging
