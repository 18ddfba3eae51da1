import Nipa.Client.ThreeWay
import Nipa.Push.Usecase

/-!
# Pushing from the working copy

A push sends what is staged: a staged path with a file on disk is uploaded, one
without is a removal when the snapshot still has it.  While a merge or revert is
pending the push is based on the head the merge or revert started from, and its
success ends the pending state.

Commit ids and hashes are texts the server made; a text field carries what the
server parses it to.  Opening the repository, connecting and logging in can
fail at the start of each command and are one outcome, `session`.  A push that
ends with an error changes neither the working tree nor the snapshot, the stage
or the pending state.
-/

namespace Nipa.Client

open Support Merge

/-! ## Local state -/

structure MergeState (H : Type) where
  sourceCommitHash : TextField H
  targetTreeHash : Str
  targetCommitID : TextField ID
  conflicts : List Str
  conflictKinds : GoMap ConflictKind
  conflictBinary : List Str
  resolved : List Str

structure CommitRef where
  id : Str
  hash : Str
  subject : Str

structure RevertState where
  targets : List CommitRef
  currentTreeHash : Str
  currentCommitID : TextField ID
  mainline : ℕ
  noCommit : Bool
  message : Str
  conflicts : List Str
  conflictKinds : GoMap ConflictKind
  conflictBinary : List Str
  resolved : List Str

/-- A working copy with its metadata; the stage lists each path once, in order. -/
structure Repo (H : Type) where
  disk : Disk
  snapshot : Snapshot H
  staged : List Str
  merge : Option (MergeState H)
  revert : Option RevertState
  commit : TextField ID

def stageAdd (staged : List Str) (p : Str) : List Str :=
  if p ∈ staged then staged else staged.orderedInsert (· ≤ ·) p

def stageAddMany (staged paths : List Str) : List Str :=
  paths.foldl stageAdd staged

theorem mem_stageAdd {staged : List Str} {p q : Str} :
    q ∈ stageAdd staged p ↔ q = p ∨ q ∈ staged := by
  rw [stageAdd]
  split
  next hp =>
    constructor
    · exact Or.inr
    · rintro (rfl | hq)
      · exact hp
      · exact hq
  · exact List.mem_orderedInsert _

theorem mem_stageAddMany {staged paths : List Str} {q : Str} :
    q ∈ stageAddMany staged paths ↔ q ∈ paths ∨ q ∈ staged := by
  rw [stageAddMany]
  induction paths generalizing staged with
  | nil => simp
  | cons p rest ih =>
      rw [List.foldl_cons, ih, mem_stageAdd, List.mem_cons]
      tauto

def nipaDir : Str := ".nipa".toList

def isNipaPath (p : Str) : Bool :=
  (p.splitOn '/').any fun seg => seg = nipaDir

/-- Whether a path is below a directory; the empty path is the root. -/
def under (dir p : Str) : Bool :=
  dir = [] || (dir ++ ['/']).isPrefixOf p

/-- Whether a directory stands at a path: the root, or one that holds a file. -/
def isDir (disk : Disk) (p : Str) : Bool :=
  p = [] || disk.keys.any (under p)

/-- Whether a path is below a regular file; the system cannot even say that it is
missing. -/
def belowFile (disk : Disk) (p : Str) : Bool :=
  disk.keys.any fun q => under q p

def errNotDirectory (p : Str) : DomainError :=
  errInternalServer "%s: not a directory" [p]

/-! ## What is staged -/

/-- Split the staged paths into files to read and removals. -/
def classifyStaged {H : Type} (disk : Disk) (snapshot : Snapshot H) :
    List Str → Except DomainError (List (Str × WorkFile) × List Str)
  | [] => .ok ([], [])
  | p :: rest => do
      refuseIf (isNipaPath p = true)
        (errUser "cannot push path inside %q: %s" [nipaDir, p])
      match disk.lookup p with
      | some w =>
          let (toRead, removed) ← classifyStaged disk snapshot rest
          return ((p, w) :: toRead, removed)
      | none =>
          refuseIf (isDir disk p = true) (errUser "%q is not a regular file" [p])
          refuseIf (belowFile disk p = true) (errNotDirectory p)
          refuseIf (snapshot.files.lookup p = none)
            (errUser "staged file %q does not exist" [p])
          let (toRead, removed) ← classifyStaged disk snapshot rest
          return (toRead, p :: removed)

/-- Whether a staged path is an upload or a removal. -/
def Pushable {H : Type} (disk : Disk) (snapshot : Snapshot H) (p : Str) : Prop :=
  isNipaPath p = false ∧
    (disk.lookup p = none →
      isDir disk p = false ∧ belowFile disk p = false ∧ snapshot.files.lookup p ≠ none)

/-- The staged paths that are on disk, with their files. -/
def uploads (disk : Disk) (staged : List Str) : List (Str × WorkFile) :=
  staged.filterMap fun p => (disk.lookup p).map fun w => (p, w)

def removals (disk : Disk) (staged : List Str) : List Str :=
  staged.filter fun p => (disk.lookup p).isNone

theorem classifyStaged_eq_ok {H : Type} {disk : Disk} {snapshot : Snapshot H}
    {staged : List Str} {out : List (Str × WorkFile) × List Str} :
    classifyStaged disk snapshot staged = .ok out ↔
      (∀ p ∈ staged, Pushable disk snapshot p) ∧
        out = (uploads disk staged, removals disk staged) := by
  induction staged generalizing out with
  | nil =>
      rw [classifyStaged]
      simp [uploads, removals, eq_comm]
  | cons p rest ih =>
      rw [classifyStaged]
      simp only [bind_eq_ok, refuseIf_eq_ok, List.forall_mem_cons]
      rcases hp : disk.lookup p with _ | w
      · have hup : uploads disk (p :: rest) = uploads disk rest := by
          rw [uploads, List.filterMap_cons, hp]
          rfl
        have hrem : removals disk (p :: rest) = p :: removals disk rest := by
          rw [removals, List.filter_cons, hp]
          rfl
        simp only [bind_eq_ok, refuseIf_eq_ok, pure_eq_ok, ih, hup, hrem, Pushable, hp]
        constructor
        · rintro ⟨_, hnipa, _, hdir, _, hbelow, _, hsnap, _, ⟨hrest, rfl⟩, rfl⟩
          exact ⟨⟨⟨by simpa using hnipa,
            fun _ => ⟨by simpa using hdir, by simpa using hbelow, hsnap⟩⟩, hrest⟩, rfl⟩
        · rintro ⟨⟨⟨hnipa, hmissing⟩, hrest⟩, rfl⟩
          obtain ⟨hdir, hbelow, hsnap⟩ := hmissing trivial
          exact ⟨(), by simp [hnipa], (), by simp [hdir], (), by simp [hbelow], (), hsnap, _,
            ⟨hrest, rfl⟩, rfl⟩
      · have hup : uploads disk (p :: rest) = (p, w) :: uploads disk rest := by
          rw [uploads, List.filterMap_cons, hp]
          rfl
        have hrem : removals disk (p :: rest) = removals disk rest := by
          rw [removals, List.filter_cons, hp]
          rfl
        simp only [bind_eq_ok, pure_eq_ok, ih, hup, hrem, Pushable, hp]
        constructor
        · rintro ⟨_, hnipa, _, ⟨hrest, rfl⟩, rfl⟩
          exact ⟨⟨⟨by simpa using hnipa, by simp⟩, hrest⟩, rfl⟩
        · rintro ⟨⟨⟨hnipa, -⟩, hrest⟩, rfl⟩
          exact ⟨(), by simp [hnipa], _, ⟨hrest, rfl⟩, rfl⟩

/-! ## The push -/

/-- What the client sends. -/
structure PushCall (H : Type) where
  baseTreeHash : Str
  message : Str
  files : List (PushFile H)
  removed : List Str
  parent2CommitHash : TextField H
  baseCommitID : TextField ID

structure PushResult where
  treeHash : Str
  commitID : TextField ID

/-- A branch manifest as the client uses it. -/
structure Manifest (H : Type) where
  hash : Str
  files : GoMap (Entry H)

/-- The server's answers to one push: to the push itself and to the request for
the branch manifest after it. -/
structure PushServer (H : Type) where
  push : PushCall H → Except DomainError PushResult
  manifest : Except DomainError (Manifest H)

section Push

variable {H : Type} [HashScheme H]

def scanPushFile (codec : Codec H) (p : Str) (w : WorkFile) : PushFile H :=
  let isBinary := codec.isBinary w.content
  let encoded := codec.encode p isBinary [] w.content
  ⟨p, w.perm, w.content.length, isBinary, encoded.1, fileHash (encoded.2.map Chunk.hash),
    encoded.2.map Chunk.hash⟩

def scanPushFiles (codec : Codec H) (toRead : List (Str × WorkFile)) : List (PushFile H) :=
  toRead.map fun e => scanPushFile codec e.1 e.2

/-- The call that sends the stage of a working copy. -/
def stagedCall (codec : Codec H) (c : Repo H) (message baseTreeHash : Str)
    (baseCommitID : TextField ID) (parent2 : TextField H) :
    Except DomainError (PushCall H) := do
  refuseIf (c.staged = []) (errUser "nothing staged to push; run nipa add first" [])
  let (toRead, removed) ← classifyStaged c.disk c.snapshot c.staged
  return {
    baseTreeHash := if baseTreeHash = [] then c.snapshot.treeHash else baseTreeHash
    message := message
    files := scanPushFiles codec toRead
    removed := removed
    parent2CommitHash := parent2
    baseCommitID := baseCommitID }

def pushStaged (codec : Codec H) (server : PushServer H) (c : Repo H)
    (message baseTreeHash : Str) (baseCommitID : TextField ID) (parent2 : TextField H) :
    Except DomainError (Repo H × PushResult) := do
  let call ← stagedCall codec c message baseTreeHash baseCommitID parent2
  let result ← server.push call
  let tree ← server.manifest
  return ({ c with
    commit := result.commitID
    snapshot := saveTree tree.hash tree.files
    staged := [] }, result)

/-- What a push is based on: the head of the pending merge or revert, else the
commit the working copy is pinned to. -/
def pushBase (c : Repo H) : Str × TextField ID × TextField H :=
  match c.merge with
  | some m => (m.targetTreeHash, m.targetCommitID, m.sourceCommitHash)
  | none =>
      match c.revert with
      | some r => (r.currentTreeHash, r.currentCommitID, .empty)
      | none => ([], c.commit, .empty)

/-- Whether a revert of several commits is under way. -/
def MidSequence (c : Repo H) : Prop :=
  ∃ r ∈ c.revert, 1 < r.targets.length

instance (c : Repo H) : Decidable (MidSequence c) :=
  match h : c.revert with
  | none => isFalse (by simp [MidSequence, h])
  | some r => decidable_of_iff (1 < r.targets.length) (by simp [MidSequence, h])

def runPush (codec : Codec H) (session : Except DomainError Unit) (server : PushServer H)
    (c : Repo H) (message : Str) : Except DomainError (Repo H) := do
  refuseIf (trimSpace message = []) (errUser "commit message is required" [])
  session
  refuseIf (MidSequence c)
    (errUser "a revert sequence is in progress; run nipa revert --continue" [])
  let (baseTreeHash, baseCommitID, parent2) := pushBase c
  let (c, _) ← pushStaged codec server c message baseTreeHash baseCommitID parent2
  return { c with merge := none, revert := none }

/-! ## What a push comes to -/

/-- The call a push of a working copy makes. -/
def callOf (codec : Codec H) (c : Repo H) (message baseTreeHash : Str)
    (baseCommitID : TextField ID) (parent2 : TextField H) : PushCall H where
  baseTreeHash := if baseTreeHash = [] then c.snapshot.treeHash else baseTreeHash
  message := message
  files := scanPushFiles codec (uploads c.disk c.staged)
  removed := removals c.disk c.staged
  parent2CommitHash := parent2
  baseCommitID := baseCommitID

variable {codec : Codec H} {c : Repo H} {message baseTreeHash : Str}
  {baseCommitID : TextField ID} {parent2 : TextField H}

theorem stagedCall_eq_ok {call : PushCall H} :
    stagedCall codec c message baseTreeHash baseCommitID parent2 = .ok call ↔
      c.staged ≠ [] ∧ (∀ p ∈ c.staged, Pushable c.disk c.snapshot p) ∧
        call = callOf codec c message baseTreeHash baseCommitID parent2 := by
  rw [stagedCall]
  simp only [bind_eq_ok, refuseIf_eq_ok, pure_eq_ok, classifyStaged_eq_ok]
  constructor
  · rintro ⟨_, hne, _, ⟨hall, rfl⟩, rfl⟩
    exact ⟨hne, hall, rfl⟩
  · rintro ⟨hne, hall, rfl⟩
    exact ⟨(), hne, _, ⟨hall, rfl⟩, rfl⟩

/-- A push succeeds when its checks pass and the server accepts the call.  None of
the checks looks at the conflicts of a pending merge or revert. -/
theorem runPush_eq_ok {session : Except DomainError Unit} {server : PushServer H}
    {c' : Repo H} :
    runPush codec session server c message = .ok c' ↔
      trimSpace message ≠ [] ∧ session = .ok () ∧ ¬ MidSequence c ∧ c.staged ≠ [] ∧
        (∀ p ∈ c.staged, Pushable c.disk c.snapshot p) ∧
        ∃ result tree, server.push (callOf codec c message (pushBase c).1 (pushBase c).2.1
            (pushBase c).2.2) = .ok result ∧ server.manifest = .ok tree ∧
          c' = ⟨c.disk, saveTree tree.hash tree.files, [], none, none, result.commitID⟩ := by
  rw [runPush]
  simp only [bind_eq_ok, refuseIf_eq_ok, pure_eq_ok, pushStaged, stagedCall_eq_ok]
  constructor
  · rintro ⟨_, hmsg, _, hsession, _, hseq, _, ⟨_, ⟨hne, hall, rfl⟩, result, hpush, tree,
      hmanifest, rfl⟩, rfl⟩
    exact ⟨hmsg, hsession, hseq, hne, hall, result, tree, hpush, hmanifest, rfl⟩
  · rintro ⟨hmsg, hsession, hseq, hne, hall, result, tree, hpush, hmanifest, rfl⟩
    exact ⟨(), hmsg, (), hsession, (), hseq, _, ⟨_, ⟨hne, hall, rfl⟩, result, hpush, tree,
      hmanifest, rfl⟩, rfl⟩

omit [HashScheme H] in
theorem mem_uploads {disk : Disk} {staged : List Str} {p : Str} {w : WorkFile} :
    (p, w) ∈ uploads disk staged ↔ p ∈ staged ∧ disk.lookup p = some w := by
  rw [uploads, List.mem_filterMap]
  constructor
  · rintro ⟨q, hq, h⟩
    obtain ⟨v, hv, heq⟩ := Option.map_eq_some_iff.mp h
    obtain ⟨rfl, rfl⟩ := Prod.mk.inj heq
    exact ⟨hq, hv⟩
  · rintro ⟨hp, hw⟩
    exact ⟨p, hp, by rw [hw]; rfl⟩

omit [HashScheme H] in
theorem mem_removals {disk : Disk} {staged : List Str} {p : Str} :
    p ∈ removals disk staged ↔ p ∈ staged ∧ disk.lookup p = none := by
  simp [removals]

theorem mem_callOf_files {f : PushFile H} :
    f ∈ (callOf codec c message baseTreeHash baseCommitID parent2).files ↔
      ∃ p w, p ∈ c.staged ∧ c.disk.lookup p = some w ∧ f = scanPushFile codec p w := by
  rw [callOf, scanPushFiles, List.mem_map]
  constructor
  · rintro ⟨⟨p, w⟩, hmem, rfl⟩
    obtain ⟨hp, hw⟩ := mem_uploads.mp hmem
    exact ⟨p, w, hp, hw, rfl⟩
  · rintro ⟨p, w, hp, hw, rfl⟩
    exact ⟨(p, w), mem_uploads.mpr ⟨hp, hw⟩, rfl⟩

end Push

end Nipa.Client
