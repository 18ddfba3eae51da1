import Nipa.Client.MergeCommit

/-!
# Reverting in the working copy

A revert merges the parent of a commit onto the head with the commit as the
base, one commit after the other.  Each round stages what it changed; it is
pushed at once, or, with `--no-commit`, saved as the snapshot and left staged.  A
round that runs into conflicts saves the snapshot and stops.

The trees of the commits and the outcomes of the pushes are answers of the server.
-/

namespace Nipa.Client

open Support Nipa.Merge

/-! ## The rounds of a revert -/

section Revert

variable {H : Type} [HashScheme H]

structure RevertServer (H : Type) where
  head : Except DomainError (Manifest H)
  /-- The tree of a commit and that of the parent the revert goes back to. -/
  trees : CommitRef → ℕ → Except DomainError (GoMap (Entry H) × GoMap (Entry H))
  push : CommitRef → PushServer H

structure RevertOutcome where
  committed : Bool
  noChange : Bool
  conflicts : List Str

/-- How one round ends: stopped on conflicts, or ready for the next. -/
inductive Round (H : Type) where
  | stopped (c : Repo H) (conflicts : List Str)
  | next (c : Repo H) (st : RevertState) (ours : GoMap (Entry H)) (changed committed : Bool)

def revertMessage (ref : CommitRef) : Str :=
  "Revert \"".toList ++ ref.subject ++ "\"\n\nThis reverts commit ".toList ++ ref.id ++
    " (".toList ++ ref.hash ++ ").".toList

def RevertState.clearConflicts (st : RevertState) : RevertState :=
  { st with conflicts := [], conflictKinds := ∅, conflictBinary := [], resolved := [] }

/-- The message a round commits with. -/
def roundMessage (st : RevertState) (target : CommitRef) : Str :=
  if st.message = [] then revertMessage target else st.message

/-- The working copy after a round was applied and before anything is saved. -/
def roundCopy (c : Repo H) (disk : Disk) (applied : ThreeWayResult H) : Repo H :=
  { c with disk := disk, staged := stageAddMany c.staged applied.staged }

variable [DecidableEq H]

def revertRound (codec : Codec H) (server : RevertServer H) (c : Repo H) (st : RevertState)
    (target : CommitRef) (rest : List CommitRef) (ours : GoMap (Entry H)) :
    Except DomainError (Round H) := do
  let (tree, theirs) ← server.trees target st.mainline
  let (disk, applied) ← applyThreeWay codec c.snapshot c.disk ours (threeWay tree ours theirs)
  let c := roundCopy c disk applied
  if applied.conflicted ≠ [] then
    return .stopped { c with
      snapshot := saveTree (localTreeHash H) applied.files
      revert := some { st with
        conflicts := applied.conflicted
        conflictKinds := applied.kinds
        conflictBinary := applied.binary
        resolved := [] } } applied.conflicted
  else
    let st := { st with targets := rest }.clearConflicts
    if applied.staged = [] then
      return .next { c with revert := some st } st applied.files false false
    else if st.noCommit = true then
      return .next { c with
        snapshot := saveTree (localTreeHash H) applied.files
        revert := some st } st applied.files true false
    else
      let (c, result) ← pushStaged codec (server.push target) c (roundMessage st target)
        st.currentTreeHash st.currentCommitID .empty
      let st := { st with
        currentTreeHash := result.treeHash
        currentCommitID := result.commitID }
      return .next { c with revert := some st } st applied.files true true

/-- Revert the remaining targets. -/
def processRevert (codec : Codec H) (server : RevertServer H) :
    List CommitRef → Repo H → RevertState → GoMap (Entry H) → Bool → Bool →
      Except DomainError (Repo H × RevertOutcome)
  | [], c, _, _, committed, changed =>
      .ok ({ c with revert := none }, ⟨committed, !changed, []⟩)
  | target :: rest, c, st, ours, committed, changed => do
      match ← revertRound codec server c st target rest ours with
      | .stopped c conflicts => return (c, ⟨committed, false, conflicts⟩)
      | .next c st ours ch co =>
          processRevert codec server rest c st ours (committed || co) (changed || ch)

structure RevertOptions where
  noCommit : Bool
  mainline : ℕ
  message : Str

def runRevert (codec : Codec H) (session : Except DomainError Unit) (server : RevertServer H)
    (c : Repo H) (refs : List CommitRef) (headCommit : TextField ID) (opts : RevertOptions) :
    Except DomainError (Repo H × RevertOutcome) := do
  session
  refuseIf (c.merge.isSome = true) (errUser ("a merge is already in progress; " ++
    "resolve the conflicts and push, or run nipa merge --abort") [])
  refuseIf (c.revert.isSome = true) (errUser ("a revert is already in progress; " ++
    "resolve the conflicts and run nipa revert --continue, or run nipa revert --abort") [])
  refuseIf (c.staged ≠ [])
    (errUser "cannot revert with staged changes; push or reset them first" [])
  refuseIf (trimSpace opts.message ≠ [] ∧ 1 < refs.length)
    (errUser "--message can only be used when reverting a single commit" [])
  let head ← server.head
  refuseIf (c.snapshot.treeHash ≠ head.hash)
    (errUser "the working copy is not at the branch head; run nipa update first" [])
  let st : RevertState :=
    { targets := refs
      currentTreeHash := head.hash
      currentCommitID := headCommit
      mainline := opts.mainline
      noCommit := opts.noCommit
      message := trimSpace opts.message
      conflicts := []
      conflictKinds := ∅
      conflictBinary := []
      resolved := [] }
  processRevert codec server refs { c with revert := some st } st head.files false false

/-- The working file of a tracked path as a tree's file. -/
def workingEntry (codec : Codec H) (f : SnapshotFile H) (p : Str) (w : WorkFile) : Entry H :=
  let isBinary := codec.isBinary w.content
  let encoded := codec.encode p isBinary (storedEncoding f.encoding) w.content
  ⟨p, f.mode, w.content.length, isBinary, encoded.1, fileHash (encoded.2.map Chunk.hash),
    encoded.2.map Chunk.hash, encoded.2.map Chunk.sizeBytes⟩

/-- The tracked files that are on disk, as they are there. -/
def workingTreeFiles (codec : Codec H) (c : Repo H) : GoMap (Entry H) :=
  c.snapshot.files.entries.foldl (fun m e =>
    insertOpt m e.1 ((c.disk.lookup e.1).map (workingEntry codec e.2 e.1))) ∅

/-- Continue with the target after the one that stopped. -/
def resumeRevert (codec : Codec H) (session : Except DomainError Unit)
    (server : RevertServer H) (c : Repo H) : Except DomainError (Repo H × RevertOutcome) := do
  let st ← orError c.revert (errUser "no revert in progress to continue" [])
  match st.targets with
  | [] => .error (errUser "no revert in progress to continue" [])
  | current :: rest => do
      session
      if st.noCommit = true then
        let ours := workingTreeFiles codec c
        let st := { st with targets := rest }.clearConflicts
        if rest = [] then return ({ c with revert := none }, ⟨false, false, []⟩)
        else processRevert codec server rest { c with revert := some st } st ours false false
      else if c.staged = [] then
        let head ← server.head
        let st := { st with targets := rest }.clearConflicts
        if rest = [] then return ({ c with revert := none }, ⟨false, false, []⟩)
        else processRevert codec server rest { c with revert := some st } st head.files false false
      else
        let (c, result) ← pushStaged codec (server.push current) c (roundMessage st current)
          st.currentTreeHash st.currentCommitID .empty
        let head ← server.head
        let st := { st with
          targets := rest
          currentTreeHash := result.treeHash
          currentCommitID := result.commitID }.clearConflicts
        if rest = [] then return ({ c with revert := none }, ⟨true, false, []⟩)
        else
          let (c, outcome) ←
            processRevert codec server rest { c with revert := some st } st head.files false false
          return (c, { outcome with committed := true })

/-! ## How a round ends -/

variable {codec : Codec H} {server : RevertServer H} {c c' : Repo H} {st : RevertState}
  {target : CommitRef} {rest : List CommitRef} {ours : GoMap (Entry H)}

theorem revertRound_ok {r : Round H}
    (h : revertRound codec server c st target rest ours = .ok r) :
    ∃ trees disk applied, server.trees target st.mainline = .ok trees ∧
      applyThreeWay codec c.snapshot c.disk ours (threeWay trees.1 ours trees.2) =
        .ok (disk, applied) ∧
      ((∃ revert, r = .stopped { roundCopy c disk applied with
            snapshot := saveTree (localTreeHash H) applied.files
            revert := revert } applied.conflicted) ∨
        (applied.staged = [] ∧ ∃ revert st',
          r = .next { roundCopy c disk applied with revert := revert } st' applied.files
            false false) ∨
        (∃ revert st', r = .next { roundCopy c disk applied with
            snapshot := saveTree (localTreeHash H) applied.files
            revert := revert } st' applied.files true false) ∨
        ∃ c' st', c'.staged = [] ∧ r = .next c' st' applied.files true true) := by
  rw [revertRound] at h
  obtain ⟨⟨tree, theirs⟩, htrees, h⟩ := bind_eq_ok.mp h
  obtain ⟨⟨disk, applied⟩, happlied, h⟩ := bind_eq_ok.mp h
  refine ⟨(tree, theirs), disk, applied, htrees, happlied, ?_⟩
  dsimp only at h
  split at h
  · exact Or.inl ⟨_, (pure_eq_ok.mp h).symm⟩
  right
  split at h
  next hstaged => exact Or.inl ⟨hstaged, _, _, (pure_eq_ok.mp h).symm⟩
  right
  split at h
  · exact Or.inl ⟨_, _, (pure_eq_ok.mp h).symm⟩
  · obtain ⟨⟨pushed, result⟩, hpush, h⟩ := bind_eq_ok.mp h
    refine Or.inr ⟨_, _, ?_, (pure_eq_ok.mp h).symm⟩
    rw [pushStaged] at hpush
    simp only [bind_eq_ok, pure_eq_ok] at hpush
    obtain ⟨_, -, _, -, _, -, hpush⟩ := hpush
    obtain ⟨rfl, -⟩ := Prod.mk.inj hpush
    rfl

end Revert

/-! ## What a round leaves staged -/

section Rounds

variable {H : Type} [HashScheme H] [DecidableEq H]

/-- A merge deletes a path whose file is the tracked one. -/
def Removed (codec : Codec H) (c : Repo H) (base ours theirs : GoMap (Entry H)) (p : Str) :
    Prop :=
  outcomeAt (base.lookup p) (ours.lookup p) (theirs.lookup p) = .deleted ∧
    Deletable codec c.snapshot c.disk p

variable {codec : Codec H} {c : Repo H} {base ours theirs : GoMap (Entry H)} {disk : Disk}
  {applied : ThreeWayResult H} {p : Str}

theorem missing_of_removed
    (h : applyThreeWay codec c.snapshot c.disk ours (threeWay base ours theirs) =
      .ok (disk, applied)) (hp : Removed codec c base ours theirs p) :
    disk.lookup p = none ∧ applied.files.lookup p = none := by
  have hpath := applyThreeWay_ok h p
  rw [hp.1] at hpath
  exact ⟨hpath.disk.trans (if_pos hp.2), hpath.files⟩

/-- A path without a file after a merge was deleted by it, or had none before and was
not staged by the merge. -/
theorem missing_after
    (h : applyThreeWay codec c.snapshot c.disk ours (threeWay base ours theirs) =
      .ok (disk, applied)) (hp : disk.lookup p = none) :
    Removed codec c base ours theirs p ∨
      (c.disk.lookup p = none ∧ p ∉ applied.staged ∧
        (ours.lookup p = none → applied.files.lookup p = none) ∧
        (applied.files.lookup p = none →
          ours.lookup p = none ∨ c.snapshot.files.lookup p = none)) := by
  have hpath := applyThreeWay_ok h p
  rcases hout : outcomeAt (base.lookup p) (ours.lookup p) (theirs.lookup p) with
    _ | d | _ | d
  all_goals rw [hout] at hpath
  · have hfiles : applied.files.lookup p = ours.lookup p := hpath.files
    refine Or.inr ⟨hpath.disk.symm.trans hp, ?_, hfiles.trans, fun hnone => Or.inl ?_⟩
    · rw [hpath.staged]
      simp [mergeStart]
    · rwa [← hfiles]
  · obtain ⟨eff, heff, hat⟩ := hpath
    have hwrite := hat.disk
    rw [hp] at hwrite
    rcases outcomeAt_taken hout with ⟨hd, hours⟩ | ⟨hd, -⟩ | ⟨hd, -⟩
    · obtain rfl := entryEffect_keepOurs heff hd
      have hfiles := hat.files
      refine Or.inr ⟨hwrite.symm, ?_, ?_, ?_⟩
      · rw [hat.staged]
        simp [mergeStart]
      · intro hnone
        rw [hours] at hnone
        cases hnone
      · intro hnone
        rw [hnone] at hfiles
        cases hfiles
    · obtain ⟨w, -, rfl⟩ := entryEffect_keepTheirs heff hd
      cases hwrite
    · obtain ⟨_, _, _, w, -, -, -, -, hw, -⟩ := entryEffect_textMerge heff hd
      rw [hw] at hwrite
      cases hwrite
  · by_cases hdel : Deletable codec c.snapshot c.disk p
    · exact Or.inl ⟨hout, hdel⟩
    · have hdisk : disk.lookup p = c.disk.lookup p := hpath.disk.trans (if_neg hdel)
      rw [hp] at hdisk
      refine Or.inr ⟨hdisk.symm, ?_, fun _ => hpath.files, fun _ => Or.inr ?_⟩
      · rw [hpath.staged]
        simp [mergeStart, hdel]
      · by_contra htracked
        obtain ⟨entry, hentry⟩ := Option.ne_none_iff_exists'.mp htracked
        refine hdel ⟨entry, hentry, ?_⟩
        intro w hw
        rw [← hdisk] at hw
        cases hw
  · obtain ⟨eff, heff, hat⟩ := hpath
    obtain ⟨hwrite, hstaged, -, hfile⟩ := entryEffect_conflict heff (conflict_decision hout)
    have hdisk := hat.disk
    have hfiles := hat.files
    rw [hwrite, hp] at hdisk
    refine Or.inr ⟨hdisk.symm, ?_, ?_, ?_⟩
    · rw [hat.staged, hstaged]
      simp [mergeStart]
    · intro hnone
      rcases outcomeAt_conflict hout with ⟨-, hours⟩ | ⟨hd, -⟩
      · rw [hours] at hnone
        cases hnone
      · rw [hfile, if_pos hd] at hfiles
        exact hfiles.trans hnone
    · intro hnone
      rcases outcomeAt_conflict hout with ⟨hd, -⟩ | ⟨-, hours⟩
      · rw [hfile, if_neg (by rcases hd with hd | hd | hd <;> simp [hd]), hnone] at hfiles
        cases hfiles
      · exact Or.inl hours

end Rounds

end Nipa.Client
