import Nipa.Client.MergeCommit
import Nipa.Client.Plan

/-!
# What a command leaves at the head

A dry run is compared with what the real run leaves behind: the snapshot it saves, or
the head of the branch after the calls it sent.  A call is read off the stage and the
disk.  It says of a path what the merge came to, unless the merge deletes a file that
the snapshot does not track or that was edited, or takes over a file whose content an
upload stores under another hash.
-/

namespace Nipa.Client

open Support Nipa.Merge

/-! ## The head after some calls -/

section Served

variable {H : Type} [HashScheme H] [DecidableEq H]

/-- A branch reads as a map; without commits it reads as the empty one. -/
def BranchReadsAs (db : DB H) (projectID : ID) (branchName : Str)
    (m : Str → Option (H × List H)) : Prop :=
  ∃ branch, db.getBranchByName projectID branchName = some branch ∧
    (branch.commitID = none ∧ m = (fun _ => none) ∨
      ∃ commit, branch.commitID = some commit.id ∧ db.getCommit commit.id = some commit ∧
        ReadsAs db commit.treeID m)

/-- A store serves calls one after the other. -/
inductive Served (caller : Caller) (projectID : ID) (branchName : Str) :
    DB H → List (PushCall H) → DB H → Prop
  | none {db : DB H} : Served caller projectID branchName db [] db
  | push {db mid db' : DB H} {commitID : ID} {call : PushCall H} {calls : List (PushCall H)}
      (hland : landPush db caller commitID projectID branchName call = .ok mid)
      (hrest : Served caller projectID branchName mid calls db') :
      Served caller projectID branchName db (call :: calls) db'

/-- What a branch reads as after a stage is pushed. -/
def pushedOver (codec : Codec H) (disk : Disk) (staged : List Str)
    (old : Str → Option (H × List H)) (p : Str) : Option (H × List H) :=
  if p ∈ staged then (disk.lookup p).map fun w => storedContent codec p w.content else old p

variable {codec : Codec H} {c : Repo H} {old : Str → Option (H × List H)}

omit [DecidableEq H] in
theorem Carries.pushedMap_eq {req : PushRequest H} (h : Carries codec c req) :
    pushedMap req old = pushedOver codec c.disk c.staged old := by
  funext p
  rw [pushedOver]
  by_cases hp : p ∈ c.staged
  · rw [if_pos hp]
    rcases hdisk : c.disk.lookup p with _ | w
    · exact h.pushedMap_removal hp hdisk
    · exact h.pushedMap_upload hp hdisk
  · rw [if_neg hp]
    exact h.pushedMap_unstaged hp

theorem BranchReadsAs.unique {db : DB H} {projectID : ID} {branchName : Str}
    {m m' : Str → Option (H × List H)} (h : BranchReadsAs db projectID branchName m)
    (h' : BranchReadsAs db projectID branchName m') : m = m' := by
  obtain ⟨branch, hbranch, hm⟩ := h
  obtain ⟨branch', hbranch', hm'⟩ := h'
  obtain rfl := Option.some.inj (hbranch.symm.trans hbranch')
  rcases hm with ⟨hnone, rfl⟩ | ⟨commit, hid, hget, hreads⟩
  · rcases hm' with ⟨-, rfl⟩ | ⟨commit', hid', -⟩
    · rfl
    · rw [hnone] at hid'
      cases hid'
  · rcases hm' with ⟨hnone, -⟩ | ⟨commit', hid', hget', hreads'⟩
    · rw [hnone] at hid
      cases hid
    · rw [← Option.some.inj (hid.symm.trans hid')] at hget'
      obtain rfl := Option.some.inj (hget.symm.trans hget')
      exact hreads.unique hreads'

theorem landPush_reads (hcf : CollisionFree H) {db db' : DB H} (hinv : db.StoreInv)
    {caller : Caller} {commitID projectID : ID} {branchName message baseTreeHash : Str}
    {baseCommitID : TextField ID} {parent2 : TextField H}
    (hpaths : ∀ p ∈ c.staged, p.head? ≠ some '/')
    (hland : landPush db caller commitID projectID branchName
      (callOf codec c message baseTreeHash baseCommitID parent2) = .ok db')
    (hold : BranchReadsAs db projectID branchName old) :
    db'.StoreInv ∧
      BranchReadsAs db' projectID branchName (pushedOver codec c.disk c.staged old) := by
  obtain ⟨req, hreq, hpushed⟩ := bind_eq_ok.mp hland
  have hcarries := carries_of_request hreq
  obtain ⟨hproject, hbranch, -, -⟩ := PushCall.request_ok hreq
  have hgrow := push_grows hinv hcf hpushed
  have hnorm : Normalised req := fun p hp => hpaths p (hcarries.mem_touched.mp hp)
  obtain ⟨files, branch, userID, headCommit, parent2, plan, root, mid, hp⟩ := push_ok hpushed
  obtain ⟨commit, hbranch', hget, hreads⟩ := hp.readsAs_pushedMap hinv hcf hgrow hnorm
  have hhead : BranchReadsAs db projectID branchName (headMap db headCommit) := by
    have hopen := (openBranch_ok hp.opened).1
    rw [hproject, hbranch] at hopen
    refine ⟨branch, hopen, ?_⟩
    rcases hp.old_head hinv with ⟨hnone, rfl⟩ | ⟨head, row, rfl, hid, hget, hr, hrid, hrow⟩
    · exact Or.inl ⟨hnone, rfl⟩
    · refine Or.inr ⟨head, hid, hget, ?_⟩
      have hreads := readsAs_contentMap hinv hr
      have hmap : headMap db (some head) = contentMap db row.hash := by
        funext p
        rw [headMap, hrow, Option.bind_some]
      rwa [hmap, ← hrid]
  rw [hhead.unique hold, hcarries.pushedMap_eq] at hreads
  rw [hproject, hbranch] at hbranch'
  exact ⟨hgrow.inv', ⟨_, hbranch', Or.inr ⟨commit, rfl, hget, hreads⟩⟩⟩

end Served

/-! ## What the head gets of a merge -/

section Merged

variable {H S : Type} [HashScheme H] [DecidableEq H]

/-- The hash of a path in a file map. -/
def hashAt (files : GoMap (Entry H)) (p : Str) : Option H :=
  (files.lookup p).map Entry.hash

def Snapshot.hashAt (snapshot : Snapshot H) (p : Str) : Option H :=
  (snapshot.files.lookup p).map SnapshotFile.hash

/-- What is read from the chunks of encoded content is the content. -/
def Machine.RoundTrips (m : Machine H S) : Prop :=
  ∀ o p content content', loadFileContent (m.codec o)
    ((m.codec o).encode p (m.isBinary content) [] content).1
    (((m.codec o).encode p (m.isBinary content) [] content).2.map Chunk.hash) = .ok content' →
      content' = content

/-- The content of a file is stored under the hash that uploading it to the path gives. -/
def StoredAsUploaded (m : Machine H S) (p : Str) (f : Entry H) : Prop :=
  ∀ o content, loadFileContent (m.codec o) f.encoding f.chunkHashes = .ok content →
    f.hash = (storedContent (m.codec o) p content).1

/-- The push of a merge says of a path what the merge came to: a file of the target
that is deleted is tracked and unchanged, one that is taken over is stored as uploaded. -/
def LandsAt (m : Machine H S) (s : LocalState H S) (p : Str) (ours : Option (Entry H))
    (outcome : Outcome H) : Prop :=
  (outcome = .deleted → ours ≠ none →
      Deletable (m.codec s.objects) s.repo.snapshot s.repo.disk p) ∧
    ∀ d, outcome = .taken d → d.decision = .keepTheirs → StoredAsUploaded m p d.theirs

/-- A working copy in which every tracked file is on disk with its tracked content. -/
def Clean (codec : Codec H) (c : Repo H) : Prop :=
  ∀ e ∈ c.snapshot.files.entries, (c.disk.lookup e.1).isSome ∧ Removable codec c.disk e.1 e.2

instance (codec : Codec H) (c : Repo H) : Decidable (Clean codec c) :=
  inferInstanceAs (Decidable (∀ e ∈ c.snapshot.files.entries, _ ∧ _))

variable {m : Machine H S} {s : LocalState H S} {o : Objects H} {disk : Disk}
  {base ours theirs : GoMap (Entry H)} {applied : ThreeWayResult H}
  {old : Str → Option (H × List H)} {p : Str}

end Merged

/-! ## What a push sends -/

section Sent

variable {H S : Type} [HashScheme H] [DecidableEq H] {m : Machine H S} {server : PushServer H}
  {message baseTreeHash : Str} {baseCommitID : TextField ID} {parent2 : TextField H}
  {result : PushResult} {call : PushCall H} {s s' : LocalState H S}

/-- A call that carries the stage and the disk of a local state. -/
def CallFrom (m : Machine H S) (s : LocalState H S) (call : PushCall H) : Prop :=
  ∃ (c : Repo H) (message baseTreeHash : Str) (baseCommitID : TextField ID)
    (parent2 : TextField H), c.disk = s.repo.disk ∧ c.staged = s.repo.staged ∧
      call = callOf (m.codec s.objects) c message baseTreeHash baseCommitID parent2

theorem CallFrom.reads (hcf : CollisionFree H) (hcall : CallFrom m s call) {db db' : DB H}
    (hinv : db.StoreInv) {caller : Caller} {projectID : ID} {branchName : Str}
    {old : Str → Option (H × List H)} (hpaths : ∀ p ∈ s.repo.staged, p.head? ≠ some '/')
    (hserved : Served caller projectID branchName db [call] db')
    (hold : BranchReadsAs db projectID branchName old) :
    db'.StoreInv ∧ BranchReadsAs db' projectID branchName
      (pushedOver (m.codec s.objects) s.repo.disk s.repo.staged old) := by
  obtain ⟨c, message, baseTreeHash, baseCommitID, parent2, hdisk, hstaged, rfl⟩ := hcall
  rcases hserved with _ | ⟨hland, hrest⟩
  rcases hrest with _ | _
  rw [← hdisk, ← hstaged]
  exact landPush_reads hcf hinv (by rwa [hstaged]) hland hold

end Sent

/-! ## One merge and its push -/

section Carried

variable {H S : Type} [HashScheme H] [DecidableEq H] {m : Machine H S}
  {base ours theirs : GoMap (Entry H)} {scope : List Str} {applied : ThreeWayResult H}
  {s mid : LocalState H S} {old : Str → Option (H × List H)}

end Carried

/-! ## A chain of reverts -/

section Reverts

variable {H S : Type} [HashScheme H] [DecidableEq H] {m : Machine H S} {a : RevertAnswers H}
  {headID : Str} {st st' : RevertState} {target : CommitRef} {rest refs : List CommitRef}
  {ours files : GoMap (Entry H)} {s s' mid : LocalState H S} {old : Str → Option (H × List H)}

/-- How a round ends that applied its merge: it stops and saves the file map, it leaves
the stage, or it pushes the stage. -/
inductive RoundEnds (m : Machine H S) (st : RevertState) (applied : ThreeWayResult H)
    (mid s' : LocalState H S) : RoundEnd H → Prop
  | stopped (hconflicts : applied.conflicted ≠ [])
      (hsaved : s'.repo.snapshot = saveTree (localTreeHash H) applied.files) :
      RoundEnds m st applied mid s' (.stopped applied.files applied.conflicted)
  | quiet {st' : RevertState} {changed : Bool} (hclean : applied.conflicted = [])
      (hnone : applied.staged = [] ∨ st.noCommit = true)
      (hstage : s'.repo.staged = mid.repo.staged) (hmainline : st'.mainline = st.mainline)
      (hcommit : st'.noCommit = st.noCommit) :
      RoundEnds m st applied mid s' (.next st' applied.files changed none)
  | pushed {st' : RevertState} {changed : Bool} {call : PushCall H}
      (hclean : applied.conflicted = []) (hcall : CallFrom m mid call)
      (hstage : s'.repo.staged = []) (hmainline : st'.mainline = st.mainline)
      (hcommit : st'.noCommit = st.noCommit) :
      RoundEnds m st applied mid s' (.next st' applied.files changed (some call))

omit [DecidableEq H] in
theorem RoundEnds.cases {applied : ThreeWayResult H} {r : RoundEnd H}
    (h : RoundEnds m st applied mid s' r) :
    (applied.conflicted ≠ [] ∧ r = .stopped applied.files applied.conflicted) ∨
      (applied.conflicted = [] ∧ ∃ st' changed sent,
        r = .next st' applied.files changed sent ∧ st'.mainline = st.mainline) := by
  rcases h with ⟨hconflicts, -⟩ | ⟨hclean, -, -, hmainline, -⟩ | ⟨hclean, -, -, hmainline, -⟩
  · exact Or.inl ⟨hconflicts, rfl⟩
  · exact Or.inr ⟨hclean, _, _, _, rfl, hmainline⟩
  · exact Or.inr ⟨hclean, _, _, _, rfl, hmainline⟩

/-- The trees that a revert is answered are trees of paths. -/
def RevertAnswers.TreePaths (a : RevertAnswers H) : Prop :=
  ∀ id detail, a.getCommit id = .ok detail → Client.TreePaths detail.tree

omit [HashScheme H] [DecidableEq H] in
theorem RevertAnswers.TreePaths.round (h : a.TreePaths) {mainline : ℕ} {trees : RoundTrees H}
    (htrees : roundTrees a headID mainline target = .ok trees) :
    Client.TreePaths trees.tree ∧ Client.TreePaths trees.theirs := by
  rw [roundTrees] at htrees
  simp only [bind_eq_ok, pure_eq_ok] at htrees
  obtain ⟨detail, hdetail, theirs, htheirs, rfl⟩ := htrees
  refine ⟨h _ _ hdetail, ?_⟩
  rw [parentTree] at htheirs
  split at htheirs
  · obtain rfl := Except.ok.inj htheirs
    intro p hp
    exact absurd rfl hp
  · obtain ⟨parent, hparent, htheirs⟩ := bind_eq_ok.mp htheirs
    obtain rfl := pure_eq_ok.mp htheirs
    exact h _ _ hparent

variable {db db' : DB H} {caller : Caller} {projectID : ID} {branchName : Str}

omit [DecidableEq H] in
theorem Served.split [DecidableEq H] {calls calls' : List (PushCall H)}
    (h : Served caller projectID branchName db (calls ++ calls') db') :
    ∃ mid, Served caller projectID branchName db calls mid ∧
      Served caller projectID branchName mid calls' db' := by
  induction calls generalizing db with
  | nil => exact ⟨db, .none, h⟩
  | cons call calls ih =>
      rcases h with _ | ⟨hland, hrest⟩
      obtain ⟨mid, hcalls, hcalls'⟩ := ih hrest
      exact ⟨mid, .push hland hcalls, hcalls'⟩

end Reverts

end Nipa.Client
