import Nipa.Client.Conflicts
import Nipa.Merge.LandingPlan
import Nipa.Server.System

/-!
# What a merge commits

A merge without conflicts is committed through an ordinary push: what it took
and merged is uploaded from disk, what it deleted is sent as a removal, and the
server puts these over the head.  A path the merge deletes only reaches the
commit when the snapshot of the working copy still has it and its file is the
tracked one.  The client and the server are put together here: the push of the
merge runs on a store that a server run has reached.
-/

namespace Nipa.Client

open Support Nipa.Merge

section Wire

variable {H : Type}

/-! ## From the call to the request -/

/-- File permissions go over the wire as one of three modes. -/
def wireMode (mode : ℕ) : ℕ :=
  if mode = 0o444 ∨ mode = 444 then 0o444
  else if mode = 0o755 ∨ mode = 755 then 0o755
  else 0o644

def PushCall.wireFiles (call : PushCall H) : List (PushFile H) :=
  call.files.map fun f => { f with mode := wireMode f.mode }

/-- The request a call arrives as; a message too long for its length field is not sent. -/
def PushCall.request (call : PushCall H) (projectID : ID) (branchName : Str) :
    Except DomainError (PushRequest H) :=
  if h : ∀ p ∈ call.wireFiles.map PushFile.path ++ call.removed, (utf8 p).length < 2 ^ 32 then
    .ok
      { projectID := projectID
        branchName := branchName
        baseTreeHash := call.baseTreeHash
        message := call.message
        files := call.wireFiles
        removed := call.removed
        parent2CommitHash := call.parent2CommitHash
        baseCommitID := call.baseCommitID
        paths_fit := h }
  else .error (errInternalServer "message too large" [])

theorem PushCall.request_ok {call : PushCall H} {projectID : ID} {branchName : Str}
    {req : PushRequest H} (h : call.request projectID branchName = .ok req) :
    req.projectID = projectID ∧ req.branchName = branchName ∧ req.files = call.wireFiles ∧
      req.removed = call.removed := by
  rw [PushCall.request] at h
  split at h
  · obtain rfl := Except.ok.inj h
    exact ⟨rfl, rfl, rfl, rfl⟩
  · cases h

variable [DecidableEq H] [HashScheme H]

/-- A call served by a store. -/
def landPush (db : DB H) (caller : Caller) (commitID projectID : ID) (branchName : Str)
    (call : PushCall H) : Except DomainError (DB H) := do
  let req ← call.request projectID branchName
  push db caller commitID req

/-- The server that answers a push from a store; `result` reads the answer off the
store after the push. -/
def storeServer (db : DB H) (caller : Caller) (commitID projectID : ID) (branchName : Str)
    (result : DB H → PushResult) (manifest : Except DomainError (Manifest H)) :
    PushServer H where
  push call := do
    let db' ← landPush db caller commitID projectID branchName call
    return result db'
  manifest := manifest

end Wire

/-! ## What is sent of a path -/

section Sent

variable {H : Type} [HashScheme H]

/-- How content is stored: its hash and its chunks, as an upload encodes it. -/
def storedContent (codec : Codec H) (p : Str) (content : List UInt8) : H × List H :=
  let hashes := (codec.encode p (codec.isBinary content) [] content).2.map Chunk.hash
  (fileHash hashes, hashes)

/-- A request that carries a working copy's stage. -/
structure Carries (codec : Codec H) (c : Repo H) (req : PushRequest H) : Prop where
  files : req.files = (uploads c.disk c.staged).map fun e =>
    { scanPushFile codec e.1 e.2 with mode := wireMode e.2.perm }
  removed : req.removed = removals c.disk c.staged

theorem carries_of_request {codec : Codec H} {c : Repo H} {message baseTreeHash : Str}
    {baseCommitID : TextField ID} {parent2 : TextField H} {projectID : ID} {branchName : Str}
    {req : PushRequest H}
    (h : (callOf codec c message baseTreeHash baseCommitID parent2).request projectID
      branchName = .ok req) : Carries codec c req := by
  obtain ⟨-, -, hfiles, hremoved⟩ := PushCall.request_ok h
  refine ⟨?_, hremoved⟩
  rw [hfiles, PushCall.wireFiles, callOf, scanPushFiles, List.map_map]
  rfl

variable {codec : Codec H} {c : Repo H} {req : PushRequest H}
  {old : Str → Option (H × List H)} {p : Str}

theorem Carries.mem_touched (h : Carries codec c req) :
    p ∈ req.files.map PushFile.path ++ req.removed ↔ p ∈ c.staged := by
  rw [List.mem_append, h.files, h.removed, List.map_map]
  constructor
  · rintro (hp | hp)
    · obtain ⟨⟨q, w⟩, hmem, rfl⟩ := List.mem_map.mp hp
      exact (mem_uploads.mp hmem).1
    · exact (mem_removals.mp hp).1
  · intro hp
    rcases hdisk : c.disk.lookup p with _ | w
    · exact Or.inr (mem_removals.mpr ⟨hp, hdisk⟩)
    · exact Or.inl (List.mem_map.mpr ⟨(p, w), mem_uploads.mpr ⟨hp, hdisk⟩, rfl⟩)

theorem Carries.pushedMap_unstaged (h : Carries codec c req) (hp : p ∉ c.staged) :
    pushedMap req old p = old p := by
  have hnot := mt h.mem_touched.mp hp
  rw [List.mem_append, not_or] at hnot
  rw [pushedMap, if_neg hnot.2]
  split
  next f hf =>
    have hpath : f.path = p := by simpa using List.find?_some hf
    exact absurd (List.mem_map.mpr ⟨f, List.mem_of_find?_eq_some hf, hpath⟩) hnot.1
  · rfl

theorem Carries.pushedMap_upload (h : Carries codec c req) (hp : p ∈ c.staged)
    {w : WorkFile} (hw : c.disk.lookup p = some w) :
    pushedMap req old p = some (storedContent codec p w.content) := by
  have hmem : { scanPushFile codec p w with mode := wireMode w.perm } ∈ req.files := by
    rw [h.files]
    exact List.mem_map.mpr ⟨(p, w), mem_uploads.mpr ⟨hp, hw⟩, rfl⟩
  rw [pushedMap]
  split
  next f hf =>
    have hpath : f.path = p := by simpa using List.find?_some hf
    have hfiles := List.mem_of_find?_eq_some hf
    rw [h.files] at hfiles
    obtain ⟨⟨q, v⟩, hv, rfl⟩ := List.mem_map.mp hfiles
    obtain rfl : q = p := hpath
    obtain rfl : v = w := Option.some.inj ((mem_uploads.mp hv).2.symm.trans hw)
    rfl
  next hnone =>
    have hne : (scanPushFile codec p w).path ≠ p := by
      simpa using List.find?_eq_none.mp hnone _ hmem
    exact absurd rfl hne

theorem Carries.pushedMap_removal (h : Carries codec c req) (hp : p ∈ c.staged)
    (hmissing : c.disk.lookup p = none) : pushedMap req old p = none := by
  have hrem : p ∈ req.removed := by
    rw [h.removed]
    exact mem_removals.mpr ⟨hp, hmissing⟩
  rw [pushedMap, if_pos hrem]
  split
  next f hf =>
    have hpath : f.path = p := by simpa using List.find?_some hf
    have hfiles := List.mem_of_find?_eq_some hf
    rw [h.files] at hfiles
    obtain ⟨⟨q, v⟩, hv, rfl⟩ := List.mem_map.mp hfiles
    obtain rfl : q = p := hpath
    exact absurd ((mem_uploads.mp hv).2.symm.trans hmissing) (by simp)
  · rfl

end Sent

/-! ## The merge commit -/

section Commit

variable {H : Type} [HashScheme H] [DecidableEq H]

/-- Encoding content and reading it back gives the content. -/
def Codec.RoundTrips (codec : Codec H) : Prop :=
  ∀ p content, loadFileContent codec (codec.encode p (codec.isBinary content) [] content).1
    ((codec.encode p (codec.isBinary content) [] content).2.map Chunk.hash) = .ok content

/-- The paths of a flattened tree are joined paths of names. -/
def TreePaths (m : GoMap (Entry H)) : Prop :=
  ∀ p, m.lookup p ≠ none → ∃ segs, ValidSegs segs ∧ p = pathOf segs

/-- What the three-way merge makes of a path: the target's file where nothing is taken,
the content of the source or the merged content where something is, and nothing
where the path is deleted. -/
def MergedAt (codec : Codec H) (p : Str) (ours new : Option (H × List H)) :
    Outcome H → Prop
  | .unchanged => new = ours
  | .deleted => new = none
  | .conflict _ => False
  | .taken d =>
      (d.decision = .keepOurs ∧ new = ours) ∨
      (d.decision = .keepTheirs ∧ ∃ content,
        loadFileContent codec d.theirs.encoding d.theirs.chunkHashes = .ok content ∧
        new = some (storedContent codec p content)) ∨
      (d.decision = .textMerge ∧ ∃ base ours theirs,
        loadFileContent codec d.base.encoding d.base.chunkHashes = .ok base ∧
        loadFileContent codec d.ours.encoding d.ours.chunkHashes = .ok ours ∧
        loadFileContent codec d.theirs.encoding d.theirs.chunkHashes = .ok theirs ∧
        new = some (storedContent codec p (codec.mergeText base ours theirs).1))

omit [DecidableEq H] in
theorem materializedFile_mergedFile {codec : Codec H} (hround : codec.RoundTrips) {p : Str}
    {d : Decided H} {base ours theirs : List UInt8} {w : WorkFile}
    (h : materializedFile codec (mergedFile codec p d base ours theirs) = .ok w) :
    w.content = (codec.mergeText base ours theirs).1 := by
  have hload := materializedFile_content h
  rw [mergedFile, encodeMergedFile] at hload
  exact Except.ok.inj (hload.symm.trans (hround p _))

section Path

variable {codec : Codec H} {c : Repo H} {info : MergeBaseInfo H} {target : Manifest H}
  {source : GoMap (Entry H)} {disk : Disk} {applied : ThreeWayResult H}

omit [HashScheme H] [DecidableEq H] in
theorem mem_mergedCopy_staged (hstaged : c.staged = []) {p : Str} :
    p ∈ (mergedCopy c info target disk applied).staged ↔ p ∈ applied.staged := by
  rw [mergedCopy, mem_stageAddMany, hstaged]
  simp

/-- At every path but a deleted one the push carries the merged file; a deletion is
carried when the file was tracked and unchanged. -/
theorem mergedAt_iff (hround : codec.RoundTrips)
    (happlied : applyThreeWay codec c.snapshot c.disk target.files
      (threeWay info.mergeBase target.files source) = .ok (disk, applied))
    (hclean : applied.conflicted = []) (hstaged : c.staged = []) {req : PushRequest H}
    (hreq : Carries codec (mergedCopy c info target disk applied) req)
    {old : Str → Option (H × List H)} (p : Str)
    (hold : old p = (target.files.lookup p).map fun f => (f.hash, f.chunkHashes)) :
    MergedAt codec p (old p) (pushedMap req old p)
        (outcomeAt (info.mergeBase.lookup p) (target.files.lookup p) (source.lookup p)) ↔
      (outcomeAt (info.mergeBase.lookup p) (target.files.lookup p) (source.lookup p) =
          .deleted → target.files.lookup p ≠ none → Deletable codec c.snapshot c.disk p) := by
  have hpath := applyThreeWay_ok happlied p
  have hin : p ∈ (mergedCopy c info target disk applied).staged ↔ p ∈ applied.staged :=
    mem_mergedCopy_staged hstaged
  rcases hout : outcomeAt (info.mergeBase.lookup p) (target.files.lookup p)
    (source.lookup p) with _ | d | _ | d
  all_goals rw [hout] at hpath
  · have hnot : p ∉ applied.staged := by
      rw [hpath.staged]
      simp [mergeStart]
    simp [MergedAt, hreq.pushedMap_unstaged (mt hin.mp hnot)]
  · obtain ⟨eff, heff, hat⟩ := hpath
    refine iff_of_true ?_ (by simp)
    rcases outcomeAt_taken hout with ⟨hd, -⟩ | ⟨hd, -⟩ | ⟨hd, -⟩
    · rw [entryEffect_keepOurs heff hd] at hat
      have hnot : p ∉ applied.staged := by
        rw [hat.staged]
        simp [mergeStart]
      exact Or.inl ⟨hd, hreq.pushedMap_unstaged (mt hin.mp hnot)⟩
    · obtain ⟨w, hw, rfl⟩ := entryEffect_keepTheirs heff hd
      refine Or.inr (Or.inl ⟨hd, w.content, materializedFile_content hw, ?_⟩)
      exact hreq.pushedMap_upload (hin.mpr (hat.staged.mpr (Or.inl rfl))) hat.disk
    · obtain ⟨base, ours, theirs, w, hbase, hours, htheirs, hw, hwrite, -, hstage⟩ :=
        entryEffect_textMerge heff hd
      refine Or.inr (Or.inr ⟨hd, base, ours, theirs, hbase, hours, htheirs, ?_⟩)
      rw [← materializedFile_mergedFile hround hw]
      refine hreq.pushedMap_upload (hin.mpr (hat.staged.mpr (Or.inl hstage))) ?_
      have hdisk := hat.disk
      rwa [hwrite] at hdisk
  · by_cases hdel : Deletable codec c.snapshot c.disk p
    · have hmissing := hpath.disk
      have hstage := hpath.staged
      simp only [mergeStart, hdel, if_true, true_or, iff_true] at hmissing hstage
      simp [MergedAt, hreq.pushedMap_removal (hin.mpr hstage) hmissing, hdel]
    · have hnot : p ∉ applied.staged := by
        rw [hpath.staged]
        simp [mergeStart, hdel]
      simp [MergedAt, hreq.pushedMap_unstaged (mt hin.mp hnot), hold, hdel]
  · obtain ⟨eff, heff, hat⟩ := hpath
    have hconflict := hat.conflicted
    rw [hclean] at hconflict
    simp [(entryEffect_conflict heff (conflict_decision hout)).2.2.1] at hconflict

theorem segs_of_staged {snapshot : Snapshot H} {before : Disk}
    {base ours source : GoMap (Entry H)} (hbase : TreePaths base) (hsource : TreePaths source)
    (happlied : applyThreeWay codec snapshot before ours (threeWay base ours source) =
      .ok (disk, applied)) {p : Str} (hp : p ∈ applied.staged) :
    ∃ segs, ValidSegs segs ∧ p = pathOf segs := by
  have hpath := applyThreeWay_ok happlied p
  rcases hout : outcomeAt (base.lookup p) (ours.lookup p) (source.lookup p) with _ | d | _ | d
  all_goals rw [hout] at hpath
  · rw [hpath.staged] at hp
    simp [mergeStart] at hp
  · obtain ⟨eff, heff, hat⟩ := hpath
    rcases outcomeAt_taken hout with ⟨hd, -⟩ | ⟨-, htheirs⟩ | ⟨-, -, htheirs⟩
    · rw [entryEffect_keepOurs heff hd] at hat
      rw [hat.staged] at hp
      simp [mergeStart] at hp
    · exact hsource p (by simp [htheirs])
    · exact hsource p (by simp [htheirs])
  · exact hbase p (outcomeAt_deleted hout)
  · obtain ⟨eff, heff, hat⟩ := hpath
    rw [hat.staged, (entryEffect_conflict heff (conflict_decision hout)).2.1] at hp
    simp [mergeStart] at hp

end Path

theorem mergeTreeOf_paths {db : DB H} (hinv : db.StoreInv) {projectID : ID}
    {commitID : Option ID} {m : GoMap (Entry H)}
    (h : mergeTreeOf db projectID commitID = .ok m) : TreePaths m := by
  rcases commitID with _ | id
  · obtain rfl := Except.ok.inj h
    intro p hp
    exact absurd rfl hp
  · intro p hp
    obtain ⟨e, he⟩ := Option.ne_none_iff_exists'.mp hp
    obtain ⟨segs, hne, hstored, rfl⟩ := (mergeTree_entryOK hinv h p e he).path_ok
    exact ⟨segs, ⟨hne, fun n hn => (hstored n hn).1⟩, rfl⟩

theorem mergeTreeOf_headMap {db : DB H} (hinv : db.StoreInv) {projectID : ID} {branch : Branch}
    {headCommit : Option (Commit H)} {m : GoMap (Entry H)}
    (hhead : headCommitOf db branch = .ok headCommit)
    (h : mergeTreeOf db projectID branch.commitID = .ok m) (p : Str) :
    headMap db headCommit p = (m.lookup p).map fun f => (f.hash, f.chunkHashes) := by
  obtain ⟨hid, hget⟩ := headCommitOf_ok hhead
  rcases headCommit with _ | head
  · rw [hid] at h
    obtain rfl := Except.ok.inj h
    rfl
  · rw [hid] at h
    obtain ⟨c, row, hc, hrow, hflat⟩ := mergeTree_ok hinv h
    obtain ⟨hc, -, -⟩ := commitByIDInProject_ok hc
    obtain rfl := Option.some.inj ((hget head rfl).symm.trans hc)
    rw [headMap, hrow, Option.bind_some, hflat.lookup_eq, contentMap, Option.map_map]
    rcases hfile : fileAt db row.hash p with _ | f
    · rfl
    · rw [Option.map_some, Option.map_some, fileAt_hash hinv.toStoreShape hfile]
      rfl

/-- The head of a branch reads as a map. -/
def HeadReadsAs (db : DB H) (projectID : ID) (branchName : Str)
    (m : Str → Option (H × List H)) : Prop :=
  ∃ branch commit, db.getBranchByName projectID branchName = some branch ∧
    branch.commitID = some commit.id ∧ db.getCommit commit.id = some commit ∧
    ReadsAs db commit.treeID m

/-- A merge that commits leaves the three-way result at the head exactly when every
file of the target that the merge deletes is tracked by the working copy and
unchanged there. -/
theorem merge_commit_iff {store : ContentStore H} (hcf : CollisionFree H) {s₀ s : Server H}
    (hfresh : s₀.Fresh) (hrun : ServerRun store (fun _ _ => True) s₀ s) {codec : Codec H}
    (hround : codec.RoundTrips) {session : Except DomainError Unit} {caller : Caller}
    {commitID projectID : ID} {result : DB H → PushResult}
    {manifest : Except DomainError (Manifest H)}
    {forward : Except DomainError (Manifest H × TextField ID)} {c c' : Repo H}
    {sourceBranch targetBranch : Str} {info : MergeBaseInfo H} {target : Manifest H}
    {source : GoMap (Entry H)} {opts : MergeOptions}
    (hhead : ∀ branch, s.db.getBranchByName projectID targetBranch = some branch →
      mergeTreeOf s.db projectID branch.commitID = .ok target.files)
    (hbase : ∃ id, mergeTreeOf s.db projectID id = .ok info.mergeBase)
    (hsource : ∃ id, mergeTreeOf s.db projectID id = .ok source)
    (hmerge : runMerge codec session
      (storeServer s.db caller commitID projectID targetBranch result manifest) forward c
      sourceBranch targetBranch info target source opts = .ok (.committed c')) :
    ∃ disk applied call db' m, applyThreeWay codec c.snapshot c.disk target.files
        (threeWay info.mergeBase target.files source) = .ok (disk, applied) ∧
      call = callOf codec (mergedCopy c info target disk applied)
        (mergeMessage sourceBranch targetBranch opts.message) target.hash info.targetCommitID
        info.sourceCommitHash ∧
      landPush s.db caller commitID projectID targetBranch call = .ok db' ∧
      HeadReadsAs db' projectID targetBranch m ∧
      ((∀ p, MergedAt codec p ((target.files.lookup p).map fun f => (f.hash, f.chunkHashes))
          (m p) (outcomeAt (info.mergeBase.lookup p) (target.files.lookup p)
            (source.lookup p))) ↔
        ∀ p, outcomeAt (info.mergeBase.lookup p) (target.files.lookup p) (source.lookup p) =
          .deleted → target.files.lookup p ≠ none → Deletable codec c.snapshot c.disk p) := by
  have hinv := ServerRun.storeInv hcf hfresh hrun
  obtain ⟨_, hbase⟩ := hbase
  obtain ⟨_, hsource⟩ := hsource
  rcases runMerge_ok hmerge with h | ⟨_, h⟩ | ⟨hstaged, htrue⟩
  · cases h
  · cases h
  · obtain ⟨disk, applied, happlied, hend⟩ := trueMerge_ok htrue
    rcases hend with ⟨-, h⟩ | ⟨hclean, ⟨c'', hpush, h⟩ | ⟨e, h⟩⟩
    · cases h
    · obtain ⟨-, -, -, -, -, answer, tree, hserver, -, -⟩ := runPush_eq_ok.mp hpush
      obtain ⟨db', hland, -⟩ := bind_eq_ok.mp hserver
      obtain ⟨req, hreq, hpushed⟩ := bind_eq_ok.mp hland
      have hcarries := carries_of_request hreq
      obtain ⟨hproject, hbranch, -, -⟩ := PushCall.request_ok hreq
      have hnorm : Normalised req := by
        intro p hp
        have hp := (mem_mergedCopy_staged hstaged).mp (hcarries.mem_touched.mp hp)
        obtain ⟨segs, hsegs, rfl⟩ := segs_of_staged (mergeTreeOf_paths hinv hbase)
          (mergeTreeOf_paths hinv hsource) happlied hp
        exact pathOf_head?_ne hsegs.2
      obtain ⟨files, branch, userID, headCommit, parent2, plan, root, mid, hp⟩ := push_ok hpushed
      obtain ⟨commit, hbranch', hget, hreads⟩ := hp.readsAs_pushedMap hinv hcf
        (push_grows hinv hcf hpushed) hnorm
      rw [hproject, hbranch] at hbranch'
      have hold : ∀ p, headMap s.db headCommit p =
          (target.files.lookup p).map fun f => (f.hash, f.chunkHashes) := by
        have hopen := (openBranch_ok hp.opened).1
        rw [hproject, hbranch] at hopen
        exact mergeTreeOf_headMap hinv hp.planned.head_eq (hhead branch hopen)
      refine ⟨disk, applied, _, db', _, happlied, rfl, hland,
        ⟨_, commit, hbranch', rfl, hget, hreads⟩, forall_congr' fun p => ?_⟩
      rw [← hold p]
      exact mergedAt_iff hround happlied hclean hstaged hcarries p (hold p)
    · cases h

end Commit

/-! ## A deletion that is lost -/

/-- The store of the example holds the chunk of a binary file as well. -/
def staleStore : DB IdealHash :=
  { demoStore with
    chunks := demoStore.chunks ++ [⟨.digest [0, 5], 2⟩]
    projectChunkUploads := demoStore.projectChunkUploads ++ [(1, .digest [0, 5])] }

def mainPush : PushRequest IdealHash :=
  { demoPush with
    files := [demoFile "a.txt" 1, demoFile "d.txt" 2]
    paths_fit := by decide }

def devPush : PushRequest IdealHash :=
  { demoPush with
    branchName := "dev".toList
    files := [⟨"n.bin".toList, 0o644, 2, true, [], fileHash [.digest [0, 5]], [.digest [0, 5]]⟩]
    removed := ["d.txt".toList]
    baseCommitID := .value "7".toList 7
    paths_fit := by decide }

def staleServer : Server IdealHash := ⟨staleStore, fun _ => none⟩

def devBranch : Branch := ⟨2, 1, "dev".toList, false, false, some 7, false⟩

def staleSteps : Except DomainError (DB IdealHash) := do
  let db ← push staleStore demoCaller 7 mainPush
  push { db with branches := db.branches ++ [devBranch] } demoCaller 8 devPush

def staleDB : DB IdealHash := staleSteps.toOption.getD staleStore

theorem staleSteps_ok : staleSteps = .ok staleDB :=
  eq_ok_of_toOption staleStore (by decide +kernel)

theorem addBranch_housekeeping {H : Type} {db : DB H} {b : Branch}
    (hids : ((db.branches ++ [b]).map Branch.id).Nodup)
    (hheads : ∀ b' ∈ db.branches ++ [b], ∀ c ∈ b'.commitID, c ∈ db.commits.map Commit.id) :
    Housekeeping db { db with branches := db.branches ++ [b] } :=
  ⟨⟨rfl, rfl, rfl⟩, hids, fun b' hb' => ⟨b', List.mem_append_left _ hb', rfl, rfl, id⟩, hheads⟩

theorem stale_run : ∃ s, ServerRun noContent (fun _ _ => True) staleServer s ∧
    s.db = staleDB := by
  have hmain : ServerRun noContent (fun _ _ => True) staleServer _ :=
    ((((Run.refl _).tail (e := Event.startPush 0 demoCaller 7 mainPush) trivial
      (.startPush rfl rfl rfl)).tail (e := Event.lockPush 0) trivial (.lockPush rfl rfl)).tail
      (e := Event.planPush 0) trivial (.planPush rfl rfl)).tail (e := Event.writePush 0) trivial
      (.writePush rfl rfl)
  have hbranch := hmain.tail (e := Event.other) trivial
    (.other (addBranch_housekeeping (b := devBranch) (by decide) (by decide)))
  refine ⟨_, (((hbranch.tail (e := Event.startPush 0 demoCaller 8 devPush) trivial
    (.startPush rfl rfl rfl)).tail (e := Event.lockPush 0) trivial (.lockPush rfl rfl)).tail
    (e := Event.planPush 0) trivial (.planPush rfl rfl)).tail (e := Event.writePush 0) trivial
    (.writePush rfl rfl), ?_⟩
  exact Except.ok.inj ((rfl : _ = staleSteps).trans staleSteps_ok)

/-- The flattened tree of one of its commits. -/
def staleTree (id : ID) : GoMap (Entry IdealHash) :=
  (mergeTreeOf staleDB 1 (some id)).toOption.getD ∅

def staleInfo : MergeBaseInfo IdealHash where
  mergeBaseCommitID := .value "7".toList 7
  targetCommitID := .value "7".toList 7
  sourceCommitID := .value "8".toList 8
  sourceCommitHash := .value "s".toList (((staleDB.getCommit 8).map Commit.hash).getD .zero)
  mergeBase := staleTree 7

def staleCopy : Repo IdealHash where
  disk := AList.singleton "a.txt".toList ⟨[1], 0o644⟩
  snapshot := saveTree "old".toList (AList.singleton "a.txt".toList
    (((staleTree 7).lookup "a.txt".toList).getD Diff.zeroEntry))
  staged := []
  merge := none
  revert := none
  commit := .value "6".toList 6

def staleAnswer : PushServer IdealHash :=
  storeServer staleDB demoCaller 9 1 "main".toList (fun _ => ⟨[], .value "9".toList 9⟩)
    (.ok ⟨[], ∅⟩)

def staleTarget : Manifest IdealHash := ⟨"head".toList, staleTree 7⟩

def staleOutcome : Except DomainError (MergeOutcome IdealHash) :=
  runMerge demoCodec (.ok ()) staleAnswer (.error errNoPermission) staleCopy "dev".toList
    "main".toList staleInfo staleTarget (staleTree 8) ⟨false, true, []⟩

def MergeOutcome.committed? {H : Type} : MergeOutcome H → Option (Repo H)
  | .committed c => some c
  | _ => none

theorem committed_of_isSome {H : Type} {x : Except DomainError (MergeOutcome H)}
    (h : (x.toOption.bind MergeOutcome.committed?).isSome = true) :
    ∃ c', x = .ok (.committed c') := by
  rcases x with e | (_ | _ | _ | c | _)
  case ok.committed => exact ⟨c, rfl⟩
  all_goals simp [Except.toOption, MergeOutcome.committed?] at h

theorem staleOutcome_committed : ∃ c', staleOutcome = .ok (.committed c') :=
  committed_of_isSome (by decide +kernel)

def staleApplied : Except DomainError (Disk × ThreeWayResult IdealHash) :=
  applyThreeWay demoCodec staleCopy.snapshot staleCopy.disk staleTarget.files
    (threeWay staleInfo.mergeBase staleTarget.files (staleTree 8))

def staleCall : PushCall IdealHash :=
  let applied := staleApplied.toOption.getD (∅, ⟨∅, [], [], [], ∅, []⟩)
  callOf demoCodec (mergedCopy staleCopy staleInfo staleTarget applied.1 applied.2)
    (mergeMessage "dev".toList "main".toList []) staleTarget.hash staleInfo.targetCommitID
    staleInfo.sourceCommitHash

def staleLanded : Except DomainError (DB IdealHash) :=
  landPush staleDB demoCaller 9 1 "main".toList staleCall

/-- The merge is committed; the source removed `d.txt` and the commit still has it. -/
theorem stale_deletion_lost :
    ∃ s c' db' tree, ServerRun noContent (fun _ _ => True) staleServer s ∧ s.db = staleDB ∧
      staleOutcome = .ok (.committed c') ∧ staleLanded = .ok db' ∧
      mergeTreeOf db' 1 (some 9) = .ok tree ∧ (tree.lookup "d.txt".toList).isSome = true ∧
      outcomeAt (staleInfo.mergeBase.lookup "d.txt".toList)
        (staleTarget.files.lookup "d.txt".toList) ((staleTree 8).lookup "d.txt".toList) =
        .deleted := by
  obtain ⟨s, hrun, hdb⟩ := stale_run
  obtain ⟨c', hc'⟩ := staleOutcome_committed
  refine ⟨s, c', staleLanded.toOption.getD staleDB,
    (mergeTreeOf (staleLanded.toOption.getD staleDB) 1 (some 9)).toOption.getD ∅, hrun, hdb,
    hc', eq_ok_of_toOption _ (by decide +kernel), eq_ok_of_toOption _ (by decide +kernel),
    by decide +kernel, by decide +kernel⟩

theorem demoCodec_roundTrips : demoCodec.RoundTrips := by
  intro p content
  rcases content with _ | ⟨b, rest⟩
  · rfl
  · simp [demoCodec, loadFileContent]
    rfl

theorem merge_commit_stale :
    ∃ s disk applied call db' m, ServerRun noContent (fun _ _ => True) staleServer s ∧
      applyThreeWay demoCodec staleCopy.snapshot staleCopy.disk staleTarget.files
        (threeWay staleInfo.mergeBase staleTarget.files (staleTree 8)) = .ok (disk, applied) ∧
      landPush s.db demoCaller 9 1 "main".toList call = .ok db' ∧
      HeadReadsAs db' 1 "main".toList m ∧
      ¬ ∀ p, MergedAt demoCodec p
          ((staleTarget.files.lookup p).map fun f => (f.hash, f.chunkHashes)) (m p)
          (outcomeAt (staleInfo.mergeBase.lookup p) (staleTarget.files.lookup p)
            ((staleTree 8).lookup p)) := by
  obtain ⟨s, hrun, hdb⟩ := stale_run
  obtain ⟨c', hc'⟩ := staleOutcome_committed
  have hseven : mergeTreeOf s.db 1 (some 7) = .ok (staleTree 7) := by
    rw [hdb]
    exact eq_ok_of_toOption ∅ (by decide +kernel)
  have height : mergeTreeOf s.db 1 (some 8) = .ok (staleTree 8) := by
    rw [hdb]
    exact eq_ok_of_toOption ∅ (by decide +kernel)
  have hhead : ∀ branch, s.db.getBranchByName 1 "main".toList = some branch →
      mergeTreeOf s.db 1 branch.commitID = .ok staleTarget.files := by
    intro branch hbranch
    have hmain : staleDB.getBranchByName 1 "main".toList =
        some ⟨1, 1, "main".toList, false, true, some 7, false⟩ := by decide +kernel
    rw [hdb, hmain] at hbranch
    rw [← Option.some.inj hbranch]
    exact hseven
  rw [staleOutcome, staleAnswer, ← hdb] at hc'
  obtain ⟨disk, applied, call, db', m, happlied, -, hland, hreads, hiff⟩ :=
    merge_commit_iff IdealHash.collisionFree ⟨⟨rfl, rfl, rfl⟩, by decide, by decide, fun _ => rfl⟩
      hrun demoCodec_roundTrips hhead ⟨some 7, hseven⟩ ⟨some 8, height⟩ hc'
  refine ⟨s, disk, applied, call, db', m, hrun, happlied, hland, hreads, fun hall => ?_⟩
  have hdel := hiff.mp hall "d.txt".toList (by decide +kernel) (by decide +kernel)
  exact absurd hdel (by decide +kernel)

end Nipa.Client
