import Nipa.Push.Accepted

/-!
# Runs of accepted pushes

An accepted push keeps the store invariant and adds one commit on top of the
head it was planned against.  Reading that commit back gives the head's map
with the removed paths taken out and the pushed files written over it, and no
later change of the store alters what a commit reads as.
-/

namespace Nipa

open Support

/-! ## The map a push leaves -/

section Refinement

variable {H : Type} [DecidableEq H]

/-- No touched path starts with a slash. -/
def Normalised (req : PushRequest H) : Prop :=
  ∀ p ∈ req.files.map PushFile.path ++ req.removed, p.head? ≠ some '/'

instance (req : PushRequest H) : Decidable (Normalised req) :=
  inferInstanceAs (Decidable (∀ p ∈ req.files.map PushFile.path ++ req.removed,
    p.head? ≠ some '/'))

/-- The abstract effect of a push: take the removed paths out, write the pushed
files over the rest. -/
def pushedMap (req : PushRequest H) (old : Str → Option (H × List H)) (p : Str) :
    Option (H × List H) :=
  match req.files.find? fun f => f.path = p with
  | some f => some (f.fileHash, f.chunkHashes)
  | none => if p ∈ req.removed then none else old p

/-- The content map of a head commit; an unborn branch has none. -/
def headMap (db : DB H) (headCommit : Option (Commit H)) (p : Str) :
    Option (H × List H) :=
  (headRow db headCommit).bind fun row => contentMap db row.hash p

variable {db : DB H}

theorem baseFind_hash (headCommit : Option (Commit H)) {segs : List Str} (hsegs : ValidSegs segs) :
    (baseFind db (headRow db headCommit) segs).map NodeFile.hash =
      (headMap db headCommit (pathOf segs)).map Prod.fst := by
  rw [baseFind, headMap]
  rcases headRow db headCommit with _ | row
  · rfl
  · rw [Option.bind_some, Option.bind_some, contentMap, fileAt_pathOf hsegs, Option.map_map,
      Option.map_map]
    rfl

variable [HashScheme H]

variable {p : Str}

theorem contentMap_hash (hs : db.StoreShape) {h : H} :
    ∀ x ∈ contentMap db h p, x.1 = fileHash x.2 := by
  intro x hx
  obtain ⟨f, hf, rfl⟩ := Option.map_eq_some_iff.mp hx
  exact fileAt_hash hs hf

theorem contentMap_eq_none (hs : db.StoreShape) {h : H}
    (hp : ¬ ∃ segs, ValidSegs segs ∧ p = pathOf segs) : contentMap db h p = none := by
  rw [contentMap, Option.map_eq_none_iff]
  by_contra hne
  obtain ⟨f, hf⟩ := Option.ne_none_iff_exists'.mp hne
  exact hp (validSegs_of_fileAt hs hf)

theorem headMap_hash (hs : db.StoreShape) {headCommit : Option (Commit H)} :
    ∀ x ∈ headMap db headCommit p, x.1 = fileHash x.2 := by
  intro x hx
  obtain ⟨row, -, hx⟩ := Option.bind_eq_some_iff.mp hx
  exact contentMap_hash hs x hx

variable {caller : Caller} {req : PushRequest H} {files : List (PushFile H)}

theorem exists_segs_of_touched (haccept : acceptPush caller req = .ok files)
    (hnorm : Normalised req) (hp : p ∈ req.files.map PushFile.path ++ req.removed) :
    ∃ segs, ValidSegs segs ∧ p = pathOf segs := by
  have hreq := acceptPush_requestOK haccept
  obtain ⟨rfl, -⟩ := acceptPush_ok haccept
  refine (hreq.path_ok p ?_).exists_segs (hnorm p hp)
  rcases List.mem_append.mp hp with hp | hp
  · obtain ⟨f, hf, rfl⟩ := List.mem_map.mp hp
    exact Or.inl (List.mem_map.mpr ⟨servedFile f, List.mem_map_of_mem hf, by simp⟩)
  · exact Or.inr hp

theorem pushedMap_hash (haccept : acceptPush caller req = .ok files)
    {old : Str → Option (H × List H)} (hold : ∀ x ∈ old p, x.1 = fileHash x.2) :
    ∀ x ∈ pushedMap req old p, x.1 = fileHash x.2 := by
  obtain ⟨rfl, -, hfiles, -⟩ := acceptPush_ok haccept
  intro x hx
  rw [pushedMap] at hx
  split at hx
  next f hf =>
    obtain rfl := Option.some.inj hx
    have hserved := (hfiles _ (List.mem_map_of_mem (List.mem_of_find?_eq_some hf))).2
    rw [servedFile_chunkHashes, servedFile_fileHash] at hserved
    exact hserved.symm
  · split at hx
    · simp at hx
    · exact hold x hx

theorem pushedMap_eq_none (haccept : acceptPush caller req = .ok files) (hnorm : Normalised req)
    {old : Str → Option (H × List H)} (hp : ¬ ∃ segs, ValidSegs segs ∧ p = pathOf segs)
    (hold : old p = none) : pushedMap req old p = none := by
  rw [pushedMap]
  split
  next f hf =>
    have hpath : f.path = p := by simpa using List.find?_some hf
    refine absurd (exists_segs_of_touched haccept hnorm (p := p) ?_) hp
    rw [← hpath]
    exact List.mem_append_left _ (List.mem_map_of_mem (List.mem_of_find?_eq_some hf))
  · rw [hold, ite_self]

theorem Committed.contentMap_eq {db' : DB H} {headCommit : Option (Commit H)} {c : Commit H}
    (hcf : CollisionFree H) (hs : db.StoreShape) (haccept : acceptPush caller req = .ok files)
    (hnorm : Normalised req) (hc : Committed db headCommit files req.removed db' c)
    {row : TreeRow H} (hr : row ∈ db'.treeNodes) (hid : row.id = c.treeID) :
    contentMap db' row.hash = pushedMap req (headMap db headCommit) := by
  have hs' := hc.inv.toStoreShape
  have hreq := acceptPush_requestOK haccept
  obtain ⟨hfiles, hnodup, -⟩ := acceptPush_ok haccept
  obtain ⟨row', hr', hid', hreads⟩ := hc.reads
  obtain rfl := hs'.eq_of_id_eq hr hr' (hid.trans hid'.symm)
  funext p
  by_cases hp : ∃ segs, ValidSegs segs ∧ p = pathOf segs
  · obtain ⟨segs, hsegs, rfl⟩ := hp
    apply content_ext hcf (contentMap_hash hs') (pushedMap_hash haccept (headMap_hash hs))
    have hslash : ∀ p, p ∈ files.map PushFile.path ∨ p ∈ req.removed →
        p.head? ≠ some '/' := by
      intro p hp
      apply hnorm p
      rcases hp with hp | hp
      · rw [hfiles, List.map_map] at hp
        obtain ⟨f, hf, rfl⟩ := List.mem_map.mp hp
        exact List.mem_append_left _ (List.mem_map.mpr ⟨f, hf, by simp⟩)
      · exact List.mem_append_right _ hp
    have hread : (contentMap db' row.hash (pathOf segs)).map Prod.fst =
        (db'.storeTree.find row.hash segs).map File.hash := by
      rw [contentMap, fileAt_pathOf hsegs, Option.map_map]
      rfl
    rw [hread, hreads segs hsegs, updated_eq hreq hslash hnodup hsegs, hfiles, find?_served,
      pushedMap]
    rcases hfind : req.files.find? (fun f => f.path = pathOf segs) with _ | f
    · by_cases hrem : pathOf segs ∈ req.removed
      · simp [hfind, hrem]
      · simpa [hfind, hrem] using baseFind_hash headCommit hsegs
    · simp [hfind, TreeBuilder.nodeFileOfPush]
  · have hold : headMap db headCommit p = none := by
      rw [headMap]
      rcases headRow db headCommit with _ | r
      · rfl
      · exact contentMap_eq_none hs hp
    rw [contentMap_eq_none hs' hp, pushedMap_eq_none haccept hnorm hp hold]

end Refinement

/-! ## Runs -/

section Runs

variable {H : Type}

variable {db db' : DB H}

theorem getBranchByName_update {projectID : ID} {name : Str} {branch : Branch}
    (h : db.getBranchByName projectID name = some branch) {commitID : ID}
    (hb : db'.branches = branchUpdateCommit db.branches branch.id commitID) :
    db'.getBranchByName projectID name = some { branch with commitID := some commitID } := by
  rw [DB.getBranchByName] at h ⊢
  rw [hb, branchUpdateCommit, List.find?_map]
  have hkeys : db.branches.find? ((fun b : Branch => b.projectID = projectID &&
      b.name = name && !b.deleted) ∘ fun b : Branch =>
        if b.id = branch.id ∧ b.deleted = false then { b with commitID := some commitID }
        else b) =
      db.branches.find? fun b => b.projectID = projectID && b.name = name && !b.deleted := by
    apply find?_congr_mem
    intro b _
    rw [Function.comp_apply]
    split <;> rfl
  rw [hkeys, h, Option.map_some]
  have hlive : branch.deleted = false := by
    have := List.find?_some h
    simp only [Bool.and_eq_true, Bool.not_eq_true'] at this
    exact this.2
  rw [if_pos ⟨rfl, hlive⟩]

theorem releaseLanded_sameTrees (db : DB H) (projectID : ID) (branch : Branch)
    (paths : List Str) (holder : ID) :
    DB.SameTrees db (releaseLanded db projectID branch paths holder) :=
  ⟨rfl, rfl, rfl⟩

variable [DecidableEq H] [HashScheme H]

/-- A store before the first push. -/
structure DB.Unborn (db : DB H) : Prop where
  treeNodes_eq : db.treeNodes = []
  files_eq : db.files = []
  commits_eq : db.commits = []

theorem DB.Unborn.storeInv (h : db.Unborn) : db.StoreInv := by
  refine ⟨⟨?_, ?_, ?_, ?_, ?_, ?_, ?_, ?_, ?_, ?_⟩, ⟨0, ?_⟩, ?_, ?_⟩
  all_goals simp [h.treeNodes_eq, h.files_eq, h.commits_eq, SiblingsDistinct,
    FileNamesDistinct]

/-- Accepted pushes, with any change of branches, locks and chunks in between. -/
inductive PushRun : DB H → DB H → Prop where
  | refl (db : DB H) : PushRun db db
  | push {db mid db' : DB H} {caller : Caller} {commitID : ID} {req : PushRequest H} :
      PushRun db mid → push mid caller commitID req = .ok db' → PushRun db db'
  | other {db mid db' : DB H} : PushRun db mid → DB.SameTrees mid db' → PushRun db db'

theorem Pushed.exists_committed {mid : DB H} {caller : Caller} {commitID userID : ID}
    {req : PushRequest H} {files : List (PushFile H)} {branch : Branch}
    {headCommit parent2 : Option (Commit H)} {lockPlan : PushLockPlan} {root : PushTreeNode H}
    (hinv : db.StoreInv) (hcf : CollisionFree H)
    (h : Pushed db caller commitID req db' files branch userID headCommit parent2 lockPlan
      root mid) :
    ∃ c, Committed db headCommit files req.removed mid c ∧ c.id = commitID ∧
      mid.branches = branchUpdateCommit db.branches branch.id commitID := by
  obtain ⟨parentHashes, heq⟩ := toApplyRequest_eq commitID req branch headCommit parent2
    userID root
  have happly := h.applied
  rw [heq] at happly
  obtain ⟨treeID, hc⟩ := committed_of_apply hinv hcf (acceptPush_requestOK h.accepted)
    h.planned.built happly
  exact ⟨_, hc, rfl, applyPush_branches happly⟩

theorem Committed.grows {headCommit : Option (Commit H)} {files : List (PushFile H)}
    {removed : List Str} {c : Commit H} (hinv : db.StoreInv)
    (hc : Committed db headCommit files removed db' c) : DB.Grows db db' :=
  ⟨hinv, hc.inv, hc.ext, by rw [hc.commits_eq]; exact List.prefix_append _ _⟩

theorem push_grows {caller : Caller} {commitID : ID} {req : PushRequest H} (hinv : db.StoreInv)
    (hcf : CollisionFree H) (h : push db caller commitID req = .ok db') : DB.Grows db db' := by
  obtain ⟨files, branch, userID, headCommit, parent2, plan, root, mid, hp⟩ := push_ok h
  obtain ⟨c, hc, -⟩ := hp.exists_committed hinv hcf
  rw [hp.result_eq]
  exact (hc.grows hinv).trans (DB.Grows.of_sameTrees hc.inv (releaseLanded_sameTrees _ _ _ _ _))

theorem PushRun.grows (hinv : db.StoreInv) (hcf : CollisionFree H) (h : PushRun db db') :
    DB.Grows db db' := by
  induction h with
  | refl => exact DB.Grows.refl hinv
  | push _ hpush ih => exact ih.trans (push_grows ih.inv' hcf hpush)
  | other _ hsame ih => exact ih.trans (DB.Grows.of_sameTrees ih.inv' hsame)

theorem DB.Grows.readsAs (h : DB.Grows db db') (hcf : CollisionFree H) {c : Commit H}
    (hc : c ∈ db.commits) {m : Str → Option (H × List H)} (hm : ReadsAs db c.treeID m) :
    ReadsAs db' c.treeID m := by
  obtain ⟨row, hr, hid⟩ := h.inv.commit_tree c hc
  have hold := readsAs_contentMap h.inv hr
  have hnew := readsAs_contentMap h.inv' (h.ext.mem_treeNodes hr)
  rw [hid] at hold hnew
  have hmap : contentMap db' row.hash = contentMap db row.hash := by
    funext p
    rw [contentMap, contentMap, fileAt, fileAt,
      h.ext.find_eq h.inv.toStoreShape h.inv'.toStoreShape hcf hr]
  rwa [hm.unique hold, ← hmap]

section Heads

variable {db db' mid : DB H} {caller : Caller} {commitID userID : ID} {req : PushRequest H}
  {files : List (PushFile H)} {branch : Branch} {headCommit parent2 : Option (Commit H)}
  {lockPlan : PushLockPlan} {root : PushTreeNode H}

theorem Pushed.old_head (hinv : db.StoreInv)
    (h : Pushed db caller commitID req db' files branch userID headCommit parent2 lockPlan
      root mid) :
    (branch.commitID = none ∧ headCommit = none) ∨
      ∃ head row, headCommit = some head ∧ branch.commitID = some head.id ∧
        db.getCommit head.id = some head ∧ row ∈ db.treeNodes ∧ row.id = head.treeID ∧
        headRow db headCommit = some row := by
  obtain ⟨hheadID, hhead⟩ := headCommitOf_ok h.planned.head_eq
  rcases headCommit with _ | head
  · exact Or.inl ⟨hheadID, rfl⟩
  · obtain ⟨row, hr, hid⟩ := hinv.commit_tree head
      (List.mem_of_find?_eq_some (hhead head rfl))
    refine Or.inr ⟨head, row, rfl, hheadID, hhead head rfl, hr, hid, ?_⟩
    rw [headRow, Option.bind_some, ← hid, hinv.treeNodeGet_eq hr]

theorem Pushed.new_head (hinv : db.StoreInv) (hcf : CollisionFree H)
    (h : Pushed db caller commitID req db' files branch userID headCommit parent2 lockPlan
      root mid) :
    ∃ c, Committed db headCommit files req.removed mid c ∧
      db'.getBranchByName req.projectID req.branchName =
        some { branch with commitID := some c.id } ∧
      db'.getCommit c.id = some c := by
  obtain ⟨c, hc, hcid, hbranches⟩ := h.exists_committed hinv hcf
  refine ⟨c, hc, getBranchByName_update (openBranch_ok h.opened).1 ?_, ?_⟩
  · rw [h.result_eq, hcid]
    exact hbranches
  · refine (find?_key_eq_some_iff ?_).mpr ⟨?_, rfl⟩
    · rw [h.result_eq]
      exact hc.inv.commit_ids
    · rw [h.result_eq]
      exact hc.commits_eq ▸ List.mem_append_right _ (List.mem_singleton_self c)

theorem Pushed.readsAs_pushedMap (hinv : db.StoreInv) (hcf : CollisionFree H)
    (h : Pushed db caller commitID req db' files branch userID headCommit parent2 lockPlan
      root mid) (hgrow : DB.Grows db db') (hnorm : Normalised req) :
    ∃ c, db'.getBranchByName req.projectID req.branchName =
        some { branch with commitID := some c.id } ∧
      db'.getCommit c.id = some c ∧
      ReadsAs db' c.treeID (pushedMap req (headMap db headCommit)) := by
  obtain ⟨c, hc, hbranch', hget⟩ := h.new_head hinv hcf
  refine ⟨c, hbranch', hget, ?_⟩
  obtain ⟨row, hr, hid⟩ := hgrow.inv'.commit_tree c (List.mem_of_find?_eq_some hget)
  have hrmid : row ∈ mid.treeNodes := by
    rw [h.result_eq] at hr
    exact hr
  have hreads := readsAs_contentMap hgrow.inv' hr
  have hmap := hc.contentMap_eq hcf hinv.toStoreShape h.accepted hnorm hrmid hid
  have hsame : contentMap db' row.hash = contentMap mid row.hash := by
    rw [h.result_eq]
    rfl
  rwa [hsame, hmap, hid] at hreads

end Heads

/-- A push from `db` to `db'` is a map update of the branch's tree, and what it
and every earlier commit read as is still read in the store `later`. -/
structure RefinesUpdate (db db' later : DB H) (req : PushRequest H) : Prop where
  update : ∃ (branch branch' : Branch) (c : Commit H) (old : Str → Option (H × List H)),
    db.getBranchByName req.projectID req.branchName = some branch ∧
    (branch.commitID = none ∧ old = (fun _ => none) ∨
      ∃ head, branch.commitID = some head.id ∧ db.getCommit head.id = some head ∧
        ReadsAs db head.treeID old) ∧
    db'.getBranchByName req.projectID req.branchName = some branch' ∧
    branch'.commitID = some c.id ∧ db'.getCommit c.id = some c ∧
    ReadsAs db' c.treeID (pushedMap req old)
  stable : ∀ c ∈ db'.commits, ∀ m, ReadsAs db' c.treeID m → ReadsAs later c.treeID m

/-- Pushes with normalised paths, in any run from the empty store, refine map
updates. -/
theorem push_refines_map_update (hcf : CollisionFree H) {db₀ db db' later : DB H}
    (hempty : db₀.Unborn) (hrun : PushRun db₀ db) {caller : Caller} {commitID : ID}
    {req : PushRequest H} (hpush : push db caller commitID req = .ok db')
    (hnorm : Normalised req) (hlater : PushRun db' later) :
    RefinesUpdate db db' later req := by
  have hinv := (hrun.grows hempty.storeInv hcf).inv'
  have hgrow := push_grows hinv hcf hpush
  refine ⟨?_, fun c hc m hm => (hlater.grows hgrow.inv' hcf).readsAs hcf hc hm⟩
  obtain ⟨files, branch, userID, headCommit, parent2, plan, root, mid, hp⟩ := push_ok hpush
  obtain ⟨c, hbranch', hget, hreads⟩ := hp.readsAs_pushedMap hinv hcf hgrow hnorm
  refine ⟨branch, { branch with commitID := some c.id }, c, headMap db headCommit,
    (openBranch_ok hp.opened).1, ?_, hbranch', rfl, hget, hreads⟩
  rcases hp.old_head hinv with ⟨hnone, rfl⟩ | ⟨head, row, rfl, hid, hhead, hr, hrid, hrow⟩
  · exact Or.inl ⟨hnone, rfl⟩
  · refine Or.inr ⟨head, hid, hhead, ?_⟩
    have hreads := readsAs_contentMap hinv hr
    have hmap : headMap db (some head) = contentMap db row.hash := by
      funext p
      rw [headMap, hrow, Option.bind_some]
    rwa [hmap, ← hrid]

end Runs

/-! ## Two pushes on a small store -/

def demoChunk (n : UInt8) : IdealHash := .digest [n]

/-- A project with one branch, one user and three uploaded chunks. -/
def demoStore : DB IdealHash where
  treeNodes := []
  files := []
  chunks := [⟨demoChunk 1, 3⟩, ⟨demoChunk 2, 4⟩, ⟨demoChunk 3, 5⟩]
  projectChunkUploads := [(1, demoChunk 1), (1, demoChunk 2), (1, demoChunk 3)]
  commits := []
  branches := [⟨1, 1, "main".toList, false, true, none, false⟩]
  fileLocks := []

def demoCaller : Caller := ⟨⟨fun _ => true, fun _ _ => true, true⟩, some 5⟩

/-- A text file made of one chunk. -/
def demoFile (path : String) (n : UInt8) : PushFile IdealHash :=
  ⟨path.toList, 0o644, 3, false, [], fileHash [demoChunk n], [demoChunk n]⟩

def demoPush : PushRequest IdealHash where
  projectID := 1
  branchName := "main".toList
  baseTreeHash := []
  message := "first".toList
  files := [demoFile "a/b.txt" 1, demoFile "a/c/d.txt" 2]
  removed := []
  parent2CommitHash := .empty
  baseCommitID := .empty
  paths_fit := by decide

def demoSecond : PushRequest IdealHash where
  projectID := 1
  branchName := "main".toList
  baseTreeHash := []
  message := "second".toList
  files := [demoFile "e.txt" 3]
  removed := ["a/b.txt".toList]
  parent2CommitHash := .empty
  baseCommitID := .value "7".toList 7
  paths_fit := by decide

def firstStore : DB IdealHash :=
  (push demoStore demoCaller 7 demoPush).toOption.getD demoStore

def secondStore : DB IdealHash :=
  (push firstStore demoCaller 8 demoSecond).toOption.getD demoStore

theorem firstStore_push : push demoStore demoCaller 7 demoPush = .ok firstStore :=
  eq_ok_of_toOption _ (by decide +kernel)

theorem secondStore_push : push firstStore demoCaller 8 demoSecond = .ok secondStore :=
  eq_ok_of_toOption _ (by decide +kernel)

theorem firstStore_run : PushRun demoStore firstStore :=
  (PushRun.refl demoStore).push firstStore_push

theorem push_refines_demo :
    ∃ db₁ db₂, push demoStore demoCaller 7 demoPush = .ok db₁ ∧
      push db₁ demoCaller 8 demoSecond = .ok db₂ ∧
      RefinesUpdate db₁ db₂ db₂ demoSecond := by
  refine ⟨firstStore, secondStore, firstStore_push, secondStore_push, ?_⟩
  refine push_refines_map_update IdealHash.collisionFree ⟨rfl, rfl, rfl⟩ firstStore_run
    secondStore_push ?_ (PushRun.refl _)
  decide

end Nipa
