import Nipa.Server.System
import Nipa.Store.Rehash

/-!
# Canonical tree hashes

The builder keeps a directory it has emptied, and makes one for a removal below a
directory that does not exist.  Manifests leave such directories out.  As long as
every push leaves a file below each directory above the paths it removes, the root
hash of a commit is the hash of its complete manifest, and commits with the same
files have the same root hash.
-/

namespace Nipa

open Support TreeBuilder

/-! ## The rows of a push -/

section Rows

variable {H : Type} [HashScheme H] [DecidableEq H] {db db' : DB H}

namespace Written

variable {root : PushTreeNode H} {projectID : ID} {ρ : ID → ID} {b : TreeBuilder H}

theorem dirRow_hash (hw : Written db root projectID db' ρ) (hs : db.StoreShape)
    (hreb : ∀ e ∈ layout root, Rebuilt db b e.2) {e : Option ID × PushTreeNode H}
    (he : e ∈ layout root) : (dirRow ρ e).hash = db'.rowHash (dirRow ρ e).id := by
  have hs' := hw.storeShape hs
  have hfiles : (e.2.files.map NodeFile.name).Nodup := by
    have hnodup := (hreb e he).files_nodup
    simp only [builtTree, List.map_map] at hnodup
    exact hnodup
  have hsubs : (e.2.keepDirs.map KeptDir.name ++
      e.2.children.map PushTreeNode.name).Nodup := by
    have hnodup := (hreb e he).subs_nodup hs
    simp only [builtTree, List.map_append, List.map_map] at hnodup
    exact hnodup
  have hF := hw.mem_fileEntries_dir hs he
  have hT := hw.mem_treeEntries_dir hs he
  rw [show (dirRow ρ e).hash = finalize e.2 from rfl, finalize_eq, DB.rowHash]
  apply treeHash_congr
  · rw [List.map_map]
    exact DB.utf8_names_nodup hfiles
  · rw [List.map_map]
    exact DB.utf8_names_nodup (hs'.ownFiles_names_nodup _)
  · have hmap : (e.2.keepDirs.map keptEntry ++ e.2.children.map fun c =>
        (⟨utf8 c.name, finalize c⟩ : TreeEntry H)).map TreeEntry.name =
          (e.2.keepDirs.map KeptDir.name ++ e.2.children.map PushTreeNode.name).map utf8 := by
      simp only [List.map_append, List.map_map]
      rfl
    rw [hmap]
    exact hsubs.map utf8_injective
  · rw [List.map_map]
    exact DB.utf8_names_nodup (hs'.ownChildren_names_nodup _)
  · rintro ⟨n, x⟩
    rw [hF, List.map_map, List.mem_map]
    simp only [Function.comp_apply, fileEntryOf, Prod.mk.injEq]
    rfl
  · rintro ⟨n, x⟩
    rw [hT, List.map_map, List.mem_map]
    simp only [Function.comp_apply, rowEntryOf, Prod.mk.injEq]
    rfl

theorem hashesContent (hw : Written db root projectID db' ρ) (hs : db.StoreShape)
    (hreb : ∀ e ∈ layout root, Rebuilt db b e.2) (hh : db.HashesContent) :
    db'.HashesContent := by
  intro t ht hc
  rcases hw.mem_treeNodes.mp ht with hold | ⟨e, he, rfl | ⟨k, hk, rfl⟩⟩
  · exact hw.dir_extends.hashes_old hs hh hold hc
  · exact hw.dirRow_hash hs hreb he
  · exact absurd hc (hw.kept_not_hasContent hs he hk)

end Written

variable {head : Option (Commit H)} {files : List (PushFile H)} {removed : List Str}
  {req : ApplyPushRequest H}

theorem WritePlan.hashesContent (h : WritePlan db head files removed req)
    (hs : db.StoreShape) (hh : db.HashesContent) (happly : applyPush db req = .ok db') :
    db'.HashesContent := by
  obtain ⟨root, parentHashes, hbuild, heq⟩ := h.built
  rw [heq] at happly
  obtain ⟨ρ, hw, -, -⟩ := written_of_apply hs h.request_ok hbuild happly
  exact hw.hashesContent hs (layout_rebuilt hs h.request_ok hbuild) hh

/-! ## Commits without empty directories -/

/-- Every directory of the committed tree has a file below it. -/
def FilledCommit (db : DB H) (c : Commit H) : Prop :=
  ∃ row ∈ db.treeNodes, row.id = c.treeID ∧ db.storeTree.Filled row.hash

/-- The change set leaves no directory without a file below it. -/
def LeavesFilled (db : DB H) (head : Option (TreeRow H)) (files : List (PushFile H))
    (removed : List Str) : Prop :=
  ∀ ds, ValidSegs ds → DirLeft db head files removed ds →
    ∃ ks, ks ≠ [] ∧ ValidSegs (ds ++ ks) ∧ FileLeft db head files removed (ds ++ ks)

theorem FilledCommit.grows (hg : DB.Grows db db') (hcf : CollisionFree H) {c : Commit H}
    (h : FilledCommit db c) : FilledCommit db' c := by
  obtain ⟨row, hr, hid, hfill⟩ := h
  refine ⟨row, hg.ext.mem_treeNodes hr, hid, ?_⟩
  rw [Hierarchy.filled_iff] at hfill ⊢
  intro ks hks hdir
  rw [hg.ext.dirAt_eq hg.inv.toStoreShape hg.inv'.toStoreShape hcf hr] at hdir
  simp only [hg.ext.find_eq hg.inv.toStoreShape hg.inv'.toStoreShape hcf hr]
  exact hfill ks hks hdir

theorem Landed.filled {c : Commit H} (h : Landed db head files removed db' c)
    (hleaves : LeavesFilled db (headRow db head) files removed) : FilledCommit db' c := by
  obtain ⟨row, hr, hid, hdirs⟩ := h.dirs
  refine ⟨row, hr, hid, Hierarchy.filled_iff.mpr ?_⟩
  intro ds hne hdir
  obtain ⟨m, hm⟩ := Option.isSome_iff_exists.mp hdir
  have hds : ValidSegs ds := ⟨hne, storeTree_dirAt_valid h.inv.toStoreShape hm⟩
  obtain ⟨ks, hks, hvalid, hleft⟩ := hleaves ds hds ((hdirs ds hds).2.mp hdir)
  exact ⟨ks, hks, (hdirs _ hvalid).1.mpr hleft⟩

end Rows

/-! ## The condition on a push -/

section Condition

variable {H : Type} [HashScheme H] [DecidableEq H] {db : DB H}

/-- The push leaves a file below every directory above a path it removes. -/
def KeepsFilled (old : Str → Option (H × List H)) (req : PushRequest H) : Prop :=
  ∀ ds, ValidSegs ds → (∃ r ∈ req.removed, pathOf ds ++ ['/'] <+: r) →
    ∃ p, pathOf ds ++ ['/'] <+: p ∧ (pushedMap req old p).isSome

/-- The content map of the head of a branch. -/
def branchMap (db : DB H) (projectID : ID) (name : Str) : Str → Option (H × List H) :=
  headMap db ((db.getBranchByName projectID name).bind fun b => b.commitID.bind db.getCommit)

theorem exists_below {ds segs : List Str} (hds : ValidSegs ds) (hsegs : ValidSegs segs)
    (h : pathOf ds ++ ['/'] <+: pathOf segs) : ∃ ks, ks ≠ [] ∧ segs = ds ++ ks := by
  obtain ⟨⟨ks, rfl⟩, hne⟩ := (below_pathOf_iff hds hsegs).mp h
  refine ⟨ks, ?_, rfl⟩
  rintro rfl
  exact hne (List.append_nil ds).symm

theorem exists_filed_below {ds : List Str} (hds : ValidSegs ds) {p : Str} (hp : Spelled p)
    (hbelow : pathOf ds ++ ['/'] <+: p) :
    ∃ ks, ks ≠ [] ∧ ValidSegs (ds ++ ks) ∧ p = pathOf (ds ++ ks) := by
  obtain ⟨segs, hsegs, rfl | rfl⟩ := hp
  · obtain ⟨ks, hks, rfl⟩ := exists_below hds hsegs hbelow
    exact ⟨ks, hks, hsegs, rfl⟩
  · -- a directory's address does not start with a slash
    obtain ⟨rest, hrest⟩ := hbelow
    refine absurd ?_ (pathOf_head?_ne hds.2)
    have hhead := congrArg List.head? hrest
    rw [List.append_assoc, List.head?_append, List.head?_cons] at hhead
    rcases hpath : (pathOf ds).head? with _ | c
    · exact absurd ((pathOf_eq_nil_iff hds.2).mp (List.head?_eq_none_iff.mp hpath)) hds.1
    · rw [hpath, Option.some_or] at hhead
      exact hhead

theorem exists_fileLeft {caller : Caller} {req : PushRequest H} {files : List (PushFile H)}
    {head : Option (Commit H)} (hs : db.StoreShape) (haccept : acceptPush caller req = .ok files)
    {ds : List Str} (hds : ValidSegs ds) {p : Str} (hbelow : pathOf ds ++ ['/'] <+: p)
    (hp : (pushedMap req (headMap db head) p).isSome) :
    ∃ ks, ks ≠ [] ∧ ValidSegs (ds ++ ks) ∧
      FileLeft db (headRow db head) files req.removed (ds ++ ks) := by
  obtain ⟨hfiles, -, hok, -⟩ := acceptPush_ok haccept
  rw [pushedMap] at hp
  split at hp
  next f hf =>
    obtain rfl : f.path = p := by simpa using List.find?_some hf
    have hmem : servedFile f ∈ files :=
      hfiles ▸ List.mem_map_of_mem (List.mem_of_find?_eq_some hf)
    have hspelled := spelled_of_validateRepoPath (hok _ hmem).1
    rw [servedFile_path] at hspelled
    obtain ⟨ks, hks, hvalid, heq⟩ := exists_filed_below hds hspelled hbelow
    exact ⟨ks, hks, hvalid, Or.inl ⟨_, hmem, Or.inl ((servedFile_path f).trans heq)⟩⟩
  next =>
    split at hp
    · simp at hp
    next hkept =>
      rw [headMap] at hp
      obtain ⟨x, hx⟩ := Option.isSome_iff_exists.mp hp
      obtain ⟨row, hrow, hx⟩ := Option.bind_eq_some_iff.mp hx
      obtain ⟨f, hf, -⟩ := Option.map_eq_some_iff.mp hx
      obtain ⟨segs, hsegs, rfl⟩ := validSegs_of_fileAt hs hf
      obtain ⟨ks, hks, rfl⟩ := exists_below hds hsegs hbelow
      refine ⟨ks, hks, hsegs, Or.inr ⟨?_, ?_⟩⟩
      · rw [fileAt_pathOf hsegs] at hf
        rw [baseFind, hrow, Option.bind_some, hf]
        rfl
      · rintro r hr (rfl | ⟨hlen, -⟩)
        · exact hkept hr
        · -- the address has at least two names
          have hpos := List.length_pos_of_ne_nil hds.1
          have hpos' := List.length_pos_of_ne_nil hks
          rw [List.length_append] at hlen
          omega

theorem KeepsFilled.leavesFilled {caller : Caller} {req : PushRequest H}
    {files : List (PushFile H)} {head : Option (Commit H)} (hs : db.StoreShape)
    (haccept : acceptPush caller req = .ok files)
    (hhead : ∀ row ∈ headRow db head, db.storeTree.Filled row.hash)
    (h : KeepsFilled (headMap db head) req) :
    LeavesFilled db (headRow db head) files req.removed := by
  obtain ⟨hfiles, -, -, -⟩ := acceptPush_ok haccept
  have hremoved : ∀ ds, ValidSegs ds → (∃ r ∈ req.removed, pathOf ds ++ ['/'] <+: r) →
      ∃ ks, ks ≠ [] ∧ ValidSegs (ds ++ ks) ∧
        FileLeft db (headRow db head) files req.removed (ds ++ ks) := by
    intro ds hds hr
    obtain ⟨p, hbelow, hp⟩ := h ds hds hr
    exact exists_fileLeft hs haccept hds hbelow hp
  rintro ds hds (hold | ⟨p, hp | hp, hbelow⟩)
  · -- a directory of the head: one of its files stays, or a removal is below it
    obtain ⟨m, hm⟩ := Option.isSome_iff_exists.mp hold
    obtain ⟨row, hrow, hm⟩ := Option.bind_eq_some_iff.mp hm
    obtain ⟨ks, hks, hfind⟩ := Hierarchy.filled_iff.mp (hhead row hrow) ds hds.1
      (by rw [hm]; rfl)
    obtain ⟨f, hf⟩ := Option.isSome_iff_exists.mp hfind
    have hvalid := storeTree_find_valid hs hf
    have hbelow : pathOf ds ++ ['/'] <+: pathOf (ds ++ ks) :=
      (below_pathOf_iff hds hvalid).mpr ⟨List.prefix_append _ _, by simpa using hks⟩
    by_cases hrem : pathOf (ds ++ ks) ∈ req.removed
    · exact hremoved ds hds ⟨_, hrem, hbelow⟩
    · refine exists_fileLeft hs haccept hds hbelow ?_
      rw [pushedMap]
      split
      · rfl
      · rw [if_neg hrem, headMap, hrow, Option.bind_some, contentMap, fileAt_pathOf hvalid, hf]
        rfl
  · refine exists_fileLeft hs haccept hds hbelow ?_
    rw [hfiles, List.map_map] at hp
    obtain ⟨f, hf, rfl⟩ := List.mem_map.mp hp
    rw [pushedMap]
    have hsome : (req.files.find? fun g => g.path = (PushFile.path ∘ servedFile) f).isSome := by
      rw [List.find?_isSome]
      exact ⟨f, hf, by simp⟩
    obtain ⟨g, hg⟩ := Option.isSome_iff_exists.mp hsome
    rw [hg]
    rfl
  · exact hremoved ds hds ⟨p, hp, hbelow⟩

end Condition

/-! ## Runs of pushes -/

section Runs

variable {H : Type} [HashScheme H] [DecidableEq H]

/-- Accepted pushes that leave no directory empty, with any change of branches,
locks and chunks in between. -/
inductive FilledRun : DB H → DB H → Prop where
  | refl (db : DB H) : FilledRun db db
  | push {db mid db' : DB H} {caller : Caller} {commitID : ID} {req : PushRequest H} :
      FilledRun db mid → push mid caller commitID req = .ok db' →
      KeepsFilled (branchMap mid req.projectID req.branchName) req → FilledRun db db'
  | other {db mid db' : DB H} : FilledRun db mid → DB.SameTrees mid db' → FilledRun db db'

/-- The stored hash of a commit's root. -/
def rootHash (db : DB H) (c : Commit H) : Option H :=
  (db.treeNodeGet c.treeID).map TreeRow.hash

/-- The root hashes of two stores are canonical: they are the hashes of the complete
manifests, and commits with the same files have the same one. -/
structure CanonicalHashes (db db' : DB H) : Prop where
  rehashed : ∀ c ∈ db.commits, ∃ t, readManifest db db.treeDepth c.treeID = some t ∧
    rootHash db c = some (rehashTree t)
  determined : ∀ c ∈ db.commits, ∀ c' ∈ db'.commits, ∀ m m',
    readTree db db.treeDepth c.treeID = some m →
    readTree db' db'.treeDepth c'.treeID = some m' →
    (∀ p, (m.lookup p).map (fun e => (e.hash, e.mode, e.chunkHashes)) =
      (m'.lookup p).map fun e => (e.hash, e.mode, e.chunkHashes)) →
    rootHash db c = rootHash db' c'

/-- What holds of every store of a run. -/
structure FilledStore (db : DB H) : Prop where
  inv : db.StoreInv
  hashes : db.HashesContent
  filled : ∀ c ∈ db.commits, FilledCommit db c

variable {db db' : DB H}

theorem DB.Unborn.filledStore (h : db.Unborn) : FilledStore db where
  inv := h.storeInv
  hashes := by
    intro t ht
    rw [h.treeNodes_eq] at ht
    simp at ht
  filled := by
    rw [h.commits_eq]
    simp

theorem FilledStore.of_sameTrees (hfs : FilledStore db) (hcf : CollisionFree H)
    (h : DB.SameTrees db db') : FilledStore db' where
  inv := hfs.inv.of_sameTrees h
  hashes := hfs.hashes.of_sameTrees h
  filled := by
    intro c hc
    rw [h.commits_eq] at hc
    exact (hfs.filled c hc).grows (DB.Grows.of_sameTrees hfs.inv h) hcf

theorem Pushed.branchMap_eq {mid : DB H} {caller : Caller} {commitID userID : ID}
    {req : PushRequest H} {files : List (PushFile H)} {branch : Branch}
    {head parent2 : Option (Commit H)} {lockPlan : PushLockPlan} {root : PushTreeNode H}
    (h : Pushed db caller commitID req db' files branch userID head parent2 lockPlan root mid) :
    branchMap db req.projectID req.branchName = headMap db head := by
  obtain ⟨hid, hget⟩ := headCommitOf_ok h.planned.head_eq
  rw [branchMap, (openBranch_ok h.opened).1, Option.bind_some, hid]
  rcases head with _ | c
  · rfl
  · rw [Option.map_some, Option.bind_some, hget c rfl]

theorem FilledStore.push (hfs : FilledStore db) (hcf : CollisionFree H) {caller : Caller}
    {commitID : ID} {req : PushRequest H} (h : push db caller commitID req = .ok db')
    (hcond : KeepsFilled (branchMap db req.projectID req.branchName) req) :
    FilledStore db' := by
  obtain ⟨files, branch, userID, head, parent2, plan, root, mid, hp⟩ := push_ok h
  have hs := hfs.inv.toStoreShape
  rw [hp.branchMap_eq] at hcond
  obtain ⟨treeID, hland⟩ := hp.writePlan.landed hfs.inv hcf hp.applied
  have hg := hland.grows hfs.inv
  have hhead : ∀ row ∈ headRow db head, db.storeTree.Filled row.hash := by
    intro row hrow
    obtain ⟨c, hc, hget⟩ := Option.bind_eq_some_iff.mp hrow
    obtain ⟨row', hr', hid', hfill⟩ := hfs.filled c (hp.writePlan.head_stored c hc)
    rw [← hid', hs.treeNodeGet_eq hr'] at hget
    rwa [← Option.some.inj hget]
  have hmid : FilledStore mid := by
    refine ⟨hland.inv, hp.writePlan.hashesContent hs hfs.hashes hp.applied, ?_⟩
    intro c hc
    rw [hland.commits_eq] at hc
    rcases List.mem_append.mp hc with hold | hnew
    · exact (hfs.filled c hold).grows hg hcf
    · rw [List.mem_singleton.mp hnew]
      exact hland.filled (hcond.leavesFilled hs hp.accepted hhead)
  rw [hp.result_eq]
  exact hmid.of_sameTrees hcf (releaseLanded_sameTrees _ _ _ _ _)

theorem FilledRun.filledStore {db₀ : DB H} (hempty : db₀.Unborn) (hcf : CollisionFree H)
    (h : FilledRun db₀ db) : FilledStore db := by
  induction h with
  | refl => exact hempty.filledStore
  | push _ hpush hcond ih => exact ih.push hcf hpush hcond
  | other _ hsame ih => exact ih.of_sameTrees hcf hsame

omit [DecidableEq H] in
theorem rootHash_eq (hs : db.StoreShape) {c : Commit H} {row : TreeRow H}
    (hr : row ∈ db.treeNodes) (hid : row.id = c.treeID) : rootHash db c = some row.hash := by
  rw [rootHash, ← hid, hs.treeNodeGet_eq hr, Option.map_some]

theorem find_hash_of_readTree (hinv : db.StoreInv) {row : TreeRow H} (hr : row ∈ db.treeNodes)
    {m : GoMap (Entry H)} (hm : readTree db db.treeDepth row.id = some m) {ks : List Str}
    (hks : ValidSegs ks) :
    (db.storeTree.find row.hash ks).map File.hash =
      (m.lookup (pathOf ks)).map Entry.hash := by
  have hs := hinv.toStoreShape
  obtain ⟨g, hg, hflat⟩ := exists_flattens hinv hr
  obtain rfl := Option.some.inj (hm.symm.trans hg)
  rw [hflat.lookup_eq, fileAt_pathOf hks, Option.map_map]
  rcases hf : db.storeTree.find row.hash ks with _ | f
  · rfl
  · rw [← fileAt_pathOf hks] at hf
    rw [Option.map_some, Option.map_some, fileAt_hash hs hf]
    rfl

theorem FilledStore.canonical (hcf : CollisionFree H) (h : FilledStore db)
    (h' : FilledStore db') : CanonicalHashes db db' where
  rehashed := by
    intro c hc
    obtain ⟨row, hr, hid, hfill⟩ := h.filled c hc
    have hs := h.inv.toStoreShape
    obtain ⟨t, ht, hcomplete⟩ := exists_complete hs h.hashes hcf hr (h.inv.bounded_length hr)
      hfill []
    refine ⟨t, ?_, ?_⟩
    · rw [readManifest, ← hid, hs.treeNodeGet_eq hr, Option.bind_some]
      exact ht
    · rw [rootHash_eq hs hr hid, hcomplete.hash_eq]
  determined := by
    intro c hc c' hc' m m' hm hm' hsame
    obtain ⟨row, hr, hid, hfill⟩ := h.filled c hc
    obtain ⟨row', hr', hid', hfill'⟩ := h'.filled c' hc'
    have hs := h.inv.toStoreShape
    have hs' := h'.inv.toStoreShape
    rw [rootHash_eq hs hr hid, rootHash_eq hs' hr' hid']
    rw [← hid] at hm
    rw [← hid'] at hm'
    have hhash : ∀ p, (m.lookup p).map Entry.hash = (m'.lookup p).map Entry.hash := by
      intro p
      have hp := congrArg (Option.map Prod.fst) (hsame p)
      rwa [Option.map_map, Option.map_map] at hp
    refine congrArg some (hash_eq_of_find_eq hs hs' h.hashes h'.hashes hcf hr hr'
      (h.inv.bounded_length hr) hfill hfill' ?_)
    intro ks
    by_cases hks : ValidSegs ks
    · rw [find_hash_of_readTree h.inv hr hm hks, find_hash_of_readTree h'.inv hr' hm' hks,
        hhash]
    · rw [find_of_not_valid hs hks, find_of_not_valid hs' hks]

/-- After any two runs of pushes that leave no directory empty, the root hashes are
those of the complete manifests, and depend on the files only. -/
theorem canonical_tree_hash (hcf : CollisionFree H) {db₀ db₀' : DB H} (hempty : db₀.Unborn)
    (hrun : FilledRun db₀ db) (hempty' : db₀'.Unborn) (hrun' : FilledRun db₀' db') :
    CanonicalHashes db db' :=
  (hrun.filledStore hempty hcf).canonical hcf (hrun'.filledStore hempty' hcf)

end Runs

/-! ## A push that empties a directory -/

def emptyingPush : PushRequest IdealHash :=
  { demoSecond with
    files := []
    removed := ["a/c/d.txt".toList]
    paths_fit := by decide }

def filledStore : DB IdealHash :=
  (push demoStore demoCaller 7 demoPush).toOption.getD demoStore

def emptiedStore : DB IdealHash :=
  (push filledStore demoCaller 8 emptyingPush).toOption.getD demoStore

theorem filledStore_run : FilledRun demoStore filledStore := by
  refine .push (.refl demoStore) (eq_ok_of_toOption demoStore (by decide +kernel)) ?_
  rintro ds - ⟨r, hr, -⟩
  simp [demoPush] at hr

theorem canonical_tree_hash_demo :
    ∃ db, push filledStore demoCaller 8 demoSecond = .ok db ∧ CanonicalHashes db filledStore := by
  have hempty : demoStore.Unborn := ⟨rfl, rfl, rfl⟩
  have hpush := eq_ok_of_toOption (x := push filledStore demoCaller 8 demoSecond) demoStore
    (by decide +kernel)
  refine ⟨_, hpush, canonical_tree_hash IdealHash.collisionFree hempty
    (.push filledStore_run hpush ?_) hempty filledStore_run⟩
  rintro ds - ⟨r, hr, hbelow⟩
  obtain rfl : r = "a/b.txt".toList := by simpa [demoSecond] using hr
  -- what is above the removed file is above the file that stays
  have hpre : ∀ l ∈ "a/b.txt".toList.inits, l.getLast? = some '/' →
      l <+: "a/c/d.txt".toList := by decide
  exact ⟨"a/c/d.txt".toList, hpre _ ((List.mem_inits _ _).mpr hbelow) (by simp),
    by decide +kernel⟩

/-- The root hash of a commit that empties a directory is not that of its manifest. -/
theorem emptied_directory_hashed :
    PushRun demoStore emptiedStore ∧ ¬ CanonicalHashes emptiedStore emptiedStore := by
  constructor
  · have hfirst : PushRun demoStore filledStore :=
      .push (.refl demoStore) (eq_ok_of_toOption demoStore (by decide +kernel))
    exact .push hfirst (eq_ok_of_toOption demoStore (by decide +kernel))
  · intro h
    have hall : ∀ c ∈ emptiedStore.commits,
        (readManifest emptiedStore emptiedStore.treeDepth c.treeID).map rehashTree =
          rootHash emptiedStore c := by
      intro c hc
      obtain ⟨t, ht, hroot⟩ := h.rehashed c hc
      rw [ht, hroot, Option.map_some]
    revert hall
    decide +kernel

end Nipa
