import Nipa.Server.System

/-!
# Files and directories of one name

A directory lists its files and its subdirectories independently, so a tree can
hold a file where it also has a directory.  A commit has no such address exactly
when its change set leaves none: no file where a directory stays or is made.
Neither pushes nor merges check that.
-/

namespace Nipa

open Support TreeBuilder

section Trees

variable {H : Type} [HashScheme H] [DecidableEq H]

/-- The committed tree is prefix-free: no file path is above another one, and no
directory holds a file and a subdirectory of one name. -/
structure PrefixFree (db : DB H) (c : Commit H) : Prop where
  paths : ∃ g, readTree db db.treeDepth c.treeID = some g ∧ ∀ p q, (g.lookup p).isSome →
    (g.lookup q).isSome → ¬ p ++ ['/'] <+: q
  names : ∃ row, db.treeNodeGet c.treeID = some row ∧
    ∀ ds d, db.storeTree.dirAt row.hash ds = some d →
      ∀ n ∈ (db.filesByHash d).map File.name, n ∉ (db.childrenByHash d).map TreeRow.name

/-- No address of the committed tree is a file and a directory. -/
def Unclashed (db : DB H) (c : Commit H) : Prop :=
  ∃ row ∈ db.treeNodes, row.id = c.treeID ∧ ∀ addr, ValidSegs addr →
    (db.storeTree.find row.hash addr).isSome → ¬ (db.storeTree.dirAt row.hash addr).isSome

/-- The change set leaves no address as a file and as a directory. -/
def NoClash (db : DB H) (head : Option (TreeRow H)) (files : List (PushFile H))
    (removed : List Str) : Prop :=
  ∀ addr, ValidSegs addr → FileLeft db head files removed addr →
    ¬ DirLeft db head files removed addr

variable {db db' : DB H} {c : Commit H}

theorem Unclashed.prefixFree (hinv : db.StoreInv) (h : Unclashed db c) : PrefixFree db c := by
  have hs := hinv.toStoreShape
  obtain ⟨row, hr, hid, haddr⟩ := h
  constructor
  · obtain ⟨g, hg, hflat⟩ := exists_flattens hinv hr
    rw [← hid]
    refine ⟨g, hg, ?_⟩
    intro p q hp hq hbelow
    obtain ⟨e, he⟩ := Option.isSome_iff_exists.mp hp
    obtain ⟨segs, hne, hall, rfl⟩ := (hflat.entryOK hs e he).path_ok
    have hsegs : ValidSegs segs := ⟨hne, fun n hn => (hall n hn).1⟩
    have hfile := (hflat.baseFind_isSome hsegs).mp hp
    have hdir := hflat.baseDir_isSome hsegs hq hbelow
    rw [baseFind, Option.bind_some, Option.isSome_map] at hfile
    exact haddr segs hsegs hfile hdir
  · refine ⟨row, by rw [← hid, hs.treeNodeGet_eq hr], ?_⟩
    intro ds d hd n hfile hsub
    obtain ⟨f, hf, rfl⟩ := List.mem_map.mp hfile
    obtain ⟨t, ht, hname⟩ := List.mem_map.mp hsub
    have hfind : db.storeTree.find row.hash (ds ++ [f.name]) = some f := by
      rw [Hierarchy.find_concat, hd, Option.bind_some]
      exact (Hierarchy.fileOf_eq_some_iff hs.storeTree_distinct).mpr
        (List.mem_map.mpr ⟨f, hf, rfl⟩)
    have hdir : db.storeTree.dirAt row.hash (ds ++ [f.name]) = some t.hash := by
      rw [Hierarchy.dirAt_concat, hd, Option.bind_some]
      exact (Hierarchy.subOf_eq_some_iff hs.storeTree_distinct).mpr
        (List.mem_map.mpr ⟨t, ht, by rw [hname]⟩)
    refine haddr _ (storeTree_find_valid hs hfind) ?_ ?_
    · rw [hfind]
      rfl
    · rw [hdir]
      rfl

theorem PrefixFree.unclashed (hinv : db.StoreInv) (h : PrefixFree db c) : Unclashed db c := by
  have hs := hinv.toStoreShape
  obtain ⟨row, hget, hnames⟩ := h.names
  refine ⟨row, List.mem_of_find?_eq_some hget, by simpa using List.find?_some hget, ?_⟩
  rintro addr ⟨hne, -⟩ hfile hdir
  obtain ⟨ds, n, rfl⟩ : ∃ ds n, addr = ds ++ [n] :=
    ⟨_, _, (List.dropLast_append_getLast hne).symm⟩
  rw [Hierarchy.find_concat] at hfile
  rw [Hierarchy.dirAt_concat] at hdir
  obtain ⟨f, hf⟩ := Option.isSome_iff_exists.mp hfile
  obtain ⟨d, hd, hf⟩ := Option.bind_eq_some_iff.mp hf
  rw [hd, Option.bind_some] at hdir
  obtain ⟨d', hd'⟩ := Option.isSome_iff_exists.mp hdir
  obtain ⟨f', hf', heq⟩ := List.mem_map.mp
    ((Hierarchy.fileOf_eq_some_iff hs.storeTree_distinct).mp hf)
  obtain ⟨t, ht, heq'⟩ := List.mem_map.mp
    ((Hierarchy.subOf_eq_some_iff hs.storeTree_distinct).mp hd')
  refine hnames ds d hd n ?_ ?_
  · exact List.mem_map.mpr ⟨f', hf', congrArg Prod.fst heq⟩
  · exact List.mem_map.mpr ⟨t, ht, congrArg Prod.fst heq'⟩

theorem Landed.unclashed_iff {head : Option (Commit H)} {files : List (PushFile H)}
    {removed : List Str} (h : Landed db head files removed db' c) :
    Unclashed db' c ↔ NoClash db (headRow db head) files removed := by
  obtain ⟨row, hr, hid, hdirs⟩ := h.dirs
  constructor
  · rintro ⟨row', hr', hid', haddr⟩ addr ha hfile hdir
    obtain rfl := h.inv.eq_of_id_eq hr hr' (hid.trans hid'.symm)
    exact haddr addr ha ((hdirs addr ha).1.mpr hfile) ((hdirs addr ha).2.mpr hdir)
  · intro hno
    refine ⟨row, hr, hid, ?_⟩
    intro addr ha hfile hdir
    exact hno addr ha ((hdirs addr ha).1.mp hfile) ((hdirs addr ha).2.mp hdir)

theorem Unclashed.grows (hg : DB.Grows db db') (hcf : CollisionFree H)
    (h : Unclashed db c) : Unclashed db' c := by
  obtain ⟨row, hr, hid, haddr⟩ := h
  refine ⟨row, hg.ext.mem_treeNodes hr, hid, ?_⟩
  intro addr ha
  rw [hg.ext.find_eq hg.inv.toStoreShape hg.inv'.toStoreShape hcf hr,
    hg.ext.dirAt_eq hg.inv.toStoreShape hg.inv'.toStoreShape hcf hr]
  exact haddr addr ha

theorem baseFind_eq_of_grows (hg : DB.Grows db db') (hcf : CollisionFree H)
    {base : Option (TreeRow H)} (hbase : ∀ row ∈ base, row ∈ db.treeNodes)
    (addr : List Str) :
    baseFind db' base addr = baseFind db base addr ∧
      baseDir db' base addr = baseDir db base addr := by
  rcases base with _ | row
  · exact ⟨rfl, rfl⟩
  · have hr := hbase row rfl
    simp only [baseFind, baseDir, Option.bind_some]
    rw [hg.ext.find_eq hg.inv.toStoreShape hg.inv'.toStoreShape hcf hr,
      hg.ext.dirAt_eq hg.inv.toStoreShape hg.inv'.toStoreShape hcf hr]
    exact ⟨rfl, rfl⟩

theorem NoClash.grows (hg : DB.Grows db db') (hcf : CollisionFree H)
    {head : Option (Commit H)} (hhead : ∀ c ∈ head, c ∈ db.commits)
    {files : List (PushFile H)} {removed : List Str}
    (h : NoClash db (headRow db head) files removed) :
    NoClash db' (headRow db' head) files removed := by
  rw [headRow_eq_of_grows hg hhead]
  intro addr ha
  obtain ⟨hfind, hdir⟩ := baseFind_eq_of_grows hg hcf
    (fun row hrow => headRow_mem hrow) addr
  rw [FileLeft, DirLeft, hfind, hdir]
  exact h addr ha

end Trees

/-! ## The condition on a step -/

section Condition

variable {H : Type} [HashScheme H] [DecidableEq H]

/-- The changes of a landing, merged one after the other, never leave a file
path where the target head has a directory or another left path is below. -/
def LandingSettles (db : DB H) (land : Landing) (strategy : MergeStrategy) : Prop :=
  ∀ targetHead targetTree ts,
    commitByIDInProject db land.projectID land.targetHead = .ok targetHead →
    mergeTree db land.projectID land.targetHead = .ok targetTree →
    landingTrees db land strategy = .ok ts →
    ∀ ts', ts' <+: ts → ts' ≠ [] → ∀ addr, ValidSegs addr →
      replayedPaths targetTree ts' (pathOf addr) →
      ¬ ((baseDir db (headRow db (some targetHead)) addr).isSome ∨
        ∃ q, replayedPaths targetTree ts' q ∧ pathOf addr ++ ['/'] <+: q)

/-- The request that is planned leaves no address as a file and as a
directory. -/
def Settles (s : Server H) : Event H → Prop
  | .planPush i => ∀ caller commitID req files branch userID head,
      s.tasks i = some (.pushLocked caller commitID req files branch userID head) →
      NoClash s.db (headRow s.db head) files req.removed
  | .planLanding i => ∀ caller opts newID land,
      s.tasks i = some (.landOpened caller opts newID land) →
      LandingSettles s.db land opts.strategy
  | _ => True

theorem LandingSettles.noClash {db : DB H} {land : Landing} {strategy : MergeStrategy}
    (h : LandingSettles db land strategy) (hinv : db.StoreInv) {targetHead : Commit H}
    {targetTree : GoMap (Entry H)} {ts : List (GoMap (Entry H) × GoMap (Entry H))}
    {w : MergeWrite H} (hland : PlannedLanding db land strategy targetHead targetTree ts w)
    {c : PlannedCommit H} (hc : c ∈ w.commits) :
    NoClash db (headRow db (some targetHead)) c.files c.removed := by
  have hs := hinv.toStoreShape
  obtain ⟨ts', merged, hpre, hne, hrep, hct⟩ := hland.commits_ok c hc
  have hmerged := hrep.entryOK_of_landing hinv hland.tree_eq hland.trees_eq hpre
  obtain ⟨head, row, hhead, hrow, hflat⟩ := mergeTree_ok hinv hland.tree_eq
  obtain rfl := Except.ok.inj (hhead.symm.trans hland.head_eq)
  have hfiles : (mergeDelta targetTree merged).1 = c.files := congrArg Prod.fst hct.delta_eq
  have hremoved : (mergeDelta targetTree merged).2 = c.removed :=
    congrArg Prod.snd hct.delta_eq
  intro addr ha hfile hdir
  rw [hrow, ← hfiles, ← hremoved] at hfile hdir
  rw [fileLeft_mergeDelta hflat hs hmerged ha, hrep.isSome_iff] at hfile
  rw [dirLeft_mergeDelta hflat ha] at hdir
  simp only [hrep.isSome_iff] at hdir
  rw [← hrow] at hdir
  exact h _ targetTree ts hland.head_eq hland.tree_eq hland.trees_eq ts' hpre hne addr ha
    hfile hdir

/-! ## Whole runs -/

/-- The change set of a planned commit clashes nowhere. -/
def CommitSettles (db : DB H) (head : Option (Commit H)) (c : PlannedCommit H) : Prop :=
  NoClash db (headRow db head) c.files c.removed

theorem settles_tracks (store : ContentStore H) (hcf : CollisionFree H) :
    Tracks store Settles CommitSettles where
  grows hg hwp hno := hno.grows hg hcf hwp.head_stored
  push _ hcond htask _ := hcond _ _ _ _ _ _ _ htask
  land hinv hcond htask hland hc := (hcond _ _ _ _ htask).noClash hinv hland hc

variable {store : ContentStore H}

theorem unclashed_step (hcf : CollisionFree H) {s s' : Server H} {e : Event H}
    (hinv : s.Inv CommitSettles)
    (hall : ∀ c ∈ s.db.commits, Unclashed s.db c) (h : Step store s e s') :
    ∀ c ∈ s'.db.commits, Unclashed s'.db c := by
  rcases h.writes hinv.store hcf with hsame | ⟨i, t, ht, hwrite⟩
  · have hg := DB.Grows.of_sameTrees hinv.store hsame
    intro c hc
    rw [hsame.commits_eq] at hc
    exact (hall c hc).grows hg hcf
  · obtain ⟨hg, hnew⟩ := applyPushAll_landed hcf (settles_tracks store hcf).grows hinv.store
      (hinv.planned ht) hwrite
    intro c hc
    rcases hnew c hc with hold | ⟨pc, -, head, mid, mid', -, hno, hland, hg'⟩
    · exact (hall c hold).grows hg hcf
    · exact (hland.unclashed_iff.mpr hno).grows hg' hcf

/-- In every run whose planned change sets leave no address as a file and as a
directory, all committed trees are prefix-free. -/
theorem trees_prefix_free (hcf : CollisionFree H) {s₀ s : Server H} (hfresh : s₀.Fresh)
    (hrun : ServerRun store Settles s₀ s) : ∀ c ∈ s.db.commits, PrefixFree s.db c := by
  have htr := settles_tracks store hcf
  have hinv : s.Inv CommitSettles ∧ ∀ c ∈ s.db.commits, Unclashed s.db c := by
    refine hrun.invariant
      (I := fun s => s.Inv CommitSettles ∧ ∀ c ∈ s.db.commits, Unclashed s.db c)
      ⟨hfresh.inv _, ?_⟩ ?_
    · rw [hfresh.unborn.commits_eq]
      simp
    · rintro s e s' ⟨hinv, hall⟩ hcond hstep
      exact ⟨(hinv.step hcf htr hcond hstep).1, unclashed_step hcf hinv hall hstep⟩
  intro c hc
  exact (hinv.2 c hc).prefixFree hinv.1.store

end Condition

/-! ## A file above another one -/

theorem noClash_of_unborn {db : DB IdealHash} {files : List (PushFile IdealHash)}
    {removed : List Str}
    (hplain : ∀ p ∈ files.map PushFile.path, p.head? ≠ some '/')
    (hfree : ∀ p ∈ files.map PushFile.path, ∀ q ∈ files.map PushFile.path ++ removed,
      ¬ p ++ ['/'] <+: q) : NoClash db none files removed := by
  rintro addr - (⟨f, hf, heq | ⟨-, heq⟩⟩ | ⟨hold, -⟩) (hdir | ⟨q, hq, hbelow⟩)
  · simp [baseDir] at hdir
  · rw [← heq] at hbelow
    exact hfree f.path (List.mem_map_of_mem hf) q (List.mem_append.mpr hq) hbelow
  · simp [baseDir] at hdir
  · exact hplain f.path (List.mem_map_of_mem hf) (by rw [heq]; rfl)
  all_goals simp [baseFind] at hold

theorem trees_prefix_free_demo :
    ∃ s c, ServerRun noContent Settles demoServer s ∧ s.db.commits = [c] ∧
      PrefixFree s.db c := by
  obtain ⟨files, branch, userID, head, parent2, lockPlan, root, mid, hpushed⟩ :=
    push_ok (rfl : push demoStore demoCaller 7 demoPush = .ok _)
  have hfiles := (acceptPush_ok hpushed.accepted).1
  have hhead : head = none := by
    obtain rfl := Option.some.inj (openBranch_ok hpushed.opened).1
    simpa [demoStore] using (headCommitOf_ok hpushed.planned.head_eq).1
  have hrun : ServerRun noContent Settles demoServer ((demoServer.withDB mid).assign 0 none) := by
    refine hpushed.serverRun (s := demoServer) (i := 0) rfl trivial (fun _ => trivial) ?_
      fun _ => trivial
    intro caller commitID req files' branch' userID' head' htask
    rw [Server.assign_self] at htask
    obtain ⟨rfl, rfl, rfl, rfl, rfl, rfl, rfl⟩ := Task.pushLocked.inj (Option.some.inj htask)
    rw [hhead]
    apply noClash_of_unborn
    · rw [hfiles]
      decide
    · rw [hfiles]
      decide
  obtain ⟨c, hc, -⟩ := hpushed.exists_committed
    demoServer_fresh.unborn.storeInv IdealHash.collisionFree
  have hcommits : mid.commits = [c] := hc.commits_eq
  refine ⟨_, c, hrun, hcommits, trees_prefix_free IdealHash.collisionFree demoServer_fresh hrun
    c ?_⟩
  rw [Server.assign_db, Server.withDB_db, hcommits]
  exact List.mem_singleton_self c

def clashingPush : PushRequest IdealHash :=
  { demoPush with
    files := [demoFile "a" 1, demoFile "a/b.txt" 2]
    paths_fit := by decide }

/-- Both files of the push are in the tree it commits. -/
theorem file_above_file_committed :
    ∃ s c, ServerRun noContent (fun _ _ => True) demoServer s ∧ c ∈ s.db.commits ∧
      ¬ PrefixFree s.db c := by
  obtain ⟨files, branch, userID, head, parent2, lockPlan, root, mid, hpushed⟩ :=
    push_ok (rfl : push demoStore demoCaller 7 clashingPush = .ok _)
  have hrun : ServerRun noContent (fun _ _ => True) demoServer
      ((demoServer.withDB mid).assign 0 none) :=
    hpushed.serverRun (s := demoServer) (i := 0) rfl trivial (fun _ => trivial) trivial
      fun _ => trivial
  have hinv : demoStore.StoreInv := demoServer_fresh.unborn.storeInv
  have hwp := hpushed.writePlan
  obtain ⟨treeID, hland⟩ := hwp.landed hinv IdealHash.collisionFree hpushed.applied
  refine ⟨_, _, hrun, hland.commits_eq ▸ List.mem_append_right _ (List.mem_singleton_self _), ?_⟩
  intro hfree
  have hno := hland.unclashed_iff.mp (hfree.unclashed hland.inv)
  rw [(acceptPush_ok hpushed.accepted).1] at hno
  have hvalid : ValidSegs ["a".toList] := ⟨by simp, by simp [ValidName]⟩
  refine hno ["a".toList] hvalid (Or.inl ?_) (Or.inr ?_)
  · decide
  · exact ⟨"a/b.txt".toList, by decide, by decide⟩

end Nipa
