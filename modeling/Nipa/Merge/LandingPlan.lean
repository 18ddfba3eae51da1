import Nipa.Merge.MergedTree

/-!
# The commits a landing writes

Every commit of a landing has a tree of its own: the target's files with the
first so many changes of the source merged onto them.
-/

namespace Nipa

open Support Merge TreeBuilder

section Trees

variable {H : Type} [HashScheme H] [DecidableEq H]

/-- A commit's own tree and that of its first parent. -/
def commitTrees (db : DB H) (projectID : ID) (c : Commit H) :
    Except DomainError (GoMap (Entry H) × GoMap (Entry H)) := do
  let commitBase ← mergeTreeOf db projectID c.parent1ID
  let commitTree ← mergeTree db projectID c.id
  return (commitBase, commitTree)

/-- The changes a landing merges onto the target, each as a base and a changed
tree: all of the source at once, or commit by commit. -/
def landingTrees (db : DB H) (land : Landing) (strategy : MergeStrategy) :
    Except DomainError (List (GoMap (Entry H) × GoMap (Entry H))) := do
  let base ← findMergeBase db (some land.targetHead) (some land.sourceHead)
  if strategy = .rebase then
    let commits ← rebaseCommits db land.projectID land.sourceHead base
    commits.mapM (commitTrees db land.projectID)
  else
    let baseTree ← mergeTreeOf db land.projectID base
    let theirs ← mergeTree db land.projectID land.sourceHead
    return [(baseTree, theirs)]

/-- Merging changes onto a file set one after the other. -/
inductive Replays (start : GoMap (Entry H)) :
    List (GoMap (Entry H) × GoMap (Entry H)) → GoMap (Entry H) → Prop where
  | nil : Replays start [] start
  | snoc {ts : List (GoMap (Entry H) × GoMap (Entry H))} {m m' : GoMap (Entry H)}
      {t : GoMap (Entry H) × GoMap (Entry H)} (h : Replays start ts m)
      (hm : ∀ p, MergedAs p (t.1.lookup p) (m.lookup p) (t.2.lookup p) (m'.lookup p)) :
      Replays start (ts ++ [t]) m'

/-- The paths left after merging changes onto a file set. -/
def replayedPaths (start : GoMap (Entry H))
    (ts : List (GoMap (Entry H) × GoMap (Entry H))) (p : Str) : Prop :=
  ts.foldl (fun present t => keepsPath (t.1.lookup p).isSome present (t.2.lookup p).isSome)
    (start.lookup p).isSome

variable {m : GoMap (Entry H)} {ts : List (GoMap (Entry H) × GoMap (Entry H))}

theorem Replays.isSome_iff {start : GoMap (Entry H)} (h : Replays start ts m) (p : Str) :
    (m.lookup p).isSome ↔ replayedPaths start ts p := by
  induction h with
  | nil => rfl
  | snoc _ hm ih =>
      rw [(hm p).isSome_iff, replayedPaths, List.foldl_append, List.foldl_cons,
        List.foldl_nil]
      exact iff_of_eq (congrArg (fun q => keepsPath _ q _) (propext ih))

theorem Replays.entryOK {start : GoMap (Entry H)} (h : Replays start ts m)
    (hstart : ∀ p, ∀ e ∈ start.lookup p, EntryOK p e)
    (hts : ∀ t ∈ ts, ∀ p, ∀ e ∈ t.2.lookup p, EntryOK p e) :
    ∀ p, ∀ e ∈ m.lookup p, EntryOK p e := by
  induction h with
  | nil => exact hstart
  | snoc _ hm ih =>
      intro p
      refine (hm p).entryOK (ih ?_ p) (hts _ (by simp) p)
      intro t ht
      exact hts t (List.mem_append_left _ ht)

theorem mergeTree_entryOK {db : DB H} (hinv : db.StoreInv) {projectID commitID : ID}
    (h : mergeTree db projectID commitID = .ok m) : ∀ p, ∀ e ∈ m.lookup p, EntryOK p e := by
  obtain ⟨c, row, -, -, hflat⟩ := mergeTree_ok hinv h
  intro p
  exact hflat.entryOK hinv.toStoreShape

theorem landingTrees_entryOK {db : DB H} (hinv : db.StoreInv) {land : Landing}
    {strategy : MergeStrategy} (h : landingTrees db land strategy = .ok ts) :
    ∀ t ∈ ts, ∀ p, ∀ e ∈ t.2.lookup p, EntryOK p e := by
  rw [landingTrees] at h
  obtain ⟨base, -, h⟩ := bind_eq_ok.mp h
  split at h
  · obtain ⟨commits, -, h⟩ := bind_eq_ok.mp h
    intro t ht
    obtain ⟨c, -, hc⟩ := forall₂_mem_right (mapM_ok h) ht
    rw [commitTrees] at hc
    simp only [bind_eq_ok, pure_eq_ok] at hc
    obtain ⟨commitBase, -, commitTree, htree, rfl⟩ := hc
    exact mergeTree_entryOK hinv htree
  · simp only [bind_eq_ok, pure_eq_ok] at h
    obtain ⟨baseTree, -, theirs, htheirs, rfl⟩ := h
    intro t ht
    rw [List.mem_singleton.mp ht]
    exact mergeTree_entryOK hinv htheirs

theorem Replays.entryOK_of_landing {db : DB H} (hinv : db.StoreInv) {land : Landing}
    {strategy : MergeStrategy} {ts' : List (GoMap (Entry H) × GoMap (Entry H))}
    {targetTree merged : GoMap (Entry H)}
    (htree : mergeTree db land.projectID land.targetHead = .ok targetTree)
    (htrees : landingTrees db land strategy = .ok ts) (hpre : ts' <+: ts)
    (h : Replays targetTree ts' merged) : ∀ p, ∀ e ∈ merged.lookup p, EntryOK p e := by
  refine h.entryOK (mergeTree_entryOK hinv htree) ?_
  intro t ht
  exact landingTrees_entryOK hinv htrees t (hpre.subset ht)

end Trees

/-! ## Planned commits -/

section Commits

variable {H : Type} [HashScheme H] [DecidableEq H]

/-- The commit turns the target's tree into the merged file set. -/
structure CommitsTree (db : DB H) (targetHead : Commit H)
    (targetTree merged : GoMap (Entry H)) (c : PlannedCommit H) : Prop where
  delta_eq : mergeDelta targetTree merged = (c.files, c.removed)
  built : ∃ root parentHashes, buildNewTree db (some targetHead) c.files c.removed = .ok root ∧
    c.request = buildApplyRequest c.request.commitID c.request.projectID c.request.branchID
      c.request.parentID c.request.parentID2 parentHashes c.request.userID c.request.message
      root

/-- A landing whose first changes `ts` are worked out. -/
structure Landable (db : DB H) (targetHead : Commit H) (targetTree : GoMap (Entry H))
    (ts : List (GoMap (Entry H) × GoMap (Entry H))) (w : MergeWrite H) : Prop where
  replays : Replays targetTree ts w.merged
  commits_ok : ∀ c ∈ w.commits, ∃ ts' merged, ts' <+: ts ∧ ts' ≠ [] ∧
    Replays targetTree ts' merged ∧ CommitsTree db targetHead targetTree merged c
  last_ok : ∀ c ∈ w.commits.getLast?, CommitsTree db targetHead targetTree w.merged c

variable {store : ContentStore H} {db db' : DB H} {land : Landing} {targetHead : Commit H}
  {targetTree : GoMap (Entry H)}

variable {merged : GoMap (Entry H)} {c : PlannedCommit H}

theorem landingCommit_ok {projectID commitID userID : ID} {target : Branch}
    {parentID parent2ID : Option ID} {parentHashes : List H} {message : Str}
    (h : landingCommit db projectID target targetHead targetTree merged commitID parentID
      parent2ID parentHashes userID message = .ok c) :
    CommitsTree db targetHead targetTree merged c ∧ c.request.branchID = target.id ∧
      c.request.parentID = parentID ∧ c.request.parentID2 = parent2ID := by
  rw [landingCommit] at h
  obtain ⟨root, hroot, h⟩ := bind_eq_ok.mp h
  obtain rfl := pure_eq_ok.mp h
  exact ⟨⟨rfl, root, parentHashes, hroot, rfl⟩, rfl, rfl, rfl⟩

theorem CommitsTree.of_chunksOnly (hinv : db.StoreInv) (hcf : CollisionFree H)
    (h : ChunksOnly db db') (hhead : targetHead ∈ db.commits)
    (hc : CommitsTree db' targetHead targetTree merged c) :
    CommitsTree db targetHead targetTree merged c := by
  obtain ⟨root, parentHashes, hbuild, heq⟩ := hc.built
  have hgrows := DB.Grows.of_sameTrees hinv h.toSameTrees
  have hstored : ∀ c ∈ some targetHead, c ∈ db.commits := by
    rintro _ ⟨⟩
    exact hhead
  rw [buildNewTree_eq_of_grows hgrows hcf hstored] at hbuild
  exact ⟨hc.delta_eq, root, parentHashes, hbuild, heq⟩

variable {w : MergeWrite H}

theorem Landable.next {ts : List (GoMap (Entry H) × GoMap (Entry H))}
    (h : Landable db targetHead targetTree ts w) {t : GoMap (Entry H) × GoMap (Entry H)}
    (hm : ∀ p, MergedAs p (t.1.lookup p) (w.merged.lookup p) (t.2.lookup p)
      (merged.lookup p)) (hc : CommitsTree db targetHead targetTree merged c)
    (stored : List (Chunk H)) :
    Landable db targetHead targetTree (ts ++ [t])
      ⟨w.commits ++ [c], merged, stored⟩ := by
  have hreplays := Replays.snoc h.replays hm
  refine ⟨hreplays, ?_, ?_⟩
  · intro c' hc'
    rcases List.mem_append.mp hc' with hold | hnew
    · obtain ⟨ts', merged', hpre, hne, hrep, hct⟩ := h.commits_ok c' hold
      exact ⟨ts', merged', hpre.trans (List.prefix_append _ _), hne, hrep, hct⟩
    · rw [List.mem_singleton.mp hnew]
      exact ⟨ts ++ [t], merged, List.prefix_refl _, by simp, hreplays, hc⟩
  · intro c' hc'
    simp only [List.getLast?_append, List.getLast?_singleton, Option.some_or,
      Option.mem_def, Option.some.injEq] at hc'
    rw [← hc']
    exact hc

variable {newID : ℕ → ID}

theorem replayCommits_ok (hinv : db.StoreInv) (hcf : CollisionFree H)
    (hhead : targetHead ∈ db.commits) {commits : List (Commit H)} {n : ℕ} {parentID : ID}
    {parentHash : H} {mid : DB H} {w' : MergeWrite H}
    (h : replayCommits store land newID targetHead targetTree commits n parentID parentHash
      mid w = .ok (db', w')) (hmid : ChunksOnly db mid)
    {ts : List (GoMap (Entry H) × GoMap (Entry H))} (hw : Landable db targetHead targetTree ts w) :
    ∃ ts', commits.mapM (commitTrees db land.projectID) = .ok ts' ∧ ChunksOnly db db' ∧
      Landable db targetHead targetTree (ts ++ ts') w' := by
  induction commits generalizing n parentID parentHash mid w ts with
  | nil =>
      obtain ⟨rfl, rfl⟩ := Prod.mk.inj (Except.ok.inj h)
      exact ⟨[], rfl, hmid, by rwa [List.append_nil]⟩
  | cons commit rest ih =>
      rw [replayCommits] at h
      obtain ⟨commitBase, hbase, h⟩ := bind_eq_ok.mp h
      obtain ⟨commitTree, htree, h⟩ := bind_eq_ok.mp h
      obtain ⟨⟨mid', current, added⟩, honto, h⟩ := bind_eq_ok.mp h
      obtain ⟨next, hnext, h⟩ := bind_eq_ok.mp h
      rw [mergeTreeOf_sameTrees hmid.toSameTrees] at hbase
      rw [mergeTree_sameTrees hmid.toSameTrees] at htree
      obtain ⟨hdb, hmerged⟩ := mergeOnto_ok honto
      have hct := (landingCommit_ok hnext).1
      have hmid' := hmid.trans hdb
      have hstep := hw.next (t := (commitBase, commitTree)) (fun p => (hmerged p).cases)
        (hct.of_chunksOnly hinv hcf hmid' hhead) (w.stored ++ added)
      obtain ⟨ts', hts', hdb', hfinal⟩ := ih h hmid' hstep
      have hcommit : commitTrees db land.projectID commit = .ok (commitBase, commitTree) := by
        rw [commitTrees, hbase, htree]
        rfl
      refine ⟨(commitBase, commitTree) :: ts', ?_, hdb', ?_⟩
      · rw [List.mapM_cons, hcommit, hts']
        rfl
      · rwa [List.append_assoc, List.singleton_append] at hfinal

/-- How a landing comes to write its commits. -/
inductive PlansWrite (store : ContentStore H) (db : DB H) (land : Landing)
    (opts : MergeCommitOptions) (newID : ℕ → ID) (targetHead : Commit H)
    (targetTree : GoMap (Entry H)) (db' : DB H) : MergeWrite H → Prop
  | replayed {base : Option ID} {commits : List (Commit H)} {w : MergeWrite H}
      (hrebase : opts.strategy = .rebase)
      (hbase : findMergeBase db (some land.targetHead) (some land.sourceHead) = .ok base)
      (hcommits : rebaseCommits db land.projectID land.sourceHead base = .ok commits)
      (hne : commits ≠ [])
      (hreplay : replayCommits store land newID targetHead targetTree commits 0
        land.targetHead targetHead.hash db ⟨[], targetTree, []⟩ = .ok (db', w)) :
      PlansWrite store db land opts newID targetHead targetTree db' w
  | merged {base : Option ID} {sourceHead : Commit H} {baseTree theirs merged : GoMap (Entry H)}
      {stored : List (Chunk H)} {message : Str} {commit : PlannedCommit H}
      (hrebase : opts.strategy ≠ .rebase)
      (hbase : findMergeBase db (some land.targetHead) (some land.sourceHead) = .ok base)
      (hsource : commitByIDInProject db land.projectID land.sourceHead = .ok sourceHead)
      (hbaseTree : mergeTreeOf db land.projectID base = .ok baseTree)
      (htheirs : mergeTree db land.projectID land.sourceHead = .ok theirs)
      (honto : mergeOnto store db baseTree targetTree theirs [] = .ok (db', merged, stored))
      (hcommit : landingCommit db' land.projectID land.target targetHead targetTree merged
        (newID 0) (some land.targetHead)
        (if opts.strategy = .merge then some sourceHead.id else none)
        (if opts.strategy = .merge then [targetHead.hash, sourceHead.hash]
          else [targetHead.hash]) opts.author message = .ok commit) :
      PlansWrite store db land opts newID targetHead targetTree db' ⟨[commit], merged, stored⟩

variable {opts : MergeCommitOptions}

theorem planMerge_cases {caller : Caller}
    (h : planMerge store db caller land opts newID = .ok (.write db' w)) :
    ∃ targetHead targetTree,
      commitByIDInProject db land.projectID land.targetHead = .ok targetHead ∧
      mergeTree db land.projectID land.targetHead = .ok targetTree ∧
      PlansWrite store db land opts newID targetHead targetTree db' w := by
  rw [planMerge] at h
  split at h
  · cases h
  simp only [bind_eq_ok] at h
  obtain ⟨base, hbase, targetHead, hhead, targetTree, htree, h⟩ := h
  refine ⟨targetHead, targetTree, hhead, htree, ?_⟩
  by_cases hrebase : opts.strategy = .rebase
  · rw [if_pos hrebase] at h
    split at h
    · cases h
    obtain ⟨commits, hcommits, h⟩ := bind_eq_ok.mp h
    split at h
    · cases h
    next hne =>
      simp only [bind_eq_ok, pure_eq_ok, MergePlan.write.injEq] at h
      obtain ⟨⟨_, _⟩, hreplay, _, -, rfl, rfl⟩ := h
      exact .replayed hrebase hbase hcommits hne hreplay
  · rw [if_neg hrebase] at h
    simp only [bind_eq_ok, pure_eq_ok, MergePlan.write.injEq] at h
    obtain ⟨⟨_, _⟩, hplan, _, -, rfl, rfl⟩ := h
    rw [planMergeCommit] at hplan
    simp only [bind_eq_ok] at hplan
    obtain ⟨_, hsource, _, hbaseTree, _, htheirs, ⟨_, _, _⟩, honto, _, hcommit, hres⟩ := hplan
    cases hres
    exact .merged hrebase hbase hsource hbaseTree htheirs honto hcommit

/-- What holds of the target alone and is kept by every merge and the commit made of it
holds of a planned landing. -/
theorem planMerge_invariant {caller : Caller}
    {I : Commit H → GoMap (Entry H) → DB H → MergeWrite H → Prop} (hstart : ∀ targetHead targetTree,
      commitByIDInProject db land.projectID land.targetHead = .ok targetHead →
      mergeTree db land.projectID land.targetHead = .ok targetTree →
      I targetHead targetTree db ⟨[], targetTree, []⟩)
    (hnext : ∀ {targetHead targetTree mid w}, I targetHead targetTree mid w →
      ∀ {commitID theirs}, mergeTree mid land.projectID commitID = .ok theirs →
      ∀ {base pre mid' merged added},
        mergeOnto store mid base w.merged theirs pre = .ok (mid', merged, added) →
      ∀ {id parentID parent2ID parentHashes userID message c},
        landingCommit mid' land.projectID land.target targetHead targetTree merged id parentID
          parent2ID parentHashes userID message = .ok c →
        I targetHead targetTree mid' ⟨w.commits ++ [c], merged, w.stored ++ added⟩)
    (h : planMerge store db caller land opts newID = .ok (.write db' w)) :
    ∃ targetHead targetTree,
      commitByIDInProject db land.projectID land.targetHead = .ok targetHead ∧
      I targetHead targetTree db' w := by
  obtain ⟨targetHead, targetTree, hhead, htree, hplans⟩ := planMerge_cases h
  refine ⟨targetHead, targetTree, hhead, ?_⟩
  have hinit := hstart targetHead targetTree hhead htree
  cases hplans with
  | replayed _ _ _ _ hreplay =>
      -- one commit of the source after the other
      have hloop : ∀ {commits n parentID parentHash mid w'}, I targetHead targetTree mid w' →
          replayCommits store land newID targetHead targetTree commits n parentID parentHash
            mid w' = .ok (db', w) → I targetHead targetTree db' w := by
        intro commits
        induction commits with
        | nil =>
            intro n parentID parentHash mid w hw h
            obtain ⟨rfl, rfl⟩ := Prod.mk.inj (Except.ok.inj h)
            exact hw
        | cons commit rest ih =>
            intro n parentID parentHash mid w hw h
            rw [replayCommits] at h
            obtain ⟨commitBase, -, h⟩ := bind_eq_ok.mp h
            obtain ⟨commitTree, htree, h⟩ := bind_eq_ok.mp h
            obtain ⟨⟨mid', current, added⟩, honto, h⟩ := bind_eq_ok.mp h
            obtain ⟨next, hcommit, h⟩ := bind_eq_ok.mp h
            exact ih (hnext hw htree honto hcommit) h
      exact hloop hinit hreplay
  | merged _ _ _ _ htheirs honto hcommit => simpa using hnext hinit htheirs honto hcommit

/-- A landing that goes on to write its commits. -/
structure PlannedLanding (db : DB H) (land : Landing) (strategy : MergeStrategy)
    (targetHead : Commit H) (targetTree : GoMap (Entry H))
    (ts : List (GoMap (Entry H) × GoMap (Entry H))) (w : MergeWrite H) :
    Prop extends Landable db targetHead targetTree ts w where
  head_eq : commitByIDInProject db land.projectID land.targetHead = .ok targetHead
  tree_eq : mergeTree db land.projectID land.targetHead = .ok targetTree
  trees_eq : landingTrees db land strategy = .ok ts

theorem planMerge_ok (hinv : db.StoreInv) (hcf : CollisionFree H) {caller : Caller}
    (h : planMerge store db caller land opts newID = .ok (.write db' w)) :
    ChunksOnly db db' ∧ ∃ targetHead targetTree ts,
      PlannedLanding db land opts.strategy targetHead targetTree ts w := by
  obtain ⟨targetHead, targetTree, hhead, htree, hplans⟩ := planMerge_cases h
  have hmem : targetHead ∈ db.commits :=
    List.mem_of_find?_eq_some (commitByIDInProject_ok hhead).1
  have hstart : Landable db targetHead targetTree [] ⟨[], targetTree, []⟩ :=
    ⟨.nil, by simp, by simp⟩
  cases hplans with
  | replayed hrebase hbase hcommits _ hreplay =>
      obtain ⟨ts, hts, hdb, hland⟩ :=
        replayCommits_ok hinv hcf hmem hreplay (ChunksOnly.refl db) hstart
      refine ⟨hdb, targetHead, targetTree, ts, ?_, hhead, htree, ?_⟩
      · simpa using hland
      · rw [landingTrees, hbase]
        change (if opts.strategy = .rebase then _ else _) = _
        rw [if_pos hrebase, hcommits]
        exact hts
  | @merged base _ baseTree theirs _ stored _ _ hrebase hbase _ hbaseTree htheirs honto
        hcommit =>
      obtain ⟨hdb, hmerged⟩ := mergeOnto_ok honto
      have hct := (landingCommit_ok hcommit).1
      have hland := hstart.next (t := (baseTree, theirs)) (fun p => (hmerged p).cases)
        (hct.of_chunksOnly hinv hcf hdb hmem) stored
      refine ⟨hdb, targetHead, targetTree, [(baseTree, theirs)], hland, hhead, htree, ?_⟩
      rw [landingTrees, hbase]
      change (if opts.strategy = .rebase then _ else _) = _
      rw [if_neg hrebase, hbaseTree, htheirs]
      rfl

end Commits

end Nipa
