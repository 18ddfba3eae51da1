import Nipa.Push.RootHash
import Nipa.Server.CanonicalHash
import Nipa.Server.Heads

/-!
# Commit hashes

A commit hash is computed from the root hash, the parent hashes and the message.
It says nothing about the project or the branch, and no two rows may have the same
one.  So a push is turned away at the very end when some branch of some project
already has a commit with the same tree, the same parents and the same message.
-/

namespace Nipa

open Support TreeBuilder

/-! ## Hashes of requests -/

section Requests

variable {H : Type} [HashScheme H]

/-- A stored commit has this id and this hash. -/
def HashStored (db : DB H) (p : ID) (h : H) : Prop :=
  ∃ x ∈ db.commits, x.id = p ∧ x.hash = h

/-- The root hash of the tree that a request writes. -/
def requestRoot (req : ApplyPushRequest H) : Option H :=
  req.nodes.head?.map PushNodeRow.hash

/-- The commit hash of a request is computed from its root and the hashes of its
parents. -/
def HashedRequest (known : ID → H → Prop) (req : ApplyPushRequest H) : Prop :=
  ∃ root hs, requestRoot req = some root ∧ List.Forall₂ known (requestParents req) hs ∧
    req.commitHash = commitHash root hs req.message

/-- What is known once a planned commit is. -/
def knownWith (known : ID → H → Prop) (c : PlannedCommit H) : ID → H → Prop :=
  fun p h => known p h ∨ p = c.request.commitID ∧ h = c.request.commitHash

/-- The parents of each commit are known, or come before it. -/
def HashChain : (ID → H → Prop) → List (PlannedCommit H) → Prop
  | _, [] => True
  | known, c :: cs => HashedRequest known c.request ∧ HashChain (knownWith known c) cs

variable {known known' : ID → H → Prop}

theorem HashedRequest.mono (hk : ∀ p h, known p h → known' p h) {req : ApplyPushRequest H}
    (h : HashedRequest known req) : HashedRequest known' req := by
  obtain ⟨root, hs, hroot, hparents, heq⟩ := h
  exact ⟨root, hs, hroot, hparents.imp hk, heq⟩

theorem HashChain.mono (hk : ∀ p h, known p h → known' p h) {cs : List (PlannedCommit H)}
    (h : HashChain known cs) : HashChain known' cs := by
  induction cs generalizing known known' with
  | nil => trivial
  | cons c cs ih =>
      refine ⟨h.1.mono hk, ih ?_ h.2⟩
      rintro p x (hold | hnew)
      · exact Or.inl (hk p x hold)
      · exact Or.inr hnew

theorem HashChain.concat {cs : List (PlannedCommit H)} {c : PlannedCommit H}
    (h : HashChain known cs) (hc : HashedRequest (cs.foldl knownWith known) c.request) :
    HashChain known (cs ++ [c]) := by
  induction cs generalizing known with
  | nil => exact ⟨hc, trivial⟩
  | cons c' cs ih => exact ⟨h.1, ih h.2 hc⟩

theorem hashedRequest_of_build {commitID projectID branchID userID : ID}
    {parentID parent2ID : Option ID} {parentHashes : List H} {message : Str}
    {root : PushTreeNode H}
    (h : List.Forall₂ known (parentID.toList ++ parent2ID.toList) parentHashes) :
    HashedRequest known (buildApplyRequest commitID projectID branchID parentID parent2ID
      parentHashes userID message root) := by
  refine ⟨finalize root, parentHashes, ?_, h, rfl⟩
  rw [requestRoot, buildApplyRequest_head]
  rfl

theorem parents_length_lt (p q : Option ID) : (p.toList ++ q.toList).length < 2 ^ 32 := by
  rw [List.length_append]
  have hp := Option.length_toList_le (o := p)
  have hq := Option.length_toList_le (o := q)
  omega

end Requests

/-! ## Planned requests -/

section Planned

variable {H : Type} [HashScheme H] [DecidableEq H] {db db' : DB H}

omit [HashScheme H] [DecidableEq H] in
theorem HashStored.grows (hgrow : CommitsGrow db db') {p : ID} {h : H}
    (hp : HashStored db p h) : HashStored db' p h := by
  obtain ⟨x, hx, heq⟩ := hp
  exact ⟨x, hgrow.subset hx, heq⟩

theorem planApply_hashed {commitID userID : ID} {req : PushRequest H}
    {files : List (PushFile H)} {branch : Branch} {head : Option (Commit H)}
    {apply : ApplyPushRequest H} (hid : branch.commitID = head.map Commit.id)
    (hhead : ∀ c ∈ head, c ∈ db.commits)
    (h : planApply db commitID req files branch userID head = .ok apply) :
    HashedRequest (HashStored db) apply := by
  obtain ⟨parent2, root, hparent2, -, -, rfl⟩ := planApply_eq_ok.mp h
  rcases head with _ | c
  · exact hashedRequest_of_build List.Forall₂.nil
  · have hc : HashStored db c.id c.hash := ⟨c, hhead c rfl, rfl, rfl⟩
    simp only [toApplyRequest, hid]
    rcases parent2 with _ | c2
    · exact hashedRequest_of_build (List.Forall₂.cons hc List.Forall₂.nil)
    · have hc2 : HashStored db c2.id c2.hash :=
        ⟨c2, parent2CommitOf_stored hparent2 c2 rfl, rfl, rfl⟩
      exact hashedRequest_of_build (.cons hc (.cons hc2 .nil))

theorem planApply_parentID {commitID userID : ID} {req : PushRequest H}
    {files : List (PushFile H)} {branch : Branch} {head : Option (Commit H)}
    {apply : ApplyPushRequest H} (hid : branch.commitID = head.map Commit.id)
    (h : planApply db commitID req files branch userID head = .ok apply) :
    apply.parentID = head.map Commit.id := by
  obtain ⟨parent2, root, -, -, -, rfl⟩ := planApply_eq_ok.mp h
  obtain ⟨parentHashes, heq⟩ := toApplyRequest_eq commitID req branch head parent2 userID root
  rw [heq, ← hid]
  rcases head with _ | c
  · exact hid.symm
  · rfl

theorem landingCommit_hashed {known : ID → H → Prop} {targetHead : Commit H}
    {targetTree merged : GoMap (Entry H)} {projectID commitID userID : ID} {target : Branch}
    {parentID parent2ID : Option ID} {parentHashes : List H} {message : Str}
    {c : PlannedCommit H}
    (hparents : List.Forall₂ known (parentID.toList ++ parent2ID.toList) parentHashes)
    (h : landingCommit db projectID target targetHead targetTree merged commitID parentID
      parent2ID parentHashes userID message = .ok c) : HashedRequest known c.request := by
  rw [landingCommit] at h
  obtain ⟨root, -, h⟩ := bind_eq_ok.mp h
  obtain rfl := pure_eq_ok.mp h
  exact hashedRequest_of_build hparents

variable {store : ContentStore H}

theorem replayCommits_hashed {known : ID → H → Prop} {land : Landing} {newID : ℕ → ID}
    {targetHead : Commit H} {targetTree : GoMap (Entry H)} {commits : List (Commit H)} {n : ℕ}
    {parentID : ID} {parentHash : H} {mid : DB H} {w w' : MergeWrite H}
    (h : replayCommits store land newID targetHead targetTree commits n parentID parentHash
      mid w = .ok (db', w'))
    (hw : HashChain known w.commits)
    (hparent : w.commits.foldl knownWith known parentID parentHash) :
    HashChain known w'.commits := by
  induction commits generalizing n parentID parentHash mid w with
  | nil =>
      obtain ⟨-, rfl⟩ := Prod.mk.inj (Except.ok.inj h)
      exact hw
  | cons commit rest ih =>
      rw [replayCommits] at h
      simp only [bind_eq_ok] at h
      obtain ⟨commitBase, -, commitTree, -, ⟨mid', current, added⟩, -, next, hnext, h⟩ := h
      have hparents : List.Forall₂ (w.commits.foldl knownWith known)
          ((some parentID).toList ++ (none : Option ID).toList) [parentHash] :=
        .cons hparent .nil
      refine ih h (hw.concat (landingCommit_hashed hparents hnext)) ?_
      rw [List.foldl_append]
      exact Or.inr ⟨rfl, rfl⟩

theorem planMerge_hashed {caller : Caller} {land : Landing} {opts : MergeCommitOptions}
    {newID : ℕ → ID} {w : MergeWrite H}
    (h : planMerge store db caller land opts newID = .ok (.write db' w)) :
    HashChain (HashStored db) w.commits := by
  have hstored : ∀ {projectID id : ID} {c : Commit H},
      commitByIDInProject db projectID id = .ok c → HashStored db id c.hash := by
    intro projectID id c hc
    obtain ⟨hget, hid, -⟩ := commitByIDInProject_ok hc
    exact ⟨c, List.mem_of_find?_eq_some hget, hid, rfl⟩
  obtain ⟨targetHead, targetTree, hhead, -, hplans⟩ := planMerge_cases h
  cases hplans with
  | replayed _ _ _ _ hreplay => exact replayCommits_hashed hreplay trivial (hstored hhead)
  | @merged _ sourceHead _ _ _ _ _ _ _ _ hsource _ _ _ hcommit =>
      refine ⟨landingCommit_hashed ?_ hcommit, trivial⟩
      split
      · have hid : HashStored db sourceHead.id sourceHead.hash := by
          obtain ⟨hget, -, -⟩ := commitByIDInProject_ok hsource
          exact ⟨_, List.mem_of_find?_eq_some hget, rfl, rfl⟩
        exact .cons (hstored hhead) (.cons hid .nil)
      · exact .cons (hstored hhead) .nil

end Planned

/-! ## Hashed stores -/

section Stored

variable {H : Type} [HashScheme H] [DecidableEq H] {db db' : DB H}

/-- The hash of a commit is computed from its root, the hashes of its parents and its
message. -/
def HashedCommit (db : DB H) (c : Commit H) : Prop :=
  ∃ row ∈ db.treeNodes, row.id = c.treeID ∧ ∃ hs,
    List.Forall₂ (HashStored db) (commitParents c) hs ∧
      c.hash = commitHash row.hash hs c.message

/-- Trees and commits have the hashes of what they hold, and no two commits have the
same one. -/
structure HashedStore (db : DB H) : Prop where
  inv : db.StoreInv
  hashes : db.HashesContent
  commits : ∀ c ∈ db.commits, HashedCommit db c
  ids_nodup : (db.commits.map Commit.id).Nodup
  hashes_nodup : (db.commits.map Commit.hash).Nodup

theorem DB.Unborn.hashedStore (h : db.Unborn) : HashedStore db where
  inv := h.storeInv
  hashes := by
    intro t ht
    rw [h.treeNodes_eq] at ht
    simp at ht
  commits := by
    rw [h.commits_eq]
    simp
  ids_nodup := by
    rw [h.commits_eq]
    simp
  hashes_nodup := by
    rw [h.commits_eq]
    simp

theorem HashedCommit.grows (hg : DB.Grows db db') {c : Commit H} (h : HashedCommit db c) :
    HashedCommit db' c := by
  obtain ⟨row, hr, hid, hs, hparents, heq⟩ := h
  exact ⟨row, hg.ext.mem_treeNodes hr, hid, hs,
    hparents.imp fun _ _ => HashStored.grows hg.commits, heq⟩

theorem HashedStore.of_sameTrees (h : HashedStore db) (hsame : DB.SameTrees db db') :
    HashedStore db' where
  inv := h.inv.of_sameTrees hsame
  hashes := h.hashes.of_sameTrees hsame
  commits := by
    intro c hc
    rw [hsame.commits_eq] at hc
    exact (h.commits c hc).grows (DB.Grows.of_sameTrees h.inv hsame)
  ids_nodup := by
    rw [hsame.commits_eq]
    exact h.ids_nodup
  hashes_nodup := by
    rw [hsame.commits_eq]
    exact h.hashes_nodup

theorem WritePlan.root_row {head : Option (Commit H)} {files : List (PushFile H)}
    {removed : List Str} {req : ApplyPushRequest H} (h : WritePlan db head files removed req)
    (hs : db.StoreShape) (happly : applyPush db req = .ok db') :
    ∃ row ∈ db'.treeNodes, requestRoot req = some row.hash ∧
      db'.commits = db.commits ++ [commitOf req row.id] := by
  obtain ⟨root, parentHashes, hbuild, heq⟩ := h.built
  rw [heq] at happly
  obtain ⟨ρ, hw, hcommits, -⟩ := written_of_apply hs h.request_ok hbuild happly
  rw [← heq] at hcommits
  refine ⟨_, hw.dirRow_mem (root_mem_layout root), ?_, hcommits⟩
  rw [heq, requestRoot, buildApplyRequest_head]
  rfl

theorem HashedStore.applyPush (h : HashedStore db) (hcf : CollisionFree H)
    {head : Option (Commit H)} {files : List (PushFile H)} {removed : List Str}
    {req : ApplyPushRequest H} (hplan : WritePlan db head files removed req)
    (hreq : HashedRequest (HashStored db) req) (happly : applyPush db req = .ok db') :
    HashedStore db' ∧ DB.Grows db db' ∧ HashStored db' req.commitID req.commitHash := by
  obtain ⟨treeID, hland⟩ := hplan.landed h.inv hcf happly
  have hg := hland.grows h.inv
  obtain ⟨row, hr, hroot, hcommits⟩ := hplan.root_row h.inv.toStoreShape happly
  obtain ⟨root, hs, hroot', hparents, heq⟩ := hreq
  obtain rfl := Option.some.inj (hroot'.symm.trans hroot)
  have hnew : ∀ c ∈ db.commits, c.id ≠ req.commitID ∧ c.hash ≠ req.commitHash := by
    rw [Nipa.applyPush] at happly
    simp only [bind_eq_ok, refuseIf_eq_ok] at happly
    obtain ⟨_, -, ⟨nodeIDs, rows⟩, -, first, -, rest, -, _, hfree, -⟩ := happly
    intro c hc
    exact ⟨fun hid => hfree ⟨c, hc, Or.inl hid⟩, fun hh => hfree ⟨c, hc, Or.inr hh⟩⟩
  have hnodup : ∀ {α : Type} {f : Commit H → α}, (db.commits.map f).Nodup →
      (∀ c ∈ db.commits, f c ≠ f (commitOf req row.id)) → (db'.commits.map f).Nodup := by
    intro α f hold hne
    rw [hcommits, List.map_append, List.map_singleton]
    refine List.nodup_append.mpr ⟨hold, by simp, ?_⟩
    rintro a ha _ hb rfl
    obtain ⟨c, hc, heq⟩ := List.mem_map.mp ha
    exact hne c hc (heq.trans (List.mem_singleton.mp hb))
  refine ⟨⟨hland.inv, hplan.hashesContent h.inv.toStoreShape h.hashes happly, ?_,
    hnodup h.ids_nodup fun c hc => (hnew c hc).1,
    hnodup h.hashes_nodup fun c hc => (hnew c hc).2⟩, hg, ?_⟩
  · intro c hc
    rw [hcommits] at hc
    rcases List.mem_append.mp hc with hold | hlast
    · exact (h.commits c hold).grows hg
    · rw [List.mem_singleton.mp hlast]
      exact ⟨row, hr, rfl, hs, hparents.imp fun _ _ => HashStored.grows hg.commits, heq⟩
  · refine ⟨commitOf req row.id, ?_, rfl, rfl⟩
    rw [hcommits]
    exact List.mem_append_right _ (List.mem_singleton_self _)

theorem HashedStore.applyPushAll (h : HashedStore db) (hcf : CollisionFree H)
    {cs : List (PlannedCommit H)}
    (hplan : ∀ c ∈ cs, ∃ head, WritePlan db head c.files c.removed c.request)
    (hchain : HashChain (HashStored db) cs)
    (happly : applyPushAll db (cs.map PlannedCommit.request) = .ok db') : HashedStore db' := by
  induction cs generalizing db with
  | nil =>
      obtain rfl := Except.ok.inj happly
      exact h
  | cons c cs ih =>
      rw [List.map_cons, Nipa.applyPushAll] at happly
      obtain ⟨mid, hmid, hrest⟩ := bind_eq_ok.mp happly
      obtain ⟨head, hwp⟩ := hplan c (by simp)
      obtain ⟨hstore, hg, hnew⟩ := h.applyPush hcf hwp hchain.1 hmid
      refine ih hstore ?_ (hchain.2.mono ?_) hrest
      · intro c' hc'
        obtain ⟨head', hwp'⟩ := hplan c' (List.mem_cons_of_mem _ hc')
        exact ⟨head', hwp'.grows hg hcf⟩
      · rintro p x (hold | ⟨rfl, rfl⟩)
        · exact hold.grows hg.commits
        · exact hnew

end Stored

/-! ## Runs of the server -/

section Runs

variable {H : Type} [HashScheme H] [DecidableEq H] {store : ContentStore H} {db db' : DB H}

/-- The push changes the tree of its first parent. -/
def PlannedOnParent (db : DB H) (c : PlannedCommit H) : Prop :=
  ∃ head, c.request.parentID = head.map Commit.id ∧
    WritePlan db head c.files c.removed c.request

/-- What a request has in hand is hashed with stored commits. -/
def Task.Hashed (db : DB H) : Task H → Prop
  | pushLocked _ _ _ _ branch _ head => branch.commitID = head.map Commit.id
  | pushPlanned _ c => HashChain (HashStored db) [c] ∧ PlannedOnParent db c
  | landPlanned _ w => HashChain (HashStored db) w.commits
  | _ => True

theorem Task.Hashed.grows (hg : DB.Grows db db') (hcf : CollisionFree H) {t : Task H}
    (h : t.Hashed db) : t.Hashed db' := by
  have hchain : ∀ {cs : List (PlannedCommit H)}, HashChain (HashStored db) cs →
      HashChain (HashStored db') cs := fun hcs => hcs.mono fun _ _ => HashStored.grows hg.commits
  cases t with
  | pushPlanned _ _ =>
      obtain ⟨hc, head, hparent, hwp⟩ := h
      exact ⟨hchain hc, head, hparent, hwp.grows hg hcf⟩
  | landPlanned _ _ => exact hchain h
  | pushLocked _ _ _ _ _ _ _ => exact h
  | _ => trivial

theorem Task.Hashed.chain {t : Task H} (h : t.Hashed db) : HashChain (HashStored db) t.commits := by
  cases t with
  | pushPlanned _ _ => exact h.1
  | landPlanned _ _ => exact h
  | _ => trivial

structure Server.Hashed (s : Server H) : Prop where
  inv : s.Inv fun _ _ _ => True
  store : HashedStore s.db
  tasks : ∀ {i t}, s.tasks i = some t → t.Hashed s.db

theorem Server.Fresh.hashed {s : Server H} (h : s.Fresh) : s.Hashed := by
  refine ⟨h.inv _, h.unborn.hashedStore, ?_⟩
  intro i t htask
  rw [h.idle i] at htask
  simp at htask

theorem Server.Hashed.step (hcf : CollisionFree H) {s s' : Server H} {e : Event H}
    (h : s.Hashed) (hstep : Step store s e s') : s'.Hashed := by
  have htracks : Tracks store (fun _ _ => True) fun _ _ _ => True :=
    ⟨fun _ _ _ => trivial, fun _ _ _ _ => trivial, fun _ _ _ _ _ => trivial⟩
  obtain ⟨hinv, hg⟩ := h.inv.step hcf htracks trivial hstep
  have hstore : HashedStore s'.db := by
    rcases hstep.writes h.inv.store hcf with hsame | ⟨i, t, ht, hwrite⟩
    · exact h.store.of_sameTrees hsame
    · refine h.store.applyPushAll hcf ?_ (h.tasks ht).chain hwrite
      intro c hc
      obtain ⟨head, hwp, -⟩ := h.inv.planned ht c hc
      exact ⟨head, hwp⟩
  -- only the task the step assigns has to be looked at
  have hkeep : ∀ (db : DB H) {i : ℕ} {t : Option (Task H)}, s' = (s.withDB db).assign i t →
      (∀ t', t = some t' → t'.Hashed s'.db) → s'.Hashed := by
    intro db i t heq hnew
    refine ⟨hinv, hstore, ?_⟩
    intro j t' htask
    rw [heq] at htask
    rcases Server.assign_tasks htask with hn | hold
    · exact hnew t' hn
    · exact (h.tasks hold).grows hg hcf
  cases hstep with
  | startPush _ _ _ => exact hkeep s.db rfl (by rintro _ ⟨⟩; trivial)
  | lockPush _ hlock =>
      refine hkeep s.db rfl ?_
      rintro _ ⟨⟩
      exact (headCommitOf_ok (lockPush_eq_ok.mp hlock).head_eq).1
  | planPush htask hplan =>
      refine hkeep s.db rfl ?_
      rintro _ ⟨⟩
      obtain ⟨haccept, hhead⟩ := h.inv.locked htask
      have hid : _ = _ := h.tasks htask
      refine ⟨⟨planApply_hashed hid hhead hplan, trivial⟩, _, ?_,
        writePlan_of_planApply haccept hhead hplan⟩
      exact planApply_parentID hid hplan
  | writePush _ _ => exact hkeep _ rfl (by simp)
  | startLanding _ _ => exact hkeep s.db rfl (by rintro _ ⟨⟩; trivial)
  | openLanding _ _ => exact hkeep s.db rfl (by rintro _ ⟨⟩; trivial)
  | planLanding _ hplan =>
      refine hkeep _ rfl ?_
      rintro _ ⟨⟩
      exact (planMerge_hashed hplan).mono fun _ _ => HashStored.grows hg.commits
  | writeLanding _ _ => exact hkeep _ rfl (by simp)
  | startForward _ _ => exact hkeep s.db rfl (by rintro _ ⟨⟩; trivial)
  | openForward _ _ => exact hkeep s.db rfl (by rintro _ ⟨⟩; trivial)
  | planForward _ _ => exact hkeep s.db rfl (by rintro _ ⟨⟩; trivial)
  | writeForward _ _ => exact hkeep _ rfl (by simp)
  | drop => exact hkeep s.db rfl (by simp)
  | other _ => exact ⟨hinv, hstore, fun htask => (h.tasks htask).grows hg hcf⟩

theorem ServerRun.hashed (hcf : CollisionFree H) {s₀ s : Server H} (hfresh : s₀.Fresh)
    (hrun : ServerRun store (fun _ _ => True) s₀ s) : s.Hashed :=
  hrun.invariant hfresh.hashed fun _ _ _ h _ hstep => h.step hcf hstep

/-! ## Repeated commits -/

omit [HashScheme H] [DecidableEq H] in
/-- In a store without repeated ids and hashes, parent ids and parent hashes determine
each other. -/
theorem parents_eq_iff (hids : (db.commits.map Commit.id).Nodup)
    (hhashes : (db.commits.map Commit.hash).Nodup) {ps ps' : List ID} {hs hs' : List H}
    (h : List.Forall₂ (HashStored db) ps hs) (h' : List.Forall₂ (HashStored db) ps' hs') :
    hs = hs' ↔ ps = ps' := by
  constructor
  · rintro rfl
    have hunique : Relator.LeftUnique (HashStored db) := by
      rintro p x p' ⟨c, hc, rfl, hx⟩ ⟨c', hc', rfl, hx'⟩
      rw [List.inj_on_of_nodup_map hhashes hc hc' (hx.trans hx'.symm)]
    exact List.left_unique_forall₂' hunique h h'
  · rintro rfl
    have hunique : Relator.RightUnique (HashStored db) := by
      rintro p x x' ⟨c, hc, hp, rfl⟩ ⟨c', hc', hp', rfl⟩
      rw [List.inj_on_of_nodup_map hids hc hc' (hp.trans hp'.symm)]
    exact List.right_unique_forall₂' hunique h h'

/-- The push would make the stored commit over again: the same message and parents, and
the tree that its changes leave of its first parent. -/
structure Recommits (db : DB H) (c : PlannedCommit H) (x : Commit H) : Prop where
  message_eq : x.message = c.request.message
  parents_eq : commitParents x = requestParents c.request
  tree_left : ∃ row ∈ db.treeNodes, row.id = x.treeID ∧
    TreeLeft db (headRow db (c.request.parentID.bind db.getCommit)) c.files c.removed row.hash

theorem HashedStore.hash_eq_iff (h : HashedStore db) (hcf : CollisionFree H)
    {c : PlannedCommit H} (hreq : HashedRequest (HashStored db) c.request)
    (hplan : PlannedOnParent db c) {x : Commit H} (hx : x ∈ db.commits) :
    x.hash = c.request.commitHash ↔ Recommits db c x := by
  obtain ⟨row, hr, hid, hs, hparents, heq⟩ := h.commits x hx
  obtain ⟨h₁, hs', hroot', hparents', heq'⟩ := hreq
  obtain ⟨head, hparent, hwp⟩ := hplan
  obtain ⟨root, parentHashes, hbuild, hrequest⟩ := hwp.built
  have hhead : c.request.parentID.bind db.getCommit = head := by
    rw [hparent]
    rcases head with _ | y
    · rfl
    · exact (find?_key_eq_some_iff h.ids_nodup).mpr ⟨hwp.head_stored y rfl, rfl⟩
  have hfinal : h₁ = finalize root := by
    rw [hrequest, requestRoot, buildApplyRequest_head] at hroot'
    exact (Option.some.inj hroot').symm
  have htree := finalize_eq_iff h.inv h.hashes hcf hwp.request_ok hbuild hr
  have hlen : hs.length < 2 ^ 32 := by
    rw [← hparents.length_eq]
    exact parents_length_lt _ _
  have hlen' : hs'.length < 2 ^ 32 := by
    rw [← hparents'.length_eq]
    exact parents_length_lt _ _
  have hps := parents_eq_iff h.ids_nodup h.hashes_nodup hparents hparents'
  rw [heq, heq', hfinal]
  constructor
  · intro hhash
    obtain ⟨ht, hp, hm⟩ := commitHash_inj hcf hlen hlen' hhash
    refine ⟨hm, hps.mp hp, row, hr, hid, ?_⟩
    rw [hhead]
    exact htree.mp ht
  · rintro ⟨hm, hp, row', hr', hid', hleft⟩
    obtain rfl : row' = row := 
      List.inj_on_of_nodup_map h.inv.toStoreShape.ids_nodup hr' hr (hid'.trans hid.symm)
    rw [hhead] at hleft
    rw [htree.mpr hleft, hps.mpr hp, hm]

/-- In every reachable state, the commit hash of a push that passed all checks is free
exactly when no stored commit has its message, its parents and its tree. -/
theorem commit_hash_free_iff (hcf : CollisionFree H) {s₀ s : Server H} (hfresh : s₀.Fresh)
    (hrun : ServerRun store (fun _ _ => True) s₀ s) {i : ℕ} {branch : Branch}
    {c : PlannedCommit H} (htask : s.tasks i = some (.pushPlanned branch c)) :
    (∀ x ∈ s.db.commits, x.hash ≠ c.request.commitHash) ↔
      ∀ x ∈ s.db.commits, ¬ Recommits s.db c x := by
  have hhashed := ServerRun.hashed hcf hfresh hrun
  obtain ⟨hchain, hplan⟩ := hhashed.tasks htask
  constructor
  · intro h x hx hrec
    exact h x hx ((hhashed.store.hash_eq_iff hcf hchain.1 hplan hx).mpr hrec)
  · intro h x hx heq
    exact h x hx ((hhashed.store.hash_eq_iff hcf hchain.1 hplan hx).mp heq)

end Runs

/-! ## The same push to two projects -/

def twoProjectStore : DB IdealHash :=
  { demoStore with
    projectChunkUploads := demoStore.projectChunkUploads ++ [(2, demoChunk 1), (2, demoChunk 2)]
    branches := demoStore.branches ++ [⟨2, 2, "main".toList, false, true, none, false⟩] }

def twoProjectServer : Server IdealHash := ⟨twoProjectStore, fun _ => none⟩

theorem twoProjectServer_fresh : twoProjectServer.Fresh :=
  ⟨⟨rfl, rfl, rfl⟩, by decide, by decide, fun _ => rfl⟩

def otherProjectPush : PushRequest IdealHash := { demoPush with projectID := 2 }

set_option maxRecDepth 4000 in
/-- The second push of a project, with the first one stored. -/
theorem commit_hash_free_demo :
    ∃ s branch c, ServerRun noContent (fun _ _ => True) twoProjectServer s ∧
      s.db.commits.map Commit.id = [7] ∧ s.tasks 1 = some (.pushPlanned branch c) ∧
      ∀ x ∈ s.db.commits, x.hash ≠ c.request.commitHash := by
  have hstart : ServerRun noContent (fun _ _ => True) twoProjectServer twoProjectServer :=
    Run.refl _
  have hfirst := (((hstart.tail (e := .startPush 0 demoCaller 7 demoPush) trivial
    (.startPush rfl rfl rfl)).tail (e := .lockPush 0) trivial (.lockPush rfl rfl)).tail
    (e := .planPush 0) trivial (.planPush rfl rfl)).tail (e := .writePush 0) trivial
    (.writePush rfl rfl)
  have hrun := ((hfirst.tail (e := .startPush 1 demoCaller 8 demoSecond) trivial
    (.startPush rfl rfl rfl)).tail (e := .lockPush 1) trivial (.lockPush rfl rfl)).tail
    (e := .planPush 1) trivial (.planPush rfl rfl)
  refine ⟨_, _, _, hrun, rfl, rfl, ?_⟩
  refine (commit_hash_free_iff IdealHash.collisionFree twoProjectServer_fresh hrun (i := 1)
    rfl).mpr fun x hx hrec => ?_
  rw [List.mem_singleton.mp hx] at hrec
  exact absurd hrec.message_eq (by decide)

set_option maxRecDepth 4000 in
/-- A project's first push passes all checks and fails when it is written, because
another project has made the same push. -/
theorem other_project_refused :
    ∃ s branch c, ServerRun noContent (fun _ _ => True) twoProjectServer s ∧
      s.tasks 1 = some (.pushPlanned branch c) ∧ branch.projectID = 2 ∧
      (∃ x ∈ s.db.commits, x.projectID = 1 ∧ x.hash = c.request.commitHash) ∧
      applyPush s.db c.request = .error errRecordExists := by
  have hstart : ServerRun noContent (fun _ _ => True) twoProjectServer twoProjectServer :=
    Run.refl _
  have hopened := (hstart.tail
    (e := .startPush 0 demoCaller 7 demoPush) trivial (.startPush rfl rfl rfl)).tail
    (e := .startPush 1 demoCaller 8 otherProjectPush) trivial (.startPush rfl rfl rfl)
  have hlocked := (hopened.tail (e := .lockPush 0) trivial (.lockPush rfl rfl)).tail
    (e := .lockPush 1) trivial (.lockPush rfl rfl)
  have hplanned := (hlocked.tail (e := .planPush 0) trivial (.planPush rfl rfl)).tail
    (e := .planPush 1) trivial (.planPush rfl rfl)
  refine ⟨_, _, _, hplanned.tail (e := .writePush 0) trivial (.writePush rfl rfl), rfl, rfl,
    ?_, ?_⟩
  · exact ⟨_, List.mem_singleton_self _, rfl, by decide +kernel⟩
  · exact rfl

end Nipa
