import Nipa.Server.System

/-!
# Branch heads

A push reads the head it builds on in one transaction and points the branch at
its new commit in another, without looking at the head again; a landing does the
same for its chain of commits, while a fast-forward compares the head it moves.
So a head that was written in between is lost.  Commits are lost by nothing
else: heads only move to descendants in every run in which each write finds the
branch where the request read it.
-/

namespace Nipa

open Support

/-! ## A growing commit graph -/

section Graph

variable {H : Type} {db db' : DB H}

/-- Commits are only added. -/
def CommitsGrow (db db' : DB H) : Prop :=
  db.commits <+: db'.commits

theorem CommitsGrow.refl (db : DB H) : CommitsGrow db db :=
  List.prefix_refl _

theorem CommitsGrow.trans {db'' : DB H} (h : CommitsGrow db db') (h' : CommitsGrow db' db'') :
    CommitsGrow db db'' :=
  List.IsPrefix.trans h h'

theorem CommitsGrow.of_eq (h : db'.commits = db.commits) : CommitsGrow db db' := by
  rw [CommitsGrow, h]

theorem CommitsGrow.stored (h : CommitsGrow db db') {id : ID}
    (hid : id ∈ db.commits.map Commit.id) : id ∈ db'.commits.map Commit.id := by
  obtain ⟨c, hc, rfl⟩ := List.mem_map.mp hid
  exact List.mem_map_of_mem (h.subset hc)

theorem CommitsGrow.parentsOf_eq (h : CommitsGrow db db') {id : ID}
    (hid : id ∈ db.commits.map Commit.id) : parentsOf db' id = parentsOf db id := by
  obtain ⟨rest, heq⟩ := h
  obtain ⟨c, hc, rfl⟩ := List.mem_map.mp hid
  have hsome : (db.commits.find? fun x => x.id = c.id).isSome :=
    List.find?_isSome.mpr ⟨c, hc, by simp⟩
  obtain ⟨x, hx⟩ := Option.isSome_iff_exists.mp hsome
  rw [parentsOf, parentsOf, DB.getCommit, DB.getCommit, ← heq, List.find?_append, hx,
    Option.some_or]

theorem CommitsGrow.parentsOf_subset (h : CommitsGrow db db') {id p : ID}
    (hp : p ∈ parentsOf db id) : p ∈ parentsOf db' id := by
  obtain ⟨c, hc, rfl, -⟩ := mem_parentsOf hp
  rwa [h.parentsOf_eq (List.mem_map_of_mem hc)]

theorem CommitsGrow.ancestor (h : CommitsGrow db db') {x a : ID}
    (hx : Ancestor (parentsOf db) x a) : Ancestor (parentsOf db') x a := by
  induction hx with
  | refl => exact Relation.ReflTransGen.refl
  | tail _ hstep ih => exact Relation.ReflTransGen.tail ih (h.parentsOf_subset hstep)

theorem CommitDAG.add (h : CommitDAG db) {c : Commit H} (hnew : c.id ∉ db.commits.map Commit.id)
    (hparents : ∀ p ∈ commitParents c, p ∈ db.commits.map Commit.id)
    (heq : db'.commits = db.commits ++ [c]) : CommitDAG db' := by
  obtain ⟨rank, hrank⟩ := h.acyclic
  have hold : ∀ {p}, p ∈ db.commits.map Commit.id → p ≠ c.id := by
    rintro p hp rfl
    exact hnew hp
  have hstored : ∀ x ∈ db'.commits, ∀ p ∈ commitParents x, p ∈ db.commits.map Commit.id := by
    intro x hx
    rw [heq] at hx
    rcases List.mem_append.mp hx with hx | hx
    · exact h.stored x hx
    · rw [List.mem_singleton.mp hx]
      exact hparents
  refine ⟨?_, ?_, ?_⟩
  · rw [heq, List.map_append, List.map_singleton]
    exact List.nodup_append.mpr ⟨h.ids_nodup, by simp, by
      rintro p hp _ hq rfl
      rw [List.mem_singleton.mp hq] at hp
      exact hnew hp⟩
  · intro x hx p hp
    rw [heq, List.map_append]
    exact List.mem_append_left _ (hstored x hx p hp)
  · -- the new commit ranks above all of its parents
    refine ⟨Function.update rank c.id (((commitParents c).map rank).sum + 1), ?_⟩
    intro x hx p hp
    rw [Function.update_of_ne (hold (hstored x hx p hp))]
    rw [heq] at hx
    rcases List.mem_append.mp hx with hx | hx
    · rw [Function.update_of_ne (hold (List.mem_map_of_mem hx))]
      exact hrank x hx p hp
    · rw [List.mem_singleton.mp hx] at hp ⊢
      rw [Function.update_self]
      exact Nat.lt_succ_of_le (List.single_le_sum (by simp) _ (List.mem_map_of_mem hp))

end Graph

/-! ## Heads and what is on a branch -/

section Heads

variable {H : Type} {db db' : DB H}

/-- The commit is the head of the branch or an ancestor of it. -/
def OnBranch (db : DB H) (branchID commitID : ID) : Prop :=
  ∃ b ∈ db.branches, b.id = branchID ∧
    ∃ head ∈ b.commitID, Ancestor (parentsOf db) commitID head

/-- Every head has moved to a descendant, or not at all. -/
def HeadsAdvance (db db' : DB H) : Prop :=
  ∀ b ∈ db.branches, ∀ head ∈ b.commitID, OnBranch db' b.id head

/-- The branch is there, and its head is an ancestor of one of the commits. -/
def HeadBelow (db : DB H) (branchID : ID) (parents : List ID) : Prop :=
  ∃ b ∈ db.branches, b.id = branchID ∧ b.deleted = false ∧
    ∀ head ∈ b.commitID, ∃ p ∈ parents, Ancestor (parentsOf db) head p

/-- The commits form a graph that the heads point into. -/
structure HeadsStored (db : DB H) : Prop where
  dag : CommitDAG db
  branch_ids : (db.branches.map Branch.id).Nodup
  stored : ∀ b ∈ db.branches, ∀ head ∈ b.commitID, head ∈ db.commits.map Commit.id

theorem HeadsStored.branch_unique (h : HeadsStored db) {b b' : Branch} (hb : b ∈ db.branches)
    (hb' : b' ∈ db.branches) (heq : b.id = b'.id) : b = b' :=
  List.inj_on_of_nodup_map h.branch_ids hb hb' heq

theorem OnBranch.advance {branchID commitID : ID} (h : OnBranch db branchID commitID)
    (hadv : HeadsAdvance db db') (hgrow : CommitsGrow db db') :
    OnBranch db' branchID commitID := by
  obtain ⟨b, hb, rfl, head, hhead, hanc⟩ := h
  obtain ⟨b', hb', hid, head', hhead', hanc'⟩ := hadv b hb head hhead
  exact ⟨b', hb', hid, head', hhead', (hgrow.ancestor hanc).trans hanc'⟩

theorem HeadsAdvance.refl (db : DB H) : HeadsAdvance db db := by
  intro b hb head hhead
  exact ⟨b, hb, rfl, head, hhead, Relation.ReflTransGen.refl⟩

theorem HeadsAdvance.trans {db'' : DB H} (h : HeadsAdvance db db')
    (h' : HeadsAdvance db' db'') (hgrow : CommitsGrow db' db'') : HeadsAdvance db db'' := by
  intro b hb head hhead
  exact (h b hb head hhead).advance h' hgrow

end Heads

/-! ## Writing commits -/

section Writes

variable {H : Type} [HashScheme H] [DecidableEq H] {db db' : DB H}

/-- The parents of a commit that is written. -/
def requestParents (req : ApplyPushRequest H) : List ID :=
  req.parentID.toList ++ req.parentID2.toList

omit [HashScheme H] [DecidableEq H] in
theorem mem_branchUpdateCommit {branches : List Branch} {branchID commitID : ID} {b : Branch} :
    b ∈ branchUpdateCommit branches branchID commitID ↔
      ∃ b₀ ∈ branches, (b₀.id = branchID ∧ b₀.deleted = false ∧
        b = { b₀ with commitID := some commitID }) ∨
        (¬ (b₀.id = branchID ∧ b₀.deleted = false) ∧ b = b₀) := by
  rw [branchUpdateCommit, List.mem_map]
  constructor
  · rintro ⟨b₀, hb₀, rfl⟩
    refine ⟨b₀, hb₀, ?_⟩
    by_cases hlive : b₀.id = branchID ∧ b₀.deleted = false
    · rw [if_pos hlive]
      exact Or.inl ⟨hlive.1, hlive.2, rfl⟩
    · rw [if_neg hlive]
      exact Or.inr ⟨hlive, rfl⟩
  · rintro ⟨b₀, hb₀, ⟨hid, hlive, rfl⟩ | ⟨hnot, rfl⟩⟩
    · exact ⟨b₀, hb₀, if_pos ⟨hid, hlive⟩⟩
    · exact ⟨b, hb₀, if_neg hnot⟩

variable {req : ApplyPushRequest H}

theorem applyPush_adds (h : applyPush db req = .ok db') :
    req.commitID ∉ db.commits.map Commit.id ∧
      (∃ treeID, db'.commits = db.commits ++ [commitOf req treeID]) ∧
      db'.branches = branchUpdateCommit db.branches req.branchID req.commitID := by
  rw [applyPush] at h
  simp only [bind_eq_ok, refuseIf_eq_ok, pure_eq_ok] at h
  obtain ⟨_, -, ⟨nodeIDs, rows⟩, -, first, -, files, -, _, hnew, rfl⟩ := h
  refine ⟨?_, ⟨nodeIDs first.id, rfl⟩, rfl⟩
  intro hmem
  obtain ⟨c, hc, hid⟩ := List.mem_map.mp hmem
  exact hnew ⟨c, hc, Or.inl hid⟩

/-- One write in detail. -/
structure Wrote (db db' : DB H) (req : ApplyPushRequest H) : Prop where
  heads : HeadsStored db'
  grows : CommitsGrow db db'
  parents_eq : parentsOf db' req.commitID = requestParents req
  branches_eq : db'.branches = branchUpdateCommit db.branches req.branchID req.commitID

theorem HeadsStored.applyPush (h : HeadsStored db)
    (hparents : ∀ p ∈ requestParents req, p ∈ db.commits.map Commit.id)
    (happly : applyPush db req = .ok db') : Wrote db db' req := by
  obtain ⟨hnew, ⟨treeID, heq⟩, hbranches⟩ := applyPush_adds happly
  have hdag : CommitDAG db' := h.dag.add (c := commitOf req treeID) hnew hparents heq
  have hgrow : CommitsGrow db db' := by
    rw [CommitsGrow, heq]
    exact List.prefix_append _ _
  have hstored : req.commitID ∈ db'.commits.map Commit.id := by
    rw [heq, List.map_append]
    exact List.mem_append_right _ (by simp [commitOf])
  refine ⟨⟨hdag, ?_, ?_⟩, hgrow, ?_, hbranches⟩
  · have hids : db'.branches.map Branch.id = db.branches.map Branch.id := by
      rw [hbranches, branchUpdateCommit, List.map_map]
      refine List.map_congr_left fun b _ => ?_
      rw [Function.comp_apply]
      split <;> rfl
    rw [hids]
    exact h.branch_ids
  · intro b hb head hhead
    rw [hbranches] at hb
    obtain ⟨b₀, hb₀, ⟨-, -, rfl⟩ | ⟨-, rfl⟩⟩ := mem_branchUpdateCommit.mp hb
    · obtain rfl := Option.some.inj hhead
      exact hstored
    · exact hgrow.stored (h.stored b hb₀ head hhead)
  · have hget : db'.getCommit req.commitID = some (commitOf req treeID) :=
      (find?_key_eq_some_iff hdag.ids_nodup).mpr
        ⟨heq ▸ List.mem_append_right _ (List.mem_singleton_self _), rfl⟩
    rw [parentsOf, hget]
    rfl

omit [HashScheme H] [DecidableEq H] in
theorem Wrote.ancestor (hw : Wrote db db' req) {x : ID}
    (hx : ∃ p ∈ requestParents req, Ancestor (parentsOf db) x p) :
    Ancestor (parentsOf db') x req.commitID := by
  obtain ⟨p, hp, hanc⟩ := hx
  rw [← hw.parents_eq] at hp
  exact Relation.ReflTransGen.head hp (hw.grows.ancestor hanc)

omit [HashScheme H] [DecidableEq H] in
/-- A write loses nothing when the branch is still there and its head is below
the new commit. -/
theorem Wrote.advances (hw : Wrote db db' req) (h : HeadsStored db)
    (hbelow : HeadBelow db req.branchID (requestParents req)) :
    HeadsAdvance db db' ∧ OnBranch db' req.branchID req.commitID := by
  obtain ⟨b, hb, hbid, hlive, hbelow⟩ := hbelow
  have hnew : { b with commitID := some req.commitID } ∈ db'.branches := by
    rw [hw.branches_eq]
    exact mem_branchUpdateCommit.mpr ⟨b, hb, Or.inl ⟨hbid, hlive, rfl⟩⟩
  refine ⟨?_, _, hnew, hbid, req.commitID, rfl, Relation.ReflTransGen.refl⟩
  intro b₀ hb₀ head hhead
  by_cases hmoved : b₀.id = req.branchID ∧ b₀.deleted = false
  · obtain rfl := h.branch_unique hb₀ hb (hmoved.1.trans hbid.symm)
    refine ⟨_, hnew, rfl, req.commitID, rfl, ?_⟩
    exact hw.ancestor (hbelow head hhead)
  · refine ⟨b₀, ?_, rfl, head, hhead, Relation.ReflTransGen.refl⟩
    rw [hw.branches_eq]
    exact mem_branchUpdateCommit.mpr ⟨b₀, hb₀, Or.inr ⟨hmoved, rfl⟩⟩

end Writes

/-! ## Chains of commits -/

section Chains

variable {H : Type}

/-- Commits that follow each other by first parent on one branch; any second
parent is stored. -/
def Chained (db : DB H) (branchID : ID) : ID → List (PlannedCommit H) → ID → Prop
  | start, [], last => start = last
  | start, c :: cs, last => c.request.branchID = branchID ∧
      c.request.parentID = some start ∧
      (∀ p ∈ c.request.parentID2, p ∈ db.commits.map Commit.id) ∧
      Chained db branchID c.request.commitID cs last

variable {db db' : DB H}

variable {cs : List (PlannedCommit H)}

theorem Chained.concat {branchID start last : ID} (h : Chained db branchID start cs last)
    {c : PlannedCommit H} (hbranch : c.request.branchID = branchID)
    (hparent : c.request.parentID = some last)
    (hparent2 : ∀ p ∈ c.request.parentID2, p ∈ db.commits.map Commit.id) :
    Chained db branchID start (cs ++ [c]) c.request.commitID := by
  induction cs generalizing start with
  | nil =>
      obtain rfl := h
      exact ⟨hbranch, hparent, hparent2, rfl⟩
  | cons c' cs ih => exact ⟨h.1, h.2.1, h.2.2.1, ih h.2.2.2⟩

theorem Chained.grows (hgrow : CommitsGrow db db') {branchID start last : ID}
    (h : Chained db branchID start cs last) : Chained db' branchID start cs last := by
  induction cs generalizing start with
  | nil => exact h
  | cons c cs ih =>
      exact ⟨h.1, h.2.1, fun p hp => hgrow.stored (h.2.2.1 p hp), ih h.2.2.2⟩

variable [HashScheme H] [DecidableEq H] {store : ContentStore H}

theorem replayCommits_chained {land : Landing} {newID : ℕ → ID} {targetHead : Commit H}
    {targetTree : GoMap (Entry H)} {commits : List (Commit H)} {n : ℕ} {parentID : ID}
    {parentHash : H} {mid : DB H} {w w' : MergeWrite H}
    (h : replayCommits store land newID targetHead targetTree commits n parentID parentHash
      mid w = .ok (db', w'))
    (hw : Chained db land.target.id land.targetHead w.commits parentID) :
    ChunksOnly mid db' ∧ ∃ last, Chained db land.target.id land.targetHead w'.commits last := by
  induction commits generalizing n parentID parentHash mid w with
  | nil =>
      obtain ⟨rfl, rfl⟩ := Prod.mk.inj (Except.ok.inj h)
      exact ⟨ChunksOnly.refl mid, parentID, hw⟩
  | cons commit rest ih =>
      rw [replayCommits] at h
      simp only [bind_eq_ok] at h
      obtain ⟨commitBase, -, commitTree, -, ⟨mid', current, added⟩, honto, next, hnext, h⟩ := h
      obtain ⟨-, hbranch, hparent, hparent2⟩ := landingCommit_ok hnext
      obtain ⟨hdb, hlast⟩ := ih h (hw.concat hbranch hparent (by simp [hparent2]))
      exact ⟨(mergeOnto_ok honto).1.trans hdb, hlast⟩

theorem planMerge_chained {caller : Caller} {land : Landing} {opts : MergeCommitOptions}
    {newID : ℕ → ID} {w : MergeWrite H}
    (h : planMerge store db caller land opts newID = .ok (.write db' w)) :
    ChunksOnly db db' ∧ land.targetHead ∈ db.commits.map Commit.id ∧
      ∃ last, Chained db land.target.id land.targetHead w.commits last := by
  have hstored : ∀ {projectID id : ID} {c : Commit H},
      commitByIDInProject db projectID id = .ok c → c.id ∈ db.commits.map Commit.id ∧
        c.id = id := by
    intro projectID id c hc
    obtain ⟨hget, hid, -⟩ := commitByIDInProject_ok hc
    exact ⟨List.mem_map_of_mem (List.mem_of_find?_eq_some hget), hid⟩
  obtain ⟨targetHead, targetTree, hhead, -, hplans⟩ := planMerge_cases h
  have htarget : land.targetHead ∈ db.commits.map Commit.id := by
    obtain ⟨hmem, hid⟩ := hstored hhead
    rwa [hid] at hmem
  cases hplans with
  | replayed _ _ _ _ hreplay =>
      have hstart : Chained db land.target.id land.targetHead [] land.targetHead := rfl
      obtain ⟨hdb, hlast⟩ := replayCommits_chained hreplay hstart
      exact ⟨hdb, htarget, hlast⟩
  | merged _ _ hsource _ _ honto hcommit =>
      obtain ⟨-, hbranch, hparent, hparent2⟩ := landingCommit_ok hcommit
      refine ⟨(mergeOnto_ok honto).1, htarget, _, hbranch, hparent, ?_, rfl⟩
      intro p hp
      rw [hparent2] at hp
      split at hp
      · obtain rfl := Option.some.inj hp
        exact (hstored hsource).1
      · simp at hp

theorem applyPushAll_advances {branchID start last : ID} (h : HeadsStored db)
    (hchain : Chained db branchID start cs last) (hstart : start ∈ db.commits.map Commit.id)
    (hbelow : ∀ c ∈ cs.head?, HeadBelow db branchID (requestParents c.request))
    (happly : applyPushAll db (cs.map PlannedCommit.request) = .ok db') :
    HeadsStored db' ∧ CommitsGrow db db' ∧ HeadsAdvance db db' ∧
      ∀ c ∈ cs, OnBranch db' branchID c.request.commitID := by
  induction cs generalizing db start with
  | nil =>
      obtain rfl := Except.ok.inj happly
      exact ⟨h, CommitsGrow.refl db, HeadsAdvance.refl db, by simp⟩
  | cons c cs ih =>
      rw [List.map_cons, applyPushAll] at happly
      obtain ⟨mid, hmid, hrest⟩ := bind_eq_ok.mp happly
      obtain ⟨hbranch, hparent, hparent2, hchain⟩ := hchain
      have hparents : ∀ p ∈ requestParents c.request, p ∈ db.commits.map Commit.id := by
        intro p hp
        rw [requestParents, hparent] at hp
        rcases List.mem_append.mp hp with hp | hp
        · obtain rfl := List.mem_singleton.mp hp
          exact hstart
        · exact hparent2 p (Option.mem_toList.mp hp)
      have hw := h.applyPush hparents hmid
      obtain ⟨hadv, hon⟩ := hw.advances h (hbranch ▸ hbelow c (by simp))
      rw [hbranch] at hon
      -- the branch now points at this commit, the first parent of the next one
      have hnext : ∀ c' ∈ cs.head?, HeadBelow mid branchID (requestParents c'.request) := by
        intro c' hc'
        obtain ⟨b, hb, hid, hlive, -⟩ := hbelow c (by simp)
        refine ⟨{ b with commitID := some c.request.commitID }, ?_, hid, hlive, ?_⟩
        · rw [hw.branches_eq]
          exact mem_branchUpdateCommit.mpr ⟨b, hb, Or.inl ⟨hid.trans hbranch.symm, hlive, rfl⟩⟩
        · intro head hhead
          obtain rfl := Option.some.inj hhead
          refine ⟨_, ?_, Relation.ReflTransGen.refl⟩
          rcases cs with _ | ⟨c'', cs⟩
          · simp at hc'
          · obtain rfl := Option.some.inj hc'
            rw [requestParents, hchain.2.1]
            simp
      have hstored : c.request.commitID ∈ mid.commits.map Commit.id := by
        obtain ⟨-, ⟨treeID, heq⟩, -⟩ := applyPush_adds hmid
        rw [heq, List.map_append]
        exact List.mem_append_right _ (by simp [commitOf])
      obtain ⟨hheads', hgrow', hadv', hon'⟩ :=
        ih hw.heads (hchain.grows hw.grows) hstored hnext hrest
      refine ⟨hheads', hw.grows.trans hgrow', hadv.trans hadv' hgrow', ?_⟩
      intro c' hc'
      rcases List.mem_cons.mp hc' with rfl | hc'
      · exact hon.advance hadv' hgrow'
      · exact hon' c' hc'

end Chains

/-! ## Requests in flight -/

section Flight

variable {H : Type} [HashScheme H] [DecidableEq H]

/-- What a request has in hand refers to stored commits, and what it will write
to the head it read. -/
def Task.Linked (db : DB H) : Task H → Prop
  | pushLocked _ _ _ _ branch _ head => branch.commitID = head.map Commit.id ∧
      ∀ id ∈ branch.commitID, id ∈ db.commits.map Commit.id
  | pushPlanned branch c => c.request.branchID = branch.id ∧
      c.request.parentID = branch.commitID ∧
      ∀ p ∈ requestParents c.request, p ∈ db.commits.map Commit.id
  | landOpened _ _ _ land => land.target.commitID = some land.targetHead
  | landPlanned land w => land.target.commitID = some land.targetHead ∧
      land.targetHead ∈ db.commits.map Commit.id ∧
      ∃ last, Chained db land.target.id land.targetHead w.commits last
  | forwardStarted _ _ _ _ _ _ target =>
      ∀ head ∈ target.commitID, head ∈ db.commits.map Commit.id
  | forwardOpened _ _ land => land.targetHead ∈ db.commits.map Commit.id ∧
      land.sourceHead ∈ db.commits.map Commit.id
  | forwardPlanned land => land.sourceHead ∈ db.commits.map Commit.id ∧
      Ancestor (parentsOf db) land.targetHead land.sourceHead
  | _ => True

variable {db db' : DB H}

omit [HashScheme H] [DecidableEq H] in
theorem Task.Linked.grows (hgrow : CommitsGrow db db') {t : Task H} (h : t.Linked db) :
    t.Linked db' := by
  cases t with
  | pushLocked _ _ _ _ _ _ _ => exact ⟨h.1, fun id hid => hgrow.stored (h.2 id hid)⟩
  | pushPlanned _ _ => exact ⟨h.1, h.2.1, fun p hp => hgrow.stored (h.2.2 p hp)⟩
  | landOpened _ _ _ _ => exact h
  | landPlanned _ _ =>
      obtain ⟨hread, htarget, last, hchain⟩ := h
      exact ⟨hread, hgrow.stored htarget, last, hchain.grows hgrow⟩
  | forwardStarted _ _ _ _ _ _ _ => exact fun head hhead => hgrow.stored (h head hhead)
  | forwardOpened _ _ _ => exact ⟨hgrow.stored h.1, hgrow.stored h.2⟩
  | forwardPlanned _ => exact ⟨hgrow.stored h.1, hgrow.ancestor h.2⟩
  | _ => trivial

structure Server.Linked (s : Server H) : Prop where
  heads : HeadsStored s.db
  tasks : ∀ {i t}, s.tasks i = some t → t.Linked s.db

omit [HashScheme H] [DecidableEq H] in
theorem Server.Linked.assign {s : Server H} (h : s.Linked) (i : ℕ) {t : Option (Task H)}
    (ht : ∀ t' ∈ t, t'.Linked s.db) : (s.assign i t).Linked := by
  refine ⟨h.heads, ?_⟩
  intro j t' htask
  rcases Server.assign_tasks htask with hnew | hold
  · exact ht t' hnew
  · exact h.tasks hold

omit [HashScheme H] [DecidableEq H] in
theorem Server.Linked.withDB {s : Server H} (h : s.Linked) (hgrow : CommitsGrow s.db db')
    (hheads : HeadsStored db') : (s.withDB db').Linked :=
  ⟨hheads, fun htask => (h.tasks htask).grows hgrow⟩

omit [HashScheme H] [DecidableEq H] in
theorem Server.Fresh.linked {s : Server H} (h : s.Fresh) : s.Linked := by
  have hnil := h.unborn.commits_eq
  refine ⟨⟨⟨by simp [hnil], by simp [hnil], fun _ => 0, by simp [hnil]⟩, h.branch_ids, ?_⟩, ?_⟩
  · intro b hb head hhead
    rw [h.no_heads b hb] at hhead
    simp at hhead
  · intro i t htask
    rw [h.idle i] at htask
    simp at htask

/-- The branch is still there, with the head of the row that was read. -/
def HeadUnmoved (db : DB H) (read : Branch) : Prop :=
  ∃ b ∈ db.branches, b.id = read.id ∧ b.deleted = false ∧ b.commitID = read.commitID

/-- Every write of a push or of a landing finds the branch as the request read
it: nothing has moved its head in between, and nobody has deleted it. -/
def WritesOnRead (s : Server H) : Event H → Prop
  | .writePush i => ∀ branch c, s.tasks i = some (.pushPlanned branch c) →
      HeadUnmoved s.db branch
  | .writeLanding i => ∀ land w, s.tasks i = some (.landPlanned land w) →
      HeadUnmoved s.db land.target
  | _ => True

/-- A step that answers a request with success, and the commit it reports. -/
def Reports (s : Server H) (e : Event H) (branchID commitID : ID) : Prop :=
  match e with
  | .writePush i => ∃ branch c, s.tasks i = some (.pushPlanned branch c) ∧
      branch.id = branchID ∧ c.request.commitID = commitID
  | .writeLanding i => ∃ land w, s.tasks i = some (.landPlanned land w) ∧
      land.target.id = branchID ∧ ∃ c ∈ w.commits, c.request.commitID = commitID
  | .writeForward i => ∃ land, s.tasks i = some (.forwardPlanned land) ∧
      land.target.id = branchID ∧ land.sourceHead = commitID
  | _ => False

variable {store : ContentStore H} {s s' : Server H} {e : Event H}

omit [HashScheme H] [DecidableEq H] in
theorem HeadUnmoved.headBelow {read : Branch} (h : HeadUnmoved db read) {req : ApplyPushRequest H}
    (hparent : req.parentID = read.commitID) : HeadBelow db read.id (requestParents req) := by
  obtain ⟨b, hb, hid, hlive, hcommit⟩ := h
  refine ⟨b, hb, hid, hlive, ?_⟩
  intro head hhead
  rw [hcommit, ← hparent] at hhead
  refine ⟨head, ?_, Relation.ReflTransGen.refl⟩
  rw [requestParents]
  exact List.mem_append_left _ (Option.mem_toList.mpr hhead)

omit [HashScheme H] [DecidableEq H] in
theorem Chained.headBelow {target : Branch} {start last : ID} {cs : List (PlannedCommit H)}
    (h : Chained db target.id start cs last) (hread : target.commitID = some start)
    (hunmoved : HeadUnmoved db target) :
    ∀ c ∈ cs.head?, HeadBelow db target.id (requestParents c.request) := by
  intro c hc
  cases cs with
  | nil => simp at hc
  | cons c' cs =>
      obtain rfl := Option.some.inj hc
      obtain ⟨-, hparent, -⟩ := h
      exact hunmoved.headBelow (hparent.trans hread.symm)

omit [HashScheme H] [DecidableEq H] in
theorem Housekeeping.advances (h : Housekeeping db db') : HeadsAdvance db db' := by
  intro b hb head hhead
  obtain ⟨b', hb', hid, hcommit, -⟩ := h.kept b hb
  exact ⟨b', hb', hid, head, hcommit ▸ hhead, Relation.ReflTransGen.refl⟩

omit [HashScheme H] [DecidableEq H] in
theorem CommitDAG.of_commits_eq (h : CommitDAG db) (heq : db'.commits = db.commits) :
    CommitDAG db' := by
  obtain ⟨hids, hstored, hacyclic⟩ := h
  constructor
  · rwa [heq]
  · rwa [heq]
  · rwa [heq]

omit [HashScheme H] [DecidableEq H] in
theorem updateCommitIf_advances {branchID fromID toID : ID}
    (h : updateCommitIf db branchID fromID toID = .ok db') (hheads : HeadsStored db)
    (hto : toID ∈ db.commits.map Commit.id) (hanc : Ancestor (parentsOf db) fromID toID) :
    HeadsStored db' ∧ CommitsGrow db db' ∧ HeadsAdvance db db' ∧ OnBranch db' branchID toID := by
  rw [updateCommitIf] at h
  simp only [bind_eq_ok, refuseIf_eq_ok, not_not, pure_eq_ok] at h
  obtain ⟨_, ⟨b, hb, hid, hlive, hfrom⟩, rfl⟩ := h
  refine ⟨⟨hheads.dag.of_commits_eq rfl, ?_, ?_⟩, CommitsGrow.of_eq rfl, ?_, ?_⟩
  · rw [List.map_map]
    have hids : db.branches.map (Branch.id ∘ fun b =>
        if b.id = branchID ∧ b.deleted = false ∧ b.commitID = some fromID then
          { b with commitID := some toID } else b) = db.branches.map Branch.id := by
      refine List.map_congr_left fun b _ => ?_
      rw [Function.comp_apply]
      split <;> rfl
    rw [hids]
    exact hheads.branch_ids
  · intro b' hb' head hhead
    obtain ⟨b₀, hb₀, rfl⟩ := List.mem_map.mp hb'
    split at hhead
    · obtain rfl := Option.some.inj hhead
      exact hto
    · exact hheads.stored b₀ hb₀ head hhead
  · intro b₀ hb₀ head hhead
    by_cases hmoved : b₀.id = branchID ∧ b₀.deleted = false ∧ b₀.commitID = some fromID
    · refine ⟨_, List.mem_map_of_mem hb₀, ?_⟩
      rw [if_pos hmoved]
      rw [hmoved.2.2] at hhead
      obtain rfl := Option.some.inj hhead
      exact ⟨rfl, toID, rfl, hanc⟩
    · refine ⟨_, List.mem_map_of_mem hb₀, ?_⟩
      rw [if_neg hmoved]
      exact ⟨rfl, head, hhead, Relation.ReflTransGen.refl⟩
  · refine ⟨_, List.mem_map_of_mem hb, ?_⟩
    rw [if_pos ⟨hid, hlive, hfrom⟩]
    exact ⟨hid, toID, rfl, Relation.ReflTransGen.refl⟩

omit [HashScheme H] [DecidableEq H] in
theorem HeadsStored.of_chunksOnly (h : HeadsStored db) (hchunks : ChunksOnly db db') :
    HeadsStored db' := by
  refine ⟨h.dag.of_commits_eq hchunks.commits_eq, ?_, ?_⟩
  · rw [hchunks.branches_eq]
    exact h.branch_ids
  · rw [hchunks.branches_eq, hchunks.commits_eq]
    exact h.stored

omit [HashScheme H] in
theorem parent2CommitOf_stored {req : PushRequest H} {parent2 : Option (Commit H)}
    (h : parent2CommitOf db req = .ok parent2) : ∀ c ∈ parent2, c ∈ db.commits := by
  rw [parent2CommitOf] at h
  split at h
  · obtain rfl := Except.ok.inj h
    simp
  · simp at h
  · simp only [bind_eq_ok, orError_eq_ok, pure_eq_ok] at h
    obtain ⟨c, hc, _, -, rfl⟩ := h
    rintro _ ⟨⟩
    exact List.mem_of_find?_eq_some hc

variable {caller : Caller}

theorem planApply_linked {commitID userID : ID} {req : PushRequest H} {files : List (PushFile H)}
    {branch : Branch} {head : Option (Commit H)} {apply : ApplyPushRequest H}
    (hlocked : (Task.pushLocked caller commitID req files branch userID head).Linked db)
    (h : planApply db commitID req files branch userID head = .ok apply) :
    (Task.pushPlanned branch ⟨files, req.removed, apply⟩).Linked db := by
  obtain ⟨parent2, root, hparent2, -, -, rfl⟩ := planApply_eq_ok.mp h
  obtain ⟨parentHashes, heq⟩ := toApplyRequest_eq commitID req branch head parent2 userID root
  rw [heq]
  obtain ⟨hread, hstored⟩ := hlocked
  refine ⟨rfl, ?_, ?_⟩
  · change (if head.isSome then branch.commitID else none) = branch.commitID
    rw [hread]
    cases head <;> rfl
  intro p hp
  rcases List.mem_append.mp hp with hp | hp
  · have hp : p ∈ (if head.isSome then branch.commitID else none) := Option.mem_toList.mp hp
    split at hp
    · exact hstored p hp
    · simp at hp
  · have hp : p ∈ (if head.isSome then parent2.map Commit.id else none) :=
      Option.mem_toList.mp hp
    split at hp
    · obtain ⟨c, hc, rfl⟩ := Option.mem_map.mp hp
      exact List.mem_map_of_mem (parent2CommitOf_stored hparent2 c hc)
    · simp at hp

variable {projectID : ID}

omit [HashScheme H] [DecidableEq H] in
theorem HeadsStored.branchByName (h : HeadsStored db) {name : Str} {b : Branch}
    (hb : branchByName db projectID name = .ok b) :
    ∀ head ∈ b.commitID, head ∈ db.commits.map Commit.id := by
  rw [Nipa.branchByName, orError_eq_ok] at hb
  exact h.stored b (List.mem_of_find?_eq_some hb)

omit [HashScheme H] [DecidableEq H] in
theorem HeadsStored.readTarget (h : HeadsStored db) {name : Str} {b : Branch}
    (hb : readTarget db caller projectID name = .ok b) :
    ∀ head ∈ b.commitID, head ∈ db.commits.map Commit.id := by
  rw [Nipa.readTarget] at hb
  obtain ⟨_, -, hb⟩ := bind_eq_ok.mp hb
  exact h.branchByName hb

omit [HashScheme H] [DecidableEq H] in
theorem openMerge_head {targetBranch sourceBranch : Str} {opts : MergeCommitOptions}
    {target : Branch} {land : Landing}
    (hopen : openMerge db caller projectID targetBranch sourceBranch opts target = .ok land) :
    land.target.commitID = some land.targetHead := by
  rw [openMerge] at hopen
  simp only [bind_eq_ok, orError_eq_ok, pure_eq_ok] at hopen
  obtain ⟨_, -, _, -, _, -, _, -, targetHead, hth, _, -, rfl⟩ := hopen
  exact hth

omit [HashScheme H] [DecidableEq H] in
theorem openFastForward_heads (h : HeadsStored db) {targetBranch sourceBranch : Str}
    {allowProtected : Bool} {pinnedSource : Option ID} {target : Branch} {land : Landing}
    (hopen : openFastForward db caller projectID targetBranch sourceBranch allowProtected
      pinnedSource target = .ok land) :
    target.commitID = some land.targetHead ∧
      land.sourceHead ∈ db.commits.map Commit.id := by
  rw [openFastForward] at hopen
  simp only [bind_eq_ok, orError_eq_ok, pure_eq_ok] at hopen
  obtain ⟨source, hsource, _, -, _, -, sourceHead, hsh, targetHead, hth, _, -, rfl⟩ := hopen
  exact ⟨hth, h.branchByName hsource sourceHead hsh⟩

theorem planFastForward_ancestor (hdag : CommitDAG db) {land : Landing} {allowProtected : Bool}
    {lockPlan : PushLockPlan} {actor : ID} (htarget : land.targetHead ∈ db.commits.map Commit.id)
    (hsource : land.sourceHead ∈ db.commits.map Commit.id)
    (h : planFastForward db caller land allowProtected = .ok (lockPlan, actor)) :
    Ancestor (parentsOf db) land.targetHead land.sourceHead := by
  rw [planFastForward] at h
  obtain ⟨base, hbase, h⟩ := bind_eq_ok.mp h
  obtain ⟨_, hrefuse, -⟩ := bind_eq_ok.mp h
  rw [refuseIf_eq_ok, not_not] at hrefuse
  obtain ⟨res, hres, hfirst, -⟩ := findMergeBase_found hdag htarget hsource
  obtain rfl := Except.ok.inj (hres.symm.trans hbase)
  obtain ⟨t, hmeets, -⟩ := hfirst _ hrefuse
  exact hmeets.commonAncestor.2

theorem Server.Linked.step (hlinked : s.Linked) (hcond : WritesOnRead s e)
    (h : Step store s e s') :
    s'.Linked ∧ CommitsGrow s.db s'.db ∧ HeadsAdvance s.db s'.db ∧
      ∀ branchID commitID, Reports s e branchID commitID → OnBranch s'.db branchID commitID := by
  have hheads := hlinked.heads
  -- a step that writes nothing only puts something in hand
  have hkeep : ∀ {i : ℕ} {t : Option (Task H)}, s' = s.assign i t →
      (∀ branchID commitID, ¬ Reports s e branchID commitID) → (∀ t' ∈ t, t'.Linked s.db) →
      s'.Linked ∧ CommitsGrow s.db s'.db ∧ HeadsAdvance s.db s'.db ∧
        ∀ branchID commitID, Reports s e branchID commitID →
          OnBranch s'.db branchID commitID := by
    intro i t heq hno ht
    rw [heq]
    exact ⟨hlinked.assign i ht, CommitsGrow.refl _, HeadsAdvance.refl _,
      fun branchID commitID hrep => absurd hrep (hno branchID commitID)⟩
  cases h with
  | startPush _ _ _ => exact hkeep rfl (fun _ _ hrep => hrep) (by rintro _ ⟨⟩; trivial)
  | lockPush _ hlock =>
      refine hkeep rfl (fun _ _ hrep => hrep) ?_
      obtain ⟨hid, hget⟩ := headCommitOf_ok (lockPush_eq_ok.mp hlock).head_eq
      rintro _ ⟨⟩
      refine ⟨hid, fun head hhead => ?_⟩
      rw [hid] at hhead
      obtain ⟨c, hc, rfl⟩ := Option.mem_map.mp hhead
      exact List.mem_map_of_mem (List.mem_of_find?_eq_some (hget c hc))
  | planPush htask hplan =>
      refine hkeep rfl (fun _ _ hrep => hrep) ?_
      rintro _ ⟨⟩
      exact planApply_linked (hlinked.tasks htask) hplan
  | writePush htask hwrite =>
      obtain ⟨hbranch, hparent, hparents⟩ := hlinked.tasks htask
      have hw := hheads.applyPush hparents hwrite
      have hbelow := (hcond _ _ htask).headBelow hparent
      rw [← hbranch] at hbelow
      obtain ⟨hadv, hon⟩ := hw.advances hheads hbelow
      refine ⟨(hlinked.withDB hw.grows hw.heads).assign _ (by simp), hw.grows, hadv, ?_⟩
      rintro branchID commitID ⟨branch, c, htask', rfl, rfl⟩
      obtain ⟨rfl, rfl⟩ := Task.pushPlanned.inj (Option.some.inj (htask.symm.trans htask'))
      rwa [hbranch] at hon
  | startLanding _ _ =>
      exact hkeep rfl (fun _ _ hrep => hrep) (by rintro _ ⟨⟩; trivial)
  | openLanding _ hopen =>
      exact hkeep rfl (fun _ _ hrep => hrep) (by rintro _ ⟨⟩; exact openMerge_head hopen)
  | @planLanding i caller opts newID land db' w htask hplan =>
      obtain ⟨hdb, htarget, hlast⟩ := planMerge_chained hplan
      have hchunks := hdb.trans
        (attributeProjectChunks_chunksOnly db' land.projectID w.stored)
      have hgrow := CommitsGrow.of_eq hchunks.commits_eq
      refine ⟨?_, hgrow, ?_, fun _ _ hrep => hrep.elim⟩
      · refine (hlinked.withDB hgrow (hheads.of_chunksOnly hchunks)).assign _ ?_
        rintro _ ⟨⟩
        obtain ⟨last, hchain⟩ := hlast
        exact ⟨hlinked.tasks htask, hgrow.stored htarget, last, hchain.grows hgrow⟩
      · intro b hb head hhead
        exact ⟨b, hchunks.branches_eq ▸ hb, rfl, head, hhead, Relation.ReflTransGen.refl⟩
  | writeLanding htask hwrite =>
      obtain ⟨hread, htarget, last, hchain⟩ := hlinked.tasks htask
      obtain ⟨hheads', hgrow, hadv, hon⟩ := applyPushAll_advances hheads hchain htarget
        (hchain.headBelow hread (hcond _ _ htask)) hwrite
      refine ⟨(hlinked.withDB hgrow hheads').assign _ (by simp), hgrow, hadv, ?_⟩
      rintro branchID commitID ⟨land, w, htask', rfl, c, hc, rfl⟩
      obtain ⟨rfl, rfl⟩ := Task.landPlanned.inj (Option.some.inj (htask.symm.trans htask'))
      exact hon c hc
  | startForward _ hread =>
      refine hkeep rfl (fun _ _ hrep => hrep) ?_
      rintro _ ⟨⟩
      exact hheads.readTarget hread
  | openForward htask hopen =>
      obtain ⟨htarget, hsource⟩ := openFastForward_heads hheads hopen
      refine hkeep rfl (fun _ _ hrep => hrep) ?_
      rintro _ ⟨⟩
      exact ⟨hlinked.tasks htask _ htarget, hsource⟩
  | planForward htask hplan =>
      obtain ⟨htarget, hsource⟩ := hlinked.tasks htask
      refine hkeep rfl (fun _ _ hrep => hrep) ?_
      rintro _ ⟨⟩
      exact ⟨hsource, planFastForward_ancestor hheads.dag htarget hsource hplan⟩
  | writeForward htask hwrite =>
      obtain ⟨hsource, hanc⟩ := hlinked.tasks htask
      obtain ⟨hheads', hgrow, hadv, hon⟩ :=
        updateCommitIf_advances hwrite hheads hsource hanc
      refine ⟨(hlinked.withDB hgrow hheads').assign _ (by simp), hgrow, hadv, ?_⟩
      rintro branchID commitID ⟨land, htask', rfl, rfl⟩
      obtain rfl := Task.forwardPlanned.inj (Option.some.inj (htask.symm.trans htask'))
      exact hon
  | drop => exact hkeep rfl (fun _ _ hrep => hrep) (by simp)
  | other hother =>
      have hgrow := CommitsGrow.of_eq hother.commits_eq
      refine ⟨hlinked.withDB hgrow ⟨hheads.dag.of_commits_eq hother.commits_eq,
        hother.branch_ids, hother.heads_stored⟩, hgrow, hother.advances,
        fun _ _ hrep => hrep.elim⟩

theorem Server.Linked.run (hlinked : s.Linked) (hrun : ServerRun store WritesOnRead s s') :
    s'.Linked ∧ CommitsGrow s.db s'.db ∧ HeadsAdvance s.db s'.db := by
  refine ⟨hrun.invariant (I := Server.Linked) hlinked fun _ _ _ hl hc hs => (hl.step hc hs).1,
    ?_⟩
  refine hrun.related (I := Server.Linked)
    (R := fun s s' => CommitsGrow s.db s'.db ∧ HeadsAdvance s.db s'.db) hlinked
    (fun _ _ _ hl hc hs => (hl.step hc hs).1) ?_ ?_ ?_
  · intro s _
    exact ⟨CommitsGrow.refl _, HeadsAdvance.refl _⟩
  · rintro s₁ s₂ s₃ ⟨hg, ha⟩ ⟨hg', ha'⟩
    exact ⟨hg.trans hg', ha.trans ha' hg'⟩
  · intro s e s' hl hc hs
    obtain ⟨-, hg, ha, -⟩ := hl.step hc hs
    exact ⟨hg, ha⟩

/-- In every run whose writes find the branch where the request read it, a
reported commit stays on its branch and heads only move to descendants. -/
theorem no_lost_update {s₀ : Server H} (hfresh : s₀.Fresh)
    (hrun : ServerRun store WritesOnRead s₀ s) :
    (∀ e s₁ s', WritesOnRead s e → Step store s e s₁ → ServerRun store WritesOnRead s₁ s' →
      ∀ branchID commitID, Reports s e branchID commitID → OnBranch s'.db branchID commitID) ∧
    ∀ s', ServerRun store WritesOnRead s s' → HeadsAdvance s.db s'.db := by
  have hlinked := (hfresh.linked.run hrun).1
  constructor
  · intro e s₁ s' hcond hstep hrun' branchID commitID hrep
    obtain ⟨hlinked₁, -, -, hon⟩ := hlinked.step hcond hstep
    obtain ⟨-, hgrow, hadv⟩ := hlinked₁.run hrun'
    exact (hon branchID commitID hrep).advance hadv hgrow
  · intro s' hrun'
    exact (hlinked.run hrun').2.2

end Flight

/-! ## Two pushes at once -/

/-- Two pushes in a row: the first one stays below the second. -/
theorem no_lost_update_demo :
    ∃ s s₁ s₂, ServerRun noContent WritesOnRead demoServer s ∧
      Step noContent s (.writePush 0) s₁ ∧ Reports s (.writePush 0) 1 7 ∧
      ServerRun noContent WritesOnRead s₁ s₂ ∧ s₂.db.commits.length = 2 ∧
      OnBranch s₂.db 1 7 := by
  have hstart : ServerRun noContent WritesOnRead demoServer demoServer := Run.refl _
  have hplanned := ((hstart.tail (e := Event.startPush 0 demoCaller 7 demoPush) trivial
    (.startPush rfl rfl rfl)).tail (e := Event.lockPush 0) trivial (.lockPush rfl rfl)).tail
    (e := Event.planPush 0) trivial (.planPush rfl rfl)
  have hunmoved : ∀ {s : Server IdealHash} {b : Branch} {c : PlannedCommit IdealHash},
      s.tasks 0 = some (.pushPlanned b c) → s.db.branches = [b] → b.deleted = false →
      WritesOnRead s (.writePush 0) := by
    intro s b c htask hb hlive branch c' htask'
    obtain ⟨rfl, rfl⟩ := Task.pushPlanned.inj (Option.some.inj (htask.symm.trans htask'))
    exact ⟨b, hb ▸ List.mem_singleton_self b, rfl, hlive, rfl⟩
  suffices hsteps : ∃ s s₁ s₂, ServerRun noContent WritesOnRead demoServer s ∧
      Step noContent s (.writePush 0) s₁ ∧ Reports s (.writePush 0) 1 7 ∧
      ServerRun noContent WritesOnRead s₁ s₂ ∧ s₂.db.commits.length = 2 ∧
      WritesOnRead s (.writePush 0) by
    obtain ⟨s, s₁, s₂, hrun, hstep, hrep, hrest, hlen, hcond⟩ := hsteps
    exact ⟨s, s₁, s₂, hrun, hstep, hrep, hrest, hlen,
      (no_lost_update demoServer_fresh hrun).1 _ _ _ hcond hstep hrest 1 7 hrep⟩
  refine ⟨_, _, _, hplanned, .writePush rfl rfl, ⟨_, _, rfl, rfl, rfl⟩,
    ((((Run.refl _).tail (e := Event.startPush 0 demoCaller 8 demoSecond) trivial
      (.startPush rfl rfl rfl)).tail (e := Event.lockPush 0) trivial (.lockPush rfl rfl)).tail
      (e := Event.planPush 0) trivial (.planPush rfl rfl)).tail (e := Event.writePush 0) ?_
      (.writePush rfl rfl), rfl, ?_⟩
  · exact hunmoved rfl rfl rfl
  · exact hunmoved rfl rfl rfl

def rivalPush : PushRequest IdealHash :=
  { demoPush with
    message := "rival".toList
    files := [demoFile "e.txt" 3]
    paths_fit := by decide }

/-- Both pushes are reported as successful, and the first one is gone. -/
theorem rival_push_lost :
    ∃ s s₁ s₂, ServerRun noContent (fun _ _ => True) demoServer s ∧
      Step noContent s (.writePush 0) s₁ ∧ Reports s (.writePush 0) 1 7 ∧
      ServerRun noContent (fun _ _ => True) s₁ s₂ ∧ ¬ OnBranch s₂.db 1 7 := by
  have hstart : ServerRun noContent (fun _ _ => True) demoServer demoServer := Run.refl _
  have hopened := (hstart.tail
    (e := .startPush 0 demoCaller 7 demoPush) trivial (.startPush rfl rfl rfl)).tail
    (e := .startPush 1 demoCaller 8 rivalPush) trivial (.startPush rfl rfl rfl)
  have hlocked := (hopened.tail (e := .lockPush 0) trivial (.lockPush rfl rfl)).tail
    (e := .lockPush 1) trivial (.lockPush rfl rfl)
  have hplanned := (hlocked.tail (e := .planPush 0) trivial (.planPush rfl rfl)).tail
    (e := .planPush 1) trivial (.planPush rfl rfl)
  refine ⟨_, _, _, hplanned, .writePush rfl rfl, ⟨_, _, rfl, rfl, rfl⟩,
    (Run.refl _).tail (e := .writePush 1) trivial (.writePush rfl rfl), ?_⟩
  rintro ⟨b, hb, -, head, hhead, hanc⟩
  obtain rfl : b = ⟨1, 1, "main".toList, false, true, some 8, false⟩ := List.mem_singleton.mp hb
  obtain rfl := Option.some.inj hhead
  -- the second commit has no parents, so nothing else is an ancestor of it
  rcases Relation.ReflTransGen.cases_head hanc with heq | ⟨p, hp, -⟩
  · exact absurd heq (by decide)
  · change p ∈ ([] : List ID) at hp
    simp at hp

end Nipa
