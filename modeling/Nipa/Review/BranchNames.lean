import Nipa.Review.Reopen

/-!
# Requests and the names of their branches

A merge request keeps an id and a name of both its branches.  Its state and its
reviews look the branches up by name, the review summary of a project looks the
source up by id, and renaming a branch changes its row only.  As long as no
branch of a request is renamed, the name of a live branch still leads to it; as
long as no other branch takes the name either, both ways lead to the same row.
-/

namespace Nipa

open Support

/-! ## Opening a request -/

def wipTitlePrefixes : List Str :=
  ["wip:".toList, "draft:".toList, "[wip]".toList, "[draft]".toList, "wip ".toList,
    "draft ".toList]

def isWIPTitle (title : Str) : Bool :=
  wipTitlePrefixes.any fun pre => pre.isPrefixOf (toLower (trimSpace title))

section Operations

variable {H : Type}

/-- The number of the next request of a project. -/
def RequestStore.nextNumber (s : RequestStore H) (projectID : ID) : ℤ :=
  ((s.requests.filter fun mr => mr.projectID = projectID).map MergeRequest.number).foldl max 0 + 1

/-- Whether an open request comes from a branch or goes to it. -/
def RequestStore.hasOpenMergeRequests (s : RequestStore H) (projectID branchID : ID) : Bool :=
  s.requests.any fun mr => mr.projectID = projectID && mr.status = .opened &&
    (mr.sourceBranchID = branchID || mr.targetBranchID = branchID)

/-- Insert a request row; numbers of a project and ids are unique. -/
def insertRequest (s : RequestStore H) (mr : MergeRequest) :
    Except DomainError (RequestStore H) := do
  refuseIf (∃ m ∈ s.requests, m.id = mr.id ∨ (m.projectID = mr.projectID ∧ m.number = mr.number))
    (errConflict "record already exists" [])
  return { s with requests := s.requests ++ [mr] }

variable [DecidableEq H] [HashScheme H]

/-- Open a request and take its locks, in one transaction. -/
def createRequest (s : RequestStore H) (caller : Caller) (newID projectID : ID)
    (title sourceBranch targetBranch : Str) (draft : Bool) (lockID : ℕ → ID) :
    Except DomainError (RequestStore H) := do
  let user ← orError caller.claim errNoPermission
  refuseIf (caller.perm.hasProjectAccess .read = false) errNoPermission
  let title := trimSpace title
  refuseIf (title = []) (errUser "title is required" [])
  let sourceBranch := trimSpace sourceBranch
  let targetBranch := trimSpace targetBranch
  refuseIf (sourceBranch = [] ∨ targetBranch = [])
    (errUser "source and target branches are required" [])
  refuseIf (sourceBranch = targetBranch) (errUser "source and target branches must differ" [])
  let source ← orError (s.db.getBranchByName projectID sourceBranch)
    (errNotFound "branch %q not found" [sourceBranch])
  let sourceHead ← orError source.commitID (errUser "branch %q has no commits" [sourceBranch])
  let target ← orError (s.db.getBranchByName projectID targetBranch)
    (errNotFound "branch %q not found" [targetBranch])
  let targetHead ← orError target.commitID (errUser "branch %q has no commits" [targetBranch])
  let base ← getMergeBase s.db caller.perm projectID targetHead sourceHead
  let paths ← binaryChangesBetween s.db projectID base (some sourceHead)
  let s' ← insertRequest s
    { id := newID
      number := s.nextNumber projectID
      projectID := projectID
      sourceBranchID := source.id
      targetBranchID := target.id
      sourceBranch := sourceBranch
      targetBranch := targetBranch
      title := title
      status := .opened
      draft := draft || isWIPTitle title
      createdBy := user
      mergeCommitID := none }
  let (db', locked) := ensureMergeRequestLocks s'.db projectID newID target paths user user lockID
  locked
  return { s' with db := db' }

end Operations

/-! ## Runs -/

/-- What a branch row is found by. -/
def Branch.key (b : Branch) : ID × ID × Str × Bool := (b.id, b.projectID, b.name, b.deleted)

inductive BranchEvent where
  | create (projectID : ID) (name : Str)
  | rename (projectID : ID) (name newName : Str)
  | other

section Steps

variable {H : Type} [DecidableEq H] [HashScheme H]

/-- The operations on branches, pushes, and opening and reviewing requests, with
anything in between that leaves the keys of branches and requests alone: landings,
protection of branches, closing, reopening and editing of requests, dismissed and
withdrawn reviews. -/
inductive BranchStep : RequestStore H → BranchEvent → RequestStore H → Prop where
  | createBranch {s : RequestStore H} {db' : DB H} {caller : Caller} {newID projectID : ID}
      {name : Str} {fork : BranchForkPoint H}
      (h : createBranch s.db caller newID projectID name fork = .ok db') :
      BranchStep s (.create projectID name) { s with db := db' }
  | renameBranch {s : RequestStore H} {db' : DB H} {caller : Caller} {projectID : ID}
      {name newName : Str} (h : renameBranch s.db caller projectID name newName = .ok db') :
      BranchStep s (.rename projectID name newName) { s with db := db' }
  | deleteBranch {s : RequestStore H} {db' : DB H} {caller : Caller} {projectID : ID}
      {name : Str} {branch : Branch} (hbranch : branchByName s.db projectID name = .ok branch)
      (h : deleteBranch s.db caller projectID name (s.hasOpenMergeRequests projectID branch.id) =
        .ok db') :
      BranchStep s .other { s with db := db' }
  | setDefault {s : RequestStore H} {db' : DB H} {caller : Caller} {projectID : ID} {name : Str}
      (h : setDefault s.db caller projectID name = .ok db') :
      BranchStep s .other { s with db := db' }
  | push {s : RequestStore H} {db' : DB H} {caller : Caller} {commitID : ID} {req : PushRequest H}
      (h : push s.db caller commitID req = .ok db') : BranchStep s .other { s with db := db' }
  | createRequest {s s' : RequestStore H} {caller : Caller} {newID projectID : ID}
      {title sourceBranch targetBranch : Str} {draft : Bool} {lockID : ℕ → ID}
      (h : createRequest s caller newID projectID title sourceBranch targetBranch draft lockID =
        .ok s') : BranchStep s .other s'
  | submitReview {s : RequestStore H} {caller : Caller} {projectID : ID} {number : ℤ}
      {state : ReviewDecision} {body : Str} {comments : ℕ} {reviewID : ID} {now : ℕ} {r : Review}
      (h : openReview s caller projectID number state body comments reviewID now = .ok r) :
      BranchStep s .other { s with reviews := upsertReview s.reviews r }
  | other {s s' : RequestStore H}
      (hbranches : s'.db.branches.map Branch.key = s.db.branches.map Branch.key)
      (hrequests : s'.requests.map MergeRequest.identity =
        s.requests.map MergeRequest.identity) : BranchStep s .other s'

/-- What a step does to the branch rows: none is named anew, one is added under a name
that was free, or one takes such a name. -/
inductive BranchRows (branches branches' : List Branch) : BranchEvent → Prop where
  | same {e : BranchEvent} (hids : branches'.map Branch.id = branches.map Branch.id)
      (hrows : ∀ b' ∈ branches', ∃ b ∈ branches, b'.id = b.id ∧ b'.projectID = b.projectID ∧
        b'.name = b.name ∧ (b'.deleted = false → b.deleted = false)) :
      BranchRows branches branches' e
  | created {projectID : ID} {name : Str} {row : Branch} (hproject : row.projectID = projectID)
      (hname : row.name = trimSpace name) (hnew : row.id ∉ branches.map Branch.id)
      (hfree : ∀ b ∈ branches, b.projectID = projectID → b.name = trimSpace name →
        b.deleted = true)
      (hrows : branches' = branches ++ [row]) :
      BranchRows branches branches' (.create projectID name)
  | renamed {projectID : ID} {name newName : Str} {branch : Branch}
      (hbranch : branches.find? (fun b => b.projectID = projectID && b.name = name &&
        !b.deleted) = some branch)
      (hfree : ∀ b ∈ branches, b.projectID = projectID → b.name = trimSpace newName →
        b.deleted = true)
      (hrows : branches' = branches.map fun b =>
        if b.projectID = projectID ∧ b.id = branch.id ∧ b.deleted = false then
          { b with name := trimSpace newName } else b) :
      BranchRows branches branches' (.rename projectID name newName)

theorem BranchRows.of_map {branches : List Branch} {e : BranchEvent} {f : Branch → Branch}
    (hf : ∀ b, (f b).id = b.id ∧ (f b).projectID = b.projectID ∧ (f b).name = b.name ∧
      ((f b).deleted = false → b.deleted = false)) : BranchRows branches (branches.map f) e := by
  refine .same ?_ ?_
  · rw [List.map_map]
    exact List.map_congr_left fun b _ => (hf b).1
  · intro b' hb'
    obtain ⟨b, hb, rfl⟩ := List.mem_map.mp hb'
    exact ⟨b, hb, hf b⟩

theorem BranchRows.refl (branches : List Branch) (e : BranchEvent) :
    BranchRows branches branches e :=
  .same rfl fun b hb => ⟨b, hb, rfl, rfl, rfl, id⟩

theorem BranchRows.of_keys {branches branches' : List Branch} {e : BranchEvent}
    (h : branches'.map Branch.key = branches.map Branch.key) : BranchRows branches branches' e := by
  refine .same ?_ ?_
  · have hids := congrArg (List.map Prod.fst) h
    rwa [List.map_map, List.map_map] at hids
  · intro b' hb'
    have hkey := List.mem_map_of_mem (f := Branch.key) hb'
    rw [h] at hkey
    obtain ⟨b, hb, heq⟩ := List.mem_map.mp hkey
    simp only [Branch.key, Prod.mk.injEq] at heq
    exact ⟨b, hb, heq.1.symm, heq.2.1.symm, heq.2.2.1.symm, fun hlive => heq.2.2.2.trans hlive⟩

section Rows

variable {H : Type} {db db' : DB H} {caller : Caller} {projectID : ID} {name : Str}

theorem getBranchByName_eq_none (h : db.getBranchByName projectID name = none) :
    ∀ b ∈ db.branches, b.projectID = projectID → b.name = name → b.deleted = true := by
  rw [DB.getBranchByName] at h
  intro b hb hproject hname
  have hnot := List.find?_eq_none.mp h b hb
  simpa [hproject, hname] using hnot

theorem createBranch_rows [DecidableEq H] [HashScheme H] {newID : ID} {fork : BranchForkPoint H}
    (h : createBranch db caller newID projectID name fork = .ok db') :
    BranchRows db.branches db'.branches (.create projectID name) := by
  rw [createBranch] at h
  simp only [bind_eq_ok, insertBranch, refuseIf_eq_ok, pure_eq_ok, ne_eq, not_not] at h
  obtain ⟨_, -, _, -, _, hnone, head, -, _, hinsert, rfl⟩ := h
  refine .created rfl rfl ?_ (getBranchByName_eq_none hnone) rfl
  intro hid
  obtain ⟨b, hb, heq⟩ := List.mem_map.mp hid
  exact hinsert ⟨b, hb, Or.inl heq⟩

theorem renameBranch_rows {newName : Str}
    (h : renameBranch db caller projectID name newName = .ok db') :
    BranchRows db.branches db'.branches (.rename projectID name newName) := by
  rw [renameBranch] at h
  simp only [bind_eq_ok, branchByName, orError_eq_ok] at h
  obtain ⟨branch, hbranch, _, -, _, -, h⟩ := h
  split at h
  · obtain rfl := pure_eq_ok.mp h
    exact BranchRows.refl _ _
  · simp only [bind_eq_ok, refuseIf_eq_ok, pure_eq_ok, ne_eq, not_not] at h
    obtain ⟨_, hnone, rfl⟩ := h
    exact .renamed hbranch (getBranchByName_eq_none hnone) rfl

theorem deleteBranch_rows {hasOpen : Bool}
    (h : deleteBranch db caller projectID name hasOpen = .ok db') (e : BranchEvent) :
    BranchRows db.branches db'.branches e := by
  rw [deleteBranch] at h
  simp only [bind_eq_ok, pure_eq_ok] at h
  obtain ⟨branch, -, _, -, _, -, _, -, _, -, _, -, rfl⟩ := h
  refine BranchRows.of_map ?_
  intro b
  split
  · refine ⟨rfl, rfl, rfl, ?_⟩
    intro hlive
    cases hlive
  · exact ⟨rfl, rfl, rfl, id⟩

theorem setDefault_rows (h : setDefault db caller projectID name = .ok db') (e : BranchEvent) :
    BranchRows db.branches db'.branches e := by
  rw [setDefault] at h
  simp only [bind_eq_ok] at h
  obtain ⟨_, -, branch, -, h⟩ := h
  split at h
  · obtain rfl := pure_eq_ok.mp h
    exact BranchRows.refl _ _
  · obtain rfl := pure_eq_ok.mp h
    simp only [setDefaultBranch, updateBranch, removeDefault, List.map_map]
    refine BranchRows.of_map ?_
    intro b
    simp only [Function.comp]
    split
    · split
      · exact ⟨rfl, rfl, rfl, id⟩
      · exact ⟨rfl, rfl, rfl, id⟩
    · split
      · exact ⟨rfl, rfl, rfl, id⟩
      · exact ⟨rfl, rfl, rfl, id⟩

theorem push_rows [DecidableEq H] [HashScheme H] {commitID : ID} {req : PushRequest H}
    (h : push db caller commitID req = .ok db') (e : BranchEvent) :
    BranchRows db.branches db'.branches e := by
  obtain ⟨files, branch, userID, head, parent2, plan, root, mid, hp⟩ := push_ok h
  have hbranches : db'.branches = mid.branches := by
    rw [hp.result_eq]
    rfl
  rw [hbranches, applyPush_branches hp.applied, branchUpdateCommit]
  refine BranchRows.of_map ?_
  intro b
  split
  · exact ⟨rfl, rfl, rfl, id⟩
  · exact ⟨rfl, rfl, rfl, id⟩

end Rows

/-- The requests after a step: the old ones, up to their state, and at most one new one,
named after two live branches. -/
inductive RequestRows {H : Type} (s s' : RequestStore H) : Prop where
  | same (h : s'.requests.map MergeRequest.identity = s.requests.map MergeRequest.identity)
  | created {mr : MergeRequest} {source target : Branch}
      (hrows : s'.requests = s.requests ++ [mr])
      (hnumber : ∀ m ∈ s.requests, m.projectID = mr.projectID → m.number ≠ mr.number)
      (hsource : s'.db.getBranchByName mr.projectID mr.sourceBranch = some source)
      (htarget : s'.db.getBranchByName mr.projectID mr.targetBranch = some target)
      (hsourceID : mr.sourceBranchID = source.id) (htargetID : mr.targetBranchID = target.id)

theorem ensureEach_branches {H : Type} {projectID mergeRequestID holder author : ID}
    {scopeID : Option ID} {newID : ℕ → ID} (paths : List Str) (n : ℕ) (db : DB H)
    (locks : List FileLock) :
    (ensureEach projectID mergeRequestID scopeID holder author newID paths n db locks).1.branches =
      db.branches := by
  induction paths generalizing n db locks with
  | nil => rfl
  | cons path rest ih =>
      rw [ensureEach]
      split
      · split
        · exact ih n db locks
        · rfl
      · dsimp only
        split
        next hcreate =>
          rw [ih, createLock_ok hcreate]
        · split
          · rfl
          · split
            · exact ih (n + 1) db locks
            · rfl

theorem createRequest_rows {H : Type} [DecidableEq H] [HashScheme H] {s s' : RequestStore H}
    {caller : Caller} {newID projectID : ID} {title sourceBranch targetBranch : Str}
    {draft : Bool} {lockID : ℕ → ID}
    (h : createRequest s caller newID projectID title sourceBranch targetBranch draft lockID =
      .ok s') :
    s'.db.branches = s.db.branches ∧ RequestRows s s' := by
  rw [createRequest] at h
  simp only [bind_eq_ok, insertRequest, orError_eq_ok, refuseIf_eq_ok, pure_eq_ok] at h
  obtain ⟨user, -, _, -, _, -, _, -, _, -, source, hsource, sourceHead, -, target, htarget,
    targetHead, -, base, -, paths, -, s₁, ⟨_, hnew, rfl⟩, _, -, rfl⟩ := h
  have hbranches : (ensureMergeRequestLocks s.db projectID newID target paths user user
      lockID).1.branches = s.db.branches := by
    rw [ensureMergeRequestLocks]
    split
    · rfl
    · exact ensureEach_branches _ _ _ _
  refine ⟨hbranches, .created rfl ?_ ?_ ?_ rfl rfl⟩
  · intro m hm hproject hnumber
    exact hnew ⟨m, hm, Or.inr ⟨hproject, hnumber⟩⟩
  · rw [DB.getBranchByName, hbranches]
    exact hsource
  · rw [DB.getBranchByName, hbranches]
    exact htarget

theorem BranchStep.rows {H : Type} [DecidableEq H] [HashScheme H] {s s' : RequestStore H}
    {e : BranchEvent} (h : BranchStep s e s') :
    BranchRows s.db.branches s'.db.branches e ∧ RequestRows s s' := by
  cases h with
  | createBranch h => exact ⟨createBranch_rows h, .same rfl⟩
  | renameBranch h => exact ⟨renameBranch_rows h, .same rfl⟩
  | deleteBranch _ h => exact ⟨deleteBranch_rows h _, .same rfl⟩
  | setDefault h => exact ⟨setDefault_rows h _, .same rfl⟩
  | push h => exact ⟨push_rows h _, .same rfl⟩
  | createRequest h =>
      obtain ⟨hbranches, hrequests⟩ := createRequest_rows h
      refine ⟨?_, hrequests⟩
      rw [hbranches]
      exact BranchRows.refl _ _
  | submitReview _ => exact ⟨BranchRows.refl _ _, .same rfl⟩
  | other hbranches hrequests => exact ⟨BranchRows.of_keys hbranches, .same hrequests⟩

end Steps

/-! ## Names that lead to their branch -/

/-- Branch ids do not repeat, and the live branches of a project have different names. -/
structure BranchTable (branches : List Branch) : Prop where
  ids : (branches.map Branch.id).Nodup
  names : ∀ b ∈ branches, ∀ b' ∈ branches, b.deleted = false → b'.deleted = false →
    b.projectID = b'.projectID → b.name = b'.name → b.id = b'.id

/-- The branch with the id has the name as long as it lives. -/
structure KeepsName (branches : List Branch) (branchID projectID : ID) (name : Str) : Prop where
  known : branchID ∈ branches.map Branch.id
  named : ∀ b ∈ branches, b.deleted = false → b.id = branchID →
    b.projectID = projectID ∧ b.name = name

/-- No other live branch has the name. -/
def OwnsName (branches : List Branch) (branchID projectID : ID) (name : Str) : Prop :=
  ∀ b ∈ branches, b.deleted = false → b.projectID = projectID → b.name = name → b.id = branchID

section Names

variable {branches branches' : List Branch} {e : BranchEvent} {branchID projectID : ID}
  {name : Str}

theorem BranchRows.ids_subset (h : BranchRows branches branches' e) :
    branches.map Branch.id ⊆ branches'.map Branch.id := by
  cases h with
  | same hids _ => rw [hids]; exact List.Subset.refl _
  | created _ _ _ _ hrows =>
      rw [hrows, List.map_append]
      exact List.subset_append_left _ _
  | renamed _ _ hrows =>
      rw [hrows, List.map_map]
      intro i hi
      obtain ⟨b, hb, rfl⟩ := List.mem_map.mp hi
      refine List.mem_map.mpr ⟨b, hb, ?_⟩
      simp only [Function.comp]
      split
      · rfl
      · rfl

theorem BranchTable.step (h : BranchTable branches) (hrows : BranchRows branches branches' e) :
    BranchTable branches' := by
  cases hrows with
  | same hids hrows =>
      refine ⟨hids ▸ h.ids, ?_⟩
      intro b hb b' hb' hlive hlive' hproject hname
      obtain ⟨c, hc, hid, hcp, hcn, hcl⟩ := hrows b hb
      obtain ⟨c', hc', hid', hcp', hcn', hcl'⟩ := hrows b' hb'
      rw [hid, hid']
      exact h.names c hc c' hc' (hcl hlive) (hcl' hlive')
        (hcp.symm.trans (hproject.trans hcp')) (hcn.symm.trans (hname.trans hcn'))
  | @created projectID name row hproject hname hnew hfree hrows =>
      subst hrows
      constructor
      · rw [List.map_append, List.map_singleton, List.nodup_append]
        refine ⟨h.ids, List.nodup_singleton _, ?_⟩
        rintro i hi j hj rfl
        rw [List.mem_singleton] at hj
        exact hnew (hj ▸ hi)
      · -- the name was free, so an old row has it only when it is deleted
        have hclash : ∀ b ∈ branches, b.deleted = false → b.projectID = row.projectID →
            b.name ≠ row.name := by
          intro b hb hlive hp hn
          rw [hfree b hb (hp.trans hproject) (hn.trans hname)] at hlive
          cases hlive
        intro b hb b' hb' hlive hlive' hp hn
        rcases List.mem_append.mp hb with hb | hb
        · rcases List.mem_append.mp hb' with hb' | hb'
          · exact h.names b hb b' hb' hlive hlive' hp hn
          · rw [List.mem_singleton.mp hb'] at hp hn
            exact absurd hn (hclash b hb hlive hp)
        · rcases List.mem_append.mp hb' with hb' | hb'
          · rw [List.mem_singleton.mp hb] at hp hn
            exact absurd hn.symm (hclash b' hb' hlive' hp.symm)
          · rw [List.mem_singleton.mp hb, List.mem_singleton.mp hb']
  | @renamed projectID name newName branch hbranch hfree hrows =>
      subst hrows
      constructor
      · rw [List.map_map]
        have hsame : ∀ b ∈ branches, (Branch.id ∘ fun b : Branch =>
            if b.projectID = projectID ∧ b.id = branch.id ∧ b.deleted = false then
              { b with name := trimSpace newName } else b) b = b.id := by
          intro b _
          simp only [Function.comp]
          split
          · rfl
          · rfl
        rw [List.map_congr_left hsame]
        exact h.ids
      · intro b hb b' hb' hlive hlive' hp hn
        obtain ⟨c, hc, rfl⟩ := List.mem_map.mp hb
        obtain ⟨c', hc', rfl⟩ := List.mem_map.mp hb'
        by_cases hself : c.projectID = projectID ∧ c.id = branch.id ∧ c.deleted = false
        · by_cases hself' : c'.projectID = projectID ∧ c'.id = branch.id ∧ c'.deleted = false
          · rw [if_pos hself, if_pos hself']
            exact hself.2.1.trans hself'.2.1.symm
          · simp only [if_pos hself, if_neg hself'] at hp hn hlive'
            rw [hfree c' hc' (hp.symm.trans hself.1) hn.symm] at hlive'
            cases hlive'
        · by_cases hself' : c'.projectID = projectID ∧ c'.id = branch.id ∧ c'.deleted = false
          · simp only [if_neg hself, if_pos hself'] at hp hn hlive
            rw [hfree c hc (hp.trans hself'.1) hn] at hlive
            cases hlive
          · simp only [if_neg hself, if_neg hself'] at hp hn hlive hlive' ⊢
            exact h.names c hc c' hc' hlive hlive' hp hn

/-- An event that renames the branch with an id. -/
def BranchEvent.renames (branches : List Branch) (branchID : ID) : BranchEvent → Prop
  | .rename projectID name newName => trimSpace newName ≠ name ∧
      ∃ b ∈ branches.find? (fun b => b.projectID = projectID && b.name = name && !b.deleted),
        b.id = branchID
  | _ => False

/-- An event that gives a branch a name. -/
def BranchEvent.gives (projectID : ID) (name : Str) : BranchEvent → Prop
  | .create p n => p = projectID ∧ trimSpace n = name
  | .rename p n n' => trimSpace n' ≠ n ∧ p = projectID ∧ trimSpace n' = name
  | .other => False

theorem renamed_differs {newName : Str} {branch : Branch}
    (hbranch : branches.find? (fun b => b.projectID = projectID && b.name = name &&
      !b.deleted) = some branch)
    (hfree : ∀ b ∈ branches, b.projectID = projectID → b.name = trimSpace newName →
      b.deleted = true) : trimSpace newName ≠ name := by
  intro heq
  have hcond := List.find?_some hbranch
  simp only [Bool.and_eq_true, decide_eq_true_eq, Bool.not_eq_true'] at hcond
  have hdeleted := hfree branch (List.mem_of_find?_eq_some hbranch) hcond.1.1
    (hcond.1.2.trans heq.symm)
  rw [hdeleted] at hcond
  cases hcond.2

theorem KeepsName.step (h : KeepsName branches branchID projectID name)
    (hrows : BranchRows branches branches' e) (hcond : ¬ e.renames branches branchID) :
    KeepsName branches' branchID projectID name := by
  refine ⟨hrows.ids_subset h.known, ?_⟩
  intro b' hb' hlive hid
  cases hrows with
  | same hids hrows =>
      obtain ⟨b, hb, hbid, hproject, hname, hblive⟩ := hrows b' hb'
      rw [hproject, hname]
      exact h.named b hb (hblive hlive) (hbid.symm.trans hid)
  | created hproject hname hnew hfree hrows =>
      rw [hrows] at hb'
      rcases List.mem_append.mp hb' with hb' | hb'
      · exact h.named b' hb' hlive hid
      · rw [List.mem_singleton.mp hb'] at hid
        exact absurd (hid ▸ h.known) hnew
  | renamed hbranch hfree hrows =>
      rw [hrows] at hb'
      obtain ⟨b, hb, rfl⟩ := List.mem_map.mp hb'
      split at hlive
      next hself =>
        rw [if_pos hself] at hid
        exact absurd ⟨renamed_differs hbranch hfree, _, hbranch, hself.2.1.symm.trans hid⟩ hcond
      next hself =>
        rw [if_neg hself] at hid ⊢
        exact h.named b hb hlive hid

theorem OwnsName.step (h : OwnsName branches branchID projectID name)
    (hrows : BranchRows branches branches' e) (hcond : ¬ e.gives projectID name) :
    OwnsName branches' branchID projectID name := by
  intro b' hb' hlive hproject' hname'
  cases hrows with
  | same hids hrows =>
      obtain ⟨b, hb, hbid, hproject, hname, hblive⟩ := hrows b' hb'
      rw [hbid]
      exact h b hb (hblive hlive) (hproject.symm.trans hproject') (hname.symm.trans hname')
  | created hproject hname hnew hfree hrows =>
      rw [hrows] at hb'
      rcases List.mem_append.mp hb' with hb' | hb'
      · exact h b' hb' hlive hproject' hname'
      · rw [List.mem_singleton.mp hb'] at hproject' hname'
        exact absurd ⟨hproject.symm.trans hproject', hname.symm.trans hname'⟩ hcond
  | renamed hbranch hfree hrows =>
      rw [hrows] at hb'
      obtain ⟨b, hb, rfl⟩ := List.mem_map.mp hb'
      split at hlive
      next hself =>
        rw [if_pos hself] at hproject' hname'
        exact absurd ⟨renamed_differs hbranch hfree, hself.1.symm.trans hproject', hname'⟩ hcond
      next hself =>
        rw [if_neg hself] at hproject' hname' ⊢
        exact h b hb hlive hproject' hname'

end Names

/-! ## Requests through a run -/

section Requests

variable {H : Type} {s s' : RequestStore H} {e : BranchEvent}

/-- No branch of a request is renamed. -/
def NoBranchRenamed (s : RequestStore H) (e : BranchEvent) : Prop :=
  ∀ mr ∈ s.requests, ¬ e.renames s.db.branches mr.sourceBranchID ∧
    ¬ e.renames s.db.branches mr.targetBranchID

/-- The names of a request lead to its branches as long as these live. -/
structure BranchesNamed (branches : List Branch) (mr : MergeRequest) : Prop where
  source : KeepsName branches mr.sourceBranchID mr.projectID mr.sourceBranch
  target : KeepsName branches mr.targetBranchID mr.projectID mr.targetBranch

structure RequestsNamed (s : RequestStore H) : Prop where
  table : BranchTable s.db.branches
  named : ∀ mr ∈ s.requests, BranchesNamed s.db.branches mr

theorem RequestRows.forall {P : MergeRequest → Prop} (hrows : RequestRows s s')
    (hidentity : ∀ mr mr' : MergeRequest, mr'.identity = mr.identity → P mr → P mr')
    (hold : ∀ mr ∈ s.requests, P mr)
    (hnew : ∀ mr source target, s'.db.getBranchByName mr.projectID mr.sourceBranch = some source →
      s'.db.getBranchByName mr.projectID mr.targetBranch = some target →
      mr.sourceBranchID = source.id → mr.targetBranchID = target.id → P mr) :
    ∀ mr ∈ s'.requests, P mr := by
  intro mr' hmr'
  cases hrows with
  | same h =>
      have hmem := List.mem_map_of_mem (f := MergeRequest.identity) hmr'
      rw [h] at hmem
      obtain ⟨mr, hmr, heq⟩ := List.mem_map.mp hmem
      exact hidentity mr mr' heq.symm (hold mr hmr)
  | created hrows hnumber hsource htarget hsourceID htargetID =>
      rw [hrows] at hmr'
      rcases List.mem_append.mp hmr' with hmr' | hmr'
      · exact hold mr' hmr'
      · rw [List.mem_singleton.mp hmr']
        exact hnew _ _ _ hsource htarget hsourceID htargetID

variable {projectID : ID}

theorem getBranchByName_mem {db : DB H} {name : Str} {b : Branch}
    (h : db.getBranchByName projectID name = some b) :
    b ∈ db.branches ∧ b.projectID = projectID ∧ b.name = name ∧ b.deleted = false := by
  have hcond := List.find?_some h
  simp only [Bool.and_eq_true, decide_eq_true_eq, Bool.not_eq_true'] at hcond
  exact ⟨List.mem_of_find?_eq_some h, hcond.1.1, hcond.1.2, hcond.2⟩

theorem BranchTable.keepsName {db : DB H} (htable : BranchTable db.branches) {name : Str}
    {b : Branch} (h : db.getBranchByName projectID name = some b) :
    KeepsName db.branches b.id projectID name := by
  obtain ⟨hb, hproject, hname, -⟩ := getBranchByName_mem h
  refine ⟨List.mem_map_of_mem hb, ?_⟩
  intro b' hb' _ hid
  rw [List.inj_on_of_nodup_map htable.ids hb' hb hid]
  exact ⟨hproject, hname⟩

theorem BranchTable.ownsName {db : DB H} (htable : BranchTable db.branches) {name : Str}
    {b : Branch} (h : db.getBranchByName projectID name = some b) :
    OwnsName db.branches b.id projectID name := by
  obtain ⟨hb, hproject, hname, hlive⟩ := getBranchByName_mem h
  intro b' hb' hlive' hproject' hname'
  exact htable.names b' hb' b hb hlive' hlive (hproject'.trans hproject.symm)
    (hname'.trans hname.symm)

theorem RequestsNamed.step [DecidableEq H] [HashScheme H] (h : RequestsNamed s)
    (hcond : NoBranchRenamed s e)
    (hstep : BranchStep s e s') : RequestsNamed s' := by
  obtain ⟨hbranches, hrequests⟩ := hstep.rows
  have htable := h.table.step hbranches
  refine ⟨htable, hrequests.forall ?_ ?_ ?_⟩
  · intro mr mr' heq hmr
    simp only [MergeRequest.identity, Prod.mk.injEq] at heq
    obtain ⟨-, -, hproject, hsourceID, htargetID, hsource, htarget, -⟩ := heq
    constructor
    · rw [hsourceID, hproject, hsource]
      exact hmr.source
    · rw [htargetID, hproject, htarget]
      exact hmr.target
  · intro mr hmr
    exact ⟨(h.named mr hmr).source.step hbranches (hcond mr hmr).1,
      (h.named mr hmr).target.step hbranches (hcond mr hmr).2⟩
  · intro mr source target hsource htarget hsourceID htargetID
    constructor
    · rw [hsourceID]
      exact htable.keepsName hsource
    · rw [htargetID]
      exact htable.keepsName htarget

/-! ## Mergeability -/

/-- A branch of a request is deleted or has no commits. -/
def BranchGone (branches : List Branch) (branchID : ID) : Prop :=
  ∀ b ∈ branches, b.id = branchID → b.deleted = false → b.commitID = none

/-- A request is invalid only when one of its branches is gone, and the heads a check
reports are those of its own branches. -/
structure CheckFollows (s : RequestStore H) (mr : MergeRequest) (info : Mergeability) : Prop where
  invalid : info.status = .invalid →
    BranchGone s.db.branches mr.sourceBranchID ∨ BranchGone s.db.branches mr.targetBranchID
  source : ∀ c ∈ info.sourceCommitID, ∃ b ∈ s.db.branches,
    b.id = mr.sourceBranchID ∧ b.deleted = false ∧ b.commitID = some c
  target : ∀ c ∈ info.targetCommitID, ∃ b ∈ s.db.branches,
    b.id = mr.targetBranchID ∧ b.deleted = false ∧ b.commitID = some c

theorem KeepsName.find {db : DB H} (htable : BranchTable db.branches) {branchID : ID} {name : Str}
    (h : KeepsName db.branches branchID projectID name)
    (hhere : ¬ BranchGone db.branches branchID) :
    ∃ b, db.getBranchByName projectID name = some b ∧ b.id = branchID := by
  rw [BranchGone] at hhere
  push Not at hhere
  obtain ⟨b, hb, hid, hlive, -⟩ := hhere
  obtain ⟨hproject, hname⟩ := h.named b hb hlive hid
  have hsome : (db.getBranchByName projectID name).isSome := by
    rw [DB.getBranchByName, List.find?_isSome]
    exact ⟨b, hb, by simp [hproject, hname, hlive]⟩
  obtain ⟨b', hb'⟩ := Option.isSome_iff_exists.mp hsome
  refine ⟨b', hb', ?_⟩
  rw [← htable.ownsName hb' b hb hlive hproject hname, hid]

theorem checkHeads_heads {seen : ℕ → RequestStore H} {perm : PermissionUsecase} {mr : MergeRequest}
    {target : Branch} {source targetHead : ID} {info : Mergeability}
    (h : checkHeads seen perm projectID mr target source targetHead = .ok info) :
    info.status ≠ .invalid ∧ info.sourceCommitID = some source ∧
      info.targetCommitID = some targetHead := by
  have hstatus : ∀ base : Option ID, mergeStatus base source targetHead ≠ .invalid := by
    intro base
    rw [mergeStatus]
    split
    · simp
    · split
      · simp
      · split
        · simp
        · simp
  rw [checkHeads] at h
  obtain ⟨base, -, h⟩ := bind_eq_ok.mp h
  dsimp only at h
  split at h
  · obtain rfl := pure_eq_ok.mp h
    exact ⟨hstatus base, rfl, rfl⟩
  · split at h
    · obtain rfl := pure_eq_ok.mp h
      exact ⟨hstatus base, rfl, rfl⟩
    · obtain ⟨reason, -, h⟩ := bind_eq_ok.mp h
      rcases reason with _ | reason
      · obtain rfl := pure_eq_ok.mp h
        exact ⟨hstatus base, rfl, rfl⟩
      · obtain rfl := pure_eq_ok.mp h
        exact ⟨hstatus base, rfl, rfl⟩

theorem check_follows (htable : BranchTable s.db.branches) {mr : MergeRequest}
    (hnamed : BranchesNamed s.db.branches mr) {perm : PermissionUsecase} {info : Mergeability}
    (h : check (fun _ => s) perm mr.projectID mr = .ok info) : CheckFollows s mr info := by
  -- a branch that is not gone is found, and it is the request's own
  have hgone : ∀ {branchID : ID} {name : Str},
      KeepsName s.db.branches branchID mr.projectID name →
      (∀ b, s.db.getBranchByName mr.projectID name = some b → b.id = branchID →
        b.commitID = none) → BranchGone s.db.branches branchID := by
    intro branchID name hkeeps hnone
    by_contra hhere
    obtain ⟨b, hb, hid⟩ := hkeeps.find htable hhere
    refine hhere ?_
    intro b' hb' hid' _
    rw [List.inj_on_of_nodup_map htable.ids hb' (getBranchByName_mem hb).1 (hid'.trans hid.symm)]
    exact hnone b hb hid
  rw [check] at h
  split at h
  · obtain rfl := Except.ok.inj h
    exact ⟨by simp, by simp, by simp⟩
  · split at h
    next source target hsource htarget =>
      split at h
      next hids =>
        obtain rfl := Except.ok.inj h
        refine ⟨?_, by simp, by simp⟩
        rintro -
        rcases hids with hid | hid
        · refine Or.inl (hgone hnamed.source ?_)
          intro b hb hbid
          obtain rfl := Option.some.inj (hsource.symm.trans hb)
          exact absurd hbid hid
        · refine Or.inr (hgone hnamed.target ?_)
          intro b hb hbid
          obtain rfl := Option.some.inj (htarget.symm.trans hb)
          exact absurd hbid hid
      next hids =>
        rw [not_or, not_not, not_not] at hids
        have hheads : ∀ {b : Branch} {name : Str} {branchID c : ID},
            s.db.getBranchByName mr.projectID name = some b → b.id = branchID →
            b.commitID = some c → ∃ b ∈ s.db.branches,
              b.id = branchID ∧ b.deleted = false ∧ b.commitID = some c := by
          intro b name branchID c hb hid hc
          obtain ⟨hmem, -, -, hlive⟩ := getBranchByName_mem hb
          exact ⟨b, hmem, hid, hlive, hc⟩
        split at h
        next sourceHead targetHead hsc htc =>
          have hfollows : ∀ {info : Mergeability}, info.status ≠ .invalid →
              info.sourceCommitID = some sourceHead → info.targetCommitID = some targetHead →
              CheckFollows s mr info := by
            intro info hstatus hs ht
            refine ⟨fun h => absurd h hstatus, ?_, ?_⟩
            · rintro c hc
              obtain rfl := Option.some.inj (hs.symm.trans hc)
              exact hheads hsource hids.1 hsc
            · rintro c hc
              obtain rfl := Option.some.inj (ht.symm.trans hc)
              exact hheads htarget hids.2 htc
          split at h
          · obtain rfl := Except.ok.inj h
            exact hfollows (by simp) rfl rfl
          · obtain ⟨hstatus, hs, ht⟩ := checkHeads_heads h
            exact hfollows hstatus hs ht
        next hsome =>
          obtain rfl := Except.ok.inj h
          refine ⟨?_, fun c hc => hheads hsource hids.1 hc, fun c hc => hheads htarget hids.2 hc⟩
          rintro -
          rcases hsc : source.commitID with _ | sourceHead
          · refine Or.inl (hgone hnamed.source ?_)
            intro b hb _
            obtain rfl := Option.some.inj (hsource.symm.trans hb)
            exact hsc
          · refine Or.inr (hgone hnamed.target ?_)
            intro b hb _
            obtain rfl := Option.some.inj (htarget.symm.trans hb)
            rcases htc : target.commitID with _ | targetHead
            · rfl
            · exact absurd htc (hsome sourceHead targetHead hsc)
    next hnone =>
      obtain rfl := Except.ok.inj h
      refine ⟨?_, by simp, by simp⟩
      rintro -
      rcases hsource : s.db.getBranchByName mr.projectID mr.sourceBranch with _ | source
      · refine Or.inl (hgone hnamed.source ?_)
        intro b hb
        rw [hsource] at hb
        cases hb
      · refine Or.inr (hgone hnamed.target ?_)
        intro b hb
        exact absurd hb (hnone source b hsource)

/-- In runs that rename no branch of a request, a check calls a request invalid only when
one of its branches is deleted or has no commits, and it never uses another branch. -/
theorem request_follows_branches [DecidableEq H] [HashScheme H] {s₀ : RequestStore H}
    (hempty : s₀.requests = [])
    (htable : BranchTable s₀.db.branches) (hrun : Run BranchStep NoBranchRenamed s₀ s)
    {mr : MergeRequest} (hmr : mr ∈ s.requests) {perm : PermissionUsecase} {info : Mergeability}
    (h : check (fun _ => s) perm mr.projectID mr = .ok info) : CheckFollows s mr info := by
  have hinit : RequestsNamed s₀ := ⟨htable, by simp [hempty]⟩
  have hnamed : RequestsNamed s :=
    hrun.invariant hinit fun _ _ _ hinv hcond hstep => hinv.step hcond hstep
  exact check_follows hnamed.table (hnamed.named mr hmr) h

end Requests

/-! ## A renamed source -/

/-- A project with a mainline and a branch that is one commit ahead of it. -/
def featureDB : DB IdealHash where
  treeNodes := [⟨1, treeHash [] [], [], 0o755, none⟩]
  files := []
  chunks := []
  projectChunkUploads := []
  commits :=
    [⟨7, demoChunk 7, 1, 1, none, none, 5, "first".toList⟩,
      ⟨8, demoChunk 8, 1, 1, some 7, none, 5, "second".toList⟩]
  branches :=
    [⟨1, 1, "main".toList, false, true, some 7, false⟩,
      ⟨2, 1, "feature".toList, false, false, some 8, false⟩]
  fileLocks := []

def featureStore (requests : List MergeRequest) (reviews : List Review) :
    RequestStore IdealHash where
  db := featureDB
  policies _ := ⟨0, false, false, [], []⟩
  requests := requests
  reviews := reviews
  checks := []

theorem featureStore_table : BranchTable (featureStore [] []).db.branches :=
  ⟨by decide, by decide⟩

def featureRequest : MergeRequest :=
  ⟨9, 1, 1, 2, 1, "feature".toList, "main".toList, "work".toList, .opened, false, 5, none⟩

theorem featureRequest_created :
    createRequest (featureStore [] []) demoCaller 9 1 "work".toList "feature".toList
      "main".toList false (fun n => 30 + n) = .ok (featureStore [featureRequest] []) := rfl

/-- A request whose branches are left alone can be merged. -/
theorem request_follows_branches_demo :
    ∃ info, check (fun _ => featureStore [featureRequest] []) demoCaller.perm 1
      featureRequest = .ok info ∧ info.status = .mergeable ∧
      CheckFollows (featureStore [featureRequest] []) featureRequest info := by
  obtain ⟨info, hinfo, hstatus⟩ : ∃ info, check (fun _ => featureStore [featureRequest] [])
      demoCaller.perm 1 featureRequest = .ok info ∧ info.status = .mergeable := ⟨_, rfl, rfl⟩
  have hrun : Run BranchStep NoBranchRenamed (featureStore [] [])
      (featureStore [featureRequest] []) :=
    (Run.refl _).tail (e := BranchEvent.other) (by intro mr hmr; cases hmr)
      (.createRequest featureRequest_created)
  exact ⟨info, hinfo, hstatus, request_follows_branches rfl featureStore_table hrun
    (List.mem_singleton_self _) hinfo⟩

def topicDB : DB IdealHash :=
  { featureDB with
    branches := [⟨1, 1, "main".toList, false, true, some 7, false⟩,
      ⟨2, 1, "topic".toList, false, false, some 8, false⟩] }

/-- The source is renamed; the request is invalid although both its branches are there. -/
theorem renamed_source_invalid :
    renameBranch (featureStore [featureRequest] []).db demoCaller 1 "feature".toList
        "topic".toList = .ok topicDB ∧
      Run BranchStep (fun _ _ => True) (featureStore [] [])
        { featureStore [featureRequest] [] with db := topicDB } ∧
      ∃ info, check (fun _ => { featureStore [featureRequest] [] with db := topicDB })
          demoCaller.perm 1 featureRequest = .ok info ∧ info.status = .invalid ∧
        ¬ CheckFollows { featureStore [featureRequest] [] with db := topicDB } featureRequest
          info := by
  have hrename : renameBranch (featureStore [featureRequest] []).db demoCaller 1
      "feature".toList "topic".toList = .ok topicDB := rfl
  have hrun : Run BranchStep (fun _ _ => True) (featureStore [] [])
      { featureStore [featureRequest] [] with db := topicDB } :=
    ((Run.refl _).tail trivial (BranchStep.createRequest featureRequest_created)).tail trivial
      (BranchStep.renameBranch hrename)
  refine ⟨hrename, hrun, _, rfl, rfl, ?_⟩
  intro hfollows
  rcases hfollows.invalid rfl with hgone | hgone
  · have hnone := hgone ⟨2, 1, "topic".toList, false, false, some 8, false⟩
      (List.mem_cons_of_mem _ (List.mem_singleton_self _)) rfl rfl
    cases hnone
  · have hnone := hgone ⟨1, 1, "main".toList, false, true, some 7, false⟩
      (List.mem_cons_self ..) rfl rfl
    cases hnone

end Nipa
