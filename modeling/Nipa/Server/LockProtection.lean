import Nipa.Branches
import Nipa.Push.LockPlan

/-!
# What a lock protects from

A lock is granted in the scope of the branch its owner works on: the mainline when
that is the default branch, else the branch itself.  A push looks its locks up in
the scope its branch has then.  The two are the same as long as the branch is the
default one at both times or at neither; choosing another default branch takes
the locks of the mainline over to the new one.

A granted lock stays in the table until it is released: by its holder or an admin, by
a landing of its holder, or with its branch.  A lock that a merge request has taken for
its owner also goes when the request is closed.

A push is protected against from its lock check on; a push that passed the check
before the lock was granted is not held up by it.
-/

namespace Nipa

open Support TreeBuilder

/-! ## Granted locks -/

section Granted

variable {H : Type} {db db' : DB H}

/-- The branch a lock is asked for on. -/
def lockBranch (db : DB H) (projectID : ID) (branchName : Str) : Option Branch :=
  if trimSpace branchName = [] then getDefaultBranch db projectID
  else db.getBranchByName projectID branchName

theorem resolveScope_ok {projectID : ID} {branchName : Str} {scope : LockScope}
    (h : resolveScope db projectID branchName = .ok scope) :
    ∃ b, lockBranch db projectID branchName = some b ∧ scope.branchID = branchScopeID b := by
  rw [resolveScope] at h
  rw [lockBranch]
  split at h
  next hdefault =>
    simp only [bind_eq_ok, orError_eq_ok, pure_eq_ok] at h
    obtain ⟨b, hb, rfl⟩ := h
    have hcond := List.find?_some hb
    simp only [Bool.and_eq_true] at hcond
    exact ⟨b, by rw [if_pos hdefault, hb], by rw [branchScopeID, if_pos hcond.1.2]⟩
  next hnamed =>
    simp only [bind_eq_ok, orError_eq_ok] at h
    obtain ⟨b, hb, h⟩ := h
    refine ⟨b, by rw [if_neg hnamed, hb], ?_⟩
    rw [branchScopeID]
    split at h
    next hd =>
      obtain rfl := pure_eq_ok.mp h
      rw [if_pos hd]
    next hd =>
      obtain rfl := pure_eq_ok.mp h
      rw [if_neg hd]

theorem scanLocks_some {scopeID : Option ID} {norm : Str} {holder : ID}
    {locks : List FileLock} {l : FileLock}
    (h : scanLocks scopeID norm holder locks = .ok (some l)) :
    l ∈ locks ∧ l.branchID = scopeID ∧ l.heldBy = holder ∧ prefixCovers l.path norm = true := by
  induction locks with
  | nil => simp [scanLocks] at h
  | cons lock rest ih =>
      have hrest : scanLocks scopeID norm holder rest = .ok (some l) →
          l ∈ lock :: rest ∧ l.branchID = scopeID ∧ l.heldBy = holder ∧
            prefixCovers l.path norm = true := by
        intro h
        obtain ⟨hmem, hl⟩ := ih h
        exact ⟨List.mem_cons_of_mem _ hmem, hl⟩
      rw [scanLocks] at h
      split at h
      next hscope =>
        split at h
        next hholder =>
          split at h
          next hcovers =>
            obtain rfl := Option.some.inj (Except.ok.inj h)
            exact ⟨List.mem_cons_self, hscope.1, hholder, hcovers⟩
          · exact hrest h
        · cases h
      · exact hrest h

/-- The lock a grant returns is stored, is the holder's, in the scope, and covers the
path. -/
theorem grant_covers {newID projectID holder : ID} {norm : Str} (hclean : CleanPath norm)
    {scope : LockScope} {lock : FileLock}
    (h : grant db newID projectID norm scope holder = .ok (db', lock)) :
    lock ∈ db'.fileLocks ∧ lock.projectID = projectID ∧ lock.branchID = scope.branchID ∧
      lock.heldBy = holder ∧ prefixCovers lock.path norm = true := by
  rw [grant] at h
  obtain ⟨found, hscan, h⟩ := bind_eq_ok.mp h
  rcases found with _ | found
  · dsimp only at h
    split at h
    next hcreate =>
      obtain ⟨rfl, rfl⟩ := Prod.mk.inj (pure_eq_ok.mp h)
      refine ⟨?_, rfl, rfl, rfl, prefixCovers_self hclean⟩
      rw [createLock_ok hcreate]
      exact List.mem_append_right _ (List.mem_singleton_self _)
    · split at h
      · cases h
      next existing hget =>
        simp only [bind_eq_ok, refuseIf_eq_ok, pure_eq_ok, not_not] at h
        obtain ⟨_, hholder, heq⟩ := h
        obtain ⟨rfl, rfl⟩ := Prod.mk.inj heq
        have hcond := List.find?_some hget
        simp only [Bool.and_eq_true, decide_eq_true_eq] at hcond
        obtain ⟨⟨hproject, hpath⟩, hbranch⟩ := hcond
        refine ⟨List.mem_of_find?_eq_some hget, hproject, hbranch, hholder, ?_⟩
        rw [hpath]
        exact prefixCovers_self hclean
  · obtain ⟨rfl, rfl⟩ := Prod.mk.inj (pure_eq_ok.mp h)
    obtain ⟨hmem, hbranch, hholder, hcovers⟩ := scanLocks_some hscan
    obtain ⟨hstored, hproject⟩ := mem_listProject.mp hmem
    exact ⟨hstored, hproject, hbranch, hholder, hcovers⟩

/-- A lock granted to a user for a path while working on a branch. -/
def Granted (db db' : DB H) (user projectID : ID) (b : Branch) (p : Str) (lock : FileLock) :
    Prop :=
  ∃ caller newID branchName path, caller.claim = some user ∧
    normalizeLockPath path = .ok p ∧ lockBranch db projectID branchName = some b ∧
    acquire db caller newID projectID branchName path = .ok (db', lock)

theorem Granted.covers {user projectID : ID} {b : Branch} {p : Str} {lock : FileLock}
    (h : Granted db db' user projectID b p lock) :
    lock ∈ db'.fileLocks ∧ CleanPath p ∧ lock.projectID = projectID ∧
      lock.branchID = branchScopeID b ∧ lock.heldBy = user ∧
      prefixCovers lock.path p = true := by
  obtain ⟨caller, newID, branchName, path, hclaim, hnorm, hbranch, hacq⟩ := h
  rw [acquire] at hacq
  simp only [bind_eq_ok, orError_eq_ok] at hacq
  obtain ⟨holder, hholder, _, -, norm, hnorm', _, -, scope, hscope, hgrant⟩ := hacq
  obtain rfl := Option.some.inj (hholder.symm.trans hclaim)
  obtain rfl := Except.ok.inj (hnorm'.symm.trans hnorm)
  obtain ⟨b', hb', hid⟩ := resolveScope_ok hscope
  obtain rfl := Option.some.inj (hb'.symm.trans hbranch)
  have hclean := normalizeLockPath_clean hnorm
  obtain ⟨hstored, hproject, hbranchID, hheld, hcovers⟩ := grant_covers hclean hgrant
  exact ⟨hstored, hclean, hproject, hbranchID.trans hid, hheld, hcovers⟩

end Granted

/-! ## Runs -/

inductive ProjectEvent (H : Type) where
  | lock (e : LockEvent)
  | push (caller : Caller) (req : PushRequest H)
  | branch
  | deleteBranch (projectID : ID) (name : Str)
  | land

section Runs

variable {H : Type} [DecidableEq H] [HashScheme H]

/-- The operations on a project.  Lock operations and whatever else leaves trees and
commits alone, pushes, branch operations, and landings, which only add trees and
commits and move heads. -/
inductive ProjectStep : DB H → ProjectEvent H → DB H → Prop where
  | lock {db db' : DB H} {e : LockEvent} (h : LockStep db e db')
      (htrees : DB.SameTrees db db') : ProjectStep db (.lock e) db'
  | push {db db' : DB H} {caller : Caller} {commitID : ID} {req : PushRequest H}
      (h : push db caller commitID req = .ok db') : ProjectStep db (.push caller req) db'
  | createBranch {db db' : DB H} {caller : Caller} {newID projectID : ID} {name : Str}
      {fork : BranchForkPoint H}
      (h : createBranch db caller newID projectID name fork = .ok db') :
      ProjectStep db .branch db'
  | renameBranch {db db' : DB H} {caller : Caller} {projectID : ID} {name newName : Str}
      (h : renameBranch db caller projectID name newName = .ok db') :
      ProjectStep db .branch db'
  | deleteBranch {db db' : DB H} {caller : Caller} {projectID : ID} {name : Str}
      {hasOpen : Bool} (h : deleteBranch db caller projectID name hasOpen = .ok db') :
      ProjectStep db (.deleteBranch projectID name) db'
  | setDefault {db db' : DB H} {caller : Caller} {projectID : ID} {name : Str}
      (h : setDefault db caller projectID name = .ok db') : ProjectStep db .branch db'
  | land {db db' : DB H} (hgrows : DB.Grows db db') (hlocks : db'.fileLocks = db.fileLocks) :
      ProjectStep db .land db'

/-- Merge requests lock no free path above a lock of somebody else. -/
def Unshadowed (db : DB H) : ProjectEvent H → Prop
  | .lock e => NoneBelow db e
  | _ => True

/-- A landing of the holder on the scope of the lock drops it with the paths it lands;
locks that a merge request has taken stay. -/
def LandedBy (lock : FileLock) (projectID : ID) (branch : Branch) (paths : List Str)
    (holder : ID) : Prop :=
  lock.projectID = projectID ∧ lock.branchID = branchScopeID branch ∧ lock.heldBy = holder ∧
    lock.mergeRequestID = none ∧ lock.path ∈ paths

/-- The lock is released: by its holder or an admin, by a landing, or with its branch. -/
def Releases (lock : FileLock) (db : DB H) : ProjectEvent H → Prop
  | .lock (.release caller projectID branchName path) =>
      ∃ norm scope l, normalizeLockPath path = .ok norm ∧
        resolveScope db projectID branchName = .ok scope ∧
        getLock db projectID norm scope.branchID = some l ∧ l.id = lock.id ∧
        (caller.claim = some l.heldBy ∨ caller.perm.adminHasProject = true)
  | .lock (.releaseLanded projectID branch paths holder) =>
      LandedBy lock projectID branch paths holder
  | .lock (.releaseBranch projectID branchID) =>
      lock.projectID = projectID ∧ lock.branchID = some branchID
  | .push caller req =>
      ∃ files branch userID head plan, acceptPush caller req = .ok files ∧
        openBranch db req = .ok branch ∧
        lockPush db caller req files branch = .ok (userID, head, plan) ∧
        LandedBy lock req.projectID branch plan.landed userID
  | .deleteBranch projectID name =>
      ∃ branch, branchByName db projectID name = .ok branch ∧ lock.projectID = projectID ∧
        lock.branchID = some branch.id
  | _ => False

/-- The merge request that the lock was taken for is closed. -/
def ClosesRequest (lock : FileLock) : ProjectEvent H → Prop
  | .lock (.releaseForMergeRequest projectID mergeRequestID) =>
      lock.projectID = projectID ∧ lock.mergeRequestID = some mergeRequestID
  | _ => False

structure ProjectInv (db : DB H) : Prop where
  store : db.StoreInv
  locks : LockInv db.fileLocks

variable {db' : DB H}

theorem ProjectInv.branchesOnly {db : DB H} (h : ProjectInv db) (hstep : BranchesOnly db db') :
    ProjectInv db' :=
  ⟨h.store.of_sameTrees hstep.toSameTrees, by rw [hstep.fileLocks_eq]; exact h.locks⟩

variable {caller : Caller}

theorem push_locks {db : DB H} {commitID : ID} {req : PushRequest H}
    (h : push db caller commitID req = .ok db') :
    ∃ files branch userID head plan, acceptPush caller req = .ok files ∧
      openBranch db req = .ok branch ∧
      lockPush db caller req files branch = .ok (userID, head, plan) ∧
      db'.fileLocks = (releaseLanded db req.projectID branch plan.landed userID).fileLocks := by
  obtain ⟨files, branch, userID, headCommit, parent2, plan, root, mid, hp⟩ := push_ok h
  have hmid : mid.fileLocks = db.fileLocks := by
    have happlied := hp.applied
    rw [applyPush] at happlied
    simp only [bind_eq_ok, pure_eq_ok] at happlied
    obtain ⟨_, -, _, -, _, -, _, -, _, -, rfl⟩ := happlied
    rfl
  refine ⟨files, branch, userID, headCommit, plan, hp.accepted, hp.opened,
    lockPush_eq_ok.mpr hp.planned.toGatePassed, ?_⟩
  rw [hp.result_eq, releaseLanded, releaseLanded, hmid]

theorem ProjectInv.step (hcf : CollisionFree H) {db : DB H} {e : ProjectEvent H} (h : ProjectInv db)
    (hcond : Unshadowed db e) (hstep : ProjectStep db e db') : ProjectInv db' := by
  cases hstep with
  | lock hlock htrees => exact ⟨h.store.of_sameTrees htrees, h.locks.step hcond hlock⟩
  | push hpush =>
      refine ⟨(push_grows h.store hcf hpush).inv', h.locks.subset ?_⟩
      obtain ⟨_, _, _, _, _, -, -, -, hlocks⟩ := push_locks hpush
      rw [hlocks]
      exact fun l hl => (List.mem_filter.mp hl).1
  | createBranch hop => exact h.branchesOnly (createBranch_branchesOnly hop)
  | renameBranch hop => exact h.branchesOnly (renameBranch_branchesOnly hop)
  | deleteBranch hop =>
      obtain ⟨htrees, branch, -, hlocks⟩ := deleteBranch_ok hop
      refine ⟨h.store.of_sameTrees htrees, h.locks.subset ?_⟩
      rw [hlocks]
      exact fun l hl => (List.mem_filter.mp hl).1
  | setDefault hop => exact h.branchesOnly (setDefault_branchesOnly hop)
  | land hgrows hlocks =>
      refine ⟨hgrows.inv', ?_⟩
      rw [hlocks]
      exact h.locks

theorem ProjectInv.run (hcf : CollisionFree H) {db : DB H} (h : ProjectInv db)
    (hrun : Run ProjectStep Unshadowed db db') : ProjectInv db' :=
  hrun.invariant h fun _ _ _ hinv hcond hstep => hinv.step hcf hcond hstep

variable {projectID : ID}

theorem ProjectInv.granted {db : DB H} (h : ProjectInv db) {user : ID} {b : Branch} {p : Str}
    {lock : FileLock} (hgranted : Granted db db' user projectID b p lock) : ProjectInv db' := by
  obtain ⟨caller, newID, branchName, path, -, -, -, hacq⟩ := hgranted
  refine ⟨?_, h.locks.acquire hacq⟩
  rw [acquire] at hacq
  simp only [bind_eq_ok] at hacq
  obtain ⟨holder, -, _, -, norm, -, _, -, scope, -, hgrant⟩ := hacq
  rcases grant_ok hgrant with rfl | ⟨rfl, -, -⟩
  · exact h.store
  · exact h.store.of_sameTrees ⟨rfl, rfl, rfl⟩

/-! ## Locks that stay -/

omit [DecidableEq H] [HashScheme H] in
theorem mem_filter_of_not {locks : List FileLock} {p : FileLock → Bool} {lock : FileLock}
    (hl : lock ∈ locks) (h : ¬ p lock = true) : lock ∈ locks.filter fun l => !p l :=
  List.mem_filter.mpr ⟨hl, by simpa using h⟩

omit [DecidableEq H] [HashScheme H] in
theorem mem_releaseLanded {db : DB H} {holder : ID} {branch : Branch} {paths : List Str}
    {lock : FileLock} (hl : lock ∈ db.fileLocks)
    (hkept : ¬ LandedBy lock projectID branch paths holder) :
    lock ∈ (releaseLanded db projectID branch paths holder).fileLocks := by
  refine mem_filter_of_not hl ?_
  intro hdropped
  apply hkept
  simpa [LandedBy, and_assoc] using hdropped

omit [DecidableEq H] [HashScheme H] in
theorem acquire_keeps {db : DB H} {newID : ID} {branchName path : Str} {granted lock : FileLock}
    (h : acquire db caller newID projectID branchName path = .ok (db', granted))
    (hl : lock ∈ db.fileLocks) : lock ∈ db'.fileLocks := by
  rw [acquire] at h
  simp only [bind_eq_ok] at h
  obtain ⟨_, -, _, -, _, -, _, -, _, -, hgrant⟩ := h
  rcases grant_ok hgrant with rfl | ⟨rfl, -, -⟩
  · exact hl
  · exact List.mem_append_left _ hl

theorem release_keeps {db : DB H} {branchName path : Str} {lock : FileLock}
    (h : release db caller projectID branchName path = .ok db') (hl : lock ∈ db.fileLocks)
    (hkept : ¬ Releases lock db (.lock (.release caller projectID branchName path))) :
    lock ∈ db'.fileLocks := by
  rw [release] at h
  simp only [bind_eq_ok, orError_eq_ok, refuseIf_eq_ok] at h
  obtain ⟨user, huser, _, -, norm, hnorm, scope, hscope, l, hl', _, howner, h⟩ := h
  rw [deleteLock] at h
  simp only [bind_eq_ok, pure_eq_ok] at h
  obtain ⟨_, -, rfl⟩ := h
  rw [List.mem_filter]
  refine ⟨hl, decide_eq_true ?_⟩
  intro hid
  refine hkept ⟨norm, scope, l, hnorm, hscope, hl', hid.symm, ?_⟩
  by_cases howns : l.heldBy = user
  · rw [howns]
    exact Or.inl huser
  · exact Or.inr (Bool.eq_true_of_not_eq_false fun hadmin => howner ⟨howns, hadmin⟩)

theorem ProjectStep.keeps {db : DB H} {e : ProjectEvent H} (h : ProjectStep db e db')
    {lock : FileLock} (hl : lock ∈ db.fileLocks) (hkept : ¬ Releases lock db e)
    (hopen : ¬ ClosesRequest lock e) : lock ∈ db'.fileLocks := by
  cases h with
  | lock hlock htrees =>
      cases hlock with
      | acquire hacq => exact acquire_keeps hacq hl
      | release hrel => exact release_keeps hrel hl hkept
      | requestLocks hclean hreq =>
          exact (ensureMergeRequestLocks_spec hclean hreq).1.kept lock hl
      | releaseLanded => exact mem_releaseLanded hl hkept
      | releaseForMergeRequest =>
          refine mem_filter_of_not hl ?_
          intro hdropped
          apply hopen
          simpa [ClosesRequest] using hdropped
      | releaseBranch =>
          refine mem_filter_of_not hl ?_
          intro hdropped
          apply hkept
          simpa [Releases] using hdropped
      | other heq => rwa [heq]
  | push hpush =>
      obtain ⟨files, branch, userID, head, plan, haccept, hbranch, hgate, hlocks⟩ :=
        push_locks hpush
      rw [hlocks]
      refine mem_releaseLanded hl ?_
      intro hlanded
      exact hkept ⟨files, branch, userID, head, plan, haccept, hbranch, hgate, hlanded⟩
  | createBranch hop => rwa [(createBranch_branchesOnly hop).fileLocks_eq]
  | renameBranch hop => rwa [(renameBranch_branchesOnly hop).fileLocks_eq]
  | deleteBranch hop =>
      obtain ⟨-, branch, hbranch, hlocks⟩ := deleteBranch_ok hop
      rw [hlocks]
      refine mem_filter_of_not hl ?_
      intro hdropped
      exact hkept ⟨branch, hbranch, by simpa using hdropped⟩
  | setDefault hop => rwa [(setDefault_branchesOnly hop).fileLocks_eq]
  | land hgrows hlocks => rwa [hlocks]

/-! ## Pushes that change binaries -/

variable {db : DB H} {head : Option (Commit H)} {files : List (PushFile H)}
  {removed : List Str}

/-- Whether the head has a binary at an address. -/
def HeadBinary (db : DB H) (head : Option (Commit H)) (segs : List Str) : Prop :=
  ∃ g, headFile db head segs = some g ∧ g.isBinary = true

/-- A push adds, changes or removes a binary at an address. -/
def ChangesBinary (db : DB H) (head : Option (Commit H)) (files : List (PushFile H))
    (removed : List Str) (segs : List Str) : Prop :=
  (∃ f ∈ files, FiledAt f.path segs ∧ (f.isBinary = true ∨ HeadBinary db head segs)) ∨
    ∃ r ∈ removed, FiledAt r segs ∧ HeadBinary db head segs

/-- No binary of the head is removed, or replaced by text, under a path with a leading
slash. -/
def NoSlashedChange (db : DB H) (head : Option (Commit H)) (files : List (PushFile H))
    (removed : List Str) : Prop :=
  ∀ segs, HeadBinary db head segs →
    (∀ f ∈ files, f.path = '/' :: pathOf segs → f.isBinary = true) ∧
      '/' :: pathOf segs ∉ removed

theorem GatePassed.holds {req : PushRequest H} {branch : Branch} {userID : ID}
    {lockPlan : PushLockPlan} (h : GatePassed db caller req files branch userID head lockPlan)
    (hinv : ProjectInv db) (hplain : NoSlashedChange db head files req.removed) {segs : List Str}
    (hsegs : ValidSegs segs) (hchange : ChangesBinary db head files req.removed segs)
    {lock : FileLock} (hlock : CoveredBy db req.projectID branch (pathOf segs) lock) :
    lock.heldBy = userID := by
  have hs := hinv.store.toStoreShape
  suffices hheld : ∃ l, CoveredBy db req.projectID branch (pathOf segs) l ∧
      l.heldBy = userID by
    obtain ⟨l, hl, hholder⟩ := hheld
    rw [← hholder]
    exact hinv.locks.holder_eq hsegs hlock hl
  rcases hchange with ⟨f, hf, hfiled, hbinary⟩ | ⟨r, hr, hfiled, g, hg, hbinary⟩
  · rcases hfiled with hpath | ⟨-, hpath⟩
    · rcases hfile : headFile db head segs with _ | g
      · have hsent : f.isBinary = true := by
          refine hbinary.resolve_right ?_
          rintro ⟨g, hg, -⟩
          rw [hfile] at hg
          cases hg
        exact h.added_free hs hsegs hf hsent (Or.inl ⟨hpath, hfile⟩) hlock
      · refine h.sent_locked hs hsegs hf hpath hfile ?_
        rcases hbinary with hsent | ⟨g', hg', htracked⟩
        · exact Or.inr hsent
        · rw [hfile] at hg'
          obtain rfl := Option.some.inj hg'
          exact Or.inl htracked
    · have hsent : f.isBinary = true := by
        rcases hbinary with hsent | htracked
        · exact hsent
        · exact (hplain segs htracked).1 f hf hpath
      exact h.added_free hs hsegs hf hsent (Or.inr hpath) hlock
  · rcases hfiled with rfl | ⟨-, rfl⟩
    · exact h.removed_locked hs hsegs hr hg hbinary
    · exact absurd hr (hplain segs ⟨g, hg, hbinary⟩).2

/-- Until a lock is released, the pushes of others that change a binary at or under its
path fail at their lock check, as long as the branch is the default one now exactly
if it was when the lock was granted, and the request of the lock is not closed. -/
theorem lock_protects (hcf : CollisionFree H) {db₀ db₁ db₂ : DB H} (hunborn : db₀.Unborn)
    (hempty : db₀.fileLocks = []) (hbefore : Run ProjectStep Unshadowed db₀ db₁)
    {user projectID : ID} {b : Branch} {p : Str} {lock : FileLock}
    (hgranted : Granted db₁ db₂ user projectID b p lock)
    (hsince : Run ProjectStep
      (fun db e => Unshadowed db e ∧ ¬ Releases lock db e ∧ ¬ ClosesRequest lock e) db₂ db)
    {caller : Caller} (hother : caller.claim ≠ some user) {req : PushRequest H}
    (hproject : req.projectID = projectID) {branch : Branch} (hbranch : branch.id = b.id)
    (hdefault : branch.isDefault = b.isDefault)
    (hplain : NoSlashedChange db head files req.removed)
    (hhead : headCommitOf db branch = .ok head) (haccept : acceptPush caller req = .ok files)
    {segs : List Str} (hsegs : ValidSegs segs)
    (hunder : p = pathOf segs ∨ p ++ ['/'] <+: pathOf segs)
    (hchange : ChangesBinary db head files req.removed segs) :
    (∀ r, lockPush db caller req files branch ≠ .ok r) ∧
      (openBranch db req = .ok branch →
        ∀ commitID db', push db caller commitID req ≠ .ok db') := by
  have hlocks₀ : LockInv db₀.fileLocks := by
    rw [hempty]
    exact ⟨by simp, fun l hl => absurd hl (by simp)⟩
  have hstart : ProjectInv db₀ := ⟨hunborn.storeInv, hlocks₀⟩
  obtain ⟨hstored, hclean, hlproject, hscope, hholder, hcovers⟩ := hgranted.covers
  -- the granted lock is in the table, and no step takes it out
  obtain ⟨hinv, hheld⟩ := hsince.invariant
    (I := fun db => ProjectInv db ∧ lock ∈ db.fileLocks)
    ⟨(hstart.run hcf hbefore).granted hgranted, hstored⟩
    fun _ _ _ hinv hcond hstep =>
      ⟨hinv.1.step hcf hcond.1 hstep, hstep.keeps hinv.2 hcond.2.1 hcond.2.2⟩
  have hsame : branchScopeID b = branchScopeID branch := by
    rw [branchScopeID, branchScopeID, hdefault, hbranch]
  have hlock : CoveredBy db req.projectID branch (pathOf segs) lock := by
    refine ⟨hheld, hlproject.trans hproject.symm, hscope.trans hsame, ?_⟩
    obtain ⟨ps, hps, rfl⟩ := hclean
    obtain ⟨ls, hls, hlpath⟩ := hinv.locks.clean lock hheld
    rw [hlpath, prefixCovers_pathOf hls hps] at hcovers
    rw [hlpath, prefixCovers_pathOf hls hsegs]
    refine hcovers.trans ?_
    rw [← prefixCovers_pathOf hps hsegs]
    exact (prefixCovers_iff ⟨ps, hps, rfl⟩ ⟨segs, hsegs, rfl⟩).mpr hunder
  have hgate : ∀ r, lockPush db caller req files branch ≠ .ok r := by
    rintro ⟨userID, head', lockPlan⟩ hok
    have hpassed := lockPush_eq_ok.mp hok
    obtain rfl := Except.ok.inj (hpassed.head_eq.symm.trans hhead)
    have hmine := hpassed.holds hinv hplain hsegs hchange hlock
    apply hother
    rw [hpassed.claim_eq, ← hmine, hholder]
  refine ⟨hgate, ?_⟩
  intro hopen commitID db' hpush
  obtain ⟨files', branch', userID, headCommit, parent2, plan, root, mid, hp⟩ := push_ok hpush
  obtain rfl := Except.ok.inj (hp.accepted.symm.trans haccept)
  obtain rfl := Except.ok.inj (hp.opened.symm.trans hopen)
  exact hgate _ (lockPush_eq_ok.mpr hp.planned.toGatePassed)

end Runs

/-! ## A lock that is left behind -/

def mainBranch : Branch := ⟨1, 1, "main".toList, false, true, none, false⟩

def twoBranchStore : DB IdealHash :=
  { demoStore with
    branches := [mainBranch, ⟨2, 1, "dev".toList, false, false, none, false⟩] }

def assetFile : PushFile IdealHash :=
  ⟨"a.bin".toList, 0o644, 3, true, encodingRaw, fileHash [demoChunk 1], [demoChunk 1]⟩

def assetPush : PushRequest IdealHash :=
  { demoPush with
    files := [assetFile]
    paths_fit := by decide }

/-- The lock of user 6 on `a.bin`, asked for on the default branch. -/
def assetLock : FileLock := ⟨11, 1, none, "a.bin".toList, 6, none⟩

def lockedStore : DB IdealHash := { twoBranchStore with fileLocks := [assetLock] }

theorem assetLock_granted :
    Granted twoBranchStore lockedStore 6 1 mainBranch "a.bin".toList assetLock :=
  ⟨lockUser 6, 11, [], "a.bin".toList, rfl, rfl, rfl, rfl⟩

theorem assetPush_changes (db : DB IdealHash) :
    ChangesBinary db none [assetFile] [] ["a.bin".toList] :=
  Or.inl ⟨assetFile, List.mem_singleton_self _, Or.inl rfl, Or.inl rfl⟩

/-- With the lock still there, another user pushes `a.bin` to the branch it was granted
on, after another branch was made the default one. -/
theorem lock_left_behind :
    ∃ db db', setDefault lockedStore demoCaller 1 "dev".toList = .ok db ∧
      Granted twoBranchStore lockedStore 6 1 mainBranch "a.bin".toList assetLock ∧
      assetLock ∈ db.fileLocks ∧ demoCaller.claim = some 5 ∧
      (∃ b, db.getBranchByName 1 "main".toList = some b ∧ b.id = mainBranch.id) ∧
      acceptPush demoCaller assetPush = .ok [assetFile] ∧
      ChangesBinary db none [assetFile] assetPush.removed ["a.bin".toList] ∧
      push db demoCaller 7 assetPush = .ok db' := by
  refine ⟨_, _, rfl, assetLock_granted, List.mem_singleton_self _, rfl, ⟨_, rfl, rfl⟩, rfl,
    assetPush_changes _, rfl⟩

def otherLock : FileLock := ⟨12, 1, none, "b.bin".toList, 5, none⟩

def sharedStore : DB IdealHash := { twoBranchStore with fileLocks := [assetLock, otherLock] }

/-- Without that, the push is refused, also after its user has locked another file. -/
theorem lock_protects_asset :
    acquire lockedStore (lockUser 5) 12 1 [] "b.bin".toList = .ok (sharedStore, otherLock) ∧
      openBranch sharedStore assetPush = .ok mainBranch ∧
      ¬ ∃ db', push sharedStore demoCaller 7 assetPush = .ok db' := by
  have hlock : acquire lockedStore (lockUser 5) 12 1 [] "b.bin".toList =
      .ok (sharedStore, otherLock) := rfl
  have hvalid : ValidSegs ["a.bin".toList] := by
    refine ⟨by simp, ?_⟩
    intro n hn
    rw [List.mem_singleton.mp hn]
    exact ⟨by decide, by decide⟩
  have hplain : NoSlashedChange sharedStore none [assetFile] assetPush.removed := by
    rintro segs ⟨g, hg, -⟩
    cases hg
  have hunborn : twoBranchStore.Unborn := ⟨rfl, rfl, rfl⟩
  have hother : demoCaller.claim ≠ some 6 := by decide
  have haccept : acceptPush demoCaller assetPush = .ok [assetFile] := rfl
  have hhead : headCommitOf sharedStore mainBranch = .ok none := rfl
  have hprotected := lock_protects IdealHash.collisionFree hunborn rfl (Run.refl _)
    assetLock_granted ((Run.refl lockedStore).tail (e := .lock .acquire)
      ⟨trivial, id, id⟩ (.lock (.acquire hlock) ⟨rfl, rfl, rfl⟩)) hother rfl rfl rfl
    hplain hhead haccept hvalid (Or.inl rfl) (assetPush_changes _)
  refine ⟨hlock, rfl, ?_⟩
  rintro ⟨db', hpush⟩
  exact hprotected.2 rfl 7 db' hpush

end Nipa
