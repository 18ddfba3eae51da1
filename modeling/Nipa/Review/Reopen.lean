import Nipa.Review.Lifecycle

/-!
# Taking the locks of a merge request

Reopening a request writes its status and then takes its locks, and a call takes
its locks one by one.  Only servers with a lock serializer take them in one
transaction, and none of them puts the status into it.  A refusal therefore
leaves the request open, and without a serializer it leaves the locks that were
taken before it.
-/

namespace Nipa

open Support

/-! ## The calls -/

section Calls

variable {H : Type}

/-- A transaction: after an error nothing of it is left. -/
def withinTx (run : DB H → DB H × Except DomainError Unit) (db : DB H) :
    DB H × Except DomainError Unit :=
  match run db with
  | (db', .ok u) => (db', .ok u)
  | (_, .error err) => (db, .error err)

/-- The lock gate of the file lock use case: servers that share a database have
a serializer, and then it runs in a transaction. -/
def serialized (serializer : Bool) (run : DB H → DB H × Except DomainError Unit) (db : DB H) :
    DB H × Except DomainError Unit :=
  if serializer then withinTx run db else run db

/-- Take the locks of a request, all of them or, without a serializer, as many as
come before the first one that is refused. -/
def takeRequestLocks (serializer : Bool) (db : DB H) (projectID mergeRequestID : ID)
    (target : Branch) (paths : List Str) (holder author : ID) (newID : ℕ → ID) :
    DB H × Except DomainError Unit :=
  serialized serializer (fun db =>
    ensureMergeRequestLocks db projectID mergeRequestID target paths holder author newID) db

variable [DecidableEq H] [HashScheme H]

/-- The base that the binaries of a request are compared with. -/
def requestBase (db : DB H) (perm : PermissionUsecase) (projectID : ID) (target source : Branch) :
    Except DomainError (Option ID) :=
  match target.commitID, source.commitID with
  | some targetHead, some sourceHead => getMergeBase db perm projectID targetHead sourceHead
  | _, _ => .ok none

/-- What the locks of a request are taken for: its target and the binaries it
changes. -/
def requestBinaries (db : DB H) (perm : PermissionUsecase) (projectID : ID) (mr : MergeRequest) :
    Except DomainError (Branch × List Str) := do
  let target ← orError (db.getBranchByName projectID mr.targetBranch)
    (errNotFound "record not found" [])
  let source ← orError (db.getBranchByName projectID mr.sourceBranch)
    (errNotFound "record not found" [])
  let base ← requestBase db perm projectID target source
  let paths ← binaryChangesBetween db projectID base source.commitID
  return (target, paths)

def ensureLocksForRequest (serializer : Bool) (db : DB H) (perm : PermissionUsecase)
    (projectID : ID) (mr : MergeRequest) (holder : ID) (newID : ℕ → ID) :
    DB H × Except DomainError Unit :=
  match requestBinaries db perm projectID mr with
  | .error err => (db, .error err)
  | .ok (target, paths) =>
      takeRequestLocks serializer db projectID mr.id target paths holder mr.createdBy newID

/-- Reopen a request: the status is written before the locks are taken. -/
def reopen (serializer : Bool) (s : RequestStore H) (caller : Caller) (projectID : ID)
    (number : ℤ) (newID : ℕ → ID) : RequestStore H × Except DomainError MergeRequest :=
  match setStatus s caller projectID number .closed with
  | .error err => (s, .error err)
  | .ok _ =>
      let opened := s.updateStatus projectID number .opened none
      match opened.getRequest projectID number with
      | none => (opened, .error (errNotFound "record not found" []))
      | some mr =>
          match caller.claim with
          | none => (opened, .ok mr)
          | some user =>
              let (db', locked) := ensureLocksForRequest serializer opened.db caller.perm
                projectID mr user newID
              ({ opened with db := db' }, locked.map fun _ => mr)

/-- The lock step of a merge, in the stores its queries see. -/
def mergeLockStep (serializer : Bool) (seen : ℕ → RequestStore H) (projectID : ID)
    (mr : MergeRequest) (info : Mergeability) (user : ID) (lockID : ℕ → ID) :
    DB H × Except DomainError Unit :=
  let found := do
    let target ← orError ((seen 13).db.getBranchByName projectID mr.targetBranch)
      (errNotFound "record not found" [])
    let paths ← binaryChangesBetween (seen 14).db projectID info.mergeBaseCommitID
      info.sourceCommitID
    return (target, paths)
  match found with
  | .error err => ((seen 15).db, .error err)
  | .ok (target, paths) =>
      takeRequestLocks serializer (seen 15).db projectID mr.id target paths user mr.createdBy
        lockID

theorem mergeRequestPlan_lockStep (serializer : Bool) (store : ContentStore H)
    (seen : ℕ → RequestStore H) (caller : Caller) (projectID : ID) (number : ℤ) (strategy : Str)
    (lockID newID : ℕ → ID) :
    mergeRequestPlan store seen caller projectID number strategy lockID newID = (do
      let strategy ← parseStrategy (trimSpace strategy)
      let mr ← loadRequest (seen 0) caller.perm projectID number
      let info ← check seen caller.perm projectID mr
      ensureMergeable info strategy
      let user ← orError caller.claim errNoPermission
      (mergeLockStep serializer seen projectID mr info user lockID).2
      planLanding store seen 16 caller projectID mr.targetBranch mr.sourceBranch
        (mergeOptions strategy mr user info.sourceCommitID) newID) := by
  have hserialized : ∀ (run : DB H → DB H × Except DomainError Unit) (db : DB H),
      (serialized serializer run db).2 = (run db).2 := by
    intro run db
    rw [serialized]
    split
    · rw [withinTx]
      rcases run db with ⟨db', _ | _⟩
      · rfl
      · rfl
    · rfl
  rw [mergeRequestPlan, mergeGate]
  simp only [bind_assoc, pure_bind]
  congr 1
  funext strategy
  congr 1
  funext mr
  congr 1
  funext info
  congr 1
  funext _
  congr 1
  funext user
  rw [mergeLockStep]
  rcases orError ((seen 13).db.getBranchByName projectID mr.targetBranch)
    (errNotFound "record not found" []) with err | target
  · rfl
  · rcases hpaths : binaryChangesBetween (seen 14).db projectID info.mergeBaseCommitID
      info.sourceCommitID with err | paths
    · simp only [bind, Except.bind]
    · simp only [bind, Except.bind, pure, Except.pure]
      rw [takeRequestLocks, hserialized]

end Calls

/-! ## What stops the locks -/

section Locks

variable {H : Type} {db db' : DB H}

/-- The first lock over a path is none of the request's, its holder's or its
author's. -/
def LockRefuses (locks : List FileLock) (scopeID : Option ID)
    (mergeRequestID holder author : ID) (path : Str) : Prop :=
  ∃ l ∈ findCoveringLock locks scopeID path,
    mergeRequestLockAccepted l mergeRequestID holder author = false

instance (locks : List FileLock) (scopeID : Option ID) (mergeRequestID holder author : ID) :
    DecidablePred (LockRefuses locks scopeID mergeRequestID holder author) := fun path =>
  inferInstanceAs (Decidable (∃ l ∈ findCoveringLock locks scopeID path,
    mergeRequestLockAccepted l mergeRequestID holder author = false))

/-- Either no path is refused, or nothing is free before the first one that is. -/
def NoneFreeBeforeRefused (locks : List FileLock) (scopeID : Option ID)
    (mergeRequestID holder author : ID) (paths : List Str) : Prop :=
  (∃ p ∈ paths, LockRefuses locks scopeID mergeRequestID holder author p) →
    ∀ p ∈ paths.takeWhile fun p => ¬ LockRefuses locks scopeID mergeRequestID holder author p,
      findCoveringLock locks scopeID p ≠ none

/-- A lock of the request changes neither which paths are refused nor that a path
covered before is covered. -/
theorem lockRefuses_append_own {locks : List FileLock} {scopeID : Option ID}
    {mergeRequestID holder author : ID} {own : FileLock}
    (hown : own.mergeRequestID = some mergeRequestID) (path : Str) :
    LockRefuses (locks ++ [own]) scopeID mergeRequestID holder author path ↔
      LockRefuses locks scopeID mergeRequestID holder author path := by
  have haccepted : mergeRequestLockAccepted own mergeRequestID holder author = true := by
    simp [mergeRequestLockAccepted, hown]
  simp only [LockRefuses, findCoveringLock, List.find?_append]
  rcases List.find? _ locks with _ | l
  · simp only [Option.none_or, Option.mem_def, reduceCtorEq, false_and, exists_false, iff_false]
    rintro ⟨l, hl, hrefused⟩
    obtain rfl := List.mem_singleton.mp (List.mem_of_find?_eq_some hl)
    rw [haccepted] at hrefused
    cases hrefused
  · simp

theorem createLock_isOk {lock : FileLock}
    (hfree : ∀ l ∈ db.fileLocks, l.id ≠ lock.id ∧
      ¬ (l.projectID = lock.projectID ∧ l.branchID = lock.branchID ∧ l.path = lock.path)) :
    createLock db lock = .ok { db with fileLocks := db.fileLocks ++ [lock] } := by
  rw [createLock, refuseIf, if_neg]
  · rfl
  · rintro ⟨l, hl, hid | hkey⟩
    · exact (hfree l hl).1 hid
    · exact (hfree l hl).2 hkey

/-- The loop goes through when no path is refused, and it leaves the table alone
when no path before the first refused one is free. -/
theorem ensureEach_iff {projectID mergeRequestID holder author : ID} {scopeID : Option ID}
    {newID : ℕ → ID} (hinj : Function.Injective newID) {paths : List Str} {n : ℕ}
    {locks : List FileLock} {r : Except DomainError Unit} (hclean : ∀ p ∈ paths, CleanPath p)
    (hlocks : ∀ l, l ∈ locks ↔ l ∈ db.fileLocks ∧ l.projectID = projectID)
    (hfresh : ∀ k, n ≤ k → ∀ l ∈ db.fileLocks, l.id ≠ newID k)
    (h : ensureEach projectID mergeRequestID scopeID holder author newID paths n db locks =
      (db', r)) :
    (r = .ok () ↔ ∀ p ∈ paths, ¬ LockRefuses locks scopeID mergeRequestID holder author p) ∧
      (db'.fileLocks = db.fileLocks ↔ ∀ p ∈ paths.takeWhile fun p =>
        ¬ LockRefuses locks scopeID mergeRequestID holder author p,
          findCoveringLock locks scopeID p ≠ none) := by
  induction paths generalizing n db locks with
  | nil =>
      obtain ⟨rfl, rfl⟩ := Prod.mk.inj h
      simp
  | cons path rest ih =>
      have hrest : ∀ p ∈ rest, CleanPath p := fun p hp => hclean p (List.mem_cons_of_mem _ hp)
      rw [ensureEach] at h
      split at h
      next lock hfind =>
        split at h
        next haccepted =>
          have hgoes : ¬ LockRefuses locks scopeID mergeRequestID holder author path := by
            rintro ⟨l, hl, hrefused⟩
            obtain rfl := Option.some.inj (hfind.symm.trans hl)
            rw [haccepted] at hrefused
            cases hrefused
          obtain ⟨hok, hsame⟩ := ih hrest hlocks hfresh h
          rw [hok, hsame, List.takeWhile_cons_of_pos (by simpa using hgoes)]
          refine ⟨by simp [hgoes], ?_⟩
          simp [hfind]
        next hrefused =>
          have hstops : LockRefuses locks scopeID mergeRequestID holder author path :=
            ⟨lock, hfind, Bool.eq_false_iff.mpr hrefused⟩
          obtain ⟨rfl, rfl⟩ := Prod.mk.inj h
          rw [List.takeWhile_cons_of_neg (by simpa using hstops)]
          refine ⟨?_, by simp⟩
          simp [hstops]
      next hfind =>
        have hgoes : ¬ LockRefuses locks scopeID mergeRequestID holder author path := by
          rintro ⟨l, hl, -⟩
          rw [hfind] at hl
          cases hl
        set lock : FileLock := ⟨newID n, projectID, scopeID, path, holder, some mergeRequestID⟩
          with hlock
        -- the path is free, so there is no row in the way of the new one
        have hcreate :
            createLock db lock = .ok { db with fileLocks := db.fileLocks ++ [lock] } := by
          apply createLock_isOk
          intro l hl
          refine ⟨hfresh n le_rfl l hl, ?_⟩
          rintro ⟨hproject, hbranch, hpath⟩
          have hnot := List.find?_eq_none.mp hfind l ((hlocks l).mpr ⟨hl, hproject⟩)
          rw [Bool.and_eq_true, decide_eq_true_eq, not_and] at hnot
          refine hnot hbranch ?_
          rw [hpath]
          exact prefixCovers_self (hclean path (List.mem_cons_self ..))
        dsimp only at h
        rw [hcreate] at h
        have hlocks' : ∀ l, l ∈ locks ++ [lock] ↔
            l ∈ db.fileLocks ++ [lock] ∧ l.projectID = projectID := by
          intro l
          rw [List.mem_append, List.mem_append, hlocks, List.mem_singleton]
          constructor
          · rintro (⟨hl, hproject⟩ | rfl)
            · exact ⟨Or.inl hl, hproject⟩
            · exact ⟨Or.inr rfl, rfl⟩
          · rintro ⟨hl | hl, hproject⟩
            · exact Or.inl ⟨hl, hproject⟩
            · exact Or.inr hl
        have hfresh' : ∀ k, n + 1 ≤ k → ∀ l ∈ db.fileLocks ++ [lock], l.id ≠ newID k := by
          intro k hk l hl
          rcases List.mem_append.mp hl with hl | hl
          · exact hfresh k (by omega) l hl
          · rw [List.mem_singleton.mp hl]
            exact fun heq => absurd (hinj heq) (by omega)
        obtain ⟨hok, -⟩ := ih hrest hlocks' hfresh' h
        have hkept := (ensureEach_spec hrest hlocks' h).1.kept lock
          (List.mem_append_right _ (List.mem_singleton_self _))
        refine ⟨?_, ?_⟩
        · rw [hok]
          simp only [lockRefuses_append_own (show lock.mergeRequestID = some mergeRequestID from
            rfl), List.forall_mem_cons, hgoes, not_false_eq_true, true_and]
        · rw [List.takeWhile_cons_of_pos (by simpa using hgoes)]
          constructor
          · intro hsame
            rw [hsame] at hkept
            exact absurd rfl (hfresh n le_rfl lock hkept)
          · intro hcovered
            exact absurd hfind (hcovered path (List.mem_cons_self ..))

/-- Generated lock ids are new and do not repeat. -/
def FreshLockIDs (db : DB H) (newID : ℕ → ID) : Prop :=
  Function.Injective newID ∧ ∀ n, ∀ l ∈ db.fileLocks, l.id ≠ newID n

variable {serializer : Bool} {projectID mergeRequestID holder author : ID} {target : Branch}
  {paths : List Str} {newID : ℕ → ID}

theorem ensureMergeRequestLocks_iff (hfresh : FreshLockIDs db newID)
    (hclean : ∀ p ∈ paths, CleanPath p) {r : Except DomainError Unit}
    (h : ensureMergeRequestLocks db projectID mergeRequestID target paths holder author newID =
      (db', r)) :
    (r = .ok () ↔ ∀ p ∈ paths, ¬ LockRefuses (db.listProject projectID) (branchScopeID target)
        mergeRequestID holder author p) ∧
      (db'.fileLocks = db.fileLocks ↔ ∀ p ∈ paths.takeWhile fun p =>
        ¬ LockRefuses (db.listProject projectID) (branchScopeID target) mergeRequestID holder
          author p,
        findCoveringLock (db.listProject projectID) (branchScopeID target) p ≠ none) := by
  rw [ensureMergeRequestLocks] at h
  split at h
  next hnil =>
    obtain ⟨rfl, rfl⟩ := Prod.mk.inj h
    simp [hnil]
  · exact ensureEach_iff hfresh.1 hclean (fun l => mem_listProject) (fun k _ => hfresh.2 k) h

theorem takeRequestLocks_ok_iff (hfresh : FreshLockIDs db newID)
    (hclean : ∀ p ∈ paths, CleanPath p) :
    (takeRequestLocks serializer db projectID mergeRequestID target paths holder author
      newID).2 = .ok () ↔ ∀ p ∈ paths, ¬ LockRefuses (db.listProject projectID)
        (branchScopeID target) mergeRequestID holder author p := by
  rcases htaken : ensureMergeRequestLocks db projectID mergeRequestID target paths holder author
    newID with ⟨db', r⟩
  rw [← (ensureMergeRequestLocks_iff hfresh hclean htaken).1, takeRequestLocks, serialized]
  split
  · rw [withinTx, htaken]
    rcases r with err | u
    · rfl
    · rfl
  · rw [htaken]

/-- A refused call leaves the lock table alone exactly when it runs in a transaction
or no path before the refused one is free. -/
theorem takeRequestLocks_unchanged_iff (hfresh : FreshLockIDs db newID)
    (hclean : ∀ p ∈ paths, CleanPath p) :
    (∀ db' err, takeRequestLocks serializer db projectID mergeRequestID target paths holder
      author newID = (db', .error err) → db'.fileLocks = db.fileLocks) ↔
      serializer = true ∨ NoneFreeBeforeRefused (db.listProject projectID)
        (branchScopeID target) mergeRequestID holder author paths := by
  rcases htaken : ensureMergeRequestLocks db projectID mergeRequestID target paths holder author
    newID with ⟨db₁, r⟩
  obtain ⟨hok, hsame⟩ := ensureMergeRequestLocks_iff hfresh hclean htaken
  rcases serializer with _ | _
  · have hrun : takeRequestLocks false db projectID mergeRequestID target paths holder author
        newID = (db₁, r) := htaken
    simp only [hrun, Bool.false_eq_true, false_or, NoneFreeBeforeRefused]
    rw [← hsame]
    rcases r with err | u
    · have hrefused : ∃ p ∈ paths, LockRefuses (db.listProject projectID) (branchScopeID target)
          mergeRequestID holder author p := by
        by_contra hnone
        have hgoes := hok.mpr fun p hp hrefused => hnone ⟨p, hp, hrefused⟩
        cases hgoes
      constructor
      · intro h _
        exact h db₁ err rfl
      · intro h db' err' heq
        obtain ⟨rfl, -⟩ := Prod.mk.inj heq
        exact h hrefused
    · constructor
      · rintro - ⟨p, hp, hrefused⟩
        exact absurd hrefused (hok.mp rfl p hp)
      · intro _ db' err heq
        cases (Prod.mk.inj heq).2
  · have hrun : takeRequestLocks true db projectID mergeRequestID target paths holder author
        newID = withinTx (fun db => ensureMergeRequestLocks db projectID mergeRequestID target
          paths holder author newID) db := rfl
    rw [hrun, withinTx, htaken]
    constructor
    · intro _
      exact Or.inl rfl
    · intro _ db' err heq
      rcases r with err' | u
      · rw [(Prod.mk.inj heq).1]
      · cases (Prod.mk.inj heq).2

end Locks

/-! ## The binaries of a request -/

section Binaries

variable {H : Type} [DecidableEq H] [HashScheme H] {db : DB H}

theorem binaryChangesBetween_clean (hinv : db.StoreInv) {projectID : ID}
    {fromCommitID toCommitID : Option ID} {paths : List Str}
    (h : binaryChangesBetween db projectID fromCommitID toCommitID = .ok paths) :
    ∀ p ∈ paths, CleanPath p := by
  rw [binaryChangesBetween] at h
  simp only [bind_eq_ok, binaryChanges, pure_eq_ok] at h
  obtain ⟨_, ⟨changes, hchanges, rfl⟩, rfl⟩ := h
  have hroots := hchanges
  rw [commitChanges] at hroots
  simp only [bind_eq_ok] at hroots
  obtain ⟨fromRoot, hfrom, toRoot, hto, -⟩ := hroots
  obtain ⟨old, hold, hlookup⟩ :=
    exists_flattened allowAllFilter hinv (commitRootNode_mem hfrom)
  obtain ⟨new, hnew, hlookup'⟩ :=
    exists_flattened allowAllFilter hinv (commitRootNode_mem hto)
  obtain ⟨old', new', hold', hnew', hcompare, -⟩ := (pruned_diff_exact hinv hfrom hto).changes
  obtain rfl := Option.some.inj (hold.symm.trans hold')
  obtain rfl := Option.some.inj (hnew.symm.trans hnew')
  obtain rfl := Except.ok.inj (hchanges.symm.trans hcompare)
  have hshown : ∀ {node : Option (TreeRow H)} {p : Str} {e : Entry H}, (∃ segs f,
      shown db allowAllFilter node [] segs = some f ∧ p = pathOf segs ∧ e = entryOf p f) →
      CleanPath p := by
    rintro node p e ⟨segs, f, hf, rfl, -⟩
    exact ⟨segs, shown_valid hinv.toStoreShape hf, rfl⟩
  intro p hp
  obtain ⟨c, hc, rfl⟩ := List.mem_map.mp hp
  have hdiffers := Diff.mem_compare_paths.mp (List.mem_map_of_mem (List.mem_of_mem_filter hc))
  rcases hcold : old.lookup c.path with _ | e
  · rcases hcnew : new.lookup c.path with _ | e
    · rw [hcold, hcnew] at hdiffers
      exact absurd rfl hdiffers
    · exact hshown ((hlookup' _ _).mp hcnew)
  · exact hshown ((hlookup _ _).mp hcold)

theorem requestBinaries_clean (hinv : db.StoreInv) {perm : PermissionUsecase} {projectID : ID}
    {mr : MergeRequest} {target : Branch} {paths : List Str}
    (h : requestBinaries db perm projectID mr = .ok (target, paths)) :
    ∀ p ∈ paths, CleanPath p := by
  rw [requestBinaries] at h
  simp only [bind_eq_ok, pure_eq_ok, Prod.mk.injEq] at h
  obtain ⟨_, -, _, -, _, -, paths', hpaths, -, rfl⟩ := h
  exact binaryChangesBetween_clean hinv hpaths

end Binaries

/-! ## Refused calls -/

section Refused

variable {H : Type} {s s' : RequestStore H}

/-- What a refused call has to leave as it was. -/
structure LeavesRequest (s s' : RequestStore H) (projectID : ID) (number : ℤ) : Prop where
  status_eq : (s'.getRequest projectID number).map MergeRequest.status =
    (s.getRequest projectID number).map MergeRequest.status
  locks_eq : s'.db.fileLocks = s.db.fileLocks

/-- The request is closed, and the caller may open it again. -/
structure MayReopen (s : RequestStore H) (caller : Caller) (projectID : ID) (number : ℤ)
    (mr : MergeRequest) (user : ID) : Prop where
  number_pos : 0 < number
  readable : caller.perm.hasProjectAccess .read = true
  found : s.getRequest projectID number = some mr
  claim : caller.claim = some user
  allowed : user = mr.createdBy ∨ caller.perm.adminHasProject = true
  closed : mr.status = .closed

theorem setStatus_ok_iff {caller : Caller} {projectID : ID} {number : ℤ} :
    setStatus s caller projectID number .closed = .ok () ↔
      ∃ mr user, MayReopen s caller projectID number mr user := by
  rw [setStatus]
  simp only [loadRequest, bind_eq_ok, orError_eq_ok, refuseIf_eq_ok, not_le, not_and,
    Bool.not_eq_false, not_not]
  constructor
  · rintro ⟨mr, ⟨_, hpos, _, hread, hmr⟩, user, hclaim, _, hallowed, hclosed⟩
    refine ⟨mr, user, hpos, hread, hmr, hclaim, ?_, hclosed⟩
    by_cases huser : user = mr.createdBy
    · exact Or.inl huser
    · exact Or.inr (hallowed huser)
  · rintro ⟨mr, user, hmay⟩
    refine ⟨mr, ⟨(), hmay.number_pos, (), hmay.readable, hmay.found⟩, user, hmay.claim, (), ?_,
      hmay.closed⟩
    intro huser
    exact hmay.allowed.resolve_left huser

theorem getRequest_updateStatus_self {projectID : ID} {number : ℤ} {mr : MergeRequest}
    (h : s.getRequest projectID number = some mr) (toStatus : RequestStatus)
    (c : Option ID) :
    (s.updateStatus projectID number toStatus c).getRequest projectID number =
      some { mr with status := toStatus, mergeCommitID := c } := by
  simp only [RequestStore.getRequest, RequestStore.updateStatus] at h ⊢
  have hkey : ∀ m : MergeRequest,
      ((decide ((if m.projectID = projectID ∧ m.number = number then
        { m with status := toStatus, mergeCommitID := c } else m).projectID = projectID) &&
      decide ((if m.projectID = projectID ∧ m.number = number then
        { m with status := toStatus, mergeCommitID := c } else m).number = number)) =
      (decide (m.projectID = projectID) && decide (m.number = number))) := by
    intro m
    split
    · rfl
    · rfl
  have hmr := List.find?_some h
  simp only [Bool.and_eq_true, decide_eq_true_eq] at hmr
  rw [List.find?_map, Function.comp_def]
  simp only [hkey, h, Option.map_some, if_pos hmr]

variable [DecidableEq H] [HashScheme H]

/-- The branches of the request and its binaries are known, and nothing refuses their
locks. -/
def LocksGranted (db : DB H) (perm : PermissionUsecase) (projectID : ID) (mr : MergeRequest)
    (user : ID) : Prop :=
  ∃ target paths, requestBinaries db perm projectID mr = .ok (target, paths) ∧
    ∀ p ∈ paths, ¬ LockRefuses (db.listProject projectID) (branchScopeID target) mr.id user
      mr.createdBy p

theorem ensureLocksForRequest_ok_iff {db : DB H} (hinv : db.StoreInv) {newID : ℕ → ID}
    (hfresh : FreshLockIDs db newID) (serializer : Bool) (perm : PermissionUsecase)
    (projectID : ID) (mr : MergeRequest) (user : ID) :
    (ensureLocksForRequest serializer db perm projectID mr user newID).2 = .ok () ↔
      LocksGranted db perm projectID mr user := by
  rw [ensureLocksForRequest, LocksGranted]
  rcases hbinaries : requestBinaries db perm projectID mr with err | ⟨target, paths⟩
  · simp
  · simp only [takeRequestLocks_ok_iff hfresh (requestBinaries_clean hinv hbinaries)]
    constructor
    · intro h
      exact ⟨target, paths, rfl, h⟩
    · rintro ⟨target', paths', heq, h⟩
      obtain ⟨rfl, rfl⟩ := Prod.mk.inj (Except.ok.inj heq)
      exact h

theorem reopen_of_mayReopen {caller : Caller} {projectID : ID} {number : ℤ} {mr : MergeRequest}
    {user : ID} (hmay : MayReopen s caller projectID number mr user) (serializer : Bool)
    (newID : ℕ → ID) :
    ∃ db', reopen serializer s caller projectID number newID =
      ({ s.updateStatus projectID number .opened none with db := db' },
        (ensureLocksForRequest serializer s.db caller.perm projectID mr user newID).2.map
          fun _ => { mr with status := .opened, mergeCommitID := none }) := by
  refine ⟨(ensureLocksForRequest serializer s.db caller.perm projectID mr user newID).1, ?_⟩
  simp only [reopen, setStatus_ok_iff.mpr ⟨mr, user, hmay⟩,
    getRequest_updateStatus_self hmay.found, hmay.claim]
  rfl

theorem reopen_unchanged_iff (hinv : s.db.StoreInv) {newID : ℕ → ID}
    (hfresh : FreshLockIDs s.db newID) (serializer : Bool) (caller : Caller) (projectID : ID)
    (number : ℤ) :
    (∀ s' err, reopen serializer s caller projectID number newID = (s', .error err) →
      LeavesRequest s s' projectID number) ↔
      ∀ mr user, MayReopen s caller projectID number mr user →
        LocksGranted s.db caller.perm projectID mr user := by
  constructor
  · intro h mr user hmay
    obtain ⟨db', hreopen⟩ := reopen_of_mayReopen hmay serializer newID
    rw [← ensureLocksForRequest_ok_iff hinv hfresh serializer]
    rcases hlocks : (ensureLocksForRequest serializer s.db caller.perm projectID mr user
      newID).2 with err | u
    · -- the status has been written by then
      rw [hlocks] at hreopen
      have hstatus := (h _ err hreopen).status_eq
      have hopened := getRequest_updateStatus_self hmay.found .opened none
      change ((s.updateStatus projectID number .opened none).getRequest projectID number).map
        MergeRequest.status = _ at hstatus
      rw [hopened, hmay.found, Option.map_some, Option.map_some, hmay.closed] at hstatus
      cases hstatus
    · rfl
  · intro h s' err hreopen
    by_cases hmay : ∃ mr user, MayReopen s caller projectID number mr user
    · obtain ⟨mr, user, hmay⟩ := hmay
      obtain ⟨db', hreopen'⟩ := reopen_of_mayReopen hmay serializer newID
      rw [(ensureLocksForRequest_ok_iff hinv hfresh serializer _ _ _ _).mpr (h mr user hmay)]
        at hreopen'
      cases (Prod.mk.inj (hreopen.symm.trans hreopen')).2
    · rw [← setStatus_ok_iff] at hmay
      rw [reopen] at hreopen
      rcases hset : setStatus s caller projectID number .closed with err' | u
      · rw [hset] at hreopen
        rw [← (Prod.mk.inj hreopen).1]
        exact ⟨rfl, rfl⟩
      · exact absurd hset hmay

theorem mergeLockStep_unchanged_iff {seen : ℕ → RequestStore H} (hinv : (seen 14).db.StoreInv)
    {lockID : ℕ → ID} (hfresh : FreshLockIDs (seen 15).db lockID) (serializer : Bool)
    (projectID : ID) (mr : MergeRequest) (info : Mergeability) (user : ID) :
    (∀ db' err, mergeLockStep serializer seen projectID mr info user lockID =
      (db', .error err) → db'.fileLocks = (seen 15).db.fileLocks) ↔
      serializer = true ∨ ∀ target paths,
        (seen 13).db.getBranchByName projectID mr.targetBranch = some target →
        binaryChangesBetween (seen 14).db projectID info.mergeBaseCommitID
          info.sourceCommitID = .ok paths →
        NoneFreeBeforeRefused ((seen 15).db.listProject projectID) (branchScopeID target) mr.id
          user mr.createdBy paths := by
  rcases htarget : (seen 13).db.getBranchByName projectID mr.targetBranch with _ | target
  · simp only [mergeLockStep, htarget, orError, bind, Except.bind, Prod.mk.injEq]
    constructor
    · intro _
      exact Or.inr fun target paths h => by cases h
    · rintro - db' err ⟨rfl, -⟩
      rfl
  · rcases hpaths : binaryChangesBetween (seen 14).db projectID info.mergeBaseCommitID
      info.sourceCommitID with err | paths
    · simp only [mergeLockStep, htarget, hpaths, orError, bind, Except.bind, Prod.mk.injEq]
      constructor
      · intro _
        exact Or.inr fun target paths _ h => by cases h
      · rintro - db' err ⟨rfl, -⟩
        rfl
    · simp only [mergeLockStep, htarget, hpaths, orError, bind, Except.bind, pure, Except.pure]
      rw [takeRequestLocks_unchanged_iff hfresh (binaryChangesBetween_clean hinv hpaths)]
      refine or_congr_right ⟨?_, fun h => h target paths rfl rfl⟩
      rintro h target' paths' ht hp
      obtain rfl := Option.some.inj ht
      obtain rfl := Except.ok.inj hp
      exact h

/-- A refused reopen leaves the request and the lock table alone exactly when every
call that gets as far as the locks is granted all of them.  A refused lock grant, by
itself or in a merge, leaves no lock behind exactly when it runs in a transaction or
no path before the first refused one is free. -/
theorem refused_locks_leave_nothing_iff {db : DB H} (seen : ℕ → RequestStore H)
    {newID : ℕ → ID} (hinv : s.db.StoreInv) (hseen : (seen 14).db.StoreInv)
    (hfresh : FreshLockIDs s.db newID) (hfresh' : FreshLockIDs db newID)
    (hfresh'' : FreshLockIDs (seen 15).db newID) {paths : List Str}
    (hclean : ∀ p ∈ paths, CleanPath p) (serializer : Bool) (caller : Caller)
    (projectID : ID) (number : ℤ) (mr : MergeRequest) (info : Mergeability) (target : Branch)
    (user : ID) :
    ((∀ s' err, reopen serializer s caller projectID number newID = (s', .error err) →
        LeavesRequest s s' projectID number) ↔
      ∀ mr user, MayReopen s caller projectID number mr user →
        LocksGranted s.db caller.perm projectID mr user) ∧
    ((∀ db' err, takeRequestLocks serializer db projectID mr.id target paths user mr.createdBy
        newID = (db', .error err) → db'.fileLocks = db.fileLocks) ↔
      serializer = true ∨ NoneFreeBeforeRefused (db.listProject projectID)
        (branchScopeID target) mr.id user mr.createdBy paths) ∧
    ((∀ db' err, mergeLockStep serializer seen projectID mr info user newID =
        (db', .error err) → db'.fileLocks = (seen 15).db.fileLocks) ↔
      serializer = true ∨ ∀ target paths,
        (seen 13).db.getBranchByName projectID mr.targetBranch = some target →
        binaryChangesBetween (seen 14).db projectID info.mergeBaseCommitID
          info.sourceCommitID = .ok paths →
        NoneFreeBeforeRefused ((seen 15).db.listProject projectID) (branchScopeID target) mr.id
          user mr.createdBy paths) :=
  ⟨reopen_unchanged_iff hinv hfresh serializer caller projectID number,
    takeRequestLocks_unchanged_iff hfresh' hclean,
    mergeLockStep_unchanged_iff hseen hfresh'' serializer projectID mr info user⟩

end Refused

/-! ## A request that comes back open -/

def binaryFile (path : String) : PushFile IdealHash :=
  ⟨path.toList, 0o644, 3, true, encodingRaw, fileHash [demoChunk 1], [demoChunk 1]⟩

def binaryPush : PushRequest IdealHash :=
  { demoSecond with
    files := [binaryFile "a.bin", binaryFile "b.bin"]
    removed := []
    paths_fit := by decide }

def secondLock : FileLock := ⟨11, 1, none, "b.bin".toList, 6, none⟩

/-- A closed request that adds two binaries to the mainline, one of which somebody has
locked meanwhile. -/
def closedStore (db₁ db₂ : DB IdealHash) : RequestStore IdealHash where
  db :=
    { db₂ with
      branches := [⟨1, 1, "main".toList, false, true, db₁.branches.head?.bind Branch.commitID,
          false⟩,
        ⟨2, 1, "feature".toList, false, false, db₂.branches.head?.bind Branch.commitID, false⟩]
      fileLocks := [secondLock] }
  policies _ := ⟨0, false, false, [], []⟩
  requests := [reviewRequest .closed]
  reviews := []
  checks := []

theorem secondLock_fresh (db₁ db₂ : DB IdealHash) :
    FreshLockIDs (closedStore db₁ db₂).db fun n => 20 + n := by
  refine ⟨fun a b h => Nat.add_left_cancel h, ?_⟩
  intro n l hl
  rw [List.mem_singleton.mp hl, secondLock]
  change (11 : ℕ) ≠ 20 + n
  omega

theorem binaryPaths_clean : ∀ p ∈ ["a.bin".toList, "b.bin".toList], CleanPath p := by
  intro p hp
  simp only [List.mem_cons, List.not_mem_nil, or_false] at hp
  rcases hp with rfl | rfl
  · exact cleanPath_of_name (by simp [ValidName])
  · exact cleanPath_of_name (by simp [ValidName])

theorem closedStore_inv {db₁ db₂ : DB IdealHash}
    (h₁ : push demoStore demoCaller 7 demoPush = .ok db₁)
    (h₂ : push db₁ demoCaller 8 binaryPush = .ok db₂) : (closedStore db₁ db₂).db.StoreInv := by
  have hempty : demoStore.Unborn := ⟨rfl, rfl, rfl⟩
  have hrun : PushRun demoStore db₂ := ((PushRun.refl demoStore).push h₁).push h₂
  exact ((hrun.grows hempty.storeInv IdealHash.collisionFree).inv').of_sameTrees ⟨rfl, rfl, rfl⟩

def binaryStore : DB IdealHash :=
  (push firstStore demoCaller 8 binaryPush).toOption.getD demoStore

theorem binaryStore_push : push firstStore demoCaller 8 binaryPush = .ok binaryStore :=
  eq_ok_of_toOption _ (by decide +kernel)

set_option maxRecDepth 4000 in
/-- With a serializer the first lock is taken back. -/
theorem refused_locks_leave_nothing_demo :
    ∃ db₁ db₂, push demoStore demoCaller 7 demoPush = .ok db₁ ∧
      push db₁ demoCaller 8 binaryPush = .ok db₂ ∧
      (takeRequestLocks true (closedStore db₁ db₂).db 1 9 lockMainline
        ["a.bin".toList, "b.bin".toList] 5 5 fun n => 20 + n).2 =
          .error (lockConflictError "b.bin".toList) ∧
      ∀ db' err, takeRequestLocks true (closedStore db₁ db₂).db 1 9 lockMainline
        ["a.bin".toList, "b.bin".toList] 5 5 (fun n => 20 + n) = (db', .error err) →
        db'.fileLocks = [secondLock] := by
  have hinv := closedStore_inv firstStore_push binaryStore_push
  have hfresh := secondLock_fresh firstStore binaryStore
  exact ⟨firstStore, binaryStore, firstStore_push, binaryStore_push, rfl,
    (refused_locks_leave_nothing_iff (fun _ => closedStore firstStore binaryStore) hinv hinv
      hfresh hfresh hfresh binaryPaths_clean true demoCaller 1 1 (reviewRequest .closed)
      ⟨.invalid, none, none, none, none⟩ lockMainline 5).2.1.mpr (Or.inl rfl)⟩

set_option maxRecDepth 4000 in
/-- Reopening is refused; the request is open and the first binary is locked. -/
theorem refused_reopen_leaves_open :
    ∃ db₁ db₂ s', push demoStore demoCaller 7 demoPush = .ok db₁ ∧
      push db₁ demoCaller 8 binaryPush = .ok db₂ ∧
      reopen false (closedStore db₁ db₂) demoCaller 1 1 (fun n => 20 + n) =
        (s', .error (lockConflictError "b.bin".toList)) ∧
      (s'.getRequest 1 1).map MergeRequest.status = some .opened ∧
      s'.db.fileLocks = [secondLock, ⟨20, 1, none, "a.bin".toList, 5, some 9⟩] ∧
      ¬ LeavesRequest (closedStore db₁ db₂) s' 1 1 := by
  refine ⟨firstStore, binaryStore, _, firstStore_push, binaryStore_push, rfl, rfl, rfl, ?_⟩
  intro hleaves
  have hstatus : some RequestStatus.opened = some .closed := hleaves.status_eq
  cases hstatus

end Nipa
