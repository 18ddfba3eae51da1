import Nipa.Locks
import Nipa.Prefixes
import Nipa.Support.Runs

/-!
# The lock table

Locks are granted to users on files and directories, and to merge requests on
the binaries they change.  A grant looks for locks above and below the wanted
path; the locks of a merge request only look above.  Where no lock of another
user lies below a path that a merge request locks, no two users ever hold
overlapping locks of one scope.
-/

namespace Nipa

open Support

/-! ## Rows -/

section Rows

variable {H : Type}

/-- Insert a lock row; a scope holds one lock per path. -/
def createLock (db : DB H) (lock : FileLock) : Except DomainError (DB H) := do
  refuseIf (∃ l ∈ db.fileLocks, l.id = lock.id ∨
      l.projectID = lock.projectID ∧ l.branchID = lock.branchID ∧ l.path = lock.path)
    (errConflict "record already exists" [])
  return { db with fileLocks := db.fileLocks ++ [lock] }

def getLock (db : DB H) (projectID : ID) (path : Str) (branchID : Option ID) :
    Option FileLock :=
  db.fileLocks.find? fun l => l.projectID = projectID && l.path = path && l.branchID = branchID

def deleteLock (db : DB H) (id : ID) : Except DomainError (DB H) := do
  refuseIf (¬ ∃ l ∈ db.fileLocks, l.id = id) (errNotFound "record not found" [])
  return { db with fileLocks := db.fileLocks.filter fun l => l.id ≠ id }

def getDefaultBranch (db : DB H) (projectID : ID) : Option Branch :=
  db.branches.find? fun b => b.projectID = projectID && b.isDefault && !b.deleted

end Rows

/-! ## Locks of users -/

structure LockScope where
  branchID : Option ID
  branchName : Str

def LockScope.describe (scope : LockScope) : Str :=
  if scope.branchID = none then "mainline".toList
  else "branch \"".toList ++ scope.branchName ++ "\"".toList

section Users

variable {H : Type}

def resolveScope (db : DB H) (projectID : ID) (branchName : Str) :
    Except DomainError LockScope :=
  if trimSpace branchName = [] then do
    let branch ← orError (getDefaultBranch db projectID)
      (errNotFound "default branch not found" [])
    return ⟨none, branch.name⟩
  else do
    let branch ← orError (db.getBranchByName projectID branchName)
      (errNotFound "branch %q not found" [branchName])
    if branch.isDefault then return ⟨none, branch.name⟩
    else return ⟨some branch.id, branch.name⟩

def normalizeLockPath (path : Str) : Except DomainError Str := do
  let norm ← orError (normalizePathPrefix path)
    (errUser "invalid path prefix %q: must not contain a .. segment" [path])
  refuseIf (norm = []) (errUser "path is required" [])
  return norm

def lockPathsOverlap (a b : Str) : Bool :=
  prefixCovers a b || prefixCovers b a

/-- Go through the locks in the way of a grant: a lock of the holder that covers
the path is returned, one of somebody else is a conflict. -/
def scanLocks (scopeID : Option ID) (norm : Str) (holder : ID) :
    List FileLock → Except DomainError (Option FileLock)
  | [] => .ok none
  | lock :: rest =>
      if lock.branchID = scopeID ∧ lockPathsOverlap lock.path norm = true then
        if lock.heldBy = holder then
          if prefixCovers lock.path norm then .ok (some lock)
          else scanLocks scopeID norm holder rest
        else .error (lockConflictError norm)
      else scanLocks scopeID norm holder rest

def grant (db : DB H) (newID projectID : ID) (norm : Str) (scope : LockScope) (holder : ID) :
    Except DomainError (DB H × FileLock) := do
  match ← scanLocks scope.branchID norm holder (db.listProject projectID) with
  | some lock => return (db, lock)
  | none =>
      let lock : FileLock := ⟨newID, projectID, scope.branchID, norm, holder, none⟩
      match createLock db lock with
      | .ok db' => return (db', lock)
      | .error err =>
          match getLock db projectID norm scope.branchID with
          | none => .error err
          | some existing =>
              refuseIf (existing.heldBy ≠ holder) (lockConflictError norm)
              return (db, existing)

def acquire (db : DB H) (caller : Caller) (newID projectID : ID) (branchName path : Str) :
    Except DomainError (DB H × FileLock) := do
  let holder ← orError caller.claim errNoPermission
  refuseIf (caller.perm.hasProjectAccess .write = false) errNoPermission
  let norm ← normalizeLockPath path
  refuseIf (caller.perm.hasPathAccess norm .write = false) errNoPermission
  let scope ← resolveScope db projectID branchName
  grant db newID projectID norm scope holder

/-- The holder and project admins may release a lock. -/
def release (db : DB H) (caller : Caller) (projectID : ID) (branchName path : Str) :
    Except DomainError (DB H) := do
  let user ← orError caller.claim errNoPermission
  refuseIf (caller.perm.hasProjectAccess .write = false) errNoPermission
  let norm ← normalizeLockPath path
  let scope ← resolveScope db projectID branchName
  let lock ← orError (getLock db projectID norm scope.branchID)
    (errNotFound "no lock on %q in %s" [norm, scope.describe])
  refuseIf (lock.heldBy ≠ user ∧ caller.perm.adminHasProject = false) errNoPermission
  deleteLock db lock.id

end Users

/-! ## Locks of merge requests -/

section Requests

variable {H : Type}

def mergeRequestLockAccepted (lock : FileLock) (mergeRequestID holder author : ID) : Bool :=
  lock.mergeRequestID = some mergeRequestID || lock.heldBy = holder || lock.heldBy = author

/-- Lock the free paths for the request one by one.  An error leaves the locks
created before it, unless the caller's transaction is rolled back. -/
def ensureEach (projectID mergeRequestID : ID) (scopeID : Option ID) (holder author : ID)
    (newID : ℕ → ID) :
    List Str → ℕ → DB H → List FileLock → DB H × Except DomainError Unit
  | [], _, db, _ => (db, .ok ())
  | path :: rest, n, db, locks =>
      match findCoveringLock locks scopeID path with
      | some lock =>
          if mergeRequestLockAccepted lock mergeRequestID holder author then
            ensureEach projectID mergeRequestID scopeID holder author newID rest n db locks
          else (db, .error (lockConflictError path))
      | none =>
          let lock : FileLock :=
            ⟨newID n, projectID, scopeID, path, holder, some mergeRequestID⟩
          match createLock db lock with
          | .ok db' =>
              ensureEach projectID mergeRequestID scopeID holder author newID rest (n + 1) db'
                (locks ++ [lock])
          | .error err =>
              match getLock db projectID path scopeID with
              | none => (db, .error err)
              | some existing =>
                  if mergeRequestLockAccepted existing mergeRequestID holder author then
                    ensureEach projectID mergeRequestID scopeID holder author newID rest
                      (n + 1) db locks
                  else (db, .error (lockConflictError path))

def ensureMergeRequestLocks (db : DB H) (projectID mergeRequestID : ID) (target : Branch)
    (paths : List Str) (holder author : ID) (newID : ℕ → ID) :
    DB H × Except DomainError Unit :=
  if paths = [] then (db, .ok ())
  else ensureEach projectID mergeRequestID (branchScopeID target) holder author newID paths 0
    db (db.listProject projectID)

def releaseForMergeRequest (db : DB H) (projectID mergeRequestID : ID) : DB H :=
  { db with
    fileLocks := db.fileLocks.filter fun l =>
      !(l.projectID = projectID && l.mergeRequestID = some mergeRequestID) }

def releaseBranch (db : DB H) (projectID branchID : ID) : DB H :=
  { db with
    fileLocks := db.fileLocks.filter fun l =>
      !(l.projectID = projectID && l.branchID = some branchID) }

end Requests

/-! ## Overlapping paths -/

/-- Two lock paths overlap: they are equal, or one is a directory above the
other. -/
def Overlap (a b : Str) : Prop :=
  a = b ∨ a ++ ['/'] <+: b ∨ b ++ ['/'] <+: a

theorem prefixCovers_iff {a b : Str} (ha : CleanPath a) (hb : CleanPath b) :
    prefixCovers a b = true ↔ a = b ∨ a ++ ['/'] <+: b := by
  obtain ⟨ps, hps, rfl⟩ := ha
  obtain ⟨qs, hqs, rfl⟩ := hb
  rw [prefixCovers_pathOf hps hqs, below_pathOf_iff hps hqs]
  constructor
  · intro h
    by_cases heq : ps = qs
    · exact Or.inl (by rw [heq])
    · exact Or.inr ⟨h, heq⟩
  · rintro (heq | ⟨h, -⟩)
    · rw [pathOf_injective hps hqs heq]
    · exact h

theorem lockPathsOverlap_iff {a b : Str} (ha : CleanPath a) (hb : CleanPath b) :
    lockPathsOverlap a b = true ↔ Overlap a b := by
  rw [lockPathsOverlap, Bool.or_eq_true, prefixCovers_iff ha hb, prefixCovers_iff hb ha,
    Overlap]
  constructor
  · rintro ((h | h) | (h | h))
    · exact Or.inl h
    · exact Or.inr (Or.inl h)
    · exact Or.inl h.symm
    · exact Or.inr (Or.inr h)
  · rintro (h | h | h)
    · exact Or.inl (Or.inl h)
    · exact Or.inl (Or.inr h)
    · exact Or.inr (Or.inr h)

theorem Overlap.symm {a b : Str} (h : Overlap a b) : Overlap b a := by
  rcases h with h | h | h
  · exact Or.inl h.symm
  · exact Or.inr (Or.inr h)
  · exact Or.inr (Or.inl h)

/-- Two locks of one project and one branch, or both of its mainline. -/
def SameScope (l l' : FileLock) : Prop :=
  l.projectID = l'.projectID ∧ l.branchID = l'.branchID

/-- No two users hold overlapping locks of one scope. -/
def Exclusive (locks : List FileLock) : Prop :=
  ∀ l ∈ locks, ∀ l' ∈ locks, SameScope l l' → l.heldBy ≠ l'.heldBy → ¬ Overlap l.path l'.path

/-- The lock table: paths are normalised and locks exclude each other. -/
structure LockInv (locks : List FileLock) : Prop where
  clean : ∀ l ∈ locks, CleanPath l.path
  exclusive : Exclusive locks

theorem LockInv.subset {locks locks' : List FileLock} (h : LockInv locks)
    (hsub : ∀ l ∈ locks', l ∈ locks) : LockInv locks' := by
  constructor
  · intro l hl
    exact h.clean l (hsub l hl)
  · intro l hl l' hl'
    exact h.exclusive l (hsub l hl) l' (hsub l' hl')

/-- A table whose new locks all have one holder is exclusive when they overlap
no old lock of somebody else. -/
theorem LockInv.extend {locks locks' : List FileLock} (h : LockInv locks) {holder : ID}
    (hnew : ∀ l ∈ locks', l ∈ locks ∨ (l.heldBy = holder ∧ CleanPath l.path ∧
      ∀ m ∈ locks, SameScope m l → m.heldBy ≠ holder → ¬ Overlap m.path l.path)) :
    LockInv locks' := by
  constructor
  · intro l hl
    rcases hnew l hl with hold | ⟨-, hclean, -⟩
    · exact h.clean l hold
    · exact hclean
  · intro l hl l' hl' hscope hne
    rcases hnew l hl with hold | ⟨hholder, -, hfree⟩
    · rcases hnew l' hl' with hold' | ⟨hholder', -, hfree'⟩
      · exact h.exclusive l hold l' hold' hscope hne
      · exact hfree' l hold hscope (hholder' ▸ hne)
    · rcases hnew l' hl' with hold' | ⟨hholder', -, -⟩
      · intro hover
        refine hfree l' hold' ⟨hscope.1.symm, hscope.2.symm⟩ ?_ hover.symm
        rw [← hholder]
        exact hne.symm
      · exact absurd (hholder.trans hholder'.symm) hne

/-! ## What the operations do to the table -/

section Table

variable {H : Type} {db db' : DB H}

variable {projectID : ID}

theorem mem_listProject {l : FileLock} :
    l ∈ db.listProject projectID ↔ l ∈ db.fileLocks ∧ l.projectID = projectID := by
  rw [DB.listProject, List.mem_insertionSort, List.mem_filter, decide_eq_true_eq]

theorem createLock_ok {lock : FileLock} (h : createLock db lock = .ok db') :
    db' = { db with fileLocks := db.fileLocks ++ [lock] } := by
  rw [createLock] at h
  simp only [bind_eq_ok, pure_eq_ok] at h
  obtain ⟨_, -, rfl⟩ := h
  rfl

variable {scopeID : Option ID} {holder : ID}

theorem scanLocks_none {norm : Str} {locks : List FileLock}
    (h : scanLocks scopeID norm holder locks = .ok none) :
    ∀ l ∈ locks, l.branchID = scopeID → lockPathsOverlap l.path norm = true →
      l.heldBy = holder := by
  induction locks with
  | nil => simp
  | cons lock rest ih =>
      rw [scanLocks] at h
      intro l hl hscope hover
      rcases List.mem_cons.mp hl with rfl | hl
      · rw [if_pos ⟨hscope, hover⟩] at h
        by_contra hne
        rw [if_neg hne] at h
        simp at h
      · split at h
        · split at h
          · split at h
            · simp at h
            · exact ih h l hl hscope hover
          · simp at h
        · exact ih h l hl hscope hover

theorem grant_ok {newID : ID} {norm : Str} {scope : LockScope} {lock : FileLock}
    (h : grant db newID projectID norm scope holder = .ok (db', lock)) :
    db' = db ∨ (db' = { db with fileLocks := db.fileLocks ++ [lock] } ∧
      lock = ⟨newID, projectID, scope.branchID, norm, holder, none⟩ ∧
      ∀ l ∈ db.fileLocks, SameScope l lock → lockPathsOverlap l.path norm = true →
        l.heldBy = holder) := by
  rw [grant] at h
  obtain ⟨found, hscan, h⟩ := bind_eq_ok.mp h
  rcases found with _ | found
  · simp only at h
    split at h
    next db₁ hcreate =>
      obtain ⟨rfl, rfl⟩ := Prod.mk.inj (pure_eq_ok.mp h)
      refine Or.inr ⟨createLock_ok hcreate, rfl, ?_⟩
      rintro l hl ⟨hproject, hbranch⟩ hover
      exact scanLocks_none hscan l (mem_listProject.mpr ⟨hl, hproject⟩) hbranch hover
    next err herr =>
      split at h
      · simp at h
      · obtain ⟨_, -, h⟩ := bind_eq_ok.mp h
        exact Or.inl (Prod.mk.inj (pure_eq_ok.mp h)).1.symm
  · exact Or.inl (Prod.mk.inj (pure_eq_ok.mp h)).1.symm

variable {path : Str}

theorem normalizeLockPath_clean {norm : Str} (h : normalizeLockPath path = .ok norm) :
    CleanPath norm := by
  rw [normalizeLockPath] at h
  simp only [bind_eq_ok, orError_eq_ok, refuseIf_eq_ok, pure_eq_ok] at h
  obtain ⟨p, hp, _, hne, rfl⟩ := h
  exact normalizePathPrefix_clean hp hne

theorem LockInv.acquire (h : LockInv db.fileLocks) {caller : Caller} {newID : ID} {branchName : Str}
    {lock : FileLock} (hacq : acquire db caller newID projectID branchName path = .ok (db', lock)) :
    LockInv db'.fileLocks := by
  rw [Nipa.acquire] at hacq
  simp only [bind_eq_ok, orError_eq_ok] at hacq
  obtain ⟨holder, -, _, -, norm, hnorm, _, -, scope, -, hgrant⟩ := hacq
  have hclean := normalizeLockPath_clean hnorm
  rcases grant_ok hgrant with rfl | ⟨rfl, rfl, hfree⟩
  · exact h
  · apply h.extend
    intro l hl
    rcases List.mem_append.mp hl with hl | hl
    · exact Or.inl hl
    · rw [List.mem_singleton.mp hl]
      refine Or.inr ⟨rfl, hclean, ?_⟩
      intro m hm hscope hne hover
      exact hne (hfree m hm hscope ((lockPathsOverlap_iff (h.clean m hm) hclean).mpr hover))

theorem release_subset {caller : Caller} {branchName : Str}
    (h : release db caller projectID branchName path = .ok db') :
    ∀ l ∈ db'.fileLocks, l ∈ db.fileLocks := by
  rw [release] at h
  simp only [bind_eq_ok] at h
  obtain ⟨_, -, _, -, _, -, _, -, lock, -, _, -, h⟩ := h
  rw [deleteLock] at h
  simp only [bind_eq_ok, pure_eq_ok] at h
  obtain ⟨_, -, rfl⟩ := h
  intro l hl
  exact (List.mem_filter.mp hl).1

/-- Only locks are added, held by `holder` on paths that no lock covered. -/
structure RequestLocked (db : DB H) (projectID : ID) (scopeID : Option ID) (holder : ID)
    (paths : List Str) (db' : DB H) : Prop where
  rest_eq : db' = { db with fileLocks := db'.fileLocks }
  kept : ∀ l ∈ db.fileLocks, l ∈ db'.fileLocks
  added : ∀ l ∈ db'.fileLocks, l ∈ db.fileLocks ∨
    (l.projectID = projectID ∧ l.branchID = scopeID ∧ l.heldBy = holder ∧ l.path ∈ paths ∧
      ∀ m ∈ db.fileLocks, m.projectID = projectID → m.branchID = scopeID →
        prefixCovers m.path l.path = false)

theorem RequestLocked.refl (db : DB H) (projectID : ID) (scopeID : Option ID) (holder : ID)
    (paths : List Str) : RequestLocked db projectID scopeID holder paths db :=
  ⟨rfl, fun _ hl => hl, fun _ hl => Or.inl hl⟩

theorem RequestLocked.weaken {paths : List Str}
    (h : RequestLocked db projectID scopeID holder paths db') :
    RequestLocked db projectID scopeID holder (path :: paths) db' := by
  refine ⟨h.rest_eq, h.kept, ?_⟩
  intro l hl
  rcases h.added l hl with hold | ⟨hproject, hbranch, hholder, hpath, hfree⟩
  · exact Or.inl hold
  · exact Or.inr ⟨hproject, hbranch, hholder, List.mem_cons_of_mem _ hpath, hfree⟩

/-- A lock in the scope that covers the path. -/
def Covered (db : DB H) (projectID : ID) (scopeID : Option ID) (path : Str) : Prop :=
  ∃ l ∈ db.fileLocks, l.projectID = projectID ∧ l.branchID = scopeID ∧
    prefixCovers l.path path = true

theorem prefixCovers_self {p : Str} (hp : CleanPath p) : prefixCovers p p = true :=
  (prefixCovers_iff hp hp).mpr (Or.inl rfl)

theorem ensureEach_spec {mergeRequestID author : ID} {newID : ℕ → ID} {paths : List Str} {n : ℕ}
    {locks : List FileLock} {r : Except DomainError Unit} (hclean : ∀ p ∈ paths, CleanPath p)
    (hlocks : ∀ l, l ∈ locks ↔ l ∈ db.fileLocks ∧ l.projectID = projectID)
    (h : ensureEach projectID mergeRequestID scopeID holder author newID paths n db locks =
      (db', r)) :
    RequestLocked db projectID scopeID holder paths db' ∧
      (r = .ok () → ∀ p ∈ paths, Covered db' projectID scopeID p) := by
  induction paths generalizing n db locks with
  | nil =>
      obtain ⟨rfl, rfl⟩ := Prod.mk.inj h
      exact ⟨RequestLocked.refl _ _ _ _ _, by simp⟩
  | cons path rest ih =>
      have hrest : ∀ p ∈ rest, CleanPath p := fun p hp => hclean p (List.mem_cons_of_mem _ hp)
      have hpath := hclean path (by simp)
      -- a covered path is left alone, and so are the locks
      have hskip : ∀ {n' : ℕ}, Covered db projectID scopeID path →
          ensureEach projectID mergeRequestID scopeID holder author newID rest n' db locks =
            (db', r) →
          RequestLocked db projectID scopeID holder (path :: rest) db' ∧
            (r = .ok () → ∀ p ∈ path :: rest, Covered db' projectID scopeID p) := by
        rintro n' ⟨l, hl, hscope⟩ h'
        obtain ⟨hreq, hcov⟩ := ih hrest hlocks h'
        refine ⟨hreq.weaken, ?_⟩
        intro hr p hp
        rcases List.mem_cons.mp hp with rfl | hp
        · exact ⟨l, hreq.kept l hl, hscope⟩
        · exact hcov hr p hp
      rw [ensureEach] at h
      split at h
      next lock hfind =>
        have hcovers : Covered db projectID scopeID path := by
          obtain ⟨hmem, hproject⟩ := (hlocks lock).mp (List.mem_of_find?_eq_some hfind)
          have hcond := List.find?_some hfind
          rw [Bool.and_eq_true, decide_eq_true_eq] at hcond
          exact ⟨lock, hmem, hproject, hcond.1, hcond.2⟩
        split at h
        · exact hskip hcovers h
        · obtain ⟨rfl, rfl⟩ := Prod.mk.inj h
          exact ⟨RequestLocked.refl _ _ _ _ _, by simp⟩
      next hfind =>
        have hfree : ∀ m ∈ db.fileLocks, m.projectID = projectID → m.branchID = scopeID →
            prefixCovers m.path path = false := by
          intro m hm hproject hbranch
          have hnot := List.find?_eq_none.mp hfind m ((hlocks m).mpr ⟨hm, hproject⟩)
          rw [Bool.and_eq_true, decide_eq_true_eq, not_and] at hnot
          exact Bool.eq_false_iff.mpr (hnot hbranch)
        dsimp only at h
        split at h
        next db₁ hcreate =>
          obtain rfl := createLock_ok hcreate
          set lock : FileLock :=
            ⟨newID n, projectID, scopeID, path, holder, some mergeRequestID⟩ with hlock
          have hlocks' : ∀ l, l ∈ locks ++ [lock] ↔
              l ∈ db.fileLocks ++ [lock] ∧ l.projectID = projectID := by
            intro l
            rw [List.mem_append, List.mem_append, hlocks]
            constructor
            · rintro (⟨hl, hproject⟩ | hl)
              · exact ⟨Or.inl hl, hproject⟩
              · refine ⟨Or.inr hl, ?_⟩
                rw [List.mem_singleton.mp hl]
            · rintro ⟨hl | hl, hproject⟩
              · exact Or.inl ⟨hl, hproject⟩
              · exact Or.inr hl
          obtain ⟨hreq, hcov⟩ := ih hrest hlocks' h
          have hnew : lock ∈ db'.fileLocks :=
            hreq.kept lock (List.mem_append_right _ (List.mem_singleton_self _))
          refine ⟨⟨hreq.rest_eq, fun l hl => hreq.kept l (List.mem_append_left _ hl), ?_⟩, ?_⟩
          · intro l hl
            rcases hreq.added l hl with hold | ⟨hproject, hbranch, hholder, hp, hnot⟩
            · rcases List.mem_append.mp hold with hold | hold
              · exact Or.inl hold
              · rw [List.mem_singleton.mp hold]
                exact Or.inr ⟨rfl, rfl, rfl, by simp [hlock], hfree⟩
            · refine Or.inr ⟨hproject, hbranch, hholder, List.mem_cons_of_mem _ hp, ?_⟩
              intro m hm
              exact hnot m (List.mem_append_left _ hm)
          · intro hr p hp
            rcases List.mem_cons.mp hp with rfl | hp
            · exact ⟨lock, hnew, rfl, rfl, prefixCovers_self hpath⟩
            · exact hcov hr p hp
        next err herr =>
          split at h
          · obtain ⟨rfl, rfl⟩ := Prod.mk.inj h
            exact ⟨RequestLocked.refl _ _ _ _ _, by simp⟩
          next existing hget =>
            split at h
            · refine hskip ?_ h
              have hcond := List.find?_some hget
              simp only [Bool.and_eq_true, decide_eq_true_eq] at hcond
              refine ⟨existing, List.mem_of_find?_eq_some hget, hcond.1.1, hcond.2, ?_⟩
              rw [hcond.1.2]
              exact prefixCovers_self hpath
            · obtain ⟨rfl, rfl⟩ := Prod.mk.inj h
              exact ⟨RequestLocked.refl _ _ _ _ _, by simp⟩

theorem ensureMergeRequestLocks_spec {mergeRequestID author : ID} {target : Branch} {newID : ℕ → ID}
    {paths : List Str} {r : Except DomainError Unit} (hclean : ∀ p ∈ paths, CleanPath p)
    (h : ensureMergeRequestLocks db projectID mergeRequestID target paths holder author newID =
      (db', r)) :
    RequestLocked db projectID (branchScopeID target) holder paths db' ∧
      (r = .ok () → ∀ p ∈ paths, Covered db' projectID (branchScopeID target) p) := by
  rw [ensureMergeRequestLocks] at h
  split at h
  next hnil =>
    obtain ⟨rfl, rfl⟩ := Prod.mk.inj h
    subst hnil
    exact ⟨RequestLocked.refl _ _ _ _ _, by simp⟩
  · exact ensureEach_spec hclean (fun l => mem_listProject) h

end Table

/-! ## Runs of lock operations -/

section Runs

variable {H : Type}

inductive LockEvent where
  | acquire
  | release (caller : Caller) (projectID : ID) (branchName path : Str)
  | requestLocks (projectID : ID) (target : Branch) (paths : List Str) (holder : ID)
  | releaseLanded (projectID : ID) (branch : Branch) (paths : List Str) (holder : ID)
  | releaseForMergeRequest (projectID mergeRequestID : ID)
  | releaseBranch (projectID branchID : ID)
  | other

/-- The operations on locks, with anything in between that leaves them alone.
The paths of a merge request come from stored trees, so they are normalised; its
locks can be cut short by an error. -/
inductive LockStep : DB H → LockEvent → DB H → Prop where
  | acquire {db db' : DB H} {caller : Caller} {newID projectID : ID} {branchName path : Str}
      {lock : FileLock} (h : acquire db caller newID projectID branchName path = .ok (db', lock)) :
      LockStep db .acquire db'
  | release {db db' : DB H} {caller : Caller} {projectID : ID} {branchName path : Str}
      (h : release db caller projectID branchName path = .ok db') :
      LockStep db (.release caller projectID branchName path) db'
  | requestLocks {db db' : DB H} {projectID mergeRequestID holder author : ID} {target : Branch}
      {paths : List Str} {newID : ℕ → ID} {r : Except DomainError Unit}
      (hclean : ∀ p ∈ paths, CleanPath p)
      (h : ensureMergeRequestLocks db projectID mergeRequestID target paths holder author newID =
        (db', r)) :
      LockStep db (.requestLocks projectID target paths holder) db'
  | releaseLanded {db : DB H} {projectID holder : ID} {branch : Branch} {paths : List Str} :
      LockStep db (.releaseLanded projectID branch paths holder)
        (releaseLanded db projectID branch paths holder)
  | releaseForMergeRequest {db : DB H} {projectID mergeRequestID : ID} :
      LockStep db (.releaseForMergeRequest projectID mergeRequestID)
        (releaseForMergeRequest db projectID mergeRequestID)
  | releaseBranch {db : DB H} {projectID branchID : ID} :
      LockStep db (.releaseBranch projectID branchID) (releaseBranch db projectID branchID)
  | other {db db' : DB H} (h : db'.fileLocks = db.fileLocks) : LockStep db .other db'

/-- A merge request locks no free path that has a lock of somebody else below
it. -/
def NoneBelow (db : DB H) : LockEvent → Prop
  | .requestLocks projectID target paths holder =>
      ∀ p ∈ paths, ¬ Covered db projectID (branchScopeID target) p →
        ∀ l ∈ db.fileLocks, l.projectID = projectID → l.branchID = branchScopeID target →
          p ++ ['/'] <+: l.path → l.heldBy = holder
  | _ => True

variable {db db' : DB H}

theorem LockInv.requestLocks (h : LockInv db.fileLocks) {projectID holder : ID}
    {target : Branch} {paths : List Str} (hclean : ∀ p ∈ paths, CleanPath p)
    (hcond : NoneBelow db (.requestLocks projectID target paths holder))
    (hreq : RequestLocked db projectID (branchScopeID target) holder paths db') :
    LockInv db'.fileLocks := by
  apply h.extend
  intro l hl
  rcases hreq.added l hl with hold | ⟨hproject, hbranch, hholder, hpath, hfree⟩
  · exact Or.inl hold
  · refine Or.inr ⟨hholder, hclean _ hpath, ?_⟩
    rintro m hm ⟨hproject', hbranch'⟩ hne hover
    have hm' := hfree m hm (hproject'.trans hproject) (hbranch'.trans hbranch)
    have habove : ¬ (m.path = l.path ∨ m.path ++ ['/'] <+: l.path) := by
      rw [← prefixCovers_iff (h.clean m hm) (hclean _ hpath), hm']
      simp
    rcases hover with heq | hover | hbelow
    · exact habove (Or.inl heq)
    · exact habove (Or.inr hover)
    · refine hne (hcond l.path hpath ?_ m hm (hproject'.trans hproject)
        (hbranch'.trans hbranch) hbelow)
      rintro ⟨k, hk, hkp, hkb, hcov⟩
      rw [hfree k hk hkp hkb] at hcov
      simp at hcov

/-- When the locks of a merge request are taken, the table stays exclusive
exactly when nobody else has a lock below a path that was free. -/
theorem requestLocks_exclusive_iff (h : LockInv db.fileLocks)
    {projectID mergeRequestID holder author : ID} {target : Branch} {paths : List Str}
    {newID : ℕ → ID} (hclean : ∀ p ∈ paths, CleanPath p)
    (hreq : ensureMergeRequestLocks db projectID mergeRequestID target paths holder author
      newID = (db', .ok ())) :
    Exclusive db'.fileLocks ↔ NoneBelow db (.requestLocks projectID target paths holder) := by
  obtain ⟨hlocked, hcov⟩ := ensureMergeRequestLocks_spec hclean hreq
  constructor
  · intro hex p hp hfree l hl hproject hbranch hbelow
    by_contra hne
    obtain ⟨m, hm, hmp, hmb, hmc⟩ := hcov rfl p hp
    -- the lock that covers the path now was not there before
    rcases hlocked.added m hm with hold | ⟨-, -, hholder, hmpath, -⟩
    · exact hfree ⟨m, hold, hmp, hmb, hmc⟩
    · refine hex l (hlocked.kept l hl) m hm ⟨hproject.trans hmp.symm, hbranch.trans hmb.symm⟩
        (hholder ▸ hne) (Or.inr (Or.inr ?_))
      rcases (prefixCovers_iff (hclean _ hmpath) (hclean p hp)).mp hmc with heq | habove
      · rwa [heq]
      · exact (habove.trans (List.prefix_append p ['/'])).trans hbelow
  · intro hcond
    exact (h.requestLocks hclean hcond hlocked).exclusive

theorem LockInv.step (h : LockInv db.fileLocks) {e : LockEvent} (hcond : NoneBelow db e)
    (hstep : LockStep db e db') : LockInv db'.fileLocks := by
  cases hstep with
  | acquire hacq => exact h.acquire hacq
  | release hrel => exact h.subset (release_subset hrel)
  | requestLocks hclean hreq =>
      exact h.requestLocks hclean hcond (ensureMergeRequestLocks_spec hclean hreq).1
  | releaseLanded => exact h.subset fun l hl => (List.mem_filter.mp hl).1
  | releaseForMergeRequest => exact h.subset fun l hl => (List.mem_filter.mp hl).1
  | releaseBranch => exact h.subset fun l hl => (List.mem_filter.mp hl).1
  | other heq => rwa [heq]

/-- No two users ever hold overlapping locks of one scope, when merge requests
lock no free path above somebody else's lock. -/
theorem locks_exclusive {db₀ : DB H} (hempty : db₀.fileLocks = [])
    (hrun : Run LockStep NoneBelow db₀ db) : Exclusive db.fileLocks := by
  have hinit : LockInv db₀.fileLocks := by
    rw [hempty]
    exact ⟨by simp, fun l hl => absurd hl (by simp)⟩
  exact (hrun.invariant (I := fun db => LockInv db.fileLocks) hinit
    fun _ _ _ h hcond hstep => h.step hcond hstep).exclusive

end Runs

/-! ## A lock below a request's path -/

def lockStore : DB ℕ where
  treeNodes := []
  files := []
  chunks := []
  projectChunkUploads := []
  commits := []
  branches := [⟨1, 1, "main".toList, false, true, none, false⟩]
  fileLocks := []

def lockMainline : Branch := ⟨1, 1, "main".toList, false, true, none, false⟩

def lockUser (user : ID) : Caller := ⟨⟨fun _ => true, fun _ _ => true, false⟩, some user⟩

theorem cleanPath_of_name {n : Str} (hn : ValidName n) : CleanPath n :=
  ⟨[n], ⟨by simp, by simpa using hn⟩, (pathOf_singleton n).symm⟩

/-- One user locks a file, and a merge request of another one locks its own. -/
theorem locks_exclusive_demo :
    ∃ db, Run LockStep NoneBelow lockStore db ∧ db.fileLocks.length = 2 ∧
      Exclusive db.fileLocks := by
  suffices hsteps : ∃ db, Run LockStep NoneBelow lockStore db ∧ db.fileLocks.length = 2 by
    obtain ⟨db, hrun, hlen⟩ := hsteps
    exact ⟨db, hrun, hlen, locks_exclusive rfl hrun⟩
  refine ⟨_, ((Run.refl lockStore).tail (e := LockEvent.acquire) trivial
    (.acquire (rfl : acquire lockStore (lockUser 6) 11 1 [] "models/x.fbx".toList =
      .ok _))).tail (e := LockEvent.requestLocks 1 lockMainline ["a.bin".toList] 5) ?_
    (.requestLocks ?_ (rfl : ensureMergeRequestLocks _ 1 9 lockMainline ["a.bin".toList] 5 5
      (fun n => 20 + n) = _)), rfl⟩
  · intro p hp _ l hl _ _ hbelow
    obtain rfl := List.mem_singleton.mp hp
    obtain rfl := List.mem_singleton.mp hl
    exact absurd hbelow (by decide)
  · intro p hp
    obtain rfl := List.mem_singleton.mp hp
    exact cleanPath_of_name (by simp [ValidName])

/-- A merge request takes a path while another user's lock is below it. -/
theorem lock_above_lock_taken :
    ∃ db, Run LockStep (fun _ _ => True) lockStore db ∧ ¬ Exclusive db.fileLocks := by
  refine ⟨_, ((Run.refl lockStore).tail (e := LockEvent.acquire) trivial
    (.acquire (rfl : acquire lockStore (lockUser 6) 11 1 [] "models/x.fbx".toList =
      .ok _))).tail (e := LockEvent.requestLocks 1 lockMainline ["models".toList] 5) trivial
    (.requestLocks ?_ (rfl : ensureMergeRequestLocks _ 1 9 lockMainline ["models".toList] 5 5
      (fun n => 20 + n) = _)), ?_⟩
  · intro p hp
    obtain rfl := List.mem_singleton.mp hp
    exact cleanPath_of_name (by simp [ValidName])
  · intro hex
    refine hex _ (List.mem_cons_self ..) _ (List.mem_cons_of_mem _ (List.mem_cons_self ..))
      ⟨rfl, rfl⟩ (by decide) (Or.inr (Or.inr ?_))
    decide

end Nipa
