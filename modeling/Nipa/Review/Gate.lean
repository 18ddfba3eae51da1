import Nipa.Review.CarryOver
import Nipa.LockTable
import Nipa.Server.System

/-!
# The merge gate

Merging a request reads the request, the two branch rows, the reviews and the
status checks one query after the other, and lands the source only if its head
is still the one that was read first.  Other requests run in between, so a call
is described by what each of its queries sees: `seen n` is the store as the
`n`-th query of the call finds it.

Source heads do not come back to an earlier commit, so a head that is the same
when the gate begins and when the source is landed was the same in between, and
the reviews that were counted are reviews of what is landed.
-/

namespace Nipa

open Support

/-! ## Mergeability -/

inductive BlockReason where
  | changesRequested
  | approvals
  | draft
  | requiredReviewers
  | checks
  deriving DecidableEq

inductive MergeabilityStatus where
  | request (status : RequestStatus)
  | mergeable
  | behind
  | upToDate
  | invalid
  deriving DecidableEq

def MergeabilityStatus.text : MergeabilityStatus → Str
  | request status => status.text
  | mergeable => "mergeable".toList
  | behind => "behind_target".toList
  | upToDate => "up_to_date".toList
  | invalid => "invalid".toList

structure Mergeability where
  status : MergeabilityStatus
  mergeBaseCommitID : Option ID
  sourceCommitID : Option ID
  targetCommitID : Option ID
  blockedBy : Option BlockReason

def blockedMergeError : BlockReason → DomainError
  | .changesRequested => errConflict "merge request has unresolved change requests" []
  | .draft => errConflict "merge request is a draft; mark it ready for review first" []
  | .requiredReviewers =>
      errConflict "merge request is missing approvals from required reviewers" []
  | .checks => errConflict "required status checks have not passed" []
  | .approvals =>
      errConflict "merge request does not have the approvals required by the target branch" []

section Queries

variable {H : Type}

def listReviews (s : RequestStore H) (mergeRequestID : ID) : List Review :=
  s.reviews.filter fun r => r.mergeRequestID = mergeRequestID

/-- The reviews that count for a head; without a head none is stale. -/
def countedReviews (reviews : List Review) (head : Option ID) : List Review :=
  reviews.filter fun r => !(head.any fun h => r.headCommitID ≠ h) && !r.dismissed

/-- The reviews that count for the current source head: request, rows and head
are read in this order. -/
def liveReviews (seen : ℕ → RequestStore H) (n : ℕ) (perm : PermissionUsecase) (projectID : ID)
    (number : ℤ) : Except DomainError (List Review) := do
  let mr ← loadRequest (seen n) perm projectID number
  return countedReviews (listReviews (seen (n + 1)) mr.id)
    ((seen (n + 2)).sourceHead mr.projectID mr)

structure ReviewState where
  approvals : ℕ
  changesRequested : ℕ

def reviewState (seen : ℕ → RequestStore H) (n : ℕ) (perm : PermissionUsecase) (projectID : ID)
    (number : ℤ) : Except DomainError ReviewState := do
  let reviews ← liveReviews seen n perm projectID number
  return ⟨(reviews.filter fun r => r.state = .approved).length,
    (reviews.filter fun r => r.state = .changesRequested).length⟩

def approvedReviewers (seen : ℕ → RequestStore H) (n : ℕ) (perm : PermissionUsecase)
    (projectID : ID) (number : ℤ) : Except DomainError (List ID) := do
  let reviews ← liveReviews seen n perm projectID number
  return (reviews.filter fun r => r.state = .approved).map Review.reviewerID

/-- What the review rules of the target refuse the merge for. -/
def reviewBlockedBy (seen : ℕ → RequestStore H) (n : ℕ) (perm : PermissionUsecase)
    (projectID : ID) (mr : MergeRequest) (target : Branch) (policy : BranchPolicy) :
    Except DomainError (Option BlockReason) := do
  let state ← reviewState seen n perm projectID mr.number
  if state.changesRequested > 0 then return some .changesRequested
  else if policy.requiredApprovals > state.approvals then return some .approvals
  else
    let required := ((seen (n + 3)).policies target.id).requiredReviewers
    if required = [] then return none
    else
      let approved ← approvedReviewers seen (n + 4) perm projectID mr.number
      if ∃ reviewer ∈ required, reviewer ∉ approved then return some .requiredReviewers
      else return none

/-- What the status checks of the target refuse the merge for. -/
def checksBlockedBy (seen : ℕ → RequestStore H) (n : ℕ) (mr : MergeRequest) (target : Branch)
    (policy : BranchPolicy) (head : ID) : Option BlockReason :=
  if policy.requireStatusChecks = false then none
  else
    let required := ((seen n).policies target.id).requiredChecks
    let passed := ((seen (n + 1)).checks.filter fun c =>
      c.mergeRequestID = mr.id && c.headCommitID = head && c.state = .success).map
      StatusCheck.name
    if ∃ name ∈ required, name ∉ passed then some .checks else none

end Queries

/-! ## The merge call -/

section Merge

variable {H : Type}

def getMergeBase (db : DB H) (perm : PermissionUsecase) (projectID target source : ID) :
    Except DomainError (Option ID) := do
  refuseIf (perm.hasProjectAccess .read = false) errNoPermission
  let _ ← commitByIDInProject db projectID target
  let _ ← commitByIDInProject db projectID source
  findMergeBase db (some target) (some source)

def mergeStatus (base : Option ID) (source target : ID) : MergeabilityStatus :=
  if base = none then .behind
  else if base = some source then .upToDate
  else if base ≠ some target then .behind
  else .mergeable

/-- The gate for two different heads. -/
def checkHeads (seen : ℕ → RequestStore H) (perm : PermissionUsecase) (projectID : ID)
    (mr : MergeRequest) (target : Branch) (source targetHead : ID) :
    Except DomainError Mergeability := do
  let base ← getMergeBase (seen 3).db perm projectID targetHead source
  let status := mergeStatus base source targetHead
  let policy := (seen 2).policies target.id
  if mr.draft then return ⟨status, base, some source, some targetHead, some .draft⟩
  else if status = .upToDate then return ⟨status, base, some source, some targetHead, none⟩
  else
    match ← reviewBlockedBy seen 4 perm projectID mr target policy with
    | some reason => return ⟨status, base, some source, some targetHead, some reason⟩
    | none => return ⟨status, base, some source, some targetHead,
        checksBlockedBy seen 11 mr target policy source⟩

/-- The live state of a request. -/
def check (seen : ℕ → RequestStore H) (perm : PermissionUsecase) (projectID : ID)
    (mr : MergeRequest) : Except DomainError Mergeability :=
  let draft := if mr.draft then some BlockReason.draft else none
  if mr.status ≠ .opened then .ok ⟨.request mr.status, none, none, none, none⟩
  else
    match (seen 1).db.getBranchByName projectID mr.sourceBranch,
        (seen 2).db.getBranchByName projectID mr.targetBranch with
    | some source, some target =>
        if source.id ≠ mr.sourceBranchID ∨ target.id ≠ mr.targetBranchID then
          .ok ⟨.invalid, none, none, none, none⟩
        else
          match source.commitID, target.commitID with
          | some sourceHead, some targetHead =>
              if sourceHead = targetHead then
                .ok ⟨.upToDate, none, some sourceHead, some targetHead, draft⟩
              else checkHeads seen perm projectID mr target sourceHead targetHead
          | sourceHead, targetHead => .ok ⟨.invalid, none, sourceHead, targetHead, draft⟩
    | _, _ => .ok ⟨.invalid, none, none, none, none⟩

/-- Whether the state of a request allows the strategy. -/
def ensureStrategy (strategy : MergeStrategy) : MergeabilityStatus → Except DomainError Unit
  | .mergeable => .ok ()
  | .behind =>
      refuseIf (strategy = .ff)
        (errConflict "source branch is behind the target; update it first" [])
  | .upToDate =>
      .error (errConflict "source branch is already up to date with the target" [])
  | status => .error (errConflict "merge request is %s" [status.text])

def ensureUnblocked : Option BlockReason → Except DomainError Unit
  | none => .ok ()
  | some reason => .error (blockedMergeError reason)

def ensureMergeable (info : Mergeability) (strategy : MergeStrategy) :
    Except DomainError Unit := do
  ensureStrategy strategy info.status
  ensureUnblocked info.blockedBy

variable [DecidableEq H] [HashScheme H]

/-- What a landing still has to write. -/
inductive LandingWrite (H : Type) where
  | forward
  | nothing
  | commits (w : MergeWrite H)

/-- Work out how the source lands with the strategy, from the `n`-th query on.
A fast-forward reads the two rows once more. -/
def planLanding (store : ContentStore H) (seen : ℕ → RequestStore H) (n : ℕ) (caller : Caller)
    (projectID : ID) (targetBranch sourceBranch : Str) (opts : MergeCommitOptions)
    (newID : ℕ → ID) : Except DomainError (Landing × LandingWrite H) := do
  let target ← readTarget (seen n).db caller projectID targetBranch
  let land ← openMerge (seen (n + 1)).db caller projectID targetBranch sourceBranch opts target
  match ← planMerge store (seen (n + 2)).db caller land opts newID with
  | .fastForward => do
      let target ← readTarget (seen (n + 3)).db caller projectID targetBranch
      let land ← openFastForward (seen (n + 4)).db caller projectID targetBranch sourceBranch
        true opts.sourceCommitID target
      let _ ← planFastForward (seen (n + 5)).db caller land true
      return (land, .forward)
  | .nothing => return (land, .nothing)
  | .write _ w => return (land, .commits w)

/-- The write of a landing. -/
def writeLanding (db : DB H) (land : Landing) : LandingWrite H → Except DomainError (DB H)
  | .forward => updateCommitIf db land.target.id land.targetHead land.sourceHead
  | .nothing => .ok db
  | .commits w => applyPushAll db (w.commits.map PlannedCommit.request)

def mergeOptions (strategy : MergeStrategy) (mr : MergeRequest) (user : ID)
    (sourceHead : Option ID) : MergeCommitOptions where
  strategy := strategy
  message := if strategy = .squash then mr.title else []
  author := if strategy = .squash then mr.createdBy else user
  sourceCommitID := sourceHead

/-- The gate of a merge request, up to the call of the landing; it writes nothing but
locks. -/
def mergeGate (seen : ℕ → RequestStore H) (caller : Caller) (projectID : ID) (number : ℤ)
    (strategy : Str) (lockID : ℕ → ID) :
    Except DomainError (MergeRequest × MergeCommitOptions) := do
  let strategy ← parseStrategy (trimSpace strategy)
  let mr ← loadRequest (seen 0) caller.perm projectID number
  let info ← check seen caller.perm projectID mr
  ensureMergeable info strategy
  let user ← orError caller.claim errNoPermission
  let target ← orError ((seen 13).db.getBranchByName projectID mr.targetBranch)
    (errNotFound "record not found" [])
  let paths ← binaryChangesBetween (seen 14).db projectID info.mergeBaseCommitID
    info.sourceCommitID
  (ensureMergeRequestLocks (seen 15).db projectID mr.id target paths user mr.createdBy lockID).2
  return (mr, mergeOptions strategy mr user info.sourceCommitID)

/-- Merge a request, up to the write of the landing. -/
def mergeRequestPlan (store : ContentStore H) (seen : ℕ → RequestStore H) (caller : Caller)
    (projectID : ID) (number : ℤ) (strategy : Str) (lockID newID : ℕ → ID) :
    Except DomainError (Landing × LandingWrite H) := do
  let (mr, opts) ← mergeGate seen caller projectID number strategy lockID
  planLanding store seen 16 caller projectID mr.targetBranch mr.sourceBranch opts newID

/-- Merge a request, up to the landing. -/
def mergeRequestLanding (store : ContentStore H) (seen : ℕ → RequestStore H) (caller : Caller)
    (projectID : ID) (number : ℤ) (strategy : Str) (lockID newID : ℕ → ID) :
    Except DomainError (Landing × DB H) := do
  let (land, w) ← mergeRequestPlan store seen caller projectID number strategy lockID newID
  let db' ← writeLanding (seen 22).db land w
  return (land, db')

end Merge

/-! ## What a passed gate says -/

/-- A live approval of a user for a head. -/
def Approved {H : Type} (s : RequestStore H) (m user head : ID) : Prop :=
  ∃ r ∈ s.reviews, r.mergeRequestID = m ∧ r.reviewerID = user ∧ r.headCommitID = head ∧
    r.dismissed = false ∧ r.state = .approved

/-- The gate held for a head, each part in the store its query saw. -/
structure GateHeld {H : Type} (seen : ℕ → RequestStore H) (projectID : ID) (number : ℤ)
    (mr : MergeRequest) (target : Branch) (head : ID) : Prop where
  opened : (seen 0).getRequest projectID number = some mr ∧ mr.status = .opened ∧
    mr.draft = false
  source_read : (seen 1).sourceHead projectID mr = some head
  target_read : (seen 2).db.getBranchByName projectID mr.targetBranch = some target
  no_changes : ∀ r ∈ (seen 5).reviews, r.mergeRequestID = mr.id → r.Live →
    r.headCommitID = head → r.state ≠ .changesRequested
  approvals : ∃ reviewers : List ID, reviewers.Nodup ∧
    ((seen 2).policies target.id).requiredApprovals ≤ reviewers.length ∧
    ∀ user ∈ reviewers, user ≠ mr.createdBy ∧ Approved (seen 5) mr.id user head
  required : ∀ user ∈ ((seen 7).policies target.id).requiredReviewers,
    Approved (seen 9) mr.id user head
  checks : ((seen 2).policies target.id).requireStatusChecks = true →
    ∀ name ∈ ((seen 11).policies target.id).requiredChecks, ∃ c ∈ (seen 12).checks,
      c.mergeRequestID = mr.id ∧ c.headCommitID = head ∧ c.name = name ∧ c.state = .success

section Gate

variable {H : Type} {seen : ℕ → RequestStore H} {perm : PermissionUsecase} {projectID : ID}
  {number : ℤ} {mr : MergeRequest} {target : Branch} {policy : BranchPolicy}

theorem mem_countedReviews {reviews : List Review} {head : ID} {r : Review} :
    r ∈ countedReviews reviews (some head) ↔
      r ∈ reviews ∧ r.headCommitID = head ∧ r.dismissed = false := by
  simp [countedReviews]

theorem liveReviews_ok {n : ℕ} {head : ID} {l : List Review}
    (hmr : ∀ m, (seen n).getRequest projectID number = some m →
      m.id = mr.id ∧ (seen (n + 2)).sourceHead m.projectID m = some head)
    (h : liveReviews seen n perm projectID number = .ok l) :
    l = countedReviews (listReviews (seen (n + 1)) mr.id) (some head) := by
  rw [liveReviews] at h
  simp only [loadRequest, bind_eq_ok, orError_eq_ok, refuseIf_eq_ok, pure_eq_ok] at h
  obtain ⟨m, ⟨_, -, _, -, hm⟩, rfl⟩ := h
  obtain ⟨hid, hhead⟩ := hmr m hm
  rw [hid, hhead]

theorem reviewBlockedBy_none {n : ℕ}
    (h : reviewBlockedBy seen n perm projectID mr target policy = .ok none) :
    ∃ l, liveReviews seen n perm projectID mr.number = .ok l ∧
      (∀ r ∈ l, r.state ≠ .changesRequested) ∧
      policy.requiredApprovals ≤ (l.filter fun r => r.state = .approved).length ∧
      (((seen (n + 3)).policies target.id).requiredReviewers ≠ [] →
        ∃ l', liveReviews seen (n + 4) perm projectID mr.number = .ok l' ∧
          ∀ user ∈ ((seen (n + 3)).policies target.id).requiredReviewers,
            user ∈ (l'.filter fun r => r.state = .approved).map Review.reviewerID) := by
  rw [reviewBlockedBy] at h
  obtain ⟨state, hstate, h⟩ := bind_eq_ok.mp h
  rw [reviewState] at hstate
  simp only [bind_eq_ok, pure_eq_ok] at hstate
  obtain ⟨l, hl, rfl⟩ := hstate
  dsimp only at h
  split at h
  · simp [pure_eq_ok] at h
  next hchanges =>
    split at h
    · simp [pure_eq_ok] at h
    next happrovals =>
      refine ⟨l, hl, ?_, not_lt.mp happrovals, ?_⟩
      · intro r hr hstate
        apply hchanges
        exact List.length_pos_of_mem (List.mem_filter.mpr ⟨hr, by simpa using hstate⟩)
      · intro hne
        rw [if_neg hne] at h
        obtain ⟨approved, happ, h⟩ := bind_eq_ok.mp h
        rw [approvedReviewers] at happ
        simp only [bind_eq_ok, pure_eq_ok] at happ
        obtain ⟨l', hl', rfl⟩ := happ
        refine ⟨l', hl', ?_⟩
        split at h
        · simp [pure_eq_ok] at h
        next hall =>
          intro user huser
          by_contra hnot
          exact hall ⟨user, huser, hnot⟩

theorem checksBlockedBy_none {n : ℕ} {head : ID}
    (h : checksBlockedBy seen n mr target policy head = none)
    (hrequire : policy.requireStatusChecks = true) :
    ∀ name ∈ ((seen n).policies target.id).requiredChecks, ∃ c ∈ (seen (n + 1)).checks,
      c.mergeRequestID = mr.id ∧ c.headCommitID = head ∧ c.name = name ∧ c.state = .success := by
  rw [checksBlockedBy, if_neg (by simp [hrequire])] at h
  dsimp only at h
  split at h
  · simp at h
  next hall =>
    intro name hname
    have hpassed : name ∈ ((seen (n + 1)).checks.filter fun c => c.mergeRequestID = mr.id &&
        c.headCommitID = head && c.state = .success).map StatusCheck.name := by
      by_contra hnot
      exact hall ⟨name, hname, hnot⟩
    obtain ⟨c, hc, rfl⟩ := List.mem_map.mp hpassed
    obtain ⟨hmem, hcond⟩ := List.mem_filter.mp hc
    simp only [Bool.and_eq_true, decide_eq_true_eq] at hcond
    exact ⟨c, hmem, hcond.1.1, hcond.1.2, rfl, hcond.2⟩

/-- The gate lets a request through. -/
structure GatePassedFor (seen : ℕ → RequestStore H) (perm : PermissionUsecase)
    (projectID : ID) (mr : MergeRequest) (target : Branch) (head : ID) : Prop where
  opened : mr.status = .opened
  ready : mr.draft = false
  source_read : (seen 1).sourceHead projectID mr = some head
  target_read : (seen 2).db.getBranchByName projectID mr.targetBranch = some target
  reviewed : reviewBlockedBy seen 4 perm projectID mr target ((seen 2).policies target.id) =
    .ok none
  checked : checksBlockedBy seen 11 mr target ((seen 2).policies target.id) head = none

theorem checkHeads_passed {source targetHead : ID} {info : Mergeability}
    (hstatus : info.status = .mergeable ∨ info.status = .behind)
    (hblocked : info.blockedBy = none)
    (h : checkHeads seen perm projectID mr target source targetHead = .ok info) :
    mr.draft = false ∧ info.sourceCommitID = some source ∧
      reviewBlockedBy seen 4 perm projectID mr target ((seen 2).policies target.id) =
        .ok none ∧
      checksBlockedBy seen 11 mr target ((seen 2).policies target.id) source = none := by
  rw [checkHeads] at h
  obtain ⟨base, -, h⟩ := bind_eq_ok.mp h
  dsimp only at h
  split at h
  · obtain rfl := pure_eq_ok.mp h
    simp at hblocked
  next hdraft =>
    split at h
    next hup =>
      obtain rfl := pure_eq_ok.mp h
      rw [hup] at hstatus
      simp at hstatus
    · obtain ⟨reason, hreview, h⟩ := bind_eq_ok.mp h
      rcases reason with _ | reason
      · obtain rfl := pure_eq_ok.mp h
        exact ⟨by simpa using hdraft, rfl, hreview, hblocked⟩
      · obtain rfl := pure_eq_ok.mp h
        simp at hblocked

theorem check_passed {info : Mergeability} (h : check seen perm projectID mr = .ok info)
    (hstatus : info.status = .mergeable ∨ info.status = .behind)
    (hblocked : info.blockedBy = none) :
    ∃ target head, info.sourceCommitID = some head ∧
      GatePassedFor seen perm projectID mr target head := by
  rw [check] at h
  split at h
  · obtain rfl := Except.ok.inj h
    simp at hstatus
  next hopened =>
    split at h
    next source target hsource htarget =>
      split at h
      · obtain rfl := Except.ok.inj h
        simp at hstatus
      · split at h
        next sourceHead targetHead hsourceHead htargetHead =>
          split at h
          · obtain rfl := Except.ok.inj h
            simp at hstatus
          · obtain ⟨hdraft, hinfo, hreview, hchecks⟩ := checkHeads_passed hstatus hblocked h
            refine ⟨target, sourceHead, hinfo, not_not.mp hopened, hdraft, ?_, htarget,
              hreview, hchecks⟩
            rw [RequestStore.sourceHead, hsource, Option.bind_some, hsourceHead]
        · obtain rfl := Except.ok.inj h
          simp at hstatus
    · obtain rfl := Except.ok.inj h
      simp at hstatus

theorem ensureMergeable_ok {info : Mergeability} {strategy : MergeStrategy}
    (h : ensureMergeable info strategy = .ok ()) :
    (info.status = .mergeable ∨ info.status = .behind) ∧ info.blockedBy = none := by
  rw [ensureMergeable] at h
  obtain ⟨_, hstatus, hblocked⟩ := bind_eq_ok.mp h
  constructor
  · rcases hs : info.status with status | _ | _ | _ | _
    · simp [hs, ensureStrategy] at hstatus
    · exact Or.inl rfl
    · exact Or.inr rfl
    · simp [hs, ensureStrategy] at hstatus
    · simp [hs, ensureStrategy] at hstatus
  · rcases hb : info.blockedBy with _ | reason
    · rfl
    · simp [hb, ensureUnblocked] at hblocked

/-! ## What is landed -/

variable [DecidableEq H] [HashScheme H]

/-- The landed head is the pinned one, and it is the source head when the source
row is read for the landing. -/
theorem planLanding_ok {store : ContentStore H} {n : ℕ} {caller : Caller}
    {targetBranch sourceBranch : Str} {opts : MergeCommitOptions} {newID : ℕ → ID}
    {land : Landing} {w : LandingWrite H} {head : ID} (hpinned : opts.sourceCommitID = some head)
    (h : planLanding store seen n caller projectID targetBranch sourceBranch opts newID =
      .ok (land, w)) :
    land.sourceHead = head ∧ ((seen (n + 1)).db.getBranchByName projectID sourceBranch).bind
      Branch.commitID = some head := by
  rw [planLanding] at h
  obtain ⟨target', -, h⟩ := bind_eq_ok.mp h
  obtain ⟨land₀, hopen, h⟩ := bind_eq_ok.mp h
  have hfirst : land₀.sourceHead = head ∧ ((seen (n + 1)).db.getBranchByName projectID
      sourceBranch).bind Branch.commitID = some head := by
    rw [openMerge] at hopen
    simp only [branchByName, bind_eq_ok, orError_eq_ok, refuseIf_eq_ok, pure_eq_ok] at hopen
    obtain ⟨source, hsource, _, -, sourceHead, hhead, _, hpin, _, -, _, -, rfl⟩ := hopen
    have heq : sourceHead = head := by
      by_contra hne
      exact hpin ⟨head, hpinned, hne⟩
    refine ⟨heq, ?_⟩
    rw [hsource, Option.bind_some, hhead, heq]
  obtain ⟨plan, -, h⟩ := bind_eq_ok.mp h
  refine ⟨?_, hfirst.2⟩
  rcases plan with _ | _ | ⟨db₁, w⟩
  · obtain ⟨target'', -, h⟩ := bind_eq_ok.mp h
    obtain ⟨land₁, hforward, h⟩ := bind_eq_ok.mp h
    obtain ⟨_, -, h⟩ := bind_eq_ok.mp h
    obtain ⟨rfl, -⟩ := Prod.mk.inj (pure_eq_ok.mp h)
    rw [openFastForward] at hforward
    simp only [branchByName, bind_eq_ok, orError_eq_ok, refuseIf_eq_ok, pure_eq_ok] at hforward
    obtain ⟨source, -, _, -, _, -, sourceHead, -, _, -, _, hpin, rfl⟩ := hforward
    by_contra hne
    exact hpin ⟨head, hpinned, hne⟩
  · obtain ⟨rfl, -⟩ := Prod.mk.inj (pure_eq_ok.mp h)
    exact hfirst.1
  · obtain ⟨rfl, -⟩ := Prod.mk.inj (pure_eq_ok.mp h)
    exact hfirst.1

theorem mergeRequestPlan_ok {store : ContentStore H} {caller : Caller} {strategy : Str}
    {lockID newID : ℕ → ID} {land : Landing} {w : LandingWrite H}
    (h : mergeRequestPlan store seen caller projectID number strategy lockID newID =
      .ok (land, w)) :
    ∃ mr target, (seen 0).getRequest projectID number = some mr ∧
      GatePassedFor seen caller.perm projectID mr target land.sourceHead ∧
      (seen 17).sourceHead projectID mr = some land.sourceHead := by
  rw [mergeRequestPlan] at h
  obtain ⟨⟨_, _⟩, hgate, h⟩ := bind_eq_ok.mp h
  simp only [mergeGate, bind_eq_ok, pure_eq_ok, Prod.mk.injEq] at hgate
  obtain ⟨_, -, mr, hmr, info, hcheck, _, hmergeable, _, -, _, -, _, -, _, -, rfl, rfl⟩ := hgate
  simp only [loadRequest, bind_eq_ok, orError_eq_ok] at hmr
  obtain ⟨_, -, _, -, hmr⟩ := hmr
  obtain ⟨hstatus, hblocked⟩ := ensureMergeable_ok hmergeable
  obtain ⟨target, head, hinfo, hpassed⟩ := check_passed hcheck hstatus hblocked
  obtain ⟨rfl, hhead⟩ := planLanding_ok (by rw [mergeOptions, hinfo]) h
  exact ⟨mr, target, hmr, hpassed, hhead⟩

theorem mergeRequestLanding_ok {store : ContentStore H} {caller : Caller} {strategy : Str}
    {lockID newID : ℕ → ID} {land : Landing} {db' : DB H}
    (h : mergeRequestLanding store seen caller projectID number strategy lockID newID =
      .ok (land, db')) :
    ∃ w, mergeRequestPlan store seen caller projectID number strategy lockID newID =
        .ok (land, w) ∧ writeLanding (seen 22).db land w = .ok db' := by
  rw [mergeRequestLanding] at h
  obtain ⟨⟨land', w⟩, hplan, h⟩ := bind_eq_ok.mp h
  obtain ⟨db'', hwrite, h⟩ := bind_eq_ok.mp h
  obtain ⟨rfl, rfl⟩ := Prod.mk.inj (pure_eq_ok.mp h)
  exact ⟨w, hplan, hwrite⟩

end Gate

/-! ## Calls among other requests -/

section Calls

variable {H : Type} {seen : ℕ → ReviewSystem H} {projectID : ID} {number : ℤ}

/-- A branch whose head is a commit at two moments has it in between. -/
def NeverReturns (seen : ℕ → ReviewSystem H) (projectID : ID) (name : Str) : Prop :=
  ∀ i j k c, i ≤ j → j ≤ k →
    ((seen i).store.db.getBranchByName projectID name).bind Branch.commitID = some c →
    ((seen k).store.db.getBranchByName projectID name).bind Branch.commitID = some c →
    ((seen j).store.db.getBranchByName projectID name).bind Branch.commitID = some c

theorem run_of_le (hruns : ∀ n, Run ReviewStep (fun _ _ => True) (seen n) (seen (n + 1)))
    {i j : ℕ} (hij : i ≤ j) : Run ReviewStep (fun _ _ => True) (seen i) (seen j) := by
  induction hij with
  | refl => exact Run.refl _
  | step _ ih => exact ih.trans (hruns _)

theorem approvals_distinct {s : RequestStore H} (hs : s.Sound) {mr : MergeRequest}
    (hmr : ∃ m ∈ s.requests, m.id = mr.id ∧ m.createdBy = mr.createdBy) {head : ID} :
    let l := (countedReviews (listReviews s mr.id) (some head)).filter fun r =>
      r.state = .approved
    (l.map Review.reviewerID).Nodup ∧ ∀ user ∈ l.map Review.reviewerID,
      user ≠ mr.createdBy ∧ Approved s mr.id user head := by
  intro l
  have hmem : ∀ r ∈ l, r ∈ s.reviews ∧ r.mergeRequestID = mr.id ∧ r.headCommitID = head ∧
      r.dismissed = false ∧ r.state = .approved := by
    intro r hr
    obtain ⟨hcounted, hstate⟩ := List.mem_filter.mp hr
    obtain ⟨hlisted, hhead, hdismissed⟩ := mem_countedReviews.mp hcounted
    obtain ⟨hr, hid⟩ := List.mem_filter.mp hlisted
    exact ⟨hr, by simpa using hid, hhead, hdismissed, by simpa using hstate⟩
  constructor
  · -- two counted rows of one reviewer would be of one round
    refine List.Nodup.map_on ?_ ?_
    · intro r hr r' hr' heq
      obtain ⟨hr, hid, hhead, -⟩ := hmem r hr
      obtain ⟨hr', hid', hhead', -⟩ := hmem r' hr'
      refine List.inj_on_of_nodup_map hs.rounds hr hr' ?_
      rw [Review.round, Review.round, hid, hid', hhead, hhead', heq]
    · exact hs.rounds.of_map.filter _ |>.filter _ |>.filter _
  · intro user huser
    obtain ⟨r, hr, rfl⟩ := List.mem_map.mp huser
    obtain ⟨hr, hid, hhead, hdismissed, hstate⟩ := hmem r hr
    refine ⟨?_, r, hr, hid, rfl, hhead, hdismissed, hstate⟩
    intro hauthor
    obtain ⟨m, hm, hmid, hcreated⟩ := hmr
    have hcommented := hs.unbiased r hr m hm (hmid.trans hid.symm) (hauthor.trans hcreated.symm)
    rw [hstate] at hcommented
    simp at hcommented

variable [DecidableEq H] [HashScheme H]

/-- Whatever goes on between the queries of a merge call, the gate held for the
head it lands. -/
theorem merge_gate_holds {s₀ : ReviewSystem H} (hfresh : s₀.Fresh)
    (hstart : Run ReviewStep (fun _ _ => True) s₀ (seen 0))
    (hruns : ∀ n, Run ReviewStep (fun _ _ => True) (seen n) (seen (n + 1)))
    (hheads : ∀ name, NeverReturns seen projectID name)
    {store : ContentStore H} {caller : Caller} {strategy : Str} {lockID newID : ℕ → ID}
    {land : Landing} {db' : DB H}
    (h : mergeRequestLanding store (fun n => (seen n).store) caller projectID number strategy
      lockID newID = .ok (land, db')) :
    ∃ mr target, GateHeld (fun n => (seen n).store) projectID number mr target
      land.sourceHead := by
  obtain ⟨w, hplan, -⟩ := mergeRequestLanding_ok h
  obtain ⟨mr, target, hmr, hpassed, hlast⟩ := mergeRequestPlan_ok hplan
  have hnumber : mr.projectID = projectID ∧ mr.number = number := by
    have hcond := List.find?_some hmr
    simpa using hcond
  -- the source head is the landed one through the whole call
  have hhead : ∀ j, 1 ≤ j → j ≤ 17 → (seen j).store.sourceHead projectID mr =
      some land.sourceHead :=
    fun j hj hj' => hheads mr.sourceBranch 1 j 17 _ hj hj' hpassed.source_read hlast
  -- the request keeps its identity through the call
  have hsame : ∀ j m, (seen j).store.getRequest projectID mr.number = some m →
      m.identity = mr.identity := by
    intro j m hm
    rw [hnumber.2] at hm
    obtain ⟨m', hm', hid⟩ := getRequest_of_run (run_of_le hruns (Nat.zero_le j)) hmr
    obtain rfl := Option.some.inj (hm.symm.trans hm')
    exact hid
  have hload : ∀ n, n + 2 ≤ 17 → ∀ m,
      (seen n).store.getRequest projectID mr.number = some m →
      m.id = mr.id ∧ (seen (n + 2)).store.sourceHead m.projectID m =
        some land.sourceHead := by
    intro n hn m hm
    have hid := hsame n m hm
    simp only [MergeRequest.identity, Prod.mk.injEq] at hid
    refine ⟨hid.1, ?_⟩
    rw [RequestStore.sourceHead, hid.2.2.1, hid.2.2.2.2.2.1, hnumber.1]
    exact hhead (n + 2) (by omega) hn
  obtain ⟨l, hl, hchanges, happrovals, hrequired⟩ := reviewBlockedBy_none hpassed.reviewed
  obtain rfl := liveReviews_ok (hload 4 (by decide)) hl
  have hsound : ∀ j, (seen j).store.Sound := fun j =>
    (hfresh.inv.run (hstart.trans (run_of_le hruns (Nat.zero_le j)))).sound
  have hknown : ∀ j, ∃ m ∈ (seen j).store.requests, m.id = mr.id ∧
      m.createdBy = mr.createdBy := by
    intro j
    obtain ⟨m, hm, hid⟩ := getRequest_of_run (run_of_le hruns (Nat.zero_le j)) hmr
    simp only [MergeRequest.identity, Prod.mk.injEq] at hid
    exact ⟨m, List.mem_of_find?_eq_some hm, hid.1, hid.2.2.2.2.2.2.2⟩
  refine ⟨mr, target, ⟨hmr, hpassed.opened, hpassed.ready⟩, hpassed.source_read,
    hpassed.target_read, ?_, ?_, ?_, checksBlockedBy_none hpassed.checked⟩
  · intro r hr hid hlive hrhead
    refine hchanges r (mem_countedReviews.mpr ⟨List.mem_filter.mpr ⟨hr, by simpa using hid⟩,
      hrhead, hlive.1⟩)
  · obtain ⟨hnodup, hall⟩ := approvals_distinct (hsound 5) (hknown 5)
    refine ⟨_, hnodup, ?_, hall⟩
    rw [List.length_map]
    exact happrovals
  · intro user huser
    have hne : ((seen 7).store.policies target.id).requiredReviewers ≠ [] := by
      intro hnil
      rw [hnil] at huser
      simp at huser
    obtain ⟨l', hl', happroved⟩ := hrequired hne
    obtain rfl := liveReviews_ok (hload 8 (by decide)) hl'
    exact ((approvals_distinct (hsound 9) (hknown 9)).2 user (happroved user huser)).2

end Calls

/-! ## An approved request -/

/-- Two pushes; the mainline has the first one and a branch the second. -/
def approvedBranches : Except DomainError (DB IdealHash) := do
  let db₁ ← push demoStore demoCaller 7 demoPush
  let db₂ ← push db₁ demoCaller 8 demoSecond
  return { db₂ with
    branches := [⟨1, 1, "main".toList, false, true, some 7, false⟩,
      ⟨2, 1, "feature".toList, false, false, some 8, false⟩] }

/-- The request from the branch to the mainline, which needs one approval. -/
def approvedStore (requests : List MergeRequest) (reviews : List Review) :
    RequestStore IdealHash where
  db := approvedBranches.toOption.getD demoStore
  policies _ := ⟨1, false, false, [6], []⟩
  requests := requests
  reviews := reviews
  checks := []

/-- The request is there from the start; its approval is written after the second query. -/
def approvedSeen (n : ℕ) : ReviewSystem IdealHash :=
  ⟨approvedStore [reviewRequest .opened] (if n < 2 then [] else [approval 20 8 1]), []⟩

theorem landing_of_head {x : Except DomainError (Landing × DB IdealHash)} {head : ID}
    (h : (x.toOption.map fun r => r.1.sourceHead) = some head) :
    ∃ land db', x = .ok (land, db') ∧ land.sourceHead = head := by
  obtain ⟨⟨land, db'⟩, hland, hhead⟩ := Option.map_eq_some_iff.mp h
  exact ⟨land, db', toOption_eq_some hland, hhead⟩

theorem approved_review :
    openReview (approvedStore [reviewRequest .opened] []) (reviewCaller 6) 1 1 .approved
      "ok".toList 0 20 1 = .ok (approval 20 8 1) :=
  toOption_eq_some (by decide +kernel)

theorem approvedStore_created :
    ({ approvedStore [] [] with
      requests := (approvedStore [] []).requests ++ [reviewRequest .opened] } :
        RequestStore IdealHash) = approvedStore [reviewRequest .opened] [] := by
  simp only [approvedStore, List.nil_append]

theorem approvedStore_reviewed :
    ({ store := { approvedStore [reviewRequest .opened] [] with
        reviews := upsertReview [] (approval 20 8 1) }
       opened := [approval 20 8 1].erase (approval 20 8 1) } : ReviewSystem IdealHash) =
      ⟨approvedStore [reviewRequest .opened] [approval 20 8 1], []⟩ := by
  have hupsert : upsertReview [] (approval 20 8 1) = [approval 20 8 1] := rfl
  rw [List.erase_cons_head, hupsert]
  simp only [approvedStore]

theorem approved_created :
    Run ReviewStep (fun _ _ => True) (⟨approvedStore [] [], []⟩ : ReviewSystem IdealHash)
      (approvedSeen 0) := by
  refine (Run.refl _).tail (e := ReviewEvent.create) trivial ?_
  change ReviewStep _ _ ⟨approvedStore [reviewRequest .opened] [], []⟩
  rw [← approvedStore_created]
  exact .create (by simp [approvedStore]) (by simp [approvedStore])

theorem approvedSeen_run (n : ℕ) :
    Run ReviewStep (fun _ _ => True) (approvedSeen n) (approvedSeen (n + 1)) := by
  have hwrite : ReviewStep (⟨approvedStore [reviewRequest .opened] [], [approval 20 8 1]⟩ :
      ReviewSystem IdealHash) .writeReview
      ⟨approvedStore [reviewRequest .opened] [approval 20 8 1], []⟩ :=
    approvedStore_reviewed ▸ .writeReview List.mem_cons_self
  rcases n with _ | _ | n
  · exact Run.refl _
  · exact ((Run.refl _).tail (e := ReviewEvent.openReview) trivial
      (.openReview approved_review)).tail (e := ReviewEvent.writeReview) trivial hwrite
  · exact Run.refl _

theorem merge_gate_holds_demo :
    ∃ (land : Landing) (db' : DB IdealHash),
      mergeRequestLanding noContent (fun n => (approvedSeen n).store) demoCaller 1 1 "ff".toList
        (fun n => 30 + n) (fun n => 40 + n) = .ok (land, db') ∧ land.sourceHead = 8 ∧
      ∃ mr target, GateHeld (fun n => (approvedSeen n).store) 1 1 mr target land.sourceHead := by
  obtain ⟨land, db', hland, hhead⟩ : ∃ land db', mergeRequestLanding noContent
      (fun n => (approvedSeen n).store) demoCaller 1 1 "ff".toList (fun n => 30 + n)
      (fun n => 40 + n) = .ok (land, db') ∧ land.sourceHead = 8 :=
    landing_of_head (by decide +kernel)
  exact ⟨land, db', hland, hhead, merge_gate_holds ⟨rfl, rfl, rfl⟩ approved_created
    approvedSeen_run (fun _ _ _ _ _ _ _ h _ => h) hland⟩

end Nipa
