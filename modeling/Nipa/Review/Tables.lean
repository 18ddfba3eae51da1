import Nipa.Locks

/-!
# Merge requests and their reviews

The rows of merge requests, reviews and status checks, and the operations that
write them.  A review is given for one head of the source branch, and a
reviewer has one review per head; a later review of the same head replaces the
earlier one.  A push to the source of an open request dismisses the decisions
on older heads or moves them to the new head, as the target branch says.

Comments, review requests and the timeline are left out; nothing here reads
them.
-/

namespace Nipa

open Support

/-! ## Rows -/

inductive RequestStatus where
  | opened
  | merged
  | closed
  deriving DecidableEq

def RequestStatus.text : RequestStatus → Str
  | opened => "open".toList
  | merged => "merged".toList
  | closed => "closed".toList

structure MergeRequest where
  id : ID
  number : ℤ
  projectID : ID
  sourceBranchID : ID
  targetBranchID : ID
  sourceBranch : Str
  targetBranch : Str
  title : Str
  status : RequestStatus
  draft : Bool
  createdBy : ID
  mergeCommitID : Option ID
  deriving DecidableEq

/-- What stays of a request: everything but its title, its state and the merge
that landed it. -/
def MergeRequest.identity (mr : MergeRequest) : ID × ℤ × ID × ID × ID × Str × Str × ID :=
  (mr.id, mr.number, mr.projectID, mr.sourceBranchID, mr.targetBranchID, mr.sourceBranch,
    mr.targetBranch, mr.createdBy)

inductive ReviewDecision where
  | commented
  | approved
  | changesRequested
  deriving DecidableEq

/-- A review; `dismissed` stands for a set dismissal time. -/
structure Review where
  id : ID
  mergeRequestID : ID
  reviewerID : ID
  state : ReviewDecision
  headCommitID : ID
  dismissed : Bool
  updatedAt : ℕ
  deriving DecidableEq

/-- The columns of the unique index: one review per reviewer and head. -/
def Review.round (r : Review) : ID × ID × ID :=
  (r.mergeRequestID, r.reviewerID, r.headCommitID)

inductive CheckState where
  | pending
  | success
  | failed
  deriving DecidableEq

structure StatusCheck where
  mergeRequestID : ID
  headCommitID : ID
  name : Str
  state : CheckState
  deriving DecidableEq

/-- The merge rules of a branch. -/
structure BranchPolicy where
  requiredApprovals : ℤ
  dismissStaleApprovals : Bool
  requireStatusChecks : Bool
  requiredReviewers : List ID
  requiredChecks : List Str

/-- The database with its merge requests. -/
structure RequestStore (H : Type) where
  db : DB H
  policies : ID → BranchPolicy
  requests : List MergeRequest
  reviews : List Review
  checks : List StatusCheck

/-! ## Review rows -/

/-- Insert a review; one of the same round is overwritten and counts again. -/
def upsertReview (reviews : List Review) (new : Review) : List Review :=
  if ∃ r ∈ reviews, r.round = new.round then
    reviews.map fun r => if r.round = new.round then { new with id := r.id } else r
  else reviews ++ [new]

/-- A decision that has not been dismissed. -/
def Review.Live (r : Review) : Prop :=
  r.dismissed = false ∧ r.state ≠ .commented

instance (r : Review) : Decidable r.Live :=
  inferInstanceAs (Decidable (_ ∧ _))

/-- A live decision on another head than the given one. -/
def Review.Stale (r : Review) (mergeRequestID headCommitID : ID) : Prop :=
  r.mergeRequestID = mergeRequestID ∧ r.Live ∧ r.headCommitID ≠ headCommitID

instance (r : Review) (mergeRequestID headCommitID : ID) :
    Decidable (r.Stale mergeRequestID headCommitID) :=
  inferInstanceAs (Decidable (_ ∧ _ ∧ _))

def dismissStaleReviews (reviews : List Review) (mergeRequestID headCommitID : ID) (now : ℕ) :
    List Review :=
  reviews.map fun r =>
    if r.Stale mergeRequestID headCommitID then { r with dismissed := true, updatedAt := now }
    else r

/-- Move the stale decisions of a request to a new head. -/
def carriedOver (reviews : List Review) (mergeRequestID headCommitID : ID) (now : ℕ) :
    List Review :=
  reviews.map fun r =>
    if r.Stale mergeRequestID headCommitID then
      { r with headCommitID := headCommitID, updatedAt := now }
    else r

/-- The move fails when it would leave two reviews of one round. -/
def carryOverReviews (reviews : List Review) (mergeRequestID headCommitID : ID) (now : ℕ) :
    Except DomainError (List Review) :=
  if ((carriedOver reviews mergeRequestID headCommitID now).map Review.round).Nodup then
    .ok (carriedOver reviews mergeRequestID headCommitID now)
  else .error (errConflict "record already exists" [])

/-! ## Operations on requests -/

section Operations

variable {H : Type}

namespace RequestStore

def getRequest (s : RequestStore H) (projectID : ID) (number : ℤ) : Option MergeRequest :=
  s.requests.find? fun mr => mr.projectID = projectID && mr.number = number

def updateStatus (s : RequestStore H) (projectID : ID) (number : ℤ) (status : RequestStatus)
    (mergeCommitID : Option ID) : RequestStore H :=
  { s with
    requests := s.requests.map fun mr =>
      if mr.projectID = projectID ∧ mr.number = number then
        { mr with status := status, mergeCommitID := mergeCommitID }
      else mr }

def listOpenBySourceBranch (s : RequestStore H) (projectID branchID : ID) : List MergeRequest :=
  s.requests.filter fun mr =>
    mr.projectID = projectID && mr.status = .opened && mr.sourceBranchID = branchID

/-- The head of the source branch, by the branch's name. -/
def sourceHead (s : RequestStore H) (projectID : ID) (mr : MergeRequest) : Option ID :=
  (s.db.getBranchByName projectID mr.sourceBranch).bind Branch.commitID

end RequestStore

def loadRequest (s : RequestStore H) (perm : PermissionUsecase) (projectID : ID) (number : ℤ) :
    Except DomainError MergeRequest := do
  refuseIf (number ≤ 0) (errUser "invalid merge request number" [])
  refuseIf (perm.hasProjectAccess .read = false) errNoPermission
  orError (s.getRequest projectID number)
    (errNotFound "merge request #%d not found" [(toString number).toList])

def statusError (mr : MergeRequest) : DomainError :=
  errConflict "merge request is %s" [mr.status.text]

/-- The row a submitted review writes, from what the request and the source
branch say when they are read. -/
def openReview (s : RequestStore H) (caller : Caller) (projectID : ID) (number : ℤ)
    (state : ReviewDecision) (body : Str) (comments : ℕ) (reviewID : ID) (now : ℕ) :
    Except DomainError Review := do
  let user ← orError caller.claim errNoPermission
  let mr ← loadRequest s caller.perm projectID number
  refuseIf (caller.perm.hasProjectAccess .write = false) errNoPermission
  refuseIf (mr.status ≠ .opened) (statusError mr)
  refuseIf (user = mr.createdBy ∧ state ≠ .commented)
    (errUser "you cannot review your own merge request" [])
  refuseIf (trimSpace body = [] ∧ comments = 0)
    (errUser "a review needs a body or a comment" [])
  let head ← orError (s.sourceHead projectID mr) (errUser "source branch has no commits" [])
  return ⟨reviewID, mr.id, user, state, head, false, now⟩

def withdrawReview (s : RequestStore H) (caller : Caller) (projectID : ID) (number : ℤ)
    (reviewID : ID) : Except DomainError (RequestStore H) := do
  let mr ← loadRequest s caller.perm projectID number
  let user ← orError caller.claim errNoPermission
  let review ← orError
    (s.reviews.find? fun r => r.mergeRequestID = mr.id && r.id = reviewID)
    (errNotFound "review not found" [])
  refuseIf (review.reviewerID ≠ user ∧ caller.perm.adminHasProject = false) errNoPermission
  return { s with
    reviews := s.reviews.filter fun r => !(r.mergeRequestID = mr.id && r.id = reviewID) }

def dismissReview (s : RequestStore H) (caller : Caller) (projectID : ID) (number : ℤ)
    (reviewID : ID) (now : ℕ) : Except DomainError (RequestStore H) := do
  let mr ← loadRequest s caller.perm projectID number
  let _ ← orError caller.claim errNoPermission
  refuseIf (caller.perm.hasProjectAccess .write = false) errNoPermission
  let _ ← orError
    (s.reviews.find? fun r => r.mergeRequestID = mr.id && r.id = reviewID)
    (errNotFound "review not found" [])
  return { s with
    reviews := s.reviews.map fun r =>
      if r.mergeRequestID = mr.id ∧ r.id = reviewID then
        { r with dismissed := true, updatedAt := now }
      else r }

/-- Go through the open requests of a branch that moved.  An error stops the
loop; what was written before it stays. -/
def noteRequests (newHead : ID) (now : ℕ) :
    List MergeRequest → RequestStore H → RequestStore H × Except DomainError Unit
  | [], s => (s, .ok ())
  | mr :: rest, s =>
      match s.db.getByProjectIDAndID mr.projectID mr.targetBranchID with
      | none => noteRequests newHead now rest s
      | some target =>
          if (s.policies target.id).dismissStaleApprovals then
            noteRequests newHead now rest
              { s with reviews := dismissStaleReviews s.reviews mr.id newHead now }
          else
            match carryOverReviews s.reviews mr.id newHead now with
            | .error err => (s, .error err)
            | .ok reviews => noteRequests newHead now rest { s with reviews := reviews }

def noteBranchPush (s : RequestStore H) (projectID branchID newHead : ID) (now : ℕ) :
    RequestStore H × Except DomainError Unit :=
  noteRequests newHead now (s.listOpenBySourceBranch projectID branchID) s

end Operations

end Nipa
