import Nipa.Review.Gate

/-!
# The life of a merge request

Merging reads the status of a request, lands the source in a transaction of its
own and writes the new status at the end; closing and reopening read the status
and write the new one.  No write looks at the status again, so calls that
overlap can land a closed request, land a request twice, or take a merged
request back.  When no call lands a request or writes its status while another
one stands between its read of the status and its last write, the status that
was checked still holds at the write and none of this happens.
-/

namespace Nipa

open Support

/-! ## Calls in flight -/

/-- A call that has begun.  A merge remembers what its queries saw; `landed` has
written the target and not yet the status. -/
inductive LifecycleCall (H : Type) where
  | merging (caller : Caller) (projectID : ID) (number : ℤ) (strategy : Str)
      (lockID newID : ℕ → ID) (seen : List (RequestStore H))
  | landed (projectID : ID) (number : ℤ) (mergeCommitID : Option ID)
  | settingStatus (projectID : ID) (number : ℤ) (toStatus : RequestStatus)

/-- What the history of a request records. -/
inductive Mark where
  | opened
  | landed
  deriving DecidableEq

/-- The store, the calls in flight and the history of every request, newest mark
first. -/
structure Lifecycle (H : Type) where
  store : RequestStore H
  calls : ℕ → Option (LifecycleCall H)
  history : ID × ℤ → List Mark

inductive LifecycleEvent where
  | create
  | begin
  | query
  | fail
  | land (i : ℕ) (projectID : ID) (number : ℤ)
  | writeMerged (i : ℕ) (projectID : ID) (number : ℤ)
  | writeStatus (i : ℕ) (projectID : ID) (number : ℤ)
  | other

/-- The request whose landing or status a step writes. -/
def LifecycleEvent.request : LifecycleEvent → Option (ID × ℤ)
  | land _ projectID number => some (projectID, number)
  | writeMerged _ projectID number => some (projectID, number)
  | writeStatus _ projectID number => some (projectID, number)
  | _ => none

section Steps

variable {H : Type}

namespace Lifecycle

def status (s : Lifecycle H) (projectID : ID) (number : ℤ) : Option RequestStatus :=
  (s.store.getRequest projectID number).map MergeRequest.status

def record (s : Lifecycle H) (projectID : ID) (number : ℤ) (mark : Mark) : Lifecycle H :=
  { s with
    history := Function.update s.history (projectID, number)
      (mark :: s.history (projectID, number)) }

def setCall (s : Lifecycle H) (i : ℕ) (c : Option (LifecycleCall H)) : Lifecycle H :=
  { s with calls := Function.update s.calls i c }

/-- Write a status; a request that was not open and is now has been opened. -/
def writeStatus (s : Lifecycle H) (projectID : ID) (number : ℤ) (toStatus : RequestStatus)
    (mergeCommitID : Option ID) : Lifecycle H :=
  let s' := { s with store := s.store.updateStatus projectID number toStatus mergeCommitID }
  if toStatus = .opened ∧ s.status projectID number ≠ some .opened then
    s'.record projectID number .opened
  else s'

end Lifecycle

/-- Close and reopen, up to the write of the status. -/
def setStatus (s : RequestStore H) (caller : Caller) (projectID : ID) (number : ℤ)
    (fromStatus : RequestStatus) : Except DomainError Unit := do
  let mr ← loadRequest s caller.perm projectID number
  let user ← orError caller.claim errNoPermission
  refuseIf (user ≠ mr.createdBy ∧ caller.perm.adminHasProject = false) errNoPermission
  refuseIf (mr.status ≠ fromStatus) (statusError mr)

/-- What the `n`-th query of a call sees: a store it has read, or else the
present one. -/
def seenBy (seen : List (RequestStore H)) (now : RequestStore H) (n : ℕ) : RequestStore H :=
  seen.getD n now

variable [DecidableEq H] [HashScheme H]

/-- The steps of any number of calls.  `other` is anything that leaves the
status of the requests alone. -/
inductive LifecycleStep (content : ContentStore H) :
    Lifecycle H → LifecycleEvent → Lifecycle H → Prop where
  | create {s : Lifecycle H} {mr : MergeRequest} (hopened : mr.status = .opened)
      (hnumber : s.store.getRequest mr.projectID mr.number = none) :
      LifecycleStep content s .create
        (({ s with store := { s.store with requests := s.store.requests ++ [mr] } } :
          Lifecycle H).record mr.projectID mr.number .opened)
  | beginMerge {s : Lifecycle H} {i : ℕ} {caller : Caller} {projectID : ID} {number : ℤ}
      {strategy : Str} {lockID newID : ℕ → ID} (hfree : s.calls i = none) :
      LifecycleStep content s .begin
        (s.setCall i (some (.merging caller projectID number strategy lockID newID [])))
  | query {s : Lifecycle H} {i : ℕ} {caller : Caller} {projectID : ID} {number : ℤ}
      {strategy : Str} {lockID newID : ℕ → ID} {seen : List (RequestStore H)}
      (hcall : s.calls i =
        some (.merging caller projectID number strategy lockID newID seen))
      (hleft : seen.length < 22) :
      LifecycleStep content s .query
        (s.setCall i (some (.merging caller projectID number strategy lockID newID
          (seen ++ [s.store]))))
  | fail {s : Lifecycle H} {i : ℕ} {caller : Caller} {projectID : ID} {number : ℤ}
      {strategy : Str} {lockID newID : ℕ → ID} {seen : List (RequestStore H)}
      (hcall : s.calls i =
        some (.merging caller projectID number strategy lockID newID seen)) :
      LifecycleStep content s .fail (s.setCall i none)
  | land {s : Lifecycle H} {i : ℕ} {caller : Caller} {projectID : ID} {number : ℤ}
      {strategy : Str} {lockID newID : ℕ → ID} {seen : List (RequestStore H)} {land : Landing}
      {db' : DB H}
      (hcall : s.calls i =
        some (.merging caller projectID number strategy lockID newID seen))
      (h : mergeRequestLanding content (seenBy seen s.store) caller projectID number strategy
        lockID newID = .ok (land, db')) :
      LifecycleStep content s (.land i projectID number)
        ((({ s with store := { s.store with db := db' } } : Lifecycle H).setCall i
          (some (.landed projectID number
            ((db'.getByProjectIDAndID projectID land.target.id).bind Branch.commitID)))).record
          projectID number .landed)
  | writeMerged {s : Lifecycle H} {i : ℕ} {projectID : ID} {number : ℤ} {c : Option ID}
      (hcall : s.calls i = some (.landed projectID number c)) :
      LifecycleStep content s (.writeMerged i projectID number)
        ((s.writeStatus projectID number .merged c).setCall i none)
  | beginClose {s : Lifecycle H} {i : ℕ} {caller : Caller} {projectID : ID} {number : ℤ}
      (hfree : s.calls i = none)
      (h : setStatus s.store caller projectID number .opened = .ok ()) :
      LifecycleStep content s .begin
        (s.setCall i (some (.settingStatus projectID number .closed)))
  | beginReopen {s : Lifecycle H} {i : ℕ} {caller : Caller} {projectID : ID} {number : ℤ}
      (hfree : s.calls i = none)
      (h : setStatus s.store caller projectID number .closed = .ok ()) :
      LifecycleStep content s .begin
        (s.setCall i (some (.settingStatus projectID number .opened)))
  | writeStatus {s : Lifecycle H} {i : ℕ} {projectID : ID} {number : ℤ} {toStatus : RequestStatus}
      (hcall : s.calls i = some (.settingStatus projectID number toStatus)) :
      LifecycleStep content s (.writeStatus i projectID number)
        ((s.writeStatus projectID number toStatus none).setCall i none)
  | other {s : Lifecycle H} {store' : RequestStore H}
      (hrequests : store'.requests.map (fun mr => (mr.identity, mr.status)) =
        s.store.requests.map fun mr => (mr.identity, mr.status)) :
      LifecycleStep content s .other { s with store := store' }

end Steps

/-! ## The law -/

section Law

variable {H : Type}

def LandedSinceOpened (history : List Mark) : Prop :=
  Mark.landed ∈ history.takeWhile (· ≠ .opened)

/-- A call has landed a request and not written its status. -/
def Lifecycle.Waits (s : Lifecycle H) (projectID : ID) (number : ℤ) (i : ℕ) : Prop :=
  ∃ c, s.calls i = some (.landed projectID number c)

/-- A request is landed once at most, a landed one is merged as soon as its call
has written the status, and a closed one has not been landed since it was last
opened. -/
structure LifecycleHolds (s : Lifecycle H) (projectID : ID) (number : ℤ) : Prop where
  once : (s.history (projectID, number)).count .landed ≤ 1
  becomes_merged : Mark.landed ∈ s.history (projectID, number) →
    s.status projectID number = some .merged ∨ ∃ i, s.Waits projectID number i
  closed : s.status projectID number = some .closed →
    ¬ LandedSinceOpened (s.history (projectID, number))

def StaysMerged (s s' : Lifecycle H) : Prop :=
  ∀ projectID number, s.status projectID number = some .merged →
    s'.status projectID number = some .merged

/-- The call has read the status of the request, and its last write is still to
come. -/
def LifecycleCall.Between (projectID : ID) (number : ℤ) : LifecycleCall H → Prop
  | merging _ p n _ _ _ seen => p = projectID ∧ n = number ∧ seen ≠ []
  | landed p n _ => p = projectID ∧ n = number
  | settingStatus p n _ => p = projectID ∧ n = number

/-- Call `i` is alone on the request: no other call is between its read of the
status and its last write. -/
def Lifecycle.Alone (s : Lifecycle H) (i : ℕ) (projectID : ID) (number : ℤ) : Prop :=
  ∀ j, ∀ c ∈ s.calls j, c.Between projectID number → j = i

/-- No call lands a request or writes its status while another one is between
its read of the status and its last write. -/
def NoRace (s : Lifecycle H) : LifecycleEvent → Prop
  | .land i projectID number => s.Alone i projectID number
  | .writeMerged i projectID number => s.Alone i projectID number
  | .writeStatus i projectID number => s.Alone i projectID number
  | _ => True

end Law

/-! ## What a step does to one request -/

section Requests

variable {H : Type}

theorem getRequest_updateStatus (s : RequestStore H) (projectID p : ID) (number n : ℤ)
    (toStatus : RequestStatus) (c : Option ID) :
    ((s.updateStatus projectID number toStatus c).getRequest p n).map MergeRequest.status =
      if p = projectID ∧ n = number then (s.getRequest p n).map fun _ => toStatus
      else (s.getRequest p n).map MergeRequest.status := by
  simp only [RequestStore.getRequest, RequestStore.updateStatus]
  induction s.requests with
  | nil => simp
  | cons mr rest ih =>
      rw [List.map_cons, List.find?_cons, List.find?_cons]
      have hkey : (if mr.projectID = projectID ∧ mr.number = number then
          { mr with status := toStatus, mergeCommitID := c } else mr).projectID =
          mr.projectID ∧ (if mr.projectID = projectID ∧ mr.number = number then
          { mr with status := toStatus, mergeCommitID := c } else mr).number = mr.number := by
        split
        · exact ⟨rfl, rfl⟩
        · exact ⟨rfl, rfl⟩
      rw [hkey.1, hkey.2]
      rcases hmatch : (decide (mr.projectID = p) && decide (mr.number = n)) with _ | _
      · exact ih
      · simp only [Bool.and_eq_true, decide_eq_true_eq] at hmatch
        obtain ⟨rfl, rfl⟩ := hmatch
        by_cases hsame : mr.projectID = projectID ∧ mr.number = number
        · simp [hsame]
        · simp [hsame]

theorem getRequest_congr {s s' : RequestStore H}
    (h : s'.requests.map (fun mr => (mr.identity, mr.status)) =
      s.requests.map fun mr => (mr.identity, mr.status)) (p : ID) (n : ℤ) :
    (s'.getRequest p n).map MergeRequest.status = (s.getRequest p n).map MergeRequest.status := by
  simp only [RequestStore.getRequest]
  generalize s.requests = l at h
  generalize s'.requests = l' at h
  induction l generalizing l' with
  | nil =>
      obtain rfl := List.map_eq_nil_iff.mp h
      rfl
  | cons mr rest ih =>
      obtain ⟨mr', rest', rfl, hmr, hrest⟩ := List.map_eq_cons_iff.mp h
      simp only [MergeRequest.identity, Prod.mk.injEq] at hmr
      rw [List.find?_cons, List.find?_cons, hmr.1.2.1, hmr.1.2.2.1]
      split
      · simp [hmr.2]
      · exact ih rest' hrest

variable {s s' : Lifecycle H} {p : ID} {n : ℤ}

/-- The effects of a step on one request. -/
inductive KeyStep (s s' : Lifecycle H) (p : ID) (n : ℤ) : LifecycleEvent → Prop where
  | same {e : LifecycleEvent} (hother : e.request ≠ some (p, n))
      (hstatus : s'.status p n = s.status p n)
      (hhistory : s'.history (p, n) = s.history (p, n))
      (hwaits : ∀ i, s'.Waits p n i ↔ s.Waits p n i) : KeyStep s s' p n e
  | created (hnone : s.status p n = none) (hstatus : s'.status p n = some .opened)
      (hhistory : s'.history (p, n) = .opened :: s.history (p, n))
      (hwaits : ∀ i, s'.Waits p n i ↔ s.Waits p n i) : KeyStep s s' p n .create
  | landed {i : ℕ} (hopened : s.status p n = some .opened) (hquiet : ∀ j, ¬ s.Waits p n j)
      (hstatus : s'.status p n = s.status p n)
      (hhistory : s'.history (p, n) = .landed :: s.history (p, n))
      (hwaits : ∀ j, s'.Waits p n j ↔ j = i ∨ s.Waits p n j) : KeyStep s s' p n (.land i p n)
  | merged {i : ℕ} (hwait : s.Waits p n i)
      (hstatus : s'.status p n = (s.status p n).map fun _ => .merged)
      (hhistory : s'.history (p, n) = s.history (p, n))
      (hwaits : ∀ j, s'.Waits p n j ↔ j ≠ i ∧ s.Waits p n j) :
      KeyStep s s' p n (.writeMerged i p n)
  | set {i : ℕ} {toStatus : RequestStatus} (hto : toStatus ≠ .merged)
      (hmerged : s.status p n ≠ some .merged) (hquiet : ∀ j, ¬ s.Waits p n j)
      (hstatus : s'.status p n = (s.status p n).map fun _ => toStatus)
      (hhistory : s'.history (p, n) =
        if toStatus = .opened ∧ s.status p n ≠ some .opened then .opened :: s.history (p, n)
        else s.history (p, n))
      (hwaits : ∀ j, s'.Waits p n j ↔ s.Waits p n j) :
      KeyStep s s' p n (.writeStatus i p n)

/-- What a call in flight relies on: the status it has read is still there.  One
that closes or reopens has checked that it is not merged. -/
def LifecycleCall.Sound (s : Lifecycle H) : LifecycleCall H → Prop
  | merging _ p n _ _ _ seen => ∀ store ∈ seen.head?, ∀ mr,
      store.getRequest p n = some mr → s.status p n = some mr.status
  | landed _ _ _ => True
  | settingStatus p n toStatus => toStatus ≠ .merged ∧
      ∃ status, s.status p n = some status ∧ status ≠ .merged

def CallsSound (s : Lifecycle H) : Prop :=
  ∀ i, ∀ c ∈ s.calls i, c.Sound s

variable {i : ℕ} {c : Option (LifecycleCall H)}

theorem waits_setCall (hold : ¬ s.Waits p n i) (hnew : ∀ x, c ≠ some (.landed p n x)) (j : ℕ) :
    (s.setCall i c).Waits p n j ↔ s.Waits p n j := by
  simp only [Lifecycle.Waits, Lifecycle.setCall]
  by_cases hij : j = i
  · subst hij
    rw [Function.update_self]
    constructor
    · rintro ⟨x, hx⟩
      exact absurd hx (hnew x)
    · intro hwait
      exact absurd hwait hold
  · rw [Function.update_of_ne hij]

theorem not_waits_of_call (hcall : s.calls i = c) (hc : ∀ x, c ≠ some (.landed p n x)) :
    ¬ s.Waits p n i := by
  rintro ⟨x, hx⟩
  exact hc x (hcall.symm.trans hx)

theorem Lifecycle.Alone.quiet {c : LifecycleCall H} (h : s.Alone i p n) (hcall : s.calls i = some c)
    (hc : ∀ x, c ≠ .landed p n x) (j : ℕ) : ¬ s.Waits p n j := by
  rintro ⟨x, hx⟩
  obtain rfl := h j _ hx ⟨rfl, rfl⟩
  exact hc x (Option.some.inj (hcall.symm.trans hx))

variable {e : LifecycleEvent}

theorem KeyStep.of_setCall {c' : Option (LifecycleCall H)} (he : e.request = none)
    (hcall : s.calls i = c) (hc : ∀ x, c ≠ some (.landed p n x))
    (hc' : ∀ x, c' ≠ some (.landed p n x)) : KeyStep s (s.setCall i c') p n e :=
  .same (by simp [he]) rfl rfl (waits_setCall (not_waits_of_call hcall hc) hc')

theorem history_record (s : Lifecycle H) (projectID : ID) (number : ℤ) (mark : Mark) (p : ID)
    (n : ℤ) :
    (s.record projectID number mark).history (p, n) =
      if p = projectID ∧ n = number then mark :: s.history (p, n) else s.history (p, n) := by
  simp only [Lifecycle.record, Function.update_apply, Prod.mk.injEq]
  split
  next h => rw [h.1, h.2]
  · rfl

theorem status_writeStatus (s : Lifecycle H) (projectID : ID) (number : ℤ)
    (toStatus : RequestStatus) (c : Option ID) (p : ID) (n : ℤ) :
    (s.writeStatus projectID number toStatus c).status p n =
      if p = projectID ∧ n = number then (s.status p n).map fun _ => toStatus
      else s.status p n := by
  have hstatus : (s.writeStatus projectID number toStatus c).status p n =
      ((s.store.updateStatus projectID number toStatus c).getRequest p n).map
        MergeRequest.status := by
    rw [Lifecycle.writeStatus]
    split
    · rfl
    · rfl
  rw [hstatus, getRequest_updateStatus, Lifecycle.status, Option.map_map]
  rfl

theorem calls_writeStatus (s : Lifecycle H) (projectID : ID) (number : ℤ)
    (toStatus : RequestStatus) (c : Option ID) :
    (s.writeStatus projectID number toStatus c).calls = s.calls := by
  rw [Lifecycle.writeStatus]
  split
  · rfl
  · rfl

theorem history_writeStatus (s : Lifecycle H) (projectID : ID) (number : ℤ)
    (toStatus : RequestStatus) (c : Option ID) (p : ID) (n : ℤ) :
    (s.writeStatus projectID number toStatus c).history (p, n) =
      if (p = projectID ∧ n = number) ∧ toStatus = .opened ∧
          s.status projectID number ≠ some .opened then
        .opened :: s.history (p, n)
      else s.history (p, n) := by
  rw [Lifecycle.writeStatus]
  split
  next hopens =>
    rw [history_record]
    simp [hopens]
  next hopens =>
    rw [if_neg]
    rintro ⟨-, h⟩
    exact hopens h

theorem request_ne {projectID : ID} {number : ℤ} (hkey : ¬ (p = projectID ∧ n = number)) :
    some (projectID, number) ≠ some (p, n) := by
  intro h
  simp only [Option.some.injEq, Prod.mk.injEq] at h
  exact hkey ⟨h.1.symm, h.2.symm⟩

theorem status_create {mr : MergeRequest}
    (hnumber : s.store.getRequest mr.projectID mr.number = none) (p : ID) (n : ℤ) :
    ((s.store.requests ++ [mr]).find? fun m => m.projectID = p && m.number = n).map
        MergeRequest.status =
      if p = mr.projectID ∧ n = mr.number then some mr.status else s.status p n := by
  rw [List.find?_append]
  split
  next hkey =>
    obtain ⟨rfl, rfl⟩ := hkey
    rw [RequestStore.getRequest] at hnumber
    simp [hnumber]
  next hkey =>
    have hlast : ([mr].find? fun m => m.projectID = p && m.number = n) = none := by
      simp only [List.find?_singleton, Bool.and_eq_true, decide_eq_true_eq]
      rw [if_neg]
      rintro ⟨rfl, rfl⟩
      exact hkey ⟨rfl, rfl⟩
    rw [hlast, Option.or_none]
    rfl

variable [DecidableEq H] [HashScheme H]

theorem LifecycleStep.keyStep {content : ContentStore H} (hcalls : CallsSound s)
    (hrace : NoRace s e) (h : LifecycleStep content s e s') (p : ID) (n : ℤ) :
    KeyStep s s' p n e := by
  cases h with
  | @create mr hopened hnumber =>
      have hstatus := status_create (s := s) hnumber p n
      by_cases hkey : p = mr.projectID ∧ n = mr.number
      · rw [if_pos hkey, hopened] at hstatus
        refine .created ?_ hstatus ?_ fun i => Iff.rfl
        · rw [Lifecycle.status, hkey.1, hkey.2, hnumber, Option.map_none]
        · rw [history_record, if_pos hkey]
      · rw [if_neg hkey] at hstatus
        refine .same (by simp [LifecycleEvent.request]) hstatus ?_ fun i => Iff.rfl
        rw [history_record, if_neg hkey]
  | beginMerge hfree => exact .of_setCall rfl hfree (by simp) (by simp)
  | query hcall => exact .of_setCall rfl hcall (by simp) (by simp)
  | fail hcall => exact .of_setCall rfl hcall (by simp) (by simp)
  | @land i caller projectID number strategy lockID newID seen land db' hcall hland =>
      by_cases hkey : p = projectID ∧ n = number
      · obtain ⟨rfl, rfl⟩ := hkey
        refine .landed ?_ (Lifecycle.Alone.quiet hrace hcall (by simp)) rfl ?_ ?_
        · -- the request was open at the first query, and still is
          obtain ⟨w, hplan, -⟩ := mergeRequestLanding_ok hland
          obtain ⟨mr, target, hmr, hpassed, -⟩ := mergeRequestPlan_ok hplan
          rw [← hpassed.opened]
          rcases seen with _ | ⟨first, rest⟩
          · have hnow : s.store.getRequest p n = some mr := hmr
            rw [Lifecycle.status, hnow, Option.map_some]
          · exact hcalls i _ hcall first rfl mr hmr
        · rw [history_record, if_pos ⟨rfl, rfl⟩]
          rfl
        · intro j
          simp only [Lifecycle.Waits, Lifecycle.record, Lifecycle.setCall]
          by_cases hij : j = i
          · simp [hij]
          · simp [hij]
      · refine .same (request_ne hkey) rfl ?_ ?_
        · rw [history_record, if_neg hkey]
          rfl
        · refine waits_setCall (not_waits_of_call hcall (by simp)) ?_
          intro x hx
          simp only [Option.some.injEq, LifecycleCall.landed.injEq] at hx
          exact hkey ⟨hx.1.symm, hx.2.1.symm⟩
  | @writeMerged i projectID number c hcall =>
      have hhistory := history_writeStatus s projectID number .merged c p n
      rw [if_neg (by simp)] at hhistory
      have hstatus := status_writeStatus s projectID number .merged c p n
      by_cases hkey : p = projectID ∧ n = number
      · rw [if_pos hkey] at hstatus
        obtain ⟨rfl, rfl⟩ := hkey
        refine .merged ⟨c, hcall⟩ hstatus hhistory ?_
        intro j
        simp only [Lifecycle.Waits, Lifecycle.setCall, calls_writeStatus]
        by_cases hij : j = i
        · simp [hij]
        · simp [hij]
      · rw [if_neg hkey] at hstatus
        refine .same (request_ne hkey) hstatus hhistory ?_
        intro j
        refine (waits_setCall ?_ (by simp) j).trans ?_
        · rintro ⟨x, hx⟩
          rw [calls_writeStatus, hcall] at hx
          simp only [Option.some.injEq, LifecycleCall.landed.injEq] at hx
          exact hkey ⟨hx.1.symm, hx.2.1.symm⟩
        · rw [Lifecycle.Waits, calls_writeStatus]
          rfl
  | beginClose hfree => exact .of_setCall rfl hfree (by simp) (by simp)
  | beginReopen hfree => exact .of_setCall rfl hfree (by simp) (by simp)
  | @writeStatus i projectID number toStatus hcall =>
      have hhistory := history_writeStatus s projectID number toStatus none p n
      have hstatus := status_writeStatus s projectID number toStatus none p n
      have hwaits : ∀ j, ((s.writeStatus projectID number toStatus none).setCall i
          none).Waits p n j ↔ s.Waits p n j := by
        intro j
        refine (waits_setCall ?_ (by simp) j).trans ?_
        · rintro ⟨x, hx⟩
          rw [calls_writeStatus, hcall] at hx
          simp at hx
        · rw [Lifecycle.Waits, calls_writeStatus]
          rfl
      by_cases hkey : p = projectID ∧ n = number
      · rw [if_pos hkey] at hstatus
        obtain ⟨rfl, rfl⟩ := hkey
        obtain ⟨hto, status, hread, hmerged⟩ := hcalls i _ hcall
        refine .set hto ?_ (Lifecycle.Alone.quiet hrace hcall (by simp)) hstatus ?_ hwaits
        · rw [hread]
          exact fun hm => hmerged (Option.some.inj hm)
        simp only [and_self, true_and] at hhistory
        exact hhistory
      · rw [if_neg hkey] at hstatus
        rw [if_neg fun h => hkey h.1] at hhistory
        exact .same (request_ne hkey) hstatus hhistory hwaits
  | other hrequests =>
      exact .same (by simp [LifecycleEvent.request]) (getRequest_congr hrequests p n) rfl
        fun i => Iff.rfl

/-- What is known of one request as long as no calls race. -/
structure KeyInv (s : Lifecycle H) (p : ID) (n : ℤ) : Prop where
  waiting : ∀ i, s.Waits p n i →
    s.status p n = some .opened ∧ ∃ rest, s.history (p, n) = .landed :: rest
  unique : ∀ i j, s.Waits p n i → s.Waits p n j → i = j
  once : (s.history (p, n)).count .landed ≤ 1
  landed : Mark.landed ∈ s.history (p, n) →
    s.status p n = some .merged ∨ ∃ i, s.Waits p n i

omit [DecidableEq H] [HashScheme H] in
theorem KeyInv.not_landed (h : KeyInv s p n) (hstatus : s.status p n ≠ some .merged)
    (hwaits : ∀ i, ¬ s.Waits p n i) : Mark.landed ∉ s.history (p, n) := by
  intro hmem
  rcases h.landed hmem with hmerged | ⟨i, hi⟩
  · exact hstatus hmerged
  · exact hwaits i hi

omit [DecidableEq H] [HashScheme H] in
theorem KeyInv.holds (h : KeyInv s p n) : LifecycleHolds s p n where
  once := h.once
  becomes_merged := h.landed
  closed := by
    intro hclosed hsince
    refine h.not_landed ?_ ?_ ((List.takeWhile_sublist _).subset hsince)
    · simp [hclosed]
    · intro i hi
      have hopened := (h.waiting i hi).1
      simp [hclosed] at hopened

omit [DecidableEq H] [HashScheme H] in
theorem KeyInv.step (h : KeyInv s p n) (hstep : KeyStep s s' p n e) :
    KeyInv s' p n ∧ (s.status p n = some .merged → s'.status p n = some .merged) := by
  cases hstep with
  | same hother hstatus hhistory hwaits =>
      refine ⟨⟨?_, ?_, ?_, ?_⟩, ?_⟩
      · simpa only [hwaits, hstatus, hhistory] using h.waiting
      · simpa only [hwaits] using h.unique
      · simpa only [hhistory] using h.once
      · simpa only [hwaits, hstatus, hhistory] using h.landed
      · simp only [hstatus, imp_self]
  | created hnone hstatus hhistory hwaits =>
      have hquiet : ∀ i, ¬ s.Waits p n i := by
        intro i hi
        have hopened := (h.waiting i hi).1
        simp [hnone] at hopened
      have hnot := h.not_landed (by simp [hnone]) hquiet
      refine ⟨⟨?_, ?_, ?_, ?_⟩, ?_⟩
      · intro i hi
        exact absurd ((hwaits i).mp hi) (hquiet i)
      · intro i _ hi
        exact absurd ((hwaits i).mp hi) (hquiet i)
      · rw [hhistory]
        simp [List.count_eq_zero_of_not_mem hnot]
      · rw [hhistory]
        simp [hnot]
      · simp [hnone]
  | @landed i hopened hquiet hstatus hhistory hwaits =>
      have hnot := h.not_landed (by simp [hopened]) hquiet
      refine ⟨⟨?_, ?_, ?_, ?_⟩, ?_⟩
      · intro j _
        exact ⟨hstatus.trans hopened, _, hhistory⟩
      · have honly : ∀ j, s'.Waits p n j → j = i := by
          intro j hj
          rcases (hwaits j).mp hj with rfl | hold
          · rfl
          · exact absurd hold (hquiet j)
        intro j k hj hk
        rw [honly j hj, honly k hk]
      · rw [hhistory]
        simp [List.count_eq_zero_of_not_mem hnot]
      · intro _
        exact Or.inr ⟨i, (hwaits i).mpr (Or.inl rfl)⟩
      · simp [hopened]
  | @merged i hwait hstatus hhistory hwaits =>
      have hmerged : s'.status p n = some .merged := by
        rw [hstatus, (h.waiting i hwait).1, Option.map_some]
      have hnone : ∀ j, ¬ s'.Waits p n j := by
        intro j hj
        obtain ⟨hne, hold⟩ := (hwaits j).mp hj
        exact hne (h.unique j i hold hwait)
      refine ⟨⟨?_, ?_, ?_, ?_⟩, ?_⟩
      · intro j hj
        exact absurd hj (hnone j)
      · intro j _ hj
        exact absurd hj (hnone j)
      · rw [hhistory]
        exact h.once
      · exact fun _ => Or.inl hmerged
      · exact fun _ => hmerged
  | set hto hmerged hquiet hstatus hhistory hwaits =>
      have hnot := h.not_landed hmerged hquiet
      have hnever : Mark.landed ∉ s'.history (p, n) := by
        rw [hhistory]
        split
        · simpa using hnot
        · exact hnot
      refine ⟨⟨?_, ?_, ?_, ?_⟩, ?_⟩
      · intro i hi
        exact absurd ((hwaits i).mp hi) (hquiet i)
      · intro i _ hi
        exact absurd ((hwaits i).mp hi) (hquiet i)
      · simp [List.count_eq_zero_of_not_mem hnever]
      · exact fun hlanded => absurd hlanded hnever
      · exact fun hm => absurd hm hmerged

omit [DecidableEq H] [HashScheme H] in
theorem KeyStep.status_eq (h : KeyStep s s' p n e) (hother : e.request ≠ some (p, n))
    (hsome : s.status p n ≠ none) : s'.status p n = s.status p n := by
  cases h with
  | same _ hstatus => exact hstatus
  | created hnone => exact absurd hnone hsome
  | landed => exact absurd rfl hother
  | merged => exact absurd rfl hother
  | set => exact absurd rfl hother

omit [DecidableEq H] [HashScheme H] in
theorem LifecycleCall.Sound.keep {c : LifecycleCall H} (h : c.Sound s)
    (hkeep : ∀ p n, c.Between p n → s.status p n ≠ none → s'.status p n = s.status p n) :
    c.Sound s' := by
  cases c with
  | merging caller p n strategy lockID newID seen =>
      intro store hstore mr hmr
      have hstatus := h store hstore mr hmr
      rw [hkeep p n ⟨rfl, rfl, ?_⟩ (by simp [hstatus]), hstatus]
      rintro rfl
      simp at hstore
  | landed p n commitID => trivial
  | settingStatus p n toStatus =>
      obtain ⟨hto, status, hstatus, hmerged⟩ := h
      refine ⟨hto, status, ?_, hmerged⟩
      rw [hkeep p n ⟨rfl, rfl⟩ (by simp [hstatus]), hstatus]

omit [DecidableEq H] [HashScheme H] in
/-- A step of call `i` keeps the calls sound if the call it puts in flight is
and nobody who has read the status of a request sees it changed. -/
theorem CallsSound.of_update (h : CallsSound s)
    (hkeep : ∀ j, j ≠ i → ∀ c ∈ s.calls j, ∀ p n, c.Between p n → s.status p n ≠ none →
      s'.status p n = s.status p n) (hcalls : s'.calls = Function.update s.calls i c)
    (hnew : ∀ c' ∈ c, c'.Sound s') : CallsSound s' := by
  intro j c' hc'
  rw [hcalls] at hc'
  by_cases hij : j = i
  · rw [hij, Function.update_self] at hc'
    exact hnew c' hc'
  · rw [Function.update_of_ne hij] at hc'
    exact (h j c' hc').keep (hkeep j hij c' hc')

omit [DecidableEq H] [HashScheme H] in
theorem setStatus_ok {store : RequestStore H} {caller : Caller} {fromStatus : RequestStatus}
    (h : setStatus store caller p n fromStatus = .ok ()) :
    (store.getRequest p n).map MergeRequest.status = some fromStatus := by
  rw [setStatus] at h
  simp only [loadRequest, bind_eq_ok, orError_eq_ok, refuseIf_eq_ok, not_not] at h
  obtain ⟨mr, ⟨_, -, _, -, hmr⟩, _, -, _, -, hstatus⟩ := h
  rw [hmr, Option.map_some, hstatus]

theorem CallsSound.step {content : ContentStore H} (h : CallsSound s) (hrace : NoRace s e)
    (hstep : LifecycleStep content s e s') : CallsSound s' := by
  have hkey : ∀ p n, KeyStep s s' p n e := hstep.keyStep h hrace
  -- a step that writes no request leaves every status alone
  have hquiet : e.request = none → ∀ p n, s.status p n ≠ none →
      s'.status p n = s.status p n := by
    intro he p n hsome
    exact (hkey p n).status_eq (by simp [he]) hsome
  -- one that does is alone on its request
  have halone : ∀ {i : ℕ} {projectID : ID} {number : ℤ}, s.Alone i projectID number →
      e.request = some (projectID, number) → ∀ j, j ≠ i → ∀ c ∈ s.calls j, ∀ p n,
      c.Between p n → s.status p n ≠ none → s'.status p n = s.status p n := by
    intro i projectID number hal he j hji c hc p n hbetween hsome
    refine (hkey p n).status_eq ?_ hsome
    rw [he]
    rintro ⟨rfl, rfl⟩
    exact hji (hal j c hc hbetween)
  cases hstep with
  | create _ _ => exact fun j c hc => (h j c hc).keep fun p n _ => hquiet rfl p n
  | beginMerge _ =>
      refine h.of_update (fun _ _ _ _ p n _ => hquiet rfl p n) rfl ?_
      rintro _ ⟨⟩ store hstore
      simp at hstore
  | @query i caller projectID number strategy lockID newID seen hcall _ =>
      refine h.of_update (fun _ _ _ _ p n _ => hquiet rfl p n) rfl ?_
      rintro _ ⟨⟩ store hstore mr hmr
      rcases seen with _ | ⟨first, rest⟩
      · obtain rfl : s.store = store := by simpa using hstore
        change (s.store.getRequest projectID number).map _ = _
        rw [hmr, Option.map_some]
      · exact h i _ hcall store hstore mr hmr
  | fail _ => exact h.of_update (fun _ _ _ _ p n _ => hquiet rfl p n) rfl (by simp)
  | land _ _ =>
      refine h.of_update (halone hrace rfl) rfl ?_
      rintro _ ⟨⟩
      trivial
  | @writeMerged i projectID number c _ =>
      refine h.of_update (halone hrace rfl) ?_ (by simp) (i := i) (c := none)
      rw [Lifecycle.setCall, calls_writeStatus]
  | beginClose _ hset =>
      refine h.of_update (fun _ _ _ _ p n _ => hquiet rfl p n) rfl ?_
      rintro _ ⟨⟩
      exact ⟨by simp, .opened, setStatus_ok hset, by simp⟩
  | beginReopen _ hset =>
      refine h.of_update (fun _ _ _ _ p n _ => hquiet rfl p n) rfl ?_
      rintro _ ⟨⟩
      exact ⟨by simp, .closed, setStatus_ok hset, by simp⟩
  | @writeStatus i projectID number toStatus _ =>
      refine h.of_update (halone hrace rfl) ?_ (by simp) (i := i) (c := none)
      rw [Lifecycle.setCall, calls_writeStatus]
  | other _ => exact fun j c hc => (h j c hc).keep fun p n _ => hquiet rfl p n

/-- A server before its first merge request. -/
structure Lifecycle.Fresh (s : Lifecycle H) : Prop where
  requests : s.store.requests = []
  calls : ∀ i, s.calls i = none
  history : ∀ key, s.history key = []

def Lifecycle.Inv (s : Lifecycle H) : Prop :=
  CallsSound s ∧ ∀ p n, KeyInv s p n

omit [DecidableEq H] [HashScheme H] in
theorem Lifecycle.Fresh.inv (h : s.Fresh) : s.Inv := by
  refine ⟨?_, fun p n => ?_⟩
  · intro i c hc
    simp [h.calls] at hc
  · have hquiet : ∀ i, ¬ s.Waits p n i := by
      rintro i ⟨c, hc⟩
      simp [h.calls] at hc
    refine ⟨fun i hi => absurd hi (hquiet i), fun i _ hi => absurd hi (hquiet i), ?_, ?_⟩
    · simp [h.history]
    · simp [h.history]

theorem Lifecycle.Inv.step {content : ContentStore H} (h : s.Inv) (hrace : NoRace s e)
    (hstep : LifecycleStep content s e s') : s'.Inv ∧ StaysMerged s s' := by
  have hkey : ∀ p n, KeyStep s s' p n e := hstep.keyStep h.1 hrace
  exact ⟨⟨h.1.step hrace hstep, fun p n => ((h.2 p n).step (hkey p n)).1⟩,
    fun p n => ((h.2 p n).step (hkey p n)).2⟩

end Requests

/-! ## A close around a merge -/

end Nipa
