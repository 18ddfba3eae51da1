import Nipa.Review.BranchNames

/-!
# The review summary of a project

The list of merge requests shows how many approvals and change requests each of
them has, counted by one query over the whole project.  The query finds the head
a review must be for by the id of the source branch, and the review state of a
single request by its name.  They count the same as long as no source branch is
renamed and no other branch takes its name.
-/

namespace Nipa

open Support

/-! ## The query -/

section Query

variable {H : Type}

/-- The head of the live branch that a request's source id belongs to. -/
def joinedHead (s : RequestStore H) (mr : MergeRequest) : Option ID :=
  (s.db.branches.find? fun b => b.id = mr.sourceBranchID && !b.deleted).bind Branch.commitID

/-- Whether the query counts a review of a request; without a head none is stale. -/
def summaryCounts (s : RequestStore H) (projectID : ID) (r : Review) (mr : MergeRequest) :
    Bool :=
  mr.id = r.mergeRequestID && mr.projectID = projectID && !r.dismissed &&
    r.state ≠ .commented && r.headCommitID = (joinedHead s mr).getD r.headCommitID

/-- The rows the query groups: reviews joined with their requests. -/
def summaryRows (s : RequestStore H) (projectID : ID) : List (ℤ × ReviewDecision) :=
  s.reviews.flatMap fun r =>
    (s.requests.filter (summaryCounts s projectID r)).map fun mr => (mr.number, r.state)

/-- The summary of a request; one that has no rows has no decisions. -/
def reviewSummaries (s : RequestStore H) (projectID : ID) (number : ℤ) : ReviewState :=
  ⟨(summaryRows s projectID).count (number, .approved),
    (summaryRows s projectID).count (number, .changesRequested)⟩

end Query

/-! ## Counting rows -/

/-- Among rows with different keys, those that `p` picks by the key of one of them are that
row or none. -/
theorem countP_of_key {α β : Type} [DecidableEq α] {key : α → β} {l : List α}
    (hkeys : (l.map key).Nodup) {a : α} (ha : a ∈ l) {p : α → Bool}
    (hp : ∀ x ∈ l, p x = true → key x = key a) : l.countP p = if p a then 1 else 0 := by
  have hall : ∀ x ∈ l, p x = true → x = a := fun x hx hpx =>
    List.inj_on_of_nodup_map hkeys hx ha (hp x hx hpx)
  by_cases hpa : p a = true
  · have hcount : l.countP p = l.count a := by
      apply List.countP_congr
      intro x hx
      rw [beq_iff_eq]
      constructor
      · exact hall x hx
      · rintro rfl
        exact hpa
    rw [hcount, List.count_eq_one_of_mem hkeys.of_map ha, if_pos hpa]
  · rw [if_neg hpa, List.countP_eq_zero]
    intro x hx hpx
    rw [hall x hx hpx] at hpx
    exact hpa hpx

section Counts

variable {H : Type} {s s' : RequestStore H} {e : BranchEvent} {projectID : ID} {number : ℤ}
  {mr : MergeRequest}

/-- The numbers of a project's requests differ. -/
def NumbersDistinct (s : RequestStore H) : Prop :=
  (s.requests.map fun mr => (mr.projectID, mr.number)).Nodup

theorem count_summaryRows (hnumbers : NumbersDistinct s)
    (hmr : s.getRequest projectID number = some mr) (d : ReviewDecision) :
    (summaryRows s projectID).count (number, d) =
      (s.reviews.filter fun r => summaryCounts s projectID r mr && r.state = d).length := by
  have hcond := List.find?_some hmr
  simp only [Bool.and_eq_true, decide_eq_true_eq] at hcond
  have hmem : mr ∈ s.requests := List.mem_of_find?_eq_some hmr
  rw [summaryRows]
  induction s.reviews with
  | nil => rfl
  | cons r rest ih =>
      have hone : ((s.requests.filter (summaryCounts s projectID r)).map fun m =>
          (m.number, r.state)).count (number, d) =
          if summaryCounts s projectID r mr && r.state = d then 1 else 0 := by
        rw [List.count, List.countP_map, List.countP_filter]
        rw [countP_of_key hnumbers hmem]
        · simp only [Function.comp, hcond.2]
          congr 1
          rw [Bool.and_comm]
          simp
        · intro x _ hx
          simp only [Function.comp, Bool.and_eq_true, beq_iff_eq, Prod.mk.injEq,
            summaryCounts, decide_eq_true_eq] at hx
          obtain ⟨⟨hnumber, -⟩, ⟨⟨⟨⟨-, hproject⟩, -⟩, -⟩, -⟩⟩ := hx
          rw [hproject, hnumber, hcond.1, hcond.2]
      rw [List.flatMap_cons, List.count_append, hone, ih, List.filter_cons]
      split
      · rw [List.length_cons, Nat.add_comm]
      · rw [Nat.zero_add]

/-- Where the name and the id of the source lead to the same row, the summary counts what
the review state counts. -/
theorem reviewSummaries_eq (hnumbers : NumbersDistinct s)
    (hmr : s.getRequest projectID number = some mr)
    (hhead : joinedHead s mr = s.sourceHead mr.projectID mr) {perm : PermissionUsecase}
    {state : ReviewState}
    (h : reviewState (fun _ => s) 0 perm projectID number = .ok state) :
    reviewSummaries s projectID number = state := by
  have hcond := List.find?_some hmr
  simp only [Bool.and_eq_true, decide_eq_true_eq] at hcond
  rw [reviewState] at h
  simp only [liveReviews, loadRequest, bind_eq_ok, orError_eq_ok, pure_eq_ok] at h
  obtain ⟨l, ⟨mr', ⟨_, -, _, -, hmr'⟩, rfl⟩, rfl⟩ := h
  obtain rfl := Option.some.inj (hmr.symm.trans hmr')
  have hsame : ∀ d : ReviewDecision, d ≠ .commented →
      (s.reviews.filter fun r => summaryCounts s projectID r mr && r.state = d) =
        (countedReviews (listReviews s mr.id) (s.sourceHead mr.projectID mr)).filter
          fun r => r.state = d := by
    intro d hd
    rw [countedReviews, listReviews, List.filter_filter, List.filter_filter]
    apply List.filter_congr
    intro r _
    rw [Bool.eq_iff_iff]
    simp only [summaryCounts, hhead, hcond.1, Bool.and_eq_true, decide_eq_true_eq]
    rcases s.sourceHead projectID mr with _ | head
    · simp only [Option.getD_none, Option.any_none, Bool.not_false]
      grind
    · simp only [Option.getD_some, Option.any_some]
      grind
  rw [reviewSummaries, count_summaryRows hnumbers hmr, count_summaryRows hnumbers hmr,
    hsame _ (by decide), hsame _ (by decide)]

/-! ## Summaries through a run -/

/-- No source branch of a request is renamed, and no branch gets the name of one. -/
def SourceNameKept (s : RequestStore H) (e : BranchEvent) : Prop :=
  ∀ mr ∈ s.requests, ¬ e.renames s.db.branches mr.sourceBranchID ∧
    ¬ e.gives mr.projectID mr.sourceBranch

/-- The name of the source leads to the branch with the source id, and to no other. -/
structure SourceNamed (branches : List Branch) (mr : MergeRequest) : Prop where
  keeps : KeepsName branches mr.sourceBranchID mr.projectID mr.sourceBranch
  owns : OwnsName branches mr.sourceBranchID mr.projectID mr.sourceBranch

structure SourcesNamed (s : RequestStore H) : Prop where
  table : BranchTable s.db.branches
  numbers : NumbersDistinct s
  named : ∀ mr ∈ s.requests, SourceNamed s.db.branches mr

theorem SourceNamed.joinedHead_eq (h : SourceNamed s.db.branches mr) :
    joinedHead s mr = s.sourceHead mr.projectID mr := by
  rw [joinedHead, RequestStore.sourceHead, DB.getBranchByName]
  congr 1
  apply find?_congr_mem
  intro b hb
  rw [Bool.eq_iff_iff]
  simp only [Bool.and_eq_true, decide_eq_true_eq, Bool.not_eq_true']
  constructor
  · rintro ⟨hid, hlive⟩
    exact ⟨h.keeps.named b hb hlive hid, hlive⟩
  · rintro ⟨⟨hproject, hname⟩, hlive⟩
    exact ⟨h.owns b hb hlive hproject hname, hlive⟩

theorem NumbersDistinct.step (h : NumbersDistinct s) (hrequests : RequestRows s s') :
    NumbersDistinct s' := by
  rw [NumbersDistinct]
  cases hrequests with
  | same hids =>
      have hnumbers := map_of_identity hids (f := fun mr => (mr.projectID, mr.number)) (by
        intro a b heq
        simp only [MergeRequest.identity, Prod.mk.injEq] at heq
        rw [heq.2.1, heq.2.2.1])
      rw [hnumbers]
      exact h
  | created hrows hnumber _ _ _ _ =>
      rw [hrows, List.map_append, List.map_singleton, List.nodup_append]
      refine ⟨h, List.nodup_singleton _, ?_⟩
      rintro x hx y hy rfl
      rw [List.mem_singleton] at hy
      obtain ⟨m, hm, heq⟩ := List.mem_map.mp hx
      rw [hy, Prod.mk.injEq] at heq
      exact hnumber m hm heq.1 heq.2

theorem SourcesNamed.step [DecidableEq H] [HashScheme H] (h : SourcesNamed s)
    (hcond : SourceNameKept s e) (hstep : BranchStep s e s') : SourcesNamed s' := by
  obtain ⟨hbranches, hrequests⟩ := hstep.rows
  have htable := h.table.step hbranches
  refine ⟨htable, h.numbers.step hrequests, hrequests.forall ?_ ?_ ?_⟩
  · intro mr mr' heq hmr
    simp only [MergeRequest.identity, Prod.mk.injEq] at heq
    obtain ⟨-, -, hproject, hsourceID, -, hsource, -, -⟩ := heq
    constructor
    · rw [hsourceID, hproject, hsource]
      exact hmr.keeps
    · rw [hsourceID, hproject, hsource]
      exact hmr.owns
  · intro mr hmr
    exact ⟨(h.named mr hmr).keeps.step hbranches (hcond mr hmr).1,
      (h.named mr hmr).owns.step hbranches (hcond mr hmr).2⟩
  · intro mr source target hsource _ hsourceID _
    constructor
    · rw [hsourceID]
      exact htable.keepsName hsource
    · rw [hsourceID]
      exact htable.ownsName hsource

/-- In runs that neither rename a source branch nor give its name to another branch, the
summary of every request has the counts of its review state. -/
theorem review_summaries_agree [DecidableEq H] [HashScheme H] {s₀ : RequestStore H}
    (hempty : s₀.requests = []) (htable : BranchTable s₀.db.branches)
    (hrun : Run BranchStep SourceNameKept s₀ s) {perm : PermissionUsecase} {state : ReviewState}
    (h : reviewState (fun _ => s) 0 perm projectID number = .ok state) :
    reviewSummaries s projectID number = state := by
  have hinit : SourcesNamed s₀ := by
    refine ⟨htable, ?_, by simp [hempty]⟩
    rw [NumbersDistinct, hempty]
    exact List.nodup_nil
  have hnamed : SourcesNamed s :=
    hrun.invariant hinit fun _ _ _ hinv hcond hstep => hinv.step hcond hstep
  have hmr := h
  rw [reviewState] at hmr
  simp only [liveReviews, loadRequest, bind_eq_ok, orError_eq_ok] at hmr
  obtain ⟨_, ⟨mr, ⟨_, -, _, -, hmr⟩, -⟩, -⟩ := hmr
  exact reviewSummaries_eq hnamed.numbers hmr
    (hnamed.named mr (List.mem_of_find?_eq_some hmr)).joinedHead_eq h

end Counts

/-! ## A name that is used again -/

theorem featureApproval_submitted :
    openReview (featureStore [featureRequest] []) (reviewCaller 6) 1 1 .approved "ok".toList 0
      20 1 = .ok (approval 20 8 1) := rfl

theorem approvedFeature_run {P : RequestStore IdealHash → BranchEvent → Prop}
    (hP : ∀ requests reviews, P (featureStore requests reviews) .other) :
    Run BranchStep P (featureStore [] [])
      (featureStore [featureRequest] [approval 20 8 1]) :=
  ((Run.refl _).tail (hP [] []) (BranchStep.createRequest featureRequest_created)).tail
    (hP [featureRequest] []) (BranchStep.submitReview featureApproval_submitted)

/-- An approved request has one approval in both. -/
theorem review_summaries_agree_demo :
    ∃ state, reviewState (fun _ => featureStore [featureRequest] [approval 20 8 1]) 0
      demoCaller.perm 1 1 = .ok state ∧ state.approvals = 1 ∧
      reviewSummaries (featureStore [featureRequest] [approval 20 8 1]) 1 1 = state := by
  refine ⟨⟨1, 0⟩, rfl, rfl, ?_⟩
  have hrun : Run BranchStep SourceNameKept (featureStore [] [])
      (featureStore [featureRequest] [approval 20 8 1]) :=
    approvedFeature_run fun _ _ mr _ => ⟨id, id⟩
  exact review_summaries_agree rfl featureStore_table hrun
    (rfl : reviewState _ 0 demoCaller.perm 1 1 = .ok _)

/-- The project after a branch is created under the name the source had. -/
def reusedDB : DB IdealHash :=
  { topicDB with
    branches := topicDB.branches ++
      [⟨3, 1, "feature".toList, false, false, some 7, false⟩] }

/-- The source is renamed and a new branch takes its name; the list still shows the
approval, and the review state no longer counts it. -/
theorem reused_name_summaries_differ :
    ∃ s, Run BranchStep (fun _ _ => True) (featureStore [] []) s ∧
      reviewSummaries s 1 1 = ⟨1, 0⟩ ∧
      reviewState (fun _ => s) 0 demoCaller.perm 1 1 = .ok ⟨0, 0⟩ := by
  have hrename : renameBranch featureDB demoCaller 1 "feature".toList "topic".toList =
      .ok topicDB := rfl
  have hcreate : createBranch topicDB demoCaller 3 1 "feature".toList ⟨[], none, none⟩ =
      .ok reusedDB := rfl
  have happroved : Run BranchStep (fun _ _ => True) (featureStore [] [])
      (featureStore [featureRequest] [approval 20 8 1]) := approvedFeature_run fun _ _ => trivial
  exact ⟨_, (happroved.tail trivial (BranchStep.renameBranch hrename)).tail trivial
    (BranchStep.createBranch hcreate), rfl, rfl⟩

end Nipa
