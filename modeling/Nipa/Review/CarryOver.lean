import Nipa.Review.Runs

/-!
# Decisions carried over a push

When the target branch keeps decisions, a push to the source of an open request
moves every live decision on an older head to the new head.  The move is one
bulk update under the index of one review per reviewer and head, so it fails
when a reviewer has live decisions on two heads.  Such reviewers exist: a push
while the request is closed leaves a decision behind on the old head, and after
the request is opened again the reviewer can decide on the new head as well.
-/

namespace Nipa

open Support

/-! ## One update -/

/-- Beside a live decision on an older head a reviewer has no other live decision
and no review of the new head. -/
def OneDecision (reviews : List Review) (m c : ID) : Prop :=
  ∀ r ∈ reviews, r.Stale m c → ∀ r' ∈ reviews, r'.mergeRequestID = m →
    r'.reviewerID = r.reviewerID → (r'.Live ∨ r'.headCommitID = c) → r' = r

/-- A live decision of a reviewer on a head. -/
def DecidesOn (r : Review) (m reviewer c : ID) : Prop :=
  r.mergeRequestID = m ∧ r.reviewerID = reviewer ∧ r.Live ∧ r.headCommitID = c

/-- The latest of a reviewer's live decisions on any head. -/
def MostRecent (reviews : List Review) (m reviewer : ID) (r : Review) : Prop :=
  r ∈ reviews ∧ r.mergeRequestID = m ∧ r.reviewerID = reviewer ∧ r.Live ∧
    ∀ r' ∈ reviews, r'.mergeRequestID = m → r'.reviewerID = reviewer → r'.Live →
      r'.updatedAt ≤ r.updatedAt

/-- Every reviewer with a live decision has exactly one on the new head, the
latest one. -/
def CarriesDecisions (before after : List Review) (m c : ID) : Prop :=
  ∀ reviewer, (∃ r ∈ before, r.mergeRequestID = m ∧ r.reviewerID = reviewer ∧ r.Live) →
    ∃ r' ∈ after, DecidesOn r' m reviewer c ∧
      (∀ r'' ∈ after, DecidesOn r'' m reviewer c → r'' = r') ∧
      ∃ r, MostRecent before m reviewer r ∧ r'.state = r.state

variable {reviews reviews' : List Review} {m c : ID} {now : ℕ}

/-- One row of the bulk update. -/
def moveReview (m c : ID) (now : ℕ) (r : Review) : Review :=
  if r.Stale m c then { r with headCommitID := c, updatedAt := now } else r

theorem moveReview_stale {r : Review} (h : r.Stale m c) :
    moveReview m c now r = { r with headCommitID := c, updatedAt := now } :=
  if_pos h

theorem moveReview_other {r : Review} (h : ¬ r.Stale m c) : moveReview m c now r = r :=
  if_neg h

theorem moveReview_live {r : Review} : (moveReview m c now r).Live ↔ r.Live := by
  rw [moveReview]
  split
  · rfl
  · rfl

theorem moveReview_state (r : Review) : (moveReview m c now r).state = r.state := by
  rw [moveReview]
  split
  · rfl
  · rfl

theorem moveReview_round_eq_iff (c : ID) (now : ℕ) {r : Review}
    (hm : r.mergeRequestID = m) :
    (moveReview m c now r).round = (m, r.reviewerID, c) ↔ r.Live ∨ r.headCommitID = c := by
  by_cases hstale : r.Stale m c
  · rw [moveReview_stale hstale]
    exact ⟨fun _ => Or.inl hstale.2.1, fun _ => by simp [Review.round, hm]⟩
  · rw [moveReview_other hstale]
    have hhead : r.Live → r.headCommitID = c := by
      intro hlive
      by_contra hne
      exact hstale ⟨hm, hlive, hne⟩
    constructor
    · intro h
      simp only [Review.round, Prod.mk.injEq] at h
      exact Or.inr h.2.2
    · rintro (hlive | hc)
      · simp [Review.round, hm, hhead hlive]
      · simp [Review.round, hm, hc]

theorem carriedOver_rounds_iff (m c : ID) (now : ℕ)
    (h : (reviews.map Review.round).Nodup) :
    ((carriedOver reviews m c now).map Review.round).Nodup ↔ OneDecision reviews m c := by
  have hmove : (carriedOver reviews m c now).map Review.round =
      reviews.map fun r => (moveReview m c now r).round := by
    rw [carriedOver, List.map_map]
    rfl
  rw [hmove]
  constructor
  · intro hnodup r hr hstale r' hr' hm hreviewer hcase
    refine List.inj_on_of_nodup_map hnodup hr' hr ?_
    rw [(moveReview_round_eq_iff c now hm).mpr hcase, hreviewer]
    exact ((moveReview_round_eq_iff c now hstale.1).mpr (Or.inl hstale.2.1)).symm
  · intro hone
    refine List.Nodup.map_on ?_ h.of_map
    intro r hr r' hr' heq
    -- a row that moves meets any other row of the new head
    have hmeet : ∀ {r r' : Review}, r ∈ reviews → r' ∈ reviews → r.Stale m c →
        (moveReview m c now r).round = (moveReview m c now r').round → r' = r := by
      intro r r' hr hr' hstale heq
      have hround := (moveReview_round_eq_iff c now hstale.1).mpr (Or.inl hstale.2.1)
      rw [hround] at heq
      have hm' : r'.mergeRequestID = m := by
        have hfst := (Prod.mk.inj heq).1
        rw [moveReview] at hfst
        split at hfst
        · exact hfst.symm
        · exact hfst.symm
      have hreviewer : r'.reviewerID = r.reviewerID := by
        have hsnd := (Prod.mk.inj (Prod.mk.inj heq).2).1
        rw [moveReview] at hsnd
        split at hsnd
        · exact hsnd.symm
        · exact hsnd.symm
      refine hone r hr hstale r' hr' hm' hreviewer ?_
      rw [← moveReview_round_eq_iff c now hm', ← heq, hreviewer]
    by_cases hstale : r.Stale m c
    · exact (hmeet hr hr' hstale heq).symm
    · by_cases hstale' : r'.Stale m c
      · exact hmeet hr' hr hstale' heq.symm
      · rw [moveReview_other hstale, moveReview_other hstale'] at heq
        exact List.inj_on_of_nodup_map h hr hr' heq

theorem carryOverReviews_ok_iff (h : (reviews.map Review.round).Nodup) :
    carryOverReviews reviews m c now = .ok reviews' ↔
      OneDecision reviews m c ∧ reviews' = carriedOver reviews m c now := by
  rw [carryOverReviews, ← carriedOver_rounds_iff m c now h]
  split
  next hnodup =>
    constructor
    · intro hok
      exact ⟨hnodup, (Except.ok.inj hok).symm⟩
    · rintro ⟨-, rfl⟩
      rfl
  next hdup =>
    constructor
    · intro hok
      simp at hok
    · rintro ⟨hnodup, -⟩
      exact absurd hnodup hdup

theorem carriedOver_carries (h : (reviews.map Review.round).Nodup)
    (hone : OneDecision reviews m c) :
    CarriesDecisions reviews (carriedOver reviews m c now) m c := by
  have hnodup := (carriedOver_rounds_iff m c now h).mpr hone
  rintro reviewer ⟨r, hr, hm, hreviewer, hlive⟩
  have hmem : moveReview m c now r ∈ carriedOver reviews m c now := List.mem_map_of_mem hr
  have hround : (moveReview m c now r).round = (m, reviewer, c) := by
    rw [(moveReview_round_eq_iff c now hm).mpr (Or.inl hlive), hreviewer]
  have hdecides : DecidesOn (moveReview m c now r) m reviewer c :=
    ⟨(Prod.mk.inj hround).1, (Prod.mk.inj (Prod.mk.inj hround).2).1,
      moveReview_live.mpr hlive, (Prod.mk.inj (Prod.mk.inj hround).2).2⟩
  refine ⟨moveReview m c now r, hmem, hdecides, ?_, r, ⟨hr, hm, hreviewer, hlive, ?_⟩,
    moveReview_state r⟩
  · rintro r'' hr'' ⟨hm'', hreviewer'', -, hc''⟩
    refine List.inj_on_of_nodup_map hnodup hr'' hmem ?_
    rw [hround, Review.round, hm'', hreviewer'', hc'']
  · -- no other decision of the reviewer is live
    intro r' hr' hm' hreviewer' hlive'
    have heq : r' = r := by
      by_cases hstale : r.Stale m c
      · exact hone r hr hstale r' hr' hm' (hreviewer'.trans hreviewer.symm) (Or.inl hlive')
      · by_cases hstale' : r'.Stale m c
        · exact (hone r' hr' hstale' r hr hm (hreviewer.trans hreviewer'.symm)
            (Or.inl hlive)).symm
        · have hhead : ∀ {x : Review}, x.mergeRequestID = m → x.Live → ¬ x.Stale m c →
              x.headCommitID = c := by
            intro x hx hxl hxs
            by_contra hne
            exact hxs ⟨hx, hxl, hne⟩
          refine List.inj_on_of_nodup_map h hr' hr ?_
          rw [Review.round, Review.round, hm', hm, hreviewer', hreviewer,
            hhead hm' hlive' hstale', hhead hm hlive hstale]
    rw [heq]

/-! ## Requests apart -/

/-- The reviews of one request are the same in two tables. -/
def SameReviews (m : ID) (l l' : List Review) : Prop :=
  ∀ r, r.mergeRequestID = m → (r ∈ l ↔ r ∈ l')

theorem SameReviews.trans {l l' l'' : List Review} (h : SameReviews m l l')
    (h' : SameReviews m l' l'') : SameReviews m l l'' :=
  fun r hr => (h r hr).trans (h' r hr)

theorem sameReviews_map {f : Review → Review} {m' : ID} (hne : m ≠ m')
    (hid : ∀ r, (f r).mergeRequestID = r.mergeRequestID)
    (hf : ∀ r, r.mergeRequestID ≠ m' → f r = r) : SameReviews m reviews (reviews.map f) := by
  intro r hr
  constructor
  · intro hmem
    have hfix : f r = r := hf r (by rw [hr]; exact hne)
    exact List.mem_map.mpr ⟨r, hmem, hfix⟩
  · intro hmem
    obtain ⟨r₀, hr₀, rfl⟩ := List.mem_map.mp hmem
    rw [hid] at hr
    rwa [hf r₀ (by rw [hr]; exact hne)]

theorem sameReviews_dismissStale {m' : ID} (hne : m ≠ m') :
    SameReviews m reviews (dismissStaleReviews reviews m' c now) := by
  refine sameReviews_map hne ?_ ?_
  · intro r
    split
    · rfl
    · rfl
  · intro r hr
    exact if_neg fun hstale => hr hstale.1

theorem sameReviews_carriedOver {m' : ID} (hne : m ≠ m') :
    SameReviews m reviews (carriedOver reviews m' c now) := by
  refine sameReviews_map hne ?_ ?_
  · intro r
    split
    · rfl
    · rfl
  · intro r hr
    exact if_neg fun hstale => hr hstale.1

theorem OneDecision.congr {l l' : List Review} (h : SameReviews m l l') :
    OneDecision l m c ↔ OneDecision l' m c := by
  constructor
  · intro hone r hr hstale r' hr' hm
    exact hone r ((h r hstale.1).mpr hr) hstale r' ((h r' hm).mpr hr') hm
  · intro hone r hr hstale r' hr' hm
    exact hone r ((h r hstale.1).mp hr) hstale r' ((h r' hm).mp hr') hm

theorem CarriesDecisions.congr {l l' k k' : List Review} (h : SameReviews m l l')
    (hk : SameReviews m k k') (hc : CarriesDecisions l k m c) : CarriesDecisions l' k' m c := by
  rintro reviewer ⟨r, hr, hm, hreviewer, hlive⟩
  obtain ⟨r', hr', hdec, huniq, r₀, ⟨hr₀, hm₀, hrev₀, hlive₀, hlast⟩, hstate⟩ :=
    hc reviewer ⟨r, (h r hm).mpr hr, hm, hreviewer, hlive⟩
  refine ⟨r', (hk r' hdec.1).mp hr', hdec, ?_, r₀,
    ⟨(h r₀ hm₀).mp hr₀, hm₀, hrev₀, hlive₀, ?_⟩, hstate⟩
  · intro r'' hr'' hdec''
    exact huniq r'' ((hk r'' hdec''.1).mpr hr'') hdec''
  · intro x hx hxm
    exact hlast x ((h x hxm).mpr hx) hxm

/-! ## The loop over the open requests -/

section Loop

variable {H : Type} {s : RequestStore H} {l : List MergeRequest}

/-- The target branch keeps decisions across pushes. -/
def KeepsDecisions (s : RequestStore H) (mr : MergeRequest) : Prop :=
  ∃ target, s.db.getByProjectIDAndID mr.projectID mr.targetBranchID = some target ∧
    (s.policies target.id).dismissStaleApprovals = false

theorem noteRequests_sameReviews (hm : m ∉ l.map MergeRequest.id) :
    SameReviews m s.reviews (noteRequests c now l s).1.reviews := by
  induction l generalizing s with
  | nil => exact fun r _ => Iff.rfl
  | cons mr rest ih =>
      rw [List.map_cons, List.mem_cons, not_or] at hm
      rw [noteRequests]
      split
      · exact ih hm.2
      · split
        · refine SameReviews.trans ?_ (ih hm.2)
          exact sameReviews_dismissStale hm.1
        · split
          · exact fun r _ => Iff.rfl
          next reviews hcarry =>
            rw [carryOverReviews] at hcarry
            split at hcarry
            · obtain rfl := Except.ok.inj hcarry
              refine SameReviews.trans ?_ (ih hm.2)
              exact sameReviews_carriedOver hm.1
            · simp at hcarry

/-- The loop gets through exactly when each request that keeps decisions has one
per reviewer. -/
theorem noteRequests_ok_iff (hrounds : (s.reviews.map Review.round).Nodup)
    (hids : (l.map MergeRequest.id).Nodup) :
    (noteRequests c now l s).2 = .ok () ↔
      ∀ mr ∈ l, KeepsDecisions s mr → OneDecision s.reviews mr.id c := by
  induction l generalizing s with
  | nil => simp [noteRequests]
  | cons mr rest ih =>
      rw [List.map_cons, List.nodup_cons] at hids
      have hne : ∀ x ∈ rest, x.id ≠ mr.id := by
        intro x hx heq
        exact hids.1 (heq ▸ List.mem_map_of_mem hx)
      -- writing for the first request leaves the others as they are
      have hlater : ∀ {s' : RequestStore H}, Noted s s' →
          (∀ x, x ≠ mr.id → SameReviews x s.reviews s'.reviews) →
          ((noteRequests c now rest s').2 = .ok () ↔
            ∀ x ∈ rest, KeepsDecisions s x → OneDecision s.reviews x.id c) := by
        intro s' hnoted hsame
        rw [ih (hnoted.rounds hrounds) hids.2]
        refine forall₂_congr fun x hx => ?_
        rw [KeepsDecisions, hnoted.db_eq, hnoted.policies_eq,
          ← OneDecision.congr (hsame x.id (hne x hx))]
        rfl
      rw [noteRequests, List.forall_mem_cons]
      split
      next hnone =>
        have hno : ¬ KeepsDecisions s mr := by
          rintro ⟨target, htarget, -⟩
          rw [hnone] at htarget
          simp at htarget
        rw [hlater (Noted.refl s) fun _ _ _ _ => Iff.rfl]
        exact ⟨fun h => ⟨fun hk => absurd hk hno, h⟩, And.right⟩
      next target htarget =>
        split
        next hdismiss =>
          have hno : ¬ KeepsDecisions s mr := by
            rintro ⟨target', htarget', hkeep⟩
            obtain rfl := Option.some.inj (htarget.symm.trans htarget')
            rw [hkeep] at hdismiss
            simp at hdismiss
          rw [hlater (noted_dismissStale s mr.id c now)
            fun _ hx => sameReviews_dismissStale hx]
          exact ⟨fun h => ⟨fun hk => absurd hk hno, h⟩, And.right⟩
        next hkeep =>
          have hyes : KeepsDecisions s mr := ⟨target, htarget, by simpa using hkeep⟩
          split
          next err hcarry =>
            constructor
            · intro h
              simp at h
            · rintro ⟨hone, -⟩
              have hok : carryOverReviews s.reviews mr.id c now = .ok _ :=
                (carryOverReviews_ok_iff hrounds).mpr ⟨hone hyes, rfl⟩
              rw [hcarry] at hok
              simp at hok
          next reviews hcarry =>
            obtain ⟨hone, rfl⟩ := (carryOverReviews_ok_iff hrounds).mp hcarry
            rw [hlater (noted_carryOver hcarry) fun _ hx => sameReviews_carriedOver hx]
            exact ⟨fun h => ⟨fun _ => hone, h⟩, And.right⟩

/-- A loop that gets through carries the decisions of every request that keeps
them. -/
theorem noteRequests_carries (hrounds : (s.reviews.map Review.round).Nodup)
    (hids : (l.map MergeRequest.id).Nodup) (hok : (noteRequests c now l s).2 = .ok ()) :
    ∀ mr ∈ l, KeepsDecisions s mr →
      CarriesDecisions s.reviews (noteRequests c now l s).1.reviews mr.id c := by
  have hone := (noteRequests_ok_iff hrounds hids).mp hok
  induction l generalizing s with
  | nil => simp
  | cons mr rest ih =>
      rw [List.map_cons, List.nodup_cons] at hids
      have hne : ∀ x ∈ rest, x.id ≠ mr.id := by
        intro x hx heq
        exact hids.1 (heq ▸ List.mem_map_of_mem hx)
      have hlater : ∀ {s' : RequestStore H}, Noted s s' →
          (∀ x, x ≠ mr.id → SameReviews x s.reviews s'.reviews) →
          (noteRequests c now rest s').2 = .ok () → ∀ x ∈ rest, KeepsDecisions s x →
            CarriesDecisions s.reviews (noteRequests c now rest s').1.reviews x.id c := by
        intro s' hnoted hsame hok x hx hk
        have hk' : KeepsDecisions s' x := by
          rwa [KeepsDecisions, hnoted.db_eq, hnoted.policies_eq]
        have hcarries := ih (hnoted.rounds hrounds) hids.2 hok
          ((noteRequests_ok_iff (hnoted.rounds hrounds) hids.2).mp hok) x hx hk'
        exact hcarries.congr (fun r hr => (hsame x.id (hne x hx) r hr).symm)
          fun _ _ => Iff.rfl
      intro x hx hk
      rw [noteRequests] at hok ⊢
      split at hok
      next hnone =>
        rcases List.mem_cons.mp hx with rfl | hx
        · obtain ⟨target, htarget, -⟩ := hk
          rw [hnone] at htarget
          simp at htarget
        · exact hlater (Noted.refl s) (fun _ _ _ _ => Iff.rfl) hok x hx hk
      next target htarget =>
        split at hok
        next hdismiss =>
          rw [if_pos hdismiss]
          rcases List.mem_cons.mp hx with rfl | hx
          · obtain ⟨target', htarget', hkeep⟩ := hk
            obtain rfl := Option.some.inj (htarget.symm.trans htarget')
            rw [hkeep] at hdismiss
            simp at hdismiss
          · exact hlater (noted_dismissStale s mr.id c now)
              (fun _ hx => sameReviews_dismissStale hx) hok x hx hk
        next hkeep =>
          rw [if_neg hkeep]
          split at hok
          · simp at hok
          next reviews hcarry =>
            obtain ⟨hone', rfl⟩ := (carryOverReviews_ok_iff hrounds).mp hcarry
            rcases List.mem_cons.mp hx with rfl | hx
            · exact (carriedOver_carries hrounds hone').congr (fun _ _ => Iff.rfl)
                (noteRequests_sameReviews hids.1)
            · exact hlater (noted_carryOver hcarry)
                (fun _ hx => sameReviews_carriedOver hx) hok x hx hk

end Loop

/-! ## Pushes of a run -/

section Runs

variable {H : Type}

/-- A push to a branch gets through the bookkeeping and carries the decisions of
every open request from it whose target keeps them. -/
def PushCarriesOver (s : RequestStore H) (projectID branchID newHead : ID) (now : ℕ) : Prop :=
  (noteBranchPush s projectID branchID newHead now).2 = .ok () ∧
    ∀ mr ∈ s.listOpenBySourceBranch projectID branchID, KeepsDecisions s mr →
      CarriesDecisions s.reviews (noteBranchPush s projectID branchID newHead now).1.reviews
        mr.id newHead

/-- In every state of every run, a push carries the decisions over exactly when
no reviewer of an open request has a second live decision, or a review of the
new head, beside one on an older head. -/
theorem approvals_carry_over {s₀ s : ReviewSystem H} (hfresh : s₀.Fresh)
    (hrun : Run ReviewStep (fun _ _ => True) s₀ s) (projectID branchID newHead : ID)
    (now : ℕ) :
    PushCarriesOver s.store projectID branchID newHead now ↔
      ∀ mr ∈ s.store.listOpenBySourceBranch projectID branchID, KeepsDecisions s.store mr →
        OneDecision s.store.reviews mr.id newHead := by
  have hinv := hfresh.inv.run hrun
  have hids : ((s.store.listOpenBySourceBranch projectID branchID).map
      MergeRequest.id).Nodup :=
    hinv.sound.ids.sublist (List.filter_sublist.map _)
  constructor
  · rintro ⟨hok, -⟩
    exact (noteRequests_ok_iff hinv.sound.rounds hids).mp hok
  · intro hone
    have hok : (noteBranchPush s.store projectID branchID newHead now).2 = .ok () :=
      (noteRequests_ok_iff hinv.sound.rounds hids).mpr hone
    exact ⟨hok, noteRequests_carries hinv.sound.rounds hids hok⟩

end Runs

/-! ## A decision left behind -/

/-- A project with a mainline and a branch, and a request from the one to the
other; decisions are kept across pushes. -/
def reviewStore (head : ID) (requests : List MergeRequest) (reviews : List Review) :
    RequestStore ℕ where
  db :=
    { treeNodes := []
      files := []
      chunks := []
      projectChunkUploads := []
      commits := []
      branches := [⟨1, 1, "main".toList, false, true, some 100, false⟩,
        ⟨2, 1, "feature".toList, false, false, some head, false⟩]
      fileLocks := [] }
  policies _ := ⟨1, false, false, [], []⟩
  requests := requests
  reviews := reviews
  checks := []

def reviewRequest (status : RequestStatus) : MergeRequest :=
  ⟨9, 1, 1, 2, 1, "feature".toList, "main".toList, "feature".toList, status, false, 5, none⟩

def reviewCaller (user : ID) : Caller := ⟨⟨fun _ => true, fun _ _ => true, false⟩, some user⟩

/-- The approval user 6 gives for a head. -/
def approval (id head : ID) (now : ℕ) : Review := ⟨id, 9, 6, .approved, head, false, now⟩

theorem reviewStore_fresh : (⟨reviewStore 101 [] [], []⟩ : ReviewSystem ℕ).Fresh :=
  ⟨rfl, rfl, rfl⟩

theorem approval_run :
    Run ReviewStep (fun _ _ => True) (⟨reviewStore 101 [] [], []⟩ : ReviewSystem ℕ)
      ⟨reviewStore 101 [reviewRequest .opened] [approval 20 101 1], []⟩ :=
  (((Run.refl _).tail (e := ReviewEvent.create) trivial
      (.create (by simp [reviewStore]) (by simp [reviewStore]))).tail
      (e := ReviewEvent.openReview) trivial
      (.openReview (rfl : openReview _ (reviewCaller 6) 1 1 .approved "ok".toList 0 20 1 =
        .ok (approval 20 101 1)))).tail (e := ReviewEvent.writeReview) trivial
      (.writeReview (List.mem_cons_self ..))

theorem approvals_carry_over_demo :
    ∃ s : ReviewSystem ℕ, Run ReviewStep (fun _ _ => True) ⟨reviewStore 101 [] [], []⟩ s ∧
      s.store.reviews = [approval 20 101 1] ∧ PushCarriesOver s.store 1 2 102 2 := by
  refine ⟨_, approval_run, rfl, (approvals_carry_over reviewStore_fresh approval_run 1 2 102
    2).mpr ?_⟩
  intro mr hmr _ r hr _ r' hr' _ _ _
  rw [List.mem_singleton.mp hr, List.mem_singleton.mp hr']

/-- The request is closed, the source moves on, the request is opened again and
approved once more: the next push finds two decisions of one reviewer. -/
theorem left_behind_decision_collides :
    ∃ s : ReviewSystem ℕ, Run ReviewStep (fun _ _ => True) ⟨reviewStore 101 [] [], []⟩ s ∧
      (∀ mr ∈ s.store.listOpenBySourceBranch 1 2, KeepsDecisions s.store mr) ∧
      (noteBranchPush s.store 1 2 103 5).2 = .error (errConflict "record already exists" []) ∧
      ¬ PushCarriesOver s.store 1 2 103 5 := by
  have hfail : (noteBranchPush (reviewStore 103 [reviewRequest .opened]
      [approval 20 101 1, approval 21 102 4]) 1 2 103 5).2 =
      .error (errConflict "record already exists" []) := rfl
  refine ⟨⟨reviewStore 103 [reviewRequest .opened] [approval 20 101 1, approval 21 102 4], []⟩,
    ?_, ?_, hfail, ?_⟩
  · have hclosed : Run ReviewStep (fun _ _ => True) (⟨reviewStore 101 [] [], []⟩ :
        ReviewSystem ℕ) ⟨reviewStore 102 [reviewRequest .closed] [approval 20 101 1], []⟩ :=
      (approval_run.tail (e := ReviewEvent.other) trivial
        (show ReviewStep _ _ ⟨reviewStore 101 [reviewRequest .closed] [approval 20 101 1], []⟩
          from .other rfl rfl)).tail (e := ReviewEvent.other) trivial (.other rfl rfl)
    have hreopened : Run ReviewStep (fun _ _ => True) (⟨reviewStore 101 [] [], []⟩ :
        ReviewSystem ℕ) ⟨reviewStore 102 [reviewRequest .opened] [approval 20 101 1], []⟩ :=
      (hclosed.tail (e := ReviewEvent.noteBranchPush 1 2 102 2) trivial
        .noteBranchPush).tail (e := ReviewEvent.other) trivial (.other rfl rfl)
    exact ((hreopened.tail (e := ReviewEvent.openReview) trivial
      (.openReview (rfl : openReview _ (reviewCaller 6) 1 1 .approved "ok".toList 0 21 4 =
        .ok (approval 21 102 4)))).tail (e := ReviewEvent.writeReview) trivial
      (.writeReview (List.mem_cons_self ..))).tail (e := ReviewEvent.other) trivial
      (.other rfl rfl)
  · intro mr hmr
    obtain rfl : mr = reviewRequest .opened := List.mem_singleton.mp hmr
    exact ⟨_, rfl, rfl⟩
  · rintro ⟨hok, -⟩
    rw [hfail] at hok
    simp at hok

end Nipa
