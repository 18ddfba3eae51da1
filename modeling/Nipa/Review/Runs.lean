import Nipa.Review.Tables
import Nipa.Support.Runs

/-!
# Runs of reviews and pushes

The operations on merge requests run in any order, and a review is written some
time after the request and the source head it is for were read.  Through every
run a reviewer has one review per head, reviews belong to requests, and the
author of a request decides nothing about it.
-/

namespace Nipa

open Support

/-- The store together with the reviews that have been read for but not
written. -/
structure ReviewSystem (H : Type) where
  store : RequestStore H
  opened : List Review

inductive ReviewEvent where
  | openReview
  | writeReview
  | withdrawReview
  | dismissReview
  | noteBranchPush (projectID branchID newHead : ID) (now : ℕ)
  | create
  | other

section Steps

variable {H : Type}

/-- The operations on reviews, with anything in between that leaves them alone
and keeps requests in place: closing, reopening and editing of requests, pushes,
status checks and the administration of branches. -/
inductive ReviewStep : ReviewSystem H → ReviewEvent → ReviewSystem H → Prop where
  | openReview {s : ReviewSystem H} {caller : Caller} {projectID : ID} {number : ℤ}
      {state : ReviewDecision} {body : Str} {comments : ℕ} {reviewID : ID} {now : ℕ} {r : Review}
      (h : openReview s.store caller projectID number state body comments reviewID now =
        .ok r) :
      ReviewStep s .openReview { s with opened := r :: s.opened }
  | writeReview {s : ReviewSystem H} {r : Review} (h : r ∈ s.opened) :
      ReviewStep s .writeReview
        { store := { s.store with reviews := upsertReview s.store.reviews r }
          opened := s.opened.erase r }
  | withdrawReview {s : ReviewSystem H} {caller : Caller} {projectID : ID} {number : ℤ}
      {reviewID : ID} {store' : RequestStore H}
      (h : withdrawReview s.store caller projectID number reviewID = .ok store') :
      ReviewStep s .withdrawReview { s with store := store' }
  | dismissReview {s : ReviewSystem H} {caller : Caller} {projectID : ID} {number : ℤ}
      {reviewID : ID} {now : ℕ} {store' : RequestStore H}
      (h : dismissReview s.store caller projectID number reviewID now = .ok store') :
      ReviewStep s .dismissReview { s with store := store' }
  | noteBranchPush {s : ReviewSystem H} {projectID branchID newHead : ID} {now : ℕ} :
      ReviewStep s (.noteBranchPush projectID branchID newHead now)
        { s with store := (noteBranchPush s.store projectID branchID newHead now).1 }
  | create {s : ReviewSystem H} {mr : MergeRequest}
      (hid : mr.id ∉ s.store.requests.map MergeRequest.id)
      (hnumber : ∀ m ∈ s.store.requests, m.projectID = mr.projectID → m.number ≠ mr.number) :
      ReviewStep s .create
        { s with store := { s.store with requests := s.store.requests ++ [mr] } }
  | other {s : ReviewSystem H} {store' : RequestStore H}
      (hrequests : store'.requests.map MergeRequest.identity =
        s.store.requests.map MergeRequest.identity)
      (hreviews : store'.reviews = s.store.reviews) :
      ReviewStep s .other { s with store := store' }

/-! ## The tables through a run -/

/-- The author of a request decides nothing about it. -/
def Unbiased (requests : List MergeRequest) (r : Review) : Prop :=
  ∀ mr ∈ requests, mr.id = r.mergeRequestID → r.reviewerID = mr.createdBy →
    r.state = .commented

/-- The rows of the two tables: one review per round, one request per id and
per number. -/
structure RequestStore.Sound (s : RequestStore H) : Prop where
  rounds : (s.reviews.map Review.round).Nodup
  ids : (s.requests.map MergeRequest.id).Nodup
  numbers : (s.requests.map fun mr => (mr.projectID, mr.number)).Nodup
  known : ∀ r ∈ s.reviews, r.mergeRequestID ∈ s.requests.map MergeRequest.id
  unbiased : ∀ r ∈ s.reviews, Unbiased s.requests r

structure ReviewSystem.Inv (s : ReviewSystem H) : Prop where
  sound : s.store.Sound
  opened_known : ∀ r ∈ s.opened, r.mergeRequestID ∈ s.store.requests.map MergeRequest.id
  opened_unbiased : ∀ r ∈ s.opened, Unbiased s.store.requests r

end Steps

/-! ## What the operations do to the review rows -/

variable {reviews : List Review}

theorem upsertReview_rounds (h : (reviews.map Review.round).Nodup) (new : Review) :
    ((upsertReview reviews new).map Review.round).Nodup := by
  rw [upsertReview]
  split
  · -- the overwritten row keeps its round
    have hsame : (reviews.map fun r => if r.round = new.round then { new with id := r.id }
        else r).map Review.round = reviews.map Review.round := by
      rw [List.map_map]
      apply List.map_congr_left
      intro r _
      simp only [Function.comp]
      split
      next heq => exact heq.symm
      · rfl
    rwa [hsame]
  next hnew =>
    rw [List.map_append, List.map_singleton, List.nodup_append]
    refine ⟨h, by simp, ?_⟩
    rintro x hx y hy rfl
    rw [List.mem_singleton] at hy
    obtain ⟨r, hr, hround⟩ := List.mem_map.mp hx
    exact hnew ⟨r, hr, hround.trans hy⟩

theorem mem_upsertReview {new r : Review} (h : r ∈ upsertReview reviews new) :
    r ∈ reviews ∨ ∃ i, r = { new with id := i } := by
  rw [upsertReview] at h
  split at h
  · obtain ⟨r₀, hr₀, rfl⟩ := List.mem_map.mp h
    split
    · exact Or.inr ⟨r₀.id, rfl⟩
    · exact Or.inl hr₀
  · rcases List.mem_append.mp h with h | h
    · exact Or.inl h
    · exact Or.inr ⟨new.id, List.mem_singleton.mp h⟩

/-- Rows that only changed their head or lost their weight. -/
def Revised (r r' : Review) : Prop :=
  r'.mergeRequestID = r.mergeRequestID ∧ r'.reviewerID = r.reviewerID ∧ r'.state = r.state

theorem map_round_of_revised {f : Review → Review} (hf : ∀ r, (f r).round = r.round) :
    (reviews.map f).map Review.round = reviews.map Review.round := by
  rw [List.map_map]
  exact List.map_congr_left fun r _ => hf r

theorem dismissStaleReviews_rounds (reviews : List Review) (m c : ID) (now : ℕ) :
    (dismissStaleReviews reviews m c now).map Review.round = reviews.map Review.round := by
  refine map_round_of_revised ?_
  intro r
  split
  · rfl
  · rfl

theorem dismissStaleReviews_revised {m c : ID} {now : ℕ} {r' : Review}
    (h : r' ∈ dismissStaleReviews reviews m c now) : ∃ r ∈ reviews, Revised r r' := by
  obtain ⟨r, hr, rfl⟩ := List.mem_map.mp h
  refine ⟨r, hr, ?_⟩
  split
  · exact ⟨rfl, rfl, rfl⟩
  · exact ⟨rfl, rfl, rfl⟩

theorem carriedOver_revised {m c : ID} {now : ℕ} {r' : Review}
    (h : r' ∈ carriedOver reviews m c now) : ∃ r ∈ reviews, Revised r r' := by
  obtain ⟨r, hr, rfl⟩ := List.mem_map.mp h
  refine ⟨r, hr, ?_⟩
  split
  · exact ⟨rfl, rfl, rfl⟩
  · exact ⟨rfl, rfl, rfl⟩

section Steps

variable {H : Type}

/-- Noting a push changes reviews only, and revises them one by one. -/
structure Noted (s s' : RequestStore H) : Prop where
  db_eq : s'.db = s.db
  policies_eq : s'.policies = s.policies
  requests_eq : s'.requests = s.requests
  checks_eq : s'.checks = s.checks
  revised : ∀ r' ∈ s'.reviews, ∃ r ∈ s.reviews, Revised r r'
  rounds : (s.reviews.map Review.round).Nodup → (s'.reviews.map Review.round).Nodup

theorem Noted.refl (s : RequestStore H) : Noted s s :=
  ⟨rfl, rfl, rfl, rfl, fun r hr => ⟨r, hr, rfl, rfl, rfl⟩, id⟩

variable {s s' : RequestStore H}

theorem Noted.trans {s'' : RequestStore H} (h : Noted s s') (h' : Noted s' s'') :
    Noted s s'' where
  db_eq := h'.db_eq.trans h.db_eq
  policies_eq := h'.policies_eq.trans h.policies_eq
  requests_eq := h'.requests_eq.trans h.requests_eq
  checks_eq := h'.checks_eq.trans h.checks_eq
  revised r'' hr'' := by
    obtain ⟨r', hr', hrev'⟩ := h'.revised r'' hr''
    obtain ⟨r, hr, hrev⟩ := h.revised r' hr'
    exact ⟨r, hr, hrev'.1.trans hrev.1, hrev'.2.1.trans hrev.2.1, hrev'.2.2.trans hrev.2.2⟩
  rounds hr := h'.rounds (h.rounds hr)

theorem noted_dismissStale (s : RequestStore H) (m c : ID) (now : ℕ) :
    Noted s { s with reviews := dismissStaleReviews s.reviews m c now } where
  db_eq := rfl
  policies_eq := rfl
  requests_eq := rfl
  checks_eq := rfl
  revised _ h := dismissStaleReviews_revised h
  rounds h := by
    rw [dismissStaleReviews_rounds]
    exact h

theorem noted_carryOver {m c : ID} {now : ℕ} {reviews : List Review}
    (h : carryOverReviews s.reviews m c now = .ok reviews) :
    Noted s { s with reviews := reviews } := by
  rw [carryOverReviews] at h
  split at h
  next hnodup =>
    obtain rfl := Except.ok.inj h
    exact ⟨rfl, rfl, rfl, rfl, fun _ h => carriedOver_revised h, fun _ => hnodup⟩
  · simp at h

theorem noteRequests_noted (newHead : ID) (now : ℕ) (l : List MergeRequest)
    (s : RequestStore H) : Noted s (noteRequests newHead now l s).1 := by
  induction l generalizing s with
  | nil => exact Noted.refl s
  | cons mr rest ih =>
      rw [noteRequests]
      split
      · exact ih s
      · split
        · exact (noted_dismissStale s mr.id newHead now).trans (ih _)
        · split
          · exact Noted.refl s
          next hcarry => exact (noted_carryOver hcarry).trans (ih _)

variable {projectID : ID}

theorem withdrawReview_ok {caller : Caller} {number : ℤ} {reviewID : ID}
    (h : withdrawReview s caller projectID number reviewID = .ok s') :
    ∃ m, s' = { s with
      reviews := s.reviews.filter fun r => !(r.mergeRequestID = m && r.id = reviewID) } := by
  rw [withdrawReview] at h
  simp only [bind_eq_ok, pure_eq_ok] at h
  obtain ⟨mr, -, _, -, _, -, _, -, rfl⟩ := h
  exact ⟨mr.id, rfl⟩

theorem dismissReview_ok {caller : Caller} {number : ℤ} {reviewID : ID} {now : ℕ}
    (h : dismissReview s caller projectID number reviewID now = .ok s') :
    ∃ m, s' = { s with
      reviews := s.reviews.map fun r =>
        if r.mergeRequestID = m ∧ r.id = reviewID then
          { r with dismissed := true, updatedAt := now }
        else r } := by
  rw [dismissReview] at h
  simp only [bind_eq_ok, pure_eq_ok] at h
  obtain ⟨mr, -, _, -, _, -, _, -, rfl⟩ := h
  exact ⟨mr.id, rfl⟩

/-! ## The invariant -/

variable {l l' : List MergeRequest}

theorem map_of_identity {β : Type} (h : l'.map MergeRequest.identity = l.map MergeRequest.identity)
    {f : MergeRequest → β} (hf : ∀ a b : MergeRequest, a.identity = b.identity → f a = f b) :
    l'.map f = l.map f := by
  induction l generalizing l' with
  | nil =>
      rw [List.map_nil, List.map_eq_nil_iff] at h
      rw [h]
  | cons a l ih =>
      obtain ⟨a', l', rfl, ha, hl⟩ := List.map_eq_cons_iff.mp h
      rw [List.map_cons, List.map_cons, hf a' a ha, ih hl]

theorem Unbiased.of_identity {r : Review} (h : Unbiased l r)
    (hids : l'.map MergeRequest.identity = l.map MergeRequest.identity) : Unbiased l' r := by
  intro mr hmr hid hauthor
  have hmem : mr.identity ∈ l.map MergeRequest.identity := hids ▸ List.mem_map_of_mem hmr
  obtain ⟨m, hm, heq⟩ := List.mem_map.mp hmem
  simp only [MergeRequest.identity, Prod.mk.injEq] at heq
  exact h m hm (heq.1.trans hid) (hauthor.trans heq.2.2.2.2.2.2.2.symm)

theorem RequestStore.Sound.of_rows (h : s.Sound) (hrequests : s'.requests = s.requests)
    (hrounds : (s'.reviews.map Review.round).Nodup)
    (hrev : ∀ r' ∈ s'.reviews, ∃ r ∈ s.reviews, Revised r r') : s'.Sound := by
  refine ⟨hrounds, ?_, ?_, ?_, ?_⟩
  · rw [hrequests]
    exact h.ids
  · rw [hrequests]
    exact h.numbers
  · intro r' hr'
    obtain ⟨r, hr, hid, -, -⟩ := hrev r' hr'
    rw [hrequests, hid]
    exact h.known r hr
  · intro r' hr' mr hmr hid hauthor
    obtain ⟨r, hr, hid', hrev', hstate⟩ := hrev r' hr'
    rw [hrequests] at hmr
    rw [hstate]
    exact h.unbiased r hr mr hmr (hid.trans hid') (hrev' ▸ hauthor)

theorem openReview_ok {caller : Caller} {number : ℤ} {state : ReviewDecision} {body : Str}
    {comments : ℕ} {reviewID : ID} {now : ℕ} {r : Review}
    (hids : (s.requests.map MergeRequest.id).Nodup)
    (h : openReview s caller projectID number state body comments reviewID now = .ok r) :
    r.mergeRequestID ∈ s.requests.map MergeRequest.id ∧ Unbiased s.requests r := by
  rw [openReview] at h
  simp only [loadRequest, bind_eq_ok, orError_eq_ok, refuseIf_eq_ok, pure_eq_ok] at h
  obtain ⟨user, -, mr, ⟨_, -, _, -, hmr⟩, _, -, _, -, _, hself, _, -, head, -, rfl⟩ := h
  have hmem : mr ∈ s.requests := List.mem_of_find?_eq_some hmr
  refine ⟨List.mem_map_of_mem hmem, ?_⟩
  intro mr' hmr' hid hauthor
  obtain rfl := List.inj_on_of_nodup_map hids hmr' hmem hid
  by_contra hne
  exact hself ⟨hauthor, hne⟩

theorem ReviewSystem.Inv.step {s s' : ReviewSystem H} {e : ReviewEvent} (h : s.Inv)
    (hstep : ReviewStep s e s') : s'.Inv := by
  have hkeep : ∀ r, r ∈ s.store.reviews → ∃ r₀ ∈ s.store.reviews, Revised r₀ r :=
    fun r hr => ⟨r, hr, rfl, rfl, rfl⟩
  cases hstep with
  | openReview hopen =>
      obtain ⟨hknown, hunbiased⟩ := openReview_ok h.sound.ids hopen
      refine ⟨h.sound, ?_, ?_⟩
      · intro r hr
        rcases List.mem_cons.mp hr with rfl | hr
        · exact hknown
        · exact h.opened_known r hr
      · intro r hr
        rcases List.mem_cons.mp hr with rfl | hr
        · exact hunbiased
        · exact h.opened_unbiased r hr
  | @writeReview new hnew =>
      refine ⟨⟨upsertReview_rounds h.sound.rounds new, h.sound.ids, h.sound.numbers, ?_, ?_⟩,
        ?_, ?_⟩
      · intro r hr
        rcases mem_upsertReview hr with hr | ⟨i, rfl⟩
        · exact h.sound.known r hr
        · exact h.opened_known new hnew
      · intro r hr
        rcases mem_upsertReview hr with hr | ⟨i, rfl⟩
        · exact h.sound.unbiased r hr
        · exact h.opened_unbiased new hnew
      · intro r hr
        exact h.opened_known r (List.mem_of_mem_erase hr)
      · intro r hr
        exact h.opened_unbiased r (List.mem_of_mem_erase hr)
  | withdrawReview hdraw =>
      obtain ⟨m, rfl⟩ := withdrawReview_ok hdraw
      refine ⟨h.sound.of_rows rfl (h.sound.rounds.sublist (List.filter_sublist.map _)) ?_,
        h.opened_known, h.opened_unbiased⟩
      intro r hr
      exact hkeep r (List.mem_filter.mp hr).1
  | dismissReview hdismiss =>
      obtain ⟨m, rfl⟩ := dismissReview_ok hdismiss
      refine ⟨h.sound.of_rows rfl ?_ ?_, h.opened_known, h.opened_unbiased⟩
      · rw [map_round_of_revised]
        · exact h.sound.rounds
        · intro r
          split
          · rfl
          · rfl
      · intro r' hr'
        obtain ⟨r, hr, rfl⟩ := List.mem_map.mp hr'
        refine ⟨r, hr, ?_⟩
        split
        · exact ⟨rfl, rfl, rfl⟩
        · exact ⟨rfl, rfl, rfl⟩
  | @noteBranchPush projectID branchID newHead now =>
      have hnoted := noteRequests_noted newHead now
        (s.store.listOpenBySourceBranch projectID branchID) s.store
      refine ⟨h.sound.of_rows hnoted.requests_eq (hnoted.rounds h.sound.rounds)
        hnoted.revised, ?_, ?_⟩
      · intro r hr
        exact hnoted.requests_eq ▸ h.opened_known r hr
      · intro r hr
        exact hnoted.requests_eq ▸ h.opened_unbiased r hr
  | @create mr hid hnumber =>
      have hne : ∀ r : Review, r.mergeRequestID ∈ s.store.requests.map MergeRequest.id →
          mr.id ≠ r.mergeRequestID := by
        rintro r hr heq
        exact hid (heq ▸ hr)
      have hunbiased : ∀ r : Review, r.mergeRequestID ∈ s.store.requests.map MergeRequest.id →
          Unbiased s.store.requests r → Unbiased (s.store.requests ++ [mr]) r := by
        intro r hknown hr m hm hmid hauthor
        rcases List.mem_append.mp hm with hm | hm
        · exact hr m hm hmid hauthor
        · rw [List.mem_singleton.mp hm] at hmid
          exact absurd hmid (hne r hknown)
      refine ⟨⟨h.sound.rounds, ?_, ?_, ?_, ?_⟩, ?_, ?_⟩
      · rw [List.map_append, List.map_singleton, ← List.concat_eq_append, List.nodup_concat]
        exact ⟨hid, h.sound.ids⟩
      · rw [List.map_append, List.map_singleton, ← List.concat_eq_append, List.nodup_concat]
        refine ⟨?_, h.sound.numbers⟩
        intro hmem
        obtain ⟨m, hm, heq⟩ := List.mem_map.mp hmem
        obtain ⟨hproject, heq⟩ := Prod.mk.inj heq
        exact hnumber m hm hproject heq
      · intro r hr
        rw [List.map_append]
        exact List.mem_append_left _ (h.sound.known r hr)
      · intro r hr
        exact hunbiased r (h.sound.known r hr) (h.sound.unbiased r hr)
      · intro r hr
        rw [List.map_append]
        exact List.mem_append_left _ (h.opened_known r hr)
      · intro r hr
        exact hunbiased r (h.opened_known r hr) (h.opened_unbiased r hr)
  | @other store' hrequests hreviews =>
      have hids : store'.requests.map MergeRequest.id = s.store.requests.map MergeRequest.id :=
        map_of_identity hrequests fun _ _ heq => (Prod.mk.inj heq).1
      refine ⟨⟨?_, ?_, ?_, ?_, ?_⟩, ?_, ?_⟩
      · rw [hreviews]
        exact h.sound.rounds
      · rw [hids]
        exact h.sound.ids
      · rw [map_of_identity hrequests (f := fun mr => (mr.projectID, mr.number))
          (by intro a b heq; simp only [MergeRequest.identity, Prod.mk.injEq] at heq; simp [heq])]
        exact h.sound.numbers
      · rw [hids, hreviews]
        exact h.sound.known
      · rw [hreviews]
        exact fun r hr => (h.sound.unbiased r hr).of_identity hrequests
      · rw [hids]
        exact h.opened_known
      · exact fun r hr => (h.opened_unbiased r hr).of_identity hrequests

/-! ## Requests stay what they are -/

theorem find?_of_identity (h : l'.map MergeRequest.identity = l.map MergeRequest.identity)
    (projectID : ID) (number : ℤ) :
    (l'.find? fun mr => mr.projectID = projectID && mr.number = number).map
        MergeRequest.identity =
      (l.find? fun mr => mr.projectID = projectID && mr.number = number).map
        MergeRequest.identity := by
  induction l generalizing l' with
  | nil =>
      rw [List.map_nil, List.map_eq_nil_iff] at h
      rw [h]
  | cons a l ih =>
      obtain ⟨a', l', rfl, ha, hl⟩ := List.map_eq_cons_iff.mp h
      have hfields : a'.projectID = a.projectID ∧ a'.number = a.number := by
        simp only [MergeRequest.identity, Prod.mk.injEq] at ha
        exact ⟨ha.2.2.1, ha.2.1⟩
      rw [List.find?_cons, List.find?_cons, hfields.1, hfields.2]
      split
      · rw [Option.map_some, Option.map_some, ha]
      · exact ih hl

theorem ReviewStep.getRequest {s s' : ReviewSystem H} {e : ReviewEvent} (h : ReviewStep s e s')
    {number : ℤ} {mr : MergeRequest} (hmr : s.store.getRequest projectID number = some mr) :
    ∃ mr', s'.store.getRequest projectID number = some mr' ∧ mr'.identity = mr.identity := by
  have hsame : s'.store.requests.map MergeRequest.identity =
      s.store.requests.map MergeRequest.identity →
      ∃ mr', s'.store.getRequest projectID number = some mr' ∧
        mr'.identity = mr.identity := by
    intro hids
    have hfind := find?_of_identity hids projectID number
    rw [RequestStore.getRequest] at hmr
    rw [hmr, Option.map_some, Option.map_eq_some_iff] at hfind
    exact hfind
  cases h with
  | openReview _ => exact hsame rfl
  | writeReview _ => exact hsame rfl
  | withdrawReview hdraw =>
      obtain ⟨m, rfl⟩ := withdrawReview_ok hdraw
      exact hsame rfl
  | dismissReview hdismiss =>
      obtain ⟨m, rfl⟩ := dismissReview_ok hdismiss
      exact hsame rfl
  | noteBranchPush =>
      exact hsame (congrArg _ (noteRequests_noted _ _ _ _).requests_eq)
  | create _ _ =>
      refine ⟨mr, ?_, rfl⟩
      rw [RequestStore.getRequest] at hmr ⊢
      rw [List.find?_append, hmr]
      rfl
  | other hrequests _ => exact hsame hrequests

theorem getRequest_of_run {P : ReviewSystem H → ReviewEvent → Prop} {s s' : ReviewSystem H}
    (hrun : Run ReviewStep P s s') {number : ℤ} {mr : MergeRequest}
    (hmr : s.store.getRequest projectID number = some mr) :
    ∃ mr', s'.store.getRequest projectID number = some mr' ∧ mr'.identity = mr.identity := by
  induction hrun with
  | refl => exact ⟨mr, hmr, rfl⟩
  | tail _ _ hstep ih =>
      obtain ⟨m, hm, hid⟩ := ih
      obtain ⟨m', hm', hid'⟩ := hstep.getRequest hm
      exact ⟨m', hm', hid'.trans hid⟩

/-! ## A project from its beginning -/

/-- A project without merge requests. -/
structure ReviewSystem.Fresh (s : ReviewSystem H) : Prop where
  requests : s.store.requests = []
  reviews : s.store.reviews = []
  opened : s.opened = []

theorem ReviewSystem.Fresh.inv {s : ReviewSystem H} (h : s.Fresh) : s.Inv := by
  refine ⟨⟨?_, ?_, ?_, ?_, ?_⟩, ?_, ?_⟩
  · simp [h.reviews]
  · simp [h.requests]
  · simp [h.requests]
  · simp [h.reviews]
  · simp [h.reviews]
  · simp [h.opened]
  · simp [h.opened]

theorem ReviewSystem.Inv.run {P : ReviewSystem H → ReviewEvent → Prop} {s s' : ReviewSystem H}
    (h : s.Inv) (hrun : Run ReviewStep P s s') : s'.Inv :=
  hrun.invariant h fun _ _ _ hs _ hstep => hs.step hstep

end Steps

end Nipa
