import Nipa.Review.LandingRun
import Nipa.Server.Heads

/-!
# What a refused landing leaves behind

A landing acts on the chunk store and on the links of the project before it is known
whether it goes through, and nothing is taken back.  A landing that is refused leaves
the repository as it was when the texts that the trees of its commits merge to are
stored and linked before.
-/

namespace Nipa.Merging

open Support Merge Chunker Program

section Effects

variable {H : Type}

/-- Chunks, links and content were added, and nothing else happened. -/
structure Adds (r r' : Repository H) : Prop where
  rest : { r'.db with
    chunks := r.db.chunks
    projectChunkUploads := r.db.projectChunkUploads } = r.db
  chunks : r.db.chunks <+: r'.db.chunks
  links : r.db.projectChunkUploads <+: r'.db.projectChunkUploads
  content : ∀ h data, r.content h = some data → r'.content h = some data

/-- Heads, commits, trees and the chunk store with its links are as before. -/
structure Untouched (r r' : Repository H) : Prop where
  heads : r'.db.branches.map (fun b => (b.id, b.commitID)) =
    r.db.branches.map fun b => (b.id, b.commitID)
  trees : DB.SameTrees r.db r'.db
  chunks : r'.db.chunks = r.db.chunks
  links : r'.db.projectChunkUploads = r.db.projectChunkUploads
  content : r'.content = r.content

theorem Adds.refl (r : Repository H) : Adds r r :=
  ⟨rfl, List.prefix_refl _, List.prefix_refl _, fun _ _ h => h⟩

variable {r' : Repository H}

theorem Adds.trans {r r'' : Repository H} (h : Adds r r') (h' : Adds r' r'') :
    Adds r r'' where
  rest := by
    have hrest := h.rest
    rw [← h'.rest] at hrest
    exact hrest
  chunks := h.chunks.trans h'.chunks
  links := h.links.trans h'.links
  content x data hx := h'.content x data (h.content x data hx)

variable [HashScheme H] [DecidableEq H]

theorem upload_adds {hash : H} {data : List UInt8} {r : Repository H}
    (h : upload hash data r = .ok r') : Adds r r' := by
  rw [upload] at h
  simp only [bind_eq_ok, pure_eq_ok] at h
  obtain ⟨_, -, rfl⟩ := h
  constructor
  · dsimp only
    split <;> rfl
  · dsimp only
    split
    · exact List.prefix_refl _
    · exact List.prefix_append _ _
  · dsimp only
    split <;> exact List.prefix_refl _
  · intro x old hx
    dsimp only
    split
    · exact hx
    · next hnone =>
        rw [Function.update_of_ne _ _ _]
        · exact hx
        · rintro rfl
          rw [hx] at hnone
          exact hnone rfl

omit [HashScheme H] in
theorem linkProjectChunk_adds (projectID : ID) (hash : H) (r : Repository H) :
    Adds r (linkProjectChunk projectID hash r) := by
  rw [linkProjectChunk]
  split
  · exact Adds.refl r
  · exact ⟨rfl, List.prefix_refl _, List.prefix_append _ _, fun _ _ h => h⟩

theorem effect_adds {c : Action H} {r : Repository H} (h : effect c r = .ok r') : Adds r r' := by
  cases c with
  | upload hash data => exact upload_adds h
  | linkProjectChunk projectID hash =>
      obtain rfl := Except.ok.inj h
      exact linkProjectChunk_adds projectID hash r

theorem planRequest_adds (svc : Services H) (seen : ℕ → RequestStore H) (caller : Caller)
    (projectID : ID) (number : ℤ) (strategy : Str) (lockID newID : ℕ → ID)
    (r : Repository H) : Adds r
      ((planRequest svc seen caller projectID number strategy lockID newID).exec effect r).2 :=
  exec_related Adds.refl (fun _ _ _ => Adds.trans) (fun _ _ _ => effect_adds) _ r

end Effects

/-! ## The row of the target -/

section Target

variable {H : Type}

/-- The branch has a live row. -/
def HasRow (db : DB H) (projectID branchID : ID) : Prop :=
  ∃ b ∈ db.branches, b.projectID = projectID ∧ b.id = branchID ∧ b.deleted = false

variable {db : DB H} {projectID branchID : ID}

theorem HasRow.get (h : HasRow db projectID branchID) :
    (db.getByProjectIDAndID projectID branchID).isSome := by
  obtain ⟨b, hb, hproject, hid, hlive⟩ := h
  rw [DB.getByProjectIDAndID, List.find?_isSome]
  exact ⟨b, hb, by simp [hproject, hid, hlive]⟩

theorem HasRow.map {db' : DB H} {f : Branch → Branch} (h : HasRow db projectID branchID)
    (hbranches : db'.branches = db.branches.map f)
    (hf : ∀ b, (f b).projectID = b.projectID ∧ (f b).id = b.id ∧ (f b).deleted = b.deleted) :
    HasRow db' projectID branchID := by
  obtain ⟨b, hb, hproject, hid, hlive⟩ := h
  obtain ⟨hfproject, hfid, hflive⟩ := hf b
  rw [HasRow, hbranches]
  exact ⟨f b, List.mem_map_of_mem hb, hfproject.trans hproject, hfid.trans hid,
    hflive.trans hlive⟩

theorem branchByName_hasRow {name : Str} {b : Branch} (h : branchByName db projectID name = .ok b) :
    HasRow db projectID b.id := by
  rw [branchByName, orError_eq_ok] at h
  have hkey := List.find?_some h
  simp only [Bool.and_eq_true, decide_eq_true_eq, Bool.not_eq_true'] at hkey
  exact ⟨b, List.mem_of_find?_eq_some h, hkey.1.1, rfl, hkey.2⟩

variable {caller : Caller}

theorem readTarget_hasRow {name : Str} {b : Branch}
    (h : readTarget db caller projectID name = .ok b) : HasRow db projectID b.id := by
  rw [readTarget] at h
  obtain ⟨_, -, h⟩ := bind_eq_ok.mp h
  exact branchByName_hasRow h

variable {targetBranch sourceBranch : Str} {opts : MergeCommitOptions} {land : Landing}

theorem openMerge_target {target : Branch}
    (h : openMerge db caller projectID targetBranch sourceBranch opts target = .ok land) :
    land.projectID = projectID ∧ land.target = target := by
  rw [openMerge] at h
  simp only [bind_eq_ok, pure_eq_ok] at h
  obtain ⟨_, -, _, -, _, -, _, -, _, -, _, -, rfl⟩ := h
  exact ⟨rfl, rfl⟩

theorem openFastForward_target [DecidableEq H] [HashScheme H] {allowProtected : Bool}
    {pinnedSource : Option ID} {target : Branch}
    (h : openFastForward db caller projectID targetBranch sourceBranch allowProtected
      pinnedSource target = .ok land) : land.projectID = projectID ∧ land.target = target := by
  rw [openFastForward] at h
  simp only [bind_eq_ok, pure_eq_ok] at h
  obtain ⟨_, -, _, -, _, -, _, -, _, -, _, -, rfl⟩ := h
  exact ⟨rfl, rfl⟩

variable [HashScheme H] [DecidableEq H]

theorem applyPushAll_hasRow {reqs : List (ApplyPushRequest H)} {db' : DB H}
    (h : HasRow db projectID branchID) (hwrite : applyPushAll db reqs = .ok db') :
    HasRow db' projectID branchID := by
  induction reqs generalizing db with
  | nil =>
      obtain rfl := Except.ok.inj hwrite
      exact h
  | cons req reqs ih =>
      rw [applyPushAll] at hwrite
      obtain ⟨mid, hmid, hwrite⟩ := bind_eq_ok.mp hwrite
      obtain ⟨-, -, hbranches⟩ := applyPush_adds hmid
      refine ih (h.map hbranches ?_) hwrite
      intro b
      split <;> exact ⟨rfl, rfl, rfl⟩

variable {w : LandingWrite H}

theorem writeLanding_hasRow {db' : DB H} (h : HasRow db projectID branchID)
    (hwrite : writeLanding db land w = .ok db') : HasRow db' projectID branchID := by
  cases w with
  | forward =>
      rw [writeLanding, updateCommitIf] at hwrite
      obtain ⟨_, -, hwrite⟩ := bind_eq_ok.mp hwrite
      obtain rfl := pure_eq_ok.mp hwrite
      refine h.map rfl ?_
      intro b
      split <;> exact ⟨rfl, rfl, rfl⟩
  | nothing =>
      obtain rfl := Except.ok.inj hwrite
      exact h
  | commits w => exact applyPushAll_hasRow h hwrite

theorem forwardMerge_target {r r' : Repository H}
    (h : (forwardMerge caller projectID targetBranch sourceBranch opts).exec effect r =
      (.ok (land, w), r')) : HasRow r.db land.projectID land.target.id := by
  rw [forwardMerge] at h
  simp only [exec_bind_eq_ok, exec_get, exec_lift, exec_pure,
    Prod.mk.injEq, Except.ok.injEq] at h
  obtain ⟨_, _, ⟨rfl, rfl⟩, target, _, ⟨htarget, rfl⟩, land', _, ⟨hopen, rfl⟩, _, _, ⟨-, rfl⟩,
    ⟨rfl, -⟩, -⟩ := h
  obtain ⟨hproject, rfl⟩ := openFastForward_target hopen
  rw [hproject]
  exact readTarget_hasRow htarget

theorem planMerge_target {svc : Services H} {newID : ℕ → ID} {r r' : Repository H}
    (h : (planMerge svc caller projectID targetBranch sourceBranch opts newID).exec effect r =
      (.ok (land, w), r')) : HasRow r.db land.projectID land.target.id := by
  rw [planMerge] at h
  simp only [exec_bind_eq_ok, exec_get, exec_lift, Prod.mk.injEq,
    Except.ok.injEq] at h
  obtain ⟨_, _, ⟨rfl, rfl⟩, target, _, ⟨htarget, rfl⟩, land', _, ⟨hopen, rfl⟩, h⟩ := h
  obtain ⟨hproject, rfl⟩ := openMerge_target hopen
  have hrow : HasRow r.db land'.projectID land'.target.id := by
    rw [hproject]
    exact readTarget_hasRow htarget
  have hfinish : ∀ {targetTree write s s'},
      (finishMerge svc caller land' targetTree write).exec effect s = (.ok (land, w), s') →
        land = land' := by
    intro targetTree write s s' hrun
    rw [finishMerge] at hrun
    simp only [exec_bind_eq_ok, exec_pure, Prod.mk.injEq, Except.ok.injEq] at hrun
    obtain ⟨_, _, -, _, _, -, ⟨rfl, -⟩, -⟩ := hrun
    rfl
  split at h
  · exact forwardMerge_target h
  · simp only [exec_bind_eq_ok, exec_lift, Prod.mk.injEq] at h
    obtain ⟨base, _, ⟨-, rfl⟩, targetHead, _, ⟨-, rfl⟩, targetTree, _, ⟨-, rfl⟩, h⟩ := h
    split at h
    · split at h
      · exact forwardMerge_target h
      · obtain ⟨commits, _, hcommits, h⟩ := exec_bind_eq_ok.mp h
        split at h
        · simp only [exec_pure, Prod.mk.injEq, Except.ok.injEq] at h
          obtain ⟨⟨rfl, -⟩, -⟩ := h
          exact hrow
        · obtain ⟨write, _, -, h⟩ := exec_bind_eq_ok.mp h
          obtain rfl := hfinish h
          exact hrow
    · obtain ⟨write, _, -, h⟩ := exec_bind_eq_ok.mp h
      obtain rfl := hfinish h
      exact hrow

end Target

/-! ## Texts that are there -/

section Texts

variable {H : Type} [HashScheme H] [DecidableEq H]

/-- The content of a chunk is there, with its row. -/
def Stored (r : Repository H) (h : H) : Prop :=
  (r.content h).isSome ∧ ∃ c ∈ r.db.chunks, c.hash = h

/-- The chunks of the text that the three versions of a path merge to. -/
def textChunks (z : Zstd) (r : Repository H) (path : Str) (entry : Decided H) :
    Except DomainError (List H) := do
  let store := contentStore z r
  let base ← loadMergedContent store entry.base
  let ours ← loadMergedContent store entry.ours
  let theirs ← loadMergedContent store entry.theirs
  let (content, conflicted) := store.mergeText base ours theirs
  refuseIf (conflicted = true) (conflictError [path] [])
  let (_, chunks) ← store.encodeBytes content path
  return chunks.map Nipa.Chunk.hash

/-- A chunk of a text that merges without a conflict. -/
def MergesText (z : Zstd) (r : Repository H) (base ours theirs : GoMap (Entry H)) (h : H) :
    Prop :=
  ∃ e ∈ (threeWay base ours theirs).entries.entries, e.2.decision = .textMerge ∧
    ∃ chunks, textChunks z r e.1 e.2 = .ok chunks ∧ h ∈ chunks

/-- Changes that are merged onto a file set one after the other, each read when it is
due.  The texts that merge at each of them are stored; where all are merged and may be
written, their chunks are linked to the project, as those of earlier changes are. -/
def TextsThere (z : Zstd) (r : Repository H) (perm : PermissionUsecase) (projectID : ID)
    (head : Commit H) (target : GoMap (Entry H)) :
    List (Except DomainError (GoMap (Entry H) × GoMap (Entry H))) → GoMap (Entry H) →
      (H → Prop) → Prop
  | [], current, texts =>
      ensureMergedWrites perm target current = .ok () →
        ∀ h, texts h → (projectID, h) ∈ r.db.projectChunkUploads
  | change :: rest, current, texts =>
      ∀ base theirs, change = .ok (base, theirs) →
        (threeWay base current theirs).conflicts = [] →
        (∀ h, MergesText z r base current theirs h → Stored r h) ∧
        ∀ merged : GoMap (Entry H),
          (∀ p, OutcomeMerged (contentStore z r) p (current.lookup p) (merged.lookup p)
            (outcomeAt (base.lookup p) (current.lookup p) (theirs.lookup p))) →
          (∃ root, buildNewTree r.db (some head) (mergeDelta target merged).1
            (mergeDelta target merged).2 = .ok root) →
          TextsThere z r perm projectID head target rest merged fun h =>
            texts h ∨ MergesText z r base current theirs h

/-- What a landing that is no fast-forward merges: the head and the file set of the
target, and the changes of the source. -/
def landingChanges (db : DB H) (caller : Caller) (projectID : ID)
    (targetBranch sourceBranch : Str) (opts : MergeCommitOptions) :
    Except DomainError (Commit H × GoMap (Entry H) ×
      List (Except DomainError (GoMap (Entry H) × GoMap (Entry H)))) := do
  let target ← readTarget db caller projectID targetBranch
  let land ← openMerge db caller projectID targetBranch sourceBranch opts target
  let base ← findMergeBase db (some land.targetHead) (some land.sourceHead)
  let targetHead ← commitByIDInProject db projectID land.targetHead
  let targetTree ← mergeTree db projectID land.targetHead
  if opts.strategy = .rebase then
    if base = some land.targetHead then return (targetHead, targetTree, [])
    let commits ← rebaseCommits db projectID land.sourceHead base
    return (targetHead, targetTree, commits.map (commitTrees db projectID))
  else
    return (targetHead, targetTree, [do
      let baseTree ← mergeTreeOf db projectID base
      let theirs ← mergeTree db projectID land.sourceHead
      return (baseTree, theirs)])

/-- Every text that a landing of the request merges is there. -/
def LandingThere (z : Zstd) (seen : ℕ → RequestStore H) (caller : Caller) (projectID : ID)
    (number : ℤ) (strategy : Str) (lockID : ℕ → ID) (r : Repository H) : Prop :=
  ∀ mr opts, mergeGate seen caller projectID number strategy lockID = .ok (mr, opts) →
    opts.strategy ≠ .ff →
    ∀ head tree changes, landingChanges r.db caller projectID mr.targetBranch mr.sourceBranch
        opts = .ok (head, tree, changes) →
      TextsThere z r caller.perm projectID head tree changes tree fun _ => False

variable {z : Zstd} {r : Repository H}

theorem Stored.upload {h : H} {data : List UInt8} (hstored : Stored r h) :
    Stays effect r (fun _ => True)
      (Program.perform (.upload h data) : Run H Unit) := by
  apply Stays.perform
  intro r' hr'
  rw [effect, Merging.upload] at hr'
  obtain ⟨_, -, hr'⟩ := bind_eq_ok.mp hr'
  rw [if_pos hstored.1, if_pos hstored.2] at hr'
  exact (pure_eq_ok.mp hr').symm

omit [HashScheme H] in
theorem foldlM_upload_stored {store : ContentStore H} {db : DB H} {chunks : List (Nipa.Chunk H)}
    (hput : ∀ c, store.put c = .ok ())
    (h : ∀ c ∈ chunks, ∃ c' ∈ db.chunks, c'.hash = c.hash) :
    chunks.foldlM (Nipa.upload store) db = .ok db := by
  induction chunks with
  | nil => rfl
  | cons c chunks ih =>
      have hrow : Nipa.upload store db c = .ok db := by
        rw [Nipa.upload, hput, if_pos (h c List.mem_cons_self)]
        rfl
      rw [List.foldlM_cons, hrow]
      exact ih fun c hc => h c (List.mem_cons_of_mem _ hc)

theorem storeMergedContent_stays {path : Str} {mode : ℕ} {content : List UInt8}
    (h : ∀ used chunks, (contentStore z r).encodeBytes content path = .ok (used, chunks) →
      ∀ c ∈ chunks, Stored r c.hash) :
    Stays effect r
      (fun out => Nipa.storeMergedContent (contentStore z r) r.db path mode content =
        .ok (r.db, out)) (storeMergedContent z path mode content) := by
  rw [storeMergedContent]
  apply Stays.lift_bind
  rintro ⟨used, chunks⟩ hencode
  have hencoded : (contentStore z r).encodeBytes content path =
      .ok (used, chunks.map fun c : EncodedChunk H => ⟨c.hash, c.sizeBytes⟩) := by
    change Except.map _ (Except.mapError _ _) = _
    rw [hencode]
    rfl
  have hstored := h used _ hencoded
  refine (Stays.forM fun c hc => (hstored _ (List.mem_map_of_mem hc)).upload).bind ?_
  intro _ _
  apply Stays.pure
  rw [Nipa.storeMergedContent, hencoded]
  refine bind_eq_ok.mpr ⟨_, rfl, bind_eq_ok.mpr ⟨r.db, ?_, ?_⟩⟩
  · exact foldlM_upload_stored (fun _ => rfl) fun c hc => (hstored c hc).2
  · simp only [List.map_map]
    rfl

theorem materializeEntry_stays {acc : GoMap (Entry H) × List (Nipa.Chunk H)}
    {e : Σ _ : Str, Decided H}
    (h : e.2.decision = .textMerge → ∀ chunks, textChunks z r e.1 e.2 = .ok chunks →
      ∀ h ∈ chunks, Stored r h) :
    Stays effect r
      (fun acc' => Nipa.materializeEntry (contentStore z r) (r.db, acc) e.1 e.2 =
        .ok (r.db, acc')) (materializeEntry z acc e) := by
  obtain ⟨path, entry⟩ := e
  obtain ⟨merged, stored⟩ := acc
  cases hd : entry.decision
  case keepTheirs =>
    simp only [materializeEntry, Nipa.materializeEntry, hd]
    exact Stays.pure rfl
  case textMerge =>
    simp only [materializeEntry, Nipa.materializeEntry, hd]
    apply Stays.get_bind
    apply Stays.lift_bind
    intro baseData hbase
    apply Stays.lift_bind
    intro oursData hours
    apply Stays.lift_bind
    intro theirsData htheirs
    apply Stays.lift_bind
    intro _ hclean
    refine (storeMergedContent_stays ?_).bind ?_
    · intro used chunks hencode c hc
      have htext : textChunks z r path entry = .ok (chunks.map Nipa.Chunk.hash) := by
        simp only [textChunks, bind_eq_ok]
        exact ⟨_, hbase, _, hours, _, htheirs, _, hclean, _, hencode, rfl⟩
      exact h hd _ htext c.hash (List.mem_map_of_mem hc)
    · rintro ⟨file, chunks⟩ hstore
      apply Stays.pure
      simp only [bind_eq_ok]
      exact ⟨_, hbase, _, hours, _, htheirs, _, hclean, _, hstore, rfl⟩
  all_goals
    simp only [materializeEntry, Nipa.materializeEntry, hd]
    exact Stays.pure rfl

theorem materializeEntry_stored {acc acc' : DB H × GoMap (Entry H) × List (Nipa.Chunk H)}
    {e : Σ _ : Str, Decided H}
    (h : Nipa.materializeEntry (contentStore z r) acc e.1 e.2 = .ok acc') {c : Nipa.Chunk H}
    (hc : c ∈ acc'.2.2) :
    c ∈ acc.2.2 ∨ e.2.decision = .textMerge ∧
      ∃ chunks, textChunks z r e.1 e.2 = .ok chunks ∧ c.hash ∈ chunks := by
  obtain ⟨path, entry⟩ := e
  obtain ⟨db, merged, stored⟩ := acc
  cases hd : entry.decision
  case textMerge =>
    simp only [Nipa.materializeEntry, hd, bind_eq_ok, pure_eq_ok] at h
    obtain ⟨base, hbase, ours, hours, theirs, htheirs, _, hclean, ⟨mid, f, chunks⟩, hstore,
      rfl⟩ := h
    rw [Nipa.storeMergedContent] at hstore
    obtain ⟨⟨encoding, cs⟩, hencode, hstore⟩ := bind_eq_ok.mp hstore
    obtain ⟨_, -, hstore⟩ := bind_eq_ok.mp hstore
    obtain ⟨-, hf⟩ := Prod.mk.inj (pure_eq_ok.mp hstore)
    obtain ⟨-, rfl⟩ := Prod.mk.inj hf
    rcases List.mem_append.mp hc with hc | hc
    · exact Or.inl hc
    · refine Or.inr ⟨rfl, cs.map Nipa.Chunk.hash, ?_, List.mem_map_of_mem hc⟩
      simp only [textChunks, bind_eq_ok]
      exact ⟨_, hbase, _, hours, _, htheirs, _, hclean, _, hencode, rfl⟩
  all_goals
    simp only [Nipa.materializeEntry, hd, Except.ok.injEq] at h
    rw [← h] at hc
    exact Or.inl hc

variable {svc : Services H}

theorem mergeOnto_stays {n : ℕ} {base ours theirs : GoMap (Entry H)} {pre : Str}
    (h : (threeWay base ours theirs).conflicts = [] →
      ∀ h, MergesText svc.zstd r base ours theirs h → Stored r h) :
    Stays effect r
      (fun out => (threeWay base ours theirs).conflicts = [] ∧
        (∀ p, OutcomeMerged (contentStore svc.zstd r) p (ours.lookup p) (out.1.lookup p)
          (outcomeAt (base.lookup p) (ours.lookup p) (theirs.lookup p))) ∧
        ∀ c ∈ out.2, MergesText svc.zstd r base ours theirs c.hash)
      (mergeOnto svc n base ours theirs pre) := by
  rw [mergeOnto]
  apply Stays.lift_bind
  intro _ hconf
  have hconf : (threeWay base ours theirs).conflicts = [] := by simpa using hconf
  have hperm := svc.order.perm n (threeWay base ours theirs).entries
  rw [materialize]
  refine (Stays.foldlM (φ := fun acc => (r.db, acc))
    (g := fun acc e => Nipa.materializeEntry (contentStore svc.zstd r) acc e.1 e.2) ?_ _).bind ?_
  · intro e he acc
    refine materializeEntry_stays ?_
    intro htext chunks hchunks x hx
    exact h hconf x ⟨e, hperm.mem_iff.mp he, htext, chunks, hchunks, hx⟩
  · rintro ⟨merged, stored⟩ hfold
    apply Stays.pure
    refine ⟨hconf, (outcomeMerged_of_foldlM hconf hperm hfold).2, ?_⟩
    refine foldlM_invariant (I := fun acc : DB H × GoMap (Entry H) × List (Nipa.Chunk H) =>
      ∀ c ∈ acc.2.2, MergesText svc.zstd r base ours theirs c.hash) ?_ ?_ hfold
    · intro e he acc acc' hacc hstep c hc
      rcases materializeEntry_stored hstep hc with hc | ⟨htext, chunks, hchunks, hc⟩
      · exact hacc c hc
      · exact ⟨e, hperm.mem_iff.mp he, htext, chunks, hchunks, hc⟩
    · intro c hc
      cases hc

theorem finishMerge_stays {caller : Caller} {land : Landing} {targetTree : GoMap (Entry H)}
    {write : MergeWrite H}
    (h : ensureMergedWrites caller.perm targetTree write.merged = .ok () →
      ∀ c ∈ write.stored, (land.projectID, c.hash) ∈ r.db.projectChunkUploads) :
    Stays effect r (fun _ => True) (finishMerge svc caller land targetTree write) := by
  rw [finishMerge]
  apply Stays.lift_bind
  intro _ hwrites
  have hlinked : Stays effect r (fun _ => True)
      (attributeProjectChunks svc land.projectID write.stored) := by
    rw [attributeProjectChunks]
    refine (Stays.forM ?_).bind ?_
    · intro c hc
      apply Stays.perform
      intro r' hr'
      rw [effect, linkProjectChunk, if_pos (h hwrites c hc)] at hr'
      exact (Except.ok.inj hr').symm
    · intro _ _
      split
      · exact Stays.pure trivial
      · exact Stays.lift fun _ _ => trivial
  refine hlinked.bind ?_
  intro _ _
  exact Stays.pure trivial

theorem landingCommit_built {projectID commitID userID : ID} {target : Branch}
    {targetHead : Commit H} {targetTree merged : GoMap (Entry H)} {parentID parent2ID : Option ID}
    {parentHashes : List H} {message : Str} {c : PlannedCommit H}
    (h : landingCommit r.db projectID target targetHead targetTree merged commitID parentID
      parent2ID parentHashes userID message = .ok c) :
    ∃ root, buildNewTree r.db (some targetHead) (mergeDelta targetTree merged).1
      (mergeDelta targetTree merged).2 = .ok root := by
  have hc := (landingCommit_ok h).1
  obtain ⟨root, _, hroot, -⟩ := hc.built
  rw [hc.delta_eq]
  exact ⟨root, hroot⟩

variable {perm : PermissionUsecase} {head : Commit H} {tree : GoMap (Entry H)}

variable {newID : ℕ → ID}

theorem replayCommits_stays {land : Landing} {commits : List (Commit H)} {n : ℕ} {parentID : ID}
    {parentHash : H} {write : MergeWrite H} {texts : H → Prop}
    (h : TextsThere svc.zstd r perm land.projectID head tree
      (commits.map (commitTrees r.db land.projectID)) write.merged texts)
    (htexts : ∀ c ∈ write.stored, texts c.hash) :
    Stays effect r
      (fun w => ensureMergedWrites perm tree w.merged = .ok () →
        ∀ c ∈ w.stored, (land.projectID, c.hash) ∈ r.db.projectChunkUploads)
      (replayCommits svc land newID head tree commits n parentID parentHash write) := by
  induction commits generalizing n parentID parentHash write texts with
  | nil =>
      apply Stays.pure
      intro hwrites c hc
      exact h hwrites c.hash (htexts c hc)
  | cons commit rest ih =>
      rw [replayCommits]
      apply Stays.get_bind
      apply Stays.lift_bind
      intro commitBase hbase
      apply Stays.lift_bind
      intro commitTree htree
      have hread : commitTrees r.db land.projectID commit = .ok (commitBase, commitTree) := by
        rw [commitTrees, hbase, htree]
        rfl
      have hchange := h commitBase commitTree hread
      refine (mergeOnto_stays fun hconf => (hchange hconf).1).bind ?_
      rintro ⟨current, added⟩ ⟨hconf, hmerged, hadded⟩
      apply Stays.lift_bind
      intro next hnext
      refine ih ((hchange hconf).2 current hmerged (landingCommit_built hnext)) ?_
      intro c hc
      exact (List.mem_append.mp hc).imp (htexts c) (hadded c)

variable {opts : MergeCommitOptions}

theorem forwardMerge_stays {caller : Caller} {projectID : ID} {targetBranch sourceBranch : Str} :
    Stays effect r (fun _ => True)
      (forwardMerge caller projectID targetBranch sourceBranch opts) := by
  rw [forwardMerge]
  apply Stays.get_bind
  apply Stays.lift_bind
  intro _ _
  apply Stays.lift_bind
  intro _ _
  apply Stays.lift_bind
  intro _ _
  exact Stays.pure trivial

theorem planMergeCommit_stays {land : Landing} {base : Option ID}
    (h : TextsThere svc.zstd r perm land.projectID head tree [do
      let baseTree ← mergeTreeOf r.db land.projectID base
      let theirs ← mergeTree r.db land.projectID land.sourceHead
      return (baseTree, theirs)] tree fun _ => False) :
    Stays effect r
      (fun w => ensureMergedWrites perm tree w.merged = .ok () →
        ∀ c ∈ w.stored, (land.projectID, c.hash) ∈ r.db.projectChunkUploads)
      (planMergeCommit svc land opts newID base head tree) := by
  rw [planMergeCommit]
  apply Stays.get_bind
  apply Stays.lift_bind
  intro sourceHead _
  apply Stays.lift_bind
  intro baseTree hbase
  apply Stays.lift_bind
  intro theirs htheirs
  have hchange := h baseTree theirs (by rw [hbase, htheirs]; rfl)
  refine (mergeOnto_stays fun hconf => (hchange hconf).1).bind ?_
  rintro ⟨merged, stored⟩ ⟨hconf, hmerged, hstored⟩
  apply Stays.lift_bind
  intro commit hcommit
  apply Stays.pure
  intro hwrites c hc
  exact (hchange hconf).2 merged hmerged (landingCommit_built hcommit) hwrites c.hash
    (Or.inr (hstored c hc))

theorem planMerge_stays {caller : Caller} {projectID : ID} {targetBranch sourceBranch : Str}
    (h : opts.strategy ≠ .ff → ∀ head tree changes,
      landingChanges r.db caller projectID targetBranch sourceBranch opts =
        .ok (head, tree, changes) →
      TextsThere svc.zstd r caller.perm projectID head tree changes tree fun _ => False) :
    Stays effect r (fun _ => True)
      (planMerge svc caller projectID targetBranch sourceBranch opts newID) := by
  rw [planMerge]
  apply Stays.get_bind
  apply Stays.lift_bind
  intro target htarget
  apply Stays.lift_bind
  intro land hopen
  obtain ⟨rfl, -⟩ := openMerge_target hopen
  split
  · exact forwardMerge_stays
  next hff =>
    apply Stays.lift_bind
    intro base hbase
    apply Stays.lift_bind
    intro head hhead
    apply Stays.lift_bind
    intro tree htree
    have hchanges := h hff head tree
    simp only [landingChanges, bind_eq_ok] at hchanges
    split
    next hrebase =>
      split
      · exact forwardMerge_stays
      next hbehind =>
        apply Stays.lift_bind
        intro commits hcommits
        split
        · exact Stays.pure trivial
        · have htexts := hchanges (commits.map (commitTrees r.db land.projectID))
            ⟨target, htarget, land, hopen, base, hbase, head, hhead, tree, htree, by
              rw [if_pos hrebase, if_neg hbehind, hcommits]
              rfl⟩
          refine (replayCommits_stays htexts (by simp)).bind ?_
          intro write hlinks
          exact finishMerge_stays hlinks
    next hmerge =>
      have htexts := hchanges _
        ⟨target, htarget, land, hopen, base, hbase, head, hhead, tree, htree, if_neg hmerge⟩
      refine (planMergeCommit_stays htexts).bind ?_
      intro write hlinks
      exact finishMerge_stays hlinks

end Texts

/-! ## Refused landings -/

section Refused

variable {H : Type} [HashScheme H] [DecidableEq H]

theorem mergeRequest_refused {svc : Services H} {seen : ℕ → RequestStore H} {caller : Caller}
    {projectID : ID} {number : ℤ} {strategy : Str} {lockID newID : ℕ → ID}
    {r r' : Repository H} {e : DomainError}
    (h : mergeRequest svc seen caller projectID number strategy lockID newID r =
      (.error e, r')) :
    ((planRequest svc seen caller projectID number strategy lockID newID).exec effect r).2 =
      r' := by
  rw [mergeRequest] at h
  rcases hplan : (planRequest svc seen caller projectID number strategy lockID newID).exec
      effect r with ⟨e' | ⟨land, w⟩, mid⟩
  · rw [hplan] at h
    exact (Prod.mk.inj h).2
  · rw [hplan] at h
    dsimp only at h ⊢
    rw [writeMerge] at h
    cases hwrite : writeLanding mid.db land w with
    | error e' =>
        rw [hwrite] at h
        exact (Prod.mk.inj h).2
    | ok db =>
        rw [hwrite] at h
        -- the row of the target is there, so reading it again does not fail
        have hrow : HasRow r.db land.projectID land.target.id := by
          rw [planRequest] at hplan
          obtain ⟨⟨mr, opts⟩, s, hgate, hplan⟩ := exec_bind_eq_ok.mp hplan
          rw [exec_lift, Prod.mk.injEq] at hgate
          obtain ⟨-, rfl⟩ := hgate
          exact planMerge_target hplan
        have hadds := planRequest_adds svc seen caller projectID number strategy lockID newID r
        rw [hplan] at hadds
        have hbranches : mid.db.branches = r.db.branches :=
          congrArg (fun db => db.branches) hadds.rest
        have hmid : HasRow mid.db land.projectID land.target.id := by
          rwa [HasRow, hbranches]
        obtain ⟨b, hb⟩ := Option.isSome_iff_exists.mp (writeLanding_hasRow hmid hwrite).get
        dsimp only at h
        rw [hb] at h
        cases (Prod.mk.inj h).1

/-- A landing that is refused adds chunks and links at most, so heads, commits and trees
are as they were; where the texts that it merges are there before, nothing changes. -/
theorem refused_landing_untouched (svc : Services H) (seen : ℕ → RequestStore H)
    (caller : Caller) (projectID : ID) (number : ℤ) (strategy : Str) (lockID newID : ℕ → ID)
    {r r' : Repository H} {e : DomainError}
    (h : mergeRequest svc seen caller projectID number strategy lockID newID r =
      (.error e, r')) :
    Adds r r' ∧
      (LandingThere svc.zstd seen caller projectID number strategy lockID r →
        Untouched r r') := by
  have hend := mergeRequest_refused h
  constructor
  · rw [← hend]
    exact planRequest_adds svc seen caller projectID number strategy lockID newID r
  · intro hthere
    have hstays : Stays effect r (fun _ => True)
        (planRequest svc seen caller projectID number strategy lockID newID) := by
      rw [planRequest]
      apply Stays.lift_bind
      rintro ⟨mr, opts⟩ hgate
      exact planMerge_stays (hthere mr opts hgate)
    have hsame : r' = r := hend.symm.trans hstays.state_eq
    rw [hsame]
    exact ⟨rfl, ⟨rfl, rfl, rfl⟩, rfl, rfl, rfl⟩

end Refused

/-! ## A refusal after a text merge -/

/-- A text of three lines. -/
def note (first last : UInt8) : List UInt8 := [first, 10, 50, 10, last, 10]

def noteHash (first last : UInt8) : IdealHash := .digest (note first last)

def notePush (branchName message : String) (base : TextField ID) (first last : UInt8) :
    PushRequest IdealHash where
  projectID := 1
  branchName := branchName.toList
  baseTreeHash := []
  message := message.toList
  files := [⟨"a.txt".toList, 0o644, 6, false, encodingZstd, fileHash [noteHash first last],
    [noteHash first last]⟩]
  removed := []
  parent2CommitHash := .empty
  baseCommitID := base
  paths_fit := by
    change ∀ p ∈ ["a.txt".toList], (utf8 p).length < 2 ^ 32
    decide

def noteVersions : List (UInt8 × UInt8) := [(49, 51), (48, 51), (49, 52)]

def noteUploads : DB IdealHash :=
  { demoStore with
    chunks := noteVersions.map fun v => ⟨noteHash v.1 v.2, 6⟩
    projectChunkUploads := noteVersions.map fun v => (1, noteHash v.1 v.2) }

/-- The mainline has changed the first line and a branch the last. -/
def noteBranches : Except DomainError (DB IdealHash) := do
  let db₁ ← push noteUploads demoCaller 7 (notePush "main" "base" .empty 49 51)
  let db₂ ← push { db₁ with
      branches := db₁.branches ++ [⟨2, 1, "feature".toList, false, false, some 7, false⟩] }
    demoCaller 8 (notePush "feature" "last" (.value "7".toList 7) 49 52)
  push db₂ demoCaller 9 (notePush "main" "first" (.value "7".toList 7) 48 51)

def noteDB : DB IdealHash := noteBranches.toOption.getD demoStore

def noteRepository : Repository IdealHash where
  db := noteDB
  content h := (noteVersions.find? fun v => noteHash v.1 v.2 = h).map fun v => note v.1 v.2

def noteRequests : RequestStore IdealHash where
  db := noteDB
  policies _ := ⟨0, false, false, [], []⟩
  requests := [reviewRequest .opened]
  reviews := []
  checks := []

def noteServices : Services IdealHash where
  zstd := ⟨id, fun data dst => .ok (dst ++ data)⟩
  ledger _ _ := .ok ()
  order := ⟨fun _ m => m.entries, fun _ _ => List.Perm.refl _⟩

def pathReader : Caller := ⟨⟨fun _ => true, fun _ p => p = .read, true⟩, some 5⟩

/-- The landing of the branch, for a caller. -/
def landNote (caller : Caller) (r : Repository IdealHash) :
    Except DomainError Branch × Repository IdealHash :=
  mergeRequest noteServices (fun _ => noteRequests) caller 1 1 "merge".toList (fun n => 30 + n)
    (fun n => 40 + n) r

theorem landNote_refused :
    ∃ e r', landNote pathReader noteRepository = (.error e, r') ∧ e = errNoPermission ∧
      (r'.content (noteHash 48 52)).isSome = true := by
  have hrun : ((match (landNote pathReader noteRepository).1 with
        | .error e => some e
        | .ok _ => none) = some errNoPermission ∧
      ((landNote pathReader noteRepository).2.content (noteHash 48 52)).isSome = true) := by
    constructor <;> decide +kernel
  rcases hland : landNote pathReader noteRepository with ⟨e | b, r'⟩
  · rw [hland] at hrun
    exact ⟨e, r', rfl, Option.some.inj hrun.1, hrun.2⟩
  · rw [hland] at hrun
    cases hrun.1

/-- The merged text is stored although the landing is refused. -/
theorem refused_landing_stores_text :
    ∃ (svc : Services IdealHash) (seen : ℕ → RequestStore IdealHash) (caller : Caller)
      (lockID newID : ℕ → ID) (r r' : Repository IdealHash) (e : DomainError),
      mergeRequest svc seen caller 1 1 "merge".toList lockID newID r = (.error e, r') ∧
        ¬ Untouched r r' := by
  obtain ⟨e, r', hland, -, hstored⟩ := landNote_refused
  refine ⟨_, _, _, _, _, _, r', e, hland, ?_⟩
  intro hsame
  rw [hsame.content] at hstored
  have habsent : (noteRepository.content (noteHash 48 52)).isSome = false := by decide
  rw [habsent] at hstored
  cases hstored

/-! ## A refusal that leaves nothing -/

/-- The repository with the merged text, as an earlier landing has left it. -/
def mergedNote : Repository IdealHash where
  db := { noteDB with
    chunks := noteDB.chunks ++ [⟨noteHash 48 52, 6⟩]
    projectChunkUploads := noteDB.projectChunkUploads ++ [(1, noteHash 48 52)] }
  content := Function.update noteRepository.content (noteHash 48 52) (some (note 48 52))

/-- The changes of a merge with all texts stored and linked. -/
def linkedTexts (r : Repository IdealHash) : Commit IdealHash × GoMap (Entry IdealHash) ×
    List (Except DomainError (GoMap (Entry IdealHash) × GoMap (Entry IdealHash))) → Bool
  | (_, tree, [.ok (base, theirs)]) =>
      decide (∀ e ∈ (threeWay base tree theirs).entries.entries,
        ∀ h ∈ (textChunks noteServices.zstd r e.1 e.2).toOption.getD [],
          ((r.content h).isSome ∧ ∃ c ∈ r.db.chunks, c.hash = h) ∧
            (1, h) ∈ r.db.projectChunkUploads)
  | _ => false

theorem linkedTexts_there {r : Repository IdealHash} {perm : PermissionUsecase}
    {head : Commit IdealHash} {tree : GoMap (Entry IdealHash)}
    {changes : List (Except DomainError (GoMap (Entry IdealHash) × GoMap (Entry IdealHash)))}
    (h : linkedTexts r (head, tree, changes) = true) :
    TextsThere noteServices.zstd r perm 1 head tree changes tree fun _ => False := by
  unfold linkedTexts at h
  split at h
  next head' tree' base theirs heq =>
    obtain ⟨-, rfl, rfl⟩ := heq
    have hall : ∀ x, MergesText noteServices.zstd r base tree theirs x →
        Stored r x ∧ (1, x) ∈ r.db.projectChunkUploads := by
      rintro x ⟨e, he, -, chunks, hchunks, hx⟩
      refine of_decide_eq_true h e he x ?_
      rw [hchunks]
      exact hx
    rintro _ _ ⟨⟩ -
    refine ⟨fun x hx => (hall x hx).1, ?_⟩
    intro merged _ _ _ x hx
    rcases hx with ⟨⟨⟩⟩ | hx
    exact (hall x hx).2
  · cases h

/-- What the landing of the branch merges there. -/
def mergedNoteChanges : Except DomainError (Commit IdealHash × GoMap (Entry IdealHash) ×
    List (Except DomainError (GoMap (Entry IdealHash) × GoMap (Entry IdealHash)))) := do
  let (mr, opts) ← mergeGate (fun _ => noteRequests) pathReader 1 1 "merge".toList
    (fun n => 30 + n)
  landingChanges mergedNote.db pathReader 1 mr.targetBranch mr.sourceBranch opts

theorem mergedNoteChanges_linked : mergedNoteChanges.toOption.any (linkedTexts mergedNote) := by
  decide +kernel

theorem mergedNote_there :
    LandingThere noteServices.zstd (fun _ => noteRequests) pathReader 1 1 "merge".toList
      (fun n => 30 + n) mergedNote := by
  intro mr opts hgate _ head tree changes hchanges
  have hplan : mergedNoteChanges = .ok (head, tree, changes) :=
    bind_eq_ok.mpr ⟨(mr, opts), hgate, hchanges⟩
  have hlinked := mergedNoteChanges_linked
  rw [hplan] at hlinked
  exact linkedTexts_there hlinked

theorem refused_landing_untouched_note :
    ∃ e r', landNote pathReader mergedNote = (.error e, r') ∧ Untouched mergedNote r' := by
  have hrun : (landNote pathReader mergedNote).1.toOption.isNone = true := by decide +kernel
  rcases hland : landNote pathReader mergedNote with ⟨e | b, r'⟩
  · exact ⟨e, r', rfl, (refused_landing_untouched noteServices (fun _ => noteRequests) pathReader
      1 1 "merge".toList (fun n => 30 + n) (fun n => 40 + n) hland).2 mergedNote_there⟩
  · rw [hland] at hrun
    cases hrun

end Nipa.Merging
