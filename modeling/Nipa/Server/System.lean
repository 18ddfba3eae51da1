import Nipa.Merge.LandingPlan
import Nipa.Support.Runs

/-!
# Concurrent requests

The server works on many requests at once.  A request reads the branch rows and
the locks, works out what it will write, and writes, each in a transaction of
its own; steps of other requests can come in between.  A state is the database
together with what each request has in hand.  Trees and commits are never
changed, so reading them piece by piece is the same as reading them at once, and
reads of nothing else are one step.

A step only shows requests that get further.  A request that fails, or that is
answered, is dropped; a landing that turns out to be a fast-forward goes on as
one.
-/

namespace Nipa

open Support

/-- What a request has in hand between two of its transactions. -/
inductive Task (H : Type) where
  | pushOpened (caller : Caller) (commitID : ID) (req : PushRequest H)
      (files : List (PushFile H)) (branch : Branch)
  | pushLocked (caller : Caller) (commitID : ID) (req : PushRequest H)
      (files : List (PushFile H)) (branch : Branch) (userID : ID) (head : Option (Commit H))
  | pushPlanned (branch : Branch) (commit : PlannedCommit H)
  | landStarted (caller : Caller) (projectID : ID) (targetBranch sourceBranch : Str)
      (opts : MergeCommitOptions) (newID : ℕ → ID) (target : Branch)
  | landOpened (caller : Caller) (opts : MergeCommitOptions) (newID : ℕ → ID) (land : Landing)
  | landPlanned (land : Landing) (write : MergeWrite H)
  | forwardStarted (caller : Caller) (projectID : ID) (targetBranch sourceBranch : Str)
      (allowProtected : Bool) (pinnedSource : Option ID) (target : Branch)
  | forwardOpened (caller : Caller) (allowProtected : Bool) (land : Landing)
  | forwardPlanned (land : Landing)

/-- The commits a request is about to write. -/
def Task.commits {H : Type} : Task H → List (PlannedCommit H)
  | pushPlanned _ c => [c]
  | landPlanned _ w => w.commits
  | _ => []

structure Server (H : Type) where
  db : DB H
  tasks : ℕ → Option (Task H)

namespace Server

variable {H : Type}

/-- Request `i` has something else in hand. -/
def assign (s : Server H) (i : ℕ) (t : Option (Task H)) : Server H :=
  { s with tasks := Function.update s.tasks i t }

def withDB (s : Server H) (db : DB H) : Server H :=
  { s with db := db }

@[simp] theorem assign_db (s : Server H) (i : ℕ) (t : Option (Task H)) :
    (s.assign i t).db = s.db := rfl

@[simp] theorem withDB_db (s : Server H) (db : DB H) : (s.withDB db).db = db := rfl

@[simp] theorem withDB_tasks (s : Server H) (db : DB H) : (s.withDB db).tasks = s.tasks := rfl

@[simp] theorem assign_self (s : Server H) (i : ℕ) (t : Option (Task H)) :
    (s.assign i t).tasks i = t := by
  simp [assign]

@[simp] theorem assign_assign (s : Server H) (i : ℕ) (t t' : Option (Task H)) :
    (s.assign i t).assign i t' = s.assign i t' := by
  simp only [assign, Function.update_idem]

@[simp] theorem assign_withDB (s : Server H) (i : ℕ) (t : Option (Task H)) (db : DB H) :
    (s.assign i t).withDB db = (s.withDB db).assign i t := rfl

theorem assign_tasks {s : Server H} {i j : ℕ} {t : Option (Task H)} {t' : Task H}
    (h : (s.assign i t).tasks j = some t') : t = some t' ∨ s.tasks j = some t' := by
  have h' : Function.update s.tasks i t j = some t' := h
  by_cases hij : j = i
  · subst hij
    rw [Function.update_self] at h'
    exact Or.inl h'
  · rw [Function.update_of_ne hij] at h'
    exact Or.inr h'

end Server

/-- The steps of the server, each named by the request it belongs to. -/
inductive Event (H : Type) where
  | startPush (i : ℕ) (caller : Caller) (commitID : ID) (req : PushRequest H)
  | lockPush (i : ℕ)
  | planPush (i : ℕ)
  | writePush (i : ℕ)
  | startLanding (i : ℕ) (caller : Caller) (projectID : ID) (targetBranch sourceBranch : Str)
      (opts : MergeCommitOptions) (newID : ℕ → ID)
  | openLanding (i : ℕ)
  | planLanding (i : ℕ)
  | writeLanding (i : ℕ)
  | startForward (i : ℕ) (caller : Caller) (projectID : ID) (targetBranch sourceBranch : Str)
      (allowProtected : Bool) (pinnedSource : Option ID)
  | openForward (i : ℕ)
  | planForward (i : ℕ)
  | writeForward (i : ℕ)
  | drop (i : ℕ)
  | other

/-- Everything else that goes on: chunks, locks and the administration of
branches.  Trees and commits stay, and so does the head of every branch. -/
structure Housekeeping {H : Type} (db db' : DB H) : Prop extends DB.SameTrees db db' where
  branch_ids : (db'.branches.map Branch.id).Nodup
  kept : ∀ b ∈ db.branches, ∃ b' ∈ db'.branches, b'.id = b.id ∧ b'.commitID = b.commitID ∧
    (b'.deleted = false → b.deleted = false)
  heads_stored : ∀ b ∈ db'.branches, ∀ c ∈ b.commitID, c ∈ db'.commits.map Commit.id

theorem updateCommitIf_sameTrees {H : Type} {db db' : DB H} {branchID fromID toID : ID}
    (h : updateCommitIf db branchID fromID toID = .ok db') : DB.SameTrees db db' := by
  rw [updateCommitIf] at h
  simp only [bind_eq_ok, pure_eq_ok] at h
  obtain ⟨_, -, rfl⟩ := h
  exact ⟨rfl, rfl, rfl⟩

theorem attributeProjectChunks_chunksOnly {H : Type} [DecidableEq H] (db : DB H)
    (projectID : ID) (chunks : List (Chunk H)) :
    ChunksOnly db (attributeProjectChunks db projectID chunks) :=
  ⟨⟨rfl, rfl, rfl⟩, rfl, rfl⟩

section Steps

variable {H : Type} [HashScheme H] [DecidableEq H]

inductive Step (store : ContentStore H) : Server H → Event H → Server H → Prop where
  | startPush {s : Server H} {i : ℕ} {caller : Caller} {commitID : ID} {req : PushRequest H}
      {files : List (PushFile H)} {branch : Branch} (hfree : s.tasks i = none)
      (haccept : acceptPush caller req = .ok files) (hopen : openBranch s.db req = .ok branch) :
      Step store s (.startPush i caller commitID req)
        (s.assign i (some (.pushOpened caller commitID req files branch)))
  | lockPush {s : Server H} {i : ℕ} {caller : Caller} {commitID : ID} {req : PushRequest H}
      {files : List (PushFile H)} {branch : Branch} {userID : ID} {head : Option (Commit H)}
      {lockPlan : PushLockPlan}
      (htask : s.tasks i = some (.pushOpened caller commitID req files branch))
      (hlock : lockPush s.db caller req files branch = .ok (userID, head, lockPlan)) :
      Step store s (.lockPush i)
        (s.assign i (some (.pushLocked caller commitID req files branch userID head)))
  | planPush {s : Server H} {i : ℕ} {caller : Caller} {commitID : ID} {req : PushRequest H}
      {files : List (PushFile H)} {branch : Branch} {userID : ID} {head : Option (Commit H)}
      {apply : ApplyPushRequest H}
      (htask : s.tasks i = some (.pushLocked caller commitID req files branch userID head))
      (hplan : planApply s.db commitID req files branch userID head = .ok apply) :
      Step store s (.planPush i)
        (s.assign i (some (.pushPlanned branch ⟨files, req.removed, apply⟩)))
  | writePush {s : Server H} {i : ℕ} {branch : Branch} {c : PlannedCommit H} {db' : DB H}
      (htask : s.tasks i = some (.pushPlanned branch c))
      (hwrite : applyPush s.db c.request = .ok db') :
      Step store s (.writePush i) ((s.withDB db').assign i none)
  | startLanding {s : Server H} {i : ℕ} {caller : Caller} {projectID : ID}
      {targetBranch sourceBranch : Str} {opts : MergeCommitOptions} {newID : ℕ → ID}
      {target : Branch} (hfree : s.tasks i = none)
      (hread : readTarget s.db caller projectID targetBranch = .ok target) :
      Step store s (.startLanding i caller projectID targetBranch sourceBranch opts newID)
        (s.assign i (some (.landStarted caller projectID targetBranch sourceBranch opts newID
          target)))
  | openLanding {s : Server H} {i : ℕ} {caller : Caller} {projectID : ID}
      {targetBranch sourceBranch : Str} {opts : MergeCommitOptions} {newID : ℕ → ID}
      {target : Branch} {land : Landing}
      (htask : s.tasks i = some (.landStarted caller projectID targetBranch sourceBranch opts
        newID target))
      (hopen : openMerge s.db caller projectID targetBranch sourceBranch opts target =
        .ok land) :
      Step store s (.openLanding i) (s.assign i (some (.landOpened caller opts newID land)))
  | planLanding {s : Server H} {i : ℕ} {caller : Caller} {opts : MergeCommitOptions}
      {newID : ℕ → ID} {land : Landing} {db' : DB H} {w : MergeWrite H}
      (htask : s.tasks i = some (.landOpened caller opts newID land))
      (hplan : planMerge store s.db caller land opts newID = .ok (.write db' w)) :
      Step store s (.planLanding i)
        ((s.withDB (attributeProjectChunks db' land.projectID w.stored)).assign i
          (some (.landPlanned land w)))
  | writeLanding {s : Server H} {i : ℕ} {land : Landing} {w : MergeWrite H} {db' : DB H}
      (htask : s.tasks i = some (.landPlanned land w))
      (hwrite : applyPushAll s.db (w.commits.map PlannedCommit.request) = .ok db') :
      Step store s (.writeLanding i) ((s.withDB db').assign i none)
  | startForward {s : Server H} {i : ℕ} {caller : Caller} {projectID : ID}
      {targetBranch sourceBranch : Str} {allowProtected : Bool} {pinnedSource : Option ID}
      {target : Branch} (hfree : s.tasks i = none)
      (hread : readTarget s.db caller projectID targetBranch = .ok target) :
      Step store s
        (.startForward i caller projectID targetBranch sourceBranch allowProtected pinnedSource)
        (s.assign i (some (.forwardStarted caller projectID targetBranch sourceBranch
          allowProtected pinnedSource target)))
  | openForward {s : Server H} {i : ℕ} {caller : Caller} {projectID : ID}
      {targetBranch sourceBranch : Str} {allowProtected : Bool} {pinnedSource : Option ID}
      {target : Branch} {land : Landing}
      (htask : s.tasks i = some (.forwardStarted caller projectID targetBranch sourceBranch
        allowProtected pinnedSource target))
      (hopen : openFastForward s.db caller projectID targetBranch sourceBranch allowProtected
        pinnedSource target = .ok land) :
      Step store s (.openForward i)
        (s.assign i (some (.forwardOpened caller allowProtected land)))
  | planForward {s : Server H} {i : ℕ} {caller : Caller} {allowProtected : Bool}
      {land : Landing} {lockPlan : PushLockPlan} {actor : ID}
      (htask : s.tasks i = some (.forwardOpened caller allowProtected land))
      (hplan : planFastForward s.db caller land allowProtected = .ok (lockPlan, actor)) :
      Step store s (.planForward i) (s.assign i (some (.forwardPlanned land)))
  | writeForward {s : Server H} {i : ℕ} {land : Landing} {db' : DB H}
      (htask : s.tasks i = some (.forwardPlanned land))
      (hwrite : updateCommitIf s.db land.target.id land.targetHead land.sourceHead = .ok db') :
      Step store s (.writeForward i) ((s.withDB db').assign i none)
  | drop {s : Server H} {i : ℕ} : Step store s (.drop i) (s.assign i none)
  | other {s : Server H} {db' : DB H} (hother : Housekeeping s.db db') :
      Step store s .other (s.withDB db')

/-- Runs of the server whose steps meet `P`. -/
abbrev ServerRun (store : ContentStore H) (P : Server H → Event H → Prop) :
    Server H → Server H → Prop :=
  Run (Step store) P

/-- A server before the first request: no commits and nothing in hand. -/
structure Server.Fresh (s : Server H) : Prop where
  unborn : s.db.Unborn
  branch_ids : (s.db.branches.map Branch.id).Nodup
  no_heads : ∀ b ∈ s.db.branches, b.commitID = none
  idle : ∀ i, s.tasks i = none

/-! ## What a step does to the store -/

theorem applyPushAll_singleton (db : DB H) (req : ApplyPushRequest H) :
    applyPushAll db [req] = applyPush db req := by
  rw [applyPushAll]
  rcases applyPush db req with e | db'
  · rfl
  · rfl

variable {s : Server H}

/-- A step writes the planned commits of one request, or leaves trees and
commits alone. -/
theorem Step.writes {store : ContentStore H} {s' : Server H} {e : Event H} (h : Step store s e s')
    (hinv : s.db.StoreInv) (hcf : CollisionFree H) :
    DB.SameTrees s.db s'.db ∨ ∃ i t, s.tasks i = some t ∧
      applyPushAll s.db (t.commits.map PlannedCommit.request) = .ok s'.db := by
  cases h with
  | startPush _ _ _ => exact Or.inl ⟨rfl, rfl, rfl⟩
  | lockPush _ _ => exact Or.inl ⟨rfl, rfl, rfl⟩
  | planPush _ _ => exact Or.inl ⟨rfl, rfl, rfl⟩
  | @writePush i branch c db' htask hwrite =>
      refine Or.inr ⟨i, _, htask, ?_⟩
      rw [Task.commits, List.map_singleton, applyPushAll_singleton]
      exact hwrite
  | startLanding _ _ => exact Or.inl ⟨rfl, rfl, rfl⟩
  | openLanding _ _ => exact Or.inl ⟨rfl, rfl, rfl⟩
  | planLanding _ hplan =>
      obtain ⟨hdb, -⟩ := planMerge_ok hinv hcf hplan
      exact Or.inl ((hdb.trans (attributeProjectChunks_chunksOnly _ _ _)).toSameTrees)
  | @writeLanding i land w db' htask hwrite => exact Or.inr ⟨i, _, htask, hwrite⟩
  | startForward _ _ => exact Or.inl ⟨rfl, rfl, rfl⟩
  | openForward _ _ => exact Or.inl ⟨rfl, rfl, rfl⟩
  | planForward _ _ => exact Or.inl ⟨rfl, rfl, rfl⟩
  | writeForward _ hwrite => exact Or.inl (updateCommitIf_sameTrees hwrite)
  | drop => exact Or.inl ⟨rfl, rfl, rfl⟩
  | other hother => exact Or.inl hother.toSameTrees

/-! ## Requests in flight stay good -/

variable {store : ContentStore H}

variable {db db' : DB H}

theorem applyPushAll_landed {Q : DB H → Option (Commit H) → PlannedCommit H → Prop}
    (hcf : CollisionFree H) (hgrows : ∀ {db db' head c}, DB.Grows db db' →
      WritePlan db head c.files c.removed c.request → Q db head c → Q db' head c)
    {cs : List (PlannedCommit H)} (hinv : db.StoreInv)
    (hplan : ∀ c ∈ cs, ∃ head, WritePlan db head c.files c.removed c.request ∧ Q db head c)
    (h : applyPushAll db (cs.map PlannedCommit.request) = .ok db') :
    DB.Grows db db' ∧ ∀ x ∈ db'.commits, x ∈ db.commits ∨
      ∃ c ∈ cs, ∃ head mid mid', mid.StoreInv ∧ Q mid head c ∧
        Landed mid head c.files c.removed mid' x ∧ DB.Grows mid' db' := by
  induction cs generalizing db with
  | nil =>
      obtain rfl := Except.ok.inj h
      exact ⟨DB.Grows.refl hinv, fun x hx => Or.inl hx⟩
  | cons c cs ih =>
      rw [List.map_cons, applyPushAll] at h
      obtain ⟨mid, hmid, hrest⟩ := bind_eq_ok.mp h
      obtain ⟨head, hwp, hq⟩ := hplan c (by simp)
      obtain ⟨treeID, hland⟩ := hwp.landed hinv hcf hmid
      have hg := hland.toCommitted.grows hinv
      have hplan' : ∀ c' ∈ cs, ∃ head, WritePlan mid head c'.files c'.removed c'.request ∧
          Q mid head c' := by
        intro c' hc'
        obtain ⟨head', hwp', hq'⟩ := hplan c' (List.mem_cons_of_mem _ hc')
        exact ⟨head', hwp'.grows hg hcf, hgrows hg hwp' hq'⟩
      obtain ⟨hg', hcommits⟩ := ih hg.inv' hplan' hrest
      refine ⟨hg.trans hg', ?_⟩
      intro x hx
      rcases hcommits x hx with hold | ⟨c', hc', head', m, m', hrest⟩
      · rw [hland.commits_eq] at hold
        rcases List.mem_append.mp hold with hold | hnew
        · exact Or.inl hold
        · rw [List.mem_singleton.mp hnew]
          exact Or.inr ⟨c, by simp, head, db, mid, hinv, hq, hland, hg'⟩
      · exact Or.inr ⟨c', List.mem_cons_of_mem _ hc', head', m, m', hrest⟩

/-- The store is well formed and every commit in flight is planned on a stored
head, with `Q` about the two. -/
structure Server.Inv (Q : DB H → Option (Commit H) → PlannedCommit H → Prop)
    (s : Server H) : Prop where
  store : s.db.StoreInv
  opened : ∀ {i caller commitID req files branch},
    s.tasks i = some (.pushOpened caller commitID req files branch) →
      acceptPush caller req = .ok files
  locked : ∀ {i caller commitID req files branch userID head},
    s.tasks i = some (.pushLocked caller commitID req files branch userID head) →
      acceptPush caller req = .ok files ∧ ∀ c ∈ head, c ∈ s.db.commits
  planned : ∀ {i t}, s.tasks i = some t → ∀ c ∈ t.commits, ∃ head,
    WritePlan s.db head c.files c.removed c.request ∧ Q s.db head c

/-- `Q` holds of what is planned under the condition `P` and never stops
holding. -/
structure Tracks (store : ContentStore H) (P : Server H → Event H → Prop)
    (Q : DB H → Option (Commit H) → PlannedCommit H → Prop) : Prop where
  grows : ∀ {db db' head c}, DB.Grows db db' →
    WritePlan db head c.files c.removed c.request → Q db head c → Q db' head c
  push : ∀ {s i caller commitID req files branch userID head apply},
    s.db.StoreInv → P s (.planPush i) →
    s.tasks i = some (.pushLocked caller commitID req files branch userID head) →
    planApply s.db commitID req files branch userID head = .ok apply →
    Q s.db head ⟨files, req.removed, apply⟩
  land : ∀ {s i caller opts newID land targetHead targetTree ts w c},
    s.db.StoreInv → P s (.planLanding i) →
    s.tasks i = some (.landOpened caller opts newID land) →
    PlannedLanding s.db land opts.strategy targetHead targetTree ts w →
    c ∈ w.commits → Q s.db (some targetHead) c

theorem Server.Fresh.inv (h : s.Fresh) (Q : DB H → Option (Commit H) → PlannedCommit H → Prop) :
    s.Inv Q := by
  refine ⟨h.unborn.storeInv, ?_, ?_, ?_⟩
  · intro i caller commitID req files branch ht
    rw [h.idle] at ht
    simp at ht
  · intro i caller commitID req files branch userID head ht
    rw [h.idle] at ht
    simp at ht
  · intro i t ht
    rw [h.idle] at ht
    simp at ht

variable {caller : Caller} {commitID : ID} {req : PushRequest H} {head : Option (Commit H)}

theorem writePlan_of_planApply {userID : ID} {files : List (PushFile H)} {branch : Branch}
    {apply : ApplyPushRequest H} (haccept : acceptPush caller req = .ok files)
    (hhead : ∀ c ∈ head, c ∈ db.commits)
    (h : planApply db commitID req files branch userID head = .ok apply) :
    WritePlan db head files req.removed apply := by
  obtain ⟨parent2, root, -, -, hbuild, rfl⟩ := planApply_eq_ok.mp h
  refine ⟨acceptPush_requestOK haccept, hhead, ?_⟩
  obtain ⟨parentHashes, heq⟩ := toApplyRequest_eq commitID req branch head parent2 userID root
  refine ⟨root, parentHashes, hbuild, ?_⟩
  rw [heq]
  rfl

theorem Pushed.writePlan {mid : DB H} {userID : ID} {files : List (PushFile H)} {branch : Branch}
    {parent2 : Option (Commit H)} {lockPlan : PushLockPlan} {root : PushTreeNode H}
    (h : Pushed db caller commitID req db' files branch userID head parent2 lockPlan root mid) :
    WritePlan db head files req.removed
      (toApplyRequest commitID req branch head parent2 userID root) := by
  refine writePlan_of_planApply h.accepted ?_ (planApply_eq_ok.mpr ⟨parent2, root,
    h.planned.parent2_eq, h.planned.base_ok, h.planned.built, rfl⟩)
  intro c hc
  exact List.mem_of_find?_eq_some ((headCommitOf_ok h.planned.head_eq).2 c hc)

theorem PlannedLanding.writePlan {land : Landing} {strategy : MergeStrategy} {targetHead : Commit H}
    {targetTree : GoMap (Entry H)} {ts : List (GoMap (Entry H) × GoMap (Entry H))}
    {w : MergeWrite H} (h : PlannedLanding db land strategy targetHead targetTree ts w)
    (hinv : db.StoreInv) {c : PlannedCommit H} (hc : c ∈ w.commits) :
    WritePlan db (some targetHead) c.files c.removed c.request := by
  obtain ⟨ts', merged, hpre, -, hrep, hct⟩ := h.commits_ok c hc
  obtain ⟨root, parentHashes, hbuild, heq⟩ := hct.built
  have hmerged := hrep.entryOK_of_landing hinv h.tree_eq h.trees_eq hpre
  have hreq := requestOK_mergeDelta (mergeTree_entryOK hinv h.tree_eq) hmerged
  rw [hct.delta_eq] at hreq
  refine ⟨hreq, ?_, root, parentHashes, hbuild, heq⟩
  rintro _ ⟨⟩
  exact List.mem_of_find?_eq_some (commitByIDInProject_ok h.head_eq).1

theorem Server.Inv.step {P : Server H → Event H → Prop}
    {Q : DB H → Option (Commit H) → PlannedCommit H → Prop} (hcf : CollisionFree H)
    (htr : Tracks store P Q) {s' : Server H} {e : Event H} (hinv : s.Inv Q) (hcond : P s e)
    (h : Step store s e s') : s'.Inv Q ∧ DB.Grows s.db s'.db := by
  have hgrows : DB.Grows s.db s'.db := by
    rcases h.writes hinv.store hcf with hsame | ⟨i, t, ht, hwrite⟩
    · exact DB.Grows.of_sameTrees hinv.store hsame
    · exact (applyPushAll_landed hcf htr.grows hinv.store (hinv.planned ht) hwrite).1
  -- what was in flight before the step stays good in the grown store
  have hold : ∀ {i t}, s.tasks i = some t → ∀ c ∈ t.commits, ∃ head,
      WritePlan s'.db head c.files c.removed c.request ∧ Q s'.db head c := by
    intro i t ht c hc
    obtain ⟨head, hwp, hq⟩ := hinv.planned ht c hc
    exact ⟨head, hwp.grows hgrows hcf, htr.grows hgrows hwp hq⟩
  -- so only the task the step assigns has to be looked at
  have hkeep : ∀ (db : DB H) {i : ℕ} {t : Option (Task H)},
      s' = (s.withDB db).assign i t →
      (∀ caller commitID req files branch,
        t = some (.pushOpened caller commitID req files branch) →
          acceptPush caller req = .ok files) →
      (∀ caller commitID req files branch userID head,
        t = some (.pushLocked caller commitID req files branch userID head) →
          acceptPush caller req = .ok files ∧ ∀ c ∈ head, c ∈ s'.db.commits) →
      (∀ t', t = some t' → ∀ c ∈ t'.commits, ∃ head,
        WritePlan s'.db head c.files c.removed c.request ∧ Q s'.db head c) → s'.Inv Q := by
    intro db i t heq hopened hlocked hplanned
    refine ⟨hgrows.inv', ?_, ?_, ?_⟩
    · intro j caller commitID req files branch htask
      rw [heq] at htask
      rcases Server.assign_tasks htask with hnew | hold'
      · exact hopened _ _ _ _ _ hnew
      · exact hinv.opened hold'
    · intro j caller commitID req files branch userID head htask
      rw [heq] at htask
      rcases Server.assign_tasks htask with hnew | hold'
      · exact hlocked _ _ _ _ _ _ _ hnew
      · obtain ⟨haccept, hhead⟩ := hinv.locked hold'
        exact ⟨haccept, fun c hc => hgrows.commits.subset (hhead c hc)⟩
    · intro j t' htask
      rw [heq] at htask
      rcases Server.assign_tasks htask with hnew | hold'
      · exact hplanned t' hnew
      · exact hold hold'
  -- most steps leave nothing in hand that is to be written
  have hplain : ∀ (db : DB H) {i : ℕ} {t : Option (Task H)},
      s' = (s.withDB db).assign i t → (∀ t', t = some t' → t'.commits = []) →
      (∀ caller commitID req files branch,
        t ≠ some (.pushOpened caller commitID req files branch)) →
      (∀ caller commitID req files branch userID head,
        t ≠ some (.pushLocked caller commitID req files branch userID head)) → s'.Inv Q := by
    intro db i t heq hnil hopened hlocked
    refine hkeep db heq ?_ ?_ ?_
    · intro caller commitID req files branch ht
      exact absurd ht (hopened _ _ _ _ _)
    · intro caller commitID req files branch userID head ht
      exact absurd ht (hlocked _ _ _ _ _ _ _)
    · intro t' ht c hc
      rw [hnil t' ht] at hc
      simp at hc
  refine ⟨?_, hgrows⟩
  cases h with
  | startPush _ haccept _ =>
      refine hkeep s.db rfl ?_ (by simp) (by simp [Task.commits])
      rintro _ _ _ _ _ ⟨⟩
      exact haccept
  | lockPush htask hlock =>
      refine hkeep s.db rfl (by simp) ?_ (by simp [Task.commits])
      rintro _ _ _ _ _ _ _ ⟨⟩
      refine ⟨hinv.opened htask, ?_⟩
      intro c hc
      exact List.mem_of_find?_eq_some
        ((headCommitOf_ok (lockPush_eq_ok.mp hlock).head_eq).2 c hc)
  | planPush htask hplan =>
      refine hkeep s.db rfl (by simp) (by simp) ?_
      rintro _ ⟨⟩ c hc
      rw [Task.commits, List.mem_singleton] at hc
      subst hc
      obtain ⟨haccept, hhead⟩ := hinv.locked htask
      exact ⟨_, writePlan_of_planApply haccept hhead hplan,
        htr.push (s := s) hinv.store hcond htask hplan⟩
  | writePush _ _ => exact hplain _ rfl (by simp) (by simp) (by simp)
  | startLanding _ _ => exact hplain s.db rfl (by simp [Task.commits]) (by simp) (by simp)
  | openLanding _ _ => exact hplain s.db rfl (by simp [Task.commits]) (by simp) (by simp)
  | planLanding htask hplan =>
      refine hkeep _ rfl (by simp) (by simp) ?_
      rintro _ ⟨⟩ c hc
      obtain ⟨hdb, targetHead, targetTree, ts, hland⟩ := planMerge_ok hinv.store hcf hplan
      have hwp := hland.writePlan hinv.store hc
      refine ⟨some targetHead, hwp.grows hgrows hcf, htr.grows hgrows hwp ?_⟩
      exact htr.land hinv.store hcond htask hland hc
  | writeLanding _ _ => exact hplain _ rfl (by simp) (by simp) (by simp)
  | startForward _ _ => exact hplain s.db rfl (by simp [Task.commits]) (by simp) (by simp)
  | openForward _ _ => exact hplain s.db rfl (by simp [Task.commits]) (by simp) (by simp)
  | planForward _ _ => exact hplain s.db rfl (by simp [Task.commits]) (by simp) (by simp)
  | writeForward _ _ => exact hplain _ rfl (by simp) (by simp) (by simp)
  | drop => exact hplain s.db rfl (by simp) (by simp) (by simp)
  | other _ =>
      refine ⟨hgrows.inv', ?_, ?_, ?_⟩
      · intro i caller commitID req files branch htask
        exact hinv.opened htask
      · intro i caller commitID req files branch userID head htask
        obtain ⟨haccept, hhead⟩ := hinv.locked htask
        exact ⟨haccept, fun c hc => hgrows.commits.subset (hhead c hc)⟩
      · intro i t htask
        exact hold htask

theorem ServerRun.storeInv (hcf : CollisionFree H) {s' : Server H} (hfresh : s.Fresh)
    (hrun : ServerRun store (fun _ _ => True) s s') : s'.db.StoreInv := by
  have htracks : Tracks store (fun _ _ => True) fun _ _ _ => True :=
    ⟨fun _ _ _ => trivial, fun _ _ _ _ => trivial, fun _ _ _ _ _ => trivial⟩
  have hinv : s'.Inv fun _ _ _ => True :=
    hrun.invariant (hfresh.inv _) fun s e s' hs hcond hstep => (hs.step hcf htracks hcond hstep).1
  exact hinv.store

theorem Pushed.serverRun {P : Server H → Event H → Prop} {i : ℕ} {mid : DB H} {userID : ID}
    {files : List (PushFile H)} {branch : Branch} {parent2 : Option (Commit H)}
    {lockPlan : PushLockPlan} {root : PushTreeNode H} (hfree : s.tasks i = none)
    (h : Pushed s.db caller commitID req db' files branch userID head parent2 lockPlan root mid)
    (hstart : P s (.startPush i caller commitID req))
    (hlock : ∀ t, P (s.assign i (some t)) (.lockPush i))
    (hplan : P (s.assign i (some (.pushLocked caller commitID req files branch userID head)))
      (.planPush i)) (hwrite : ∀ c, P (s.assign i (some (.pushPlanned branch c))) (.writePush i)) :
    ServerRun store P s ((s.withDB mid).assign i none) := by
  have hlocked : ServerRun store P s
      (s.assign i (some (.pushLocked caller commitID req files branch userID head))) := by
    simpa using ((Run.refl s).tail hstart
      (Step.startPush hfree h.accepted h.opened)).tail (hlock _)
      (Step.lockPush (Server.assign_self s i _) (lockPush_eq_ok.mpr h.planned.toGatePassed))
  have hplanned : ServerRun store P s (s.assign i (some (.pushPlanned branch
      ⟨files, req.removed,
        toApplyRequest commitID req branch head parent2 userID root⟩))) := by
    simpa using hlocked.tail hplan (Step.planPush (Server.assign_self s i _)
      (planApply_eq_ok.mpr ⟨parent2, root, h.planned.parent2_eq, h.planned.base_ok,
        h.planned.built, rfl⟩))
  simpa using hplanned.tail (hwrite _) (Step.writePush (Server.assign_self s i _) h.applied)

theorem push_serverRun (h : push db caller commitID req = .ok db')
    (hbranches : (db'.branches.map Branch.id).Nodup)
    (hheads : ∀ b ∈ db'.branches, ∀ c ∈ b.commitID, c ∈ db'.commits.map Commit.id) :
    ServerRun store (fun _ _ => True) ⟨db, fun _ => none⟩ ⟨db', fun _ => none⟩ := by
  obtain ⟨files, branch, userID, head, parent2, lockPlan, root, mid, hpushed⟩ := push_ok h
  have hrun : ServerRun store (fun _ _ => True) ⟨db, fun _ => none⟩
      ((Server.withDB ⟨db, fun _ => none⟩ mid).assign 0 none) :=
    hpushed.serverRun rfl trivial (fun _ => trivial) trivial fun _ => trivial
  have hidle : (Server.withDB ⟨db, fun _ => none⟩ mid).assign 0 none = ⟨mid, fun _ => none⟩ := by
    rw [Server.assign, Server.withDB, Function.update_eq_self]
  rw [hidle] at hrun
  -- the locks of the push are released afterwards
  have hkept : Housekeeping mid db' := by
    obtain rfl := hpushed.result_eq
    exact ⟨releaseLanded_sameTrees _ _ _ _ _, hbranches, fun b hb => ⟨b, hb, rfl, rfl, id⟩,
      hheads⟩
  exact hrun.tail (e := .other) trivial (.other hkept)

end Steps

/-! ## A small server -/

def noContent : ContentStore IdealHash where
  get _ := .error (errNotFound "record not found" [])
  put _ := .ok ()
  decode _ data := .ok data
  encodeBytes _ _ := .ok ([], [])
  mergeText _ _ theirs := (theirs, false)

def demoServer : Server IdealHash := ⟨demoStore, fun _ => none⟩

theorem demoServer_fresh : demoServer.Fresh :=
  ⟨⟨rfl, rfl, rfl⟩, by decide, by decide, fun _ => rfl⟩

end Nipa
