import Nipa.Ledger.Confirmations
import Nipa.Ledger.History
import Nipa.Merge.MergedChunks
import Nipa.Server.System

/-!
# Attribution and history

Confirmations, pushes, landings and recounts are taken one after the other.  A push may
refer to what the project is linked to, while a project is charged for what is
attributed to it; a recount rebuilds only the second.  As long as no push refers to a
chunk that a recount took out of the attribution, everything in the history of a project
is attributed to it.
-/

namespace Nipa

open Support

/-! ## Landings under a ledger -/

section Landing

variable {H : Type} [HashScheme H] [DecidableEq H]

/-- A landing attributes the chunks it stored before it writes its commits. -/
def landWithLedger (content : ContentStore H) (defaultQuota : ℤ) (s : LedgerState H)
    (caller : Caller) (projectID : ID) (targetBranch sourceBranch : Str)
    (opts : MergeCommitOptions) (newID : ℕ → ID) : Except LedgerError (LedgerState H) := do
  let target ← (readTarget s.db caller projectID targetBranch).mapError .domain
  let land ← (openMerge s.db caller projectID targetBranch sourceBranch opts target).mapError
    .domain
  match ← (planMerge content s.db caller land opts newID).mapError .domain with
  | .fastForward => do
      let db ← (fastForward s.db caller projectID targetBranch sourceBranch true
        opts.sourceCommitID).mapError .domain
      return { s with db := db }
  | .nothing => return s
  | .write db w => do
      let db := Nipa.attributeProjectChunks db projectID w.stored
      let ledger ← s.ledger.attributeProjectChunks defaultQuota db.chunks projectID w.stored
      let db ← (applyPushAll db (w.commits.map PlannedCommit.request)).mapError .domain
      return { s with db := db, ledger := ledger }

end Landing

/-! ## Runs -/

section Runs

variable {H : Type}

/-- The server together with the attributions that were lost. -/
structure Audit (H : Type) where
  state : LedgerState H
  lost : ID → H → Bool

/-- A loss is remembered until the chunk is attributed again. -/
def Audit.next [DecidableEq H] (a : Audit H) (s : LedgerState H) : Audit H where
  state := s
  lost p x := (a.lost p x || a.state.ledger.isAttributed p x) && !s.ledger.isAttributed p x

inductive LedgerEvent (H : Type) where
  | confirm (req : ConfirmRequest H) (out : Outages H)
  | push (caller : Caller) (commitID : ID) (req : PushRequest H)
  | land (caller : Caller) (projectID : ID) (targetBranch sourceBranch : Str)
      (opts : MergeCommitOptions) (newID : ℕ → ID)
  | recount (orgID : ID)
  | store
  | branches

/-- Branches and locks were changed; every branch has a commit of its project as head. -/
structure BranchChange (db db' : DB H) : Prop extends DB.SameTrees db db' where
  chunks_eq : db'.chunks = db.chunks
  uploads_eq : db'.projectChunkUploads = db.projectChunkUploads
  branch_ids : (db'.branches.map Branch.id).Nodup
  heads : ∀ b ∈ db'.branches, ∀ id ∈ b.commitID,
    ∃ c ∈ db'.commits, c.id = id ∧ c.projectID = b.projectID

variable [HashScheme H] [DecidableEq H]

inductive LedgerStep (σ : Signer) (defaultQuota : ℤ) :
    LedgerState H → LedgerEvent H → LedgerState H → Prop where
  | confirm {s s' : LedgerState H} {req : ConfirmRequest H} {out : Outages H}
      {res : List H × ℕ} (horg : s.ledger.projectOrgID req.project.id = some req.orgID)
      (h : confirmWithLedger σ defaultQuota out s req = (s', .ok res)) :
      LedgerStep σ defaultQuota s (.confirm req out) s'
  | push {s : LedgerState H} {caller : Caller} {commitID : ID} {req : PushRequest H} {db : DB H}
      (h : push s.db caller commitID req = .ok db) :
      LedgerStep σ defaultQuota s (.push caller commitID req) { s with db := db }
  | land {s s' : LedgerState H} {content : ContentStore H} {caller : Caller} {projectID : ID}
      {targetBranch sourceBranch : Str} {opts : MergeCommitOptions} {newID : ℕ → ID}
      (hsize : content.MeasuresChunks)
      (h : landWithLedger content defaultQuota s caller projectID targetBranch sourceBranch opts
        newID = .ok s') :
      LedgerStep σ defaultQuota s (.land caller projectID targetBranch sourceBranch opts newID) s'
  | recount {s : LedgerState H} {orgID : ID} {ledger : LedgerTables H}
      (h : LedgerTables.recountOrg s.db s.ledger orgID = .ok ledger) :
      LedgerStep σ defaultQuota s (.recount orgID) { s with ledger := ledger }
  | store {s : LedgerState H} {store : ChunkStore H} :
      LedgerStep σ defaultQuota s .store { s with store := store }
  | branches {s : LedgerState H} {db : DB H} (h : BranchChange s.db db) :
      LedgerStep σ defaultQuota s .branches { s with db := db }

/-- A step of the server, with the losses it causes. -/
inductive AuditStep (σ : Signer) (defaultQuota : ℤ) :
    Audit H → LedgerEvent H → Audit H → Prop where
  | step {a : Audit H} {e : LedgerEvent H} {s : LedgerState H}
      (h : LedgerStep σ defaultQuota a.state e s) : AuditStep σ defaultQuota a e (a.next s)

/-- A push refers to no chunk whose attribution to its project was lost. -/
def PushesKept (a : Audit H) : LedgerEvent H → Prop
  | .push _ _ req => ∀ f ∈ req.files, ∀ x ∈ f.chunkHashes, a.lost req.projectID x = false
  | _ => True

/-- A server with a ledger before the first request. -/
structure LedgerState.Fresh (s : LedgerState H) : Prop where
  unborn : s.db.Unborn
  no_chunks : s.db.chunks = []
  no_links : s.db.projectChunkUploads = []
  branch_ids : (s.db.branches.map Branch.id).Nodup
  no_heads : ∀ b ∈ s.db.branches, b.commitID = none
  unattributed : s.ledger.projectChunks = []
  unused : ∀ p, s.ledger.projectUsage p = none

/-- The chunk is attributed to the project with its size, and the usage of the project
counts all that is attributed to it. -/
def LedgerTables.Charged (t : LedgerTables H) (p : ID) (ch : Chunk H) : Prop :=
  (⟨p, ch.hash, ch.sizeBytes⟩ : ProjectChunk H) ∈ t.projectChunks ∧
    (t.projectUsage p).getD 0 = t.chunkBytes p

/-- Every chunk of every file of every commit is charged to the commit's project. -/
def CoversHistory (s : LedgerState H) : Prop :=
  ∀ c ∈ s.db.commits, ∀ row ∈ s.db.treeNodes, row.id = c.treeID →
    ∀ segs f, s.db.storeTree.find row.hash segs = some f →
      ∀ ch ∈ f.chunks, s.ledger.Charged c.projectID ch

end Runs

/-! ## The tables -/

section Tables

variable {H : Type} [HashScheme H] [DecidableEq H] {db db' : DB H}

/-- Every chunk in the history of a project is one of those in `A`. -/
structure DB.Covers (db : DB H) (A : ID → H → Prop) : Prop where
  store : db.StoreInv
  closed : ∀ p, db.HistoryClosed p
  rows : db.ChunkRows
  files : ∀ f ∈ db.files, ∀ ch ∈ f.file.chunks, ch ∈ db.chunks
  history : ∀ p x, db.HistoryChunk p x → A p x
  branch_ids : (db.branches.map Branch.id).Nodup
  heads : ∀ b ∈ db.branches, ∀ id ∈ b.commitID,
    ∃ c ∈ db.commits, c.id = id ∧ c.projectID = b.projectID

variable {A : ID → H → Prop}

theorem DB.Covers.mono {A' : ID → H → Prop} (h : db.Covers A)
    (hA : ∀ p x, db.HistoryChunk p x → A p x → A' p x) : db.Covers A' :=
  { h with history := fun p x hx => hA p x hx (h.history p x hx) }

omit [HashScheme H] [DecidableEq H] in
theorem DB.SameTrees.historyChunk (h : DB.SameTrees db db') {p : ID} {x : H}
    (hx : db'.HistoryChunk p x) : db.HistoryChunk p x := by
  obtain ⟨id, hbelow, f, hf, hmem⟩ := hx
  refine ⟨id, hbelow.mono (by simp [h.treeNodes_eq]) (by simp [h.commits_eq]), f, ?_, hmem⟩
  rwa [DB.ownFiles, ← h.files_eq]

omit [DecidableEq H] in
theorem DB.SameTrees.historyClosed (h : DB.SameTrees db db') {p : ID} (hc : db.HistoryClosed p) :
    db'.HistoryClosed p := by
  intro t ht hbelow
  rw [h.treeNodes_eq] at ht
  have hback : db.Below p t.id :=
    hbelow.mono (by simp [h.treeNodes_eq]) (by simp [h.commits_eq])
  refine (hc t ht hback).imp_right ?_
  rintro ⟨t', ht', hbelow', hhash, hcontent⟩
  refine ⟨t', h.treeNodes_eq ▸ ht',
    hbelow'.mono (by simp [h.treeNodes_eq]) (by simp [h.commits_eq]), hhash, ?_⟩
  rwa [DB.hasContent, DB.hasFiles, DB.hasChildren, h.files_eq, h.treeNodes_eq]

theorem DB.Covers.of_sameTrees (h : db.Covers A) (hsame : DB.SameTrees db db')
    (hrows : db'.ChunkRows) (hmono : ∀ c ∈ db.chunks, c ∈ db'.chunks)
    (hids : (db'.branches.map Branch.id).Nodup) (hheads : ∀ b ∈ db'.branches, ∀ id ∈ b.commitID,
      ∃ c ∈ db'.commits, c.id = id ∧ c.projectID = b.projectID) : db'.Covers A where
  store := (DB.Grows.of_sameTrees h.store hsame).inv'
  closed p := hsame.historyClosed (h.closed p)
  rows := hrows
  files f hf ch hch := hmono ch (h.files f (hsame.files_eq ▸ hf) ch hch)
  history p x hx := h.history p x (hsame.historyChunk hx)
  branch_ids := hids
  heads := hheads

theorem DB.Covers.of_stores (h : db.Covers A) (hstores : StoresChunks db db') : db'.Covers A := by
  refine h.of_sameTrees hstores.toSameTrees (hstores.rows_ok h.rows) hstores.rows_mono ?_ ?_
  · rw [hstores.branches_eq]
    exact h.branch_ids
  · rw [hstores.branches_eq, hstores.commits_eq]
    exact h.heads

theorem DB.Covers.read (h : db.Covers A) (hcf : CollisionFree H) {c : Commit H}
    (hc : c ∈ db.commits) {row : TreeRow H} (hr : row ∈ db.treeNodes) (hid : row.id = c.treeID)
    {segs : List Str} {f : File H} (hf : db.storeTree.find row.hash segs = some f) {x : H}
    (hx : x ∈ f.chunks.map Chunk.hash) : db.HistoryChunk c.projectID x :=
  (h.closed c.projectID).find h.store.toStoreShape hcf (DB.InHistory.of_commit hc hr hid) hf hx

theorem DB.Covers.apply (h : db.Covers A) (hcf : CollisionFree H) {head : Option (Commit H)}
    {files : List (PushFile H)} {removed : List Str} {req : ApplyPushRequest H}
    (hplan : WritePlan db head files removed req) (hhead : ∀ c ∈ head, c.projectID = req.projectID)
    (hbranch : ∀ b ∈ db.branches, b.id = req.branchID → b.projectID = req.projectID)
    (hchunks : ∀ f ∈ files, ∀ x ∈ f.chunkHashes,
      (req.projectID, x) ∈ db.projectChunkUploads → A req.projectID x)
    (happly : applyPush db req = .ok db') :
    db'.Covers A ∧ db'.chunks = db.chunks ∧ db'.projectChunkUploads = db.projectChunkUploads := by
  obtain ⟨hclosed, hhistory, hfiles⟩ := hplan.history h.store hcf h.closed hhead happly
  obtain ⟨treeID, hland⟩ := hplan.landed h.store hcf happly
  have hbranches := applyPush_branches happly
  have hsame : db'.chunks = db.chunks ∧ db'.projectChunkUploads = db.projectChunkUploads := by
    rw [applyPush] at happly
    simp only [bind_eq_ok, pure_eq_ok] at happly
    obtain ⟨_, _, _, _, _, _, _, _, _, _, rfl⟩ := happly
    exact ⟨rfl, rfl⟩
  refine ⟨⟨hland.inv, hclosed, ?_, ?_, ?_, ?_, ?_⟩, hsame⟩
  · exact ⟨by rw [hsame.1]; exact h.rows.hashes_nodup, by rw [hsame.1]; exact h.rows.size_nonneg⟩
  · intro f hf ch hch
    rw [hsame.1]
    rcases hfiles f hf with hold | hnew
    · exact h.files f hold ch hch
    · exact hnew ch hch
  · intro p x hx
    rcases hhistory p x hx with hold | ⟨rfl, f, hf, hxf, hlinked⟩
    · exact h.history p x hold
    · exact hchunks f hf x hxf hlinked
  · rw [hbranches, branchUpdateCommit, List.map_map]
    have hids : Branch.id ∘ (fun b : Branch => if b.id = req.branchID ∧ b.deleted = false then
        { b with commitID := some req.commitID } else b) = Branch.id := by
      funext b
      rw [Function.comp_apply]
      split <;> rfl
    rw [hids]
    exact h.branch_ids
  · intro b hb id hid
    rw [hbranches] at hb
    obtain ⟨b₀, hb₀, rfl⟩ := List.mem_map.mp hb
    rw [hland.commits_eq]
    split at hid
    next hmoved =>
      refine ⟨_, List.mem_append_right _ (List.mem_singleton_self _), Option.some.inj hid, ?_⟩
      rw [if_pos hmoved]
      exact (hbranch b₀ hb₀ hmoved.1).symm
    next hkept =>
      obtain ⟨c, hc, hcid, hproject⟩ := h.heads b₀ hb₀ id hid
      refine ⟨c, List.mem_append_left _ hc, hcid, ?_⟩
      rw [if_neg hkept]
      exact hproject

end Tables

/-! ## Confirmations -/

section Confirmations

variable {H : Type} [HashScheme H] [DecidableEq H] {σ : Signer} {defaultQuota : ℤ}

omit [HashScheme H] in
theorem insertChunkIfNotExists_stores (db : DB H) (h : H) (size : ℕ) :
    StoresChunks db (insertChunkIfNotExists db h size) ∧
      ∃ row ∈ (insertChunkIfNotExists db h size).chunks, row.hash = h := by
  rw [insertChunkIfNotExists]
  split
  next hold => exact ⟨StoresChunks.refl db, hold⟩
  next hnew =>
    exact ⟨storesChunks_concat hnew (by simp), ⟨h, size⟩, by simp, rfl⟩

/-- What is to be linked is to be attributed, and has a row. -/
structure Confirming.Sound (acc : Confirming H) : Prop where
  toLink : ∀ x ∈ acc.toLink, x ∈ acc.attributed.map Chunk.hash
  rows : ∀ c ∈ acc.attributed, ∃ row ∈ acc.db.chunks, row.hash = c.hash

theorem recordLoop_sound {fails : H → Option Str} {req : ConfirmRequest H} {linked : H → Bool}
    {hs : List H} {acc acc' : Confirming H} {res : Except DomainError Unit} (hacc : acc.Sound)
    (h : recordLoop σ fails req linked hs acc = (acc', res)) :
    StoresChunks acc.db acc'.db ∧ acc'.Sound := by
  induction hs generalizing acc with
  | nil =>
      obtain ⟨rfl, -⟩ := Prod.mk.inj h
      exact ⟨StoresChunks.refl _, hacc⟩
  | cons x hs ih =>
      rw [recordLoop] at h
      split at h
      · obtain ⟨rfl, -⟩ := Prod.mk.inj h
        exact ⟨StoresChunks.refl _, hacc.toLink, hacc.rows⟩
      next store' _ _ _ =>
        have hskip : Confirming.Sound
            { acc with store := store', missing := acc.missing ++ [x] } :=
          ⟨hacc.toLink, hacc.rows⟩
        obtain ⟨hrest, hsound⟩ := ih hskip h
        exact ⟨hrest, hsound⟩
      next store' size link _ =>
        split at h
        · obtain ⟨rfl, -⟩ := Prod.mk.inj h
          exact ⟨StoresChunks.refl _, hacc.toLink, hacc.rows⟩
        · obtain ⟨hstores, hrow⟩ := insertChunkIfNotExists_stores acc.db x size
          have hnext : ∀ y, y ∈ (if link = true then acc.toLink ++ [x] else acc.toLink) →
              y ∈ (acc.attributed ++ [(⟨x, size⟩ : Chunk H)]).map Chunk.hash := by
            intro y hy
            rw [List.map_append, List.mem_append]
            split at hy
            · rcases List.mem_append.mp hy with hy | hy
              · exact Or.inl (hacc.toLink y hy)
              · exact Or.inr (by simpa using hy)
            · exact Or.inl (hacc.toLink y hy)
          have hrows : ∀ c ∈ acc.attributed ++ [(⟨x, size⟩ : Chunk H)],
              ∃ row ∈ (insertChunkIfNotExists acc.db x size).chunks, row.hash = c.hash := by
            intro c hc
            rcases List.mem_append.mp hc with hc | hc
            · obtain ⟨row, hrow, hhash⟩ := hacc.rows c hc
              exact ⟨row, hstores.rows_mono row hrow, hhash⟩
            · rw [List.mem_singleton.mp hc]
              exact hrow
          have hsound : Confirming.Sound
              { acc with
                db := insertChunkIfNotExists acc.db x size
                store := store'
                toLink := if link = true then acc.toLink ++ [x] else acc.toLink
                attributed := acc.attributed ++ [⟨x, size⟩]
                confirmedBytes := acc.confirmedBytes + size } := ⟨hnext, hrows⟩
          obtain ⟨hrest, hsound⟩ := ih hsound h
          exact ⟨hstores.trans hrest, hsound⟩

/-- Chunks were stored and linked, and whatever was linked was attributed. -/
structure Attributes (s s' : LedgerState H) : Prop where
  covers : ∀ A, s.db.Covers A → s'.db.Covers A
  rows_mono : ∀ c ∈ s.db.chunks, c ∈ s'.db.chunks
  kept : ∀ p x, s.ledger.isAttributed p x = true → s'.ledger.isAttributed p x = true
  links : ∀ p x, (p, x) ∈ s'.db.projectChunkUploads →
    (p, x) ∈ s.db.projectChunkUploads ∨ s'.ledger.isAttributed p x = true
  counted : s.db.ChunkRows → s.ledger.Counted s.db.chunks → s'.ledger.Counted s'.db.chunks

theorem attributes_of_stores {s : LedgerState H} {mid : DB H} (hstores : StoresChunks s.db mid)
    {p : ID} {toLink : List H} {store : ChunkStore H} {ledger : LedgerTables H} {hashes : List H}
    (hrows : s.db.ChunkRows → (∀ q x, ledger.isAttributed q x = true ↔
      s.ledger.isAttributed q x = true ∨ q = p ∧ x ∈ hashes) ∧
      (s.ledger.Counted mid.chunks → ledger.Counted mid.chunks))
    (hlink : ∀ x ∈ toLink, x ∈ hashes) (hok : s.db.ChunkRows) :
    Attributes s ⟨linkProjectChunks mid p toLink, store, ledger⟩ := by
  obtain ⟨hattributed, hcounted⟩ := hrows hok
  refine ⟨fun A hA => ?_, hstores.rows_mono, fun q x hx => (hattributed q x).mpr (Or.inl hx), ?_,
    fun _ hc => hcounted (hc.mono hstores.rows_mono)⟩
  · have hmid := hA.of_stores hstores
    exact hmid.of_sameTrees ⟨rfl, rfl, rfl⟩ ⟨hmid.rows.hashes_nodup, hmid.rows.size_nonneg⟩
      (fun _ hc => hc) hmid.branch_ids hmid.heads
  · intro q x hx
    rcases mem_linkProjectChunks.mp hx with hold | ⟨y, hy, heq⟩
    · rw [hstores.uploads_eq] at hold
      exact Or.inl hold
    · obtain ⟨rfl, rfl⟩ := Prod.mk.inj heq
      exact Or.inr ((hattributed _ _).mpr (Or.inr ⟨rfl, hlink _ hy⟩))

theorem confirmWithLedger_attributes {s s' : LedgerState H} {req : ConfirmRequest H}
    {out : Outages H} {res : List H × ℕ} (hok : s.db.ChunkRows)
    (h : confirmWithLedger σ defaultQuota out s req = (s', .ok res)) : Attributes s s' := by
  rw [confirmWithLedger] at h
  split at h
  · cases (Prod.mk.inj h).2
  split at h
  · cases (Prod.mk.inj h).2
  next acc hloop =>
    obtain ⟨hstores, hsound⟩ := recordLoop_sound ⟨by simp, by simp⟩ hloop
    split at h
    · cases (Prod.mk.inj h).2
    · split at h
      next hnone =>
        obtain ⟨rfl, -⟩ := Prod.mk.inj h
        have hlink : ∀ x ∈ acc.toLink, x ∈ ([] : List H) := by
          intro x hx
          simpa [hnone] using hsound.toLink x hx
        exact attributes_of_stores hstores (fun _ => ⟨fun q x => by simp, id⟩) hlink hok
      · dsimp only at h
        split at h
        · cases (Prod.mk.inj h).2
        next ledger hledger =>
          obtain ⟨rfl, -⟩ := Prod.mk.inj h
          refine attributes_of_stores hstores (fun hrows => ?_) hsound.toLink hok
          rw [attributeConfirmed] at hledger
          split at hledger
          · cases hledger
          · obtain ⟨hattributed, hcounted, -⟩ :=
              LedgerTables.attributeChunks_ok (hstores.rows_ok hrows).size_nonneg hledger
            exact ⟨hattributed, hcounted⟩

end Confirmations

/-! ## What a step keeps -/

section Steps

variable {H : Type} [HashScheme H] [DecidableEq H] {σ : Signer} {defaultQuota : ℤ}

variable {db : DB H} {projectID : ID} {b : Branch}

omit [HashScheme H] [DecidableEq H] in
theorem getBranchByName_ok {name : Str} (h : db.getBranchByName projectID name = some b) :
    b ∈ db.branches ∧ b.projectID = projectID := by
  have hkey := List.find?_some h
  simp only [Bool.and_eq_true, decide_eq_true_eq] at hkey
  exact ⟨List.mem_of_find?_eq_some h, hkey.1.1⟩

omit [HashScheme H] [DecidableEq H] in
theorem branchByName_mem {name : Str} (h : branchByName db projectID name = .ok b) :
    b ∈ db.branches ∧ b.projectID = projectID := by
  rw [branchByName, orError_eq_ok] at h
  exact getBranchByName_ok h

variable {A : ID → H → Prop}

theorem DB.Covers.head_project (h : db.Covers A) (hb : b ∈ db.branches) {c : Commit H}
    (hc : c ∈ db.commits) (hid : b.commitID = some c.id) : c.projectID = b.projectID := by
  obtain ⟨c', hc', hcid, hproject⟩ := h.heads b hb c.id hid
  rw [← hproject, List.inj_on_of_nodup_map h.store.commit_ids hc' hc hcid]

theorem DB.Covers.branch_project (h : db.Covers A) (hb : b ∈ db.branches) :
    ∀ b' ∈ db.branches, b'.id = b.id → b'.projectID = b.projectID := by
  intro b' hb' hid
  rw [List.inj_on_of_nodup_map h.branch_ids hb' hb hid]

theorem DB.Covers.push {db' : DB H} (h : db.Covers A) (hcf : CollisionFree H) {caller : Caller}
    {commitID : ID} {req : PushRequest H} (hchunks : ∀ f ∈ req.files, ∀ x ∈ f.chunkHashes,
      (req.projectID, x) ∈ db.projectChunkUploads → A req.projectID x)
    (hpush : Nipa.push db caller commitID req = .ok db') :
    db'.Covers A ∧ db'.chunks = db.chunks ∧ db'.projectChunkUploads = db.projectChunkUploads := by
  obtain ⟨files, branch, userID, head, parent2, plan, root, mid, hp⟩ := push_ok hpush
  obtain ⟨hb, hproject⟩ := getBranchByName_ok (openBranch_ok hp.opened).1
  obtain ⟨parentHashes, heq⟩ := toApplyRequest_eq commitID req branch head parent2 userID root
  have hreq : (toApplyRequest commitID req branch head parent2 userID root).projectID =
      req.projectID ∧
      (toApplyRequest commitID req branch head parent2 userID root).branchID = branch.id := by
    rw [heq]
    exact ⟨rfl, rfl⟩
  obtain ⟨hid, hget⟩ := headCommitOf_ok hp.planned.head_eq
  obtain ⟨hfiles, -⟩ := acceptPush_ok hp.accepted
  obtain ⟨hcovers, hsame, hlinks⟩ := h.apply hcf hp.writePlan (fun c hc => by
      rw [hreq.1, ← hproject]
      refine h.head_project hb (List.mem_of_find?_eq_some (hget c hc)) ?_
      rw [hid, hc]
      rfl) (fun b' hb' hb'id => by
      rw [hreq.1, ← hproject]
      exact h.branch_project hb b' hb' (hb'id.trans hreq.2)) (fun f hf x hx hlinked => by
      rw [hreq.1] at hlinked ⊢
      rw [hfiles] at hf
      obtain ⟨g, hg, rfl⟩ := List.mem_map.mp hf
      rw [servedFile_chunkHashes] at hx
      exact hchunks g hg x hx hlinked) hp.applied
  rw [hp.result_eq]
  exact ⟨hcovers.of_sameTrees (releaseLanded_sameTrees _ _ _ _ _) ⟨hcovers.rows.hashes_nodup,
    hcovers.rows.size_nonneg⟩ (fun _ hc => hc) hcovers.branch_ids hcovers.heads, hsame, hlinks⟩

theorem DB.Covers.applyAll {db' : DB H} (h : db.Covers A) (hcf : CollisionFree H)
    {cs : List (PlannedCommit H)} {branchID : ID}
    (hplan : ∀ c ∈ cs, ∃ head : Commit H, head.projectID = projectID ∧
      WritePlan db (some head) c.files c.removed c.request)
    (hreq : ∀ c ∈ cs, c.request.projectID = projectID ∧ c.request.branchID = branchID ∧
      ∀ f ∈ c.files, ∀ x ∈ f.chunkHashes, A projectID x)
    (hbranch : ∀ b ∈ db.branches, b.id = branchID → b.projectID = projectID)
    (happly : applyPushAll db (cs.map PlannedCommit.request) = .ok db') :
    db'.Covers A ∧ db'.chunks = db.chunks ∧ db'.projectChunkUploads = db.projectChunkUploads := by
  induction cs generalizing db with
  | nil =>
      obtain rfl := Except.ok.inj happly
      exact ⟨h, rfl, rfl⟩
  | cons c cs ih =>
      rw [List.map_cons, applyPushAll] at happly
      obtain ⟨mid, hmid, hrest⟩ := bind_eq_ok.mp happly
      obtain ⟨head, hhead, hwp⟩ := hplan c List.mem_cons_self
      obtain ⟨hproject, hbranchID, hchunks⟩ := hreq c List.mem_cons_self
      obtain ⟨hcovers, hsame, hlinks⟩ := h.apply hcf hwp
        (by rintro _ ⟨⟩; rw [hproject]; exact hhead)
        (fun b hb hid => by rw [hproject]; exact hbranch b hb (hid.trans hbranchID))
        (fun f hf x hx _ => by rw [hproject]; exact hchunks f hf x hx) hmid
      have hgrows := (hwp.landed h.store hcf hmid).choose_spec.toCommitted.grows h.store
      obtain ⟨hcovers', hsame', hlinks'⟩ := ih hcovers
        (fun c' hc' => by
          obtain ⟨head', hhead', hwp'⟩ := hplan c' (List.mem_cons_of_mem _ hc')
          exact ⟨head', hhead', hwp'.grows hgrows hcf⟩)
        (fun c' hc' => hreq c' (List.mem_cons_of_mem _ hc'))
        (fun b hb hid => by
          rw [applyPush_branches hmid] at hb
          obtain ⟨b₀, hb₀, rfl⟩ := List.mem_map.mp hb
          split at hid
          next hmoved => rw [if_pos hmoved]; exact hbranch b₀ hb₀ hid
          next hkept => rw [if_neg hkept]; exact hbranch b₀ hb₀ hid) hrest
      exact ⟨hcovers', hsame'.trans hsame, hlinks'.trans hlinks⟩

theorem DB.Covers.fastForward {db' : DB H} (h : db.Covers A) {caller : Caller}
    {targetBranch sourceBranch : Str} {allowProtected : Bool} {pinnedSource : Option ID}
    (hforward : Nipa.fastForward db caller projectID targetBranch sourceBranch allowProtected
      pinnedSource = .ok db') :
    db'.Covers A ∧ db'.chunks = db.chunks ∧ db'.projectChunkUploads = db.projectChunkUploads := by
  rw [Nipa.fastForward] at hforward
  simp only [bind_eq_ok, pure_eq_ok] at hforward
  obtain ⟨target, hread, land, hopen, ⟨plan, actor⟩, -, mid, hupdate, rfl⟩ := hforward
  rw [readTarget] at hread
  obtain ⟨_, -, hread⟩ := bind_eq_ok.mp hread
  obtain ⟨htarget, htproject⟩ := branchByName_mem hread
  rw [openFastForward] at hopen
  simp only [bind_eq_ok, orError_eq_ok, pure_eq_ok] at hopen
  obtain ⟨source, hsource, _, -, _, -, sourceHead, hsh, targetHead, -, _, -, rfl⟩ := hopen
  obtain ⟨hsourcemem, hsproject⟩ := branchByName_mem hsource
  obtain ⟨c, hc, hcid, hcproject⟩ := h.heads source hsourcemem sourceHead hsh
  rw [updateCommitIf] at hupdate
  simp only [bind_eq_ok, pure_eq_ok] at hupdate
  obtain ⟨_, -, rfl⟩ := hupdate
  refine ⟨h.of_sameTrees ⟨rfl, rfl, rfl⟩ ⟨h.rows.hashes_nodup, h.rows.size_nonneg⟩
    (fun _ hc => hc) ?_ ?_, rfl, rfl⟩
  · have hids : Branch.id ∘ (fun b : Branch => if b.id = target.id ∧ b.deleted = false ∧
        b.commitID = some targetHead then { b with commitID := some sourceHead } else b) =
        Branch.id := by
      funext b
      rw [Function.comp_apply]
      split <;> rfl
    simp only [releaseLanded, List.map_map, hids]
    exact h.branch_ids
  · intro b hb id hid
    obtain ⟨b₀, hb₀, rfl⟩ := List.mem_map.mp hb
    split at hid
    next hmoved =>
      refine ⟨c, hc, hcid.trans (Option.some.inj hid), ?_⟩
      rw [if_pos hmoved, hcproject, hsproject]
      exact ((h.branch_project htarget b₀ hb₀ hmoved.1).trans htproject).symm
    next hkept =>
      obtain ⟨c', hc', hcid', hproject⟩ := h.heads b₀ hb₀ id hid
      exact ⟨c', hc', hcid', by rw [if_neg hkept]; exact hproject⟩

theorem DB.Covers.mergeTree (h : db.Covers A) (hcf : CollisionFree H) {commitID : ID}
    {m : GoMap (Entry H)} (htree : Nipa.mergeTree db projectID commitID = .ok m) {p : Str}
    {e : Entry H} (he : e ∈ m.lookup p) {x : H} (hx : x ∈ e.chunkHashes) :
    db.HistoryChunk projectID x := by
  obtain ⟨c, row, hc, hrow, hflat⟩ := mergeTree_ok h.store htree
  obtain ⟨hget, -, hproject⟩ := commitByIDInProject_ok hc
  rw [Option.mem_def, hflat.lookup_eq] at he
  obtain ⟨f, hf, rfl⟩ := Option.map_eq_some_iff.mp he
  obtain ⟨c', hc', hid⟩ := Option.bind_eq_some_iff.mp hrow
  obtain rfl := Option.some.inj hc'
  rw [← hproject]
  exact h.read hcf (List.mem_of_find?_eq_some hget) hflat.row_mem
    (by simpa using List.find?_some hid) hf hx

/-- The covered history and the counters after a step, and the links it made. -/
structure Progresses (s s' : LedgerState H) : Prop where
  covers : s'.db.Covers fun p x => s'.ledger.isAttributed p x = true
  counted : s'.ledger.Counted s'.db.chunks
  links : ∀ p x, (p, x) ∈ s'.db.projectChunkUploads →
    (p, x) ∈ s.db.projectChunkUploads ∨ s'.ledger.isAttributed p x = true

variable {s s' : LedgerState H}

theorem Attributes.progresses (h : Attributes s s')
    (hcovers : s.db.Covers fun p x => s.ledger.isAttributed p x = true)
    (hcounted : s.ledger.Counted s.db.chunks) : Progresses s s' :=
  ⟨(h.covers _ hcovers).mono fun p x _ hx => h.kept p x hx, h.counted hcovers.rows hcounted,
    h.links⟩

theorem progresses_of_covers (hcovers : db.Covers fun p x => s.ledger.isAttributed p x = true)
    (hcounted : s.ledger.Counted s.db.chunks) (hsame : db.chunks = s.db.chunks)
    (hlinks : db.projectChunkUploads = s.db.projectChunkUploads) :
    Progresses s { s with db := db } :=
  ⟨hcovers, by rw [hsame]; exact hcounted, fun p x hx => Or.inl (by rwa [← hlinks])⟩

theorem mapError_eq_ok {α : Type} {x : Except DomainError α} {a : α} :
    x.mapError LedgerError.domain = .ok a ↔ x = .ok a := by
  rcases x with e | b
  · simp [Except.mapError]
  · simp [Except.mapError]

theorem landWithLedger_progresses (hcf : CollisionFree H)
    (hcovers : s.db.Covers fun p x => s.ledger.isAttributed p x = true)
    (hcounted : s.ledger.Counted s.db.chunks) {content : ContentStore H}
    (hsize : content.MeasuresChunks) {caller : Caller} {targetBranch sourceBranch : Str}
    {opts : MergeCommitOptions} {newID : ℕ → ID}
    (h : landWithLedger content defaultQuota s caller projectID targetBranch sourceBranch opts
      newID = .ok s') : Progresses s s' := by
  rw [landWithLedger] at h
  simp only [bind_eq_ok, mapError_eq_ok] at h
  obtain ⟨target, hread, land, hopen, plan, hplan, h⟩ := h
  rcases plan with _ | _ | ⟨db₁, w⟩
  · obtain ⟨db, hforward, h⟩ := bind_eq_ok.mp h
    obtain rfl := pure_eq_ok.mp h
    obtain ⟨hcovers', hsame, hlinks⟩ := hcovers.fastForward (mapError_eq_ok.mp hforward)
    exact progresses_of_covers hcovers' hcounted hsame hlinks
  · obtain rfl := pure_eq_ok.mp h
    exact progresses_of_covers hcovers hcounted rfl rfl
  · dsimp only at h
    obtain ⟨ledger, hledger, h⟩ := bind_eq_ok.mp h
    obtain ⟨db, happly, h⟩ := bind_eq_ok.mp h
    rw [mapError_eq_ok] at happly
    obtain rfl := pure_eq_ok.mp h
    rw [openMerge] at hopen
    simp only [bind_eq_ok, orError_eq_ok, pure_eq_ok] at hopen
    obtain ⟨source, -, _, -, sourceHead, -, _, -, targetHead, -, _, -, rfl⟩ := hopen
    rw [readTarget] at hread
    obtain ⟨_, -, hread⟩ := bind_eq_ok.mp hread
    obtain ⟨htarget, htproject⟩ := branchByName_mem hread
    obtain ⟨hstores, hstored, hcommits⟩ := planMerge_chunks hsize
      (fun commitID m htree p e he x hx => hcovers.mergeTree hcf htree he hx) hplan
    obtain ⟨-, head, tree, ts, hland⟩ := planMerge_ok hcovers.store hcf hplan
    have hrows := (hstores.rows_ok hcovers.rows).size_nonneg
    obtain ⟨hattributed, hcount, -⟩ := LedgerTables.attributeProjectChunks_ok hrows hledger
    -- the stored chunks are linked and attributed before the commits are written
    have hmid : Attributes s
        ⟨Nipa.attributeProjectChunks db₁ projectID w.stored, s.store, ledger⟩ := by
      rw [attributeProjectChunks_eq]
      exact attributes_of_stores hstores (fun _ => ⟨hattributed, hcount⟩) (fun _ hx => hx)
        hcovers.rows
    have hprog := hmid.progresses hcovers hcounted
    have hsame : DB.SameTrees s.db (Nipa.attributeProjectChunks db₁ projectID w.stored) :=
      (hstores.toChunksOnly.trans (attributeProjectChunks_chunksOnly _ _ _)).toSameTrees
    have hgrows := DB.Grows.of_sameTrees hcovers.store hsame
    obtain ⟨hcovers', hchunks, hlinks⟩ := hprog.covers.applyAll hcf
      (fun c hc => ⟨head, (commitByIDInProject_ok hland.head_eq).2.2,
        (hland.writePlan hcovers.store hc).grows hgrows hcf⟩)
      (fun c hc => ⟨(hcommits c hc).1, (hcommits c hc).2.1, fun f hf x hx => by
        rcases (hcommits c hc).2.2 f hf x hx with hold | hnew
        · exact hmid.kept _ _ (hcovers.history _ _ hold)
        · exact (hattributed _ _).mpr (Or.inr ⟨rfl, hnew⟩)⟩)
      (fun b hb hid => by
        have hb' : b ∈ s.db.branches := hstores.branches_eq ▸ hb
        exact (hcovers.branch_project htarget b hb' hid).trans htproject) happly
    refine ⟨hcovers', by rw [hchunks]; exact hprog.counted, fun p x hx => hprog.links p x ?_⟩
    rwa [← hlinks]

omit [HashScheme H] in
@[simp] theorem Audit.next_state (a : Audit H) (s : LedgerState H) : (a.next s).state = s := rfl

variable {a : Audit H}

theorem AuditStep.after {e : LedgerEvent H} (h : LedgerStep σ defaultQuota s e s') :
    AuditStep σ defaultQuota (a.next s) e ((a.next s).next s') :=
  .step h

theorem recountOrg_progresses {orgID : ID} {ledger : LedgerTables H}
    (hcovers : s.db.Covers fun p x => s.ledger.isAttributed p x = true)
    (hcounted : s.ledger.Counted s.db.chunks)
    (h : LedgerTables.recountOrg s.db s.ledger orgID = .ok ledger) :
    Progresses s { s with ledger := ledger } := by
  obtain ⟨hkeep, hcount, -⟩ := LedgerTables.recountOrg_ok h
  refine ⟨hcovers.mono fun p x hx hold => hkeep p x ?_ hold, hcount hcounted,
    fun p x hx => Or.inl hx⟩
  obtain ⟨id, hbelow, f, hf, hmem⟩ := hx
  obtain ⟨ch, hch, rfl⟩ := List.mem_map.mp hmem
  have hrow := hcovers.files _ (DB.mem_ownFiles.mp hf) ch hch
  exact List.mem_map_of_mem (DB.mem_historyChunks.mpr ⟨hrow, id, hbelow, f, hf, hmem⟩)

/-- The history is attributed and counted, and what is linked is attributed or has lost
its attribution. -/
structure Audit.Covered (a : Audit H) : Prop where
  covers : a.state.db.Covers fun p x => a.state.ledger.isAttributed p x = true
  counted : a.state.ledger.Counted a.state.db.chunks
  links : ∀ p x, (p, x) ∈ a.state.db.projectChunkUploads →
    a.state.ledger.isAttributed p x = true ∨ a.lost p x = true

theorem Audit.Covered.next (h : a.Covered) (hs : Progresses a.state s) : (a.next s).Covered := by
  refine ⟨hs.covers, hs.counted, fun p x hx => ?_⟩
  by_cases hnow : s.ledger.isAttributed p x = true
  · exact Or.inl hnow
  · refine Or.inr ?_
    have hlink := (hs.links p x hx).resolve_right hnow
    simp only [Audit.next, Bool.and_eq_true, Bool.or_eq_true, Bool.not_eq_true']
    exact ⟨(h.links p x hlink).symm, Bool.eq_false_iff.mpr hnow⟩

theorem LedgerState.Fresh.covered (h : s.Fresh) :
    Audit.Covered ⟨s, fun _ _ => false⟩ where
  covers :=
    { store := h.unborn.storeInv
      closed := by
        intro p t ht
        simp [h.unborn.treeNodes_eq] at ht
      rows := ⟨by simp [h.no_chunks], by simp [h.no_chunks]⟩
      files := by simp [h.unborn.files_eq]
      history := by
        rintro p x ⟨id, -, f, hf, -⟩
        simp [DB.ownFiles, h.unborn.files_eq] at hf
      branch_ids := h.branch_ids
      heads := by
        intro b hb id hid
        rw [h.no_heads b hb] at hid
        cases hid }
  counted := ⟨by simp [h.unattributed], fun p => by
    simp [h.unused, LedgerTables.chunkBytes, h.unattributed]⟩
  links := by simp [h.no_links]

theorem AuditStep.covered {a' : Audit H} {e : LedgerEvent H} (hcf : CollisionFree H) (h : a.Covered)
    (hkept : PushesKept a e) (hstep : AuditStep σ defaultQuota a e a') : a'.Covered := by
  obtain ⟨hstep⟩ := hstep
  refine h.next ?_
  cases hstep with
  | confirm _ hconfirm =>
      exact (confirmWithLedger_attributes h.covers.rows hconfirm).progresses h.covers h.counted
  | push hpush =>
      obtain ⟨hcovers, hsame, hlinks⟩ := h.covers.push hcf (fun f hf x hx hlinked => by
        refine (h.links _ _ hlinked).resolve_right ?_
        rw [hkept f hf x hx]
        exact Bool.false_ne_true) hpush
      exact progresses_of_covers hcovers h.counted hsame hlinks
  | land hsize hland => exact landWithLedger_progresses hcf h.covers h.counted hsize hland
  | recount hrecount => exact recountOrg_progresses h.covers h.counted hrecount
  | store => exact ⟨h.covers, h.counted, fun p x hx => Or.inl hx⟩
  | branches hchange =>
      refine progresses_of_covers (h.covers.of_sameTrees hchange.toSameTrees ?_ ?_
        hchange.branch_ids hchange.heads) h.counted hchange.chunks_eq hchange.uploads_eq
      · exact ⟨by rw [hchange.chunks_eq]; exact h.covers.rows.hashes_nodup,
          by rw [hchange.chunks_eq]; exact h.covers.rows.size_nonneg⟩
      · rw [hchange.chunks_eq]
        exact fun _ hc => hc

theorem Audit.Covered.coversHistory (h : a.Covered) (hcf : CollisionFree H) :
    CoversHistory a.state := by
  intro c hc row hr hid segs f hf ch hch
  refine ⟨?_, h.counted.usage c.projectID⟩
  have hx := h.covers.history _ _ (h.covers.read hcf hc hr hid hf (List.mem_map_of_mem hch))
  obtain ⟨pc, hpc, hproject, hhash⟩ := LedgerTables.isAttributed_iff.mp hx
  obtain ⟨row', hrow', hfile⟩ := storeTree_find_file h.covers.store.toStoreShape hf
  -- one chunk has one row, so the sizes are the same
  have hsame := h.covers.rows.eq_of_hash (h.counted.rows pc hpc)
    (h.covers.files row' hrow' ch (hfile ▸ hch)) hhash
  rw [← hsame, ← hproject]
  exact hpc

/-- From a fresh server, in every run whose pushes refer to no chunk that has lost its
attribution, every chunk of every commit is charged to the commit's project. -/
theorem history_charged (hcf : CollisionFree H) {s : LedgerState H} (hfresh : s.Fresh)
    {a : Audit H}
    (hrun : Run (AuditStep σ defaultQuota) PushesKept ⟨s, fun _ _ => false⟩ a) :
    CoversHistory a.state := by
  have hcovered : a.Covered := hrun.invariant (I := Audit.Covered) hfresh.covered
    fun _ _ _ h hkept hstep => hstep.covered hcf h hkept
  exact hcovered.coversHistory hcf

end Steps

/-! ## A recount between a confirmation and a push -/

@[irreducible] def confirmedLedger : LedgerState IdealHash :=
  (confirmWithLedger plainSigner 0 noOutages sentLedger demoRequest).1

/-- The first commit of the project, with the confirmed chunk in it. -/
def chunkPush : PushRequest IdealHash :=
  { demoPush with
    files := [⟨"a.bin".toList, 0o644, 3, true, [], fileHash [demoHash], [demoHash]⟩]
    paths_fit := by decide }

@[irreducible] def committedDB : DB IdealHash :=
  (push confirmedLedger.db demoCaller 7 chunkPush).toOption.getD confirmedLedger.db

@[irreducible] def recountedTables (s : LedgerState IdealHash) : LedgerTables IdealHash :=
  (LedgerTables.recountOrg s.db s.ledger 1).toOption.getD s.ledger

theorem sentLedger_fresh : sentLedger.Fresh :=
  ⟨⟨rfl, rfl, rfl⟩, rfl, rfl, by decide, by decide, rfl, fun _ => rfl⟩

theorem confirm_ok : confirmWithLedger plainSigner 0 noOutages sentLedger demoRequest =
    (confirmedLedger, .ok ([], 3)) := by
  unfold confirmedLedger
  exact eq_of_snd (by decide +kernel)

theorem confirm_step : LedgerStep plainSigner 0 sentLedger (.confirm demoRequest noOutages)
    confirmedLedger :=
  .confirm rfl confirm_ok

theorem push_step (ledger : LedgerTables IdealHash) :
    LedgerStep plainSigner 0 { confirmedLedger with ledger := ledger }
      (.push demoCaller 7 chunkPush)
      { confirmedLedger with db := committedDB, ledger := ledger } := by
  have hok : push confirmedLedger.db demoCaller 7 chunkPush = .ok committedDB := by
    unfold committedDB
    exact eq_ok_of_toOption _ (by decide +kernel)
  exact .push hok

theorem recount_step (s : LedgerState IdealHash)
    (h : (LedgerTables.recountOrg s.db s.ledger 1).toOption.isSome = true) :
    LedgerStep plainSigner 0 s (.recount 1) { s with ledger := recountedTables s } := by
  unfold recountedTables
  exact .recount (eq_ok_of_toOption _ h)

theorem confirm_run {P : Audit IdealHash → LedgerEvent IdealHash → Prop}
    (hP : P ⟨sentLedger, fun _ _ => false⟩ (.confirm demoRequest noOutages)) :
    Run (AuditStep plainSigner 0) P ⟨sentLedger, fun _ _ => false⟩
      (Audit.next ⟨sentLedger, fun _ _ => false⟩ confirmedLedger) :=
  (Run.refl _).tail hP (.step confirm_step)

/-- A push is accepted for a chunk that a recount has dropped from the attribution. -/
theorem recount_uncovers_history : ¬ ∀ (σ : Signer) (defaultQuota : ℤ)
    (s : LedgerState IdealHash) (a : Audit IdealHash), s.Fresh →
    Run (AuditStep σ defaultQuota) (fun _ _ => True) ⟨s, fun _ _ => false⟩ a →
    CoversHistory a.state := by
  intro hall
  have hrecount := recount_step confirmedLedger (by decide +kernel)
  have hrun := ((confirm_run (P := fun _ _ => True) trivial).tail trivial
    (AuditStep.after hrecount)).tail trivial (AuditStep.after (push_step _))
  have hcovers := hall _ _ _ _ sentLedger_fresh hrun
  have hmissing : ∃ c ∈ committedDB.commits, ∃ row ∈ committedDB.treeNodes, row.id = c.treeID ∧
      ∃ f ∈ committedDB.storeTree.find row.hash ["a.bin".toList], ∃ ch ∈ f.chunks,
        (⟨c.projectID, ch.hash, ch.sizeBytes⟩ : ProjectChunk IdealHash) ∉
          (recountedTables confirmedLedger).projectChunks := by
    decide +kernel
  obtain ⟨c, hc, row, hr, hid, f, hf, ch, hch, hnot⟩ := hmissing
  exact hnot (hcovers c hc row hr hid _ f hf ch hch).1

/-- A recount after the push keeps what it found. -/
theorem history_charged_demo :
    CoversHistory { confirmedLedger with
      db := committedDB
      ledger := recountedTables { confirmedLedger with db := committedDB } } := by
  have hrecount := recount_step { confirmedLedger with db := committedDB } (by decide +kernel)
  have hkept : PushesKept (Audit.next ⟨sentLedger, fun _ _ => false⟩ confirmedLedger)
      (.push demoCaller 7 chunkPush) := by
    intro f hf x hx
    rfl
  have hlast : PushesKept ((Audit.next ⟨sentLedger, fun _ _ => false⟩ confirmedLedger).next
      { confirmedLedger with db := committedDB }) (.recount 1) := trivial
  have hrun := ((confirm_run (P := PushesKept) trivial).tail hkept
    (AuditStep.after (push_step confirmedLedger.ledger))).tail hlast (AuditStep.after hrecount)
  exact history_charged IdealHash.collisionFree sentLedger_fresh hrun

end Nipa
