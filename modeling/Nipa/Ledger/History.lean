import Nipa.Ledger.Recount
import Nipa.Server.WritePlan
import Nipa.Store.Rehash

/-!
# What the history of a project covers

Directories are shared by hash: a kept directory is a row without content of its own,
and is read from whatever row of the same hash holds content.  The rows below the
commits of one project nevertheless hold everything the commits of that project read
as, because a commit is built on a head of its own project and the rest of its tree is
written along with it.
-/

namespace Nipa

open Support TreeBuilder

namespace DB

section Closed

variable {H : Type} [DecidableEq H] [HashScheme H] {db : DB H} {p : ID}

/-- The hash of a directory below a commit of the project. -/
def InHistory (db : DB H) (p : ID) (h : H) : Prop :=
  ∃ t ∈ db.treeNodes, db.Below p t.id ∧ t.hash = h

/-- The content of every directory below a commit of the project is stored below one. -/
def HistoryClosed (db : DB H) (p : ID) : Prop :=
  ∀ t ∈ db.treeNodes, db.Below p t.id → t.hash = treeHash [] [] ∨
    ∃ t' ∈ db.treeNodes, db.Below p t'.id ∧ t'.hash = t.hash ∧ db.hasContent t'.id

theorem HistoryClosed.children (hc : db.HistoryClosed p) (hs : db.StoreShape)
    (hcf : CollisionFree H) {h : H} (hh : db.InHistory p h) {c : TreeRow H}
    (hmem : c ∈ db.childrenByHash h) : db.InHistory p c.hash := by
  obtain ⟨t, ht, hbelow, rfl⟩ := hh
  rcases hc t ht hbelow with hempty | ⟨t', ht', hbelow', hhash, hcontent⟩
  · rw [hempty, (hs.empty_lists_nothing hcf).2] at hmem
    simp at hmem
  · rw [← hhash] at hmem
    obtain ⟨c', hc', -, hsame⟩ := (hs.childrenByHash_iff hcf ht' hcontent c.name c.hash).mp
      ⟨c, hmem, rfl, rfl⟩
    obtain ⟨hrow, hparent⟩ := mem_ownChildren.mp hc'
    exact ⟨c', hrow, .child hbelow' hrow hparent, hsame⟩

theorem HistoryClosed.files (hc : db.HistoryClosed p) (hs : db.StoreShape)
    (hcf : CollisionFree H) {h : H} (hh : db.InHistory p h) {f : File H}
    (hmem : f ∈ db.filesByHash h) {x : H} (hx : x ∈ f.chunks.map Chunk.hash) :
    db.HistoryChunk p x := by
  obtain ⟨t, ht, hbelow, rfl⟩ := hh
  rcases hc t ht hbelow with hempty | ⟨t', ht', hbelow', hhash, hcontent⟩
  · rw [hempty, (hs.empty_lists_nothing hcf).1] at hmem
    simp at hmem
  · rw [← hhash] at hmem
    obtain ⟨g, hg, -, hsame⟩ := (hs.filesByHash_iff hcf ht' hcontent f.name f.hash).mp
      ⟨f, hmem, rfl, rfl⟩
    obtain ⟨_, _, _, hown⟩ := mem_filesByHash hmem
    -- files of one hash have the same chunks
    have hchunks : g.chunks.map Chunk.hash = f.chunks.map Chunk.hash := by
      apply fileHash_injective hcf
      rw [← hs.fileHash_eq _ (mem_ownFiles.mp hg), ← hs.fileHash_eq _ (mem_ownFiles.mp hown),
        hsame]
    exact ⟨t'.id, hbelow', g, hg, hchunks ▸ hx⟩

theorem HistoryClosed.dirAt (hc : db.HistoryClosed p) (hs : db.StoreShape)
    (hcf : CollisionFree H) {ks : List Str} {h d : H} (hh : db.InHistory p h)
    (hd : db.storeTree.dirAt h ks = some d) : db.InHistory p d := by
  induction ks generalizing h with
  | nil =>
      rw [Hierarchy.dirAt_nil, Option.some.injEq] at hd
      rwa [← hd]
  | cons k ks ih =>
      rw [Hierarchy.dirAt_cons] at hd
      obtain ⟨m, hm, hd⟩ := Option.bind_eq_some_iff.mp hd
      obtain ⟨c, hmem, -, rfl⟩ := hs.subOf_iff.mp hm
      exact ih (hc.children hs hcf hh hmem) hd

theorem HistoryClosed.find (hc : db.HistoryClosed p) (hs : db.StoreShape)
    (hcf : CollisionFree H) {segs : List Str} {h : H} {f : File H} (hh : db.InHistory p h)
    (hf : db.storeTree.find h segs = some f) {x : H} (hx : x ∈ f.chunks.map Chunk.hash) :
    db.HistoryChunk p x := by
  obtain ⟨ks, n, rfl⟩ := (List.eq_nil_or_concat' segs).resolve_left
    (storeTree_find_valid hs hf).1
  rw [Hierarchy.find_concat] at hf
  obtain ⟨d, hd, hf⟩ := Option.bind_eq_some_iff.mp hf
  exact hc.files hs hcf (hc.dirAt hs hcf hh hd) (hs.fileOf_iff.mp hf).1 hx

omit [DecidableEq H] [HashScheme H] in
theorem InHistory.of_commit {c : Commit H} (hc : c ∈ db.commits) {row : TreeRow H}
    (hr : row ∈ db.treeNodes) (hid : row.id = c.treeID) : db.InHistory c.projectID row.hash :=
  ⟨row, hr, hid ▸ .root hc rfl, rfl⟩

end Closed

/-! ## Growing stores -/

section Growth

variable {H : Type} {db db' : DB H} {p : ID}

theorem Below.mono (hrows : ∀ t ∈ db.treeNodes, t ∈ db'.treeNodes)
    (hcommits : ∀ c ∈ db.commits, c ∈ db'.commits) {id : ID} (h : db.Below p id) :
    db'.Below p id := by
  induction h with
  | root hc hp => exact .root (hcommits _ hc) hp
  | child _ ht hp ih => exact .child ih (hrows _ ht) hp

variable [DecidableEq H] [HashScheme H]

theorem Below.le (hinv : db.StoreInv) {id : ID} (h : db.Below p id) :
    id ≤ db.treeNodes.length := by
  cases h with
  | root hc _ =>
      obtain ⟨t, ht, hid⟩ := hinv.commit_tree _ hc
      rw [← hid]
      exact (hinv.id_pos_le ht).2
  | child _ ht _ => exact (hinv.id_pos_le ht).2

/-- A row below a commit of the grown store was below one before, or is new and below
the new commit. -/
theorem Below.old_or_new (he : db.Extends db') (hinv : db.StoreInv) (hs' : db'.StoreShape)
    {c : Commit H} (hcommits : db'.commits = db.commits ++ [c])
    (hroot : db.treeNodes.length < c.treeID) {id : ID} (h : db'.Below p id) :
    db.Below p id ∨ p = c.projectID ∧ db.treeNodes.length < id := by
  induction h with
  | @root c' hc hp =>
      rw [hcommits] at hc
      rcases List.mem_append.mp hc with hc | hc
      · exact Or.inl (.root hc hp)
      · rw [List.mem_singleton.mp hc] at hp ⊢
        exact Or.inr ⟨hp.symm, hroot⟩
  | @child t q _ ht hp ih =>
      rcases he.old_or_new hs' ht with hold | hnew
      · have hle := hinv.parent_le t hold q hp
        rcases ih with ih | ⟨-, hlt⟩
        · exact Or.inl (.child ih hold hp)
        · exact absurd hlt (not_lt.mpr hle)
      · obtain ⟨rows, heq, hparents⟩ := he.trees
        rw [heq] at ht
        rcases List.mem_append.mp ht with ht | ht
        · exact absurd (hinv.id_pos_le ht).2 (not_le.mpr hnew)
        · have hlt := hparents t ht q hp
          rcases ih with ih | ⟨hproject, -⟩
          · exact absurd (ih.le hinv) (not_le.mpr hlt)
          · exact Or.inr ⟨hproject, hnew⟩

end Growth

end DB

/-! ## Writing a commit -/

section Write

variable {H : Type} [HashScheme H] [DecidableEq H] {db db' : DB H} {p : ID}
  {files : List (PushFile H)} {removed : List Str}

namespace TreeBuilder

/-- A directory built on directories of the project's history. -/
def RebuiltOver (db : DB H) (p : ID) (b : TreeBuilder H) (t : PushTreeNode H) : Prop :=
  ∃ depth d base, (∀ row ∈ base, row ∈ db.treeNodes ∧ db.InHistory p row.hash) ∧
    b.BuiltFrom db depth d base t

theorem baseChildrenOf_inHistory (hc : db.HistoryClosed p) (hs : db.StoreShape)
    (hcf : CollisionFree H) {base : Option (TreeRow H)}
    (hbase : ∀ row ∈ base, row ∈ db.treeNodes ∧ db.InHistory p row.hash) :
    ∀ c ∈ baseChildrenOf db base, c ∈ db.treeNodes ∧ db.InHistory p c.hash := by
  intro c hmem
  refine ⟨(baseChildrenOf_ok hs fun row hrow => (hbase row hrow).1).1 c hmem, ?_⟩
  rcases base with _ | row
  · simp [baseChildrenOf] at hmem
  · rw [baseChildrenOf_some hs (hbase row rfl).1] at hmem
    exact hc.children hs hcf (hbase row rfl).2 hmem

theorem RebuiltOver.child (hc : db.HistoryClosed p) (hs : db.StoreShape) (hcf : CollisionFree H)
    {b : TreeBuilder H} {t c : PushTreeNode H} (h : RebuiltOver db p b t) (hmem : c ∈ t.children) :
    RebuiltOver db p b c := by
  obtain ⟨depth, d, base, hbase, hb⟩ := h
  rcases depth with _ | depth
  · exact hb.elim
  · obtain ⟨-, -, -, -, hchildren⟩ := hb
    refine ⟨depth, joinPath d c.name, _, ?_, hchildren c hmem⟩
    intro row hrow
    have hnodup := (baseChildrenOf_ok hs fun row hrow => (hbase row hrow).1).2
    exact baseChildrenOf_inHistory hc hs hcf hbase row ((childByName_lookup hnodup).mp hrow).1

theorem RebuiltOver.kept (hc : db.HistoryClosed p) (hs : db.StoreShape) (hcf : CollisionFree H)
    {b : TreeBuilder H} {t : PushTreeNode H} (h : RebuiltOver db p b t) {k : KeptDir H}
    (hk : k ∈ t.keepDirs) : db.InHistory p k.hash := by
  obtain ⟨depth, d, base, hbase, hb⟩ := h
  rcases depth with _ | depth
  · exact hb.elim
  · obtain ⟨-, -, hkept, -⟩ := hb
    have hpair : (k.name, k.hash) ∈ b.keptOf d (baseChildrenOf db base) := by
      rw [← hkept]
      exact List.mem_map.mpr ⟨k, hk, rfl⟩
    obtain ⟨c, hmem, heq⟩ := List.mem_map.mp hpair
    rw [← (Prod.mk.inj heq).2]
    exact (baseChildrenOf_inHistory hc hs hcf hbase c (List.mem_filter.mp hmem).1).2

theorem RebuiltOver.chunk (hc : db.HistoryClosed p) (hs : db.StoreShape) (hcf : CollisionFree H)
    {t : PushTreeNode H} (h : RebuiltOver db p (ofRequest files removed) t) {nf : NodeFile H}
    (hnf : nf ∈ t.files) {x : H} (hx : x ∈ nf.chunkHashes) :
    db.HistoryChunk p x ∨ ∃ f ∈ files, x ∈ f.chunkHashes := by
  obtain ⟨depth, d, base, hbase, hb⟩ := h
  rcases depth with _ | depth
  · exact hb.elim
  · obtain ⟨-, hfiles, -⟩ := hb
    rw [hfiles] at hnf
    rcases mem_nodeFiles hnf with ⟨g, hg, rfl⟩ | ⟨g, hg, rfl⟩
    · exact Or.inr ⟨g, (List.mem_filter.mp hg).1, hx⟩
    · rcases base with _ | row
      · simp [baseFilesOf] at hg
      · rw [baseFilesOf_some hs (hbase row rfl).1] at hg
        exact Or.inl (hc.files hs hcf (hbase row rfl).2 hg hx)

end TreeBuilder

variable {root : PushTreeNode H} {ρ : ID → ID} {c : Commit H}

/-- A written tree of the project keeps every history closed, and adds chunks only to
the history of the project. -/
theorem Written.history (hw : Written db root p db' ρ) (hinv : db.StoreInv)
    (hs' : db'.StoreShape) (hcf : CollisionFree H) (hclosed : ∀ q, db.HistoryClosed q)
    (hcommits : db'.commits = db.commits ++ [c]) (hproject : c.projectID = p)
    (htree : c.treeID = ρ root.id)
    (hover : ∀ e ∈ layout root, RebuiltOver db p (ofRequest files removed) e.2) :
    (∀ q, db'.HistoryClosed q) ∧ ∀ q x, db'.HistoryChunk q x → db.HistoryChunk q x ∨
      q = p ∧ ∃ f ∈ files, x ∈ f.chunkHashes ∧ (p, x) ∈ db.projectChunkUploads := by
  have hs := hinv.toStoreShape
  have hroot : db.treeNodes.length < c.treeID := htree ▸ hw.lt_dir (root_mem_layout root)
  have hmono : ∀ {q id}, db.Below q id → db'.Below q id := fun h =>
    h.mono (fun t ht => hw.dir_extends.mem_treeNodes ht) fun c hc => by
      rw [hcommits]
      exact List.mem_append_left _ hc
  have hcases : ∀ {q id}, db'.Below q id → db.Below q id ∨ q = p ∧ db.treeNodes.length < id := by
    intro q id h
    have := h.old_or_new hw.dir_extends hinv hs' hcommits hroot
    rwa [hproject] at this
  -- content below a commit stays below it
  have hkeep : ∀ {q h}, db.InHistory q h → h = treeHash [] [] ∨
      ∃ t ∈ db'.treeNodes, db'.Below q t.id ∧ t.hash = h ∧ db'.hasContent t.id := by
    rintro q h ⟨t, ht, hbelow, rfl⟩
    rcases hclosed q t ht hbelow with hempty | ⟨t', ht', hbelow', hhash, hcontent⟩
    · exact Or.inl hempty
    · exact Or.inr ⟨t', hw.dir_extends.mem_treeNodes ht', hmono hbelow', hhash,
        (hw.dir_extends.hasContent_iff (hs.id_pos_le ht').2).mpr hcontent⟩
  constructor
  · intro q t ht hbelow
    rcases hw.mem_treeNodes.mp ht with hold | ⟨e, he, rfl | ⟨k, hk, rfl⟩⟩
    · rcases hcases hbelow with hbelow | ⟨-, hlt⟩
      · exact hkeep ⟨t, hold, hbelow, rfl⟩
      · exact absurd (hs.id_pos_le hold).2 (not_le.mpr hlt)
    · by_cases hcontent : db'.hasContent (ρ e.2.id)
      · exact Or.inr ⟨_, ht, hbelow, rfl, hcontent⟩
      · exact Or.inl (hw.hash_of_not_hasContent hs he hcontent)
    · rcases hcases hbelow with hbelow | ⟨rfl, -⟩
      · exact absurd (hbelow.le hinv) (not_le.mpr (hw.lt_kept he hk))
      · exact hkeep ((hover e he).kept (hclosed q) hs hcf hk)
  · rintro q x ⟨id, hbelow, f, hf, hx⟩
    rcases hcases hbelow with hbelow | ⟨rfl, hlt⟩
    · rw [hw.dir_extends.ownFiles_eq (hbelow.le hinv)] at hf
      exact Or.inl ⟨id, hbelow, f, hf, hx⟩
    · rcases hw.mem_files.mp (DB.mem_ownFiles.mp hf) with hold | ⟨e, he, nf, hnf, heq⟩
      · exact absurd (hs.file_le _ hold) (not_le.mpr hlt)
      · obtain ⟨-, rfl⟩ := FileRow.mk.inj heq
        rw [hw.nodeFile_chunks he hnf] at hx
        rcases (hover e he).chunk (hclosed q) hs hcf hnf hx with hold | ⟨g, hg, hxg⟩
        · exact Or.inl hold
        · refine Or.inr ⟨rfl, g, hg, hxg, ?_⟩
          have hres := hw.resolved e he nf hnf x hx
          rw [chunkFor] at hres
          by_contra hnot
          simp [hnot] at hres

variable {head : Option (Commit H)} {req : ApplyPushRequest H}

/-- A planned commit that is built on a head of its project keeps every history closed,
and adds only chunks of the changed files to the history of the project. -/
theorem WritePlan.history (h : WritePlan db head files removed req) (hinv : db.StoreInv)
    (hcf : CollisionFree H) (hclosed : ∀ q, db.HistoryClosed q)
    (hhead : ∀ c ∈ head, c.projectID = req.projectID) (happly : applyPush db req = .ok db') :
    (∀ q, db'.HistoryClosed q) ∧ (∀ q x, db'.HistoryChunk q x → db.HistoryChunk q x ∨
      q = req.projectID ∧ ∃ f ∈ files, x ∈ f.chunkHashes ∧
        (req.projectID, x) ∈ db.projectChunkUploads) ∧
      ∀ f ∈ db'.files, f ∈ db.files ∨ ∀ ch ∈ f.file.chunks, ch ∈ db.chunks := by
  obtain ⟨root, parentHashes, hbuild, heq⟩ := h.built
  have hs := hinv.toStoreShape
  rw [heq] at happly
  obtain ⟨ρ, hw, hcommits, -⟩ := written_of_apply hs h.request_ok hbuild happly
  have hover : ∀ e ∈ layout root,
      RebuiltOver db req.projectID (ofRequest files removed) e.2 := by
    refine visitOrder_forall (P := RebuiltOver db req.projectID (ofRequest files removed))
      (fun t ht c hc => ht.child (hclosed _) hs hcf hc) ?_
    intro e he
    obtain rfl := List.mem_singleton.mp he
    refine ⟨_, _, _, fun row hrow => ?_, buildNewTree_builtFrom hbuild⟩
    obtain ⟨c, hc, hget⟩ := Option.bind_eq_some_iff.mp hrow
    have hr := headRow_mem hrow
    refine ⟨hr, hhead c hc ▸ DB.InHistory.of_commit (h.head_stored c hc) hr ?_⟩
    simpa using List.find?_some hget
  obtain ⟨hclosed', hchunks⟩ := hw.history hinv (hw.storeShape hs) hcf hclosed hcommits rfl rfl
    hover
  refine ⟨hclosed', hchunks, fun f hf => ?_⟩
  rcases hw.mem_files.mp hf with hold | ⟨e, he, nf, hnf, rfl⟩
  · exact Or.inl hold
  · refine Or.inr fun ch hch => ?_
    obtain ⟨x, -, hx⟩ := List.mem_filterMap.mp hch
    rw [chunkFor] at hx
    split at hx
    · exact List.mem_of_find?_eq_some hx
    · simp at hx

end Write

end Nipa
