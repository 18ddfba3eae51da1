import Nipa.Merge.LandingPlan

/-!
# The chunks of merged files

A landing stores chunks only for files it merges as text; every other file it writes is
one of a tree that was stored before.  Chunk rows are recorded once and stay.
-/

namespace Nipa

open Support Merge

/-! ## Chunk rows -/

section Rows

variable {H : Type}

/-- A chunk has one row, and its size is a number of bytes. -/
structure DB.ChunkRows (db : DB H) : Prop where
  hashes_nodup : (db.chunks.map Chunk.hash).Nodup
  size_nonneg : ∀ c ∈ db.chunks, 0 ≤ c.sizeBytes

/-- At most chunk rows were added. -/
structure StoresChunks (db db' : DB H) : Prop extends ChunksOnly db db' where
  uploads_eq : db'.projectChunkUploads = db.projectChunkUploads
  rows_mono : ∀ c ∈ db.chunks, c ∈ db'.chunks
  rows_ok : db.ChunkRows → db'.ChunkRows

theorem StoresChunks.refl (db : DB H) : StoresChunks db db :=
  ⟨ChunksOnly.refl db, rfl, fun _ hc => hc, id⟩

variable {db : DB H}

theorem StoresChunks.trans {db' db'' : DB H} (h : StoresChunks db db')
    (h' : StoresChunks db' db'') :
    StoresChunks db db'' :=
  ⟨h.toChunksOnly.trans h'.toChunksOnly, h'.uploads_eq.trans h.uploads_eq,
    fun c hc => h'.rows_mono c (h.rows_mono c hc), fun hr => h'.rows_ok (h.rows_ok hr)⟩

theorem DB.ChunkRows.eq_of_hash (h : db.ChunkRows) {c c' : Chunk H} (hc : c ∈ db.chunks)
    (hc' : c' ∈ db.chunks) (heq : c.hash = c'.hash) : c = c' :=
  List.inj_on_of_nodup_map h.hashes_nodup hc hc' heq

theorem storesChunks_concat {c : Chunk H} (hnew : ¬ ∃ c' ∈ db.chunks, c'.hash = c.hash)
    (hsize : 0 ≤ c.sizeBytes) : StoresChunks db { db with chunks := db.chunks ++ [c] } := by
  refine ⟨⟨⟨rfl, rfl, rfl⟩, rfl, rfl⟩, rfl, fun _ hc => List.mem_append_left _ hc, fun hr => ?_⟩
  constructor
  · rw [List.map_append, List.nodup_append]
    refine ⟨hr.hashes_nodup, List.nodup_singleton _, ?_⟩
    intro x hx y hy hxy
    obtain ⟨c', hc', rfl⟩ := List.mem_map.mp hx
    rw [List.map_singleton, List.mem_singleton] at hy
    exact hnew ⟨c', hc', hxy.trans hy⟩
  · intro c' hc'
    rcases List.mem_append.mp hc' with hc' | hc'
    · exact hr.size_nonneg c' hc'
    · rwa [List.mem_singleton.mp hc']

variable [DecidableEq H] {store : ContentStore H}

theorem upload_stores {db' : DB H} {c : Chunk H} (hsize : 0 ≤ c.sizeBytes)
    (h : upload store db c = .ok db') :
    StoresChunks db db' ∧ ∃ row ∈ db'.chunks, row.hash = c.hash := by
  rw [upload] at h
  simp only [bind_eq_ok, pure_eq_ok] at h
  obtain ⟨_, -, rfl⟩ := h
  split
  next hold => exact ⟨StoresChunks.refl db, hold⟩
  next hnew => exact ⟨storesChunks_concat hnew hsize, c, by simp, rfl⟩

theorem foldlM_upload_stores {chunks : List (Chunk H)} {db' : DB H}
    (hsize : ∀ c ∈ chunks, 0 ≤ c.sizeBytes) (h : chunks.foldlM (upload store) db = .ok db') :
    StoresChunks db db' ∧ ∀ c ∈ chunks, ∃ row ∈ db'.chunks, row.hash = c.hash := by
  induction chunks generalizing db with
  | nil =>
      obtain rfl := pure_eq_ok.mp h
      exact ⟨StoresChunks.refl db, by simp⟩
  | cons c chunks ih =>
      rw [List.foldlM_cons] at h
      obtain ⟨mid, hmid, h⟩ := bind_eq_ok.mp h
      obtain ⟨hfirst, row, hrow, hhash⟩ := upload_stores (hsize c List.mem_cons_self) hmid
      obtain ⟨hrest, hrows⟩ := ih (fun c hc => hsize c (List.mem_cons_of_mem _ hc)) h
      refine ⟨hfirst.trans hrest, fun c' hc' => ?_⟩
      rcases List.mem_cons.mp hc' with rfl | hc'
      · exact ⟨row, hrest.rows_mono row hrow, hhash⟩
      · exact hrows c' hc'

end Rows

/-! ## Where the chunks of a merged file come from -/

section Merged

variable {H : Type} [HashScheme H] [DecidableEq H] {store : ContentStore H}

/-- Chunks that are encoded are as large as what is stored for them. -/
def ContentStore.MeasuresChunks (store : ContentStore H) : Prop :=
  ∀ content path encoding chunks, store.encodeBytes content path = .ok (encoding, chunks) →
    ∀ c ∈ chunks, 0 ≤ c.sizeBytes

/-- The chunks of the files are known or were stored. -/
def ChunksFrom (K : H → Prop) (stored : List (Chunk H)) (m : GoMap (Entry H)) : Prop :=
  ∀ p, ∀ e ∈ m.lookup p, ∀ x ∈ e.chunkHashes, K x ∨ x ∈ stored.map Chunk.hash

variable {K : H → Prop}

omit [HashScheme H] [DecidableEq H] in
theorem ChunksFrom.mono {stored : List (Chunk H)} {m : GoMap (Entry H)} (h : ChunksFrom K stored m)
    (added : List (Chunk H)) : ChunksFrom K (stored ++ added) m := by
  intro p e he x hx
  rw [List.map_append, List.mem_append]
  exact (h p e he x hx).imp_right Or.inl

omit [HashScheme H] [DecidableEq H] in
theorem ChunksFrom.insert {stored : List (Chunk H)} {m : GoMap (Entry H)}
    (h : ChunksFrom K stored m) (path : Str) {f : Entry H}
    (hf : ∀ x ∈ f.chunkHashes, K x ∨ x ∈ stored.map Chunk.hash) :
    ChunksFrom K stored (m.insert path f) := by
  intro p e he
  rw [GoMap.lookup_insert_eq] at he
  split at he
  · obtain rfl := Option.some.inj he
    exact hf
  · exact h p e he

theorem theirs_of_keepTheirs {b o t : Option (Entry H)} {d : Decided H}
    (h : (outcomeAt b o t).decided? = some d) (hkeep : d.decision = .keepTheirs) :
    t = some d.theirs := by
  have htaken : ∀ {dec : Decision} {b o t : Entry H},
      some (⟨dec, b, o, t⟩ : Decided H) = some d → dec = d.decision ∧ t = d.theirs := by
    intro dec b o t heq
    rw [← Option.some.inj heq]
    exact ⟨rfl, rfl⟩
  rcases b with _ | b <;> rcases o with _ | o <;> rcases t with _ | t <;>
    simp only [outcomeAt] at h <;> repeat' split at h
  all_goals
    simp only [Outcome.decided?, reduceCtorEq] at h
  all_goals
    obtain ⟨hdec, htheirs⟩ := htaken h
    rw [hkeep] at hdec
    first
    | rw [htheirs]
    | cases hdec

/-- What the work on a merge has left in the database and in the file set. -/
structure MaterializedFrom (K : H → Prop) (db : DB H)
    (acc : DB H × GoMap (Entry H) × List (Chunk H)) : Prop where
  stores : StoresChunks db acc.1
  chunks : ChunksFrom K acc.2.2 acc.2.1
  rows : ∀ c ∈ acc.2.2, ∃ row ∈ acc.1.chunks, row.hash = c.hash

theorem MaterializedFrom.entry {db : DB H} (hsize : store.MeasuresChunks)
    {acc acc' : DB H × GoMap (Entry H) × List (Chunk H)} {path : Str} {d : Decided H}
    (hd : d.decision = .keepTheirs → ∀ x ∈ d.theirs.chunkHashes, K x)
    (hacc : MaterializedFrom K db acc) (h : materializeEntry store acc path d = .ok acc') :
    MaterializedFrom K db acc' := by
  obtain ⟨mid, merged, stored⟩ := acc
  rcases hdec : d.decision
  case keepTheirs =>
    simp only [materializeEntry, hdec, Except.ok.injEq] at h
    rw [← h]
    exact ⟨hacc.stores, hacc.chunks.insert path fun x hx => Or.inl (hd hdec x hx), hacc.rows⟩
  case textMerge =>
    simp only [materializeEntry, hdec, bind_eq_ok, refuseIf_eq_ok, pure_eq_ok] at h
    obtain ⟨_, -, _, -, _, -, _, -, ⟨mid', f, chunks⟩, hstore, rfl⟩ := h
    rw [storeMergedContent] at hstore
    obtain ⟨⟨encoding, cs⟩, hencode, hstore⟩ := bind_eq_ok.mp hstore
    obtain ⟨_, hupload, hstore⟩ := bind_eq_ok.mp hstore
    obtain ⟨rfl, hf⟩ := Prod.mk.inj (pure_eq_ok.mp hstore)
    obtain ⟨rfl, rfl⟩ := Prod.mk.inj hf
    obtain ⟨hstores, hrows⟩ := foldlM_upload_stores (hsize _ _ _ _ hencode) hupload
    refine ⟨hacc.stores.trans hstores, ?_, ?_⟩
    · refine (hacc.chunks.mono cs).insert path fun x hx => Or.inr ?_
      rw [List.map_append]
      exact List.mem_append_right _ hx
    · intro c hc
      rcases List.mem_append.mp hc with hc | hc
      · obtain ⟨row, hrow, hhash⟩ := hacc.rows c hc
        exact ⟨row, hstores.rows_mono row hrow, hhash⟩
      · exact hrows c hc
  all_goals
    simp only [materializeEntry, hdec, Except.ok.injEq] at h
    rw [← h]
    exact hacc

theorem mergeOnto_chunks {db mid mid' : DB H} (hsize : store.MeasuresChunks)
    {base ours theirs merged : GoMap (Entry H)} {pre : Str} {stored added : List (Chunk H)}
    (hacc : MaterializedFrom K db (mid, ours, stored))
    (htheirs : ∀ p, ∀ e ∈ theirs.lookup p, ∀ x ∈ e.chunkHashes, K x)
    (h : mergeOnto store mid base ours theirs pre = .ok (mid', merged, added)) :
    MaterializedFrom K db (mid', merged, stored ++ added) := by
  rw [mergeOnto] at h
  simp only [bind_eq_ok, materialize, pure_eq_ok, Prod.mk.injEq] at h
  obtain ⟨_, -, ⟨mid₁, merged₁, added₁⟩, hfold, rfl, rfl, rfl⟩ := h
  -- the merge itself, with what was known before it
  have hinit : MaterializedFrom (fun x => K x ∨ x ∈ stored.map Chunk.hash) mid (mid, ours, []) :=
    ⟨StoresChunks.refl mid, fun p e he x hx => Or.inl (hacc.chunks p e he x hx), by simp⟩
  have hmerge : MaterializedFrom (fun x => K x ∨ x ∈ stored.map Chunk.hash) mid
      (mid₁, merged₁, added₁) := by
    refine foldlM_invariant
      (I := MaterializedFrom (fun x => K x ∨ x ∈ stored.map Chunk.hash) mid) ?_ hinit hfold
    intro e he acc acc' hacc' hstep
    refine hacc'.entry hsize (fun hkeep x hx => Or.inl (htheirs e.1 e.2.theirs ?_ x hx)) hstep
    have hentry := threeWay_entries base ours theirs e.1
    rw [AList.mem_lookup_iff.mpr he] at hentry
    exact theirs_of_keepTheirs hentry.symm hkeep
  refine ⟨hacc.stores.trans hmerge.stores, ?_, ?_⟩
  · intro p e he x hx
    rw [Option.mem_def, foldl_erase_lookup] at he
    split at he
    · cases he
    · rw [List.map_append, List.mem_append, ← or_assoc]
      exact hmerge.chunks p e he x hx
  · intro c hc
    rcases List.mem_append.mp hc with hc | hc
    · obtain ⟨row, hrow, hhash⟩ := hacc.rows c hc
      exact ⟨row, hmerge.stores.rows_mono row hrow, hhash⟩
    · exact hmerge.rows c hc

theorem landingCommit_files {db : DB H} {projectID commitID userID : ID} {target : Branch}
    {targetHead : Commit H} {targetTree merged : GoMap (Entry H)}
    {parentID parent2ID : Option ID} {parentHashes : List H} {message : Str}
    {c : PlannedCommit H}
    (h : landingCommit db projectID target targetHead targetTree merged commitID parentID
      parent2ID parentHashes userID message = .ok c) :
    c.request.projectID = projectID ∧ c.request.branchID = target.id ∧
      ∀ f ∈ c.files, ∃ p, ∃ e ∈ merged.lookup p, f.chunkHashes = e.chunkHashes := by
  rw [landingCommit] at h
  obtain ⟨root, -, h⟩ := bind_eq_ok.mp h
  obtain rfl := pure_eq_ok.mp h
  refine ⟨rfl, rfl, fun f hf => ?_⟩
  obtain ⟨e, he, rfl⟩ := List.mem_map.mp hf
  exact ⟨e.1, e.2, AList.mem_lookup_iff.mpr (List.mem_filter.mp he).1, rfl⟩

theorem planMerge_chunks {db db' : DB H} {land : Landing} (hsize : store.MeasuresChunks)
    (hK : ∀ commitID m, mergeTree db land.projectID commitID = .ok m →
      ∀ p, ∀ e ∈ m.lookup p, ∀ x ∈ e.chunkHashes, K x) {caller : Caller} {opts : MergeCommitOptions}
    {newID : ℕ → ID} {w : MergeWrite H}
    (h : planMerge store db caller land opts newID = .ok (.write db' w)) :
    StoresChunks db db' ∧ (∀ c ∈ w.stored, ∃ row ∈ db'.chunks, row.hash = c.hash) ∧
      ∀ c ∈ w.commits, c.request.projectID = land.projectID ∧
        c.request.branchID = land.target.id ∧
        ∀ f ∈ c.files, ∀ x ∈ f.chunkHashes, K x ∨ x ∈ w.stored.map Chunk.hash := by
  let I : Commit H → GoMap (Entry H) → DB H → MergeWrite H → Prop := fun _ _ mid w =>
    MaterializedFrom K db (mid, w.merged, w.stored) ∧
      ∀ c ∈ w.commits, c.request.projectID = land.projectID ∧
        c.request.branchID = land.target.id ∧
        ∀ f ∈ c.files, ∀ x ∈ f.chunkHashes, K x ∨ x ∈ w.stored.map Chunk.hash
  obtain ⟨_, _, -, hacc, hcommits⟩ := planMerge_invariant (I := I)
    (fun targetHead targetTree _ htree => ⟨⟨StoresChunks.refl db,
      fun p e he x hx => Or.inl (hK _ _ htree p e he x hx), by simp⟩, by simp⟩)
    (fun {targetHead targetTree mid w} hw {commitID theirs} htree {base pre mid' merged added}
        honto {id parentID parent2ID parentHashes userID message c} hcommit => by
      obtain ⟨hacc, hcommits⟩ := hw
      rw [mergeTree_sameTrees hacc.stores.toSameTrees] at htree
      have hnext := mergeOnto_chunks hsize hacc (hK _ _ htree) honto
      refine ⟨hnext, fun c' hc' => ?_⟩
      rcases List.mem_append.mp hc' with hold | hnew
      · obtain ⟨hproject, hbranch, hfiles⟩ := hcommits c' hold
        refine ⟨hproject, hbranch, fun f hf x hx => ?_⟩
        rw [List.map_append, List.mem_append]
        exact (hfiles f hf x hx).imp_right Or.inl
      · rw [List.mem_singleton.mp hnew]
        obtain ⟨hproject, hbranch, hfiles⟩ := landingCommit_files hcommit
        refine ⟨hproject, hbranch, fun f hf x hx => ?_⟩
        obtain ⟨p, e, he, heq⟩ := hfiles f hf
        exact hnext.chunks p e he x (heq ▸ hx)) h
  exact ⟨hacc.stores, hacc.rows, hcommits⟩

end Merged

end Nipa
