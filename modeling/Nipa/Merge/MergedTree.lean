import Nipa.Merge.Strategies
import Nipa.Server.WritePlan

/-!
# What a server-side merge leaves

The file set of a merge, path by path: which version it takes, and that only
the chunk tables change while it is put together.  Expressed as a change set
against the target head, the merged files are exactly what the new tree holds.
-/

namespace Nipa

open Support Merge TreeBuilder

/-! ## Applying the decisions -/

section Materialize

variable {H : Type}

/-- Only the chunk tables differ. -/
structure ChunksOnly (db db' : DB H) : Prop extends DB.SameTrees db db' where
  branches_eq : db'.branches = db.branches
  fileLocks_eq : db'.fileLocks = db.fileLocks

theorem ChunksOnly.refl (db : DB H) : ChunksOnly db db :=
  ⟨⟨rfl, rfl, rfl⟩, rfl, rfl⟩

variable {db db' : DB H}

theorem ChunksOnly.trans {db'' : DB H} (h : ChunksOnly db db') (h' : ChunksOnly db' db'') :
    ChunksOnly db db'' :=
  ⟨⟨h'.treeNodes_eq.trans h.treeNodes_eq, h'.files_eq.trans h.files_eq,
    h'.commits_eq.trans h.commits_eq⟩, h'.branches_eq.trans h.branches_eq,
    h'.fileLocks_eq.trans h.fileLocks_eq⟩

variable [HashScheme H] [DecidableEq H] {store : ContentStore H}

omit [HashScheme H] in
theorem upload_chunksOnly {c : Chunk H} (h : upload store db c = .ok db') : ChunksOnly db db' := by
  rw [upload] at h
  simp only [bind_eq_ok, pure_eq_ok] at h
  obtain ⟨_, -, rfl⟩ := h
  split
  · exact ChunksOnly.refl db
  · exact ⟨⟨rfl, rfl, rfl⟩, rfl, rfl⟩

omit [HashScheme H] in
theorem foldlM_upload_chunksOnly {chunks : List (Chunk H)}
    (h : chunks.foldlM (upload store) db = .ok db') : ChunksOnly db db' :=
  foldlM_related ChunksOnly.refl (fun _ _ _ => ChunksOnly.trans)
    (fun _ _ _ => upload_chunksOnly) h

/-- A file written by a text merge. -/
structure TextMerged (path : Str) (mode : ℕ) (f : Entry H) : Prop where
  path_eq : f.path = path
  mode_eq : f.mode = mode
  text : f.isBinary = false
  hash_eq : f.hash = fileHash f.chunkHashes

theorem storeMergedContent_ok {path : Str} {mode : ℕ} {content : List UInt8} {f : Entry H}
    {chunks : List (Chunk H)}
    (h : storeMergedContent store db path mode content = .ok (db', f, chunks)) :
    ChunksOnly db db' ∧ TextMerged path mode f := by
  rw [storeMergedContent] at h
  obtain ⟨⟨encoding, cs⟩, -, h⟩ := bind_eq_ok.mp h
  obtain ⟨mid, hmid, h⟩ := bind_eq_ok.mp h
  obtain ⟨rfl, hf⟩ := Prod.mk.inj (pure_eq_ok.mp h)
  obtain ⟨rfl, -⟩ := Prod.mk.inj hf
  exact ⟨foldlM_upload_chunksOnly hmid, rfl, rfl, rfl, rfl⟩

/-- The file at a path after a decision was applied; `old` was there before. -/
def DecidedAs (path : Str) (d : Decided H) (old new : Option (Entry H)) : Prop :=
  match d.decision with
  | .keepTheirs => new = some d.theirs
  | .textMerge => ∃ f, new = some f ∧ TextMerged path d.theirs.mode f
  | _ => new = old

/-- What a decision puts at its path; `old` was there before. -/
def AppliedAs (store : ContentStore H) (path : Str) (d : Decided H)
    (old new : Option (Entry H)) : Prop :=
  match d.decision with
  | .keepTheirs => new = some d.theirs
  | .textMerge => ∃ base ours theirs content encoding chunks,
      loadMergedContent store d.base = .ok base ∧ loadMergedContent store d.ours = .ok ours ∧
      loadMergedContent store d.theirs = .ok theirs ∧
      store.mergeText base ours theirs = (content, false) ∧
      store.encodeBytes content path = .ok (encoding, chunks) ∧
      new = some ⟨path, d.theirs.mode, content.length, false, encoding,
        fileHash (chunks.map Chunk.hash), chunks.map Chunk.hash, chunks.map Chunk.sizeBytes⟩
  | _ => new = old

omit [DecidableEq H] in
theorem AppliedAs.decidedAs {path : Str} {d : Decided H} {old new : Option (Entry H)}
    (h : AppliedAs store path d old new) : DecidedAs path d old new := by
  rw [DecidedAs]
  rw [AppliedAs] at h
  split at h
  · exact h
  · obtain ⟨_, _, _, _, _, _, -, -, -, -, -, hnew⟩ := h
    exact ⟨_, hnew, rfl, rfl, rfl, rfl⟩
  · exact h

variable {merged : GoMap (Entry H)}

theorem materializeEntry_ok {merged' : GoMap (Entry H)} {stored stored' : List (Chunk H)}
    {path : Str} {d : Decided H}
    (h : materializeEntry store (db, merged, stored) path d = .ok (db', merged', stored')) :
    ChunksOnly db db' ∧ AppliedAs store path d (merged.lookup path) (merged'.lookup path) ∧
      ∀ p ≠ path, merged'.lookup p = merged.lookup p := by
  rcases hd : d.decision
  case keepTheirs =>
    simp only [materializeEntry, hd, Except.ok.injEq, Prod.mk.injEq] at h
    obtain ⟨rfl, rfl, -⟩ := h
    refine ⟨ChunksOnly.refl db, ?_, ?_⟩
    · rw [AppliedAs, hd]
      exact AList.lookup_insert merged
    · intro p hp
      exact AList.lookup_insert_ne hp
  case textMerge =>
    simp only [materializeEntry, hd, bind_eq_ok, refuseIf_eq_ok, pure_eq_ok,
      Prod.mk.injEq] at h
    obtain ⟨base, hbase, ours, hours, theirs, htheirs, _, hclean, ⟨mid, f, chunks⟩, hstore, rfl,
      rfl, -⟩ := h
    have hdb := (storeMergedContent_ok hstore).1
    rw [storeMergedContent] at hstore
    obtain ⟨⟨encoding, cs⟩, hencode, hstore⟩ := bind_eq_ok.mp hstore
    obtain ⟨_, -, hstore⟩ := bind_eq_ok.mp hstore
    obtain ⟨-, hf⟩ := Prod.mk.inj (pure_eq_ok.mp hstore)
    obtain ⟨rfl, -⟩ := Prod.mk.inj hf
    refine ⟨hdb, ?_, ?_⟩
    · rw [AppliedAs, hd]
      refine ⟨base, ours, theirs, _, encoding, cs, hbase, hours, htheirs, ?_, hencode,
        AList.lookup_insert merged⟩
      exact Prod.ext rfl (Bool.not_eq_true _ ▸ hclean)
    · intro p hp
      exact AList.lookup_insert_ne hp
  all_goals
    simp only [materializeEntry, hd, Except.ok.injEq, Prod.mk.injEq] at h
    obtain ⟨rfl, rfl, -⟩ := h
    exact ⟨ChunksOnly.refl db, by rw [AppliedAs, hd], fun _ _ => rfl⟩

theorem foldlM_materializeEntry_ok {l : List (Sigma fun _ : Str => Decided H)}
    (hl : l.NodupKeys) {acc acc' : DB H × GoMap (Entry H) × List (Chunk H)}
    (h : l.foldlM (fun acc e => materializeEntry store acc e.1 e.2) acc = .ok acc') :
    ChunksOnly acc.1 acc'.1 ∧
      (∀ e ∈ l, AppliedAs store e.1 e.2 (acc.2.1.lookup e.1) (acc'.2.1.lookup e.1)) ∧
      ∀ p, p ∉ l.keys → acc'.2.1.lookup p = acc.2.1.lookup p := by
  refine ⟨?_, ?_⟩
  · exact foldlM_related (R := fun acc acc' : DB H × GoMap (Entry H) × List (Chunk H) =>
      ChunksOnly acc.1 acc'.1) (fun acc => ChunksOnly.refl acc.1)
      (fun _ _ _ h h' => h.trans h') (fun _ _ _ h => (materializeEntry_ok h).1) h
  · refine GoMap.foldlM_entries
      (D := fun e (acc acc' : DB H × GoMap (Entry H) × List (Chunk H)) =>
        AppliedAs store e.1 e.2 (acc.2.1.lookup e.1) (acc'.2.1.lookup e.1))
      (R := fun p acc acc' => acc'.2.1.lookup p = acc.2.1.lookup p)
      (fun _ _ => rfl) (fun _ _ _ _ h h' => h'.trans h) ?_ ?_
      (fun _ _ _ h => (materializeEntry_ok h).2) hl h
    · intro e acc mid acc' hsame hdone
      rwa [← hsame]
    · intro e acc mid acc' hdone hsame
      rwa [hsame]

omit [HashScheme H] [DecidableEq H] in
theorem foldl_erase_lookup (l : List Str) (m : GoMap (Entry H)) (p : Str) :
    (l.foldl (fun m p => m.erase p) m).lookup p = if p ∈ l then none else m.lookup p := by
  induction l generalizing m with
  | nil => simp
  | cons q l ih =>
      rw [List.foldl_cons, ih, GoMap.lookup_erase_eq]
      by_cases hpq : p = q
      · simp [hpq]
      · simp [hpq]

/-- The file at a path of a merge without conflicts. -/
def MergedAt (p : Str) (b o t m : Option (Entry H)) : Prop :=
  match outcomeAt b o t with
  | .unchanged => m = o
  | .taken d => DecidedAs p d o m
  | .deleted => m = none
  | .conflict _ => False

/-- The file a merge without conflicts puts at a path. -/
def OutcomeMerged (store : ContentStore H) (p : Str) (o m : Option (Entry H)) :
    Outcome H → Prop
  | .unchanged => m = o
  | .taken d => AppliedAs store p d o m
  | .deleted => m = none
  | .conflict _ => False

variable {base ours theirs : GoMap (Entry H)}

theorem outcomeMerged_of_foldlM (hconf : (threeWay base ours theirs).conflicts = [])
    {l : List (Sigma fun _ : Str => Decided H)}
    (hl : l.Perm (threeWay base ours theirs).entries.entries) {mid : DB H} {mmid : GoMap (Entry H)}
    {smid : List (Chunk H)}
    (hfold : l.foldlM (fun acc e => materializeEntry store acc e.1 e.2) (db, ours, []) =
      .ok (mid, mmid, smid)) :
    ChunksOnly db mid ∧ ∀ p, OutcomeMerged store p (ours.lookup p)
      (((threeWay base ours theirs).deleted.foldl (fun m p => m.erase p) mmid).lookup p)
      (outcomeAt (base.lookup p) (ours.lookup p) (theirs.lookup p)) := by
  obtain ⟨hdb, hentries, hothers⟩ := foldlM_materializeEntry_ok
    ((List.perm_nodupKeys hl).mpr (threeWay base ours theirs).entries.nodupKeys) hfold
  refine ⟨hdb, ?_⟩
  intro p
  rw [foldl_erase_lookup]
  have hentry := threeWay_entries base ours theirs p
  have hdeleted : p ∈ (threeWay base ours theirs).deleted ↔ _ := mem_threeWay_deleted
  have hnone : (outcomeAt (base.lookup p) (ours.lookup p) (theirs.lookup p)).decided? = none →
      mmid.lookup p = ours.lookup p := by
    intro hnone
    apply hothers
    rw [hnone, AList.lookup_eq_none] at hentry
    have hkeys : l.keys.Perm (threeWay base ours theirs).entries.keys := hl.map Sigma.fst
    rw [hkeys.mem_iff]
    exact hentry
  rcases hout : outcomeAt (base.lookup p) (ours.lookup p) (theirs.lookup p) with _ | d | _ | d
  · rw [hout] at hnone hdeleted
    rw [if_neg (by rw [hdeleted]; simp)]
    exact hnone rfl
  · rw [hout] at hentry hdeleted
    rw [if_neg (by rw [hdeleted]; simp)]
    exact hentries ⟨p, d⟩ (hl.mem_iff.mpr (AList.mem_lookup_iff.mp hentry))
  · rw [hout] at hdeleted
    rw [if_pos (hdeleted.mpr rfl)]
    rfl
  · exact absurd hout (outcomeAt_ne_conflict hconf p d)

theorem mergeOnto_merged {pre : Str} {stored : List (Chunk H)}
    (h : mergeOnto store db base ours theirs pre = .ok (db', merged, stored)) :
    ChunksOnly db db' ∧ ∀ p, OutcomeMerged store p (ours.lookup p) (merged.lookup p)
      (outcomeAt (base.lookup p) (ours.lookup p) (theirs.lookup p)) := by
  rw [mergeOnto] at h
  simp only [bind_eq_ok, refuseIf_eq_ok, not_not, materialize, pure_eq_ok,
    Prod.mk.injEq] at h
  obtain ⟨_, hconf, ⟨mid, mmid, smid⟩, hfold, rfl, rfl, -⟩ := h
  exact outcomeMerged_of_foldlM hconf (List.Perm.refl _) hfold

theorem mergeOnto_conflicts {pre : Str} {stored : List (Chunk H)}
    (h : mergeOnto store db base ours theirs pre = .ok (db', merged, stored)) :
    (threeWay base ours theirs).conflicts = [] := by
  rw [mergeOnto] at h
  obtain ⟨_, hconf, -⟩ := bind_eq_ok.mp h
  simpa using hconf

/-- One merge: only chunks are stored, and every path holds what the three
versions decide. -/
theorem mergeOnto_ok {pre : Str} {stored : List (Chunk H)}
    (h : mergeOnto store db base ours theirs pre = .ok (db', merged, stored)) :
    ChunksOnly db db' ∧
      ∀ p, MergedAt p (base.lookup p) (ours.lookup p) (theirs.lookup p) (merged.lookup p) := by
  obtain ⟨hdb, hmerged⟩ := mergeOnto_merged h
  refine ⟨hdb, fun p => ?_⟩
  have hp := hmerged p
  rw [MergedAt]
  rcases hout : outcomeAt (base.lookup p) (ours.lookup p) (theirs.lookup p) with _ | d | _ | d
  all_goals rw [hout] at hp
  · exact hp
  · exact AppliedAs.decidedAs hp
  · exact hp
  · exact hp

end Materialize

/-! ## The cases of a merge -/

section Cases

variable {H : Type} [HashScheme H] [DecidableEq H]

/-- What a merge without conflicts does at one path. -/
inductive MergedAs (p : Str) :
    Option (Entry H) → Option (Entry H) → Option (Entry H) → Option (Entry H) → Prop where
  | ours {b o t : Option (Entry H)} (hbase : b.isSome → o.isSome ∧ t.isSome)
      (hnew : b = none → o.isSome ∨ t = none) : MergedAs p b o t o
  | added {t : Entry H} : MergedAs p none none (some t) (some t)
  | theirs {b o t : Entry H} (hsame : sameFile o b) :
      MergedAs p (some b) (some o) (some t) (some t)
  | removed {b o : Entry H} (hsame : sameFile o b) : MergedAs p (some b) (some o) none none
  | gone {b : Entry H} {t : Option (Entry H)} : MergedAs p (some b) none t none
  | text {b o t f : Entry H} (ho : o.isBinary = false) (ht : t.isBinary = false)
      (hf : TextMerged p t.mode f) : MergedAs p (some b) (some o) (some t) (some f)

variable {m : Option (Entry H)}

theorem mergedAs_of_all {p : Str} {b o t : Entry H} (h : MergedAt p (some b) (some o) (some t) m) :
    MergedAs p (some b) (some o) (some t) m := by
  have hkeep : m = some o → MergedAs p (some b) (some o) (some t) m := by
    rintro rfl
    exact .ours (by simp) (by simp)
  by_cases hboth : sameFile o b && sameFile t b
  · apply hkeep
    simpa [MergedAt, outcomeAt, hboth] using h
  by_cases hot : sameFile o t
  · apply hkeep
    simpa [MergedAt, outcomeAt, hboth, hot, DecidedAs] using h
  by_cases hob : sameFile o b
  · have htb : sameFile t b = false := by simpa [hob] using hboth
    have hm : m = some t := by simpa [MergedAt, outcomeAt, hob, htb, hot, DecidedAs] using h
    rw [hm]
    exact .theirs hob
  by_cases htb : sameFile t b
  · apply hkeep
    simpa [MergedAt, outcomeAt, hot, hob, htb, DecidedAs] using h
  by_cases hbin : o.isBinary || t.isBinary
  · simp [MergedAt, outcomeAt, hot, hob, htb, hbin] at h
  · have hm : ∃ f, m = some f ∧ TextMerged p t.mode f := by
      simpa [MergedAt, outcomeAt, hot, hob, htb, hbin, DecidedAs] using h
    obtain ⟨f, rfl, hf⟩ := hm
    rw [Bool.or_eq_true, not_or, Bool.not_eq_true, Bool.not_eq_true] at hbin
    exact .text hbin.1 hbin.2 hf

variable {b o t : Option (Entry H)}

theorem MergedAt.cases {p : Str} (h : MergedAt p b o t m) : MergedAs p b o t m := by
  rcases b with _ | b <;> rcases o with _ | o <;> rcases t with _ | t
  · have hm : m = none := by simpa [MergedAt, outcomeAt] using h
    rw [hm]
    exact .ours (by simp) (by simp)
  · have hm : m = some t := by simpa [MergedAt, outcomeAt, DecidedAs] using h
    rw [hm]
    exact .added
  · have hm : m = some o := by simpa [MergedAt, outcomeAt, DecidedAs] using h
    rw [hm]
    exact .ours (by simp) (by simp)
  · by_cases hot : sameFile o t
    · have hm : m = some o := by simpa [MergedAt, outcomeAt, hot, DecidedAs] using h
      rw [hm]
      exact .ours (by simp) (by simp)
    · simp [MergedAt, outcomeAt, hot] at h
  · have hm : m = none := by simpa [MergedAt, outcomeAt] using h
    rw [hm]
    exact .gone
  · by_cases htb : sameFile t b
    · have hm : m = none := by simpa [MergedAt, outcomeAt, htb] using h
      rw [hm]
      exact .gone
    · simp [MergedAt, outcomeAt, htb] at h
  · by_cases hob : sameFile o b
    · have hm : m = none := by simpa [MergedAt, outcomeAt, hob] using h
      rw [hm]
      exact .removed hob
    · simp [MergedAt, outcomeAt, hob] at h
  · exact mergedAs_of_all h

/-- Whether a path is left by a merge without conflicts: a path of the base when
both sides still have it, any other path when one side has it. -/
def keepsPath (b o t : Prop) : Prop :=
  (b → o ∧ t) ∧ (¬ b → o ∨ t)

theorem MergedAs.isSome_iff {p : Str} (h : MergedAs p b o t m) :
    m.isSome ↔ keepsPath b.isSome o.isSome t.isSome := by
  cases h with
  | ours hbase hnew =>
      rcases b with _ | b
      · rcases hnew rfl with ho | ht
        · simp [keepsPath, ho]
        · simp [keepsPath, ht]
      · obtain ⟨ho, ht⟩ := hbase rfl
        simp [keepsPath, ho, ht]
  | added => simp [keepsPath]
  | theirs _ => simp [keepsPath]
  | removed _ => simp [keepsPath]
  | gone => simp [keepsPath]
  | text _ _ _ => simp [keepsPath]

/-- A file of a flattened tree: its path joins stored names and its hash is the
hash of its chunks. -/
structure EntryOK (p : Str) (e : Entry H) : Prop where
  path_ok : ∃ segs, segs ≠ [] ∧ (∀ n ∈ segs, StoredName n) ∧ p = pathOf segs
  hash_ok : e.hash = fileHash e.chunkHashes

theorem MergedAs.entryOK {p : Str} (h : MergedAs p b o t m) (ho : ∀ e ∈ o, EntryOK p e)
    (ht : ∀ e ∈ t, EntryOK p e) : ∀ e ∈ m, EntryOK p e := by
  cases h with
  | ours _ _ => exact ho
  | added => exact ht
  | theirs _ => exact ht
  | removed _ => simp
  | gone => simp
  | @text b o t f _ _ hf =>
      rintro _ ⟨⟩
      exact ⟨(ho o rfl).path_ok, hf.hash_eq⟩

end Cases

/-! ## Reading the trees of a merge -/

section Trees

variable {H : Type} [DecidableEq H] {db db' : DB H}

theorem loadTreeManifest_sameTrees (h : DB.SameTrees db db') (recursive : Bool)
    (filter : PathFilter) (sparse : PrefixSet) (depth : ℕ) (node : TreeRow H) (path : Str) :
    loadTreeManifest db' recursive filter sparse depth node path =
      loadTreeManifest db recursive filter sparse depth node path := by
  rcases db with ⟨trees, files, chunks, uploads, commits, branches, locks⟩
  rcases db' with ⟨trees', files', chunks', uploads', commits', branches', locks'⟩
  obtain ⟨rfl, rfl, rfl⟩ := h
  induction depth generalizing node path with
  | zero => rfl
  | succ depth ih =>
      simp only [loadTreeManifest, ih]
      rfl

variable [HashScheme H]

theorem mergeTree_sameTrees (h : DB.SameTrees db db') (projectID commitID : ID) :
    mergeTree db' projectID commitID = mergeTree db projectID commitID := by
  simp only [mergeTree, commitByIDInProject, DB.getCommit, getTreeNode, DB.treeNodeGet,
    DB.treeDepth, h.commits_eq, h.treeNodes_eq, loadTreeManifest_sameTrees h]

theorem mergeTreeOf_sameTrees (h : DB.SameTrees db db') (projectID : ID)
    (commitID : Option ID) :
    mergeTreeOf db' projectID commitID = mergeTreeOf db projectID commitID := by
  rcases commitID with _ | commitID
  · rfl
  · exact mergeTree_sameTrees h projectID commitID

omit [DecidableEq H] [HashScheme H] in
theorem commitByIDInProject_ok {projectID commitID : ID} {c : Commit H}
    (h : commitByIDInProject db projectID commitID = .ok c) :
    db.getCommit commitID = some c ∧ c.id = commitID ∧ c.projectID = projectID := by
  rw [commitByIDInProject] at h
  simp only [bind_eq_ok, orError_eq_ok, refuseIf_eq_ok, pure_eq_ok, not_not] at h
  obtain ⟨c', hc', _, hproject, rfl⟩ := h
  exact ⟨hc', by simpa using List.find?_some hc', hproject⟩

/-- The map `m` flattens the tree below a row. -/
structure Flattens (db : DB H) (row : TreeRow H) (m : GoMap (Entry H)) : Prop where
  row_mem : row ∈ db.treeNodes
  lookup_eq : ∀ p, m.lookup p = (fileAt db row.hash p).map (entryOf p)

variable {row : TreeRow H}

theorem exists_flattens (hinv : db.StoreInv) (hr : row ∈ db.treeNodes) :
    ∃ g, readTree db db.treeDepth row.id = some g ∧ Flattens db row g := by
  obtain ⟨g, hg, hlookup⟩ :=
    exists_readTree_of_bounded hinv.toStoreShape hr (hinv.bounded_length hr)
  exact ⟨g, hg, hr, hlookup⟩

variable {m : GoMap (Entry H)}

theorem mergeTree_ok (hinv : db.StoreInv) {projectID commitID : ID}
    (h : mergeTree db projectID commitID = .ok m) :
    ∃ c row, commitByIDInProject db projectID commitID = .ok c ∧
      headRow db (some c) = some row ∧ Flattens db row m := by
  rw [mergeTree] at h
  simp only [bind_eq_ok, pure_eq_ok, getTreeNode, orError_eq_ok] at h
  obtain ⟨c, hc, row, hrow, rfl⟩ := h
  have hr : row ∈ db.treeNodes := List.mem_of_find?_eq_some hrow
  refine ⟨c, row, hc, by rw [headRow, Option.bind_some, hrow], ?_⟩
  obtain ⟨g, hg, hflat⟩ := exists_flattens hinv hr
  rw [readTree, hinv.treeNodeGet_eq hr, Option.bind_some] at hg
  obtain ⟨t, ht, rfl⟩ := Option.map_eq_some_iff.mp hg
  rw [ht, Option.elim_some]
  exact hflat

theorem Flattens.entryOK (h : Flattens db row m) (hs : db.StoreShape) {p : Str} :
    ∀ e ∈ m.lookup p, EntryOK p e := by
  intro e he
  rw [h.lookup_eq] at he
  obtain ⟨f, hf, rfl⟩ := Option.map_eq_some_iff.mp he
  obtain ⟨segs, hvalid, rfl⟩ := validSegs_of_fileAt hs hf
  rw [fileAt_pathOf hvalid] at hf
  exact ⟨⟨segs, hvalid.1, storeTree_find_stored hs hf, rfl⟩, rfl⟩

theorem Flattens.baseFind_isSome (h : Flattens db row m) {addr : List Str} (ha : ValidSegs addr) :
    (m.lookup (pathOf addr)).isSome ↔ (baseFind db (some row) addr).isSome := by
  rw [h.lookup_eq, fileAt_pathOf ha, baseFind, Option.bind_some, Option.isSome_map,
    Option.isSome_map]

theorem Flattens.baseDir_isSome (h : Flattens db row m) {addr : List Str} (ha : ValidSegs addr)
    {q : Str} (hq : (m.lookup q).isSome) (hbelow : pathOf addr ++ ['/'] <+: q) :
    (baseDir db (some row) addr).isSome := by
  rw [h.lookup_eq, Option.isSome_map] at hq
  obtain ⟨f, hf⟩ := Option.isSome_iff_exists.mp hq
  obtain ⟨rest, rfl⟩ := hbelow
  have hsplit : (pathOf addr ++ ['/'] ++ rest).splitOn '/' = addr ++ rest.splitOn '/' := by
    rw [List.append_assoc, List.singleton_append, List.splitOn_append_cons_self,
      splitOn_pathOf ha]
  rw [fileAt, hsplit] at hf
  obtain ⟨ls, k, hls⟩ := (List.eq_nil_or_concat' (rest.splitOn '/')).resolve_left
    (List.splitOn_ne_nil '/' rest)
  rw [hls, ← List.append_assoc, Hierarchy.find_concat, Hierarchy.dirAt_append] at hf
  obtain ⟨d, hd, -⟩ := Option.bind_eq_some_iff.mp hf
  obtain ⟨d', hd', -⟩ := Option.bind_eq_some_iff.mp hd
  rw [baseDir, Option.bind_some, hd']
  rfl

end Trees

/-! ## The change set of a merge -/

section Delta

variable {H : Type} [DecidableEq H]

theorem mem_mergeDelta_files {target merged : GoMap (Entry H)} {f : PushFile H} :
    f ∈ (mergeDelta target merged).1 ↔ ∃ p e, merged.lookup p = some e ∧
      (∀ old ∈ target.lookup p, ¬ (old.hash = e.hash ∧ old.mode = e.mode)) ∧
      f = ⟨p, e.mode, e.sizeBytes, e.isBinary, e.encoding, e.hash, e.chunkHashes⟩ := by
  rw [mergeDelta]
  simp only [List.mem_map, List.mem_filter]
  constructor
  · rintro ⟨⟨p, e⟩, ⟨hmem, hnew⟩, rfl⟩
    refine ⟨p, e, AList.mem_lookup_iff.mpr hmem, ?_, rfl⟩
    rintro old hold ⟨hh, hm⟩
    rw [Option.mem_def] at hold
    simp [hold, hh, hm] at hnew
  · rintro ⟨p, e, hlookup, hnew, rfl⟩
    refine ⟨⟨p, e⟩, ⟨AList.mem_lookup_iff.mp hlookup, ?_⟩, rfl⟩
    rcases hold : target.lookup p with _ | old
    · simp
    · have hdiffer := not_and_or.mp (hnew old hold)
      simpa using hdiffer

theorem mem_mergeDelta_removed {target merged : GoMap (Entry H)} {p : Str} :
    p ∈ (mergeDelta target merged).2 ↔
      (target.lookup p).isSome ∧ merged.lookup p = none := by
  rw [mergeDelta]
  simp only [List.mem_insertionSort, List.mem_filter, Option.isNone_iff_eq_none,
    AList.lookup_isSome, AList.mem_keys]

theorem mergeDelta_paths {target merged : GoMap (Entry H)} {p : Str} :
    p ∈ (mergeDelta target merged).1.map PushFile.path ↔ ∃ e, merged.lookup p = some e ∧
      ∀ old ∈ target.lookup p, ¬ (old.hash = e.hash ∧ old.mode = e.mode) := by
  rw [List.mem_map]
  constructor
  · rintro ⟨f, hf, rfl⟩
    obtain ⟨p, e, he, hnew, rfl⟩ := mem_mergeDelta_files.mp hf
    exact ⟨e, he, hnew⟩
  · rintro ⟨e, he, hnew⟩
    exact ⟨_, mem_mergeDelta_files.mpr ⟨p, e, he, hnew, rfl⟩, rfl⟩

theorem lookup_target_of_merged {target merged : GoMap (Entry H)} {p : Str}
    (hm : (merged.lookup p).isSome)
    (hp : p ∉ (mergeDelta target merged).1.map PushFile.path) :
    (target.lookup p).isSome := by
  obtain ⟨e, he⟩ := Option.isSome_iff_exists.mp hm
  rcases hold : target.lookup p with _ | old
  · exact absurd (mergeDelta_paths.mpr ⟨e, he, by simp [hold]⟩) hp
  · rfl

variable [HashScheme H] {db : DB H}

theorem requestOK_mergeDelta {target merged : GoMap (Entry H)}
    (htarget : ∀ p, ∀ e ∈ target.lookup p, EntryOK p e)
    (hmerged : ∀ p, ∀ e ∈ merged.lookup p, EntryOK p e) :
    RequestOK (mergeDelta target merged).1 (mergeDelta target merged).2 := by
  constructor
  · rintro p (hp | hp)
    · obtain ⟨e, he, -⟩ := mergeDelta_paths.mp hp
      obtain ⟨segs, hne, hall, heq⟩ := (hmerged p e he).path_ok
      exact ⟨segs, hne, hall, Or.inl heq⟩
    · obtain ⟨e, he⟩ := Option.isSome_iff_exists.mp (mem_mergeDelta_removed.mp hp).1
      obtain ⟨segs, hne, hall, heq⟩ := (htarget p e he).path_ok
      exact ⟨segs, hne, hall, Or.inl heq⟩
  · intro f hf
    obtain ⟨p, e, he, -, rfl⟩ := mem_mergeDelta_files.mp hf
    exact (hmerged p e he).hash_ok

omit [DecidableEq H] in
theorem EntryOK.filedAt {p : Str} {e : Entry H} (h : EntryOK p e) {addr : List Str} :
    FiledAt p addr ↔ p = pathOf addr := by
  rw [FiledAt]
  constructor
  · rintro (heq | ⟨-, heq⟩)
    · exact heq
    · obtain ⟨segs, -, hall, rfl⟩ := h.path_ok
      exact absurd (by rw [heq]; rfl) (pathOf_head?_ne fun n hn => (hall n hn).1)
  · exact Or.inl

variable {target merged : GoMap (Entry H)} {row : TreeRow H}

theorem fileLeft_mergeDelta (htarget : Flattens db row target) (hs : db.StoreShape)
    (hmerged : ∀ p, ∀ e ∈ merged.lookup p, EntryOK p e) {addr : List Str}
    (ha : ValidSegs addr) :
    FileLeft db (some row) (mergeDelta target merged).1 (mergeDelta target merged).2 addr ↔
      (merged.lookup (pathOf addr)).isSome := by
  constructor
  · rintro (⟨f, hf, hfiled⟩ | ⟨hbase, hkept⟩)
    · obtain ⟨p, e, he, -, rfl⟩ := mem_mergeDelta_files.mp hf
      rw [← (hmerged p e he).filedAt.mp hfiled, he]
      rfl
    · rw [← htarget.baseFind_isSome ha] at hbase
      rw [← Option.ne_none_iff_isSome]
      intro hnone
      exact hkept _ (mem_mergeDelta_removed.mpr ⟨hbase, hnone⟩) (Or.inl rfl)
  · intro hm
    by_cases hp : pathOf addr ∈ (mergeDelta target merged).1.map PushFile.path
    · obtain ⟨f, hf, heq⟩ := List.mem_map.mp hp
      exact Or.inl ⟨f, hf, Or.inl heq⟩
    · refine Or.inr ⟨(htarget.baseFind_isSome ha).mp (lookup_target_of_merged hm hp), ?_⟩
      intro r hr hfiled
      obtain ⟨hold, hnone⟩ := mem_mergeDelta_removed.mp hr
      obtain ⟨e, he⟩ := Option.isSome_iff_exists.mp hold
      rw [(htarget.entryOK hs e he).filedAt.mp hfiled] at hnone
      rw [hnone] at hm
      simp at hm

theorem dirLeft_mergeDelta (htarget : Flattens db row target)
    {addr : List Str} (ha : ValidSegs addr) :
    DirLeft db (some row) (mergeDelta target merged).1 (mergeDelta target merged).2 addr ↔
      (baseDir db (some row) addr).isSome ∨
        ∃ q, (merged.lookup q).isSome ∧ pathOf addr ++ ['/'] <+: q := by
  constructor
  · rintro (hdir | ⟨q, hq | hq, hbelow⟩)
    · exact Or.inl hdir
    · obtain ⟨e, he, -⟩ := mergeDelta_paths.mp hq
      exact Or.inr ⟨q, by rw [he]; rfl, hbelow⟩
    · exact Or.inl (htarget.baseDir_isSome ha (mem_mergeDelta_removed.mp hq).1 hbelow)
  · rintro (hdir | ⟨q, hq, hbelow⟩)
    · exact Or.inl hdir
    · by_cases hp : q ∈ (mergeDelta target merged).1.map PushFile.path
      · exact Or.inr ⟨q, Or.inl hp, hbelow⟩
      · exact Or.inl (htarget.baseDir_isSome ha (lookup_target_of_merged hq hp) hbelow)

end Delta

end Nipa
