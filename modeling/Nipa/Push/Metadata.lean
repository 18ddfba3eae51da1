import Nipa.Push.Placement

/-!
# Metadata of pushed files

The tree hash covers names and content hashes, not the mode, the size, the
binary flag or the encoding, and a directory is read from the oldest row with
its hash.  What is read back is therefore the metadata that was stored the
first time a directory with that content was written.  A push keeps metadata
when every directory it leaves agrees, on metadata, with the directories of the
same content stored before it or written along with it.
-/

namespace Nipa

open Support TreeBuilder

/-- What is stored of a file besides its name and content. -/
structure FileMeta where
  mode : ℕ
  isBinary : Bool
  encoding : Str
  sizeBytes : ℤ
  deriving DecidableEq

section Meta

variable {H : Type}

def fileMeta (f : File H) : FileMeta :=
  ⟨f.mode, f.isBinary, f.encoding, f.sizeBytes⟩

def nodeMeta (f : NodeFile H) : FileMeta :=
  ⟨f.mode, f.isBinary, f.encoding, f.sizeBytes⟩

def pushMeta (f : PushFile H) : FileMeta :=
  ⟨f.mode, f.isBinary, f.encoding, f.sizeBytes⟩

def entryMeta (e : Entry H) : FileMeta :=
  ⟨e.mode, e.isBinary, e.encoding, e.sizeBytes⟩

variable [DecidableEq H]

/-- The file a request leaves at an address. -/
def newFile (db : DB H) (head : Option (TreeRow H)) (files : List (PushFile H))
    (removed : List Str) (addr : List Str) : Option (NodeFile H) :=
  updated files removed addr (baseFind db head addr)

/-! ## The condition -/

/-- Below `ds` the request leaves the content of the stored directory `h`: the
same files, by content, and the same subdirectories. -/
def MatchesStored (db : DB H) (head : Option (TreeRow H)) (files : List (PushFile H))
    (removed : List Str) (ds : List Str) (h : H) : Prop :=
  ∀ segs, ValidSegs segs →
    (newFile db head files removed (ds ++ segs)).map NodeFile.hash =
      (db.storeTree.find h segs).map File.hash ∧
    (DirLeft db head files removed (ds ++ segs) ↔ (db.storeTree.dirAt h segs).isSome)

/-- The request leaves the same content below `ds` and below `ds'`. -/
def MatchesNew (db : DB H) (head : Option (TreeRow H)) (files : List (PushFile H))
    (removed : List Str) (ds ds' : List Str) : Prop :=
  ∀ segs, ValidSegs segs →
    (newFile db head files removed (ds ++ segs)).map NodeFile.hash =
      (newFile db head files removed (ds' ++ segs)).map NodeFile.hash ∧
    (DirLeft db head files removed (ds ++ segs) ↔
      DirLeft db head files removed (ds' ++ segs))

/-- Directories of one content carry one metadata. -/
structure MetaAgrees (db : DB H) (head : Option (TreeRow H)) (files : List (PushFile H))
    (removed : List Str) : Prop where
  stored : ∀ ds, (∀ m ∈ ds, ValidName m) → ∀ row ∈ db.treeNodes,
    MatchesStored db head files removed ds row.hash →
      ∀ n, ∀ nf ∈ newFile db head files removed (ds ++ [n]),
        ∀ f ∈ db.storeTree.fileOf row.hash n, nodeMeta nf = fileMeta f
  within : ∀ ds, (∀ m ∈ ds, ValidName m) → ∀ ds', (∀ m ∈ ds', ValidName m) →
    MatchesNew db head files removed ds ds' →
      ∀ n, ∀ nf ∈ newFile db head files removed (ds ++ [n]),
        ∀ nf' ∈ newFile db head files removed (ds' ++ [n]), nodeMeta nf = nodeMeta nf'

/-- Directories of one content agree on the part of the metadata that `μ` takes. -/
structure AgreesOn {α : Type} (μ : FileMeta → α) (db : DB H) (head : Option (TreeRow H))
    (files : List (PushFile H)) (removed : List Str) : Prop where
  stored : ∀ ds, (∀ m ∈ ds, ValidName m) → ∀ row ∈ db.treeNodes,
    MatchesStored db head files removed ds row.hash →
      ∀ n, ∀ nf ∈ newFile db head files removed (ds ++ [n]),
        ∀ f ∈ db.storeTree.fileOf row.hash n, μ (nodeMeta nf) = μ (fileMeta f)
  within : ∀ ds, (∀ m ∈ ds, ValidName m) → ∀ ds', (∀ m ∈ ds', ValidName m) →
    MatchesNew db head files removed ds ds' →
      ∀ n, ∀ nf ∈ newFile db head files removed (ds ++ [n]),
        ∀ nf' ∈ newFile db head files removed (ds' ++ [n]), μ (nodeMeta nf) = μ (nodeMeta nf')

theorem metaAgrees_iff {db : DB H} {head : Option (TreeRow H)} {files : List (PushFile H)}
    {removed : List Str} :
    MetaAgrees db head files removed ↔ AgreesOn id db head files removed :=
  ⟨fun h => ⟨h.stored, h.within⟩, fun h => ⟨h.stored, h.within⟩⟩

end Meta

/-! ## Reading metadata from the new rows -/

section Rows

variable {H : Type} [DecidableEq H] [HashScheme H] {db db' : DB H}
  {files : List (PushFile H)} {removed : List Str} {headCommit : Option (Commit H)}
  {root : PushTreeNode H}

theorem exists_address (hs : db.StoreShape) (hreq : RequestOK files removed)
    (hbuild : buildNewTree db headCommit files removed = .ok root) :
    ∀ e ∈ layout root, ∃ ds, (builtTree db).dirAt (.inl root) ds = some (.inl e.2) := by
  have hall : ∀ e ∈ layout root, Rebuilt db (ofRequest files removed) e.2 ∧
      ∃ ds, (builtTree db).dirAt (.inl root) ds = some (.inl e.2) := by
    refine visitOrder_forall (P := fun t => Rebuilt db (ofRequest files removed) t ∧
      ∃ ds, (builtTree db).dirAt (.inl root) ds = some (.inl t)) ?_ ?_
    · rintro t ⟨hreb, ds, hds⟩ c hc
      refine ⟨hreb.child hs hreq hc, ds ++ [c.name], ?_⟩
      rw [Hierarchy.dirAt_concat, hds, Option.bind_some, Hierarchy.subOf,
        listed_eq_some_iff (hreb.subs_nodup hs)]
      exact List.mem_append_right _ (List.mem_map.mpr ⟨c, hc, rfl⟩)
    · intro e he
      obtain rfl := List.mem_singleton.mp he
      exact ⟨buildNewTree_rebuilt hbuild, [], Hierarchy.dirAt_nil _ _⟩
  exact fun e he => (hall e he).2

theorem find_below (hs : db.StoreShape)
    (hpath : ∀ f ∈ files, Spelled f.path)
    (hbuild : buildNewTree db headCommit files removed = .ok root) {ds : List Str}
    {d : PushTreeNode H ⊕ H} (hd : (builtTree db).dirAt (.inl root) ds = some d)
    {segs : List Str} (hsegs : ValidSegs segs) :
    (builtTree db).find d segs =
      newFile db (headRow db headCommit) files removed (ds ++ segs) := by
  have hds := valid_of_dirAt hs hpath (placed_root hbuild) hd
  have hvalid := hsegs.append_left hds
  rw [← Hierarchy.find_append hd hsegs.1, newFile,
    find_builtFrom hs (fun _ hrow => headRow_mem hrow) (buildNewTree_builtFrom hbuild)
      (by simp) hvalid, List.nil_append]

theorem dirAt_below (hs : db.StoreShape)
    (hpath : ∀ f ∈ files, Spelled f.path)
    (hbuild : buildNewTree db headCommit files removed = .ok root) {ds : List Str}
    {d : PushTreeNode H ⊕ H} (hd : (builtTree db).dirAt (.inl root) ds = some d)
    {segs : List Str} (hsegs : ValidSegs segs) :
    ((builtTree db).dirAt d segs).isSome ↔
      DirLeft db (headRow db headCommit) files removed (ds ++ segs) := by
  have hds := valid_of_dirAt hs hpath (placed_root hbuild) hd
  have hvalid := hsegs.append_left hds
  rw [← dirAt_root_isSome_iff hs hbuild hvalid, Hierarchy.dirAt_append, hd,
    Option.bind_some]

namespace Written

variable {projectID : ID} {ρ : ID → ID} {α : Type} {μ : FileMeta → α}

theorem fileMeta_dir (hw : Written db root projectID db' ρ) (hs : db.StoreShape)
    (hcf : CollisionFree H) (hreq : RequestOK files removed)
    (hpath : ∀ f ∈ files, Spelled f.path)
    (hbuild : buildNewTree db headCommit files removed = .ok root)
    (hmeta : AgreesOn μ db (headRow db headCommit) files removed)
    {e : Option ID × PushTreeNode H} (he : e ∈ layout root) {n : Str} {f : File H}
    (hf : db'.storeTree.fileOf (finalize e.2) n = some f) {nf : NodeFile H}
    (hnf : (builtTree db).fileOf (.inl e.2) n = some nf) :
    μ (nodeMeta nf) = μ (fileMeta f) := by
  have hs' := hw.storeShape hs
  have hreb := layout_rebuilt hs hreq hbuild
  have hroot := placed_root hbuild
  obtain ⟨ds, hds⟩ := exists_address hs hreq hbuild e he
  have hvalid := valid_of_dirAt hs hpath hroot hds
  have hst : Stands db root (finalize e.2) (.inl e.2) := ⟨⟨e.1, he⟩, rfl⟩
  -- the name is valid, so the file is the request's file at the longer address
  have hn : ValidName n :=
    (hroot.reaches hs (Hierarchy.reaches_of_dirAt hds)).valid_of_mem hs hpath
      (List.mem_append_left _ (List.mem_map_of_mem (mem_of_listed hnf)))
  have hsingle : ValidSegs [n] := ⟨by simp, by simpa using hn⟩
  have hnew : nf ∈ newFile db (headRow db headCommit) files removed (ds ++ [n]) := by
    rw [← find_below hs hpath hbuild hds hsingle, Hierarchy.find_singleton]
    exact hnf
  have hmem := (Hierarchy.fileOf_eq_some_iff hs'.storeTree_distinct).mp hf
  obtain ⟨g, hg, heq⟩ := List.mem_map.mp hmem
  obtain ⟨hgn, rfl⟩ := Prod.mk.inj heq
  obtain ⟨t, ht, hth, hown⟩ := DB.mem_filesByHash hg
  rcases hw.mem_treeNodes.mp ht with hold | ⟨e', he', rfl | ⟨k, hk, rfl⟩⟩
  · -- the content was stored before
    have hfold : db.storeTree.fileOf t.hash n = some g := by
      have hsame := hw.dir_extends.find_eq hs hs' hcf hold [n]
      rw [Hierarchy.find_singleton, Hierarchy.find_singleton] at hsame
      rw [← hsame, hth]
      exact hf
    refine hmeta.stored ds hvalid t hold ?_ n nf hnew g hfold
    intro segs hsegs
    constructor
    · rw [← find_below hs hpath hbuild hds hsegs,
        ← hw.dir_extends.find_eq hs hs' hcf hold segs, hth,
        hw.find_hash_eq hs hcf hreb hst segs]
    · rw [← dirAt_below hs hpath hbuild hds hsegs,
        ← hw.dir_extends.dirAt_eq hs hs' hcf hold segs, hth,
        hw.dirAt_isSome_iff hs hcf hreb hst segs]
  · -- another directory of the request has the same content
    obtain ⟨ds', hds'⟩ := exists_address hs hreq hbuild e' he'
    have hvalid' := valid_of_dirAt hs hpath hroot hds'
    have hst' : Stands db root (finalize e.2) (.inl e'.2) := ⟨⟨e'.1, he'⟩, hth.symm⟩
    obtain ⟨nf', hnf', rfl⟩ := (hw.mem_ownFiles_dir hs he').mp hown
    have hnew' : nf' ∈ newFile db (headRow db headCommit) files removed (ds' ++ [n]) := by
      rw [← find_below hs hpath hbuild hds' hsingle, Hierarchy.find_singleton]
      refine (listed_eq_some_iff (hreb e' he').files_nodup).mpr ?_
      exact List.mem_map.mpr ⟨nf', hnf', by rw [← hgn]; rfl⟩
    have hagree := hmeta.within ds hvalid ds' hvalid' ?_ n nf hnew nf' hnew'
    · rw [hagree]
      rfl
    intro segs hsegs
    constructor
    · rw [← find_below hs hpath hbuild hds hsegs, ← find_below hs hpath hbuild hds' hsegs,
        ← hw.find_hash_eq hs hcf hreb hst segs, ← hw.find_hash_eq hs hcf hreb hst' segs]
    · rw [← dirAt_below hs hpath hbuild hds hsegs, ← dirAt_below hs hpath hbuild hds' hsegs,
        ← hw.dirAt_isSome_iff hs hcf hreb hst segs,
        ← hw.dirAt_isSome_iff hs hcf hreb hst' segs]
  · have hc : db'.hasContent (ρ k.id) := DB.hasContent_iff.mpr (Or.inl ⟨g, hown⟩)
    exact absurd hc (hw.kept_not_hasContent hs he' hk)

theorem find_meta_eq (hw : Written db root projectID db' ρ) (hs : db.StoreShape)
    (hcf : CollisionFree H) (hreq : RequestOK files removed)
    (hpath : ∀ f ∈ files, Spelled f.path)
    (hbuild : buildNewTree db headCommit files removed = .ok root)
    (hmeta : AgreesOn μ db (headRow db headCommit) files removed)
    {segs : List Str} (hsegs : ValidSegs segs) :
    (db'.storeTree.find (finalize root) segs).map (fun f => μ (fileMeta f)) =
      (newFile db (headRow db headCommit) files removed segs).map fun nf => μ (nodeMeta nf) := by
  have hs' := hw.storeShape hs
  have hreb := layout_rebuilt hs hreq hbuild
  have hbelow := find_below hs hpath hbuild (Hierarchy.dirAt_nil (builtTree db) (.inl root))
    hsegs
  rw [List.nil_append] at hbelow
  rw [← hbelow]
  refine Hierarchy.find_eq_of_sim db'.storeTree (builtTree db) (fun f => μ (fileMeta f))
    (fun nf => μ (nodeMeta nf)) (Stands db root) ?_
    (fun _ _ hst k => hw.subOf_stands hs hcf hreb hst k) (stands_root db root) segs
  rintro h (t | h') hst n
  · have hhash := hw.fileOf_stands hs hcf hreb hst n
    obtain ⟨⟨p, he⟩, rfl⟩ := hst
    rcases hf : db'.storeTree.fileOf (finalize t) n with _ | f
    · rw [hf, Option.map_none] at hhash
      rw [Option.map_eq_none_iff.mp hhash.symm]
      rfl
    · rw [hf, Option.map_some] at hhash
      obtain ⟨nf, hnf, -⟩ := Option.map_eq_some_iff.mp hhash.symm
      rw [hnf, Option.map_some, Option.map_some,
        hw.fileMeta_dir hs hcf hreq hpath hbuild hmeta he hf hnf]
  · obtain ⟨rfl, r, hr, rfl⟩ := hst
    have hold := hw.dir_extends.find_eq hs hs' hcf hr [n]
    rw [Hierarchy.find_singleton, Hierarchy.find_singleton] at hold
    have hinr := find_inr db r.hash [n]
    rw [Hierarchy.find_singleton, Hierarchy.find_singleton] at hinr
    rw [hold, hinr, Option.map_map]
    rfl

end Written

end Rows

/-! ## Pushes -/

section Push

variable {H : Type} [DecidableEq H]

/-- The root row of the branch a push goes to. -/
def pushHead (db : DB H) (req : PushRequest H) : Option (TreeRow H) :=
  ((db.getBranchByName req.projectID req.branchName).bind Branch.commitID).bind fun id =>
    headRow db (db.getCommit id)

/-- The condition under which a push keeps metadata: the server takes the files
as they were sent, files them at their addresses, and directories of one
content carry one metadata. -/
structure MetadataSettles (db : DB H) (req : PushRequest H) : Prop where
  sent : ∀ f ∈ req.files, servedFile f = f
  filed : PathsFiled db (pushHead db req) req.files req.removed
  agrees : MetaAgrees db (pushHead db req) req.files req.removed

variable [HashScheme H]

/-- Reading the tree row gives the map `m` of metadata by path, at every
sufficient depth. -/
def ReadsMeta (db : DB H) (treeID : ID) (m : Str → Option FileMeta) : Prop :=
  ∃ d, ∀ depth ≥ d, ∃ g, readTree db depth treeID = some g ∧
    ∀ p, (g.lookup p).map entryMeta = m p

theorem ReadsMeta.unique {db : DB H} {treeID : ID} {m m' : Str → Option FileMeta}
    (h : ReadsMeta db treeID m) (h' : ReadsMeta db treeID m') : m = m' := by
  obtain ⟨d, hd⟩ := h
  obtain ⟨d', hd'⟩ := h'
  obtain ⟨g, hg, hm⟩ := hd (max d d') (le_max_left _ _)
  obtain ⟨g', hg', hm'⟩ := hd' (max d d') (le_max_right _ _)
  rw [hg] at hg'
  obtain rfl := Option.some.inj hg'
  funext p
  rw [← hm p, hm' p]

theorem readsMeta_fileAt {db : DB H} (hinv : db.StoreInv) {row : TreeRow H}
    (hr : row ∈ db.treeNodes) :
    ReadsMeta db row.id fun p => (fileAt db row.hash p).map fileMeta := by
  obtain ⟨d, hd⟩ := exists_readTree hinv hr
  refine ⟨d, ?_⟩
  intro depth hdepth
  obtain ⟨g, hg, hlookup⟩ := hd depth hdepth
  refine ⟨g, hg, ?_⟩
  intro p
  rw [hlookup, Option.map_map]
  rfl

/-- What a push keeps of metadata: a pushed path reads as sent, any other path
that is not removed reads as before. -/
structure KeepsMetadata (req : PushRequest H) (old new : Str → Option FileMeta) : Prop where
  pushed : ∀ f ∈ req.files, new (pathOf (addressOf f.path)) = some (pushMeta f)
  others : ∀ p, (∀ q ∈ req.files.map PushFile.path ++ req.removed,
    p ≠ pathOf (addressOf q)) → new p = old p

section Accepted

variable {db db' mid : DB H} {caller : Caller} {commitID userID : ID} {req : PushRequest H}
  {files : List (PushFile H)} {branch : Branch} {headCommit parent2 : Option (Commit H)}
  {lockPlan : PushLockPlan} {root : PushTreeNode H}

theorem Pushed.pushHead_eq
    (h : Pushed db caller commitID req db' files branch userID headCommit parent2 lockPlan
      root mid) : pushHead db req = headRow db headCommit := by
  obtain ⟨hname, -⟩ := openBranch_ok h.opened
  obtain ⟨hheadID, hhead⟩ := headCommitOf_ok h.planned.head_eq
  rw [pushHead, hname, Option.bind_some, hheadID]
  rcases headCommit with _ | c
  · rfl
  · rw [Option.map_some, Option.bind_some, hhead c rfl]

theorem Pushed.exists_written (hinv : db.StoreInv)
    (h : Pushed db caller commitID req db' files branch userID headCommit parent2 lockPlan
      root mid) {c : Commit H} (hc : Committed db headCommit files req.removed mid c) :
    ∃ ρ, Written db root req.projectID mid ρ ∧ c.treeID = ρ root.id := by
  obtain ⟨parentHashes, heq⟩ := toApplyRequest_eq commitID req branch headCommit parent2
    userID root
  have happly := h.applied
  rw [heq] at happly
  obtain ⟨ρ, hw, hcommits, -⟩ := written_of_apply hinv.toStoreShape
    (acceptPush_requestOK h.accepted) h.planned.built happly
  rw [hc.commits_eq] at hcommits
  have hlast := List.singleton_inj.mp (List.append_cancel_left hcommits)
  exact ⟨ρ, hw, by rw [hlast]; rfl⟩

theorem Pushed.fileAt_meta (hinv : db.StoreInv) (hcf : CollisionFree H)
    (h : Pushed db caller commitID req db' files branch userID headCommit parent2 lockPlan
      root mid) {c : Commit H} (hc : Committed db headCommit files req.removed mid c)
    (hmeta : MetaAgrees db (headRow db headCommit) files req.removed)
    {row : TreeRow H} (hr : row ∈ mid.treeNodes) (hid : row.id = c.treeID)
    {segs : List Str} (hsegs : ValidSegs segs) :
    (fileAt mid row.hash (pathOf segs)).map fileMeta =
      (newFile db (headRow db headCommit) files req.removed segs).map nodeMeta := by
  obtain ⟨ρ, hw, htree⟩ := h.exists_written hinv hc
  have hroot := hw.dirRow_mem (root_mem_layout root)
  obtain rfl := hc.inv.eq_of_id_eq hr hroot (hid.trans htree)
  have hpath : ∀ f ∈ files, Spelled f.path := fun f hf =>
    spelled_of_validateRepoPath ((acceptPush_ok h.accepted).2.2.1 f hf).1
  rw [fileAt_pathOf hsegs]
  exact hw.find_meta_eq hinv.toStoreShape hcf (acceptPush_requestOK h.accepted) hpath
    h.planned.built (metaAgrees_iff.mp hmeta) hsegs

theorem served_eq (haccept : acceptPush caller req = .ok files)
    (hsent : ∀ f ∈ req.files, servedFile f = f) : files = req.files := by
  rw [(acceptPush_ok haccept).1, List.map_congr_left hsent, List.map_id']

theorem Pushed.keepsMetadata (hinv : db.StoreInv) (hcf : CollisionFree H)
    (h : Pushed db caller commitID req db' files branch userID headCommit parent2 lockPlan
      root mid) {c : Commit H} (hc : Committed db headCommit files req.removed mid c)
    (hsettle : MetadataSettles db req) {row : TreeRow H} (hr : row ∈ mid.treeNodes)
    (hid : row.id = c.treeID) :
    KeepsMetadata req
      (fun p => (headRow db headCommit).bind fun r => (fileAt db r.hash p).map fileMeta)
      fun p => (fileAt mid row.hash p).map fileMeta := by
  have hserved := served_eq h.accepted hsettle.sent
  subst hserved
  have hagrees := hsettle.agrees
  have hfiled := hsettle.filed
  rw [h.pushHead_eq] at hagrees hfiled
  obtain ⟨-, hnodup, hfiles, hremoved⟩ := acceptPush_ok h.accepted
  have hpath : ∀ p, p ∈ req.files.map PushFile.path ∨ p ∈ req.removed →
      Spelled p := by
    rintro p (hp | hp)
    · obtain ⟨f, hf, rfl⟩ := List.mem_map.mp hp
      exact spelled_of_validateRepoPath (hfiles f hf).1
    · exact spelled_of_validateRepoPath (hremoved p hp).1
  constructor
  · intro f hf
    have hvalid := (addressOf_spelled (hpath f.path (Or.inl (List.mem_map_of_mem hf)))).1
    rw [h.fileAt_meta hinv hcf hc hagrees hr hid hvalid, newFile,
      hfiled.updated_eq hpath hnodup hf]
    rfl
  · intro p hp
    by_cases hsegs : ∃ segs, ValidSegs segs ∧ p = pathOf segs
    · obtain ⟨segs, hvalid, rfl⟩ := hsegs
      rw [h.fileAt_meta hinv hcf hc hagrees hr hid hvalid, newFile, updated_of_not_lands]
      · rw [baseFind]
        rcases headRow db headCommit with _ | r
        · rfl
        · rw [Option.bind_some, Option.bind_some, fileAt_pathOf hvalid, Option.map_map]
          rfl
      · intro q hq hl
        have haddr := ((landsAt_iff_filedAt (hpath q hq) hvalid).mp hl).addressOf_eq hvalid
        exact hp q (List.mem_append.mpr hq) (by rw [haddr])
    · have hnone : ∀ {db : DB H} {r : TreeRow H}, db.StoreShape →
          fileAt db r.hash p = none := by
        intro db r hs
        by_contra hne
        obtain ⟨f, hf⟩ := Option.ne_none_iff_exists'.mp hne
        exact hsegs (validSegs_of_fileAt hs hf)
      rw [hnone hc.inv.toStoreShape]
      rcases headRow db headCommit with _ | r
      · rfl
      · rw [Option.bind_some, hnone hinv.toStoreShape]

end Accepted

/-- The heads before and after a push read as metadata maps that keep what the
push sent. -/
def MetadataKept (db db' : DB H) (req : PushRequest H) : Prop :=
  ∃ (branch branch' : Branch) (c : Commit H) (old new : Str → Option FileMeta),
    db.getBranchByName req.projectID req.branchName = some branch ∧
    (branch.commitID = none ∧ old = (fun _ => none) ∨
      ∃ head, branch.commitID = some head.id ∧ db.getCommit head.id = some head ∧
        ReadsMeta db head.treeID old) ∧
    db'.getBranchByName req.projectID req.branchName = some branch' ∧
    branch'.commitID = some c.id ∧ db'.getCommit c.id = some c ∧
    ReadsMeta db' c.treeID new ∧ KeepsMetadata req old new

/-- In every run of accepted pushes, a push that settles keeps metadata. -/
theorem push_keeps_metadata (hcf : CollisionFree H) {db₀ db db' : DB H}
    (hempty : db₀.Unborn) (hrun : PushRun db₀ db) {caller : Caller} {commitID : ID}
    {req : PushRequest H} (hpush : push db caller commitID req = .ok db')
    (hsettle : MetadataSettles db req) : MetadataKept db db' req := by
  have hinv := (hrun.grows hempty.storeInv hcf).inv'
  have hgrow := push_grows hinv hcf hpush
  obtain ⟨files, branch, userID, headCommit, parent2, plan, root, mid, hp⟩ := push_ok hpush
  obtain ⟨c, hc, hbranch', hget⟩ := hp.new_head hinv hcf
  obtain ⟨row, hr, hid⟩ := hgrow.inv'.commit_tree c (List.mem_of_find?_eq_some hget)
  have hrmid : row ∈ mid.treeNodes := by
    rw [hp.result_eq] at hr
    exact hr
  have hreads := readsMeta_fileAt hgrow.inv' hr
  have hsame : ∀ p, fileAt db' row.hash p = fileAt mid row.hash p := by
    intro p
    rw [hp.result_eq]
    rfl
  simp only [hsame] at hreads
  rw [hid] at hreads
  refine ⟨branch, { branch with commitID := some c.id }, c, _, _,
    (openBranch_ok hp.opened).1, ?_, hbranch', rfl, hget, hreads,
    hp.keepsMetadata hinv hcf hc hsettle hrmid hid⟩
  rcases hp.old_head hinv with ⟨hnone, rfl⟩ | ⟨head, r, rfl, hheadID, hhead, hrm, hrid, hrow⟩
  · exact Or.inl ⟨hnone, rfl⟩
  · refine Or.inr ⟨head, hheadID, hhead, ?_⟩
    have hold := readsMeta_fileAt hinv hrm
    rw [hrid] at hold
    simp only [hrow, Option.bind_some]
    exact hold

variable {db : DB H} {head : Option (TreeRow H)} {files : List (PushFile H)} {removed : List Str}

theorem nodeMeta_newFile {μ : FileMeta} (hs : db.StoreShape)
    (hstored : ∀ r ∈ db.files, fileMeta r.file = μ) (hsent : ∀ f ∈ files, pushMeta f = μ)
    {addr : List Str} {nf : NodeFile H} (hnf : nf ∈ newFile db head files removed addr) :
    nodeMeta nf = μ := by
  rcases Option.or_eq_some_iff.mp hnf with hnf | ⟨-, hnf⟩
  · obtain ⟨f, hf, rfl⟩ := Option.map_eq_some_iff.mp hnf
    exact hsent f (List.mem_reverse.mp (List.mem_of_find?_eq_some hf))
  · split at hnf
    · cases hnf
    · obtain ⟨row, -, hnf⟩ := Option.bind_eq_some_iff.mp hnf
      obtain ⟨f, hf, rfl⟩ := Option.map_eq_some_iff.mp hnf
      obtain ⟨r, hr, rfl⟩ := storeTree_find_file hs hf
      exact hstored r hr

theorem MetaAgrees.of_uniform {μ : FileMeta} (hs : db.StoreShape)
    (hstored : ∀ r ∈ db.files, fileMeta r.file = μ) (hsent : ∀ f ∈ files, pushMeta f = μ) :
    MetaAgrees db head files removed where
  stored ds _ row _ _ n nf hnf f hf := by
    obtain ⟨r, hr, rfl⟩ := storeTree_find_file hs ((Hierarchy.find_singleton _ _ _).trans hf)
    exact (nodeMeta_newFile hs hstored hsent hnf).trans (hstored r hr).symm
  within ds _ ds' _ _ n nf hnf nf' hnf' :=
    (nodeMeta_newFile hs hstored hsent hnf).trans (nodeMeta_newFile hs hstored hsent hnf').symm

end Push

/-! ## A push that only changes a mode -/

/-- A script with a given mode. -/
def modeFile (mode : ℕ) : PushFile IdealHash :=
  ⟨"a.sh".toList, mode, 3, false, encodingRaw, fileHash [demoChunk 1], [demoChunk 1]⟩

/-- The push of the script with a given mode. -/
def modePush (mode : ℕ) (base : TextField ID) : PushRequest IdealHash where
  projectID := 1
  branchName := "main".toList
  baseTreeHash := []
  message := "mode".toList
  files := [modeFile mode]
  removed := []
  parent2CommitHash := .empty
  baseCommitID := base
  paths_fit := by
    change ∀ p ∈ ["a.sh".toList], (utf8 p).length < 2 ^ 32
    decide

def twinPush : PushRequest IdealHash :=
  { modePush 0o644 (.value "7".toList 7) with
    files := [{ modeFile 0o644 with path := "d/b.sh".toList },
      { modeFile 0o644 with path := "e/b.sh".toList }]
    paths_fit := by decide }

theorem push_keeps_metadata_demo :
    ∃ db₁ db₂, push demoStore demoCaller 7 (modePush 0o644 .empty) = .ok db₁ ∧
      push db₁ demoCaller 8 twinPush = .ok db₂ ∧ MetadataKept db₁ db₂ twinPush := by
  obtain ⟨db₁, h₁, hstored, db₂, h₂⟩ : ∃ db₁,
      push demoStore demoCaller 7 (modePush 0o644 .empty) = .ok db₁ ∧
      (∀ r ∈ db₁.files, fileMeta r.file = pushMeta (modeFile 0o644)) ∧
      ∃ db₂, push db₁ demoCaller 8 twinPush = .ok db₂ :=
    ⟨_, rfl, by decide, _, rfl⟩
  have hempty : demoStore.Unborn := ⟨rfl, rfl, rfl⟩
  have hrun := (PushRun.refl demoStore).push h₁
  have hinv := (hrun.grows hempty.storeInv IdealHash.collisionFree).inv'
  have hplain : ∀ f ∈ twinPush.files, f.path.head? ≠ some '/' := by decide
  refine ⟨db₁, db₂, h₁, h₂, push_keeps_metadata IdealHash.collisionFree hempty hrun h₂
    ⟨by decide, ⟨?_, ?_⟩, .of_uniform hinv.toStoreShape hstored (by decide)⟩⟩
  · intro f hf addr _ _ hfp
    exact absurd (congrArg List.head? hfp) (hplain f hf)
  · intro f hf g hg _ hgp
    exact absurd (congrArg List.head? hgp) (hplain g hg)

/-- A push that changes only the mode of a file: the head still reads the old
mode. -/
theorem mode_change_lost :
    ∃ db₁ db₂, push demoStore demoCaller 7 (modePush 0o644 .empty) = .ok db₁ ∧
      push db₁ demoCaller 8 (modePush 0o755 (.value "7".toList 7)) = .ok db₂ ∧
      ¬ MetadataKept db₁ db₂ (modePush 0o755 (.value "7".toList 7)) := by
  obtain ⟨db₁, h₁⟩ : ∃ db₁, push demoStore demoCaller 7 (modePush 0o644 .empty) = .ok db₁ :=
    ⟨_, rfl⟩
  obtain ⟨db₂, h₂⟩ : ∃ db₂,
      push db₁ demoCaller 8 (modePush 0o755 (.value "7".toList 7)) = .ok db₂ := by
    obtain rfl := Except.ok.inj ((rfl : push _ _ _ _ = .ok _).symm.trans h₁)
    exact ⟨_, rfl⟩
  refine ⟨db₁, db₂, h₁, h₂, ?_⟩
  rintro ⟨branch, branch', c, old, new, -, -, -, -, hget, hreads, hkeeps⟩
  have hempty : demoStore.Unborn := ⟨rfl, rfl, rfl⟩
  have hinv₁ := (push_grows hempty.storeInv IdealHash.collisionFree h₁).inv'
  have hinv₂ := (push_grows hinv₁ IdealHash.collisionFree h₂).inv'
  obtain ⟨row, hr, hid⟩ := hinv₂.commit_tree c (List.mem_of_find?_eq_some hget)
  have hmeta := hkeeps.pushed (modeFile 0o755) (List.mem_singleton_self _)
  rw [hreads.unique (hid ▸ readsMeta_fileAt hinv₂ hr)] at hmeta
  -- every row of the store has the one root hash, read from the first row
  have hall : ∀ r ∈ db₂.treeNodes, (fileAt db₂ r.hash "a.sh".toList).map fileMeta =
      some (pushMeta (modeFile 0o644)) := by
    obtain rfl := Except.ok.inj ((rfl : push _ _ _ _ = .ok _).symm.trans h₁)
    obtain rfl := Except.ok.inj ((rfl : push _ _ _ _ = .ok _).symm.trans h₂)
    decide
  have hsame := (hall row hr).symm.trans hmeta
  exact absurd hsame (by decide)

end Nipa
