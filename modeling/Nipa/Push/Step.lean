import Nipa.Push.BuiltTree

/-!
# One push on the store

Building on a head tree and writing the result takes a well-formed store to a
well-formed store that only grew.  The root row of the new commit reads back,
hash by hash, as the request's effect on the head tree, although its kept
directories, and any directory whose content was stored before, are resolved to
older rows.
-/

namespace Nipa

open Support

/-- A path the server accepts, with names that fit the hashed length field. -/
def PathOK (p : Str) : Prop :=
  ∃ segs, segs ≠ [] ∧ (∀ n ∈ segs, StoredName n) ∧
    (p = pathOf segs ∨ p = '/' :: pathOf segs)

/-- A change set the builder can be given. -/
structure RequestOK {H : Type} [HashScheme H] (files : List (PushFile H))
    (removed : List Str) : Prop where
  path_ok : ∀ p, p ∈ files.map PushFile.path ∨ p ∈ removed → PathOK p
  hash_ok : ∀ f ∈ files, f.fileHash = fileHash f.chunkHashes

/-! ## Names of accepted paths -/

theorem PathOK.storedName_of_mem_splitOn {p : Str} (hp : PathOK p) {n : Str}
    (hn : n ∈ p.splitOn '/') (hne : n ≠ []) : StoredName n := by
  obtain ⟨segs, hsegs, hall, hp | hp⟩ := hp
  · rw [hp, pathOf, splitOn_joinWith (fun m hm => (hall m hm).1.2) hsegs] at hn
    exact hall n hn
  · have hsplit : p.splitOn '/' = [] :: segs := by
      have hcons : p = [] ++ '/' :: joinWith '/' segs := hp
      rw [hcons, List.splitOn_append_cons_self,
        splitOn_joinWith (fun m hm => (hall m hm).1.2) hsegs]
      rfl
    rw [hsplit] at hn
    rcases List.mem_cons.mp hn with rfl | hn
    · exact absurd rfl hne
    · exact hall n hn

theorem baseOf_mem_splitOn (p : Str) : baseOf p ∈ p.splitOn '/' := by
  rcases notMem_or_eq_append_cons '/' p with h | ⟨d, n, hn, rfl⟩
  · rw [baseOf, afterLast_of_notMem h, List.splitOn_eq_singleton h]
    exact List.mem_singleton_self _
  · rw [baseOf, afterLast_append_cons hn, List.splitOn_append_cons_self,
      List.splitOn_eq_singleton hn]
    simp

theorem PathOK.baseOf_ne_nil {p : Str} (hp : PathOK p) : baseOf p ≠ [] := by
  obtain ⟨segs, hsegs, hall, hp⟩ := hp
  obtain ⟨ss, n, rfl⟩ := (List.eq_nil_or_concat' segs).resolve_left hsegs
  have hn := (hall n (by simp)).1
  rw [baseOf_spelled hn.2 hp]
  exact hn.1

theorem PathOK.storedName_baseOf {p : Str} (hp : PathOK p) : StoredName (baseOf p) :=
  hp.storedName_of_mem_splitOn (baseOf_mem_splitOn p) hp.baseOf_ne_nil

namespace TreeBuilder

variable {H : Type} {files : List (PushFile H)} {removed : List Str}

/-- A directory built for the request on top of rows of the store. -/
def Rebuilt [DecidableEq H] (db : DB H) (b : TreeBuilder H) (t : PushTreeNode H) : Prop :=
  ∃ depth d base, (∀ row ∈ base, row ∈ db.treeNodes) ∧ StoredName (nodeName d) ∧
    b.BuiltFrom db depth d base t

theorem Rebuilt.files_nodup [DecidableEq H] {db : DB H} {t : PushTreeNode H} {b : TreeBuilder H}
    (h : Rebuilt db b t) : (((builtTree db).files (.inl t)).map Prod.fst).Nodup := by
  obtain ⟨depth, d, base, -, -, hb⟩ := h
  rcases depth with _ | depth
  · exact hb.elim
  · have hmap : ((builtTree db).files (.inl t)).map Prod.fst =
        t.files.map NodeFile.name := by
      simp only [builtTree, List.map_map]
      rfl
    rw [hmap, hb.2.1]
    exact nodeFiles_names_nodup b d _

variable [HashScheme H]

theorem storedName_of_rebuilt (hreq : RequestOK files removed) {d n : Str}
    (hn : ValidName n) (h : joinPath d n ∈ (ofRequest files removed).rebuildDirs) :
    StoredName n := by
  have hbase : baseOf (joinPath d n) = n := baseOf_joinPath hn.2
  rcases mem_rebuildDirs.mp h with hnil | ⟨p, hp, hanc⟩
  · have := length_lt_joinPath (d := d) hn.1
    rw [hnil] at this
    simp at this
  · -- the path continues after the directory with a slash
    have hcont : ∃ r, p = joinPath d n ++ '/' :: r := by
      have hdir : ∃ r, p = dirOf p ++ '/' :: r := by
        rcases notMem_or_eq_append_cons '/' p with hno | ⟨e, m, hm, rfl⟩
        · rw [dirOf, beforeLast_of_notMem hno] at hanc
          rcases mem_addAncestors.mp hanc with heq | ⟨r, heq⟩
          · have := length_lt_joinPath (d := d) hn.1
            rw [heq] at this
            simp at this
          · simp at heq
        · exact ⟨m, by rw [dirOf, beforeLast_append_cons hm]⟩
      obtain ⟨r, hr⟩ := hdir
      rcases mem_addAncestors.mp hanc with heq | ⟨r', heq⟩
      · exact ⟨r, by rw [heq]; exact hr⟩
      · refine ⟨r' ++ '/' :: r, ?_⟩
        rw [hr, heq]
        simp
    obtain ⟨r, hr⟩ := hcont
    apply (hreq.path_ok p hp).storedName_of_mem_splitOn _ hn.1
    rw [hr, List.splitOn_append_cons_self]
    apply List.mem_append_left
    have := baseOf_mem_splitOn (joinPath d n)
    rwa [hbase] at this

section Built

variable [DecidableEq H] {db : DB H}

variable {t : PushTreeNode H}

theorem Rebuilt.child (hs : db.StoreShape) (hreq : RequestOK files removed) {c : PushTreeNode H}
    (h : Rebuilt db (ofRequest files removed) t) (hc : c ∈ t.children) :
    Rebuilt db (ofRequest files removed) c := by
  obtain ⟨depth, d, base, hbase, -, hb⟩ := h
  rcases depth with _ | depth
  · exact hb.elim
  · obtain ⟨-, -, -, hperm, hchildren⟩ := hb
    obtain ⟨hvalid, hin⟩ := mem_immediateSubdirs.mp
      (hperm.mem_iff.mp (List.mem_map_of_mem hc))
    refine ⟨depth, joinPath d c.name, _, childByName_mem hs hbase, ?_, hchildren c hc⟩
    · rw [nodeName_joinPath hvalid]
      exact storedName_of_rebuilt hreq hvalid hin

theorem baseFilesOf_mem (hs : db.StoreShape) {base : Option (TreeRow H)}
    (hbase : ∀ row ∈ base, row ∈ db.treeNodes) {f : File H}
    (hf : f ∈ baseFilesOf db base) : ∃ row ∈ db.files, row.file = f := by
  rcases base with _ | row
  · simp [baseFilesOf] at hf
  · rw [baseFilesOf_some hs (hbase row rfl)] at hf
    obtain ⟨t, _, _, hown⟩ := DB.mem_filesByHash hf
    exact ⟨⟨t.id, f⟩, DB.mem_ownFiles.mp hown, rfl⟩

theorem Rebuilt.nodeOK (hs : db.StoreShape) (hreq : RequestOK files removed)
    (h : Rebuilt db (ofRequest files removed) t) : NodeOK db t := by
  obtain ⟨depth, d, base, hbase, hname, hb⟩ := h
  rcases depth with _ | depth
  · exact hb.elim
  · obtain ⟨htname, hfiles, hkept, -⟩ := hb
    refine ⟨by rwa [htname], ?_, ?_⟩
    · intro f hf
      rw [hfiles] at hf
      rcases mem_nodeFiles hf with ⟨g, hg, rfl⟩ | ⟨g, hg, rfl⟩
      · have hgmem : g ∈ files := (List.mem_filter.mp hg).1
        exact ⟨(hreq.path_ok g.path (Or.inl (List.mem_map_of_mem hgmem))).storedName_baseOf,
          hreq.hash_ok g hgmem⟩
      · obtain ⟨row, hrow, rfl⟩ := baseFilesOf_mem hs hbase hg
        exact ⟨hs.fileName row hrow, hs.fileHash_eq row hrow⟩
    · intro k hk
      have hpair : (k.name, k.hash) ∈ (ofRequest files removed).keptOf d
          (baseChildrenOf db base) := by
        rw [← hkept]
        exact List.mem_map.mpr ⟨k, hk, rfl⟩
      obtain ⟨c, hc, heq⟩ := List.mem_map.mp hpair
      obtain ⟨hkn, hkh⟩ := Prod.mk.inj heq
      have hcmem := (baseChildrenOf_ok hs hbase).1 c (List.mem_filter.mp hc).1
      rw [← hkn]
      exact ⟨hs.treeName c hcmem, c, hcmem, hkh⟩

theorem Rebuilt.subs_nodup (hs : db.StoreShape) {b : TreeBuilder H} (h : Rebuilt db b t) :
    (((builtTree db).subs (.inl t)).map Prod.fst).Nodup := by
  obtain ⟨depth, d, base, hbase, -, hb⟩ := h
  exact BuiltFrom.subs_nodup hs hbase hb

end Built

end TreeBuilder

/-! ## The transaction of a push -/

section Transaction

open TreeBuilder

variable {H : Type} {db db' : DB H} {files : List (PushFile H)} {removed : List Str}
  {headCommit : Option (Commit H)} {root : PushTreeNode H}

/-- The root row of the head commit. -/
def headRow (db : DB H) (headCommit : Option (Commit H)) : Option (TreeRow H) :=
  headCommit.bind fun c => db.treeNodeGet c.treeID

theorem headRow_mem {row : TreeRow H} (h : row ∈ headRow db headCommit) :
    row ∈ db.treeNodes := by
  obtain ⟨c, -, hget⟩ := Option.bind_eq_some_iff.mp h
  exact List.mem_of_find?_eq_some hget

variable [DecidableEq H]

theorem buildNewTree_ok (h : buildNewTree db headCommit files removed = .ok root) :
    root = ((ofRequest files removed).build db (ofRequest files removed).depthBound []
      (headRow db headCommit) 0).1 := by
  rw [buildNewTree] at h
  obtain ⟨base, hbase, hroot⟩ := bind_eq_ok.mp h
  obtain rfl := pure_eq_ok.mp hroot
  rcases headCommit with _ | c
  · obtain rfl := Except.ok.inj hbase
    rfl
  · rw [baseRootOf] at hbase
    simp only [bind_eq_ok, pure_eq_ok, getTreeNode, orError_eq_ok] at hbase
    obtain ⟨row, hrow, rfl⟩ := hbase
    rw [headRow, Option.bind_some, hrow]

theorem buildNewTree_builtFrom (h : buildNewTree db headCommit files removed = .ok root) :
    (ofRequest files removed).BuiltFrom db (ofRequest files removed).depthBound (pathOf [])
      (headRow db headCommit) root := by
  rw [buildNewTree_ok h]
  apply build_builtFrom
  · exact Nat.le_add_right _ _
  · exact Nat.succ_pos _

theorem buildNewTree_rebuilt (h : buildNewTree db headCommit files removed = .ok root) :
    Rebuilt db (ofRequest files removed) root := by
  refine ⟨_, _, _, fun row hrow => headRow_mem hrow, ?_, buildNewTree_builtFrom h⟩
  refine ⟨⟨by decide, by decide⟩, by decide⟩

variable [HashScheme H]

theorem layout_rebuilt (hs : db.StoreShape) (hreq : RequestOK files removed)
    (h : buildNewTree db headCommit files removed = .ok root) :
    ∀ e ∈ layout root, Rebuilt db (ofRequest files removed) e.2 := by
  refine visitOrder_forall (P := Rebuilt db (ofRequest files removed))
    (fun t ht c hc => ht.child hs hreq hc) ?_
  intro e he
  obtain rfl := List.mem_singleton.mp he
  exact buildNewTree_rebuilt h

omit [DecidableEq H] in
theorem buildApplyRequest_head (commitID projectID branchID userID : ID)
    (parentID parent2ID : Option ID) (parentHashes : List H) (message : Str)
    (root : PushTreeNode H) :
    (buildApplyRequest commitID projectID branchID parentID parent2ID parentHashes userID
      message root).nodes.head? =
        some ⟨root.id, finalize root, root.name, root.mode, none⟩ := by
  have hcount : nodeCount root = (nodeCount root - 1) + 1 := by
    rw [nodeCount_eq]
    omega
  rw [buildApplyRequest]
  simp only
  rw [hcount, visitOrder]
  rfl

theorem written_of_apply (hs : db.StoreShape) (hreq : RequestOK files removed)
    (hbuild : buildNewTree db headCommit files removed = .ok root)
    {commitID projectID branchID userID : ID} {parentID parent2ID : Option ID}
    {parentHashes : List H} {message : Str}
    (happly : applyPush db (buildApplyRequest commitID projectID branchID parentID parent2ID
      parentHashes userID message root) = .ok db') :
    ∃ ρ, Written db root projectID db' ρ ∧
      db'.commits = db.commits ++ [commitOf (buildApplyRequest commitID projectID branchID
        parentID parent2ID parentHashes userID message root) (ρ root.id)] ∧
      ∀ c ∈ db.commits, c.id ≠ commitID := by
  have hids : (gather nodeIDsOf root).Nodup := by
    rw [buildNewTree_ok hbuild]
    exact (build_numbered _ db _ _ _ _).2.1
  obtain ⟨ρ, ha⟩ := applyPush_ok happly (layout_ids_nodup hids) (layout_parentsFirst root)
  refine ⟨ρ, ⟨hids, ?_, ha.treeNodes_eq, ha.ids_eq, ha.siblings, ha.files_eq, ha.fileNames,
    ?_⟩, ?_, fun c hc => (ha.commit_new c hc).1⟩
  · intro e he
    exact (layout_rebuilt hs hreq hbuild e he).nodeOK hs hreq
  · intro e he f hf x hx
    refine ha.resolved ⟨f.name, f.mode, f.sizeBytes, f.isBinary, f.encoding, f.hash, e.2.id,
      f.chunkHashes⟩ ?_ x hx
    exact List.mem_flatMap.mpr ⟨e, he, List.mem_map.mpr ⟨f, hf, rfl⟩⟩
  · obtain ⟨first, hfirst, hcommits⟩ := ha.commits_eq
    have hroot : first.id = root.id := by
      rw [buildApplyRequest_head] at hfirst
      rw [← Option.some.inj hfirst]
    rw [hcommits, hroot]

end Transaction

/-! ## Reading the new rows -/

namespace Written

open TreeBuilder

variable {H : Type} [HashScheme H] [DecidableEq H] {db db' : DB H}
  {root : PushTreeNode H} {projectID : ID} {ρ : ID → ID} {b : TreeBuilder H}

variable {e : Option ID × PushTreeNode H}

theorem dirRow_mem (hw : Written db root projectID db' ρ) (he : e ∈ layout root) :
    dirRow ρ e ∈ db'.treeNodes :=
  hw.mem_treeNodes.mpr (Or.inr ⟨e, he, Or.inl rfl⟩)

theorem filesByHash_dir (hw : Written db root projectID db' ρ) (hs : db.StoreShape)
    (hcf : CollisionFree H) (he : e ∈ layout root) (n : Str) (x : H) :
    (∃ f ∈ db'.filesByHash (finalize e.2), f.name = n ∧ f.hash = x) ↔
      ∃ f ∈ e.2.files, f.name = n ∧ f.hash = x := by
  have hs' := hw.storeShape hs
  have hown : (∃ f ∈ db'.ownFiles (ρ e.2.id), f.name = n ∧ f.hash = x) ↔
      ∃ f ∈ e.2.files, f.name = n ∧ f.hash = x := by
    constructor
    · rintro ⟨f, hf, hn, hx⟩
      obtain ⟨nf, hnf, rfl⟩ := (hw.mem_ownFiles_dir hs he).mp hf
      exact ⟨nf, hnf, hn, hx⟩
    · rintro ⟨nf, hnf, hn, hx⟩
      exact ⟨_, (hw.mem_ownFiles_dir hs he).mpr ⟨nf, hnf, rfl⟩, hn, hx⟩
  rw [← hown]
  by_cases hc : db'.hasContent (ρ e.2.id)
  · exact hs'.filesByHash_iff hcf (hw.dirRow_mem he) hc n x
  · rw [hw.hash_of_not_hasContent hs he hc, (hs'.empty_lists_nothing hcf).1]
    rw [DB.hasContent_iff, not_or] at hc
    constructor
    · rintro ⟨f, hf, -⟩
      simp at hf
    · rintro ⟨f, hf, -⟩
      exact absurd ⟨f, hf⟩ hc.1

/-- The subdirectories listed for the hash of a rebuilt directory are its kept
directories and the rebuilt ones, by hash. -/
theorem childrenByHash_dir (hw : Written db root projectID db' ρ) (hs : db.StoreShape)
    (hcf : CollisionFree H) (he : e ∈ layout root) (n : Str) (x : H) :
    (∃ c ∈ db'.childrenByHash (finalize e.2), c.name = n ∧ c.hash = x) ↔
      (∃ k ∈ e.2.keepDirs, k.name = n ∧ k.hash = x) ∨
        ∃ t ∈ e.2.children, t.name = n ∧ finalize t = x := by
  have hs' := hw.storeShape hs
  have hown : (∃ c ∈ db'.ownChildren (ρ e.2.id), c.name = n ∧ c.hash = x) ↔
      (∃ k ∈ e.2.keepDirs, k.name = n ∧ k.hash = x) ∨
        ∃ t ∈ e.2.children, t.name = n ∧ finalize t = x := by
    constructor
    · rintro ⟨c, hc, hn, hx⟩
      rcases (hw.mem_ownChildren_dir hs he).mp hc with ⟨k, hk, rfl⟩ | ⟨t, ht, rfl⟩
      · exact Or.inl ⟨k, hk, hn, hx⟩
      · exact Or.inr ⟨t, ht, hn, hx⟩
    · rintro (⟨k, hk, hn, hx⟩ | ⟨t, ht, hn, hx⟩)
      · exact ⟨_, (hw.mem_ownChildren_dir hs he).mpr (Or.inl ⟨k, hk, rfl⟩), hn, hx⟩
      · exact ⟨_, (hw.mem_ownChildren_dir hs he).mpr (Or.inr ⟨t, ht, rfl⟩), hn, hx⟩
  rw [← hown]
  by_cases hc : db'.hasContent (ρ e.2.id)
  · exact hs'.childrenByHash_iff hcf (hw.dirRow_mem he) hc n x
  · rw [hw.hash_of_not_hasContent hs he hc, (hs'.empty_lists_nothing hcf).2]
    rw [DB.hasContent_iff, not_or] at hc
    constructor
    · rintro ⟨c, hc', -⟩
      simp at hc'
    · rintro ⟨c, hc', -⟩
      exact absurd ⟨c, hc'⟩ hc.2

/-- Hashes and nodes of the built tree that stand for each other. -/
def Stands (db : DB H) (root : PushTreeNode H) (h : H) : PushTreeNode H ⊕ H → Prop
  | .inl t => (∃ p, (p, t) ∈ layout root) ∧ h = finalize t
  | .inr h' => h = h' ∧ ∃ r ∈ db.treeNodes, r.hash = h

variable {n : PushTreeNode H ⊕ H}

theorem fileOf_stands (hw : Written db root projectID db' ρ) (hs : db.StoreShape)
    (hcf : CollisionFree H) (hreb : ∀ e ∈ layout root, Rebuilt db b e.2) {h : H}
    (hst : Stands db root h n) (k : Str) :
    (db'.storeTree.fileOf h k).map File.hash =
      ((builtTree db).fileOf n k).map NodeFile.hash := by
  have hs' := hw.storeShape hs
  rcases n with t | h'
  · obtain ⟨⟨p, he⟩, rfl⟩ := hst
    ext x
    rw [Option.map_eq_some_iff, Option.map_eq_some_iff]
    have hiff := hw.filesByHash_dir hs hcf he k x
    constructor
    · rintro ⟨f, hf, rfl⟩
      obtain ⟨g, hg, heq⟩ := List.mem_map.mp
        ((Hierarchy.fileOf_eq_some_iff hs'.storeTree_distinct).mp hf)
      obtain ⟨rfl, rfl⟩ := Prod.mk.inj heq
      obtain ⟨nf, hnf, hn, hx⟩ := hiff.mp ⟨g, hg, rfl, rfl⟩
      refine ⟨nf, (listed_eq_some_iff (hreb _ he).files_nodup).mpr ?_, hx⟩
      exact List.mem_map.mpr ⟨nf, hnf, by rw [hn]⟩
    · rintro ⟨nf, hnf, rfl⟩
      obtain ⟨g, hg, heq⟩ := List.mem_map.mp
        ((listed_eq_some_iff (hreb _ he).files_nodup).mp hnf)
      obtain ⟨rfl, rfl⟩ := Prod.mk.inj heq
      obtain ⟨f, hf, hn, hx⟩ := hiff.mpr ⟨g, hg, rfl, rfl⟩
      refine ⟨f, (Hierarchy.fileOf_eq_some_iff hs'.storeTree_distinct).mpr ?_, hx⟩
      exact List.mem_map.mpr ⟨f, hf, by rw [hn]⟩
  · obtain ⟨rfl, r, hr, rfl⟩ := hst
    have hold := hw.dir_extends.find_eq hs hs' hcf hr [k]
    rw [Hierarchy.find_singleton, Hierarchy.find_singleton] at hold
    have hinr := find_inr db r.hash [k]
    rw [Hierarchy.find_singleton, Hierarchy.find_singleton] at hinr
    rw [hold, hinr, Option.map_map]
    rfl

theorem subOf_stands (hw : Written db root projectID db' ρ) (hs : db.StoreShape)
    (hcf : CollisionFree H) (hreb : ∀ e ∈ layout root, Rebuilt db b e.2) {h : H}
    (hst : Stands db root h n) (k : Str) :
    Option.Rel (Stands db root) (db'.storeTree.subOf h k) ((builtTree db).subOf n k) := by
  have hs' := hw.storeShape hs
  have hstored : ∀ {h x : H}, (∃ c ∈ db'.childrenByHash h, c.name = k ∧ c.hash = x) →
      db'.storeTree.subOf h k = some x := by
    rintro h x ⟨c, hc, rfl, rfl⟩
    exact (Hierarchy.subOf_eq_some_iff hs'.storeTree_distinct).mpr
      (List.mem_map.mpr ⟨c, hc, rfl⟩)
  rcases n with t | h'
  · obtain ⟨⟨p, he⟩, rfl⟩ := hst
    have hiff := hw.childrenByHash_dir hs hcf he k
    have hnodup := (hreb _ he).subs_nodup hs
    rcases hsub : (builtTree db).subOf (.inl t) k with _ | x
    · -- nothing is listed under the name on either side
      have hnone : db'.storeTree.subOf (finalize t) k = none := by
        rw [Option.eq_none_iff_forall_not_mem]
        intro x hx
        obtain ⟨c, hc, heq⟩ := List.mem_map.mp
          ((Hierarchy.subOf_eq_some_iff hs'.storeTree_distinct).mp hx)
        obtain ⟨hcn, hcx⟩ := Prod.mk.inj heq
        have hnames := listed_eq_none_iff.mp hsub
        rcases (hiff x).mp ⟨c, hc, hcn, hcx⟩ with ⟨d, hd, hn, -⟩ | ⟨d, hd, hn, -⟩
        · apply hnames
          rw [← hn]
          simp only [builtTree, List.map_append, List.map_map]
          exact List.mem_append_left _ (List.mem_map.mpr ⟨d, hd, rfl⟩)
        · apply hnames
          rw [← hn]
          simp only [builtTree, List.map_append, List.map_map]
          exact List.mem_append_right _ (List.mem_map.mpr ⟨d, hd, rfl⟩)
      rw [hnone]
      exact Option.Rel.none
    · rcases List.mem_append.mp ((listed_eq_some_iff hnodup).mp hsub) with hmem | hmem
      · obtain ⟨d, hd, heq⟩ := List.mem_map.mp hmem
        obtain ⟨hn, rfl⟩ := Prod.mk.inj heq
        rw [hstored ((hiff d.hash).mpr (Or.inl ⟨d, hd, hn, rfl⟩))]
        exact Option.Rel.some ⟨rfl, ((hw.nodes_ok _ he).kept_ok d hd).2⟩
      · obtain ⟨d, hd, heq⟩ := List.mem_map.mp hmem
        obtain ⟨hn, rfl⟩ := Prod.mk.inj heq
        rw [hstored ((hiff (finalize d)).mpr (Or.inr ⟨d, hd, hn, rfl⟩))]
        exact Option.Rel.some ⟨⟨_, layout_children he hd⟩, rfl⟩
  · obtain ⟨rfl, r, hr, rfl⟩ := hst
    have hlist := (hw.dir_extends.listing_eq hs hs' hcf hr).2
    have hold : db'.storeTree.subOf r.hash k = db.storeTree.subOf r.hash k := by
      rw [Hierarchy.subOf, Hierarchy.subOf]
      simp only [DB.storeTree, hlist]
    rw [subOf_inr, hold]
    rcases hx : db.storeTree.subOf r.hash k with _ | x
    · exact Option.Rel.none
    · refine Option.Rel.some ⟨rfl, ?_⟩
      obtain ⟨c, hc, heq⟩ := List.mem_map.mp
        ((Hierarchy.subOf_eq_some_iff hs.storeTree_distinct).mp hx)
      obtain ⟨-, rfl⟩ := Prod.mk.inj heq
      obtain ⟨_, _, _, hown⟩ := DB.mem_childrenByHash hc
      exact ⟨c, (DB.mem_ownChildren.mp hown).1, rfl⟩

omit [DecidableEq H] in
theorem stands_root (db : DB H) (root : PushTreeNode H) :
    Stands db root (finalize root) (.inl root) :=
  ⟨⟨none, root_mem_layout root⟩, rfl⟩

theorem find_hash_eq (hw : Written db root projectID db' ρ) (hs : db.StoreShape)
    (hcf : CollisionFree H) (hreb : ∀ e ∈ layout root, Rebuilt db b e.2) {h : H}
    (hst : Stands db root h n) (segs : List Str) :
    (db'.storeTree.find h segs).map File.hash =
      ((builtTree db).find n segs).map NodeFile.hash := by
  refine Hierarchy.find_eq_of_sim db'.storeTree (builtTree db) File.hash NodeFile.hash
    (Stands db root) ?_ ?_ hst segs
  · intro h n hst k
    exact hw.fileOf_stands hs hcf hreb hst k
  · intro h n hst k
    exact hw.subOf_stands hs hcf hreb hst k

theorem dirAt_isSome_iff (hw : Written db root projectID db' ρ) (hs : db.StoreShape)
    (hcf : CollisionFree H) (hreb : ∀ e ∈ layout root, Rebuilt db b e.2) {h : H}
    (hst : Stands db root h n) (segs : List Str) :
    (db'.storeTree.dirAt h segs).isSome ↔ ((builtTree db).dirAt n segs).isSome := by
  have hrel := Hierarchy.dirAt_rel_of_sim db'.storeTree (builtTree db) (Stands db root)
    (fun _ _ hst k => hw.subOf_stands hs hcf hreb hst k) hst segs
  generalize db'.storeTree.dirAt h segs = x at hrel
  generalize (builtTree db).dirAt n segs = y at hrel
  rcases hrel with _ | _
  · simp
  · simp

theorem bounded_dir (hw : Written db root projectID db' ρ) (hs : db.StoreShape)
    (hcf : CollisionFree H) {d : ℕ}
    (hd : ∀ r ∈ db.treeNodes, db.storeTree.Bounded d r.hash)
    (t : PushTreeNode H) (p : Option ID) (he : (p, t) ∈ layout root) :
    db'.storeTree.Bounded (d + nodeCount t) (finalize t) := by
  have hs' := hw.storeShape hs
  induction hcount : nodeCount t using Nat.strongRecOn generalizing t p with
  | ind k ih =>
      have hpos : k = 1 + (t.children.map nodeCount).sum := by rw [← hcount, nodeCount_eq]
      obtain ⟨m, rfl⟩ : ∃ m, k = m + 1 := ⟨k - 1, by omega⟩
      intro s hmem
      obtain ⟨c, hc, rfl⟩ := List.mem_map.mp hmem
      rcases (hw.childrenByHash_dir hs hcf he c.name c.hash).mp ⟨c, hc, rfl, rfl⟩ with
        ⟨kept, hkept, -, hh⟩ | ⟨t', ht', -, hh⟩
      · obtain ⟨r, hr, hrh⟩ := ((hw.nodes_ok _ he).kept_ok kept hkept).2
        have hb := hw.dir_extends.bounded hs hs' hcf hr (hd r hr)
        rw [hrh, hh] at hb
        exact hb.mono (Nat.le_add_right d m)
      · have hle : nodeCount t' ≤ (t.children.map nodeCount).sum :=
          List.le_sum_of_mem (List.mem_map_of_mem ht')
        have hb := ih (nodeCount t') (by omega) t' _ (layout_children he ht') rfl
        rw [hh] at hb
        have hdepth : d + nodeCount t' ≤ d + m := by omega
        exact hb.mono hdepth

end Written

/-! ## The step as a whole -/

section Commit

open TreeBuilder

variable {H : Type} [HashScheme H] [DecidableEq H]

/-- A commit `c` with the request's effect on the tree of `headCommit` was added. -/
structure Committed (db : DB H) (headCommit : Option (Commit H)) (files : List (PushFile H))
    (removed : List Str) (db' : DB H) (c : Commit H) : Prop where
  inv : db'.StoreInv
  ext : db.Extends db'
  commits_eq : db'.commits = db.commits ++ [c]
  reads : ∃ row ∈ db'.treeNodes, row.id = c.treeID ∧ ∀ segs, ValidSegs segs →
    (db'.storeTree.find row.hash segs).map File.hash =
      (updated files removed segs (baseFind db (headRow db headCommit) segs)).map
        NodeFile.hash

theorem committed_of_apply {db db' : DB H} (hinv : db.StoreInv) (hcf : CollisionFree H)
    {files : List (PushFile H)} {removed : List Str} (hreq : RequestOK files removed)
    {headCommit : Option (Commit H)} {root : PushTreeNode H}
    (hbuild : buildNewTree db headCommit files removed = .ok root)
    {commitID projectID branchID userID : ID} {parentID parent2ID : Option ID}
    {parentHashes : List H} {message : Str}
    (happly : applyPush db (buildApplyRequest commitID projectID branchID parentID parent2ID
      parentHashes userID message root) = .ok db') :
    ∃ treeID, Committed db headCommit files removed db' (commitOf (buildApplyRequest commitID
      projectID branchID parentID parent2ID parentHashes userID message root) treeID) := by
  have hs := hinv.toStoreShape
  obtain ⟨ρ, hw, hcommits, hfresh⟩ := written_of_apply hs hreq hbuild happly
  have hs' := hw.storeShape hs
  have hreb := layout_rebuilt hs hreq hbuild
  have hroot := hw.dirRow_mem (root_mem_layout root)
  refine ⟨ρ root.id, ⟨hs', ?_, ?_, ?_⟩, hw.dir_extends, hcommits, ?_⟩
  · obtain ⟨d, hd⟩ := hinv.bounded
    refine ⟨d + nodeCount root, ?_⟩
    intro t ht
    rcases hw.mem_treeNodes.mp ht with hold | ⟨e, he, rfl | ⟨k, hk, rfl⟩⟩
    · exact (hw.dir_extends.bounded hs hs' hcf hold (hd t hold)).mono (by omega)
    · refine (hw.bounded_dir hs hcf hd e.2 e.1 he).mono ?_
      have := nodeCount_le_root he
      omega
    · obtain ⟨r, hr, hrh⟩ := ((hw.nodes_ok e he).kept_ok k hk).2
      have hb := hw.dir_extends.bounded hs hs' hcf hr (hd r hr)
      rw [hrh] at hb
      exact hb.mono (by omega)
  · intro c hc
    rw [hcommits] at hc
    rcases List.mem_append.mp hc with hc | hc
    · obtain ⟨t, ht, hid⟩ := hinv.commit_tree c hc
      exact ⟨t, hw.dir_extends.mem_treeNodes ht, hid⟩
    · rw [List.mem_singleton.mp hc]
      exact ⟨_, hroot, rfl⟩
  · rw [hcommits, List.map_append, List.nodup_append]
    refine ⟨hinv.commit_ids, List.nodup_singleton _, ?_⟩
    intro x hx y hy
    obtain ⟨c, hc, rfl⟩ := List.mem_map.mp hx
    rw [List.map_singleton, List.mem_singleton] at hy
    rw [hy]
    exact hfresh c hc
  · refine ⟨_, hroot, rfl, ?_⟩
    intro segs hsegs
    have hbuilt := find_builtFrom hs (fun row hrow => headRow_mem hrow)
      (buildNewTree_builtFrom hbuild) (by simp) hsegs
    rw [List.nil_append] at hbuilt
    rw [← hbuilt]
    exact hw.find_hash_eq hs hcf hreb (Written.stands_root db root) segs

end Commit

end Nipa
