import Nipa.Push.Placement

/-!
# Planned writes

A request works out the rows it will write from one state of the store and
writes them in a later one.  Stored trees are never changed, so the tree built
in the earlier state is the one the later state would build, and the write adds
a commit with that tree.
-/

namespace Nipa

open Support TreeBuilder

section Build

variable {H : Type} [HashScheme H] [DecidableEq H] {db db' : DB H}

variable {base : Option (TreeRow H)}

theorem baseListing_eq (he : db.Extends db') (hs : db.StoreShape) (hs' : db'.StoreShape)
    (hcf : CollisionFree H) (hbase : ∀ row ∈ base, row ∈ db.treeNodes) :
    baseFilesOf db' base = baseFilesOf db base ∧
      baseChildrenOf db' base = baseChildrenOf db base := by
  rcases base with _ | row
  · exact ⟨rfl, rfl⟩
  · have hr := hbase row rfl
    have hr' := he.mem_treeNodes hr
    obtain ⟨hfiles, hchildren⟩ := he.listing_eq hs hs' hcf hr
    rw [baseFilesOf_some hs hr, baseFilesOf_some hs' hr', baseChildrenOf_some hs hr,
      baseChildrenOf_some hs' hr']
    exact ⟨hfiles, hchildren⟩

omit [HashScheme H] [DecidableEq H] in
theorem buildChildren_congr {f g : Str → Option (TreeRow H) → ID → PushTreeNode H × ID}
    {dirPath : Str} {m : GoMap (TreeRow H)}
    (h : ∀ d sub n, f d (m.lookup sub) n = g d (m.lookup sub) n) (subs : List Str)
    (next : ID) :
    buildChildren f dirPath m subs next = buildChildren g dirPath m subs next := by
  induction subs generalizing next with
  | nil => rfl
  | cons sub subs ih => simp only [buildChildren, h, ih]

theorem build_eq_of_extends (b : TreeBuilder H) (he : db.Extends db') (hs : db.StoreShape)
    (hs' : db'.StoreShape) (hcf : CollisionFree H) {depth : ℕ} {d : Str}
    (hbase : ∀ row ∈ base, row ∈ db.treeNodes) (n : ID) :
    b.build db' depth d base n = b.build db depth d base n := by
  induction depth generalizing d base n with
  | zero => rfl
  | succ depth ih =>
      obtain ⟨hfiles, hchildren⟩ := baseListing_eq he hs hs' hcf hbase
      have hsubs : ∀ subs next,
          buildChildren (b.build db' depth) d (childByName (baseChildrenOf db base)) subs next =
            buildChildren (b.build db depth) d (childByName (baseChildrenOf db base)) subs
              next :=
        buildChildren_congr fun _ _ n => ih (childByName_mem hs hbase) n
      simp only [build, hfiles, hchildren, hsubs]

variable {headCommit : Option (Commit H)}

omit [HashScheme H] in
theorem buildNewTree_of_root (h : baseRootOf db headCommit = .ok base) (files : List (PushFile H))
    (removed : List Str) :
    buildNewTree db headCommit files removed = .ok ((ofRequest files removed).build db
      (ofRequest files removed).depthBound [] base 0).1 := by
  rw [buildNewTree, h]
  rfl

theorem baseRootOf_eq (hg : DB.Grows db db') (hhead : ∀ c ∈ headCommit, c ∈ db.commits) :
    ∃ base, (∀ row ∈ base, row ∈ db.treeNodes) ∧ baseRootOf db headCommit = .ok base ∧
      baseRootOf db' headCommit = .ok base := by
  rcases headCommit with _ | c
  · exact ⟨none, by simp, rfl, rfl⟩
  · obtain ⟨row, hr, hid⟩ := hg.inv.commit_tree c (hhead c rfl)
    refine ⟨some row, ?_, ?_, ?_⟩
    · rintro _ ⟨⟩
      exact hr
    · rw [baseRootOf, getTreeNode, ← hid, hg.inv.treeNodeGet_eq hr]
      rfl
    · rw [baseRootOf, getTreeNode, ← hid,
        hg.inv'.treeNodeGet_eq (hg.ext.mem_treeNodes hr)]
      rfl

theorem buildNewTree_eq_of_grows (hg : DB.Grows db db') (hcf : CollisionFree H)
    (hhead : ∀ c ∈ headCommit, c ∈ db.commits) (files : List (PushFile H)) (removed : List Str) :
    buildNewTree db' headCommit files removed = buildNewTree db headCommit files removed := by
  obtain ⟨base, hbase, hroot, hroot'⟩ := baseRootOf_eq hg hhead
  rw [buildNewTree_of_root hroot, buildNewTree_of_root hroot',
    build_eq_of_extends _ hg.ext hg.inv.toStoreShape hg.inv'.toStoreShape hcf hbase]

theorem headRow_eq_of_grows (hg : DB.Grows db db') (hhead : ∀ c ∈ headCommit, c ∈ db.commits) :
    headRow db' headCommit = headRow db headCommit := by
  rcases headCommit with _ | c
  · rfl
  · obtain ⟨row, hr, hid⟩ := hg.inv.commit_tree c (hhead c rfl)
    rw [headRow, headRow, Option.bind_some, Option.bind_some, ← hid,
      hg.inv.treeNodeGet_eq hr, hg.inv'.treeNodeGet_eq (hg.ext.mem_treeNodes hr)]

end Build

section Plan

variable {H : Type} [HashScheme H] [DecidableEq H]

/-- The write request `req` carries the tree of the changes on top of `head`. -/
structure WritePlan (db : DB H) (head : Option (Commit H)) (files : List (PushFile H))
    (removed : List Str) (req : ApplyPushRequest H) : Prop where
  request_ok : RequestOK files removed
  head_stored : ∀ c ∈ head, c ∈ db.commits
  built : ∃ root parentHashes, buildNewTree db head files removed = .ok root ∧
    req = buildApplyRequest req.commitID req.projectID req.branchID req.parentID
      req.parentID2 parentHashes req.userID req.message root

/-- A commit whose tree is known, address by address: which addresses hold a
file and which are directories. -/
structure Landed (db : DB H) (head : Option (Commit H)) (files : List (PushFile H))
    (removed : List Str) (db' : DB H) (c : Commit H) : Prop
    extends Committed db head files removed db' c where
  dirs : ∃ row ∈ db'.treeNodes, row.id = c.treeID ∧ ∀ addr, ValidSegs addr →
    ((db'.storeTree.find row.hash addr).isSome ↔
      FileLeft db (headRow db head) files removed addr) ∧
    ((db'.storeTree.dirAt row.hash addr).isSome ↔
      DirLeft db (headRow db head) files removed addr)

variable {db db' : DB H} {head : Option (Commit H)} {files : List (PushFile H)}
  {removed : List Str} {req : ApplyPushRequest H}

theorem WritePlan.grows (h : WritePlan db head files removed req) (hg : DB.Grows db db')
    (hcf : CollisionFree H) : WritePlan db' head files removed req := by
  obtain ⟨root, parentHashes, hbuild, heq⟩ := h.built
  refine ⟨h.request_ok, ?_, root, parentHashes, ?_, heq⟩
  · intro c hc
    exact hg.commits.subset (h.head_stored c hc)
  · rw [buildNewTree_eq_of_grows hg hcf h.head_stored]
    exact hbuild

theorem WritePlan.landed (h : WritePlan db head files removed req) (hinv : db.StoreInv)
    (hcf : CollisionFree H) (happly : applyPush db req = .ok db') :
    ∃ treeID, Landed db head files removed db' (commitOf req treeID) := by
  obtain ⟨root, parentHashes, hbuild, heq⟩ := h.built
  have hs := hinv.toStoreShape
  rw [heq] at happly
  obtain ⟨treeID, hc⟩ := committed_of_apply hinv hcf h.request_ok hbuild happly
  obtain ⟨ρ, hw, hcommits, -⟩ := written_of_apply hs h.request_ok hbuild happly
  rw [← heq] at hc hcommits
  have hsame : commitOf req treeID = commitOf req (ρ root.id) := by
    have hlast := List.append_cancel_left (hc.commits_eq.symm.trans hcommits)
    exact List.singleton_inj.mp hlast
  have htree : treeID = ρ root.id := congrArg Commit.treeID hsame
  refine ⟨treeID, hc, _, hw.dirRow_mem (root_mem_layout root), htree.symm, ?_⟩
  intro addr ha
  have hreb := layout_rebuilt hs h.request_ok hbuild
  have hspell : ∀ p, p ∈ files.map PushFile.path ∨ p ∈ removed → Spelled p := fun p hp =>
    spelled_of_pathOK (h.request_ok.path_ok p hp)
  constructor
  · rw [← find_root_isSome_iff hs hspell hbuild ha]
    have hfind := hw.find_hash_eq hs hcf hreb (Written.stands_root db root) addr
    have hsome := congrArg Option.isSome hfind
    rw [Option.isSome_map, Option.isSome_map] at hsome
    exact iff_of_eq (congrArg (· = true) hsome)
  · rw [← dirAt_root_isSome_iff hs hbuild ha]
    exact hw.dirAt_isSome_iff hs hcf hreb (Written.stands_root db root) addr

end Plan

end Nipa
