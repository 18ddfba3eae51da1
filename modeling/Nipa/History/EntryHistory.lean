import Nipa.History.TreeHistory

/-!
# Directory history and path history

The history of a directory compares neighbouring commits in one pass; the log of
a path looks the path up at every commit.  Both read the same trees, but not the
same way: a directory is listed with what it stores, or without what shows
nothing, and the log reads a file before a directory of its name.  They name the
same commit exactly when what last changed the listing changed what the log reads.
-/

namespace Nipa

open Support

/-! ## Compiled filters -/

/-- What holds of a compiled filter; `all` says that it allows every path. -/
structure CompiledFilter (all : Bool) (filter : PathFilter) : Prop where
  descends : Descends filter.allow filter.canDescend
  enters : ∀ addr, ValidSegs addr → filter.allow (pathOf addr) = true →
    filter.canDescend (pathOf addr) = true
  allows : all = true → ∀ p, filter.allow p = true ∧ filter.canDescend p = true

theorem readsAll_allows {isAdmin : Bool} {set : PermissionSet} (h : readsAll isAdmin set = true)
    (p : Str) : (compileFilter isAdmin set permissionRead).allow p = true ∧
      (compileFilter isAdmin set permissionRead).canDescend p = true := by
  rw [compileFilter]
  cases isAdmin with
  | true => exact ⟨rfl, rfl⟩
  | false =>
      have howner : set.orgOwner = true := h
      constructor
      · change set.allow permissionRead p = true
        rw [PermissionSet.allow, PermissionSet.effective, if_pos howner]
        decide
      · change set.canDescend permissionRead p = true
        rw [PermissionSet.canDescend, howner]
        rfl

theorem prefixCanDescend_of_prefixCovers {pre : Str} {addr : List Str} (haddr : ValidSegs addr)
    (h : prefixCovers pre (pathOf addr) = true) : prefixCanDescend pre (pathOf addr) = true := by
  rw [prefixCanDescend]
  split
  · rfl
  · simp only [trimChar_pathOf haddr, h, if_true]
    split
    · rfl
    · rfl

theorem compileFilter_compiled (isAdmin : Bool) (set : PermissionSet) :
    CompiledFilter (readsAll isAdmin set) (compileFilter isAdmin set permissionRead) where
  descends := compileFilter_descends ⟨0, by decide, by decide⟩ isAdmin set
  enters := by
    intro addr haddr hallow
    cases isAdmin with
    | true => rfl
    | false =>
        change set.canDescend permissionRead (pathOf addr) = true
        rw [PermissionSet.canDescend, Bool.or_eq_true, Bool.or_eq_true, List.any_eq_true,
          List.any_eq_true]
        have hbit : SingleBit permissionRead := ⟨0, by decide, by decide⟩
        rcases (PermissionSet.allow_iff hbit).mp hallow with
          ⟨howner, -⟩ | ⟨-, ⟨rule, hmem, hcov, hhas⟩ | ⟨d, hd, hhas⟩⟩
        · exact Or.inl (Or.inl howner)
        · refine Or.inl (Or.inr ⟨rule, hmem, ?_⟩)
          rw [hhas, prefixCanDescend_of_prefixCovers haddr hcov]
          rfl
        · obtain ⟨hmem, hcov⟩ := (set.deepest_spec _).covers d hd
          refine Or.inr ⟨d, hmem, ?_⟩
          rw [hhas, prefixCanDescend_of_prefixCovers haddr hcov]
          rfl
  allows := readsAll_allows

section Views

variable {H : Type} [DecidableEq H] [HashScheme H] {db : DB H} {filter : PathFilter}

/-! ## A directory at a commit -/

/-- The row of a directory at a commit. -/
def dirRowAt (db : DB H) (ds : List Str) (c : Commit H) : Option (TreeRow H) :=
  (db.treeNodeGet c.treeID).bind fun root => descend db root ds

/-- The file at an address of a commit. -/
def fileRowAt (db : DB H) (addr : List Str) (c : Commit H) : Option (File H) :=
  (db.treeNodeGet c.treeID).bind fun root => db.storeTree.find root.hash addr

/-- The directory that the history compares at a commit. -/
def listedDir (db : DB H) (all : Bool) (filter : PathFilter) (ds : List Str) (c : Commit H) :
    Option (TreeNode H) :=
  (dirRowAt db ds c).bind fun row =>
    if all then some (loadShallow db row)
    else (loadTreeManifest db true filter [] db.treeDepth row (pathOf ds)).map rehashed

variable {ds : List Str}

omit [DecidableEq H] [HashScheme H] in
theorem splitPath_pathOf (hds : ∀ m ∈ ds, ValidName m) : splitPath (pathOf ds) = ds := by
  by_cases hnil : ds = []
  · subst hnil
    rfl
  · rw [splitPath, pathOf, splitOn_joinWith (fun n hn => (hds n hn).2) hnil,
      List.filter_eq_self]
    intro n hn
    simpa using (hds n hn).1

theorem trim_pathOf (hds : ∀ m ∈ ds, ValidName m) : trimChar '/' (pathOf ds) = pathOf ds := by
  by_cases hnil : ds = []
  · subst hnil
    rfl
  · exact trimChar_pathOf ⟨hnil, hds⟩

variable {c : Commit H}

theorem exists_root (hinv : db.StoreInv) (hc : c ∈ db.commits) :
    ∃ root ∈ db.treeNodes, db.treeNodeGet c.treeID = some root := by
  obtain ⟨root, hroot, hid⟩ := hinv.commit_tree c hc
  exact ⟨root, hroot, by rw [← hid, hinv.toStoreShape.treeNodeGet_eq hroot]⟩

theorem treeNodeAtCommit_eq (hinv : db.StoreInv) (hc : c ∈ db.commits) (ds : List Str) :
    treeNodeAtCommit db c.id ds = .ok (dirRowAt db ds c) := by
  obtain ⟨root, -, hget⟩ := exists_root hinv hc
  have hcommit : db.getCommit c.id = some c :=
    (find?_key_eq_some_iff hinv.commit_ids).mpr ⟨hc, rfl⟩
  rw [dirRowAt, hget]
  simp only [treeNodeAtCommit, getTreeNode, hcommit, hget, orError, bind, Except.bind]
  rfl

theorem dirManifestAt_eq (hinv : db.StoreInv) (all : Bool) (hds : ∀ m ∈ ds, ValidName m)
    (hc : c ∈ db.commits) :
    dirManifestAt db all filter c.id (pathOf ds) = .ok (listedDir db all filter ds c) := by
  rw [dirManifestAt, splitPath_pathOf hds, treeNodeAtCommit_eq hinv hc, listedDir]
  simp only [bind, Except.bind]
  cases dirRowAt db ds c with
  | none => rfl
  | some row => cases all <;> rfl

variable {row : TreeRow H}

theorem dirRowAt_mem (hinv : db.StoreInv) (h : dirRowAt db ds c = some row) :
    row ∈ db.treeNodes := by
  obtain ⟨root, hroot, hdescend⟩ := Option.bind_eq_some_iff.mp h
  exact (descend_spec hinv.toStoreShape (List.mem_of_find?_eq_some hroot) ds).1 row hdescend

theorem exists_manifest (hinv : db.StoreInv) (filter : PathFilter) (hr : row ∈ db.treeNodes)
    (path : Str) : ∃ t, loadTreeManifest db true filter [] db.treeDepth row path = some t :=
  exists_loadTreeManifest hinv.toStoreShape filter [] hr (hinv.bounded_length hr) path

theorem readableHash_isSome (hinv : db.StoreInv) (filter : PathFilter) (hr : row ∈ db.treeNodes)
    (path : Str) : (readableHash db filter row path).isSome := by
  obtain ⟨t, ht⟩ := exists_manifest hinv filter hr path
  rw [readableHash, ht]
  rfl

/-! ## What the log reads -/

theorem shownAt_pathOf {addr : List Str} (haddr : ∀ m ∈ addr, ValidName m) (c : Commit H) :
    shownAt db filter (pathOf addr) c =
      match fileRowAt db addr c with
      | some file => if filter.allow (pathOf addr) then some file.hash else none
      | none => (dirRowAt db addr c).bind fun row => readableHash db filter row (pathOf addr) := by
  rw [shownAt, fileRowAt, dirRowAt]
  cases db.treeNodeGet c.treeID with
  | none => rfl
  | some root => rw [Option.bind_some, shownHash, splitPath_pathOf haddr]; rfl

theorem fileRowAt_concat (hinv : db.StoreInv) (ds : List Str) (n : Str) (c : Commit H) :
    fileRowAt db (ds ++ [n]) c =
      (dirRowAt db ds c).bind fun row => db.storeTree.fileOf row.hash n := by
  rw [fileRowAt, dirRowAt]
  rcases hroot : db.treeNodeGet c.treeID with _ | root
  · rfl
  · have hmem := List.mem_of_find?_eq_some hroot
    rw [Option.bind_some, Option.bind_some, Hierarchy.find_concat,
      ← (descend_spec hinv.toStoreShape hmem ds).2, Option.bind_map]
    rfl

omit [HashScheme H] in
theorem dirRowAt_concat (ds : List Str) (n : Str) (c : Commit H) :
    dirRowAt db (ds ++ [n]) c =
      (dirRowAt db ds c).bind fun row => db.getTreeChildByName row.id n := by
  rw [dirRowAt, dirRowAt, Option.bind_assoc]
  simp only [descend_concat]

theorem readableHash_eq_iff (hinv : db.StoreInv) (hcf : CollisionFree H) {row' : TreeRow H}
    (hr : row ∈ db.treeNodes) (hr' : row' ∈ db.treeNodes) (hds : ∀ m ∈ ds, ValidName m) :
    readableHash db filter row (pathOf ds) = readableHash db filter row' (pathOf ds) ↔
      ∀ ks, (shown db filter (some row) ds ks).map File.hash =
        (shown db filter (some row') ds ks).map File.hash := by
  have hs := hinv.toStoreShape
  obtain ⟨t, ht⟩ := exists_manifest hinv filter hr (pathOf ds)
  obtain ⟨t', ht'⟩ := exists_manifest hinv filter hr' (pathOf ds)
  rw [readableHash, readableHash, ht, ht', Option.map_some, Option.map_some, Option.some.injEq,
    rehashTree_eq_iff hs hcf ⟨_, row, hr, _, ht⟩ ⟨_, row', hr', _, ht'⟩]
  simp only [manifestTree_find hs hr hds ht, manifestTree_find hs hr' hds ht']
  rfl

theorem readableHash_congr (hinv : db.StoreInv) {row' : TreeRow H} (hr : row ∈ db.treeNodes)
    (hr' : row' ∈ db.treeNodes) (hhash : row.hash = row'.hash) (path : Str) :
    readableHash db filter row path = readableHash db filter row' path := by
  obtain ⟨t, ht⟩ := exists_manifest hinv filter hr path
  obtain ⟨t', ht'⟩ := exists_manifest hinv filter hr' path
  obtain ⟨hfiles, hsubs⟩ := loadTreeManifest_congr hinv.toStoreShape hr hr' hhash ht ht'
  rw [readableHash, readableHash, ht, ht', Option.map_some, Option.map_some, rehashTree_eq,
    rehashTree_eq t', hfiles, hsubs]

/-! ## What the listing shows -/

theorem listedDir_hash (all : Bool) (ds : List Str) (c : Commit H) :
    (listedDir db all filter ds c).map TreeNode.hash =
      (dirRowAt db ds c).bind fun row =>
        if all then some row.hash else readableHash db filter row (pathOf ds) := by
  rw [listedDir]
  cases dirRowAt db ds c with
  | none => rfl
  | some row =>
      rw [Option.bind_some, Option.bind_some]
      cases all with
      | true => rfl
      | false =>
          simp only [Bool.false_eq_true, if_false, readableHash, Option.map_map]
          congr 1
          funext t
          exact rehashed_hash t

/-- The hash under which a subdirectory is listed; one that shows nothing is listed
only to a caller who may read everything. -/
def listedRow (db : DB H) (all : Bool) (filter : PathFilter) (addr : List Str)
    (row : TreeRow H) : Option H :=
  if all then some row.hash
  else ((loadTreeManifest db true filter [] db.treeDepth row (pathOf addr)).filter fun t =>
    !(t.fileChildren.isEmpty && t.treeChildren.isEmpty)).map rehashTree

theorem find?_listTreeChildren (hs : db.StoreShape) (hr : row ∈ db.treeNodes) (n : Str) :
    (db.listTreeChildren row.id).find? (fun c => c.name = n) =
      db.getTreeChildByName row.id n := by
  ext c
  rw [getTreeChildByName_iff hs hr, DB.listTreeChildren, hs.treeNodeGet_eq hr]
  exact find?_key_eq_some_iff (hs.childrenByHash_names_nodup row.hash)

variable {n : Str}

omit [DecidableEq H] [HashScheme H] in
theorem find?_shownFiles (hds : ∀ m ∈ ds, ValidName m) (hn : ValidName n) (files : List (File H)) :
    (files.filter fun f => showsFile filter [] (pathOf ds) f.name).find? (fun f => f.name = n) =
      if filter.allow (pathOf (ds ++ [n])) then files.find? fun f => f.name = n else none := by
  rw [List.find?_filter]
  have hshows : ∀ f ∈ files, (showsFile filter [] (pathOf ds) f.name && decide (f.name = n)) =
      (filter.allow (pathOf (ds ++ [n])) && decide (f.name = n)) := by
    intro f _
    by_cases hname : f.name = n
    · rw [hname, showsFile, joinTreePath_pathOf hds hn]
      simp [PrefixSet.covers]
    · simp [hname]
  split
  next hallow =>
    apply find?_congr_mem
    intro f hf
    have hf' := hshows f hf
    rw [hallow, Bool.true_and] at hf'
    simpa using hf'
  next hhidden =>
    rw [List.find?_eq_none]
    intro f hf
    have hf' := hshows f hf
    rw [Bool.not_eq_true] at hhidden
    rw [hhidden, Bool.false_and] at hf'
    simpa using hf'

theorem blank_of_not_entered (hs : db.StoreShape)
    (hdescends : Descends filter.allow filter.canDescend) {depth : ℕ} (hr : row ∈ db.treeNodes)
    {addr : List Str} (haddr : ValidSegs addr) {t : TreeNode H}
    (ht : loadTreeManifest db true filter [] depth row (pathOf addr) = some t)
    (hclosed : filter.canDescend (pathOf addr) = false) : t.Blank := by
  have hmanifest : IsManifest db filter t := ⟨depth, row, hr, _, ht⟩
  rw [hmanifest.blank_iff hs]
  intro ks
  rw [manifestTree_find hs hr haddr.2 ht, Option.eq_none_iff_forall_not_mem]
  intro f hf
  have hvalid := viewTree_find_valid hs hf
  have hallow := ((viewTree_find_iff hs hdescends haddr.2).mp hf).2.1
  have hbelow : ValidSegs (addr ++ ks) := by
    refine ⟨by simp [haddr.1], ?_⟩
    intro m hm
    rcases List.mem_append.mp hm with hm | hm
    · exact haddr.2 m hm
    · exact hvalid.2 m hm
  rw [hdescends addr ks haddr hbelow hvalid.1 hallow] at hclosed
  cases hclosed

theorem find?_treeChildren (hinv : db.StoreInv)
    (hdescends : Descends filter.allow filter.canDescend) (hr : row ∈ db.treeNodes)
    (hds : ∀ m ∈ ds, ValidName m) (hn : ValidName n) {t : TreeNode H}
    (ht : loadTreeManifest db true filter [] db.treeDepth row (pathOf ds) = some t) :
    (t.treeChildren.find? fun c => c.name = n).map rehashTree =
      (db.getTreeChildByName row.id n).bind (listedRow db false filter (ds ++ [n])) := by
  have hs := hinv.toStoreShape
  have haddr : ValidSegs (ds ++ [n]) := ⟨by simp, validNames_concat hds hn⟩
  obtain ⟨depth, hdepth⟩ : ∃ depth, db.treeDepth = depth + 1 := by
    rcases hdepth : db.treeDepth with _ | depth
    · rw [hdepth, loadTreeManifest] at ht
      cases ht
    · exact ⟨depth, rfl⟩
  have hmem : ∀ {c}, c ∈ t.treeChildren → c.name = n →
      ∃ r, db.getTreeChildByName row.id n = some r ∧
        loadTreeManifest db true filter [] db.treeDepth r (pathOf (ds ++ [n])) = some c ∧
        ¬ c.Blank := by
    intro c hc hname
    obtain ⟨r, hchild, -, hload, hkeep⟩ := (mem_treeChildren_iff hs hr (hdepth ▸ ht)).mp hc
    have hrow := (hs.childrenByHash_mem hchild).1
    have hrname := (loadTreeManifest_row hs hrow hload).1.symm.trans hname
    rw [hrname, joinTreePath_pathOf hds hn] at hload
    exact ⟨r, (getTreeChildByName_iff hs hr).mpr ⟨hchild, hrname⟩,
      loadTreeManifest_mono hs (by omega) hrow hload, hkeep⟩
  rcases hchild : db.getTreeChildByName row.id n with _ | r
  · rw [Option.bind_none, Option.map_eq_none_iff, List.find?_eq_none]
    intro c hc hname
    obtain ⟨r, hr', -⟩ := hmem hc (by simpa using hname)
    rw [hchild] at hr'
    cases hr'
  · obtain ⟨hrchild, hrname⟩ := (getTreeChildByName_iff hs hr).mp hchild
    have hrow := (hs.childrenByHash_mem hrchild).1
    obtain ⟨t', ht'⟩ := exists_manifest hinv filter hrow (pathOf (ds ++ [n]))
    rw [Option.bind_some, listedRow, if_neg (by simp), ht']
    by_cases hblank : t'.Blank
    · have hdrop : Option.filter (fun t : TreeNode H =>
          !(t.fileChildren.isEmpty && t.treeChildren.isEmpty)) (some t') = none := by
        rw [Option.filter_some, if_neg]
        rw [TreeNode.keep_iff]
        exact not_not.mpr hblank
      rw [hdrop, Option.map_none, Option.map_eq_none_iff, List.find?_eq_none]
      intro c hc hname
      obtain ⟨r', hr', hload, hkeep⟩ := hmem hc (by simpa using hname)
      obtain rfl := Option.some.inj (hchild.symm.trans hr')
      obtain rfl := Option.some.inj (ht'.symm.trans hload)
      exact hkeep hblank
    · have hkeep : Option.filter (fun t : TreeNode H =>
          !(t.fileChildren.isEmpty && t.treeChildren.isEmpty)) (some t') = some t' := by
        rw [Option.filter_some, if_pos]
        exact t'.keep_iff.mpr hblank
      have henter : entersDir filter [] (pathOf ds) r.name = true := by
        rw [entersDir, hrname, joinTreePath_pathOf hds hn]
        rcases hclosed : filter.canDescend (pathOf (ds ++ [n])) with _ | _
        · exact absurd (blank_of_not_entered hs hdescends hrow haddr ht' hclosed) hblank
        · simp [PrefixSet.canDescend]
      obtain ⟨ts, hall, -⟩ := (loadTreeManifest_succ_iff hs hr).mp (hdepth ▸ ht)
      obtain ⟨c, -, hload⟩ := forall₂_mem_left hall (List.mem_filter.mpr ⟨hrchild, henter⟩)
      have hlisted : c ∈ t.treeChildren ∧ c = t' := by
        have hload' := hload
        rw [hrname, joinTreePath_pathOf hds hn] at hload'
        have heq := Option.some.inj ((loadTreeManifest_mono hs (by omega) hrow hload').symm.trans
          ht')
        subst heq
        exact ⟨(mem_treeChildren_iff hs hr (hdepth ▸ ht)).mpr
          ⟨r, hrchild, henter, hload, hblank⟩, rfl⟩
      obtain ⟨hc, rfl⟩ := hlisted
      have hcname : c.name = n := (loadTreeManifest_row hs hrow ht').1.trans hrname
      have hfind : (t.treeChildren.find? fun c => c.name = n) = some c :=
        (find?_key_eq_some_iff (manifest_subs_nodup hs hr ht)).mpr ⟨hc, hcname⟩
      rw [hfind, hkeep]

variable {all : Bool}

/-- The listing shows a readable file before a directory of its name, and a stored
directory, or one that shows something. -/
theorem childEntryHash_listedDir (hinv : db.StoreInv) (hfilter : CompiledFilter all filter)
    (hds : ∀ m ∈ ds, ValidName m) (hn : ValidName n) (c : Commit H) :
    childEntryHash (listedDir db all filter ds c) n =
      match (fileRowAt db (ds ++ [n]) c).filter fun _ => filter.allow (pathOf (ds ++ [n])) with
      | some file => some file.hash
      | none => (dirRowAt db (ds ++ [n]) c).bind (listedRow db all filter (ds ++ [n])) := by
  have hs := hinv.toStoreShape
  rw [fileRowAt_concat hinv, dirRowAt_concat, listedDir]
  rcases hdir : dirRowAt db ds c with _ | row
  · rfl
  have hr := dirRowAt_mem hinv hdir
  have hfiles := listFilesByTree_find hs hr n
  simp only [Option.bind_some]
  cases all with
  | true =>
      simp only [if_true, childEntryHash, loadShallow, TreeNode.fileChildren,
        TreeNode.treeChildren]
      rw [hfiles, ← find?_listTreeChildren hs hr, List.find?_map]
      cases db.storeTree.fileOf row.hash n with
      | some file =>
          rw [(hfilter.allows rfl _).1]
          rfl
      | none =>
          rw [Option.filter_none, Option.map_map, Option.map_eq_bind]
          rfl
  | false =>
      obtain ⟨t, ht⟩ := exists_manifest hinv filter hr (pathOf ds)
      have hlisted : t.fileChildren = (db.listFilesByTree row.id).filter fun f =>
          showsFile filter [] (pathOf ds) f.name := by
        rcases hdepth : db.treeDepth with _ | depth
        · rw [hdepth, loadTreeManifest] at ht
          cases ht
        · obtain ⟨ts, -, rfl⟩ := (loadTreeManifest_succ_iff hs hr).mp (hdepth ▸ ht)
          rw [DB.listFilesByTree, hs.treeNodeGet_eq hr]
          rfl
      rw [if_neg (by simp), ht, Option.map_some]
      simp only [childEntryHash, rehashed_fileChildren, rehashed_treeChildren]
      rw [hlisted, find?_shownFiles hds hn, hfiles, List.find?_map, Option.map_map]
      have hsubs := find?_treeChildren hinv hfilter.descends hr hds hn ht
      have hcomp : (t.treeChildren.find? ((fun c => decide (c.name = n)) ∘ rehashed)).map
          (TreeNode.hash ∘ rehashed) =
            (db.getTreeChildByName row.id n).bind (listedRow db false filter (ds ++ [n])) := by
        rw [← hsubs]
        congr 1
        · funext c
          exact rehashed_hash c
        · congr 1
          funext c
          rw [Function.comp_apply, rehashed_name]
      cases db.storeTree.fileOf row.hash n with
      | none =>
          rw [ite_self, Option.filter_none]
          exact hcomp
      | some file =>
          cases hallow : filter.allow (pathOf (ds ++ [n])) with
          | true => rfl
          | false =>
              simp only [Bool.false_eq_true, if_false, Option.filter_some]
              exact hcomp

theorem childEntryHash_of_file (hinv : db.StoreInv) (hfilter : CompiledFilter all filter)
    (hds : ∀ m ∈ ds, ValidName m) (hn : ValidName n) {file : File H}
    (hfile : fileRowAt db (ds ++ [n]) c = some file)
    (hallow : filter.allow (pathOf (ds ++ [n])) = true) :
    childEntryHash (listedDir db all filter ds c) n = some file.hash := by
  rw [childEntryHash_listedDir hinv hfilter hds hn, hfile, hallow]
  rfl

theorem childEntryHash_of_no_file (hinv : db.StoreInv) (hfilter : CompiledFilter all filter)
    (hds : ∀ m ∈ ds, ValidName m) (hn : ValidName n) (hfile : fileRowAt db (ds ++ [n]) c = none) :
    childEntryHash (listedDir db all filter ds c) n =
      (dirRowAt db (ds ++ [n]) c).bind (listedRow db all filter (ds ++ [n])) := by
  rw [childEntryHash_listedDir hinv hfilter hds hn, hfile]
  rfl

/-! ## The directory that is browsed -/

omit [DecidableEq H] in
theorem findBelow_rehashed (t : TreeNode H) (segments : List Str) :
    findBelow (rehashed t) segments = (findBelow t segments).map rehashed := by
  induction segments generalizing t with
  | nil => rfl
  | cons segment segments ih =>
      have hfind : (rehashed t).treeChildren.find? (fun child => child.name = segment) =
          (t.treeChildren.find? fun child => child.name = segment).map rehashed := by
        rw [rehashed_treeChildren, List.find?_map]
        congr 2
        funext c
        rw [Function.comp_apply, rehashed_name]
      rw [findBelow, findBelow, hfind]
      cases t.treeChildren.find? fun child => child.name = segment with
      | none => rfl
      | some next => exact ih next

theorem findBelow_manifest (hs : db.StoreShape) {depth : ℕ} (hr : row ∈ db.treeNodes)
    (hds : ∀ m ∈ ds, ValidName m) {t m : TreeNode H}
    (ht : loadTreeManifest db true filter [] depth row (pathOf ds) = some t) {segments : List Str}
    (hfind : findBelow t segments = some m) :
    ∃ r depth', descend db row segments = some r ∧ depth' ≤ depth ∧
      loadTreeManifest db true filter [] depth' r (pathOf (ds ++ segments)) = some m := by
  induction segments generalizing depth row ds t with
  | nil =>
      obtain rfl := Option.some.inj hfind
      exact ⟨row, depth, rfl, le_rfl, by rwa [List.append_nil]⟩
  | cons segment segments ih =>
      rcases depth with _ | depth
      · rw [loadTreeManifest] at ht
        cases ht
      rw [findBelow] at hfind
      rcases hnext : t.treeChildren.find? (fun child => child.name = segment) with _ | c
      · rw [hnext] at hfind
        cases hfind
      rw [hnext] at hfind
      have hname : c.name = segment := by simpa using List.find?_some hnext
      obtain ⟨r, hchild, -, hload, -⟩ :=
        (mem_treeChildren_iff hs hr ht).mp (List.mem_of_find?_eq_some hnext)
      obtain ⟨hrow, hvalid⟩ := hs.childrenByHash_mem hchild
      have hrname : r.name = segment := (loadTreeManifest_row hs hrow hload).1.symm.trans hname
      rw [joinTreePath_pathOf hds hvalid, hrname] at hload
      rw [hrname] at hvalid
      obtain ⟨r', depth', hdescend, hle, hbelow⟩ :=
        ih hrow (validNames_concat hds hvalid) hload hfind
      refine ⟨r', depth', ?_, by omega, by simpa using hbelow⟩
      rw [descend, (getTreeChildByName_iff hs hr).mpr ⟨hchild, hrname⟩]
      exact hdescend

theorem browsedDir_eq (hinv : db.StoreInv) {isAdmin : Bool} {set : PermissionSet}
    (hds : ∀ m ∈ ds, ValidName m) (hc : c ∈ db.commits) {node : TreeNode H}
    (h : browsedDir db isAdmin set c.id (pathOf ds) = .ok (some node)) :
    listedDir db (readsAll isAdmin set) (compileFilter isAdmin set permissionRead) ds c =
        some node ∧
      (pathOf ds ≠ [] →
        (compileFilter isAdmin set permissionRead).canDescend (pathOf ds) = true) := by
  have hs := hinv.toStoreShape
  obtain ⟨root, hroot, hget⟩ := exists_root hinv hc
  rw [browsedDir] at h
  cases hall : readsAll isAdmin set with
  | true =>
      refine ⟨?_, fun _ => (readsAll_allows hall _).2⟩
      rw [if_pos hall, shallowDirAt, splitPath_pathOf hds, treeNodeAtCommit_eq hinv hc] at h
      simp only [bind, Except.bind, pure, Except.pure] at h
      rw [listedDir]
      rcases hdir : dirRowAt db ds c with _ | row
      · rw [hdir] at h
        cases h
      · rw [hdir] at h
        exact congrArg _ (Option.some.inj (Except.ok.inj h))
  | false =>
      have hmanifest : commitTreeManifest db (compileFilter isAdmin set permissionRead) c.id =
          .ok ((loadTreeManifest db true (compileFilter isAdmin set permissionRead) []
            db.treeDepth root []).map rehashed) := by
        have hcommit : db.getCommit c.id = some c :=
          (find?_key_eq_some_iff hinv.commit_ids).mpr ⟨hc, rfl⟩
        simp only [commitTreeManifest, getTreeNode, hcommit, hget, orError, bind, Except.bind]
        rfl
      obtain ⟨t, ht⟩ := exists_manifest hinv (compileFilter isAdmin set permissionRead) hroot []
      rw [if_neg (by simp [hall]), hmanifest, ht] at h
      simp only [bind, Except.bind, Option.map_some] at h
      rw [listedDir, dirRowAt, hget, Option.bind_some]
      by_cases hpath : pathOf ds = []
      · rw [if_pos hpath] at h
        obtain rfl := (pathOf_eq_nil_iff hds).mp hpath
        obtain rfl := Option.some.inj (Except.ok.inj h)
        refine ⟨?_, fun hne => absurd hpath hne⟩
        rw [descend, Option.bind_some, if_neg (by simp)]
        exact congrArg (Option.map rehashed) ht
      · rw [if_neg hpath] at h
        by_cases hclosed : (compileFilter isAdmin set permissionRead).canDescend (pathOf ds) =
            false
        · rw [refuseIf, if_pos hclosed] at h
          cases h
        · rw [refuseIf, if_neg hclosed] at h
          rw [Bool.not_eq_false] at hclosed
          refine ⟨?_, fun _ => hclosed⟩
          rw [findLoadedTreeNode, Option.bind_some, trim_pathOf hds, splitPath_pathOf hds,
            findBelow_rehashed] at h
          rcases hbelow : findBelow t ds with _ | m
          · rw [hbelow] at h
            cases h
          · rw [hbelow] at h
            obtain rfl := Option.some.inj (Except.ok.inj h)
            obtain ⟨r, depth, hdescend, hle, hload⟩ :=
              findBelow_manifest hs hroot (List.forall_mem_nil ValidName) ht hbelow
            rw [hdescend, Option.bind_some, if_neg (by simp)]
            rw [List.nil_append] at hload
            have hr := (descend_spec hs hroot ds).1 r hdescend
            rw [loadTreeManifest_mono hs hle hr hload]
            rfl

theorem childNames_valid (hinv : db.StoreInv) {node : TreeNode H}
    (h : listedDir db all filter ds c = some node) : ∀ n ∈ childNames node, ValidName n := by
  have hs := hinv.toStoreShape
  obtain ⟨row, hdir, hnode⟩ := Option.bind_eq_some_iff.mp h
  have hr := dirRowAt_mem hinv hdir
  have hnames : (∀ f ∈ node.fileChildren, f ∈ db.filesByHash row.hash) ∧
      ∀ t ∈ node.treeChildren, ∃ r ∈ db.childrenByHash row.hash, t.name = r.name := by
    cases all with
    | true =>
        obtain rfl := Option.some.inj hnode
        simp only [loadShallow, TreeNode.fileChildren, TreeNode.treeChildren,
          DB.listFilesByTree, DB.listTreeChildren, hs.treeNodeGet_eq hr]
        refine ⟨fun f hf => hf, ?_⟩
        intro t ht
        obtain ⟨r, hr', rfl⟩ := List.mem_map.mp ht
        exact ⟨r, hr', rfl⟩
    | false =>
        rw [if_neg (by simp)] at hnode
        obtain ⟨t, ht, rfl⟩ := Option.map_eq_some_iff.mp hnode
        rcases hdepth : db.treeDepth with _ | depth
        · rw [hdepth, loadTreeManifest] at ht
          cases ht
        rw [hdepth] at ht
        rw [rehashed_fileChildren, rehashed_treeChildren]
        constructor
        · obtain ⟨ts, -, rfl⟩ := (loadTreeManifest_succ_iff hs hr).mp ht
          exact fun f hf => (List.mem_filter.mp hf).1
        · intro t' ht'
          obtain ⟨m, hm, rfl⟩ := List.mem_map.mp ht'
          obtain ⟨r, hchild, -, hload, -⟩ := (mem_treeChildren_iff hs hr ht).mp hm
          refine ⟨r, hchild, ?_⟩
          rw [rehashed_name]
          exact (loadTreeManifest_row hs (hs.childrenByHash_mem hchild).1 hload).1
  intro n hn
  rcases List.mem_append.mp hn with hn | hn
  · obtain ⟨f, hf, rfl⟩ := List.mem_map.mp hn
    exact hs.filesByHash_valid (hnames.1 f hf)
  · obtain ⟨t, ht, rfl⟩ := List.mem_map.mp hn
    obtain ⟨r, hr', hname⟩ := hnames.2 t ht
    rw [hname]
    exact (hs.childrenByHash_mem hr').2

theorem canDescend_of_listed (hinv : db.StoreInv) (hfilter : CompiledFilter all filter)
    (hds : ∀ m ∈ ds, ValidName m) {node : TreeNode H} (h : listedDir db all filter ds c = some node)
    (hn : n ∈ childNames node) : filter.canDescend (pathOf (ds ++ [n])) = true := by
  have hs := hinv.toStoreShape
  have hname := childNames_valid hinv h n hn
  obtain ⟨row, hdir, hnode⟩ := Option.bind_eq_some_iff.mp h
  have hr := dirRowAt_mem hinv hdir
  cases hall : all with
  | true => exact (hfilter.allows hall _).2
  | false =>
      rw [hall, if_neg (by simp)] at hnode
      obtain ⟨t, ht, rfl⟩ := Option.map_eq_some_iff.mp hnode
      rcases hdepth : db.treeDepth with _ | depth
      · rw [hdepth, loadTreeManifest] at ht
        cases ht
      rw [hdepth] at ht
      rw [childNames, rehashed_fileChildren, rehashed_treeChildren] at hn
      rcases List.mem_append.mp hn with hn | hn
      · obtain ⟨f, hf, rfl⟩ := List.mem_map.mp hn
        obtain ⟨ts, -, rfl⟩ := (loadTreeManifest_succ_iff hs hr).mp ht
        have hshows := (List.mem_filter.mp hf).2
        rw [showsFile, joinTreePath_pathOf hds hname, Bool.and_eq_true] at hshows
        exact hfilter.enters _ ⟨by simp, validNames_concat hds hname⟩ hshows.1
      · obtain ⟨t', ht', rfl⟩ := List.mem_map.mp hn
        obtain ⟨m, hm, rfl⟩ := List.mem_map.mp ht'
        obtain ⟨r, hchild, henter, hload, -⟩ := (mem_treeChildren_iff hs hr ht).mp hm
        have hrname := (loadTreeManifest_row hs (hs.childrenByHash_mem hchild).1 hload).1
        rw [rehashed_name] at hname ⊢
        rw [← hrname, entersDir, joinTreePath_pathOf hds hname, Bool.and_eq_true] at henter
        exact henter.1

omit [DecidableEq H] [HashScheme H] in
theorem childEntryHash_ne_none {node : TreeNode H} (hn : n ∈ childNames node) :
    childEntryHash (some node) n ≠ none := by
  rw [childEntryHash]
  rcases hfile : node.fileChildren.find? (fun file => file.name = n) with _ | file
  · rw [hfile]
    change ¬ _ = none
    rw [Option.map_eq_none_iff, List.find?_eq_none]
    intro hnone
    rcases List.mem_append.mp hn with hn | hn
    · obtain ⟨f, hf, rfl⟩ := List.mem_map.mp hn
      exact List.find?_eq_none.mp hfile f hf (by simp)
    · obtain ⟨t, ht, rfl⟩ := List.mem_map.mp hn
      exact hnone t ht (by simp)
  · rw [hfile]
    exact Option.some_ne_none _

theorem treeHistory_eq (hinv : db.StoreInv) (hdag : CommitDAG db) {projectID head : ID}
    {chain : List (Commit H)} (hchain : FirstParentChain db head chain)
    (hproject : ∀ c ∈ chain, c.projectID = projectID) (hlen : chain.length ≤ maxTreeHistoryCommits)
    (hds : ∀ m ∈ ds, ValidName m) {node : TreeNode H}
    (hhead : chain.head?.bind (listedDir db all filter ds) = some node) :
    ∃ history, treeHistory db all filter projectID head (pathOf ds) (some node) = .ok history ∧
      history.latest =
        lastChange (fun c => (listedDir db all filter ds c).map TreeNode.hash) chain ∧
      ∀ n ∈ childNames node, history.byPath.lookup (pathOf (ds ++ [n])) =
        lastChange (fun c => childEntryHash (listedDir db all filter ds c) n) chain := by
  have hlog := commitLog_eq hdag hchain hproject maxTreeHistoryCommits
  rw [List.take_of_length_le hlen] at hlog
  obtain ⟨c, -, hnode⟩ := Option.bind_eq_some_iff.mp hhead
  have hvalid := childNames_valid hinv hnode
  have hkeys : KeysDiffer node (pathOf ds) := by
    intro n hn m hm heq
    have hvalidSegs : ∀ k ∈ childNames node, ValidSegs (ds ++ [k]) := fun k hk =>
      ⟨by simp, validNames_concat hds (hvalid k hk)⟩
    rw [joinTreePath_pathOf hds (hvalid n hn), joinTreePath_pathOf hds (hvalid m hm)] at heq
    simpa using pathOf_injective (hvalidSegs n hn) (hvalidSegs m hm) heq
  have hacc : Accounted node (pathOf ds)
      (∅, node.fileChildren.length + node.treeChildren.length) := by
    constructor
    · simp [childNames, AList.keys_empty]
    · simp [AList.keys_empty]
  have hun : Unsettled (chain.head?.bind (listedDir db all filter ds)) node (pathOf ds)
      (⟨none, ∅⟩, node.fileChildren.length + node.treeChildren.length) := by
    rw [hhead]
    exact ⟨fun _ => Option.some_ne_none node, fun n hn _ => childEntryHash_ne_none hn⟩
  obtain ⟨history, hscan, hlatest, hentries⟩ := scanTreeHistory_spec hchain
    (fun id => dirManifestAt db all filter id (pathOf ds))
    (fun c hc => dirManifestAt_eq hinv all hds (hchain.mem_commits c hc)) hkeys hacc hun
  refine ⟨history, ?_, hlatest, ?_⟩
  · rw [treeHistory, hlog]
    rw [hhead] at hscan
    exact hscan
  · intro n hn
    have hn' := hentries n hn
    rw [joinTreePath_pathOf hds (hvalid n hn), AList.lookup_empty, Option.none_or] at hn'
    exact hn'

end Views

end Nipa
