import Nipa.Store.Invariant

/-!
# Reading trees back

A stored tree is loaded into a manifest under a read filter and a sparse set,
and a manifest is flattened into a map from paths to entries.  Loading recurses
over the stored directories, so it carries a bound on their depth; the
flattened manifest is described address by address in terms of the store.
-/

namespace Nipa

open Support

/-- One file of a flattened tree. -/
structure Entry (H : Type) where
  path : Str
  mode : ℕ
  sizeBytes : ℤ
  isBinary : Bool
  encoding : Str
  hash : H
  chunkHashes : List H
  chunkSizes : List ℤ
  deriving DecidableEq

def joinTreePath (parent name : Str) : Str :=
  let name := trimChar '/' name
  if parent = [] then name
  else if name = [] then parent
  else parent ++ '/' :: name

def rootIgnoreFile : Str := ".nipaignore".toList

def keepRootIgnoreFile (path name : Str) (sparse : PrefixSet) : Bool :=
  path = [] && name = rootIgnoreFile && !sparse.isEmpty

section Load

variable {H : Type} [DecidableEq H]

/-- Whether a file is shown. -/
def showsFile (filter : PathFilter) (sparse : PrefixSet) (path name : Str) : Bool :=
  filter.allow (joinTreePath path name) &&
    (sparse.covers (joinTreePath path name) || keepRootIgnoreFile path name sparse)

/-- Whether a directory is entered. -/
def entersDir (filter : PathFilter) (sparse : PrefixSet) (path name : Str) : Bool :=
  filter.canDescend (joinTreePath path name) && sparse.canDescend (joinTreePath path name)

/-- Load the manifest of a directory; children that show nothing are dropped. -/
def loadTreeManifest (db : DB H) (recursive : Bool) (filter : PathFilter)
    (sparse : PrefixSet) : ℕ → TreeRow H → Str → Option (TreeNode H)
  | 0, _, _ => none
  | depth + 1, node, path =>
      let files := (db.listFilesByTree node.id).filter fun f =>
        showsFile filter sparse path f.name
      if recursive then
        let children := (db.listTreeChildren node.id).filter fun c =>
          entersDir filter sparse path c.name
        match children.mapM fun c =>
            loadTreeManifest db recursive filter sparse depth c (joinTreePath path c.name) with
        | none => none
        | some ts => some (.mk node.id node.hash node.name node.mode files
            (ts.filter fun t => !(t.fileChildren.isEmpty && t.treeChildren.isEmpty)))
      else some (.mk node.id node.hash node.name node.mode files [])

end Load

section Flatten

variable {H : Type} [HashScheme H]

/-- The entry of a file; its hash is taken from the chunk list. -/
def entryOf (path : Str) (f : File H) : Entry H where
  path := path
  mode := f.mode
  sizeBytes := f.sizeBytes
  isBinary := f.isBinary
  encoding := f.encoding
  hash := fileHash (f.chunks.map Chunk.hash)
  chunkHashes := f.chunks.map Chunk.hash
  chunkSizes := f.chunks.map Chunk.sizeBytes

/-- The entries written for the files of one directory. -/
def addFileEntries (dir : Str) (files : List (File H)) : List (Entry H) :=
  files.map fun f => entryOf (trimPrefix (dir ++ '/' :: f.name) ['/']) f

mutual

/-- The entries written for a manifest, in the order they are written. -/
def flattenTree : TreeNode H → Str → List (Entry H)
  | .mk _ _ _ _ files trees, pre => addFileEntries pre files ++ flattenTrees trees pre

def flattenTrees : List (TreeNode H) → Str → List (Entry H)
  | [], _ => []
  | t :: ts, pre => flattenTree t (pre ++ '/' :: t.name) ++ flattenTrees ts pre

end

/-- A manifest as a map from paths to entries. -/
def fromTree (root : TreeNode H) : GoMap (Entry H) :=
  GoMap.insertAll Entry.path (fun e => e) ∅ (flattenTree root [])

theorem flattenTrees_eq_flatMap (ts : List (TreeNode H)) (pre : Str) :
    flattenTrees ts pre = ts.flatMap fun t => flattenTree t (pre ++ '/' :: t.name) := by
  induction ts with
  | nil => rw [flattenTrees, List.flatMap_nil]
  | cons t ts ih => rw [flattenTrees, List.flatMap_cons, ih]

theorem flattenTrees_filter (ts : List (TreeNode H)) (pre : Str) :
    flattenTrees (ts.filter fun t => !(t.fileChildren.isEmpty && t.treeChildren.isEmpty))
      pre = flattenTrees ts pre := by
  induction ts with
  | nil => rfl
  | cons t ts ih =>
      rw [List.filter_cons]
      split
      · rw [flattenTrees, flattenTrees, ih]
      next hempty =>
        rw [ih, flattenTrees]
        rcases t with ⟨i, h, n, m, fs, cs⟩
        have hnil : fs = [] ∧ cs = [] := by
          simpa [TreeNode.fileChildren, TreeNode.treeChildren] using hempty
        rw [flattenTree, hnil.1, hnil.2, flattenTrees]
        rfl

end Flatten

/-! ## A filtered tree as a hierarchy -/

section View

variable {H : Type} [DecidableEq H]

/-- The shown part of the store; a node is a directory's address and hash. -/
def viewTree (db : DB H) (filter : PathFilter) (sparse : PrefixSet) :
    Hierarchy Str (List Str × H) (File H) where
  files n := ((db.filesByHash n.2).filter fun f =>
    showsFile filter sparse (pathOf n.1) f.name).map fun f => (f.name, f)
  subs n := ((db.childrenByHash n.2).filter fun c =>
    entersDir filter sparse (pathOf n.1) c.name).map fun c => (c.name, (n.1 ++ [c.name], c.hash))

/-- The prefix under which a directory is flattened. -/
def flattenPrefix (ds : List Str) : Str :=
  if ds = [] then [] else '/' :: pathOf ds

theorem flattenPrefix_concat (ds : List Str) (n : Str) :
    flattenPrefix (ds ++ [n]) = flattenPrefix ds ++ '/' :: n := by
  rw [flattenPrefix, if_neg (by simp), flattenPrefix]
  by_cases h : ds = []
  · rw [if_pos h, h, List.nil_append, pathOf_singleton, List.nil_append]
  · rw [if_neg h, pathOf_concat h, List.cons_append]

theorem trimPrefix_flattenPrefix (ds : List Str) (n : Str) :
    trimPrefix (flattenPrefix ds ++ '/' :: n) ['/'] = pathOf (ds ++ [n]) := by
  rw [← flattenPrefix_concat, flattenPrefix, if_neg (by simp), trimPrefix]
  simp

theorem joinTreePath_pathOf {ds : List Str} (hds : ∀ m ∈ ds, ValidName m) {n : Str}
    (hn : ValidName n) : joinTreePath (pathOf ds) n = pathOf (ds ++ [n]) := by
  have htrim : trimChar '/' n = n := by
    apply trimChar_eq_self
    · intro h
      exact hn.2 (List.mem_of_mem_head? h)
    · intro h
      exact hn.2 (List.mem_of_getLast? h)
  rw [joinTreePath, htrim]
  by_cases h : ds = []
  · subst h
    rw [if_pos pathOf_nil, List.nil_append, pathOf_singleton]
  · rw [if_neg (by rwa [pathOf_eq_nil_iff hds]), if_neg hn.1, pathOf_concat h]

variable {db : DB H} {filter : PathFilter} {sparse : PrefixSet}

variable {h : H}

theorem viewTree_bounded (filter : PathFilter) (sparse : PrefixSet) {d : ℕ}
    (hb : db.storeTree.Bounded d h) (ds : List Str) :
    (viewTree db filter sparse).Bounded d (ds, h) := by
  induction d generalizing h ds with
  | zero => exact hb.elim
  | succ d ih =>
      intro s hmem
      obtain ⟨c, hc, rfl⟩ := List.mem_map.mp hmem
      exact ih (hb (c.name, c.hash) (List.mem_map.mpr ⟨c, (List.mem_filter.mp hc).1, rfl⟩)) _

theorem viewTree_allowAll_find (h : H) (ds segs : List Str) :
    (viewTree db allowAllFilter []).find (ds, h) segs = db.storeTree.find h segs := by
  have hsim := Hierarchy.find_eq_of_sim (viewTree db allowAllFilter []) db.storeTree
    (fun f => f) (fun f => f) (fun n h => n.2 = h) ?_ ?_ (rfl : (ds, h).2 = h) segs
  · simpa using hsim
  · rintro n _ rfl k
    have hfiles : (viewTree db allowAllFilter []).files n = db.storeTree.files n.2 := by
      simp [viewTree, DB.storeTree, showsFile, allowAllFilter, PrefixSet.covers]
    rw [Hierarchy.fileOf, Hierarchy.fileOf, hfiles]
  · rintro n _ rfl k
    have hsubs : (viewTree db allowAllFilter []).subs n =
        (db.childrenByHash n.2).map fun c => (c.name, (n.1 ++ [c.name], c.hash)) := by
      simp [viewTree, entersDir, allowAllFilter, PrefixSet.canDescend]
    rw [Hierarchy.subOf, Hierarchy.subOf, hsubs]
    have hmap : db.storeTree.subs n.2 = ((db.childrenByHash n.2).map
        fun c => (c.name, (n.1 ++ [c.name], c.hash))).map fun e => (e.1, e.2.2) := by
      simp [DB.storeTree]
    rw [hmap, listed_map_snd]
    generalize listed ((db.childrenByHash n.2).map
      fun c => (c.name, (n.1 ++ [c.name], c.hash))) k = m
    rcases m with _ | m
    · exact Option.Rel.none
    · exact Option.Rel.some rfl

/-- The file a tree hash holds at a path. -/
def fileAt (db : DB H) (h : H) (p : Str) : Option (File H) :=
  db.storeTree.find h (p.splitOn '/')

variable {segs : List Str}

theorem fileAt_pathOf (hsegs : ValidSegs segs) :
    fileAt db h (pathOf segs) = db.storeTree.find h segs := by
  rw [fileAt, pathOf, splitOn_joinWith (fun n hn => (hsegs.2 n hn).2) hsegs.1]

variable [HashScheme H]

theorem DB.StoreShape.childrenByHash_mem (hs : db.StoreShape) {c : TreeRow H}
    (hc : c ∈ db.childrenByHash h) : c ∈ db.treeNodes ∧ ValidName c.name := by
  obtain ⟨_, _, _, hown⟩ := DB.mem_childrenByHash hc
  have hmem := (DB.mem_ownChildren.mp hown).1
  exact ⟨hmem, (hs.treeName c hmem).1⟩

variable {f : File H}

theorem DB.StoreShape.filesByHash_valid (hs : db.StoreShape) (hf : f ∈ db.filesByHash h) :
    ValidName f.name := by
  obtain ⟨_, _, _, hown⟩ := DB.mem_filesByHash hf
  exact (hs.fileName _ (DB.mem_ownFiles.mp hown)).1

/-- The manifest of a directory shows the files `l` below the address `ds`. -/
def LoadsAs (db : DB H) (filter : PathFilter) (sparse : PrefixSet) (depth : ℕ)
    (row : TreeRow H) (ds : List Str) (l : List (List Str × File H)) : Prop :=
  ∃ t, loadTreeManifest db true filter sparse depth row (pathOf ds) = some t ∧
    t.name = row.name ∧
    flattenTree t (flattenPrefix ds) = l.map fun e => entryOf (pathOf (ds ++ e.1)) e.2

theorem exists_mapM_load {depth : ℕ} {ds : List Str} (hds : ∀ m ∈ ds, ValidName m)
    {cs : List (TreeRow H)} {ls : List (List (List Str × File H))}
    (h : List.Forall₂ (fun c lc => ValidName c.name ∧ ∃ l,
      LoadsAs db filter sparse depth c (ds ++ [c.name]) l ∧
        lc = l.map fun e => (c.name :: e.1, e.2)) cs ls) :
    ∃ ts, cs.mapM (fun c => loadTreeManifest db true filter sparse depth c
        (joinTreePath (pathOf ds) c.name)) = some ts ∧
      ts.flatMap (fun t => flattenTree t (flattenPrefix ds ++ '/' :: t.name)) =
        ls.flatten.map fun e => entryOf (pathOf (ds ++ e.1)) e.2 := by
  induction h with
  | nil => exact ⟨[], rfl, rfl⟩
  | @cons c lc cs ls hc _ ih =>
      obtain ⟨hname, l, ⟨t, ht, htn, hflat⟩, rfl⟩ := hc
      obtain ⟨ts, hts, hrest⟩ := ih
      refine ⟨t :: ts, ?_, ?_⟩
      · rw [mapM_eq_some_iff] at hts ⊢
        refine List.Forall₂.cons ?_ hts
        rw [joinTreePath_pathOf hds hname]
        exact ht
      · rw [List.flatMap_cons, hrest, htn, ← flattenPrefix_concat, hflat,
          List.flatten_cons, List.map_append, List.map_map]
        congr 1
        apply List.map_congr_left
        intro e _
        simp

variable {row : TreeRow H}

theorem loadsAs_of_collect (hs : db.StoreShape) {depth : ℕ} (hr : row ∈ db.treeNodes)
    {ds : List Str} (hds : ∀ m ∈ ds, ValidName m) {l : List (List Str × File H)}
    (hl : (viewTree db filter sparse).collect depth (ds, row.hash) = some l) :
    LoadsAs db filter sparse depth row ds l := by
  induction depth generalizing row ds l with
  | zero => simp [Hierarchy.collect] at hl
  | succ depth ih =>
      rw [Hierarchy.collect] at hl
      split at hl
      · simp at hl
      next ls hls =>
        obtain rfl := Option.some.inj hl
        rw [mapM_eq_some_iff, viewTree, List.forall₂_map_left_iff] at hls
        have hchildren := forall₂_imp_of_mem hls (S := fun c lc => ValidName c.name ∧ ∃ l,
            LoadsAs db filter sparse depth c (ds ++ [c.name]) l ∧
              lc = l.map fun e => (c.name :: e.1, e.2)) (by
          intro c hc lc hlc
          obtain ⟨hcmem, hcname⟩ := hs.childrenByHash_mem (List.mem_filter.mp hc).1
          obtain ⟨l, hcol, rfl⟩ := Option.map_eq_some_iff.mp hlc
          exact ⟨hcname, l, ih hcmem (validNames_concat hds hcname) hcol, rfl⟩)
        obtain ⟨ts, hts, hflat⟩ := exists_mapM_load hds hchildren
        refine ⟨.mk row.id row.hash row.name row.mode
          ((db.filesByHash row.hash).filter fun f =>
            showsFile filter sparse (pathOf ds) f.name)
          (ts.filter fun t => !(t.fileChildren.isEmpty && t.treeChildren.isEmpty)),
          ?_, rfl, ?_⟩
        · rw [loadTreeManifest, DB.listFilesByTree, DB.listTreeChildren,
            hs.treeNodeGet_eq hr]
          simp only [if_true]
          rw [hts]
        · rw [flattenTree, flattenTrees_filter, flattenTrees_eq_flatMap, hflat,
            List.map_append]
          congr 1
          rw [addFileEntries]
          simp only [viewTree, List.map_map]
          apply List.map_congr_left
          intro f hf
          rw [trimPrefix_flattenPrefix]
          rfl

/-! ## Lookups in a flattened manifest -/

theorem viewTree_distinct (hs : db.StoreShape) : (viewTree db filter sparse).Distinct := by
  intro n
  obtain ⟨hf, ht⟩ := hs.storeTree_distinct n.2
  rw [DB.storeTree, List.map_map] at hf ht
  constructor
  · rw [viewTree, List.map_map]
    exact hf.sublist (List.filter_sublist.map _)
  · rw [viewTree, List.map_map]
    exact ht.sublist (List.filter_sublist.map _)

theorem viewTree_find_valid (hs : db.StoreShape) {n : List Str × H}
    (h : (viewTree db filter sparse).find n segs = some f) : ValidSegs segs := by
  induction segs generalizing n with
  | nil => simp at h
  | cons k rest ih =>
      by_cases hrest : rest = []
      · subst hrest
        rw [Hierarchy.find_singleton,
          Hierarchy.fileOf_eq_some_iff (viewTree_distinct hs)] at h
        obtain ⟨g, hg, heq⟩ := List.mem_map.mp h
        obtain ⟨rfl, -⟩ := Prod.mk.inj heq
        refine ⟨by simp, ?_⟩
        intro m hm
        rw [List.mem_singleton.mp hm]
        exact hs.filesByHash_valid (List.mem_filter.mp hg).1
      · rw [Hierarchy.find_cons _ _ _ hrest] at h
        obtain ⟨m, hm, hfind⟩ := Option.bind_eq_some_iff.mp h
        rw [Hierarchy.subOf_eq_some_iff (viewTree_distinct hs)] at hm
        obtain ⟨c, hc, heq⟩ := List.mem_map.mp hm
        obtain ⟨rfl, -⟩ := Prod.mk.inj heq
        refine ⟨by simp, ?_⟩
        intro x hx
        rcases List.mem_cons.mp hx with rfl | hx
        · exact (hs.childrenByHash_mem (List.mem_filter.mp hc).1).2
        · exact (ih hfind).2 x hx

theorem exists_load_lookup (filter : PathFilter) (sparse : PrefixSet) (hs : db.StoreShape)
    {depth : ℕ} (hr : row ∈ db.treeNodes) (hb : db.storeTree.Bounded depth row.hash) :
    ∃ t, loadTreeManifest db true filter sparse depth row [] = some t ∧
      ∀ p e, (fromTree t).lookup p = some e ↔ ∃ segs f,
        (viewTree db filter sparse).find ([], row.hash) segs = some f ∧
          p = pathOf segs ∧ e = entryOf p f := by
  obtain ⟨l, hl⟩ := Hierarchy.exists_collect (viewTree_bounded filter sparse hb [])
  obtain ⟨t, ht, -, hflat⟩ := loadsAs_of_collect hs hr (by simp) hl
  refine ⟨t, ht, ?_⟩
  have hmem : ∀ {segs f}, (segs, f) ∈ l ↔
      (viewTree db filter sparse).find ([], row.hash) segs = some f :=
    Hierarchy.mem_collect_iff (viewTree_distinct hs) hl
  have hflat' : flattenTree t [] = l.map fun e => entryOf (pathOf e.1) e.2 := by
    simpa [flattenPrefix] using hflat
  have hnodup : ((flattenTree t []).map Entry.path).Nodup := by
    have haddr := Hierarchy.collect_nodup (viewTree_distinct hs) hl
    have hmap : (flattenTree t []).map Entry.path = (l.map Prod.fst).map pathOf := by
      rw [hflat', List.map_map, List.map_map]
      rfl
    rw [hmap]
    refine List.Nodup.map_on ?_ haddr
    intro x hx y hy hxy
    obtain ⟨⟨x, f⟩, hxl, rfl⟩ := List.mem_map.mp hx
    obtain ⟨⟨y, g⟩, hyl, rfl⟩ := List.mem_map.mp hy
    exact pathOf_injective (viewTree_find_valid hs (hmem.mp hxl))
      (viewTree_find_valid hs (hmem.mp hyl)) hxy
  intro p e
  have hrev : ((flattenTree t []).reverse.map Entry.path).Nodup := by
    rw [List.map_reverse]
    exact List.nodup_reverse.mpr hnodup
  rw [fromTree, GoMap.lookup_insertAll, AList.lookup_empty, Option.or_none, Option.map_id',
    find?_key_eq_some_iff hrev, List.mem_reverse, hflat', List.mem_map]
  constructor
  · rintro ⟨⟨⟨segs, f⟩, hin, rfl⟩, rfl⟩
    exact ⟨segs, f, hmem.mp hin, rfl, rfl⟩
  · rintro ⟨segs, f, hfind, rfl, rfl⟩
    exact ⟨⟨(segs, f), hmem.mpr hfind, rfl⟩, rfl⟩

/-! ## Reading a whole tree -/

/-- The map of everything below a tree row, as the server reads it. -/
def readTree (db : DB H) (depth : ℕ) (treeID : ID) : Option (GoMap (Entry H)) :=
  (db.treeNodeGet treeID).bind fun root =>
    (loadTreeManifest db true allowAllFilter [] depth root []).map fromTree

theorem storeTree_find_valid (hs : db.StoreShape) (hf : db.storeTree.find h segs = some f) :
    ValidSegs segs := by
  rw [← viewTree_allowAll_find h [] segs] at hf
  exact viewTree_find_valid hs hf

theorem storeTree_find_file (hs : db.StoreShape) (hf : db.storeTree.find h segs = some f) :
    ∃ row ∈ db.files, row.file = f := by
  induction segs generalizing h with
  | nil => simp at hf
  | cons k rest ih =>
      by_cases hrest : rest = []
      · subst hrest
        rw [Hierarchy.find_singleton,
          Hierarchy.fileOf_eq_some_iff hs.storeTree_distinct] at hf
        obtain ⟨g, hg, heq⟩ := List.mem_map.mp hf
        obtain ⟨-, rfl⟩ := Prod.mk.inj heq
        obtain ⟨t, _, _, hown⟩ := DB.mem_filesByHash hg
        exact ⟨⟨t.id, g⟩, DB.mem_ownFiles.mp hown, rfl⟩
      · rw [Hierarchy.find_cons _ _ _ hrest] at hf
        obtain ⟨m, _, hfind⟩ := Option.bind_eq_some_iff.mp hf
        exact ih hfind

theorem storeTree_find_stored (hs : db.StoreShape) (hf : db.storeTree.find h segs = some f) :
    ∀ n ∈ segs, StoredName n := by
  induction segs generalizing h with
  | nil => simp
  | cons k rest ih =>
      by_cases hrest : rest = []
      · subst hrest
        rw [Hierarchy.find_singleton,
          Hierarchy.fileOf_eq_some_iff hs.storeTree_distinct] at hf
        obtain ⟨g, hg, heq⟩ := List.mem_map.mp hf
        obtain ⟨rfl, rfl⟩ := Prod.mk.inj heq
        obtain ⟨t, _, _, hown⟩ := DB.mem_filesByHash hg
        intro n hn
        rw [List.mem_singleton.mp hn]
        exact hs.fileName _ (DB.mem_ownFiles.mp hown)
      · rw [Hierarchy.find_cons _ _ _ hrest] at hf
        obtain ⟨m, hm, hfind⟩ := Option.bind_eq_some_iff.mp hf
        rw [Hierarchy.subOf_eq_some_iff hs.storeTree_distinct] at hm
        obtain ⟨c, hc, heq⟩ := List.mem_map.mp hm
        obtain ⟨rfl, rfl⟩ := Prod.mk.inj heq
        intro n hn
        rcases List.mem_cons.mp hn with rfl | hn
        · exact hs.treeName c (hs.childrenByHash_mem hc).1
        · exact ih hfind n hn

theorem validSegs_of_fileAt (hs : db.StoreShape) {p : Str} (hf : fileAt db h p = some f) :
    ∃ segs, ValidSegs segs ∧ p = pathOf segs :=
  ⟨p.splitOn '/', storeTree_find_valid hs hf, (joinWith_splitOn '/' p).symm⟩

theorem exists_readTree_of_bounded (hs : db.StoreShape) {depth : ℕ} (hr : row ∈ db.treeNodes)
    (hb : db.storeTree.Bounded depth row.hash) :
    ∃ g, readTree db depth row.id = some g ∧
      ∀ p, g.lookup p = (fileAt db row.hash p).map (entryOf p) := by
  obtain ⟨t, ht, hlookup⟩ := exists_load_lookup allowAllFilter [] hs hr hb
  refine ⟨fromTree t, by rw [readTree, hs.treeNodeGet_eq hr, Option.bind_some, ht]; rfl, ?_⟩
  intro p
  ext e
  rw [hlookup, Option.map_eq_some_iff]
  constructor
  · rintro ⟨segs, f, hf, rfl, rfl⟩
    have hvalid := viewTree_find_valid hs hf
    rw [viewTree_allowAll_find] at hf
    exact ⟨f, by rw [fileAt_pathOf hvalid, hf], rfl⟩
  · rintro ⟨f, hf, rfl⟩
    obtain ⟨segs, hvalid, rfl⟩ := validSegs_of_fileAt hs hf
    rw [fileAt_pathOf hvalid] at hf
    exact ⟨segs, f, by rw [viewTree_allowAll_find, hf], rfl, rfl⟩

theorem exists_readTree (hinv : db.StoreInv) (hr : row ∈ db.treeNodes) :
    ∃ d, ∀ depth ≥ d, ∃ g, readTree db depth row.id = some g ∧
      ∀ p, g.lookup p = (fileAt db row.hash p).map (entryOf p) := by
  obtain ⟨d, hd⟩ := hinv.bounded
  exact ⟨d, fun depth hdepth =>
    exists_readTree_of_bounded hinv.toStoreShape hr ((hd row hr).mono hdepth)⟩

/-- Reading the tree row gives the map `m` of content by path, at every
sufficient depth. -/
def ReadsAs (db : DB H) (treeID : ID) (m : Str → Option (H × List H)) : Prop :=
  ∃ d, ∀ depth ≥ d, ∃ g, readTree db depth treeID = some g ∧
    ∀ p, (g.lookup p).map (fun e => (e.hash, e.chunkHashes)) = m p

/-- The content map of a tree hash. -/
def contentMap (db : DB H) (h : H) (p : Str) : Option (H × List H) :=
  (fileAt db h p).map fun f => (f.hash, f.chunks.map Chunk.hash)

theorem fileAt_hash (hs : db.StoreShape) {p : Str} (hf : fileAt db h p = some f) :
    f.hash = fileHash (f.chunks.map Chunk.hash) := by
  obtain ⟨row, hrow, rfl⟩ := storeTree_find_file hs hf
  exact hs.fileHash_eq row hrow

theorem readsAs_contentMap (hinv : db.StoreInv) (hr : row ∈ db.treeNodes) :
    ReadsAs db row.id (contentMap db row.hash) := by
  obtain ⟨d, hd⟩ := exists_readTree hinv hr
  refine ⟨d, ?_⟩
  intro depth hdepth
  obtain ⟨g, hg, hlookup⟩ := hd depth hdepth
  refine ⟨g, hg, ?_⟩
  intro p
  rw [hlookup, Option.map_map, contentMap]
  rcases hf : fileAt db row.hash p with _ | f
  · rfl
  · rw [Option.map_some, Option.map_some, fileAt_hash hinv.toStoreShape hf]
    rfl

theorem ReadsAs.unique {treeID : ID} {m m' : Str → Option (H × List H)}
    (h : ReadsAs db treeID m) (h' : ReadsAs db treeID m') : m = m' := by
  obtain ⟨d, hd⟩ := h
  obtain ⟨d', hd'⟩ := h'
  obtain ⟨g, hg, hm⟩ := hd (max d d') (le_max_left _ _)
  obtain ⟨g', hg', hm'⟩ := hd' (max d d') (le_max_right _ _)
  rw [hg] at hg'
  obtain rfl := Option.some.inj hg'
  funext p
  rw [← hm p, hm' p]

end View

end Nipa
