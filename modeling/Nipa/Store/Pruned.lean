import Nipa.Store.Rehash

/-!
# Manifests under a filter

The manifest of a directory leaves out what a read filter hides, and then every
directory that lists nothing.  It is a hierarchy of its own in which every
directory holds a file, so the hash computed again from what is left depends on
the shown files only.
-/

namespace Nipa

open Support

section Manifest

variable {H : Type}

/-- A manifest as a hierarchy. -/
def manifestTree : Hierarchy Str (TreeNode H) (File H) where
  files t := t.fileChildren.map fun f => (f.name, f)
  subs t := t.treeChildren.map fun c => (c.name, c)

/-- A directory that lists nothing. -/
def TreeNode.Blank (t : TreeNode H) : Prop :=
  t.fileChildren = [] ∧ t.treeChildren = []

theorem TreeNode.keep_iff (t : TreeNode H) :
    (!(t.fileChildren.isEmpty && t.treeChildren.isEmpty)) = true ↔ ¬ t.Blank := by
  rw [TreeNode.Blank, not_and_or]
  simp

theorem rehashTree_eq [HashScheme H] (t : TreeNode H) :
    rehashTree t = treeHash (t.fileChildren.map fileEntryOf)
      (t.treeChildren.map fun c => ⟨utf8 c.name, rehashTree c⟩) := by
  rcases t with ⟨i, h, n, m, fs, cs⟩
  rw [rehashTree, rehashTrees_eq_map]
  rfl

theorem manifestTree_find_of_blank {t : TreeNode H} (h : t.Blank) (ks : List Str) :
    manifestTree.find t ks = none := by
  rcases ks with _ | ⟨k, ks⟩
  · simp
  · by_cases hks : ks = []
    · subst hks
      have hfiles : manifestTree.files t = [] := by
        simp [manifestTree, h.1]
      rw [Hierarchy.find_singleton, Hierarchy.fileOf, hfiles]
      rfl
    · have hsubs : manifestTree.subs t = [] := by
        simp [manifestTree, h.2]
      rw [Hierarchy.find_cons _ _ _ hks, Hierarchy.subOf, hsubs]
      rfl

theorem manifestTree_subOf_mem {t c : TreeNode H} {n : Str}
    (h : manifestTree.subOf t n = some c) : c ∈ t.treeChildren ∧ c.name = n := by
  obtain ⟨c', hc', heq⟩ := List.mem_map.mp (mem_of_listed h)
  obtain ⟨rfl, rfl⟩ := Prod.mk.inj heq
  exact ⟨hc', rfl⟩

end Manifest

/-! ## What a loaded manifest lists -/

section Load

variable {H : Type} [DecidableEq H] [HashScheme H] {db : DB H} {filter : PathFilter}

variable {depth : ℕ} {row : TreeRow H} {path : Str} {t : TreeNode H}

theorem loadTreeManifest_succ_iff (hs : db.StoreShape) (hr : row ∈ db.treeNodes) :
    loadTreeManifest db true filter [] (depth + 1) row path = some t ↔
      ∃ ts, List.Forall₂ (fun c t =>
          loadTreeManifest db true filter [] depth c (joinTreePath path c.name) = some t)
        ((db.childrenByHash row.hash).filter fun c => entersDir filter [] path c.name) ts ∧
      t = .mk row.id row.hash row.name row.mode
        ((db.filesByHash row.hash).filter fun f => showsFile filter [] path f.name)
        (ts.filter fun t => !(t.fileChildren.isEmpty && t.treeChildren.isEmpty)) := by
  rw [loadTreeManifest, DB.listFilesByTree, DB.listTreeChildren, hs.treeNodeGet_eq hr]
  simp only [if_true]
  rcases hts : ((db.childrenByHash row.hash).filter fun c =>
      entersDir filter [] path c.name).mapM fun c =>
        loadTreeManifest db true filter [] depth c (joinTreePath path c.name) with _ | ts
  · rw [hts]
    constructor
    · intro h
      cases h
    · rintro ⟨ts, hall, -⟩
      rw [mapM_eq_some_iff.mpr hall] at hts
      cases hts
  · rw [hts]
    constructor
    · intro h
      exact ⟨ts, mapM_eq_some_iff.mp hts, (Option.some.inj h).symm⟩
    · rintro ⟨ts', hall, rfl⟩
      rw [mapM_eq_some_iff.mpr hall] at hts
      rw [Option.some.inj hts]

theorem loadTreeManifest_row (hs : db.StoreShape) (hr : row ∈ db.treeNodes)
    (h : loadTreeManifest db true filter [] depth row path = some t) :
    t.name = row.name ∧ t.hash = row.hash := by
  rcases depth with _ | depth
  · rw [loadTreeManifest] at h
    cases h
  · obtain ⟨ts, -, rfl⟩ := (loadTreeManifest_succ_iff hs hr).mp h
    exact ⟨rfl, rfl⟩

theorem loadTreeManifest_mono (hs : db.StoreShape) {depth' : ℕ} (hle : depth ≤ depth')
    (hr : row ∈ db.treeNodes) (h : loadTreeManifest db true filter [] depth row path = some t) :
    loadTreeManifest db true filter [] depth' row path = some t := by
  induction depth generalizing depth' row path t with
  | zero =>
      rw [loadTreeManifest] at h
      cases h
  | succ depth ih =>
      obtain ⟨depth', rfl⟩ := Nat.exists_eq_succ_of_ne_zero (by omega : depth' ≠ 0)
      obtain ⟨ts, hall, rfl⟩ := (loadTreeManifest_succ_iff hs hr).mp h
      refine (loadTreeManifest_succ_iff hs hr).mpr ⟨ts, ?_, rfl⟩
      refine forall₂_imp_of_mem hall ?_
      intro c hc t ht
      exact ih (by omega) (hs.childrenByHash_mem (List.mem_filter.mp hc).1).1 ht

theorem loadTreeManifest_congr (hs : db.StoreShape) {row' : TreeRow H} (hr : row ∈ db.treeNodes)
    (hr' : row' ∈ db.treeNodes) (hhash : row.hash = row'.hash) {t' : TreeNode H}
    (h : loadTreeManifest db true filter [] depth row path = some t)
    (h' : loadTreeManifest db true filter [] depth row' path = some t') :
    t.fileChildren = t'.fileChildren ∧ t.treeChildren = t'.treeChildren := by
  rcases depth with _ | depth
  · rw [loadTreeManifest] at h
    cases h
  · obtain ⟨ts, hall, rfl⟩ := (loadTreeManifest_succ_iff hs hr).mp h
    obtain ⟨ts', hall', rfl⟩ := (loadTreeManifest_succ_iff hs hr').mp h'
    rw [← hhash] at hall'
    obtain rfl : ts = ts' := by
      rw [← mapM_eq_some_iff] at hall hall'
      exact Option.some.inj (hall.symm.trans hall')
    exact ⟨by simp only [TreeNode.fileChildren, hhash], rfl⟩

theorem mem_treeChildren_iff (hs : db.StoreShape) (hr : row ∈ db.treeNodes) {c : TreeNode H}
    (h : loadTreeManifest db true filter [] (depth + 1) row path = some t) :
    c ∈ t.treeChildren ↔ ∃ r ∈ db.childrenByHash row.hash,
      entersDir filter [] path r.name = true ∧
      loadTreeManifest db true filter [] depth r (joinTreePath path r.name) = some c ∧
      ¬ c.Blank := by
  obtain ⟨ts, hall, rfl⟩ := (loadTreeManifest_succ_iff hs hr).mp h
  change c ∈ ts.filter _ ↔ _
  rw [List.mem_filter, TreeNode.keep_iff]
  constructor
  · rintro ⟨hc, hkeep⟩
    obtain ⟨r, hrow, hload⟩ := forall₂_mem_right hall hc
    obtain ⟨hchild, henter⟩ := List.mem_filter.mp hrow
    exact ⟨r, hchild, henter, hload, hkeep⟩
  · rintro ⟨r, hchild, henter, hload, hkeep⟩
    obtain ⟨c', hc', hload'⟩ := forall₂_mem_left hall (List.mem_filter.mpr ⟨hchild, henter⟩)
    obtain rfl := Option.some.inj (hload.symm.trans hload')
    exact ⟨hc', hkeep⟩

theorem manifest_files_nodup (hs : db.StoreShape) (hr : row ∈ db.treeNodes)
    (h : loadTreeManifest db true filter [] depth row path = some t) :
    (t.fileChildren.map File.name).Nodup := by
  rcases depth with _ | depth
  · rw [loadTreeManifest] at h
    cases h
  · obtain ⟨ts, -, rfl⟩ := (loadTreeManifest_succ_iff hs hr).mp h
    exact (hs.filesByHash_names_nodup row.hash).sublist (List.filter_sublist.map _)

theorem manifest_subs_nodup (hs : db.StoreShape) (hr : row ∈ db.treeNodes)
    (h : loadTreeManifest db true filter [] depth row path = some t) :
    (t.treeChildren.map TreeNode.name).Nodup := by
  rcases depth with _ | depth
  · rw [loadTreeManifest] at h
    cases h
  · obtain ⟨ts, hall, rfl⟩ := (loadTreeManifest_succ_iff hs hr).mp h
    have hnames : ts.map TreeNode.name = ((db.childrenByHash row.hash).filter fun c =>
        entersDir filter [] path c.name).map TreeRow.name := by
      refine map_eq_of_forall₂ (List.forall₂_map_left_iff.mpr (forall₂_imp_of_mem hall ?_))
      intro c hc t ht
      exact (loadTreeManifest_row hs (hs.childrenByHash_mem (List.mem_filter.mp hc).1).1 ht).1
    have hnodup : (ts.map TreeNode.name).Nodup := by
      rw [hnames]
      exact (hs.childrenByHash_names_nodup row.hash).sublist (List.filter_sublist.map _)
    exact hnodup.sublist (List.filter_sublist.map _)

/-- The manifest of some stored directory. -/
def IsManifest (db : DB H) (filter : PathFilter) (t : TreeNode H) : Prop :=
  ∃ depth, ∃ row ∈ db.treeNodes, ∃ path,
    loadTreeManifest db true filter [] depth row path = some t

theorem IsManifest.sub (hs : db.StoreShape) {c : TreeNode H} (h : IsManifest db filter t)
    (hc : c ∈ t.treeChildren) : IsManifest db filter c ∧ ¬ c.Blank := by
  obtain ⟨depth, row, hr, path, hload⟩ := h
  rcases depth with _ | depth
  · rw [loadTreeManifest] at hload
    cases hload
  · obtain ⟨r, hchild, -, hsub, hkeep⟩ := (mem_treeChildren_iff hs hr hload).mp hc
    exact ⟨⟨depth, r, (hs.childrenByHash_mem hchild).1, _, hsub⟩, hkeep⟩

theorem manifestTree_bounded (hs : db.StoreShape) (hr : row ∈ db.treeNodes)
    (h : loadTreeManifest db true filter [] depth row path = some t) :
    manifestTree.Bounded depth t := by
  induction depth generalizing row path t with
  | zero =>
      rw [loadTreeManifest] at h
      cases h
  | succ depth ih =>
      intro s hmem
      obtain ⟨c, hc, rfl⟩ := List.mem_map.mp hmem
      obtain ⟨r, hchild, -, hsub, -⟩ := (mem_treeChildren_iff hs hr h).mp hc
      exact ih (hs.childrenByHash_mem hchild).1 hsub

/-! ## Every directory of a manifest holds a file -/

theorem IsManifest.exists_find (hs : db.StoreShape) (hb : manifestTree.Bounded depth t)
    (h : IsManifest db filter t) (hkeep : ¬ t.Blank) : ∃ ks, (manifestTree.find t ks).isSome := by
  induction depth generalizing t with
  | zero => exact hb.elim
  | succ depth ih =>
      by_cases hfiles : t.fileChildren = []
      · have hsubs : t.treeChildren ≠ [] := fun hnil => hkeep ⟨hfiles, hnil⟩
        obtain ⟨c, cs, hcs⟩ := List.exists_cons_of_ne_nil hsubs
        have hlisted : (manifestTree.subOf t c.name).isSome := by
          rw [Hierarchy.subOf, listed_isSome_iff, manifestTree]
          simp [hcs]
        obtain ⟨c', hc'⟩ := Option.isSome_iff_exists.mp hlisted
        obtain ⟨hchild, -⟩ := manifestTree_subOf_mem hc'
        obtain ⟨hmanifest, hkeep'⟩ := h.sub hs hchild
        obtain ⟨ks, hks⟩ := ih (hb _ (mem_of_listed hc')) hmanifest hkeep'
        refine ⟨c.name :: ks, ?_⟩
        have hne : ks ≠ [] := by
          rintro rfl
          simp at hks
        rwa [Hierarchy.find_cons _ _ _ hne, hc', Option.bind_some]
      · obtain ⟨f, fs, hfs⟩ := List.exists_cons_of_ne_nil hfiles
        refine ⟨[f.name], ?_⟩
        rw [Hierarchy.find_singleton, Hierarchy.fileOf, listed_isSome_iff, manifestTree]
        simp [hfs]

theorem IsManifest.dirAt (hs : db.StoreShape) {m : TreeNode H} (h : IsManifest db filter t)
    {ks : List Str} (hks : ks ≠ []) (hdir : manifestTree.dirAt t ks = some m) :
    IsManifest db filter m ∧ ¬ m.Blank := by
  induction ks generalizing t with
  | nil => exact absurd rfl hks
  | cons k ks ih =>
      rw [Hierarchy.dirAt_cons] at hdir
      obtain ⟨c, hc, hbelow⟩ := Option.bind_eq_some_iff.mp hdir
      have hsub := h.sub hs (manifestTree_subOf_mem hc).1
      by_cases hnil : ks = []
      · subst hnil
        rw [Hierarchy.dirAt_nil] at hbelow
        rwa [← Option.some.inj hbelow]
      · exact ih hsub.1 hnil hbelow

theorem IsManifest.bounded (hs : db.StoreShape) (h : IsManifest db filter t) :
    ∃ depth, manifestTree.Bounded depth t := by
  obtain ⟨depth, row, hr, path, hload⟩ := h
  exact ⟨depth, manifestTree_bounded hs hr hload⟩

theorem IsManifest.filled (hs : db.StoreShape) (h : IsManifest db filter t) :
    manifestTree.Filled t := by
  intro ks m hks hdir
  obtain ⟨hm, hkeep⟩ := h.dirAt hs hks hdir
  obtain ⟨depth, hb⟩ := hm.bounded hs
  exact hm.exists_find hs hb hkeep

theorem IsManifest.blank_iff (hs : db.StoreShape) (h : IsManifest db filter t) :
    t.Blank ↔ ∀ ks, manifestTree.find t ks = none := by
  constructor
  · exact manifestTree_find_of_blank
  · intro hnone
    by_contra hkeep
    obtain ⟨depth, hb⟩ := h.bounded hs
    obtain ⟨ks, hks⟩ := h.exists_find hs hb hkeep
    rw [hnone ks] at hks
    cases hks

/-! ## The hash of a manifest -/

theorem IsManifest.hashOf (hs : db.StoreShape) (h : IsManifest db filter t) :
    HashOf (rehashTree t) ((manifestTree.files t).map fun e => (e.1, e.2.hash))
      ((manifestTree.subs t).map fun e => (e.1, rehashTree e.2)) := by
  obtain ⟨depth, row, hr, path, hload⟩ := h
  have hsub : ∀ c ∈ t.treeChildren, ∃ r ∈ db.treeNodes, c.name = r.name := by
    intro c hc
    rcases depth with _ | depth
    · rw [loadTreeManifest] at hload
      cases hload
    · obtain ⟨r, hchild, -, hsub, -⟩ := (mem_treeChildren_iff hs hr hload).mp hc
      have hmem := (hs.childrenByHash_mem hchild).1
      exact ⟨r, hmem, (loadTreeManifest_row hs hmem hsub).1⟩
  have hfile : ∀ f ∈ t.fileChildren, f ∈ db.filesByHash row.hash := by
    intro f hf
    rcases depth with _ | depth
    · rw [loadTreeManifest] at hload
      cases hload
    · obtain ⟨ts, -, rfl⟩ := (loadTreeManifest_succ_iff hs hr).mp hload
      exact (List.mem_filter.mp hf).1
  refine ⟨⟨_, _, rehashTree_eq t, ?_, ?_⟩, ?_, ?_, ?_, ?_⟩
  · simp only [manifestTree, List.map_map]
    rfl
  · simp only [manifestTree, List.map_map]
    rfl
  · rw [manifestTree, List.map_map, List.map_map]
    exact manifest_files_nodup hs hr hload
  · rw [manifestTree, List.map_map, List.map_map]
    exact manifest_subs_nodup hs hr hload
  · simp only [manifestTree, List.map_map, List.mem_map]
    rintro _ ⟨f, hf, rfl⟩
    obtain ⟨_, _, _, hown⟩ := DB.mem_filesByHash (hfile f hf)
    exact (hs.fileName _ (DB.mem_ownFiles.mp hown)).2
  · simp only [manifestTree, List.map_map, List.mem_map]
    rintro _ ⟨c, hc, rfl⟩
    obtain ⟨r, hr, hname⟩ := hsub c hc
    change (utf8 c.name).length < 2 ^ 32
    rw [hname]
    exact (hs.treeName r hr).2

theorem rehashTree_eq_iff (hs : db.StoreShape) (hcf : CollisionFree H) {t' : TreeNode H}
    (h : IsManifest db filter t) (h' : IsManifest db filter t') :
    rehashTree t = rehashTree t' ↔ ∀ ks, (manifestTree.find t ks).map File.hash =
      (manifestTree.find t' ks).map File.hash := by
  obtain ⟨depth, hb⟩ := h.bounded hs
  have hiff := Hierarchy.rel_iff_observe manifestTree manifestTree File.hash File.hash
    (fun t t' : TreeNode H => rehashTree t = rehashTree t') (IsManifest db filter)
    (IsManifest db filter) (fun t n c ht hc => (ht.sub hs (manifestTree_subOf_mem hc).1).1)
    (fun t n c ht hc => (ht.sub hs (manifestTree_subOf_mem hc).1).1) (by
      intro t t' ht ht'
      rw [(ht.hashOf hs).eq_iff hcf (ht'.hashOf hs)]
      simp only [listed_map_snd, option_rel_map]
      rfl) hb h h'
  rw [hiff]
  constructor
  · exact fun hsame => hsame.1
  · intro hfind
    refine ⟨hfind, ?_⟩
    intro ks
    exact ⟨(h.filled hs).dirAt_isSome hfind, (h'.filled hs).dirAt_isSome fun ks => (hfind ks).symm⟩

/-! ## What a manifest holds -/

theorem manifestTree_find (hs : db.StoreShape) (hr : row ∈ db.treeNodes) {ds : List Str}
    (hds : ∀ m ∈ ds, ValidName m)
    (h : loadTreeManifest db true filter [] depth row (pathOf ds) = some t) (ks : List Str) :
    manifestTree.find t ks = (viewTree db filter []).find (ds, row.hash) ks := by
  induction ks generalizing depth row ds t with
  | nil => simp
  | cons k ks ih =>
      rcases depth with _ | depth
      · rw [loadTreeManifest] at h
        cases h
      obtain ⟨ts, hall, heq⟩ := (loadTreeManifest_succ_iff hs hr).mp h
      by_cases hks : ks = []
      · subst hks
        rw [Hierarchy.find_singleton, Hierarchy.find_singleton, Hierarchy.fileOf,
          Hierarchy.fileOf, manifestTree, viewTree, heq]
        rfl
      · rw [Hierarchy.find_cons _ _ _ hks, Hierarchy.find_cons _ _ _ hks]
        rcases hview : (viewTree db filter []).subOf (ds, row.hash) k with _ | m
        · -- a listed subdirectory is entered
          rcases hsub : manifestTree.subOf t k with _ | c
          · rfl
          · exfalso
            obtain ⟨hc, rfl⟩ := manifestTree_subOf_mem hsub
            obtain ⟨r, hchild, henter, hload, -⟩ := (mem_treeChildren_iff hs hr h).mp hc
            have hname := (loadTreeManifest_row hs (hs.childrenByHash_mem hchild).1 hload).1
            rw [Hierarchy.subOf, listed_eq_none_iff] at hview
            apply hview
            rw [viewTree, List.map_map]
            exact List.mem_map.mpr ⟨r, List.mem_filter.mpr ⟨hchild, henter⟩, hname.symm⟩
        · rw [Hierarchy.subOf_eq_some_iff (viewTree_distinct hs)] at hview
          obtain ⟨r, hmem, hkey⟩ := List.mem_map.mp hview
          obtain ⟨rfl, rfl⟩ := Prod.mk.inj hkey
          obtain ⟨hrow, hname⟩ := hs.childrenByHash_mem (List.mem_filter.mp hmem).1
          obtain ⟨c, -, hload⟩ := forall₂_mem_left hall hmem
          have hpath : joinTreePath (pathOf ds) r.name = pathOf (ds ++ [r.name]) :=
            joinTreePath_pathOf hds hname
          have hbelow := ih hrow (validNames_concat hds hname) (hpath ▸ hload)
          rw [Option.bind_some, ← hbelow]
          have hcname := (loadTreeManifest_row hs hrow hload).1
          by_cases hblank : c.Blank
          · -- a subdirectory that lists nothing holds nothing
            rw [manifestTree_find_of_blank hblank]
            rcases hsub : manifestTree.subOf t r.name with _ | c'
            · rfl
            · exfalso
              obtain ⟨hc', hcname'⟩ := manifestTree_subOf_mem hsub
              obtain ⟨r', hchild', henter', hload', hkeep'⟩ :=
                (mem_treeChildren_iff hs hr h).mp hc'
              have hname' := (loadTreeManifest_row hs (hs.childrenByHash_mem hchild').1
                hload').1
              have hsame : r' = r := by
                refine List.inj_on_of_nodup_map (hs.childrenByHash_names_nodup row.hash)
                  hchild' (List.mem_filter.mp hmem).1 ?_
                exact hname'.symm.trans hcname'
              subst hsame
              obtain rfl := Option.some.inj (hload.symm.trans hload')
              exact hkeep' hblank
          · have hsub : manifestTree.subOf t r.name = some c := by
              rw [Hierarchy.subOf, listed_eq_some_iff]
              · refine List.mem_map.mpr ⟨c, ?_, by rw [hcname]⟩
                exact (mem_treeChildren_iff hs hr h).mpr ⟨r, (List.mem_filter.mp hmem).1,
                  (List.mem_filter.mp hmem).2, hload, hblank⟩
              · rw [manifestTree, List.map_map]
                exact manifest_subs_nodup hs hr h
            rw [hsub, Option.bind_some]

end Load

end Nipa
