import Nipa.Push.ApplySpec

/-!
# A push keeps the store invariant

The rows a push appends are read back against the tree they were laid out
from: the files and subdirectories stored under a new row are exactly those of
the rebuilt directory the row stands for, and a kept row holds nothing.  So the
store stays hash-faithful.
-/

namespace Nipa

open Support

variable {H : Type} [HashScheme H]

namespace Written

/-- The row of a directory of the layout. -/
def dirRow (ρ : ID → ID) (e : Option ID × PushTreeNode H) : TreeRow H :=
  ⟨ρ e.2.id, finalize e.2, e.2.name, e.2.mode, e.1.map ρ⟩

/-- The row of a kept directory. -/
def keptRow (ρ : ID → ID) (t : PushTreeNode H) (k : KeptDir H) : TreeRow H :=
  ⟨ρ k.id, k.hash, k.name, k.mode, some (ρ t.id)⟩

theorem mem_rows_iff {root : PushTreeNode H} {ρ : ID → ID} {r : TreeRow H} :
    r ∈ ((layout root).flatMap nodeRows).map (realRow ρ) ↔
      ∃ e ∈ layout root, r = dirRow ρ e ∨ ∃ k ∈ e.2.keepDirs, r = keptRow ρ e.2 k := by
  constructor
  · intro hr
    obtain ⟨n, hn, rfl⟩ := List.mem_map.mp hr
    obtain ⟨e, he, hn⟩ := List.mem_flatMap.mp hn
    refine ⟨e, he, ?_⟩
    rcases List.mem_cons.mp hn with rfl | hn
    · exact Or.inl rfl
    · obtain ⟨k, hk, rfl⟩ := List.mem_map.mp hn
      exact Or.inr ⟨k, hk, rfl⟩
  · rintro ⟨e, he, rfl | ⟨k, hk, rfl⟩⟩
    · exact List.mem_map.mpr ⟨_, List.mem_flatMap.mpr ⟨e, he, List.mem_cons_self⟩, rfl⟩
    · refine List.mem_map.mpr ⟨⟨k.id, k.hash, k.name, k.mode, some e.2.id⟩,
        List.mem_flatMap.mpr ⟨e, he, List.mem_cons_of_mem _ ?_⟩, rfl⟩
      exact List.mem_map.mpr ⟨k, hk, rfl⟩

theorem dirRow_parent {root : PushTreeNode H} {ρ : ID → ID} {e : Option ID × PushTreeNode H}
    (he : e ∈ layout root) {p : ID}
    (hp : (dirRow ρ e).parentTreeID = some p) :
    ∃ e' ∈ layout root, p = ρ e'.2.id ∧ e.1 = some e'.2.id ∧ e.2 ∈ e'.2.children := by
  rcases layout_parent he with rfl | ⟨e', he', hpar, hchild⟩
  · simp [dirRow] at hp
  · refine ⟨e', he', ?_, hpar, hchild⟩
    rw [dirRow, hpar] at hp
    exact (Option.some.inj hp).symm

end Written

/-- What the builder guarantees of one rebuilt directory. -/
structure NodeOK (db : DB H) (t : PushTreeNode H) : Prop where
  name_ok : StoredName t.name
  files_ok : ∀ f ∈ t.files, StoredName f.name ∧ f.hash = fileHash f.chunkHashes
  kept_ok : ∀ k ∈ t.keepDirs, StoredName k.name ∧ ∃ r ∈ db.treeNodes, r.hash = k.hash

variable [DecidableEq H]

/-- A built tree whose rows were written. -/
structure Written (db : DB H) (root : PushTreeNode H) (projectID : ID) (db' : DB H)
    (ρ : ID → ID) : Prop where
  ids_nodup : (gather TreeBuilder.nodeIDsOf root).Nodup
  nodes_ok : ∀ e ∈ layout root, NodeOK db e.2
  treeNodes_eq : db'.treeNodes =
    db.treeNodes ++ ((layout root).flatMap nodeRows).map (realRow ρ)
  ids_eq : ((layout root).flatMap nodeRows).map (fun n => ρ n.id) =
    List.range' (db.treeNodes.length + 1) ((layout root).flatMap nodeRows).length
  siblings : SiblingsDistinct db.treeNodes → SiblingsDistinct db'.treeNodes
  files_eq : db'.files = db.files ++
    ((layout root).flatMap fun e => fileRows e.2).map (realFile db projectID ρ)
  fileNames : FileNamesDistinct db.files → FileNamesDistinct db'.files
  resolved : ∀ e ∈ layout root, ∀ f ∈ e.2.files, ∀ h ∈ f.chunkHashes,
    (chunkFor db projectID h).isSome

namespace Written

variable {db db' : DB H} {root : PushTreeNode H} {projectID : ID} {ρ : ID → ID}

/-- The stored form of a file of a rebuilt directory. -/
def nodeFile (db : DB H) (projectID : ID) (f : NodeFile H) : File H where
  name := f.name
  mode := f.mode
  sizeBytes := f.sizeBytes
  isBinary := f.isBinary
  encoding := f.encoding
  hash := f.hash
  chunks := f.chunkHashes.filterMap (chunkFor db projectID)

theorem mem_treeNodes (hw : Written db root projectID db' ρ) {r : TreeRow H} :
    r ∈ db'.treeNodes ↔ r ∈ db.treeNodes ∨
      ∃ e ∈ layout root, r = dirRow ρ e ∨ ∃ k ∈ e.2.keepDirs, r = keptRow ρ e.2 k := by
  rw [hw.treeNodes_eq, List.mem_append, mem_rows_iff]

theorem mem_files (hw : Written db root projectID db' ρ) {f : FileRow H} :
    f ∈ db'.files ↔ f ∈ db.files ∨
      ∃ e ∈ layout root, ∃ nf ∈ e.2.files, f = ⟨ρ e.2.id, nodeFile db projectID nf⟩ := by
  rw [hw.files_eq, List.mem_append]
  apply or_congr Iff.rfl
  constructor
  · intro hf
    obtain ⟨row, hrow, rfl⟩ := List.mem_map.mp hf
    obtain ⟨e, he, hrow⟩ := List.mem_flatMap.mp hrow
    obtain ⟨nf, hnf, rfl⟩ := List.mem_map.mp hrow
    exact ⟨e, he, nf, hnf, rfl⟩
  · rintro ⟨e, he, nf, hnf, rfl⟩
    exact List.mem_map.mpr ⟨_, List.mem_flatMap.mpr ⟨e, he, List.mem_map_of_mem hnf⟩, rfl⟩

variable {n : PushNodeRow H}

theorem lt_real (hw : Written db root projectID db' ρ) (hn : n ∈ (layout root).flatMap nodeRows) :
    db.treeNodes.length < ρ n.id := by
  have hmem : ρ n.id ∈ ((layout root).flatMap nodeRows).map (fun n => ρ n.id) :=
    List.mem_map.mpr ⟨n, hn, rfl⟩
  rw [hw.ids_eq, List.mem_range'_1] at hmem
  exact hmem.1

theorem real_injective (hw : Written db root projectID db' ρ) {n' : PushNodeRow H}
    (hn : n ∈ (layout root).flatMap nodeRows) (hn' : n' ∈ (layout root).flatMap nodeRows)
    (h : ρ n.id = ρ n'.id) : n = n' := by
  have hnodup : (((layout root).flatMap nodeRows).map (fun n => ρ n.id)).Nodup := by
    rw [hw.ids_eq]
    exact List.nodup_range'
  exact List.inj_on_of_nodup_map hnodup hn hn' h

variable {e : Option ID × PushTreeNode H}

theorem lt_dir (hw : Written db root projectID db' ρ) (he : e ∈ layout root) :
    db.treeNodes.length < ρ e.2.id :=
  hw.lt_real (List.mem_flatMap.mpr ⟨e, he, List.mem_cons_self⟩)

theorem dir_injective (hw : Written db root projectID db' ρ) {e' : Option ID × PushTreeNode H}
    (he : e ∈ layout root) (he' : e' ∈ layout root) (h : ρ e.2.id = ρ e'.2.id) : e = e' := by
  have hrow := hw.real_injective (List.mem_flatMap.mpr ⟨e, he, List.mem_cons_self⟩)
    (List.mem_flatMap.mpr ⟨e', he', List.mem_cons_self⟩) h
  exact layout_id_injective hw.ids_nodup he he' (congrArg PushNodeRow.id hrow)

theorem kept_ne_dir (hw : Written db root projectID db' ρ) {e' : Option ID × PushTreeNode H}
    (he : e ∈ layout root) (he' : e' ∈ layout root) {k : KeptDir H} (hk : k ∈ e.2.keepDirs) :
    ρ k.id ≠ ρ e'.2.id := by
  intro h
  have hkrow : (⟨k.id, k.hash, k.name, k.mode, some e.2.id⟩ : PushNodeRow H) ∈
      (layout root).flatMap nodeRows :=
    List.mem_flatMap.mpr ⟨e, he, List.mem_cons_of_mem _ (List.mem_map.mpr ⟨k, hk, rfl⟩)⟩
  have hrow := hw.real_injective hkrow
    (List.mem_flatMap.mpr ⟨e', he', List.mem_cons_self⟩) h
  exact layout_kept_id_ne hw.ids_nodup he he' hk (congrArg PushNodeRow.id hrow)

theorem lt_kept (hw : Written db root projectID db' ρ) (he : e ∈ layout root) {k : KeptDir H}
    (hk : k ∈ e.2.keepDirs) : db.treeNodes.length < ρ k.id :=
  hw.lt_real (n := ⟨k.id, k.hash, k.name, k.mode, some e.2.id⟩)
    (List.mem_flatMap.mpr ⟨e, he, List.mem_cons_of_mem _ (List.mem_map.mpr ⟨k, hk, rfl⟩)⟩)

/-! ## What is stored under the new rows -/

theorem dir_extends (hw : Written db root projectID db' ρ) : db.Extends db' where
  trees := by
    refine ⟨_, hw.treeNodes_eq, ?_⟩
    intro r hr p hp
    obtain ⟨e, he, rfl | ⟨k, hk, rfl⟩⟩ := mem_rows_iff.mp hr
    · obtain ⟨e', he', rfl, -⟩ := dirRow_parent he hp
      exact hw.lt_dir he'
    · obtain rfl := Option.some.inj hp
      exact hw.lt_dir he
  files := by
    refine ⟨_, hw.files_eq, ?_⟩
    intro f hf
    obtain ⟨row, hrow, rfl⟩ := List.mem_map.mp hf
    obtain ⟨e, he, hrow⟩ := List.mem_flatMap.mp hrow
    obtain ⟨nf, hnf, rfl⟩ := List.mem_map.mp hrow
    exact hw.lt_dir he

theorem mem_ownFiles_dir (hw : Written db root projectID db' ρ) (hs : db.StoreShape)
    (he : e ∈ layout root) {f : File H} :
    f ∈ db'.ownFiles (ρ e.2.id) ↔ ∃ nf ∈ e.2.files, f = nodeFile db projectID nf := by
  rw [DB.mem_ownFiles, hw.mem_files]
  constructor
  · rintro (hold | ⟨e', he', nf, hnf, heq⟩)
    · have hle : ρ e.2.id ≤ db.treeNodes.length := hs.file_le _ hold
      have hlt := hw.lt_dir he
      unfold ID at *
      omega
    · obtain ⟨hid, rfl⟩ := FileRow.mk.inj heq
      obtain rfl := hw.dir_injective he he' hid
      exact ⟨nf, hnf, rfl⟩
  · rintro ⟨nf, hnf, rfl⟩
    exact Or.inr ⟨e, he, nf, hnf, rfl⟩

theorem mem_ownChildren_dir (hw : Written db root projectID db' ρ) (hs : db.StoreShape)
    (he : e ∈ layout root) {c : TreeRow H} :
    c ∈ db'.ownChildren (ρ e.2.id) ↔ (∃ k ∈ e.2.keepDirs, c = keptRow ρ e.2 k) ∨
      ∃ t ∈ e.2.children, c = dirRow ρ (some e.2.id, t) := by
  rw [DB.mem_ownChildren, hw.mem_treeNodes]
  constructor
  · rintro ⟨hold | ⟨e', he', rfl | ⟨k, hk, rfl⟩⟩, hp⟩
    · have hle := hs.parent_le c hold _ hp
      have hlt := hw.lt_dir he
      unfold ID at *
      omega
    · obtain ⟨e'', he'', hid, hpar, hchild⟩ := dirRow_parent he' hp
      obtain rfl := hw.dir_injective he he'' hid
      refine Or.inr ⟨e'.2, hchild, ?_⟩
      rw [← hpar]
    · have hid := Option.some.inj hp
      obtain rfl := hw.dir_injective he' he hid
      exact Or.inl ⟨k, hk, rfl⟩
  · rintro (⟨k, hk, rfl⟩ | ⟨t, ht, rfl⟩)
    · exact ⟨Or.inr ⟨e, he, Or.inr ⟨k, hk, rfl⟩⟩, rfl⟩
    · exact ⟨Or.inr ⟨_, layout_children he ht, Or.inl rfl⟩, rfl⟩

theorem kept_not_hasContent (hw : Written db root projectID db' ρ) (hs : db.StoreShape)
    (he : e ∈ layout root) {k : KeptDir H} (hk : k ∈ e.2.keepDirs) : ¬ db'.hasContent (ρ k.id) := by
  have hlt := hw.lt_kept he hk
  rw [DB.hasContent_iff]
  rintro (⟨f, hf⟩ | ⟨c, hc⟩)
  · rw [DB.mem_ownFiles, hw.mem_files] at hf
    rcases hf with hold | ⟨e', he', nf, -, heq⟩
    · have hle : ρ k.id ≤ db.treeNodes.length := hs.file_le _ hold
      unfold ID at *
      omega
    · exact hw.kept_ne_dir he he' hk (FileRow.mk.inj heq).1
  · rw [DB.mem_ownChildren, hw.mem_treeNodes] at hc
    obtain ⟨hold | ⟨e', he', rfl | ⟨k', hk', rfl⟩⟩, hp⟩ := hc
    · have hle := hs.parent_le c hold _ hp
      unfold ID at *
      omega
    · obtain ⟨e'', he'', hid, -⟩ := dirRow_parent he' hp
      exact hw.kept_ne_dir he he'' hk hid
    · exact hw.kept_ne_dir he he' hk (Option.some.inj hp).symm

/-! ## The invariant of the new store -/

theorem real_le (hw : Written db root projectID db' ρ) (hn : n ∈ (layout root).flatMap nodeRows) :
    ρ n.id ≤ db'.treeNodes.length := by
  have hmem : ρ n.id ∈ ((layout root).flatMap nodeRows).map (fun n => ρ n.id) :=
    List.mem_map.mpr ⟨n, hn, rfl⟩
  rw [hw.ids_eq, List.mem_range'_1] at hmem
  rw [hw.treeNodes_eq, List.length_append, List.length_map]
  unfold ID at *
  omega

theorem dir_le (hw : Written db root projectID db' ρ) (he : e ∈ layout root) :
    ρ e.2.id ≤ db'.treeNodes.length :=
  hw.real_le (List.mem_flatMap.mpr ⟨e, he, List.mem_cons_self⟩)

theorem length_le (hw : Written db root projectID db' ρ) :
    db.treeNodes.length ≤ db'.treeNodes.length := by
  rw [hw.treeNodes_eq, List.length_append]
  exact Nat.le_add_right _ _

theorem nodeFile_chunks (hw : Written db root projectID db' ρ) (he : e ∈ layout root)
    {nf : NodeFile H} (hnf : nf ∈ e.2.files) :
    (nodeFile db projectID nf).chunks.map Chunk.hash = nf.chunkHashes :=
  map_hash_filterMap_chunkFor (hw.resolved e he nf hnf)

theorem mem_fileEntries_dir (hw : Written db root projectID db' ρ) (hs : db.StoreShape)
    (he : e ∈ layout root) (n : List UInt8) (x : H) :
    (n, x) ∈ (e.2.files.map nodeFileEntry).map (fun f => (f.name, f.hash)) ↔
      ∃ f ∈ db'.ownFiles (ρ e.2.id), utf8 f.name = n ∧ f.hash = x := by
  rw [List.map_map]
  constructor
  · intro hmem
    obtain ⟨nf, hnf, heq⟩ := List.mem_map.mp hmem
    obtain ⟨rfl, rfl⟩ := Prod.mk.inj heq
    exact ⟨_, (hw.mem_ownFiles_dir hs he).mpr ⟨nf, hnf, rfl⟩, rfl, rfl⟩
  · rintro ⟨f, hf, rfl, rfl⟩
    obtain ⟨nf, hnf, rfl⟩ := (hw.mem_ownFiles_dir hs he).mp hf
    exact List.mem_map.mpr ⟨nf, hnf, rfl⟩

/-- The hashed subdirectories of a rebuilt directory are those stored under its
row. -/
theorem mem_treeEntries_dir (hw : Written db root projectID db' ρ) (hs : db.StoreShape)
    (he : e ∈ layout root) (n : List UInt8) (x : H) :
    (n, x) ∈ (e.2.keepDirs.map keptEntry ++ e.2.children.map fun c =>
        (⟨utf8 c.name, finalize c⟩ : TreeEntry H)).map (fun t => (t.name, t.hash)) ↔
      ∃ c ∈ db'.ownChildren (ρ e.2.id), utf8 c.name = n ∧ c.hash = x := by
  rw [List.map_append, List.map_map, List.map_map, List.mem_append]
  constructor
  · rintro (hmem | hmem)
    · obtain ⟨k, hk, heq⟩ := List.mem_map.mp hmem
      obtain ⟨rfl, rfl⟩ := Prod.mk.inj heq
      exact ⟨_, (hw.mem_ownChildren_dir hs he).mpr (Or.inl ⟨k, hk, rfl⟩), rfl, rfl⟩
    · obtain ⟨t, ht, heq⟩ := List.mem_map.mp hmem
      obtain ⟨rfl, rfl⟩ := Prod.mk.inj heq
      exact ⟨_, (hw.mem_ownChildren_dir hs he).mpr (Or.inr ⟨t, ht, rfl⟩), rfl, rfl⟩
  · rintro ⟨c, hc, rfl, rfl⟩
    rcases (hw.mem_ownChildren_dir hs he).mp hc with ⟨k, hk, rfl⟩ | ⟨t, ht, rfl⟩
    · exact Or.inl (List.mem_map.mpr ⟨k, hk, rfl⟩)
    · exact Or.inr (List.mem_map.mpr ⟨t, ht, rfl⟩)

theorem faithful_dir (hw : Written db root projectID db' ρ) (hs : db.StoreShape)
    (he : e ∈ layout root) : db'.Faithful (dirRow ρ e) :=
  ⟨_, _, finalize_eq e.2, hw.mem_fileEntries_dir hs he, hw.mem_treeEntries_dir hs he⟩

theorem hash_of_not_hasContent (hw : Written db root projectID db' ρ) (hs : db.StoreShape)
    (he : e ∈ layout root) (hc : ¬ db'.hasContent (ρ e.2.id)) : finalize e.2 = treeHash [] [] := by
  rw [DB.hasContent_iff, not_or] at hc
  have hfiles : e.2.files = [] := by
    rw [List.eq_nil_iff_forall_not_mem]
    intro nf hnf
    exact hc.1 ⟨_, (hw.mem_ownFiles_dir hs he).mpr ⟨nf, hnf, rfl⟩⟩
  have hkept : e.2.keepDirs = [] := by
    rw [List.eq_nil_iff_forall_not_mem]
    intro k hk
    exact hc.2 ⟨_, (hw.mem_ownChildren_dir hs he).mpr (Or.inl ⟨k, hk, rfl⟩)⟩
  have hchildren : e.2.children = [] := by
    rw [List.eq_nil_iff_forall_not_mem]
    intro t ht
    exact hc.2 ⟨_, (hw.mem_ownChildren_dir hs he).mpr (Or.inr ⟨t, ht, rfl⟩)⟩
  rw [finalize_eq, hfiles, hkept, hchildren]
  rfl

theorem storeShape (hw : Written db root projectID db' ρ) (hs : db.StoreShape) :
    db'.StoreShape where
  ids_eq := by
    have hnew : (((layout root).flatMap nodeRows).map (realRow ρ)).map TreeRow.id =
        ((layout root).flatMap nodeRows).map (fun n => ρ n.id) := by
      rw [List.map_map]
      rfl
    rw [hw.treeNodes_eq, List.map_append, hs.ids_eq, hnew, hw.ids_eq, List.length_append,
      List.length_map, Nat.add_comm db.treeNodes.length 1, List.range'_append_1]
  parent_le := by
    intro t ht p hp
    rcases hw.mem_treeNodes.mp ht with hold | ⟨e, he, rfl | ⟨k, hk, rfl⟩⟩
    · exact le_trans (hs.parent_le t hold p hp) hw.length_le
    · obtain ⟨e', he', rfl, -⟩ := dirRow_parent he hp
      exact hw.dir_le he'
    · obtain rfl := Option.some.inj hp
      exact hw.dir_le he
  file_le := by
    intro f hf
    rcases hw.mem_files.mp hf with hold | ⟨e, he, nf, -, rfl⟩
    · exact le_trans (hs.file_le f hold) hw.length_le
    · exact hw.dir_le he
  siblings := hw.siblings hs.siblings
  fileNames := hw.fileNames hs.fileNames
  treeName := by
    intro t ht
    rcases hw.mem_treeNodes.mp ht with hold | ⟨e, he, rfl | ⟨k, hk, rfl⟩⟩
    · exact hs.treeName t hold
    · exact (hw.nodes_ok e he).name_ok
    · exact ((hw.nodes_ok e he).kept_ok k hk).1
  fileName := by
    intro f hf
    rcases hw.mem_files.mp hf with hold | ⟨e, he, nf, hnf, rfl⟩
    · exact hs.fileName f hold
    · exact ((hw.nodes_ok e he).files_ok nf hnf).1
  fileHash_eq := by
    intro f hf
    rcases hw.mem_files.mp hf with hold | ⟨e, he, nf, hnf, rfl⟩
    · exact hs.fileHash_eq f hold
    · rw [hw.nodeFile_chunks he hnf]
      exact ((hw.nodes_ok e he).files_ok nf hnf).2
  faithful := by
    intro t ht hc
    rcases hw.mem_treeNodes.mp ht with hold | ⟨e, he, rfl | ⟨k, hk, rfl⟩⟩
    · exact hw.dir_extends.faithful hs hold hc
    · exact hw.faithful_dir hs he
    · exact absurd hc (hw.kept_not_hasContent hs he hk)
  resolvable := by
    intro t ht
    rcases hw.mem_treeNodes.mp ht with hold | ⟨e, he, rfl | ⟨k, hk, rfl⟩⟩
    · exact hw.dir_extends.resolvable hs hold
    · by_cases hc : db'.hasContent (ρ e.2.id)
      · exact Or.inr ⟨_, ht, rfl, hc⟩
      · exact Or.inl (hw.hash_of_not_hasContent hs he hc)
    · obtain ⟨-, r, hr, hrh⟩ := (hw.nodes_ok e he).kept_ok k hk
      have hres := hw.dir_extends.resolvable hs hr
      rw [hrh] at hres
      exact hres

end Written

end Nipa
