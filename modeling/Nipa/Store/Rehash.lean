import Nipa.Store.Read

/-!
# Hashing a manifest again

A manifest leaves out directories that show nothing, and its hashes are computed
again from what is left.  When every stored directory below a root holds a file,
the complete manifest leaves out nothing: it has the stored hash, and the stored
hash depends on the files only.
-/

namespace Nipa

open Support

section Rehash

variable {H : Type} [HashScheme H]

def fileEntryOf (f : File H) : FileEntry H :=
  ⟨utf8 f.name, f.hash, f.mode⟩

def rowEntryOf (c : TreeRow H) : TreeEntry H :=
  ⟨utf8 c.name, c.hash⟩

mutual

/-- The hash of a manifest, from its files and its subdirectories. -/
def rehashTree : TreeNode H → H
  | .mk _ _ _ _ files trees => treeHash (files.map fileEntryOf) (rehashTrees trees)

def rehashTrees : List (TreeNode H) → List (TreeEntry H)
  | [] => []
  | t :: ts => ⟨utf8 t.name, rehashTree t⟩ :: rehashTrees ts

end

theorem rehashTrees_eq_map (ts : List (TreeNode H)) :
    rehashTrees ts = ts.map fun t => ⟨utf8 t.name, rehashTree t⟩ := by
  induction ts with
  | nil => rw [rehashTrees, List.map_nil]
  | cons t ts ih => rw [rehashTrees, List.map_cons, ih]

end Rehash

/-! ## Rows with computed hashes -/

section Computed

variable {H : Type} [HashScheme H]

namespace DB

/-- The hash of what is stored under a row. -/
def rowHash (db : DB H) (id : ID) : H :=
  treeHash ((db.ownFiles id).map fileEntryOf) ((db.ownChildren id).map rowEntryOf)

/-- Every row with content has the hash of its content. -/
def HashesContent (db : DB H) : Prop :=
  ∀ t ∈ db.treeNodes, db.hasContent t.id → t.hash = db.rowHash t.id

theorem utf8_names_nodup {α : Type} {l : List α} {name : α → Str} (h : (l.map name).Nodup) :
    (l.map fun a => utf8 (name a)).Nodup := by
  have hmap : (l.map fun a => utf8 (name a)) = (l.map name).map utf8 := by
    rw [List.map_map]
    rfl
  rw [hmap]
  exact h.map utf8_injective

omit [HashScheme H] in
theorem mem_entries_congr {α β : Type} {l : List α} {l' : List β} {name : α → Str}
    {hash : α → H} {name' : β → Str} {hash' : β → H}
    (h : ∀ n x, (∃ a ∈ l, name a = n ∧ hash a = x) ↔ ∃ b ∈ l', name' b = n ∧ hash' b = x)
    (e : List UInt8 × H) :
    e ∈ l.map (fun a => (utf8 (name a), hash a)) ↔
      e ∈ l'.map (fun b => (utf8 (name' b), hash' b)) := by
  rw [List.mem_map, List.mem_map]
  constructor
  · rintro ⟨a, ha, rfl⟩
    obtain ⟨b, hb, hn, hx⟩ := (h _ _).mp ⟨a, ha, rfl, rfl⟩
    exact ⟨b, hb, by rw [hn, hx]⟩
  · rintro ⟨b, hb, rfl⟩
    obtain ⟨a, ha, hn, hx⟩ := (h _ _).mpr ⟨b, hb, rfl, rfl⟩
    exact ⟨a, ha, by rw [hn, hx]⟩

theorem listing_hash_congr {fs fs' : List (File H)} {cs cs' : List (TreeRow H)}
    (hfs : (fs.map File.name).Nodup) (hfs' : (fs'.map File.name).Nodup)
    (hcs : (cs.map TreeRow.name).Nodup) (hcs' : (cs'.map TreeRow.name).Nodup)
    (hF : ∀ n x, (∃ f ∈ fs, f.name = n ∧ f.hash = x) ↔ ∃ f ∈ fs', f.name = n ∧ f.hash = x)
    (hC : ∀ n x, (∃ c ∈ cs, c.name = n ∧ c.hash = x) ↔ ∃ c ∈ cs', c.name = n ∧ c.hash = x) :
    treeHash (fs.map fileEntryOf) (cs.map rowEntryOf) =
      treeHash (fs'.map fileEntryOf) (cs'.map rowEntryOf) := by
  apply treeHash_congr
  · rw [List.map_map]
    exact utf8_names_nodup hfs
  · rw [List.map_map]
    exact utf8_names_nodup hfs'
  · rw [List.map_map]
    exact utf8_names_nodup hcs
  · rw [List.map_map]
    exact utf8_names_nodup hcs'
  · intro e
    rw [List.map_map, List.map_map]
    exact mem_entries_congr hF e
  · intro e
    rw [List.map_map, List.map_map]
    exact mem_entries_congr hC e

variable [DecidableEq H] {db db' : DB H}

theorem StoreShape.filesByHash_names_nodup (hs : StoreShape db) (h : H) :
    ((db.filesByHash h).map File.name).Nodup := by
  have hnodup := (hs.storeTree_distinct h).1
  rwa [storeTree, List.map_map] at hnodup

theorem StoreShape.childrenByHash_names_nodup (hs : StoreShape db) (h : H) :
    ((db.childrenByHash h).map TreeRow.name).Nodup := by
  have hnodup := (hs.storeTree_distinct h).2
  rwa [storeTree, List.map_map] at hnodup

theorem HashesContent.hash_eq (hh : HashesContent db) (hs : StoreShape db)
    (hcf : CollisionFree H) {t : TreeRow H} (ht : t ∈ db.treeNodes) :
    t.hash = treeHash ((db.filesByHash t.hash).map fileEntryOf)
      ((db.childrenByHash t.hash).map rowEntryOf) := by
  rcases hs.resolvable t ht with hempty | ⟨c, hc, hch, hcc⟩
  · obtain ⟨hfiles, hchildren⟩ := hs.empty_lists_nothing hcf
    rw [hempty, hfiles, hchildren]
    rfl
  · rw [← hch]
    refine (hh c hc hcc).trans (listing_hash_congr (hs.ownFiles_names_nodup _)
      (hs.filesByHash_names_nodup _) (hs.ownChildren_names_nodup _)
      (hs.childrenByHash_names_nodup _) ?_ ?_)
    · intro n x
      exact (hs.filesByHash_iff hcf hc hcc n x).symm
    · intro n x
      exact (hs.childrenByHash_iff hcf hc hcc n x).symm

omit [DecidableEq H] in
theorem Extends.hashes_old (he : Extends db db') (hs : StoreShape db) (hh : HashesContent db)
    {t : TreeRow H} (ht : t ∈ db.treeNodes) (hc : db'.hasContent t.id) :
    t.hash = db'.rowHash t.id := by
  have hle := (hs.id_pos_le ht).2
  rw [rowHash, he.ownFiles_eq hle, he.ownChildren_eq hle]
  exact hh t ht ((he.hasContent_iff hle).mp hc)

omit [DecidableEq H] in
theorem HashesContent.of_sameTrees (hh : HashesContent db) (h : SameTrees db db') :
    HashesContent db' := by
  rcases db with ⟨trees, files, chunks, uploads, commits, branches, locks⟩
  rcases db' with ⟨trees', files', chunks', uploads', commits', branches', locks'⟩
  obtain ⟨rfl, rfl, rfl⟩ := h
  exact hh

end DB

/-! ## Hashes of named entries -/

/-- The hash of a directory with these named file hashes and subdirectory hashes. -/
structure HashOf (h : H) (fs ts : List (Str × H)) : Prop where
  hash_eq : ∃ (files : List (FileEntry H)) (trees : List (TreeEntry H)),
    h = treeHash files trees ∧
    files.map (fun f => (f.name, f.hash)) = fs.map (fun e => (utf8 e.1, e.2)) ∧
    trees.map (fun t => (t.name, t.hash)) = ts.map fun e => (utf8 e.1, e.2)
  files_nodup : (fs.map Prod.fst).Nodup
  subs_nodup : (ts.map Prod.fst).Nodup
  files_short : ∀ e ∈ fs, (utf8 e.1).length < 2 ^ 32
  subs_short : ∀ e ∈ ts, (utf8 e.1).length < 2 ^ 32

omit [HashScheme H] in
theorem listed_eq_iff_mem {l l' : List (Str × H)} (hl : (l.map Prod.fst).Nodup)
    (hl' : (l'.map Prod.fst).Nodup) :
    (∀ k, listed l k = listed l' k) ↔
      ∀ e, e ∈ l.map (fun e => (utf8 e.1, e.2)) ↔ e ∈ l'.map fun e => (utf8 e.1, e.2) := by
  constructor
  · intro h
    apply DB.mem_entries_congr
    intro n x
    have hmem : ∀ {l : List (Str × H)}, (l.map Prod.fst).Nodup →
        ((∃ e ∈ l, e.1 = n ∧ e.2 = x) ↔ listed l n = some x) := by
      intro l hl
      rw [listed_eq_some_iff hl]
      constructor
      · rintro ⟨e, he, rfl, rfl⟩
        exact he
      · intro he
        exact ⟨_, he, rfl, rfl⟩
    rw [hmem hl, hmem hl', h]
  · intro h k
    have hmem : ∀ {l : List (Str × H)}, (l.map Prod.fst).Nodup → ∀ x,
        (listed l k = some x ↔ (utf8 k, x) ∈ l.map fun e => (utf8 e.1, e.2)) := by
      intro l hl x
      rw [listed_eq_some_iff hl, List.mem_map]
      constructor
      · intro he
        exact ⟨_, he, rfl⟩
      · rintro ⟨⟨n, y⟩, he, heq⟩
        obtain ⟨hn, rfl⟩ := Prod.mk.inj heq
        rwa [← utf8_injective hn]
    ext x
    rw [hmem hl, hmem hl', h]

theorem HashOf.eq_iff (hcf : CollisionFree H) {h h' : H} {fs fs' ts ts' : List (Str × H)}
    (hof : HashOf h fs ts) (hof' : HashOf h' fs' ts') :
    h = h' ↔ (∀ k, listed fs k = listed fs' k) ∧ ∀ k, listed ts k = listed ts' k := by
  obtain ⟨files, trees, hh, hfiles, htrees⟩ := hof.hash_eq
  obtain ⟨files', trees', hh', hfiles', htrees'⟩ := hof'.hash_eq
  have hshort : ∀ {n : List UInt8} {x : H} {l : List (Str × H)},
      (∀ e ∈ l, (utf8 e.1).length < 2 ^ 32) → (n, x) ∈ l.map (fun e => (utf8 e.1, e.2)) →
        n.length < 2 ^ 32 := by
    intro n x l hl hmem
    obtain ⟨e, he, heq⟩ := List.mem_map.mp hmem
    obtain ⟨rfl, -⟩ := Prod.mk.inj heq
    exact hl e he
  have hnames : ∀ {l : List (Str × H)}, (l.map Prod.fst).Nodup →
      ((l.map fun e => (utf8 e.1, e.2)).map Prod.fst).Nodup := by
    intro l hl
    rw [List.map_map]
    exact DB.utf8_names_nodup hl
  rw [listed_eq_iff_mem hof.files_nodup hof'.files_nodup,
    listed_eq_iff_mem hof.subs_nodup hof'.subs_nodup, ← hfiles, ← hfiles', ← htrees,
    ← htrees', hh, hh']
  constructor
  · refine treeHash_inj hcf ?_ ?_ ?_ ?_
    · exact fun f hf => hshort hof.files_short (hfiles ▸ List.mem_map_of_mem hf)
    · exact fun f hf => hshort hof'.files_short (hfiles' ▸ List.mem_map_of_mem hf)
    · exact fun t ht => hshort hof.subs_short (htrees ▸ List.mem_map_of_mem ht)
    · exact fun t ht => hshort hof'.subs_short (htrees' ▸ List.mem_map_of_mem ht)
  · rintro ⟨hF, hT⟩
    refine treeHash_congr ?_ ?_ ?_ ?_ hF hT
    · have hnodup := hnames hof.files_nodup
      rwa [← hfiles, List.map_map] at hnodup
    · have hnodup := hnames hof'.files_nodup
      rwa [← hfiles', List.map_map] at hnodup
    · have hnodup := hnames hof.subs_nodup
      rwa [← htrees, List.map_map] at hnodup
    · have hnodup := hnames hof'.subs_nodup
      rwa [← htrees', List.map_map] at hnodup

variable [DecidableEq H] {db : DB H}

theorem DB.HashesContent.hashOf (hh : db.HashesContent) (hs : db.StoreShape)
    (hcf : CollisionFree H) {t : TreeRow H} (ht : t ∈ db.treeNodes) :
    HashOf t.hash ((db.storeTree.files t.hash).map fun e => (e.1, e.2.hash))
      (db.storeTree.subs t.hash) := by
  obtain ⟨hfiles, hsubs⟩ := hs.storeTree_distinct t.hash
  refine ⟨⟨_, _, hh.hash_eq hs hcf ht, ?_, ?_⟩, by rwa [List.map_map], hsubs, ?_, ?_⟩
  · simp only [DB.storeTree, List.map_map]
    rfl
  · simp only [DB.storeTree, List.map_map]
    rfl
  · simp only [DB.storeTree, List.map_map, List.mem_map]
    rintro _ ⟨f, hf, rfl⟩
    obtain ⟨_, _, _, hown⟩ := DB.mem_filesByHash hf
    exact (hs.fileName _ (DB.mem_ownFiles.mp hown)).2
  · simp only [DB.storeTree, List.mem_map]
    rintro _ ⟨c, hc, rfl⟩
    obtain ⟨_, _, _, hown⟩ := DB.mem_childrenByHash hc
    exact (hs.treeName c (DB.mem_ownChildren.mp hown).1).2

end Computed

/-! ## Complete manifests -/

section Complete

variable {H : Type} [HashScheme H] [DecidableEq H] {db db' : DB H}

/-- The manifest of everything below a tree row. -/
def readManifest (db : DB H) (depth : ℕ) (treeID : ID) : Option (TreeNode H) :=
  (db.treeNodeGet treeID).bind fun root =>
    loadTreeManifest db true allowAllFilter [] depth root []

theorem DB.StoreShape.subOf_iff (hs : db.StoreShape) {h m : H} {k : Str} :
    db.storeTree.subOf h k = some m ↔ ∃ c ∈ db.childrenByHash h, c.name = k ∧ c.hash = m := by
  rw [Hierarchy.subOf_eq_some_iff hs.storeTree_distinct]
  simp [DB.storeTree]

theorem DB.StoreShape.fileOf_iff (hs : db.StoreShape) {h : H} {k : Str} {f : File H} :
    db.storeTree.fileOf h k = some f ↔ f ∈ db.filesByHash h ∧ f.name = k := by
  rw [Hierarchy.fileOf_eq_some_iff hs.storeTree_distinct, DB.storeTree, List.mem_map]
  constructor
  · rintro ⟨g, hg, heq⟩
    obtain ⟨rfl, rfl⟩ := Prod.mk.inj heq
    exact ⟨hg, rfl⟩
  · rintro ⟨hf, rfl⟩
    exact ⟨f, hf, rfl⟩

theorem storeTree_dirAt_valid (hs : db.StoreShape) {h m : H} {ks : List Str}
    (hdir : db.storeTree.dirAt h ks = some m) : ∀ k ∈ ks, ValidName k := by
  induction ks generalizing h with
  | nil => simp
  | cons k ks ih =>
      rw [Hierarchy.dirAt_cons] at hdir
      obtain ⟨m', hm', hbelow⟩ := Option.bind_eq_some_iff.mp hdir
      obtain ⟨c, hc, rfl, -⟩ := hs.subOf_iff.mp hm'
      intro k' hk'
      rcases List.mem_cons.mp hk' with rfl | hk'
      · exact (hs.childrenByHash_mem hc).2
      · exact ih hbelow k' hk'

theorem find_of_not_valid (hs : db.StoreShape) {h : H} {ks : List Str} (hks : ¬ ValidSegs ks) :
    db.storeTree.find h ks = none := by
  rcases hf : db.storeTree.find h ks with _ | f
  · rfl
  · exact absurd (storeTree_find_valid hs hf) hks

theorem DB.StoreShape.listing_ne_nil (hs : db.StoreShape) {h : H} {ks : List Str}
    (hks : (db.storeTree.find h ks).isSome) :
    ¬ (db.filesByHash h = [] ∧ db.childrenByHash h = []) := by
  rintro ⟨hfiles, hchildren⟩
  obtain ⟨f, hf⟩ := Option.isSome_iff_exists.mp hks
  rcases ks with _ | ⟨k, ks⟩
  · simp at hf
  · by_cases hnil : ks = []
    · subst hnil
      rw [Hierarchy.find_singleton, hs.fileOf_iff, hfiles] at hf
      simp at hf
    · rw [Hierarchy.find_cons _ _ _ hnil] at hf
      obtain ⟨m, hm, -⟩ := Option.bind_eq_some_iff.mp hf
      rw [hs.subOf_iff, hchildren] at hm
      simp at hm

/-- A manifest that is complete: it has the row's hash and shows something when
a file is below the row. -/
structure Complete (db : DB H) (row : TreeRow H) (t : TreeNode H) : Prop where
  name_eq : t.name = row.name
  hash_eq : rehashTree t = row.hash
  shows : (∃ ks, (db.storeTree.find row.hash ks).isSome) →
    ¬ (t.fileChildren = [] ∧ t.treeChildren = [])

theorem exists_complete (hs : db.StoreShape) (hh : db.HashesContent) (hcf : CollisionFree H)
    {depth : ℕ} {row : TreeRow H} (hr : row ∈ db.treeNodes)
    (hb : db.storeTree.Bounded depth row.hash) (hfill : db.storeTree.Filled row.hash)
    (path : Str) :
    ∃ t, loadTreeManifest db true allowAllFilter [] depth row path = some t ∧
      Complete db row t := by
  induction depth generalizing row path with
  | zero => exact hb.elim
  | succ depth ih =>
      have hsub : ∀ c ∈ db.childrenByHash row.hash,
          db.storeTree.subOf row.hash c.name = some c.hash := fun c hc =>
        hs.subOf_iff.mpr ⟨c, hc, rfl, rfl⟩
      have hloads : ∀ c ∈ db.childrenByHash row.hash,
          ∃ t, loadTreeManifest db true allowAllFilter [] depth c (joinTreePath path c.name) =
            some t ∧ Complete db c t := by
        intro c hc
        exact ih (hs.childrenByHash_mem hc).1 (hb (c.name, c.hash) (List.mem_map_of_mem hc))
          (hfill.sub (hsub c hc)) _
      obtain ⟨ts, hts⟩ := mapM_isSome_of_forall (f := fun c =>
          loadTreeManifest db true allowAllFilter [] depth c (joinTreePath path c.name))
          (l := db.childrenByHash row.hash) (by
        intro c hc
        obtain ⟨t, ht, -⟩ := hloads c hc
        rw [ht]
        rfl)
      have hall := mapM_eq_some_iff.mp hts
      have hcomplete : List.Forall₂ (Complete db) (db.childrenByHash row.hash) ts := by
        refine forall₂_imp_of_mem hall ?_
        intro c hc t ht
        obtain ⟨t', ht', hcomp⟩ := hloads c hc
        obtain rfl := Option.some.inj (ht.symm.trans ht')
        exact hcomp
      -- no child is left out: each one has a file below it
      have hkeep : ts.filter (fun t => !(t.fileChildren.isEmpty && t.treeChildren.isEmpty)) =
          ts := by
        rw [List.filter_eq_self]
        intro t ht
        obtain ⟨c, hc, hcomp⟩ := forall₂_mem_right hcomplete ht
        obtain ⟨ks, -, hks⟩ := hfill.sub_find (hsub c hc)
        have hshown := hcomp.shows ⟨ks, hks⟩
        rw [Bool.not_eq_true', ← Bool.not_eq_true]
        simpa using hshown
      refine ⟨.mk row.id row.hash row.name row.mode (db.filesByHash row.hash) ts, ?_, rfl, ?_,
        ?_⟩
      · rw [loadTreeManifest, DB.listFilesByTree, DB.listTreeChildren, hs.treeNodeGet_eq hr]
        have hfiles : (db.filesByHash row.hash).filter (fun f =>
            showsFile allowAllFilter [] path f.name) = db.filesByHash row.hash := by
          simp [showsFile, allowAllFilter, PrefixSet.covers]
        have hchildren : (db.childrenByHash row.hash).filter (fun c =>
            entersDir allowAllFilter [] path c.name) = db.childrenByHash row.hash := by
          simp [entersDir, allowAllFilter, PrefixSet.canDescend]
        simp only [if_true]
        rw [hfiles, hchildren, hts]
        simp only
        rw [hkeep]
      · have hentries : ts.map (fun t => (⟨utf8 t.name, rehashTree t⟩ : TreeEntry H)) =
            (db.childrenByHash row.hash).map rowEntryOf := by
          refine map_eq_of_forall₂ (List.forall₂_map_left_iff.mpr (hcomplete.imp ?_))
          intro c t hcomp
          rw [rowEntryOf, hcomp.name_eq, hcomp.hash_eq]
        rw [rehashTree, rehashTrees_eq_map, hentries]
        exact (hh.hash_eq hs hcf hr).symm
      · rintro ⟨ks, hks⟩ ⟨hfiles, htrees⟩
        refine hs.listing_ne_nil hks ⟨hfiles, ?_⟩
        have hlen := hcomplete.length_eq
        simp only [TreeNode.treeChildren] at htrees
        rw [htrees, List.length_nil] at hlen
        exact List.eq_nil_of_length_eq_zero hlen

/-- Stored trees have one hash exactly when they hold the same files in the same
directories. -/
theorem stored_hash_eq_iff (hs : db.StoreShape) (hs' : db'.StoreShape)
    (hh : db.HashesContent) (hh' : db'.HashesContent) (hcf : CollisionFree H) {depth : ℕ}
    {row row' : TreeRow H} (hr : row ∈ db.treeNodes) (hr' : row' ∈ db'.treeNodes)
    (hb : db.storeTree.Bounded depth row.hash) :
    row.hash = row'.hash ↔
      (∀ ks, (db.storeTree.find row.hash ks).map File.hash =
        (db'.storeTree.find row'.hash ks).map File.hash) ∧
      ∀ ks, (db.storeTree.dirAt row.hash ks).isSome ↔
        (db'.storeTree.dirAt row'.hash ks).isSome := by
  have hsub : ∀ {db : DB H}, db.StoreShape → ∀ (h : H) (k : Str) (m : H),
      (∃ t ∈ db.treeNodes, t.hash = h) → db.storeTree.subOf h k = some m →
        ∃ t ∈ db.treeNodes, t.hash = m := by
    intro db hs h k m _ hm
    obtain ⟨c, hc, -, rfl⟩ := hs.subOf_iff.mp hm
    exact ⟨c, (hs.childrenByHash_mem hc).1, rfl⟩
  refine Hierarchy.rel_iff_observe db.storeTree db'.storeTree File.hash File.hash
    (fun h h' => h = h') (fun h => ∃ t ∈ db.treeNodes, t.hash = h)
    (fun h => ∃ t ∈ db'.treeNodes, t.hash = h) (hsub hs) (hsub hs') ?_ hb ⟨row, hr, rfl⟩
    ⟨row', hr', rfl⟩
  rintro _ _ ⟨t, ht, rfl⟩ ⟨t', ht', rfl⟩
  rw [(hh.hashOf hs hcf ht).eq_iff hcf (hh'.hashOf hs' hcf ht')]
  simp only [listed_map_snd, option_rel_map (f := fun x : H => x) (g := fun x => x),
    Option.map_id']
  rfl

theorem hash_eq_of_find_eq (hs : db.StoreShape) (hs' : db'.StoreShape)
    (hh : db.HashesContent) (hh' : db'.HashesContent) (hcf : CollisionFree H) {depth : ℕ}
    {row row' : TreeRow H} (hr : row ∈ db.treeNodes) (hr' : row' ∈ db'.treeNodes)
    (hb : db.storeTree.Bounded depth row.hash) (hfill : db.storeTree.Filled row.hash)
    (hfill' : db'.storeTree.Filled row'.hash)
    (hfind : ∀ ks, (db.storeTree.find row.hash ks).map File.hash =
      (db'.storeTree.find row'.hash ks).map File.hash) : row.hash = row'.hash := by
  refine (stored_hash_eq_iff hs hs' hh hh' hcf hr hr' hb).mpr ⟨hfind, fun ks => ?_⟩
  constructor
  · exact hfill.dirAt_isSome hfind
  · exact hfill'.dirAt_isSome fun ks => (hfind ks).symm

end Complete

end Nipa
