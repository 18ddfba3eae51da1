import Nipa.Store.Tables
import Nipa.Push.Paths

/-!
# The store invariant

A row that holds content of its own is hash-faithful: its hash is the tree
hash of exactly the entries stored under it.  Every other row is either empty
or shares its hash with a row that holds the content.  Under an ideal hash a
directory listing is then a function of the hash alone, and appending rows
never changes what an existing hash reads as.
-/

namespace Nipa

open Support

/-- An entry name as it is stored: valid, and short enough for its length to
be hashed without truncation. -/
def StoredName (n : Str) : Prop :=
  ValidName n ∧ (utf8 n).length < 2 ^ 32

/-- Names are unique among the rows below one parent. -/
def SiblingsDistinct {H : Type} (rows : List (TreeRow H)) : Prop :=
  rows.Pairwise fun t t' =>
    ¬ (t'.parentTreeID.isSome ∧ t.parentTreeID = t'.parentTreeID ∧ t.name = t'.name)

/-- File names are unique within a tree row. -/
def FileNamesDistinct {H : Type} (rows : List (FileRow H)) : Prop :=
  rows.Pairwise fun f g => ¬ (f.treeID = g.treeID ∧ f.file.name = g.file.name)

namespace DB

section Content

variable {H : Type}

variable {db : DB H}

theorem mem_ownFiles {id : ID} {f : File H} : f ∈ db.ownFiles id ↔ ⟨id, f⟩ ∈ db.files := by
  rw [ownFiles, List.mem_map]
  constructor
  · rintro ⟨⟨tid, g⟩, hg, rfl⟩
    obtain ⟨hmem, hid⟩ := List.mem_filter.mp hg
    have : tid = id := by simpa using hid
    rwa [← this]
  · intro h
    exact ⟨⟨id, f⟩, List.mem_filter.mpr ⟨h, by simp⟩, rfl⟩

theorem mem_ownChildren {id : ID} {t : TreeRow H} :
    t ∈ db.ownChildren id ↔ t ∈ db.treeNodes ∧ t.parentTreeID = some id := by
  rw [ownChildren, List.mem_filter]
  simp

theorem hasFiles_iff {id : ID} : db.hasFiles id ↔ ∃ f, f ∈ db.ownFiles id := by
  rw [hasFiles, List.any_eq_true]
  constructor
  · rintro ⟨⟨tid, f⟩, hmem, hid⟩
    have : tid = id := by simpa using hid
    exact ⟨f, mem_ownFiles.mpr (this ▸ hmem)⟩
  · rintro ⟨f, hf⟩
    exact ⟨⟨id, f⟩, mem_ownFiles.mp hf, by simp⟩

theorem hasChildren_iff {id : ID} : db.hasChildren id ↔ ∃ t, t ∈ db.ownChildren id := by
  rw [hasChildren, List.any_eq_true]
  constructor
  · rintro ⟨t, ht, hp⟩
    exact ⟨t, mem_ownChildren.mpr ⟨ht, by simpa using hp⟩⟩
  · rintro ⟨t, ht⟩
    obtain ⟨hmem, hp⟩ := mem_ownChildren.mp ht
    exact ⟨t, hmem, by simpa using hp⟩

theorem hasContent_iff {id : ID} :
    db.hasContent id ↔ (∃ f, f ∈ db.ownFiles id) ∨ ∃ t, t ∈ db.ownChildren id := by
  rw [hasContent, Bool.or_eq_true, hasFiles_iff, hasChildren_iff]

variable [DecidableEq H]

theorem contentRow_eq_some_iff {p : ID → Bool} {h : H} {id : ID} :
    db.contentRow p h = some id ↔
      (∃ t ∈ db.treeNodes, t.hash = h ∧ p t.id ∧ t.id = id) ∧
        ∀ t ∈ db.treeNodes, t.hash = h → p t.id → id ≤ t.id := by
  rw [contentRow, List.min?_eq_some_iff]
  constructor
  · rintro ⟨hmem, hmin⟩
    obtain ⟨t, ht, rfl⟩ := List.mem_map.mp hmem
    obtain ⟨htmem, hcond⟩ := List.mem_filter.mp ht
    rw [Bool.and_eq_true, decide_eq_true_eq] at hcond
    refine ⟨⟨t, htmem, hcond.1, hcond.2, rfl⟩, ?_⟩
    intro t' ht' hh hp
    apply hmin
    exact List.mem_map_of_mem (List.mem_filter.mpr ⟨ht', by simp [hh, hp]⟩)
  · rintro ⟨⟨t, ht, hh, hp, rfl⟩, hmin⟩
    constructor
    · exact List.mem_map_of_mem (List.mem_filter.mpr ⟨ht, by simp [hh, hp]⟩)
    · intro b hb
      obtain ⟨t', ht', rfl⟩ := List.mem_map.mp hb
      obtain ⟨htmem, hcond⟩ := List.mem_filter.mp ht'
      rw [Bool.and_eq_true, decide_eq_true_eq] at hcond
      exact hmin t' htmem hcond.1 hcond.2

theorem contentRow_eq_none_iff {p : ID → Bool} {h : H} :
    db.contentRow p h = none ↔ ∀ t ∈ db.treeNodes, t.hash = h → ¬ p t.id := by
  rw [contentRow, List.min?_eq_none_iff, List.map_eq_nil_iff, List.filter_eq_nil_iff]
  constructor
  · intro hnone t ht hh hp
    exact hnone t ht (by simp [hh, hp])
  · intro hnone t ht hcond
    rw [Bool.and_eq_true, decide_eq_true_eq] at hcond
    exact hnone t ht hcond.1 hcond.2

end Content

/-! ## Hash-faithful rows -/

section Faithful

variable {H : Type}

theorem utf8_named_iff {α β : Type} {l : List α} {l' : List β} {name : α → Str}
    {hash : α → H} {name' : β → Str} {hash' : β → H}
    {L L' : List (List UInt8 × H)}
    (hL : ∀ n x, (n, x) ∈ L ↔ ∃ a ∈ l, utf8 (name a) = n ∧ hash a = x)
    (hL' : ∀ n x, (n, x) ∈ L' ↔ ∃ b ∈ l', utf8 (name' b) = n ∧ hash' b = x)
    (h : ∀ e, e ∈ L ↔ e ∈ L') (n : Str) (x : H) :
    (∃ a ∈ l, name a = n ∧ hash a = x) ↔ ∃ b ∈ l', name' b = n ∧ hash' b = x := by
  have hiff := (hL (utf8 n) x).symm.trans ((h (utf8 n, x)).trans (hL' (utf8 n) x))
  simpa only [utf8_injective.eq_iff] using hiff

theorem length_lt_of_named {α : Type} {l : List α} {name : α → Str} {hash : α → H}
    {L : List (List UInt8 × H)}
    (hL : ∀ n x, (n, x) ∈ L ↔ ∃ a ∈ l, utf8 (name a) = n ∧ hash a = x)
    (hl : ∀ a ∈ l, (utf8 (name a)).length < 2 ^ 32) :
    ∀ e ∈ L, e.1.length < 2 ^ 32 := by
  rintro ⟨n, x⟩ he
  obtain ⟨a, ha, rfl, -⟩ := (hL n x).mp he
  exact hl a ha

variable [HashScheme H]

/-- The hash of the row is the tree hash of the entries stored under it. -/
def Faithful (db : DB H) (t : TreeRow H) : Prop :=
  ∃ (fs : List (FileEntry H)) (ts : List (TreeEntry H)), t.hash = treeHash fs ts ∧
    (∀ n x, (n, x) ∈ fs.map (fun f => (f.name, f.hash)) ↔
      ∃ f ∈ db.ownFiles t.id, utf8 f.name = n ∧ f.hash = x) ∧
    ∀ n x, (n, x) ∈ ts.map (fun c => (c.name, c.hash)) ↔
      ∃ c ∈ db.ownChildren t.id, utf8 c.name = n ∧ c.hash = x

/-- The row and reference structure of the tables. -/
structure StoreShape (db : DB H) : Prop where
  ids_eq : db.treeNodes.map TreeRow.id = List.range' 1 db.treeNodes.length
  parent_le : ∀ t ∈ db.treeNodes, ∀ p, t.parentTreeID = some p → p ≤ db.treeNodes.length
  file_le : ∀ f ∈ db.files, f.treeID ≤ db.treeNodes.length
  siblings : SiblingsDistinct db.treeNodes
  fileNames : FileNamesDistinct db.files
  treeName : ∀ t ∈ db.treeNodes, StoredName t.name
  fileName : ∀ f ∈ db.files, StoredName f.file.name
  fileHash_eq : ∀ f ∈ db.files, f.file.hash = fileHash (f.file.chunks.map Chunk.hash)
  faithful : ∀ t ∈ db.treeNodes, db.hasContent t.id → db.Faithful t
  resolvable : ∀ t ∈ db.treeNodes, t.hash = treeHash [] [] ∨
    ∃ c ∈ db.treeNodes, c.hash = t.hash ∧ db.hasContent c.id

variable {db : DB H}

theorem StoreShape.ids_nodup (hs : StoreShape db) :
    (db.treeNodes.map TreeRow.id).Nodup := by
  rw [hs.ids_eq]
  exact List.nodup_range'

variable {t : TreeRow H}

theorem StoreShape.id_pos_le (hs : StoreShape db) (ht : t ∈ db.treeNodes) :
    1 ≤ t.id ∧ t.id ≤ db.treeNodes.length := by
  have hmem : t.id ∈ db.treeNodes.map TreeRow.id := List.mem_map_of_mem ht
  rw [hs.ids_eq, List.mem_range'_1] at hmem
  unfold ID at *
  omega

theorem StoreShape.treeNodeGet_eq (hs : StoreShape db) (ht : t ∈ db.treeNodes) :
    db.treeNodeGet t.id = some t :=
  (find?_key_eq_some_iff hs.ids_nodup).mpr ⟨ht, rfl⟩

theorem StoreShape.eq_of_id_eq (hs : StoreShape db) {t' : TreeRow H} (ht : t ∈ db.treeNodes)
    (ht' : t' ∈ db.treeNodes) (h : t.id = t'.id) : t = t' := by
  have hget := hs.treeNodeGet_eq ht
  rw [h, hs.treeNodeGet_eq ht'] at hget
  exact (Option.some.inj hget).symm

theorem StoreShape.ownFiles_names_nodup (hs : StoreShape db) (id : ID) :
    ((db.ownFiles id).map File.name).Nodup := by
  rw [ownFiles, List.map_map, List.Nodup, List.pairwise_map]
  have hsub : (db.files.filter fun f => f.treeID = id).Pairwise
      fun f g => ¬ (f.treeID = g.treeID ∧ f.file.name = g.file.name) :=
    List.Pairwise.filter _ hs.fileNames
  refine hsub.imp_of_mem ?_
  intro f g hf hg hne heq
  have hft : f.treeID = id := by simpa using (List.mem_filter.mp hf).2
  have hgt : g.treeID = id := by simpa using (List.mem_filter.mp hg).2
  exact hne ⟨hft.trans hgt.symm, heq⟩

theorem StoreShape.ownChildren_names_nodup (hs : StoreShape db) (id : ID) :
    ((db.ownChildren id).map TreeRow.name).Nodup := by
  rw [List.Nodup, List.pairwise_map]
  have hsub : (db.ownChildren id).Pairwise fun t t' =>
      ¬ (t'.parentTreeID.isSome ∧ t.parentTreeID = t'.parentTreeID ∧ t.name = t'.name) :=
    List.Pairwise.filter _ hs.siblings
  refine hsub.imp_of_mem ?_
  intro t t' ht ht' hne heq
  have hp := (mem_ownChildren.mp ht).2
  have hp' := (mem_ownChildren.mp ht').2
  exact hne ⟨by rw [hp']; rfl, hp.trans hp'.symm, heq⟩

theorem Faithful.same_entries {db db' : DB H} (hcf : CollisionFree H) {t' : TreeRow H}
    (hf : db.Faithful t) (hf' : db'.Faithful t') (hs : StoreShape db) (hs' : StoreShape db')
    (h : t.hash = t'.hash) :
    (∀ n x, (∃ f ∈ db.ownFiles t.id, f.name = n ∧ f.hash = x) ↔
      ∃ f ∈ db'.ownFiles t'.id, f.name = n ∧ f.hash = x) ∧
    ∀ n x, (∃ c ∈ db.ownChildren t.id, c.name = n ∧ c.hash = x) ↔
      ∃ c ∈ db'.ownChildren t'.id, c.name = n ∧ c.hash = x := by
  obtain ⟨fs, ts, hhash, hfs, hts⟩ := hf
  obtain ⟨fs', ts', hhash', hfs', hts'⟩ := hf'
  have hfile : ∀ f ∈ db.ownFiles t.id, (utf8 f.name).length < 2 ^ 32 := fun f hf =>
    (hs.fileName _ (mem_ownFiles.mp hf)).2
  have hfile' : ∀ f ∈ db'.ownFiles t'.id, (utf8 f.name).length < 2 ^ 32 := fun f hf =>
    (hs'.fileName _ (mem_ownFiles.mp hf)).2
  have htree : ∀ c ∈ db.ownChildren t.id, (utf8 c.name).length < 2 ^ 32 := fun c hc =>
    (hs.treeName c (mem_ownChildren.mp hc).1).2
  have htree' : ∀ c ∈ db'.ownChildren t'.id, (utf8 c.name).length < 2 ^ 32 := fun c hc =>
    (hs'.treeName c (mem_ownChildren.mp hc).1).2
  obtain ⟨hF, hT⟩ := treeHash_inj hcf
    (by simpa using length_lt_of_named hfs hfile)
    (by simpa using length_lt_of_named hfs' hfile')
    (by simpa using length_lt_of_named hts htree)
    (by simpa using length_lt_of_named hts' htree')
    (hhash.symm.trans (h.trans hhash'))
  exact ⟨utf8_named_iff hfs hfs' hF, utf8_named_iff hts hts' hT⟩

theorem Faithful.hash_ne_empty {db : DB H} (hcf : CollisionFree H) (hf : db.Faithful t)
    (hs : StoreShape db) (hc : db.hasContent t.id) : t.hash ≠ treeHash [] [] := by
  intro h
  obtain ⟨fs, ts, hhash, hfs, hts⟩ := hf
  have hfile : ∀ f ∈ db.ownFiles t.id, (utf8 f.name).length < 2 ^ 32 := fun f hf =>
    (hs.fileName _ (mem_ownFiles.mp hf)).2
  have htree : ∀ c ∈ db.ownChildren t.id, (utf8 c.name).length < 2 ^ 32 := fun c hc =>
    (hs.treeName c (mem_ownChildren.mp hc).1).2
  obtain ⟨hF, hT⟩ := treeHash_inj hcf
    (by simpa using length_lt_of_named hfs hfile) (by simp)
    (by simpa using length_lt_of_named hts htree) (by simp)
    (hhash.symm.trans h)
  rcases hasContent_iff.mp hc with ⟨f, hf⟩ | ⟨c, hc⟩
  · have := (hF _).mp ((hfs (utf8 f.name) f.hash).mpr ⟨f, hf, rfl, rfl⟩)
    simp at this
  · have := (hT _).mp ((hts (utf8 c.name) c.hash).mpr ⟨c, hc, rfl, rfl⟩)
    simp at this

end Faithful

/-! ## Listings by hash -/

section Listing

variable {H : Type} [DecidableEq H]

theorem mem_filesByHash {db : DB H} {h : H} {f : File H} (hf : f ∈ db.filesByHash h) :
    ∃ t ∈ db.treeNodes, t.hash = h ∧ f ∈ db.ownFiles t.id := by
  rw [filesByHash] at hf
  split at hf
  · simp at hf
  next id hid =>
    obtain ⟨⟨t, ht, hh, -, rfl⟩, -⟩ := contentRow_eq_some_iff.mp hid
    exact ⟨t, ht, hh, (List.mem_insertionSort _).mp hf⟩

theorem mem_childrenByHash {db : DB H} {h : H} {c : TreeRow H}
    (hc : c ∈ db.childrenByHash h) :
    ∃ t ∈ db.treeNodes, t.hash = h ∧ c ∈ db.ownChildren t.id := by
  rw [childrenByHash] at hc
  split at hc
  · simp at hc
  next id hid =>
    obtain ⟨⟨t, ht, hh, -, rfl⟩, -⟩ := contentRow_eq_some_iff.mp hid
    exact ⟨t, ht, hh, (List.mem_insertionSort _).mp hc⟩

variable {db : DB H}

theorem filesByHash_eq_nil {h : H}
    (hnone : ∀ t ∈ db.treeNodes, t.hash = h → ¬ db.hasContent t.id) :
    db.filesByHash h = [] ∧ db.childrenByHash h = [] := by
  constructor
  · rw [List.eq_nil_iff_forall_not_mem]
    intro f hf
    obtain ⟨t, ht, hh, hown⟩ := mem_filesByHash hf
    exact hnone t ht hh (hasContent_iff.mpr (Or.inl ⟨f, hown⟩))
  · rw [List.eq_nil_iff_forall_not_mem]
    intro c hc
    obtain ⟨t, ht, hh, hown⟩ := mem_childrenByHash hc
    exact hnone t ht hh (hasContent_iff.mpr (Or.inr ⟨c, hown⟩))

variable [HashScheme H]

theorem StoreShape.storeTree_distinct (hs : StoreShape db) : db.storeTree.Distinct := by
  intro h
  constructor
  · have hmap : (db.storeTree.files h).map Prod.fst = (db.filesByHash h).map File.name := by
      simp [storeTree]
    rw [hmap, filesByHash]
    split
    · simp
    next id _ =>
      have hperm := (List.perm_insertionSort (fun a b : File H => a.name ≤ b.name)
        (db.ownFiles id)).map File.name
      exact hperm.nodup_iff.mpr (hs.ownFiles_names_nodup id)
  · have hmap : (db.storeTree.subs h).map Prod.fst =
        (db.childrenByHash h).map TreeRow.name := by
      simp [storeTree]
    rw [hmap, childrenByHash]
    split
    · simp
    next id _ =>
      have hperm := (List.perm_insertionSort (fun a b : TreeRow H => a.name ≤ b.name)
        (db.ownChildren id)).map TreeRow.name
      exact hperm.nodup_iff.mpr (hs.ownChildren_names_nodup id)

/-- The files listed for a hash are, up to metadata, those of any row that
holds the content. -/
theorem StoreShape.filesByHash_iff (hs : StoreShape db) (hcf : CollisionFree H)
    {t : TreeRow H} (ht : t ∈ db.treeNodes) (hc : db.hasContent t.id) (n : Str) (x : H) :
    (∃ f ∈ db.filesByHash t.hash, f.name = n ∧ f.hash = x) ↔
      ∃ f ∈ db.ownFiles t.id, f.name = n ∧ f.hash = x := by
  have hsame : ∀ t' ∈ db.treeNodes, t'.hash = t.hash → db.hasFiles t'.id →
      ((∃ f ∈ db.ownFiles t'.id, f.name = n ∧ f.hash = x) ↔
        ∃ f ∈ db.ownFiles t.id, f.name = n ∧ f.hash = x) := by
    intro t' ht' hh hf
    have hc' : db.hasContent t'.id := by rw [hasContent, hf, Bool.true_or]
    exact (Faithful.same_entries hcf (hs.faithful t' ht' hc') (hs.faithful t ht hc) hs hs
      hh).1 n x
  rw [filesByHash]
  split
  next hnone =>
    rw [contentRow_eq_none_iff] at hnone
    constructor
    · rintro ⟨f, hf, -⟩
      simp at hf
    · rintro ⟨f, hf, -⟩
      exact absurd (hasFiles_iff.mpr ⟨f, hf⟩) (hnone t ht rfl)
  next id hid =>
    obtain ⟨⟨t', ht', hh, hp, rfl⟩, -⟩ := contentRow_eq_some_iff.mp hid
    simp only [List.mem_insertionSort]
    exact hsame t' ht' hh hp

/-- The subdirectories listed for a hash are those of any row that holds the
content, up to row numbers. -/
theorem StoreShape.childrenByHash_iff (hs : StoreShape db) (hcf : CollisionFree H)
    {t : TreeRow H} (ht : t ∈ db.treeNodes) (hc : db.hasContent t.id) (n : Str) (x : H) :
    (∃ c ∈ db.childrenByHash t.hash, c.name = n ∧ c.hash = x) ↔
      ∃ c ∈ db.ownChildren t.id, c.name = n ∧ c.hash = x := by
  rw [childrenByHash]
  split
  next hnone =>
    rw [contentRow_eq_none_iff] at hnone
    exact absurd hc (hnone t ht rfl)
  next id hid =>
    obtain ⟨⟨t', ht', hh, hp, rfl⟩, -⟩ := contentRow_eq_some_iff.mp hid
    simp only [List.mem_insertionSort]
    exact (Faithful.same_entries hcf (hs.faithful t' ht' hp) (hs.faithful t ht hc) hs hs
      hh).2 n x

theorem StoreShape.empty_lists_nothing (hs : StoreShape db) (hcf : CollisionFree H) :
    db.filesByHash (treeHash [] []) = [] ∧ db.childrenByHash (treeHash [] []) = [] := by
  apply filesByHash_eq_nil
  intro t ht hh hc
  exact (hs.faithful t ht hc).hash_ne_empty hcf hs hc hh

end Listing

/-! ## Appending rows -/

section Extension

variable {H : Type}

/-- `db'` has more rows than `db`, and the new ones refer only to new rows. -/
structure Extends (db db' : DB H) : Prop where
  trees : ∃ rows, db'.treeNodes = db.treeNodes ++ rows ∧
    ∀ t ∈ rows, ∀ p, t.parentTreeID = some p → db.treeNodes.length < p
  files : ∃ rows, db'.files = db.files ++ rows ∧
    ∀ f ∈ rows, db.treeNodes.length < f.treeID

variable {db db' : DB H}

variable {t : TreeRow H}

theorem Extends.mem_treeNodes (he : Extends db db') (ht : t ∈ db.treeNodes) :
    t ∈ db'.treeNodes := by
  obtain ⟨rows, heq, -⟩ := he.trees
  rw [heq]
  exact List.mem_append_left _ ht

theorem Extends.ownFiles_eq (he : Extends db db') {id : ID} (hid : id ≤ db.treeNodes.length) :
    db'.ownFiles id = db.ownFiles id := by
  obtain ⟨rows, heq, hnew⟩ := he.files
  have hnil : rows.filter (fun f => f.treeID = id) = [] := by
    rw [List.filter_eq_nil_iff]
    intro f hf
    have := hnew f hf
    unfold ID at *
    simp
    omega
  rw [ownFiles, ownFiles, heq, List.filter_append, hnil, List.append_nil]

theorem Extends.ownChildren_eq (he : Extends db db') {id : ID}
    (hid : id ≤ db.treeNodes.length) : db'.ownChildren id = db.ownChildren id := by
  obtain ⟨rows, heq, hnew⟩ := he.trees
  have hnil : rows.filter (fun t => t.parentTreeID = some id) = [] := by
    rw [List.filter_eq_nil_iff]
    intro t ht hp
    have := hnew t ht id (by simpa using hp)
    unfold ID at *
    omega
  rw [ownChildren, ownChildren, heq, List.filter_append, hnil, List.append_nil]

theorem Extends.hasFiles_iff (he : Extends db db') {id : ID}
    (hid : id ≤ db.treeNodes.length) : db'.hasFiles id ↔ db.hasFiles id := by
  rw [DB.hasFiles_iff, DB.hasFiles_iff, he.ownFiles_eq hid]

theorem Extends.hasContent_iff (he : Extends db db') {id : ID}
    (hid : id ≤ db.treeNodes.length) : db'.hasContent id ↔ db.hasContent id := by
  rw [DB.hasContent_iff, DB.hasContent_iff, he.ownFiles_eq hid, he.ownChildren_eq hid]

variable [HashScheme H]

theorem Extends.old_or_new (he : Extends db db') (hs' : StoreShape db') (ht : t ∈ db'.treeNodes) :
    t ∈ db.treeNodes ∨ db.treeNodes.length < t.id := by
  obtain ⟨rows, heq, -⟩ := he.trees
  rw [heq] at ht
  rcases List.mem_append.mp ht with ht | ht
  · exact Or.inl ht
  · refine Or.inr ?_
    have hids := hs'.ids_eq
    rw [heq, List.map_append, List.length_append] at hids
    have hsplit : List.range' 1 (db.treeNodes.length + rows.length) =
        List.range' 1 db.treeNodes.length ++
          List.range' (1 + db.treeNodes.length) rows.length := by
      rw [List.range'_append_1]
    rw [hsplit] at hids
    have hrows := (List.append_inj hids (by simp)).2
    have hmem : t.id ∈ rows.map TreeRow.id := List.mem_map_of_mem ht
    rw [hrows, List.mem_range'_1] at hmem
    unfold ID at *
    omega

theorem Extends.faithful (he : Extends db db') (hs : StoreShape db) (ht : t ∈ db.treeNodes)
    (hc : db'.hasContent t.id) : db'.Faithful t := by
  have hle := (hs.id_pos_le ht).2
  have hf := hs.faithful t ht ((he.hasContent_iff hle).mp hc)
  rw [Faithful, he.ownFiles_eq hle, he.ownChildren_eq hle]
  exact hf

theorem Extends.resolvable (he : Extends db db') (hs : StoreShape db) (ht : t ∈ db.treeNodes) :
    t.hash = treeHash [] [] ∨
      ∃ c ∈ db'.treeNodes, c.hash = t.hash ∧ db'.hasContent c.id := by
  rcases hs.resolvable t ht with hempty | ⟨c, hc, hh, hcc⟩
  · exact Or.inl hempty
  · exact Or.inr ⟨c, he.mem_treeNodes hc, hh,
      (he.hasContent_iff (hs.id_pos_le hc).2).mpr hcc⟩

/-- A row with content that shares the hash of an old row adds nothing: some old
row already holds the same entries. -/
theorem old_content (hs : StoreShape db) (hs' : StoreShape db') (hcf : CollisionFree H)
    {t' : TreeRow H} (ht : t ∈ db.treeNodes) (ht' : t' ∈ db'.treeNodes) (hh : t'.hash = t.hash)
    (hc' : db'.hasContent t'.id) :
    ∃ c ∈ db.treeNodes, c.hash = t.hash ∧ db.hasContent c.id ∧
      (db'.hasFiles t'.id → db.hasFiles c.id) := by
  have hf' := hs'.faithful t' ht' hc'
  rcases hs.resolvable t ht with hempty | ⟨c, hc, hch, hcc⟩
  · exact absurd (hh.trans hempty) (hf'.hash_ne_empty hcf hs' hc')
  · refine ⟨c, hc, hch, hcc, ?_⟩
    intro hfiles
    obtain ⟨f, hf⟩ := DB.hasFiles_iff.mp hfiles
    obtain ⟨hsame, -⟩ := Faithful.same_entries hcf hf' (hs.faithful c hc hcc) hs' hs
      (hh.trans hch.symm)
    obtain ⟨g, hg, -⟩ := (hsame f.name f.hash).mp ⟨f, hf, rfl, rfl⟩
    exact DB.hasFiles_iff.mpr ⟨g, hg⟩

variable [DecidableEq H]

theorem Extends.contentRow_eq (he : Extends db db') (hs : StoreShape db)
    (hs' : StoreShape db') {p p' : ID → Bool}
    (hp : ∀ id ≤ db.treeNodes.length, p' id ↔ p id) {h : H} {id : ID}
    (hid : db.contentRow p h = some id) :
    db'.contentRow p' h = some id ∧ id ≤ db.treeNodes.length := by
  obtain ⟨⟨t, ht, hh, hpt, rfl⟩, hmin⟩ := contentRow_eq_some_iff.mp hid
  have hle := (hs.id_pos_le ht).2
  refine ⟨contentRow_eq_some_iff.mpr ⟨⟨t, he.mem_treeNodes ht, hh, (hp _ hle).mpr hpt,
    rfl⟩, ?_⟩, hle⟩
  intro t' ht' hh' hp'
  rcases he.old_or_new hs' ht' with hold | hnew
  · exact hmin t' hold hh' ((hp _ (hs.id_pos_le hold).2).mp hp')
  · unfold ID at *
    omega

theorem Extends.listing_eq (he : Extends db db') (hs : StoreShape db) (hs' : StoreShape db')
    (hcf : CollisionFree H) (ht : t ∈ db.treeNodes) :
    db'.filesByHash t.hash = db.filesByHash t.hash ∧
      db'.childrenByHash t.hash = db.childrenByHash t.hash := by
  constructor
  · rw [filesByHash, filesByHash]
    rcases hrow : db.contentRow db.hasFiles t.hash with _ | id
    · have hnone : db'.contentRow db'.hasFiles t.hash = none := by
        rw [contentRow_eq_none_iff] at hrow ⊢
        intro t' ht' hh hf
        have hc' : db'.hasContent t'.id := by rw [hasContent, hf, Bool.true_or]
        obtain ⟨c, hc, hch, -, hfc⟩ := old_content hs hs' hcf ht ht' hh hc'
        exact hrow c hc hch (hfc hf)
      rw [hnone]
    · obtain ⟨hrow', hle⟩ := he.contentRow_eq hs hs' (fun _ h => he.hasFiles_iff h) hrow
      rw [hrow']
      exact congrArg _ (he.ownFiles_eq hle)
  · rw [childrenByHash, childrenByHash]
    rcases hrow : db.contentRow db.hasContent t.hash with _ | id
    · have hnone : db'.contentRow db'.hasContent t.hash = none := by
        rw [contentRow_eq_none_iff] at hrow ⊢
        intro t' ht' hh hc'
        obtain ⟨c, hc, hch, hcc, -⟩ := old_content hs hs' hcf ht ht' hh hc'
        exact hrow c hc hch hcc
      rw [hnone]
    · obtain ⟨hrow', hle⟩ := he.contentRow_eq hs hs'
        (fun _ h => he.hasContent_iff h) hrow
      rw [hrow']
      exact congrArg _ (he.ownChildren_eq hle)

theorem Extends.subOf_rel (he : Extends db db') (hs : StoreShape db) (hs' : StoreShape db')
    (hcf : CollisionFree H) {h h' : H} (hh : h = h' ∧ ∃ t ∈ db.treeNodes, t.hash = h)
    (k : Str) :
    Option.Rel (fun h h' => h = h' ∧ ∃ t ∈ db.treeNodes, t.hash = h)
      (db'.storeTree.subOf h k) (db.storeTree.subOf h' k) := by
  obtain ⟨rfl, t, ht, rfl⟩ := hh
  have hsubs : db'.storeTree.subs t.hash = db.storeTree.subs t.hash := by
    simp only [storeTree]
    rw [(he.listing_eq hs hs' hcf ht).2]
  rw [Hierarchy.subOf, Hierarchy.subOf, hsubs]
  rcases hk : listed (db.storeTree.subs t.hash) k with _ | h
  · exact Option.Rel.none
  · refine Option.Rel.some ⟨rfl, ?_⟩
    obtain ⟨c, hc, heq⟩ := List.mem_map.mp (mem_of_listed hk)
    obtain ⟨-, rfl⟩ := Prod.mk.inj heq
    obtain ⟨_, _, _, hown⟩ := mem_childrenByHash hc
    exact ⟨c, (mem_ownChildren.mp hown).1, rfl⟩

theorem Extends.find_eq (he : Extends db db') (hs : StoreShape db) (hs' : StoreShape db')
    (hcf : CollisionFree H) (ht : t ∈ db.treeNodes) (segs : List Str) :
    db'.storeTree.find t.hash segs = db.storeTree.find t.hash segs := by
  have hsim := Hierarchy.find_eq_of_sim db'.storeTree db.storeTree (fun f => f) (fun f => f)
    (fun h h' => h = h' ∧ ∃ t ∈ db.treeNodes, t.hash = h) ?_
    (fun _ _ hh k => he.subOf_rel hs hs' hcf hh k) ⟨rfl, t, ht, rfl⟩ segs
  · simpa using hsim
  · rintro h _ ⟨rfl, t, ht, rfl⟩ k
    simp only [Hierarchy.fileOf, storeTree]
    rw [(he.listing_eq hs hs' hcf ht).1]

theorem Extends.dirAt_eq (he : Extends db db') (hs : StoreShape db) (hs' : StoreShape db')
    (hcf : CollisionFree H) (ht : t ∈ db.treeNodes) (segs : List Str) :
    db'.storeTree.dirAt t.hash segs = db.storeTree.dirAt t.hash segs := by
  have hrel := Hierarchy.dirAt_rel_of_sim db'.storeTree db.storeTree
    (fun h h' => h = h' ∧ ∃ t ∈ db.treeNodes, t.hash = h)
    (fun _ _ hh k => he.subOf_rel hs hs' hcf hh k) ⟨rfl, t, ht, rfl⟩ segs
  generalize db'.storeTree.dirAt t.hash segs = x at hrel
  generalize db.storeTree.dirAt t.hash segs = y at hrel
  rcases hrel with ⟨rfl, -⟩ | _
  · rfl
  · rfl

theorem Extends.bounded (he : Extends db db') (hs : StoreShape db) (hs' : StoreShape db')
    (hcf : CollisionFree H) {d : ℕ} (ht : t ∈ db.treeNodes) (h : db.storeTree.Bounded d t.hash) :
    db'.storeTree.Bounded d t.hash := by
  induction d generalizing t with
  | zero => exact h.elim
  | succ d ih =>
      intro s hmem
      obtain ⟨c, hc, rfl⟩ := List.mem_map.mp hmem
      rw [(he.listing_eq hs hs' hcf ht).2] at hc
      obtain ⟨_, _, _, hown⟩ := mem_childrenByHash hc
      refine ih (mem_ownChildren.mp hown).1 (h (c.name, c.hash) ?_)
      exact List.mem_map_of_mem hc

end Extension

/-! ## The invariant -/

/-- The store invariant: well-shaped tables, directories of bounded depth,
commits that point at stored trees. -/
structure StoreInv {H : Type} [DecidableEq H] [HashScheme H] (db : DB H) : Prop
    extends StoreShape db where
  bounded : ∃ d, ∀ t ∈ db.treeNodes, db.storeTree.Bounded d t.hash
  commit_tree : ∀ c ∈ db.commits, ∃ t ∈ db.treeNodes, t.id = c.treeID
  commit_ids : (db.commits.map Commit.id).Nodup

theorem StoreInv.bounded_length {H : Type} [DecidableEq H] [HashScheme H] {db : DB H}
    (hinv : StoreInv db) {t : TreeRow H} (ht : t ∈ db.treeNodes) :
    db.storeTree.Bounded db.treeNodes.length t.hash := by
  obtain ⟨d, hd⟩ := hinv.bounded
  have hlen := (hd t ht).length (l := db.treeNodes.map TreeRow.hash) (by
    intro h hr
    induction hr with
    | refl => exact List.mem_map_of_mem ht
    | tail _ hstep _ =>
        obtain ⟨k, hk⟩ := hstep
        obtain ⟨c, hc, heq⟩ := List.mem_map.mp hk
        obtain ⟨-, rfl⟩ := Prod.mk.inj heq
        obtain ⟨_, _, _, hown⟩ := mem_childrenByHash hc
        exact List.mem_map_of_mem (mem_ownChildren.mp hown).1)
  rwa [List.length_map] at hlen

section Growth

variable {H : Type} {db db' db'' : DB H}

/-- `db'` has the trees, files and commits of `db`; branches, locks and chunks
may differ. -/
structure SameTrees (db db' : DB H) : Prop where
  treeNodes_eq : db'.treeNodes = db.treeNodes
  files_eq : db'.files = db.files
  commits_eq : db'.commits = db.commits

theorem SameTrees.extends (h : SameTrees db db') : Extends db db' where
  trees := ⟨[], by rw [h.treeNodes_eq, List.append_nil], by simp⟩
  files := ⟨[], by rw [h.files_eq, List.append_nil], by simp⟩

theorem Extends.length_le (h : Extends db db') :
    db.treeNodes.length ≤ db'.treeNodes.length := by
  obtain ⟨rows, heq, -⟩ := h.trees
  rw [heq, List.length_append]
  exact Nat.le_add_right _ _

theorem Extends.trans (h : Extends db db') (h' : Extends db' db'') : Extends db db'' where
  trees := by
    obtain ⟨rows, heq, hnew⟩ := h.trees
    obtain ⟨rows', heq', hnew'⟩ := h'.trees
    refine ⟨rows ++ rows', by rw [heq', heq, List.append_assoc], ?_⟩
    intro t ht p hp
    rcases List.mem_append.mp ht with ht | ht
    · exact hnew t ht p hp
    · exact lt_of_le_of_lt h.length_le (hnew' t ht p hp)
  files := by
    obtain ⟨rows, heq, hnew⟩ := h.files
    obtain ⟨rows', heq', hnew'⟩ := h'.files
    refine ⟨rows ++ rows', by rw [heq', heq, List.append_assoc], ?_⟩
    intro f hf
    rcases List.mem_append.mp hf with hf | hf
    · exact hnew f hf
    · exact lt_of_le_of_lt h.length_le (hnew' f hf)

variable [DecidableEq H] [HashScheme H]

theorem StoreInv.of_sameTrees (hinv : StoreInv db) (h : SameTrees db db') :
    StoreInv db' := by
  rcases db with ⟨trees, files, chunks, uploads, commits, branches, locks⟩
  rcases db' with ⟨trees', files', chunks', uploads', commits', branches', locks'⟩
  obtain ⟨rfl, rfl, rfl⟩ := h
  exact ⟨⟨hinv.ids_eq, hinv.parent_le, hinv.file_le, hinv.siblings, hinv.fileNames,
    hinv.treeName, hinv.fileName, hinv.fileHash_eq, hinv.faithful, hinv.resolvable⟩,
    hinv.bounded, hinv.commit_tree, hinv.commit_ids⟩

/-- The store grew: rows were appended, commits were appended, and the
invariant holds on both sides. -/
structure Grows (db db' : DB H) : Prop where
  inv : StoreInv db
  inv' : StoreInv db'
  ext : Extends db db'
  commits : db.commits <+: db'.commits

theorem Grows.refl (hinv : StoreInv db) : Grows db db :=
  ⟨hinv, hinv, SameTrees.extends ⟨rfl, rfl, rfl⟩, List.prefix_refl _⟩

theorem Grows.trans (h : Grows db db') (h' : Grows db' db'') : Grows db db'' :=
  ⟨h.inv, h'.inv', h.ext.trans h'.ext, h.commits.trans h'.commits⟩

theorem Grows.of_sameTrees (hinv : StoreInv db) (h : SameTrees db db') : Grows db db' :=
  ⟨hinv, hinv.of_sameTrees h, h.extends, by rw [h.commits_eq]⟩

end Growth

end DB

end Nipa
