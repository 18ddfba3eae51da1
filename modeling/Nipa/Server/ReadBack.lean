import Nipa.Push.Metadata
import Nipa.Server.CanonicalHash

/-!
# What a written tree reads back as

A directory is read by its hash, and the hash says nothing about metadata.  A
written tree reads back with the metadata it was written with exactly when its
directories agree with the directories of the same content that were stored before
it or are written along with it.
-/

namespace Nipa

open Support TreeBuilder

section Stored

variable {H : Type} [HashScheme H] [DecidableEq H] {db : DB H}

theorem exists_row_of_dirAt (hs : db.StoreShape) {row : TreeRow H} (hr : row ∈ db.treeNodes)
    {ks : List Str} {d : H} (hd : db.storeTree.dirAt row.hash ks = some d) :
    ∃ t ∈ db.treeNodes, t.hash = d := by
  induction ks generalizing row with
  | nil =>
      rw [Hierarchy.dirAt_nil, Option.some.injEq] at hd
      exact ⟨row, hr, hd⟩
  | cons k ks ih =>
      rw [Hierarchy.dirAt_cons] at hd
      obtain ⟨m, hm, hbelow⟩ := Option.bind_eq_some_iff.mp hd
      obtain ⟨c, hc, -, rfl⟩ := hs.subOf_iff.mp hm
      exact ih (hs.childrenByHash_mem hc).1 hbelow

theorem hash_eq_of_below (hinv : db.StoreInv) (hh : db.HashesContent) (hcf : CollisionFree H)
    {t t' : TreeRow H} (ht : t ∈ db.treeNodes) (ht' : t' ∈ db.treeNodes)
    (hbelow : ∀ segs, ValidSegs segs →
      (db.storeTree.find t.hash segs).map File.hash =
        (db.storeTree.find t'.hash segs).map File.hash ∧
      ((db.storeTree.dirAt t.hash segs).isSome ↔ (db.storeTree.dirAt t'.hash segs).isSome)) :
    t.hash = t'.hash := by
  have hs := hinv.toStoreShape
  refine (stored_hash_eq_iff hs hs hh hh hcf ht ht' (hinv.bounded_length ht)).mpr ⟨?_, ?_⟩
  · intro ks
    by_cases hks : ValidSegs ks
    · exact (hbelow ks hks).1
    · rw [find_of_not_valid hs hks, find_of_not_valid hs hks]
  · intro ks
    by_cases hks : ValidSegs ks
    · exact (hbelow ks hks).2
    · by_cases hnil : ks = []
      · subst hnil
        simp
      · have hnot : ∀ h, ¬ (db.storeTree.dirAt h ks).isSome := by
          intro h hsome
          obtain ⟨m, hm⟩ := Option.isSome_iff_exists.mp hsome
          exact hks ⟨hnil, storeTree_dirAt_valid hs hm⟩
        exact iff_of_false (hnot _) (hnot _)

end Stored

/-! ## Written trees -/

section Written

variable {H : Type} [HashScheme H] [DecidableEq H] {db db' : DB H} {head : Option (Commit H)}
  {files : List (PushFile H)} {removed : List Str} {req : ApplyPushRequest H}

/-- The row holds, by content, what the request leaves at every address. -/
structure HoldsRequest (db : DB H) (head : Option (TreeRow H)) (files : List (PushFile H))
    (removed : List Str) (db' : DB H) (row : TreeRow H) : Prop where
  files_eq : ∀ addr, ValidSegs addr → (db'.storeTree.find row.hash addr).map File.hash =
    (newFile db head files removed addr).map NodeFile.hash
  dirs_iff : ∀ addr, ValidSegs addr →
    ((db'.storeTree.dirAt row.hash addr).isSome ↔ DirLeft db head files removed addr)

/-- The row reads with the metadata that the request leaves, as far as `μ` goes. -/
def ReadsBack {α : Type} (μ : FileMeta → α) (db : DB H) (head : Option (TreeRow H))
    (files : List (PushFile H)) (removed : List Str) (db' : DB H) (row : TreeRow H) : Prop :=
  ∀ addr, ValidSegs addr → (db'.storeTree.find row.hash addr).map (fun f => μ (fileMeta f)) =
    (newFile db head files removed addr).map fun nf => μ (nodeMeta nf)

theorem HoldsRequest.dir (hs : db'.StoreShape) {base : Option (TreeRow H)} {row : TreeRow H}
    (h : HoldsRequest db base files removed db' row) (hr : row ∈ db'.treeNodes)
    {ds : List Str} (hds : ∀ m ∈ ds, ValidName m) {n : Str} {nf : NodeFile H}
    (hn : ValidName n) (hnf : newFile db base files removed (ds ++ [n]) = some nf) :
    ∃ t ∈ db'.treeNodes, db'.storeTree.dirAt row.hash ds = some t.hash := by
  have hvalid : ValidSegs (ds ++ [n]) := ⟨by simp, validNames_concat hds hn⟩
  have hfind := h.files_eq _ hvalid
  rw [hnf, Option.map_some, Hierarchy.find_concat] at hfind
  obtain ⟨f, hf, -⟩ := Option.map_eq_some_iff.mp hfind
  obtain ⟨d, hd, -⟩ := Option.bind_eq_some_iff.mp hf
  obtain ⟨t, ht, rfl⟩ := exists_row_of_dirAt hs hr hd
  exact ⟨t, ht, hd⟩

theorem newFile_valid (hs : db.StoreShape) (hreq : RequestOK files removed)
    {base : Option (TreeRow H)} {ds : List Str} {n : Str} {nf : NodeFile H}
    (h : newFile db base files removed (ds ++ [n]) = some nf) : ValidName n := by
  rw [newFile, updated] at h
  rcases Option.or_eq_some_iff.mp h with hpush | ⟨-, hold⟩
  · obtain ⟨f, hf, -⟩ := Option.map_eq_some_iff.mp hpush
    have hl := List.find?_some hf
    rw [decide_eq_true_eq, landsAt_concat] at hl
    have hmem := List.mem_reverse.mp (List.mem_of_find?_eq_some hf)
    rw [← hl.2]
    exact (hreq.path_ok f.path (Or.inl (List.mem_map_of_mem hmem))).storedName_baseOf.1
  · split at hold
    · simp at hold
    · rw [baseFind] at hold
      obtain ⟨row, -, hfind⟩ := Option.bind_eq_some_iff.mp hold
      obtain ⟨f, hf, -⟩ := Option.map_eq_some_iff.mp hfind
      exact (storeTree_find_valid hs hf).2 n (by simp)

variable {α : Type} {μ : FileMeta → α} {base : Option (TreeRow H)} {row : TreeRow H}

theorem HoldsRequest.agreesOn (hinv : db.StoreInv) (hinv' : db'.StoreInv)
    (hh' : db'.HashesContent) (hext : db.Extends db') (hcf : CollisionFree H)
    (hreq : RequestOK files removed) (h : HoldsRequest db base files removed db' row)
    (hr : row ∈ db'.treeNodes) (hreads : ReadsBack μ db base files removed db' row) :
    AgreesOn μ db base files removed := by
  have hs := hinv.toStoreShape
  have hs' := hinv'.toStoreShape
  -- the file that is read in a directory of the tree
  have hread : ∀ {ds n nf d}, (∀ m ∈ ds, ValidName m) → ValidName n →
      newFile db base files removed (ds ++ [n]) = some nf →
      db'.storeTree.dirAt row.hash ds = some d →
        (db'.storeTree.fileOf d n).map (fun f => μ (fileMeta f)) = some (μ (nodeMeta nf)) := by
    intro ds n nf d hds hn hnf hd
    have hfind := hreads (ds ++ [n]) ⟨by simp, validNames_concat hds hn⟩
    rwa [hnf, Option.map_some, Hierarchy.find_concat, hd, Option.bind_some] at hfind
  constructor
  · intro ds hds t ht hmatch n nf hnf f hf
    have hn := (hs.filesByHash_valid (hs.fileOf_iff.mp hf).1)
    rw [(hs.fileOf_iff.mp hf).2] at hn
    obtain ⟨d, hd, hdir⟩ := h.dir hs' hr hds hn hnf
    have ht' := hext.mem_treeNodes ht
    have hsame : d.hash = t.hash := by
      refine hash_eq_of_below hinv' hh' hcf hd ht' fun segs hsegs => ?_
      have hvalid := hsegs.append_left hds
      obtain ⟨hfile, hsub⟩ := hmatch segs hsegs
      rw [hext.find_eq hs hs' hcf ht, hext.dirAt_eq hs hs' hcf ht, ← hfile, ← hsub,
        ← h.files_eq _ hvalid, ← h.dirs_iff _ hvalid, Hierarchy.find_append hdir hsegs.1,
        Hierarchy.dirAt_append, hdir, Option.bind_some]
      exact ⟨rfl, Iff.rfl⟩
    have hfile := hread hds hn hnf hdir
    have hold := hext.find_eq hs hs' hcf ht [n]
    rw [Hierarchy.find_singleton, Hierarchy.find_singleton, hf] at hold
    rw [hsame, hold, Option.map_some, Option.some.injEq] at hfile
    exact hfile.symm
  · intro ds hds ds' hds' hmatch n nf hnf nf' hnf'
    have hn := newFile_valid hs hreq hnf
    obtain ⟨d, hd, hdir⟩ := h.dir hs' hr hds hn hnf
    obtain ⟨d', hd', hdir'⟩ := h.dir hs' hr hds' hn hnf'
    have hsame : d.hash = d'.hash := by
      refine hash_eq_of_below hinv' hh' hcf hd hd' fun segs hsegs => ?_
      have hvalid := hsegs.append_left hds
      have hvalid' := hsegs.append_left hds'
      obtain ⟨hfile, hsub⟩ := hmatch segs hsegs
      rw [← h.files_eq _ hvalid, ← h.files_eq _ hvalid', Hierarchy.find_append hdir hsegs.1,
        Hierarchy.find_append hdir' hsegs.1] at hfile
      rw [← h.dirs_iff _ hvalid, ← h.dirs_iff _ hvalid', Hierarchy.dirAt_append, hdir,
        Option.bind_some, Hierarchy.dirAt_append, hdir', Option.bind_some] at hsub
      exact ⟨hfile, hsub⟩
    have hfile := hread hds hn hnf hdir
    rw [hsame, hread hds' hn hnf' hdir', Option.some.injEq] at hfile
    exact hfile.symm

/-- The row of a planned write, and when it reads back. -/
structure WrittenBack (db : DB H) (head : Option (Commit H)) (files : List (PushFile H))
    (removed : List Str) (req : ApplyPushRequest H) (db' : DB H) (row : TreeRow H) : Prop
    extends HoldsRequest db (headRow db head) files removed db' row where
  mem : row ∈ db'.treeNodes
  commits_eq : db'.commits = db.commits ++ [commitOf req row.id]
  reads_iff : ∀ {α : Type} (μ : FileMeta → α),
    ReadsBack μ db (headRow db head) files removed db' row ↔
      AgreesOn μ db (headRow db head) files removed

theorem WritePlan.writtenBack (h : WritePlan db head files removed req) (hinv : db.StoreInv)
    (hh : db.HashesContent) (hcf : CollisionFree H) (happly : applyPush db req = .ok db') :
    ∃ row, WrittenBack db head files removed req db' row := by
  have hs := hinv.toStoreShape
  obtain ⟨treeID, hland⟩ := h.landed hinv hcf happly
  have hh' := h.hashesContent hs hh happly
  obtain ⟨root, parentHashes, hbuild, heq⟩ := h.built
  have happly' := happly
  rw [heq] at happly'
  obtain ⟨ρ, hw, hcommits, -⟩ := written_of_apply hs h.request_ok hbuild happly'
  rw [← heq] at hcommits
  have hroot := hw.dirRow_mem (root_mem_layout root)
  have htree : treeID = ρ root.id := by
    have hlast := List.append_cancel_left (hland.commits_eq.symm.trans hcommits)
    exact congrArg Commit.treeID (List.singleton_inj.mp hlast)
  have hpath : ∀ f ∈ files, Spelled f.path := fun f hf =>
    spelled_of_pathOK (h.request_ok.path_ok _ (Or.inl (List.mem_map_of_mem hf)))
  have hholds : HoldsRequest db (headRow db head) files removed db'
      (Written.dirRow ρ (none, root)) := by
    obtain ⟨row, hr, hid, hfind⟩ := hland.reads
    obtain ⟨row', hr', hid', hdirs⟩ := hland.dirs
    obtain rfl := hland.inv.eq_of_id_eq hr hroot (hid.trans htree)
    obtain rfl := hland.inv.eq_of_id_eq hr' hroot (hid'.trans htree)
    exact ⟨hfind, fun addr ha => (hdirs addr ha).2⟩
  refine ⟨_, hholds, hroot, hcommits, fun μ => ⟨?_, ?_⟩⟩
  · exact hholds.agreesOn hinv hland.inv hh' hland.ext hcf h.request_ok hroot
  · intro hagrees addr ha
    exact hw.find_meta_eq hs hcf h.request_ok hpath hbuild hagrees ha

end Written

end Nipa
