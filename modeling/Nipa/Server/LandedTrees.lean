import Nipa.Server.ReadBack
import Nipa.Server.CommitHash

/-!
# The trees of a landing

A landing writes each of its commits as a change set against the target head.
Reading the commits gives the replayed file sets back as far as content goes;
modes come back when they settle.
-/

namespace Nipa

open Support Merge TreeBuilder

section Versions

variable {H : Type}

/-- What a merge tells apart in a file, with its chunks. -/
def fileVersion (e : Entry H) : H × ℕ × List H :=
  (e.hash, e.mode, e.chunkHashes)

variable [HashScheme H]

/-- The commit's tree flattens to the file set. -/
def CommitReads [DecidableEq H] (db : DB H) (projectID commitID : ID) (m : GoMap (Entry H)) :
    Prop :=
  ∃ m', mergeTree db projectID commitID = .ok m' ∧
    ∀ p, (m'.lookup p).map fileVersion = (m.lookup p).map fileVersion

/-- Files of flattened trees, under their paths. -/
def FilesOK (m : GoMap (Entry H)) : Prop :=
  ∀ p, ∀ e ∈ m.lookup p, EntryOK p e

theorem fileVersion_eq_iff (hcf : CollisionFree H) {p : Str} {o o' : Option (Entry H)}
    (ho : ∀ e ∈ o, EntryOK p e) (ho' : ∀ e ∈ o', EntryOK p e) :
    o.map fileVersion = o'.map fileVersion ↔
      o.map Entry.hash = o'.map Entry.hash ∧ o.map Entry.mode = o'.map Entry.mode := by
  rcases o with _ | e <;> rcases o' with _ | e' <;> simp only [Option.map_none, Option.map_some,
    reduceCtorEq, and_self, Option.some.injEq, fileVersion, Prod.mk.injEq]
  constructor
  · rintro ⟨hhash, hmode, -⟩
    exact ⟨hhash, hmode⟩
  · rintro ⟨hhash, hmode⟩
    refine ⟨hhash, hmode, fileHash_injective hcf ?_⟩
    rw [← (ho e rfl).hash_ok, ← (ho' e' rfl).hash_ok, hhash]

theorem EntryOK.exists_segs {p : Str} {e : Entry H} (h : EntryOK p e) :
    ∃ segs, ValidSegs segs ∧ p = pathOf segs := by
  obtain ⟨segs, hne, hall, rfl⟩ := h.path_ok
  exact ⟨segs, ⟨hne, fun n hn => (hall n hn).1⟩, rfl⟩

theorem EntryOK.landsAt {p : Str} {e : Entry H} (h : EntryOK p e) {addr : List Str}
    (ha : ValidSegs addr) : LandsAt p addr ↔ p = pathOf addr := by
  obtain ⟨segs, hsegs, heq⟩ := h.exists_segs
  rw [landsAt_iff_filedAt ⟨segs, hsegs, Or.inl heq⟩ ha, h.filedAt]

end Versions

/-! ## The change set of a merge -/

section Delta

variable {H : Type} [HashScheme H] [DecidableEq H] {db : DB H}
  {target merged : GoMap (Entry H)} {row : TreeRow H}

theorem Flattens.baseFind_eq (h : Flattens db row target) (hs : db.StoreShape)
    {addr : List Str} (ha : ValidSegs addr) :
    (baseFind db (some row) addr).map (fun f => (f.hash, f.mode)) =
      (target.lookup (pathOf addr)).map fun e => (e.hash, e.mode) := by
  rw [h.lookup_eq, fileAt_pathOf ha, baseFind, Option.bind_some, Option.map_map, Option.map_map]
  rcases hf : db.storeTree.find row.hash addr with _ | f
  · rfl
  · rw [← fileAt_pathOf ha] at hf
    simp only [Option.map_some, Function.comp_apply, nodeFileOfBase, entryOf,
      fileAt_hash hs hf]

theorem newFile_mergeDelta (htarget : Flattens db row target) (hs : db.StoreShape)
    (hmerged : FilesOK merged) {addr : List Str} (ha : ValidSegs addr) :
    (newFile db (some row) (mergeDelta target merged).1 (mergeDelta target merged).2 addr).map
        (fun f => (f.hash, f.mode)) =
      (merged.lookup (pathOf addr)).map fun e => (e.hash, e.mode) := by
  -- files of the change set at the address are the merged file
  have hfile : ∀ f ∈ (mergeDelta target merged).1, LandsAt f.path addr →
      ∃ e, merged.lookup (pathOf addr) = some e ∧
        (∀ old ∈ target.lookup (pathOf addr), ¬ (old.hash = e.hash ∧ old.mode = e.mode)) ∧
        f.fileHash = e.hash ∧ f.mode = e.mode := by
    intro f hf hl
    obtain ⟨p, e, he, hnew, rfl⟩ := mem_mergeDelta_files.mp hf
    obtain rfl := ((hmerged p e he).landsAt ha).mp hl
    exact ⟨e, he, hnew, rfl, rfl⟩
  have hremoved : (∃ r ∈ (mergeDelta target merged).2, LandsAt r addr) ↔
      (target.lookup (pathOf addr)).isSome ∧ merged.lookup (pathOf addr) = none := by
    constructor
    · rintro ⟨r, hr, hl⟩
      obtain ⟨hold, hnone⟩ := mem_mergeDelta_removed.mp hr
      obtain ⟨e, he⟩ := Option.isSome_iff_exists.mp hold
      obtain rfl := ((htarget.entryOK hs e he).landsAt ha).mp hl
      exact ⟨hold, hnone⟩
    · intro h
      exact ⟨_, mem_mergeDelta_removed.mpr h, (landsAt_pathOf ha ha).mpr rfl⟩
  have hbase := htarget.baseFind_eq hs ha
  rw [newFile, updated]
  generalize hfind : List.find? _ (mergeDelta target merged).1.reverse = landed
  rcases landed with _ | f
  · have hnone : ∀ f ∈ (mergeDelta target merged).1, ¬ LandsAt f.path addr := by
      intro f hf
      simpa using List.find?_eq_none.mp hfind f (List.mem_reverse.mpr hf)
    rw [Option.map_none, Option.none_or]
    split
    next hrem =>
      rw [(hremoved.mp hrem).2]
      rfl
    next hkept =>
      rw [hbase]
      rcases hm : merged.lookup (pathOf addr) with _ | e
      · have hold : target.lookup (pathOf addr) = none := by
          rw [← Option.not_isSome_iff_eq_none]
          exact fun h => hkept (hremoved.mpr ⟨h, hm⟩)
        rw [hold]
      · have hsame : ¬ ∀ old ∈ target.lookup (pathOf addr),
            ¬ (old.hash = e.hash ∧ old.mode = e.mode) := by
          intro hnew
          exact hnone _ (mem_mergeDelta_files.mpr ⟨_, e, hm, hnew, rfl⟩)
            ((landsAt_pathOf ha ha).mpr rfl)
        push Not at hsame
        obtain ⟨old, hold, hhash, hmode⟩ := hsame
        rw [Option.mem_def] at hold
        rw [hold, Option.map_some, Option.map_some, hhash, hmode]
  · have hl := List.find?_some hfind
    rw [decide_eq_true_eq] at hl
    obtain ⟨e, he, -, hhash, hmode⟩ :=
      hfile f (List.mem_reverse.mp (List.mem_of_find?_eq_some hfind)) hl
    rw [Option.map_some, Option.some_or, he, Option.map_some, Option.map_some]
    simp only [nodeFileOfPush, hhash, hmode]

/-- The path has another version in the merged files, or only one of them has it. -/
def PathChanges (target merged : GoMap (Entry H)) (p : Str) : Prop :=
  (target.lookup p).map (fun e => (e.hash, e.mode)) ≠
    (merged.lookup p).map fun e => (e.hash, e.mode)

omit [HashScheme H] in
theorem mem_mergeDelta_iff {p : Str} :
    p ∈ (mergeDelta target merged).1.map PushFile.path ++ (mergeDelta target merged).2 ↔
      PathChanges target merged p := by
  rw [List.mem_append, mergeDelta_paths, mem_mergeDelta_removed, PathChanges]
  rcases target.lookup p with _ | old <;> rcases merged.lookup p with _ | e <;>
    simp

omit [HashScheme H] in
/-- The permission check goes through exactly when every path that changes may be
written. -/
theorem ensureMergedWrites_ok {perm : PermissionUsecase} :
    ensureMergedWrites perm target merged = .ok () ↔
      ∀ p, PathChanges target merged p → perm.hasPathAccess p .write = true := by
  rw [ensureMergedWrites, bind_eq_ok]
  simp only [forM_eq_ok]
  constructor
  · rintro ⟨_, hfiles, hremoved⟩ p hp
    rw [forM_eq_ok] at hfiles
    rcases List.mem_append.mp (mem_mergeDelta_iff.mpr hp) with hfile | hrem
    · obtain ⟨e, he, hnew⟩ := mergeDelta_paths.mp hfile
      have hcheck := hfiles ⟨p, e⟩ (AList.mem_lookup_iff.mp he)
      rw [if_neg] at hcheck
      · simpa [refuseIf_eq_ok] using hcheck
      · rcases hold : target.lookup p with _ | old
        · simp
        · simpa using not_and.mp (hnew old hold)
    · obtain ⟨hold, hnone⟩ := mem_mergeDelta_removed.mp hrem
      have hcheck := hremoved p (AList.lookup_isSome.mp hold)
      rw [if_neg (by rw [hnone]; simp)] at hcheck
      simpa [refuseIf_eq_ok] using hcheck
  · intro h
    refine ⟨(), forM_eq_ok.mpr ?_, ?_⟩
    · rintro ⟨p, e⟩ he
      split
      · rfl
      next hnew =>
        rw [refuseIf_eq_ok, Bool.not_eq_false]
        refine h p (mem_mergeDelta_iff.mp (List.mem_append_left _ (mergeDelta_paths.mpr
          ⟨e, AList.mem_lookup_iff.mpr he, ?_⟩)))
        intro old hold hsame
        rw [Option.mem_def] at hold
        simp [hold, hsame] at hnew
    · intro p hp
      split
      · rfl
      next hnone =>
        rw [refuseIf_eq_ok, Bool.not_eq_false]
        refine h p (mem_mergeDelta_iff.mp (List.mem_append_right _ (mem_mergeDelta_removed.mpr
          ⟨AList.lookup_isSome.mpr hp, ?_⟩)))
        simpa using hnone

end Delta

/-! ## Modes -/

section Modes

variable {H : Type} [HashScheme H] [DecidableEq H] {db : DB H}
  {target merged : GoMap (Entry H)} {head : Commit H} {row : TreeRow H}

/-- The directories a landing leaves: those of the head, and those above merged files. -/
def MergedDir (db : DB H) (head : Commit H) (merged : GoMap (Entry H)) (addr : List Str) : Prop :=
  (baseDir db (headRow db (some head)) addr).isSome ∨
    ∃ q, (merged.lookup q).isSome ∧ pathOf addr ++ ['/'] <+: q

/-- The merged files below `ds` are, by content, what the stored directory `h` holds. -/
def MergedAsStored (db : DB H) (head : Commit H) (merged : GoMap (Entry H)) (ds : List Str)
    (h : H) : Prop :=
  ∀ segs, ValidSegs segs →
    (merged.lookup (pathOf (ds ++ segs))).map Entry.hash =
      (db.storeTree.find h segs).map File.hash ∧
    (MergedDir db head merged (ds ++ segs) ↔ (db.storeTree.dirAt h segs).isSome)

/-- The merged files below `ds` and below `ds'` are the same by content. -/
def MergedAlike (db : DB H) (head : Commit H) (merged : GoMap (Entry H)) (ds ds' : List Str) :
    Prop :=
  ∀ segs, ValidSegs segs →
    (merged.lookup (pathOf (ds ++ segs))).map Entry.hash =
      (merged.lookup (pathOf (ds' ++ segs))).map Entry.hash ∧
    (MergedDir db head merged (ds ++ segs) ↔ MergedDir db head merged (ds' ++ segs))

/-- Modes settle when the directories of one content have one mode for each file: those
of the merged files among each other, and with those stored before. -/
structure ModesSettle (db : DB H) (head : Commit H) (merged : GoMap (Entry H)) : Prop where
  stored : ∀ ds, (∀ m ∈ ds, ValidName m) → ∀ row ∈ db.treeNodes,
    MergedAsStored db head merged ds row.hash →
      ∀ n, ValidName n → ∀ e ∈ merged.lookup (pathOf (ds ++ [n])),
        ∀ f ∈ db.storeTree.fileOf row.hash n, e.mode = f.mode
  within : ∀ ds, (∀ m ∈ ds, ValidName m) → ∀ ds', (∀ m ∈ ds', ValidName m) →
    MergedAlike db head merged ds ds' →
      ∀ n, ValidName n → ∀ e ∈ merged.lookup (pathOf (ds ++ [n])),
        ∀ e' ∈ merged.lookup (pathOf (ds' ++ [n])), e.mode = e'.mode

theorem modesSettle_iff (hhead : headRow db (some head) = some row)
    (htarget : Flattens db row target) (hs : db.StoreShape)
    (htargetOK : FilesOK target) (hmerged : FilesOK merged) :
    AgreesOn FileMeta.mode db (headRow db (some head)) (mergeDelta target merged).1
      (mergeDelta target merged).2 ↔ ModesSettle db head merged := by
  have hfile : ∀ {addr}, ValidSegs addr →
      (newFile db (headRow db (some head)) (mergeDelta target merged).1
        (mergeDelta target merged).2 addr).map (fun f => (f.hash, f.mode)) =
      (merged.lookup (pathOf addr)).map fun e => (e.hash, e.mode) := by
    intro addr ha
    rw [hhead]
    exact newFile_mergeDelta htarget hs hmerged ha
  have hhash : ∀ {addr}, ValidSegs addr →
      (newFile db (headRow db (some head)) (mergeDelta target merged).1
        (mergeDelta target merged).2 addr).map NodeFile.hash =
      (merged.lookup (pathOf addr)).map Entry.hash := by
    intro addr ha
    have h := congrArg (Option.map fun v : H × ℕ => v.1) (hfile ha)
    rw [Option.map_map, Option.map_map] at h
    exact h
  have hdir : ∀ {addr}, ValidSegs addr →
      (DirLeft db (headRow db (some head)) (mergeDelta target merged).1
        (mergeDelta target merged).2 addr ↔ MergedDir db head merged addr) := by
    intro addr ha
    rw [MergedDir, hhead]
    exact dirLeft_mergeDelta htarget ha
  have hvalid : ∀ {ds segs : List Str}, (∀ m ∈ ds, ValidName m) → ValidSegs segs →
      ValidSegs (ds ++ segs) := by
    intro ds segs hds hsegs
    refine ⟨List.append_ne_nil_of_right_ne_nil _ hsegs.1, fun m hm => ?_⟩
    exact (List.mem_append.mp hm).elim (hds m) (hsegs.2 m)
  have hone : ∀ {ds : List Str} {n : Str}, (∀ m ∈ ds, ValidName m) → ValidName n →
      ValidSegs (ds ++ [n]) := fun hds hn => hvalid hds ⟨by simp, by simpa using hn⟩
  have hstored : ∀ {ds : List Str} {h : H}, (∀ m ∈ ds, ValidName m) →
      (MatchesStored db (headRow db (some head)) (mergeDelta target merged).1
        (mergeDelta target merged).2 ds h ↔ MergedAsStored db head merged ds h) := by
    intro ds h hds
    refine forall₂_congr fun segs hsegs => ?_
    rw [hhash (hvalid hds hsegs), hdir (hvalid hds hsegs)]
  have hwithin : ∀ {ds ds' : List Str}, (∀ m ∈ ds, ValidName m) → (∀ m ∈ ds', ValidName m) →
      (MatchesNew db (headRow db (some head)) (mergeDelta target merged).1
        (mergeDelta target merged).2 ds ds' ↔ MergedAlike db head merged ds ds') := by
    intro ds ds' hds hds'
    refine forall₂_congr fun segs hsegs => ?_
    rw [hhash (hvalid hds hsegs), hhash (hvalid hds' hsegs), hdir (hvalid hds hsegs),
      hdir (hvalid hds' hsegs)]
  -- a file the change set leaves is a merged file with the same mode, and the other way
  have hnew : ∀ {addr nf}, ValidSegs addr →
      nf ∈ newFile db (headRow db (some head)) (mergeDelta target merged).1
        (mergeDelta target merged).2 addr →
      ∃ e ∈ merged.lookup (pathOf addr), nf.mode = e.mode := by
    intro addr nf ha hnf
    have h := hfile ha
    rw [Option.mem_def.mp hnf, Option.map_some] at h
    obtain ⟨e, he, heq⟩ := Option.map_eq_some_iff.mp h.symm
    exact ⟨e, he, (congrArg Prod.snd heq).symm⟩
  have hold : ∀ {addr e}, ValidSegs addr → e ∈ merged.lookup (pathOf addr) →
      ∃ nf ∈ newFile db (headRow db (some head)) (mergeDelta target merged).1
        (mergeDelta target merged).2 addr, nf.mode = e.mode := by
    intro addr e ha he
    have h := hfile ha
    rw [Option.mem_def.mp he, Option.map_some] at h
    obtain ⟨nf, hnf, heq⟩ := Option.map_eq_some_iff.mp h
    exact ⟨nf, hnf, congrArg Prod.snd heq⟩
  have hreq := requestOK_mergeDelta htargetOK hmerged
  constructor
  · intro h
    refine ⟨fun ds hds row hr hsame n hn e he f hf => ?_,
      fun ds hds ds' hds' hsame n hn e he e' he' => ?_⟩
    · obtain ⟨nf, hnf, hmode⟩ := hold (hone hds hn) he
      rw [← hmode]
      exact h.stored ds hds row hr ((hstored hds).mpr hsame) n nf hnf f hf
    · obtain ⟨nf, hnf, hmode⟩ := hold (hone hds hn) he
      obtain ⟨nf', hnf', hmode'⟩ := hold (hone hds' hn) he'
      rw [← hmode, ← hmode']
      exact h.within ds hds ds' hds' ((hwithin hds hds').mpr hsame) n nf hnf nf' hnf'
  · intro h
    refine ⟨fun ds hds row hr hsame n nf hnf f hf => ?_,
      fun ds hds ds' hds' hsame n nf hnf nf' hnf' => ?_⟩
    · have hn := newFile_valid hs hreq hnf
      obtain ⟨e, he, hmode⟩ := hnew (hone hds hn) hnf
      exact hmode.trans (h.stored ds hds row hr ((hstored hds).mp hsame) n hn e he f hf)
    · have hn := newFile_valid hs hreq hnf
      obtain ⟨e, he, hmode⟩ := hnew (hone hds hn) hnf
      obtain ⟨e', he', hmode'⟩ := hnew (hone hds' hn) hnf'
      exact (hmode.trans (h.within ds hds ds' hds' ((hwithin hds hds').mp hsame) n hn e he e'
        he')).trans hmode'.symm

end Modes

/-! ## Reading a written commit -/

section Reading

variable {H : Type} [HashScheme H] [DecidableEq H] {db db' later : DB H}
  {target merged : GoMap (Entry H)} {row : TreeRow H} {head : Commit H}

theorem exists_mergeTree (hinv : db.StoreInv) {c : Commit H} (hc : c ∈ db.commits)
    (hr : row ∈ db.treeNodes) (hid : row.id = c.treeID) :
    ∃ m, mergeTree db c.projectID c.id = .ok m ∧ Flattens db row m := by
  have hget : db.getCommit c.id = some c :=
    (find?_key_eq_some_iff hinv.commit_ids).mpr ⟨hc, rfl⟩
  have hnode : db.treeNodeGet c.treeID = some row := by
    rw [← hid]
    exact hinv.treeNodeGet_eq hr
  have hcommit : commitByIDInProject db c.projectID c.id = .ok c := by
    rw [commitByIDInProject, hget]
    simp only [bind_eq_ok, orError_eq_ok, refuseIf_eq_ok, pure_eq_ok]
    exact ⟨c, rfl, (), by simp, rfl⟩
  obtain ⟨m, hm⟩ : ∃ m, mergeTree db c.projectID c.id = .ok m := by
    refine ⟨_, bind_eq_ok.mpr ⟨c, hcommit, bind_eq_ok.mpr ⟨row, ?_, rfl⟩⟩⟩
    exact orError_eq_ok.mpr hnode
  obtain ⟨c', row', hc', hrow', hflat⟩ := mergeTree_ok hinv hm
  obtain rfl := Except.ok.inj (hc'.symm.trans hcommit)
  rw [headRow, Option.bind_some, hnode, Option.some.injEq] at hrow'
  exact ⟨m, hm, hrow' ▸ hflat⟩

theorem Flattens.grows (hg : DB.Grows db db') (hcf : CollisionFree H) {m : GoMap (Entry H)}
    (h : Flattens db row m) : Flattens db' row m := by
  refine ⟨hg.ext.mem_treeNodes h.row_mem, fun p => ?_⟩
  rw [h.lookup_eq, fileAt, fileAt, hg.ext.find_eq hg.inv.toStoreShape hg.inv'.toStoreShape hcf
    h.row_mem]

/-- The commit of a change set reads back as the merged files exactly when its modes
settle. -/
theorem WrittenBack.commitReads_iff {req : ApplyPushRequest H} {base : TreeRow H}
    (hg : DB.Grows db' later) (hcf : CollisionFree H) (hinv : db.StoreInv)
    (hhead : headRow db (some head) = some base) (htarget : Flattens db base target)
    (hmerged : FilesOK merged)
    (h : WrittenBack db (some head) (mergeDelta target merged).1 (mergeDelta target merged).2
      req db' row) :
    CommitReads later req.projectID req.commitID merged ↔ ModesSettle db head merged := by
  have hs' := hg.inv'.toStoreShape
  have hmem : commitOf req row.id ∈ later.commits := by
    refine hg.commits.subset ?_
    rw [h.commits_eq]
    simp
  obtain ⟨m, hm, hflat⟩ := exists_mergeTree hg.inv' hmem (hg.ext.mem_treeNodes h.mem) rfl
  have hreads : CommitReads later req.projectID req.commitID merged ↔
      ∀ p, (m.lookup p).map fileVersion = (merged.lookup p).map fileVersion := by
    constructor
    · rintro ⟨m', hm', hsame⟩
      obtain rfl := Except.ok.inj (hm.symm.trans hm')
      exact hsame
    · exact fun hsame => ⟨m, hm, hsame⟩
  have hfind : ∀ {addr}, ValidSegs addr → m.lookup (pathOf addr) =
      (db'.storeTree.find row.hash addr).map (entryOf (pathOf addr)) := by
    intro addr ha
    rw [hflat.lookup_eq, fileAt_pathOf ha, hg.ext.find_eq hg.inv.toStoreShape hs' hcf h.mem]
  have hnew : ∀ {addr}, ValidSegs addr → _ := fun {addr} ha =>
    newFile_mergeDelta htarget hinv.toStoreShape hmerged ha
  rw [← hhead] at hnew
  rw [hreads, ← modesSettle_iff hhead htarget hinv.toStoreShape
    (fun p => htarget.entryOK hinv.toStoreShape) hmerged, ← h.reads_iff]
  constructor
  · intro hsame addr ha
    have hmode := congrArg (Option.map fun v : H × ℕ × List H => v.2.1) (hsame (pathOf addr))
    have hleft := congrArg (Option.map fun v : H × ℕ => v.2) (hnew ha)
    rw [Option.map_map, Option.map_map, hfind ha, Option.map_map] at hmode
    rw [Option.map_map, Option.map_map] at hleft
    exact hmode.trans hleft.symm
  · intro hback p
    have hok : ∀ e ∈ m.lookup p, EntryOK p e := hflat.entryOK hs'
    rw [fileVersion_eq_iff hcf hok (hmerged p)]
    by_cases hp : ∃ addr, ValidSegs addr ∧ p = pathOf addr
    · obtain ⟨addr, ha, rfl⟩ := hp
      have hhash := congrArg (Option.map fun v : H × ℕ => v.1) (hnew ha)
      have hmode := congrArg (Option.map fun v : H × ℕ => v.2) (hnew ha)
      rw [Option.map_map, Option.map_map] at hhash hmode
      have hfile := h.files_eq addr ha
      rw [hfind ha, Option.map_map, Option.map_map]
      refine ⟨Eq.trans ?_ hhash, (hback addr ha).trans hmode⟩
      refine Eq.trans ?_ hfile
      rcases hf : db'.storeTree.find row.hash addr with _ | f
      · rfl
      · rw [← fileAt_pathOf ha] at hf
        simp only [Option.map_some, Function.comp_apply, entryOf,
          fileAt_hash hg.inv.toStoreShape hf]
    · have hnone : ∀ {o : Option (Entry H)}, (∀ e ∈ o, EntryOK p e) → o = none := by
        intro o ho
        rcases o with _ | e
        · rfl
        · exact absurd (ho e rfl).exists_segs hp
      rw [hnone hok, hnone (hmerged p)]
      simp

end Reading

/-! ## Chains of commits -/

section Chains

variable {H : Type} [HashScheme H] [DecidableEq H] {db db' final later : DB H}
  {target merged : GoMap (Entry H)} {base : TreeRow H} {head : Commit H}

/-- Modes settle at every commit, in the state it is written in. -/
def AllSettle (head : Commit H) : DB H → List (GoMap (Entry H)) → List (PlannedCommit H) → Prop
  | db, m :: ms, c :: cs => ModesSettle db head m ∧
      ∀ db', applyPush db c.request = .ok db' → AllSettle head db' ms cs
  | _, _, _ => True

/-- Every commit reads as its file set. -/
def AllRead (db : DB H) (projectID : ID) : List (GoMap (Entry H)) → List (PlannedCommit H) → Prop :=
  List.Forall₂ fun m c => CommitReads db projectID c.request.commitID m

theorem CommitsTree.grows (hg : DB.Grows db db') (hcf : CollisionFree H)
    (hhead : head ∈ db.commits) {c : PlannedCommit H} (h : CommitsTree db head target merged c) :
    CommitsTree db' head target merged c := by
  obtain ⟨root, parentHashes, hbuild, heq⟩ := h.built
  have hstored : ∀ c ∈ some head, c ∈ db.commits := by
    rintro _ ⟨⟩
    exact hhead
  refine ⟨h.delta_eq, root, parentHashes, ?_, heq⟩
  rwa [buildNewTree_eq_of_grows hg hcf hstored]

theorem CommitsTree.writePlan (hhead : head ∈ db.commits) (htarget : FilesOK target)
    (hmerged : FilesOK merged) {c : PlannedCommit H} (h : CommitsTree db head target merged c) :
    WritePlan db (some head) c.files c.removed c.request := by
  have hreq := requestOK_mergeDelta htarget hmerged
  rw [h.delta_eq] at hreq
  refine ⟨hreq, ?_, h.built⟩
  rintro _ ⟨⟩
  exact hhead

theorem applyPushAll_reads (hcf : CollisionFree H) {projectID : ID}
    {ms : List (GoMap (Entry H))} {cs : List (PlannedCommit H)}
    (hcs : List.Forall₂ (fun m c => CommitsTree db head target m c ∧
      c.request.projectID = projectID) ms cs)
    (hms : ∀ m ∈ ms, FilesOK m) (hinv : db.StoreInv) (hh : db.HashesContent)
    (hstored : head ∈ db.commits) (hhead : headRow db (some head) = some base)
    (htarget : Flattens db base target)
    (happly : applyPushAll db (cs.map PlannedCommit.request) = .ok final) :
    DB.Grows db final ∧
      ∀ {later}, DB.Grows final later →
        (AllRead later projectID ms cs ↔ AllSettle head db ms cs) := by
  induction cs generalizing db ms with
  | nil =>
      obtain rfl := Except.ok.inj happly
      obtain rfl := List.forall₂_nil_right_iff.mp hcs
      exact ⟨DB.Grows.refl hinv, fun _ => iff_of_true .nil trivial⟩
  | cons c cs ih =>
      obtain ⟨m, ms, hc, htail, rfl⟩ := List.forall₂_cons_right_iff.mp hcs
      rw [List.map_cons, applyPushAll] at happly
      obtain ⟨mid, hmid, hrest⟩ := bind_eq_ok.mp happly
      obtain ⟨htree, hproject⟩ := hc
      have hplan := htree.writePlan hstored (fun p => htarget.entryOK hinv.toStoreShape)
        (hms m (by simp))
      obtain ⟨row, hback⟩ := hplan.writtenBack hinv hh hcf hmid
      obtain ⟨treeID, hland⟩ := hplan.landed hinv hcf hmid
      have hg := hland.toCommitted.grows hinv
      have hkept : headRow mid (some head) = some base := by
        rw [headRow_eq_of_grows hg, hhead]
        rintro _ ⟨⟩
        exact hstored
      have hcs' : List.Forall₂ (fun m c => CommitsTree mid head target m c ∧
          c.request.projectID = projectID) ms cs :=
        htail.imp fun _ _ h => ⟨h.1.grows hg hcf hstored, h.2⟩
      obtain ⟨hg', hreads⟩ := ih hcs' (fun m hm => hms m (List.mem_cons_of_mem _ hm)) hg.inv'
        (hplan.hashesContent hinv.toStoreShape hh hmid) (hg.commits.subset hstored) hkept
        (htarget.grows hg hcf) hrest
      refine ⟨hg.trans hg', fun {later} hlater => ?_⟩
      have hfiles : c.files = (mergeDelta target m).1 := by rw [htree.delta_eq]
      have hremoved : c.removed = (mergeDelta target m).2 := by rw [htree.delta_eq]
      rw [hfiles, hremoved] at hback
      have hone := hback.commitReads_iff (hg'.trans hlater) hcf hinv hhead htarget
        (hms m (by simp))
      rw [hproject] at hone
      rw [AllRead, List.forall₂_cons, AllSettle, hone, ← AllRead, hreads hlater]
      refine and_congr_right fun _ => ⟨fun h db' hdb' => ?_, fun h => h mid hmid⟩
      obtain rfl := Except.ok.inj (hmid.symm.trans hdb')
      exact h

end Chains

/-! ## The file sets of a landing -/

section Maps

variable {H : Type} [HashScheme H] [DecidableEq H]

/-- The file sets of a rebase, each commit merged onto the one before. -/
def replayedMaps (store : ContentStore H) (land : Landing) :
    List (Commit H) → DB H → GoMap (Entry H) → Except DomainError (List (GoMap (Entry H)))
  | [], _, _ => .ok []
  | commit :: rest, db, current => do
      let commitBase ← mergeTreeOf db land.projectID commit.parent1ID
      let commitTree ← mergeTree db land.projectID commit.id
      let (db', next, _) ← mergeOnto store db commitBase current commitTree
        ("commit ".toList ++ (hashString commit.hash).take 10)
      let later ← replayedMaps store land rest db' next
      return next :: later

/-- The file sets a landing has its commits for, oldest first. -/
def landedMaps (store : ContentStore H) (db : DB H) (land : Landing)
    (strategy : MergeStrategy) : Except DomainError (List (GoMap (Entry H))) := do
  let base ← findMergeBase db (some land.targetHead) (some land.sourceHead)
  let targetTree ← mergeTree db land.projectID land.targetHead
  if strategy = .rebase then
    let commits ← rebaseCommits db land.projectID land.sourceHead base
    replayedMaps store land commits db targetTree
  else
    let baseTree ← mergeTreeOf db land.projectID base
    let theirs ← mergeTree db land.projectID land.sourceHead
    let (_, merged, _) ← mergeOnto store db baseTree targetTree theirs []
    return [merged]

variable {store : ContentStore H} {db db' : DB H} {land : Landing} {targetHead : Commit H}
  {targetTree : GoMap (Entry H)}

theorem mergeOnto_filesOK {base ours theirs merged : GoMap (Entry H)} {pre : Str}
    {stored : List (Chunk H)}
    (h : mergeOnto store db base ours theirs pre = .ok (db', merged, stored))
    (hours : FilesOK ours) (htheirs : FilesOK theirs) : FilesOK merged := fun p =>
  ((mergeOnto_ok h).2 p).cases.entryOK (hours p) (htheirs p)

/-- The commit has the file set as its tree, in the landing's project. -/
def CommitsMap (db : DB H) (land : Landing) (targetHead : Commit H)
    (targetTree m : GoMap (Entry H)) (c : PlannedCommit H) : Prop :=
  CommitsTree db targetHead targetTree m c ∧ c.request.projectID = land.projectID

theorem landingCommit_map (hinv : db.StoreInv) (hcf : CollisionFree H)
    (hhead : targetHead ∈ db.commits) (hmid : ChunksOnly db db') {merged : GoMap (Entry H)}
    {commitID userID : ID} {parentID parent2ID : Option ID} {parentHashes : List H}
    {message : Str} {c : PlannedCommit H}
    (h : landingCommit db' land.projectID land.target targetHead targetTree merged commitID
      parentID parent2ID parentHashes userID message = .ok c) :
    CommitsMap db land targetHead targetTree merged c := by
  refine ⟨(landingCommit_ok h).1.of_chunksOnly hinv hcf hmid hhead, ?_⟩
  rw [landingCommit] at h
  obtain ⟨root, -, h⟩ := bind_eq_ok.mp h
  obtain rfl := pure_eq_ok.mp h
  rfl

theorem replayCommits_maps (hinv : db.StoreInv) (hcf : CollisionFree H)
    (hhead : targetHead ∈ db.commits) {newID : ℕ → ID} {commits : List (Commit H)} {n : ℕ}
    {parentID : ID} {parentHash : H} {mid : DB H} {w w' : MergeWrite H}
    (h : replayCommits store land newID targetHead targetTree commits n parentID parentHash
      mid w = .ok (db', w')) (hmid : ChunksOnly db mid) (hw : FilesOK w.merged) :
    ∃ ms cs, replayedMaps store land commits mid w.merged = .ok ms ∧
      w'.commits = w.commits ++ cs ∧
      List.Forall₂ (CommitsMap db land targetHead targetTree) ms cs ∧
      (∀ m ∈ ms, FilesOK m) ∧ (w.merged :: ms).getLast? = some w'.merged ∧
      ms.length = commits.length := by
  induction commits generalizing n parentID parentHash mid w with
  | nil =>
      obtain ⟨rfl, rfl⟩ := Prod.mk.inj (Except.ok.inj h)
      exact ⟨[], [], rfl, by simp, .nil, by simp, rfl, rfl⟩
  | cons commit rest ih =>
      rw [replayCommits] at h
      simp only [bind_eq_ok] at h
      obtain ⟨commitBase, hbase, commitTree, htree, ⟨mid', current, added⟩, honto, next, hnext,
        h⟩ := h
      have hmid' := hmid.trans (mergeOnto_ok honto).1
      have hinv' := hinv.of_sameTrees hmid.toSameTrees
      have hcurrent : FilesOK current := mergeOnto_filesOK honto hw (mergeTree_entryOK hinv' htree)
      obtain ⟨ms, cs, hms, hcs, hall, hok, hlast, hlength⟩ := ih h hmid' hcurrent
      refine ⟨current :: ms, next :: cs, ?_, ?_, .cons ?_ hall, ?_, hlast, congrArg (· + 1) hlength⟩
      · rw [replayedMaps, hbase, htree]
        change (mergeOnto store mid commitBase w.merged commitTree _ >>= _) = _
        rw [honto]
        change (replayedMaps store land rest mid' current >>= _) = _
        rw [hms]
        rfl
      · rw [hcs, List.append_assoc, List.singleton_append]
      · exact landingCommit_map hinv hcf hhead hmid' hnext
      · simpa using ⟨hcurrent, hok⟩

theorem planMerge_maps (hinv : db.StoreInv) (hcf : CollisionFree H) {caller : Caller}
    {opts : MergeCommitOptions} {newID : ℕ → ID} {w : MergeWrite H}
    (h : planMerge store db caller land opts newID = .ok (.write db' w)) :
    ∃ targetHead targetTree ms,
      commitByIDInProject db land.projectID land.targetHead = .ok targetHead ∧
      mergeTree db land.projectID land.targetHead = .ok targetTree ∧
      landedMaps store db land opts.strategy = .ok ms ∧
      List.Forall₂ (CommitsMap db land targetHead targetTree) ms w.commits ∧
      (∀ m ∈ ms, FilesOK m) ∧ ms.getLast? = some w.merged := by
  obtain ⟨targetHead, targetTree, hhead, htree, hplans⟩ := planMerge_cases h
  have hmem : targetHead ∈ db.commits :=
    List.mem_of_find?_eq_some (commitByIDInProject_ok hhead).1
  have htarget : FilesOK targetTree := mergeTree_entryOK hinv htree
  refine ⟨targetHead, targetTree, ?_⟩
  cases hplans with
  | replayed hrebase hbase hcommits hne hreplay =>
      obtain ⟨ms, cs, hms, hcs, hall, hok, hlast, hlength⟩ :=
        replayCommits_maps hinv hcf hmem hreplay (ChunksOnly.refl db) htarget
      refine ⟨ms, hhead, htree, ?_, ?_, hok, ?_⟩
      · rw [landedMaps, hbase, htree]
        change (if opts.strategy = .rebase then _ else _) = _
        rw [if_pos hrebase, hcommits]
        exact hms
      · rw [hcs, List.nil_append]
        exact hall
      · rcases ms with _ | ⟨m, ms⟩
        · exact absurd (List.length_eq_zero_iff.mp hlength.symm) hne
        · exact hlast
  | @merged _ _ baseTree theirs merged _ _ _ hrebase hbase _ hbaseTree htheirs honto hcommit =>
      refine ⟨[merged], hhead, htree, ?_, .cons ?_ .nil, ?_, rfl⟩
      · rw [landedMaps, hbase, htree]
        change (if opts.strategy = .rebase then _ else _) = _
        rw [if_neg hrebase, hbaseTree, htheirs]
        change (mergeOnto store db baseTree targetTree theirs [] >>= _) = _
        rw [honto]
        rfl
      · exact landingCommit_map hinv hcf hmem (mergeOnto_ok honto).1 hcommit
      · simpa using mergeOnto_filesOK honto htarget (mergeTree_entryOK hinv htheirs)

end Maps

/-! ## Landings of a server -/

section Landings

variable {H : Type} [HashScheme H] [DecidableEq H] {store : ContentStore H}

theorem ServerRun.grows (hcf : CollisionFree H) {s s' : Server H} (h : s.Hashed)
    (hrun : ServerRun store (fun _ _ => True) s s') : DB.Grows s.db s'.db := by
  have htracks : Tracks store (fun _ _ => True) fun _ _ _ => True :=
    ⟨fun _ _ _ => trivial, fun _ _ _ _ => trivial, fun _ _ _ _ _ => trivial⟩
  refine hrun.related (R := fun s s' => DB.Grows s.db s'.db) h
    (fun _ _ _ h _ hstep => h.step hcf hstep) (fun _ h => DB.Grows.refl h.inv.store) ?_ ?_
  · intro s s' s'' hg hg'
    exact DB.Grows.trans hg hg'
  · intro s e s' h _ hstep
    exact (h.inv.step hcf htracks trivial hstep).2

/-- The change set of merged files on a head: it has the paths that change, those are
checked, and its tree is that of the merged files when modes settle. -/
structure DeltaLands (db : DB H) (head : Commit H) (target merged : GoMap (Entry H)) : Prop where
  paths : ∀ p, p ∈ (mergeDelta target merged).1.map PushFile.path ++
    (mergeDelta target merged).2 ↔ PathChanges target merged p
  checked : ∀ perm, ensureMergedWrites perm target merged = .ok () ↔
    ∀ p, PathChanges target merged p → perm.hasPathAccess p .write = true
  written : ∃ root, buildNewTree db (some head) (mergeDelta target merged).1
      (mergeDelta target merged).2 = .ok root ∧
    ∀ commitID projectID branchID parentID parent2ID parentHashes userID message db',
      applyPush db (buildApplyRequest commitID projectID branchID parentID parent2ID
        parentHashes userID message root) = .ok db' →
      (CommitReads db' projectID commitID merged ↔ ModesSettle db head merged)

/-- The commits of a landing, worked out in `s`: each is on top of the one before, and they
have the trees of the replayed files when modes settle. -/
structure ChainLands (store : ContentStore H) (s : Server H) (land : Landing)
    (strategy : MergeStrategy) (w : MergeWrite H) (targetHead : Commit H)
    (ms : List (GoMap (Entry H))) : Prop where
  head_eq : commitByIDInProject s.db land.projectID land.targetHead = .ok targetHead
  maps_eq : landedMaps store s.db land strategy = .ok ms
  last_eq : ms.getLast? = some w.merged
  chained : ∃ last, Chained s.db land.target.id land.targetHead w.commits last
  written : ∀ s' db', ServerRun store (fun _ _ => True) s s' →
    applyPushAll s'.db (w.commits.map PlannedCommit.request) = .ok db' →
    (AllRead db' land.projectID ms w.commits ↔ AllSettle targetHead s'.db ms w.commits)

theorem HashedStore.deltaLands {db : DB H} (h : HashedStore db) (hcf : CollisionFree H)
    {head : Commit H} (hhead : head ∈ db.commits) {target merged : GoMap (Entry H)}
    (htarget : mergeTree db head.projectID head.id = .ok target) (hmerged : FilesOK merged) :
    DeltaLands db head target merged := by
  refine ⟨fun p => mem_mergeDelta_iff, fun perm => ensureMergedWrites_ok, ?_⟩
  have hs := h.inv.toStoreShape
  obtain ⟨c, row, hc, hrow, hflat⟩ := mergeTree_ok h.inv htarget
  obtain rfl : c = head := by
    obtain ⟨hget, hid, -⟩ := commitByIDInProject_ok hc
    exact List.inj_on_of_nodup_map h.ids_nodup (List.mem_of_find?_eq_some hget) hhead hid
  have hstored : ∀ c' ∈ some c, c' ∈ db.commits := by
    rintro _ ⟨⟩
    exact hhead
  obtain ⟨base, -, hroot, -⟩ := baseRootOf_eq (DB.Grows.refl h.inv) hstored
  have hbuild := buildNewTree_of_root hroot (mergeDelta target merged).1
    (mergeDelta target merged).2
  refine ⟨_, hbuild, ?_⟩
  intro commitID projectID branchID parentID parent2ID parentHashes userID message db' happly
  have hplan : WritePlan db (some c) (mergeDelta target merged).1 (mergeDelta target merged).2
      (buildApplyRequest commitID projectID branchID parentID parent2ID parentHashes userID
        message _) :=
    ⟨requestOK_mergeDelta (fun p => hflat.entryOK hs) hmerged, hstored, _, parentHashes, hbuild,
      rfl⟩
  obtain ⟨_, hback⟩ := hplan.writtenBack h.inv h.hashes hcf happly
  obtain ⟨treeID, hland⟩ := hplan.landed h.inv hcf happly
  exact hback.commitReads_iff (DB.Grows.refl hland.inv) hcf h.inv hrow hflat hmerged

theorem Server.Hashed.chainLands {s : Server H} (h : s.Hashed) (hcf : CollisionFree H)
    {caller : Caller} {land : Landing} {opts : MergeCommitOptions} {newID : ℕ → ID} {mid : DB H}
    {w : MergeWrite H} (hplan : planMerge store s.db caller land opts newID = .ok (.write mid w)) :
    ∃ targetHead ms, ChainLands store s land opts.strategy w targetHead ms := by
  have hinv := h.store.inv
  obtain ⟨targetHead, targetTree, ms, hhead, htree, hms, hall, hok, hlast⟩ :=
    planMerge_maps hinv hcf hplan
  refine ⟨targetHead, ms, hhead, hms, hlast, (planMerge_chained hplan).2.2, ?_⟩
  intro s' db' hrun happly
  have hg := ServerRun.grows hcf h hrun
  have h' := hrun.invariant h fun _ _ _ h _ hstep => h.step hcf hstep
  have hmem : targetHead ∈ s.db.commits :=
    List.mem_of_find?_eq_some (commitByIDInProject_ok hhead).1
  obtain ⟨c, row, hc, hrow, hflat⟩ := mergeTree_ok hinv htree
  obtain rfl := Except.ok.inj (hc.symm.trans hhead)
  have hrow' : headRow s'.db (some c) = some row := by
    rw [headRow_eq_of_grows hg, hrow]
    rintro _ ⟨⟩
    exact hmem
  obtain ⟨hg', hreads⟩ := applyPushAll_reads hcf
    (hall.imp fun _ _ hcm => ⟨hcm.1.grows hg hcf hmem, hcm.2⟩) hok h'.store.inv h'.store.hashes
    (hg.commits.subset hmem) hrow' (hflat.grows hg hcf) happly
  exact hreads (DB.Grows.refl hg'.inv')

/-- In every reachable state, a landing puts the merged files on the target exactly when,
at each write, directories of one content have one mode for each file. -/
theorem landing_writes_merged_iff (hcf : CollisionFree H) {s₀ s : Server H} (hfresh : s₀.Fresh)
    (hrun : ServerRun store (fun _ _ => True) s₀ s) :
    (∀ head ∈ s.db.commits, ∀ target merged, FilesOK merged →
      mergeTree s.db head.projectID head.id = .ok target →
        DeltaLands s.db head target merged) ∧
    ∀ caller land opts newID mid w,
      planMerge store s.db caller land opts newID = .ok (.write mid w) →
        ∃ targetHead ms, ChainLands store s land opts.strategy w targetHead ms := by
  have h := ServerRun.hashed hcf hfresh hrun
  constructor
  · intro head hhead target merged hmerged htarget
    exact h.store.deltaLands hcf hhead htarget hmerged
  · intro caller land opts newID mid w hplan
    exact h.chainLands hcf hplan

end Landings

/-! ## A landing that loses a mode -/

def scriptPush : PushRequest IdealHash :=
  { demoPush with
    message := "script".toList
    files := [modeFile 0o644, demoFile "x.txt" 2]
    paths_fit := by decide }

def devPush : PushRequest IdealHash :=
  { demoSecond with
    branchName := "dev".toList
    message := "mode".toList
    files := [modeFile 0o755, demoFile "y.txt" 3]
    removed := []
    paths_fit := by decide }

def mainPush : PushRequest IdealHash :=
  { demoSecond with
    message := "rename".toList
    files := [demoFile "y.txt" 3]
    removed := ["x.txt".toList]
    paths_fit := by decide }

def scriptStore : DB IdealHash :=
  (push demoStore demoCaller 7 scriptPush).toOption.getD demoStore

def branchedStore : DB IdealHash :=
  { scriptStore with
    branches := scriptStore.branches ++ [⟨2, 1, "dev".toList, false, false, some 7, false⟩] }

def devStore : DB IdealHash :=
  (push branchedStore demoCaller 8 devPush).toOption.getD demoStore

def divergedStore : DB IdealHash :=
  (push devStore demoCaller 9 mainPush).toOption.getD demoStore

def modeLanding : Landing :=
  ⟨1, "main".toList, "dev".toList, ⟨1, 1, "main".toList, false, true, some 9, false⟩, 9, 8⟩

def modeOptions : MergeCommitOptions := ⟨.merge, [], 5, none⟩

theorem divergedStore_run :
    ServerRun noContent (fun _ _ => True) demoServer ⟨divergedStore, fun _ => none⟩ := by
  have hscript : ServerRun noContent (fun _ _ => True) demoServer ⟨scriptStore, fun _ => none⟩ :=
    push_serverRun (eq_ok_of_toOption demoStore (by decide +kernel)) (by decide +kernel)
      (by decide +kernel)
  have hbranched : Housekeeping scriptStore branchedStore := by
    refine ⟨⟨rfl, rfl, rfl⟩, by decide +kernel, fun b hb => ?_, by decide +kernel⟩
    exact ⟨b, List.mem_append_left _ hb, rfl, rfl, id⟩
  have hdev : ServerRun noContent (fun _ _ => True) ⟨branchedStore, fun _ => none⟩
      ⟨devStore, fun _ => none⟩ :=
    push_serverRun (eq_ok_of_toOption demoStore (by decide +kernel)) (by decide +kernel)
      (by decide +kernel)
  have hmain : ServerRun noContent (fun _ _ => True) ⟨devStore, fun _ => none⟩
      ⟨divergedStore, fun _ => none⟩ :=
    push_serverRun (eq_ok_of_toOption demoStore (by decide +kernel)) (by decide +kernel)
      (by decide +kernel)
  exact ((hscript.tail (e := .other) trivial (.other hbranched)).trans hdev).trans hmain

theorem landing_writes_merged_demo :
    ∃ s, ServerRun noContent (fun _ _ => True) demoServer s ∧ s.db.commits.length = 3 ∧
      (∀ head ∈ s.db.commits, ∀ target merged, FilesOK merged →
        mergeTree s.db head.projectID head.id = .ok target →
          DeltaLands s.db head target merged) ∧
      ∀ caller land opts newID mid w,
        planMerge noContent s.db caller land opts newID = .ok (.write mid w) →
          ∃ targetHead ms, ChainLands noContent s land opts.strategy w targetHead ms :=
  ⟨_, divergedStore_run, by decide +kernel,
    landing_writes_merged_iff IdealHash.collisionFree demoServer_fresh divergedStore_run⟩

def plannedWrite : MergePlan IdealHash → Option (MergeWrite IdealHash)
  | .fastForward => none
  | .nothing => none
  | .write _ w => some w

/-- The script is executable in the merged files and is not in the commit that is written:
the target has had a directory of the same content before. -/
theorem landed_mode_lost :
    ∃ s, ServerRun noContent (fun _ _ => True) demoServer s ∧
      (openMerge s.db demoCaller 1 "main".toList "dev".toList modeOptions
        modeLanding.target).toOption = some modeLanding ∧
      ∃ mid w db', planMerge noContent s.db demoCaller modeLanding modeOptions (· + 10) =
          .ok (.write mid w) ∧
        applyPushAll s.db (w.commits.map PlannedCommit.request) = .ok db' ∧
        ∀ ms, landedMaps noContent s.db modeLanding .merge = .ok ms →
          ¬ AllRead db' 1 ms w.commits := by
  refine ⟨_, divergedStore_run, by decide +kernel, ?_⟩
  have hmap : (landedMaps noContent divergedStore modeLanding .merge).toOption.map
      (List.map fun m => (m.lookup "a.sh".toList).map Entry.mode) = some [some 0o755] := by
    decide +kernel
  have hread : (((planMerge noContent divergedStore demoCaller modeLanding modeOptions
      (· + 10)).toOption.bind plannedWrite).any fun w =>
        (applyPushAll divergedStore (w.commits.map PlannedCommit.request)).toOption.any fun db' =>
          w.commits.all fun c => decide ((mergeTree db' 1 c.request.commitID).toOption.map
            (fun m => (m.lookup "a.sh".toList).map Entry.mode) = some (some 0o644))) = true := by
    decide +kernel
  obtain ⟨w, hw, hread⟩ := (Option.any_eq_true _ _).mp hread
  obtain ⟨db', hwrite, hread⟩ := (Option.any_eq_true _ _).mp hread
  obtain ⟨plan, hplan, hw⟩ := Option.bind_eq_some_iff.mp hw
  cases plan with
  | fastForward => cases hw
  | nothing => cases hw
  | write mid w' =>
      obtain rfl := (Option.some.inj hw).symm
      refine ⟨mid, w, db', toOption_eq_some hplan, toOption_eq_some hwrite, fun ms hms hall => ?_⟩
      rw [hms] at hmap
      obtain ⟨m, rfl⟩ : ∃ m, ms = [m] := by
        rw [← List.length_eq_one_iff]
        simpa using congrArg List.length (Option.some.inj hmap)
      obtain ⟨c, cs, hc, hnil, heq⟩ := List.forall₂_cons_left_iff.mp hall
      obtain ⟨m', hm', hsame⟩ := hc
      have hmode := List.all_eq_true.mp hread c (by simp [heq])
      rw [decide_eq_true_eq, hm'] at hmode
      have hold : (m.lookup "a.sh".toList).map Entry.mode = some 0o755 := by
        simpa only [Except.toOption, Option.map_some, List.map_cons, List.map_nil,
          Option.some.injEq, List.cons.injEq, and_true] using hmap
      have hnew : (m'.lookup "a.sh".toList).map Entry.mode = some 0o644 := by
        simpa only [Except.toOption, Option.map_some, Option.some.injEq] using hmode
      have hboth := congrArg (Option.map fun v => v.2.1) (hsame "a.sh".toList)
      rw [Option.map_map, Option.map_map] at hboth
      change (m'.lookup "a.sh".toList).map Entry.mode = (m.lookup "a.sh".toList).map Entry.mode
        at hboth
      rw [hold, hnew] at hboth
      simp at hboth

end Nipa
