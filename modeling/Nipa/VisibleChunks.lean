import Nipa.Permissions
import Nipa.TreeWalk

/-!
# The chunks a caller may read

The chunks of every readable file of several commits are collected by walking
their trees one after the other.  A directory is remembered by where it sits
and what it holds, and is not walked again; it is remembered when its walk
begins, so while the walk is below a directory that directory is remembered but
not finished.  Such directories lie above the current one, and everything else
that is remembered has been collected.
-/

namespace Nipa

open Support

/-! ## The walk -/

section Walk

variable {H : Type} [DecidableEq H] [HashScheme H]

/-- Where a directory sits and what it holds. -/
abbrev TreeVisit (H : Type) := Str × H

/-- The directories walked so far and the chunks collected from them. -/
structure Collected (H : Type) where
  visited : List (TreeVisit H)
  seen : List H

def addChunks (seen : List H) (files : List (File H)) : List H :=
  files.foldl (fun seen f => f.chunks.foldl (fun seen c => seen.insert c.hash) seen) seen

/-- Collect the chunks below a directory.  The walk is as deep as the tree;
`depth` counts down from its depth and is never exhausted. -/
def collectVisibleChunks (db : DB H) (filter : PathFilter) (sparse : PrefixSet) :
    ℕ → TreeRow H → Str → Collected H → Collected H
  | 0, _, _, s => s
  | depth + 1, node, path, s =>
      if node.hash ≠ HashScheme.zero ∧ (path, node.hash) ∈ s.visited then s
      else
        let files := (db.listFilesByTree node.id).filter fun f =>
          showsFile filter sparse path f.name
        let children := (db.listTreeChildren node.id).filter fun c =>
          entersDir filter sparse path c.name
        children.foldl (fun s c =>
            collectVisibleChunks db filter sparse depth c (joinTreePath path c.name) s)
          { visited := if node.hash ≠ HashScheme.zero then (path, node.hash) :: s.visited
              else s.visited
            seen := addChunks s.seen files }

/-- Collect the chunks of a list of commits. -/
def collectCommitChunks (db : DB H) (filter : PathFilter) (sparse : PrefixSet)
    (projectID : ID) : List ID → Collected H → Except DomainError (Collected H)
  | [], s => .ok s
  | commitID :: rest, s => do
      let commit ← commitByIDInProject db projectID commitID
      let root ← getTreeNode db commit.treeID
      collectCommitChunks db filter sparse projectID rest
        (collectVisibleChunks db filter sparse db.treeDepth root [] s)

def newPrefixSet (prefixes : List Str) : Except DomainError PrefixSet :=
  prefixes.mapM fun p => orError (normalizePathPrefix p)
    (errUser "invalid path prefix %q: must not contain a .. segment" [p])

def visibleChunks (db : DB H) (isAdmin : Bool) (set : PermissionSet) (projectID : ID)
    (commitIDs : List ID) (paths : List Str) : Except DomainError (List H) := do
  refuseIf (¬ (isAdmin || set.grantsAnywhere permissionRead)) errNoPermission
  refuseIf (commitIDs = []) (errUser "at least one commit id is required" [])
  let sparse ← newPrefixSet paths
  let s ← collectCommitChunks db (compileFilter isAdmin set permissionRead) sparse projectID
    commitIDs ⟨[], []⟩
  return s.seen.insertionSort fun a b =>
    (HashScheme.bytes a).map UInt8.toNat ≤ (HashScheme.bytes b).map UInt8.toNat

end Walk

/-! ## What is collected -/

section Collect

variable {H : Type} [DecidableEq H] {db : DB H} {filter : PathFilter} {sparse : PrefixSet}

/-- A chunk of a file shown below a directory. -/
def BelowChunk (db : DB H) (filter : PathFilter) (sparse : PrefixSet) (n : List Str × H)
    (x : H) : Prop :=
  ∃ segs f, (viewTree db filter sparse).find n segs = some f ∧ x ∈ f.chunks.map Chunk.hash

theorem mem_addChunks {seen : List H} {files : List (File H)} {x : H} :
    x ∈ addChunks seen files ↔ x ∈ seen ∨ ∃ f ∈ files, x ∈ f.chunks.map Chunk.hash := by
  have hfile : ∀ (chunks : List (Chunk H)) (seen : List H),
      x ∈ chunks.foldl (fun seen c => seen.insert c.hash) seen ↔
        x ∈ seen ∨ x ∈ chunks.map Chunk.hash := by
    intro chunks
    induction chunks with
    | nil => simp
    | cons c rest ih =>
        intro seen
        rw [List.foldl_cons, ih, List.mem_insert_iff, List.map_cons, List.mem_cons]
        tauto
  rw [addChunks]
  induction files generalizing seen with
  | nil => simp
  | cons f rest ih =>
      rw [List.foldl_cons]
      refine ih.trans ?_
      rw [hfile]
      simp only [List.mem_cons, exists_eq_or_imp, or_assoc]

/-- Everything remembered is pending or collected completely. -/
def Remembers (db : DB H) (filter : PathFilter) (sparse : PrefixSet)
    (pending : List Str × H → Prop) (s : Collected H) : Prop :=
  ∀ ds h, (∀ m ∈ ds, ValidName m) → (pathOf ds, h) ∈ s.visited →
    pending (ds, h) ∨ ∀ x, BelowChunk db filter sparse (ds, h) x → x ∈ s.seen

/-- A walk collects exactly the new chunks, and what it remembers is pending or
collected. -/
structure Collects (db : DB H) (filter : PathFilter) (sparse : PrefixSet)
    (pending : List Str × H → Prop) (new : H → Prop) (s s' : Collected H) : Prop where
  keeps : ∀ x ∈ s.seen, x ∈ s'.seen
  sound : ∀ x ∈ s'.seen, x ∈ s.seen ∨ new x
  complete : ∀ x, new x → x ∈ s'.seen
  remembers : Remembers db filter sparse pending s'

variable {pending : List Str × H → Prop} {new new' : H → Prop} {s s' s'' : Collected H}

theorem Collects.nothing (h : Remembers db filter sparse pending s) :
    Collects db filter sparse pending (fun _ => False) s s where
  keeps _ hx := hx
  sound _ hx := Or.inl hx
  complete _ hx := hx.elim
  remembers := h

theorem Collects.trans (h : Collects db filter sparse pending new s s')
    (h' : Collects db filter sparse pending new' s' s'') :
    Collects db filter sparse pending (fun x => new x ∨ new' x) s s'' where
  keeps x hx := h'.keeps x (h.keeps x hx)
  sound x hx := by
    rcases h'.sound x hx with hx | hx
    · rcases h.sound x hx with hx | hx
      · exact Or.inl hx
      · exact Or.inr (Or.inl hx)
    · exact Or.inr (Or.inr hx)
  complete x hx := by
    rcases hx with hx | hx
    · exact h'.keeps x (h.complete x hx)
    · exact h'.complete x hx
  remembers := h'.remembers

theorem Collects.foldl {α : Type} {step : Collected H → α → Collected H}
    {below : α → H → Prop} {l : List α}
    (hstep : ∀ a ∈ l, ∀ s, Remembers db filter sparse pending s →
      Collects db filter sparse pending (below a) s (step s a))
    (h : Remembers db filter sparse pending s) :
    Collects db filter sparse pending (fun x => ∃ a ∈ l, below a x) s (l.foldl step s) := by
  induction l generalizing s with
  | nil =>
      have hnone : (fun x => ∃ a ∈ ([] : List α), below a x) = fun _ => False := by
        funext x
        simp
      rw [hnone]
      exact Collects.nothing h
  | cons a rest ih =>
      have hhead := hstep a (by simp) s h
      have htail := ih (fun b hb => hstep b (List.mem_cons_of_mem _ hb)) hhead.remembers
      have hsplit : (fun x => ∃ b ∈ a :: rest, below b x) =
          fun x => below a x ∨ ∃ b ∈ rest, below b x := by
        funext x
        simp
      rw [hsplit, List.foldl_cons]
      exact hhead.trans htail

end Collect

/-! ## One directory -/

section Directory

variable {H : Type} [DecidableEq H] [HashScheme H] {db : DB H} {filter : PathFilter}
  {sparse : PrefixSet}

/-- A chunk below a directory is one of its own files' or is below a child that
is entered. -/
theorem belowChunk_iff (hs : db.StoreShape) {ds : List Str} {h x : H} :
    BelowChunk db filter sparse (ds, h) x ↔
      (∃ f ∈ (db.filesByHash h).filter fun f => showsFile filter sparse (pathOf ds) f.name,
        x ∈ f.chunks.map Chunk.hash) ∨
      ∃ c ∈ (db.childrenByHash h).filter fun c => entersDir filter sparse (pathOf ds) c.name,
        BelowChunk db filter sparse (ds ++ [c.name], c.hash) x := by
  constructor
  · rintro ⟨segs, f, hfind, hx⟩
    rcases segs with _ | ⟨k, rest⟩
    · simp at hfind
    · by_cases hrest : rest = []
      · subst hrest
        rw [Hierarchy.find_singleton,
          Hierarchy.fileOf_eq_some_iff (viewTree_distinct hs)] at hfind
        obtain ⟨g, hg, heq⟩ := List.mem_map.mp hfind
        obtain ⟨-, rfl⟩ := Prod.mk.inj heq
        exact Or.inl ⟨g, hg, hx⟩
      · rw [Hierarchy.find_cons _ _ _ hrest] at hfind
        obtain ⟨m, hm, hfind⟩ := Option.bind_eq_some_iff.mp hfind
        rw [Hierarchy.subOf_eq_some_iff (viewTree_distinct hs)] at hm
        obtain ⟨c, hc, heq⟩ := List.mem_map.mp hm
        obtain ⟨-, rfl⟩ := Prod.mk.inj heq
        exact Or.inr ⟨c, hc, rest, f, hfind, hx⟩
  · rintro (⟨f, hf, hx⟩ | ⟨c, hc, segs, f, hfind, hx⟩)
    · refine ⟨[f.name], f, ?_, hx⟩
      rw [Hierarchy.find_singleton, Hierarchy.fileOf_eq_some_iff (viewTree_distinct hs)]
      exact List.mem_map.mpr ⟨f, hf, rfl⟩
    · have hne : segs ≠ [] := by
        rintro rfl
        simp at hfind
      refine ⟨c.name :: segs, f, ?_, hx⟩
      have hsub : (viewTree db filter sparse).subOf (ds, h) c.name =
          some (ds ++ [c.name], c.hash) := by
        rw [Hierarchy.subOf_eq_some_iff (viewTree_distinct hs)]
        exact List.mem_map.mpr ⟨c, hc, rfl⟩
      rw [Hierarchy.find_cons _ _ _ hne, hsub, Option.bind_some]
      exact hfind

/-- The walk below a directory collects exactly the chunks shown below it, when
only directories above it are pending. -/
theorem collectVisibleChunks_collects (hs : db.StoreShape) {depth : ℕ} {row : TreeRow H}
    (hr : row ∈ db.treeNodes) (hb : db.storeTree.Bounded depth row.hash) {ds : List Str}
    (hds : ∀ m ∈ ds, ValidName m) {pending : List Str × H → Prop}
    (hpending : ∀ n, pending n → n.1.length < ds.length) {s : Collected H}
    (h : Remembers db filter sparse pending s) :
    Collects db filter sparse pending (BelowChunk db filter sparse (ds, row.hash)) s
      (collectVisibleChunks db filter sparse depth row (pathOf ds) s) := by
  induction depth generalizing row ds pending s with
  | zero => exact hb.elim
  | succ depth ih =>
      rw [collectVisibleChunks]
      split
      next hskip =>
        -- a directory that is remembered but not finished lies above this one
        have hdone : ∀ x, BelowChunk db filter sparse (ds, row.hash) x → x ∈ s.seen :=
          (h ds row.hash hds hskip.2).resolve_left fun hp => lt_irrefl _ (hpending _ hp)
        exact ⟨fun _ hx => hx, fun _ hx => Or.inl hx, hdone, h⟩
      next hwalk =>
        rw [DB.listFilesByTree, DB.listTreeChildren, hs.treeNodeGet_eq hr]
        dsimp only
        set files := (db.filesByHash row.hash).filter fun f =>
          showsFile filter sparse (pathOf ds) f.name with hfiles
        set children := (db.childrenByHash row.hash).filter fun c =>
          entersDir filter sparse (pathOf ds) c.name with hchildren
        set s₁ : Collected H :=
          { visited := if row.hash ≠ HashScheme.zero then (pathOf ds, row.hash) :: s.visited
              else s.visited
            seen := addChunks s.seen files } with hs₁
        -- the directory itself is pending while its children are walked
        have hrem : Remembers db filter sparse
            (fun n => pending n ∨ n = (ds, row.hash)) s₁ := by
          intro ds' h' hds' hmem
          have hcase : ds' = ds ∧ h' = row.hash ∨ (pathOf ds', h') ∈ s.visited := by
            rw [hs₁] at hmem
            dsimp only at hmem
            split at hmem
            · rcases List.mem_cons.mp hmem with heq | hmem
              · obtain ⟨hpath, rfl⟩ := Prod.mk.inj heq
                exact Or.inl ⟨pathOf_inj hds' hds hpath, rfl⟩
              · exact Or.inr hmem
            · exact Or.inr hmem
          rcases hcase with ⟨rfl, rfl⟩ | hmem
          · exact Or.inl (Or.inr rfl)
          · rcases h ds' h' hds' hmem with hp | hdone
            · exact Or.inl (Or.inl hp)
            · exact Or.inr fun x hx => mem_addChunks.mpr (Or.inl (hdone x hx))
        have hbelow : Collects db filter sparse (fun n => pending n ∨ n = (ds, row.hash))
            (fun x => ∃ c ∈ children, BelowChunk db filter sparse (ds ++ [c.name], c.hash) x)
            s₁ (children.foldl (fun s c => collectVisibleChunks db filter sparse depth c
              (joinTreePath (pathOf ds) c.name) s) s₁) := by
          refine Collects.foldl ?_ hrem
          intro c hc s hs'
          have hchild := (List.mem_filter.mp hc).1
          obtain ⟨hcmem, hcname⟩ := hs.childrenByHash_mem hchild
          rw [joinTreePath_pathOf hds hcname]
          refine ih hcmem ?_ (validNames_concat hds hcname) ?_ hs'
          · exact hb (c.name, c.hash) (List.mem_map.mpr ⟨c, hchild, rfl⟩)
          · rintro n (hp | rfl)
            · have := hpending n hp
              simp only [List.length_append, List.length_singleton]
              omega
            · simp
        have hcomplete : ∀ x, BelowChunk db filter sparse (ds, row.hash) x →
            x ∈ (children.foldl (fun s c => collectVisibleChunks db filter sparse depth c
              (joinTreePath (pathOf ds) c.name) s) s₁).seen := by
          intro x hx
          rcases (belowChunk_iff hs).mp hx with hx | hx
          · exact hbelow.keeps x (mem_addChunks.mpr (Or.inr hx))
          · exact hbelow.complete x hx
        refine ⟨?_, ?_, hcomplete, ?_⟩
        · intro x hx
          exact hbelow.keeps x (mem_addChunks.mpr (Or.inl hx))
        · intro x hx
          rw [belowChunk_iff hs]
          rcases hbelow.sound x hx with hx | hx
          · rcases mem_addChunks.mp hx with hx | hx
            · exact Or.inl hx
            · exact Or.inr (Or.inl hx)
          · exact Or.inr (Or.inr hx)
        · intro ds' h' hds' hmem
          rcases hbelow.remembers ds' h' hds' hmem with (hp | heq) | hdone
          · exact Or.inl hp
          · obtain ⟨rfl, rfl⟩ := Prod.mk.inj heq
            exact Or.inr hcomplete
          · exact Or.inr hdone

/-! ## Commits -/

theorem collectCommitChunks_collects (hinv : db.StoreInv) {projectID : ID} {ids : List ID}
    (hroots : ∀ id ∈ ids, ∃ root, commitRootNode db projectID (some id) = .ok (some root))
    {s : Collected H} (h : Remembers db filter sparse (fun _ => False) s) :
    ∃ s', collectCommitChunks db filter sparse projectID ids s = .ok s' ∧
      Collects db filter sparse (fun _ => False) (fun x => ∃ id ∈ ids, ∃ root,
        commitRootNode db projectID (some id) = .ok (some root) ∧
          BelowChunk db filter sparse ([], root.hash) x) s s' := by
  induction ids generalizing s with
  | nil =>
      refine ⟨s, rfl, ?_⟩
      simpa using Collects.nothing h
  | cons id rest ih =>
      obtain ⟨root, hroot⟩ := hroots id (by simp)
      have hmem := commitRootNode_mem hroot root rfl
      have hwalk : Collects db filter sparse (fun _ => False)
          (BelowChunk db filter sparse ([], root.hash)) s
          (collectVisibleChunks db filter sparse db.treeDepth root (pathOf []) s) :=
        collectVisibleChunks_collects hinv.toStoreShape hmem (hinv.bounded_length hmem)
          (by simp) (fun _ hn => hn.elim) h
      obtain ⟨s', hs', hrest⟩ := ih (fun i hi => hroots i (List.mem_cons_of_mem _ hi))
        hwalk.remembers
      have hread := hroot
      rw [commitRootNode] at hread
      simp only [bind_eq_ok, pure_eq_ok, Option.some.injEq] at hread
      obtain ⟨c, hc, row, hrow, rfl⟩ := hread
      refine ⟨s', ?_, ?_⟩
      · rw [collectCommitChunks, hc]
        simp only [bind_eq_ok]
        exact ⟨c, rfl, row, hrow, hs'⟩
      · have hsplit : (fun x => ∃ i ∈ id :: rest, ∃ root,
            commitRootNode db projectID (some i) = .ok (some root) ∧
              BelowChunk db filter sparse ([], root.hash) x) =
            fun x => BelowChunk db filter sparse ([], row.hash) x ∨ ∃ i ∈ rest, ∃ root,
              commitRootNode db projectID (some i) = .ok (some root) ∧
                BelowChunk db filter sparse ([], root.hash) x := by
          funext x
          simp [hroot]
        rw [hsplit]
        exact hwalk.trans hrest

end Directory

/-! ## Filtering is exact -/

section Exact

variable {H : Type} [DecidableEq H] [HashScheme H] {db : DB H}

/-- A path of a flattened tree that the caller sees. -/
def VisiblePath (filter : PathFilter) (sparse : PrefixSet) (p : Str) : Prop :=
  filter.allow p ∧ (sparse.covers p ∨ p = rootIgnoreFile)

/-- Filtering loses and leaks nothing: a filtered manifest holds exactly the
visible entries of the whole tree, and the chunks collected for a list of
commits are exactly those of the visible entries of their trees. -/
structure FilteringExact (db : DB H) (projectID : ID) (filter : PathFilter)
    (sparse : PrefixSet) : Prop where
  manifest : ∀ root ∈ db.treeNodes, ∃ full t,
    flattened db allowAllFilter (some root) = some full ∧
    loadTreeManifest db true filter sparse db.treeDepth root [] = some t ∧
    ∀ p e, (fromTree t).lookup p = some e ↔
      full.lookup p = some e ∧ VisiblePath filter sparse p
  chunks : ∀ ids, (∀ id ∈ ids, ∃ root, commitRootNode db projectID (some id) = .ok (some root)) →
    ∃ s, collectCommitChunks db filter sparse projectID ids ⟨[], []⟩ = .ok s ∧
      ∀ x, x ∈ s.seen ↔ ∃ id ∈ ids, ∃ root full p e,
        commitRootNode db projectID (some id) = .ok (some root) ∧
        flattened db allowAllFilter (some root) = some full ∧
        full.lookup p = some e ∧ VisiblePath filter sparse p ∧ x ∈ e.chunkHashes

theorem visiblePath_pathOf {filter : PathFilter} {sparse : PrefixSet} {segs : List Str}
    (hsegs : ValidSegs segs) :
    VisiblePath filter sparse (pathOf segs) ↔ Visible filter sparse segs := by
  have hignore : ValidSegs [rootIgnoreFile] := by
    refine ⟨by simp, ?_⟩
    intro n hn
    rw [List.mem_singleton.mp hn]
    exact ⟨by decide, by decide⟩
  have hroot : pathOf segs = rootIgnoreFile ↔ segs = [rootIgnoreFile] := by
    constructor
    · intro h
      exact pathOf_injective hsegs hignore h
    · rintro rfl
      rfl
  rw [VisiblePath, Visible, hroot]

theorem exists_fullTree (hinv : db.StoreInv) {root : TreeRow H} (hroot : root ∈ db.treeNodes) :
    ∃ full, flattened db allowAllFilter (some root) = some full := by
  have hnode : ∀ row ∈ some root, row ∈ db.treeNodes := by
    rintro row ⟨⟩
    exact hroot
  obtain ⟨full, hfull, -⟩ := exists_flattened allowAllFilter hinv hnode
  exact ⟨full, hfull⟩

theorem flattened_lookup_iff (hinv : db.StoreInv) {root : TreeRow H}
    (hroot : root ∈ db.treeNodes) {full : GoMap (Entry H)}
    (hfull : flattened db allowAllFilter (some root) = some full) {p : Str} {e : Entry H} :
    full.lookup p = some e ↔ ∃ segs f, db.storeTree.find root.hash segs = some f ∧
      p = pathOf segs ∧ e = entryOf p f := by
  have hnode : ∀ row ∈ some root, row ∈ db.treeNodes := by
    rintro row ⟨⟩
    exact hroot
  obtain ⟨m, hm, hlookup⟩ := exists_flattened allowAllFilter hinv hnode
  obtain rfl := Option.some.inj (hfull.symm.trans hm)
  rw [hlookup]
  simp only [shown, Option.bind_some, viewTree_allowAll_find]

theorem Descends.filteringExact {filter : PathFilter}
    (hfilter : Descends filter.allow filter.canDescend) (hinv : db.StoreInv)
    (sparse : PrefixSet) (projectID : ID) : FilteringExact db projectID filter sparse := by
  have hs := hinv.toStoreShape
  constructor
  · intro root hroot
    obtain ⟨full, hfull⟩ := exists_fullTree hinv hroot
    obtain ⟨t, ht, hlookup⟩ := exists_load_lookup filter sparse hs hroot
      (hinv.bounded_length hroot)
    refine ⟨full, t, hfull, ht, ?_⟩
    intro p e
    rw [hlookup, flattened_lookup_iff hinv hroot hfull]
    constructor
    · rintro ⟨segs, f, hf, rfl, rfl⟩
      rw [viewTree_find_iff hs hfilter (by simp), List.nil_append] at hf
      exact ⟨⟨segs, f, hf.1, rfl, rfl⟩,
        (visiblePath_pathOf (storeTree_find_valid hs hf.1)).mpr hf.2⟩
    · rintro ⟨⟨segs, f, hf, rfl, rfl⟩, hvis⟩
      refine ⟨segs, f, ?_, rfl, rfl⟩
      rw [viewTree_find_iff hs hfilter (by simp), List.nil_append]
      exact ⟨hf, (visiblePath_pathOf (storeTree_find_valid hs hf)).mp hvis⟩
  · intro ids hroots
    have hstart : Remembers db filter sparse (fun _ => False) ⟨[], []⟩ := by
      intro ds h _ hmem
      simp at hmem
    obtain ⟨s, hs', hcol⟩ := collectCommitChunks_collects hinv hroots hstart
    refine ⟨s, hs', ?_⟩
    intro x
    constructor
    · intro hx
      rcases hcol.sound x hx with hx | ⟨id, hid, root, hread, segs, f, hf, hx⟩
      · simp at hx
      · have hroot := commitRootNode_mem hread root rfl
        obtain ⟨full, hfull⟩ := exists_fullTree hinv hroot
        rw [viewTree_find_iff hs hfilter (by simp), List.nil_append] at hf
        exact ⟨id, hid, root, full, pathOf segs, entryOf (pathOf segs) f, hread, hfull,
          (flattened_lookup_iff hinv hroot hfull).mpr ⟨segs, f, hf.1, rfl, rfl⟩,
          (visiblePath_pathOf (storeTree_find_valid hs hf.1)).mpr hf.2, hx⟩
    · rintro ⟨id, hid, root, full, p, e, hread, hfull, he, hvis, hx⟩
      have hroot := commitRootNode_mem hread root rfl
      obtain ⟨segs, f, hf, rfl, rfl⟩ := (flattened_lookup_iff hinv hroot hfull).mp he
      refine hcol.complete x ⟨id, hid, root, hread, segs, f, ?_, hx⟩
      rw [viewTree_find_iff hs hfilter (by simp), List.nil_append]
      exact ⟨hf, (visiblePath_pathOf (storeTree_find_valid hs hf)).mp hvis⟩

theorem permission_filtering_exact (hinv : db.StoreInv) {permission : PermissionMask}
    (hbit : SingleBit permission) (isAdmin : Bool) (set : PermissionSet)
    (sparse : PrefixSet) (projectID : ID) :
    FilteringExact db projectID (compileFilter isAdmin set permission) sparse :=
  (compileFilter_descends hbit isAdmin set).filteringExact hinv sparse projectID

end Exact

/-! ## Reading a part of a small store -/

/-- Rules that show the directory a/c, under a default that shows nothing. -/
def demoRules : PermissionSet where
  rules := [⟨"a/c".toList, permissionRead⟩]
  defaults := [⟨[], 0⟩]
  orgOwner := false

theorem permission_filtering_demo :
    ∃ db, push demoStore demoCaller 7 demoPush = .ok db ∧
      (visibleChunks db false demoRules 1 [7, 7] []).toOption = some [demoChunk 2] ∧
      FilteringExact db 1 (compileFilter false demoRules permissionRead) [] := by
  refine ⟨firstStore, firstStore_push, by decide +kernel, ?_⟩
  have hempty : demoStore.Unborn := ⟨rfl, rfl, rfl⟩
  exact permission_filtering_exact
    (firstStore_run.grows hempty.storeInv IdealHash.collisionFree).inv'
    ⟨0, by decide, by decide⟩ false demoRules [] 1

end Nipa
