import Nipa.Diff

/-!
# Trees built from flat maps

The client rebuilds a manifest from the flat file map of a merge.  Paths are
taken in order; the directories of a path are made where the walk finds none
under their key in a cache of nodes, and the file goes into the last of them.
Flattening the result gives the map back.
-/

namespace Nipa

open Support Diff

section Definitions

variable {H : Type}

/-- A directory while the tree is built.  A subdirectory is listed by its key in the
cache, which stands for the pointer: no entry of the cache is ever replaced by
another node. -/
structure DirNode (H : Type) where
  name : Str
  mode : ℕ
  fileChildren : List (File H)
  treeChildren : List Str

abbrev DirCache (H : Type) := GoMap (DirNode H)

def dirMode : ℕ := 16384

def DirNode.empty (name : Str) : DirNode H where
  name := name
  mode := dirMode
  fileChildren := []
  treeChildren := []

/-- Change the node under a key. -/
def DirCache.update (cache : DirCache H) (key : Str) (f : DirNode H → DirNode H) : DirCache H :=
  match cache.lookup key with
  | none => cache
  | some n => cache.insert key (f n)

/-- One step of the walk from the directory under the key `pre`. -/
def enterDir (acc : DirCache H × Str) (part : Str) : DirCache H × Str :=
  let key := joinPath acc.2 part
  match acc.1.lookup key with
  | some _ => (acc.1, key)
  | none =>
      (DirCache.update (acc.1.insert key (DirNode.empty part)) acc.2 fun n =>
        { n with treeChildren := n.treeChildren ++ [key] }, key)

def chunksOf (f : Entry H) : List (Chunk H) :=
  f.chunkHashes.mapIdx fun i h => { hash := h, sizeBytes := f.chunkSizes[i]?.getD 0 }

/-- The file put into the tree for an entry. -/
def childOf (f : Entry H) : File H where
  name := baseOf f.path
  mode := f.mode
  sizeBytes := f.sizeBytes
  isBinary := f.isBinary
  encoding := f.encoding
  hash := f.hash
  chunks := chunksOf f

def sortedPaths (files : GoMap (Entry H)) : List Str :=
  files.keys.insertionSort (· ≤ ·)

variable [HashScheme H]

/-- One round of the loop over the paths. -/
def placeFile (files : GoMap (Entry H)) (cache : DirCache H) (p : Str) : DirCache H :=
  let walked := (p.splitOn '/').dropLast.foldl enterDir (cache, [])
  let f := (files.lookup p).getD zeroEntry
  DirCache.update walked.1 walked.2 fun n =>
    { n with fileChildren := n.fileChildren ++ [childOf f] }

def dirCache (files : GoMap (Entry H)) : DirCache H :=
  (sortedPaths files).foldl (placeFile files) (AList.singleton [] (DirNode.empty []))

/-- Follow the pointers from a node, `depth` levels deep. -/
def DirCache.toTree (cache : DirCache H) : ℕ → Str → TreeNode H
  | 0, _ => .mk 0 HashScheme.zero [] 0 [] []
  | depth + 1, key =>
      match cache.lookup key with
      | none => .mk 0 HashScheme.zero [] 0 [] []
      | some n => .mk 0 HashScheme.zero n.name n.mode n.fileChildren
          (n.treeChildren.map (DirCache.toTree cache depth))

/-- No chain of pointers is longer than the number of nodes. -/
def treeFromFiles (files : GoMap (Entry H)) : TreeNode H :=
  (dirCache files).toTree (dirCache files).entries.length []

end Definitions

/-- A tree and the directories below it. -/
inductive TreeNode.Has {H : Type} : TreeNode H → TreeNode H → Prop where
  | self (t : TreeNode H) : Has t t
  | child {t c d : TreeNode H} (hc : c ∈ t.treeChildren) (hd : Has c d) : Has t d

/-! ## What the cache holds -/

section Cache

variable {H : Type}

/-- A node for the directory at `ds`, where `dirs` are the directories made so far and
`files` what has been put into each. -/
structure NodeOf (dirs : List Str → Prop) (files : List Str → List (File H)) (ds : List Str)
    (n : DirNode H) : Prop where
  name : n.name = ds.getLastD []
  fileChildren : n.fileChildren = files ds
  nodup : n.treeChildren.Nodup
  mem_treeChildren : ∀ c, c ∈ n.treeChildren ↔
    ∃ name, ValidName name ∧ c = pathOf (ds ++ [name]) ∧ dirs (ds ++ [name])

/-- The cache holds the directories `dirs`, each with its own files. -/
structure CacheOf (dirs : List Str → Prop) (files : List Str → List (File H))
    (cache : DirCache H) : Prop where
  lookup_isSome : ∀ ds, (∀ m ∈ ds, ValidName m) → ((cache.lookup (pathOf ds)).isSome ↔ dirs ds)
  node : ∀ ds n, (∀ m ∈ ds, ValidName m) → cache.lookup (pathOf ds) = some n →
    NodeOf dirs files ds n
  root : dirs []
  parent : ∀ ds name, dirs (ds ++ [name]) → dirs ds
  dir_of_file : ∀ ds, files ds ≠ [] → dirs ds

variable {dirs : List Str → Prop} {files : List Str → List (File H)} {cache : DirCache H}

theorem DirCache.lookup_update (cache : DirCache H) (key k : Str) (f : DirNode H → DirNode H) :
    (cache.update key f).lookup k
      = if k = key then (cache.lookup k).map f else cache.lookup k := by
  unfold DirCache.update
  cases hkey : cache.lookup key with
  | none =>
      by_cases hk : k = key
      · subst hk
        simp [hkey]
      · rw [if_neg hk]
  | some n =>
      rw [GoMap.lookup_insert_eq]
      by_cases hk : k = key
      · subst hk
        simp [hkey]
      · rw [if_neg hk, if_neg hk]

theorem CacheOf.congr {dirs' : List Str → Prop} (h : CacheOf dirs files cache)
    (hdirs : ∀ x, dirs x ↔ dirs' x) : CacheOf dirs' files cache := by
  have heq : dirs = dirs' := funext fun x => propext (hdirs x)
  rwa [← heq]

theorem CacheOf.empty :
    CacheOf (fun ds => ds = []) (fun _ => [])
      (AList.singleton [] (DirNode.empty []) : DirCache H) := by
  have hlookup : ∀ ds n, (∀ m ∈ ds, ValidName m) →
      ((AList.singleton [] (DirNode.empty []) : DirCache H).lookup (pathOf ds) = some n ↔
        ds = [] ∧ n = DirNode.empty []) := by
    intro ds n hds
    have hnil := pathOf_eq_nil_iff hds
    change (AList.insert [] (DirNode.empty []) (∅ : DirCache H)).lookup (pathOf ds) = some n ↔ _
    rw [GoMap.lookup_insert_eq]
    by_cases heq : ds = []
    · rw [if_pos (hnil.mpr heq)]
      simp [heq, eq_comm]
    · rw [if_neg fun hp => heq (hnil.mp hp)]
      simp [heq]
  refine
    { lookup_isSome := ?_
      node := ?_
      root := rfl
      parent := fun ds name h => by simp at h
      dir_of_file := fun ds h => absurd rfl h }
  · intro ds hds
    rw [Option.isSome_iff_exists]
    constructor
    · rintro ⟨n, hn⟩
      exact ((hlookup ds n hds).mp hn).1
    · intro hnil
      exact ⟨_, (hlookup ds _ hds).mpr ⟨hnil, rfl⟩⟩
  · intro ds n hds hn
    obtain ⟨rfl, rfl⟩ := (hlookup ds n hds).mp hn
    exact ⟨rfl, rfl, List.nodup_nil, fun c => by simp [DirNode.empty]⟩

variable {ds : List Str}

theorem CacheOf.makeDir (h : CacheOf dirs files cache) (hds : ∀ m ∈ ds, ValidName m)
    (hdir : dirs ds) {part : Str} (hpart : ValidName part) (hnew : ¬ dirs (ds ++ [part])) :
    CacheOf (fun x => dirs x ∨ x = ds ++ [part]) files
      (DirCache.update (cache.insert (pathOf (ds ++ [part])) (DirNode.empty part)) (pathOf ds)
        fun n => { n with treeChildren := n.treeChildren ++ [pathOf (ds ++ [part])] }) := by
  have hnewValid := validNames_concat hds hpart
  have hne : ds ≠ ds ++ [part] := by simp
  have hlookup : ∀ x, (∀ m ∈ x, ValidName m) →
      (DirCache.update (cache.insert (pathOf (ds ++ [part])) (DirNode.empty part)) (pathOf ds)
        fun n => { n with treeChildren := n.treeChildren ++ [pathOf (ds ++ [part])] }).lookup
          (pathOf x)
        = if x = ds then (cache.lookup (pathOf x)).map fun n =>
            { n with treeChildren := n.treeChildren ++ [pathOf (ds ++ [part])] }
          else if x = ds ++ [part] then some (DirNode.empty part)
          else cache.lookup (pathOf x) := by
    intro x hx
    have hself : pathOf x = pathOf ds ↔ x = ds := ⟨pathOf_inj hx hds, fun heq => heq ▸ rfl⟩
    have hmade : pathOf x = pathOf (ds ++ [part]) ↔ x = ds ++ [part] :=
      ⟨pathOf_inj hx hnewValid, fun heq => heq ▸ rfl⟩
    rw [DirCache.lookup_update, GoMap.lookup_insert_eq]
    simp only [hself, hmade]
    by_cases hxds : x = ds
    · rw [if_pos hxds, if_pos hxds, if_neg (hxds ▸ hne)]
    · rw [if_neg hxds, if_neg hxds]
  refine
    { lookup_isSome := ?_
      node := ?_
      root := Or.inl h.root
      parent := ?_
      dir_of_file := fun x hx => Or.inl (h.dir_of_file x hx) }
  · intro x hx
    rw [hlookup x hx]
    by_cases hxds : x = ds
    · rw [if_pos hxds, Option.isSome_map, h.lookup_isSome x hx]
      exact ⟨Or.inl, fun _ => hxds ▸ hdir⟩
    · rw [if_neg hxds]
      by_cases hxnew : x = ds ++ [part]
      · rw [if_pos hxnew]
        exact ⟨fun _ => Or.inr hxnew, fun _ => rfl⟩
      · rw [if_neg hxnew, h.lookup_isSome x hx]
        exact ⟨Or.inl, fun hor => hor.resolve_right hxnew⟩
  · intro x n hx hn
    rw [hlookup x hx] at hn
    by_cases hxds : x = ds
    · subst hxds
      rw [if_pos rfl] at hn
      obtain ⟨old, hold, rfl⟩ := Option.map_eq_some_iff.mp hn
      have hnode := h.node x old hx hold
      refine ⟨hnode.name, hnode.fileChildren, ?_, fun c => ?_⟩
      · refine List.nodup_append.mpr ⟨hnode.nodup, List.nodup_singleton _, ?_⟩
        intro c hc c' hc' heq
        rw [List.mem_singleton.mp hc'] at heq
        obtain ⟨name, hname, hpath, hchild⟩ := (hnode.mem_treeChildren c).mp hc
        rw [heq] at hpath
        have hsame := pathOf_inj hnewValid (validNames_concat hx hname) hpath
        exact hnew (hsame ▸ hchild)
      · rw [List.mem_append, List.mem_singleton, hnode.mem_treeChildren c]
        constructor
        · intro hc
          cases hc with
          | inl hold =>
              obtain ⟨name, hname, hpath, hchild⟩ := hold
              exact ⟨name, hname, hpath, Or.inl hchild⟩
          | inr heq => exact ⟨part, hpart, heq, Or.inr rfl⟩
        · rintro ⟨name, hname, hpath, hchild⟩
          cases hchild with
          | inl hchild => exact Or.inl ⟨name, hname, hpath, hchild⟩
          | inr heq => exact Or.inr (heq ▸ hpath)
    · rw [if_neg hxds] at hn
      -- no other directory gets a child
      have hsame : ∀ name, (dirs (x ++ [name]) ∨ x ++ [name] = ds ++ [part]) ↔
          dirs (x ++ [name]) := by
        intro name
        refine ⟨fun hor => hor.resolve_right fun heq => ?_, Or.inl⟩
        exact hxds (List.append_inj_left' heq rfl)
      by_cases hxnew : x = ds ++ [part]
      · rw [if_pos hxnew] at hn
        obtain rfl := Option.some.inj hn
        have hnodir : ¬ dirs x := hxnew ▸ hnew
        refine ⟨by rw [hxnew]; simp [DirNode.empty], ?_, List.nodup_nil, fun c => ?_⟩
        · by_contra hfiles
          exact hnodir (h.dir_of_file x fun hnil => hfiles hnil.symm)
        · simp only [hsame]
          constructor
          · intro hc
            cases hc
          · rintro ⟨name, _, _, hchild⟩
            exact absurd (h.parent x name hchild) hnodir
      · rw [if_neg hxnew] at hn
        have hnode := h.node x n hx hn
        refine ⟨hnode.name, hnode.fileChildren, hnode.nodup, fun c => ?_⟩
        simp only [hsame]
        exact hnode.mem_treeChildren c
  · intro x name hx
    cases hx with
    | inl hx => exact Or.inl (h.parent x name hx)
    | inr heq => exact Or.inl ((List.append_inj_left' heq rfl) ▸ hdir)

theorem CacheOf.enterDir (h : CacheOf dirs files cache) (hds : ∀ m ∈ ds, ValidName m)
    (hdir : dirs ds) {part : Str} (hpart : ValidName part) :
    ∃ cache', Nipa.enterDir (cache, pathOf ds) part = (cache', pathOf (ds ++ [part])) ∧
      CacheOf (fun x => dirs x ∨ x = ds ++ [part]) files cache' := by
  have hkey := joinPath_pathOf (n := part) hds
  have hsome := h.lookup_isSome (ds ++ [part]) (validNames_concat hds hpart)
  unfold Nipa.enterDir
  dsimp only
  rw [hkey]
  cases hfound : cache.lookup (pathOf (ds ++ [part])) with
  | some n =>
      have hthere : dirs (ds ++ [part]) := hsome.mp (by rw [hfound]; rfl)
      exact ⟨cache, rfl, h.congr fun x =>
        ⟨Or.inl, fun hor => hor.elim id fun heq => heq ▸ hthere⟩⟩
  | none =>
      refine ⟨_, rfl, h.makeDir hds hdir hpart fun hthere => ?_⟩
      have hthere := hsome.mpr hthere
      rw [hfound] at hthere
      cases hthere

theorem CacheOf.walk (h : CacheOf dirs files cache) (hds : ∀ m ∈ ds, ValidName m) (hdir : dirs ds)
    {parts : List Str} (hparts : ∀ m ∈ parts, ValidName m) :
    ∃ cache', parts.foldl Nipa.enterDir (cache, pathOf ds) = (cache', pathOf (ds ++ parts)) ∧
      CacheOf (fun x => dirs x ∨ ∃ made, made <+: parts ∧ x = ds ++ made) files cache' := by
  induction parts generalizing dirs cache ds with
  | nil =>
      refine ⟨cache, by simp, h.congr fun x => ⟨Or.inl, fun hor => hor.elim id fun hmade => ?_⟩⟩
      obtain ⟨made, hnil, heq⟩ := hmade
      rw [heq, List.prefix_nil.mp hnil, List.append_nil]
      exact hdir
  | cons part parts ih =>
      have hpart := hparts part List.mem_cons_self
      obtain ⟨mid, hmid, hmidOf⟩ := h.enterDir hds hdir hpart
      obtain ⟨cache', hcache, hcacheOf⟩ := ih hmidOf (validNames_concat hds hpart) (Or.inr rfl)
        fun m hm => hparts m (List.mem_cons_of_mem part hm)
      refine ⟨cache', ?_, hcacheOf.congr fun x => ⟨fun hx => ?_, fun hx => ?_⟩⟩
      · rw [List.foldl_cons, hmid, hcache, List.append_assoc, List.singleton_append]
      · rcases hx with (hx | hx) | ⟨made, hmade, hx⟩
        · exact Or.inl hx
        · exact Or.inr ⟨[part], by simp, hx⟩
        · exact Or.inr ⟨part :: made, (List.prefix_cons_inj part).mpr hmade, by simpa using hx⟩
      · rcases hx with hx | ⟨made, hmade, hx⟩
        · exact Or.inl (Or.inl hx)
        · cases made with
          | nil => exact Or.inl (Or.inl (by rw [hx, List.append_nil]; exact hdir))
          | cons part' made =>
              rw [List.cons_prefix_cons] at hmade
              obtain ⟨rfl, hmade⟩ := hmade
              exact Or.inr ⟨made, hmade, by simpa using hx⟩

theorem CacheOf.addFile (h : CacheOf dirs files cache) (hds : ∀ m ∈ ds, ValidName m)
    (hdir : dirs ds) (f : File H) :
    CacheOf dirs (fun x => if x = ds then files x ++ [f] else files x)
      (cache.update (pathOf ds) fun n => { n with fileChildren := n.fileChildren ++ [f] }) := by
  have hlookup : ∀ x, (∀ m ∈ x, ValidName m) →
      (cache.update (pathOf ds) fun n =>
        { n with fileChildren := n.fileChildren ++ [f] }).lookup (pathOf x)
        = if x = ds then (cache.lookup (pathOf x)).map fun n =>
            { n with fileChildren := n.fileChildren ++ [f] }
          else cache.lookup (pathOf x) := by
    intro x hx
    have hself : pathOf x = pathOf ds ↔ x = ds := ⟨pathOf_inj hx hds, fun heq => heq ▸ rfl⟩
    rw [DirCache.lookup_update]
    simp only [hself]
  refine
    { lookup_isSome := ?_
      node := ?_
      root := h.root
      parent := h.parent
      dir_of_file := ?_ }
  · intro x hx
    rw [hlookup x hx]
    split
    · rw [Option.isSome_map, h.lookup_isSome x hx]
    · exact h.lookup_isSome x hx
  · intro x n hx hn
    rw [hlookup x hx] at hn
    by_cases hxds : x = ds
    · rw [if_pos hxds] at hn
      obtain ⟨old, hold, rfl⟩ := Option.map_eq_some_iff.mp hn
      have hnode := h.node x old hx hold
      refine ⟨hnode.name, ?_, hnode.nodup, hnode.mem_treeChildren⟩
      rw [if_pos hxds, ← hnode.fileChildren]
    · rw [if_neg hxds] at hn
      have hnode := h.node x n hx hn
      refine ⟨hnode.name, ?_, hnode.nodup, hnode.mem_treeChildren⟩
      rw [if_neg hxds]
      exact hnode.fileChildren
  · intro x hx
    by_cases hxds : x = ds
    · exact hxds ▸ hdir
    · rw [if_neg hxds] at hx
      exact h.dir_of_file x hx

variable [HashScheme H]

/-- The directories of the paths placed so far. -/
def dirsOf (done : List (List Str)) (x : List Str) : Prop :=
  x = [] ∨ ∃ s ∈ done, x <+: s.dropLast

/-- The files placed so far in one directory. -/
def filesOf (m : GoMap (Entry H)) (done : List (List Str)) (x : List Str) : List (File H) :=
  (done.filter fun s => s.dropLast = x).map fun s => childOf ((m.lookup (pathOf s)).getD zeroEntry)

theorem placeFile_cacheOf {m : GoMap (Entry H)} {done : List (List Str)} {s : List Str}
    (h : CacheOf (dirsOf done) (filesOf m done) cache) (hs : ValidSegs s) :
    CacheOf (dirsOf (done ++ [s])) (filesOf m (done ++ [s])) (placeFile m cache (pathOf s)) := by
  have hvalid : ∀ n ∈ s.dropLast, ValidName n := fun n hn => hs.2 n (List.mem_of_mem_dropLast hn)
  obtain ⟨mid, hwalk, hmid⟩ := h.walk (fun n hn => by cases hn) h.root hvalid
  have hplace : placeFile m cache (pathOf s) = mid.update (pathOf s.dropLast) fun n =>
      { n with fileChildren :=
          n.fileChildren ++ [childOf ((m.lookup (pathOf s)).getD zeroEntry)] } := by
    unfold placeFile
    rw [splitOn_pathOf hs]
    rw [pathOf_nil, List.nil_append] at hwalk
    rw [hwalk]
  have hdir : dirsOf done s.dropLast ∨ ∃ made, made <+: s.dropLast ∧ s.dropLast = [] ++ made :=
    Or.inr ⟨s.dropLast, List.prefix_rfl, rfl⟩
  have hadded := hmid.addFile hvalid hdir (childOf ((m.lookup (pathOf s)).getD zeroEntry))
  have hfiles : (fun x => if x = s.dropLast then filesOf m done x
      ++ [childOf ((m.lookup (pathOf s)).getD zeroEntry)] else filesOf m done x)
      = filesOf m (done ++ [s]) := by
    funext x
    unfold filesOf
    rw [List.filter_append, List.map_append]
    by_cases hx : x = s.dropLast
    · simp [hx]
    · simp [hx, Ne.symm hx]
  rw [hplace, ← hfiles]
  refine hadded.congr fun x => ⟨fun hx => ?_, fun hx => ?_⟩
  · rcases hx with (hx | ⟨s', hs', hx⟩) | ⟨made, hmade, hx⟩
    · exact Or.inl hx
    · exact Or.inr ⟨s', List.mem_append_left _ hs', hx⟩
    · exact Or.inr ⟨s, by simp, by rwa [hx, List.nil_append]⟩
  · rcases hx with hx | ⟨s', hs', hx⟩
    · exact Or.inl (Or.inl hx)
    · cases List.mem_append.mp hs' with
      | inl hold => exact Or.inl (Or.inr ⟨s', hold, hx⟩)
      | inr hnew =>
          rw [List.mem_singleton.mp hnew] at hx
          exact Or.inr ⟨x, hx, rfl⟩

theorem foldl_placeFile_cacheOf {m : GoMap (Entry H)} {segs : List (List Str)}
    (hsegs : ∀ s ∈ segs, ValidSegs s) :
    CacheOf (dirsOf segs) (filesOf m segs)
      ((segs.map pathOf).foldl (placeFile m) (AList.singleton [] (DirNode.empty []))) := by
  induction segs using List.reverseRecOn with
  | nil => exact CacheOf.empty.congr fun x => by simp [dirsOf]
  | append_singleton segs s ih =>
      rw [List.map_append, List.foldl_append]
      exact placeFile_cacheOf (ih fun s' hs' => hsegs s' (List.mem_append_left _ hs'))
        (hsegs s (by simp))

end Cache

/-! ## Reading the tree out of the cache -/

section Tree

variable {H : Type} [HashScheme H] {dirs : List Str → Prop} {files : List Str → List (File H)}
  {cache : DirCache H}

/-- All directories below `ds` are less than `depth` levels down. -/
def Shallow (dirs : List Str → Prop) (depth : ℕ) (ds : List Str) : Prop :=
  ∀ more, dirs (ds ++ more) → more.length < depth

variable {depth : ℕ} {ds : List Str}

theorem Shallow.child (h : Shallow dirs (depth + 1) ds) (name : Str) :
    Shallow dirs depth (ds ++ [name]) := by
  intro more hmore
  have hlt := h (name :: more) (by simpa using hmore)
  rw [List.length_cons] at hlt
  omega

omit [HashScheme H] in
theorem CacheOf.dirs_of_append (h : CacheOf dirs files cache) (ds more : List Str)
    (hmore : dirs (ds ++ more)) : dirs ds := by
  induction more using List.reverseRecOn with
  | nil => rwa [List.append_nil] at hmore
  | append_singleton more name ih =>
      rw [← List.append_assoc] at hmore
      exact ih (h.parent _ name hmore)

theorem CacheOf.toTree_succ (h : CacheOf dirs files cache)
    (hvalid : ∀ ds, dirs ds → ∀ m ∈ ds, ValidName m) (hdir : dirs ds) (depth : ℕ) :
    ∃ n, NodeOf dirs files ds n ∧ cache.toTree (depth + 1) (pathOf ds)
      = .mk 0 HashScheme.zero n.name n.mode n.fileChildren
          (n.treeChildren.map (cache.toTree depth)) := by
  have hds := hvalid ds hdir
  obtain ⟨n, hn⟩ := Option.isSome_iff_exists.mp ((h.lookup_isSome ds hds).mpr hdir)
  refine ⟨n, h.node ds n hds hn, ?_⟩
  rw [DirCache.toTree, hn]

theorem CacheOf.toTree_name (h : CacheOf dirs files cache)
    (hvalid : ∀ ds, dirs ds → ∀ m ∈ ds, ValidName m) {name : Str} (hdir : dirs (ds ++ [name]))
    (hdepth : Shallow dirs depth (ds ++ [name])) :
    (cache.toTree depth (pathOf (ds ++ [name]))).name = name := by
  have hpos : 0 < depth := hdepth [] (by rwa [List.append_nil])
  obtain ⟨depth, rfl⟩ := Nat.exists_eq_succ_of_ne_zero hpos.ne'
  obtain ⟨n, hn, htree⟩ := h.toTree_succ hvalid hdir depth
  rw [htree, TreeNode.name, hn.name]
  simp

theorem CacheOf.mem_flattenTree (h : CacheOf dirs files cache)
    (hvalid : ∀ ds, dirs ds → ∀ m ∈ ds, ValidName m) (hdir : dirs ds)
    (hdepth : Shallow dirs depth ds) {e : Entry H} :
    e ∈ flattenTree (cache.toTree depth (pathOf ds)) (flattenPrefix ds) ↔
      ∃ more f, dirs (ds ++ more) ∧ f ∈ files (ds ++ more) ∧
        e = entryOf (pathOf (ds ++ more ++ [f.name])) f := by
  induction depth generalizing ds with
  | zero =>
      have hlt := hdepth [] (by rwa [List.append_nil])
      omega
  | succ depth ih =>
      obtain ⟨n, hn, htree⟩ := h.toTree_succ hvalid hdir depth
      have hbelow : ∀ name, dirs (ds ++ [name]) →
          (e ∈ flattenTree (cache.toTree depth (pathOf (ds ++ [name])))
            (flattenPrefix ds ++ '/' :: (cache.toTree depth (pathOf (ds ++ [name]))).name) ↔
          ∃ more f, dirs (ds ++ name :: more) ∧ f ∈ files (ds ++ name :: more) ∧
            e = entryOf (pathOf (ds ++ name :: more ++ [f.name])) f) := by
        intro name hname
        rw [h.toTree_name hvalid hname (hdepth.child name), ← flattenPrefix_concat,
          ih hname (hdepth.child name)]
        simp only [List.append_assoc, List.singleton_append]
      rw [htree, flattenTree, flattenTrees_eq_flatMap, List.mem_append, List.mem_flatMap,
        addFileEntries, hn.fileChildren, List.mem_map]
      simp only [trimPrefix_flattenPrefix]
      constructor
      · intro he
        cases he with
        | inl hfile =>
            obtain ⟨f, hf, rfl⟩ := hfile
            exact ⟨[], f, by rwa [List.append_nil], by rwa [List.append_nil],
              by rw [List.append_nil]⟩
        | inr hsub =>
            obtain ⟨t, ht, he⟩ := hsub
            obtain ⟨c, hc, rfl⟩ := List.mem_map.mp ht
            obtain ⟨name, _, rfl, hname⟩ := (hn.mem_treeChildren c).mp hc
            obtain ⟨more, f, hf⟩ := (hbelow name hname).mp he
            exact ⟨name :: more, f, hf⟩
      · rintro ⟨more, f, hmore, hf, he⟩
        cases more with
        | nil =>
            rw [List.append_nil] at hf he
            exact Or.inl ⟨f, hf, he.symm⟩
        | cons name more =>
            have hname : dirs (ds ++ [name]) := by
              refine h.dirs_of_append (ds ++ [name]) more ?_
              rwa [List.append_assoc, List.singleton_append]
            refine Or.inr ⟨_, List.mem_map_of_mem ((hn.mem_treeChildren _).mpr
              ⟨name, hvalid _ hname name (by simp), rfl, hname⟩), ?_⟩
            exact (hbelow name hname).mpr ⟨more, f, hmore, hf, he⟩

theorem CacheOf.exists_of_has (h : CacheOf dirs files cache)
    (hvalid : ∀ ds, dirs ds → ∀ m ∈ ds, ValidName m) (hdir : dirs ds)
    (hdepth : Shallow dirs depth ds) {t : TreeNode H}
    (ht : (cache.toTree depth (pathOf ds)).Has t) :
    ∃ more depth', dirs (ds ++ more) ∧ Shallow dirs depth' (ds ++ more) ∧
      t = cache.toTree depth' (pathOf (ds ++ more)) := by
  generalize hroot : cache.toTree depth (pathOf ds) = root at ht
  induction ht generalizing depth ds with
  | self r =>
      exact ⟨[], depth, by rwa [List.append_nil], by rwa [List.append_nil],
        by rw [List.append_nil, hroot]⟩
  | @child r c d hc _ ih =>
      have hpos : 0 < depth := hdepth [] (by rwa [List.append_nil])
      obtain ⟨depth, rfl⟩ := Nat.exists_eq_succ_of_ne_zero hpos.ne'
      obtain ⟨n, hn, htree⟩ := h.toTree_succ hvalid hdir depth
      rw [← hroot, htree, TreeNode.treeChildren] at hc
      obtain ⟨key, hkey, hc⟩ := List.mem_map.mp hc
      obtain ⟨name, _, hpath, hname⟩ := (hn.mem_treeChildren key).mp hkey
      rw [hpath] at hc
      obtain ⟨more, depth', hmore, hshallow, heq⟩ := ih hname (hdepth.child name) hc
      rw [List.append_assoc, List.singleton_append] at hmore hshallow heq
      exact ⟨name :: more, depth', hmore, hshallow, heq⟩

omit [HashScheme H] in
theorem CacheOf.shallow (h : CacheOf dirs files cache)
    (hvalid : ∀ ds, dirs ds → ∀ m ∈ ds, ValidName m) :
    Shallow dirs cache.entries.length [] := by
  intro more hmore
  rw [List.nil_append] at hmore
  have hvalidMore := hvalid more hmore
  have hnodup : ((List.range (more.length + 1)).map fun i => pathOf (more.take i)).Nodup := by
    refine List.Nodup.map_on ?_ List.nodup_range
    intro i hi j hj heq
    have htake := pathOf_inj (fun m hm => hvalidMore m (List.mem_of_mem_take hm))
      (fun m hm => hvalidMore m (List.mem_of_mem_take hm)) heq
    have hlen := congrArg List.length htake
    rw [List.length_take, List.length_take] at hlen
    rw [List.mem_range] at hi hj
    omega
  have hsub : ((List.range (more.length + 1)).map fun i => pathOf (more.take i)) ⊆ cache.keys := by
    intro key hkey
    obtain ⟨i, _, rfl⟩ := List.mem_map.mp hkey
    have hdir : dirs (more.take i) :=
      h.dirs_of_append (more.take i) (more.drop i) (by rwa [List.take_append_drop])
    exact AList.lookup_isSome.mp ((h.lookup_isSome _ (hvalid _ hdir)).mpr hdir)
  have hlen := hnodup.length_le_of_subset hsub
  rw [List.length_map, List.length_range, AList.keys, List.keys, List.length_map] at hlen
  omega

end Tree

/-! ## The round trip -/

section RoundTrip

variable {H : Type} [HashScheme H]

/-- What the round trip asks of a file map: the paths have no empty
segment and none is below another, and every entry is stored under its own path with
the hash of its chunk hashes and one size for each chunk. -/
structure FlatMap (files : GoMap (Entry H)) : Prop where
  segment : ∀ p ∈ files, ∀ n ∈ p.splitOn '/', n ≠ []
  prefixFree : ∀ p ∈ files, ∀ q ∈ files, ¬ (p ++ ['/']) <+: q
  path_eq : ∀ p f, files.lookup p = some f → f.path = p
  hash_eq : ∀ p f, files.lookup p = some f → f.hash = fileHash f.chunkHashes
  sizes : ∀ p f, files.lookup p = some f → f.chunkSizes.length = f.chunkHashes.length

/-- The segments of the paths, in the order the paths are placed. -/
def placed (files : GoMap (Entry H)) : List (List Str) :=
  (sortedPaths files).map (List.splitOn '/')

omit [HashScheme H] in
theorem mem_sortedPaths {files : GoMap (Entry H)} {p : Str} :
    p ∈ sortedPaths files ↔ p ∈ files := by
  rw [sortedPaths, List.mem_insertionSort, AList.mem_keys]

theorem validSegs_splitOn {p : Str} (h : ∀ n ∈ p.splitOn '/', n ≠ []) :
    ValidSegs (p.splitOn '/') :=
  ⟨List.splitOn_ne_nil '/' p, fun n hn => ⟨h n hn, notMem_of_mem_splitOn hn⟩⟩

omit [HashScheme H] in
theorem map_chunksOf {f : Entry H} (h : f.chunkSizes.length = f.chunkHashes.length) :
    (chunksOf f).map Chunk.hash = f.chunkHashes ∧
      (chunksOf f).map Chunk.sizeBytes = f.chunkSizes := by
  constructor
  · apply List.ext_getElem
    · simp [chunksOf]
    · intro i _ _
      simp [chunksOf]
  · apply List.ext_getElem
    · simp [chunksOf, h]
    · intro i _ hi
      simp [chunksOf, List.getElem?_eq_getElem hi]

omit [HashScheme H] in
theorem placed_nodup (files : GoMap (Entry H)) : (placed files).Nodup := by
  refine List.Nodup.map_on ?_ ((List.perm_insertionSort _ _).nodup_iff.mpr files.nodupKeys)
  intro p _ q _ heq
  rw [← joinWith_splitOn '/' p, heq, joinWith_splitOn]

namespace FlatMap

variable {files : GoMap (Entry H)}

variable {s : List Str}

theorem validSegs (hf : FlatMap files) (hs : s ∈ placed files) : ValidSegs s := by
  obtain ⟨p, hp, rfl⟩ := List.mem_map.mp hs
  exact validSegs_splitOn (hf.segment p (mem_sortedPaths.mp hp))

theorem mem_placed (hf : FlatMap files) : s ∈ placed files ↔ ValidSegs s ∧ pathOf s ∈ files := by
  constructor
  · intro hs
    refine ⟨hf.validSegs hs, ?_⟩
    obtain ⟨p, hp, rfl⟩ := List.mem_map.mp hs
    rw [pathOf, joinWith_splitOn]
    exact mem_sortedPaths.mp hp
  · rintro ⟨hs, hp⟩
    exact List.mem_map.mpr ⟨pathOf s, mem_sortedPaths.mpr hp, splitOn_pathOf hs⟩

theorem lookup_placed (hf : FlatMap files) (hs : s ∈ placed files) :
    ∃ f, files.lookup (pathOf s) = some f ∧ f.path = pathOf s := by
  obtain ⟨f, hlookup⟩ := Option.isSome_iff_exists.mp
    (AList.lookup_isSome.mpr (hf.mem_placed.mp hs).2)
  exact ⟨f, hlookup, hf.path_eq _ f hlookup⟩

theorem cacheOf (hf : FlatMap files) : CacheOf (dirsOf (placed files))
    (filesOf files (placed files)) (dirCache files) := by
  have hcache := foldl_placeFile_cacheOf (m := files) fun s hs => hf.validSegs hs
  have hpaths : (placed files).map pathOf = sortedPaths files := by
    rw [placed, List.map_map]
    have hid : pathOf ∘ List.splitOn '/' = id := funext fun p => joinWith_splitOn '/' p
    rw [hid, List.map_id]
  rwa [hpaths] at hcache

theorem dirs_valid (hf : FlatMap files) (ds : List Str) (hds : dirsOf (placed files) ds) :
    ∀ m ∈ ds, ValidName m := by
  cases hds with
  | inl hnil =>
      rw [hnil]
      intro m hm
      cases hm
  | inr hmem =>
      obtain ⟨s, hs, hpre⟩ := hmem
      exact fun m hm => (hf.validSegs hs).2 m (List.mem_of_mem_dropLast (hpre.subset hm))

theorem entryOf_childOf (hf : FlatMap files) {p : Str} {f : Entry H}
    (h : files.lookup p = some f) : entryOf p (childOf f) = f := by
  obtain ⟨hhashes, hsizes⟩ := map_chunksOf (hf.sizes p f h)
  unfold entryOf childOf
  rw [hhashes, hsizes, ← hf.hash_eq p f h, ← hf.path_eq p f h]

variable {ds : List Str}

theorem eq_concat (hf : FlatMap files) {f : Entry H} (hs : s ∈ placed files)
    (hlast : s.dropLast = ds) (hlookup : files.lookup (pathOf s) = some f) :
    s = ds ++ [(childOf f).name] := by
  have hvalid := hf.validSegs hs
  have hsplit := List.dropLast_append_getLast hvalid.1
  rw [hlast] at hsplit
  have hbase : (childOf f).name = s.getLast hvalid.1 := by
    change baseOf f.path = _
    rw [hf.path_eq _ f hlookup]
    conv_lhs => rw [← hsplit]
    exact baseOf_pathOf_concat (hvalid.2 _ (List.getLast_mem hvalid.1)).2
  rw [hbase, hsplit]

theorem mem_filesOf (hf : FlatMap files) {c : File H} :
    c ∈ filesOf files (placed files) ds ↔ ds ++ [c.name] ∈ placed files ∧
      ∃ f, files.lookup (pathOf (ds ++ [c.name])) = some f ∧ c = childOf f := by
  rw [filesOf, List.mem_map]
  constructor
  · rintro ⟨s, hs, hc⟩
    rw [List.mem_filter, decide_eq_true_eq] at hs
    obtain ⟨f, hlookup, -⟩ := hf.lookup_placed hs.1
    rw [hlookup, Option.getD_some] at hc
    have heq := hf.eq_concat hs.1 hs.2 hlookup
    rw [hc] at heq
    rw [← heq]
    exact ⟨hs.1, f, hlookup, hc.symm⟩
  · rintro ⟨hs, f, hlookup, hc⟩
    refine ⟨ds ++ [c.name], List.mem_filter.mpr ⟨hs, by simp⟩, ?_⟩
    rw [hlookup, Option.getD_some, hc]

theorem filesOf_names_nodup (hf : FlatMap files) (ds : List Str) :
    ((filesOf files (placed files) ds).map File.name).Nodup := by
  rw [filesOf, List.map_map]
  refine List.Nodup.map_on ?_ ((placed_nodup files).filter _)
  intro s hs s' hs' heq
  rw [List.mem_filter, decide_eq_true_eq] at hs hs'
  obtain ⟨f, hlookup, -⟩ := hf.lookup_placed hs.1
  obtain ⟨f', hlookup', -⟩ := hf.lookup_placed hs'.1
  simp only [Function.comp, hlookup, hlookup', Option.getD_some] at heq
  rw [hf.eq_concat hs.1 hs.2 hlookup, hf.eq_concat hs'.1 hs'.2 hlookup', heq]

theorem not_dirsOf_of_placed (hf : FlatMap files) (hs : s ∈ placed files) :
    ¬ dirsOf (placed files) s := by
  intro hdir
  obtain ⟨hvalid, hmem⟩ := hf.mem_placed.mp hs
  cases hdir with
  | inl hnil => exact hvalid.1 hnil
  | inr hlonger =>
      obtain ⟨s', hs', rest, hrest⟩ := hlonger
      obtain ⟨hvalid', hmem'⟩ := hf.mem_placed.mp hs'
      have hsplit := List.dropLast_append_getLast hvalid'.1
      rw [← hrest, List.append_assoc] at hsplit
      refine hf.prefixFree _ hmem _ hmem' ?_
      rw [← hsplit, pathOf, pathOf, joinWith_append hvalid.1 (by simp)]
      exact ⟨_, by rw [List.append_assoc, List.singleton_append]⟩

omit [HashScheme H] in
theorem dir_not_empty (hne : placed files ≠ []) (hdir : dirsOf (placed files) ds) :
    (∃ s ∈ placed files, s.dropLast = ds) ∨ ∃ name, dirsOf (placed files) (ds ++ [name]) := by
  have hbelow : ∃ s ∈ placed files, ds <+: s.dropLast := by
    cases hdir with
    | inl hnil =>
        obtain ⟨s, hs⟩ := List.exists_mem_of_ne_nil _ hne
        exact ⟨s, hs, hnil ▸ List.nil_prefix⟩
    | inr hmem => exact hmem
  obtain ⟨s, hs, rest, hrest⟩ := hbelow
  cases rest with
  | nil => exact Or.inl ⟨s, hs, by rw [← hrest, List.append_nil]⟩
  | cons name rest =>
      exact Or.inr ⟨name, Or.inr ⟨s, hs, rest, by rw [← hrest, List.append_assoc]; rfl⟩⟩

theorem node_children (hf : FlatMap files) {depth : ℕ} (hdir : dirsOf (placed files) ds)
    (hdepth : Shallow (dirsOf (placed files)) depth ds) :
    let t := (dirCache files).toTree depth (pathOf ds)
    (t.fileChildren.map File.name ++ t.treeChildren.map TreeNode.name).Nodup ∧
      (files.entries ≠ [] → t.fileChildren ≠ [] ∨ t.treeChildren ≠ []) := by
  have hpos : 0 < depth := hdepth [] (by rwa [List.append_nil])
  obtain ⟨depth, rfl⟩ := Nat.exists_eq_succ_of_ne_zero hpos.ne'
  obtain ⟨n, hn, htree⟩ := hf.cacheOf.toTree_succ hf.dirs_valid hdir depth
  have hname : ∀ name, dirsOf (placed files) (ds ++ [name]) →
      ((dirCache files).toTree depth (pathOf (ds ++ [name]))).name = name :=
    fun name hchild => hf.cacheOf.toTree_name hf.dirs_valid hchild (hdepth.child name)
  intro t
  have hfiles : t.fileChildren = filesOf files (placed files) ds := by
    change ((dirCache files).toTree (depth + 1) (pathOf ds)).fileChildren = _
    rw [htree, TreeNode.fileChildren, hn.fileChildren]
  have htrees : t.treeChildren = n.treeChildren.map ((dirCache files).toTree depth) := by
    change ((dirCache files).toTree (depth + 1) (pathOf ds)).treeChildren = _
    rw [htree, TreeNode.treeChildren]
  rw [hfiles, htrees]
  constructor
  · refine List.nodup_append.mpr ⟨hf.filesOf_names_nodup ds, ?_, ?_⟩
    · rw [List.map_map]
      refine List.Nodup.map_on ?_ hn.nodup
      intro c hc c' hc' heq
      obtain ⟨name, _, rfl, hchild⟩ := (hn.mem_treeChildren c).mp hc
      obtain ⟨name', _, rfl, hchild'⟩ := (hn.mem_treeChildren c').mp hc'
      rw [Function.comp, Function.comp, hname name hchild, hname name' hchild'] at heq
      rw [heq]
    · intro k hk k' hk' heq
      obtain ⟨c, hc, rfl⟩ := List.mem_map.mp hk
      rw [List.map_map] at hk'
      obtain ⟨key, hkey, rfl⟩ := List.mem_map.mp hk'
      obtain ⟨name, _, rfl, hchild⟩ := (hn.mem_treeChildren key).mp hkey
      rw [Function.comp, hname name hchild] at heq
      exact hf.not_dirsOf_of_placed (hf.mem_filesOf.mp hc).1 (heq ▸ hchild)
  · intro hne
    have hplaced : placed files ≠ [] := by
      obtain ⟨e, he⟩ := List.exists_mem_of_ne_nil _ hne
      have hmem : e.1 ∈ sortedPaths files :=
        mem_sortedPaths.mpr (AList.mem_keys.mpr (List.mem_map_of_mem he))
      exact List.ne_nil_of_mem (List.mem_map_of_mem hmem)
    cases dir_not_empty hplaced hdir with
    | inl hfile =>
        obtain ⟨s, hs, hlast⟩ := hfile
        have hmem : s ∈ (placed files).filter fun s => s.dropLast = ds :=
          List.mem_filter.mpr ⟨hs, by simpa using hlast⟩
        exact Or.inl (List.ne_nil_of_mem (List.mem_map_of_mem hmem))
    | inr hsub =>
        obtain ⟨name, hchild⟩ := hsub
        have hvalid := hf.dirs_valid _ hchild name (by simp)
        exact Or.inr (List.ne_nil_of_mem (List.mem_map_of_mem
          ((hn.mem_treeChildren _).mpr ⟨name, hvalid, rfl, hchild⟩)))

theorem mem_flattenTree (hf : FlatMap files) {e : Entry H} :
    e ∈ flattenTree (treeFromFiles files) [] ↔ ∃ p, files.lookup p = some e := by
  have hroot := hf.cacheOf.root
  have hmem := hf.cacheOf.mem_flattenTree hf.dirs_valid hroot
    (hf.cacheOf.shallow hf.dirs_valid) (e := e)
  refine hmem.trans ?_
  simp only [List.nil_append]
  constructor
  · rintro ⟨more, c, _, hc, he⟩
    obtain ⟨_, f, hlookup, rfl⟩ := hf.mem_filesOf.mp hc
    rw [hf.entryOf_childOf hlookup] at he
    exact ⟨_, he ▸ hlookup⟩
  · rintro ⟨p, hlookup⟩
    have hp : p ∈ files := AList.lookup_isSome.mp (by rw [hlookup]; rfl)
    have hs : p.splitOn '/' ∈ placed files := List.mem_map_of_mem (mem_sortedPaths.mpr hp)
    have hpath : pathOf (p.splitOn '/') = p := joinWith_splitOn '/' p
    have hconcat := hf.eq_concat hs rfl (hpath.symm ▸ hlookup)
    have hpath' : pathOf ((p.splitOn '/').dropLast ++ [(childOf e).name]) = p := by
      rw [← hconcat, hpath]
    refine ⟨(p.splitOn '/').dropLast, childOf e, Or.inr ⟨_, hs, List.prefix_rfl⟩, ?_, ?_⟩
    · refine hf.mem_filesOf.mpr ⟨hconcat ▸ hs, e, ?_, rfl⟩
      rw [hpath']
      exact hlookup
    · rw [hpath', hf.entryOf_childOf hlookup]

end FlatMap

theorem treeFromFiles_perm {files files' : GoMap (Entry H)}
    (h : files'.entries.Perm files.entries) : treeFromFiles files' = treeFromFiles files := by
  have hpaths : sortedPaths files' = sortedPaths files :=
    insertionSort_eq_of_perm (h.map Sigma.fst)
  have hplace : placeFile files' = placeFile files := by
    funext cache p
    rw [placeFile, placeFile, AList.perm_lookup h]
  rw [treeFromFiles, treeFromFiles, dirCache, dirCache, hpaths, hplace]

/-- The tree of a flat map flattens to the map; the children of each of its directories
have different names, no directory is empty unless the map is, and the order of the
map's entries does not matter. -/
theorem treeFromFiles_round_trip {files : GoMap (Entry H)} (hf : FlatMap files) :
    (∀ p, (fromTree (treeFromFiles files)).lookup p = files.lookup p) ∧
      (∀ t, (treeFromFiles files).Has t →
        (t.fileChildren.map File.name ++ t.treeChildren.map TreeNode.name).Nodup ∧
          (files.entries ≠ [] → t.fileChildren ≠ [] ∨ t.treeChildren ≠ [])) ∧
      ∀ files' : GoMap (Entry H), files'.entries.Perm files.entries →
        treeFromFiles files' = treeFromFiles files := by
  refine ⟨fun p => ?_, fun t ht => ?_, fun files' h => treeFromFiles_perm h⟩
  · -- two written entries with the same path are the same entry of the map
    have hagree : ∀ e ∈ flattenTree (treeFromFiles files) [],
        ∀ e' ∈ flattenTree (treeFromFiles files) [], e.path = e'.path → e = e' := by
      intro e he e' he' hpath
      obtain ⟨q, hq⟩ := hf.mem_flattenTree.mp he
      obtain ⟨q', hq'⟩ := hf.mem_flattenTree.mp he'
      rw [hf.path_eq q e hq, hf.path_eq q' e' hq'] at hpath
      rw [hpath, hq'] at hq
      exact (Option.some.inj hq).symm
    ext e
    rw [fromTree, GoMap.lookup_insertAll_of_agree hagree]
    constructor
    · rintro ⟨e', he', hpath, heq⟩
      obtain ⟨q, hq⟩ := hf.mem_flattenTree.mp he'
      rw [← heq, ← hpath, hf.path_eq q e' hq]
      exact hq
    · intro hlookup
      exact ⟨e, hf.mem_flattenTree.mpr ⟨p, hlookup⟩, hf.path_eq p e hlookup, rfl⟩
  · obtain ⟨more, depth, hdir, hdepth, heq⟩ := hf.cacheOf.exists_of_has hf.dirs_valid
      hf.cacheOf.root (hf.cacheOf.shallow hf.dirs_valid) ht
    rw [heq]
    exact hf.node_children hdir hdepth

def textEntry (path : Str) : Entry IdealHash :=
  ⟨path, 420, 3, false, [], fileHash [IdealHash.zero], [IdealHash.zero], [3]⟩

def twoFiles : GoMap (Entry IdealHash) :=
  (AList.singleton ['e'] (textEntry ['e'])).insert ['d', '/', 'a'] (textEntry ['d', '/', 'a'])

theorem lookup_twoFiles {p : Str} {f : Entry IdealHash} (h : twoFiles.lookup p = some f) :
    f = textEntry p ∧ (p = ['d', '/', 'a'] ∨ p = ['e']) := by
  rw [twoFiles, GoMap.lookup_insert_eq] at h
  split at h
  next hp => exact ⟨hp ▸ (Option.some.inj h).symm, Or.inl hp⟩
  next hp =>
    change (AList.insert ['e'] _ (∅ : GoMap (Entry IdealHash))).lookup p = some f at h
    rw [GoMap.lookup_insert_eq] at h
    split at h
    next hp => exact ⟨hp ▸ (Option.some.inj h).symm, Or.inr hp⟩
    next => cases h

theorem twoFiles_flatMap : FlatMap twoFiles := by
  have hpath : ∀ p ∈ twoFiles, p = ['d', '/', 'a'] ∨ p = ['e'] := by
    intro p hp
    obtain ⟨f, hf⟩ := Option.isSome_iff_exists.mp (AList.lookup_isSome.mpr hp)
    exact (lookup_twoFiles hf).2
  refine
    { segment := ?_
      prefixFree := ?_
      path_eq := fun p f hf => by rw [(lookup_twoFiles hf).1]; rfl
      hash_eq := fun p f hf => by rw [(lookup_twoFiles hf).1]; rfl
      sizes := fun p f hf => by rw [(lookup_twoFiles hf).1]; rfl }
  · intro p hp
    cases hpath p hp with
    | inl heq => rw [heq]; decide
    | inr heq => rw [heq]; decide
  · intro p hp q hq
    cases hpath p hp with
    | inl heq =>
        cases hpath q hq with
        | inl heq' => rw [heq, heq']; decide
        | inr heq' => rw [heq, heq']; decide
    | inr heq =>
        cases hpath q hq with
        | inl heq' => rw [heq, heq']; decide
        | inr heq' => rw [heq, heq']; decide

theorem treeFromFiles_round_trip_two_files :
    (fromTree (treeFromFiles twoFiles)).lookup ['d', '/', 'a']
      = some (textEntry ['d', '/', 'a']) := by
  rw [(treeFromFiles_round_trip twoFiles_flatMap).1]
  exact AList.lookup_insert _

/-- The tree of the empty map is a directory with nothing in it. -/
theorem treeFromFiles_empty_map :
    ¬ ∀ files : GoMap (Entry IdealHash), FlatMap files → ∀ t, (treeFromFiles files).Has t →
      t.fileChildren ≠ [] ∨ t.treeChildren ≠ [] := by
  intro h
  have hflat : FlatMap (∅ : GoMap (Entry IdealHash)) :=
    { segment := fun p hp => absurd hp (AList.notMem_empty p)
      prefixFree := fun p hp => absurd hp (AList.notMem_empty p)
      path_eq := fun p f hf => by cases hf
      hash_eq := fun p f hf => by cases hf
      sizes := fun p f hf => by cases hf }
  cases h ∅ hflat _ (TreeNode.Has.self _) with
  | inl hfiles => exact hfiles rfl
  | inr htrees => exact htrees rfl

end RoundTrip

end Nipa
