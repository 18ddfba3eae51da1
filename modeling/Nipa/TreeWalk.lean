import Nipa.Diff
import Nipa.Push.Run

/-!
# The pruned walk over two trees

Two stored trees are walked in lockstep and a pair of directories with the same
hash is skipped.  Because a directory is read by its hash, a skipped pair reads
the same on both sides, whatever the filter, so comparing what the walk
collects gives the same changes as comparing the two flattened trees.
-/

namespace Nipa

open Support

/-! ## The walk -/

section Walk

variable {H : Type} [DecidableEq H] [HashScheme H]

/-- The readable files of one directory and its subdirectories by name. -/
def collectDirectory (db : DB H) (node : Option (TreeRow H)) (path : Str)
    (filter : PathFilter) : List (Entry H) × GoMap (TreeRow H) :=
  match node with
  | none => ([], ∅)
  | some node =>
      let allowed := (db.listFilesByTree node.id).filter fun f =>
        filter.allow (joinTreePath path f.name)
      (addFileEntries path allowed,
        GoMap.insertAll TreeRow.name (fun c => c) ∅ (db.listTreeChildren node.id))

/-- Whether a pair of directories is skipped. -/
def sameContent (base head : Option (TreeRow H)) : Bool :=
  match base, head with
  | none, none => true
  | some b, some h => b.hash ≠ HashScheme.zero && b.hash = h.hash
  | _, _ => false

/-- The entries written for the two sides.  The walk is as deep as the trees;
`depth` counts down from their depth and is never exhausted. -/
def walkChangedTrees (db : DB H) (filter : PathFilter) :
    ℕ → Option (TreeRow H) → Option (TreeRow H) → Str → List (Entry H) × List (Entry H)
  | 0, _, _, _ => ([], [])
  | depth + 1, base, head, path =>
      if sameContent base head then ([], [])
      else
        let (baseFiles, baseChildren) := collectDirectory db base path filter
        let (headFiles, headChildren) := collectDirectory db head path filter
        let names := (baseChildren.keys ++
          headChildren.keys.filter (· ∉ baseChildren.keys)).insertionSort (· ≤ ·)
        let walked := (names.filter fun name => filter.canDescend (joinTreePath path name)).map
          fun name => walkChangedTrees db filter depth (baseChildren.lookup name)
            (headChildren.lookup name) (joinTreePath path name)
        (baseFiles ++ walked.flatMap Prod.fst, headFiles ++ walked.flatMap Prod.snd)

/-- A depth no stored tree reaches. -/
def DB.treeDepth (db : DB H) : ℕ :=
  db.treeNodes.length

def changedTreeEntries (db : DB H) (base head : Option (TreeRow H)) (filter : PathFilter) :
    GoMap (Entry H) × GoMap (Entry H) :=
  let (baseOut, headOut) := walkChangedTrees db filter db.treeDepth base head []
  (GoMap.insertAll Entry.path (fun e => e) ∅ baseOut,
    GoMap.insertAll Entry.path (fun e => e) ∅ headOut)

def commitByIDInProject (db : DB H) (projectID commitID : ID) :
    Except DomainError (Commit H) := do
  let notFound := errNotFound "commit %s not found" [base36 commitID]
  let commit ← orError (db.getCommit commitID) notFound
  refuseIf (commit.projectID ≠ projectID) notFound
  return commit

def commitRootNode (db : DB H) (projectID : ID) :
    Option ID → Except DomainError (Option (TreeRow H))
  | none => .ok none
  | some commitID => do
      let commit ← commitByIDInProject db projectID commitID
      let root ← getTreeNode db commit.treeID
      return some root

def commitChanges (db : DB H) (projectID : ID) (fromCommitID toCommitID : Option ID) :
    Except DomainError (List (Diff.Change H)) := do
  let fromRoot ← commitRootNode db projectID fromCommitID
  let toRoot ← commitRootNode db projectID toCommitID
  let (fromEntries, toEntries) := changedTreeEntries db fromRoot toRoot allowAllFilter
  return Diff.compare fromEntries toEntries

def ensureTreeWrites (db : DB H) (perm : PermissionUsecase) (projectID : ID)
    (fromCommitID toCommitID : ID) : Except DomainError Unit := do
  let changes ← commitChanges db projectID (some fromCommitID) (some toCommitID)
  ensurePathWrites perm (changes.map Diff.Change.path)

end Walk

/-! ## What one directory contributes -/

section Directory

variable {H : Type} [DecidableEq H] [HashScheme H] {db : DB H} {filter : PathFilter}

/-- The file shown at an address below a directory. -/
def shown (db : DB H) (filter : PathFilter) (node : Option (TreeRow H)) (ds segs : List Str) :
    Option (File H) :=
  node.bind fun row => (viewTree db filter []).find (ds, row.hash) segs

theorem shown_valid (hs : db.StoreShape) {node : Option (TreeRow H)} {ds segs : List Str}
    {f : File H} (h : shown db filter node ds segs = some f) : ValidSegs segs := by
  obtain ⟨row, -, hf⟩ := Option.bind_eq_some_iff.mp h
  exact viewTree_find_valid hs hf

theorem trimPrefix_dir {ds : List Str} (hds : ∀ m ∈ ds, ValidName m) (n : Str) :
    trimPrefix (pathOf ds ++ '/' :: n) ['/'] = pathOf (ds ++ [n]) := by
  by_cases h : ds = []
  · subst h
    simp [pathOf_nil, trimPrefix]
  · have hpre : ¬ ['/'].isPrefixOf (pathOf (ds ++ [n])) := by
      rw [List.isPrefixOf_iff_prefix]
      rintro ⟨t, ht⟩
      rw [pathOf_concat h] at ht
      have hne : pathOf ds ≠ [] := fun h' => h ((pathOf_eq_nil_iff hds).mp h')
      obtain ⟨c, cs, hc⟩ := List.exists_cons_of_ne_nil hne
      apply pathOf_head?_ne hds
      rw [hc] at ht ⊢
      exact congrArg some (List.cons.inj ht).1.symm
    rw [← pathOf_concat h, trimPrefix, if_neg hpre]

theorem mem_collectDirectory (hs : db.StoreShape) {node : Option (TreeRow H)}
    (hnode : ∀ row ∈ node, row ∈ db.treeNodes) {ds : List Str}
    (hds : ∀ m ∈ ds, ValidName m) {e : Entry H} :
    e ∈ (collectDirectory db node (pathOf ds) filter).1 ↔
      ∃ n f, shown db filter node ds [n] = some f ∧ e = entryOf (pathOf (ds ++ [n])) f := by
  rcases node with _ | row
  · simp [collectDirectory, shown]
  · have hlist : db.listFilesByTree row.id = db.filesByHash row.hash := by
      rw [DB.listFilesByTree, hs.treeNodeGet_eq (hnode row rfl)]
    have hfind : ∀ n f, shown db filter (some row) ds [n] = some f ↔
        f ∈ (db.filesByHash row.hash).filter
          (fun f => filter.allow (joinTreePath (pathOf ds) f.name)) ∧ f.name = n := by
      intro n f
      rw [shown, Option.bind_some, Hierarchy.find_singleton,
        Hierarchy.fileOf_eq_some_iff (viewTree_distinct hs)]
      simp only [viewTree, List.mem_map, showsFile, PrefixSet.covers, List.isEmpty_nil,
        Bool.true_or, Bool.and_true, Prod.mk.injEq]
      constructor
      · rintro ⟨g, hg, rfl, rfl⟩
        exact ⟨hg, rfl⟩
      · rintro ⟨hf, rfl⟩
        exact ⟨f, hf, rfl, rfl⟩
    simp only [collectDirectory, hlist, addFileEntries]
    constructor
    · intro he
      obtain ⟨f, hf, rfl⟩ := List.mem_map.mp he
      exact ⟨f.name, f, (hfind _ _).mpr ⟨hf, rfl⟩, by rw [trimPrefix_dir hds]⟩
    · rintro ⟨n, f, hf, rfl⟩
      obtain ⟨hmem, rfl⟩ := (hfind _ _).mp hf
      exact List.mem_map.mpr ⟨f, hmem, by rw [trimPrefix_dir hds]⟩

theorem collectDirectory_lookup (hs : db.StoreShape) {node : Option (TreeRow H)}
    (hnode : ∀ row ∈ node, row ∈ db.treeNodes) {path n : Str} {c : TreeRow H} :
    (collectDirectory db node path filter).2.lookup n = some c ↔
      ∃ row ∈ node, c ∈ db.childrenByHash row.hash ∧ c.name = n := by
  rcases node with _ | row
  · simp [collectDirectory]
  · have hlist : db.listTreeChildren row.id = db.childrenByHash row.hash := by
      rw [DB.listTreeChildren, hs.treeNodeGet_eq (hnode row rfl)]
    have hnodup : ((db.childrenByHash row.hash).map TreeRow.name).Nodup := by
      have := (hs.storeTree_distinct row.hash).2
      rwa [DB.storeTree, List.map_map] at this
    simp only [collectDirectory, hlist]
    have hiff := TreeBuilder.childByName_lookup hnodup (n := n) (c := c)
    rw [TreeBuilder.childByName] at hiff
    rw [hiff]
    simp

theorem shown_cons (hs : db.StoreShape) {node : Option (TreeRow H)}
    (hnode : ∀ row ∈ node, row ∈ db.treeNodes) (ds : List Str) (n : Str) {rest : List Str}
    (hrest : rest ≠ []) :
    shown db filter node ds (n :: rest) =
      if filter.canDescend (joinTreePath (pathOf ds) n) then
        shown db filter ((collectDirectory db node (pathOf ds) filter).2.lookup n) (ds ++ [n])
          rest
      else none := by
  have hlookup := @collectDirectory_lookup H _ _ db filter hs node hnode (pathOf ds) n
  generalize (collectDirectory db node (pathOf ds) filter).2.lookup n = child at hlookup
  rcases node with _ | row
  · have hnone : child = none := by
      rw [Option.eq_none_iff_forall_not_mem]
      intro c hc
      obtain ⟨_, hr, -⟩ := hlookup.mp hc
      simp at hr
    rw [hnone]
    simp [shown]
  · rw [shown, Option.bind_some, Hierarchy.find_cons _ _ _ hrest]
    have hsub : (viewTree db filter []).subOf (ds, row.hash) n =
        if filter.canDescend (joinTreePath (pathOf ds) n) then
          child.map fun c => (ds ++ [n], c.hash) else none := by
      ext x
      rw [Hierarchy.subOf_eq_some_iff (viewTree_distinct hs)]
      simp only [viewTree, List.mem_map, List.mem_filter, entersDir, PrefixSet.canDescend,
        List.isEmpty_nil, Bool.true_or, Bool.and_true]
      constructor
      · rintro ⟨c, ⟨hc, hdesc⟩, heq⟩
        obtain ⟨rfl, rfl⟩ := Prod.mk.inj heq
        rw [if_pos hdesc, hlookup.mpr ⟨row, rfl, hc, rfl⟩]
        rfl
      · intro hx
        split at hx
        next hdesc =>
          obtain ⟨c, hc, rfl⟩ := Option.map_eq_some_iff.mp hx
          obtain ⟨_, hr, hmem, rfl⟩ := hlookup.mp hc
          obtain rfl := Option.some.inj hr
          exact ⟨c, ⟨hmem, hdesc⟩, rfl⟩
        · simp at hx
    rw [hsub]
    split
    · rcases child with _ | c
      · rfl
      · rfl
    · rfl

theorem collectDirectory_child (hs : db.StoreShape) {node : Option (TreeRow H)}
    (hnode : ∀ row ∈ node, row ∈ db.treeNodes) {path n : Str} :
    ∀ c ∈ (collectDirectory db node path filter).2.lookup n,
      c ∈ db.treeNodes ∧ ValidName n := by
  intro c hc
  obtain ⟨row, hr, hmem, rfl⟩ := (collectDirectory_lookup hs hnode).mp hc
  exact hs.childrenByHash_mem hmem

end Directory

/-! ## What the walk collects -/

section Collected

variable {H : Type} [DecidableEq H] [HashScheme H] {db : DB H} {filter : PathFilter}

/-- At every address the walk writes both sides as they are, or both sides are
the same and nothing is written. -/
structure Walked (db : DB H) (filter : PathFilter) (base head : Option (TreeRow H))
    (ds : List Str) (out : List (Entry H) × List (Entry H)) : Prop where
  base_shown : ∀ e ∈ out.1, ∃ segs f, shown db filter base ds segs = some f ∧
    e = entryOf (pathOf (ds ++ segs)) f
  head_shown : ∀ e ∈ out.2, ∃ segs f, shown db filter head ds segs = some f ∧
    e = entryOf (pathOf (ds ++ segs)) f
  covered : ∀ segs,
    ((∀ f, shown db filter base ds segs = some f → entryOf (pathOf (ds ++ segs)) f ∈ out.1) ∧
      ∀ f, shown db filter head ds segs = some f → entryOf (pathOf (ds ++ segs)) f ∈ out.2) ∨
    (shown db filter base ds segs = shown db filter head ds segs ∧
      ∀ f, entryOf (pathOf (ds ++ segs)) f ∉ out.1 ∧ entryOf (pathOf (ds ++ segs)) f ∉ out.2)

variable {base head : Option (TreeRow H)}

theorem shown_of_sameContent (h : sameContent base head = true) (ds segs : List Str) :
    shown db filter base ds segs = shown db filter head ds segs := by
  rcases base with _ | b <;> rcases head with _ | c
  · rfl
  · simp [sameContent] at h
  · simp [sameContent] at h
  · have hhash : b.hash = c.hash := by
      simp only [sameContent, Bool.and_eq_true, decide_eq_true_eq] at h
      exact h.2
    simp only [shown, Option.bind_some, hhash]

omit [DecidableEq H] in
theorem entryOf_address {ds segs segs' : List Str} (hds : ∀ m ∈ ds, ValidName m)
    (hsegs : ValidSegs segs) (hsegs' : ValidSegs segs') {f g : File H}
    (h : entryOf (pathOf (ds ++ segs)) f = entryOf (pathOf (ds ++ segs')) g) :
    segs = segs' := by
  have hpath : pathOf (ds ++ segs) = pathOf (ds ++ segs') := congrArg Entry.path h
  exact List.append_cancel_left
    (pathOf_injective (hsegs.append_left hds) (hsegs'.append_left hds) hpath)

omit [DecidableEq H] [HashScheme H] in
theorem mem_names {m m' : GoMap (TreeRow H)} {n : Str} :
    n ∈ (m.keys ++ m'.keys.filter (· ∉ m.keys)).insertionSort (· ≤ ·) ↔
      (m.lookup n).isSome ∨ (m'.lookup n).isSome := by
  rw [List.mem_insertionSort, List.mem_append, List.mem_filter, decide_eq_true_eq,
    AList.lookup_isSome, AList.lookup_isSome, AList.mem_keys, AList.mem_keys]
  by_cases h : n ∈ m.keys
  · simp [h]
  · simp [h]

theorem walkChangedTrees_succ (depth : ℕ) (path : Str) (hdiff : ¬ sameContent base head = true) :
    walkChangedTrees db filter (depth + 1) base head path =
      let bc := collectDirectory db base path filter
      let hc := collectDirectory db head path filter
      let walked := (((bc.2.keys ++ hc.2.keys.filter (· ∉ bc.2.keys)).insertionSort
        (· ≤ ·)).filter fun name => filter.canDescend (joinTreePath path name)).map
          fun name => walkChangedTrees db filter depth (bc.2.lookup name)
            (hc.2.lookup name) (joinTreePath path name)
      (bc.1 ++ walked.flatMap Prod.fst, hc.1 ++ walked.flatMap Prod.snd) := by
  rw [walkChangedTrees, if_neg hdiff]

omit [DecidableEq H] [HashScheme H] in
/-- Membership in the writes of one side: a file of the directory, or a write
of the walk over a subdirectory. -/
theorem mem_walked {own : List (Entry H)} {names : List Str}
    {walk : Str → List (Entry H) × List (Entry H)} {side : List (Entry H) × List (Entry H) →
      List (Entry H)} {e : Entry H} :
    e ∈ own ++ (names.map walk).flatMap side ↔
      e ∈ own ∨ ∃ n ∈ names, e ∈ side (walk n) := by
  simp only [List.mem_append, List.mem_flatMap, List.mem_map]
  constructor
  · rintro (h | ⟨_, ⟨n, hn, rfl⟩, he⟩)
    · exact Or.inl h
    · exact Or.inr ⟨n, hn, he⟩
  · rintro (h | ⟨n, hn, he⟩)
    · exact Or.inl h
    · exact Or.inr ⟨_, ⟨n, hn, rfl⟩, he⟩

/-- The two sides of a directory differ only in where they are written, so one
argument serves both: what a side writes at an address below `n` is what the
walk over the subdirectory `n` writes there. -/
theorem side_below (filter : PathFilter) (hs : db.StoreShape) {node : Option (TreeRow H)}
    (hnode : ∀ row ∈ node, row ∈ db.treeNodes) {ds : List Str}
    (hds : ∀ m ∈ ds, ValidName m) {names : List Str}
    (hnames : ∀ n ∈ names, ValidName n) (walk : Str → List (Entry H) × List (Entry H))
    (side : List (Entry H) × List (Entry H) → List (Entry H))
    (hshown : ∀ n ∈ names, ∀ e ∈ side (walk n), ∃ segs f, ValidSegs segs ∧
      e = entryOf (pathOf ((ds ++ [n]) ++ segs)) f)
    {n : Str} (hn : ValidName n) {rest : List Str} (hrest : ValidSegs rest) (f : File H) :
    entryOf (pathOf (ds ++ n :: rest)) f ∈
        (collectDirectory db node (pathOf ds) filter).1 ++ (names.map walk).flatMap side ↔
      n ∈ names ∧ entryOf (pathOf ((ds ++ [n]) ++ rest)) f ∈ side (walk n) := by
  have hvalid : ValidSegs (n :: rest) := by
    refine ⟨by simp, ?_⟩
    intro m hm
    rcases List.mem_cons.mp hm with rfl | hm
    · exact hn
    · exact hrest.2 m hm
  have hsplit : ds ++ n :: rest = (ds ++ [n]) ++ rest := by simp
  rw [mem_walked]
  constructor
  · rintro (hown | ⟨m, hm, he⟩)
    · -- a file of the directory itself has a one-name address
      obtain ⟨k, g, hg, heq⟩ := (mem_collectDirectory hs hnode hds).mp hown
      have haddr := entryOf_address hds hvalid (shown_valid hs hg) heq
      exact absurd (List.cons.inj haddr).2 hrest.1
    · obtain ⟨segs, g, hsegs, heq⟩ := hshown m hm _ he
      have hm' := hnames m hm
      have hcons : ValidSegs (m :: segs) := by
        refine ⟨by simp, ?_⟩
        intro x hx
        rcases List.mem_cons.mp hx with rfl | hx
        · exact hm'
        · exact hsegs.2 x hx
      have hsplit' : (ds ++ [m]) ++ segs = ds ++ m :: segs := by simp
      rw [hsplit'] at heq
      obtain ⟨rfl, rfl⟩ := List.cons.inj (entryOf_address hds hvalid hcons heq)
      rw [hsplit] at he
      exact ⟨hm, he⟩
  · rintro ⟨hm, he⟩
    rw [hsplit]
    exact Or.inr ⟨n, hm, he⟩

omit [HashScheme H] in
@[simp] theorem shown_nil (node : Option (TreeRow H)) (ds : List Str) :
    shown db filter node ds [] = none := by
  rw [shown]
  rcases node with _ | row
  · rfl
  · rw [Option.bind_some, Hierarchy.find_nil]

theorem side_shown (hs : db.StoreShape) {node : Option (TreeRow H)}
    (hnode : ∀ row ∈ node, row ∈ db.treeNodes) {ds : List Str}
    (hds : ∀ m ∈ ds, ValidName m) {names : List Str}
    (hdesc : ∀ n ∈ names, filter.canDescend (joinTreePath (pathOf ds) n))
    {walk : Str → List (Entry H) × List (Entry H)}
    {side : List (Entry H) × List (Entry H) → List (Entry H)}
    (hshown : ∀ n ∈ names, ∀ e ∈ side (walk n), ∃ segs f,
      shown db filter ((collectDirectory db node (pathOf ds) filter).2.lookup n) (ds ++ [n])
        segs = some f ∧ e = entryOf (pathOf ((ds ++ [n]) ++ segs)) f) :
    ∀ e ∈ (collectDirectory db node (pathOf ds) filter).1 ++ (names.map walk).flatMap side,
      ∃ segs f, shown db filter node ds segs = some f ∧
        e = entryOf (pathOf (ds ++ segs)) f := by
  intro e he
  rcases mem_walked.mp he with hown | ⟨n, hn, hmem⟩
  · obtain ⟨n, f, hf, rfl⟩ := (mem_collectDirectory hs hnode hds).mp hown
    exact ⟨[n], f, hf, rfl⟩
  · obtain ⟨segs, f, hf, rfl⟩ := hshown n hn e hmem
    refine ⟨n :: segs, f, ?_, by simp⟩
    rw [shown_cons hs hnode ds n (shown_valid hs hf).1, if_pos (hdesc n hn)]
    exact hf

theorem walkChangedTrees_walked (filter : PathFilter) (hs : db.StoreShape) {depth : ℕ}
    (hbase : ∀ row ∈ base, row ∈ db.treeNodes) (hhead : ∀ row ∈ head, row ∈ db.treeNodes)
    (ds : List Str) (hds : ∀ m ∈ ds, ValidName m)
    (hbb : ∀ row ∈ base, db.storeTree.Bounded depth row.hash)
    (hbh : ∀ row ∈ head, db.storeTree.Bounded depth row.hash) :
    Walked db filter base head ds
      (walkChangedTrees db filter depth base head (pathOf ds)) := by
  induction depth generalizing base head ds with
  | zero =>
      -- nothing is stored at depth zero, so both sides are absent
      have hb : base = none := by
        rw [Option.eq_none_iff_forall_not_mem]
        exact fun row hr => hbb row hr
      have hh : head = none := by
        rw [Option.eq_none_iff_forall_not_mem]
        exact fun row hr => hbh row hr
      rw [hb, hh]
      exact ⟨by simp [walkChangedTrees], by simp [walkChangedTrees],
        fun segs => Or.inr ⟨rfl, by simp [walkChangedTrees]⟩⟩
  | succ depth ih =>
      by_cases hsame : sameContent base head = true
      · rw [walkChangedTrees, if_pos hsame]
        exact ⟨by simp, by simp,
          fun segs => Or.inr ⟨shown_of_sameContent hsame ds segs, by simp⟩⟩
      · rw [walkChangedTrees_succ depth _ hsame]
        simp only
        have hchild : ∀ {node : Option (TreeRow H)}, (∀ row ∈ node, row ∈ db.treeNodes) →
            (∀ row ∈ node, db.storeTree.Bounded (depth + 1) row.hash) → ∀ n,
            ∀ c ∈ (collectDirectory db node (pathOf ds) filter).2.lookup n,
              db.storeTree.Bounded depth c.hash := by
          intro node hnode hb n c hc
          obtain ⟨row, hr, hmem, rfl⟩ := (collectDirectory_lookup hs hnode).mp hc
          exact hb row hr (c.name, c.hash) (List.mem_map.mpr ⟨c, hmem, rfl⟩)
        have hvalid : ∀ n, ((collectDirectory db base (pathOf ds) filter).2.lookup n).isSome ∨
            ((collectDirectory db head (pathOf ds) filter).2.lookup n).isSome →
            ValidName n := by
          rintro n (h | h)
          · obtain ⟨c, hc⟩ := Option.isSome_iff_exists.mp h
            exact (collectDirectory_child hs hbase c hc).2
          · obtain ⟨c, hc⟩ := Option.isSome_iff_exists.mp h
            exact (collectDirectory_child hs hhead c hc).2
        generalize hnames : ((((collectDirectory db base (pathOf ds) filter).2.keys ++
          (collectDirectory db head (pathOf ds) filter).2.keys.filter
            (· ∉ (collectDirectory db base (pathOf ds) filter).2.keys)).insertionSort
          (· ≤ ·)).filter fun name => filter.canDescend (joinTreePath (pathOf ds) name)) =
          names
        have hmem : ∀ n, n ∈ names ↔
            (((collectDirectory db base (pathOf ds) filter).2.lookup n).isSome ∨
              ((collectDirectory db head (pathOf ds) filter).2.lookup n).isSome) ∧
            filter.canDescend (joinTreePath (pathOf ds) n) := by
          intro n
          rw [← hnames, List.mem_filter, mem_names]
        have hnvalid : ∀ n ∈ names, ValidName n := fun n hn => hvalid n ((hmem n).mp hn).1
        have hdesc : ∀ n ∈ names, filter.canDescend (joinTreePath (pathOf ds) n) :=
          fun n hn => ((hmem n).mp hn).2
        generalize hwalk : (fun name => walkChangedTrees db filter depth
          ((collectDirectory db base (pathOf ds) filter).2.lookup name)
          ((collectDirectory db head (pathOf ds) filter).2.lookup name)
          (joinTreePath (pathOf ds) name)) = walk
        have hih : ∀ n ∈ names, Walked db filter
            ((collectDirectory db base (pathOf ds) filter).2.lookup n)
            ((collectDirectory db head (pathOf ds) filter).2.lookup n) (ds ++ [n])
            (walk n) := by
          intro n hn
          rw [← hwalk]
          simp only
          rw [joinTreePath_pathOf hds (hnvalid n hn)]
          exact ih (fun c hc => (collectDirectory_child hs hbase c hc).1)
            (fun c hc => (collectDirectory_child hs hhead c hc).1)
            (ds ++ [n]) (validNames_concat hds (hnvalid n hn)) (hchild hbase hbb n)
            (hchild hhead hbh n)
        refine ⟨?_, ?_, ?_⟩
        · exact side_shown hs hbase hds hdesc fun n hn => (hih n hn).base_shown
        · exact side_shown hs hhead hds hdesc fun n hn => (hih n hn).head_shown
        · intro segs
          rcases segs with _ | ⟨n, rest⟩
          · exact Or.inl ⟨by simp, by simp⟩
          by_cases hrest : rest = []
          · subst hrest
            exact Or.inl ⟨fun f hf => List.mem_append_left _
                ((mem_collectDirectory hs hbase hds).mpr ⟨n, f, hf, rfl⟩),
              fun f hf => List.mem_append_left _
                ((mem_collectDirectory hs hhead hds).mpr ⟨n, f, hf, rfl⟩)⟩
          by_cases hn : n ∈ names
          · by_cases hrv : ValidSegs rest
            · have hbelowB := fun f => side_below filter hs hbase hds hnvalid walk
                Prod.fst (fun m hm e he => by
                  obtain ⟨segs, g, hg, heq⟩ := (hih m hm).base_shown e he
                  exact ⟨segs, g, shown_valid hs hg, heq⟩) (hnvalid n hn) hrv f
              have hbelowH := fun f => side_below filter hs hhead hds hnvalid walk
                Prod.snd (fun m hm e he => by
                  obtain ⟨segs, g, hg, heq⟩ := (hih m hm).head_shown e he
                  exact ⟨segs, g, shown_valid hs hg, heq⟩) (hnvalid n hn) hrv f
              rw [shown_cons hs hbase ds n hrest, shown_cons hs hhead ds n hrest,
                if_pos (hdesc n hn), if_pos (hdesc n hn)]
              rcases (hih n hn).covered rest with ⟨hb, hh⟩ | ⟨heq, hnot⟩
              · exact Or.inl ⟨fun f hf => (hbelowB f).mpr ⟨hn, hb f hf⟩,
                  fun f hf => (hbelowH f).mpr ⟨hn, hh f hf⟩⟩
              · exact Or.inr ⟨heq, fun f => ⟨fun h => (hnot f).1 ((hbelowB f).mp h).2,
                  fun h => (hnot f).2 ((hbelowH f).mp h).2⟩⟩
            · -- an address with an invalid name shows nothing
              have hnone : ∀ node : Option (TreeRow H), ∀ f,
                  shown db filter node ds (n :: rest) ≠ some f := by
                intro node f hf
                exact hrv ⟨hrest, fun m hm => (shown_valid hs hf).2 m (by simp [hm])⟩
              exact Or.inl ⟨fun f hf => absurd hf (hnone _ f),
                fun f hf => absurd hf (hnone _ f)⟩
          · -- neither side has the subdirectory, or the filter does not enter it
            rw [hmem, not_and_or, not_or] at hn
            rw [shown_cons hs hbase ds n hrest, shown_cons hs hhead ds n hrest]
            rcases hn with ⟨hb, hh⟩ | hd
            · rw [Option.not_isSome_iff_eq_none.mp hb, Option.not_isSome_iff_eq_none.mp hh]
              simp [shown]
            · rw [if_neg hd, if_neg hd]
              exact Or.inl ⟨by simp, by simp⟩

end Collected

/-! ## The pruned diff is the full diff -/

section Exact

variable {H : Type} [DecidableEq H] [HashScheme H] {db : DB H} {filter : PathFilter}

/-- The whole tree below a root, flattened under a filter; no root is the empty
tree. -/
def flattened (db : DB H) (filter : PathFilter) :
    Option (TreeRow H) → Option (GoMap (Entry H))
  | none => some ∅
  | some root => (loadTreeManifest db true filter [] db.treeDepth root []).map fromTree

theorem exists_flattened (filter : PathFilter) (hinv : db.StoreInv) {node : Option (TreeRow H)}
    (hnode : ∀ row ∈ node, row ∈ db.treeNodes) :
    ∃ m, flattened db filter node = some m ∧ ∀ p e, m.lookup p = some e ↔ ∃ segs f,
      shown db filter node [] segs = some f ∧ p = pathOf segs ∧ e = entryOf p f := by
  rcases node with _ | row
  · refine ⟨∅, rfl, ?_⟩
    intro p e
    simp [shown]
  · obtain ⟨t, ht, hlookup⟩ := exists_load_lookup filter [] hinv.toStoreShape (hnode row rfl)
      (hinv.bounded_length (hnode row rfl))
    exact ⟨fromTree t, by rw [flattened, DB.treeDepth, ht]; rfl, hlookup⟩

theorem lookup_shown (hs : db.StoreShape) {node : Option (TreeRow H)} {m : GoMap (Entry H)}
    (hm : ∀ p e, m.lookup p = some e ↔ ∃ segs f,
      shown db filter node [] segs = some f ∧ p = pathOf segs ∧ e = entryOf p f)
    {segs : List Str} (hsegs : ValidSegs segs) :
    m.lookup (pathOf segs) = (shown db filter node [] segs).map (entryOf (pathOf segs)) := by
  ext e
  rw [hm, Option.map_eq_some_iff]
  constructor
  · rintro ⟨segs', f, hf, hpath, rfl⟩
    obtain rfl := pathOf_injective hsegs (shown_valid hs hf) hpath
    exact ⟨f, hf, rfl⟩
  · rintro ⟨f, hf, rfl⟩
    exact ⟨segs, f, hf, rfl, rfl⟩

theorem lookup_written (hs : db.StoreShape) {node : Option (TreeRow H)}
    {out : List (Entry H)}
    (hshown : ∀ e ∈ out, ∃ segs f, shown db filter node [] segs = some f ∧
      e = entryOf (pathOf ([] ++ segs)) f) {p : Str} {e : Entry H} :
    (GoMap.insertAll Entry.path (fun e => e) ∅ out).lookup p = some e ↔
      e ∈ out ∧ ∃ segs f, shown db filter node [] segs = some f ∧ p = pathOf segs ∧
        e = entryOf p f := by
  have hinj : ∀ x ∈ out, ∀ y ∈ out, x.path = y.path → x = y := by
    intro x hx y hy hxy
    obtain ⟨segs, f, hf, rfl⟩ := hshown x hx
    obtain ⟨segs', g, hg, rfl⟩ := hshown y hy
    have hsegs : segs = segs' := pathOf_injective (shown_valid hs hf) (shown_valid hs hg) hxy
    subst hsegs
    rw [hf] at hg
    rw [Option.some.inj hg]
  rw [GoMap.lookup_insertAll_iff hinj]
  constructor
  · rintro ⟨he, rfl⟩
    obtain ⟨segs, f, hf, rfl⟩ := hshown e he
    exact ⟨he, segs, f, hf, rfl, rfl⟩
  · rintro ⟨he, segs, f, -, -, rfl⟩
    exact ⟨he, rfl⟩

theorem lookup_written_eq (hs : db.StoreShape) {node : Option (TreeRow H)}
    {out : List (Entry H)}
    (hshown : ∀ e ∈ out, ∃ segs f, shown db filter node [] segs = some f ∧
      e = entryOf (pathOf ([] ++ segs)) f) {segs : List Str} (hsegs : ValidSegs segs) :
    ((∀ f, shown db filter node [] segs = some f → entryOf (pathOf ([] ++ segs)) f ∈ out) →
      (GoMap.insertAll Entry.path (fun e => e) ∅ out).lookup (pathOf segs) =
        (shown db filter node [] segs).map (entryOf (pathOf segs))) ∧
    ((∀ f, entryOf (pathOf ([] ++ segs)) f ∉ out) →
      (GoMap.insertAll Entry.path (fun e => e) ∅ out).lookup (pathOf segs) = none) := by
  constructor
  · intro hall
    ext e
    rw [lookup_written hs hshown, Option.map_eq_some_iff]
    constructor
    · rintro ⟨-, segs', f, hf, hpath, rfl⟩
      obtain rfl := pathOf_injective hsegs (shown_valid hs hf) hpath
      exact ⟨f, hf, rfl⟩
    · rintro ⟨f, hf, rfl⟩
      exact ⟨hall f hf, segs, f, hf, rfl, rfl⟩
  · intro hnot
    rw [Option.eq_none_iff_forall_not_mem]
    intro e he
    obtain ⟨hmem, segs', f, -, -, rfl⟩ := (lookup_written hs hshown).mp he
    exact hnot f hmem

theorem changedTreeEntries_compare (hinv : db.StoreInv) {base head : Option (TreeRow H)}
    (hbase : ∀ row ∈ base, row ∈ db.treeNodes) (hhead : ∀ row ∈ head, row ∈ db.treeNodes)
    {old new : GoMap (Entry H)} (hold : flattened db filter base = some old)
    (hnew : flattened db filter head = some new) :
    Diff.compare (changedTreeEntries db base head filter).1
      (changedTreeEntries db base head filter).2 = Diff.compare old new := by
  have hs := hinv.toStoreShape
  obtain ⟨m, hm, hlookup⟩ := exists_flattened filter hinv hbase
  obtain rfl := Option.some.inj (hold.symm.trans hm)
  obtain ⟨m', hm', hlookup'⟩ := exists_flattened filter hinv hhead
  obtain rfl := Option.some.inj (hnew.symm.trans hm')
  have hwalked := walkChangedTrees_walked filter hs hbase hhead []
    (by simp) (fun row hr => hinv.bounded_length (hbase row hr))
    (fun row hr => hinv.bounded_length (hhead row hr))
  apply Diff.compare_congr
  intro p
  simp only [changedTreeEntries, DB.treeDepth]
  rw [show ([] : Str) = pathOf [] from rfl]
  generalize walkChangedTrees db filter db.treeNodes.length base head (pathOf []) = out
    at hwalked
  by_cases hp : ∃ segs, ValidSegs segs ∧ p = pathOf segs
  · obtain ⟨segs, hsegs, rfl⟩ := hp
    have hb := lookup_written_eq hs hwalked.base_shown hsegs
    have hh := lookup_written_eq hs hwalked.head_shown hsegs
    rw [lookup_shown hs hlookup hsegs, lookup_shown hs hlookup' hsegs]
    rcases hwalked.covered segs with ⟨hallb, hallh⟩ | ⟨heq, hnot⟩
    · rw [hb.1 hallb, hh.1 hallh]
    · rw [hb.2 fun f => (hnot f).1, hh.2 fun f => (hnot f).2, heq, Diff.changeAt_self,
        Diff.changeAt_self]
  · -- no file has such a path
    have hnone : ∀ {m : GoMap (Entry H)} {node : Option (TreeRow H)}, (∀ e,
        m.lookup p = some e → ∃ segs f, shown db filter node [] segs = some f ∧
          p = pathOf segs ∧ e = entryOf p f) → m.lookup p = none := by
      intro m node hm
      rw [Option.eq_none_iff_forall_not_mem]
      intro e he
      obtain ⟨segs, f, hf, hpath, -⟩ := hm e he
      exact hp ⟨segs, shown_valid hs hf, hpath⟩
    rw [hnone fun e => (hlookup p e).mp, hnone fun e => (hlookup' p e).mp,
      hnone fun e he => ((lookup_written hs hwalked.base_shown).mp he).2,
      hnone fun e he => ((lookup_written hs hwalked.head_shown).mp he).2]

omit [DecidableEq H] [HashScheme H] in
theorem commitRootNode_mem {projectID : ID} {commitID : Option ID}
    {root : Option (TreeRow H)} (h : commitRootNode db projectID commitID = .ok root) :
    ∀ row ∈ root, row ∈ db.treeNodes := by
  rcases commitID with _ | id
  · obtain rfl := Except.ok.inj h
    simp
  · rw [commitRootNode] at h
    simp only [bind_eq_ok, pure_eq_ok, getTreeNode, orError_eq_ok] at h
    obtain ⟨c, -, row, hrow, rfl⟩ := h
    intro r hr
    obtain rfl := Option.some.inj hr
    exact List.mem_of_find?_eq_some hrow

/-- The pruned diff of two trees of a project agrees with the diff of the
flattened trees: under every filter, for the changes of the two commits, and for
the paths a write check asks about. -/
structure PrunedDiffExact (db : DB H) (projectID : ID) (fromID toID : Option ID)
    (fromRoot toRoot : Option (TreeRow H)) : Prop where
  entries : ∀ filter, ∃ old new, flattened db filter fromRoot = some old ∧
    flattened db filter toRoot = some new ∧
    Diff.compare (changedTreeEntries db fromRoot toRoot filter).1
      (changedTreeEntries db fromRoot toRoot filter).2 = Diff.compare old new
  changes : ∃ old new, flattened db allowAllFilter fromRoot = some old ∧
    flattened db allowAllFilter toRoot = some new ∧
    commitChanges db projectID fromID toID = .ok (Diff.compare old new) ∧
    ∀ perm f t, fromID = some f → toID = some t →
      (ensureTreeWrites db perm projectID f t = .ok () ↔ ∀ p,
        (old.lookup p).map (fun e => (e.hash, e.mode)) ≠
          (new.lookup p).map (fun e => (e.hash, e.mode)) →
        perm.hasPathAccess p .write = true)

theorem pruned_diff_exact (hinv : db.StoreInv) {projectID : ID} {fromID toID : Option ID}
    {fromRoot toRoot : Option (TreeRow H)}
    (hfrom : commitRootNode db projectID fromID = .ok fromRoot)
    (hto : commitRootNode db projectID toID = .ok toRoot) :
    PrunedDiffExact db projectID fromID toID fromRoot toRoot := by
  have hf := commitRootNode_mem hfrom
  have ht := commitRootNode_mem hto
  constructor
  · intro filter
    obtain ⟨old, hold, -⟩ := exists_flattened filter hinv hf
    obtain ⟨new, hnew, -⟩ := exists_flattened filter hinv ht
    exact ⟨old, new, hold, hnew, changedTreeEntries_compare hinv hf ht hold hnew⟩
  · obtain ⟨old, hold, -⟩ := exists_flattened allowAllFilter hinv hf
    obtain ⟨new, hnew, -⟩ := exists_flattened allowAllFilter hinv ht
    have hcompare := changedTreeEntries_compare hinv hf ht hold hnew
    have hchanges : commitChanges db projectID fromID toID = .ok (Diff.compare old new) := by
      rw [← hcompare, commitChanges, hfrom, hto]
      rfl
    refine ⟨old, new, hold, hnew, hchanges, ?_⟩
    rintro perm f t rfl rfl
    have hwrites : ensureTreeWrites db perm projectID f t =
        ensurePathWrites perm ((Diff.compare old new).map Diff.Change.path) := by
      rw [ensureTreeWrites, hchanges]
      rfl
    rw [hwrites, ensurePathWrites_ok]
    constructor
    · intro h p hp
      exact h p (Diff.mem_compare_paths.mpr hp)
    · intro h p hp
      exact h p (Diff.mem_compare_paths.mp hp)

end Exact

/-! ## Two commits of a small store -/

theorem pruned_diff_exact_demo :
    ∃ db₁ db₂ r₁ r₂, push demoStore demoCaller 7 demoPush = .ok db₁ ∧
      push db₁ demoCaller 8 demoSecond = .ok db₂ ∧
      commitRootNode db₂ 1 (some 7) = .ok r₁ ∧ commitRootNode db₂ 1 (some 8) = .ok r₂ ∧
      PrunedDiffExact db₂ 1 (some 7) (some 8) r₁ r₂ := by
  have hempty : demoStore.Unborn := ⟨rfl, rfl, rfl⟩
  have hrun : PushRun demoStore secondStore := firstStore_run.push secondStore_push
  obtain ⟨r₁, h₁⟩ := exists_ok_of_toOption (x := commitRootNode secondStore 1 (some 7))
    (by decide +kernel)
  obtain ⟨r₂, h₂⟩ := exists_ok_of_toOption (x := commitRootNode secondStore 1 (some 8))
    (by decide +kernel)
  exact ⟨firstStore, secondStore, r₁, r₂, firstStore_push, secondStore_push, h₁, h₂,
    pruned_diff_exact (hrun.grows hempty.storeInv IdealHash.collisionFree).inv' h₁ h₂⟩

end Nipa
