import Nipa.History.CommitRange
import Nipa.LockTable
import Nipa.Push.LockPlan
import Nipa.Server.CanonicalHash

/-!
# The commits that touched a path

The log of a path walks the first parents of a revision and lists a commit when
the path shows something else there than at the commit before.  At each commit
only the nodes along the path are loaded.  The last commit of a chain has no
commit before it; it is listed whatever the path shows there.
-/

namespace Nipa

open Support

/-! ## The path at one commit -/

section Lookup

variable {H : Type} [DecidableEq H] [HashScheme H]

def errNoRecord : DomainError :=
  errNotFound "record not found" []

def splitPath (path : Str) : List Str :=
  (path.splitOn '/').filter (· ≠ [])

/-- Descend by names; a missing directory ends the walk. -/
def descend (db : DB H) : TreeRow H → List Str → Option (TreeRow H)
  | node, [] => some node
  | node, segment :: segments =>
      match db.getTreeChildByName node.id segment with
      | none => none
      | some child => descend db child segments

def treeNodeAtCommit (db : DB H) (commitID : ID) (segments : List Str) :
    Except DomainError (Option (TreeRow H)) := do
  let commit ← orError (db.getCommit commitID) errNoRecord
  let node ← getTreeNode db commit.treeID
  return descend db node segments

/-- The hash of the readable part of a directory. -/
def readableHash (db : DB H) (filter : PathFilter) (node : TreeRow H) (path : Str) : Option H :=
  (loadTreeManifest db true filter [] db.treeDepth node path).map rehashTree

/-- What a path shows at a commit: the hash of a file or of a directory. -/
def pathHashAtCommit (db : DB H) (filter : PathFilter) (commitID : ID) (path : Str) :
    Except DomainError (Option H) := do
  let segments := splitPath path
  match ← treeNodeAtCommit db commitID segments.dropLast with
  | none => return none
  | some node =>
      match segments.getLast? with
      | none => return readableHash db filter node path
      | some last =>
          match (db.listFilesByTree node.id).find? fun file => file.name = last with
          | some file => return if filter.allow path then some file.hash else none
          | none =>
              match db.getTreeChildByName node.id last with
              | none => return none
              | some child => return readableHash db filter child path

end Lookup

/-! ## Revisions -/

section Revisions

variable {H : Type}

def base36Digit (ch : Char) : Option ℕ :=
  if '0' ≤ ch ∧ ch ≤ '9' then some (ch.toNat - 48)
  else if 'a' ≤ ch ∧ ch ≤ 'z' then some (ch.toNat - 87)
  else if 'A' ≤ ch ∧ ch ≤ 'Z' then some (ch.toNat - 55)
  else none

/-- The number a text stands for; it has to fit a signed 64-bit integer. -/
def parseBase36 (s : Str) : Option ℤ :=
  let negative := s.head? = some '-'
  let digits := if negative ∨ s.head? = some '+' then s.tail else s
  if digits = [] then none
  else do
    let ds ← digits.mapM base36Digit
    let n := Nat.ofDigits 36 ds.reverse
    if negative then if n ≤ 2 ^ 63 then some (-(n : ℤ)) else none
    else if n < 2 ^ 63 then some (n : ℤ) else none

/-- The commit a revision names: the head of the default branch, of a branch, or
the commit with the number. -/
def resolveRevision (db : DB H) (projectID : ID) (rev : Str) : Except DomainError (Option ID) :=
  if rev = [] then do
    let branch ← orError (getDefaultBranch db projectID) errNoRecord
    return branch.commitID
  else
    match db.getBranchByName projectID rev with
    | some branch => .ok branch.commitID
    | none =>
        match parseBase36 rev with
        | none => .error (errNotFound "revision %q not found" [rev])
        | some (.negSucc n) => .error (errNotFound "commit %s not found" ['-' :: base36 (n + 1)])
        | some (.ofNat id) => do
            let commit ← commitByIDInProject db projectID id
            return some commit.id

end Revisions

/-! ## The log -/

section Log

variable {H : Type} [DecidableEq H] [HashScheme H]

def maxPathHistoryScan : ℕ := 500

def hashChanged (new old : Option H) : Bool :=
  match new, old with
  | none, none => false
  | some new, some old => new ≠ old
  | _, _ => true

/-- The scan of a log: `current` is what the path shows at the first commit, and
at most `left` more commits are listed. -/
def scanPathLog (hashAt : ID → Except DomainError (Option H)) :
    ℕ → Option H → List (Commit H) → Except DomainError (List (Commit H))
  | _, _, [] => .ok []
  | _, _, [commit] => if commit.parent1ID ≠ none then .ok [] else .ok [commit]
  | left, current, commit :: next :: rest => do
      let older ← hashAt next.id
      if hashChanged current older then
        if left ≤ 1 then return [commit]
        else
          let more ← scanPathLog hashAt (left - 1) older (next :: rest)
          return commit :: more
      else scanPathLog hashAt left older (next :: rest)

/-- The commits that touched a path, newest first. -/
def pathCommitLog (db : DB H) (perm : PermissionUsecase) (filter : PathFilter) (projectID : ID)
    (rev path : Str) (startCommitID : Option ID) (limit : ℤ) :
    Except DomainError (List (Commit H)) := do
  refuseIf (perm.hasProjectAccess .read = false) errNoPermission
  let path := trimChar '/' path
  match ← resolveRevision db projectID rev with
  | none => return []
  | some commitID =>
      refuseIf (path ≠ [] ∧ filter.canDescend path = false) (errNotFound "path %q not found" [path])
      match commitLog db projectID (startCommitID.getD commitID) maxPathHistoryScan with
      | [] => return []
      | commit :: rest => do
          let current ← pathHashAtCommit db filter commit.id path
          scanPathLog (fun id => pathHashAtCommit db filter id path) (walkLimit limit) current
            (commit :: rest)

end Log

/-! ## What a path shows -/

section Shown

variable {H : Type} [DecidableEq H] [HashScheme H] {db : DB H} {filter : PathFilter}

/-- What the log takes a path for in a stored tree: a file, if it is readable, and when
there is none the readable part of a directory. -/
def shownHash (db : DB H) (filter : PathFilter) (path : Str) (root : TreeRow H) : Option H :=
  match db.storeTree.find root.hash (splitPath path) with
  | some file => if filter.allow path then some file.hash else none
  | none => (descend db root (splitPath path)).bind fun node => readableHash db filter node path

/-- What the log takes a path for at a commit. -/
def shownAt (db : DB H) (filter : PathFilter) (path : Str) (c : Commit H) : Option H :=
  (db.treeNodeGet c.treeID).bind (shownHash db filter path)

omit [HashScheme H] in
theorem descend_concat (node : TreeRow H) (segments : List Str) (n : Str) :
    descend db node (segments ++ [n]) =
      (descend db node segments).bind fun m => db.getTreeChildByName m.id n := by
  induction segments generalizing node with
  | nil =>
      rw [List.nil_append, descend, descend, Option.bind_some]
      cases db.getTreeChildByName node.id n <;> rfl
  | cons segment segments ih =>
      rw [List.cons_append, descend, descend]
      cases db.getTreeChildByName node.id segment with
      | none => rfl
      | some child => exact ih child

theorem descend_spec (hs : db.StoreShape) {node : TreeRow H} (hnode : node ∈ db.treeNodes)
    (segments : List Str) :
    (∀ m ∈ descend db node segments, m ∈ db.treeNodes) ∧
      (descend db node segments).map TreeRow.hash = db.storeTree.dirAt node.hash segments := by
  induction segments generalizing node with
  | nil =>
      refine ⟨?_, rfl⟩
      intro m hm
      rwa [← Option.some.inj hm]
  | cons segment segments ih =>
      rw [descend, Hierarchy.dirAt_cons]
      rcases hchild : db.getTreeChildByName node.id segment with _ | child
      · have hsub : db.storeTree.subOf node.hash segment = none := by
          rw [Option.eq_none_iff_forall_not_mem]
          intro m hm
          obtain ⟨c, hc, hname, -⟩ := hs.subOf_iff.mp hm
          have := (getTreeChildByName_iff hs hnode).mpr ⟨hc, hname⟩
          rw [hchild] at this
          cases this
        rw [hsub]
        exact ⟨by simp, rfl⟩
      · obtain ⟨hc, hname⟩ := (getTreeChildByName_iff hs hnode).mp hchild
        rw [hs.subOf_iff.mpr ⟨child, hc, hname, rfl⟩]
        exact ih (hs.childrenByHash_mem hc).1

theorem listFilesByTree_find (hs : db.StoreShape) {node : TreeRow H} (hnode : node ∈ db.treeNodes)
    (n : Str) : ((db.listFilesByTree node.id).find? fun file => file.name = n) =
      db.storeTree.fileOf node.hash n := by
  rw [DB.listFilesByTree, hs.treeNodeGet_eq hnode, Hierarchy.fileOf, listed, DB.storeTree,
    List.find?_map, Option.map_map]
  simp [Function.comp_def]

theorem pathHashAtCommit_eq (hinv : db.StoreInv) {c : Commit H} (hc : c ∈ db.commits)
    (path : Str) :
    pathHashAtCommit db filter c.id path = .ok (shownAt db filter path c) := by
  have hs := hinv.toStoreShape
  obtain ⟨root, hroot, hid⟩ := hinv.commit_tree c hc
  have hget : db.getCommit c.id = some c :=
    (find?_key_eq_some_iff hinv.commit_ids).mpr ⟨hc, rfl⟩
  have hrow : db.treeNodeGet c.treeID = some root := by rw [← hid, hs.treeNodeGet_eq hroot]
  have hnode : ∀ segments, treeNodeAtCommit db c.id segments = .ok (descend db root segments) := by
    intro segments
    simp only [treeNodeAtCommit, getTreeNode, hget, hrow, orError, bind, Except.bind]
    rfl
  rw [pathHashAtCommit, shownAt, hrow, Option.bind_some, shownHash]
  simp only [hnode]
  rcases List.eq_nil_or_concat' (splitPath path) with hnil | ⟨ds, n, hconcat⟩
  · rw [hnil]
    rfl
  · rw [hconcat, List.dropLast_concat, List.getLast?_concat, Hierarchy.find_concat,
      descend_concat, ← (descend_spec hs hroot ds).2]
    have hmem := (descend_spec hs hroot ds).1
    rcases hdescend : descend db root ds with _ | node
    · rfl
    · have hfind := listFilesByTree_find hs (hmem node hdescend) n
      simp only [Option.map_some, Option.bind_some, bind, Except.bind]
      rw [hfind]
      cases db.storeTree.fileOf node.hash n with
      | some file => rfl
      | none => cases db.getTreeChildByName node.id n <;> rfl

/-! ### Presence -/

theorem exists_loadTreeManifest (hs : db.StoreShape) (filter : PathFilter) (sparse : PrefixSet)
    {depth : ℕ} {row : TreeRow H} (hr : row ∈ db.treeNodes)
    (hb : db.storeTree.Bounded depth row.hash) (path : Str) :
    ∃ t, loadTreeManifest db true filter sparse depth row path = some t := by
  induction depth generalizing row path with
  | zero => exact hb.elim
  | succ depth ih =>
      rw [loadTreeManifest, DB.listTreeChildren, hs.treeNodeGet_eq hr]
      simp only [if_true]
      obtain ⟨ts, hts⟩ := mapM_isSome_of_forall (f := fun c =>
          loadTreeManifest db true filter sparse depth c (joinTreePath path c.name))
          (l := (db.childrenByHash row.hash).filter fun c =>
            entersDir filter sparse path c.name) (by
        intro c hc
        have hchild := (List.mem_filter.mp hc).1
        obtain ⟨t, ht⟩ := ih (hs.childrenByHash_mem hchild).1
          (hb (c.name, c.hash) (List.mem_map_of_mem hchild)) (joinTreePath path c.name)
        rw [ht]
        rfl)
      rw [hts]
      exact ⟨_, rfl⟩

end Shown

/-! ## What a log is -/

/-- The entries of a history that differ from the entry before them; nothing is
shown before the last. -/
def touchedCommits {α β : Type} [DecidableEq β] (shown : α → Option β) : List α → List α
  | [] => []
  | c :: older =>
      if shown c = older.head?.bind shown then touchedCommits shown older
      else c :: touchedCommits shown older

/-- The oldest entry of a history, where nothing is shown. -/
def bareRoot {α β : Type} [DecidableEq β] (shown : α → Option β) (chain : List α) : List α :=
  (chain.getLast?.filter fun c => shown c = none).toList

section Scan

variable {H : Type} [DecidableEq H] [HashScheme H] {db : DB H} {head : ID}
  {chain : List (Commit H)}

omit [HashScheme H] in
theorem hashChanged_iff (new old : Option H) : hashChanged new old = true ↔ new ≠ old := by
  cases new <;> cases old <;> simp [hashChanged]

omit [HashScheme H] in
/-- The scan lists the commits that touched the path, and a root that shows
nothing. -/
theorem scanPathLog_eq (hashAt : ID → Except DomainError (Option H))
    (shown : Commit H → Option H) (hchain : FirstParentChain db head chain)
    (hshown : ∀ c ∈ chain, hashAt c.id = .ok (shown c)) {left : ℕ} (hleft : 0 < left) :
    scanPathLog hashAt left (chain.head?.bind shown) chain =
      .ok ((touchedCommits shown chain ++ bareRoot shown chain).take left) := by
  induction hchain generalizing left with
  | @root c hc hparent =>
      obtain ⟨left, rfl⟩ := Nat.exists_eq_add_of_lt hleft
      rw [scanPathLog, if_neg (by simp [hparent])]
      by_cases h : shown c = none <;> simp [touchedCommits, bareRoot, Option.filter, h]
  | @child c p older hc hparent hrest ih =>
      obtain ⟨-, c', older', rfl, -⟩ := hrest.linked
      have hnext : hashAt c'.id = .ok (shown c') := hshown c' (by simp)
      have hold : ∀ d ∈ c' :: older', hashAt d.id = .ok (shown d) := fun d hd =>
        hshown d (List.mem_cons_of_mem c hd)
      have hroot : bareRoot shown (c :: c' :: older') = bareRoot shown (c' :: older') := by
        rw [bareRoot, bareRoot, List.getLast?_cons_cons]
      simp only [List.head?_cons, Option.bind_some] at ih ⊢
      rw [scanPathLog, hnext, hroot, touchedCommits, List.head?_cons, Option.bind_some]
      change (if hashChanged (shown c) (shown c') = true then _ else _) = _
      by_cases h : shown c = shown c'
      · rw [if_neg (by rw [hashChanged_iff]; exact not_not.mpr h), if_pos h]
        exact ih hold hleft
      · rw [if_pos ((hashChanged_iff _ _).mpr h), if_neg h, List.cons_append]
        by_cases hone : left ≤ 1
        · obtain rfl : left = 1 := by omega
          rw [if_pos hone, List.take_one]
          rfl
        · rw [if_neg hone, ih hold (by omega)]
          obtain ⟨left, rfl⟩ : ∃ n, left = n + 1 := ⟨left - 1, by omega⟩
          rw [List.take_succ_cons]
          rfl

end Scan

/-! ## What the log lists -/

section Calls

variable {H : Type} [DecidableEq H] [HashScheme H] {db : DB H} {perm : PermissionUsecase}
  {filter : PathFilter} {projectID : ID} {rev path : Str} {startCommitID : Option ID}
  {chain : List (Commit H)}

/-- A call for a path that the caller may enter, on a chain that the scan covers. -/
structure PathLogCall (db : DB H) (perm : PermissionUsecase) (filter : PathFilter)
    (projectID : ID) (rev path : Str) (startCommitID : Option ID) (chain : List (Commit H)) :
    Prop where
  reads : perm.hasProjectAccess .read = true
  visible : trimChar '/' path = [] ∨ filter.canDescend (trimChar '/' path) = true
  starts : ∃ commitID, resolveRevision db projectID rev = .ok (some commitID) ∧
    FirstParentChain db (startCommitID.getD commitID) chain
  inProject : ∀ c ∈ chain, c.projectID = projectID
  covered : chain.length ≤ maxPathHistoryScan

theorem walkLimit_pos (limit : ℤ) : 0 < walkLimit limit := by
  rw [walkLimit]
  split <;> omega

theorem pathCommitLog_eq (hinv : db.StoreInv) (hdag : CommitDAG db)
    (hcall : PathLogCall db perm filter projectID rev path startCommitID chain) (limit : ℤ) :
    pathCommitLog db perm filter projectID rev path startCommitID limit =
      .ok ((touchedCommits (shownAt db filter (trimChar '/' path)) chain ++
        bareRoot (shownAt db filter (trimChar '/' path)) chain).take (walkLimit limit)) := by
  obtain ⟨commitID, hresolve, hchain⟩ := hcall.starts
  have hlog := commitLog_eq hdag hchain hcall.inProject maxPathHistoryScan
  rw [List.take_of_length_le hcall.covered] at hlog
  have hshown : ∀ c ∈ chain, pathHashAtCommit db filter c.id (trimChar '/' path) =
      .ok (shownAt db filter (trimChar '/' path) c) := fun c hc =>
    pathHashAtCommit_eq hinv (hchain.mem_commits c hc) _
  have hscan := scanPathLog_eq (fun id => pathHashAtCommit db filter id (trimChar '/' path))
    _ hchain hshown (walkLimit_pos limit)
  obtain ⟨-, c, older, rfl, -⟩ := hchain.linked
  have henter : ¬ (trimChar '/' path ≠ [] ∧ filter.canDescend (trimChar '/' path) = false) := by
    rintro ⟨hne, hhidden⟩
    rcases hcall.visible with hnil | hvisible
    · exact hne hnil
    · rw [hhidden] at hvisible
      cases hvisible
  rw [pathCommitLog, refuseIf, if_neg (by simp [hcall.reads])]
  simp only [bind, Except.bind, hresolve]
  rw [refuseIf, if_neg henter]
  simp only [hlog, hshown c List.mem_cons_self]
  exact hscan

end Calls

end Nipa
