import Nipa.History.PathLog
import Nipa.Permissions
import Nipa.Store.Pruned

/-!
# The history of a directory

The tree browser names, for a directory and for each of its entries, the newest
commit that changed it.  One pass over the first parents of a revision compares
the directory at neighbouring commits.  A caller who may read everything is shown
stored directories with their stored hashes, any other caller the readable part
with its hashes computed again.
-/

namespace Nipa

open Support

/-! ## The directory at one commit -/

section Directory

variable {H : Type} [DecidableEq H] [HashScheme H]

mutual

/-- A manifest with all its hashes computed again. -/
def rehashed : TreeNode H → TreeNode H
  | .mk id hash name mode files trees =>
      .mk id (rehashTree (.mk id hash name mode files trees)) name mode files (rehashedAll trees)

def rehashedAll : List (TreeNode H) → List (TreeNode H)
  | [] => []
  | t :: ts => rehashed t :: rehashedAll ts

end

omit [DecidableEq H] in
@[simp] theorem rehashed_name (t : TreeNode H) : (rehashed t).name = t.name := by
  rcases t with ⟨i, h, n, m, fs, cs⟩
  rw [rehashed]
  rfl

omit [DecidableEq H] in
@[simp] theorem rehashed_hash (t : TreeNode H) : (rehashed t).hash = rehashTree t := by
  rcases t with ⟨i, h, n, m, fs, cs⟩
  rw [rehashed]
  rfl

omit [DecidableEq H] in
@[simp] theorem rehashed_fileChildren (t : TreeNode H) :
    (rehashed t).fileChildren = t.fileChildren := by
  rcases t with ⟨i, h, n, m, fs, cs⟩
  rw [rehashed]
  rfl

omit [DecidableEq H] in
theorem rehashedAll_eq_map (ts : List (TreeNode H)) : rehashedAll ts = ts.map rehashed := by
  induction ts with
  | nil => rw [rehashedAll, List.map_nil]
  | cons t ts ih => rw [rehashedAll, List.map_cons, ih]

omit [DecidableEq H] in
@[simp] theorem rehashed_treeChildren (t : TreeNode H) :
    (rehashed t).treeChildren = t.treeChildren.map rehashed := by
  rcases t with ⟨i, h, n, m, fs, cs⟩
  rw [rehashed]
  exact rehashedAll_eq_map cs

/-- A tree row before its children are loaded. -/
def TreeRow.node (row : TreeRow H) : TreeNode H :=
  .mk row.id row.hash row.name row.mode [] []

def loadShallow (db : DB H) (node : TreeRow H) : TreeNode H :=
  .mk node.id node.hash node.name node.mode (db.listFilesByTree node.id)
    ((db.listTreeChildren node.id).map TreeRow.node)

def shallowDirAt (db : DB H) (commitID : ID) (path : Str) :
    Except DomainError (Option (TreeNode H)) := do
  let node ← treeNodeAtCommit db commitID (splitPath path)
  return node.map (loadShallow db)

def commitTreeManifest (db : DB H) (filter : PathFilter) (commitID : ID) :
    Except DomainError (Option (TreeNode H)) := do
  let commit ← orError (db.getCommit commitID) errNoRecord
  let root ← getTreeNode db commit.treeID
  return (loadTreeManifest db true filter [] db.treeDepth root []).map rehashed

def findBelow : TreeNode H → List Str → Option (TreeNode H)
  | node, [] => some node
  | node, segment :: segments =>
      match node.treeChildren.find? fun child => child.name = segment with
      | none => none
      | some next => findBelow next segments

def findLoadedTreeNode (root : Option (TreeNode H)) (path : Str) : Option (TreeNode H) :=
  root.bind fun root => findBelow root (splitPath (trimChar '/' path))

/-- The directory that is compared; `all` says that the filter allows every path. -/
def dirManifestAt (db : DB H) (all : Bool) (filter : PathFilter) (commitID : ID) (path : Str) :
    Except DomainError (Option (TreeNode H)) := do
  match ← treeNodeAtCommit db commitID (splitPath path) with
  | none => return none
  | some node =>
      if all then return some (loadShallow db node)
      else return (loadTreeManifest db true filter [] db.treeDepth node path).map rehashed

end Directory

/-! ## The pass over the commits -/

section Pass

variable {H : Type} [DecidableEq H]

def maxTreeHistoryCommits : ℕ := 50

/-- The newest commit that touched a directory, and the newest that touched each
of its entries, by path. -/
structure TreeHistory (H : Type) where
  latest : Option (Commit H)
  byPath : GoMap (Commit H)

/-- The hash of an entry of a directory; a file comes before a subdirectory. -/
def childEntryHash (dir : Option (TreeNode H)) (name : Str) : Option H :=
  match dir with
  | none => none
  | some dir =>
      match dir.fileChildren.find? fun file => file.name = name with
      | some file => some file.hash
      | none => (dir.treeChildren.find? fun child => child.name = name).map TreeNode.hash

def sameTreeHash : Option (TreeNode H) → Option (TreeNode H) → Bool
  | some a, some b => a.hash = b.hash
  | _, _ => false

/-- The commits found so far, by path, and how many entries are left. -/
abbrev Resolved (H : Type) := GoMap (Commit H) × ℕ

def resolveEntry (newer older : Option (TreeNode H)) (commit : Commit H) (basePath : Str)
    (s : Resolved H) (name : Str) : Resolved H :=
  let key := joinTreePath basePath name
  if (s.1.lookup key).isSome then s
  else
    match childEntryHash newer name with
    | none => s
    | some newerHash =>
        if childEntryHash older name = some newerHash then s
        else (AList.insert key commit s.1, s.2 - 1)

def childNames (dir : TreeNode H) : List Str :=
  dir.fileChildren.map File.name ++ dir.treeChildren.map TreeNode.name

/-- Name the commit for every entry of the head directory that changed between two
directories. -/
def resolveEntryCommits (newer older : Option (TreeNode H)) (head : TreeNode H)
    (commit : Commit H) (basePath : Str) (s : Resolved H) : Resolved H :=
  (childNames head).foldl (resolveEntry newer older commit basePath) s

/-- One round: the directory first, then its entries. -/
def compareDirs (newer older : Option (TreeNode H)) (head : TreeNode H) (commit : Commit H)
    (path : Str) (s : TreeHistory H × ℕ) : TreeHistory H × ℕ :=
  let latest := if s.1.latest = none ∧ sameTreeHash newer older = false then some commit
    else s.1.latest
  let resolved := if 0 < s.2 then
      resolveEntryCommits newer older head commit path (s.1.byPath, s.2)
    else (s.1.byPath, s.2)
  (⟨latest, resolved.1⟩, resolved.2)

/-- The rounds of the pass; `newer` is the directory at the first commit left. -/
def scanTreeHistory (dirAt : ID → Except DomainError (Option (TreeNode H))) (head : TreeNode H)
    (path : Str) : Option (TreeNode H) → TreeHistory H × ℕ → List (Commit H) →
    Except DomainError (TreeHistory H)
  | _, s, [] => .ok s.1
  | newer, s, [commit] =>
      if commit.parent1ID ≠ none then .ok s.1
      else .ok (compareDirs newer none head commit path s).1
  | newer, s, commit :: next :: rest => do
      let older ← dirAt next.id
      let s := compareDirs newer older head commit path s
      if s.1.latest ≠ none ∧ s.2 = 0 then return s.1
      else scanTreeHistory dirAt head path older s (next :: rest)

end Pass

section Browser

variable {H : Type} [DecidableEq H] [HashScheme H]

def treeHistory (db : DB H) (all : Bool) (filter : PathFilter) (projectID headID : ID)
    (path : Str) (headDir : Option (TreeNode H)) : Except DomainError (TreeHistory H) :=
  match headDir with
  | none => .ok ⟨none, ∅⟩
  | some headDir =>
      scanTreeHistory (fun id => dirManifestAt db all filter id path) headDir path (some headDir)
        (⟨none, ∅⟩, headDir.fileChildren.length + headDir.treeChildren.length)
        (commitLog db projectID headID maxTreeHistoryCommits)

/-- Whether the read filter of a caller allows every path. -/
def readsAll (isAdmin : Bool) (set : PermissionSet) : Bool :=
  isAdmin || set.orgOwner

def errNoPath (path : Str) : DomainError :=
  errNotFound "path %q not found" [path]

/-- The directory a caller is shown at a commit. -/
def browsedDir (db : DB H) (isAdmin : Bool) (set : PermissionSet) (commitID : ID) (path : Str) :
    Except DomainError (Option (TreeNode H)) := do
  let filter := compileFilter isAdmin set permissionRead
  if readsAll isAdmin set then
    let node ← orError (← shallowDirAt db commitID path) (errNoPath path)
    return some node
  else
    let root ← commitTreeManifest db filter commitID
    if path = [] then return root
    else
      refuseIf (filter.canDescend path = false) (errNoPath path)
      let node ← orError (findLoadedTreeNode root path) (errNoPath path)
      return some node

/-- The readable part of a directory at a revision, with its history when that is
asked for. -/
def treeAt (db : DB H) (perm : PermissionUsecase) (isAdmin : Bool) (set : PermissionSet)
    (projectID : ID) (rev path : Str) (withHistory : Bool) :
    Except DomainError (Option (TreeNode H) × Option (TreeHistory H)) := do
  refuseIf (perm.hasProjectAccess .read = false) errNoPermission
  let revision ← resolveRevision db projectID rev
  let path := trimChar '/' path
  match revision with
  | none =>
      refuseIf (path ≠ []) (errNoPath path)
      return (some (.mk 0 HashScheme.zero [] 0 [] []), some ⟨none, ∅⟩)
  | some commitID =>
      let node ← browsedDir db isAdmin set commitID path
      if withHistory then
        let history ← treeHistory db (readsAll isAdmin set)
          (compileFilter isAdmin set permissionRead) projectID commitID path node
        return (node, some history)
      else return (node, none)

def treeAtWithHistory (db : DB H) (perm : PermissionUsecase) (isAdmin : Bool)
    (set : PermissionSet) (projectID : ID) (rev path : Str) :
    Except DomainError (Option (TreeNode H) × Option (TreeHistory H)) :=
  treeAt db perm isAdmin set projectID rev path true

end Browser

/-! ## What the pass finds -/

section Found

variable {H : Type} [DecidableEq H] {newer older : Option (TreeNode H)} {head : TreeNode H}
  {commit : Commit H} {path : Str}

/-- Every entry is found or left, and nothing else is found. -/
structure Accounted (head : TreeNode H) (path : Str) (s : Resolved H) : Prop where
  count : s.2 + s.1.keys.length = (childNames head).length
  keys_mem : ∀ k ∈ s.1.keys, ∃ n ∈ childNames head, joinTreePath path n = k

omit [DecidableEq H] in
theorem keys_subperm {m : GoMap (Commit H)}
    (h : ∀ k ∈ m.keys, ∃ n ∈ childNames head, joinTreePath path n = k) :
    m.keys.Subperm ((childNames head).map (joinTreePath path)) := by
  apply List.subperm_of_subset m.keys_nodup
  intro k hk
  obtain ⟨n, hn, rfl⟩ := h k hk
  exact List.mem_map_of_mem hn

omit [DecidableEq H] in
theorem Accounted.lookup_isSome {s : Resolved H} (h : Accounted head path s) (hleft : s.2 = 0)
    {n : Str} (hn : n ∈ childNames head) : (s.1.lookup (joinTreePath path n)).isSome := by
  have hlen : ((childNames head).map (joinTreePath path)).length ≤ s.1.keys.length := by
    rw [List.length_map, ← h.count, hleft, Nat.zero_add]
  have hperm := (keys_subperm h.keys_mem).perm_of_length_le hlen
  rw [AList.lookup_isSome]
  exact hperm.mem_iff.mpr (List.mem_map_of_mem hn)

/-- What one comparison says of an entry. -/
def entryChange (newer older : Option (TreeNode H)) (commit : Commit H) (n : Str) :
    Option (Commit H) :=
  if childEntryHash newer n ≠ none ∧ childEntryHash older n ≠ childEntryHash newer n then
    some commit
  else none

theorem resolveEntry_eq (s : Resolved H) (n : Str) :
    resolveEntry newer older commit path s n =
      match (s.1.lookup (joinTreePath path n)).isSome, entryChange newer older commit n with
      | false, some c => (AList.insert (joinTreePath path n) c s.1, s.2 - 1)
      | _, _ => s := by
  rw [resolveEntry, entryChange]
  cases (s.1.lookup (joinTreePath path n)).isSome with
  | true => rfl
  | false =>
      rcases hnewer : childEntryHash newer n with _ | x
      · simp
      · by_cases hsame : childEntryHash older n = some x
        · simp [hsame]
        · simp [hsame]

theorem resolveEntry_spec (newer older : Option (TreeNode H)) (commit : Commit H)
    {s : Resolved H} (h : Accounted head path s) {n : Str}
    (hn : n ∈ childNames head) :
    Accounted head path (resolveEntry newer older commit path s n) ∧
      ∀ k, (resolveEntry newer older commit path s n).1.lookup k =
        (s.1.lookup k).or
          (if k = joinTreePath path n then entryChange newer older commit n else none) := by
  rw [resolveEntry_eq]
  rcases hfound : (s.1.lookup (joinTreePath path n)).isSome with _ | _
  · rw [Option.isSome_eq_false_iff, Option.isNone_iff_eq_none] at hfound
    rcases entryChange newer older commit n with _ | c
    · exact ⟨h, fun k => by simp⟩
    · have hnotMem : joinTreePath path n ∉ s.1.keys := AList.lookup_eq_none.mp hfound
      have hinsert : (AList.insert (joinTreePath path n) c s.1).keys =
          joinTreePath path n :: s.1.keys := by
        rw [AList.keys, AList.entries_insert_of_notMem hnotMem, List.keys_cons]
        rfl
      have hkeys : ∀ k ∈ (AList.insert (joinTreePath path n) c s.1).keys,
          ∃ m ∈ childNames head, joinTreePath path m = k := by
        intro k hk
        rw [hinsert] at hk
        rcases List.mem_cons.mp hk with rfl | hk
        · exact ⟨n, hn, rfl⟩
        · exact h.keys_mem k hk
      have hroom : s.1.keys.length + 1 ≤ (childNames head).length := by
        have hlen := (keys_subperm hkeys).length_le
        rwa [hinsert, List.length_cons, List.length_map] at hlen
      refine ⟨⟨?_, hkeys⟩, ?_⟩
      · have hcount := h.count
        simp only [hinsert, List.length_cons]
        omega
      · intro k
        rw [GoMap.lookup_insert_eq]
        by_cases hk : k = joinTreePath path n
        · rw [if_pos hk, if_pos hk, hk, hfound, Option.none_or]
        · rw [if_neg hk, if_neg hk, Option.or_none]
  · refine ⟨h, ?_⟩
    intro k
    by_cases hk : k = joinTreePath path n
    · rw [← hk] at hfound
      obtain ⟨c, hc⟩ := Option.isSome_iff_exists.mp hfound
      simp [hc]
    · simp [hk]

/-- Distinct entries have distinct paths. -/
def KeysDiffer (head : TreeNode H) (path : Str) : Prop :=
  ∀ n ∈ childNames head, ∀ m ∈ childNames head,
    joinTreePath path n = joinTreePath path m → n = m

theorem resolveEntries_spec (newer older : Option (TreeNode H)) (commit : Commit H)
    (hkeys : KeysDiffer head path) {names : List Str}
    (hnames : names ⊆ childNames head) {s : Resolved H} (h : Accounted head path s) :
    Accounted head path (names.foldl (resolveEntry newer older commit path) s) ∧
      ∀ n ∈ childNames head,
        (names.foldl (resolveEntry newer older commit path) s).1.lookup (joinTreePath path n) =
          (s.1.lookup (joinTreePath path n)).or
            (if n ∈ names then entryChange newer older commit n else none) := by
  induction names generalizing s with
  | nil =>
      refine ⟨h, ?_⟩
      intro n _
      simp
  | cons m names ih =>
      have hm : m ∈ childNames head := hnames List.mem_cons_self
      obtain ⟨hacc, hlookup⟩ := resolveEntry_spec newer older commit h hm
      obtain ⟨hacc', hlookup'⟩ := ih (fun n hn => hnames (List.mem_cons_of_mem m hn)) hacc
      refine ⟨hacc', ?_⟩
      intro n hn
      rw [List.foldl_cons, hlookup' n hn, hlookup, Option.or_assoc]
      congr 1
      by_cases hnm : n = m
      · subst hnm
        rw [if_pos rfl, if_pos List.mem_cons_self]
        cases entryChange newer older commit n with
        | none => simp
        | some c => rfl
      · have hne : joinTreePath path n ≠ joinTreePath path m := fun heq => hnm (hkeys n hn m hm heq)
        rw [if_neg hne, Option.none_or]
        simp only [List.mem_cons, hnm, false_or]

/-- The first commit of a history at which it shows something else than before. -/
def lastChange {α β : Type} [DecidableEq β] (shown : α → Option β) (chain : List α) : Option α :=
  (touchedCommits shown chain).head?

omit [DecidableEq H] in
theorem lastChange_cons {α β : Type} [DecidableEq β] (shown : α → Option β) (c : α)
    (older : List α) : lastChange shown (c :: older) =
      (if shown c = older.head?.bind shown then none else some c).or (lastChange shown older) := by
  rw [lastChange, touchedCommits]
  split
  · rw [Option.none_or]
    rfl
  · rfl

/-- What one comparison says of the directory. -/
def dirChange (newer older : Option (TreeNode H)) (commit : Commit H) : Option (Commit H) :=
  if sameTreeHash newer older then none else some commit

theorem dirChange_eq (hnewer : newer ≠ none) :
    dirChange newer older commit =
      if newer.map TreeNode.hash = older.map TreeNode.hash then none else some commit := by
  rw [dirChange]
  rcases newer with _ | newer
  · exact absurd rfl hnewer
  · rcases older with _ | older
    · simp [sameTreeHash]
    · simp [sameTreeHash]

theorem entryChange_eq {n : Str} (hnewer : childEntryHash newer n ≠ none) :
    entryChange newer older commit n =
      if childEntryHash newer n = childEntryHash older n then none else some commit := by
  rw [entryChange]
  by_cases h : childEntryHash newer n = childEntryHash older n
  · rw [if_pos h, if_neg]
    rintro ⟨-, hne⟩
    exact hne h.symm
  · rw [if_neg h, if_pos]
    exact ⟨hnewer, fun heq => h heq.symm⟩

variable {s : TreeHistory H × ℕ}

theorem compareDirs_spec (newer older : Option (TreeNode H)) (commit : Commit H)
    (hkeys : KeysDiffer head path) (h : Accounted head path (s.1.byPath, s.2)) :
    Accounted head path ((compareDirs newer older head commit path s).1.byPath,
        (compareDirs newer older head commit path s).2) ∧
      (compareDirs newer older head commit path s).1.latest =
        s.1.latest.or (dirChange newer older commit) ∧
      ∀ n ∈ childNames head,
        (compareDirs newer older head commit path s).1.byPath.lookup (joinTreePath path n) =
          (s.1.byPath.lookup (joinTreePath path n)).or (entryChange newer older commit n) := by
  have hlatest : (compareDirs newer older head commit path s).1.latest =
      s.1.latest.or (dirChange newer older commit) := by
    rw [compareDirs, dirChange]
    rcases s.1.latest with _ | c
    · cases sameTreeHash newer older <;> simp
    · simp
  by_cases hleft : 0 < s.2
  · obtain ⟨hacc, hlookup⟩ := resolveEntries_spec newer older commit hkeys
      (List.Subset.refl (childNames head)) h
    rw [compareDirs, if_pos hleft]
    refine ⟨hacc, hlatest, ?_⟩
    intro n hn
    rw [resolveEntryCommits, hlookup n hn, if_pos hn]
  · refine ⟨?_, hlatest, ?_⟩
    · rw [compareDirs, if_neg hleft]
      exact h
    · intro n hn
      have hsome := h.lookup_isSome (Nat.eq_zero_of_not_pos hleft) hn
      rw [compareDirs, if_neg hleft, Option.or_of_isSome hsome]

/-- What has no commit yet is at the next commit as it was at the head. -/
structure Unsettled (newer : Option (TreeNode H)) (head : TreeNode H) (path : Str)
    (s : TreeHistory H × ℕ) : Prop where
  dir : s.1.latest = none → newer ≠ none
  entries : ∀ n ∈ childNames head, s.1.byPath.lookup (joinTreePath path n) = none →
    childEntryHash newer n ≠ none

theorem Unsettled.latest_eq (h : Unsettled newer head path s) :
    s.1.latest.or (dirChange newer older commit) = s.1.latest.or
      (if newer.map TreeNode.hash = older.map TreeNode.hash then none else some commit) := by
  rcases hlatest : s.1.latest with _ | c
  · rw [dirChange_eq (h.dir hlatest)]
  · rfl

theorem Unsettled.entry_eq (h : Unsettled newer head path s) {n : Str} (hn : n ∈ childNames head) :
    (s.1.byPath.lookup (joinTreePath path n)).or (entryChange newer older commit n) =
      (s.1.byPath.lookup (joinTreePath path n)).or
        (if childEntryHash newer n = childEntryHash older n then none else some commit) := by
  rcases hlookup : s.1.byPath.lookup (joinTreePath path n) with _ | c
  · rw [entryChange_eq (h.entries n hn hlookup)]
  · rfl

theorem Unsettled.next (older : Option (TreeNode H)) (commit : Commit H)
    (hkeys : KeysDiffer head path) (hacc : Accounted head path (s.1.byPath, s.2))
    (h : Unsettled newer head path s) :
    Unsettled older head path (compareDirs newer older head commit path s) := by
  obtain ⟨-, hlatest, hlookup⟩ := compareDirs_spec newer older commit hkeys hacc
  constructor
  · intro hnone
    rw [hlatest, Option.or_eq_none_iff] at hnone
    obtain ⟨hnone, hsame⟩ := hnone
    have hnewer := h.dir hnone
    rw [dirChange_eq hnewer] at hsame
    split at hsame
    next heq =>
      rintro rfl
      rw [Option.map_none, Option.map_eq_none_iff] at heq
      exact hnewer heq
    · cases hsame
  · intro n hn hnone
    rw [hlookup n hn, Option.or_eq_none_iff] at hnone
    obtain ⟨hnone, hsame⟩ := hnone
    have hnewer := h.entries n hn hnone
    rw [entryChange_eq hnewer] at hsame
    split at hsame
    next heq => rwa [← heq]
    · cases hsame

/-- The pass names for the directory and for each entry the last commit that
changed it. -/
theorem scanTreeHistory_spec {db : DB H} {id : ID} {chain : List (Commit H)}
    (hchain : FirstParentChain db id chain) (dirAt : ID → Except DomainError (Option (TreeNode H)))
    {dirs : Commit H → Option (TreeNode H)} (hdirs : ∀ c ∈ chain, dirAt c.id = .ok (dirs c))
    (hkeys : KeysDiffer head path) (hacc : Accounted head path (s.1.byPath, s.2))
    (hun : Unsettled (chain.head?.bind dirs) head path s) :
    ∃ history, scanTreeHistory dirAt head path (chain.head?.bind dirs) s chain = .ok history ∧
      history.latest =
        s.1.latest.or (lastChange (fun c => (dirs c).map TreeNode.hash) chain) ∧
      ∀ n ∈ childNames head, history.byPath.lookup (joinTreePath path n) =
        (s.1.byPath.lookup (joinTreePath path n)).or
          (lastChange (fun c => childEntryHash (dirs c) n) chain) := by
  induction hchain generalizing s with
  | @root c hc hparent =>
      obtain ⟨-, hlatest, hlookup⟩ := compareDirs_spec (dirs c) none c hkeys hacc
      refine ⟨_, by rw [scanTreeHistory, if_neg (by simp [hparent])], ?_, ?_⟩
      · refine hlatest.trans (hun.latest_eq.trans ?_)
        rw [lastChange_cons]
        exact congrArg _ (Option.or_none).symm
      · intro n hn
        refine (hlookup n hn).trans ((hun.entry_eq hn).trans ?_)
        rw [lastChange_cons]
        exact congrArg _ (Option.or_none).symm
  | @child c p older hc hparent hrest ih =>
      obtain ⟨-, c', older', rfl, -⟩ := hrest.linked
      have hnext : dirAt c'.id = .ok (dirs c') := hdirs c' (by simp)
      have hold : ∀ d ∈ c' :: older', dirAt d.id = .ok (dirs d) := fun d hd =>
        hdirs d (List.mem_cons_of_mem c hd)
      obtain ⟨hacc', hlatest, hlookup⟩ := compareDirs_spec (dirs c) (dirs c') c hkeys hacc
      have hun' := hun.next (dirs c') c hkeys hacc
      have hstep := hlatest.trans hun.latest_eq
      have hstep' := fun n hn => (hlookup n hn).trans (hun.entry_eq hn)
      rw [List.head?_cons, Option.bind_some, scanTreeHistory, hnext]
      simp only [bind, Except.bind]
      split
      next hdone =>
        -- nothing is left to name
        refine ⟨_, rfl, ?_, ?_⟩
        · rw [lastChange_cons, ← Option.or_assoc]
          refine (Option.or_of_isSome ?_).symm.trans (congrArg (Option.or · _) hstep)
          exact Option.isSome_iff_ne_none.mpr hdone.1
        · intro n hn
          rw [lastChange_cons, ← Option.or_assoc]
          refine (Option.or_of_isSome ?_).symm.trans (congrArg (Option.or · _) (hstep' n hn))
          exact hacc'.lookup_isSome hdone.2 hn
      next hmore =>
        obtain ⟨history, hscan, hdir, hentries⟩ := ih hold hacc' hun'
        refine ⟨history, hscan, ?_, ?_⟩
        · rw [lastChange_cons, ← Option.or_assoc, hdir]
          exact congrArg (Option.or · _) hstep
        · intro n hn
          rw [lastChange_cons, ← Option.or_assoc, hentries n hn]
          exact congrArg (Option.or · _) (hstep' n hn)

end Found

end Nipa
