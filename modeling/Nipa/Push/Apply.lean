import Nipa.Push.Builder
import Mathlib.Logic.Function.Basic

/-!
# Writing a built tree

A built tree is laid out as rows in breadth-first order, parents before their
children, and written in one transaction: tree rows, file rows, the commit, and
last the branch head.  Unique constraints are the only thing that can make the
inserts fail.  The logical row numbers of the builder are translated to real
ones as the rows go in.
-/

namespace Nipa

open Support

structure PushNodeRow (H : Type) where
  id : ID
  hash : H
  name : Str
  mode : ℕ
  parentID : Option ID
  deriving DecidableEq

structure PushFileRow (H : Type) where
  name : Str
  mode : ℕ
  sizeBytes : ℤ
  isBinary : Bool
  encoding : Str
  hash : H
  treeID : ID
  chunkHashes : List H
  deriving DecidableEq

structure ApplyPushRequest (H : Type) where
  projectID : ID
  branchID : ID
  commitID : ID
  commitHash : H
  parentID : Option ID
  parentID2 : Option ID
  userID : ID
  message : Str
  nodes : List (PushNodeRow H)
  files : List (PushFileRow H)
  deriving DecidableEq

section Layout

variable {H : Type}

mutual

/-- Everything `f` yields on a rebuilt directory and those below it. -/
def gather {α : Type} (f : PushTreeNode H → List α) : PushTreeNode H → List α
  | .mk i n m files children kept =>
      f (.mk i n m files children kept) ++ gatherAll f children

def gatherAll {α : Type} (f : PushTreeNode H → List α) : List (PushTreeNode H) → List α
  | [] => []
  | c :: cs => gather f c ++ gatherAll f cs

end

def nodeCount (n : PushTreeNode H) : ℕ :=
  (gather (fun _ => [()]) n).length

/-- The order in which the queue loop takes directories, each with the row
number of its parent.  Every round takes one directory, so the number of
directories is enough fuel. -/
def visitOrder : ℕ → List (Option ID × PushTreeNode H) → List (Option ID × PushTreeNode H)
  | 0, _ => []
  | _ + 1, [] => []
  | fuel + 1, (parent, n) :: queue =>
      (parent, n) :: visitOrder fuel (queue ++ n.children.map fun c => (some n.id, c))

/-- The file rows of one directory. -/
def fileRows (n : PushTreeNode H) : List (PushFileRow H) :=
  n.files.map fun f =>
    ⟨f.name, f.mode, f.sizeBytes, f.isBinary, f.encoding, f.hash, n.id, f.chunkHashes⟩

variable [HashScheme H]

/-- The row of a directory followed by the rows of its kept directories. -/
def nodeRows (e : Option ID × PushTreeNode H) : List (PushNodeRow H) :=
  ⟨e.2.id, finalize e.2, e.2.name, e.2.mode, e.1⟩ ::
    e.2.keepDirs.map fun k => ⟨k.id, k.hash, k.name, k.mode, some e.2.id⟩

def buildApplyRequest (commitID projectID branchID : ID) (parentID parent2ID : Option ID)
    (parentHashes : List H) (userID : ID) (message : Str) (root : PushTreeNode H) :
    ApplyPushRequest H :=
  let order := visitOrder (nodeCount root) [(none, root)]
  { projectID := projectID
    branchID := branchID
    commitID := commitID
    commitHash := commitHash (finalize root) parentHashes message
    parentID := parentID
    parentID2 := parent2ID
    userID := userID
    message := message
    nodes := order.flatMap nodeRows
    files := order.flatMap fun e => fileRows e.2 }

end Layout

section Transaction

variable {H : Type} [DecidableEq H] [HashScheme H]

def errRecordExists : DomainError := errConflict "record already exists" []

/-- The chunk a project holds under a hash. -/
def chunkFor (db : DB H) (projectID : ID) (h : H) : Option (Chunk H) :=
  if (projectID, h) ∈ db.projectChunkUploads then
    db.chunks.find? fun c => c.hash = h
  else none

/-- Fail with the first missing chunk, in file order. -/
def resolveChunks (db : DB H) (projectID : ID) (hashes : List H) :
    Except DomainError Unit :=
  match hashes.find? fun h => (chunkFor db projectID h).isNone with
  | none => .ok ()
  | some h => .error (errUser "missing chunk data for %s" [hashString h])

/-- The tree rows go in one by one; `nodeIDs` translates the numbers of those
already inserted. -/
def insertNodes : List (PushNodeRow H) → (ID → ID) → List (TreeRow H) →
    Except DomainError ((ID → ID) × List (TreeRow H))
  | [], nodeIDs, rows => .ok (nodeIDs, rows)
  | n :: ns, nodeIDs, rows => do
      let parent := n.parentID.map nodeIDs
      refuseIf (parent.isSome ∧ ∃ t ∈ rows, t.parentTreeID = parent ∧ t.name = n.name)
        errRecordExists
      let id := rows.length + 1
      insertNodes ns (Function.update nodeIDs n.id id)
        (rows ++ [⟨id, n.hash, n.name, n.mode, parent⟩])

/-- The stored form of a file row, with its chunk links resolved. -/
def storedFile (db : DB H) (projectID : ID) (f : PushFileRow H) : File H where
  name := f.name
  mode := f.mode
  sizeBytes := f.sizeBytes
  isBinary := f.isBinary
  encoding := f.encoding
  hash := f.hash
  chunks := f.chunkHashes.filterMap (chunkFor db projectID)

def insertFiles (db : DB H) (projectID : ID) (nodeIDs : ID → ID) :
    List (PushFileRow H) → List (FileRow H) → Except DomainError (List (FileRow H))
  | [], rows => .ok rows
  | f :: fs, rows => do
      refuseIf (∃ g ∈ rows, g.treeID = nodeIDs f.treeID ∧ g.file.name = f.name)
        errRecordExists
      insertFiles db projectID nodeIDs fs
        (rows ++ [⟨nodeIDs f.treeID, storedFile db projectID f⟩])

/-- Point a live branch at a commit, whatever it points at. -/
def branchUpdateCommit (branches : List Branch) (branchID commitID : ID) : List Branch :=
  branches.map fun b =>
    if b.id = branchID ∧ b.deleted = false then { b with commitID := some commitID } else b

def commitOf (req : ApplyPushRequest H) (treeID : ID) : Commit H where
  id := req.commitID
  hash := req.commitHash
  projectID := req.projectID
  treeID := treeID
  parent1ID := req.parentID
  parent2ID := req.parentID2
  userID := req.userID
  message := req.message

def applyPush (db : DB H) (req : ApplyPushRequest H) : Except DomainError (DB H) := do
  resolveChunks db req.projectID (req.files.flatMap PushFileRow.chunkHashes)
  let (nodeIDs, treeNodes) ← insertNodes req.nodes (fun _ => 0) db.treeNodes
  let first ← orError req.nodes.head? (errDatabase "push produced no tree nodes" [])
  let files ← insertFiles db req.projectID nodeIDs req.files db.files
  refuseIf (∃ c ∈ db.commits, c.id = req.commitID ∨ c.hash = req.commitHash)
    errRecordExists
  return { db with
    treeNodes := treeNodes
    files := files
    commits := db.commits ++ [commitOf req (nodeIDs first.id)]
    branches := branchUpdateCommit db.branches req.branchID req.commitID }

/-- Several commits in one transaction: all of them land or none. -/
def applyPushAll (db : DB H) : List (ApplyPushRequest H) → Except DomainError (DB H)
  | [] => .ok db
  | req :: reqs => do
      let db' ← applyPush db req
      applyPushAll db' reqs

end Transaction

/-! ## The layout lists every directory once -/

section Order

variable {H α : Type}

theorem gatherAll_eq_flatMap (f : PushTreeNode H → List α) (cs : List (PushTreeNode H)) :
    gatherAll f cs = cs.flatMap (gather f) := by
  induction cs with
  | nil => rw [gatherAll, List.flatMap_nil]
  | cons c cs ih => rw [gatherAll, List.flatMap_cons, ih]

theorem gather_eq (f : PushTreeNode H → List α) (n : PushTreeNode H) :
    gather f n = f n ++ n.children.flatMap (gather f) := by
  rcases n with ⟨i, nm, m, fs, cs, ks⟩
  rw [gather, gatherAll_eq_flatMap]
  rfl

theorem nodeCount_eq (n : PushTreeNode H) :
    nodeCount n = 1 + (n.children.map nodeCount).sum := by
  rw [nodeCount, gather_eq, List.length_append, List.length_flatMap]
  rfl

variable {fuel : ℕ} {queue : List (Option ID × PushTreeNode H)}

theorem nodeCount_queue_le {parent : Option ID} {n : PushTreeNode H}
    (hfuel : (((parent, n) :: queue).map fun e => nodeCount e.2).sum ≤ fuel + 1) :
    ((queue ++ n.children.map fun c => (some n.id, c)).map
      fun e => nodeCount e.2).sum ≤ fuel := by
  rw [List.map_cons, List.sum_cons] at hfuel
  have hn : nodeCount (parent, n).2 = 1 + (n.children.map nodeCount).sum := nodeCount_eq n
  rw [List.map_append, List.sum_append, List.map_map]
  have hmap : n.children.map ((fun e => nodeCount e.2) ∘ fun c => (some n.id, c)) =
      n.children.map nodeCount := rfl
  rw [hmap]
  omega

theorem visitOrder_perm (f : PushTreeNode H → List α)
    (hfuel : (queue.map fun e => nodeCount e.2).sum ≤ fuel) :
    List.Perm ((visitOrder fuel queue).flatMap fun e => f e.2)
      (queue.flatMap fun e => gather f e.2) := by
  induction fuel generalizing queue with
  | zero =>
      rcases queue with _ | ⟨e, queue⟩
      · rfl
      · rw [List.map_cons, List.sum_cons, nodeCount_eq] at hfuel
        omega
  | succ fuel ih =>
      rcases queue with _ | ⟨⟨parent, n⟩, queue⟩
      · rfl
      · rw [visitOrder, List.flatMap_cons, List.flatMap_cons, gather_eq, List.append_assoc]
        apply List.Perm.append_left
        refine (ih (nodeCount_queue_le hfuel)).trans ?_
        rw [List.flatMap_append, List.flatMap_map]
        exact List.perm_append_comm

variable {e : Option ID × PushTreeNode H}

theorem visitOrder_parents {pre : List (Option ID × PushTreeNode H)}
    {post : List (Option ID × PushTreeNode H)} (h : visitOrder fuel queue = pre ++ e :: post) :
    e ∈ queue ∨ ∃ e' ∈ pre, e.1 = some e'.2.id ∧ e.2 ∈ e'.2.children := by
  induction fuel generalizing queue pre with
  | zero => simp [visitOrder] at h
  | succ fuel ih =>
      rcases queue with _ | ⟨⟨parent, n⟩, queue⟩
      · simp [visitOrder] at h
      · rw [visitOrder] at h
        rcases pre with _ | ⟨e₀, pre⟩
        · obtain ⟨rfl, -⟩ := List.cons.inj h
          exact Or.inl (by simp)
        · obtain ⟨rfl, hrest⟩ := List.cons.inj h
          rcases ih hrest with hq | ⟨e', he', hpar⟩
          · rcases List.mem_append.mp hq with hq | hc
            · exact Or.inl (by simp [hq])
            · obtain ⟨c, hc, rfl⟩ := List.mem_map.mp hc
              exact Or.inr ⟨(parent, n), by simp, rfl, by simpa using hc⟩
          · exact Or.inr ⟨e', by simp [he'], hpar⟩

theorem mem_visitOrder_of_mem (hfuel : (queue.map fun e => nodeCount e.2).sum ≤ fuel)
    (he : e ∈ queue) : e ∈ visitOrder fuel queue := by
  induction fuel generalizing queue with
  | zero =>
      rcases queue with _ | ⟨e', queue⟩
      · simp at he
      · rw [List.map_cons, List.sum_cons, nodeCount_eq] at hfuel
        omega
  | succ fuel ih =>
      rcases queue with _ | ⟨⟨parent, n⟩, queue⟩
      · simp at he
      · rw [visitOrder]
        rcases List.mem_cons.mp he with rfl | he
        · simp
        · apply List.mem_cons_of_mem
          exact ih (nodeCount_queue_le hfuel) (by simp [he])

theorem visitOrder_children (hfuel : (queue.map fun e => nodeCount e.2).sum ≤ fuel)
    (he : e ∈ visitOrder fuel queue) {c : PushTreeNode H} (hc : c ∈ e.2.children) :
    (some e.2.id, c) ∈ visitOrder fuel queue := by
  induction fuel generalizing queue with
  | zero => simp [visitOrder] at he
  | succ fuel ih =>
      rcases queue with _ | ⟨⟨parent, n⟩, queue⟩
      · simp [visitOrder] at he
      · rw [visitOrder] at he ⊢
        apply List.mem_cons_of_mem
        rcases List.mem_cons.mp he with rfl | he
        · apply mem_visitOrder_of_mem (nodeCount_queue_le hfuel)
          simp [hc]
        · exact ih (nodeCount_queue_le hfuel) he

end Order

end Nipa
