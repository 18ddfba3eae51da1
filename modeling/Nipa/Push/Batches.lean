import Nipa.Push.ApplySpec
import Nipa.Support.Attempts
import Nipa.Support.Cutting

/-!
# Writing the files of a push in batches

The files of a push go in with a few bulk statements: chunk lookups, file rows
and chunk links are cut into batches of three sizes.  File row numbers come back
keyed by tree and name and are put together again for the links.  What is
written does not depend on the sizes.
-/

namespace Nipa

open Support

/-! ## The tables -/

/-- A row of `files`. -/
structure FileRecord (H : Type) where
  id : ID
  treeID : ID
  name : Str
  mode : ℕ
  hash : H
  sizeBytes : ℤ
  isBinary : Bool
  encoding : Str

/-- A row of `file_chunks`. -/
structure FileChunk where
  fileID : ID
  chunkID : ID
  chunkIndex : ℕ
  deriving DecidableEq

/-- The tables a push reads and writes; chunk rows carry their number. -/
structure PushTables (H : Type) where
  treeNodes : List (TreeRow H)
  chunks : List (ID × Chunk H)
  projectChunkUploads : List (ID × H)
  files : List (FileRecord H)
  /-- The number given to a file row last. -/
  lastFileID : ℕ
  fileChunks : List FileChunk
  commits : List (Commit H)
  branches : List Branch

/-- The three batch sizes. -/
structure BatchSizes where
  lookup : ℕ
  file : ℕ
  link : ℕ
  lookup_pos : 0 < lookup
  file_pos : 0 < file
  link_pos : 0 < link

/-- The sizes outside tests. -/
def batchSizes : BatchSizes := ⟨500, 5000, 20000, by decide, by decide, by decide⟩

section Statements

variable {H : Type} [DecidableEq H]

abbrev PushTx (H α : Type) := Attempt (PushTables H) DomainError α

/-- The chunks a project holds, for the hashes that exist. -/
def chunkListByHashesForProject (t : PushTables H) (projectID : ID) (hashes : List H) :
    List (ID × H) :=
  (t.chunks.filter fun c => c.2.hash ∈ hashes ∧
    (projectID, c.2.hash) ∈ t.projectChunkUploads).map fun c => (c.1, c.2.hash)

/-- A file is known by its directory and its name. -/
def FileRecord.key (r : FileRecord H) : ID × Str := (r.treeID, r.name)

/-- The file in its real directory. -/
def PushFileRow.inNode (nodeIDs : ID → ID) (f : PushFileRow H) : PushFileRow H :=
  { f with treeID := nodeIDs f.treeID }

def PushFileRow.key (f : PushFileRow H) : ID × Str := (f.treeID, f.name)

def recordOf (id : ID) (f : PushFileRow H) : FileRecord H where
  id := id
  treeID := f.treeID
  name := f.name
  mode := f.mode
  hash := f.hash
  sizeBytes := f.sizeBytes
  isBinary := f.isBinary
  encoding := f.encoding

/-- The rows made for files, numbered on from the last number given out. -/
def recordsFrom (last : ℕ) (rows : List (PushFileRow H)) : List (FileRecord H) :=
  rows.mapIdx fun i f => recordOf (last + 1 + i) f

/-- `UNIQUE(tree_id, name)` refuses the rows. -/
def Clashes (t : PushTables H) (rows : List (PushFileRow H)) : Prop :=
  ¬ (rows.map PushFileRow.key).Nodup ∨ ∃ f ∈ rows, f.key ∈ t.files.map FileRecord.key

instance (t : PushTables H) (rows : List (PushFileRow H)) : Decidable (Clashes t rows) :=
  inferInstanceAs (Decidable (_ ∨ _))

/-- The statement returns each new row number with the row's key. -/
def fileInsertMany (rows : List (PushFileRow H)) : PushTx H (List (ID × ID × Str)) := do
  let t ← Attempt.get
  Attempt.lift (refuseIf (Clashes t rows) errRecordExists)
  let records := recordsFrom t.lastFileID rows
  Attempt.modify fun t =>
    { t with files := t.files ++ records, lastFileID := t.lastFileID + rows.length }
  return records.map fun r => (r.id, r.key)

/-- `ON CONFLICT (file_id, chunk_index) DO UPDATE SET chunk_id`. -/
def upsertLink (links : List FileChunk) (l : FileChunk) : List FileChunk :=
  if links.any fun l' => l'.fileID = l.fileID ∧ l'.chunkIndex = l.chunkIndex then
    links.map fun l' => if l'.fileID = l.fileID ∧ l'.chunkIndex = l.chunkIndex then
      { l' with chunkID := l.chunkID } else l'
  else links ++ [l]

def fileChunkInsertMany (links : List FileChunk) : PushTx H Unit :=
  Attempt.modify fun t => { t with fileChunks := links.foldl upsertLink t.fileChunks }

/-! ## The batched code -/

/-- The hashes the files reference, each once, in file order. -/
def distinctHashes (files : List (PushFileRow H)) : List H :=
  (files.flatMap PushFileRow.chunkHashes).foldl
    (fun distinct hash => if hash ∈ distinct then distinct else distinct ++ [hash]) []

/-- Store the rows found in the map of chunk numbers. -/
def storeFound (found : List (ID × H)) (ids : H → Option ID) : H → Option ID :=
  found.foldl (fun ids row => Function.update ids row.2 (some row.1)) ids

variable [HashScheme H]

def errMissingChunk (hash : H) : DomainError :=
  errUser "missing chunk data for %s" [hashString hash]

/-- `ResolveChunks`. -/
def lookupChunks (b : BatchSizes) (projectID : ID) (files : List (PushFileRow H)) :
    PushTx H (H → Option ID) := do
  let ids ← ((Cutter.every b.lookup b.lookup_pos).pieces (distinctHashes files)).foldlM
    (fun (ids : H → Option ID) part => do
      let t ← Attempt.get
      return storeFound (chunkListByHashesForProject t projectID part) ids)
    fun _ => none
  match (files.flatMap PushFileRow.chunkHashes).find? fun hash => (ids hash).isNone with
  | some hash => Attempt.lift (.error (errMissingChunk hash))
  | none => return ids

/-- The number returned for a key; a later row wins. -/
def idOf (returned : List (ID × ID × Str)) (key : ID × Str) : Option ID :=
  (returned.reverse.find? fun row => row.2 = key).map Prod.fst

/-- One batch of file rows. -/
def insertFileBatch (nodeIDs : ID → ID) (fileIDs : List ID) (part : List (PushFileRow H)) :
    PushTx H (List ID) := do
  let rows := part.map fun f => f.inNode nodeIDs
  let returned ← fileInsertMany rows
  let new ← Attempt.lift (rows.mapM fun f => orError (idOf returned f.key)
    (errDatabase "inserted file %q was not returned" [f.name]))
  return fileIDs ++ new

/-- The links of the files in order. -/
def linksOf (chunkIDs : H → Option ID) (files : List (PushFileRow H)) (fileIDs : List ID) :
    List FileChunk :=
  (files.zip fileIDs).flatMap fun e => e.1.chunkHashes.mapIdx fun index hash =>
    ⟨e.2, (chunkIDs hash).getD 0, index⟩

def flushLinks (links : List FileChunk) : PushTx H Unit :=
  if links = [] then return () else fileChunkInsertMany links

/-- Put a link into the buffer and write the buffer when it is full. -/
def bufferLink (b : BatchSizes) (links : List FileChunk) (l : FileChunk) :
    PushTx H (List FileChunk) :=
  let links := links ++ [l]
  if b.link ≤ links.length then do
    flushLinks links
    return []
  else return links

/-- `InsertFiles`. -/
def insertFileBatches (b : BatchSizes) (files : List (PushFileRow H)) (nodeIDs : ID → ID)
    (chunkIDs : H → Option ID) : PushTx H Unit := do
  let fileIDs ← ((Cutter.every b.file b.file_pos).pieces files).foldlM (insertFileBatch nodeIDs) []
  let links ← (linksOf chunkIDs files fileIDs).foldlM (bufferLink b) []
  flushLinks links

/-- The tree rows of a push.  Rows inserted before one that fails are left out: the
transaction is undone then. -/
def insertTreeNodes (nodes : List (PushNodeRow H)) : PushTx H (ID → ID) := do
  let t ← Attempt.get
  let (nodeIDs, rows) ← Attempt.lift (insertNodes nodes (fun _ => 0) t.treeNodes)
  Attempt.modify fun t => { t with treeNodes := rows }
  return nodeIDs

/-- The commit row and the branch head, written last. -/
def insertCommit (req : ApplyPushRequest H) (rootID : ID) : PushTx H Unit := do
  let t ← Attempt.get
  Attempt.lift (refuseIf (∃ c ∈ t.commits, c.id = req.commitID ∨ c.hash = req.commitHash)
    errRecordExists)
  Attempt.modify fun t =>
    { t with
      commits := t.commits ++ [commitOf req rootID]
      branches := branchUpdateCommit t.branches req.branchID req.commitID }

/-- `applyPush` of the repository, on the tables. -/
def applyPushTx (b : BatchSizes) (req : ApplyPushRequest H) : PushTx H Unit := do
  let chunkIDs ← lookupChunks b req.projectID req.files
  let nodeIDs ← insertTreeNodes req.nodes
  let first ← Attempt.lift
    (orError req.nodes.head? (errDatabase "push produced no tree nodes" []))
  insertFileBatches b req.files nodeIDs chunkIDs
  insertCommit req (nodeIDs first.id)

end Statements

/-! ## Chunk lookups -/

section Lookup

variable {H : Type} [DecidableEq H]

theorem mem_foldl_distinct {hashes distinct : List H} {h : H} :
    h ∈ hashes.foldl (fun distinct hash =>
        if hash ∈ distinct then distinct else distinct ++ [hash]) distinct ↔
      h ∈ distinct ∨ h ∈ hashes := by
  induction hashes generalizing distinct with
  | nil => simp
  | cons hash hashes ih =>
      rw [List.foldl_cons, ih]
      by_cases hmem : hash ∈ distinct
      · rw [if_pos hmem, List.mem_cons]
        constructor
        · exact fun hor => hor.imp_right Or.inr
        · intro hor
          rcases hor with hold | heq | hrest
          · exact Or.inl hold
          · exact Or.inl (heq ▸ hmem)
          · exact Or.inr hrest
      · rw [if_neg hmem, List.mem_append, List.mem_singleton, List.mem_cons, or_assoc]

theorem mem_distinctHashes {files : List (PushFileRow H)} {h : H} :
    h ∈ distinctHashes files ↔ h ∈ files.flatMap PushFileRow.chunkHashes := by
  rw [distinctHashes, mem_foldl_distinct]
  simp

/-- The number of the chunk a project holds under a hash. -/
def chunkRow (t : PushTables H) (projectID : ID) (h : H) : Option ID :=
  if (projectID, h) ∈ t.projectChunkUploads then
    (t.chunks.reverse.find? fun c => c.2.hash = h).map Prod.fst
  else none

theorem storeFound_apply (found : List (ID × H)) (ids : H → Option ID) (h : H) :
    storeFound found ids h
      = ((found.reverse.find? fun row => row.2 = h).map Prod.fst).or (ids h) := by
  induction found generalizing ids with
  | nil => rfl
  | cons row found ih =>
      change storeFound found (Function.update ids row.2 (some row.1)) h = _
      rw [ih, List.reverse_cons, List.find?_append]
      cases found.reverse.find? fun row => row.2 = h with
      | some r => rfl
      | none =>
          by_cases hrow : row.2 = h
          · subst hrow
            simp
          · simp [Function.update_of_ne (Ne.symm hrow), hrow]

theorem storeFound_chunkList (t : PushTables H) (projectID : ID) (part : List H)
    (ids : H → Option ID) (h : H) :
    storeFound (chunkListByHashesForProject t projectID part) ids h
      = if h ∈ part then (chunkRow t projectID h).or (ids h) else ids h := by
  have hfind : ((chunkListByHashesForProject t projectID part).reverse.find?
        fun row => row.2 = h).map Prod.fst
      = if h ∈ part then chunkRow t projectID h else none := by
    rw [chunkListByHashesForProject, ← List.map_reverse, ← List.filter_reverse,
      List.find?_map, List.find?_filter, Option.map_map]
    change (t.chunks.reverse.find? fun c =>
      decide (decide (c.2.hash ∈ part ∧ (projectID, c.2.hash) ∈ t.projectChunkUploads) = true ∧
        decide (c.2.hash = h) = true)).map Prod.fst = _
    rw [chunkRow, ← ite_and]
    split
    next hheld =>
      congr 1
      refine find?_congr_mem fun c _ => ?_
      by_cases hc : c.2.hash = h
      · subst hc
        simp [hheld.1, hheld.2]
      · simp [hc]
    next hnot =>
      rw [Option.map_eq_none_iff, List.find?_eq_none]
      intro c _
      rw [decide_eq_true_eq, decide_eq_true_eq, decide_eq_true_eq]
      exact fun hc => hnot (hc.2 ▸ hc.1)
  rw [storeFound_apply, hfind]
  split
  · rfl
  · rfl

theorem run_lookups (projectID : ID) (parts : List (List H)) (ids : H → Option ID)
    (t : PushTables H) :
    ∃ ids', (parts.foldlM (fun (ids : H → Option ID) part => do
        let t ← Attempt.get
        return storeFound (chunkListByHashesForProject t projectID part) ids)
        ids : PushTx H (H → Option ID)).run t = (.ok ids', t) ∧
      ∀ h, ids' h = if h ∈ parts.flatten then (chunkRow t projectID h).or (ids h) else ids h := by
  induction parts generalizing ids with
  | nil => exact ⟨ids, rfl, fun h => by simp⟩
  | cons part parts ih =>
      obtain ⟨ids', hrun, hids⟩ :=
        ih (storeFound (chunkListByHashesForProject t projectID part) ids)
      refine ⟨ids', hrun, fun h => ?_⟩
      rw [hids h, storeFound_chunkList, List.flatten_cons]
      by_cases hpart : h ∈ part
      · by_cases hrest : h ∈ parts.flatten
        · rw [if_pos hrest, if_pos hpart, if_pos (List.mem_append_left _ hpart)]
          cases chunkRow t projectID h with
          | none => rfl
          | some id => rfl
        · rw [if_neg hrest, if_pos hpart, if_pos (List.mem_append_left _ hpart)]
      · simp [hpart]

variable [HashScheme H]

/-- Whatever the size of a lookup, the first hash in file order without a chunk is
reported, and nothing is written. -/
theorem run_lookupChunks (b : BatchSizes) (projectID : ID) (files : List (PushFileRow H))
    (t : PushTables H) :
    ∃ ids, (∀ h ∈ files.flatMap PushFileRow.chunkHashes, ids h = chunkRow t projectID h) ∧
      (lookupChunks b projectID files).run t
        = match (files.flatMap PushFileRow.chunkHashes).find?
            fun h => (chunkRow t projectID h).isNone with
          | some h => (.error (errMissingChunk h), t)
          | none => (.ok ids, t) := by
  obtain ⟨ids, hrun, hids⟩ := run_lookups projectID
    ((Cutter.every b.lookup b.lookup_pos).pieces (distinctHashes files)) (fun _ => none) t
  rw [Cutter.pieces_flatten] at hids
  have hall : ∀ h ∈ files.flatMap PushFileRow.chunkHashes, ids h = chunkRow t projectID h := by
    intro h hh
    rw [hids h, if_pos (mem_distinctHashes.mpr hh), Option.or_none]
  refine ⟨ids, hall, ?_⟩
  have hfind : ((files.flatMap PushFileRow.chunkHashes).find? fun h => (ids h).isNone)
      = (files.flatMap PushFileRow.chunkHashes).find? fun h => (chunkRow t projectID h).isNone :=
    find?_congr_mem fun h hh => by rw [hall h hh]
  rw [lookupChunks, Attempt.run_bind_of_ok hrun, hfind]
  cases (files.flatMap PushFileRow.chunkHashes).find?
      fun h => (chunkRow t projectID h).isNone with
  | some h => rfl
  | none => rfl

end Lookup

/-! ## File rows -/

section Files

variable {H : Type}

theorem recordsFrom_append (last : ℕ) (rows rows' : List (PushFileRow H)) :
    recordsFrom last (rows ++ rows')
      = recordsFrom last rows ++ recordsFrom (last + rows.length) rows' := by
  rw [recordsFrom, List.mapIdx_append, recordsFrom, recordsFrom]
  congr 2
  funext i f
  rw [show last + 1 + (i + rows.length) = last + rows.length + 1 + i by omega]

theorem recordsFrom_cons (last : ℕ) (f : PushFileRow H) (rows : List (PushFileRow H)) :
    recordsFrom last (f :: rows) = recordOf (last + 1) f :: recordsFrom (last + 1) rows :=
  recordsFrom_append last [f] rows

theorem map_key_recordsFrom (last : ℕ) (rows : List (PushFileRow H)) :
    (recordsFrom last rows).map FileRecord.key = rows.map PushFileRow.key := by
  induction rows generalizing last with
  | nil => rfl
  | cons f rows ih =>
      rw [recordsFrom_cons, List.map_cons, List.map_cons, ih]
      rfl

theorem map_id_recordsFrom (last : ℕ) (rows : List (PushFileRow H)) :
    (recordsFrom last rows).map FileRecord.id = List.range' (last + 1) rows.length := by
  induction rows generalizing last with
  | nil => rfl
  | cons f rows ih =>
      rw [recordsFrom_cons, List.map_cons, ih, List.length_cons, List.range'_succ]
      rfl

theorem mapM_idOf {rows : List (PushFileRow H)} (h : (rows.map PushFileRow.key).Nodup)
    (last : ℕ) (err : PushFileRow H → DomainError) :
    rows.mapM (fun f => orError (idOf ((recordsFrom last rows).map fun r => (r.id, r.key)) f.key)
      (err f)) = .ok ((recordsFrom last rows).map FileRecord.id) := by
  have hfound : List.Forall₂ (fun f (r : FileRecord H) =>
      idOf ((recordsFrom last rows).map fun r => (r.id, r.key)) f.key = some r.id)
      rows (recordsFrom last rows) := by
    rw [List.forall₂_iff_get]
    refine ⟨by simp [recordsFrom], fun i hi hi' => ?_⟩
    have hkey : (rows.get ⟨i, hi⟩).key = ((recordsFrom last rows).get ⟨i, hi'⟩).key := by
      simp [recordsFrom, PushFileRow.key, FileRecord.key, recordOf]
    have hmem := List.get_mem (recordsFrom last rows) ⟨i, hi'⟩
    have hnodup : ((((recordsFrom last rows).map fun r => (r.id, r.key)).reverse).map
        Prod.snd).Nodup := by
      rw [List.map_reverse, List.nodup_reverse, List.map_map]
      change ((recordsFrom last rows).map FileRecord.key).Nodup
      rwa [map_key_recordsFrom]
    rw [idOf, (find?_key_eq_some_iff hnodup).mpr
      ⟨List.mem_reverse.mpr (List.mem_map_of_mem hmem), hkey.symm⟩]
    rfl
  generalize (recordsFrom last rows).map (fun r => (r.id, r.key)) = returned at hfound
  generalize recordsFrom last rows = records at hfound
  clear h
  induction hfound with
  | nil => rfl
  | cons hid _ ih =>
      rw [List.mapM_cons, hid, ih]
      rfl

/-- The tables after rows went into `files`. -/
def PushTables.withRows (t : PushTables H) (rows : List (PushFileRow H)) : PushTables H :=
  { t with
    files := t.files ++ recordsFrom t.lastFileID rows
    lastFileID := t.lastFileID + rows.length }

theorem PushTables.withRows_append (t : PushTables H) (rows rows' : List (PushFileRow H)) :
    t.withRows (rows ++ rows') = (t.withRows rows).withRows rows' := by
  unfold withRows
  rw [recordsFrom_append, List.length_append, List.append_assoc, Nat.add_assoc]

theorem clashes_append {t : PushTables H} {rows : List (PushFileRow H)}
    (h : ¬ Clashes t rows) (rows' : List (PushFileRow H)) :
    Clashes t (rows ++ rows') ↔ Clashes (t.withRows rows) rows' := by
  rw [Clashes, not_or, not_not] at h
  obtain ⟨hnodup, hnew⟩ := h
  have hkeys : (t.withRows rows).files.map FileRecord.key
      = t.files.map FileRecord.key ++ rows.map PushFileRow.key := by
    rw [PushTables.withRows, List.map_append, map_key_recordsFrom]
  unfold Clashes
  rw [hkeys, List.map_append, List.nodup_append]
  constructor
  · intro hclash
    cases hclash with
    | inl hdup =>
        by_contra hnone
        rw [not_or, not_not] at hnone
        refine hdup ⟨hnodup, hnone.1, fun k hk k' hk' heq => ?_⟩
        obtain ⟨f, hf, rfl⟩ := List.mem_map.mp hk'
        exact hnone.2 ⟨f, hf, List.mem_append_right _ (heq ▸ hk)⟩
    | inr hold =>
        obtain ⟨f, hf, hk⟩ := hold
        cases List.mem_append.mp hf with
        | inl hfirst => exact absurd ⟨f, hfirst, hk⟩ hnew
        | inr hrest => exact Or.inr ⟨f, hrest, List.mem_append_left _ hk⟩
  · intro hclash
    cases hclash with
    | inl hdup => exact Or.inl fun hall => hdup hall.2.1
    | inr hold =>
        obtain ⟨f, hf, hk⟩ := hold
        cases List.mem_append.mp hk with
        | inl htable => exact Or.inr ⟨f, List.mem_append_right _ hf, htable⟩
        | inr hrow =>
            exact Or.inl fun hall =>
              hall.2.2 _ hrow _ (List.mem_map_of_mem hf) rfl

theorem outcome_fileInsertMany (rows : List (PushFileRow H)) (t : PushTables H) :
    (fileInsertMany rows).outcome t
      = (refuseIf (Clashes t rows) errRecordExists).map fun _ =>
          ((recordsFrom t.lastFileID rows).map fun r => (r.id, r.key), t.withRows rows) := by
  unfold fileInsertMany
  rw [Attempt.outcome_bind, Attempt.outcome_get]
  change Attempt.outcome _ t = _
  rw [Attempt.outcome_bind, Attempt.outcome_lift]
  unfold refuseIf
  split
  · rfl
  · rfl

theorem outcome_insertFileBatch (nodeIDs : ID → ID) (fileIDs : List ID)
    (part : List (PushFileRow H)) (t : PushTables H) :
    (insertFileBatch nodeIDs fileIDs part).outcome t
      = (refuseIf (Clashes t (part.map fun f => f.inNode nodeIDs)) errRecordExists).map fun _ =>
          (fileIDs ++ (recordsFrom t.lastFileID (part.map fun f => f.inNode nodeIDs)).map
            FileRecord.id, t.withRows (part.map fun f => f.inNode nodeIDs)) := by
  unfold insertFileBatch
  rw [Attempt.outcome_bind, outcome_fileInsertMany]
  by_cases hclash : Clashes t (part.map fun f => f.inNode nodeIDs)
  · rw [refuseIf, if_pos hclash]
    rfl
  · have hnodup : ((part.map fun f => f.inNode nodeIDs).map PushFileRow.key).Nodup := by
      rw [Clashes, not_or, not_not] at hclash
      exact hclash.1
    rw [refuseIf, if_neg hclash]
    change Attempt.outcome _ _ = _
    rw [Attempt.outcome_bind, Attempt.outcome_lift, mapM_idOf hnodup]
    rfl

theorem outcome_insertFileBatch_foldlM (nodeIDs : ID → ID) (parts : List (List (PushFileRow H)))
    (fileIDs : List ID) (t : PushTables H) :
    (parts.foldlM (insertFileBatch nodeIDs) fileIDs).outcome t
      = (refuseIf (Clashes t (parts.flatten.map fun f => f.inNode nodeIDs))
          errRecordExists).map fun _ =>
            (fileIDs ++ (recordsFrom t.lastFileID
              (parts.flatten.map fun f => f.inNode nodeIDs)).map FileRecord.id,
              t.withRows (parts.flatten.map fun f => f.inNode nodeIDs)) := by
  induction parts generalizing fileIDs t with
  | nil =>
      have hnone : ¬ Clashes t ([] : List (PushFileRow H)) := by simp [Clashes]
      rw [List.foldlM_nil, List.flatten_nil, List.map_nil, refuseIf, if_neg hnone]
      simp [recordsFrom, PushTables.withRows, Except.map]
  | cons part parts ih =>
      rw [List.foldlM_cons, Attempt.outcome_bind, outcome_insertFileBatch, List.flatten_cons,
        List.map_append]
      by_cases hclash : Clashes t (part.map fun f => f.inNode nodeIDs)
      · have hall : Clashes t ((part.map fun f => f.inNode nodeIDs)
            ++ parts.flatten.map fun f => f.inNode nodeIDs) := by
          by_contra hnone
          rw [Clashes, not_or, not_not, List.map_append, List.nodup_append] at hnone
          cases hclash with
          | inl hdup => exact hdup hnone.1.1
          | inr hold =>
              obtain ⟨f, hf, hk⟩ := hold
              exact hnone.2 ⟨f, List.mem_append_left _ hf, hk⟩
        rw [refuseIf, if_pos hclash, refuseIf, if_pos hall]
        rfl
      · rw [refuseIf, if_neg hclash]
        change Attempt.outcome _ _ = _
        rw [ih, PushTables.withRows_append, recordsFrom_append, List.map_append, List.append_assoc]
        have hiff := clashes_append hclash (parts.flatten.map fun f => f.inNode nodeIDs)
        unfold refuseIf
        simp only [hiff]
        rfl

end Files

/-! ## Links -/

section Links

variable {H : Type}

/-- The tables after links went into `file_chunks`. -/
def PushTables.withLinks (t : PushTables H) (links : List FileChunk) : PushTables H :=
  { t with fileChunks := links.foldl upsertLink t.fileChunks }

theorem PushTables.withLinks_append (t : PushTables H) (links links' : List FileChunk) :
    t.withLinks (links ++ links') = (t.withLinks links).withLinks links' := by
  unfold withLinks
  rw [List.foldl_append]

theorem outcome_flushLinks (links : List FileChunk) (t : PushTables H) :
    (flushLinks links).outcome t = .ok ((), t.withLinks links) := by
  unfold flushLinks
  split
  next hnil =>
    rw [hnil]
    rfl
  · rfl

theorem outcome_bufferLink (b : BatchSizes) (buffer : List FileChunk) (l : FileChunk)
    (t : PushTables H) :
    (bufferLink b buffer l).outcome t
      = if b.link ≤ (buffer ++ [l]).length then .ok ([], t.withLinks (buffer ++ [l]))
        else .ok (buffer ++ [l], t) := by
  unfold bufferLink
  dsimp only
  split
  · rw [Attempt.outcome_bind, outcome_flushLinks]
    rfl
  · rfl

theorem outcome_bufferLinks (b : BatchSizes) (links buffer : List FileChunk)
    (t : PushTables H) :
    (links.foldlM (bufferLink b) buffer >>= flushLinks : PushTx H Unit).outcome t
      = .ok ((), t.withLinks (buffer ++ links)) := by
  rw [Attempt.outcome_bind]
  induction links generalizing buffer t with
  | nil =>
      rw [List.append_nil]
      exact outcome_flushLinks buffer t
  | cons l links ih =>
      rw [List.foldlM_cons, Attempt.outcome_bind, outcome_bufferLink]
      split
      · refine (ih [] (t.withLinks (buffer ++ [l]))).trans ?_
        rw [List.nil_append, ← PushTables.withLinks_append, List.append_assoc,
          List.singleton_append]
      · refine (ih (buffer ++ [l]) t).trans ?_
        rw [List.append_assoc, List.singleton_append]

/-- A link is known by its file and its index. -/
def FileChunk.key (l : FileChunk) : ID × ℕ := (l.fileID, l.chunkIndex)

theorem foldl_upsertLink_eq_append {links new : List FileChunk}
    (hnodup : (new.map FileChunk.key).Nodup)
    (hnew : ∀ l ∈ new, l.key ∉ links.map FileChunk.key) :
    new.foldl upsertLink links = links ++ new := by
  induction new generalizing links with
  | nil => simp
  | cons l new ih =>
      rw [List.map_cons, List.nodup_cons] at hnodup
      have hone : upsertLink links l = links ++ [l] := by
        unfold upsertLink
        rw [if_neg]
        rw [List.any_eq_true]
        rintro ⟨l', hl', hkey⟩
        rw [decide_eq_true_eq] at hkey
        refine hnew l List.mem_cons_self (List.mem_map.mpr ⟨l', hl', ?_⟩)
        exact Prod.ext hkey.1 hkey.2
      rw [List.foldl_cons, hone, ih hnodup.2, List.append_assoc, List.singleton_append]
      intro l' hl' hkey
      rw [List.map_append, List.mem_append] at hkey
      cases hkey with
      | inl hold => exact hnew l' (List.mem_cons_of_mem l hl') hold
      | inr heq =>
          rw [List.map_singleton, List.mem_singleton] at heq
          exact hnodup.1 (heq ▸ List.mem_map_of_mem hl')

end Links

/-! ## The push as one statement -/

section AtOnce

variable {H : Type} [DecidableEq H]

/-- The links of files whose rows are numbered on from `last`: one for each position of
each chunk list, to the row of its own file. -/
def linksFrom (chunkIDs : H → Option ID) (last : ℕ) (files : List (PushFileRow H)) :
    List FileChunk :=
  (files.mapIdx fun i f => f.chunkHashes.mapIdx fun index hash =>
    ⟨last + 1 + i, (chunkIDs hash).getD 0, index⟩).flatten

variable [HashScheme H]

/-- What a push does, with no batches: every chunk is looked up first, and all files
and all links go in at once. -/
def applyPushAtOnce (t : PushTables H) (req : ApplyPushRequest H) :
    Except DomainError (PushTables H) := do
  match (req.files.flatMap PushFileRow.chunkHashes).find?
      fun hash => (chunkRow t req.projectID hash).isNone with
  | some hash => .error (errMissingChunk hash)
  | none => do
      let (nodeIDs, treeNodes) ← insertNodes req.nodes (fun _ => 0) t.treeNodes
      let first ← orError req.nodes.head? (errDatabase "push produced no tree nodes" [])
      let rows := req.files.map fun f => f.inNode nodeIDs
      refuseIf (Clashes t rows) errRecordExists
      refuseIf (∃ c ∈ t.commits, c.id = req.commitID ∨ c.hash = req.commitHash) errRecordExists
      return { t with
        treeNodes := treeNodes
        files := t.files ++ recordsFrom t.lastFileID rows
        lastFileID := t.lastFileID + rows.length
        fileChunks := t.fileChunks ++
          linksFrom (chunkRow t req.projectID) t.lastFileID req.files
        commits := t.commits ++ [commitOf req (nodeIDs first.id)]
        branches := branchUpdateCommit t.branches req.branchID req.commitID }

/-- File rows are numbered up to the last number given out, links belong to file rows and
files to tree rows. -/
structure PushTables.Sound (t : PushTables H) : Prop where
  link_le : ∀ l ∈ t.fileChunks, l.fileID ≤ t.lastFileID
  file_le : ∀ r ∈ t.files, r.id ≤ t.lastFileID
  tree_le : ∀ r ∈ t.files, r.treeID ≤ t.treeNodes.length

omit [DecidableEq H] [HashScheme H] in
theorem insertNodes_le {ns : List (PushNodeRow H)} {m m' : ID → ID} {rows rows' : List (TreeRow H)}
    (h : insertNodes ns m rows = .ok (m', rows')) (hm : ∀ x, m x ≤ rows.length) :
    ∀ x, m' x ≤ rows'.length := by
  induction ns generalizing m rows with
  | nil =>
      obtain ⟨rfl, rfl⟩ := Prod.mk.inj (Except.ok.inj h)
      exact hm
  | cons n ns ih =>
      rw [insertNodes] at h
      simp only [bind_eq_ok, refuseIf_eq_ok] at h
      obtain ⟨_, -, hrest⟩ := h
      refine ih hrest fun x => ?_
      rw [List.length_append, List.length_singleton]
      by_cases hx : x = n.id
      · subst hx
        rw [Function.update_self]
      · rw [Function.update_of_ne hx]
        exact Nat.le_succ_of_le (hm x)

omit [DecidableEq H] [HashScheme H] in
theorem insertNodes_length_le {ns : List (PushNodeRow H)} {m m' : ID → ID}
    {rows rows' : List (TreeRow H)} (h : insertNodes ns m rows = .ok (m', rows')) :
    rows.length ≤ rows'.length := by
  induction ns generalizing m rows with
  | nil => exact (congrArg (fun r => r.2.length) (Except.ok.inj h)).le
  | cons n ns ih =>
      rw [insertNodes] at h
      simp only [bind_eq_ok, refuseIf_eq_ok] at h
      obtain ⟨_, -, hrest⟩ := h
      have hle := ih hrest
      rw [List.length_append] at hle
      omega

omit [DecidableEq H] [HashScheme H] in
theorem linksFrom_cons (chunkIDs : H → Option ID) (last : ℕ) (f : PushFileRow H)
    (files : List (PushFileRow H)) :
    linksFrom chunkIDs last (f :: files)
      = (f.chunkHashes.mapIdx fun index hash =>
          (⟨last + 1, (chunkIDs hash).getD 0, index⟩ : FileChunk))
        ++ linksFrom chunkIDs (last + 1) files := by
  rw [linksFrom, List.mapIdx_cons, List.flatten_cons, linksFrom]
  congr 3
  funext i f
  rw [show last + 1 + (i + 1) = last + 1 + 1 + i by omega]

variable {chunkIDs : H → Option ID}

omit [DecidableEq H] [HashScheme H] in
theorem linksOf_eq {chunkIDs' : H → Option ID} {files : List (PushFileRow H)}
    (h : ∀ hash ∈ files.flatMap PushFileRow.chunkHashes, chunkIDs hash = chunkIDs' hash)
    (last : ℕ) :
    linksOf chunkIDs files (List.range' (last + 1) files.length)
      = linksFrom chunkIDs' last files := by
  induction files generalizing last with
  | nil => rfl
  | cons f files ih =>
      have hrest : ∀ hash ∈ files.flatMap PushFileRow.chunkHashes,
          chunkIDs hash = chunkIDs' hash := fun hash hh => h hash (by
        rw [List.flatMap_cons]
        exact List.mem_append_right _ hh)
      rw [linksFrom_cons, ← ih hrest, List.length_cons, List.range'_succ, linksOf,
        List.zip_cons_cons, List.flatMap_cons, linksOf]
      congr 1
      apply List.ext_getElem
      · simp
      · intro index hindex _
        have hin : index < f.chunkHashes.length := by simpa using hindex
        have hmem : f.chunkHashes[index] ∈ (f :: files).flatMap PushFileRow.chunkHashes := by
          rw [List.flatMap_cons]
          exact List.mem_append_left _ (List.getElem_mem hin)
        simp [h _ hmem]

omit [DecidableEq H] [HashScheme H] in
theorem mem_linksFrom {last : ℕ} {files : List (PushFileRow H)} {l : FileChunk} :
    l ∈ linksFrom chunkIDs last files ↔ ∃ (i : ℕ) (f : PushFileRow H) (index : ℕ) (hash : H),
      files[i]? = some f ∧ f.chunkHashes[index]? = some hash ∧
        l = ⟨last + 1 + i, (chunkIDs hash).getD 0, index⟩ := by
  rw [linksFrom, List.mem_flatten]
  constructor
  · rintro ⟨part, hpart, hl⟩
    obtain ⟨i, hi, rfl⟩ := List.mem_mapIdx.mp hpart
    obtain ⟨index, hindex, rfl⟩ := List.mem_mapIdx.mp hl
    exact ⟨i, _, index, _, List.getElem?_eq_getElem hi, List.getElem?_eq_getElem hindex, rfl⟩
  · rintro ⟨i, f, index, hash, hf, hhash, hl⟩
    obtain ⟨hi, rfl⟩ := List.getElem?_eq_some_iff.mp hf
    obtain ⟨hindex, rfl⟩ := List.getElem?_eq_some_iff.mp hhash
    exact ⟨_, List.mem_mapIdx.mpr ⟨i, hi, rfl⟩, List.mem_mapIdx.mpr ⟨index, hindex, hl.symm⟩⟩

omit [DecidableEq H] [HashScheme H] in
theorem linksFrom_fileID {last : ℕ} {files : List (PushFileRow H)} {l : FileChunk}
    (hl : l ∈ linksFrom chunkIDs last files) :
    last < l.fileID ∧ l.fileID ≤ last + files.length := by
  obtain ⟨i, f, index, hash, hf, _, rfl⟩ := mem_linksFrom.mp hl
  obtain ⟨hi, _⟩ := List.getElem?_eq_some_iff.mp hf
  constructor
  · change last < last + 1 + i
    omega
  · change last + 1 + i ≤ last + files.length
    omega

omit [DecidableEq H] [HashScheme H] in
theorem linksFrom_keys_nodup (chunkIDs : H → Option ID) (last : ℕ)
    (files : List (PushFileRow H)) :
    ((linksFrom chunkIDs last files).map FileChunk.key).Nodup := by
  induction files generalizing last with
  | nil => exact List.nodup_nil
  | cons f files ih =>
      have hfirst : (f.chunkHashes.mapIdx fun index hash =>
          (⟨last + 1, (chunkIDs hash).getD 0, index⟩ : FileChunk)).map FileChunk.key
          = (List.range f.chunkHashes.length).map fun index => (last + 1, index) := by
        apply List.ext_getElem
        · simp
        · intro index _ _
          simp [FileChunk.key]
      rw [linksFrom_cons, List.map_append, List.nodup_append, hfirst]
      refine ⟨?_, ih (last + 1), ?_⟩
      · exact List.nodup_range.map fun i i' heq => (Prod.mk.inj heq).2
      · intro k hk k' hk' heq
        obtain ⟨index, _, rfl⟩ := List.mem_map.mp hk
        obtain ⟨l, hl, rfl⟩ := List.mem_map.mp hk'
        have hlt := (linksFrom_fileID hl).1
        have hid : last + 1 = l.fileID := (Prod.mk.inj heq).1
        omega

variable {t : PushTables H}

omit [DecidableEq H] [HashScheme H] in
theorem outcome_insertFileBatches (b : BatchSizes) {files : List (PushFileRow H)}
    (nodeIDs : ID → ID) {chunkIDs' : H → Option ID}
    (h : ∀ hash ∈ files.flatMap PushFileRow.chunkHashes, chunkIDs hash = chunkIDs' hash)
    (hs : ∀ l ∈ t.fileChunks, l.fileID ≤ t.lastFileID) :
    (insertFileBatches b files nodeIDs chunkIDs).outcome t
      = (refuseIf (Clashes t (files.map fun f => f.inNode nodeIDs)) errRecordExists).map fun _ =>
          ((), { t.withRows (files.map fun f => f.inNode nodeIDs) with
            fileChunks := t.fileChunks ++ linksFrom chunkIDs' t.lastFileID files }) := by
  unfold insertFileBatches
  rw [Attempt.outcome_bind, outcome_insertFileBatch_foldlM, Cutter.pieces_flatten]
  unfold refuseIf
  split
  · rfl
  · change Attempt.outcome _ _ = _
    rw [outcome_bufferLinks, List.nil_append, List.nil_append, map_id_recordsFrom,
      List.length_map, linksOf_eq h]
    have hfresh : (linksFrom chunkIDs' t.lastFileID files).foldl upsertLink t.fileChunks
        = t.fileChunks ++ linksFrom chunkIDs' t.lastFileID files := by
      refine foldl_upsertLink_eq_append (linksFrom_keys_nodup _ _ _) fun l hl hold => ?_
      obtain ⟨l', hl', hkey⟩ := List.mem_map.mp hold
      have hid : l'.fileID = l.fileID := (Prod.mk.inj hkey).1
      have hle := hs l' hl'
      rw [hid] at hle
      exact absurd hle (Nat.not_le.mpr (linksFrom_fileID hl).1)
    rw [← hfresh]
    rfl

omit [DecidableEq H] [HashScheme H] in
theorem outcome_insertTreeNodes (nodes : List (PushNodeRow H)) (t : PushTables H) :
    (insertTreeNodes nodes).outcome t
      = (insertNodes nodes (fun _ => 0) t.treeNodes).map fun r =>
          (r.1, { t with treeNodes := r.2 }) := by
  unfold insertTreeNodes
  rw [Attempt.outcome_bind, Attempt.outcome_get]
  change Attempt.outcome _ t = _
  rw [Attempt.outcome_bind, Attempt.outcome_lift]
  cases insertNodes nodes (fun _ => 0) t.treeNodes with
  | error e => rfl
  | ok r => rfl

omit [HashScheme H] in
theorem outcome_insertCommit (req : ApplyPushRequest H) (rootID : ID) (t : PushTables H) :
    (insertCommit req rootID).outcome t
      = (refuseIf (∃ c ∈ t.commits, c.id = req.commitID ∨ c.hash = req.commitHash)
          errRecordExists).map fun _ => ((), { t with
            commits := t.commits ++ [commitOf req rootID]
            branches := branchUpdateCommit t.branches req.branchID req.commitID }) := by
  unfold insertCommit
  rw [Attempt.outcome_bind, Attempt.outcome_get]
  change Attempt.outcome _ t = _
  rw [Attempt.outcome_bind, Attempt.outcome_lift]
  unfold refuseIf
  split
  · rfl
  · rfl

theorem outcome_applyPushTx (b : BatchSizes) (req : ApplyPushRequest H)
    (hs : ∀ l ∈ t.fileChunks, l.fileID ≤ t.lastFileID) :
    (applyPushTx b req).outcome t = (applyPushAtOnce t req).map fun t' => ((), t') := by
  obtain ⟨ids, hids, hrun⟩ := run_lookupChunks b req.projectID req.files t
  have hlookup : (lookupChunks b req.projectID req.files).outcome t
      = match (req.files.flatMap PushFileRow.chunkHashes).find?
          fun h => (chunkRow t req.projectID h).isNone with
        | some h => .error (errMissingChunk h)
        | none => .ok (ids, t) := by
    rw [Attempt.outcome, hrun]
    split
    · rfl
    · rfl
  unfold applyPushTx applyPushAtOnce
  rw [Attempt.outcome_bind, hlookup]
  split
  · rfl
  · change Attempt.outcome _ _ = _
    rw [Attempt.outcome_bind, outcome_insertTreeNodes]
    cases insertNodes req.nodes (fun _ => 0) t.treeNodes with
    | error e => rfl
    | ok r =>
        change Attempt.outcome _ _ = _
        rw [Attempt.outcome_bind, Attempt.outcome_lift]
        cases req.nodes.head? with
        | none => rfl
        | some first =>
            have hfiles : (insertFileBatches b req.files r.1 ids).outcome
                { t with treeNodes := r.2 }
                = (refuseIf (Clashes t (req.files.map fun f => f.inNode r.1))
                    errRecordExists).map fun _ => ((), { t with
                      treeNodes := r.2
                      files := t.files ++ recordsFrom t.lastFileID
                        (req.files.map fun f => f.inNode r.1)
                      lastFileID := t.lastFileID + (req.files.map fun f => f.inNode r.1).length
                      fileChunks := t.fileChunks ++
                        linksFrom (chunkRow t req.projectID) t.lastFileID req.files }) :=
              outcome_insertFileBatches b r.1 hids (t := { t with treeNodes := r.2 }) hs
            change Attempt.outcome _ _ = _
            rw [Attempt.outcome_bind]
            change ((insertFileBatches b req.files r.1 ids).outcome { t with treeNodes := r.2 }
              >>= fun u => (insertCommit req (r.1 first.id)).outcome u.2) = _
            rw [hfiles]
            change _ = Except.map _ (refuseIf (Clashes t (req.files.map fun f => f.inNode r.1))
              errRecordExists >>= fun _ => _)
            by_cases hclash : Clashes t (req.files.map fun f => f.inNode r.1)
            · rw [refuseIf, if_pos hclash]
              rfl
            · rw [refuseIf, if_neg hclash]
              change (insertCommit req (r.1 first.id)).outcome _ = _
              rw [outcome_insertCommit]
              unfold refuseIf
              dsimp only
              split
              · rfl
              · rfl

/-- A request as the push use case lays it out. -/
structure LaidOut (req : ApplyPushRequest H) : Prop where
  node_ids : (req.nodes.map PushNodeRow.id).Nodup
  parents : ParentsFirst [] req.nodes
  trees : ∀ f ∈ req.files, f.treeID ∈ req.nodes.map PushNodeRow.id
  names : (req.files.map PushFileRow.key).Nodup

omit [DecidableEq H] [HashScheme H] in
theorem LaidOut.not_clashes {req : ApplyPushRequest H} (hreq : LaidOut req) (hs : t.Sound)
    {nodeIDs : ID → ID} {rows : List (TreeRow H)}
    (hnodes : insertNodes req.nodes (fun _ => 0) t.treeNodes = .ok (nodeIDs, rows)) :
    ¬ Clashes t (req.files.map fun f => f.inNode nodeIDs) := by
  obtain ⟨-, hids, -, -⟩ := insertNodes_ok hnodes hreq.node_ids hreq.parents (by simp)
  have hmap : (req.nodes.map PushNodeRow.id).map nodeIDs
      = List.range' (t.treeNodes.length + 1) req.nodes.length := by
    rw [List.map_map]
    exact hids
  have hnew : ∀ f ∈ req.files, t.treeNodes.length < nodeIDs f.treeID := by
    intro f hf
    have hmem := List.mem_map_of_mem (f := nodeIDs) (hreq.trees f hf)
    rw [hmap, List.mem_range'_1] at hmem
    exact hmem.1
  have hinj : ∀ x ∈ req.nodes.map PushNodeRow.id, ∀ y ∈ req.nodes.map PushNodeRow.id,
      nodeIDs x = nodeIDs y → x = y :=
    List.inj_on_of_nodup_map (by rw [hmap]; exact List.nodup_range')
  intro hclash
  cases hclash with
  | inl hdup =>
      refine hdup ?_
      rw [List.map_map]
      refine List.Nodup.map_on ?_ hreq.names.of_map
      intro f hf g hg heq
      obtain ⟨htree, hname⟩ := Prod.mk.inj heq
      have hsame := hinj _ (hreq.trees f hf) _ (hreq.trees g hg) htree
      exact List.inj_on_of_nodup_map hreq.names hf hg (Prod.ext hsame hname)
  | inr hold =>
      obtain ⟨g, hg, hkey⟩ := hold
      obtain ⟨f, hf, rfl⟩ := List.mem_map.mp hg
      obtain ⟨r, hr, heq⟩ := List.mem_map.mp hkey
      have htree : r.treeID = nodeIDs f.treeID := (Prod.mk.inj heq).1
      have hle := hs.tree_le r hr
      rw [htree] at hle
      exact absurd hle (Nat.not_le.mpr (hnew f hf))

/-- What a push adds to the tables of files and links: a row for each file, and a link
for each position of each chunk list, from the row of its file to the chunk the project
holds under the hash. -/
structure WritesFiles (t : PushTables H) (req : ApplyPushRequest H) (nodeIDs : ID → ID)
    (t' : PushTables H) : Prop where
  files : t'.files = t.files ++
    recordsFrom t.lastFileID (req.files.map fun f => f.inNode nodeIDs)
  links : ∃ links, t'.fileChunks = t.fileChunks ++ links ∧ (links.map FileChunk.key).Nodup ∧
    ∀ l, l ∈ links ↔ ∃ (i : ℕ) (f : PushFileRow H) (r : FileRecord H) (index : ℕ) (hash : H)
      (chunkID : ID), req.files[i]? = some f ∧
        (recordsFrom t.lastFileID (req.files.map fun f => f.inNode nodeIDs))[i]? = some r ∧
        f.chunkHashes[index]? = some hash ∧ chunkRow t req.projectID hash = some chunkID ∧
        l = ⟨r.id, chunkID, index⟩

/-- Whatever the three batch sizes are, a push whose chunks the project does not all hold
fails with the first of them before anything is written; otherwise it has the outcome it
has with any other sizes, it succeeds on a request laid out as the use case lays it out
unless a directory or commit row is refused, and where it succeeds it adds exactly one link
for each chunk position of each file. -/
theorem push_batches_invisible {t : PushTables H} (hs : t.Sound) (b : BatchSizes)
    (req : ApplyPushRequest H) :
    (∀ hash, ((req.files.flatMap PushFileRow.chunkHashes).find?
        fun hash => (chunkRow t req.projectID hash).isNone) = some hash →
      (applyPushTx b req).run t = (.error (errMissingChunk hash), t)) ∧
    ((∀ hash ∈ req.files.flatMap PushFileRow.chunkHashes,
        (chunkRow t req.projectID hash).isSome) →
      (∀ b', (applyPushTx b' req).outcome t = (applyPushTx b req).outcome t) ∧
      (∀ nodeIDs rows, LaidOut req → req.nodes ≠ [] →
        insertNodes req.nodes (fun _ => 0) t.treeNodes = .ok (nodeIDs, rows) →
        (∀ c ∈ t.commits, c.id ≠ req.commitID ∧ c.hash ≠ req.commitHash) →
          ∃ t', (applyPushTx b req).outcome t = .ok ((), t')) ∧
      ∀ t', (applyPushTx b req).outcome t = .ok ((), t') →
        ∃ nodeIDs, WritesFiles t req nodeIDs t') := by
  have hnone : (∀ hash ∈ req.files.flatMap PushFileRow.chunkHashes,
      (chunkRow t req.projectID hash).isSome) →
      ((req.files.flatMap PushFileRow.chunkHashes).find?
        fun hash => (chunkRow t req.projectID hash).isNone) = none := by
    intro hheld
    rw [List.find?_eq_none]
    intro hash hh
    simp [Option.isSome_iff_ne_none.mp (hheld hash hh)]
  have hall : ∀ b', (applyPushTx b' req).outcome t
      = (applyPushAtOnce t req).map fun t' => ((), t') :=
    fun b' => outcome_applyPushTx b' req hs.link_le
  refine ⟨fun hash hfind => ?_, fun hheld => ⟨fun b' => ?_, ?_, ?_⟩⟩
  · obtain ⟨ids, -, hrun⟩ := run_lookupChunks b req.projectID req.files t
    rw [hfind] at hrun
    exact Attempt.run_bind_of_error hrun
  · rw [hall b', hall b]
  · intro nodeIDs rows hreq hne hnodes hcommit
    obtain ⟨first, hfirst⟩ : ∃ first, req.nodes.head? = some first :=
      Option.isSome_iff_exists.mp (List.isSome_head?.mpr hne)
    have hfree : ¬ ∃ c ∈ t.commits, c.id = req.commitID ∨ c.hash = req.commitHash := by
      rintro ⟨c, hc, hsame⟩
      exact hsame.elim (hcommit c hc).1 (hcommit c hc).2
    obtain ⟨u, hu⟩ : ∃ u, applyPushAtOnce t req = .ok u := by
      rw [applyPushAtOnce, hnone hheld]
      exact ⟨_, bind_eq_ok.mpr ⟨(nodeIDs, rows), hnodes,
        bind_eq_ok.mpr ⟨first, orError_eq_ok.mpr hfirst,
          bind_eq_ok.mpr ⟨(), refuseIf_eq_ok.mpr (hreq.not_clashes hs hnodes),
            bind_eq_ok.mpr ⟨(), refuseIf_eq_ok.mpr hfree, rfl⟩⟩⟩⟩⟩
    exact ⟨u, by rw [hall b, hu]; rfl⟩
  · intro t' hok
    rw [hall b] at hok
    obtain ⟨u, hu, heq⟩ : ∃ u, applyPushAtOnce t req = .ok u ∧ ((), u) = ((), t') := by
      cases hpush : applyPushAtOnce t req with
      | error e =>
          rw [hpush] at hok
          cases hok
      | ok u =>
          rw [hpush] at hok
          exact ⟨u, rfl, Except.ok.inj hok⟩
    obtain rfl := (Prod.mk.inj heq).2
    rw [applyPushAtOnce, hnone hheld] at hu
    simp only [bind_eq_ok, orError_eq_ok, refuseIf_eq_ok, pure_eq_ok] at hu
    obtain ⟨⟨nodeIDs, rows⟩, -, first, -, _, -, _, -, rfl⟩ := hu
    refine ⟨nodeIDs, rfl, _, rfl, linksFrom_keys_nodup _ _ _, fun l => ?_⟩
    rw [mem_linksFrom]
    constructor
    · rintro ⟨i, f, index, hash, hf, hhash, hl⟩
      have hmem : hash ∈ req.files.flatMap PushFileRow.chunkHashes :=
        List.mem_flatMap.mpr ⟨f, List.mem_of_getElem? hf, List.mem_of_getElem? hhash⟩
      obtain ⟨chunkID, hchunk⟩ := Option.isSome_iff_exists.mp (hheld hash hmem)
      rw [hchunk, Option.getD_some] at hl
      refine ⟨i, f, recordOf (t.lastFileID + 1 + i) (f.inNode nodeIDs), index, hash, chunkID, hf,
        ?_, hhash, hchunk, hl⟩
      rw [recordsFrom, List.getElem?_mapIdx, List.getElem?_map, hf]
      rfl
    · rintro ⟨i, f, r, index, hash, chunkID, hf, hr, hhash, hchunk, hl⟩
      refine ⟨i, f, index, hash, hf, hhash, ?_⟩
      rw [recordsFrom, List.getElem?_mapIdx, List.getElem?_map, hf] at hr
      obtain rfl := Option.some.inj hr
      rw [hchunk, Option.getD_some]
      exact hl

theorem applyPushTx_sound {t' : PushTables H} (hs : t.Sound) {b : BatchSizes}
    {req : ApplyPushRequest H} (hok : (applyPushTx b req).outcome t = .ok ((), t')) : t'.Sound := by
  rw [outcome_applyPushTx b req hs.link_le] at hok
  cases hpush : applyPushAtOnce t req with
  | error e =>
      rw [hpush] at hok
      cases hok
  | ok u =>
      rw [hpush] at hok
      obtain rfl := (Prod.mk.inj (Except.ok.inj hok)).2
      rw [applyPushAtOnce] at hpush
      split at hpush
      · cases hpush
      · simp only [bind_eq_ok, orError_eq_ok, refuseIf_eq_ok, pure_eq_ok] at hpush
        obtain ⟨⟨nodeIDs, rows⟩, hnodes, first, -, _, -, _, -, rfl⟩ := hpush
        have hgrown : t.treeNodes.length ≤ rows.length := insertNodes_length_le hnodes
        refine ⟨?_, ?_, ?_⟩
        · intro l hl
          cases List.mem_append.mp hl with
          | inl hold => exact (hs.link_le l hold).trans (Nat.le_add_right _ _)
          | inr hnew =>
              have hle := (linksFrom_fileID hnew).2
              rwa [← List.length_map (f := fun f => f.inNode nodeIDs)] at hle
        · intro r hr
          cases List.mem_append.mp hr with
          | inl hold => exact (hs.file_le r hold).trans (Nat.le_add_right _ _)
          | inr hnew =>
              have hid := List.mem_map_of_mem (f := FileRecord.id) hnew
              rw [map_id_recordsFrom, List.mem_range'_1] at hid
              have hlt := hid.2
              rw [Nat.add_right_comm] at hlt
              exact Nat.le_of_lt_succ hlt
        · intro r hr
          cases List.mem_append.mp hr with
          | inl hold => exact (hs.tree_le r hold).trans hgrown
          | inr hnew =>
              obtain ⟨i, hi, rfl⟩ := List.mem_mapIdx.mp hnew
              rw [List.getElem_map]
              exact insertNodes_le hnodes (fun x => Nat.zero_le _) _

/-- Two directories with a file each; the first file has a chunk twice. -/
def onePush : ApplyPushRequest IdealHash where
  projectID := 1
  branchID := 1
  commitID := 5
  commitHash := IdealHash.digest [1]
  parentID := none
  parentID2 := none
  userID := 1
  message := []
  nodes := [⟨1, .digest [2], [], 0, none⟩, ⟨2, .digest [4], ['d'], 0, some 1⟩]
  files := [⟨['f'], 420, 2, false, [], .digest [3], 1, [.zero, .zero]⟩,
    ⟨['g'], 420, 2, false, [], .digest [5], 2, [.digest [6], .zero]⟩]

def twoChunks : PushTables IdealHash where
  treeNodes := []
  chunks := [(7, ⟨.zero, 1⟩), (8, ⟨.digest [6], 1⟩)]
  projectChunkUploads := [(1, .zero), (1, .digest [6])]
  files := []
  lastFileID := 0
  fileChunks := []
  commits := []
  branches := []

/-- In batches of one the push has the outcome it has with the sizes outside tests. -/
theorem push_batches_invisible_one_push :
    ∃ t', (applyPushTx ⟨1, 1, 1, one_pos, one_pos, one_pos⟩ onePush).outcome twoChunks =
      .ok ((), t') ∧ (applyPushTx batchSizes onePush).outcome twoChunks = .ok ((), t') := by
  have hsound : twoChunks.Sound := ⟨nofun, nofun, nofun⟩
  have hlaid : LaidOut onePush := by
    refine ⟨by decide, ⟨nofun, ?_, trivial⟩, by decide, by decide⟩
    rintro p hp
    obtain rfl := Option.mem_some.mp hp
    simp
  obtain ⟨hsame, hends, -⟩ := (push_batches_invisible hsound
    ⟨1, 1, 1, one_pos, one_pos, one_pos⟩ onePush).2 (by decide)
  obtain ⟨t', ht'⟩ := hends _ _ hlaid (List.cons_ne_nil _ _) rfl nofun
  exact ⟨t', ht', (hsame batchSizes).trans ht'⟩

end AtOnce

end Nipa
