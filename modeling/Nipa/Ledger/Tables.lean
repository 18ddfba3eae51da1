import Nipa.Domain
import Nipa.Support.Checks
import Mathlib.Algebra.BigOperators.Group.List.Basic

/-!
# The storage ledger

The ledger attributes chunks to projects and keeps a usage counter for every
project and every organisation; an organisation is billed to one owner, and an
owner may have a quota.  `attribute` runs in one transaction: it either ends with
an error and changes nothing, or records the chunks that were not attributed to
the project and adds their bytes to both counters.

A chunk is named by its hash, which its row is unique for.  An outage makes one of
the statements of a call fail.
-/

namespace Nipa

open Support

/-! ## Tables -/

/-- What a call of the ledger can end with. -/
inductive LedgerError where
  | domain (e : DomainError)
  | quotaExceeded (used quota needed : ℤ)
  deriving DecidableEq

structure QuotaRow where
  quotaBytes : Option ℤ
  overrideBytes : Option ℤ
  deriving DecidableEq

/-- A chunk attributed to a project. -/
structure ProjectChunk (H : Type) where
  projectID : ID
  hash : H
  sizeBytes : ℤ
  deriving DecidableEq

/-- `organizations` has the creator of every organisation, `projects` the
organisation of every project. -/
structure LedgerTables (H : Type) where
  organizations : List (ID × ID)
  projects : List (ID × ID)
  billingOwner : ID → Option ID
  ownerQuota : ID → Option QuotaRow
  projectChunks : List (ProjectChunk H)
  projectUsage : ID → Option ℤ
  orgUsage : ID → Option ℤ

namespace LedgerTables

variable {H : Type} [DecidableEq H]

def isAttributed (t : LedgerTables H) (projectID : ID) (h : H) : Bool :=
  t.projectChunks.any fun c => c.projectID = projectID && c.hash = h

/-- The bytes of the chunks attributed to a project. -/
def chunkBytes (t : LedgerTables H) (projectID : ID) : ℤ :=
  ((t.projectChunks.filter fun c => c.projectID = projectID).map ProjectChunk.sizeBytes).sum

/-! ## Owners and quotas -/

/-- The owner of an organisation; its creator becomes the owner on first use. -/
def resolveOwner (t : LedgerTables H) (orgID : ID) :
    Except LedgerError (ID × LedgerTables H) :=
  match t.billingOwner orgID with
  | some owner => .ok (owner, t)
  | none =>
      match t.organizations.find? fun o => o.1 = orgID with
      | none => .error (.domain (errDatabase "sql: no rows in result set" []))
      | some org =>
          .ok (org.2, { t with billingOwner := Function.update t.billingOwner orgID (some org.2) })

/-- Zero is no quota. -/
def ownerQuotaBytes (t : LedgerTables H) (defaultQuota : ℤ) (userID : ID) : ℤ :=
  match t.ownerQuota userID with
  | some row => (row.overrideBytes.or row.quotaBytes).getD 0
  | none => defaultQuota

/-- The sum of the counters of the owner's organisations. -/
def ownerUsage (t : LedgerTables H) (userID : ID) : ℤ :=
  ((t.organizations.filter fun o => t.billingOwner o.1 = some userID).map fun o =>
    (t.orgUsage o.1).getD 0).sum

def projectOrgID (t : LedgerTables H) (projectID : ID) : Option ID :=
  (t.projects.find? fun p => p.1 = projectID).map Prod.snd

/-! ## Attribution -/

/-- Attribute those of the chunks that are not; the sizes are those of the chunk rows. -/
def insertProjectChunks (t : LedgerTables H) (chunkRows : List (Chunk H)) (projectID : ID)
    (hashes : List H) : LedgerTables H × List ℤ :=
  let inserted := chunkRows.filter fun c =>
    c.hash ∈ hashes && !t.isAttributed projectID c.hash
  ({ t with
      projectChunks := t.projectChunks ++
        inserted.map fun c => ⟨projectID, c.hash, c.sizeBytes⟩ },
    inserted.map Chunk.sizeBytes)

def addProjectUsage (t : LedgerTables H) (projectID : ID) (delta : ℤ) : LedgerTables H :=
  { t with
    projectUsage := Function.update t.projectUsage projectID
      (some ((t.projectUsage projectID).getD 0 + delta)) }

def addOrgUsage (t : LedgerTables H) (orgID : ID) (delta : ℤ) : LedgerTables H :=
  { t with
    orgUsage := Function.update t.orgUsage orgID (some ((t.orgUsage orgID).getD 0 + delta)) }

variable [HashScheme H]

def attributeChunks (defaultQuota : ℤ) (chunkRows : List (Chunk H)) (t : LedgerTables H)
    (orgID projectID : ID) (chunks : List (Chunk H)) : Except LedgerError (LedgerTables H) :=
  if chunks = [] then .ok t
  else do
    let (owner, t) ← t.resolveOwner orgID
    let quota := t.ownerQuotaBytes defaultQuota owner
    let used := if 0 < quota then t.ownerUsage owner else 0
    match chunks.find? fun c => !chunkRows.any fun row => row.hash = c.hash with
    | some c =>
        .error (.domain (errInternalServer "chunk %s has no metadata row" [hashString c.hash]))
    | none =>
        let (t, inserted) := t.insertProjectChunks chunkRows projectID (chunks.map Chunk.hash)
        let newBytes := inserted.sum
        if 0 < newBytes ∧ 0 < quota ∧ quota < used + newBytes then
          .error (.quotaExceeded used quota (used + newBytes))
        else if 0 < newBytes then
          .ok ((t.addProjectUsage projectID newBytes).addOrgUsage orgID newBytes)
        else .ok t

/-- Server-made chunks are attributed to the project's organisation. -/
def attributeProjectChunks (defaultQuota : ℤ) (chunkRows : List (Chunk H)) (t : LedgerTables H)
    (projectID : ID) (chunks : List (Chunk H)) : Except LedgerError (LedgerTables H) :=
  if chunks = [] then .ok t
  else
    match t.projectOrgID projectID with
    | none => .error (.domain (errDatabase "sql: no rows in result set" []))
    | some orgID => attributeChunks defaultQuota chunkRows t orgID projectID chunks

end LedgerTables

end Nipa
