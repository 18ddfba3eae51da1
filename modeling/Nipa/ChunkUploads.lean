import Nipa.ChunkProof
import Nipa.Merge.Strategies
import Nipa.Push.Run
import Nipa.Support.Runs

/-!
# Chunk uploads

Chunks are stored once for all projects, and a project may use the chunks it is
linked to.  A client asks where to send its chunks, sends them, and confirms; the
confirmation links the project to the chunks for which it answers a challenge.

The messages the server has signed and the challenges it has handed out are kept in
a log, which the code does not have and nothing reads.
-/

namespace Nipa

open Support

/-! ## Requests and content -/

/-- A project; its row number is a 64-bit number. -/
structure Project where
  id : ID
  org : Str
  slug : Str
  id_fits : id < 2 ^ 63

theorem Project.id_lt (project : Project) : project.id < 2 ^ 64 :=
  Nat.lt_of_lt_of_le project.id_fits (by norm_num)

structure ChunkRef (H : Type) where
  hash : H
  sizeBytes : ℤ

/-- An answer to a challenge for a chunk. -/
structure ChunkProof (H : Type) where
  hash : H
  challenge : Str
  proof : Str

inductive StoreError where
  | notFound
  | failed (cause : Str)

/-- Where the content of chunks is.  A backend that clients reach directly can hold
anything under a hash; it can also delete. -/
structure ChunkStore (H : Type) where
  get : H → Except StoreError (List UInt8)
  deleteChunk : Option (H → Except Str Unit)

namespace ChunkStore

variable {H : Type}

def size (store : ChunkStore H) (h : H) : Except StoreError ℕ :=
  (store.get h).map List.length

variable [DecidableEq H]

def put (store : ChunkStore H) (h : H) (data : List UInt8) : ChunkStore H :=
  { store with get := Function.update store.get h (.ok data) }

def remove (store : ChunkStore H) (h : H) : ChunkStore H :=
  { store with get := Function.update store.get h (.error .notFound) }

end ChunkStore

structure StorageLedger (H : Type) where
  attributedSizes : ID → List H → Except DomainError (H → Bool)
  headroom : ID → ℤ → Except DomainError Unit
  attributeChunks : ID → List (Chunk H) → Except DomainError Unit

structure TransferConfig (H : Type) where
  presignTTL : Int64
  maxPageSize : ℤ
  maxChunkSize : ℤ
  ledger : Option (StorageLedger H)

/-! ## Signed transfers -/

/-- A transfer path signed by the server. -/
structure TransferURL where
  op : Str
  org : Str
  project : Str
  hash : Str
  size : ℤ
  exp : Int64
  sig : Str

def opUpload : Str := "put".toList

def opDownload : Str := "get".toList

/-- What is signed for a transfer path. -/
def transferMessage (op org project hash : Str) (size : ℤ) (exp : Int64) : List UInt8 :=
  utf8 (op ++ '\n' :: (org ++ '\n' :: (project ++ '\n' :: (hash ++ '\n' ::
    ((toString size).toList ++ '\n' :: (toString exp.toInt).toList)))))

def signTransfer (σ : Signer) (op org project hash : Str) (size : ℤ) (exp : Int64) :
    TransferURL :=
  ⟨op, org, project, hash, size, exp, σ.hexTag (transferMessage op org project hash size exp)⟩

/-- A challenge that was handed out. -/
structure Challenge (H : Type) where
  project : Project
  hash : H
  expires : Int64
  nonce : List UInt8
  nonce_length : nonce.length = nonceBytes

/-- Challenges handed out and messages signed. -/
structure SigningLog (H : Type) where
  issued : List (Challenge H)
  signed : List (List UInt8)

def SigningLog.append {H : Type} (log log' : SigningLog H) : SigningLog H :=
  ⟨log.issued ++ log'.issued, log.signed ++ log'.signed⟩

section Challenges

variable {H : Type} [HashScheme H]

def Challenge.text (σ : Signer) (c : Challenge H) : Str :=
  newChallenge σ c.project.id c.hash c.expires c.nonce

def Challenge.message (c : Challenge H) : List UInt8 :=
  challengeMessage c.project.id c.hash (encodedPayload c.expires c.nonce)

end Challenges

/-! ## Handing out transfers -/

inductive UploadTarget where
  | none
  | direct
  | signed (url : TransferURL)

structure ChunkURL (H : Type) where
  hash : H
  target : UploadTarget
  alreadyStored : Bool
  proofChallenge : Str

/-- One page of a list, and the token of the next one. -/
def paginate {α : Type} (items : List α) (pageSize : ℤ) (pageToken : TextField ℤ)
    (maxPageSize : ℤ) : Except DomainError (List α × Str) := do
  let offset ← match pageToken with
    | .empty => pure 0
    | .invalid _ => .error (errUser "invalid page token" [])
    | .value _ n => if n < 0 then .error (errUser "invalid page token" []) else pure n.toNat
  if items.length ≤ offset then return ([], [])
  let size :=
    if 0 < maxPageSize ∧ (pageSize ≤ 0 ∨ maxPageSize < pageSize) then maxPageSize.toNat
    else if pageSize ≤ 0 then items.length
    else pageSize.toNat
  let stop := min (offset + size) items.length
  return ((items.take stop).drop offset,
    if stop < items.length then (toString stop).toList else [])

section Presign

variable {H : Type} [HashScheme H] [DecidableEq H]

def validateChunkRefs (cfg : TransferConfig H) (refs : List (ChunkRef H)) :
    Except DomainError Unit :=
  refuseIf (∃ ref ∈ refs, ref.sizeBytes ≤ 0 ∨ cfg.maxChunkSize < ref.sizeBytes)
    (errUser "invalid chunk size" [])

/-- Whether the organization has room for what the references would add. -/
def checkHeadroom (cfg : TransferConfig H) (project : Project) (refs : List (ChunkRef H)) :
    Except DomainError Unit :=
  match cfg.ledger with
  | none => .ok ()
  | some ledger => do
      let attributed ← ledger.attributedSizes project.id (refs.map ChunkRef.hash)
      let projected := ((refs.filter fun ref => !attributed ref.hash).map
        ChunkRef.sizeBytes).sum
      if projected = 0 then return () else ledger.headroom project.id projected

def contentExists (store : ChunkStore H) (h : H) : Except DomainError Bool :=
  match store.get h with
  | .ok _ => .ok true
  | .error .notFound => .ok false
  | .error (.failed cause) => .error (errDatabase "check chunk %s: %v" [hashString h, cause])

def uploadTarget (σ : Signer) (store : ChunkStore H) (project : Project) (ref : ChunkRef H)
    (expiry : Int64) : UploadTarget × List (List UInt8) :=
  if store.deleteChunk.isSome then (.direct, [])
  else (.signed (signTransfer σ opUpload project.org project.slug (hashString ref.hash)
      ref.sizeBytes expiry),
    [transferMessage opUpload project.org project.slug (hashString ref.hash) ref.sizeBytes
      expiry])

/-- A random number for every chunk of a page. -/
abbrev Nonces := ℕ → {l : List UInt8 // l.length = nonceBytes}

/-- The transfers of one page; linked chunks that are stored need none. -/
def presignPage (σ : Signer) (store : ChunkStore H) (project : Project) (linked : H → Bool)
    (expires : Int64) (nonces : Nonces) :
    List (ChunkRef H) → ℕ → Except DomainError (List (ChunkURL H) × SigningLog H)
  | [], _ => .ok ([], ⟨[], []⟩)
  | ref :: rest, n => do
      let stored ← contentExists store ref.hash
      let (urls, log) ← presignPage σ store project linked expires nonces rest (n + 1)
      if stored && linked ref.hash then return (⟨ref.hash, .none, true, []⟩ :: urls, log)
      else
        let challenge : Challenge H :=
          ⟨project, ref.hash, expires, (nonces n).val, (nonces n).property⟩
        let (target, signed) :=
          if stored then (UploadTarget.none, []) else uploadTarget σ store project ref expires
        return (⟨ref.hash, target, false, challenge.text σ⟩ :: urls,
          ⟨challenge :: log.issued, challenge.message :: (signed ++ log.signed)⟩)

def isLinked (db : DB H) (projectID : ID) (h : H) : Bool :=
  (projectID, h) ∈ db.projectChunkUploads

def presignUploadURLs (σ : Signer) (cfg : TransferConfig H) (db : DB H) (store : ChunkStore H)
    (project : Project) (refs : List (ChunkRef H)) (pageSize : ℤ) (pageToken : TextField ℤ)
    (nonces : Nonces) (now : Int64) :
    Except DomainError (List (ChunkURL H) × Str × SigningLog H) := do
  validateChunkRefs cfg refs
  checkHeadroom cfg project refs
  let (page, next) ← paginate refs pageSize pageToken cfg.maxPageSize
  let (urls, log) ← presignPage σ store project (isLinked db project.id)
    (now + cfg.presignTTL) nonces page 0
  return (urls, next, log)

/-- Download paths for chunks the caller may read. -/
def presignDownloadURLs (σ : Signer) (cfg : TransferConfig H) (store : ChunkStore H)
    (project : Project) (hashes : List H) (pageSize : ℤ) (pageToken : TextField ℤ)
    (now : Int64) : Except DomainError (List (H × UploadTarget) × Str × SigningLog H) := do
  let (page, next) ← paginate hashes pageSize pageToken cfg.maxPageSize
  if store.deleteChunk.isSome then
    return (page.map fun h => (h, .direct), next, ⟨[], []⟩)
  else
    let expiry := now + cfg.presignTTL
    return (page.map fun h => (h, .signed (signTransfer σ opDownload project.org project.slug
        (hashString h) 0 expiry)), next,
      ⟨[], page.map fun h => transferMessage opDownload project.org project.slug
        (hashString h) 0 expiry⟩)

end Presign

/-! ## Storing content -/

section Storing

variable {H : Type} [HashScheme H] [DecidableEq H]

def insertChunkIfNotExists (db : DB H) (h : H) (sizeBytes : ℕ) : DB H :=
  if ∃ c ∈ db.chunks, c.hash = h then db
  else { db with chunks := db.chunks ++ [⟨h, sizeBytes⟩] }

def linkProjectChunks (db : DB H) (projectID : ID) (hashes : List H) : DB H :=
  { db with
    projectChunkUploads := hashes.foldl (fun links h =>
      if (projectID, h) ∈ links then links else links ++ [(projectID, h)])
      db.projectChunkUploads }

/-- Store content that came with its hash. -/
def storeUploaded (store : ChunkStore H) (h : H) (data : List UInt8) :
    Except DomainError (ChunkStore H) := do
  refuseIf (HashScheme.sum data ≠ h) (errUser "chunk hash mismatch for %s" [hashString h])
  let stored ← contentExists store h
  if stored then return store else return store.put h data

/-- Store content and record its row. -/
def uploadChunk (db : DB H) (store : ChunkStore H) (h : H) (data : List UInt8) :
    Except DomainError (DB H × ChunkStore H) := do
  let store' ← storeUploaded store h data
  return (insertChunkIfNotExists db h data.length, store')

def uploadForProject (db : DB H) (store : ChunkStore H) (project : Project) (h : H)
    (data : List UInt8) : Except DomainError (DB H × ChunkStore H) := do
  let (db', store') ← uploadChunk db store h data
  return (linkProjectChunks db' project.id [h], store')

/-- Store the chunks of merged files and link them. -/
def storeMerged (db : DB H) (store : ChunkStore H) (project : Project)
    (chunks : List (H × List UInt8)) : Except DomainError (DB H × ChunkStore H) := do
  let (db', store') ← chunks.foldlM (fun acc c => uploadChunk acc.1 acc.2 c.1 c.2) (db, store)
  return (attributeProjectChunks db' project.id
    (chunks.map fun c => ⟨c.1, c.2.length⟩), store')

end Storing

/-! ## Confirming -/

section Confirm

variable {H : Type} [HashScheme H] [DecidableEq H]

/-- A direct backend deletes content that does not match its hash. -/
def dropInvalidChunk (store : ChunkStore H) (h : H) :
    ChunkStore H × Except DomainError Unit :=
  match store.deleteChunk with
  | none => (store, .ok ())
  | some delete =>
      match delete h with
      | .ok () => (store.remove h, .ok ())
      | .error cause =>
          (store, .error (errInternalServer "delete invalid chunk %s: %v" [hashString h, cause]))

/-- Whether the caller holds the chunk, and its size. -/
def verifyPossession (σ : Signer) (store : ChunkStore H) (project : Project) (h : H)
    (pr : ChunkProof H) (now : Int64) : ChunkStore H × Except DomainError (ℕ × Bool) :=
  if pr.challenge = [] ∨ pr.proof = [] then (store, .ok (0, false))
  else if verifyChallenge σ project.id h pr.challenge now = false then (store, .ok (0, false))
  else
    match store.get h with
    | .error .notFound => (store, .ok (0, false))
    | .error (.failed cause) =>
        (store, .error (errDatabase "read chunk %s: %v" [hashString h, cause]))
    | .ok data =>
        if HashScheme.sum data ≠ h then
          let (store', dropped) := dropInvalidChunk store h
          (store', dropped.map fun _ => (0, false))
        else (store, .ok (data.length, proof H pr.challenge data == pr.proof))

/-- What a confirmation has found out so far. -/
structure Confirming (H : Type) where
  db : DB H
  store : ChunkStore H
  missing : List H
  toLink : List H
  attributed : List (Chunk H)
  confirmedBytes : ℕ

/-- The last proof for a hash. -/
def proofByHash (proofs : List (ChunkProof H)) (h : H) : Option (ChunkProof H) :=
  proofs.reverse.find? fun pr => pr.hash = h

/-- The size of a chunk that is there, and whether it is to be linked. -/
def checkUpload (σ : Signer) (store : ChunkStore H) (project : Project) (linked : H → Bool)
    (proofs : List (ChunkProof H)) (now : Int64) (h : H) :
    ChunkStore H × Except DomainError (ℕ × Bool × Bool) :=
  match linked h, proofByHash proofs h with
  | true, none =>
      match store.size h with
      | .ok size => (store, .ok (size, true, false))
      | .error .notFound => (store, .ok (0, false, false))
      | .error (.failed cause) =>
          (store, .error (errDatabase "stat chunk %s: %v" [hashString h, cause]))
  | true, some pr =>
      let (store', res) := verifyPossession σ store project h pr now
      (store', res.map fun r => (r.1, r.2, false))
  | false, pr =>
      let (store', res) := verifyPossession σ store project h (pr.getD ⟨h, [], []⟩) now
      (store', res.map fun r => (r.1, r.2, r.2))

/-- Confirm the chunks one by one, up to the first failure. -/
def confirmLoop (σ : Signer) (project : Project) (linked : H → Bool)
    (proofs : List (ChunkProof H)) (now : Int64) :
    List H → Confirming H → Confirming H × Except DomainError Unit
  | [], acc => (acc, .ok ())
  | h :: hs, acc =>
      match checkUpload σ acc.store project linked proofs now h with
      | (store', .error e) => ({ acc with store := store' }, .error e)
      | (store', .ok (_, false, _)) =>
          confirmLoop σ project linked proofs now hs
            { acc with store := store', missing := acc.missing ++ [h] }
      | (store', .ok (size, true, link)) =>
          confirmLoop σ project linked proofs now hs
            { db := insertChunkIfNotExists acc.db h size
              store := store'
              missing := acc.missing
              toLink := if link then acc.toLink ++ [h] else acc.toLink
              attributed := acc.attributed ++ [⟨h, size⟩]
              confirmedBytes := acc.confirmedBytes + size }

/-- Rows and links that were written stay when a later step fails. -/
def confirmUploads (σ : Signer) (cfg : TransferConfig H) (db : DB H) (store : ChunkStore H)
    (project : Project) (hashes : List H) (proofs : List (ChunkProof H)) (now : Int64) :
    DB H × ChunkStore H × Except DomainError (List H × ℕ) :=
  match confirmLoop σ project (isLinked db project.id) proofs now hashes
      ⟨db, store, [], [], [], 0⟩ with
  | (acc, .error e) => (acc.db, acc.store, .error e)
  | (acc, .ok ()) =>
      let db' := linkProjectChunks acc.db project.id acc.toLink
      let attributed : Except DomainError Unit :=
        match cfg.ledger with
        | none => .ok ()
        | some ledger =>
            if acc.attributed = [] then .ok () else ledger.attributeChunks project.id acc.attributed
      (db', acc.store, attributed.map fun _ => (acc.missing, acc.confirmedBytes))

end Confirm

end Nipa
