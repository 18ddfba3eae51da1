import Nipa.Domain
import Nipa.Support.Rows

/-!
# The tables of accounts

Users, the secrets that let someone in once (refresh tokens, challenges of SSH logins,
links that confirm an address, login codes), registered SSH keys, linked identities and
the outgoing mails, with the statements that read and write them.  A statement fails as
a whole; several that run in one transaction are one function here.

Names of files, times of creation and the photo of a user are left out.
-/

namespace Nipa.Accounts

open Support

/-- A domain error: the code of the answer and the text the user sees. -/
structure Failure where
  code : ℕ
  message : String
  deriving DecidableEq

def errRecordNotFound : Failure := ⟨404, "record not found"⟩

def errNotFound (message : String) : Failure := ⟨404, message⟩

def errRecordExists : Failure := ⟨409, "record already exists"⟩

def errDatabase : Failure := ⟨500, "database error"⟩

def errInternalServer : Failure := ⟨500, "internal server error"⟩

def errUser (message : String) : Failure := ⟨400, message⟩

def errNoPermission : Failure := ⟨403, "no permission"⟩

def errForbidden (message : String) : Failure := ⟨403, message⟩

def errConflict (message : String) : Failure := ⟨409, message⟩

/-- Nanoseconds. -/
def second : ℤ := 1000000000

def errTooManyRequests (retryAfter : ℤ) : Failure :=
  let secs := max 1 (-(-retryAfter / second))
  ⟨429, s!"rate limit exceeded, retry in {secs}s"⟩

def isErrorNotFound (e : Failure) : Bool :=
  e.code == 404

/-! ## Rows -/

structure User where
  id : ID
  name : Str
  email : Str
  password : Str
  isSuperAdmin : Bool
  isAdmin : Bool
  emailVerified : Bool
  deleted : Bool
  deriving DecidableEq

structure RefreshToken where
  userID : ID
  token : Str
  expiresAt : ℤ
  deriving DecidableEq

structure SSHLoginChallenge where
  email : Str
  nonce : Str
  expiresAt : ℤ
  deriving DecidableEq

structure SSHPublicKey where
  id : ID
  userID : ID
  name : Str
  keyType : Str
  keyBlob : Str
  fingerprint : Str
  comment : Str
  deriving DecidableEq

structure EmailVerification where
  userID : ID
  tokenHash : Str
  expiresAt : ℤ
  deriving DecidableEq

structure UserIdentity where
  id : ID
  userID : ID
  provider : Str
  providerAccountID : Str
  email : Str
  deriving DecidableEq

structure OAuthLoginCode where
  code : Str
  userID : ID
  expiresAt : ℤ
  deriving DecidableEq

/-- A queued mail that carries a link. -/
structure Mail where
  id : ID
  userID : ID
  email : Str
  name : Str
  link : Str
  deriving DecidableEq

/-- The tables, and the clock of the server. -/
structure Database where
  now : ℤ
  users : Rows User.id
  refreshTokens : Rows RefreshToken.token
  challenges : Rows SSHLoginChallenge.nonce
  sshKeys : Rows SSHPublicKey.id
  verifications : Rows EmailVerification.userID
  identities : Rows UserIdentity.id
  loginCodes : Rows OAuthLoginCode.code
  outbox : List Mail

/-- What a reading statement gives. -/
abbrev Query (α : Type) := Database → Except Failure α

/-- What a writing statement gives and leaves. -/
abbrev Statement (α : Type) := Database → Except Failure (α × Database)

/-- `QueryRow`: no row is an error. -/
def one {α : Type} : Option α → Except Failure α
  | some a => .ok a
  | none => .error errRecordNotFound

theorem one_eq_ok {α : Type} {x : Option α} {a : α} : one x = .ok a ↔ x = some a := by
  cases x with
  | none => exact ⟨nofun, nofun⟩
  | some b => rw [one, Except.ok.injEq, Option.some.injEq]

def unique {α κ : Type} {key : α → κ} (x : Option (Rows key)) : Except Failure (Rows key) :=
  match x with
  | some t => .ok t
  | none => .error errRecordExists

theorem unique_eq_ok {α κ : Type} {key : α → κ} {x : Option (Rows key)} {t : Rows key} :
    unique x = .ok t ↔ x = some t := by
  cases x with
  | none => exact ⟨nofun, nofun⟩
  | some b => rw [unique, Except.ok.injEq, Option.some.injEq]

theorem map_eq_ok {α β : Type} {f : α → β} {x : Except Failure α} {b : β} :
    x.map f = .ok b ↔ ∃ a, x = .ok a ∧ f a = b := by
  cases x with
  | error e => exact ⟨nofun, nofun⟩
  | ok a =>
      rw [Except.map, Except.ok.injEq]
      exact ⟨fun h => ⟨a, rfl, h⟩, fun ⟨_, ha, h⟩ => Except.ok.inj ha ▸ h⟩

/-- A foreign key. -/
def references (db : Database) (userID : ID) : Except Failure Unit :=
  if db.users.any (·.id == userID) then .ok () else .error errDatabase

/-- A unique column beside the key. -/
def free {α κ : Type} {key : α → κ} (t : Rows key) (taken : α → Bool) :
    Except Failure Unit :=
  if t.any taken then .error errRecordExists else .ok ()

/-! ## Users -/

section Users

def isLive (id : ID) (u : User) : Bool :=
  u.id == id && !u.deleted

def userGetByEmail (email : Str) : Query User := fun db =>
  one (db.users.find? fun u => u.email == email && !u.deleted)

def userGetByID (id : ID) : Query User := fun db =>
  one (db.users.find? (isLive id))

/-- Any failure of this insertion is a database error. -/
def userCreate (row : User) : Statement ID := fun db =>
  if db.users.any (·.email == row.email) then .error errDatabase
  else
    match db.users.insert? row with
    | none => .error errDatabase
    | some users => .ok (row.id, { db with users })

def userCreateUnverified (row : User) : Statement User := fun db => do
  free db.users (·.email == row.email)
  let users ← unique (db.users.insert? row)
  let db := { db with users }
  let user ← userGetByID row.id db
  return (user, db)

def Database.updateUser (db : Database) (id : ID) (set : User → User)
    (hset : ∀ u, (set u).id = u.id) : Database :=
  { db with users := db.users.update (isLive id) set hset }

theorem Database.mem_updateUser {db : Database} {id : ID} {set : User → User}
    {hset : ∀ u, (set u).id = u.id} {user : User} :
    user ∈ (db.updateUser id set hset).users ↔
      ∃ u ∈ db.users, (if isLive id u then set u else u) = user :=
  @Rows.mem_update _ _ _ _ _ _ hset _

def userUpdateProfile (id : ID) (name : Str) : Statement Unit := fun db =>
  .ok ((), db.updateUser id ({ · with name }) fun _ => rfl)

def userUpdatePassword (id : ID) (password : Str) : Statement Unit := fun db =>
  .ok ((), db.updateUser id ({ · with password }) fun _ => rfl)

def userUpdateEmail (id : ID) (email : Str) : Statement Unit := fun db => do
  free db.users fun u => u.email == email && u.id != id && db.users.any (isLive id)
  return ((), db.updateUser id ({ · with email }) fun _ => rfl)

def userUpdateAdminFlags (id : ID) (isAdmin isSuperAdmin : Bool) : Statement Unit := fun db =>
  .ok ((), db.updateUser id ({ · with isAdmin, isSuperAdmin }) fun _ => rfl)

def userDeleteByID (id : ID) : Statement Unit := fun db =>
  .ok ((), db.updateUser id ({ · with deleted := true }) fun _ => rfl)

def userSetEmailVerified (id : ID) : Statement Unit := fun db =>
  .ok ((), db.updateUser id ({ · with emailVerified := true }) fun _ => rfl)

end Users

/-! ## Sessions -/

def saveRefreshToken (userID : ID) (token : Str) (expiresAt : ℤ) : Statement Unit :=
  fun db => do
    let refreshTokens ← unique (db.refreshTokens.insert? ⟨userID, token, expiresAt⟩)
    references db userID
    return ((), { db with refreshTokens })

def getAndDeleteRefreshToken (token : Str) : Statement RefreshToken := fun db => do
  let row ← one (db.refreshTokens.find? (·.token == token))
  return (row, { db with refreshTokens := db.refreshTokens.delete (·.token == token) })

def deleteRefreshTokens (userID : ID) : Statement Unit := fun db =>
  .ok ((), { db with refreshTokens := db.refreshTokens.delete (·.userID == userID) })

/-- Two statements in one transaction. -/
def andThen {α β : Type} (first : Statement α) (second : α → Statement β) : Statement β :=
  fun db => do
    let r ← first db
    second r.1 r.2

def updateEmailAndRevokeTokens (id : ID) (email : Str) : Statement Unit :=
  andThen (userUpdateEmail id email) fun _ => deleteRefreshTokens id

def updatePasswordAndRevokeTokens (id : ID) (password : Str) : Statement Unit :=
  andThen (userUpdatePassword id password) fun _ => deleteRefreshTokens id

def deactivateAndRevokeTokens (id : ID) : Statement Unit :=
  andThen (userDeleteByID id) fun _ => deleteRefreshTokens id

/-! ## SSH keys and challenges -/

def createSSHLoginChallenge (email nonce : Str) (expiresAt : ℤ) : Statement Unit :=
  fun db => do
    let challenges ← unique (db.challenges.insert? ⟨email, nonce, expiresAt⟩)
    return ((), { db with challenges })

def deleteExpiredSSHLoginChallenges (before : ℤ) : Statement Unit := fun db =>
  .ok ((), { db with challenges := db.challenges.delete fun row => row.expiresAt < before })

def consumeSSHLoginChallenge (nonce : Str) : Statement SSHLoginChallenge := fun db => do
  let row ← one (db.challenges.find? (·.nonce == nonce))
  return (row, { db with challenges := db.challenges.delete (·.nonce == nonce) })

def sshKeyGetByFingerprint (fingerprint : Str) : Query SSHPublicKey := fun db =>
  one (db.sshKeys.find? (·.fingerprint == fingerprint))

def sshKeyGetByID (id : ID) : Query SSHPublicKey := fun db =>
  one (db.sshKeys.find? (·.id == id))

def sshKeyCountByUser (userID : ID) : Query ℕ := fun db =>
  .ok (db.sshKeys.rows.countP (·.userID == userID))

def sshKeyCreate (key : SSHPublicKey) : Statement SSHPublicKey := fun db => do
  free db.sshKeys (·.fingerprint == key.fingerprint)
  let sshKeys ← unique (db.sshKeys.insert? key)
  references db key.userID
  return (key, { db with sshKeys })

def sshKeyDelete (userID id : ID) : Statement Unit := fun db =>
  let selects := fun row : SSHPublicKey => row.userID == userID && row.id == id
  if db.sshKeys.any selects then
    .ok ((), { db with sshKeys := db.sshKeys.delete selects })
  else .error errRecordNotFound

/-! ## Confirmations -/

def upsertEmailVerification (userID : ID) (tokenHash : Str) (expiresAt : ℤ) :
    Statement Unit := fun db => do
  let others := db.verifications.delete (·.userID == userID)
  free others (·.tokenHash == tokenHash)
  let verifications ← unique (others.insert? ⟨userID, tokenHash, expiresAt⟩)
  references db userID
  return ((), { db with verifications })

def emailVerificationByToken (tokenHash : Str) : Query (ID × ℤ) := fun db =>
  (one (db.verifications.find? (·.tokenHash == tokenHash))).map fun row =>
    (row.userID, row.expiresAt)

def deleteEmailVerification (userID : ID) : Statement Unit := fun db =>
  .ok ((), { db with verifications := db.verifications.delete (·.userID == userID) })

def deleteExpiredEmailVerifications (before : ℤ) : Statement Unit := fun db =>
  .ok ((), { db with
    verifications := db.verifications.delete fun row => row.expiresAt < before })

def enqueue (mail : Mail) : Statement Unit := fun db =>
  .ok ((), { db with outbox := mail :: db.outbox })

/-! ## Identities and login codes -/

def identityByProviderAccount (provider providerAccountID : Str) : Query UserIdentity :=
  fun db =>
    one (db.identities.find? fun row =>
      row.provider == provider && row.providerAccountID == providerAccountID)

def identityByID (id : ID) : Query UserIdentity := fun db =>
  one (db.identities.find? (·.id == id))

def countIdentities (userID : ID) : Query ℕ := fun db =>
  .ok (db.identities.rows.countP (·.userID == userID))

def createIdentity (identity : UserIdentity) : Statement Unit := fun db => do
  free db.identities fun row =>
    row.provider == identity.provider && row.providerAccountID == identity.providerAccountID
  let identities ← unique (db.identities.insert? identity)
  references db identity.userID
  return ((), { db with identities })

def deleteIdentity (id userID : ID) : Statement Unit := fun db =>
  let selects := fun row : UserIdentity => row.id == id && row.userID == userID
  if db.identities.any selects then
    .ok ((), { db with identities := db.identities.delete selects })
  else .error errRecordNotFound

/-- Leaves an account that nobody has confirmed without a password, a link or a session. -/
def resetUnverifiedCredentials (userID : ID) : Statement Unit :=
  andThen (userUpdatePassword userID []) fun _ =>
    andThen (deleteEmailVerification userID) fun _ => deleteRefreshTokens userID

def createOAuthLoginCode (code : Str) (userID : ID) (expiresAt : ℤ) : Statement Unit :=
  fun db => do
    let loginCodes ← unique (db.loginCodes.insert? ⟨code, userID, expiresAt⟩)
    references db userID
    return ((), { db with loginCodes })

def consumeOAuthLoginCode (code : Str) : Statement (ID × ℤ) := fun db => do
  let row ← one (db.loginCodes.find? (·.code == code))
  return ((row.userID, row.expiresAt),
    { db with loginCodes := db.loginCodes.delete (·.code == code) })

def deleteExpiredOAuthLoginCodes (before : ℤ) : Statement Unit := fun db =>
  .ok ((), { db with loginCodes := db.loginCodes.delete fun row => row.expiresAt < before })

end Nipa.Accounts
