import Nipa.Accounts.Requests

/-!
# User administration

What users and administrators change about accounts and about SSH keys.
-/

namespace Nipa.Accounts

open Support

variable {K : Type} (P : Primitives K)

/-! ## Who may -/

def requireGlobalAdmin (claims : Option Claims) : Except Failure Claims :=
  match claims with
  | some c => if c.isSuperAdmin || c.isAdmin then .ok c else .error errNoPermission
  | none => .error errNoPermission

def requireSelfOrAdmin (claims : Option Claims) (userID : ID) : Except Failure Unit :=
  match claims with
  | some c =>
      if c.userID == userID || c.isAdmin || c.isSuperAdmin then .ok ()
      else .error errNoPermission
  | none => .error errNoPermission

/-- Administrators are managed by themselves and by super administrators only. -/
def requireCanManage (claims : Option Claims) (targetID : ID) : Flow Unit := do
  let claim ← Request.lift (requireGlobalAdmin claims)
  if claim.isSuperAdmin || claim.userID == targetID then return ()
  else do
    let target ← Request.query (userGetByID targetID)
    require (!(target.isAdmin || target.isSuperAdmin)) errNoPermission

/-! ## Accounts -/

/-- Found is a conflict, not found is what is hoped for. -/
def requireUnused (found : Except Failure User) : Except Failure Unit :=
  match found with
  | .ok _ => .error (errConflict "email already in use")
  | .error e => if isErrorNotFound e then .ok () else .error e

def createAccount (i : ℕ) (name email password : Str) : Flow User := do
  let identity ← Request.lift (validateUserIdentity P name email)
  Request.lift (validatePassword password)
  let found ← Request.attempt (getByEmail P identity.2)
  Request.lift (requireUnused found)
  let hash ← orFail (P.hash password) errInternalServer
  let id ← Request.transact (userCreate
    { id := P.generate i 0
      name := identity.1
      email := normalizeEmail P identity.2
      password := hash
      isSuperAdmin := false
      isAdmin := false
      emailVerified := true
      deleted := false })
  Request.query (userGetByID id)

def createUser (i : ℕ) (claims : Option Claims) (name email password : Str) : Flow Reply := do
  let _ ← Request.lift (requireGlobalAdmin claims)
  let user ← createAccount P i name email password
  return .user user

def updateProfile (claims : Option Claims) (userID : ID) (name : Str) : Flow Reply := do
  let claim ← orFail claims errNoPermission
  if claim.userID != userID then
    requireCanManage claims userID
  let name := trimSpace name
  require (name != []) (errUser "name is required")
  Request.transact (userUpdateProfile userID name)
  let user ← Request.query (userGetByID userID)
  return .user user

/-- An address of the account itself may be set again. -/
def requireUnusedByOthers (userID : ID) (found : Except Failure User) :
    Except Failure Unit :=
  match found with
  | .ok existing =>
      if existing.id != userID then .error (errConflict "email already in use") else .ok ()
  | .error e => if isErrorNotFound e then .ok () else .error e

def updateEmail (claims : Option Claims) (userID : ID) (email : Str) : Flow Reply := do
  requireCanManage claims userID
  let email := normalizeEmail P email
  require (isEmail email) (errUser "invalid email")
  let found ← Request.attempt (getByEmail P email)
  Request.lift (requireUnusedByOthers userID found)
  Request.transact (updateEmailAndRevokeTokens userID (normalizeEmail P email))
  let user ← Request.query (userGetByID userID)
  return .user user

def changePassword (claims : Option Claims) (userID : ID) (oldPassword newPassword : Str) :
    Flow Reply := do
  let claim ← orFail claims errNoPermission
  require (claim.userID == userID) errNoPermission
  let user ← Request.query (userGetByID userID)
  require (P.compare user.password oldPassword) (errUser "current password is incorrect")
  Request.lift (validatePassword newPassword)
  let hash ← orFail (P.hash newPassword) errInternalServer
  Request.transact (updatePasswordAndRevokeTokens userID hash)
  return .done

def resetPassword (claims : Option Claims) (userID : ID) (newPassword : Str) :
    Flow Reply := do
  requireCanManage claims userID
  Request.lift (validatePassword newPassword)
  let hash ← orFail (P.hash newPassword) errInternalServer
  Request.transact (updatePasswordAndRevokeTokens userID hash)
  return .done

def setAdminFlags (claims : Option Claims) (userID : ID) (isAdmin isSuperAdmin : Bool) :
    Flow Reply := do
  let claim ← orFail claims errNoPermission
  require claim.isSuperAdmin errNoPermission
  require (!(claim.userID == userID && !isSuperAdmin))
    (errUser "cannot remove your own super admin flag")
  Request.transact (userUpdateAdminFlags userID isAdmin isSuperAdmin)
  let user ← Request.query (userGetByID userID)
  return .user user

def deactivate (claims : Option Claims) (userID : ID) : Flow Reply := do
  let claim ← orFail claims errNoPermission
  require (claim.userID != userID) (errUser "cannot deactivate yourself")
  requireCanManage claims userID
  Request.transact (deactivateAndRevokeTokens userID)
  return .done

/-! ## SSH keys -/

def maxSSHKeysPerUser : ℕ := 10

def maxSSHKeyNameRunes : ℕ := 100

/-- A registered key is a conflict. -/
def requireUnregistered (userID : ID) (found : Except Failure SSHPublicKey) :
    Except Failure Unit :=
  match found with
  | .ok existing =>
      if existing.userID == userID then .error (errConflict "key already added")
      else .error (errConflict "key already registered by another user")
  | .error e => if isErrorNotFound e then .ok () else .error e

def addSSHKey (i : ℕ) (claims : Option Claims) (userID : ID) (name publicKey : Str) :
    Flow Reply := do
  Request.lift (requireSelfOrAdmin claims userID)
  let name := trimSpace name
  require (decide (name.length ≤ maxSSHKeyNameRunes))
    (errUser s!"SSH key name must be at most {maxSSHKeyNameRunes} characters")
  let parsed ← Request.lift
    (match P.parseAuthorizedKey publicKey with
    | .ok parsed => .ok parsed
    | .error text => .error (errUser text))
  let name := if name = [] then parsed.comment.take maxSSHKeyNameRunes else name
  let found ← Request.attempt (sshKeyGetByFingerprint parsed.fingerprint)
  Request.lift (requireUnregistered userID found)
  let count ← Request.query (sshKeyCountByUser userID)
  require (decide (count < maxSSHKeysPerUser))
    (errUser s!"at most {maxSSHKeysPerUser} SSH keys are allowed per user")
  let key ← Request.transact (sshKeyCreate
    { id := P.generate i 0
      userID
      name
      keyType := parsed.keyType
      keyBlob := parsed.blob
      fingerprint := parsed.fingerprint
      comment := parsed.comment })
  return .key key

def deleteSSHKey (claims : Option Claims) (userID keyID : ID) : Flow Reply := do
  Request.lift (requireSelfOrAdmin claims userID)
  let found ← Request.attempt (sshKeyGetByID keyID)
  let key ← Request.lift (notFoundAs (errNotFound "SSH key not found") found)
  require (key.userID == userID) (errNotFound "SSH key not found")
  Request.transact (sshKeyDelete userID keyID)
  return .done

end Nipa.Accounts
