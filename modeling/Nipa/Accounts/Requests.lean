import Nipa.Accounts.Tables
import Nipa.Support.Interleaving

/-!
# What accounts are asked

The requests of the login, user, registration and social login handlers and their
answers.  Requests are numbered in the order in which they come in; the secrets and row
numbers that a request draws are those of its number, so that no secret is drawn twice.

Passwords are hashed, tokens signed and keys parsed by functions that are given here;
nothing but the drawing of secrets is assumed of them.
-/

namespace Nipa.Accounts

open Support

/-- The claims of an access token. -/
structure Claims where
  subject : Str
  issuedAt : ℤ
  expiresAt : ℤ
  userID : ID
  isSuperAdmin : Bool
  isAdmin : Bool
  deriving DecidableEq

/-- What travels through a provider and back. -/
structure StateData where
  nonce : Str
  redirect : Str
  linkUser : ID
  binding : Str
  expiresAt : ℤ
  deriving DecidableEq

/-- The identity that a provider reports. -/
structure Profile where
  accountID : Str
  email : Str
  emailVerified : Bool
  name : Str
  deriving DecidableEq

/-- A key of an `authorized_keys` line. -/
structure ParsedKey where
  keyType : Str
  blob : Str
  fingerprint : Str
  comment : Str

/-- The code around the tables, and how the server is set up.  `K` are SSH keys. -/
structure Primitives (K : Type) where
  toLower : Str → Str
  compare : Str → Str → Bool
  hash : Str → Option Str
  sign : Claims → Option Str
  hashToken : Str → Str
  bindingHash : Str → Str
  signState : StateData → Option Str
  readState : Str → Option StateData
  safeRedirect : Str → Str
  authCodeURL : Str → Str → Str
  verificationURL : Str → Str
  parsePublicKey : List UInt8 → Option K
  validateSupported : K → Bool
  fingerprint : K → Str
  verify : K → Str → List UInt8 → Bool
  parseAuthorizedKey : Str → Except String ParsedKey
  providers : List Str
  sshKeys : Bool
  mailer : Bool
  uuid : ℕ → Str
  nonce : ℕ → Str
  stateNonce : ℕ → Str
  binding : ℕ → Str
  verificationToken : ℕ → Str
  loginCode : ℕ → Str
  generate : ℕ → ℕ → ID
  uuid_injective : Function.Injective uuid
  nonce_injective : Function.Injective nonce
  loginCode_injective : Function.Injective loginCode

/-- A request with the claims of its access token, the answer of the rate limiter
(`some` wait when it refuses) and the answer of the provider. -/
inductive Ask where
  | loginWithEmailPassword (limit : Option ℤ) (email password : Str)
  | loginWithRefreshToken (token : Str)
  | beginSSHKeyLogin (limit : Option ℤ) (email : Str)
  | completeSSHKeyLogin (limit : Option ℤ) (email nonce : Str)
      (publicKey signature : List UInt8)
  | logout (token : Str)
  | createUser (claims : Option Claims) (name email password : Str)
  | updateProfile (claims : Option Claims) (userID : ID) (name : Str)
  | updateEmail (claims : Option Claims) (userID : ID) (email : Str)
  | changePassword (claims : Option Claims) (userID : ID) (oldPassword newPassword : Str)
  | resetPassword (claims : Option Claims) (userID : ID) (newPassword : Str)
  | setAdminFlags (claims : Option Claims) (userID : ID) (isAdmin isSuperAdmin : Bool)
  | deactivate (claims : Option Claims) (userID : ID)
  | addSSHKey (claims : Option Claims) (userID : ID) (name publicKey : Str)
  | deleteSSHKey (claims : Option Claims) (userID keyID : ID)
  | register (name email : Str)
  | verifyEmail (token password : Str)
  | resendVerification (email : Str)
  | startOAuth (provider redirect : Str) (claims : Option Claims)
  | callback (provider code rawState binding : Str) (exchange : Except Failure Profile)
  | completeOAuth (code : Str)
  | disconnectIdentity (claims : Claims) (identityID : ID)

/-- The claims a request comes with. -/
def Ask.claims : Ask → Option Claims
  | createUser claims _ _ _ => claims
  | updateProfile claims _ _ => claims
  | updateEmail claims _ _ => claims
  | changePassword claims _ _ _ => claims
  | resetPassword claims _ _ => claims
  | setAdminFlags claims _ _ _ => claims
  | deactivate claims _ => claims
  | addSSHKey claims _ _ _ => claims
  | deleteSSHKey claims _ _ => claims
  | startOAuth _ _ claims => claims
  | disconnectIdentity claims _ => some claims
  | _ => none

/-- A session; `claims` are those of the access token. -/
structure LoginResult where
  accessToken : Str
  refreshToken : Str
  tokenType : String
  expiresIn : ℤ
  refreshExpiresIn : ℤ
  claims : Claims

/-- What is answered.  `authorize` also keeps the data of the state in `target`. -/
inductive Reply where
  | session (result : LoginResult)
  | challenge (nonce : Str) (expiresIn : ℤ)
  | user (user : User)
  | key (key : SSHPublicKey)
  | authorize (target binding : Str) (state : StateData)
  | redirect (target : Str)
  | done

/-- A request over the tables. -/
abbrev Flow (α : Type) := Request Database Failure α

/-- `time.Now`. -/
def clock : Flow ℤ :=
  Request.query fun db => .ok db.now

/-- `if !ok { return err }`. -/
def require (ok : Bool) (e : Failure) : Flow Unit :=
  Request.lift (if ok then .ok () else .error e)

/-- A value or the failure that its absence is. -/
def orFail {α : Type} (x : Option α) (e : Failure) : Flow α :=
  Request.lift (match x with | some a => .ok a | none => .error e)

/-- Not found is told in other words; other failures are passed on. -/
def notFoundAs {α : Type} (e : Failure) (x : Except Failure α) : Except Failure α :=
  match x with
  | .ok a => .ok a
  | .error e' => .error (if isErrorNotFound e' then e else e')

section Emails

variable {K : Type} (P : Primitives K)

def normalizeEmail (email : Str) : Str :=
  P.toLower (trimSpace email)

def getByEmail (email : Str) : Query User :=
  userGetByEmail (normalizeEmail P email)

def isEmail (email : Str) : Bool :=
  let i := email.idxOf '@'
  decide (0 < i) && decide (i + 1 < email.length) &&
    !email.any fun c => c == ' ' || c == '\t'

/-- A name and an address, trimmed and checked. -/
def validateUserIdentity (name email : Str) : Except Failure (Str × Str) :=
  let name := trimSpace name
  let email := normalizeEmail P email
  if name = [] then .error (errUser "name is required")
  else if !isEmail email then .error (errUser "invalid email")
  else .ok (name, email)

end Emails

def minPasswordLength : ℕ := 8

def validatePassword (password : Str) : Except Failure Unit :=
  if (utf8 password).length < minPasswordLength then
    .error (errUser "password must be at least 8 characters")
  else .ok ()

end Nipa.Accounts
