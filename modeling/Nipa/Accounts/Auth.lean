import Nipa.Accounts.Requests

/-!
# Logins

Logins with a password, a refresh token or an SSH key.  Each of them ends in
`loginResult`, which signs an access token and stores a new refresh token.
-/

namespace Nipa.Accounts

open Support

variable {K : Type} (P : Primitives K)

def tokenExpirationMinutes : ℤ := 30

def refreshTokenExpiration : ℤ := 60 * 24 * 3600 * second

def sshLoginChallengeTTL : ℤ := 60 * second

/-- `jwt.NewNumericDate` cuts to seconds. -/
def numericDate (t : ℤ) : ℤ :=
  t / second * second

/-- The claims for a user at a time. -/
def claimsOf (user : User) (timeStart : ℤ) : Claims where
  subject := base36 user.id
  issuedAt := numericDate timeStart
  expiresAt := numericDate (timeStart + tokenExpirationMinutes * 60 * second)
  userID := user.id
  isSuperAdmin := user.isSuperAdmin
  isAdmin := user.isAdmin

def loginResult (i : ℕ) (user : User) : Flow Reply := do
  let timeStart ← clock
  let claims := claimsOf user timeStart
  let jwt ← orFail (P.sign claims) errInternalServer
  Request.transact
    (saveRefreshToken user.id (P.uuid i) (timeStart + refreshTokenExpiration))
  return .session
    { accessToken := jwt
      refreshToken := P.uuid i
      tokenType := "Bearer"
      expiresIn := tokenExpirationMinutes * 60
      refreshExpiresIn := refreshTokenExpiration / second
      claims }

/-- An empty address is not counted against any limit. -/
def throttleIdentity (limit : Option ℤ) (email : Str) : Except Failure Unit :=
  if P.toLower (trimSpace email) = [] then .ok ()
  else
    match limit with
    | none => .ok ()
    | some retryAfter => .error (errTooManyRequests retryAfter)

def errInvalidLogin : Failure := errUser "invalid email or password"

def errEmailNotVerified : Failure := errForbidden "email not confirmed"

def loginWithEmailPassword (i : ℕ) (limit : Option ℤ) (email password : Str) :
    Flow Reply := do
  Request.lift (throttleIdentity P limit email)
  let found ← Request.attempt (getByEmail P email)
  let user ← Request.lift (notFoundAs errInvalidLogin found)
  require (P.compare user.password password) errInvalidLogin
  require user.emailVerified errEmailNotVerified
  loginResult P i user

/-- The token is gone whatever becomes of the login. -/
def loginWithRefreshToken (i : ℕ) (refreshToken : Str) : Flow Reply := do
  let storedToken ← Request.transact (getAndDeleteRefreshToken refreshToken)
  let now ← clock
  require (!decide (storedToken.expiresAt < now)) (errUser "refresh token expired")
  let user ← Request.query (userGetByID storedToken.userID)
  require user.emailVerified errEmailNotVerified
  loginResult P i user

def logout (refreshToken : Str) : Flow Reply :=
  if refreshToken = [] then return .done
  else do
    let deleted ← Request.attemptTransact (getAndDeleteRefreshToken refreshToken)
    match deleted with
    | .ok _ => return .done
    | .error e => if isErrorNotFound e then return .done else Request.fail e

/-! ## SSH keys -/

def sshLoginFailed : Failure := errUser "invalid email or SSH key"

/-- The address is optional: when it is set, only a key of its account is taken. -/
def beginSSHKeyLogin (i : ℕ) (limit : Option ℤ) (email : Str) : Flow Reply := do
  let email := trimSpace email
  Request.lift (throttleIdentity P limit email)
  let now ← clock
  Request.transact (deleteExpiredSSHLoginChallenges now)
  Request.transact (createSSHLoginChallenge email (P.nonce i) (now + sshLoginChallengeTTL))
  return .challenge (P.nonce i) (sshLoginChallengeTTL / second)

def loginPayloadPrefix : String := "nipa-login:v1:"

def loginPayload (nonce : Str) : Str :=
  loginPayloadPrefix.toList ++ nonce

/-- The account of an SSH login. -/
def sshUser (email : Str) (keyUserID : ID) : Flow User :=
  if email = [] then do
    let found ← Request.attempt (userGetByID keyUserID)
    let user ← Request.lift (notFoundAs sshLoginFailed found)
    require user.emailVerified sshLoginFailed
    return user
  else do
    let found ← Request.attempt (getByEmail P email)
    let user ← Request.lift (notFoundAs sshLoginFailed found)
    require (user.id == keyUserID) sshLoginFailed
    require user.emailVerified sshLoginFailed
    return user

def completeSSHKeyLogin (i : ℕ) (limit : Option ℤ) (email nonce : Str)
    (publicKey signature : List UInt8) : Flow Reply := do
  let email := trimSpace email
  Request.lift (throttleIdentity P limit email)
  require (nonce != []) (errUser "nonce must not be empty")
  require (publicKey != [] && signature != [])
    (errUser "public key and signature are required")
  require P.sshKeys sshLoginFailed
  let consumed ← Request.attemptTransact (consumeSSHLoginChallenge nonce)
  let challenge ← Request.lift (notFoundAs sshLoginFailed consumed)
  require (challenge.email == email) sshLoginFailed
  let now ← clock
  require (!decide (challenge.expiresAt < now)) sshLoginFailed
  let pub ← orFail (P.parsePublicKey publicKey) sshLoginFailed
  require (P.validateSupported pub) sshLoginFailed
  let found ← Request.attempt (sshKeyGetByFingerprint (P.fingerprint pub))
  let key ← Request.lift (notFoundAs sshLoginFailed found)
  let user ← sshUser P email key.userID
  require (P.verify pub (loginPayload nonce) signature) sshLoginFailed
  loginResult P i user

end Nipa.Accounts
