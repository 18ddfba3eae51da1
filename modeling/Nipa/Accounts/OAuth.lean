import Nipa.Accounts.Auth

/-!
# Social logins

The answer of a provider is resolved to an account: the one its identity is linked to,
the one with its confirmed address, or a new one.  The browser gets a login code, which
is exchanged for a session once.
-/

namespace Nipa.Accounts

open Support

variable {K : Type} (P : Primitives K)

def stateTTL : ℤ := 10 * 60 * second

def loginCodeTTL : ℤ := 120 * second

def errInvalidState : Failure := errUser "invalid oauth state"

def errInvalidLoginCode : Failure := errNotFound "invalid or expired login code"

def errProvider : Failure := errNotFound "oauth provider is not enabled"

/-! ## The state -/

/-- The state that request `i` sends through a provider at a time. -/
def stateOf (i : ℕ) (redirect : Str) (linkUser : ID) (now : ℤ) : StateData where
  nonce := P.stateNonce i
  redirect := P.safeRedirect redirect
  linkUser := linkUser
  binding := P.bindingHash (P.binding i)
  expiresAt := (now + stateTTL) / second

def startOAuth (i : ℕ) (provider redirect : Str) (claims : Option Claims) : Flow Reply := do
  require (P.providers.contains provider) errProvider
  let now ← clock
  let state := stateOf P i redirect ((claims.map Claims.userID).getD 0) now
  let signed ← orFail (P.signState state) errInternalServer
  return .authorize (P.authCodeURL provider signed) (P.binding i) state

/-- The signature and the expiry of a state. -/
def verifyState (raw : Str) (now : ℤ) : Except Failure StateData :=
  match P.readState raw with
  | none => .error errInvalidState
  | some data =>
      if data.expiresAt < now / second then .error errInvalidState
      else .ok { data with redirect := P.safeRedirect data.redirect }

def StateData.bound (data : StateData) (binding : Str) : Bool :=
  binding != [] && data.binding != [] && data.binding == P.bindingHash binding

/-! ## The callback -/

def withQueryParam (base key value : Str) : Str :=
  let separator := if '?' ∈ base then '&' else '?'
  base ++ separator :: key ++ '=' :: value

def emailLocalPart (email : Str) : Str :=
  let i := email.idxOf '@'
  if 0 < i ∧ i < email.length then email.take i else email

def identityOf (i : ℕ) (userID : ID) (provider : Str) (profile : Profile) :
    UserIdentity where
  id := P.generate i 1
  userID := userID
  provider := provider
  providerAccountID := profile.accountID
  email := profile.email

/-- With `confirmEmail` the account is confirmed by the provider, and what was set up
before does not count. -/
def attachIdentity (i : ℕ) (userID : ID) (provider : Str) (profile : Profile)
    (confirmEmail : Bool) : Statement Unit :=
  andThen
    (if confirmEmail then
      andThen (resetUnverifiedCredentials userID) fun _ => userSetEmailVerified userID
    else fun db => .ok ((), db))
    fun _ => createIdentity (identityOf P i userID provider profile)

def createProviderAccount (i : ℕ) (provider : Str) (profile : Profile) : Statement ID :=
  let name := trimSpace profile.name
  andThen
    (userCreate
      { id := P.generate i 0
        name := if name = [] then emailLocalPart profile.email else name
        email := normalizeEmail P profile.email
        password := []
        isSuperAdmin := false
        isAdmin := false
        emailVerified := true
        deleted := false })
    fun id =>
      andThen (fun db => (userGetByID id db).map (·, db)) fun user =>
        andThen (createIdentity (identityOf P i user.id provider profile)) fun _ db =>
          .ok (user.id, db)

def issueLoginCode (i : ℕ) (userID : ID) (base : Str) (created : Bool) : Flow Reply := do
  let now ← clock
  Request.transact
    (andThen (deleteExpiredOAuthLoginCodes now) fun _ =>
      createOAuthLoginCode (P.loginCode i) userID (now + loginCodeTTL))
  let target := withQueryParam base "code".toList (P.loginCode i)
  return .redirect
    (if created then withQueryParam target "new".toList "1".toList else target)

/-- The account of a profile that no identity is linked to. -/
def resolveByEmail (i : ℕ) (provider : Str) (profile : Profile) (base : Str) :
    Flow Reply := do
  -- an address the provider does not vouch for must not take an account
  if profile.email = [] ∨ ¬profile.emailVerified then
    return .redirect (withQueryParam base "oauth_error".toList "email_required".toList)
  else do
    let existing ← Request.attempt (getByEmail P profile.email)
    match existing with
    | .ok user => do
        Request.transact (attachIdentity P i user.id provider profile (!user.emailVerified))
        issueLoginCode P i user.id base false
    | .error e =>
        if isErrorNotFound e then do
          let userID ← Request.transact (createProviderAccount P i provider profile)
          issueLoginCode P i userID base true
        else Request.fail e

/-- `linkUser` is 0 for a login. -/
def resolveProfile (i : ℕ) (provider : Str) (profile : Profile) (state : StateData) :
    Flow Reply := do
  let base := state.redirect
  let identity ← Request.attempt (identityByProviderAccount provider profile.accountID)
  match identity with
  | .ok identity =>
      if state.linkUser ≠ 0 ∧ identity.userID ≠ state.linkUser then
        return .redirect (withQueryParam base "oauth_error".toList "identity_taken".toList)
      else if state.linkUser ≠ 0 then
        return .redirect (withQueryParam base "oauth".toList "linked".toList)
      else issueLoginCode P i identity.userID base false
  | .error e =>
      if !isErrorNotFound e then Request.fail e
      else if state.linkUser ≠ 0 then do
        Request.transact (attachIdentity P i state.linkUser provider profile false)
        return .redirect (withQueryParam base "oauth".toList "linked".toList)
      else resolveByEmail P i provider profile base

def callback (i : ℕ) (provider code rawState binding : Str)
    (exchange : Except Failure Profile) : Flow Reply := do
  require (P.providers.contains provider) errProvider
  let now ← clock
  let state ← Request.lift (verifyState P rawState now)
  require (state.bound P binding) errInvalidState
  require (trimSpace code != []) (errUser "authorization code is required")
  let profile ← Request.lift exchange
  resolveProfile P i provider profile state

/-! ## Completion -/

def complete (code : Str) : Flow User := do
  let code := trimSpace code
  require (code != []) (errUser "login code is required")
  let consumed ← Request.attemptTransact (consumeOAuthLoginCode code)
  let row ← Request.lift (notFoundAs errInvalidLoginCode consumed)
  let now ← clock
  require (!decide (row.2 < now)) errInvalidLoginCode
  Request.query (userGetByID row.1)

/-- The handler starts a session for the account of the code. -/
def completeOAuth (i : ℕ) (code : Str) : Flow Reply := do
  let user ← complete code
  loginResult P i user

/-- The last way to log in stays. -/
def disconnectIdentity (claims : Claims) (identityID : ID) : Flow Reply := do
  let identity ← Request.query (identityByID identityID)
  require (identity.userID == claims.userID) errNoPermission
  let count ← Request.query (countIdentities claims.userID)
  let user ← Request.query (userGetByID claims.userID)
  require (!(decide (count ≤ 1) && user.password == []))
    (errConflict "cannot disconnect the only login method; set a password first")
  Request.transact (deleteIdentity identityID claims.userID)
  return .done

end Nipa.Accounts
