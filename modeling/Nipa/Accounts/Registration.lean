import Nipa.Accounts.Auth

/-!
# Registration

An account that registers itself cannot be used until the link mailed to its address is
followed; whoever follows it chooses the password.
-/

namespace Nipa.Accounts

open Support

variable {K : Type} (P : Primitives K)

def verificationTTL : ℤ := 72 * 60 * 60 * second

def errInvalidVerification : Failure := errNotFound "invalid or expired verification link"

/-- Without a mailer no mail is queued, and nobody learns the token. -/
def enqueueVerification (i : ℕ) (user : User) (token : Str) : Statement Unit :=
  if P.mailer then
    enqueue
      { id := P.generate i 1
        userID := user.id
        email := user.email
        name := user.name
        link := P.verificationURL token }
  else fun db => .ok ((), db)

/-- The links of the past go, and the account has a new one. -/
def issueVerification (i : ℕ) (user : User) (now : ℤ) : Statement Unit :=
  andThen (deleteExpiredEmailVerifications now) fun _ =>
    andThen (upsertEmailVerification user.id (P.hashToken (P.verificationToken i))
      (now + verificationTTL)) fun _ =>
        enqueueVerification P i user (P.verificationToken i)

def resendVerification (i : ℕ) (email : Str) : Flow Reply := do
  let email := trimSpace email
  require (email != []) (errUser "email is required")
  let found ← Request.attempt (getByEmail P email)
  match found with
  | .error e => if isErrorNotFound e then return .done else Request.fail e
  | .ok user =>
      if user.emailVerified then return .done
      else do
        let now ← clock
        Request.transact (issueVerification P i user now)
        return .done

def register (i : ℕ) (name email : Str) : Flow Reply := do
  let identity ← Request.lift (validateUserIdentity P name email)
  let found ← Request.attempt (getByEmail P identity.2)
  match found with
  | .ok existing => resendVerification P i existing.email
  | .error e =>
      if isErrorNotFound e then do
        let now ← clock
        Request.transact
          (andThen
            (userCreateUnverified
              { id := P.generate i 0
                name := identity.1
                email := normalizeEmail P identity.2
                password := []
                isSuperAdmin := false
                isAdmin := false
                emailVerified := false
                deleted := false })
            fun user => issueVerification P i user now)
        return .done
      else Request.fail e

/-- What a followed link does to its account. -/
def confirmAccount (userID : ID) (hash : Str) : Statement User :=
  andThen (userUpdatePassword userID hash) fun _ =>
    andThen (userSetEmailVerified userID) fun _ =>
      andThen (deleteEmailVerification userID) fun _ db =>
        (userGetByID userID db).map (·, db)

/-- A wrong password is refused before the token is used up. -/
def verify (token password : Str) : Flow User := do
  let token := trimSpace token
  require (token != []) (errUser "verification token is required")
  Request.lift (validatePassword password)
  let found ← Request.attempt (emailVerificationByToken (P.hashToken token))
  let row ← Request.lift (notFoundAs errInvalidVerification found)
  let now ← clock
  if row.2 < now then do
    let _ ← Request.attemptTransact (deleteEmailVerification row.1)
    Request.fail errInvalidVerification
  else do
    let hash ← orFail (P.hash password) errInternalServer
    Request.transact (confirmAccount row.1 hash)

/-- The handler starts a session for the confirmed account. -/
def verifyEmail (i : ℕ) (token password : Str) : Flow Reply := do
  let user ← verify P token password
  loginResult P i user

end Nipa.Accounts
