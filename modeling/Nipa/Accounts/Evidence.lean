import Nipa.Accounts.Changes

/-!
# Where sessions come from

What the trace of a server shows about a session, an account or a secret: which request
looked at which rows, which rows it took away, and what it queued.  `Rooted` follows a
session back to a login; `Confirmed` says why an account counts as confirmed.  From these
it is stated what a step of the server may do, and what the rows in the tables then say
about the past.
-/

namespace Nipa.Accounts

open Support

variable {K : Type} (P : Primitives K)

/-! ## The server -/

def program (i : ℕ) : Ask → Flow Reply
  | .loginWithEmailPassword limit email password =>
      loginWithEmailPassword P i limit email password
  | .loginWithRefreshToken token => loginWithRefreshToken P i token
  | .beginSSHKeyLogin limit email => beginSSHKeyLogin P i limit email
  | .completeSSHKeyLogin limit email nonce publicKey signature =>
      completeSSHKeyLogin P i limit email nonce publicKey signature
  | .logout token => logout token
  | .createUser claims name email password => createUser P i claims name email password
  | .updateProfile claims userID name => updateProfile claims userID name
  | .updateEmail claims userID email => updateEmail P claims userID email
  | .changePassword claims userID oldPassword newPassword =>
      changePassword P claims userID oldPassword newPassword
  | .resetPassword claims userID newPassword => resetPassword P claims userID newPassword
  | .setAdminFlags claims userID isAdmin isSuperAdmin =>
      setAdminFlags claims userID isAdmin isSuperAdmin
  | .deactivate claims userID => deactivate claims userID
  | .addSSHKey claims userID name publicKey => addSSHKey P i claims userID name publicKey
  | .deleteSSHKey claims userID keyID => deleteSSHKey claims userID keyID
  | .register name email => register P i name email
  | .verifyEmail token password => verifyEmail P i token password
  | .resendVerification email => resendVerification P i email
  | .startOAuth provider redirect claims => startOAuth P i provider redirect claims
  | .callback provider code rawState binding exchange =>
      callback P i provider code rawState binding exchange
  | .completeOAuth code => completeOAuth P i code
  | .disconnectIdentity claims identityID => disconnectIdentity claims identityID

abbrev History := Trace Ask Database

abbrev AccountServer := Server Ask Database Failure Reply

/-- Claims are those of a session that has not run out, and a state that can be read was
sent by this server: signatures are not forged. -/
structure Accept (s : AccountServer) (r : Ask) : Prop where
  claims : ∀ c, r.claims = some c → ∃ (j : ℕ) (r' : Ask) (result : LoginResult),
    s.requests[j]? = some (r', .ret (.session result)) ∧ result.claims = c ∧
      s.trace.now.now < c.expiresAt
  state : ∀ provider code rawState binding exchange data,
    r = .callback provider code rawState binding exchange →
      P.readState rawState = some data → ∃ (j : ℕ) (r' : Ask) (target binding' : Str),
        s.requests[j]? = some (r', .ret (.authorize target binding' data))

/-- Time passes. -/
def Tick (db db' : Database) : Prop :=
  ∃ t, db.now ≤ t ∧ db' = { db with now := t }

/-- A server that has given out no secret yet. -/
structure Fresh₀ (db : Database) : Prop where
  refreshTokens : db.refreshTokens = ∅
  challenges : db.challenges = ∅
  loginCodes : db.loginCodes = ∅
  verifications : db.verifications = ∅
  identities : db.identities = ∅

/-! ## Evidence -/

/-- Request `k`, which asked `r`, took a step between states with `p`. -/
def Took (h : History) (k : ℕ) (r : Ask) (p : Database → Database → Prop) : Prop :=
  ∃ e ∈ h.past, e.actor = some (k, r) ∧ p e.before e.after

/-- The account was there, confirmed and not deactivated, in a step of the request. -/
def Found (h : History) (k : ℕ) (r : Ask) (user : User) : Prop :=
  Took h k r fun db db' =>
    (user ∈ db.users ∨ user ∈ db'.users) ∧ user.emailVerified ∧ ¬user.deleted

/-- The clock had not passed `expiresAt`. -/
def InTime (h : History) (k : ℕ) (r : Ask) (expiresAt : ℤ) : Prop :=
  Took h k r fun db _ => db.now ≤ expiresAt

def tokenHeld (token : Str) (db : Database) : Prop :=
  ∃ row ∈ db.refreshTokens, row.token = token

def nonceHeld (nonce : Str) (db : Database) : Prop :=
  ∃ row ∈ db.challenges, row.nonce = nonce

def codeHeld (code : Str) (db : Database) : Prop :=
  ∃ row ∈ db.loginCodes, row.code = code

/-- The link of the row was made by a registration or on request; if mails are sent at
all, it went to an address of the account. -/
def Mailed (h : History) (row : EmailVerification) : Prop :=
  ∃ j r address,
    ((∃ name email, r = Ask.register name email) ∨ ∃ email, r = Ask.resendVerification email) ∧
      row.tokenHash = P.hashToken (P.verificationToken j) ∧
      Took h j r (fun db db' => ∃ user, (user ∈ db.users ∨ user ∈ db'.users) ∧
        user.id = row.userID ∧ user.email = address) ∧
      (P.mailer → Took h j r fun _ db' => ∃ mail ∈ db'.outbox,
        mail.userID = row.userID ∧ mail.email = address ∧
          mail.link = P.verificationURL (P.verificationToken j))

/-- Request `k` presented the token of a mailed link in time. -/
def FollowedLink (h : History) (k : ℕ) (userID : ID) : Prop :=
  ∃ token password row,
    Took h k (.verifyEmail token password) (fun db _ => row ∈ db.verifications) ∧
      row.userID = userID ∧ row.tokenHash = P.hashToken (trimSpace token) ∧
      InTime h k (.verifyEmail token password) row.expiresAt ∧ Mailed P h row

/-- A provider vouched for the address of the account. -/
def AddressVouched (h : History) (j : ℕ) (userID : ID) : Prop :=
  ∃ provider code rawState binding, ∃ profile : Profile, profile.emailVerified ∧
    Took h j (.callback provider code rawState binding (.ok profile)) fun db _ =>
      ∃ user ∈ db.users, user.id = userID ∧ ¬user.deleted ∧
        user.email = normalizeEmail P profile.email

/-- The account was made for an address that a provider vouched for. -/
def SignedUp (h : History) (j : ℕ) (userID : ID) : Prop :=
  ∃ provider code rawState binding, ∃ profile : Profile, profile.emailVerified ∧
    Took h j (.callback provider code rawState binding (.ok profile)) fun db db' =>
      (∀ user ∈ db.users, user.id ≠ userID) ∧ ∃ user ∈ db'.users, user.id = userID ∧
        user.email = normalizeEmail P profile.email

/-- A provider answered with an identity of the account. -/
def IdentityLinked (h : History) (j : ℕ) (userID : ID) : Prop :=
  ∃ provider code rawState binding, ∃ profile : Profile,
    Took h j (.callback provider code rawState binding (.ok profile)) fun db _ =>
      ∃ row ∈ db.identities, row.provider = provider ∧
        row.providerAccountID = profile.accountID ∧ row.userID = userID

/-- An administrator made the account. -/
def MadeByAdmin (h : History) (j : ℕ) (userID : ID) : Prop :=
  ∃ c : Claims, ∃ name email password, (c.isSuperAdmin ∨ c.isAdmin) ∧
    Took h j (.createUser (some c) name email password) fun db db' =>
      (∀ user ∈ db.users, user.id ≠ userID) ∧ ∃ user ∈ db'.users, user.id = userID

/-- Why an account counts as confirmed. -/
inductive Confirmed (h : History) (userID : ID) : Prop where
  | link {k : ℕ} (hlink : FollowedLink P h k userID)
  | address {j : ℕ} (hvouched : AddressVouched P h j userID)
  | signup {j : ℕ} (hsignup : SignedUp P h j userID)
  | admin {j : ℕ} (hadmin : MadeByAdmin h j userID)

/-- Whom the provider stands for in callback `j`. -/
inductive Vouched (h : History) (j : ℕ) (userID : ID) : Prop where
  | identity (hidentity : IdentityLinked h j userID)
  | address (hvouched : AddressVouched P h j userID)
  | signup (hsignup : SignedUp P h j userID)

/-- A login with an SSH key: the challenge was drawn by request `j` for the same address,
is gone with the login, was in time and is signed by a key of the account. -/
def SignedChallenge (h : History) (k j : ℕ) (user : User) : Prop :=
  ∃ limit email nonce publicKey signature,
    let r := Ask.completeSSHKeyLogin limit email nonce publicKey signature
    Found h k r user ∧
      (trimSpace email = [] ∨ user.email = normalizeEmail P (trimSpace email)) ∧
      (∃ row : SSHLoginChallenge,
        row.nonce = nonce ∧ nonce = P.nonce j ∧ row.email = trimSpace email ∧
          Took h k r (fun db db' => row ∈ db.challenges ∧ ¬nonceHeld nonce db') ∧
          InTime h k r row.expiresAt ∧
          ∃ limit' email', trimSpace email' = trimSpace email ∧
            Took h j (.beginSSHKeyLogin limit' email') fun _ db' => row ∈ db'.challenges) ∧
      ∃ pub, P.parsePublicKey publicKey = some pub ∧
        P.verify pub (loginPayload nonce) signature ∧
        Took h k r fun db _ => ∃ key ∈ db.sshKeys,
          key.fingerprint = P.fingerprint pub ∧ key.userID = user.id

/-- Session `k` of an account goes back to a login: with the password of the account, a
key of it, a link mailed to it or a provider that stands for it, through refreshes each
of which takes the refresh token of the session before in time. -/
inductive Rooted (h : History) : ℕ → ID → Prop where
  | password {k : ℕ} {limit : Option ℤ} {email password : Str} {user : User}
      (hfound : Found h k (.loginWithEmailPassword limit email password) user)
      (hemail : user.email = normalizeEmail P email)
      (hpassword : P.compare user.password password) : Rooted h k user.id
  | sshKey {k j : ℕ} {user : User} (hsigned : SignedChallenge P h k j user) :
      Rooted h k user.id
  | link {k : ℕ} {token password : Str} {user : User}
      (hfound : Found h k (.verifyEmail token password) user)
      (hlink : FollowedLink P h k user.id) : Rooted h k user.id
  | provider {k j : ℕ} {code : Str} {row : OAuthLoginCode} {user : User}
      (hfound : Found h k (.completeOAuth code) user) (huser : row.userID = user.id)
      (hconsumed : Took h k (.completeOAuth code) fun db db' =>
        row ∈ db.loginCodes ∧ ¬codeHeld row.code db')
      (hintime : InTime h k (.completeOAuth code) row.expiresAt)
      (hcode : row.code = P.loginCode j) (hvouched : Vouched P h j user.id) :
      Rooted h k user.id
  | refreshed {k j : ℕ} {token : Str} {row : RefreshToken} {user : User}
      (hfound : Found h k (.loginWithRefreshToken token) user) (huser : row.userID = user.id)
      (hconsumed : Took h k (.loginWithRefreshToken token) fun db db' =>
        row ∈ db.refreshTokens ∧ ¬tokenHeld row.token db')
      (hintime : InTime h k (.loginWithRefreshToken token) row.expiresAt)
      (htoken : row.token = P.uuid j) (hfrom : Rooted h j user.id) : Rooted h k user.id

/-! ### Evidence stays -/

section Stays

variable {P} {h h' : History}

variable {k : ℕ} {p : Database → Database → Prop}

theorem Took.mono {r : Ask} (h₀ : Took h k r p) (hsub : h.past ⊆ h'.past) : Took h' k r p := by
  obtain ⟨e, he, hactor, hp⟩ := h₀
  exact ⟨e, hsub he, hactor, hp⟩

theorem Took.imp {r : Ask} {q : Database → Database → Prop} (h₀ : Took h k r p)
    (hpq : ∀ db db', p db db' → q db db') : Took h k r q := by
  obtain ⟨e, he, hactor, hp⟩ := h₀
  exact ⟨e, he, hactor, hpq _ _ hp⟩

theorem Took.here {r : Ask} {s : Database} (hp : p h.now s) : Took (h.push (some (k, r)) s) k r p :=
  ⟨_, List.mem_cons_self, rfl, hp⟩

theorem Mailed.mono {row : EmailVerification} (h₀ : Mailed P h row)
    (hsub : h.past ⊆ h'.past) : Mailed P h' row := by
  obtain ⟨j, r, address, hr, hhash, haddress, hmail⟩ := h₀
  exact ⟨j, r, address, hr, hhash, haddress.mono hsub, fun hmailer => (hmail hmailer).mono hsub⟩

variable {userID : ID}

theorem FollowedLink.mono (h₀ : FollowedLink P h k userID) (hsub : h.past ⊆ h'.past) :
    FollowedLink P h' k userID := by
  obtain ⟨token, password, row, hrow, huser, hhash, hintime, hmailed⟩ := h₀
  exact ⟨token, password, row, hrow.mono hsub, huser, hhash, hintime.mono hsub,
    hmailed.mono hsub⟩

variable {j : ℕ}

theorem AddressVouched.mono (h₀ : AddressVouched P h j userID) (hsub : h.past ⊆ h'.past) :
    AddressVouched P h' j userID := by
  obtain ⟨provider, code, rawState, binding, profile, hverified, htook⟩ := h₀
  exact ⟨provider, code, rawState, binding, profile, hverified, htook.mono hsub⟩

theorem SignedUp.mono (h₀ : SignedUp P h j userID) (hsub : h.past ⊆ h'.past) :
    SignedUp P h' j userID := by
  obtain ⟨provider, code, rawState, binding, profile, hverified, htook⟩ := h₀
  exact ⟨provider, code, rawState, binding, profile, hverified, htook.mono hsub⟩

theorem IdentityLinked.mono (h₀ : IdentityLinked h j userID) (hsub : h.past ⊆ h'.past) :
    IdentityLinked h' j userID := by
  obtain ⟨provider, code, rawState, binding, profile, htook⟩ := h₀
  exact ⟨provider, code, rawState, binding, profile, htook.mono hsub⟩

theorem MadeByAdmin.mono (h₀ : MadeByAdmin h j userID) (hsub : h.past ⊆ h'.past) :
    MadeByAdmin h' j userID := by
  obtain ⟨c, name, email, password, hadmin, htook⟩ := h₀
  exact ⟨c, name, email, password, hadmin, htook.mono hsub⟩

theorem Confirmed.mono (h₀ : Confirmed P h userID) (hsub : h.past ⊆ h'.past) :
    Confirmed P h' userID := by
  cases h₀ with
  | link hlink => exact .link (hlink.mono hsub)
  | address hvouched => exact .address (hvouched.mono hsub)
  | signup hsignup => exact .signup (hsignup.mono hsub)
  | admin hadmin => exact .admin (hadmin.mono hsub)

theorem Vouched.mono (h₀ : Vouched P h j userID) (hsub : h.past ⊆ h'.past) :
    Vouched P h' j userID := by
  cases h₀ with
  | identity hidentity => exact .identity (hidentity.mono hsub)
  | address hvouched => exact .address (hvouched.mono hsub)
  | signup hsignup => exact .signup (hsignup.mono hsub)

theorem SignedChallenge.mono {user : User} (h₀ : SignedChallenge P h k j user)
    (hsub : h.past ⊆ h'.past) : SignedChallenge P h' k j user := by
  obtain ⟨limit, email, nonce, publicKey, signature, hfound, hemail,
    ⟨row, hnonce, hdrawn, hrow, htook, hintime, limit', email', heq, hbegun⟩,
    pub, hparse, hverify, hkey⟩ := h₀
  exact ⟨limit, email, nonce, publicKey, signature, hfound.mono hsub, hemail,
    ⟨row, hnonce, hdrawn, hrow, htook.mono hsub, hintime.mono hsub, limit', email', heq,
      hbegun.mono hsub⟩, pub, hparse, hverify, hkey.mono hsub⟩

theorem Rooted.mono (h₀ : Rooted P h k userID) (hsub : h.past ⊆ h'.past) :
    Rooted P h' k userID := by
  induction h₀ with
  | password hfound hemail hpassword => exact .password (hfound.mono hsub) hemail hpassword
  | sshKey hsigned => exact .sshKey (hsigned.mono hsub)
  | link hfound hlink => exact .link (hfound.mono hsub) (hlink.mono hsub)
  | provider hfound huser hconsumed hintime hcode hvouched =>
      exact .provider (hfound.mono hsub) huser (hconsumed.mono hsub) (hintime.mono hsub)
        hcode (hvouched.mono hsub)
  | refreshed hfound huser hconsumed hintime htoken _ ih =>
      exact .refreshed (hfound.mono hsub) huser (hconsumed.mono hsub) (hintime.mono hsub)
        htoken ih

end Stays

/-! ## What a step may do -/

/-- No secret of request `i` is or was in the tables. -/
def Fresh (h : History) (i : ℕ) : Prop :=
  ∀ db ∈ h.states,
    ¬tokenHeld (P.uuid i) db ∧ ¬nonceHeld (P.nonce i) db ∧ ¬codeHeld (P.loginCode i) db

/-- What a step to `s` may add: secrets of the request itself, each for the first time and
for a reason, and confirmations for a reason. -/
def additions (actor : Option (ℕ × Ask)) (h : History) (s : Database) : Additions where
  refreshToken row := ∃ k r, actor = some (k, r) ∧ row.token = P.uuid k ∧ Fresh P h k ∧
    Rooted P h k row.userID
  challenge row := ∃ k limit email, actor = some (k, .beginSSHKeyLogin limit email) ∧
    row.nonce = P.nonce k ∧ row.email = trimSpace email ∧ Fresh P h k
  loginCode row := ∃ k r, actor = some (k, r) ∧ row.code = P.loginCode k ∧ Fresh P h k ∧
    Vouched P h k row.userID ∧ Settled h.now row.userID
  verification row := Mailed P (h.push actor s) row
  identity row := Settled s row.userID
  confirmed userID := Confirmed P (h.push actor s) userID

def Allowed (actor : Option (ℕ × Ask)) (h : History) (s : Database) : Prop :=
  Change (additions P actor h s) h.now s

abbrev LawfulHistory (db : Database) (h : History) : Prop :=
  Lawful (Allowed P) db h

theorem allowed_idle (actor : Option (ℕ × Ask)) (h : History) :
    Allowed P actor h h.now :=
  Change.refl h.now

theorem allowed_tick {h : History} {s : Database} (htick : Tick h.now s) :
    Allowed P none h s := by
  obtain ⟨t, hle, rfl⟩ := htick
  exact { Change.refl h.now with now := hle }

/-! ## What the rows say -/

section Rows

variable {P} {db : Database} (hfresh : Fresh₀ db) {h : History}
  (hlawful : LawfulHistory P db h)

theorem past_subset_push (h : History) (actor : Option (ℕ × Ask)) (s : Database) :
    h.past ⊆ (h.push actor s).past :=
  fun _ => List.mem_cons_of_mem _

include hfresh hlawful

theorem token_rooted : ∀ s ∈ h.states, ∀ row ∈ s.refreshTokens, ∃ j,
    row.token = P.uuid j ∧ Rooted P h j row.userID := by
  induction hlawful with
  | start =>
      intro s hs row hrow
      obtain rfl := List.mem_singleton.mp hs
      rw [hfresh.refreshTokens] at hrow
      exact absurd hrow (Rows.notMem_empty row)
  | @push h actor s _ hallowed ih =>
      have hstays : ∀ s' ∈ h.states, ∀ row ∈ s'.refreshTokens, ∃ j,
          row.token = P.uuid j ∧ Rooted P (h.push actor s) j row.userID := by
        intro s' hs' row hrow
        obtain ⟨j, htoken, hrooted⟩ := ih s' hs' row hrow
        exact ⟨j, htoken, hrooted.mono (past_subset_push h actor s)⟩
      intro s' hs' row hrow
      rcases List.mem_cons.mp hs' with rfl | hs'
      · rcases hallowed.refreshTokens row hrow with hold | ⟨k, r, -, htoken, -, hrooted⟩
        · exact hstays h.now List.mem_cons_self row hold
        · exact ⟨k, htoken, hrooted.mono (past_subset_push h actor s')⟩
      · exact hstays s' hs' row hrow

theorem challenge_begun : ∀ s ∈ h.states, ∀ row ∈ s.challenges, ∃ j limit email,
    row.nonce = P.nonce j ∧ row.email = trimSpace email ∧
      Took h j (.beginSSHKeyLogin limit email) fun _ db' => row ∈ db'.challenges := by
  induction hlawful with
  | start =>
      intro s hs row hrow
      obtain rfl := List.mem_singleton.mp hs
      rw [hfresh.challenges] at hrow
      exact absurd hrow (Rows.notMem_empty row)
  | @push h actor s _ hallowed ih =>
      have hstays : ∀ s' ∈ h.states, ∀ row ∈ s'.challenges, ∃ j limit email,
          row.nonce = P.nonce j ∧ row.email = trimSpace email ∧
            Took (h.push actor s) j (.beginSSHKeyLogin limit email)
              fun _ db' => row ∈ db'.challenges := by
        intro s' hs' row hrow
        obtain ⟨j, limit, email, hnonce, hemail, htook⟩ := ih s' hs' row hrow
        exact ⟨j, limit, email, hnonce, hemail, htook.mono (past_subset_push h actor s)⟩
      intro s' hs' row hrow
      rcases List.mem_cons.mp hs' with rfl | hs'
      · rcases hallowed.challenges row hrow with hold | ⟨k, limit, email, rfl, hnonce, hemail, -⟩
        · exact hstays h.now List.mem_cons_self row hold
        · exact ⟨k, limit, email, hnonce, hemail, Took.here hrow⟩
      · exact hstays s' hs' row hrow

theorem code_vouched : ∀ s ∈ h.states, ∀ row ∈ s.loginCodes, ∃ j,
    row.code = P.loginCode j ∧ Vouched P h j row.userID ∧ Settled h.now row.userID := by
  induction hlawful with
  | start =>
      intro s hs row hrow
      obtain rfl := List.mem_singleton.mp hs
      rw [hfresh.loginCodes] at hrow
      exact absurd hrow (Rows.notMem_empty row)
  | @push h actor s _ hallowed ih =>
      have hstays : ∀ s' ∈ h.states, ∀ row ∈ s'.loginCodes, ∃ j,
          row.code = P.loginCode j ∧ Vouched P (h.push actor s) j row.userID ∧
            Settled s row.userID := by
        intro s' hs' row hrow
        obtain ⟨j, hcode, hvouched, hsettled⟩ := ih s' hs' row hrow
        exact ⟨j, hcode, hvouched.mono (past_subset_push h actor s),
          hallowed.settled hsettled⟩
      intro s' hs' row hrow
      rcases List.mem_cons.mp hs' with rfl | hs'
      · rcases hallowed.loginCodes row hrow with hold | ⟨k, r, -, hcode, -, hvouched, hsettled⟩
        · exact hstays h.now List.mem_cons_self row hold
        · exact ⟨k, hcode, hvouched.mono (past_subset_push h actor s'),
            hallowed.settled hsettled⟩
      · exact hstays s' hs' row hrow

theorem verification_mailed : ∀ s ∈ h.states, ∀ row ∈ s.verifications, Mailed P h row := by
  induction hlawful with
  | start =>
      intro s hs row hrow
      obtain rfl := List.mem_singleton.mp hs
      rw [hfresh.verifications] at hrow
      exact absurd hrow (Rows.notMem_empty row)
  | @push h actor s _ hallowed ih =>
      intro s' hs' row hrow
      rcases List.mem_cons.mp hs' with rfl | hs'
      · rcases hallowed.verifications row hrow with hold | hmailed
        · exact (ih h.now List.mem_cons_self row hold).mono (past_subset_push h actor s')
        · exact hmailed
      · exact (ih s' hs' row hrow).mono (past_subset_push h actor s)

theorem identity_settled : ∀ s ∈ h.states, ∀ row ∈ s.identities,
    Settled h.now row.userID := by
  induction hlawful with
  | start =>
      intro s hs row hrow
      obtain rfl := List.mem_singleton.mp hs
      rw [hfresh.identities] at hrow
      exact absurd hrow (Rows.notMem_empty row)
  | @push h actor s _ hallowed ih =>
      intro s' hs' row hrow
      rcases List.mem_cons.mp hs' with rfl | hs'
      · rcases hallowed.identities row hrow with hold | hsettled
        · exact hallowed.settled (ih h.now List.mem_cons_self row hold)
        · exact hsettled
      · exact hallowed.settled (ih s' hs' row hrow)

omit hfresh in
theorem settled_of_state {id : ID} : ∀ s ∈ h.states, Settled s id → Settled h.now id := by
  induction hlawful with
  | start =>
      intro s hs hsettled
      exact List.mem_singleton.mp hs ▸ hsettled
  | @push h actor s _ hallowed ih =>
      intro s' hs' hsettled
      rcases List.mem_cons.mp hs' with rfl | hs'
      · exact hsettled
      · exact hallowed.settled (ih s' hs' hsettled)

omit hfresh in
theorem verified_confirmed : ∀ s ∈ h.states, ∀ u ∈ s.users, u.emailVerified →
    (∃ u₀ ∈ db.users, u₀.id = u.id ∧ u₀.emailVerified) ∨ Confirmed P h u.id := by
  induction hlawful with
  | start =>
      intro s hs u hu hverified
      obtain rfl := List.mem_singleton.mp hs
      exact Or.inl ⟨u, hu, rfl, hverified⟩
  | @push h actor s _ hallowed ih =>
      have hstays : ∀ s' ∈ h.states, ∀ u ∈ s'.users, u.emailVerified →
          (∃ u₀ ∈ db.users, u₀.id = u.id ∧ u₀.emailVerified) ∨
            Confirmed P (h.push actor s) u.id := by
        intro s' hs' u hu hverified
        exact (ih s' hs' u hu hverified).imp id fun hc => hc.mono (past_subset_push h actor s)
      intro s' hs' u' hu' hverified
      rcases List.mem_cons.mp hs' with rfl | hs'
      · rcases hallowed.users.verified u' hu' hverified with ⟨u, hu, hid, hv⟩ | hconfirmed
        · exact hid ▸ hstays h.now List.mem_cons_self u hu hv
        · exact Or.inr hconfirmed
      · exact hstays s' hs' u' hu' hverified

end Rows

end Nipa.Accounts
