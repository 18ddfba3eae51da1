import Nipa.Accounts.OnboardingFlows

/-!
# Sessions over whole runs

Whatever requests come in and however their steps interleave, every session goes back to
a login of a confirmed account, no secret lets anyone in twice, and once the sessions of
an account are ended none of its refresh tokens is ever taken again.
-/

namespace Nipa.Accounts

open Support

variable {K : Type} (P : Primitives K)

/-- The servers that runs from a database lead to. -/
abbrev Reachable (db₀ : Database) (server : AccountServer) : Prop :=
  Server.Reachable (program P) (Accept P) Tick db₀ server

variable {P} {db₀ : Database} {server : AccountServer}

/-! ## Every reachable server is sound -/

theorem fresh_start (hfresh₀ : Fresh₀ db₀) (i : ℕ) : Fresh P ⟨db₀, []⟩ i := by
  intro db hdb
  obtain rfl := List.mem_singleton.mp hdb
  refine ⟨?_, ?_, ?_⟩
  · rintro ⟨row, hrow, -⟩
    exact Rows.notMem_empty row (hfresh₀.refreshTokens ▸ hrow)
  · rintro ⟨row, hrow, -⟩
    exact Rows.notMem_empty row (hfresh₀.challenges ▸ hrow)
  · rintro ⟨row, hrow, -⟩
    exact Rows.notMem_empty row (hfresh₀.loginCodes ▸ hrow)

abbrev Sound (P : Primitives K) (db₀ : Database) (server : AccountServer) : Prop :=
  Server.Sound (Allowed P) (Right P) db₀ server

variable {h : History}

theorem Found.settled (hlawful : LawfulHistory P db₀ h) {i : ℕ} {r : Ask} {user : User}
    (hfound : Found h i r user) : Settled h.now user.id := by
  obtain ⟨e, he, -, hmem, hverified, -⟩ := hfound
  rcases hmem with hbefore | hafter
  · exact settled_of_state hlawful e.before (Trace.mem_states_of_past he)
      ⟨user, hbefore, rfl, Or.inl hverified⟩
  · exact settled_of_state hlawful e.after (hlawful.after_mem_states he)
      ⟨user, hafter, rfl, Or.inl hverified⟩

theorem settled_of_accept (hsound : Sound P db₀ server) {r : Ask} (haccept : Accept P server r)
    {c : Claims} (hclaims : r.claims = some c) : Settled server.trace.now c.userID := by
  obtain ⟨j, r', result, hanswer, rfl, -⟩ := haccept.claims c hclaims
  obtain ⟨⟨user, t, hc, -, hfound, -⟩, -⟩ := hsound.answer hanswer
  rw [hc]
  exact hfound.settled hsound.lawful

theorem justified_program (hfresh₀ : Fresh₀ db₀) (hsound : Sound P db₀ server) {r : Ask}
    (haccept : Accept P server r) :
    Fine P db₀ server.requests.length r (Right P server.requests.length r)
      (program P server.requests.length r) server.trace := by
  have hhere : Here P db₀ server.requests.length server.trace :=
    ⟨(fresh_start hfresh₀ _).others (hsound.others le_rfl), hsound.lawful⟩
  cases r with
  | loginWithEmailPassword limit email password =>
      exact Fine.loginWithEmailPassword hhere limit email password
  | loginWithRefreshToken token => exact Fine.loginWithRefreshToken hfresh₀ hhere token
  | beginSSHKeyLogin limit email => exact Fine.beginSSHKeyLogin hhere limit email
  | completeSSHKeyLogin limit email nonce publicKey signature =>
      exact Fine.completeSSHKeyLogin hfresh₀ hhere limit email nonce publicKey signature
  | logout token => exact Fine.logout hhere token
  | createUser claims name email password =>
      exact Fine.createUser hhere claims name email password
  | updateProfile claims userID name => exact Fine.updateProfile hhere claims userID name
  | updateEmail claims userID email => exact Fine.updateEmail hhere claims userID email
  | changePassword claims userID oldPassword newPassword =>
      exact Fine.changePassword hhere claims userID oldPassword newPassword
  | resetPassword claims userID newPassword =>
      exact Fine.resetPassword hhere claims userID newPassword
  | setAdminFlags claims userID isAdmin isSuperAdmin =>
      exact Fine.setAdminFlags hhere claims userID isAdmin isSuperAdmin
  | deactivate claims userID => exact Fine.deactivate hhere claims userID
  | addSSHKey claims userID name publicKey =>
      exact Fine.addSSHKey hhere claims userID name publicKey
  | deleteSSHKey claims userID keyID => exact Fine.deleteSSHKey hhere claims userID keyID
  | register name email => exact Fine.register hhere name email
  | verifyEmail token password => exact Fine.verifyEmail hfresh₀ hhere token password
  | resendVerification email =>
      exact Fine.resendVerification hhere (Or.inr ⟨email, rfl⟩) rfl email
  | startOAuth provider redirect claims =>
      exact Fine.startOAuth hhere provider redirect claims
        fun c hc => settled_of_accept hsound haccept hc
  | callback provider code rawState binding exchange =>
      refine Fine.callback hfresh₀ hhere provider code rawState binding exchange
        fun data hdata => ?_
      -- the state was sent by an earlier request of the account it links
      obtain ⟨j, r', target, binding', hanswer⟩ :=
        haccept.state provider code rawState binding exchange data rfl hdata
      exact (hsound.answer hanswer).1
  | completeOAuth code => exact Fine.completeOAuth hfresh₀ hhere code
  | disconnectIdentity claims identityID =>
      exact Fine.disconnectIdentity hhere claims identityID

theorem sound_of_reachable (hfresh₀ : Fresh₀ db₀) (hreach : Reachable P db₀ server) :
    Sound P db₀ server :=
  Server.Sound.of_reachable (fun _ _ hsound haccept => justified_program hfresh₀ hsound haccept)
    (fun _ _ htick => allowed_tick P htick) hreach

/-! ## A small server -/

theorem accept_plain {r : Ask} (hclaims : r.claims = none)
    (hstate : ∀ rawState, P.readState rawState = none) : Accept P server r :=
  ⟨fun _ hc => absurd (hclaims.symm.trans hc) (Option.some_ne_none _).symm,
    fun _ _ rawState _ _ _ _ h =>
      absurd ((hstate rawState).symm.trans h) (Option.some_ne_none _).symm⟩

namespace Small

/-- Secrets are told apart by their lengths. -/
def secretOf (i : ℕ) : Str :=
  List.replicate i 'x'

theorem secretOf_injective : Function.Injective secretOf := fun i j h => by
  simpa only [secretOf, List.length_replicate] using congrArg List.length h

/-- Passwords are stored as they are, and nothing is ever read from outside. -/
def primitives : Primitives Unit where
  toLower s := s
  compare hash password := hash == password
  hash := some
  sign _ := some []
  hashToken s := s
  bindingHash s := s
  signState _ := some []
  readState _ := none
  safeRedirect s := s
  authCodeURL _ s := s
  verificationURL s := s
  parsePublicKey _ := none
  validateSupported _ := true
  fingerprint _ := []
  verify _ _ _ := false
  parseAuthorizedKey _ := .error "invalid public key"
  providers := []
  sshKeys := false
  mailer := true
  uuid := secretOf
  nonce := secretOf
  stateNonce := secretOf
  binding := secretOf
  verificationToken := secretOf
  loginCode := secretOf
  generate i k := 10 * i + k
  uuid_injective := secretOf_injective
  nonce_injective := secretOf_injective
  loginCode_injective := secretOf_injective

def owner : User where
  id := 1
  name := "Super Admin".toList
  email := "nipa".toList
  password := "swordfish".toList
  isSuperAdmin := true
  isAdmin := false
  emailVerified := true
  deleted := false

def database : Database where
  now := 0
  users := ⟨[owner], List.nodup_singleton _⟩
  refreshTokens := ∅
  challenges := ∅
  sshKeys := ∅
  verifications := ∅
  identities := ∅
  loginCodes := ∅
  outbox := []

theorem fresh : Fresh₀ database := ⟨rfl, rfl, rfl, rfl, rfl⟩

/-- The session that request `i` gets. -/
def session (i : ℕ) : LoginResult where
  accessToken := []
  refreshToken := secretOf i
  tokenType := "Bearer"
  expiresIn := tokenExpirationMinutes * 60
  refreshExpiresIn := refreshTokenExpiration / second
  claims := claimsOf owner 0

def login : Ask :=
  .loginWithEmailPassword none "nipa".toList "swordfish".toList

/-- The owner logs in. -/
def loggedIn : AccountServer :=
  [0, 0, 0].foldl Server.advance
    (Server.ask (program primitives) ⟨⟨database, []⟩, []⟩ login)

theorem loggedIn_reachable : Reachable primitives database loggedIn :=
  Server.Reachable.advance
    (Server.Reachable.ask Relation.ReflTransGen.refl (accept_plain rfl fun _ => rfl)) _

theorem loggedIn_answer :
    loggedIn.requests[0]? = some (login, .ret (.session (session 0))) := rfl

def signup : Ask :=
  .register "Ann".toList "ann@nipa".toList

def follow : Ask :=
  .verifyEmail (secretOf 1) "battery staple".toList

/-- Someone registers and follows the link. -/
def followed : AccountServer :=
  [2, 2, 2, 2, 2].foldl Server.advance (Server.ask (program primitives)
    ([1, 1, 1].foldl Server.advance (Server.ask (program primitives) loggedIn signup)) follow)

theorem followed_reachable : Reachable primitives database followed :=
  Server.Reachable.advance ((Server.Reachable.advance
    (loggedIn_reachable.ask (accept_plain rfl fun _ => rfl)) _).ask
      (accept_plain rfl fun _ => rfl)) _

/-- The owner uses the refresh token of the first session. -/
def refreshed : AccountServer :=
  [1, 1, 1, 1, 1].foldl Server.advance
    (Server.ask (program primitives) loggedIn (.loginWithRefreshToken (secretOf 0)))

theorem refreshed_reachable : Reachable primitives database refreshed :=
  Server.Reachable.advance
    (loggedIn_reachable.ask (accept_plain rfl fun _ => rfl)) _

theorem refreshed_answer : refreshed.requests[1]? =
    some (.loginWithRefreshToken (secretOf 0), .ret (.session (session 1))) := rfl

def change : Ask :=
  .changePassword (some (claimsOf owner 0)) 1 "swordfish".toList "correct horse".toList

/-- The owner changes the password. -/
def changed : AccountServer :=
  [1, 1, 1].foldl Server.advance (Server.ask (program primitives) loggedIn change)

theorem changed_reachable : Reachable primitives database changed := by
  refine Server.Reachable.advance (loggedIn_reachable.ask ⟨?_, ?_⟩) _
  · rintro c hc
    obtain rfl := Option.some.inj hc
    exact ⟨0, login, session 0, loggedIn_answer, rfl, by decide⟩
  · intro provider code rawState binding exchange data hask
    cases hask

theorem changed_answer : changed.requests[1]? = some (change, .ret .done) := rfl

end Small

/-! ## Where sessions come from -/

/-- Whoever gets a session is let in as an account that was there, confirmed and not
closed, and that became confirmed for a reason; and the session goes back to a login. -/
theorem sessions_rooted (hfresh₀ : Fresh₀ db₀) (hreach : Reachable P db₀ server) {i : ℕ}
    {r : Ask} {result : LoginResult}
    (hanswer : server.requests[i]? = some (r, .ret (.session result))) :
    ∃ user t, result.claims = claimsOf user t ∧ result.refreshToken = P.uuid i ∧
      Found server.trace i r user ∧ Rooted P server.trace i user.id ∧
        ((∃ u₀ ∈ db₀.users, u₀.id = user.id ∧ u₀.emailVerified) ∨
          Confirmed P server.trace user.id) := by
  have hsound := sound_of_reachable hfresh₀ hreach
  obtain ⟨⟨user, t, hclaims, htoken, hfound, hrooted, -⟩, -⟩ := hsound.answer hanswer
  refine ⟨user, t, hclaims, htoken, hfound, hrooted, ?_⟩
  obtain ⟨e, he, -, hmem, hverified, -⟩ := hfound
  rcases hmem with hbefore | hafter
  · exact verified_confirmed hsound.lawful e.before (Trace.mem_states_of_past he) user hbefore
      hverified
  · exact verified_confirmed hsound.lawful e.after (hsound.lawful.after_mem_states he) user
      hafter hverified

theorem sessions_rooted_login : ∃ user t, (Small.session 0).claims = claimsOf user t ∧
    (Small.session 0).refreshToken = Small.primitives.uuid 0 ∧
      Found Small.loggedIn.trace 0 Small.login user ∧
        Rooted Small.primitives Small.loggedIn.trace 0 user.id ∧
          ((∃ u₀ ∈ Small.database.users, u₀.id = user.id ∧ u₀.emailVerified) ∨
            Confirmed Small.primitives Small.loggedIn.trace user.id) :=
  sessions_rooted Small.fresh Small.loggedIn_reachable Small.loggedIn_answer

/-- Every account that counts as confirmed was so from the start, was made by an
administrator, or was confirmed by a link mailed to it or by a provider. -/
theorem accounts_confirmed (hfresh₀ : Fresh₀ db₀) (hreach : Reachable P db₀ server)
    {user : User} (hmem : user ∈ server.trace.now.users) (hverified : user.emailVerified) :
    (∃ u₀ ∈ db₀.users, u₀.id = user.id ∧ u₀.emailVerified) ∨
      Confirmed P server.trace user.id :=
  verified_confirmed (sound_of_reachable hfresh₀ hreach).lawful server.trace.now
    List.mem_cons_self user hmem hverified

theorem accounts_confirmed_followed : Confirmed Small.primitives Small.followed.trace 10 := by
  obtain ⟨user, hmem, hid, hverified⟩ : ∃ user ∈ Small.followed.trace.now.users,
      user.id = 10 ∧ user.emailVerified := ⟨_, List.mem_cons_self, rfl, rfl⟩
  obtain ⟨u₀, hold, hsame, -⟩ | hconfirmed :=
    accounts_confirmed Small.fresh Small.followed_reachable hmem hverified
  · rw [List.mem_singleton.mp hold, hid] at hsame
    exact absurd hsame (by decide)
  · exact hid ▸ hconfirmed

/-! ## Secrets -/

variable {actor : Option (ℕ × Ask)}

theorem secret_new (secret : Secret) {s : Database} (hallowed : Allowed P actor h s)
    (hheld : secret.held s) : secret.held h.now ∨ ∀ s' ∈ h.states, ¬secret.held s' := by
  cases secret with
  | refreshToken token =>
      obtain ⟨row, hrow, rfl⟩ := hheld
      rcases hallowed.refreshTokens row hrow with hold | ⟨k, r, -, htoken, hfresh, -⟩
      · exact Or.inl ⟨row, hold, rfl⟩
      · exact Or.inr fun s' hs' => htoken.symm ▸ (hfresh s' hs').1
  | nonce nonce =>
      obtain ⟨row, hrow, rfl⟩ := hheld
      rcases hallowed.challenges row hrow with hold | ⟨k, limit, email, -, hnonce, -, hfresh⟩
      · exact Or.inl ⟨row, hold, rfl⟩
      · exact Or.inr fun s' hs' => hnonce.symm ▸ (hfresh s' hs').2.1
  | loginCode code =>
      obtain ⟨row, hrow, rfl⟩ := hheld
      rcases hallowed.loginCodes row hrow with hold | ⟨k, r, -, hcode, hfresh, -⟩
      · exact Or.inl ⟨row, hold, rfl⟩
      · exact Or.inr fun s' hs' => hcode.symm ▸ (hfresh s' hs').2.2

/-- No two requests get a session for the same refresh token, challenge or login code. -/
theorem secrets_once (hfresh₀ : Fresh₀ db₀) (hreach : Reachable P db₀ server) {i j : ℕ}
    {r r' : Ask} {result result' : LoginResult} {secret : Secret}
    (hanswer : server.requests[i]? = some (r, .ret (.session result)))
    (hanswer' : server.requests[j]? = some (r', .ret (.session result')))
    (hsecret : r.secret = some secret) (hsecret' : r'.secret = some secret) : i = j := by
  have hsound := sound_of_reachable hfresh₀ hreach
  obtain ⟨⟨_, _, -, -, -, -, hspent⟩, -⟩ := hsound.answer hanswer
  obtain ⟨⟨_, _, -, -, -, -, hspent'⟩, -⟩ := hsound.answer hanswer'
  obtain ⟨e, he, hactor, hheld, hgone⟩ := hspent secret hsecret
  obtain ⟨e', he', hactor', hheld', hgone'⟩ := hspent' secret hsecret'
  have hsame : e = e' :=
    hsound.lawful.taken_once (fun _ _ _ _ hallowed => secret_new secret hallowed) he he' hheld
      hgone hheld' hgone'
  subst hsame
  exact (Prod.mk.inj (Option.some.inj (hactor.symm.trans hactor'))).1

theorem secrets_once_refreshed : (1 : ℕ) = 1 :=
  secrets_once Small.fresh Small.refreshed_reachable Small.refreshed_answer
    Small.refreshed_answer rfl rfl

/-! ## The end of sessions -/

theorem token_row_new (row : RefreshToken) {s : Database} (hallowed : Allowed P actor h s)
    (hrow : row ∈ s.refreshTokens) :
    row ∈ h.now.refreshTokens ∨ ∀ s' ∈ h.states, row ∉ s'.refreshTokens := by
  rcases hallowed.refreshTokens row hrow with hold | ⟨k, r, -, htoken, hfresh, -⟩
  · exact Or.inl hold
  · exact Or.inr fun s' hs' hmem => (hfresh s' hs').1 ⟨row, hmem, htoken⟩

theorem closed_stays {userID : ID} {s : Database} (hallowed : Allowed P actor h s)
    (hclosed : ∃ user ∈ h.now.users, user.id = userID ∧ user.deleted) :
    ∃ user ∈ s.users, user.id = userID ∧ user.deleted := by
  obtain ⟨user, hmem, rfl, hdeleted⟩ := hclosed
  obtain ⟨user', hmem', hid, -, hkeep⟩ := hallowed.users.kept user hmem
  exact ⟨user', hmem', hid, hkeep hdeleted⟩

/-- A request that changes the password or the address of an account or closes it takes a
step from which on no refresh token that the account has had so far is in the table, and
after which an account it closes is never again seen open. -/
theorem revoked_for_good (hfresh₀ : Fresh₀ db₀) (hreach : Reachable P db₀ server) {i : ℕ}
    {r : Ask} {reply : Reply} {userID : ID} (hrevokes : r.revokes = some userID)
    (hanswer : server.requests[i]? = some (r, .ret reply)) :
    ∃ later e earlier, server.trace.past = later ++ e :: earlier ∧ e.actor = some (i, r) ∧
      (∀ row, (∃ s ∈ (e :: earlier).map Entry.before, row ∈ s.refreshTokens) →
        row.userID = userID →
          (∀ e' ∈ later, row ∉ e'.before.refreshTokens) ∧
            row ∉ server.trace.now.refreshTokens) ∧
      (r.closes = some userID → (∃ user ∈ e.before.users, user.id = userID) →
        (∀ e' ∈ later, ∃ user ∈ e'.before.users, user.id = userID ∧ user.deleted) ∧
          ∃ user ∈ server.trace.now.users, user.id = userID ∧ user.deleted) := by
  have hsound := sound_of_reachable hfresh₀ hreach
  obtain ⟨e, he, hactor, htokens, hclosed⟩ := (hsound.answer hanswer).2 userID hrevokes
  obtain ⟨later, earlier, hpast⟩ := List.append_of_mem he
  refine ⟨later, e, earlier, hpast, hactor, fun row hheld huser => ?_, fun hcloses hthere => ?_⟩
  · obtain ⟨s, hs, hrow⟩ := hheld
    exact hsound.lawful.gone (I := fun s => row ∈ s.refreshTokens)
      (fun _ _ _ _ hallowed => token_row_new row hallowed) hpast hs hrow
      fun hafter => htokens row hafter huser
  · obtain ⟨user, hmem, hid⟩ := hthere
    obtain ⟨h', hbefore, hallowed⟩ := hsound.lawful.allowed_of_mem he
    obtain ⟨user', hmem', hid', -, -⟩ := hallowed.users.kept user (hbefore ▸ hmem)
    have hsame : user'.id = userID := hid'.trans hid
    refine hsound.lawful.since (I := fun s => ∃ user ∈ s.users, user.id = userID ∧ user.deleted)
      (fun _ _ _ _ _ hthen hallowed => closed_stays hallowed hthen) hpast ?_
    exact ⟨user', hmem', hsame, hclosed hcloses user' hmem' hsame⟩

theorem revoked_for_good_changed :
    ∃ later e earlier, Small.changed.trace.past = later ++ e :: earlier ∧
      e.actor = some (1, Small.change) ∧
      (∀ row, (∃ s ∈ (e :: earlier).map Entry.before, row ∈ s.refreshTokens) →
        row.userID = 1 →
          (∀ e' ∈ later, row ∉ e'.before.refreshTokens) ∧
            row ∉ Small.changed.trace.now.refreshTokens) ∧
      (Small.change.closes = some 1 → (∃ user ∈ e.before.users, user.id = 1) →
        (∀ e' ∈ later, ∃ user ∈ e'.before.users, user.id = 1 ∧ user.deleted) ∧
          ∃ user ∈ Small.changed.trace.now.users, user.id = 1 ∧ user.deleted) :=
  revoked_for_good Small.fresh Small.changed_reachable rfl Small.changed_answer

end Nipa.Accounts
