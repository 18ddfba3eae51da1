import Nipa.Accounts.Rules

/-!
# Every flow keeps to the rules

Each request takes allowed steps only, and its answer is right: a session has the claims
of an account that was confirmed and goes back to a login, what let it in is spent, a
state links an account that is nobody else's, and whoever changes a password or an
address or closes an account leaves no refresh token of it.
-/

namespace Nipa.Accounts

open Support

variable {K : Type} (P : Primitives K)

/-- What lets someone in once. -/
inductive Secret where
  | refreshToken (token : Str)
  | nonce (value : Str)
  | loginCode (code : Str)

def Secret.held : Secret → Database → Prop
  | .refreshToken token => tokenHeld token
  | .nonce value => nonceHeld value
  | .loginCode code => codeHeld code

/-- The secret that a request presents. -/
def Ask.secret : Ask → Option Secret
  | .loginWithRefreshToken token => some (.refreshToken token)
  | .completeSSHKeyLogin _ _ nonce _ _ => some (.nonce nonce)
  | .completeOAuth code => some (.loginCode (trimSpace code))
  | _ => none

/-- The secret that let the request in was there and is gone. -/
def Spent (h : History) (i : ℕ) (r : Ask) : Prop :=
  ∀ secret, r.secret = some secret →
    Took h i r fun db db' => secret.held db ∧ ¬secret.held db'

/-- The account whose sessions a request ends. -/
def Ask.revokes : Ask → Option ID
  | .updateEmail _ userID _ => some userID
  | .changePassword _ userID _ _ => some userID
  | .resetPassword _ userID _ => some userID
  | .deactivate _ userID => some userID
  | _ => none

/-- The account that a request closes. -/
def Ask.closes : Ask → Option ID
  | .deactivate _ userID => some userID
  | _ => none

/-- One step left no refresh token of the account, and closed it if that was asked. -/
def Revoked (h : History) (i : ℕ) (r : Ask) (userID : ID) : Prop :=
  Took h i r fun _ db' =>
    (∀ row ∈ db'.refreshTokens, row.userID ≠ userID) ∧
      (r.closes = some userID → ∀ user ∈ db'.users, user.id = userID → user.deleted)

/-- What an answer says about the past. -/
def Grounded (i : ℕ) (r : Ask) : Reply → History → Prop
  | .session result, h => ∃ user t, result.claims = claimsOf user t ∧
      result.refreshToken = P.uuid i ∧ Found h i r user ∧ Rooted P h i user.id ∧ Spent h i r
  | .authorize _ _ state, h => state.linkUser = 0 ∨ Settled h.now state.linkUser
  | _, _ => True

def Right (i : ℕ) (r : Ask) (reply : Reply) (h : History) : Prop :=
  Grounded P i r reply h ∧ ∀ userID, r.revokes = some userID → Revoked h i r userID

variable {P} {db₀ : Database} {i : ℕ} {r : Ask} {h h' : History}

theorem Spent.mono (h₀ : Spent h i r) (hsub : h.past ⊆ h'.past) : Spent h' i r :=
  fun secret hsecret => (h₀ secret hsecret).mono hsub

theorem spent_of_took {secret : Secret} (hsecret : r.secret = some secret)
    (htook : Took h i r fun db db' => secret.held db ∧ ¬secret.held db') : Spent h i r := by
  intro other hother
  obtain rfl := Option.some.inj (hsecret.symm.trans hother)
  exact htook

theorem right_of_grounded {reply : Reply} (hgrounded : Grounded P i r reply h)
    (hnone : r.revokes = none) : Right P i r reply h :=
  ⟨hgrounded, fun _ hsome => absurd (hnone.symm.trans hsome) (Option.some_ne_none _).symm⟩

/-! ## Statements read back -/

section Statements

variable {db db' : Database}

theorem mem_of_userGetByEmail {email : Str} {user : User}
    (hx : userGetByEmail email db = .ok user) :
    user ∈ db.users ∧ user.email = email ∧ ¬user.deleted := by
  obtain ⟨hmem, hsel⟩ := Rows.find?_some (one_eq_ok.mp hx)
  rw [Bool.and_eq_true, beq_iff_eq, Bool.not_eq_true'] at hsel
  exact ⟨hmem, hsel.1, Bool.not_eq_true _ ▸ hsel.2⟩

theorem mem_of_userGetByID {id : ID} {user : User} (hx : userGetByID id db = .ok user) :
    user ∈ db.users ∧ user.id = id ∧ ¬user.deleted := by
  obtain ⟨hmem, hsel⟩ := Rows.find?_some (one_eq_ok.mp hx)
  unfold isLive at hsel
  rw [Bool.and_eq_true, beq_iff_eq, Bool.not_eq_true'] at hsel
  exact ⟨hmem, hsel.1, Bool.not_eq_true _ ▸ hsel.2⟩

theorem of_getAndDeleteRefreshToken {token : Str} {row : RefreshToken}
    (hx : getAndDeleteRefreshToken token db = .ok (row, db')) :
    row ∈ db.refreshTokens ∧ row.token = token ∧ ¬tokenHeld token db' := by
  obtain ⟨row', hrow, hrest⟩ := bind_eq_ok.mp hx
  obtain ⟨rfl, rfl⟩ := Prod.mk.inj (Except.ok.inj hrest)
  obtain ⟨hmem, hsel⟩ := Rows.find?_some (one_eq_ok.mp hrow)
  refine ⟨hmem, beq_iff_eq.mp hsel, ?_⟩
  rintro ⟨other, hother, hkey⟩
  exact (Rows.mem_delete.mp hother).2 (beq_iff_eq.mpr hkey)

theorem of_consumeSSHLoginChallenge {nonce : Str} {row : SSHLoginChallenge}
    (hx : consumeSSHLoginChallenge nonce db = .ok (row, db')) :
    row ∈ db.challenges ∧ row.nonce = nonce ∧ ¬nonceHeld nonce db' := by
  obtain ⟨row', hrow, hrest⟩ := bind_eq_ok.mp hx
  obtain ⟨rfl, rfl⟩ := Prod.mk.inj (Except.ok.inj hrest)
  obtain ⟨hmem, hsel⟩ := Rows.find?_some (one_eq_ok.mp hrow)
  refine ⟨hmem, beq_iff_eq.mp hsel, ?_⟩
  rintro ⟨other, hother, hkey⟩
  exact (Rows.mem_delete.mp hother).2 (beq_iff_eq.mpr hkey)

variable {userID : ID}

theorem of_consumeOAuthLoginCode {code : Str} {expiresAt : ℤ}
    (hx : consumeOAuthLoginCode code db = .ok ((userID, expiresAt), db')) :
    ⟨code, userID, expiresAt⟩ ∈ db.loginCodes ∧ ¬codeHeld code db' := by
  obtain ⟨row, hrow, hrest⟩ := bind_eq_ok.mp hx
  obtain ⟨hpair, rfl⟩ := Prod.mk.inj (Except.ok.inj hrest)
  obtain ⟨rfl, rfl⟩ := Prod.mk.inj hpair
  obtain ⟨hmem, hsel⟩ := Rows.find?_some (one_eq_ok.mp hrow)
  obtain rfl := beq_iff_eq.mp hsel
  refine ⟨hmem, ?_⟩
  rintro ⟨other, hother, hkey⟩
  exact (Rows.mem_delete.mp hother).2 (beq_iff_eq.mpr hkey)

theorem of_deleteRefreshTokens {u : Unit} (hx : deleteRefreshTokens userID db = .ok (u, db')) :
    (∀ row ∈ db'.refreshTokens, row.userID ≠ userID) ∧ db'.users = db.users := by
  obtain ⟨-, rfl⟩ := Prod.mk.inj (Except.ok.inj hx)
  refine ⟨fun row hrow heq => ?_, rfl⟩
  exact (Rows.mem_delete.mp hrow).2 (beq_iff_eq.mpr heq)

theorem andThen_eq_ok {α β : Type} {x : Statement α} {y : α → Statement β} {b : β} :
    andThen x y db = .ok (b, db') ↔
      ∃ a mid, x db = .ok (a, mid) ∧ y a mid = .ok (b, db') := by
  unfold andThen
  rw [bind_eq_ok]
  exact ⟨fun ⟨r, hx, hy⟩ => ⟨r.1, r.2, hx, hy⟩, fun ⟨a, mid, hx, hy⟩ => ⟨(a, mid), hx, hy⟩⟩

theorem revoked_of_andThen {x : Statement Unit} {u : Unit}
    (hx : andThen x (fun _ => deleteRefreshTokens userID) db = .ok (u, db')) :
    ∀ row ∈ db'.refreshTokens, row.userID ≠ userID := by
  obtain ⟨_, mid, -, hdelete⟩ := andThen_eq_ok.mp hx
  exact (of_deleteRefreshTokens hdelete).1

theorem closed_of_deactivate {u : Unit} (hx : deactivateAndRevokeTokens userID db = .ok (u, db')) :
    ∀ user ∈ db'.users, user.id = userID → user.deleted := by
  obtain ⟨_, mid, hdelete, htokens⟩ := andThen_eq_ok.mp hx
  rw [(of_deleteRefreshTokens htokens).2]
  obtain ⟨-, rfl⟩ := Prod.mk.inj (Except.ok.inj hdelete)
  intro user huser hid
  obtain ⟨old, -, rfl⟩ := Database.mem_updateUser.mp huser
  by_cases hlive : isLive userID old
  · rw [if_pos hlive]
  · rw [if_neg hlive] at hid ⊢
    unfold isLive at hlive
    rw [hid, beq_self_eq_true, Bool.true_and, Bool.not_eq_true', Bool.not_eq_false] at hlive
    exact hlive

end Statements

/-! ## Sessions -/

namespace Fine

theorem loginResult (hhere : Here P db₀ i h) {user : User} (hfound : Found h i r user)
    (hrooted : Rooted P h i user.id) (hspent : Spent h i r) (hnone : r.revokes = none) :
    Fine P db₀ i r (Right P i r) (loginResult P i user) h := by
  unfold Accounts.loginResult
  refine clock hhere fun h₁ t hhere₁ hf₁ _ => orFail fun jwt _ => ?_
  refine store hhere₁ (fun h₂ a s hhere₂ hf₂ hrun => ?_) fun h₂ a _ hf₂ _ => ?_
  · have hroot₂ := hrooted.mono (hf₁.trans hf₂).past_subset
    exact Changes.saveRefreshToken (A := additions P (some (i, r)) h₂ s)
      ⟨i, r, rfl, rfl, hhere₂.fresh, hroot₂⟩ _ a s hrun
  · refine ret fun h₃ hf₃ _ => ?_
    have hsub := ((hf₁.trans hf₂).trans hf₃).past_subset
    exact right_of_grounded
      ⟨user, t, rfl, rfl, hfound.mono hsub, hrooted.mono hsub, hspent.mono hsub⟩ hnone

theorem loginWithEmailPassword (hhere : Here P db₀ i h) (limit : Option ℤ)
    (email password : Str) :
    Fine P db₀ i (.loginWithEmailPassword limit email password)
      (Right P i (.loginWithEmailPassword limit email password))
      (loginWithEmailPassword P i limit email password) h := by
  unfold Accounts.loginWithEmailPassword
  refine Justified.lift_bind fun _ _ => ?_
  refine attempt hhere fun h₁ found hhere₁ hf₁ htook => Justified.lift_bind fun user heq => ?_
  obtain rfl := notFoundAs_eq_ok.mp heq
  refine require fun hpassword => require fun hverified => ?_
  have hfound : Took h₁ i (.loginWithEmailPassword limit email password) fun db _ =>
      user ∈ db.users ∧ user.email = normalizeEmail P email ∧ ¬user.deleted :=
    htook.imp fun _ _ hx => mem_of_userGetByEmail hx
  have hlive : Found h₁ i (.loginWithEmailPassword limit email password) user :=
    hfound.imp fun _ _ hx => ⟨Or.inl hx.1, hverified, hx.2.2⟩
  obtain ⟨e, -, -, -, hemail, -⟩ := hfound
  exact loginResult hhere₁ hlive (.password hlive hemail hpassword) nofun rfl

theorem loginWithRefreshToken (hfresh₀ : Fresh₀ db₀) (hhere : Here P db₀ i h) (token : Str) :
    Fine P db₀ i (.loginWithRefreshToken token) (Right P i (.loginWithRefreshToken token))
      (loginWithRefreshToken P i token) h := by
  unfold Accounts.loginWithRefreshToken
  refine quiet hhere (Changes.getAndDeleteRefreshToken token)
    fun h₁ row hhere₁ hf₁ hconsumed => ?_
  refine clock hhere₁ fun h₂ t hhere₂ hf₂ hclock => require fun hexpiry => ?_
  refine read hhere₂ fun h₃ user hhere₃ hf₃ hread => require fun hverified => ?_
  have htaken : Took h₃ i (.loginWithRefreshToken token) fun db db' =>
      row ∈ db.refreshTokens ∧ row.token = token ∧ ¬tokenHeld token db' :=
    (hconsumed.mono (hf₂.trans hf₃).past_subset).imp fun _ _ => of_getAndDeleteRefreshToken
  have hintime : InTime h₃ i (.loginWithRefreshToken token) row.expiresAt := by
    refine (hclock.mono hf₃.past_subset).imp fun db _ hnow => ?_
    rw [hnow]
    exact not_lt.mp (of_decide_eq_false (Bool.not_eq_true' _ ▸ hexpiry))
  have huser : Took h₃ i (.loginWithRefreshToken token) fun db _ =>
      user ∈ db.users ∧ user.id = row.userID ∧ ¬user.deleted :=
    hread.imp fun _ _ => mem_of_userGetByID
  have hlive : Found h₃ i (.loginWithRefreshToken token) user :=
    huser.imp fun _ _ hx => ⟨Or.inl hx.1, hverified, hx.2.2⟩
  obtain ⟨-, -, -, -, hid, -⟩ := huser
  obtain ⟨e, he, -, hrow, htoken, -⟩ := id htaken
  -- the row was stored by an earlier session
  obtain ⟨j, hdrawn, hfrom⟩ := token_rooted hfresh₀ hhere₃.lawful e.before
    (Trace.mem_states_of_past he) row hrow
  have hspent : Took h₃ i (.loginWithRefreshToken token) fun db db' =>
      (Secret.refreshToken token).held db ∧ ¬(Secret.refreshToken token).held db' :=
    htaken.imp fun _ _ hx => ⟨⟨row, hx.1, hx.2.1⟩, hx.2.2⟩
  refine loginResult hhere₃ hlive (.refreshed hlive hid.symm ?_ hintime hdrawn ?_)
    (spent_of_took rfl hspent) rfl
  · exact htaken.imp fun _ _ hx => ⟨hx.1, hx.2.1 ▸ hx.2.2⟩
  · exact hid ▸ hfrom

theorem logout (hhere : Here P db₀ i h) (token : Str) :
    Fine P db₀ i (.logout token) (Right P i (.logout token)) (logout token) h := by
  have hdone : ∀ h' : History, Right P i (.logout token) .done h' := fun h' =>
    right_of_grounded trivial rfl
  unfold Accounts.logout
  split
  · exact ret fun h' _ _ => hdone h'
  · refine quietAttempt hhere (Changes.getAndDeleteRefreshToken token)
      fun h₁ deleted _ _ _ => ?_
    split
    · exact ret fun h' _ _ => hdone h'
    · split
      · exact ret fun h' _ _ => hdone h'
      · exact Justified.fail _

/-! ### SSH keys -/

theorem beginSSHKeyLogin (hhere : Here P db₀ i h) (limit : Option ℤ) (email : Str) :
    Fine P db₀ i (.beginSSHKeyLogin limit email) (Right P i (.beginSSHKeyLogin limit email))
      (beginSSHKeyLogin P i limit email) h := by
  unfold Accounts.beginSSHKeyLogin
  refine Justified.lift_bind fun _ _ => clock hhere fun h₁ now hhere₁ hf₁ _ => ?_
  refine quiet hhere₁ (Changes.deleteExpiredSSHLoginChallenges now)
    fun h₂ _ hhere₂ hf₂ _ => ?_
  refine store hhere₂ (fun h₃ a s hhere₃ _ hrun => ?_) fun h₃ _ _ _ _ => ?_
  · exact Changes.createSSHLoginChallenge
      (A := additions P (some (i, .beginSSHKeyLogin limit email)) h₃ s)
      ⟨i, limit, email, rfl, rfl, rfl, hhere₃.fresh⟩ _ a s hrun
  · exact ret fun h₄ _ _ => right_of_grounded trivial rfl

theorem sshUser {β : Type} {Q : β → History → Prop} {g : User → Flow β}
    (hhere : Here P db₀ i h) {email : Str} {keyUserID : ID}
    (hok : ∀ h' user, Here P db₀ i h' → Follows (Allowed P) h h' → Found h' i r user →
      user.id = keyUserID → email = [] ∨ user.email = normalizeEmail P email →
        Fine P db₀ i r Q (g user) h') :
    Fine P db₀ i r Q (sshUser P email keyUserID >>= g) h := by
  refine andThen hhere.lawful ?_
  unfold Accounts.sshUser
  split
  case isTrue hempty =>
      refine attempt hhere fun h₁ found hhere₁ hf₁ htook =>
        Justified.lift_bind fun user heq => require fun hverified => ?_
      obtain rfl := notFoundAs_eq_ok.mp heq
      have huser : Took h₁ i r fun db _ =>
          user ∈ db.users ∧ user.id = keyUserID ∧ ¬user.deleted :=
        htook.imp fun _ _ => mem_of_userGetByID
      have hlive : Found h₁ i r user :=
        huser.imp fun _ _ hx => ⟨Or.inl hx.1, hverified, hx.2.2⟩
      obtain ⟨-, -, -, -, hid, -⟩ := huser
      exact handOn (hok h₁ user hhere₁ hf₁ hlive hid (Or.inl hempty))
  case isFalse =>
      refine attempt hhere fun h₁ found hhere₁ hf₁ htook =>
        Justified.lift_bind fun user heq => require fun hid => require fun hverified => ?_
      obtain rfl := notFoundAs_eq_ok.mp heq
      have huser : Took h₁ i r fun db _ =>
          user ∈ db.users ∧ user.email = normalizeEmail P email ∧ ¬user.deleted :=
        htook.imp fun _ _ hx => mem_of_userGetByEmail hx
      have hlive : Found h₁ i r user :=
        huser.imp fun _ _ hx => ⟨Or.inl hx.1, hverified, hx.2.2⟩
      obtain ⟨-, -, -, -, hemail, -⟩ := huser
      exact handOn (hok h₁ user hhere₁ hf₁ hlive (beq_iff_eq.mp hid) (Or.inr hemail))

theorem completeSSHKeyLogin (hfresh₀ : Fresh₀ db₀) (hhere : Here P db₀ i h)
    (limit : Option ℤ) (email nonce : Str) (publicKey signature : List UInt8) :
    Fine P db₀ i (.completeSSHKeyLogin limit email nonce publicKey signature)
      (Right P i (.completeSSHKeyLogin limit email nonce publicKey signature))
      (completeSSHKeyLogin P i limit email nonce publicKey signature) h := by
  unfold Accounts.completeSSHKeyLogin
  refine Justified.lift_bind fun _ _ => require fun _ => require fun _ => require fun _ => ?_
  refine quietAttempt hhere (Changes.consumeSSHLoginChallenge nonce)
    fun h₁ consumed hhere₁ hf₁ htook => Justified.lift_bind fun row heq => ?_
  have hconsumed := htook row (notFoundAs_eq_ok.mp heq)
  refine require fun hemail => clock hhere₁ fun h₂ now hhere₂ hf₂ hclock => ?_
  refine require fun hexpiry => orFail fun pub hparse => require fun _ => ?_
  refine attempt hhere₂ fun h₃ found hhere₃ hf₃ hread => Justified.lift_bind fun key hkey => ?_
  obtain rfl := notFoundAs_eq_ok.mp hkey
  refine sshUser hhere₃ fun h₄ user hhere₄ hf₄ hlive hid huserEmail => ?_
  refine require fun hverify => ?_
  have hsub₃ := (hf₃.trans hf₄).past_subset
  have htaken : Took h₄ i (.completeSSHKeyLogin limit email nonce publicKey signature)
      fun db db' => row ∈ db.challenges ∧ row.nonce = nonce ∧ ¬nonceHeld nonce db' :=
    (hconsumed.mono (hf₂.trans (hf₃.trans hf₄)).past_subset).imp
      fun _ _ => of_consumeSSHLoginChallenge
  have hintime : InTime h₄ i (.completeSSHKeyLogin limit email nonce publicKey signature)
      row.expiresAt := by
    refine (hclock.mono hsub₃).imp fun db _ hnow => ?_
    rw [hnow]
    exact not_lt.mp (of_decide_eq_false (Bool.not_eq_true' _ ▸ hexpiry))
  have hregistered : Took h₄ i (.completeSSHKeyLogin limit email nonce publicKey signature)
      fun db _ => ∃ key ∈ db.sshKeys, key.fingerprint = P.fingerprint pub ∧
        key.userID = user.id := by
    refine (hread.mono hf₄.past_subset).imp fun db _ hx => ?_
    obtain ⟨hmem, hsel⟩ := Rows.find?_some (one_eq_ok.mp hx)
    exact ⟨key, hmem, beq_iff_eq.mp hsel, hid.symm⟩
  obtain ⟨e, he, -, hrow, hnonce, -⟩ := id htaken
  -- the challenge was drawn by an earlier request for the same address
  obtain ⟨j, limit', email', hdrawn, hrowEmail, hbegun⟩ :=
    challenge_begun hfresh₀ hhere₄.lawful e.before (Trace.mem_states_of_past he) row hrow
  have hsame : row.email = trimSpace email := beq_iff_eq.mp hemail
  have hsigned : SignedChallenge P h₄ i j user :=
    ⟨limit, email, nonce, publicKey, signature, hlive, huserEmail,
      ⟨row, hnonce, hnonce.symm.trans hdrawn, hsame, htaken.imp fun _ _ hx => ⟨hx.1, hx.2.2⟩,
        hintime, limit', email', hrowEmail.symm.trans hsame, hbegun⟩,
      pub, hparse, hverify, hregistered⟩
  have hspent : Took h₄ i (.completeSSHKeyLogin limit email nonce publicKey signature)
      fun db db' => (Secret.nonce nonce).held db ∧ ¬(Secret.nonce nonce).held db' :=
    htaken.imp fun _ _ hx => ⟨⟨row, hx.1, hx.2.1⟩, hx.2.2⟩
  exact loginResult hhere₄ hlive (.sshKey hsigned) (spent_of_took rfl hspent) rfl

end Fine

end Nipa.Accounts
