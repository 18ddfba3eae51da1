import Nipa.Accounts.OAuth
import Nipa.Accounts.Registration
import Nipa.Accounts.Users

/-!
# What a statement changes

A change of the tables is described by what it may add: the rows it may put into the
tables of secrets and identities, and the accounts it may confirm.  Whatever else it
does, it keeps every account, keeps confirmed accounts confirmed and deactivated ones
deactivated, and does not turn back the clock.  Changes can be chained, so that every
statement has one description.
-/

namespace Nipa.Accounts

open Support

/-- What a change may add. -/
structure Additions where
  refreshToken : RefreshToken → Prop
  challenge : SSHLoginChallenge → Prop
  loginCode : OAuthLoginCode → Prop
  verification : EmailVerification → Prop
  identity : UserIdentity → Prop
  confirmed : ID → Prop

/-- Nothing is added. -/
def Additions.nothing : Additions where
  refreshToken _ := False
  challenge _ := False
  loginCode _ := False
  verification _ := False
  identity _ := False
  confirmed _ := False

/-- What `A` allows, `B` allows. -/
structure Additions.Le (A B : Additions) : Prop where
  refreshToken : ∀ row, A.refreshToken row → B.refreshToken row
  challenge : ∀ row, A.challenge row → B.challenge row
  loginCode : ∀ row, A.loginCode row → B.loginCode row
  verification : ∀ row, A.verification row → B.verification row
  identity : ∀ row, A.identity row → B.identity row
  confirmed : ∀ id, A.confirmed id → B.confirmed id

theorem Additions.nothing_le (A : Additions) : Additions.nothing.Le A :=
  ⟨nofun, nofun, nofun, nofun, nofun, nofun⟩

/-- An account that can no longer turn out to be anybody else's. -/
def Settled (db : Database) (id : ID) : Prop :=
  ∃ u ∈ db.users, u.id = id ∧ (u.emailVerified ∨ u.deleted)

/-- How the users may change. -/
structure UsersChange (confirmed : ID → Prop) (users users' : Rows User.id) : Prop where
  kept : ∀ u ∈ users, ∃ u' ∈ users', u'.id = u.id ∧
    (u.emailVerified → u'.emailVerified) ∧ (u.deleted → u'.deleted)
  verified : ∀ u' ∈ users', u'.emailVerified →
    (∃ u ∈ users, u.id = u'.id ∧ u.emailVerified) ∨ confirmed u'.id

namespace UsersChange

variable {confirmed : ID → Prop} {users users' users'' : Rows User.id}

theorem refl (users : Rows User.id) : UsersChange confirmed users users :=
  ⟨fun u hu => ⟨u, hu, rfl, id, id⟩, fun u hu hverified => Or.inl ⟨u, hu, rfl, hverified⟩⟩

theorem trans (h : UsersChange confirmed users users')
    (h' : UsersChange confirmed users' users'') : UsersChange confirmed users users'' := by
  refine ⟨fun u hu => ?_, fun u'' hu'' hverified => ?_⟩
  · obtain ⟨u', hu', hid', hv', hd'⟩ := h.kept u hu
    obtain ⟨u'', hu'', hid'', hv'', hd''⟩ := h'.kept u' hu'
    exact ⟨u'', hu'', hid''.trans hid', hv'' ∘ hv', hd'' ∘ hd'⟩
  · rcases h'.verified u'' hu'' hverified with ⟨u', hu', hid', hv'⟩ | hconfirmed
    · rcases h.verified u' hu' hv' with ⟨u, hu, hid, hv⟩ | hconfirmed
      · exact Or.inl ⟨u, hu, hid.trans hid', hv⟩
      · exact Or.inr (hid' ▸ hconfirmed)
    · exact Or.inr hconfirmed

theorem mono (h : UsersChange confirmed users users') {confirmed' : ID → Prop}
    (hle : ∀ id, confirmed id → confirmed' id) : UsersChange confirmed' users users' :=
  ⟨h.kept, fun u' hu' hverified => (h.verified u' hu' hverified).imp id (hle _)⟩

theorem update {id : ID} {set : User → User} {hset : ∀ u, (set u).id = u.id}
    (hverified : ∀ u, u.emailVerified → (set u).emailVerified)
    (hdeleted : ∀ u, u.deleted → (set u).deleted)
    (hconfirmed : confirmed id ∨ ∀ u, (set u).emailVerified → u.emailVerified) :
    UsersChange confirmed users (users.update (isLive id) set hset) := by
  refine ⟨fun u hu => ?_, fun u' hu' hv' => ?_⟩
  · refine ⟨if isLive id u then set u else u, Rows.mem_update.mpr ⟨u, hu, rfl⟩, ?_⟩
    split
    · exact ⟨hset u, hverified u, hdeleted u⟩
    · exact ⟨rfl, fun h => h, fun h => h⟩
  · obtain ⟨u, hu, rfl⟩ := Rows.mem_update.mp hu'
    by_cases hlive : isLive id u
    · rw [if_pos hlive] at hv' ⊢
      rcases hconfirmed with hconfirmed | hback
      · right
        rw [hset u]
        have hid : u.id = id := by
          unfold isLive at hlive
          rw [Bool.and_eq_true, beq_iff_eq] at hlive
          exact hlive.1
        exact hid ▸ hconfirmed
      · exact Or.inl ⟨u, hu, (hset u).symm, hback u hv'⟩
    · rw [if_neg hlive] at hv' ⊢
      exact Or.inl ⟨u, hu, rfl, hv'⟩

theorem insert {row : User} (h : users.insert? row = some users')
    (hconfirmed : row.emailVerified → confirmed row.id) :
    UsersChange confirmed users users' := by
  refine ⟨fun u hu => ⟨u, (Rows.mem_insert? h).mpr (Or.inr hu), rfl, id, id⟩,
    fun u' hu' hv' => ?_⟩
  rcases (Rows.mem_insert? h).mp hu' with rfl | hu
  · exact Or.inr (hconfirmed hv')
  · exact Or.inl ⟨u', hu, rfl, hv'⟩

end UsersChange

/-- A change that adds no more than `A` allows. -/
structure Change (A : Additions) (db db' : Database) : Prop where
  now : db.now ≤ db'.now
  users : UsersChange A.confirmed db.users db'.users
  refreshTokens : ∀ row ∈ db'.refreshTokens, row ∈ db.refreshTokens ∨ A.refreshToken row
  challenges : ∀ row ∈ db'.challenges, row ∈ db.challenges ∨ A.challenge row
  loginCodes : ∀ row ∈ db'.loginCodes, row ∈ db.loginCodes ∨ A.loginCode row
  verifications : ∀ row ∈ db'.verifications, row ∈ db.verifications ∨ A.verification row
  identities : ∀ row ∈ db'.identities, row ∈ db.identities ∨ A.identity row

namespace Change

variable {A B : Additions} {db db' db'' : Database}

theorem refl (db : Database) : Change A db db where
  now := le_refl _
  users := UsersChange.refl _
  refreshTokens _ h := Or.inl h
  challenges _ h := Or.inl h
  loginCodes _ h := Or.inl h
  verifications _ h := Or.inl h
  identities _ h := Or.inl h

theorem trans (h : Change A db db') (h' : Change A db' db'') : Change A db db'' where
  now := h.now.trans h'.now
  users := h.users.trans h'.users
  refreshTokens row hrow := (h'.refreshTokens row hrow).elim (h.refreshTokens row) Or.inr
  challenges row hrow := (h'.challenges row hrow).elim (h.challenges row) Or.inr
  loginCodes row hrow := (h'.loginCodes row hrow).elim (h.loginCodes row) Or.inr
  verifications row hrow := (h'.verifications row hrow).elim (h.verifications row) Or.inr
  identities row hrow := (h'.identities row hrow).elim (h.identities row) Or.inr

theorem mono (h : Change A db db') (hle : A.Le B) : Change B db db' where
  now := h.now
  users := h.users.mono hle.confirmed
  refreshTokens row hrow := (h.refreshTokens row hrow).imp id (hle.refreshToken row)
  challenges row hrow := (h.challenges row hrow).imp id (hle.challenge row)
  loginCodes row hrow := (h.loginCodes row hrow).imp id (hle.loginCode row)
  verifications row hrow := (h.verifications row hrow).imp id (hle.verification row)
  identities row hrow := (h.identities row hrow).imp id (hle.identity row)

theorem of_nothing (h : Change .nothing db db') : Change A db db' :=
  h.mono A.nothing_le

theorem settled (h : Change A db db') {id : ID} (hsettled : Settled db id) :
    Settled db' id := by
  obtain ⟨u, hu, rfl, hstate⟩ := hsettled
  obtain ⟨u', hu', hid, hv, hd⟩ := h.users.kept u hu
  exact ⟨u', hu', hid, hstate.imp hv hd⟩

end Change

/-! ## The statements -/

/-- Whatever the statement does on success is a change that `A` allows. -/
def Changes {α : Type} (A : Additions) (x : Statement α) : Prop :=
  ∀ db a db', x db = .ok (a, db') → Change A db db'

namespace Changes

variable {α β : Type} {A B : Additions}

theorem andThen {x : Statement α} {y : α → Statement β} (hx : Changes A x)
    (hy : ∀ a, Changes A (y a)) : Changes A (andThen x y) := by
  intro db b db'' h
  unfold Accounts.andThen at h
  obtain ⟨⟨a, db'⟩, hfirst, hsecond⟩ := bind_eq_ok.mp h
  exact (hx db a db' hfirst).trans (hy a db' b db'' hsecond)

theorem idle {x : Statement α} (h : ∀ db a db', x db = .ok (a, db') → db' = db) :
    Changes A x := by
  intro db a db' hx
  rw [h db a db' hx]
  exact Change.refl db

/-! ### Users -/

theorem updateUser {id : ID} {set : User → User} {hset : ∀ u, (set u).id = u.id}
    (hverified : ∀ u, u.emailVerified → (set u).emailVerified)
    (hdeleted : ∀ u, u.deleted → (set u).deleted)
    (hconfirmed : A.confirmed id ∨ ∀ u, (set u).emailVerified → u.emailVerified)
    {db : Database} : Change A db (db.updateUser id set hset) :=
  { Change.refl db with
    users := @UsersChange.update A.confirmed db.users id set hset hverified hdeleted hconfirmed }

theorem userUpdateProfile (id : ID) (name : Str) :
    Changes A (userUpdateProfile id name) := by
  intro db a db' h
  obtain ⟨-, rfl⟩ := Prod.mk.inj (Except.ok.inj h)
  refine updateUser ?_ ?_ (Or.inr ?_)
  all_goals exact fun _ h => h

theorem userUpdatePassword (id : ID) (password : Str) :
    Changes A (userUpdatePassword id password) := by
  intro db a db' h
  obtain ⟨-, rfl⟩ := Prod.mk.inj (Except.ok.inj h)
  refine updateUser ?_ ?_ (Or.inr ?_)
  all_goals exact fun _ h => h

theorem userUpdateEmail (id : ID) (email : Str) : Changes A (userUpdateEmail id email) := by
  intro db a db' h
  obtain ⟨_, -, h⟩ := bind_eq_ok.mp h
  obtain ⟨-, rfl⟩ := Prod.mk.inj (Except.ok.inj h)
  refine updateUser ?_ ?_ (Or.inr ?_)
  all_goals exact fun _ h => h

theorem userUpdateAdminFlags (id : ID) (isAdmin isSuperAdmin : Bool) :
    Changes A (userUpdateAdminFlags id isAdmin isSuperAdmin) := by
  intro db a db' h
  obtain ⟨-, rfl⟩ := Prod.mk.inj (Except.ok.inj h)
  refine updateUser ?_ ?_ (Or.inr ?_)
  all_goals exact fun _ h => h

theorem userDeleteByID (id : ID) : Changes A (userDeleteByID id) := by
  intro db a db' h
  obtain ⟨-, rfl⟩ := Prod.mk.inj (Except.ok.inj h)
  refine updateUser ?_ ?_ (Or.inr ?_)
  · exact fun _ hv => hv
  · exact fun _ _ => rfl
  · exact fun _ hv => hv

theorem userSetEmailVerified {id : ID} (hconfirmed : A.confirmed id) :
    Changes A (userSetEmailVerified id) := by
  intro db a db' h
  obtain ⟨-, rfl⟩ := Prod.mk.inj (Except.ok.inj h)
  refine updateUser ?_ ?_ (Or.inl hconfirmed)
  · exact fun _ _ => rfl
  · exact fun _ hd => hd

theorem userCreate {row : User} (hconfirmed : row.emailVerified → A.confirmed row.id) :
    Changes A (userCreate row) := by
  intro db a db' h
  unfold Accounts.userCreate at h
  split at h
  case isTrue => cases h
  case isFalse =>
      split at h
      case h_1 => cases h
      case h_2 users husers =>
          obtain ⟨-, rfl⟩ := Prod.mk.inj (Except.ok.inj h)
          exact { Change.refl db with users := UsersChange.insert husers hconfirmed }

theorem userCreateUnverified {row : User} (hconfirmed : row.emailVerified → A.confirmed row.id) :
    Changes A (userCreateUnverified row) := by
  intro db a db' h
  obtain ⟨_, -, h⟩ := bind_eq_ok.mp h
  obtain ⟨users, husers, h⟩ := bind_eq_ok.mp h
  obtain ⟨user, -, h⟩ := bind_eq_ok.mp h
  obtain ⟨-, rfl⟩ := Prod.mk.inj (Except.ok.inj h)
  exact { Change.refl db with
    users := UsersChange.insert (unique_eq_ok.mp husers) hconfirmed }

/-! ### Secrets -/

variable {expiresAt : ℤ}

theorem saveRefreshToken {userID : ID} {token : Str}
    (hallowed : A.refreshToken ⟨userID, token, expiresAt⟩) :
    Changes A (saveRefreshToken userID token expiresAt) := by
  intro db a db' h
  obtain ⟨tokens, htokens, h⟩ := bind_eq_ok.mp h
  obtain ⟨_, -, h⟩ := bind_eq_ok.mp h
  obtain ⟨-, rfl⟩ := Prod.mk.inj (Except.ok.inj h)
  exact { Change.refl db with
    refreshTokens := Rows.old_or_of_insert? (unique_eq_ok.mp htokens) hallowed }

theorem getAndDeleteRefreshToken (token : Str) :
    Changes A (getAndDeleteRefreshToken token) := by
  intro db a db' h
  obtain ⟨row, -, h⟩ := bind_eq_ok.mp h
  obtain ⟨-, rfl⟩ := Prod.mk.inj (Except.ok.inj h)
  exact { Change.refl db with
    refreshTokens := fun row hrow => Or.inl (Rows.mem_of_mem_delete hrow) }

theorem deleteRefreshTokens (userID : ID) : Changes A (deleteRefreshTokens userID) := by
  intro db a db' h
  obtain ⟨-, rfl⟩ := Prod.mk.inj (Except.ok.inj h)
  exact { Change.refl db with
    refreshTokens := fun row hrow => Or.inl (Rows.mem_of_mem_delete hrow) }

theorem createSSHLoginChallenge {email nonce : Str}
    (hallowed : A.challenge ⟨email, nonce, expiresAt⟩) :
    Changes A (createSSHLoginChallenge email nonce expiresAt) := by
  intro db a db' h
  obtain ⟨challenges, hchallenges, h⟩ := bind_eq_ok.mp h
  obtain ⟨-, rfl⟩ := Prod.mk.inj (Except.ok.inj h)
  exact { Change.refl db with
    challenges := Rows.old_or_of_insert? (unique_eq_ok.mp hchallenges) hallowed }

theorem deleteExpiredSSHLoginChallenges (before : ℤ) :
    Changes A (deleteExpiredSSHLoginChallenges before) := by
  intro db a db' h
  obtain ⟨-, rfl⟩ := Prod.mk.inj (Except.ok.inj h)
  exact { Change.refl db with
    challenges := fun row hrow => Or.inl (Rows.mem_of_mem_delete hrow) }

theorem consumeSSHLoginChallenge (nonce : Str) :
    Changes A (consumeSSHLoginChallenge nonce) := by
  intro db a db' h
  obtain ⟨row, -, h⟩ := bind_eq_ok.mp h
  obtain ⟨-, rfl⟩ := Prod.mk.inj (Except.ok.inj h)
  exact { Change.refl db with
    challenges := fun row hrow => Or.inl (Rows.mem_of_mem_delete hrow) }

theorem sshKeyCreate (key : SSHPublicKey) : Changes A (sshKeyCreate key) := by
  intro db a db' h
  obtain ⟨_, -, h⟩ := bind_eq_ok.mp h
  obtain ⟨keys, -, h⟩ := bind_eq_ok.mp h
  obtain ⟨_, -, h⟩ := bind_eq_ok.mp h
  obtain ⟨-, rfl⟩ := Prod.mk.inj (Except.ok.inj h)
  exact { Change.refl db with }

theorem sshKeyDelete (userID keyID : ID) : Changes A (sshKeyDelete userID keyID) := by
  intro db a db' h
  unfold Accounts.sshKeyDelete at h
  dsimp only at h
  split at h
  case isTrue =>
      obtain ⟨-, rfl⟩ := Prod.mk.inj (Except.ok.inj h)
      exact { Change.refl db with }
  case isFalse => cases h

/-! ### Confirmations -/

theorem upsertEmailVerification {userID : ID} {tokenHash : Str}
    (hallowed : A.verification ⟨userID, tokenHash, expiresAt⟩) :
    Changes A (upsertEmailVerification userID tokenHash expiresAt) := by
  intro db a db' h
  obtain ⟨_, -, h⟩ := bind_eq_ok.mp h
  obtain ⟨verifications, hrows, h⟩ := bind_eq_ok.mp h
  obtain ⟨_, -, h⟩ := bind_eq_ok.mp h
  obtain ⟨-, rfl⟩ := Prod.mk.inj (Except.ok.inj h)
  exact { Change.refl db with
    verifications := fun row hrow =>
      (Rows.old_or_of_insert? (unique_eq_ok.mp hrows) hallowed row hrow).imp_left
        Rows.mem_of_mem_delete }

theorem deleteEmailVerification (userID : ID) :
    Changes A (deleteEmailVerification userID) := by
  intro db a db' h
  obtain ⟨-, rfl⟩ := Prod.mk.inj (Except.ok.inj h)
  exact { Change.refl db with
    verifications := fun row hrow => Or.inl (Rows.mem_of_mem_delete hrow) }

theorem deleteExpiredEmailVerifications (before : ℤ) :
    Changes A (deleteExpiredEmailVerifications before) := by
  intro db a db' h
  obtain ⟨-, rfl⟩ := Prod.mk.inj (Except.ok.inj h)
  exact { Change.refl db with
    verifications := fun row hrow => Or.inl (Rows.mem_of_mem_delete hrow) }

theorem enqueue (mail : Mail) : Changes A (enqueue mail) := by
  intro db a db' h
  obtain ⟨-, rfl⟩ := Prod.mk.inj (Except.ok.inj h)
  exact { Change.refl db with }

/-! ### Identities and login codes -/

theorem createIdentity {identity : UserIdentity} (hallowed : A.identity identity) :
    Changes A (createIdentity identity) := by
  intro db a db' h
  obtain ⟨_, -, h⟩ := bind_eq_ok.mp h
  obtain ⟨identities, hrows, h⟩ := bind_eq_ok.mp h
  obtain ⟨_, -, h⟩ := bind_eq_ok.mp h
  obtain ⟨-, rfl⟩ := Prod.mk.inj (Except.ok.inj h)
  exact { Change.refl db with
    identities := Rows.old_or_of_insert? (unique_eq_ok.mp hrows) hallowed }

theorem deleteIdentity (id userID : ID) : Changes A (deleteIdentity id userID) := by
  intro db a db' h
  unfold Accounts.deleteIdentity at h
  dsimp only at h
  split at h
  case isTrue =>
      obtain ⟨-, rfl⟩ := Prod.mk.inj (Except.ok.inj h)
      exact { Change.refl db with
        identities := fun row hrow => Or.inl (Rows.mem_of_mem_delete hrow) }
  case isFalse => cases h

theorem createOAuthLoginCode {code : Str} {userID : ID}
    (hallowed : A.loginCode ⟨code, userID, expiresAt⟩) :
    Changes A (createOAuthLoginCode code userID expiresAt) := by
  intro db a db' h
  obtain ⟨codes, hrows, h⟩ := bind_eq_ok.mp h
  obtain ⟨_, -, h⟩ := bind_eq_ok.mp h
  obtain ⟨-, rfl⟩ := Prod.mk.inj (Except.ok.inj h)
  exact { Change.refl db with
    loginCodes := Rows.old_or_of_insert? (unique_eq_ok.mp hrows) hallowed }

theorem consumeOAuthLoginCode (code : Str) : Changes A (consumeOAuthLoginCode code) := by
  intro db a db' h
  obtain ⟨row, -, h⟩ := bind_eq_ok.mp h
  obtain ⟨-, rfl⟩ := Prod.mk.inj (Except.ok.inj h)
  exact { Change.refl db with
    loginCodes := fun row hrow => Or.inl (Rows.mem_of_mem_delete hrow) }

theorem deleteExpiredOAuthLoginCodes (before : ℤ) :
    Changes A (deleteExpiredOAuthLoginCodes before) := by
  intro db a db' h
  obtain ⟨-, rfl⟩ := Prod.mk.inj (Except.ok.inj h)
  exact { Change.refl db with
    loginCodes := fun row hrow => Or.inl (Rows.mem_of_mem_delete hrow) }

/-! ### Transactions -/

theorem updateEmailAndRevokeTokens (id : ID) (email : Str) :
    Changes A (updateEmailAndRevokeTokens id email) :=
  (userUpdateEmail id email).andThen fun _ => deleteRefreshTokens id

theorem updatePasswordAndRevokeTokens (id : ID) (password : Str) :
    Changes A (updatePasswordAndRevokeTokens id password) :=
  (userUpdatePassword id password).andThen fun _ => deleteRefreshTokens id

theorem deactivateAndRevokeTokens (id : ID) : Changes A (deactivateAndRevokeTokens id) :=
  (userDeleteByID id).andThen fun _ => deleteRefreshTokens id

theorem resetUnverifiedCredentials (userID : ID) :
    Changes A (resetUnverifiedCredentials userID) :=
  (userUpdatePassword userID []).andThen fun _ =>
    (deleteEmailVerification userID).andThen fun _ => deleteRefreshTokens userID

end Changes

end Nipa.Accounts
