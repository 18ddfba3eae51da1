import Nipa.Accounts.UserFlows

/-!
# Registration and social logins keep to the rules

A link is mailed before it is followed, and whoever follows it confirms the account it
was made for.  A provider confirms the account whose address it vouches for, an identity
is linked to an account that is nobody else's, and a login code stands for such an
account.
-/

namespace Nipa.Accounts

open Support

variable {K : Type} {P : Primitives K} {db₀ : Database} {i : ℕ} {r : Ask} {h : History}

/-! ## Statements read back -/

section Statements

variable {db db' : Database}

variable {user : User} {u : Unit}

theorem of_issueVerification {now : ℤ} (hx : issueVerification P i user now db = .ok (u, db')) :
    db'.users = db.users ∧ (P.mailer → ∃ mail ∈ db'.outbox, mail.userID = user.id ∧
      mail.email = user.email ∧ mail.link = P.verificationURL (P.verificationToken i)) := by
  obtain ⟨_, db₁, hexpired, hx⟩ := andThen_eq_ok.mp hx
  obtain ⟨_, db₂, hupsert, hmail⟩ := andThen_eq_ok.mp hx
  obtain ⟨-, rfl⟩ := Prod.mk.inj (Except.ok.inj hexpired)
  obtain ⟨_, -, hupsert⟩ := bind_eq_ok.mp hupsert
  obtain ⟨_, -, hupsert⟩ := bind_eq_ok.mp hupsert
  obtain ⟨_, -, hupsert⟩ := bind_eq_ok.mp hupsert
  obtain ⟨-, rfl⟩ := Prod.mk.inj (Except.ok.inj hupsert)
  unfold enqueueVerification at hmail
  split at hmail
  case isTrue =>
      obtain ⟨-, rfl⟩ := Prod.mk.inj (Except.ok.inj hmail)
      exact ⟨rfl, fun _ => ⟨_, List.mem_cons_self, rfl, rfl, rfl⟩⟩
  case isFalse hoff =>
      obtain ⟨-, rfl⟩ := Prod.mk.inj (Except.ok.inj hmail)
      exact ⟨rfl, fun hon => absurd hon hoff⟩

theorem Changes.issueVerification {A : Additions} {now : ℤ} (hallowed : A.verification
      ⟨user.id, P.hashToken (P.verificationToken i), now + verificationTTL⟩) :
    Changes A (issueVerification P i user now) := by
  refine (deleteExpiredEmailVerifications now).andThen fun _ =>
    (upsertEmailVerification hallowed).andThen fun _ => ?_
  unfold enqueueVerification
  split
  · exact enqueue _
  · exact idle fun _ _ _ hx => (Prod.mk.inj (Except.ok.inj hx)).2.symm

theorem of_userCreateUnverified {row : User} (hx : userCreateUnverified row db = .ok (user, db')) :
    user ∈ db'.users ∧ user.id = row.id := by
  obtain ⟨_, -, hx⟩ := bind_eq_ok.mp hx
  obtain ⟨users, -, hx⟩ := bind_eq_ok.mp hx
  obtain ⟨found, hget, hx⟩ := bind_eq_ok.mp hx
  obtain ⟨rfl, rfl⟩ := Prod.mk.inj (Except.ok.inj hx)
  exact ⟨(mem_of_userGetByID hget).1, (mem_of_userGetByID hget).2.1⟩

theorem verified_of_userSetEmailVerified {id : ID} (hx : userSetEmailVerified id db = .ok (u, db'))
    (hmem : user ∈ db'.users) (hid : user.id = id) : user.emailVerified ∨ user.deleted := by
  obtain ⟨-, rfl⟩ := Prod.mk.inj (Except.ok.inj hx)
  obtain ⟨old, -, rfl⟩ := Database.mem_updateUser.mp hmem
  by_cases hlive : isLive id old
  · rw [if_pos hlive]
    exact Or.inl rfl
  · rw [if_neg hlive] at hid ⊢
    unfold isLive at hlive
    rw [hid, beq_self_eq_true, Bool.true_and, Bool.not_eq_true', Bool.not_eq_false] at hlive
    exact Or.inr hlive

variable {userID : ID}

theorem of_confirmAccount {hash : Str} (hx : confirmAccount userID hash db = .ok (user, db')) :
    user ∈ db'.users ∧ user.id = userID ∧ user.emailVerified ∧ ¬user.deleted := by
  obtain ⟨_, db₁, -, hx⟩ := andThen_eq_ok.mp hx
  obtain ⟨_, db₂, hverify, hx⟩ := andThen_eq_ok.mp hx
  obtain ⟨_, db₃, hdelete, hx⟩ := andThen_eq_ok.mp hx
  obtain ⟨found, hget, heq⟩ := map_eq_ok.mp hx
  obtain ⟨rfl, rfl⟩ := Prod.mk.inj heq
  obtain ⟨hmem, hid, hlive⟩ := mem_of_userGetByID hget
  obtain ⟨-, rfl⟩ := Prod.mk.inj (Except.ok.inj hdelete)
  have hstate := verified_of_userSetEmailVerified hverify hmem hid
  exact ⟨hmem, hid, hstate.resolve_right hlive, hlive⟩

theorem Changes.confirmAccount {A : Additions} {hash : Str} (hconfirmed : A.confirmed userID) :
    Changes A (confirmAccount userID hash) := by
  refine (userUpdatePassword userID hash).andThen fun _ =>
    (userSetEmailVerified hconfirmed).andThen fun _ =>
      (deleteEmailVerification userID).andThen fun _ => idle fun db user db' hx => ?_
  obtain ⟨_, -, heq⟩ := map_eq_ok.mp hx
  exact (Prod.mk.inj heq).2.symm

theorem of_createIdentity {identity : UserIdentity}
    (hx : createIdentity identity db = .ok (u, db')) :
    db'.users = db.users ∧ ∃ user ∈ db.users, user.id = identity.userID := by
  obtain ⟨_, -, hx⟩ := bind_eq_ok.mp hx
  obtain ⟨_, -, hx⟩ := bind_eq_ok.mp hx
  obtain ⟨_, href, hx⟩ := bind_eq_ok.mp hx
  obtain ⟨-, rfl⟩ := Prod.mk.inj (Except.ok.inj hx)
  refine ⟨rfl, ?_⟩
  unfold references at href
  split at href
  case isTrue hany =>
      obtain ⟨user, hmem, hid⟩ := Rows.any_iff.mp hany
      exact ⟨user, hmem, beq_iff_eq.mp hid⟩
  case isFalse => cases href

variable {provider : Str} {profile : Profile}

theorem settled_of_attachIdentity
    (hx : attachIdentity P i userID provider profile true db = .ok (u, db')) :
    Settled db' userID := by
  obtain ⟨_, db₁, hconfirm, hcreate⟩ := andThen_eq_ok.mp hx
  rw [if_pos rfl] at hconfirm
  obtain ⟨_, db₂, -, hverify⟩ := andThen_eq_ok.mp hconfirm
  obtain ⟨husers, user, hmem, hid⟩ := of_createIdentity hcreate
  refine ⟨user, husers.symm ▸ hmem, hid, ?_⟩
  exact verified_of_userSetEmailVerified hverify hmem hid

theorem Changes.attachIdentity {A : Additions} {confirmEmail : Bool}
    (hconfirmed : confirmEmail → A.confirmed userID)
    (hidentity : A.identity (identityOf P i userID provider profile)) :
    Changes A (attachIdentity P i userID provider profile confirmEmail) := by
  refine andThen ?_ fun _ => createIdentity hidentity
  split
  case isTrue hconfirm =>
      exact (resetUnverifiedCredentials userID).andThen fun _ =>
        userSetEmailVerified (hconfirmed hconfirm)
  case isFalse => exact idle fun _ _ _ hx => (Prod.mk.inj (Except.ok.inj hx)).2.symm

theorem Settled.attachIdentity {confirmEmail : Bool}
    (hx : attachIdentity P i userID provider profile confirmEmail db = .ok (u, db'))
    (hsettled : confirmEmail = false → Settled db userID) : Settled db' userID := by
  cases confirmEmail with
  | true => exact settled_of_attachIdentity hx
  | false =>
      exact (Changes.attachIdentity (A := { Additions.nothing with identity := fun _ => True })
        (fun hc => absurd hc Bool.false_ne_true) trivial db u db' hx).settled (hsettled rfl)

theorem of_createProviderAccount
    (hx : createProviderAccount P i provider profile db = .ok (userID, db')) :
    (∀ user ∈ db.users, user.id ≠ userID) ∧ Settled db' userID ∧
      (∃ user ∈ db'.users, user.id = userID ∧
        user.email = normalizeEmail P profile.email) ∧
      Change { Additions.nothing with
        identity := fun row => row.userID = userID
        confirmed := fun id => id = userID } db db' := by
  unfold createProviderAccount at hx
  obtain ⟨id, db₁, hcreate, hx⟩ := andThen_eq_ok.mp hx
  obtain ⟨user, _, hread, hx⟩ := andThen_eq_ok.mp hx
  obtain ⟨_, hget, heq⟩ := map_eq_ok.mp hread
  obtain ⟨rfl, rfl⟩ := Prod.mk.inj heq
  obtain ⟨_, db₂, hlink, hx⟩ := andThen_eq_ok.mp hx
  obtain ⟨rfl, rfl⟩ := Prod.mk.inj (Except.ok.inj hx)
  obtain ⟨hsame, hnew, hthere⟩ := of_userCreate hcreate
  have hid := (mem_of_userGetByID hget).2.1.trans hsame
  obtain ⟨husers, -⟩ := of_createIdentity hlink
  rw [hid]
  refine ⟨hnew, ⟨_, husers.symm ▸ hthere, rfl, Or.inl rfl⟩,
    ⟨_, husers.symm ▸ hthere, rfl, rfl⟩, ?_⟩
  exact (Changes.userCreate (fun _ => rfl) db id _ hcreate).trans
    (Changes.createIdentity hid _ _ _ hlink)

end Statements

namespace Fine

/-! ## Registration -/

theorem issueLink (hhere : Here P db₀ i h) {email : Str} {user : User}
    (hr : (∃ name email, r = .register name email) ∨ ∃ email, r = .resendVerification email)
    (hread : Took h i r fun db _ => getByEmail P email db = .ok user)
    (hnone : r.revokes = none) (now : ℤ) :
    Fine P db₀ i r (Right P i r)
      (Request.transact (issueVerification P i user now) >>= fun _ => pure .done) h := by
  refine write hhere (fun h₁ u s _ hf₁ hrun => ?_) fun h₁ _ _ _ _ _ => ?_
  · obtain ⟨-, hmail⟩ := of_issueVerification hrun
    refine ⟨{ Additions.nothing with verification := fun row =>
        row = ⟨user.id, P.hashToken (P.verificationToken i), now + verificationTTL⟩ },
      Changes.issueVerification rfl _ u s hrun, ⟨nofun, nofun, nofun, ?_, nofun, nofun⟩,
      ⟨nofun, nofun, nofun⟩⟩
    rintro row rfl
    refine ⟨i, r, user.email, hr, rfl, ?_, fun hon => Took.here (hmail hon)⟩
    refine ((hread.mono hf₁.past_subset).mono (past_subset_push h₁ _ s)).imp fun db _ hx => ?_
    exact ⟨user, Or.inl (mem_of_userGetByEmail hx).1, rfl, rfl⟩
  · exact ret fun h₂ _ _ => right_of_grounded trivial hnone

theorem resendVerification (hhere : Here P db₀ i h)
    (hr : (∃ name email, r = .register name email) ∨ ∃ email, r = .resendVerification email)
    (hnone : r.revokes = none) (email : Str) :
    Fine P db₀ i r (Right P i r) (resendVerification P i email) h := by
  have hdone : ∀ h' : History, Right P i r .done h' := fun h' =>
    right_of_grounded trivial hnone
  unfold Accounts.resendVerification
  refine require fun _ => attempt hhere fun h₁ found hhere₁ hf₁ hread => ?_
  cases found with
  | error e =>
      dsimp only
      split
      · exact ret fun h₂ _ _ => hdone h₂
      · exact Justified.fail e
  | ok user =>
      dsimp only
      split
      · exact ret fun h₂ _ _ => hdone h₂
      · refine clock hhere₁ fun h₂ now hhere₂ hf₂ _ => ?_
        exact issueLink hhere₂ hr (hread.mono hf₂.past_subset) hnone now

theorem register (hhere : Here P db₀ i h) (name email : Str) :
    Fine P db₀ i (.register name email) (Right P i (.register name email))
      (register P i name email) h := by
  unfold Accounts.register
  refine Justified.lift_bind fun identity _ => attempt hhere fun h₁ found hhere₁ _ _ => ?_
  cases found with
  | ok existing =>
      exact resendVerification hhere₁ (Or.inl ⟨name, email, rfl⟩) rfl existing.email
  | error e =>
      dsimp only
      split
      · refine clock hhere₁ fun h₂ now hhere₂ _ _ => ?_
        refine write hhere₂ (fun h₃ u s _ _ hrun => ?_) fun h₃ _ _ _ _ _ => ?_
        · obtain ⟨user, mid, hcreate, hissue⟩ := andThen_eq_ok.mp hrun
          obtain ⟨husers, hmail⟩ := of_issueVerification hissue
          obtain ⟨hmem, -⟩ := of_userCreateUnverified hcreate
          refine ⟨{ Additions.nothing with verification := fun row =>
              row = ⟨user.id, P.hashToken (P.verificationToken i), now + verificationTTL⟩ },
            (Changes.userCreateUnverified (fun hv => absurd hv Bool.false_ne_true) _ user mid
              hcreate).trans
              (Changes.issueVerification rfl _ u s hissue),
            ⟨nofun, nofun, nofun, ?_, nofun, nofun⟩, ⟨nofun, nofun, nofun⟩⟩
          rintro row rfl
          refine ⟨i, _, user.email, Or.inl ⟨name, email, rfl⟩, rfl, Took.here ?_,
            fun hon => Took.here (hmail hon)⟩
          exact ⟨user, Or.inr (husers.symm ▸ hmem), rfl, rfl⟩
        · exact ret fun h₄ _ _ => right_of_grounded trivial rfl
      · exact Justified.fail e

theorem verifyEmail (hfresh₀ : Fresh₀ db₀) (hhere : Here P db₀ i h) (token password : Str) :
    Fine P db₀ i (.verifyEmail token password) (Right P i (.verifyEmail token password))
      (verifyEmail P i token password) h := by
  unfold Accounts.verifyEmail
  refine andThen hhere.lawful ?_
  unfold verify
  refine require fun _ => Justified.lift_bind fun _ _ => ?_
  refine attempt hhere fun h₁ found hhere₁ hf₁ hread => Justified.lift_bind fun row heq => ?_
  obtain rfl := notFoundAs_eq_ok.mp heq
  refine clock hhere₁ fun h₂ now hhere₂ hf₂ hclock => ?_
  split
  case isTrue =>
      refine quietAttempt hhere₂ (Changes.deleteEmailVerification row.1) ?_
      exact fun h₃ _ _ _ _ => Justified.fail _
  case isFalse hexpiry =>
      have hlink : FollowedLink P h₂ i row.1 := by
        obtain ⟨e, he, hactor, hx⟩ := hread.mono hf₂.past_subset
        obtain ⟨link, hfind, hrow⟩ := map_eq_ok.mp hx
        obtain ⟨hmem, hsel⟩ := Rows.find?_some (one_eq_ok.mp hfind)
        refine ⟨token, password, link, ⟨e, he, hactor, hmem⟩, congrArg Prod.fst hrow,
          beq_iff_eq.mp hsel, hclock.imp fun db _ hnow => ?_, ?_⟩
        · have hexpires : link.expiresAt = row.2 := congrArg Prod.snd hrow
          rw [hnow, hexpires]
          exact not_lt.mp hexpiry
        · exact verification_mailed hfresh₀ hhere₂.lawful e.before
            (Trace.mem_states_of_past he) link hmem
      refine orFail fun hash _ => last (write hhere₂ (fun h₃ user s _ hf₃ hrun => ?_) ?_)
      · refine ⟨{ Additions.nothing with confirmed := fun id => id = row.1 },
          Changes.confirmAccount rfl _ user s hrun, ⟨nofun, nofun, nofun, nofun, nofun, ?_⟩,
          ⟨nofun, nofun, nofun⟩⟩
        rintro id rfl
        exact .link ((hlink.mono hf₃.past_subset).mono (past_subset_push h₃ _ s))
      · intro h₄ user hhere₄ hf₄ htook _
        have huser : Took h₄ i (.verifyEmail token password) fun _ db' =>
            user ∈ db'.users ∧ user.id = row.1 ∧ user.emailVerified ∧ ¬user.deleted :=
          htook.imp fun _ _ => of_confirmAccount
        have hlive : Found h₄ i (.verifyEmail token password) user :=
          huser.imp fun _ _ hx => ⟨Or.inr hx.1, hx.2.2⟩
        obtain ⟨-, -, -, -, hid, -⟩ := huser
        have hlink₄ : FollowedLink P h₄ i user.id := hid ▸ hlink.mono hf₄.past_subset
        exact handOn (loginResult hhere₄ hlive (.link hlive hlink₄) nofun rfl)

/-! ## Social logins -/

theorem startOAuth (hhere : Here P db₀ i h) (provider redirect : Str)
    (claims : Option Claims) (hready : ∀ c, claims = some c → Settled h.now c.userID) :
    Fine P db₀ i (.startOAuth provider redirect claims)
      (Right P i (.startOAuth provider redirect claims))
      (startOAuth P i provider redirect claims) h := by
  unfold Accounts.startOAuth
  refine require fun _ => clock hhere fun h₁ now hhere₁ hf₁ _ => orFail fun signed _ => ?_
  refine ret fun h₂ hf₂ _ => ?_
  cases claims with
  | none => exact right_of_grounded (Or.inl rfl) rfl
  | some c => exact right_of_grounded (Or.inr ((hready c rfl).follows (hf₁.trans hf₂))) rfl

theorem issueLoginCode (hhere : Here P db₀ i h) {userID : ID} (hvouched : Vouched P h i userID)
    (hsettled : Settled h.now userID) (hnone : r.revokes = none) (base : Str)
    (created : Bool) :
    Fine P db₀ i r (Right P i r) (issueLoginCode P i userID base created) h := by
  unfold Accounts.issueLoginCode
  refine clock hhere fun h₁ now hhere₁ hf₁ _ => ?_
  refine store hhere₁ (fun h₂ u s hhere₂ hf₂ hrun => ?_) fun h₂ _ _ _ _ => ?_
  · have hf := hf₁.trans hf₂
    refine Changes.andThen (A := additions P (some (i, r)) h₂ s)
      (Changes.deleteExpiredOAuthLoginCodes now)
      (fun _ => Changes.createOAuthLoginCode ?_) _ u s hrun
    exact ⟨i, r, rfl, rfl, hhere₂.fresh, hvouched.mono hf.past_subset, hsettled.follows hf⟩
  · exact ret fun h₃ _ _ => right_of_grounded trivial hnone

section Callback

variable {provider code rawState binding : Str} {profile : Profile}

theorem attach {β : Type} {Q : β → History → Prop} {g : Unit → Flow β}
    (hhere : Here P db₀ i h) {userID : ID} {confirmEmail : Bool}
    (hsettled : confirmEmail = false → Settled h.now userID)
    (hconfirmed : confirmEmail → Confirmed P h userID)
    (hok : ∀ h', Here P db₀ i h' → Follows (Allowed P) h h' → Settled h'.now userID →
      Fine P db₀ i r Q (g ()) h') :
    Fine P db₀ i r Q
      (Request.transact (attachIdentity P i userID provider profile confirmEmail) >>= g) h := by
  refine write hhere (fun h₁ u s _ hf₁ hrun => ?_) fun h₁ _ hhere₁ hf₁ _ hlast => ?_
  · have hthen : Settled s userID :=
      Settled.attachIdentity hrun fun hc => (hsettled hc).follows hf₁
    refine ⟨{ Additions.nothing with
        identity := fun row => row.userID = userID
        confirmed := fun id => confirmEmail ∧ id = userID },
      Changes.attachIdentity (fun hc => by exact ⟨hc, rfl⟩) rfl _ u s hrun,
      ⟨nofun, nofun, nofun, nofun, ?_, ?_⟩, ⟨nofun, nofun, nofun⟩⟩
    · intro row hrow
      have huser : row.userID = userID := hrow
      change Settled s row.userID
      exact huser.symm ▸ hthen
    · rintro id ⟨hc, rfl⟩
      exact ((hconfirmed hc).mono hf₁.past_subset).mono (past_subset_push h₁ _ s)
  · obtain ⟨db, hrun⟩ := hlast
    refine hok h₁ hhere₁ hf₁ ?_
    cases confirmEmail with
    | true => exact settled_of_attachIdentity hrun
    | false => exact (hsettled rfl).follows hf₁

theorem resolveByEmail (hhere : Here P db₀ i h) (base : Str) :
    Fine P db₀ i (.callback provider code rawState binding (.ok profile))
      (Right P i (.callback provider code rawState binding (.ok profile)))
      (resolveByEmail P i provider profile base) h := by
  unfold Accounts.resolveByEmail
  split
  case isTrue => exact ret fun h₁ _ _ => right_of_grounded trivial rfl
  case isFalse htrusted =>
      have hverified : profile.emailVerified :=
        by_contra fun hnot => htrusted (Or.inr hnot)
      refine attempt hhere fun h₁ existing hhere₁ hf₁ hread => ?_
      cases existing with
      | ok user =>
          have hvouched : AddressVouched P h₁ i user.id := by
            refine ⟨provider, code, rawState, binding, profile, hverified,
              hread.imp fun db _ hx => ?_⟩
            obtain ⟨hmem, hemail, hlive⟩ := mem_of_userGetByEmail hx
            exact ⟨user, hmem, rfl, hlive, hemail⟩
          refine attach hhere₁ (fun hc => ?_) (fun _ => .address hvouched)
            fun h₂ hhere₂ hf₂ hsettled => ?_
          · obtain ⟨e, he, -, hx⟩ := hread
            refine settled_of_state hhere₁.lawful e.before (Trace.mem_states_of_past he) ?_
            exact ⟨user, (mem_of_userGetByEmail hx).1, rfl,
              Or.inl ((Bool.not_eq_eq_eq_not.mp hc).trans Bool.not_false)⟩
          · exact issueLoginCode hhere₂ (.address (hvouched.mono hf₂.past_subset)) hsettled rfl
              base false
      | error e =>
          dsimp only
          split
          · refine write hhere₁ (fun h₂ userID s _ _ hrun => ?_)
              fun h₂ userID hhere₂ _ htook hlast => ?_
            · obtain ⟨hnew, hsettled, hthere, hchange⟩ := of_createProviderAccount hrun
              refine ⟨_, hchange, ⟨nofun, nofun, nofun, nofun, ?_, ?_⟩,
                ⟨nofun, nofun, nofun⟩⟩
              · intro row hrow
                have huser : row.userID = userID := hrow
                change Settled s row.userID
                exact huser.symm ▸ hsettled
              · intro id hid
                have hsame : id = userID := hid
                exact hsame.symm ▸ .signup ⟨provider, code, rawState, binding, profile,
                  hverified, Took.here ⟨hnew, hthere⟩⟩
            · obtain ⟨db, hrun⟩ := hlast
              have hsignup : SignedUp P h₂ i userID :=
                ⟨provider, code, rawState, binding, profile, hverified,
                  htook.imp fun _ _ hx =>
                    ⟨(of_createProviderAccount hx).1, (of_createProviderAccount hx).2.2.1⟩⟩
              exact issueLoginCode hhere₂ (.signup hsignup) (of_createProviderAccount hrun).2.1
                rfl base true
          · exact Justified.fail e

theorem resolveProfile (hfresh₀ : Fresh₀ db₀) (hhere : Here P db₀ i h) {state : StateData}
    (hready : state.linkUser = 0 ∨ Settled h.now state.linkUser) :
    Fine P db₀ i (.callback provider code rawState binding (.ok profile))
      (Right P i (.callback provider code rawState binding (.ok profile)))
      (resolveProfile P i provider profile state) h := by
  have hredirect : ∀ target, ∀ h' : History,
      Right P i (.callback provider code rawState binding (.ok profile)) (.redirect target) h' :=
    fun target h' => right_of_grounded trivial rfl
  unfold Accounts.resolveProfile
  refine attempt hhere fun h₁ identity hhere₁ hf₁ hread => ?_
  cases identity with
  | ok identity =>
      dsimp only
      split
      · exact ret fun h₂ _ _ => hredirect _ h₂
      · split
        · exact ret fun h₂ _ _ => hredirect _ h₂
        · have hlinked : Took h₁ i (.callback provider code rawState binding (.ok profile))
              fun db _ => identity ∈ db.identities ∧ identity.provider = provider ∧
                identity.providerAccountID = profile.accountID := by
            refine hread.imp fun db _ hx => ?_
            obtain ⟨hmem, hsel⟩ := Rows.find?_some (one_eq_ok.mp hx)
            rw [Bool.and_eq_true, beq_iff_eq, beq_iff_eq] at hsel
            exact ⟨hmem, hsel.1, hsel.2⟩
          have hvouched : IdentityLinked h₁ i identity.userID :=
            ⟨provider, code, rawState, binding, profile, hlinked.imp fun _ _ hx =>
              ⟨identity, hx.1, hx.2.1, hx.2.2, rfl⟩⟩
          obtain ⟨e, he, -, hmem, -⟩ := hlinked
          exact issueLoginCode hhere₁ (.identity hvouched)
            (identity_settled hfresh₀ hhere₁.lawful e.before (Trace.mem_states_of_past he)
              identity hmem) rfl _ false
  | error e =>
      dsimp only
      split
      · exact Justified.fail e
      · split
        case isTrue hlink =>
            have hsettled : Settled h₁.now state.linkUser :=
              (hready.resolve_left hlink).follows hf₁
            refine attach hhere₁ (fun _ => hsettled) (fun hc => absurd hc Bool.false_ne_true)
              fun h₂ _ _ _ => ret fun h₃ _ _ => hredirect _ h₃
        case isFalse => exact resolveByEmail hhere₁ _

theorem callback (hfresh₀ : Fresh₀ db₀) (hhere : Here P db₀ i h) (provider code rawState
    binding : Str) (exchange : Except Failure Profile)
    (hready : ∀ data, P.readState rawState = some data →
      data.linkUser = 0 ∨ Settled h.now data.linkUser) :
    Fine P db₀ i (.callback provider code rawState binding exchange)
      (Right P i (.callback provider code rawState binding exchange))
      (callback P i provider code rawState binding exchange) h := by
  unfold Accounts.callback
  refine require fun _ => clock hhere fun h₁ now hhere₁ hf₁ _ => ?_
  refine Justified.lift_bind fun state hstate => require fun _ => require fun _ => ?_
  refine Justified.lift_bind fun profile hprofile => ?_
  subst hprofile
  refine resolveProfile hfresh₀ hhere₁ ?_
  unfold verifyState at hstate
  split at hstate
  case h_1 => cases hstate
  case h_2 data hdata =>
      split at hstate
      case isTrue => cases hstate
      case isFalse =>
          obtain rfl := Except.ok.inj hstate
          exact (hready data hdata).imp id fun hsettled => hsettled.follows hf₁

end Callback

theorem completeOAuth (hfresh₀ : Fresh₀ db₀) (hhere : Here P db₀ i h) (code : Str) :
    Fine P db₀ i (.completeOAuth code) (Right P i (.completeOAuth code))
      (completeOAuth P i code) h := by
  unfold Accounts.completeOAuth
  refine andThen hhere.lawful ?_
  unfold complete
  refine require fun _ => quietAttempt hhere (Changes.consumeOAuthLoginCode (trimSpace code))
    fun h₁ consumed hhere₁ hf₁ htook => Justified.lift_bind fun row heq => ?_
  have hconsumed := htook row (notFoundAs_eq_ok.mp heq)
  refine clock hhere₁ fun h₂ now hhere₂ hf₂ hclock => require fun hexpiry => last ?_
  have htaken : Took h₂ i (.completeOAuth code) fun db db' =>
      ⟨trimSpace code, row.1, row.2⟩ ∈ db.loginCodes ∧ ¬codeHeld (trimSpace code) db' :=
    (hconsumed.mono hf₂.past_subset).imp fun _ _ => of_consumeOAuthLoginCode
  obtain ⟨e, he, -, hmem, -⟩ := id htaken
  -- the code was stored by an earlier callback, for an account that is nobody else's
  obtain ⟨j, hcode, hvouched, hsettled⟩ := code_vouched hfresh₀ hhere₂.lawful e.before
    (Trace.mem_states_of_past he) _ hmem
  refine readSince hhere₂ (I := fun db => Settled db row.1)
    (fun h' hf => hsettled.follows hf) fun h₃ user hhere₃ hf₃ hread => ?_
  have huser : Took h₃ i (.completeOAuth code) fun db _ =>
      user ∈ db.users ∧ user.id = row.1 ∧ user.emailVerified ∧ ¬user.deleted := by
    refine hread.imp fun db _ hx => ?_
    obtain ⟨hmem, hid, hlive⟩ := mem_of_userGetByID hx.1
    obtain ⟨other, hother, hsame, hstate⟩ := hx.2
    obtain rfl := Rows.eq_of_key hmem hother (hid.trans hsame.symm)
    exact ⟨hmem, hid, hstate.resolve_right hlive, hlive⟩
  have hlive : Found h₃ i (.completeOAuth code) user :=
    huser.imp fun _ _ hx => ⟨Or.inl hx.1, hx.2.2⟩
  obtain ⟨-, -, -, -, hid, -⟩ := huser
  have hintime : InTime h₃ i (.completeOAuth code) row.2 := by
    refine (hclock.mono hf₃.past_subset).imp fun db _ hnow => ?_
    rw [hnow]
    exact not_lt.mp (of_decide_eq_false (Bool.not_eq_true' _ ▸ hexpiry))
  have hspent : Took h₃ i (.completeOAuth code) fun db db' =>
      (Secret.loginCode (trimSpace code)).held db ∧
        ¬(Secret.loginCode (trimSpace code)).held db' :=
    (htaken.mono hf₃.past_subset).imp fun _ _ hx => ⟨⟨_, hx.1, rfl⟩, hx.2⟩
  have hstands : Vouched P h₃ j user.id := hid ▸ hvouched.mono hf₃.past_subset
  refine handOn (loginResult hhere₃ hlive ?_ (spent_of_took rfl hspent) rfl)
  exact .provider hlive hid.symm (htaken.mono hf₃.past_subset) hintime hcode hstands

theorem disconnectIdentity (hhere : Here P db₀ i h) (claims : Claims) (identityID : ID) :
    Fine P db₀ i (.disconnectIdentity claims identityID)
      (Right P i (.disconnectIdentity claims identityID))
      (disconnectIdentity claims identityID) h := by
  unfold Accounts.disconnectIdentity
  refine read hhere fun h₁ identity hhere₁ _ _ => require fun _ => ?_
  refine read hhere₁ fun h₂ count hhere₂ _ _ => read hhere₂ fun h₃ user hhere₃ _ _ => ?_
  refine require fun _ => quiet hhere₃ (Changes.deleteIdentity identityID claims.userID) ?_
  exact fun h₄ _ _ _ _ => ret fun h₅ _ _ => right_of_grounded trivial rfl

end Fine

end Nipa.Accounts
