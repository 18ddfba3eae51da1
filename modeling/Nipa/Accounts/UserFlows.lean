import Nipa.Accounts.Flows

/-!
# User administration keeps to the rules

What administrators and users change never confirms an account, except that an
administrator makes a confirmed one; changing a password or an address and closing an
account end all sessions in the same step.
-/

namespace Nipa.Accounts

open Support

variable {K : Type} {P : Primitives K} {db₀ : Database} {i : ℕ} {r : Ask} {h : History}

theorem of_userCreate {row : User} {id : ID} {db db' : Database}
    (hx : userCreate row db = .ok (id, db')) :
    id = row.id ∧ (∀ u ∈ db.users, u.id ≠ row.id) ∧ row ∈ db'.users := by
  unfold userCreate at hx
  split at hx
  case isTrue => cases hx
  case isFalse =>
      split at hx
      case h_1 => cases hx
      case h_2 users hinsert =>
          obtain ⟨rfl, rfl⟩ := Prod.mk.inj (Except.ok.inj hx)
          refine ⟨rfl, fun u hu heq => ?_, (Rows.mem_insert? hinsert).mpr (Or.inl rfl)⟩
          unfold Rows.insert? at hinsert
          split at hinsert
          case isTrue => cases hinsert
          case isFalse hnew => exact hnew (heq ▸ List.mem_map_of_mem hu)

namespace Fine

variable {β : Type} {Q : β → History → Prop}

theorem requireCanManage (hhere : Here P db₀ i h) {claims : Option Claims} {targetID : ID}
    {g : Unit → Flow β}
    (hok : ∀ h', Here P db₀ i h' → Follows (Allowed P) h h' → Fine P db₀ i r Q (g ()) h') :
    Fine P db₀ i r Q (requireCanManage claims targetID >>= g) h := by
  refine andThen hhere.lawful ?_
  unfold Accounts.requireCanManage
  refine Justified.lift_bind fun claim _ => ?_
  split
  · exact handOn (hok h hhere (Follows.refl h))
  · refine read hhere fun h₁ target hhere₁ hf₁ _ => last (require fun _ => ?_)
    exact handOn (hok h₁ hhere₁ hf₁)

theorem readBack (hhere : Here P db₀ i h) {id : ID}
    (hright : ∀ h' user, Follows (Allowed P) h h' → Right P i r (.user user) h') :
    Fine P db₀ i r (Right P i r)
      (Request.query (userGetByID id) >>= fun user => pure (.user user)) h :=
  read hhere fun _ user _ hf₁ _ => ret fun h₂ hf₂ _ => hright h₂ user (hf₁.trans hf₂)

theorem createUser (hhere : Here P db₀ i h) (claims : Option Claims)
    (name email password : Str) :
    Fine P db₀ i (.createUser claims name email password)
      (Right P i (.createUser claims name email password))
      (createUser P i claims name email password) h := by
  unfold Accounts.createUser
  refine Justified.lift_bind fun claim hclaim => andThen hhere.lawful ?_
  unfold createAccount
  refine Justified.lift_bind fun identity _ => Justified.lift_bind fun _ _ => ?_
  refine attempt hhere fun h₁ found hhere₁ _ _ => Justified.lift_bind fun _ _ => ?_
  refine orFail fun hash _ => write hhere₁ (fun h₂ id s hhere₂ _ hrun => ?_) ?_
  · obtain ⟨-, hnew, hthere⟩ := of_userCreate hrun
    have hadmin : claims = some claim ∧ (claim.isSuperAdmin ∨ claim.isAdmin) := by
      unfold requireGlobalAdmin at hclaim
      split at hclaim
      case h_1 c =>
          split at hclaim
          case isTrue hflags =>
              obtain rfl := Except.ok.inj hclaim
              exact ⟨rfl, Bool.or_eq_true _ _ ▸ hflags⟩
          case isFalse => cases hclaim
      case h_2 => cases hclaim
    obtain ⟨rfl, hflags⟩ := hadmin
    refine ⟨{ Additions.nothing with confirmed := fun id => id = P.generate i 0 },
      Changes.userCreate (fun _ => rfl) _ id s hrun, ?_, ⟨nofun, nofun, nofun⟩⟩
    refine ⟨nofun, nofun, nofun, nofun, nofun, ?_⟩
    rintro id rfl
    exact .admin ⟨claim, name, email, password, hflags, Took.here ⟨hnew, _, hthere, rfl⟩⟩
  · intro h₂ id hhere₂ _ _ _
    refine last (read hhere₂ fun h₃ user _ _ _ => ?_)
    exact handOn (ret fun h₄ _ _ => right_of_grounded trivial rfl)

theorem updateProfile (hhere : Here P db₀ i h) (claims : Option Claims) (userID : ID)
    (name : Str) :
    Fine P db₀ i (.updateProfile claims userID name)
      (Right P i (.updateProfile claims userID name)) (updateProfile claims userID name) h := by
  have hrest : ∀ h', Here P db₀ i h' →
      Fine P db₀ i (.updateProfile claims userID name)
        (Right P i (.updateProfile claims userID name))
        (Accounts.require (trimSpace name != []) (errUser "name is required") >>= fun _ =>
          Request.transact (userUpdateProfile userID (trimSpace name)) >>= fun _ =>
            Request.query (userGetByID userID) >>= fun user => pure (.user user)) h' := by
    intro h' hhere'
    refine require fun _ => quiet hhere' (Changes.userUpdateProfile userID _) ?_
    intro h₂ _ hhere₂ _ _
    exact readBack hhere₂ fun h₃ user _ => right_of_grounded trivial rfl
  unfold Accounts.updateProfile
  refine orFail fun claim _ => ?_
  split
  · exact requireCanManage hhere fun h₁ hhere₁ _ => hrest h₁ hhere₁
  · exact hrest h hhere

theorem updateEmail (hhere : Here P db₀ i h) (claims : Option Claims) (userID : ID)
    (email : Str) :
    Fine P db₀ i (.updateEmail claims userID email)
      (Right P i (.updateEmail claims userID email)) (updateEmail P claims userID email) h := by
  unfold Accounts.updateEmail
  refine requireCanManage hhere fun h₁ hhere₁ _ => require fun _ => ?_
  refine attempt hhere₁ fun h₂ found hhere₂ _ _ => Justified.lift_bind fun _ _ => ?_
  refine quiet hhere₂ (Changes.updateEmailAndRevokeTokens userID _) fun h₃ _ hhere₃ _ htook => ?_
  have hrevoked : Revoked h₃ i (.updateEmail claims userID email) userID :=
    htook.imp fun _ _ hx => ⟨revoked_of_andThen hx, nofun⟩
  refine readBack hhere₃ fun h₄ user hf₄ => ⟨trivial, fun id hid => ?_⟩
  obtain rfl := Option.some.inj hid
  exact hrevoked.mono hf₄.past_subset

theorem revoke (hhere : Here P db₀ i h) {x : Statement Unit} {userID : ID}
    (hquiet : Changes .nothing x) (hrevokes : r.revokes = some userID)
    (hrevoked : ∀ u db db', x db = .ok (u, db') →
      (∀ row ∈ db'.refreshTokens, row.userID ≠ userID) ∧
        (r.closes = some userID → ∀ user ∈ db'.users, user.id = userID → user.deleted)) :
    Fine P db₀ i r (Right P i r) (Request.transact x >>= fun _ => pure .done) h := by
  refine quiet hhere hquiet fun h₁ u _ _ htook => ret fun h₂ hf₂ _ =>
    ⟨trivial, fun id hid => ?_⟩
  obtain rfl := Option.some.inj (hrevokes.symm.trans hid)
  exact (htook.mono hf₂.past_subset).imp fun db db' => hrevoked u db db'

theorem changePassword (hhere : Here P db₀ i h) (claims : Option Claims) (userID : ID)
    (oldPassword newPassword : Str) :
    Fine P db₀ i (.changePassword claims userID oldPassword newPassword)
      (Right P i (.changePassword claims userID oldPassword newPassword))
      (changePassword P claims userID oldPassword newPassword) h := by
  unfold Accounts.changePassword
  refine orFail fun claim _ => require fun _ => read hhere fun h₁ user hhere₁ _ _ => ?_
  refine require fun _ => Justified.lift_bind fun _ _ => orFail fun hash _ => ?_
  exact revoke hhere₁ (Changes.updatePasswordAndRevokeTokens userID hash) rfl
    fun _ _ _ hx => ⟨revoked_of_andThen hx, nofun⟩

theorem resetPassword (hhere : Here P db₀ i h) (claims : Option Claims) (userID : ID)
    (newPassword : Str) :
    Fine P db₀ i (.resetPassword claims userID newPassword)
      (Right P i (.resetPassword claims userID newPassword))
      (resetPassword P claims userID newPassword) h := by
  unfold Accounts.resetPassword
  refine requireCanManage hhere fun h₁ hhere₁ _ => Justified.lift_bind fun _ _ => ?_
  refine orFail fun hash _ => ?_
  exact revoke hhere₁ (Changes.updatePasswordAndRevokeTokens userID hash) rfl
    fun _ _ _ hx => ⟨revoked_of_andThen hx, nofun⟩

theorem setAdminFlags (hhere : Here P db₀ i h) (claims : Option Claims) (userID : ID)
    (isAdmin isSuperAdmin : Bool) :
    Fine P db₀ i (.setAdminFlags claims userID isAdmin isSuperAdmin)
      (Right P i (.setAdminFlags claims userID isAdmin isSuperAdmin))
      (setAdminFlags claims userID isAdmin isSuperAdmin) h := by
  unfold Accounts.setAdminFlags
  refine orFail fun claim _ => require fun _ => require fun _ => ?_
  refine quiet hhere (Changes.userUpdateAdminFlags userID isAdmin isSuperAdmin) ?_
  intro h₁ _ hhere₁ _ _
  exact readBack hhere₁ fun h₂ user _ => right_of_grounded trivial rfl

theorem deactivate (hhere : Here P db₀ i h) (claims : Option Claims) (userID : ID) :
    Fine P db₀ i (.deactivate claims userID) (Right P i (.deactivate claims userID))
      (deactivate claims userID) h := by
  unfold Accounts.deactivate
  refine orFail fun claim _ => require fun _ => ?_
  refine requireCanManage hhere fun h₁ hhere₁ _ => ?_
  exact revoke hhere₁ (Changes.deactivateAndRevokeTokens userID) rfl
    fun _ _ _ hx => ⟨revoked_of_andThen hx, fun _ => closed_of_deactivate hx⟩

/-! ### SSH keys -/

theorem addSSHKey (hhere : Here P db₀ i h) (claims : Option Claims) (userID : ID)
    (name publicKey : Str) :
    Fine P db₀ i (.addSSHKey claims userID name publicKey)
      (Right P i (.addSSHKey claims userID name publicKey))
      (addSSHKey P i claims userID name publicKey) h := by
  unfold Accounts.addSSHKey
  refine Justified.lift_bind fun _ _ => require fun _ => Justified.lift_bind fun parsed _ => ?_
  refine attempt hhere fun h₁ found hhere₁ _ _ => Justified.lift_bind fun _ _ => ?_
  refine read hhere₁ fun h₂ count hhere₂ _ _ => require fun _ => ?_
  refine quiet hhere₂ (Changes.sshKeyCreate _) fun h₃ key _ _ _ => ?_
  exact ret fun h₄ _ _ => right_of_grounded trivial rfl

theorem deleteSSHKey (hhere : Here P db₀ i h) (claims : Option Claims) (userID keyID : ID) :
    Fine P db₀ i (.deleteSSHKey claims userID keyID)
      (Right P i (.deleteSSHKey claims userID keyID)) (deleteSSHKey claims userID keyID) h := by
  unfold Accounts.deleteSSHKey
  refine Justified.lift_bind fun _ _ => attempt hhere fun h₁ found hhere₁ _ _ => ?_
  refine Justified.lift_bind fun key _ => require fun _ => ?_
  refine quiet hhere₁ (Changes.sshKeyDelete userID keyID) fun h₂ _ _ _ _ => ?_
  exact ret fun h₃ _ _ => right_of_grounded trivial rfl

end Fine

end Nipa.Accounts
