import Nipa.Accounts.Evidence

/-!
# Rules for flows

Rules that take a flow step by step.  A request carries along that its secrets are unused
until it stores one; every rule hands on what the step has seen.
-/

namespace Nipa.Accounts

open Support

variable {K : Type} {P : Primitives K} {db₀ : Database} {i : ℕ} {r : Ask}

/-- Additions that leave out the secrets of request `i`. -/
structure Additions.Spares (P : Primitives K) (i : ℕ) (A : Additions) : Prop where
  refreshToken : ∀ row, A.refreshToken row → row.token ≠ P.uuid i
  challenge : ∀ row, A.challenge row → row.nonce ≠ P.nonce i
  loginCode : ∀ row, A.loginCode row → row.code ≠ P.loginCode i

theorem Additions.nothing_spares (i : ℕ) : Additions.nothing.Spares P i :=
  ⟨nofun, nofun, nofun⟩

theorem Fresh.push {h : History} {A : Additions} {s : Database} (hfresh : Fresh P h i)
    (actor : Option (ℕ × Ask)) (hchange : Change A h.now s) (hspares : A.Spares P i) :
    Fresh P (h.push actor s) i := by
  have hnow := hfresh h.now List.mem_cons_self
  have hnext : ¬tokenHeld (P.uuid i) s ∧ ¬nonceHeld (P.nonce i) s ∧
      ¬codeHeld (P.loginCode i) s := by
    refine ⟨?_, ?_, ?_⟩
    · rintro ⟨row, hrow, hkey⟩
      rcases hchange.refreshTokens row hrow with hold | hadded
      · exact hnow.1 ⟨row, hold, hkey⟩
      · exact hspares.refreshToken row hadded hkey
    · rintro ⟨row, hrow, hkey⟩
      rcases hchange.challenges row hrow with hold | hadded
      · exact hnow.2.1 ⟨row, hold, hkey⟩
      · exact hspares.challenge row hadded hkey
    · rintro ⟨row, hrow, hkey⟩
      rcases hchange.loginCodes row hrow with hold | hadded
      · exact hnow.2.2 ⟨row, hold, hkey⟩
      · exact hspares.loginCode row hadded hkey
  intro s' hs'
  rcases List.mem_cons.mp hs' with rfl | hs'
  · exact hnext
  · exact hfresh s' hs'

theorem additions_spares {actor : Option (ℕ × Ask)} (hactor : ∀ r, actor ≠ some (i, r))
    (h : History) (s : Database) : (additions P actor h s).Spares P i := by
  have hne : ∀ k r, actor = some (k, r) → k ≠ i := by
    rintro k r rfl rfl
    exact hactor r rfl
  refine ⟨?_, ?_, ?_⟩
  · rintro row ⟨k, r, hk, htoken, -⟩ heq
    exact hne k r hk (P.uuid_injective (htoken.symm.trans heq))
  · rintro row ⟨k, limit, email, hk, hnonce, -⟩ heq
    exact hne k _ hk (P.nonce_injective (hnonce.symm.trans heq))
  · rintro row ⟨k, r, hk, hcode, -⟩ heq
    exact hne k r hk (P.loginCode_injective (hcode.symm.trans heq))

theorem Fresh.others {h h' : History} (hfresh : Fresh P h i)
    (hothers : Others (Allowed P) i h h') : Fresh P h' i :=
  hothers.stable (I := fun h => Fresh P h i) hfresh fun h actor s hfresh hactor hallowed =>
    hfresh.push actor hallowed (additions_spares hactor h s)

theorem Settled.follows {h h' : History} {id : ID} (hsettled : Settled h.now id)
    (hfollows : Follows (Allowed P) h h') : Settled h'.now id :=
  hfollows.stable (I := fun h => Settled h.now id) hsettled fun _ _ _ hsettled hallowed =>
    hallowed.settled hsettled

/-- Request `i` has not stored its secret yet. -/
structure Here (P : Primitives K) (db₀ : Database) (i : ℕ) (h : History) : Prop where
  fresh : Fresh P h i
  lawful : LawfulHistory P db₀ h

namespace Here

variable {h h' : History}

theorem others (hhere : Here P db₀ i h) (hothers : Others (Allowed P) i h h') :
    Here P db₀ i h' :=
  ⟨hhere.fresh.others hothers, hothers.lawful hhere.lawful⟩

theorem push (hhere : Here P db₀ i h) {actor : Option (ℕ × Ask)} {s : Database}
    {A : Additions} (hchange : Change A h.now s) (hle : A.Le (additions P actor h s))
    (hspares : A.Spares P i) : Here P db₀ i (h.push actor s) :=
  ⟨hhere.fresh.push actor hchange hspares, hhere.lawful.push (hchange.mono hle)⟩

theorem idle (hhere : Here P db₀ i h) (actor : Option (ℕ × Ask)) :
    Here P db₀ i (h.push actor h.now) :=
  hhere.push (Change.refl h.now) (Additions.nothing_le _) (Additions.nothing_spares i)

end Here

/-- The flow takes allowed steps only, and what it returns is right. -/
abbrev Fine {α : Type} (P : Primitives K) (db₀ : Database) (i : ℕ) (r : Ask)
    (Q : α → History → Prop) (p : Flow α) (h : History) : Prop :=
  Justified (Allowed P) db₀ i r Q p h

namespace Fine

variable {α β : Type} {Q : β → History → Prop} {h : History}

theorem ret {b : β} (hQ : ∀ h', Follows (Allowed P) h h' → LawfulHistory P db₀ h' → Q b h') :
    Fine P db₀ i r Q (pure b) h :=
  fun h' hothers hlawful => hQ h' hothers.follows hlawful

variable {g : α → Flow β}

theorem andThen {p : Flow α} (hlawful : LawfulHistory P db₀ h)
    (hp : Fine P db₀ i r (fun a h => Fine P db₀ i r Q (g a) h) p h) :
    Fine P db₀ i r Q (p >>= g) h :=
  hp.bind hlawful

theorem handOn {a : α} (hg : Fine P db₀ i r Q (g a) h) :
    Fine P db₀ i r (fun a h => Fine P db₀ i r Q (g a) h) (pure a) h :=
  fun _ hothers _ => hg.mono hothers

theorem last {p : Flow β} (hp : Fine P db₀ i r Q (p >>= pure) h) :
    Fine P db₀ i r Q p h := by
  rw [Request.bind_pure] at hp
  exact hp

theorem require {ok : Bool} {e : Failure} {g : Unit → Flow β}
    (hok : ok → Fine P db₀ i r Q (g ()) h) :
    Fine P db₀ i r Q (require ok e >>= g) h := by
  refine Justified.lift_bind fun _ heq => hok ?_
  split at heq
  case isTrue hok => exact hok
  case isFalse => cases heq

theorem orFail {x : Option α} {e : Failure} (hok : ∀ a, x = some a → Fine P db₀ i r Q (g a) h) :
    Fine P db₀ i r Q (orFail x e >>= g) h := by
  refine Justified.lift_bind fun a heq => hok a ?_
  split at heq
  case h_1 => exact congrArg some (Except.ok.inj heq)
  case h_2 => cases heq

theorem notFoundAs_eq_ok {e : Failure} {x : Except Failure α} {a : α} :
    notFoundAs e x = .ok a ↔ x = .ok a := by
  cases x with
  | error e' => exact ⟨nofun, nofun⟩
  | ok b => exact Iff.rfl

section Steps

variable (hhere : Here P db₀ i h)

include hhere

variable {g : α → Flow β}

theorem readSince {x : Query α} {I : Database → Prop}
    (hsince : ∀ h', Follows (Allowed P) h h' → I h'.now)
    (hok : ∀ h' a, Here P db₀ i h' → Follows (Allowed P) h h' →
      Took h' i r (fun db _ => x db = .ok a ∧ I db) → Fine P db₀ i r Q (g a) h') :
    Fine P db₀ i r Q (Request.query x >>= g) h :=
  Justified.query_bind (allowed_idle P _) fun h' a hothers _ ha =>
    hok _ a ((hhere.others hothers).idle _)
      (hothers.follows.push (allowed_idle P _ h'))
      (Took.here ⟨ha, hsince h' hothers.follows⟩)

theorem read {x : Query α} (hok : ∀ h' a, Here P db₀ i h' → Follows (Allowed P) h h' →
      Took h' i r (fun db _ => x db = .ok a) → Fine P db₀ i r Q (g a) h') :
    Fine P db₀ i r Q (Request.query x >>= g) h :=
  readSince hhere (I := fun _ => True) (fun _ _ => trivial)
    fun h' a hhere' hfollows htook => hok h' a hhere' hfollows (htook.imp fun _ _ => And.left)

theorem attempt {x : Query α} {g : Except Failure α → Flow β}
    (hok : ∀ h' a, Here P db₀ i h' → Follows (Allowed P) h h' →
      Took h' i r (fun db _ => x db = a) → Fine P db₀ i r Q (g a) h') :
    Fine P db₀ i r Q (Request.attempt x >>= g) h :=
  Justified.attempt_bind (allowed_idle P _) fun _ hothers _ =>
    hok _ _ ((hhere.others hothers).idle _)
      (hothers.follows.push (allowed_idle P _ _)) (Took.here rfl)

theorem clock {g : ℤ → Flow β}
    (hok : ∀ h' t, Here P db₀ i h' → Follows (Allowed P) h h' →
      Took h' i r (fun db _ => db.now = t) → Fine P db₀ i r Q (g t) h') :
    Fine P db₀ i r Q (clock >>= g) h :=
  read hhere fun h' t hhere' hfollows htook =>
    hok h' t hhere' hfollows (htook.imp fun _ _ => Except.ok.inj)

variable {x : Statement α}

theorem write (hx : ∀ h' a s, Here P db₀ i h' → Follows (Allowed P) h h' → x h'.now = .ok (a, s) →
      ∃ A : Additions, Change A h'.now s ∧ A.Le (additions P (some (i, r)) h' s) ∧
        A.Spares P i) (hok : ∀ h' a, Here P db₀ i h' → Follows (Allowed P) h h' →
      Took h' i r (fun db db' => x db = .ok (a, db')) → (∃ db, x db = .ok (a, h'.now)) →
        Fine P db₀ i r Q (g a) h') : Fine P db₀ i r Q (Request.transact x >>= g) h := by
  refine Justified.transact_bind (allowed_idle P _) fun h' a s hothers _ hrun => ?_
  have hhere' := hhere.others hothers
  obtain ⟨A, hchange, hle, hspares⟩ := hx h' a s hhere' hothers.follows hrun
  exact ⟨hchange.mono hle, hok _ a (hhere'.push hchange hle hspares)
    (hothers.follows.push (hchange.mono hle)) (Took.here hrun) ⟨_, hrun⟩⟩

theorem quiet (hx : Changes .nothing x) (hok : ∀ h' a, Here P db₀ i h' → Follows (Allowed P) h h' →
      Took h' i r (fun db db' => x db = .ok (a, db')) → Fine P db₀ i r Q (g a) h') :
    Fine P db₀ i r Q (Request.transact x >>= g) h :=
  write hhere (fun _ a s _ _ hrun => ⟨_, hx _ a s hrun, Additions.nothing_le _,
    Additions.nothing_spares i⟩) fun h' a hhere' hf htook _ => hok h' a hhere' hf htook

theorem quietAttempt {g : Except Failure α → Flow β} (hx : Changes .nothing x)
    (hok : ∀ h' a, Here P db₀ i h' → Follows (Allowed P) h h' →
      (∀ b, a = .ok b → Took h' i r fun db db' => x db = .ok (b, db')) →
        Fine P db₀ i r Q (g a) h') : Fine P db₀ i r Q (Request.attemptTransact x >>= g) h := by
  refine Justified.step_bind fun h' hothers _ => ?_
  have hhere' := hhere.others hothers
  cases hrun : x h'.now with
  | error e =>
      exact ⟨allowed_idle P _ h', hok _ _ (hhere'.idle _)
        (hothers.follows.push (allowed_idle P _ h')) nofun⟩
  | ok b =>
      have hchange := hx _ b.1 b.2 hrun
      have hallowed : Allowed P (some (i, r)) h' b.2 := hchange.of_nothing
      refine ⟨hallowed, hok _ _ (hhere'.push hchange (Additions.nothing_le _)
        (Additions.nothing_spares i)) (hothers.follows.push hallowed) fun c hc => ?_⟩
      obtain rfl := Except.ok.inj hc
      exact Took.here hrun

theorem store (hx : ∀ h' a s, Here P db₀ i h' → Follows (Allowed P) h h' → x h'.now = .ok (a, s) →
      Allowed P (some (i, r)) h' s)
    (hok : ∀ h' a, LawfulHistory P db₀ h' → Follows (Allowed P) h h' →
      Took h' i r (fun db db' => x db = .ok (a, db')) → Fine P db₀ i r Q (g a) h') :
    Fine P db₀ i r Q (Request.transact x >>= g) h := by
  refine Justified.transact_bind (allowed_idle P _) fun h' a s hothers hlawful hrun => ?_
  have hallowed := hx h' a s (hhere.others hothers) hothers.follows hrun
  exact ⟨hallowed, hok _ a (hlawful.push hallowed) (hothers.follows.push hallowed)
    (Took.here hrun)⟩

end Steps

end Fine

end Nipa.Accounts
