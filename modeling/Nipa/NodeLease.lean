import Mathlib.Logic.Function.Basic
import Nipa.Support.Runs
import Nipa.Support.Strings

/-!
# Node leases

Server instances lease node numbers from a table of the database.  A holder renews its lease
at every heartbeat and gives up once its own clock says that the lease is about to expire;
the table lets another instance take a lease that has expired.  Times are in nanoseconds.
-/

namespace Nipa

open Support (Run Str)

namespace NodeLease

def second : ℕ := 1000000000

def millisecond : ℕ := 1000000

def nodeIDCount : ℕ := 256

/-- A manager that `New` admits. -/
structure Manager where
  holder : Str
  ttl : ℕ
  holder_ne : holder ≠ []
  second_le : second ≤ ttl

/-- `New` refuses an empty holder and a TTL below one second. -/
def newManager (holder : Str) (ttl : ℕ) : Option Manager :=
  if hholder : holder = [] then none
  else if httl : ttl < second then none
  else some ⟨holder, ttl, hholder, not_lt.mp httl⟩

namespace Manager

def ttlSeconds (m : Manager) : ℕ :=
  m.ttl / second

def renewInterval (m : Manager) : ℕ :=
  let interval := m.ttl / 3
  if interval < 100 * millisecond then 100 * millisecond else interval

/-- How long a lease lasts on the clock of the database. -/
def leased (m : Manager) : ℕ :=
  m.ttlSeconds * second

end Manager

/-! ## The table -/

structure Row where
  holder : Str
  expiresAt : ℕ

abbrev Rows := ℕ → Option Row

/-- `NodeLeaseClaim`: whether a row was written. -/
def Rows.claim (rows : Rows) (now nodeID : ℕ) (m : Manager) : Rows × Bool :=
  let written : Rows := Function.update rows nodeID (some ⟨m.holder, now + m.leased⟩)
  match rows nodeID with
  | none => (written, true)
  | some row => if row.expiresAt < now then (written, true) else (rows, false)

/-- `NodeLeaseRenew`: whether a row was written. -/
def Rows.renew (rows : Rows) (now nodeID : ℕ) (m : Manager) : Rows × Bool :=
  match rows nodeID with
  | none => (rows, false)
  | some row =>
      if row.holder = m.holder then
        (Function.update rows nodeID (some { row with expiresAt := now + m.leased }), true)
      else (rows, false)

/-- `NodeLeaseRelease`. -/
def Rows.release (rows : Rows) (nodeID : ℕ) (m : Manager) : Rows :=
  match rows nodeID with
  | none => rows
  | some row => if row.holder = m.holder then Function.update rows nodeID none else rows

/-! ## The managers -/

/-- What a manager knows of its lease, and when its ticker fires next. -/
structure Lease where
  nodeID : ℕ
  lastRenewed : ℕ
  nextBeat : ℕ

inductive Phase where
  | idle
  /-- `Acquire` is about to claim a candidate. -/
  | claiming (candidate : ℕ)
  /-- `Acquire` has returned the node. -/
  | owner (lease : Lease)
  /-- The lost callback has been called. -/
  | lost (nodeID : ℕ)

structure Cluster (M : Type) where
  now : ℕ
  rows : Rows
  phase : M → Phase

/-- A call of the database takes effect, or fails. -/
inductive Action where
  | acquire
  | tryClaim (works : Bool)
  | heartbeat (renewWorks claimWorks : Bool)
  | release (works : Bool)

inductive Event (M : Type) where
  | act (m : M) (a : Action)
  | advance (d : ℕ)

/-- `none` when the lease is given up. -/
def keepAlive (now : ℕ) (rows : Rows) (m : Manager) (l : Lease) (renewWorks claimWorks : Bool) :
    Rows × Option Lease :=
  let renewed := rows.renew now l.nodeID m
  let claimed := rows.claim now l.nodeID m
  if renewWorks ∧ renewed.2 then (renewed.1, some { l with lastRenewed := now })
  else if renewWorks ∧ claimWorks ∧ claimed.2 then (claimed.1, some { l with lastRenewed := now })
  else if m.ttl - m.renewInterval ≤ now - l.lastRenewed then (rows, none)
  else (rows, some l)

variable {M : Type} [DecidableEq M]

namespace Cluster

def setPhase (c : Cluster M) (m : M) (p : Phase) : Cluster M :=
  { c with phase := Function.update c.phase m p }

/-- What a manager does; `none` where it cannot. -/
def act (managers : M → Manager) (c : Cluster M) (m : M) : Action → Option (Cluster M)
  | .acquire =>
      match c.phase m with
      | .idle => some (c.setPhase m (.claiming 0))
      | .claiming _ => none
      | .owner _ | .lost _ => some c
  | .tryClaim works =>
      match c.phase m with
      | .claiming candidate =>
          if works then
            match c.rows.claim c.now candidate (managers m) with
            | (rows, true) =>
                some ({ c with rows := rows }.setPhase m
                  (.owner ⟨candidate, c.now, c.now + (managers m).renewInterval⟩))
            | (_, false) =>
                if candidate + 1 < nodeIDCount then
                  some (c.setPhase m (.claiming (candidate + 1)))
                else some (c.setPhase m .idle)
          else some (c.setPhase m .idle)
      | _ => none
  | .heartbeat renewWorks claimWorks =>
      match c.phase m with
      | .owner l =>
          if c.now = l.nextBeat then
            match keepAlive c.now c.rows (managers m) l renewWorks claimWorks with
            | (rows, some l) =>
                some ({ c with rows := rows }.setPhase m
                  (.owner { l with nextBeat := l.nextBeat + (managers m).renewInterval }))
            | (rows, none) => some ({ c with rows := rows }.setPhase m (.lost l.nodeID))
          else none
      | _ => none
  | .release works =>
      match c.phase m with
      | .owner l =>
          some ({ c with
            rows := if works then c.rows.release l.nodeID (managers m) else c.rows }.setPhase m
            .idle)
      | .lost nodeID =>
          some ({ c with
            rows := if works then c.rows.release nodeID (managers m) else c.rows }.setPhase m
            .idle)
      | .idle => some c
      | .claiming _ => none

/-- Time passes, but not beyond a heartbeat that is due. -/
inductive Step (managers : M → Manager) : Cluster M → Event M → Cluster M → Prop where
  | act {c c' : Cluster M} {m : M} {a : Action} (h : c.act managers m a = some c') :
      Step managers c (.act m a) c'
  | advance {c : Cluster M} {d : ℕ}
      (h : ∀ m l, c.phase m = .owner l → c.now + d ≤ l.nextBeat) :
      Step managers c (.advance d) { c with now := c.now + d }

/-- No manager has begun; the table holds whatever earlier instances left. -/
def Fresh (c : Cluster M) : Prop :=
  ∀ m, c.phase m = .idle

end Cluster

/-- The last heartbeat before a whole TTL has passed since the last renewal. -/
def Manager.lossDelay (m : Manager) : ℕ :=
  (m.ttl - 1) / m.renewInterval * m.renewInterval

/-- The heartbeat that gives the lease up comes no later than its expiry in the table. -/
def Manager.Careful (m : Manager) : Prop :=
  m.lossDelay ≤ m.leased

instance (m : Manager) : Decidable m.Careful :=
  inferInstanceAs (Decidable (_ ≤ _))

/-- Only careful managers claim nodes, and a manager that lost its node is not released
while a manager of the same holder owns that node. -/
def Orderly (managers : M → Manager) (c : Cluster M) : Event M → Prop
  | .act m (.tryClaim _) => (managers m).Careful
  | .act m (.release _) =>
      ∀ m' l, c.phase m = .lost l.nodeID → c.phase m' = .owner l →
        (managers m').holder ≠ (managers m).holder
  | _ => True

abbrev ClusterRun (managers : M → Manager) (P : Cluster M → Event M → Prop)
    (c c' : Cluster M) : Prop :=
  Run (Cluster.Step managers) P c c'

/-! ## Heartbeats -/

namespace Manager

theorem renewInterval_eq (m : Manager) : m.renewInterval = m.ttl / 3 := by
  have hsecond := m.second_le
  unfold renewInterval
  dsimp only
  rw [if_neg]
  unfold second at hsecond
  unfold millisecond
  omega

theorem renewInterval_pos (m : Manager) : 0 < m.renewInterval := by
  have hsecond := m.second_le
  rw [renewInterval_eq]
  unfold second at hsecond
  omega

theorem renewInterval_lt (m : Manager) : m.renewInterval < m.ttl := by
  have hsecond := m.second_le
  rw [renewInterval_eq]
  unfold second at hsecond
  omega

theorem le_lossDelay (m : Manager) {k : ℕ} (hk : k * m.renewInterval < m.ttl) :
    k * m.renewInterval ≤ m.lossDelay := by
  apply Nat.mul_le_mul_right
  rw [Nat.le_div_iff_mul_le m.renewInterval_pos]
  omega

theorem lossDelay_lt (m : Manager) : m.lossDelay < m.ttl := by
  have hle : m.lossDelay ≤ m.ttl - 1 := Nat.div_mul_le_self _ _
  have hpos := m.renewInterval_pos
  have hlt := m.renewInterval_lt
  omega

theorem careful_of_whole_seconds {m : Manager} (h : second ∣ m.ttl) : m.Careful := by
  have hleased : m.leased = m.ttl := Nat.div_mul_cancel h
  unfold Careful
  rw [hleased]
  exact m.lossDelay_lt.le

end Manager

/-! ## The table keeps what an owner relies on -/

section Table

variable {rows : Rows} {now nodeID : ℕ} {m : Manager}

theorem claim_written (h : (rows.claim now nodeID m).2 = true) :
    (rows.claim now nodeID m).1
        = Function.update rows nodeID (some ⟨m.holder, now + m.leased⟩) ∧
      ∀ row, rows nodeID = some row → row.expiresAt < now := by
  unfold Rows.claim at *
  dsimp only at *
  cases hrow : rows nodeID with
  | none => exact ⟨rfl, fun row hsome => by cases hsome⟩
  | some row =>
      rw [hrow] at h
      dsimp only at *
      split at h
      case isTrue hexpired =>
          rw [if_pos hexpired]
          refine ⟨rfl, fun row' hsome => ?_⟩
          cases hsome
          exact hexpired
      case isFalse => cases h

theorem renew_written (h : (rows.renew now nodeID m).2 = true) :
    (rows.renew now nodeID m).1
      = Function.update rows nodeID (some ⟨m.holder, now + m.leased⟩) := by
  unfold Rows.renew at *
  cases hrow : rows nodeID with
  | none =>
      rw [hrow] at h
      cases h
  | some row =>
      rw [hrow] at h
      dsimp only at *
      split at h
      case isTrue hholder => rw [if_pos hholder, hholder]
      case isFalse => cases h

theorem release_other {n : ℕ} (hne : n ≠ nodeID) : rows.release nodeID m n = rows n := by
  unfold Rows.release
  cases rows nodeID with
  | none => rfl
  | some row =>
      dsimp only
      split
      · exact Function.update_of_ne hne _ _
      · rfl

theorem release_of_holder_ne {row : Row} (hrow : rows nodeID = some row)
    (hne : row.holder ≠ m.holder) : rows.release nodeID m = rows := by
  unfold Rows.release
  rw [hrow]
  exact if_neg hne

end Table

/-- What an owner relies on: its row outlives the last heartbeat it may still reach. -/
structure Holds (now : ℕ) (rows : Rows) (m : Manager) (l : Lease) : Prop where
  careful : m.Careful
  row : ∃ row, rows l.nodeID = some row ∧ row.holder = m.holder ∧
    l.lastRenewed + m.leased ≤ row.expiresAt
  beat : ∃ k, l.nextBeat = l.lastRenewed + k * m.renewInterval ∧ k * m.renewInterval < m.ttl
  due : now ≤ l.nextBeat

namespace Holds

variable {now : ℕ} {rows rows' : Rows} {m : Manager} {l : Lease}

theorem not_expired (h : Holds now rows m l) :
    ∃ row, rows l.nodeID = some row ∧ row.holder = m.holder ∧ ¬ row.expiresAt < now := by
  obtain ⟨row, hrow, hholder, hexpires⟩ := h.row
  obtain ⟨k, hbeat, hk⟩ := h.beat
  have hdelay := m.le_lossDelay hk
  have hcareful : m.lossDelay ≤ m.leased := h.careful
  have hdue := h.due
  exact ⟨row, hrow, hholder, by omega⟩

theorem of_row_eq (h : Holds now rows m l) (hsame : rows' l.nodeID = rows l.nodeID) :
    Holds now rows' m l where
  careful := h.careful
  row := by
    rw [hsame]
    exact h.row
  beat := h.beat
  due := h.due

theorem of_written {nodeID : ℕ} (hcareful : m.Careful) :
    Holds now (Function.update rows nodeID (some ⟨m.holder, now + m.leased⟩)) m
      ⟨nodeID, now, now + m.renewInterval⟩ where
  careful := hcareful
  row := ⟨_, Function.update_self _ _ _, rfl, le_refl _⟩
  beat := by
    refine ⟨1, ?_, ?_⟩
    · rw [Nat.one_mul]
    · rw [Nat.one_mul]
      exact m.renewInterval_lt
  due := Nat.le_add_right _ _

theorem of_failed (h : Holds now rows m l) (hnow : now = l.nextBeat)
    (hearly : now - l.lastRenewed < m.ttl - m.renewInterval) :
    Holds now rows m { l with nextBeat := l.nextBeat + m.renewInterval } where
  careful := h.careful
  row := h.row
  beat := by
    obtain ⟨k, hbeat, -⟩ := h.beat
    refine ⟨k + 1, ?_, ?_⟩
    · change l.nextBeat + m.renewInterval = l.lastRenewed + (k + 1) * m.renewInterval
      rw [hbeat, Nat.succ_mul, Nat.add_assoc]
    · rw [Nat.succ_mul]
      omega
  due := by
    change now ≤ l.nextBeat + m.renewInterval
    omega

end Holds

/-! ## One owner for a node -/

namespace Cluster

variable {managers : M → Manager} {c c' : Cluster M}

structure Inv (managers : M → Manager) (c : Cluster M) : Prop where
  holds : ∀ m l, c.phase m = .owner l → Holds c.now c.rows (managers m) l
  single : ∀ m m' l l', c.phase m = .owner l → c.phase m' = .owner l' →
    l.nodeID = l'.nodeID → m = m'

variable {m : M}

theorem setPhase_owner {m' : M} {p : Phase} {l : Lease} (h : (c.setPhase m p).phase m' = .owner l) :
    m' = m ∧ p = .owner l ∨ m' ≠ m ∧ c.phase m' = .owner l := by
  change Function.update c.phase m p m' = .owner l at h
  by_cases heq : m' = m
  · rw [heq, Function.update_self] at h
    exact Or.inl ⟨heq, h⟩
  · rw [Function.update_of_ne heq] at h
    exact Or.inr ⟨heq, h⟩

theorem Inv.leave {p : Phase} {rows : Rows} (hinv : c.Inv managers) (hp : ∀ l, p ≠ .owner l)
    (hrows : ∀ m' l, m' ≠ m → c.phase m' = .owner l → rows l.nodeID = c.rows l.nodeID) :
    ({ c with rows := rows }.setPhase m p).Inv managers where
  holds := by
    intro m' l howner
    cases setPhase_owner howner with
    | inl hself => exact absurd hself.2 (hp l)
    | inr hother =>
        exact (hinv.holds m' l hother.2).of_row_eq (hrows m' l hother.1 hother.2)
  single := by
    intro m₁ m₂ l₁ l₂ h₁ h₂ heq
    cases setPhase_owner h₁ with
    | inl hself => exact absurd hself.2 (hp l₁)
    | inr hother₁ =>
        cases setPhase_owner h₂ with
        | inl hself => exact absurd hself.2 (hp l₂)
        | inr hother₂ => exact hinv.single m₁ m₂ l₁ l₂ hother₁.2 hother₂.2 heq

/-- A manager owns a node that no other manager owns, and the rows of the other owners
stay. -/
theorem Inv.own {l : Lease} {rows : Rows} (hinv : c.Inv managers)
    (hholds : Holds c.now rows (managers m) l)
    (halone : ∀ m' l', c.phase m' = .owner l' → l'.nodeID = l.nodeID → m' = m)
    (hrows : ∀ n, n ≠ l.nodeID → rows n = c.rows n) :
    ({ c with rows := rows }.setPhase m (.owner l)).Inv managers where
  holds := by
    intro m' l' howner
    cases setPhase_owner howner with
    | inl hself =>
        cases hself.2
        rw [hself.1]
        exact hholds
    | inr hother =>
        have hne : l'.nodeID ≠ l.nodeID := fun heq => hother.1 (halone m' l' hother.2 heq)
        exact (hinv.holds m' l' hother.2).of_row_eq (hrows _ hne)
  single := by
    intro m₁ m₂ l₁ l₂ h₁ h₂ heq
    cases setPhase_owner h₁ with
    | inl hself₁ =>
        cases hself₁.2
        cases setPhase_owner h₂ with
        | inl hself₂ => rw [hself₁.1, hself₂.1]
        | inr hother₂ => rw [hself₁.1, halone m₂ l₂ hother₂.2 heq.symm]
    | inr hother₁ =>
        cases setPhase_owner h₂ with
        | inl hself₂ =>
            cases hself₂.2
            rw [hself₂.1, halone m₁ l₁ hother₁.2 heq]
        | inr hother₂ => exact hinv.single m₁ m₂ l₁ l₂ hother₁.2 hother₂.2 heq

omit [DecidableEq M] in
theorem Inv.alone_of_claim {nodeID : ℕ} (hinv : c.Inv managers)
    (hclaim : (c.rows.claim c.now nodeID (managers m)).2 = true) :
    ∀ m' l', c.phase m' = .owner l' → l'.nodeID ≠ nodeID := by
  intro m' l' howner heq
  obtain ⟨row, hrow, -, hlive⟩ := (hinv.holds m' l' howner).not_expired
  rw [heq] at hrow
  exact hlive ((claim_written hclaim).2 row hrow)

theorem tryClaim_inv {works : Bool} (hinv : c.Inv managers) (hcareful : (managers m).Careful)
    (h : c.act managers m (.tryClaim works) = some c') : c'.Inv managers := by
  have hidle : ∀ p : Phase, (∀ l, p ≠ .owner l) → (c.setPhase m p).Inv managers :=
    fun p hp => hinv.leave hp fun _ _ _ _ => rfl
  simp only [act] at h
  split at h
  case h_1 candidate hphase =>
      split at h
      · split at h
        case h_1 rows hclaim =>
            cases h
            have hwritten : (c.rows.claim c.now candidate (managers m)).2 = true := by
              rw [hclaim]
            have hrows := (claim_written hwritten).1
            rw [hclaim] at hrows
            dsimp only at hrows
            rw [hrows]
            refine hinv.own (Holds.of_written hcareful) ?_ ?_
            · intro m' l' howner heq
              exact absurd heq (hinv.alone_of_claim hwritten m' l' howner)
            · intro n hne
              exact Function.update_of_ne hne _ _
        case h_2 =>
            split at h
            · cases h
              exact hidle _ fun _ hcase => by cases hcase
            · cases h
              exact hidle _ fun _ hcase => by cases hcase
      · cases h
        exact hidle _ fun _ hcase => by cases hcase
  case h_2 => cases h

theorem heartbeat_inv {renewWorks claimWorks : Bool} (hinv : c.Inv managers)
    (h : c.act managers m (.heartbeat renewWorks claimWorks) = some c') : c'.Inv managers := by
  simp only [act] at h
  split at h
  case h_2 => cases h
  case h_1 l hphase =>
      split at h
      case isFalse => cases h
      case isTrue hnow =>
          have hholds := hinv.holds m l hphase
          have halone : ∀ m' l', c.phase m' = .owner l' → l'.nodeID = l.nodeID → m' = m :=
            fun m' l' howner heq => hinv.single m' m l' l howner hphase heq
          have hwritten : ({ c with
              rows := Function.update c.rows l.nodeID
                (some ⟨(managers m).holder, c.now + (managers m).leased⟩) }.setPhase m
              (.owner ⟨l.nodeID, c.now, l.nextBeat + (managers m).renewInterval⟩)).Inv
              managers := by
            rw [← hnow]
            exact hinv.own (Holds.of_written hholds.careful) halone
              fun n hne => Function.update_of_ne hne _ _
          unfold keepAlive at h
          dsimp only at h
          by_cases hrenewed : renewWorks ∧ (c.rows.renew c.now l.nodeID (managers m)).2
          · rw [if_pos hrenewed, renew_written hrenewed.2] at h
            cases h
            exact hwritten
          · rw [if_neg hrenewed] at h
            by_cases hclaimed :
                renewWorks ∧ claimWorks ∧ (c.rows.claim c.now l.nodeID (managers m)).2
            · rw [if_pos hclaimed, (claim_written hclaimed.2.2).1] at h
              cases h
              exact hwritten
            · rw [if_neg hclaimed] at h
              by_cases hlate :
                  (managers m).ttl - (managers m).renewInterval ≤ c.now - l.lastRenewed
              · rw [if_pos hlate] at h
                cases h
                exact hinv.leave (fun _ hcase => by cases hcase) fun _ _ _ _ => rfl
              · rw [if_neg hlate] at h
                cases h
                exact hinv.own (hholds.of_failed hnow (not_le.mp hlate)) halone fun _ _ => rfl

theorem release_inv {works : Bool} (hinv : c.Inv managers)
    (horderly : Orderly managers c (.act m (.release works)))
    (h : c.act managers m (.release works) = some c') : c'.Inv managers := by
  simp only [act] at h
  split at h
  case h_1 l hphase =>
      cases h
      refine hinv.leave (fun _ hcase => by cases hcase) fun m' l' hne howner => ?_
      split
      · apply release_other
        exact fun heq => hne (hinv.single m' m l' l howner hphase heq)
      · rfl
  case h_2 nodeID hphase =>
      cases h
      refine hinv.leave (fun _ hcase => by cases hcase) fun m' l' hne howner => ?_
      split
      · by_cases heq : l'.nodeID = nodeID
        · subst heq
          obtain ⟨row, hrow, hholder, -⟩ := (hinv.holds m' l' howner).not_expired
          have hother := horderly m' l' hphase howner
          rw [← hholder] at hother
          rw [release_of_holder_ne hrow hother]
        · exact release_other heq
      · rfl
  case h_3 =>
      cases h
      exact hinv
  case h_4 => cases h

theorem act_inv {a : Action} (hinv : c.Inv managers) (horderly : Orderly managers c (.act m a))
    (h : c.act managers m a = some c') : c'.Inv managers := by
  cases a with
  | acquire =>
      simp only [act] at h
      split at h
      · cases h
        exact hinv.leave (fun _ hcase => by cases hcase) fun _ _ _ _ => rfl
      · cases h
      · cases h
        exact hinv
      · cases h
        exact hinv
  | tryClaim works => exact tryClaim_inv hinv horderly h
  | heartbeat renewWorks claimWorks => exact heartbeat_inv hinv h
  | release works => exact release_inv hinv horderly h

theorem step_inv {e : Event M} (hinv : c.Inv managers) (horderly : Orderly managers c e)
    (h : Step managers c e c') : c'.Inv managers := by
  cases h with
  | act hact => exact act_inv hinv horderly hact
  | advance hdue =>
      refine ⟨fun m l howner => ?_, hinv.single⟩
      have hholds := hinv.holds m l howner
      exact
        { careful := hholds.careful
          row := hholds.row
          beat := hholds.beat
          due := hdue m l howner }

omit [DecidableEq M] in
theorem fresh_inv (hfresh : c.Fresh) : c.Inv managers where
  holds := by
    intro m l howner
    rw [hfresh m] at howner
    cases howner
  single := by
    intro m m' l l' howner
    rw [hfresh m] at howner
    cases howner

theorem run_inv (hrun : ClusterRun managers (Orderly managers) c c') (hinv : c.Inv managers) :
    c'.Inv managers :=
  hrun.invariant hinv fun _ _ _ hinv horderly hstep => step_inv hinv horderly hstep

end Cluster

/-! ## Two owners -/

theorem claim_free {rows : Rows} {now nodeID : ℕ} {m : Manager}
    (hfree : ∀ row, rows nodeID = some row → row.expiresAt < now) :
    rows.claim now nodeID m
      = (Function.update rows nodeID (some ⟨m.holder, now + m.leased⟩), true) := by
  unfold Rows.claim
  dsimp only
  cases hrow : rows nodeID with
  | none => rfl
  | some row =>
      dsimp only
      rw [if_pos (hfree row hrow)]

namespace Cluster

variable (managers : M → Manager) {c : Cluster M} {m : M}

theorem act_tryClaim_free {n : ℕ} (hphase : c.phase m = .claiming n)
    (hfree : ∀ row, c.rows n = some row → row.expiresAt < c.now) :
    c.act managers m (.tryClaim true)
      = some ({ c with
          rows := Function.update c.rows n
            (some ⟨(managers m).holder, c.now + (managers m).leased⟩) }.setPhase m
          (.owner ⟨n, c.now, c.now + (managers m).renewInterval⟩)) := by
  simp only [act]
  rw [hphase]
  dsimp only
  rw [claim_free hfree]
  exact if_pos trivial

theorem act_heartbeat_failing {l : Lease} (hphase : c.phase m = .owner l)
    (hnow : c.now = l.nextBeat)
    (hearly : c.now - l.lastRenewed < (managers m).ttl - (managers m).renewInterval) :
    c.act managers m (.heartbeat false false)
      = some (c.setPhase m
          (.owner { l with nextBeat := l.nextBeat + (managers m).renewInterval })) := by
  simp only [act]
  rw [hphase]
  dsimp only
  rw [if_pos hnow]
  simp only [keepAlive, Bool.false_eq_true, false_and, if_false]
  rw [if_neg (not_le.mpr hearly)]

end Cluster

section Overtaken

variable (a b : Manager)

/-- Two managers, the first of which is called `false`. -/
def pair : Bool → Manager
  | false => a
  | true => b

/-- The first manager claimed node 0 at the beginning, no call has worked for it since, and
its next heartbeat is its `k`th. -/
def cutOff (t k : ℕ) : Cluster Bool where
  now := t
  rows := Function.update (fun _ => none) 0 (some ⟨a.holder, a.leased⟩)
  phase := Function.update (fun _ => .idle) false (.owner ⟨0, 0, k * a.renewInterval⟩)

def empty : Cluster Bool where
  now := 0
  rows _ := none
  phase _ := .idle

def NoRelease (_ : Cluster Bool) (e : Event Bool) : Prop :=
  ∀ m works, e ≠ .act m (.release works)

variable {a b}

theorem claimed_run : ClusterRun (pair a b) NoRelease empty (cutOff a 0 1) := by
  have hstart : Cluster.act (pair a b) empty false .acquire
      = some (empty.setPhase false (.claiming 0)) := rfl
  have hclaim : Cluster.act (pair a b) (empty.setPhase false (.claiming 0)) false (.tryClaim true)
      = some (cutOff a 0 1) := by
    rw [Cluster.act_tryClaim_free _ (n := 0) rfl fun row hrow => by cases hrow]
    simp only [Cluster.setPhase, cutOff, empty, pair, Function.update_idem, Nat.zero_add,
      Nat.one_mul]
  exact ((Run.refl _).tail (fun _ _ hcase => by cases hcase) (.act hstart)).tail
    (fun _ _ hcase => by cases hcase) (.act hclaim)

theorem advance_cutOff {t k : ℕ} (h : t + 1 ≤ k * a.renewInterval) :
    Cluster.Step (pair a b) (cutOff a t k) (.advance 1) (cutOff a (t + 1) k) := by
  apply Cluster.Step.advance
  intro m l howner
  cases m with
  | false =>
      cases howner
      exact h
  | true => cases howner

theorem heartbeat_cutOff {t k : ℕ} (hnow : t = k * a.renewInterval)
    (hearly : t + a.renewInterval < a.ttl) :
    Cluster.act (pair a b) (cutOff a t k) false (.heartbeat false false)
      = some (cutOff a t (k + 1)) := by
  rw [Cluster.act_heartbeat_failing _ (l := ⟨0, 0, k * a.renewInterval⟩) rfl hnow]
  · unfold cutOff Cluster.setPhase
    rw [Function.update_idem, Nat.succ_mul]
    rfl
  · change t - 0 < a.ttl - a.renewInterval
    omega

theorem cutOff_run (t : ℕ) (ht : t ≤ a.lossDelay) :
    ∃ k, t ≤ k * a.renewInterval ∧ k * a.renewInterval < a.ttl ∧
      ClusterRun (pair a b) NoRelease empty (cutOff a t k) := by
  have hpos := a.renewInterval_pos
  have hlast : a.lossDelay < a.ttl := a.lossDelay_lt
  induction t with
  | zero =>
      refine ⟨1, Nat.zero_le _, ?_, claimed_run⟩
      rw [Nat.one_mul]
      exact a.renewInterval_lt
  | succ t ih =>
      obtain ⟨k, hle, hk, hrun⟩ := ih (by omega)
      by_cases hdue : t = k * a.renewInterval
      · -- the heartbeat is due; it is not the last one before the TTL has passed
        have hnext : (k + 1) * a.renewInterval ≤ a.lossDelay := by
          apply Nat.mul_le_mul_right
          by_contra hlate
          have hsame := Nat.mul_le_mul_right a.renewInterval (Nat.le_of_lt_succ (not_le.mp hlate))
          change a.lossDelay ≤ _ at hsame
          omega
        rw [Nat.succ_mul] at hnext
        refine ⟨k + 1, ?_, ?_, ?_⟩
        · rw [Nat.succ_mul]
          omega
        · rw [Nat.succ_mul]
          omega
        · refine (hrun.tail (fun _ _ hcase => by cases hcase)
            (.act (heartbeat_cutOff hdue (by omega)))).tail (fun _ _ hcase => by cases hcase)
            (advance_cutOff ?_)
          rw [Nat.succ_mul]
          omega
      · exact ⟨k, by omega, hk, hrun.tail (fun _ _ hcase => by cases hcase)
          (advance_cutOff (by omega))⟩

theorem exists_two_owners (hcareless : ¬ a.Careful) :
    ∃ c, ClusterRun (pair a b) NoRelease empty c ∧
      ∃ l l', c.phase false = .owner l ∧ c.phase true = .owner l' ∧ l.nodeID = l'.nodeID := by
  have hexpired : a.leased + 1 ≤ a.lossDelay := not_le.mp hcareless
  obtain ⟨k, -, -, hrun⟩ := cutOff_run (b := b) (a.leased + 1) hexpired
  have hstart : Cluster.act (pair a b) (cutOff a (a.leased + 1) k) true .acquire
      = some ((cutOff a (a.leased + 1) k).setPhase true (.claiming 0)) := rfl
  have hclaim := Cluster.act_tryClaim_free (pair a b)
    (c := (cutOff a (a.leased + 1) k).setPhase true (.claiming 0)) (m := true) (n := 0) rfl
    (fun row hrow => by
      cases hrow
      exact Nat.lt_succ_self _)
  exact ⟨_, (hrun.tail (fun _ _ hcase => by cases hcase) (.act hstart)).tail
    (fun _ _ hcase => by cases hcase) (.act hclaim), _, _, rfl, rfl, rfl⟩

end Overtaken

/-- Where the managers are careful and lost nodes are not released under the feet of an
owner, no two managers with different holders own a node at once, in any run; a manager that
is not careful can be overtaken although nobody releases anything. -/
theorem nodeLease_exclusive {M : Type} [DecidableEq M] (managers : M → Manager)
    (c c' : Cluster M) :
    (c.Fresh → ClusterRun managers (Orderly managers) c c' →
      ∀ m m' l l', c'.phase m = .owner l → c'.phase m' = .owner l' →
        (managers m).holder ≠ (managers m').holder → l.nodeID ≠ l'.nodeID) ∧
    ∀ a b : Manager, ¬ a.Careful →
      ∃ c, ClusterRun (pair a b) NoRelease empty c ∧
        ∃ l l', c.phase false = .owner l ∧ c.phase true = .owner l' ∧ l.nodeID = l'.nodeID := by
  constructor
  · intro hfresh hrun m m' l l' howner howner' hne heq
    have hinv := Cluster.run_inv hrun (Cluster.fresh_inv hfresh)
    have hsame := hinv.single m m' l l' howner howner' heq
    rw [hsame] at hne
    exact hne rfl
  · exact fun a b hcareless => exists_two_owners hcareless

def minuteManager (holder : Char) : Manager :=
  (newManager [holder] (60 * second)).get rfl

/-- Just below two seconds: `New` admits it, and the database sees one second. -/
def fractionManager (holder : Char) : Manager :=
  (newManager [holder] 1900000000).get rfl

theorem minute_run :
    ∃ c, ClusterRun (pair (minuteManager 'a') (minuteManager 'b'))
        (Orderly (pair (minuteManager 'a') (minuteManager 'b'))) empty c ∧
      c.phase false = .owner ⟨0, 0, 20 * second⟩ ∧ c.phase true = .owner ⟨1, 0, 20 * second⟩ := by
  have hcareful : ∀ m, (pair (minuteManager 'a') (minuteManager 'b') m).Careful := by
    intro m
    apply Manager.careful_of_whole_seconds
    cases m with
    | false => exact Nat.dvd_mul_left second 60
    | true => exact Nat.dvd_mul_left second 60
  exact ⟨_, ((((((Run.refl empty).tail (e := .act false .acquire) trivial (.act rfl)).tail
    (e := .act false (.tryClaim true)) (hcareful false) (.act rfl)).tail
    (e := .act true .acquire) trivial (.act rfl)).tail
    (e := .act true (.tryClaim true)) (hcareful true) (.act rfl)).tail
    (e := .act true (.tryClaim true)) (hcareful true) (.act rfl)), rfl, rfl⟩

theorem nodeLease_exclusive_minute :
    (⟨0, 0, 20 * second⟩ : Lease).nodeID ≠ (⟨1, 0, 20 * second⟩ : Lease).nodeID := by
  obtain ⟨c, hrun, howner, howner'⟩ := minute_run
  exact (nodeLease_exclusive _ empty c).1 (fun _ => rfl) hrun false true _ _ howner howner'
    (by decide)

theorem nodeLease_two_owners :
    ¬ ∀ (managers : Bool → Manager) (c : Cluster Bool),
      ClusterRun managers (fun _ _ => True) empty c →
        ∀ m m' l l', c.phase m = .owner l → c.phase m' = .owner l' →
          (managers m).holder ≠ (managers m').holder → l.nodeID ≠ l'.nodeID := by
  intro hall
  obtain ⟨c, hrun, l, l', howner, howner', heq⟩ :=
    exists_two_owners (a := fractionManager 'a') (b := fractionManager 'b') (by decide)
  refine hall _ c (hrun.mono fun _ _ _ => trivial) false true l l' howner howner' ?_ heq
  decide

end NodeLease

end Nipa
