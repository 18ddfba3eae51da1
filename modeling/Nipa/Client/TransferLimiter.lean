import Mathlib.Data.Fintype.EquivFin
import Nipa.Support.Runs

/-!
# The transfer limiter

Transfers take a token from a channel and count themselves active under a mutex;
releasing a transfer and changing the limit put tokens back, or take them out,
under the same mutex.  Taking a token does not need the mutex, so it can fall
between any two steps of a caller that holds it.
-/

namespace Nipa

open Support (Run)

namespace Transfer

/-- Capacity of the token channel and largest limit there is. -/
def maxUploadWorkers : ℕ := 64

def defaultUploadWorkers : ℕ := 16

/-- What the holder of the mutex does next. -/
inductive Held where
  | free
  /-- `release` has lowered `active` and compares. -/
  | releasing
  /-- `release` sends a token; the send blocks on a full channel. -/
  | refilling
  /-- `setLimit` compares in its first loop. -/
  | draining
  /-- `setLimit` receives a token, or returns. -/
  | drainSelect
  /-- `setLimit` compares in its second loop. -/
  | toppingUp
  /-- `setLimit` sends a token, or returns. -/
  | topUpSelect
  deriving DecidableEq

/-- The limiter together with its workers: those that took a token and are not counted
yet, and those whose transfer runs. -/
structure Limiter (W : Type) where
  tokens : ℕ
  active : ℤ
  limit : ℤ
  held : Held
  taking : List W
  running : List W
  /-- The largest limit set so far. -/
  largest : ℤ

inductive Event (W : Type) where
  /-- The first half of `acquire`. -/
  | take (w : W)
  /-- The second half of `acquire`. -/
  | count (w : W)
  | release (w : W)
  | setLimit (limit : ℤ)
  /-- The next step of the caller that holds the mutex. -/
  | advance

variable {W : Type}

def newTransferLimiter (limit : ℕ) : Limiter W where
  tokens := limit
  active := 0
  limit := limit
  held := .free
  taking := []
  running := []
  largest := limit

def clampLimit (limit : ℤ) : ℤ :=
  let limit := if limit < 1 then 1 else limit
  if maxUploadWorkers < limit then maxUploadWorkers else limit

namespace Limiter

/-- The next step of the caller that holds the mutex; `none` when it blocks. -/
def advance (l : Limiter W) : Option (Limiter W) :=
  match l.held with
  | .free => none
  | .releasing =>
      some { l with held := if l.tokens + l.active < l.limit then .refilling else .free }
  | .refilling =>
      if l.tokens < maxUploadWorkers then some { l with tokens := l.tokens + 1, held := .free }
      else none
  | .draining =>
      some { l with held := if l.limit < l.tokens + l.active then .drainSelect else .toppingUp }
  | .drainSelect =>
      if 0 < l.tokens then some { l with tokens := l.tokens - 1, held := .draining }
      else some { l with held := .free }
  | .toppingUp =>
      some { l with held := if l.tokens + l.active < l.limit then .topUpSelect else .free }
  | .topUpSelect =>
      if l.tokens < maxUploadWorkers then
        some { l with tokens := l.tokens + 1, held := .toppingUp }
      else some { l with held := .free }

variable [DecidableEq W]

def step (l : Limiter W) : Event W → Option (Limiter W)
  | .take w =>
      if 0 < l.tokens ∧ w ∉ l.taking ∧ w ∉ l.running then
        some { l with tokens := l.tokens - 1, taking := w :: l.taking }
      else none
  | .count w =>
      if l.held = .free ∧ w ∈ l.taking then
        some { l with
          active := l.active + 1
          taking := l.taking.erase w
          running := w :: l.running }
      else none
  | .release w =>
      if l.held = .free ∧ w ∈ l.running then
        some { l with active := l.active - 1, running := l.running.erase w, held := .releasing }
      else none
  | .setLimit limit =>
      if l.held = .free then
        some { l with
          limit := clampLimit limit
          largest := max l.largest (clampLimit limit)
          held := .draining }
      else none
  | .advance => l.advance

/-- Free tokens, active transfers and acquisitions between their two halves. -/
def slots (l : Limiter W) : ℤ :=
  l.tokens + l.active + l.taking.length

end Limiter

variable [DecidableEq W]

/-- Runs of the limiter whose steps meet a condition. -/
abbrev LimiterRun (P : Limiter W → Event W → Prop) (l l' : Limiter W) : Prop :=
  Run (fun s e s' => Limiter.step s e = some s') P l l'

/-- When `setLimit` finds room in its second loop, no worker stands between the two
halves of `acquire`. -/
def ComparesAlone (l : Limiter W) : Event W → Prop
  | .advance => l.held = .toppingUp → l.tokens + l.active < l.limit → l.taking = []
  | _ => True

instance (l : Limiter W) : (e : Event W) → Decidable (ComparesAlone l e)
  | .take _ => inferInstanceAs (Decidable True)
  | .count _ => inferInstanceAs (Decidable True)
  | .release _ => inferInstanceAs (Decidable True)
  | .setLimit _ => inferInstanceAs (Decidable True)
  | .advance => inferInstanceAs (Decidable (_ → _ → _))

/-! ## What every step keeps -/

/-- What is known of the slots at each point of the caller that holds the mutex. -/
def Limiter.Counted (l : Limiter W) : Prop :=
  match l.held with
  | .free => l.limit ≤ l.slots
  | .releasing => l.limit ≤ l.slots + 1
  | .refilling => l.limit ≤ l.slots + 1 ∧ l.tokens + l.active < l.limit
  | .drainSelect => l.limit < l.slots
  | .topUpSelect => l.tokens + l.active < l.limit
  | _ => True

structure Limiter.Inv (l : Limiter W) : Prop where
  active_eq : l.active = l.running.length
  limit_pos : 1 ≤ l.limit
  limit_le : l.limit ≤ maxUploadWorkers
  limit_largest : l.limit ≤ l.largest
  counted : l.Counted

namespace Limiter

variable {l l' : Limiter W} {e : Event W}

omit [DecidableEq W] in
theorem clampLimit_bounds (limit : ℤ) :
    1 ≤ clampLimit limit ∧ clampLimit limit ≤ maxUploadWorkers := by
  unfold clampLimit maxUploadWorkers
  dsimp only
  split
  · split
    · omega
    · omega
  · split
    · omega
    · omega

omit [DecidableEq W] in
theorem new_inv {limit : ℕ} (hpos : 1 ≤ limit) (hle : limit ≤ maxUploadWorkers) :
    (newTransferLimiter limit : Limiter W).Inv where
  active_eq := rfl
  limit_pos := by
    change 1 ≤ (limit : ℤ)
    omega
  limit_le := by
    change (limit : ℤ) ≤ maxUploadWorkers
    omega
  limit_largest := le_refl _
  counted := by
    change (limit : ℤ) ≤ limit + 0 + (0 : ℕ)
    omega

omit [DecidableEq W] in
theorem advance_frame (h : l.advance = some l') :
    l'.active = l.active ∧ l'.limit = l.limit ∧ l'.taking = l.taking ∧
      l'.running = l.running ∧ l'.largest = l.largest := by
  unfold advance at h
  split at h
  case h_1 => cases h
  case h_3 =>
      split at h
      · cases h
        exact ⟨rfl, rfl, rfl, rfl, rfl⟩
      · cases h
  case h_5 | h_7 =>
      split at h
      · cases h
        exact ⟨rfl, rfl, rfl, rfl, rfl⟩
      · cases h
        exact ⟨rfl, rfl, rfl, rfl, rfl⟩
  all_goals
    cases h
    exact ⟨rfl, rfl, rfl, rfl, rfl⟩

omit [DecidableEq W] in
theorem advance_counted (hinv : l.Inv) (h : l.advance = some l') : l'.Counted := by
  have hcounted := hinv.counted
  have hle := hinv.limit_le
  have hactive := hinv.active_eq
  unfold advance at h
  unfold Counted slots at hcounted
  cases hheld : l.held with
  | free =>
      rw [hheld] at h
      cases h
  | releasing =>
      rw [hheld] at h hcounted
      cases h
      by_cases hlt : l.tokens + l.active < l.limit
      · rw [if_pos hlt]
        exact ⟨hcounted, hlt⟩
      · rw [if_neg hlt]
        change l.limit ≤ l.tokens + l.active + l.taking.length
        omega
  | refilling =>
      rw [hheld] at h hcounted
      dsimp only at h
      split at h
      · cases h
        change l.limit ≤ ((l.tokens + 1 : ℕ) : ℤ) + l.active + l.taking.length
        omega
      · cases h
  | draining =>
      rw [hheld] at h
      cases h
      by_cases hlt : l.limit < l.tokens + l.active
      · rw [if_pos hlt]
        change l.limit < l.tokens + l.active + l.taking.length
        omega
      · rw [if_neg hlt]
        trivial
  | drainSelect =>
      rw [hheld] at h hcounted
      dsimp only at h
      split at h
      · cases h
        trivial
      · cases h
        change l.limit ≤ l.tokens + l.active + l.taking.length
        omega
  | toppingUp =>
      rw [hheld] at h
      cases h
      by_cases hlt : l.tokens + l.active < l.limit
      · rw [if_pos hlt]
        exact hlt
      · rw [if_neg hlt]
        change l.limit ≤ l.tokens + l.active + l.taking.length
        omega
  | topUpSelect =>
      rw [hheld] at h hcounted
      dsimp only at h
      split at h
      · cases h
        trivial
      · cases h
        change l.limit ≤ l.tokens + l.active + l.taking.length
        omega

omit [DecidableEq W] in
/-- Taking a token only moves it: no point of the holder of the mutex notices more than
a token less. -/
theorem take_counted {w : W} (hcounted : l.Counted) (hpos : 0 < l.tokens) :
    ({ l with tokens := l.tokens - 1, taking := w :: l.taking } : Limiter W).Counted := by
  unfold Counted slots at *
  dsimp only at *
  rw [List.length_cons]
  cases hheld : l.held with
  | draining => trivial
  | toppingUp => trivial
  | _ =>
      rw [hheld] at hcounted
      dsimp only at *
      omega

theorem step_inv (hinv : l.Inv) (h : l.step e = some l') : l'.Inv := by
  cases e with
  | take w =>
      simp only [step] at h
      split at h
      case isTrue hfree =>
          cases h
          exact
            { hinv with
              counted := take_counted hinv.counted hfree.1 }
      case isFalse => cases h
  | count w =>
      simp only [step] at h
      split at h
      case isTrue hfree =>
          cases h
          have hcounted := hinv.counted
          have hactive := hinv.active_eq
          have hlen := List.length_erase_of_mem hfree.2
          have hpos := List.length_pos_of_mem hfree.2
          refine { hinv with active_eq := ?_, counted := ?_ }
          · dsimp only
            rw [List.length_cons]
            omega
          · unfold Counted slots at *
            rw [hfree.1] at hcounted ⊢
            dsimp only at *
            omega
      case isFalse => cases h
  | release w =>
      simp only [step] at h
      split at h
      case isTrue hfree =>
          cases h
          have hcounted := hinv.counted
          have hactive := hinv.active_eq
          have hlen := List.length_erase_of_mem hfree.2
          have hpos := List.length_pos_of_mem hfree.2
          refine { hinv with active_eq := ?_, counted := ?_ }
          · dsimp only
            omega
          · unfold Counted slots at *
            rw [hfree.1] at hcounted
            dsimp only at *
            omega
      case isFalse => cases h
  | setLimit limit =>
      simp only [step] at h
      split at h
      · cases h
        exact
          { active_eq := hinv.active_eq
            limit_pos := (clampLimit_bounds limit).1
            limit_le := (clampLimit_bounds limit).2
            limit_largest := le_max_right _ _
            counted := trivial }
      · cases h
  | advance =>
      obtain ⟨hactive, hlimit, htaking, hrunning, hlargest⟩ := advance_frame h
      exact
        { active_eq := by rw [hactive, hrunning]; exact hinv.active_eq
          limit_pos := by rw [hlimit]; exact hinv.limit_pos
          limit_le := by rw [hlimit]; exact hinv.limit_le
          limit_largest := by rw [hlimit, hlargest]; exact hinv.limit_largest
          counted := advance_counted hinv h }

theorem run_inv {P : Limiter W → Event W → Prop} (hrun : LimiterRun P l l') (hinv : l.Inv) :
    l'.Inv :=
  hrun.invariant hinv fun _ _ _ hinv _ hstep => step_inv hinv hstep

/-! ## The number of slots -/

/-- The largest limit bounds the slots; where a token is about to be put back, or may be
after a release, it leaves room for one more. -/
def Bounded (l : Limiter W) : Prop :=
  match l.held with
  | .releasing => l.slots + 1 ≤ l.largest
  | .refilling => l.slots + 1 ≤ l.largest
  | .topUpSelect => l.slots + 1 ≤ l.largest
  | _ => l.slots ≤ l.largest

omit [DecidableEq W] in
theorem Bounded.slots_le (h : l.Bounded) : l.slots ≤ l.largest := by
  unfold Bounded at h
  split at h
  · omega
  · omega
  · omega
  · exact h

omit [DecidableEq W] in
/-- A release has made room for the token it puts back; `setLimit` has counted every
slot when no acquisition is under way. -/
theorem advance_bounded (hinv : l.Inv) (hbounded : l.Bounded)
    (halone : l.held = .toppingUp → l.tokens + l.active < l.limit → l.taking = [])
    (h : l.advance = some l') : l'.Bounded := by
  have hlargest := hinv.limit_largest
  unfold advance at h
  unfold Bounded slots at hbounded
  cases hheld : l.held with
  | free =>
      rw [hheld] at h
      cases h
  | releasing =>
      rw [hheld] at h hbounded
      cases h
      by_cases hlt : l.tokens + l.active < l.limit
      · rw [if_pos hlt]
        exact hbounded
      · rw [if_neg hlt]
        change l.tokens + l.active + l.taking.length ≤ l.largest
        omega
  | refilling =>
      rw [hheld] at h hbounded
      dsimp only at h
      split at h
      · cases h
        change ((l.tokens + 1 : ℕ) : ℤ) + l.active + l.taking.length ≤ l.largest
        omega
      · cases h
  | draining =>
      rw [hheld] at h hbounded
      cases h
      by_cases hlt : l.limit < l.tokens + l.active
      · rw [if_pos hlt]
        exact hbounded
      · rw [if_neg hlt]
        exact hbounded
  | drainSelect =>
      rw [hheld] at h hbounded
      dsimp only at h
      split at h
      · cases h
        change ((l.tokens - 1 : ℕ) : ℤ) + l.active + l.taking.length ≤ l.largest
        omega
      · cases h
        exact hbounded
  | toppingUp =>
      rw [hheld] at h hbounded
      cases h
      by_cases hlt : l.tokens + l.active < l.limit
      · rw [if_pos hlt]
        have hnone := halone hheld hlt
        change l.tokens + l.active + l.taking.length + 1 ≤ l.largest
        rw [hnone]
        dsimp only [List.length_nil]
        omega
      · rw [if_neg hlt]
        exact hbounded
  | topUpSelect =>
      rw [hheld] at h hbounded
      dsimp only at h
      split at h
      · cases h
        change ((l.tokens + 1 : ℕ) : ℤ) + l.active + l.taking.length ≤ l.largest
        omega
      · cases h
        change l.tokens + l.active + l.taking.length ≤ l.largest
        omega

omit [DecidableEq W] in
theorem take_bounded {w : W} (hbounded : l.Bounded) (hpos : 0 < l.tokens) :
    ({ l with tokens := l.tokens - 1, taking := w :: l.taking } : Limiter W).Bounded := by
  unfold Bounded slots at *
  dsimp only at *
  rw [List.length_cons]
  cases hheld : l.held with
  | _ =>
      rw [hheld] at hbounded
      dsimp only at *
      omega

theorem step_bounded (hinv : l.Inv) (hbounded : l.Bounded) (halone : ComparesAlone l e)
    (h : l.step e = some l') : l'.Bounded := by
  cases e with
  | take w =>
      simp only [step] at h
      split at h
      case isTrue hfree =>
          cases h
          exact take_bounded hbounded hfree.1
      case isFalse => cases h
  | count w =>
      simp only [step] at h
      split at h
      case isTrue hfree =>
          cases h
          have hlen := List.length_erase_of_mem hfree.2
          have hpos := List.length_pos_of_mem hfree.2
          unfold Bounded slots at *
          rw [hfree.1] at hbounded ⊢
          dsimp only at *
          omega
      case isFalse => cases h
  | release w =>
      simp only [step] at h
      split at h
      case isTrue hfree =>
          cases h
          have hle := hbounded.slots_le
          unfold slots at hle
          change l.tokens + (l.active - 1) + l.taking.length + 1 ≤ l.largest
          omega
      case isFalse => cases h
  | setLimit limit =>
      simp only [step] at h
      split at h
      · cases h
        exact hbounded.slots_le.trans (le_max_left _ _)
      · cases h
  | advance => exact advance_bounded hinv hbounded halone h

omit [DecidableEq W] in
theorem active_le_slots (l : Limiter W) : l.active ≤ l.slots := by
  unfold slots
  omega

/-! ## A run that takes every slot -/

theorem exists_run_takes [Infinite W] (l : Limiter W) :
    ∃ l', LimiterRun (fun _ _ => True) l l' ∧ l'.tokens = 0 ∧ l'.slots = l.slots ∧
      l'.held = l.held ∧ l'.largest = l.largest := by
  generalize htokens : l.tokens = n
  induction n generalizing l with
  | zero => exact ⟨l, Run.refl l, htokens, rfl, rfl, rfl⟩
  | succ n ih =>
      obtain ⟨w, hw⟩ := Infinite.exists_notMem_finset (l.taking ++ l.running).toFinset
      rw [List.mem_toFinset, List.mem_append, not_or] at hw
      have hstep : l.step (.take w)
          = some { l with tokens := l.tokens - 1, taking := w :: l.taking } :=
        if_pos ⟨by omega, hw⟩
      obtain ⟨l', hrun, hnone, hslots, hheld, hlargest⟩ :=
        ih { l with tokens := l.tokens - 1, taking := w :: l.taking } (by dsimp only; omega)
      refine ⟨l', ((Run.refl l).tail trivial hstep).trans hrun, hnone, ?_, hheld, hlargest⟩
      rw [hslots]
      unfold slots
      dsimp only
      rw [List.length_cons]
      omega

theorem exists_run_counts {l : Limiter W} (hfree : l.held = .free) :
    ∃ l', LimiterRun (fun _ _ => True) l l' ∧ l'.taking = [] ∧ l'.tokens = l.tokens ∧
      l'.slots = l.slots ∧ l'.largest = l.largest := by
  generalize htaking : l.taking = taking
  induction taking generalizing l with
  | nil => exact ⟨l, Run.refl l, htaking, rfl, rfl, rfl⟩
  | cons w taking ih =>
      have hmem : w ∈ l.taking := by
        rw [htaking]
        exact List.mem_cons_self
      have hstep : l.step (.count w) = some { l with
          active := l.active + 1
          taking := l.taking.erase w
          running := w :: l.running } := if_pos ⟨hfree, hmem⟩
      obtain ⟨l', hrun, hnone, htokens, hslots, hlargest⟩ :=
        ih (l := { l with
          active := l.active + 1
          taking := l.taking.erase w
          running := w :: l.running }) hfree (by rw [htaking, List.erase_cons_head])
      refine ⟨l', ((Run.refl l).tail trivial hstep).trans hrun, hnone, htokens, ?_, hlargest⟩
      rw [hslots]
      unfold slots
      dsimp only
      rw [htaking, List.erase_cons_head, List.length_cons]
      omega

theorem exists_run_active_gt [Infinite W] {l : Limiter W} (hfree : l.held = .free)
    (hover : l.largest < l.slots) :
    ∃ l', LimiterRun (fun _ _ => True) l l' ∧ l'.largest < l'.active := by
  obtain ⟨l₁, hrun₁, hnone₁, hslots₁, hheld₁, hlargest₁⟩ := exists_run_takes l
  obtain ⟨l₂, hrun₂, htaking₂, htokens₂, hslots₂, hlargest₂⟩ :=
    exists_run_counts (hheld₁.trans hfree)
  refine ⟨l₂, hrun₁.trans hrun₂, ?_⟩
  have hall : l₂.slots = l₂.active := by
    unfold slots
    rw [htaking₂, htokens₂, hnone₁]
    simp
  rw [← hall, hslots₂, hslots₁, hlargest₂, hlargest₁]
  exact hover

end Limiter

/-- In every run slots do not leak and `release` does not block, and where `setLimit`
compares alone no more transfers are active than the largest limit allows. -/
theorem transferLimiter_slots {limit : ℕ} (hpos : 1 ≤ limit) (hle : limit ≤ maxUploadWorkers) :
    (∀ l : Limiter W, LimiterRun (fun _ _ => True) (newTransferLimiter limit) l →
      (l.held = .free → l.limit ≤ l.slots) ∧
      (l.held = .free → l.active = 0 → l.taking = [] → 0 < l.tokens) ∧
      (l.held = .refilling → (l.step .advance).isSome)) ∧
    ∀ l : Limiter W, LimiterRun ComparesAlone (newTransferLimiter limit) l →
      l.active ≤ l.largest := by
  constructor
  · intro l hrun
    have hinv := Limiter.run_inv hrun (Limiter.new_inv hpos hle)
    have hcounted := hinv.counted
    refine ⟨fun hfree => ?_, fun hfree hactive htaking => ?_, fun hheld => ?_⟩
    · unfold Limiter.Counted at hcounted
      rwa [hfree] at hcounted
    · unfold Limiter.Counted Limiter.slots at hcounted
      rw [hfree, hactive, htaking] at hcounted
      dsimp only [List.length_nil] at hcounted
      have hlimit := hinv.limit_pos
      omega
    · unfold Limiter.Counted at hcounted
      rw [hheld] at hcounted
      have hlimit := hinv.limit_le
      have hactive := hinv.active_eq
      have hroom : l.tokens < maxUploadWorkers := by
        obtain ⟨-, hlt⟩ := hcounted
        omega
      simp [Limiter.step, Limiter.advance, hheld, hroom]
  · intro l hrun
    have hboth : l.Inv ∧ l.Bounded := by
      refine hrun.invariant (I := fun l : Limiter W => l.Inv ∧ l.Bounded) ?_ ?_
      · refine ⟨Limiter.new_inv hpos hle, ?_⟩
        change (limit : ℤ) + 0 + (0 : ℕ) ≤ limit
        omega
      · rintro l e l' ⟨hinv, hbounded⟩ halone hstep
        exact ⟨Limiter.step_inv hinv hstep, Limiter.step_bounded hinv hbounded halone hstep⟩
    exact l.active_le_slots.trans hboth.2.slots_le

def raisedLimit : List (Event ℕ) :=
  [.take 0, .count 0, .setLimit 3, .advance, .advance, .advance, .advance, .take 1,
    .release 0, .advance, .advance, .count 1, .take 2, .count 2, .take 3, .count 3]

theorem transferLimiter_slots_raised :
    ∃ l : Limiter ℕ, LimiterRun ComparesAlone (newTransferLimiter 2) l ∧ l.largest = 3 ∧
      l.running = [3, 2, 1] ∧ l.limit ≤ l.slots ∧ l.active ≤ l.largest := by
  have hsome : (raisedLimit.foldlM (fun (l : Limiter ℕ) e =>
      if ComparesAlone l e then l.step e else none) (newTransferLimiter 2)).map
        (fun l => (l.largest, l.running, l.held)) = some (3, [3, 2, 1], .free) := by
    decide
  obtain ⟨l, hl, hstate⟩ := Option.map_eq_some_iff.mp hsome
  obtain ⟨hlargest, hrunning, hfree⟩ := by simpa only [Prod.mk.injEq] using hstate
  have hrun : LimiterRun ComparesAlone (newTransferLimiter 2) l := Run.of_foldlM_checked hl
  obtain ⟨hevery, hbound⟩ := transferLimiter_slots (W := ℕ) (Nat.le_succ 1) (by decide)
  exact ⟨l, hrun, hlargest, hrunning, (hevery l (hrun.mono fun _ _ _ => trivial)).1 hfree,
    hbound l hrun⟩

def overbooked : Limiter ℕ where
  tokens := 16
  active := 0
  limit := 16
  held := .free
  taking := [0]
  running := []
  largest := 16

/-- Setting the limit again between the two halves of an acquisition puts back the token
that was taken. -/
theorem overbooked_steps :
    [.take 0, .setLimit 16, .advance, .advance, .advance, .advance].foldlM Limiter.step
      (newTransferLimiter defaultUploadWorkers) = some overbooked := rfl

theorem transferLimiter_overbooked :
    ¬ ∀ l : Limiter ℕ, LimiterRun (fun _ _ => True) (newTransferLimiter defaultUploadWorkers) l →
      l.active ≤ l.largest := by
  intro hall
  obtain ⟨l, hrun, hgt⟩ := Limiter.exists_run_active_gt (l := overbooked) rfl (by decide)
  exact absurd (hall l ((Run.of_foldlM overbooked_steps).trans hrun)) (not_le.mpr hgt)

end Transfer

end Nipa
