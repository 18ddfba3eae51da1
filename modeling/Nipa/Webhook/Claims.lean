import Nipa.Support.Lists
import Nipa.Webhook.Steps

/-!
# One claim for each attempt

A delivery that a call has claimed, that waits in the channel or that a worker has
taken is held exactly once, and its id is in `inFlight` as long as it is held.  So no
two workers post one delivery, in whatever order the actors move.
-/

namespace Nipa.Webhook

open Support

/-! ## Who holds a delivery -/

def Call.claims (id : ID) (c : Call) : Bool := c.phase == .claimed && c.job.id == id

/-- The worker has taken the delivery and not yet stored what became of it. -/
def Phase.works (id : ID) : Phase → Bool
  | .received j | .posting j _ | .answered j _ _ => j.id == id
  | .idle | .trimming _ | .releasing _ => false

/-- The worker has stored what became of the delivery and not yet released it. -/
def Phase.finishes (id : ID) : Phase → Bool
  | .trimming j | .releasing j => j.id == id
  | .idle | .received _ | .posting _ _ | .answered _ _ _ => false

namespace World

variable {w w' : World}

/-- How often the delivery is held with its attempt not yet stored. -/
def active (w : World) (id : ID) : ℕ :=
  w.calls.countP (Call.claims id) + w.jobs.countP (·.id == id) +
    w.workers.countP (Phase.works id)

def finishing (w : World) (id : ID) : ℕ := w.workers.countP (Phase.finishes id)

/-- Every delivery is held at most once, and only under a claim. -/
structure Claimed (w : World) : Prop where
  once : ∀ id, w.active id + w.finishing id ≤ 1
  mem_inFlight : ∀ id, 0 < w.active id + w.finishing id → id ∈ w.inFlight

/-- No delivery is posted by two workers at once. -/
def Exclusive (w : World) : Prop :=
  ∀ (i k : ℕ) (j j' : Job) (seen seen' : List Event),
    w.workers[i]? = some (Phase.posting j seen) →
    w.workers[k]? = some (Phase.posting j' seen') → j.id = j'.id → i = k

theorem Claimed.exclusive (h : w.Claimed) : w.Exclusive := by
  intro i k j j' seen seen' hi hk hid
  by_contra hne
  have htwo : 2 ≤ w.workers.countP (Phase.works j.id) :=
    two_le_countP hne hi hk (by simp [Phase.works]) (by simp [Phase.works, hid])
  have honce := h.once j.id
  rw [active] at honce
  omega

/-! ## What a step does to the holders -/

variable {k : ℕ}

theorem active_setWorker {phase : Phase} (hk : w.workers[k]? = some phase) (phase' : Phase)
    (id : ID) :
    (w.setWorker k phase').active id + (phase.works id).toNat =
      w.active id + (phase'.works id).toNat := by
  have h := countP_set_add (Phase.works id) hk phase'
  simp only [active, setWorker]
  omega

theorem finishing_setWorker {phase : Phase} (hk : w.workers[k]? = some phase) (phase' : Phase)
    (id : ID) :
    (w.setWorker k phase').finishing id + (phase.finishes id).toNat =
      w.finishing id + (phase'.finishes id).toNat :=
  countP_set_add (Phase.finishes id) hk phase'

theorem active_setCall {i : ℕ} {c : Call} (hi : w.calls[i]? = some c) (phase : CallPhase)
    (id : ID) :
    (w.setCall i phase c).active id + (c.claims id).toNat =
      w.active id + (Call.claims id { c with phase }).toNat := by
  have h := countP_set_add (Call.claims id) hi { c with phase }
  simp only [active, setCall]
  omega

theorem active_congr (hcalls : w'.calls = w.calls) (hjobs : w'.jobs = w.jobs)
    (hworkers : w'.workers = w.workers) (id : ID) : w'.active id = w.active id := by
  rw [active, active, hcalls, hjobs, hworkers]

theorem active_entered {j : Job} {seen : List Event}
    (hcalls : w'.calls = w.calls ++ [⟨j, .entered, seen⟩])
    (hjobs : w'.jobs = w.jobs) (hworkers : w'.workers = w.workers) (id : ID) :
    w'.active id = w.active id := by
  simp [active, hcalls, hjobs, hworkers, Call.claims]

/-- What a step does to the holders of the deliveries. -/
inductive HolderChange (w : World) (a : Action) (w' : World) : Prop
  | kept (hactive : ∀ id, w'.active id ≤ w.active id)
      (hheld : ∀ id, w'.active id + w'.finishing id ≤ w.active id + w.finishing id)
      (hinFlight : w'.inFlight = w.inFlight)
  | claimed (i : ℕ) (c : Call) (ha : a = .schedule i) (hc : w.calls[i]? = some c)
      (hphase : c.phase = .admitted) (hfree : c.job.id ∉ w.inFlight)
      (hactive : ∀ id, w'.active id = w.active id + (c.job.id == id).toNat)
      (hfinishing : ∀ id, w'.finishing id = w.finishing id)
      (hinFlight : w'.inFlight = c.job.id :: w.inFlight)
  | released (id' : ID) (hactive : ∀ id, w'.active id ≤ w.active id)
      (hheld : ∀ id, w'.active id + w'.finishing id + (id' == id).toNat =
        w.active id + w.finishing id)
      (hinFlight : w'.inFlight = w.inFlight.filter (· ≠ id'))

variable {a : Action}

theorem HolderChange.same (hactive : ∀ id, w'.active id = w.active id)
    (hfinishing : ∀ id, w'.finishing id = w.finishing id) (hinFlight : w'.inFlight = w.inFlight) :
    HolderChange w a w' :=
  .kept (fun id => (hactive id).le)
    (fun id => by rw [hactive, hfinishing]) hinFlight

theorem Claimed.change (h : w.Claimed) (hchange : HolderChange w a w') : w'.Claimed := by
  cases hchange with
  | kept hactive hheld hinFlight =>
      constructor
      · intro id
        exact le_trans (hheld id) (h.once id)
      · intro id hid
        rw [hinFlight]
        exact h.mem_inFlight id (lt_of_lt_of_le hid (hheld id))
  | claimed i c ha hc hphase hfree hactive hfinishing hinFlight =>
      have hnone : w.active c.job.id + w.finishing c.job.id = 0 := by
        by_contra hne
        exact hfree (h.mem_inFlight c.job.id (by omega))
      constructor
      · intro id
        have honce := h.once id
        rw [hactive, hfinishing]
        by_cases hid : c.job.id = id
        · subst hid
          simp only [beq_self_eq_true, Bool.toNat_true]
          omega
        · rw [beq_false_of_ne hid, Bool.toNat_false]
          omega
      · intro id hid
        rw [hactive, hfinishing] at hid
        rw [hinFlight]
        by_cases heq : c.job.id = id
        · exact heq ▸ List.mem_cons_self
        · rw [beq_false_of_ne heq, Bool.toNat_false] at hid
          exact List.mem_cons_of_mem _ (h.mem_inFlight id (by omega))
  | released id' hactive hheld hinFlight =>
      constructor
      · intro id
        have honce := h.once id
        have heq := hheld id
        omega
      · intro id hid
        have honce := h.once id
        have heq := hheld id
        have hne : id ≠ id' := by
          rintro rfl
          rw [beq_self_eq_true, Bool.toNat_true] at heq
          omega
        rw [hinFlight]
        exact List.mem_filter.mpr ⟨h.mem_inFlight id (by omega), by simpa using hne⟩

/-! ## Every step -/

theorem claims_of_ne {c : Call} (hphase : c.phase ≠ .claimed) (id : ID) :
    c.claims id = false := by
  simp [Call.claims, hphase]

theorem holders_schedule {i : ℕ} (h : w.schedule i = some w') :
    HolderChange w (.schedule i) w' := by
  obtain ⟨c, hc, ⟨hphase, phase, hne, rfl⟩ | ⟨hphase, hfree, rfl⟩ | ⟨hphase, rfl⟩ |
    ⟨hphase, rfl⟩⟩ := schedule_cases h
  · refine HolderChange.same ?_ (fun _ => rfl) rfl
    intro id
    have hset := active_setCall hc phase id
    have hnot : c.phase ≠ .claimed := by
      rcases hphase with hphase | hphase
      · simp [hphase]
      · simp [hphase]
    rwa [claims_of_ne hnot, claims_of_ne (c := { c with phase }) hne] at hset
  · refine HolderChange.claimed i c rfl hc hphase hfree ?_ (fun _ => rfl) rfl
    intro id
    have hset := active_setCall (w := { w with inFlight := c.job.id :: w.inFlight }) hc
      .claimed id
    rw [claims_of_ne (by simp [hphase])] at hset
    simpa [Call.claims, active] using hset
  · refine HolderChange.same ?_ (fun _ => rfl) rfl
    intro id
    have hset := active_setCall (w := { w with jobs := w.jobs ++ [c.job] }) hc .returned id
    rw [claims_of_ne (c := { c with phase := .returned }) (by simp)] at hset
    simp only [active, Call.claims, hphase, List.countP_append, List.countP_singleton]
      at hset ⊢
    cases hid : c.job.id == id <;> simp [hid] at hset ⊢ <;> omega
  · have hset := active_setCall (w := w.releaseID c.job.id) hc .returned
    refine HolderChange.released c.job.id ?_ ?_ rfl
    all_goals
      intro id
      have hid := hset id
      rw [claims_of_ne (c := { c with phase := .returned }) (by simp)] at hid
      simp only [Call.claims, hphase, beq_self_eq_true, Bool.true_and] at hid
      simp only [active, finishing, setCall, releaseID] at hid ⊢
      simp only [Bool.toNat_false] at hid
      omega

theorem HolderChange.worker {u : World} {phase phase' : Phase} (hk : w.workers[k]? = some phase)
    (hcalls : u.calls = w.calls) (hjobs : u.jobs = w.jobs) (hworkers : u.workers = w.workers)
    (hinFlight : u.inFlight = w.inFlight)
    (hworks : ∀ id, (phase'.works id).toNat ≤ (phase.works id).toNat)
    (hheld : ∀ id, (phase'.works id).toNat + (phase'.finishes id).toNat =
      (phase.works id).toNat + (phase.finishes id).toNat) :
    HolderChange w a (u.setWorker k phase') := by
  rw [← hworkers] at hk
  have hactive (id : ID) : u.active id = w.active id := active_congr hcalls hjobs hworkers id
  have hfinishing (id : ID) : u.finishing id = w.finishing id := by
    rw [finishing, finishing, hworkers]
  refine HolderChange.kept ?_ ?_ hinFlight
  all_goals
    intro id
    have ha := active_setWorker hk phase' id
    have hf := finishing_setWorker hk phase' id
    have hle := hworks id
    have heq := hheld id
    rw [hactive] at ha
    rw [hfinishing] at hf
    omega

theorem holders_recorded (w : World) (stored : Bool) (updated : Option Store) (id : ID)
    (state : DeliveryState) :
    (w.recorded stored updated id state).calls = w.calls ∧
      (w.recorded stored updated id state).jobs = w.jobs ∧
      (w.recorded stored updated id state).workers = w.workers ∧
      (w.recorded stored updated id state).inFlight = w.inFlight := by
  rcases recorded_cases w stored updated id state with h | ⟨store, -, -, h⟩
  · rw [h]
    exact ⟨rfl, rfl, rfl, rfl⟩
  · rw [h]
    exact ⟨rfl, rfl, rfl, rfl⟩

theorem holders_trimmed (w : World) (hookID : ID) (done : Bool) :
    (w.trimmed hookID done).calls = w.calls ∧ (w.trimmed hookID done).jobs = w.jobs ∧
      (w.trimmed hookID done).workers = w.workers ∧
      (w.trimmed hookID done).inFlight = w.inFlight := by
  unfold trimmed
  split
  · exact ⟨rfl, rfl, rfl, rfl⟩
  · exact ⟨rfl, rfl, rfl, rfl⟩

theorem HolderChange.untouched (hcalls : w'.calls = w.calls) (hjobs : w'.jobs = w.jobs)
    (hworkers : w'.workers = w.workers) (hinFlight : w'.inFlight = w.inFlight) :
    HolderChange w a w' :=
  .same (active_congr hcalls hjobs hworkers)
    (fun id => by rw [finishing, finishing, hworkers]) hinFlight

theorem HolderChange.called {j : Job} {seen : List Event}
    (hcalls : w'.calls = w.calls ++ [⟨j, .entered, seen⟩]) (hjobs : w'.jobs = w.jobs)
    (hworkers : w'.workers = w.workers) (hinFlight : w'.inFlight = w.inFlight) :
    HolderChange w a w' :=
  .same (active_entered hcalls hjobs hworkers)
    (fun id => by rw [finishing, finishing, hworkers]) hinFlight

theorem holders_start : HolderChange w .start w.start := by
  unfold start
  split
  · exact .untouched rfl rfl rfl rfl
  · have hnone (p : Phase → Bool) (hp : p .idle = false) :
        (List.replicate w.cfg.workers.toInt.toNat Phase.idle).countP p = 0 := by
      simp [List.countP_replicate, hp]
    refine HolderChange.kept ?_ ?_ rfl
    · intro id
      simp only [active, hnone (Phase.works id) rfl]
      omega
    · intro id
      simp only [active, finishing, hnone (Phase.works id) rfl,
        hnone (Phase.finishes id) rfl]
      omega

theorem holders_sweep {lookup stored : Bool} (h : w.sweep lookup stored = some w') :
    HolderChange w (.sweep lookup stored) w' := by
  obtain ⟨row, rest, -, rfl | rfl | ⟨-, -, rfl⟩⟩ := sweep_cases h
  · exact .untouched rfl rfl rfl rfl
  · exact .called rfl rfl rfl rfl
  · obtain ⟨hcalls, hjobs, hworkers, hinFlight⟩ := holders_recorded
      { w with rows := rest, sweepTrim := some row.webhookID } stored
      (w.store.markFailed row.id row.attempt none "webhook no longer exists".toList) row.id
      .failed
    exact .untouched hcalls hjobs hworkers hinFlight

theorem holders_take (h : w.take k = some w') : HolderChange w (.take k) w' := by
  obtain ⟨j, rest, hk, hjobs, rfl⟩ := take_cases h
  have hactive := active_setWorker (w := { w with jobs := rest }) hk (.received j)
  have hfinishing := finishing_setWorker hk (.received j)
  refine HolderChange.same ?_ hfinishing rfl
  intro id
  have hid := hactive id
  simp only [active, Phase.works, Bool.toNat_false, hjobs, List.countP_cons] at hid ⊢
  cases hj : j.id == id <;> simp [hj] at hid ⊢ <;> omega

theorem holders_record {now : ℤ} {stored : Bool} (h : w.record k now stored = some w') :
    HolderChange w (.record k now stored) w' := by
  obtain ⟨j, result, seen, hk, rfl⟩ := record_cases h
  obtain ⟨updated, state, phase, heq, hphase, -, -⟩ := deliver_cases w k j result now stored
  obtain ⟨hcalls, hjobs, hworkers, hinFlight⟩ := holders_recorded w stored updated j.id state
  rw [heq]
  rcases hphase with rfl | rfl
  · exact .worker hk hcalls hjobs hworkers hinFlight (by simp [Phase.works])
      (by simp [Phase.works, Phase.finishes])
  · exact .worker hk hcalls hjobs hworkers hinFlight (by simp [Phase.works])
      (by simp [Phase.works, Phase.finishes])

theorem holders_trim {trim : Bool} (h : w.trim k trim = some w') :
    HolderChange w (.trim k trim) w' := by
  obtain ⟨j, hk, rfl⟩ := trim_cases h
  obtain ⟨hcalls, hjobs, hworkers, hinFlight⟩ := holders_trimmed w j.hookID trim
  exact .worker hk hcalls hjobs hworkers hinFlight (by simp [Phase.works])
    (by simp [Phase.works, Phase.finishes])

theorem holders_release (h : w.release k = some w') : HolderChange w (.release k) w' := by
  obtain ⟨j, hk, rfl⟩ := release_cases h
  have hactive := active_setWorker (w := w.releaseID j.id) hk .idle
  have hfinishing := finishing_setWorker (w := w.releaseID j.id) hk .idle
  refine HolderChange.released j.id ?_ ?_ rfl
  all_goals
    intro id
    have ha := hactive id
    have hf := hfinishing id
    simp only [active, finishing, releaseID, setWorker, Phase.works, Phase.finishes,
      Bool.toNat_false] at ha hf ⊢
    omega

theorem holders_step (h : Step w a w') : HolderChange w a w' := by
  cases a with
  | start =>
      obtain rfl := Option.some.inj h
      exact holders_start
  | stop =>
      obtain rfl := Option.some.inj h
      exact .untouched rfl rfl rfl rfl
  | enqueue hookID id now =>
      obtain ⟨-, row, store, -, -, -, rfl⟩ := enqueue_cases h
      exact .called rfl rfl rfl rfl
  | redeliver hookID id now =>
      obtain ⟨store, requeued, -, -, -, rfl⟩ := redeliver_cases h
      exact .called rfl rfl rfl rfl
  | schedule i => exact holders_schedule h
  | listPending now =>
      obtain rfl := listPending_cases h
      exact .untouched rfl rfl rfl rfl
  | sweep lookup stored => exact holders_sweep h
  | sweepTrim trim =>
      obtain ⟨hookID, rfl⟩ := trimSwept_cases h
      obtain ⟨hcalls, hjobs, hworkers, hinFlight⟩ := holders_trimmed w hookID trim
      exact .untouched hcalls hjobs hworkers hinFlight
  | take k => exact holders_take h
  | post k =>
      obtain ⟨j, hk, rfl⟩ := post_cases h
      exact .worker hk rfl rfl rfl rfl (by simp [Phase.works])
        (by simp [Phase.works, Phase.finishes])
  | answer k result =>
      obtain ⟨j, seen, hk, rfl⟩ := answer_cases h
      exact .worker hk rfl rfl rfl rfl (by simp [Phase.works])
        (by simp [Phase.works, Phase.finishes])
  | record k now stored => exact holders_record h
  | trim k trim => exact holders_trim h
  | release k => exact holders_release h

theorem active_le (h : Step w a w') (ha : ∀ i, a ≠ .schedule i) (id : ID) :
    w'.active id ≤ w.active id := by
  cases holders_step h with
  | kept hactive _ _ => exact hactive id
  | claimed i c hschedule => exact absurd hschedule (ha i)
  | released _ hactive _ _ => exact hactive id

theorem Claimed.step (hw : w.Claimed) (h : Step w a w') : w'.Claimed :=
  hw.change (holders_step h)

theorem newDispatcher_claimed (store : Store) (cfg : Config) :
    (newDispatcher store cfg).Claimed where
  once := by simp [active, finishing, newDispatcher]
  mem_inFlight := by simp [active, finishing, newDispatcher]

theorem claimed_of_run {P : World → Action → Prop} {store : Store} {cfg : Config}
    (h : Run Step P (newDispatcher store cfg) w) : w.Claimed :=
  h.invariant (newDispatcher_claimed store cfg) fun _ _ _ hw _ hstep => hw.step hstep

end World

end Nipa.Webhook
