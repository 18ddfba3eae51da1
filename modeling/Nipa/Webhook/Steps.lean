import Nipa.Webhook.Dispatcher

/-!
# What the steps of the dispatcher do

The updates of the store, read as facts about which deliveries are pending, and the
ways each step can go.
-/

namespace Nipa.Webhook

open Support

/-! ## Updates of the store -/

namespace Store

variable {store store' : Store}

def Pending (store : Store) (id : ID) : Prop :=
  ∃ row ∈ store.deliveries, row.id = id ∧ row.state = .pending

variable {set : Delivery → Delivery}

theorem update_eq_some {selects : Delivery → Bool} {hset : ∀ row, (set row).id = row.id}
    (h : store.update selects set hset = some store') :
    (∃ row ∈ store.deliveries, selects row = true) ∧
      store'.hooks = store.hooks ∧
      store'.deliveries = store.deliveries.map fun row => if selects row then set row else row := by
  unfold update at h
  split at h
  · next hany =>
      obtain rfl := Option.some.inj h
      exact ⟨by simpa using hany, rfl, rfl⟩
  · cases h

/-- The hooks are the same, and every row belongs to the hook it belonged to. -/
structure SameHooks (store store' : Store) : Prop where
  hooks_eq : store'.hooks = store.hooks
  rows : ∀ row' ∈ store'.deliveries, ∃ row ∈ store.deliveries,
    row.id = row'.id ∧ row.webhookID = row'.webhookID

theorem sameHooks_of_update {selects : Delivery → Bool} {hid : ∀ row, (set row).id = row.id}
    (h : store.update selects set hid = some store')
    (hhook : ∀ row, (set row).webhookID = row.webhookID) : store.SameHooks store' := by
  obtain ⟨-, hhooks, hdeliveries⟩ := update_eq_some h
  refine ⟨hhooks, ?_⟩
  intro row' hrow'
  rw [hdeliveries] at hrow'
  obtain ⟨row, hrow, rfl⟩ := List.mem_map.mp hrow'
  refine ⟨row, hrow, ?_⟩
  split
  · exact ⟨(hid row).symm, (hhook row).symm⟩
  · exact ⟨rfl, rfl⟩

/-- The store after the attempt's outcome has been written to its row. -/
structure Recorded (store : Store) (id : ID) (state : DeliveryState) (store' : Store) :
    Prop where
  hooks : store.SameHooks store'
  known : ∃ row ∈ store.deliveries, row.id = id
  ids : store'.deliveries.map (·.id) = store.deliveries.map (·.id)
  here : store'.Pending id ↔ state = .pending
  elsewhere : ∀ other, other ≠ id → (store'.Pending other ↔ store.Pending other)

theorem recorded_of_update {id : ID} {state : DeliveryState} {hid : ∀ row, (set row).id = row.id}
    (h : store.update (·.id == id) set hid = some store') (hstate : ∀ row, (set row).state = state)
    (hhook : ∀ row, (set row).webhookID = row.webhookID) : store.Recorded id state store' := by
  have hhooks := sameHooks_of_update h hhook
  obtain ⟨⟨row, hrow, hsel⟩, -, hdeliveries⟩ := update_eq_some h
  have hrowid : row.id = id := by simpa using hsel
  refine ⟨hhooks, ⟨row, hrow, hrowid⟩, ?_, ?_, ?_⟩
  · rw [hdeliveries]
    exact map_id_update _ hid
  · rw [Pending, hdeliveries]
    constructor
    · rintro ⟨new, hnew, hnewid, hpending⟩
      obtain ⟨old, -, rfl⟩ := List.mem_map.mp hnew
      split at hpending
      · rwa [hstate] at hpending
      · next hne =>
          rw [if_neg hne] at hnewid
          exact absurd (by simpa using hnewid) hne
    · intro hpending
      refine ⟨set row, ?_, by rw [hid, hrowid], by rw [hstate, hpending]⟩
      exact List.mem_map.mpr ⟨row, hrow, by rw [if_pos hsel]⟩
  · intro other hother
    rw [Pending, Pending, hdeliveries]
    constructor
    · rintro ⟨new, hnew, hnewid, hpending⟩
      obtain ⟨old, hold, rfl⟩ := List.mem_map.mp hnew
      split at hnewid
      · next heq =>
          rw [hid] at hnewid
          exact absurd (hnewid.symm.trans (by simpa using heq)) hother
      · next hne =>
          rw [if_neg hne] at hpending
          exact ⟨old, hold, hnewid, hpending⟩
    · rintro ⟨old, hold, holdid, hpending⟩
      refine ⟨old, List.mem_map.mpr ⟨old, hold, ?_⟩, holdid, hpending⟩
      rw [if_neg (by simpa [holdid] using hother)]

variable {time : ℤ}

theorem recorded_markDelivered {id : ID} {attempt : Int64} {status : Option Int64}
    (h : store.markDelivered id attempt status time = some store') :
    store.Recorded id .delivered store' :=
  recorded_of_update h (fun _ => rfl) (fun _ => rfl)

theorem recorded_reschedule {id : ID} {attempt : Int64} {status : Option Int64} {text : Str}
    (h : store.reschedule id attempt status text time = some store') :
    store.Recorded id .pending store' :=
  recorded_of_update h (fun _ => rfl) (fun _ => rfl)

theorem recorded_markFailed {id : ID} {attempt : Int64} {status : Option Int64} {text : Str}
    (h : store.markFailed id attempt status text = some store') :
    store.Recorded id .failed store' :=
  recorded_of_update h (fun _ => rfl) (fun _ => rfl)

theorem requeue_known {hookID id : ID} (h : store.requeue hookID id time = some store') :
    store.SameHooks store' ∧ ∃ row ∈ store.deliveries, row.id = id ∧ row.webhookID = hookID := by
  obtain ⟨⟨row, hrow, hsel⟩, -, -⟩ := update_eq_some h
  rw [Bool.and_eq_true, beq_iff_eq, beq_iff_eq] at hsel
  exact ⟨sameHooks_of_update h fun _ => rfl, row, hrow, hsel.2, hsel.1⟩

theorem pending_requeue {hookID id : ID} (h : store.requeue hookID id time = some store') :
    store'.Pending id ∧ (∀ other, store.Pending other → store'.Pending other) ∧
      (∀ other, other ≠ id → store'.Pending other → store.Pending other) ∧
      store'.deliveries.map (·.id) = store.deliveries.map (·.id) := by
  obtain ⟨⟨row, hrow, hsel⟩, -, hdeliveries⟩ := update_eq_some h
  refine ⟨?_, ?_, ?_, ?_⟩
  · rw [Pending, hdeliveries]
    have hrowid : row.webhookID = hookID ∧ row.id = id := by simpa using hsel
    refine ⟨_, List.mem_map.mpr ⟨row, hrow, rfl⟩, ?_, ?_⟩
    · rw [if_pos hsel]
      exact hrowid.2
    · rw [if_pos hsel]
  · rintro other ⟨old, hold, holdid, hpending⟩
    rw [Pending, hdeliveries]
    refine ⟨_, List.mem_map.mpr ⟨old, hold, rfl⟩, ?_, ?_⟩
    · split
      · exact holdid
      · exact holdid
    · split
      · rfl
      · exact hpending
  · rintro other hother ⟨new, hnew, hnewid, hpending⟩
    rw [hdeliveries] at hnew
    obtain ⟨old, hold, rfl⟩ := List.mem_map.mp hnew
    split at hnewid
    · next heq =>
        have holdid : old.webhookID = hookID ∧ old.id = id := by simpa using heq
        exact absurd (hnewid.symm.trans holdid.2) hother
    · next hne =>
        rw [if_neg hne] at hpending
        exact ⟨old, hold, hnewid, hpending⟩
  · rw [hdeliveries]
    exact map_id_update _ fun _ => rfl

variable {row : Delivery}

theorem createDelivery_eq_some (h : store.createDelivery row = some store') :
    store'.deliveries = row :: store.deliveries := by
  unfold createDelivery at h
  split at h
  · cases h
  · exact (Option.some.inj h) ▸ rfl

theorem pending_createDelivery (hrow : row.state = .pending)
    (h : store.createDelivery row = some store') (id : ID) :
    store'.Pending id ↔ row.id = id ∨ store.Pending id := by
  rw [Pending, createDelivery_eq_some h]
  constructor
  · rintro ⟨old, hold, holdid, hpending⟩
    rcases List.mem_cons.mp hold with rfl | h'
    · exact Or.inl holdid
    · exact Or.inr ⟨old, h', holdid, hpending⟩
  · rintro (rfl | ⟨old, hold, holdid, hpending⟩)
    · exact ⟨row, List.mem_cons_self, rfl, hrow⟩
    · exact ⟨old, List.mem_cons_of_mem _ hold, holdid, hpending⟩

theorem createDelivery_hooks (h : store.createDelivery row = some store') :
    store'.hooks = store.hooks := by
  unfold createDelivery at h
  split at h
  · cases h
  · exact (Option.some.inj h) ▸ rfl

theorem mem_listPendingRetries {now : ℤ} {limit : Int64}
    (h : row ∈ store.listPendingRetries now limit) :
    row ∈ store.deliveries ∧ row.state = .pending := by
  have hdue := (List.mem_insertionSort _).mp (List.mem_of_mem_take h)
  obtain ⟨hrow, hpending⟩ := List.mem_filter.mp hdue
  rw [Bool.and_eq_true, beq_iff_eq] at hpending
  exact ⟨hrow, hpending.1⟩

theorem pending_deleteOldDeliveries (webhookID : ID) (keep : ℕ) (id : ID) :
    (store.deleteOldDeliveries webhookID keep).Pending id ↔ store.Pending id := by
  rw [Pending, Pending, deleteOldDeliveries]
  constructor
  · rintro ⟨row, hrow, hid, hpending⟩
    exact ⟨row, (List.mem_filter.mp hrow).1, hid, hpending⟩
  · rintro ⟨row, hrow, hid, hpending⟩
    exact ⟨row, List.mem_filter.mpr ⟨hrow, by simp [hpending]⟩, hid, hpending⟩

end Store

/-! ## Steps -/

namespace World

variable {w w' : World}

theorem enqueue_cases {hookID id : ID} {now : ℤ} (h : w.enqueue hookID id now = some w') :
    id ∉ w.created ∧ ∃ (row : Delivery) (store : Store), row.id = id ∧
      row.state = .pending ∧ w.store.createDelivery row = some store ∧
      w' =
        { w with
          store
          created := id :: w.created
          calls := w.calls ++ [⟨⟨hookID, row⟩, .entered, w.log⟩] } := by
  unfold enqueue at h
  split at h
  · cases h
  · next hfresh =>
      obtain ⟨store, hstore, rfl⟩ := Option.map_eq_some_iff.mp h
      exact ⟨hfresh, _, store, rfl, rfl, hstore, rfl⟩

theorem redeliver_cases {hookID id : ID} {now : ℤ}
    (h : w.redeliver hookID id now = some w') :
    ∃ store requeued, hookID ∈ w.store.hooks ∧
      w.store.requeue hookID id now = some store ∧ requeued.id = id ∧
      w' =
        { w with
          store
          log := .redelivered id :: w.log
          calls := w.calls ++ [⟨⟨hookID, requeued⟩, .entered, .redelivered id :: w.log⟩] } := by
  obtain ⟨_, hguard, h⟩ := Option.bind_eq_some_iff.mp h
  have hhook : hookID ∈ w.store.hooks := by
    by_contra hgone
    rw [guard, if_neg hgone] at hguard
    cases hguard
  obtain ⟨store, hstore, h⟩ := Option.bind_eq_some_iff.mp h
  obtain ⟨requeued, hget, h⟩ := Option.bind_eq_some_iff.mp h
  have hid := List.find?_some hget
  rw [Bool.and_eq_true, beq_iff_eq, beq_iff_eq] at hid
  exact ⟨store, requeued, hhook, hstore, hid.2, (Option.some.inj h).symm⟩

theorem listPending_cases {now : ℤ} (h : w.listPending now = some w') :
    w' = { w with rows := w.store.listPendingRetries now w.cfg.retryBatch, rowsSeen := w.log } := by
  unfold listPending at h
  split at h
  · exact (Option.some.inj h).symm
  · cases h

theorem sweep_cases {lookup stored : Bool} (h : w.sweep lookup stored = some w') :
    ∃ row rest, w.rows = row :: rest ∧
      (w' = { w with rows := rest } ∨
        w' =
          { w with
            rows := rest
            calls := w.calls ++ [⟨⟨row.webhookID, row⟩, .entered, w.rowsSeen⟩]
            sweepCall := some w.calls.length } ∨
        (lookup = true ∧ row.webhookID ∉ w.store.hooks ∧
          w' = { w with rows := rest, sweepTrim := some row.webhookID }.markFailed row
            row.attempt none "webhook no longer exists".toList stored)) := by
  unfold sweep at h
  cases hrows : w.rows with
  | nil =>
      rw [hrows] at h
      cases h
  | cons row rest =>
      refine ⟨row, rest, rfl, ?_⟩
      rw [hrows] at h
      simp only at h
      split at h
      · cases h
      · split at h
        · exact Or.inl (Option.some.inj h).symm
        · next hlookup =>
            split at h
            · exact Or.inr (Or.inl (Option.some.inj h).symm)
            · next hgone =>
                exact Or.inr (Or.inr ⟨by simpa using hlookup, hgone,
                  (Option.some.inj h).symm⟩)

theorem trimSwept_cases {trim : Bool} (h : w.trimSwept trim = some w') :
    ∃ hookID, w' = { w.trimmed hookID trim with sweepTrim := none } := by
  unfold trimSwept at h
  split at h
  · cases h
  · next hookID _ => exact ⟨hookID, (Option.some.inj h).symm⟩

theorem schedule_cases {i : ℕ} (h : w.schedule i = some w') :
    ∃ c, w.calls[i]? = some c ∧
      (((c.phase = .entered ∨ c.phase = .admitted) ∧
          ∃ phase, phase ≠ .claimed ∧ w' = w.setCall i phase c) ∨
        (c.phase = .admitted ∧ c.job.id ∉ w.inFlight ∧
          w' = { w with inFlight := c.job.id :: w.inFlight }.setCall i .claimed c) ∨
        (c.phase = .claimed ∧
          w' = { w with jobs := w.jobs ++ [c.job] }.setCall i .returned c) ∨
        (c.phase = .claimed ∧ w' = (w.releaseID c.job.id).setCall i .returned c)) := by
  obtain ⟨c, hc, h⟩ := Option.bind_eq_some_iff.mp h
  refine ⟨c, hc, ?_⟩
  cases hphase : c.phase with
  | entered =>
      rw [hphase] at h
      refine Or.inl ⟨Or.inl rfl, if w.running then .admitted else .returned, ?_,
        (Option.some.inj h).symm⟩
      split <;> simp
  | admitted =>
      rw [hphase, claim] at h
      by_cases hmem : c.job.id ∈ w.inFlight
      · rw [if_pos hmem] at h
        exact Or.inl ⟨Or.inr rfl, .returned, by simp, (Option.some.inj h).symm⟩
      · rw [if_neg hmem] at h
        exact Or.inr (Or.inl ⟨rfl, hmem, (Option.some.inj h).symm⟩)
  | claimed =>
      rw [hphase] at h
      by_cases hroom : w.jobs.length < jobsCapacity
      · simp only [if_pos hroom] at h
        exact Or.inr (Or.inr (Or.inl ⟨rfl, (Option.some.inj h).symm⟩))
      · simp only [if_neg hroom] at h
        exact Or.inr (Or.inr (Or.inr ⟨rfl, (Option.some.inj h).symm⟩))
  | returned =>
      rw [hphase] at h
      cases h

variable {k : ℕ}

theorem take_cases (h : w.take k = some w') :
    ∃ j rest, w.workers[k]? = some .idle ∧ w.jobs = j :: rest ∧
      w' = { w with jobs := rest }.setWorker k (.received j) := by
  unfold take at h
  split at h
  · next j rest hk hjobs => exact ⟨j, rest, hk, hjobs, (Option.some.inj h).symm⟩
  · cases h

theorem post_cases (h : w.post k = some w') :
    ∃ j, w.workers[k]? = some (.received j) ∧
      w' = { w with log := .posted j.id :: w.log }.setWorker k
        (.posting j (.posted j.id :: w.log)) := by
  unfold post at h
  split at h
  · next j hk => exact ⟨j, hk, (Option.some.inj h).symm⟩
  · cases h

theorem answer_cases {result : Result} (h : w.answer k result = some w') :
    ∃ j seen, w.workers[k]? = some (.posting j seen) ∧
      w' = w.setWorker k (.answered j result seen) := by
  unfold answer at h
  split at h
  · next j seen hk => exact ⟨j, seen, hk, (Option.some.inj h).symm⟩
  · cases h

theorem record_cases {now : ℤ} {stored : Bool} (h : w.record k now stored = some w') :
    ∃ j result seen, w.workers[k]? = some (.answered j result seen) ∧
      w' = w.deliver k j result now stored := by
  unfold record at h
  split at h
  · next j result seen hk => exact ⟨j, result, seen, hk, (Option.some.inj h).symm⟩
  · cases h

theorem trim_cases {trim : Bool} (h : w.trim k trim = some w') :
    ∃ j, w.workers[k]? = some (.trimming j) ∧
      w' = (w.trimmed j.hookID trim).setWorker k (.releasing j) := by
  unfold World.trim at h
  split at h
  · next j hk => exact ⟨j, hk, (Option.some.inj h).symm⟩
  · cases h

theorem release_cases (h : w.release k = some w') :
    ∃ j, w.workers[k]? = some (.releasing j) ∧ w' = (w.releaseID j.id).setWorker k .idle := by
  unfold release at h
  split at h
  · next j hk => exact ⟨j, hk, (Option.some.inj h).symm⟩
  · cases h

theorem recorded_cases (w : World) (stored : Bool) (updated : Option Store) (id : ID)
    (state : DeliveryState) :
    w.recorded stored updated id state = w ∨
      ∃ store, stored = true ∧ updated = some store ∧
        w.recorded stored updated id state =
          { w with store, log := .recorded id state :: w.log } := by
  cases stored with
  | false => exact Or.inl rfl
  | true =>
      cases updated with
      | none => exact Or.inl rfl
      | some store => exact Or.inr ⟨store, rfl, rfl, rfl⟩

/-- The attempt was the last one: it succeeded, was blocked or used up the attempts. -/
def ends (w : World) (j : Job) (result : Result) : Bool :=
  match result.err with
  | none => true
  | some err => !w.retries j err

theorem deliver_cases (w : World) (k : ℕ) (j : Job) (result : Result) (now : ℤ)
    (stored : Bool) :
    ∃ updated state phase,
      w.deliver k j result now stored =
          (w.recorded stored updated j.id state).setWorker k phase ∧
        (phase = .trimming j ∨ phase = .releasing j) ∧
        (∀ store, updated = some store → w.store.Recorded j.id state store) ∧
        (state ≠ .pending → w.ends j result = true) := by
  cases herr : result.err with
  | none =>
      refine ⟨w.store.markDelivered j.id (j.delivery.attempt + 1)
        (errorStatus result.statusCode) now, .delivered, .trimming j, ?_, Or.inl rfl, ?_, ?_⟩
      · simp only [deliver, herr]
      · intro store hstore
        exact Store.recorded_markDelivered hstore
      · simp [ends, herr]
  | some err =>
      by_cases hretries : w.retries j err = true
      · refine ⟨w.store.reschedule j.id (j.delivery.attempt + 1)
          (errorStatus result.statusCode) err.text
          (now + (w.cfg.backoff (j.delivery.attempt + 1)).toInt), .pending, .releasing j, ?_,
          Or.inr rfl, ?_, ?_⟩
        · simp only [deliver, herr, if_pos hretries]
        · intro store hstore
          exact Store.recorded_reschedule hstore
        · simp
      · refine ⟨w.store.markFailed j.id (j.delivery.attempt + 1)
          (errorStatus result.statusCode) err.text, .failed, .trimming j, ?_, Or.inl rfl, ?_,
          ?_⟩
        · simp only [deliver, herr, if_neg hretries]
          rfl
        · intro store hstore
          exact Store.recorded_markFailed hstore
        · simp [ends, herr, hretries]

end World

end Nipa.Webhook
