import Nipa.Webhook.Claims

/-!
# Rows that were read

The sweep and the calls of `Schedule` act on a row that was pending when they read
it.  It is pending still as long as no outcome that ends the delivery has been
recorded since.  A worker that posts knows the log at its post, and a delivery that
has been redelivered belongs to a hook that is there.
-/

namespace Nipa.Webhook

open Support

/-! ## What has happened since -/

/-- What came after the log had been seen. -/
def since (seen log : List Event) : List Event := log.take (log.length - seen.length)

/-- The delivery was recorded as delivered or failed. -/
def Event.settles (id : ID) : Event → Bool
  | .recorded i state => i == id && state != .pending
  | _ => false

/-- No outcome that ends the delivery was recorded after the log had been seen. -/
def OpenSince (id : ID) (seen log : List Event) : Prop :=
  ∀ e ∈ since seen log, e.settles id = false

/-- The delivery was not redelivered after the log had been seen. -/
def KeptSince (id : ID) (seen log : List Event) : Prop :=
  Event.redelivered id ∉ since seen log

instance (id : ID) (seen log : List Event) : Decidable (OpenSince id seen log) :=
  inferInstanceAs (Decidable (∀ e ∈ since seen log, e.settles id = false))

instance (id : ID) (seen log : List Event) : Decidable (KeptSince id seen log) :=
  inferInstanceAs (Decidable (Event.redelivered id ∉ since seen log))

theorem since_append (seen newer : List Event) : since seen (newer ++ seen) = newer := by
  simp [since]

theorem OpenSince.of_append {id : ID} {seen log new : List Event}
    (h : OpenSince id seen (new ++ log)) (hseen : seen <:+ log) :
    OpenSince id seen log ∧ ∀ e ∈ new, e.settles id = false := by
  obtain ⟨newer, rfl⟩ := hseen
  rw [OpenSince, ← List.append_assoc, since_append] at h
  rw [OpenSince, since_append]
  constructor
  · intro e he
    exact h e (List.mem_append_right new he)
  · intro e he
    exact h e (List.mem_append_left newer he)

theorem redelivered_of_owed {id : ID} {newer older : List Event}
    (h : owed id (newer ++ .posted id :: older) = true) : Event.redelivered id ∈ newer := by
  induction newer with
  | nil => simp [owed] at h
  | cons e newer ih =>
      cases e with
      | posted other =>
          simp only [List.cons_append, owed, Bool.and_eq_true] at h
          exact List.mem_cons_of_mem _ (ih h.2)
      | recorded other state => exact List.mem_cons_of_mem _ (ih h)
      | redelivered other =>
          simp only [List.cons_append, owed, Bool.or_eq_true, beq_iff_eq] at h
          rcases h with rfl | h
          · exact List.mem_cons_self
          · exact List.mem_cons_of_mem _ (ih h)

theorem mem_of_owed {id : ID} {log : List Event} (h : owed id log = true) :
    Event.redelivered id ∈ log := by
  induction log with
  | nil => cases h
  | cons e log ih =>
      cases e with
      | posted other =>
          simp only [owed, Bool.and_eq_true] at h
          exact List.mem_cons_of_mem _ (ih h.2)
      | recorded other state => exact List.mem_cons_of_mem _ (ih h)
      | redelivered other =>
          simp only [owed, Bool.or_eq_true, beq_iff_eq] at h
          rcases h with rfl | h
          · exact List.mem_cons_self
          · exact List.mem_cons_of_mem _ (ih h)

/-- The call has a row and has not yet claimed the delivery. -/
def Call.waiting (c : Call) : Prop :=
  c.phase = .entered ∨ c.phase = .admitted

/-- The worker has posted the delivery, and the log was `seen` then. -/
def Phase.PostedAt (j : Job) (seen : List Event) : Phase → Prop
  | .posting j' seen' => j' = j ∧ seen' = seen
  | .answered j' _ seen' => j' = j ∧ seen' = seen
  | _ => False

namespace World

variable {w w' : World} {new : List Event}

/-! ## What a step does to the store -/

/-- The entries a step adds to the log say what it does to the store. -/
structure StoreChange (w w' : World) (new : List Event) : Prop where
  log_eq : w'.log = new ++ w.log
  pending : ∀ id, w.store.Pending id → w'.store.Pending id ∨
    ∃ e ∈ new, e.settles id = true
  hooks_eq : w'.store.hooks = w.store.hooks
  created : ∀ id ∈ w.created, id ∈ w'.created
  rows : ∀ row' ∈ w'.store.deliveries, row'.id ∈ w.created →
    ∃ row ∈ w.store.deliveries, row.id = row'.id ∧ row.webhookID = row'.webhookID
  redelivered : ∀ id, Event.redelivered id ∈ new →
    ∃ row ∈ w.store.deliveries, row.id = id ∧ row.webhookID ∈ w.store.hooks

theorem StoreChange.unchanged (hlog : w'.log = w.log) (hstore : w'.store = w.store)
    (hcreated : w'.created = w.created) : StoreChange w w' [] := by
  refine ⟨hlog, ?_, by rw [hstore], ?_, ?_, by simp⟩
  · intro id hid
    rw [hstore]
    exact Or.inl hid
  · intro id hid
    rwa [hcreated]
  · intro row hrow _
    rw [hstore] at hrow
    exact ⟨row, hrow, rfl, rfl⟩

theorem StoreChange.recorded {id : ID} {state : DeliveryState}
    (hstore : w.store.Recorded id state w'.store) (hlog : w'.log = .recorded id state :: w.log)
    (hcreated : w'.created = w.created) : StoreChange w w' [.recorded id state] := by
  refine ⟨hlog, ?_, hstore.hooks.hooks_eq, fun _ hid => hcreated ▸ hid,
    fun row' hrow' _ => hstore.hooks.rows row' hrow', by simp⟩
  intro other hpending
  by_cases heq : other = id
  · subst heq
    by_cases hstate : state = .pending
    · exact Or.inl (hstore.here.mpr hstate)
    · exact Or.inr ⟨_, List.mem_singleton_self _, by simpa [Event.settles] using hstate⟩
  · exact Or.inl ((hstore.elsewhere other heq).mpr hpending)

theorem StoreChange.trimmed (w : World) (hookID : ID) (done : Bool) :
    StoreChange w (w.trimmed hookID done) [] := by
  unfold World.trimmed
  split
  · refine ⟨rfl, ?_, rfl, fun _ hid => hid, ?_, by simp⟩
    · intro id hid
      exact Or.inl ((Store.pending_deleteOldDeliveries hookID deliveryRetention id).mpr hid)
    · intro row hrow _
      exact ⟨row, (List.mem_filter.mp hrow).1, rfl, rfl⟩
  · exact .unchanged rfl rfl rfl

theorem StoreChange.trans_eq {w'' : World} (h : StoreChange w w' new)
    (hlog : w''.log = w'.log) (hstore : w''.store = w'.store)
    (hcreated : w''.created = w'.created) : StoreChange w w'' new := by
  refine ⟨hlog.trans h.log_eq, ?_, ?_, ?_, ?_, h.redelivered⟩
  · rw [hstore]
    exact h.pending
  · rw [hstore]
    exact h.hooks_eq
  · rw [hcreated]
    exact h.created
  · rw [hstore]
    exact h.rows

theorem storeChange_recorded (w : World) (stored : Bool) (updated : Option Store) (id : ID)
    (state : DeliveryState) (hupdated : ∀ store, updated = some store →
      w.store.Recorded id state store) :
    ∃ new, StoreChange w (w.recorded stored updated id state) new := by
  rcases recorded_cases w stored updated id state with hsame | ⟨store, -, heq, hnew⟩
  · rw [hsame]
    exact ⟨[], .unchanged rfl rfl rfl⟩
  · rw [hnew]
    exact ⟨[.recorded id state], .recorded (hupdated store heq) rfl rfl⟩

theorem storeChange_step {a : Action} (h : Step w a w') : ∃ new, StoreChange w w' new := by
  cases a with
  | start =>
      obtain rfl := Option.some.inj h
      refine ⟨[], ?_⟩
      unfold World.start
      split
      · exact .unchanged rfl rfl rfl
      · exact .unchanged rfl rfl rfl
  | stop =>
      obtain rfl := Option.some.inj h
      exact ⟨[], .unchanged rfl rfl rfl⟩
  | enqueue hookID id now =>
      obtain ⟨hfresh, row, store, rfl, hpending, hstore, rfl⟩ := enqueue_cases h
      refine ⟨[], rfl, ?_, Store.createDelivery_hooks hstore,
        fun _ hid => List.mem_cons_of_mem _ hid, ?_, by simp⟩
      · intro id hid
        exact Or.inl ((Store.pending_createDelivery hpending hstore id).mpr (Or.inr hid))
      · intro row' hrow' hknown
        rw [Store.createDelivery_eq_some hstore] at hrow'
        rcases List.mem_cons.mp hrow' with rfl | hrow'
        · exact absurd hknown hfresh
        · exact ⟨row', hrow', rfl, rfl⟩
  | redeliver hookID id now =>
      obtain ⟨store, requeued, hhook, hstore, -, rfl⟩ := redeliver_cases h
      obtain ⟨-, hold, -, -⟩ := Store.pending_requeue hstore
      obtain ⟨hhooks, row, hrow, hid, hrowHook⟩ := Store.requeue_known hstore
      refine ⟨[.redelivered id], rfl, fun other hpending => Or.inl (hold other hpending),
        hhooks.hooks_eq, fun _ hid => hid, fun row' hrow' _ => hhooks.rows row' hrow', ?_⟩
      intro other hother
      obtain rfl := Event.redelivered.inj (List.mem_singleton.mp hother)
      exact ⟨row, hrow, hid, hrowHook.symm ▸ hhook⟩
  | schedule i =>
      obtain ⟨c, -, ⟨-, phase, -, rfl⟩ | ⟨-, -, rfl⟩ | ⟨-, rfl⟩ | ⟨-, rfl⟩⟩ := schedule_cases h
      all_goals exact ⟨[], .unchanged rfl rfl rfl⟩
  | listPending now =>
      obtain rfl := listPending_cases h
      exact ⟨[], .unchanged rfl rfl rfl⟩
  | sweep lookup stored =>
      obtain ⟨row, rest, -, rfl | rfl | ⟨-, -, rfl⟩⟩ := sweep_cases h
      · exact ⟨[], .unchanged rfl rfl rfl⟩
      · exact ⟨[], .unchanged rfl rfl rfl⟩
      · obtain ⟨new, hnew⟩ := storeChange_recorded
          { w with rows := rest, sweepTrim := some row.webhookID } stored
          (w.store.markFailed row.id row.attempt none "webhook no longer exists".toList) row.id
          .failed fun store hstore => Store.recorded_markFailed hstore
        exact ⟨new, hnew.log_eq, hnew.pending, hnew.hooks_eq, hnew.created, hnew.rows,
          hnew.redelivered⟩
  | sweepTrim trim =>
      obtain ⟨hookID, rfl⟩ := trimSwept_cases h
      exact ⟨[], (StoreChange.trimmed w hookID trim).trans_eq rfl rfl rfl⟩
  | take k =>
      obtain ⟨j, rest, -, -, rfl⟩ := take_cases h
      exact ⟨[], .unchanged rfl rfl rfl⟩
  | post k =>
      obtain ⟨j, -, rfl⟩ := post_cases h
      refine ⟨[.posted j.id], rfl, fun id hid => Or.inl hid, rfl, fun _ hid => hid, ?_, by simp⟩
      intro row hrow _
      exact ⟨row, hrow, rfl, rfl⟩
  | answer k result =>
      obtain ⟨j, seen, -, rfl⟩ := answer_cases h
      exact ⟨[], .unchanged rfl rfl rfl⟩
  | record k now stored =>
      obtain ⟨j, result, seen, -, rfl⟩ := record_cases h
      obtain ⟨updated, state, phase, heq, -, hupdated, -⟩ :=
        deliver_cases w k j result now stored
      obtain ⟨new, hnew⟩ := storeChange_recorded w stored updated j.id state hupdated
      rw [heq]
      exact ⟨new, hnew.trans_eq rfl rfl rfl⟩
  | trim k trim =>
      obtain ⟨j, -, rfl⟩ := trim_cases h
      exact ⟨[], (StoreChange.trimmed w j.hookID trim).trans_eq rfl rfl rfl⟩
  | release k =>
      obtain ⟨j, -, rfl⟩ := release_cases h
      exact ⟨[], .unchanged rfl rfl rfl⟩

/-! ## Rows, posts and redeliveries -/

theorem rows_recorded (w : World) (stored : Bool) (updated : Option Store) (id : ID)
    (state : DeliveryState) :
    (w.recorded stored updated id state).rows = w.rows ∧
      (w.recorded stored updated id state).rowsSeen = w.rowsSeen := by
  rcases recorded_cases w stored updated id state with h | ⟨store, -, -, h⟩
  · rw [h]
    exact ⟨rfl, rfl⟩
  · rw [h]
    exact ⟨rfl, rfl⟩

theorem rows_trimmed (w : World) (hookID : ID) (done : Bool) :
    (w.trimmed hookID done).rows = w.rows ∧
      (w.trimmed hookID done).rowsSeen = w.rowsSeen := by
  unfold trimmed
  split
  · exact ⟨rfl, rfl⟩
  · exact ⟨rfl, rfl⟩

/-- The delivery was pending when the log was seen; it is pending still unless an
outcome that ends it was recorded since. -/
def ReadAt (w : World) (id : ID) (seen : List Event) : Prop :=
  seen <:+ w.log ∧ (OpenSince id seen w.log → w.store.Pending id)

/-- The row is one of the hook it names. -/
def OfHook (w : World) (id hookID : ID) : Prop :=
  id ∈ w.created ∧ ∀ row ∈ w.store.deliveries, row.id = id → row.webhookID = hookID

theorem ofHook_row (hids : ∀ row ∈ w.store.deliveries, row.id ∈ w.created) {row : Delivery}
    (hrow : row ∈ w.store.deliveries) : w.OfHook row.id row.webhookID := by
  refine ⟨hids row hrow, ?_⟩
  intro row' hrow' heq
  rw [List.inj_on_of_nodup_map w.store.primaryKey hrow' hrow heq]

/-- What the calls, the sweep and the workers know is good for the log they saw, and a
redelivered delivery is one of a hook that is there. -/
structure Reads (w : World) : Prop where
  calls : ∀ c ∈ w.calls, c.waiting → w.ReadAt c.job.id c.seen
  rows : ∀ row ∈ w.rows, w.ReadAt row.id w.rowsSeen ∧ w.OfHook row.id row.webhookID
  posts : ∀ phase ∈ w.workers, ∀ j seen, phase.PostedAt j seen →
    seen <:+ w.log ∧ ∃ older, seen = .posted j.id :: older
  redelivered : ∀ id, Event.redelivered id ∈ w.log →
    ∃ hookID ∈ w.store.hooks, w.OfHook id hookID

theorem StoreChange.readAt (h : StoreChange w w' new) {id : ID} {seen : List Event}
    (hread : w.ReadAt id seen) : w'.ReadAt id seen := by
  obtain ⟨hseen, hpending⟩ := hread
  refine ⟨h.log_eq ▸ hseen.trans (List.suffix_append new w.log), ?_⟩
  intro hopen
  rw [h.log_eq] at hopen
  obtain ⟨hopen, hnone⟩ := hopen.of_append hseen
  rcases h.pending id (hpending hopen) with hstill | ⟨e, he, hsettles⟩
  · exact hstill
  · rw [hnone e he] at hsettles
    cases hsettles

theorem StoreChange.ofHook (h : StoreChange w w' new) {id hookID : ID}
    (hof : w.OfHook id hookID) : w'.OfHook id hookID := by
  refine ⟨h.created id hof.1, ?_⟩
  rintro row' hrow' rfl
  obtain ⟨row, hrow, hid, hhook⟩ := h.rows row' hrow' hof.1
  exact hhook ▸ hof.2 row hrow hid

/-- Calls that wait did so before, or have read the row as it is. -/
def CallsKnown (w w' : World) : Prop :=
  ∀ c ∈ w'.calls, c.waiting → (∃ c₀ ∈ w.calls, c₀.waiting ∧ c₀.job.id = c.job.id ∧
    c₀.seen = c.seen) ∨ w'.ReadAt c.job.id c.seen

/-- The rows of the sweep were read before, or are as they are. -/
def RowsKnown (w w' : World) : Prop :=
  ∀ row ∈ w'.rows, row ∈ w.rows ∧ w'.rowsSeen = w.rowsSeen ∨
    w'.ReadAt row.id w'.rowsSeen ∧ w'.OfHook row.id row.webhookID

/-- What a worker has posted was posted before, or last. -/
def PostsKnown (w w' : World) : Prop :=
  ∀ phase ∈ w'.workers, ∀ j seen, phase.PostedAt j seen →
    (∃ phase₀ ∈ w.workers, phase₀.PostedAt j seen) ∨
      seen <:+ w'.log ∧ ∃ older, seen = .posted j.id :: older

theorem CallsKnown.of_eq (h : w'.calls = w.calls) : CallsKnown w w' :=
  fun c hc hwaiting => Or.inl ⟨c, h ▸ hc, hwaiting, rfl, rfl⟩

theorem CallsKnown.append {c : Call} (h : w'.calls = w.calls ++ [c])
    (hread : w'.ReadAt c.job.id c.seen) : CallsKnown w w' := by
  intro c' hc' hwaiting
  rw [h] at hc'
  rcases List.mem_append.mp hc' with hold | hnew
  · exact Or.inl ⟨c', hold, hwaiting, rfl, rfl⟩
  · obtain rfl := List.mem_singleton.mp hnew
    exact Or.inr hread

theorem CallsKnown.set {i : ℕ} {c : Call} (hc : w.calls[i]? = some c) {phase : CallPhase}
    (h : w'.calls = w.calls.set i { c with phase })
    (hwaiting : phase = .entered ∨ phase = .admitted → c.waiting) : CallsKnown w w' := by
  intro c' hc' hwaiting'
  rw [h] at hc'
  rcases List.mem_or_eq_of_mem_set hc' with hold | rfl
  · exact Or.inl ⟨c', hold, hwaiting', rfl, rfl⟩
  · exact Or.inl ⟨c, List.mem_of_getElem? hc, hwaiting hwaiting', rfl, rfl⟩

theorem RowsKnown.of_eq (h : w'.rows = w.rows ∧ w'.rowsSeen = w.rowsSeen) : RowsKnown w w' :=
  fun _ hrow => Or.inl ⟨h.1 ▸ hrow, h.2⟩

theorem RowsKnown.tail {row : Delivery} {rest : List Delivery} (hlist : w.rows = row :: rest)
    (h : w'.rows = rest ∧ w'.rowsSeen = w.rowsSeen) : RowsKnown w w' := by
  intro row' hrow'
  rw [h.1] at hrow'
  exact Or.inl ⟨hlist ▸ List.mem_cons_of_mem row hrow', h.2⟩

theorem PostsKnown.of_eq (h : w'.workers = w.workers) : PostsKnown w w' :=
  fun phase hphase _ _ hat => Or.inl ⟨phase, h ▸ hphase, hat⟩

theorem PostsKnown.set {k : ℕ} {phase phase' : Phase} (hk : w.workers[k]? = some phase)
    (h : w'.workers = w.workers.set k phase')
    (hposted : ∀ j seen, phase'.PostedAt j seen → phase.PostedAt j seen) : PostsKnown w w' := by
  intro p hp j seen hat
  rw [h] at hp
  rcases List.mem_or_eq_of_mem_set hp with hold | rfl
  · exact Or.inl ⟨p, hold, hat⟩
  · exact Or.inl ⟨phase, List.mem_of_getElem? hk, hposted j seen hat⟩

theorem Reads.change (h : w.Reads) (hids : ∀ row ∈ w.store.deliveries, row.id ∈ w.created)
    (hchange : StoreChange w w' new) (hcalls : CallsKnown w w') (hrows : RowsKnown w w')
    (hposts : PostsKnown w w') : w'.Reads := by
  refine ⟨?_, ?_, ?_, ?_⟩
  · intro c hc hwaiting
    rcases hcalls c hc hwaiting with ⟨c₀, hc₀, hwaiting₀, hid, hseen⟩ | hnew
    · rw [← hid, ← hseen]
      exact hchange.readAt (h.calls c₀ hc₀ hwaiting₀)
    · exact hnew
  · intro row hrow
    rcases hrows row hrow with ⟨hold, hseen⟩ | hnew
    · obtain ⟨hread, hof⟩ := h.rows row hold
      rw [hseen]
      exact ⟨hchange.readAt hread, hchange.ofHook hof⟩
    · exact hnew
  · intro phase hphase j seen hposted
    rcases hposts phase hphase j seen hposted with ⟨phase₀, hphase₀, hposted₀⟩ | hnew
    · obtain ⟨hseen, hlast⟩ := h.posts phase₀ hphase₀ j seen hposted₀
      exact ⟨hchange.log_eq ▸ hseen.trans (List.suffix_append new w.log), hlast⟩
    · exact hnew
  · intro id hid
    rw [hchange.log_eq] at hid
    rw [hchange.hooks_eq]
    rcases List.mem_append.mp hid with hid | hid
    · obtain ⟨row, hrow, rfl, hhook⟩ := hchange.redelivered id hid
      exact ⟨row.webhookID, hhook, hchange.ofHook (ofHook_row hids hrow)⟩
    · obtain ⟨hookID, hhook, hof⟩ := h.redelivered id hid
      exact ⟨hookID, hhook, hchange.ofHook hof⟩

theorem Reads.step {a : Action} (h : w.Reads)
    (hids : ∀ row ∈ w.store.deliveries, row.id ∈ w.created) (hstep : Step w a w') :
    w'.Reads := by
  obtain ⟨new, hchange⟩ := storeChange_step hstep
  cases a with
  | start =>
      obtain rfl := Option.some.inj hstep
      rw [World.start] at hchange ⊢
      by_cases hrunning : (w.started || w.stopped) = true
      · rw [if_pos hrunning] at hchange ⊢
        exact h
      · rw [if_neg hrunning] at hchange ⊢
        refine h.change hids hchange (.of_eq rfl) (.of_eq ⟨rfl, rfl⟩) ?_
        intro phase hphase j seen hat
        obtain rfl := List.eq_of_mem_replicate hphase
        exact False.elim hat
  | stop =>
      obtain rfl := Option.some.inj hstep
      exact h.change hids hchange (.of_eq rfl) (.of_eq ⟨rfl, rfl⟩) (.of_eq rfl)
  | enqueue hookID id now =>
      obtain ⟨-, row, store, rfl, hpending, hstore, rfl⟩ := enqueue_cases hstep
      refine h.change hids hchange (.append rfl ⟨List.suffix_rfl, fun _ => ?_⟩)
        (.of_eq ⟨rfl, rfl⟩) (.of_eq rfl)
      exact (Store.pending_createDelivery hpending hstore row.id).mpr (Or.inl rfl)
  | redeliver hookID id now =>
      obtain ⟨store, requeued, -, hstore, rfl, rfl⟩ := redeliver_cases hstep
      exact h.change hids hchange
        (.append rfl ⟨List.suffix_rfl, fun _ => (Store.pending_requeue hstore).1⟩)
        (.of_eq ⟨rfl, rfl⟩) (.of_eq rfl)
  | schedule i =>
      obtain ⟨c, hc, ⟨hwaiting, phase, -, rfl⟩ | ⟨hphase, -, rfl⟩ | ⟨hphase, rfl⟩ |
        ⟨hphase, rfl⟩⟩ := schedule_cases hstep
      · exact h.change hids hchange (.set hc rfl fun _ => hwaiting) (.of_eq ⟨rfl, rfl⟩)
          (.of_eq rfl)
      all_goals
        exact h.change hids hchange (.set hc rfl (by simp)) (.of_eq ⟨rfl, rfl⟩) (.of_eq rfl)
  | listPending now =>
      obtain rfl := listPending_cases hstep
      refine h.change hids hchange (.of_eq rfl) ?_ (.of_eq rfl)
      intro row hrow
      obtain ⟨hstored, hpending⟩ := Store.mem_listPendingRetries hrow
      exact Or.inr ⟨⟨List.suffix_rfl, fun _ => ⟨row, hstored, rfl, hpending⟩⟩,
        ofHook_row hids hstored⟩
  | sweep lookup stored =>
      obtain ⟨row, rest, hlist, rfl | rfl | ⟨-, -, rfl⟩⟩ := sweep_cases hstep
      · exact h.change hids hchange (.of_eq rfl) (.tail hlist ⟨rfl, rfl⟩) (.of_eq rfl)
      · have hread := (h.rows row (hlist ▸ List.mem_cons_self)).1
        exact h.change hids hchange (.append rfl (hchange.readAt hread))
          (.tail hlist ⟨rfl, rfl⟩) (.of_eq rfl)
      · obtain ⟨hcalls, -, hworkers, -⟩ := holders_recorded
          { w with rows := rest, sweepTrim := some row.webhookID } stored
          (w.store.markFailed row.id row.attempt none "webhook no longer exists".toList) row.id
          .failed
        have hrows := rows_recorded
          { w with rows := rest, sweepTrim := some row.webhookID } stored
          (w.store.markFailed row.id row.attempt none "webhook no longer exists".toList) row.id
          .failed
        exact h.change hids hchange (.of_eq hcalls) (.tail hlist hrows) (.of_eq hworkers)
  | sweepTrim trim =>
      obtain ⟨hookID, rfl⟩ := trimSwept_cases hstep
      obtain ⟨hcalls, -, hworkers, -⟩ := holders_trimmed w hookID trim
      exact h.change hids hchange (.of_eq hcalls) (.of_eq (rows_trimmed w hookID trim))
        (.of_eq hworkers)
  | take k =>
      obtain ⟨j, rest, hk, -, rfl⟩ := take_cases hstep
      exact h.change hids hchange (.of_eq rfl) (.of_eq ⟨rfl, rfl⟩)
        (.set hk rfl fun _ _ h => False.elim h)
  | post k =>
      obtain ⟨j, hk, rfl⟩ := post_cases hstep
      refine h.change hids hchange (.of_eq rfl) (.of_eq ⟨rfl, rfl⟩) ?_
      intro p hp j' seen hat
      rcases List.mem_or_eq_of_mem_set hp with hold | rfl
      · exact Or.inl ⟨p, hold, hat⟩
      · obtain ⟨rfl, rfl⟩ := hat
        exact Or.inr ⟨List.suffix_rfl, w.log, rfl⟩
  | answer k result =>
      obtain ⟨j, seen, hk, rfl⟩ := answer_cases hstep
      exact h.change hids hchange (.of_eq rfl) (.of_eq ⟨rfl, rfl⟩) (.set hk rfl fun _ _ h => h)
  | record k now stored =>
      obtain ⟨j, result, seen, hk, rfl⟩ := record_cases hstep
      obtain ⟨updated, state, phase, heq, hphase, -, -⟩ := deliver_cases w k j result now stored
      obtain ⟨hcalls, -, hworkers, -⟩ := holders_recorded w stored updated j.id state
      rw [heq] at hchange ⊢
      refine h.change hids hchange (.of_eq hcalls)
        (.of_eq (rows_recorded w stored updated j.id state))
        (.set hk (congrArg (fun l => l.set k phase) hworkers) ?_)
      intro j seen hat
      rcases hphase with rfl | rfl
      · exact False.elim hat
      · exact False.elim hat
  | trim k trim =>
      obtain ⟨j, hk, rfl⟩ := trim_cases hstep
      obtain ⟨hcalls, -, hworkers, -⟩ := holders_trimmed w j.hookID trim
      have hset : (w.trimmed j.hookID trim).workers.set k (.releasing j) =
          w.workers.set k (.releasing j) := by rw [hworkers]
      exact h.change hids hchange (.of_eq hcalls) (.of_eq (rows_trimmed w j.hookID trim))
        (.set hk hset fun _ _ h => False.elim h)
  | release k =>
      obtain ⟨j, hk, rfl⟩ := release_cases hstep
      exact h.change hids hchange (.of_eq rfl) (.of_eq ⟨rfl, rfl⟩)
        (.set hk rfl fun _ _ h => False.elim h)

theorem newDispatcher_reads (store : Store) (cfg : Config) :
    (newDispatcher store cfg).Reads := by
  refine ⟨by simp [newDispatcher], by simp [newDispatcher], by simp [newDispatcher], ?_⟩
  intro id hid
  obtain ⟨row, -, heq⟩ := List.mem_filterMap.mp hid
  split at heq
  · cases heq
  · cases heq

end World

end Nipa.Webhook
