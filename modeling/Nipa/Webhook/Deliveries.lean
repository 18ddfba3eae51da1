import Nipa.Webhook.Reads

/-!
# Deliveries end

What the log says about a delivery agrees with its row: a settled delivery is not
pending and has no attempt under way, and a delivery that is owed a post is pending.
The three places where the code acts on what it read earlier are where this breaks:
a call of `Schedule` that claims a delivery settled in the meantime, an attempt that
overwrites a redelivery, and a sweep that fails a delivery someone is posting.
-/

namespace Nipa.Webhook

open Support

namespace World

variable {w w' : World}

/-! ## What becomes of a delivery -/

/-- A delivery recorded as delivered or failed is not posted again unless it is
redelivered first. -/
def NeverReposted (w : World) : Prop :=
  ∀ later earlier id, w.log = later ++ Event.posted id :: earlier → settled id earlier = false

/-- A redelivery is followed by a post or leaves the delivery pending. -/
def RedeliveriesKept (w : World) : Prop :=
  ∀ id, owed id w.log = true → w.store.Pending id

/-- A call claims a delivery whose row is pending, the last attempt ends a delivery that
is owed no post, and the sweep fails a delivery that nobody holds and that is owed no
post. -/
def Timely (w : World) : Action → Prop
  | .schedule i => ∀ c, w.calls[i]? = some c → c.phase = .admitted →
      c.job.id ∉ w.inFlight → w.store.Pending c.job.id
  | .record k _ stored => ∀ j result seen, w.workers[k]? = some (.answered j result seen) →
      stored = true → w.ends j result = true → owed j.id w.log = false
  | .sweep lookup stored => ∀ row rest, w.rows = row :: rest → lookup = true →
      row.webhookID ∉ w.store.hooks → stored = true →
      row.id ∉ w.inFlight ∧ owed row.id w.log = false
  | _ => True

/-! ## The log and the rows -/

/-- The log agrees with the rows and with the attempts under way. -/
structure Tracked (w : World) : Prop where
  active_open : ∀ id, 0 < w.active id → settled id w.log = false
  pending_open : ∀ id, w.store.Pending id → settled id w.log = false
  owed_pending : w.RedeliveriesKept
  settled_created : ∀ id, settled id w.log = true → id ∈ w.created
  ids_created : ∀ id ∈ w.store.deliveries.map (·.id), id ∈ w.created
  neverReposted : w.NeverReposted

theorem NeverReposted.cons {e : Event} (h : w.NeverReposted) (hlog : w'.log = e :: w.log)
    (he : ∀ id, e = .posted id → settled id w.log = false) : w'.NeverReposted := by
  intro later earlier id heq
  rw [hlog] at heq
  cases later with
  | nil =>
      obtain ⟨rfl, rfl⟩ := List.cons.inj heq
      exact he id rfl
  | cons e' later => exact h later earlier id (List.cons.inj heq).2

theorem Tracked.quiet (h : w.Tracked) (hlog : w'.log = w.log) (hcreated : w'.created = w.created)
    (hpending : ∀ id, w'.store.Pending id ↔ w.store.Pending id)
    (hids : ∀ id ∈ w'.store.deliveries.map (·.id), id ∈ w.store.deliveries.map (·.id))
    (hactive : ∀ id, 0 < w'.active id → 0 < w.active id ∨ w.store.Pending id) :
    w'.Tracked := by
  refine ⟨?_, ?_, ?_, ?_, ?_, ?_⟩
  · intro id hid
    rw [hlog]
    rcases hactive id hid with h' | h'
    · exact h.active_open id h'
    · exact h.pending_open id h'
  · intro id hid
    rw [hlog]
    exact h.pending_open id ((hpending id).mp hid)
  · intro id hid
    rw [hlog] at hid
    exact (hpending id).mpr (h.owed_pending id hid)
  · intro id hid
    rw [hlog] at hid
    rw [hcreated]
    exact h.settled_created id hid
  · intro id hid
    rw [hcreated]
    exact h.ids_created id (hids id hid)
  · intro later earlier id heq
    rw [hlog] at heq
    exact h.neverReposted later earlier id heq

theorem Tracked.unchanged (h : w.Tracked) (hlog : w'.log = w.log)
    (hcreated : w'.created = w.created) (hstore : w'.store = w.store)
    (hactive : ∀ id, 0 < w'.active id → 0 < w.active id ∨ w.store.Pending id) :
    w'.Tracked :=
  h.quiet hlog hcreated (fun id => by rw [hstore]) (fun id hid => by rwa [hstore] at hid)
    hactive

theorem Tracked.trimmed (h : w.Tracked) (hookID : ID) (done : Bool) :
    (w.trimmed hookID done).Tracked := by
  unfold World.trimmed
  split
  · refine h.quiet rfl rfl (Store.pending_deleteOldDeliveries hookID deliveryRetention) ?_
      fun id hid => Or.inl hid
    intro id hid
    obtain ⟨row, hrow, rfl⟩ := List.mem_map.mp hid
    exact List.mem_map_of_mem (List.mem_filter.mp hrow).1
  · exact h

theorem Tracked.enqueue {hookID id : ID} {now : ℤ} (h : w.Tracked)
    (hstep : w.enqueue hookID id now = some w') : w'.Tracked := by
  have hactive := active_le (a := .enqueue hookID id now) hstep (by simp)
  obtain ⟨hfresh, row, store, rfl, hpending, hstore, rfl⟩ := enqueue_cases hstep
  have hiff := Store.pending_createDelivery hpending hstore
  have hopen : settled row.id w.log = false := by
    by_contra hne
    exact hfresh (h.settled_created row.id (by simpa using hne))
  refine ⟨?_, ?_, ?_, ?_, ?_, h.neverReposted⟩
  · intro id hid
    exact h.active_open id (lt_of_lt_of_le hid (hactive id))
  · intro id hid
    rcases (hiff id).mp hid with rfl | hid
    · exact hopen
    · exact h.pending_open id hid
  · intro id hid
    exact (hiff id).mpr (Or.inr (h.owed_pending id hid))
  · intro id hid
    exact List.mem_cons_of_mem _ (h.settled_created id hid)
  · intro id hid
    rw [Store.createDelivery_eq_some hstore, List.map_cons] at hid
    rcases List.mem_cons.mp hid with rfl | hid
    · exact List.mem_cons_self
    · exact List.mem_cons_of_mem _ (h.ids_created id hid)

theorem Tracked.redeliver {hookID id : ID} {now : ℤ} (h : w.Tracked)
    (hstep : w.redeliver hookID id now = some w') : w'.Tracked := by
  have hactive := active_le (a := .redeliver hookID id now) hstep (by simp)
  obtain ⟨store, requeued, -, hstore, -, rfl⟩ := redeliver_cases hstep
  obtain ⟨hhere, hold, helse, hids⟩ := Store.pending_requeue hstore
  have hopen {other : ID} (hother : other ≠ id → settled other w.log = false) :
      settled other (Event.redelivered id :: w.log) = false := by
    by_cases heq : id = other
    · simp [settled, heq]
    · simp [settled, hother (Ne.symm heq)]
  refine ⟨?_, ?_, ?_, ?_, ?_, h.neverReposted.cons rfl (by simp)⟩
  · intro other hother
    exact hopen fun _ => h.active_open other (lt_of_lt_of_le hother (hactive other))
  · intro other hpending
    exact hopen fun hne => h.pending_open other (helse other hne hpending)
  · intro other howed
    simp only [owed, Bool.or_eq_true, beq_iff_eq] at howed
    rcases howed with rfl | howed
    · exact hhere
    · exact hold other (h.owed_pending other howed)
  · intro other hsettled
    simp only [settled, Bool.and_eq_true] at hsettled
    exact h.settled_created other hsettled.2
  · intro other hother
    rw [hids] at hother
    exact h.ids_created other hother

theorem Tracked.post {k : ℕ} (h : w.Tracked) (hstep : w.post k = some w') : w'.Tracked := by
  have hle := active_le (a := .post k) hstep (by simp)
  obtain ⟨j, hk, rfl⟩ := post_cases hstep
  have hactive : 0 < w.active j.id := by
    have hpos : 0 < w.workers.countP (Phase.works j.id) :=
      List.countP_pos_iff.mpr ⟨_, List.mem_of_getElem? hk, by simp [Phase.works]⟩
    rw [active]
    omega
  refine ⟨?_, h.pending_open, ?_, h.settled_created, h.ids_created, ?_⟩
  · intro id hid
    exact h.active_open id (lt_of_lt_of_le hid (hle id))
  · intro id hid
    have howed : owed id (Event.posted j.id :: w.log) = true := hid
    simp only [owed, Bool.and_eq_true] at howed
    exact h.owed_pending id howed.2
  · refine h.neverReposted.cons rfl ?_
    intro id hid
    obtain rfl := Event.posted.inj hid
    exact h.active_open _ hactive

/-- An outcome is written to the row.  One that ends the delivery comes from the only
attempt at it, and nobody waits for another. -/
theorem Tracked.recorded {id : ID} {state : DeliveryState} (h : w.Tracked)
    (hstore : w.store.Recorded id state w'.store)
    (hlog : w'.log = .recorded id state :: w.log) (hcreated : w'.created = w.created)
    (hactive : ∀ other, w'.active other ≤ w.active other)
    (hretried : state = .pending → settled id w.log = false)
    (hended : state ≠ .pending → w'.active id = 0 ∧ owed id w.log = false) :
    w'.Tracked := by
  have hsettled (other : ID) (hother : settled other w.log = false)
      (hne : state ≠ .pending → other ≠ id) : settled other w'.log = false := by
    rw [hlog, settled, hother, Bool.or_false, Bool.and_eq_false_iff]
    by_cases hstate : state = .pending
    · exact Or.inr (by simp [hstate])
    · exact Or.inl (beq_false_of_ne (hne hstate).symm)
  refine ⟨?_, ?_, ?_, ?_, ?_, h.neverReposted.cons hlog (by simp)⟩
  · intro other hpos
    refine hsettled other (h.active_open other (lt_of_lt_of_le hpos (hactive other))) ?_
    rintro hstate rfl
    exact absurd (hended hstate).1 (Nat.pos_iff_ne_zero.mp hpos)
  · intro other hpending
    by_cases heq : other = id
    · subst heq
      have hstate := hstore.here.mp hpending
      exact hsettled other (hretried hstate) fun hne => absurd hstate hne
    · exact hsettled other (h.pending_open other ((hstore.elsewhere other heq).mp hpending))
        fun _ => heq
  · intro other howed
    rw [hlog, owed] at howed
    by_cases heq : other = id
    · subst heq
      apply hstore.here.mpr
      by_contra hstate
      rw [(hended hstate).2] at howed
      cases howed
    · exact (hstore.elsewhere other heq).mpr (h.owed_pending other howed)
  · intro other hother
    rw [hlog, settled, Bool.or_eq_true, Bool.and_eq_true, beq_iff_eq] at hother
    rw [hcreated]
    rcases hother with ⟨rfl, -⟩ | hother
    · obtain ⟨row, hrow, rfl⟩ := hstore.known
      exact h.ids_created row.id (List.mem_map_of_mem hrow)
    · exact h.settled_created other hother
  · intro other hother
    rw [hstore.ids] at hother
    rw [hcreated]
    exact h.ids_created other hother

theorem Tracked.record {k : ℕ} {now : ℤ} {stored : Bool} (h : w.Tracked) (hw : w.Claimed)
    (htimely : w.Timely (.record k now stored)) (hstep : w.record k now stored = some w') :
    w'.Tracked := by
  obtain ⟨j, result, seen, hk, rfl⟩ := record_cases hstep
  obtain ⟨updated, state, phase, heq, hphase, hupdated, hends⟩ :=
    deliver_cases w k j result now stored
  rw [heq]
  obtain ⟨hcalls, hjobs, hworkers, -⟩ := holders_recorded w stored updated j.id state
  -- the attempt is over: the worker no longer counts among the active ones
  have hset (id : ID) : ((w.recorded stored updated j.id state).setWorker k phase).active id +
      (j.id == id).toNat = w.active id := by
    have hcount := active_setWorker (hworkers ▸ hk) phase id
    rw [active_congr hcalls hjobs hworkers] at hcount
    rcases hphase with rfl | rfl
    · simpa [Phase.works] using hcount
    · simpa [Phase.works] using hcount
  have hactive (id : ID) :
      ((w.recorded stored updated j.id state).setWorker k phase).active id ≤ w.active id := by
    have hid := hset id
    omega
  rcases recorded_cases w stored updated j.id state with hsame | ⟨store, rfl, rfl, hnew⟩
  · rw [hsame] at hactive ⊢
    exact h.unchanged rfl rfl rfl fun id hid => Or.inl (lt_of_lt_of_le hid (hactive id))
  · rw [hnew] at hset hactive ⊢
    have hpos := hset j.id
    rw [beq_self_eq_true, Bool.toNat_true] at hpos
    refine h.recorded (hupdated store rfl) rfl rfl hactive ?_ ?_
    · intro _
      exact h.active_open j.id (by omega)
    · intro hstate
      have honce := hw.once j.id
      exact ⟨by omega, htimely j result seen hk rfl (hends hstate)⟩

theorem Tracked.sweep {lookup stored : Bool} (h : w.Tracked) (hw : w.Claimed)
    (htimely : w.Timely (.sweep lookup stored)) (hstep : w.sweep lookup stored = some w') :
    w'.Tracked := by
  have hactive := active_le (a := .sweep lookup stored) hstep (by simp)
  obtain ⟨row, rest, hrows, rfl | rfl | ⟨hlookup, hgone, rfl⟩⟩ := sweep_cases hstep
  · exact h.unchanged rfl rfl rfl fun id hid => Or.inl hid
  · exact h.unchanged rfl rfl rfl fun id hid => Or.inl (lt_of_lt_of_le hid (hactive id))
  · rcases recorded_cases { w with rows := rest, sweepTrim := some row.webhookID } stored
      (w.store.markFailed row.id row.attempt none "webhook no longer exists".toList) row.id
      .failed with hsame | ⟨store, hstored, hupdated, hnew⟩
    · rw [markFailed, hsame]
      exact h.unchanged rfl rfl rfl fun id hid => Or.inl hid
    · rw [markFailed, hnew]
      obtain ⟨hfree, howed⟩ := htimely row rest hrows hlookup hgone hstored
      refine h.recorded (Store.recorded_markFailed hupdated) rfl rfl (fun _ => le_rfl)
        (by simp) fun _ => ⟨?_, howed⟩
      have hnone : ¬ 0 < w.active row.id := by
        intro hpos
        exact hfree (hw.mem_inFlight row.id (by omega))
      exact Nat.eq_zero_of_not_pos hnone

/-- A step that leaves the store, the log and the ids alone and claims only pending
deliveries. -/
theorem Tracked.moved {a : Action} (h : w.Tracked) (htimely : w.Timely a)
    (hstep : Step w a w') (hlog : w'.log = w.log) (hcreated : w'.created = w.created)
    (hstore : w'.store = w.store) : w'.Tracked := by
  refine h.unchanged hlog hcreated hstore ?_
  intro id hid
  cases holders_step hstep with
  | kept hactive _ _ => exact Or.inl (lt_of_lt_of_le hid (hactive id))
  | claimed i c ha hc hphase hfree hactive _ _ =>
      subst ha
      rw [hactive] at hid
      by_cases heq : c.job.id = id
      · exact Or.inr (heq ▸ htimely c hc hphase hfree)
      · rw [beq_false_of_ne heq, Bool.toNat_false] at hid
        exact Or.inl hid
  | released _ hactive _ _ => exact Or.inl (lt_of_lt_of_le hid (hactive id))

theorem Tracked.step {a : Action} (h : w.Tracked) (hw : w.Claimed) (htimely : w.Timely a)
    (hstep : Step w a w') : w'.Tracked := by
  cases a with
  | start =>
      refine h.moved htimely hstep ?_ ?_ ?_
      all_goals
        obtain rfl := Option.some.inj hstep
        unfold World.start
        split
        · rfl
        · rfl
  | stop =>
      obtain rfl := Option.some.inj hstep
      exact h.moved htimely hstep rfl rfl rfl
  | enqueue hookID id now => exact h.enqueue hstep
  | redeliver hookID id now => exact h.redeliver hstep
  | schedule i =>
      obtain ⟨c, -, ⟨-, phase, -, rfl⟩ | ⟨-, -, rfl⟩ | ⟨-, rfl⟩ | ⟨-, rfl⟩⟩ :=
        schedule_cases hstep
      all_goals exact h.moved htimely hstep rfl rfl rfl
  | listPending now =>
      obtain rfl := listPending_cases hstep
      exact h.moved htimely hstep rfl rfl rfl
  | sweep lookup stored => exact h.sweep hw htimely hstep
  | sweepTrim trim =>
      obtain ⟨hookID, rfl⟩ := trimSwept_cases hstep
      exact (h.trimmed hookID trim).unchanged rfl rfl rfl fun _ hid => Or.inl hid
  | take k =>
      obtain ⟨j, rest, -, -, rfl⟩ := take_cases hstep
      exact h.moved htimely hstep rfl rfl rfl
  | post k => exact h.post hstep
  | answer k result =>
      obtain ⟨j, seen, -, rfl⟩ := answer_cases hstep
      exact h.moved htimely hstep rfl rfl rfl
  | record k now stored => exact h.record hw htimely hstep
  | trim k trim =>
      have hactive := active_le hstep (by simp)
      obtain ⟨j, -, rfl⟩ := trim_cases hstep
      obtain ⟨hcalls, hjobs, hworkers, -⟩ := holders_trimmed w j.hookID trim
      refine (h.trimmed j.hookID trim).unchanged rfl rfl rfl ?_
      intro id hid
      rw [active_congr hcalls hjobs hworkers]
      exact Or.inl (lt_of_lt_of_le hid (hactive id))
  | release k =>
      obtain ⟨j, -, rfl⟩ := release_cases hstep
      exact h.moved htimely hstep rfl rfl rfl

/-! ## Schedules -/

/-- A worker stores an outcome that ends its delivery only when no redelivery of it came
since the post. -/
def Unrivalled (w : World) (stored : Bool) : Phase → Prop
  | .answered j result seen =>
      stored = true → w.ends j result = true → KeptSince j.id seen w.log
  | _ => True

/-- The orders of steps in which nobody acts on what is no longer so: between the read
of a row and the claim of its delivery no outcome that ends the delivery is recorded,
between a post and the outcome that ends the delivery no redelivery of it comes, and the
sweep fails no delivery that is in flight. -/
def Undisturbed (w : World) : Action → Prop
  | .schedule i => ∀ c ∈ w.calls[i]?, c.phase = .admitted → c.job.id ∉ w.inFlight →
      OpenSince c.job.id c.seen w.log
  | .record k _ stored => ∀ phase ∈ w.workers[k]?, w.Unrivalled stored phase
  | .sweep lookup stored => ∀ row ∈ w.rows.head?, lookup = true →
      row.webhookID ∉ w.store.hooks → stored = true → row.id ∉ w.inFlight
  | _ => True

instance (w : World) (stored : Bool) : ∀ phase, Decidable (w.Unrivalled stored phase)
  | .answered j result seen => inferInstanceAs
      (Decidable (stored = true → w.ends j result = true → KeptSince j.id seen w.log))
  | .idle => isTrue trivial
  | .received _ => isTrue trivial
  | .posting _ _ => isTrue trivial
  | .trimming _ => isTrue trivial
  | .releasing _ => isTrue trivial

instance (w : World) : ∀ a, Decidable (w.Undisturbed a)
  | .schedule i => inferInstanceAs (Decidable (∀ c ∈ w.calls[i]?, c.phase = .admitted →
      c.job.id ∉ w.inFlight → OpenSince c.job.id c.seen w.log))
  | .record k _ stored => inferInstanceAs
      (Decidable (∀ phase ∈ w.workers[k]?, w.Unrivalled stored phase))
  | .sweep lookup stored => inferInstanceAs (Decidable (∀ row ∈ w.rows.head?, lookup = true →
      row.webhookID ∉ w.store.hooks → stored = true → row.id ∉ w.inFlight))
  | .start => isTrue trivial
  | .stop => isTrue trivial
  | .enqueue _ _ _ => isTrue trivial
  | .redeliver _ _ _ => isTrue trivial
  | .listPending _ => isTrue trivial
  | .sweepTrim _ => isTrue trivial
  | .take _ => isTrue trivial
  | .post _ => isTrue trivial
  | .answer _ _ => isTrue trivial
  | .trim _ _ => isTrue trivial
  | .release _ => isTrue trivial

/-- The post is the last entry the worker saw, so only a later redelivery is owed a
post. -/
theorem Reads.not_owed (h : w.Reads) {j : Job} {seen : List Event} {phase : Phase}
    (hphase : phase ∈ w.workers) (hat : phase.PostedAt j seen)
    (hkept : KeptSince j.id seen w.log) : owed j.id w.log = false := by
  obtain ⟨⟨newer, hlog⟩, older, hseen⟩ := h.posts phase hphase j seen hat
  rw [KeptSince, ← hlog, since_append] at hkept
  by_contra howed
  rw [← hlog, hseen] at howed
  exact hkept (redelivered_of_owed (Bool.not_eq_false _ ▸ howed))

theorem Reads.gone_not_owed (h : w.Reads) (hkept : w.RedeliveriesKept) {row : Delivery}
    (hrow : row ∈ w.rows) (hgone : row.webhookID ∉ w.store.hooks) :
    owed row.id w.log = false := by
  by_contra hne
  have howed : owed row.id w.log = true := Bool.not_eq_false _ ▸ hne
  obtain ⟨stored, hstored, hid, -⟩ := hkept row.id howed
  obtain ⟨hookID, hhook, -, hof⟩ := h.redelivered row.id (mem_of_owed howed)
  apply hgone
  rw [← (h.rows row hrow).2.2 stored hstored hid, hof stored hstored hid]
  exact hhook

theorem timely_of_undisturbed {a : Action} (h : w.Tracked) (hreads : w.Reads)
    (ha : w.Undisturbed a) : w.Timely a := by
  cases a with
  | schedule i =>
      intro c hc hphase hfree
      have hread := hreads.calls c (List.mem_of_getElem? hc) (Or.inr hphase)
      exact hread.2 (ha c hc hphase hfree)
  | record k now stored =>
      intro j result seen hk hstored hends
      exact hreads.not_owed (List.mem_of_getElem? hk) ⟨rfl, rfl⟩ (ha _ hk hstored hends)
  | sweep lookup stored =>
      intro row rest hrows hlookup hgone hstored
      have hrow : row ∈ w.rows := hrows ▸ List.mem_cons_self
      have hhead : row ∈ w.rows.head? := by rw [hrows, List.head?_cons, Option.mem_some]
      exact ⟨ha row hhead hlookup hgone hstored, hreads.gone_not_owed h.owed_pending hrow hgone⟩
  | start => trivial
  | stop => trivial
  | enqueue hookID id now => trivial
  | redeliver hookID id now => trivial
  | listPending now => trivial
  | sweepTrim trim => trivial
  | take k => trivial
  | post k => trivial
  | answer k result => trivial
  | trim k trim => trivial
  | release k => trivial

theorem Tracked.stored_created (h : w.Tracked) :
    ∀ row ∈ w.store.deliveries, row.id ∈ w.created :=
  fun _ hrow => h.ids_created _ (List.mem_map_of_mem hrow)

end World

/-! ## Every run -/

theorem settled_of_recorded {events : List Event}
    (h : ∀ e ∈ events, ∃ id state, e = .recorded id state) (id : ID) :
    owed id events = false ∧ (settled id events = true →
      ∃ state, Event.recorded id state ∈ events ∧ state ≠ .pending) := by
  induction events with
  | nil => simp [owed, settled]
  | cons e events ih =>
      obtain ⟨id', state, rfl⟩ := h e List.mem_cons_self
      obtain ⟨howed, hsettled⟩ := ih fun e' he' => h e' (List.mem_cons_of_mem _ he')
      refine ⟨howed, ?_⟩
      intro hid
      rw [settled, Bool.or_eq_true, Bool.and_eq_true, beq_iff_eq] at hid
      rcases hid with ⟨rfl, hstate⟩ | hid
      · exact ⟨state, List.mem_cons_self, by simpa using hstate⟩
      · obtain ⟨state', hmem, hne⟩ := hsettled hid
        exact ⟨state', List.mem_cons_of_mem _ hmem, hne⟩

theorem mem_recordedStates {store : Store} {e : Event} :
    e ∈ recordedStates store ↔
      ∃ row ∈ store.deliveries, row.state ≠ .pending ∧ e = .recorded row.id row.state := by
  simp only [recordedStates, List.mem_filterMap]
  constructor
  · rintro ⟨row, hrow, he⟩
    split at he
    · cases he
    · next hstate => exact ⟨row, hrow, hstate, (Option.some.inj he).symm⟩
  · rintro ⟨row, hrow, hstate, rfl⟩
    exact ⟨row, hrow, if_neg hstate⟩

theorem newDispatcher_tracked (store : Store) (cfg : Config) :
    (newDispatcher store cfg).Tracked := by
  have hevents (e : Event) (he : e ∈ recordedStates store) :
      ∃ id state, e = .recorded id state := by
    obtain ⟨row, -, -, rfl⟩ := mem_recordedStates.mp he
    exact ⟨row.id, row.state, rfl⟩
  have hlog := settled_of_recorded hevents
  -- a settled id is that of a row that is not pending
  have hrow {id : ID} (hid : settled id (recordedStates store) = true) :
      ∃ row ∈ store.deliveries, row.id = id ∧ row.state ≠ .pending := by
    obtain ⟨state, hmem, -⟩ := (hlog id).2 hid
    obtain ⟨row, hrow, hstate, heq⟩ := mem_recordedStates.mp hmem
    exact ⟨row, hrow, (Event.recorded.inj heq).1.symm, hstate⟩
  refine ⟨?_, ?_, ?_, ?_, ?_, ?_⟩
  · intro id hid
    simp [World.active, newDispatcher] at hid
  · rintro id ⟨row, hmem, rfl, hpending⟩
    by_contra hne
    obtain ⟨other, hother, heq, hstate⟩ := hrow (Bool.not_eq_false _ ▸ hne)
    have hsame : other = row := List.inj_on_of_nodup_map store.primaryKey hother hmem heq
    exact hstate (hsame ▸ hpending)
  · intro id hid
    exact absurd hid (by simp [newDispatcher, (hlog id).1])
  · intro id hid
    obtain ⟨row, hmem, rfl, -⟩ := hrow hid
    exact List.mem_map_of_mem hmem
  · intro id hid
    exact hid
  · intro later earlier id heq
    have hmem : Event.posted id ∈ recordedStates store := by
      have hlog : recordedStates store = later ++ Event.posted id :: earlier := heq
      simp [hlog]
    obtain ⟨_, _, heq'⟩ := hevents _ hmem
    cases heq'

/-- No two workers ever post one delivery.  In a run that is scheduled so that nobody is
disturbed, a settled delivery is posted again only after a redelivery, and a redelivery
is followed by a post or leaves the delivery pending. -/
theorem deliveries_end (store : Store) (cfg : Config) :
    (∀ w, Run World.Step (fun _ _ => True) (newDispatcher store cfg) w → w.Exclusive) ∧
      ∀ w, Run World.Step World.Undisturbed (newDispatcher store cfg) w →
        w.NeverReposted ∧ w.RedeliveriesKept := by
  constructor
  · intro w hrun
    exact (World.claimed_of_run hrun).exclusive
  · intro w hrun
    have hinv : w.Claimed ∧ w.Tracked ∧ w.Reads := by
      apply hrun.invariant (I := fun w => w.Claimed ∧ w.Tracked ∧ w.Reads)
        ⟨World.newDispatcher_claimed store cfg, newDispatcher_tracked store cfg,
          World.newDispatcher_reads store cfg⟩
      rintro w a w' ⟨hclaimed, htracked, hreads⟩ ha hstep
      have htimely := World.timely_of_undisturbed htracked hreads ha
      exact ⟨hclaimed.step hstep, htracked.step hclaimed htimely hstep,
        hreads.step htracked.stored_created hstep⟩
    exact ⟨hinv.2.1.neverReposted, hinv.2.1.owed_pending⟩

/-- One hook, with the id 1, and a delivery of a hook that is gone. -/
def orphaned : Store where
  hooks := [1]
  deliveries := [⟨5, 2, .pending, 0, none, [], some 0, none⟩]
  primaryKey := List.nodup_singleton 5

/-- The sweep reads both rows and fails the one of the hook that is gone.  It schedules
the other while the first attempt, which is retried, is in flight; the second attempt
delivers it, and a redelivery has it posted once more. -/
def sweptInTime : List Action :=
  [.start, .enqueue 1 7 1, .listPending 5, .schedule 0, .schedule 0, .schedule 0, .take 0,
    .post 0, .sweep true true, .sweepTrim true, .sweep true true, .schedule 1,
    .answer 0 ⟨500, some ⟨false, []⟩⟩, .record 0 6 true, .release 0, .schedule 1,
    .schedule 1, .take 0, .post 0, .answer 0 ⟨200, none⟩, .record 0 7 true, .trim 0 true,
    .release 0, .redeliver 1 7 8, .schedule 2, .schedule 2, .schedule 2, .take 1, .post 1]

theorem deliveries_end_in_time :
    ∃ w, Run World.Step World.Undisturbed (newDispatcher orphaned ⟨0, 0, 0, 0, 0⟩) w ∧
      w.log = [.posted 7, .redelivered 7, .recorded 7 .delivered, .posted 7,
        .recorded 7 .pending, .recorded 5 .failed, .posted 7] ∧
      w.Exclusive ∧ w.NeverReposted ∧ w.RedeliveriesKept := by
  have hrun : (sweptInTime.foldlM
      (fun (w : World) (a : Action) => if w.Undisturbed a then w.step a else none)
      (newDispatcher orphaned ⟨0, 0, 0, 0, 0⟩)).map (·.log) =
        some [.posted 7, .redelivered 7, .recorded 7 .delivered, .posted 7,
          .recorded 7 .pending, .recorded 5 .failed, .posted 7] := by
    decide +kernel
  obtain ⟨w, hw, hlog⟩ := Option.map_eq_some_iff.mp hrun
  have hchecked := Run.of_foldlM_checked hw
  have hall := (deliveries_end orphaned ⟨0, 0, 0, 0, 0⟩).1 w (hchecked.mono fun _ _ _ => trivial)
  exact ⟨w, hchecked, hlog, hall,
    (deliveries_end orphaned ⟨0, 0, 0, 0, 0⟩).2 w hchecked⟩

/-! ## Two runs that act on what is no longer so -/

def oneHook : Store := ⟨[1], [], List.nodup_nil⟩

/-- The sweep reads the new row and schedules it after the delivery is over. -/
def sweptLate : List Action :=
  [.start, .enqueue 1 7 0, .listPending 5, .schedule 0, .schedule 0, .schedule 0, .take 0,
    .post 0, .answer 0 ⟨200, none⟩, .record 0 6 true, .trim 0 true, .release 0,
    .sweep true true, .schedule 1, .schedule 1, .schedule 1, .take 0, .post 0]

/-- A redelivery arrives while the delivery is being posted. -/
def redeliveredEarly : List Action :=
  [.start, .enqueue 1 7 0, .schedule 0, .schedule 0, .schedule 0, .take 0, .post 0,
    .redeliver 1 7 5, .schedule 1, .schedule 1, .answer 0 ⟨200, none⟩, .record 0 6 true]

/-- Without the condition a delivered delivery is posted again, and an attempt that was
already in flight cancels a redelivery. -/
theorem stale_reads_break_deliveries :
    (∃ w, Run World.Step (fun _ _ => True) (newDispatcher oneHook ⟨0, 0, 0, 0, 0⟩) w ∧
        ¬ w.NeverReposted) ∧
      ∃ w, Run World.Step (fun _ _ => True) (newDispatcher oneHook ⟨0, 0, 0, 0, 0⟩) w ∧
        ¬ w.RedeliveriesKept := by
  constructor
  · have hrun : (sweptLate.foldlM World.step (newDispatcher oneHook ⟨0, 0, 0, 0, 0⟩)).map
        (·.log) = some [.posted 7, .recorded 7 .delivered, .posted 7] := by decide
    obtain ⟨w, hw, hlog⟩ := Option.map_eq_some_iff.mp hrun
    refine ⟨w, Run.of_foldlM hw, ?_⟩
    intro hnever
    have hopen := hnever [] [.recorded 7 .delivered, .posted 7] 7 hlog
    revert hopen
    decide
  · have hrun : (redeliveredEarly.foldlM World.step
        (newDispatcher oneHook ⟨0, 0, 0, 0, 0⟩)).map
        (fun w => (w.log, w.store.deliveries.map (·.state))) =
          some ([.recorded 7 .delivered, .redelivered 7, .posted 7], [.delivered]) := by
      decide
    obtain ⟨w, hw, heq⟩ := Option.map_eq_some_iff.mp hrun
    obtain ⟨hlog, hstates⟩ := Prod.mk.inj heq
    refine ⟨w, Run.of_foldlM hw, ?_⟩
    intro hkept
    obtain ⟨row, hrow, -, hpending⟩ := hkept 7 (by rw [hlog]; decide)
    have hmem : row.state ∈ w.store.deliveries.map (·.state) := List.mem_map_of_mem hrow
    rw [hstates, hpending] at hmem
    cases List.mem_singleton.mp hmem

end Nipa.Webhook
