import Mathlib.Data.List.Sort
import Mathlib.Logic.Relation
import Nipa.Domain
import Nipa.Support.Runs

/-!
# The webhook dispatcher

A delivery is a row that is stored before its first attempt.  `Enqueue`,
`Redeliver` and the retry sweep each call `Schedule`, which claims the delivery
in memory and hands it to a worker over a channel of capacity 64; a worker
posts it, stores what became of it and gives the claim back.

Each of these actors moves in steps of its own.  A call of `Schedule` is admitted,
claims and sends in three steps, the sweep reads its rows in one step and schedules
them later, and a worker posts, gets its answer, stores it, trims the log and
releases in separate steps.  The ghost field `log` holds, newest first, what
happened to the deliveries; `created` holds the ids given out so far.  Who acts on
a row it has read remembers, as `seen`, the log at that time; a worker remembers the
log at its post.
-/

namespace Nipa.Webhook

open Support

/-! ## Stored deliveries -/

inductive DeliveryState where
  | pending
  | delivered
  | failed
  deriving DecidableEq

/-- The event type and the payload of a delivery are only handed to the client. -/
structure Delivery where
  id : ID
  webhookID : ID
  state : DeliveryState
  attempt : Int64
  responseStatus : Option Int64
  lastError : Str
  nextRetryAt : Option ℤ
  deliveredAt : Option ℤ
  deriving DecidableEq

/-- The two tables.  Foreign keys are not enforced: the hook of a delivery may be
gone. -/
structure Store where
  hooks : List ID
  deliveries : List Delivery
  primaryKey : (deliveries.map (·.id)).Nodup

namespace Store

theorem map_id_update
    {deliveries : List Delivery}
    (selects : Delivery → Bool)
    {set : Delivery → Delivery}
    (hset : ∀ row, (set row).id = row.id) :
    (deliveries.map fun row => if selects row then set row else row).map (·.id) =
      deliveries.map (·.id) := by
  rw [List.map_map]
  apply List.map_congr_left
  intro row _
  simp only [Function.comp_apply]
  split
  · exact hset row
  · rfl

/-- `UPDATE … WHERE … RETURNING`: no row is an error. -/
def update
    (store : Store)
    (selects : Delivery → Bool)
    (set : Delivery → Delivery)
    (hset : ∀ row, (set row).id = row.id) : Option Store :=
  if store.deliveries.any selects then
    some
      { store with
        deliveries := store.deliveries.map fun row => if selects row then set row else row
        primaryKey := (map_id_update selects hset).symm ▸ store.primaryKey }
  else none

def createDelivery (store : Store) (row : Delivery) : Option Store :=
  if h : row.id ∈ store.deliveries.map (·.id) then none
  else
    some
      { store with
        deliveries := row :: store.deliveries
        primaryKey := List.nodup_cons.mpr ⟨h, store.primaryKey⟩ }

def getDelivery (store : Store) (webhookID id : ID) : Option Delivery :=
  store.deliveries.find? fun row => row.webhookID == webhookID && row.id == id

def listPendingRetries (store : Store) (now : ℤ) (limit : Int64) : List Delivery :=
  let due := store.deliveries.filter fun row =>
    row.state == .pending && row.nextRetryAt.any (· ≤ now)
  (due.insertionSort fun a b => a.nextRetryAt.getD 0 ≤ b.nextRetryAt.getD 0).take
    limit.toInt.toNat

def markDelivered (store : Store) (id : ID) (attempt : Int64)
    (responseStatus : Option Int64) (time : ℤ) : Option Store :=
  store.update (·.id == id)
    (fun row =>
      { row with
        state := .delivered, attempt, responseStatus, lastError := []
        nextRetryAt := none, deliveredAt := some time })
    (fun _ => rfl)

def reschedule (store : Store) (id : ID) (attempt : Int64)
    (responseStatus : Option Int64) (lastError : Str) (nextRetryAt : ℤ) : Option Store :=
  store.update (·.id == id)
    (fun row =>
      { row with
        state := .pending, attempt, responseStatus, lastError
        nextRetryAt := some nextRetryAt })
    (fun _ => rfl)

def markFailed (store : Store) (id : ID) (attempt : Int64)
    (responseStatus : Option Int64) (lastError : Str) : Option Store :=
  store.update (·.id == id)
    (fun row =>
      { row with
        state := .failed, attempt, responseStatus, lastError, nextRetryAt := none })
    (fun _ => rfl)

def requeue (store : Store) (webhookID id : ID) (time : ℤ) : Option Store :=
  store.update (fun row => row.webhookID == webhookID && row.id == id)
    (fun row => { row with state := .pending, lastError := [], nextRetryAt := some time })
    (fun _ => rfl)

def newestDeliveries (store : Store) (webhookID : ID) (keep : ℕ) : List ID :=
  (((store.deliveries.filter (·.webhookID == webhookID)).map (·.id)).insertionSort
    (· ≥ ·)).take keep

/-- Keeps the newest rows of the hook and every pending one. -/
def deleteOldDeliveries (store : Store) (webhookID : ID) (keep : ℕ) : Store :=
  { store with
    deliveries := store.deliveries.filter fun row =>
      !(row.webhookID == webhookID && row.state != .pending &&
        !(store.newestDeliveries webhookID keep).contains row.id)
    primaryKey := store.primaryKey.sublist (List.filter_sublist.map _) }

end Store

/-! ## The dispatcher -/

structure Config where
  maxAttempts : Int64
  initialBackoff : Int64
  backoffFactor : Int64
  retryBatch : Int64
  workers : Int64

def defaultWorkers : Int64 := 4

def deliveryRetention : ℕ := 1000

def second : Int64 := 1000000000

def Config.withDefaults (cfg : Config) : Config where
  maxAttempts := if cfg.maxAttempts ≤ 0 then 5 else cfg.maxAttempts
  initialBackoff := if cfg.initialBackoff ≤ 0 then 10 * second else cfg.initialBackoff
  backoffFactor := if cfg.backoffFactor < 2 then 4 else cfg.backoffFactor
  retryBatch := if cfg.retryBatch ≤ 0 then 100 else cfg.retryBatch
  workers := if cfg.workers ≤ 0 then defaultWorkers else cfg.workers

/-- The loop runs for `i` from one up to the attempt; durations wrap. -/
def Config.backoff (cfg : Config) (attempt : Int64) : Int64 :=
  (fun delay => delay * cfg.backoffFactor)^[(attempt.toInt - 1).toNat] cfg.initialBackoff

structure PostError where
  egressBlocked : Bool
  text : Str
  deriving DecidableEq

structure Result where
  statusCode : Int64
  err : Option PostError
  deriving DecidableEq

def errorStatus (statusCode : Int64) : Option Int64 :=
  if statusCode = 0 then none else some statusCode

/-- Of the hook, only the id is read outside the client. -/
structure Job where
  hookID : ID
  delivery : Delivery
  deriving DecidableEq

def Job.id (j : Job) : ID := j.delivery.id

/-- Where a call of `Schedule` stands. -/
inductive CallPhase where
  | entered
  | admitted
  | claimed
  | returned
  deriving DecidableEq

inductive Event where
  | posted (id : ID)
  | recorded (id : ID) (state : DeliveryState)
  | redelivered (id : ID)
  deriving DecidableEq

structure Call where
  job : Job
  phase : CallPhase
  seen : List Event
  deriving DecidableEq

/-- Where a worker stands in its loop. -/
inductive Phase where
  | idle
  | received (j : Job)
  | posting (j : Job) (seen : List Event)
  | answered (j : Job) (result : Result) (seen : List Event)
  | trimming (j : Job)
  | releasing (j : Job)
  deriving DecidableEq

/-- `rows` are the rows the sweep has read and not yet come to, `sweepCall` is the
last call of `Schedule` it made, and `sweepTrim` the hook whose deliveries it has yet
to trim. -/
structure World where
  cfg : Config
  store : Store
  started : Bool
  stopped : Bool
  launched : Bool
  inFlight : List ID
  jobs : List Job
  workers : List Phase
  calls : List Call
  rows : List Delivery
  rowsSeen : List Event
  sweepCall : Option ℕ
  sweepTrim : Option ID
  created : List ID
  log : List Event

inductive Action where
  | start
  | stop
  | enqueue (hookID id : ID) (now : ℤ)
  | redeliver (hookID id : ID) (now : ℤ)
  | schedule (i : ℕ)
  | listPending (now : ℤ)
  | sweep (lookup stored : Bool)
  | sweepTrim (trimmed : Bool)
  | take (k : ℕ)
  | post (k : ℕ)
  | answer (k : ℕ) (result : Result)
  | record (k : ℕ) (now : ℤ) (stored : Bool)
  | trim (k : ℕ) (trimmed : Bool)
  | release (k : ℕ)

def jobsCapacity : ℕ := 64

/-- What the store already says about its deliveries. -/
def recordedStates (store : Store) : List Event :=
  store.deliveries.filterMap fun row =>
    if row.state = .pending then none else some (.recorded row.id row.state)

def newDispatcher (store : Store) (cfg : Config) : World where
  cfg := cfg.withDefaults
  store := store
  started := false
  stopped := false
  launched := false
  inFlight := []
  jobs := []
  workers := []
  calls := []
  rows := []
  rowsSeen := recordedStates store
  sweepCall := none
  sweepTrim := none
  created := store.deliveries.map (·.id)
  log := recordedStates store

namespace World

/-! ## Steps -/

def running (w : World) : Bool := w.started && !w.stopped

def setWorker (w : World) (k : ℕ) (phase : Phase) : World :=
  { w with workers := w.workers.set k phase }

def setCall (w : World) (i : ℕ) (phase : CallPhase) (c : Call) : World :=
  { w with calls := w.calls.set i { c with phase } }

/-- An update of the store that may fail, in the store or for want of the row. -/
def recorded (w : World) (stored : Bool) (updated : Option Store) (id : ID)
    (state : DeliveryState) : World :=
  match stored, updated with
  | true, some store => { w with store, log := .recorded id state :: w.log }
  | _, _ => w

def trimmed (w : World) (webhookID : ID) (done : Bool) : World :=
  if done then
    { w with store := w.store.deleteOldDeliveries webhookID deliveryRetention }
  else w

def markFailed (w : World) (delivery : Delivery) (attempt : Int64)
    (status : Option Int64) (reason : Str) (stored : Bool) : World :=
  w.recorded stored (w.store.markFailed delivery.id attempt status reason) delivery.id .failed

def start (w : World) : World :=
  if w.started || w.stopped then w
  else
    { w with
      started := true
      launched := true
      workers := List.replicate w.cfg.workers.toInt.toNat .idle }

def stop (w : World) : World := { w with started := false, stopped := true }

/-- `Enqueue` up to its call of `Schedule`; `Generate` gives out an id that no
delivery had before. -/
def enqueue (w : World) (hookID id : ID) (now : ℤ) : Option World :=
  if id ∈ w.created then none
  else
    let delivery : Delivery :=
      { id, webhookID := hookID, state := .pending, attempt := 0, responseStatus := none
        lastError := [], nextRetryAt := some now, deliveredAt := none }
    (w.store.createDelivery delivery).map fun store =>
      { w with
        store
        created := id :: w.created
        calls := w.calls ++ [⟨⟨hookID, delivery⟩, .entered, w.log⟩] }

/-- `Redeliver` up to its call of `Schedule`. -/
def redeliver (w : World) (hookID id : ID) (now : ℤ) : Option World := do
  guard (hookID ∈ w.store.hooks)
  let store ← w.store.requeue hookID id now
  let requeued ← store.getDelivery hookID id
  some
    { w with
      store
      log := .redelivered id :: w.log
      calls := w.calls ++ [⟨⟨hookID, requeued⟩, .entered, .redelivered id :: w.log⟩] }

def claim (w : World) (id : ID) : Option World :=
  if id ∈ w.inFlight then none else some { w with inFlight := id :: w.inFlight }

def releaseID (w : World) (id : ID) : World :=
  { w with inFlight := w.inFlight.filter (· ≠ id) }

/-- The next step of one call of `Schedule`. -/
def schedule (w : World) (i : ℕ) : Option World := do
  let c ← w.calls[i]?
  match c.phase with
  | .entered => some (w.setCall i (if w.running then .admitted else .returned) c)
  | .admitted =>
      match w.claim c.job.id with
      | none => some (w.setCall i .returned c)
      | some w' => some (w'.setCall i .claimed c)
  | .claimed =>
      if w.jobs.length < jobsCapacity then
        some ({ w with jobs := w.jobs ++ [c.job] }.setCall i .returned c)
      else some ((w.releaseID c.job.id).setCall i .returned c)
  | .returned => none

/-- The sweep is done with the row before. -/
def sweepReady (w : World) : Bool :=
  w.sweepTrim.isNone &&
    match w.sweepCall with
    | none => true
    | some i => w.calls[i]?.all fun c => c.phase = .returned

def listPending (w : World) (now : ℤ) : Option World :=
  if w.launched && w.sweepReady && w.rows.isEmpty then
    some { w with rows := w.store.listPendingRetries now w.cfg.retryBatch, rowsSeen := w.log }
  else none

/-- The next row of the sweep. -/
def sweep (w : World) (lookup stored : Bool) : Option World :=
  match w.rows with
  | [] => none
  | row :: rest =>
      if !w.sweepReady then none
      else if !lookup then some { w with rows := rest }
      else if row.webhookID ∈ w.store.hooks then
        some
          { w with
            rows := rest
            calls := w.calls ++ [⟨⟨row.webhookID, row⟩, .entered, w.rowsSeen⟩]
            sweepCall := some w.calls.length }
      else
        some ({ w with rows := rest, sweepTrim := some row.webhookID }.markFailed row
          row.attempt none "webhook no longer exists".toList stored)

def trimSwept (w : World) (trim : Bool) : Option World :=
  match w.sweepTrim with
  | none => none
  | some hookID => some { w.trimmed hookID trim with sweepTrim := none }

def take (w : World) (k : ℕ) : Option World :=
  match w.workers[k]?, w.jobs with
  | some .idle, j :: rest => some ({ w with jobs := rest }.setWorker k (.received j))
  | _, _ => none

def post (w : World) (k : ℕ) : Option World :=
  match w.workers[k]? with
  | some (.received j) =>
      let log := .posted j.id :: w.log
      some ({ w with log }.setWorker k (.posting j log))
  | _ => none

def answer (w : World) (k : ℕ) (result : Result) : Option World :=
  match w.workers[k]? with
  | some (.posting j seen) => some (w.setWorker k (.answered j result seen))
  | _ => none

/-- The failed attempt is neither blocked nor the last one. -/
def retries (w : World) (j : Job) (err : PostError) : Bool :=
  !(err.egressBlocked || decide (w.cfg.maxAttempts ≤ j.delivery.attempt + 1))

/-- `deliver` from the client's answer on, up to the trimming of the log. -/
def deliver (w : World) (k : ℕ) (j : Job) (result : Result) (now : ℤ) (stored : Bool) :
    World :=
  let attempt := j.delivery.attempt + 1
  let status := errorStatus result.statusCode
  match result.err with
  | none =>
      (w.recorded stored (w.store.markDelivered j.id attempt status now) j.id
        .delivered).setWorker k (.trimming j)
  | some err =>
      if w.retries j err then
        (w.recorded stored
          (w.store.reschedule j.id attempt status err.text
            (now + (w.cfg.backoff attempt).toInt))
          j.id .pending).setWorker k (.releasing j)
      else
        (w.markFailed j.delivery attempt status err.text stored).setWorker k (.trimming j)

def record (w : World) (k : ℕ) (now : ℤ) (stored : Bool) : Option World :=
  match w.workers[k]? with
  | some (.answered j result _) => some (w.deliver k j result now stored)
  | _ => none

def trim (w : World) (k : ℕ) (trim : Bool) : Option World :=
  match w.workers[k]? with
  | some (.trimming j) => some ((w.trimmed j.hookID trim).setWorker k (.releasing j))
  | _ => none

def release (w : World) (k : ℕ) : Option World :=
  match w.workers[k]? with
  | some (.releasing j) => some ((w.releaseID j.id).setWorker k .idle)
  | _ => none

def step (w : World) : Action → Option World
  | .start => some w.start
  | .stop => some w.stop
  | .enqueue hookID id now => w.enqueue hookID id now
  | .redeliver hookID id now => w.redeliver hookID id now
  | .schedule i => w.schedule i
  | .listPending now => w.listPending now
  | .sweep lookup stored => w.sweep lookup stored
  | .sweepTrim trimmed => w.trimSwept trimmed
  | .take k => w.take k
  | .post k => w.post k
  | .answer k result => w.answer k result
  | .record k now stored => w.record k now stored
  | .trim k trimmed => w.trim k trimmed
  | .release k => w.release k

def Step (w : World) (a : Action) (w' : World) : Prop := w.step a = some w'

end World

/-! ## What the log says -/

/-- Recorded as delivered or failed, and not redelivered since. -/
def settled (id : ID) : List Event → Bool
  | [] => false
  | .recorded i state :: earlier => (i == id && state != .pending) || settled id earlier
  | .redelivered i :: earlier => i != id && settled id earlier
  | .posted _ :: earlier => settled id earlier

/-- Redelivered, and not posted since. -/
def owed (id : ID) : List Event → Bool
  | [] => false
  | .redelivered i :: earlier => i == id || owed id earlier
  | .posted i :: earlier => i != id && owed id earlier
  | .recorded _ _ :: earlier => owed id earlier

end Nipa.Webhook
