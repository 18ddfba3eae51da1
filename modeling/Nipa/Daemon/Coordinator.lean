import Mathlib.Data.Finset.Card
import Mathlib.Logic.Function.Basic
import Nipa.Support.Runs

/-!
# The operation coordinator of the daemon

Operations on one working copy are admitted shared or exclusive, in the order in
which their callers enter `Acquire`.  A caller queues a ticket, is answered over
a channel of capacity one, and may be cancelled at any time; a cancelled context
starts a callback that takes the ticket out of the queue.

The mutex is taken and given back in separate steps, and `dispatchLocked` runs
one turn of its loop at a time, so that contexts are cancelled and other callers
move between any two turns.  The order of the ghost field `grants` is the order
in which grants were sent.
-/

namespace Nipa.Daemon

open Support

/-! ## State -/

/-- A waiter is the number of its ticket; tickets are numbered in the order in
which their callers took the mutex. -/
structure Coordinator where
  exclusive : Bool
  shared : ℤ
  waiters : List ℕ
  deriving DecidableEq

/-- Where the caller of `Acquire` stands. -/
inductive Phase (E : Type) where
  | acquiring
  | registering
  | waiting
  | received (waitErr : Option E)
  | stopped (waitErr : Option E)
  | givingBack (err : E)
  | holding
  | failed (err : E)
  | released
  deriving DecidableEq

/-- What became of the callback given to `context.AfterFunc`. -/
inductive Hook where
  | unset
  | armed
  | stopped
  | started
  | finished
  deriving DecidableEq

/-- `ready` is what the channel holds; `sent` is everything sent to it so far. -/
structure Ticket (E : Type) where
  ctx : ℕ
  exclusive : Bool
  ahead : ℕ
  ready : List (Option E)
  sent : List (Option E)
  phase : Phase E
  hook : Hook
  deriving DecidableEq

/-- The critical section that holds the mutex. -/
inductive CriticalSection where
  | acquire (t : ℕ)
  | callback (t : ℕ)
  | release (t : ℕ)
  deriving DecidableEq

/-- `ctxErr` is `ctx.Err()` of every context. -/
structure World (E : Type) where
  coordinator : Coordinator
  mu : Option CriticalSection
  arrived : ℕ
  ticket : ℕ → Ticket E
  ctxErr : ℕ → Option E
  grants : List ℕ

inductive Event (E : Type) where
  | acquire (ctx : ℕ) (exclusive : Bool)
  | dispatch
  | register (t : ℕ)
  | fire (t : ℕ)
  | callback (t : ℕ)
  | receive (t : ℕ)
  | stop (t : ℕ)
  | check (t : ℕ)
  | giveBack (t : ℕ)
  | release (t : ℕ)
  | cancel (ctx : ℕ) (err : E)

variable {E : Type}

/-! ## Steps -/

namespace Ticket

def new (ctx : ℕ) (exclusive : Bool) (ahead : ℕ) : Ticket E :=
  { ctx, exclusive, ahead, ready := [], sent := [], phase := .acquiring, hook := .unset }

/-- A message enters the channel. -/
def push (tk : Ticket E) (message : Option E) : Ticket E :=
  { tk with ready := tk.ready ++ [message], sent := tk.sent ++ [message] }

/-- Granted and not yet released. -/
def holds (tk : Ticket E) : Bool :=
  match tk.phase with
  | .failed _ | .released => false
  | _ => tk.sent.any Option.isNone

end Ticket

namespace World

def initial : World E where
  coordinator := { exclusive := false, shared := 0, waiters := [] }
  mu := none
  arrived := 0
  ticket := fun _ => Ticket.new 0 false 0
  ctxErr := fun _ => none
  grants := []

def setTicket (s : World E) (t : ℕ) (tk : Ticket E) : World E :=
  { s with ticket := Function.update s.ticket t tk }

def setWaiters (s : World E) (waiters : List ℕ) : World E :=
  { s with coordinator := { s.coordinator with waiters } }

def lock (s : World E) (owner : CriticalSection) : World E :=
  { s with mu := some owner }

/-- `Acquire` goes on to register its callback; the other sections are over. -/
def unlock (s : World E) : World E :=
  match s.mu with
  | some (.acquire t) =>
      { s.setTicket t { s.ticket t with phase := .registering } with mu := none }
  | _ => { s with mu := none }

def exclusiveAheadLocked (s : World E) : ℕ :=
  (if s.coordinator.exclusive then 1 else 0) +
    (s.coordinator.waiters.filter fun t => (s.ticket t).exclusive).length

/-- The first critical section of `Acquire`, up to the call of `dispatchLocked`. -/
def enter (s : World E) (ctx : ℕ) (exclusive : Bool) : World E :=
  { s with
    ticket := Function.update s.ticket s.arrived
      (Ticket.new ctx exclusive s.exclusiveAheadLocked)
    arrived := s.arrived + 1
    coordinator :=
      { s.coordinator with waiters := s.coordinator.waiters ++ [s.arrived] }
    mu := some (.acquire s.arrived) }

/-- A send to the channel of a ticket; one to a full channel blocks. -/
def send (s : World E) (t : ℕ) (message : Option E) : Option (World E) :=
  if (s.ticket t).ready.isEmpty then
    some { s.setTicket t ((s.ticket t).push message) with
      grants := if message.isNone then s.grants ++ [t] else s.grants }
  else none

/-- One turn of the loop of `dispatchLocked`; the section ends where it returns. -/
def dispatchTurn (s : World E) : Option (World E) :=
  match s.coordinator.waiters with
  | [] => some s.unlock
  | t :: rest =>
      match s.ctxErr (s.ticket t).ctx with
      | some err => (s.setWaiters rest).send t (some err)
      | none =>
          if (s.ticket t).exclusive then
            if s.coordinator.exclusive || 0 < s.coordinator.shared then some s.unlock
            else
              (World.send { s with
                coordinator := { s.coordinator with waiters := rest, exclusive := true } }
                t none).map unlock
          else if s.coordinator.exclusive then some s.unlock
          else
            World.send { s with
              coordinator :=
                { s.coordinator with waiters := rest, shared := s.coordinator.shared + 1 } }
              t none

/-- `releaseLocked` up to its call of `dispatchLocked`; the caller moves on to `phase`. -/
def releaseLocked (s : World E) (t : ℕ) (phase : Phase E) : World E :=
  { s.setTicket t { s.ticket t with phase } with
    coordinator :=
      if (s.ticket t).exclusive then { s.coordinator with exclusive := false }
      else { s.coordinator with shared := s.coordinator.shared - 1 }
    mu := some (.release t) }

/-- The callback up to its call of `dispatchLocked`. -/
def runCallback (s : World E) (t : ℕ) : Option (World E) :=
  let s' := s.lock (.callback t)
  let answered :=
    if t ∈ s.coordinator.waiters then
      (s'.setWaiters (s.coordinator.waiters.erase t)).send t (s.ctxErr (s.ticket t).ctx)
    else some s'
  answered.map fun s' => s'.setTicket t { s'.ticket t with hook := .finished }

/-- `none` where the event is not enabled. -/
def step (s : World E) : Event E → Option (World E)
  | .acquire ctx exclusive =>
      match s.mu with
      | none => some (s.enter ctx exclusive)
      | some _ => none
  | .dispatch =>
      match s.mu with
      | none => none
      | some _ => s.dispatchTurn
  | .register t =>
      match (s.ticket t).phase with
      | .registering => some (s.setTicket t { s.ticket t with phase := .waiting, hook := .armed })
      | _ => none
  | .fire t =>
      match (s.ticket t).hook, s.ctxErr (s.ticket t).ctx with
      | .armed, some _ => some (s.setTicket t { s.ticket t with hook := .started })
      | _, _ => none
  | .callback t =>
      match (s.ticket t).hook, s.mu with
      | .started, none => s.runCallback t
      | _, _ => none
  | .receive t =>
      match (s.ticket t).phase, (s.ticket t).ready with
      | .waiting, message :: ready =>
          some (s.setTicket t { s.ticket t with ready, phase := .received message })
      | _, _ => none
  | .stop t =>
      match (s.ticket t).phase with
      | .received message =>
          some (s.setTicket t { s.ticket t with
            phase := .stopped message
            hook := if (s.ticket t).hook = .armed then .stopped else (s.ticket t).hook })
      | _ => none
  | .check t =>
      match (s.ticket t).phase with
      | .stopped (some err) => some (s.setTicket t { s.ticket t with phase := .failed err })
      | .stopped none =>
          match s.ctxErr (s.ticket t).ctx with
          | some err => some (s.setTicket t { s.ticket t with phase := .givingBack err })
          | none => some (s.setTicket t { s.ticket t with phase := .holding })
      | _ => none
  | .giveBack t =>
      match (s.ticket t).phase, s.mu with
      | .givingBack err, none => some (s.releaseLocked t (.failed err))
      | _, _ => none
  | .release t =>
      match (s.ticket t).phase, s.mu with
      | .holding, none => some (s.releaseLocked t .released)
      | _, _ => none
  | .cancel ctx err =>
      match s.ctxErr ctx with
      | none => some { s with ctxErr := Function.update s.ctxErr ctx (some err) }
      | some _ => none

end World

/-- A run of the coordinator from its start. -/
abbrev Reached (s : World E) : Prop :=
  Run (fun s e s' => World.step s e = some s') (fun _ _ => True) World.initial s

/-! ## What the coordinator is for -/

namespace World

/-- The holders of one kind. -/
def holders (s : World E) (exclusive : Bool) : Finset ℕ :=
  (Finset.range s.arrived).filter fun t =>
    (s.ticket t).holds = true ∧ (s.ticket t).exclusive = exclusive

/-- A waiter that `dispatchLocked` would admit were it at the front. -/
def Grantable (s : World E) (t : ℕ) : Prop :=
  if (s.ticket t).exclusive then s.coordinator.exclusive = false ∧ s.coordinator.shared ≤ 0
  else s.coordinator.exclusive = false

/-- The first waiter whose context is not cancelled. -/
def FirstLive (s : World E) (t : ℕ) : Prop :=
  ∃ before after, s.coordinator.waiters = before ++ t :: after ∧
    (∀ w ∈ before, (s.ctxErr (s.ticket w).ctx).isSome) ∧ s.ctxErr (s.ticket t).ctx = none

/-- The callback of the waiter is still to run: it is not registered yet, or armed,
or started and not yet at the mutex. -/
def CallbackDue (s : World E) (t : ℕ) : Prop :=
  (s.ticket t).phase = .registering ∨ (s.ticket t).hook = .armed ∨
    (s.ticket t).hook = .started

end World

/-! ## Writes -/

namespace World

variable {s s' : World E} {t w : ℕ} {tk : Ticket E}

theorem ticket_setTicket (t' : ℕ) :
    (s.setTicket t tk).ticket t' = if t' = t then tk else s.ticket t' := by
  simp [setTicket, Function.update_apply]

@[simp] theorem coordinator_setTicket : (s.setTicket t tk).coordinator = s.coordinator := rfl

@[simp] theorem arrived_setTicket : (s.setTicket t tk).arrived = s.arrived := rfl

@[simp] theorem ctxErr_setTicket : (s.setTicket t tk).ctxErr = s.ctxErr := rfl

@[simp] theorem grants_setTicket : (s.setTicket t tk).grants = s.grants := rfl

@[simp] theorem mu_setTicket : (s.setTicket t tk).mu = s.mu := rfl

theorem mem_holders {exclusive : Bool} : t ∈ s.holders exclusive ↔
    t < s.arrived ∧ (s.ticket t).holds = true ∧ (s.ticket t).exclusive = exclusive := by
  simp [holders]

theorem holders_congr (harrived : s'.arrived = s.arrived)
    (hticket : ∀ t < s.arrived, (s'.ticket t).holds = (s.ticket t).holds ∧
      (s'.ticket t).exclusive = (s.ticket t).exclusive) (exclusive : Bool) :
    s'.holders exclusive = s.holders exclusive := by
  ext t
  rw [mem_holders, mem_holders, harrived]
  refine and_congr_right fun ht => ?_
  rw [(hticket t ht).1, (hticket t ht).2]

theorem card_holders_gain (ht : t < s.arrived) (harrived : s'.arrived = s.arrived)
    (hbefore : (s.ticket t).holds = false) (hafter : (s'.ticket t).holds = true)
    (hkind : (s'.ticket t).exclusive = (s.ticket t).exclusive)
    (hother : ∀ w, w ≠ t → s'.ticket w = s.ticket w) (exclusive : Bool) :
    (s'.holders exclusive).card =
      (s.holders exclusive).card + if (s.ticket t).exclusive = exclusive then 1 else 0 := by
  split
  · rename_i heq
    have hnot : t ∉ s.holders exclusive := by
      simp [mem_holders, hbefore]
    have hset : s'.holders exclusive = insert t (s.holders exclusive) := by
      ext w
      rw [Finset.mem_insert, mem_holders, mem_holders, harrived]
      by_cases hw : w = t
      · subst hw
        simp [ht, hafter, hkind, heq]
      · simp [hw, hother w hw]
    rw [hset, Finset.card_insert_of_notMem hnot]
  · rename_i hne
    have hset : s'.holders exclusive = s.holders exclusive := by
      ext w
      rw [mem_holders, mem_holders, harrived]
      by_cases hw : w = t
      · subst hw
        simp [hkind, hne]
      · rw [hother w hw]
    rw [hset, Nat.add_zero]

end World

/-! ## The invariant -/

/-- What the caller of a ticket has received is what was sent to it. -/
def Ticket.Phased (tk : Ticket E) : Prop :=
  match tk.phase with
  | .acquiring | .registering | .waiting => tk.ready = tk.sent ∧ tk.sent.length ≤ 1
  | .received message | .stopped message => tk.ready = [] ∧ tk.sent = [message]
  | .givingBack _ | .holding | .released => tk.ready = [] ∧ tk.sent = [none]
  | .failed err => tk.ready = [] ∧ (tk.sent = [none] ∨ tk.sent = [some err])

/-- The callback of an unanswered ticket is registered by the time its caller waits. -/
def Ticket.Hooked (tk : Ticket E) : Prop :=
  match tk.phase with
  | .acquiring | .registering => tk.hook = .unset
  | .waiting => tk.sent = [] → tk.hook = .armed ∨ tk.hook = .started
  | _ => True

/-- A ticket whose context has the given error. -/
structure Ticket.Sound (tk : Ticket E) (ctxErr : Option E) : Prop where
  phased : tk.Phased
  hooked : tk.Hooked
  errors : ∀ err, some err ∈ tk.sent → ctxErr = some err
  fired : tk.hook = .started → ctxErr ≠ none

namespace World

/-- The tickets, the queue and the order of the grants. -/
structure Queued (s : World E) : Prop where
  sound : ∀ t < s.arrived, (s.ticket t).Sound (s.ctxErr (s.ticket t).ctx)
  fresh : ∀ t, s.arrived ≤ t → s.ticket t = Ticket.new 0 false 0
  queued : ∀ t < s.arrived, t ∈ s.coordinator.waiters ↔ (s.ticket t).sent = []
  granted : ∀ t < s.arrived, t ∈ s.grants ↔ none ∈ (s.ticket t).sent
  acquiring : ∀ t < s.arrived,
    (s.ticket t).phase = .acquiring ↔ s.mu = some (.acquire t)
  acquire_lt : ∀ t, s.mu = some (.acquire t) → t < s.arrived
  waiters_sorted : s.coordinator.waiters.Pairwise (· < ·)
  waiters_lt : ∀ w ∈ s.coordinator.waiters, w < s.arrived
  grants_sorted : s.grants.Pairwise (· < ·)
  grants_lt : ∀ g ∈ s.grants, g < s.arrived
  grants_first : ∀ g ∈ s.grants, ∀ w ∈ s.coordinator.waiters, g < w

/-- The flag and the counter count the holders, and exclude one another. -/
structure Counted (s : World E) : Prop where
  flag : (s.holders true).card = if s.coordinator.exclusive then 1 else 0
  count : s.coordinator.shared = (s.holders false).card
  apart : s.coordinator.exclusive = true → s.coordinator.shared = 0

/-- The front of the queue waits for a holder. -/
def HeadBlocked (s : World E) : Prop :=
  ∀ t ∈ s.coordinator.waiters.head?, ¬ s.Grantable t

structure Inv (s : World E) : Prop extends Queued s, Counted s where
  blocked : s.mu = none → s.HeadBlocked

/-! ## What a write keeps -/

variable {s s' : World E} {t w : ℕ} {tk : Ticket E}

theorem Queued.lt_of_phase (h : s.Queued) (hp : (s.ticket t).phase ≠ .acquiring) :
    t < s.arrived := by
  by_contra hge
  rw [h.fresh t (Nat.le_of_not_lt hge)] at hp
  exact hp rfl

theorem Queued.lt_of_hook (h : s.Queued) (hh : (s.ticket t).hook ≠ .unset) :
    t < s.arrived := by
  by_contra hge
  rw [h.fresh t (Nat.le_of_not_lt hge)] at hh
  exact hh rfl

theorem Queued.ready_nil (h : s.Queued) (hw : t ∈ s.coordinator.waiters) :
    (s.ticket t).ready = [] ∧ (s.ticket t).sent = [] := by
  have ht := h.waiters_lt t hw
  have hsent := (h.queued t ht).mp hw
  have hphased := (h.sound t ht).phased
  refine ⟨?_, hsent⟩
  unfold Ticket.Phased at hphased
  rw [hsent] at hphased
  split at hphased
  all_goals exact hphased.1

theorem Queued.phase_of_waiting (h : s.Queued) (hw : t ∈ s.coordinator.waiters) :
    (s.ticket t).phase = .acquiring ∨ (s.ticket t).phase = .registering ∨
      (s.ticket t).phase = .waiting := by
  have hphased := (h.sound t (h.waiters_lt t hw)).phased
  unfold Ticket.Phased at hphased
  rw [(h.ready_nil hw).2] at hphased
  split at hphased
  · exact Or.inl ‹_›
  · exact Or.inr (Or.inl ‹_›)
  · exact Or.inr (Or.inr ‹_›)
  all_goals simp at hphased

theorem Queued.setTicket (h : s.Queued) (ht : t < s.arrived)
    (hsent : tk.sent = (s.ticket t).sent)
    (hphase : tk.phase = .acquiring ↔ (s.ticket t).phase = .acquiring)
    (hsound : tk.Sound (s.ctxErr tk.ctx)) : (s.setTicket t tk).Queued := by
  constructor
  · intro w hw
    rw [ticket_setTicket]
    split
    · exact hsound
    · exact h.sound w hw
  · intro w hw
    rw [ticket_setTicket, if_neg (by rintro rfl; exact absurd ht (not_lt.mpr hw))]
    exact h.fresh w hw
  · intro w hw
    rw [ticket_setTicket]
    split
    · subst w; rw [hsent]; exact h.queued t hw
    · exact h.queued w hw
  · intro w hw
    rw [ticket_setTicket]
    split
    · subst w; rw [hsent]; exact h.granted t hw
    · exact h.granted w hw
  · intro w hw
    rw [ticket_setTicket]
    split
    · subst w; rw [hphase]; exact h.acquiring t hw
    · exact h.acquiring w hw
  · exact h.acquire_lt
  · exact h.waiters_sorted
  · exact h.waiters_lt
  · exact h.grants_sorted
  · exact h.grants_lt
  · exact h.grants_first

theorem Queued.lock (h : s.Queued) (hfree : s.mu = none) {owner : CriticalSection}
    (howner : ∀ t, owner ≠ .acquire t) {c : Coordinator}
    (hc : c.waiters = s.coordinator.waiters) :
    Queued { s with coordinator := c, mu := some owner } := by
  have hnot : ∀ t, some owner ≠ some (CriticalSection.acquire t) := fun t heq =>
    howner t (Option.some.inj heq)
  constructor
  · exact h.sound
  · exact h.fresh
  · rw [hc]; exact h.queued
  · exact h.granted
  · intro w hw
    have hphase : (s.ticket w).phase ≠ .acquiring := fun hp => by
      have := (h.acquiring w hw).mp hp
      simp [hfree] at this
    exact iff_of_false hphase (hnot w)
  · exact fun t heq => absurd heq (hnot t)
  · rw [hc]; exact h.waiters_sorted
  · rw [hc]; exact h.waiters_lt
  · exact h.grants_sorted
  · exact h.grants_lt
  · rw [hc]; exact h.grants_first

end World

namespace World

variable {s s' : World E} {t : ℕ}

theorem Queued.unlock (h : s.Queued) : s.unlock.Queued := by
  unfold World.unlock
  split
  · rename_i t hmu
    have ht := h.acquire_lt t hmu
    have hphase := (h.acquiring t ht).mpr hmu
    have hsound := h.sound t ht
    have hset : ∀ w, (s.setTicket t { s.ticket t with phase := .registering }).ticket w =
        if w = t then { s.ticket t with phase := .registering } else s.ticket w :=
      fun w => ticket_setTicket w
    refine ⟨?_, ?_, ?_, ?_, ?_, ?_, h.waiters_sorted, h.waiters_lt, h.grants_sorted,
      h.grants_lt, h.grants_first⟩
    · intro w hw
      simp only [hset, ctxErr_setTicket]
      split
      · refine ⟨?_, ?_, hsound.errors, hsound.fired⟩
        · simpa [Ticket.Phased, hphase] using hsound.phased
        · simpa [Ticket.Hooked, hphase] using hsound.hooked
      · exact h.sound w hw
    · intro w hw
      simp only [hset]
      rw [if_neg (by rintro rfl; exact absurd ht (not_lt.mpr hw))]
      exact h.fresh w hw
    · intro w hw
      simp only [hset]
      split
      · subst w; exact h.queued t hw
      · exact h.queued w hw
    · intro w hw
      simp only [hset]
      split
      · subst w; exact h.granted t hw
      · exact h.granted w hw
    · intro w hw
      simp only [hset]
      split
      · simp
      · rename_i hne
        have := h.acquiring w hw
        rw [hmu] at this
        simp only [this, Option.some.injEq, CriticalSection.acquire.injEq]
        simp [Ne.symm hne]
    · simp
  · rename_i hmu
    refine ⟨h.sound, h.fresh, h.queued, h.granted, ?_, ?_, h.waiters_sorted, h.waiters_lt,
      h.grants_sorted, h.grants_lt, h.grants_first⟩
    · intro w hw
      have hphase : (s.ticket w).phase ≠ .acquiring := fun hp =>
        hmu w ((h.acquiring w hw).mp hp)
      exact iff_of_false hphase (by simp)
    · simp

theorem Queued.send (h : s.Queued) {c : Coordinator} {message : Option E}
    (ht : t ∈ s.coordinator.waiters)
    (hsend : World.send { s with coordinator := c } t message = some s')
    (hc : c.waiters = s.coordinator.waiters.erase t)
    (herr : ∀ err, message = some err → s.ctxErr (s.ticket t).ctx = some err)
    (hfront : message = none → ∀ w ∈ s.coordinator.waiters, w ≠ t → t < w) : s'.Queued := by
  unfold World.send at hsend
  obtain ⟨hready, hsent⟩ := h.ready_nil ht
  have hlt := h.waiters_lt t ht
  have hnodup : s.coordinator.waiters.Nodup := h.waiters_sorted.imp ne_of_lt
  have hmem : ∀ w, w ∈ c.waiters ↔ w ≠ t ∧ w ∈ s.coordinator.waiters := fun w => by
    rw [hc, hnodup.mem_erase_iff]
  have hsub : c.waiters.Sublist s.coordinator.waiters := by
    rw [hc]; exact List.erase_sublist
  simp only [hready, List.isEmpty_nil, if_true, Option.some.injEq] at hsend
  subst hsend
  have hset : ∀ w, (World.setTicket { s with coordinator := c } t
      ((s.ticket t).push message)).ticket w =
        if w = t then (s.ticket t).push message else s.ticket w :=
    fun w => ticket_setTicket w
  refine ⟨?_, ?_, ?_, ?_, ?_, h.acquire_lt, h.waiters_sorted.sublist hsub,
    fun w hw => h.waiters_lt w (hsub.subset hw), ?_, ?_, ?_⟩
  · intro w hw
    simp only [hset, ctxErr_setTicket]
    split
    · have hsound := h.sound t hlt
      refine ⟨?_, ?_, ?_, hsound.fired⟩
      · have hphased := hsound.phased
        simp only [Ticket.Phased, Ticket.push, hready, hsent] at hphased ⊢
        rcases h.phase_of_waiting ht with hp | hp | hp <;> simp [hp]
      · have hhooked := hsound.hooked
        simp only [Ticket.Hooked, Ticket.push, hsent] at hhooked ⊢
        rcases h.phase_of_waiting ht with hp | hp | hp <;> simp [hp] at hhooked ⊢ <;>
          exact hhooked
      · intro err hin
        simp only [Ticket.push, hsent, List.nil_append, List.mem_singleton] at hin
        exact herr err hin.symm
    · exact h.sound w hw
  · intro w hw
    simp only [hset]
    rw [if_neg (by rintro rfl; exact absurd hlt (not_lt.mpr hw))]
    exact h.fresh w hw
  · intro w hw
    simp only [hset, coordinator_setTicket]
    rw [hmem]
    split
    · subst w; simp [Ticket.push]
    · rename_i hne
      simp only [ne_eq, hne, not_false_eq_true, true_and]
      exact h.queued w hw
  · intro w hw
    simp only [hset]
    by_cases hne : w = t
    · subst w
      have hnot : t ∉ s.grants := fun hg => by
        simpa [hsent] using (h.granted t hlt).mp hg
      cases message <;> simp [Ticket.push, hsent, hnot]
    · rw [if_neg hne, ← h.granted w hw]
      cases message <;> simp [hne]
  · intro w hw
    simp only [hset]
    split
    · subst w; exact h.acquiring t hw
    · exact h.acquiring w hw
  · cases message with
    | some err => simpa using h.grants_sorted
    | none =>
        simp only [Option.isNone_none, if_true]
        refine List.pairwise_append.mpr ⟨h.grants_sorted, List.pairwise_singleton _ _, ?_⟩
        intro g hg w hw
        rw [List.mem_singleton.mp hw]
        exact h.grants_first g hg t ht
  · intro g hg
    cases message with
    | some err => exact h.grants_lt g (by simpa using hg)
    | none =>
        simp only [Option.isNone_none, if_true, List.mem_append, List.mem_singleton] at hg
        rcases hg with hg | rfl
        · exact h.grants_lt g hg
        · exact hlt
  · intro g hg w hw
    obtain ⟨hne, hqueued⟩ := (hmem w).mp hw
    cases message with
    | some err => exact h.grants_first g (by simpa using hg) w hqueued
    | none =>
        simp only [Option.isNone_none, if_true, List.mem_append, List.mem_singleton] at hg
        rcases hg with hg | rfl
        · exact h.grants_first g hg w hqueued
        · exact hfront rfl w hqueued hne

theorem Queued.enter (h : s.Queued) (hfree : s.mu = none) (ctx : ℕ) (exclusive : Bool) :
    (s.enter ctx exclusive).Queued := by
  have hset : ∀ w, (s.enter ctx exclusive).ticket w = if w = s.arrived then
      Ticket.new ctx exclusive s.exclusiveAheadLocked else s.ticket w := fun w => by
    simp [World.enter, Function.update_apply]
  have hnew : s.arrived ∉ s.coordinator.waiters := fun hin =>
    absurd (h.waiters_lt _ hin) (lt_irrefl _)
  have hnewg : s.arrived ∉ s.grants := fun hin =>
    absurd (h.grants_lt _ hin) (lt_irrefl _)
  refine ⟨?_, ?_, ?_, ?_, ?_, ?_, ?_, ?_, h.grants_sorted,
    fun g hg => Nat.lt_succ_of_lt (h.grants_lt g hg), ?_⟩
  · intro w hw
    rw [hset]
    split
    · refine ⟨?_, ?_, ?_, ?_⟩ <;> simp [Ticket.Phased, Ticket.Hooked, Ticket.new]
    · rename_i hne
      exact h.sound w (Nat.lt_of_le_of_ne (Nat.le_of_lt_succ hw) hne)
  · intro w hw
    rw [hset, if_neg (Nat.ne_of_gt (Nat.lt_of_succ_le hw))]
    exact h.fresh w (Nat.le_of_succ_le hw)
  · intro w hw
    rw [hset]
    split
    · subst w
      simp [World.enter, Ticket.new]
    · rename_i hne
      rw [← h.queued w (Nat.lt_of_le_of_ne (Nat.le_of_lt_succ hw) hne)]
      simp [World.enter, hne]
  · intro w hw
    rw [hset]
    split
    · subst w
      simpa [World.enter, Ticket.new] using hnewg
    · rename_i hne
      exact h.granted w (Nat.lt_of_le_of_ne (Nat.le_of_lt_succ hw) hne)
  · intro w hw
    rw [hset]
    split
    · subst w
      simp [World.enter, Ticket.new]
    · rename_i hne
      have hacq := h.acquiring w (Nat.lt_of_le_of_ne (Nat.le_of_lt_succ hw) hne)
      rw [hacq, hfree]
      simp [World.enter, Ne.symm hne]
  · intro w hw
    simp only [World.enter, Option.some.injEq, CriticalSection.acquire.injEq] at hw
    exact hw ▸ Nat.lt_succ_self _
  · refine List.pairwise_append.mpr ⟨h.waiters_sorted, List.pairwise_singleton _ _, ?_⟩
    intro w hw w' hw'
    rw [List.mem_singleton.mp hw']
    exact h.waiters_lt w hw
  · intro w hw
    rcases List.mem_append.mp hw with hw | hw
    · exact Nat.lt_succ_of_lt (h.waiters_lt w hw)
    · rw [List.mem_singleton.mp hw]
      exact Nat.lt_succ_self _
  · intro g hg w hw
    rcases List.mem_append.mp hw with hw | hw
    · exact h.grants_first g hg w hw
    · rw [List.mem_singleton.mp hw]
      exact h.grants_lt g hg

theorem Queued.cancel (h : s.Queued) {ctx : ℕ} {err : E} (hlive : s.ctxErr ctx = none) :
    Queued { s with ctxErr := Function.update s.ctxErr ctx (some err) } := by
  have hkept : ∀ c e, s.ctxErr c = some e →
      Function.update s.ctxErr ctx (some err) c = some e := fun c e he => by
    rw [Function.update_of_ne (by rintro rfl; simp [hlive] at he), he]
  refine ⟨fun w hw => ?_, h.fresh, h.queued, h.granted, h.acquiring, h.acquire_lt,
    h.waiters_sorted, h.waiters_lt, h.grants_sorted, h.grants_lt, h.grants_first⟩
  have hsound := h.sound w hw
  refine ⟨hsound.phased, hsound.hooked, fun e he => hkept _ _ (hsound.errors e he), ?_⟩
  intro hhook
  obtain ⟨e, he⟩ := Option.ne_none_iff_exists'.mp (hsound.fired hhook)
  simp [hkept _ _ he]

end World

/-! ## The counters -/

namespace World

variable {s s' : World E} {t : ℕ} {tk : Ticket E}

theorem Counted.congr (h : s.Counted) (hflag : s'.coordinator.exclusive = s.coordinator.exclusive)
    (hcount : s'.coordinator.shared = s.coordinator.shared)
    (hholders : ∀ exclusive, s'.holders exclusive = s.holders exclusive) : s'.Counted := by
  refine ⟨?_, ?_, ?_⟩
  · rw [hholders, hflag]; exact h.flag
  · rw [hholders, hcount]; exact h.count
  · rw [hflag, hcount]; exact h.apart

theorem holders_setTicket (hholds : tk.holds = (s.ticket t).holds)
    (hkind : tk.exclusive = (s.ticket t).exclusive) (exclusive : Bool) :
    (s.setTicket t tk).holders exclusive = s.holders exclusive := by
  have harrived : (s.setTicket t tk).arrived = s.arrived := rfl
  refine holders_congr harrived (fun w _ => ?_) exclusive
  rw [ticket_setTicket]
  split
  · subst w; exact ⟨hholds, hkind⟩
  · exact ⟨rfl, rfl⟩

theorem holders_enter (ctx : ℕ) (kind exclusive : Bool) :
    (s.enter ctx kind).holders exclusive = s.holders exclusive := by
  ext w
  rw [mem_holders, mem_holders]
  by_cases hw : w = s.arrived
  · subst hw
    simp [World.enter, Ticket.new, Ticket.holds]
  · have hlt : w < s.arrived + 1 ↔ w < s.arrived := by omega
    simp [World.enter, hw, hlt]

theorem holders_unlock (h : s.Queued) (exclusive : Bool) :
    s.unlock.holders exclusive = s.holders exclusive := by
  unfold World.unlock
  split
  · rename_i t hmu
    have hphase := (h.acquiring t (h.acquire_lt t hmu)).mpr hmu
    have hholds : ({ s.ticket t with phase := .registering } : Ticket E).holds =
        (s.ticket t).holds := by
      simp [Ticket.holds, hphase]
    exact holders_setTicket (s := s) hholds rfl exclusive
  · rfl

@[simp] theorem coordinator_unlock : s.unlock.coordinator = s.coordinator := by
  unfold World.unlock
  split <;> rfl

theorem Counted.unlock (h : s.Counted) (hq : s.Queued) : s.unlock.Counted :=
  h.congr (by simp) (by simp) fun exclusive => holders_unlock hq exclusive

theorem holds_push (h : s.Queued) (ht : t ∈ s.coordinator.waiters) (message : Option E) :
    (s.ticket t).holds = false ∧ ((s.ticket t).push message).holds = message.isNone := by
  have hsent := (h.ready_nil ht).2
  rcases h.phase_of_waiting ht with hp | hp | hp <;>
    simp [Ticket.holds, Ticket.push, hp, hsent]

theorem send_eq (h : s.Queued) (ht : t ∈ s.coordinator.waiters) (c : Coordinator)
    (message : Option E) : World.send { s with coordinator := c } t message =
      some { s.setTicket t ((s.ticket t).push message) with
        coordinator := c
        grants := if message.isNone then s.grants ++ [t] else s.grants } := by
  simp [World.send, (h.ready_nil ht).1, World.setTicket]

variable {c : Coordinator}

theorem Counted.send_error (h : s.Counted) (hq : s.Queued) {err : E}
    (ht : t ∈ s.coordinator.waiters)
    (hsend : World.send { s with coordinator := c } t (some err) = some s')
    (hflag : c.exclusive = s.coordinator.exclusive) (hcount : c.shared = s.coordinator.shared) :
    s'.Counted := by
  rw [send_eq hq ht, Option.some.injEq] at hsend
  subst hsend
  obtain ⟨hbefore, hafter⟩ := holds_push hq ht (some err)
  exact h.congr hflag hcount
    fun exclusive => holders_setTicket (s := s) (hafter.trans hbefore.symm) rfl exclusive

theorem card_holders_grant (hq : s.Queued) (ht : t ∈ s.coordinator.waiters)
    (hsend : World.send { s with coordinator := c } t none = some s') (exclusive : Bool) :
    (s'.holders exclusive).card =
      (s.holders exclusive).card + if (s.ticket t).exclusive = exclusive then 1 else 0 := by
  rw [send_eq hq ht, Option.some.injEq] at hsend
  obtain ⟨hbefore, hafter⟩ := holds_push hq ht none
  have harrived : s'.arrived = s.arrived := by rw [← hsend]; rfl
  have hticket : ∀ w, s'.ticket w =
      if w = t then (s.ticket t).push none else s.ticket w := fun w => by
    rw [← hsend]; exact ticket_setTicket w
  refine card_holders_gain (hq.waiters_lt t ht) harrived hbefore ?_ ?_ (fun w hw => ?_) exclusive
  · rw [hticket, if_pos rfl]; exact hafter
  · rw [hticket, if_pos rfl]; rfl
  · rw [hticket, if_neg hw]

theorem coordinator_send {message : Option E}
    (hsend : World.send { s with coordinator := c } t message = some s') :
    s'.coordinator = c ∧ s'.mu = s.mu := by
  unfold World.send at hsend
  split at hsend
  · rw [← Option.some.inj hsend]
    exact ⟨rfl, rfl⟩
  · cases hsend

theorem Counted.grant_exclusive (h : s.Counted) (hq : s.Queued) (ht : t ∈ s.coordinator.waiters)
    (hsend : World.send { s with coordinator := c } t none = some s')
    (hkind : (s.ticket t).exclusive = true) (hgrant : s.Grantable t) (hflag : c.exclusive = true)
    (hcount : c.shared = s.coordinator.shared) : s'.Counted := by
  have hcard := card_holders_grant hq ht hsend
  have hc := (coordinator_send hsend).1
  simp only [Grantable, hkind, if_true] at hgrant
  have hshared : s.coordinator.shared = 0 := by
    have := h.count
    omega
  refine ⟨?_, ?_, fun _ => ?_⟩
  · rw [hcard, h.flag, hc, hflag, hgrant.1]
    simp [hkind]
  · rw [hcard, hc, hcount, h.count]
    simp [hkind]
  · rw [hc, hcount, hshared]

theorem Counted.grant_shared (h : s.Counted) (hq : s.Queued) (ht : t ∈ s.coordinator.waiters)
    (hsend : World.send { s with coordinator := c } t none = some s')
    (hkind : (s.ticket t).exclusive = false) (hgrant : s.Grantable t)
    (hflag : c.exclusive = s.coordinator.exclusive) (hcount : c.shared = s.coordinator.shared + 1) :
    s'.Counted := by
  have hcard := card_holders_grant hq ht hsend
  have hc := (coordinator_send hsend).1
  simp only [Grantable, hkind] at hgrant
  refine ⟨?_, ?_, ?_⟩
  · rw [hcard, h.flag, hc, hflag]
    simp [hkind]
  · rw [hcard, hc, hcount, h.count]
    simp [hkind]
  · rw [hc, hflag]
    intro hexclusive
    simp [hexclusive] at hgrant

theorem Counted.releaseLocked (h : s.Counted) (ht : t < s.arrived)
    (hholds : (s.ticket t).holds = true) {phase : Phase E}
    (hafter : ({ s.ticket t with phase } : Ticket E).holds = false) :
    (s.releaseLocked t phase).Counted := by
  have hcard : ∀ exclusive, (s.holders exclusive).card =
      ((s.releaseLocked t phase).holders exclusive).card +
        if (s.ticket t).exclusive = exclusive then 1 else 0 := fun exclusive => by
    have hgain := @card_holders_gain _ (s.releaseLocked t phase) s t ht rfl
      (by simpa [World.releaseLocked, World.setTicket] using hafter) hholds
      (by simp [World.releaseLocked, World.setTicket])
      (fun w hw => by simp [World.releaseLocked, World.setTicket, hw]) exclusive
    simpa [World.releaseLocked, World.setTicket] using hgain
  have hflag := h.flag
  have hcount := h.count
  rw [hcard] at hflag hcount
  cases hkind : (s.ticket t).exclusive with
  | true =>
      simp only [hkind, if_true] at hflag
      have hexclusive : s.coordinator.exclusive = true := by
        by_contra hne
        simp [hne] at hflag
      refine ⟨?_, ?_, ?_⟩
      · simp only [hexclusive, if_true] at hflag
        simp only [World.releaseLocked, hkind, if_true]
        simpa [World.releaseLocked, hkind] using hflag
      · simpa [World.releaseLocked, hkind] using hcount
      · simp [World.releaseLocked, hkind]
  | false =>
      refine ⟨?_, ?_, ?_⟩
      · simpa [World.releaseLocked, hkind] using hflag
      · simp only [hkind, if_true] at hcount
        have : (s.releaseLocked t phase).coordinator.shared = s.coordinator.shared - 1 := by
          simp [World.releaseLocked, hkind]
        omega
      · intro hexclusive
        have hshared := h.apart (by simpa [World.releaseLocked, hkind] using hexclusive)
        simp only [hkind, if_true] at hcount
        omega

end World

/-! ## One turn of the dispatch loop -/

namespace World

variable {s s' : World E} {t : ℕ}

/-- What one turn does: return at a blocked front, drop a cancelled front, or admit
the front, after an exclusive one returning as well. -/
theorem dispatchTurn_cases (h : s.dispatchTurn = some s') :
    (s' = s.unlock ∧ s.HeadBlocked) ∨
    ∃ t rest, s.coordinator.waiters = t :: rest ∧
      ((∃ err, s.ctxErr (s.ticket t).ctx = some err ∧
        World.send { s with coordinator := { s.coordinator with waiters := rest } }
          t (some err) = some s') ∨
      (s.Grantable t ∧ (s.ticket t).exclusive = true ∧ ∃ granted,
        World.send { s with
          coordinator := { s.coordinator with waiters := rest, exclusive := true } }
          t none = some granted ∧ s' = granted.unlock) ∨
      (s.Grantable t ∧ (s.ticket t).exclusive = false ∧
        World.send { s with
          coordinator :=
            { s.coordinator with waiters := rest, shared := s.coordinator.shared + 1 } }
          t none = some s')) := by
  unfold dispatchTurn at h
  split at h
  · rename_i hnil
    exact Or.inl ⟨(Option.some.inj h).symm, by simp [HeadBlocked, hnil]⟩
  · rename_i t rest hwaiters
    have hhead : ¬ s.Grantable t → s.HeadBlocked := fun hnot w hw => by
      rw [hwaiters, List.head?_cons] at hw
      exact Option.some.inj hw ▸ hnot
    split at h
    · rename_i err herr
      exact Or.inr ⟨t, rest, hwaiters, Or.inl ⟨err, herr, h⟩⟩
    · split at h
      · rename_i hkind
        split at h
        · rename_i hbusy
          refine Or.inl ⟨(Option.some.inj h).symm, hhead fun hgrant => ?_⟩
          simp only [Grantable, hkind, if_true] at hgrant
          simp only [hgrant.1, Bool.false_or, decide_eq_true_eq] at hbusy
          omega
        · rename_i hfree
          simp only [Bool.or_eq_true, decide_eq_true_eq, not_or, not_lt] at hfree
          obtain ⟨granted, hsend, heq⟩ := Option.map_eq_some_iff.mp h
          refine Or.inr ⟨t, rest, hwaiters, Or.inr (Or.inl ⟨?_, hkind, granted, hsend, heq.symm⟩)⟩
          simpa [Grantable, hkind] using hfree
      · rename_i hkind
        have hkind : (s.ticket t).exclusive = false := by simpa using hkind
        split at h
        · rename_i hbusy
          refine Or.inl ⟨(Option.some.inj h).symm, hhead fun hgrant => ?_⟩
          simp [Grantable, hkind, hbusy] at hgrant
        · rename_i hfree
          refine Or.inr ⟨t, rest, hwaiters, Or.inr (Or.inr ⟨?_, hkind, h⟩)⟩
          simpa [Grantable, hkind] using hfree

theorem exists_dispatchTurn (h : s.Queued) : ∃ s', s.dispatchTurn = some s' := by
  unfold dispatchTurn
  split
  · exact ⟨_, rfl⟩
  · rename_i t rest hwaiters
    have hready := (h.ready_nil (t := t) (by simp [hwaiters])).1
    split
    · simp [setWaiters, World.send, hready]
    · split
      · split
        · exact ⟨_, rfl⟩
        · simp [World.send, hready]
      · split
        · exact ⟨_, rfl⟩
        · simp [World.send, hready]

theorem HeadBlocked.unlock (h : s.HeadBlocked) : s.unlock.HeadBlocked := by
  intro t ht
  rw [coordinator_unlock] at ht
  have hkind : (s.unlock.ticket t).exclusive = (s.ticket t).exclusive := by
    unfold World.unlock
    split
    · simp only [ticket_setTicket]
      split
      · subst t; rfl
      · rfl
    · rfl
  have := h t ht
  unfold Grantable at this ⊢
  rwa [hkind, coordinator_unlock]

theorem mu_unlock : s.unlock.mu = none := by
  unfold World.unlock
  split <;> rfl

theorem Queued.front (h : s.Queued) {rest : List ℕ}
    (hwaiters : s.coordinator.waiters = t :: rest) :
    t ∈ s.coordinator.waiters ∧ rest = s.coordinator.waiters.erase t ∧
      ∀ w ∈ s.coordinator.waiters, w ≠ t → t < w := by
  have hsorted := h.waiters_sorted
  rw [hwaiters] at hsorted ⊢
  refine ⟨List.mem_cons_self, by simp, fun w hw hne => ?_⟩
  exact List.rel_of_pairwise_cons hsorted (List.mem_of_ne_of_mem hne hw)

theorem dispatchTurn_inv (hq : s.Queued) (hc : s.Counted) {owner : CriticalSection}
    (hmu : s.mu = some owner) (h : s.dispatchTurn = some s') : s'.Inv := by
  rcases dispatchTurn_cases h with ⟨rfl, hblocked⟩ | ⟨t, rest, hwaiters, hturn⟩
  · exact ⟨hq.unlock, hc.unlock hq, fun _ => hblocked.unlock⟩
  obtain ⟨ht, hrest, hfront⟩ := hq.front hwaiters
  have hheld : ∀ {w : World E}, w.mu = s.mu → w.mu = none → w.HeadBlocked :=
    fun heq hnone => by simp [heq, hmu] at hnone
  rcases hturn with ⟨err, herr, hsend⟩ | ⟨hgrant, hkind, granted, hsend, rfl⟩ |
    ⟨hgrant, hkind, hsend⟩
  · refine ⟨hq.send ht hsend hrest (fun e he => ?_) (fun hnone => by cases hnone),
      hc.send_error hq ht hsend rfl rfl, hheld (coordinator_send hsend).2⟩
    rw [herr, Option.some.inj he]
  · have hq' := hq.send ht hsend hrest (fun e he => by cases he) (fun _ => hfront)
    have hc' := hc.grant_exclusive hq ht hsend hkind hgrant rfl rfl
    refine ⟨hq'.unlock, hc'.unlock hq', fun _ => HeadBlocked.unlock fun w hw => ?_⟩
    -- the flag is set, which blocks every waiter
    simp [Grantable, (coordinator_send hsend).1]
  · exact ⟨hq.send ht hsend hrest (fun e he => by cases he) (fun _ => hfront),
      hc.grant_shared hq ht hsend hkind hgrant rfl rfl, hheld (coordinator_send hsend).2⟩

theorem dispatchTurn_shorter (h : s.dispatchTurn = some s') : s'.mu = none ∨
    s'.mu = s.mu ∧ s'.coordinator.waiters.length < s.coordinator.waiters.length := by
  rcases dispatchTurn_cases h with ⟨rfl, -⟩ | ⟨t, rest, hwaiters, hturn⟩
  · exact Or.inl mu_unlock
  rcases hturn with ⟨err, -, hsend⟩ | ⟨-, -, granted, -, rfl⟩ | ⟨-, -, hsend⟩
  · obtain ⟨hc, hmu⟩ := coordinator_send hsend
    exact Or.inr ⟨hmu, by simp [hc, hwaiters]⟩
  · exact Or.inl mu_unlock
  · obtain ⟨hc, hmu⟩ := coordinator_send hsend
    exact Or.inr ⟨hmu, by simp [hc, hwaiters]⟩

end World

/-! ## Every step -/

namespace World

variable {s s' : World E} {t : ℕ} {tk : Ticket E}

theorem Inv.setTicket (h : s.Inv) (ht : t < s.arrived)
    (hsent : tk.sent = (s.ticket t).sent)
    (hphase : tk.phase = .acquiring ↔ (s.ticket t).phase = .acquiring)
    (hsound : tk.Sound (s.ctxErr tk.ctx)) (hholds : tk.holds = (s.ticket t).holds)
    (hkind : tk.exclusive = (s.ticket t).exclusive) : (s.setTicket t tk).Inv := by
  refine ⟨h.toQueued.setTicket ht hsent hphase hsound,
    h.toCounted.congr rfl rfl (holders_setTicket hholds hkind), fun hfree w hw => ?_⟩
  have hblocked := h.blocked hfree w hw
  unfold Grantable at hblocked ⊢
  rw [ticket_setTicket]
  split
  · subst w; rwa [hkind]
  · exact hblocked

theorem register_inv (h : s.Inv) (hp : (s.ticket t).phase = .registering) :
    (s.setTicket t { s.ticket t with phase := .waiting, hook := .armed }).Inv := by
  have ht := h.lt_of_phase (t := t) (by simp [hp])
  have hsound := h.sound t ht
  refine h.setTicket ht rfl (by simp [hp]) ⟨?_, ?_, hsound.errors, fun hh => by cases hh⟩
    (by simp [Ticket.holds, hp]) rfl
  · simpa [Ticket.Phased, hp] using hsound.phased
  · exact fun _ => Or.inl rfl

theorem fire_inv (h : s.Inv) (hh : (s.ticket t).hook = .armed)
    (hctx : s.ctxErr (s.ticket t).ctx ≠ none) :
    (s.setTicket t { s.ticket t with hook := .started }).Inv := by
  have ht := h.lt_of_hook (t := t) (by simp [hh])
  have hsound := h.sound t ht
  refine h.setTicket ht rfl Iff.rfl ⟨hsound.phased, ?_, hsound.errors, fun _ => hctx⟩ rfl rfl
  have hhooked := hsound.hooked
  cases hp : (s.ticket t).phase with
  | acquiring => simp [Ticket.Hooked, hp, hh] at hhooked
  | registering => simp [Ticket.Hooked, hp, hh] at hhooked
  | waiting => simp [Ticket.Hooked, hp]
  | received | stopped | givingBack | holding | failed | released => simp [Ticket.Hooked, hp]

theorem receive_inv (h : s.Inv) {message : Option E} {ready : List (Option E)}
    (hp : (s.ticket t).phase = .waiting) (hready : (s.ticket t).ready = message :: ready) :
    (s.setTicket t { s.ticket t with ready, phase := .received message }).Inv := by
  have ht := h.lt_of_phase (t := t) (by simp [hp])
  have hsound := h.sound t ht
  have hphased := hsound.phased
  simp only [Ticket.Phased, hp, hready] at hphased
  refine h.setTicket ht rfl (by simp [hp]) ⟨?_, trivial, hsound.errors, hsound.fired⟩
    (by simp [Ticket.holds, hp]) rfl
  obtain ⟨hsent, hone⟩ := hphased
  rw [← hsent, List.length_cons] at hone
  have hnil : ready = [] := List.eq_nil_of_length_eq_zero (by omega)
  subst hnil
  exact ⟨rfl, hsent.symm⟩

theorem stop_inv (h : s.Inv) {message : Option E}
    (hp : (s.ticket t).phase = .received message) :
    (s.setTicket t { s.ticket t with
      phase := .stopped message
      hook := if (s.ticket t).hook = .armed then .stopped else (s.ticket t).hook }).Inv := by
  have ht := h.lt_of_phase (t := t) (by simp [hp])
  have hsound := h.sound t ht
  refine h.setTicket ht rfl (by simp [hp]) ⟨?_, trivial, hsound.errors, fun hh => ?_⟩
    (by simp [Ticket.holds, hp]) rfl
  · simpa [Ticket.Phased, hp] using hsound.phased
  · refine hsound.fired ?_
    dsimp only at hh
    split at hh
    · cases hh
    · exact hh

theorem check_inv (h : s.Inv) {message : Option E} {phase : Phase E}
    (hp : (s.ticket t).phase = .stopped message)
    (hnext : match message with
      | some err => phase = .failed err
      | none => phase = .holding ∨ ∃ err, phase = .givingBack err) :
    (s.setTicket t { s.ticket t with phase }).Inv := by
  have ht := h.lt_of_phase (t := t) (by simp [hp])
  have hsound := h.sound t ht
  have hphased := hsound.phased
  simp only [Ticket.Phased, hp] at hphased
  cases message with
  | some err =>
      subst hnext
      refine h.setTicket ht rfl (by simp [hp]) ⟨?_, trivial, hsound.errors, hsound.fired⟩
        (by simp [Ticket.holds, hp, hphased.2]) rfl
      exact ⟨hphased.1, Or.inr hphased.2⟩
  | none =>
      rcases hnext with rfl | ⟨err, rfl⟩
      · exact h.setTicket ht rfl (by simp [hp])
          ⟨hphased, trivial, hsound.errors, hsound.fired⟩ (by simp [Ticket.holds, hp]) rfl
      · exact h.setTicket ht rfl (by simp [hp])
          ⟨hphased, trivial, hsound.errors, hsound.fired⟩ (by simp [Ticket.holds, hp]) rfl

theorem releaseLocked_inv (h : s.Inv) (hfree : s.mu = none) {phase : Phase E}
    (hp : (s.ticket t).phase = .holding ∧ phase = .released ∨
      ∃ err, (s.ticket t).phase = .givingBack err ∧ phase = .failed err) :
    (s.releaseLocked t phase).Inv := by
  have hne : (s.ticket t).phase ≠ .acquiring := by
    rcases hp with ⟨hp, -⟩ | ⟨err, hp, -⟩ <;> simp [hp]
  have ht := h.lt_of_phase hne
  have hsound := h.sound t ht
  have hphased : (s.ticket t).ready = [] ∧ (s.ticket t).sent = [none] := by
    have hphased := hsound.phased
    rcases hp with ⟨hp, -⟩ | ⟨err, hp, -⟩ <;> simpa [Ticket.Phased, hp] using hphased
  have hsound' : ({ s.ticket t with phase } : Ticket E).Sound (s.ctxErr (s.ticket t).ctx) := by
    rcases hp with ⟨-, rfl⟩ | ⟨err, -, rfl⟩
    · exact ⟨hphased, trivial, hsound.errors, hsound.fired⟩
    · exact ⟨⟨hphased.1, Or.inl hphased.2⟩, trivial, hsound.errors, hsound.fired⟩
  have hholds : (s.ticket t).holds = true := by
    rcases hp with ⟨hp, -⟩ | ⟨err, hp, -⟩ <;> simp [Ticket.holds, hp, hphased.2]
  have hafter : ({ s.ticket t with phase } : Ticket E).holds = false := by
    rcases hp with ⟨-, rfl⟩ | ⟨err, -, rfl⟩ <;> rfl
  have hacq : phase = .acquiring ↔ (s.ticket t).phase = .acquiring :=
    iff_of_false (by rcases hp with ⟨-, rfl⟩ | ⟨err, -, rfl⟩ <;> simp) hne
  refine ⟨?_, h.toCounted.releaseLocked ht hholds hafter, fun hnone => by cases hnone⟩
  have hset : (s.setTicket t { s.ticket t with phase }).Queued :=
    h.toQueued.setTicket ht rfl hacq hsound'
  exact hset.lock hfree (fun t' heq => by cases heq) (by split <;> rfl)

theorem runCallback_inv (h : s.Inv) (hfree : s.mu = none) (hh : (s.ticket t).hook = .started)
    (hrun : s.runCallback t = some s') : s'.Inv := by
  have ht := h.lt_of_hook (t := t) (by simp [hh])
  have hlock : (s.lock (.callback t)).Queued :=
    h.toQueued.lock hfree (fun t' heq => by cases heq) rfl
  have hlockc : (s.lock (.callback t)).Counted := h.toCounted.congr rfl rfl fun _ => rfl
  obtain ⟨answered, hanswered, rfl⟩ := Option.map_eq_some_iff.mp hrun
  have hmid : answered.Queued ∧ answered.Counted ∧ answered.mu = some (.callback t) ∧
      answered.arrived = s.arrived ∧ (answered.ticket t).sent ≠ [] ∧
      (answered.ticket t).hook = .started := by
    split at hanswered
    · rename_i hmem
      obtain ⟨err, herr⟩ := Option.ne_none_iff_exists'.mp ((h.sound t ht).fired hh)
      rw [herr] at hanswered
      refine ⟨hlock.send hmem hanswered rfl (fun e he => ?_) (fun hnone => by cases hnone),
        hlockc.send_error hlock hmem hanswered rfl rfl, (coordinator_send hanswered).2, ?_⟩
      · rw [← he]; exact herr
      · have heq := send_eq hlock hmem
          { s.coordinator with waiters := s.coordinator.waiters.erase t } (some err)
        rw [Option.some.inj (hanswered.symm.trans heq)]
        refine ⟨rfl, ?_, ?_⟩ <;> simp [World.setTicket, Ticket.push, World.lock, hh]
    · rename_i hmem
      rw [← Option.some.inj hanswered]
      exact ⟨hlock, hlockc, rfl, rfl, fun hnil => hmem ((h.queued t ht).mpr hnil), hh⟩
  obtain ⟨hq, hc, hmu, harrived, hsent, hhook⟩ := hmid
  have hlt : t < answered.arrived := harrived ▸ ht
  have hsound := hq.sound t hlt
  refine ⟨hq.setTicket hlt rfl Iff.rfl ⟨hsound.phased, ?_, hsound.errors, fun he => by cases he⟩,
    hc.congr rfl rfl (holders_setTicket rfl rfl), fun hnone => ?_⟩
  · have hhooked := hsound.hooked
    cases hp : (answered.ticket t).phase with
    | acquiring => simp [Ticket.Hooked, hp, hhook] at hhooked
    | registering => simp [Ticket.Hooked, hp, hhook] at hhooked
    | waiting => simp [Ticket.Hooked, hp, hsent]
    | received | stopped | givingBack | holding | failed | released => simp [Ticket.Hooked, hp]
  · rw [mu_setTicket, hmu] at hnone
    cases hnone

theorem enter_inv (h : s.Inv) (hfree : s.mu = none) (ctx : ℕ) (exclusive : Bool) :
    (s.enter ctx exclusive).Inv :=
  ⟨h.toQueued.enter hfree ctx exclusive,
    h.toCounted.congr rfl rfl (holders_enter ctx exclusive), fun hnone => by cases hnone⟩

theorem cancel_inv (h : s.Inv) {ctx : ℕ} {err : E} (hlive : s.ctxErr ctx = none) :
    Inv { s with ctxErr := Function.update s.ctxErr ctx (some err) } :=
  ⟨h.toQueued.cancel hlive, h.toCounted.congr rfl rfl fun _ => rfl, h.blocked⟩

theorem step_inv (h : s.Inv) {e : Event E} (hstep : s.step e = some s') : s'.Inv := by
  cases e with
  | acquire ctx exclusive =>
      simp only [step] at hstep
      split at hstep
      · rename_i hfree
        exact Option.some.inj hstep ▸ enter_inv h hfree ctx exclusive
      · cases hstep
  | dispatch =>
      simp only [step] at hstep
      split at hstep
      · cases hstep
      · rename_i owner hmu
        exact dispatchTurn_inv h.toQueued h.toCounted hmu hstep
  | register t =>
      simp only [step] at hstep
      split at hstep
      · rename_i hp
        exact Option.some.inj hstep ▸ register_inv h hp
      · cases hstep
  | fire t =>
      simp only [step] at hstep
      split at hstep
      · rename_i err hh hctx
        exact Option.some.inj hstep ▸ fire_inv h hh (by simp [hctx])
      · cases hstep
  | callback t =>
      simp only [step] at hstep
      split at hstep
      · rename_i hh hfree
        exact runCallback_inv h hfree hh hstep
      · cases hstep
  | receive t =>
      simp only [step] at hstep
      split at hstep
      · rename_i message ready hp hready
        exact Option.some.inj hstep ▸ receive_inv h hp hready
      · cases hstep
  | stop t =>
      simp only [step] at hstep
      split at hstep
      · rename_i message hp
        exact Option.some.inj hstep ▸ stop_inv h hp
      · cases hstep
  | check t =>
      simp only [step] at hstep
      split at hstep
      · rename_i err hp
        exact Option.some.inj hstep ▸ check_inv h hp rfl
      · rename_i hp
        split at hstep
        · rename_i err _
          exact Option.some.inj hstep ▸ check_inv h hp (Or.inr ⟨err, rfl⟩)
        · exact Option.some.inj hstep ▸ check_inv h hp (Or.inl rfl)
      · cases hstep
  | giveBack t =>
      simp only [step] at hstep
      split at hstep
      · rename_i err hp hfree
        exact Option.some.inj hstep ▸ releaseLocked_inv h hfree (Or.inr ⟨err, hp, rfl⟩)
      · cases hstep
  | release t =>
      simp only [step] at hstep
      split at hstep
      · rename_i hp hfree
        exact Option.some.inj hstep ▸ releaseLocked_inv h hfree (Or.inl ⟨hp, rfl⟩)
      · cases hstep
  | cancel ctx err =>
      simp only [step] at hstep
      split at hstep
      · rename_i hlive
        exact Option.some.inj hstep ▸ cancel_inv h hlive
      · cases hstep

theorem initial_inv : (World.initial : World E).Inv := by
  have hholders : ∀ exclusive, (World.initial : World E).holders exclusive = ∅ := fun _ => rfl
  have hnone : ∀ t, t ∉ (World.initial : World E).coordinator.waiters := fun t => List.not_mem_nil
  have hearly : ∀ t, ¬ t < (World.initial : World E).arrived := fun t => Nat.not_lt_zero t
  have hqueued : (World.initial : World E).Queued := by
    constructor
    · exact fun t ht => absurd ht (hearly t)
    · exact fun _ _ => rfl
    · exact fun t ht => absurd ht (hearly t)
    · exact fun t ht => absurd ht (hearly t)
    · exact fun t ht => absurd ht (hearly t)
    · exact fun t ht => by cases ht
    · exact List.Pairwise.nil
    · exact fun w hw => absurd hw (hnone w)
    · exact List.Pairwise.nil
    · exact fun g hg => absurd hg List.not_mem_nil
    · exact fun g hg => absurd hg List.not_mem_nil
  refine ⟨hqueued, ⟨?_, ?_, fun _ => rfl⟩, fun _ t ht => by cases ht⟩
  · rw [hholders]; rfl
  · rw [hholders]; rfl

theorem reached_inv (h : Reached s) : s.Inv :=
  h.invariant initial_inv fun _ _ _ hinv _ hstep => step_inv hinv hstep

end World

/-! ## What every run keeps -/

namespace World

/-- What holds of the coordinator whatever its callers do. -/
structure Safe (s : World E) : Prop where
  /-- An exclusive holder is the only holder. -/
  exclusion : ∀ t t', (∃ kind, t ∈ s.holders kind) → t' ∈ s.holders true → t = t'
  flag : (s.holders true).card = if s.coordinator.exclusive then 1 else 0
  count : s.coordinator.shared = (s.holders false).card
  /-- One message to every ticket, when it leaves the queue. -/
  message : ∀ t < s.arrived,
    (s.ticket t).sent.length = if t ∈ s.coordinator.waiters then 0 else 1
  /-- Grants are sent in the order of arrival, and only a cancelled ticket is passed over. -/
  order : s.grants.Pairwise (· < ·) ∧ ∀ g ∈ s.grants, ∀ t < g, t ∈ s.grants ∨
    ∃ err, (s.ticket t).sent = [some err] ∧ s.ctxErr (s.ticket t).ctx = some err
  /-- A critical section ends. -/
  sectionEnds : ∃ s', Run (fun s e s' => World.step s e = some s')
    (fun _ e => e = .dispatch) s s' ∧ s'.mu = none
  /-- With the mutex free the front of the queue cannot be granted. -/
  frontBlocked : s.mu = none → ∀ t ∈ s.coordinator.waiters.head?, ¬ s.Grantable t
  /-- With the mutex free, the first live waiter can be granted only behind cancelled
  waiters whose callbacks are still to run. -/
  liveBlocked : s.mu = none → ∀ t, s.FirstLive t → s.Grantable t →
    ∃ before after, s.coordinator.waiters = before ++ t :: after ∧ before ≠ [] ∧
      ∀ w ∈ before, (s.ctxErr (s.ticket w).ctx).isSome ∧ s.CallbackDue w
  /-- With the mutex free, waiters wait for a holder. -/
  waits : s.mu = none → s.coordinator.waiters ≠ [] → ∃ kind t, t ∈ s.holders kind

variable {s : World E} {t : ℕ}

theorem Queued.callbackDue (h : s.Queued) (hfree : s.mu = none)
    (ht : t ∈ s.coordinator.waiters) : s.CallbackDue t := by
  have hlt := h.waiters_lt t ht
  rcases h.phase_of_waiting ht with hp | hp | hp
  · have := (h.acquiring t hlt).mp hp
    rw [hfree] at this
    cases this
  · exact Or.inl hp
  · have hhooked := (h.sound t hlt).hooked
    simp only [Ticket.Hooked, hp] at hhooked
    exact Or.inr (hhooked (h.ready_nil ht).2)

theorem Queued.sent_length (h : s.Queued) (ht : t < s.arrived) :
    (s.ticket t).sent.length = if t ∈ s.coordinator.waiters then 0 else 1 := by
  split
  · rename_i hw
    rw [(h.queued t ht).mp hw]
    rfl
  · rename_i hw
    have hne : (s.ticket t).sent ≠ [] := fun hnil => hw ((h.queued t ht).mpr hnil)
    have hphased := (h.sound t ht).phased
    have hle : (s.ticket t).sent.length ≤ 1 := by
      unfold Ticket.Phased at hphased
      split at hphased
      all_goals first | exact hphased.2 | exact (congrArg List.length hphased.2).le | skip
      rcases hphased.2 with heq | heq <;> simp [heq]
    have := List.length_pos_of_ne_nil hne
    omega

theorem Queued.passed_over (h : s.Queued) {g : ℕ} (hg : g ∈ s.grants) (ht : t < g) :
    t ∈ s.grants ∨
      ∃ err, (s.ticket t).sent = [some err] ∧ s.ctxErr (s.ticket t).ctx = some err := by
  have hlt : t < s.arrived := ht.trans (h.grants_lt g hg)
  have hnot : t ∉ s.coordinator.waiters := fun hw =>
    absurd (h.grants_first g hg t hw) (not_lt.mpr ht.le)
  have hlen := h.sent_length hlt
  rw [if_neg hnot] at hlen
  obtain ⟨message, hmessage⟩ := List.length_eq_one_iff.mp hlen
  cases message with
  | none =>
      refine Or.inl ((h.granted t hlt).mpr ?_)
      rw [hmessage]
      exact List.mem_singleton_self _
  | some err =>
      refine Or.inr ⟨err, hmessage, (h.sound t hlt).errors err ?_⟩
      rw [hmessage]
      exact List.mem_singleton_self _

theorem Inv.sectionEnds {s : World E} (h : s.Inv) :
    ∃ s', Run (fun s e s' => World.step s e = some s') (fun _ e => e = .dispatch) s s' ∧
      s'.mu = none := by
  induction hn : s.coordinator.waiters.length using Nat.strong_induction_on generalizing s with
  | _ n ih =>
      rcases hmu : s.mu with _ | owner
      · exact ⟨s, Run.refl s, hmu⟩
      · obtain ⟨mid, hturn⟩ := exists_dispatchTurn h.toQueued
        have hstep : s.step .dispatch = some mid := by
          simp only [step, hmu]
          exact hturn
        have hrun : Run (fun s e s' => World.step s e = some s') (fun _ e => e = .dispatch)
            s mid := (Run.refl s).tail rfl hstep
        rcases dispatchTurn_shorter hturn with hfree | ⟨-, hshorter⟩
        · exact ⟨mid, hrun, hfree⟩
        · obtain ⟨s', hrest, hfree⟩ := ih _ (hn ▸ hshorter) (step_inv h hstep) rfl
          exact ⟨s', hrun.trans hrest, hfree⟩

theorem Inv.exclusion (h : s.Inv) {t' : ℕ} (ht : ∃ kind, t ∈ s.holders kind)
    (ht' : t' ∈ s.holders true) : t = t' := by
  obtain ⟨kind, ht⟩ := ht
  have hflag : s.coordinator.exclusive = true := by
    by_contra hne
    have hzero := h.flag
    rw [if_neg hne, Finset.card_eq_zero] at hzero
    simp [hzero] at ht'
  cases kind with
  | true =>
      have hone := h.flag
      rw [hflag, if_pos rfl] at hone
      exact Finset.card_le_one.mp hone.le t ht t' ht'
  | false =>
      have hcount := h.count
      rw [h.apart hflag] at hcount
      have hempty : s.holders false = ∅ := Finset.card_eq_zero.mp (by omega)
      simp [hempty] at ht

theorem Inv.holder_of_waiter (h : s.Inv) (hfree : s.mu = none)
    (hwaiters : s.coordinator.waiters ≠ []) : ∃ kind t, t ∈ s.holders kind := by
  have hblocked := h.blocked hfree _ (List.head?_eq_some_head hwaiters)
  by_contra hnone
  have hempty : ∀ kind, s.holders kind = ∅ := fun kind =>
    Finset.eq_empty_of_forall_notMem fun t ht => hnone ⟨kind, t, ht⟩
  have hflag : s.coordinator.exclusive = false := by
    have := h.flag
    rw [hempty] at this
    by_contra hne
    simp [hne] at this
  have hcount : s.coordinator.shared = 0 := by
    rw [h.count, hempty]
    rfl
  refine hblocked ?_
  unfold Grantable
  split
  · exact ⟨hflag, hcount.le⟩
  · exact hflag

end World

/-- The coordinator excludes, counts, answers every ticket once and in order, and
forgets no waiter. -/
theorem coordinator_safe {s : World E} (h : Reached s) : s.Safe := by
  have hinv := World.reached_inv h
  constructor
  · exact fun t t' => hinv.exclusion
  · exact hinv.flag
  · exact hinv.count
  · exact fun t => hinv.sent_length
  · exact ⟨hinv.grants_sorted, fun g hg t => hinv.passed_over hg⟩
  · exact hinv.sectionEnds
  · exact hinv.blocked
  · intro hfree t hlive hgrant
    obtain ⟨before, after, hwaiters, hcancelled, -⟩ := hlive
    refine ⟨before, after, hwaiters, ?_, fun w hw => ⟨hcancelled w hw, ?_⟩⟩
    · rintro rfl
      exact hinv.blocked hfree t (by simp [hwaiters]) hgrant
    · exact hinv.callbackDue hfree (by simp [hwaiters, hw])
  · exact hinv.holder_of_waiter

/-! ## A cancelled front -/

/-- A shared holder, an exclusive waiter and a shared one behind it; the exclusive
one is cancelled and its callback has not run. -/
def cancelledFront : List (Event Unit) :=
  [.acquire 0 false, .dispatch, .dispatch, .acquire 1 true, .dispatch,
    .acquire 2 false, .dispatch, .cancel 1 ()]

theorem cancelledFront_reached : ∃ s : World Unit, Reached s ∧ s.mu = none ∧
    s.coordinator = { exclusive := false, shared := 1, waiters := [1, 2] } ∧
    (s.ctxErr (s.ticket 1).ctx).isSome ∧ s.ctxErr (s.ticket 2).ctx = none ∧
    (s.ticket 2).exclusive = false :=
  ⟨_, Run.of_foldlM (show cancelledFront.foldlM World.step World.initial = some _ from rfl),
    rfl, rfl, rfl, rfl, rfl⟩

/-- Between the cancellation of the front and its callback the first live waiter
could be granted and is not. -/
theorem live_waiter_delayed : ¬ ∀ s : World Unit, Reached s → s.mu = none →
    ∀ t, s.FirstLive t → ¬ s.Grantable t := by
  intro hall
  obtain ⟨s, hreached, hfree, hcoordinator, hcancelled, hlive, hkind⟩ := cancelledFront_reached
  refine hall s hreached hfree 2 ⟨[1], [], by rw [hcoordinator]; rfl, ?_, hlive⟩ ?_
  · intro w hw
    rw [List.mem_singleton.mp hw]
    exact hcancelled
  · simp [World.Grantable, hkind, hcoordinator]

theorem coordinator_safe_demo : ∃ s : World Unit, Reached s ∧
    s.coordinator = { exclusive := false, shared := 1, waiters := [1, 2] } ∧ s.Safe := by
  obtain ⟨s, hreached, -, hcoordinator, -⟩ := cancelledFront_reached
  exact ⟨s, hreached, hcoordinator, coordinator_safe hreached⟩

end Nipa.Daemon
