import Mathlib.Data.List.Nodup
import Nipa.Client.TransferLimiter
import Nipa.Support.Cutting
import Nipa.Support.Strings

/-!
# The pool that transfers chunks

A feed emits jobs one by one to a pool of workers that each take a token of the transfer
limiter and run the job.  The first failure cancels the work; the feed stops when emitting
finds the work cancelled.  A download feeds the jobs of its windows of URLs.
-/

namespace Nipa

open Support (Run Cutter Str)

namespace Transfer

/-- The jobs that a feed emits and what it returns after the last one. -/
structure Feed (J E : Type) where
  jobs : List J
  err : Option E

/-- What a pool is started with: its workers and the function they run, which sees and
changes a state shared by all of them and whatever answers it gets. -/
structure Work (J E W O : Type) where
  workers : ℕ
  canceled : E
  fn : W → J → O → W × Option E

inductive PoolPhase (E : Type) where
  | feeding
  /-- The feed has returned and the channel of jobs is closed. -/
  | closed
  | returned (err : Option E)
  deriving DecidableEq

/-- A running pool. -/
structure Pool (J E W : Type) where
  /-- What the feed has not emitted yet. -/
  feed : Feed J E
  phase : PoolPhase E
  /-- Workers that wait for a job. -/
  idle : ℕ
  /-- Jobs whose workers wait for a token. -/
  acquiring : List J
  running : List J
  /-- Errors of workers that have not reported them yet. -/
  failing : List E
  exited : ℕ
  firstErr : Option E
  ctxErr : Option E
  shared : W
  /-- Jobs that ran without an error. -/
  succeeded : List J
  /-- Jobs that failed or were never run. -/
  lost : List J

inductive PoolEvent (J E O : Type) where
  /-- `emit` hands a job to a worker. -/
  | emit
  /-- `emit` finds the work cancelled, and the feed returns. -/
  | refuse
  /-- The feed returns after its last job. -/
  | feedEnds
  | acquire (job : J)
  /-- `acquire` finds the work cancelled. -/
  | acquireFails (job : J)
  | perform (job : J) (answer : O)
  | fail (err : E)
  /-- A worker finds the channel of jobs closed. -/
  | workerDone
  /-- The context of the caller ends. -/
  | callerDone (err : E)
  | finish

variable {J E W O : Type}

def runChunks (T : Work J E W O) (feed : Feed J E) (shared : W) : Pool J E W where
  feed := feed
  phase := .feeding
  idle := T.workers
  acquiring := []
  running := []
  failing := []
  exited := 0
  firstErr := none
  ctxErr := none
  shared := shared
  succeeded := []
  lost := []

namespace Pool

/-- Only the first failure is kept, and it cancels the work. -/
def fail (T : Work J E W O) (p : Pool J E W) (err : E) : Pool J E W :=
  if p.firstErr.isSome then p
  else { p with firstErr := some err, ctxErr := p.ctxErr.or (some T.canceled) }

/-- What follows the feed in `runChunks`. -/
def fed (T : Work J E W O) (p : Pool J E W) (feedErr : Option E) : Pool J E W :=
  match feedErr with
  | some err => { p.fail T err with phase := .closed }
  | none => { p with phase := .closed }

variable [DecidableEq J] [DecidableEq E]

def step (T : Work J E W O) (p : Pool J E W) : PoolEvent J E O → Option (Pool J E W)
  | .emit =>
      match p.feed.jobs with
      | job :: jobs =>
          if p.phase = .feeding ∧ 0 < p.idle then
            some { p with
              feed := { p.feed with jobs := jobs }
              idle := p.idle - 1
              acquiring := job :: p.acquiring }
          else none
      | [] => none
  | .refuse =>
      if p.phase = .feeding ∧ p.feed.jobs ≠ [] ∧ p.ctxErr.isSome then some (p.fed T none)
      else none
  | .feedEnds =>
      if p.phase = .feeding ∧ p.feed.jobs = [] then some (p.fed T p.feed.err) else none
  | .acquire job =>
      if job ∈ p.acquiring then
        some { p with acquiring := p.acquiring.erase job, running := job :: p.running }
      else none
  | .acquireFails job =>
      match p.ctxErr with
      | some err =>
          if job ∈ p.acquiring then
            some { p with
              acquiring := p.acquiring.erase job
              failing := err :: p.failing
              lost := job :: p.lost }
          else none
      | none => none
  | .perform job answer =>
      if job ∈ p.running then
        let p := { p with running := p.running.erase job }
        match T.fn p.shared job answer with
        | (shared, none) =>
            some { p with
              shared := shared
              idle := p.idle + 1
              succeeded := job :: p.succeeded }
        | (shared, some err) =>
            some { p with shared := shared, failing := err :: p.failing, lost := job :: p.lost }
      else none
  | .fail err =>
      if err ∈ p.failing then
        some ({ p with failing := p.failing.erase err, exited := p.exited + 1 }.fail T err)
      else none
  | .workerDone =>
      if p.phase ≠ .feeding ∧ 0 < p.idle then
        some { p with idle := p.idle - 1, exited := p.exited + 1 }
      else none
  | .callerDone err => some { p with ctxErr := p.ctxErr.or (some err) }
  | .finish =>
      if p.phase = .closed ∧ p.exited = T.workers then
        some { p with
          phase := .returned p.firstErr
          ctxErr := p.ctxErr.or (some T.canceled) }
      else none

end Pool

section Runs

variable [DecidableEq J] [DecidableEq E]

/-- Runs of a pool whose steps meet a condition. -/
abbrev PoolRun (T : Work J E W O) (P : Pool J E W → PoolEvent J E O → Prop)
    (p p' : Pool J E W) : Prop :=
  Run (fun s e s' => Pool.step T s e = some s') P p p'

/-- `emit` refuses a job only after a failure was reported. -/
def RefusesAfterFailure (p : Pool J E W) : PoolEvent J E O → Prop
  | .refuse => p.firstErr.isSome
  | _ => True

/-! ## What every step keeps -/

namespace Pool

/-- The error that `runChunks` is going to return, or has returned, is there already. -/
def Alarmed (p : Pool J E W) : Prop :=
  match p.phase with
  | .returned err => err ≠ none
  | _ => p.failing ≠ [] ∨ p.firstErr ≠ none

structure Inv (T : Work J E W O) (feed : Feed J E) (p : Pool J E W) : Prop where
  /-- Every job is at one place. -/
  jobs_count : ∀ j, p.feed.jobs.count j + p.acquiring.count j + p.running.count j +
    p.succeeded.count j + p.lost.count j = feed.jobs.count j
  workers_eq :
    p.idle + p.acquiring.length + p.running.length + p.failing.length + p.exited = T.workers
  returned_exited : ∀ err, p.phase = .returned err → p.exited = T.workers
  feed_err : p.feed.err = feed.err
  lost : p.lost ≠ [] → p.Alarmed
  fed : p.phase ≠ .feeding → p.feed.jobs = [] ∧ feed.err = none ∨ p.Alarmed

variable {T : Work J E W O} {feed : Feed J E} {p p' : Pool J E W} {e : PoolEvent J E O}

section Failures

omit [DecidableEq J] [DecidableEq E]

theorem fail_eq (T : Work J E W O) (p : Pool J E W) (err : E) :
    ∃ firstErr ctxErr, p.fail T err = { p with firstErr := firstErr, ctxErr := ctxErr } ∧
      firstErr ≠ none := by
  unfold fail
  split
  case isTrue hset => exact ⟨p.firstErr, p.ctxErr, rfl, Option.isSome_iff_ne_none.mp hset⟩
  case isFalse => exact ⟨some err, _, rfl, Option.some_ne_none err⟩

theorem fed_eq (T : Work J E W O) (p : Pool J E W) (feedErr : Option E) :
    ∃ firstErr ctxErr,
      p.fed T feedErr
        = { p with phase := .closed, firstErr := firstErr, ctxErr := ctxErr } ∧
      (p.firstErr ≠ none → firstErr ≠ none) ∧ (feedErr ≠ none → firstErr ≠ none) := by
  unfold fed
  cases feedErr with
  | none => exact ⟨p.firstErr, p.ctxErr, rfl, id, fun hne => absurd rfl hne⟩
  | some err =>
      obtain ⟨firstErr, ctxErr, heq, hset⟩ := fail_eq T p err
      refine ⟨firstErr, ctxErr, ?_, fun _ => hset, fun _ => hset⟩
      dsimp only
      rw [heq]

theorem Alarmed.mono (halarmed : p.Alarmed) (hphase : p'.phase = p.phase)
    (hfailing : p.failing ≠ [] → p'.failing ≠ [] ∨ p'.firstErr ≠ none)
    (hfirst : p.firstErr ≠ none → p'.firstErr ≠ none) : p'.Alarmed := by
  unfold Alarmed at *
  rw [hphase]
  cases hcase : p.phase with
  | returned err =>
      rw [hcase] at halarmed
      exact halarmed
  | _ =>
      rw [hcase] at halarmed
      exact Or.elim halarmed hfailing fun hset => Or.inr (hfirst hset)

theorem alarmed_of_not_returned (hphase : ∀ err, p.phase ≠ .returned err)
    (hset : p.failing ≠ [] ∨ p.firstErr ≠ none) : p.Alarmed := by
  unfold Alarmed
  cases hcase : p.phase with
  | returned err => exact absurd hcase (hphase err)
  | _ => exact hset

end Failures

omit [DecidableEq E] in
theorem Inv.not_returned (hinv : p.Inv T feed)
    (hworking : 0 < p.idle + p.acquiring.length + p.running.length + p.failing.length)
    (err : Option E) : p.phase ≠ .returned err := by
  intro hreturned
  have hworkers := hinv.workers_eq
  have hall := hinv.returned_exited err hreturned
  omega

/-- What a step does: what its event needs, and what changes. -/
inductive Moves (T : Work J E W O) (p : Pool J E W) : PoolEvent J E O → Pool J E W → Prop
  | emitted {job jobs} (hjobs : p.feed.jobs = job :: jobs) (hfeeding : p.phase = .feeding)
      (hidle : 0 < p.idle) :
      Moves T p .emit { p with
        feed := { p.feed with jobs := jobs }
        idle := p.idle - 1
        acquiring := job :: p.acquiring }
  | refused {firstErr ctxErr} (hfeeding : p.phase = .feeding)
      (hkept : p.firstErr ≠ none → firstErr ≠ none) :
      Moves T p .refuse { p with phase := .closed, firstErr := firstErr, ctxErr := ctxErr }
  | ended {firstErr ctxErr} (hfeeding : p.phase = .feeding)
      (hkept : p.firstErr ≠ none → firstErr ≠ none) (hjobs : p.feed.jobs = [])
      (herr : p.feed.err ≠ none → firstErr ≠ none) :
      Moves T p .feedEnds { p with phase := .closed, firstErr := firstErr, ctxErr := ctxErr }
  | acquired {job} (hmem : job ∈ p.acquiring) :
      Moves T p (.acquire job) { p with
        acquiring := p.acquiring.erase job, running := job :: p.running }
  | unacquired {job err} (hmem : job ∈ p.acquiring) :
      Moves T p (.acquireFails job) { p with
        acquiring := p.acquiring.erase job
        failing := err :: p.failing
        lost := job :: p.lost }
  | ran {job answer shared} (hmem : job ∈ p.running)
      (hresult : T.fn p.shared job answer = (shared, none)) :
      Moves T p (.perform job answer) { p with
        running := p.running.erase job
        shared := shared
        idle := p.idle + 1
        succeeded := job :: p.succeeded }
  | failed {job answer shared err} (hmem : job ∈ p.running)
      (hresult : T.fn p.shared job answer = (shared, some err)) :
      Moves T p (.perform job answer) { p with
        running := p.running.erase job
        shared := shared
        failing := err :: p.failing
        lost := job :: p.lost }
  | reported {err firstErr ctxErr} (hmem : err ∈ p.failing) (hset : firstErr ≠ none) :
      Moves T p (.fail err) { p with
        failing := p.failing.erase err
        exited := p.exited + 1
        firstErr := firstErr
        ctxErr := ctxErr }
  | left (hclosed : p.phase ≠ .feeding) (hidle : 0 < p.idle) :
      Moves T p .workerDone { p with idle := p.idle - 1, exited := p.exited + 1 }
  | callerDone {err} : Moves T p (.callerDone err) { p with ctxErr := p.ctxErr.or (some err) }
  | finished (hclosed : p.phase = .closed) (hall : p.exited = T.workers) :
      Moves T p .finish { p with
        phase := .returned p.firstErr, ctxErr := p.ctxErr.or (some T.canceled) }

theorem step_moves (h : p.step T e = some p') : Moves T p e p' := by
  cases e with
  | emit =>
      simp only [step] at h
      split at h
      case h_1 job jobs hjobs =>
          obtain ⟨⟨hfeeding, hidle⟩, heq⟩ := Option.ite_none_right_eq_some.mp h
          cases heq
          exact .emitted hjobs hfeeding hidle
      case h_2 => cases h
  | refuse =>
      obtain ⟨⟨hfeeding, -⟩, heq⟩ := Option.ite_none_right_eq_some.mp h
      cases heq
      obtain ⟨firstErr, ctxErr, heq, hkept, -⟩ := fed_eq T p none
      rw [heq]
      exact .refused hfeeding hkept
  | feedEnds =>
      obtain ⟨⟨hfeeding, hjobs⟩, heq⟩ := Option.ite_none_right_eq_some.mp h
      cases heq
      obtain ⟨firstErr, ctxErr, heq, hkept, herr⟩ := fed_eq T p p.feed.err
      rw [heq]
      exact .ended hfeeding hkept hjobs herr
  | acquire job =>
      obtain ⟨hmem, heq⟩ := Option.ite_none_right_eq_some.mp h
      cases heq
      exact .acquired hmem
  | acquireFails job =>
      simp only [step] at h
      split at h
      · obtain ⟨hmem, heq⟩ := Option.ite_none_right_eq_some.mp h
        cases heq
        exact .unacquired hmem
      · cases h
  | perform job answer =>
      simp only [step] at h
      split at h
      case isTrue hmem =>
          split at h
          case h_1 shared hresult =>
              cases h
              exact .ran hmem hresult
          case h_2 shared err hresult =>
              cases h
              exact .failed hmem hresult
      case isFalse => cases h
  | fail err =>
      obtain ⟨hmem, heq⟩ := Option.ite_none_right_eq_some.mp h
      cases heq
      obtain ⟨firstErr, ctxErr, heq, hset⟩ :=
        fail_eq T { p with failing := p.failing.erase err, exited := p.exited + 1 } err
      rw [heq]
      exact .reported hmem hset
  | workerDone =>
      obtain ⟨⟨hclosed, hidle⟩, heq⟩ := Option.ite_none_right_eq_some.mp h
      cases heq
      exact .left hclosed hidle
  | callerDone err =>
      cases h
      exact .callerDone
  | finish =>
      obtain ⟨⟨hclosed, hall⟩, heq⟩ := Option.ite_none_right_eq_some.mp h
      cases heq
      exact .finished hclosed hall

theorem step_alarmed (hinv : p.Inv T feed) (halarmed : p.Alarmed) (h : p.step T e = some p') :
    p'.Alarmed := by
  cases step_moves h with
  | refused hfeeding hkept | ended hfeeding hkept =>
      unfold Alarmed at halarmed
      rw [hfeeding] at halarmed
      exact Or.imp id hkept halarmed
  | unacquired | failed =>
      exact halarmed.mono rfl (fun _ => Or.inl (List.cons_ne_nil _ _)) id
  | reported _ hset => exact halarmed.mono rfl (fun _ => Or.inr hset) fun _ => hset
  | finished hclosed hall =>
      have hworkers := hinv.workers_eq
      have hnone : p.failing = [] := List.length_eq_zero_iff.mp (by omega)
      unfold Alarmed at halarmed
      rw [hclosed] at halarmed
      exact halarmed.resolve_left (not_not_intro hnone)
  | emitted | acquired | ran | left | callerDone => exact halarmed

omit [DecidableEq E] in
theorem count_erase_add {job : J} {jobs : List J} (hmem : job ∈ jobs) (j : J) :
    (jobs.erase job).count j + [job].count j = jobs.count j := by
  rw [← List.count_append, ((List.perm_append_singleton job _).trans
    (List.perm_cons_erase hmem).symm).count_eq]

theorem step_jobs_count (hinv : p.Inv T feed) (h : p.step T e = some p') (j : J) :
    p'.feed.jobs.count j + p'.acquiring.count j + p'.running.count j + p'.succeeded.count j +
      p'.lost.count j = feed.jobs.count j := by
  have hcount := hinv.jobs_count j
  have hcons : ∀ job (jobs : List J), (job :: jobs).count j = jobs.count j + [job].count j :=
    fun job jobs => by rw [Nat.add_comm, ← List.count_append]; rfl
  cases step_moves h with
  | @emitted job _ hjobs =>
      rw [hjobs, hcons] at hcount
      dsimp only
      rw [hcons job p.acquiring]
      omega
  | @acquired job hmem | @unacquired job _ hmem | @ran job _ _ hmem | @failed job _ _ _ hmem =>
      have herase := count_erase_add hmem j
      have hrunning := hcons job p.running
      have hsucceeded := hcons job p.succeeded
      have hlost := hcons job p.lost
      dsimp only
      omega
  | refused | ended | reported | left | callerDone | finished => exact hcount

theorem step_workers (hinv : p.Inv T feed) (h : p.step T e = some p') :
    p'.idle + p'.acquiring.length + p'.running.length + p'.failing.length + p'.exited
        = T.workers ∧
      p'.feed.err = feed.err ∧
      ∀ err, p'.phase = .returned err → p'.exited = T.workers := by
  have hworkers := hinv.workers_eq
  have hreturned := hinv.returned_exited
  have herr := hinv.feed_err
  cases step_moves h with
  | emitted =>
      refine ⟨?_, herr, hreturned⟩
      dsimp only
      rw [List.length_cons]
      omega
  | refused | ended => exact ⟨hworkers, herr, fun _ hphase => by cases hphase⟩
  | acquired hmem | unacquired hmem | ran hmem | failed hmem =>
      have hlen := List.length_erase_of_mem hmem
      have hpos := List.length_pos_of_mem hmem
      refine ⟨?_, herr, hreturned⟩
      simp only [List.length_cons]
      omega
  | reported hmem =>
      have hlen := List.length_erase_of_mem hmem
      have hpos := List.length_pos_of_mem hmem
      refine ⟨?_, herr, fun err hphase => absurd hphase (hinv.not_returned (by omega) err)⟩
      dsimp only
      omega
  | left =>
      refine ⟨?_, herr, fun err hphase => absurd hphase (hinv.not_returned (by omega) err)⟩
      dsimp only
      omega
  | callerDone => exact ⟨hworkers, herr, hreturned⟩
  | finished _ hall => exact ⟨hworkers, herr, fun _ _ => hall⟩

theorem step_lost (hinv : p.Inv T feed) (h : p.step T e = some p') (hlost : p'.lost ≠ []) :
    p'.Alarmed := by
  have hold : p.lost ≠ [] → p'.Alarmed := fun hlost => step_alarmed hinv (hinv.lost hlost) h
  cases step_moves h with
  | unacquired hmem | failed hmem =>
      have hpos := List.length_pos_of_mem hmem
      apply alarmed_of_not_returned
      · exact hinv.not_returned (by omega)
      · exact Or.inl (List.cons_ne_nil _ _)
  | _ => exact hold hlost

theorem step_fed (hinv : p.Inv T feed) (hcond : RefusesAfterFailure p e)
    (h : p.step T e = some p') (hphase : p'.phase ≠ .feeding) :
    p'.feed.jobs = [] ∧ feed.err = none ∨ p'.Alarmed := by
  have hold : p.phase ≠ .feeding → p'.feed.jobs = p.feed.jobs →
      p'.feed.jobs = [] ∧ feed.err = none ∨ p'.Alarmed := by
    intro hclosed hsame
    rw [hsame]
    exact (hinv.fed hclosed).imp id fun halarmed => step_alarmed hinv halarmed h
  cases step_moves h with
  | emitted _ hfeeding => exact absurd hfeeding hphase
  | refused _ hkept => exact Or.inr (Or.inr (hkept (Option.isSome_iff_ne_none.mp hcond)))
  | ended _ _ hjobs herr =>
      by_cases hnone : feed.err = none
      · exact Or.inl ⟨hjobs, hnone⟩
      · rw [← hinv.feed_err] at hnone
        exact Or.inr (Or.inr (herr hnone))
  | finished hclosed => exact hold (by rw [hclosed]; exact fun hcase => by cases hcase) rfl
  | acquired | unacquired | ran | failed | reported | left | callerDone => exact hold hphase rfl

theorem step_inv (hinv : p.Inv T feed) (hcond : RefusesAfterFailure p e)
    (h : p.step T e = some p') : p'.Inv T feed where
  jobs_count := step_jobs_count hinv h
  workers_eq := (step_workers hinv h).1
  feed_err := (step_workers hinv h).2.1
  returned_exited := (step_workers hinv h).2.2
  lost := step_lost hinv h
  fed := step_fed hinv hcond h

omit [DecidableEq E] in
theorem new_inv (T : Work J E W O) (feed : Feed J E) (shared : W) :
    (runChunks T feed shared).Inv T feed where
  jobs_count := fun _ => rfl
  workers_eq := rfl
  returned_exited := fun _ hreturned => by cases hreturned
  feed_err := rfl
  lost := fun hlost => absurd rfl hlost
  fed := fun hphase => absurd rfl hphase

omit [DecidableEq E] in
theorem Inv.succeeded_perm (hinv : p.Inv T feed) (hreturned : p.phase = .returned none) :
    feed.err = none ∧ p.succeeded.Perm feed.jobs := by
  have hcalm : ¬ p.Alarmed := by
    unfold Alarmed
    rw [hreturned]
    exact not_not_intro rfl
  have hlost : p.lost = [] := not_not.mp (mt hinv.lost hcalm)
  have hclosed : p.phase ≠ .feeding := by
    rw [hreturned]
    exact fun hcase => by cases hcase
  obtain ⟨hjobs, herr⟩ := (hinv.fed hclosed).resolve_right hcalm
  have hworkers := hinv.workers_eq
  have hall := hinv.returned_exited none hreturned
  have hacquiring : p.acquiring = [] := List.length_eq_zero_iff.mp (by omega)
  have hrunning : p.running = [] := List.length_eq_zero_iff.mp (by omega)
  refine ⟨herr, List.perm_iff_count.mpr fun j => ?_⟩
  have hcount := hinv.jobs_count j
  rw [hjobs, hacquiring, hrunning, hlost] at hcount
  simpa using hcount

/-- A property that a job has of the shared state once it succeeded, and that no job takes
away, is one of every job that succeeded. -/
theorem step_succeeded {Q : W → J → Prop}
    (hfn : ∀ w j o w', T.fn w j o = (w', none) → Q w' j)
    (hkeep : ∀ w j o w' result j', T.fn w j o = (w', result) → Q w j' → Q w' j')
    (hq : ∀ j ∈ p.succeeded, Q p.shared j) (h : p.step T e = some p') :
    ∀ j ∈ p'.succeeded, Q p'.shared j := by
  cases step_moves h with
  | ran _ hresult =>
      intro j hj
      cases List.mem_cons.mp hj with
      | inl hjob =>
          rw [hjob]
          exact hfn _ _ _ _ hresult
      | inr hbefore => exact hkeep _ _ _ _ _ _ hresult (hq j hbefore)
  | failed _ hresult =>
      intro j hj
      exact hkeep _ _ _ _ _ _ hresult (hq j hj)
  | _ => exact hq

theorem run_inv (hrun : PoolRun T RefusesAfterFailure p p') (hinv : p.Inv T feed) :
    p'.Inv T feed :=
  hrun.invariant hinv fun _ _ _ hinv hcond hstep => step_inv hinv hcond hstep

theorem run_workerDone {P : Pool J E W → PoolEvent J E O → Prop}
    (hcond : ∀ p, P p .workerDone) (hclosed : p.phase ≠ .feeding) :
    PoolRun T P p { p with idle := 0, exited := p.exited + p.idle } := by
  generalize hidle : p.idle = n
  induction n generalizing p with
  | zero =>
      cases p
      cases hidle
      exact Run.refl _
  | succ n ih =>
      have hstep : p.step T (.workerDone : PoolEvent J E O)
          = some { p with idle := p.idle - 1, exited := p.exited + 1 } :=
        if_pos ⟨hclosed, by omega⟩
      have hrest := ih (p := { p with idle := p.idle - 1, exited := p.exited + 1 }) hclosed
        (by dsimp only; omega)
      have hexited : p.exited + 1 + n = p.exited + (n + 1) := by omega
      rw [← hexited]
      exact ((Run.refl p).tail (hcond p) hstep).trans hrest

end Pool

end Runs

/-! ## Downloads -/

section Downloads

structure ChunkTransfer (H : Type) where
  hash : H
  url : Str
  deriving DecidableEq

/-- An entry of a page of download URLs. -/
structure SignedUrl where
  hash : Str
  url : Str

/-- What the server answers to the requests for the pages of a window. -/
inductive PageAnswers (E : Type) where
  | failed (err : E)
  | last (urls : List SignedUrl)
  /-- A page with the token of the next one. -/
  | more (urls : List SignedUrl) (rest : PageAnswers E)

/-- How the client reads hashes, and its errors. -/
structure DownloadClient (H E : Type) where
  decodeHash : Str → Except E H
  notFound : H → E
  canceled : E

/-- The sink counts a chunk as delivered when the callback accepts it. -/
structure ChunkSink (H E : Type) where
  err : Option E
  delivered : List (H × List UInt8)

def downloadWindow : ℕ := 1000

variable {H : Type}

def decodeURLs (C : DownloadClient H E) (urls : List SignedUrl) :
    Except E (List (ChunkTransfer H)) :=
  urls.mapM fun u => do
    let hash ← C.decodeHash u.hash
    pure ⟨hash, u.url⟩

def followPages (C : DownloadClient H E) : PageAnswers E → Except E (List (ChunkTransfer H))
  | .failed err => .error err
  | .last urls => decodeURLs C urls
  | .more urls rest => do
      let jobs ← decodeURLs C urls
      let others ← followPages C rest
      pure (jobs ++ others)

def downloadURLs [DecidableEq H] (C : DownloadClient H E) (hashes : List H)
    (answers : PageAnswers E) : Except E (List (ChunkTransfer H)) := do
  let jobs ← followPages C answers
  match hashes.find? fun h => h ∉ jobs.map ChunkTransfer.hash with
  | some h => .error (C.notFound h)
  | none => pure jobs

/-- The windows are presigned one after the other, up to the first that fails. -/
def windowsFeed [DecidableEq H] (C : DownloadClient H E) (answers : ℕ → PageAnswers E) :
    ℕ → List (List H) → Feed (ChunkTransfer H) E
  | _, [] => ⟨[], none⟩
  | n, window :: windows =>
      match downloadURLs C window (answers n) with
      | .error err => ⟨[], some err⟩
      | .ok jobs =>
          let rest := windowsFeed C answers (n + 1) windows
          ⟨jobs ++ rest.jobs, rest.err⟩

def downloadFeed [DecidableEq H] (C : DownloadClient H E) (answers : ℕ → PageAnswers E)
    (hashes : List H) : Feed (ChunkTransfer H) E :=
  windowsFeed C answers 0 ((Cutter.every downloadWindow (by decide)).pieces hashes)

/-- `answer` is what the callback returns. -/
def ChunkSink.deliver (s : ChunkSink H E) (hash : H) (data : List UInt8) (answer : Option E) :
    ChunkSink H E × Option E :=
  match s.err with
  | some err => (s, some err)
  | none =>
      match answer with
      | some err => ({ s with err := some err }, some err)
      | none => ({ s with delivered := (hash, data) :: s.delivered }, none)

/-- `answer` is what fetching the chunk gives and what the callback returns. -/
def downloadChunk (sink : ChunkSink H E) (job : ChunkTransfer H)
    (answer : Except E (List UInt8) × Option E) : ChunkSink H E × Option E :=
  match answer.1 with
  | .error err => (sink, some err)
  | .ok data => sink.deliver job.hash data answer.2

def downloadWork (C : DownloadClient H E) :
    Work (ChunkTransfer H) E (ChunkSink H E) (Except E (List UInt8) × Option E) where
  workers := maxUploadWorkers
  canceled := C.canceled
  fn := downloadChunk

variable [DecidableEq E] [DecidableEq H]

/-- What `DownloadChunks` returns, and the sink it leaves, in runs whose steps meet a
condition; `connected` is the error of the connection or the session. -/
inductive DownloadChunks (C : DownloadClient H E) (connected : Option E)
    (answers : ℕ → PageAnswers E) (hashes : List H)
    (P : Pool (ChunkTransfer H) E (ChunkSink H E) →
      PoolEvent (ChunkTransfer H) E (Except E (List UInt8) × Option E) → Prop) :
    Option E → ChunkSink H E → Prop where
  | nothing (hnone : hashes = []) : DownloadChunks C connected answers hashes P none ⟨none, []⟩
  | unconnected (hsome : hashes ≠ []) {err : E} (herr : connected = some err) :
      DownloadChunks C connected answers hashes P (some err) ⟨none, []⟩
  | ran (hsome : hashes ≠ []) (hconnected : connected = none)
      {p : Pool (ChunkTransfer H) E (ChunkSink H E)}
      (hrun : PoolRun (downloadWork C) P
        (runChunks (downloadWork C) (downloadFeed C answers hashes) ⟨none, []⟩) p)
      {result : Option E} (hreturned : p.phase = .returned result) :
      DownloadChunks C connected answers hashes P result p.shared

variable {C : DownloadClient H E} {answers : ℕ → PageAnswers E}

omit [DecidableEq E] in
theorem downloadURLs_found {hashes : List H} {pages : PageAnswers E}
    {jobs : List (ChunkTransfer H)} (h : downloadURLs C hashes pages = .ok jobs) :
    ∀ g ∈ hashes, g ∈ jobs.map ChunkTransfer.hash := by
  unfold downloadURLs at h
  cases hpages : followPages C pages with
  | error err =>
      rw [hpages] at h
      cases h
  | ok found =>
      rw [hpages] at h
      change (match hashes.find? fun g => g ∉ found.map ChunkTransfer.hash with
        | some g => .error (C.notFound g)
        | none => pure found) = Except.ok jobs at h
      split at h
      case h_1 => cases h
      case h_2 hnone =>
          cases h
          intro g hg
          simpa using List.find?_eq_none.mp hnone g hg

omit [DecidableEq E] in
theorem windowsFeed_found (n : ℕ) {windows : List (List H)}
    (hok : (windowsFeed C answers n windows).err = none) :
    ∀ g ∈ windows.flatten, g ∈ (windowsFeed C answers n windows).jobs.map ChunkTransfer.hash := by
  induction windows generalizing n with
  | nil => exact fun _ hg => absurd hg List.not_mem_nil
  | cons window windows ih =>
      intro g hg
      unfold windowsFeed at hok ⊢
      cases hurls : downloadURLs C window (answers n) with
      | error err =>
          rw [hurls] at hok
          cases hok
      | ok jobs =>
          rw [hurls] at hok
          change g ∈ (jobs ++ (windowsFeed C answers (n + 1) windows).jobs).map ChunkTransfer.hash
          rw [List.map_append, List.mem_append]
          rw [List.flatten_cons, List.mem_append] at hg
          exact hg.imp (downloadURLs_found hurls g) (ih (n + 1) hok g)

omit [DecidableEq E] [DecidableEq H] in
theorem downloadChunk_delivered {sink sink' : ChunkSink H E} {job : ChunkTransfer H}
    {answer : Except E (List UInt8) × Option E}
    (h : downloadChunk sink job answer = (sink', none)) :
    ∃ data, (job.hash, data) ∈ sink'.delivered := by
  unfold downloadChunk ChunkSink.deliver at h
  split at h
  · cases h
  · split at h
    · cases h
    · split at h
      · cases h
      · cases h
        exact ⟨_, List.mem_cons_self⟩

omit [DecidableEq E] [DecidableEq H] in
theorem downloadChunk_keeps {sink sink' : ChunkSink H E} {job : ChunkTransfer H}
    {answer : Except E (List UInt8) × Option E} {result : Option E}
    (h : downloadChunk sink job answer = (sink', result)) {d : H × List UInt8}
    (hd : d ∈ sink.delivered) : d ∈ sink'.delivered := by
  unfold downloadChunk ChunkSink.deliver at h
  split at h
  · cases h
    exact hd
  · split at h
    · cases h
      exact hd
    · split at h
      · cases h
        exact hd
      · cases h
        exact List.mem_cons_of_mem _ hd

theorem downloadRun_delivered {feed : Feed (ChunkTransfer H) E}
    {P : Pool (ChunkTransfer H) E (ChunkSink H E) →
      PoolEvent (ChunkTransfer H) E (Except E (List UInt8) × Option E) → Prop}
    {p : Pool (ChunkTransfer H) E (ChunkSink H E)}
    (hrun : PoolRun (downloadWork C) P (runChunks (downloadWork C) feed ⟨none, []⟩) p) :
    ∀ job ∈ p.succeeded, ∃ data, (job.hash, data) ∈ p.shared.delivered := by
  apply hrun.invariant (I := fun p : Pool (ChunkTransfer H) E (ChunkSink H E) =>
    ∀ job ∈ p.succeeded, ∃ data, (job.hash, data) ∈ p.shared.delivered)
  · exact fun _ hjob => absurd hjob List.not_mem_nil
  · intro p e p' hq _ hstep
    refine Pool.step_succeeded (T := downloadWork C)
      (Q := fun sink job => ∃ data, (job.hash, data) ∈ sink.delivered) ?_ ?_ hq hstep
    · exact fun _ _ _ _ hresult => downloadChunk_delivered hresult
    · rintro _ _ _ _ _ _ hresult ⟨data, hdata⟩
      exact ⟨data, downloadChunk_keeps hresult hdata⟩

end Downloads

/-- Where `emit` refuses jobs only after a failure was reported, `runChunks` returns no error
only if every job of the feed succeeded once, and `DownloadChunks` only if every chunk
requested was delivered. -/
theorem runChunks_complete {E : Type} [DecidableEq E] {J W O : Type} [DecidableEq J]
    (T : Work J E W O) (feed : Feed J E) (shared : W) (p : Pool J E W) :
    (PoolRun T RefusesAfterFailure (runChunks T feed shared) p → p.phase = .returned none →
        feed.err = none ∧ p.succeeded.Perm feed.jobs) ∧
    ∀ {H : Type} [DecidableEq H] (C : DownloadClient H E)
      (connected : Option E) (answers : ℕ → PageAnswers E) (hashes : List H)
      (sink : ChunkSink H E),
      DownloadChunks C connected answers hashes RefusesAfterFailure none sink →
        ∀ h ∈ hashes, ∃ data, (h, data) ∈ sink.delivered := by
  constructor
  · intro hrun hreturned
    exact (Pool.run_inv hrun (Pool.new_inv T feed shared)).succeeded_perm hreturned
  · intro H _ C connected answers hashes sink hdownload h hmem
    cases hdownload with
    | nothing hnone =>
        rw [hnone] at hmem
        exact absurd hmem List.not_mem_nil
    | ran _ _ hrun hreturned =>
        have hinv := Pool.run_inv hrun (Pool.new_inv _ _ _)
        obtain ⟨herr, hperm⟩ := hinv.succeeded_perm hreturned
        have hfound := windowsFeed_found 0 herr h (by rw [Cutter.pieces_flatten]; exact hmem)
        obtain ⟨job, hjob, rfl⟩ := List.mem_map.mp hfound
        exact downloadRun_delivered hrun job (hperm.mem_iff.mpr hjob)

/-! ## A download that loses its chunk -/

def oneChunkClient : DownloadClient ℕ Unit where
  decodeHash _ := .ok 7
  notFound _ := ()
  canceled := ()

def oneChunkAnswers (_ : ℕ) : PageAnswers Unit :=
  .last [⟨[], []⟩]

def oneChunkPool : Pool (ChunkTransfer ℕ) Unit (ChunkSink ℕ Unit) :=
  runChunks (downloadWork oneChunkClient) ⟨[⟨7, []⟩], none⟩ ⟨none, []⟩

theorem oneChunk_feed :
    downloadFeed oneChunkClient oneChunkAnswers [7] = ⟨[⟨7, []⟩], none⟩ := by
  unfold downloadFeed
  rw [Cutter.pieces_eq _ (List.cons_ne_nil 7 [])]
  change windowsFeed _ _ 0 ([7] :: (Cutter.every downloadWindow (by decide)).pieces []) = _
  rw [Cutter.pieces_nil]
  rfl

theorem oneChunk_refused :
    [.callerDone (), .refuse].foldlM (Pool.step (downloadWork oneChunkClient)) oneChunkPool
      = some { oneChunkPool with phase := .closed, ctxErr := some () } := rfl

theorem runChunks_loses_chunk :
    ¬ ∀ sink : ChunkSink ℕ Unit,
      DownloadChunks oneChunkClient none oneChunkAnswers [7] (fun _ _ => True) none sink →
        ∀ h ∈ [7], ∃ data, (h, data) ∈ sink.delivered := by
  intro hall
  have hidle := (Run.of_foldlM oneChunk_refused).trans
    (Pool.run_workerDone (fun _ => trivial) fun hphase => by cases hphase)
  have hrun := hidle.tail (e := .finish) trivial rfl
  unfold oneChunkPool at hrun
  rw [← oneChunk_feed] at hrun
  obtain ⟨data, hdata⟩ :=
    hall ⟨none, []⟩ (.ran (List.cons_ne_nil 7 []) rfl hrun rfl) 7 List.mem_cons_self
  exact absurd hdata List.not_mem_nil

theorem oneChunk_performed :
    PoolRun (downloadWork oneChunkClient) RefusesAfterFailure oneChunkPool
      { oneChunkPool with
        feed := ⟨[], none⟩
        phase := .closed
        shared := ⟨none, [(7, [1])]⟩
        succeeded := [⟨7, []⟩] } :=
  ((((Run.refl oneChunkPool).tail (e := .emit) trivial rfl).tail
    (e := .acquire ⟨7, []⟩) trivial rfl).tail
    (e := .perform ⟨7, []⟩ (.ok [1], none)) trivial rfl).tail (e := .feedEnds) trivial rfl

theorem runChunks_complete_one_chunk :
    ([⟨7, []⟩] : List (ChunkTransfer ℕ)).Perm [⟨7, []⟩] :=
  ((runChunks_complete (downloadWork oneChunkClient) ⟨[⟨7, []⟩], none⟩ ⟨none, []⟩ _).1
    ((oneChunk_performed.trans
      (Pool.run_workerDone (fun _ => trivial) fun hphase => by cases hphase)).tail
      (e := .finish) trivial rfl) rfl).2

end Transfer

end Nipa
