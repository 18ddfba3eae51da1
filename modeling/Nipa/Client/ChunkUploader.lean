import Mathlib.Algebra.Ring.Nat
import Mathlib.Data.List.Nodup
import Nipa.Support.Runs

/-!
# The uploader of a push

The scanners of a push hand over chunks one by one; distinct chunks gather in a batch, a
full batch becomes a window in a bounded queue, and a fixed number of workers upload the
windows.  The first error cancels the context the uploader shares with its workers.
-/

namespace Nipa

open Support (Run)

namespace Upload

structure ChunkData (H : Type) where
  hash : H
  data : List UInt8
  deriving DecidableEq

/-- The constants of the uploader and the error of a cancelled context. -/
structure Config (E : Type) where
  uploadWindowBytes : ℕ
  uploadWindowQueue : ℕ
  uploadWindowWorkers : ℕ
  canceled : E
  workers_pos : 0 < uploadWindowWorkers

def uploadConfig {E : Type} (canceled : E) : Config E where
  uploadWindowBytes := 16 * 2 ^ 20
  uploadWindowQueue := 2
  uploadWindowWorkers := 2
  canceled := canceled
  workers_pos := by decide

inductive Phase (E : Type) where
  /-- Chunks are handed over. -/
  | scanning
  /-- `close` hands the last window over. -/
  | flushing
  /-- `close` has closed the windows after a flush that gave `err`, and waits. -/
  | waiting (err : Option E)
  | returned (err : Option E)
  /-- `abort` has closed the windows. -/
  | aborted
  deriving DecidableEq

/-- The uploader with its workers, and what happened to every window. -/
structure Uploader (H E : Type) where
  seen : List H
  batch : List (ChunkData H)
  bytes : ℕ
  /-- The window that the holder of `batchMu` waits to put into the queue. -/
  sending : Option (List (ChunkData H))
  windows : List (List (ChunkData H))
  /-- Workers that wait for a window. -/
  idle : ℕ
  uploading : List (List (ChunkData H))
  /-- Errors that `upload` returned to workers which have not recorded them yet. -/
  failing : List E
  /-- Workers that have recorded their error and not cancelled yet. -/
  cancelling : ℕ
  exited : ℕ
  err : Option E
  ctxErr : Option E
  phase : Phase E
  /-- The hashes handed to `add`. -/
  offered : List H
  /-- Windows whose upload succeeded. -/
  uploaded : List (List (ChunkData H))
  /-- Windows whose upload failed, or that were never queued. -/
  lost : List (List (ChunkData H))
  /-- Errors of uploads. -/
  failures : List E

inductive Event (H E : Type) where
  | add (ch : ChunkData H)
  /-- The `select` of `flushLocked` sends the window. -/
  | send
  /-- The `select` of `flushLocked` sees the context done. -/
  | giveUp
  | receive
  | uploadSucceeds (window : List (ChunkData H))
  | uploadFails (window : List (ChunkData H)) (err : E)
  /-- The first half of `fail`. -/
  | record (err : E)
  /-- The second half of `fail`, after which the worker returns. -/
  | cancel
  /-- A worker finds the windows closed. -/
  | workerDone
  /-- The context of the caller ends. -/
  | callerDone (err : E)
  | close
  /-- `close` returns. -/
  | closed
  | abort

variable {H E : Type}

def newChunkUploader (C : Config E) : Uploader H E where
  seen := []
  batch := []
  bytes := 0
  sending := none
  windows := []
  idle := C.uploadWindowWorkers
  uploading := []
  failing := []
  cancelling := 0
  exited := 0
  err := none
  ctxErr := none
  phase := .scanning
  offered := []
  uploaded := []
  lost := []
  failures := []

namespace Uploader

def failure (u : Uploader H E) : Option E :=
  u.err.or u.ctxErr

/-- Ending a context that has ended keeps its error. -/
def endContext (u : Uploader H E) (err : E) : Uploader H E :=
  { u with ctxErr := u.ctxErr.or (some err) }

/-- Cuts the batch off as the window to send; the caller holds `batchMu`. -/
def flushLocked (u : Uploader H E) : Uploader H E :=
  if u.batch = [] then u
  else { u with batch := [], bytes := 0, sending := some u.batch }

/-- What the holder of `batchMu` does after the `select`: `add` returns, `close` closes
the windows and waits. -/
def flushed (u : Uploader H E) (err : Option E) : Uploader H E :=
  { u with
    sending := none
    phase := if u.phase matches .flushing then .waiting err else u.phase }

/-- Whether the channel of windows is closed. -/
def windowsClosed (u : Uploader H E) : Bool :=
  match u.phase with
  | .scanning | .flushing => false
  | .waiting _ | .returned _ | .aborted => true

variable [DecidableEq H]

def add (C : Config E) (u : Uploader H E) (ch : ChunkData H) : Uploader H E :=
  let u := { u with offered := ch.hash :: u.offered }
  if u.ctxErr.isSome then u
  else if ch.hash ∈ u.seen then u
  else
    let u := { u with
      seen := ch.hash :: u.seen
      batch := u.batch ++ [ch]
      bytes := u.bytes + ch.data.length }
    if u.bytes < C.uploadWindowBytes then u else u.flushLocked

def close (u : Uploader H E) : Uploader H E :=
  if u.batch = [] then { u with phase := .waiting none }
  else { u.flushLocked with phase := .flushing }

variable [DecidableEq E]

def step (C : Config E) (u : Uploader H E) : Event H E → Option (Uploader H E)
  | .add ch =>
      if u.phase = .scanning ∧ u.sending = none then some (u.add C ch) else none
  | .send =>
      match u.sending with
      | some window =>
          if u.windows.length < C.uploadWindowQueue then
            some ({ u with windows := u.windows ++ [window] }.flushed none)
          else none
      | none => none
  | .giveUp =>
      match u.sending with
      | some window =>
          if u.ctxErr.isSome then
            some ({ u with lost := window :: u.lost }.flushed u.failure)
          else none
      | none => none
  | .receive =>
      match u.windows with
      | window :: windows =>
          if 0 < u.idle then
            some { u with
              windows := windows
              idle := u.idle - 1
              uploading := window :: u.uploading }
          else none
      | [] => none
  | .uploadSucceeds window =>
      if window ∈ u.uploading then
        some { u with
          uploading := u.uploading.erase window
          idle := u.idle + 1
          uploaded := window :: u.uploaded }
      else none
  | .uploadFails window err =>
      if window ∈ u.uploading then
        some { u with
          uploading := u.uploading.erase window
          failing := err :: u.failing
          lost := window :: u.lost
          failures := err :: u.failures }
      else none
  | .record err =>
      if err ∈ u.failing then
        some { u with
          failing := u.failing.erase err
          cancelling := u.cancelling + 1
          err := u.err.or (some err) }
      else none
  | .cancel =>
      if 0 < u.cancelling then
        some ({ u with
          cancelling := u.cancelling - 1
          exited := u.exited + 1 }.endContext C.canceled)
      else none
  | .workerDone =>
      if u.windowsClosed ∧ u.windows = [] ∧ 0 < u.idle then
        some { u with idle := u.idle - 1, exited := u.exited + 1 }
      else none
  | .callerDone err => some (u.endContext err)
  | .close =>
      if u.phase = .scanning ∧ u.sending = none then some u.close else none
  | .closed =>
      match u.phase with
      | .waiting err =>
          if u.exited = C.uploadWindowWorkers then
            some ({ u with phase := .returned (err.or u.failure) }.endContext C.canceled)
          else none
      | _ => none
  | .abort =>
      if u.phase = .scanning ∧ u.sending = none then
        some ({ u with phase := .aborted }.endContext C.canceled)
      else none

end Uploader

/-- Runs of the uploader: any interleaving, any outcome of the uploads. -/
abbrev UploaderRun [DecidableEq H] [DecidableEq E] (C : Config E) (u u' : Uploader H E) :
    Prop :=
  Run (fun s e s' => Uploader.step C s e = some s') (fun _ _ => True) u u'

/-! ## Where every chunk is -/

section Copies

variable [DecidableEq H] (h : H)

/-- How often a hash is among chunks. -/
def copies (chunks : List (ChunkData H)) : ℕ :=
  (chunks.map ChunkData.hash).count h

@[simp]
theorem copies_nil : copies h ([] : List (ChunkData H)) = 0 := rfl

@[simp]
theorem copies_append (chunks chunks' : List (ChunkData H)) :
    copies h (chunks ++ chunks') = copies h chunks + copies h chunks' := by
  unfold copies
  rw [List.map_append, List.count_append]

theorem copies_singleton (ch : ChunkData H) : copies h [ch] = [ch.hash].count h := rfl

theorem copies_flatten_erase {window : List (ChunkData H)}
    {windows : List (List (ChunkData H))} (hmem : window ∈ windows) :
    copies h windows.flatten = copies h window + copies h (windows.erase window).flatten := by
  have hperm := (List.perm_cons_erase hmem).flatten.map ChunkData.hash
  unfold copies
  rw [hperm.count_eq, List.flatten_cons, List.map_append, List.count_append]

end Copies

namespace Uploader

/-- How often a hash is among the chunks of all windows, the one being filled included. -/
def held [DecidableEq H] (u : Uploader H E) (h : H) : ℕ :=
  copies h u.uploaded.flatten + copies h u.uploading.flatten + copies h u.windows.flatten +
    copies h (u.sending.getD []) + copies h u.batch + copies h u.lost.flatten

/-- The error that `close` is going to return, or has returned, is there already. -/
def Alarmed (u : Uploader H E) : Prop :=
  match u.phase with
  | .returned err => err ≠ none
  | _ => u.failing ≠ [] ∨ u.failure ≠ none

/-- Something was lost, failed or refused. -/
def Troubled (u : Uploader H E) : Prop :=
  u.lost ≠ [] ∨ u.failures ≠ [] ∨ ∃ h ∈ u.offered, h ∉ u.seen

/-- The windows hold every chunk seen, once. -/
structure Stored [DecidableEq H] (u : Uploader H E) : Prop where
  seen_nodup : u.seen.Nodup
  held_eq : ∀ h, u.held h = u.seen.count h

/-- The caller does not hand over chunks any more and nothing waits in the batch. -/
def Closing (u : Uploader H E) : Prop :=
  match u.phase with
  | .flushing | .waiting _ | .returned _ => True
  | .scanning | .aborted => False

/-- Every worker is at one place, and none is left when `close` returns. -/
structure Staffed (C : Config E) (u : Uploader H E) : Prop where
  workers_eq :
    u.idle + u.uploading.length + u.failing.length + u.cancelling + u.exited
      = C.uploadWindowWorkers
  closing_batch : u.Closing → u.batch = []
  closed_sending : u.windowsClosed → u.sending = none
  returned_exited : ∀ err, u.phase = .returned err → u.exited = C.uploadWindowWorkers

/-- What was lost raises an error, and a worker leaves windows behind only after one. -/
structure Warned (u : Uploader H E) : Prop where
  exited_pos : 0 < u.exited → u.windowsClosed ∧ u.windows = [] ∨ u.Alarmed
  troubled : u.Troubled → u.Alarmed

/-! ## What the callers do -/

variable {C : Config E} {u u' : Uploader H E}

section Callers

theorem flushLocked_eq (hsending : u.sending = none) :
    ∃ batch bytes sending,
      u.flushLocked = { u with batch := batch, bytes := bytes, sending := sending } ∧
        sending.getD [] ++ batch = u.batch := by
  unfold flushLocked
  split
  · exact ⟨u.batch, u.bytes, u.sending, rfl, by rw [hsending]; rfl⟩
  · exact ⟨[], 0, some u.batch, rfl, by simp⟩

theorem add_cases [DecidableEq H] (C : Config E) (ch : ChunkData H)
    (hsending : u.sending = none) :
    u.add C ch = { u with offered := ch.hash :: u.offered } ∧
        (u.ctxErr.isSome ∨ ch.hash ∈ u.seen) ∨
      ch.hash ∉ u.seen ∧ ∃ batch bytes sending,
        u.add C ch = { u with
          offered := ch.hash :: u.offered
          seen := ch.hash :: u.seen
          batch := batch
          bytes := bytes
          sending := sending } ∧
        sending.getD [] ++ batch = u.batch ++ [ch] := by
  unfold add
  dsimp only
  split
  case isTrue hdone => exact Or.inl ⟨rfl, Or.inl hdone⟩
  case isFalse =>
      split
      case isTrue hmem => exact Or.inl ⟨rfl, Or.inr hmem⟩
      case isFalse hnew =>
          refine Or.inr ⟨hnew, ?_⟩
          split
          · exact ⟨u.batch ++ [ch], _, u.sending, rfl, by rw [hsending]; rfl⟩
          · exact flushLocked_eq (u := { u with
              offered := ch.hash :: u.offered
              seen := ch.hash :: u.seen
              batch := u.batch ++ [ch]
              bytes := u.bytes + ch.data.length }) hsending

theorem close_eq (hsending : u.sending = none) :
    ∃ bytes sending phase,
      u.close = { u with batch := [], bytes := bytes, sending := sending, phase := phase } ∧
        sending.getD [] = u.batch ∧
        (phase = .waiting none ∧ sending = none ∨ phase = .flushing) := by
  unfold close
  split
  case isTrue hempty =>
      refine ⟨u.bytes, u.sending, .waiting none, ?_, ?_, Or.inl ⟨rfl, hsending⟩⟩
      · rw [← hempty]
      · rw [hsending, hempty]
        rfl
  case isFalse hne =>
      refine ⟨0, some u.batch, .flushing, ?_, rfl, Or.inr rfl⟩
      unfold flushLocked
      rw [if_neg hne]

theorem flushed_eq (u : Uploader H E) (err : Option E) :
    ∃ phase, u.flushed err = { u with sending := none, phase := phase } ∧
      (phase = u.phase ∨ u.phase = .flushing ∧ phase = .waiting err) := by
  unfold flushed
  split
  case h_1 hphase => exact ⟨_, rfl, Or.inr ⟨hphase, rfl⟩⟩
  case h_2 => exact ⟨_, rfl, Or.inl rfl⟩

end Callers

variable [DecidableEq H] [DecidableEq E] {e : Event H E}

/-- What a step does: what its event needs, and what changes. -/
inductive Moves (C : Config E) (u : Uploader H E) : Event H E → Uploader H E → Prop
  | kept {ch : ChunkData H} (hscanning : u.phase = .scanning) (hsending : u.sending = none)
      (hold : u.ctxErr.isSome ∨ ch.hash ∈ u.seen) :
      Moves C u (.add ch) { u with offered := ch.hash :: u.offered }
  | joined {ch : ChunkData H} {batch bytes sending} (hscanning : u.phase = .scanning)
      (hsending : u.sending = none) (hnew : ch.hash ∉ u.seen)
      (hchunks : sending.getD [] ++ batch = u.batch ++ [ch]) :
      Moves C u (.add ch) { u with
        offered := ch.hash :: u.offered
        seen := ch.hash :: u.seen
        batch := batch
        bytes := bytes
        sending := sending }
  | sent {window phase} (hsending : u.sending = some window)
      (hphase : phase = u.phase ∨ u.phase = .flushing ∧ phase = .waiting none) :
      Moves C u .send { u with
        windows := u.windows ++ [window], sending := none, phase := phase }
  | gaveUp {window phase} (hsending : u.sending = some window) (hdone : u.ctxErr.isSome)
      (hphase : phase = u.phase ∨ u.phase = .flushing ∧ phase = .waiting u.failure) :
      Moves C u .giveUp { u with lost := window :: u.lost, sending := none, phase := phase }
  | received {window windows} (hwindows : u.windows = window :: windows) (hidle : 0 < u.idle) :
      Moves C u .receive { u with
        windows := windows, idle := u.idle - 1, uploading := window :: u.uploading }
  | stored {window} (hmem : window ∈ u.uploading) :
      Moves C u (.uploadSucceeds window) { u with
        uploading := u.uploading.erase window
        idle := u.idle + 1
        uploaded := window :: u.uploaded }
  | failed {window err} (hmem : window ∈ u.uploading) :
      Moves C u (.uploadFails window err) { u with
        uploading := u.uploading.erase window
        failing := err :: u.failing
        lost := window :: u.lost
        failures := err :: u.failures }
  | recorded {err} (hmem : err ∈ u.failing) :
      Moves C u (.record err) { u with
        failing := u.failing.erase err
        cancelling := u.cancelling + 1
        err := u.err.or (some err) }
  | cancelled (hpos : 0 < u.cancelling) :
      Moves C u .cancel ({ u with
        cancelling := u.cancelling - 1
        exited := u.exited + 1 }.endContext C.canceled)
  | left (hclosed : u.windowsClosed) (hwindows : u.windows = []) (hidle : 0 < u.idle) :
      Moves C u .workerDone { u with idle := u.idle - 1, exited := u.exited + 1 }
  | callerDone {err} : Moves C u (.callerDone err) (u.endContext err)
  | closes {bytes sending phase} (hscanning : u.phase = .scanning)
      (hsending : u.sending = none) (hchunks : sending.getD [] = u.batch)
      (hphase : phase = .waiting none ∧ sending = none ∨ phase = .flushing) :
      Moves C u .close { u with
        batch := [], bytes := bytes, sending := sending, phase := phase }
  | closed {err} (hwaiting : u.phase = .waiting err)
      (hall : u.exited = C.uploadWindowWorkers) :
      Moves C u .closed
        ({ u with phase := .returned (err.or u.failure) }.endContext C.canceled)
  | aborted (hscanning : u.phase = .scanning) (hsending : u.sending = none) :
      Moves C u .abort ({ u with phase := .aborted }.endContext C.canceled)

theorem step_moves (h : u.step C e = some u') : Moves C u e u' := by
  cases e with
  | add ch =>
      obtain ⟨⟨hscanning, hsending⟩, heq⟩ := Option.ite_none_right_eq_some.mp h
      cases heq
      cases add_cases C ch hsending with
      | inl hkept =>
          rw [hkept.1]
          exact .kept hscanning hsending hkept.2
      | inr hjoined =>
          obtain ⟨hnew, batch, bytes, sending, heq, hchunks⟩ := hjoined
          rw [heq]
          exact .joined hscanning hsending hnew hchunks
  | send =>
      simp only [step] at h
      split at h
      case h_1 window hsending =>
          obtain ⟨-, heq⟩ := Option.ite_none_right_eq_some.mp h
          cases heq
          obtain ⟨phase, heq, hphase⟩ :=
            flushed_eq { u with windows := u.windows ++ [window] } none
          rw [heq]
          exact .sent hsending hphase
      case h_2 => cases h
  | giveUp =>
      simp only [step] at h
      split at h
      case h_1 window hsending =>
          obtain ⟨hdone, heq⟩ := Option.ite_none_right_eq_some.mp h
          cases heq
          obtain ⟨phase, heq, hphase⟩ := flushed_eq { u with lost := window :: u.lost } u.failure
          rw [heq]
          exact .gaveUp hsending hdone hphase
      case h_2 => cases h
  | receive =>
      simp only [step] at h
      split at h
      case h_1 window windows hwindows =>
          obtain ⟨hidle, heq⟩ := Option.ite_none_right_eq_some.mp h
          cases heq
          exact .received hwindows hidle
      case h_2 => cases h
  | uploadSucceeds window =>
      obtain ⟨hmem, heq⟩ := Option.ite_none_right_eq_some.mp h
      cases heq
      exact .stored hmem
  | uploadFails window err =>
      obtain ⟨hmem, heq⟩ := Option.ite_none_right_eq_some.mp h
      cases heq
      exact .failed hmem
  | record err =>
      obtain ⟨hmem, heq⟩ := Option.ite_none_right_eq_some.mp h
      cases heq
      exact .recorded hmem
  | cancel =>
      obtain ⟨hpos, heq⟩ := Option.ite_none_right_eq_some.mp h
      cases heq
      exact .cancelled hpos
  | workerDone =>
      obtain ⟨⟨hclosed, hwindows, hidle⟩, heq⟩ := Option.ite_none_right_eq_some.mp h
      cases heq
      exact .left hclosed hwindows hidle
  | callerDone err =>
      cases h
      exact .callerDone
  | close =>
      obtain ⟨⟨hscanning, hsending⟩, heq⟩ := Option.ite_none_right_eq_some.mp h
      cases heq
      obtain ⟨bytes, sending, phase, heq, hchunks, hphase⟩ := close_eq hsending
      rw [heq]
      exact .closes hscanning hsending hchunks hphase
  | closed =>
      simp only [step] at h
      split at h
      case h_1 err hwaiting =>
          obtain ⟨hall, heq⟩ := Option.ite_none_right_eq_some.mp h
          cases heq
          exact .closed hwaiting hall
      case h_2 => cases h
  | abort =>
      obtain ⟨⟨hscanning, hsending⟩, heq⟩ := Option.ite_none_right_eq_some.mp h
      cases heq
      exact .aborted hscanning hsending

/-! ## Chunks move from window to window -/

theorem step_stored (hstored : u.Stored) (h : u.step C e = some u') : u'.Stored := by
  have hheld := hstored.held_eq
  cases step_moves h with
  | @joined ch batch _ sending _ hsending hnew hchunks =>
      refine ⟨List.nodup_cons.mpr ⟨hnew, hstored.seen_nodup⟩, fun g => ?_⟩
      have hone := hheld g
      have hcopies : copies g (sending.getD []) + copies g batch
          = copies g u.batch + copies g [ch] := by
        rw [← copies_append, ← copies_append, hchunks]
      have hcount : (ch.hash :: u.seen).count g = u.seen.count g + [ch.hash].count g := by
        rw [Nat.add_comm, ← List.count_append]
        rfl
      unfold held at *
      rw [hsending] at hone
      dsimp only [Option.getD_none] at *
      rw [copies_nil] at hone
      rw [hcount, ← copies_singleton]
      omega
  | sent hsending =>
      refine ⟨hstored.seen_nodup, fun g => ?_⟩
      have hone := hheld g
      unfold held at *
      rw [hsending] at hone
      simp only [List.flatten_append, List.flatten_cons, List.flatten_nil, copies_append,
        copies_nil, Option.getD_none, Option.getD_some] at *
      omega
  | gaveUp hsending =>
      refine ⟨hstored.seen_nodup, fun g => ?_⟩
      have hone := hheld g
      unfold held at *
      rw [hsending] at hone
      simp only [List.flatten_cons, copies_append, copies_nil, Option.getD_none,
        Option.getD_some] at *
      omega
  | received hwindows =>
      refine ⟨hstored.seen_nodup, fun g => ?_⟩
      have hone := hheld g
      unfold held at *
      rw [hwindows] at hone
      simp only [List.flatten_cons, copies_append] at *
      omega
  | stored hmem | failed hmem =>
      refine ⟨hstored.seen_nodup, fun g => ?_⟩
      have hone := hheld g
      have herase := copies_flatten_erase g hmem
      unfold held at *
      simp only [List.flatten_cons, copies_append] at *
      omega
  | closes _ hsending hchunks =>
      refine ⟨hstored.seen_nodup, fun g => ?_⟩
      have hone := hheld g
      unfold held at *
      rw [hsending] at hone
      dsimp only
      rw [hchunks, ← hone]
      simp
  | kept | recorded | cancelled | left | callerDone | closed | aborted =>
      exact ⟨hstored.seen_nodup, hheld⟩

/-! ## The workers -/

omit [DecidableEq H] [DecidableEq E] in
theorem Staffed.flushed {phase : Phase E} {err : Option E}
    (hstaffed : u.Staffed C) (hsending : u.sending ≠ none)
    (hphase : phase = u.phase ∨ u.phase = .flushing ∧ phase = .waiting err) :
    { u with sending := none, phase := phase }.Staffed C := by
  have hopen : ¬ u.windowsClosed := fun hclosed => hsending (hstaffed.closed_sending hclosed)
  cases hphase with
  | inl hsame =>
      subst hsame
      exact { hstaffed with closed_sending := fun _ => rfl }
  | inr hwaits =>
      rw [hwaits.2]
      exact
        { workers_eq := hstaffed.workers_eq
          closing_batch := fun _ =>
            hstaffed.closing_batch (by unfold Closing; rw [hwaits.1]; trivial)
          closed_sending := fun _ => rfl
          returned_exited := fun _ hreturned => by cases hreturned }

theorem step_staffed (hstaffed : u.Staffed C) (h : u.step C e = some u') : u'.Staffed C := by
  have hworkers := hstaffed.workers_eq
  cases step_moves h with
  | kept | callerDone => exact { hstaffed with }
  | joined hscanning =>
      refine
        { workers_eq := hworkers
          closing_batch := fun hclosing => ?_
          closed_sending := fun hclosed => ?_
          returned_exited := hstaffed.returned_exited }
      · simp [Closing, hscanning] at hclosing
      · simp [windowsClosed, hscanning] at hclosed
  | sent hsending hphase | gaveUp hsending _ hphase =>
      have hflushed := hstaffed.flushed (by rw [hsending]; exact Option.some_ne_none _) hphase
      exact { hflushed with }
  | received _ hidle =>
      refine { hstaffed with workers_eq := ?_ }
      dsimp only
      rw [List.length_cons]
      omega
  | stored hmem | failed hmem | recorded hmem =>
      have hlen := List.length_erase_of_mem hmem
      have hpos := List.length_pos_of_mem hmem
      refine { hstaffed with workers_eq := ?_ }
      simp only [List.length_cons]
      omega
  | cancelled | left =>
      refine { hstaffed with workers_eq := ?_, returned_exited := fun err hreturned => ?_ }
      · dsimp only [endContext]
        omega
      · have hall := hstaffed.returned_exited err hreturned
        omega
  | closes _ _ _ hphase =>
      rcases hphase with ⟨rfl, rfl⟩ | rfl
      · exact
          { workers_eq := hworkers
            closing_batch := fun _ => rfl
            closed_sending := fun _ => rfl
            returned_exited := fun _ hreturned => by cases hreturned }
      · exact
          { workers_eq := hworkers
            closing_batch := fun _ => rfl
            closed_sending := fun hclosed => by cases hclosed
            returned_exited := fun _ hreturned => by cases hreturned }
  | closed hwaiting hall =>
      exact
        { workers_eq := hworkers
          closing_batch := fun _ =>
            hstaffed.closing_batch (by unfold Closing; rw [hwaiting]; trivial)
          closed_sending := fun _ =>
            hstaffed.closed_sending (by unfold windowsClosed; rw [hwaiting])
          returned_exited := fun _ _ => hall }
  | aborted _ hsending =>
      exact
        { workers_eq := hworkers
          closing_batch := fun hclosing => hclosing.elim
          closed_sending := fun _ => hsending
          returned_exited := fun _ hreturned => by cases hreturned }

/-! ## Errors stay -/

omit [DecidableEq H] [DecidableEq E] in
theorem Alarmed.mono (halarmed : u.Alarmed) (hphase : u'.phase = u.phase)
    (hfailing : u.failing ≠ [] → u'.failing ≠ [] ∨ u'.failure ≠ none)
    (hfailure : u.failure ≠ none → u'.failure ≠ none) : u'.Alarmed := by
  unfold Alarmed at *
  rw [hphase]
  cases hcase : u.phase with
  | returned err =>
      rw [hcase] at halarmed
      exact halarmed
  | _ =>
      rw [hcase] at halarmed
      exact Or.elim halarmed hfailing fun hset => Or.inr (hfailure hset)

omit [DecidableEq H] [DecidableEq E] in
theorem alarmed_of_failure (hphase : ∀ err, u.phase ≠ .returned err) (hset : u.failure ≠ none) :
    u.Alarmed := by
  unfold Alarmed
  cases hcase : u.phase with
  | returned err => exact absurd hcase (hphase err)
  | _ => exact Or.inr hset

omit [DecidableEq H] [DecidableEq E] in
theorem failure_ne_none_of_err (hset : u.err ≠ none) : u.failure ≠ none := by
  intro hnone
  exact hset (Option.or_eq_none_iff.mp hnone).1

omit [DecidableEq H] [DecidableEq E] in
theorem failure_ne_none_of_ctxErr (hset : u.ctxErr.isSome) : u.failure ≠ none := by
  intro hnone
  rw [(Option.or_eq_none_iff.mp hnone).2] at hset
  cases hset

omit [DecidableEq H] [DecidableEq E] in
theorem endContext_failure (u : Uploader H E) (err : E) : (u.endContext err).failure ≠ none := by
  apply failure_ne_none_of_ctxErr
  change (u.ctxErr.or (some err)).isSome
  rw [Option.isSome_or]
  simp

omit [DecidableEq H] [DecidableEq E] in
theorem Alarmed.flushed {window : Option (List (ChunkData H))} {phase : Phase E}
    {lost : List (List (ChunkData H))} {windows : List (List (ChunkData H))} {err : Option E}
    (halarmed : u.Alarmed)
    (hphase : phase = u.phase ∨ u.phase = .flushing ∧ phase = .waiting err) :
    { u with windows := windows, lost := lost, sending := window, phase := phase }.Alarmed := by
  cases hphase with
  | inl hsame => exact halarmed.mono hsame Or.inl id
  | inr hwaits =>
      unfold Alarmed at halarmed
      rw [hwaits.1] at halarmed
      rw [hwaits.2]
      exact halarmed

omit [DecidableEq H] [DecidableEq E] in
theorem Staffed.not_returned (hstaffed : u.Staffed C)
    (hworking : 0 < u.idle + u.uploading.length + u.failing.length + u.cancelling)
    (err : Option E) : u.phase ≠ .returned err := by
  intro hreturned
  have hworkers := hstaffed.workers_eq
  have hall := hstaffed.returned_exited err hreturned
  omega

omit [DecidableEq H] [DecidableEq E] in
theorem Staffed.not_returned_of_sending (hstaffed : u.Staffed C) (hsending : u.sending ≠ none)
    (err : Option E) : u.phase ≠ .returned err := by
  intro hreturned
  exact hsending (hstaffed.closed_sending (by unfold windowsClosed; rw [hreturned]))

theorem step_alarmed (hstaffed : u.Staffed C) (halarmed : u.Alarmed)
    (h : u.step C e = some u') : u'.Alarmed := by
  cases step_moves h with
  | sent _ hphase | gaveUp _ _ hphase => exact halarmed.flushed hphase
  | closes hscanning _ _ hphase =>
      unfold Alarmed at halarmed
      rw [hscanning] at halarmed
      rcases hphase with ⟨rfl, -⟩ | rfl
      · exact halarmed
      · exact halarmed
  | failed => exact halarmed.mono rfl (fun _ => Or.inl (List.cons_ne_nil _ _)) id
  | @recorded err =>
      have hset : u.err.or (some err) ≠ none := by
        intro hnone
        cases (Option.or_eq_none_iff.mp hnone).2
      exact halarmed.mono rfl (fun _ => Or.inr (failure_ne_none_of_err hset))
        fun _ => failure_ne_none_of_err hset
  | cancelled | callerDone => exact halarmed.mono rfl Or.inl fun _ => endContext_failure _ _
  | @closed err hwaiting hall =>
      have hworkers := hstaffed.workers_eq
      have hnofailing : u.failing = [] := List.length_eq_zero_iff.mp (by omega)
      unfold Alarmed at halarmed
      rw [hwaiting] at halarmed
      have hset := halarmed.resolve_left (not_not_intro hnofailing)
      change err.or u.failure ≠ none
      intro hnone
      exact hset (Option.or_eq_none_iff.mp hnone).2
  | aborted =>
      exact alarmed_of_failure (fun _ hreturned => by cases hreturned) (endContext_failure _ _)
  | kept | joined | received | stored | left => exact halarmed

/-! ## What goes wrong raises an error -/

theorem step_troubled (hstaffed : u.Staffed C) (h : u.step C e = some u')
    (htroubled : u'.Troubled) : u.Troubled ∨ u'.Alarmed := by
  cases step_moves h with
  | @kept ch hscanning _ hold =>
      cases hold with
      | inl hdone =>
          refine Or.inr (alarmed_of_failure (fun err hreturned => ?_) ?_)
          · rw [hscanning] at hreturned
            cases hreturned
          · exact failure_ne_none_of_ctxErr hdone
      | inr hmem =>
          refine Or.inl (htroubled.imp id (Or.imp id ?_))
          rintro ⟨g, hoffered, hnot⟩
          refine ⟨g, (List.mem_cons.mp hoffered).resolve_left ?_, hnot⟩
          rintro rfl
          exact hnot hmem
  | joined =>
      refine Or.inl (htroubled.imp id (Or.imp id ?_))
      rintro ⟨g, hoffered, hnot⟩
      rw [List.mem_cons, not_or] at hnot
      exact ⟨g, (List.mem_cons.mp hoffered).resolve_left hnot.1, hnot.2⟩
  | gaveUp hsending hdone hphase =>
      have hset : u.Alarmed := by
        apply alarmed_of_failure
        · apply hstaffed.not_returned_of_sending
          rw [hsending]
          exact Option.some_ne_none _
        · exact failure_ne_none_of_ctxErr hdone
      exact Or.inr (hset.flushed hphase)
  | failed hmem =>
      have hpos := List.length_pos_of_mem hmem
      have hphase := hstaffed.not_returned (by omega)
      refine Or.inr ?_
      unfold Alarmed
      dsimp only
      cases hcase : u.phase with
      | returned result => exact absurd hcase (hphase result)
      | _ => exact Or.inl (List.cons_ne_nil _ _)
  | sent | received | stored | recorded | cancelled | left | callerDone | closes | closed
  | aborted => exact Or.inl htroubled

/-- A worker exits when no window is left, or after it raised an error; windows are queued
while the channel is open only. -/
theorem step_exited (hstaffed : u.Staffed C) (hwarned : u.Warned) (h : u.step C e = some u')
    (hpos : 0 < u'.exited) : u'.windowsClosed ∧ u'.windows = [] ∨ u'.Alarmed := by
  have hold : 0 < u.exited → u.Alarmed → u'.windowsClosed ∧ u'.windows = [] ∨ u'.Alarmed :=
    fun _ halarmed => Or.inr (step_alarmed hstaffed halarmed h)
  cases step_moves h with
  | kept hscanning | joined hscanning | closes hscanning =>
      refine (hwarned.exited_pos hpos).elim (fun hleft => ?_) (hold hpos)
      simp [windowsClosed, hscanning] at hleft
  | sent hsending | gaveUp hsending =>
      refine (hwarned.exited_pos hpos).elim (fun hleft => ?_) (hold hpos)
      rw [hstaffed.closed_sending hleft.1] at hsending
      cases hsending
  | received hwindows =>
      refine (hwarned.exited_pos hpos).elim (fun hleft => ?_) (hold hpos)
      rw [hwindows] at hleft
      cases hleft.2
  | cancelled =>
      refine Or.inr (alarmed_of_failure ?_ (endContext_failure _ _))
      exact hstaffed.not_returned (by omega)
  | left hclosed hwindows => exact Or.inl ⟨hclosed, hwindows⟩
  | closed =>
      exact (hwarned.exited_pos hpos).elim (fun hleft => Or.inl ⟨rfl, hleft.2⟩) (hold hpos)
  | aborted =>
      refine Or.inr (alarmed_of_failure (fun err hreturned => ?_) (endContext_failure _ _))
      cases hreturned
  | stored | failed | recorded | callerDone =>
      exact (hwarned.exited_pos hpos).elim Or.inl (hold hpos)

/-- What holds in every state of the uploader. -/
structure Inv (C : Config E) (u : Uploader H E) : Prop where
  stored : u.Stored
  staffed : u.Staffed C
  warned : u.Warned

theorem step_inv (hinv : u.Inv C) (h : u.step C e = some u') : u'.Inv C where
  stored := step_stored hinv.stored h
  staffed := step_staffed hinv.staffed h
  warned :=
    { exited_pos := step_exited hinv.staffed hinv.warned h
      troubled := fun htroubled =>
        (step_troubled hinv.staffed h htroubled).elim
          (fun hbefore => step_alarmed hinv.staffed (hinv.warned.troubled hbefore) h) id }

omit [DecidableEq E] in
theorem new_inv (C : Config E) : (newChunkUploader C : Uploader H E).Inv C where
  stored := ⟨List.nodup_nil, fun _ => rfl⟩
  staffed :=
    { workers_eq := rfl
      closing_batch := fun hclosing => hclosing.elim
      closed_sending := fun hclosed => by cases hclosed
      returned_exited := fun _ hreturned => by cases hreturned }
  warned :=
    { exited_pos := fun hpos => absurd hpos (Nat.lt_irrefl 0)
      troubled := by
        rintro (hlost | hfailures | ⟨h, hoffered, -⟩)
        · exact absurd rfl hlost
        · exact absurd rfl hfailures
        · cases hoffered }

theorem run_inv (hrun : UploaderRun C u u') (hinv : u.Inv C) : u'.Inv C :=
  hrun.invariant hinv fun _ _ _ hinv _ hstep => step_inv hinv hstep

omit [DecidableEq E] in
theorem Inv.uploaded_count (hinv : u.Inv C) (hreturned : u.phase = .returned none) {h : H}
    (hoffered : h ∈ u.offered) : (u.uploaded.flatten.map ChunkData.hash).count h = 1 := by
  have hcalm : ¬ u.Alarmed := by
    unfold Alarmed
    rw [hreturned]
    exact not_not_intro rfl
  have hfine := mt hinv.warned.troubled hcalm
  unfold Troubled at hfine
  push Not at hfine
  obtain ⟨hlost, -, hseen⟩ := hfine
  have hworkers := hinv.staffed.workers_eq
  have hall := hinv.staffed.returned_exited none hreturned
  have hpos := C.workers_pos
  have hwindows := (hinv.warned.exited_pos (by omega)).resolve_right hcalm
  have huploading : u.uploading = [] := List.length_eq_zero_iff.mp (by omega)
  have hbatch : u.batch = [] :=
    hinv.staffed.closing_batch (by unfold Closing; rw [hreturned]; trivial)
  have hheld := hinv.stored.held_eq h
  unfold held at hheld
  rw [hlost, hwindows.2, huploading, hbatch, hinv.staffed.closed_sending hwindows.1,
    List.count_eq_one_of_mem hinv.stored.seen_nodup (hseen h hoffered)] at hheld
  simpa [copies] using hheld


theorem step_err {err : E} (hset : u.err = some err) (h : u.step C e = some u') :
    u'.err = some err := by
  cases step_moves h with
  | recorded =>
      dsimp only
      rw [hset, Option.some_or]
  | _ => exact hset

theorem run_alarmed (hrun : UploaderRun C u u') (hinv : u.Inv C) (halarmed : u.Alarmed) :
    u'.Alarmed :=
  (hrun.invariant (I := fun v : Uploader H E => v.Inv C ∧ v.Alarmed) ⟨hinv, halarmed⟩
    fun _ _ _ hkept _ hstep =>
      ⟨step_inv hkept.1 hstep, step_alarmed hkept.1.staffed hkept.2 hstep⟩).2

end Uploader

variable [DecidableEq H] [DecidableEq E]

/-- In every run, when `close` returns no error each hash handed to `add` was in exactly one
upload that succeeded; once an upload has failed, `close` returns an error, and the first
error recorded stays. -/
theorem chunkUploader_complete (C : Config E) {u : Uploader H E}
    (hrun : UploaderRun C (newChunkUploader C) u) :
    (u.phase = .returned none →
      ∀ h ∈ u.offered, (u.uploaded.flatten.map ChunkData.hash).count h = 1) ∧
    ∀ u', UploaderRun C u u' →
      (u.failures ≠ [] → ∀ result, u'.phase = .returned result → result ≠ none) ∧
      ∀ err, u.err = some err → u'.err = some err := by
  have hinv := Uploader.run_inv hrun (Uploader.new_inv C)
  refine ⟨fun hreturned h hoffered => hinv.uploaded_count hreturned hoffered, ?_⟩
  intro u' hrest
  constructor
  · intro hfailed result hreturned
    have htroubled : u.Troubled := Or.inr (Or.inl hfailed)
    have halarmed := Uploader.run_alarmed hrest hinv (hinv.warned.troubled htroubled)
    unfold Uploader.Alarmed at halarmed
    rwa [hreturned] at halarmed
  · intro err hset
    exact hrest.invariant (I := fun v : Uploader H E => v.err = some err) hset
      fun _ _ _ hkept _ hstep => Uploader.step_err hkept hstep

/-- One chunk was handed over twice, and `close` has returned. -/
def uploadedOnce : Uploader ℕ Unit :=
  { newChunkUploader (uploadConfig ()) with
    seen := [7]
    idle := 0
    exited := 2
    ctxErr := some ()
    phase := .returned none
    offered := [7, 7]
    uploaded := [[⟨7, [1]⟩]] }

theorem uploadedOnce_steps :
    [.add ⟨7, [1]⟩, .add ⟨7, [1]⟩, .close, .send, .receive, .uploadSucceeds [⟨7, [1]⟩],
      .workerDone, .workerDone, .closed].foldlM (Uploader.step (uploadConfig ()))
      (newChunkUploader (uploadConfig ())) = some uploadedOnce := rfl

theorem chunkUploader_complete_twice :
    (uploadedOnce.uploaded.flatten.map ChunkData.hash).count 7 = 1 :=
  (chunkUploader_complete (uploadConfig ()) (Run.of_foldlM uploadedOnce_steps)).1 rfl 7
    List.mem_cons_self

end Upload

end Nipa
