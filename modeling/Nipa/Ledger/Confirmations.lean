import Nipa.Ledger.Tables
import Nipa.Possession

/-!
# Confirmations under a ledger

A confirmation with a ledger attached checks the chunks of the request, records
rows for those that are there, links the project to those it has proven, and only
then asks the ledger to attribute them.  The rows and links are written before the
ledger answers, in transactions of their own.
-/

namespace Nipa

open Support

variable {H : Type} [HashScheme H] [DecidableEq H]

/-! ## Calls -/

structure LedgerState (H : Type) where
  db : DB H
  store : ChunkStore H
  ledger : LedgerTables H

/-- The database calls of a confirmation that fail, with their causes. -/
structure Outages (H : Type) where
  listLinks : Option Str
  insertChunk : H → Option Str
  linkChunks : Option Str
  attributeChunks : Option Str

def noOutages : Outages H := ⟨none, fun _ => none, none, none⟩

/-- A request to confirm uploads. -/
structure ConfirmRequest (H : Type) where
  orgID : ID
  project : Project
  hashes : List H
  proofs : List (ChunkProof H)
  now : Int64

/-- The loop of `confirmLoop` over a database that can fail to record a row. -/
def recordLoop (σ : Signer) (fails : H → Option Str) (req : ConfirmRequest H)
    (linked : H → Bool) : List H → Confirming H → Confirming H × Except DomainError Unit
  | [], acc => (acc, .ok ())
  | h :: hs, acc =>
      match checkUpload σ acc.store req.project linked req.proofs req.now h with
      | (store', .error e) => ({ acc with store := store' }, .error e)
      | (store', .ok (_, false, _)) =>
          recordLoop σ fails req linked hs
            { acc with store := store', missing := acc.missing ++ [h] }
      | (store', .ok (size, true, link)) =>
          match fails h with
          | some cause => ({ acc with store := store' }, .error (errDatabase "%s" [cause]))
          | none =>
              recordLoop σ fails req linked hs
                { db := insertChunkIfNotExists acc.db h size
                  store := store'
                  missing := acc.missing
                  toLink := if link then acc.toLink ++ [h] else acc.toLink
                  attributed := acc.attributed ++ [⟨h, size⟩]
                  confirmedBytes := acc.confirmedBytes + size }

def attributeConfirmed (defaultQuota : ℤ) (out : Outages H) (req : ConfirmRequest H)
    (db : DB H) (ledger : LedgerTables H) (chunks : List (Chunk H)) :
    Except LedgerError (LedgerTables H) :=
  match out.attributeChunks with
  | some cause => .error (.domain (errDatabase "%s" [cause]))
  | none => ledger.attributeChunks defaultQuota db.chunks req.orgID req.project.id chunks

/-- Rows and links that were written stay when a later call fails. -/
def confirmWithLedger (σ : Signer) (defaultQuota : ℤ) (out : Outages H) (s : LedgerState H)
    (req : ConfirmRequest H) : LedgerState H × Except LedgerError (List H × ℕ) :=
  match out.listLinks with
  | some cause => (s, .error (.domain (errDatabase "%s" [cause])))
  | none =>
      match recordLoop σ out.insertChunk req (isLinked s.db req.project.id) req.hashes
          ⟨s.db, s.store, [], [], [], 0⟩ with
      | (acc, .error e) => (⟨acc.db, acc.store, s.ledger⟩, .error (.domain e))
      | (acc, .ok ()) =>
          match acc.toLink, out.linkChunks with
          | _ :: _, some cause =>
              (⟨acc.db, acc.store, s.ledger⟩, .error (.domain (errDatabase "%s" [cause])))
          | _, _ =>
              let db := linkProjectChunks acc.db req.project.id acc.toLink
              if acc.attributed = [] then
                (⟨db, acc.store, s.ledger⟩, .ok (acc.missing, acc.confirmedBytes))
              else
                match attributeConfirmed defaultQuota out req db s.ledger acc.attributed with
                | .error e => (⟨db, acc.store, s.ledger⟩, .error e)
                | .ok ledger => (⟨db, acc.store, ledger⟩, .ok (acc.missing, acc.confirmedBytes))

/-! ## What a confirmation keeps on failure -/

/-- The links and the attribution of the project are what they were. -/
def SameRights (s s' : LedgerState H) (projectID : ID) : Prop :=
  (∀ h, (projectID, h) ∈ s'.db.projectChunkUploads ↔ (projectID, h) ∈ s.db.projectChunkUploads) ∧
    s'.ledger = s.ledger

/-- What the check of one chunk says at the start of the request. -/
def ConfirmRequest.verdict (req : ConfirmRequest H) (σ : Signer) (s : LedgerState H) (h : H) :
    Except DomainError (ℕ × Bool × Bool) :=
  (checkUpload σ s.store req.project (isLinked s.db req.project.id) req.proofs req.now h).2

/-- A chunk of the request whose check or whose row cannot be completed. -/
def ConfirmRequest.Breaks (req : ConfirmRequest H) (σ : Signer) (out : Outages H)
    (s : LedgerState H) (h : H) : Prop :=
  (∃ e, req.verdict σ s h = .error e) ∨
    ∃ size link cause, req.verdict σ s h = .ok (size, true, link) ∧ out.insertChunk h = some cause

/-- A chunk of the request that the project is not linked to and has proven. -/
def ConfirmRequest.Proves (req : ConfirmRequest H) (σ : Signer) (s : LedgerState H) (h : H) :
    Prop :=
  ∃ size, req.verdict σ s h = .ok (size, true, true)

/-- A call before the ledger's fails, or nothing is to be linked. -/
def ConfirmRequest.NothingLinked (req : ConfirmRequest H) (σ : Signer) (out : Outages H)
    (s : LedgerState H) : Prop :=
  out.listLinks.isSome ∨ (∃ h ∈ req.hashes, req.Breaks σ out s h) ∨ out.linkChunks.isSome ∨
    ∀ h ∈ req.hashes, ¬ req.Proves σ s h

/-! ## Checks on a store that loses wrong content -/

theorem dropInvalidChunk_store (store : ChunkStore H) (h : H) :
    (dropInvalidChunk store h).1 = store ∨
      (dropInvalidChunk store h).1 = store.remove h ∧ (dropInvalidChunk store h).2 = .ok () := by
  rw [dropInvalidChunk]
  split
  · exact Or.inl rfl
  · split
    · exact Or.inr ⟨rfl, rfl⟩
    · exact Or.inl rfl

theorem verifyPossession_store (σ : Signer) (store : ChunkStore H) (project : Project) (h : H)
    (pr : ChunkProof H) (now : Int64) :
    (verifyPossession σ store project h pr now).1 = store ∨
      (verifyPossession σ store project h pr now).1 = store.remove h ∧
        (verifyPossession σ store project h pr now).2 = .ok (0, false) := by
  rw [verifyPossession]
  split
  · exact Or.inl rfl
  split
  · exact Or.inl rfl
  split
  · exact Or.inl rfl
  · exact Or.inl rfl
  · split
    · rcases dropInvalidChunk_store store h with hsame | ⟨hremoved, hres⟩
      · exact Or.inl hsame
      · refine Or.inr ⟨hremoved, ?_⟩
        show (dropInvalidChunk store h).2.map _ = .ok (0, false)
        rw [hres]
        rfl
    · exact Or.inl rfl

theorem checkUpload_store (σ : Signer) (store : ChunkStore H) (project : Project)
    (linked : H → Bool) (proofs : List (ChunkProof H)) (now : Int64) (h : H) :
    (checkUpload σ store project linked proofs now h).1 = store ∨
      (checkUpload σ store project linked proofs now h).1 = store.remove h ∧
        (checkUpload σ store project linked proofs now h).2 = .ok (0, false, false) ∧
        (linked h = true → proofByHash proofs h ≠ none) := by
  rw [checkUpload]
  split
  · split <;> exact Or.inl rfl
  next pr _ hpr =>
    rcases verifyPossession_store σ store project h pr now with hsame | ⟨hremoved, hres⟩
    · exact Or.inl hsame
    · exact Or.inr ⟨hremoved, by simp [hres, Except.map], fun _ => by simp [hpr]⟩
  next hlinked =>
    rcases verifyPossession_store σ store project h
      ((proofByHash proofs h).getD ⟨h, [], []⟩) now with hsame | ⟨hremoved, hres⟩
    · exact Or.inl hsame
    · exact Or.inr ⟨hremoved, by simp [hres, Except.map], fun htrue => by simp [htrue] at hlinked⟩

theorem verifyPossession_congr {store store' : ChunkStore H} {h : H}
    (hget : store'.get h = store.get h) (hdelete : store'.deleteChunk = store.deleteChunk)
    (σ : Signer) (project : Project) (pr : ChunkProof H) (now : Int64) :
    (verifyPossession σ store' project h pr now).2 =
      (verifyPossession σ store project h pr now).2 := by
  rw [verifyPossession, verifyPossession, hget]
  split
  · rfl
  split
  · rfl
  rcases store.get h with ⟨_ | cause⟩ | data
  · rfl
  · rfl
  · simp only
    split
    · rw [dropInvalidChunk, dropInvalidChunk, hdelete]
      split
      · rfl
      · split <;> rfl
    · rfl

theorem checkUpload_congr {store store' : ChunkStore H} {h : H}
    (hget : store'.get h = store.get h) (hdelete : store'.deleteChunk = store.deleteChunk)
    (σ : Signer) (project : Project) (linked : H → Bool) (proofs : List (ChunkProof H))
    (now : Int64) : (checkUpload σ store' project linked proofs now h).2 =
      (checkUpload σ store project linked proofs now h).2 := by
  rw [checkUpload, checkUpload]
  split
  · have hsize : store'.size h = store.size h := by rw [ChunkStore.size, ChunkStore.size, hget]
    rw [hsize]
    split <;> rfl
  · simp only [verifyPossession_congr hget hdelete]
  · simp only [verifyPossession_congr hget hdelete]

theorem checkUpload_notFound {store : ChunkStore H} {h : H} {linked : H → Bool}
    {proofs : List (ChunkProof H)} (hget : store.get h = .error .notFound)
    (hproof : linked h = true → proofByHash proofs h ≠ none) (σ : Signer) (project : Project)
    (now : Int64) :
    (checkUpload σ store project linked proofs now h).2 = .ok (0, false, false) := by
  have hverify : ∀ pr, (verifyPossession σ store project h pr now).2 = .ok (0, false) := by
    intro pr
    rw [verifyPossession, hget]
    split
    · rfl
    · split <;> rfl
  rw [checkUpload]
  split
  next hlinked hnone => exact absurd hnone (hproof hlinked)
  · simp [hverify, Except.map]
  · simp [hverify, Except.map]

/-- The store after some of the checks of a request: it has lost content that a check
of its own hash found to be wrong. -/
structure ConfirmRequest.Cleaned (req : ConfirmRequest H) (σ : Signer) (s : LedgerState H)
    (store : ChunkStore H) : Prop where
  delete : store.deleteChunk = s.store.deleteChunk
  get : ∀ h, store.get h = s.store.get h ∨ store.get h = .error .notFound ∧
    req.verdict σ s h = .ok (0, false, false) ∧
    (isLinked s.db req.project.id h = true → proofByHash req.proofs h ≠ none)

namespace ConfirmRequest

variable {req : ConfirmRequest H} {σ : Signer} {out : Outages H} {s : LedgerState H}
  {store : ChunkStore H}

theorem Cleaned.refl : req.Cleaned σ s s.store :=
  ⟨rfl, fun _ => Or.inl rfl⟩

theorem Cleaned.verdict (hc : req.Cleaned σ s store) (h : H) :
    (checkUpload σ store req.project (isLinked s.db req.project.id) req.proofs req.now h).2 =
      req.verdict σ s h := by
  rcases hc.get h with hget | ⟨hget, hverdict, hproof⟩
  · exact checkUpload_congr hget hc.delete _ _ _ _ _
  · rw [hverdict]
    exact checkUpload_notFound hget hproof _ _ _

theorem Cleaned.check (hc : req.Cleaned σ s store) (h : H) : req.Cleaned σ s
    (checkUpload σ store req.project (isLinked s.db req.project.id) req.proofs req.now h).1 := by
  rcases checkUpload_store σ store req.project (isLinked s.db req.project.id) req.proofs req.now h
    with hsame | ⟨hremoved, hres, hproof⟩
  · rwa [hsame]
  · rw [hremoved]
    refine ⟨hc.delete, fun h' => ?_⟩
    by_cases hh : h' = h
    · subst hh
      exact Or.inr ⟨by simp [ChunkStore.remove], (hc.verdict h').symm.trans hres, hproof⟩
    · have hget : (store.remove h).get h' = store.get h' := by simp [ChunkStore.remove, hh]
      rw [hget]
      exact hc.get h'

/-! ## The loop -/

/-- The loop fails exactly at a chunk that breaks it, links nothing, and collects the
chunks the request proves. -/
theorem recordLoop_spec {hs : List H} {acc acc' : Confirming H} {res : Except DomainError Unit}
    (hc : req.Cleaned σ s acc.store)
    (h : recordLoop σ out.insertChunk req (isLinked s.db req.project.id) hs acc = (acc', res)) :
    acc'.db.projectChunkUploads = acc.db.projectChunkUploads ∧
      ((∃ e, res = .error e) ↔ ∃ x ∈ hs, req.Breaks σ out s x) ∧
      (res = .ok () → ∀ x, x ∈ acc'.toLink ↔ x ∈ acc.toLink ∨ x ∈ hs ∧ req.Proves σ s x) := by
  induction hs generalizing acc with
  | nil =>
      obtain ⟨rfl, rfl⟩ := Prod.mk.inj h
      simp
  | cons a hs ih =>
      have hverdict := hc.verdict a
      have hnext := hc.check a
      rw [recordLoop] at h
      rcases hcheck : checkUpload σ acc.store req.project (isLinked s.db req.project.id) req.proofs
          req.now a with ⟨store', e | ⟨size, _ | _, link⟩⟩
      · rw [hcheck] at h hverdict
        obtain ⟨rfl, rfl⟩ := Prod.mk.inj h
        refine ⟨rfl, iff_of_true ⟨e, rfl⟩ ⟨a, List.mem_cons_self, Or.inl ⟨e, hverdict.symm⟩⟩, ?_⟩
        intro hok
        cases hok
      · rw [hcheck] at h hverdict hnext
        obtain ⟨hlinks, hfails, hlinked⟩ := ih hnext h
        have hnot : ¬ req.Breaks σ out s a := by
          rintro (⟨e, he⟩ | ⟨n, l, cause, he, -⟩)
          · rw [← hverdict] at he
            cases he
          · rw [← hverdict] at he
            simp at he
        have hnotp : ¬ req.Proves σ s a := by
          rintro ⟨n, he⟩
          rw [← hverdict] at he
          simp at he
        refine ⟨hlinks, ?_, fun hok x => ?_⟩
        · rw [hfails, List.exists_mem_cons_iff, or_iff_right hnot]
        · rw [hlinked hok x, List.mem_cons, or_and_right]
          have : ¬ (x = a ∧ req.Proves σ s x) := fun hx => hnotp (hx.1 ▸ hx.2)
          rw [or_iff_right this]
      · rw [hcheck] at h hverdict hnext
        simp only at h
        rcases hfail : out.insertChunk a with _ | cause
        · rw [hfail] at h
          obtain ⟨hlinks, hfails, hlinked⟩ := ih hnext h
          have hnot : ¬ req.Breaks σ out s a := by
            rintro (⟨e, he⟩ | ⟨n, l, cause, -, hcause⟩)
            · rw [← hverdict] at he
              cases he
            · rw [hfail] at hcause
              cases hcause
          have hproves : req.Proves σ s a ↔ link = true := by
            constructor
            · rintro ⟨n, he⟩
              rw [← hverdict] at he
              have hboth : size = n ∧ link = true := by simpa using he
              exact hboth.2
            · rintro rfl
              exact ⟨size, hverdict.symm⟩
          refine ⟨hlinks.trans (insertChunkIfNotExists_links _ _ _), ?_, fun hok x => ?_⟩
          · rw [hfails, List.exists_mem_cons_iff, or_iff_right hnot]
          · rw [hlinked hok x]
            cases link with
            | true =>
                have ha : req.Proves σ s a := hproves.mpr rfl
                rw [if_pos rfl, List.mem_append, List.mem_singleton, List.mem_cons]
                constructor
                · rintro ((hx | rfl) | hx)
                  · exact Or.inl hx
                  · exact Or.inr ⟨Or.inl rfl, ha⟩
                  · exact Or.inr ⟨Or.inr hx.1, hx.2⟩
                · rintro (hx | ⟨rfl | hx, hp⟩)
                  · exact Or.inl (Or.inl hx)
                  · exact Or.inl (Or.inr rfl)
                  · exact Or.inr ⟨hx, hp⟩
            | false =>
                have ha : ¬ req.Proves σ s a := fun hp => by simpa using hproves.mp hp
                have hnota : ¬ (x = a ∧ req.Proves σ s x) := fun hx => ha (hx.1 ▸ hx.2)
                rw [List.mem_cons, or_and_right, or_iff_right hnota]
                simp
        · rw [hfail] at h
          obtain ⟨rfl, rfl⟩ := Prod.mk.inj h
          refine ⟨rfl, iff_of_true ⟨_, rfl⟩ ⟨a, List.mem_cons_self,
            Or.inr ⟨size, link, cause, hverdict.symm, hfail⟩⟩, ?_⟩
          intro hok
          cases hok

theorem Proves.not_linked {h : H} (hp : req.Proves σ s h) :
    (req.project.id, h) ∉ s.db.projectChunkUploads := by
  intro hmem
  have hlinked : isLinked s.db req.project.id h = true := by simpa [isLinked] using hmem
  obtain ⟨size, hverdict⟩ := hp
  rw [verdict, checkUpload, hlinked] at hverdict
  split at hverdict
  · split at hverdict <;> simp at hverdict
  next pr _ _ =>
    change (verifyPossession σ s.store req.project h pr req.now).2.map
      (fun r => (r.1, r.2, false)) = _ at hverdict
    generalize (verifyPossession σ s.store req.project h pr req.now).2 = res at hverdict
    rcases res with e | r <;> simp [Except.map] at hverdict
  next heq => cases heq

end ConfirmRequest

/-! ## Refused confirmations -/

/-- A refused confirmation leaves the links and the attribution of the project as they
were exactly when a call before the ledger's fails, or the request proves no chunk that
the project is not linked to. -/
theorem refused_confirmation_iff {σ : Signer} {defaultQuota : ℤ} {out : Outages H}
    {s s' : LedgerState H} {req : ConfirmRequest H} {e : LedgerError}
    (h : confirmWithLedger σ defaultQuota out s req = (s', .error e)) :
    SameRights s s' req.project.id ↔ req.NothingLinked σ out s := by
  rw [confirmWithLedger] at h
  split at h
  next cause hcause =>
    obtain ⟨rfl, -⟩ := Prod.mk.inj h
    exact iff_of_true ⟨fun _ => Iff.rfl, rfl⟩ (Or.inl (by simp [hcause]))
  next hlist =>
    split at h
    next acc e' hloop =>
      obtain ⟨hlinks, hfails, -⟩ := ConfirmRequest.recordLoop_spec ConfirmRequest.Cleaned.refl hloop
      obtain ⟨rfl, -⟩ := Prod.mk.inj h
      refine iff_of_true ⟨fun x => by rw [hlinks], rfl⟩ (Or.inr (Or.inl ?_))
      exact hfails.mp ⟨e', rfl⟩
    next acc hloop =>
      obtain ⟨hlinks, hfails, hlinked⟩ :=
        ConfirmRequest.recordLoop_spec ConfirmRequest.Cleaned.refl hloop
      have hlinked : ∀ x, x ∈ acc.toLink ↔ x ∈ req.hashes ∧ req.Proves σ s x := fun x => by
        simpa using hlinked rfl x
      have hnobreak : ¬ ∃ x ∈ req.hashes, req.Breaks σ out s x := fun hbreak => by
        obtain ⟨e', he'⟩ := hfails.mpr hbreak
        cases he'
      split at h
      next first rest cause hfirst hcause =>
        obtain ⟨rfl, -⟩ := Prod.mk.inj h
        exact iff_of_true ⟨fun x => by rw [hlinks], rfl⟩
          (Or.inr (Or.inr (Or.inl (by simp [hcause]))))
      next hcall =>
        -- the links are written, then the ledger refuses
        have hs' : s'.db = linkProjectChunks acc.db req.project.id acc.toLink ∧
            s'.ledger = s.ledger := by
          split at h
          · cases h
          · dsimp only at h
            split at h
            · obtain ⟨rfl, -⟩ := Prod.mk.inj h
              exact ⟨rfl, rfl⟩
            · cases h
        constructor
        · rintro ⟨hsame, -⟩
          refine Or.inr (Or.inr (Or.inr fun x hx hp => hp.not_linked ?_))
          rw [← hsame x, hs'.1, mem_linkProjectChunks]
          exact Or.inr ⟨x, (hlinked x).mpr ⟨hx, hp⟩, rfl⟩
        · intro hnothing
          have hnil : acc.toLink = [] := by
            rcases hnothing with hcause | hbreak | hcause | hnone
            · simp [hlist] at hcause
            · exact absurd hbreak hnobreak
            · obtain ⟨cause, hcause⟩ := Option.isSome_iff_exists.mp hcause
              rcases htoLink : acc.toLink with _ | ⟨first, rest⟩
              · rfl
              · exact absurd hcause (hcall first rest cause htoLink)
            · refine List.eq_nil_iff_forall_not_mem.mpr fun x hx => ?_
              exact hnone x ((hlinked x).mp hx).1 ((hlinked x).mp hx).2
          refine ⟨fun x => ?_, hs'.2⟩
          rw [hs'.1, mem_linkProjectChunks, hnil, hlinks]
          simp

/-! ## A quota that is too small -/

/-- One organisation with one project, and nothing attributed. -/
def demoLedger : LedgerTables IdealHash where
  organizations := [(1, 9)]
  projects := [(1, 1)]
  billingOwner := fun _ => none
  ownerQuota := fun _ => none
  projectChunks := []
  projectUsage := fun _ => none
  orgUsage := fun _ => none

def sentLedger : LedgerState IdealHash := ⟨sentServer.db, sentServer.store, demoLedger⟩

def demoRequest : ConfirmRequest IdealHash := ⟨1, demoProject, [demoHash], [demoAnswer], 150⟩

theorem eq_of_snd {α β : Type} {x : α × β} {b : β} (h : x.2 = b) : x = (x.1, b) := by
  rw [← h]

/-- Three bytes do not fit a quota of two: the confirmation is refused, and the project
is linked to the chunk. -/
theorem refused_confirmation_links : ¬ ∀ (s s' : LedgerState IdealHash)
    (req : ConfirmRequest IdealHash) (defaultQuota : ℤ) (out : Outages IdealHash)
    (e : LedgerError),
    confirmWithLedger plainSigner defaultQuota out s req = (s', .error e) →
    SameRights s s' req.project.id := by
  intro hall
  have hrefused : (confirmWithLedger plainSigner 2 noOutages sentLedger demoRequest).2 =
      .error (.quotaExceeded 0 2 3) := by
    decide +kernel
  obtain ⟨hsame, -⟩ := hall sentLedger _ demoRequest 2 noOutages _ (eq_of_snd hrefused)
  have hlinked : (1, demoHash) ∈ (confirmWithLedger plainSigner 2 noOutages sentLedger
      demoRequest).1.db.projectChunkUploads := by
    decide +kernel
  have hbefore : (1, demoHash) ∉ sentLedger.db.projectChunkUploads := by
    decide
  exact hbefore ((hsame demoHash).mp hlinked)

/-- A retry of the refused confirmation links nothing more. -/
theorem refused_confirmation_demo :
    let s := (confirmWithLedger plainSigner 2 noOutages sentLedger demoRequest).1
    SameRights s (confirmWithLedger plainSigner 2 noOutages s demoRequest).1 1 := by
  intro s
  have hrefused : (confirmWithLedger plainSigner 2 noOutages s demoRequest).2 =
      .error (.quotaExceeded 0 2 3) := by
    decide +kernel
  refine (refused_confirmation_iff (eq_of_snd hrefused)).mpr (Or.inr (Or.inr (Or.inr ?_)))
  intro h hh hp
  obtain rfl := List.mem_singleton.mp hh
  refine hp.not_linked ?_
  decide +kernel

end Nipa
