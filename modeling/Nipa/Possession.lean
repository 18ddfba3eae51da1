import Nipa.ChunkUploads

/-!
# Who gets linked to a chunk

Knowing the hash of a chunk is not enough to use it.  In every run of the server a
confirmation links a project only to chunks whose content it answers a challenge
with, a challenge that was handed out for that project and that chunk.  Every other
link is made for content that came with the call or that the server made itself.

Two things are assumed of the message authentication code: no two messages have the
same one, and a request carries the code of a message only after the server has
signed the message.
-/

namespace Nipa

open Support

/-! ## Runs -/

structure ChunkServer (H : Type) where
  db : DB H
  store : ChunkStore H
  log : SigningLog H

inductive ChunkEvent (H : Type) where
  | presignUploads
  | presignDownloads
  | storeUploaded (h : H) (data : List UInt8)
  | confirmUploads (project : Project) (hashes : List H) (proofs : List (ChunkProof H))
      (now : Int64)
  | uploadForProject (project : Project) (h : H) (data : List UInt8)
  | storeMerged (project : Project) (chunks : List (H × List UInt8))
  | push (caller : Caller) (commitID : ID) (req : PushRequest H)
  | other

section Steps

variable {H : Type} [HashScheme H] [DecidableEq H]

/-- The calls of any users and projects.  Whatever else goes on links no project; it can
change the stored content in any way, as clients of a direct backend do. -/
inductive ChunkStep (σ : Signer) (cfg : TransferConfig H) :
    ChunkServer H → ChunkEvent H → ChunkServer H → Prop where
  | presignUploads {s : ChunkServer H} {project : Project} {refs : List (ChunkRef H)}
      {pageSize : ℤ} {pageToken : TextField ℤ} {nonces : Nonces} {now : Int64}
      {urls : List (ChunkURL H)} {next : Str} {log : SigningLog H}
      (h : presignUploadURLs σ cfg s.db s.store project refs pageSize pageToken nonces now =
        .ok (urls, next, log)) :
      ChunkStep σ cfg s .presignUploads ⟨s.db, s.store, s.log.append log⟩
  | presignDownloads {s : ChunkServer H} {project : Project} {hashes : List H}
      {pageSize : ℤ} {pageToken : TextField ℤ} {now : Int64}
      {urls : List (H × UploadTarget)} {next : Str} {log : SigningLog H}
      (h : presignDownloadURLs σ cfg s.store project hashes pageSize pageToken now =
        .ok (urls, next, log)) :
      ChunkStep σ cfg s .presignDownloads ⟨s.db, s.store, s.log.append log⟩
  | storeUploaded {s : ChunkServer H} {hash : H} {data : List UInt8} {store' : ChunkStore H}
      (h : storeUploaded s.store hash data = .ok store') :
      ChunkStep σ cfg s (.storeUploaded hash data) ⟨s.db, store', s.log⟩
  | confirmUploads {s : ChunkServer H} {project : Project} {hashes : List H}
      {proofs : List (ChunkProof H)} {now : Int64} {db' : DB H} {store' : ChunkStore H}
      {res : Except DomainError (List H × ℕ)}
      (h : confirmUploads σ cfg s.db s.store project hashes proofs now = (db', store', res)) :
      ChunkStep σ cfg s (.confirmUploads project hashes proofs now) ⟨db', store', s.log⟩
  | uploadForProject {s : ChunkServer H} {project : Project} {hash : H} {data : List UInt8}
      {db' : DB H} {store' : ChunkStore H}
      (h : uploadForProject s.db s.store project hash data = .ok (db', store')) :
      ChunkStep σ cfg s (.uploadForProject project hash data) ⟨db', store', s.log⟩
  | storeMerged {s : ChunkServer H} {project : Project} {chunks : List (H × List UInt8)}
      {db' : DB H} {store' : ChunkStore H}
      (h : storeMerged s.db s.store project chunks = .ok (db', store')) :
      ChunkStep σ cfg s (.storeMerged project chunks) ⟨db', store', s.log⟩
  | push {s : ChunkServer H} {caller : Caller} {commitID : ID} {req : PushRequest H}
      {db' : DB H} (h : push s.db caller commitID req = .ok db') :
      ChunkStep σ cfg s (.push caller commitID req) ⟨db', s.store, s.log⟩
  | other {s : ChunkServer H} {db' : DB H} {store' : ChunkStore H}
      (h : db'.projectChunkUploads = s.db.projectChunkUploads) :
      ChunkStep σ cfg s .other ⟨db', store', s.log⟩

/-- A confirmation carries the code of a message only if the server has signed it. -/
def Unforged (σ : Signer) (s : ChunkServer H) : ChunkEvent H → Prop
  | .confirmUploads _ _ proofs _ => ∀ pr ∈ proofs, ∀ encoded sig,
      cut '.' pr.challenge = some (encoded, sig) → ∀ m, sig = σ.tag m → m ∈ s.log.signed
  | _ => True

/-- The request answers a challenge for the chunk with the chunk's content. -/
def Proves (σ : Signer) (s : ChunkServer H) (project : Project)
    (proofs : List (ChunkProof H)) (now : Int64) (h : H) : Prop :=
  ∃ pr ∈ proofs, pr.hash = h ∧ (∃ c ∈ s.log.issued, c.project.id = project.id ∧ c.hash = h ∧
    pr.challenge = c.text σ ∧ now ≤ c.expires) ∧
      ∃ data, s.store.get h = .ok data ∧ HashScheme.sum data = h ∧
        pr.proof = proof H pr.challenge data

/-- The call may link the project to the chunk. -/
def Justified (σ : Signer) (s : ChunkServer H) (projectID : ID) (h : H) :
    ChunkEvent H → Prop
  | .confirmUploads project hashes proofs now =>
      project.id = projectID ∧ h ∈ hashes ∧ Proves σ s project proofs now h
  | .uploadForProject project h' data =>
      project.id = projectID ∧ h' = h ∧ HashScheme.sum data = h
  | .storeMerged project chunks =>
      project.id = projectID ∧ ∃ data, (h, data) ∈ chunks ∧ HashScheme.sum data = h
  | _ => False

/-! ## What the server signs -/

/-- Everything signed is a challenge that was handed out, or a transfer. -/
def SigningLog.Accounted (log : SigningLog H) : Prop :=
  ∀ m ∈ log.signed, (∃ c ∈ log.issued, m = c.message) ∨
    ∃ rest, m = utf8 (opUpload ++ rest) ∨ m = utf8 (opDownload ++ rest)

variable {log : SigningLog H}

omit [DecidableEq H] in
theorem SigningLog.Accounted.append {log' : SigningLog H} (h : log.Accounted)
    (h' : log'.Accounted) :
    (log.append log').Accounted := by
  intro m hm
  rcases List.mem_append.mp hm with hm | hm
  · rcases h m hm with ⟨c, hc, heq⟩ | htransfer
    · exact Or.inl ⟨c, List.mem_append_left _ hc, heq⟩
    · exact Or.inr htransfer
  · rcases h' m hm with ⟨c, hc, heq⟩ | htransfer
    · exact Or.inl ⟨c, List.mem_append_right _ hc, heq⟩
    · exact Or.inr htransfer

variable {σ : Signer}

omit [DecidableEq H] in
theorem presignPage_accounted {store : ChunkStore H} {project : Project} {linked : H → Bool}
    {expires : Int64} {nonces : Nonces} {refs : List (ChunkRef H)} {n : ℕ}
    {urls : List (ChunkURL H)}
    (h : presignPage σ store project linked expires nonces refs n = .ok (urls, log)) :
    log.Accounted := by
  induction refs generalizing n urls log with
  | nil =>
      obtain ⟨-, rfl⟩ := Prod.mk.inj (Except.ok.inj h)
      intro m hm
      simp at hm
  | cons ref rest ih =>
      rw [presignPage] at h
      simp only [bind_eq_ok] at h
      obtain ⟨stored, -, ⟨urls', log'⟩, hrest, h⟩ := h
      have hlog' := ih hrest
      split at h
      · obtain ⟨-, rfl⟩ := Prod.mk.inj (pure_eq_ok.mp h)
        exact hlog'
      · obtain ⟨-, rfl⟩ := Prod.mk.inj (pure_eq_ok.mp h)
        intro m hm
        rcases List.mem_cons.mp hm with rfl | hm
        · exact Or.inl ⟨_, List.mem_cons_self, rfl⟩
        rcases List.mem_append.mp hm with hm | hm
        · -- a transfer is signed for content that is not stored
          split at hm
          · simp at hm
          · rw [uploadTarget] at hm
            split at hm
            · simp at hm
            · rw [List.mem_singleton] at hm
              exact Or.inr ⟨_, Or.inl hm⟩
        · rcases hlog' m hm with ⟨c, hc, heq⟩ | htransfer
          · exact Or.inl ⟨c, List.mem_cons_of_mem _ hc, heq⟩
          · exact Or.inr htransfer

variable {cfg : TransferConfig H} {hashes : List H} {now : Int64}

omit [DecidableEq H] in
theorem presignDownloadURLs_accounted {store : ChunkStore H} {project : Project} {pageSize : ℤ}
    {pageToken : TextField ℤ} {urls : List (H × UploadTarget)} {next : Str}
    (h : presignDownloadURLs σ cfg store project hashes pageSize pageToken now =
      .ok (urls, next, log)) : log.Accounted := by
  rw [presignDownloadURLs] at h
  obtain ⟨⟨page, next'⟩, -, h⟩ := bind_eq_ok.mp h
  simp only at h
  split at h
  · obtain ⟨-, heq⟩ := Prod.mk.inj (pure_eq_ok.mp h)
    obtain ⟨-, rfl⟩ := Prod.mk.inj heq
    intro m hm
    simp at hm
  · obtain ⟨-, heq⟩ := Prod.mk.inj (pure_eq_ok.mp h)
    obtain ⟨-, rfl⟩ := Prod.mk.inj heq
    intro m hm
    obtain ⟨hash, -, rfl⟩ := List.mem_map.mp hm
    exact Or.inr ⟨_, Or.inr rfl⟩

theorem Accounted.step {s s' : ChunkServer H} {e : ChunkEvent H} (h : s.log.Accounted)
    (hstep : ChunkStep σ cfg s e s') : s'.log.Accounted := by
  cases hstep with
  | presignUploads hpresign =>
      rw [presignUploadURLs] at hpresign
      simp only [bind_eq_ok, pure_eq_ok] at hpresign
      obtain ⟨_, -, _, -, ⟨page, next'⟩, -, ⟨urls', log'⟩, hpage, heq⟩ := hpresign
      obtain ⟨-, heq⟩ := Prod.mk.inj heq
      obtain ⟨-, rfl⟩ := Prod.mk.inj heq
      exact h.append (presignPage_accounted hpage)
  | presignDownloads hpresign => exact h.append (presignDownloadURLs_accounted hpresign)
  | storeUploaded _ => exact h
  | confirmUploads _ => exact h
  | uploadForProject _ => exact h
  | storeMerged _ => exact h
  | push _ => exact h
  | other _ => exact h

omit [DecidableEq H] in
theorem SigningLog.Accounted.issued (h : log.Accounted) {projectID : ID} (hid : projectID < 2 ^ 64)
    {hash : H} {encoded : Str} (hm : challengeMessage projectID hash encoded ∈ log.signed) :
    ∃ c ∈ log.issued, c.project.id = projectID ∧ c.hash = hash ∧
      encoded = encodedPayload c.expires c.nonce := by
  -- the first byte tells challenges from transfers
  have hstart : ∀ op rest, ((utf8 op).head?.any fun b => b ≠ 110) = true →
      (challengeMessage projectID hash encoded).head? ≠ (utf8 (op ++ rest)).head? := by
    intro op rest hop heq
    have hfirst : (challengeMessage projectID hash encoded).head? = some 110 := rfl
    rw [hfirst, utf8, List.flatMap_append, List.head?_append] at heq
    rcases hb : (utf8 op).head? with _ | b
    · simp [hb] at hop
    · rw [utf8] at hb
      rw [hb, Option.some_or] at heq
      rw [utf8, hb, ← heq] at hop
      simp at hop
  rcases h _ hm with ⟨c, hc, heq⟩ | ⟨rest, heq | heq⟩
  · obtain ⟨rfl, rfl, rfl⟩ := challengeMessage_inj hid c.project.id_lt heq
    exact ⟨c, hc, rfl, rfl, rfl⟩
  · exact absurd (congrArg List.head? heq) (hstart opUpload rest rfl)
  · exact absurd (congrArg List.head? heq) (hstart opDownload rest rfl)

/-! ## Links -/

variable {db : DB H}

omit [HashScheme H] in
theorem mem_linkProjectChunks {projectID : ID} {x : ID × H} :
    x ∈ (linkProjectChunks db projectID hashes).projectChunkUploads ↔
      x ∈ db.projectChunkUploads ∨ ∃ h ∈ hashes, x = (projectID, h) := by
  rw [linkProjectChunks]
  generalize db.projectChunkUploads = links
  induction hashes generalizing links with
  | nil => simp
  | cons h hs ih =>
      rw [List.foldl_cons, ih]
      split
      next hold =>
        constructor
        · rintro (hx | ⟨h', hh', rfl⟩)
          · exact Or.inl hx
          · exact Or.inr ⟨h', List.mem_cons_of_mem _ hh', rfl⟩
        · rintro (hx | ⟨h', hh', rfl⟩)
          · exact Or.inl hx
          · rcases List.mem_cons.mp hh' with rfl | hh'
            · exact Or.inl hold
            · exact Or.inr ⟨h', hh', rfl⟩
      next =>
        rw [List.mem_append, List.mem_singleton]
        constructor
        · rintro ((hx | rfl) | ⟨h', hh', rfl⟩)
          · exact Or.inl hx
          · exact Or.inr ⟨h, List.mem_cons_self, rfl⟩
          · exact Or.inr ⟨h', List.mem_cons_of_mem _ hh', rfl⟩
        · rintro (hx | ⟨h', hh', rfl⟩)
          · exact Or.inl (Or.inl hx)
          · rcases List.mem_cons.mp hh' with rfl | hh'
            · exact Or.inl (Or.inr rfl)
            · exact Or.inr ⟨h', hh', rfl⟩

omit [HashScheme H] in
theorem attributeProjectChunks_eq (db : DB H) (projectID : ID) (chunks : List (Chunk H)) :
    attributeProjectChunks db projectID chunks =
      linkProjectChunks db projectID (chunks.map Chunk.hash) := by
  rw [attributeProjectChunks, linkProjectChunks, List.foldl_map]

omit [HashScheme H] in
theorem insertChunkIfNotExists_links (db : DB H) (h : H) (size : ℕ) :
    (insertChunkIfNotExists db h size).projectChunkUploads = db.projectChunkUploads := by
  rw [insertChunkIfNotExists]
  split <;> rfl

variable {db' : DB H} {store' : ChunkStore H}

theorem uploadChunk_ok {store : ChunkStore H} {h : H} {data : List UInt8}
    (hup : uploadChunk db store h data = .ok (db', store')) :
    db'.projectChunkUploads = db.projectChunkUploads ∧ HashScheme.sum data = h := by
  rw [uploadChunk, storeUploaded] at hup
  simp only [bind_eq_ok, refuseIf_eq_ok, pure_eq_ok, not_not] at hup
  obtain ⟨_, ⟨_, hsum, -⟩, heq⟩ := hup
  obtain ⟨rfl, -⟩ := Prod.mk.inj heq
  exact ⟨insertChunkIfNotExists_links db h data.length, hsum⟩

theorem uploadChunks_ok {chunks : List (H × List UInt8)} {store : ChunkStore H}
    (h : chunks.foldlM (fun acc c => uploadChunk acc.1 acc.2 c.1 c.2) (db, store) =
      .ok (db', store')) :
    db'.projectChunkUploads = db.projectChunkUploads ∧
      ∀ c ∈ chunks, HashScheme.sum c.2 = c.1 := by
  induction chunks generalizing db store with
  | nil =>
      obtain ⟨rfl, -⟩ := Prod.mk.inj (Except.ok.inj h)
      exact ⟨rfl, by simp⟩
  | cons c cs ih =>
      rw [List.foldlM_cons] at h
      obtain ⟨⟨db₁, store₁⟩, hfirst, h⟩ := bind_eq_ok.mp h
      obtain ⟨hlinks, hsum⟩ := uploadChunk_ok hfirst
      obtain ⟨hlinks', hsums⟩ := ih h
      refine ⟨hlinks'.trans hlinks, ?_⟩
      intro c' hc'
      rcases List.mem_cons.mp hc' with rfl | hc'
      · exact hsum
      · exact hsums c' hc'

theorem push_links {caller : Caller} {commitID : ID} {req : PushRequest H}
    (h : push db caller commitID req = .ok db') :
    db'.projectChunkUploads = db.projectChunkUploads := by
  obtain ⟨files, branch, userID, head, parent2, plan, root, mid, hp⟩ := push_ok h
  have happlied := hp.applied
  rw [applyPush] at happlied
  simp only [bind_eq_ok, pure_eq_ok] at happlied
  obtain ⟨_, -, _, -, _, -, _, -, _, -, rfl⟩ := happlied
  rw [hp.result_eq]
  rfl

/-! ## Answered challenges -/

/-- One of the proofs answers a valid challenge with the stored content. -/
def Answered (σ : Signer) (store : ChunkStore H) (project : Project)
    (proofs : List (ChunkProof H)) (now : Int64) (h : H) : Prop :=
  ∃ pr ∈ proofs, pr.hash = h ∧ verifyChallenge σ project.id h pr.challenge now = true ∧
    ∃ data, store.get h = .ok data ∧ HashScheme.sum data = h ∧
      pr.proof = proof H pr.challenge data

/-- Nothing is in the second store that is not in the first. -/
def KeepsContent (store store' : ChunkStore H) : Prop :=
  ∀ h data, store'.get h = .ok data → store.get h = .ok data

variable {proofs : List (ChunkProof H)}

omit [DecidableEq H] in
theorem Answered.of_keeps {store : ChunkStore H} {project : Project} {h : H}
    (ha : Answered σ store' project proofs now h) (hk : KeepsContent store store') :
    Answered σ store project proofs now h := by
  obtain ⟨pr, hpr, hhash, hv, data, hget, hrest⟩ := ha
  exact ⟨pr, hpr, hhash, hv, data, hk h data hget, hrest⟩

theorem dropInvalidChunk_keeps (store : ChunkStore H) (h : H) :
    KeepsContent store (dropInvalidChunk store h).1 := by
  intro h' data hget
  rw [dropInvalidChunk] at hget
  split at hget
  · exact hget
  · split at hget
    · by_cases hh : h' = h
      · subst hh
        simp [ChunkStore.remove] at hget
      · simpa [ChunkStore.remove, hh] using hget
    · exact hget

theorem verifyPossession_keeps (σ : Signer) (store : ChunkStore H) (project : Project) (h : H)
    (pr : ChunkProof H) (now : Int64) :
    KeepsContent store (verifyPossession σ store project h pr now).1 := by
  have hrefl : KeepsContent store store := fun _ _ hget => hget
  rw [verifyPossession]
  split
  · exact hrefl
  split
  · exact hrefl
  split
  · exact hrefl
  · exact hrefl
  · split
    · exact dropInvalidChunk_keeps store h
    · exact hrefl

theorem verifyPossession_true {store : ChunkStore H} {project : Project} {h : H} {pr : ChunkProof H}
    {size : ℕ} (hv : (verifyPossession σ store project h pr now).2 = .ok (size, true)) :
    pr.challenge ≠ [] ∧ verifyChallenge σ project.id h pr.challenge now = true ∧
      ∃ data, store.get h = .ok data ∧ HashScheme.sum data = h ∧
        pr.proof = proof H pr.challenge data := by
  rw [verifyPossession] at hv
  split at hv
  · simp at hv
  next hempty =>
    split at hv
    · simp at hv
    next hchallenge =>
      split at hv
      · simp at hv
      · simp at hv
      next data hget =>
        split at hv
        · -- content that does not match its hash never proves anything
          simp only [dropInvalidChunk] at hv
          split at hv
          · simp [Except.map] at hv
          · split at hv <;> simp [Except.map] at hv
        next hsum =>
          simp only [Except.ok.injEq, Prod.mk.injEq, beq_iff_eq] at hv
          exact ⟨fun hnil => hempty (Or.inl hnil), by simpa using hchallenge, data, hget,
            not_not.mp hsum, hv.2.symm⟩

theorem checkUpload_keeps (σ : Signer) (store : ChunkStore H) (project : Project)
    (linked : H → Bool) (proofs : List (ChunkProof H)) (now : Int64) (h : H) :
    KeepsContent store (checkUpload σ store project linked proofs now h).1 := by
  rw [checkUpload]
  split
  · split
    · exact fun _ _ hget => hget
    · exact fun _ _ hget => hget
    · exact fun _ _ hget => hget
  · exact verifyPossession_keeps _ _ _ _ _ _
  · exact verifyPossession_keeps _ _ _ _ _ _

theorem checkUpload_link {store : ChunkStore H} {project : Project} {linked : H → Bool} {h : H}
    {size : ℕ}
    (hcheck : checkUpload σ store project linked proofs now h = (store', .ok (size, true, true))) :
    Answered σ store project proofs now h := by
  rw [checkUpload] at hcheck
  split at hcheck
  · split at hcheck <;> simp at hcheck
  next pr _ _ =>
    -- a linked chunk is not linked again
    rcases hv : verifyPossession σ store project h pr now with ⟨store₁, e | r⟩
    · rw [hv] at hcheck
      simp [Except.map] at hcheck
    · rw [hv] at hcheck
      simp [Except.map] at hcheck
  · rcases hv : verifyPossession σ store project h
        ((proofByHash proofs h).getD ⟨h, [], []⟩) now with ⟨store₁, e | ⟨n, b⟩⟩
    · rw [hv] at hcheck
      simp [Except.map] at hcheck
    · rw [hv] at hcheck
      simp only [Except.map, Except.ok.injEq, Prod.mk.injEq] at hcheck
      obtain ⟨-, -, rfl, -⟩ := hcheck
      obtain ⟨hne, hanswer⟩ := verifyPossession_true (congrArg Prod.snd hv)
      rcases hpr : proofByHash proofs h with _ | pr
      · rw [hpr] at hne
        exact absurd rfl hne
      · rw [hpr] at hanswer
        have hmem := List.mem_of_find?_eq_some hpr
        exact ⟨pr, List.mem_reverse.mp hmem, by simpa using List.find?_some hpr, hanswer⟩

theorem confirmLoop_ok {project : Project} {linked : H → Bool} {acc acc' : Confirming H}
    {res : Except DomainError Unit}
    (h : confirmLoop σ project linked proofs now hashes acc = (acc', res)) :
    acc'.db.projectChunkUploads = acc.db.projectChunkUploads ∧
      ∀ x ∈ acc'.toLink, x ∈ acc.toLink ∨
        x ∈ hashes ∧ Answered σ acc.store project proofs now x := by
  induction hashes generalizing acc with
  | nil =>
      obtain ⟨rfl, -⟩ := Prod.mk.inj h
      exact ⟨rfl, fun x hx => Or.inl hx⟩
  | cons a rest ih =>
      have hkeeps := checkUpload_keeps σ acc.store project linked proofs now a
      rw [confirmLoop] at h
      split at h
      · obtain ⟨rfl, -⟩ := Prod.mk.inj h
        exact ⟨rfl, fun x hx => Or.inl hx⟩
      next store' n link hcheck =>
        rw [hcheck] at hkeeps
        obtain ⟨hlinks, hall⟩ := ih h
        refine ⟨hlinks, fun x hx => ?_⟩
        rcases hall x hx with hold | ⟨hmem, hanswer⟩
        · exact Or.inl hold
        · exact Or.inr ⟨List.mem_cons_of_mem _ hmem, hanswer.of_keeps hkeeps⟩
      next store' size link hcheck =>
        rw [hcheck] at hkeeps
        obtain ⟨hlinks, hall⟩ := ih h
        refine ⟨hlinks.trans (insertChunkIfNotExists_links _ _ _), fun x hx => ?_⟩
        rcases hall x hx with hold | ⟨hmem, hanswer⟩
        · simp only at hold
          split at hold
          next hlink =>
            rcases List.mem_append.mp hold with hold | hnew
            · exact Or.inl hold
            · rw [List.mem_singleton.mp hnew]
              rw [hlink] at hcheck
              exact Or.inr ⟨List.mem_cons_self, checkUpload_link hcheck⟩
          next => exact Or.inl hold
        · exact Or.inr ⟨List.mem_cons_of_mem _ hmem, hanswer.of_keeps hkeeps⟩

theorem confirmUploads_links {store : ChunkStore H} {project : Project}
    {res : Except DomainError (List H × ℕ)}
    (h : confirmUploads σ cfg db store project hashes proofs now = (db', store', res)) {p : ID}
    {x : H} (hx : (p, x) ∈ db'.projectChunkUploads) :
    (p, x) ∈ db.projectChunkUploads ∨
      project.id = p ∧ x ∈ hashes ∧ Answered σ store project proofs now x := by
  rw [confirmUploads] at h
  split at h
  next acc e hloop =>
    obtain ⟨rfl, -⟩ := Prod.mk.inj h
    rw [(confirmLoop_ok hloop).1] at hx
    exact Or.inl hx
  next acc hloop =>
    obtain ⟨rfl, -⟩ := Prod.mk.inj h
    obtain ⟨hlinks, hall⟩ := confirmLoop_ok hloop
    rcases mem_linkProjectChunks.mp hx with hold | ⟨y, hy, heq⟩
    · rw [hlinks] at hold
      exact Or.inl hold
    · obtain ⟨rfl, rfl⟩ := Prod.mk.inj heq
      rcases hall x hy with hnil | ⟨hmem, hanswer⟩
      · simp at hnil
      · exact Or.inr ⟨rfl, hmem, hanswer⟩

/-! ## The links of a run -/

omit [DecidableEq H] in
theorem issued_of_verify (h : log.Accounted) {project : Project} {hash : H} {challenge : Str}
    (hunforged : ∀ encoded sig, cut '.' challenge = some (encoded, sig) →
      ∀ m, sig = σ.tag m → m ∈ log.signed)
    (hv : verifyChallenge σ project.id hash challenge now = true) :
    ∃ c ∈ log.issued, c.project.id = project.id ∧ c.hash = hash ∧ challenge = c.text σ ∧
      now ≤ c.expires := by
  obtain ⟨encoded, payload, hcut, hdecode, hnow⟩ := verifyChallenge_ok hv
  obtain ⟨c, hc, hid, rfl, rfl⟩ := h.issued project.id_lt (hunforged _ _ hcut _ rfl)
  refine ⟨c, hc, hid, rfl, ?_, ?_⟩
  · rw [Challenge.text, newChallenge, hid]
    exact cut_eq_some hcut
  · rw [readExpiry hdecode] at hnow
    exact hnow

/-- What holds in every state a server reaches. -/
structure PossessionProved (σ : Signer) (cfg : TransferConfig H) (s : ChunkServer H) :
    Prop where
  links : ∀ e s', Unforged σ s e → ChunkStep σ cfg s e s' → ∀ p h,
    (p, h) ∈ s'.db.projectChunkUploads → (p, h) ∉ s.db.projectChunkUploads →
      Justified σ s p h e
  challenges : ∀ c ∈ s.log.issued, ∀ (project : Project) h now,
    verifyChallenge σ project.id h (c.text σ) now = true →
      project.id = c.project.id ∧ h = c.hash ∧ now ≤ c.expires
  answers : ∀ c ∈ s.log.issued, ∀ c' ∈ s.log.issued, ∀ data data',
    proof H (c.text σ) data = proof H (c'.text σ) data' →
      c.project.id = c'.project.id ∧ c.hash = c'.hash ∧ c.expires = c'.expires ∧
        c.nonce = c'.nonce ∧ data = data'

theorem ChunkStep.justified {s s' : ChunkServer H} {e : ChunkEvent H} (h : s.log.Accounted)
    (hunforged : Unforged σ s e) (hstep : ChunkStep σ cfg s e s') {p : ID} {x : H}
    (hnew : (p, x) ∈ s'.db.projectChunkUploads) (hold : (p, x) ∉ s.db.projectChunkUploads) :
    Justified σ s p x e := by
  cases hstep with
  | presignUploads _ => exact absurd hnew hold
  | presignDownloads _ => exact absurd hnew hold
  | storeUploaded _ => exact absurd hnew hold
  | confirmUploads hconfirm =>
      rcases confirmUploads_links hconfirm hnew with hx | ⟨hid, hmem, hanswer⟩
      · exact absurd hx hold
      · obtain ⟨pr, hpr, hhash, hv, hdata⟩ := hanswer
        exact ⟨hid, hmem, pr, hpr, hhash, issued_of_verify h (hunforged pr hpr) hv, hdata⟩
  | uploadForProject hup =>
      rw [Nipa.uploadForProject] at hup
      simp only [bind_eq_ok, pure_eq_ok] at hup
      obtain ⟨⟨db₁, store₁⟩, hfirst, heq⟩ := hup
      obtain ⟨rfl, -⟩ := Prod.mk.inj heq
      obtain ⟨hlinks, hsum⟩ := uploadChunk_ok hfirst
      rcases mem_linkProjectChunks.mp hnew with hx | ⟨y, hy, heq⟩
      · rw [hlinks] at hx
        exact absurd hx hold
      · obtain ⟨rfl, rfl⟩ := Prod.mk.inj heq
        exact ⟨rfl, (List.mem_singleton.mp hy).symm, by rw [hsum, List.mem_singleton.mp hy]⟩
  | storeMerged hmerged =>
      rw [Nipa.storeMerged] at hmerged
      simp only [bind_eq_ok, pure_eq_ok] at hmerged
      obtain ⟨⟨db₁, store₁⟩, hfirst, heq⟩ := hmerged
      obtain ⟨rfl, -⟩ := Prod.mk.inj heq
      obtain ⟨hlinks, hsums⟩ := uploadChunks_ok hfirst
      rw [attributeProjectChunks_eq, List.map_map] at hnew
      rcases mem_linkProjectChunks.mp hnew with hx | ⟨y, hy, heq⟩
      · rw [hlinks] at hx
        exact absurd hx hold
      · obtain ⟨rfl, rfl⟩ := Prod.mk.inj heq
        obtain ⟨c, hc, rfl⟩ := List.mem_map.mp hy
        exact ⟨rfl, c.2, hc, hsums c hc⟩
  | push hpush =>
      rw [push_links hpush] at hnew
      exact absurd hnew hold
  | other hlinks =>
      rw [hlinks] at hnew
      exact absurd hnew hold

/-- In every run, projects get linked only to chunks they are shown to hold, and a
challenge or an answer is good for one project, chunk and nonce only. -/
theorem possession_proved (hcf : CollisionFree H) {σ : Signer} (hσ : σ.CollisionFree)
    {cfg : TransferConfig H} {s₀ s : ChunkServer H} (hfresh : s₀.log = ⟨[], []⟩)
    (hrun : Run (ChunkStep σ cfg) (Unforged σ) s₀ s) : PossessionProved σ cfg s := by
  have hstart : s₀.log.Accounted := by
    rw [hfresh]
    intro m hm
    simp at hm
  have hlog : s.log.Accounted := hrun.invariant (I := fun s => s.log.Accounted) hstart
    fun _ _ _ h _ hstep => Accounted.step h hstep
  refine ⟨?_, ?_, ?_⟩
  · intro e s' hunforged hstep p h hnew hold
    exact hstep.justified hlog hunforged hnew hold
  · intro c _ project h now hv
    exact verifyChallenge_newChallenge hσ c.project.id_lt project.id_lt hv
  · intro c _ c' _ data data' heq
    exact proof_inj hcf hσ c.project.id_lt c'.project.id_lt c.nonce_length c'.nonce_length heq

end Steps

/-! ## A chunk that is sent and confirmed -/

/-- Every byte in hexadecimal after a mark, and another mark at the end. -/
def markedText : List UInt8 → Str
  | [] => ['.']
  | b :: bs => '-' :: (hexByte b ++ markedText bs)

theorem length_utf8_hexByte (b : UInt8) : (utf8 (hexByte b)).length = 2 := by
  have hdigit : ∀ n < 16, (String.utf8EncodeChar (Nat.digitChar n)).length = 1 := by decide
  have hb := b.toNat_lt
  simp only [utf8, hexByte, List.flatMap_cons, List.flatMap_nil, List.length_append,
    List.length_nil]
  rw [hdigit _ (by omega), hdigit _ (by omega)]

theorem utf8_markedText_cons (b : UInt8) (bs : List UInt8) :
    utf8 (markedText (b :: bs)) = 45 :: (utf8 (hexByte b) ++ utf8 (markedText bs)) := by
  rw [markedText, utf8, List.flatMap_cons, List.flatMap_append]
  rfl

theorem markedText_delimited {m m' r r' : List UInt8}
    (h : utf8 (markedText m) ++ r = utf8 (markedText m') ++ r') : m = m' ∧ r = r' := by
  have hend : utf8 (markedText []) = [46] := rfl
  induction m generalizing m' with
  | nil =>
      rcases m' with _ | ⟨b, bs⟩
      · exact ⟨rfl, List.append_cancel_left h⟩
      · rw [utf8_markedText_cons, hend] at h
        simp at h
  | cons a as ih =>
      rcases m' with _ | ⟨b, bs⟩
      · rw [utf8_markedText_cons, hend] at h
        simp at h
      · rw [utf8_markedText_cons, utf8_markedText_cons] at h
        simp only [List.cons_append, List.append_assoc, List.cons.injEq, true_and] at h
        obtain ⟨hab, hrest⟩ := List.append_inj h
          ((length_utf8_hexByte a).trans (length_utf8_hexByte b).symm)
        obtain ⟨rfl, rfl⟩ := ih hrest
        rw [hexByte_injective (utf8_injective hab)]
        exact ⟨rfl, rfl⟩

def plainSigner : Signer where
  tag := markedText
  hexTag := markedText
  tag_ne_nil m := by rcases m with _ | ⟨b, bs⟩ <;> simp [markedText]
  tag_delimited h := by
    obtain ⟨rfl, rfl⟩ := markedText_delimited h
    exact ⟨rfl, rfl⟩

theorem plainSigner_collisionFree : plainSigner.CollisionFree := by
  intro m m' h
  have happ : utf8 (markedText m) ++ [] = utf8 (markedText m') ++ [] :=
    congrArg (fun t => utf8 t ++ []) h
  exact (markedText_delimited happ).1

def demoProject : Project := ⟨1, "acme".toList, "game".toList, by decide⟩

def demoConfig : TransferConfig IdealHash := ⟨60, 0, 100, none⟩

def emptyServer : ChunkServer IdealHash where
  db := { demoStore with chunks := [], projectChunkUploads := [] }
  store := ⟨fun _ => .error .notFound, none⟩
  log := ⟨[], []⟩

def demoHash : IdealHash := HashScheme.sum [1, 2, 3]

def demoChallenge : Challenge IdealHash :=
  ⟨demoProject, demoHash, 160, List.replicate nonceBytes 7, rfl⟩

def demoAnswer : ChunkProof IdealHash :=
  ⟨demoHash, demoChallenge.text plainSigner,
    proof IdealHash (demoChallenge.text plainSigner) [1, 2, 3]⟩

/-- The server after the project has asked for a transfer and sent the chunk. -/
def sentServer : ChunkServer IdealHash where
  db := emptyServer.db
  store := emptyServer.store.put demoHash [1, 2, 3]
  log := ⟨[demoChallenge], [demoChallenge.message, transferMessage opUpload "acme".toList
    "game".toList (hashString demoHash) 3 160]⟩

theorem sentServer_run :
    Run (ChunkStep plainSigner demoConfig) (Unforged plainSigner) emptyServer sentServer := by
  have hpresign : presignUploadURLs plainSigner demoConfig emptyServer.db emptyServer.store
      demoProject [⟨demoHash, 3⟩] 0 .empty (fun _ => ⟨List.replicate nonceBytes 7, rfl⟩) 100 =
      .ok (_, _, sentServer.log) := rfl
  have hsent : storeUploaded emptyServer.store demoHash [1, 2, 3] = .ok sentServer.store := rfl
  have hfirst := (Run.refl (P := Unforged plainSigner) emptyServer).tail
    (e := ChunkEvent.presignUploads) trivial (ChunkStep.presignUploads hpresign)
  exact hfirst.tail (e := ChunkEvent.storeUploaded demoHash [1, 2, 3]) trivial
    (ChunkStep.storeUploaded hsent)

def confirmedServer : ChunkServer IdealHash :=
  let confirmed := confirmUploads plainSigner demoConfig sentServer.db sentServer.store
    demoProject [demoHash] [demoAnswer] 150
  ⟨confirmed.1, confirmed.2.1, sentServer.log⟩

theorem confirmedServer_step : ChunkStep plainSigner demoConfig sentServer
    (.confirmUploads demoProject [demoHash] [demoAnswer] 150) confirmedServer := by
  have hconfirm : ∀ {σ : Signer} {cfg : TransferConfig IdealHash} {s : ChunkServer IdealHash}
      {project : Project} {hashes : List IdealHash} {proofs : List (ChunkProof IdealHash)}
      {now : Int64}, ChunkStep σ cfg s (.confirmUploads project hashes proofs now)
        ⟨(confirmUploads σ cfg s.db s.store project hashes proofs now).1,
          (confirmUploads σ cfg s.db s.store project hashes proofs now).2.1, s.log⟩ :=
    ChunkStep.confirmUploads rfl
  exact hconfirm

theorem demoAnswer_unforged : Unforged plainSigner sentServer
    (.confirmUploads demoProject [demoHash] [demoAnswer] 150) := by
  intro pr hpr encoded sig hcut m hm
  obtain rfl := List.mem_singleton.mp hpr
  have hchallenge : demoAnswer.challenge = newChallenge plainSigner demoProject.id demoHash 160
      (List.replicate nonceBytes 7) := rfl
  rw [hchallenge, cut_newChallenge] at hcut
  obtain ⟨-, hsig⟩ := Prod.mk.inj (Option.some.inj hcut)
  rw [← plainSigner_collisionFree (hsig.trans hm)]
  exact List.mem_cons_self

/-- A project asks for a transfer, sends the chunk, confirms it and gets linked. -/
theorem possession_proved_demo :
    PossessionProved plainSigner demoConfig sentServer ∧
      ChunkStep plainSigner demoConfig sentServer
        (.confirmUploads demoProject [demoHash] [demoAnswer] 150) confirmedServer ∧
      Unforged plainSigner sentServer
        (.confirmUploads demoProject [demoHash] [demoAnswer] 150) ∧
      (1, demoHash) ∉ sentServer.db.projectChunkUploads ∧
      (1, demoHash) ∈ confirmedServer.db.projectChunkUploads :=
  ⟨possession_proved IdealHash.collisionFree plainSigner_collisionFree rfl sentServer_run,
    confirmedServer_step, demoAnswer_unforged, by decide, by decide +kernel⟩

end Nipa
