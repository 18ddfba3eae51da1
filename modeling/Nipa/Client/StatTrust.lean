import Nipa.Client.StatCache

/-!
# Trusted fingerprints are those of the files they describe

A fingerprint, finished or in the making, is sound when it belongs to every file
that it could be taken to describe.  Status and refresh stamp before they look,
so a later write leaves a time that is not before the stamp.  A push and a
materialization stamp last; there a write in the tick of the time they saw goes
unnoticed.
-/

namespace Nipa.Client.Stat

open Support Chunker

/-! ## Hashing -/

section Hashing

variable {H : Type} [HashScheme H] {z : Zstd}

theorem encodeBytes_spec (z : Zstd) (content : List UInt8) (path : Str) (isBinary : Bool)
    (encoding : Str) :
    ∃ chunks : List (EncodedChunk H),
      (chunks.map EncodedChunk.rawSize).sum = content.length ∧
      encodeBytes z content path isBinary encoding =
        .ok (usedEncoding isBinary encoding, chunks) ∧
      encodeBytes z content path isBinary (usedEncoding isBinary encoding) =
        .ok (usedEncoding isBinary encoding, chunks) := by
  have hreader : (newReader content).Flowing := fun _ => Nat.succ_pos _
  have hused {chunks : List (EncodedChunk H)} {used : Str} {asked : Str}
      (h : encodeBytes z content path isBinary asked = .ok (used, chunks)) :
      used = usedEncoding isBinary asked := by
    obtain ⟨c, hcfg⟩ := configForFile_sane path isBinary
    rw [encodeBytes] at h
    by_cases hraw : (if asked = [] then defaultEncoding isBinary else asked) ≠
        encodingZstd ∨ isBinary = true
    · rw [encode_raw z hreader hcfg hraw] at h
      rw [usedEncoding, if_pos hraw]
      exact (Prod.mk.inj (Except.ok.inj h)).1.symm
    · rw [encode_zstd z hreader hraw] at h
      rw [usedEncoding, if_neg hraw]
      exact (Prod.mk.inj (Except.ok.inj h)).1.symm
  obtain ⟨used, chunks, hstored, hencode⟩ := @encode_spec H _ z content path isBinary encoding
  obtain ⟨hfirst, hagain⟩ := hencode (newReader content) hreader rfl
  obtain rfl := hused hfirst
  exact ⟨chunks, hstored.rawSizes, hfirst, hagain⟩

theorem chunkReader_spec (z : Zstd) (content : List UInt8) (path : Str) (isBinary : Bool)
    (encoding : Str) :
    ∃ hash : H, chunkReader z content path isBinary encoding =
        .ok (hash, usedEncoding isBinary encoding) ∧
      chunkReader z content path isBinary (usedEncoding isBinary encoding) =
        .ok (hash, usedEncoding isBinary encoding) := by
  obtain ⟨chunks, -, hfirst, hagain⟩ := @encodeBytes_spec H _ z content path isBinary encoding
  refine ⟨fileHash (chunks.map EncodedChunk.hash), ?_, ?_⟩
  · rw [chunkReader, hfirst]
    rfl
  · rw [chunkReader, hagain]
    rfl

theorem scanPushFile_ok {content : List UInt8} {path : Str} {isBinary : Bool}
    {info : FileInfo} {r : H × Str}
    (h : scanPushFile z content path isBinary info = .ok r) :
    chunkReader z content path isBinary [] = .ok r := by
  obtain ⟨chunks, -, hfirst, -⟩ := @encodeBytes_spec H _ z content path isBinary []
  rw [scanPushFile, hfirst] at h
  rw [chunkReader, hfirst]
  change (if _ then _ else _) = _ at h
  split at h
  · cases h
  · exact h

/-- The hash and encoding recorded are those of a file. -/
def HashOf (z : Zstd) (p : Str) (f : TimedFile) (r : H × Str) : Prop :=
  chunkReader z f.content p (isBinary f.content) r.2 = .ok r

theorem hashOf_of_chunkReader {p : Str} {f : TimedFile} {encoding : Str} {r : H × Str}
    (h : chunkReader z f.content p (isBinary f.content) encoding = .ok r) : HashOf z p f r := by
  obtain ⟨hash, hfirst, hagain⟩ := @chunkReader_spec H _ z f.content p (isBinary f.content)
    encoding
  obtain rfl : (hash, usedEncoding (isBinary f.content) encoding) = r :=
    Except.ok.inj (hfirst.symm.trans h)
  exact hagain

theorem hashOf_of_workingFileHash {p encoding : Str} {f : TimedFile} {hash : H}
    (h : Stat.workingFileHash z f.content p encoding = .ok hash) :
    HashOf z p f (hash, usedEncoding (isBinary f.content) (storedEncoding encoding)) := by
  obtain ⟨hash', hfirst, hagain⟩ := @chunkReader_spec H _ z f.content p (isBinary f.content)
    (storedEncoding encoding)
  rw [Stat.workingFileHash, hfirst] at h
  obtain rfl : hash' = hash := Except.ok.inj h
  exact hagain

theorem HashOf.workingFileHash {p : Str} {f : TimedFile} {r : H × Str} {encoding : Str}
    (h : HashOf z p f r)
    (hused : r.2 = usedEncoding (isBinary f.content) (storedEncoding encoding)) :
    workingFileHash z f.content p encoding = .ok r.1 := by
  obtain ⟨hash, hfirst, hagain⟩ := @chunkReader_spec H _ z f.content p (isBinary f.content)
    (storedEncoding encoding)
  rw [HashOf, hused, hagain] at h
  rw [Stat.workingFileHash, hfirst, ← Except.ok.inj h]
  rfl

end Hashing

/-! ## Sound fingerprints -/

section Sound

variable {H : Type}

theorem statMatches_iff {entry : StatEntry H} {info : FileInfo} :
    statMatches entry info = true ↔ entry.sizeBytes = info.size ∧
      entry.mtimeNS = info.mtime ∧ info.mtime < entry.cachedAt := by
  simp [statMatches, and_assoc]

/-- The file could be taken for the one the fingerprint is of: size and time are the
same, where they are known, and the time lies before the stamp, if there is one. -/
def Scan.Describes (j : Scan H) (f : TimedFile) : Prop :=
  (∀ info, j.info = some info → info.size = f.content.length ∧ info.mtime = f.mtime) ∧
    ∀ c, j.stamp = some c → f.mtime < c

/-- All fingerprints in the making. -/
def World.scans (w : World H) : List (Scan H) := w.tasks.flatMap Task.scans

/-- No fingerprint of the path, finished or in the making, could be taken for one of the
file. -/
def World.Undescribed (w : World H) (p : Str) (f : TimedFile) : Prop :=
  (∀ j ∈ w.scans, j.path = p → ¬ j.Describes f) ∧
    ∀ entry, w.statCache.lookup p = some entry → statMatches entry f.info = false

variable [HashScheme H] (z : Zstd)

/-- What has been read belongs to every file the fingerprint describes. -/
def Scan.Sound (disk : GoMap TimedFile) (j : Scan H) : Prop :=
  ∀ f, disk.lookup j.path = some f → j.Describes f →
    (∀ b, j.isBinary = some b → Stat.isBinary f.content = b) ∧
      ∀ r, j.hashed = some r → HashOf z j.path f r

structure World.Inv (w : World H) : Prop where
  entries : ∀ p entry, w.statCache.lookup p = some entry →
    entry.cachedAt ≤ w.now ∧ ∀ f, w.disk.lookup p = some f →
      statMatches entry f.info = true → HashOf z p f (entry.hash, entry.encoding)
  scans : ∀ j ∈ w.scans, j.Sound z w.disk ∧ ∀ c, j.stamp = some c → c ≤ w.now
  observed : ∀ t ∈ w.tasks, ∀ snapshot staged statCache observedAt,
    t.command = .hashing snapshot staged statCache observedAt → observedAt ≤ w.now

end Sound

namespace World

variable {H : Type} {w w' : World H}

variable {i : ℕ} {t : Task H} {j : Scan H}

theorem mem_scans_setTask (h : j ∈ (w.setTask i t).scans) : j ∈ t.scans ∨ j ∈ w.scans := by
  obtain ⟨t', ht', hj⟩ := List.mem_flatMap.mp h
  rcases List.mem_or_eq_of_mem_set ht' with ht' | rfl
  · exact Or.inr (List.mem_flatMap.mpr ⟨t', ht', hj⟩)
  · exact Or.inl hj

theorem mem_scans_of_task (ht : w.tasks[i]? = some t) (hj : j ∈ t.scans) : j ∈ w.scans :=
  List.mem_flatMap.mpr ⟨t, List.mem_of_getElem? ht, hj⟩

variable {disk : GoMap TimedFile}

theorem examine_fresh {snapshot : Snapshot H} {staged : List Str} {statCache : GoMap (StatEntry H)}
    {observedAt : ℤ} {p : Str} (h : examine snapshot staged statCache observedAt disk p = some j) :
    j.isBinary = none ∧ j.hashed = none ∧ j.stamp = some observedAt := by
  unfold examine at h
  split at h
  · cases h
  · obtain ⟨base, -, h⟩ := Option.bind_eq_some_iff.mp h
    obtain ⟨f, -, h⟩ := Option.bind_eq_some_iff.mp h
    split at h
    · cases h
    · obtain rfl := Option.some.inj h
      exact ⟨rfl, rfl, rfl⟩

theorem classifyStaged_fresh {p : Str} (h : classifyStaged disk p = some j) :
    j.isBinary = none ∧ j.hashed = none ∧ j.stamp = none := by
  obtain ⟨f, -, rfl⟩ := Option.map_eq_some_iff.mp h
  exact ⟨rfl, rfl, rfl⟩

variable [HashScheme H] {z : Zstd}

theorem Inv.setTask {t' : Task H} (h : w.Inv z) (ht : w.tasks[i]? = some t)
    (hcommand : t'.command = t.command) (hscans : ∀ j ∈ t'.scans, j ∉ t.scans →
      j.Sound z w.disk ∧ ∀ c, j.stamp = some c → c ≤ w.now) :
    (w.setTask i t').Inv z where
  entries := h.entries
  scans := by
    intro j hj
    rcases mem_scans_setTask hj with hj | hj
    · by_cases hold : j ∈ t.scans
      · exact h.scans j (mem_scans_of_task ht hold)
      · exact hscans j hj hold
    · exact h.scans j hj
  observed := by
    intro t₀ ht₀ snapshot staged statCache observedAt heq
    rcases List.mem_or_eq_of_mem_set ht₀ with ht₀ | rfl
    · exact h.observed t₀ ht₀ snapshot staged statCache observedAt heq
    · exact h.observed t (List.mem_of_getElem? ht) snapshot staged statCache observedAt
        (hcommand ▸ heq)

variable {k : ℕ}

theorem Inv.setScan (h : w.Inv z) (ht : w.tasks[i]? = some t) (hsound : j.Sound z w.disk)
    (hstamp : ∀ c, j.stamp = some c → c ≤ w.now) : (w.setScan i k t j).Inv z := by
  refine h.setTask ht rfl ?_
  intro j₀ hj₀ hnew
  rcases List.mem_or_eq_of_mem_set hj₀ with hj₀ | rfl
  · exact absurd hj₀ hnew
  · exact ⟨hsound, hstamp⟩

theorem Inv.start {command : Command H} {todo : List Str} (h : w.Inv z)
    (hcommand : ∀ snapshot staged statCache observedAt,
      command = .hashing snapshot staged statCache observedAt → observedAt ≤ w.now) :
    (w.start command todo).Inv z where
  entries := h.entries
  scans := by
    intro j hj
    obtain ⟨t, ht, hjt⟩ := List.mem_flatMap.mp hj
    rcases List.mem_append.mp ht with ht | ht
    · exact h.scans j (List.mem_flatMap.mpr ⟨t, ht, hjt⟩)
    · rw [List.mem_singleton.mp ht] at hjt
      cases hjt
  observed := by
    intro t ht snapshot staged statCache observedAt heq
    rcases List.mem_append.mp ht with ht | ht
    · exact h.observed t ht snapshot staged statCache observedAt heq
    · rw [List.mem_singleton.mp ht] at heq
      exact hcommand snapshot staged statCache observedAt heq

/-- The files change: each is as it was, up to its mode, or no fingerprint could be taken
for it. -/
theorem Inv.setDisk (h : w.Inv z) (hdisk : ∀ p f, disk.lookup p = some f →
      (∃ old, w.disk.lookup p = some old ∧ old.content = f.content ∧ old.mtime = f.mtime) ∨
        w.Undescribed p f) :
    ({ w with disk } : World H).Inv z where
  entries := by
    intro p entry hentry
    refine ⟨(h.entries p entry hentry).1, ?_⟩
    intro f hf hmatches
    rcases hdisk p f hf with ⟨old, hold, hcontent, hmtime⟩ | hnone
    · have hsame : statMatches entry old.info = true := by
        rw [statMatches_iff] at hmatches ⊢
        rwa [TimedFile.info, hcontent, hmtime]
      have hhash := (h.entries p entry hentry).2 old hold hsame
      rwa [HashOf, hcontent] at hhash
    · rw [hnone.2 entry hentry] at hmatches
      cases hmatches
  scans := by
    intro j hj
    refine ⟨?_, (h.scans j hj).2⟩
    intro f hf hdescribes
    rcases hdisk j.path f hf with ⟨old, hold, hcontent, hmtime⟩ | hnone
    · have hsame : j.Describes old := by
        rw [Scan.Describes, hcontent, hmtime]
        exact hdescribes
      have hsound := (h.scans j hj).1 old hold hsame
      simpa only [HashOf, hcontent] using hsound
    · exact absurd hdescribes (hnone.1 j hj rfl)
  observed := h.observed

/-! ## Steps -/

/-- A file that is written has the current time.  Fingerprints with a stamp do not
describe it; those a push or a materialization has yet to stamp must not either.  A
temporary file keeps the time it was written at when it takes its place, so no
fingerprint at all may describe it, and it is recorded under its hash. -/
def Timely (z : Zstd) (w : World H) : Action H → Prop
  | .write p content perm => ∀ j ∈ w.scans, j.path = p → j.stamp = none →
      ¬ j.Describes ⟨content, perm, w.now⟩
  | .rename i => ∀ t temp rest, w.tasks[i]? = some t → t.temps = temp :: rest →
      w.Undescribed temp.path temp.file ∧
        workingFileHash z temp.file.content temp.path temp.encoding = .ok temp.hash
  | _ => True

theorem Inv.write {p : Str} {content : List UInt8} {perm : ℕ} (h : w.Inv z)
    (htimely : w.Timely z (.write p content perm)) :
    ({ w with disk := w.disk.insert p ⟨content, perm, w.now⟩ } : World H).Inv z := by
  refine h.setDisk ?_
  intro q f hf
  rw [GoMap.lookup_insert_eq] at hf
  split at hf
  · next hq =>
      obtain rfl := Option.some.inj hf
      subst hq
      refine Or.inr ⟨?_, ?_⟩
      · intro j hj hpath hdescribes
        cases hstamp : j.stamp with
        | none => exact htimely j hj hpath hstamp hdescribes
        | some c =>
            have hlt : w.now < c := hdescribes.2 c hstamp
            have hle := (h.scans j hj).2 c hstamp
            omega
      · intro entry hentry
        rw [Bool.eq_false_iff]
        intro hmatches
        have hlt : w.now < entry.cachedAt := (statMatches_iff.mp hmatches).2.2
        have hle := (h.entries q entry hentry).1
        omega
  · exact Or.inl ⟨f, hf, rfl, rfl⟩

theorem Inv.stat (h : w.Inv z) (hstep : w.stat i = some w') : w'.Inv z := by
  obtain ⟨t, ht, hstep⟩ := Option.bind_eq_some_iff.mp hstep
  cases htodo : t.todo with
  | nil =>
      rw [htodo] at hstep
      cases hstep
  | cons p rest =>
      rw [htodo] at hstep
      obtain rfl := Option.some.inj hstep
      refine h.setTask ht rfl ?_
      intro j hj hnew
      rcases List.mem_append.mp hj with hj | hj
      · exact absurd hj hnew
      · have hfresh : j.isBinary = none ∧ j.hashed = none ∧
            ∀ c, j.stamp = some c → c ≤ w.now := by
          rw [Option.mem_toList] at hj
          cases hcommand : t.command with
          | hashing snapshot staged statCache observedAt =>
              rw [hcommand] at hj
              obtain ⟨hbinary, hhashed, hstamp⟩ := examine_fresh hj
              refine ⟨hbinary, hhashed, ?_⟩
              intro c hc
              obtain rfl : observedAt = c := Option.some.inj (hstamp.symm.trans hc)
              exact h.observed t (List.mem_of_getElem? ht) _ _ _ _ hcommand
          | push =>
              rw [hcommand] at hj
              obtain ⟨hbinary, hhashed, hstamp⟩ := classifyStaged_fresh hj
              exact ⟨hbinary, hhashed, by simp [hstamp]⟩
          | materialize =>
              rw [hcommand] at hj
              cases hj
        obtain ⟨hbinary, hhashed, hstamp⟩ := hfresh
        refine ⟨?_, hstamp⟩
        intro f _ _
        rw [hbinary, hhashed]
        exact ⟨by simp, by simp⟩

theorem Inv.probe (h : w.Inv z) (hstep : w.probe i k = some w') : w'.Inv z := by
  obtain ⟨t, ht, hstep⟩ := Option.bind_eq_some_iff.mp hstep
  obtain ⟨j, hj, hstep⟩ := Option.bind_eq_some_iff.mp hstep
  obtain ⟨f, hf, hstep⟩ := Option.bind_eq_some_iff.mp hstep
  split at hstep
  · next hphase =>
      obtain rfl := Option.some.inj hstep
      simp only [Bool.and_eq_true, Option.isNone_iff_eq_none] at hphase
      have hold := h.scans j (mem_scans_of_task ht (List.mem_of_getElem? hj))
      refine h.setScan ht ?_ hold.2
      intro f' hf' _
      obtain rfl : f = f' := Option.some.inj (hf.symm.trans hf')
      refine ⟨fun b hb => Option.some.inj hb, ?_⟩
      intro r hr
      exact absurd (hphase.2.symm.trans hr) (by simp)
  · cases hstep

theorem Inv.read (h : w.Inv z) (hstep : w.read z i k = some w') : w'.Inv z := by
  obtain ⟨t, ht, hstep⟩ := Option.bind_eq_some_iff.mp hstep
  obtain ⟨j, hj, hstep⟩ := Option.bind_eq_some_iff.mp hstep
  obtain ⟨f, hf, hstep⟩ := Option.bind_eq_some_iff.mp hstep
  obtain ⟨b, hb, hstep⟩ := Option.bind_eq_some_iff.mp hstep
  obtain ⟨info, -, hstep⟩ := Option.bind_eq_some_iff.mp hstep
  split at hstep
  · obtain ⟨r, hr, hstep⟩ := Option.bind_eq_some_iff.mp hstep
    obtain rfl := Option.some.inj hstep
    have hread : ∃ encoding, chunkReader z f.content j.path b encoding = .ok r := by
      cases hcommand : t.command with
      | push =>
          rw [hcommand] at hr
          exact ⟨[], scanPushFile_ok (toOption_eq_some hr)⟩
      | hashing snapshot staged statCache observedAt =>
          rw [hcommand] at hr
          exact ⟨j.asked, toOption_eq_some hr⟩
      | materialize =>
          rw [hcommand] at hr
          exact ⟨j.asked, toOption_eq_some hr⟩
    obtain ⟨encoding, hread⟩ := hread
    have hold := h.scans j (mem_scans_of_task ht (List.mem_of_getElem? hj))
    refine h.setScan ht ?_ hold.2
    intro f' hf' hdescribes
    obtain rfl : f = f' := Option.some.inj (hf.symm.trans hf')
    have hprobed := (hold.1 f hf hdescribes).1
    refine ⟨hprobed, ?_⟩
    intro r' hr'
    obtain rfl := Option.some.inj hr'
    exact hashOf_of_chunkReader (by rwa [hprobed b hb])
  · cases hstep

theorem Inv.statEntryFor (h : w.Inv z) (hstep : w.statEntryFor i k = some w') : w'.Inv z := by
  obtain ⟨t, ht, hstep⟩ := Option.bind_eq_some_iff.mp hstep
  obtain ⟨j, hj, hstep⟩ := Option.bind_eq_some_iff.mp hstep
  obtain ⟨f, hf, hstep⟩ := Option.bind_eq_some_iff.mp hstep
  split at hstep
  · next hinfo =>
      obtain rfl := Option.some.inj hstep
      have hold := h.scans j (mem_scans_of_task ht (List.mem_of_getElem? hj))
      refine h.setScan ht ?_ hold.2
      intro f' hf' hdescribes
      refine hold.1 f' hf' ⟨?_, hdescribes.2⟩
      rw [Option.isNone_iff_eq_none.mp hinfo]
      simp
  · cases hstep

theorem Inv.stamp (h : w.Inv z) (hstep : w.stamp i k = some w') : w'.Inv z := by
  obtain ⟨t, ht, hstep⟩ := Option.bind_eq_some_iff.mp hstep
  obtain ⟨j, hj, hstep⟩ := Option.bind_eq_some_iff.mp hstep
  split at hstep
  · next hphase =>
      obtain rfl := Option.some.inj hstep
      simp only [Bool.and_eq_true, Option.isNone_iff_eq_none] at hphase
      have hold := h.scans j (mem_scans_of_task ht (List.mem_of_getElem? hj))
      refine h.setScan ht ?_ ?_
      · intro f hf hdescribes
        refine hold.1 f hf ⟨hdescribes.1, ?_⟩
        rw [hphase.2]
        simp
      · intro c hc
        exact (Option.some.inj hc).symm.le
  · cases hstep

theorem Inv.rename (h : w.Inv z) (htimely : w.Timely z (.rename i)) (hstep : w.rename i = some w') :
    w'.Inv z := by
  obtain ⟨t, ht, hstep⟩ := Option.bind_eq_some_iff.mp hstep
  cases htemps : t.temps with
  | nil =>
      rw [htemps] at hstep
      cases hstep
  | cons temp rest =>
      rw [htemps] at hstep
      obtain rfl := Option.some.inj hstep
      obtain ⟨hnone, hhash⟩ := htimely t temp rest ht htemps
      have hplaced : ({ w with disk := w.disk.insert temp.path temp.file } : World H).Inv z := by
        refine h.setDisk ?_
        intro q f hf
        rw [GoMap.lookup_insert_eq] at hf
        split at hf
        · next hq =>
            obtain rfl := Option.some.inj hf
            exact Or.inr (hq ▸ hnone)
        · exact Or.inl ⟨f, hf, rfl, rfl⟩
      refine hplaced.setTask ht rfl ?_
      intro j hj hnew
      rcases List.mem_append.mp hj with hj | hj
      · exact absurd hj hnew
      · obtain rfl := List.mem_singleton.mp hj
        refine ⟨?_, by simp⟩
        intro f hf _
        obtain rfl : temp.file = f := by
          rw [AList.lookup_insert] at hf
          exact Option.some.inj hf
        refine ⟨by simp, ?_⟩
        intro r hr
        obtain rfl := Option.some.inj hr
        exact hashOf_of_workingFileHash hhash

theorem Inv.entry {entry : StatEntry H} (h : w.Inv z) (hj : j ∈ w.scans)
    (hentry : j.entry = some entry) :
    entry.cachedAt ≤ w.now ∧ ∀ f, w.disk.lookup j.path = some f →
      statMatches entry f.info = true → HashOf z j.path f (entry.hash, entry.encoding) := by
  obtain ⟨hsound, hstamp⟩ := h.scans j hj
  obtain ⟨info, hinfo, hentry⟩ := Option.bind_eq_some_iff.mp hentry
  obtain ⟨r, hr, hentry⟩ := Option.bind_eq_some_iff.mp hentry
  obtain ⟨c, hc, hentry⟩ := Option.bind_eq_some_iff.mp hentry
  obtain rfl := Option.some.inj hentry
  refine ⟨hstamp c hc, ?_⟩
  intro f hf hmatches
  obtain ⟨hsize, hmtime, hbefore⟩ := statMatches_iff.mp hmatches
  refine (hsound f hf ⟨?_, ?_⟩).2 r hr
  · intro info' hinfo'
    obtain rfl : info = info' := Option.some.inj (hinfo.symm.trans hinfo')
    exact ⟨hsize, hmtime⟩
  · intro c' hc'
    obtain rfl : c = c' := Option.some.inj (hc.symm.trans hc')
    exact hbefore

theorem Inv.saveStatEntries (h : w.Inv z) (hstep : w.saveStatEntries i = some w') : w'.Inv z := by
  obtain ⟨t, ht, hstep⟩ := Option.bind_eq_some_iff.mp hstep
  obtain rfl := Option.some.inj hstep
  refine Inv.setTask (w := { w with
    statCache := GoMap.insertAll Prod.fst Prod.snd w.statCache
      (t.scans.filterMap fun j => j.entry.map (j.path, ·)) }) ⟨?_, h.scans, h.observed⟩ ht rfl
    (by simp)
  intro p entry hentry
  rw [GoMap.lookup_insertAll] at hentry
  rcases Option.or_eq_some_iff.mp hentry with hentry | ⟨-, hentry⟩
  · obtain ⟨row, hrow, rfl⟩ := Option.map_eq_some_iff.mp hentry
    have hpath : row.1 = p := by simpa using List.find?_some hrow
    have hmem := List.mem_reverse.mp (List.mem_of_find?_eq_some hrow)
    obtain ⟨j, hj, hrow⟩ := List.mem_filterMap.mp hmem
    obtain ⟨entry', hentry', rfl⟩ := Option.map_eq_some_iff.mp hrow
    subst hpath
    exact h.entry (mem_scans_of_task ht hj) hentry'
  · exact h.entries p entry hentry

theorem Inv.step {a : Action H} (h : w.Inv z) (htimely : w.Timely z a)
    (hstep : Step z w a w') : w'.Inv z := by
  cases a with
  | tick time =>
      change (if w.now < time then some { w with now := time } else none) = some w' at hstep
      split at hstep
      · next hlt =>
          obtain rfl := Option.some.inj hstep
          refine ⟨?_, ?_, ?_⟩
          · intro p entry hentry
            obtain ⟨hle, hsound⟩ := h.entries p entry hentry
            exact ⟨hle.trans hlt.le, hsound⟩
          · intro j hj
            obtain ⟨hsound, hle⟩ := h.scans j hj
            exact ⟨hsound, fun c hc => (hle c hc).trans hlt.le⟩
          · intro t ht snapshot staged statCache observedAt heq
            exact (h.observed t ht snapshot staged statCache observedAt heq).trans hlt.le
      · cases hstep
  | write p content perm =>
      obtain rfl := Option.some.inj hstep
      exact h.write htimely
  | remove p =>
      obtain rfl := Option.some.inj hstep
      refine h.setDisk ?_
      intro q f hf
      rw [GoMap.lookup_erase_eq] at hf
      split at hf
      · cases hf
      · exact Or.inl ⟨f, hf, rfl, rfl⟩
  | chmod p perm =>
      obtain ⟨f, hf, rfl⟩ := Option.map_eq_some_iff.mp hstep
      refine h.setDisk ?_
      intro q f' hf'
      rw [GoMap.lookup_insert_eq] at hf'
      split at hf'
      · next hq =>
          obtain rfl := Option.some.inj hf'
          exact Or.inl ⟨f, hq ▸ hf, rfl, rfl⟩
      · exact Or.inl ⟨f', hf', rfl, rfl⟩
  | saveTree snapshot =>
      obtain rfl := Option.some.inj hstep
      exact ⟨h.entries, h.scans, h.observed⟩
  | stage staged =>
      obtain rfl := Option.some.inj hstep
      exact ⟨h.entries, h.scans, h.observed⟩
  | hash snapshot staged statCache paths =>
      obtain rfl := Option.some.inj hstep
      refine h.start ?_
      intro _ _ _ observedAt heq
      cases heq
      exact le_rfl
  | push paths =>
      obtain rfl := Option.some.inj hstep
      exact h.start (by simp)
  | materialize =>
      obtain rfl := Option.some.inj hstep
      exact h.start (by simp)
  | stat i => exact h.stat hstep
  | probe i k => exact h.probe hstep
  | read i k => exact h.read hstep
  | create i p content mode hash encoding =>
      obtain ⟨t, ht, hstep⟩ := Option.bind_eq_some_iff.mp hstep
      split at hstep
      · obtain rfl := Option.some.inj hstep
        exact h.setTask ht rfl fun j hj hnew => absurd hj hnew
      · cases hstep
  | rename i => exact h.rename htimely hstep
  | statEntryFor i k => exact h.statEntryFor hstep
  | stamp i k => exact h.stamp hstep
  | saveStatEntries i => exact h.saveStatEntries hstep

theorem initial_inv (z : Zstd) (now : ℤ) (disk : GoMap TimedFile) (snapshot : Snapshot H)
    (staged : List Str) : (initial now disk snapshot staged).Inv z where
  entries := by
    intro p entry hentry
    simp [initial] at hentry
  scans := by simp [initial, World.scans]
  observed := by simp [initial]

end World

/-! ## The status with the cache and without -/

section Agreement

variable {H : Type} {w : World H}

/-- The hashes that are trusted for unstaged tracked files were made with the encoding
that the snapshot now records for them. -/
def World.Agrees (w : World H) : Prop :=
  ∀ p f base entry, p ∉ w.staged → w.disk.lookup p = some f →
    w.snapshot.files.lookup p = some base → w.statCache.lookup p = some entry →
    statMatches entry f.info = true →
      entry.encoding = usedEncoding (isBinary f.content) (storedEncoding base.encoding)

theorem filterMap_split_perm {α β : Type} (c : α → Bool) (v : α → Option β) (l : List α) :
    (l.filterMap (fun x => if c x then v x else none) ++
      ((l.filter fun x => !c x).map v).reduceOption).Perm (l.filterMap v) := by
  have hparts := (List.filter_append_perm c l).filterMap v
  rw [List.filterMap_append, List.filterMap_filter] at hparts
  have hreduced : ((l.filter fun x => !c x).map v).reduceOption =
      (l.filter fun x => !c x).filterMap v := by
    change List.filterMap id _ = _
    rw [List.filterMap_map, Function.id_comp]
  rwa [hreduced]

theorem mem_compared {working : List (Str × TimedFile)} {p : Str} {f : TimedFile}
    {base : SnapshotFile H} (h : (p, f, base) ∈ compared w working) :
    (p, f) ∈ working ∧ p ∉ w.staged ∧ w.snapshot.files.lookup p = some base := by
  obtain ⟨⟨p', f'⟩, hmem, hsome⟩ := List.mem_filterMap.mp h
  simp only at hsome
  split at hsome
  · cases hsome
  · next hstaged =>
      obtain ⟨base', hbase, heq⟩ := Option.map_eq_some_iff.mp hsome
      cases heq
      exact ⟨hmem, hstaged, hbase⟩

variable [DecidableEq H] [HashScheme H] {z : Zstd}

/-- What hashing says of a file. -/
def verdict (z : Zstd) (job : Str × TimedFile × SnapshotFile H) : Option Str :=
  ((rehash z job).toOption).join

theorem rehash_eq (job : Str × TimedFile × SnapshotFile H) :
    rehash z job = .ok (verdict z job) := by
  obtain ⟨p, f, base⟩ := job
  obtain ⟨hash, hread, -⟩ := @chunkReader_spec H _ z f.content p (isBinary f.content)
    (storedEncoding base.encoding)
  have hhash : workingFileHash z f.content p base.encoding = .ok hash := by
    rw [workingFileHash, hread]
    rfl
  rw [verdict, rehash, hhash]
  rfl

theorem World.Inv.verdict_eq {p : Str} {f : TimedFile} {base : SnapshotFile H}
    {entry : StatEntry H} (h : w.Inv z) (hagrees : w.Agrees) (hstaged : p ∉ w.staged)
    (hf : w.disk.lookup p = some f) (hbase : w.snapshot.files.lookup p = some base)
    (hentry : trusted false w p f = some entry) :
    verdict z (p, f, base) = if differs base f entry.hash then some p else none := by
  obtain ⟨hlookup, hmatches⟩ := Option.filter_eq_some_iff.mp hentry
  have hused := hagrees p f base entry hstaged hf hbase hlookup hmatches
  have hhash := ((h.entries p entry hlookup).2 f hf hmatches).workingFileHash hused
  rw [verdict, rehash, hhash]
  rfl

/-- The modified files are those that hashing finds, whichever were decided by their
fingerprints. -/
theorem World.Inv.modified_eq (h : w.Inv z) (hagrees : w.Agrees) (noCache : Bool)
    {working : List (Str × TimedFile)}
    (hworking : ∀ p f, (p, f) ∈ working → w.disk.lookup p = some f) :
    ((compared w working).filterMap (fun (p, f, base) =>
        (trusted noCache w p f).bind fun entry =>
          if differs base f entry.hash then some p else none) ++
      (((compared w working).filter fun (p, f, _) => (trusted noCache w p f).isNone).map
        (verdict z)).reduceOption).insertionSort (· ≤ ·) =
      ((compared w working).filterMap (verdict z)).insertionSort (· ≤ ·) := by
  have hdecided : (compared w working).filterMap (fun (p, f, base) =>
      (trusted noCache w p f).bind fun entry =>
        if differs base f entry.hash then some p else none) =
      (compared w working).filterMap fun job =>
        if (trusted noCache w job.1 job.2.1).isSome then verdict z job else none := by
    apply List.filterMap_congr
    rintro ⟨p, f, base⟩ hmem
    obtain ⟨hin, hstaged, hbase⟩ := mem_compared hmem
    cases htrusted : trusted noCache w p f with
    | none => simp [htrusted]
    | some entry =>
        have hcache : trusted false w p f = some entry := by
          cases noCache with
          | false => exact htrusted
          | true => simp [trusted] at htrusted
        simp only [htrusted, Option.bind_some, Option.isSome_some, if_true]
        rw [h.verdict_eq hagrees hstaged (hworking p f hin) hbase hcache]
  rw [hdecided]
  apply insertionSort_eq_of_perm
  have hperm := filterMap_split_perm
    (fun job : Str × TimedFile × SnapshotFile H => (trusted noCache w job.1 job.2.1).isSome)
    (verdict z) (compared w working)
  simpa only [Option.not_isSome] using hperm

theorem World.Inv.status_eq (h : w.Inv z) (hagrees : w.Agrees) (skips : Str → Bool) :
    status z false skips w = status z true skips w := by
  have hworking : ∀ (keep : Str × TimedFile → Bool) p f,
      (p, f) ∈ w.disk.sorted.filter keep → w.disk.lookup p = some f :=
    fun keep p f hmem => GoMap.mem_sorted.mp (List.mem_filter.mp hmem).1
  let keep : Str × TimedFile → Bool := fun file => !isNipaPath file.1 && !skips file.1
  have hcached := h.modified_eq hagrees false (hworking keep)
  have hhashed := h.modified_eq hagrees true (hworking keep)
  unfold status
  simp only [mapM_of_ok fun job _ => rehash_eq job]
  change Except.ok _ = Except.ok _
  rw [Except.ok.injEq, Status.mk.injEq]
  exact ⟨rfl, rfl, rfl, rfl, hcached.trans hhashed.symm, rfl⟩

end Agreement

/-! ## Every run -/

/-- After any interleaving of writes and commands, where no file is put in place that an
unstamped fingerprint describes, the status with the cache is the status that hashes
every file, as long as the trusted hashes were made with the encodings now recorded. -/
theorem cached_status_agrees {H : Type} [DecidableEq H] [HashScheme H] (z : Zstd) (now : ℤ)
    (disk : GoMap TimedFile) (snapshot : Snapshot H) (staged : List Str) {w : World H}
    (hrun : Run (World.Step z) (World.Timely z) (World.initial now disk snapshot staged) w)
    (hagrees : w.Agrees) (skips : Str → Bool) :
    status z false skips w = status z true skips w := by
  have hinv : w.Inv z :=
    hrun.invariant (World.initial_inv z now disk snapshot staged)
      fun _ _ _ h htimely hstep => h.step htimely hstep
  exact hinv.status_eq hagrees skips

/-! ## Two runs -/

def plainZstd : Zstd := ⟨id, fun data dst => .ok (dst ++ data)⟩

def notePath : Str := "a".toList

/-- The snapshot of one text file with this content. -/
def noteSnapshot (content : List UInt8) : Snapshot IdealHash :=
  match chunkReader plainZstd content notePath false [] with
  | .ok (hash, encoding) =>
      ⟨[], AList.singleton notePath
        ⟨notePath, hash, 2, false, encoding, content.length, []⟩⟩
  | .error _ => ⟨[], ∅⟩

def noteDisk (content : List UInt8) : GoMap TimedFile :=
  AList.singleton notePath ⟨content, 0o644, 0⟩

def refreshNote : List (Action IdealHash) :=
  [.tick 1, .hash (noteSnapshot [97]) [] ∅ [notePath], .stat 0, .probe 0 0, .read 0 0,
    .saveStatEntries 0]

theorem cached_status_agrees_refreshed :
    ∃ w : World IdealHash, (w.statCache.lookup notePath).isSome ∧
      ∀ skips, status plainZstd false skips w = status plainZstd true skips w := by
  have hrun : (refreshNote.foldlM (World.step plainZstd)
      (World.initial 0 (noteDisk [97]) (noteSnapshot [97]) [])).map
      (fun w => ((w.statCache.lookup notePath).map StatEntry.encoding,
        w.disk.lookup notePath, w.snapshot.files.keys,
        (w.snapshot.files.lookup notePath).map SnapshotFile.encoding)) =
      some (some encodingZstd, some ⟨[97], 0o644, 0⟩, [notePath], some encodingZstd) := by
    rfl
  obtain ⟨w, hw, heq⟩ := Option.map_eq_some_iff.mp hrun
  simp only [Prod.mk.injEq] at heq
  obtain ⟨hcached, hdisk, hkeys, hencoding⟩ := heq
  have htimely : Run (World.Step plainZstd) (World.Timely plainZstd)
      (World.initial 0 (noteDisk [97]) (noteSnapshot [97]) []) w := by
    refine (Run.of_foldlM_mem hw).mono ?_
    intro s e he
    simp only [refreshNote, List.mem_cons, List.not_mem_nil, or_false] at he
    rcases he with rfl | rfl | rfl | rfl | rfl | rfl <;> exact trivial
  have hagrees : w.Agrees := by
    intro p f base entry _ hf hbase hentry _
    have hp : p ∈ w.snapshot.files.keys := GoMap.mem_keys_iff.mpr (by rw [hbase]; rfl)
    rw [hkeys, List.mem_singleton] at hp
    subst hp
    rw [hentry] at hcached
    rw [hbase] at hencoding
    obtain rfl : f = ⟨[97], 0o644, 0⟩ := Option.some.inj (hf.symm.trans hdisk)
    rw [Option.some.inj hcached, Option.some.inj hencoding]
    decide
  refine ⟨w, ?_, fun skips => cached_status_agrees plainZstd 0 _ _ [] htimely hagrees skips⟩
  rw [← Option.isSome_map, hcached]
  rfl

/-- Three writes of one letter: a push reads the first, the second comes in the same tick,
and the push stamps in the next. -/
def writeBehindPush : List (Action IdealHash) :=
  [.write notePath [97] 0o644, .stage [notePath], .push [notePath], .stat 0, .probe 0 0,
    .read 0 0, .write notePath [98] 0o644, .tick 1, .stamp 0 0, .saveStatEntries 0,
    .saveTree (noteSnapshot [97]), .stage []]

/-- Without the condition the status misses the edit. -/
theorem push_stamp_hides_edit :
    ∃ w : World IdealHash,
      Run (World.Step plainZstd) (fun _ _ => True) (World.initial 0 ∅ ⟨[], ∅⟩ []) w ∧
        status plainZstd false (fun _ => false) w ≠
          status plainZstd true (fun _ => false) w := by
  have hrun : (writeBehindPush.foldlM (World.step plainZstd)
      (World.initial 0 ∅ ⟨[], ∅⟩ [])).map
      (fun w => ((status plainZstd false (fun _ => false) w).toOption.map Status.modified,
        (status plainZstd true (fun _ => false) w).toOption.map Status.modified)) =
      some (some [], some [notePath]) := by
    rfl
  obtain ⟨w, hw, heq⟩ := Option.map_eq_some_iff.mp hrun
  refine ⟨w, Run.of_foldlM hw, ?_⟩
  intro hsame
  rw [hsame] at heq
  have hmodified := (Prod.mk.inj heq).1.symm.trans (Prod.mk.inj heq).2
  cases hmodified

end Nipa.Client.Stat
