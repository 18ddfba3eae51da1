import Nipa.Client.Conflicts
import Nipa.Merge.MergedTree

/-!
# One merge on the server and on the client

Server and client run the same engine on the same files and carry its decisions
out on their own: the server on stored content, the client on its working copy.
What they take and drop is the same.  A file merged as text gets its mode from
the source on the server and from the target on the client, and only the client
looks at the merged text before it is encoded.
-/

namespace Nipa.Client

open Support Merge

section Content

variable {H : Type} [HashScheme H] {store : ContentStore H} {codec : Codec H}

/-- The server and the client use one implementation of content: the same merge, the same
encoding, for the server of text with no encoding chosen, and the same chunks.  Chunks
decode one by one as they do together. -/
structure SharedContent (store : ContentStore H) (codec : Codec H) : Prop where
  merge_eq : store.mergeText = codec.mergeText
  encode_eq : ∀ content path, store.encodeBytes content path =
    .ok (codec.encode path false [] content)
  decode_eq : store.decode = codec.decode
  chunk_eq : ∀ h data data', store.get h = .ok data → codec.fetch h = .ok data' → data = data'
  joined : ∀ encoding (parts contents : List (List UInt8)),
    parts.mapM (codec.decode encoding) = .ok contents →
    codec.decode encoding parts.flatten = .ok contents.flatten

omit [HashScheme H] in
theorem SharedContent.content_eq (h : SharedContent store codec) {f : Entry H}
    {content content' : List UInt8} (hserver : loadMergedContent store f = .ok content)
    (hclient : loadFileContent codec f.encoding f.chunkHashes = .ok content') :
    content = content' := by
  rw [loadMergedContent, h.decode_eq] at hserver
  rw [loadFileContent] at hclient
  obtain ⟨parts, hparts, hdecode⟩ := bind_eq_ok.mp hserver
  obtain ⟨contents, hcontents, hres⟩ := bind_eq_ok.mp hclient
  obtain rfl := pure_eq_ok.mp hres
  suffices hall : parts.mapM (codec.decode f.encoding) = .ok contents by
    exact Except.ok.inj (hdecode.symm.trans (h.joined _ _ _ hall))
  clear hdecode hserver hres
  generalize f.chunkHashes = hashes at hparts hcontents hclient
  clear hclient
  induction hashes generalizing parts contents with
  | nil =>
      obtain rfl := pure_eq_ok.mp hparts
      obtain rfl := pure_eq_ok.mp hcontents
      rfl
  | cons x hashes ih =>
      rw [List.mapM_cons] at hparts hcontents
      simp only [bind_eq_ok, pure_eq_ok] at hparts hcontents
      obtain ⟨part, hpart, rest, hrest, rfl⟩ := hparts
      obtain ⟨text, ⟨part', hpart', htext⟩, texts, htexts, rfl⟩ := hcontents
      obtain rfl := h.chunk_eq x part part' hpart hpart'
      rw [List.mapM_cons, htext, ih _ _ hrest htexts]
      rfl

end Content

/-! ## One path -/

section Path

variable {H : Type} [HashScheme H] {store : ContentStore H} {codec : Codec H}

/-- Content hashes the same whether or not it is first looked at for binary bytes. -/
def EncodedAlike (codec : Codec H) (p : Str) (content : List UInt8) : Prop :=
  fileHash ((codec.encode p false [] content).2.map Chunk.hash) =
    fileHash ((codec.encode p (codec.isBinary content) [] content).2.map Chunk.hash)

/-- What the maps of the two sides are compared by. -/
def contentMode (e : Entry H) : H × ℕ :=
  (e.hash, e.mode)

theorem applied_eq {p : Str} {d : Decided H} {b o t old server client : Option (Entry H)}
    {eff : EntryEffect H} [DecidableEq H] (hout : outcomeAt b o t = .taken d) (hold : old = o)
    (hserver : AppliedAs store p d old server) (heff : entryEffect codec p d = .ok eff)
    (hclient : client = eff.file.or old) (hd : d.decision ≠ .textMerge) : server = client := by
  rcases outcomeAt_taken hout with ⟨hkeep, ho⟩ | ⟨hkeep, ht⟩ | ⟨htext, -⟩
  · rw [AppliedAs, hkeep] at hserver
    rw [hclient, entryEffect_keepOurs heff hkeep, hserver, hold, ho]
    rfl
  · obtain ⟨w, -, rfl⟩ := entryEffect_keepTheirs heff hkeep
    rw [AppliedAs, hkeep] at hserver
    rw [hclient, hserver]
    rfl
  · exact absurd htext hd

/-- A text merge leaves files of one mode and content when both sides had one mode and the
merged text hashes the same either way. -/
theorem textMerged_iff (hshared : SharedContent store codec) {p : Str} {d : Decided H}
    {old server client : Option (Entry H)} {eff : EntryEffect H}
    (hserver : AppliedAs store p d old server) (heff : entryEffect codec p d = .ok eff)
    (hclient : client = eff.file.or old) (hd : d.decision = .textMerge) :
    server.map contentMode = client.map contentMode ↔
      d.ours.mode = d.theirs.mode ∧ ∀ base ours theirs,
        loadFileContent codec d.base.encoding d.base.chunkHashes = .ok base →
        loadFileContent codec d.ours.encoding d.ours.chunkHashes = .ok ours →
        loadFileContent codec d.theirs.encoding d.theirs.chunkHashes = .ok theirs →
        EncodedAlike codec p (codec.mergeText base ours theirs).1 := by
  rw [AppliedAs, hd] at hserver
  obtain ⟨base, ours, theirs, content, encoding, chunks, hbase, hours, htheirs, hmerge, hencode,
    rfl⟩ := hserver
  obtain ⟨base', ours', theirs', w, hbase', hours', htheirs', -, -, hfile, -⟩ :=
    entryEffect_textMerge heff hd
  obtain rfl := hshared.content_eq hbase hbase'
  obtain rfl := hshared.content_eq hours hours'
  obtain rfl := hshared.content_eq htheirs htheirs'
  have hcontent : (codec.mergeText base ours theirs).1 = content := by
    rw [← hshared.merge_eq, hmerge]
  rw [hshared.encode_eq] at hencode
  have hchunks : (codec.encode p false [] content).2 = chunks :=
    congrArg Prod.snd (Except.ok.inj hencode)
  have hclient' : client.map contentMode =
      some (fileHash ((codec.encode p (codec.isBinary content) [] content).2.map Chunk.hash),
        d.ours.mode) := by
    rw [hclient, hfile, mergedFile, encodeMergedFile, hcontent]
    rfl
  rw [hclient', Option.map_some, contentMode, Option.some.injEq, Prod.mk.injEq, ← hchunks]
  constructor
  · rintro ⟨hhash, hmode⟩
    refine ⟨hmode.symm, fun b o t hb ho ht => ?_⟩
    obtain rfl := Except.ok.inj (hb.symm.trans hbase')
    obtain rfl := Except.ok.inj (ho.symm.trans hours')
    obtain rfl := Except.ok.inj (ht.symm.trans htheirs')
    rw [hcontent]
    exact hhash
  · rintro ⟨hmode, halike⟩
    have h := halike _ _ _ hbase' hours' htheirs'
    rw [hcontent] at h
    exact ⟨h, hmode.symm⟩

end Path

/-! ## The whole merge -/

section Merge

variable {H : Type} [HashScheme H] [DecidableEq H] {store : ContentStore H} {codec : Codec H}
  {base ours theirs : GoMap (Entry H)}

/-- The two file sets agree, and a mode that one side alone changed is in both. -/
structure MergesAgree (base ours theirs server client : GoMap (Entry H)) : Prop where
  same : ∀ p, (server.lookup p).map contentMode = (client.lookup p).map contentMode
  ours_mode : ∀ p, ∀ b ∈ base.lookup p, ∀ o ∈ ours.lookup p, ∀ t ∈ theirs.lookup p,
    o.mode ≠ b.mode → t.mode = b.mode →
      (server.lookup p).map Entry.mode = some o.mode ∧
      (client.lookup p).map Entry.mode = some o.mode
  theirs_mode : ∀ p, ∀ b ∈ base.lookup p, ∀ o ∈ ours.lookup p, ∀ t ∈ theirs.lookup p,
    t.mode ≠ b.mode → o.mode = b.mode →
      (server.lookup p).map Entry.mode = some t.mode ∧
      (client.lookup p).map Entry.mode = some t.mode

/-- Wherever text is merged, both sides have one mode, and the merged text hashes the same
whether or not it is looked at for binary bytes. -/
def TextMergesAgree (codec : Codec H) (base ours theirs : GoMap (Entry H)) : Prop :=
  ∀ p, ∀ d ∈ (threeWay base ours theirs).entries.lookup p, d.decision = .textMerge →
    d.ours.mode = d.theirs.mode ∧ ∀ base ours theirs,
      loadFileContent codec d.base.encoding d.base.chunkHashes = .ok base →
      loadFileContent codec d.ours.encoding d.ours.chunkHashes = .ok ours →
      loadFileContent codec d.theirs.encoding d.theirs.chunkHashes = .ok theirs →
      EncodedAlike codec p (codec.mergeText base ours theirs).1

omit [HashScheme H] in
theorem sameFile_iff {a b : Entry H} : sameFile a b = true ↔ a.hash = b.hash ∧ a.mode = b.mode := by
  simp [sameFile]

theorem outcomeMerged_mode {p : Str} {b o t : Entry H} {m : Option (Entry H)}
    (h : OutcomeMerged store p (some o) m (outcomeAt (some b) (some o) (some t)))
    (htext : outcomeAt (some b) (some o) (some t) = .taken ⟨.textMerge, b, o, t⟩ →
      o.mode = t.mode) :
    (o.mode ≠ b.mode → t.mode = b.mode → m.map Entry.mode = some o.mode) ∧
      (t.mode ≠ b.mode → o.mode = b.mode → m.map Entry.mode = some t.mode) := by
  simp only [outcomeAt] at h htext
  by_cases hboth : sameFile o b && sameFile t b
  · rw [Bool.and_eq_true, sameFile_iff, sameFile_iff] at hboth
    exact ⟨fun ho => absurd hboth.1.2 ho, fun ht => absurd hboth.2.2 ht⟩
  rw [if_neg hboth] at h htext
  by_cases hot : sameFile o t = true
  · have hmode := (sameFile_iff.mp hot).2
    exact ⟨fun ho ht => absurd (hmode.trans ht) ho, fun ht ho => absurd (hmode ▸ ho) ht⟩
  rw [if_neg hot] at h htext
  by_cases hob : sameFile o b = true
  · rw [if_pos hob] at h
    obtain rfl : m = some t := h
    exact ⟨fun ho => absurd (sameFile_iff.mp hob).2 ho, fun _ _ => rfl⟩
  rw [if_neg hob] at h htext
  by_cases htb : sameFile t b = true
  · rw [if_pos htb] at h
    obtain rfl : m = some o := h
    exact ⟨fun _ _ => rfl, fun ht => absurd (sameFile_iff.mp htb).2 ht⟩
  rw [if_neg htb] at h htext
  by_cases hbin : (o.isBinary || t.isBinary) = true
  · rw [if_pos hbin] at h
    exact h.elim
  rw [if_neg hbin] at htext
  have hmode := htext rfl
  exact ⟨fun ho ht => absurd (hmode.trans ht) ho, fun ht ho => absurd (hmode ▸ ho) ht⟩

variable {db db' : DB H} {merged : GoMap (Entry H)} {stored : List (Chunk H)} {pre : Str}
  {snapshot : Snapshot H} {disk disk' : Disk} {out : ThreeWayResult H}

theorem merged_at (hserver : mergeOnto store db base ours theirs pre = .ok (db', merged, stored))
    (hclient : applyThreeWay codec snapshot disk ours (threeWay base ours theirs) =
      .ok (disk', out)) (p : Str) :
    (merged.lookup p = out.files.lookup p ∧ p ∉ out.conflicted ∧
      ∀ d ∈ (threeWay base ours theirs).entries.lookup p, d.decision ≠ .textMerge) ∨
    ∃ d eff, outcomeAt (base.lookup p) (ours.lookup p) (theirs.lookup p) = .taken d ∧
      d.decision = .textMerge ∧ AppliedAs store p d (ours.lookup p) (merged.lookup p) ∧
      entryEffect codec p d = .ok eff ∧
      out.files.lookup p = eff.file.or (ours.lookup p) ∧
      (p ∈ out.conflicted ↔ eff.conflict.isSome) := by
  have hs := (mergeOnto_merged hserver).2 p
  have hc := applyThreeWay_ok hclient p
  have hentry := threeWay_entries base ours theirs p
  rcases hout : outcomeAt (base.lookup p) (ours.lookup p) (theirs.lookup p) with _ | d | _ | d
  all_goals rw [hout] at hs hc hentry
  · refine Or.inl ⟨?_, ?_, by simp [hentry, Outcome.decided?]⟩
    · exact Eq.trans hs hc.files.symm
    · rw [hc.conflicted]
      simp [mergeStart]
  · obtain ⟨eff, heff, happlied⟩ := hc
    have hfiles : out.files.lookup p = eff.file.or (ours.lookup p) := happlied.files
    have hconf : p ∈ out.conflicted ↔ eff.conflict.isSome := by
      rw [happlied.conflicted]
      simp [mergeStart]
    by_cases hd : d.decision = .textMerge
    · exact Or.inr ⟨d, eff, rfl, hd, hs, heff, hfiles, hconf⟩
    · refine Or.inl ⟨applied_eq hout rfl hs heff hfiles hd, ?_, ?_⟩
      · rw [hconf]
        rcases outcomeAt_taken hout with ⟨hkeep, -⟩ | ⟨hkeep, -⟩ | ⟨htext, -⟩
        · simp [entryEffect_keepOurs heff hkeep]
        · obtain ⟨w, -, rfl⟩ := entryEffect_keepTheirs heff hkeep
          simp
        · exact absurd htext hd
      · intro d' hd'
        obtain rfl : d = d' := by simpa [hentry, Outcome.decided?] using hd'
        exact hd
  · refine Or.inl ⟨?_, ?_, by simp [hentry, Outcome.decided?]⟩
    · exact Eq.trans hs hc.files.symm
    · rw [hc.conflicted]
      simp [mergeStart]
  · exact hs.elim

/-- The server and the client come to the same files, and keep modes changed on one side,
exactly when the text merges agree. -/
theorem mergesAgree_iff (hshared : SharedContent store codec)
    (hserver : mergeOnto store db base ours theirs pre = .ok (db', merged, stored))
    (hclient : applyThreeWay codec snapshot disk ours (threeWay base ours theirs) =
      .ok (disk', out)) :
    MergesAgree base ours theirs merged out.files ↔ TextMergesAgree codec base ours theirs := by
  have htext : ∀ p, ∀ d ∈ (threeWay base ours theirs).entries.lookup p,
      d.decision = .textMerge → outcomeAt (base.lookup p) (ours.lookup p) (theirs.lookup p) =
        .taken d := by
    intro p d hd hdec
    rw [Option.mem_def, threeWay_entries] at hd
    rcases hout : outcomeAt (base.lookup p) (ours.lookup p) (theirs.lookup p) with _ | d' | _ | d'
    all_goals rw [hout] at hd
    · simp [Outcome.decided?] at hd
    · obtain rfl : d' = d := by simpa [Outcome.decided?] using hd
      rfl
    · simp [Outcome.decided?] at hd
    · exact absurd hout (outcomeAt_ne_conflict (mergeOnto_conflicts hserver) p d')
  constructor
  · intro h p d hd hdec
    rcases merged_at hserver hclient p with ⟨-, -, hnot⟩ | ⟨d', eff, hout, hdec', hs, heff, hc, -⟩
    · exact absurd hdec (hnot d hd)
    · obtain rfl : d' = d := by simpa [hout] using htext p d hd hdec
      exact (textMerged_iff hshared hs heff hc hdec).mp (h.same p)
  · intro h
    have hsame : ∀ p, (merged.lookup p).map contentMode =
        (out.files.lookup p).map contentMode := by
      intro p
      rcases merged_at hserver hclient p with ⟨heq, -⟩ | ⟨d, eff, hout, hdec, hs, heff, hc, -⟩
      · rw [heq]
      · refine (textMerged_iff hshared hs heff hc hdec).mpr (h p d ?_ hdec)
        rw [Option.mem_def, threeWay_entries, hout]
        rfl
    have hmode : ∀ p, (out.files.lookup p).map Entry.mode = (merged.lookup p).map Entry.mode := by
      intro p
      have hp := congrArg (Option.map Prod.snd) (hsame p)
      rw [Option.map_map, Option.map_map] at hp
      exact hp.symm
    have hkept : ∀ p, ∀ b ∈ base.lookup p, ∀ o ∈ ours.lookup p, ∀ t ∈ theirs.lookup p,
        (o.mode ≠ b.mode → t.mode = b.mode → (merged.lookup p).map Entry.mode = some o.mode) ∧
        (t.mode ≠ b.mode → o.mode = b.mode →
          (merged.lookup p).map Entry.mode = some t.mode) := by
      intro p b hb o ho t ht
      have hs := (mergeOnto_merged hserver).2 p
      rw [Option.mem_def] at hb ho ht
      rw [hb, ho, ht] at hs
      refine outcomeMerged_mode hs fun hout => ?_
      refine (h p ⟨.textMerge, b, o, t⟩ ?_ rfl).1
      rw [Option.mem_def, threeWay_entries, hb, ho, ht, hout]
      rfl
    refine ⟨hsame, ?_, ?_⟩
    · intro p b hb o ho t ht hne heq
      have hp := (hkept p b hb o ho t ht).1 hne heq
      exact ⟨hp, (hmode p).trans hp⟩
    · intro p b hb o ho t ht hne heq
      have hp := (hkept p b hb o ho t ht).2 hne heq
      exact ⟨hp, (hmode p).trans hp⟩

/-- Both sides can read the file. -/
def HoldsContent (store : ContentStore H) (codec : Codec H) (f : Entry H) (content : List UInt8) :
    Prop :=
  loadMergedContent store f = .ok content ∧
    loadFileContent codec f.encoding f.chunkHashes = .ok content

/-- The content a merge needs is at hand on both sides, and no text merge conflicts. -/
structure ContentReady (store : ContentStore H) (codec : Codec H)
    (base ours theirs : GoMap (Entry H)) : Prop where
  puts : ∀ c, store.put c = .ok ()
  cached : ∀ p binary content, loadFileContent codec (codec.encode p binary [] content).1
    ((codec.encode p binary [] content).2.map Chunk.hash) = .ok content
  taken : ∀ p, ∀ d ∈ (threeWay base ours theirs).entries.lookup p, d.decision = .keepTheirs →
    ∃ w, materializedFile codec d.theirs = .ok w
  text : ∀ p, ∀ d ∈ (threeWay base ours theirs).entries.lookup p, d.decision = .textMerge →
    ∃ base ours theirs content, HoldsContent store codec d.base base ∧
      HoldsContent store codec d.ours ours ∧ HoldsContent store codec d.theirs theirs ∧
      codec.mergeText base ours theirs = (content, false)

theorem exists_storeMergedContent (hshared : SharedContent store codec)
    (hput : ∀ c, store.put c = .ok ()) (db : DB H) (p : Str) (mode : ℕ) (content : List UInt8) :
    ∃ r, storeMergedContent store db p mode content = .ok r := by
  obtain ⟨db', hup⟩ := exists_foldlM_ok (f := upload store)
    (l := (codec.encode p false [] content).2) (by
      intro db c _
      rw [upload, hput]
      exact ⟨_, rfl⟩) db
  exact ⟨_, bind_eq_ok.mpr ⟨_, hshared.encode_eq content p, bind_eq_ok.mpr ⟨db', hup, rfl⟩⟩⟩

theorem ContentReady.server (h : ContentReady store codec base ours theirs)
    (hshared : SharedContent store codec) (hconf : (threeWay base ours theirs).conflicts = [])
    (db : DB H) (pre : Str) :
    ∃ db' merged stored, mergeOnto store db base ours theirs pre = .ok (db', merged, stored) := by
  have hstep : ∀ (acc : DB H × GoMap (Entry H) × List (Chunk H)),
      ∀ e ∈ (threeWay base ours theirs).entries.entries,
        ∃ acc', materializeEntry store acc e.1 e.2 = .ok acc' := by
    rintro ⟨db, merged, stored⟩ ⟨p, d⟩ hmem
    have hd : d ∈ (threeWay base ours theirs).entries.lookup p := AList.mem_lookup_iff.mpr hmem
    rcases hdec : d.decision
    case textMerge =>
      obtain ⟨b, o, t, content, hb, ho, ht, hmerge⟩ := h.text p d hd hdec
      rw [← hshared.merge_eq] at hmerge
      obtain ⟨r, hr⟩ := exists_storeMergedContent hshared h.puts db p d.theirs.mode
        (store.mergeText b o t).1
      refine ⟨(r.1, merged.insert p r.2.1, stored ++ r.2.2), ?_⟩
      simp only [materializeEntry, hdec, bind_eq_ok, refuseIf_eq_ok, pure_eq_ok]
      exact ⟨b, hb.1, o, ho.1, t, ht.1, (), by simp [hmerge], r, hr, rfl⟩
    all_goals
      simp only [materializeEntry, hdec]
      exact ⟨_, rfl⟩
  obtain ⟨⟨db', merged, stored⟩, hfold⟩ := exists_foldlM_ok hstep (db, ours, [])
  simp only [mergeOnto, materialize, bind_eq_ok, refuseIf_eq_ok, pure_eq_ok]
  exact ⟨_, _, _, (), by simp [hconf], _, hfold, rfl⟩

theorem ContentReady.client (h : ContentReady store codec base ours theirs)
    (snapshot : Snapshot H) (disk : Disk) :
    ∃ disk' out, applyThreeWay codec snapshot disk ours (threeWay base ours theirs) =
      .ok (disk', out) := by
  obtain ⟨acc, hfold⟩ := exists_foldlM_ok (l :=
    (threeWay base ours theirs).entries.entries.insertionSort fun e e' => e.1 ≤ e'.1)
    (f := fun acc e => applyEntry codec acc e.1 e.2) (by
    rintro acc ⟨p, d⟩ hmem
    have hd : d ∈ (threeWay base ours theirs).entries.lookup p :=
      AList.mem_lookup_iff.mpr ((List.mem_insertionSort _).mp hmem)
    suffices heff : ∃ eff, entryEffect codec p d = .ok eff by
      obtain ⟨eff, heff⟩ := heff
      rw [applyEntry, heff]
      exact ⟨_, rfl⟩
    rcases hdec : d.decision
    case keepTheirs =>
      obtain ⟨w, hw⟩ := h.taken p d hd hdec
      rw [entryEffect, hdec]
      change ∃ eff, (materializedFile codec d.theirs >>= _) = _
      rw [hw]
      exact ⟨_, rfl⟩
    case textMerge =>
      obtain ⟨b, o, t, content, hb, ho, ht, hmerge⟩ := h.text p d hd hdec
      have hw : ∃ w, materializedFile codec (encodeMergedFile codec p content d.ours.mode
          (d.ours.isBinary || d.theirs.isBinary)) = .ok w := by
        rw [materializedFile, encodeMergedFile, h.cached]
        refine ⟨_, bind_eq_ok.mpr ⟨content, rfl, bind_eq_ok.mpr ⟨(), ?_, rfl⟩⟩⟩
        simp
      obtain ⟨w, hw⟩ := hw
      rw [entryEffect, hdec]
      change ∃ eff, (loadFileContent codec d.base.encoding d.base.chunkHashes >>= _) = _
      rw [hb.2]
      change ∃ eff, (loadFileContent codec d.ours.encoding d.ours.chunkHashes >>= _) = _
      rw [ho.2]
      change ∃ eff, (loadFileContent codec d.theirs.encoding d.theirs.chunkHashes >>= _) = _
      rw [ht.2]
      change ∃ eff, (materializedFile codec (encodeMergedFile codec p
        (codec.mergeText b o t).1 d.ours.mode _) >>= _) = _
      rw [hmerge, hw]
      exact ⟨_, rfl⟩
    all_goals
      rw [entryEffect, hdec]
      exact ⟨_, rfl⟩) (disk, ⟨ours, [], [], [], ∅, []⟩)
  rw [applyThreeWay, hfold]
  exact ⟨_, _, rfl⟩

/-- Server and client carry out a merge without conflicts on the same content.  They come to
the same files, and keep modes changed on one side, exactly when at every path merged as
text both sides have one mode and the merged text hashes the same either way. -/
theorem merges_agree_iff (hshared : SharedContent store codec)
    (base ours theirs : GoMap (Entry H)) :
    (ContentReady store codec base ours theirs → (threeWay base ours theirs).conflicts = [] →
      ∀ db pre snapshot disk, ∃ db' merged stored disk' out,
        mergeOnto store db base ours theirs pre = .ok (db', merged, stored) ∧
        applyThreeWay codec snapshot disk ours (threeWay base ours theirs) = .ok (disk', out) ∧
        out.conflicted = []) ∧
    ∀ db pre db' merged stored snapshot disk disk' out,
      mergeOnto store db base ours theirs pre = .ok (db', merged, stored) →
      applyThreeWay codec snapshot disk ours (threeWay base ours theirs) = .ok (disk', out) →
      (MergesAgree base ours theirs merged out.files ↔
        TextMergesAgree codec base ours theirs) := by
  refine ⟨?_, fun _ _ _ _ _ _ _ _ _ hserver hclient => mergesAgree_iff hshared hserver hclient⟩
  intro hready hconf db pre snapshot disk
  obtain ⟨db', merged, stored, hserver⟩ := hready.server hshared hconf db pre
  obtain ⟨disk', out, hclient⟩ := hready.client snapshot disk
  refine ⟨db', merged, stored, disk', out, hserver, hclient, ?_⟩
  rw [List.eq_nil_iff_forall_not_mem]
  intro p hp
  rcases merged_at hserver hclient p with ⟨-, hnot, -⟩ | ⟨d, eff, -, hdec, hs, heff, -, hconf⟩
  · exact hnot hp
  · rw [AppliedAs, hdec] at hs
    obtain ⟨b, o, t, content, _, _, hb, ho, ht, hmerge, -, -⟩ := hs
    rw [entryEffect, hdec] at heff
    simp only [bind_eq_ok, pure_eq_ok] at heff
    obtain ⟨b', hb', o', ho', t', ht', w, -, rfl⟩ := heff
    obtain rfl := hshared.content_eq hb hb'
    obtain rfl := hshared.content_eq ho ho'
    obtain rfl := hshared.content_eq ht ht'
    rw [hshared.merge_eq] at hmerge
    rw [hconf] at hp
    change (if (codec.mergeText b o t).2 = true then some (ConflictKind.text, false)
      else none).isSome = true at hp
    rw [hmerge] at hp
    simp at hp

end Merge

/-! ## A script made executable -/

def sharedStore : ContentStore IdealHash where
  get := demoCodec.fetch
  put _ := .ok ()
  decode := demoCodec.decode
  encodeBytes content path := .ok (demoCodec.encode path false [] content)
  mergeText := demoCodec.mergeText

theorem sharedStore_shared : SharedContent sharedStore demoCodec where
  merge_eq := rfl
  encode_eq _ _ := rfl
  decode_eq := rfl
  chunk_eq _ _ _ hget hfetch := Except.ok.inj (hget.symm.trans hfetch)
  joined := by
    intro encoding parts contents h
    have hsame : parts.mapM (demoCodec.decode encoding) = .ok parts := by
      induction parts generalizing contents with
      | nil => rfl
      | cons part parts ih =>
          rw [List.mapM_cons] at h
          obtain ⟨_, -, h⟩ := bind_eq_ok.mp h
          obtain ⟨rest, hrest, -⟩ := bind_eq_ok.mp h
          rw [List.mapM_cons, ih rest hrest]
          rfl
    obtain rfl := Except.ok.inj (hsame.symm.trans h)
    rfl

def scriptEntry (mode : ℕ) (content : List UInt8) : Entry IdealHash :=
  { demoEntry "a.sh" content with mode := mode, isBinary := false }

def scriptTree (mode : ℕ) (content : List UInt8) : GoMap (Entry IdealHash) :=
  (∅ : GoMap (Entry IdealHash)).insert "a.sh".toList (scriptEntry mode content)

theorem scriptMerge_entry {p : Str} {d : Decided IdealHash}
    (h : d ∈ (threeWay (scriptTree 1 [1]) (scriptTree 3 [1]) (scriptTree 3 [2])).entries.lookup p) :
    p = "a.sh".toList ∧ d = ⟨.textMerge, scriptEntry 1 [1], scriptEntry 3 [1],
      scriptEntry 3 [2]⟩ := by
  have hmem : (⟨p, d⟩ : Sigma fun _ : Str => Decided IdealHash) ∈ [⟨"a.sh".toList, ⟨.textMerge,
      scriptEntry 1 [1], scriptEntry 3 [1], scriptEntry 3 [2]⟩⟩] := AList.mem_lookup_iff.mp h
  simpa using hmem

theorem scriptMerge_ready : ContentReady sharedStore demoCodec (scriptTree 1 [1])
    (scriptTree 3 [1]) (scriptTree 3 [2]) where
  puts _ := rfl
  cached p binary content := by
    rcases content with _ | ⟨b, rest⟩
    · rfl
    · simp [demoCodec, loadFileContent]
      rfl
  taken p d hd hkeep := by
    rw [(scriptMerge_entry hd).2] at hkeep
    cases hkeep
  text p d hd _ := by
    rw [(scriptMerge_entry hd).2]
    exact ⟨_, _, _, _, ⟨rfl, rfl⟩, ⟨rfl, rfl⟩, ⟨rfl, rfl⟩, rfl⟩

theorem merges_agree_demo : ∃ db' merged stored disk' out,
    mergeOnto sharedStore demoStore (scriptTree 1 [1]) (scriptTree 3 [1]) (scriptTree 3 [2]) [] =
      .ok (db', merged, stored) ∧
    applyThreeWay demoCodec ⟨[], ∅⟩ ∅ (scriptTree 3 [1])
      (threeWay (scriptTree 1 [1]) (scriptTree 3 [1]) (scriptTree 3 [2])) = .ok (disk', out) ∧
    out.conflicted = [] ∧
    MergesAgree (scriptTree 1 [1]) (scriptTree 3 [1]) (scriptTree 3 [2]) merged out.files := by
  obtain ⟨hends, hagree⟩ := merges_agree_iff sharedStore_shared (scriptTree 1 [1])
    (scriptTree 3 [1]) (scriptTree 3 [2])
  obtain ⟨db', merged, stored, disk', out, hserver, hclient, hnone⟩ :=
    hends scriptMerge_ready rfl demoStore [] ⟨[], ∅⟩ ∅
  refine ⟨db', merged, stored, disk', out, hserver, hclient, hnone,
    (hagree _ _ _ _ _ _ _ _ _ hserver hclient).mpr fun p d hd _ => ?_⟩
  obtain ⟨-, rfl⟩ := scriptMerge_entry hd
  exact ⟨rfl, fun _ _ _ _ _ _ => rfl⟩

/-- The target makes the script executable, the source changes it: the client keeps the mode
and the server loses it. -/
theorem merged_mode_differs :
    ∃ db' merged stored disk' out,
      mergeOnto sharedStore demoStore (scriptTree 1 [1]) (scriptTree 3 [1]) (scriptTree 1 [2]) [] =
        .ok (db', merged, stored) ∧
      applyThreeWay demoCodec ⟨[], ∅⟩ ∅ (scriptTree 3 [1])
        (threeWay (scriptTree 1 [1]) (scriptTree 3 [1]) (scriptTree 1 [2])) =
          .ok (disk', out) ∧
      out.conflicted = [] ∧
      (merged.lookup "a.sh".toList).map Entry.mode = some 1 ∧
      (out.files.lookup "a.sh".toList).map Entry.mode = some 3 ∧
      ¬ MergesAgree (scriptTree 1 [1]) (scriptTree 3 [1]) (scriptTree 1 [2]) merged out.files := by
  refine ⟨_, _, _, _, _, rfl, rfl, rfl, rfl, rfl, ?_⟩
  intro h
  have hmode := congrArg (Option.map Prod.snd) (h.same "a.sh".toList)
  exact absurd hmode (by decide)

end Nipa.Client
