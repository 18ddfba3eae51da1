import Nipa.Client.WorkTree
import Nipa.Client.MergeCommit
import Nipa.Server.LandedTrees

/-!
# Merges without conflicts

A true merge without conflicts is applied to the working tree, staged and
pushed at once.  The push has conditions of its own: something is staged, every
staged path is an upload or a removal, and no revert sequence is under way.  So
the merge is completed exactly when it takes or deletes something that can be
staged and written, and the target has a head to be the first parent; a merge
whose result is the tree of the target stays pending.
-/

namespace Nipa.Client

open Support Merge

section Command

variable {H : Type} [HashScheme H]

/-! ## The command on a working tree -/

variable [DecidableEq H] {codec : Codec H} {session : Except DomainError Unit}
  {server : PushServer H} {forward : Except DomainError (Manifest H × TextField ID)}
  {c : Repo H} {sourceBranch targetBranch : Str} {info : MergeBaseInfo H}
  {target : Manifest H} {source : GoMap (Entry H)} {opts : MergeOptions}

/-- A true merge on a working tree. -/
def trueMergeOn (codec : Codec H) (session : Except DomainError Unit) (server : PushServer H)
    (tree : WorkTree) (c : Repo H) (info : MergeBaseInfo H) (target : Manifest H)
    (source : GoMap (Entry H)) (message : Str) : Except DomainError (MergeOutcome H) := do
  let acc ← placeThreeWay codec c.snapshot tree target.files
    (threeWay info.mergeBase target.files source)
  if acc.2.conflicted ≠ [] then
    return .conflicts (stoppedCopy c info target acc.1.files acc.2)
  else
    let c := mergedCopy c info target acc.1.files acc.2
    match runPush codec session server c message with
    | .ok c => return .committed c
    | .error e => return .pushFailed c e

def runMergeOn (codec : Codec H) (session : Except DomainError Unit) (server : PushServer H)
    (forward : Except DomainError (Manifest H × TextField ID)) (tree : WorkTree) (c : Repo H)
    (sourceBranch targetBranch : Str) (info : MergeBaseInfo H) (target : Manifest H)
    (source : GoMap (Entry H)) (opts : MergeOptions) : Except DomainError (MergeOutcome H) :=
  mergeWith codec session forward c sourceBranch info opts
    (trueMergeOn codec session server tree c info target source
      (mergeMessage sourceBranch targetBranch opts.message))

variable {tree : WorkTree} {acc : WorkTree × ThreeWayResult H}

/-- Where the file system refuses nothing, the command on the tree is the command on its
files. -/
theorem runMergeOn_eq (hdisk : c.disk = tree.files)
    (h : placeThreeWay codec c.snapshot tree target.files
      (threeWay info.mergeBase target.files source) = .ok acc) :
    runMergeOn codec session server forward tree c sourceBranch targetBranch info target source
        opts =
      runMerge codec session server forward c sourceBranch targetBranch info target source
        opts := by
  rw [runMergeOn, runMerge, trueMergeOn, trueMerge, h, hdisk, placeThreeWay_files h]
  rfl

/-- The call that a merge without conflicts sends. -/
def mergeCall (codec : Codec H) (tree : WorkTree) (c : Repo H) (info : MergeBaseInfo H)
    (target : Manifest H) (source : GoMap (Entry H)) (message : Str) :
    Except DomainError (PushCall H) := do
  let acc ← placeThreeWay codec c.snapshot tree target.files
    (threeWay info.mergeBase target.files source)
  stagedCall codec (mergedCopy c info target acc.1.files acc.2) message target.hash
    info.targetCommitID info.sourceCommitHash

/-! ## Where a clean merge starts -/

/-- A working copy on its tree with no merge pending, nothing staged and every tracked
file as it was recorded. -/
structure ReadyToMerge (codec : Codec H) (tree : WorkTree) (c : Repo H) : Prop where
  disk_eq : c.disk = tree.files
  no_merge : c.merge = none
  nothing_staged : c.staged = []
  unmodified : ∀ p base, c.snapshot.files.lookup p = some base →
    ∃ w, c.disk.lookup p = some w ∧ contentHash codec p base.encoding w.content = base.hash

/-- The source is not contained in the target, and the merge is no fast-forward. -/
structure NeedsTrueMerge (sourceBranch : Str) (info : MergeBaseInfo H)
    (opts : MergeOptions) : Prop where
  source_named : trimSpace sourceBranch ≠ []
  source_head : fieldText info.sourceCommitID ≠ []
  not_contained : fieldText info.mergeBaseCommitID ≠ fieldText info.sourceCommitID
  not_ff_only : opts.ffOnly = false
  no_forward : fieldText info.mergeBaseCommitID = fieldText info.targetCommitID →
    opts.noFF = true

/-- No path is in conflict, and no text that is merged is. -/
structure ConflictFree (codec : Codec H) (base ours theirs : GoMap (Entry H)) : Prop where
  decided : ∀ p d, outcomeAt (base.lookup p) (ours.lookup p) (theirs.lookup p) ≠ .conflict d
  merged : ∀ p d, outcomeAt (base.lookup p) (ours.lookup p) (theirs.lookup p) = .taken d →
    d.decision = .textMerge → ∀ b o t,
    loadFileContent codec d.base.encoding d.base.chunkHashes = .ok b →
    loadFileContent codec d.ours.encoding d.ours.chunkHashes = .ok o →
    loadFileContent codec d.theirs.encoding d.theirs.chunkHashes = .ok t →
    (codec.mergeText b o t).2 = false

/-- The content that a merge reads is served. -/
structure ContentServed (codec : Codec H) (base ours theirs : GoMap (Entry H)) : Prop where
  taken : ∀ p d, outcomeAt (base.lookup p) (ours.lookup p) (theirs.lookup p) = .taken d →
    d.decision = .keepTheirs → ∃ w, materializedFile codec d.theirs = .ok w
  merged : ∀ p d, outcomeAt (base.lookup p) (ours.lookup p) (theirs.lookup p) = .taken d →
    d.decision = .textMerge → ∃ b o t,
    loadFileContent codec d.base.encoding d.base.chunkHashes = .ok b ∧
    loadFileContent codec d.ours.encoding d.ours.chunkHashes = .ok o ∧
    loadFileContent codec d.theirs.encoding d.theirs.chunkHashes = .ok t

/-- The merge writes a file at the path. -/
def Written (base ours theirs : GoMap (Entry H)) (p : Str) : Prop :=
  ∃ d, outcomeAt (base.lookup p) (ours.lookup p) (theirs.lookup p) = .taken d ∧ WritesFile d

/-- The merge deletes a tracked path. -/
def Dropped (snapshot : Snapshot H) (base ours theirs : GoMap (Entry H)) (p : Str) : Prop :=
  outcomeAt (base.lookup p) (ours.lookup p) (theirs.lookup p) = .deleted ∧
    snapshot.files.lookup p ≠ none

/-- The merge stages something, and nothing it stages is refused. -/
structure Completable (tree : WorkTree) (c : Repo H) (base ours theirs : GoMap (Entry H)) :
    Prop where
  no_sequence : ¬ MidSequence c
  stages : ∃ p, Written base ours theirs p ∨ Dropped c.snapshot base ours theirs p
  outside : ∀ p, Written base ours theirs p ∨ Dropped c.snapshot base ours theirs p →
    isNipaPath p = false
  room : ∀ p, Written base ours theirs p →
    tree.Free p ∧ ∀ q, Written base ours theirs q → under p q = false

/-! ## The merge on the tree -/

theorem mergeWith_true (hneeds : NeedsTrueMerge sourceBranch info opts)
    (hmerge : c.merge = none) (hstaged : c.staged = [])
    (carryOut : Except DomainError (MergeOutcome H)) :
    mergeWith codec (.ok ()) forward c sourceBranch info opts carryOut = carryOut := by
  have hforward : ¬ (fieldText info.mergeBaseCommitID = fieldText info.targetCommitID ∧
      opts.noFF = false) := by
    rintro ⟨heq, hno⟩
    rw [hneeds.no_forward heq] at hno
    cases hno
  rw [mergeWith]
  simp only [refuseIf, hneeds.source_named, hneeds.not_ff_only, hmerge, hstaged,
    hneeds.source_head, hneeds.not_contained, hforward, Bool.false_eq_true, false_and,
    Option.isSome_none, ne_eq, not_true_eq_false, if_false]
  rfl

theorem mergeMessage_ne (sourceBranch targetBranch message : Str) :
    trimSpace (mergeMessage sourceBranch targetBranch message) ≠ [] := by
  rw [mergeMessage]
  split
  · intro h
    rw [trimSpace, List.rdropWhile_eq_nil_iff] at h
    exact absurd (h 'M' List.mem_cons_self) (by decide)
  next hmessage => exact hmessage

omit [DecidableEq H] in
theorem exists_materializedFile_merged (hround : codec.RoundTrips) (p : Str) (d : Decided H)
    (base ours theirs : List UInt8) :
    ∃ w, materializedFile codec (mergedFile codec p d base ours theirs) = .ok w := by
  rw [materializedFile, mergedFile, encodeMergedFile]
  exact ⟨_, bind_eq_ok.mpr ⟨_, hround p _, bind_eq_ok.mpr ⟨(), by simp [refuseIf], rfl⟩⟩⟩

section Apply

variable {tree : WorkTree} {base ours theirs : GoMap (Entry H)}
  {acc : WorkTree × ThreeWayResult H} {p : Str}

theorem exists_entryEffect (hround : codec.RoundTrips) {b o t : Option (Entry H)}
    {d : Decided H} (hout : outcomeAt b o t = .taken d)
    (htaken : d.decision = .keepTheirs → ∃ w, materializedFile codec d.theirs = .ok w)
    (hmerged : d.decision = .textMerge → ∃ b o t,
      loadFileContent codec d.base.encoding d.base.chunkHashes = .ok b ∧
      loadFileContent codec d.ours.encoding d.ours.chunkHashes = .ok o ∧
      loadFileContent codec d.theirs.encoding d.theirs.chunkHashes = .ok t) :
    ∃ eff, entryEffect codec p d = .ok eff := by
  rw [entryEffect]
  rcases outcomeAt_taken hout with ⟨hd, -⟩ | ⟨hd, -⟩ | ⟨hd, -⟩
  · rw [hd]
    exact ⟨_, rfl⟩
  · obtain ⟨w, hw⟩ := htaken hd
    rw [hd]
    exact ⟨_, bind_eq_ok.mpr ⟨w, hw, rfl⟩⟩
  · obtain ⟨base, ours, theirs, hbase, hours, htheirs⟩ := hmerged hd
    obtain ⟨w, hw⟩ := exists_materializedFile_merged hround p d base ours theirs
    rw [hd]
    exact ⟨_, bind_eq_ok.mpr ⟨base, hbase, bind_eq_ok.mpr ⟨ours, hours, bind_eq_ok.mpr
      ⟨theirs, htheirs, bind_eq_ok.mpr ⟨w, hw, rfl⟩⟩⟩⟩⟩

theorem written_iff (hdecided : ∀ p d,
    outcomeAt (base.lookup p) (ours.lookup p) (theirs.lookup p) ≠ .conflict d) :
    Written base ours theirs p ↔ ∃ d,
      (outcomeAt (base.lookup p) (ours.lookup p) (theirs.lookup p)).decided? = some d ∧
        WritesFile d := by
  refine exists_congr fun d => and_congr_left fun _ => ?_
  rcases hout : outcomeAt (base.lookup p) (ours.lookup p) (theirs.lookup p) with _ | d' | _ | d'
  · simp [Outcome.decided?]
  · simp [Outcome.decided?]
  · simp [Outcome.decided?]
  · exact absurd hout (hdecided p d')

theorem roomFor_iff (hdecided : ∀ p d,
    outcomeAt (base.lookup p) (ours.lookup p) (theirs.lookup p) ≠ .conflict d) :
    RoomFor tree ((threeWay base ours theirs).entries.entries.insertionSort
        fun e e' => e.1 ≤ e'.1) ↔
      ∀ p, Written base ours theirs p →
        tree.Free p ∧ ∀ q, Written base ours theirs q → under p q = false := by
  simp only [RoomFor, mem_sortedEntries, written_iff hdecided]
  constructor
  · rintro h p ⟨d, hd, hw⟩
    refine ⟨(h ⟨p, d⟩ hd hw).1, ?_⟩
    rintro q ⟨d', hd', hw'⟩
    exact (h ⟨p, d⟩ hd hw).2 ⟨q, d'⟩ hd' hw'
  · intro h e he hw
    obtain ⟨hfree, happart⟩ := h e.1 ⟨e.2, he, hw⟩
    exact ⟨hfree, fun e' he' hw' => happart e'.1 ⟨e'.2, he', hw'⟩⟩

theorem exists_placeThreeWay_iff (hround : codec.RoundTrips) {snapshot : Snapshot H}
    (hunmodified : ∀ p base, snapshot.files.lookup p = some base →
      ∃ w, tree.files.lookup p = some w ∧
        contentHash codec p base.encoding w.content = base.hash)
    (hfree : ConflictFree codec base ours theirs) (hserved : ContentServed codec base ours theirs) :
    (∃ acc, placeThreeWay codec snapshot tree ours (threeWay base ours theirs) = .ok acc) ↔
      ∀ p, Written base ours theirs p →
        tree.Free p ∧ ∀ q, Written base ours theirs q → under p q = false := by
  rw [← roomFor_iff hfree.decided]
  constructor
  · rintro ⟨acc, h⟩
    rw [placeThreeWay] at h
    obtain ⟨mid, hmid, -⟩ := bind_eq_ok.mp h
    exact (exists_placeEntries.mp ⟨mid, hmid⟩).2
  · intro hroom
    have heffs : ∀ e ∈ (threeWay base ours theirs).entries.entries.insertionSort
        (fun e e' => e.1 ≤ e'.1), ∃ eff, entryEffect codec e.1 e.2 = .ok eff := by
      intro e he
      rw [mem_sortedEntries] at he
      rcases hout : outcomeAt (base.lookup e.1) (ours.lookup e.1) (theirs.lookup e.1)
        with _ | d | _ | d
      all_goals rw [hout] at he
      · cases he
      · obtain rfl := Option.some.inj he
        exact exists_entryEffect hround hout (hserved.taken e.1 e.2 hout)
          (hserved.merged e.1 e.2 hout)
      · cases he
      · exact absurd hout (hfree.decided e.1 d)
    have hstart : RoomFor (treeStart tree ours).1 _ := hroom
    obtain ⟨mid, hmid⟩ := exists_placeEntries.mpr ⟨heffs, hstart⟩
    have hperm := List.perm_insertionSort
      (fun e e' : Sigma fun _ : Str => Decided H => e.1 ≤ e'.1)
      (threeWay base ours theirs).entries.entries
    have hleft := (foldlM_applyEntry_ok
      ((List.perm_nodupKeys hperm).mpr (threeWay base ours theirs).entries.nodupKeys)
      (foldlM_map (φ := onFiles) (fun _ _ _ hstep => placeEntry_files hstep) hmid)).2
    -- the entries leave a tracked file that is deleted where it is
    have hkept : ∀ p ∈ (threeWay base ours theirs).deleted.insertionSort (· ≤ ·),
        snapshot.files.lookup p ≠ none → p ∈ mid.1.files.keys := by
      intro p hp hsnap
      rw [List.mem_insertionSort, mem_threeWay_deleted] at hp
      obtain ⟨b, hb⟩ := Option.ne_none_iff_exists'.mp hsnap
      obtain ⟨w, hw, -⟩ := hunmodified p b hb
      have hsame := hleft p (by
        intro hmem
        obtain ⟨e, he, rfl⟩ := List.mem_map.mp hmem
        rw [mem_sortedEntries, hp] at he
        cases he)
      rw [← AList.mem_keys, ← AList.lookup_isSome]
      have hdisk : mid.1.files.lookup p = tree.files.lookup p := hsame.disk
      simp [hdisk, hw]
    obtain ⟨acc, hacc⟩ : ∃ acc, ((threeWay base ours theirs).deleted.insertionSort
        (· ≤ ·)).foldlM (placeDeletion codec snapshot) mid = .ok acc := exists_placeDeletions
      (fun p hp hsnap => WorkTree.free_of_mem (hkept p hp hsnap))
      (fun p hp q hq hsp hsq => (mid.1.apart p (hkept p hp hsp)).2 q
        (List.mem_append_left _ (hkept q hq hsq)))
    exact ⟨acc, bind_eq_ok.mpr ⟨mid, hmid, hacc⟩⟩

omit [DecidableEq H] in
theorem entryEffect_mergedCleanly {d : Decided H} {eff : EntryEffect H}
    (h : entryEffect codec p d = .ok eff) (hd : d.decision = .textMerge)
    (hclean : ∀ b o t, loadFileContent codec d.base.encoding d.base.chunkHashes = .ok b →
      loadFileContent codec d.ours.encoding d.ours.chunkHashes = .ok o →
      loadFileContent codec d.theirs.encoding d.theirs.chunkHashes = .ok t →
      (codec.mergeText b o t).2 = false) : eff.conflict = none := by
  rw [entryEffect, hd] at h
  obtain ⟨base, hbase, h⟩ := bind_eq_ok.mp h
  obtain ⟨ours, hours, h⟩ := bind_eq_ok.mp h
  obtain ⟨theirs, htheirs, h⟩ := bind_eq_ok.mp h
  obtain ⟨w, -, h⟩ := bind_eq_ok.mp h
  obtain rfl := pure_eq_ok.mp h
  simp [hclean base ours theirs hbase hours htheirs]

/-- What a clean merge leaves: it conflicts nowhere, stages what it writes or drops, and
every file is an old one or a written one. -/
theorem placeThreeWay_clean {snapshot : Snapshot H}
    (hunmodified : ∀ p base, snapshot.files.lookup p = some base →
      ∃ w, tree.files.lookup p = some w ∧
        contentHash codec p base.encoding w.content = base.hash)
    (hfree : ConflictFree codec base ours theirs)
    (h : placeThreeWay codec snapshot tree ours (threeWay base ours theirs) = .ok acc) (p : Str) :
    p ∉ acc.2.conflicted ∧
      (p ∈ acc.2.staged ↔ Written base ours theirs p ∨ Dropped snapshot base ours theirs p) ∧
      (Written base ours theirs p → acc.1.files.lookup p ≠ none) ∧
      (Dropped snapshot base ours theirs p → acc.1.files.lookup p = none) ∧
      (acc.1.files.lookup p ≠ none →
        tree.files.lookup p ≠ none ∨ Written base ours theirs p) := by
  have hpath := applyThreeWay_ok (placeThreeWay_files h) p
  rcases hout : outcomeAt (base.lookup p) (ours.lookup p) (theirs.lookup p) with _ | d | _ | d
  all_goals rw [hout] at hpath
  · have hdisk := hpath.disk
    have hstaged := hpath.staged
    have hconflicted := hpath.conflicted
    simp only [mergeStart, onFiles] at hdisk hstaged hconflicted
    simp [Written, Dropped, hout, hdisk, hstaged, hconflicted]
  · obtain ⟨eff, heff, hat⟩ := hpath
    obtain ⟨hwrite, hstage⟩ := entryEffect_writes heff
    have hconflict : eff.conflict = none := by
      rcases outcomeAt_taken hout with ⟨hd, -⟩ | ⟨hd, -⟩ | ⟨hd, -⟩
      · rw [entryEffect_keepOurs heff hd]
      · obtain ⟨w, -, rfl⟩ := entryEffect_keepTheirs heff hd
        rfl
      · exact entryEffect_mergedCleanly heff hd (hfree.merged p d hout hd)
    have hwritten : Written base ours theirs p ↔ WritesFile d := by
      constructor
      · rintro ⟨d', hd', hw⟩
        rw [hout] at hd'
        cases hd'
        exact hw
      · exact fun hw => ⟨d, hout, hw⟩
    have hdisk := hat.disk
    have hstaged := hat.staged
    have hconflicted := hat.conflicted
    simp only [mergeStart, onFiles, hconflict, Option.isSome_none, Bool.false_eq_true,
      List.not_mem_nil, or_self, or_false] at hdisk hstaged hconflicted
    refine ⟨hconflicted.mp, ?_, fun hw => ?_, fun hdrop => ?_, fun hsome => ?_⟩
    · rw [hstaged, hstage, hwritten]
      simp [Dropped, hout]
    · obtain ⟨w, hw⟩ := Option.isSome_iff_exists.mp (hwrite.mpr (hwritten.mp hw))
      simp [hdisk, hw]
    · rw [Dropped, hout] at hdrop
      cases hdrop.1
    · by_cases hw : WritesFile d
      · exact Or.inr (hwritten.mpr hw)
      · have hnone : eff.write = none := by
          rwa [← hwrite, Option.not_isSome_iff_eq_none] at hw
        rw [hdisk, hnone] at hsome
        exact Or.inl hsome
  · have hdel : Deletable codec snapshot tree.files p ↔ snapshot.files.lookup p ≠ none := by
      constructor
      · rintro ⟨b, hb, -⟩
        simp [Option.mem_def.mp hb]
      · intro hsnap
        obtain ⟨b, hb⟩ := Option.ne_none_iff_exists'.mp hsnap
        obtain ⟨w, hw, hhash⟩ := hunmodified p b hb
        refine ⟨b, hb, fun w' hw' => ?_⟩
        obtain rfl := Option.some.inj (hw.symm.trans hw')
        exact hhash
    have hdisk := hpath.disk
    have hstaged := hpath.staged
    have hconflicted := hpath.conflicted
    simp only [mergeStart, onFiles, hdel, List.not_mem_nil, or_false] at hdisk hstaged hconflicted
    have hwritten : ¬ Written base ours theirs p := by
      rintro ⟨d, hd, -⟩
      rw [hout] at hd
      cases hd
    refine ⟨hconflicted.mp, ?_, fun hw => absurd hw hwritten, fun hdrop => ?_, fun hsome => ?_⟩
    · rw [hstaged]
      simp [Dropped, hout, hwritten]
    · rw [hdisk, if_pos hdrop.2]
    · refine Or.inl fun hnone => hsome ?_
      rw [hdisk, hnone, ite_self]
  · exact absurd hout (hfree.decided p d)

end Apply

/-! ## The push of the merge -/

theorem pushable_merged_iff (hready : ReadyToMerge codec tree c)
    (hfree : ConflictFree codec info.mergeBase target.files source)
    (h : placeThreeWay codec c.snapshot tree target.files
      (threeWay info.mergeBase target.files source) = .ok acc)
    (hroom : ∀ p, Written info.mergeBase target.files source p → tree.Free p) {p : Str}
    (hp : Written info.mergeBase target.files source p ∨
      Dropped c.snapshot info.mergeBase target.files source p) :
    Pushable acc.1.files c.snapshot p ↔ isNipaPath p = false := by
  have hunmodified := hready.unmodified
  rw [hready.disk_eq] at hunmodified
  have hclean := placeThreeWay_clean hunmodified hfree h
  refine ⟨fun hpush => hpush.1, fun hnipa => ⟨hnipa, fun hnone => ?_⟩⟩
  obtain ⟨-, -, hwritten, -, -⟩ := hclean p
  have hdrop := hp.resolve_left fun hw => hwritten hw hnone
  rw [← and_assoc]
  refine ⟨?_, hdrop.2⟩
  obtain ⟨base, hbase⟩ := Option.ne_none_iff_exists'.mp hdrop.2
  obtain ⟨w, hw, -⟩ := hunmodified p base hbase
  have hmem : p ∈ tree.files.keys := by
    rw [← AList.mem_keys, ← AList.lookup_isSome, hw]
    rfl
  -- a file on disk now was there before or was written where there was room
  have happart : ∀ r ∈ acc.1.files.keys, under p r = false ∧ under r p = false := by
    intro r hr
    rw [← AList.mem_keys, ← AList.lookup_isSome, Option.isSome_iff_ne_none] at hr
    rcases (hclean r).2.2.2.2 hr with hold | hnew
    · rw [← Option.isSome_iff_ne_none, AList.lookup_isSome, AList.mem_keys] at hold
      exact ⟨(tree.apart p hmem).2 r (List.mem_append_left _ hold),
        (tree.apart r hold).2 p (List.mem_append_left _ hmem)⟩
    · exact ⟨(hroom r hnew).no_file_above p hmem,
        (hroom r hnew).no_directory p (List.mem_append_left _ hmem)⟩
  constructor
  · rw [isDir, Bool.or_eq_false_iff, decide_eq_false_iff_not, List.any_eq_false]
    refine ⟨(tree.apart p hmem).1, ?_⟩
    intro r hr
    simp [(happart r hr).1]
  · rw [belowFile, List.any_eq_false]
    intro r hr
    simp [(happart r hr).2]

/-- The parents of the commit at the head of a branch. -/
def HeadParents (db : DB H) (projectID : ID) (branchName : Str) (parent1 parent2 : Option ID) :
    Prop :=
  ∃ branch commit, db.getBranchByName projectID branchName = some branch ∧
    branch.commitID = some commit.id ∧ db.getCommit commit.id = some commit ∧
    commit.parent1ID = parent1 ∧ commit.parent2ID = parent2

/-- The head of a branch. -/
def HeadIs (db : DB H) (projectID : ID) (branchName : Str) (id : ID) : Prop :=
  ∃ branch, db.getBranchByName projectID branchName = some branch ∧ branch.commitID = some id

theorem applyPush_commits {db db' : DB H} {req : ApplyPushRequest H}
    (h : applyPush db req = .ok db') :
    ∃ treeID, db'.commits = db.commits ++ [commitOf req treeID] := by
  rw [applyPush] at h
  simp only [bind_eq_ok, pure_eq_ok] at h
  obtain ⟨_, _, ⟨ρ, rows⟩, _, first, _, _, _, _, _, rfl⟩ := h
  exact ⟨_, rfl⟩

/-- A push onto a head has that head as its first parent and the commit it names as its
second; a push onto a branch without a head has no parents. -/
theorem push_parents {db db' : DB H} (hinv : db.StoreInv) (hcf : CollisionFree H)
    {caller : Caller} {commitID : ID} {req : PushRequest H}
    (h : push db caller commitID req = .ok db') :
    ∃ branch parent2, db.getBranchByName req.projectID req.branchName = some branch ∧
      parent2CommitOf db req = .ok parent2 ∧
      HeadParents db' req.projectID req.branchName branch.commitID
        (if branch.commitID.isSome then parent2.map Commit.id else none) := by
  obtain ⟨files, branch, userID, head, parent2, plan, root, mid, hp⟩ := push_ok h
  obtain ⟨c, hc, hbranch, hget⟩ := hp.new_head hinv hcf
  refine ⟨branch, parent2, (openBranch_ok hp.opened).1, hp.planned.parent2_eq,
    _, c, hbranch, rfl, hget, ?_⟩
  obtain ⟨treeID, hcommits⟩ := applyPush_commits hp.applied
  obtain ⟨parentHashes, heq⟩ := toApplyRequest_eq commitID req branch head parent2 userID root
  rw [hc.commits_eq, heq] at hcommits
  obtain rfl : c = _ := List.singleton_inj.mp (List.append_cancel_left hcommits)
  obtain ⟨hid, -⟩ := headCommitOf_ok hp.planned.head_eq
  rcases head with _ | x
  · simp [commitOf, buildApplyRequest, hid]
  · simp [commitOf, buildApplyRequest, hid]

variable {call : PushCall H}

omit [DecidableEq H] [HashScheme H] in
theorem request_parent2 {projectID : ID} {branchName : Str} {req : PushRequest H}
    (h : call.request projectID branchName = .ok req) :
    req.parent2CommitHash = call.parent2CommitHash := by
  rw [PushCall.request] at h
  split at h
  · obtain rfl := Except.ok.inj h
    rfl
  · cases h

theorem landPush_parents {db db' : DB H} (hstore : HashedStore db) (hcf : CollisionFree H)
    {caller : Caller} {commitID projectID : ID} {branchName raw : Str} {src : Commit H}
    (hsrc : src ∈ db.commits) (hparent : call.parent2CommitHash =
      .value raw src.hash) (h : landPush db caller commitID projectID branchName call = .ok db') :
    ∃ branch, db.getBranchByName projectID branchName = some branch ∧
      HeadParents db' projectID branchName branch.commitID
        (if branch.commitID.isSome then some src.id else none) := by
  obtain ⟨req, hreq, hpush⟩ := bind_eq_ok.mp h
  obtain ⟨hproject, hname, -⟩ := PushCall.request_ok hreq
  obtain ⟨branch, parent2, hbranch, hparent2, hhead⟩ := push_parents hstore.inv hcf hpush
  rw [hproject, hname] at hbranch hhead
  rw [parent2CommitOf, request_parent2 hreq, hparent] at hparent2
  simp only [bind_eq_ok, orError_eq_ok, refuseIf_eq_ok, pure_eq_ok] at hparent2
  obtain ⟨x, hx, _, -, rfl⟩ := hparent2
  have hhash : x.hash = src.hash := by simpa using List.find?_some hx
  obtain rfl := List.inj_on_of_nodup_map hstore.hashes_nodup (List.mem_of_find?_eq_some hx)
    hsrc hhash
  exact ⟨branch, hbranch, hhead⟩

/-! ## When a clean merge is completed -/

theorem mergeCall_ok_iff {message : Str} (hready : ReadyToMerge codec tree c)
    (hfree : ConflictFree codec info.mergeBase target.files source)
    (h : placeThreeWay codec c.snapshot tree target.files
      (threeWay info.mergeBase target.files source) = .ok acc)
    (hroom : ∀ p, Written info.mergeBase target.files source p → tree.Free p) :
    mergeCall codec tree c info target source message = .ok call ↔
      (∃ p, Written info.mergeBase target.files source p ∨
          Dropped c.snapshot info.mergeBase target.files source p) ∧
        (∀ p, Written info.mergeBase target.files source p ∨
          Dropped c.snapshot info.mergeBase target.files source p → isNipaPath p = false) ∧
        call = callOf codec (mergedCopy c info target acc.1.files acc.2) message target.hash
          info.targetCommitID info.sourceCommitHash := by
  have hunmodified := hready.unmodified
  rw [hready.disk_eq] at hunmodified
  have hstaged : ∀ p, p ∈ (mergedCopy c info target acc.1.files acc.2).staged ↔
      Written info.mergeBase target.files source p ∨
        Dropped c.snapshot info.mergeBase target.files source p := fun p =>
    (mem_mergedCopy_staged hready.nothing_staged).trans
      (placeThreeWay_clean hunmodified hfree h p).2.1
  have hne : (mergedCopy c info target acc.1.files acc.2).staged ≠ [] ↔
      ∃ p, Written info.mergeBase target.files source p ∨
        Dropped c.snapshot info.mergeBase target.files source p := by
    refine Iff.trans ⟨List.exists_mem_of_ne_nil _, ?_⟩ (exists_congr hstaged)
    rintro ⟨p, hp⟩
    exact List.ne_nil_of_mem hp
  have hpushable : (∀ p ∈ (mergedCopy c info target acc.1.files acc.2).staged,
      Pushable acc.1.files c.snapshot p) ↔
      ∀ p, Written info.mergeBase target.files source p ∨
        Dropped c.snapshot info.mergeBase target.files source p → isNipaPath p = false := by
    refine forall_congr' fun p => ?_
    rw [hstaged]
    exact forall_congr' fun hp => pushable_merged_iff hready hfree h hroom hp
  rw [mergeCall, h]
  change stagedCall codec _ _ _ _ _ = _ ↔ _
  rw [stagedCall_eq_ok, hne, ← hpushable]
  rfl

/-- Once a clean merge can be applied, it is committed when no revert sequence is under
way and its call is made and accepted. -/
theorem runMergeOn_committed_iff (hready : ReadyToMerge codec tree c)
    (hneeds : NeedsTrueMerge sourceBranch info opts)
    (hfree : ConflictFree codec info.mergeBase target.files source)
    (h : placeThreeWay codec c.snapshot tree target.files
      (threeWay info.mergeBase target.files source) = .ok acc) {c' : Repo H} :
    runMergeOn codec (.ok ()) server forward tree c sourceBranch targetBranch info target source
        opts = .ok (.committed c') ↔
      ¬ MidSequence c ∧ ∃ call result manifest,
        mergeCall codec tree c info target source
          (mergeMessage sourceBranch targetBranch opts.message) = .ok call ∧
        server.push call = .ok result ∧ server.manifest = .ok manifest ∧
        c' = ⟨acc.1.files, saveTree manifest.hash manifest.files, [], none, none,
          result.commitID⟩ := by
  have hunmodified := hready.unmodified
  rw [hready.disk_eq] at hunmodified
  have hconflicted : acc.2.conflicted = [] :=
    List.eq_nil_iff_forall_not_mem.mpr fun p =>
      (placeThreeWay_clean hunmodified hfree h p).1
  have hpush : ∀ c', runPush codec (.ok ()) server (mergedCopy c info target acc.1.files acc.2)
      (mergeMessage sourceBranch targetBranch opts.message) = .ok c' ↔
      ¬ MidSequence c ∧ ∃ call result manifest,
        mergeCall codec tree c info target source
          (mergeMessage sourceBranch targetBranch opts.message) = .ok call ∧
        server.push call = .ok result ∧ server.manifest = .ok manifest ∧
        c' = ⟨acc.1.files, saveTree manifest.hash manifest.files, [], none, none,
          result.commitID⟩ := by
    intro c'
    rw [runPush_eq_ok, mergeCall, h]
    change _ ↔ ¬ MidSequence c ∧ ∃ call result manifest,
      stagedCall codec (mergedCopy c info target acc.1.files acc.2) _ _ _ _ = .ok call ∧ _
    simp only [stagedCall_eq_ok]
    constructor
    · rintro ⟨-, -, hseq, hne, hall, result, manifest, hpush, hmanifest, rfl⟩
      exact ⟨hseq, _, result, manifest, ⟨hne, hall, rfl⟩, hpush, hmanifest, rfl⟩
    · rintro ⟨hseq, call, result, manifest, ⟨hne, hall, rfl⟩, hpush, hmanifest, rfl⟩
      exact ⟨mergeMessage_ne _ _ _, trivial, hseq, hne, hall, result, manifest, hpush, hmanifest,
        rfl⟩
  rw [runMergeOn, mergeWith_true hneeds hready.no_merge hready.nothing_staged, trueMergeOn, h]
  change (if acc.2.conflicted ≠ [] then _ else _) = _ ↔ _
  rw [if_neg (not_not.mpr hconflicted), ← hpush]
  rcases runPush codec (.ok ()) server (mergedCopy c info target acc.1.files acc.2)
    (mergeMessage sourceBranch targetBranch opts.message) with e | x
  · simp [pure_eq_ok]
  · simp [pure_eq_ok]

/-- The answer about the heads names the head of the source by its hash. -/
structure ReportsSource (db : DB H) (projectID : ID) (sourceBranch : Str)
    (info : MergeBaseInfo H) (src : Commit H) : Prop where
  head : HeadIs db projectID sourceBranch src.id
  stored : src ∈ db.commits
  hash_eq : ∃ raw, info.sourceCommitHash = .value raw src.hash

/-- A merge without conflicts whose server calls all succeed is completed, with the old
head of the target and the source head as the parents of the new head, exactly when it
stages something it can write and send, no revert sequence is under way and the target
has a head. -/
theorem clean_merge_completes_iff {store : ContentStore H} (hcf : CollisionFree H)
    {s₀ s₁ s : Server H} (hfresh : s₀.Fresh) (hrun₁ : ServerRun store (fun _ _ => True) s₀ s₁)
    (hrun : ServerRun store (fun _ _ => True) s₁ s) (hround : codec.RoundTrips)
    {tree : WorkTree} (hready : ReadyToMerge codec tree c)
    (hneeds : NeedsTrueMerge sourceBranch info opts)
    (hfree : ConflictFree codec info.mergeBase target.files source)
    (hserved : ContentServed codec info.mergeBase target.files source)
    {caller : Caller} {commitID projectID : ID} {src : Commit H}
    (hsource : ReportsSource s₁.db projectID sourceBranch info src)
    (haccepted : ∀ call, mergeCall codec tree c info target source
      (mergeMessage sourceBranch targetBranch opts.message) = .ok call →
        ∃ db', landPush s.db caller commitID projectID targetBranch call = .ok db')
    {result : DB H → PushResult} {manifest : Manifest H} :
    (∃ c' call db' head,
      runMergeOn codec (.ok ())
          (storeServer s.db caller commitID projectID targetBranch result (.ok manifest)) forward
          tree c sourceBranch targetBranch info target source opts = .ok (.committed c') ∧
        c'.merge = none ∧ c'.staged = [] ∧
        mergeCall codec tree c info target source
          (mergeMessage sourceBranch targetBranch opts.message) = .ok call ∧
        landPush s.db caller commitID projectID targetBranch call = .ok db' ∧
        HeadIs s.db projectID targetBranch head ∧
        HeadParents db' projectID targetBranch (some head) (some src.id)) ↔
      Completable tree c info.mergeBase target.files source ∧
        ∃ head, HeadIs s.db projectID targetBranch head := by
  have hstore := (ServerRun.hashed hcf hfresh (hrun₁.trans hrun)).store
  have hgrows := ServerRun.grows hcf (ServerRun.hashed hcf hfresh hrun₁) hrun
  have hsrc : src ∈ s.db.commits := hgrows.commits.subset hsource.stored
  obtain ⟨raw, hinfo⟩ := hsource.hash_eq
  have hunmodified := hready.unmodified
  rw [hready.disk_eq] at hunmodified
  constructor
  · rintro ⟨c', call, db', head, hmerge, -, -, hcall, -, hhead, -⟩
    obtain ⟨acc, hacc, -⟩ := bind_eq_ok.mp hcall
    have hroom := (exists_placeThreeWay_iff hround hunmodified hfree hserved).mp ⟨acc, hacc⟩
    obtain ⟨hstages, houtside, -⟩ :=
      (mergeCall_ok_iff hready hfree hacc fun p hp => (hroom p hp).1).mp hcall
    obtain ⟨hseq, -⟩ := (runMergeOn_committed_iff hready hneeds hfree hacc).mp hmerge
    exact ⟨⟨hseq, hstages, houtside, hroom⟩, head, hhead⟩
  · rintro ⟨⟨hseq, hstages, houtside, hroom⟩, head, hhead⟩
    obtain ⟨acc, hacc⟩ := (exists_placeThreeWay_iff hround hunmodified hfree hserved).mpr hroom
    have hcall : mergeCall codec tree c info target source
        (mergeMessage sourceBranch targetBranch opts.message) = .ok _ :=
      (mergeCall_ok_iff hready hfree hacc fun p hp => (hroom p hp).1).mpr
        ⟨hstages, houtside, rfl⟩
    obtain ⟨db', hland⟩ := haccepted _ hcall
    obtain ⟨branch, hbranch, hparents⟩ := landPush_parents hstore hcf hsrc hinfo hland
    obtain ⟨branch', hbranch', hid⟩ := hhead
    obtain rfl := Option.some.inj (hbranch.symm.trans hbranch')
    rw [hid] at hparents
    refine ⟨_, _, db', head, (runMergeOn_committed_iff hready hneeds hfree hacc).mpr ⟨hseq, _,
      result db', manifest, hcall, ?_, rfl, rfl⟩, rfl, rfl, hcall, hland, ⟨branch, hbranch, hid⟩,
      hparents⟩
    exact bind_eq_ok.mpr ⟨db', hland, rfl⟩

end Command

/-! ## A merge of the same change -/

def twinDevPush : PushRequest IdealHash :=
  { demoPush with
    branchName := "dev".toList
    files := [demoFile "a.txt" 3]
    baseCommitID := .value "7".toList 7
    paths_fit := by decide }

def twinMainPush : PushRequest IdealHash :=
  { demoPush with
    message := "second".toList
    files := [demoFile "a.txt" 3]
    baseCommitID := .value "7".toList 7
    paths_fit := by decide }

/-- The store after the first push, after the push to the second branch, and after the
same change was pushed to the first. -/
def twinBase : DB IdealHash :=
  (push staleStore demoCaller 7 mainPush).toOption.getD staleStore

def twinDev : DB IdealHash :=
  (push { twinBase with branches := twinBase.branches ++ [devBranch] } demoCaller 8
    twinDevPush).toOption.getD staleStore

@[irreducible]
def twinDB : DB IdealHash :=
  (push twinDev demoCaller 9 twinMainPush).toOption.getD staleStore

theorem twin_run :
    ServerRun noContent (fun _ _ => True) staleServer ⟨twinDB, fun _ => none⟩ := by
  have hbase : ServerRun noContent (fun _ _ => True) staleServer ⟨twinBase, fun _ => none⟩ :=
    push_serverRun (eq_ok_of_toOption staleStore (by decide +kernel)) (by decide +kernel)
      (by decide +kernel)
  have hbranch : Housekeeping twinBase
      { twinBase with branches := twinBase.branches ++ [devBranch] } :=
    addBranch_housekeeping (by decide +kernel) (by decide +kernel)
  have hdev : ServerRun noContent (fun _ _ => True)
      ⟨{ twinBase with branches := twinBase.branches ++ [devBranch] }, fun _ => none⟩
      ⟨twinDev, fun _ => none⟩ :=
    push_serverRun (eq_ok_of_toOption staleStore (by decide +kernel)) (by decide +kernel)
      (by decide +kernel)
  have hpush : push twinDev demoCaller 9 twinMainPush = .ok twinDB := by
    unfold twinDB
    exact eq_ok_of_toOption staleStore (by decide +kernel)
  have hmain : ServerRun noContent (fun _ _ => True) ⟨twinDev, fun _ => none⟩
      ⟨twinDB, fun _ => none⟩ :=
    push_serverRun hpush (by decide +kernel) (by decide +kernel)
  exact ((hbase.tail (e := Event.other) trivial (.other hbranch)).trans hdev).trans hmain

def twinTree (id : ID) : GoMap (Entry IdealHash) :=
  (mergeTreeOf twinDB 1 (some id)).toOption.getD ∅

def twinTarget : Manifest IdealHash := ⟨"head".toList, twinTree 9⟩

def twinSource : Commit IdealHash :=
  (twinDB.getCommit 8).getD ⟨0, .zero, 0, 0, none, none, 0, []⟩

def twinInfo : MergeBaseInfo IdealHash where
  mergeBaseCommitID := .value "7".toList 7
  targetCommitID := .value "9".toList 9
  sourceCommitID := .value "8".toList 8
  sourceCommitHash := .value "s".toList twinSource.hash
  mergeBase := twinTree 7

/-- The working copy at the head of the target, on its tree. -/
def twinFiles : WorkTree where
  files := GoMap.insertAll Prod.fst Prod.snd ∅
    [("a.txt".toList, ⟨[3], 0o644⟩), ("d.txt".toList, ⟨[2], 0o644⟩)]
  emptied := []
  apart := by decide

def twinCopy : Repo IdealHash where
  disk := twinFiles.files
  snapshot := saveTree "head".toList (twinTree 9)
  staged := []
  merge := none
  revert := none
  commit := .value "9".toList 9

/-- The server the merge is pushed to. -/
def storeAnswer (db : DB IdealHash) : PushServer IdealHash :=
  storeServer db demoCaller 10 1 "main".toList (fun _ => ⟨[], .value "a".toList 10⟩)
    (.ok ⟨[], ∅⟩)

def twinOutcome : Except DomainError (MergeOutcome IdealHash) :=
  runMergeOn demoCodec (.ok ()) (storeAnswer twinDB) (.error errNoPermission) twinFiles twinCopy
    "dev".toList "main".toList twinInfo twinTarget (twinTree 8) ⟨false, false, []⟩

def MergeOutcome.pushFailure? {H : Type} : MergeOutcome H → Option (Bool × DomainError)
  | .pushFailed c e => some (c.merge.isSome, e)
  | _ => none

theorem pending_of_pushFailure {H : Type} {x : Except DomainError (MergeOutcome H)}
    {e : DomainError}
    (h : x.toOption.bind MergeOutcome.pushFailure? = some (true, e)) :
    ∃ c, x = .ok (.pushFailed c e) ∧ c.merge ≠ none := by
  rcases x with _ | (_ | _ | _ | _ | ⟨c, e'⟩)
  case ok.pushFailed =>
    obtain ⟨hpending, rfl⟩ := Prod.mk.inj (Option.some.inj h)
    exact ⟨c, rfl, Option.isSome_iff_ne_none.mp hpending⟩
  all_goals cases h

theorem unmodified_of_entries {codec : Codec IdealHash} {snapshot : Snapshot IdealHash}
    {disk : Disk} (h : ∀ e ∈ snapshot.files.entries, (disk.lookup e.1).any fun w =>
      contentHash codec e.1 e.2.encoding w.content = e.2.hash) (p : Str)
    (base : SnapshotFile IdealHash) (hbase : snapshot.files.lookup p = some base) :
    ∃ w, disk.lookup p = some w ∧ contentHash codec p base.encoding w.content = base.hash := by
  obtain ⟨w, hw, hhash⟩ := (Option.any_eq_true _ _).mp (h ⟨p, base⟩ (AList.mem_lookup_iff.mp hbase))
  exact ⟨w, hw, by simpa using hhash⟩

theorem decision_of_entries {base ours theirs : GoMap (Entry IdealHash)}
    {P : Str → Decided IdealHash → Prop}
    (h : ∀ e ∈ (threeWay base ours theirs).entries.entries, P e.1 e.2) (p : Str)
    (d : Decided IdealHash)
    (hout : outcomeAt (base.lookup p) (ours.lookup p) (theirs.lookup p) = .taken d) : P p d := by
  refine h ⟨p, d⟩ (AList.mem_lookup_iff.mp ?_)
  rw [threeWay_entries, hout]
  rfl

/-- Both branches made the same change: the merge has no conflict, every call of the
server would succeed, and the merge stays pending. -/
theorem same_change_stays_pending :
    ∃ s src, ServerRun noContent (fun _ _ => True) staleServer s ∧
      ReadyToMerge demoCodec twinFiles twinCopy ∧
      NeedsTrueMerge "dev".toList twinInfo ⟨false, false, []⟩ ∧
      ConflictFree demoCodec twinInfo.mergeBase twinTarget.files (twinTree 8) ∧
      ContentServed demoCodec twinInfo.mergeBase twinTarget.files (twinTree 8) ∧
      ReportsSource s.db 1 "dev".toList twinInfo src ∧
      (∀ call, mergeCall demoCodec twinFiles twinCopy twinInfo twinTarget (twinTree 8)
        (mergeMessage "dev".toList "main".toList []) = .ok call →
        ∃ db', landPush s.db demoCaller 10 1 "main".toList call = .ok db') ∧
      twinTarget.files = twinTree 8 ∧
      ∃ c, twinOutcome = .ok (.pushFailed c
          (errUser "nothing staged to push; run nipa add first" [])) ∧
        c.merge ≠ none := by
  -- one evaluation of the store serves all that is read off it
  have hfacts :
      (∀ e ∈ (threeWay twinInfo.mergeBase twinTarget.files (twinTree 8)).entries.entries,
        e.2.decision = .keepOurs) ∧
      (threeWay twinInfo.mergeBase twinTarget.files (twinTree 8)).conflicts = [] ∧
      (∀ e ∈ twinCopy.snapshot.files.entries, (twinFiles.files.lookup e.1).any fun w =>
        contentHash demoCodec e.1 e.2.encoding w.content = e.2.hash) ∧
      twinDB.getBranchByName 1 "dev".toList = some { devBranch with commitID := some 8 } ∧
      twinSource.id = 8 ∧ twinSource ∈ twinDB.commits ∧
      (mergeCall demoCodec twinFiles twinCopy twinInfo twinTarget (twinTree 8)
        (mergeMessage "dev".toList "main".toList [])).toOption.isSome = false ∧
      twinTarget.files.entries = (twinTree 8).entries ∧
      twinOutcome.toOption.bind MergeOutcome.pushFailure? =
        some (true, errUser "nothing staged to push; run nipa add first" []) := by
    decide +kernel
  obtain ⟨hkeep, hconflicts, hclean, hbranch, hid, hstored, hnone, hsame, hpending⟩ := hfacts
  have hdecision := decision_of_entries (P := fun _ d => d.decision = .keepOurs) hkeep
  have hsource : ReportsSource twinDB 1 "dev".toList twinInfo twinSource :=
    ⟨⟨_, hbranch, by rw [hid]⟩, hstored, "s".toList, rfl⟩
  refine ⟨⟨twinDB, fun _ => none⟩, twinSource, twin_run,
    ⟨rfl, rfl, rfl, unmodified_of_entries hclean⟩,
    ⟨by decide, by decide, by decide, rfl, by decide⟩,
    ⟨outcomeAt_ne_conflict hconflicts, fun p d hd htext => ?_⟩,
    ⟨fun p d hd htaken => ?_, fun p d hd htext => ?_⟩,
    hsource, fun call hcall => ?_, AList.ext hsame, pending_of_pushFailure hpending⟩
  · rw [hdecision p d hd] at htext
    cases htext
  · rw [hdecision p d hd] at htaken
    cases htaken
  · rw [hdecision p d hd] at htext
    cases htext
  · rw [hcall] at hnone
    cases hnone

/-! ## A merge of a new file -/

def staleFiles : WorkTree where
  files := staleCopy.disk
  emptied := []
  apart := by decide

def staleSource : Commit IdealHash :=
  (staleDB.getCommit 8).getD ⟨0, .zero, 0, 0, none, none, 0, []⟩

/-- The source added `n.bin`, which the merge writes. -/
theorem new_file_completes :
    ∃ s, ServerRun noContent (fun _ _ => True) staleServer s ∧
      ∃ c' call db' head,
        runMergeOn demoCodec (.ok ()) (storeServer s.db demoCaller 9 1 "main".toList
            (fun _ => ⟨[], .value "9".toList 9⟩) (.ok ⟨[], ∅⟩)) (.error errNoPermission)
            staleFiles staleCopy "dev".toList "main".toList staleInfo staleTarget (staleTree 8)
            ⟨false, true, []⟩ = .ok (.committed c') ∧
          c'.merge = none ∧ c'.staged = [] ∧
          mergeCall demoCodec staleFiles staleCopy staleInfo staleTarget (staleTree 8)
            (mergeMessage "dev".toList "main".toList []) = .ok call ∧
          landPush s.db demoCaller 9 1 "main".toList call = .ok db' ∧
          HeadIs s.db 1 "main".toList head ∧
          HeadParents db' 1 "main".toList (some head) (some staleSource.id) := by
  obtain ⟨s, hrun, hdb⟩ := stale_run
  -- one evaluation of the store serves all that is read off it
  have hfacts :
      (∀ e ∈ (threeWay staleInfo.mergeBase staleTarget.files (staleTree 8)).entries.entries,
        isNipaPath e.1 = false ∧ e.2.decision ≠ .textMerge ∧ (e.2.decision = .keepTheirs →
          (materializedFile demoCodec e.2.theirs).toOption.isSome = true)) ∧
      (∀ p ∈ (threeWay staleInfo.mergeBase staleTarget.files (staleTree 8)).deleted,
        isNipaPath p = false) ∧
      (threeWay staleInfo.mergeBase staleTarget.files (staleTree 8)).conflicts = [] ∧
      (∃ e ∈ (threeWay staleInfo.mergeBase staleTarget.files (staleTree 8)).entries.entries,
        outcomeAt (staleInfo.mergeBase.lookup e.1) (staleTarget.files.lookup e.1)
          ((staleTree 8).lookup e.1) = .taken e.2 ∧ WritesFile e.2) ∧
      (∀ e ∈ (threeWay staleInfo.mergeBase staleTarget.files
          (staleTree 8)).entries.entries.insertionSort (fun e e' => e.1 ≤ e'.1),
        WritesFile e.2 → staleFiles.Free e.1 ∧
          ∀ e' ∈ (threeWay staleInfo.mergeBase staleTarget.files
            (staleTree 8)).entries.entries.insertionSort (fun e e' => e.1 ≤ e'.1),
            WritesFile e'.2 → under e.1 e'.1 = false) ∧
      (∀ e ∈ staleCopy.snapshot.files.entries, (staleFiles.files.lookup e.1).any fun w =>
        contentHash demoCodec e.1 e.2.encoding w.content = e.2.hash) ∧
      staleDB.getBranchByName 1 "dev".toList = some { devBranch with commitID := some 8 } ∧
      staleSource.id = 8 ∧ staleSource ∈ staleDB.commits ∧
      ((staleDB.getCommit 8).map Commit.hash).getD .zero = staleSource.hash ∧
      staleDB.getBranchByName 1 "main".toList =
        some ⟨1, 1, "main".toList, false, true, some 7, false⟩ ∧
      ((mergeCall demoCodec staleFiles staleCopy staleInfo staleTarget (staleTree 8)
        (mergeMessage "dev".toList "main".toList [])).bind
          (landPush staleDB demoCaller 9 1 "main".toList)).toOption.isSome = true := by
    decide +kernel
  obtain ⟨hentries, hdeleted, hconflicts, ⟨e, -, he, hwrites⟩, hroom, hclean, hdev, hid, hstored,
    hhash, hmain, hsent⟩ := hfacts
  have hdecision := decision_of_entries (P := fun p d => isNipaPath p = false ∧
    d.decision ≠ .textMerge ∧ (d.decision = .keepTheirs →
      (materializedFile demoCodec d.theirs).toOption.isSome = true)) hentries
  have hcompletable : Completable staleFiles staleCopy staleInfo.mergeBase staleTarget.files
      (staleTree 8) := by
    refine ⟨by decide, ⟨e.1, Or.inl ⟨e.2, he, hwrites⟩⟩, ?_,
      (roomFor_iff (outcomeAt_ne_conflict hconflicts)).mp hroom⟩
    rintro p (⟨d, hd, -⟩ | ⟨hout, -⟩)
    · exact (hdecision p d hd).1
    · exact hdeleted p (mem_threeWay_deleted.mpr hout)
  have hsource : ReportsSource s.db 1 "dev".toList staleInfo staleSource := by
    rw [hdb]
    exact ⟨⟨_, hdev, by rw [hid]⟩, hstored, "s".toList, congrArg (TextField.value _) hhash⟩
  refine ⟨s, hrun, (clean_merge_completes_iff IdealHash.collisionFree
    ⟨⟨rfl, rfl, rfl⟩, by decide, by decide, fun _ => rfl⟩ hrun (Run.refl s) demoCodec_roundTrips
    ⟨rfl, rfl, rfl, unmodified_of_entries hclean⟩
    ⟨by decide, by decide, by decide, rfl, fun _ => rfl⟩
    ⟨outcomeAt_ne_conflict hconflicts, fun p d hd htext => ?_⟩
    ⟨fun p d hd htaken => ?_, fun p d hd htext => ?_⟩ hsource fun call hcall => ?_).mpr
    ⟨hcompletable, 7, ?_⟩⟩
  · exact absurd htext (hdecision p d hd).2.1
  · exact ⟨_, eq_ok_of_toOption ⟨[], 0⟩ ((hdecision p d hd).2.2 htaken)⟩
  · exact absurd htext (hdecision p d hd).2.1
  · rw [hcall] at hsent
    rw [hdb]
    exact ⟨_, eq_ok_of_toOption staleDB hsent⟩
  · rw [hdb]
    exact ⟨_, hmain, rfl⟩

end Nipa.Client
