import Nipa.Client.Conflicts

/-!
# Aborting a merge

An abort brings the working copy from the snapshot to the branch head.  Files
whose snapshot entry agrees with the head are not looked at, and files outside
the head are only removed when the snapshot has them with their present content.
So an abort undoes what the snapshot knows about: a merge that was never
recorded there, because its push failed, and content written by a resolution
stay on disk.
-/

namespace Nipa.Client

open Support Nipa.Merge

section Abort

variable {H : Type} [HashScheme H] [DecidableEq H]

/-! ## Pending merges -/

/-- A merge command that left its merge pending: stopped on conflicts, or clean with
a failed push. -/
def LeavesPending (codec : Codec H) (c₀ : Repo H) (info : MergeBaseInfo H)
    (target : Manifest H) (source : GoMap (Entry H)) (c₁ : Repo H) : Prop :=
  ∃ session server forward sourceBranch targetBranch opts outcome,
    runMerge codec session server forward c₀ sourceBranch targetBranch info target source
      opts = .ok outcome ∧ (outcome = .conflicts c₁ ∨ ∃ e, outcome = .pushFailed c₁ e)

variable {c₀ : Repo H} {target : Manifest H}

theorem LeavesPending.applied {codec : Codec H} {c₁ : Repo H} {info : MergeBaseInfo H}
    {source : GoMap (Entry H)} (h : LeavesPending codec c₀ info target source c₁) :
    ∃ applied, applyThreeWay codec c₀.snapshot c₀.disk target.files
      (threeWay info.mergeBase target.files source) = .ok (c₁.disk, applied) := by
  obtain ⟨session, server, forward, sourceBranch, targetBranch, opts, outcome, hrun,
    houtcome⟩ := h
  rcases runMerge_ok hrun with rfl | ⟨c', rfl⟩ | ⟨-, htrue⟩
  · simp at houtcome
  · simp at houtcome
  · obtain ⟨disk, applied, happlied, hend⟩ := trueMerge_ok htrue
    rcases hend with ⟨-, rfl⟩ | ⟨-, ⟨c', -, rfl⟩ | ⟨e, rfl⟩⟩
    · rcases houtcome with h | ⟨_, h⟩
      · obtain rfl := MergeOutcome.conflicts.inj h
        exact ⟨applied, happlied⟩
      · simp at h
    · simp at houtcome
    · rcases houtcome with h | ⟨_, h⟩
      · simp at h
      · obtain rfl := (MergeOutcome.pushFailed.inj h).1
        exact ⟨applied, happlied⟩

/-- One conflict settled by the user. -/
structure Settled where
  path : Str
  resolution : Resolution
  trusted : Option (Str → Bool)

def Repo.resolves {H : Type} (c : Repo H) (settled : List Settled) :
    Except DomainError (Repo H) :=
  settled.foldlM (fun c s => c.resolve s.path s.resolution s.trusted) c

variable {c : Repo H}

omit [HashScheme H] [DecidableEq H] in
theorem Repo.resolves_disk {c' : Repo H} {settled : List Settled} (h : c.resolves settled = .ok c')
    {p : Str} (hp : p ∉ settled.map Settled.path) : c'.disk.lookup p = c.disk.lookup p := by
  induction settled generalizing c with
  | nil =>
      obtain rfl := pure_eq_ok.mp h
      rfl
  | cons s rest ih =>
      rw [List.map_cons, List.mem_cons, not_or] at hp
      rw [Repo.resolves, List.foldlM_cons] at h
      obtain ⟨mid, hmid, h⟩ := bind_eq_ok.mp h
      rw [ih h hp.2, (Repo.resolve_ok hmid).disk p hp.1]

/-! ## The abort -/

theorem abortMerge_ok {codec : Codec H} {session : Except DomainError Unit} {c' : Repo H}
    {head : Manifest H} (h : abortMerge codec session c head = .ok c') :
    c'.staged = [] ∧ c'.merge = none ∧
      (∀ p, ∀ f ∈ head.files.lookup p,
        SyncedAt codec c.snapshot p f (c.disk.lookup p) (c'.disk.lookup p)) ∧
      ∀ p, head.files.lookup p = none → c'.disk.lookup p =
        if Deletable codec c.snapshot c.disk p then none else c.disk.lookup p := by
  rw [abortMerge] at h
  simp only [bind_eq_ok, refuseIf_eq_ok, pure_eq_ok] at h
  obtain ⟨_, -, _, -, disk, hdisk, rfl⟩ := h
  refine ⟨rfl, rfl, ?_, ?_⟩
  · intro p f hf
    have hpath := syncWorkingCopy_ok hdisk p
    rw [Option.mem_def.mp hf] at hpath
    exact hpath
  · intro p hp
    have hpath := syncWorkingCopy_ok hdisk p
    rw [hp] at hpath
    exact hpath

/-- The head is back: its files are on disk with their content, what the merge put
outside the head is gone, and nothing is staged or pending. -/
structure Restored (codec : Codec H) (target : Manifest H) (c₀ c c' : Repo H) : Prop where
  files : ∀ p, ∀ f ∈ target.files.lookup p, ∃ w ∈ c'.disk.lookup p,
    loadFileContent codec f.encoding f.chunkHashes = .ok w.content
  brought : ∀ p, target.files.lookup p = none → c.disk.lookup p ≠ c₀.disk.lookup p →
    c'.disk.lookup p = none
  staged : c'.staged = []
  merge : c'.merge = none

/-- Whether the snapshot before the abort knows what happened at a path: a file it has
as the head has it has the head's content on disk, and a file brought outside
the head is tracked with its present content. -/
structure UndoableAt (codec : Codec H) (target : Manifest H) (c₀ c : Repo H) (p : Str) :
    Prop where
  files : ∀ f ∈ target.files.lookup p, Recorded c.snapshot p f →
    ∀ w ∈ c.disk.lookup p, loadFileContent codec f.encoding f.chunkHashes = .ok w.content
  brought : target.files.lookup p = none → c.disk.lookup p ≠ c₀.disk.lookup p →
    c.disk.lookup p ≠ none → Deletable codec c.snapshot c.disk p

theorem restored_iff_undoableAt {codec : Codec H} {session : Except DomainError Unit} {c' : Repo H}
    (habort : abortMerge codec session c target = .ok c') :
    Restored codec target c₀ c c' ↔ ∀ p, UndoableAt codec target c₀ c p := by
  obtain ⟨hstaged, hpending, hhead, houtside⟩ := abortMerge_ok habort
  constructor
  · intro hrestored p
    refine ⟨?_, ?_⟩
    · intro f hf hrecorded w hw
      obtain ⟨w', hw', hcontent⟩ := hrestored.files p f hf
      have hsynced := hhead p f hf
      rw [SyncedAt, if_pos ⟨hrecorded, by rw [Option.mem_def.mp hw]; rfl⟩] at hsynced
      rw [Option.mem_def, hsynced] at hw'
      obtain rfl := Option.some.inj (hw'.symm.trans hw)
      exact hcontent
    · intro hp hchanged hfile
      by_contra hnot
      have hgone := hrestored.brought p hp hchanged
      rw [houtside p hp, if_neg hnot] at hgone
      exact hfile hgone
  · intro hundo
    refine ⟨?_, ?_, hstaged, hpending⟩
    · intro p f hf
      have hsynced := hhead p f hf
      rw [SyncedAt] at hsynced
      split at hsynced
      next hskip =>
        obtain ⟨w, hw⟩ := Option.isSome_iff_exists.mp hskip.2
        exact ⟨w, hsynced.trans hw, (hundo p).files f hf hskip.1 w hw⟩
      · obtain ⟨w, hw, hnew⟩ := hsynced
        exact ⟨w, hnew, materializedFile_content hw⟩
    · intro p hp hchanged
      rw [houtside p hp]
      split
      · rfl
      next hnot =>
        by_contra hfile
        exact hnot ((hundo p).brought hp hchanged hfile)

/-! ## Where a merge can be stuck -/

/-- No local edits: a file the snapshot has as the head has it, has its content. -/
def Unedited (codec : Codec H) (target : Manifest H) (c₀ : Repo H) : Prop :=
  ∀ p, ∀ f ∈ target.files.lookup p, Recorded c₀.snapshot p f →
    ∀ w ∈ c₀.disk.lookup p, loadFileContent codec f.encoding f.chunkHashes = .ok w.content

/-- The paths an abort can leave behind: those the merge wrote, those a resolution
settled and those the snapshot before the merge did not have as the head has them. -/
inductive Exposed (c₀ : Repo H) (base : GoMap (Entry H)) (target : Manifest H)
    (source : GoMap (Entry H)) (settled : List Settled) (p : Str) : Prop where
  | taken (d : Decided H)
      (h : outcomeAt (base.lookup p) (target.files.lookup p) (source.lookup p) = .taken d)
      (hd : d.decision = .keepTheirs ∨ d.decision = .textMerge)
  | settled (h : p ∈ settled.map Settled.path)
  | behind (f : Entry H) (hf : f ∈ target.files.lookup p) (h : ¬ Recorded c₀.snapshot p f)

theorem applied_disk {codec : Codec H} {c₁ : Repo H} {base ours theirs : GoMap (Entry H)}
    {applied : ThreeWayResult H}
    (h : applyThreeWay codec c₀.snapshot c₀.disk ours (threeWay base ours theirs) =
      .ok (c₁.disk, applied)) {p : Str}
    (hp : ∀ d, outcomeAt (base.lookup p) (ours.lookup p) (theirs.lookup p) = .taken d →
      ¬ (d.decision = .keepTheirs ∨ d.decision = .textMerge)) :
    c₁.disk.lookup p = c₀.disk.lookup p ∨ c₁.disk.lookup p = none := by
  have happlied := applyThreeWay_ok h p
  rcases hout : outcomeAt (base.lookup p) (ours.lookup p) (theirs.lookup p) with _ | d | _ | d
  all_goals rw [hout] at happlied
  · exact Or.inl happlied.disk
  · obtain ⟨eff, heff, hat⟩ := happlied
    rcases outcomeAt_taken hout with ⟨hd, -⟩ | ⟨hd, -⟩ | ⟨hd, -⟩
    · rw [entryEffect_keepOurs heff hd] at hat
      exact Or.inl hat.disk
    · exact absurd (Or.inl hd) (hp d hout)
    · exact absurd (Or.inr hd) (hp d hout)
  · have hdisk := happlied.disk
    split at hdisk
    · exact Or.inr hdisk
    · exact Or.inl hdisk
  · obtain ⟨eff, heff, hat⟩ := happlied
    have hdisk := hat.disk
    rw [(entryEffect_conflict heff (conflict_decision hout)).1] at hdisk
    exact Or.inl hdisk

theorem undoableAt_of_not_exposed {codec : Codec H} {c₁ : Repo H} {info : MergeBaseInfo H}
    {source : GoMap (Entry H)} {settled : List Settled} (hclean : Unedited codec target c₀)
    (hmerge : LeavesPending codec c₀ info target source c₁) (hsettled : c₁.resolves settled = .ok c)
    {p : Str} (hp : ¬ Exposed c₀ info.mergeBase target source settled p) :
    UndoableAt codec target c₀ c p := by
  obtain ⟨applied, happlied⟩ := hmerge.applied
  have hdisk : c.disk.lookup p = c₀.disk.lookup p ∨ c.disk.lookup p = none := by
    rw [Repo.resolves_disk hsettled fun h => hp (.settled h)]
    exact applied_disk happlied fun d hout hd => hp (.taken d hout hd)
  refine ⟨?_, ?_⟩
  · intro f hf _ w hw
    rcases hdisk with hdisk | hdisk
    · refine hclean p f hf ?_ w (hdisk ▸ hw)
      by_contra hbehind
      exact hp (.behind f hf hbehind)
    · rw [hdisk] at hw
      simp at hw
  · intro _ hchanged hfile
    rcases hdisk with hdisk | hdisk
    · exact absurd hdisk hchanged
    · exact absurd hdisk hfile

/-- An abort restores the head exactly when the snapshot knows what happened at the
paths the merge wrote, a resolution settled or the working copy was behind at. -/
theorem abort_restores_iff (codec : Codec H) {session : Except DomainError Unit}
    {c₀ c₁ c c' : Repo H} {info : MergeBaseInfo H} {target : Manifest H}
    {source : GoMap (Entry H)} {settled : List Settled}
    (hclean : Unedited codec target c₀)
    (hmerge : LeavesPending codec c₀ info target source c₁)
    (hsettled : c₁.resolves settled = .ok c)
    (habort : abortMerge codec session c target = .ok c') :
    Restored codec target c₀ c c' ↔
      ∀ p, Exposed c₀ info.mergeBase target source settled p →
        UndoableAt codec target c₀ c p := by
  rw [restored_iff_undoableAt habort]
  constructor
  · intro hundo p _
    exact hundo p
  · intro hexposed p
    by_cases hp : Exposed c₀ info.mergeBase target source settled p
    · exact hexposed p hp
    · exact undoableAt_of_not_exposed hclean hmerge hsettled hp

end Abort

/-! ## A clean merge whose push fails -/

def refusingServer (H : Type) : PushServer H where
  push _ := .error (errConflict "branch %q has moved" ["main".toList])
  manifest := .error (errNotFound "record not found" [])

/-- The source changed `a.bin` and added `n.bin`; the push of the merge is refused. -/
def stuckBase : List (String × List UInt8) := [("a.bin", [0, 1]), ("b.bin", [0, 1])]

def stuckOurs : List (String × List UInt8) := [("a.bin", [0, 1]), ("b.bin", [0, 2])]

def stuckTheirs : List (String × List UInt8) :=
  [("a.bin", [0, 3]), ("b.bin", [0, 1]), ("n.bin", [0, 5])]

/-- The abort succeeds and leaves both of the source's files on disk. -/
theorem stuck_not_restored :
    ∃ c₁ e c', demoMerge (refusingServer IdealHash) stuckBase stuckOurs stuckTheirs =
        .ok (.pushFailed c₁ e) ∧
      abortMerge demoCodec (.ok ()) c₁ (demoTarget stuckOurs) = .ok c' ∧
      c'.disk.lookup "a.bin".toList = some ⟨[0, 3], 0o644⟩ ∧
      c'.disk.lookup "n.bin".toList = some ⟨[0, 5], 0o644⟩ ∧
      ¬ Restored demoCodec (demoTarget stuckOurs) (demoCopy stuckOurs) c₁ c' := by
  refine ⟨_, _, _, rfl, rfl, rfl, rfl, ?_⟩
  intro h
  obtain ⟨w, hw, hcontent⟩ := h.files "a.bin".toList (demoEntry "a.bin" [0, 1]) rfl
  obtain rfl : (⟨[0, 3], 0o644⟩ : WorkFile) = w := Option.some.inj hw
  have hload : loadFileContent demoCodec (demoEntry "a.bin" [0, 1]).encoding
      (demoEntry "a.bin" [0, 1]).chunkHashes = .ok [0, 1] := rfl
  rw [hload] at hcontent
  exact absurd (Except.ok.inj hcontent) (by decide)

/-- Stopped on its conflict, a merge can be undone: the snapshot no longer has the head's
`b.bin`, the one path it wrote. -/
theorem abort_restores_clash :
    ∃ c₁ c', clashOutcome = .ok (.conflicts c₁) ∧
      abortMerge demoCodec (.ok ()) c₁ (demoTarget clashOurs) = .ok c' ∧
      Restored demoCodec (demoTarget clashOurs) (demoCopy clashOurs) c₁ c' := by
  have htracked : ∀ p, ∀ f ∈ (demoTarget clashOurs).files.lookup p,
      (p = "b.bin".toList ∧ f = demoEntry "b.bin" [0, 1]) ∨
        (p = "a.bin".toList ∧ f = demoEntry "a.bin" [0, 2]) := by
    intro p f hf
    have hmem : (⟨p, f⟩ : Sigma fun _ : Str => Entry IdealHash) ∈
        [⟨"b.bin".toList, demoEntry "b.bin" [0, 1]⟩,
          ⟨"a.bin".toList, demoEntry "a.bin" [0, 2]⟩] := AList.mem_lookup_iff.mp hf
    simpa only [List.mem_cons, List.not_mem_nil, or_false, Sigma.mk.injEq, heq_eq_eq] using hmem
  have hclean : Unedited demoCodec (demoTarget clashOurs) (demoCopy clashOurs) := by
    intro p f hf _ w hw
    rcases htracked p f hf with ⟨rfl, rfl⟩ | ⟨rfl, rfl⟩
    · obtain rfl : (⟨[0, 1], 0o644⟩ : WorkFile) = w := Option.some.inj hw
      rfl
    · obtain rfl : (⟨[0, 2], 0o644⟩ : WorkFile) = w := Option.some.inj hw
      rfl
  obtain ⟨c₁, c', hstop, habort, hb, ha, hpaths⟩ : ∃ c₁ c',
      clashOutcome = .ok (.conflicts c₁) ∧
      abortMerge demoCodec (.ok ()) c₁ (demoTarget clashOurs) = .ok c' ∧
      ¬ Recorded c₁.snapshot "b.bin".toList (demoEntry "b.bin" [0, 1]) ∧
      c₁.disk.lookup "a.bin".toList = some ⟨[0, 2], 0o644⟩ ∧
      ∀ p ∈ c₁.disk.keys, (demoTarget clashOurs).files.lookup p ≠ none :=
    ⟨_, _, rfl, rfl, by decide, rfl, by decide⟩
  have hsettled : c₁.resolves [] = .ok c₁ := rfl
  refine ⟨c₁, c', hstop, habort, (abort_restores_iff demoCodec hclean
    ⟨_, _, _, _, _, _, _, hstop, Or.inl rfl⟩ hsettled habort).mpr fun p _ => ⟨?_, ?_⟩⟩
  · intro f hf hrecorded w hw
    rcases htracked p f hf with ⟨rfl, rfl⟩ | ⟨rfl, rfl⟩
    · exact absurd hrecorded hb
    · obtain rfl := Option.some.inj (ha.symm.trans hw)
      rfl
  · intro hp _ hfile
    exact absurd hp (hpaths p (AList.mem_keys.mp (AList.lookup_isSome.mp
      (Option.isSome_iff_ne_none.mpr hfile))))

end Nipa.Client
