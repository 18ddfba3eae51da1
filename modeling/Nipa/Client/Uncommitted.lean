import Nipa.Client.Revert

/-!
# What merges and reverts leave staged

A merge or revert that stops, and a revert that does not commit, leave their
changes staged for a later push, and save the files they made as the snapshot.
A file they delete is then no longer in the snapshot while its path is still
staged, so the push finds a staged path that is neither on disk nor tracked.

`Uncommitted` follows a merge or revert through its rounds, the user's actions
and the continuations, with the paths this has happened to.  Within a command it
also keeps the paths that were deleted and not yet taken out of the snapshot.
-/

namespace Nipa.Client

open Support Nipa.Merge

/-! ## Runs -/

/-- Where a merge or revert is: between two rounds of a command, with the files the
next round starts from and the staged paths these have lost, or between commands. -/
inductive Phase (H : Type) where
  | running (ours : GoMap (Entry H)) (lost : Str → Prop)
  | waiting

/-- A user takes the file of a path away. -/
def Action.Drops : Action → Str → Prop
  | .edit q none, p => p = q
  | _, _ => False

section Runs

variable {H : Type} [HashScheme H] [DecidableEq H]

/-- The staged paths that a round's files have lost: those it deletes, and those that
were lost before and still have no file. -/
def lostAfter (codec : Codec H) (c : Repo H) (base ours theirs : GoMap (Entry H))
    (lost : Str → Prop) (disk : Disk) (p : Str) : Prop :=
  Removed codec c base ours theirs p ∨ (lost p ∧ disk.lookup p = none)

/-- The working copies that merges and reverts lead to, with the paths that were
deleted and taken out of the snapshot. -/
inductive Uncommitted (codec : Codec H) : Repo H → Phase H → (Str → Prop) → Prop
  | start {c : Repo H} {ours : GoMap (Entry H)} (hstaged : c.staged = []) :
      Uncommitted codec c (.running ours fun _ => False) fun _ => False
  | merge {c c' : Repo H} {session : Except DomainError Unit} {server : PushServer H}
      {forward : Except DomainError (Manifest H × TextField ID)}
      {sourceBranch targetBranch : Str} {info : MergeBaseInfo H} {target : Manifest H}
      {source : GoMap (Entry H)} {opts : MergeOptions}
      (hmerge : runMerge codec session server forward c sourceBranch targetBranch info target
        source opts = .ok (.conflicts c')) :
      Uncommitted codec c' .waiting (Removed codec c info.mergeBase target.files source)
  | unchanged {c c' : Repo H} {server : RevertServer H} {st st' : RevertState}
      {target : CommitRef} {rest : List CommitRef} {ours ours' : GoMap (Entry H)}
      {lost gone : Str → Prop} {trees : GoMap (Entry H) × GoMap (Entry H)}
      (h : Uncommitted codec c (.running ours lost) gone)
      (htrees : server.trees target st.mainline = .ok trees)
      (hround : revertRound codec server c st target rest ours =
        .ok (.next c' st' ours' false false)) :
      Uncommitted codec c'
        (.running ours' (lostAfter codec c trees.1 ours trees.2 lost c'.disk)) gone
  | saved {c c' : Repo H} {server : RevertServer H} {st st' : RevertState}
      {target : CommitRef} {rest : List CommitRef} {ours ours' : GoMap (Entry H)}
      {lost gone : Str → Prop} {trees : GoMap (Entry H) × GoMap (Entry H)}
      (h : Uncommitted codec c (.running ours lost) gone)
      (htrees : server.trees target st.mainline = .ok trees)
      (hround : revertRound codec server c st target rest ours =
        .ok (.next c' st' ours' true false)) :
      Uncommitted codec c'
        (.running ours' (lostAfter codec c trees.1 ours trees.2 lost c'.disk))
        (lostAfter codec c trees.1 ours trees.2 lost c'.disk)
  | stopped {c c' : Repo H} {server : RevertServer H} {st : RevertState}
      {target : CommitRef} {rest : List CommitRef} {ours : GoMap (Entry H)}
      {lost gone : Str → Prop} {trees : GoMap (Entry H) × GoMap (Entry H)}
      {conflicts : List Str}
      (h : Uncommitted codec c (.running ours lost) gone)
      (htrees : server.trees target st.mainline = .ok trees)
      (hround : revertRound codec server c st target rest ours =
        .ok (.stopped c' conflicts)) :
      Uncommitted codec c' .waiting (lostAfter codec c trees.1 ours trees.2 lost c'.disk)
  | finished {c : Repo H} {ours : GoMap (Entry H)} {lost gone : Str → Prop}
      (h : Uncommitted codec c (.running ours lost) gone) :
      Uncommitted codec { c with revert := none } .waiting gone
  | act {c c' : Repo H} {a : Action} {gone : Str → Prop}
      (h : Uncommitted codec c .waiting gone) (hact : c.act a = .ok c') :
      Uncommitted codec c' .waiting fun p =>
        gone p ∨ (a.Drops p ∧ c.snapshot.files.lookup p = none)
  | resumed {c : Repo H} {st : RevertState} {gone : Str → Prop}
      (h : Uncommitted codec c .waiting gone) :
      Uncommitted codec { c with revert := some st }
        (.running (workingTreeFiles codec c) fun p => p ∈ c.staged ∧ c.disk.lookup p = none)
        gone

end Runs

/-! ## What the paths recorded along a run are -/

section Exact

variable {H : Type}

/-- The staged paths without a file that the snapshot does not have are those that
were deleted and taken out of it. -/
structure GoneExact (c : Repo H) (gone : Str → Prop) : Prop where
  untracked : ∀ p, gone p → c.snapshot.files.lookup p = none
  recorded : ∀ p ∈ c.staged, c.disk.lookup p = none → c.snapshot.files.lookup p = none → gone p

/-- The staged paths without a file that the next round does not start from are the
lost ones, and it starts from none that the snapshot does not have. -/
structure LostExact (c : Repo H) (ours : GoMap (Entry H)) (lost : Str → Prop) : Prop where
  missing : ∀ p, lost p → ours.lookup p = none ∧ c.disk.lookup p = none
  recorded : ∀ p ∈ c.staged, c.disk.lookup p = none → ours.lookup p = none → lost p
  untracked : ∀ p ∈ c.staged, c.disk.lookup p = none → c.snapshot.files.lookup p = none →
    ours.lookup p = none

end Exact

section Round

variable {H : Type} [HashScheme H] [DecidableEq H] {codec : Codec H} {c c' : Repo H}
  {base ours theirs : GoMap (Entry H)} {lost gone : Str → Prop} {disk : Disk}
  {applied : ThreeWayResult H} {p : Str}

omit [HashScheme H] [DecidableEq H] in
theorem mem_roundCopy_staged :
    p ∈ (roundCopy c disk applied).staged ↔ p ∈ applied.staged ∨ p ∈ c.staged :=
  mem_stageAddMany

theorem lostAfter_missing (hlost : LostExact c ours lost)
    (h : applyThreeWay codec c.snapshot c.disk ours (threeWay base ours theirs) =
      .ok (disk, applied)) (hp : lostAfter codec c base ours theirs lost disk p) :
    applied.files.lookup p = none ∧ disk.lookup p = none := by
  rcases hp with hremoved | ⟨hp, hmissing⟩
  · exact (missing_of_removed h hremoved).symm
  · refine ⟨?_, hmissing⟩
    rcases missing_after h hmissing with hremoved | ⟨-, -, hfiles, -⟩
    · exact (missing_of_removed h hremoved).2
    · exact hfiles (hlost.missing p hp).1

/-- After a round, a staged path without a file is in the round's files unless it is
lost. -/
theorem lostAfter_recorded (hlost : LostExact c ours lost)
    (h : applyThreeWay codec c.snapshot c.disk ours (threeWay base ours theirs) =
      .ok (disk, applied)) (hp : p ∈ (roundCopy c disk applied).staged)
    (hmissing : disk.lookup p = none) (hfiles : applied.files.lookup p = none) :
    lostAfter codec c base ours theirs lost disk p := by
  rcases missing_after h hmissing with hremoved | ⟨hdisk, hstaged, -, hours⟩
  · exact Or.inl hremoved
  · have hp := (mem_roundCopy_staged.mp hp).resolve_left hstaged
    refine Or.inr ⟨hlost.recorded p hp hdisk ?_, hmissing⟩
    rcases hours hfiles with hours | hsnap
    · exact hours
    · exact hlost.untracked p hp hdisk hsnap

theorem GoneExact.saved (hlost : LostExact c ours lost)
    (h : applyThreeWay codec c.snapshot c.disk ours (threeWay base ours theirs) =
      .ok (disk, applied)) (hdisk : c'.disk = disk)
    (hstaged : c'.staged = (roundCopy c disk applied).staged)
    (hsnap : c'.snapshot = saveTree (localTreeHash H) applied.files) :
    GoneExact c' (lostAfter codec c base ours theirs lost disk) := by
  refine ⟨?_, ?_⟩
  · intro p hp
    rw [hsnap, saveTree_lookup, (lostAfter_missing hlost h hp).1]
    rfl
  · intro p hp hmissing huntracked
    rw [hsnap, saveTree_lookup, Option.map_eq_none_iff] at huntracked
    rw [hstaged] at hp
    rw [hdisk] at hmissing
    exact lostAfter_recorded hlost h hp hmissing huntracked

theorem LostExact.round (hlost : LostExact c ours lost)
    (h : applyThreeWay codec c.snapshot c.disk ours (threeWay base ours theirs) =
      .ok (disk, applied)) (hdisk : c'.disk = disk)
    (hstaged : c'.staged = (roundCopy c disk applied).staged)
    (hsnap : c'.snapshot = saveTree (localTreeHash H) applied.files ∨
      c'.snapshot = c.snapshot) :
    LostExact c' applied.files (lostAfter codec c base ours theirs lost disk) := by
  refine ⟨?_, ?_, ?_⟩
  · intro p hp
    rw [hdisk]
    exact lostAfter_missing hlost h hp
  · intro p hp hmissing hfiles
    rw [hstaged] at hp
    rw [hdisk] at hmissing
    exact lostAfter_recorded hlost h hp hmissing hfiles
  · intro p hp hmissing huntracked
    rw [hstaged] at hp
    rw [hdisk] at hmissing
    rcases hsnap with hsnap | hsnap
    · rwa [hsnap, saveTree_lookup, Option.map_eq_none_iff] at huntracked
    · rw [hsnap] at huntracked
      rcases missing_after h hmissing with hremoved | ⟨hmissing, hnot, hfiles, -⟩
      · exact (missing_of_removed h hremoved).2
      · have hp := (mem_roundCopy_staged.mp hp).resolve_left hnot
        exact hfiles (hlost.untracked p hp hmissing huntracked)

theorem GoneExact.unchanged (hgone : GoneExact c gone)
    (h : applyThreeWay codec c.snapshot c.disk ours (threeWay base ours theirs) =
      .ok (disk, applied)) (hdisk : c'.disk = disk)
    (hstaged : c'.staged = c.staged) (hsnap : c'.snapshot = c.snapshot) :
    GoneExact c' gone := by
  refine ⟨?_, ?_⟩
  · intro p hp
    rw [hsnap]
    exact hgone.untracked p hp
  · intro p hp hmissing huntracked
    rw [hstaged] at hp
    rw [hsnap] at huntracked
    rw [hdisk] at hmissing
    rcases missing_after h hmissing with ⟨-, entry, hentry, -⟩ | ⟨hmissing, -⟩
    · rw [huntracked] at hentry
      cases hentry
    · exact hgone.recorded p hp hmissing huntracked

end Round

/-! ## The steps between the rounds -/

section Steps

variable {H : Type} {c c' : Repo H} {gone : Str → Prop}

/-- A staged path that is neither on disk nor tracked after an action was so before,
unless the action took its file away. -/
theorem Repo.act_untracked {a : Action} (h : c.act a = .ok c') :
    c'.snapshot = c.snapshot ∧
      ∀ p ∈ c'.staged, c'.disk.lookup p = none → c.snapshot.files.lookup p = none →
        (p ∈ c.staged ∧ c.disk.lookup p = none) ∨ a.Drops p := by
  cases a with
  | resolve t res trusted =>
      have heffect := Repo.resolve_ok h
      refine ⟨heffect.snapshot, ?_⟩
      intro p hp hmissing huntracked
      by_cases hpt : p = t
      · subst hpt
        obtain ⟨hsame, hstaged⟩ := heffect.settled hp hmissing huntracked
        exact Or.inl ⟨hstaged, hsame.symm.trans hmissing⟩
      · rcases heffect.gained p hp with hstaged | hfile | htracked
        · exact Or.inl ⟨hstaged, (heffect.disk p hpt).symm.trans hmissing⟩
        · exact absurd hmissing hfile
        · exact absurd huntracked htracked
  | add targets rules force trusted =>
      obtain ⟨-, kept, rfl, hkept⟩ := Repo.add_ok h
      refine ⟨rfl, ?_⟩
      intro p hp hmissing huntracked
      rcases mem_stageAddMany.mp hp with hp | hp
      · rcases (hkept p hp).2 with hfile | htracked
        · exact absurd hmissing hfile
        · exact absurd huntracked htracked
      · exact Or.inl ⟨hp, hmissing⟩
  | remove targets =>
      obtain ⟨-, removed, rfl, -⟩ := Repo.remove_ok h
      refine ⟨rfl, ?_⟩
      intro p hp hmissing _
      exact Or.inl ⟨(List.mem_filter.mp hp).1, hmissing⟩
  | edit q file =>
      cases file with
      | none =>
          obtain rfl := Except.ok.inj h
          refine ⟨rfl, ?_⟩
          intro p hp hmissing _
          by_cases hpq : p = q
          · exact Or.inr hpq
          · rw [GoMap.lookup_erase_eq, if_neg hpq] at hmissing
            exact Or.inl ⟨hp, hmissing⟩
      | some w =>
          obtain rfl := Except.ok.inj h
          refine ⟨rfl, ?_⟩
          intro p hp hmissing _
          rw [GoMap.lookup_insert_eq] at hmissing
          split at hmissing
          · cases hmissing
          · exact Or.inl ⟨hp, hmissing⟩

theorem GoneExact.act {a : Action} (hgone : GoneExact c gone) (h : c.act a = .ok c') :
    GoneExact c' fun p => gone p ∨ (a.Drops p ∧ c.snapshot.files.lookup p = none) := by
  obtain ⟨hsnap, hstep⟩ := Repo.act_untracked h
  refine ⟨?_, ?_⟩
  · rintro p (hp | ⟨-, huntracked⟩)
    · rw [hsnap]
      exact hgone.untracked p hp
    · rwa [hsnap]
  · intro p hp hmissing huntracked
    rw [hsnap] at huntracked
    rcases hstep p hp hmissing huntracked with ⟨hstaged, hdisk⟩ | hdrops
    · exact Or.inl (hgone.recorded p hstaged hdisk huntracked)
    · exact Or.inr ⟨hdrops, huntracked⟩

variable [HashScheme H] {codec : Codec H}

variable [DecidableEq H]

end Steps

/-! ## The commands -/

section Commands

variable {H : Type} [HashScheme H] [DecidableEq H] {codec : Codec H}
  {server : RevertServer H} {c c' : Repo H} {outcome : RevertOutcome}

theorem Uncommitted.processRevert {targets : List CommitRef} {st : RevertState}
    {ours : GoMap (Entry H)} {committed changed : Bool} {lost gone : Str → Prop}
    (h : Uncommitted codec c (.running ours lost) gone)
    (hrun : Client.processRevert codec server targets c st ours committed changed =
      .ok (c', outcome)) :
    ∃ gone', Uncommitted codec c' .waiting gone' := by
  induction targets generalizing c st ours committed changed lost gone with
  | nil =>
      obtain ⟨rfl, -⟩ := Prod.mk.inj (Except.ok.inj hrun)
      exact ⟨gone, h.finished⟩
  | cons target rest ih =>
      rw [Client.processRevert] at hrun
      obtain ⟨r, hround, hrun⟩ := bind_eq_ok.mp hrun
      obtain ⟨trees, disk, applied, htrees, -, hends⟩ := revertRound_ok hround
      rcases hends with ⟨_, rfl⟩ | ⟨-, _, _, rfl⟩ | ⟨_, _, rfl⟩ | ⟨next, _, hstaged, rfl⟩
      · obtain ⟨rfl, -⟩ := Prod.mk.inj (pure_eq_ok.mp hrun)
        exact ⟨_, h.stopped htrees hround⟩
      · exact ih (h.unchanged htrees hround) hrun
      · exact ih (h.saved htrees hround) hrun
      · exact ih (Uncommitted.start hstaged) hrun

theorem processRevert_of_unstaged {targets : List CommitRef} {st : RevertState}
    {ours : GoMap (Entry H)} {committed changed : Bool}
    (hrun : Client.processRevert codec server targets c st ours committed changed =
      .ok (c', outcome)) (hstaged : c.staged = []) :
    ∃ gone, Uncommitted codec c' .waiting gone :=
  (Uncommitted.start hstaged).processRevert hrun

theorem waiting_of_unstaged (codec : Codec H) (hstaged : c.staged = []) :
    ∃ gone, Uncommitted codec { c with revert := none } .waiting gone := by
  have hstart : Uncommitted codec c (.running ∅ fun _ => False) fun _ => False := .start hstaged
  exact ⟨_, hstart.finished⟩

theorem runRevert_uncommitted {session : Except DomainError Unit} {refs : List CommitRef}
    {headCommit : TextField ID} {opts : RevertOptions}
    (h : runRevert codec session server c refs headCommit opts = .ok (c', outcome)) :
    ∃ gone, Uncommitted codec c' .waiting gone := by
  rw [runRevert] at h
  simp only [bind_eq_ok, refuseIf_eq_ok] at h
  obtain ⟨_, -, _, -, _, -, _, hstaged, _, -, _, -, _, -, hrun⟩ := h
  have hempty : c.staged = [] := by simpa using hstaged
  exact processRevert_of_unstaged hrun hempty

theorem Uncommitted.resumeRevert {session : Except DomainError Unit} {gone : Str → Prop}
    (h : Uncommitted codec c .waiting gone)
    (hrun : Client.resumeRevert codec session server c = .ok (c', outcome)) :
    ∃ gone', Uncommitted codec c' .waiting gone' := by
  rw [Client.resumeRevert] at hrun
  obtain ⟨st, -, hrun⟩ := bind_eq_ok.mp hrun
  split at hrun
  · cases hrun
  next current rest _ =>
    obtain ⟨_, -, hrun⟩ := bind_eq_ok.mp hrun
    split at hrun
    · split at hrun
      · obtain ⟨rfl, -⟩ := Prod.mk.inj (pure_eq_ok.mp hrun)
        have hresumed : Uncommitted codec { c with revert := some st } _ gone := h.resumed
        exact ⟨gone, hresumed.finished⟩
      · exact h.resumed.processRevert hrun
    split at hrun
    next hstaged =>
      obtain ⟨head, -, hrun⟩ := bind_eq_ok.mp hrun
      split at hrun
      · obtain ⟨rfl, -⟩ := Prod.mk.inj (pure_eq_ok.mp hrun)
        exact waiting_of_unstaged codec hstaged
      · exact processRevert_of_unstaged hrun hstaged
    · obtain ⟨⟨pushed, result⟩, hpush, hrun⟩ := bind_eq_ok.mp hrun
      have hstaged : pushed.staged = [] := by
        rw [pushStaged] at hpush
        simp only [bind_eq_ok, pure_eq_ok] at hpush
        obtain ⟨_, -, _, -, _, -, hpush⟩ := hpush
        obtain ⟨rfl, -⟩ := Prod.mk.inj hpush
        rfl
      obtain ⟨head, -, hrun⟩ := bind_eq_ok.mp hrun
      dsimp only at hrun
      split at hrun
      · obtain ⟨rfl, -⟩ := Prod.mk.inj (pure_eq_ok.mp hrun)
        exact waiting_of_unstaged codec hstaged
      · obtain ⟨⟨last, out⟩, hprocess, hrun⟩ := bind_eq_ok.mp hrun
        obtain ⟨rfl, -⟩ := Prod.mk.inj (pure_eq_ok.mp hrun)
        exact processRevert_of_unstaged hprocess hstaged

end Commands

/-! ## The push that follows -/

section Push

variable {H : Type} [HashScheme H] [DecidableEq H]

end Push

/-! ## A deletion that cannot be pushed -/

end Nipa.Client
