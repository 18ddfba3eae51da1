import Nipa.Push.Usecase

/-!
# Accepted pushes

What the checks of a push guarantee of its request, the stages of a push that
went through, and the addresses its paths stand for.
-/

namespace Nipa

open Support

/-! ## Accepted requests -/

theorem utf8_append (s t : Str) : utf8 (s ++ t) = utf8 s ++ utf8 t := by
  rw [utf8, List.flatMap_append]
  rfl

theorem utf8_length_le_pathOf {segs : List Str} {n : Str} (hn : n ∈ segs) :
    (utf8 n).length ≤ (utf8 (pathOf segs)).length := by
  induction segs with
  | nil => simp at hn
  | cons m rest ih =>
      by_cases hrest : rest = []
      · subst hrest
        rw [List.mem_singleton.mp hn, pathOf_singleton]
      · rw [pathOf_cons hrest, utf8_append, List.length_append]
        rcases List.mem_cons.mp hn with rfl | hn
        · omega
        · have hcons : utf8 ('/' :: pathOf rest) = utf8 ['/'] ++ utf8 (pathOf rest) :=
            utf8_append ['/'] _
          rw [hcons, List.length_append]
          have := ih hn
          omega

theorem pathOK_of_validate {p : Str} (hv : validateRepoPath p = .ok ())
    (hfit : (utf8 p).length < 2 ^ 32) : PathOK p := by
  obtain ⟨segs, hsegs, hp⟩ := spelled_of_validateRepoPath hv
  refine ⟨segs, hsegs.1, ?_, hp⟩
  intro n hn
  refine ⟨hsegs.2 n hn, ?_⟩
  have hle := utf8_length_le_pathOf hn
  rcases hp with rfl | rfl
  · omega
  · have hcons : utf8 ('/' :: pathOf segs) = utf8 ['/'] ++ utf8 (pathOf segs) :=
      utf8_append ['/'] _
    rw [hcons, List.length_append] at hfit
    omega

section Accepted

variable {H : Type}

/-- What the server keeps of a pushed file: the flag and the encoding it
normalises, everything else as sent. -/
def servedFile (f : PushFile H) : PushFile H :=
  normalizeFile (if isLockablePath f.path then { f with isBinary := true } else f)

@[simp] theorem servedFile_path (f : PushFile H) : (servedFile f).path = f.path := by
  rw [servedFile, normalizeFile]
  split <;> rfl

@[simp] theorem servedFile_fileHash (f : PushFile H) :
    (servedFile f).fileHash = f.fileHash := by
  rw [servedFile, normalizeFile]
  split <;> rfl

@[simp] theorem servedFile_chunkHashes (f : PushFile H) :
    (servedFile f).chunkHashes = f.chunkHashes := by
  rw [servedFile, normalizeFile]
  split <;> rfl

theorem find?_served (l : List (PushFile H)) (p : Str) :
    (l.map servedFile).find? (fun f => f.path = p) =
      (l.find? fun f => f.path = p).map servedFile := by
  rw [List.find?_map]
  congr 1
  apply find?_congr_mem
  intro f _
  simp

variable [HashScheme H]

theorem toApplyRequest_eq (commitID : ID) (req : PushRequest H) (branch : Branch)
    (headCommit parent2Commit : Option (Commit H)) (userID : ID) (root : PushTreeNode H) :
    ∃ parentHashes,
      toApplyRequest commitID req branch headCommit parent2Commit userID root =
        buildApplyRequest commitID req.projectID branch.id
          (if headCommit.isSome then branch.commitID else none)
          (if headCommit.isSome then parent2Commit.map Commit.id else none) parentHashes
          userID req.message root := by
  rcases headCommit with _ | head
  · exact ⟨[], rfl⟩
  · rcases parent2Commit with _ | p2
    · exact ⟨[head.hash], rfl⟩
    · exact ⟨[head.hash, p2.hash], rfl⟩

variable [DecidableEq H]

theorem ensurePathWrites_ok {perm : PermissionUsecase} {paths : List Str} :
    ensurePathWrites perm paths = .ok () ↔
      ∀ p ∈ paths, perm.hasPathAccess p .write = true := by
  induction paths with
  | nil => simp [ensurePathWrites]
  | cons p rest ih =>
      rw [ensurePathWrites]
      simp only [bind_eq_ok, refuseIf_eq_ok, Bool.not_eq_false, ih, List.mem_cons,
        forall_eq_or_imp]
      constructor
      · rintro ⟨_, hp, hrest⟩
        exact ⟨hp, hrest⟩
      · rintro ⟨hp, hrest⟩
        exact ⟨(), hp, hrest⟩

variable {caller : Caller} {req : PushRequest H}

theorem acceptPush_ok {files : List (PushFile H)} (h : acceptPush caller req = .ok files) :
    files = req.files.map servedFile ∧ (files.map PushFile.path).Nodup ∧
      (∀ f ∈ files, validateRepoPath f.path = .ok () ∧
        fileHash f.chunkHashes = f.fileHash) ∧
      (∀ r ∈ req.removed, validateRepoPath r = .ok () ∧ ∀ f ∈ files, f.path ≠ r) := by
  rw [acceptPush] at h
  simp only [bind_eq_ok, refuseIf_eq_ok, pure_eq_ok] at h
  obtain ⟨_, -, _, -, out, hfiles, _, hremoved, _, hhashes, _, -, rfl⟩ := h
  obtain ⟨hout, hacc, hnodup⟩ := validatePushFiles_ok hfiles
  obtain ⟨hrem, -⟩ := validateRemovedFiles_ok hremoved
  have hpaths : out.map PushFile.path =
      (markLockableBinaries req.files).map PushFile.path := by
    rw [hout, List.map_map]
    rfl
  refine ⟨?_, by rw [hpaths]; exact hnodup, ?_, hrem⟩
  · rw [hout, markLockableBinaries, List.map_map]
    rfl
  · intro f hf
    refine ⟨?_, checkFileHashes_ok hhashes f hf⟩
    rw [hout] at hf
    obtain ⟨g, hg, rfl⟩ := List.mem_map.mp hf
    exact (hacc g hg).path_ok

theorem acceptPush_requestOK {files : List (PushFile H)} (h : acceptPush caller req = .ok files) :
    RequestOK files req.removed := by
  obtain ⟨rfl, -, hfiles, hrem⟩ := acceptPush_ok h
  constructor
  · intro p hp
    rcases hp with hp | hp
    · obtain ⟨f, hf, rfl⟩ := List.mem_map.mp hp
      refine pathOK_of_validate (hfiles f hf).1 (req.paths_fit _ ?_)
      obtain ⟨g, hg, rfl⟩ := List.mem_map.mp hf
      rw [servedFile_path]
      exact List.mem_append_left _ (List.mem_map_of_mem hg)
    · exact pathOK_of_validate (hrem p hp).1 (req.paths_fit p (List.mem_append_right _ hp))
  · intro f hf
    exact (hfiles f hf).2.symm

/-- A push that passed the lock gate. -/
structure GatePassed (db : DB H) (caller : Caller) (req : PushRequest H)
    (files : List (PushFile H)) (branch : Branch) (userID : ID)
    (headCommit : Option (Commit H)) (lockPlan : PushLockPlan) : Prop where
  claim_eq : caller.claim = some userID
  head_eq : headCommitOf db branch = .ok headCommit
  plan_eq : ∃ flags,
    headBinaryPaths db headCommit (touchedPushPaths files req.removed) = .ok flags ∧
      lockPlan = planPushLocks files req.removed flags
  locked : ensureLocks db req.projectID branch lockPlan.required lockPlan.checked userID =
    .ok ()

omit [HashScheme H] in
theorem lockPush_eq_ok {db : DB H} {files : List (PushFile H)} {branch : Branch} {userID : ID}
    {headCommit : Option (Commit H)} {lockPlan : PushLockPlan} :
    lockPush db caller req files branch = .ok (userID, headCommit, lockPlan) ↔
      GatePassed db caller req files branch userID headCommit lockPlan := by
  rw [lockPush]
  simp only [bind_eq_ok, pure_eq_ok, orError_eq_ok, Prod.mk.injEq]
  constructor
  · rintro ⟨user, huser, head, hhead, flags, hflags, _, hlocked, rfl, rfl, rfl⟩
    exact ⟨huser, hhead, ⟨flags, hflags, rfl⟩, hlocked⟩
  · rintro ⟨huser, hhead, ⟨flags, hflags, rfl⟩, hlocked⟩
    exact ⟨userID, huser, headCommit, hhead, flags, hflags, (), hlocked, rfl, rfl, rfl⟩

/-- The plan of a push that went through: what was read and checked between the
branch row and the write. -/
structure Planned (db : DB H) (caller : Caller) (req : PushRequest H)
    (files : List (PushFile H)) (branch : Branch) (userID : ID)
    (headCommit parent2 : Option (Commit H)) (lockPlan : PushLockPlan)
    (root : PushTreeNode H) : Prop
    extends GatePassed db caller req files branch userID headCommit lockPlan where
  parent2_eq : parent2CommitOf db req = .ok parent2
  base_ok : checkBase db req branch headCommit = .ok ()
  built : buildNewTree db headCommit files req.removed = .ok root

theorem planApply_eq_ok {db : DB H} {commitID : ID} {files : List (PushFile H)} {branch : Branch}
    {userID : ID} {headCommit : Option (Commit H)} {apply : ApplyPushRequest H} :
    planApply db commitID req files branch userID headCommit = .ok apply ↔
      ∃ parent2 root, parent2CommitOf db req = .ok parent2 ∧
        checkBase db req branch headCommit = .ok () ∧
        buildNewTree db headCommit files req.removed = .ok root ∧
        apply = toApplyRequest commitID req branch headCommit parent2 userID root := by
  rw [planApply]
  simp only [bind_eq_ok, pure_eq_ok]
  constructor
  · rintro ⟨parent2, hparent2, _, hbase, root, hbuild, rfl⟩
    exact ⟨parent2, root, hparent2, hbase, hbuild, rfl⟩
  · rintro ⟨parent2, root, hparent2, hbase, hbuild, rfl⟩
    exact ⟨parent2, hparent2, (), hbase, root, hbuild, rfl⟩

/-- The stages of a push that went through; `mid` is the store right after the
transaction. -/
structure Pushed (db : DB H) (caller : Caller) (commitID : ID) (req : PushRequest H)
    (db' : DB H) (files : List (PushFile H)) (branch : Branch) (userID : ID)
    (headCommit parent2 : Option (Commit H)) (lockPlan : PushLockPlan)
    (root : PushTreeNode H) (mid : DB H) : Prop where
  accepted : acceptPush caller req = .ok files
  opened : openBranch db req = .ok branch
  planned : Planned db caller req files branch userID headCommit parent2 lockPlan root
  applied : applyPush db
    (toApplyRequest commitID req branch headCommit parent2 userID root) = .ok mid
  result_eq : db' = releaseLanded mid req.projectID branch lockPlan.landed userID

theorem push_ok {db db' : DB H} {commitID : ID} (h : push db caller commitID req = .ok db') :
    ∃ files branch userID headCommit parent2 lockPlan root mid,
      Pushed db caller commitID req db' files branch userID headCommit parent2 lockPlan root
        mid := by
  rw [push] at h
  simp only [bind_eq_ok, pure_eq_ok] at h
  obtain ⟨files, haccept, branch, hopen, ⟨userID, headCommit, plan⟩, hlock, apply, hplan, mid,
    happly, rfl⟩ := h
  obtain ⟨parent2, root, hparent2, hbase, hbuild, rfl⟩ := planApply_eq_ok.mp hplan
  exact ⟨files, branch, userID, headCommit, parent2, plan, root, mid, haccept, hopen,
    ⟨lockPush_eq_ok.mp hlock, hparent2, hbase, hbuild⟩, happly, rfl⟩

end Accepted

/-! ## The branch and its head -/

section Head

variable {H : Type}

theorem openBranch_ok {db : DB H} {req : PushRequest H} {branch : Branch}
    (h : openBranch db req = .ok branch) :
    db.getBranchByName req.projectID req.branchName = some branch ∧
      branch.isProtected = false := by
  rw [openBranch] at h
  simp only [bind_eq_ok, orError_eq_ok, refuseIf_eq_ok, pure_eq_ok] at h
  obtain ⟨b, hb, _, hprot, rfl⟩ := h
  exact ⟨hb, by simpa using hprot⟩

theorem headCommitOf_ok {db : DB H} {branch : Branch} {headCommit : Option (Commit H)}
    (h : headCommitOf db branch = .ok headCommit) :
    branch.commitID = headCommit.map Commit.id ∧
      ∀ c ∈ headCommit, db.getCommit c.id = some c := by
  rw [headCommitOf] at h
  split at h
  next hnone =>
    obtain rfl := Except.ok.inj h
    exact ⟨hnone, by simp⟩
  next id hid =>
    simp only [bind_eq_ok, pure_eq_ok, getCommit, orError_eq_ok] at h
    obtain ⟨c, hc, rfl⟩ := h
    have hcid : c.id = id := by simpa using List.find?_some hc
    refine ⟨by rw [hid, Option.map_some, hcid], ?_⟩
    intro c' hc'
    obtain rfl := Option.some.inj hc'
    rwa [hcid]

end Head

/-! ## Paths as addresses -/

section Addresses

variable {H : Type} {files : List (PushFile H)} {removed : List Str}

theorem PathOK.exists_segs {p : Str} (hp : PathOK p) (hslash : p.head? ≠ some '/') :
    ∃ segs, ValidSegs segs ∧ p = pathOf segs := by
  obtain ⟨segs, hne, hall, rfl | rfl⟩ := hp
  · exact ⟨segs, ⟨hne, fun n hn => (hall n hn).1⟩, rfl⟩
  · exact absurd rfl hslash

theorem landsAt_iff {p : Str} (hp : PathOK p) (hslash : p.head? ≠ some '/')
    {segs : List Str} (hsegs : ValidSegs segs) : LandsAt p segs ↔ p = pathOf segs := by
  obtain ⟨segs', hsegs', rfl⟩ := hp.exists_segs hslash
  rw [landsAt_pathOf hsegs' hsegs]
  constructor
  · rintro rfl
    rfl
  · exact pathOf_injective hsegs' hsegs

theorem updated_eq [HashScheme H] (hreq : RequestOK files removed)
    (hslash : ∀ p, p ∈ files.map PushFile.path ∨ p ∈ removed → p.head? ≠ some '/')
    (hnodup : (files.map PushFile.path).Nodup) {segs : List Str} (hsegs : ValidSegs segs)
    (old : Option (NodeFile H)) :
    updated files removed segs old =
      ((files.find? fun f => f.path = pathOf segs).map TreeBuilder.nodeFileOfPush).or
        (if pathOf segs ∈ removed then none else old) := by
  have hlands : ∀ p, p ∈ files.map PushFile.path ∨ p ∈ removed →
      (LandsAt p segs ↔ p = pathOf segs) := fun p hp =>
    landsAt_iff (hreq.path_ok p hp) (hslash p hp) hsegs
  have hfind : files.reverse.find? (fun f => LandsAt f.path segs) =
      files.find? fun f => f.path = pathOf segs := by
    have hrev : (files.reverse.map PushFile.path).Nodup := by
      rw [List.map_reverse]
      exact List.nodup_reverse.mpr hnodup
    have hcongr : files.reverse.find? (fun f => LandsAt f.path segs) =
        files.reverse.find? fun f => f.path = pathOf segs := by
      apply find?_congr_mem
      intro f hf
      have := hlands f.path (Or.inl (List.mem_map_of_mem (List.mem_reverse.mp hf)))
      simp [this]
    rw [hcongr]
    ext f
    rw [find?_key_eq_some_iff hrev, find?_key_eq_some_iff hnodup, List.mem_reverse]
  have hrem : (∃ r ∈ removed, LandsAt r segs) ↔ pathOf segs ∈ removed := by
    constructor
    · rintro ⟨r, hr, hl⟩
      rwa [← (hlands r (Or.inr hr)).mp hl]
    · intro hr
      exact ⟨_, hr, (hlands _ (Or.inr hr)).mpr rfl⟩
  rw [updated, hfind]
  simp only [hrem]

end Addresses

end Nipa
