import Nipa.Push.Placement
import Nipa.LockTable

/-!
# What a push has to hold locks for

The lock plan of a push is worked out from the binary flags of the head at the
touched paths, which are collected by walking the touched directories.  The walk
finds exactly the files of the head at the touched addresses, but it spells them
without a leading slash: a path sent with one is looked up in vain.
-/

namespace Nipa

open Support TreeBuilder

/-! ## The flags of the head -/

section Flags

variable {H : Type} [DecidableEq H] {db : DB H} {paths : List Str}

/-- The file of a head at an address. -/
def headFile (db : DB H) (headCommit : Option (Commit H)) (segs : List Str) :
    Option (File H) :=
  (headRow db headCommit).bind fun row => db.storeTree.find row.hash segs

theorem mem_touchedDirs_of_landsAt {p : Str} (hp : p ∈ paths) {ds rest : List Str}
    (hrest : rest ≠ []) (h : LandsAt p (ds ++ rest)) : pathOf ds ∈ touchedDirs paths := by
  by_cases hds : ds = []
  · subst hds
    exact List.mem_cons_self
  · have hdirs : touchedDirs paths =
        (ofRequest ([] : List (PushFile ℕ)) paths).rebuildDirs := rfl
    rw [hdirs]
    exact mem_rebuildDirs_of_landsAt (Or.inr hp) hds hrest h

theorem lt_touchedDepth {d : Str} (h : d ∈ touchedDirs paths) :
    d.length < touchedDepth paths :=
  le_depthBound (b := ofRequest ([] : List (PushFile ℕ)) paths) h

variable [HashScheme H]

theorem getTreeChildByName_iff (hs : db.StoreShape) {row : TreeRow H}
    (hr : row ∈ db.treeNodes) {n : Str} {c : TreeRow H} :
    db.getTreeChildByName row.id n = some c ↔ c ∈ db.childrenByHash row.hash ∧ c.name = n := by
  rw [DB.getTreeChildByName, hs.treeNodeGet_eq hr, DB.childrenByHash]
  dsimp only
  rcases db.contentRow db.hasContent row.hash with _ | id
  · simp
  · dsimp only
    rw [find?_key_eq_some_iff (hs.ownChildren_names_nodup id), List.mem_insertionSort]

theorem mem_headBinaryFrom (hs : db.StoreShape) {depth : ℕ} {ds : List Str}
    (hds : ∀ m ∈ ds, ValidName m) {row : TreeRow H} (hr : row ∈ db.treeNodes)
    (hdepth : ∀ d ∈ touchedDirs paths, d.length < depth + (pathOf ds).length)
    {q : Str} {b : Bool} :
    (q, b) ∈ headBinaryFrom db paths depth (pathOf ds) row ↔
      ∃ segs f, q = pathOf (ds ++ segs) ∧ (∃ p ∈ paths, LandsAt p (ds ++ segs)) ∧
        db.storeTree.find row.hash segs = some f ∧ f.isBinary = b := by
  induction depth generalizing ds row with
  | zero =>
      simp only [headBinaryFrom, List.not_mem_nil, false_iff]
      rintro ⟨segs, f, -, ⟨p, hp, hlands⟩, hfind, -⟩
      have hne : segs ≠ [] := (storeTree_find_valid hs hfind).1
      have := hdepth _ (mem_touchedDirs_of_landsAt hp hne hlands)
      omega
  | succ depth ih =>
      have hsub : ∀ {n : Str}, ValidName n →
          ∀ d ∈ touchedDirs paths, d.length < depth + (pathOf (ds ++ [n])).length := by
        intro n hn d hd
        have hlt := length_lt_joinPath (d := pathOf ds) hn.1
        rw [joinPath_pathOf hds] at hlt
        have := hdepth d hd
        omega
      rw [headBinaryFrom, List.mem_append, List.mem_map, List.mem_flatMap]
      constructor
      · rintro (⟨f, hf, heq⟩ | ⟨n, hn, hmem⟩)
        · obtain ⟨hlist, hany⟩ := List.mem_filter.mp hf
          obtain ⟨rfl, rfl⟩ := Prod.mk.inj heq
          rw [DB.listFilesByTree, hs.treeNodeGet_eq hr] at hlist
          simp only [List.any_eq_true, Bool.and_eq_true, decide_eq_true_eq] at hany
          obtain ⟨p, hp, hlands⟩ := hany
          refine ⟨[f.name], f, joinPath_pathOf hds, ⟨p, hp, landsAt_concat.mpr hlands⟩, ?_, rfl⟩
          rw [Hierarchy.find_singleton, Hierarchy.fileOf_eq_some_iff hs.storeTree_distinct]
          exact List.mem_map.mpr ⟨f, hlist, rfl⟩
        · obtain ⟨hvalid, -⟩ := mem_immediateSubdirs.mp hn
          split at hmem
          · simp at hmem
          next child hchild =>
            obtain ⟨hc, rfl⟩ := (getTreeChildByName_iff hs hr).mp hchild
            rw [joinPath_pathOf hds, ih (validNames_concat hds hvalid)
              (hs.childrenByHash_mem hc).1 (hsub hvalid)] at hmem
            obtain ⟨segs, f, rfl, hlands, hfind, hb⟩ := hmem
            refine ⟨child.name :: segs, f, by simp, by simpa using hlands, ?_, hb⟩
            have hsome : db.storeTree.subOf row.hash child.name = some child.hash := by
              rw [Hierarchy.subOf_eq_some_iff hs.storeTree_distinct]
              exact List.mem_map.mpr ⟨child, hc, rfl⟩
            rw [Hierarchy.find_cons _ _ _ (storeTree_find_valid hs hfind).1, hsome,
              Option.bind_some]
            exact hfind
      · rintro ⟨segs, f, rfl, ⟨p, hp, hlands⟩, hfind, hb⟩
        rcases segs with _ | ⟨n, segs⟩
        · simp at hfind
        by_cases hsegs : segs = []
        · subst hsegs
          rw [Hierarchy.find_singleton,
            Hierarchy.fileOf_eq_some_iff hs.storeTree_distinct] at hfind
          obtain ⟨g, hg, heq⟩ := List.mem_map.mp hfind
          obtain ⟨rfl, rfl⟩ := Prod.mk.inj heq
          refine Or.inl ⟨g, List.mem_filter.mpr ⟨?_, ?_⟩, ?_⟩
          · rwa [DB.listFilesByTree, hs.treeNodeGet_eq hr]
          · simp only [List.any_eq_true, Bool.and_eq_true, decide_eq_true_eq]
            exact ⟨p, hp, landsAt_concat.mp hlands⟩
          · rw [joinPath_pathOf hds, hb]
        · rw [Hierarchy.find_cons _ _ _ hsegs] at hfind
          obtain ⟨h, hh, hfind⟩ := Option.bind_eq_some_iff.mp hfind
          rw [Hierarchy.subOf_eq_some_iff hs.storeTree_distinct] at hh
          obtain ⟨child, hc, heq⟩ := List.mem_map.mp hh
          obtain ⟨rfl, rfl⟩ := Prod.mk.inj heq
          have hvalid := (hs.childrenByHash_mem hc).2
          have hassoc : ds ++ child.name :: segs = (ds ++ [child.name]) ++ segs := by simp
          rw [hassoc] at hlands
          refine Or.inr ⟨child.name, mem_immediateSubdirs.mpr ⟨hvalid, ?_⟩, ?_⟩
          · rw [joinPath_pathOf hds]
            exact mem_touchedDirs_of_landsAt hp hsegs hlands
          · rw [(getTreeChildByName_iff hs hr).mpr ⟨hc, rfl⟩, joinPath_pathOf hds]
            exact (ih (validNames_concat hds hvalid) (hs.childrenByHash_mem hc).1
              (hsub hvalid)).mpr ⟨segs, f, by rw [hassoc], ⟨p, hp, hlands⟩, hfind, hb⟩

/-- The flag looked up for a path is that of the head's file at the address the path
spells without a slash. -/
theorem headBinaryPaths_lookup (hs : db.StoreShape) {headCommit : Option (Commit H)}
    {flags : GoMap Bool} (h : headBinaryPaths db headCommit paths = .ok flags) {q : Str}
    (hq : q ∈ paths) {b : Bool} :
    flags.lookup q = some b ↔
      ∃ segs f, q = pathOf segs ∧ headFile db headCommit segs = some f ∧ f.isBinary = b := by
  rcases headCommit with _ | c
  · obtain rfl := Except.ok.inj h
    simp [headFile, headRow]
  rw [headBinaryPaths, if_neg (List.ne_nil_of_mem hq)] at h
  simp only [bind_eq_ok, pure_eq_ok, getTreeNode, orError_eq_ok] at h
  obtain ⟨row, hrow, rfl⟩ := h
  have hr : row ∈ db.treeNodes := List.mem_of_find?_eq_some hrow
  have hwalk : ∀ x, x ∈ headBinaryFrom db paths (touchedDepth paths) [] row ↔
      ∃ segs f, x.1 = pathOf segs ∧ (∃ p ∈ paths, LandsAt p segs) ∧
        db.storeTree.find row.hash segs = some f ∧ f.isBinary = x.2 := by
    intro x
    have hvalid : ∀ m ∈ ([] : List Str), ValidName m := by simp
    exact mem_headBinaryFrom hs hvalid hr fun d hd => lt_touchedDepth hd
  have hfile : ∀ segs, headFile db (some c) segs = db.storeTree.find row.hash segs := by
    intro segs
    rw [headFile, headRow, Option.bind_some, hrow, Option.bind_some]
  have hagree : ∀ x ∈ headBinaryFrom db paths (touchedDepth paths) [] row,
      ∀ y ∈ headBinaryFrom db paths (touchedDepth paths) [] row,
        x.1 = y.1 → x.2 = y.2 := by
    intro x hx y hy heq
    obtain ⟨segs, f, hp, -, hfind, hb⟩ := (hwalk x).mp hx
    obtain ⟨segs', f', hp', -, hfind', hb'⟩ := (hwalk y).mp hy
    have hsame : segs = segs' := pathOf_injective (storeTree_find_valid hs hfind)
      (storeTree_find_valid hs hfind') (hp.symm.trans (heq.trans hp'))
    rw [← hsame, hfind] at hfind'
    rw [← hb, ← hb', Option.some.inj hfind']
  rw [GoMap.lookup_insertAll_of_agree hagree]
  constructor
  · rintro ⟨x, hx, rfl, rfl⟩
    obtain ⟨segs, f, hp, -, hfind, hb⟩ := (hwalk x).mp hx
    exact ⟨segs, f, hp, (hfile segs).trans hfind, hb⟩
  · rintro ⟨segs, f, rfl, hfind, hb⟩
    rw [hfile] at hfind
    have hsegs := storeTree_find_valid hs hfind
    exact ⟨(pathOf segs, b), (hwalk _).mpr ⟨segs, f, rfl,
      ⟨_, hq, (landsAt_pathOf hsegs hsegs).mpr rfl⟩, hfind, hb⟩, rfl, rfl⟩

end Flags

/-! ## The plan -/

namespace PushLockPlan

variable {plan : PushLockPlan} {p q : Str}

@[simp] theorem mem_addRequired_required :
    p ∈ (plan.addRequired q).required ↔ p = q ∨ p ∈ plan.required := by
  rw [addRequired]
  split
  next hq =>
    constructor
    · exact Or.inr
    · rintro (rfl | hp)
      · exact hq
      · exact hp
  · simp [or_comm]

@[simp] theorem addRequired_checked : (plan.addRequired q).checked = plan.checked := by
  rw [addRequired]
  split <;> rfl

@[simp] theorem mem_addChecked_checked :
    p ∈ (plan.addChecked q).checked ↔ p = q ∨ p ∈ plan.checked := by
  rw [addChecked]
  split
  next hq =>
    constructor
    · exact Or.inr
    · rintro (rfl | hp)
      · exact hq
      · exact hp
  · simp [or_comm]

@[simp] theorem addChecked_required : (plan.addChecked q).required = plan.required := by
  rw [addChecked]
  split <;> rfl

end PushLockPlan

section Plan

variable {H : Type} {files : List (PushFile H)} {removed : List Str} {flags : GoMap Bool}
  {p : Str}

/-- A file that is tracked needs a lock when it or the tracked file is binary. -/
def NeedsLock (flags : GoMap Bool) (f : PushFile H) : Prop :=
  ∃ old, flags.lookup f.path = some old ∧ (old = true ∨ f.isBinary = true)

/-- The plan after one more file. -/
def planFile (flags : GoMap Bool) (plan : PushLockPlan) (f : PushFile H) : PushLockPlan :=
  match flags.lookup f.path with
  | none => if f.isBinary then plan.addChecked f.path else plan
  | some oldBinary => if oldBinary || f.isBinary then plan.addRequired f.path else plan

/-- The plan after one more removal. -/
def planRemoval (flags : GoMap Bool) (plan : PushLockPlan) (p : Str) : PushLockPlan :=
  if flags.lookup p = some true then plan.addRequired p else plan

theorem planPushLocks_eq (files : List (PushFile H)) (removed : List Str)
    (flags : GoMap Bool) :
    planPushLocks files removed flags =
      removed.foldl (planRemoval flags) (files.foldl (planFile flags) ⟨[], []⟩) :=
  rfl

theorem mem_planFile_required {plan : PushLockPlan} {f : PushFile H} :
    p ∈ (planFile flags plan f).required ↔
      (f.path = p ∧ NeedsLock flags f) ∨ p ∈ plan.required := by
  rw [planFile, NeedsLock]
  rcases flags.lookup f.path with _ | old
  · dsimp only
    split <;> simp
  · dsimp only
    split
    next hb =>
      rw [Bool.or_eq_true] at hb
      rw [PushLockPlan.mem_addRequired_required]
      simp [hb, eq_comm (a := p)]
    next hb =>
      rw [Bool.or_eq_true] at hb
      simp [hb]

theorem mem_planFile_checked {plan : PushLockPlan} {f : PushFile H} :
    p ∈ (planFile flags plan f).checked ↔
      (f.path = p ∧ flags.lookup f.path = none ∧ f.isBinary = true) ∨ p ∈ plan.checked := by
  rw [planFile]
  rcases flags.lookup f.path with _ | old
  · dsimp only
    split
    next hb => simp [hb, eq_comm]
    next hb => simp [hb]
  · dsimp only
    split <;> simp

theorem mem_foldl_planFile (plan : PushLockPlan) :
    (p ∈ (files.foldl (planFile flags) plan).required ↔
      (∃ f ∈ files, f.path = p ∧ NeedsLock flags f) ∨ p ∈ plan.required) ∧
    (p ∈ (files.foldl (planFile flags) plan).checked ↔
      (∃ f ∈ files, f.path = p ∧ flags.lookup f.path = none ∧ f.isBinary = true) ∨
        p ∈ plan.checked) := by
  induction files generalizing plan with
  | nil => simp
  | cons f rest ih =>
      rw [List.foldl_cons, (ih _).1, (ih _).2, mem_planFile_required, mem_planFile_checked]
      simp only [List.exists_mem_cons_iff]
      constructor
      · rw [or_left_comm, or_assoc]
      · rw [or_left_comm, or_assoc]

theorem mem_foldl_planRemoval (plan : PushLockPlan) :
    (p ∈ (removed.foldl (planRemoval flags) plan).required ↔
      (p ∈ removed ∧ flags.lookup p = some true) ∨ p ∈ plan.required) ∧
    (removed.foldl (planRemoval flags) plan).checked = plan.checked := by
  induction removed generalizing plan with
  | nil => simp
  | cons r rest ih =>
      rw [List.foldl_cons, (ih _).1, (ih _).2, List.mem_cons, planRemoval]
      split
      next hr =>
        rw [PushLockPlan.mem_addRequired_required, PushLockPlan.addRequired_checked]
        refine ⟨?_, rfl⟩
        constructor
        · rintro (h | rfl | h)
          · exact Or.inl ⟨Or.inr h.1, h.2⟩
          · exact Or.inl ⟨Or.inl rfl, hr⟩
          · exact Or.inr h
        · rintro (⟨rfl | h, hp⟩ | h)
          · exact Or.inr (Or.inl rfl)
          · exact Or.inl ⟨h, hp⟩
          · exact Or.inr (Or.inr h)
      next hr =>
        refine ⟨?_, rfl⟩
        constructor
        · rintro (h | h)
          · exact Or.inl ⟨Or.inr h.1, h.2⟩
          · exact Or.inr h
        · rintro (⟨rfl | h, hp⟩ | h)
          · exact absurd hp hr
          · exact Or.inl ⟨h, hp⟩
          · exact Or.inr h

theorem mem_planPushLocks_required :
    p ∈ (planPushLocks files removed flags).required ↔
      (∃ f ∈ files, f.path = p ∧ NeedsLock flags f) ∨
        (p ∈ removed ∧ flags.lookup p = some true) := by
  rw [planPushLocks_eq, (mem_foldl_planRemoval _).1, (mem_foldl_planFile _).1]
  simp [or_comm]

theorem mem_planPushLocks_checked :
    p ∈ (planPushLocks files removed flags).checked ↔
      ∃ f ∈ files, f.path = p ∧ flags.lookup f.path = none ∧ f.isBinary = true := by
  rw [planPushLocks_eq, (mem_foldl_planRemoval (p := p) _).2, (mem_foldl_planFile _).2]
  simp

end Plan

/-! ## The gate -/

section Gate

variable {H : Type} {db : DB H} {projectID holder : ID} {branch : Branch}

/-- A lock of the branch's scope that covers a path. -/
def CoveredBy (db : DB H) (projectID : ID) (branch : Branch) (p : Str) (l : FileLock) : Prop :=
  l ∈ db.fileLocks ∧ l.projectID = projectID ∧ l.branchID = branchScopeID branch ∧
    prefixCovers l.path p = true

theorem findCoveringLock_covers {p : Str} {l : FileLock}
    (h : findCoveringLock (db.listProject projectID) (branchScopeID branch) p = some l) :
    CoveredBy db projectID branch p l := by
  have hcond := List.find?_some h
  rw [Bool.and_eq_true, decide_eq_true_eq] at hcond
  obtain ⟨hmem, hproject⟩ := mem_listProject.mp (List.mem_of_find?_eq_some h)
  exact ⟨hmem, hproject, hcond.1, hcond.2⟩

theorem exists_findCoveringLock {p : Str} {l : FileLock}
    (h : CoveredBy db projectID branch p l) :
    ∃ m, findCoveringLock (db.listProject projectID) (branchScopeID branch) p = some m := by
  obtain ⟨hmem, hproject, hscope, hcovers⟩ := h
  rw [← Option.isSome_iff_exists, findCoveringLock, List.find?_isSome]
  exact ⟨l, mem_listProject.mpr ⟨hmem, hproject⟩, by simp [hscope, hcovers]⟩

/-- Past the gate the holder has a lock on every required path, and the first lock on
every checked path that has one. -/
theorem ensureLocks_ok {required checked : List Str}
    (h : ensureLocks db projectID branch required checked holder = .ok ()) :
    (∀ p ∈ required, ∃ l, CoveredBy db projectID branch p l ∧ l.heldBy = holder) ∧
      ∀ p ∈ checked, ∀ l, CoveredBy db projectID branch p l →
        ∃ m, CoveredBy db projectID branch p m ∧ m.heldBy = holder := by
  rw [ensureLocks] at h
  split at h
  next hnone =>
    rw [hnone.1, hnone.2]
    simp
  · obtain ⟨_, hrequired, hchecked⟩ := bind_eq_ok.mp h
    refine ⟨?_, ?_⟩
    · intro p hp
      obtain ⟨l, hl, hscope, hcovers, hholder⟩ := ensureRequired_ok hrequired p hp
      obtain ⟨hmem, hproject⟩ := mem_listProject.mp hl
      exact ⟨l, ⟨hmem, hproject, hscope, hcovers⟩, hholder⟩
    · intro p hp l hl
      obtain ⟨m, hm⟩ := exists_findCoveringLock hl
      exact ⟨m, findCoveringLock_covers hm, ensureChecked_ok hchecked p hp m hm⟩

theorem LockInv.holder_eq (h : LockInv db.fileLocks) {segs : List Str}
    (hsegs : ValidSegs segs) {l m : FileLock}
    (hl : CoveredBy db projectID branch (pathOf segs) l)
    (hm : CoveredBy db projectID branch (pathOf segs) m) : l.heldBy = m.heldBy := by
  obtain ⟨hlmem, hlproject, hlscope, hlcovers⟩ := hl
  obtain ⟨hmmem, hmproject, hmscope, hmcovers⟩ := hm
  by_contra hne
  apply h.exclusive l hlmem m hmmem ⟨hlproject.trans hmproject.symm,
    hlscope.trans hmscope.symm⟩ hne
  obtain ⟨ps, hps, hlpath⟩ := h.clean l hlmem
  obtain ⟨qs, hqs, hmpath⟩ := h.clean m hmmem
  rw [hlpath, prefixCovers_pathOf hps hsegs] at hlcovers
  rw [hmpath, prefixCovers_pathOf hqs hsegs] at hmcovers
  rw [← lockPathsOverlap_iff (h.clean l hlmem) (h.clean m hmmem), lockPathsOverlap,
    Bool.or_eq_true, hlpath, hmpath, prefixCovers_pathOf hps hqs, prefixCovers_pathOf hqs hps]
  exact List.prefix_or_prefix_of_prefix hlcovers hmcovers

end Gate

/-! ## What a push that passed the gate holds -/

section Passed

variable {H : Type}

theorem mem_touchedPushPaths {files : List (PushFile H)} {removed : List Str} {p : Str} :
    p ∈ touchedPushPaths files removed ↔ p ∈ files.map PushFile.path ∨ p ∈ removed := by
  have hfold : ∀ l seen : List Str,
      p ∈ l.foldl (fun seen p => if p ∈ seen then seen else seen ++ [p]) seen ↔
        p ∈ l ∨ p ∈ seen := by
    intro l
    induction l with
    | nil => simp
    | cons q rest ih =>
        intro seen
        rw [List.foldl_cons, ih, List.mem_cons]
        split
        next hq =>
          constructor
          · rintro (h | h)
            · exact Or.inl (Or.inr h)
            · exact Or.inr h
          · rintro ((rfl | h) | h)
            · exact Or.inr hq
            · exact Or.inl h
            · exact Or.inr h
        · simp only [List.mem_append, List.mem_singleton]
          tauto
  rw [touchedPushPaths, hfold, List.mem_append]
  simp

variable [DecidableEq H] [HashScheme H] {db : DB H} {caller : Caller} {req : PushRequest H}
  {files : List (PushFile H)} {branch : Branch} {userID : ID} {head : Option (Commit H)}
  {lockPlan : PushLockPlan} {segs : List Str} {f : PushFile H} {g : File H}

theorem flag_eq (hs : db.StoreShape) {flags : GoMap Bool} {paths : List Str}
    (h : headBinaryPaths db head paths = .ok flags) (hsegs : ValidSegs segs)
    (hp : pathOf segs ∈ paths) :
    flags.lookup (pathOf segs) = (headFile db head segs).map File.isBinary := by
  ext b
  rw [headBinaryPaths_lookup hs h hp, Option.map_eq_some_iff]
  constructor
  · rintro ⟨segs', f, heq, hfile, hb⟩
    obtain ⟨row, -, hfind⟩ := Option.bind_eq_some_iff.mp hfile
    rw [pathOf_injective hsegs (storeTree_find_valid hs hfind) heq]
    exact ⟨f, hfile, hb⟩
  · rintro ⟨f, hfile, hb⟩
    exact ⟨segs, f, rfl, hfile, hb⟩

theorem flag_slashed (hs : db.StoreShape) {flags : GoMap Bool} {paths : List Str}
    (h : headBinaryPaths db head paths = .ok flags) {p : Str} (hp : '/' :: p ∈ paths) :
    flags.lookup ('/' :: p) = none := by
  rw [Option.eq_none_iff_forall_ne_some]
  intro b hb
  obtain ⟨segs, f, heq, hfile, -⟩ := (headBinaryPaths_lookup hs h hp).mp hb
  obtain ⟨row, -, hfind⟩ := Option.bind_eq_some_iff.mp hfile
  apply pathOf_head?_ne (storeTree_find_valid hs hfind).2
  rw [← heq]
  rfl

/-- A tracked file that is sent, with a binary on either side, is locked by the
pusher. -/
theorem GatePassed.sent_locked
    (h : GatePassed db caller req files branch userID head lockPlan) (hs : db.StoreShape)
    (hsegs : ValidSegs segs) (hf : f ∈ files) (hpath : f.path = pathOf segs)
    (hg : headFile db head segs = some g) (hbinary : g.isBinary = true ∨ f.isBinary = true) :
    ∃ l, CoveredBy db req.projectID branch (pathOf segs) l ∧ l.heldBy = userID := by
  obtain ⟨flags, hflags, hplan⟩ := h.plan_eq
  have hmem : pathOf segs ∈ touchedPushPaths files req.removed :=
    mem_touchedPushPaths.mpr (Or.inl (hpath ▸ List.mem_map_of_mem hf))
  refine (ensureLocks_ok h.locked).1 _ ?_
  rw [hplan, mem_planPushLocks_required]
  refine Or.inl ⟨f, hf, hpath, g.isBinary, ?_, hbinary⟩
  rw [hpath, flag_eq hs hflags hsegs hmem, hg, Option.map_some]

theorem GatePassed.removed_locked
    (h : GatePassed db caller req files branch userID head lockPlan) (hs : db.StoreShape)
    (hsegs : ValidSegs segs) (hp : pathOf segs ∈ req.removed)
    (hg : headFile db head segs = some g) (hbinary : g.isBinary = true) :
    ∃ l, CoveredBy db req.projectID branch (pathOf segs) l ∧ l.heldBy = userID := by
  obtain ⟨flags, hflags, hplan⟩ := h.plan_eq
  have hmem : pathOf segs ∈ touchedPushPaths files req.removed :=
    mem_touchedPushPaths.mpr (Or.inr hp)
  refine (ensureLocks_ok h.locked).1 _ ?_
  rw [hplan, mem_planPushLocks_required]
  refine Or.inr ⟨hp, ?_⟩
  rw [flag_eq hs hflags hsegs hmem, hg, Option.map_some, hbinary]

/-- A binary that is sent to a free address, or with a slash, is locked by nobody but
the pusher. -/
theorem GatePassed.added_free
    (h : GatePassed db caller req files branch userID head lockPlan) (hs : db.StoreShape)
    (hsegs : ValidSegs segs) (hf : f ∈ files) (hbinary : f.isBinary = true)
    (hpath : (f.path = pathOf segs ∧ headFile db head segs = none) ∨
      f.path = '/' :: pathOf segs) {l : FileLock}
    (hl : CoveredBy db req.projectID branch (pathOf segs) l) :
    ∃ m, CoveredBy db req.projectID branch (pathOf segs) m ∧ m.heldBy = userID := by
  obtain ⟨flags, hflags, hplan⟩ := h.plan_eq
  have hmem : f.path ∈ touchedPushPaths files req.removed :=
    mem_touchedPushPaths.mpr (Or.inl (List.mem_map_of_mem hf))
  have hsame : ∀ {l : FileLock}, CoveredBy db req.projectID branch f.path l ↔
      CoveredBy db req.projectID branch (pathOf segs) l := by
    intro l
    rcases hpath with ⟨heq, -⟩ | heq
    · rw [heq]
    · rw [CoveredBy, CoveredBy, heq, prefixCovers_slash l.path hsegs]
  have hfree : flags.lookup f.path = none := by
    rcases hpath with ⟨heq, hnone⟩ | heq
    · rw [heq] at hmem ⊢
      rw [flag_eq hs hflags hsegs hmem, hnone, Option.map_none]
    · rw [heq] at hmem ⊢
      exact flag_slashed hs hflags hmem
  have hchecked : f.path ∈ lockPlan.checked := by
    rw [hplan, mem_planPushLocks_checked]
    exact ⟨f, hf, rfl, hfree, hbinary⟩
  obtain ⟨m, hm, hholder⟩ := (ensureLocks_ok h.locked).2 _ hchecked l (hsame.mpr hl)
  exact ⟨m, hsame.mp hm, hholder⟩

end Passed

end Nipa
