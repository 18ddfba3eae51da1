import Nipa.Client.Merge
import Nipa.Support.Lists

/-!
# Acting on conflicts

Between the stop of a merge or revert and the push that completes it the user
resolves conflicts, adds and removes paths and edits files.  A resolve writes or
removes the working file, stages the outcome and records the path; the push
reads the stage and never the record.

Path arguments are the repository paths they clean to.  What the ignore rules
and the stat cache answer depends on files and times outside the model: each
command carries its own answers.  A resolve that fails after it wrote the file
counts as an edit of that file.
-/

namespace Nipa.Client

open Support

/-! ## Staging commands -/

/-- The segments of a path with `.` dropped and `..` resolved. -/
def cleanSegs (p : Str) : List Str :=
  (p.splitOn '/').foldl (fun acc seg =>
    if seg = [] ∨ seg = ['.'] then acc
    else if seg = ['.', '.'] ∧ acc ≠ [] ∧ acc.getLast? ≠ some ['.', '.'] then acc.dropLast
    else acc ++ [seg]) []

def validateRelPath (t : Str) : Except DomainError Unit :=
  if t = [] then .ok ()
  else if t.head? = some '/' then
    .error (errUser "path %q must be relative to the repository root" [t])
  else if cleanSegs t = [] ∨ (cleanSegs t).head? = some ['.', '.'] then
    .error (errUser "path %q is outside the repository" [t])
  else .ok ()

/-- The answers of the ignore rules: whether a named target is refused, and whether
a walk passes a file over. -/
structure IgnoreRules where
  target : Str → Bool
  file : Str → Bool

section Staging

variable {H : Type}

/-- The paths one target of an add stands for. -/
def expandAddTarget (disk : Disk) (snapshot : Snapshot H) (rules : IgnoreRules)
    (force : Bool) (t : Str) : Except DomainError (List Str) := do
  validateRelPath t
  refuseIf (isNipaPath t = true) (errUser "cannot operate on path inside %q" [nipaDir])
  if disk.lookup t ≠ none then
    refuseIf (force = false ∧ rules.target t = true)
      (errUser "path %q is ignored; use -f to add it anyway" [t])
    return [t]
  else if isDir disk t = true then
    refuseIf (force = false ∧ rules.target t = true)
      (errUser "path %q is ignored; use -f to add it anyway" [t])
    return (disk.keys.filter fun q => under t q && !isNipaPath q && (force || !rules.file q)) ++
      snapshot.files.keys.filter (under t)
  else
    refuseIf (belowFile disk t = true) (errNotDirectory t)
    let tracked := snapshot.files.keys.filter fun q => q = t || under t q
    refuseIf (tracked = []) (errUser "path %q does not exist" [t])
    return tracked

/-- Drop the tracked files that the stat cache vouches for.  An empty cache, `none`,
vouches for nothing, and no file is looked at. -/
def withoutUnchanged (disk : Disk) (snapshot : Snapshot H) (trusted : Option (Str → Bool))
    (paths : List Str) : Except DomainError (List Str) :=
  match trusted with
  | none => .ok paths
  | some trusted => do
      let tracked := fun p => (snapshot.files.lookup p).isSome
      match paths.find? fun p => tracked p && (disk.lookup p).isNone && belowFile disk p with
      | some p => .error (errNotDirectory p)
      | none => .ok (paths.filter fun p =>
          !(tracked p && (disk.lookup p).isSome && trusted p))

def Repo.add (c : Repo H) (targets : List Str) (rules : IgnoreRules) (force : Bool)
    (trusted : Option (Str → Bool)) : Except DomainError (Repo H) := do
  let paths ← targets.mapM (expandAddTarget c.disk c.snapshot rules force)
  let kept ← withoutUnchanged c.disk c.snapshot trusted
    (paths.flatten.dedup.insertionSort (· ≤ ·))
  return { c with staged := stageAddMany c.staged kept }

/-- The staged paths one target of a remove stands for. -/
def removeTarget (staged : List Str) (t : Str) : Except DomainError (List Str) := do
  validateRelPath t
  refuseIf (isNipaPath t = true) (errUser "cannot operate on path inside %q" [nipaDir])
  return if t = [] then staged else if t ∈ staged then [t] else staged.filter (under t)

def Repo.remove (c : Repo H) (targets : List Str) : Except DomainError (Repo H) := do
  let removed ← targets.mapM (removeTarget c.staged)
  return { c with staged := c.staged.filter fun p => p ∉ removed.flatten }

end Staging

/-! ## Resolving -/

structure Resolution where
  delete : Bool
  content : Option (List UInt8)
  allowMarkers : Bool
  mode : ℕ

def conflictMarkers : List (List UInt8) :=
  [utf8 "<<<<<<< ours\n".toList, utf8 ">>>>>>> theirs\n".toList]

def hasMarkers (data : List UInt8) : Bool :=
  conflictMarkers.any fun m => m.isPrefixOf data || data.tails.any ((10 :: m).isPrefixOf)

def maxMarkerScanBytes : ℕ := 64 * 2 ^ 20

def markerError (p : Str) : DomainError :=
  errUser "%s still has conflict markers; pick a side for every conflict first" [p]

/-- The conflicts of the pending merge or revert and those that are binary. -/
def Repo.conflictSet {H : Type} (c : Repo H) : Option (List Str × List Str) :=
  match c.merge with
  | some m => some (m.conflicts, m.conflictBinary)
  | none => c.revert.map fun r => (r.conflicts, r.conflictBinary)

/-- What a resolution makes of the working file. -/
def resolveFile (disk : Disk) (p : Str) (isBinary : Bool) (res : Resolution) :
    Except DomainError Disk :=
  if res.delete then do
    refuseIf (isDir disk p = true) (errInternalServer "directory not empty" [p])
    refuseIf (belowFile disk p = true) (errNotDirectory p)
    return disk.erase p
  else
    match res.content with
    | some content => do
        refuseIf (isBinary = false ∧ res.allowMarkers = false ∧ hasMarkers content = true)
          (markerError p)
        refuseIf (belowFile disk p = true) (errNotDirectory p)
        refuseIf (isDir disk p = true) (errInternalServer "is a directory" [p])
        let perm := if res.mode ≠ 0 then materializedMode res.mode
          else ((disk.lookup p).map WorkFile.perm).getD 0o644
        return disk.insert p ⟨content, perm⟩
    | none => do
        refuseIf (isBinary = false ∧ ∃ w ∈ disk.lookup p,
          w.content.length ≤ maxMarkerScanBytes ∧ hasMarkers w.content = true) (markerError p)
        return disk

section Resolve

variable {H : Type}

/-- Stage the outcome of a resolution: a path without a file that was never tracked
has nothing to stage. -/
def Repo.stageResolved (c : Repo H) (p : Str) (trusted : Option (Str → Bool)) :
    Except DomainError (Repo H) :=
  if c.disk.lookup p ≠ none ∨ isDir c.disk p = true then
    c.add [p] ⟨fun _ => false, fun _ => false⟩ true trusted
  else if belowFile c.disk p = true then .error (errNotDirectory p)
  else if c.snapshot.files.lookup p ≠ none then
    c.add [p] ⟨fun _ => false, fun _ => false⟩ true trusted
  else c.remove [p]

def addOnce (l : List Str) (p : Str) : List Str :=
  if p ∈ l then l else l ++ [p]

def Repo.markResolved (c : Repo H) (p : Str) : Repo H :=
  match c.merge with
  | some m => { c with merge := some { m with resolved := addOnce m.resolved p } }
  | none =>
      { c with revert := c.revert.map fun r => { r with resolved := addOnce r.resolved p } }

def isMetadataPath (p : Str) : Bool :=
  toLower p = nipaDir || (nipaDir ++ ['/']).isPrefixOf (toLower p)

/-- Settle one conflicted file. -/
def Repo.resolve (c : Repo H) (p : Str) (res : Resolution) (trusted : Option (Str → Bool)) :
    Except DomainError (Repo H) := do
  refuseIf (isMetadataPath p = true) (errUser "repository metadata cannot be read" [])
  let (conflicts, binary) ← orError c.conflictSet
    (errUser "no merge or revert is waiting" [])
  refuseIf (p ∉ conflicts) (errUser "%s has no conflict to resolve" [p])
  let disk ← resolveFile c.disk p (decide (p ∈ binary)) res
  let c ← Repo.stageResolved { c with disk := disk } p trusted
  return c.markResolved p

end Resolve

/-! ## What the commands do to the stage and the disk -/

/-- Whether a command's target names a path: itself or something below it. -/
def Names (t p : Str) : Prop :=
  p = t ∨ under t p = true

section Effects

variable {H : Type} {c c' : Repo H}

theorem expandAddTarget_ok {disk : Disk} {snapshot : Snapshot H} {rules : IgnoreRules}
    {force : Bool} {t : Str} {paths : List Str}
    (h : expandAddTarget disk snapshot rules force t = .ok paths) :
    isNipaPath t = false ∧
      ∀ q ∈ paths, Names t q ∧ (disk.lookup q ≠ none ∨ snapshot.files.lookup q ≠ none) := by
  rw [expandAddTarget] at h
  simp only [bind_eq_ok, refuseIf_eq_ok] at h
  obtain ⟨_, -, _, hnipa, h⟩ := h
  refine ⟨by simpa using hnipa, ?_⟩
  have htracked : ∀ q ∈ snapshot.files.keys, snapshot.files.lookup q ≠ none := by
    intro q hq
    exact fun hnone => AList.lookup_eq_none.mp hnone hq
  split at h
  next hfile =>
    simp only [bind_eq_ok, refuseIf_eq_ok, pure_eq_ok] at h
    obtain ⟨_, -, rfl⟩ := h
    intro q hq
    obtain rfl := List.mem_singleton.mp hq
    exact ⟨Or.inl rfl, Or.inl hfile⟩
  · split at h
    · simp only [bind_eq_ok, refuseIf_eq_ok, pure_eq_ok] at h
      obtain ⟨_, -, rfl⟩ := h
      intro q hq
      rcases List.mem_append.mp hq with hq | hq
      · obtain ⟨hkey, hunder⟩ := List.mem_filter.mp hq
        simp only [Bool.and_eq_true] at hunder
        exact ⟨Or.inr hunder.1.1, Or.inl fun hnone => AList.lookup_eq_none.mp hnone hkey⟩
      · obtain ⟨hkey, hunder⟩ := List.mem_filter.mp hq
        exact ⟨Or.inr hunder, Or.inr (htracked q hkey)⟩
    · simp only [bind_eq_ok, refuseIf_eq_ok, pure_eq_ok] at h
      obtain ⟨_, -, _, -, rfl⟩ := h
      intro q hq
      obtain ⟨hkey, hnames⟩ := List.mem_filter.mp hq
      simp only [Bool.or_eq_true, decide_eq_true_eq] at hnames
      exact ⟨hnames, Or.inr (htracked q hkey)⟩

theorem exists_of_mem_flatten {ε α β : Type} {f : α → Except ε (List β)} {l : List α}
    {ys : List (List β)} (h : l.mapM f = .ok ys) {y : β} (hy : y ∈ ys.flatten) :
    ∃ x ∈ l, ∃ out, f x = .ok out ∧ y ∈ out := by
  obtain ⟨out, hout, hy⟩ := List.mem_flatten.mp hy
  obtain ⟨x, hx, hf⟩ := forall₂_mem_right (mapM_ok h) hout
  exact ⟨x, hx, out, hf, hy⟩

theorem withoutUnchanged_subset {disk : Disk} {snapshot : Snapshot H}
    {trusted : Option (Str → Bool)} {paths kept : List Str}
    (h : withoutUnchanged disk snapshot trusted paths = .ok kept) : kept ⊆ paths := by
  unfold withoutUnchanged at h
  cases trusted with
  | none =>
      obtain rfl := Except.ok.inj h
      exact fun _ hq => hq
  | some trusted =>
      dsimp only at h
      split at h
      · cases h
      · obtain rfl := Except.ok.inj h
        exact fun _ hq => (List.mem_filter.mp hq).1

theorem Repo.add_ok {targets : List Str} {rules : IgnoreRules} {force : Bool}
    {trusted : Option (Str → Bool)} (h : c.add targets rules force trusted = .ok c') :
    (∀ t ∈ targets, isNipaPath t = false) ∧
      ∃ kept, c' = { c with staged := stageAddMany c.staged kept } ∧
        ∀ q ∈ kept, (∃ t ∈ targets, Names t q) ∧
          (c.disk.lookup q ≠ none ∨ c.snapshot.files.lookup q ≠ none) := by
  rw [Repo.add] at h
  simp only [bind_eq_ok, pure_eq_ok] at h
  obtain ⟨paths, hpaths, kept, hkept, rfl⟩ := h
  refine ⟨?_, _, rfl, ?_⟩
  · intro t ht
    obtain ⟨out, -, hout⟩ := forall₂_mem_left (mapM_ok hpaths) ht
    exact (expandAddTarget_ok hout).1
  · intro q hq
    have hmem := withoutUnchanged_subset hkept hq
    rw [List.mem_insertionSort, List.mem_dedup] at hmem
    obtain ⟨t, ht, out, hout, hq⟩ := exists_of_mem_flatten hpaths hmem
    obtain ⟨hnames, hexists⟩ := (expandAddTarget_ok hout).2 q hq
    exact ⟨⟨t, ht, hnames⟩, hexists⟩

theorem removeTarget_ok {staged paths : List Str} {t : Str}
    (h : removeTarget staged t = .ok paths) :
    isNipaPath t = false ∧ (∀ q ∈ paths, Names t q) ∧ (t ∈ staged → t ∈ paths) := by
  rw [removeTarget] at h
  simp only [bind_eq_ok, refuseIf_eq_ok, pure_eq_ok] at h
  obtain ⟨_, -, _, hnipa, rfl⟩ := h
  refine ⟨by simpa using hnipa, ?_, ?_⟩
  · intro q hq
    split at hq
    next hroot => exact Or.inr (by simp [under, hroot])
    · split at hq
      · exact Or.inl (List.mem_singleton.mp hq)
      · exact Or.inr (List.mem_filter.mp hq).2
  · intro ht
    split
    · exact ht
    · exact List.mem_singleton_self t

theorem Repo.remove_ok {targets : List Str} (h : c.remove targets = .ok c') :
    (∀ t ∈ targets, isNipaPath t = false ∧ t ∉ c'.staged) ∧
      ∃ removed : List Str, c' = { c with staged := c.staged.filter fun p => p ∉ removed } ∧
        ∀ q ∈ removed, ∃ t ∈ targets, Names t q := by
  rw [Repo.remove] at h
  simp only [bind_eq_ok, pure_eq_ok] at h
  obtain ⟨removed, hremoved, rfl⟩ := h
  refine ⟨?_, _, rfl, ?_⟩
  · intro t ht
    obtain ⟨out, hmem, hout⟩ := forall₂_mem_left (mapM_ok hremoved) ht
    obtain ⟨hnipa, -, hstaged⟩ := removeTarget_ok hout
    refine ⟨hnipa, ?_⟩
    intro hin
    obtain ⟨hin, hnot⟩ := List.mem_filter.mp hin
    simp only [decide_eq_true_eq] at hnot
    exact hnot (List.mem_flatten.mpr ⟨out, hmem, hstaged hin⟩)
  · intro q hq
    obtain ⟨t, ht, out, hout, hq⟩ := exists_of_mem_flatten hremoved hq
    exact ⟨t, ht, (removeTarget_ok hout).2.1 q hq⟩

theorem resolveFile_ok {disk disk' : Disk} {p : Str} {isBinary : Bool} {res : Resolution}
    (h : resolveFile disk p isBinary res = .ok disk') :
    (∀ q, q ≠ p → disk'.lookup q = disk.lookup q) ∧
      (disk'.lookup p ≠ none ∨ disk' = disk ∨
        (isDir disk p = false ∧ disk' = disk.erase p)) := by
  rw [resolveFile] at h
  split at h
  · simp only [bind_eq_ok, refuseIf_eq_ok, pure_eq_ok] at h
    obtain ⟨_, hdir, _, -, rfl⟩ := h
    refine ⟨?_, Or.inr (Or.inr ⟨by simpa using hdir, rfl⟩)⟩
    intro q hq
    rw [GoMap.lookup_erase_eq, if_neg hq]
  · split at h
    · simp only [bind_eq_ok, refuseIf_eq_ok, pure_eq_ok] at h
      obtain ⟨_, -, _, -, _, -, rfl⟩ := h
      refine ⟨?_, Or.inl ?_⟩
      · intro q hq
        rw [GoMap.lookup_insert_eq, if_neg hq]
      · rw [GoMap.lookup_insert_eq, if_pos rfl]
        simp
    · simp only [bind_eq_ok, refuseIf_eq_ok, pure_eq_ok] at h
      obtain ⟨_, -, rfl⟩ := h
      exact ⟨fun _ _ => rfl, Or.inr (Or.inl rfl)⟩

theorem isDir_erase {disk : Disk} {p q : Str} (h : isDir disk p = false) :
    isDir (disk.erase q) p = false := by
  rw [isDir, Bool.or_eq_false_iff] at h ⊢
  refine ⟨h.1, ?_⟩
  rw [List.any_eq_false] at h ⊢
  intro x hx
  exact h.2 x (AList.mem_keys.mp (AList.mem_erase.mp (AList.mem_keys.mpr hx)).2)

/-- What a resolve does: the disk changes at the path only, the stage only at the
paths it names, and a path left without a file and without a snapshot entry is
not staged unless a directory stands there. -/
structure ResolveEffect (p : Str) (c c' : Repo H) : Prop where
  nipa : isNipaPath p = false
  snapshot : c'.snapshot = c.snapshot
  conflictSet : c'.conflictSet = c.conflictSet
  disk : ∀ q, q ≠ p → c'.disk.lookup q = c.disk.lookup q
  staged : ∀ q, ¬ Names p q → (q ∈ c'.staged ↔ q ∈ c.staged)
  gained : ∀ q ∈ c'.staged, q ∈ c.staged ∨
    (c'.disk.lookup q ≠ none ∨ c.snapshot.files.lookup q ≠ none)
  settled : p ∈ c'.staged → c'.disk.lookup p = none → c.snapshot.files.lookup p = none →
    c'.disk.lookup p = c.disk.lookup p ∧ p ∈ c.staged

theorem Repo.markResolved_conflictSet (c : Repo H) (p : Str) :
    (c.markResolved p).conflictSet = c.conflictSet := by
  rw [Repo.markResolved]
  rcases hm : c.merge with _ | m
  · rw [Repo.conflictSet, Repo.conflictSet, hm]
    simp [Function.comp_def]
  · rw [Repo.conflictSet, Repo.conflictSet, hm]

theorem Repo.stageResolved_ok {p : Str} {trusted : Option (Str → Bool)}
    (h : c.stageResolved p trusted = .ok c') :
    isNipaPath p = false ∧ (∃ staged, c' = { c with staged := staged }) ∧
      (∀ q, ¬ Names p q → (q ∈ c'.staged ↔ q ∈ c.staged)) ∧
      (∀ q ∈ c'.staged, q ∈ c.staged ∨
        (c.disk.lookup q ≠ none ∨ c.snapshot.files.lookup q ≠ none)) ∧
      (p ∈ c'.staged → c.disk.lookup p = none → c.snapshot.files.lookup p = none →
        isDir c.disk p = true ∧ p ∈ c.staged) := by
  -- an add, of a path that is there or tracked, or a remove
  have hcases : ((c.disk.lookup p ≠ none ∨ isDir c.disk p = true ∨
        c.snapshot.files.lookup p ≠ none) ∧
      c.add [p] ⟨fun _ => false, fun _ => false⟩ true trusted = .ok c') ∨
        c.remove [p] = .ok c' := by
    rw [Repo.stageResolved] at h
    split at h
    next hthere => exact Or.inl ⟨hthere.imp_right Or.inl, h⟩
    · split at h
      · cases h
      · split at h
        next htracked => exact Or.inl ⟨Or.inr (Or.inr htracked), h⟩
        · exact Or.inr h
  rcases hcases with ⟨hsome, h⟩ | h
  · obtain ⟨hnipa, kept, rfl, hkept⟩ := Repo.add_ok h
    refine ⟨hnipa p (List.mem_singleton_self p), ⟨_, rfl⟩, ?_, ?_, ?_⟩
    · intro q hq
      rw [mem_stageAddMany, or_iff_right]
      intro hmem
      obtain ⟨⟨t, ht, hnames⟩, -⟩ := hkept q hmem
      exact hq (List.mem_singleton.mp ht ▸ hnames)
    · intro q hq
      rcases mem_stageAddMany.mp hq with hq | hq
      · exact Or.inr (hkept q hq).2
      · exact Or.inl hq
    · intro hp hdisk hsnap
      refine ⟨?_, ?_⟩
      · rcases hsome with hfile | hdir | htracked
        · exact absurd hdisk hfile
        · exact hdir
        · exact absurd hsnap htracked
      · rcases mem_stageAddMany.mp hp with hp | hp
        · rcases (hkept p hp).2 with hfile | htracked
          · exact absurd hdisk hfile
          · exact absurd hsnap htracked
        · exact hp
  · obtain ⟨htargets, removed, rfl, hremoved⟩ := Repo.remove_ok h
    obtain ⟨hnipa, hgone⟩ := htargets p (List.mem_singleton_self p)
    refine ⟨hnipa, ⟨_, rfl⟩, ?_, ?_, ?_⟩
    · intro q hq
      rw [List.mem_filter]
      simp only [decide_eq_true_eq, and_iff_left_iff_imp]
      intro _ hmem
      obtain ⟨t, ht, hnames⟩ := hremoved q hmem
      exact hq (List.mem_singleton.mp ht ▸ hnames)
    · intro q hq
      exact Or.inl (List.mem_filter.mp hq).1
    · intro hp
      exact absurd hp hgone

theorem Repo.resolve_ok {p : Str} {res : Resolution} {trusted : Option (Str → Bool)}
    (h : c.resolve p res trusted = .ok c') : ResolveEffect p c c' := by
  rw [Repo.resolve] at h
  simp only [bind_eq_ok, refuseIf_eq_ok, orError_eq_ok, pure_eq_ok] at h
  obtain ⟨_, -, ⟨conflicts, binary⟩, hset, _, -, disk, hdisk, mid, hmid, rfl⟩ := h
  obtain ⟨hother, hfile⟩ := resolveFile_ok hdisk
  obtain ⟨hnipa, ⟨staged, hmideq⟩, hstaged, hgained, hsettled⟩ := Repo.stageResolved_ok hmid
  have hmarked : (mid.markResolved p).disk = mid.disk ∧
      (mid.markResolved p).snapshot = mid.snapshot ∧
      (mid.markResolved p).staged = mid.staged := by
    rw [Repo.markResolved]
    split <;> exact ⟨rfl, rfl, rfl⟩
  obtain ⟨hmdisk, hmsnap, hmstaged⟩ := hmarked
  have hmiddisk : mid.disk = disk := by rw [hmideq]
  refine ⟨hnipa, ?_, ?_, ?_, ?_, ?_, ?_⟩
  · rw [hmsnap, hmideq]
  · rw [Repo.markResolved_conflictSet, hmideq]
    rfl
  · intro q hq
    rw [hmdisk, hmiddisk, hother q hq]
  · intro q hq
    rw [hmstaged, hstaged q hq]
  · intro q hq
    rw [hmdisk, hmiddisk]
    rw [hmstaged] at hq
    exact hgained q hq
  · intro hp hnone hsnap
    rw [hmdisk, hmiddisk] at hnone ⊢
    rw [hmstaged] at hp
    obtain ⟨hdir, hmem⟩ := hsettled hp hnone hsnap
    refine ⟨?_, hmem⟩
    rcases hfile with hfile | rfl | ⟨hnodir, rfl⟩
    · exact absurd hnone hfile
    · rfl
    · rw [isDir_erase hnodir] at hdir
      exact absurd hdir (by simp)

end Effects

/-! ## Sequences of user actions -/

inductive Action where
  | resolve (p : Str) (res : Resolution) (trusted : Option (Str → Bool))
  | add (targets : List Str) (rules : IgnoreRules) (force : Bool)
      (trusted : Option (Str → Bool))
  | remove (targets : List Str)
  | edit (p : Str) (file : Option WorkFile)

/-- Whether an action is about a path. -/
def Action.ActsOn : Action → Str → Prop
  | .resolve t _ _, p => Names t p
  | .add targets _ _ _, p => ∃ t ∈ targets, Names t p
  | .remove targets, p => ∃ t ∈ targets, Names t p
  | .edit q _, p => p = q

section Actions

variable {H : Type} {c c' : Repo H}

def Repo.act (c : Repo H) : Action → Except DomainError (Repo H)
  | .resolve p res trusted => c.resolve p res trusted
  | .add targets rules force trusted => c.add targets rules force trusted
  | .remove targets => c.remove targets
  | .edit p none => .ok { c with disk := c.disk.erase p }
  | .edit p (some w) => .ok { c with disk := c.disk.insert p w }

/-- Actions that succeed, one after the other. -/
def Repo.acts (c : Repo H) (actions : List Action) : Except DomainError (Repo H) :=
  actions.foldlM Repo.act c

/-- A path is as it was: the same file, and staged or not as before. -/
def SamePath (p : Str) (c c' : Repo H) : Prop :=
  c'.disk.lookup p = c.disk.lookup p ∧ (p ∈ c'.staged ↔ p ∈ c.staged)

theorem Repo.act_samePath {a : Action} {p : Str} (h : c.act a = .ok c')
    (hp : ¬ a.ActsOn p) : SamePath p c c' := by
  cases a with
  | resolve t res trusted =>
      have heffect := Repo.resolve_ok h
      exact ⟨heffect.disk p fun hpt => hp (Or.inl hpt), heffect.staged p hp⟩
  | add targets rules force trusted =>
      obtain ⟨-, kept, rfl, hkept⟩ := Repo.add_ok h
      refine ⟨rfl, ?_⟩
      rw [mem_stageAddMany, or_iff_right]
      intro hmem
      exact hp (hkept p hmem).1
  | remove targets =>
      obtain ⟨-, removed, rfl, hremoved⟩ := Repo.remove_ok h
      refine ⟨rfl, ?_⟩
      rw [List.mem_filter]
      simp only [decide_eq_true_eq, and_iff_left_iff_imp]
      intro _ hmem
      exact hp (hremoved p hmem)
  | edit q file =>
      have hpq : p ≠ q := hp
      cases file with
      | none =>
          obtain rfl := Except.ok.inj h
          exact ⟨by rw [GoMap.lookup_erase_eq, if_neg hpq], Iff.rfl⟩
      | some w =>
          obtain rfl := Except.ok.inj h
          exact ⟨by rw [GoMap.lookup_insert_eq, if_neg hpq], Iff.rfl⟩

theorem Repo.acts_samePath {actions : List Action} {p : Str} (h : c.acts actions = .ok c')
    (hp : ∀ a ∈ actions, ¬ a.ActsOn p) : SamePath p c c' := by
  induction actions generalizing c with
  | nil =>
      obtain rfl := pure_eq_ok.mp h
      exact ⟨rfl, Iff.rfl⟩
  | cons a rest ih =>
      rw [Repo.acts, List.foldlM_cons] at h
      obtain ⟨mid, hmid, h⟩ := bind_eq_ok.mp h
      obtain ⟨hdisk, hstaged⟩ := Repo.act_samePath hmid (hp a List.mem_cons_self)
      obtain ⟨hdisk', hstaged'⟩ := ih h fun b hb => hp b (List.mem_cons_of_mem a hb)
      exact ⟨hdisk'.trans hdisk, hstaged'.trans hstaged⟩

theorem Repo.act_conflictSet {a : Action} (h : c.act a = .ok c') :
    c'.conflictSet = c.conflictSet := by
  cases a with
  | resolve p res trusted => exact (Repo.resolve_ok h).conflictSet
  | add targets rules force trusted =>
      obtain ⟨-, kept, rfl, -⟩ := Repo.add_ok h
      rfl
  | remove targets =>
      obtain ⟨-, removed, rfl, -⟩ := Repo.remove_ok h
      rfl
  | edit q file =>
      cases file with
      | none =>
          obtain rfl := Except.ok.inj h
          rfl
      | some w =>
          obtain rfl := Except.ok.inj h
          rfl

theorem Repo.acts_conflictSet {actions : List Action} (h : c.acts actions = .ok c') :
    c'.conflictSet = c.conflictSet := by
  induction actions generalizing c with
  | nil =>
      obtain rfl := pure_eq_ok.mp h
      rfl
  | cons a rest ih =>
      rw [Repo.acts, List.foldlM_cons] at h
      obtain ⟨mid, hmid, h⟩ := bind_eq_ok.mp h
      exact (ih h).trans (Repo.act_conflictSet hmid)

end Actions

/-! ## Pushing over conflicts -/

section Push

variable {H : Type} [HashScheme H] {c c₁ : Repo H}

/-- Whether some action since the stop was about a path. -/
def Attended (actions : List Action) (p : Str) : Prop :=
  ∃ a ∈ actions, a.ActsOn p

/-- Whether a push gets as far as the server. -/
def ReadyToPush (c : Repo H) : Prop :=
  ¬ MidSequence c ∧ c.staged ≠ [] ∧ ∀ p ∈ c.staged, Pushable c.disk c.snapshot p

/-- What a push sends of a path is what the stop left there. -/
def SentAsLeft (codec : Codec H) (c₁ : Repo H) (call : PushCall H) (p : Str) : Prop :=
  (p ∈ c₁.staged → ∀ w ∈ c₁.disk.lookup p, scanPushFile codec p w ∈ call.files) ∧
    (p ∉ c₁.staged → p ∉ call.removed ∧ ∀ f ∈ call.files, f.path ≠ p)

theorem sentAsLeft_of_samePath {codec : Codec H} {message baseTreeHash : Str}
    {baseCommitID : TextField ID} {parent2 : TextField H} {p : Str}
    (h : SamePath p c₁ c) :
    SentAsLeft codec c₁ (callOf codec c message baseTreeHash baseCommitID parent2) p := by
  obtain ⟨hdisk, hstaged⟩ := h
  refine ⟨?_, ?_⟩
  · intro hp w hw
    exact mem_callOf_files.mpr ⟨p, w, hstaged.mpr hp, hdisk.trans hw, rfl⟩
  · intro hp
    refine ⟨fun hmem => hp (hstaged.mp (mem_removals.mp hmem).1), ?_⟩
    intro f hf heq
    obtain ⟨q, w, hq, -, rfl⟩ := mem_callOf_files.mp hf
    exact hp (hstaged.mp (heq ▸ hq))

/-- A server that accepts every push. -/
def acceptingServer (H : Type) : PushServer H where
  push _ := .ok ⟨[], .empty⟩
  manifest := .ok ⟨[], ∅⟩

theorem exists_push_of_ready (codec : Codec H) (h : ReadyToPush c) :
    ∃ message c', runPush codec (.ok ()) (acceptingServer H) c message = .ok c' := by
  obtain ⟨hseq, hne, hall⟩ := h
  refine ⟨"done".toList, _, runPush_eq_ok.mpr
    ⟨by decide, rfl, hseq, hne, hall, ⟨[], .empty⟩, ⟨[], ∅⟩, rfl, rfl, rfl⟩⟩

/-- A pending merge or revert can be pushed with a conflict nobody looked at exactly
when its stage can be pushed at all; what is sent of such a path is what the
merge or revert left there. -/
theorem push_attended_iff (codec : Codec H) {conflicts binary : List Str}
    {actions : List Action} (hpending : c₁.conflictSet = some (conflicts, binary))
    (hacts : c₁.acts actions = .ok c) :
    c.conflictSet = some (conflicts, binary) ∧
    ((∀ session server message c', runPush codec session server c message = .ok c' →
        ∀ p ∈ conflicts, Attended actions p) ↔
      (∀ p ∈ conflicts, Attended actions p) ∨ ¬ ReadyToPush c) ∧
    ∀ p ∈ conflicts, ¬ Attended actions p → ∀ message,
      SentAsLeft codec c₁ (callOf codec c message (pushBase c).1 (pushBase c).2.1
        (pushBase c).2.2) p := by
  refine ⟨(Repo.acts_conflictSet hacts).trans hpending, ⟨?_, ?_⟩, ?_⟩
  · intro hpush
    by_cases hready : ReadyToPush c
    · obtain ⟨message, c', hok⟩ := exists_push_of_ready codec hready
      exact Or.inl (hpush _ _ _ _ hok)
    · exact Or.inr hready
  · rintro (hall | hnot) session server message c' hok
    · exact hall
    · obtain ⟨-, -, hseq, hne, hall, -⟩ := runPush_eq_ok.mp hok
      exact absurd ⟨hseq, hne, hall⟩ hnot
  · intro p _ hp message
    refine sentAsLeft_of_samePath (Repo.acts_samePath hacts ?_)
    intro a ha hon
    exact hp ⟨a, ha, hon⟩

end Push

/-! ## A binary conflict pushed over -/

/-- Content of at most one chunk: binary content is stored as it is under the
digest of its bytes. -/
def demoCodec : Codec IdealHash where
  isBinary content := content.contains 0
  encode _ _ _ content :=
    (encodingRaw, if content = [] then [] else [⟨.digest content, content.length⟩])
  decode _ data := .ok data
  fetch
    | .zero => .error (errNotFound "record not found" [])
    | .digest data => .ok data
  mergeText base ours theirs :=
    if ours = base ∨ ours = theirs then (theirs, false)
    else if theirs = base then (ours, false)
    else (utf8 "<<<<<<< ours\n".toList ++ ours ++ utf8 "=======\n".toList ++ theirs ++
      utf8 ">>>>>>> theirs\n".toList, true)

def demoEntry (path : String) (content : List UInt8) : Entry IdealHash :=
  ⟨path.toList, 2, content.length, true, encodingRaw, fileHash [.digest content],
    [.digest content], [content.length]⟩

def demoTree (files : List (String × List UInt8)) : GoMap (Entry IdealHash) :=
  GoMap.insertAll (fun f => f.1.toList) (fun f => demoEntry f.1 f.2) ∅ files

/-- A working copy with the files of a tree and nothing pending. -/
def demoCopy (files : List (String × List UInt8)) : Repo IdealHash where
  disk := GoMap.insertAll (fun f => f.1.toList) (fun f => ⟨f.2, 0o644⟩) ∅ files
  snapshot := saveTree "head".toList (demoTree files)
  staged := []
  merge := none
  revert := none
  commit := .value "7".toList 7

/-- Two heads that have diverged. -/
def demoInfo (base : List (String × List UInt8)) : MergeBaseInfo IdealHash where
  mergeBaseCommitID := .value "6".toList 6
  targetCommitID := .value "7".toList 7
  sourceCommitID := .value "8".toList 8
  sourceCommitHash := .value "s".toList (.digest [8])
  mergeBase := demoTree base

def demoTarget (ours : List (String × List UInt8)) : Manifest IdealHash :=
  ⟨"head".toList, demoTree ours⟩

/-- The merge command on a working copy at the target head. -/
def demoMerge (server : PushServer IdealHash) (base ours theirs : List (String × List UInt8)) :
    Except DomainError (MergeOutcome IdealHash) :=
  runMerge demoCodec (.ok ()) server (.error (errNotFound "record not found" []))
    (demoCopy ours) "dev".toList "main".toList (demoInfo base) (demoTarget ours)
    (demoTree theirs) ⟨false, false, []⟩

/-- The target changed `a.bin`, the source `a.bin` and `b.bin`. -/
def clashBase : List (String × List UInt8) := [("a.bin", [0, 1]), ("b.bin", [0, 1])]

def clashOurs : List (String × List UInt8) := [("a.bin", [0, 2]), ("b.bin", [0, 1])]

def clashTheirs : List (String × List UInt8) := [("a.bin", [0, 3]), ("b.bin", [0, 3])]

def clashOutcome : Except DomainError (MergeOutcome IdealHash) :=
  demoMerge (acceptingServer IdealHash) clashBase clashOurs clashTheirs

/-- The push right after the stop goes through with `a.bin` in conflict. -/
theorem clash_pushed :
    ∃ c c', clashOutcome = .ok (.conflicts c) ∧
      c.conflictSet = some (["a.bin".toList], ["a.bin".toList]) ∧
      runPush demoCodec (.ok ()) (acceptingServer IdealHash) c "merge".toList = .ok c' ∧
      ¬ Attended [] "a.bin".toList := by
  refine ⟨_, _, rfl, rfl, rfl, ?_⟩
  simp [Attended]

def clashResolve : Action :=
  .resolve "a.bin".toList ⟨false, some [0, 4], false, 0⟩ none

theorem push_attended_clash :
    ∃ c₁ c, clashOutcome = .ok (.conflicts c₁) ∧ c₁.acts [clashResolve] = .ok c ∧
      ∀ session server message c', runPush demoCodec session server c message = .ok c' →
        ∀ p ∈ ["a.bin".toList], Attended [clashResolve] p := by
  obtain ⟨c₁, hstop, hset⟩ : ∃ c₁, clashOutcome = .ok (.conflicts c₁) ∧
      c₁.conflictSet = some (["a.bin".toList], ["a.bin".toList]) := ⟨_, rfl, rfl⟩
  obtain ⟨c, hacts⟩ : ∃ c, c₁.acts [clashResolve] = .ok c := by
    obtain rfl : _ = c₁ := MergeOutcome.conflicts.inj (Except.ok.inj hstop)
    exact ⟨_, rfl⟩
  refine ⟨c₁, c, hstop, hacts, (push_attended_iff demoCodec hset hacts).2.1.mpr (Or.inl ?_)⟩
  intro p hp
  exact ⟨clashResolve, List.mem_singleton_self _, Or.inl (List.mem_singleton.mp hp)⟩

end Nipa.Client
