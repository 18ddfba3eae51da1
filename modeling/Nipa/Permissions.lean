import Nipa.Prefixes
import Nipa.Store.Read

/-!
# Permission filters

A caller's rules give permission masks on path prefixes, and the project has
default masks of which only the deepest covering one counts.  A read filter
compiled from them decides files by their whole path and directories by whether
a path below them could be allowed.  The two tests agree for a single
permission bit: nothing allowed is below a directory that is not entered.
-/

namespace Nipa

open Support

/-! ## Masks and rule sets -/

abbrev PermissionMask := BitVec 64

def permissionRead : PermissionMask := 1
def permissionWrite : PermissionMask := 2
def permissionLock : PermissionMask := 4
def permissionAdmin : PermissionMask := 65536

def permissionAll : PermissionMask :=
  permissionRead ||| permissionWrite ||| permissionLock ||| permissionAdmin

/-- Whether every bit of `perm` is set. -/
def PermissionMask.has (mask perm : PermissionMask) : Bool :=
  mask &&& perm = perm

/-- A rule of the caller or of one of the caller's groups. -/
structure PBACRule where
  pathPrefix : Str
  permission : PermissionMask
  deriving DecidableEq

/-- The default permission of a path prefix. -/
structure ProjectPathPermission where
  pathPrefix : Str
  permission : PermissionMask
  deriving DecidableEq

structure PermissionSet where
  rules : List PBACRule
  defaults : List ProjectPathPermission
  orgOwner : Bool

/-- The length of a string in bytes. -/
def byteLength (s : Str) : ℕ :=
  (utf8 s).length

namespace PermissionSet

/-- The union of the rules that cover a path. -/
def ruleMask (set : PermissionSet) (path : Str) : PermissionMask :=
  set.rules.foldl (fun mask rule =>
    if prefixCovers rule.pathPrefix path then mask ||| rule.permission else mask) 0

/-- The covering default found so far, replaced by a strictly longer one. -/
def deeper (path : Str) (found : Option ProjectPathPermission) (d : ProjectPathPermission) :
    Option ProjectPathPermission :=
  if !prefixCovers d.pathPrefix path then found
  else match found with
    | none => some d
    | some f => if byteLength d.pathPrefix > byteLength f.pathPrefix then some d else some f

def deepest (set : PermissionSet) (path : Str) : Option ProjectPathPermission :=
  set.defaults.foldl (deeper path) none

def effective (set : PermissionSet) (path : Str) : PermissionMask :=
  if set.orgOwner then permissionAll
  else match set.deepest path with
    | none => set.ruleMask path
    | some d => set.ruleMask path ||| d.permission

def allow (set : PermissionSet) (permission : PermissionMask) (path : Str) : Bool :=
  (set.effective path).has permission

def canDescend (set : PermissionSet) (permission : PermissionMask) (dir : Str) : Bool :=
  set.orgOwner ||
    (set.rules.any fun rule =>
      rule.permission.has permission && prefixCanDescend rule.pathPrefix dir) ||
    set.defaults.any fun d =>
      d.permission.has permission && prefixCanDescend d.pathPrefix dir

/-- Whether some bit of the permission is granted on any path. -/
def grantsAnywhere (set : PermissionSet) (permission : PermissionMask) : Bool :=
  permission ≠ 0 && (set.orgOwner ||
    (set.rules.any fun rule => rule.permission &&& permission ≠ 0) ||
    set.defaults.any fun d => d.permission &&& permission ≠ 0)

/-- The filter compiled for a caller who is no administrator. -/
def filter (set : PermissionSet) (permission : PermissionMask) : PathFilter where
  allow := set.allow permission
  canDescend := set.canDescend permission

end PermissionSet

/-- The filter compiled for a caller: administrators see every path. -/
def compileFilter (isAdmin : Bool) (set : PermissionSet) (permission : PermissionMask) :
    PathFilter :=
  if isAdmin then allowAllFilter else set.filter permission

/-! ## One permission bit -/

/-- A mask with exactly one bit. -/
def SingleBit (permission : PermissionMask) : Prop :=
  ∃ k < 64, permission = BitVec.twoPow 64 k

theorem has_twoPow {mask : PermissionMask} {k : ℕ} (hk : k < 64) :
    mask.has (BitVec.twoPow 64 k) ↔ mask.getLsbD k := by
  rw [PermissionMask.has, decide_eq_true_eq, BitVec.and_twoPow]
  by_cases h : mask.getLsbD k
  · simp [h]
  · rw [if_neg h]
    constructor
    · intro hzero
      have hbit := congrArg (fun m => m.getLsbD k) hzero
      simp [hk] at hbit
    · intro hbit
      exact absurd hbit h

variable {permission : PermissionMask}

theorem SingleBit.has_or (h : SingleBit permission) {a b : PermissionMask} :
    PermissionMask.has (a ||| b) permission ↔ a.has permission ∨ b.has permission := by
  obtain ⟨k, hk, rfl⟩ := h
  rw [has_twoPow hk, has_twoPow hk, has_twoPow hk, BitVec.getLsbD_or, Bool.or_eq_true]

theorem SingleBit.not_has_zero (h : SingleBit permission) : ¬ PermissionMask.has 0 permission := by
  obtain ⟨k, hk, rfl⟩ := h
  rw [has_twoPow hk]
  simp

namespace PermissionSet

variable {set : PermissionSet} {permission : PermissionMask} {path : Str}

theorem ruleMask_has_iff (h : SingleBit permission) :
    (set.ruleMask path).has permission ↔
      ∃ rule ∈ set.rules, prefixCovers rule.pathPrefix path ∧ rule.permission.has permission := by
  -- the union is collected from the left, so the start of the fold is generalised
  have hfold : ∀ (rules : List PBACRule) (mask : PermissionMask),
      (rules.foldl (fun mask rule => if prefixCovers rule.pathPrefix path
        then mask ||| rule.permission else mask) mask).has permission ↔
      mask.has permission ∨ ∃ rule ∈ rules, prefixCovers rule.pathPrefix path ∧
        rule.permission.has permission := by
    intro rules
    induction rules with
    | nil => simp
    | cons rule rest ih =>
        intro mask
        rw [List.foldl_cons, ih]
        by_cases hc : prefixCovers rule.pathPrefix path
        · simp [hc, h.has_or, or_assoc]
        · simp [hc]
  rw [ruleMask, hfold]
  exact or_iff_right h.not_has_zero

/-- `found` is a covering default of `seen` with the longest prefix. -/
structure DeepestOf (path : Str) (seen : List ProjectPathPermission)
    (found : Option ProjectPathPermission) : Prop where
  covers : ∀ f ∈ found, f ∈ seen ∧ prefixCovers f.pathPrefix path
  longest : ∀ d ∈ seen, prefixCovers d.pathPrefix path →
    ∃ f ∈ found, byteLength d.pathPrefix ≤ byteLength f.pathPrefix

theorem DeepestOf.step {seen : List ProjectPathPermission}
    {found : Option ProjectPathPermission} (h : DeepestOf path seen found)
    (e : ProjectPathPermission) : DeepestOf path (seen ++ [e]) (deeper path found e) := by
  unfold deeper
  by_cases hcov : prefixCovers e.pathPrefix path
  · simp only [hcov, Bool.not_true, Bool.false_eq_true, if_false]
    rcases found with _ | g
    · refine ⟨?_, ?_⟩
      · rintro f ⟨⟩
        exact ⟨by simp, hcov⟩
      · intro d hd hcov'
        rcases List.mem_append.mp hd with hd | hd
        · obtain ⟨f, hf, -⟩ := h.longest d hd hcov'
          simp at hf
        · rw [List.mem_singleton.mp hd]
          exact ⟨e, rfl, le_refl _⟩
    · have hold : ∀ d ∈ seen, prefixCovers d.pathPrefix path →
          byteLength d.pathPrefix ≤ byteLength g.pathPrefix := by
        intro d hd hcov'
        obtain ⟨f, hf, hle⟩ := h.longest d hd hcov'
        obtain rfl := Option.some.inj hf
        exact hle
      obtain ⟨hg, hgcov⟩ := h.covers g rfl
      dsimp only
      split
      next hlong =>
        refine ⟨?_, ?_⟩
        · rintro f ⟨⟩
          exact ⟨by simp, hcov⟩
        · intro d hd hcov'
          refine ⟨e, rfl, ?_⟩
          rcases List.mem_append.mp hd with hd | hd
          · exact (hold d hd hcov').trans (le_of_lt hlong)
          · rw [List.mem_singleton.mp hd]
      next hshort =>
        refine ⟨?_, ?_⟩
        · rintro f ⟨⟩
          exact ⟨List.mem_append_left _ hg, hgcov⟩
        · intro d hd hcov'
          refine ⟨g, rfl, ?_⟩
          rcases List.mem_append.mp hd with hd | hd
          · exact hold d hd hcov'
          · rw [List.mem_singleton.mp hd]
            exact not_lt.mp hshort
  · simp only [hcov, Bool.not_false, if_true]
    refine ⟨?_, ?_⟩
    · intro f hf
      exact ⟨List.mem_append_left _ (h.covers f hf).1, (h.covers f hf).2⟩
    · intro d hd hcov'
      rcases List.mem_append.mp hd with hd | hd
      · exact h.longest d hd hcov'
      · rw [List.mem_singleton.mp hd] at hcov'
        exact absurd hcov' hcov

theorem deepest_spec (set : PermissionSet) (path : Str) :
    DeepestOf path set.defaults (set.deepest path) := by
  have hfold : ∀ (rest seen : List ProjectPathPermission)
      (found : Option ProjectPathPermission), DeepestOf path seen found →
      DeepestOf path (seen ++ rest) (rest.foldl (deeper path) found) := by
    intro rest
    induction rest with
    | nil =>
        intro seen found h
        rwa [List.append_nil]
    | cons e rest ih =>
        intro seen found h
        rw [List.foldl_cons, ← List.singleton_append, ← List.append_assoc]
        exact ih (seen ++ [e]) _ (h.step e)
  exact hfold set.defaults [] none ⟨by simp, by simp⟩

theorem allow_iff (h : SingleBit permission) :
    set.allow permission path ↔
      (set.orgOwner ∧ permissionAll.has permission) ∨
      (set.orgOwner = false ∧
        ((∃ rule ∈ set.rules, prefixCovers rule.pathPrefix path ∧
            rule.permission.has permission) ∨
          ∃ d, set.deepest path = some d ∧ d.permission.has permission)) := by
  rw [allow, effective]
  rcases howner : set.orgOwner with _ | _
  · rcases hdeep : set.deepest path with _ | d
    · simp [ruleMask_has_iff h]
    · simp [h.has_or, ruleMask_has_iff h]
  · simp

end PermissionSet

/-! ## Entering directories -/

theorem prefixCanDescend_of_covers {pre : Str} {ds rest : List Str} (hds : ValidSegs ds)
    (hsegs : ValidSegs (ds ++ rest)) (hrest : rest ≠ [])
    (h : prefixCovers pre (pathOf (ds ++ rest))) : prefixCanDescend pre (pathOf ds) := by
  have hne : ∀ {segs : List Str}, ValidSegs segs → pathOf segs ≠ [] :=
    fun h hnil => h.1 ((pathOf_eq_nil_iff h.2).mp hnil)
  have hbelow : pathOf ds ++ ['/'] <+: pathOf (ds ++ rest) :=
    (below_pathOf_iff hds hsegs).mpr
      ⟨List.prefix_append _ _, fun heq => hrest (List.append_right_eq_self.mp heq.symm)⟩
  rw [prefixCanDescend]
  split
  · rfl
  next hpre =>
    simp only [trimChar_pathOf hds, if_neg (hne hds)]
    rw [prefixCovers, if_neg hpre] at h
    simp only [trimChar_pathOf hsegs, if_neg (hne hsegs)] at h
    split
    · rfl
    next hnot =>
      rw [List.isPrefixOf_iff_prefix]
      split at h
      next heq =>
        rw [← heq]
        exact hbelow
      · -- both the prefix and the directory are cut off the same path by a slash
        rw [List.isPrefixOf_iff_prefix] at h
        rw [prefixCovers, if_neg hpre] at hnot
        simp only [trimChar_pathOf hds, if_neg (hne hds)] at hnot
        have hcmp := List.prefix_or_prefix_of_prefix h hbelow
        rcases hcmp with hcmp | hcmp
        · exfalso
          apply hnot
          split
          · rfl
          next hneq =>
            rw [List.isPrefixOf_iff_prefix]
            rcases List.prefix_concat_iff.mp hcmp with heq | hlt
            · exact absurd (List.append_cancel_right heq).symm hneq
            · exact hlt
        · rcases List.prefix_concat_iff.mp hcmp with heq | hlt
          · exfalso
            apply hnot
            rw [if_pos (List.append_cancel_right heq)]
          · exact hlt

/-- Nothing allowed is below a directory that is not entered. -/
def Descends (allow canDescend : Str → Bool) : Prop :=
  ∀ ds rest, ValidSegs ds → ValidSegs (ds ++ rest) → rest ≠ [] →
    allow (pathOf (ds ++ rest)) → canDescend (pathOf ds)

theorem PrefixSet.descends (sparse : PrefixSet) : Descends sparse.covers sparse.canDescend := by
  intro ds rest hds hsegs hrest h
  rw [PrefixSet.covers, Bool.or_eq_true, List.any_eq_true] at h
  rw [PrefixSet.canDescend, Bool.or_eq_true, List.any_eq_true]
  rcases h with h | ⟨pre, hmem, hcov⟩
  · exact Or.inl h
  · exact Or.inr ⟨pre, hmem, prefixCanDescend_of_covers hds hsegs hrest hcov⟩

theorem PermissionSet.filter_descends (hbit : SingleBit permission) (set : PermissionSet) :
    Descends (set.filter permission).allow (set.filter permission).canDescend := by
  intro ds rest hds hsegs hrest h
  have hallow : set.allow permission (pathOf (ds ++ rest)) := h
  show set.canDescend permission (pathOf ds)
  rw [canDescend, Bool.or_eq_true, Bool.or_eq_true, List.any_eq_true, List.any_eq_true]
  rcases (allow_iff hbit).mp hallow with ⟨howner, -⟩ | ⟨-, ⟨rule, hmem, hcov, hhas⟩ | ⟨d, hd, hhas⟩⟩
  · exact Or.inl (Or.inl howner)
  · refine Or.inl (Or.inr ⟨rule, hmem, ?_⟩)
    rw [hhas, prefixCanDescend_of_covers hds hsegs hrest hcov]
    rfl
  · obtain ⟨hmem, hcov⟩ := (set.deepest_spec _).covers d hd
    refine Or.inr ⟨d, hmem, ?_⟩
    rw [hhas, prefixCanDescend_of_covers hds hsegs hrest hcov]
    rfl

theorem compileFilter_descends (hbit : SingleBit permission) (isAdmin : Bool)
    (set : PermissionSet) :
    Descends (compileFilter isAdmin set permission).allow
      (compileFilter isAdmin set permission).canDescend := by
  rcases isAdmin with _ | _
  · exact set.filter_descends hbit
  · intro ds rest _ _ _ _
    rfl

/-! ## The shown part of a tree -/

/-- A file the filter allows and the sparse set covers; the root ignore file is
kept whatever the sparse set. -/
def Visible (filter : PathFilter) (sparse : PrefixSet) (segs : List Str) : Prop :=
  filter.allow (pathOf segs) ∧
    (sparse.covers (pathOf segs) ∨ segs = [rootIgnoreFile])

theorem showsFile_iff {filter : PathFilter} {sparse : PrefixSet} {ds : List Str}
    (hds : ∀ m ∈ ds, ValidName m) {n : Str} (hn : ValidName n) :
    showsFile filter sparse (pathOf ds) n ↔ Visible filter sparse (ds ++ [n]) := by
  have hroot : ds ++ [n] = [rootIgnoreFile] ↔ ds = [] ∧ n = rootIgnoreFile := by
    constructor
    · intro h
      have hlen := congrArg List.length h
      have hnil : ds = [] := by
        rw [← List.length_eq_zero_iff]
        simpa using hlen
      subst hnil
      exact ⟨rfl, by simpa using h⟩
    · rintro ⟨rfl, rfl⟩
      rfl
  rw [showsFile, joinTreePath_pathOf hds hn, Visible, Bool.and_eq_true, Bool.or_eq_true,
    keepRootIgnoreFile, hroot]
  refine and_congr_right ?_
  intro _
  by_cases hempty : sparse.isEmpty
  · have hcov : sparse.covers (pathOf (ds ++ [n])) := by
      rw [PrefixSet.covers, hempty]
      rfl
    simp [hcov]
  · simp [hempty, pathOf_eq_nil_iff hds]

section Shown

variable {H : Type} [DecidableEq H] [HashScheme H] {db : DB H} {filter : PathFilter}
  {sparse : PrefixSet}

theorem viewTree_find_iff (hs : db.StoreShape) (hfilter : Descends filter.allow filter.canDescend)
    {h : H} {ds segs : List Str} (hds : ∀ m ∈ ds, ValidName m) {f : File H} :
    (viewTree db filter sparse).find (ds, h) segs = some f ↔
      db.storeTree.find h segs = some f ∧ Visible filter sparse (ds ++ segs) := by
  induction segs generalizing h ds with
  | nil => simp
  | cons k rest ih =>
      by_cases hrest : rest = []
      · subst hrest
        rw [Hierarchy.find_singleton, Hierarchy.find_singleton,
          Hierarchy.fileOf_eq_some_iff (viewTree_distinct hs),
          Hierarchy.fileOf_eq_some_iff hs.storeTree_distinct, viewTree, DB.storeTree]
        simp only [List.mem_map, List.mem_filter, Prod.mk.injEq]
        constructor
        · rintro ⟨g, ⟨hg, hshow⟩, rfl, rfl⟩
          exact ⟨⟨g, hg, rfl, rfl⟩, (showsFile_iff hds (hs.filesByHash_valid hg)).mp hshow⟩
        · rintro ⟨⟨g, hg, rfl, rfl⟩, hvis⟩
          exact ⟨g, ⟨hg, (showsFile_iff hds (hs.filesByHash_valid hg)).mpr hvis⟩, rfl, rfl⟩
      · rw [Hierarchy.find_cons _ _ _ hrest, Hierarchy.find_cons _ _ _ hrest,
          Option.bind_eq_some_iff, Option.bind_eq_some_iff]
        simp only [Hierarchy.subOf_eq_some_iff (viewTree_distinct hs),
          Hierarchy.subOf_eq_some_iff hs.storeTree_distinct]
        simp only [viewTree, DB.storeTree, List.mem_map, List.mem_filter, Prod.mk.injEq]
        constructor
        · rintro ⟨m, ⟨c, ⟨hc, -⟩, rfl, rfl⟩, hfind⟩
          have hname := (hs.childrenByHash_mem hc).2
          obtain ⟨hstore, hvis⟩ := (ih (validNames_concat hds hname)).mp hfind
          rw [List.append_assoc, List.singleton_append] at hvis
          exact ⟨⟨c.hash, ⟨c, hc, rfl, rfl⟩, hstore⟩, hvis⟩
        · rintro ⟨⟨m, ⟨c, hc, rfl, rfl⟩, hstore⟩, hvis⟩
          have hname := (hs.childrenByHash_mem hc).2
          have hnames := validNames_concat hds hname
          have hdir : ValidSegs (ds ++ [c.name]) := ⟨by simp, hnames⟩
          have hrests := storeTree_find_valid hs hstore
          have hsegs : ValidSegs ((ds ++ [c.name]) ++ rest) := by
            refine ⟨by simp, ?_⟩
            intro n hn
            rcases List.mem_append.mp hn with hn | hn
            · exact hnames n hn
            · exact hrests.2 n hn
          have happ : ds ++ c.name :: rest = (ds ++ [c.name]) ++ rest := by simp
          rw [happ] at hvis
          refine ⟨(ds ++ [c.name], c.hash), ⟨c, ⟨hc, ?_⟩, rfl, rfl⟩,
            (ih hnames).mpr ⟨hstore, hvis⟩⟩
          -- a visible file lies below, so both tests let the walk in
          rw [entersDir, joinTreePath_pathOf hds hname, Bool.and_eq_true]
          refine ⟨hfilter _ _ hdir hsegs hrest hvis.1, ?_⟩
          rcases hvis.2 with hcov | hroot
          · exact sparse.descends _ _ hdir hsegs hrest hcov
          · exfalso
            have hlen := congrArg List.length hroot
            have hpos := List.length_pos_iff.mpr hrest
            simp only [List.length_append, List.length_singleton] at hlen
            omega

end Shown

end Nipa
