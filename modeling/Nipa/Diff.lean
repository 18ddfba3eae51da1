import Nipa.Store.Read

/-!
# Comparing flattened trees

Two trees flattened to maps are compared path by path; files are equal when
content hash and mode match.  The changes come sorted by path, so the result
depends only on what the two maps hold at each path.
-/

namespace Nipa

open Support

namespace Diff

inductive Status where
  | added
  | modified
  | deleted
  | renamed
  deriving DecidableEq

/-- One path that differs; a side that does not exist is the zero entry. -/
structure Change (H : Type) where
  path : Str
  status : Status
  old : Entry H
  new : Entry H
  deriving DecidableEq

variable {H : Type} [HashScheme H]

def zeroEntry : Entry H :=
  ⟨[], 0, 0, false, [], HashScheme.zero, [], []⟩

variable [DecidableEq H]

/-- The change at one path, if there is one. -/
def changeAt (path : Str) : Option (Entry H) → Option (Entry H) → Option (Change H)
  | none, none => none
  | some o, none => some ⟨path, .deleted, o, zeroEntry⟩
  | none, some n => some ⟨path, .added, zeroEntry, n⟩
  | some o, some n =>
      if o.hash ≠ n.hash ∨ o.mode ≠ n.mode then some ⟨path, .modified, o, n⟩ else none

/-- The changes found while going over the old map. -/
def goneOrModified (oldMap newMap : GoMap (Entry H)) : List (Change H) :=
  oldMap.entries.filterMap fun e =>
    match newMap.lookup e.1 with
    | none => some ⟨e.1, .deleted, e.2, zeroEntry⟩
    | some newEntry =>
        if e.2.hash ≠ newEntry.hash ∨ e.2.mode ≠ newEntry.mode then
          some ⟨e.1, .modified, e.2, newEntry⟩
        else none

/-- The changes found while going over the new map. -/
def newPaths (oldMap newMap : GoMap (Entry H)) : List (Change H) :=
  newMap.entries.filterMap fun e =>
    if (oldMap.lookup e.1).isSome then none else some ⟨e.1, .added, zeroEntry, e.2⟩

def compare (oldMap newMap : GoMap (Entry H)) : List (Change H) :=
  (goneOrModified oldMap newMap ++ newPaths oldMap newMap).insertionSort
    fun c c' => c.path ≤ c'.path

theorem changeAt_path {path : Str} {o n : Option (Entry H)} {c : Change H}
    (h : changeAt path o n = some c) : c.path = path := by
  rcases o with _ | o <;> rcases n with _ | n
  · simp [changeAt] at h
  · obtain rfl := Option.some.inj h
    rfl
  · obtain rfl := Option.some.inj h
    rfl
  · rw [changeAt] at h
    split at h
    · obtain rfl := Option.some.inj h
      rfl
    · simp at h

@[simp] theorem changeAt_self (path : Str) (o : Option (Entry H)) :
    changeAt path o o = none := by
  rcases o with _ | o
  · rfl
  · simp [changeAt]

/-- A path is changed when content hash or mode differ, or when only one side
has it. -/
theorem changeAt_isSome_iff (path : Str) {o n : Option (Entry H)} :
    (changeAt path o n).isSome ↔
      o.map (fun e => (e.hash, e.mode)) ≠ n.map fun e => (e.hash, e.mode) := by
  rcases o with _ | o <;> rcases n with _ | n
  · simp [changeAt]
  · simp [changeAt]
  · simp [changeAt]
  · rw [changeAt]
    by_cases hh : o.hash = n.hash
    · by_cases hm : o.mode = n.mode
      · simp [hh, hm]
      · simp [hh, hm]
    · simp [hh]

theorem mem_compare {oldMap newMap : GoMap (Entry H)} {c : Change H} :
    c ∈ compare oldMap newMap ↔
      changeAt c.path (oldMap.lookup c.path) (newMap.lookup c.path) = some c := by
  rw [compare, List.mem_insertionSort, List.mem_append, goneOrModified, newPaths,
    List.mem_filterMap, List.mem_filterMap]
  constructor
  · rintro (⟨⟨p, o⟩, hmem, hc⟩ | ⟨⟨p, n⟩, hmem, hc⟩)
    · have hold : oldMap.lookup p = some o := AList.mem_lookup_iff.mpr hmem
      have hsome : changeAt p (oldMap.lookup p) (newMap.lookup p) = some c := by
        rw [hold]
        rcases hnew : newMap.lookup p with _ | n
        · rw [hnew] at hc
          exact hc
        · rw [hnew] at hc
          exact hc
      rwa [changeAt_path hsome]
    · have hnew : newMap.lookup p = some n := AList.mem_lookup_iff.mpr hmem
      rcases hold : oldMap.lookup p with _ | o
      · rw [hold] at hc
        have hsome : changeAt p (oldMap.lookup p) (newMap.lookup p) = some c := by
          rw [hold, hnew]
          exact hc
        rwa [changeAt_path hsome]
      · rw [hold] at hc
        simp at hc
  · intro h
    rcases hold : oldMap.lookup c.path with _ | o
    · rcases hnew : newMap.lookup c.path with _ | n
      · rw [hold, hnew] at h
        simp [changeAt] at h
      · refine Or.inr ⟨⟨c.path, n⟩, AList.mem_lookup_iff.mp hnew, ?_⟩
        rw [hold, hnew] at h
        simpa [hold, changeAt] using h
    · refine Or.inl ⟨⟨c.path, o⟩, AList.mem_lookup_iff.mp hold, ?_⟩
      rw [hold] at h
      rcases hnew : newMap.lookup c.path with _ | n
      · rw [hnew] at h
        simpa [hnew, changeAt] using h
      · rw [hnew] at h
        simpa [hnew, changeAt] using h

/-- The changed paths are those where content hash or mode differ or that only
one side has. -/
theorem mem_compare_paths {oldMap newMap : GoMap (Entry H)} {p : Str} :
    p ∈ (compare oldMap newMap).map Change.path ↔
      (oldMap.lookup p).map (fun e => (e.hash, e.mode)) ≠
        (newMap.lookup p).map fun e => (e.hash, e.mode) := by
  rw [← changeAt_isSome_iff p, List.mem_map, Option.isSome_iff_exists]
  constructor
  · rintro ⟨c, hc, rfl⟩
    exact ⟨c, mem_compare.mp hc⟩
  · rintro ⟨c, hc⟩
    have hpath := changeAt_path hc
    refine ⟨c, mem_compare.mpr ?_, hpath⟩
    rw [hpath]
    exact hc

theorem compare_nodup (oldMap newMap : GoMap (Entry H)) :
    (compare oldMap newMap).Nodup := by
  refine (List.perm_insertionSort _ _).nodup_iff.mpr (List.nodup_append.mpr ⟨?_, ?_, ?_⟩)
  · refine GoMap.filterMap_nodup oldMap Change.path ?_
    rintro e c hc
    split at hc
    · obtain rfl := Option.some.inj hc
      rfl
    · split at hc
      · obtain rfl := Option.some.inj hc
        rfl
      · simp at hc
  · refine GoMap.filterMap_nodup newMap Change.path ?_
    rintro e c hc
    split at hc
    · simp at hc
    · obtain rfl := Option.some.inj hc
      rfl
  · -- a path of the first part is in the old map, one of the second is not
    rintro c hc _ hc' rfl
    obtain ⟨e, he, hsome⟩ := List.mem_filterMap.mp hc
    obtain ⟨e', he', hsome'⟩ := List.mem_filterMap.mp hc'
    have hold : oldMap.lookup e.1 = some e.2 := AList.mem_lookup_iff.mpr he
    split at hsome'
    · simp at hsome'
    next hnone =>
      obtain rfl := Option.some.inj hsome'
      split at hsome
      · simp at hsome
      · split at hsome
        · simp at hsome
        · simp at hsome

theorem compare_congr {m m' n n' : GoMap (Entry H)}
    (h : ∀ p, changeAt p (m.lookup p) (m'.lookup p) = changeAt p (n.lookup p) (n'.lookup p)) :
    compare m m' = compare n n' := by
  have hmem : ∀ c, c ∈ compare m m' ↔ c ∈ compare n n' := by
    intro c
    rw [mem_compare, mem_compare, h]
  have hperm : (compare m m').Perm (compare n n') :=
    (List.perm_ext_iff_of_nodup (compare_nodup m m') (compare_nodup n n')).mpr hmem
  have hsorted : ∀ l : List (Change H),
      (l.insertionSort fun c c' => c.path ≤ c'.path).Pairwise
        fun c c' => c.path ≤ c'.path := fun l => List.pairwise_insertionSort _ l
  refine List.Perm.eq_of_pairwise ?_ (hsorted _) (hsorted _) hperm
  intro c c' hc hc' hle hge
  have hpath : c.path = c'.path := le_antisymm hle hge
  have hc1 := mem_compare.mp hc
  have hc2 := mem_compare.mp ((hmem c').mpr hc')
  rw [hpath, hc2] at hc1
  exact (Option.some.inj hc1).symm

end Diff

end Nipa
