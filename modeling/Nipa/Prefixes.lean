import Nipa.Push.Paths

/-!
# Path prefixes

Locks, permission rules and sparse sets name a file or a directory by a
normalised path.  On normalised paths the string tests of the source are
comparisons of name lists: a prefix covers a path when its names come first.
-/

namespace Nipa

open Support

/-! ## Normalisation -/

/-- The names of a path without empty and dot segments; nothing when it would
leave the tree. -/
def normalizeSegments : List Str → Option (List Str)
  | [] => some []
  | segment :: rest =>
      if segment = [] ∨ segment = ".".toList then normalizeSegments rest
      else if segment = "..".toList then none
      else (normalizeSegments rest).map (segment :: ·)

def normalizePathPrefix (pre : Str) : Option Str :=
  let p := trimChar '/' ((trimSpace pre).map fun c => if c = '\\' then '/' else c)
  if p = [] ∨ p = ".".toList then some []
  else (normalizeSegments (p.splitOn '/')).map (joinWith '/')

/-- A normalised path of at least one name. -/
def CleanPath (p : Str) : Prop :=
  ∃ segs, ValidSegs segs ∧ p = pathOf segs

theorem normalizeSegments_valid {segs out : List Str} (hsegs : ∀ n ∈ segs, '/' ∉ n)
    (h : normalizeSegments segs = some out) : ∀ n ∈ out, ValidName n := by
  induction segs generalizing out with
  | nil =>
      obtain rfl := Option.some.inj h
      simp
  | cons segment rest ih =>
      have hrest : ∀ n ∈ rest, '/' ∉ n := fun n hn => hsegs n (List.mem_cons_of_mem _ hn)
      rw [normalizeSegments] at h
      split at h
      · exact ih hrest h
      next hne =>
        split at h
        · simp at h
        · obtain ⟨out', hout', rfl⟩ := Option.map_eq_some_iff.mp h
          intro n hn
          rcases List.mem_cons.mp hn with rfl | hn
          · exact ⟨fun hnil => hne (Or.inl hnil), hsegs n (by simp)⟩
          · exact ih hrest hout' n hn

theorem normalizePathPrefix_clean {pre p : Str} (h : normalizePathPrefix pre = some p)
    (hne : p ≠ []) : CleanPath p := by
  rw [normalizePathPrefix] at h
  split at h
  · obtain rfl := Option.some.inj h
    exact absurd rfl hne
  · obtain ⟨segs, hsegs, rfl⟩ := Option.map_eq_some_iff.mp h
    have hvalid := normalizeSegments_valid (fun n hn => notMem_of_mem_splitOn hn) hsegs
    refine ⟨segs, ⟨?_, hvalid⟩, rfl⟩
    rintro rfl
    exact hne rfl

/-! ## Covering -/

theorem pathOf_getLast?_ne {segs : List Str} (h : ValidSegs segs) :
    (pathOf segs).getLast? ≠ some '/' := by
  obtain ⟨ds, n, rfl⟩ : ∃ ds n, segs = ds ++ [n] :=
    ⟨_, _, (List.dropLast_append_getLast h.1).symm⟩
  obtain ⟨hn, hslash⟩ := h.2 n (by simp)
  have hlast : (pathOf (ds ++ [n])).getLast? = n.getLast? := by
    by_cases hds : ds = []
    · rw [hds, List.nil_append, pathOf_singleton]
    · rw [pathOf_concat hds, List.getLast?_append, List.getLast?_cons,
        List.getLast?_eq_some_getLast hn]
      rfl
  rw [hlast]
  intro h'
  exact hslash (List.mem_of_getLast? h')

theorem trimChar_pathOf {segs : List Str} (h : ValidSegs segs) :
    trimChar '/' (pathOf segs) = pathOf segs :=
  trimChar_eq_self (pathOf_head?_ne h.2) (pathOf_getLast?_ne h)

theorem trimChar_slash_pathOf {segs : List Str} (h : ValidSegs segs) :
    trimChar '/' ('/' :: pathOf segs) = pathOf segs := by
  have hdrop : trimChar '/' ('/' :: pathOf segs) = trimChar '/' (pathOf segs) := by
    rw [trimChar, trimChar, List.dropWhile_cons_of_pos (by simp)]
  rw [hdrop, trimChar_pathOf h]

theorem below_pathOf_iff {ps qs : List Str} (hp : ValidSegs ps) (hq : ValidSegs qs) :
    pathOf ps ++ ['/'] <+: pathOf qs ↔ ps <+: qs ∧ ps ≠ qs := by
  constructor
  · rintro ⟨rest, heq⟩
    have hqs : qs = ps ++ rest.splitOn '/' := by
      rw [← splitOn_pathOf hq, ← heq, List.append_assoc, List.singleton_append,
        List.splitOn_append_cons_self, splitOn_pathOf hp]
    refine ⟨⟨_, hqs.symm⟩, ?_⟩
    rintro rfl
    exact List.splitOn_ne_nil '/' rest (List.append_right_eq_self.mp hqs.symm)
  · rintro ⟨⟨rs, rfl⟩, hne⟩
    have hrs : rs ≠ [] := by
      rintro rfl
      exact hne (List.append_nil ps).symm
    refine ⟨pathOf rs, ?_⟩
    rw [pathOf, pathOf, pathOf, joinWith_append hp.1 hrs, List.append_assoc,
      List.singleton_append]

theorem prefixCovers_pathOf {ps qs : List Str} (hp : ValidSegs ps) (hq : ValidSegs qs) :
    prefixCovers (pathOf ps) (pathOf qs) ↔ ps <+: qs := by
  have hne : ∀ {segs : List Str}, ValidSegs segs → pathOf segs ≠ [] :=
    fun h hnil => h.1 ((pathOf_eq_nil_iff h.2).mp hnil)
  rw [prefixCovers, if_neg (hne hp)]
  simp only [trimChar_pathOf hq, if_neg (hne hq)]
  by_cases heq : pathOf qs = pathOf ps
  · obtain rfl := pathOf_injective hq hp heq
    simp
  · rw [if_neg heq, List.isPrefixOf_iff_prefix, below_pathOf_iff hp hq]
    constructor
    · exact And.left
    · intro hpre
      refine ⟨hpre, ?_⟩
      rintro rfl
      exact heq rfl

theorem prefixCovers_slash (pre : Str) {qs : List Str} (hq : ValidSegs qs) :
    prefixCovers pre ('/' :: pathOf qs) = prefixCovers pre (pathOf qs) := by
  rw [prefixCovers, prefixCovers, trimChar_slash_pathOf hq, trimChar_pathOf hq]

end Nipa
