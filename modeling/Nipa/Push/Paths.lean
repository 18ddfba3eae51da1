import Nipa.Domain
import Mathlib.Data.List.Sort
import Mathlib.Data.List.Dedup
import Mathlib.Data.List.Lex
import Mathlib.Order.Lex

/-!
# Repository paths

The path functions of the push use case: validation, splitting a path at its
last slash, the directories above a path and the immediate subdirectories of a
directory.  Accepted paths are the joins of good segments, possibly with one
leading slash that validation strips and the other functions do not.
-/

namespace Nipa

open Support

/-- The slash-separated path of a list of segments. -/
def pathOf (segs : List Str) : Str :=
  joinWith '/' segs

def dirOf (p : Str) : Str :=
  beforeLast '/' p

def baseOf (p : Str) : Str :=
  afterLast '/' p

def nodeName (dirPath : Str) : Str :=
  if dirPath = [] then "root".toList else baseOf dirPath

def joinPath (dirPath name : Str) : Str :=
  if dirPath = [] then name else dirPath ++ '/' :: name

/-- A directory and everything above it, cutting at the last slash until there
is none; `steps` bounds the number of cuts. -/
def addAncestorsFrom : ℕ → Str → List Str
  | 0, _ => []
  | steps + 1, d =>
      d :: match lastIndex '/' d with
        | none => []
        | some i => addAncestorsFrom steps (d.take i)

def addAncestors (dirPath : Str) : List Str :=
  addAncestorsFrom (dirPath.length + 1) dirPath

def immediateSubdirs (rebuildDirs : List Str) (dirPath : Str) : List Str :=
  let pre := if dirPath = [] then [] else dirPath ++ ['/']
  (rebuildDirs.filterMap fun d =>
    if pre.isPrefixOf d then
      let rest := trimPrefix d pre
      if rest = [] ∨ '/' ∈ rest then none else some rest
    else none).dedup.insertionSort (· ≤ ·)

def validateRepoPath (p : Str) : Except DomainError Unit :=
  let p := trimPrefix p ['/']
  if p = [] then .error (errUser "file path must not be empty" [])
  else if ['/'].isPrefixOf p ∨ '\\' ∈ p then .error (errUser "invalid file path %q" [p])
  else if (p.splitOn '/').any fun seg => seg = [] || seg = ['.'] || seg = ['.', '.'] then
    .error (errUser "invalid file path %q" [p])
  else .ok ()

/-! ## Names and segments -/

/-- A directory entry name: not empty, no slash. -/
def ValidName (n : Str) : Prop :=
  n ≠ [] ∧ '/' ∉ n

/-- Nonempty lists of valid names, the addresses of files. -/
def ValidSegs (segs : List Str) : Prop :=
  segs ≠ [] ∧ ∀ n ∈ segs, ValidName n

variable {segs : List Str} {n : Str}

theorem validNames_concat (h : ∀ m ∈ segs, ValidName m) (hn : ValidName n) :
    ∀ m ∈ segs ++ [n], ValidName m := by
  intro m hm
  rcases List.mem_append.mp hm with hm | hm
  · exact h m hm
  · rw [List.mem_singleton.mp hm]
    exact hn

theorem ValidSegs.append_left {ds : List Str} (h : ValidSegs segs) (hds : ∀ m ∈ ds, ValidName m) :
    ValidSegs (ds ++ segs) := by
  refine ⟨by simp [h.1], ?_⟩
  intro m hm
  rcases List.mem_append.mp hm with hm | hm
  · exact hds m hm
  · exact h.2 m hm

theorem pathOf_nil : pathOf [] = [] := rfl

@[simp] theorem pathOf_singleton (n : Str) : pathOf [n] = n :=
  joinWith_singleton '/' n

theorem pathOf_cons (h : segs ≠ []) : pathOf (n :: segs) = n ++ '/' :: pathOf segs :=
  joinWith_cons h

theorem pathOf_concat (h : segs ≠ []) : pathOf (segs ++ [n]) = pathOf segs ++ '/' :: n :=
  joinWith_concat h

theorem pathOf_injective {segs' : List Str} (h : ValidSegs segs) (h' : ValidSegs segs')
    (heq : pathOf segs = pathOf segs') : segs = segs' :=
  joinWith_injective (fun n hn => (h.2 n hn).2) (fun n hn => (h'.2 n hn).2)
    h.1 h'.1 heq

theorem splitOn_pathOf (h : ValidSegs segs) : (pathOf segs).splitOn '/' = segs :=
  splitOn_joinWith (fun n hn => (h.2 n hn).2) h.1

theorem pathOf_head?_ne (h : ∀ n ∈ segs, ValidName n) : (pathOf segs).head? ≠ some '/' := by
  rcases segs with _ | ⟨n, rest⟩
  · simp [pathOf_nil]
  · obtain ⟨hne, hslash⟩ := h n (by simp)
    obtain ⟨c, cs, rfl⟩ := List.exists_cons_of_ne_nil hne
    have hc : c ≠ '/' := by
      rintro rfl
      exact hslash (by simp)
    by_cases hrest : rest = []
    · subst hrest
      simpa using hc
    · rw [pathOf_cons hrest]
      simpa using hc

theorem pathOf_eq_nil_iff (h : ∀ n ∈ segs, ValidName n) : pathOf segs = [] ↔ segs = [] := by
  constructor
  · intro heq
    rcases segs with _ | ⟨n, rest⟩
    · rfl
    · obtain ⟨hne, -⟩ := h n (by simp)
      by_cases hrest : rest = []
      · subst hrest
        exact absurd (by simpa using heq) hne
      · rw [pathOf_cons hrest] at heq
        simp at heq
  · rintro rfl
    rfl

/-- Joined paths of valid names, the empty one included, are different for
different lists. -/
theorem pathOf_inj {segs' : List Str} (h : ∀ n ∈ segs, ValidName n) (h' : ∀ n ∈ segs', ValidName n)
    (heq : pathOf segs = pathOf segs') : segs = segs' := by
  by_cases hs : segs = []
  · subst hs
    exact ((pathOf_eq_nil_iff h').mp heq.symm).symm
  · by_cases hs' : segs' = []
    · subst hs'
      exact (pathOf_eq_nil_iff h).mp heq
    · exact pathOf_injective ⟨hs, h⟩ ⟨hs', h'⟩ heq

theorem dirOf_pathOf_concat (hn : '/' ∉ n) : dirOf (pathOf (segs ++ [n])) = pathOf segs := by
  by_cases h : segs = []
  · subst h
    rw [List.nil_append, pathOf_singleton, dirOf, beforeLast_of_notMem hn, pathOf_nil]
  · rw [pathOf_concat h, dirOf, beforeLast_append_cons hn]

theorem baseOf_pathOf_concat (hn : '/' ∉ n) : baseOf (pathOf (segs ++ [n])) = n := by
  by_cases h : segs = []
  · subst h
    rw [List.nil_append, pathOf_singleton, baseOf, afterLast_of_notMem hn]
  · rw [pathOf_concat h, baseOf, afterLast_append_cons hn]

theorem baseOf_spelled {ss : List Str} {p : Str} (hn : '/' ∉ n)
    (hp : p = pathOf (ss ++ [n]) ∨ p = '/' :: pathOf (ss ++ [n])) : baseOf p = n := by
  rcases hp with rfl | rfl
  · exact baseOf_pathOf_concat hn
  · by_cases hss : ss = []
    · subst hss
      have hsplit : ('/' :: pathOf ([] ++ [n])) = [] ++ '/' :: n := by simp
      rw [hsplit, baseOf, afterLast_append_cons hn]
    · have hsplit : '/' :: pathOf (ss ++ [n]) = ('/' :: pathOf ss) ++ '/' :: n := by
        rw [pathOf_concat hss]
        rfl
      rw [hsplit, baseOf, afterLast_append_cons hn]

theorem baseOf_of_notMem (hn : '/' ∉ n) : baseOf n = n :=
  afterLast_of_notMem hn

variable {d : Str}

theorem baseOf_joinPath (hn : '/' ∉ n) : baseOf (joinPath d n) = n := by
  by_cases h : d = []
  · rw [joinPath, if_pos h, baseOf_of_notMem hn]
  · rw [joinPath, if_neg h, baseOf, afterLast_append_cons hn]

theorem joinPath_pathOf (h : ∀ m ∈ segs, ValidName m) :
    joinPath (pathOf segs) n = pathOf (segs ++ [n]) := by
  by_cases hs : segs = []
  · subst hs
    rw [List.nil_append, pathOf_singleton, joinPath, if_pos pathOf_nil]
  · rw [joinPath, if_neg (by rwa [pathOf_eq_nil_iff h]), pathOf_concat hs]

theorem length_lt_joinPath (hn : n ≠ []) : d.length < (joinPath d n).length := by
  have hpos : 0 < n.length := List.length_pos_of_ne_nil hn
  by_cases h : d = []
  · subst h
    simpa [joinPath] using hpos
  · rw [joinPath, if_neg h, List.length_append, List.length_cons]
    omega

theorem nodeName_joinPath (hn : ValidName n) : nodeName (joinPath d n) = n := by
  have hne : joinPath d n ≠ [] := by
    intro h
    have := length_lt_joinPath (d := d) hn.1
    rw [h] at this
    simp at this
  rw [nodeName, if_neg hne, baseOf_joinPath hn.2]

/-! ## Ancestors and immediate subdirectories -/

theorem mem_addAncestorsFrom {steps : ℕ} {x : Str} (h : d.length < steps) :
    x ∈ addAncestorsFrom steps d ↔ x = d ∨ ∃ r, d = x ++ '/' :: r := by
  induction steps generalizing d with
  | zero => omega
  | succ steps ih =>
      rw [addAncestorsFrom, List.mem_cons]
      rcases notMem_or_eq_append_cons '/' d with hd | ⟨p, n, hn, rfl⟩
      · rw [lastIndex_eq_none hd]
        constructor
        · rintro (rfl | hx)
          · exact Or.inl rfl
          · simp at hx
        · rintro (rfl | ⟨r, rfl⟩)
          · exact Or.inl rfl
          · exact absurd (by simp) hd
      · rw [lastIndex_append_cons hn]
        simp only [List.take_left]
        rw [ih (by simp at h; omega)]
        constructor
        · rintro (rfl | rfl | ⟨r, rfl⟩)
          · exact Or.inl rfl
          · exact Or.inr ⟨n, rfl⟩
          · exact Or.inr ⟨r ++ '/' :: n, by simp⟩
        · rintro (rfl | ⟨r, hr⟩)
          · exact Or.inl rfl
          · refine Or.inr ?_
            -- the last slash of `p ++ '/' :: n` is not after the one before `r`
            rcases List.append_eq_append_iff.mp hr with ⟨a, rfl, ha⟩ | ⟨b, rfl, hb⟩
            · rcases a with _ | ⟨c, a⟩
              · exact Or.inl (by simp)
              · obtain ⟨rfl, rfl⟩ := List.cons.inj ha
                exact absurd (by simp) hn
            · rcases b with _ | ⟨c, b⟩
              · exact Or.inl (by simp)
              · obtain ⟨rfl, rfl⟩ := List.cons.inj hb
                exact Or.inr ⟨b, rfl⟩

theorem mem_addAncestors {x : Str} : x ∈ addAncestors d ↔ x = d ∨ ∃ r, d = x ++ '/' :: r :=
  mem_addAncestorsFrom (Nat.lt_succ_self _)

theorem mem_immediateSubdirs {dirs : List Str} :
    n ∈ immediateSubdirs dirs d ↔ ValidName n ∧ joinPath d n ∈ dirs := by
  rw [immediateSubdirs, List.mem_insertionSort, List.mem_dedup, List.mem_filterMap]
  have hjoin : ∀ x, joinPath d x = (if d = [] then [] else d ++ ['/']) ++ x := by
    intro x
    by_cases h : d = []
    · simp [joinPath, h]
    · simp [joinPath, h]
  constructor
  · rintro ⟨x, hx, hsome⟩
    generalize (if d = [] then [] else d ++ ['/']) = pre at hsome hjoin
    by_cases hpre : pre.isPrefixOf x
    · rw [if_pos hpre] at hsome
      obtain ⟨rest, rfl⟩ := List.isPrefixOf_iff_prefix.mp hpre
      simp only [trimPrefix, if_pos hpre, List.drop_left] at hsome
      by_cases hrest : rest = [] ∨ '/' ∈ rest
      · rw [if_pos hrest] at hsome
        simp at hsome
      · rw [if_neg hrest] at hsome
        obtain rfl := Option.some.inj hsome
        exact ⟨not_or.mp hrest, by rwa [hjoin]⟩
    · rw [if_neg hpre] at hsome
      simp at hsome
  · rintro ⟨⟨hne, hslash⟩, hmem⟩
    refine ⟨joinPath d n, hmem, ?_⟩
    have hpre : (if d = [] then [] else d ++ ['/']).isPrefixOf (joinPath d n) := by
      rw [hjoin, List.isPrefixOf_iff_prefix]
      exact List.prefix_append _ _
    rw [if_pos hpre]
    simp only [trimPrefix, if_pos hpre]
    rw [hjoin, List.drop_left, if_neg (not_or.mpr ⟨hne, hslash⟩)]

theorem immediateSubdirs_nodup (dirs : List Str) (d : Str) :
    (immediateSubdirs dirs d).Nodup := by
  rw [immediateSubdirs]
  exact ((List.perm_insertionSort _ _).nodup_iff).mpr (List.nodup_dedup _)

/-! ## Accepted paths -/

/-- A path that spells an address: valid names joined, after at most one
slash. -/
def Spelled (p : Str) : Prop :=
  ∃ segs, ValidSegs segs ∧ (p = pathOf segs ∨ p = '/' :: pathOf segs)

theorem spelled_of_validateRepoPath {p : Str} (h : validateRepoPath p = .ok ()) :
    Spelled p := by
  rw [validateRepoPath] at h
  generalize hq : trimPrefix p ['/'] = q at h
  split at h
  · simp at h
  next hne =>
    split at h
    · simp at h
    next hslash =>
      split at h
      · simp at h
      next hsegs =>
        refine ⟨q.splitOn '/', ⟨List.splitOn_ne_nil '/' q, ?_⟩, ?_⟩
        · intro n hn
          refine ⟨?_, notMem_of_mem_splitOn hn⟩
          rintro rfl
          apply hsegs
          rw [List.any_eq_true]
          exact ⟨[], hn, by simp⟩
        · rw [pathOf, joinWith_splitOn, ← hq, trimPrefix]
          split
          next hpre =>
            obtain ⟨r, rfl⟩ := List.isPrefixOf_iff_prefix.mp hpre
            exact Or.inr (by simp)
          · exact Or.inl rfl

end Nipa
