import Nipa.Diff

/-!
# The three-way merge of file sets

Three flattened trees are merged path by path: a path only one side changed
takes that side's file, a path both sides changed is merged as text or is a
conflict.  Files are equal when content hash and mode match.  The server and
the client run the same engine, each on the trees it has loaded.
-/

namespace Nipa

open Support Diff

namespace Merge

inductive Decision where
  | keepOurs
  | keepTheirs
  | textMerge
  | binaryConflict
  | addAddConflict
  | modifyDeleteConflict
  | deleteModifyConflict
  deriving DecidableEq

/-- The decision at one path with the three versions it was made from. -/
structure Decided (H : Type) where
  decision : Decision
  base : Entry H
  ours : Entry H
  theirs : Entry H
  deriving DecidableEq

structure Conflict (H : Type) where
  path : Str
  kind : Decision
  base : Entry H
  ours : Entry H
  theirs : Entry H
  deriving DecidableEq

structure Result (H : Type) where
  entries : GoMap (Decided H)
  deleted : List Str
  conflicts : List (Conflict H)

namespace Result

variable {H : Type}

def empty : Result H := ⟨∅, [], []⟩

def entry (r : Result H) (d : Decision) (path : Str) (b o t : Entry H) : Result H :=
  { r with entries := r.entries.insert path ⟨d, b, o, t⟩ }

def delete (r : Result H) (path : Str) : Result H :=
  { r with deleted := r.deleted ++ [path] }

def conflict (r : Result H) (kind : Decision) (path : Str) (b o t : Entry H) : Result H :=
  { r with
    entries := r.entries.insert path ⟨kind, b, o, t⟩
    conflicts := r.conflicts ++ [⟨path, kind, b, o, t⟩] }

end Result

variable {H : Type}

/-- Every path of the three trees, once, in order. -/
def mergePaths (base ours theirs : GoMap (Entry H)) : List Str :=
  ((base.keys ++ ours.keys ++ theirs.keys).dedup).insertionSort (· ≤ ·)

theorem mem_mergePaths {base ours theirs : GoMap (Entry H)} {p : Str} :
    p ∈ mergePaths base ours theirs ↔
      (base.lookup p).isSome ∨ (ours.lookup p).isSome ∨ (theirs.lookup p).isSome := by
  simp only [mergePaths, List.mem_insertionSort, List.mem_dedup, List.mem_append,
    AList.lookup_isSome, AList.mem_keys]
  tauto

theorem mergePaths_nodup (base ours theirs : GoMap (Entry H)) :
    (mergePaths base ours theirs).Nodup :=
  (List.perm_insertionSort _ _).nodup_iff.mpr (List.nodup_dedup _)

theorem lookup_of_notMem_mergePaths {base ours theirs : GoMap (Entry H)} {p : Str}
    (h : p ∉ mergePaths base ours theirs) :
    base.lookup p = none ∧ ours.lookup p = none ∧ theirs.lookup p = none := by
  rw [mem_mergePaths, not_or, not_or] at h
  simpa using h

section Engine

variable [DecidableEq H]

def sameFile (a b : Entry H) : Bool :=
  a.hash = b.hash && a.mode = b.mode

variable [HashScheme H]

/-- One path of the merge. -/
def mergePath (base ours theirs : GoMap (Entry H)) (r : Result H) (p : Str) : Result H :=
  match base.lookup p, ours.lookup p, theirs.lookup p with
  | some b, some o, some t =>
      if sameFile o b && sameFile t b then r
      else if sameFile o t then r.entry .keepOurs p b o t
      else if sameFile o b then r.entry .keepTheirs p b o t
      else if sameFile t b then r.entry .keepOurs p b o t
      else if o.isBinary || t.isBinary then r.conflict .binaryConflict p b o t
      else r.entry .textMerge p b o t
  | some b, some o, none =>
      if sameFile o b then r.delete p else r.conflict .modifyDeleteConflict p b o zeroEntry
  | some b, none, some t =>
      if sameFile t b then r.delete p else r.conflict .deleteModifyConflict p b zeroEntry t
  | some _, none, none => r.delete p
  | none, some o, some t =>
      if sameFile o t then r.entry .keepOurs p zeroEntry o t
      else r.conflict .addAddConflict p zeroEntry o t
  | none, some o, none => r.entry .keepOurs p zeroEntry o zeroEntry
  | none, none, some t => r.entry .keepTheirs p zeroEntry zeroEntry t
  | none, none, none => r

def threeWay (base ours theirs : GoMap (Entry H)) : Result H :=
  (mergePaths base ours theirs).foldl (mergePath base ours theirs) Result.empty

end Engine

/-! ## What the merge says about a path -/

/-- The outcome at a path: nothing to do, a decision that is no conflict, a
deletion, or a conflict. -/
inductive Outcome (H : Type) where
  | unchanged
  | taken (d : Decided H)
  | deleted
  | conflict (d : Decided H)
  deriving DecidableEq

namespace Outcome

/-- What the outcome leaves in the table of decisions. -/
def decided? : Outcome H → Option (Decided H)
  | taken d => some d
  | conflict d => some d
  | unchanged => none
  | deleted => none

end Outcome

/-- Record an outcome. -/
def Result.record (r : Result H) (p : Str) : Outcome H → Result H
  | .unchanged => r
  | .taken d => r.entry d.decision p d.base d.ours d.theirs
  | .deleted => r.delete p
  | .conflict d => r.conflict d.decision p d.base d.ours d.theirs

theorem Result.record_entries (r : Result H) (p q : Str) (o : Outcome H) :
    (r.record p o).entries.lookup q =
      if q = p then o.decided?.or (r.entries.lookup q) else r.entries.lookup q := by
  rcases o with _ | d | _ | d
  · simp [record, Outcome.decided?]
  · simp only [record, entry, Outcome.decided?, Option.some_or]
    exact GoMap.lookup_insert_eq _ _ _ _
  · simp [record, delete, Outcome.decided?]
  · simp only [record, conflict, Outcome.decided?, Option.some_or]
    exact GoMap.lookup_insert_eq _ _ _ _

theorem Result.mem_record_deleted {r : Result H} {p q : Str} {o : Outcome H} :
    q ∈ (r.record p o).deleted ↔ q ∈ r.deleted ∨ (q = p ∧ o = .deleted) := by
  rcases o with _ | d | _ | d <;> simp [record, entry, delete, conflict]

theorem Result.mem_record_conflicts {r : Result H} {p : Str} {o : Outcome H}
    {c : Conflict H} :
    c ∈ (r.record p o).conflicts ↔ c ∈ r.conflicts ∨
      ∃ d, o = .conflict d ∧ c = ⟨p, d.decision, d.base, d.ours, d.theirs⟩ := by
  rcases o with _ | d | _ | d <;> simp [record, entry, delete, conflict]

section Outcomes

variable [DecidableEq H] [HashScheme H]

def outcomeAt : Option (Entry H) → Option (Entry H) → Option (Entry H) → Outcome H
  | some b, some o, some t =>
      if sameFile o b && sameFile t b then .unchanged
      else if sameFile o t then .taken ⟨.keepOurs, b, o, t⟩
      else if sameFile o b then .taken ⟨.keepTheirs, b, o, t⟩
      else if sameFile t b then .taken ⟨.keepOurs, b, o, t⟩
      else if o.isBinary || t.isBinary then .conflict ⟨.binaryConflict, b, o, t⟩
      else .taken ⟨.textMerge, b, o, t⟩
  | some b, some o, none =>
      if sameFile o b then .deleted else .conflict ⟨.modifyDeleteConflict, b, o, zeroEntry⟩
  | some b, none, some t =>
      if sameFile t b then .deleted else .conflict ⟨.deleteModifyConflict, b, zeroEntry, t⟩
  | some _, none, none => .deleted
  | none, some o, some t =>
      if sameFile o t then .taken ⟨.keepOurs, zeroEntry, o, t⟩
      else .conflict ⟨.addAddConflict, zeroEntry, o, t⟩
  | none, some o, none => .taken ⟨.keepOurs, zeroEntry, o, zeroEntry⟩
  | none, none, some t => .taken ⟨.keepTheirs, zeroEntry, zeroEntry, t⟩
  | none, none, none => .unchanged

theorem mergePath_eq (base ours theirs : GoMap (Entry H)) (r : Result H) (p : Str) :
    mergePath base ours theirs r p =
      r.record p (outcomeAt (base.lookup p) (ours.lookup p) (theirs.lookup p)) := by
  rw [mergePath]
  rcases base.lookup p with _ | b <;> rcases ours.lookup p with _ | o <;>
    rcases theirs.lookup p with _ | t <;> simp only [outcomeAt] <;>
    repeat' split
  all_goals rfl

theorem foldl_mergePath (base ours theirs : GoMap (Entry H)) {l : List Str} (hl : l.Nodup)
    (r : Result H) (p : Str) :
    ((l.foldl (mergePath base ours theirs) r).entries.lookup p =
      if p ∈ l then (outcomeAt (base.lookup p) (ours.lookup p) (theirs.lookup p)).decided?.or
        (r.entries.lookup p) else r.entries.lookup p) ∧
    (p ∈ (l.foldl (mergePath base ours theirs) r).deleted ↔ p ∈ r.deleted ∨
      (p ∈ l ∧ outcomeAt (base.lookup p) (ours.lookup p) (theirs.lookup p) = .deleted)) ∧
    ∀ c, c ∈ (l.foldl (mergePath base ours theirs) r).conflicts ↔ c ∈ r.conflicts ∨
      ∃ d, c.path ∈ l ∧
        outcomeAt (base.lookup c.path) (ours.lookup c.path) (theirs.lookup c.path) =
          .conflict d ∧ c = ⟨c.path, d.decision, d.base, d.ours, d.theirs⟩ := by
  induction l generalizing r with
  | nil => simp
  | cons q l ih =>
      obtain ⟨hq, hl⟩ := List.nodup_cons.mp hl
      obtain ⟨hentries, hdeleted, hconflicts⟩ := ih hl (mergePath base ours theirs r q)
      rw [List.foldl_cons]
      refine ⟨?_, ?_, ?_⟩
      · rw [hentries, mergePath_eq, Result.record_entries]
        by_cases hpq : p = q
        · subst hpq
          rw [if_neg hq, if_pos rfl, if_pos List.mem_cons_self]
        · rw [if_neg hpq]
          simp only [List.mem_cons, hpq, false_or]
      · rw [hdeleted, mergePath_eq, Result.mem_record_deleted, List.mem_cons]
        constructor
        · rintro ((h | ⟨rfl, h⟩) | ⟨hmem, h⟩)
          · exact Or.inl h
          · exact Or.inr ⟨Or.inl rfl, h⟩
          · exact Or.inr ⟨Or.inr hmem, h⟩
        · rintro (h | ⟨rfl | hmem, h⟩)
          · exact Or.inl (Or.inl h)
          · exact Or.inl (Or.inr ⟨rfl, h⟩)
          · exact Or.inr ⟨hmem, h⟩
      · intro c
        rw [hconflicts, mergePath_eq, Result.mem_record_conflicts]
        constructor
        · rintro ((h | ⟨d, h, rfl⟩) | ⟨d, hmem, h⟩)
          · exact Or.inl h
          · exact Or.inr ⟨d, List.mem_cons_self, h, rfl⟩
          · exact Or.inr ⟨d, List.mem_cons_of_mem _ hmem, h⟩
        · rintro (h | ⟨d, hmem, h, heq⟩)
          · exact Or.inl (Or.inl h)
          · rcases List.mem_cons.mp hmem with hcq | hmem
            · rw [hcq] at h heq
              exact Or.inl (Or.inr ⟨d, h, heq⟩)
            · exact Or.inr ⟨d, hmem, h, heq⟩

theorem outcomeAt_none : outcomeAt (none : Option (Entry H)) none none = .unchanged := rfl

theorem threeWay_entries (base ours theirs : GoMap (Entry H)) (p : Str) :
    (threeWay base ours theirs).entries.lookup p =
      (outcomeAt (base.lookup p) (ours.lookup p) (theirs.lookup p)).decided? := by
  have h := (foldl_mergePath base ours theirs (mergePaths_nodup base ours theirs)
    Result.empty p).1
  rw [threeWay, h]
  have hempty : (Result.empty : Result H).entries.lookup p = none := rfl
  rw [hempty]
  split
  · exact Option.or_none
  next hp =>
    obtain ⟨hb, ho, ht⟩ := lookup_of_notMem_mergePaths hp
    rw [hb, ho, ht]
    rfl

theorem mem_threeWay_deleted {base ours theirs : GoMap (Entry H)} {p : Str} :
    p ∈ (threeWay base ours theirs).deleted ↔
      outcomeAt (base.lookup p) (ours.lookup p) (theirs.lookup p) = .deleted := by
  have h := (foldl_mergePath base ours theirs (mergePaths_nodup base ours theirs)
    Result.empty p).2.1
  rw [threeWay, h]
  constructor
  · rintro (h | ⟨-, h⟩)
    · simp [Result.empty] at h
    · exact h
  · intro hout
    refine Or.inr ⟨?_, hout⟩
    by_contra hp
    obtain ⟨hb, ho, ht⟩ := lookup_of_notMem_mergePaths hp
    rw [hb, ho, ht, outcomeAt_none] at hout
    exact absurd hout (by simp)

theorem outcomeAt_ne_conflict {base ours theirs : GoMap (Entry H)}
    (h : (threeWay base ours theirs).conflicts = []) (p : Str) (d : Decided H) :
    outcomeAt (base.lookup p) (ours.lookup p) (theirs.lookup p) ≠ .conflict d := by
  intro hout
  have hiff := (foldl_mergePath base ours theirs (mergePaths_nodup base ours theirs)
    Result.empty p).2.2 ⟨p, d.decision, d.base, d.ours, d.theirs⟩
  have hmem : (⟨p, d.decision, d.base, d.ours, d.theirs⟩ : Conflict H) ∈
      (threeWay base ours theirs).conflicts := by
    rw [threeWay, hiff]
    refine Or.inr ⟨d, ?_, hout, rfl⟩
    by_contra hp
    obtain ⟨hb, ho, ht⟩ := lookup_of_notMem_mergePaths hp
    rw [hb, ho, ht, outcomeAt_none] at hout
    exact absurd hout (by simp)
  rw [h] at hmem
  simp at hmem

end Outcomes

end Merge

end Nipa
