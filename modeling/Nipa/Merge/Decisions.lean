import Nipa.Merge.ThreeWay

/-!
# What a three-way merge decides about a path

A path has a version on each of the three sides: absent, or a file known by
its content hash and mode.  The merge is described by which of the three
versions agree: it takes the only change there is, keeps a change both sides
made, and otherwise merges two texts or reports a conflict.  The description
does not prefer a side, and neither does the merge.
-/

namespace Nipa

open Support Diff

namespace Merge

variable {H : Type}

/-! ## Versions -/

/-- What tells two versions of a path apart: presence, content hash and mode. -/
def version (e : Option (Entry H)) :=
  e.map fun e => (e.hash, e.mode)

/-- Both sides have the path and neither side's file is binary. -/
def BothText : Option (Entry H) → Option (Entry H) → Prop
  | some o, some t => o.isBinary = false ∧ t.isBinary = false
  | _, _ => False

section SameFile

variable [DecidableEq H]

theorem sameFile_iff {a b : Entry H} :
    sameFile a b = true ↔ version (some a) = version (some b) := by
  simp [sameFile, version]

end SameFile

/-! ## Taking a side -/

/-- The merge keeps our version of a path: our file, or none. -/
def TakesOurs (r : Result H) (p : Str) : Option (Entry H) → Prop
  | some o => ∃ d, r.entries.lookup p = some d ∧ d.decision = .keepOurs ∧ d.ours = o
  | none => p ∈ r.deleted

/-- The merge keeps their version of a path: their file, or none. -/
def TakesTheirs (r : Result H) (p : Str) : Option (Entry H) → Prop
  | some t => ∃ d, r.entries.lookup p = some d ∧ d.decision = .keepTheirs ∧ d.theirs = t
  | none => p ∈ r.deleted

/-- What the versions of a path decide about it in the result of a merge. -/
structure DecidesByVersion (base ours theirs : GoMap (Entry H)) (r : Result H) : Prop where
  /-- No path is both an entry and a deletion. -/
  exclusive : ∀ p, ¬((r.entries.lookup p).isSome ∧ p ∈ r.deleted)
  /-- A path of the union is neither exactly when it is unchanged everywhere. -/
  neither_iff : ∀ p,
    (base.lookup p).isSome ∨ (ours.lookup p).isSome ∨ (theirs.lookup p).isSome →
    (r.entries.lookup p = none ∧ p ∉ r.deleted ↔
      (base.lookup p).isSome ∧ version (ours.lookup p) = version (base.lookup p) ∧
        version (theirs.lookup p) = version (base.lookup p))
  /-- A change of ours alone, or of both sides alike, is kept. -/
  takesOurs : ∀ p, version (ours.lookup p) ≠ version (base.lookup p) →
    version (theirs.lookup p) = version (base.lookup p) ∨
      version (theirs.lookup p) = version (ours.lookup p) →
    TakesOurs r p (ours.lookup p)
  /-- A change of theirs alone is kept. -/
  takesTheirs : ∀ p, version (theirs.lookup p) ≠ version (base.lookup p) →
    version (ours.lookup p) = version (base.lookup p) →
    TakesTheirs r p (theirs.lookup p)
  /-- Different changes of two texts with a common base are merged as text. -/
  textMerge : ∀ p, (base.lookup p).isSome → BothText (ours.lookup p) (theirs.lookup p) →
    version (ours.lookup p) ≠ version (base.lookup p) →
    version (theirs.lookup p) ≠ version (base.lookup p) →
    version (ours.lookup p) ≠ version (theirs.lookup p) →
    ∃ d, r.entries.lookup p = some d ∧ d.decision = .textMerge
  /-- Every other path with different changes is a conflict, and no path else. -/
  conflict_iff : ∀ p, (∃ c ∈ r.conflicts, c.path = p) ↔
    version (ours.lookup p) ≠ version (base.lookup p) ∧
      version (theirs.lookup p) ≠ version (base.lookup p) ∧
      version (ours.lookup p) ≠ version (theirs.lookup p) ∧
      ¬((base.lookup p).isSome ∧ BothText (ours.lookup p) (theirs.lookup p))

/-! ## Mirrors -/

def Decision.mirror : Decision → Decision
  | .keepOurs => .keepTheirs
  | .keepTheirs => .keepOurs
  | .modifyDeleteConflict => .deleteModifyConflict
  | .deleteModifyConflict => .modifyDeleteConflict
  | d => d

namespace Decided

/-- The same decision with the two sides in the other order. -/
def exchange (d : Decided H) : Decided H :=
  ⟨d.decision, d.base, d.theirs, d.ours⟩

/-- The decision as the other side sees it. -/
def mirror (d : Decided H) : Decided H :=
  ⟨d.decision.mirror, d.base, d.theirs, d.ours⟩

end Decided

def Conflict.mirror (c : Conflict H) : Conflict H :=
  ⟨c.path, c.kind.mirror, c.base, c.theirs, c.ours⟩

namespace Outcome

def isConflict : Outcome H → Bool
  | conflict _ => true
  | _ => false

def exchange : Outcome H → Outcome H
  | taken d => taken d.exchange
  | conflict d => conflict d.exchange
  | unchanged => unchanged
  | deleted => deleted

def mirror : Outcome H → Outcome H
  | taken d => taken d.mirror
  | conflict d => conflict d.mirror
  | unchanged => unchanged
  | deleted => deleted

theorem decided?_exchange (o : Outcome H) :
    o.exchange.decided? = o.decided?.map Decided.exchange := by
  cases o <;> rfl

theorem decided?_mirror (o : Outcome H) :
    o.mirror.decided? = o.decided?.map Decided.mirror := by
  cases o <;> rfl

end Outcome

/-! ## The decision at one path -/

section Decisions

variable [DecidableEq H] [HashScheme H]

variable {b o t : Option (Entry H)}

theorem outcomeAt_eq_unchanged_iff (h : b.isSome ∨ o.isSome ∨ t.isSome) :
    outcomeAt b o t = .unchanged ↔
      b.isSome ∧ version o = version b ∧ version t = version b := by
  cases b <;> cases o <;> cases t <;> grind [outcomeAt, version, sameFile_iff]

theorem outcomeAt_ours (ho : version o ≠ version b)
    (ht : version t = version b ∨ version t = version o) :
    outcomeAt b o t =
      o.elim .deleted fun e => .taken ⟨.keepOurs, b.getD zeroEntry, e, t.getD zeroEntry⟩ := by
  cases b <;> cases o <;> cases t <;> grind [outcomeAt, version, sameFile_iff]

theorem outcomeAt_theirs (ht : version t ≠ version b) (ho : version o = version b) :
    outcomeAt b o t =
      t.elim .deleted fun e => .taken ⟨.keepTheirs, b.getD zeroEntry, o.getD zeroEntry, e⟩ := by
  cases b <;> cases o <;> cases t <;> grind [outcomeAt, version, sameFile_iff]

theorem outcomeAt_text {b : Entry H} (ho : version o ≠ version (some b))
    (ht : version t ≠ version (some b)) (hot : version o ≠ version t) (htext : BothText o t) :
    outcomeAt (some b) o t =
      .taken ⟨.textMerge, b, o.getD zeroEntry, t.getD zeroEntry⟩ := by
  cases o <;> cases t <;> grind [outcomeAt, version, sameFile_iff, BothText]

/-- There is a conflict exactly where both sides made different changes that
are not two texts with a common base. -/
theorem outcomeAt_isConflict_iff :
    (outcomeAt b o t).isConflict = true ↔
      version o ≠ version b ∧ version t ≠ version b ∧ version o ≠ version t ∧
        ¬(b.isSome ∧ BothText o t) := by
  cases b <;> cases o <;> cases t <;>
    grind [outcomeAt, version, sameFile_iff, BothText, Outcome.isConflict]

theorem outcomeAt_swap (b o t : Option (Entry H)) :
    outcomeAt b t o =
      if version o = version t then (outcomeAt b o t).exchange
      else (outcomeAt b o t).mirror := by
  cases b <;> cases o <;> cases t <;>
    grind [outcomeAt, version, sameFile_iff, Outcome.exchange, Outcome.mirror,
      Decided.exchange, Decided.mirror, Decision.mirror]

/-! ## The whole result -/

omit [DecidableEq H] [HashScheme H] in
theorem mergePaths_comm (base ours theirs : GoMap (Entry H)) :
    mergePaths base theirs ours = mergePaths base ours theirs := by
  apply insertionSort_eq_of_perm
  rw [List.perm_ext_iff_of_nodup (List.nodup_dedup _) (List.nodup_dedup _)]
  intro p
  simp only [List.mem_dedup, List.mem_append]
  tauto

/-- Deletions and conflicts of a merge with the sides exchanged. -/
structure Result.Mirrors (r r' : Result H) : Prop where
  deleted : r'.deleted = r.deleted
  conflicts : r'.conflicts = r.conflicts.map Conflict.mirror

theorem Result.Mirrors.mergePath {base ours theirs : GoMap (Entry H)} {r r' : Result H}
    (h : r.Mirrors r') (p : Str) :
    (mergePath base ours theirs r p).Mirrors (Merge.mergePath base theirs ours r' p) := by
  rw [mergePath_eq, mergePath_eq, outcomeAt_swap (base.lookup p) (ours.lookup p)]
  have hsame : version (ours.lookup p) = version (theirs.lookup p) →
      (outcomeAt (base.lookup p) (ours.lookup p) (theirs.lookup p)).isConflict = false := by
    intro heq
    rw [← Bool.not_eq_true, outcomeAt_isConflict_iff]
    exact fun hconflict => hconflict.2.2.1 heq
  generalize outcomeAt (base.lookup p) (ours.lookup p) (theirs.lookup p) = o at hsame ⊢
  obtain ⟨hdeleted, hconflicts⟩ := h
  split
  next heq =>
    cases o with
    | conflict d => exact absurd (hsame heq) (by simp [Outcome.isConflict])
    | unchanged | taken | deleted =>
        constructor <;> simp_all [record, entry, delete, Outcome.exchange]
  next =>
    cases o <;>
      constructor <;>
      simp_all [record, entry, delete, conflict, Outcome.mirror, Decided.mirror, Conflict.mirror]

theorem threeWay_mirrors (base ours theirs : GoMap (Entry H)) :
    (threeWay base ours theirs).Mirrors (threeWay base theirs ours) := by
  rw [threeWay, threeWay, mergePaths_comm]
  have hrun : ∀ (l : List Str) (r r' : Result H), r.Mirrors r' →
      (l.foldl (mergePath base ours theirs) r).Mirrors
        (l.foldl (mergePath base theirs ours) r') := by
    intro l
    induction l with
    | nil => exact fun r r' h => h
    | cons p l ih => exact fun r r' h => ih _ _ (h.mergePath p)
  exact hrun _ _ _ ⟨rfl, rfl⟩

theorem mem_threeWay_conflicts {base ours theirs : GoMap (Entry H)} {p : Str} :
    (∃ c ∈ (threeWay base ours theirs).conflicts, c.path = p) ↔
      (outcomeAt (base.lookup p) (ours.lookup p) (theirs.lookup p)).isConflict = true := by
  have hiff := (foldl_mergePath base ours theirs (mergePaths_nodup base ours theirs)
    Result.empty p).2.2
  constructor
  · rintro ⟨c, hc, rfl⟩
    rcases (hiff c).mp hc with hempty | ⟨d, -, hout, -⟩
    · simp [Result.empty] at hempty
    · rw [hout]
      rfl
  · intro hconflict
    have hp : p ∈ mergePaths base ours theirs := by
      by_contra hp
      obtain ⟨hb, ho, ht⟩ := lookup_of_notMem_mergePaths hp
      rw [hb, ho, ht, outcomeAt_none] at hconflict
      exact absurd hconflict (by simp [Outcome.isConflict])
    cases hout : outcomeAt (base.lookup p) (ours.lookup p) (theirs.lookup p) with
    | conflict d =>
        exact ⟨⟨p, d.decision, d.base, d.ours, d.theirs⟩,
          (hiff _).mpr (Or.inr ⟨d, hp, hout, rfl⟩), rfl⟩
    | unchanged | taken | deleted =>
        rw [hout] at hconflict
        exact absurd hconflict (by simp [Outcome.isConflict])

theorem threeWay_entries_swap (base ours theirs : GoMap (Entry H)) (p : Str) :
    (threeWay base theirs ours).entries.lookup p =
      ((threeWay base ours theirs).entries.lookup p).map
        (if version (ours.lookup p) = version (theirs.lookup p) then Decided.exchange
          else Decided.mirror) := by
  rw [threeWay_entries, threeWay_entries, outcomeAt_swap (base.lookup p) (ours.lookup p)]
  split
  · exact Outcome.decided?_exchange _
  · exact Outcome.decided?_mirror _

/-- The merge of three file maps decides every path by its three versions, and
its decisions with the sides exchanged are the mirrored ones. -/
theorem three_way_decides (base ours theirs : GoMap (Entry H)) :
    DecidesByVersion base ours theirs (threeWay base ours theirs) ∧
    (threeWay base ours theirs).Mirrors (threeWay base theirs ours) ∧
    ∀ p, (threeWay base theirs ours).entries.lookup p =
      ((threeWay base ours theirs).entries.lookup p).map
        (if version (ours.lookup p) = version (theirs.lookup p) then Decided.exchange
          else Decided.mirror) := by
  refine ⟨?_, threeWay_mirrors base ours theirs, threeWay_entries_swap base ours theirs⟩
  constructor
  case exclusive =>
      intro p
      rw [threeWay_entries, mem_threeWay_deleted]
      cases outcomeAt (base.lookup p) (ours.lookup p) (theirs.lookup p) <;>
        simp [Outcome.decided?]
  case neither_iff =>
      intro p hp
      rw [threeWay_entries, mem_threeWay_deleted, ← outcomeAt_eq_unchanged_iff hp]
      cases outcomeAt (base.lookup p) (ours.lookup p) (theirs.lookup p) <;>
        simp [Outcome.decided?]
  case takesOurs =>
      intro p ho ht
      have hentry := threeWay_entries base ours theirs p
      have hdeleted := @mem_threeWay_deleted _ _ _ base ours theirs p
      rw [outcomeAt_ours ho ht] at hentry hdeleted
      cases hours : ours.lookup p with
      | none => exact hdeleted.mpr (by rw [hours]; rfl)
      | some o =>
          rw [hours] at hentry
          exact ⟨_, hentry, rfl, rfl⟩
  case takesTheirs =>
      intro p ht ho
      have hentry := threeWay_entries base ours theirs p
      have hdeleted := @mem_threeWay_deleted _ _ _ base ours theirs p
      rw [outcomeAt_theirs ht ho] at hentry hdeleted
      cases htheirs : theirs.lookup p with
      | none => exact hdeleted.mpr (by rw [htheirs]; rfl)
      | some t =>
          rw [htheirs] at hentry
          exact ⟨_, hentry, rfl, rfl⟩
  case textMerge =>
      intro p hb htext ho ht hot
      obtain ⟨b, hb⟩ := Option.isSome_iff_exists.mp hb
      rw [hb] at ho ht
      have hentry := threeWay_entries base ours theirs p
      rw [hb, outcomeAt_text ho ht hot htext] at hentry
      exact ⟨_, hentry, rfl⟩
  case conflict_iff =>
      intro p
      rw [mem_threeWay_conflicts, outcomeAt_isConflict_iff]

end Decisions

end Merge

end Nipa
