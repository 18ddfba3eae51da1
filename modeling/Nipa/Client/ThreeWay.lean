import Nipa.Client.WorkingCopy
import Nipa.Merge.ThreeWay

/-!
# Applying a three-way merge to the working copy

The client decides a merge path by path with the same engine as the server and
carries the decisions out on disk: taken and merged files are written, files
the merge deletes are removed when they still have their tracked content, and
both are staged.  Conflicts are recorded; a text conflict leaves the merged
file with markers on disk and staged, the others leave the disk alone.
-/

namespace Nipa.Client

open Support Merge

inductive ConflictKind where
  | text
  | binary
  | addAdd
  | modifyDelete
  | deleteModify
  deriving DecidableEq

structure ThreeWayResult (H : Type) where
  files : GoMap (Entry H)
  staged : List Str
  deleted : List Str
  conflicted : List Str
  kinds : GoMap ConflictKind
  binary : List Str

/-- What a decision comes to at its path. -/
structure EntryEffect (H : Type) where
  write : Option WorkFile
  file : Option (Entry H)
  staged : Bool
  conflict : Option (ConflictKind × Bool)

section Apply

variable {H : Type} [HashScheme H]

def encodeMergedFile (codec : Codec H) (path : Str) (data : List UInt8) (mode : ℕ)
    (isBinary : Bool) : Entry H :=
  let probeBinary := codec.isBinary data
  let encoded := codec.encode path probeBinary [] data
  ⟨path, mode, data.length, isBinary || probeBinary, encoded.1,
    fileHash (encoded.2.map Chunk.hash), encoded.2.map Chunk.hash,
    encoded.2.map Chunk.sizeBytes⟩

/-- Carry out one decision. -/
def entryEffect (codec : Codec H) (p : Str) (e : Decided H) :
    Except DomainError (EntryEffect H) :=
  match e.decision with
  | .keepOurs => .ok ⟨none, some e.ours, false, none⟩
  | .keepTheirs => do
      let w ← materializedFile codec e.theirs
      return ⟨some w, some e.theirs, true, none⟩
  | .textMerge => do
      let base ← loadFileContent codec e.base.encoding e.base.chunkHashes
      let ours ← loadFileContent codec e.ours.encoding e.ours.chunkHashes
      let theirs ← loadFileContent codec e.theirs.encoding e.theirs.chunkHashes
      let (merged, wasConflict) := codec.mergeText base ours theirs
      let file := encodeMergedFile codec p merged e.ours.mode
        (e.ours.isBinary || e.theirs.isBinary)
      let w ← materializedFile codec file
      return ⟨some w, some file, true, if wasConflict then some (.text, false) else none⟩
  | .binaryConflict => .ok ⟨none, some e.ours, false, some (.binary, true)⟩
  | .addAddConflict =>
      .ok ⟨none, some e.ours, false, some (.addAdd, e.ours.isBinary || e.theirs.isBinary)⟩
  | .modifyDeleteConflict =>
      .ok ⟨none, some e.ours, false, some (.modifyDelete, e.ours.isBinary)⟩
  | .deleteModifyConflict =>
      .ok ⟨none, none, false, some (.deleteModify, e.theirs.isBinary)⟩

/-- Set a key when there is a value for it. -/
def insertOpt {V : Type} (m : GoMap V) (p : Str) : Option V → GoMap V
  | none => m
  | some v => m.insert p v

def ThreeWayResult.add (out : ThreeWayResult H) (p : Str) (eff : EntryEffect H) :
    ThreeWayResult H where
  files := insertOpt out.files p eff.file
  staged := if eff.staged then out.staged ++ [p] else out.staged
  deleted := out.deleted
  conflicted := if eff.conflict.isSome then out.conflicted ++ [p] else out.conflicted
  kinds := insertOpt out.kinds p (eff.conflict.map Prod.fst)
  binary := if eff.conflict.any Prod.snd then out.binary ++ [p] else out.binary

def ThreeWayResult.delete (out : ThreeWayResult H) (p : Str) (removed : Bool) :
    ThreeWayResult H where
  files := out.files.erase p
  staged := if removed then out.staged ++ [p] else out.staged
  deleted := if removed then out.deleted ++ [p] else out.deleted
  conflicted := out.conflicted
  kinds := out.kinds
  binary := out.binary

def applyEntry (codec : Codec H) (acc : Disk × ThreeWayResult H) (p : Str) (e : Decided H) :
    Except DomainError (Disk × ThreeWayResult H) := do
  let eff ← entryEffect codec p e
  return (insertOpt acc.1 p eff.write, acc.2.add p eff)

variable [DecidableEq H]

/-- Carry out a deletion: a path the snapshot does not have is passed over, and a
file with other content stays. -/
def applyDeletion (codec : Codec H) (snapshot : Snapshot H) (acc : Disk × ThreeWayResult H)
    (p : Str) : Disk × ThreeWayResult H :=
  match snapshot.files.lookup p with
  | none => (acc.1, acc.2.delete p false)
  | some base =>
      let removed := guardedRemove codec acc.1 p base
      (removed.1, acc.2.delete p removed.2)

/-- Apply a merge result to the working copy. -/
def applyThreeWay (codec : Codec H) (snapshot : Snapshot H) (disk : Disk)
    (ours : GoMap (Entry H)) (res : Result H) :
    Except DomainError (Disk × ThreeWayResult H) := do
  let acc ← (res.entries.entries.insertionSort fun e e' => e.1 ≤ e'.1).foldlM
    (fun acc e => applyEntry codec acc e.1 e.2) (disk, ⟨ours, [], [], [], ∅, []⟩)
  return (res.deleted.insertionSort (· ≤ ·)).foldl (applyDeletion codec snapshot) acc

end Apply

/-! ## What the engine can say about a path -/

section Outcomes

variable {H : Type} [HashScheme H] [DecidableEq H] {b o t : Option (Entry H)} {d : Decided H}

theorem outcomeAt_taken (h : outcomeAt b o t = .taken d) :
    (d.decision = .keepOurs ∧ o = some d.ours) ∨
      (d.decision = .keepTheirs ∧ t = some d.theirs) ∨
      (d.decision = .textMerge ∧ o = some d.ours ∧ t = some d.theirs) := by
  rcases b with _ | b <;> rcases o with _ | o <;> rcases t with _ | t <;>
    simp only [outcomeAt] at h <;> repeat' split at h
  all_goals
    cases h
    try simp

theorem outcomeAt_conflict (h : outcomeAt b o t = .conflict d) :
    ((d.decision = .binaryConflict ∨ d.decision = .addAddConflict ∨
        d.decision = .modifyDeleteConflict) ∧ o = some d.ours) ∨
      (d.decision = .deleteModifyConflict ∧ o = none) := by
  rcases b with _ | b <;> rcases o with _ | o <;> rcases t with _ | t <;>
    simp only [outcomeAt] at h <;> repeat' split at h
  all_goals
    cases h
    try simp

theorem conflict_decision (h : outcomeAt b o t = .conflict d) :
    d.decision = .binaryConflict ∨ d.decision = .addAddConflict ∨
      d.decision = .modifyDeleteConflict ∨ d.decision = .deleteModifyConflict := by
  rcases outcomeAt_conflict h with ⟨hd | hd | hd, -⟩ | ⟨hd, -⟩
  · exact Or.inl hd
  · exact Or.inr (Or.inl hd)
  · exact Or.inr (Or.inr (Or.inl hd))
  · exact Or.inr (Or.inr (Or.inr hd))

theorem outcomeAt_deleted (h : outcomeAt b o t = .deleted) : b ≠ none := by
  rcases b with _ | b
  · rcases o with _ | o <;> rcases t with _ | t <;> simp only [outcomeAt] at h <;>
      repeat' split at h
    all_goals cases h
  · simp

variable {eff : EntryEffect H}

omit [DecidableEq H] in
theorem entryEffect_conflict {codec : Codec H} {p : Str} (h : entryEffect codec p d = .ok eff)
    (hd : d.decision = .binaryConflict ∨ d.decision = .addAddConflict ∨
      d.decision = .modifyDeleteConflict ∨ d.decision = .deleteModifyConflict) :
    eff.write = none ∧ eff.staged = false ∧ eff.conflict.isSome ∧
      eff.file = if d.decision = .deleteModifyConflict then none else some d.ours := by
  rw [entryEffect] at h
  rcases hd with hd | hd | hd | hd
  all_goals
    rw [hd] at h
    obtain rfl := Except.ok.inj h
    simp [hd]

omit [DecidableEq H] in
theorem entryEffect_keepOurs {codec : Codec H} {p : Str} (h : entryEffect codec p d = .ok eff)
    (hd : d.decision = .keepOurs) : eff = ⟨none, some d.ours, false, none⟩ := by
  rw [entryEffect, hd] at h
  exact (Except.ok.inj h).symm

omit [DecidableEq H] in
theorem entryEffect_keepTheirs {codec : Codec H} {p : Str} (h : entryEffect codec p d = .ok eff)
    (hd : d.decision = .keepTheirs) :
    ∃ w, materializedFile codec d.theirs = .ok w ∧
      eff = ⟨some w, some d.theirs, true, none⟩ := by
  rw [entryEffect, hd] at h
  obtain ⟨w, hw, h⟩ := bind_eq_ok.mp h
  exact ⟨w, hw, (pure_eq_ok.mp h).symm⟩

/-- The file a text merge makes of three contents. -/
def mergedFile (codec : Codec H) (p : Str) (d : Decided H) (base ours theirs : List UInt8) :
    Entry H :=
  encodeMergedFile codec p (codec.mergeText base ours theirs).1 d.ours.mode
    (d.ours.isBinary || d.theirs.isBinary)

omit [DecidableEq H] in
theorem entryEffect_textMerge {codec : Codec H} {p : Str} (h : entryEffect codec p d = .ok eff)
    (hd : d.decision = .textMerge) :
    ∃ base ours theirs w,
      loadFileContent codec d.base.encoding d.base.chunkHashes = .ok base ∧
      loadFileContent codec d.ours.encoding d.ours.chunkHashes = .ok ours ∧
      loadFileContent codec d.theirs.encoding d.theirs.chunkHashes = .ok theirs ∧
      materializedFile codec (mergedFile codec p d base ours theirs) = .ok w ∧
      eff.write = some w ∧ eff.file = some (mergedFile codec p d base ours theirs) ∧
      eff.staged = true := by
  rw [entryEffect, hd] at h
  obtain ⟨base, hbase, h⟩ := bind_eq_ok.mp h
  obtain ⟨ours, hours, h⟩ := bind_eq_ok.mp h
  obtain ⟨theirs, htheirs, h⟩ := bind_eq_ok.mp h
  obtain ⟨w, hw, h⟩ := bind_eq_ok.mp h
  obtain rfl := pure_eq_ok.mp h
  exact ⟨base, ours, theirs, w, hbase, hours, htheirs, hw, rfl, rfl, rfl⟩

theorem mem_sortedEntries {base ours theirs : GoMap (Entry H)}
    {e : Sigma fun _ : Str => Decided H} :
    e ∈ (threeWay base ours theirs).entries.entries.insertionSort (fun e e' => e.1 ≤ e'.1) ↔
      (outcomeAt (base.lookup e.1) (ours.lookup e.1) (theirs.lookup e.1)).decided? =
        some e.2 := by
  rw [List.mem_insertionSort, ← threeWay_entries]
  exact AList.mem_lookup_iff.symm

end Outcomes

/-! ## What the merge does to one path -/

section Effects

variable {H : Type}

/-- Nothing changes at a path. -/
structure SameAt (q : Str) (acc acc' : Disk × ThreeWayResult H) : Prop where
  disk : acc'.1.lookup q = acc.1.lookup q
  files : acc'.2.files.lookup q = acc.2.files.lookup q
  staged : q ∈ acc'.2.staged ↔ q ∈ acc.2.staged
  deleted : q ∈ acc'.2.deleted ↔ q ∈ acc.2.deleted
  conflicted : q ∈ acc'.2.conflicted ↔ q ∈ acc.2.conflicted
  kinds : acc'.2.kinds.lookup q = acc.2.kinds.lookup q
  binary : q ∈ acc'.2.binary ↔ q ∈ acc.2.binary

/-- A decision is carried out at a path. -/
structure AppliedAt (p : Str) (eff : EntryEffect H) (acc acc' : Disk × ThreeWayResult H) :
    Prop where
  disk : acc'.1.lookup p = eff.write.or (acc.1.lookup p)
  files : acc'.2.files.lookup p = eff.file.or (acc.2.files.lookup p)
  staged : p ∈ acc'.2.staged ↔ eff.staged = true ∨ p ∈ acc.2.staged
  deleted : p ∈ acc'.2.deleted ↔ p ∈ acc.2.deleted
  conflicted : p ∈ acc'.2.conflicted ↔ eff.conflict.isSome ∨ p ∈ acc.2.conflicted
  kinds : acc'.2.kinds.lookup p = (eff.conflict.map Prod.fst).or (acc.2.kinds.lookup p)
  binary : p ∈ acc'.2.binary ↔ eff.conflict.any Prod.snd = true ∨ p ∈ acc.2.binary

variable {acc acc' acc'' : Disk × ThreeWayResult H} {p q : Str} {eff : EntryEffect H}

theorem SameAt.refl (q : Str) (acc : Disk × ThreeWayResult H) : SameAt q acc acc :=
  ⟨rfl, rfl, Iff.rfl, Iff.rfl, Iff.rfl, rfl, Iff.rfl⟩

theorem SameAt.trans (h : SameAt q acc acc') (h' : SameAt q acc' acc'') :
    SameAt q acc acc'' where
  disk := h'.disk.trans h.disk
  files := h'.files.trans h.files
  staged := h'.staged.trans h.staged
  deleted := h'.deleted.trans h.deleted
  conflicted := h'.conflicted.trans h.conflicted
  kinds := h'.kinds.trans h.kinds
  binary := h'.binary.trans h.binary

theorem SameAt.applied (h : SameAt p acc acc') (h' : AppliedAt p eff acc' acc'') :
    AppliedAt p eff acc acc'' where
  disk := by rw [h'.disk, h.disk]
  files := by rw [h'.files, h.files]
  staged := by rw [h'.staged, h.staged]
  deleted := by rw [h'.deleted, h.deleted]
  conflicted := by rw [h'.conflicted, h.conflicted]
  kinds := by rw [h'.kinds, h.kinds]
  binary := by rw [h'.binary, h.binary]

theorem AppliedAt.same (h : AppliedAt p eff acc acc') (h' : SameAt p acc' acc'') :
    AppliedAt p eff acc acc'' where
  disk := by rw [h'.disk, h.disk]
  files := by rw [h'.files, h.files]
  staged := by rw [h'.staged, h.staged]
  deleted := by rw [h'.deleted, h.deleted]
  conflicted := by rw [h'.conflicted, h.conflicted]
  kinds := by rw [h'.kinds, h.kinds]
  binary := by rw [h'.binary, h.binary]

theorem lookup_insertOpt {V : Type} (m : GoMap V) (p q : Str) (v : Option V) :
    (insertOpt m p v).lookup q = if q = p then v.or (m.lookup q) else m.lookup q := by
  rcases v with _ | v
  · simp [insertOpt]
  · rw [insertOpt, GoMap.lookup_insert_eq]
    simp

theorem mem_append_if {b : Bool} {l : List Str} :
    q ∈ (if b then l ++ [p] else l) ↔ (q = p ∧ b = true) ∨ q ∈ l := by
  rcases b with _ | _
  · simp
  · simp [or_comm]

variable [HashScheme H] {codec : Codec H}

theorem applyEntry_ok {e : Decided H} (h : applyEntry codec acc p e = .ok acc') :
    (∃ eff, entryEffect codec p e = .ok eff ∧ AppliedAt p eff acc acc') ∧
      ∀ q, q ≠ p → SameAt q acc acc' := by
  rw [applyEntry] at h
  obtain ⟨eff, heff, h⟩ := bind_eq_ok.mp h
  obtain rfl := pure_eq_ok.mp h
  refine ⟨⟨eff, heff, ?_, ?_, ?_, Iff.rfl, ?_, ?_, ?_⟩, ?_⟩
  · exact (lookup_insertOpt acc.1 p p eff.write).trans (if_pos rfl)
  · exact (lookup_insertOpt acc.2.files p p eff.file).trans (if_pos rfl)
  · exact mem_append_if.trans (by simp)
  · exact mem_append_if.trans (by simp)
  · exact (lookup_insertOpt acc.2.kinds p p _).trans (if_pos rfl)
  · exact mem_append_if.trans (by simp)
  · intro q hq
    refine ⟨?_, ?_, ?_, Iff.rfl, ?_, ?_, ?_⟩
    · exact (lookup_insertOpt acc.1 p q eff.write).trans (if_neg hq)
    · exact (lookup_insertOpt acc.2.files p q eff.file).trans (if_neg hq)
    · exact mem_append_if.trans (by simp [hq])
    · exact mem_append_if.trans (by simp [hq])
    · exact (lookup_insertOpt acc.2.kinds p q _).trans (if_neg hq)
    · exact mem_append_if.trans (by simp [hq])

theorem foldlM_applyEntry_ok {l : List (Sigma fun _ : Str => Decided H)} (hl : l.NodupKeys)
    (h : l.foldlM (fun acc e => applyEntry codec acc e.1 e.2) acc = .ok acc') :
    (∀ e ∈ l, ∃ eff, entryEffect codec e.1 e.2 = .ok eff ∧ AppliedAt e.1 eff acc acc') ∧
      ∀ q, q ∉ l.keys → SameAt q acc acc' := by
  refine GoMap.foldlM_entries
    (D := fun e acc acc' => ∃ eff, entryEffect codec e.1 e.2 = .ok eff ∧
      AppliedAt e.1 eff acc acc')
    SameAt.refl (fun _ _ _ _ => SameAt.trans) ?_ ?_ (fun _ _ _ => applyEntry_ok) hl h
  · rintro e acc mid acc' hsame ⟨eff, heff, happlied⟩
    exact ⟨eff, heff, hsame.applied happlied⟩
  · rintro e acc mid acc' ⟨eff, heff, happlied⟩ hsame
    exact ⟨eff, heff, happlied.same hsame⟩

/-! ## Deletions and the whole merge -/

variable [DecidableEq H] {snapshot : Snapshot H}

/-- A deletion is carried out at a path: the file goes and the path is staged, if
the file is the tracked one. -/
structure DeletedAt (codec : Codec H) (snapshot : Snapshot H) (p : Str)
    (acc acc' : Disk × ThreeWayResult H) : Prop where
  disk : acc'.1.lookup p =
    if Deletable codec snapshot acc.1 p then none else acc.1.lookup p
  files : acc'.2.files.lookup p = none
  staged : p ∈ acc'.2.staged ↔ Deletable codec snapshot acc.1 p ∨ p ∈ acc.2.staged
  deleted : p ∈ acc'.2.deleted ↔ Deletable codec snapshot acc.1 p ∨ p ∈ acc.2.deleted
  conflicted : p ∈ acc'.2.conflicted ↔ p ∈ acc.2.conflicted
  kinds : acc'.2.kinds.lookup p = acc.2.kinds.lookup p
  binary : p ∈ acc'.2.binary ↔ p ∈ acc.2.binary

omit [DecidableEq H] in
theorem deletable_deleted {disk disk' : Disk}
    (h : disk'.lookup p = disk.lookup p ∨
      (disk'.lookup p = none ∧ Deletable codec snapshot disk p)) :
    Deletable codec snapshot disk' p ↔ Deletable codec snapshot disk p := by
  rcases h with h | ⟨h, hdel⟩
  · exact deletable_congr h codec snapshot
  · refine iff_of_true ?_ hdel
    obtain ⟨base, hbase, -⟩ := hdel
    exact ⟨base, hbase, by simp [Removable, h]⟩

theorem DeletedAt.trans (h : DeletedAt codec snapshot p acc acc')
    (h' : DeletedAt codec snapshot p acc' acc'') : DeletedAt codec snapshot p acc acc'' := by
  have hdel : Deletable codec snapshot acc'.1 p ↔ Deletable codec snapshot acc.1 p := by
    refine deletable_deleted ?_
    rw [h.disk]
    split
    next hdel => exact Or.inr ⟨rfl, hdel⟩
    · exact Or.inl rfl
  refine ⟨?_, h'.files, ?_, ?_, h'.conflicted.trans h.conflicted, h'.kinds.trans h.kinds,
    h'.binary.trans h.binary⟩
  · rw [h'.disk, h.disk]
    simp only [hdel]
    split <;> rfl
  · rw [h'.staged, h.staged, hdel]
    tauto
  · rw [h'.deleted, h.deleted, hdel]
    tauto

theorem DeletedAt.same (h : DeletedAt codec snapshot p acc acc') (h' : SameAt p acc' acc'') :
    DeletedAt codec snapshot p acc acc'' where
  disk := by rw [h'.disk, h.disk]
  files := by rw [h'.files, h.files]
  staged := by rw [h'.staged, h.staged]
  deleted := by rw [h'.deleted, h.deleted]
  conflicted := by rw [h'.conflicted, h.conflicted]
  kinds := by rw [h'.kinds, h.kinds]
  binary := by rw [h'.binary, h.binary]

theorem SameAt.deleted_after (h : SameAt p acc acc')
    (h' : DeletedAt codec snapshot p acc' acc'') : DeletedAt codec snapshot p acc acc'' := by
  have hdel := deletable_congr h.disk codec snapshot
  refine ⟨?_, h'.files, ?_, ?_, h'.conflicted.trans h.conflicted, h'.kinds.trans h.kinds,
    h'.binary.trans h.binary⟩
  · rw [h'.disk, h.disk]
    simp only [hdel]
  · rw [h'.staged, h.staged, hdel]
  · rw [h'.deleted, h.deleted, hdel]

theorem delete_spec {disk : Disk} {removed : Bool}
    (hremoved : removed = true ↔ Deletable codec snapshot acc.1 p)
    (hdisk : ∀ q, disk.lookup q =
      if q = p ∧ Deletable codec snapshot acc.1 p then none else acc.1.lookup q) :
    DeletedAt codec snapshot p acc (disk, acc.2.delete p removed) ∧
      ∀ q, q ≠ p → SameAt q acc (disk, acc.2.delete p removed) := by
  refine ⟨⟨?_, ?_, ?_, ?_, Iff.rfl, rfl, Iff.rfl⟩, ?_⟩
  · rw [hdisk]
    simp
  · exact (GoMap.lookup_erase_eq acc.2.files p p).trans (if_pos rfl)
  · exact mem_append_if.trans (by simp [hremoved])
  · exact mem_append_if.trans (by simp [hremoved])
  · intro q hq
    refine ⟨?_, ?_, ?_, ?_, Iff.rfl, rfl, Iff.rfl⟩
    · rw [hdisk, if_neg fun h => hq h.1]
    · exact (GoMap.lookup_erase_eq acc.2.files q p).trans (if_neg hq)
    · exact mem_append_if.trans (by simp [hq])
    · exact mem_append_if.trans (by simp [hq])

theorem applyDeletion_spec (codec : Codec H) (snapshot : Snapshot H)
    (acc : Disk × ThreeWayResult H) (p : Str) :
    DeletedAt codec snapshot p acc (applyDeletion codec snapshot acc p) ∧
      ∀ q, q ≠ p → SameAt q acc (applyDeletion codec snapshot acc p) := by
  rw [applyDeletion]
  rcases hbase : snapshot.files.lookup p with _ | base
  · have hnot : ¬ Deletable codec snapshot acc.1 p := by simp [Deletable, hbase]
    exact delete_spec (by simp [hnot]) (by simp [hnot])
  · have hdel : Deletable codec snapshot acc.1 p ↔ Removable codec acc.1 p base := by
      simp [Deletable, hbase]
    refine delete_spec ?_ ?_
    · rw [hdel]
      exact guardedRemove_removed codec acc.1 p base
    · intro q
      rw [guardedRemove_lookup]
      simp only [hdel]

theorem foldl_applyDeletion (codec : Codec H) (snapshot : Snapshot H) (l : List Str)
    (acc : Disk × ThreeWayResult H) :
    (∀ p ∈ l, DeletedAt codec snapshot p acc (l.foldl (applyDeletion codec snapshot) acc)) ∧
      ∀ q, q ∉ l → SameAt q acc (l.foldl (applyDeletion codec snapshot) acc) := by
  induction l generalizing acc with
  | nil => exact ⟨by simp, fun q _ => SameAt.refl q acc⟩
  | cons p rest ih =>
      obtain ⟨hdeleted, hother⟩ := applyDeletion_spec codec snapshot acc p
      obtain ⟨hrest, hleft⟩ := ih (applyDeletion codec snapshot acc p)
      rw [List.foldl_cons]
      refine ⟨?_, ?_⟩
      · intro q hq
        by_cases hqp : q = p
        · subst hqp
          by_cases hmem : q ∈ rest
          · exact hdeleted.trans (hrest q hmem)
          · exact hdeleted.same (hleft q hmem)
        · have hmem : q ∈ rest := (List.mem_cons.mp hq).resolve_left hqp
          exact (hother q hqp).deleted_after (hrest q hmem)
      · intro q hq
        rw [List.mem_cons, not_or] at hq
        exact (hother q hq.1).trans (hleft q hq.2)

/-- Where a merge starts: the target's files and nothing staged. -/
def mergeStart (disk : Disk) (ours : GoMap (Entry H)) : Disk × ThreeWayResult H :=
  (disk, ⟨ours, [], [], [], ∅, []⟩)

/-- What applying a merge does to a path, by the outcome of the merge there. -/
def OutcomeApplied (codec : Codec H) (snapshot : Snapshot H) (p : Str)
    (acc acc' : Disk × ThreeWayResult H) : Outcome H → Prop
  | .unchanged => SameAt p acc acc'
  | .taken d => ∃ eff, entryEffect codec p d = .ok eff ∧ AppliedAt p eff acc acc'
  | .conflict d => ∃ eff, entryEffect codec p d = .ok eff ∧ AppliedAt p eff acc acc'
  | .deleted => DeletedAt codec snapshot p acc acc'

theorem applyThreeWay_ok {disk : Disk} {base ours theirs : GoMap (Entry H)}
    (h : applyThreeWay codec snapshot disk ours (threeWay base ours theirs) = .ok acc')
    (p : Str) :
    OutcomeApplied codec snapshot p (mergeStart disk ours) acc'
      (outcomeAt (base.lookup p) (ours.lookup p) (theirs.lookup p)) := by
  rw [applyThreeWay] at h
  obtain ⟨mid, hmid, h⟩ := bind_eq_ok.mp h
  have hacc := pure_eq_ok.mp h
  have hperm := List.perm_insertionSort
    (fun e e' : Sigma fun _ : Str => Decided H => e.1 ≤ e'.1)
    (threeWay base ours theirs).entries.entries
  obtain ⟨hentries, hleft⟩ := foldlM_applyEntry_ok
    ((List.perm_nodupKeys hperm).mpr (threeWay base ours theirs).entries.nodupKeys) hmid
  obtain ⟨hdeleted, hkept⟩ := foldl_applyDeletion codec snapshot
    ((threeWay base ours theirs).deleted.insertionSort (· ≤ ·)) mid
  rw [hacc] at hdeleted hkept
  have hlookup := threeWay_entries base ours theirs p
  have hmemdel : p ∈ (threeWay base ours theirs).deleted.insertionSort (· ≤ ·) ↔
      outcomeAt (base.lookup p) (ours.lookup p) (theirs.lookup p) = .deleted :=
    (List.mem_insertionSort _).trans mem_threeWay_deleted
  have hdecided : ∀ d, (threeWay base ours theirs).entries.lookup p = some d →
      outcomeAt (base.lookup p) (ours.lookup p) (theirs.lookup p) ≠ .deleted →
      ∃ eff, entryEffect codec p d = .ok eff ∧ AppliedAt p eff (mergeStart disk ours) acc' := by
    intro d hd hnot
    obtain ⟨eff, heff, happlied⟩ := hentries ⟨p, d⟩
      (hperm.mem_iff.mpr (AList.mem_lookup_iff.mp hd))
    exact ⟨eff, heff, happlied.same (hkept p (mt hmemdel.mp hnot))⟩
  have hundecided : (threeWay base ours theirs).entries.lookup p = none →
      SameAt p (mergeStart disk ours) mid := by
    intro hnone
    refine hleft p ?_
    intro hmem
    obtain ⟨e, he, rfl⟩ := List.mem_map.mp hmem
    exact AList.lookup_eq_none.mp hnone (List.mem_keys_of_mem (hperm.mem_iff.mp he))
  rw [hlookup] at hdecided hundecided
  rcases hout : outcomeAt (base.lookup p) (ours.lookup p) (theirs.lookup p) with _ | d | _ | d
  all_goals rw [hout] at hmemdel hdecided hundecided
  · exact (hundecided rfl).trans (hkept p (by simp [hmemdel]))
  · exact hdecided d rfl (by simp)
  · exact (hundecided rfl).deleted_after (hdeleted p (hmemdel.mpr rfl))
  · exact hdecided d rfl (by simp)

end Effects

end Nipa.Client
