import Nipa.Diff.Renames

/-!
# Renames conserve the changes

Every change of a comparison writes one path, and a rename writes the two paths
of the changes it stands for.  The result of rename detection therefore makes the
edits of the comparison, and applied to the old files it leads to the new ones, up
to the metadata of files whose hash and mode did not change.
-/

namespace Nipa

open Support

namespace Diff

/-! ## The result -/

section Result

variable {H : Type} {changes : List (ScoredChange H)} {chosen : List (RenamePair H)}

/-- What a comparison of two file maps yields: one change for a path, no rename
yet, and a deleted file at its own path. -/
structure Compared (changes : List (ScoredChange H)) : Prop where
  paths_nodup : (changes.map fun c => c.path).Nodup
  source : ∀ c ∈ changes, c.status = .deleted → c.old.path = c.path
  no_rename : ∀ c ∈ changes, c.status ≠ .renamed

variable {e : ScoredChange H × ℕ}

theorem mem_of_mem_zipIdx (he : e ∈ changes.zipIdx) : e.1 ∈ changes :=
  List.mem_of_getElem? (List.mem_zipIdx_iff_getElem?.mp he)

theorem Compared.eq_of_path_eq (hc : Compared changes) {e' : ScoredChange H × ℕ}
    (he : e ∈ changes.zipIdx) (he' : e' ∈ changes.zipIdx) (h : e.1.path = e'.1.path) : e = e' := by
  refine eq_of_index_eq he he' ?_
  rw [List.mem_zipIdx_iff_getElem?] at he he'
  obtain ⟨hlt, hget⟩ := List.getElem?_eq_some_iff.mp he
  have hlt' : e.2 < (changes.map fun c => c.path).length := by rwa [List.length_map]
  refine (List.getElem?_inj hlt' hc.paths_nodup).mp ?_
  rw [List.getElem?_map, List.getElem?_map, he, he', Option.map_some, Option.map_some, h]

theorem Choice.old_ne_new (h : Choice changes chosen) {p q : RenamePair H} (hp : p ∈ chosen)
    (hq : q ∈ chosen) : p.old.2 ≠ q.new.2 := by
  obtain ⟨hold, hdeleted⟩ := mem_changesWith.mp (h.old_mem p hp)
  obtain ⟨hnew, hadded⟩ := mem_changesWith.mp (h.new_mem q hq)
  intro heq
  rw [eq_of_index_eq hold hnew heq, hadded] at hdeleted
  cases hdeleted

variable {c : ScoredChange H}

theorem mem_putRenames (h : Choice changes chosen) :
    c ∈ putRenames chosen changes ↔
      (∃ p ∈ chosen, c = p.renamed) ∨
        ∃ i, (c, i) ∈ changes.zipIdx ∧ ∀ p ∈ chosen, p.old.2 ≠ i ∧ p.new.2 ≠ i := by
  rw [putRenames, List.mem_filterMap]
  constructor
  · rintro ⟨e, he, hsome⟩
    rw [putRename] at hsome
    split at hsome
    · cases hsome
    next hfree =>
      have hunused : ∀ p ∈ chosen, p.new.2 ≠ e.2 := fun p hp heq =>
        hfree (List.mem_map.mpr ⟨p, hp, heq⟩)
      split at hsome
      next p hfind =>
        exact Or.inl ⟨p, List.mem_of_find?_eq_some hfind, (Option.some.inj hsome).symm⟩
      next hfind =>
        obtain rfl := Option.some.inj hsome
        refine Or.inr ⟨e.2, he, ?_⟩
        intro p hp
        refine ⟨?_, hunused p hp⟩
        simpa using List.find?_eq_none.mp hfind p hp
  · rintro (⟨p, hp, rfl⟩ | ⟨i, hi, hunused⟩)
    · refine ⟨p.old, (mem_changesWith.mp (h.old_mem p hp)).1, ?_⟩
      have hfree : ¬ p.old.2 ∈ chosen.map fun q => q.new.2 := by
        intro hmem
        obtain ⟨q, hq, heq⟩ := List.mem_map.mp hmem
        exact h.old_ne_new hp hq heq.symm
      have hfind : (chosen.find? fun q => q.old.2 = p.old.2) = some p := by
        have hsome : (chosen.find? fun q => q.old.2 = p.old.2).isSome := by
          rw [List.find?_isSome]
          exact ⟨p, hp, by simp⟩
        obtain ⟨q, hq⟩ := Option.isSome_iff_exists.mp hsome
        have heq : q.old.2 = p.old.2 := by simpa using List.find?_some hq
        rw [hq, h.old_inj q (List.mem_of_find?_eq_some hq) p hp heq]
      rw [putRename, if_neg hfree, hfind]
    · refine ⟨(c, i), hi, ?_⟩
      have hfree : ¬ i ∈ chosen.map fun q => q.new.2 := by
        intro hmem
        obtain ⟨q, hq, heq⟩ := List.mem_map.mp hmem
        exact (hunused q hq).2 heq
      have hfind : (chosen.find? fun q => q.old.2 = i) = none := by
        rw [List.find?_eq_none]
        intro q hq
        simpa using (hunused q hq).1
      rw [putRename, if_neg hfree, hfind]

/-- Where the files of a result stand among the changes: a rename stands for the
added file. -/
theorem exists_index_of_put (h : Choice changes chosen) (he : e ∈ changes.zipIdx)
    (hput : putRename chosen e = some c) :
    ∃ d ∈ changes.zipIdx, c.path = d.1.path ∧
      (d = e ∧ (∀ p ∈ chosen, p.new.2 ≠ d.2) ∨ ∃ p ∈ chosen, d = p.new ∧ p.old.2 = e.2) := by
  rw [putRename] at hput
  split at hput
  · cases hput
  next hfree =>
    split at hput
    next p hfind =>
      obtain rfl := Option.some.inj hput
      have hp := List.mem_of_find?_eq_some hfind
      refine ⟨p.new, (mem_changesWith.mp (h.new_mem p hp)).1, rfl, Or.inr ⟨p, hp, rfl, ?_⟩⟩
      simpa using List.find?_some hfind
    next hfind =>
      obtain rfl := Option.some.inj hput
      refine ⟨e, he, rfl, Or.inl ⟨rfl, ?_⟩⟩
      intro p hp heq
      exact hfree (List.mem_map.mpr ⟨p, hp, heq⟩)

theorem putRenames_paths_nodup (hc : Compared changes) (h : Choice changes chosen) :
    ((putRenames chosen changes).map fun c => c.path).Nodup := by
  have hindices : changes.zipIdx.Pairwise fun e e' => e.2 ≠ e'.2 := by
    have hnodup : (changes.zipIdx.map Prod.snd).Nodup := by
      rw [List.zipIdx_map_snd]
      exact List.nodup_range'
    exact List.pairwise_map.mp hnodup
  rw [List.Nodup, List.pairwise_map, putRenames, List.pairwise_filterMap]
  refine List.Pairwise.imp_of_mem ?_ hindices
  intro e e' he he' hne c hput c' hput' hpath
  obtain ⟨d, hd, hcd, hkind⟩ := exists_index_of_put h he hput
  obtain ⟨d', hd', hcd', hkind'⟩ := exists_index_of_put h he' hput'
  obtain rfl := hc.eq_of_path_eq hd hd' (hcd.symm.trans (hpath.trans hcd'))
  rcases hkind with ⟨rfl, hfree⟩ | ⟨p, hp, hdp, hold⟩
  · rcases hkind' with ⟨rfl, -⟩ | ⟨p, hp, hdp, -⟩
    · exact hne rfl
    · exact hfree p hp (by rw [hdp])
  · rcases hkind' with ⟨-, hfree⟩ | ⟨q, hq, hdq, hold'⟩
    · exact hfree p hp (by rw [hdp])
    · have hpq : p = q := h.new_inj p hp q hq (by rw [← hdp, ← hdq])
      rw [← hold, ← hold', hpq] at hne
      exact hne rfl

variable [DecidableEq H] {order : MapOrder} {load : Option (Entry H → Option (List UInt8))}
  {threshold : ℤ}

theorem mem_detectRenamesAt :
    c ∈ detectRenamesAt order changes load threshold ↔
      (∃ p ∈ chosenPairs order load threshold changes, c = p.renamed) ∨
        ∃ i, (c, i) ∈ changes.zipIdx ∧
          ∀ p ∈ chosenPairs order load threshold changes, p.old.2 ≠ i ∧ p.new.2 ≠ i := by
  rw [detectRenamesAt]
  split
  next hempty =>
    have hnone : ∀ p, p ∉ chosenPairs order load threshold changes := by
      intro p hp
      have hold := chosenPairs_choice.old_mem p hp
      have hnew := chosenPairs_choice.new_mem p hp
      rcases hempty with hempty | hempty
      · rw [hempty] at hold
        cases hold
      · rw [hempty] at hnew
        cases hnew
    constructor
    · intro hc
      obtain ⟨i, hi⟩ := List.mem_iff_getElem?.mp hc
      exact Or.inr ⟨i, List.mem_zipIdx_iff_getElem?.mpr hi, fun p hp => absurd hp (hnone p)⟩
    · rintro (⟨p, hp, -⟩ | ⟨i, hi, -⟩)
      · exact absurd hp (hnone p)
      · exact mem_of_mem_zipIdx hi
  · rw [List.mem_insertionSort, mem_putRenames chosenPairs_choice]

theorem detectRenamesAt_paths_nodup (hc : Compared changes) :
    ((detectRenamesAt order changes load threshold).map fun c => c.path).Nodup := by
  rw [detectRenamesAt]
  split
  · exact hc.paths_nodup
  · refine ((List.perm_insertionSort _ _).map _).nodup_iff.mpr ?_
    exact putRenames_paths_nodup hc chosenPairs_choice

end Result

/-! ## Applying changes -/

section Apply

variable {H : Type}

/-- Apply a change to a file map. -/
def applyChange (m : GoMap (Entry H)) (c : ScoredChange H) : GoMap (Entry H) :=
  match c.status with
  | .deleted => m.erase c.path
  | .added | .modified => m.insert c.path c.new
  | .renamed => (m.erase c.old.path).insert c.path c.new

def applyChanges (m : GoMap (Entry H)) (changes : List (ScoredChange H)) : GoMap (Entry H) :=
  changes.foldl applyChange m

/-- The paths a change writes with their new content. -/
def ScoredChange.edits (c : ScoredChange H) : List (Str × Option (Entry H)) :=
  match c.status with
  | .deleted => [(c.path, none)]
  | .added | .modified => [(c.path, some c.new)]
  | .renamed => [(c.old.path, none), (c.path, some c.new)]

def applyEdit (m : GoMap (Entry H)) (e : Str × Option (Entry H)) : GoMap (Entry H) :=
  match e.2 with
  | none => m.erase e.1
  | some v => m.insert e.1 v

theorem applyChanges_eq (m : GoMap (Entry H)) (changes : List (ScoredChange H)) :
    applyChanges m changes = (changes.flatMap ScoredChange.edits).foldl applyEdit m := by
  induction changes generalizing m with
  | nil => rfl
  | cons c changes ih =>
      have hstep : applyChange m c = c.edits.foldl applyEdit m := by
        rw [applyChange, ScoredChange.edits]
        cases c.status <;> rfl
      rw [applyChanges, List.foldl_cons, List.flatMap_cons, List.foldl_append, ← hstep]
      exact ih (applyChange m c)

theorem lookup_applyEdit (m : GoMap (Entry H)) (e : Str × Option (Entry H)) (p : Str) :
    (applyEdit m e).lookup p = if p = e.1 then e.2 else m.lookup p := by
  obtain ⟨k, v⟩ := e
  cases v with
  | none => exact GoMap.lookup_erase_eq m p k
  | some v => exact GoMap.lookup_insert_eq m p k v

theorem lookup_applyEdits {es : List (Str × Option (Entry H))} {p : Str} {v : Option (Entry H)}
    (hagree : ∀ w, (p, w) ∈ es → w = v) (m : GoMap (Entry H)) :
    (es.foldl applyEdit m).lookup p = if ∃ e ∈ es, e.1 = p then v else m.lookup p := by
  induction es generalizing m with
  | nil => simp
  | cons e es ih =>
      rw [List.foldl_cons, ih (fun w hw => hagree w (List.mem_cons_of_mem e hw)),
        lookup_applyEdit]
      by_cases hrest : ∃ e' ∈ es, e'.1 = p
      · rw [if_pos hrest, if_pos]
        obtain ⟨e', he', heq⟩ := hrest
        exact ⟨e', List.mem_cons_of_mem e he', heq⟩
      · rw [if_neg hrest]
        by_cases hp : p = e.1
        · rw [if_pos hp, if_pos ⟨e, List.mem_cons_self, hp.symm⟩]
          refine hagree e.2 ?_
          rw [hp]
          exact List.mem_cons_self
        · rw [if_neg hp, if_neg]
          rintro ⟨e', he', heq⟩
          rcases List.mem_cons.mp he' with rfl | he'
          · exact hp heq.symm
          · exact hrest ⟨e', he', heq⟩

theorem Choice.mem_edits_renamed {changes : List (ScoredChange H)} {chosen : List (RenamePair H)}
    (h : Choice changes chosen) (hc : Compared changes) {p : RenamePair H} (hp : p ∈ chosen)
    (e : Str × Option (Entry H)) :
    e ∈ p.renamed.edits ↔ e ∈ p.old.1.edits ∨ e ∈ p.new.1.edits := by
  obtain ⟨hold, hdeleted⟩ := mem_changesWith.mp (h.old_mem p hp)
  obtain ⟨-, hadded⟩ := mem_changesWith.mp (h.new_mem p hp)
  have hpath := hc.source p.old.1 (mem_of_mem_zipIdx hold) hdeleted
  rw [ScoredChange.edits, ScoredChange.edits, ScoredChange.edits, hdeleted, hadded, ← hpath]
  simp [RenamePair.renamed]

variable [DecidableEq H] {order : MapOrder} {load : Option (Entry H → Option (List UInt8))}
  {threshold : ℤ} {changes : List (ScoredChange H)}

theorem mem_edits_detectRenamesAt (hc : Compared changes) (e : Str × Option (Entry H)) :
    e ∈ (detectRenamesAt order changes load threshold).flatMap ScoredChange.edits ↔
      e ∈ changes.flatMap ScoredChange.edits := by
  have h : Choice changes (chosenPairs order load threshold changes) := chosenPairs_choice
  rw [List.mem_flatMap, List.mem_flatMap]
  constructor
  · rintro ⟨c, hmem, he⟩
    rcases mem_detectRenamesAt.mp hmem with ⟨p, hp, rfl⟩ | ⟨i, hi, -⟩
    · rcases (h.mem_edits_renamed hc hp e).mp he with he | he
      · exact ⟨p.old.1, mem_of_mem_zipIdx (mem_changesWith.mp (h.old_mem p hp)).1, he⟩
      · exact ⟨p.new.1, mem_of_mem_zipIdx (mem_changesWith.mp (h.new_mem p hp)).1, he⟩
    · exact ⟨c, mem_of_mem_zipIdx hi, he⟩
  · rintro ⟨c, hmem, he⟩
    obtain ⟨i, hi⟩ := List.mem_iff_getElem?.mp hmem
    rw [← List.mem_zipIdx_iff_getElem? (x := (c, i))] at hi
    by_cases hused : ∃ p ∈ chosenPairs order load threshold changes, p.old.2 = i ∨ p.new.2 = i
    · obtain ⟨p, hp, hpi⟩ := hused
      refine ⟨p.renamed, mem_detectRenamesAt.mpr (Or.inl ⟨p, hp, rfl⟩), ?_⟩
      rw [h.mem_edits_renamed hc hp]
      rcases hpi with hpi | hpi
      · left
        rwa [eq_of_index_eq (mem_changesWith.mp (h.old_mem p hp)).1 hi hpi]
      · right
        rwa [eq_of_index_eq (mem_changesWith.mp (h.new_mem p hp)).1 hi hpi]
    · refine ⟨c, mem_detectRenamesAt.mpr (Or.inr ⟨i, hi, ?_⟩), he⟩
      intro p hp
      exact ⟨fun heq => hused ⟨p, hp, Or.inl heq⟩, fun heq => hused ⟨p, hp, Or.inr heq⟩⟩

end Apply

/-! ## Comparing file maps -/

section Compare

variable {H : Type}

/-- Files by their path. -/
structure FileMap (H : Type) where
  entries : GoMap (Entry H)
  keyed : ∀ p e, entries.lookup p = some e → e.path = p

/-- A file is unchanged for a comparison: hash and mode match. -/
def Unchanged (o n : Option (Entry H)) : Prop :=
  o.map (fun e => (e.hash, e.mode)) = n.map fun e => (e.hash, e.mode)

instance [DecidableEq H] (o n : Option (Entry H)) : Decidable (Unchanged o n) :=
  inferInstanceAs (Decidable (o.map (fun e => (e.hash, e.mode)) = n.map fun e => (e.hash, e.mode)))

variable [DecidableEq H] [HashScheme H]

/-- The comparison of two file maps whose entries are visited in some order. -/
def compared (order : MapOrder) (old new : FileMap H) : List (ScoredChange H) :=
  (compare (order.reorder old.entries) (order.reorder new.entries)).map ScoredChange.plain

variable {order : MapOrder} {old new : FileMap H}

theorem compared_order (order order' : MapOrder) (old new : FileMap H) :
    compared order old new = compared order' old new := by
  rw [compared, compared]
  congr 1
  apply compare_congr
  intro p
  simp only [MapOrder.lookup_reorder]

theorem mem_compared {c : ScoredChange H} :
    c ∈ compared order old new ↔ ∃ d, c = .plain d ∧
      changeAt d.path (old.entries.lookup d.path) (new.entries.lookup d.path) = some d := by
  rw [compared, List.mem_map]
  simp only [mem_compare, MapOrder.lookup_reorder]
  constructor
  · rintro ⟨d, hd, rfl⟩
    exact ⟨d, rfl, hd⟩
  · rintro ⟨d, rfl, hd⟩
    exact ⟨d, hd, rfl⟩

theorem changeAt_old {path : Str} {o n : Option (Entry H)} {c : Change H}
    (h : changeAt path o n = some c) (hstatus : c.status = .deleted) : o = some c.old := by
  rcases o with _ | o <;> rcases n with _ | n
  · cases h
  · obtain rfl := Option.some.inj h
    cases hstatus
  · obtain rfl := Option.some.inj h
    rfl
  · rw [changeAt] at h
    split at h
    · obtain rfl := Option.some.inj h
      cases hstatus
    · cases h

theorem edits_changeAt {path : Str} {o n : Option (Entry H)} {c : Change H}
    (h : changeAt path o n = some c) :
    (ScoredChange.plain c).edits = [(path, n)] ∧ c.status ≠ .renamed := by
  rcases o with _ | o <;> rcases n with _ | n
  · cases h
  · obtain rfl := Option.some.inj h
    exact ⟨rfl, by simp⟩
  · obtain rfl := Option.some.inj h
    exact ⟨rfl, by simp⟩
  · rw [changeAt] at h
    split at h
    · obtain rfl := Option.some.inj h
      exact ⟨rfl, by simp⟩
    · cases h

theorem compared_spec : Compared (compared order old new) := by
  refine ⟨?_, ?_, ?_⟩
  · have hmap : (compared order old new).map (fun c => c.path) =
        (compare (order.reorder old.entries) (order.reorder new.entries)).map Change.path := by
      rw [compared, List.map_map]
      rfl
    rw [hmap]
    refine List.Nodup.map_on ?_ (compare_nodup _ _)
    intro c hc c' hc' hpath
    rw [mem_compare] at hc hc'
    rw [hpath, hc'] at hc
    exact (Option.some.inj hc).symm
  · intro c hc hstatus
    obtain ⟨d, rfl, hd⟩ := mem_compared.mp hc
    exact old.keyed _ _ (changeAt_old hd hstatus)
  · intro c hc
    obtain ⟨d, rfl, hd⟩ := mem_compared.mp hc
    exact (edits_changeAt hd).2

theorem mem_edits_compared {p : Str} {v : Option (Entry H)} :
    (p, v) ∈ (compared order old new).flatMap ScoredChange.edits ↔
      ¬ Unchanged (old.entries.lookup p) (new.entries.lookup p) ∧ v = new.entries.lookup p := by
  rw [Unchanged, ← ne_eq, ← changeAt_isSome_iff p, List.mem_flatMap, Option.isSome_iff_exists]
  constructor
  · rintro ⟨c, hc, he⟩
    obtain ⟨d, rfl, hd⟩ := mem_compared.mp hc
    rw [(edits_changeAt hd).1, List.mem_singleton] at he
    obtain ⟨rfl, rfl⟩ := Prod.mk.inj he
    exact ⟨⟨d, hd⟩, rfl⟩
  · rintro ⟨⟨d, hd⟩, rfl⟩
    have hpath := changeAt_path hd
    refine ⟨.plain d, mem_compared.mpr ⟨d, rfl, ?_⟩, ?_⟩
    · rw [hpath]
      exact hd
    · rw [(edits_changeAt hd).1]
      exact List.mem_singleton_self _

end Compare

/-! ## Renames conserve the changes -/

section Conserve

variable {H : Type} [DecidableEq H] [HashScheme H]

/-- What renames owe to the changes they are found in: the result leads from the
old files to the new ones, every file is in at most one rename, and a similar
pair that is not renamed shares a file with a rename that is as similar. -/
structure ConservesChanges (old new : FileMap H) (score : Entry H → Entry H → ℕ) (threshold : ℤ)
    (changes result : List (ScoredChange H)) : Prop where
  applied : ∀ p, (applyChanges old.entries result).lookup p =
    if Unchanged (old.entries.lookup p) (new.entries.lookup p) then old.entries.lookup p
    else new.entries.lookup p
  paths_nodup : (result.map fun c => c.path).Nodup
  renames_apart : ∀ c ∈ result, ∀ c' ∈ result, c.status = .renamed → c'.status = .renamed →
    (c.old.path = c'.old.path ∨ c.path = c'.path) → c = c'
  renames_of : ∀ c ∈ result, c.status = .renamed →
    (∃ d ∈ changes, d.status = .deleted ∧ d.path = c.old.path ∧ d.old = c.old) ∧
      ∃ a ∈ changes, a.status = .added ∧ a.path = c.path ∧ a.new = c.new
  scores : ∀ c ∈ result, c.status = .renamed →
    c.similarity = score c.old c.new ∧ threshold ≤ c.similarity ∧ c.similarity ≤ 100
  stable : ∀ d ∈ changes, ∀ a ∈ changes, d.status = .deleted → a.status = .added →
    threshold ≤ score d.old a.new →
      ∃ c ∈ result, c.status = .renamed ∧ (c.old.path = d.path ∨ c.path = a.path) ∧
        score d.old a.new ≤ c.similarity

variable {order : MapOrder} {load : Option (Entry H → Option (List UInt8))} {threshold : ℤ}
  {changes : List (ScoredChange H)}

omit [HashScheme H] in
theorem mem_renames (hc : Compared changes) {c : ScoredChange H} :
    c ∈ detectRenamesAt order changes load threshold ∧ c.status = .renamed ↔
      ∃ p ∈ chosenPairs order load threshold changes, c = p.renamed := by
  rw [mem_detectRenamesAt]
  constructor
  · rintro ⟨⟨p, hp, rfl⟩ | ⟨i, hi, -⟩, hstatus⟩
    · exact ⟨p, hp, rfl⟩
    · exact absurd hstatus (hc.no_rename c (mem_of_mem_zipIdx hi))
  · rintro ⟨p, hp, rfl⟩
    exact ⟨Or.inl ⟨p, hp, rfl⟩, rfl⟩

omit [HashScheme H] in
theorem chosen_files {p : RenamePair H} (hp : p ∈ chosenPairs order load threshold changes) :
    (p.old ∈ changes.zipIdx ∧ p.old.1.status = .deleted) ∧
      p.new ∈ changes.zipIdx ∧ p.new.1.status = .added :=
  ⟨mem_changesWith.mp (chosenPairs_choice.old_mem p hp),
    mem_changesWith.mp (chosenPairs_choice.new_mem p hp)⟩

omit [HashScheme H] in
theorem renames_apart (hc : Compared changes) {p q : RenamePair H}
    (hp : p ∈ chosenPairs order load threshold changes)
    (hq : q ∈ chosenPairs order load threshold changes)
    (h : p.renamed.old.path = q.renamed.old.path ∨ p.renamed.path = q.renamed.path) : p = q := by
  obtain ⟨⟨hpold, hpdel⟩, hpnew, -⟩ := chosen_files hp
  obtain ⟨⟨hqold, hqdel⟩, hqnew, -⟩ := chosen_files hq
  rcases h with h | h
  · have hpath : p.old.1.path = q.old.1.path := by
      rw [← hc.source _ (mem_of_mem_zipIdx hpold) hpdel,
        ← hc.source _ (mem_of_mem_zipIdx hqold) hqdel]
      exact h
    exact chosenPairs_choice.old_inj p hp q hq
      (congrArg Prod.snd (hc.eq_of_path_eq hpold hqold hpath))
  · exact chosenPairs_choice.new_inj p hp q hq
      (congrArg Prod.snd (hc.eq_of_path_eq hpnew hqnew h))

omit [HashScheme H] in
theorem renames_stable (hc : Compared changes) {d a : ScoredChange H} (hd : d ∈ changes)
    (ha : a ∈ changes) (hdel : d.status = .deleted) (hadd : a.status = .added)
    (hscore : threshold ≤ similarity order load d.old a.new) :
    ∃ p ∈ chosenPairs order load threshold changes,
      (p.renamed.old.path = d.path ∨ p.renamed.path = a.path) ∧
        similarity order load d.old a.new ≤ p.score := by
  obtain ⟨i, hi⟩ := List.mem_iff_getElem?.mp hd
  obtain ⟨j, hj⟩ := List.mem_iff_getElem?.mp ha
  rw [← List.mem_zipIdx_iff_getElem? (x := (d, i))] at hi
  rw [← List.mem_zipIdx_iff_getElem? (x := (a, j))] at hj
  have hpair : (⟨(d, i), (a, j), similarity order load d.old a.new⟩ : RenamePair H) ∈
      renamePairs order load threshold changes :=
    mem_renamePairs.mpr ⟨mem_changesWith.mpr ⟨hi, hdel⟩, mem_changesWith.mpr ⟨hj, hadd⟩, rfl,
      hscore⟩
  obtain ⟨q, hq, hshares, hle⟩ := chosenPairs_covers hpair
  obtain ⟨⟨hqold, -⟩, hqnew, -⟩ := chosen_files hq
  refine ⟨q, hq, ?_, hle⟩
  simp only [RenamePair.shares, Bool.or_eq_true, decide_eq_true_eq] at hshares
  rcases hshares with hold | hnew
  · left
    rw [← hc.source d hd hdel]
    exact congrArg (fun e => e.1.old.path) (eq_of_index_eq hqold hi hold.symm)
  · right
    exact congrArg (fun e => e.1.path) (eq_of_index_eq hqnew hj hnew.symm)

/-- Renames conserve the changes of a comparison, whatever the threshold is and in
whatever order the maps are visited. -/
theorem detectRenames_conserves (order : MapOrder) (old new : FileMap H)
    (load : Option (Entry H → Option (List UInt8))) (threshold : ℤ) :
    ConservesChanges old new (similarity order load) threshold (compared order old new)
        (detectRenamesAt order (compared order old new) load threshold) ∧
      ∀ order', detectRenamesAt order' (compared order' old new) load threshold =
        detectRenamesAt order (compared order old new) load threshold := by
  have hc : Compared (compared order old new) := compared_spec
  refine ⟨⟨?_, detectRenamesAt_paths_nodup hc, ?_, ?_, ?_, ?_⟩, ?_⟩
  · intro p
    have hedits : ∀ v, (p, v) ∈ (detectRenamesAt order (compared order old new) load
        threshold).flatMap ScoredChange.edits ↔
          ¬ Unchanged (old.entries.lookup p) (new.entries.lookup p) ∧
            v = new.entries.lookup p := by
      intro v
      rw [mem_edits_detectRenamesAt hc, mem_edits_compared]
    rw [applyChanges_eq, lookup_applyEdits (fun w hw => ((hedits w).mp hw).2)]
    by_cases h : Unchanged (old.entries.lookup p) (new.entries.lookup p)
    · rw [if_pos h, if_neg]
      rintro ⟨⟨q, v⟩, he, rfl⟩
      exact ((hedits v).mp he).1 h
    · rw [if_neg h, if_pos ⟨_, (hedits _).mpr ⟨h, rfl⟩, rfl⟩]
  · intro c hmem c' hmem' hstatus hstatus' hshared
    obtain ⟨p, hp, rfl⟩ := (mem_renames hc).mp ⟨hmem, hstatus⟩
    obtain ⟨q, hq, rfl⟩ := (mem_renames hc).mp ⟨hmem', hstatus'⟩
    rw [renames_apart hc hp hq hshared]
  · intro c hmem hstatus
    obtain ⟨p, hp, rfl⟩ := (mem_renames hc).mp ⟨hmem, hstatus⟩
    obtain ⟨⟨hold, hdel⟩, hnew, hadd⟩ := chosen_files hp
    exact ⟨⟨p.old.1, mem_of_mem_zipIdx hold, hdel,
        (hc.source _ (mem_of_mem_zipIdx hold) hdel).symm, rfl⟩,
      p.new.1, mem_of_mem_zipIdx hnew, hadd, rfl, rfl⟩
  · intro c hmem hstatus
    obtain ⟨p, hp, rfl⟩ := (mem_renames hc).mp ⟨hmem, hstatus⟩
    obtain ⟨-, -, hscore, hle⟩ := mem_renamePairs.mp (mem_of_mem_chosenPairs hp)
    refine ⟨hscore, hle, ?_⟩
    have hmax : p.score ≤ 100 := by
      rw [hscore]
      exact similarity_le _ _
    exact hmax
  · intro d hd a ha hdel hadd hscore
    obtain ⟨p, hp, hshared, hle⟩ := renames_stable hc hd ha hdel hadd hscore
    have hrenamed := (mem_renames hc).mpr ⟨p, hp, rfl⟩
    exact ⟨p.renamed, hrenamed.1, hrenamed.2, hshared, hle⟩
  · intro order'
    rw [detectRenamesAt_order order' order, compared_order order' order]

end Conserve

/-! ## A file whose metadata changes -/

/-- A file stored under some encoding. -/
def encodedFile (encoding : Str) : FileMap IdealHash where
  entries := AList.singleton "a".toList
    ⟨"a".toList, 2, 3, false, encoding, .digest [1], [.digest [1]], [3]⟩
  keyed := by
    intro p e h
    have h := AList.mem_lookup_iff.mp h
    rw [AList.singleton_entries, List.mem_singleton] at h
    obtain ⟨rfl, he⟩ := Sigma.mk.inj h
    rw [eq_of_heq he]

/-- Two files with one hash and one mode are the same for a comparison, so the
new encoding does not arrive. -/
theorem encoding_not_applied :
    (detectRenamesAt .stored (compared .stored (encodedFile []) (encodedFile "zstd".toList)) none
        defaultRenameThreshold) = [] ∧
      ¬ ∀ p, (applyChanges (encodedFile []).entries (detectRenamesAt .stored
        (compared .stored (encodedFile []) (encodedFile "zstd".toList)) none
          defaultRenameThreshold)).lookup p = (encodedFile "zstd".toList).entries.lookup p := by
  have hresult : (detectRenamesAt .stored (compared .stored (encodedFile [])
      (encodedFile "zstd".toList)) none defaultRenameThreshold) = [] := by
    decide
  refine ⟨hresult, ?_⟩
  intro h
  have ha := h "a".toList
  rw [hresult] at ha
  revert ha
  decide

end Diff

end Nipa
