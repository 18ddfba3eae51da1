import Nipa.Client.Push

/-!
# The working tree on the file system

A file system refuses to put a file where a directory stands, or below a path
that is a file.  Removing a file leaves its directories behind, so a working
tree keeps the paths whose files are gone.  A merge carried out on a working
tree does to the files what it does to their map; it goes through exactly when
the content it needs can be read and nothing is in the way of what it writes.
-/

namespace Nipa.Client

open Support Merge

theorem not_under_self {p : Str} (hp : p ≠ []) : under p p = false := by
  rw [under, Bool.or_eq_false_iff, decide_eq_false_iff_not]
  refine ⟨hp, ?_⟩
  rw [← Bool.not_eq_true, List.isPrefixOf_iff_prefix]
  intro h
  have hlen := h.length_le
  rw [List.length_append, List.length_singleton] at hlen
  omega

/-- The regular files, and the paths of files that are gone while their directories
are left. -/
@[ext]
structure WorkTree where
  files : Disk
  emptied : List Str
  apart : ∀ p ∈ files.keys, p ≠ [] ∧ ∀ q ∈ files.keys ++ emptied, under p q = false

def errInTheWay (p : Str) : DomainError :=
  errInternalServer "%s: not a directory or file exists" [p]

namespace WorkTree

/-- No directory stands at the path and no file above it. -/
structure Free (t : WorkTree) (p : Str) : Prop where
  not_root : p ≠ []
  no_directory : ∀ q ∈ t.files.keys ++ t.emptied, under p q = false
  no_file_above : ∀ q ∈ t.files.keys, under q p = false

instance (t : WorkTree) (p : Str) : Decidable (t.Free p) :=
  decidable_of_iff (p ≠ [] ∧ (∀ q ∈ t.files.keys ++ t.emptied, under p q = false) ∧
      ∀ q ∈ t.files.keys, under q p = false)
    ⟨fun h => ⟨h.1, h.2.1, h.2.2⟩, fun h => ⟨h.1, h.2, h.3⟩⟩

variable {t : WorkTree} {p : Str}

theorem free_of_mem (hp : p ∈ t.files.keys) : t.Free p where
  not_root := (t.apart p hp).1
  no_directory := (t.apart p hp).2
  no_file_above q hq := (t.apart q hq).2 p (List.mem_append_left _ hp)

theorem mem_keys_insert {disk : Disk} {q : Str} {w : WorkFile} :
    q ∈ (disk.insert p w).keys ↔ q = p ∨ q ∈ disk.keys := by
  rw [← AList.mem_keys, ← AList.mem_keys]
  exact AList.mem_insert disk

theorem mem_keys_erase {disk : Disk} {q : Str} :
    q ∈ (disk.erase p).keys ↔ q ≠ p ∧ q ∈ disk.keys := by
  rw [← AList.mem_keys, ← AList.mem_keys]
  exact AList.mem_erase

/-- Put a file at a free path. -/
def insert (t : WorkTree) (p : Str) (w : WorkFile) (hfree : t.Free p) : WorkTree where
  files := t.files.insert p w
  emptied := t.emptied
  apart := by
    intro q hq
    rcases mem_keys_insert.mp hq with rfl | hq
    · refine ⟨hfree.not_root, fun r hr => ?_⟩
      rcases List.mem_append.mp hr with hr | hr
      · rcases mem_keys_insert.mp hr with rfl | hr
        · exact not_under_self hfree.not_root
        · exact hfree.no_directory r (List.mem_append_left _ hr)
      · exact hfree.no_directory r (List.mem_append_right _ hr)
    · refine ⟨(t.apart q hq).1, fun r hr => ?_⟩
      rcases List.mem_append.mp hr with hr | hr
      · rcases mem_keys_insert.mp hr with hrp | hr
        · rw [hrp]
          exact hfree.no_file_above q hq
        · exact (t.apart q hq).2 r (List.mem_append_left _ hr)
      · exact (t.apart q hq).2 r (List.mem_append_right _ hr)

/-- Take a file away; its directories stay. -/
def remove (t : WorkTree) (p : Str) : WorkTree :=
  if hp : p ∈ t.files.keys then
    { files := t.files.erase p
      emptied := p :: t.emptied
      apart := by
        intro q hq
        have hq := (mem_keys_erase.mp hq).2
        refine ⟨(t.apart q hq).1, fun r hr => (t.apart q hq).2 r ?_⟩
        rcases List.mem_append.mp hr with hr | hr
        · exact List.mem_append_left _ (mem_keys_erase.mp hr).2
        · rcases List.mem_cons.mp hr with rfl | hr
          · exact List.mem_append_left _ hp
          · exact List.mem_append_right _ hr }
  else t

/-- Write a file, or leave the path alone. -/
def place (t : WorkTree) (p : Str) : Option WorkFile → Except DomainError WorkTree
  | none => .ok t
  | some w => if h : t.Free p then .ok (t.insert p w h) else .error (errInTheWay p)

variable {w : Option WorkFile}

theorem place_ok {t' : WorkTree} (h : t.place p w = .ok t') :
    (w.isSome → t.Free p) ∧ t'.files = insertOpt t.files p w ∧ t'.emptied = t.emptied := by
  rcases w with _ | w
  · obtain rfl := Except.ok.inj h
    exact ⟨by simp, rfl, rfl⟩
  · rw [place] at h
    split at h
    next hfree =>
      obtain rfl := Except.ok.inj h
      exact ⟨fun _ => hfree, rfl, rfl⟩
    · cases h

theorem exists_place_ok (h : w.isSome → t.Free p) : ∃ t', t.place p w = .ok t' := by
  rcases w with _ | w
  · exact ⟨t, rfl⟩
  · rw [place, dif_pos (h rfl)]
    exact ⟨_, rfl⟩

theorem free_placed_iff {t' : WorkTree} {q : Str} (hfiles : t'.files = insertOpt t.files p w)
    (hemptied : t'.emptied = t.emptied) :
    t'.Free q ↔ t.Free q ∧ (w.isSome → under q p = false ∧ under p q = false) := by
  rcases w with _ | w
  · obtain rfl : t' = t := WorkTree.ext hfiles hemptied
    simp
  · have hkeys : ∀ r, r ∈ t'.files.keys ↔ r = p ∨ r ∈ t.files.keys := by
      intro r
      rw [hfiles]
      exact mem_keys_insert
    constructor
    · intro h
      refine ⟨⟨h.not_root, fun r hr => h.no_directory r ?_,
        fun r hr => h.no_file_above r ((hkeys r).mpr (Or.inr hr))⟩, fun _ =>
        ⟨h.no_directory p (List.mem_append_left _ ((hkeys p).mpr (Or.inl rfl))),
          h.no_file_above p ((hkeys p).mpr (Or.inl rfl))⟩⟩
      rcases List.mem_append.mp hr with hr | hr
      · exact List.mem_append_left _ ((hkeys r).mpr (Or.inr hr))
      · exact List.mem_append_right _ (hemptied ▸ hr)
    · rintro ⟨h, hp⟩
      obtain ⟨hqp, hpq⟩ := hp rfl
      refine ⟨h.not_root, fun r hr => ?_, fun r hr => ?_⟩
      · rcases List.mem_append.mp hr with hr | hr
        · rcases (hkeys r).mp hr with rfl | hr
          · exact hqp
          · exact h.no_directory r (List.mem_append_left _ hr)
        · exact h.no_directory r (List.mem_append_right _ (hemptied ▸ hr))
      · rcases (hkeys r).mp hr with rfl | hr
        · exact hpq
        · exact h.no_file_above r hr

section Remove

variable {H : Type} [HashScheme H] [DecidableEq H]

/-- Remove a tracked file unless its content is no longer the tracked one. -/
def guardedRemove (codec : Codec H) (t : WorkTree) (p : Str) (base : SnapshotFile H) :
    Except DomainError (WorkTree × Bool) := do
  refuseIf (¬ t.Free p) (errInTheWay p)
  match t.files.lookup p with
  | none => return (t, true)
  | some w =>
      if contentHash codec p base.encoding w.content = base.hash then return (t.remove p, true)
      else return (t, false)

variable {t : WorkTree} {base : SnapshotFile H} {r : WorkTree × Bool}

theorem guardedRemove_eq_ok {codec : Codec H} {p : Str} :
    t.guardedRemove codec p base = .ok r ↔ t.Free p ∧
      r = (if (t.files.lookup p).isSome ∧ Removable codec t.files p base then t.remove p else t,
        decide (Removable codec t.files p base)) := by
  rw [guardedRemove, bind_eq_ok]
  simp only [refuseIf_eq_ok, not_not, exists_and_left, exists_const]
  refine and_congr_right fun _ => Iff.trans ?_ eq_comm
  rcases hlookup : t.files.lookup p with _ | w
  · simp [Removable, hlookup, pure_eq_ok]
  · by_cases hhash : contentHash codec p base.encoding w.content = base.hash
    · simp [Removable, hlookup, hhash, pure_eq_ok]
    · simp [Removable, hlookup, hhash, pure_eq_ok]

theorem exists_guardedRemove_ok {codec : Codec H} {p : Str} (h : t.Free p) :
    ∃ r, t.guardedRemove codec p base = .ok r :=
  ⟨_, guardedRemove_eq_ok.mpr ⟨h, rfl⟩⟩

theorem guardedRemove_files {codec : Codec H} {p : Str} (h : t.guardedRemove codec p base = .ok r) :
    Client.guardedRemove codec t.files p base = (r.1.files, r.2) := by
  obtain ⟨-, rfl⟩ := guardedRemove_eq_ok.mp h
  rw [Client.guardedRemove]
  rcases hlookup : t.files.lookup p with _ | w
  · simp [Removable, hlookup]
  · have hmem : p ∈ t.files.keys := AList.mem_keys.mp (AList.lookup_isSome.mp (by simp [hlookup]))
    by_cases hhash : contentHash codec p base.encoding w.content = base.hash
    · simp [Removable, hlookup, hhash, remove, hmem]
    · simp [Removable, hlookup, hhash]

theorem Free.guardedRemoved {codec : Codec H} {p q : Str} (hq : t.Free q) (hpq : under q p = false)
    (h : t.guardedRemove codec p base = .ok r) : r.1.Free q := by
  obtain ⟨-, rfl⟩ := guardedRemove_eq_ok.mp h
  dsimp only
  split
  · rw [remove]
    split
    · refine ⟨hq.not_root, fun r hr => ?_, fun r hr =>
        hq.no_file_above r (mem_keys_erase.mp hr).2⟩
      rcases List.mem_append.mp hr with hr | hr
      · exact hq.no_directory r (List.mem_append_left _ (mem_keys_erase.mp hr).2)
      · rcases List.mem_cons.mp hr with rfl | hr
        · exact hpq
        · exact hq.no_directory r (List.mem_append_right _ hr)
    · exact hq
  · exact hq

end Remove

end WorkTree

/-! ## A merge on the tree -/

section Merge

variable {H : Type} [HashScheme H]

def placeEntry (codec : Codec H) (acc : WorkTree × ThreeWayResult H) (p : Str)
    (e : Decided H) : Except DomainError (WorkTree × ThreeWayResult H) := do
  let eff ← entryEffect codec p e
  let tree ← acc.1.place p eff.write
  return (tree, acc.2.add p eff)

variable [DecidableEq H]

def placeDeletion (codec : Codec H) (snapshot : Snapshot H)
    (acc : WorkTree × ThreeWayResult H) (p : Str) :
    Except DomainError (WorkTree × ThreeWayResult H) :=
  match snapshot.files.lookup p with
  | none => .ok (acc.1, acc.2.delete p false)
  | some base => do
      let removed ← acc.1.guardedRemove codec p base
      return (removed.1, acc.2.delete p removed.2)

/-- Apply a merge result to the working tree. -/
def placeThreeWay (codec : Codec H) (snapshot : Snapshot H) (tree : WorkTree)
    (ours : GoMap (Entry H)) (res : Result H) :
    Except DomainError (WorkTree × ThreeWayResult H) := do
  let acc ← (res.entries.entries.insertionSort fun e e' => e.1 ≤ e'.1).foldlM
    (fun acc e => placeEntry codec acc e.1 e.2) (tree, ⟨ours, [], [], [], ∅, []⟩)
  (res.deleted.insertionSort (· ≤ ·)).foldlM (placeDeletion codec snapshot) acc

/-- Where a merge on the tree starts. -/
def treeStart (tree : WorkTree) (ours : GoMap (Entry H)) : WorkTree × ThreeWayResult H :=
  (tree, ⟨ours, [], [], [], ∅, []⟩)

/-- The files of the tree beside what the merge has come to. -/
def onFiles (acc : WorkTree × ThreeWayResult H) : Disk × ThreeWayResult H :=
  (acc.1.files, acc.2)

variable {codec : Codec H} {snapshot : Snapshot H} {acc acc' : WorkTree × ThreeWayResult H}
  {p : Str}

omit [DecidableEq H] in
theorem placeEntry_files {e : Decided H} (h : placeEntry codec acc p e = .ok acc') :
    applyEntry codec (onFiles acc) p e = .ok (onFiles acc') := by
  rw [placeEntry] at h
  obtain ⟨eff, heff, h⟩ := bind_eq_ok.mp h
  obtain ⟨tree, htree, h⟩ := bind_eq_ok.mp h
  obtain rfl := pure_eq_ok.mp h
  rw [applyEntry]
  refine bind_eq_ok.mpr ⟨eff, heff, pure_eq_ok.mpr ?_⟩
  rw [onFiles, onFiles, (WorkTree.place_ok htree).2.1]

theorem placeDeletion_files (h : placeDeletion codec snapshot acc p = .ok acc') :
    applyDeletion codec snapshot (onFiles acc) p = onFiles acc' := by
  rw [placeDeletion] at h
  rw [applyDeletion]
  rcases hbase : snapshot.files.lookup p with _ | base
  all_goals simp only [hbase] at h
  · obtain rfl := Except.ok.inj h
    rfl
  · obtain ⟨removed, hremoved, h⟩ := bind_eq_ok.mp h
    obtain rfl := pure_eq_ok.mp h
    have hfiles := WorkTree.guardedRemove_files hremoved
    simp only [onFiles, hfiles]

theorem placeThreeWay_files {tree : WorkTree} {ours : GoMap (Entry H)} {res : Result H}
    (h : placeThreeWay codec snapshot tree ours res = .ok acc) :
    applyThreeWay codec snapshot tree.files ours res = .ok (onFiles acc) := by
  rw [placeThreeWay] at h
  obtain ⟨mid, hmid, h⟩ := bind_eq_ok.mp h
  rw [applyThreeWay]
  refine bind_eq_ok.mpr ⟨onFiles mid, foldlM_map (φ := onFiles)
    (fun _ _ _ hstep => placeEntry_files hstep) hmid, pure_eq_ok.mpr ?_⟩
  have hdeleted := foldlM_map (φ := onFiles)
    (g := fun acc p => pure (applyDeletion codec snapshot acc p))
    (fun _ _ _ hstep => congrArg pure (placeDeletion_files hstep)) h
  rw [List.foldlM_pure] at hdeleted
  exact pure_eq_ok.mp hdeleted

/-- A decision that puts a file on disk. -/
def WritesFile (e : Decided H) : Prop :=
  e.decision = .keepTheirs ∨ e.decision = .textMerge

instance (e : Decided H) : Decidable (WritesFile e) :=
  inferInstanceAs (Decidable (_ ∨ _))

omit [DecidableEq H] in
theorem entryEffect_writes {e : Decided H} {eff : EntryEffect H}
    (h : entryEffect codec p e = .ok eff) :
    (eff.write.isSome ↔ WritesFile e) ∧ (eff.staged = true ↔ WritesFile e) := by
  rcases hd : e.decision with _ | _ | _ | _ | _ | _ | _
  case keepOurs =>
    rw [entryEffect_keepOurs h hd]
    simp [WritesFile, hd]
  case keepTheirs =>
    obtain ⟨w, -, rfl⟩ := entryEffect_keepTheirs h hd
    simp [WritesFile, hd]
  case textMerge =>
    obtain ⟨-, -, -, w, -, -, -, -, hwrite, -, hstaged⟩ := entryEffect_textMerge h hd
    simp [WritesFile, hd, hwrite, hstaged]
  all_goals
    obtain ⟨hwrite, hstaged, -⟩ := entryEffect_conflict h (by simp [hd])
    simp [WritesFile, hd, hwrite, hstaged]

/-- Nothing is in the way of any file that is written. -/
def RoomFor (tree : WorkTree) (l : List (Sigma fun _ : Str => Decided H)) : Prop :=
  ∀ e ∈ l, WritesFile e.2 →
    tree.Free e.1 ∧ ∀ e' ∈ l, WritesFile e'.2 → under e.1 e'.1 = false

omit [HashScheme H] [DecidableEq H] in
theorem roomFor_cons {tree : WorkTree} {e : Sigma fun _ : Str => Decided H}
    {l : List (Sigma fun _ : Str => Decided H)} :
    RoomFor tree (e :: l) ↔ (WritesFile e.2 → tree.Free e.1) ∧ RoomFor tree l ∧
      ∀ e' ∈ l, WritesFile e.2 → WritesFile e'.2 →
        under e'.1 e.1 = false ∧ under e.1 e'.1 = false := by
  constructor
  · intro h
    refine ⟨fun he => (h e List.mem_cons_self he).1, fun a ha hwa => ?_, fun a ha he hwa => ?_⟩
    · obtain ⟨hfree, hall⟩ := h a (List.mem_cons_of_mem _ ha) hwa
      exact ⟨hfree, fun b hb => hall b (List.mem_cons_of_mem _ hb)⟩
    · exact ⟨(h a (List.mem_cons_of_mem _ ha) hwa).2 e List.mem_cons_self he,
        (h e List.mem_cons_self he).2 a (List.mem_cons_of_mem _ ha) hwa⟩
  · rintro ⟨hfree, hrest, happart⟩ a ha hwa
    rcases List.mem_cons.mp ha with rfl | ha
    · refine ⟨hfree hwa, fun b hb hwb => ?_⟩
      rcases List.mem_cons.mp hb with rfl | hb
      · exact not_under_self (hfree hwb).not_root
      · exact (happart b hb hwa hwb).2
    · refine ⟨(hrest a ha hwa).1, fun b hb hwb => ?_⟩
      rcases List.mem_cons.mp hb with hbe | hb
      · rw [hbe] at hwb ⊢
        exact (happart a ha hwb hwa).1
      · exact (hrest a ha hwa).2 b hb hwb

omit [DecidableEq H] in
theorem exists_placeEntries {l : List (Sigma fun _ : Str => Decided H)} :
    (∃ acc', l.foldlM (fun acc e => placeEntry codec acc e.1 e.2) acc = .ok acc') ↔
      (∀ e ∈ l, ∃ eff, entryEffect codec e.1 e.2 = .ok eff) ∧ RoomFor acc.1 l := by
  induction l generalizing acc with
  | nil => simp [RoomFor, pure_eq_ok]
  | cons e l ih =>
      have hroom : ∀ {eff tree}, entryEffect codec e.1 e.2 = .ok eff →
          acc.1.place e.1 eff.write = .ok tree →
          (RoomFor tree l ↔ RoomFor acc.1 l ∧ ∀ e' ∈ l, WritesFile e.2 → WritesFile e'.2 →
            under e'.1 e.1 = false ∧ under e.1 e'.1 = false) := by
        intro eff tree heff htree
        obtain ⟨-, hfiles, hemptied⟩ := WorkTree.place_ok htree
        have hfree : ∀ q, tree.Free q ↔ acc.1.Free q ∧
            (WritesFile e.2 → under q e.1 = false ∧ under e.1 q = false) := by
          intro q
          rw [WorkTree.free_placed_iff hfiles hemptied, (entryEffect_writes heff).1]
        simp only [RoomFor, hfree]
        constructor
        · intro h
          exact ⟨fun a ha hwa => ⟨(h a ha hwa).1.1, (h a ha hwa).2⟩,
            fun a ha he hwa => (h a ha hwa).1.2 he⟩
        · rintro ⟨h, happart⟩ a ha hwa
          exact ⟨⟨(h a ha hwa).1, fun he => happart a ha he hwa⟩, (h a ha hwa).2⟩
      simp only [List.foldlM_cons, bind_eq_ok, List.forall_mem_cons, roomFor_cons]
      constructor
      · rintro ⟨acc', mid, hmid, hrest⟩
        rw [placeEntry] at hmid
        obtain ⟨eff, heff, hmid⟩ := bind_eq_ok.mp hmid
        obtain ⟨tree, htree, hmid⟩ := bind_eq_ok.mp hmid
        obtain rfl := pure_eq_ok.mp hmid
        obtain ⟨heffs, hl⟩ := ih.mp ⟨acc', hrest⟩
        obtain ⟨hl, happart⟩ := (hroom heff htree).mp hl
        exact ⟨⟨⟨eff, heff⟩, heffs⟩,
          fun he => (WorkTree.place_ok htree).1 ((entryEffect_writes heff).1.mpr he), hl, happart⟩
      · rintro ⟨⟨⟨eff, heff⟩, heffs⟩, he, hl, happart⟩
        obtain ⟨tree, htree⟩ := WorkTree.exists_place_ok (t := acc.1) (p := e.1)
          (w := eff.write) fun hw => he ((entryEffect_writes heff).1.mp hw)
        have hmid : placeEntry codec acc e.1 e.2 = .ok (tree, acc.2.add e.1 eff) := by
          rw [placeEntry]
          exact bind_eq_ok.mpr ⟨eff, heff, bind_eq_ok.mpr ⟨tree, htree, rfl⟩⟩
        obtain ⟨acc', hrest⟩ : ∃ acc', l.foldlM (fun acc e => placeEntry codec acc e.1 e.2)
            (tree, acc.2.add e.1 eff) = .ok acc' :=
          ih.mpr ⟨heffs, (hroom heff htree).mpr ⟨hl, happart⟩⟩
        exact ⟨acc', _, hmid, hrest⟩

theorem exists_placeDeletions {l : List Str}
    (hfree : ∀ p ∈ l, snapshot.files.lookup p ≠ none → acc.1.Free p)
    (happart : ∀ p ∈ l, ∀ q ∈ l, snapshot.files.lookup p ≠ none →
      snapshot.files.lookup q ≠ none → under p q = false) :
    ∃ acc', l.foldlM (placeDeletion codec snapshot) acc = .ok acc' := by
  induction l generalizing acc with
  | nil => exact ⟨acc, rfl⟩
  | cons p l ih =>
      rw [List.foldlM_cons]
      suffices hmid : ∃ mid, placeDeletion codec snapshot acc p = .ok mid ∧
          ∀ q ∈ l, snapshot.files.lookup q ≠ none → mid.1.Free q by
        obtain ⟨mid, hmid, hrest⟩ := hmid
        obtain ⟨acc', hacc'⟩ := ih hrest fun a ha b hb =>
          happart a (List.mem_cons_of_mem _ ha) b (List.mem_cons_of_mem _ hb)
        exact ⟨acc', bind_eq_ok.mpr ⟨mid, hmid, hacc'⟩⟩
      rcases hbase : snapshot.files.lookup p with _ | base
      · refine ⟨(acc.1, acc.2.delete p false), ?_, fun q hq =>
          hfree q (List.mem_cons_of_mem _ hq)⟩
        rw [placeDeletion, hbase]
      · have hsome : snapshot.files.lookup p ≠ none := by simp [hbase]
        obtain ⟨removed, hremoved⟩ : ∃ removed, acc.1.guardedRemove codec p base = .ok removed :=
          WorkTree.exists_guardedRemove_ok (hfree p List.mem_cons_self hsome)
        refine ⟨(removed.1, acc.2.delete p removed.2), ?_, fun q hq hsq => ?_⟩
        · rw [placeDeletion, hbase]
          exact bind_eq_ok.mpr ⟨removed, hremoved, rfl⟩
        · exact (hfree q (List.mem_cons_of_mem _ hq) hsq).guardedRemoved
            (happart q (List.mem_cons_of_mem _ hq) p List.mem_cons_self hsq hsome) hremoved

end Merge

end Nipa.Client
