import Nipa.Ledger.Tables
import Nipa.Store.Invariant
import Nipa.Support.Ancestry
import Mathlib.Algebra.Order.BigOperators.Group.List

/-!
# Counters and recounts

A recount of an organisation rebuilds the attribution of each of its projects from
the stored history: the chunks of all files below a commit of the project, over the
parent column of the tree rows.  The counters are then set to the sums of what they
count.
-/

namespace Nipa

open Support

/-! ## The history of a project -/

namespace DB

variable {H : Type} [DecidableEq H]

/-- The rows below the commits of a project, over the parent column. -/
def treeIDs (db : DB H) (projectID : ID) : List ID :=
  reach (fun id => (db.ownChildren id).map TreeRow.id) db.treeNodes.length
    ((db.commits.filter fun c => c.projectID = projectID).map Commit.treeID)

/-- The chunk rows that the files below these rows link to. -/
def historyChunks (db : DB H) (projectID : ID) : List (Chunk H) :=
  let ids := db.treeIDs projectID
  db.chunks.filter fun ch => db.files.any fun f =>
    f.treeID ∈ ids && f.file.chunks.any fun c => c.hash = ch.hash

/-- A row that a chain of parents leads from to the root of a commit of the project. -/
inductive Below (db : DB H) (projectID : ID) : ID → Prop where
  | root {c : Commit H} (hc : c ∈ db.commits) (hp : c.projectID = projectID) :
      Below db projectID c.treeID
  | child {t : TreeRow H} {p : ID} (h : Below db projectID p) (ht : t ∈ db.treeNodes)
      (hp : t.parentTreeID = some p) : Below db projectID t.id

/-- A chunk of a file below a commit of the project. -/
def HistoryChunk (db : DB H) (projectID : ID) (h : H) : Prop :=
  ∃ id, db.Below projectID id ∧ ∃ f ∈ db.ownFiles id, h ∈ f.chunks.map Chunk.hash

omit [DecidableEq H] in
theorem mem_treeIDs {db : DB H} {projectID id : ID} :
    id ∈ db.treeIDs projectID ↔ db.Below projectID id := by
  have hrows : ∀ x, ∀ y ∈ (db.ownChildren x).map TreeRow.id, y ∈ db.treeNodes.map TreeRow.id := by
    intro x y hy
    obtain ⟨t, ht, rfl⟩ := List.mem_map.mp hy
    exact List.mem_map_of_mem (mem_ownChildren.mp ht).1
  rw [treeIDs, mem_reach hrows (by simp)]
  constructor
  · rintro ⟨a, ha, hx⟩
    obtain ⟨c, hc, rfl⟩ := List.mem_map.mp ha
    obtain ⟨hmem, hp⟩ := List.mem_filter.mp hc
    induction hx with
    | refl => exact .root hmem (by simpa using hp)
    | tail _ hstep ih =>
        obtain ⟨t, ht, rfl⟩ := List.mem_map.mp hstep
        exact .child ih (mem_ownChildren.mp ht).1 (mem_ownChildren.mp ht).2
  · intro h
    induction h with
    | @root c hc hp =>
        refine ⟨c.treeID, List.mem_map_of_mem (List.mem_filter.mpr ⟨hc, by simpa using hp⟩), ?_⟩
        exact Relation.ReflTransGen.refl
    | @child t p _ ht hp ih =>
        obtain ⟨a, ha, hx⟩ := ih
        refine ⟨a, ha, hx.tail (List.mem_map_of_mem (mem_ownChildren.mpr ⟨ht, hp⟩))⟩

theorem mem_historyChunks {db : DB H} {projectID : ID} {ch : Chunk H} :
    ch ∈ db.historyChunks projectID ↔ ch ∈ db.chunks ∧ db.HistoryChunk projectID ch.hash := by
  rw [historyChunks, List.mem_filter]
  refine and_congr_right fun _ => ?_
  simp only [List.any_eq_true, Bool.and_eq_true, decide_eq_true_eq, mem_treeIDs]
  constructor
  · rintro ⟨f, hf, hbelow, c, hc, hh⟩
    exact ⟨f.treeID, hbelow, f.file, mem_ownFiles.mpr hf, List.mem_map.mpr ⟨c, hc, hh⟩⟩
  · rintro ⟨id, hbelow, f, hf, hh⟩
    obtain ⟨c, hc, hh⟩ := List.mem_map.mp hh
    exact ⟨⟨id, f⟩, mem_ownFiles.mp hf, hbelow, c, hc, hh⟩

end DB

/-! ## Rebuilding -/

namespace LedgerTables

variable {H : Type} [DecidableEq H]

def orgProjects (t : LedgerTables H) (orgID : ID) : List ID :=
  (t.projects.filter fun p => p.2 = orgID).map Prod.fst

def deleteProjectChunks (t : LedgerTables H) (projectID : ID) : LedgerTables H :=
  { t with projectChunks := t.projectChunks.filter fun c => c.projectID ≠ projectID }

def rebuildProjectChunks (db : DB H) (t : LedgerTables H) (projectID : ID) : LedgerTables H :=
  { t with
    projectChunks := t.projectChunks ++
      ((db.historyChunks projectID).filter fun c => !t.isAttributed projectID c.hash).map
        fun c => ⟨projectID, c.hash, c.sizeBytes⟩ }

def setProjectUsage (t : LedgerTables H) (projectID : ID) : LedgerTables H :=
  { t with
    projectUsage := Function.update t.projectUsage projectID (some (t.chunkBytes projectID)) }

def setOrgUsageFromProjects (t : LedgerTables H) (orgID : ID) : LedgerTables H :=
  { t with
    orgUsage := Function.update t.orgUsage orgID
      (some ((t.orgProjects orgID).map fun p => (t.projectUsage p).getD 0).sum) }

/-- The statements a recount runs for one project. -/
def recountProject (db : DB H) (t : LedgerTables H) (projectID : ID) : LedgerTables H :=
  (rebuildProjectChunks db (t.deleteProjectChunks projectID) projectID).setProjectUsage projectID

def recountOrg (db : DB H) (t : LedgerTables H) (orgID : ID) :
    Except LedgerError (LedgerTables H) := do
  let (_, t) ← t.resolveOwner orgID
  return ((t.orgProjects orgID).foldl (recountProject db) t).setOrgUsageFromProjects orgID

/-! ## What a ledger transaction keeps -/

/-- Every attributed chunk is charged with the size of its row, and every project with
the sum of its attributed chunks. -/
structure Counted (chunkRows : List (Chunk H)) (t : LedgerTables H) : Prop where
  rows : ∀ c ∈ t.projectChunks, (⟨c.hash, c.sizeBytes⟩ : Chunk H) ∈ chunkRows
  usage : ∀ p, (t.projectUsage p).getD 0 = t.chunkBytes p

variable {t t' : LedgerTables H} {chunkRows : List (Chunk H)} {projectID orgID : ID}

theorem isAttributed_iff {h : H} : t.isAttributed projectID h = true ↔
    ∃ c ∈ t.projectChunks, c.projectID = projectID ∧ c.hash = h := by
  simp [isAttributed]

omit [DecidableEq H] in
theorem Counted.mono {chunkRows' : List (Chunk H)} (h : t.Counted chunkRows)
    (hsub : ∀ c ∈ chunkRows, c ∈ chunkRows') : t.Counted chunkRows' :=
  ⟨fun c hc => hsub _ (h.rows c hc), h.usage⟩

omit [DecidableEq H] in
theorem chunkBytes_append (t : LedgerTables H) (cs : List (ProjectChunk H)) (p : ID) :
    ({ t with projectChunks := t.projectChunks ++ cs } : LedgerTables H).chunkBytes p =
      t.chunkBytes p + ((cs.filter fun c => c.projectID = p).map ProjectChunk.sizeBytes).sum := by
  simp [chunkBytes]

omit [DecidableEq H] in
theorem chunkBytes_attribute (t : LedgerTables H) (projectID : ID) (cs : List (Chunk H)) (p : ID) :
    ({ t with projectChunks := t.projectChunks ++
        cs.map fun c => ⟨projectID, c.hash, c.sizeBytes⟩ } : LedgerTables H).chunkBytes p =
      t.chunkBytes p + if projectID = p then (cs.map Chunk.sizeBytes).sum else 0 := by
  rw [chunkBytes_append, List.filter_map]
  by_cases hp : projectID = p
  · simp [hp, Function.comp_def]
  · simp [hp, Function.comp_def]

omit [DecidableEq H] in
theorem resolveOwner_ok {owner : ID} (h : t.resolveOwner orgID = .ok (owner, t')) :
    t'.projectChunks = t.projectChunks ∧ t'.projectUsage = t.projectUsage ∧
      t'.projects = t.projects ∧ t'.orgUsage = t.orgUsage := by
  rw [resolveOwner] at h
  split at h
  · obtain ⟨-, rfl⟩ := Prod.mk.inj (Except.ok.inj h)
    exact ⟨rfl, rfl, rfl, rfl⟩
  · split at h
    · cases h
    · obtain ⟨-, rfl⟩ := Prod.mk.inj (Except.ok.inj h)
      exact ⟨rfl, rfl, rfl, rfl⟩

theorem attributeChunks_ok [HashScheme H] {defaultQuota : ℤ} {chunks : List (Chunk H)}
    (hsize : ∀ c ∈ chunkRows, 0 ≤ c.sizeBytes)
    (h : attributeChunks defaultQuota chunkRows t orgID projectID chunks = .ok t') :
    (∀ p x, t'.isAttributed p x = true ↔
      t.isAttributed p x = true ∨ p = projectID ∧ x ∈ chunks.map Chunk.hash) ∧
    (t.Counted chunkRows → t'.Counted chunkRows) ∧ t'.projects = t.projects := by
  rw [attributeChunks] at h
  split at h
  next hnil =>
    obtain rfl := Except.ok.inj h
    exact ⟨by simp [hnil], id, rfl⟩
  obtain ⟨⟨owner, t₁⟩, howner, h⟩ := bind_eq_ok.mp h
  obtain ⟨hchunks, husage, hprojects, -⟩ := resolveOwner_ok howner
  simp only at h
  generalize (if 0 < t₁.ownerQuotaBytes defaultQuota owner then t₁.ownerUsage owner
    else 0) = used at h
  split at h
  · cases h
  next hrow =>
    rw [insertProjectChunks] at h
    generalize hinserted : (chunkRows.filter fun c =>
      c.hash ∈ chunks.map Chunk.hash && !t₁.isAttributed projectID c.hash) = inserted at h
    have hmem : ∀ c, c ∈ inserted ↔ c ∈ chunkRows ∧ c.hash ∈ chunks.map Chunk.hash ∧
        t₁.isAttributed projectID c.hash = false := by
      intro c
      rw [← hinserted, List.mem_filter, Bool.and_eq_true, decide_eq_true_eq, Bool.not_eq_true']
    -- the outcome has the inserted rows and, when they weigh something, their bytes
    obtain ⟨hprojects', hrows, hbytes⟩ : t'.projects = t.projects ∧
        t'.projectChunks = t.projectChunks ++
          inserted.map (fun c => ⟨projectID, c.hash, c.sizeBytes⟩) ∧
        ∀ p, (t'.projectUsage p).getD 0 = (t.projectUsage p).getD 0 +
          if projectID = p then (inserted.map Chunk.sizeBytes).sum else 0 := by
      have hnonneg : 0 ≤ (inserted.map Chunk.sizeBytes).sum :=
        List.sum_nonneg fun x hx => by
          obtain ⟨c, hc, rfl⟩ := List.mem_map.mp hx
          exact hsize c ((hmem c).mp hc).1
      simp only at h
      split at h
      · cases h
      · split at h
        · obtain rfl := Except.ok.inj h
          refine ⟨hprojects, by rw [← hchunks]; rfl, fun p => ?_⟩
          by_cases hp : projectID = p
          · subst hp
            simp [addOrgUsage, addProjectUsage, husage]
          · simp [addOrgUsage, addProjectUsage, husage, hp, Function.update_of_ne (Ne.symm hp)]
        next hzero =>
          obtain rfl := Except.ok.inj h
          refine ⟨hprojects, by rw [← hchunks], fun p => ?_⟩
          have : (inserted.map Chunk.sizeBytes).sum = 0 := le_antisymm (not_lt.mp hzero) hnonneg
          simp [husage, this]
    refine ⟨fun p x => ?_, fun hcounted => ⟨fun c hc => ?_, fun p => ?_⟩, hprojects'⟩
    · simp only [isAttributed_iff, hrows, List.mem_append, List.mem_map]
      constructor
      · rintro ⟨c, hc | ⟨ch, hch, rfl⟩, rfl, rfl⟩
        · exact Or.inl ⟨c, hc, rfl, rfl⟩
        · exact Or.inr ⟨rfl, List.mem_map.mp ((hmem ch).mp hch).2.1⟩
      · rintro (⟨c, hc, rfl, rfl⟩ | ⟨rfl, ch, hch, rfl⟩)
        · exact ⟨c, Or.inl hc, rfl, rfl⟩
        · by_cases hold : t.isAttributed p ch.hash = true
          · obtain ⟨c, hc, hp, hh⟩ := isAttributed_iff.mp hold
            exact ⟨c, Or.inl hc, hp, hh⟩
          · have hnone := List.find?_eq_none.mp hrow ch hch
            simp only [Bool.not_eq_true, Bool.not_eq_false', List.any_eq_true,
              decide_eq_true_eq] at hnone
            obtain ⟨row, hrowmem, hhash⟩ := hnone
            have hold₁ : t₁.isAttributed p row.hash = false := by
              rw [isAttributed, hchunks, hhash]
              exact Bool.not_eq_true _ ▸ hold
            refine ⟨⟨p, row.hash, row.sizeBytes⟩, Or.inr ⟨row, (hmem row).mpr ⟨hrowmem, ?_,
              hold₁⟩, rfl⟩, rfl, hhash⟩
            rw [hhash]
            exact List.mem_map_of_mem hch
    · rw [hrows] at hc
      rcases List.mem_append.mp hc with hc | hc
      · exact hcounted.rows c hc
      · obtain ⟨ch, hch, rfl⟩ := List.mem_map.mp hc
        exact ((hmem ch).mp hch).1
    · rw [hbytes, hcounted.usage, ← chunkBytes_attribute, chunkBytes, chunkBytes, hrows]

theorem attributeProjectChunks_ok [HashScheme H] {defaultQuota : ℤ} {chunks : List (Chunk H)}
    (hsize : ∀ c ∈ chunkRows, 0 ≤ c.sizeBytes)
    (h : attributeProjectChunks defaultQuota chunkRows t projectID chunks = .ok t') :
    (∀ p x, t'.isAttributed p x = true ↔
      t.isAttributed p x = true ∨ p = projectID ∧ x ∈ chunks.map Chunk.hash) ∧
    (t.Counted chunkRows → t'.Counted chunkRows) ∧ t'.projects = t.projects := by
  rw [attributeProjectChunks] at h
  split at h
  next hnil =>
    obtain rfl := Except.ok.inj h
    exact ⟨by simp [hnil], id, rfl⟩
  · split at h
    · cases h
    · exact attributeChunks_ok hsize h

theorem recountProject_isAttributed (db : DB H) (t : LedgerTables H) (projectID p : ID) (h : H) :
    (recountProject db t projectID).isAttributed p h = true ↔
      if p = projectID then h ∈ (db.historyChunks projectID).map Chunk.hash
      else t.isAttributed p h = true := by
  have hnone : ∀ x, (t.deleteProjectChunks projectID).isAttributed projectID x = false := by
    intro x
    rw [Bool.eq_false_iff, Ne, isAttributed_iff]
    rintro ⟨c, hc, hp, -⟩
    simpa [hp] using (List.mem_filter.mp hc).2
  rw [isAttributed_iff]
  simp only [recountProject, rebuildProjectChunks, setProjectUsage, hnone, List.mem_append,
    List.mem_map]
  split
  next hp =>
    subst hp
    constructor
    · rintro ⟨c, hc | ⟨ch, hch, rfl⟩, hcp, rfl⟩
      · simpa [hcp] using (List.mem_filter.mp hc).2
      · exact ⟨ch, (List.mem_filter.mp hch).1, rfl⟩
    · rintro ⟨ch, hch, rfl⟩
      exact ⟨⟨p, ch.hash, ch.sizeBytes⟩, Or.inr ⟨ch, List.mem_filter.mpr ⟨hch, rfl⟩, rfl⟩, rfl, rfl⟩
  next hp =>
    rw [isAttributed_iff]
    constructor
    · rintro ⟨c, hc | ⟨ch, -, rfl⟩, hcp, hh⟩
      · exact ⟨c, (List.mem_filter.mp hc).1, hcp, hh⟩
      · exact absurd hcp.symm hp
    · rintro ⟨c, hc, rfl, hh⟩
      exact ⟨c, Or.inl (List.mem_filter.mpr ⟨hc, by simpa using hp⟩), rfl, hh⟩

theorem recountProject_counted {db : DB H} (h : t.Counted db.chunks) (projectID : ID) :
    (recountProject db t projectID).Counted db.chunks := by
  refine ⟨fun c hc => ?_, fun p => ?_⟩
  · rcases List.mem_append.mp hc with hc | hc
    · exact h.rows c (List.mem_filter.mp hc).1
    · obtain ⟨ch, hch, rfl⟩ := List.mem_map.mp hc
      exact (DB.mem_historyChunks.mp (List.mem_filter.mp hch).1).1
  · by_cases hp : p = projectID
    · subst hp
      simp only [recountProject, setProjectUsage, Function.update_self, Option.getD_some]
      rfl
    · have hsame : (recountProject db t projectID).chunkBytes p = t.chunkBytes p := by
        have happend := chunkBytes_attribute (t.deleteProjectChunks projectID) projectID
          ((db.historyChunks projectID).filter fun c =>
            !(t.deleteProjectChunks projectID).isAttributed projectID c.hash) p
        rw [if_neg (Ne.symm hp), add_zero] at happend
        refine happend.trans ?_
        rw [chunkBytes, chunkBytes, deleteProjectChunks, List.filter_filter]
        refine congrArg (fun l : List (ProjectChunk H) => (l.map _).sum) ?_
        refine List.filter_congr fun c _ => ?_
        by_cases hc : c.projectID = p
        · simp [hc, hp]
        · simp [hc]
      rw [hsame, ← h.usage]
      simp only [recountProject, setProjectUsage, Function.update_of_ne hp]
      rfl

theorem recountOrg_ok {db : DB H} (h : recountOrg db t orgID = .ok t') :
    (∀ p x, x ∈ (db.historyChunks p).map Chunk.hash → t.isAttributed p x = true →
      t'.isAttributed p x = true) ∧ (t.Counted db.chunks → t'.Counted db.chunks) ∧
      t'.projects = t.projects := by
  rw [recountOrg] at h
  obtain ⟨⟨owner, t₁⟩, howner, h⟩ := bind_eq_ok.mp h
  obtain ⟨hchunks, husage, hprojects, -⟩ := resolveOwner_ok howner
  obtain rfl := pure_eq_ok.mp h
  -- the projects are recounted one after the other
  have hfold : ∀ (ps : List ID) (t : LedgerTables H),
      (∀ p x, x ∈ (db.historyChunks p).map Chunk.hash → t.isAttributed p x = true →
        (ps.foldl (recountProject db) t).isAttributed p x = true) ∧
      (t.Counted db.chunks → (ps.foldl (recountProject db) t).Counted db.chunks) ∧
      (ps.foldl (recountProject db) t).projects = t.projects := by
    intro ps
    induction ps with
    | nil => exact fun t => ⟨fun _ _ _ hx => hx, id, rfl⟩
    | cons q ps ih =>
        intro t
        obtain ⟨hkeep, hcount, hproj⟩ := ih (recountProject db t q)
        refine ⟨fun p x hx hold => hkeep p x hx ?_, fun hc => hcount
          (recountProject_counted hc q), hproj⟩
        rw [recountProject_isAttributed]
        split
        next hp => rwa [← hp]
        · exact hold
  obtain ⟨hkeep, hcount, hproj⟩ := hfold (t₁.orgProjects orgID) t₁
  refine ⟨fun p x hx hold => ?_, fun hc => ?_, hproj.trans hprojects⟩
  · exact hkeep p x hx (by rwa [isAttributed, hchunks])
  · have hc₁ : t₁.Counted db.chunks :=
      ⟨by rw [hchunks]; exact hc.rows, fun p => by
        rw [husage, chunkBytes, hchunks]
        exact hc.usage p⟩
    exact ⟨(hcount hc₁).rows, (hcount hc₁).usage⟩

end LedgerTables

end Nipa
