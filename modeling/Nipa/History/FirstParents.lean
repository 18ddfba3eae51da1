import Nipa.Merge.NearestBase
import Nipa.Support.Lists
import Nipa.TreeWalk
import Mathlib.Data.List.Chain

/-!
# First-parent chains

The history of a branch as it is shown to a reader: its head, the first parent
of the head, and so on down to a commit without parents.  What a commit can
reach is closed under parents, so the commits of a chain that another head does
not contain come first.
-/

namespace Nipa

open Support

variable {H : Type}

/-- The commits from a head down along first parents. -/
inductive FirstParentChain (db : DB H) : ID → List (Commit H) → Prop where
  | root {c : Commit H} (hc : c ∈ db.commits) (hparent : c.parent1ID = none) :
      FirstParentChain db c.id [c]
  | child {c : Commit H} {p : ID} {older : List (Commit H)} (hc : c ∈ db.commits)
      (hparent : c.parent1ID = some p) (hrest : FirstParentChain db p older) :
      FirstParentChain db c.id (c :: older)

open Classical in
/-- The commits of a chain that the given commit does not contain. -/
noncomputable def notContained (db : DB H) (base : Option ID) (chain : List (Commit H)) :
    List (Commit H) :=
  chain.filter fun c => ∀ b ∈ base, ¬ Ancestor (parentsOf db) c.id b

variable {db : DB H} {head : ID} {chain : List (Commit H)}

theorem commitByIDInProject_eq (hdag : CommitDAG db) {projectID : ID} {c : Commit H}
    (hc : c ∈ db.commits) (hproject : c.projectID = projectID) :
    commitByIDInProject db projectID c.id = .ok c := by
  have hget : db.getCommit c.id = some c :=
    (find?_key_eq_some_iff hdag.ids_nodup).mpr ⟨hc, rfl⟩
  rw [commitByIDInProject, hget]
  simp [orError, refuseIf, hproject, pure, Except.pure, bind, Except.bind]

/-! ## Chains of a history without cycles -/

namespace FirstParentChain

theorem mem_commits (h : FirstParentChain db head chain) : ∀ c ∈ chain, c ∈ db.commits := by
  induction h with
  | root hc =>
      intro c hmem
      rwa [List.mem_singleton.mp hmem]
  | child hc _ _ ih =>
      intro c hmem
      rcases List.mem_cons.mp hmem with rfl | hmem
      · exact hc
      · exact ih c hmem

theorem head_mem (h : FirstParentChain db head chain) : head ∈ db.commits.map Commit.id := by
  cases h with
  | root hc => exact List.mem_map_of_mem hc
  | child hc => exact List.mem_map_of_mem hc

theorem ancestor (hdag : CommitDAG db) (h : FirstParentChain db head chain) :
    ∀ c ∈ chain, Ancestor (parentsOf db) c.id head := by
  induction h with
  | root hc =>
      intro c hmem
      rw [List.mem_singleton.mp hmem]
      exact Relation.ReflTransGen.refl
  | @child c p older hc hparent _ ih =>
      have hp : Ancestor (parentsOf db) p c.id := by
        refine Relation.ReflTransGen.single ?_
        rw [hdag.parentsOf_eq hc]
        simp [commitParents, hparent]
      intro c' hmem
      rcases List.mem_cons.mp hmem with rfl | hmem
      · exact Relation.ReflTransGen.refl
      · exact (ih c' hmem).trans hp

theorem pairwise_ancestor (hdag : CommitDAG db) (h : FirstParentChain db head chain) :
    chain.Pairwise fun c c' => Ancestor (parentsOf db) c'.id c.id ∧ c'.id ≠ c.id := by
  induction h with
  | root _ => simp
  | @child c p older hc hparent hrest ih =>
      refine List.pairwise_cons.mpr ⟨?_, ih⟩
      intro c' hmem
      have hp : p ∈ parentsOf db c.id := by
        rw [hdag.parentsOf_eq hc]
        simp [commitParents, hparent]
      have hanc := hrest.ancestor hdag c' hmem
      refine ⟨hanc.trans (Relation.ReflTransGen.single hp), ?_⟩
      intro heq
      rw [heq] at hanc
      have hpc := hdag.acyclic_parentsOf p c.id (Relation.ReflTransGen.single hp) hanc
      rw [hdag.parentsOf_eq hc] at hp
      exact hdag.parent_ne hc hp hpc

theorem nodup (hdag : CommitDAG db) (h : FirstParentChain db head chain) :
    (chain.map Commit.id).Nodup := by
  rw [List.Nodup, List.pairwise_map]
  exact (h.pairwise_ancestor hdag).imp fun hne heq => hne.2 heq.symm

theorem length_le (hdag : CommitDAG db) (h : FirstParentChain db head chain) :
    chain.length ≤ db.commits.length := by
  have hsub : chain.map Commit.id ⊆ db.commits.map Commit.id := by
    intro id hid
    obtain ⟨c, hc, rfl⟩ := List.mem_map.mp hid
    exact List.mem_map_of_mem (h.mem_commits c hc)
  simpa using (List.subperm_of_subset (h.nodup hdag) hsub).length_le

/-- The first commit of a chain is the head, and each is followed by its first
parent. -/
theorem linked (h : FirstParentChain db head chain) :
    (chain.IsChain fun c c' => c.parent1ID = some c'.id) ∧
      ∃ c older, chain = c :: older ∧ c.id = head := by
  induction h with
  | @root c hc _ => exact ⟨List.IsChain.singleton c, c, [], rfl, rfl⟩
  | @child c p older hc hparent _ ih =>
      obtain ⟨hlinked, c', older', rfl, rfl⟩ := ih
      exact ⟨List.isChain_cons_cons.mpr ⟨hparent, hlinked⟩, c, c' :: older', rfl, rfl⟩

end FirstParentChain

/-! ## What a head adds to another -/

open Classical in
theorem FirstParentChain.notContained_eq (hdag : CommitDAG db)
    (h : FirstParentChain db head chain) (base : Option ID) :
    notContained db base chain =
      chain.takeWhile fun c => ∀ b ∈ base, ¬ Ancestor (parentsOf db) c.id b := by
  refine filter_eq_takeWhile ((h.pairwise_ancestor hdag).imp ?_)
  rintro c c' ⟨hanc, -⟩ hc
  simp only [decide_eq_false_iff_not, not_forall, not_not] at hc ⊢
  obtain ⟨b, hb, hcb⟩ := hc
  exact ⟨b, hb, hanc.trans hcb⟩

/-! ## The commit log -/

/-- The recursive part of the log query; the rounds bound the recursion, which
adds a row for every commit of the chain. -/
def commitRows (db : DB H) : ℕ → ID → List (Commit H)
  | 0, _ => []
  | rounds + 1, id =>
      match db.getCommit id with
      | none => []
      | some c =>
          c :: match c.parent1ID with
            | none => []
            | some p => commitRows db rounds p

/-- The first-parent chain from a commit, newest first. -/
def commitLog (db : DB H) (projectID startCommitID : ID) (limit : ℕ) : List (Commit H) :=
  ((commitRows db db.commits.length startCommitID).filter
    fun c => c.projectID = projectID).take limit

theorem commitRows_eq (hdag : CommitDAG db) (hchain : FirstParentChain db head chain) {rounds : ℕ}
    (hrounds : chain.length ≤ rounds) : commitRows db rounds head = chain := by
  have hget : ∀ c ∈ db.commits, db.getCommit c.id = some c := fun c hc =>
    (find?_key_eq_some_iff hdag.ids_nodup).mpr ⟨hc, rfl⟩
  induction hchain generalizing rounds with
  | @root c hc hparent =>
      obtain ⟨rounds, rfl⟩ := Nat.exists_eq_add_of_le' hrounds
      rw [List.length_singleton, commitRows, hget c hc]
      dsimp only
      rw [hparent]
  | @child c p older hc hparent _ ih =>
      rw [List.length_cons] at hrounds
      obtain ⟨rounds, rfl⟩ := Nat.exists_eq_add_of_le' (Nat.le_of_add_left_le hrounds)
      rw [commitRows, hget c hc]
      dsimp only
      rw [hparent]
      dsimp only
      rw [ih (by omega)]

theorem commitLog_eq (hdag : CommitDAG db) (hchain : FirstParentChain db head chain)
    {projectID : ID} (hproject : ∀ c ∈ chain, c.projectID = projectID) (limit : ℕ) :
    commitLog db projectID head limit = chain.take limit := by
  rw [commitLog, commitRows_eq hdag hchain (hchain.length_le hdag), List.filter_eq_self.mpr]
  simpa using hproject

/-! ## A source that has merged its target -/

/-- Target head `2` and a feature commit `3` on top of commit `1`; the source
head `4` has merged the target. -/
def mergedStore : DB IdealHash :=
  { demoStore with commits := [demoCommit 1 none none, demoCommit 2 (some 1) none,
      demoCommit 3 (some 1) none, demoCommit 4 (some 3) (some 2)] }

theorem merged_dag : CommitDAG mergedStore :=
  ⟨by decide, by decide, id, by decide⟩

def mergedChain : List (Commit IdealHash) :=
  [demoCommit 4 (some 3) (some 2), demoCommit 3 (some 1) none, demoCommit 1 none none]

theorem merged_chain : FirstParentChain mergedStore 4 mergedChain := by
  refine FirstParentChain.child (c := demoCommit 4 (some 3) (some 2)) (by decide) rfl ?_
  refine FirstParentChain.child (c := demoCommit 3 (some 1) none) (by decide) rfl ?_
  exact FirstParentChain.root (c := demoCommit 1 none none) (by decide) rfl

end Nipa
