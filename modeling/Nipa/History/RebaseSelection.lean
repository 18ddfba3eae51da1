import Nipa.History.FirstParents
import Nipa.Merge.Strategies

/-!
# The commits a rebase replays

A rebase first collects everything the base reaches over both parents, then
walks down the first parents of the source until it meets a collected commit.
Since the collected commits are closed under parents, the walk takes exactly
the commits of the chain that the base does not contain.
-/

namespace Nipa

open Support

/-! ## What the base reaches -/

section Reached

variable {H : Type} {db : DB H} {projectID base : ID}

/-- One turn of the collection: take an id off the stack. -/
def reachRound (db : DB H) (projectID : ID) (s : List ID × List ID) :
    Except DomainError (List ID ⊕ List ID × List ID) :=
  match s.1 with
  | [] => .ok (.inl s.2)
  | id :: stack =>
      if id ∈ s.2 then .ok (.inr (stack, s.2))
      else do
        let commit ← commitByIDInProject db projectID id
        return .inr (commit.parent2ID.toList ++ commit.parent1ID.toList ++ stack, id :: s.2)

/-- The invariant of the collection: what was collected or waits is reachable,
and the parents of a collected commit are collected or wait. -/
structure Gathers (db : DB H) (base : ID) (stack reached : List ID) : Prop where
  base_placed : base ∈ reached ∨ base ∈ stack
  reached_nodup : reached.Nodup
  ancestor : ∀ x, x ∈ reached ∨ x ∈ stack → Ancestor (parentsOf db) x base
  closed : ∀ x ∈ reached, ∀ p ∈ parentsOf db x, p ∈ reached ∨ p ∈ stack

theorem Gathers.drop {id : ID} {stack reached : List ID}
    (h : Gathers db base (id :: stack) reached) (hid : id ∈ reached) :
    Gathers db base stack reached where
  base_placed := by
    rcases h.base_placed with hb | hb
    · exact Or.inl hb
    · rcases List.mem_cons.mp hb with rfl | hb
      · exact Or.inl hid
      · exact Or.inr hb
  reached_nodup := h.reached_nodup
  ancestor := fun x hx => h.ancestor x (hx.imp_right (List.mem_cons_of_mem _))
  closed := by
    intro x hx p hp
    rcases h.closed x hx p hp with hp | hp
    · exact Or.inl hp
    · rcases List.mem_cons.mp hp with rfl | hp
      · exact Or.inl hid
      · exact Or.inr hp

theorem Gathers.collect (hdag : CommitDAG db) {c : Commit H} (hc : c ∈ db.commits)
    {stack reached : List ID} (h : Gathers db base (c.id :: stack) reached)
    (hnew : c.id ∉ reached) :
    Gathers db base (c.parent2ID.toList ++ c.parent1ID.toList ++ stack) (c.id :: reached) := by
  have hparents : ∀ p, p ∈ parentsOf db c.id ↔
      p ∈ c.parent2ID.toList ++ c.parent1ID.toList := by
    intro p
    rw [hdag.parentsOf_eq hc, commitParents, List.mem_append, List.mem_append, or_comm]
  have hanc := h.ancestor c.id (Or.inr List.mem_cons_self)
  constructor
  · rcases h.base_placed with hb | hb
    · exact Or.inl (List.mem_cons_of_mem _ hb)
    · rcases List.mem_cons.mp hb with heq | hb
      · exact Or.inl (heq ▸ List.mem_cons_self)
      · exact Or.inr (List.mem_append_right _ hb)
  · exact List.nodup_cons.mpr ⟨hnew, h.reached_nodup⟩
  · rintro x (hx | hx)
    · rcases List.mem_cons.mp hx with rfl | hx
      · exact hanc
      · exact h.ancestor x (Or.inl hx)
    · rcases List.mem_append.mp hx with hx | hx
      · have hstep : Ancestor (parentsOf db) x c.id :=
          Relation.ReflTransGen.single ((hparents x).mpr hx)
        exact hstep.trans hanc
      · exact h.ancestor x (Or.inr (List.mem_cons_of_mem _ hx))
  · intro x hx p hp
    rcases List.mem_cons.mp hx with rfl | hx
    · exact Or.inr (List.mem_append_left _ ((hparents p).mp hp))
    · rcases h.closed x hx p hp with hp | hp
      · exact Or.inl (List.mem_cons_of_mem _ hp)
      · rcases List.mem_cons.mp hp with rfl | hp
        · exact Or.inl List.mem_cons_self
        · exact Or.inr (List.mem_append_right _ hp)

theorem reachLoop_spec (hdag : CommitDAG db) (hbase : base ∈ db.commits.map Commit.id)
    (hproject : ∀ c ∈ db.commits, Ancestor (parentsOf db) c.id base → c.projectID = projectID)
    {rounds : ℕ} {stack reached : List ID} (h : Gathers db base stack reached)
    (hrounds : stack.length + 2 * (db.commits.length - reached.length) + 1 ≤ rounds) :
    ∃ all, reachLoop db projectID rounds stack reached = .ok all ∧
      Loop (reachRound db projectID) (stack, reached) (.ok all) ∧
      ∀ x, x ∈ all ↔ Ancestor (parentsOf db) x base := by
  have hstored : ∀ x, Ancestor (parentsOf db) x base → x ∈ db.commits.map Commit.id := by
    intro x hx
    induction hx with
    | refl => exact hbase
    | tail _ hstep _ => exact hdag.parent_stored hstep
  induction rounds generalizing stack reached with
  | zero => omega
  | succ rounds ih =>
      rcases stack with _ | ⟨id, stack⟩
      · refine ⟨reached, rfl, Loop.leave rfl, ?_⟩
        intro x
        refine ⟨fun hx => h.ancestor x (Or.inl hx), fun hx => ?_⟩
        refine ancestor_mem_of_closed (fun y hy p hp => ?_) ?_ hx
        · exact (h.closed y hy p hp).resolve_right (List.not_mem_nil)
        · exact h.base_placed.resolve_right (List.not_mem_nil)
      · rw [List.length_cons] at hrounds
        rw [reachLoop]
        by_cases hid : id ∈ reached
        · rw [if_pos hid]
          obtain ⟨all, hall, hloop, hspec⟩ := ih (h.drop hid) (by omega)
          refine ⟨all, hall, Loop.again ?_ hloop, hspec⟩
          rw [reachRound]
          dsimp only
          rw [if_pos hid]
        · rw [if_neg hid]
          have hanc := h.ancestor id (Or.inr List.mem_cons_self)
          obtain ⟨c, hc, -, rfl⟩ := hdag.exists_getCommit (hstored id hanc)
          have hload := commitByIDInProject_eq hdag hc (hproject c hc hanc)
          have hnext := h.collect hdag hc hid
          have hle : (c.id :: reached).length ≤ db.commits.length := by
            have hsub : c.id :: reached ⊆ db.commits.map Commit.id := fun x hx =>
              hstored x (hnext.ancestor x (Or.inl hx))
            simpa using (List.subperm_of_subset hnext.reached_nodup hsub).length_le
          have htwo : (c.parent2ID.toList ++ c.parent1ID.toList).length ≤ 2 := by
            cases c.parent1ID
            · cases c.parent2ID <;> simp
            · cases c.parent2ID <;> simp
          obtain ⟨all, hall, hloop, hspec⟩ := ih hnext (by
            rw [List.length_append]
            rw [List.length_cons] at hle ⊢
            omega)
          refine ⟨all, ?_, Loop.again ?_ hloop, hspec⟩
          · rw [hload]
            exact hall
          · rw [reachRound]
            dsimp only
            rw [if_neg hid, hload]
            rfl

theorem reachableFrom_spec (hdag : CommitDAG db) {base : Option ID}
    (hbase : ∀ b ∈ base, b ∈ db.commits.map Commit.id)
    (hproject : ∀ c ∈ db.commits, ∀ b ∈ base, Ancestor (parentsOf db) c.id b →
      c.projectID = projectID) :
    ∃ all, reachableFrom db projectID base = .ok all ∧
      (∀ b ∈ base, Loop (reachRound db projectID) ([b], []) (.ok all)) ∧
      ∀ x, x ∈ all ↔ ∃ b ∈ base, Ancestor (parentsOf db) x b := by
  cases base with
  | none => exact ⟨[], rfl, by simp, by simp⟩
  | some b =>
      have hstart : Gathers db b [b] [] :=
        ⟨Or.inr List.mem_cons_self, List.nodup_nil, by
          rintro x (hx | hx)
          · cases hx
          · rw [List.mem_singleton.mp hx]
            exact Relation.ReflTransGen.refl, by simp⟩
      have hrounds : [b].length + 2 * (db.commits.length - ([] : List ID).length) + 1 ≤
          2 * db.commits.length + 2 := by
        rw [List.length_singleton, List.length_nil]
        omega
      obtain ⟨all, hall, hloop, hspec⟩ := reachLoop_spec hdag (hbase b rfl)
        (fun c hc => hproject c hc b rfl) hstart hrounds
      refine ⟨all, hall, ?_, ?_⟩
      · intro b' hb'
        rwa [← Option.mem_some.mp hb']
      · intro x
        rw [hspec x]
        constructor
        · intro hx
          exact ⟨b, rfl, hx⟩
        · rintro ⟨b', hb', hx⟩
          rwa [Option.mem_some.mp hb']

end Reached

/-! ## The commits of the source -/

section Selection

variable {H : Type} {db : DB H} {projectID head : ID} {chain : List (Commit H)}

def errTooManyCommits : DomainError :=
  errUser "cannot rebase more than %d commits" [(toString rebaseCommitLimit).toList]

theorem rebaseWalk_step (hdag : CommitDAG db) {c : Commit H} (hc : c ∈ db.commits)
    (hproject : c.projectID = projectID) (contained : List ID) (left : ℕ) {seen : List ID}
    (hseen : c.id ∉ seen) :
    rebaseWalk db projectID contained left seen c.id =
      if c.id ∈ contained then .ok []
      else match left with
        | 0 => .error errTooManyCommits
        | left + 1 => match c.parent1ID with
          | none => .ok [c]
          | some p => (rebaseWalk db projectID contained left (c.id :: seen) p).map (c :: ·) := by
  rw [rebaseWalk.eq_def]
  dsimp only
  by_cases hcont : c.id ∈ contained
  · rw [if_pos hcont, if_pos hcont]
  · rw [if_neg hcont, if_neg hcont, if_neg hseen, commitByIDInProject_eq hdag hc hproject]
    cases left with
    | zero => rfl
    | succ left =>
        rcases hparent : c.parent1ID with _ | p
        · simp only [bind, Except.bind, hparent]
          rfl
        · simp only [bind, Except.bind, hparent]
          cases rebaseWalk db projectID contained left (c.id :: seen) p <;> rfl

/-- The walk takes the commits of the chain above the first contained one, when
there are not too many. -/
theorem rebaseWalk_eq (hdag : CommitDAG db) (hchain : FirstParentChain db head chain)
    (hproject : ∀ c ∈ chain, c.projectID = projectID) (contained : List ID) (left : ℕ)
    {seen : List ID} (hseen : ∀ c ∈ chain, c.id ∉ seen) :
    rebaseWalk db projectID contained left seen head =
      if (chain.takeWhile fun c => c.id ∉ contained).length ≤ left then
        .ok (chain.takeWhile fun c => c.id ∉ contained)
      else .error errTooManyCommits := by
  induction hchain generalizing left seen with
  | @root c hc hparent =>
      rw [rebaseWalk_step hdag hc (hproject c (by simp)) _ _ (hseen c (by simp))]
      by_cases hcont : c.id ∈ contained
      · rw [if_pos hcont, List.takeWhile_cons_of_neg (by simpa using hcont)]
        simp
      · rw [if_neg hcont, List.takeWhile_cons_of_pos (by simpa using hcont)]
        cases left with
        | zero => rfl
        | succ left =>
            rw [hparent, List.takeWhile_nil, List.length_singleton, if_pos (by omega)]
  | @child c p older hc hparent hrest ih =>
      have hnodup := (FirstParentChain.child hc hparent hrest).nodup hdag
      rw [List.map_cons, List.nodup_cons] at hnodup
      rw [rebaseWalk_step hdag hc (hproject c (by simp)) _ _ (hseen c (by simp))]
      by_cases hcont : c.id ∈ contained
      · rw [if_pos hcont, List.takeWhile_cons_of_neg (by simpa using hcont)]
        simp
      · rw [if_neg hcont, List.takeWhile_cons_of_pos (by simpa using hcont)]
        cases left with
        | zero => rfl
        | succ left =>
            have hseen' : ∀ c' ∈ older, c'.id ∉ c.id :: seen := by
              intro c' hc' hmem
              rcases List.mem_cons.mp hmem with heq | hmem
              · exact hnodup.1 (heq ▸ List.mem_map_of_mem hc')
              · exact hseen c' (List.mem_cons_of_mem _ hc') hmem
            rw [hparent]
            dsimp only
            rw [ih (fun c' hc' => hproject c' (List.mem_cons_of_mem _ hc')) left hseen']
            simp only [List.length_cons, Nat.add_le_add_iff_right]
            split
            · rfl
            · rfl

/-- A rebase replays the commits of the source's first-parent chain that the
base does not contain, oldest first, or is refused when they are too many. -/
theorem rebaseCommits_selects (hdag : CommitDAG db) (hchain : FirstParentChain db head chain)
    {base : Option ID} (hbase : ∀ b ∈ base, b ∈ db.commits.map Commit.id)
    (hproject : ∀ c ∈ db.commits, (Ancestor (parentsOf db) c.id head ∨
      ∃ b ∈ base, Ancestor (parentsOf db) c.id b) → c.projectID = projectID) :
    (∀ b ∈ base, ∃ all, Loop (reachRound db projectID) ([b], []) (.ok all)) ∧
      ((notContained db base chain).length ≤ rebaseCommitLimit →
        rebaseCommits db projectID head base = .ok (notContained db base chain).reverse ∧
          (notContained db base chain).reverse.IsChain
            fun older newer => newer.parent1ID = some older.id) ∧
      (rebaseCommitLimit < (notContained db base chain).length →
        rebaseCommits db projectID head base = .error errTooManyCommits) := by
  obtain ⟨all, hall, hloop, hspec⟩ := reachableFrom_spec hdag hbase
    fun c hc b hb hanc => hproject c hc (Or.inr ⟨b, hb, hanc⟩)
  have htake : notContained db base chain = chain.takeWhile fun c => c.id ∉ all := by
    rw [hchain.notContained_eq hdag]
    refine congrFun (congrArg List.takeWhile (funext fun c => ?_)) chain
    rw [decide_eq_decide, hspec]
    push Not
    rfl
  have hwalk : rebaseWalk db projectID all rebaseCommitLimit [] head =
      if (notContained db base chain).length ≤ rebaseCommitLimit then
        .ok (notContained db base chain)
      else .error errTooManyCommits := by
    rw [htake]
    refine rebaseWalk_eq hdag hchain ?_ all rebaseCommitLimit (by simp)
    intro c hc
    exact hproject c (hchain.mem_commits c hc) (Or.inl (hchain.ancestor hdag c hc))
  have hrebase : rebaseCommits db projectID head base =
      (rebaseWalk db projectID all rebaseCommitLimit [] head).map List.reverse := by
    rw [rebaseCommits, hall]
    change (rebaseWalk db projectID all rebaseCommitLimit [] head >>= _) = _
    rcases rebaseWalk db projectID all rebaseCommitLimit [] head with e | commits
    · rfl
    · rfl
  refine ⟨fun b hb => ⟨all, hloop b hb⟩, ?_, ?_⟩
  · intro hle
    rw [hrebase, hwalk, if_pos hle]
    refine ⟨rfl, ?_⟩
    rw [List.isChain_reverse, htake]
    apply List.IsChain.left_of_append
    rw [List.takeWhile_append_dropWhile]
    exact hchain.linked.1
  · intro hlt
    rw [hrebase, hwalk, if_neg (by omega)]
    rfl

theorem rebaseCommits_selects_merged :
    (∀ b ∈ some (2 : ID), ∃ all, Loop (reachRound mergedStore 1) ([b], []) (.ok all)) ∧
      ((notContained mergedStore (some 2) mergedChain).length ≤ rebaseCommitLimit →
        rebaseCommits mergedStore 1 4 (some 2) =
            .ok (notContained mergedStore (some 2) mergedChain).reverse ∧
          (notContained mergedStore (some 2) mergedChain).reverse.IsChain
            fun older newer => newer.parent1ID = some older.id) ∧
      (rebaseCommitLimit < (notContained mergedStore (some 2) mergedChain).length →
        rebaseCommits mergedStore 1 4 (some 2) = .error errTooManyCommits) := by
  have hproject : ∀ c ∈ mergedStore.commits, c.projectID = 1 := by decide
  exact rebaseCommits_selects merged_dag merged_chain (by decide) fun c hc _ => hproject c hc

end Selection

end Nipa
